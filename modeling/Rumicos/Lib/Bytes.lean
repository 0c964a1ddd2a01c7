/-
Byte memories: little-endian words, NUL-terminated strings and NULL-terminated arrays of pointers to them.

A memory is a partial function from addresses to bytes. A store changes its own bytes and no others (`store_inside`,
`store_outside`), so what was read above a stack pointer is still read after a push below it. Strings and arrays are read
in one way only (`CString.unique`, `StringArray.unique`).
-/
import Mathlib.Tactic

namespace Rumicos.Lib

open List Option

/-! ## Words -/

/-- the value of the bytes, little-endian -/
def leValue (bs : List UInt8) : ℕ := bs.foldr (fun b n => b.toNat + 256 * n) 0

/-- `n` in `len` bytes, little-endian -/
def bytesOf (len n : ℕ) : List UInt8 := (List.range len).map fun i => UInt8.ofNat (n / 256 ^ i % 256)

@[simp] theorem length_bytesOf (len n : ℕ) : (bytesOf len n).length = len := by simp [bytesOf]

theorem bytesOf_succ (len n : ℕ) : bytesOf (len + 1) n = UInt8.ofNat (n % 256) :: bytesOf len (n / 256) := by
  rw [bytesOf, range_succ_eq_map, map_cons, List.map_map, pow_zero, Nat.div_one]
  congr 2
  funext i
  rw [Function.comp_apply, pow_succ', Nat.div_div_eq_div_mul]

theorem leValue_bytesOf {len n : ℕ} (h : n < 256 ^ len) : leValue (bytesOf len n) = n := by
  induction len generalizing n with
  | zero =>
    have hn : n = 0 := by simpa using h
    rw [hn]
    rfl
  | succ len ih =>
    have hdiv : n / 256 < 256 ^ len := Nat.div_lt_of_lt_mul (by rwa [pow_succ'] at h)
    calc leValue (bytesOf (len + 1) n)
        = (UInt8.ofNat (n % 256)).toNat + 256 * leValue (bytesOf len (n / 256)) := by
          rw [bytesOf_succ, leValue, foldr_cons, ← leValue]
      _ = n % 256 + 256 * (n / 256) := by rw [ih hdiv, UInt8.toNat_ofNat_of_lt' (Nat.mod_lt _ (by decide))]
      _ = n := Nat.mod_add_div n 256

/-! ## Memories -/

abbrev Mem := ℕ → Option UInt8

namespace Mem

/-- the `len` bytes from `a` on, if all can be read -/
def load (m : Mem) (a : ℕ) : ℕ → Option (List UInt8)
  | 0 => some []
  | len + 1 => (m a).bind fun b => (m.load (a + 1) len).map (b :: ·)

def word64 (m : Mem) (a : ℕ) : Option ℕ := (m.load a 8).map leValue

def store (m : Mem) (a : ℕ) (bs : List UInt8) : Mem := fun x => if a ≤ x ∧ x < a + bs.length then bs[x - a]? else m x

variable {m m' : Mem} {a len : ℕ} {bs : List UInt8}

theorem load_eq_some : m.load a len = some bs ↔ bs.length = len ∧ ∀ i < len, m (a + i) = bs[i]? := by
  induction len generalizing a bs with
  | zero =>
    cases bs with
    | nil | cons b bs => simp [load]
  | succ len ih =>
    rw [load, bind_eq_some_iff]
    constructor
    · intro h
      obtain ⟨b, hb, hrest⟩ := h
      obtain ⟨bs', hload, rfl⟩ := map_eq_some_iff.1 hrest
      obtain ⟨hlen, hget⟩ := ih.1 hload
      refine ⟨by simp [hlen], fun i hi => ?_⟩
      cases i with
      | zero => simpa using hb
      | succ i =>
        have hi' := hget i (by omega)
        rwa [Nat.add_assoc, Nat.add_comm 1 i] at hi'
    · intro h
      obtain ⟨hlen, hget⟩ := h
      cases bs with
      | nil => cases hlen
      | cons b bs =>
        refine ⟨b, hget 0 (by omega), ?_⟩
        have hload : m.load (a + 1) len = some bs := by
          refine ih.2 ⟨by simpa using hlen, fun i hi => ?_⟩
          have hi' := hget (i + 1) (by omega)
          rwa [getElem?_cons_succ, Nat.add_comm i 1, ← Nat.add_assoc] at hi'
        rw [hload, map_some]

theorem load_congr (h : ∀ i < len, m' (a + i) = m (a + i)) : m'.load a len = m.load a len := by
  induction len generalizing a with
  | zero => rfl
  | succ len ih =>
    have htail : m'.load (a + 1) len = m.load (a + 1) len := by
      apply ih
      intro i hi
      have hi' := h (i + 1) (by omega)
      rwa [Nat.add_comm i 1, ← Nat.add_assoc] at hi'
    have hhead : m' a = m a := h 0 (by omega)
    rw [load, load, htail, hhead]

/-- reading more does not change what was read -/
theorem load_mono (h : ∀ x b, m x = some b → m' x = some b) (hload : m.load a len = some bs) :
    m'.load a len = some bs := by
  obtain ⟨hlen, hget⟩ := load_eq_some.1 hload
  refine load_eq_some.2 ⟨hlen, fun i hi => ?_⟩
  have hi' : i < bs.length := by omega
  rw [getElem?_eq_getElem hi']
  exact h _ _ ((hget i hi).trans (getElem?_eq_getElem hi'))

theorem word64_mono (h : ∀ x b, m x = some b → m' x = some b) {v : ℕ} (hword : m.word64 a = some v) :
    m'.word64 a = some v := by
  obtain ⟨bs, hload, rfl⟩ := map_eq_some_iff.1 hword
  rw [word64, load_mono h hload, map_some]

theorem store_inside {i : ℕ} (h : i < bs.length) : m.store a bs (a + i) = bs[i]? := by
  rw [store, if_pos ⟨Nat.le_add_right _ _, by omega⟩, Nat.add_sub_cancel_left]

theorem store_outside {x : ℕ} (h : x < a ∨ a + bs.length ≤ x) : m.store a bs x = m x := by
  rw [store, if_neg (by omega)]

theorem store_nil : m.store a [] = m := funext fun x => if_neg (by simp only [length_nil]; omega)

theorem store_append (cs : List UInt8) : (m.store a bs).store (a + bs.length) cs = m.store a (bs ++ cs) := by
  funext x
  simp only [store, length_append]
  by_cases hin : a + bs.length ≤ x ∧ x < a + bs.length + cs.length
  · rw [if_pos hin, if_pos (by omega), getElem?_append_right (by omega), Nat.sub_add_eq]
  · rw [if_neg hin]
    by_cases hbs : a ≤ x ∧ x < a + bs.length
    · rw [if_pos hbs, if_pos (by omega), getElem?_append_left (by omega)]
    · rw [if_neg hbs, if_neg (by omega)]

theorem load_store : (m.store a bs).load a bs.length = some bs := load_eq_some.2 ⟨rfl, fun _ hi => store_inside hi⟩

end Mem

/-! ## Strings -/

/-- the bytes of `s` are at `a`, followed by the first NUL -/
structure CString (m : Mem) (a : ℕ) (s : List UInt8) : Prop where
  bytes : ∀ i < s.length, m (a + i) = s[i]?
  nul : m (a + s.length) = some 0
  nonzero : 0 ∉ s

section Strings

variable {m m' : Mem} {a : ℕ} {s t : List UInt8}

theorem CString.mono (h : CString m a s) (hmore : ∀ x b, m x = some b → m' x = some b) : CString m' a s where
  bytes i hi := by
    have hget := (h.bytes i hi).trans (getElem?_eq_getElem hi)
    rw [hmore _ _ hget, getElem?_eq_getElem hi]
  nul := hmore _ _ h.nul
  nonzero := h.nonzero

theorem CString.exists_byte (h : CString m a s) : ∃ b, m a = some b := by
  cases s with
  | nil => exact ⟨0, h.nul⟩
  | cons b s => exact ⟨b, h.bytes 0 (Nat.zero_lt_succ _)⟩

/-- a longer string has no NUL where a shorter one ends -/
theorem CString.length_le (hs : CString m a s) (ht : CString m a t) : t.length ≤ s.length := by
  by_contra hlt
  have hnul := ht.bytes s.length (by omega)
  rw [hs.nul] at hnul
  exact ht.nonzero (mem_of_getElem? hnul.symm)

theorem CString.unique (hs : CString m a s) (ht : CString m a t) : s = t := by
  have hlen : s.length = t.length := le_antisymm (ht.length_le hs) (hs.length_le ht)
  apply ext_getElem?
  intro i
  by_cases hi : i < s.length
  · rw [← hs.bytes i hi, ht.bytes i (hlen ▸ hi)]
  · rw [getElem?_eq_none (by omega), getElem?_eq_none (by omega)]

end Strings

/-! ## Arrays of strings -/

/-- a NULL-terminated array of pointers, each with the string it points to -/
inductive StringArray (m : Mem) : ℕ → List (ℕ × List UInt8) → Prop
  | nil {a : ℕ} (h : m.word64 a = some 0) : StringArray m a []
  | cons {a p : ℕ} {s : List UInt8} {rest : List (ℕ × List UInt8)} (hword : m.word64 a = some p) (hp : p ≠ 0)
      (hs : CString m p s)
      (hrest : StringArray m (a + 8) rest) : StringArray m a ((p, s) :: rest)

theorem StringArray.unique {m : Mem} {a : ℕ} {xs ys : List (ℕ × List UInt8)} (hx : StringArray m a xs)
    (hy : StringArray m a ys) :
    xs = ys := by
  induction hx generalizing ys with
  | nil h =>
    cases hy with
    | nil _ => rfl
    | cons hword hp _ _ => exact absurd (some.inj (hword.symm.trans h)) hp
  | cons hword hp hs _ ih =>
    cases hy with
    | nil h => exact absurd (some.inj (hword.symm.trans h)) hp
    | cons hword' _ hs' hrest' =>
      cases hword.symm.trans hword'
      rw [hs.unique hs', ih hrest']

theorem StringArray.mono {m m' : Mem} (hmore : ∀ x b, m x = some b → m' x = some b) {a : ℕ} {xs : List (ℕ × List UInt8)}
    (h : StringArray m a xs) : StringArray m' a xs := by
  induction h with
  | nil hword => exact .nil (Mem.word64_mono hmore hword)
  | cons hword hp hs _ ih => exact .cons (Mem.word64_mono hmore hword) hp (hs.mono hmore) ih

/-- the words `vs` are at `a`, `a + 8`, ... -/
def Words (m : Mem) : ℕ → List ℕ → Prop
  | _, [] => True
  | a, v :: vs => m.word64 a = some v ∧ Words m (a + 8) vs

instance decidableWords (m : Mem) : (a : ℕ) → (vs : List ℕ) → Decidable (Words m a vs)
  | _, [] => isTrue trivial
  | a, _ :: vs => @instDecidableAnd _ _ _ (decidableWords m (a + 8) vs)

section Words

variable {m m' : Mem}

theorem words_append {a : ℕ} {vs ws : List ℕ} : Words m a (vs ++ ws) ↔ Words m a vs ∧ Words m (a + 8 * vs.length) ws := by
  induction vs generalizing a with
  | nil => simp [Words]
  | cons v vs ih =>
    rw [cons_append, Words, Words, ih, length_cons, and_assoc, show a + 8 + 8 * vs.length =
      a + 8 * (vs.length + 1) by ring]

theorem stringArray_of_words {a : ℕ} {ps vs : List ℕ} {ss : List (List UInt8)} (hwords : Words m a (ps ++ 0 :: vs))
    (hstrings : List.Forall₂ (fun p s => p ≠ 0 ∧ CString m p s) ps ss) : StringArray m a (ps.zip ss) := by
  induction hstrings generalizing a with
  | nil => exact .nil hwords.1
  | cons hp _ ih => exact .cons hwords.1 hp.1 hp.2 (ih hwords.2)

end Words

end Rumicos.Lib
