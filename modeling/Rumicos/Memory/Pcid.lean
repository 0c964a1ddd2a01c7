/-
The PCID allocator under any interleaving of its callers (`crates/memory/src/pcid.rs`).

`alloc` goes through the words of the bitmap. In each it takes the lowest free bit of the word it has read and tries to
set it with a compare-exchange of the word, which may fail spuriously; after a failure it goes on with the word it was
told. `free` clears a bit in one step. Any number of calls interleave.

The bitmap is a bit for each id; a word is its 64 bits. History variables: `held`, and of a call `seen`, the ids that
were taken in some state since it began. The generation that `alloc` returns with the id is left out.
-/
import Rumicos.Lib.Run

namespace Rumicos.Memory.Pcid

open Lib Function List

/-! ## The allocator -/

def maxPcid : ℕ := 4096

/-- `free.trailing_zeros()`, where bit 0 of word 0 is never free -/
def firstFree (i : ℕ) (word : ℕ → Bool) : Option ℕ := (List.range 64).find? fun b => word b = false ∧ 0 < i * 64 + b

inductive Pc where
  /-- before the load of word `i` -/
  | word (i : ℕ)
  /-- in the loop of word `i`, which was last read as `word` -/
  | loop (i : ℕ) (word : ℕ → Bool)
  | returned (id : Option ℕ)

structure Call where
  pc : Pc
  seen : ℕ → Bool

structure State where
  bitmap : ℕ → Bool
  calls : List Call
  held : List ℕ

def State.load (s : State) (i : ℕ) : ℕ → Bool := fun b => s.bitmap (i * 64 + b)

/-- the word is the one that was read -/
def State.same (s : State) (i : ℕ) (word : ℕ → Bool) : Bool := (List.range 64).all fun b => s.load i b == word b

/-- one step of an `alloc` -/
def State.stepCall (s : State) (words : ℕ) (spurious : Bool) : Pc → Option (State × Pc)
  | .word i => some (s, if i < words ∧ i * 64 < maxPcid then .loop i (s.load i) else .returned none)
  | .loop i word =>
    match firstFree i word with
    | none => some (s, .word (i + 1))
    | some b =>
      let id := i * 64 + b
      if maxPcid ≤ id then some (s, .word (i + 1))
      else if s.same i word && !spurious then
        some ({ s with bitmap := update s.bitmap id true, held := id :: s.held }, .returned (some id))
      else some (s, .loop i (s.load i))
  | .returned _ => none

/-- a call that is on its way sees the state -/
def Call.sample (bitmap : ℕ → Bool) (c : Call) : Call :=
  match c.pc with
  | .returned _ => c
  | _ => { c with seen := fun id => c.seen id || bitmap id }

def State.sample (s : State) : State := { s with calls := s.calls.map (Call.sample s.bitmap) }

inductive Act where
  | alloc
  | step (k : ℕ) (spurious : Bool)
  /-- by the holder -/
  | free (id : ℕ)

def step (words : ℕ) (s : State) : Act → Option State
  | .alloc => some (State.sample { s with calls := s.calls ++ [⟨.word 0, fun _ => false⟩] })
  | .step k spurious => do
    let c ← s.calls[k]?
    let (s', pc) ← s.stepCall words spurious c.pc
    return State.sample { s' with calls := s'.calls.set k ⟨pc, c.seen⟩ }
  | .free id =>
    if id ∈ s.held then
      let bitmap := if id = 0 ∨ maxPcid ≤ id then s.bitmap else update s.bitmap id false
      some (State.sample { s with bitmap := bitmap, held := s.held.erase id })
    else none

def run (words : ℕ) (as : List Act) : Option State := as.foldlM (step words) ⟨fun _ => false, [], []⟩

/-! ## What a call has seen -/

def Call.Ok (c : Call) : Prop :=
  match c.pc with
  | .word i => ∀ id, 0 < id → id < i * 64 → c.seen id = true
  | .loop i word => i * 64 < maxPcid ∧ (∀ id, 0 < id → id < i * 64 → c.seen id = true) ∧
      ∀ b < 64, word b = true → c.seen (i * 64 + b) = true
  | .returned none => ∀ id, 0 < id → id < maxPcid → c.seen id = true
  | .returned (some _) => True

structure Inv (s : State) : Prop where
  nodup : s.held.Nodup
  range : ∀ id ∈ s.held, 0 < id ∧ id < maxPcid
  taken : ∀ id, s.bitmap id = true ↔ id ∈ s.held
  calls : ∀ c ∈ s.calls, c.Ok

variable {s s' : State} {words : ℕ}

theorem Call.Ok.sample {c : Call} (h : c.Ok) (bitmap : ℕ → Bool) : (c.sample bitmap).Ok := by
  have hle : ∀ id, c.seen id = true → (c.seen id || bitmap id) = true := fun id hid => by rw [hid, Bool.true_or]
  obtain ⟨pc, seen⟩ := c
  rcases pc with i | ⟨i, word⟩ | _
  · exact fun id h0 hid => hle _ (h id h0 hid)
  · exact ⟨h.1, fun id h0 hid => hle _ (h.2.1 id h0 hid), fun b hb hw => hle _ (h.2.2 b hb hw)⟩
  · exact h

theorem ok_loop {i : ℕ} {seen : ℕ → Bool} (hi : i * 64 < maxPcid) (h : ∀ id, 0 < id → id < i * 64 → seen id = true) :
    ((Call.mk (.loop i (s.load i)) seen).sample s.bitmap).Ok :=
  ⟨hi, fun id h0 hid => Bool.or_eq_true_iff.2 (.inl (h id h0 hid)), fun _ _ hbit => Bool.or_eq_true_iff.2 (.inr hbit)⟩

theorem ok_full {i : ℕ} {word seen : ℕ → Bool} (h : (Call.mk (.loop i word) seen).Ok) (hnone : firstFree i word = none) :
    (Call.mk (.word (i + 1)) seen).Ok := by
  intro id h0 hid
  by_cases hlt : id < i * 64
  · exact h.2.1 id h0 hlt
  · obtain ⟨b, rfl⟩ : ∃ b, id = i * 64 + b := ⟨id - i * 64, by omega⟩
    have hb : b < 64 := by omega
    have hfull := find?_eq_none.1 hnone b (mem_range.2 hb)
    exact h.2.2 b hb (by simpa [h0] using hfull)

theorem inv_stepCall {c : Call} {pc : Pc} {spurious : Bool} (hw : maxPcid ≤ words * 64) (hI : Inv s) (hc : c.Ok)
    (h : s.stepCall words spurious c.pc = some (s', pc)) : Inv s' ∧ s'.calls = s.calls ∧
    ((Call.mk pc c.seen).sample s'.bitmap).Ok := by
  obtain ⟨pc0, seen⟩ := c
  rcases pc0 with i | ⟨i, word⟩ | _
  · cases h
    refine ⟨hI, rfl, ?_⟩
    split_ifs with hi
    · exact ok_loop hi.2 hc
    · exact fun id h0 hid => hc id h0 (by omega)
  · have hi : i * 64 < 4096 := hc.1
    simp only [State.stepCall] at h
    split at h
    · rename_i hnone
      cases h
      exact ⟨hI, rfl, (ok_full hc hnone).sample _⟩
    · rename_i b hb
      have hfree := find?_some hb
      have hb64 := mem_range.1 (mem_of_find?_eq_some hb)
      simp only [decide_eq_true_eq] at hfree
      have hlt : i * 64 + b < maxPcid := by unfold maxPcid; omega
      rw [if_neg (not_le.2 hlt)] at h
      split_ifs at h with hcas
      · cases h
        have hnew : i * 64 + b ∉ s.held := by
          have hsame := all_eq_true.1 ((Bool.and_eq_true _ _).mp hcas).1 b (mem_range.2 hb64)
          rw [← hI.taken, Bool.not_eq_true]
          exact (beq_iff_eq.1 hsame).trans hfree.1
        refine ⟨⟨nodup_cons.2 ⟨hnew, hI.nodup⟩, ?_, fun id => ?_, hI.calls⟩, rfl, trivial⟩
        · exact forall_mem_cons.2 ⟨⟨hfree.2, hlt⟩, hI.range⟩
        · rw [mem_cons, ← hI.taken]
          by_cases hid : id = i * 64 + b <;> simp [hid]
      · cases h
        exact ⟨hI, rfl, ok_loop hi hc.2.1⟩
  · cases h

theorem inv_step {a : Act} (hw : maxPcid ≤ words * 64) (hI : Inv s) (h : step words s a = some s') : Inv s' := by
  cases a with
  | alloc =>
    cases h
    refine ⟨hI.nodup, hI.range, hI.taken, forall_mem_map.2 fun c hc => ?_⟩
    rcases mem_append.1 hc with hc | hc
    · exact (hI.calls c hc).sample _
    · rw [mem_singleton.1 hc]
      have h0 : (Call.mk (.word 0) fun _ => false).Ok := fun id _ hid => absurd hid (by omega)
      exact h0.sample _
  | step k spurious =>
    simp only [step, Option.bind_eq_bind, Option.bind_eq_some_iff, Option.pure_def, Option.some.injEq, Prod.exists] at h
    obtain ⟨c, hk, s1, pc, hs1, rfl⟩ := h
    obtain ⟨hI1, hcalls, hok⟩ := inv_stepCall hw hI (hI.calls c (mem_of_getElem? hk)) hs1
    exact ⟨hI1.nodup, hI1.range, hI1.taken,
      forall_mem_map.2 (forall_mem_set (fun c' hc' => (hI1.calls c' hc').sample _) hok)⟩
  | free id =>
    simp only [step] at h
    split_ifs at h with hid hbad
    · have hr := hI.range id hid
      omega
    · cases h
      refine ⟨hI.nodup.erase id, fun u hu => hI.range u (mem_of_mem_erase hu), fun u => ?_,
        forall_mem_map.2 fun c hc => (hI.calls c hc).sample _⟩
      change update s.bitmap id false u = true ↔ u ∈ s.held.erase id
      rw [hI.nodup.mem_erase_iff, ← hI.taken]
      by_cases hu : u = id <;> simp [hu]

end Rumicos.Memory.Pcid
