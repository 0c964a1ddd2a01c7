/-
The buddy allocator against the pool of blocks it manages.

`Account B P out L`: the blocks `B` the allocator was given are, up to splitting, those in the pool, those handed out and
those lost. Each operation is described once by what it does to the pool and to the account: `pushTo_spec`,
`popFirst_spec`, `splitDown_spec`, `allocOrder_spec`, `freeOrder_spec`.

`Kind` collects what is asked of every block: a property that halves inherit.
-/
import Rumicos.Lib.Dyadic
import Rumicos.Memory.Buddy

namespace Rumicos.Memory.Buddy

open Lib.Dyadic Function List Option

/-! ## Accounts -/

/-- the free blocks -/
abbrev freeBlocks (P : Pool) : List Block := blocks (maxOrder + 1) P

/-- what was given is free, out or lost -/
def Account (B : List Block) (P : Pool) (out L : List Block) : Prop :=
  ∀ w, Splits 12 w → weight w (freeBlocks P) + weight w out + weight w L = weight w B

/-- the pool after a push -/
def pushPool (P : Pool) (k a : ℕ) : Pool := update P k (pushed a (P k))

/-- what a push loses -/
def lostBy (P : Pool) (k a : ℕ) : List Block := if a = 0 then (0, k) :: (P k).map (fun b => (b, k)) else []

variable {l : List ℕ}

section Account

variable {B out L : List Block} {P : Pool} {a k : ℕ}

theorem account_push (hk : k ≤ maxOrder) (h : Account B P ((a, k) :: out) L) :
    Account B (pushPool P k a) out (lostBy P k a ++ L) := by
  intro w hw
  have hw' := h w hw
  have hk' : k < maxOrder + 1 := Nat.lt_succ_of_le hk
  rw [weight_cons] at hw'
  rw [weight_append]
  by_cases h0 : a = 0
  · subst h0
    have hd := weight_drop (w := w) (P := P) hk'
    simp only [pushPool, lostBy, pushed, if_true, weight_cons]
    simp only [freeBlocks] at hw' ⊢
    omega
  · have hp := weight_push (w := w) (P := P) hk' a
    simp only [pushPool, lostBy, pushed, h0, if_false, weight_nil]
    simp only [freeBlocks] at hw' ⊢
    omega

theorem account_pop (hk : k ≤ maxOrder) (hP : P k = a :: l) (h : Account B P out L) :
    Account B (update P k l) ((a, k) :: out) L := by
  intro w hw
  have hw' := h w hw
  have hk' : k < maxOrder + 1 := Nat.lt_succ_of_le hk
  have hp := weight_pop (w := w) hk' hP
  rw [weight_cons]
  simp only [freeBlocks] at hw' ⊢
  omega

theorem account_split (h : Account B P ((a, k + 1) :: out) L) :
    Account B P ((a + 2 ^ (k + 12), k) :: (a, k) :: out) L := by
  intro w hw
  have hw' := h w hw
  rw [weight_cons, hw a k] at hw'
  rw [weight_cons, weight_cons]
  omega

theorem account_perm {out' : List Block} (hp : out.Perm out') (h : Account B P out L) : Account B P out' L := by
  intro w hw
  rw [← weight_perm hp]
  exact h w hw

theorem account_frames (h : Account B P ((a, k) :: out) L) :
    Account B P ((List.range (2 ^ k)).map (fun i => (a + i * 4096, 0)) ++ out) L := by
  intro w hw
  have hw' := h w hw
  have hs : weight w ((List.range (2 ^ k)).map fun i => (a + i * 4096, 0)) = w (a, k) := by
    rw [hw.sum a k, weight, List.map_map]
    rfl
  rw [weight_cons] at hw'
  rw [weight_append]
  omega

theorem Account.not_mem (h : Account B P ((a, k) :: out) L) (hB : ∀ x, weight (hits 12 x) B ≤ 1) {j : ℕ}
    (hj : j ≤ maxOrder) : a ∉ P j := by
  intro hmem
  have hw := h _ (splits_hits a)
  have h1 : hits 12 a (a, k) = 1 := if_pos (covers_self (a, k))
  have h2 : 1 ≤ weight (hits 12 a) (freeBlocks P) :=
    hits_pos (mem_blocks.2 ⟨Nat.lt_succ_of_le hj, hmem⟩) (covers_self (a, j))
  have h3 := hB a
  rw [weight_cons] at hw
  omega

end Account

/-! ## A node that keeps its account -/

/-- a property of blocks that halves inherit -/
structure Kind (Q : Block → Prop) : Prop where
  addr : ∀ {b}, Q b → Plausible b.1
  order : ∀ {b}, Q b → b.2 ≤ maxOrder
  half : ∀ {a k}, Q (a, k + 1) → Q (a, k) ∧ Q (a + 2 ^ (k + 12), k)

/-- blocks of one kind that meet nowhere and whose frames can be counted -/
structure Supply (Q : Block → Prop) (B : List Block) : Prop where
  kind : Kind Q
  once : ∀ x, weight (hits 12 x) B ≤ 1
  fits : weight units B < 2 ^ 64

/-- node `s` has the pool `P`, with the blocks `out` handed out and `L` lost -/
structure Holds (Q : Block → Prop) (B L : List Block) (s : Arena) (P : Pool) (out : List Block) : Prop where
  spells : ∀ k ≤ maxOrder, Linked s.mem (s.node.freeLists k) (P k)
  account : Account B P out L
  kind : ∀ b ∈ freeBlocks P, Q b
  outKind : ∀ b ∈ out, Q b

section Steps

variable {Q : Block → Prop} {B L out : List Block} {s : Arena} {P : Pool} {a k : ℕ}

/-- the blocks after one list has been replaced by a part of itself and `a` -/
theorem kind_update (hkind : ∀ b ∈ freeBlocks P, Q b) (ha : ∀ b ∈ l, b ∈ P k ∨ Q (b, k)) :
    ∀ b ∈ freeBlocks (update P k l), Q b := by
  rintro ⟨b, j⟩ hb
  obtain ⟨hj, hmem⟩ := mem_blocks.1 hb
  by_cases hjk : j = k
  · subst hjk
    rw [update_self] at hmem
    rcases ha b hmem with h | h
    · exact hkind _ (mem_blocks.2 ⟨hj, h⟩)
    · exact h
  · rw [update_of_ne hjk] at hmem
    exact hkind _ (mem_blocks.2 ⟨hj, hmem⟩)

theorem pushTo_spec (hQ : Kind Q) (hB : ∀ x, weight (hits 12 x) B ≤ 1) (h : Holds Q B L s P ((a, k) :: out)) :
    ∃ s', s.pushTo k a = some s' ∧ Holds Q B (lostBy P k a ++ L) s' (pushPool P k a) out ∧
      s'.node.free = s.node.free := by
  have hq : Q (a, k) := h.outKind _ mem_cons_self
  have hk : k ≤ maxOrder := hQ.order hq
  have hfresh : ∀ j ≤ maxOrder, a ∉ P j := fun j hj => h.account.not_mem hB hj
  obtain ⟨head, v, hpush, hlink⟩ := push_spec (h.spells k hk) (hQ.addr hq) (hfresh k hk)
  refine ⟨⟨{ s.node with freeLists := update s.node.freeLists k head }, update s.mem a v⟩, ?_, ?_, rfl⟩
  · rw [Arena.pushTo, hpush]
    rfl
  · refine ⟨fun j hj => ?_, account_push hk h.account, ?_, fun b hb => h.outKind b (mem_cons_of_mem _ hb)⟩
    · by_cases hjk : j = k
      · subst hjk
        simpa only [pushPool, update_self] using hlink
      · simp only [pushPool, update_of_ne hjk]
        exact (h.spells j hj).frame (hfresh j hj) v
    · refine kind_update h.kind fun b hb => ?_
      rcases mem_of_mem_pushed hb with rfl | hb
      · exact .inr hq
      · exact .inl hb

theorem pushTo_ne_zero (hQ : Kind Q) (hB : ∀ x, weight (hits 12 x) B ≤ 1) (h : Holds Q B L s P ((a, k) :: out))
    (h0 : a ≠ 0) :
    ∃ s', s.pushTo k a = some s' ∧ Holds Q B L s' (update P k (a :: P k)) out ∧
      s'.node.free = s.node.free := by
  obtain ⟨s', hs, hH, hf⟩ := pushTo_spec hQ hB h
  simp only [lostBy, pushPool, pushed, h0] at hH
  exact ⟨s', hs, hH, hf⟩

theorem holds_pop (h : Holds Q B L s P out) (hk : k ≤ maxOrder) (hP : P k = a :: l) :
    ∃ head, pop (s.node.freeLists k) s.mem = some (some a, head) ∧
      Holds Q B L ⟨{ s.node with freeLists := update s.node.freeLists k head }, s.mem⟩
        (update P k l) ((a, k) :: out) := by
  have hlink := h.spells k hk
  rw [hP] at hlink
  obtain ⟨head, hpop, hrest⟩ := pop_spec hlink
  refine ⟨head, hpop, fun j hj => ?_, account_pop hk hP h.account, ?_, ?_⟩
  · by_cases hjk : j = k
    · subst hjk
      simpa only [update_self] using hrest
    · simp only [update_of_ne hjk]
      exact h.spells j hj
  · refine kind_update h.kind fun b hb => .inl ?_
    rw [hP]
    exact mem_cons_of_mem a hb
  · intro b hb
    rcases mem_cons.1 hb with rfl | hb
    · refine h.kind _ (mem_blocks.2 ⟨Nat.lt_succ_of_le hk, ?_⟩)
      rw [hP]
      exact mem_cons_self
    · exact h.outKind b hb

/-- `popFirst` takes the first block of the first list that has one -/
theorem popFirst_spec (h : Holds Q B L s P out) (ks : List ℕ) (hks : ∀ j ∈ ks, j ≤ maxOrder) :
    ((∀ j ∈ ks, P j = []) ∧ s.popFirst ks = some (none, s)) ∨
      ∃ pre j post a l s', ks = pre ++ j :: post ∧ (∀ i ∈ pre, P i = []) ∧ P j = a :: l ∧
        s.popFirst ks = some (some (j, a), s') ∧ Holds Q B L s' (update P j l) ((a, j) :: out) ∧
        s'.node.free = s.node.free := by
  induction ks with
  | nil => exact .inl ⟨by simp, rfl⟩
  | cons j ks ih =>
    have hj : j ≤ maxOrder := hks j mem_cons_self
    rcases hP : P j with _ | ⟨a, l⟩
    · -- the list is empty: the next order is tried
      have hpop : pop (s.node.freeLists j) s.mem = some (none, s.node.freeLists j) := by
        have hl := h.spells j hj
        rw [hP] at hl
        exact pop_spec hl
      have hnext : s.popFirst (j :: ks) = s.popFirst ks := by rw [Arena.popFirst, hpop]
      rcases ih fun i hi => hks i (mem_cons_of_mem j hi) with ⟨hall, hnone⟩ | ⟨pre, i, post, a, l, s', he, hpre,
        hPi, hs, hH⟩
      · refine .inl ⟨fun i hi => ?_, hnext.trans hnone⟩
        rcases mem_cons.1 hi with rfl | hi
        · exact hP
        · exact hall i hi
      · refine .inr ⟨j :: pre, i, post, a, l, s', by rw [he]; rfl, fun i' hi' => ?_, hPi, hnext.trans hs, hH⟩
        rcases mem_cons.1 hi' with rfl | hi'
        · exact hP
        · exact hpre i' hi'
    · obtain ⟨head, hpop, hH⟩ := holds_pop h hj hP
      refine .inr ⟨[], j, ks, a, l, _, rfl, by simp, hP, ?_, hH, rfl⟩
      rw [Arena.popFirst, hpop]

/-- the pool after block `a` of order `j`, first of its list, has been split down to order `k` -/
def splitPool (P : Pool) (k j a : ℕ) (l : List ℕ) : Pool := fun i =>
  if k ≤ i ∧ i < j then (a + 2 ^ (i + 12)) :: P i else if i = j then l else P i

theorem holds_split (hQ : Kind Q) (h : Holds Q B L s P ((a, k + 1) :: out)) :
    Holds Q B L s P ((a + 2 ^ (k + 12), k) :: (a, k) :: out) := by
  refine ⟨h.spells, account_split h.account, h.kind, fun b hb => ?_⟩
  obtain ⟨hlow, hhigh⟩ := hQ.half (h.outKind _ mem_cons_self)
  rcases mem_cons.1 hb with rfl | hb
  · exact hhigh
  rcases mem_cons.1 hb with rfl | hb
  · exact hlow
  · exact h.outKind b (mem_cons_of_mem _ hb)

section

variable (hQ : Kind Q) (hB : ∀ x, weight (hits 12 x) B ≤ 1)
include hQ hB

theorem splitDown_spec {d : ℕ}
    (h : Holds Q B L s P ((a, k + d) :: out)) :
    ∃ s' P', s.splitDown a k (k + d) = some s' ∧ Holds Q B L s' P' ((a, k) :: out) ∧
      s'.node.free = s.node.free ∧
      ∀ i, P' i = if k ≤ i ∧ i < k + d then (a + 2 ^ (i + 12)) :: P i else P i := by
  -- from the top: each round pushes the upper half and goes on with the lower one
  induction d generalizing s P with
  | zero =>
    refine ⟨s, P, ?_, h, rfl, fun i => ?_⟩
    · simp [Arena.splitDown]
    · rw [if_neg]
      omega
  | succ d ih =>
    have hpos : a + 2 ^ (k + d + 12) ≠ 0 := by
      have := Nat.two_pow_pos (k + d + 12)
      omega
    obtain ⟨s1, hs1, hH1, hf1⟩ := pushTo_ne_zero hQ hB (holds_split (k := k + d) hQ h) hpos
    obtain ⟨s2, P2, hs2, hH2, hf2, hP2⟩ := ih hH1
    refine ⟨s2, P2, ?_, hH2, hf2.trans hf1, fun i => ?_⟩
    · have hrange : (List.range' k (d + 1)).reverse = (k + d) :: (List.range' k d).reverse := by
        rw [range'_1_concat, reverse_append]
        rfl
      unfold Arena.splitDown at hs2 ⊢
      rw [Nat.add_sub_cancel_left] at hs2 ⊢
      rw [hrange, foldlM_cons, Nat.one_shiftLeft, hs1]
      exact hs2
    · rw [hP2 i]
      by_cases hi : i = k + d
      · subst hi
        have h1 : ¬ (k ≤ k + d ∧ k + d < k + d) := by omega
        have h2 : k ≤ k + d ∧ k + d < k + (d + 1) := by omega
        rw [if_neg h1, if_pos h2, update_self]
      · rw [update_of_ne hi]
        by_cases hlt : k ≤ i ∧ i < k + d
        · rw [if_pos hlt, if_pos ⟨hlt.1, by omega⟩]
        · rw [if_neg hlt, if_neg (by omega)]

/-- **`alloc_order`.** It fails when no list from order `k` on has a block; otherwise it takes the first block of the
smallest order `j` that has one and keeps the upper halves. -/
theorem allocOrder_spec (h : Holds Q B L s P out)
    (hk : k ≤ maxOrder) :
    ((∀ j, k ≤ j → j ≤ maxOrder → P j = []) ∧ s.allocOrder k = some (none, s)) ∨
      ∃ j a l s', k ≤ j ∧ j ≤ maxOrder ∧ (∀ i, k ≤ i → i < j → P i = []) ∧ P j = a :: l ∧
        s.allocOrder k = some (some a, s') ∧ Holds Q B L s' (splitPool P k j a l) ((a, k) :: out) ∧
        s'.node.free = (s.node.free + 2 ^ 64 - 2 ^ k) % 2 ^ 64 := by
  have hks : ∀ j ∈ List.range' k (maxOrder + 1 - k), k ≤ j ∧ j ≤ maxOrder := by
    intro j hj
    have := mem_range'_1.1 hj
    omega
  have hk' : ¬ k > maxOrder := by omega
  rcases popFirst_spec h _ fun j hj => (hks j hj).2 with
    ⟨hall, hnone⟩ | ⟨pre, j, post, a, l, s1, he, hpre, hP, hs1, hH1, hf1⟩
  · refine .inl ⟨fun j h1 h2 => hall j (mem_range'_1.2 (by omega)), ?_⟩
    rw [Arena.allocOrder, if_neg hk', hnone]
  · obtain ⟨m, hm, rfl, hrest⟩ := range'_eq_append_iff.1 he
    rw [Nat.mul_one] at hrest
    obtain ⟨rfl, hpos, -⟩ := range'_eq_cons_iff.1 hrest.symm
    obtain ⟨s2, P2, hs2, hH2, hf2, hP2⟩ := splitDown_spec hQ hB hH1
    have hP2' : P2 = splitPool P k (k + m) a l := by
      funext i
      rw [hP2 i, splitPool]
      by_cases hi : i = k + m
      · subst hi
        simp
      · rw [update_of_ne hi, if_neg hi]
    rw [hP2'] at hH2
    have hs : s.allocOrder k =
        some (some a, ⟨{ s2.node with free := (s2.node.free + 2 ^ 64 - 1 <<< k) % 2 ^ 64 }, s2.mem⟩) := by
      rw [Arena.allocOrder, if_neg hk', hs1]
      simp [hs2]
    refine .inr ⟨k + m, a, l, _, by omega, by omega, fun i h1 h2 => hpre i (mem_range'_1.2 ⟨h1, h2⟩), hP, hs,
      ⟨hH2.spells, hH2.account, hH2.kind, hH2.outKind⟩, ?_⟩
    rw [hf2, hf1, Nat.one_shiftLeft]

/-- **`free_order`.** A block that is out goes back to the list of its order. -/
theorem freeOrder_spec (h : Holds Q B L s P ((a, k) :: out))
    (h0 : a ≠ 0) :
    ∃ s', s.freeOrder a k = some s' ∧ Holds Q B L s' (update P k (a :: P k)) out ∧
      s'.node.free = (s.node.free + 2 ^ k) % 2 ^ 64 := by
  have hk : ¬ k > maxOrder := not_lt.2 (hQ.order (h.outKind _ mem_cons_self))
  obtain ⟨s1, hs1, hH1, hf1⟩ := pushTo_ne_zero hQ hB h h0
  have hs : s.freeOrder a k = some ⟨{ s1.node with free := (s1.node.free + 1 <<< k) % 2 ^ 64 }, s1.mem⟩ := by
    rw [Arena.freeOrder, if_neg hk, hs1]
    rfl
  refine ⟨_, hs, ⟨hH1.spells, hH1.account, hH1.kind, hH1.outKind⟩, ?_⟩
  rw [hf1, Nat.one_shiftLeft]

end

end Steps

end Rumicos.Memory.Buddy
