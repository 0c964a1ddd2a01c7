/-
Dyadic blocks and pools of free blocks.

A block `(a, k)` covers the `2 ^ (k + s)` addresses from `a` on; `s` is the size exponent of the smallest block. A pool has
one list of addresses for each order. What splitting a block in two does not change is a weight `w` with `Splits s w`:
the number of smallest blocks in it, or whether it covers a given address. The total weight of a pool is a sum over its
blocks, so one rule for each list operation (`weight_push`, `weight_pop`) serves every conservation argument.
-/
import Mathlib.Tactic

namespace Rumicos.Lib.Dyadic

open Function List Option

/-- first address and order -/
abbrev Block := ℕ × ℕ

/-! ## Blocks -/

section Blocks

variable (s : ℕ)

/-- the block covers the address -/
def Covers (b : Block) (x : ℕ) : Prop := b.1 ≤ x ∧ x < b.1 + 2 ^ (b.2 + s)

instance (b : Block) (x : ℕ) : Decidable (Covers s b x) := by unfold Covers; infer_instance

/-- no address is covered by both -/
def Apart (b c : Block) : Prop := ∀ x, Covers s b x → ¬ Covers s c x

/-- a weight that splitting a block keeps -/
def Splits (w : Block → ℕ) : Prop := ∀ a k, w (a, k + 1) = w (a, k) + w (a + 2 ^ (k + s), k)

/-- the number of smallest blocks -/
def units (b : Block) : ℕ := 2 ^ b.2

/-- 1 for the blocks that cover `x` -/
def hits (x : ℕ) (b : Block) : ℕ := if Covers s b x then 1 else 0

variable {s}

theorem covers_self (b : Block) : Covers s b b.1 := ⟨le_rfl, Nat.lt_add_of_pos_right (Nat.two_pow_pos _)⟩

theorem splits_units : Splits s units := by
  intro a k
  simp only [units]
  ring

theorem splits_hits (x : ℕ) : Splits s (hits s x) := by
  intro a k
  have hp : 2 ^ (k + 1 + s) = 2 ^ (k + s) + 2 ^ (k + s) := by ring
  have h0 : 0 < 2 ^ (k + s) := Nat.two_pow_pos _
  simp only [hits, Covers, hp]
  by_cases h : x < a + 2 ^ (k + s)
  · have h' : ¬ a + 2 ^ (k + s) ≤ x := by omega
    have h'' : x < a + (2 ^ (k + s) + 2 ^ (k + s)) := by omega
    simp [h, h', h'']
  · have ha : a ≤ x := by omega
    have h' : a + 2 ^ (k + s) ≤ x := by omega
    simp [h', ha, Nat.add_assoc]

/-- a block weighs what its smallest blocks weigh -/
theorem Splits.sum {w : Block → ℕ} (h : Splits s w) (a k : ℕ) :
    w (a, k) = ∑ i ∈ Finset.range (2 ^ k), w (a + i * 2 ^ s, 0) := by
  induction k generalizing a with
  | zero => simp
  | succ k ih =>
    rw [h a k, pow_succ, Nat.mul_two, Finset.sum_range_add, ih a, ih (a + 2 ^ (k + s))]
    congr 1
    refine Finset.sum_congr rfl fun i _ => ?_
    congr 2
    ring

end Blocks

/-! ## Lists of blocks -/

variable {bs : List Block} {b : Block}

section Weight

variable {s : ℕ} {w : Block → ℕ}

def weight (w : Block → ℕ) (bs : List Block) : ℕ := (bs.map w).sum

@[simp] theorem weight_nil : weight w [] = 0 := rfl

@[simp] theorem weight_cons (b : Block) (bs : List Block) : weight w (b :: bs) = w b + weight w bs := rfl

theorem weight_append (bs cs : List Block) : weight w (bs ++ cs) = weight w bs + weight w cs := by
  rw [weight, weight, weight, map_append, sum_append]

theorem weight_perm {cs : List Block} (h : bs.Perm cs) : weight w bs = weight w cs := (h.map w).sum_eq

theorem le_weight (h : b ∈ bs) : w b ≤ weight w bs :=
  single_le_sum (fun _ _ => Nat.zero_le _) _ (mem_map_of_mem h)

/-- an address in a block of the list is hit -/
theorem hits_pos {x : ℕ} (h : b ∈ bs) (hx : Covers s b x) : 1 ≤ weight (hits s x) bs := by
  have hb : hits s x b = 1 := if_pos hx
  exact hb ▸ le_weight h

/-- an address that is hit is in a block of the list -/
theorem exists_covers {x : ℕ} (h : weight (hits s x) bs ≠ 0) : ∃ b ∈ bs, Covers s b x := by
  by_contra hno
  push Not at hno
  refine h (sum_eq_zero fun n hn => ?_)
  obtain ⟨b, hb, rfl⟩ := mem_map.1 hn
  exact if_neg (hno b hb)

/-- blocks that cover every address at most once are pairwise disjoint -/
theorem pairwise_apart (h : ∀ x, weight (hits s x) bs ≤ 1) : bs.Pairwise (Apart s) := by
  induction bs with
  | nil => exact List.Pairwise.nil
  | cons b bs ih =>
    refine pairwise_cons.2 ⟨fun c hc x hb hx => ?_, ih fun x => ?_⟩
    · have h1 : hits s x b = 1 := if_pos hb
      have h2 := hits_pos hc hx
      have h3 := h x
      rw [weight_cons] at h3
      omega
    · exact le_trans (by simp) (h x)

theorem sum_hits {N : ℕ} (h : b.1 + 2 ^ (b.2 + s) ≤ N) : ∑ x ∈ Finset.range N, hits s x b = 2 ^ (b.2 + s) := by
  have hf : (Finset.range N).filter (fun x => Covers s b x) = Finset.Ico b.1 (b.1 + 2 ^ (b.2 + s)) := by
    ext x
    rw [Finset.mem_filter, Finset.mem_range, Finset.mem_Ico]
    exact ⟨fun hx => hx.2, fun hx => ⟨hx.2.trans_le h, hx⟩⟩
  simp only [hits]
  rw [← Finset.sum_filter, hf]
  simp

/-- blocks below `N` that cover every address at most once have room there -/
theorem units_le {N : ℕ} (h : ∀ x, weight (hits s x) bs ≤ 1) (hN : ∀ b ∈ bs, b.1 + 2 ^ (b.2 + s) ≤ N) :
    weight units bs * 2 ^ s ≤ N := by
  have hsum : ∀ cs : List Block, (∀ b ∈ cs, b.1 + 2 ^ (b.2 + s) ≤ N) →
      ∑ x ∈ Finset.range N, weight (hits s x) cs = weight units cs * 2 ^ s := by
    intro cs hcs
    induction cs with
    | nil => simp
    | cons b cs ih =>
      have hb := sum_hits (hcs b mem_cons_self)
      simp only [weight_cons]
      rw [Finset.sum_add_distrib, hb, ih fun c hc => hcs c (mem_cons_of_mem b hc), units, add_mul, ← pow_add]
  calc weight units bs * 2 ^ s = ∑ x ∈ Finset.range N, weight (hits s x) bs := (hsum bs hN).symm
    _ ≤ ∑ _x ∈ Finset.range N, 1 := Finset.sum_le_sum fun x _ => h x
    _ = N := by simp

end Weight

/-! ## Pools -/

/-- the free blocks of each order, by address -/
abbrev Pool := ℕ → List ℕ

/-- the blocks of a pool with orders below `n` -/
def blocks (n : ℕ) (P : Pool) : List Block := (List.range n).flatMap fun k => (P k).map fun a => (a, k)

section Pools

variable {n k : ℕ} {w : Block → ℕ} {P : Pool}

theorem mem_blocks : b ∈ blocks n P ↔ b.2 < n ∧ b.1 ∈ P b.2 := by
  obtain ⟨a, k⟩ := b
  simp only [blocks, mem_flatMap, mem_range, List.mem_map, Prod.mk.injEq]
  constructor
  · rintro ⟨k, hk, a, ha, rfl, rfl⟩
    exact ⟨hk, ha⟩
  · rintro ⟨hk, ha⟩
    exact ⟨k, hk, a, ha, rfl, rfl⟩

/-- replacing one list of the pool -/
theorem blocks_update_perm (hk : k < n) (l l' : List ℕ) :
    (blocks n (update P k (l ++ l'))).Perm (l.map (fun a => (a, k)) ++ blocks n (update P k l')) := by
  induction n with
  | zero => exact absurd hk (Nat.not_lt_zero k)
  | succ n ih =>
    unfold blocks at ih ⊢
    simp only [range_succ, flatMap_append, flatMap_singleton]
    by_cases he : k = n
    · subst he
      have hlow : ∀ m : List ℕ, ((List.range k).flatMap fun j => (update P k m j).map fun a => (a, j)) =
          (List.range k).flatMap fun j => (P j).map fun a => (a, j) := by
        intro m
        refine flatMap_congr fun j hj => ?_
        rw [update_of_ne (mem_range.1 hj).ne]
      rw [hlow, hlow, update_self, update_self, map_append]
      exact (perm_append_comm_assoc _ _ _)
    · rw [update_of_ne (Ne.symm he), update_of_ne (Ne.symm he), ← append_assoc]
      exact (ih (by omega)).append_right _

theorem weight_push (hk : k < n) (a : ℕ) :
    weight w (blocks n (update P k (a :: P k))) = w (a, k) + weight w (blocks n P) := by
  have h := weight_perm (w := w) (blocks_update_perm (P := P) hk [a] (P k))
  rw [update_eq_self] at h
  exact h

theorem weight_pop (hk : k < n) {a : ℕ} {l : List ℕ} (hP : P k = a :: l) :
    weight w (blocks n P) = w (a, k) + weight w (blocks n (update P k l)) := by
  have h := weight_perm (w := w) (blocks_update_perm (P := P) hk [a] l)
  rw [singleton_append, ← hP, update_eq_self] at h
  exact h

/-- dropping a list loses its blocks -/
theorem weight_drop (hk : k < n) :
    weight w (blocks n P) = weight w ((P k).map fun a => (a, k)) + weight w (blocks n (update P k [])) := by
  have h := weight_perm (w := w) (blocks_update_perm (P := P) hk (P k) [])
  rw [append_nil, update_eq_self, weight_append] at h
  exact h

end Pools

end Rumicos.Lib.Dyadic
