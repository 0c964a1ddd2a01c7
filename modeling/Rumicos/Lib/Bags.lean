/-
Finite families of bags: how often an element occurs in all of them together when one member changes.
-/
import Mathlib.Tactic

namespace Rumicos.Lib

open Function Finset

variable {ι α : Type} [Fintype ι] [DecidableEq ι]

/-- a sum over a family when one member is replaced -/
theorem sum_update (g : ι → α) (f : α → ℕ) (i : ι) (x : α) :
    ∑ j, f (update g i x j) + f (g i) = ∑ j, f (g j) + f x := by
  have hrest : ∑ j ∈ univ.erase i, f (update g i x j) = ∑ j ∈ univ.erase i, f (g j) := by
    refine sum_congr rfl fun j hj => ?_
    rw [update_of_ne (ne_of_mem_erase hj)]
  rw [← add_sum_erase _ _ (mem_univ i), ← add_sum_erase _ (fun j => f (g j)) (mem_univ i), update_self]
  omega

/-- two members of a family that adds up to at most one are not both positive -/
theorem eq_of_sum_le_one (f : ι → ℕ) (h : ∑ j, f j ≤ 1) {i j : ι} (hi : 0 < f i) (hj : 0 < f j) : i = j := by
  by_contra hne
  have hle : ∑ k ∈ {i, j}, f k ≤ ∑ k, f k := sum_le_sum_of_subset (subset_univ _)
  rw [sum_pair hne] at hle
  omega

omit [Fintype ι] [DecidableEq ι] in
/-- a count over a list when one member is replaced -/
theorem countP_set_add {l : List α} {i : ℕ} {a : α} (h : l[i]? = some a) (b : α) (p : α → Bool) :
    (l.set i b).countP p + (p a).toNat = l.countP p + (p b).toNat := by
  induction l generalizing i with
  | nil => cases h
  | cons x l ih =>
    cases i with
    | zero =>
      obtain rfl : x = a := by simpa using h
      cases hx : p x <;> cases hb : p b <;> simp [hx, hb]
    | succ i =>
      have hrest := ih (by simpa using h)
      simp only [List.set_cons_succ, List.countP_cons]
      omega

end Rumicos.Lib
