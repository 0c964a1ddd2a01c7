/-
The account of one shared resource: who uses it, whether it is allocated, and what a side table of share counts says
about it. Nothing here knows what the resource is.

A resource may have exclusive users (`own`), copy-on-write users (`cow`), borrowers (`shr`), structural uses (`tbl`), and
a keeper that never lets go (`kept`). The side table stores the number of claims only when it is above one (`entry`): the
claims are the copy-on-write users and, while there are any, the keeper.

- `Account.Ok`: at most one of an exclusive user, a structural use and the keeper; none of the first two beside a
  copy-on-write user; borrowers only of a kept resource; everything in use is allocated; the entry is right.
- The lemmas on `Ok`: each change of the account that the owner of the resource may make, with the condition under which
  it keeps `Ok`. `share` and `release` are the two changes of the side table.
-/
import Mathlib.Tactic

namespace Rumicos.Lib

open Bool

@[ext]
structure Account where
  own : ℕ
  cow : ℕ
  shr : ℕ
  tbl : ℕ
  kept : Bool
  alloc : Bool
  entry : Option ℕ
deriving DecidableEq

namespace Account

/-- nobody has it -/
def zero : Account := ⟨0, 0, 0, 0, false, false, none⟩

/-- the claims the side table has to count -/
def claims (A : Account) : ℕ := if A.cow = 0 then 0 else A.cow + A.kept.toNat

/-- no user of any kind -/
def Unused (A : Account) : Prop := A.own = 0 ∧ A.cow = 0 ∧ A.shr = 0 ∧ A.tbl = 0 ∧ A.kept = false

structure Ok (A : Account) : Prop where
  single : A.own + A.tbl + A.kept.toNat ≤ 1
  excl : 0 < A.own + A.tbl → A.cow = 0
  borrowed : 0 < A.shr → A.kept = true
  live : 0 < A.own + A.cow + A.shr + A.tbl + A.kept.toNat → A.alloc = true
  entry : A.entry = if A.claims ≤ 1 then none else some A.claims

/-- one more claim: no entry becomes two -/
def share : Option ℕ → Option ℕ
  | none => some 2
  | some n => some (n + 1)

/-- one claim fewer: two becomes no entry -/
def release : Option ℕ → Option ℕ
  | none => none
  | some n => if 2 < n then some (n - 1) else none

theorem ok_zero : Ok zero := by constructor <;> simp [zero, claims]

variable {A : Account}

section

variable (h : Ok A)
include h

/-- an unallocated resource has no user -/
theorem Ok.unused (ha : A.alloc = false) : Unused A := by
  have hz : ¬ 0 < A.own + A.cow + A.shr + A.tbl + A.kept.toNat := fun hp => by
    have := h.live hp; rw [ha] at this; cases this
  refine ⟨by omega, by omega, by omega, by omega, ?_⟩
  cases hk : A.kept
  · rfl
  · rw [hk, toNat_true] at hz; omega

/-- an exclusive user or a structural use is the only one -/
theorem Ok.exclusive (ho : 0 < A.own + A.tbl) : A.own + A.tbl = 1 ∧ A.cow = 0 ∧ A.shr = 0 ∧ A.kept = false := by
  have h1 := h.single
  have hk : A.kept = false := by
    cases hk : A.kept
    · rfl
    · rw [hk, toNat_true] at h1; omega
  have hs : A.shr = 0 := by
    by_contra hn
    have := h.borrowed (by omega)
    rw [hk] at this; cases this
  exact ⟨by omega, h.excl ho, hs, hk⟩

theorem Ok.not_exclusive (hc : 0 < A.cow) : A.own + A.tbl = 0 := by
  by_contra hn
  have := h.excl (by omega)
  omega

/-- a copy-on-write user without an entry is the only user -/
theorem Ok.sole (hc : 0 < A.cow) (he : A.entry = none) :
    A.cow = 1 ∧ A.own = 0 ∧ A.shr = 0 ∧ A.tbl = 0 ∧ A.kept = false := by
  have h1 := h.entry
  rw [he] at h1
  have hcl : A.claims ≤ 1 := by
    by_contra hn
    rw [if_neg hn] at h1
    cases h1
  rw [claims, if_neg (by omega)] at hcl
  have hk : A.kept = false := by
    cases hk : A.kept
    · rfl
    · rw [hk, toNat_true] at hcl; omega
  have hot := h.not_exclusive hc
  have hs : A.shr = 0 := by
    by_contra hn
    have := h.borrowed (by omega)
    rw [hk] at this; cases this
  exact ⟨by omega, by omega, hs, by omega, hk⟩

/-- an exclusive user is the only user -/
theorem Ok.own_only (ho : 0 < A.own) :
    A.own = 1 ∧ A.cow = 0 ∧ A.shr = 0 ∧ A.tbl = 0 ∧ A.kept = false ∧ A.entry = none := by
  obtain ⟨h1, hc, hs, hk⟩ := h.exclusive (by omega)
  refine ⟨by omega, hc, hs, by omega, hk, ?_⟩
  rw [h.entry, claims, if_pos hc]; rfl

/-! ## Changes that keep an account right -/

theorem ok_alloc : Ok { A with alloc := true } :=
  ⟨h.single, h.excl, h.borrowed, fun _ => rfl, h.entry⟩

theorem ok_addOwn (hu : Unused A) (ha : A.alloc = true) : Ok { A with own := A.own + 1 } := by
  obtain ⟨h1, h2, h3, h4, h5⟩ := hu
  refine ⟨?_, fun _ => h2, fun hs => by simp only at hs; omega, fun _ => ha, h.entry⟩
  simp [h1, h4, h5]

theorem ok_addTbl (hu : Unused A) (ha : A.alloc = true) : Ok { A with tbl := A.tbl + 1 } := by
  obtain ⟨h1, h2, h3, h4, h5⟩ := hu
  refine ⟨?_, fun _ => h2, fun hs => by simp only at hs; omega, fun _ => ha, h.entry⟩
  simp [h1, h4, h5]

theorem ok_keep (hu : Unused A) (ha : A.alloc = true) : Ok { A with kept := true } := by
  obtain ⟨h1, h2, h3, h4, h5⟩ := hu
  refine ⟨by simp [h1, h4], fun _ => h2, fun _ => rfl, fun _ => ha, ?_⟩
  have he := h.entry
  simp only [claims, h2] at he ⊢
  exact he

theorem ok_addShr (hk : A.kept = true) : Ok { A with shr := A.shr + 1 } :=
  ⟨h.single, h.excl, fun _ => hk, fun _ => h.live (by rw [hk, toNat_true]; omega), h.entry⟩

theorem ok_dropShr : Ok { A with shr := A.shr - 1 } :=
  ⟨h.single, h.excl, fun hs => h.borrowed (by simp only at hs; omega),
    fun hl => h.live (by simp only at hl; omega), h.entry⟩

/-- an exclusive user forgets the resource without freeing it -/
theorem ok_dropOwn : Ok { A with own := A.own - 1 } :=
  ⟨by have := h.single; simp only; omega, fun ho => h.excl (by simp only at ho; omega), h.borrowed,
    fun hl => h.live (by simp only at hl; omega), h.entry⟩

theorem ok_freeOwn (ho : 0 < A.own) : Ok { A with own := A.own - 1, alloc := false } := by
  obtain ⟨h1, h2, h3, h4, h5, h6⟩ := h.own_only ho
  refine ⟨by simp [h1, h4, h5], fun _ => h2, fun hs => by simp only at hs; omega, fun hl => ?_, ?_⟩
  · simp [h1, h2, h3, h4, h5] at hl
  · simp [claims, h2, h6]

theorem ok_freeTbl (ht : 0 < A.tbl) : Ok { A with tbl := A.tbl - 1, alloc := false } := by
  obtain ⟨h1, hc, hs, hk⟩ := h.exclusive (by omega)
  have ho : A.own = 0 := by omega
  have ht1 : A.tbl = 1 := by omega
  refine ⟨by simp [ho, ht1, hk], fun _ => hc, fun h' => by simp only at h'; omega, fun hl => ?_, h.entry⟩
  simp [ho, hc, hs, ht1, hk] at hl

/-- an exclusive user turns into a copy-on-write user -/
theorem ok_markCow (ho : 0 < A.own) : Ok { A with own := A.own - 1, cow := A.cow + 1 } := by
  obtain ⟨h1, h2, h3, h4, h5, h6⟩ := h.own_only ho
  have ha := h.live (by omega)
  refine ⟨by simp [h1, h4, h5], fun hp => by simp [h1, h4] at hp, fun hs => by simp only at hs; omega, fun _ => ha, ?_⟩
  simp [claims, h2, h5, h6]

/-- one more copy-on-write user beside another one, or of a kept resource -/
theorem ok_shareCow (hc : 0 < A.cow ∨ A.kept = true) : Ok { A with cow := A.cow + 1, entry := share A.entry } := by
  have hz : A.own + A.tbl = 0 := by
    rcases hc with hc | hk
    · exact h.not_exclusive hc
    · have := h.single
      rw [hk, toNat_true] at this
      omega
  have ha : A.alloc = true := by
    rcases hc with hc | hk
    · exact h.live (by omega)
    · exact h.live (by rw [hk, toNat_true]; omega)
  refine ⟨h.single, fun hp => by simp only at hp; omega, h.borrowed, fun _ => ha, ?_⟩
  have he := h.entry
  simp only [claims]
  by_cases hc0 : A.cow = 0
  · have hk : A.kept = true := by
      rcases hc with hc | hk
      · omega
      · exact hk
    rw [he, claims, hc0, hk]
    rfl
  · rw [he, claims, if_neg hc0]
    cases hk : A.kept
    · by_cases h1 : A.cow = 1
      · simp [h1, share]
      · have : ¬ A.cow ≤ 1 := by omega
        simp [this, share]
        omega
    · simp [hc0, share]

/-- a copy-on-write user lets go while others have claims -/
theorem ok_release (hc : 0 < A.cow) (he : A.entry ≠ none) :
    Ok { A with cow := A.cow - 1, entry := release A.entry } := by
  have hz := h.not_exclusive hc
  refine ⟨h.single, fun hp => by simp only at hp; omega, h.borrowed,
    fun hl => h.live (by omega), ?_⟩
  have h1 := h.entry
  have hc0 : A.cow ≠ 0 := by omega
  have hcl : A.claims = A.cow + A.kept.toNat := by rw [claims, if_neg hc0]
  have hgt : ¬ A.claims ≤ 1 := fun hle => he (by rw [h1, if_pos hle])
  rw [if_neg hgt, hcl] at h1
  rw [hcl] at hgt
  simp only [claims]
  rw [h1, release]
  by_cases hone : A.cow = 1
  · cases hk : A.kept
    · rw [hk, toNat_false] at hgt; omega
    · simp [hone]
  · have h2 : A.cow - 1 ≠ 0 := by omega
    rw [if_neg h2]
    cases hk : A.kept
    · simp only [toNat_false, Nat.add_zero]
      by_cases h3 : A.cow = 2
      · simp [h3]
      · rw [if_pos (by omega), if_neg (by omega)]
    · simp only [toNat_true]
      rw [if_pos (by omega), if_neg (by omega)]
      congr 1
      omega

/-- the only user, a copy-on-write one, frees the resource -/
theorem ok_releaseFree (hc : 0 < A.cow) (he : A.entry = none) :
    Ok { A with cow := A.cow - 1, alloc := false, entry := none } := by
  obtain ⟨h1, h2, h3, h4, h5⟩ := h.sole hc he
  refine ⟨by simp [h2, h4, h5], fun hp => by simp [h2, h4] at hp, fun hs => by simp only at hs; omega, fun hl => ?_, ?_⟩
  · simp [h1, h2, h3, h4, h5] at hl
  · simp [claims, h1]

/-- the only user, a copy-on-write one, keeps it as an exclusive one -/
theorem ok_reuse (hc : 0 < A.cow) (he : A.entry = none) :
    Ok { A with own := A.own + 1, cow := A.cow - 1, entry := none } := by
  obtain ⟨h1, h2, h3, h4, h5⟩ := h.sole hc he
  have ha := h.live (by omega)
  refine ⟨by simp [h2, h4, h5], fun _ => by simp [h1], fun hs => by simp only at hs; omega, fun _ => ha, ?_⟩
  simp [claims, h1]

end

end Account

end Rumicos.Lib
