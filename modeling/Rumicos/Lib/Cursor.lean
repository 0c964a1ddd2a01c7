/-
Free-running cursors of a fixed width over a ring of 2^k slots.

A cursor counts without bound and is kept modulo 2^w. As long as the width covers the ring, the slot of the kept value
is the slot of the count, and the wrapping difference of two kept values is the difference of the counts.
-/
import Mathlib.Tactic

namespace Rumicos.Lib

def wrappingAdd (w a b : ℕ) : ℕ := (a + b) % 2 ^ w

def wrappingSub (w a b : ℕ) : ℕ := (a + (2 ^ w - b)) % 2 ^ w

variable {k w m n : ℕ}

theorem wrappingAdd_mod (w n : ℕ) : wrappingAdd w (n % 2 ^ w) 1 = (n + 1) % 2 ^ w := Nat.mod_add_mod ..

theorem wrappingSub_mod (hle : n ≤ m) (hlt : m - n < 2 ^ w) : wrappingSub w (m % 2 ^ w) (n % 2 ^ w) = m - n := by
  obtain ⟨d, rfl⟩ := Nat.exists_eq_add_of_le hle
  have hsum : n % 2 ^ w + d + (2 ^ w - n % 2 ^ w) = d + 2 ^ w := by omega
  rw [Nat.add_sub_cancel_left] at hlt ⊢
  rw [wrappingSub, Nat.mod_add_mod, ← Nat.mod_add_mod, ← Nat.mod_add_mod n, Nat.mod_add_mod, hsum, Nat.add_mod_right,
    Nat.mod_eq_of_lt hlt]

/-- cursors that are less than a turn apart are equal if they are kept as the same value -/
theorem cursor_inj (hle : n ≤ m) (hlt : m - n < 2 ^ w) (h : n % 2 ^ w = m % 2 ^ w) : n = m := by
  have hsub := wrappingSub_mod hle hlt
  rw [← h, wrappingSub_mod le_rfl (by omega)] at hsub
  omega

/-- the slot of a cursor -/
theorem slot_eq (hk : k ≤ w) (n : ℕ) : n % 2 ^ w &&& (2 ^ k - 1) = n % 2 ^ k := by
  rw [Nat.and_two_pow_sub_one_eq_mod, Nat.mod_mod_of_dvd _ (Nat.pow_dvd_pow 2 hk)]

theorem slot_ne {N : ℕ} (hlt : n < m) (h : m < n + N) : n % N ≠ m % N := by
  intro he
  have hmod : n + 0 ≡ n + (m - n) [MOD N] := by rwa [Nat.add_sub_cancel' hlt.le]
  have := (Nat.ModEq.add_left_cancel' n hmod).eq_of_lt_of_lt (by omega) (by omega)
  omega

/-- a queue that is known by what went in and what came out -/
theorem prefix_snoc {α : Type} {xs ys : List α} {y : α} (h : xs <+: ys) (hy : ys[xs.length]? = some y) :
    xs ++ [y] <+: ys := by
  obtain ⟨zs, rfl⟩ := h
  obtain ⟨zs, rfl⟩ : ∃ ws, zs = y :: ws := by
    cases zs with
    | nil => simp at hy
    | cons z ws => exact ⟨ws, by simpa using hy⟩
  exact ⟨zs, List.append_assoc ..⟩

end Rumicos.Lib
