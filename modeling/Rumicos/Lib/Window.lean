/-
Windows on a circular buffer.

`window N data pos len` is the list of `len` cells from `pos` on, around a buffer of `N` cells; `store` writes a list from
a position on. A window is cut at any point (`window_add`), and storing behind a window appends to it as long as the whole
fits into the buffer (`window_store`).
-/
import Mathlib.Tactic

namespace Rumicos.Lib

open Function List Option

section Window

variable {α : Type} {N : ℕ}

def window (N : ℕ) (data : ℕ → α) (pos len : ℕ) : List α := (List.range len).map fun i => data ((pos + i) % N)

def store (N : ℕ) (data : ℕ → α) (pos : ℕ) : List α → ℕ → α
  | [] => data
  | b :: bs => store N (update data (pos % N) b) (pos + 1) bs

section

variable (data : ℕ → α)

@[simp] theorem length_window (pos len : ℕ) : (window N data pos len).length = len := by simp [window]

theorem window_mod (pos len : ℕ) : window N data (pos % N) len = window N data pos len := by
  unfold window
  simp

theorem window_add (pos m n : ℕ) :
    window N data pos (m + n) = window N data pos m ++ window N data (pos + m) n := by
  unfold window
  rw [range_add, map_append, List.map_map]
  simp [Nat.add_assoc]

theorem store_mod (pos : ℕ) (bs : List α) : store N data (pos % N) bs = store N data pos bs := by
  induction bs generalizing data pos with
  | nil => rfl
  | cons b bs ih =>
    rw [store, store, Nat.mod_mod, ← ih, ← ih _ (pos + 1), Nat.mod_add_mod]

/-- a cell behind the window is not in it -/
theorem window_update (pos : ℕ) {len : ℕ} (h : len < N) (b : α) :
    window N (update data ((pos + len) % N) b) pos len = window N data pos len := by
  apply map_congr_left
  intro i hi
  apply update_of_ne
  intro he
  -- two offsets below `N` that agree modulo `N` are equal
  have hmod : i ≡ len [MOD N] := Nat.ModEq.add_left_cancel' pos he
  have hlt : i < len := mem_range.1 hi
  exact hlt.ne (hmod.eq_of_lt_of_lt (hlt.trans h) h)

/-- **Storing behind a window appends to it.** -/
theorem window_store (pos len : ℕ) (bs : List α) (h : len + bs.length ≤ N) :
    window N (store N data (pos + len) bs) pos (len + bs.length) = window N data pos len ++ bs := by
  induction bs generalizing data len with
  | nil => simp [store]
  | cons b bs ih =>
    have hlen : len < N := by
      rw [length_cons] at h
      omega
    have hnext : len + 1 + bs.length ≤ N := by
      rw [length_cons] at h
      omega
    calc window N (store N data (pos + len) (b :: bs)) pos (len + (b :: bs).length)
        = window N (store N (update data ((pos + len) % N) b) (pos + (len + 1)) bs) pos
            (len + 1 + bs.length) := by
          rw [store, length_cons, Nat.add_assoc pos, Nat.add_assoc len, Nat.add_comm 1]
      _ = window N (update data ((pos + len) % N) b) pos (len + 1) ++ bs := ih _ _ hnext
      _ = window N data pos len ++ b :: bs := by
          rw [window_add, window_update data pos hlen b]
          simp [window]

end

end Window

end Rumicos.Lib
