/-
Linked lists threaded through memory.

`Chain next nil p l` says that following `next` from `p` visits exactly `l` and then reaches `nil`. The list is determined
by the memory (`chain_unique`), depends on the links of its own nodes only (`Chain.congr`), and grows at the front
(`chain_push`). A node equal to `nil` is on no chain.
-/
import Mathlib.Tactic

namespace Rumicos.Lib

section Chain

variable {A : Type} {next next' : A → A} {nil p : A}

def Chain (next : A → A) (nil : A) : A → List A → Prop
  | p, [] => p = nil
  | p, a :: l => p = a ∧ a ≠ nil ∧ Chain next nil (next a) l

theorem chain_unique {l l' : List A} (h : Chain next nil p l) (h' : Chain next nil p l') : l = l' := by
  induction l generalizing p l' with
  | nil =>
    rcases l' with _ | ⟨b, l'⟩
    · rfl
    · exact absurd (h'.1.symm.trans h) h'.2.1
  | cons a l ih =>
    rcases l' with _ | ⟨b, l'⟩
    · exact absurd (h.1.symm.trans h') h.2.1
    · obtain rfl : a = b := h.1.symm.trans h'.1
      rw [ih h.2.2 h'.2.2]

theorem Chain.ne_nil {l : List A} (h : Chain next nil p l) : ∀ a ∈ l, a ≠ nil := by
  induction l generalizing p with
  | nil => simp
  | cons a l ih =>
    intro b hb
    rcases List.mem_cons.1 hb with rfl | hb
    · exact h.2.1
    · exact ih h.2.2 b hb

/-- only the links of the nodes visited count -/
theorem Chain.congr {l : List A} (h : Chain next nil p l) (he : ∀ a ∈ l, next' a = next a) : Chain next' nil p l := by
  induction l generalizing p with
  | nil => exact h
  | cons a l ih =>
    obtain ⟨hp, hn, ht⟩ := h
    refine ⟨hp, hn, ?_⟩
    rw [he a List.mem_cons_self]
    exact ih ht fun b hb => he b (List.mem_cons_of_mem a hb)

theorem chain_push [DecidableEq A] {l : List A} {a : A} (h : Chain next nil p l) (hn : a ≠ nil) (ha : a ∉ l) :
    Chain (Function.update next a p) nil a (a :: l) := by
  refine ⟨rfl, hn, ?_⟩
  rw [Function.update_self]
  refine h.congr fun b hb => Function.update_of_ne ?_ _ _
  rintro rfl
  exact ha hb

end Chain

end Rumicos.Lib
