/-
Runs of partial step functions: a step has a result or none (the system stops). A run folds the step over a list of
inputs. Nothing here knows what the states and inputs are.

- `foldlM_inv`: an invariant of the remaining inputs and the state holds at the end of the run.
- `Meets step C s as`: every step of the run starts in a state, and with an input, that satisfy `C`.
- `meets_append`: the same for a run cut in two.
-/
import Mathlib.Tactic

namespace Rumicos.Lib

open List Option

variable {S A : Type} {o : Option S} {i : ℕ}

/-- what a check of an optional result establishes -/
theorem exists_of_any {p : S → Bool} (h : o.any p = true) : ∃ s, o = some s ∧ p s = true := by
  rcases o with _ | s
  · cases h
  · exact ⟨s, rfl, h⟩

instance decidableExistsSome (o : Option S) (P : S → Prop) [DecidablePred P] : Decidable (∃ s, o = some s ∧ P s) :=
  match o with
  | none => .isFalse nofun
  | some s => decidable_of_iff (P s) ⟨fun h => ⟨s, rfl, h⟩, fun ⟨_, hs, h⟩ => Option.some.inj hs ▸ h⟩

/-- a result that was checked, and what follows from it -/
theorem exists_and_of_check {P Q : S → Prop} (h : ∃ s, o = some s ∧ P s) (hQ : ∀ s, o = some s → P s → Q s) :
    ∃ s, o = some s ∧ P s ∧ Q s := by
  obtain ⟨s, hs, hp⟩ := h
  exact ⟨s, hs, hp, hQ s hs hp⟩

theorem exists_of_check {Q : S → Prop} (P : S → Prop) (h : ∃ s, o = some s ∧ P s) (hQ : ∀ s, o = some s → P s → Q s) :
    ∃ s, o = some s ∧ Q s := by
  obtain ⟨s, hs, hp⟩ := h
  exact ⟨s, hs, hQ s hs hp⟩

/-- what an entry of a list is after one was replaced -/
theorem getElem?_set_cases {l : List S} {j : ℕ} {x y : S} (h : (l.set i x)[j]? = some y) :
    (j = i ∧ y = x) ∨ (j ≠ i ∧ l[j]? = some y) := by
  rw [getElem?_set] at h
  split_ifs at h with hij hlt
  · exact .inl ⟨hij.symm, (some.inj h).symm⟩
  · exact .inr ⟨Ne.symm hij, h⟩

theorem foldlM_cons_some (step : S → A → Option S) (s t : S) (a : A) (as : List A) :
    (a :: as).foldlM step s = some t ↔ ∃ s', step s a = some s' ∧ as.foldlM step s' = some t := by
  rw [foldlM_cons, bind_eq_bind, bind_eq_some_iff]

variable {step : S → A → Option S} {as : List A} {s t : S} {C D : S → A → Prop}

/-- an invariant that may speak of the inputs still to come -/
theorem foldlM_inv (I : List A → S → Prop) (hstep : ∀ a as s s', I (a :: as) s → step s a = some s' → I as s') (h : I as s)
    (hrun : as.foldlM step s = some t) : I [] t := by
  induction as generalizing s with
  | nil =>
    simp only [foldlM_nil, Option.pure_def, some.injEq] at hrun
    exact hrun ▸ h
  | cons a as ih =>
    obtain ⟨s', hs, hr⟩ := (foldlM_cons_some _ _ _ _ _).1 hrun
    exact ih (hstep a as s s' h hs) hr

/-- every step of the run starts within `C` -/
def Meets (step : S → A → Option S) (C : S → A → Prop) : S → List A → Prop
  | _, [] => True
  | s, a :: as => C s a ∧ ∀ s', step s a = some s' → Meets step C s' as

theorem meets_cons_iff {a : A} :
    Meets step C s (a :: as) ↔ C s a ∧ (step s a).elim True fun s' => Meets step C s' as := by
  rw [Meets]
  rcases step s a with _ | s'
  · simp
  · simp

instance decidableMeets (step : S → A → Option S) (C : S → A → Prop) [∀ s a, Decidable (C s a)] :
    (s : S) → (as : List A) → Decidable (Meets step C s as)
  | _, [] => .isTrue trivial
  | s, a :: as =>
    have : Decidable ((step s a).elim True fun s' => Meets step C s' as) :=
      match step s a with
      | none => .isTrue trivial
      | some s' => decidableMeets step C s' as
    decidable_of_iff _ meets_cons_iff.symm

/-- **The invariant rule.** What every step within `C` preserves holds after every run within `C`. -/
theorem run_inv (I : S → Prop) (hstep : ∀ s a s', I s → C s a → step s a = some s' → I s') (h : I s)
    (hC : Meets step C s as) (hrun : as.foldlM step s = some t) : I t :=
  (foldlM_inv (fun as s => I s ∧ Meets step C s as)
    (fun a _ s s' hI hs => ⟨hstep s a s' hI.1 hI.2.1 hs, hI.2.2 s' hs⟩) ⟨h, hC⟩ hrun).1

theorem meets_append {bs : List A} :
    Meets step C s (as ++ bs) ↔ Meets step C s as ∧ ∀ t, as.foldlM step s = some t → Meets step C t bs := by
  induction as generalizing s with
  | nil => simp [Meets]
  | cons a as ih =>
    simp only [foldlM_cons_some]
    constructor
    · rintro ⟨hc, h⟩
      refine ⟨⟨hc, fun s' hs => (ih.1 (h s' hs)).1⟩, ?_⟩
      rintro t ⟨s', hs, ht⟩
      exact (ih.1 (h s' hs)).2 t ht
    · rintro ⟨⟨hc, h1⟩, h2⟩
      exact ⟨hc, fun s' hs => ih.2 ⟨h1 s' hs, fun t ht => h2 t ⟨s', hs, ht⟩⟩⟩

theorem Meets.and (hC : Meets step C s as) (hD : Meets step D s as) : Meets step (fun s a => C s a ∧ D s a) s as := by
  induction as generalizing s with
  | nil => trivial
  | cons a as ih => exact ⟨⟨hC.1, hD.1⟩, fun s' hs => ih (hC.2 s' hs) (hD.2 s' hs)⟩

theorem Meets.mono (h : ∀ s a, C s a → D s a) (hm : Meets step C s as) : Meets step D s as := by
  induction as generalizing s with
  | nil => trivial
  | cons a as ih => exact ⟨h s a hm.1, fun s' hs => ih (hm.2 s' hs)⟩

/-- a condition that follows from another along an invariant -/
theorem Meets.imp_inv (I : S → Prop) (hstep : ∀ s a s', I s → C s a → step s a = some s' → I s')
    (h : ∀ s a, I s → C s a → D s a) (hs : I s) (hm : Meets step C s as) : Meets step D s as := by
  induction as generalizing s with
  | nil => trivial
  | cons a as ih => exact ⟨h s a hs hm.1, fun s' hs' => ih (hstep s a s' hs hm.1 hs') (hm.2 s' hs')⟩

/-- where a step outside `C` breaks `E` and a step within `C` keeps an invariant that implies it, the runs within `C` are
those along which `E` holds -/
theorem meets_iff_reached {E : S → Prop} (I : S → Prop) (hgood : ∀ s a s', I s → C s a → step s a = some s' → I s')
    (hbad : ∀ s a, I s → ¬ C s a → ∃ s', step s a = some s' ∧ ¬ E s') (hE : ∀ s, I s → E s) (hs : I s) :
    Meets step C s as ↔ ∀ k t, (as.take k).foldlM step s = some t → E t := by
  constructor
  · intro hm k t ht
    rw [← take_append_drop k as, meets_append] at hm
    exact hE t (run_inv I hgood hs hm.1 ht)
  · intro h
    induction as generalizing s with
    | nil => trivial
    | cons a as ih =>
      have hC : C s a := by
        by_contra hC
        obtain ⟨s', hstep, hbroken⟩ := hbad s a hs hC
        exact hbroken (h 1 s' ((foldlM_cons_some _ _ _ _ _).2 ⟨s', hstep, rfl⟩))
      refine ⟨hC, fun s' hstep => ih (hgood s a s' hs hC hstep) fun k t ht => ?_⟩
      exact h (k + 1) t ((foldlM_cons_some _ _ _ _ _).2 ⟨s', hstep, ht⟩)

/-- what holds after a run and did not before it was brought about by one of its steps -/
theorem exists_switch (Φ : S → Prop) (hs : ¬ Φ s) (hrun : as.foldlM step s = some t) (ht : Φ t) :
    ∃ bs a cs u v, as = bs ++ a :: cs ∧ bs.foldlM step s = some u ∧ step u a = some v ∧ ¬ Φ u ∧ Φ v := by
  induction as generalizing s with
  | nil =>
    simp only [foldlM_nil, Option.pure_def, some.injEq] at hrun
    exact absurd (hrun ▸ ht) hs
  | cons a as ih =>
    obtain ⟨s', hstep, hr⟩ := (foldlM_cons_some _ _ _ _ _).1 hrun
    by_cases hs' : Φ s'
    · exact ⟨[], a, as, s, s', rfl, rfl, hstep, hs, hs'⟩
    · obtain ⟨bs, b, cs, u, v, rfl, hu, huv⟩ := ih hs' hr
      exact ⟨a :: bs, b, cs, u, v, rfl, (foldlM_cons_some _ _ _ _ _).2 ⟨s', hstep, hu⟩, huv⟩

/-! ## Replacing one entry of a list -/

theorem mem_set_of_ne {α : Type} {l : List α} {x y z : α} (hi : l[i]? = some x) (hz : z ∈ l) (hne : z ≠ x) :
    z ∈ l.set i y := by
  obtain ⟨k, hk⟩ := mem_iff_getElem?.1 hz
  have hik : i ≠ k := by
    rintro rfl
    exact hne (some.inj (hk.symm.trans hi))
  refine mem_of_getElem? (?_ : _[k]? = some z)
  rw [getElem?_set_ne hik]
  exact hk

theorem mem_eraseIdx_of_ne {α : Type} {l : List α} {x z : α} (hi : l[i]? = some x) (hz : z ∈ l) (hne : z ≠ x) :
    z ∈ l.eraseIdx i := by
  obtain ⟨k, hk⟩ := mem_iff_getElem?.1 hz
  refine mem_eraseIdx_iff_getElem?.2 ⟨k, ?_, hk⟩
  rintro rfl
  exact hne (some.inj (hk.symm.trans hi))

theorem forall_mem_set {l : List S} {x : S} {P : S → Prop} (h : ∀ y ∈ l, P y) (hx : P x) : ∀ y ∈ l.set i x, P y := by
  intro y hy
  rcases mem_or_eq_of_mem_set hy with hy | rfl
  · exact h y hy
  · exact hx

theorem mem_of_mem_set_none {l : List (Option S)} {y : S} (h : some y ∈ l.set i none) : some y ∈ l :=
  (mem_or_eq_of_mem_set h).elim id nofun

end Rumicos.Lib
