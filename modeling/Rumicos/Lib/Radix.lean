/-
Radix trees of labelled nodes: a tree of fixed depth in which every inner node carries a label (the storage it lives
in) and an array of optional children. Leaves are values of any type. Nothing here knows what labels and leaves are.

- `Tree F α ws`: labels in `F`, leaves in `α`, `ws` the node widths from the root down; `Path ws` is one index a level.
- `lookup`, `write`: read and replace the leaf at a path. `write` needs the nodes above it (`hasPath`); `ensure` makes
  the missing ones, from the top down, with labels from an allocator.
- `lookup_write`, `lookup_ensure`: every path after each of them.
- `ensure_take`: `ensure` takes one label from the allocator for each node the path lacks; `missingAll_ensure`: what that
  leaves to make for a list of paths.
- `leaves`: the leaves in index order; `mem_leaves`, `nodup_leaves`: each path with a leaf is met exactly once.
- `ensure_allocs`: the labels after `ensure` are the old ones and the ones it allocated, in `Allocs` order.
- `fold`: the post-order walk that consumes the leaves and then the label of each node; `fold_eq_foldl`,
  `leaves_postorder`, `labels_postorder`: it consumes every leaf and every label once.
-/
import Mathlib.Tactic

namespace Rumicos.Lib

open Function List Option Finset

/-- an inner node: its label and its children -/
structure Node (F : Type) (w : ℕ) (β : Type) where
  label : F
  entries : Fin w → Option β

/-- a tree with node widths `ws` -/
@[reducible] def Tree (F α : Type) : List ℕ → Type
  | [] => α
  | w :: ws => Node F w (Tree F α ws)

/-- where a tree may hang -/
abbrev Slot (F α : Type) (ws : List ℕ) : Type := Option (Tree F α ws)

/-- one index a level -/
@[reducible] def Path : List ℕ → Type
  | [] => Unit
  | w :: ws => Fin w × Path ws

instance Path.decidableEq : (ws : List ℕ) → DecidableEq (Path ws)
  | [] => inferInstanceAs (DecidableEq Unit)
  | _ :: ws => have := Path.decidableEq ws; inferInstanceAs (DecidableEq (_ × _))

namespace Slot

variable {F α σ : Type}

/-! ## Reading and writing -/

/-- the leaf at a path -/
def lookup : {ws : List ℕ} → Slot F α ws → Path ws → Option α
  | [], s, _ => s
  | _ :: _, none, _ => none
  | _ :: _, some t, (i, p) => lookup (t.entries i) p

/-- are all nodes above the leaf position there? -/
def hasPath : {ws : List ℕ} → Slot F α ws → Path ws → Bool
  | [], _, _ => true
  | _ :: _, none, _ => false
  | _ :: _, some t, (i, p) => hasPath (t.entries i) p

/-- replace the leaf at a path, if the nodes above it are there -/
def write : {ws : List ℕ} → Slot F α ws → Path ws → Option α → Slot F α ws
  | [], _, _, x => x
  | _ :: _, none, _, _ => none
  | _ :: _, some t, (i, p), x => some { t with entries := update t.entries i (write (t.entries i) p x) }

/-- make the missing nodes above a leaf position, from the top down -/
def ensure (alloc : σ → Option (F × σ)) : {ws : List ℕ} → Slot F α ws → Path ws → σ → Option (Slot F α ws × σ)
  | [], s, _, st => some (s, st)
  | _ :: _, none, (i, p), st => do
    let (f, st) ← alloc st
    let (c, st) ← ensure alloc none p st
    return (some ⟨f, update (fun _ => none) i c⟩, st)
  | _ :: _, some t, (i, p), st => do
    let (c, st) ← ensure alloc (t.entries i) p st
    return (some { t with entries := update t.entries i c }, st)

theorem lookup_eq_none_of_not_hasPath : {ws : List ℕ} → (s : Slot F α ws) → (p : Path ws) → hasPath s p = false →
    lookup s p = none
  | [], _, _, h => by simp [hasPath] at h
  | _ :: _, none, _, _ => rfl
  | _ :: _, some t, (i, p), h => lookup_eq_none_of_not_hasPath (t.entries i) p h

@[simp] theorem lookup_none : {ws : List ℕ} → (p : Path ws) → lookup (none : Slot F α ws) p = none
  | [], _ => rfl
  | _ :: _, _ => rfl

theorem lookup_write : {ws : List ℕ} → (s : Slot F α ws) → (p q : Path ws) → (x : Option α) → hasPath s p = true →
    lookup (write s p x) q = if q = p then x else lookup s q
  | [], s, p, q, x, _ => by simp [lookup, write]
  | _ :: _, none, _, _, _, h => by simp [hasPath] at h
  | _ :: _, some t, (i, p), (j, q), x, h => by
    simp only [lookup, write]
    by_cases hj : j = i
    · subst hj
      rw [update_self, lookup_write (t.entries j) p q x h]
      simp
    · rw [update_of_ne hj, if_neg (by simp [hj])]

variable {alloc : σ → Option (F × σ)} {w n : ℕ} {ws : List ℕ} {st : σ} {i : Fin w} {p : Path ws}

theorem ensure_none {r : Slot F α (w :: ws) × σ} (h : ensure alloc none (i, p) st = some r) :
    ∃ f st1 c st2, alloc st = some (f, st1) ∧ ensure alloc (none : Slot F α ws) p st1 = some (c, st2) ∧
      r = (some ⟨f, update (fun _ => none) i c⟩, st2) := by
  rw [ensure] at h
  simp only [bind, bind_eq_some_iff, pure, some.injEq] at h
  obtain ⟨⟨f, st1⟩, hf, ⟨c, st2⟩, hc, rfl⟩ := h
  exact ⟨f, st1, c, st2, hf, hc, rfl⟩

theorem ensure_some {t : Tree F α (w :: ws)} {r : Slot F α (w :: ws) × σ} (h : ensure alloc (some t) (i, p) st = some r) :
    ∃ c st1, ensure alloc (t.entries i) p st = some (c, st1) ∧
      r = (some { t with entries := update t.entries i c }, st1) := by
  rw [ensure] at h
  simp only [bind, bind_eq_some_iff, pure, some.injEq] at h
  obtain ⟨⟨c, st1⟩, hc, rfl⟩ := h
  exact ⟨c, st1, hc, rfl⟩

/-- new nodes have no leaves: every path reads what it read -/
theorem lookup_ensure : {ws : List ℕ} → {s : Slot F α ws} → {p : Path ws} → {st : σ} →
    {r : Slot F α ws × σ} → ensure alloc s p st = some r → (q : Path ws) → lookup r.1 q = lookup s q
  | [], _, _, _, _, h, _ => by cases h; rfl
  | _ :: _, none, (i, p), st, r, h, (j, q) => by
    obtain ⟨f, st1, c, st2, -, hc, rfl⟩ := ensure_none h
    have ih := lookup_ensure hc q
    by_cases hj : j = i
    · subst hj; simpa [lookup] using ih
    · simp [lookup, update_of_ne hj]
  | _ :: _, some t, (i, p), st, r, h, (j, q) => by
    obtain ⟨c, st1, hc, rfl⟩ := ensure_some h
    have ih := lookup_ensure hc q
    by_cases hj : j = i
    · subst hj; simpa [lookup] using ih
    · simp [lookup, update_of_ne hj]

/-- and the nodes above `p` are there -/
theorem hasPath_ensure : {ws : List ℕ} → {s : Slot F α ws} → {p : Path ws} → {st : σ} →
    {r : Slot F α ws × σ} → ensure alloc s p st = some r → hasPath r.1 p = true
  | [], _, _, _, _, _ => rfl
  | _ :: _, none, (i, p), st, r, h => by
    obtain ⟨f, st1, c, st2, -, hc, rfl⟩ := ensure_none h
    simpa [hasPath] using hasPath_ensure hc
  | _ :: _, some t, (i, p), st, r, h => by
    obtain ⟨c, st1, hc, rfl⟩ := ensure_some h
    simpa [hasPath] using hasPath_ensure hc

/-- an allocator that never fails makes every path -/
theorem ensure_total (halloc : ∀ st, (alloc st).isSome) : {ws : List ℕ} →
    (s : Slot F α ws) → (p : Path ws) → (st : σ) → ∃ r, ensure alloc s p st = some r
  | [], s, _, st => ⟨(s, st), rfl⟩
  | _ :: _, none, (i, p), st => by
    obtain ⟨⟨f, st1⟩, hf⟩ := isSome_iff_exists.1 (halloc st)
    obtain ⟨⟨c, st2⟩, hc⟩ := ensure_total halloc (none : Slot F α _) p st1
    exact ⟨_, by simp only [ensure, hf, hc, bind, bind_some, pure]; rfl⟩
  | _ :: _, some t, (i, p), st => by
    obtain ⟨⟨c, st1⟩, hc⟩ := ensure_total halloc (t.entries i) p st
    exact ⟨_, by simp only [ensure, hc, bind, bind_some, pure]; rfl⟩

/-! ## How many nodes a path lacks -/

/-- does `alloc` succeed `n` times in a row? -/
def gives (alloc : σ → Option (F × σ)) : ℕ → σ → Bool
  | 0, _ => true
  | n + 1, st =>
    match alloc st with
    | none => false
    | some (_, st) => gives alloc n st

/-- the number of nodes above a leaf position that are not there -/
def missing : {ws : List ℕ} → Slot F α ws → Path ws → ℕ
  | [], _, _ => 0
  | _ :: _, none, (_, p) => missing (none : Slot F α _) p + 1
  | _ :: _, some t, (i, p) => missing (t.entries i) p

/-- the state after `n` allocations in a row -/
def take (alloc : σ → Option (F × σ)) : ℕ → σ → Option σ
  | 0, st => some st
  | n + 1, st => (alloc st).bind fun x => take alloc n x.2

theorem gives_eq (alloc : σ → Option (F × σ)) (n : ℕ) (st : σ) : gives alloc n st = (take alloc n st).isSome := by
  induction n generalizing st with
  | zero => rfl
  | succ n ih =>
    rw [gives, take]
    cases alloc st with
    | none => rfl
    | some x => exact ih x.2

theorem take_add (alloc : σ → Option (F × σ)) (m n : ℕ) (st : σ) :
    take alloc (m + n) st = (take alloc m st).bind (take alloc n) := by
  induction m generalizing st with
  | zero => rw [Nat.zero_add, take, bind_some]
  | succ m ih =>
    rw [Nat.succ_add, take, take, bind_assoc]
    congr 1
    funext x
    exact ih x.2

/-- making a path takes one allocation for each node it lacks, and nothing else -/
theorem ensure_take (alloc : σ → Option (F × σ)) : {ws : List ℕ} → (s : Slot F α ws) → (p : Path ws) → (st : σ) →
    (ensure alloc s p st).map Prod.snd = take alloc (missing s p) st
  | [], _, _, _ => rfl
  | _ :: _, none, (i, p), st => by
    rw [missing, take, ensure]
    cases alloc st with
    | none => rfl
    | some x =>
      have ih := ensure_take alloc (none : Slot F α _) p x.2
      simp only [bind, bind_some, pure]
      rw [← ih]
      cases ensure alloc (none : Slot F α _) p x.2 with
      | none | some r => rfl
  | _ :: _, some t, (i, p), st => by
    have ih := ensure_take alloc (t.entries i) p st
    rw [missing, ← ih, ensure]
    cases ensure alloc (t.entries i) p st with
    | none | some r => rfl

theorem ensure_isSome (alloc : σ → Option (F × σ)) (s : Slot F α ws) (p : Path ws) (st : σ) :
    (ensure alloc s p st).isSome = gives alloc (missing s p) st := by
  rw [gives_eq, ← ensure_take, isSome_map]

/-- the rest of the paths that go through child `i` -/
def tails {w : ℕ} {ws : List ℕ} (i : Fin w) (ps : List (Path (w :: ws))) : List (Path ws) :=
  ps.filterMap fun q => if q.1 = i then some q.2 else none

/-- the number of nodes above any of the leaf positions that are not there -/
def missingAll : {ws : List ℕ} → Slot F α ws → List (Path ws) → ℕ
  | [], _, _ => 0
  | _ :: _, none, ps => if ps.isEmpty then 0 else ∑ i, missingAll (none : Slot F α _) (tails i ps) + 1
  | _ :: _, some t, ps => ∑ i, missingAll (t.entries i) (tails i ps)

theorem tails_cons_self (i : Fin w) (p : Path ws) (ps : List (Path (w :: ws))) :
    tails i ((i, p) :: ps) = p :: tails i ps := by
  simp [tails]

theorem tails_cons_ne {j : Fin w} (h : j ≠ i) (p : Path ws) (ps : List (Path (w :: ws))) :
    tails j ((i, p) :: ps) = tails j ps := by
  simp [tails, Ne.symm h]

theorem missingAll_nil : {ws : List ℕ} → (s : Slot F α ws) → missingAll s [] = 0
  | [], _ => rfl
  | _ :: _, none => rfl
  | _ :: _, some t => by
    rw [missingAll]
    exact Finset.sum_eq_zero fun i _ => missingAll_nil (t.entries i)

/-- a sum over the children when one of them gets `x` more and the others stay -/
theorem sum_eq_add_sum (g g' : Fin w → ℕ) (i : Fin w) (x : ℕ) (hi : g i = x + g' i) (h : ∀ j, j ≠ i → g j = g' j) :
    ∑ j, g j = x + ∑ j, g' j := by
  rw [← add_sum_erase _ _ (mem_univ i), ← add_sum_erase (f := g') _ (mem_univ i), hi, add_assoc]
  congr 2
  exact sum_congr rfl fun j hj => h j (ne_of_mem_erase hj)

/-- writing a leaf adds no node -/
theorem missingAll_write : {ws : List ℕ} → (s : Slot F α ws) → (p : Path ws) → (x : Option α) → (ps : List (Path ws)) →
    missingAll (write s p x) ps = missingAll s ps
  | [], _, _, _, _ => rfl
  | _ :: _, none, _, _, _ => rfl
  | _ :: _, some t, (i, p), x, ps => by
    rw [write, missingAll, missingAll]
    refine Finset.sum_congr rfl fun j _ => ?_
    show missingAll (update t.entries i (write (t.entries i) p x) j) _ = _
    by_cases hj : j = i
    · subst hj
      rw [update_self]
      exact missingAll_write (t.entries j) p x _
    · rw [update_of_ne hj]

/-- making one path leaves that many fewer nodes to make for the others -/
theorem missingAll_ensure : {ws : List ℕ} → {s : Slot F α ws} → {p : Path ws} → {st : σ} →
    {r : Slot F α ws × σ} → ensure alloc s p st = some r → (ps : List (Path ws)) →
    missingAll s (p :: ps) = missing s p + missingAll r.1 ps
  | [], _, _, _, _, _, _ => rfl
  | _ :: _, none, (i, p), st, r, h, ps => by
    obtain ⟨f, st₁, c, st₂, -, hc, rfl⟩ := ensure_none h
    have ih := missingAll_ensure hc (tails i ps)
    rw [missingAll, missing, missingAll, if_neg (by simp)]
    rw [sum_eq_add_sum _ (fun j => missingAll (update (fun _ => none) i c j) (tails j ps)) i
      (missing (none : Slot F α _) p), Nat.add_right_comm]
    · rw [tails_cons_self, update_self]
      exact ih
    · intro j hj
      rw [tails_cons_ne hj, update_of_ne hj]
  | _ :: _, some t, (i, p), st, r, h, ps => by
    obtain ⟨c, st₁, hc, rfl⟩ := ensure_some h
    have ih := missingAll_ensure hc (tails i ps)
    rw [missingAll, missing, missingAll]
    refine sum_eq_add_sum _ (fun j => missingAll (update t.entries i c j) (tails j ps)) i _ ?_ ?_
    · rw [tails_cons_self, update_self]
      exact ih
    · intro j hj
      rw [tails_cons_ne hj, update_of_ne hj]

theorem missing_le_missingAll [Inhabited F] (s : Slot F α ws) (p : Path ws) (ps : List (Path ws)) :
    missing s p ≤ missingAll s (p :: ps) := by
  have htotal : ∀ st : Unit, (some ((default : F), st)).isSome := fun _ => rfl
  obtain ⟨r, hr⟩ := ensure_total htotal s p ()
  rw [missingAll_ensure hr ps]
  exact Nat.le_add_right _ _

theorem take_eq_none_of_le {m : ℕ} (h : take alloc m st = none) (hle : m ≤ n) : take alloc n st = none := by
  obtain ⟨d, rfl⟩ := Nat.exists_eq_add_of_le hle
  rw [take_add, h, bind_none]

/-! ## The leaves, in order -/

/-- the leaves with their paths, in index order -/
def leaves : {ws : List ℕ} → Slot F α ws → List (Path ws × α)
  | [], none => []
  | [], some a => [((), a)]
  | _ :: _, none => []
  | w :: _, some t => (List.finRange w).flatMap fun i => (leaves (t.entries i)).map fun x => ((i, x.1), x.2)

theorem mem_leaves : {ws : List ℕ} → (s : Slot F α ws) → (p : Path ws) → (a : α) →
    (p, a) ∈ leaves s ↔ lookup s p = some a
  | [], none, _, _ => by simp [leaves, lookup]
  | [], some b, _, a => by simp [leaves, lookup, eq_comm]
  | _ :: _, none, _, _ => by simp [leaves, lookup]
  | w :: ws, some t, (i, p), a => by
    simp only [leaves, lookup, mem_flatMap, mem_finRange, true_and, List.mem_map, Prod.mk.injEq,
      Prod.exists]
    constructor
    · rintro ⟨j, q, b, hq, ⟨rfl, rfl⟩, rfl⟩
      exact (mem_leaves _ _ _).1 hq
    · intro h
      exact ⟨i, p, a, (mem_leaves _ _ _).2 h, ⟨rfl, rfl⟩, rfl⟩

theorem nodup_leaves : {ws : List ℕ} → (s : Slot F α ws) → ((leaves s).map Prod.fst).Nodup
  | [], none => by simp [leaves]
  | [], some a => by simp [leaves]
  | _ :: _, none => by simp [leaves]
  | w :: ws, some t => by
    simp only [leaves, map_flatMap, List.map_map]
    rw [nodup_flatMap]
    refine ⟨fun i _ => ?_, ?_⟩
    · have h := (nodup_leaves (t.entries i)).map (f := fun q : Path ws => (i, q)) fun a b hab => by
        simpa using hab
      simpa [Function.comp_def] using h
    · refine (nodup_finRange w).imp ?_
      intro i j hij x hx hy
      simp only [List.mem_map, Function.comp_apply] at hx hy
      obtain ⟨y, -, rfl⟩ := hx
      obtain ⟨z, -, hz⟩ := hy
      exact hij (congrArg Prod.fst hz).symm

/-- a sum over all indices when one summand changes -/
theorem sum_finRange_update (g g' : Fin n → ℕ) (i : Fin n) (h : ∀ j, j ≠ i → g' j = g j) :
    ((List.finRange n).map g').sum + g i = ((List.finRange n).map g).sum + g' i := by
  have hrest : ∑ j ∈ univ.erase i, g' j = ∑ j ∈ univ.erase i, g j :=
    sum_congr rfl fun j hj => h j (ne_of_mem_erase hj)
  have h1 := add_sum_erase univ g (mem_univ i)
  have h2 := add_sum_erase univ g' (mem_univ i)
  rw [← Fin.sum_univ_def, ← Fin.sum_univ_def]
  omega

/-- **Counting across a write.** Replacing one leaf changes the number of leaves with a property by that leaf alone. -/
theorem countP_leaves_write : {ws : List ℕ} → (s : Slot F α ws) → (p : Path ws) → (x : Option α) →
    (P : Path ws × α → Bool) → hasPath s p = true →
    (leaves (write s p x)).countP P + ((lookup s p).any fun a => P (p, a)).toNat =
      (leaves s).countP P + (x.any fun a => P (p, a)).toNat
  | [], s, (), x, P, _ => by
    rcases s with _ | a <;> rcases x with _ | b <;>
      simp [leaves, write, lookup, countP_cons, Bool.toNat, Bool.cond_eq_ite, Nat.add_comm]
  | _ :: _, none, _, _, _, h => by simp [hasPath] at h
  | w :: ws, some t, (i, p), x, P, h => by
    have ih := countP_leaves_write (t.entries i) p x (fun y => P ((i, y.1), y.2)) h
    simp only [leaves, write, lookup, countP_flatMap, countP_map, Function.comp_def]
    have hsum := sum_finRange_update
      (fun j => (leaves (t.entries j)).countP fun y => P ((j, y.1), y.2))
      (fun j => (leaves (update t.entries i (write (t.entries i) p x) j)).countP fun y => P ((j, y.1), y.2)) i
      fun j hj => by rw [update_of_ne hj]
    rw [update_self] at hsum
    simp only at ih
    omega

/-! ## Labels -/

/-- the labels of the nodes, children before their parent -/
def labels : {ws : List ℕ} → Slot F α ws → List F
  | [], _ => []
  | _ :: _, none => []
  | w :: _, some t => ((List.finRange w).flatMap fun i => labels (t.entries i)) ++ [t.label]

@[simp] theorem labels_none : {ws : List ℕ} → labels (none : Slot F α ws) = []
  | [] => rfl
  | _ :: _ => rfl

theorem labels_write : {ws : List ℕ} → (s : Slot F α ws) → (p : Path ws) → (x : Option α) →
    labels (write s p x) = labels s
  | [], _, _, _ => rfl
  | _ :: _, none, _, _ => rfl
  | _ :: _, some t, (i, p), x => by
    simp only [labels, write]
    congr 2
    funext j
    by_cases hj : j = i
    · subst hj; rw [update_self, labels_write]
    · rw [update_of_ne hj]

/-- a run of allocations: start state, labels in order, end state -/
inductive Allocs (alloc : σ → Option (F × σ)) : σ → List F → σ → Prop
  | nil (st : σ) : Allocs alloc st [] st
  | cons {st st1 st2 : σ} {f : F} {fs : List F} (h : alloc st = some (f, st1)) (hs : Allocs alloc st1 fs st2) :
      Allocs alloc st (f :: fs) st2

/-- the labels of the children when one child changes -/
theorem perm_flatMap_update {β : Type} (g g' : Fin n → List β) (i : Fin n) (fs : List β) (h : ∀ j, j ≠ i → g' j = g j)
    (hi : (g' i).Perm (fs ++ g i)) : ((List.finRange n).flatMap g').Perm (fs ++ (List.finRange n).flatMap g) := by
  classical
  rw [perm_iff_count]
  intro b
  have hb := (perm_iff_count.1 hi) b
  have hsum := sum_finRange_update (fun j => (g j).count b) (fun j => (g' j).count b) i fun j hj => by rw [h j hj]
  rw [count_append] at hb ⊢
  rw [count_flatMap, count_flatMap]
  simp only [Function.comp_def] at hsum ⊢
  omega

/-- **The labels after `ensure`** are the old ones and the ones it allocated -/
theorem ensure_allocs : {ws : List ℕ} → {s : Slot F α ws} → {p : Path ws} → {st : σ} →
    {r : Slot F α ws × σ} → ensure alloc s p st = some r →
    ∃ fs, Allocs alloc st fs r.2 ∧ (labels r.1).Perm (fs ++ labels s)
  | [], _, _, st, _, h => by
    cases h
    exact ⟨[], .nil st, List.Perm.refl _⟩
  | _ :: _, none, (i, p), st, r, h => by
    obtain ⟨f, st1, c, st2, hf, hc, rfl⟩ := ensure_none h
    obtain ⟨fs, hfs, hp⟩ := ensure_allocs hc
    refine ⟨f :: fs, .cons hf hfs, ?_⟩
    rw [labels_none, append_nil] at hp ⊢
    have hflat := perm_flatMap_update (fun _ => []) (fun j => labels (update (fun _ => none) i c j)) i fs
      (fun j hj => by rw [update_of_ne hj, labels_none]) (by simpa using hp)
    rw [flatMap_eq_nil_iff.2 (fun _ _ => rfl), append_nil] at hflat
    exact (perm_append_singleton _ _).trans (hflat.cons f)
  | _ :: _, some t, (i, p), st, r, h => by
    obtain ⟨c, st1, hc, rfl⟩ := ensure_some h
    obtain ⟨fs, hfs, hp⟩ := ensure_allocs hc
    refine ⟨fs, hfs, ?_⟩
    simp only [labels]
    rw [← append_assoc]
    refine Perm.append_right _ (perm_flatMap_update _ _ i fs (fun j hj => ?_) ?_)
    · rw [update_of_ne hj]
    · rw [update_self]; exact hp

theorem leaves_ensure_perm {s : Slot F α ws} {r : Slot F α ws × σ} (h : ensure alloc s p st = some r) :
    (leaves r.1).Perm (leaves s) := by
  refine (perm_ext_iff_of_nodup ?_ ?_).2 ?_
  · exact (nodup_leaves _).of_map _
  · exact (nodup_leaves _).of_map _
  · rintro ⟨q, a⟩
    rw [mem_leaves, mem_leaves, lookup_ensure h]

/-! ## The post-order walk -/

/-- consume every leaf, and every node's label after its children -/
def fold (leaf : σ → α → σ) (node : σ → F → σ) : {ws : List ℕ} → Slot F α ws → σ → σ
  | [], none, st => st
  | [], some a, st => leaf st a
  | _ :: _, none, st => st
  | w :: _, some t, st => node ((List.finRange w).foldl (fun st i => fold leaf node (t.entries i) st) st) t.label

/-- the order of the walk -/
def postorder : {ws : List ℕ} → Slot F α ws → List (α ⊕ F)
  | [], none => []
  | [], some a => [.inl a]
  | _ :: _, none => []
  | w :: _, some t => ((List.finRange w).flatMap fun i => postorder (t.entries i)) ++ [.inr t.label]

theorem fold_eq_foldl (leaf : σ → α → σ) (node : σ → F → σ) : {ws : List ℕ} → (s : Slot F α ws) → (st : σ) →
    fold leaf node s st = (postorder s).foldl (fun st x => x.elim (leaf st) (node st)) st
  | [], none, _ => rfl
  | [], some _, _ => rfl
  | _ :: _, none, _ => rfl
  | _ :: _, some t, st => by
    simp only [fold, postorder, foldl_append, foldl_cons, foldl_nil, Sum.elim_inr]
    congr 1
    rw [foldl_flatMap]
    congr 1
    funext st' i
    exact fold_eq_foldl leaf node (t.entries i) st'

theorem leaves_postorder : {ws : List ℕ} → (s : Slot F α ws) →
    (postorder s).filterMap Sum.getLeft? = (leaves s).map Prod.snd
  | [], none => rfl
  | [], some _ => rfl
  | _ :: _, none => rfl
  | _ :: _, some t => by
    simp only [postorder, leaves, filterMap_append, filterMap_flatMap, map_flatMap, List.map_map]
    have hl : List.filterMap Sum.getLeft? [(Sum.inr t.label : α ⊕ F)] = [] := rfl
    rw [hl, append_nil]
    congr 1
    funext i
    rw [leaves_postorder]
    rfl

theorem labels_postorder : {ws : List ℕ} → (s : Slot F α ws) →
    (postorder s).filterMap Sum.getRight? = labels s
  | [], none => rfl
  | [], some _ => rfl
  | _ :: _, none => rfl
  | _ :: _, some t => by
    simp only [postorder, labels, filterMap_append, filterMap_flatMap]
    congr 2
    funext i
    exact labels_postorder _

end Slot

end Rumicos.Lib
