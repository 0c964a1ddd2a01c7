/-
The run queue of a CPU (`crates/sched/src/queue.rs`) and the threads in it (`thread.rs`).

- `RingQueue`: 256 slots, of which one stays empty, so a push into a ring of 255 threads fails.
- `MlfqQueue`: one ring for each of eight levels; `pop` takes the first thread of the lowest level that has one.
- `stealInto`: threads move to another queue one at a time, at the level of their priority; the first that does not fit
  is pushed back.
- `boostAll`: all threads move to level 0 as long as it has room. The first of a level that does not fit gets priority 0
  as well and goes to the end of its own level.

Threads are numbers. What the operations do to the threads is stated by counting: `MlfqQueue.count q t` is how often `t` is
queued.
-/
import Rumicos.Lib.Bags

namespace Rumicos.Sched

open Lib Function List Option Finset

/-! ## Threads -/

inductive ThreadState where
  | runnable
  | running
  | blocked
  | dead
deriving DecidableEq

/-- what the scheduler keeps of a thread -/
structure Thread where
  state : ThreadState
  priority : ℕ
  ticksUsed : ℕ
deriving DecidableEq

abbrev Threads := ℕ → Thread

def Threads.setState (ts : Threads) (t : ℕ) (st : ThreadState) : Threads :=
  update ts t { ts t with state := st }

abbrev mlfqLevels : ℕ := 8
def queueDepth : ℕ := 256
def boostInterval : ℕ := 1000

def timeslice (level : ℕ) : ℕ := 2 ^ level

/-- `charge_tick`: the thread after the tick, and has its time slice expired? -/
def chargeTick (p : Thread) : Thread × Bool :=
  let ticks := min (p.ticksUsed + 1) (2 ^ 32 - 1)
  if ticks < timeslice p.priority then ({ p with ticksUsed := ticks }, false)
  else ({ p with ticksUsed := 0, priority := if p.priority < mlfqLevels - 1 then p.priority + 1 else p.priority }, true)

theorem state_chargeTick (p : Thread) : (chargeTick p).1.state = p.state := by
  unfold chargeTick
  by_cases h : min (p.ticksUsed + 1) (2 ^ 32 - 1) < timeslice p.priority
  · rw [if_pos h]
  · rw [if_neg h]

/-! ## Rings and levels -/

abbrev RingQueue := List ℕ

def RingQueue.push (r : RingQueue) (t : ℕ) : Option RingQueue :=
  if r.length + 1 < queueDepth then some (r ++ [t]) else none

abbrev Level := Fin mlfqLevels

/-- `level.min(MLFQ_LEVELS - 1)` -/
def Level.of (level : ℕ) : Level := ⟨min level (mlfqLevels - 1), Nat.lt_succ_of_le (Nat.min_le_right _ _)⟩

abbrev MlfqQueue := Level → RingQueue

def MlfqQueue.new : MlfqQueue := fun _ => []

def MlfqQueue.push (q : MlfqQueue) (t level : ℕ) : Option MlfqQueue :=
  ((q (Level.of level)).push t).map fun r => update q (Level.of level) r

/-- the first thread of level `l` -/
def MlfqQueue.popLevel (q : MlfqQueue) (l : Level) : Option (ℕ × MlfqQueue) :=
  match q l with
  | [] => none
  | t :: r => some (t, update q l r)

def MlfqQueue.pop (q : MlfqQueue) : Option (ℕ × MlfqQueue) := (List.finRange mlfqLevels).findSome? q.popLevel

/-- the counter `total` -/
def MlfqQueue.len (q : MlfqQueue) : ℕ := ∑ l, (q l).length

/-- `steal_into`: how many threads were moved, the source and the destination -/
def MlfqQueue.stealInto (priority : ℕ → ℕ) : ℕ → MlfqQueue → MlfqQueue → ℕ × MlfqQueue × MlfqQueue
  | 0, src, dst => (0, src, dst)
  | n + 1, src, dst =>
    match src.pop with
    | none => (0, src, dst)
    | some (t, src') =>
      match dst.push t (priority t) with
      | none => (0, (src'.push t (priority t)).getD src', dst)
      | some dst' =>
        let r := stealInto priority n src' dst'
        (r.1 + 1, r.2)

/-- one level of `boost_all`: what stays there, level 0 and the threads -/
def boostLevel : RingQueue → RingQueue → Threads → RingQueue × RingQueue × Threads
  | [], top, ts => ([], top, ts)
  | t :: r, top, ts =>
    let ts := update ts t { ts t with priority := 0, ticksUsed := 0 }
    match top.push t with
    | some top => boostLevel r top ts
    | none => (r ++ [t], top, ts)

def MlfqQueue.boostStep (x : MlfqQueue × Threads) (l : Level) : MlfqQueue × Threads :=
  let r := boostLevel (x.1 l) (x.1 0) x.2
  (update (update x.1 l r.1) 0 r.2.1, r.2.2)

def MlfqQueue.boostAll (q : MlfqQueue) (ts : Threads) : MlfqQueue × Threads :=
  ((List.finRange mlfqLevels).tail).foldl boostStep (q, ts)

/-! ## Counting -/

/-- how often `t` is queued -/
def MlfqQueue.count (q : MlfqQueue) (t : ℕ) : ℕ := ∑ l, (q l).count t

@[simp] theorem count_new (t : ℕ) : MlfqQueue.new.count t = 0 := by simp [MlfqQueue.count, MlfqQueue.new]

/-- one, if the threads are the same -/
def same (t u : ℕ) : ℕ := if t = u then 1 else 0

theorem count_cons_same (t u : ℕ) (r : List ℕ) : (u :: r).count t = r.count t + same t u := by
  by_cases h : t = u
  · simp [same, h]
  · simp [same, h, Ne.symm h]

theorem count_updateLevel (q : MlfqQueue) (l : Level) (r : RingQueue) (t : ℕ) :
    MlfqQueue.count (update q l r) t + (q l).count t = q.count t + r.count t :=
  sum_update q (fun r => r.count t) l r

variable {q q' : MlfqQueue} {u : ℕ} {F : Finset ℕ} {f g : ℕ → ℕ}

theorem count_push {level : ℕ} (h : q.push u level = some q') (t : ℕ) : q'.count t = q.count t + same t u := by
  unfold MlfqQueue.push RingQueue.push at h
  split at h
  · simp only [map_some, some.injEq] at h
    subst h
    have hcount := count_updateLevel q (Level.of level) (q (Level.of level) ++ [u]) t
    rw [count_append, count_cons_same, count_nil] at hcount
    omega
  · cases h

theorem count_popLevel {l : Level} (h : q.popLevel l = some (u, q')) (t : ℕ) : q.count t = q'.count t + same t u := by
  unfold MlfqQueue.popLevel at h
  split at h
  · cases h
  · rename_i v r hl
    cases h
    have hcount := count_updateLevel q l r t
    rw [hl, count_cons_same] at hcount
    omega

theorem count_pop (h : q.pop = some (u, q')) (t : ℕ) : q.count t = q'.count t + same t u := by
  obtain ⟨l, -, hl⟩ := exists_of_findSome?_eq_some h
  exact count_popLevel hl t

theorem count_boostLevel (r top : RingQueue) (ts : Threads) (t : ℕ) :
    (boostLevel r top ts).1.count t + (boostLevel r top ts).2.1.count t = r.count t + top.count t := by
  induction r generalizing top ts with
  | nil => rfl
  | cons u r ih =>
    unfold boostLevel RingQueue.push
    by_cases hroom : top.length + 1 < queueDepth
    · simp only [hroom, if_true]
      rw [ih, count_append, count_cons_same, count_cons_same, count_nil]
      omega
    · simp only [hroom, if_false]
      rw [count_append, count_cons_same, count_cons_same, count_nil]
      omega

theorem count_boostStep (x : MlfqQueue × Threads) {l : Level} (hl : l ≠ 0) (t : ℕ) :
    (MlfqQueue.boostStep x l).1.count t = x.1.count t := by
  have hlevel := count_boostLevel (x.1 l) (x.1 0) x.2 t
  have h1 := count_updateLevel x.1 l (boostLevel (x.1 l) (x.1 0) x.2).1 t
  have h2 := count_updateLevel (update x.1 l (boostLevel (x.1 l) (x.1 0) x.2).1) 0
    (boostLevel (x.1 l) (x.1 0) x.2).2.1 t
  rw [update_of_ne hl.symm] at h2
  change MlfqQueue.count (update (update x.1 l _) 0 _) t = _
  omega

theorem count_boostAll (q : MlfqQueue) (ts : Threads) (t : ℕ) : (q.boostAll ts).1.count t = q.count t := by
  have hne : ∀ l ∈ (List.finRange mlfqLevels).tail, l ≠ 0 := by decide
  unfold MlfqQueue.boostAll
  generalize (List.finRange mlfqLevels).tail = ls at hne
  suffices h : ∀ x : MlfqQueue × Threads, (ls.foldl MlfqQueue.boostStep x).1.count t = x.1.count t from h (q, ts)
  induction ls with
  | nil => intro x; rfl
  | cons l ls ih =>
    intro x
    rw [foldl_cons, ih fun m hm => hne m (mem_cons_of_mem _ hm)]
    exact count_boostStep x (hne l mem_cons_self) t

theorem state_boostLevel (r top : RingQueue) (ts : Threads) (t : ℕ) :
    ((boostLevel r top ts).2.2 t).state = (ts t).state := by
  induction r generalizing top ts with
  | nil => rfl
  | cons u r ih =>
    have hset : (update ts u { ts u with priority := 0, ticksUsed := 0 } t).state = (ts t).state := by
      by_cases h : t = u
      · rw [h, update_self]
      · rw [update_of_ne h]
    unfold boostLevel
    cases top.push u with
    | some top => exact (ih _ _).trans hset
    | none => exact hset

theorem state_boostAll (q : MlfqQueue) (ts : Threads) (t : ℕ) : ((q.boostAll ts).2 t).state = (ts t).state := by
  unfold MlfqQueue.boostAll
  generalize (List.finRange mlfqLevels).tail = ls
  suffices h : ∀ x : MlfqQueue × Threads, ((ls.foldl MlfqQueue.boostStep x).2 t).state = (x.2 t).state from h (q, ts)
  induction ls with
  | nil => intro x; rfl
  | cons l ls ih =>
    intro x
    rw [foldl_cons, ih]
    exact state_boostLevel _ _ _ t

/-! ## Where nothing is lost -/

/-- every thread is counted at most once, and only those in `F` -/
def Within (F : Finset ℕ) (count : ℕ → ℕ) : Prop := ∀ t, count t ≤ if t ∈ F then 1 else 0

theorem Within.mono (h : Within F f) (hle : ∀ t, g t ≤ f t) : Within F g := fun t =>
  (hle t).trans (h t)

theorem Within.mem (h : Within F f) {t : ℕ} (ht : 0 < f t) : t ∈ F := by
  have h1 := h t
  by_contra hF
  rw [if_neg hF] at h1
  omega

theorem Within.le_one (h : Within F f) (t : ℕ) : f t ≤ 1 := by
  have h1 := h t
  split_ifs at h1 <;> omega

/-- nothing is duplicated from `g` to `f`, and nothing is lost if `g` counts only threads of `F`, each at most once -/
structure Tight (F : Finset ℕ) (f g : ℕ → ℕ) : Prop where
  le : ∀ t, f t ≤ g t
  eq : Within F g → ∀ t, f t = g t

theorem Tight.of_eq (h : ∀ t, f t = g t) : Tight F f g := ⟨fun t => (h t).le, fun _ => h⟩

theorem Tight.trans {h : ℕ → ℕ} (h1 : Tight F f g) (h2 : Tight F g h) : Tight F f h :=
  ⟨fun t => (h1.le t).trans (h2.le t), fun hw t => (h1.eq (hw.mono h2.le) t).trans (h2.eq hw t)⟩

theorem Tight.add (h1 : Tight F f g) (k : ℕ → ℕ) : Tight F (fun t => f t + k t) fun t => g t + k t := by
  refine ⟨fun t => Nat.add_le_add_right (h1.le t) _, fun hw t => ?_⟩
  rw [h1.eq (hw.mono fun t => Nat.le_add_right _ _) t]

section Room

variable (hF : F.card + 1 ≤ queueDepth)
include hF

/-- a ring that holds some of 255 threads, each at most once, has room for another of them -/
theorem exists_push (hq : Within F q.count) {t : ℕ} (ht : t ∈ F) (h0 : q.count t = 0) (level : ℕ) :
    ∃ q', q.push t level = some q' := by
  have hring : ∀ u, (q (Level.of level)).count u ≤ q.count u := fun u =>
    single_le_sum (f := fun l => (q l).count u) (fun _ _ => Nat.zero_le _) (mem_univ _)
  have hnodup : (q (Level.of level)).Nodup := by
    rw [nodup_iff_count_le_one]
    intro u
    exact (hring u).trans (hq.le_one u)
  have hsub : (q (Level.of level)).toFinset ⊆ F.erase t := by
    intro u hu
    have hpos : 0 < (q (Level.of level)).count u := count_pos_iff.2 (mem_toFinset.1 hu)
    rw [mem_erase]
    refine ⟨?_, hq.mem (hpos.trans_le (hring u))⟩
    intro hut
    have := hring u
    rw [hut] at this hpos
    omega
  have hcard := card_le_card hsub
  rw [toFinset_card_of_nodup hnodup, card_erase_of_mem ht] at hcard
  have hpos := card_pos.2 ⟨t, ht⟩
  have hroom : (q (Level.of level)).length + 1 < queueDepth := by omega
  exact ⟨_, by rw [MlfqQueue.push, RingQueue.push, if_pos hroom, map_some]⟩

theorem tight_push (q : MlfqQueue) (u level : ℕ) :
    Tight F ((q.push u level).getD q).count fun t => q.count t + same t u := by
  cases hpush : q.push u level with
  | some q' => exact .of_eq (count_push hpush)
  | none =>
    refine ⟨fun t => Nat.le_add_right _ _, fun hw => ?_⟩
    have hu := hw.le_one u
    rw [same, if_pos rfl] at hu
    have hmem : u ∈ F := hw.mem (t := u) (by rw [same, if_pos rfl]; omega)
    obtain ⟨q', hq'⟩ := exists_push hF (hw.mono fun t => Nat.le_add_right _ _) hmem (by omega) level
    rw [hpush] at hq'
    cases hq'

theorem tight_stealInto (priority : ℕ → ℕ) (n : ℕ) (src dst : MlfqQueue) :
    Tight F (fun t => (MlfqQueue.stealInto priority n src dst).2.1.count t +
      (MlfqQueue.stealInto priority n src dst).2.2.count t) fun t => src.count t + dst.count t := by
  induction n generalizing src dst with
  | zero => exact .of_eq fun t => rfl
  | succ n ih =>
    unfold MlfqQueue.stealInto
    cases hpop : src.pop with
    | none => exact .of_eq fun t => rfl
    | some x =>
      obtain ⟨u, src'⟩ := x
      have hsrc := count_pop hpop
      simp only
      cases hpush : dst.push u (priority u) with
      | none =>
        have hback := (tight_push hF src' u (priority u)).add dst.count
        exact hback.trans (.of_eq fun t => by rw [hsrc t])
      | some dst' =>
        exact (ih src' dst').trans (.of_eq fun t => by rw [hsrc t, count_push hpush t]; omega)

end Room

end Rumicos.Sched
