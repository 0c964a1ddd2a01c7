/-
`schedule` and `schedule_yield` up to the release of the scheduler lock (`crates/sched/src/lib.rs`, `steal.rs`,
`percpu.rs`).

Both decide under the lock of their CPU which thread comes next, and try the locks of the CPUs they steal from; whether
such a lock is free is an input (`free`). `init` gives every CPU an idle thread as its current one, so `current` is
never null.

- `leave`: what becomes of the current thread. It goes on if its time slice has not expired, is pushed if it is Running or
  Runnable (the result of the push is ignored), and is left alone if it is Blocked or Dead.
- `pickNext`: the own queue, then the queues of the others, then the idle thread.
- `schedule`, `scheduleYield`: the state at the release of the lock, and the switch that has to follow.

- `schedule_chosen`, `scheduleYield_chosen`: no thread is duplicated, and with at most 255 threads none is lost either.
-/
import Rumicos.Sched.Queue

namespace Rumicos.Sched

open Lib Function List Option Finset

/-! ## The CPUs -/

structure SchedCpu where
  current : ℕ
  idle : ℕ
  runQueue : MlfqQueue
  tickCount : ℕ
  stealCursor : ℕ

def SchedCpu.setCurrent (x : SchedCpu) (t : ℕ) : SchedCpu := { x with current := t }
def SchedCpu.setQueue (x : SchedCpu) (q : MlfqQueue) : SchedCpu := { x with runQueue := q }
def SchedCpu.setTicks (x : SchedCpu) (ticks : ℕ) : SchedCpu := { x with tickCount := ticks }
def SchedCpu.setCursor (x : SchedCpu) (victim : ℕ) : SchedCpu := { x with stealCursor := victim }

structure Machine (n : ℕ) where
  cpus : Fin n → SchedCpu
  threads : Threads

variable {n : ℕ}

/-- the idle threads are the first `n` -/
def Machine.new (n : ℕ) : Machine n where
  cpus c := ⟨c, c, MlfqQueue.new, 0, (c + 1) % 64⟩
  threads t := ⟨if t < n then .running else .runnable, if t < n then mlfqLevels - 1 else 0, 0⟩

def Machine.setCpu (s : Machine n) (c : Fin n) (x : SchedCpu) : Machine n := { s with cpus := update s.cpus c x }

def Machine.setThreads (s : Machine n) (ts : Threads) : Machine n := { s with threads := ts }

def Machine.setThread (s : Machine n) (t : ℕ) (x : Thread) : Machine n := s.setThreads (update s.threads t x)

def Machine.setQueue (s : Machine n) (c : Fin n) (q : MlfqQueue) : Machine n := s.setCpu c ((s.cpus c).setQueue q)

def Machine.queue (s : Machine n) (c : Fin n) : MlfqQueue := (s.cpus c).runQueue

/-- `run_queue.push` at the level of the thread's priority, its result ignored -/
def Machine.push (s : Machine n) (c : Fin n) (t : ℕ) : Machine n :=
  s.setQueue c (((s.queue c).push t (s.threads t).priority).getD (s.queue c))

/-! ## Stealing -/

def maxStealBatch : ℕ := 8

/-- the CPU that `steal_cursor` points to -/
def Machine.victim (s : Machine n) (c : Fin n) : Fin n := ⟨(s.cpus c).stealCursor % n, Nat.mod_lt _ c.pos⟩

def Machine.moveCursor (s : Machine n) (c : Fin n) : Machine n :=
  s.setCpu c ((s.cpus c).setCursor ((s.victim c + 1) % n))

/-- a batch moves from the queue of `victim` to that of `c`; its size, and the CPUs afterwards -/
def Machine.stealBatch (s : Machine n) (c victim : Fin n) : ℕ × Machine n :=
  let batch := min (max ((s.queue victim).len / 2) 1) maxStealBatch
  let r := MlfqQueue.stealInto (fun t => (s.threads t).priority) batch (s.queue victim) (s.queue c)
  (r.1, (s.setQueue victim r.2.1).setQueue c r.2.2)

/-- the own queue's next thread -/
def Machine.popOwn (s : Machine n) (c : Fin n) : Machine n × Option ℕ :=
  match (s.queue c).pop with
  | some (t, q) => (s.setQueue c q, some t)
  | none => (s, none)

/-- the loop of `try_steal`, with the scans and attempts that are left -/
def Machine.stealLoop (c : Fin n) (free : Fin n → Bool) : ℕ → ℕ → Machine n → Machine n × Option ℕ
  | 0, _, s => (s, none)
  | _ + 1, 0, s => (s, none)
  | scans + 1, attempts + 1, s =>
    if s.victim c = c then stealLoop c free scans (attempts + 1) (s.moveCursor c)
    else if free (s.victim c) = false ∨ (s.queue (s.victim c)).len < 1 then stealLoop c free scans attempts
      (s.moveCursor c)
    else
      let r := (s.moveCursor c).stealBatch c (s.victim c)
      if r.1 = 0 then stealLoop c free scans attempts r.2 else r.2.popOwn c

def Machine.trySteal (s : Machine n) (c : Fin n) (free : Fin n → Bool) : Machine n × Option ℕ :=
  stealLoop c free n (n - 1) s

/-! ## The decision -/

/-- the next thread of CPU `c`, if there is one -/
def Machine.takeNext (s : Machine n) (c : Fin n) (free : Fin n → Bool) : Machine n × Option ℕ :=
  match s.popOwn c with
  | (s', some t) => (s', some t)
  | (_, none) => s.trySteal c free

/-- the next thread of CPU `c`, or its idle thread -/
def Machine.pickNext (s : Machine n) (c : Fin n) (free : Fin n → Bool) : Machine n × ℕ :=
  ((s.takeNext c free).1, (s.takeNext c free).2.getD (s.cpus c).idle)

/-- `next` becomes current, unless it already is; the switch that has to follow -/
def Machine.install (s : Machine n) (c : Fin n) (cur next : ℕ) : Machine n × Option (ℕ × ℕ) :=
  if next = cur then (s.setThreads (s.threads.setState next .running), none)
  else ((s.setThreads (s.threads.setState next .running)).setCpu c ((s.cpus c).setCurrent next), some (cur, next))

/-- the tick counter, and a boost at every thousandth tick -/
def Machine.tick (s : Machine n) (c : Fin n) : Machine n :=
  let ticks := ((s.cpus c).tickCount + 1) % 2 ^ 64
  let s := s.setCpu c ((s.cpus c).setTicks ticks)
  if ticks % boostInterval = 0 then
    let r := (s.queue c).boostAll s.threads
    (s.setQueue c r.1).setThreads r.2
  else s

/-- the current thread, which is not the idle one, gives the CPU up, or goes on if its time slice has not expired -/
def Machine.leave (s : Machine n) (c : Fin n) (cur : ℕ) : Machine n × Bool :=
  match (s.threads cur).state with
  | .running =>
    let r := chargeTick (s.threads cur)
    if r.2 then ((s.setThread cur { r.1 with state := .runnable }).push c cur, true) else (s.setThread cur r.1, false)
  | .runnable => (s.push c cur, true)
  | .blocked | .dead => (s.setThread cur { s.threads cur with ticksUsed := 0 }, true)

/-- `schedule` under the lock -/
def Machine.schedule (s : Machine n) (c : Fin n) (free : Fin n → Bool) : Machine n × Option (ℕ × ℕ) :=
  let s := s.tick c
  let cur := (s.cpus c).current
  let r := if cur = (s.cpus c).idle then (s, true) else s.leave c cur
  if r.2 then
    let p := r.1.pickNext c free
    p.1.install c cur p.2
  else (r.1, none)

/-- `schedule_yield` under the lock, for a thread that is not the idle one -/
def Machine.scheduleYield (s : Machine n) (c : Fin n) (free : Fin n → Bool) : Machine n × Option (ℕ × ℕ) :=
  let cur := (s.cpus c).current
  let s := s.setThread cur { s.threads cur with state := .runnable, ticksUsed := 0 }
  let p := (s.push c cur).pickNext c free
  p.1.install c cur p.2

/-! ## What is queued -/

/-- how often `t` is queued on all CPUs -/
def Machine.queued (s : Machine n) (t : ℕ) : ℕ := ∑ c, (s.queue c).count t

/-- the threads that are queued -/
def Machine.queuedThreads (s : Machine n) : List ℕ :=
  (List.finRange n).flatMap fun c => (List.finRange mlfqLevels).flatMap (s.queue c)

variable {s s1 : Machine n} {t u priority : ℕ} {c d : Fin n} {F : Finset ℕ} {q : MlfqQueue}

theorem mem_queuedThreads (h : 0 < s.queued t) : t ∈ s.queuedThreads := by
  by_contra hnot
  apply h.ne'
  refine Finset.sum_eq_zero fun c _ => Finset.sum_eq_zero fun l _ => ?_
  rw [count_eq_zero]
  intro ht
  apply hnot
  exact mem_flatMap.2 ⟨c, mem_finRange c, mem_flatMap.2 ⟨l, mem_finRange l, ht⟩⟩

@[simp] theorem cpus_setCpu_self (s : Machine n) (c : Fin n) (x : SchedCpu) : (s.setCpu c x).cpus c = x :=
  update_self ..

theorem cpus_setCpu_ne (s : Machine n) (x : SchedCpu) (hd : d ≠ c) : (s.setCpu c x).cpus d = s.cpus d :=
  update_of_ne hd ..

theorem queued_setCpu (s : Machine n) (c : Fin n) (x : SchedCpu) (t : ℕ) :
    (s.setCpu c x).queued t + (s.queue c).count t = s.queued t + x.runQueue.count t :=
  sum_update s.cpus (fun x => x.runQueue.count t) c x

@[simp] theorem queued_setThreads (s : Machine n) (ts : Threads) (t : ℕ) : (s.setThreads ts).queued t = s.queued t := rfl

theorem queued_setCpu_same (s : Machine n) (c : Fin n) (x : SchedCpu) (hx : x.runQueue = s.queue c) (t : ℕ) :
    (s.setCpu c x).queued t = s.queued t := by
  have h := queued_setCpu s c x t
  rw [hx] at h
  omega

theorem queued_setQueue (s : Machine n) (c : Fin n) (q : MlfqQueue) (t : ℕ) :
    (s.setQueue c q).queued t + (s.queue c).count t = s.queued t + q.count t :=
  queued_setCpu s c _ t

/-- the same current and idle threads -/
structure SameCpus (s s' : Machine n) : Prop where
  current : ∀ d, (s'.cpus d).current = (s.cpus d).current
  idle : ∀ d, (s'.cpus d).idle = (s.cpus d).idle

theorem SameCpus.refl (s : Machine n) : SameCpus s s := ⟨fun _ => rfl, fun _ => rfl⟩

theorem SameCpus.trans {s2 : Machine n} (h1 : SameCpus s s1) (h2 : SameCpus s1 s2) : SameCpus s s2 :=
  ⟨fun d => (h2.current d).trans (h1.current d), fun d => (h2.idle d).trans (h1.idle d)⟩

theorem sameCpus_setCpu (s : Machine n) (c : Fin n) (x : SchedCpu) (hcur : x.current = (s.cpus c).current)
    (hidle : x.idle = (s.cpus c).idle) : SameCpus s (s.setCpu c x) := by
  constructor
  · intro d
    by_cases hd : d = c
    · rw [hd, cpus_setCpu_self, hcur]
    · rw [cpus_setCpu_ne s x hd]
  · intro d
    by_cases hd : d = c
    · rw [hd, cpus_setCpu_self, hidle]
    · rw [cpus_setCpu_ne s x hd]

theorem sameCpus_setThreads (s : Machine n) (ts : Threads) : SameCpus s (s.setThreads ts) := ⟨fun _ => rfl, fun _ => rfl⟩

theorem sameCpus_setQueue (s : Machine n) (c : Fin n) (q : MlfqQueue) : SameCpus s (s.setQueue c q) :=
  sameCpus_setCpu s c _ rfl rfl

/-- the thread that was taken from a queue -/
def taken (o : Option ℕ) (t : ℕ) : ℕ := o.elim 0 (same t)

section Room

variable (hF : F.card + 1 ≤ queueDepth)
include hF

theorem tight_machinePush (s : Machine n) (c : Fin n) (u : ℕ) :
    Tight F (s.push c u).queued fun t => s.queued t + same t u := by
  have hqueue := tight_push hF (s.queue c) u (s.threads u).priority
  have hsum := queued_setQueue s c (((s.queue c).push u (s.threads u).priority).getD (s.queue c))
  have hle : ∀ t, (s.queue c).count t ≤ s.queued t := fun t =>
    single_le_sum (f := fun d => (s.queue d).count t) (fun _ _ => Nat.zero_le _) (mem_univ _)
  refine ⟨fun t => ?_, fun hw t => ?_⟩
  · have h1 := hqueue.le t
    have h2 := hsum t
    rw [Machine.push]
    omega
  · have h1 := hqueue.eq (hw.mono fun t => Nat.add_le_add_right (hle t) _) t
    have h2 := hsum t
    rw [Machine.push]
    omega

/-- threads move from the queue of `victim` to that of `c` -/
theorem tight_stealBatch (s : Machine n) {victim : Fin n} (hne : victim ≠ c) :
    Tight F (s.stealBatch c victim).2.queued s.queued := by
  unfold Machine.stealBatch
  simp only
  generalize min (max ((s.queue victim).len / 2) 1) maxStealBatch = batch
  have hsteal := tight_stealInto hF (fun t => (s.threads t).priority) batch (s.queue victim) (s.queue c)
  generalize MlfqQueue.stealInto (fun t => (s.threads t).priority) batch (s.queue victim) (s.queue c) = r at hsteal ⊢
  have h1 := queued_setQueue s victim r.2.1
  have h2 := queued_setQueue (s.setQueue victim r.2.1) c r.2.2
  have hqueue : (s.setQueue victim r.2.1).queue c = s.queue c := by
    rw [Machine.queue, Machine.setQueue, cpus_setCpu_ne _ _ hne.symm]
    rfl
  have hle : ∀ t, (s.queue victim).count t + (s.queue c).count t ≤ s.queued t := by
    intro t
    have hpair : ∑ d ∈ {victim, c}, (s.queue d).count t ≤ s.queued t := sum_le_sum_of_subset (subset_univ _)
    rwa [sum_pair hne] at hpair
  refine ⟨fun t => ?_, fun hw t => ?_⟩
  · have h3 := hsteal.le t
    have h4 := h1 t
    have h5 := h2 t
    rw [hqueue] at h5
    omega
  · have h3 := hsteal.eq (hw.mono hle) t
    have h4 := h1 t
    have h5 := h2 t
    rw [hqueue] at h5
    omega

/-- what a search for a thread does: the threads are those there were, less the one it took -/
structure Found (F : Finset ℕ) (s : Machine n) (r : Machine n × Option ℕ) : Prop where
  tight : Tight F (fun t => r.1.queued t + taken r.2 t) s.queued
  cpus : SameCpus s r.1
  threads : r.1.threads = s.threads

omit hF in
theorem found_none (s : Machine n) : Found F s (s, none) := ⟨.of_eq fun _ => rfl, .refl s, rfl⟩

omit hF in
theorem Found.after {r : Machine n × Option ℕ} (h : Found F s1 r) (hq : Tight F s1.queued s.queued)
    (hc : SameCpus s s1) (ht : s1.threads = s.threads) : Found F s r :=
  ⟨h.tight.trans hq, hc.trans h.cpus, h.threads.trans ht⟩

omit hF in
theorem found_popOwn (s : Machine n) (c : Fin n) : Found F s (s.popOwn c) := by
  unfold Machine.popOwn
  split
  · rename_i u q hpop
    refine ⟨.of_eq fun t => ?_, sameCpus_setQueue .., rfl⟩
    have h1 := queued_setQueue s c q t
    have h2 := count_pop hpop t
    change (s.setQueue c q).queued t + same t u = s.queued t
    omega
  · exact found_none s

theorem found_stealLoop (c : Fin n) (free : Fin n → Bool) (scans attempts : ℕ) (s : Machine n) :
    Found F s (Machine.stealLoop c free scans attempts s) := by
  induction scans generalizing attempts s with
  | zero => exact found_none s
  | succ scans ih =>
    cases attempts with
    | zero => exact found_none s
    | succ attempts =>
      have hcursor : ∀ t, (s.moveCursor c).queued t = s.queued t := queued_setCpu_same s c _ rfl
      have hcpus : SameCpus s (s.moveCursor c) := sameCpus_setCpu s c _ rfl rfl
      have hbatch : SameCpus (s.moveCursor c) ((s.moveCursor c).stealBatch c (s.victim c)).2 :=
        (sameCpus_setQueue ..).trans (sameCpus_setQueue ..)
      unfold Machine.stealLoop
      simp only
      split_ifs with hself hbusy hnone
      · exact (ih _ _).after (.of_eq hcursor) hcpus rfl
      · exact (ih _ _).after (.of_eq hcursor) hcpus rfl
      · exact (ih _ _).after ((tight_stealBatch hF _ hself).trans (.of_eq hcursor)) (hcpus.trans hbatch) rfl
      · exact (found_popOwn _ c).after ((tight_stealBatch hF _ hself).trans (.of_eq hcursor)) (hcpus.trans hbatch) rfl

theorem found_takeNext (s : Machine n) (c : Fin n) (free : Fin n → Bool) : Found F s (s.takeNext c free) := by
  unfold Machine.takeNext
  split
  · rename_i s' u hpop
    have h := found_popOwn (F := F) s c
    rwa [hpop] at h
  · exact found_stealLoop hF c free n (n - 1) s

end Room

/-! ## What the decision does -/

/-- is a current thread in this state pushed? -/
def ThreadState.pushed : ThreadState → Bool
  | .running | .runnable => true
  | .blocked | .dead => false

/-- is the current thread pushed when it gives the CPU up? -/
def Machine.goesBack (s : Machine n) (c : Fin n) : Bool :=
  decide ((s.cpus c).current ≠ (s.cpus c).idle) && (s.threads (s.cpus c).current).state.pushed

/-- what `back` adds to the queues -/
def returned (back : Bool) (cur t : ℕ) : ℕ := if back then same t cur else 0

/-- CPU `c` decided for the thread `o`, or for its idle thread; `back` if the current thread was pushed -/
structure Chosen (F : Finset ℕ) (s : Machine n) (c : Fin n) (back : Bool) (o : Option ℕ) (r : Machine n × Option (ℕ × ℕ)) :
    Prop where
  queued : Tight F (fun t => r.1.queued t + taken o t) fun t => s.queued t + returned back (s.cpus c).current t
  current : (r.1.cpus c).current = o.getD (s.cpus c).idle
  others : ∀ d, d ≠ c → (r.1.cpus d).current = (s.cpus d).current
  idle : ∀ d, (r.1.cpus d).idle = (s.cpus d).idle
  switch : r.2 = if o.getD (s.cpus c).idle = (s.cpus c).current then none
    else some ((s.cpus c).current, o.getD (s.cpus c).idle)
  running : (r.1.threads (o.getD (s.cpus c).idle)).state = .running
  left : o.getD (s.cpus c).idle ≠ (s.cpus c).current →
    (r.1.threads (s.cpus c).current).state = if back then .runnable else (s.threads (s.cpus c).current).state
  states : ∀ t, t ≠ (s.cpus c).current → t ≠ o.getD (s.cpus c).idle → (r.1.threads t).state = (s.threads t).state

theorem state_setState (ts : Threads) (t u : ℕ) (st : ThreadState) :
    (ts.setState t st u).state = if u = t then st else (ts u).state := by
  by_cases h : u = t
  · rw [h, if_pos rfl, Threads.setState, update_self]
  · rw [if_neg h, Threads.setState, update_of_ne h]

section Install

variable (s : Machine n) (c : Fin n) (cur next : ℕ)

theorem install_queued (t : ℕ) : (s.install c cur next).1.queued t = s.queued t := by
  unfold Machine.install
  split_ifs
  · rfl
  · have h := queued_setCpu_same (s.setThreads (s.threads.setState next .running)) c ((s.cpus c).setCurrent next) rfl t
    rwa [queued_setThreads] at h

theorem install_current (h : (s.cpus c).current = cur) : ((s.install c cur next).1.cpus c).current = next := by
  unfold Machine.install
  split_ifs with heq
  · exact h.trans heq.symm
  · exact congrArg SchedCpu.current (cpus_setCpu_self ..)

theorem install_others (hd : d ≠ c) : (s.install c cur next).1.cpus d = s.cpus d := by
  unfold Machine.install
  split_ifs
  · rfl
  · exact cpus_setCpu_ne _ _ hd

theorem install_idle (d : Fin n) : ((s.install c cur next).1.cpus d).idle = (s.cpus d).idle := by
  by_cases hd : d = c
  · rw [hd]
    unfold Machine.install
    split_ifs
    · rfl
    · exact (congrArg SchedCpu.idle (cpus_setCpu_self ..)).trans rfl
  · rw [install_others s c cur next hd]

theorem install_state (t : ℕ) :
    ((s.install c cur next).1.threads t).state = if t = next then .running else (s.threads t).state := by
  unfold Machine.install
  split_ifs with heq ht ht
  · exact (state_setState ..).trans (if_pos ht)
  · exact (state_setState ..).trans (if_neg ht)
  · exact (state_setState ..).trans (if_pos ht)
  · exact (state_setState ..).trans (if_neg ht)

theorem install_switch : (s.install c cur next).2 = if next = cur then none else some (cur, next) := by
  unfold Machine.install
  split_ifs <;> rfl

end Install

theorem chosen_pick (hF : F.card + 1 ≤ queueDepth) {back : Bool} (free : Fin n → Bool) (hcpus : SameCpus s s1)
    (hqueued : Tight F s1.queued fun t => s.queued t + returned back (s.cpus c).current t)
    (hcur : (s1.threads (s.cpus c).current).state = if back then .runnable else (s.threads (s.cpus c).current).state)
    (hstates : ∀ t, t ≠ (s.cpus c).current → (s1.threads t).state = (s.threads t).state) :
    ∃ o, Chosen F s c back o ((s1.pickNext c free).1.install c (s.cpus c).current (s1.pickNext c free).2) := by
  have hfound := found_takeNext hF s1 c free
  unfold Machine.pickNext
  generalize s1.takeNext c free = r at hfound ⊢
  rw [hcpus.idle c]
  have hall := hcpus.trans hfound.cpus
  have hset : ∀ t, ((r.1.install c (s.cpus c).current (r.2.getD (s.cpus c).idle)).1.threads t).state =
      if t = r.2.getD (s.cpus c).idle then .running else (s1.threads t).state := by
    intro t
    rw [install_state, hfound.threads]
  refine ⟨r.2, ?_, install_current _ _ _ _ (hall.current c), fun d hd => ?_, fun d => ?_, install_switch .., ?_,
    fun h => ?_,
    fun t ht hn => ?_⟩
  · refine Tight.trans (.of_eq fun t => ?_) (hfound.tight.trans hqueued)
    rw [install_queued]
  · rw [install_others _ _ _ _ hd]
    exact hall.current d
  · rw [install_idle]
    exact hall.idle d
  · rw [hset, if_pos rfl]
  · rw [hset, if_neg h.symm, hcur]
  · rw [hset, if_neg hn, hstates t ht]

theorem state_setThread_self (s : Machine n) (t : ℕ) (x : Thread) : ((s.setThread t x).threads t).state = x.state :=
  congrArg Thread.state (update_self ..)

theorem state_setThread_ne (s : Machine n) (x : Thread) (h : u ≠ t) :
    ((s.setThread t x).threads u).state = (s.threads u).state :=
  congrArg Thread.state (update_of_ne h ..)

theorem tight_setThread_push (hF : F.card + 1 ≤ queueDepth) (s : Machine n) (c : Fin n) (cur : ℕ) (x : Thread) :
    Tight F ((s.setThread cur x).push c cur).queued fun t => s.queued t + returned true cur t :=
  tight_machinePush hF (s.setThread cur x) c cur

theorem sameCpus_setThread_push (s : Machine n) (c : Fin n) (cur : ℕ) (x : Thread) :
    SameCpus s ((s.setThread cur x).push c cur) :=
  (sameCpus_setThreads ..).trans (sameCpus_setQueue ..)

/-- `schedule_yield` by a thread that is not the idle one -/
theorem scheduleYield_chosen (hF : F.card + 1 ≤ queueDepth) (s : Machine n) (c : Fin n) (free : Fin n → Bool) :
    ∃ o, Chosen F s c true o (s.scheduleYield c free) :=
  chosen_pick hF free (sameCpus_setThread_push ..) (tight_setThread_push hF ..) (state_setThread_self ..)
    fun _ ht => state_setThread_ne _ _ ht

/-- the time slice has not expired: nothing changes but the ticks -/
structure Kept (s : Machine n) (c : Fin n) (r : Machine n × Option (ℕ × ℕ)) : Prop where
  busy : (s.cpus c).current ≠ (s.cpus c).idle
  running : (s.threads (s.cpus c).current).state = .running
  queued : ∀ t, r.1.queued t = s.queued t
  cpus : SameCpus s r.1
  switch : r.2 = none
  states : ∀ t, (r.1.threads t).state = (s.threads t).state

theorem tick_spec (s : Machine n) (c : Fin n) :
    (∀ t, (s.tick c).queued t = s.queued t) ∧ SameCpus s (s.tick c) ∧
      ∀ t, ((s.tick c).threads t).state = (s.threads t).state := by
  unfold Machine.tick
  simp only
  generalize hs1 : s.setCpu c ((s.cpus c).setTicks (((s.cpus c).tickCount + 1) % 2 ^ 64)) = s1
  have hqueued : ∀ t, s1.queued t = s.queued t := by
    rw [← hs1]
    exact queued_setCpu_same s c _ rfl
  have hcpus : SameCpus s s1 := by
    rw [← hs1]
    exact sameCpus_setCpu s c _ rfl rfl
  have hthreads : s1.threads = s.threads := by
    rw [← hs1]
    rfl
  split_ifs
  · refine ⟨fun t => ?_, hcpus.trans ((sameCpus_setQueue s1 c _).trans (sameCpus_setThreads ..)), fun t => ?_⟩
    · have h1 := queued_setQueue s1 c ((s1.queue c).boostAll s1.threads).1 t
      have h2 := count_boostAll (s1.queue c) s1.threads t
      have h3 := hqueued t
      change (s1.setQueue c ((s1.queue c).boostAll s1.threads).1).queued t = _
      omega
    · rw [← hthreads]
      exact state_boostAll ..
  · exact ⟨hqueued, hcpus, fun t => by rw [hthreads]⟩

/-- what became of the current thread when it is to give the CPU up -/
structure Gone (F : Finset ℕ) (s : Machine n) (c : Fin n) (back : Bool) (s1 : Machine n) : Prop where
  cpus : SameCpus s s1
  queued : Tight F s1.queued fun t => s.queued t + returned back (s.cpus c).current t
  current : (s1.threads (s.cpus c).current).state = if back then .runnable else (s.threads (s.cpus c).current).state
  states : ∀ t, t ≠ (s.cpus c).current → (s1.threads t).state = (s.threads t).state

theorem gone_false (hcpus : SameCpus s s1) (hq : ∀ t, s1.queued t = s.queued t)
    (hstates : ∀ t, (s1.threads t).state = (s.threads t).state) : Gone F s c false s1 :=
  ⟨hcpus, .of_eq hq, hstates _, fun t _ => hstates t⟩

theorem leave_gone (hF : F.card + 1 ≤ queueDepth) (s : Machine n) (c : Fin n) :
    ((s.leave c (s.cpus c).current).2 = true →
        Gone F s c (s.threads (s.cpus c).current).state.pushed (s.leave c (s.cpus c).current).1) ∧
      ((s.leave c (s.cpus c).current).2 = false → (s.threads (s.cpus c).current).state = .running ∧
        (∀ t, (s.leave c (s.cpus c).current).1.queued t = s.queued t) ∧ SameCpus s (s.leave c (s.cpus c).current).1 ∧
        ∀ t, ((s.leave c (s.cpus c).current).1.threads t).state = (s.threads t).state) := by
  generalize hcur : (s.cpus c).current = cur
  have hticks : ∀ x : Thread, x.state = (s.threads cur).state → ∀ t, ((s.setThread cur x).threads t).state =
    (s.threads t).state := by
    intro x hx t
    by_cases ht : t = cur
    · rw [ht, state_setThread_self, hx]
    · rw [state_setThread_ne _ _ ht]
  unfold Machine.leave
  split
  · rename_i hst
    simp only
    split_ifs with hexp
    · refine ⟨fun _ => ?_, nofun⟩
      rw [hst]
      exact ⟨sameCpus_setThread_push .., hcur ▸ tight_setThread_push hF .., by rw [hcur]; exact state_setThread_self ..,
        fun t ht => state_setThread_ne _ _ (hcur ▸ ht)⟩
    · exact ⟨nofun, fun _ => ⟨hst, fun _ => rfl, sameCpus_setThreads .., hticks _ (state_chargeTick _)⟩⟩
  · rename_i hst
    refine ⟨fun _ => ?_, nofun⟩
    rw [hst]
    exact ⟨sameCpus_setQueue .., hcur ▸ tight_machinePush hF .., by rw [hcur]; exact hst, fun _ _ => rfl⟩
  · rename_i hst
    refine ⟨fun _ => ?_, nofun⟩
    rw [hst]
    exact gone_false (sameCpus_setThreads ..) (fun _ => rfl) (hticks _ rfl)
  · rename_i hst
    refine ⟨fun _ => ?_, nofun⟩
    rw [hst]
    exact gone_false (sameCpus_setThreads ..) (fun _ => rfl) (hticks _ rfl)

/-- **The decision of `schedule`.** The current thread goes on, or the next one is chosen: from a queue, or the idle
thread. -/
theorem schedule_chosen (hF : F.card + 1 ≤ queueDepth) (s : Machine n) (c : Fin n) (free : Fin n → Bool) :
    Kept s c (s.schedule c free) ∨ ∃ o, Chosen F s c (s.goesBack c) o (s.schedule c free) := by
  obtain ⟨hq, hcpus, hstates⟩ := tick_spec s c
  have hpick : ∀ {back : Bool} {s1 : Machine n}, Gone F (s.tick c) c back s1 →
      ∃ o, Chosen F s c back o ((s1.pickNext c free).1.install c ((s.tick c).cpus c).current (s1.pickNext c free).2) := by
    intro back s1 h
    have hcur := h.current
    have hother := h.states
    have hqueued := h.queued
    rw [hcpus.current c] at hcur hother hqueued ⊢
    refine chosen_pick hF free (hcpus.trans h.cpus) (hqueued.trans (.of_eq fun t => by rw [hq t])) ?_ fun t ht => ?_
    · rw [hcur, hstates]
    · rw [hother t ht, hstates]
  unfold Machine.schedule Machine.goesBack
  simp only
  rw [← hcpus.current c, ← hcpus.idle c, ← hstates]
  by_cases hidle : ((s.tick c).cpus c).current = ((s.tick c).cpus c).idle
  · rw [if_pos hidle]
    have hback : (decide (((s.tick c).cpus c).current ≠ ((s.tick c).cpus c).idle) &&
        ((s.tick c).threads ((s.tick c).cpus c).current).state.pushed) = false := by
      rw [hidle]
      simp
    rw [hback]
    exact .inr (hpick (gone_false (.refl _) (fun _ => rfl) fun _ => rfl))
  · rw [if_neg hidle]
    obtain ⟨hgone, hkept⟩ := leave_gone hF (s.tick c) c
    have hback : (decide (((s.tick c).cpus c).current ≠ ((s.tick c).cpus c).idle) &&
        ((s.tick c).threads ((s.tick c).cpus c).current).state.pushed) =
          ((s.tick c).threads ((s.tick c).cpus c).current).state.pushed := by
      simp [hidle]
    rw [hback]
    cases hleft : ((s.tick c).leave c ((s.tick c).cpus c).current).2 with
    | true => exact .inr (hpick (hgone hleft))
    | false =>
      obtain ⟨hrun, hq', hcpus', hstates'⟩ := hkept hleft
      refine .inl ⟨?_, ?_, fun t => (hq' t).trans (hq t), hcpus.trans hcpus', rfl, fun t => (hstates' t).trans (hstates t)⟩
      · rw [← hcpus.current c, ← hcpus.idle c]
        exact hidle
      · rw [← hcpus.current c, ← hstates]
        exact hrun

/-! ## Where a thread is -/

/-- on how many CPUs `t` is current -/
def Machine.onCpu (s : Machine n) (t : ℕ) : ℕ := ∑ c, same t (s.cpus c).current

/-- in how many places `t` is -/
def Machine.places (s : Machine n) (t : ℕ) : ℕ := s.queued t + s.onCpu t

theorem onCpu_pos (h : (s.cpus c).current = t) : 0 < s.onCpu t := by
  have hle := single_le_sum (f := fun d => same t (s.cpus d).current) (fun _ _ => Nat.zero_le _) (mem_univ c)
  simp only [h, same] at hle
  exact hle

theorem exists_of_onCpu (h : s.onCpu t ≠ 0) : ∃ c, (s.cpus c).current = t := by
  by_contra hnone
  apply h
  refine sum_eq_zero fun c _ => if_neg fun hc => ?_
  exact hnone ⟨c, hc.symm⟩

theorem onCpu_congr {s' : Machine n} (h : SameCpus s s') (t : ℕ) : s'.onCpu t = s.onCpu t :=
  sum_congr rfl fun d _ => by rw [h.current d]

theorem eq_of_onCpu (h : s.onCpu t ≤ 1) (hc : (s.cpus c).current = t) (hd : (s.cpus d).current = t) : c = d :=
  eq_of_sum_le_one _ h (by simp [same, hc]) (by simp [same, hd])

theorem onCpu_le_one (h : ∀ c d, (s.cpus c).current = t → (s.cpus d).current = t → c = d) : s.onCpu t ≤ 1 := by
  by_cases hzero : s.onCpu t = 0
  · omega
  · obtain ⟨c, hc⟩ := exists_of_onCpu hzero
    have hval : ∀ d, same t (s.cpus d).current ≤ if d = c then 1 else 0 := by
      intro d
      by_cases hd : d = c
      · rw [same]
        split_ifs <;> omega
      · rw [if_neg hd, same, if_neg fun hcur => hd (h d c hcur.symm hc)]
    calc s.onCpu t ≤ ∑ d, if d = c then 1 else 0 := Finset.sum_le_sum fun d _ => hval d
      _ = 1 := by rw [sum_ite_eq' univ c, if_pos (mem_univ c)]

section Places

variable {back : Bool} {o : Option ℕ} {r : Machine n × Option (ℕ × ℕ)} (h : Chosen F s c back o r)
include h

theorem Chosen.found (u : ℕ) (hu : o = some u) : 0 < s.queued u ∨ u = (s.cpus c).current := by
  by_contra hnot
  rw [not_or] at hnot
  have hle := h.queued.le u
  rw [hu] at hle
  simp only [taken, elim_some, same, if_true, returned, if_neg hnot.2, ite_self] at hle
  omega

theorem Chosen.onCpu (t : ℕ) :
    r.1.onCpu t + same t (s.cpus c).current = s.onCpu t + same t (o.getD (s.cpus c).idle) := by
  have hcur : (fun d => (r.1.cpus d).current) =
      update (fun d => (s.cpus d).current) c (o.getD (s.cpus c).idle) := by
    funext d
    by_cases hd : d = c
    · rw [hd, update_self, h.current]
    · rw [update_of_ne hd, h.others d hd]
  have hsum := sum_update (fun d => (s.cpus d).current) (same t) c (o.getD (s.cpus c).idle)
  rw [← hcur] at hsum
  exact hsum

/-- a thread that is not the idle thread is in no more places than before, and in one less if it was not pushed -/
theorem Chosen.places_le (ht : t ≠ (s.cpus c).idle) :
    r.1.places t + same t (s.cpus c).current ≤ s.places t + returned back (s.cpus c).current t := by
  have h1 := h.queued.le t
  have h2 := h.onCpu t
  unfold Machine.places
  cases o with
  | none =>
    simp only [getD_none, same, if_neg ht] at h1 h2 ⊢
    omega
  | some u =>
    simp only [taken, elim_some, getD_some] at h1 h2
    omega

end Places

/-- the idle threads, which are the first `n`, are current on their own CPU or nowhere; every other thread is in at most
one place, and the threads from `made` on are in none -/
structure Machine.AtHome (s : Machine n) (made : ℕ) : Prop where
  idle : ∀ c, (s.cpus c).idle = c
  home : ∀ c d : Fin n, (s.cpus d).current = c → d = c
  unqueued : ∀ c : Fin n, s.queued c = 0
  once : ∀ t, s.places t ≤ 1
  fresh : ∀ t, made ≤ t → s.places t = 0
  made : n ≤ made

theorem queued_new (t : ℕ) : (Machine.new n).queued t = 0 := sum_eq_zero fun _ _ => count_new t

theorem atHome_new : (Machine.new n).AtHome n := by
  have hplaces : ∀ t, (Machine.new n).places t = (Machine.new n).onCpu t := by
    intro t
    rw [Machine.places, queued_new, Nat.zero_add]
  refine ⟨fun c => rfl, fun c d h => Fin.ext h, fun c => queued_new c, fun t => ?_, fun t ht => ?_, le_rfl⟩
  · rw [hplaces]
    exact onCpu_le_one fun c d hc hd => Fin.ext (hc.trans hd.symm)
  · rw [hplaces]
    by_contra hne
    obtain ⟨c, hc⟩ := exists_of_onCpu hne
    have heq : (c : ℕ) = t := hc
    omega

theorem queued_pushed (hq : (s.queue c).push u priority = some q) (t : ℕ) :
    (s.setQueue c q).queued t = s.queued t + same t u := by
  have h1 := queued_setQueue s c q t
  have h2 := count_push hq t
  omega

theorem places_pushed (hq : (s.queue c).push u priority = some q) (t : ℕ) :
    (s.setQueue c q).places t = s.places t + same t u := by
  rw [Machine.places, queued_pushed hq, onCpu_congr (sameCpus_setQueue s c q), Machine.places]
  omega

section AtHome

variable {made : ℕ} (h : s.AtHome made)
include h

theorem Machine.AtHome.onCpu_le (t : ℕ) : s.onCpu t ≤ 1 := by
  have := h.once t
  rw [Machine.places] at this
  omega

theorem Machine.AtHome.ne_idle (c : Fin n) (ht : n ≤ t) : t ≠ (s.cpus c).idle := by
  rw [h.idle c]
  omega

theorem Machine.AtHome.congr {s' : Machine n} (hq : ∀ t, s'.queued t = s.queued t) (hc : SameCpus s s') :
    s'.AtHome made := by
  have hplaces : ∀ t, s'.places t = s.places t := by
    intro t
    rw [Machine.places, hq, onCpu_congr hc, Machine.places]
  exact ⟨fun c => (hc.idle c).trans (h.idle c), fun c d hd => h.home c d ((hc.current d).symm.trans hd),
    fun c => (hq c).trans (h.unqueued c), fun t => (hplaces t).trans_le (h.once t), fun t ht => (hplaces t).trans
      (h.fresh t ht),
    h.made⟩

theorem Machine.AtHome.current_range (hc : (s.cpus c).current ≠ (s.cpus c).idle) :
    n ≤ (s.cpus c).current ∧ (s.cpus c).current < made := by
  constructor
  · by_contra hlt
    have hhome : c = ⟨(s.cpus c).current, not_le.1 hlt⟩ := h.home ⟨(s.cpus c).current, not_le.1 hlt⟩ c rfl
    exact hc ((congrArg Fin.val hhome).symm.trans (h.idle c).symm)
  · by_contra hge
    have hzero := h.fresh _ (not_lt.1 hge)
    have hpos := onCpu_pos (s := s) (c := c) rfl
    rw [Machine.places] at hzero
    omega

/-- **A decision leaves every thread in one place.** -/
theorem Chosen.atHome {back : Bool} {o : Option ℕ} {r : Machine n × Option (ℕ × ℕ)} (hr : Chosen F s c back o r)
    (hback : back = true → (s.cpus c).current ≠ (s.cpus c).idle) : r.1.AtHome made := by
  have hidle : ∀ d, (r.1.cpus d).idle = d := fun d => (hr.idle d).trans (h.idle d)
  have hhome : ∀ e d : Fin n, (r.1.cpus d).current = e → d = e := by
    intro e d hd
    by_cases hdc : d = c
    · rw [hdc, hr.current] at hd
      cases o with
      | none =>
        rw [h.idle c] at hd
        rw [hdc]
        exact Fin.ext hd
      | some u =>
        rw [getD_some] at hd
        rcases hr.found u rfl with hpos | hcur
        · have := h.unqueued e
          rw [← hd] at this
          omega
        · rw [hdc]
          exact h.home e c (hcur.symm.trans hd)
    · rw [hr.others d hdc] at hd
      exact h.home e d hd
  have hunqueued : ∀ e : Fin n, r.1.queued e = 0 := by
    intro e
    have hle := hr.queued.le e
    have hzero := h.unqueued e
    have hret : returned back (s.cpus c).current e = 0 := by
      unfold returned same
      split_ifs with hb he
      · have hce := h.home e c he.symm
        exact absurd (he.symm.trans (by rw [h.idle c, hce])) (hback hb)
      · rfl
      · rfl
    omega
  refine ⟨hidle, hhome, hunqueued, fun t => ?_, fun t ht => ?_, h.made⟩
  · by_cases ht : t = (s.cpus c).idle
    · rw [ht, h.idle c, Machine.places, hunqueued c, Nat.zero_add]
      exact onCpu_le_one fun d e hd he => (hhome c d hd).trans (hhome c e he).symm
    · have hle := hr.places_le ht
      have hone := h.once t
      have : returned back (s.cpus c).current t ≤ same t (s.cpus c).current := by
        unfold returned
        split_ifs <;> omega
      omega
  · have hle := hr.places_le (h.ne_idle c (h.made.trans ht))
    have hzero := h.fresh t ht
    have : returned back (s.cpus c).current t ≤ same t (s.cpus c).current := by
      unfold returned
      split_ifs <;> omega
    omega

theorem Chosen.next_off {back : Bool} {o : Option ℕ} {r : Machine n × Option (ℕ × ℕ)} (hr : Chosen F s c back o r)
    (hne : o.getD (s.cpus c).idle ≠ (s.cpus c).current) : s.onCpu (o.getD (s.cpus c).idle) = 0 := by
  cases o with
  | none =>
    by_contra hpos
    obtain ⟨d, hd⟩ := exists_of_onCpu hpos
    rw [h.idle c] at hd
    have hdc := h.home c d hd
    rw [hdc] at hd
    exact hne ((h.idle c).trans hd.symm)
  | some u =>
    rw [getD_some] at hne ⊢
    rcases hr.found u rfl with hpos | hcur
    · have hone := h.once u
      rw [Machine.places] at hone
      omega
    · exact absurd hcur hne

theorem Machine.AtHome.push {made' : ℕ} (hq : (s.queue c).push u priority = some q) (hu : n ≤ u ∧ u < made')
    (hmade : made ≤ made') (hzero : s.places u = 0) : (s.setQueue c q).AtHome made' := by
  have hsame := sameCpus_setQueue s c q
  refine ⟨fun d => (hsame.idle d).trans (h.idle d), fun d e he => h.home d e ((hsame.current e).symm.trans he),
    fun d => ?_,
    fun t => ?_, fun t ht => ?_, h.made.trans hmade⟩
  · have hne : (d : ℕ) ≠ u := by
      omega
    rw [queued_pushed hq, h.unqueued, same, if_neg hne]
  · have hone := h.once t
    rw [places_pushed hq, same]
    split_ifs with htu
    · rw [htu, hzero]
    · exact hone
  · have hne : t ≠ u := by omega
    rw [places_pushed hq, h.fresh t (hmade.trans ht), same, if_neg hne]

end AtHome

end Rumicos.Sched
