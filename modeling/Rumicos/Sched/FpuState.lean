/-
The x87/SSE state of threads across context switches (`crates/sched/src/lib.rs`, `kernel/src/main.rs`).

`schedule` saves the registers in the area of the thread that leaves and loads them from the area of the thread that
comes; `schedule_yield` switches without either. Any number of CPUs and threads; a decision and the switch that follows
it are one step, and so is blocking up to the switch.

- `compute`: the current thread leaves any state in the registers of its CPU.
- `schedule`: a timer interrupt or a reschedule interrupt. `yield`: `thread_yield`. `block`, `exit`: the thread calls
  the scheduler after it has been marked. `wake`, `spawn`: a thread is put on a run queue.

- `Intact`: every current thread found the state it had when it last stopped running, or the initial one.

History variables: `last`, `resumed`.
-/
import Rumicos.Lib.Run
import Rumicos.Sched.Schedule

namespace Rumicos.Sched.FpuState

open Lib Function List Option

/-! ## The system -/

structure State (n : ℕ) (Fpu : Type) where
  machine : Machine n
  /-- the number of threads so far; the idle threads are the first -/
  made : ℕ
  /-- linked on a wait queue -/
  waiting : ℕ → Bool
  /-- the registers of each CPU -/
  regs : Fin n → Fpu
  /-- the save area of each thread -/
  area : ℕ → Fpu
  /-- history: what the thread had when it last stopped running -/
  last : ℕ → Fpu
  /-- history: what the current thread of the CPU found when it began to run -/
  resumed : Fin n → Fpu

variable {n : ℕ} {Fpu : Type}

def State.new (n : ℕ) (init : Fpu) : State n Fpu :=
  ⟨Machine.new n, n, fun _ => false, fun _ => init, fun _ => init, fun _ => init, fun _ => init⟩

def State.current (s : State n Fpu) (c : Fin n) : ℕ := (s.machine.cpus c).current

/-- the rest of `schedule`: save, load and switch -/
def State.switchSaving (s : State n Fpu) (c : Fin n) (r : Machine n × Option (ℕ × ℕ)) : State n Fpu :=
  match r.2 with
  | none => { s with machine := r.1 }
  | some (cur, next) =>
    let area := update s.area cur (s.regs c)
    { s with
      machine := r.1
      area := area
      regs := update s.regs c (area next)
      last := update s.last cur (s.regs c)
      resumed := update s.resumed c (area next) }

/-- the rest of `schedule_yield`: the switch alone -/
def State.switchBare (s : State n Fpu) (c : Fin n) (r : Machine n × Option (ℕ × ℕ)) : State n Fpu :=
  match r.2 with
  | none => { s with machine := r.1 }
  | some (cur, _) =>
    { s with
      machine := r.1
      last := update s.last cur (s.regs c)
      resumed := update s.resumed c (s.regs c) }

/-- the current thread of `c` gets a new state -/
def State.mark (s : State n Fpu) (c : Fin n) (st : ThreadState) : State n Fpu :=
  { s with machine := s.machine.setThreads (s.machine.threads.setState (s.current c) st) }

/-! ## Steps -/

inductive Act (n : ℕ) (Fpu : Type) where
  | compute (c : Fin n) (v : Fpu)
  | schedule (c : Fin n) (free : Fin n → Bool)
  | yield (c : Fin n) (free : Fin n → Bool)
  | block (c : Fin n) (free : Fin n → Bool)
  | exit (c : Fin n) (free : Fin n → Bool)
  /-- `try_make_runnable`, towards CPU `c` (the source pins it to CPU 0) -/
  | wake (c : Fin n) (t : ℕ)
  | spawn (c : Fin n) (priority : ℕ)

def step (s : State n Fpu) : Act n Fpu → Option (State n Fpu)
  | .compute c v => some { s with regs := update s.regs c v }
  | .schedule c free => some (s.switchSaving c (s.machine.schedule c free))
  | .yield c free =>
    if s.current c = (s.machine.cpus c).idle then some (s.switchSaving c (s.machine.schedule c free))
    else some (s.switchBare c (s.machine.scheduleYield c free))
  | .block c free =>
    if s.current c = (s.machine.cpus c).idle then none
    else
      let s' := { s.mark c .blocked with waiting := update s.waiting (s.current c) true }
      some (s'.switchSaving c (s'.machine.schedule c free))
  | .exit c free =>
    if s.current c = (s.machine.cpus c).idle then none
    else some ((s.mark c .dead).switchSaving c ((s.mark c .dead).machine.schedule c free))
  | .wake c t =>
    if s.waiting t then
      let m := s.machine.setThreads (s.machine.threads.setState t .runnable)
      match (m.queue c).push t (m.threads t).priority with
      | some q => some { s with machine := m.setQueue c q, waiting := update s.waiting t false }
      | none => some { s with machine := m }
    else none
  | .spawn c priority =>
    let m := s.machine.setThread s.made ⟨.runnable, min priority (mlfqLevels - 1), 0⟩
    -- a full queue is a panic
    ((m.queue c).push s.made priority).map fun q => { s with machine := m.setQueue c q, made := s.made + 1 }

def run (s : State n Fpu) (as : List (Act n Fpu)) : Option (State n Fpu) := as.foldlM step s

/-! ## The property and its condition -/

/-- every current thread found the state it had when it last stopped running -/
def Intact (s : State n Fpu) : Prop := ∀ c, s.resumed c = s.last (s.current c)

/-- a yield finds the registers as they are in the areas of the yielding thread and of all threads it could switch to -/
def StepOk (s : State n Fpu) : Act n Fpu → Prop
  | .yield c _ =>
    s.current c = (s.machine.cpus c).idle ∨
      ∀ t ∈ s.current c :: (s.machine.cpus c).idle :: s.machine.queuedThreads, s.area t = s.regs c
  | _ => True

instance [DecidableEq Fpu] (s : State n Fpu) : Decidable (Intact s) := by unfold Intact; infer_instance

instance [DecidableEq Fpu] (s : State n Fpu) (a : Act n Fpu) : Decidable (StepOk s a) := by
  unfold StepOk
  split <;> infer_instance

/-! ## The invariant -/

/-- every thread in one place, the areas of the threads that do not run up to date -/
structure Inv (s : State n Fpu) : Prop where
  home : s.machine.AtHome s.made
  waiting : ∀ t, s.waiting t = true → n ≤ t ∧ t < s.made ∧ s.machine.places t = 0
  saved : ∀ t, s.machine.onCpu t = 0 → s.area t = s.last t
  intact : Intact s

theorem inv_new (init : Fpu) : Inv (State.new n init) := ⟨atHome_new, nofun, fun _ _ => rfl, fun _ => rfl⟩

section Switch

variable {s : State n Fpu} {c : Fin n} {back : Bool} {o : Option ℕ} {r : Machine n × Option (ℕ × ℕ)}
  (hr : Chosen ∅ s.machine c back o r) (hhome : s.machine.AtHome s.made)
  (hback : back = true → s.current c ≠ (s.machine.cpus c).idle)
  (hwait : ∀ t, s.waiting t = true → n ≤ t ∧ t < s.made ∧ (s.machine.places t = 0 ∨ t = s.current c ∧ back = false))
  (hsaved : ∀ t, s.machine.onCpu t = 0 → s.area t = s.last t) (hintact : Intact s)
include hr

include hhome hwait in
/-- a waiting thread is in no place, also the one that has just called the scheduler to block -/
theorem waiting_chosen (t : ℕ) (ht : s.waiting t = true) : n ≤ t ∧ t < s.made ∧ r.1.places t = 0 := by
  obtain ⟨hn, hlt, hplace⟩ := hwait t ht
  have hle := hr.places_le (hhome.ne_idle c hn)
  rcases hplace with hzero | ⟨hcur, hb⟩
  · have : returned back (s.machine.cpus c).current t ≤ same t (s.machine.cpus c).current := by
      unfold returned
      split_ifs <;> omega
    omega
  · have hone := hhome.once t
    have hsame : same t (s.machine.cpus c).current = 1 := if_pos hcur
    rw [hb, returned, if_neg Bool.false_ne_true] at hle
    omega

theorem current_chosen (d : Fin n) :
    (r.1.cpus d).current = if d = c then o.getD (s.machine.cpus c).idle else s.current d := by
  by_cases hd : d = c
  · rw [if_pos hd, hd, hr.current]
  · rw [if_neg hd, hr.others d hd]
    rfl

include hhome hback hwait hsaved hintact in
theorem inv_stay (hstay : o.getD (s.machine.cpus c).idle = s.current c) : Inv { s with machine := r.1 } := by
  have hwait' := waiting_chosen hr hhome hwait
  refine ⟨hr.atHome hhome hback, hwait', fun t ht => ?_, fun d => ?_⟩
  · have hcpu := hr.onCpu t
    rw [hstay] at hcpu
    change r.1.onCpu t + same t (s.current c) = s.machine.onCpu t + same t (s.current c) at hcpu
    apply hsaved
    change r.1.onCpu t = 0 at ht
    omega
  · change s.resumed d = s.last (r.1.cpus d).current
    rw [current_chosen hr d, hintact d]
    split_ifs with hd
    · rw [hd, hstay]
    · rfl

include hhome hback hwait hsaved hintact in
/-- a switch after which the area of the thread that left holds its registers, and the next thread has its own -/
theorem inv_switch (hstay : o.getD (s.machine.cpus c).idle ≠ s.current c) (area : ℕ → Fpu) (regs : Fin n → Fpu)
    (found : Fpu)
    (hleft : area (s.current c) = s.regs c) (hother : ∀ t, t ≠ s.current c → area t = s.area t)
    (hfound : found = s.area (o.getD (s.machine.cpus c).idle)) :
    Inv { s with
      machine := r.1, area := area, regs := regs, last := update s.last (s.current c) (s.regs c),
      resumed := update s.resumed c found } := by
  have hwait' := waiting_chosen hr hhome hwait
  refine ⟨hr.atHome hhome hback, hwait', fun t ht => ?_, fun d => ?_⟩
  · change area t = update s.last (s.current c) (s.regs c) t
    by_cases hcur : t = s.current c
    · rw [hcur, update_self, hleft]
    · have hcpu := hr.onCpu t
      have hsame : same t (s.machine.cpus c).current = 0 := if_neg hcur
      rw [update_of_ne hcur, hother t hcur]
      apply hsaved
      change r.1.onCpu t = 0 at ht
      omega
  · change update s.resumed c found d = update s.last (s.current c) (s.regs c) (r.1.cpus d).current
    rw [current_chosen hr d]
    by_cases hd : d = c
    · have hnext := hsaved _ (hr.next_off hhome hstay)
      rw [if_pos hd, hd, update_self, update_of_ne hstay, hfound, hnext]
    · have hne : s.current d ≠ s.current c := fun heq => hd (eq_of_onCpu (hhome.onCpu_le _) heq rfl)
      rw [if_neg hd, update_of_ne hd, update_of_ne hne, hintact d]

include hhome hback hwait hsaved hintact in
theorem inv_switchSaving : Inv (s.switchSaving c r) := by
  unfold State.switchSaving
  rw [hr.switch]
  by_cases hstay : o.getD (s.machine.cpus c).idle = (s.machine.cpus c).current
  · rw [if_pos hstay]
    exact inv_stay hr hhome hback hwait hsaved hintact hstay
  · rw [if_neg hstay]
    exact inv_switch hr hhome hback hwait hsaved hintact hstay _ _ _ (update_self ..)
      (fun t ht => update_of_ne ht ..) (update_of_ne hstay ..)

include hhome hback hwait hsaved hintact in
/-- a switch without saving is harmless if the registers are as the areas of both threads -/
theorem inv_switchBare (hcur : s.area (s.current c) = s.regs c)
    (hnext : s.area (o.getD (s.machine.cpus c).idle) = s.regs c) : Inv (s.switchBare c r) := by
  unfold State.switchBare
  rw [hr.switch]
  by_cases hstay : o.getD (s.machine.cpus c).idle = (s.machine.cpus c).current
  · rw [if_pos hstay]
    exact inv_stay hr hhome hback hwait hsaved hintact hstay
  · rw [if_neg hstay]
    exact inv_switch hr hhome hback hwait hsaved hintact hstay s.area s.regs _ hcur (fun _ _ => rfl) hnext.symm

end Switch

theorem inv_schedule {s : State n Fpu} {c : Fin n} (free : Fin n → Bool) (hhome : s.machine.AtHome s.made)
    (hwait : ∀ t, s.waiting t = true →
      n ≤ t ∧ t < s.made ∧ (s.machine.places t = 0 ∨ t = s.current c ∧ s.machine.goesBack c = false))
    (hsaved : ∀ t, s.machine.onCpu t = 0 → s.area t = s.last t) (hintact : Intact s)
    (hmark : (s.machine.threads (s.current c)).state = .running → ∀ t, s.waiting t = true → s.machine.places t = 0) :
    Inv (s.switchSaving c (s.machine.schedule c free)) := by
  rcases schedule_chosen (F := ∅) (by decide) s.machine c free with hkept | ⟨o, hr⟩
  · unfold State.switchSaving
    rw [hkept.switch]
    have hplaces : ∀ t, (s.machine.schedule c free).1.places t = s.machine.places t := by
      intro t
      rw [Machine.places, hkept.queued, onCpu_congr hkept.cpus, Machine.places]
    refine ⟨hhome.congr hkept.queued hkept.cpus, fun t ht => ?_, fun t ht => ?_, fun d => ?_⟩
    · obtain ⟨hn, hlt, -⟩ := hwait t ht
      exact ⟨hn, hlt, (hplaces t).trans (hmark hkept.running t ht)⟩
    · apply hsaved
      rw [← onCpu_congr hkept.cpus]
      exact ht
    · change s.resumed d = s.last ((s.machine.schedule c free).1.cpus d).current
      rw [hkept.cpus.current d]
      exact hintact d
  · refine inv_switchSaving hr hhome (fun hb hidle => ?_) hwait hsaved hintact
    have hidle' : (s.machine.cpus c).current = (s.machine.cpus c).idle := hidle
    simp [Machine.goesBack, hidle'] at hb

theorem inv_mark {s : State n Fpu} (h : Inv s) (c : Fin n) (st : ThreadState) : Inv (s.mark c st) :=
  ⟨h.home.congr (fun _ => rfl) (sameCpus_setThreads ..), h.waiting, h.saved, h.intact⟩

theorem mark_state (s : State n Fpu) (c : Fin n) (st : ThreadState) :
    ((s.mark c st).machine.threads (s.current c)).state = st :=
  (state_setState ..).trans (if_pos rfl)

theorem inv_sameCpus {s : State n Fpu} (h : Inv s) {m : Machine n} {made : ℕ} {waiting : ℕ → Bool}
    (hc : SameCpus s.machine m)
    (hhome : m.AtHome made) (hwait : ∀ t, waiting t = true → n ≤ t ∧ t < made ∧ m.places t = 0) :
    Inv { s with machine := m, made := made, waiting := waiting } := by
  refine ⟨hhome, hwait, fun t ht => h.saved t ?_, fun d => ?_⟩
  · rw [← onCpu_congr hc]
    exact ht
  · change s.resumed d = s.last (m.cpus d).current
    rw [hc.current d]
    exact h.intact d

/-- **One step.** -/
theorem inv_step (s : State n Fpu) (a : Act n Fpu) (s' : State n Fpu) (h : Inv s) (hok : StepOk s a)
    (hstep : step s a = some s') :
    Inv s' := by
  have hwait : ∀ {b : ℕ → Prop}, ∀ t, s.waiting t = true → n ≤ t ∧ t < s.made ∧ (s.machine.places t = 0 ∨ b t) := by
    intro b t ht
    obtain ⟨hn, hlt, hzero⟩ := h.waiting t ht
    exact ⟨hn, hlt, .inl hzero⟩
  have hidle : ∀ t, s.waiting t = true → s.machine.places t = 0 := fun t ht => (h.waiting t ht).2.2
  cases a with
  | compute c v =>
    simp only [step, some.injEq] at hstep
    subst hstep
    exact ⟨h.home, h.waiting, h.saved, h.intact⟩
  | schedule c free =>
    simp only [step, some.injEq] at hstep
    subst hstep
    exact inv_schedule free h.home hwait h.saved h.intact fun _ => hidle
  | yield c free =>
    simp only [step] at hstep
    split_ifs at hstep with hcur
    · cases hstep
      exact inv_schedule free h.home hwait h.saved h.intact fun _ => hidle
    · cases hstep
      obtain ⟨o, hr⟩ := scheduleYield_chosen (F := ∅) (by decide) s.machine c free
      have hareas := hok.resolve_left hcur
      refine inv_switchBare hr h.home (fun _ => hcur) hwait h.saved h.intact (hareas _ mem_cons_self) (hareas _ ?_)
      cases o with
      | none => exact mem_cons_of_mem _ mem_cons_self
      | some u =>
        rcases hr.found u rfl with hpos | hself
        · exact mem_cons_of_mem _ (mem_cons_of_mem _ (mem_queuedThreads hpos))
        · rw [hself]
          exact mem_cons_self
  | block c free =>
    simp only [step] at hstep
    split_ifs at hstep with hcur
    cases hstep
    have hm := inv_mark h c .blocked
    have hstate := mark_state s c .blocked
    have hback : (s.mark c .blocked).machine.goesBack c = false := by
      change (_ && ((s.mark c .blocked).machine.threads (s.current c)).state.pushed) = false
      rw [hstate]
      exact Bool.and_false _
    obtain ⟨hn, hlt⟩ := h.home.current_range hcur
    refine inv_schedule free hm.home (fun t ht => ?_) hm.saved hm.intact fun hrun => ?_
    · by_cases htc : t = s.current c
      · rw [htc]
        exact ⟨hn, hlt, .inr ⟨rfl, hback⟩⟩
      · obtain ⟨hn', hlt', hzero⟩ := h.waiting t ((update_of_ne htc ..).symm.trans ht)
        exact ⟨hn', hlt', .inl hzero⟩
    · have hblocked : ThreadState.blocked = .running := hstate.symm.trans hrun
      cases hblocked
  | exit c free =>
    simp only [step] at hstep
    split_ifs at hstep with hcur
    cases hstep
    have hm := inv_mark h c .dead
    exact inv_schedule free hm.home hwait hm.saved hm.intact fun _ => hidle
  | wake c t =>
    simp only [step] at hstep
    split_ifs at hstep with ht
    obtain ⟨hn, hlt, hzero⟩ := h.waiting t ht
    have hm : (s.machine.setThreads (s.machine.threads.setState t .runnable)).AtHome s.made :=
      h.home.congr (fun _ => rfl) (sameCpus_setThreads ..)
    split at hstep
    · rename_i q hq
      cases hstep
      refine inv_sameCpus h ((sameCpus_setThreads ..).trans (sameCpus_setQueue ..)) (hm.push hq ⟨hn, hlt⟩ le_rfl hzero)
        fun u hu => ?_
      by_cases hut : u = t
      · rw [hut] at hu
        cases (update_self ..).symm.trans hu
      · obtain ⟨hn', hlt', hzero'⟩ := h.waiting u ((update_of_ne hut ..).symm.trans hu)
        refine ⟨hn', hlt', (places_pushed hq u).trans ?_⟩
        rw [same, if_neg hut]
        exact hzero'
    · cases hstep
      exact ⟨hm, h.waiting, h.saved, h.intact⟩
  | spawn c priority =>
    simp only [step, map_eq_some_iff] at hstep
    obtain ⟨q, hq, rfl⟩ := hstep
    have hm : (s.machine.setThread s.made ⟨.runnable, min priority (mlfqLevels - 1), 0⟩).AtHome s.made :=
      h.home.congr (fun _ => rfl) (sameCpus_setThreads ..)
    refine inv_sameCpus h ((sameCpus_setThreads ..).trans (sameCpus_setQueue ..))
      (hm.push hq ⟨h.home.made, Nat.lt_succ_self _⟩ (Nat.le_succ _) (h.home.fresh _ le_rfl)) fun u hu => ?_
    obtain ⟨hn, hlt, hzero⟩ := h.waiting u hu
    refine ⟨hn, Nat.lt_succ_of_lt hlt, (places_pushed hq u).trans ?_⟩
    rw [same, if_neg hlt.ne]
    exact hzero

/-! ## The result -/

/-- **The x87/SSE state of every thread survives**, from any number of CPUs and for any number of threads, as long as
every yield finds the registers as they are in the areas of the yielding thread and of those it could switch to. -/
theorem fpu_intact_run (init : Fpu) (as : List (Act n Fpu)) (s : State n Fpu) (hrun : run (State.new n init) as = some s)
    (hok : Meets step StepOk (State.new n init) as) : Intact s :=
  (run_inv Inv inv_step (inv_new init) hok hrun).intact

local instance oneCpu : NeZero 1 := ⟨one_ne_zero⟩

/-- two user threads: the first yields before anything was computed; the second computes and is preempted, blocks and is
woken -/
def preemptedAndWoken : List (Act 1 ℕ) :=
  [.spawn 0 0, .spawn 0 0, .schedule 0 fun _ => true, .yield 0 fun _ => true, .compute 0 7, .block 0 fun _ => true,
    .wake 0 2, .schedule 0 fun _ => true]

/-- thread 2 finds the 7 it had computed -/
theorem fpu_intact_preempted : ∃ s, run (State.new 1 0) preemptedAndWoken = some s ∧ s.current 0 = 2 ∧ s.resumed 0 = 7 ∧
    Intact s :=
  exists_of_check (fun s => s.current 0 = 2 ∧ s.resumed 0 = 7) (by decide +kernel) fun s hs h =>
    ⟨h.1, h.2, fpu_intact_run 0 preemptedAndWoken s hs (by decide +kernel)⟩

/-- the same, but the idle loop yields to the woken thread -/
def wokenByYield : List (Act 1 ℕ) :=
  [.spawn 0 0, .spawn 0 0, .schedule 0 fun _ => true, .schedule 0 fun _ => true, .compute 0 7, .block 0 fun _ =>
    true, .wake 0 2,
    .yield 0 fun _ => true]

/-- **A thread that a yield switches to finds the state of the yielding thread**: thread 2 stopped with 7 and finds 0. -/
theorem woken_by_yield_corrupted : ∃ s, run (State.new 1 0) wokenByYield = some s ∧ s.current 0 = 2 ∧ s.last 2 = 7 ∧
    s.resumed 0 = 0 ∧ ¬ Intact s := by
  decide +kernel

end Rumicos.Sched.FpuState
