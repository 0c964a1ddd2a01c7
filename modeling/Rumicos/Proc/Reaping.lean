/-
Exit, preemption and reaping (`crates/proc/src/process.rs`, `wait.rs`, `ptable.rs`, `syscall.rs`,
`crates/sched/src/lib.rs`, `block.rs`, `waitqueue.rs`).

Any number of CPUs and processes. A process is its struct, its thread and its kernel stack under one number that is
never used again. Every step is one that another CPU or a timer interrupt can come between:
- an exit publishes `state = Zombie`, looks its parent up by pid, uses the pointer three times (pending signal, counter,
  wait queue), sets the thread Dead and calls the scheduler;
- wait4 looks a child up, reads its state, and if it is a zombie looks it up again, unlinks it and frees everything;
- kill looks its target up and uses the pointer;
- blocking links the thread on a wait queue and calls the scheduler; a wake unlinks it and pushes it on a run queue,
  whether it has left its CPU or not;
- the scheduler pushes the current thread unless it is Blocked or Dead, and takes a thread from its own queue or another
  one.

Interrupts are off in a system call until it first blocks; `thread_block` turns them on again when it comes back. Which
thread the scheduler takes is left open (levels, boosts and stealing decide), and so is who wakes whom. Freeing is one
step.

- `Places`, `Pointers`: where a thread can be, and what a pointer from `ptable_find` may point to.

History variables: `earlyFree`, `misuse`.
-/
import Rumicos.Lib.Run

namespace Rumicos.Proc.Reaping

open Lib List Option

/-! ## The system -/

inductive ThreadState where
  | runnable
  | running
  | blocked
  | dead
deriving DecidableEq

/-- where a thread is -/
inductive Pc where
  /-- user code, or kernel code that touches nothing here -/
  | run
  /-- linked on a wait queue, before the call of the scheduler -/
  | block
  /-- after that call -/
  | woken
  /-- in `exit`, before `state = Zombie` -/
  | close
  /-- before `ptable_find(parent_pid)` -/
  | findParent
  /-- holds the parent's pointer, with `left` uses to come -/
  | notify (parent left : ℕ)
  /-- before `state = Dead` -/
  | die
  /-- at the last call of the scheduler -/
  | leave
  /-- `find_zombie` holds the child's pointer -/
  | look (child : ℕ)
  /-- `reap_zombie`, before its `ptable_find` -/
  | reapFind (child : ℕ)
  | reapRead (child : ℕ)
  /-- before `ptable_remove` -/
  | unlink (child : ℕ)
  | free (child : ℕ)
  /-- `sys_kill` holds the target's pointer -/
  | kill (target : ℕ)
deriving DecidableEq

/-- a pointer from `ptable_find` that is still to be used -/
def Pc.holds : Pc → Option ℕ
  | .notify j _ | .look j | .reapRead j | .unlink j | .kill j => some j
  | _ => none

/-- the zombie that is being reaped -/
def Pc.reaps : Pc → Option ℕ
  | .reapFind j | .reapRead j | .unlink j | .free j => some j
  | _ => none

structure Process where
  parent : Option ℕ
  zombie : Bool
  state : ThreadState
  pc : Pc
  /-- are interrupts enabled where it is? -/
  irq : Bool
  /-- linked on a wait queue -/
  waiting : Bool
  /-- `ptable_find` finds it -/
  listed : Bool
  /-- its struct, stack, thread and reference to the address space are given back -/
  freed : Bool
deriving DecidableEq

def Process.new (parent : Option ℕ) (state : ThreadState) : Process :=
  ⟨parent, false, state, .run, false, false, true, false⟩

structure System where
  /-- the current thread of each CPU; `none` is the idle thread -/
  current : List (Option ℕ)
  /-- the run queues: CPU and thread -/
  queue : List (ℕ × ℕ)
  procs : List Process
  /-- history: a process was freed while its thread was current or queued -/
  earlyFree : Bool
  /-- history: a pointer was used after its process was freed -/
  misuse : Bool
deriving DecidableEq

/-- the first process on CPU 0 of `cpus` -/
def System.new (cpus : ℕ) : System := ⟨some 0 :: List.replicate (cpus - 1) none, [], [Process.new none .running],
  false, false⟩

def System.set (s : System) (i : ℕ) (p : Process) : System := { s with procs := s.procs.set i p }

def System.push (s : System) (c t : ℕ) : System := { s with queue := s.queue ++ [(c, t)] }

/-- no CPU runs it -/
def System.Off (s : System) (t : ℕ) : Prop := some t ∉ s.current

def System.Queued (s : System) (t : ℕ) : Prop := ∃ e ∈ s.queue, e.2 = t

instance (s : System) (t : ℕ) : Decidable (s.Off t) := by unfold System.Off; infer_instance
instance (s : System) (t : ℕ) : Decidable (s.Queued t) := by unfold System.Queued; infer_instance

/-- `ptable_find` -/
def System.listed (s : System) (j : ℕ) : Bool := (s.procs[j]?).any Process.listed

/-- a pointer to `j` is followed -/
def System.use (s : System) (j : ℕ) : System :=
  if (s.procs[j]?).any Process.freed then { s with misuse := true } else s

/-! ## The scheduler -/

/-- take entry `k` of the queues, or idle; another CPU's entry only when the own queue is empty -/
def System.dispatch (s : System) (c : ℕ) : Option ℕ → Option System
  | none => if ∀ e ∈ s.queue, e.1 ≠ c then some { s with current := s.current.set c none } else none
  | some k =>
    (s.queue[k]?).bind fun e => (s.procs[e.2]?).bind fun p =>
      if e.1 = c ∨ ∀ e' ∈ s.queue, e'.1 ≠ c then
        some ({ s with queue := s.queue.eraseIdx k, current := s.current.set c (some e.2) }.set e.2
          { p with state := .running })
      else none

/-- `schedule` on CPU `c`; `expire` is what `charge_tick` answers -/
def System.schedule (s : System) (c : ℕ) (expire : Bool) (pick : Option ℕ) : Option System :=
  match s.current[c]? with
  | none => none
  | some none => s.dispatch c pick
  | some (some t) =>
    (s.procs[t]?).bind fun p =>
      match p.state with
      | .running => if expire then ((s.set t { p with state := .runnable }).push c t).dispatch c pick else some s
      | .runnable => (s.push c t).dispatch c pick
      | .blocked | .dead => s.dispatch c pick

/-! ## Steps -/

inductive Act where
  | fork (c : ℕ)
  | block (c : ℕ)
  /-- exit(), or a fatal signal on a return path -/
  | exit (c : ℕ)
  | wait4 (c child : ℕ)
  | kill (c target : ℕ)
  /-- interrupts are turned on or off: a system call begins or ends, or an interrupt -/
  | irq (c : ℕ) (on : Bool)
  /-- the next step of the call that CPU `c` is in -/
  | step (c : ℕ) (pick : Option ℕ)
  /-- a timer interrupt, or a yield -/
  | resched (c : ℕ) (expire : Bool) (pick : Option ℕ)
  | wake (t : ℕ)
  /-- the rest of a stolen batch: entry `k` moves to CPU `c` -/
  | migrate (k c : ℕ)
deriving DecidableEq

/-- the process on CPU `c` -/
def System.on (s : System) (c : ℕ) : Option (ℕ × Process) :=
  (s.current[c]?).join.bind fun i => (s.procs[i]?).map fun p => (i, p)

/-- the next step of process `i` on CPU `c` -/
def System.advance (s : System) (c i : ℕ) (p : Process) (pick : Option ℕ) : Option System :=
  match p.pc with
  | .run => none
  | .woken => some (s.set i { p with pc := .run, irq := true })
  | .block => (s.set i { p with pc := .woken }).schedule c true pick
  | .close => some (s.set i { p with pc := .findParent, zombie := true })
  | .findParent =>
    some (s.set i { p with
      pc := match p.parent with
        | some j => if s.listed j then .notify j 3 else .die
        | none => .die })
  | .notify j left => some ((s.use j).set i { p with pc := if left ≤ 1 then .die else .notify j (left - 1) })
  | .die => some (s.set i { p with pc := .leave, state := .dead })
  | .leave => s.schedule c true pick
  | .look j => some ((s.use j).set i { p with pc := if (s.procs[j]?).any Process.zombie then .reapFind j else .run })
  | .reapFind j => some (s.set i { p with pc := if s.listed j then .reapRead j else .run })
  | .reapRead j => some ((s.use j).set i { p with pc := .unlink j })
  | .unlink j =>
    (s.procs[j]?).map fun q => (s.set j { q with listed := false }).set i { p with pc := .free j }
  | .free j =>
    (s.procs[j]?).map fun q =>
      ({ s with earlyFree := s.earlyFree || decide (¬ s.Off j ∨ s.Queued j) }.set j { q with freed := true }).set i
        { p with pc := .run }
  | .kill j => some ((s.use j).set i { p with pc := .run })

def step (s : System) : Act → Option System
  | .fork c =>
    (s.on c).bind fun (i, p) =>
      if p.pc = .run then
        some ({ s with procs := s.procs ++ [Process.new (some i) .runnable] }.push 0 s.procs.length)
      else none
  | .block c =>
    (s.on c).bind fun (i, p) =>
      if p.pc = .run then some (s.set i { p with pc := .block, irq := false, state := .blocked, waiting := true })
        else none
  | .exit c => (s.on c).bind fun (i, p) => if p.pc = .run then some (s.set i { p with pc := .close }) else none
  | .wait4 c child =>
    (s.on c).bind fun (i, p) =>
      if p.pc = .run ∧ (s.procs[child]?).any (fun q => q.parent = some i) ∧ s.listed child then
        some (s.set i { p with pc := .look child })
      else none
  | .kill c target =>
    (s.on c).bind fun (i, p) =>
      if p.pc = .run ∧ s.listed target then some (s.set i { p with pc := .kill target }) else none
  | .irq c on => (s.on c).bind fun (i, p) => if p.pc = .run then some (s.set i { p with irq := on }) else none
  | .step c pick => (s.on c).bind fun (i, p) => s.advance c i p pick
  | .resched c expire pick =>
    if (s.on c).all (fun x => x.2.irq || x.2.pc == .run) then s.schedule c expire pick else none
  | .wake t =>
    (s.procs[t]?).bind fun p =>
      if p.waiting then some ((s.set t { p with state := .runnable, waiting := false }).push 0 t) else none
  | .migrate k c => (s.queue[k]?).map fun e => { s with queue := s.queue.set k (c, e.2) }

def run (s : System) (as : List Act) : Option System := as.foldlM step s

/-! ## The property and its condition -/

/-- nothing was freed that was current or queued, and no pointer was used after its process was freed -/
def Safe (s : System) : Prop := s.earlyFree = false ∧ s.misuse = false

/-- no other process than `i` holds a pointer to `j` -/
def System.Unheld (s : System) (i j : ℕ) : Prop :=
  ∀ k < s.procs.length, k ≠ i → ∀ p ∈ s.procs[k]?, p.pc.holds ≠ some j

/-- when process `i` takes its next step: a zombie it finds is Dead and has left its CPU, and nobody else holds a
pointer to the entry it removes -/
def System.Ahead (s : System) (i : ℕ) : Pc → Prop
  | .look j => ∀ q ∈ s.procs[j]?, q.zombie = true → q.state = .dead ∧ s.Off j
  | .unlink j => s.Unheld i j
  | _ => True

/-- a wake finds its thread switched out -/
def StepOk (s : System) : Act → Prop
  | .step c _ => ∀ x ∈ s.on c, s.Ahead x.1 x.2.pc
  | .wake t => s.Off t
  | _ => True

instance (s : System) (i : ℕ) (pc : Pc) : Decidable (s.Ahead i pc) := by
  unfold System.Ahead System.Unheld
  split <;> infer_instance

instance (s : System) (a : Act) : Decidable (StepOk s a) := by
  unfold StepOk
  split <;> infer_instance

/-! ## Where a thread can be -/

/-- it may be put on a run queue -/
structure Process.Ready (p : Process) : Prop where
  runnable : p.state = .runnable
  notBlock : p.pc ≠ .block
  notLeave : p.pc ≠ .leave

/-- it may be the current thread of a CPU -/
inductive Process.OnCpu (p : Process) : Prop
  | running : p.state = .running → p.pc ≠ .block → p.pc ≠ .leave → p.OnCpu
  | blocked : p.state = .blocked → p.pc = .block → p.OnCpu
  | dead : p.state = .dead → p.pc = .leave → p.OnCpu

structure Process.Tidy (p : Process) : Prop where
  waits : p.waiting = true → p.state = .blocked
  sleeps : p.state = .blocked → p.pc = .block ∨ p.pc = .woken
  ends : p.state = .dead → p.pc = .leave
  shut : p.pc = .block → p.irq = false

structure Places (s : System) : Prop where
  inj : ∀ {c d t : ℕ}, s.current[c]? = some (some t) → s.current[d]? = some (some t) → c = d
  notBoth : ∀ {t : ℕ}, some t ∈ s.current → ¬ s.Queued t
  nodup : (s.queue.map Prod.snd).Nodup
  queued : ∀ {t : ℕ}, s.Queued t → ∃ p, s.procs[t]? = some p ∧ p.Ready
  onCpu : ∀ {t : ℕ}, some t ∈ s.current → ∃ p, s.procs[t]? = some p ∧ p.OnCpu
  tidy : ∀ {t : ℕ} {p : Process}, s.procs[t]? = some p → p.Tidy
  blocking : ∀ {t : ℕ} {p : Process}, s.procs[t]? = some p → p.pc = .block → some t ∈ s.current

@[simp] theorem set_current (s : System) (i : ℕ) (p : Process) : (s.set i p).current = s.current := rfl

variable {s s' : System} {c t i k j : ℕ} {p p' q : Process} {pick : Option ℕ} {pc : Pc}

theorem queued_push {u : ℕ} : (s.push c t).Queued u ↔ s.Queued u ∨ u = t := by
  simp [System.Queued, System.push, eq_comm]

theorem procs_set_self (h : s.procs[i]? = some p) (p' : Process) : (s.set i p').procs[i]? = some p' :=
  getElem?_set_self (List.getElem?_eq_some_iff.1 h).1

theorem procs_set_ne (h : k ≠ i) : (s.set i p').procs[k]? = s.procs[k]? := getElem?_set_ne (Ne.symm h)

theorem procs_set (h : (s.set i p').procs[k]? = some q) : k = i ∧ q = p' ∨ k ≠ i ∧ s.procs[k]? = some q :=
  getElem?_set_cases h

theorem set_eq_self (h : s.procs[t]? = some p) : s.set t p = s := by
  have hset : s.procs.set t p = s.procs := by
    obtain ⟨hlt, rfl⟩ := List.getElem?_eq_some_iff.1 h
    exact set_getElem_self hlt
  rw [System.set, hset]

theorem on_eq_some : s.on c = some (i, p) ↔ s.current[c]? = some (some i) ∧ s.procs[i]? = some p := by
  unfold System.on
  constructor
  · intro h
    obtain ⟨k, hk, h⟩ := bind_eq_some_iff.1 h
    obtain ⟨q, hq, h⟩ := map_eq_some_iff.1 h
    cases h
    exact ⟨join_eq_some_iff.1 hk, hq⟩
  · intro ⟨hc, hp⟩
    rw [hc, join_some, bind_some, hp, map_some]

theorem Process.OnCpu.state_running (h : p.OnCpu) (hb : p.pc ≠ .block) (hl : p.pc ≠ .leave) : p.state = .running := by
  cases h with
  | running h => exact h
  | blocked _ h => exact absurd h hb
  | dead _ h => exact absurd h hl

theorem Process.tidy_of_awake (hw : p.waiting = false) (hst : p.state ≠ .blocked) (hd : p.state ≠ .dead)
    (hb : p.pc ≠ .block) :
    p.Tidy := by
  refine ⟨fun h => ?_, fun h => absurd h hst, fun h => absurd h hd, fun h => absurd h hb⟩
  rw [hw] at h
  cases h

theorem Process.Tidy.not_waiting (h : p.Tidy) (hst : p.state ≠ .blocked) : p.waiting = false :=
  Bool.eq_false_iff.2 fun hw => hst (h.waits hw)

section

variable (hs : Places s)
include hs

theorem Places.at_cpu (hi : some i ∈ s.current) (hp : s.procs[i]? = some p) : p.OnCpu := by
  obtain ⟨q, hq, h⟩ := hs.onCpu hi
  cases hp.symm.trans hq
  exact h

theorem Places.ready (ht : s.Queued t) (hp : s.procs[t]? = some p) : p.Ready := by
  obtain ⟨q, hq, h⟩ := hs.queued ht
  cases hp.symm.trans hq
  exact h

/-- thread `t` moves or changes, and the others stay where they are -/
theorem Places.change (hp : s'.procs[t]? = some p) (hprocs : ∀ u, u ≠ t → s'.procs[u]? = s.procs[u]?)
    (hinj : ∀ c d u : ℕ, s'.current[c]? = some (some u) → s'.current[d]? = some (some u) → c = d)
    (hcur : ∀ u, u ≠ t → (some u ∈ s'.current ↔ some u ∈ s.current)) (hnodup : (s'.queue.map Prod.snd).Nodup)
    (hqueue : ∀ u, u ≠ t → s'.Queued u → s.Queued u) (hon : some t ∈ s'.current → p.OnCpu ∧ ¬ s'.Queued t)
    (hready : s'.Queued t → p.Ready) (htidy : p.Tidy) (hblock : p.pc = .block → some t ∈ s'.current) : Places s' := by
  refine ⟨hinj _ _ _, fun {u} hu hq => ?_, hnodup, fun {u} hu => ?_, fun {u} hu => ?_, fun {u q} hu => ?_,
    fun {u q} hu hb => ?_⟩
  · by_cases hut : u = t
    · subst hut
      exact (hon hu).2 hq
    · exact hs.notBoth ((hcur u hut).1 hu) (hqueue u hut hq)
  · by_cases hut : u = t
    · subst hut
      exact ⟨p, hp, hready hu⟩
    · rw [hprocs u hut]
      exact hs.queued (hqueue u hut hu)
  · by_cases hut : u = t
    · subst hut
      exact ⟨p, hp, (hon hu).1⟩
    · rw [hprocs u hut]
      exact hs.onCpu ((hcur u hut).1 hu)
  · by_cases hut : u = t
    · subst hut
      cases hp.symm.trans hu
      exact htidy
    · rw [hprocs u hut] at hu
      exact hs.tidy hu
  · by_cases hut : u = t
    · subst hut
      cases hp.symm.trans hu
      exact hblock hb
    · rw [hprocs u hut] at hu
      exact (hcur u hut).2 (hs.blocking hu hb)

theorem Places.set (hp : s.procs[i]? = some p) (hon : some i ∈ s.current → p'.OnCpu)
    (hready : s.Queued i → p'.Ready) (htidy : p'.Tidy) (hblock : p'.pc = .block → some i ∈ s.current) :
    Places (s.set i p') :=
  hs.change (procs_set_self hp p') (fun _ => procs_set_ne) (fun _ _ _ => hs.inj) (fun _ _ => .rfl) hs.nodup (fun _ _ => id)
    (fun h => ⟨hon h, hs.notBoth h⟩) hready htidy hblock

theorem Places.set_at_cpu (hi : some i ∈ s.current) (hcpu : p'.OnCpu) (htidy : p'.Tidy) :
    Places (s.set i p') := by
  obtain ⟨p, hp, _⟩ := hs.onCpu hi
  exact hs.set hp (fun _ => hcpu) (fun h => absurd h (hs.notBoth hi)) htidy fun _ => hi

theorem Places.set_running (hi : some i ∈ s.current) (hp : s.procs[i]? = some p) (hrun : p.state = .running)
    (hrun' : p'.state = .running) (hb : p'.pc ≠ .block) (hl : p'.pc ≠ .leave) (hw : p'.waiting = p.waiting) :
    Places (s.set i p') := by
  have hnot : p.waiting = false := (hs.tidy hp).not_waiting (by rw [hrun]; nofun)
  apply hs.set_at_cpu hi (.running hrun' hb hl)
  exact Process.tidy_of_awake (hw.trans hnot) (by rw [hrun']; nofun) (by rw [hrun']; nofun) hb

theorem Places.set_other (hp : s.procs[i]? = some p) (hst : p'.state = p.state) (hpc : p'.pc = p.pc)
    (hirq : p'.irq = p.irq) (hw : p'.waiting = p.waiting) : Places (s.set i p') := by
  refine hs.set hp (fun hi => ?_) (fun hq => ?_) ?_ fun hb => hs.blocking hp (hpc ▸ hb)
  · cases hs.at_cpu hi hp with
    | running h hb hl => exact .running (hst ▸ h) (hpc ▸ hb) (hpc ▸ hl)
    | blocked h hb => exact .blocked (hst ▸ h) (hpc ▸ hb)
    | dead h hl => exact .dead (hst ▸ h) (hpc ▸ hl)
  · have hr := hs.ready hq hp
    exact ⟨hst ▸ hr.runnable, hpc ▸ hr.notBlock, hpc ▸ hr.notLeave⟩
  · have ht := hs.tidy hp
    refine ⟨?_, ?_, ?_, ?_⟩
    · rw [hw, hst]
      exact ht.waits
    · rw [hst, hpc]
      exact ht.sleeps
    · rw [hst, hpc]
      exact ht.ends
    · rw [hpc, hirq]
      exact ht.shut

end

/-! ## The scheduler keeps places -/

/-- CPU `c` lets go of its thread -/
def System.vacate (s : System) (c : ℕ) : System := { s with current := s.current.set c none }

theorem dispatch_vacate (s : System) (c : ℕ) (pick : Option ℕ) : (s.vacate c).dispatch c pick = s.dispatch c pick := by
  cases pick with
  | none | some k => simp only [System.dispatch, System.vacate, set_set]

theorem mem_vacate (h : some t ∈ (s.vacate c).current) : some t ∈ s.current := by
  exact mem_of_mem_set_none h

theorem get_vacate {d : ℕ} (h : (s.vacate c).current[d]? = some (some t)) : d ≠ c ∧ s.current[d]? = some (some t) := by
  rcases getElem?_set_cases h with ⟨_, h⟩ | h
  · cases h
  · exact h

theorem dispatch_cases (h : s.dispatch c pick = some s') :
    s' = s.vacate c ∨ ∃ (k : ℕ) (e : ℕ × ℕ) (p : Process), s.queue[k]? = some e ∧ s.procs[e.2]? = some p ∧
      s' = { s with queue := s.queue.eraseIdx k, current := s.current.set c (some e.2) }.set e.2
      { p with state := .running } := by
  cases pick with
  | none =>
    simp only [System.dispatch] at h
    split at h
    · cases h
      exact .inl rfl
    · cases h
  | some k =>
    simp only [System.dispatch, bind_eq_some_iff] at h
    obtain ⟨e, he, p, hp, h⟩ := h
    split at h
    · cases h
      exact .inr ⟨k, e, p, he, hp, rfl⟩
    · cases h

theorem get_occupy {u d : ℕ} (hoff : s.Off u) (h : (s.current.set c (some u))[d]? = some (some t)) :
    d = c ∧ t = u ∨ t ≠ u ∧ s.current[d]? = some (some t) := by
  rcases getElem?_set_cases h with ⟨hd, ht⟩ | ⟨_, h⟩
  · cases ht
    exact .inl ⟨hd, rfl⟩
  · exact .inr ⟨fun ht => hoff (ht ▸ mem_of_getElem? h), h⟩

theorem vacate_idle (h : s.current[c]? = some (some t)) : (s.vacate c).current[c]? = some none :=
  getElem?_set_self (List.getElem?_eq_some_iff.1 h).1

section

variable (hs : Places s)
include hs

theorem Places.queued_eraseIdx {e : ℕ × ℕ} (he : s.queue[k]? = some e)
    (h : ∃ e' ∈ s.queue.eraseIdx k, e'.2 = t) : s.Queued t ∧ t ≠ e.2 := by
  obtain ⟨e', hmem, rfl⟩ := h
  refine ⟨⟨e', (eraseIdx_sublist _ _).subset hmem, rfl⟩, fun heq => ?_⟩
  obtain ⟨m, hne, hm⟩ := mem_eraseIdx_iff_getElem?.1 hmem
  have hm' : (s.queue.map Prod.snd)[m]? = some e.2 := by rw [getElem?_map, hm, map_some, heq]
  have hk' : (s.queue.map Prod.snd)[k]? = some e.2 := by rw [getElem?_map, he, map_some]
  have hlt : m < (s.queue.map Prod.snd).length := (List.getElem?_eq_some_iff.1 hm').1
  exact hne ((getElem?_inj hlt hs.nodup).1 (hm'.trans hk'.symm))

/-- a thread that is nowhere is put on a queue as `p'` -/
theorem Places.enqueue (hp : s.procs[t]? = some p) (hoff : s.Off t) (hq : ¬ s.Queued t) (hr : p'.Ready)
    (hw : p'.waiting = false) : Places ((s.set t p').push c t) := by
  refine hs.change (procs_set_self hp p') (fun _ => procs_set_ne) (fun _ _ _ => hs.inj) (fun _ _ => .rfl) ?_
    (fun u hu h => (queued_push.1 h).resolve_right hu) (fun h => absurd h hoff) (fun _ => hr) ?_ fun h =>
      absurd h hr.notBlock
  · have hnot : t ∉ s.queue.map Prod.snd := fun h => hq (mem_map.1 h)
    simpa [System.push, System.set] using List.Nodup.append hs.nodup (nodup_singleton t) (by simpa using hnot)
  · exact Process.tidy_of_awake hw (by rw [hr.runnable]; nofun) (by rw [hr.runnable]; nofun) hr.notBlock

theorem Places.dispatch (hidle : s.current[c]? = some none) (h : s.dispatch c pick = some s') : Places s' := by
  rcases dispatch_cases h with rfl | ⟨k, e, p, he, hp, rfl⟩
  · have hset : s.current.set c none = s.current := by
      obtain ⟨hlt, hnone⟩ := List.getElem?_eq_some_iff.1 hidle
      rw [← hnone, set_getElem_self hlt]
    rw [System.vacate, hset]
    exact hs
  have hq : s.Queued e.2 := ⟨e, mem_of_getElem? he, rfl⟩
  have hr : p.Ready := hs.ready hq hp
  have hoff : s.Off e.2 := fun hmem => hs.notBoth hmem hq
  have hw : p.waiting = false := (hs.tidy hp).not_waiting (by rw [hr.runnable]; nofun)
  refine hs.change (t := e.2) (procs_set_self (s := { s with queue := _, current := _ }) hp _) (fun _ => procs_set_ne)
    (fun d d' u hd hd' => ?_) (fun u hu => ⟨fun h => ?_, fun h => mem_set_of_ne hidle h nofun⟩)
    (hs.nodup.sublist ((eraseIdx_sublist _ _).map _)) (fun u _ hu => (hs.queued_eraseIdx he hu).1)
    (fun _ => ⟨.running rfl hr.notBlock hr.notLeave, fun hu => (hs.queued_eraseIdx he hu).2 rfl⟩)
    (fun hu => absurd rfl (hs.queued_eraseIdx he hu).2) (Process.tidy_of_awake hw nofun nofun hr.notBlock)
    fun h => absurd h hr.notBlock
  · rcases get_occupy hoff hd with ⟨rfl, rfl⟩ | ⟨hne, hd⟩
    · rcases get_occupy hoff hd' with ⟨rfl, _⟩ | ⟨hne, _⟩
      · rfl
      · exact absurd rfl hne
    · rcases get_occupy hoff hd' with ⟨_, h⟩ | ⟨_, hd'⟩
      · exact absurd h hne
      · exact hs.inj hd hd'
  · rcases mem_or_eq_of_mem_set h with h | h
    · exact h
    · exact absurd (some.inj h) hu

section

variable (hc : s.current[c]? = some (some t))
include hc

theorem Places.off_vacate : (s.vacate c).Off t := by
  intro hmem
  obtain ⟨d, hd⟩ := getElem?_of_mem hmem
  obtain ⟨hne, hd⟩ := get_vacate hd
  exact hne (hs.inj hd hc)

theorem Places.leave (hb : p'.pc ≠ .block) (htidy : p'.Tidy) :
    Places ((s.set t p').vacate c) := by
  have ht : some t ∈ s.current := mem_of_getElem? hc
  obtain ⟨p, hp, _⟩ := hs.onCpu ht
  have hoff : ((s.set t p').vacate c).Off t := hs.off_vacate hc
  refine hs.change (procs_set_self hp p') (fun _ => procs_set_ne) (fun d e u hd he => ?_)
    (fun u hu => ⟨mem_vacate, fun h => ?_⟩)
    hs.nodup (fun _ _ => id) (fun h => absurd h hoff) (fun h => absurd h (hs.notBoth ht)) htidy fun h => absurd h hb
  · exact hs.inj (get_vacate hd).2 (get_vacate he).2
  · exact mem_set_of_ne hc h fun heq => hu (some.inj heq)

theorem Places.schedule_off (hp : s.procs[t]? = some p)
    (hst : p'.state = .blocked ∨ p'.state = .dead) (hb : p'.pc ≠ .block) (htidy : p'.Tidy)
    (h : (s.set t p').schedule c true pick = some s') : ((s.set t p').vacate c).dispatch c pick = some s' ∧ Places s' := by
  have hd : (s.set t p').dispatch c pick = some s' := by
    simp only [System.schedule, set_current, hc, procs_set_self hp, bind_some] at h
    rcases hst with hst | hst
    · simpa only [hst] using h
    · simpa only [hst] using h
  rw [← dispatch_vacate] at hd
  exact ⟨hd, (hs.leave hc hb htidy).dispatch (vacate_idle (s := s.set t p') hc) hd⟩

theorem Places.requeue (hp : s.procs[t]? = some p) (hrun : p.state = .running) :
    Places (((s.set t { p with state := .runnable }).push c t).vacate c) := by
  have hmem : some t ∈ s.current := mem_of_getElem? hc
  have hw : p.waiting = false := (hs.tidy hp).not_waiting (by rw [hrun]; nofun)
  cases hs.at_cpu hmem hp with
  | running _ hb hl =>
    have hleft : Places (s.vacate c) := by
      have := hs.leave hc hb (hs.tidy hp)
      rwa [set_eq_self hp] at this
    exact hleft.enqueue (c := c) hp (hs.off_vacate hc) (hs.notBoth hmem) ⟨rfl, hb, hl⟩ hw
  | blocked h | dead h =>
    rw [hrun] at h
    cases h

end

theorem Places.schedule_cases {expire : Bool}
    (hirq : ∀ t p, s.current[c]? = some (some t) → s.procs[t]? = some p → p.irq = true ∨ p.pc = .run)
    (h : s.schedule c expire pick = some s') :
    s' = s ∨ s.current[c]? = some none ∧ s.dispatch c pick = some s' ∨
      ∃ t p, s.current[c]? = some (some t) ∧ s.procs[t]? = some p ∧
        (p.state = .running ∧ (((s.set t { p with state := .runnable }).push c t).vacate c).dispatch c pick = some s' ∨
          p.state = .dead ∧ s.schedule c true pick = some s') := by
  have h₀ := h
  unfold System.schedule at h
  split at h
  · cases h
  · rename_i hc
    exact .inr (.inl ⟨hc, h⟩)
  · rename_i t hc
    obtain ⟨p, hp, h⟩ := bind_eq_some_iff.1 h
    cases hs.at_cpu (mem_of_getElem? hc) hp with
    | running hst =>
      simp only [hst] at h
      split at h
      · rw [← dispatch_vacate] at h
        exact .inr (.inr ⟨t, p, hc, hp, .inl ⟨hst, h⟩⟩)
      · cases h
        exact .inl rfl
    | blocked _ hb =>
      -- interrupts are off between the link and the call of the scheduler
      rcases hirq t p hc hp with hon | hrun
      · rw [(hs.tidy hp).shut hb] at hon
        cases hon
      · rw [hb] at hrun
        cases hrun
    | dead hst =>
      refine .inr (.inr ⟨t, p, hc, hp, .inr ⟨hst, ?_⟩⟩)
      simp only [System.schedule, hc, hp, bind_some, hst] at h₀ ⊢
      exact h₀

end

/-! ## What a pointer may point to -/

/-- a process whose entry is in the ptable -/
def System.Live (s : System) (j : ℕ) : Prop := ∃ q, s.procs[j]? = some q ∧ q.listed = true ∧ q.freed = false

/-- a child of `i` that can be reaped -/
def System.Reapable (s : System) (i j : ℕ) : Prop :=
  ∃ q, s.procs[j]? = some q ∧ q.parent = some i ∧ q.state = .dead ∧ q.freed = false ∧ s.Off j

def System.Child (s : System) (i j : ℕ) : Prop := ∃ q, s.procs[j]? = some q ∧ q.parent = some i

structure Pointers (s : System) : Prop where
  held : ∀ {i j : ℕ} {p : Process}, s.procs[i]? = some p → p.pc.holds = some j → s.Live j
  looked : ∀ {i j : ℕ} {p : Process}, s.procs[i]? = some p → p.pc = .look j → s.Child i j
  reaped : ∀ {i j : ℕ} {p : Process}, s.procs[i]? = some p → p.pc.reaps = some j → s.Reapable i j
  freeing : ∀ {i j : ℕ} {p : Process}, s.procs[i]? = some p → p.pc = .free j → s.listed j = false
  gone : ∀ {j : ℕ} {q : Process}, s.procs[j]? = some q → q.freed = true → q.listed = false
  safe : Safe s

theorem use_of_live (h : s.Live j) : s.use j = s := by
  obtain ⟨q, hq, _, hf⟩ := h
  simp [System.use, hq, hf]

theorem Pointers.live_of_listed (hs : Pointers s) (h : s.listed j = true) : s.Live j := by
  obtain ⟨q, hq, hl⟩ := (any_eq_true _ _).1 h
  refine ⟨q, hq, hl, Bool.eq_false_iff.2 fun hf => ?_⟩
  rw [hs.gone hq hf] at hl
  cases hl

/-- what process `i` relies on at `pc` -/
structure System.Grounded (s : System) (i : ℕ) (pc : Pc) : Prop where
  held : ∀ j, pc.holds = some j → s.Live j
  looked : ∀ j, pc = .look j → s.Child i j
  reaped : ∀ j, pc.reaps = some j → s.Reapable i j
  freeing : ∀ j, pc = .free j → s.listed j = false

theorem Pointers.grounded (hs : Pointers s) (hp : s.procs[i]? = some p) : s.Grounded i p.pc :=
  ⟨fun _ => hs.held hp, fun _ => hs.looked hp, fun _ => hs.reaped hp, fun _ => hs.freeing hp⟩

theorem pointers_of_grounded (h : ∀ (i : ℕ) (p : Process), s.procs[i]? = some p → s.Grounded i p.pc)
    (hgone : ∀ (j : ℕ) (q : Process), s.procs[j]? = some q → q.freed = true → q.listed = false) (hsafe : Safe s) :
    Pointers s :=
  ⟨fun hp => (h _ _ hp).held _, fun hp => (h _ _ hp).looked _, fun hp => (h _ _ hp).reaped _,
    fun hp => (h _ _ hp).freeing _,
    hgone _ _, hsafe⟩

theorem grounded_idle (hh : pc.holds = none) (hr : pc.reaps = none) : s.Grounded i pc := by
  refine ⟨fun j hj => ?_, fun j hj => ?_, fun j hj => ?_, fun j hj => ?_⟩
  · rw [hh] at hj
    cases hj
  · rw [hj] at hh
    cases hh
  · rw [hr] at hj
    cases hj
  · rw [hj] at hr
    cases hr

theorem System.Grounded.mono (h : s.Grounded i pc) (hlive : ∀ j, pc.holds = some j → s.Live j → s'.Live j)
    (hchild : ∀ j, pc.holds = some j → s.Child i j → s'.Child i j)
    (hreap : ∀ j, pc.reaps = some j → s.Reapable i j → s'.Reapable i j)
    (hlist : ∀ j, pc.reaps = some j → s.listed j = false → s'.listed j = false) : s'.Grounded i pc :=
  ⟨fun j hj => hlive j hj (h.held j hj), fun j hj => hchild j (by rw [hj]; rfl) (h.looked j hj),
    fun j hj => hreap j hj (h.reaped j hj), fun j hj => hlist j (by rw [hj]; rfl) (h.freeing j hj)⟩

/-- the fields of a process that pointers to it depend on stay -/
structure Process.Kept (p p' : Process) : Prop where
  parent : p'.parent = p.parent
  listed : p'.listed = p.listed
  freed : p'.freed = p.freed
  dead : p.state = .dead → p'.state = .dead

section
variable (hp : s.procs[i]? = some p) (hk : p.Kept p')
include hp hk

theorem kept_set (hq : s.procs[j]? = some q) : ∃ q', (s.set i p').procs[j]? = some q' ∧ q.Kept q' := by
  by_cases hj : j = i
  · subst hj
    cases hp.symm.trans hq
    exact ⟨p', procs_set_self hp p', hk⟩
  · exact ⟨q, (procs_set_ne hj).trans hq, rfl, rfl, rfl, id⟩

theorem listed_set (j : ℕ) : (s.set i p').listed j = s.listed j := by
  by_cases hj : j = i
  · subst hj
    simp [System.listed, procs_set_self hp, hp, hk.listed]
  · rw [System.listed, procs_set_ne hj, System.listed]

theorem Pointers.set (hs : Pointers s) (hg : s.Grounded i p'.pc) : Pointers (s.set i p') := by
  refine pointers_of_grounded (fun k q hq => ?_) (fun j q hq h => ?_) hs.safe
  · have hgk : s.Grounded k q.pc := by
      rcases procs_set hq with ⟨rfl, rfl⟩ | ⟨_, hq⟩
      · exact hg
      · exact hs.grounded hq
    refine hgk.mono (fun j _ h => ?_) (fun j _ h => ?_) (fun j _ h => ?_) fun j _ h => (listed_set hp hk j).trans h
    · obtain ⟨r, hr, hl, hf⟩ := h
      obtain ⟨r', hr', hkr⟩ := kept_set hp hk hr
      exact ⟨r', hr', hkr.listed.trans hl, hkr.freed.trans hf⟩
    · obtain ⟨r, hr, hpar⟩ := h
      obtain ⟨r', hr', hkr⟩ := kept_set hp hk hr
      exact ⟨r', hr', hkr.parent.trans hpar⟩
    · obtain ⟨r, hr, hpar, hd, hf, hoff⟩ := h
      obtain ⟨r', hr', hkr⟩ := kept_set hp hk hr
      exact ⟨r', hr', hkr.parent.trans hpar, hkr.dead hd, hkr.freed.trans hf, hoff⟩
  · rcases procs_set hq with ⟨_, rfl⟩ | ⟨_, hq⟩
    · rw [hk.listed]
      exact hs.gone hp (hk.freed ▸ h)
    · exact hs.gone hq h

theorem Pointers.set_same (hs : Pointers s) (hpc : p'.pc = p.pc) : Pointers (s.set i p') := by
  refine hs.set hp hk ?_
  rw [hpc]
  exact hs.grounded hp

end

theorem Pointers.moved (hs : Pointers s) (hprocs : s'.procs = s.procs) (hsafe : Safe s')
    (hoff : ∀ j q, s.procs[j]? = some q → q.state = .dead → s.Off j → s'.Off j) : Pointers s' := by
  refine pointers_of_grounded (fun k q hq => ?_) (fun j q hq => hs.gone (hprocs ▸ hq)) hsafe
  rw [hprocs] at hq
  refine (hs.grounded hq).mono (fun j _ h => ?_) (fun j _ h => ?_) (fun j _ h => ?_) fun j _ h => ?_
  · rwa [System.Live, hprocs]
  · rwa [System.Child, hprocs]
  · obtain ⟨r, hr, hpar, hd, hf, ho⟩ := h
    exact ⟨r, hprocs ▸ hr, hpar, hd, hf, hoff j r hr hd ho⟩
  · rwa [System.listed, hprocs]

theorem Pointers.vacate (hs : Pointers s) (c : ℕ) : Pointers (s.vacate c) :=
  hs.moved rfl hs.safe fun _ _ _ _ ho hmem => ho (mem_vacate hmem)

theorem Pointers.push (hs : Pointers s) (c t : ℕ) : Pointers (s.push c t) :=
  hs.moved rfl hs.safe fun _ _ _ _ ho => ho

theorem Pointers.dispatch (hs : Pointers s) (hpl : Places s) (h : s.dispatch c pick = some s') : Pointers s' := by
  rcases dispatch_cases h with rfl | ⟨k, e, p, he, hp, rfl⟩
  · exact hs.vacate c
  have hr : p.Ready := hpl.ready ⟨e, mem_of_getElem? he, rfl⟩ hp
  have hnot : p.state ≠ .dead := by
    rw [hr.runnable]
    nofun
  have hmoved : Pointers { s with queue := s.queue.eraseIdx k, current := s.current.set c (some e.2) } := by
    refine hs.moved rfl hs.safe fun j q hq hd ho hmem => ?_
    rcases mem_or_eq_of_mem_set hmem with hmem | hmem
    · exact ho hmem
    · cases hmem
      cases hp.symm.trans hq
      exact hnot hd
  exact hmoved.set_same hp ⟨rfl, rfl, rfl, fun hd => absurd hd hnot⟩ rfl

/-- an entry that nobody points to is taken out of the table, and its process freed when nobody reaps it -/
theorem Pointers.forget {q' : Process} (hs : Pointers s) (hq : s.procs[j]? = some q) (hpc : q'.pc = q.pc)
    (hpar : q'.parent = q.parent) (hst : q'.state = q.state) (hl : q'.listed = false)
    (hheld : ∀ (k : ℕ) (p : Process), s.procs[k]? = some p → p.pc.holds ≠ some j)
    (hreap : q'.freed = q.freed ∨ ∀ (k : ℕ) (p : Process), s.procs[k]? = some p → p.pc.reaps ≠ some j) :
    Pointers (s.set j q') := by
  refine pointers_of_grounded (fun i p hp => ?_) (fun k p hp h => ?_) hs.safe
  · -- every process is where it was
    obtain ⟨p₀, hp₀, hpc₀⟩ : ∃ p₀, s.procs[i]? = some p₀ ∧ p.pc = p₀.pc := by
      rcases procs_set hp with ⟨rfl, rfl⟩ | ⟨_, hp⟩
      · exact ⟨q, hq, hpc⟩
      · exact ⟨p, hp, rfl⟩
    rw [hpc₀]
    have hne : ∀ k, p₀.pc.holds = some k → k ≠ j := fun k h hk => hheld i p₀ hp₀ (hk ▸ h)
    refine (hs.grounded hp₀).mono (fun k hk h => ?_) (fun k hk h => ?_) (fun k hk h => ?_) fun k _ h => ?_
    · rwa [System.Live, procs_set_ne (hne k hk)]
    · rwa [System.Child, procs_set_ne (hne k hk)]
    · by_cases hkj : k = j
      · subst hkj
        obtain ⟨r, hr, hrpar, hd, hf, hoff⟩ := h
        cases hq.symm.trans hr
        refine ⟨q', procs_set_self hq q', hpar.trans hrpar, hst.trans hd, ?_, hoff⟩
        rcases hreap with hfr | hnone
        · exact hfr.trans hf
        · exact absurd hk (hnone i p₀ hp₀)
      · rwa [System.Reapable, procs_set_ne hkj]
    · by_cases hkj : k = j
      · subst hkj
        simp [System.listed, procs_set_self hq, hl]
      · rwa [System.listed, procs_set_ne hkj]
  · rcases procs_set hp with ⟨_, rfl⟩ | ⟨_, hp⟩
    · exact hl
    · exact hs.gone hp h

theorem set_comm (s : System) (h : i ≠ j) (p q : Process) : (s.set i p).set j q = (s.set j q).set i p := by
  simp [System.set, List.set_comm _ _ h]

theorem set_set (s : System) (i : ℕ) (p p' : Process) : (s.set i p).set i p' = s.set i p' := by
  simp [System.set]

theorem ne_of_reapable (hi : some i ∈ s.current) (h : s.Reapable i j) : i ≠ j := by
  obtain ⟨_, _, _, _, _, hoff⟩ := h
  intro hij
  exact hoff (hij ▸ hi)

theorem Pointers.unlink (hs : Pointers s) (hp : s.procs[i]? = some p) (hreap : s.Reapable i j) (hi : some i ∈ s.current)
    (hq : s.procs[j]? = some q) (hun : s.Unheld i j) :
    Pointers ((s.set j { q with listed := false }).set i { p with pc := .free j }) := by
  have hij := ne_of_reapable hi hreap
  -- `i` lets go of its own pointer first, then nobody holds one
  let p₁ : Process := { p with pc := .reapFind j }
  have hq₁ : (s.set i p₁).procs[j]? = some q := (procs_set_ne hij.symm).trans hq
  have h₁ : Pointers (s.set i p₁) := by
    refine hs.set hp ⟨rfl, rfl, rfl, id⟩ ⟨nofun, nofun, fun k hk => ?_, nofun⟩
    cases hk
    exact hreap
  have h₂ : Pointers ((s.set i p₁).set j { q with listed := false }) := by
    refine h₁.forget hq₁ rfl rfl rfl rfl (fun k r hr => ?_) (.inl rfl)
    rcases procs_set hr with ⟨_, rfl⟩ | ⟨hk, hr⟩
    · nofun
    · exact hun k (List.getElem?_eq_some_iff.1 hr).1 hk r hr
  rw [set_comm _ hij] at h₂
  have hp₂ : ((s.set j { q with listed := false }).set i p₁).procs[i]? = some p₁ :=
    procs_set_self (s := s.set j _) ((procs_set_ne hij).trans hp) p₁
  have hlist : ((s.set j { q with listed := false }).set i p₁).listed j = false := by
    rw [System.listed, procs_set_ne hij.symm, procs_set_self hq]
    rfl
  have h₃ : Pointers (((s.set j { q with listed := false }).set i p₁).set i { p with pc := .free j }) := by
    refine h₂.set hp₂ ⟨rfl, rfl, rfl, id⟩ ⟨nofun, nofun, fun k hk => h₂.reaped hp₂ hk, fun k hk => ?_⟩
    cases hk
    exact hlist
  rwa [set_set] at h₃

theorem Pointers.free (hs : Pointers s) (hp : s.procs[i]? = some p) (hpc : p.pc = .free j) (hi : some i ∈ s.current)
    (hq : s.procs[j]? = some q) : Pointers ((s.set j { q with freed := true }).set i { p with pc := .run }) := by
  have hreap : s.Reapable i j := hs.reaped hp (by rw [hpc]; rfl)
  have hij := ne_of_reapable hi hreap
  have hlist : q.listed = false := by simpa [System.listed, hq] using hs.freeing hp hpc
  have h₁ : Pointers (s.set i { p with pc := .run }) := hs.set hp ⟨rfl, rfl, rfl, id⟩ (grounded_idle rfl rfl)
  have hq₁ : (s.set i { p with pc := .run }).procs[j]? = some q := (procs_set_ne hij.symm).trans hq
  rw [← set_comm _ hij]
  refine h₁.forget hq₁ rfl rfl rfl hlist (fun k r hr hk => ?_) (.inr fun k r hr hk => ?_)
  · obtain ⟨q', hq', hl, _⟩ := h₁.held hr hk
    cases hq₁.symm.trans hq'
    rw [hlist] at hl
    cases hl
  · -- a second reaper would be the parent as well
    rcases procs_set hr with ⟨_, rfl⟩ | ⟨hne, hr⟩
    · cases hk
    · obtain ⟨q₁, hq₁, hpar₁, _⟩ := hs.reaped hr hk
      obtain ⟨q₂, hq₂, hpar₂, _⟩ := hreap
      cases hq₁.symm.trans hq₂
      rw [hpar₁] at hpar₂
      exact hne (some.inj hpar₂)

/-! ## One step -/

/-- process `i` changes a field of `j` that places do not depend on, and goes on -/
theorem Places.set_two (hpl : Places (s.set j q)) (hi : some i ∈ s.current) (hp : s.procs[i]? = some p)
    (hrun : p.state = .running) (hij : i ≠ j) (hb : pc ≠ .block) (hl : pc ≠ .leave) :
    Places ((s.set j q).set i { p with pc := pc }) :=
  hpl.set_running hi ((procs_set_ne hij).trans hp) hrun hrun hb hl rfl

structure Inv (s : System) : Prop where
  places : Places s
  pointers : Pointers s

section

variable (hs : Inv s)
include hs

theorem Inv.not_early (h : s.Reapable i j) : ¬ (¬ s.Off j ∨ s.Queued j) := by
  obtain ⟨q, hq, _, hd, _, hoff⟩ := h
  rintro (hon | hqueued)
  · exact hon hoff
  · rw [(hs.places.ready hqueued hq).runnable] at hd
    cases hd

section

variable (hp : s.procs[i]? = some p)
include hp

theorem Inv.go (hi : some i ∈ s.current) (hrun : p.state = .running) {zombie irq : Bool} (hb : pc ≠ .block)
    (hl : pc ≠ .leave) (hg : s.Grounded i pc) : Inv (s.set i { p with pc := pc, zombie := zombie, irq := irq }) :=
  ⟨hs.places.set_running hi hp hrun hrun hb hl rfl, hs.pointers.set hp ⟨rfl, rfl, rfl, id⟩ hg⟩

variable (hc : s.current[c]? = some (some i))
include hc

theorem Inv.schedule_off (hk : p.Kept p')
    (hst : p'.state = .blocked ∨ p'.state = .dead) (hb : p'.pc ≠ .block) (htidy : p'.Tidy) (hg : s.Grounded i p'.pc)
    (h : (s.set i p').schedule c true pick = some s') : Inv s' := by
  obtain ⟨hd, hpl⟩ := hs.places.schedule_off hc hp hst hb htidy h
  have hptr : Pointers ((s.set i p').vacate c) := (hs.pointers.set hp hk hg).vacate c
  exact ⟨hpl, hptr.dispatch (hs.places.leave hc hb htidy) hd⟩

theorem Inv.schedule_dead (hd : p.state = .dead) (h : s.schedule c true pick = some s') : Inv s' := by
  have htidy := hs.places.tidy hp
  have hb : p.pc ≠ .block := by
    rw [htidy.ends hd]
    nofun
  rw [← set_eq_self hp] at h
  exact hs.schedule_off hp hc ⟨rfl, rfl, rfl, id⟩ (.inr hd) hb htidy (hs.pointers.grounded hp) h

theorem Inv.advance_block (hpc : p.pc = .block) (h : s.advance c i p pick = some s') : Inv s' := by
  simp only [System.advance, hpc] at h
  have hst : p.state = .blocked := by
    cases hs.places.at_cpu (mem_of_getElem? hc) hp with
    | running _ hb => exact absurd hpc hb
    | blocked hst => exact hst
    | dead _ hl =>
      rw [hpc] at hl
      cases hl
  have hkept : p.Kept { p with pc := .woken } := ⟨rfl, rfl, rfl, id⟩
  refine hs.schedule_off hp hc hkept (.inl hst) nofun ⟨(hs.places.tidy hp).waits, fun _ => .inr rfl, ?_, nofun⟩
    (grounded_idle rfl rfl) h
  intro hd
  rw [hst] at hd
  cases hd

theorem Inv.advance_leave (hpc : p.pc = .leave) (h : s.advance c i p pick = some s') : Inv s' := by
  simp only [System.advance, hpc] at h
  cases hs.places.at_cpu (mem_of_getElem? hc) hp with
  | running _ _ hl => exact absurd hpc hl
  | blocked _ hb =>
    rw [hpc] at hb
    cases hb
  | dead hst => exact hs.schedule_dead hp hc hst h

theorem Inv.advance (hahead : s.Ahead i p.pc)
    (h : s.advance c i p pick = some s') : Inv s' := by
  have hi : some i ∈ s.current := mem_of_getElem? hc
  by_cases hb : p.pc = .block
  · exact hs.advance_block hp hc hb h
  by_cases hl : p.pc = .leave
  · exact hs.advance_leave hp hc hl h
  have hst : p.state = .running := (hs.places.at_cpu hi hp).state_running hb hl
  have hg := hs.pointers.grounded hp
  unfold System.advance at h
  generalize hpc : p.pc = pc at h hg hahead hb hl
  cases pc with
  | run => cases h
  | woken | close =>
    cases h
    exact hs.go hp hi hst nofun nofun (grounded_idle rfl rfl)
  | block => exact absurd rfl hb
  | findParent =>
    cases h
    split
    · split
      · rename_i k hk hl
        refine hs.go hp hi hst nofun nofun ⟨fun j hj => ?_, nofun, nofun, nofun⟩
        cases hj
        exact hs.pointers.live_of_listed hl
      · exact hs.go hp hi hst nofun nofun (grounded_idle rfl rfl)
    · exact hs.go hp hi hst nofun nofun (grounded_idle rfl rfl)
  | notify j left =>
    have hj : s.Live j := hg.held j rfl
    simp only [use_of_live hj] at h
    cases h
    split
    · exact hs.go hp hi hst nofun nofun (grounded_idle rfl rfl)
    · refine hs.go hp hi hst nofun nofun ⟨fun k hk => ?_, nofun, nofun, nofun⟩
      cases hk
      exact hj
  | die =>
    cases h
    have hw : p.waiting = false := (hs.places.tidy hp).not_waiting (by rw [hst]; nofun)
    refine ⟨hs.places.set_at_cpu hi (.dead rfl rfl) ⟨fun h => ?_, nofun, fun _ => rfl, nofun⟩,
      hs.pointers.set hp ⟨rfl, rfl, rfl, fun _ => rfl⟩ (grounded_idle rfl rfl)⟩
    exact absurd (hw.symm.trans h) Bool.false_ne_true
  | leave => exact absurd rfl hl
  | look j =>
    simp only [use_of_live (hg.held j rfl)] at h
    cases h
    split
    · rename_i hz
      obtain ⟨q, hq, hz⟩ := (any_eq_true _ _).1 hz
      obtain ⟨hdead, hoff⟩ := hahead q hq hz
      refine hs.go hp hi hst nofun nofun ⟨nofun, nofun, fun k hk => ?_, nofun⟩
      cases hk
      obtain ⟨q₁, hq₁, _, hf⟩ := hg.held j rfl
      obtain ⟨q₂, hq₂, hpar⟩ := hg.looked j rfl
      cases hq.symm.trans hq₁
      cases hq.symm.trans hq₂
      exact ⟨q, hq, hpar, hdead, hf, hoff⟩
    · exact hs.go hp hi hst nofun nofun (grounded_idle rfl rfl)
  | reapFind j =>
    cases h
    split
    · rename_i hl
      refine hs.go hp hi hst nofun nofun ⟨fun k hk => ?_, nofun, fun k hk => hg.reaped k hk, nofun⟩
      cases hk
      exact hs.pointers.live_of_listed hl
    · exact hs.go hp hi hst nofun nofun (grounded_idle rfl rfl)
  | reapRead j =>
    simp only [use_of_live (hg.held j rfl)] at h
    cases h
    exact hs.go hp hi hst nofun nofun ⟨fun k hk => hg.held k hk, nofun, fun k hk => hg.reaped k hk, nofun⟩
  | unlink j =>
    obtain ⟨q, hq, rfl⟩ := map_eq_some_iff.1 h
    have hreap : s.Reapable i j := hg.reaped j rfl
    refine ⟨?_, hs.pointers.unlink hp hreap hi hq hahead⟩
    refine Places.set_two ?_ hi hp hst (ne_of_reapable hi hreap) nofun nofun
    exact hs.places.set_other hq rfl rfl rfl rfl
  | free j =>
    obtain ⟨q, hq, rfl⟩ := map_eq_some_iff.1 h
    have hreap : s.Reapable i j := hg.reaped j rfl
    rw [decide_eq_false (hs.not_early hreap), Bool.or_false]
    refine ⟨?_, hs.pointers.free hp hpc hi hq⟩
    refine Places.set_two ?_ hi hp hst (ne_of_reapable hi hreap) nofun nofun
    exact hs.places.set_other hq rfl rfl rfl rfl
  | kill j =>
    simp only [use_of_live (hg.held j rfl)] at h
    cases h
    exact hs.go hp hi hst nofun nofun (grounded_idle rfl rfl)

end

theorem Inv.schedule {expire : Bool}
    (hirq : ∀ t p, s.current[c]? = some (some t) → s.procs[t]? = some p → p.irq = true ∨ p.pc = .run)
    (h : s.schedule c expire pick = some s') : Inv s' := by
  rcases hs.places.schedule_cases hirq h with rfl | ⟨hidle, h⟩ | ⟨t, p, hc, hp, ⟨hrun, h⟩ | ⟨hdead, h⟩⟩
  · exact hs
  · exact ⟨hs.places.dispatch hidle h, hs.pointers.dispatch hs.places h⟩
  · have hpl := hs.places.requeue hc hp hrun
    have hset : Pointers (s.set t { p with state := .runnable }) := by
      refine hs.pointers.set_same hp ⟨rfl, rfl, rfl, fun hd => ?_⟩ rfl
      rw [hrun] at hd
      cases hd
    have hptr := (hset.push c t).vacate c
    have hidle := vacate_idle (s := (s.set t { p with state := .runnable }).push c t) hc
    exact ⟨hpl.dispatch hidle h, hptr.dispatch hpl h⟩
  · exact hs.schedule_dead hp hc hdead h

end

/-! ### Fork -/

def System.add (s : System) (p : Process) : System := { s with procs := s.procs ++ [p] }

theorem procs_add_ne (p : Process) (hk : k ≠ s.procs.length) : (s.add p).procs[k]? = s.procs[k]? := by
  rcases Nat.lt_or_gt_of_ne hk with hlt | hgt
  · exact getElem?_append_left hlt
  · rw [getElem?_eq_none (Nat.le_of_lt hgt), System.add, getElem?_eq_none (by simpa using hgt)]

theorem add_procs (p : Process) (h : s.procs[k]? = some q) : (s.add p).procs[k]? = some q :=
  (procs_add_ne p (List.getElem?_eq_some_iff.1 h).1.ne).trans h

theorem exists_add (p : Process) {P : Process → Prop} (h : ∃ q, s.procs[k]? = some q ∧ P q) :
    ∃ q, (s.add p).procs[k]? = some q ∧ P q :=
  h.imp fun _ => And.imp_left (add_procs p)

theorem Pointers.add (hs : Pointers s) (hpc : p.pc = .run) (hf : p.freed = false) : Pointers (s.add p) := by
  have hnew : (s.add p).procs[s.procs.length]? = some p := getElem?_concat_length
  refine pointers_of_grounded (fun i q hq => ?_) (fun j q hq h => ?_) hs.safe
  · by_cases hi : i = s.procs.length
    · subst hi
      cases hnew.symm.trans hq
      rw [hpc]
      exact grounded_idle rfl rfl
    · rw [procs_add_ne p hi] at hq
      have hg := hs.grounded hq
      refine hg.mono (fun _ _ => exists_add p) (fun _ _ => exists_add p) (fun _ _ => exists_add p) fun j hj h => ?_
      obtain ⟨r, hr, _⟩ := hg.reaped j hj
      rwa [System.listed, add_procs p hr, ← hr]
  · by_cases hj : j = s.procs.length
    · subst hj
      cases hnew.symm.trans hq
      rw [hf] at h
      cases h
    · rw [procs_add_ne p hj] at hq
      exact hs.gone hq h

theorem Inv.fork (hs : Inv s) (i c : ℕ) : Inv ((s.add (Process.new (some i) .runnable)).push c s.procs.length) := by
  have hnew : (s.add (Process.new (some i) .runnable)).procs[s.procs.length]? = some (Process.new (some i) .runnable) :=
    getElem?_concat_length
  have hnone : s.procs[s.procs.length]? = none := getElem?_eq_none le_rfl
  have hptr : Pointers (s.add (Process.new (some i) .runnable)) := hs.pointers.add rfl rfl
  have hoff : s.Off s.procs.length := by
    intro hmem
    obtain ⟨q, hq, _⟩ := hs.places.onCpu hmem
    cases hnone.symm.trans hq
  have hq : ¬ s.Queued s.procs.length := by
    intro hmem
    obtain ⟨q, hq, _⟩ := hs.places.queued hmem
    cases hnone.symm.trans hq
  have htidy : (Process.new (some i) .runnable).Tidy := ⟨nofun, nofun, nofun, nofun⟩
  have hpl : Places (s.add (Process.new (some i) .runnable)) :=
    hs.places.change hnew (fun _ => procs_add_ne _) (fun _ _ _ => hs.places.inj) (fun _ _ => .rfl) hs.places.nodup
      (fun _ _ => id)
      (fun h => absurd h hoff) (fun h => absurd h hq) htidy nofun
  have hready : (Process.new (some i) .runnable).Ready := ⟨rfl, nofun, nofun⟩
  have hpush := hpl.enqueue (c := c) hnew hoff hq hready rfl
  rw [set_eq_self hnew] at hpush
  exact ⟨hpush, hptr.push c _⟩

theorem Inv.wake (hs : Inv s) (hp : s.procs[t]? = some p) (hw : p.waiting = true) (hoff : s.Off t) :
    Inv ((s.set t { p with state := .runnable, waiting := false }).push c t) := by
  have htidy := hs.places.tidy hp
  have hst : p.state = .blocked := htidy.waits hw
  have hb : p.pc ≠ .block := fun h => hoff (hs.places.blocking hp h)
  have hl : p.pc ≠ .leave := by
    rw [(htidy.sleeps hst).resolve_left hb]
    nofun
  have hq : ¬ s.Queued t := by
    intro h
    cases hst.symm.trans (hs.places.ready h hp).runnable
  refine ⟨hs.places.enqueue hp hoff hq ⟨rfl, hb, hl⟩ rfl, Pointers.push ?_ c t⟩
  refine hs.pointers.set_same hp ⟨rfl, rfl, rfl, fun hd => ?_⟩ rfl
  rw [hst] at hd
  cases hd

theorem Inv.migrate {e : ℕ × ℕ} (hs : Inv s) (he : s.queue[k]? = some e) :
    Inv { s with queue := s.queue.set k (c, e.2) } := by
  have hmap : (s.queue.set k (c, e.2)).map Prod.snd = s.queue.map Prod.snd := by
    obtain ⟨hlt, rfl⟩ := List.getElem?_eq_some_iff.1 he
    rw [map_set, ← getElem_map Prod.snd (h := by rwa [length_map]), set_getElem_self]
  have hq : ∀ t, ({ s with queue := s.queue.set k (c, e.2) } : System).Queued t ↔ s.Queued t := by
    intro t
    have hmem : ∀ l : List (ℕ × ℕ), (∃ e ∈ l, e.2 = t) ↔ t ∈ l.map Prod.snd := fun l => mem_map.symm
    rw [System.Queued, System.Queued, hmem, hmem, hmap]
  have hpl := hs.places
  refine ⟨⟨hpl.inj, fun {t} ht h => hpl.notBoth ht ((hq t).1 h), ?_, fun {t} h => hpl.queued ((hq t).1 h), hpl.onCpu,
    hpl.tidy, hpl.blocking⟩, hs.pointers.moved rfl hs.pointers.safe fun _ _ _ _ h => h⟩
  rw [hmap]
  exact hpl.nodup

/-- an action of the process that runs on CPU `c` -/
theorem Inv.starts {G : ℕ × Process → Prop} [DecidablePred G] {f : ℕ × Process → System} (hs : Inv s)
    (h : ((s.on c).bind fun x => if G x then some (f x) else none) = some s') (hG : ∀ x, G x → x.2.pc = .run) :
    ∃ i p, G (i, p) ∧ some i ∈ s.current ∧ s.procs[i]? = some p ∧ p.state = .running ∧ f (i, p) = s' := by
  obtain ⟨⟨i, p⟩, hon, h⟩ := bind_eq_some_iff.1 h
  obtain ⟨hg, h⟩ := ite_none_right_eq_some.1 h
  obtain ⟨hc, hp⟩ := on_eq_some.1 hon
  have hi : some i ∈ s.current := mem_of_getElem? hc
  have hpc : p.pc = .run := hG _ hg
  refine ⟨i, p, hg, hi, hp, (hs.places.at_cpu hi hp).state_running ?_ ?_, some.inj h⟩
  · rw [hpc]
    nofun
  · rw [hpc]
    nofun

/-- **One step.** -/
theorem inv_step {a : Act} (hs : Inv s) (hok : StepOk s a) (h : step s a = some s') : Inv s' := by
  cases a with
  | fork c =>
    obtain ⟨i, p, -, -, -, -, rfl⟩ := hs.starts h fun _ => id
    exact hs.fork i 0
  | block c =>
    obtain ⟨i, p, hpc, hi, hp, hst, rfl⟩ := hs.starts h fun _ => id
    refine ⟨hs.places.set_at_cpu hi (.blocked rfl rfl) ⟨fun _ => rfl, fun _ => .inl rfl, nofun, fun _ => rfl⟩, ?_⟩
    refine hs.pointers.set hp ⟨rfl, rfl, rfl, fun hd => ?_⟩ (grounded_idle rfl rfl)
    rw [hst] at hd
    cases hd
  | exit c =>
    obtain ⟨i, p, hpc, hi, hp, hst, rfl⟩ := hs.starts h fun _ => id
    exact hs.go hp hi hst nofun nofun (grounded_idle rfl rfl)
  | wait4 c child =>
    obtain ⟨i, p, ⟨hpc, hchild, hl⟩, hi, hp, hst, rfl⟩ := hs.starts h fun _ => And.left
    refine hs.go hp hi hst nofun nofun ⟨fun j hj => ?_, fun j hj => ?_, nofun, nofun⟩
    · cases hj
      exact hs.pointers.live_of_listed hl
    · cases hj
      obtain ⟨q, hq, hpar⟩ := (any_eq_true _ _).1 hchild
      exact ⟨q, hq, of_decide_eq_true hpar⟩
  | kill c target =>
    obtain ⟨i, p, ⟨hpc, hl⟩, hi, hp, hst, rfl⟩ := hs.starts h fun _ => And.left
    refine hs.go hp hi hst nofun nofun ⟨fun j hj => ?_, nofun, nofun, nofun⟩
    cases hj
    exact hs.pointers.live_of_listed hl
  | irq c on =>
    obtain ⟨i, p, hpc, hi, hp, hst, rfl⟩ := hs.starts h fun _ => id
    exact hs.go hp hi hst (by rw [hpc]; nofun) (by rw [hpc]; nofun) (hs.pointers.grounded hp)
  | step c pick =>
    obtain ⟨⟨i, p⟩, hon, h⟩ := bind_eq_some_iff.1 h
    obtain ⟨hc, hp⟩ := on_eq_some.1 hon
    exact hs.advance hp hc (hok (i, p) hon) h
  | resched c expire pick =>
    obtain ⟨hguard, h⟩ := ite_none_right_eq_some.1 h
    refine hs.schedule (fun t p hc hp => ?_) h
    rw [on_eq_some.2 ⟨hc, hp⟩] at hguard
    simpa using hguard
  | wake t =>
    obtain ⟨p, hp, h⟩ := bind_eq_some_iff.1 h
    obtain ⟨hw, h⟩ := ite_none_right_eq_some.1 h
    cases h
    exact hs.wake hp hw hok
  | migrate k c =>
    obtain ⟨e, he, rfl⟩ := map_eq_some_iff.1 h
    exact hs.migrate he

/-! ## Runs -/

theorem inv_new (cpus : ℕ) : Inv (System.new cpus) := by
  have hcur : ∀ {c t : ℕ}, (System.new cpus).current[c]? = some (some t) → c = 0 ∧ t = 0 := by
    intro c t h
    cases c with
    | zero =>
      cases h
      exact ⟨rfl, rfl⟩
    | succ c =>
      have := eq_of_mem_replicate (mem_of_getElem? h)
      cases this
  have hproc : ∀ {i : ℕ} {p : Process}, (System.new cpus).procs[i]? = some p → p = Process.new none .running := by
    intro i p h
    exact mem_singleton.1 (mem_of_getElem? h)
  refine ⟨⟨fun hc hd => (hcur hc).1.trans (hcur hd).1.symm, fun _ h => ?_, nodup_nil, fun h => ?_, fun {t} h => ?_,
    fun h => ?_, fun h hb => ?_⟩, pointers_of_grounded (fun i p h => ?_) (fun j q h hf => ?_) ⟨rfl, rfl⟩⟩
  · obtain ⟨e, he, _⟩ := h
    cases he
  · obtain ⟨e, he, _⟩ := h
    cases he
  · obtain ⟨c, hc⟩ := getElem?_of_mem h
    obtain ⟨_, rfl⟩ := hcur hc
    exact ⟨_, rfl, .running rfl nofun nofun⟩
  · rw [hproc h]
    exact ⟨nofun, nofun, nofun, nofun⟩
  · rw [hproc h] at hb
    cases hb
  · rw [hproc h]
    exact grounded_idle rfl rfl
  · rw [hproc h] at hf
    cases hf

/-- **Reaping is safe when every zombie has stopped.** On any number of CPUs, in every run in which a zombie is found
only when its thread is Dead and off its CPU, an entry is removed only when nobody else holds its pointer, and a wake
finds its thread switched out, nothing is freed that runs or is queued, and no pointer is used after its process is
freed. -/
theorem reap_safe_run {cpus : ℕ} {as : List Act} {s : System} (hrun : run (System.new cpus) as = some s)
    (hok : Meets step StepOk (System.new cpus) as) : Safe s := by
  have hinv : Inv s := run_inv (fun s => Inv s) (fun _ _ _ hs hC h => inv_step hs hC h) (inv_new cpus) hok hrun
  exact hinv.pointers.safe

/-- the child exits and wakes its blocked parent, which reaps it -/
def exitThenReap : List Act :=
  [.fork 0, .block 0, .step 0 (some 0), .exit 0, .step 0 none, .step 0 none, .step 0 none, .step 0 none, .wake 0,
    .step 0 none,
    .step 0 none, .step 0 (some 0), .step 0 none, .wait4 0 1, .step 0 none, .step 0 none, .step 0 none, .step 0 none,
    .step 0 none]

/-- the child leaves its stack before the parent frees it -/
theorem exited_child_reaped :
    ∃ s, run (System.new 1) exitThenReap = some s ∧ (s.procs[1]?).any Process.freed = true ∧ Safe s :=
  exists_and_of_check (by decide +kernel) fun _ hrun _ => reap_safe_run hrun (by decide +kernel)

/-- the child has blocked once, so it runs with interrupts enabled when it is killed on the return path; the timer comes
between `state = Zombie` and `state = Dead` -/
def preemptedExit : List Act :=
  [.fork 0, .resched 0 true (some 0), .block 0, .step 0 (some 0), .kill 0 1, .step 0 none, .wake 1,
    .resched 0 true (some 0),
    .step 0 none, .exit 0, .step 0 none, .resched 0 true (some 0), .wait4 0 1, .step 0 none, .step 0 none, .step 0 none,
    .step 0 none, .step 0 none, .resched 0 true (some 0)]

/-- **A zombie in the run queue is reaped.** One CPU: the timer interrupt puts the exiting child on the run queue, wait4
finds the zombie and frees everything, and the scheduler then runs the freed thread. -/
theorem reaped_in_run_queue :
    ∃ s, run (System.new 1) preemptedExit = some s ∧ ¬ Safe s ∧ s.current = [some 1] ∧
      (s.procs[1]?).any Process.freed = true := by
  refine exists_of_check (fun s => s.earlyFree = true ∧ s.current = [some 1] ∧ (s.procs[1]?).any Process.freed = true)
    (by decide +kernel) fun s _ h => ⟨fun hsafe => ?_, h.2⟩
  rw [hsafe.1] at h
  cases h.1

end Rumicos.Proc.Reaping
