/-
The interrupt flag and the spin locks along kernel code (`crates/cpu/src/syscall.rs`, `crates/sched/src/block.rs`,
`idle.rs`, `crates/keyboard/src/lib.rs`, `crates/fs/src/pipe.rs`, `crates/proc/src/wait.rs`, `exec.rs`, `signal.rs`,
`kernel/src/main.rs`).

Any number of CPUs and threads. A thread in the kernel has a stack of frames: a system call, or the code of a kernel
thread, and on top of it at most the interrupt handlers that came over it; an empty stack is user mode. A frame is the
code still to be executed, at the grain of instructions that touch the interrupt flag, take or release a spin lock, or
leave the CPU; everything else is `plain`. The outcome of a test (ring empty, generation unchanged, which thread the
scheduler picks, whether the file is an executable) is an input of the step that makes it.

- SYSCALL clears the flag (`IA32_FMASK`), an interrupt gate clears it, SYSRET and IRET set it again, `switch_context`
  leaves it.
- `thread_block_if` takes the scheduler lock once to read `current`, then `cli`, tests under the queue lock, schedules
  if it must, and ends with `sti` in every case.
- a spin lock does not touch the flag.
- the timer and the reschedule interrupt call `schedule`; the keyboard interrupt takes `KBD_RING`, and `KBD_WAITERS` for
  the wake.

Demand faults of the handlers (which restore the flag) and the run queues are left out: `schedule` may pick any thread
that no CPU runs.
-/
import Rumicos.Lib.Run

namespace Rumicos.Sched.Interrupts

open Function List Option

/-! ## Code -/

inductive Lock where
  | kbdRing
  | kbdWaiters
  | sched (cpu : ℕ)
  | pipeRing (pipe : ℕ)
  | readWaiters (pipe : ℕ)
  | writeWaiters (pipe : ℕ)
  | children (process : ℕ)
  | childWaiters (process : ℕ)
  /-- locks of tables: descriptors, signals, mounts, processes -/
  | table (k : ℕ)
deriving DecidableEq

/-- a loop that tests under `lock` and otherwise blocks on `queue`; at its end it may wake `wakes` -/
structure Wait where
  lock : Lock
  queue : Lock
  wakes : List Lock
deriving DecidableEq

def keyboardRead : Wait := ⟨.kbdRing, .kbdWaiters, []⟩
def pipeRead (pipe : ℕ) : Wait := ⟨.pipeRing pipe, .readWaiters pipe, [.writeWaiters pipe]⟩
def pipeWrite (pipe : ℕ) : Wait := ⟨.pipeRing pipe, .writeWaiters pipe, [.readWaiters pipe]⟩
def sysWait4 (process : ℕ) : Wait := ⟨.children process, .childWaiters process, []⟩

inductive Op where
  | plain
  | cli
  | sti
  | lock (l : Lock)
  | unlock (l : Lock)
  /-- `try_push_to_cpu`, with `again` more attempts -/
  | tryPush (l : Lock) (again : ℕ)
  | currentThread
  /-- `wake_one`, `wake_all` -/
  | wake (queue : Lock)
  /-- the head of the loop -/
  | waitLoop (w : Wait)
  /-- the test under the loop's lock -/
  | ready (w : Wait)
  /-- `thread_block_if` -/
  | blockIf (queue : Lock)
  /-- its test under the queue lock; the CPU id was read at the beginning -/
  | shouldBlock (queue : Lock) (cpu : ℕ)
  | schedule (cpu : ℕ)
  /-- under the scheduler lock: choose, release, switch -/
  | pick (cpu : ℕ)
  /-- `Process::exit` -/
  | exit
  /-- the same as `pick` for a thread that is Dead -/
  | leave (cpu : ℕ)
  /-- the handler has returned to `syscall_dispatch` -/
  | handlerReturn
  /-- `deliver_on_syscall_return` -/
  | hook
  /-- the outcome of `parse_elf` in `do_execve` -/
  | parsed
  /-- the second phase of `do_execve` -/
  | commit
  /-- `mov rsp, [rsp]`: the user's stack pointer -/
  | loadUserStack
  | swapgs
  | sysret
  /-- `KBD_RING.feed` -/
  | feed
  | iret
  /-- `idle_entry` -/
  | idle
  /-- `idle_kernel_thread` -/
  | kidle
  | dead
deriving DecidableEq

/-- the end of the trampoline, and of `enter_user_mode`, `enter_signal_handler` and `enter_user_mode_restoring` -/
def edge : List Op := [.plain, .loadUserStack, .swapgs, .sysret]

/-- what the code of an operation without an effect of its own is, on CPU `cpu`; `k` is the outcome of its test -/
def expand (cpu k : ℕ) : Op → List Op
  | .currentThread => [.lock (.sched cpu), .unlock (.sched cpu)]
  | .wake q => .lock q :: (List.replicate k (.tryPush (.sched 0) 1) ++ [.unlock q])
  | .waitLoop w => [.plain, .lock w.lock, .ready w]
  | .ready w =>
    if k = 0 then [.unlock w.lock, .blockIf w.queue, .waitLoop w] else .unlock w.lock :: if k = 1 then []
      else w.wakes.map .wake
  | .blockIf q => [.lock (.sched cpu), .unlock (.sched cpu), .cli, .lock q, .shouldBlock q cpu, .sti]
  | .shouldBlock q cpu => if k = 0 then [.unlock q] else [.unlock q, .schedule cpu]
  | .schedule cpu => [.lock (.sched cpu), .pick cpu]
  | .exit => .plain :: ((List.range k).map fun p => .wake (.readWaiters p)) ++ [.wake (.childWaiters k),
      .lock (.sched cpu), .leave cpu]
  | .hook => [.currentThread, .lock (.table 0), .unlock (.table 0)] ++ if k = 0 then [] else [.exit]
  | .feed => if k = 0 then [.unlock .kbdRing] else [.unlock .kbdRing, .plain, .wake .kbdWaiters]
  | .idle => [.sti, .plain, .cli, .idle]
  | .kidle => [.cli, .schedule cpu, .sti, .kidle]
  | _ => []

/-! ## Frames -/

inductive Phase where
  /-- a system call, from its entry to the return of the handler -/
  | handler
  /-- from there to SYSRET -/
  | leaving
  /-- `do_execve`, second phase -/
  | committing
  | irq
  /-- the first dispatch of a user thread -/
  | start
  /-- a kernel thread -/
  | kernel
deriving DecidableEq

structure Frame where
  phase : Phase
  code : List Op
  /-- a blocking primitive has ended with `sti` in this frame -/
  opened : Bool
  /-- between a primitive's `cli` and its `sti` -/
  masked : Bool
  held : List Lock
deriving DecidableEq

def Frame.new (phase : Phase) (code : List Op) : Frame := ⟨phase, code, false, false, []⟩

def Frame.setCode (f : Frame) (code : List Op) : Frame := { f with code := code }
def Frame.setPhase (f : Frame) (phase : Phase) : Frame := { f with phase := phase }
def Frame.setHeld (f : Frame) (held : List Lock) : Frame := { f with held := held }
def Frame.setMasked (f : Frame) (masked : Bool) : Frame := { f with masked := masked, opened := f.opened || !masked }

inductive Call where
  /-- `read`, `write` or `wait4` that waits in a loop -/
  | wait (w : Wait)
  /-- `execve`; `some w` if the file is a device whose `read` waits -/
  | execve (w : Option Wait)
  | sigreturn
  | exit
  /-- any other call: the tables it locks and the queues it wakes -/
  | other (tables : List ℕ) (wakes : List Lock)
deriving DecidableEq

def Call.code : Call → List Op
  | .wait w => [.currentThread, .waitLoop w, .currentThread, .handlerReturn, .hook] ++ edge
  | .execve w => .plain :: (w.toList.map .waitLoop ++ [.parsed, .handlerReturn, .hook]) ++ edge
  | .sigreturn => [.currentThread, .lock (.table 0), .unlock (.table 0), .handlerReturn] ++ edge
  | .exit => [.currentThread, .exit]
  | .other tables wakes =>
    .currentThread :: (tables.flatMap (fun k => [.lock (.table k), .unlock (.table k)]) ++ wakes.map .wake ++
      [.handlerReturn, .hook]) ++ edge

/-- the second phase of `do_execve` -/
def commitCode : List Op := [.commit, .currentThread, .plain, .lock (.table 0), .unlock (.table 0)] ++ edge

inductive Irq where
  | timer
  | keyboard
  /-- the reschedule interrupt -/
  | resched
deriving DecidableEq

/-- the handler, and the signal check of the return to user mode -/
def Irq.code (cpu : ℕ) (user : Bool) (i : Irq) : List Op :=
  (match i with
    | .timer => [.plain, .schedule cpu]
    | .resched => [.plain, .schedule cpu]
    | .keyboard => [.plain, .lock .kbdRing, .feed]) ++ (if user then [.hook] else []) ++ [.iret]

/-! ## One CPU -/

/-- what a step of a CPU does to the thread it runs; `next` is the thread the scheduler picked -/
structure Outcome where
  stack : List Frame
  iflag : Bool
  locks : List Lock
  next : Option ℕ

/-- the next operation of the frame `f` on top of `below`; `k` is the outcome of a test, or the thread picked -/
def execOp (cpu k : ℕ) (iflag : Bool) (locks : List Lock) (f : Frame) (below : List Frame) (rest : List Op) :
    Op → Option Outcome
  | .cli => some ⟨(f.setCode rest).setMasked true :: below, false, locks, none⟩
  | .sti => some ⟨(f.setCode rest).setMasked false :: below, true, locks, none⟩
  | .lock l => if l ∈ locks then none else some ⟨(f.setCode rest).setHeld (l :: f.held) :: below, iflag, l :: locks, none⟩
  | .unlock l => some ⟨(f.setCode rest).setHeld (f.held.erase l) :: below, iflag, locks.erase l, none⟩
  | .tryPush l again =>
    if l ∈ locks then some ⟨f.setCode (if again = 0 then rest else .tryPush l (again - 1) :: rest) :: below, iflag,
      locks, none⟩
    else some ⟨(f.setCode (.unlock l :: rest)).setHeld (l :: f.held) :: below, iflag, l :: locks, none⟩
  | .pick c => some ⟨(f.setCode rest).setHeld (f.held.erase (.sched c)) :: below, iflag, locks.erase (.sched c), some k⟩
  | .leave c => some ⟨[Frame.new .start [.dead]], iflag, locks.erase (.sched c), some k⟩
  | .handlerReturn => some ⟨(f.setCode rest).setPhase .leaving :: below, iflag, locks, none⟩
  | .parsed => some ⟨f.setCode (if k = 0 then rest else commitCode) :: below, iflag, locks, none⟩
  | .commit => some ⟨(f.setCode rest).setPhase .committing :: below, iflag, locks, none⟩
  | .sysret => some ⟨below, true, locks, none⟩
  | .iret => some ⟨below, true, locks, none⟩
  | .dead => none
  | op => some ⟨f.setCode (expand cpu k op ++ rest) :: below, iflag, locks, none⟩

inductive Act where
  | syscall (call : Call)
  | interrupt (i : Irq)
  /-- the next operation of the running thread -/
  | exec (k : ℕ)
deriving DecidableEq

def act (cpu : ℕ) (iflag : Bool) (locks : List Lock) : List Frame → Act → Option Outcome
  | [], .syscall call => some ⟨[Frame.new .handler call.code], false, locks, none⟩
  | stack, .interrupt i => if iflag then some ⟨Frame.new .irq (i.code cpu stack.isEmpty) :: stack, false, locks,
      none⟩ else none
  | f :: below, .exec k => f.code.head?.bind (execOp cpu k iflag locks f below f.code.tail)
  | _, _ => none

/-- the operations without an effect of their own -/
def Op.expands : Op → Bool
  | .cli | .sti | .lock _ | .unlock _ | .tryPush _ _ | .pick _ | .leave _ | .handlerReturn | .parsed | .commit
  | .sysret | .iret | .dead => false
  | _ => true

theorem execOp_expands {op : Op} (h : op.expands = true) (cpu k : ℕ) (iflag : Bool) (locks : List Lock) (f : Frame)
    (below : List Frame)
    (rest : List Op) :
    execOp cpu k iflag locks f below rest op = some ⟨f.setCode (expand cpu k op ++ rest) :: below, iflag, locks,
    none⟩ := by
  cases op <;> first | rfl | cases h

theorem act_interrupt (cpu : ℕ) (iflag : Bool) (locks : List Lock) (stack : List Frame) (i : Irq) :
    act cpu iflag locks stack (.interrupt i) =
      if iflag then some ⟨Frame.new .irq (i.code cpu stack.isEmpty) :: stack, false, locks, none⟩ else none := by
  cases stack <;> rfl

theorem act_exec {cpu k : ℕ} {iflag : Bool} {locks : List Lock} {stack : List Frame} {o : Outcome}
    (h : act cpu iflag locks stack (.exec k) = some o) :
    ∃ f below op rest, stack = f :: below ∧ f.code = op :: rest ∧ execOp cpu k iflag locks f below rest op = some o := by
  cases stack with
  | nil => cases h
  | cons f below =>
    obtain ⟨op, hop, ho⟩ := bind_eq_some_iff.1 h
    obtain ⟨rest, hcode⟩ := head?_eq_some_iff.1 hop
    refine ⟨f, below, op, rest, rfl, hcode, ?_⟩
    rw [hcode] at ho
    exact ho

theorem act_syscall {cpu : ℕ} {iflag : Bool} {locks : List Lock} {stack : List Frame} {call : Call} {o : Outcome}
    (h : act cpu iflag locks stack (.syscall call) = some o) :
    stack = [] ∧ o = ⟨[Frame.new .handler call.code], false, locks, none⟩ := by
  cases stack with
  | nil => exact ⟨rfl, (some.inj h).symm⟩
  | cons f below => cases h

/-! ## The machine -/

structure Cpu where
  running : ℕ
  iflag : Bool
deriving DecidableEq

structure State (n : ℕ) where
  cpus : Fin n → Cpu
  threads : ℕ → List Frame
  /-- the locks that are taken -/
  locks : List Lock

variable {n : ℕ}

/-- CPU `c` runs its idle thread, number `c`; then comes the kernel thread of `main`, then user threads -/
def State.new (n : ℕ) : State n where
  cpus c := ⟨c, false⟩
  threads t := [if t < n then Frame.new .kernel [.idle] else if t = n then Frame.new .kernel [.kidle]
    else Frame.new .start (.currentThread :: edge)]
  locks := []

/-- the stack of the thread that CPU `c` runs -/
def State.stack (s : State n) (c : Fin n) : List Frame := s.threads (s.cpus c).running

/-- a thread that no CPU runs, or the one that was running -/
def State.available (s : State n) (c : Fin n) (t : ℕ) : Prop := ∀ d, (s.cpus d).running = t → d = c

instance (s : State n) (c : Fin n) (t : ℕ) : Decidable (s.available c t) := by unfold State.available; infer_instance

def State.apply (s : State n) (c : Fin n) (o : Outcome) : Option (State n) :=
  let t := o.next.getD (s.cpus c).running
  if s.available c t then
    some ⟨update s.cpus c ⟨t, o.iflag⟩, update s.threads (s.cpus c).running o.stack, o.locks⟩
  else none

def step (s : State n) (a : Fin n × Act) : Option (State n) :=
  (act a.1 (s.cpus a.1).iflag s.locks (s.stack a.1) a.2).bind (s.apply a.1)

def run (s : State n) (as : List (Fin n × Act)) : Option (State n) := as.foldlM step s

/-! ## Invariants of the machine

`R` is what holds of a running thread and the flag of its CPU, `O` what holds of a thread that no CPU runs. -/

structure Inv (R : Bool → List Frame → Prop) (O : List Frame → Prop) (s : State n) : Prop where
  running : ∀ c, R (s.cpus c).iflag (s.stack c)
  off : ∀ t, (∀ c, (s.cpus c).running ≠ t) → O (s.threads t)
  distinct : Function.Injective fun c => (s.cpus c).running

/-- what the step of one CPU has to keep -/
def Keeps (R : Bool → List Frame → Prop) (O : List Frame → Prop) (C : List Frame → Act → Prop) : Prop :=
  ∀ cpu iflag locks stack a o, R iflag stack → C stack a → act cpu iflag locks stack a = some o →
    (o.next = none → R o.iflag o.stack) ∧ (o.next ≠ none → O o.stack)

/-- the condition of one CPU's step, on the whole machine -/
def On (C : List Frame → Act → Prop) (s : State n) (a : Fin n × Act) : Prop := C (s.stack a.1) a.2

instance {C : List Frame → Act → Prop} [∀ stack a, Decidable (C stack a)] (s : State n) (a : Fin n × Act) :
    Decidable (On C s a) :=
  inferInstanceAs (Decidable (C _ _))

/-- **One step.** A thread that leaves its CPU may be picked up under any flag. -/
theorem inv_step {R : Bool → List Frame → Prop} {O : List Frame → Prop} {C : List Frame → Act → Prop}
    (hO : ∀ stack iflag, O stack → R iflag stack) (hkeeps : Keeps R O C) (s : State n) (a : Fin n × Act) (s' : State n)
    (h : Inv R O s) (hC : On C s a) (hstep : step s a = some s') : Inv R O s' := by
  obtain ⟨c, a⟩ := a
  obtain ⟨o, ho, hstep⟩ := bind_eq_some_iff.1 hstep
  obtain ⟨hstay, hleave⟩ := hkeeps c (s.cpus c).iflag s.locks (s.stack c) a o (h.running c) hC ho
  unfold State.apply at hstep
  dsimp only at hstep
  split_ifs at hstep with hfree
  cases hstep
  -- the thread that ran holds `O` if it left, and then `R` under the flag it is picked up with
  have hself : R o.iflag o.stack := by
    by_cases hn : o.next = none
    · exact hstay hn
    · exact hO _ _ (hleave hn)
  constructor
  · intro d
    unfold State.stack
    dsimp only
    by_cases hdc : d = c
    · subst hdc
      rw [update_self]
      by_cases ht : o.next.getD (s.cpus d).running = (s.cpus d).running
      · rw [ht, update_self]
        exact hself
      · rw [update_of_ne ht]
        apply hO
        apply h.off
        intro e he
        have hed := hfree e he
        subst hed
        exact ht he.symm
    · rw [update_of_ne hdc]
      have hne : (s.cpus d).running ≠ (s.cpus c).running := fun heq => hdc (h.distinct heq)
      rw [update_of_ne hne]
      exact h.running d
  · intro t ht
    have htc := ht c
    dsimp only at htc ⊢
    rw [update_self] at htc
    by_cases hr : t = (s.cpus c).running
    · subst hr
      rw [update_self]
      apply hleave
      intro hnone
      rw [hnone] at htc
      exact htc rfl
    · rw [update_of_ne hr]
      apply h.off
      intro d hd
      by_cases hdc : d = c
      · exact hr (hdc ▸ hd.symm)
      · have := ht d
        dsimp only at this
        rw [update_of_ne hdc] at this
        exact this hd
  · intro d e hde
    dsimp only at hde
    by_cases hd : d = c <;> by_cases he : e = c
    · exact hd.trans he.symm
    · rw [hd, update_self, update_of_ne he] at hde
      exact hd.trans (hfree e hde.symm).symm
    · rw [he, update_self, update_of_ne hd] at hde
      exact (hfree d hde).trans he.symm
    · rw [update_of_ne hd, update_of_ne he] at hde
      exact h.distinct hde

/-- what holds in every state of a run whose steps meet `C` -/
theorem inv_run {R : Bool → List Frame → Prop} {O : List Frame → Prop} {C : List Frame → Act → Prop}
    (hO : ∀ stack iflag, O stack → R iflag stack) (hkeeps : Keeps R O C) (hnew : ∀ n t, O ((State.new n).threads t))
    {as : List (Fin n × Act)} {s : State n} (hC : Lib.Meets step (On C) (State.new n) as)
    (hrun : run (State.new n) as = some s) :
    Inv R O s := by
  refine Lib.run_inv (Inv R O) (inv_step hO hkeeps) ⟨?_, ?_, ?_⟩ hC hrun
  · intro c
    exact hO _ _ (hnew n _)
  · intro t _
    exact hnew n t
  · intro c d hcd
    exact Fin.ext hcd

theorem meets_any (s : State n) (as : List (Fin n × Act)) : Lib.Meets step (On fun _ _ => True) s as := by
  induction as generalizing s with
  | nil => trivial
  | cons a as ih => exact ⟨trivial, fun s' _ => ih s'⟩

/-! ## Runs on one CPU -/

def execs (ks : List ℕ) : List (Fin 1 × Act) := ks.map fun k => (0, .exec k)

/-- the idle thread is interrupted by the timer, and thread 2 is dispatched into user mode -/
def firstDispatch : List (Fin 1 × Act) := execs [0, 0] ++ (0, .interrupt .timer) :: execs [0, 0, 0, 2, 0, 0, 0, 0, 0, 0, 0]

/-- thread 2 reads the keyboard, finds no key and sleeps; a key wakes it, and the timer brings it back to the end of the
block -/
def keyboardWait : List (Fin 1 × Act) :=
  firstDispatch ++ (0, .syscall (.wait keyboardRead)) :: execs [0, 0, 0, 0, 0, 0, 0, 0, 0, 0, 0, 0, 0, 1, 0, 0, 0, 0, 0] ++
    (0, .interrupt .keyboard) :: execs [0, 0, 1, 0, 0, 1, 0, 0, 0, 0, 0] ++ (0, .interrupt .timer) :: execs [0, 0, 0, 2, 0]

end Rumicos.Sched.Interrupts
