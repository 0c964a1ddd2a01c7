/-
The registers of user mode across system calls, interrupts, signals and fork (`crates/cpu/src/syscall.rs`,
`crates/proc/src/signal.rs`, `fork.rs`, `clone.rs`, `process.rs`).

Any number of threads, one a process, on any number of CPUs. A system call entry records the caller's registers in the
frame of its CPU; delivery on the return path, fork and clone read the frame of the CPU they run on. Interrupts are off
from the entry on, so nothing else runs on that CPU until the call returns or blocks; `thread_block` turns them on
again, and a call that has blocked goes on whenever and on whichever CPU the scheduler lets it.

- `enter`, `block`, `finish`: a system call. `finish` is the return with the delivery of a signal, if one is due; the
  call's effects other than fork, clone and execve do not touch registers.
- `interrupt`: an interrupt of user code and its return, which may deliver a signal.
- `sigreturn`: the system call of the trampoline.
- `user`: user code runs and leaves any registers behind.

What `decide_next_signal` decides, the values of system calls and the registers the kernel happens to leave behind are
inputs of the steps. History variable, read by no step: `handlers`, the contexts that the handlers a process is in
interrupted.
-/
import Rumicos.Lib.Run
import Rumicos.Proc.Signal

namespace Rumicos.Proc.UserContexts

open Lib Proc.Signal

/-! ## Threads and CPUs -/

/-- MAX_SYSCALL_CPUS -/
abbrev Cpu := Fin 64

inductive Mode where
  | user
  /-- in a system call; `held` is the CPU it has to itself until it blocks -/
  | call (held : Option Cpu)
  | dead
deriving DecidableEq

structure Thread where
  /-- the registers of user mode; in a system call, those of the entry -/
  regs : SavedUserContext
  mode : Mode
  sigFrame : Option SavedUserContext
  /-- history: what the handlers it is in interrupted, the innermost first -/
  handlers : List SavedUserContext
deriving DecidableEq

structure System where
  /-- CURRENT_SYSCALL_FRAME -/
  slot : Cpu → SyscallFrame
  threads : List Thread

def System.currentSyscallFrame (s : System) (cpu : Cpu) : SyscallFrame := s.slot cpu

def System.set (s : System) (i : ℕ) (t : Thread) : System := { s with threads := s.threads.set i t }

/-- no thread has the CPU to itself -/
def System.Open (s : System) (cpu : Cpu) : Prop := ∀ t ∈ s.threads, t.mode ≠ .call (some cpu)

instance (s : System) (cpu : Cpu) : Decidable (s.Open cpu) := by unfold System.Open; infer_instance

/-- `update_current_syscall_frame` and `update_syscall_callee_saved` -/
def System.record (s : System) (cpu : Cpu) (r : SavedUserContext) : System :=
  { s with slot := Function.update s.slot cpu (SyscallFrame.ofUser r) }

/-! ## What the kernel does to the registers -/

/-- the epilogue of the trampoline: what was pushed at entry and the return value; the rest is as the kernel left it -/
def sysretRegs (r : SavedUserContext) (retval : Word) (kernelRegs : SavedUserContext) : SavedUserContext :=
  { kernelRegs with
    userRip := r.userRip, userRsp := r.userRsp, userRflags := r.userRflags, rax := retval, rbx := r.rbx, rbp := r.rbp,
    r12 := r.r12, r13 := r.r13, r14 := r.r14, r15 := r.r15, rcx := r.userRip, r11 := r.userRflags }

/-- the registers a child of fork or clone starts with: the caller's frame, return value 0, `stack` for clone -/
def childRegs (frame : SyscallFrame) (stack : Option Word) : SavedUserContext :=
  enterUserModeRestoring { SavedUserContext.ofSyscall frame 0 with userRsp := stack.getD frame.userRsp }

/-- `deliver_on_syscall_return`, with `frame` as the current syscall frame -/
def Thread.deliver (t : Thread) (frame : SyscallFrame) (retval : Word) (kernelRegs : SavedUserContext)
    (outcome : SignalOutcome) : Thread :=
  let back := { t with regs := sysretRegs t.regs retval kernelRegs, mode := .user }
  if t.sigFrame.isSome then back
  else
    match outcome with
    | .none => back
    | .terminate _ => { t with mode := .dead }
    | .deliver userFn signum =>
      { regs := enterSignalHandler kernelRegs userFn (computeSignalFrameLayout frame.userRsp).retAddrSlot signum
        mode := .user
        sigFrame := some (SavedUserContext.ofSyscall frame retval)
        handlers := { t.regs with rax := retval } :: t.handlers }

/-- `check_and_deliver_iret` -/
def Thread.deliverIret (t : Thread) (outcome : SignalOutcome) : Thread :=
  if t.sigFrame.isSome then t
  else
    let frame := InterruptFrame.ofUser t.regs
    match outcome with
    | .none => t
    | .terminate _ => { t with mode := .dead }
    | .deliver userFn signum =>
      { regs := (frame.redirect userFn (computeSignalFrameLayout frame.rsp).retAddrSlot signum).iretq
        mode := .user
        sigFrame := some (SavedUserContext.ofInterrupt frame)
        handlers := t.regs :: t.handlers }

/-- `sys_sigreturn` -/
def Thread.sigreturn (t : Thread) : Thread :=
  match t.sigFrame with
  | some ctx =>
    { regs := enterUserModeRestoring ctx, mode := .user, sigFrame := none, handlers := t.handlers.tail }
  | none => { t with mode := .dead }

/-! ## Steps -/

inductive Act where
  | user (i : ℕ) (regs : SavedUserContext)
  | interrupt (i : ℕ) (outcome : SignalOutcome)
  | enter (i : ℕ) (cpu : Cpu)
  | block (i : ℕ)
  /-- fork, or clone with `stack` -/
  | fork (i : ℕ) (cpu : Cpu) (stack : Option Word)
  /-- a successful execve; the new image starts with `regs` -/
  | execve (i : ℕ) (regs : SavedUserContext)
  | finish (i : ℕ) (cpu : Cpu) (retval : Word) (kernelRegs : SavedUserContext) (outcome : SignalOutcome)
  | sigreturn (i : ℕ) (cpu : Cpu)
  | exit (i : ℕ)
deriving DecidableEq

/-- the CPU whose frame the step writes or reads -/
def Act.cpu : Act → Option Cpu
  | .enter _ cpu | .fork _ cpu _ | .finish _ cpu _ _ _ | .sigreturn _ cpu => some cpu
  | _ => none

/-- may a thread in a system call run on `cpu`? -/
def System.Runs (s : System) (t : Thread) (cpu : Cpu) : Prop :=
  t.mode = .call (some cpu) ∨ t.mode = .call none ∧ s.Open cpu

instance (s : System) (t : Thread) (cpu : Cpu) : Decidable (s.Runs t cpu) := by unfold System.Runs; infer_instance

def stepThread (s : System) (i : ℕ) (t : Thread) : Act → Option System
  | .user _ regs => if t.mode = .user then some (s.set i { t with regs := regs }) else none
  | .interrupt _ outcome => if t.mode = .user then some (s.set i (t.deliverIret outcome)) else none
  | .enter _ cpu =>
    if t.mode = .user ∧ s.Open cpu then some ((s.record cpu t.regs).set i { t with mode := .call (some cpu) }) else none
  | .block _ =>
    match t.mode with
    | .call _ => some (s.set i { t with mode := .call none })
    | _ => none
  | .fork _ cpu stack =>
    -- fork and clone do not block before they read the frame
    if t.mode = .call (some cpu) then
      some { s with threads := s.threads ++ [⟨childRegs (s.currentSyscallFrame cpu) stack, .user, none, t.handlers⟩] }
    else none
  | .execve _ regs =>
    match t.mode with
    | .call _ => some (s.set i ⟨regs, .user, none, []⟩)
    | _ => none
  | .finish _ cpu retval kernelRegs outcome =>
    if s.Runs t cpu then some (s.set i (t.deliver (s.currentSyscallFrame cpu) retval kernelRegs outcome)) else none
  | .sigreturn _ cpu =>
    if t.mode = .user ∧ s.Open cpu then some ((s.record cpu t.regs).set i t.sigreturn) else none
  | .exit _ => if t.mode ≠ .dead then some (s.set i { t with mode := .dead }) else none

/-- the thread that takes the step -/
def Act.thread : Act → ℕ
  | .user i _ | .interrupt i _ | .enter i _ | .block i | .fork i _ _ | .execve i _ | .finish i _ _ _ _ | .sigreturn i _
  | .exit i => i

def step (s : System) (a : Act) : Option System := (s.threads[a.thread]?).bind fun t => stepThread s a.thread t a

def run (s : System) (as : List Act) : Option System := as.foldlM step s

theorem step_inv {s s' : System} {a : Act} (h : step s a = some s') :
    ∃ t, s.threads[a.thread]? = some t ∧ stepThread s a.thread t a = some s' :=
  Option.bind_eq_some_iff.1 h

theorem mem_of_thread {s : System} {i : ℕ} {t : Thread} (h : s.threads[i]? = some t) : t ∈ s.threads :=
  List.mem_of_getElem? h

@[simp] theorem set_slot (s : System) (i : ℕ) (t : Thread) : (s.set i t).slot = s.slot := rfl
@[simp] theorem record_slot (s : System) (cpu : Cpu) (r : SavedUserContext) :
    (s.record cpu r).slot cpu = SyscallFrame.ofUser r := Function.update_self ..

theorem record_slot_of_ne (s : System) {cpu c : Cpu} (r : SavedUserContext) (h : c ≠ cpu) :
    (s.record cpu r).slot c = s.slot c := Function.update_of_ne h ..

theorem deliver_mode (t : Thread) (frame : SyscallFrame) (retval : Word) (kernelRegs : SavedUserContext)
    (outcome : SignalOutcome) :
    (t.deliver frame retval kernelRegs outcome).mode = .user ∨ (t.deliver frame retval kernelRegs outcome).mode =
    .dead := by
  unfold Thread.deliver
  split
  · exact .inl rfl
  · cases outcome with
    | none | deliver userFn n => exact .inl rfl
    | terminate n => exact .inr rfl

theorem deliverIret_mode {t : Thread} (h : t.mode = .user) (outcome : SignalOutcome) :
    (t.deliverIret outcome).mode = .user ∨ (t.deliverIret outcome).mode = .dead := by
  unfold Thread.deliverIret
  split
  · exact .inl h
  · cases outcome with
    | none => exact .inl h
    | terminate n => exact .inr rfl
    | deliver userFn n => exact .inl rfl

theorem sigreturn_mode (t : Thread) : t.sigreturn.mode = .user ∨ t.sigreturn.mode = .dead := by
  unfold Thread.sigreturn
  split
  · exact .inl rfl
  · exact .inr rfl

end Rumicos.Proc.UserContexts
