/-
The instruction pointers that SYSRET loads (`crates/cpu/src/syscall.rs`, `crates/proc/src/process.rs`, `exec.rs`,
`signal.rs`, `fork.rs`, `clone.rs`).

SYSRET takes the new instruction pointer from RCX. If RCX is not canonical the processor faults in kernel mode, with the
user's stack pointer already loaded; user addresses end at `USER_TOP` = 2^47, the first address that is not canonical.
Where RCX comes from:

- a system call that returns: the address after its `syscall` instruction, kept on the thread's kernel stack;
- the first dispatch: `user_rip`, which is the entry point of the file for a new process and the slot of the CPU that
  ran the call (`CURRENT_SYSCALL_FRAME`) for a child;
- `execve`: the entry point of the file;
- a signal on the way out of a call: the handler that `sigaction` stored; the CPU's slot is saved in `sig_frame`;
- `sigreturn`: what `sig_frame` holds, after a call or after an interrupt.

Which signal is delivered is an input of the step.
-/
import Rumicos.Proc.Elf
import Rumicos.Proc.Signal

namespace Rumicos.Proc.SysretRip

open Lib List Option
open Signal (SigAction actionFromUser nsig signalIsCatchable)

/-! ## The system -/

structure Process where
  userRip : ℕ
  sigTable : List (SigAction ℕ)
  /-- the instruction pointer saved for `sigreturn` -/
  sigFrame : Option ℕ
  /-- not yet dispatched -/
  fresh : Bool
  /-- inside a system call: the RCX pushed by `syscall_entry` -/
  pushed : Option ℕ
deriving DecidableEq

structure System where
  procs : List Process
  /-- `CURRENT_SYSCALL_FRAME`, by CPU -/
  slot : ℕ → ℕ
  /-- what SYSRET has loaded, newest first -/
  loaded : List ℕ

def System.new : System := ⟨[], fun _ => 0, []⟩

def System.set (s : System) (i : ℕ) (p : Process) : System := { s with procs := s.procs.set i p }
def System.load (s : System) (rip : ℕ) : System := { s with loaded := rip :: s.loaded }

/-- the process of an accepted file: `Process::create` (`fresh`), and the second phase of `do_execve` -/
def Process.new (entry : ℕ) (fresh : Bool) : Process := ⟨entry, List.replicate nsig .default, none, fresh, none⟩

inductive Act where
  | create (data : List UInt8)
  /-- the first dispatch -/
  | start (i : ℕ)
  /-- process `i` executes a `syscall` instruction at address `a` on CPU `cpu` -/
  | syscall (i cpu a : ℕ)
  /-- the call returns without a signal -/
  | return (i : ℕ)
  /-- the call ends on CPU `cpu` with signal `signum` -/
  | deliver (i cpu signum : ℕ)
  | sigaction (i signum value : ℕ)
  | sigreturn (i : ℕ)
  | execve (i : ℕ) (data : List UInt8)
  /-- `fork`, `clone` -/
  | fork (i cpu : ℕ)
  /-- an interrupt at `rip` ends with signal `signum`; the return is by IRET -/
  | interrupt (i rip signum : ℕ)

/-- the handler that a delivery runs: none while another one is running -/
def Process.handler (p : Process) (signum : ℕ) : Option ℕ :=
  if p.sigFrame.isSome then none
  else match p.sigTable[signum]? with
    | some (.handler userFn) => some userFn
    | _ => none

def step (s : System) : Act → Option System
  | .create data =>
    match parseElf data with
    | .error _ => none
    | .ok info => some { s with procs := s.procs ++ [Process.new info.entry true] }
  | .start i => s.procs[i]?.bind fun p =>
    if p.fresh then some ((s.set i { p with fresh := false }).load p.userRip) else none
  | .syscall i cpu a => s.procs[i]?.bind fun p =>
      if p.fresh = false ∧ p.pushed = none ∧ a + 2 ≤ userTop then
        some { s.set i { p with pushed := some (a + 2) } with slot := Function.update s.slot cpu (a + 2) }
      else none
  | .return i => s.procs[i]?.bind fun p => p.pushed.bind fun rcx => some ((s.set i { p with pushed := none }).load rcx)
  | .deliver i cpu signum => s.procs[i]?.bind fun p => p.pushed.bind fun _ => (p.handler signum).bind fun userFn =>
      some ((s.set i { p with pushed := none, sigFrame := some (s.slot cpu) }).load userFn)
  | .sigaction i signum value => s.procs[i]?.bind fun p => p.pushed.bind fun _ =>
      if signalIsCatchable signum then some
        (s.set i { p with sigTable := p.sigTable.set signum (actionFromUser value) }) else none
  | .sigreturn i => s.procs[i]?.bind fun p => p.pushed.bind fun _ => p.sigFrame.bind fun rip =>
      some ((s.set i { p with pushed := none, sigFrame := none }).load rip)
  | .execve i data => s.procs[i]?.bind fun p => p.pushed.bind fun _ =>
    match parseElf data with
    | .error _ => some s
    | .ok info => some ((s.set i (Process.new info.entry false)).load info.entry)
  | .fork i cpu => s.procs[i]?.bind fun p => p.pushed.bind fun _ =>
      some { s with procs := s.procs ++ [⟨s.slot cpu, p.sigTable, none, true, none⟩] }
  | .interrupt i rip signum => s.procs[i]?.bind fun p => (p.handler signum).bind fun _ =>
      if p.fresh = false ∧ p.pushed = none then some (s.set i { p with sigFrame := some rip }) else none

def run (s : System) (as : List Act) : Option System := as.foldlM step s

/-! ## The condition -/

/-- the entry point of the file, if it is accepted, is a user address -/
def EntryBelow (data : List UInt8) : Prop := le data 24 8 < userTop

def Below (_ : System) : Act → Prop
  | .create data => EntryBelow data
  | .execve _ data => EntryBelow data
  | .sigaction _ _ value => value < userTop
  | .syscall _ _ a => a + 2 < userTop
  | .interrupt _ rip _ => rip < userTop
  | _ => True

instance (s : System) (a : Act) : Decidable (Below s a) := by
  unfold Below EntryBelow
  split <;> infer_instance

/-! ## The invariant -/

structure Process.Low (p : Process) : Prop where
  rip : p.userRip < userTop
  table : ∀ userFn, .handler userFn ∈ p.sigTable → userFn < userTop
  frame : ∀ rip, p.sigFrame = some rip → rip < userTop
  pushed : ∀ rcx, p.pushed = some rcx → rcx < userTop

/-- every instruction pointer the kernel keeps is a user address -/
structure Low (s : System) : Prop where
  procs : ∀ p ∈ s.procs, p.Low
  slot : ∀ cpu, s.slot cpu < userTop
  loaded : ∀ rip ∈ s.loaded, rip < userTop

variable {s : System} {p : Process}

theorem Low.set (h : Low s) {i : ℕ} (hp : p.Low) : Low (s.set i p) :=
  ⟨forall_mem_set h.procs hp, h.slot, h.loaded⟩

theorem Low.load (h : Low s) {rip : ℕ} (hrip : rip < userTop) : Low (s.load rip) :=
  ⟨h.procs, h.slot, forall_mem_cons.2 ⟨hrip, h.loaded⟩⟩

theorem Low.add (h : Low s) (hp : p.Low) : Low { s with procs := s.procs ++ [p] } :=
  ⟨forall_mem_append.2 ⟨h.procs, forall_mem_singleton.2 hp⟩, h.slot, h.loaded⟩

theorem Low.get {s' : System} (h : Low s) {i : ℕ} {f : Process → Option System} (hstep : s.procs[i]?.bind f = some s') :
    ∃ p : Process, p.Low ∧ f p = some s' := by
  obtain ⟨p, hp, hstep⟩ := bind_eq_some_iff.1 hstep
  exact ⟨p, h.procs p (mem_of_getElem? hp), hstep⟩

theorem low_new {entry : ℕ} (h : entry < userTop) (fresh : Bool) : (Process.new entry fresh).Low :=
  ⟨h, fun _ hm => absurd (eq_of_mem_replicate hm) (by nofun), nofun, nofun⟩

theorem Process.Low.handler (h : p.Low) {signum userFn : ℕ} (hh : p.handler signum = some userFn) :
    userFn < userTop := by
  unfold Process.handler at hh
  split_ifs at hh
  split at hh
  · rename_i userFn' haction
    cases hh
    exact h.table userFn (mem_of_getElem? haction)
  · cases hh

theorem low_action {value userFn : ℕ} (h : actionFromUser value = .handler userFn) (hv : value < userTop) :
    userFn < userTop := by
  unfold actionFromUser at h
  split_ifs at h
  cases h
  exact hv

theorem low_step (s : System) (a : Act) (s' : System) (h : Low s) (hC : Below s a) (hstep : step s a = some s') :
    Low s' := by
  cases a with
  | create data =>
    rw [step] at hstep
    split at hstep
    · cases hstep
    · rename_i info hinfo
      cases hstep
      exact h.add (low_new (parseElf_entry hinfo ▸ hC) true)
  | start i =>
    obtain ⟨p, hlow, hstep⟩ := h.get hstep
    split_ifs at hstep
    cases hstep
    refine (h.set ?_).load hlow.rip
    exact ⟨hlow.rip, hlow.table, hlow.frame, hlow.pushed⟩
  | syscall i cpu a =>
    obtain ⟨p, hlow, hstep⟩ := h.get hstep
    split_ifs at hstep
    cases hstep
    have hset : Low (s.set i { p with pushed := some (a + 2) }) := by
      apply h.set
      exact ⟨hlow.rip, hlow.table, hlow.frame, fun rcx hr => some.inj hr ▸ hC⟩
    refine ⟨hset.procs, fun c => ?_, hset.loaded⟩
    change Function.update s.slot cpu (a + 2) c < userTop
    by_cases hc : c = cpu
    · rw [hc, Function.update_self]
      exact hC
    · rw [Function.update_of_ne hc]
      exact h.slot c
  | «return» i =>
    obtain ⟨p, hlow, hstep⟩ := h.get hstep
    obtain ⟨rcx, hrcx, hstep⟩ := bind_eq_some_iff.1 hstep
    cases hstep
    refine (h.set ?_).load (hlow.pushed rcx hrcx)
    exact ⟨hlow.rip, hlow.table, hlow.frame, by nofun⟩
  | deliver i cpu signum =>
    obtain ⟨p, hlow, hstep⟩ := h.get hstep
    obtain ⟨rcx, -, hstep⟩ := bind_eq_some_iff.1 hstep
    obtain ⟨userFn, hfn, hstep⟩ := bind_eq_some_iff.1 hstep
    cases hstep
    have hframe : ∀ rip, some (s.slot cpu) = some rip → rip < userTop := fun rip hr => some.inj hr ▸ h.slot cpu
    refine (h.set ?_).load (hlow.handler hfn)
    exact ⟨hlow.rip, hlow.table, hframe, by nofun⟩
  | sigaction i signum value =>
    obtain ⟨p, hlow, hstep⟩ := h.get hstep
    obtain ⟨rcx, -, hstep⟩ := bind_eq_some_iff.1 hstep
    split_ifs at hstep
    cases hstep
    refine h.set ⟨hlow.rip, fun userFn hm => ?_, hlow.frame, hlow.pushed⟩
    rcases mem_or_eq_of_mem_set hm with hm | heq
    · exact hlow.table userFn hm
    · exact low_action heq.symm hC
  | sigreturn i =>
    obtain ⟨p, hlow, hstep⟩ := h.get hstep
    obtain ⟨rcx, -, hstep⟩ := bind_eq_some_iff.1 hstep
    obtain ⟨rip, hrip, hstep⟩ := bind_eq_some_iff.1 hstep
    cases hstep
    refine (h.set ?_).load (hlow.frame rip hrip)
    exact ⟨hlow.rip, hlow.table, by nofun, by nofun⟩
  | execve i data =>
    obtain ⟨p, -, hstep⟩ := h.get hstep
    obtain ⟨rcx, -, hstep⟩ := bind_eq_some_iff.1 hstep
    split at hstep
    · cases hstep
      exact h
    · rename_i info hinfo
      cases hstep
      have hentry : info.entry < userTop := parseElf_entry hinfo ▸ hC
      exact (h.set (low_new hentry false)).load hentry
  | fork i cpu =>
    obtain ⟨p, hlow, hstep⟩ := h.get hstep
    obtain ⟨rcx, -, hstep⟩ := bind_eq_some_iff.1 hstep
    cases hstep
    apply h.add
    exact ⟨h.slot cpu, hlow.table, by nofun, by nofun⟩
  | interrupt i rip signum =>
    obtain ⟨p, hlow, hstep⟩ := h.get hstep
    obtain ⟨userFn, -, hstep⟩ := bind_eq_some_iff.1 hstep
    split_ifs at hstep
    cases hstep
    apply h.set
    exact ⟨hlow.rip, hlow.table, fun r hr => some.inj hr ▸ hC, hlow.pushed⟩

/-- **SYSRET over every run.** While files, handlers, `syscall` instructions and interrupted programs keep below
`USER_TOP`, so does every instruction pointer that SYSRET loads. -/
theorem sysret_below_run (as : List Act) (s : System) (hrun : run System.new as = some s)
    (hC : Meets step Below System.new as) :
    ∀ rip ∈ s.loaded, rip < userTop :=
  (run_inv Low low_step ⟨by nofun, fun _ => Nat.two_pow_pos 47, by nofun⟩ hC hrun).loaded

/-- a header without program headers -/
def bareElf (entry : ℕ) : List UInt8 := elfFile entry [] []

/-- a process starts, installs a handler, is forked, takes a signal, comes back from it and replaces itself -/
theorem sysret_below_session :
    ∃ as s, as = [.create (bareElf 0x400000), .start 0, .syscall 0 0 0x400010, .sigaction 0 2 0x400100, .return 0,
    .syscall 0 0 0x400020,
        .fork 0 0, .deliver 0 0 2, .syscall 0 0 0x10000007, .sigreturn 0, .start 1, .syscall 1 0 0x400030, .execve 1
        (bareElf 0x500000)] ∧
      run System.new as = some s ∧ Meets step Below System.new as ∧ s.loaded.length = 6 ∧ ∀ rip ∈ s.loaded,
      rip < userTop := by
  refine ⟨_, exists_and_left.2 ⟨rfl, exists_of_check (fun s => s.loaded.length = 6) (by decide +kernel)
    fun s hs hlen => ?_⟩⟩
  exact (and_iff_left_of_imp fun hmeets => ⟨hlen, sysret_below_run _ s hs hmeets⟩).2 (by decide +kernel)

/-- SYSRET loads `USER_TOP`: as the entry point of an accepted file, as a signal handler, and as the address after a
`syscall` instruction in the last two bytes of user memory -/
theorem sysret_loads_user_top :
    (∃ s, run System.new [.create (bareElf userTop), .start 0] = some s ∧ s.loaded.head? = some userTop) ∧
    (∃ s, run System.new [.create (bareElf 0x400000), .start 0, .syscall 0 0 0x400010, .sigaction 0 2 userTop, .return 0,
      .syscall 0 0 0x400020, .deliver 0 0 2] = some s ∧ s.loaded.head? = some userTop) ∧
    (∃ s, run System.new [.create (bareElf 0x400000), .start 0, .syscall 0 0 (userTop - 2), .return 0] = some s ∧
      s.loaded.head? = some userTop) := by
  refine ⟨?_, ?_, ?_⟩
  · decide +kernel
  · decide +kernel
  · decide +kernel

end Rumicos.Proc.SysretRip
