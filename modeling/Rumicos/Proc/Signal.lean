/-
The functions that signal delivery is made of (`crates/proc/src/signal.rs`, `process.rs`), without the state machines that
call them.

- `takeAny`, `decideNextSignal`: the pending set is a 64-bit word, the lowest set bit goes first.
- `computeSignalFrameLayout`: where the frame lands below the red zone. The subtractions wrap: release builds are made with
  overflow-checks off.
- `SavedUserContext.ofSyscall`, `ofInterrupt`: what the two delivery paths save.
- `enterSignalHandler`, `InterruptFrame.redirect`, `enterUserModeRestoring`: the registers user mode is entered with.

`sysretq` takes RIP from RCX and RFLAGS from R11, so a return through it leaves RIP in RCX and RFLAGS in R11.
-/
import Mathlib.Data.BitVec
import Mathlib.Tactic

namespace Rumicos.Proc.Signal

abbrev Word := BitVec 64

def nsig : ℕ := 32
def sigkill : ℕ := 9
def sigterm : ℕ := 15

/-! ## Pending signals -/

/-- SIGKILL cannot be caught -/
def signalIsCatchable (signum : ℕ) : Bool := signum != 0 && signum != sigkill && decide (signum < nsig)

/-- what a process does with a signal; `W` is the type of its addresses -/
inductive SigAction (W : Type) where
  | default
  | ignore
  | handler (userFn : W)
deriving DecidableEq

def actionFromUser {W : Type} [DecidableEq W] [OfNat W 0] [OfNat W 1] (value : W) : SigAction W :=
  if value = 0 then .default else if value = 1 then .ignore else .handler value

/-- one action for each signal number -/
abbrev SigTable := Fin 32 → SigAction Word

def SigTable.new : SigTable := fun _ => .default

/-- bit n is set while signal n is pending -/
abbrev PendingSet := BitVec 64

def PendingSet.raise (p : PendingSet) (signum : ℕ) : PendingSet := p ||| BitVec.twoPow 64 signum

/-- `take_any`: the lowest pending signal, and the set without it -/
def PendingSet.takeAny (p : PendingSet) : Option (ℕ × PendingSet) :=
  if p = 0 then none
  else
    let signum := p.ctz.toNat
    some (signum, p &&& ~~~BitVec.twoPow 64 signum)

inductive SignalOutcome where
  | none
  | terminate (signum : ℕ)
  | deliver (userFn : Word) (signum : ℕ)
deriving DecidableEq

/-- `decide_next_signal` for the signal that was taken -/
def outcomeOf (table : SigTable) (signum : ℕ) : SignalOutcome :=
  if signum = sigkill then .terminate signum
  else if h : signum < nsig then
    match table ⟨signum, h⟩ with
    | .handler userFn => .deliver userFn signum
    | .ignore => .none
    | .default => if signum = sigterm then .terminate signum else .none
  else .none

/-- `decide_next_signal`: the outcome, and the signals still pending -/
def decideNextSignal (pending : PendingSet) (table : SigTable) : SignalOutcome × PendingSet :=
  match pending.takeAny with
  | none => (.none, pending)
  | some (signum, rest) => (outcomeOf table signum, rest)

variable {signum : ℕ} {p : PendingSet}

theorem getLsbD_raise (p : PendingSet) (i : ℕ) (hi : i < 64) :
    (p.raise signum).getLsbD i = (p.getLsbD i || decide (i = signum)) := by
  simp [PendingSet.raise, hi]

/-- what `take_any` takes: a pending signal, below which none is pending, and no other -/
theorem takeAny_spec {rest : PendingSet} (h : p.takeAny = some (signum, rest)) :
    signum < 64 ∧ p.getLsbD signum = true ∧ (∀ i < signum, p.getLsbD i = false) ∧
      ∀ i, rest.getLsbD i = (p.getLsbD i && decide (i ≠ signum)) := by
  unfold PendingSet.takeAny at h
  split_ifs at h with h0
  cases h
  have hbit : p.getLsbD p.ctz.toNat = true := BitVec.getLsbD_true_ctz_of_ne_zero h0
  have hlt : p.ctz.toNat < 64 := by
    by_contra hge
    rw [BitVec.getLsbD_of_ge _ _ (not_lt.1 hge)] at hbit
    cases hbit
  refine ⟨hlt, hbit, fun i hi => BitVec.getLsbD_false_of_lt_ctz hi, fun i => ?_⟩
  by_cases hi : i < 64
  · simp [hi]
  · simp [BitVec.getLsbD_of_ge _ _ (not_lt.1 hi)]

theorem takeAny_eq_none : p.takeAny = none ↔ p = 0 := by
  simp [PendingSet.takeAny]

theorem takeAny_of_sigkill (h : p.getLsbD sigkill = true) :
    ∃ signum rest, p.takeAny = some (signum, rest) ∧ signum ≤ sigkill := by
  rcases ht : p.takeAny with _ | ⟨signum, rest⟩
  · rw [takeAny_eq_none] at ht
    rw [ht] at h
    simp at h
  · refine ⟨signum, rest, rfl, ?_⟩
    by_contra hlt
    have hlow := (takeAny_spec ht).2.2.1 sigkill (not_le.1 hlt)
    rw [h] at hlow
    cases hlow

theorem outcomeOf_terminate {table : SigTable} {n : ℕ} (h : outcomeOf table signum = .terminate n) :
    signum = sigkill ∨ signum = sigterm := by
  by_cases hkill : signum = sigkill
  · exact .inl hkill
  by_cases hterm : signum = sigterm
  · exact .inr hterm
  unfold outcomeOf at h
  rw [if_neg hkill] at h
  split at h
  · split at h
    · cases h
    · cases h
    · cases h
  · cases h

/-! ## The frame on the user stack -/

structure SignalFrameLayout where
  ctxAddr : Word
  retAddrSlot : Word
deriving DecidableEq

/-- `size_of::<SavedUserContext>()`: eighteen words -/
def ctxSize : ℕ := 144

def computeSignalFrameLayout (userRsp : Word) : SignalFrameLayout :=
  let redZoneBottom := userRsp - 128#64
  let ctxAddr := (redZoneBottom - BitVec.ofNat 64 ctxSize) &&& ~~~0xf#64
  ⟨ctxAddr, ctxAddr - 8#64⟩

/-! ## Registers -/

/-- `SavedUserContext`, which is also the register file of user mode -/
structure SavedUserContext where
  userRip : Word
  userRsp : Word
  userRflags : Word
  rax : Word
  rbx : Word
  rcx : Word
  rdx : Word
  rsi : Word
  rdi : Word
  rbp : Word
  r8 : Word
  r9 : Word
  r10 : Word
  r11 : Word
  r12 : Word
  r13 : Word
  r14 : Word
  r15 : Word
deriving DecidableEq

def SavedUserContext.zeroed : SavedUserContext := ⟨0, 0, 0, 0, 0, 0, 0, 0, 0, 0, 0, 0, 0, 0, 0, 0, 0, 0⟩

/-- the record a CPU keeps of the last system call entry -/
structure SyscallFrame where
  userRip : Word
  userRsp : Word
  userRflags : Word
  rbx : Word
  rbp : Word
  r12 : Word
  r13 : Word
  r14 : Word
  r15 : Word
deriving DecidableEq

/-- `InterruptFrame`, without the vector, the error code and SS -/
structure InterruptFrame where
  rdi : Word
  rsi : Word
  rbp : Word
  rax : Word
  rbx : Word
  rcx : Word
  rdx : Word
  r8 : Word
  r9 : Word
  r10 : Word
  r11 : Word
  r12 : Word
  r13 : Word
  r14 : Word
  r15 : Word
  rip : Word
  cs : Word
  rflags : Word
  rsp : Word
deriving DecidableEq

/-- what an interrupt of user code with these registers pushes; USER_CS is 0x23 -/
def InterruptFrame.ofUser (r : SavedUserContext) : InterruptFrame :=
  { rdi := r.rdi, rsi := r.rsi, rbp := r.rbp, rax := r.rax, rbx := r.rbx, rcx := r.rcx, rdx := r.rdx, r8 := r.r8,
    r9 := r.r9, r10 := r.r10, r11 := r.r11, r12 := r.r12, r13 := r.r13, r14 := r.r14, r15 := r.r15, rip := r.userRip,
    cs := 0x23, rflags := r.userRflags, rsp := r.userRsp }

/-- the registers after the stub's pops and `iretq` -/
def InterruptFrame.iretq (f : InterruptFrame) : SavedUserContext :=
  { userRip := f.rip, userRsp := f.rsp, userRflags := f.rflags, rax := f.rax, rbx := f.rbx, rcx := f.rcx, rdx := f.rdx,
    rsi := f.rsi, rdi := f.rdi, rbp := f.rbp, r8 := f.r8, r9 := f.r9, r10 := f.r10, r11 := f.r11, r12 :=
      f.r12, r13 := f.r13,
    r14 := f.r14, r15 := f.r15 }

/-- what the syscall trampoline records at entry -/
def SyscallFrame.ofUser (r : SavedUserContext) : SyscallFrame :=
  { userRip := r.userRip, userRsp := r.userRsp, userRflags := r.userRflags, rbx := r.rbx, rbp := r.rbp, r12 := r.r12,
    r13 := r.r13, r14 := r.r14, r15 := r.r15 }

/-- the context `setup_and_enter_handler` saves: the registers of the entry and the return value -/
def SavedUserContext.ofSyscall (frame : SyscallFrame) (retval : Word) : SavedUserContext :=
  { SavedUserContext.zeroed with
    userRip := frame.userRip, userRsp := frame.userRsp, userRflags := frame.userRflags, rax := retval, rbx := frame.rbx,
    rbp := frame.rbp, r12 := frame.r12, r13 := frame.r13, r14 := frame.r14, r15 := frame.r15 }

/-- the context `check_and_deliver_iret` saves -/
def SavedUserContext.ofInterrupt (frame : InterruptFrame) : SavedUserContext :=
  { userRip := frame.rip, userRsp := frame.rsp, userRflags := frame.rflags, rax := frame.rax, rbx := frame.rbx,
    rcx := frame.rcx, rdx := frame.rdx, rsi := frame.rsi, rdi := frame.rdi, rbp := frame.rbp, r8 := frame.r8,
    r9 := frame.r9, r10 := frame.r10, r11 := frame.r11, r12 := frame.r12, r13 := frame.r13, r14 := frame.r14,
    r15 := frame.r15 }

def signalHandlerRflags : Word := 0x202

/-- `check_and_deliver_iret` sends the interrupt return to the handler -/
def InterruptFrame.redirect (frame : InterruptFrame) (userFn retAddrSlot : Word) (signum : ℕ) : InterruptFrame :=
  { frame with rip := userFn, rsp := retAddrSlot, rflags := signalHandlerRflags, rdi := BitVec.ofNat 64 signum }

/-- `enter_signal_handler`; the registers it does not load are whatever the kernel left in them -/
def enterSignalHandler (kernelRegs : SavedUserContext) (userFn retAddrSlot : Word) (signum : ℕ) : SavedUserContext :=
  { kernelRegs with
    userRip := userFn, userRsp := retAddrSlot, userRflags := signalHandlerRflags, rax := 0, rdi := BitVec.ofNat 64 signum,
    rcx := userFn, r11 := signalHandlerRflags }

def enterUserModeRestoring (ctx : SavedUserContext) : SavedUserContext :=
  { ctx with rcx := ctx.userRip, r11 := ctx.userRflags }

end Rumicos.Proc.Signal
