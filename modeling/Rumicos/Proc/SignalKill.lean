/-
SIGKILL against everything else that can be going on in a process (`crates/proc/src/signal.rs`, `exec.rs`, `syscall.rs`).

One process: its pending set, its table of actions, whether a handler is in flight (`sig_frame`), and whether it is in
user mode or in the kernel. Signals are raised at any time by anyone. A return to user mode is one step: `take_any` is
one atomic operation, and the process's table and `sig_frame` are changed by the process alone. Not every return looks
at the pending set: sigreturn and a successful execve enter user mode directly.

History variables, read by no step: `kill` and `late`.
-/
import Rumicos.Lib.Run
import Rumicos.Proc.Signal

namespace Rumicos.Proc.SignalKill

open Lib Proc.Signal

/-! ## The process -/

/-- what the process is in the kernel for -/
inductive Trap where
  /-- the timer, a device, a page fault that was resolved -/
  | interrupt
  /-- a page fault that was not -/
  | fault
  | exit
  | sigaction (signum : ℕ) (action : SigAction Word)
  | sigreturn
  | execve (ok : Bool)
  /-- any other system call -/
  | call
deriving DecidableEq

inductive Mode where
  | user
  | kernel (trap : Trap)
  | dead
deriving DecidableEq

/-- history: SIGKILL has not been raised, has been raised, has been raised and the process returned to user mode since -/
inductive Kill where
  | none
  | raised
  | missed
deriving DecidableEq

structure Process where
  pending : PendingSet
  table : SigTable
  /-- a handler is in flight -/
  sigFrame : Bool
  mode : Mode
  /-- history -/
  kill : Kill
  /-- history: an instruction of user mode ran when SIGKILL had been missed -/
  late : Bool
deriving DecidableEq

/-- `sys_sigaction` -/
def setAction (table : SigTable) (signum : ℕ) (action : SigAction Word) : SigTable :=
  if signalIsCatchable signum then Function.update table (Fin.ofNat 32 signum) action else table

/-- `deliver_on_syscall_return` and `check_and_deliver_iret` -/
def Process.deliver (p : Process) : Process :=
  if p.sigFrame then { p with mode := .user }
  else
    match decideNextSignal p.pending p.table with
    | (.none, rest) => { p with pending := rest, mode := .user }
    | (.terminate _, rest) => { p with pending := rest, mode := .dead }
    | (.deliver _ _, rest) => { p with pending := rest, sigFrame := true, mode := .user }

/-- the end of a trap -/
def Process.leave (p : Process) : Trap → Process
  | .interrupt => p.deliver
  | .fault => { p with mode := .dead }
  | .exit => { p with mode := .dead }
  | .sigaction signum action => { p with table := setAction p.table signum action }.deliver
  -- a sigreturn without a handler in flight kills the process
  | .sigreturn => if p.sigFrame then { p with sigFrame := false, mode := .user } else { p with mode := .dead }
  | .execve true => { p with table := SigTable.new, sigFrame := false, pending := 0, mode := .user }
  | .execve false => p.deliver
  | .call => p.deliver

inductive Act where
  /-- `kill` by any process, or the SIGCHLD of a child's exit -/
  | raise (signum : ℕ)
  /-- an instruction of user mode -/
  | instr
  | trap (t : Trap)
  /-- the trap is over -/
  | ret
deriving DecidableEq

def step (p : Process) : Act → Option Process
  | .raise signum =>
    if 0 < signum ∧ signum < nsig then
      some { p with
        pending := p.pending.raise signum
        kill := if signum = sigkill ∧ p.kill = .none then .raised else p.kill }
    else none
  | .instr => if p.mode = .user then some { p with late := p.late || p.kill == .missed } else none
  | .trap t => if p.mode = .user then some { p with mode := .kernel t } else none
  | .ret =>
    match p.mode with
    | .kernel t =>
      let q := p.leave t
      some { q with kill := if q.mode = .user ∧ q.kill = .raised then .missed else q.kill }
    | _ => none

def run (p : Process) (as : List Act) : Option Process := as.foldlM step p

/-- an instruction that runs now runs in time -/
def OnTime (p : Process) : Prop := ∀ q, step p .instr = some q → q.late = false

/-! ## The condition -/

/-- what the return from a trap asks of the process while SIGKILL is pending -/
def ReturnOk (p : Process) : Trap → Prop
  | .fault => True
  | .exit => True
  | .sigreturn => p.sigFrame = false
  | .execve true => False
  | _ => p.sigFrame = false ∧ ∀ n < sigkill, p.pending.getLsbD n = false

instance (p : Process) : (t : Trap) → Decidable (ReturnOk p t)
  | .interrupt => inferInstanceAs (Decidable (_ ∧ _))
  | .fault => .isTrue trivial
  | .exit => .isTrue trivial
  | .sigaction _ _ => inferInstanceAs (Decidable (_ ∧ _))
  | .sigreturn => inferInstanceAs (Decidable (_ = _))
  | .execve true => .isFalse id
  | .execve false => inferInstanceAs (Decidable (_ ∧ _))
  | .call => inferInstanceAs (Decidable (_ ∧ _))

def StepOk (p : Process) (a : Act) : Prop :=
  match a, p.mode with
  | .ret, .kernel t => p.pending.getLsbD sigkill = true → ReturnOk p t
  | _, _ => True

instance (p : Process) (a : Act) : Decidable (StepOk p a) := by
  unfold StepOk
  split
  · infer_instance
  · infer_instance

/-- the histories are right: nothing was late, and SIGKILL is pending exactly if it has been raised -/
structure Accounted (p : Process) : Prop where
  late : p.late = false
  kill : p.mode = .dead ∨ p.kill ≠ .missed ∧ (p.pending.getLsbD sigkill = true ↔ p.kill = .raised)

variable {p : Process}

theorem Accounted.onTime (h : Accounted p) : OnTime p := by
  intro q hq
  simp only [step] at hq
  split_ifs at hq with hm
  cases hq
  rcases h.kill with hd | ⟨hk, -⟩
  · rw [hd] at hm
    cases hm
  · simp [h.late, hk]

/-! ## Delivery -/

@[simp] theorem deliver_kill (p : Process) : p.deliver.kill = p.kill := by
  unfold Process.deliver
  split
  · rfl
  · split <;> rfl

@[simp] theorem deliver_late (p : Process) : p.deliver.late = p.late := by
  unfold Process.deliver
  split
  · rfl
  · split <;> rfl

@[simp] theorem leave_kill (p : Process) (t : Trap) : (p.leave t).kill = p.kill := by
  cases t with
  | sigreturn =>
    simp only [Process.leave]
    split <;> rfl
  | execve ok => cases ok <;> simp [Process.leave]
  | _ => simp [Process.leave]

@[simp] theorem leave_late (p : Process) (t : Trap) : (p.leave t).late = p.late := by
  cases t with
  | sigreturn =>
    simp only [Process.leave]
    split <;> rfl
  | execve ok => cases ok <;> simp [Process.leave]
  | _ => simp [Process.leave]

/-- a signal is taken and the process lives: it is in user mode with the rest of the pending set -/
theorem deliver_taken {signum : ℕ} {rest : PendingSet} (hf : p.sigFrame = false)
    (ht : p.pending.takeAny = some (signum, rest)) :
    p.deliver.pending = rest ∧
      (p.deliver.mode = .user ∨ p.deliver.mode = .dead ∧ ∃ n, outcomeOf p.table signum = .terminate n) := by
  have hd : decideNextSignal p.pending p.table = (outcomeOf p.table signum, rest) := by rw [decideNextSignal, ht]
  unfold Process.deliver
  rw [hf, hd]
  cases ho : outcomeOf p.table signum with
  | none | deliver userFn n => exact ⟨rfl, .inl rfl⟩
  | terminate n => exact ⟨rfl, .inr ⟨rfl, n, rfl⟩⟩

/-- **SIGKILL pending at a delivery point** ends the process, if no handler is in flight and no lower signal is pending. -/
theorem deliver_kills (hk : p.pending.getLsbD sigkill = true) (hf : p.sigFrame = false)
    (hlow : ∀ n < sigkill, p.pending.getLsbD n = false) : p.deliver.mode = .dead := by
  obtain ⟨signum, rest, ht, hle⟩ := takeAny_of_sigkill hk
  have hbit := (takeAny_spec ht).2.1
  have heq : signum = sigkill := by
    by_contra hne
    rw [hlow signum (lt_of_le_of_ne hle hne)] at hbit
    cases hbit
  subst heq
  have hd : decideNextSignal p.pending p.table = (.terminate sigkill, rest) := by
    rw [decideNextSignal, ht]
    simp [outcomeOf]
  unfold Process.deliver
  rw [hf, if_neg Bool.false_ne_true, hd]

theorem deliver_spares (hk : p.pending.getLsbD sigkill = true)
    (h : ¬ (p.sigFrame = false ∧ ∀ n < sigkill, p.pending.getLsbD n = false)) : p.deliver.mode = .user := by
  cases hf : p.sigFrame with
  | true =>
    unfold Process.deliver
    rw [hf, if_pos rfl]
  | false =>
    obtain ⟨signum, rest, ht, hle⟩ := takeAny_of_sigkill hk
    obtain ⟨-, hbit, hlow, -⟩ := takeAny_spec ht
    have hlt : signum < sigkill := by
      apply lt_of_le_of_ne hle
      intro heq
      exact h ⟨hf, heq ▸ hlow⟩
    rcases (deliver_taken hf ht).2 with hu | ⟨-, n, hn⟩
    · exact hu
    · rcases outcomeOf_terminate hn with he | he
      · exact absurd he (Nat.ne_of_lt hlt)
      · rw [he] at hlt
        exact absurd hlt (by decide)

theorem deliver_pending (hk : p.pending.getLsbD sigkill = false) : p.deliver.pending.getLsbD sigkill = false := by
  cases hf : p.sigFrame with
  | true =>
    unfold Process.deliver
    rw [hf]
    exact hk
  | false =>
    rcases ht : p.pending.takeAny with _ | ⟨signum, rest⟩
    · have hd : decideNextSignal p.pending p.table = (.none, p.pending) := by rw [decideNextSignal, ht]
      unfold Process.deliver
      rw [hf, hd]
      exact hk
    · rw [(deliver_taken hf ht).1, (takeAny_spec ht).2.2.2, hk, Bool.false_and]

/-! ## Returns -/

theorem leave_eq_deliver {t : Trap} (h1 : t ≠ .fault) (h2 : t ≠ .exit) (h3 : t ≠ .sigreturn) (h4 : t ≠ .execve true) :
    ∃ table, p.leave t = { p with table := table }.deliver ∧
      (ReturnOk p t ↔ p.sigFrame = false ∧ ∀ n < sigkill, p.pending.getLsbD n = false) := by
  cases t with
  | interrupt | call => exact ⟨p.table, rfl, Iff.rfl⟩
  | fault => exact absurd rfl h1
  | exit => exact absurd rfl h2
  | sigaction signum action => exact ⟨_, rfl, Iff.rfl⟩
  | sigreturn => exact absurd rfl h3
  | execve ok =>
    cases ok with
    | true => exact absurd rfl h4
    | false => exact ⟨p.table, rfl, Iff.rfl⟩

/-- **A return with SIGKILL pending** ends the process exactly under the condition. -/
theorem leave_mode (hk : p.pending.getLsbD sigkill = true) (t : Trap) :
    (ReturnOk p t → (p.leave t).mode = .dead) ∧ (¬ ReturnOk p t → (p.leave t).mode = .user) := by
  by_cases h1 : t = .fault
  · subst h1
    exact ⟨fun _ => rfl, fun h => absurd trivial h⟩
  by_cases h2 : t = .exit
  · subst h2
    exact ⟨fun _ => rfl, fun h => absurd trivial h⟩
  by_cases h3 : t = .sigreturn
  · subst h3
    cases hf : p.sigFrame with
    | true | false => simp [Process.leave, ReturnOk, hf]
  by_cases h4 : t = .execve true
  · subst h4
    exact ⟨fun h => h.elim, fun _ => rfl⟩
  obtain ⟨table, hl, hok⟩ := leave_eq_deliver (p := p) h1 h2 h3 h4
  rw [hl, hok]
  exact ⟨fun h => deliver_kills hk h.1 h.2, fun h => deliver_spares hk h⟩

theorem leave_pending (hk : p.pending.getLsbD sigkill = false) (t : Trap) :
    (p.leave t).pending.getLsbD sigkill = false := by
  cases t with
  | fault | exit => exact hk
  | sigreturn =>
    simp only [Process.leave]
    split
    · exact hk
    · exact hk
  | execve ok =>
    cases ok with
    | true => simp [Process.leave]
    | false => exact deliver_pending hk
  | interrupt | call => exact deliver_pending hk
  | sigaction signum action =>
    apply deliver_pending
    exact hk

/-! ## Runs -/

theorem accounted_step {q : Process} {a : Act} (h : Accounted p) (hok : StepOk p a) (hs : step p a = some q) :
    Accounted q := by
  cases a with
  | raise signum =>
    simp only [step] at hs
    by_cases hr : 0 < signum ∧ signum < nsig
    · rw [if_pos hr] at hs
      cases hs
      refine ⟨h.late, h.kill.imp_right ?_⟩
      intro hk
      have h9 : sigkill < 64 := by decide
      simp only [getLsbD_raise _ _ h9]
      by_cases hs9 : signum = sigkill
      · subst hs9
        cases hkill : p.kill with
        | none | raised => simp
        | missed => exact absurd hkill hk.1
      · have hne : ¬ sigkill = signum := fun he => hs9 he.symm
        simpa [hs9, hne] using hk
    · rw [if_neg hr] at hs
      cases hs
  | instr =>
    have hlate := h.onTime q hs
    simp only [step] at hs
    split_ifs at hs
    cases hs
    exact ⟨hlate, h.kill⟩
  | trap t =>
    simp only [step] at hs
    split_ifs at hs with hm
    cases hs
    refine ⟨h.late, .inr ?_⟩
    rcases h.kill with hd | hk
    · rw [hd] at hm
      cases hm
    · exact hk
  | ret =>
    simp only [step] at hs
    split at hs
    · rename_i t hm
      cases hs
      refine ⟨by simpa using h.late, ?_⟩
      have hk : p.kill ≠ .missed ∧ (p.pending.getLsbD sigkill = true ↔ p.kill = .raised) := by
        rcases h.kill with hd | hk
        · rw [hd] at hm
          cases hm
        · exact hk
      cases hbit : p.pending.getLsbD sigkill with
      | true =>
        simp only [StepOk, hm] at hok
        exact .inl ((leave_mode hbit t).1 (hok hbit))
      | false =>
        have hr : p.kill ≠ .raised := fun he => by
          rw [hk.2.2 he] at hbit
          cases hbit
        simp [hr, hk.1, leave_pending hbit t]
    · cases hs

theorem missed_step {a : Act} (h : Accounted p) (hbad : ¬ StepOk p a) : ∃ q, step p a = some q ∧ ¬ OnTime q := by
  cases a with
  | raise signum | instr | trap t => exact absurd trivial hbad
  | ret =>
    obtain ⟨t, hm, hbit, hno⟩ :
        ∃ t, p.mode = .kernel t ∧ p.pending.getLsbD sigkill = true ∧ ¬ ReturnOk p t := by
      cases hm : p.mode with
      | user | dead => exact absurd (by simp [StepOk, hm]) hbad
      | kernel t =>
        simp only [StepOk, hm] at hbad
        exact ⟨t, rfl, Classical.not_imp.1 hbad⟩
    have hu : (p.leave t).mode = .user := (leave_mode hbit t).2 hno
    have hr : p.kill = .raised := by
      rcases h.kill with hd | hk
      · rw [hd] at hm
        cases hm
      · exact hk.2.1 hbit
    refine ⟨{ p.leave t with kill := .missed }, ?_, ?_⟩
    · simp [step, hm, hu, hr]
    · intro hon
      have := hon { p.leave t with kill := .missed, late := true } (by simp [step, hu])
      cases this

/-- **SIGKILL is prompt.** Along a run, every instruction of user mode runs before the first return that follows a SIGKILL,
exactly if every return with SIGKILL pending ends the process for another reason, or is a delivery point that finds no
handler in flight and no lower signal pending. -/
theorem sigkill_prompt_iff {p : Process} (h : Accounted p) (as : List Act) :
    Meets step StepOk p as ↔ ∀ k q, run p (as.take k) = some q → OnTime q :=
  meets_iff_reached Accounted (fun _ _ _ h hok hs => accounted_step h hok hs) (fun _ _ h hbad => missed_step h hbad)
    (fun _ h => h.onTime) h

/-- a process with nothing pending and the default actions -/
def Process.new : Process := ⟨0, SigTable.new, false, .user, .none, false⟩

theorem accounted_new : Accounted Process.new := ⟨rfl, .inr ⟨by decide, by decide⟩⟩

/-- SIGTERM (15) and then SIGKILL: the next return ends the process -/
theorem sigkill_prompt_sigterm :
    ∃ as, (∀ k q, run Process.new (as.take k) = some q → OnTime q) ∧ (run Process.new as).any (·.mode = .dead) = true := by
  refine ⟨[.instr, .raise 15, .raise 9, .trap .interrupt, .ret], ?_, by decide +kernel⟩
  apply (sigkill_prompt_iff accounted_new _).1
  decide +kernel

/-- **A handler runs after SIGKILL.** SIGHUP has a handler; SIGHUP and SIGKILL are both raised before the next return. -/
theorem sigkill_after_sighup :
    ∃ as, (run Process.new as).any (fun p => p.late) = true := by
  refine ⟨[.trap (.sigaction 1 (.handler 0x401000)), .ret, .raise 1, .raise 9, .trap .interrupt, .ret, .instr], ?_⟩
  decide +kernel

end Rumicos.Proc.SignalKill
