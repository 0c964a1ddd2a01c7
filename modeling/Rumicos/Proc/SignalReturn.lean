/-
The way back from a signal handler (`crates/proc/src/signal.rs`, `syscall.rs`, `fork.rs`).

Delivery saves the interrupted context in `sig_frame`, sigreturn takes it out and loads it. There is one `sig_frame` a
process, so a second signal waits until the handler has returned; fork gives the child an empty one, whatever the parent
is doing.
-/
import Rumicos.Proc.UserContexts

namespace Rumicos.Proc.UserContexts.SignalReturn

open Lib Proc.Signal List Option

/-! ## The property and its condition -/

/-- the registers are those of `c`, RCX and R11 apart -/
def Restored (r c : SavedUserContext) : Prop := { r with rcx := c.rcx, r11 := c.r11 } = c

/-- a process in a handler that returns now resumes what the handler interrupted -/
def Returns (s : System) : Prop :=
  ∀ t ∈ s.threads, t.mode ≠ .dead → ∀ c rest, t.handlers = c :: rest → t.sigreturn.mode = .user ∧
    Restored t.sigreturn.regs c

/-- the registers a system call is allowed to clobber, RAX, RCX and R11 apart -/
def CallerSavedZero (r : SavedUserContext) : Prop :=
  r.rdx = 0 ∧ r.rsi = 0 ∧ r.rdi = 0 ∧ r.r8 = 0 ∧ r.r9 = 0 ∧ r.r10 = 0

instance (r : SavedUserContext) : Decidable (CallerSavedZero r) := by unfold CallerSavedZero; infer_instance

def ThreadOk (s : System) (t : Thread) : Act → Prop
  | .fork _ cpu _ => t.mode = .call (some cpu) → t.sigFrame = none
  | .finish _ cpu _ _ (.deliver _ _) =>
    s.Runs t cpu → t.sigFrame = none →
      s.currentSyscallFrame cpu = SyscallFrame.ofUser t.regs ∧ CallerSavedZero t.regs
  | _ => True

def StepOk (s : System) (a : Act) : Prop :=
  match s.threads[a.thread]? with
  | none => True
  | some t => ThreadOk s t a

instance (s : System) (t : Thread) (a : Act) : Decidable (ThreadOk s t a) := by
  unfold ThreadOk
  split <;> infer_instance

instance (s : System) (a : Act) : Decidable (StepOk s a) := by
  unfold StepOk
  split <;> infer_instance

/-! ## Saving and loading a context -/

theorem restored_interrupt (r : SavedUserContext) :
    Restored (enterUserModeRestoring (SavedUserContext.ofInterrupt (InterruptFrame.ofUser r))) r := rfl

theorem restored_syscall_iff (frame : SyscallFrame) (r : SavedUserContext) (retval : Word) :
    Restored (enterUserModeRestoring (SavedUserContext.ofSyscall frame retval)) { r with rax := retval } ↔
      frame = SyscallFrame.ofUser r ∧ CallerSavedZero r := by
  obtain ⟨f1, f2, f3, f4, f5, f6, f7, f8, f9⟩ := frame
  simp only [Restored, enterUserModeRestoring, SavedUserContext.ofSyscall, SavedUserContext.zeroed, SyscallFrame.ofUser,
    CallerSavedZero]
  grind

/-! ## The invariant -/

/-- a process is in no handler, or in one whose context is in `sig_frame` -/
def Settled (t : Thread) : Prop :=
  t.mode = .dead ∨ t.handlers = [] ∧ t.sigFrame = none ∨
    ∃ c f, t.handlers = [c] ∧ t.sigFrame = some f ∧ Restored (enterUserModeRestoring f) c

def Inv (s : System) : Prop := ∀ t ∈ s.threads, Settled t

variable {s : System} {t : Thread}

theorem Inv.returns (h : Inv s) : Returns s := by
  intro t ht hlive c rest hc
  rcases h t ht with hd | ⟨hn, -⟩ | ⟨c', f, hn, hf, hr⟩
  · exact absurd hd hlive
  · rw [hn] at hc
    cases hc
  · rw [hn] at hc
    cases hc
    simp only [Thread.sigreturn, hf]
    exact ⟨trivial, hr⟩

theorem Inv.set {i : ℕ} (h : Inv s) (ht : Settled t) : Inv (s.set i t) :=
  forall_mem_set h ht

/-- only the handlers and `sig_frame` count, as long as the thread lives -/
theorem Settled.congr {t' : Thread} (h : Settled t) (hlive : t.mode ≠ .dead) (hh : t'.handlers = t.handlers)
    (hf : t'.sigFrame = t.sigFrame) : Settled t' := by
  rcases h with hd | h
  · exact absurd hd hlive
  · right
    rw [hh, hf]
    exact h

theorem Settled.handlers_eq_nil (h : Settled t) (hlive : t.mode ≠ .dead) (hf : t.sigFrame = none) :
    t.handlers = [] := by
  rcases h with hd | ⟨hh, -⟩ | ⟨c, f, -, hs, -⟩
  · exact absurd hd hlive
  · exact hh
  · rw [hf] at hs
    cases hs

theorem settled_sigreturn (h : Settled t) (hlive : t.mode ≠ .dead) : Settled t.sigreturn := by
  cases hf : t.sigFrame with
  | none =>
    left
    simp [Thread.sigreturn, hf]
  | some f =>
    right; left
    rcases h with hd | ⟨-, hn⟩ | ⟨c, g, hc, -, -⟩
    · exact absurd hd hlive
    · rw [hn] at hf
      cases hf
    · simp [Thread.sigreturn, hf, hc]

theorem settled_deliverIret (h : Settled t) (hlive : t.mode ≠ .dead) (outcome : SignalOutcome) :
    Settled (t.deliverIret outcome) := by
  unfold Thread.deliverIret
  cases hf : t.sigFrame with
  | some f => exact h
  | none =>
    cases outcome with
    | none => exact h
    | terminate n => exact .inl rfl
    | deliver userFn n =>
      have hh := h.handlers_eq_nil hlive hf
      right; right
      exact ⟨t.regs, _, by rw [hh]; rfl, rfl, restored_interrupt t.regs⟩

/-- **Delivery on the system call path**: the saved context is the interrupted one exactly under the condition. -/
theorem settled_deliver {frame : SyscallFrame} {retval : Word} {kernelRegs : SavedUserContext} (h : Settled t)
    (hlive : t.mode ≠ .dead) (outcome : SignalOutcome)
    (hok : ∀ userFn n, outcome = .deliver userFn n → t.sigFrame = none → frame = SyscallFrame.ofUser t.regs ∧
    CallerSavedZero t.regs) :
    Settled (t.deliver frame retval kernelRegs outcome) := by
  unfold Thread.deliver
  cases hf : t.sigFrame with
  | some f => exact h.congr hlive rfl hf.symm
  | none =>
    cases outcome with
    | none => exact h.congr hlive rfl hf.symm
    | terminate n => exact .inl rfl
    | deliver userFn n =>
      have hh := h.handlers_eq_nil hlive hf
      right; right
      refine ⟨{ t.regs with rax := retval }, _, by rw [hh]; rfl, rfl, ?_⟩
      exact (restored_syscall_iff _ _ _).2 (hok userFn n rfl hf)

/-! ## Steps -/

/-- **A step within the condition keeps the invariant.** -/
theorem step_settled {s' : System} {a : Act} (h : Inv s) (hok : StepOk s a) (hstep : step s a = some s') : Inv s' := by
  obtain ⟨t, ht, hstep⟩ := step_inv hstep
  have hset := h t (mem_of_thread ht)
  have hcond : ThreadOk s t a := by
    unfold StepOk at hok
    rw [ht] at hok
    exact hok
  cases a with
  | user i regs =>
    simp only [stepThread, ite_none_right_eq_some, some.injEq] at hstep
    obtain ⟨hm, rfl⟩ := hstep
    exact h.set (hset.congr (by rw [hm]; decide) rfl rfl)
  | interrupt i outcome =>
    simp only [stepThread, ite_none_right_eq_some, some.injEq] at hstep
    obtain ⟨hm, rfl⟩ := hstep
    exact h.set (settled_deliverIret hset (by rw [hm]; decide) outcome)
  | enter i cpu =>
    simp only [stepThread, ite_none_right_eq_some, some.injEq] at hstep
    obtain ⟨⟨hm, -⟩, rfl⟩ := hstep
    exact Inv.set h (hset.congr (by rw [hm]; decide) rfl rfl)
  | block i =>
    simp only [stepThread] at hstep
    split at hstep
    next held hm =>
      cases hstep
      exact h.set (hset.congr (by rw [hm]; intro hd; cases hd) rfl rfl)
    next => cases hstep
  | fork i cpu stack =>
    simp only [stepThread, ite_none_right_eq_some, some.injEq] at hstep
    obtain ⟨hm, rfl⟩ := hstep
    have hh : t.handlers = [] := hset.handlers_eq_nil (by rw [hm]; intro hd; cases hd) (hcond hm)
    -- the child
    exact forall_mem_append.2 ⟨h, forall_mem_singleton.2 (.inr (.inl ⟨hh, rfl⟩))⟩
  | execve i regs =>
    simp only [stepThread] at hstep
    split at hstep
    next held hm =>
      cases hstep
      exact h.set (.inr (.inl ⟨rfl, rfl⟩))
    next => cases hstep
  | finish i cpu retval kernelRegs outcome =>
    simp only [stepThread, ite_none_right_eq_some, some.injEq] at hstep
    obtain ⟨hr, rfl⟩ := hstep
    apply h.set
    apply settled_deliver hset
    · intro hd
      rcases hr with hm | ⟨hm, -⟩
      · rw [hm] at hd
        cases hd
      · rw [hm] at hd
        cases hd
    · intro userFn n ho hf
      subst ho
      exact hcond hr hf
  | sigreturn i cpu =>
    simp only [stepThread, ite_none_right_eq_some, some.injEq] at hstep
    obtain ⟨⟨hm, -⟩, rfl⟩ := hstep
    exact Inv.set h (settled_sigreturn hset (by rw [hm]; decide))
  | exit i =>
    simp only [stepThread, ite_none_right_eq_some, some.injEq] at hstep
    obtain ⟨-, rfl⟩ := hstep
    exact h.set (.inl rfl)

theorem fork_unsettled {cpu : Cpu} (ht : Settled t) (hm : t.mode = .call (some cpu)) (hf : t.sigFrame ≠ none) (i : ℕ)
    (stack : Option Word) : ∃ s', stepThread s i t (.fork i cpu stack) = some s' ∧ ¬ Returns s' := by
  refine ⟨_, if_pos hm, ?_⟩
  intro hret
  rcases ht with hd | ⟨-, hn⟩ | ⟨c, f, hc, -, -⟩
  · rw [hm] at hd
    cases hd
  · exact hf hn
  · have hchild := hret _ (mem_append_right _ (mem_singleton_self _)) Mode.noConfusion c [] hc
    cases hchild.1

theorem finish_unsettled {cpu : Cpu} {i : ℕ} {userFn : Word} {n : ℕ} (ht : s.threads[i]? = some t) (hr : s.Runs t cpu)
    (hf : t.sigFrame = none) (retval : Word) (kernelRegs : SavedUserContext)
    (hbad : ¬ (s.currentSyscallFrame cpu = SyscallFrame.ofUser t.regs ∧ CallerSavedZero t.regs)) :
    ∃ s', stepThread s i t (.finish i cpu retval kernelRegs (.deliver userFn n)) = some s' ∧ ¬ Returns s' := by
  refine ⟨_, if_pos hr, ?_⟩
  intro hret
  apply hbad
  rw [← restored_syscall_iff _ _ retval]
  have hlt : i < s.threads.length := (List.getElem?_eq_some_iff.1 ht).1
  have hmem : t.deliver (s.currentSyscallFrame cpu) retval kernelRegs (.deliver userFn n) ∈
      (s.set i (t.deliver (s.currentSyscallFrame cpu) retval kernelRegs (.deliver userFn n))).threads :=
    mem_set hlt _
  unfold Thread.deliver at hmem hret
  simp only [hf] at hmem hret
  exact (hret _ hmem Mode.noConfusion _ _ rfl).2

/-- **A step outside the condition breaks somebody's return.** -/
theorem step_unsettled {a : Act} (h : Inv s) (hbad : ¬ StepOk s a) : ∃ s', step s a = some s' ∧ ¬ Returns s' := by
  unfold StepOk at hbad
  cases ht : s.threads[a.thread]? with
  | none =>
    rw [ht] at hbad
    exact absurd trivial hbad
  | some t =>
    rw [ht] at hbad
    have hset := h t (mem_of_thread ht)
    unfold step
    rw [ht]
    cases a with
    | fork i cpu stack =>
      obtain ⟨hm, hf⟩ := Classical.not_imp.1 hbad
      exact fork_unsettled hset hm hf i stack
    | finish i cpu retval kernelRegs outcome =>
      cases outcome with
      | deliver userFn n =>
        obtain ⟨hr, hbad⟩ := Classical.not_imp.1 hbad
        obtain ⟨hf, hbad⟩ := Classical.not_imp.1 hbad
        exact finish_unsettled ht hr hf retval kernelRegs hbad
      | none | terminate n => exact absurd trivial hbad
    | _ => exact absurd trivial hbad

/-! ## Whole runs -/

/-- **The interrupted context comes back.** Along a run, whoever is in a handler would resume what it interrupted, exactly
if no process forks or clones inside a handler, and each delivery on a system call return finds the caller's own frame and
zeros in the registers it does not save. -/
theorem context_restored_iff {s : System} (h : Inv s) (as : List Act) :
    Meets step StepOk s as ↔ ∀ k s', run s (as.take k) = some s' → Returns s' :=
  meets_iff_reached Inv (fun _ _ _ h hok hs => step_settled h hok hs) (fun _ _ h hbad => step_unsettled h hbad)
    (fun _ h => h.returns) h

/-- one process in user mode -/
def single (r : SavedUserContext) : System :=
  ⟨fun _ => SyscallFrame.ofUser SavedUserContext.zeroed, [⟨r, .user, none, []⟩]⟩

theorem inv_single (r : SavedUserContext) : Inv (single r) :=
  forall_mem_singleton.2 (.inr (.inl ⟨rfl, rfl⟩))

/-- a handler that makes a system call, gets another signal and returns -/
theorem context_restored_interrupted :
    ∃ r as, (∀ k s', run (single r) (as.take k) = some s' → Returns s') ∧ r.rsi = 5 ∧
      (run (single r) as).any (fun s' => s'.threads.all fun t => t.sigFrame = none ∧ t.regs.rsi = 5) = true := by
  refine ⟨{ SavedUserContext.zeroed with userRip := 0x401000, userRsp := 0x6000, rsi := 5 },
    [.interrupt 0 (.deliver 0x402000 10), .enter 0 0, .block 0, .finish 0 0 1 SavedUserContext.zeroed
      (.deliver 0x403000 12),
      .interrupt 0 (.deliver 0x403000 12), .sigreturn 0 0], ?_, rfl, by decide +kernel⟩
  apply (context_restored_iff (inv_single _) _).1
  decide +kernel

/-- **Forked in a handler.** A signal interrupts the process, its handler forks and both return from it: the parent
resumes, the child is killed. -/
theorem forked_in_handler :
    ∃ r as, (run (single r) as).any (fun s => s.threads.map Thread.mode = [.user, .dead] ∧
      s.threads.map Thread.handlers = [[], [r]] ∧ s.threads.map Thread.sigFrame = [none, none]) = true := by
  refine ⟨{ SavedUserContext.zeroed with userRip := 0x401000, userRsp := 0x6000 },
    [.interrupt 0 (.deliver 0x402000 10), .enter 0 0, .fork 0 0 none, .finish 0 0 1 SavedUserContext.zeroed .none,
      .sigreturn 0 0, .sigreturn 1 0], ?_⟩
  decide +kernel

end Rumicos.Proc.UserContexts.SignalReturn
