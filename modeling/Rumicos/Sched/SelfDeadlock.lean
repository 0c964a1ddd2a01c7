/-
Interrupt handlers and the spin locks of the code they interrupt.

`keyboard_read` and the scheduler rely on the flag being off while they hold a lock that a handler takes. It is, until
the call has been through `thread_block_if`: from then on the call runs with interrupts on, `keyboard_read` takes
`KBD_RING` for its next look at the ring, and `thread_block_if`, `current_thread` and `Process::exit` take the scheduler
lock.
-/
import Rumicos.Sched.Interrupts

namespace Rumicos.Sched.Interrupts

open Lib List Option

/-- the handler on top waits for a lock that code under it holds -/
def selfDeadlock : List Frame → Bool
  | f :: below => f.phase == .irq && match f.code with
    | .lock l :: _ => below.any fun g => g.held.contains l
    | _ => false
  | [] => false

/-- an interrupt finds the CPU in user mode, or in the idle thread or the kernel thread of `main` -/
def Outside (stack : List Frame) : Act → Prop
  | .interrupt _ => ∀ f ∈ stack, f.phase = .kernel
  | _ => True

instance (stack : List Frame) (a : Act) : Decidable (Outside stack a) := by
  unfold Outside
  split <;> infer_instance

/-! ## Kernel threads -/

/-- where a kernel thread holds nothing -/
inductive Steady : List Op → Prop
  | idle : Steady [.idle]
  | sti : Steady [.sti, .plain, .cli, .idle]
  | hlt : Steady [.plain, .cli, .idle]
  | cli : Steady [.cli, .idle]
  | kidle : Steady [.kidle]
  | enter (cpu : ℕ) : Steady [.cli, .schedule cpu, .sti, .kidle]
  | back : Steady [.sti, .kidle]

/-- between the `cli` of `thread_yield` and the switch, and the locks held there -/
inductive Yielding : List Op → List Lock → Prop
  | call (cpu : ℕ) : Yielding [.schedule cpu, .sti, .kidle] []
  | lock (cpu : ℕ) : Yielding [.lock (.sched cpu), .pick cpu, .sti, .kidle] []
  | pick (cpu : ℕ) : Yielding [.pick cpu, .sti, .kidle] [.sched cpu]

def Frame.Rests (f : Frame) : Prop := Steady f.code ∧ f.held = []

/-- a kernel thread holds a lock only with the flag off; a frame under an interrupt holds none -/
def LockRunning (iflag : Bool) : List Frame → Prop
  | [] => True
  | [f] => f.phase = .kernel → f.Rests ∨ Yielding f.code f.held ∧ iflag = false
  | f :: g :: below => f.phase ≠ .kernel ∧ g.Rests ∧ below = []

/-- the same of a thread that is not running -/
def LockOff : List Frame → Prop
  | [] => True
  | [f] => f.phase = .kernel → f.Rests
  | f :: g :: below => f.phase ≠ .kernel ∧ g.Rests ∧ below = []

theorem lockRunning_of_off (stack : List Frame) (iflag : Bool) (h : LockOff stack) : LockRunning iflag stack := by
  match stack, h with
  | [], _ => trivial
  | [_], h => exact fun hp => .inl (h hp)
  | _ :: _ :: _, h => exact h

theorem execOp_stack {cpu k : ℕ} {iflag : Bool} {locks : List Lock} {f : Frame} {below : List Frame} {op : Op}
    {rest : List Op} {o : Outcome}
    (ho : execOp cpu k iflag locks f below rest op = some o) :
    (o.stack = below ∧ o.next = none) ∨ o.stack = [Frame.new .start [.dead]] ∨
      ∃ f', o.stack = f' :: below ∧ (f'.phase = .kernel → f.phase = .kernel) := by
  by_cases hexp : op.expands = true
  · rw [execOp_expands hexp] at ho
    cases ho
    exact .inr (.inr ⟨_, rfl, id⟩)
  cases op with
  | sysret | iret =>
    cases ho
    exact .inl ⟨rfl, rfl⟩
  | leave c =>
    cases ho
    exact .inr (.inl rfl)
  | lock l =>
    rw [execOp] at ho
    split_ifs at ho
    cases ho
    exact .inr (.inr ⟨_, rfl, id⟩)
  | tryPush l again =>
    rw [execOp] at ho
    split_ifs at ho
    all_goals
      cases ho
      exact .inr (.inr ⟨_, rfl, id⟩)
  | handlerReturn | commit =>
    cases ho
    exact .inr (.inr ⟨_, rfl, nofun⟩)
  | dead => cases ho
  | cli | sti | unlock | pick | parsed =>
    cases ho
    exact .inr (.inr ⟨_, rfl, id⟩)
  | _ => exact absurd rfl hexp

theorem kernel_exec {cpu k : ℕ} {iflag : Bool} {locks : List Lock} {f : Frame} {op : Op} {rest : List Op} {o : Outcome}
    (h : f.Rests ∨ Yielding f.code f.held ∧ iflag = false) (hcode : f.code = op :: rest)
    (ho : execOp cpu k iflag locks f [] rest op = some o) :
    ∃ f', o.stack = [f'] ∧ (f'.Rests ∨ Yielding f'.code f'.held ∧ o.iflag = false) ∧ (o.next ≠ none → f'.Rests) := by
  obtain ⟨phase, code, opened, masked, held⟩ := f
  obtain rfl : code = op :: rest := hcode
  rcases h with ⟨hcode, hheld⟩ | ⟨hcode, hflag⟩
  · obtain rfl : held = [] := hheld
    cases hcode with
    | enter c =>
      cases ho
      exact ⟨_, rfl, .inr ⟨.call c, rfl⟩, fun hne => absurd rfl hne⟩
    | _ =>
      cases ho
      exact ⟨_, rfl, .inl ⟨by constructor, rfl⟩, fun hne => absurd rfl hne⟩
  · cases hcode with
    | call c =>
      cases ho
      exact ⟨_, rfl, .inr ⟨.lock c, hflag⟩, fun hne => absurd rfl hne⟩
    | lock c =>
      rw [execOp] at ho
      split_ifs at ho
      cases ho
      exact ⟨_, rfl, .inr ⟨.pick c, hflag⟩, fun hne => absurd rfl hne⟩
    | pick c =>
      cases ho
      have hheld : ([.sched c] : List Lock).erase (.sched c) = [] := erase_cons_head _ _
      exact ⟨_, rfl, .inl ⟨.back, hheld⟩, fun _ => ⟨.back, hheld⟩⟩

theorem lockRunning_keeps : Keeps LockRunning LockOff Outside := by
  intro cpu iflag locks stack a o h hC ho
  cases a with
  | syscall call =>
    obtain ⟨rfl, rfl⟩ := act_syscall ho
    exact ⟨fun _ => nofun, fun hne => absurd rfl hne⟩
  | interrupt i =>
    rw [act_interrupt] at ho
    split_ifs at ho with hflag
    cases ho
    refine ⟨fun _ => ?_, fun hne => absurd rfl hne⟩
    match stack, h, hC with
    | [], _, _ => exact nofun
    | [f], h, hC =>
      refine ⟨nofun, ?_, rfl⟩
      rcases h (hC f mem_cons_self) with hrests | ⟨-, hoff⟩
      · exact hrests
      · rw [hoff] at hflag
        cases hflag
    | f :: g :: below, h, hC => exact absurd (hC f mem_cons_self) h.1
  | exec k =>
    obtain ⟨f, below, op, rest, rfl, hcode, ho⟩ := act_exec ho
    by_cases hkernel : below = [] ∧ f.phase = .kernel
    · obtain ⟨rfl, hphase⟩ := hkernel
      obtain ⟨f', hstack, hrun, hoff⟩ := kernel_exec (h hphase) hcode ho
      rw [hstack]
      exact ⟨fun _ _ => hrun, fun hne _ => hoff hne⟩
    -- any other frame may do what it likes with the frames under it at rest
    have hoff : ∀ f' : Frame, (f'.phase = .kernel → f.phase = .kernel) → LockOff (f' :: below) := by
      intro f' hf'
      match below, h, hkernel with
      | [], _, hkernel => exact fun hp => absurd ⟨rfl, hf' hp⟩ hkernel
      | _ :: _, h, _ => exact ⟨fun hp => h.1 (hf' hp), h.2⟩
    rcases execOp_stack ho with ⟨hstack, hnext⟩ | hstack | ⟨f', hstack, hphase⟩
    · refine ⟨fun _ => ?_, fun hne => absurd hnext hne⟩
      rw [hstack]
      match below, h with
      | [], _ => trivial
      | [_], h => exact fun _ => .inl h.2.1
      | _ :: _ :: _, h => exact absurd h.2.2 (cons_ne_nil _ _)
    · rw [hstack]
      exact ⟨fun _ => nofun, fun _ => nofun⟩
    · rw [hstack]
      exact ⟨fun _ => lockRunning_of_off _ _ (hoff f' hphase), fun _ => hoff f' hphase⟩

theorem lockOff_new (n t : ℕ) : LockOff ((State.new n).threads t) := by
  unfold State.new
  dsimp only
  split_ifs
  · exact fun _ => ⟨.idle, rfl⟩
  · exact fun _ => ⟨.kidle, rfl⟩
  · exact nofun

theorem selfDeadlock_of_held (f : Frame) {below : List Frame} (h : ∀ g ∈ below, g.held = []) :
    selfDeadlock (f :: below) = false := by
  rw [selfDeadlock, Bool.and_eq_false_iff]
  right
  split
  · rw [List.any_eq_false]
    intro g hg
    rw [h g hg]
    exact Bool.false_ne_true
  · rfl

/-- **No self-deadlock.** In a run whose interrupts all arrive in user mode or in a kernel thread, no CPU is in a
handler that waits for a lock of the code it interrupted. -/
theorem no_self_deadlock_run (n : ℕ) (as : List (Fin n × Act)) (s : State n) (hrun : run (State.new n) as = some s)
    (hC : Meets step (On Outside) (State.new n) as) (c : Fin n) : selfDeadlock (s.stack c) = false := by
  have h := (inv_run lockRunning_of_off lockRunning_keeps lockOff_new hC hrun).running c
  match hstack : s.stack c, h with
  | [], _ => rfl
  | [f], _ => exact selfDeadlock_of_held f nofun
  | f :: g :: below, h =>
    obtain ⟨-, ⟨-, hheld⟩, rfl⟩ := h
    apply selfDeadlock_of_held
    intro g' hg'
    rw [mem_singleton.1 hg', hheld]

/-- the reader sleeps and is woken by a key while the idle thread runs -/
theorem keyboard_wait_no_deadlock :
    ∃ s, run (State.new 1) keyboardWait = some s ∧ Meets step (On Outside) (State.new 1) keyboardWait ∧
    selfDeadlock (s.stack 0) = false := by
  have hrun : (run (State.new 1) keyboardWait).isSome = true := by decide +kernel
  obtain ⟨s, hs⟩ := isSome_iff_exists.1 hrun
  have hmeets : Meets step (On Outside) (State.new 1) keyboardWait := by decide +kernel
  exact ⟨s, hs, hmeets, no_self_deadlock_run 1 _ s hs hmeets 0⟩

/-- the woken reader takes `KBD_RING` with interrupts on, and the next key interrupts it there -/
theorem keyboard_read_deadlocks :
    ∃ s, run (State.new 1) (keyboardWait ++ execs [0, 0, 0] ++ (0, .interrupt .keyboard) :: execs [0]) = some s ∧
      selfDeadlock (s.stack 0) = true ∧ (s.cpus 0).iflag = false ∧ .kbdRing ∈ s.locks ∧
      (step s (0, .exec 0)).isNone = true := by
  decide +kernel

end Rumicos.Sched.Interrupts
