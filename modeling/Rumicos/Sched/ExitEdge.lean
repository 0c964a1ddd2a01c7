/-
The interrupt flag on the way out of a system call, and in the second phase of `execve`.

SYSCALL clears the flag, and `sys_execve` says that every handler runs with it clear. `thread_block_if` sets it on its
way out, whether it blocked or not, and nothing clears it again before SYSRET.
-/
import Rumicos.Sched.Interrupts

namespace Rumicos.Sched.Interrupts

open Lib List Option Bool

/-- the instructions the property is about -/
def Frame.Exiting (f : Frame) : Prop := f.phase = .leaving ∨ f.phase = .committing

instance (f : Frame) : Decidable f.Exiting := by unfold Frame.Exiting; infer_instance

def Op.blocks : Op → Bool
  | .blockIf _ => true
  | _ => false

/-- the step does not enter a blocking primitive -/
def NoBlock : List Frame → Act → Prop
  | f :: _, .exec _ => f.code.head?.any Op.blocks = false
  | _, _ => True

instance (stack : List Frame) (a : Act) : Decidable (NoBlock stack a) := by
  unfold NoBlock
  split <;> infer_instance

/-! ## The shape of the code of a call -/

/-- may stand between a primitive's `cli` and its `sti` -/
def Op.inMask : Op → Bool
  | .lock _ | .unlock _ | .shouldBlock _ _ | .schedule _ | .pick _ => true
  | _ => false

/-- may stand in a call outside of that, before the handler returns -/
def Op.isOpen : Op → Bool
  | .plain | .lock _ | .unlock _ | .tryPush _ _ | .currentThread | .wake _ | .waitLoop _ | .ready _ | .blockIf _
  | .exit | .leave _ | .parsed => true
  | _ => false

/-- may stand after the handler has returned, or in the second phase of `execve` -/
def Op.isLate : Op → Bool
  | .plain | .lock _ | .unlock _ | .tryPush _ _ | .currentThread | .wake _ | .exit | .leave _ | .hook
  | .loadUserStack | .swapgs | .sysret => true
  | _ => false

/-- changes the phase of a call -/
def Op.turns : Op → Bool
  | .handlerReturn | .commit | .parsed => true
  | _ => false

/-- the code of a call, inside (`true`) or outside (`false`) a masked section -/
def wellFormed : Bool → List Op → Bool
  | masked, [] => !masked
  | true, op :: rest => if op = .sti then wellFormed false rest else op.inMask && wellFormed true rest
  | false, op :: rest =>
    if op = .cli then wellFormed true rest
    else if op = .handlerReturn ∨ op = .commit then rest.all Op.isLate else op.isOpen && wellFormed false rest

variable {code rest : List Op} {op : Op} {below : List Frame} {iflag : Bool} {f : Frame} {o : Outcome}

theorem wellFormed_open (h : code.all Op.isOpen = true) (rest : List Op) :
    wellFormed false (code ++ rest) = wellFormed false rest := by
  induction code with
  | nil => rfl
  | cons op code ih =>
    rw [all_cons, and_eq_true] at h
    rw [cons_append, wellFormed, ih h.2, h.1, Bool.true_and]
    have hcli : op ≠ .cli := fun he => by rw [he] at h; cases h.1
    have hturn : ¬ (op = .handlerReturn ∨ op = .commit) := by
      rintro (he | he) <;> · rw [he] at h; cases h.1
    rw [if_neg hcli, if_neg hturn]

theorem wellFormed_inMask (h : code.all Op.inMask = true) (rest : List Op) :
    wellFormed true (code ++ rest) = wellFormed true rest := by
  induction code with
  | nil => rfl
  | cons op code ih =>
    rw [all_cons, and_eq_true] at h
    have hsti : op ≠ .sti := fun he => by rw [he] at h; cases h.1
    rw [cons_append, wellFormed, ih h.2, h.1, Bool.true_and, if_neg hsti]

theorem expand_open (cpu k : ℕ) (h : op.isOpen = true) (hblock : ∀ q, op ≠ .blockIf q) :
    (expand cpu k op).all Op.isOpen = true := by
  cases op with
  | blockIf q => exact absurd rfl (hblock q)
  | ready w =>
    unfold expand
    split_ifs
    · rfl
    · rfl
    · simp [Op.isOpen]
  | wake q | exit => simp [expand, Op.isOpen]
  | _ => first | rfl | cases h

theorem expand_late (cpu k : ℕ) (h : op.isLate = true) : (expand cpu k op).all Op.isLate = true := by
  cases op with
  | hook =>
    unfold expand
    split_ifs <;> rfl
  | wake q | exit => simp [expand, Op.isLate]
  | _ => first | rfl | cases h

theorem expand_turns (cpu k : ℕ) (op : Op) : (expand cpu k op).all (fun o => !o.turns) = true := by
  cases op with
  | ready w =>
    unfold expand
    split_ifs
    · rfl
    · rfl
    · simp [Op.turns]
  | hook | shouldBlock q c | feed =>
    unfold expand
    split_ifs <;> rfl
  | wake q | exit => simp [expand, Op.turns]
  | _ => rfl

theorem wellFormed_expand (cpu k : ℕ) (hop : op.isOpen = true) (h : wellFormed false rest = true) :
    wellFormed false (expand cpu k op ++ rest) = true := by
  by_cases hblock : ∃ q, op = .blockIf q
  · obtain ⟨q, rfl⟩ := hblock
    exact h
  · rw [wellFormed_open (expand_open cpu k hop fun q hq => hblock ⟨q, hq⟩), h]

theorem wellFormed_call (call : Call) : wellFormed false call.code = true := by
  cases call with
  | wait w | sigreturn | exit => rfl
  | execve w => cases w <;> rfl
  | other tables wakes =>
    have htables : (tables.flatMap fun k => [Op.lock (.table k), .unlock (.table k)]).all Op.isOpen = true := by
      rw [all_flatMap]
      exact all_eq_true.2 fun _ _ => rfl
    have hwakes : (wakes.map Op.wake).all Op.isOpen = true := by
      rw [List.all_map]
      exact all_eq_true.2 fun _ _ => rfl
    have hall : (Op.currentThread :: ((tables.flatMap fun k => [Op.lock (.table k), .unlock (.table k)]) ++
      wakes.map .wake)).all
        Op.isOpen = true := by
      rw [all_cons, all_append, htables, hwakes]
      rfl
    have hcode : (Call.other tables wakes).code =
        (Op.currentThread :: ((tables.flatMap fun k => [Op.lock (.table k), .unlock (.table k)]) ++ wakes.map .wake)) ++
          ([.handlerReturn, .hook] ++ edge) := by
      simp [Call.code]
    rw [hcode, wellFormed_open hall]
    rfl

theorem wellFormed_cons {masked : Bool} (h : wellFormed masked (op :: rest) = true) (hcli : op ≠ .cli) (hsti : op ≠ .sti)
    (hturn : ¬ (op = .handlerReturn ∨ op = .commit)) :
    (if masked then op.inMask else op.isOpen) = true ∧ wellFormed masked rest = true := by
  cases masked with
  | true =>
    rw [wellFormed, if_neg hsti, and_eq_true] at h
    exact h
  | false =>
    rw [wellFormed, if_neg hcli, if_neg hturn, and_eq_true] at h
    exact h

theorem wellFormed_exec {masked : Bool} (h : wellFormed masked (op :: rest) = true) (hop : op.expands = true) (cpu k : ℕ) :
    wellFormed masked (expand cpu k op ++ rest) = true := by
  have hcli : op ≠ .cli := fun he => by rw [he] at hop; cases hop
  have hsti : op ≠ .sti := fun he => by rw [he] at hop; cases hop
  have hturn : ¬ (op = .handlerReturn ∨ op = .commit) := by
    rintro (he | he) <;> · rw [he] at hop; cases hop
  obtain ⟨hclass, hrest⟩ := wellFormed_cons h hcli hsti hturn
  cases masked with
  | false => exact wellFormed_expand cpu k hclass hrest
  | true =>
    have hmask : (expand cpu k op).all Op.inMask = true := by
      cases op with
      | shouldBlock q c =>
        unfold expand
        split_ifs <;> rfl
      | schedule c => rfl
      | _ => first | (cases hclass; done) | cases hop
    rw [wellFormed_inMask hmask, hrest]

/-! ## The invariant -/

/-- the frame of a system call -/
def Frame.IsCall (f : Frame) : Prop := f.phase = .handler ∨ f.Exiting

structure Frame.Ok (f : Frame) : Prop where
  handler : f.phase = .handler → wellFormed f.masked f.code = true
  exiting : f.Exiting → f.masked = false ∧ f.code.all Op.isLate = true
  other : f.phase ≠ .handler → (f.code.all fun o => !o.turns) = true

/-- a frame under an interrupt was interrupted with the flag set -/
def Below (below : List Frame) : Prop := ∀ g ∈ below, g.Ok ∧ (g.IsCall → g.masked = false → g.opened = true)

/-- outside of a masked section the flag of a system call says whether the call was through a blocking primitive -/
def Running (iflag : Bool) : List Frame → Prop
  | [] => True
  | f :: below => f.Ok ∧ (f.IsCall → f.masked = false → iflag = f.opened) ∧ Below below

/-- a system call leaves the CPU only inside a masked section -/
def Off : List Frame → Prop
  | [] => True
  | f :: below => f.Ok ∧ (f.IsCall → f.masked = true) ∧ Below below

theorem running_of_off (stack : List Frame) (iflag : Bool) (h : Off stack) : Running iflag stack := by
  cases stack with
  | nil => trivial
  | cons f below =>
    obtain ⟨hok, hmask, hbelow⟩ := h
    refine ⟨hok, fun hcall hopen => ?_, hbelow⟩
    exact absurd ((hmask hcall).symm.trans hopen) (by decide)

theorem running_below (h : Below below) : Running true below := by
  cases below with
  | nil => trivial
  | cons g below =>
    obtain ⟨hok, hopened⟩ := h g mem_cons_self
    exact ⟨hok, fun hcall hopen => (hopened hcall hopen).symm, fun g' hg' => h g' (mem_cons_of_mem _ hg')⟩

theorem Running.setCode (h : Running iflag (f :: below)) (hhandler : f.phase = .handler → wellFormed f.masked code = true)
    (hexiting : f.Exiting → code.all Op.isLate = true) (hother : f.phase ≠ .handler → (code.all fun o => !o.turns) = true)
    (held : List Lock) : Running iflag ((f.setCode code).setHeld held :: below) :=
  ⟨⟨hhandler, fun he => ⟨(h.1.exiting he).1, hexiting he⟩, hother⟩, h.2.1, h.2.2⟩

theorem Frame.Ok.head (h : f.Ok) (hcode : f.code = op :: rest) :
    (f.phase = .handler → wellFormed f.masked (op :: rest) = true) ∧
    (f.Exiting → f.masked = false ∧ op.isLate = true ∧ rest.all Op.isLate = true) ∧
    (f.phase ≠ .handler → op.turns = false ∧ (rest.all fun o => !o.turns) = true) := by
  refine ⟨fun hp => hcode ▸ h.handler hp, fun he => ?_, fun hp => ?_⟩
  · have hlate := h.exiting he
    rw [hcode, all_cons, and_eq_true] at hlate
    exact hlate
  · have hturns := h.other hp
    rw [hcode, all_cons, and_eq_true, not_eq_true'] at hturns
    exact hturns

/-- the thread keeps its CPU -/
theorem stays (hn : o.next = none) (h : Running o.iflag o.stack) :
    (o.next = none → Running o.iflag o.stack) ∧ (o.next ≠ none → Off o.stack) :=
  ⟨fun _ => h, fun hne => absurd hn hne⟩

theorem exec_keeps {cpu k : ℕ} {locks : List Lock} (h : Running iflag (f :: below)) (hcode : f.code = op :: rest)
    (ho : execOp cpu k iflag locks f below rest op = some o) :
    (o.next = none → Running o.iflag o.stack) ∧ (o.next ≠ none → Off o.stack) := by
  obtain ⟨hhandler, hexiting, hother⟩ := h.1.head hcode
  by_cases hexp : op.expands = true
  · rw [execOp_expands hexp] at ho
    cases ho
    have hnew : Running iflag ((f.setCode (expand cpu k op ++ rest)).setHeld f.held :: below) := by
      apply h.setCode
      · exact fun hp => wellFormed_exec (hhandler hp) hexp cpu k
      · intro he
        rw [all_append, expand_late cpu k (hexiting he).2.1, (hexiting he).2.2]
        rfl
      · intro hp
        rw [all_append, expand_turns, (hother hp).2]
        rfl
    exact stays rfl hnew
  -- a frame that only steps past `op`
  have hpast : ∀ held, op ≠ .cli → op ≠ .sti → ¬ (op = .handlerReturn ∨ op = .commit) →
      Running iflag ((f.setCode rest).setHeld held :: below) := fun held hcli hsti hturn =>
    h.setCode (fun hp => (wellFormed_cons (hhandler hp) hcli hsti hturn).2) (fun he => (hexiting he).2.2)
      (fun hp => (hother hp).2) held
  -- a frame whose phase changes
  have hturned : ∀ phase, phase ≠ .handler → op.turns = true → (op = .handlerReturn ∨ op = .commit) →
      Running iflag ((f.setCode rest).setPhase phase :: below) := by
    intro phase hphase hturns hturn
    have hp : f.phase = .handler := by
      by_contra hp
      rw [(hother hp).1] at hturns
      cases hturns
    have hwf := hhandler hp
    have hopen : f.masked = false := by
      cases hm : f.masked with
      | false => rfl
      | true =>
        rw [hm] at hwf
        rcases hturn with rfl | rfl <;> cases hwf
    have hlate : rest.all Op.isLate = true := by
      rw [hopen] at hwf
      rcases hturn with rfl | rfl <;> exact hwf
    have hnoturn : (rest.all fun o => !o.turns) = true := by
      rw [List.all_eq_true] at hlate ⊢
      intro op hop
      have := hlate op hop
      cases op <;> first | rfl | cases this
    exact ⟨⟨fun he => absurd he hphase, fun _ => ⟨hopen, hlate⟩, fun _ => hnoturn⟩, fun _ hm => h.2.1 (.inl hp) hm, h.2.2⟩
  cases op with
  | cli =>
    cases ho
    refine stays rfl ⟨⟨fun hp => ?_, fun he => ?_, fun hp => (hother hp).2⟩, fun _ hm => absurd hm (by nofun), h.2.2⟩
    · have hwf := hhandler hp
      cases hm : f.masked with
      | true => rw [hm] at hwf; cases hwf
      | false => rw [hm] at hwf; exact hwf
    · cases (hexiting he).2.1
  | sti =>
    cases ho
    refine stays rfl ⟨⟨fun hp => ?_, fun he => ?_, fun hp => (hother hp).2⟩, fun _ _ => ?_, h.2.2⟩
    · have hwf := hhandler hp
      cases hm : f.masked with
      | true => rw [hm] at hwf; exact hwf
      | false => rw [hm] at hwf; cases hwf
    · cases (hexiting he).2.1
    · exact (Bool.or_true f.opened).symm
  | lock l =>
    rw [execOp] at ho
    split_ifs at ho with htaken
    cases ho
    exact stays rfl (hpast _ (by nofun) (by nofun) (by simp))
  | unlock l =>
    cases ho
    exact stays rfl (hpast _ (by nofun) (by nofun) (by simp))
  | tryPush l again =>
    have hcons : ∀ (op' : Op) held, op'.isOpen = true → op'.isLate = true → op'.turns = false → op' ≠ .cli →
      ¬ (op' = .handlerReturn ∨ op' = .commit) →
        Running iflag ((f.setCode (op' :: rest)).setHeld held :: below) := by
      intro op' held hopen hlate hturn hcli hturns
      refine h.setCode (fun hp => ?_) (fun he => ?_) (fun hp => ?_) held
      · have hwf := wellFormed_cons (hhandler hp) (by nofun) (by nofun) (by simp)
        cases hm : f.masked with
        | true => rw [hm] at hwf; cases hwf.1
        | false =>
          rw [hm] at hwf
          rw [wellFormed, if_neg hcli, if_neg hturns, hopen, hwf.2]
          rfl
      · rw [all_cons, hlate, (hexiting he).2.2]
        rfl
      · rw [all_cons, hturn, (hother hp).2]
        rfl
    rw [execOp] at ho
    split_ifs at ho with htaken hlast
    · cases ho
      exact stays rfl (hpast f.held (by nofun) (by nofun) (by simp))
    · cases ho
      exact stays rfl (hcons _ f.held rfl rfl rfl (by nofun) (by simp))
    · cases ho
      exact stays rfl (hcons _ _ rfl rfl rfl (by nofun) (by simp))
  | pick c =>
    cases ho
    refine ⟨nofun, fun _ => ?_⟩
    obtain ⟨hok, -, hbelow⟩ := hpast (f.held.erase (.sched c)) (by nofun) (by nofun) (by simp)
    refine ⟨hok, ?_, hbelow⟩
    rintro (hp | he)
    · have hwf := (wellFormed_cons (hhandler hp) (by nofun) (by nofun) (by simp)).1
      cases hm : f.masked with
      | true => exact hm
      | false => rw [hm] at hwf; cases hwf
    · cases (hexiting he).2.1
  | leave c =>
    cases ho
    refine ⟨nofun, fun _ => ⟨⟨nofun, ?_, fun _ => rfl⟩, ?_, nofun⟩⟩
    · rintro (hp | hp) <;> cases hp
    · rintro (hp | hp | hp) <;> cases hp
  | handlerReturn =>
    cases ho
    exact stays rfl (hturned .leaving (by decide) rfl (.inl rfl))
  | parsed =>
    cases ho
    have hp : f.phase = .handler := by
      by_contra hp
      cases (hother hp).1
    have hne : ¬ f.Exiting := by
      rintro (he | he) <;> · rw [hp] at he; cases he
    have hwf := wellFormed_cons (hhandler hp) (by nofun) (by nofun) (by simp)
    have hnew : Running iflag ((f.setCode (if k = 0 then rest else commitCode)).setHeld f.held :: below) := by
      refine h.setCode (fun _ => ?_) (fun he => absurd he hne) (fun hp' => absurd hp hp') f.held
      cases hm : f.masked with
      | true => rw [hm] at hwf; cases hwf.1
      | false =>
        rw [hm] at hwf
        split_ifs
        · exact hwf.2
        · rfl
    exact stays rfl hnew
  | commit =>
    cases ho
    exact stays rfl (hturned .committing (by decide) rfl (.inr rfl))
  | sysret | iret =>
    cases ho
    exact stays rfl (running_below h.2.2)
  | dead => cases ho
  | _ => exact absurd rfl hexp

theorem ok_irq (cpu : ℕ) (user : Bool) (i : Irq) : (Frame.new .irq (i.code cpu user)).Ok := by
  refine ⟨nofun, ?_, fun _ => ?_⟩
  · rintro (hp | hp) <;> cases hp
  · cases i <;> cases user <;> rfl

theorem running_keeps (C : List Frame → Act → Prop) : Keeps Running Off C := by
  intro cpu iflag locks stack a o h _ ho
  cases a with
  | syscall call =>
    obtain ⟨rfl, rfl⟩ := act_syscall ho
    refine stays rfl ⟨⟨fun _ => wellFormed_call call, ?_, fun hp => absurd rfl hp⟩, fun _ _ => rfl, nofun⟩
    rintro (hp | hp) <;> cases hp
  | interrupt i =>
    rw [act_interrupt] at ho
    split_ifs at ho with hflag
    cases ho
    refine stays rfl ⟨ok_irq cpu _ i, ?_, ?_⟩
    · rintro (hp | hp | hp) <;> cases hp
    · -- the frame that is interrupted runs with the flag set
      cases stack with
      | nil => nofun
      | cons f below =>
        obtain ⟨hok, hopened, hbelow⟩ := h
        exact forall_mem_cons.2 ⟨⟨hok, fun hcall hm => (hopened hcall hm).symm.trans hflag⟩, hbelow⟩
  | exec k =>
    obtain ⟨f, below, op, rest, rfl, hcode, ho⟩ := act_exec ho
    exact exec_keeps h hcode ho

theorem off_new (n t : ℕ) : Off ((State.new n).threads t) := by
  have hok : ∀ phase code, phase = .kernel ∨ phase = .start → (code.all fun o : Op => !o.turns) = true →
    Off [Frame.new phase code] := by
    intro phase code hphase hcode
    refine ⟨⟨fun hp => ?_, fun he => ?_, fun _ => hcode⟩, fun hcall => ?_, nofun⟩
    · rcases hphase with rfl | rfl <;> cases hp
    · rcases hphase with rfl | rfl <;> rcases he with he | he <;> cases he
    · rcases hphase with rfl | rfl <;> rcases hcall with he | he | he <;> cases he
  unfold State.new
  dsimp only
  split_ifs
  · exact hok _ _ (.inl rfl) rfl
  · exact hok _ _ (.inl rfl) rfl
  · exact hok _ _ (.inr rfl) rfl

/-! ## Runs without a blocking primitive -/

/-- may set the flag -/
def Op.setsFlag : Op → Bool
  | .sti | .idle | .kidle => true
  | _ => false

theorem expand_setsFlag (cpu k : ℕ) (hflag : op.setsFlag = false) (hblock : op.blocks = false) :
    (expand cpu k op).all (fun o => !o.setsFlag) = true := by
  cases op with
  | blockIf q => cases hblock
  | ready w =>
    unfold expand
    split_ifs
    · rfl
    · rfl
    · simp [Op.setsFlag]
  | hook | shouldBlock q c | feed =>
    unfold expand
    split_ifs <;> rfl
  | wake q | exit => simp [expand, Op.setsFlag]
  | _ => first | rfl | cases hflag

/-- a system call that has not set the flag and will not -/
def Frame.Shut (f : Frame) : Prop := f.IsCall → f.opened = false ∧ (f.code.all fun o => !o.setsFlag) = true

theorem Frame.Shut.head (h : f.Shut) (hcode : f.code = op :: rest) (hcall : f.IsCall) :
    f.opened = false ∧ op.setsFlag = false ∧ (rest.all fun o => !o.setsFlag) = true := by
  obtain ⟨hopened, hall⟩ := h hcall
  rw [hcode, all_cons, and_eq_true, not_eq_true'] at hall
  exact ⟨hopened, hall⟩

theorem exec_shut {cpu k : ℕ} {locks : List Lock} (hok : f.Ok) (hf : f.Shut) (hbelow : ∀ g ∈ below, g.Shut)
    (hcode : f.code = op :: rest) (hblock : op.blocks = false)
    (ho : execOp cpu k iflag locks f below rest op = some o) : ∀ g ∈ o.stack, g.Shut := by
  have htop : ∀ f' : Frame, f'.Shut → ∀ g ∈ f' :: below, g.Shut := fun f' hf' => forall_mem_cons.2 ⟨hf', hbelow⟩
  have hrest : ∀ f' : Frame, (f'.IsCall → f.IsCall) → (f.opened = false → f'.opened = false) → f'.code = rest →
    f'.Shut := by
    intro f' hcall hopened hcode' hc
    obtain ⟨hop, -, hall⟩ := hf.head hcode (hcall hc)
    exact ⟨hopened hop, hcode' ▸ hall⟩
  -- only a handler changes its phase
  have hturned : op.turns = true → f.IsCall := by
    intro hturn
    by_contra hnot
    have hno := ((hok.head hcode).2.2 fun hp => hnot (.inl hp)).1
    rw [hno] at hturn
    cases hturn
  by_cases hexp : op.expands = true
  · rw [execOp_expands hexp] at ho
    cases ho
    apply htop
    intro hc
    obtain ⟨hopened, hflag, hall⟩ := hf.head hcode hc
    refine ⟨hopened, ?_⟩
    change (expand cpu k op ++ rest).all _ = true
    rw [all_append, expand_setsFlag cpu k hflag hblock, hall]
    rfl
  cases op with
  | cli =>
    cases ho
    exact htop _ (hrest _ id (fun h => by exact (Bool.or_false _).trans h) rfl)
  | sti =>
    cases ho
    apply htop
    intro hc
    cases (hf.head hcode hc).2.1
  | lock l =>
    rw [execOp] at ho
    split_ifs at ho
    cases ho
    exact htop _ (hrest _ id id rfl)
  | unlock l | pick c =>
    cases ho
    exact htop _ (hrest _ id id rfl)
  | tryPush l again =>
    have hcons : ∀ (f' : Frame) (op' : Op), (f'.IsCall → f.IsCall) → (f.opened = false → f'.opened = false) →
      op'.setsFlag = false →
        f'.code = op' :: rest → f'.Shut := by
      intro f' op' hcall hopened hflag hcode' hc
      obtain ⟨hop, -, hall⟩ := hf.head hcode (hcall hc)
      refine ⟨hopened hop, ?_⟩
      rw [hcode', all_cons, hflag, hall]
      rfl
    rw [execOp] at ho
    split_ifs at ho
    · cases ho
      exact htop _ (hrest _ id id rfl)
    · cases ho
      exact htop _ (hcons _ (.tryPush l (again - 1)) id id rfl rfl)
    · cases ho
      exact htop _ (hcons _ (.unlock l) id id rfl rfl)
  | leave c =>
    cases ho
    intro g hg hc
    rw [mem_singleton.1 hg] at hc
    rcases hc with hp | hp | hp <;> cases hp
  | handlerReturn | commit =>
    cases ho
    exact htop _ (hrest _ (fun _ => hturned rfl) id rfl)
  | parsed =>
    cases ho
    apply htop
    intro hc
    obtain ⟨hopened, -, hall⟩ := hf.head hcode hc
    refine ⟨hopened, ?_⟩
    split_ifs
    · exact hall
    · rfl
  | sysret | iret =>
    cases ho
    exact hbelow
  | dead => cases ho
  | _ => exact absurd rfl hexp

theorem shut_call (call : Call) : (Frame.new .handler call.code).Shut := by
  intro _
  refine ⟨rfl, ?_⟩
  change (call.code.all fun o => !o.setsFlag) = true
  cases call with
  | wait w | sigreturn | exit => rfl
  | execve w => cases w <;> rfl
  | other tables wakes => simp [Call.code, edge, Op.setsFlag]

theorem shut_keeps : Keeps (fun iflag stack => Running iflag stack ∧ ∀ f ∈ stack, f.Shut) (fun stack => Off stack ∧
    ∀ f ∈ stack, f.Shut)
    NoBlock := by
  intro cpu iflag locks stack a o h hC ho
  obtain ⟨hstay, hleave⟩ := running_keeps NoBlock cpu iflag locks stack a o h.1 hC ho
  have hshut : ∀ f ∈ o.stack, f.Shut := by
    cases a with
    | syscall call =>
      obtain ⟨rfl, rfl⟩ := act_syscall ho
      exact forall_mem_singleton.2 (shut_call call)
    | interrupt i =>
      rw [act_interrupt] at ho
      split_ifs at ho
      cases ho
      refine forall_mem_cons.2 ⟨?_, h.2⟩
      rintro (hp | hp | hp) <;> cases hp
    | exec k =>
      obtain ⟨f, below, op, rest, rfl, hcode, ho⟩ := act_exec ho
      have hblock : op.blocks = false := by
        have hhead : f.code.head?.any Op.blocks = false := hC
        rw [hcode] at hhead
        exact hhead
      exact exec_shut h.1.1 (h.2 f mem_cons_self) (fun g hg => h.2 g (mem_cons_of_mem _ hg)) hcode hblock ho
  exact ⟨fun hn => ⟨hstay hn, hshut⟩, fun hn => ⟨hleave hn, hshut⟩⟩

/-- **The flag on the way out, in every run.** From the return of its handler to SYSRET, and in the second phase of
`execve`, a system call runs with interrupts off if and only if it has not been through a blocking primitive. In a run
that enters none, no interrupt is taken there. -/
theorem exit_flag_run (n : ℕ) (as : List (Fin n × Act)) (s : State n) (hrun : run (State.new n) as = some s) (c : Fin n)
    (f : Frame)
    (below : List Frame) (hstack : s.stack c = f :: below) (hexit : f.Exiting) :
    ((s.cpus c).iflag = false ↔ f.opened = false) ∧
      (Meets step (On NoBlock) (State.new n) as → (s.cpus c).iflag = false ∧ ∀ i, step s (c, .interrupt i) = none) := by
  have hrunning := (inv_run running_of_off (running_keeps _) off_new (meets_any _ as) hrun).running c
  rw [hstack] at hrunning
  have hflag : (s.cpus c).iflag = f.opened := hrunning.2.1 (.inr hexit) (hrunning.1.exiting hexit).1
  refine ⟨by rw [hflag], fun hmeets => ?_⟩
  have hshut := (inv_run (fun stack iflag hO => ⟨running_of_off stack iflag hO.1,
    hO.2⟩) shut_keeps ?_ hmeets hrun).running c
  · have hclosed : f.opened = false := (hshut.2 f (hstack ▸ mem_cons_self) (.inr hexit)).1
    have hoff : (s.cpus c).iflag = false := hflag.trans hclosed
    refine ⟨hoff, fun i => ?_⟩
    rw [step, act_interrupt, hoff]
    rfl
  · intro m t
    refine ⟨off_new m t, fun g hg hcall => ?_⟩
    have hphase : g.phase = .kernel ∨ g.phase = .start := by
      rw [mem_singleton.1 hg]
      split_ifs
      · exact .inl rfl
      · exact .inl rfl
      · exact .inr rfl
    rcases hcall with hp | hp | hp <;> rcases hphase with hk | hk <;> · rw [hk] at hp; cases hp

/-- `getpid` -/
theorem getpid_leaves_without_interrupts :
    ∃ as s f below, as = firstDispatch ++ (0, .syscall (.other [] [])) :: execs [0, 0, 0, 0] ∧
    run (State.new 1) as = some s ∧
      s.stack 0 = f :: below ∧ f.Exiting ∧ Meets step (On NoBlock) (State.new 1) as ∧ (s.cpus 0).iflag = false ∧
      ∀ i, step s (0, .interrupt i) = none := by
  have hrun : (run (State.new 1) (firstDispatch ++ (0, .syscall (.other [] [])) :: execs [0, 0, 0, 0])).any
      (fun s => (s.stack 0).head?.any fun f => decide f.Exiting) = true := by decide +kernel
  obtain ⟨s, hs, hp⟩ := exists_of_any hrun
  obtain ⟨f, hf, hexit⟩ := exists_of_any hp
  obtain ⟨below, hstack⟩ := head?_eq_some_iff.1 hf
  have hmeets : Meets step (On NoBlock) (State.new 1) (firstDispatch ++ (0, .syscall (.other [] [])) :: execs [0, 0,
    0, 0]) := by
    decide +kernel
  have hexiting := of_decide_eq_true hexit
  exact ⟨_, s, f, below, rfl, hs, hstack, hexiting, hmeets, (exit_flag_run 1 _ s hs 0 f below hstack hexiting).2 hmeets⟩

/-- a read of the keyboard finds no key, sleeps until one arrives, and returns: the handler is left with interrupts on,
and the timer interrupt is taken with SYSRET still to come -/
theorem read_leaves_with_interrupts :
    ∃ as s f below, as = keyboardWait ++ execs [0, 0, 0, 1, 0, 0, 0, 0, 0] ∧ run (State.new 1) as = some s ∧
      s.stack 0 = f :: below ∧ f.Exiting ∧ (s.cpus 0).iflag = true ∧ (step s (0, .interrupt .timer)).isSome = true := by
  have hrun : (run (State.new 1) (keyboardWait ++ execs [0, 0, 0, 1, 0, 0, 0, 0, 0])).any
      (fun s => (s.stack 0).head?.any (fun f => decide f.Exiting) && (s.cpus 0).iflag &&
        (step s (0, .interrupt .timer)).isSome) = true := by
    decide +kernel
  obtain ⟨s, hs, hp⟩ := exists_of_any hrun
  rw [and_eq_true, and_eq_true] at hp
  obtain ⟨f, hf, hexit⟩ := exists_of_any hp.1.1
  obtain ⟨below, hstack⟩ := head?_eq_some_iff.1 hf
  exact ⟨_, s, f, below, rfl, hs, hstack, of_decide_eq_true hexit, hp.1.2, hp.2⟩

end Rumicos.Sched.Interrupts
