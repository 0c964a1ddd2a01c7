/-
Who waits for whom in a shootdown, with the interrupt flag of each CPU.

System calls and page faults run with interrupts off (IA32_FMASK clears IF, the fault gates are interrupt gates), and
`shootdown_page` is called from them: `munmap`, the fault resolution and fork. No caller holds another lock, so the locks
in question are SHOOTDOWN_SERIALIZE alone. A CPU takes the shootdown IPI only with interrupts on.

- `Deadlock`: an initiator waits for the acknowledgement of a CPU that spins on SHOOTDOWN_SERIALIZE with interrupts off.
-/
import Rumicos.Proc.Shootdown

namespace Rumicos.Proc.Shootdown

open Lib List Option

/-! ## CPUs with an interrupt flag -/

structure Machine where
  sys : System
  /-- the CPUs that run a system call or a fault handler -/
  off : Cpu → Bool

def Machine.new : Machine := ⟨System.new, fun _ => false⟩

/-- no call of `cpu` is under way -/
def System.noCall (s : System) (cpu : Cpu) : Bool :=
  s.calls.all fun c => decide (c.cpu = cpu → c.pc = .returned)

/-- the shootdown handler has started on `cpu` -/
def System.handling (s : System) (cpu : Cpu) : Bool :=
  s.handlers.any fun h => decide (h.cpu = cpu ∧ h.pc ≠ .sent)

/-- handler `j` waits for interrupts to be on -/
def Machine.masked (m : Machine) (j : ℕ) : Bool :=
  m.sys.handlers[j]?.any fun h => decide (h.pc = .sent ∧ m.off h.cpu = true)

inductive MachineAct where
  /-- a system call or a fault -/
  | enter (cpu : Cpu)
  | leave (cpu : Cpu)
  | act (a : Act)

def Machine.step (online : Cpu → Bool) (m : Machine) : MachineAct → Option Machine
  | .enter cpu =>
    if m.off cpu || m.sys.handling cpu then none else some { m with off := Function.update m.off cpu true }
  | .leave cpu =>
    if m.off cpu && m.sys.noCall cpu then some { m with off := Function.update m.off cpu false } else none
  | .act (.call cpu mask virt) =>
    if m.off cpu && m.sys.noCall cpu then
      (Shootdown.step online m.sys (.call cpu mask virt)).map fun s => { m with sys := s }
    else none
  | .act (.resume i) => (Shootdown.step online m.sys (.resume i)).map fun s => { m with sys := s }
  | .act (.interrupt j) =>
    if m.masked j then none else (Shootdown.step online m.sys (.interrupt j)).map fun s => { m with sys := s }

def Machine.run (online : Cpu → Bool) (m : Machine) (as : List MachineAct) : Option Machine :=
  as.foldlM (Machine.step online) m

/-- an initiator waits for a CPU that cannot answer before the initiator is done -/
def Deadlock (m : Machine) : Prop :=
  ∃ c ∈ m.sys.calls, c.pc = .wait ∧
    ∃ h ∈ m.sys.handlers, h.pc = .sent ∧ c.remote.getLsbD h.cpu = true ∧ m.off h.cpu = true ∧
      ∃ d ∈ m.sys.calls, d.cpu = h.cpu ∧ d.pc = .lock

instance (m : Machine) : Decidable (Deadlock m) := by unfold Deadlock; infer_instance

variable {online : Cpu → Bool} {m m' : Machine} {a : MachineAct} {c : Call}

theorem Machine.step_sys (h : m.step online a = some m') :
    m'.sys = m.sys ∨ ∃ b, a = .act b ∧ Shootdown.step online m.sys b = some m'.sys ∧ m'.off = m.off := by
  rcases a with cpu | cpu | ⟨cpu, mask, virt⟩ | i | j
  · rw [Machine.step] at h
    split_ifs at h
    cases h
    exact .inl rfl
  · rw [Machine.step] at h
    split_ifs at h
    cases h
    exact .inl rfl
  · rw [Machine.step] at h
    split_ifs at h
    obtain ⟨s, hs, rfl⟩ := map_eq_some_iff.1 h
    exact .inr ⟨_, rfl, hs, rfl⟩
  · obtain ⟨s, hs, rfl⟩ := map_eq_some_iff.1 h
    exact .inr ⟨_, rfl, hs, rfl⟩
  · rw [Machine.step] at h
    split_ifs at h
    obtain ⟨s, hs, rfl⟩ := map_eq_some_iff.1 h
    exact .inr ⟨_, rfl, hs, rfl⟩

theorem Machine.step_inv (hI : Inv online m.sys) (h : m.step online a = some m') : Inv online m'.sys := by
  rcases Machine.step_sys h with hs | ⟨b, -, hs, -⟩
  · rw [hs]
    exact hI
  · exact Shootdown.step_inv hI hs

/-! ## The waits -/

/-- call `c` still waits for CPU `t`, or is bound to: `t` is a target and has not acknowledged -/
def Awaits (hs : List Handler) (c : Call) (t : Cpu) : Prop :=
  c.remote.getLsbD t = true ∧
    match c.pc with
    | .publish => True
    | .send n => n ≤ t.val ∨ t ∈ hs.map Handler.cpu
    | .wait => t ∈ hs.map Handler.cpu
    | .flush | .lock | .unlock | .returned => False

instance (hs : List Handler) (c : Call) (t : Cpu) : Decidable (Awaits hs c t) := by
  unfold Awaits
  generalize c.pc = pc
  induction pc using CallPc.casesOn <;> infer_instance

/-- a call that is about to spin on the lock is awaited by nobody; one that takes it targets no CPU that spins on it -/
def TurnOk (m : Machine) : MachineAct → Prop
  | .act (.resume i) =>
    ∀ c ∈ m.sys.calls[i]?,
      (c.pc = .flush → c.remote ≠ 0#64 → ∀ d ∈ m.sys.calls, ¬ Awaits m.sys.handlers d c.cpu) ∧
      (c.pc = .lock → ∀ d ∈ m.sys.calls, d.pc = .lock → c.remote.getLsbD d.cpu = false)
  | _ => True

instance (m : Machine) (a : MachineAct) : Decidable (TurnOk m a) := by
  unfold TurnOk
  split <;> infer_instance

/-- no call waits for a CPU that spins on the lock -/
def NoCycle (s : System) : Prop := ∀ c ∈ s.calls, ∀ d ∈ s.calls, d.pc = .lock → ¬ Awaits s.handlers c d.cpu

theorem Awaits.holds {hs : List Handler} {t : Cpu} (h : Awaits hs c t) : c.holds = true := by
  obtain ⟨-, h⟩ := h
  unfold Call.holds
  split at h <;> simp_all

section Steps

variable {s s' : System} {i j : ℕ}

theorem stepCall_awaits (hh : c.holds = true) (h : stepCall online s i c = some s') :
    ∃ pc, s'.calls = s.calls.set i { c with pc := pc } ∧ pc ≠ .lock ∧
      ∀ t, Awaits s'.handlers { c with pc := pc } t → Awaits s.handlers c t := by
  unfold stepCall at h
  split at h
  case h_1 hpc => simp [Call.holds, hpc] at hh
  case h_2 hpc => simp [Call.holds, hpc] at hh
  case h_3 hpc =>
    cases h
    refine ⟨.send 0, rfl, by simp, fun t ht => ⟨ht.1, ?_⟩⟩
    rw [hpc]
    trivial
  case h_4 n hpc =>
    split_ifs at h with hn hon
    · cases h
      refine ⟨.send (n + 1), rfl, by simp, fun t ht => ⟨ht.1, ?_⟩⟩
      obtain ⟨-, ht⟩ := ht
      rw [hpc]
      rcases ht with ht | ht
      · exact .inl (by omega)
      · rw [map_append, mem_append, map_singleton, mem_singleton] at ht
        rcases ht with ht | rfl
        · exact .inr ht
        · exact .inl le_rfl
    · cases h
      refine ⟨.send (n + 1), rfl, by simp, fun t ht => ⟨ht.1, ?_⟩⟩
      obtain ⟨-, ht⟩ := ht
      rw [hpc]
      exact ht.imp_left fun ht => by omega
    · cases h
      refine ⟨.wait, rfl, by simp, fun t ht => ⟨ht.1, ?_⟩⟩
      rw [hpc]
      exact .inr ht.2
  case h_5 hpc =>
    split_ifs at h
    cases h
    exact ⟨.unlock, rfl, by simp, fun t ht => absurd ht.2 (by simp)⟩
  case h_6 hpc =>
    cases h
    exact ⟨.returned, rfl, by simp, fun t ht => absurd ht.2 (by simp)⟩
  case h_7 => exact absurd h (by simp)

theorem stepCall_free (hh : c.holds = false) (h : stepCall online s i c = some s') :
    s'.handlers = s.handlers ∧
      ((c.pc = .flush ∧ c.remote ≠ 0#64 ∧ s'.calls = s.calls.set i { c with pc := .lock }) ∨
        s'.calls = s.calls.set i { c with pc := .returned } ∨
        (c.pc = .lock ∧ s.serialize = false ∧ s'.calls = s.calls.set i { c with pc := .publish })) := by
  unfold stepCall at h
  split at h
  case h_1 hpc =>
    cases h
    refine ⟨rfl, ?_⟩
    by_cases h0 : c.remote = 0#64
    · exact .inr (.inl (by simp [h0]))
    · exact .inl ⟨hpc, h0, by simp [h0]⟩
  case h_2 hpc =>
    split_ifs at h with hs
    cases h
    exact ⟨rfl, .inr (.inr ⟨hpc, Bool.eq_false_of_not_eq_true hs, rfl⟩)⟩
  case h_7 => exact absurd h (by simp)
  all_goals
    rename_i hpc
    simp [Call.holds, hpc] at hh

theorem noCycle_resume (hI : Inv online s) (hN : NoCycle s) (hi : s.calls[i]? = some c)
    (hflush : c.pc = .flush → c.remote ≠ 0#64 → ∀ d ∈ s.calls, ¬ Awaits s.handlers d c.cpu)
    (hlock : c.pc = .lock → ∀ d ∈ s.calls, d.pc = .lock → c.remote.getLsbD d.cpu = false)
    (h : stepCall online s i c = some s') : NoCycle s' := by
  have hc : c ∈ s.calls := mem_of_getElem? hi
  rcases hh : c.holds with _ | _
  · obtain ⟨hhs, hcalls⟩ := stepCall_free hh h
    intro c2 hc2 d hd hpd ha
    rw [hhs] at ha
    rcases hcalls with ⟨hpc, h0, hcalls⟩ | hcalls | ⟨hpc, hs, hcalls⟩
    · rw [hcalls] at hc2 hd
      rcases mem_or_eq_of_mem_set hc2 with hc2 | rfl
      · rcases mem_or_eq_of_mem_set hd with hd | rfl
        · exact hN c2 hc2 d hd hpd ha
        · exact hflush hpc h0 c2 hc2 ha
      · exact absurd ha.2 (by simp)
    · rw [hcalls] at hc2 hd
      rcases mem_or_eq_of_mem_set hc2 with hc2 | rfl
      · rcases mem_or_eq_of_mem_set hd with hd | rfl
        · exact hN c2 hc2 d hd hpd ha
        · exact absurd hpd (by simp)
      · exact absurd ha.2 (by simp)
    · rw [hcalls] at hc2 hd
      -- with the lock free nobody else waits for anything
      rcases mem_or_eq_of_mem_set hc2 with hc2 | rfl
      · exact absurd ha.holds (by simp [(hI.free hs).1 c2 hc2])
      · rcases mem_or_eq_of_mem_set hd with hd | rfl
        · exact absurd ha.1 (by rw [show ({ c with pc := .publish } : Call).remote = c.remote from rfl,
            hlock hpc d hd hpd]; simp)
        · exact absurd hpd (by simp)
  · obtain ⟨pc, hcalls, hpc, haw⟩ := stepCall_awaits hh h
    intro c2 hc2 d hd hpd ha
    rw [hcalls] at hc2 hd
    have hd' : d ∈ s.calls := by
      rcases mem_or_eq_of_mem_set hd with hd | rfl
      · exact hd
      · exact absurd hpd hpc
    rcases hI.others hi hh hc2 with rfl | ⟨-, hc2⟩
    · exact hN c hc d hd' hpd (haw _ ha)
    · exact absurd ha.holds (by simp [hc2])

theorem stepHandler_cpus {g : Handler} (hj : s.handlers[j]? = some g) {t : Cpu}
    (ht : t ∈ (stepHandler s j g).handlers.map Handler.cpu) : t ∈ s.handlers.map Handler.cpu := by
  unfold stepHandler at ht
  split at ht
  · rwa [map_cpu_set hj] at ht
  · rwa [map_cpu_set hj] at ht
  · obtain ⟨h, hm, rfl⟩ := mem_map.1 ht
    exact mem_map_of_mem (mem_of_mem_eraseIdx hm)

theorem Awaits.mono {hs hs' : List Handler} {t : Cpu} (h : Awaits hs' c t)
    (hsub : t ∈ hs'.map Handler.cpu → t ∈ hs.map Handler.cpu) : Awaits hs c t := by
  refine ⟨h.1, ?_⟩
  have h2 := h.2
  split at h2
  · trivial
  · exact h2.imp_right hsub
  · exact hsub h2
  all_goals exact h2

theorem stepHandler_calls (s : System) (j : ℕ) (g : Handler) : (stepHandler s j g).calls = s.calls := by
  unfold stepHandler
  split <;> rfl

end Steps

/-! ## Runs without a deadlock -/

theorem noCycle_step (hI : Inv online m.sys) (hN : NoCycle m.sys) (hC : TurnOk m a) (h : m.step online a = some m') :
    NoCycle m'.sys := by
  rcases Machine.step_sys h with hs | ⟨b, rfl, hs, -⟩
  · rw [hs]
    exact hN
  rcases b with ⟨cpu, mask, virt⟩ | i | j
  · have hs' := some.inj hs
    intro c hc d hd hpd ha
    rw [← hs'] at hc hd ha
    -- the new call neither waits nor spins
    rcases mem_append.1 hc with hc | hc
    · rcases mem_append.1 hd with hd | hd
      · exact hN c hc d hd hpd ha
      · obtain rfl := mem_singleton.1 hd
        exact absurd hpd (by simp)
    · obtain rfl := mem_singleton.1 hc
      exact absurd ha.2 (by simp)
  · obtain ⟨c, hi, hc⟩ := bind_eq_some_iff.1 hs
    obtain ⟨hflush, hlock⟩ := hC c hi
    exact noCycle_resume hI hN hi hflush hlock hc
  · obtain ⟨g, hj, hs'⟩ := map_eq_some_iff.1 hs
    intro c hc d hd hpd ha
    rw [← hs', stepHandler_calls] at hc hd
    rw [← hs'] at ha
    exact hN c hc d hd hpd (ha.mono (stepHandler_cpus hj))

theorem noCycle_new : NoCycle System.new := fun _ hc => absurd hc not_mem_nil

/-- **No deadlock.** In every run of CPUs that make shootdowns from system calls and faults with interrupts off, as long as
no CPU comes to SHOOTDOWN_SERIALIZE whose acknowledgement the holder still awaits, and no call takes it while one of its
targets spins on it, no state reached is a deadlock. -/
theorem deadlock_free (online : Cpu → Bool) (as : List MachineAct) (m : Machine)
    (hC : Meets (Machine.step online) TurnOk Machine.new as) (h : Machine.new.run online as = some m) :
    ¬ Deadlock m := by
  obtain ⟨-, hN⟩ : Inv online m.sys ∧ NoCycle m.sys :=
    run_inv (fun m => Inv online m.sys ∧ NoCycle m.sys)
      (fun _ _ _ hI hC hs => ⟨Machine.step_inv hI.1 hs, noCycle_step hI.1 hI.2 hC hs⟩)
      ⟨inv_new online, noCycle_new⟩ hC h
  rintro ⟨c, hc, hpc, g, hg, -, ht, -, d, hd, hcpu, hpd⟩
  refine hN c hc d hd hpd ?_
  rw [Awaits, hpc, hcpu]
  exact ⟨ht, mem_map_of_mem hg⟩

/-! ## A deadlock is final -/

theorem stepCall_frame {s s' : System} {i : ℕ} (h : stepCall online s i c = some s') :
    (∃ x, s'.calls = s.calls.set i x) ∧ ∀ g ∈ s.handlers, g ∈ s'.handlers := by
  unfold stepCall at h
  split at h
  case h_4 =>
    split_ifs at h
    · cases h
      exact ⟨⟨_, rfl⟩, fun g hg => mem_append_left _ hg⟩
    · cases h
      exact ⟨⟨_, rfl⟩, fun g hg => hg⟩
    · cases h
      exact ⟨⟨_, rfl⟩, fun g hg => hg⟩
  case h_7 => exact absurd h (by simp)
  case h_2 | h_5 =>
    split_ifs at h
    cases h
    exact ⟨⟨_, rfl⟩, fun g hg => hg⟩
  all_goals
    cases h
    exact ⟨⟨_, rfl⟩, fun g hg => hg⟩

/-- neither side of a deadlock can move: the initiator's count is above 0 and the lock is taken -/
theorem stepCall_stuck {s : System} {x : Call} {i : ℕ} (hI : Inv online s) (hc : c ∈ s.calls) (hpc : c.pc = .wait)
    (hg : s.handlers ≠ []) (hx : x.pc = .wait ∨ x.pc = .lock) : stepCall online s i x = none := by
  obtain ⟨g, j, hj⟩ : ∃ g j, s.handlers[j]? = some g := by
    obtain ⟨g, hg⟩ := exists_mem_of_ne_nil _ hg
    exact ⟨g, mem_iff_getElem?.1 hg⟩
  have hB := hI.out c hc 64 (by simp [Call.sentTo, hpc])
  obtain ⟨r, hr, hsum⟩ := hB.slot
  have hpos := hB.remaining_pos hj hsum
  have hser := hI.locked hc (by simp [Call.holds, hpc])
  unfold stepCall
  rcases hx with hx | hx
  · simp [hx, hr, hpos]
  · simp [hx, hser]

theorem deadlock_step (hI : Inv online m.sys) (hD : Deadlock m) (h : m.step online a = some m') : Deadlock m' := by
  obtain ⟨c, hc, hpc, g, hg, hgpc, ht, hoff, d, hd, hcpu, hpd⟩ := hD
  rcases a with cpu | cpu | ⟨cpu, mask, virt⟩ | i | j
  · rw [Machine.step] at h
    split_ifs at h
    cases h
    refine ⟨c, hc, hpc, g, hg, hgpc, ht, ?_, d, hd, hcpu, hpd⟩
    by_cases he : g.cpu = cpu
    · simp [he]
    · simpa [Function.update_of_ne he] using hoff
  · rw [Machine.step] at h
    split_ifs at h with hl
    cases h
    refine ⟨c, hc, hpc, g, hg, hgpc, ht, ?_, d, hd, hcpu, hpd⟩
    -- the CPU that spins is inside its call, so it does not leave
    have he : g.cpu ≠ cpu := by
      intro he
      have hno := of_decide_eq_true (all_eq_true.1 (Bool.and_eq_true_iff.1 hl).2 d hd)
      rw [hno (hcpu.trans he)] at hpd
      exact absurd hpd (by simp)
    simpa [Function.update_of_ne he] using hoff
  · rw [Machine.step] at h
    split_ifs at h
    obtain ⟨s, hs, rfl⟩ := map_eq_some_iff.1 h
    cases hs
    exact ⟨c, mem_append_left _ hc, hpc, g, hg, hgpc, ht, hoff, d, mem_append_left _ hd, hcpu, hpd⟩
  · obtain ⟨s, hs, rfl⟩ := map_eq_some_iff.1 h
    obtain ⟨x, hi, hx⟩ := bind_eq_some_iff.1 hs
    have hmoves : ¬ (x.pc = .wait ∨ x.pc = .lock) := by
      intro hxp
      rw [stepCall_stuck hI hc hpc (ne_nil_of_mem hg) hxp] at hx
      exact absurd hx (by simp)
    obtain ⟨⟨y, hcalls⟩, hhs⟩ := stepCall_frame hx
    have hcx : c ≠ x := fun he => hmoves (.inl (he ▸ hpc))
    have hdx : d ≠ x := fun he => hmoves (.inr (he ▸ hpd))
    have hc' : c ∈ s.calls := by rw [hcalls]; exact mem_set_of_ne hi hc hcx
    have hd' : d ∈ s.calls := by rw [hcalls]; exact mem_set_of_ne hi hd hdx
    exact ⟨c, hc', hpc, g, hhs g hg, hgpc, ht, hoff, d, hd', hcpu, hpd⟩
  · rw [Machine.step] at h
    split_ifs at h with hm
    obtain ⟨s, hs, rfl⟩ := map_eq_some_iff.1 h
    obtain ⟨x, hj, rfl⟩ := map_eq_some_iff.1 hs
    -- the IPI of the spinning CPU is not the one that moves
    have hgx : g ≠ x := by
      rintro rfl
      exact hm (by simp [Machine.masked, hj, hgpc, hoff])
    have hg' : g ∈ (stepHandler m.sys j x).handlers := by
      unfold stepHandler
      split
      · exact mem_set_of_ne hj hg hgx
      · exact mem_set_of_ne hj hg hgx
      · exact mem_eraseIdx_of_ne hj hg hgx
    refine ⟨c, ?_, hpc, g, hg', hgpc, ht, hoff, d, ?_, hcpu, hpd⟩
    · rw [stepHandler_calls]
      exact hc
    · rw [stepHandler_calls]
      exact hd

/-- **A deadlock is final.** From a deadlock that is reached, every state that follows is one. -/
theorem deadlock_forever {as bs : List MachineAct} (h : Machine.new.run online as = some m) (hD : Deadlock m)
    (h' : m.run online bs = some m') : Deadlock m' := by
  have hI : Inv online m.sys :=
    foldlM_inv (fun _ m => Inv online m.sys) (fun _ _ _ _ hI hs => Machine.step_inv hI hs) (inv_new online) h
  exact (foldlM_inv (fun _ m => Inv online m.sys ∧ Deadlock m)
    (fun _ _ _ _ hID hs => ⟨Machine.step_inv hID.1 hs, deadlock_step hID.1 hID.2 hs⟩) ⟨hI, hD⟩ h').2

/-- CPUs 0 and 1 invalidate a page of the address space both run; CPU 0 is first at the lock -/
def crossedActs : List MachineAct :=
  [.enter 0, .enter 1, .act (.call 0 3#64 4096), .act (.call 1 3#64 8192), .act (.resume 0), .act (.resume 1)] ++
    List.replicate 67 (.act (.resume 0))

/-- CPU 0 waits for CPU 1, which waits for the lock -/
theorem deadlock_pair : ∃ m, Machine.new.run (fun _ => true) crossedActs = some m ∧ Deadlock m := by
  decide +kernel

/-- what another CPU does changes nothing -/
theorem deadlock_forever_pair : ∃ m m', Machine.new.run (fun _ => true) crossedActs = some m ∧
    m.run (fun _ => true) [.enter 2, .leave 2] = some m' ∧ Deadlock m' := by
  obtain ⟨m, hm, hD, m', hm', -⟩ : ∃ m, Machine.new.run (fun _ => true) crossedActs = some m ∧ Deadlock m ∧
      ∃ m', m.run (fun _ => true) [.enter 2, .leave 2] = some m' ∧ True := by decide +kernel
  exact ⟨m, m', hm, hm', deadlock_forever hm hD hm'⟩

/-- CPU 1 is back in user mode when CPU 0 asks -/
def turnActs : List MachineAct :=
  [.enter 1, .act (.call 1 2#64 8192), .act (.resume 0), .leave 1, .enter 0, .act (.call 0 3#64 4096)] ++
    List.replicate 68 (.act (.resume 1)) ++ List.replicate 3 (.act (.interrupt 0)) ++
    List.replicate 2 (.act (.resume 1))

/-- both calls return -/
theorem deadlock_free_turn : ∃ m, Machine.new.run (fun _ => true) turnActs = some m ∧
    m.sys.calls.map Call.pc = [.returned, .returned] ∧ ¬ Deadlock m :=
  exists_and_of_check (by decide +kernel) fun m hm _ => deadlock_free _ _ m (by decide +kernel) hm

end Rumicos.Proc.Shootdown
