/-
Whose registers the current syscall frame holds (`crates/cpu/src/syscall.rs`).

The frame belongs to the CPU: each entry writes it, and a call that has blocked reads it when other calls may have come in
since. The user RSP has the same history: the trampoline once restored it from a CPU's scratch slot and now keeps it on the
kernel stack. The frame was left where it is.
-/
import Rumicos.Proc.UserContexts

namespace Rumicos.Proc.UserContexts

open Lib Proc.Signal List Option

/-! ## Entries -/

def Mode.inCall : Mode → Bool
  | .call _ => true
  | _ => false

/-- the thread and the CPU of a system call entry -/
def Act.entry : Act → Option (ℕ × Cpu)
  | .enter i cpu => some (i, cpu)
  | .sigreturn i cpu => some (i, cpu)
  | _ => none

/-- what a step does to the frames: nothing, or the entry of a thread from user mode -/
inductive Moves (s : System) (a : Act) : System → Prop
  | stay {s' : System} (hslot : s'.slot = s.slot)
      (hcalls : ∀ t' ∈ s'.threads, t'.mode.inCall = true → ∃ t ∈ s.threads, t.mode.inCall = true ∧ t.regs = t'.regs ∧
        ∀ cpu, t'.mode = .call (some cpu) → t.mode = .call (some cpu)) : Moves s a s'
  | entry {i : ℕ} {cpu : Cpu} {t t' : Thread} (ha : a.entry = some (i, cpu)) (ht : s.threads[i]? = some t)
      (hu : t.mode = .user) (ho : s.Open cpu) (hm : t'.mode.inCall = true → t'.regs = t.regs ∧
        t'.mode = .call (some cpu)) :
      Moves s a ((s.record cpu t.regs).set i t')

variable {s s' : System} {a : Act} {i : ℕ} {t : Thread} {cpu : Cpu}

theorem Moves.set {t' : Thread} (ht : s.threads[i]? = some t)
    (hm : t'.mode.inCall = true → t.mode.inCall = true ∧ t.regs = t'.regs ∧ ∀ cpu, t'.mode = .call (some cpu) →
    t.mode = .call (some cpu)) :
    Moves s a (s.set i t') := by
  refine Moves.stay rfl ?_
  intro u hu hc
  rcases mem_or_eq_of_mem_set hu with hu | rfl
  · exact ⟨u, hu, hc, rfl, fun _ h => h⟩
  · exact ⟨t, mem_of_thread ht, hm hc⟩

theorem step_moves (h : step s a = some s') : Moves s a s' := by
  obtain ⟨t, ht, h⟩ := step_inv h
  -- a thread that leaves its call is in user mode or dead
  have left : ∀ {t' : Thread}, (t'.mode = .user ∨ t'.mode = .dead) → Moves s a (s.set a.thread t') := by
    intro t' hm
    apply Moves.set ht
    intro hc
    rcases hm with hm | hm
    · rw [hm] at hc
      cases hc
    · rw [hm] at hc
      cases hc
  cases a with
  | user i regs =>
    simp only [stepThread] at h
    split_ifs at h with hu
    cases h
    exact left (.inl hu)
  | interrupt i outcome =>
    simp only [stepThread] at h
    split_ifs at h with hu
    cases h
    exact left (deliverIret_mode hu outcome)
  | enter i cpu =>
    simp only [stepThread] at h
    split_ifs at h with hu
    cases h
    exact .entry rfl ht hu.1 hu.2 fun _ => ⟨rfl, rfl⟩
  | block i =>
    simp only [stepThread] at h
    split at h
    · rename_i held hm
      cases h
      apply Moves.set ht
      intro _
      refine ⟨by rw [hm]; rfl, rfl, fun cpu hc => ?_⟩
      cases hc
    · cases h
  | fork i cpu stack =>
    simp only [stepThread] at h
    split_ifs at h with hm
    cases h
    refine Moves.stay rfl ?_
    intro u hu hc
    rcases mem_append.1 hu with hu | hu
    · exact ⟨u, hu, hc, rfl, fun _ h => h⟩
    · rw [mem_singleton.1 hu] at hc
      cases hc
  | execve i regs =>
    simp only [stepThread] at h
    split at h
    · cases h
      exact left (.inl rfl)
    · cases h
  | finish i cpu retval kernelRegs outcome =>
    simp only [stepThread] at h
    split_ifs at h with hr
    cases h
    exact left (deliver_mode t _ retval kernelRegs outcome)
  | sigreturn i cpu =>
    simp only [stepThread] at h
    split_ifs at h with hu
    cases h
    refine .entry rfl ht hu.1 hu.2 fun hc => ?_
    rcases sigreturn_mode t with hm | hm
    · rw [hm] at hc
      cases hc
    · rw [hm] at hc
      cases hc
  | exit i =>
    simp only [stepThread] at h
    split_ifs at h
    cases h
    exact left (.inr rfl)

/-! ## Calls that have not blocked -/

/-- a call that still has the CPU to itself finds its own frame there -/
def HeldOwn (cpu : Cpu) (s : System) : Prop :=
  ∀ t ∈ s.threads, t.mode = .call (some cpu) → s.currentSyscallFrame cpu = SyscallFrame.ofUser t.regs

theorem heldOwn_step (h : HeldOwn cpu s) (hs : step s a = some s') : HeldOwn cpu s' := by
  cases step_moves hs with
  | stay hslot hcalls =>
    intro t' ht' hm
    obtain ⟨t, ht, -, hr, hcpu⟩ := hcalls t' ht' (by rw [hm]; rfl)
    rw [System.currentSyscallFrame, hslot, ← hr]
    exact h t ht (hcpu cpu hm)
  | @entry i c t t' _ ht _ ho hm =>
    intro u hu hc
    rcases mem_or_eq_of_mem_set hu with hu | rfl
    · -- another thread has the CPU, so it is not the one that was entered on
      have hne : cpu ≠ c := by
        rintro rfl
        exact ho u hu hc
      rw [System.currentSyscallFrame, set_slot, record_slot_of_ne s _ hne]
      exact h u hu hc
    · obtain ⟨hr, hm'⟩ := hm (by rw [hc]; rfl)
      rw [hm'] at hc
      cases hc
      rw [System.currentSyscallFrame, set_slot, record_slot, hr]

/-! ## One CPU -/

/-- the steps of threads that share the CPU -/
def stepOn (cpu : Cpu) (s : System) (a : Act) : Option System :=
  if a.cpu.all (· = cpu) then step s a else none

def runOn (cpu : Cpu) (s : System) (as : List Act) : Option System := as.foldlM (stepOn cpu) s

/-- every thread in a system call would read the frame it entered with -/
def Own (cpu : Cpu) (s : System) : Prop :=
  ∀ t ∈ s.threads, t.mode.inCall = true → s.currentSyscallFrame cpu = SyscallFrame.ofUser t.regs

/-- a thread enters a system call: whoever is inside one entered it with the same registers -/
def StepOk (cpu : Cpu) (s : System) (a : Act) : Prop :=
  match a.entry with
  | none => True
  | some (i, c) =>
    match s.threads[i]? with
    | none => True
    | some t =>
      c = cpu → t.mode = .user → s.Open cpu →
        ∀ u ∈ s.threads, u.mode.inCall = true → SyscallFrame.ofUser u.regs = SyscallFrame.ofUser t.regs

instance (cpu : Cpu) (s : System) (a : Act) : Decidable (StepOk cpu s a) := by
  unfold StepOk
  split
  · infer_instance
  · split
    · infer_instance
    · infer_instance

theorem stepOk_entry {c : Cpu} (ha : a.entry = some (i, c)) (ht : s.threads[i]? = some t) :
    StepOk cpu s a ↔ (c = cpu → t.mode = .user → s.Open cpu →
      ∀ u ∈ s.threads, u.mode.inCall = true → SyscallFrame.ofUser u.regs = SyscallFrame.ofUser t.regs) := by
  simp [StepOk, ha, ht]

theorem stepOn_inv (h : stepOn cpu s a = some s') : step s a = some s' ∧ ∀ i c, a.entry = some (i, c) → c = cpu := by
  unfold stepOn at h
  split_ifs at h with ha
  refine ⟨h, fun i c he => ?_⟩
  cases a with
  | enter j d | sigreturn j d =>
    cases he
    simpa [Act.cpu] using ha
  | _ => cases he

theorem own_step (h : Own cpu s) (hok : StepOk cpu s a) (hs : stepOn cpu s a = some s') : Own cpu s' := by
  obtain ⟨hs, hcpu⟩ := stepOn_inv hs
  cases step_moves hs with
  | stay hslot hcalls =>
    intro t' ht' hc
    obtain ⟨t, ht, hc, hr, -⟩ := hcalls t' ht' hc
    rw [System.currentSyscallFrame, hslot, ← hr]
    exact h t ht hc
  | @entry i c t t' ha ht hu ho hm =>
    obtain rfl := hcpu i c ha
    intro u hu' hc
    rw [System.currentSyscallFrame, set_slot, record_slot]
    rcases mem_or_eq_of_mem_set hu' with hu' | rfl
    · exact ((stepOk_entry ha ht).1 hok rfl hu ho u hu' hc).symm
    · rw [(hm hc).1]

theorem entry_step (ha : a.entry = some (i, cpu)) (ht : s.threads[i]? = some t) (hu : t.mode = .user) (ho : s.Open cpu) :
    ∃ t', stepOn cpu s a = some ((s.record cpu t.regs).set i t') := by
  cases a with
  | enter j d | sigreturn j d =>
    cases ha
    simp [stepOn, Act.cpu, step, Act.thread, ht, stepThread, hu, ho]
  | _ => cases ha

theorem foreign_step (hbad : ¬ StepOk cpu s a) : ∃ s', stepOn cpu s a = some s' ∧ ¬ Own cpu s' := by
  rcases ha : a.entry with _ | ⟨i, c⟩
  · exact absurd (by simp [StepOk, ha]) hbad
  rcases ht : s.threads[i]? with _ | t
  · exact absurd (by simp [StepOk, ha, ht]) hbad
  rw [stepOk_entry ha ht] at hbad
  push Not at hbad
  obtain ⟨rfl, hu, ho, u, hmem, hc, hne⟩ := hbad
  obtain ⟨t', hs⟩ := entry_step ha ht hu ho
  refine ⟨_, hs, fun hown => hne ?_⟩
  have hut : u ≠ t := by
    rintro rfl
    rw [hu] at hc
    cases hc
  have hread := hown u (mem_set_of_ne ht hmem hut) hc
  rw [System.currentSyscallFrame, set_slot, record_slot] at hread
  exact hread.symm

/-- **The frame is the caller's own.** On one CPU, along a run, whoever is in a system call would read the frame it entered
with, exactly if no thread enters a system call with other registers while another one is inside. A call that has not
blocked, as fork and clone, reads its own frame in every run. -/
theorem frame_own_iff {cpu : Cpu} {s : System} (h : Own cpu s) (as : List Act) :
    (Meets (stepOn cpu) (StepOk cpu) s as ↔ ∀ k s', runOn cpu s (as.take k) = some s' → Own cpu s') ∧
      ∀ s', runOn cpu s as = some s' → ∀ t ∈ s'.threads, t.mode = .call (some cpu) →
        s'.currentSyscallFrame cpu = SyscallFrame.ofUser t.regs := by
  constructor
  · exact meets_iff_reached (Own cpu) (fun _ _ _ h hok hs => own_step h hok hs) (fun _ _ _ hbad => foreign_step hbad)
      (fun _ h => h) h
  · intro s' hrun
    have hheld : HeldOwn cpu s := fun t ht hm => h t ht (by rw [hm]; rfl)
    exact foldlM_inv (fun _ s => HeldOwn cpu s) (fun _ _ _ _ h hs => heldOwn_step h (stepOn_inv hs).1) hheld hrun

/-- two threads in user mode -/
def pairOf (r₀ r₁ : SavedUserContext) : System :=
  ⟨fun _ => SyscallFrame.ofUser SavedUserContext.zeroed, [⟨r₀, .user, none, []⟩, ⟨r₁, .user, none, []⟩]⟩

theorem own_pairOf (r₀ r₁ : SavedUserContext) (cpu : Cpu) : Own cpu (pairOf r₀ r₁) := by
  intro t ht hc
  simp only [pairOf, mem_cons, not_mem_nil, or_false] at ht
  rcases ht with rfl | rfl
  · cases hc
  · cases hc

/-- thread 0 blocks and is interrupted by a signal while thread 1 stays in user mode -/
theorem frame_own_alone :
    ∃ s as, (∀ k s', runOn 0 s (as.take k) = some s' → Own 0 s') ∧
      (runOn 0 s as).any (fun s' => s'.threads.any fun t => t.sigFrame.isSome) = true := by
  refine ⟨pairOf { SavedUserContext.zeroed with userRsp := 0x6000 } { SavedUserContext.zeroed with userRsp := 0x7000 },
    [.enter 0 0, .block 0, .user 1 SavedUserContext.zeroed, .finish 0 0 7 SavedUserContext.zeroed (.deliver 0x401000 17)],
    ?_, by decide +kernel⟩
  apply (frame_own_iff (own_pairOf _ _ 0) _).1.1
  decide +kernel

/-- **The frame of another thread.** Thread 0 blocks in wait4, thread 1 makes a system call meanwhile; the context saved
for the handler of thread 0 is that of thread 1. -/
theorem frame_foreign :
    ∃ r₀ r₁ as, SyscallFrame.ofUser r₀ ≠ SyscallFrame.ofUser r₁ ∧
      (runOn 0 (pairOf r₀ r₁) as).any
        (fun s => s.threads.map Thread.sigFrame = [some (SavedUserContext.ofSyscall (SyscallFrame.ofUser r₁) 7), none]) =
          true := by
  refine ⟨{ SavedUserContext.zeroed with userRip := 0x401000, userRsp := 0x6000 },
    { SavedUserContext.zeroed with userRip := 0x402000, userRsp := 0x7000 },
    [.enter 0 0, .block 0, .enter 1 0, .finish 1 0 0 SavedUserContext.zeroed .none,
      .finish 0 0 7 SavedUserContext.zeroed (.deliver 0x403000 17)], by decide, by decide +kernel⟩

end Rumicos.Proc.UserContexts
