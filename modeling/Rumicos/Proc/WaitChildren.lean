/-
wait4 and the exits of the children (`crates/proc/src/wait.rs`, `process.rs`, `crates/sched/src/block.rs`).

One parent and any number of children over time, at most 32 at once. A child's exit stores `state = Zombie`, stores the
exit code, bumps `child_exit_seq` of the parent and wakes its wait queue, each in a step of its own. The parent's loop
samples the counter, scans its list slot by slot, reads the code of the first zombie it meets and reaps it; if it meets
none it re-checks the counter under the lock of the wait queue and blocks only if it has not moved. Steps of different
processes interleave freely. Reaping is one step: all it writes belongs to the parent or to the child it has found.

History variables: `code`, `stamp` and `reaped` of a child, the sample of a blocked parent, `returned`. `seq` is the number
of bumps, of which the counter keeps 32 bits. Children stay readable after they are reaped.
-/
import Rumicos.Lib.Run
import Rumicos.Proc.Errno

namespace Rumicos.Proc.WaitChildren

open Lib Function List Option

/-! ## The system -/

/-- how far a child is in `Process::exit` -/
inductive ExitPc where
  | alive
  /-- `state = Zombie` is stored -/
  | published
  /-- `exit_code` is stored -/
  | coded
  /-- `child_exit_seq` is bumped -/
  | bumped
  | dead
deriving DecidableEq

structure Child where
  pid : ℕ
  pc : ExitPc
  exitCode : ℤ
  /-- history: the argument of exit -/
  code : ℤ
  /-- history: the counter after its own bump -/
  stamp : ℕ
  /-- history -/
  reaped : Bool
deriving DecidableEq

def Child.new (pid : ℕ) : Child := ⟨pid, .alive, 0, 0, 0, false⟩

/-- `state == Zombie` -/
def Child.isZombie (ch : Child) : Bool := ch.pc ≠ .alive

/-- the `pid` and the WNOHANG flag of a call -/
structure WaitArgs where
  pid : ℤ
  nohang : Bool
deriving DecidableEq

/-- the filter of `find_zombie`; `pid as u32` cuts off the upper half -/
def WaitArgs.selects (arg : WaitArgs) (childPid : ℕ) : Bool :=
  !(decide (0 < arg.pid) && decide (childPid ≠ arg.pid.toNat % 2 ^ 32))

inductive ParentPc where
  | user
  | loop (arg : WaitArgs)
  /-- at slot `i` of the list -/
  | scan (arg : WaitArgs) (seen i : ℕ)
  /-- child `id` is a zombie -/
  | readCode (arg : WaitArgs) (id childPid : ℕ)
  | found (arg : WaitArgs) (id childPid : ℕ) (exitCode : ℤ)
  /-- at `thread_block_if` -/
  | blockIf (arg : WaitArgs) (seen : ℕ)
  | blocked (arg : WaitArgs) (seen : ℕ)
deriving DecidableEq

def maxChildren : ℕ := 32

structure System where
  /-- all children, by id; ids are not reused -/
  children : List Child
  /-- the parent's `children`: pids, 0 in an empty slot -/
  slots : List ℕ
  childCount : ℕ
  /-- `ptable_find`, for the children -/
  ptable : ℕ → Option ℕ
  /-- `ptable_find` finds the parent -/
  parentListed : Bool
  /-- bumps of `child_exit_seq`, which keeps 32 bits of them -/
  seq : ℕ
  parent : ParentPc
  /-- what the last wait4 returned to the program -/
  rax : ℤ
  /-- history: the children that wait4 returned, with their codes -/
  returned : List (ℕ × ℤ)

/-- a process that has not forked yet -/
def System.new (listed : Bool) : System := ⟨[], List.replicate maxChildren 0, 0, fun _ => none, listed, 0, .user, 0, []⟩

inductive Act where
  /-- `room`: the child's bucket of the ptable is not full -/
  | fork (pid : ℕ) (room : Bool)
  | wait4 (pid : ℤ) (nohang : Bool)
  /-- the next step of the parent's loop -/
  | parent
  | exit (id : ℕ) (code : ℤ)
  /-- the next step of a child's exit -/
  | child (id : ℕ)
deriving DecidableEq

/-! ## Steps -/

/-- `add_child`, `ptable_insert` -/
def System.fork (s : System) (pid : ℕ) (room : Bool) : Option System :=
  if s.parent = .user ∧ 0 ∈ s.slots then
    some { s with
      children := s.children ++ [Child.new pid]
      slots := s.slots.set (s.slots.idxOf 0) pid
      childCount := s.childCount + 1
      ptable := if room then update s.ptable pid (some s.children.length) else s.ptable }
  else none

/-- one slot of `find_zombie`; past the last one, `sys_wait4` returns or goes on to block -/
def System.scan (s : System) (arg : WaitArgs) (seen i : ℕ) : ParentPc :=
  match s.slots[i]? with
  | none => if arg.nohang then .user else .blockIf arg seen
  | some childPid =>
    if childPid = 0 ∨ arg.selects childPid = false then .scan arg seen (i + 1)
    else
      match s.ptable childPid with
      | none => .scan arg seen (i + 1)
      | some id => if (s.children[id]?).any Child.isZombie then .readCode arg id childPid else .scan arg seen (i + 1)

/-- `sys_wait4` returns `r` -/
def System.returns (s : System) (r : ℤ) : System := { s with parent := .user, rax := r }

/-- `reap_zombie` and the return -/
def System.reap (s : System) (id childPid : ℕ) (exitCode : ℤ) : System :=
  { s with
    children := s.children.modify id fun ch => { ch with reaped := true }
    slots := s.slots.set (s.slots.idxOf childPid) 0
    childCount := s.childCount - 1
    ptable := update s.ptable childPid none
    parent := .user
    rax := childPid
    returned := s.returned ++ [(id, exitCode)] }

def System.parentStep (s : System) : Option System :=
  match s.parent with
  | .user => none
  | .loop arg => some (if s.childCount = 0 then s.returns eChild else { s with parent := .scan arg s.seq 0 })
  -- the scan ends in user space only with WNOHANG
  | .scan arg seen i => some (if s.scan arg seen i = .user then s.returns 0 else { s with parent := s.scan arg seen i })
  | .readCode arg id childPid =>
    (s.children[id]?).map fun ch => { s with parent := .found arg id childPid ch.exitCode }
  | .found _ id childPid exitCode => some (s.reap id childPid exitCode)
  | .blockIf arg seen => some { s with parent := if s.seq % 2 ^ 32 = seen % 2 ^ 32 then .blocked arg seen else .loop arg }
  | .blocked _ _ => none

def System.setChild (s : System) (id : ℕ) (ch : Child) : System := { s with children := s.children.set id ch }

/-- `wake_one` readies the parent if it is queued -/
def System.wake (s : System) : System :=
  match s.parent with
  | .blocked arg _ => { s with parent := .loop arg }
  | _ => s

def System.childStep (s : System) (id : ℕ) (ch : Child) : Option System :=
  match ch.pc with
  | .alive => none
  | .published => some (s.setChild id { ch with pc := .coded, exitCode := ch.code })
  | .coded =>
    if s.parentListed then some ({ s with seq := s.seq + 1 }.setChild id { ch with pc := .bumped, stamp := s.seq + 1 })
    else some (s.setChild id { ch with pc := .dead })
  | .bumped => some (s.wake.setChild id { ch with pc := .dead })
  | .dead => none

def step (s : System) : Act → Option System
  | .fork pid room => s.fork pid room
  | .wait4 pid nohang =>
    if s.parent = .user then some (if pid < -1 then s.returns eChild else { s with parent := .loop ⟨pid, nohang⟩ })
    else none
  | .parent => s.parentStep
  | .exit id code =>
    (s.children[id]?).bind fun ch =>
      if ch.pc = .alive then some (s.setChild id { ch with pc := .published, code := code }) else none
  | .child id => (s.children[id]?).bind fun ch => s.childStep id ch

def run (s : System) (as : List Act) : Option System := as.foldlM step s

/-! ## The property and its condition -/

/-- no child is in the middle of its exit -/
def System.Quiet (s : System) : Prop := ∀ ch ∈ s.children, ch.pc = .alive ∨ ch.pc = .dead

/-- the parent does not sleep while a child it waits for is a zombie -/
def Awake (s : System) : Prop :=
  s.Quiet → ∀ arg seen, s.parent = .blocked arg seen →
    ∀ ch ∈ s.children, ch.reaped = false → arg.selects ch.pid = true → ch.isZombie = false

/-- each child is returned at most once, after it has exited and with its own code -/
def OnceOwn (s : System) : Prop :=
  (s.returned.map Prod.fst).Nodup ∧
    ∀ r ∈ s.returned, ∃ ch, s.children[r.1]? = some ch ∧ ch.isZombie = true ∧ r.2 = ch.code

/-- fork lists the child, under a pid that no other child has; an exit finds the parent; the code is not read between the
two stores unless the old value is right; fewer than 2^32 exits between the sample and the re-check -/
def StepOk (s : System) : Act → Prop
  | .fork pid room => s.parent = .user → 0 ∈ s.slots → room = true ∧ 0 < pid ∧ pid ∉ s.slots
  | .parent =>
    match s.parent with
    | .readCode _ id _ => ∀ ch, s.children[id]? = some ch → ch.pc = .published → ch.exitCode = ch.code
    | .blockIf _ seen => s.seq < seen + 2 ^ 32
    | _ => True
  | .child id => ∀ ch, s.children[id]? = some ch → ch.pc = .coded → s.parentListed = true
  | _ => True

/-! ## The invariant -/

/-- an exit that is over was announced after `seen` -/
def Missed (arg : WaitArgs) (seen : ℕ) (ch : Child) : Prop :=
  arg.selects ch.pid = true → ch.pc = .bumped ∨ ch.pc = .dead → seen < ch.stamp

/-- what is known of each child -/
structure ChildInv (s : System) (ch : Child) : Prop where
  coded : ch.pc = .coded ∨ ch.pc = .bumped ∨ ch.pc = .dead → ch.exitCode = ch.code
  stamp : ch.stamp ≤ s.seq

/-- what is known at each point of the parent's loop -/
def ParentInv (s : System) : ParentPc → Prop
  | .user | .loop _ => True
  | .scan arg seen i =>
    seen ≤ s.seq ∧ ∀ ch ∈ s.children, ch.reaped = false → (∃ j < i, s.slots[j]? = some ch.pid) → Missed arg seen ch
  | .readCode _ id childPid =>
    ∃ ch, s.children[id]? = some ch ∧ ch.pid = childPid ∧ ch.reaped = false ∧ ch.isZombie = true
  | .found _ id childPid exitCode =>
    ∃ ch, s.children[id]? = some ch ∧ ch.pid = childPid ∧ ch.reaped = false ∧ ch.isZombie = true ∧ exitCode = ch.code
  | .blockIf arg seen => seen ≤ s.seq ∧ ∀ ch ∈ s.children, ch.reaped = false → Missed arg seen ch
  | .blocked arg seen =>
    seen ≤ s.seq ∧ (∀ ch ∈ s.children, ch.reaped = false → Missed arg seen ch) ∧
      (s.seq = seen ∨ ∃ ch ∈ s.children, ch.pc = .bumped)

structure Inv (s : System) : Prop where
  each : ∀ ch ∈ s.children, ChildInv s ch
  /-- a child that is not reaped has a slot and is found by its pid -/
  seat : ∀ id ch, s.children[id]? = some ch → ch.reaped = false → ch.pid ≠ 0 ∧ ch.pid ∈ s.slots ∧ s.ptable ch.pid = some id
  table : ∀ pid id, s.ptable pid = some id → ∃ ch, s.children[id]? = some ch ∧ ch.pid = pid ∧ ch.reaped = false
  nodup : (s.returned.map Prod.fst).Nodup
  returned : ∀ r ∈ s.returned, ∃ ch, s.children[r.1]? = some ch ∧ ch.isZombie = true ∧ r.2 = ch.code ∧ ch.reaped = true
  parent : ParentInv s s.parent

theorem Inv.onceOwn {s : System} (h : Inv s) : OnceOwn s := by
  refine ⟨h.nodup, ?_⟩
  intro r hr
  obtain ⟨ch, hch, hz, hcode, -⟩ := h.returned r hr
  exact ⟨ch, hch, hz, hcode⟩

/-- **A blocked parent has missed nothing**: with no exit under way the counter has not moved since the sample. -/
theorem Inv.awake {s : System} (h : Inv s) : Awake s := by
  intro hq arg seen hb ch hch hr hsel
  have hp := h.parent
  rw [hb] at hp
  obtain ⟨-, hmissed, hseq⟩ := hp
  have hstill : s.seq = seen := by
    apply hseq.resolve_right
    intro hex
    obtain ⟨c, hc, hbump⟩ := hex
    rcases hq c hc with h1 | h1
    · rw [hbump] at h1
      cases h1
    · rw [hbump] at h1
      cases h1
  rcases hq ch hch with halive | hdead
  · simp [Child.isZombie, halive]
  · have hlt := hmissed ch hch hr hsel (.inr hdead)
    have hle := (h.each ch hch).stamp
    omega

theorem inv_new (listed : Bool) : Inv (System.new listed) := by
  refine ⟨?_, ?_, ?_, nodup_nil, ?_, trivial⟩
  · intro ch hch
    cases hch
  · intro id ch hch
    cases hch
  · intro pid id hpid
    cases hpid
  · intro r hr
    cases hr

/-! ## Steps of a child -/

/-- one child goes on: `ch` becomes `ch'`, and the counter may move -/
structure Moved (s s' : System) (id : ℕ) (ch ch' : Child) : Prop where
  old : s.children[id]? = some ch
  children : s'.children = s.children.set id ch'
  slots : s'.slots = s.slots
  ptable : s'.ptable = s.ptable
  returned : s'.returned = s.returned
  pid : ch'.pid = ch.pid
  reaped : ch'.reaped = ch.reaped
  zombie : ch'.isZombie = true
  code : ch.isZombie = true → ch'.code = ch.code
  seq : s.seq ≤ s'.seq

section Moved

variable {s s' : System} {id : ℕ} {ch ch' : Child} (hm : Moved s s' id ch ch')

include hm

theorem Moved.get {j : ℕ} {c : Child} (h : s'.children[j]? = some c) :
    (j = id ∧ c = ch') ∨ (j ≠ id ∧ s.children[j]? = some c) := by
  rw [hm.children] at h
  exact getElem?_set_cases h

theorem Moved.get_self : s'.children[id]? = some ch' := by
  rw [hm.children, getElem?_set_self (List.getElem?_eq_some_iff.1 hm.old).1]

theorem Moved.get_of_ne {j : ℕ} (hj : j ≠ id) : s'.children[j]? = s.children[j]? := by
  rw [hm.children, getElem?_set_ne (Ne.symm hj)]

theorem Moved.forall_mem {P : Child → Prop} (hch : P ch') (h : ∀ c ∈ s.children, P c) : ∀ c ∈ s'.children, P c := by
  intro c hc
  obtain ⟨j, hj⟩ := getElem?_of_mem hc
  rcases hm.get hj with ⟨-, rfl⟩ | ⟨-, hj⟩
  · exact hch
  · exact h c (mem_of_getElem? hj)

theorem Moved.zombie_kept {j : ℕ} {c : Child} (h : s.children[j]? = some c) (hz : c.isZombie = true) :
    ∃ c', s'.children[j]? = some c' ∧ c'.pid = c.pid ∧ c'.reaped = c.reaped ∧ c'.isZombie = true ∧ c'.code = c.code := by
  by_cases hj : j = id
  · subst hj
    cases hm.old.symm.trans h
    exact ⟨ch', hm.get_self, hm.pid, hm.reaped, hm.zombie, hm.code hz⟩
  · exact ⟨c, by rw [hm.get_of_ne hj, h], rfl, rfl, hz, rfl⟩

theorem Moved.inv (h : Inv s) (hch : ChildInv s' ch') (hp : ParentInv s' s'.parent) : Inv s' := by
  refine ⟨?_, ?_, ?_, ?_, ?_, hp⟩
  · apply hm.forall_mem hch
    intro c hc
    have hold := h.each c hc
    exact ⟨hold.coded, hold.stamp.trans hm.seq⟩
  · intro j c hj hr
    rw [hm.slots, hm.ptable]
    rcases hm.get hj with ⟨rfl, rfl⟩ | ⟨-, hj⟩
    · rw [hm.pid]
      exact h.seat j ch hm.old (hm.reaped ▸ hr)
    · exact h.seat j c hj hr
  · intro pid j hpid
    rw [hm.ptable] at hpid
    obtain ⟨c, hc, hcp, hcr⟩ := h.table pid j hpid
    by_cases hj : j = id
    · subst hj
      cases hm.old.symm.trans hc
      exact ⟨ch', hm.get_self, hm.pid.trans hcp, hm.reaped.trans hcr⟩
    · exact ⟨c, by rw [hm.get_of_ne hj, hc], hcp, hcr⟩
  · rw [hm.returned]
    exact h.nodup
  · intro r hr
    rw [hm.returned] at hr
    obtain ⟨c, hc, hz, hcode, hcr⟩ := h.returned r hr
    obtain ⟨c', hc', -, hr', hz', hcode'⟩ := hm.zombie_kept hc hz
    exact ⟨c', hc', hz', hcode.trans hcode'.symm, hr'.trans hcr⟩

/-- the parent's knowledge survives, if the child announces itself with a new stamp and a wake stays pending -/
theorem Moved.parentInv {p : ParentPc} (h : ParentInv s p)
    (hmiss : ∀ arg seen, seen ≤ s.seq → Missed arg seen ch → Missed arg seen ch')
    (hwake : ∀ arg seen, p = .blocked arg seen → (s.seq = seen ∨ ∃ c ∈ s.children, c.pc = .bumped) →
      s'.seq = seen ∨ ∃ c ∈ s'.children, c.pc = .bumped) : ParentInv s' p := by
  have hold : ch ∈ s.children := mem_of_getElem? hm.old
  cases p with
  | user | loop arg => trivial
  | scan arg seen i =>
    obtain ⟨hle, hall⟩ := h
    refine ⟨hle.trans hm.seq, ?_⟩
    rw [hm.slots]
    apply hm.forall_mem (P := fun c => c.reaped = false → (∃ j < i, s.slots[j]? = some c.pid) → Missed arg seen c)
    · intro hr hex
      rw [hm.pid] at hex
      exact hmiss arg seen hle (hall ch hold (hm.reaped ▸ hr) hex)
    · exact hall
  | readCode arg j childPid =>
    obtain ⟨c, hc, hpid, hr, hz⟩ := h
    obtain ⟨c', hc', hpid', hr', hz', -⟩ := hm.zombie_kept hc hz
    exact ⟨c', hc', hpid'.trans hpid, hr'.trans hr, hz'⟩
  | found arg j childPid exitCode =>
    obtain ⟨c, hc, hpid, hr, hz, hcode⟩ := h
    obtain ⟨c', hc', hpid', hr', hz', hcode'⟩ := hm.zombie_kept hc hz
    exact ⟨c', hc', hpid'.trans hpid, hr'.trans hr, hz', hcode.trans hcode'.symm⟩
  | blockIf arg seen =>
    obtain ⟨hle, hall⟩ := h
    refine ⟨hle.trans hm.seq, ?_⟩
    apply hm.forall_mem (P := fun c => c.reaped = false → Missed arg seen c)
    · intro hr
      exact hmiss arg seen hle (hall ch hold (hm.reaped ▸ hr))
    · exact hall
  | blocked arg seen =>
    obtain ⟨hle, hall, hseq⟩ := h
    refine ⟨hle.trans hm.seq, ?_, hwake arg seen rfl hseq⟩
    apply hm.forall_mem (P := fun c => c.reaped = false → Missed arg seen c)
    · intro hr
      exact hmiss arg seen hle (hall ch hold (hm.reaped ▸ hr))
    · exact hall

theorem Moved.wake_kept (hpc : ch.pc ≠ .bumped) (hseq : s'.seq = s.seq) (seen : ℕ)
    (h : s.seq = seen ∨ ∃ c ∈ s.children, c.pc = .bumped) : s'.seq = seen ∨ ∃ c ∈ s'.children, c.pc = .bumped := by
  rcases h with h | ⟨c, hc, hb⟩
  · exact .inl (hseq.trans h)
  · right
    obtain ⟨j, hj⟩ := getElem?_of_mem hc
    have hne : j ≠ id := by
      intro he
      subst he
      cases hm.old.symm.trans hj
      exact hpc hb
    exact ⟨c, mem_of_getElem? (by rw [hm.get_of_ne hne, hj]), hb⟩

end Moved

theorem exit_inv {s : System} {id : ℕ} {ch : Child} (h : Inv s) (hch : s.children[id]? = some ch) (hpc : ch.pc = .alive)
    (code : ℤ) : Inv (s.setChild id { ch with pc := .published, code := code }) := by
  have hm : Moved s (s.setChild id { ch with pc := .published, code := code }) id ch
      { ch with pc := .published, code := code } :=
    ⟨hch, rfl, rfl, rfl, rfl, rfl, rfl, rfl, fun hz => by simp [Child.isZombie, hpc] at hz, le_rfl⟩
  have hold := h.each ch (mem_of_getElem? hch)
  apply hm.inv h
  · refine ⟨?_, hold.stamp⟩
    intro hlate
    simp at hlate
  · apply hm.parentInv h.parent
    · intro arg seen _ _ _ hlate
      simp at hlate
    · intro _ seen _
      exact hm.wake_kept (by rw [hpc]; decide) rfl seen

theorem wake_spec (s : System) : s.wake.children = s.children ∧ s.wake.slots = s.slots ∧ s.wake.ptable = s.ptable ∧
    s.wake.returned = s.returned ∧ s.wake.seq = s.seq ∧
      ((∃ arg, s.wake.parent = .loop arg) ∨ s.wake.parent = s.parent ∧ ∀ arg seen, s.parent ≠ .blocked arg seen) := by
  unfold System.wake
  split
  next arg seen hb => exact ⟨rfl, rfl, rfl, rfl, rfl, .inl ⟨arg, rfl⟩⟩
  next hnot => exact ⟨rfl, rfl, rfl, rfl, rfl, .inr ⟨rfl, hnot⟩⟩

/-- **A step of an exit keeps the invariant.** -/
theorem childStep_inv {s s' : System} {id : ℕ} {ch : Child} (h : Inv s) (hch : s.children[id]? = some ch)
    (hlisted : ch.pc = .coded → s.parentListed = true) (hstep : s.childStep id ch = some s') : Inv s' := by
  have hold := h.each ch (mem_of_getElem? hch)
  unfold System.childStep at hstep
  cases hpc : ch.pc with
  | alive | dead => simp [hpc] at hstep
  | published =>
    simp only [hpc, some.injEq] at hstep
    subst hstep
    have hm : Moved s (s.setChild id { ch with pc := .coded, exitCode := ch.code }) id ch
        { ch with pc := .coded, exitCode := ch.code } :=
      ⟨hch, rfl, rfl, rfl, rfl, rfl, rfl, rfl, fun _ => rfl, le_rfl⟩
    apply hm.inv h
    · exact ⟨fun _ => rfl, hold.stamp⟩
    · apply hm.parentInv h.parent
      · intro arg seen _ _ _ hlate
        simp at hlate
      · intro _ seen _
        exact hm.wake_kept (by rw [hpc]; decide) rfl seen
  | coded =>
    simp only [hpc] at hstep
    rw [if_pos (hlisted hpc)] at hstep
    cases hstep
    have hm : Moved s ({ s with seq := s.seq + 1 }.setChild id { ch with pc := .bumped, stamp := s.seq + 1 }) id ch
        { ch with pc := .bumped, stamp := s.seq + 1 } :=
      ⟨hch, rfl, rfl, rfl, rfl, rfl, rfl, rfl, fun _ => rfl, Nat.le_succ _⟩
    apply hm.inv h
    · exact ⟨fun _ => hold.coded (.inl hpc), le_rfl⟩
    · apply hm.parentInv h.parent
      · intro arg seen hle _ _ _
        exact Nat.lt_succ_of_le hle
      · -- its own wake is pending now
        intro _ _ _ _
        exact .inr ⟨_, mem_of_getElem? hm.get_self, rfl⟩
  | bumped =>
    simp only [hpc, some.injEq] at hstep
    subst hstep
    obtain ⟨hchildren, hslots, htable, hret, hseq, hpar⟩ := wake_spec s
    have hm : Moved s (s.wake.setChild id { ch with pc := .dead }) id ch { ch with pc := .dead } :=
      ⟨hch, by rw [System.setChild, hchildren], hslots, htable, hret, rfl, rfl, rfl, fun _ => rfl, hseq.ge⟩
    apply hm.inv h
    · exact ⟨fun _ => hold.coded (.inr (.inl hpc)), hold.stamp.trans hseq.ge⟩
    · -- the wake ends the only state that waits for one
      rcases hpar with ⟨arg, hloop⟩ | ⟨hsame, hnot⟩
      · rw [System.setChild, hloop]
        trivial
      · apply hm.parentInv (p := s.wake.parent)
        · rw [hsame]
          exact h.parent
        · intro arg seen _ hmiss hsel _
          exact hmiss hsel (.inl hpc)
        · intro arg seen hb
          rw [hsame] at hb
          exact absurd hb (hnot arg seen)

/-! ## Steps of the parent -/

theorem Inv.setParent {s : System} (h : Inv s) {p : ParentPc} (hp : ParentInv s p) : Inv { s with parent := p } := by
  refine ⟨?_, h.seat, h.table, h.nodup, h.returned, ?_⟩
  · intro ch hch
    exact ⟨(h.each ch hch).coded, (h.each ch hch).stamp⟩
  · cases p with
    | _ => exact hp

theorem Inv.returns {s : System} (h : Inv s) (r : ℤ) : Inv (s.returns r) :=
  ⟨fun ch hch => ⟨(h.each ch hch).coded, (h.each ch hch).stamp⟩, h.seat, h.table, h.nodup, h.returned, trivial⟩

/-- a slot that was passed: empty, not selected, not listed, or of a child that was alive -/
theorem scan_inv {s : System} (h : Inv s) {arg : WaitArgs} {seen i : ℕ} (hp : ParentInv s (.scan arg seen i)) :
    ParentInv s (s.scan arg seen i) := by
  obtain ⟨hle, hall⟩ := hp
  -- the next slot is known to be harmless
  have hnext : ∀ childPid, s.slots[i]? = some childPid →
      (∀ ch ∈ s.children, ch.reaped = false → ch.pid = childPid → Missed arg seen ch) →
      ParentInv s (.scan arg seen (i + 1)) := by
    intro childPid hslot hthis
    refine ⟨hle, ?_⟩
    intro ch hch hr hex
    obtain ⟨j, hj, hjs⟩ := hex
    rcases Nat.lt_succ_iff_lt_or_eq.1 hj with hlt | rfl
    · exact hall ch hch hr ⟨j, hlt, hjs⟩
    · rw [hslot] at hjs
      cases hjs
      exact hthis ch hch hr rfl
  unfold System.scan
  cases hslot : s.slots[i]? with
  | none =>
    dsimp only
    split
    · trivial
    · refine ⟨hle, ?_⟩
      intro ch hch hr
      obtain ⟨id, hid⟩ := getElem?_of_mem hch
      obtain ⟨-, hmem, -⟩ := h.seat id ch hid hr
      obtain ⟨j, hj⟩ := getElem?_of_mem hmem
      refine hall ch hch hr ⟨j, ?_, hj⟩
      have hjlt : j < s.slots.length := (List.getElem?_eq_some_iff.1 hj).1
      exact hjlt.trans_le (getElem?_eq_none_iff.1 hslot)
  | some childPid =>
    dsimp only
    split
    next hskip =>
      apply hnext childPid hslot
      intro ch hch hr hpid hsel
      rcases hskip with hzero | hsel'
      · obtain ⟨id, hid⟩ := getElem?_of_mem hch
        exact absurd (hpid.trans hzero) (h.seat id ch hid hr).1
      · rw [hpid, hsel'] at hsel
        cases hsel
    next =>
      cases htab : s.ptable childPid with
      | none =>
        apply hnext childPid hslot
        intro ch hch hr hpid
        obtain ⟨id, hid⟩ := getElem?_of_mem hch
        have hfind := (h.seat id ch hid hr).2.2
        rw [hpid, htab] at hfind
        cases hfind
      | some id =>
        obtain ⟨c, hc, hcp, hcr⟩ := h.table childPid id htab
        simp only [hc]
        split
        next hz => exact ⟨c, hc, hcp, hcr, hz⟩
        next hz =>
          apply hnext childPid hslot
          intro ch hch hr hpid _ hlate
          -- the child of this pid is the one that was looked at
          obtain ⟨j, hj⟩ := getElem?_of_mem hch
          have hfind := (h.seat j ch hj hr).2.2
          rw [hpid, htab] at hfind
          cases hfind
          cases hc.symm.trans hj
          have halive : c.pc = .alive := by simpa [Child.isZombie] using hz
          rw [halive] at hlate
          simp at hlate

theorem getElem?_idxOf {l : List ℕ} {x : ℕ} (h : x ∈ l) : l[l.idxOf x]? = some x := by
  rw [getElem?_eq_getElem (idxOf_lt_length_iff.2 h), getElem_idxOf]

/-- **Fork**: the child gets a slot and an entry of its own. -/
theorem fork_inv {s s' : System} {pid : ℕ} {room : Bool} (h : Inv s) (hok : StepOk s (.fork pid room))
    (hstep : s.fork pid room = some s') : Inv s' := by
  unfold System.fork at hstep
  simp only [ite_none_right_eq_some, some.injEq] at hstep
  obtain ⟨⟨huser, hfree⟩, rfl⟩ := hstep
  obtain ⟨rfl, hpos, hfresh⟩ := hok huser hfree
  have hslot := getElem?_idxOf hfree
  have hlt : s.slots.idxOf 0 < s.slots.length := idxOf_lt_length_iff.2 hfree
  have hget : ∀ {id : ℕ} {ch : Child}, (s.children ++ [Child.new pid])[id]? = some ch →
      s.children[id]? = some ch ∨ id = s.children.length ∧ ch = Child.new pid := by
    intro id ch hid
    rcases Nat.lt_or_ge id s.children.length with hl | hl
    · rw [getElem?_append_left hl] at hid
      exact .inl hid
    · right
      rw [getElem?_append_right hl] at hid
      obtain ⟨hid0, hch⟩ := List.getElem?_eq_some_iff.1 hid
      have hid : id = s.children.length := by
        simp only [length_cons, length_nil] at hid0
        omega
      subst hid
      simp at hch
      exact ⟨rfl, hch.symm⟩
  refine ⟨?_, ?_, ?_, h.nodup, ?_, ?_⟩
  · intro ch hch
    rcases mem_append.1 hch with hch | hch
    · exact ⟨(h.each ch hch).coded, (h.each ch hch).stamp⟩
    · rw [mem_singleton.1 hch]
      refine ⟨?_, Nat.zero_le _⟩
      intro hlate
      simp [Child.new] at hlate
  · intro id ch hid hr
    simp only [if_true]
    rcases hget hid with hid | ⟨rfl, rfl⟩
    · obtain ⟨hne, hmem, htab⟩ := h.seat id ch hid hr
      have hother : ch.pid ≠ pid := by
        intro he
        exact hfresh (he ▸ hmem)
      exact ⟨hne, mem_set_of_ne hslot hmem hne, by rw [update_of_ne hother, htab]⟩
    · exact ⟨Nat.ne_of_gt hpos, mem_set hlt _, update_self ..⟩
  · intro p id hp
    simp only [if_true] at hp ⊢
    by_cases hpp : p = pid
    · subst hpp
      rw [update_self] at hp
      cases hp
      exact ⟨Child.new p, by simp, rfl, rfl⟩
    · rw [update_of_ne hpp] at hp
      obtain ⟨ch, hch, hcp, hcr⟩ := h.table p id hp
      exact ⟨ch, by rw [getElem?_append_left (List.getElem?_eq_some_iff.1 hch).1, hch], hcp, hcr⟩
  · intro r hr
    obtain ⟨ch, hch, hrest⟩ := h.returned r hr
    exact ⟨ch, by rw [getElem?_append_left (List.getElem?_eq_some_iff.1 hch).1, hch], hrest⟩
  · rw [huser]
    trivial

/-- **Reaping**: the child leaves the list and the table, and is returned for the first time. -/
theorem reap_inv {s : System} {arg : WaitArgs} {id childPid : ℕ} {exitCode : ℤ} (h : Inv s)
    (hp : ParentInv s (.found arg id childPid exitCode)) : Inv (s.reap id childPid exitCode) := by
  obtain ⟨ch, hch, hpid, hr, hz, hcode⟩ := hp
  obtain ⟨-, hmem, htab⟩ := h.seat id ch hch hr
  rw [hpid] at hmem htab
  have hslot := getElem?_idxOf hmem
  have htable : (s.reap id childPid exitCode).ptable = update s.ptable childPid none := rfl
  have hself : (s.reap id childPid exitCode).children[id]? = some { ch with reaped := true } := by
    simp [System.reap, hch]
  have hother : ∀ {j : ℕ}, j ≠ id → (s.reap id childPid exitCode).children[j]? = s.children[j]? := by
    intro j hj
    simp [System.reap, Ne.symm hj]
  -- a child of this pid that is not reaped is this one
  have hsole : ∀ {j : ℕ} {c : Child}, s.children[j]? = some c → c.reaped = false → j ≠ id → c.pid ≠ childPid := by
    intro j c hj hcr hne he
    have hfind := (h.seat j c hj hcr).2.2
    rw [he, htab] at hfind
    cases hfind
    exact hne rfl
  refine ⟨?_, ?_, ?_, ?_, ?_, trivial⟩
  · intro c hc
    obtain ⟨j, hj⟩ := getElem?_of_mem hc
    by_cases hji : j = id
    · subst hji
      rw [hself] at hj
      cases hj
      have hold := h.each ch (mem_of_getElem? hch)
      exact ⟨hold.coded, hold.stamp⟩
    · rw [hother hji] at hj
      have hold := h.each c (mem_of_getElem? hj)
      exact ⟨hold.coded, hold.stamp⟩
  · intro j c hj hcr
    by_cases hji : j = id
    · subst hji
      rw [hself] at hj
      cases hj
      cases hcr
    · rw [hother hji] at hj
      obtain ⟨hne, hcm, hct⟩ := h.seat j c hj hcr
      have hcp := hsole hj hcr hji
      exact ⟨hne, mem_set_of_ne hslot hcm hcp, by rw [htable, update_of_ne hcp, hct]⟩
  · intro p j hpj
    by_cases hpc : p = childPid
    · subst hpc
      simp [System.reap] at hpj
    · rw [htable, update_of_ne hpc] at hpj
      obtain ⟨c, hc, hcp, hcr⟩ := h.table p j hpj
      have hji : j ≠ id := by
        intro he
        subst he
        cases hch.symm.trans hc
        exact hpc (hcp.symm.trans hpid)
      exact ⟨c, by rw [hother hji, hc], hcp, hcr⟩
  · rw [System.reap, map_append, nodup_append]
    refine ⟨h.nodup, by simp, ?_⟩
    intro x hx y hy
    rw [map_cons, map_nil, mem_singleton] at hy
    subst hy
    intro he
    subst he
    obtain ⟨r, hrm, hre⟩ := mem_map.1 hx
    obtain ⟨c, hc, -, -, hcr⟩ := h.returned r hrm
    rw [hre, hch] at hc
    cases hc
    rw [hr] at hcr
    cases hcr
  · intro r hrm
    rcases mem_append.1 hrm with hrm | hrm
    · obtain ⟨c, hc, hcz, hcc, hcr⟩ := h.returned r hrm
      have hne : r.1 ≠ id := by
        intro he
        rw [he, hch] at hc
        cases hc
        rw [hr] at hcr
        cases hcr
      exact ⟨c, by rw [hother hne, hc], hcz, hcc, hcr⟩
    · rw [mem_singleton.1 hrm]
      exact ⟨_, hself, hz, hcode, rfl⟩

/-- **A step of wait4 keeps the invariant.** -/
theorem parentStep_inv {s s' : System} (h : Inv s) (hok : StepOk s .parent) (hstep : s.parentStep = some s') : Inv s' := by
  have hp := h.parent
  unfold System.parentStep at hstep
  simp only [StepOk] at hok
  cases hpar : s.parent with
  | user | blocked arg seen => simp [hpar] at hstep
  | loop arg =>
    simp only [hpar, some.injEq] at hstep
    subst hstep
    split
    · exact h.returns _
    · refine h.setParent ⟨le_rfl, ?_⟩
      intro ch _ _ hex
      obtain ⟨j, hj, -⟩ := hex
      cases hj
  | scan arg seen i =>
    simp only [hpar, some.injEq] at hstep
    subst hstep
    rw [hpar] at hp
    split
    · exact h.returns _
    · exact h.setParent (scan_inv h hp)
  | readCode arg id childPid =>
    rw [hpar] at hp hok
    obtain ⟨ch, hch, hpid, hr, hz⟩ := hp
    simp only [hpar, hch, map_some, some.injEq] at hstep
    subst hstep
    apply h.setParent
    refine ⟨ch, hch, hpid, hr, hz, ?_⟩
    -- before the store the old value happens to be right, after it the field is the code
    have hcoded := (h.each ch (mem_of_getElem? hch)).coded
    cases hpc : ch.pc with
    | alive => simp [Child.isZombie, hpc] at hz
    | published => exact hok ch hch hpc
    | coded => exact hcoded (.inl hpc)
    | bumped => exact hcoded (.inr (.inl hpc))
    | dead => exact hcoded (.inr (.inr hpc))
  | found arg id childPid exitCode =>
    simp only [hpar, some.injEq] at hstep
    subst hstep
    rw [hpar] at hp
    exact reap_inv h hp
  | blockIf arg seen =>
    rw [hpar] at hp hok
    simp only [hpar, some.injEq] at hstep
    subst hstep
    obtain ⟨hle, hall⟩ := hp
    apply h.setParent
    split
    next heq =>
      refine ⟨hle, hall, .inl ?_⟩
      omega
    next => trivial

theorem step_inv {s s' : System} {a : Act} (h : Inv s) (hok : StepOk s a) (hstep : step s a = some s') : Inv s' := by
  cases a with
  | fork pid room => exact fork_inv h hok hstep
  | wait4 pid nohang =>
    simp only [step, ite_none_right_eq_some, some.injEq] at hstep
    obtain ⟨-, rfl⟩ := hstep
    split
    · exact h.returns _
    · exact h.setParent trivial
  | parent => exact parentStep_inv h hok hstep
  | exit id code =>
    obtain ⟨ch, hch, hstep⟩ := bind_eq_some_iff.1 hstep
    simp only [ite_none_right_eq_some, some.injEq] at hstep
    obtain ⟨hpc, rfl⟩ := hstep
    exact exit_inv h hch hpc code
  | child id =>
    obtain ⟨ch, hch, hstep⟩ := bind_eq_some_iff.1 hstep
    exact childStep_inv h hch (hok ch hch) hstep

/-! ## Whole runs -/

/-- **wait4.** Along a run whose steps all meet the condition, in every state: a parent that sleeps while no exit is
under way has no zombie to wait for, and the children returned so far are distinct, have exited, and came with their own
codes. -/
theorem wait4_run (listed : Bool) {as : List Act} (hok : Meets step StepOk (System.new listed) as) {s : System}
    (hrun : run (System.new listed) as = some s) : Awake s ∧ OnceOwn s := by
  have h : Inv s := run_inv Inv (fun _ _ _ h hok hs => step_inv h hok hs) (inv_new listed) hok hrun
  exact ⟨h.awake, h.onceOwn⟩

/-- a question about the child `id` is decided by looking at it -/
def decideChild (o : Option Child) (P : Child → Prop) [DecidablePred P] : Decidable (∀ ch, o = some ch → P ch) :=
  match o with
  | none => isTrue fun _ h => by cases h
  | some c => decidable_of_iff (P c) ⟨fun h ch hc => by cases hc; exact h, fun h => h c rfl⟩

instance (s : System) (a : Act) : Decidable (StepOk s a) := by
  unfold StepOk
  cases a with
  | fork pid room => infer_instance
  | wait4 pid nohang => infer_instance
  | exit id code => infer_instance
  | child id => exact decideChild s.children[id]? fun ch => ch.pc = .coded → s.parentListed = true
  | parent =>
    dsimp only
    split
    next arg id childPid _ => exact decideChild s.children[id]? fun ch => ch.pc = .published → ch.exitCode = ch.code
    · infer_instance
    · infer_instance

/-- fork, wait4: the scan is over when the child exits, and its wake finds the parent blocked -/
def lateExit : List Act :=
  [.fork 2 true, .wait4 2 false] ++ List.replicate 34 .parent ++ [.exit 0 7, .parent, .child 0, .child 0, .child 0] ++
    List.replicate 4 .parent

/-- a child exits with 7 while the parent is on its way to block: the parent scans again and gets it -/
theorem wait4_run_late_exit :
    ∃ as s, run (System.new true) as = some s ∧ s.returned = [(0, 7)] ∧ Awake s ∧ OnceOwn s := by
  refine ⟨lateExit, exists_and_of_check (by decide +kernel) fun s hs _ => ?_⟩
  exact wait4_run true (by decide +kernel) hs

/-- **A stale exit code.** The parent scans between the two stores of a child that exits with 7, and returns 0 for it. -/
theorem stale_exit_code :
    ∃ as, (run (System.new true) as).any (fun s =>
      decide (s.returned = [(0, 0)] ∧ (s.children.map Child.code) = [7])) = true := by
  refine ⟨[.fork 2 true, .wait4 (-1) false, .exit 0 7, .parent, .parent, .parent, .parent, .child 0], ?_⟩
  decide +kernel

/-! ## A call alone -/

inductive Outcome where
  | eChild
  | reaps (childPid : ℕ)
  /-- WNOHANG and no zombie -/
  | zero
  | blocks
deriving DecidableEq

/-- the child is found, as a zombie -/
def System.zombieAt (s : System) (childPid : ℕ) : Bool :=
  (s.ptable childPid).any fun id => (s.children[id]?).any Child.isZombie

/-- where `find_zombie` stops -/
def System.stops (s : System) (arg : WaitArgs) (childPid : ℕ) : Bool :=
  decide (childPid ≠ 0) && arg.selects childPid && s.zombieAt childPid

/-- `sys_wait4` while no other process runs -/
def System.wait4 (s : System) (arg : WaitArgs) : Outcome :=
  if arg.pid < -1 ∨ s.childCount = 0 then .eChild
  else
    match s.slots.find? (s.stops arg) with
    | some childPid => .reaps childPid
    | none => if arg.nohang then .zero else .blocks

/-- the state an outcome leaves, with the value that is returned -/
def System.After (s : System) (arg : WaitArgs) (t : System) : Outcome → Prop
  | .eChild => t = s.returns Proc.eChild
  | .zero => t = s.returns 0
  | .reaps childPid =>
    ∃ id ch, s.ptable childPid = some id ∧ s.children[id]? = some ch ∧ t = s.reap id childPid ch.exitCode
  | .blocks => t = { s with parent := .blocked arg s.seq }

section Alone

variable {s : System} {arg : WaitArgs} {pid : ℤ}

theorem scan_alone (s : System) (arg : WaitArgs) (l : List ℕ) (i : ℕ) (hl : s.slots.drop i = l) :
    ∃ k t, run { s with parent := .scan arg s.seq i } (List.replicate k .parent) = some t ∧
      s.After arg t (match l.find? (s.stops arg) with
        | some childPid => .reaps childPid
        | none => if arg.nohang then .zero else .blocks) := by
  have hslot : s.slots[i]? = l.head? := by rw [← hl, List.head?_drop]
  induction l generalizing i with
  | nil =>
    by_cases hn : arg.nohang = true
    · exact ⟨1, s.returns 0, by simp [run, step, System.parentStep, System.scan, hslot, hn, System.returns],
        by simp [hn, System.After]⟩
    · refine ⟨2, { s with parent := .blocked arg s.seq }, ?_, by simp [hn, System.After]⟩
      simp [run, step, System.parentStep, System.scan, hslot, hn]
  | cons c l ih =>
    have hnext : s.slots.drop (i + 1) = l := by rw [← List.drop_drop, hl]; rfl
    by_cases hc : s.stops arg c = true
    · have hz := hc
      simp only [System.stops, System.zombieAt, Bool.and_eq_true, decide_eq_true_eq, Option.any_eq_true] at hz
      obtain ⟨⟨h0, hsel⟩, id, hid, ch, hch, hzombie⟩ := hz
      refine ⟨3, s.reap id c ch.exitCode, ?_, ?_⟩
      · simp [run, step, System.parentStep, System.scan, hslot, h0, hsel, hid, hch, hzombie, System.reap]
      · rw [List.find?_cons_of_pos hc]
        exact ⟨id, ch, hid, hch, rfl⟩
    · obtain ⟨k, t, hrun, ht⟩ := ih (i + 1) hnext (by rw [← hnext, List.head?_drop])
      refine ⟨k + 1, t, ?_, by rwa [List.find?_cons_of_neg hc]⟩
      have hskip : s.scan arg s.seq i = .scan arg s.seq (i + 1) := by
        simp only [System.scan, hslot, List.head?_cons]
        split_ifs with h
        · rfl
        · rw [not_or] at h
          rcases hid : s.ptable c with _ | id
          · rfl
          · exact if_neg fun hz => hc (by simp [System.stops, System.zombieAt, h, hid, hz])
      have hstep : step { s with parent := .scan arg s.seq i } .parent =
        some { s with parent := .scan arg s.seq (i + 1) } := by
        change some (if s.scan arg s.seq i = .user then s.returns 0 else { s with parent := s.scan arg s.seq i }) = _
        rw [hskip, if_neg nofun]
      rw [run, List.replicate_succ, List.foldlM_cons, hstep]
      exact hrun

/-- **wait4 by itself.** When no child moves, the steps of a call come to an end, with the outcome of `System.wait4` and
the state it leaves. -/
theorem wait4_alone (arg : WaitArgs) (hu : s.parent = .user) :
    ∃ k t, run s (.wait4 arg.pid arg.nohang :: List.replicate k .parent) = some t ∧ s.After arg t (s.wait4 arg) := by
  unfold System.wait4
  by_cases hp : arg.pid < -1
  · rw [if_pos (.inl hp)]
    exact ⟨0, _, by simp [run, step, hu, hp], rfl⟩
  have hcall : step s (.wait4 arg.pid arg.nohang) = some { s with parent := .loop arg } := by simp [step, hu, hp]
  by_cases h0 : s.childCount = 0
  · rw [if_pos (.inr h0)]
    exact ⟨1, _, by simp [run, step, hu, hp, System.parentStep, h0, System.returns], rfl⟩
  · have hloop : step { s with parent := .loop arg } .parent = some { s with parent := .scan arg s.seq 0 } := by
      simp [step, System.parentStep, h0]
    rw [if_neg (not_or.2 ⟨hp, h0⟩)]
    obtain ⟨k, t, hrun, ht⟩ := scan_alone s arg s.slots 0 rfl
    refine ⟨k + 1, t, ?_, ht⟩
    simp only [run, List.replicate_succ, List.foldlM_cons, hcall, Option.bind_eq_bind, Option.bind_some, hloop]
    exact hrun

/-- one of two children has exited: a call for it returns its pid, and a WNOHANG call for the other returns 0 -/
theorem wait4_alone_reaps : ∃ s,
    run (System.new true) [.fork 5 true, .fork 6 true, .exit 0 0, .child 0, .child 0, .child 0] = some s ∧
    (∃ k t, run s (.wait4 5 false :: List.replicate k .parent) = some t ∧ t.rax = 5) ∧
      ∃ k t, run s (.wait4 6 true :: List.replicate k .parent) = some t ∧ t.rax = 0 := by
  refine exists_of_check (fun s => s.wait4 ⟨5, false⟩ = .reaps 5 ∧ s.wait4 ⟨6, true⟩ = .zero ∧ s.parent = .user)
    (by decide +kernel) fun s _ h => ?_
  obtain ⟨h5, h6, hu⟩ := h
  obtain ⟨k, t, hrun, ht⟩ := wait4_alone ⟨5, false⟩ hu
  obtain ⟨k', t', hrun', ht'⟩ := wait4_alone ⟨6, true⟩ hu
  rw [h5] at ht
  rw [h6] at ht'
  obtain ⟨id, ch, -, -, rfl⟩ := ht
  obtain rfl := ht'
  exact ⟨⟨k, _, hrun, rfl⟩, k', _, hrun', rfl⟩

/-- the pids of the children -/
def System.kids (s : System) : List ℕ := s.slots.filter (· ≠ 0)

/-- the slots hold u32s, and `child_count` counts them -/
structure System.Listed (s : System) : Prop where
  u32 : ∀ c ∈ s.slots, c < 2 ^ 32
  count : s.childCount = s.kids.length

/-- pids are not 0 and fit in 32 bits -/
def PidOk (_ : System) : Act → Prop
  | .fork pid _ => 0 < pid ∧ pid < 2 ^ 32
  | _ => True

instance (t : System) (a : Act) : Decidable (PidOk t a) := by
  induction a using Act.casesOn <;> unfold PidOk <;> infer_instance

/-- the child that the parent is about to reap -/
def ParentPc.taken : ParentPc → Option ℕ
  | .readCode _ _ c | .found _ _ c _ => some c
  | _ => none

/-- `Listed`, and the child about to be reaped is in its slot -/
structure Tallied (s : System) : Prop extends System.Listed s where
  taken : ∀ c, s.parent.taken = some c → c ∈ s.kids

theorem Tallied.of_none {t t' : System} (h : t.Listed) (hslots : t'.slots = t.slots)
    (hcount : t'.childCount = t.childCount)
    (hnone : t'.parent.taken = none) : Tallied t' where
  u32 := by
    rw [hslots]
    exact h.u32
  count := by
    rw [hcount, h.count, System.kids, System.kids, hslots]
  taken := fun c hc => by
    rw [hnone] at hc
    cases hc

theorem length_filter_set {l : List ℕ} {i x y : ℕ} (h : l[i]? = some y) :
    ((l.set i x).filter (· ≠ 0)).length + (decide (y ≠ 0)).toNat = (l.filter (· ≠ 0)).length + (decide (x ≠ 0)).toNat := by
  induction l generalizing i with
  | nil => cases h
  | cons z l ih =>
    cases i with
    | zero =>
      cases h
      by_cases hx : x = 0 <;> by_cases hy : y = 0 <;> simp [hx, hy]
    | succ i =>
      have hl := ih h
      by_cases hz : z = 0 <;> simp [hz] at hl ⊢ <;> omega

/-- filling a slot that holds `y` with `x` -/
theorem listed_set {t t' : System} {x y : ℕ} (h : t.Listed) (hy : y ∈ t.slots) (hx : x < 2 ^ 32)
    (hslots : t'.slots = t.slots.set (t.slots.idxOf y) x)
    (hcount : t'.childCount + (decide (y ≠ 0)).toNat = t.childCount + (decide (x ≠ 0)).toNat) : t'.Listed where
  u32 := fun c hc => by
    rw [hslots] at hc
    obtain hc | rfl := List.mem_or_eq_of_mem_set hc
    · exact h.u32 c hc
    · exact hx
  count := by
    have hlen := length_filter_set (x := x) (getElem?_idxOf hy)
    have hold := h.count
    rw [System.kids] at hold ⊢
    rw [hslots]
    omega

theorem tallied_parentStep {t t' : System} (h : Tallied t) (hstep : t.parentStep = some t') : Tallied t' := by
  unfold System.parentStep at hstep
  split at hstep
  · cases hstep
  · cases hstep
    split
    · exact .of_none h.toListed rfl rfl rfl
    · exact .of_none h.toListed rfl rfl rfl
  · next arg seen i hp =>
    cases hstep
    split
    · exact .of_none h.toListed rfl rfl rfl
    · refine ⟨⟨h.u32, h.count⟩, fun c hc => ?_⟩
      -- a child is taken from a slot that is not empty
      unfold System.scan at hc
      split at hc
      · split at hc <;> cases hc
      · next childPid hslot =>
        split at hc
        · cases hc
        · next hsel =>
          have hkid : childPid ∈ t.kids := List.mem_filter.2 ⟨List.mem_of_getElem? hslot, by simpa using (not_or.1 hsel).1⟩
          split at hc
          · cases hc
          · split at hc
            · cases hc
              exact hkid
            · cases hc
  · next hp =>
    obtain ⟨ch, -, rfl⟩ := map_eq_some_iff.1 hstep
    exact ⟨⟨h.u32, h.count⟩, fun c hc => h.taken c (by rw [hp]; exact hc)⟩
  · next arg id childPid exitCode hp =>
    cases hstep
    obtain ⟨hmem, hne⟩ := List.mem_filter.1 (h.taken childPid (by rw [hp]; rfl))
    have hpos : 0 < t.kids.length := List.length_pos_of_mem (h.taken childPid (by rw [hp]; rfl))
    refine .of_none (t := t.reap id childPid exitCode) (listed_set h.toListed hmem (by decide) rfl ?_) rfl rfl rfl
    have hcount := h.count
    have hdec : (decide (childPid ≠ 0)).toNat = 1 := by rw [hne]; rfl
    change t.childCount - 1 + _ = t.childCount + 0
    omega
  · cases hstep
    refine .of_none h.toListed rfl rfl ?_
    dsimp only
    split <;> rfl
  · cases hstep

theorem Tallied.setChild {t : System} (h : Tallied t) (id : ℕ) (ch : Child) : Tallied (t.setChild id ch) :=
  ⟨⟨h.u32, h.count⟩, h.taken⟩

theorem tallied_step {t t' : System} {a : Act} (h : Tallied t) (hok : PidOk t a) (hstep : step t a = some t') :
    Tallied t' := by
  cases a with
  | fork pid room =>
    simp only [step, System.fork, ite_none_right_eq_some, some.injEq] at hstep
    obtain ⟨⟨hu, hroom⟩, rfl⟩ := hstep
    refine .of_none (listed_set h.toListed hroom hok.2 rfl ?_) rfl rfl (by rw [hu]; rfl)
    have hdec : (decide (pid ≠ 0)).toNat = 1 := by rw [decide_eq_true hok.1.ne']; rfl
    rw [hdec]
    rfl
  | wait4 pid nohang =>
    simp only [step, ite_none_right_eq_some, some.injEq] at hstep
    obtain ⟨-, rfl⟩ := hstep
    split
    · exact .of_none h.toListed rfl rfl rfl
    · exact .of_none h.toListed rfl rfl rfl
  | parent => exact tallied_parentStep h hstep
  | exit id code =>
    obtain ⟨ch, -, hstep⟩ := bind_eq_some_iff.1 hstep
    simp only [ite_none_right_eq_some, some.injEq] at hstep
    obtain ⟨-, rfl⟩ := hstep
    exact h.setChild id _
  | child id =>
    obtain ⟨ch, -, hstep⟩ := bind_eq_some_iff.1 hstep
    unfold System.childStep at hstep
    split at hstep
    · cases hstep
    · cases hstep
      exact h.setChild id _
    · split at hstep
      · cases hstep
        exact .setChild (t := { t with seq := t.seq + 1 }) ⟨⟨h.u32, h.count⟩, h.taken⟩ id _
      · cases hstep
        exact h.setChild id _
    · cases hstep
      refine .setChild ?_ id _
      unfold System.wake
      split
      · exact .of_none h.toListed rfl rfl rfl
      · exact h
    · cases hstep

/-- the slots and their count agree in every run -/
theorem listed_run (listed : Bool) {as : List Act} (hok : Meets step PidOk (System.new listed) as)
    (hrun : run (System.new listed) as = some s) : s.Listed :=
  (run_inv Tallied (fun _ _ _ h hok hs => tallied_step h hok hs)
    ⟨⟨fun c hc => by rw [List.eq_of_mem_replicate hc]; decide, by simp [System.kids, System.new]⟩,
      fun _ hc => by cases hc⟩ hok hrun).toListed

/-- the argument asks for this child, or for any -/
def Matches (pid : ℤ) (c : ℕ) : Prop := pid = -1 ∨ pid = 0 ∨ 0 < pid ∧ (c : ℤ) = pid

/-- what wait4 without WNOHANG should do -/
structure Right (s : System) (pid : ℤ) : Prop where
  blocks : s.wait4 ⟨pid, false⟩ = .blocks → ∃ c ∈ s.kids, Matches pid c ∧ (s.ptable c).isSome ∧ s.zombieAt c = false
  eChild : (∀ c ∈ s.kids, ¬ Matches pid c) → s.wait4 ⟨pid, false⟩ = .eChild
  reaps : ∀ c, s.wait4 ⟨pid, false⟩ = .reaps c → c ∈ s.kids ∧ Matches pid c

/-- a positive argument is the pid of a child, unless there is none; of the children that match, one is in the ptable -/
structure ArgOk (s : System) (pid : ℤ) : Prop where
  child : 0 < pid → s.kids ≠ [] → ∃ c ∈ s.kids, (c : ℤ) = pid
  found : ∀ c ∈ s.kids, Matches pid c → ∃ d ∈ s.kids, Matches pid d ∧ (s.ptable d).isSome

theorem wait4_cases (h : s.Listed) (pid : ℤ) :
    ((pid < -1 ∨ s.kids = []) ∧ s.wait4 ⟨pid, false⟩ = .eChild) ∨ (-1 ≤ pid ∧ s.kids ≠ [] ∧
      ((∃ c ∈ s.kids, s.stops ⟨pid, false⟩ c = true ∧ s.wait4 ⟨pid, false⟩ = .reaps c) ∨
        (∀ c ∈ s.kids, ¬ s.stops ⟨pid, false⟩ c = true) ∧ s.wait4 ⟨pid, false⟩ = .blocks)) := by
  have hcount : s.childCount = 0 ↔ s.kids = [] := by rw [h.count, List.length_eq_zero_iff]
  simp only [System.wait4, hcount]
  by_cases hno : pid < -1 ∨ s.kids = []
  · exact .inl ⟨hno, if_pos hno⟩
  · rw [if_neg hno]
    rw [not_or, not_lt] at hno
    refine .inr ⟨hno.1, hno.2, ?_⟩
    rcases hf : s.slots.find? (s.stops ⟨pid, false⟩) with _ | c
    · exact .inr ⟨fun c hc => List.find?_eq_none.1 hf c (List.mem_filter.1 hc).1, rfl⟩
    · have hs := List.find?_some hf
      have h0 : c ≠ 0 := by
        rintro rfl
        cases hs
      exact .inl ⟨c, List.mem_filter.2 ⟨List.mem_of_find?_eq_some hf, decide_eq_true h0⟩, hs, rfl⟩

theorem stops_iff {c : ℕ} (hc : c ∈ s.kids) : s.stops arg c = true ↔ arg.selects c = true ∧ s.zombieAt c = true := by
  have h0 : c ≠ 0 := of_decide_eq_true (List.mem_filter.1 hc).2
  simp [System.stops, h0]

theorem selects_iff (hp : -1 ≤ pid) (hlt : pid < 2 ^ 32) (c : ℕ) :
    WaitArgs.selects ⟨pid, false⟩ c = true ↔ Matches pid c := by
  simp only [WaitArgs.selects, Matches, Bool.not_eq_true', Bool.and_eq_false_iff, decide_eq_false_iff_not]
  omega

theorem Matches.lt (h : s.Listed) {c : ℕ} (hc : c ∈ s.kids) (hm : Matches pid c) : -1 ≤ pid ∧ pid < 2 ^ 32 := by
  have := h.u32 c (List.mem_filter.1 hc).1
  unfold Matches at hm
  omega

theorem ArgOk.exists_matches (h : ArgOk s pid) (hp : -1 ≤ pid) (hk : s.kids ≠ []) : ∃ c ∈ s.kids, Matches pid c := by
  by_cases h0 : 0 < pid
  · obtain ⟨c, hc, rfl⟩ := h.child h0 hk
    exact ⟨c, hc, .inr (.inr ⟨h0, rfl⟩)⟩
  · obtain ⟨c, hc⟩ := List.exists_mem_of_ne_nil _ hk
    exact ⟨c, hc, by unfold Matches; omega⟩

/-- **wait4 and its argument.** For every set of children and every argument, wait4 without WNOHANG blocks only on a live
child that matches, fails with ECHILD if no child matches and reaps only a child that matches, exactly when a positive
argument is the pid of a child (or there is no child) and the children that match are not all missing from the ptable. -/
theorem wait4_right_iff (h : s.Listed) (pid : ℤ) : Right s pid ↔ ArgOk s pid := by
  have hcases := wait4_cases h pid
  constructor
  · intro hR
    refine ⟨fun hp hk => ?_, fun c hc hm => ?_⟩
    · by_contra hno
      have he := hR.eChild fun c hc hm => hno ⟨c, hc, by unfold Matches at hm; omega⟩
      obtain ⟨hl | hl, -⟩ | ⟨-, -, ⟨c, -, -, hw⟩ | ⟨-, hw⟩⟩ := hcases
      · omega
      · exact hk hl
      · cases hw.symm.trans he
      · cases hw.symm.trans he
    · obtain ⟨hl | hl, -⟩ | ⟨-, -, ⟨d, -, hs, hw⟩ | ⟨-, hw⟩⟩ := hcases
      · exact absurd (Matches.lt h hc hm).1 (not_le.2 hl)
      · rw [hl] at hc
        cases hc
      · obtain ⟨hd, hmd⟩ := hR.reaps d hw
        obtain ⟨id, hid, -⟩ := Option.any_eq_true _ _ |>.1 ((stops_iff hd).1 hs).2
        exact ⟨d, hd, hmd, by rw [hid]; rfl⟩
      · obtain ⟨d, hd, hmd, hf, -⟩ := hR.blocks hw
        exact ⟨d, hd, hmd, hf⟩
  · intro hA
    refine ⟨fun hw => ?_, fun hno => ?_, fun c hw => ?_⟩
    · obtain ⟨-, he⟩ | ⟨hp, hk, ⟨c, -, -, hw'⟩ | ⟨hall, -⟩⟩ := hcases
      · cases hw.symm.trans he
      · cases hw.symm.trans hw'
      · obtain ⟨c, hc, hm⟩ := hA.exists_matches hp hk
        obtain ⟨d, hd, hmd, hf⟩ := hA.found c hc hm
        refine ⟨d, hd, hmd, hf, Bool.eq_false_iff.2 fun hz => hall d hd ((stops_iff hd).2 ⟨?_, hz⟩)⟩
        exact (selects_iff hp (Matches.lt h hd hmd).2 d).2 hmd
    · obtain ⟨-, he⟩ | ⟨hp, hk, -⟩ := hcases
      · exact he
      · obtain ⟨c, hc, hm⟩ := hA.exists_matches hp hk
        exact absurd hm (hno c hc)
    · obtain ⟨-, he⟩ | ⟨hp, hk, ⟨d, hd, hs, hw'⟩ | ⟨-, hw'⟩⟩ := hcases
      · cases hw.symm.trans he
      · cases hw.symm.trans hw'
        obtain ⟨e, he, hm⟩ := hA.exists_matches hp hk
        exact ⟨hd, (selects_iff hp (Matches.lt h he hm).2 c).1 ((stops_iff hd).1 hs).1⟩
      · cases hw.symm.trans hw'

/-- of two children one has exited: both are waited for rightly, by their pids -/
theorem wait4_right_five : ∃ s,
    run (System.new true) [.fork 5 true, .fork 6 true, .exit 1 3, .child 1, .child 1, .child 1] = some s ∧ Right s 5 ∧
    Right s 6 := by
  have hok : ∀ s : System, s.kids = [5, 6] → (s.ptable 5).isSome → (s.ptable 6).isSome → ∀ pid : ℤ, pid = 5 ∨ pid = 6 →
      ArgOk s pid := by
    intro s hk h5 h6 pid hpid
    refine ⟨fun _ _ => ?_, fun _ _ _ => ?_⟩
    · rcases hpid with rfl | rfl
      · exact ⟨5, by simp [hk], rfl⟩
      · exact ⟨6, by simp [hk], rfl⟩
    · rcases hpid with rfl | rfl
      · exact ⟨5, by simp [hk], .inr (.inr ⟨by decide, rfl⟩), h5⟩
      · exact ⟨6, by simp [hk], .inr (.inr ⟨by decide, rfl⟩), h6⟩
  refine exists_of_check (fun s => s.kids = [5, 6] ∧ (s.ptable 5).isSome ∧ (s.ptable 6).isSome) (by decide +kernel)
    fun s hrun h => ?_
  obtain ⟨hk, h5, h6⟩ := h
  have hlisted : s.Listed := listed_run true (by decide +kernel) hrun
  exact ⟨(wait4_right_iff hlisted 5).2 (hok s hk h5 h6 5 (.inl rfl)), (wait4_right_iff hlisted 6).2
    (hok s hk h5 h6 6 (.inr rfl))⟩

/-- the only child has pid 5: wait4 of 7 blocks while it is alive, and wait4 of 2^32 + 5 reaps it when it is dead -/
theorem wait4_no_such_child :
    (∃ s, run (System.new true) [.fork 5 true] = some s ∧ s.kids = [5] ∧ s.wait4 ⟨7, false⟩ = .blocks) ∧
      ∃ s, run (System.new true) [.fork 5 true, .exit 0 0, .child 0, .child 0, .child 0] = some s ∧ s.kids = [5] ∧
        s.wait4 ⟨2 ^ 32 + 5, false⟩ = .reaps 5 := by
  decide +kernel

end Alone

end Rumicos.Proc.WaitChildren
