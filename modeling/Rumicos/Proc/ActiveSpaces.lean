/-
CR3, the per-CPU slot CPU_CURRENT_AS and the active sets of address spaces (`activate_address_space` and
`sched_context_switch_hook` in `crates/proc/src/process.rs`, `drop_ref`, `do_execve`, `reap_zombie`).

An address space is a record at an address, with the set of CPUs it is active on and a reference count. The switch to a
thread of a process compares the record's address with the CPU's slot; if they differ it marks the new record, stores
the slot, loads CR3 and unmarks the old record, one step each. The switch to a kernel thread does nothing. execve makes
a new record, activates it and then drops the old one. The last reference frees the record and its page tables, and the
allocator may give the address out again. Records have an identity (`id`) that is never used again: CR3 names an
identity, the slot an address.

- `Safe`: CR3 and the slot of every CPU name a live record on which the CPU is marked, no step has touched a freed
  record, and no CR3 load was skipped for a record that CR3 does not name.

Any number of CPUs and processes; CPU numbers are below 64, where `cpu_id % 64` is the identity. What the teardown frees
is one step.
-/
import Rumicos.Lib.Bags
import Rumicos.Lib.Run

namespace Rumicos.Proc.ActiveSpaces

open Lib Function List Option

/-! ## The system -/

variable {n m : ℕ}

structure Record (n : ℕ) where
  id : ℕ
  active : Fin n → Bool
  refs : ℕ

/-- `alloc_shared` -/
def Record.new (id : ℕ) : Record n := ⟨id, fun _ => false, 1⟩

/-- `mark_active`, `mark_inactive` -/
def Record.mark (r : Record n) (c : Fin n) (b : Bool) : Record n := { r with active := update r.active c b }

@[simp] theorem mark_active (r : Record n) (c : Fin n) (b : Bool) : (r.mark c b).active = update r.active c b := rfl

def Record.incRef (r : Record n) : Record n := { r with refs := r.refs + 1 }

/-- `drop_ref`: nothing is left after the last reference -/
def Record.dropRef (r : Record n) : Option (Record n) := if r.refs = 1 then none else some { r with refs := r.refs - 1 }

/-- a call of `activate_address_space` past its test: the new record, the slot's old value, and the record execve drops
afterwards -/
structure Switch where
  new : ℕ
  id : ℕ
  old : Option ℕ
  drop : Option ℕ
deriving DecidableEq

/-- the next step of a CPU -/
inductive Phase where
  | ready
  | mark (w : Switch)
  | store (w : Switch)
  | load (w : Switch)
  | unmark (w : Switch)
  | drop (old : ℕ)
deriving DecidableEq

structure Cpu (m : ℕ) where
  /-- the identity of the page tables; `none` are the kernel's own -/
  cr3 : Option ℕ
  /-- CPU_CURRENT_AS, with the identity the record had when it was stored -/
  slot : Option (ℕ × ℕ)
  phase : Phase
  /-- the process whose thread runs, `none` for a kernel thread -/
  proc : Option (Fin m)
  /-- history: the address space of the last switch to a process that was finished -/
  last : Option (ℕ × ℕ)

structure Process where
  space : ℕ
  zombie : Bool
deriving DecidableEq

structure State (n m : ℕ) where
  records : ℕ → Option (Record n)
  /-- the next identity -/
  next : ℕ
  procs : Fin m → Option Process
  cpus : Fin n → Cpu m
  /-- history: a freed record was read or written -/
  touched : Bool
  /-- history: the CR3 load was skipped, and CR3 named another address space -/
  skipped : Bool

def State.new : State n m := ⟨fun _ => none, 0, fun _ => none, fun _ => ⟨none, none, .ready, none, none⟩, false, false⟩

def State.setCpu (s : State n m) (c : Fin n) (x : Cpu m) : State n m := { s with cpus := update s.cpus c x }

def State.setProc (s : State n m) (p : Fin m) (x : Option Process) : State n m := { s with procs := update s.procs p x }

/-- reads and writes the record at `a` -/
def State.deref (s : State n m) (a : ℕ) (f : Record n → Option (Record n)) : State n m :=
  match s.records a with
  | none => { s with touched := true }
  | some r => { s with records := update s.records a (f r) }

/-- a new record at the free address `a` -/
def State.alloc (s : State n m) (a : ℕ) : State n m :=
  { s with records := update s.records a (some (Record.new s.next)), next := s.next + 1 }

/-! ## Steps -/

def afterSwitch : Option ℕ → Phase
  | none => .ready
  | some a => .drop a

/-- `activate_address_space(new, c)` up to its test, for a thread of process `p` -/
def State.activate (s : State n m) (c : Fin n) (p : Fin m) (new id : ℕ) (drop : Option ℕ) : State n m :=
  if (s.cpus c).slot.map Prod.fst = some new then
    { s.setCpu c ⟨(s.cpus c).cr3, (s.cpus c).slot, afterSwitch drop, some p, some (new, id)⟩ with
      skipped := s.skipped || (s.cpus c).cr3 != some id }
  else s.setCpu c ⟨(s.cpus c).cr3, (s.cpus c).slot, .mark ⟨new, id, (s.cpus c).slot.map Prod.fst, drop⟩, some p,
    (s.cpus c).last⟩

def Cpu.to (x : Cpu m) (ph : Phase) : Cpu m := ⟨x.cr3, x.slot, ph, x.proc, x.last⟩

/-- the next step of a switch or of execve on CPU `c` -/
def State.advance (s : State n m) (c : Fin n) : Option (State n m) :=
  let x := s.cpus c
  match x.phase with
  | .ready => none
  | .mark w => some ((s.deref w.new fun r => some (r.mark c true)).setCpu c (x.to (.store w)))
  | .store w => some (s.setCpu c ⟨x.cr3, some (w.new, w.id), .load w, x.proc, x.last⟩)
  | .load w => some ((s.deref w.new some).setCpu c ⟨some w.id, x.slot, .unmark w, x.proc, x.last⟩)
  | .unmark w =>
    let s := match w.old with
      | none => s
      | some a => s.deref a fun r => some (r.mark c false)
    some (s.setCpu c ⟨x.cr3, x.slot, afterSwitch w.drop, x.proc, some (w.new, w.id)⟩)
  | .drop a => some ((s.deref a Record.dropRef).setCpu c (x.to .ready))

inductive Act (n m : ℕ) where
  /-- `Process::create` or fork: a process with its own address space, whose record is at `a` -/
  | create (p : Fin m) (a : ℕ)
  /-- CLONE_VM: process `q` shares the address space of `p` -/
  | clone (p q : Fin m)
  /-- a switch to a kernel thread -/
  | kernel (c : Fin n)
  /-- a switch to the thread of process `p` -/
  | switch (c : Fin n) (p : Fin m)
  /-- the process on CPU `c` calls execve; the new record is at `a` -/
  | exec (c : Fin n) (a : ℕ)
  | step (c : Fin n)
  | exit (c : Fin n)
  /-- the parent of `p` reaps it -/
  | reap (p : Fin m)

def step (s : State n m) : Act n m → Option (State n m)
  | .create p a =>
    if s.procs p = none ∧ (s.records a).isNone then some ((s.alloc a).setProc p (some ⟨a, false⟩)) else none
  | .clone p q =>
    (s.procs p).bind fun x =>
      if x.zombie = false ∧ s.procs q = none then some ((s.deref x.space fun r => some r.incRef).setProc q
        (some ⟨x.space, false⟩)) else none
  | .kernel c =>
    if (s.cpus c).phase = .ready then some (s.setCpu c ⟨(s.cpus c).cr3, (s.cpus c).slot, .ready, none, (s.cpus c).last⟩)
      else none
  | .switch c p =>
    (s.procs p).bind fun x => (s.records x.space).bind fun r =>
      if (s.cpus c).phase = .ready then some (s.activate c p x.space r.id none) else none
  | .exec c a =>
    (s.cpus c).proc.bind fun p => (s.procs p).bind fun x =>
      if (s.cpus c).phase = .ready ∧ x.zombie = false ∧ (s.records a).isNone then
        some (((s.alloc a).setProc p (some ⟨a, false⟩)).activate c p a s.next (some x.space))
      else none
  | .step c => s.advance c
  | .exit c =>
    (s.cpus c).proc.bind fun p => (s.procs p).bind fun x =>
      if (s.cpus c).phase = .ready ∧ x.zombie = false then some (s.setProc p (some ⟨x.space, true⟩)) else none
  | .reap p =>
    (s.procs p).bind fun x => if x.zombie = true then some ((s.deref x.space Record.dropRef).setProc p none) else none

def run (s : State n m) (as : List (Act n m)) : Option (State n m) := as.foldlM step s

/-! ## The property and its condition -/

/-- **The property.** CR3 and the slot of every CPU name live records, marked for the CPU if in CR3; no step has touched
a freed record, and no CR3 load was skipped for a record that CR3 does not name. -/
structure Safe (s : State n m) : Prop where
  cr3 : ∀ c i, (s.cpus c).cr3 = some i → ∃ a r, s.records a = some r ∧ r.id = i ∧ r.active c = true
  slot : ∀ c a i, (s.cpus c).slot = some (a, i) → ∃ r, s.records a = some r ∧ r.id = i
  touched : s.touched = false
  skipped : s.skipped = false

/-- the address space that the CPU is being switched to -/
def Phase.target : Phase → Option (ℕ × ℕ)
  | .mark w | .store w | .load w | .unmark w => some (w.new, w.id)
  | .ready | .drop _ => none

/-- **The condition** at a drop: if the reference is the last one, every CPU that was switched to a thread of the
address space has finished switching to a thread of another one -/
def DropOk (s : State n m) (a : ℕ) : Prop :=
  ∀ r ∈ s.records a, r.refs = 1 → ∀ c, (s.cpus c).last.map Prod.snd ≠ some r.id ∧
    (s.cpus c).phase.target.map Prod.snd ≠ some r.id

def AdvanceOk (s : State n m) : Phase → Prop
  | .drop a => DropOk s a
  | .ready | .mark _ | .store _ | .load _ | .unmark _ => True

def StepOk (s : State n m) : Act n m → Prop
  | .reap p => ∀ x ∈ s.procs p, DropOk s x.space
  | .step c => AdvanceOk s (s.cpus c).phase
  | .create _ _ | .clone _ _ | .kernel _ | .switch _ _ | .exec _ _ | .exit _ => True

/-! ## What a CPU relies on -/

abbrev Records (n : ℕ) := ℕ → Option (Record n)

/-- the record at the address has the identity -/
def Named (R : Records n) (p : ℕ × ℕ) : Prop := ∃ r, R p.1 = some r ∧ r.id = p.2

/-- and CPU `c` is marked in it -/
def Held (R : Records n) (c : Fin n) (p : ℕ × ℕ) : Prop := ∃ r, R p.1 = some r ∧ r.id = p.2 ∧ r.active c = true

variable {R R' : Records n} {c : Fin n} {a : ℕ} {s : State n m} {r : Record n} {p : Fin m} {x : Process} {w : Switch}

theorem Held.named {p : ℕ × ℕ} (h : Held R c p) : Named R p := by
  obtain ⟨r, hr, hid, -⟩ := h
  exact ⟨r, hr, hid⟩

/-- the target once it is marked -/
def Phase.marked : Phase → Option (ℕ × ℕ)
  | .store w | .load w | .unmark w => some (w.new, w.id)
  | .ready | .mark _ | .drop _ => none

/-- the record that execve drops when the switch is done -/
def Phase.pending : Phase → Option ℕ
  | .mark w | .store w | .load w | .unmark w => w.drop
  | .ready => none
  | .drop a => some a

@[simp] theorem pending_afterSwitch (d : Option ℕ) : (afterSwitch d).pending = d := by cases d <;> rfl

@[simp] theorem target_afterSwitch (d : Option ℕ) : (afterSwitch d).target = none := by cases d <;> rfl

@[simp] theorem marked_afterSwitch (d : Option ℕ) : (afterSwitch d).marked = none := by cases d <;> rfl

def Switch.Away (w : Switch) (last : Option (ℕ × ℕ)) : Prop := w.old = last.map Prod.fst ∧ last.map Prod.fst ≠ some w.new

/-- where CR3 and the slot are along a switch -/
def Cpu.Shape (x : Cpu m) : Prop :=
  match x.phase with
  | .ready | .drop _ => x.slot = x.last ∧ x.cr3 = x.last.map Prod.snd
  | .mark w | .store w => x.slot = x.last ∧ x.cr3 = x.last.map Prod.snd ∧ w.Away x.last
  | .load w => x.slot = some (w.new, w.id) ∧ x.cr3 = x.last.map Prod.snd ∧ w.Away x.last
  | .unmark w => x.slot = some (w.new, w.id) ∧ x.cr3 = some w.id ∧ w.Away x.last

structure CpuInv (R : Records n) (c : Fin n) (x : Cpu m) : Prop where
  last : ∀ p ∈ x.last, Held R c p
  target : ∀ p ∈ x.phase.target, Named R p
  marked : ∀ p ∈ x.phase.marked, Held R c p
  shape : x.Shape

theorem marked_target {ph : Phase} {p : ℕ × ℕ} (h : p ∈ ph.marked) : p ∈ ph.target := by
  cases ph <;> first | exact h | cases h

/-- the record at `a` keeps its identity and the mark of `c` -/
def Keeps (c : Fin n) (R R' : Records n) (a : ℕ) : Prop :=
  ∀ r, R a = some r → ∃ r', R' a = some r' ∧ r'.id = r.id ∧ (r.active c = true → r'.active c = true)

theorem Named.keep {p : ℕ × ℕ} (h : Named R p) (hk : Keeps c R R' p.1) : Named R' p := by
  obtain ⟨r, hr, hid⟩ := h
  obtain ⟨r', hr', hid', -⟩ := hk r hr
  exact ⟨r', hr', hid'.trans hid⟩

theorem Held.keep {p : ℕ × ℕ} (h : Held R c p) (hk : Keeps c R R' p.1) : Held R' c p := by
  obtain ⟨r, hr, hid, hact⟩ := h
  obtain ⟨r', hr', hid', hact'⟩ := hk r hr
  exact ⟨r', hr', hid'.trans hid, hact' hact⟩

/-- a CPU relies only on the record it was switched to and the one it is being switched to -/
theorem CpuInv.mono {x : Cpu m} (h : CpuInv R c x)
    (hk : ∀ p, p ∈ x.last ∨ p ∈ x.phase.target → Keeps c R R' p.1) : CpuInv R' c x where
  last p hp := (h.last p hp).keep (hk p (.inl hp))
  target p hp := (h.target p hp).keep (hk p (.inr hp))
  marked p hp := (h.marked p hp).keep (hk p (.inr (marked_target hp)))
  shape := h.shape

theorem keeps_refl (c : Fin n) (R : Records n) (a : ℕ) : Keeps c R R a := fun r hr => ⟨r, hr, rfl, id⟩

theorem keeps_update {b : ℕ} {o : Option (Record n)}
    (h : b = a → ∀ r, R a = some r → ∃ r', o = some r' ∧ r'.id = r.id ∧ (r.active c = true → r'.active c = true)) :
    Keeps c R (update R a o) b := by
  intro r hr
  by_cases hb : b = a
  · subst hb
    rw [update_self]
    exact h rfl r hr
  · rw [update_of_ne hb]
    exact ⟨r, hr, rfl, id⟩

theorem keeps_alloc (hfree : s.records a = none) (b : ℕ) : Keeps c s.records (s.alloc a).records b :=
  keeps_update fun _ r hr => by rw [hfree] at hr; cases hr

theorem keeps_mark {d : Fin n} (hr : s.records a = some r) {v : Bool} (hv : v = true ∨ d ≠ c) (b : ℕ) :
    Keeps d s.records (update s.records a (some (r.mark c v))) b := by
  refine keeps_update fun _ r' hr' => ⟨_, rfl, ?_⟩
  obtain rfl : r' = r := some.inj (hr'.symm.trans hr)
  refine ⟨rfl, fun hact => ?_⟩
  by_cases hd : d = c
  · obtain hv | hne := hv
    · rw [mark_active, hd, update_self, hv]
    · exact absurd hd hne
  · rw [mark_active, update_of_ne hd]
    exact hact

theorem keeps_drop (hr : s.records a = some r) (hok : DropOk s a) (hinv : CpuInv s.records c (s.cpus c)) {p : ℕ × ℕ}
    (hp : p ∈ (s.cpus c).last ∨ p ∈ (s.cpus c).phase.target) :
    Keeps c s.records (update s.records a r.dropRef) p.1 := by
  refine keeps_update fun hpa r' hr' => ?_
  obtain rfl : r' = r := some.inj (hr'.symm.trans hr)
  have hnamed : Named s.records p := hp.elim (fun h => (hinv.last p h).named) (hinv.target p)
  obtain ⟨q, hq, hid⟩ := hnamed
  rw [hpa, hr] at hq
  cases hq
  -- the last reference is excluded by the condition
  have hrefs : r'.refs ≠ 1 := by
    intro hone
    obtain ⟨hlast, htarget⟩ := hok r' hr hone c
    obtain h | h := hp
    · exact hlast (by rw [mem_def.1 h, map_some, hid])
    · exact htarget (by rw [mem_def.1 h, map_some, hid])
  exact ⟨{ r' with refs := r'.refs - 1 }, by rw [Record.dropRef, if_neg hrefs], rfl, id⟩

theorem cpus_update {cpus : Fin n → Cpu m} {x : Cpu m} (h : ∀ d, CpuInv R d (cpus d))
    (hk : ∀ d, d ≠ c → ∀ p, p ∈ (cpus d).last ∨ p ∈ (cpus d).phase.target → Keeps d R R' p.1) (hx : CpuInv R' c x)
    (d : Fin n) : CpuInv R' d (update cpus c x d) := by
  by_cases hd : d = c
  · subst hd
    rw [update_self]
    exact hx
  · rw [update_of_ne hd]
    exact (h d).mono (hk d hd)

/-! ## References -/

def pointsAt (o : Option ℕ) (a : ℕ) : ℕ := if o = some a then 1 else 0

/-- the processes on the record at `a`, and the calls of execve that have yet to drop it -/
def State.users (s : State n m) (a : ℕ) : ℕ :=
  ∑ p, pointsAt ((s.procs p).map Process.space) a + ∑ c, pointsAt (s.cpus c).phase.pending a

def refsAt (R : Records n) (a : ℕ) : ℕ := ((R a).map Record.refs).getD 0

theorem users_setCpu (s : State n m) (c : Fin n) (x : Cpu m) (a : ℕ) :
    (s.setCpu c x).users a + pointsAt (s.cpus c).phase.pending a = s.users a + pointsAt x.phase.pending a := by
  have h := sum_update s.cpus (fun y => pointsAt y.phase.pending a) c x
  simp only [State.users, State.setCpu] at h ⊢
  omega

theorem users_setProc (s : State n m) (p : Fin m) (x : Option Process) (a : ℕ) :
    (s.setProc p x).users a + pointsAt ((s.procs p).map Process.space) a =
    s.users a + pointsAt (x.map Process.space) a := by
  have h := sum_update s.procs (fun y => pointsAt (y.map Process.space) a) p x
  simp only [State.users, State.setProc] at h ⊢
  omega

theorem refsAt_update (R : Records n) (a b : ℕ) (o : Option (Record n)) :
    refsAt (update R a o) b = if b = a then (o.map Record.refs).getD 0 else refsAt R b := by
  unfold refsAt
  by_cases hb : b = a
  · subst hb
    rw [update_self, if_pos rfl]
  · rw [update_of_ne hb, if_neg hb]

theorem refsAt_of (h : R a = some r) : refsAt R a = r.refs := by
  rw [refsAt, h]
  rfl

theorem dropRef_refs (r : Record n) (h : 1 ≤ r.refs) : (r.dropRef.map Record.refs).getD 0 + 1 = r.refs := by
  unfold Record.dropRef
  split_ifs with hone
  · exact hone.symm
  · exact Nat.sub_add_cancel h

structure Inv (s : State n m) : Prop where
  cpu : ∀ c, CpuInv s.records c (s.cpus c)
  refs : ∀ a, refsAt s.records a = s.users a
  touched : s.touched = false
  skipped : s.skipped = false

theorem live_of_user (h : Inv s) (ha : 1 ≤ s.users a) : ∃ r, s.records a = some r ∧ 1 ≤ r.refs := by
  have hrefs := h.refs a
  unfold refsAt at hrefs
  cases hr : s.records a with
  | none =>
    rw [hr] at hrefs
    simp only [map_none, getD_none] at hrefs
    omega
  | some r =>
    rw [hr] at hrefs
    simp only [map_some, getD_some] at hrefs
    exact ⟨r, rfl, by omega⟩

theorem live_of_proc (h : Inv s) (hp : s.procs p = some x) : ∃ r, s.records x.space = some r ∧ 1 ≤ r.refs := by
  apply live_of_user h
  have hle : pointsAt ((s.procs p).map Process.space) x.space ≤ ∑ q, pointsAt ((s.procs q).map Process.space) x.space :=
    Finset.single_le_sum (f := fun q => pointsAt ((s.procs q).map Process.space) x.space) (fun _ _ => Nat.zero_le _)
      (Finset.mem_univ p)
  rw [hp, map_some, pointsAt, if_pos rfl] at hle
  exact le_trans hle (Nat.le_add_right _ _)

theorem live_of_pending (h : Inv s) (hc : (s.cpus c).phase.pending = some a) : ∃ r, s.records a = some r ∧ 1 ≤ r.refs := by
  apply live_of_user h
  have hle : pointsAt (s.cpus c).phase.pending a ≤ ∑ d, pointsAt (s.cpus d).phase.pending a :=
    Finset.single_le_sum (f := fun d => pointsAt (s.cpus d).phase.pending a) (fun _ _ => Nat.zero_le _) (Finset.mem_univ c)
  rw [hc, pointsAt, if_pos rfl] at hle
  exact le_trans hle (Nat.le_add_left _ _)

theorem deref_of (h : s.records a = some r) (f : Record n → Option (Record n)) :
    s.deref a f = { s with records := update s.records a (f r) } := by
  rw [State.deref, h]

/-- **Safety from the invariant.** -/
theorem Inv.safe (h : Inv s) : Safe s where
  touched := h.touched
  skipped := h.skipped
  cr3 c i hi := by
    have hc := h.cpu c
    have hheld : ∀ p, Held s.records c p → p.2 = i → ∃ a r, s.records a = some r ∧ r.id = i ∧ r.active c = true := by
      intro p hp hpi
      obtain ⟨r, hr, hid, hact⟩ := hp
      exact ⟨p.1, r, hr, hid.trans hpi, hact⟩
    -- CR3 is the last address space until it is loaded with the target
    have hlast : (s.cpus c).cr3 = (s.cpus c).last.map Prod.snd →
        ∃ a r, s.records a = some r ∧ r.id = i ∧ r.active c = true := by
      intro heq
      obtain ⟨p, hp, hpi⟩ := map_eq_some_iff.1 (heq.symm.trans hi)
      exact hheld p (hc.last p hp) hpi
    have hshape := hc.shape
    have hmarked := hc.marked
    unfold Cpu.Shape at hshape
    cases hph : (s.cpus c).phase with
    | unmark w =>
      rw [hph] at hshape hmarked
      exact hheld (w.new, w.id) (hmarked _ rfl) (some.inj (hshape.2.1.symm.trans hi))
    | ready | drop a => rw [hph] at hshape; exact hlast hshape.2
    | mark w | store w | load w => rw [hph] at hshape; exact hlast hshape.2.1
  slot c a i hs := by
    have hc := h.cpu c
    have hlast : (s.cpus c).slot = (s.cpus c).last → Named s.records (a, i) := fun heq =>
      (hc.last (a, i) (heq.symm.trans hs)).named
    have htarget : ∀ w : Switch, (s.cpus c).phase.marked = some (w.new, w.id) → (s.cpus c).slot = some (w.new, w.id) →
        Named s.records (a, i) := by
      intro w hw heq
      rw [heq] at hs
      rw [← some.inj hs]
      exact (hc.marked _ hw).named
    have hshape := hc.shape
    unfold Cpu.Shape at hshape
    cases hph : (s.cpus c).phase with
    | ready | drop a | mark w | store w => rw [hph] at hshape; exact hlast hshape.1
    | load w | unmark w => rw [hph] at hshape; exact htarget w (by rw [hph]; rfl) hshape.1

/-! ## What one step keeps -/

theorem ready_shape {x : Cpu m} (h : CpuInv R c x) (hx : x.phase = .ready) :
    x.slot = x.last ∧ x.cr3 = x.last.map Prod.snd := by
  have hshape := h.shape
  rw [Cpu.Shape, hx] at hshape
  exact hshape

theorem refs_alloc (h : Inv s) (hfree : s.records a = none) (b : ℕ) :
    refsAt (s.alloc a).records b = s.users b + pointsAt (some a) b := by
  rw [State.alloc, refsAt_update, pointsAt, ← h.refs b]
  by_cases hb : b = a
  · subst hb
    rw [if_pos rfl, if_pos rfl, refsAt, hfree]
    rfl
  · rw [if_neg hb, if_neg (fun heq => hb (some.inj heq).symm)]
    rfl

theorem inv_create (h : Inv s) (hp : s.procs p = none) (hfree : s.records a = none) :
    Inv ((s.alloc a).setProc p (some ⟨a, false⟩)) where
  cpu c := (h.cpu c).mono fun q _ => keeps_alloc hfree q.1
  refs b := by
    have husers : ((s.alloc a).setProc p (some ⟨a, false⟩)).users b + pointsAt ((s.procs p).map Process.space) b
        = s.users b + pointsAt (some a) b := users_setProc (s.alloc a) p _ b
    rw [hp] at husers
    exact (refs_alloc h hfree b).trans husers.symm
  touched := h.touched
  skipped := h.skipped

theorem inv_clone (h : Inv s) {q : Fin m} (hp : s.procs p = some x) (hq : s.procs q = none) :
    Inv ((s.deref x.space fun r => some r.incRef).setProc q (some ⟨x.space, false⟩)) := by
  obtain ⟨r, hr, -⟩ := live_of_proc h hp
  rw [deref_of hr]
  refine ⟨fun c => (h.cpu c).mono fun _ _ => keeps_update fun _ r' hr' => ?_, fun b => ?_, h.touched, h.skipped⟩
  · obtain rfl : r' = r := some.inj (hr'.symm.trans hr)
    exact ⟨r'.incRef, rfl, rfl, id⟩
  · have husers : State.users (State.setProc { s with records := update s.records x.space (some r.incRef) } q
        (some ⟨x.space, false⟩)) b + pointsAt ((s.procs q).map Process.space) b = s.users b + pointsAt (some x.space) b :=
      users_setProc _ q _ b
    rw [hq] at husers
    refine Eq.trans ?_ husers.symm
    rw [State.setProc, refsAt_update, pointsAt, ← h.refs b]
    by_cases hb : b = x.space
    · subst hb
      rw [if_pos rfl, if_pos rfl, refsAt_of hr]
      rfl
    · rw [if_neg hb, if_neg fun heq => hb (some.inj heq).symm]
      rfl

theorem inv_kernel (h : Inv s) (hc : (s.cpus c).phase = .ready) :
    Inv (s.setCpu c ⟨(s.cpus c).cr3, (s.cpus c).slot, .ready, none, (s.cpus c).last⟩) where
  cpu := by
    have hshape := ready_shape (h.cpu c) hc
    exact cpus_update h.cpu (fun d _ p _ => keeps_refl d _ p.1) ⟨(h.cpu c).last, by nofun, by nofun, hshape⟩
  refs b := by
    have husers := users_setCpu s c ⟨(s.cpus c).cr3, (s.cpus c).slot, .ready, none, (s.cpus c).last⟩ b
    rw [hc] at husers
    exact (h.refs b).trans (Nat.add_right_cancel husers).symm
  touched := h.touched
  skipped := h.skipped

/-- the start of `activate_address_space`; execve has taken its process off the record it drops -/
theorem inv_activate {new id : ℕ} {drop : Option ℕ} (hcpu : ∀ d, CpuInv s.records d (s.cpus d))
    (hrefs : ∀ b, refsAt s.records b = s.users b + pointsAt drop b) (htouched : s.touched = false)
    (hskipped : s.skipped = false) (hc : (s.cpus c).phase = .ready) (hnew : Named s.records (new, id)) :
    Inv (s.activate c p new id drop) := by
  obtain ⟨hslot, hcr3⟩ := ready_shape (hcpu c) hc
  have husers : ∀ x : Cpu m, x.phase.pending = drop → ∀ b, refsAt s.records b = (s.setCpu c x).users b := by
    intro x hx b
    have h := users_setCpu s c x b
    rw [hc, hx] at h
    exact (hrefs b).trans h.symm
  unfold State.activate
  split_ifs with hsame
  · -- the slot's record is the new one, and CR3 names it
    obtain ⟨⟨a, i⟩, hlast, rfl⟩ := map_eq_some_iff.1 (hslot ▸ hsame)
    have hheld := (hcpu c).last (a, i) hlast
    obtain ⟨r, hr, hid⟩ := hnew
    obtain ⟨r', hr', hid', hact⟩ := hheld
    obtain rfl : r' = r := some.inj (hr'.symm.trans hr)
    obtain rfl : i = id := hid'.symm.trans hid
    refine ⟨cpus_update hcpu (fun d _ q _ => keeps_refl d _ q.1) ⟨?_, ?_, ?_, ?_⟩, husers _ (pending_afterSwitch drop),
      htouched, ?_⟩
    · intro q hq
      cases hq
      exact ⟨r', hr', hid', hact⟩
    · simp
    · simp
    · have hshape : (s.cpus c).slot = some (a, i) ∧ (s.cpus c).cr3 = some i :=
        ⟨hslot.trans hlast, by rw [hcr3, hlast]; rfl⟩
      cases drop <;> exact hshape
    · rw [hskipped, hcr3, hlast]
      simp
  · refine ⟨cpus_update hcpu (fun d _ q _ => keeps_refl d _ q.1) ⟨(hcpu c).last, ?_, by nofun, ?_⟩, husers _ rfl,
      htouched, hskipped⟩
    · intro q hq
      cases hq
      exact hnew
    · exact ⟨hslot, hcr3, by rw [hslot], hslot ▸ hsame⟩

theorem inv_switch (h : Inv s) (hr : s.records a = some r) (hc : (s.cpus c).phase = .ready) :
    Inv (s.activate c p a r.id none) :=
  inv_activate h.cpu (fun b => h.refs b) h.touched h.skipped hc ⟨r, hr, rfl⟩

theorem inv_exec (h : Inv s) (hp : s.procs p = some x) (hfree : s.records a = none) (hc : (s.cpus c).phase = .ready) :
    Inv (((s.alloc a).setProc p (some ⟨a, false⟩)).activate c p a s.next (some x.space)) := by
  refine inv_activate (fun d => (h.cpu d).mono fun q _ => keeps_alloc hfree q.1) (fun b => ?_) h.touched h.skipped hc
    ⟨Record.new s.next, update_self _ _ _, rfl⟩
  have husers : ((s.alloc a).setProc p (some ⟨a, false⟩)).users b + pointsAt ((s.procs p).map Process.space) b
      = s.users b + pointsAt (some a) b := users_setProc (s.alloc a) p _ b
  rw [hp] at husers
  exact (refs_alloc h hfree b).trans husers.symm

theorem inv_exit (h : Inv s) (hp : s.procs p = some x) :
    Inv (s.setProc p (some ⟨x.space, true⟩)) where
  cpu := h.cpu
  refs b := by
    have husers := users_setProc s p (some ⟨x.space, true⟩) b
    rw [hp] at husers
    exact (h.refs b).trans (Nat.add_right_cancel husers).symm
  touched := h.touched
  skipped := h.skipped

theorem refs_drop (h : Inv s) (hr : s.records a = some r) (hone : 1 ≤ r.refs) (b : ℕ) :
    refsAt (update s.records a r.dropRef) b + pointsAt (some a) b = s.users b := by
  rw [refsAt_update, pointsAt, ← h.refs b]
  by_cases hb : b = a
  · subst hb
    rw [if_pos rfl, if_pos rfl, refsAt_of hr]
    exact dropRef_refs r hone
  · rw [if_neg hb, if_neg fun heq => hb (some.inj heq).symm]
    rfl

theorem inv_reap (h : Inv s) (hp : s.procs p = some x) (hok : DropOk s x.space) :
    Inv ((s.deref x.space Record.dropRef).setProc p none) := by
  obtain ⟨r, hr, hone⟩ := live_of_proc h hp
  rw [deref_of hr]
  refine ⟨fun c => (h.cpu c).mono fun _ hq => keeps_drop hr hok (h.cpu c) hq, fun b => ?_, h.touched, h.skipped⟩
  have husers := users_setProc { s with records := update s.records x.space r.dropRef } p none b
  rw [show (State.procs { s with records := update s.records x.space r.dropRef } p) = some x from hp] at husers
  exact Nat.add_right_cancel ((refs_drop h hr hone b).trans husers.symm)

theorem refs_setCpu (h : Inv s) (hR : ∀ b, refsAt R b = refsAt s.records b) {x : Cpu m}
    (hx : x.phase.pending = (s.cpus c).phase.pending) (b : ℕ) : refsAt R b = (s.setCpu c x).users b := by
  have husers := users_setCpu s c x b
  rw [hx] at husers
  exact (hR b).trans ((h.refs b).trans (Nat.add_right_cancel husers).symm)

theorem refsAt_mark (hr : R a = some r) (c : Fin n) (v : Bool) (b : ℕ) :
    refsAt (update R a (some (r.mark c v))) b = refsAt R b := by
  rw [refsAt_update]
  split_ifs with hb
  · rw [hb, refsAt_of hr]
    rfl
  · rfl

theorem held_mark (c : Fin n) : Held (update R a (some (r.mark c true))) c (a, r.id) :=
  ⟨_, update_self _ _ _, rfl, by rw [mark_active, update_self]⟩

theorem inv_mark (h : Inv s) (hph : (s.cpus c).phase = .mark w) :
    Inv ((s.deref w.new fun r => some (r.mark c true)).setCpu c ((s.cpus c).to (.store w))) := by
  have hc := h.cpu c
  have hshape := hc.shape
  rw [Cpu.Shape, hph] at hshape
  obtain ⟨r, hr, hid⟩ := hc.target (w.new, w.id) (by rw [hph]; rfl)
  rw [deref_of hr]
  have hkeep : ∀ d b, Keeps d s.records (update s.records w.new (some (r.mark c true))) b := fun d b =>
    keeps_mark hr (.inl rfl) b
  have hheld : Held (update s.records w.new (some (r.mark c true))) c (w.new, w.id) := by
    rw [← show r.id = w.id from hid]
    exact held_mark c
  refine ⟨cpus_update h.cpu (fun d _ p _ => hkeep d p.1) ⟨fun p hp => (hc.last p hp).keep (hkeep c p.1), ?_, ?_, hshape⟩,
    refs_setCpu h (refsAt_mark hr c true) (by rw [hph]; rfl), h.touched, h.skipped⟩
  · intro p hp
    cases hp
    exact hheld.named
  · intro p hp
    cases hp
    exact hheld

theorem inv_store (h : Inv s) (hph : (s.cpus c).phase = .store w) :
    Inv (s.setCpu c ⟨(s.cpus c).cr3, some (w.new, w.id), .load w, (s.cpus c).proc, (s.cpus c).last⟩) := by
  have hc := h.cpu c
  have hshape := hc.shape
  have htarget := hc.target
  have hmarked := hc.marked
  rw [Cpu.Shape, hph] at hshape
  rw [hph] at htarget hmarked
  exact ⟨cpus_update h.cpu (fun d _ p _ => keeps_refl d _ p.1) ⟨hc.last, htarget, hmarked, rfl, hshape.2⟩,
    refs_setCpu h (fun _ => rfl) (by rw [hph]; rfl), h.touched, h.skipped⟩

theorem inv_load (h : Inv s) (hph : (s.cpus c).phase = .load w) :
    Inv ((s.deref w.new some).setCpu c ⟨some w.id, (s.cpus c).slot, .unmark w, (s.cpus c).proc, (s.cpus c).last⟩) := by
  have hc := h.cpu c
  have hshape := hc.shape
  have htarget := hc.target
  have hmarked := hc.marked
  rw [Cpu.Shape, hph] at hshape
  rw [hph] at htarget hmarked
  obtain ⟨r, hr, -⟩ := htarget (w.new, w.id) rfl
  rw [deref_of hr, ← hr, update_eq_self]
  exact ⟨cpus_update h.cpu (fun d _ p _ => keeps_refl d _ p.1) ⟨hc.last, htarget, hmarked, hshape.1, rfl, hshape.2.2⟩,
    refs_setCpu h (fun _ => rfl) (by rw [hph]; rfl), h.touched, h.skipped⟩

theorem inv_switched (h : Inv s) (hph : (s.cpus c).phase = .unmark w) (hrefs : ∀ b, refsAt R b = refsAt s.records b)
    (hkeep : ∀ d, d ≠ c → ∀ b, Keeps d s.records R b) (hnew : Keeps c s.records R w.new) :
    Inv (State.setCpu { s with records := R } c
      ⟨(s.cpus c).cr3, (s.cpus c).slot, afterSwitch w.drop, (s.cpus c).proc, some (w.new, w.id)⟩) := by
  have hc := h.cpu c
  have hshape := hc.shape
  have hmarked := hc.marked
  rw [Cpu.Shape, hph] at hshape
  rw [hph] at hmarked
  refine ⟨cpus_update h.cpu (fun d hd p _ => hkeep d hd p.1) ⟨?_, ?_, ?_, ?_⟩,
    refs_setCpu h hrefs (by rw [hph]; exact pending_afterSwitch w.drop), h.touched, h.skipped⟩
  · intro p hp
    cases hp
    exact (hmarked (w.new, w.id) rfl).keep hnew
  · simp
  · simp
  · obtain ⟨hslot, hcr3, -⟩ := hshape
    cases hd : w.drop with
    | none | some a => exact ⟨hslot, hcr3⟩

theorem inv_unmark (h : Inv s) (hph : (s.cpus c).phase = .unmark w) (hold : w.old = some a) :
    Inv ((s.deref a fun r => some (r.mark c false)).setCpu c
      ⟨(s.cpus c).cr3, (s.cpus c).slot, afterSwitch w.drop, (s.cpus c).proc, some (w.new, w.id)⟩) := by
  have hc := h.cpu c
  have hshape := hc.shape
  rw [Cpu.Shape, hph] at hshape
  obtain ⟨hfrom, hne⟩ := hshape.2.2
  obtain ⟨p, hp, rfl⟩ := map_eq_some_iff.1 (hfrom.symm.trans hold)
  obtain ⟨r, hr, -⟩ := hc.last p hp
  rw [deref_of hr]
  refine inv_switched h hph (refsAt_mark hr c false) (fun d hd b => keeps_mark hr (.inr hd) b) (keeps_update fun heq => ?_)
  exact absurd (by rw [hp, map_some, heq]) hne

theorem inv_drop (h : Inv s) (hph : (s.cpus c).phase = .drop a) (hok : DropOk s a) :
    Inv ((s.deref a Record.dropRef).setCpu c ((s.cpus c).to .ready)) := by
  have hc := h.cpu c
  have hshape := hc.shape
  rw [Cpu.Shape, hph] at hshape
  obtain ⟨r, hr, hone⟩ := live_of_pending h (c := c) (a := a) (by rw [hph]; rfl)
  rw [deref_of hr]
  refine ⟨cpus_update h.cpu (fun d _ p hp => keeps_drop hr hok (h.cpu d) hp)
    ⟨fun p hp => (hc.last p hp).keep (keeps_drop hr hok hc (.inl hp)), by nofun, by nofun, hshape⟩, fun b => ?_,
      h.touched, h.skipped⟩
  have husers := users_setCpu { s with records := update s.records a r.dropRef } c ((s.cpus c).to .ready) b
  rw [show (State.cpus { s with records := update s.records a r.dropRef } c).phase = .drop a from hph] at husers
  exact Nat.add_right_cancel ((refs_drop h hr hone b).trans husers.symm)

/-! ## Runs -/

theorem inv_new : Inv (State.new : State n m) where
  cpu c := ⟨by nofun, by nofun, by nofun, rfl, rfl⟩
  refs a := by simp [refsAt, State.new, State.users, pointsAt, Phase.pending]
  touched := rfl
  skipped := rfl

theorem inv_advance {t : State n m} (h : Inv s) (hok : AdvanceOk s (s.cpus c).phase) (hstep : s.advance c = some t) :
    Inv t := by
  unfold State.advance at hstep
  cases hph : (s.cpus c).phase with
  | ready => simp only [hph] at hstep; cases hstep
  | mark w =>
    simp only [hph] at hstep
    exact some.inj hstep ▸ inv_mark h hph
  | store w =>
    simp only [hph] at hstep
    exact some.inj hstep ▸ inv_store h hph
  | load w =>
    simp only [hph] at hstep
    exact some.inj hstep ▸ inv_load h hph
  | unmark w =>
    simp only [hph] at hstep
    cases hold : w.old with
    | none =>
      simp only [hold] at hstep
      exact some.inj hstep ▸ inv_switched h hph (fun _ => rfl) (fun d _ b => keeps_refl d _ b) (keeps_refl c _ _)
    | some a =>
      simp only [hold] at hstep
      exact some.inj hstep ▸ inv_unmark h hph hold
  | drop a =>
    simp only [hph] at hstep
    rw [hph] at hok
    exact some.inj hstep ▸ inv_drop h hph hok

theorem inv_step {t : State n m} {a : Act n m} (h : Inv s) (hok : StepOk s a) (hstep : step s a = some t) : Inv t := by
  cases a with
  | create p a =>
    obtain ⟨hg, hstep⟩ := ite_none_right_eq_some.1 hstep
    exact some.inj hstep ▸ inv_create h hg.1 (isNone_iff_eq_none.1 hg.2)
  | clone p q =>
    obtain ⟨x, hp, hstep⟩ := bind_eq_some_iff.1 hstep
    obtain ⟨hg, hstep⟩ := ite_none_right_eq_some.1 hstep
    exact some.inj hstep ▸ inv_clone h hp hg.2
  | kernel c =>
    obtain ⟨hg, hstep⟩ := ite_none_right_eq_some.1 hstep
    exact some.inj hstep ▸ inv_kernel h hg
  | switch c p =>
    obtain ⟨x, -, hstep⟩ := bind_eq_some_iff.1 hstep
    obtain ⟨r, hr, hstep⟩ := bind_eq_some_iff.1 hstep
    obtain ⟨hg, hstep⟩ := ite_none_right_eq_some.1 hstep
    exact some.inj hstep ▸ inv_switch h hr hg
  | exec c a =>
    obtain ⟨p, -, hstep⟩ := bind_eq_some_iff.1 hstep
    obtain ⟨x, hp, hstep⟩ := bind_eq_some_iff.1 hstep
    obtain ⟨hg, hstep⟩ := ite_none_right_eq_some.1 hstep
    exact some.inj hstep ▸ inv_exec h hp (isNone_iff_eq_none.1 hg.2.2) hg.1
  | step c => exact inv_advance h hok hstep
  | exit c =>
    obtain ⟨p, -, hstep⟩ := bind_eq_some_iff.1 hstep
    obtain ⟨x, hp, hstep⟩ := bind_eq_some_iff.1 hstep
    obtain ⟨-, hstep⟩ := ite_none_right_eq_some.1 hstep
    exact some.inj hstep ▸ inv_exit h hp
  | reap p =>
    obtain ⟨x, hp, hstep⟩ := bind_eq_some_iff.1 hstep
    obtain ⟨-, hstep⟩ := ite_none_right_eq_some.1 hstep
    exact some.inj hstep ▸ inv_reap h hp (hok x hp)

/-- **Address spaces and CPUs.** Any number of CPUs and processes, every interleaving from boot: when each last
reference is dropped only after the CPUs of the address space have been switched to another one, CR3 and the slots stay
on live, marked records. -/
theorem active_run (as : List (Act n m)) (t : State n m) (hok : Meets step StepOk State.new as)
    (hrun : run State.new as = some t) :
    Safe t :=
  (run_inv Inv (fun _ _ _ h hC hstep => inv_step h hC hstep) inv_new hok hrun).safe

instance (s : State n m) (a : ℕ) : Decidable (DropOk s a) := by
  unfold DropOk
  cases s.records a with
  | none => exact .isTrue (by nofun)
  | some r => exact decidable_of_iff (r.refs = 1 → ∀ c, (s.cpus c).last.map Prod.snd ≠ some r.id ∧
      (s.cpus c).phase.target.map Prod.snd ≠ some r.id) (by simp)

instance (s : State n m) (ph : Phase) : Decidable (AdvanceOk s ph) := by cases ph <;> unfold AdvanceOk <;> infer_instance

instance (s : State n m) (a : Act n m) : Decidable (StepOk s a) := by cases a <;> unfold StepOk <;> infer_instance

/-- two CPUs and three processes: the child of process 0 is process 1 with record 20; it runs on CPU 1 and exits there -/
def childExits : List (Act 2 3) :=
  [.create 0 10, .create 1 20, .create 2 30, .switch 0 0, .step 0, .step 0, .step 0, .step 0,
    .switch 1 1, .step 1, .step 1, .step 1, .step 1, .exit 1]

/-- CPU 1 has switched to process 2 when the child is reaped -/
theorem reaped_after_switch :
    ∃ t, run (State.new : State 2 3) (childExits ++ [.switch 1 2, .step 1, .step 1, .step 1, .step 1, .reap 1]) =
    some t ∧ Safe t :=
  exists_of_check (fun _ => True) (by decide +kernel) fun t ht _ => active_run _ t (by decide +kernel) ht

/-- **An idle CPU keeps freed page tables.** CPU 1 goes idle after the child's exit and the parent reaps the child: the
slot (and CR3) of CPU 1 name a freed record. The parent forks again, the new record has the old address, and the switch
of CPU 1 to the new child leaves CR3 on the freed page tables. -/
theorem idle_keeps_freed_tables :
    (∃ s, run (State.new : State 2 3) (childExits ++ [.kernel 1, .reap 1]) = some s ∧
      (s.cpus 1).cr3 = some 1 ∧ (s.cpus 1).slot = some (20, 1) ∧ ¬ Safe s) ∧
    ∃ t, run (State.new : State 2 3) (childExits ++ [.kernel 1, .reap 1, .create 1 20, .switch 1 1]) = some t ∧
      (t.cpus 1).cr3 = some 1 ∧ (t.records 20).map Record.id = some 3 ∧ t.skipped = true := by
  refine ⟨exists_of_check (fun s => (s.cpus 1).cr3 = some 1 ∧ (s.cpus 1).slot = some (20, 1) ∧
    (s.records 20).isNone = true)
    (by decide +kernel) fun s _ ⟨hcr3, hslot, hnone⟩ => ⟨hcr3, hslot, fun hsafe => ?_⟩, by decide +kernel⟩
  obtain ⟨r, hr, -⟩ := hsafe.slot 1 20 1 hslot
  rw [hr] at hnone
  cases hnone

end Rumicos.Proc.ActiveSpaces
