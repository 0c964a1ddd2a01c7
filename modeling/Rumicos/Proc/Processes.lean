/-
Processes and the tables that record them (`crates/proc/src/fork.rs`, `clone.rs`, `process.rs`, `ptable.rs`, `syscall.rs`,
`crates/memory/src/pcid.rs`, `crates/sched/src/thread.rs`).

A process has a frame for its `Process` struct, a kernel stack of eight frames with the thread control block inside, an
address space it may share, and a list of children with 32 slots. It is recorded in three bounded tables: PROCESS_TABLE,
scanned by thread; PTABLE, hashed by pid; and the children list of its parent. A new thread also needs a place in the run
queue of CPU 0.

- `registerProcess`, `ptableInsert`, `addChild`, `enqueueThread`: the tables, each with its own answer to being full.
- `allocOrder`: a block of frames from the buddy allocator. `Pcids.lowest`: the lowest free PCID.
- `sysFork`, `sysClone`: `none` is a kernel panic.

Left out: names, registers, descriptors, signals and exit codes, which no table here is keyed by.
-/
import Rumicos.Proc.Fork

namespace Rumicos.Proc.Processes

open Paging Memory Lib List Option Slot BitVec

/-! ## The tables -/

abbrev Pid := BitVec 32

def maxChildren : ℕ := 32

/-- a thread is named by the first frame of its kernel stack -/
abbrev Thread := Pfn

/-- a process is named by the frame of its `Process` struct -/
abbrev ProcPtr := Pfn

structure Process where
  pid : Pid
  parentPid : Pid
  addressSpace : ℕ
  thread : Thread
  /-- MAX_CHILDREN slots; 0 is a free one -/
  children : List Pid
  childCount : ℕ
deriving DecidableEq

def Process.childrenFull (p : Process) : Bool := p.children.all (· != 0)

/-- the slots that hold a pid -/
def occupied (children : List Pid) : ℕ := children.countP (· != 0)

/-- `add_child`: the first free slot -/
def addChildSlot (pid : Pid) : List Pid → List Pid
  | [] => []
  | c :: cs => if c = 0 then pid :: cs else c :: addChildSlot pid cs

def Process.addChild (p : Process) (pid : Pid) : Process :=
  if p.childrenFull then p else { p with children := addChildSlot pid p.children, childCount := p.childCount + 1 }

/-- `register_process`: the first free slot of PROCESS_TABLE; a full table panics -/
def registerProcess (proc : ProcPtr) : List (Option ProcPtr) → Option (List (Option ProcPtr))
  | [] => none
  | none :: slots => some (some proc :: slots)
  | some p :: slots => (registerProcess proc slots).map (some p :: ·)

def ptableBucket (pid : Pid) : Fin 64 := ⟨(pid * 0x9e3779b9#32).toNat / 2 ^ 26, by omega⟩

/-- PTABLE: 64 buckets of PTABLE_BUCKET_CAP slots -/
abbrev PTable := Table ptableBucket 16 ProcPtr

/-- `ptable_insert`: overwrite the entry of the pid, or take a free slot of its bucket; a full bucket drops the insert -/
def ptableInsert (t : PTable) (pid : Pid) (proc : ProcPtr) : PTable :=
  if h : t.find pid = none then t.insert pid proc h else t.alter pid fun _ => some proc

/-- a level of the run queue is a ring of QUEUE_DEPTH slots, one of them always empty -/
def queueCapacity : ℕ := 255

/-- `enqueue_thread`; a full ring fails the assertion -/
def enqueueThread (queue : List Thread) (t : Thread) : Option (List Thread) :=
  if queue.length < queueCapacity then some (queue ++ [t]) else none

/-! ## Blocks of frames and PCIDs -/

/-- the frames of the block of `2 ^ order` frames at `f` -/
def blockFrames (order : ℕ) (f : Pfn) : List Pfn := (List.range (2 ^ order)).map fun i => f + BitVec.ofNat 36 i

/-- is `g` one of them? The block is aligned -/
def inBlock (order : ℕ) (f g : Pfn) : Bool := g.toNat / 2 ^ order == f.toNat / 2 ^ order

/-- `alloc_order`: an aligned block of frames none of which is allocated -/
def allocOrder (order : ℕ) (fr : Frames) : Option (Pfn × Frames) :=
  match fr.answers with
  | [] => none
  | f :: rest =>
    if f.toNat % 2 ^ order = 0 ∧ (blockFrames order f).all (fun g => !fr.allocated g) then
      some (f, { fr with answers := rest, allocated := fun g => inBlock order f g || fr.allocated g })
    else none

theorem mem_blockFrames {order : ℕ} (ho : order ≤ 36) {f g : Pfn} (hf : f.toNat % 2 ^ order = 0) :
    g ∈ blockFrames order f ↔ inBlock order f g = true := by
  have hpos : 0 < 2 ^ order := Nat.two_pow_pos order
  have hdvd : 2 ^ order ∣ 2 ^ 36 := Nat.pow_dvd_pow 2 ho
  -- the block ends where the next one starts, inside the memory
  have hend : f.toNat + 2 ^ order ≤ 2 ^ 36 := by
    obtain ⟨q, hq⟩ := Nat.dvd_of_mod_eq_zero hf
    obtain ⟨n, hn⟩ := hdvd
    have hlt : 2 ^ order * q < 2 ^ order * n := by
      rw [← hq, ← hn]
      exact f.isLt
    have hqn : q + 1 ≤ n := Nat.lt_of_mul_lt_mul_left hlt
    calc f.toNat + 2 ^ order = 2 ^ order * (q + 1) := by rw [hq, Nat.mul_succ]
      _ ≤ 2 ^ order * n := Nat.mul_le_mul_left _ hqn
      _ = 2 ^ 36 := hn.symm
  rw [inBlock, beq_iff_eq, blockFrames, List.mem_map]
  have hfd : f.toNat = f.toNat / 2 ^ order * 2 ^ order := (Nat.div_mul_cancel (Nat.dvd_of_mod_eq_zero hf)).symm
  constructor
  · rintro ⟨i, hi, rfl⟩
    have hi := mem_range.1 hi
    have hsum : (f + BitVec.ofNat 36 i).toNat = f.toNat + i := by
      rw [toNat_add, toNat_ofNat, Nat.mod_eq_of_lt (by omega), Nat.mod_eq_of_lt (by omega)]
    apply Nat.div_eq_of_lt_le
    · omega
    · rw [Nat.succ_mul]
      omega
  · intro h
    have hg := Nat.div_add_mod g.toNat (2 ^ order)
    have hlt := Nat.mod_lt g.toNat hpos
    refine ⟨g.toNat % 2 ^ order, mem_range.2 hlt, ?_⟩
    apply eq_of_toNat_eq
    rw [toNat_add, toNat_ofNat, Nat.mod_eq_of_lt (by omega : g.toNat % 2 ^ order < 2 ^ 36),
      Nat.mod_eq_of_lt (by omega), hfd, ← h, Nat.mul_comm]
    exact hg

theorem mem_blockFrames_self (order : ℕ) (f : Pfn) : f ∈ blockFrames order f :=
  mem_map.2 ⟨0, mem_range.2 (Nat.two_pow_pos order), by simp⟩

theorem allocOrder_spec {order : ℕ} {fr fr' : Frames} {f : Pfn} (h : allocOrder order fr = some (f, fr')) :
    f.toNat % 2 ^ order = 0 ∧ (∀ g ∈ blockFrames order f, fr.allocated g = false) ∧
      (∀ g, fr'.allocated g = (inBlock order f g || fr.allocated g)) ∧ fr'.freed = fr.freed ∧
      fr'.badFree = fr.badFree := by
  unfold allocOrder at h
  split at h
  · cases h
  · split_ifs at h with hfree
    cases h
    refine ⟨hfree.1, fun g hg => ?_, fun g => rfl, rfl, rfl⟩
    simpa using all_eq_true.1 hfree.2 g hg

def kstackOrder : ℕ := 3

def maxPcid : ℕ := 4096

structure Pcids where
  /-- CR4.PCIDE -/
  enabled : Bool
  used : ℕ → Bool
  /-- the PCID of each address space -/
  spaceId : ℕ → ℕ

/-- `PCID_ALLOCATOR.alloc`: the lowest free id; 0 is never given out -/
def Pcids.lowest (p : Pcids) : Option ℕ := (List.range' 1 (maxPcid - 1)).find? fun i => !p.used i

/-- the PCID of a new address space `a`; `expect` panics when there is none -/
def Pcids.give (p : Pcids) (a : ℕ) : Option Pcids :=
  if p.enabled then
    p.lowest.map fun i => { p with used := Function.update p.used i true, spaceId := Function.update p.spaceId a i }
  else some { p with spaceId := Function.update p.spaceId a 0 }

/-! ## fork and clone -/

structure System where
  kernel : Kernel
  /-- the `Process` structs -/
  procs : ProcPtr → Option Process
  /-- PROCESS_TABLE -/
  processTable : List (Option ProcPtr)
  ptable : PTable
  /-- NEXT_PID -/
  nextPid : Pid
  pcids : Pcids
  /-- level 0 of the run queue of CPU 0 -/
  queue : List Thread

def processForThread (procs : ProcPtr → Option Process) (thread : Thread) :
    List (Option ProcPtr) → Option (ProcPtr × Process)
  | [] => none
  | none :: slots => processForThread procs thread slots
  | some p :: slots =>
    match procs p with
    | some proc => if proc.thread = thread then some (p, proc) else processForThread procs thread slots
    | none => processForThread procs thread slots

def System.processForThread (s : System) (thread : Thread) : Option (ProcPtr × Process) :=
  Processes.processForThread s.procs thread s.processTable

def System.setFrames (s : System) (fr : Frames) : System := { s with kernel := { s.kernel with frames := fr } }

/-- the tables once the child at `frame` is in them -/
def System.record (s : System) (ptr frame : ProcPtr) (parent child : Process) (table : List (Option ProcPtr))
    (queue : List Thread) : System :=
  { s with
    procs := Function.update (Function.update s.procs frame (some child)) ptr (some (parent.addChild child.pid))
    processTable := table
    ptable := ptableInsert s.ptable child.pid frame
    nextPid := s.nextPid + 1
    queue := queue }

/-- what fork and clone do once the child has its address space: stack, pid, struct, tables, run queue -/
def System.startChild (s : System) (ptr : ProcPtr) (parent : Process) (space : ℕ) : Option (System × ℤ) := do
  let (thread, fr) ← allocOrder kstackOrder s.kernel.frames
  let (frame, fr) ← allocFrame fr
  let child : Process := ⟨s.nextPid, parent.pid, space, thread, List.replicate maxChildren 0, 0⟩
  let table ← registerProcess frame s.processTable
  let queue ← enqueueThread s.queue thread
  return ((s.setFrames fr).record ptr frame parent child table queue, s.nextPid.toNat)

def efault : ℤ := -14
def einval : ℤ := -22
def eagain : ℤ := -11

/-- `sys_fork` of the current thread -/
def System.sysFork (s : System) (thread : Thread) : Option (System × ℤ) :=
  match s.processForThread thread with
  | none => some (s, efault)
  | some (ptr, parent) =>
    if parent.childrenFull then some (s, eagain)
    else do
      let (k, space) ← forkCow s.kernel parent.addressSpace
      let pcids ← s.pcids.give space
      { s with kernel := k, pcids := pcids }.startChild ptr parent space

def cloneVm : BitVec 32 := 0x100

def incRef (k : Kernel) (a : ℕ) : Option Kernel := do
  let s ← k.space a
  return k.setSpace a { s with refcount := s.refcount + 1 }

/-- `sys_clone` of the current thread -/
def System.sysClone (s : System) (thread : Thread) (flags : BitVec 32) (childStack : BitVec 64) : Option (System × ℤ) :=
  if flags &&& cloneVm = 0 then s.sysFork thread
  else if childStack = 0 then some (s, einval)
  else
    match s.processForThread thread with
    | none => some (s, efault)
    | some (ptr, parent) =>
      if parent.childrenFull then some (s, eagain)
      else do
        let k ← incRef s.kernel parent.addressSpace
        { s with kernel := k }.startChild ptr parent parent.addressSpace

/-! ## The frames a copy of an address space takes -/

/-- `t'` is `t` with the tables of one more page -/
def Deeper (t t' : AddressSpace) (p : UPage) : Prop :=
  ∀ ps, Slot.missingAll (some t.pml4) (p :: ps) = Slot.missing (some t.pml4) p + Slot.missingAll (some t'.pml4) ps

/-- what mapping one page asks of the allocator, and what it leaves behind -/
structure TakesTables (k : Kernel) (c : ℕ) (t : AddressSpace) (p : UPage) (r : Option Kernel) : Prop where
  frames : r.map (·.frames) = Slot.take allocFrame (Slot.missing (some t.pml4) p) k.frames
  space : ∀ k', r = some k' → ∃ t', k'.space c = some t' ∧ Deeper t t' p
  other : ∀ k', r = some k' → ∀ b, b ≠ c → (k'.space b).isSome = (k.space b).isSome

variable {k : Kernel} {c a : ℕ}

theorem mapPage_takesTables {t : AddressSpace} (hc : k.space c = some t) (p : UPage) (f : Pfn) (flags : PageFlags)
    (o : Option Origin) : TakesTables k c t p (mapPage k c p f flags o) := by
  have htake := ensure_take allocFrame (some t.pml4) p k.frames
  cases he : ensure allocFrame (some t.pml4) p k.frames with
  | none =>
    have hnone : mapPage k c p f flags o = none := by
      simp [mapPage, ensureTables, hc, he]
    rw [he] at htake
    rw [hnone]
    exact ⟨htake, fun k' h => (by cases h), fun k' h => (by cases h)⟩
  | some r =>
    obtain ⟨slot, fr⟩ := r
    rw [he] at htake
    have hdeep := fun ps => missingAll_ensure he ps
    obtain ⟨pml4, rfl⟩ : ∃ pml4, slot = some pml4 := by
      obtain ⟨d, st, -, hr⟩ := ensure_some he
      exact ⟨_, (Prod.mk.inj hr).1⟩
    have hmap : mapPage k c p f flags o =
        setLeaf ({ k with frames := fr }.setSpace c { t with pml4 := pml4 }) c p (leafOf (.newPage f flags)) o := by
      simp [mapPage, ensureTables, hc, he]
    have hs1 : ({ k with frames := fr }.setSpace c { t with pml4 := pml4 }).space c = some { t with pml4 := pml4 } :=
      space_setSpace_self (k := { k with frames := fr }) hc _
    obtain ⟨k', hk'⟩ : ∃ k', mapPage k c p f flags o = some k' := by
      rw [hmap]
      simp only [setLeaf, hs1]
      exact ⟨_, rfl⟩
    have hset := hk'
    rw [hmap] at hset
    obtain ⟨t1, pml4', ht1, hw, rfl⟩ := setLeaf_spec hset
    rw [hs1] at ht1
    cases ht1
    rw [hk']
    refine ⟨htake, ?_, ?_⟩
    · intro k' h
      cases h
      refine ⟨_, space_setSpace_self hs1 _, fun ps => ?_⟩
      rw [hdeep ps]
      rw [← hw, missingAll_write]
    · intro k' h b hb
      cases h
      rw [space_setSpace_ne _ hb, space_setSpace_ne _ hb]
      rfl

theorem cloneLeaf_takesTables {s t : AddressSpace} (hs : k.space a = some s) (hc : k.space c = some t) (hac : c ≠ a)
    (x : UPage × Leaf) : TakesTables k c t x.1 (cloneLeaf a c k x) := by
  simp only [cloneLeaf, hs, bind_eq_bind, bind_some]
  split
  · exact mapPage_takesTables hc ..
  · obtain ⟨pml4, hw⟩ : ∃ pml4, write (some s.pml4) x.1 (leafOf (x.2.entry.withFlags (cowReadonlyFlags x.2.entry.flags)))
        = some pml4 := ⟨_, rfl⟩
    simp only [setLeaf, hs, hw, bind_eq_bind, bind_some]
    -- the parent's entry is only marked, so the child's tables are found where they were
    have hc' := (space_setSpace_ne k hac
      { s with pml4 := pml4, origin := Function.update s.origin x.1 (s.origin x.1) }).trans hc
    obtain ⟨hframes, hspace, hother⟩ := mapPage_takesTables
      (k := { k.setSpace a { s with pml4 := pml4, origin := Function.update s.origin x.1 (s.origin x.1) } with
        cow := cowShare k.cow x.2.frame }) hc' x.1 x.2.frame (cowReadonlyFlags x.2.entry.flags) (s.origin x.1)
    refine ⟨hframes, hspace, fun k' h b hb => ?_⟩
    rw [hother k' h b hb]
    by_cases hba : b = a
    · subst hba
      rw [hs]
      show ((k.setSpace b _).space b).isSome = true
      rw [space_setSpace_self hs]
      rfl
    · show ((k.setSpace a _).space b).isSome = _
      rw [space_setSpace_ne k hba]

theorem foldlM_cloneLeaf_frames (hac : c ≠ a) (xs : List (UPage × Leaf)) :
    ∀ {k : Kernel} {t : AddressSpace}, (k.space a).isSome = true → k.space c = some t →
      (xs.foldlM (cloneLeaf a c) k).map (·.frames) =
          Slot.take allocFrame (Slot.missingAll (some t.pml4) (xs.map Prod.fst)) k.frames ∧
        ∀ k', xs.foldlM (cloneLeaf a c) k = some k' → ∀ b, (k'.space b).isSome = (k.space b).isSome := by
  induction xs with
  | nil =>
    intro k t _ hc
    rw [map_nil, missingAll_nil]
    exact ⟨rfl, fun k' h b => by cases h; rfl⟩
  | cons x xs ih =>
    intro k t ha hc
    obtain ⟨s, hs⟩ := isSome_iff_exists.1 ha
    obtain ⟨hframes, hspace, hother⟩ := cloneLeaf_takesTables hs hc hac x
    rw [foldlM_cons, map_cons]
    cases hx : cloneLeaf a c k x with
    | none =>
      rw [hx] at hframes
      refine ⟨(take_eq_none_of_le hframes.symm (missing_le_missingAll _ _ _)).symm, nofun⟩
    | some k1 =>
      obtain ⟨t1, hc1, hdeep⟩ := hspace k1 hx
      rw [hx, map_some] at hframes
      have ha1 : (k1.space a).isSome = true := by
        rw [hother k1 hx a hac.symm]
        exact ha
      obtain ⟨hrest, hlive⟩ := ih ha1 hc1
      refine ⟨?_, fun k' h b => ?_⟩
      · rw [hdeep, Slot.take_add, ← hframes, bind_some]
        exact hrest
      · rw [hlive k' h b]
        by_cases hb : b = c
        · rw [hb, hc1, hc]
          rfl
        · exact hother k1 hx b hb

/-- the frames of a copy of `s`: its PML4, a table for each part of the tree that holds a page, its own record -/
def copyFrames (s : AddressSpace) : ℕ :=
  1 + Slot.missingAll (some (emptySpace 0 s.vmas s.mmapNext).pml4) ((Slot.leaves (some s.pml4)).map Prod.fst) + 1

/-- **The frames of a fork.** Copying an address space asks the allocator for exactly `copyFrames` frames and fails when it
does not give them. -/
theorem forkCow_frames {s : AddressSpace} (hs : k.space a = some s) :
    (forkCow k a).map (·.1.frames) = Slot.take allocFrame (copyFrames s) k.frames := by
  have hac : k.spaces.length ≠ a := (space_lt hs).ne'
  rw [forkCow_eq hs, copyFrames, Slot.take_add, Slot.take_add]
  simp only [Slot.take]
  cases hf : allocFrame k.frames with
  | none => rfl
  | some r =>
    obtain ⟨f, fr⟩ := r
    obtain ⟨hfold, hlive⟩ := foldlM_cloneLeaf_frames hac (leaves (some s.pml4))
      (k := addSpace k fr (emptySpace f s.vmas s.mmapNext)) (t := emptySpace f s.vmas s.mmapNext)
      (by rw [space_addSpace_ne _ _ _ hac.symm, hs]; rfl) (space_addSpace_self ..)
    simp only [bind_some]
    -- the number of tables does not depend on which frame the root is in
    refine Eq.trans ?_ (congrArg (Option.bind · _) hfold)
    cases hk : (leaves (some s.pml4)).foldlM (cloneLeaf a k.spaces.length)
        (addSpace k fr (emptySpace f s.vmas s.mmapNext)) with
    | none => rfl
    | some k2 =>
      obtain ⟨t, ht⟩ : ∃ t, k2.space k.spaces.length = some t := by
        rw [← isSome_iff_exists, hlive k2 hk, space_addSpace_self]
        rfl
      simp only [bind_some, map_some, allocShared, ht]
      cases allocFrame k2.frames with
      | none | some x => rfl

theorem forkCow_spaces {k' : Kernel} (h : forkCow k a = some (k', c)) :
    (k'.space c).isSome = true ∧ ∀ b, (k.space b).isSome = true → (k'.space b).isSome = true := by
  obtain ⟨s, f, fr, k2, hs, -, rfl, hfold, hshared⟩ := forkCow_inv h
  have hac : k.spaces.length ≠ a := (space_lt hs).ne'
  have hlive := (foldlM_cloneLeaf_frames hac (leaves (some s.pml4))
    (by rw [space_addSpace_ne _ _ _ hac.symm, hs]; rfl) (space_addSpace_self ..)).2 k2 hfold
  have hkeep : ∀ b, (k2.space b).isSome = true → (k'.space b).isSome = true := by
    intro b hb
    simp only [allocShared, bind_eq_bind, bind_eq_some_iff, Option.pure_def, some.injEq] at hshared
    obtain ⟨t, ht, x, -, rfl⟩ := hshared
    by_cases hbc : b = k.spaces.length
    · subst hbc
      rw [space_setSpace_self (k := { k2 with frames := x.2 }) ht]
      rfl
    · rw [space_setSpace_ne _ hbc]
      exact hb
  constructor
  · apply hkeep
    rw [hlive, space_addSpace_self]
    rfl
  · intro b hb
    apply hkeep
    have hne : b ≠ k.spaces.length := by
      obtain ⟨t, ht⟩ := isSome_iff_exists.1 hb
      exact (space_lt ht).ne
    rw [hlive, space_addSpace_ne _ _ _ hne]
    exact hb

end Rumicos.Proc.Processes
