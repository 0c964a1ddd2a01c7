/-
Is a child of fork and clone recorded everywhere? `Fine`: the call returns a positive pid and the child is found by its
thread, by its pid and in one slot of its parent's children list, or the call returns an errno and changes nothing.

Only the children list is checked before anything is built. PROCESS_TABLE and the run queue panic when they are full, a
full bucket of PTABLE drops the entry without a word, and the pid comes from a 32-bit counter that wraps.

- `System.WF`: the struct and the thread of every process are allocated, PROCESS_TABLE names live processes, and every
  count of children is right. `sysFork_called`, `sysClone_called`: fork and clone keep it.
-/
import Rumicos.Proc.Processes
import Rumicos.Proc.Runs

namespace Rumicos.Proc.Processes

open Paging Memory Lib Function List Option

variable {s s' : System} {thread : Thread} {ptr : ProcPtr} {parent : Process} {table : List (Option ProcPtr)} {v : ℤ}

/-! ## What the operations on the tables leave -/

theorem free_of_cons {c : Pid} {cs : List Pid} (hc : c ≠ 0) (h : (c :: cs).all (· != 0) = false) :
    cs.all (· != 0) = false := by
  rw [all_cons, bne_iff_ne.2 hc] at h
  exact h

theorem count_addChildSlot {pid : Pid} {children : List Pid} (hroom : children.all (· != 0) = false) (hpid : pid ≠ 0) :
    (addChildSlot pid children).count pid = children.count pid + 1 := by
  induction children with
  | nil => cases hroom
  | cons c cs ih =>
    rw [addChildSlot]
    by_cases hc : c = 0
    · subst hc
      rw [if_pos rfl, count_cons_self, count_cons_of_ne hpid.symm]
    · rw [if_neg hc]
      rw [count_cons, count_cons, ih (free_of_cons hc hroom)]
      omega

theorem occupied_addChildSlot {pid : Pid} {children : List Pid} (hroom : children.all (· != 0) = false) (hpid : pid ≠ 0) :
    occupied (addChildSlot pid children) = occupied children + 1 := by
  induction children with
  | nil => cases hroom
  | cons c cs ih =>
    rw [addChildSlot]
    by_cases hc : c = 0
    · subst hc
      have hbne : (pid != 0) = true := bne_iff_ne.2 hpid
      rw [if_pos rfl, occupied, occupied, countP_cons_of_pos (p := fun c => c != 0) hbne,
        countP_cons_of_neg (by simp)]
    · rw [if_neg hc]
      have hcount := ih (free_of_cons hc hroom)
      simp only [occupied, countP_cons] at hcount ⊢
      omega

theorem registerProcess_isSome (proc : ProcPtr) (table : List (Option ProcPtr)) :
    (registerProcess proc table).isSome = true ↔ none ∈ table := by
  induction table with
  | nil => simp [registerProcess]
  | cons slot slots ih =>
    cases slot with
    | none => simp [registerProcess]
    | some p => simpa [registerProcess] using ih

theorem mem_registerProcess {proc : ProcPtr} {table' : List (Option ProcPtr)}
    (h : registerProcess proc table = some table') (p : ProcPtr) : some p ∈ table' ↔ p = proc ∨ some p ∈ table := by
  induction table generalizing table' with
  | nil => cases h
  | cons slot slots ih =>
    cases slot with
    | none =>
      cases h
      simp
    | some q =>
      obtain ⟨slots', hs, rfl⟩ := map_eq_some_iff.1 h
      simp only [mem_cons, ih hs]
      tauto

theorem processForThread_registered {procs : ProcPtr → Option Process} {proc : ProcPtr} {child : Process}
    {table' : List (Option ProcPtr)} (h : registerProcess proc table = some table') (hp : procs proc = some child)
    (hother : ∀ q p, some q ∈ table → procs q = some p → p.thread ≠ child.thread) :
    processForThread procs child.thread table' = some (proc, child) := by
  induction table generalizing table' with
  | nil => cases h
  | cons slot slots ih =>
    cases slot with
    | none =>
      cases h
      simp [processForThread, hp]
    | some q =>
      obtain ⟨slots', hs, rfl⟩ := map_eq_some_iff.1 h
      have hrest := ih hs fun r p hr => hother r p (mem_cons_of_mem _ hr)
      rw [processForThread]
      cases hq : procs q with
      | none => exact hrest
      | some p =>
        simp only [if_neg (hother q p mem_cons_self hq)]
        exact hrest

theorem processForThread_mem {procs : ProcPtr → Option Process}
    (h : processForThread procs thread table = some (ptr, parent)) : procs ptr = some parent := by
  induction table with
  | nil => cases h
  | cons slot slots ih =>
    cases slot with
    | none => exact ih h
    | some q =>
      rw [processForThread] at h
      split at h
      · rename_i p hq
        by_cases ht : p.thread = thread
        · rw [if_pos ht] at h
          cases h
          exact hq
        · rw [if_neg ht] at h
          exact ih h
      · exact ih h

theorem find_ptableInsert (t : PTable) (pid : Pid) (proc : ProcPtr) :
    (ptableInsert t pid proc).find pid = some proc ↔ (t.find pid).isSome = true ∨ t.hasRoom pid = true := by
  unfold ptableInsert
  by_cases h : t.find pid = none
  · rw [dif_pos h, h]
    cases hr : t.hasRoom pid with
    | true => simp [Table.find_insert t pid pid proc h hr]
    | false =>
      have hfind : (t.insert pid proc h).find pid = none := by
        rw [Table.find, Table.slots_insert_full t pid proc h hr]
        exact h
      simp [hfind]
  · rw [dif_neg h, Table.find_alter]
    obtain ⟨q, hq⟩ := ne_none_iff_exists'.1 h
    simp [hq]

/-! ## Frames -/

/-- nothing is freed -/
def Grows (fr fr' : Frames) : Prop := ∀ f, fr.allocated f = true → fr'.allocated f = true

theorem Grows.trans {fr₁ fr₂ fr₃ : Frames} (h : Grows fr₁ fr₂) (h' : Grows fr₂ fr₃) : Grows fr₁ fr₃ :=
  fun f hf => h' f (h f hf)

theorem grows_allocFrame {fr fr' : Frames} {f : Pfn} (h : allocFrame fr = some (f, fr')) : Grows fr fr' := by
  intro g hg
  rw [(allocFrame_spec h).2.1]
  by_cases hgf : g = f
  · rw [hgf, update_self]
  · rw [update_of_ne hgf, hg]

theorem grows_take {n : ℕ} {fr fr' : Frames} (h : Slot.take allocFrame n fr = some fr') : Grows fr fr' := by
  induction n generalizing fr with
  | zero =>
    cases h
    exact fun _ hf => hf
  | succ n ih =>
    obtain ⟨x, hx, hrest⟩ := bind_eq_some_iff.1 h
    exact (grows_allocFrame hx).trans (ih hrest)

/-! ## Well-formed states -/

structure System.WF (s : System) : Prop where
  table : ∀ f, some f ∈ s.processTable → (s.procs f).isSome = true
  frame : ∀ f p, s.procs f = some p → s.kernel.frames.allocated f = true
  thread : ∀ f p, s.procs f = some p → s.kernel.frames.allocated p.thread = true
  space : ∀ f p, s.procs f = some p → (s.kernel.space p.addressSpace).isSome = true
  count : ∀ f p, s.procs f = some p → p.childCount = occupied p.children

/-- a state whose processes and tables are those of a well-formed one, with more frames and spaces -/
theorem System.WF.keep (hwf : s.WF) {k : Kernel} (hgrows : Grows s.kernel.frames k.frames)
    (hspaces : ∀ b, (s.kernel.space b).isSome = true → (k.space b).isSome = true) (pcids : Pcids) :
    System.WF { s with kernel := k, pcids := pcids } where
  table := hwf.table
  frame f p hp := hgrows _ (hwf.frame f p hp)
  thread f p hp := hgrows _ (hwf.thread f p hp)
  space f p hp := hspaces _ (hwf.space f p hp)
  count := hwf.count

theorem addChild_of_room (hroom : parent.childrenFull = false) (pid : Pid) :
    parent.addChild pid =
      { parent with children := addChildSlot pid parent.children, childCount := parent.childCount + 1 } := by
  rw [Process.addChild, if_neg (by rw [hroom]; exact Bool.false_ne_true)]

theorem addChild_keeps (parent : Process) (pid : Pid) :
    (parent.addChild pid).thread = parent.thread ∧ (parent.addChild pid).addressSpace = parent.addressSpace := by
  unfold Process.addChild
  split <;> exact ⟨rfl, rfl⟩

/-- what `startChild` has done when it returns -/
theorem startChild_inv {space : ℕ} (h : s.startChild ptr parent space = some (s', v)) :
    ∃ t fr frame fr' table queue, allocOrder kstackOrder s.kernel.frames = some (t, fr) ∧ allocFrame fr =
    some (frame, fr') ∧
      registerProcess frame s.processTable = some table ∧ enqueueThread s.queue t = some queue ∧ v = s.nextPid.toNat ∧
      s' = (s.setFrames fr').record ptr frame parent
      ⟨s.nextPid, parent.pid, space, t, List.replicate maxChildren 0, 0⟩ table
        queue := by
  simp only [System.startChild, bind_eq_bind, bind_eq_some_iff, Prod.exists] at h
  obtain ⟨t, fr, ht, frame, fr', hf, table, htable, queue, hqueue, rfl, rfl⟩ := h
  exact ⟨t, fr, frame, fr', table, queue, ht, hf, htable, hqueue, rfl, rfl⟩

section Child

variable {space : ℕ} {t : Thread} {fr fr' : Frames} {frame : ProcPtr}

theorem fresh_frames (hwf : s.WF) (ht : allocOrder kstackOrder s.kernel.frames = some (t, fr))
    (hf : allocFrame fr = some (frame, fr')) :
    Grows s.kernel.frames fr' ∧ fr'.allocated t = true ∧ fr'.allocated frame = true ∧ s.procs frame = none ∧
      ∀ f p, s.procs f = some p → p.thread ≠ t := by
  obtain ⟨_, hfree, halloc, _⟩ := allocOrder_spec ht
  have hblock := mem_blockFrames_self kstackOrder t
  have hfr : Grows s.kernel.frames fr := by
    intro g hg
    rw [halloc g, hg, Bool.or_true]
  have hfr' := grows_allocFrame hf
  have hthread : fr.allocated t = true := by
    rw [halloc t, inBlock, beq_self_eq_true, Bool.true_or]
  refine ⟨hfr.trans hfr', hfr' t hthread, ?_, ?_, ?_⟩
  · rw [(allocFrame_spec hf).2.1, update_self]
  · by_contra hsome
    obtain ⟨p, hp⟩ := ne_none_iff_exists'.1 hsome
    have := hfr frame (hwf.frame frame p hp)
    rw [(allocFrame_spec hf).1] at this
    cases this
  · intro f p hp heq
    have := hwf.thread f p hp
    rw [heq, hfree t hblock] at this
    cases this

theorem record_procs_self (child : Process) (table : List (Option ProcPtr)) (queue : List Thread) :
    (s.record ptr frame parent child table queue).procs ptr = some (parent.addChild child.pid) := update_self ..

theorem record_procs_child (hne : frame ≠ ptr) (child : Process) (table : List (Option ProcPtr)) (queue : List Thread) :
    (s.record ptr frame parent child table queue).procs frame = some child :=
  (update_of_ne hne ..).trans (update_self ..)

theorem record_procs {child : Process} {queue : List Thread} {f : ProcPtr} {p : Process}
    (h : (s.record ptr frame parent child table queue).procs f = some p) :
    f = ptr ∧ p = parent.addChild child.pid ∨ f = frame ∧ p = child ∨ s.procs f = some p := by
  change update (update s.procs frame (some child)) ptr _ f = some p at h
  by_cases hptr : f = ptr
  · rw [hptr, update_self] at h
    exact .inl ⟨hptr, (some.inj h).symm⟩
  · rw [update_of_ne hptr] at h
    by_cases hframe : f = frame
    · rw [hframe, update_self] at h
      exact .inr (.inl ⟨hframe, (some.inj h).symm⟩)
    · rw [update_of_ne hframe] at h
      exact .inr (.inr h)

theorem occupied_replicate (n : ℕ) : occupied (List.replicate n 0) = 0 := by
  induction n with
  | zero => rfl
  | succ n ih => rw [occupied]; exact ih

theorem wf_startChild (hwf : s.WF) (hptr : s.procs ptr = some parent) (hroom : parent.childrenFull = false)
    (hspace : (s.kernel.space space).isSome = true) (hpid : s.nextPid ≠ 0)
    (h : s.startChild ptr parent space = some (s', v)) : s'.WF := by
  obtain ⟨t, fr, frame, fr', table, queue, ht, hf, htable, -, -, rfl⟩ := startChild_inv h
  obtain ⟨hgrows, hthread, hframe, -, -⟩ := fresh_frames hwf ht hf
  have hkeeps := addChild_keeps parent s.nextPid
  refine ⟨?_, ?_, ?_, ?_, ?_⟩
  · intro f hfmem
    change (update (update s.procs frame (some _)) ptr _ f).isSome = true
    by_cases hfptr : f = ptr
    · rw [hfptr, update_self]
      rfl
    · rw [update_of_ne hfptr]
      by_cases hff : f = frame
      · rw [hff, update_self]
        rfl
      · rw [update_of_ne hff]
        exact hwf.table f (((mem_registerProcess htable f).1 hfmem).resolve_left hff)
  · intro f p hp
    rcases record_procs hp with ⟨rfl, -⟩ | ⟨rfl, -⟩ | hold
    · exact hgrows _ (hwf.frame _ _ hptr)
    · exact hframe
    · exact hgrows _ (hwf.frame _ _ hold)
  · intro f p hp
    rcases record_procs hp with ⟨-, rfl⟩ | ⟨-, rfl⟩ | hold
    · rw [hkeeps.1]
      exact hgrows _ (hwf.thread _ _ hptr)
    · exact hthread
    · exact hgrows _ (hwf.thread _ _ hold)
  · intro f p hp
    rcases record_procs hp with ⟨-, rfl⟩ | ⟨-, rfl⟩ | hold
    · rw [hkeeps.2]
      exact hwf.space _ _ hptr
    · exact hspace
    · exact hwf.space _ _ hold
  · intro f p hp
    rcases record_procs hp with ⟨-, rfl⟩ | ⟨-, rfl⟩ | hold
    · rw [addChild_of_room hroom, occupied_addChildSlot hroom hpid, hwf.count _ _ hptr]
    · exact (occupied_replicate maxChildren).symm
    · exact hwf.count _ _ hold

end Child

/-! ## The property -/

/-- the process at `ptr` has a new child with pid `v`, found by its thread, by its pid and in one slot of the list -/
def Records (s s' : System) (ptr : ProcPtr) (v : ℤ) : Prop :=
  0 < v ∧ ∃ frame child parent, s.procs frame = none ∧ s'.procs frame = some child ∧ (child.pid.toNat : ℤ) = v ∧
    s'.processForThread child.thread = some (frame, child) ∧ s'.ptable.find child.pid = some frame ∧
    s'.procs ptr = some parent ∧ parent.children.count child.pid = 1 ∧ parent.childCount = occupied parent.children

/-- the call returned, with a recorded child or with an errno and no change -/
def Fine (s : System) (thread : Thread) : Option (System × ℤ) → Prop
  | none => False
  | some (s', v) =>
    (∃ ptr parent, s.processForThread thread = some (ptr, parent) ∧ Records s s' ptr v) ∨ v < 0 ∧ s' = s

/-- a free slot of PROCESS_TABLE, one of the run queue, a place for the pid in PTABLE, and a pid that is new to the
parent -/
def TablesRoom (s : System) (parent : Process) : Prop :=
  none ∈ s.processTable ∧ s.queue.length < queueCapacity ∧
    ((s.ptable.find s.nextPid).isSome = true ∨ s.ptable.hasRoom s.nextPid = true) ∧
    s.nextPid ≠ 0 ∧ s.nextPid ∉ parent.children

instance (s : System) (parent : Process) : Decidable (TablesRoom s parent) := by unfold TablesRoom; infer_instance

/-- the allocator gives `n` frames, a kernel stack and a frame for the struct -/
def FramesFor (n : ℕ) (fr : Frames) : Prop :=
  ((Slot.take allocFrame n fr).bind fun fr => (allocOrder kstackOrder fr).bind fun x => allocFrame x.2).isSome = true

instance (n : ℕ) (fr : Frames) : Decidable (FramesFor n fr) := by unfold FramesFor; infer_instance

theorem framesFor_zero (fr : Frames) :
    FramesFor 0 fr ↔ ∃ t fr₁ frame fr₂, allocOrder kstackOrder fr = some (t, fr₁) ∧ allocFrame fr₁ =
    some (frame, fr₂) := by
  rw [FramesFor, Slot.take, bind_some]
  cases ht : allocOrder kstackOrder fr with
  | none => simp
  | some x =>
    obtain ⟨t, fr₁⟩ := x
    cases hf : allocFrame fr₁ with
    | none => simp [hf]
    | some y =>
      obtain ⟨frame, fr₂⟩ := y
      simp [hf]

theorem enqueueThread_isSome (queue : List Thread) (t : Thread) :
    (enqueueThread queue t).isSome = true ↔ queue.length < queueCapacity := by
  unfold enqueueThread
  split <;> simp [*]

theorem startChild_fine_iff (hwf : s.WF) (hptr : s.procs ptr = some parent) (hroom : parent.childrenFull = false)
    (space : ℕ) :
    (∃ s' v, s.startChild ptr parent space = some (s', v) ∧ Records s s' ptr v) ↔
      FramesFor 0 s.kernel.frames ∧ TablesRoom s parent := by
  constructor
  · intro ⟨s', v, h, hrec⟩
    obtain ⟨t, fr, frame, fr', table, queue, ht, hf, htable, hqueue, rfl, rfl⟩ := startChild_inv h
    obtain ⟨hpos, frame', child, parent', hnone, hchild, hv, hthread, hfind, hparent, hcount, -⟩ := hrec
    have hpid : s.nextPid ≠ 0 := by
      intro h0
      rw [h0] at hpos
      cases hpos
    have heq : child.pid = s.nextPid := BitVec.eq_of_toNat_eq (by exact_mod_cast hv)
    -- the only process with a struct that was not there before is the child
    have hframe : frame' = frame := by
      rcases record_procs hchild with ⟨rfl, -⟩ | ⟨rfl, -⟩ | hold
      · rw [hptr] at hnone
        cases hnone
      · rfl
      · change s.procs frame' = _ at hold
        rw [hnone] at hold
        cases hold
    subst hframe
    rw [heq] at hfind hcount
    have hp : parent' = parent.addChild s.nextPid := by
      rw [record_procs_self] at hparent
      exact (some.inj hparent).symm
    rw [hp, addChild_of_room hroom, count_addChildSlot hroom hpid] at hcount
    refine ⟨(framesFor_zero _).2 ⟨t, fr, frame', fr', ht, hf⟩, ?_, ?_, ?_, hpid, ?_⟩
    · exact (registerProcess_isSome frame' _).1 (by rw [htable]; rfl)
    · exact (enqueueThread_isSome _ t).1 (by rw [hqueue]; rfl)
    · exact (find_ptableInsert ..).1 hfind
    · exact count_eq_zero.1 (by omega)
  · intro ⟨hframes, hslot, hlen, hptable, hpid, hnew⟩
    obtain ⟨t, fr, frame, fr', ht, hf⟩ := (framesFor_zero _).1 hframes
    obtain ⟨table, htable⟩ := isSome_iff_exists.1 ((registerProcess_isSome frame _).2 hslot)
    obtain ⟨queue, hqueue⟩ := isSome_iff_exists.1 ((enqueueThread_isSome _ t).2 hlen)
    obtain ⟨hgrows, -, -, hnone, hother⟩ := fresh_frames hwf ht hf
    have hne : frame ≠ ptr := by
      intro h
      rw [h, hptr] at hnone
      cases hnone
    refine ⟨(s.setFrames fr').record ptr frame parent ⟨s.nextPid, parent.pid, space, t,
      List.replicate maxChildren 0, 0⟩ table
      queue, s.nextPid.toNat, ?_, ?_, frame, ⟨s.nextPid, parent.pid, space, t, List.replicate maxChildren 0, 0⟩,
      parent.addChild s.nextPid, hnone, ?_, rfl, ?_, ?_, ?_, ?_, ?_⟩
    · simp [System.startChild, ht, hf, htable, hqueue]
    · have : s.nextPid.toNat ≠ 0 := fun h => hpid (BitVec.eq_of_toNat_eq h)
      omega
    · exact record_procs_child hne ..
    · apply processForThread_registered htable (record_procs_child hne ..)
      intro q p hq hp
      rcases record_procs hp with ⟨-, rfl⟩ | ⟨rfl, -⟩ | hold
      · rw [(addChild_keeps _ _).1]
        exact hother ptr parent hptr
      · have := hwf.table q hq
        rw [hnone] at this
        cases this
      · exact hother q p hold
    · exact (find_ptableInsert ..).2 hptable
    · exact record_procs_self ..
    · rw [addChild_of_room hroom, count_addChildSlot hroom hpid, count_eq_zero.2 hnew]
    · rw [addChild_of_room hroom, occupied_addChildSlot hroom hpid, hwf.count _ _ hptr]

/-! ## fork and clone -/

/-- when PCIDs are in use, one is free -/
def PcidRoom (p : Pcids) : Prop := p.enabled = true → ∃ i, 0 < i ∧ i < maxPcid ∧ p.used i = false

/-- fork has nothing to fail on after its check of the children list -/
def ForkRoom (s : System) (thread : Thread) : Prop :=
  ∀ ptr parent, s.processForThread thread = some (ptr, parent) → parent.childrenFull = true ∨
    TablesRoom s parent ∧ PcidRoom s.pcids ∧
      ∃ space, s.kernel.space parent.addressSpace = some space ∧ FramesFor (copyFrames space) s.kernel.frames

/-- clone has nothing to fail on after its checks -/
def CloneRoom (s : System) (thread : Thread) (flags : BitVec 32) (childStack : BitVec 64) : Prop :=
  if flags &&& cloneVm = 0 then ForkRoom s thread
  else childStack = 0 ∨ ∀ ptr parent, s.processForThread thread = some (ptr, parent) → parent.childrenFull = true ∨
    TablesRoom s parent ∧ FramesFor 0 s.kernel.frames

theorem give_isSome (p : Pcids) (a : ℕ) : (p.give a).isSome = true ↔ PcidRoom p := by
  unfold Pcids.give PcidRoom
  by_cases he : p.enabled = true
  · rw [if_pos he, isSome_map, Pcids.lowest, find?_isSome]
    constructor
    · intro ⟨i, hi, hfree⟩ _
      rw [mem_range'_1] at hi
      exact ⟨i, by omega, by omega, by simpa using hfree⟩
    · intro h
      obtain ⟨i, h0, hi, hfree⟩ := h he
      refine ⟨i, mem_range'_1.2 ⟨by omega, ?_⟩, by simpa using hfree⟩
      omega
  · rw [if_neg he]
    exact ⟨fun _ h => absurd h he, fun _ => rfl⟩

theorem fine_iff_records (hp : s.processForThread thread = some (ptr, parent)) {r : Option (System × ℤ)}
    (hv : ∀ s' v, r = some (s', v) → 0 ≤ v) :
    Fine s thread r ↔ ∃ s' v, r = some (s', v) ∧ Records s s' ptr v := by
  cases r with
  | none => simp [Fine]
  | some x =>
    obtain ⟨s', v⟩ := x
    constructor
    · intro h
      rcases h with ⟨ptr', parent', hp', hrec⟩ | ⟨hneg, -⟩
      · rw [hp] at hp'
        cases hp'
        exact ⟨s', v, rfl, hrec⟩
      · exact absurd (hv s' v rfl) (not_le.2 hneg)
    · intro ⟨s'', v', h, hrec⟩
      cases h
      exact .inl ⟨ptr, parent, hp, hrec⟩

theorem startChild_nonneg {space : ℕ} (h : s.startChild ptr parent space = some (s', v)) : 0 ≤ v := by
  obtain ⟨-, -, -, -, -, -, -, -, -, -, rfl, -⟩ := startChild_inv h
  exact Int.natCast_nonneg _

theorem fine_of_errno (h : v < 0) : Fine s thread (some (s, v)) := .inr ⟨h, rfl⟩

theorem framesFor_of_take {n : ℕ} {fr fr' : Frames} (h : Slot.take allocFrame n fr = some fr') :
    FramesFor n fr ↔ FramesFor 0 fr' := by
  rw [FramesFor, FramesFor, h, Slot.take]

theorem forall_parent_iff (hroom : parent.childrenFull = false) (P : Process → Prop) :
    (∀ q r, some (ptr, parent) = some (q, r) → r.childrenFull = true ∨ P r) ↔ P parent := by
  constructor
  · intro h
    rcases h ptr parent rfl with hfull | hP
    · rw [hroom] at hfull
      cases hfull
    · exact hP
  · intro hP q r h
    cases h
    exact .inr hP

theorem fork_fine_iff (hwf : s.WF) : Fine s thread (s.sysFork thread) ↔ ForkRoom s thread := by
  unfold System.sysFork ForkRoom
  cases hp : s.processForThread thread with
  | none => exact ⟨fun _ => nofun, fun _ => fine_of_errno (by decide)⟩
  | some x =>
    obtain ⟨ptr, parent⟩ := x
    have hproc := processForThread_mem hp
    obtain ⟨space, hspace⟩ := isSome_iff_exists.1 (hwf.space ptr parent hproc)
    have htake := forkCow_frames hspace
    cases hroom : parent.childrenFull with
    | true =>
      refine ⟨fun _ q r h => ?_, fun _ => ?_⟩
      · cases h
        exact .inl hroom
      · simp only [hroom]
        exact fine_of_errno (by decide)
    | false =>
      have hone : (∃ t, s.kernel.space parent.addressSpace = some t ∧ FramesFor (copyFrames t) s.kernel.frames) ↔
          FramesFor (copyFrames space) s.kernel.frames := by
        simp [hspace]
      rw [forall_parent_iff hroom, hone]
      simp only [hroom, Bool.false_eq_true, if_false]
      cases hfork : forkCow s.kernel parent.addressSpace with
      | none =>
        rw [hfork] at htake
        refine ⟨fun h => h.elim, fun ⟨_, _, h⟩ => ?_⟩
        rw [FramesFor, ← htake] at h
        cases h
      | some y =>
        obtain ⟨k, c⟩ := y
        rw [hfork] at htake
        obtain ⟨hlive, hkeep⟩ := forkCow_spaces hfork
        simp only [bind_eq_bind, bind_some]
        rw [framesFor_of_take htake.symm]
        cases hgive : s.pcids.give c with
        | none =>
          refine ⟨fun h => h.elim, fun ⟨_, h, _⟩ => ?_⟩
          rw [← give_isSome s.pcids c, hgive] at h
          cases h
        | some pcids =>
          have hpcid : PcidRoom s.pcids := (give_isSome s.pcids c).1 (by rw [hgive]; rfl)
          have hwf' := hwf.keep (grows_take htake.symm) hkeep pcids
          simp only [bind_some]
          rw [fine_iff_records hp fun _ _ => startChild_nonneg]
          have hiff := startChild_fine_iff hwf' hproc hroom c
          constructor
          · intro h
            obtain ⟨hframes, htables⟩ := hiff.1 h
            exact ⟨htables, hpcid, hframes⟩
          · intro ⟨htables, _, hframes⟩
            exact hiff.2 ⟨hframes, htables⟩

theorem incRef_inv {k k' : Kernel} {a : ℕ} (h : incRef k a = some k') :
    k'.frames = k.frames ∧ ∀ b, (k.space b).isSome = true → (k'.space b).isSome = true := by
  simp only [incRef, bind_eq_bind, bind_eq_some_iff, Option.pure_def, some.injEq] at h
  obtain ⟨t, ht, rfl⟩ := h
  refine ⟨rfl, fun b hb => ?_⟩
  by_cases hba : b = a
  · subst hba
    rw [space_setSpace_self ht]
    rfl
  · rw [space_setSpace_ne k hba]
    exact hb

theorem clone_fine_iff (hwf : s.WF) (flags : BitVec 32) (childStack : BitVec 64) :
    Fine s thread (s.sysClone thread flags childStack) ↔ CloneRoom s thread flags childStack := by
  unfold System.sysClone CloneRoom
  by_cases hvm : flags &&& cloneVm = 0
  · rw [if_pos hvm, if_pos hvm]
    exact fork_fine_iff hwf
  rw [if_neg hvm, if_neg hvm]
  by_cases hstack : childStack = 0
  · rw [if_pos hstack]
    exact ⟨fun _ => .inl hstack, fun _ => fine_of_errno (by decide)⟩
  rw [if_neg hstack, or_iff_right hstack]
  cases hp : s.processForThread thread with
  | none => exact ⟨fun _ => nofun, fun _ => fine_of_errno (by decide)⟩
  | some x =>
    obtain ⟨ptr, parent⟩ := x
    have hproc := processForThread_mem hp
    obtain ⟨space, hspace⟩ := isSome_iff_exists.1 (hwf.space ptr parent hproc)
    cases hroom : parent.childrenFull with
    | true =>
      refine ⟨fun _ q r h => ?_, fun _ => ?_⟩
      · cases h
        exact .inl hroom
      · simp only [hroom]
        exact fine_of_errno (by decide)
    | false =>
      rw [forall_parent_iff hroom]
      simp only [hroom, Bool.false_eq_true, if_false]
      obtain ⟨k, hk⟩ : ∃ k, incRef s.kernel parent.addressSpace = some k := by
        simp only [incRef, hspace]
        exact ⟨_, rfl⟩
      obtain ⟨hframes, hkeep⟩ := incRef_inv hk
      have hwf' := hwf.keep (k := k) (by rw [hframes]; exact fun _ h => h) hkeep s.pcids
      simp only [hk, bind_eq_bind, bind_some]
      rw [fine_iff_records hp fun _ _ => startChild_nonneg, ← hframes, and_comm]
      exact startChild_fine_iff hwf' hproc hroom parent.addressSpace

/-! ## Runs of fork and clone -/

inductive Call where
  | fork (thread : Thread)
  | clone (thread : Thread) (flags : BitVec 32) (childStack : BitVec 64)

def System.call (s : System) : Call → Option (System × ℤ)
  | .fork thread => s.sysFork thread
  | .clone thread flags childStack => s.sysClone thread flags childStack

def step (s : System) (c : Call) : Option System := (s.call c).map Prod.fst

def run (s : System) (calls : List Call) : Option System := calls.foldlM step s

/-- what a call that returns has done: nothing, or an address space for the child and then the common tail -/
inductive Called (s s' : System) (v : ℤ) : Prop where
  | refused (h : s' = s)
  | started (k : Kernel) (pcids : Pcids) (ptr : ProcPtr) (parent : Process) (space : ℕ)
      (grows : Grows s.kernel.frames k.frames) (keeps : ∀ b, (s.kernel.space b).isSome = true → (k.space b).isSome = true)
      (live : (k.space space).isSome = true) (proc : s.procs ptr = some parent) (room : parent.childrenFull = false)
      (start : System.startChild { s with kernel := k, pcids := pcids } ptr parent space = some (s', v))

theorem sysFork_called (hwf : s.WF) (h : s.sysFork thread = some (s', v)) : Called s s' v := by
  unfold System.sysFork at h
  cases hp : s.processForThread thread with
  | none =>
    rw [hp] at h
    cases h
    exact .refused rfl
  | some x =>
    obtain ⟨ptr, parent⟩ := x
    simp only [hp] at h
    cases hroom : parent.childrenFull with
    | true =>
      rw [hroom] at h
      cases h
      exact .refused rfl
    | false =>
      rw [hroom, if_neg Bool.false_ne_true] at h
      simp only [bind_eq_bind, bind_eq_some_iff, Prod.exists] at h
      obtain ⟨k, c, hfork, pcids, -, hstart⟩ := h
      have hproc := processForThread_mem hp
      obtain ⟨space, hspace⟩ := isSome_iff_exists.1 (hwf.space ptr parent hproc)
      obtain ⟨hlive, hkeep⟩ := forkCow_spaces hfork
      have htake := forkCow_frames hspace
      rw [hfork] at htake
      exact .started k pcids ptr parent c (grows_take htake.symm) hkeep hlive hproc hroom hstart

theorem sysClone_called {flags : BitVec 32} {childStack : BitVec 64} (hwf : s.WF)
    (h : s.sysClone thread flags childStack = some (s', v)) : Called s s' v := by
  unfold System.sysClone at h
  by_cases hvm : flags &&& cloneVm = 0
  · rw [if_pos hvm] at h
    exact sysFork_called hwf h
  rw [if_neg hvm] at h
  by_cases hstack : childStack = 0
  · rw [if_pos hstack] at h
    cases h
    exact .refused rfl
  rw [if_neg hstack] at h
  cases hp : s.processForThread thread with
  | none =>
    rw [hp] at h
    cases h
    exact .refused rfl
  | some x =>
    obtain ⟨ptr, parent⟩ := x
    simp only [hp] at h
    cases hroom : parent.childrenFull with
    | true =>
      rw [hroom] at h
      cases h
      exact .refused rfl
    | false =>
      rw [hroom, if_neg Bool.false_ne_true] at h
      simp only [bind_eq_bind, bind_eq_some_iff] at h
      obtain ⟨k, hk, hstart⟩ := h
      have hproc := processForThread_mem hp
      obtain ⟨hframes, hkeep⟩ := incRef_inv hk
      have hgrows : Grows s.kernel.frames k.frames := by
        rw [hframes]
        exact fun _ h => h
      exact .started k s.pcids ptr parent _ hgrows hkeep (hkeep _ (hwf.space ptr parent hproc)) hproc hroom hstart

theorem step_called (hwf : s.WF) {c : Call} (h : step s c = some s') : ∃ v, Called s s' v := by
  obtain ⟨⟨s', v⟩, hc, rfl⟩ := map_eq_some_iff.1 h
  cases c with
  | fork thread => exact ⟨v, sysFork_called hwf hc⟩
  | clone thread flags childStack => exact ⟨v, sysClone_called hwf hc⟩

theorem wf_step (hwf : s.WF) (hpid : s.nextPid ≠ 0) {c : Call} (h : step s c = some s') :
    s'.WF ∧ (s'.nextPid = s.nextPid ∨ s'.nextPid = s.nextPid + 1) := by
  obtain ⟨v, hcalled⟩ := step_called hwf h
  cases hcalled with
  | refused h =>
    subst h
    exact ⟨hwf, .inl rfl⟩
  | started k pcids ptr parent space grows keeps live proc room start =>
    refine ⟨wf_startChild (hwf.keep grows keeps pcids) proc room live hpid start, .inr ?_⟩
    obtain ⟨-, -, -, -, -, -, -, -, -, -, -, rfl⟩ := startChild_inv start
    rfl

/-- **Runs.** As long as the pid counter has not wrapped, every state reached by fork and clone is well-formed. -/
theorem wf_run {calls : List Call} (hwf : s.WF) (hpid : 0 < s.nextPid.toNat)
    (hlen : s.nextPid.toNat + calls.length < 2 ^ 32) (h : run s calls = some s') : s'.WF := by
  refine (foldlM_inv (fun cs s => s.WF ∧ 0 < s.nextPid.toNat ∧ s.nextPid.toNat + cs.length < 2 ^ 32) ?_
    ⟨hwf, hpid, hlen⟩ h).1
  intro c cs s s' ⟨hwf, hpid, hlen⟩ hstep
  have hne : s.nextPid ≠ 0 := by
    intro h0
    rw [h0] at hpid
    cases hpid
  rw [length_cons] at hlen
  obtain ⟨hwf', hnext | hnext⟩ := wf_step hwf hne hstep
  · rw [hnext]
    exact ⟨hwf', hpid, by omega⟩
  · have hadd : s'.nextPid.toNat = s.nextPid.toNat + 1 := by
      have hone : (1 : Pid).toNat = 1 := rfl
      rw [hnext]
      exact Nat.mod_eq_of_lt (by omega)
    exact ⟨hwf', by omega, by omega⟩

/-! ## The main result -/

/-- **A child is recorded everywhere or not at all.** In a well-formed state fork and clone return a positive pid with the
child in all three tables, or an errno with nothing changed, exactly when they fail their checks at the start or there is
room for the child in every table, a new pid, a PCID and the frames. -/
theorem children_recorded_iff (s : System) (hwf : s.WF) (thread : Thread) :
    (Fine s thread (s.sysFork thread) ↔ ForkRoom s thread) ∧
      ∀ flags childStack, Fine s thread (s.sysClone thread flags childStack) ↔ CloneRoom s thread flags childStack :=
  ⟨fork_fine_iff hwf, clone_fine_iff hwf⟩

/-- one process, in an address space without pages; the allocator will return `answers` -/
def oneProcess (answers : List Pfn) : System where
  kernel :=
    { Kernel.new answers emptyFiles with
      spaces := [some (emptySpace 1 (List.replicate maxVmas none) mmapBase)]
      frames := ⟨answers, fun f => decide (f.toNat < 16), [], false⟩ }
  procs := fun f => if f = 2 then some ⟨1, 0, 0, 8, List.replicate maxChildren 0, 0⟩ else none
  processTable := some 2 :: List.replicate 63 none
  ptable := ptableInsert (Table.empty ptableBucket 16 ProcPtr) 1 2
  nextPid := 2
  pcids := ⟨false, fun _ => false, fun _ => 0⟩
  queue := []

theorem wf_oneProcess (answers : List Pfn) : (oneProcess answers).WF := by
  have hone : ∀ f p, (oneProcess answers).procs f = some p → f = 2 ∧
    p = ⟨1, 0, 0, 8, List.replicate maxChildren 0, 0⟩ := by
    intro f p h
    change (if f = 2 then some _ else none) = some p at h
    by_cases hf : f = 2
    · rw [if_pos hf] at h
      exact ⟨hf, (some.inj h).symm⟩
    · rw [if_neg hf] at h
      cases h
  refine ⟨?_, ?_, ?_, ?_, ?_⟩
  · intro f hf
    have : f = 2 := by simpa [oneProcess] using hf
    rw [this]
    rfl
  · intro f p h
    rw [(hone f p h).1]
    rfl
  · intro f p h
    rw [(hone f p h).2]
    rfl
  · intro f p h
    rw [(hone f p h).2]
    rfl
  · intro f p h
    rw [(hone f p h).2]
    exact (occupied_replicate maxChildren).symm

/-- a stack and a struct for each of `n` threads -/
def threadFrames (n : ℕ) : List Pfn := (List.range n).flatMap fun i => [BitVec.ofNat 36 (16 + 8 * i),
  BitVec.ofNat 36 (1000 + i)]

/-- with four frames free, one process can fork and clone -/
theorem first_child_recorded :
    ∃ s : System, s.WF ∧ s.processForThread 8 = some (2, ⟨1, 0, 0, 8, List.replicate maxChildren 0, 0⟩) ∧
      Fine s 8 (s.sysFork 8) ∧ Fine s 8 (s.sysClone 8 cloneVm 1) := by
  have hp : (oneProcess [16, 24, 32, 40]).processForThread 8 =
    some (2, ⟨1, 0, 0, 8, List.replicate maxChildren 0, 0⟩) := by
    decide +kernel
  have htables : TablesRoom (oneProcess [16, 24, 32, 40]) ⟨1, 0, 0, 8, List.replicate maxChildren 0, 0⟩ := by
    decide +kernel
  have hfork : ForkRoom (oneProcess [16, 24, 32, 40]) 8 := by
    intro ptr parent h
    cases h
    refine .inr ⟨htables, nofun, _, rfl, ?_⟩
    decide +kernel
  have hclone : CloneRoom (oneProcess [16, 24, 32, 40]) 8 cloneVm 1 := by
    refine .inr fun ptr parent h => ?_
    cases h
    exact .inr ⟨htables, by decide +kernel⟩
  obtain ⟨hfork_iff, hclone_iff⟩ := children_recorded_iff _ (wf_oneProcess [16, 24, 32, 40]) 8
  refine ⟨oneProcess [16, 24, 32, 40], wf_oneProcess _, hp, ?_, ?_⟩
  · rw [hfork_iff]
    exact hfork
  · rw [hclone_iff]
    exact hclone

/-- PROCESS_TABLE is full after the first process has made 32 threads and one of them 31 -/
def fullTable : Option System :=
  run (oneProcess (threadFrames 63 ++ [2000, 2001, 2008, 2016]))
    (List.replicate 32 (.clone 8 cloneVm 1) ++ List.replicate 31 (.clone 16 cloneVm 1))

/-- **The 65th process is a panic.** Its parent has no children, and the frames it needs are free. -/
theorem fork_process_table_full :
    ∃ s, fullTable = some s ∧ s.WF ∧ (∃ ptr parent, s.processForThread 24 = some (ptr, parent) ∧ parent.childCount = 0) ∧
      FramesFor 2 s.kernel.frames ∧ s.sysFork 24 = none ∧ ¬ Fine s 24 (s.sysFork 24) := by
  refine exists_of_check (fun s => (∃ x, s.processForThread 24 = some x ∧ x.2.childCount = 0) ∧
    FramesFor 2 s.kernel.frames ∧
    s.sysFork 24 = none) (by decide +kernel) fun s hs ⟨⟨⟨ptr, parent⟩, hp, hzero⟩, hframes, hpanic⟩ => ?_
  refine ⟨wf_run (wf_oneProcess _) (by decide) (by decide) hs, ⟨ptr, parent, hp, hzero⟩, hframes, hpanic, ?_⟩
  rw [hpanic]
  exact id

end Rumicos.Proc.Processes
