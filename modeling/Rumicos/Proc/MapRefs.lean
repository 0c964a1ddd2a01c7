/-
The vnode references that file mappings hold.

`sys_mmap` takes a reference for a file mapping and `munmap` gives it back. Fork copies the areas without taking
references, and dropping the last reference to an address space forgets its areas without giving references back.

- `fileAreas k v`: the live areas of vnode v, in all address spaces.
-/
import Rumicos.Proc.Runs

namespace Rumicos.Proc

open Paging Memory Lib Fs Function List Option Vma

/-! ## Counting areas -/

/-- is the area a mapping of vnode `v`? -/
def Vma.names (v : ℕ) (vma : Vma) : Bool :=
  match vma.backing with
  | .file w _ _ => decide (w = v)
  | .anonymous => false

/-- the areas of vnode `v` among the slots -/
def slotsNaming (v : ℕ) (vmas : List (Option Vma)) : ℕ := (vmas.map fun o => (o.any (Vma.names v)).toNat).sum

/-- the areas of vnode `v` in the address spaces with these cores -/
def areasNaming (v : ℕ) (cs : List (Option Core)) : ℕ := (cs.map fun o => o.elim 0 fun c => slotsNaming v c.vmas).sum

/-- the live areas of vnode `v`, in all address spaces -/
def fileAreas (k : Kernel) (v : ℕ) : ℕ := areasNaming v k.cores

theorem areasNaming_append (v : ℕ) (cs : List (Option Core)) (c : Core) :
    areasNaming v (cs ++ [some c]) = areasNaming v cs + slotsNaming v c.vmas := by
  simp [areasNaming]

variable {a : ℕ} {vnodes0 : ℕ → VNode} {k k' : Kernel}

theorem areasNaming_set {v : ℕ} {cs : List (Option Core)} {c : Core} (h : cs[a]? = some (some c)) (x : Option Core) :
    areasNaming v (cs.set a x) + slotsNaming v c.vmas = areasNaming v cs + x.elim 0 fun c => slotsNaming v c.vmas :=
  sum_map_set cs a (some c) x (fun o => o.elim 0 fun c => slotsNaming v c.vmas) h

theorem fileAreas_set {s : AddressSpace} (hs : k.space a = some s) (x : Option AddressSpace) (v : ℕ) :
    areasNaming v ((k.spaces.set a x).map (·.map AddressSpace.core)) + slotsNaming v s.vmas =
      fileAreas k v + x.elim 0 fun t => slotsNaming v t.vmas := by
  rw [map_set]
  refine (areasNaming_set (mem_cores hs) _).trans ?_
  cases x <;> rfl

theorem Vma.names_file {vma : Vma} {v fo : ℕ} {shared : Bool} (hb : vma.backing = .file v fo shared) (w : ℕ) :
    ((vma.names w).toNat : ℤ) = if v = w then 1 else 0 := by
  simp only [names, hb]
  by_cases hvw : v = w <;> simp [hvw]

theorem slotsNaming_none (v : ℕ) : slotsNaming v (List.replicate maxVmas none) = 0 := by
  simp [slotsNaming]

theorem slotsNaming_mmap {vmas : List (Option Vma)} {next len : ℕ} {flags : PageFlags} {backing : Backing}
    {m : ℕ × List (Option Vma) × ℕ} (h : mmap vmas next len flags backing = some m) (v : ℕ) :
    slotsNaming v m.2.1 = slotsNaming v vmas + (Vma.names v ⟨m.1, m.1 + len, flags, backing⟩).toNat := by
  obtain ⟨slot, -, -, hslot, -, -, -, -, hset, -⟩ := mmap_spec h
  rw [hset]
  have := sum_map_set vmas slot none (some ⟨m.1, m.1 + len, flags, backing⟩) (fun o => (o.any (names v)).toNat) hslot
  simpa [slotsNaming] using this

theorem slotsNaming_clear {vmas : List (Option Vma)} {slot : ℕ} {vma : Vma} (h : vmas[slot]? = some (some vma)) (v : ℕ) :
    slotsNaming v (vmas.set slot none) + (vma.names v).toNat = slotsNaming v vmas := by
  have := sum_map_set vmas slot (some vma) none (fun o => (o.any (names v)).toNat) h
  simpa [slotsNaming] using this

/-! ## The references -/

/-- a vnode at boot and now: the mappings hold `n` references -/
def HoldsRefs (vn0 vn : VNode) (n : ℤ) : Prop :=
  vn.mapRefs = n ∧ (vn.refcount : ℤ) ≡ vn0.refcount + n [ZMOD 2 ^ 32]

/-- the references of all vnodes are those of the live areas -/
def RefsMatch (vnodes0 : ℕ → VNode) (k : Kernel) : Prop := ∀ v, HoldsRefs (vnodes0 v) (k.vnodes v) (fileAreas k v)

/-- the same references -/
def SameRefs (vnodes vnodes' : ℕ → VNode) : Prop :=
  ∀ v, (vnodes' v).mapRefs = (vnodes v).mapRefs ∧ (vnodes' v).refcount = (vnodes v).refcount

theorem sameRefs_vnodeWrite {st st' : Store} {v off : ℕ} {buf : List UInt8} (h : vnodeWrite st v buf off = some st') :
    SameRefs st.vnodes st'.vnodes := by
  obtain rfl := vnodeWrite_eq h
  intro w
  by_cases hw : w = v
  · subst hw
    simp [ramfsWrite]
  · simp [update_of_ne hw]

theorem sameRefs_writebackLoop (v vsize : ℕ) (es : List ((ℕ × ℕ) × CacheEntry)) (st : Store) :
    SameRefs st.vnodes (writebackLoop v vsize es st).vnodes := by
  induction es generalizing st with
  | nil => exact fun _ => ⟨rfl, rfl⟩
  | cons x es ih =>
    obtain ⟨key, e⟩ := x
    rw [writebackLoop]
    split_ifs
    · exact ih st
    · exact ih (clearDirty st key)
    · split
      · exact fun _ => ⟨rfl, rfl⟩
      · rename_i st' hw
        intro w
        obtain ⟨h1, h2⟩ := sameRefs_vnodeWrite hw w
        obtain ⟨h3, h4⟩ := ih (clearDirty st' key) w
        exact ⟨h3.trans h1, h4.trans h2⟩

theorem sameRefs_afterWriteback (k : Kernel) (vma : Vma) : SameRefs k.vnodes (afterWriteback k vma).vnodes := by
  unfold afterWriteback
  split
  · exact sameRefs_writebackLoop _ _ _ _
  · exact fun _ => ⟨rfl, rfl⟩

theorem HoldsRefs.congr {vn0 vn vn' : VNode} {n : ℤ} (h : HoldsRefs vn0 vn n) (h1 : vn'.mapRefs = vn.mapRefs)
    (h2 : vn'.refcount = vn.refcount) : HoldsRefs vn0 vn' n := by
  rw [HoldsRefs, h1, h2]
  exact h

theorem refsMatch_congr (h : RefsMatch vnodes0 k) (hv : SameRefs k.vnodes k'.vnodes)
    (hn : ∀ v, fileAreas k' v = fileAreas k v) : RefsMatch vnodes0 k' := by
  intro v
  rw [hn v]
  exact (h v).congr (hv v).1 (hv v).2

theorem holdsRefs_inc {n : ℕ → ℤ} (v : ℕ) (h : ∀ w, HoldsRefs (vnodes0 w) (k.vnodes w) (n w)) (w : ℕ) :
    HoldsRefs (vnodes0 w) ((vnodeIncRef k v).vnodes w) (n w + if v = w then 1 else 0) := by
  obtain ⟨h1, h2⟩ := h w
  by_cases hw : w = v
  · subst hw
    simp only [vnodeIncRef, update_self, HoldsRefs, if_true, h1, true_and]
    push_cast
    refine (Int.mod_modEq _ _).trans ?_
    rw [← add_assoc]
    exact h2.add_right 1
  · rw [if_neg (Ne.symm hw), add_zero]
    simp only [vnodeIncRef, update_of_ne hw]
    exact ⟨h1, h2⟩

theorem holdsRefs_dec {n : ℕ → ℤ} (v : ℕ) (h : ∀ w, HoldsRefs (vnodes0 w) (k.vnodes w) (n w)) (w : ℕ) :
    HoldsRefs (vnodes0 w) ((vnodeDecRef k v).vnodes w) (n w - if v = w then 1 else 0) := by
  obtain ⟨h1, h2⟩ := h w
  by_cases hw : w = v
  · subst hw
    simp only [vnodeDecRef, update_self, HoldsRefs, if_true, h1, true_and]
    rw [Int.natCast_mod, Nat.cast_sub (by omega)]
    refine (Int.mod_modEq _ _).trans ?_
    have h3 : ((k.vnodes w).refcount : ℤ) + 2 ^ 32 - 1 ≡ (k.vnodes w).refcount - 1 [ZMOD 2 ^ 32] := by
      have : ((k.vnodes w).refcount : ℤ) + 2 ^ 32 - 1 = (k.vnodes w).refcount - 1 + 2 ^ 32 := by ring
      rw [this]
      exact Int.add_modEq_right
    refine h3.trans ?_
    rw [← add_sub_assoc]
    exact h2.sub_right 1
  · rw [if_neg (Ne.symm hw), sub_zero]
    simp only [vnodeDecRef, update_of_ne hw]
    exact ⟨h1, h2⟩

/-! ## Runs -/

/-- no area is a file mapping -/
def AddressSpace.noFiles (s : AddressSpace) : Bool := s.vmas.all fun o => o.all fun vma =>
  decide (vma.backing = .anonymous)

/-- the last reference goes only when no area is a file mapping -/
def dropsNoFiles (k : Kernel) (a : ℕ) : Bool := (k.space a).all fun s => !decide (s.refcount = 1) || s.noFiles

/-- no fork of, and no last reference dropped to, an address space with a file area -/
def RefsOk (k : Kernel) : Op → Prop
  | .fork a => (k.space a).all AddressSpace.noFiles = true
  | .execve a _ => dropsNoFiles k a = true
  | .exit a => dropsNoFiles k a = true
  | _ => True

instance (k : Kernel) (op : Op) : Decidable (RefsOk k op) := by
  induction op using Op.casesOn <;> unfold RefsOk <;> infer_instance

theorem slotsNaming_noFiles {s : AddressSpace} (h : s.noFiles = true) (v : ℕ) : slotsNaming v s.vmas = 0 := by
  refine sum_eq_zero fun n hn => ?_
  obtain ⟨o, ho, rfl⟩ := mem_map.1 hn
  rcases o with _ | vma
  · rfl
  · have hvma : vma.backing = .anonymous := by simpa using all_eq_true.1 h _ ho
    simp [names, hvma]

theorem refsMatch_loaded {c : ℕ} (h : RefsMatch vnodes0 k) (hl : Loaded k k' c) : RefsMatch vnodes0 k' := by
  obtain ⟨f, hc⟩ := hl.cores
  refine refsMatch_congr h (fun v => by rw [hl.vnodes]; exact ⟨rfl, rfl⟩) fun v => ?_
  rw [fileAreas, hc, areasNaming_append, slotsNaming_none]
  rfl

theorem refsMatch_dropRef (h : RefsMatch vnodes0 k) (hok : dropsNoFiles k a = true) (hd : dropRef k a = some k') :
    RefsMatch vnodes0 k' := by
  obtain ⟨s, hs, ⟨hr, own, -, rfl⟩ | ⟨hr, rfl⟩⟩ := dropRef_cases hd
  · refine refsMatch_congr h (fun _ => ⟨rfl, rfl⟩) fun v => ?_
    have hno : s.noFiles = true := by simpa [dropsNoFiles, hs, hr] using hok
    have hset := fileAreas_set hs none v
    rw [slotsNaming_noFiles hno] at hset
    exact hset
  · exact refsMatch_congr h (fun _ => ⟨rfl, rfl⟩) fun v => Nat.add_right_cancel (fileAreas_set hs (some _) v)

theorem refsMatch_access {addr : ℕ} {w : Bool} {r : Option Pfn} (h : RefsMatch vnodes0 k) (ha : Access k a addr w k' r) :
    RefsMatch vnodes0 k' := by
  obtain ⟨-, hc, hv, -⟩ := access_frame ha
  exact refsMatch_congr h (fun v => by rw [hv]; exact ⟨rfl, rfl⟩) fun v => by rw [fileAreas, hc]; rfl

theorem refsMatch_sysMmap {length : ℕ} {prot : Prot} {req : MapRequest} {r : Option ℕ} (h : RefsMatch vnodes0 k)
    (hm : sysMmap k a length prot req = some (k', r)) : RefsMatch vnodes0 k' := by
  obtain ⟨s, hs, ⟨-, rfl⟩ | ⟨-, v, rfl⟩ | ⟨len, m, -, hmap, -, rfl⟩⟩ := sysMmap_cases hm
  · exact h
  · -- the rollback gives the reference back
    intro w
    have h1 := holdsRefs_dec v (holdsRefs_inc v h) w
    rw [add_sub_cancel_right] at h1
    exact h1
  · intro w
    have hset : areasNaming w (k.cores.set a (some { s.core with vmas := m.2.1, mmapNext := m.2.2 })) +
        slotsNaming w s.vmas = fileAreas k w + slotsNaming w m.2.1 := areasNaming_set (mem_cores hs) _
    have hslots := slotsNaming_mmap hmap w
    have hcores : fileAreas ((afterIncRef k req).setSpace a { s with vmas := m.2.1, mmapNext := m.2.2 }) w =
        areasNaming w (k.cores.set a (some { s.core with vmas := m.2.1, mmapNext := m.2.2 })) := by
      rw [fileAreas, Kernel.cores, Kernel.setSpace, map_set, afterIncRef_eq]
      rfl
    rw [hcores]
    have hn : areasNaming w (k.cores.set a (some { s.core with vmas := m.2.1, mmapNext := m.2.2 })) =
        fileAreas k w + (names w ⟨m.1, m.1 + len, protToPageFlags prot, req.backing⟩).toNat := by
      omega
    rw [hn]
    cases req with
    | anonymous =>
      exact h w
    | file v off shared canWrite =>
      push_cast
      rw [names_file rfl]
      exact holdsRefs_inc v h w

theorem refsMatch_munmap {addr len : ℕ} {b : Bool} (hk : AreasInv k) (h : RefsMatch vnodes0 k)
    (hm : munmap k a addr len = some (k', b)) : RefsMatch vnodes0 k' := by
  obtain ⟨s, hs, rfl | ⟨slot, vma, hmm⟩⟩ := munmap_spec hk hm
  · exact h
  intro w
  have hset : areasNaming w (k.cores.set a (some { s.core with vmas := s.vmas.set slot none })) + slotsNaming w s.vmas =
      fileAreas k w + slotsNaming w (s.vmas.set slot none) := areasNaming_set (mem_cores hs) _
  have hslots := slotsNaming_clear hmm.area w
  have hn : (fileAreas k' w : ℤ) = fileAreas k w - (vma.names w).toNat := by
    rw [fileAreas, hmm.cores]
    omega
  have hback : ∀ w, HoldsRefs (vnodes0 w) ((afterWriteback k vma).vnodes w) (fileAreas k w) := fun w =>
    (h w).congr (sameRefs_afterWriteback k vma w).1 (sameRefs_afterWriteback k vma w).2
  rw [hn, hmm.vnodes, afterDecRef]
  split
  · rename_i v fo shared hb
    rw [names_file hb]
    exact holdsRefs_dec v hback w
  · rename_i hb
    rw [show vma.names w = false by simp only [names, hb]]
    exact hback w

/-- **Every operation within `RefsOk` keeps references and areas equal.** -/
theorem step_refs {op : Op} (hk : Shape k) (h : RefsMatch vnodes0 k) (hok : RefsOk k op) (hstep : step k op = some k') :
    RefsMatch vnodes0 k' := by
  cases step_cases hk.areas hstep with
  | create hl hp =>
    have h1 := refsMatch_loaded h (loadImage_spec hl)
    exact h1
  | @fork a c k1 hf hp =>
    obtain ⟨s, hs, hfk⟩ := forkCow_spec hf
    obtain ⟨f, hc⟩ := hfk.cores
    have hno : s.noFiles = true := by
      have : (k.space a).all AddressSpace.noFiles = true := hok
      simpa [hs] using this
    have h1 : RefsMatch vnodes0 k1 := by
      refine refsMatch_congr h (fun v => by rw [hfk.vnodes]; exact ⟨rfl, rfl⟩) fun v => ?_
      rw [fileAreas, hc, areasNaming_append]
      exact congrArg (areasNaming v k.cores + ·) (slotsNaming_noFiles hno v)
    exact h1
  | @clone a s hs hp =>
    exact refsMatch_congr h (fun _ => ⟨rfl, rfl⟩) fun v => Nat.add_right_cancel (fileAreas_set hs (some _) v)
  | @execve a c img s k1 _ hs hl hd =>
    have hld := loadImage_spec hl
    refine refsMatch_dropRef (refsMatch_loaded h hld) ?_ hd
    rw [dropsNoFiles, hld.kept hs]
    exact hok
  | exit hd =>
    have h1 := refsMatch_dropRef h hok hd
    exact h1
  | mmap hm => exact refsMatch_sysMmap h hm
  | munmap hm => exact refsMatch_munmap hk.areas h hm
  | munmapRefused | writeFailed => exact h
  | load haddr ha | storeKilled haddr ha => exact refsMatch_access h ha
  | store haddr ha hs =>
    have h1 := refsMatch_access h ha
    exact h1
  | write hlen hw => exact refsMatch_congr h (sameRefs_vnodeWrite hw) fun _ => rfl

/-- **References and areas agree.** In every state of every run within `RefsOk`, the references taken for file mappings
and not given back are the live file areas, for every vnode, and `VNode::refcount` is its value at boot plus them. -/
theorem mapRefs_exact (answers : List Pfn) (vnodes : ℕ → VNode) (h0 : ∀ v, (vnodes v).mapRefs = 0) (ops : List Op)
    (k : Kernel) (hok : Meets step RefsOk (Kernel.new answers vnodes) ops)
    (hrun : run (Kernel.new answers vnodes) ops = some k) (v : ℕ) :
    (k.vnodes v).mapRefs = fileAreas k v ∧
      ((k.vnodes v).refcount : ℤ) ≡ (vnodes v).refcount + fileAreas k v [ZMOD 2 ^ 32] :=
  (run_inv (fun k => Shape k ∧ RefsMatch vnodes k)
    (fun _ _ _ hI hC hs => ⟨step_shape hI.1 hs, step_refs hI.1 hI.2 hC hs⟩)
    ⟨shape_new answers vnodes, fun v => ⟨h0 v, by
      rw [show fileAreas (Kernel.new answers vnodes) v = 0 from rfl, Nat.cast_zero, add_zero]
      exact Int.ModEq.rfl⟩⟩ hok hrun).2 v

/-- a process forks, the parent maps a file twice and removes one of the mappings, and the child exits -/
def mapTwiceOps : List Op :=
  [.create bareImage, .fork 0, .mmap 0 4096 ⟨false, false⟩ (.file directMapBase 0 false false),
    .mmap 0 4096 ⟨false, false⟩ (.file directMapBase 4096 false false), .munmap 0 mmapBase 4096, .exit 1]

/-- one area is left, and one reference -/
theorem mapRefs_exact_mapTwice :
    ∃ k, run smallKernel mapTwiceOps = some k ∧ (k.vnodes directMapBase).mapRefs = fileAreas k directMapBase ∧
      fileAreas k directMapBase = 1 := by
  obtain ⟨hmeets, k, hk, hone⟩ : Meets step RefsOk smallKernel mapTwiceOps ∧
      ∃ k, run smallKernel mapTwiceOps = some k ∧ fileAreas k directMapBase = 1 := by decide +kernel
  exact ⟨k, hk, (mapRefs_exact _ _ (fun _ => rfl) mapTwiceOps k hmeets hk directMapBase).1, hone⟩

/-- a process maps a file and exits -/
def mapExitOps : List Op :=
  [.create bareImage, .mmap 0 4096 ⟨false, false⟩ (.file directMapBase 0 false false), .exit 0]

/-- **A reference is lost**: no area is left, and one reference was not given back. -/
theorem mapRefs_leak :
    ∃ k, run smallKernel mapExitOps = some k ∧ fileAreas k directMapBase = 0 ∧
      (k.vnodes directMapBase).mapRefs = 1 ∧ (k.vnodes directMapBase).refcount = 2 := by
  decide +kernel

end Rumicos.Proc
