/-
Rules about every present leaf entry: its WRITABLE bit, its COW bit and the mapping that created its page.

- `Leaves P k`: every present entry of every address space satisfies P.
- `leaves_edit`, `leaves_loadImage`, `leaves_forkCow`, `leaves_access`, ...: what P has to satisfy for each way the
  kernel writes an entry; `step_leaves` joins them. None of this needs room in COW_TABLE.
-/
import Rumicos.Proc.Runs

namespace Rumicos.Proc

open Paging Memory Lib Fs List Option AddressSpace

/-! ## Rules about entries -/

/-- a rule about an entry: is it writable, is it COW, and which mapping created the page -/
abbrev LeafRule := Bool → Bool → Option Origin → Prop

/-- every present entry of the address space satisfies the rule -/
def AddressSpace.Obeys (P : LeafRule) (s : AddressSpace) : Prop :=
  ∀ p l, s.leaf p = some l → P l.isWritable l.isCow (s.origin p)

/-- every present entry satisfies the rule -/
def Leaves (P : LeafRule) (k : Kernel) : Prop := ∀ a s, k.space a = some s → s.Obeys P

variable {b : Bool} {op : Op}

section Rules

variable {P : LeafRule} {k k' : Kernel} {a : ℕ} {s s' : AddressSpace}

theorem leaves_congr (h : Leaves P k) (hs : k'.spaces = k.spaces) : Leaves P k' := by
  intro b t ht
  rw [Kernel.space, hs] at ht
  exact h b t ht

theorem leaves_setSpace (h : Leaves P k) (hs : k.space a = some s) (hs' : s'.Obeys P) : Leaves P (k.setSpace a s') := by
  intro b t ht
  rcases space_setSpace_cases hs ht with ⟨-, rfl⟩ | ⟨-, ht⟩
  · exact hs'
  · exact h b t ht

theorem obeys_congr (h : s.Obeys P) (hp : s'.pml4 = s.pml4) (ho : s'.origin = s.origin) : s'.Obeys P := by
  intro p l hl
  rw [ho]
  refine h p l ?_
  rw [leaf, hp] at hl
  exact hl

theorem leaves_edit {j : Kernel} {p : UPage} {x : Option Leaf} {o : Option Origin} (h : Leaves P k)
    (he : Edited j a p x o k') (hj : j.spaces = k.spaces) (hx : ∀ l, x = some l → P l.isWritable l.isCow o) :
    Leaves P k' := by
  replace h : Leaves P j := leaves_congr h hj
  obtain ⟨s0, s1, hs0, hs1, hed⟩ := he.space
  intro b t ht q m hm
  by_cases hb : b = a
  · subst hb
    cases hs1.symm.trans ht
    rw [hed.leaf] at hm
    rw [hed.origin]
    split_ifs at hm with hq
    · subst hq
      rw [Function.update_self]
      exact hx m hm
    · rw [Function.update_of_ne hq]
      exact h b s0 hs0 q m hm
  · rw [he.others b hb] at ht
    exact h b t ht q m hm

theorem leaves_mapPage {j : Kernel} {p : UPage} {f : Pfn} {flags : PageFlags} {o : Option Origin} {w c : Bool}
    (h : Leaves P k) (hm : mapPage j a p f flags o = some k') (hj : j.spaces = k.spaces)
    (hb : PageBits flags w c) (hP : P w c o) : Leaves P k' := by
  obtain ⟨l, hl, -, hlc, hlw, -⟩ := leafOf_newPage f hb.present
  refine leaves_edit h (mapPage_edited hm) hj fun m hm => ?_
  rw [hl] at hm
  cases hm
  rw [hlw, hlc, hb.writable, hb.cow]
  exact hP

/-! ## Building and copying address spaces -/

theorem obeys_empty (f : Pfn) (vmas : List (Option Vma)) (next : ℕ) : (emptySpace f vmas next).Obeys P := by
  intro p l hl
  cases hl

theorem leaves_addSpace (h : Leaves P k) (frames : Frames) (hs : s.Obeys P) : Leaves P (addSpace k frames s) := by
  intro b t ht
  rcases space_addSpace_cases ht with ⟨-, rfl⟩ | ht
  · exact hs
  · exact h b t ht

theorem leaves_allocShared (h : Leaves P k) (ha : allocShared k a = some k') : Leaves P k' := by
  obtain ⟨t, f, frames, ht, -, rfl⟩ := allocShared_spec ha
  exact leaves_setSpace (leaves_congr h rfl) (by exact ht) (obeys_congr (h a t ht) rfl rfl)

theorem leaves_loadImage {img : Image} {c : ℕ} (h : Leaves P k)
    (himg : ∀ o : Origin, P o.permitsWrite false (some o)) (hl : loadImage k img = some (k', c)) : Leaves P k' := by
  obtain ⟨f, frames, k2, -, rfl, hfold, ha⟩ := loadImage_inv hl
  refine leaves_allocShared (foldlM_inv (fun rem j => (∀ x ∈ rem, x ∈ img.layout) ∧ Leaves P j) ?_
    ⟨fun _ hx => hx, leaves_addSpace h frames (obeys_empty f _ _)⟩ hfold).2 ha
  intro x rem j j' hI hx
  obtain ⟨g, frames', -, hm⟩ := mapFresh_inv hx
  refine ⟨fun y hy => hI.1 y (mem_cons_of_mem _ hy), leaves_mapPage hI.2 hm rfl
    ⟨by simp, ?_, protToPageFlags_cow _⟩ (himg x.origin)⟩
  rw [protToPageFlags_writable, layout_prot img x (hI.1 x mem_cons_self)]

theorem leaves_forkCow {c : ℕ} (h : Leaves P k) (hfork : ∀ w c o, P w c o → P false true o)
    (hf : forkCow k a = some (k', c)) : Leaves P k' := by
  obtain ⟨s0, hs0, hfk⟩ := forkCow_spec hf
  obtain ⟨s1, hs1, -, ho1, hl1⟩ := hfk.parent
  obtain ⟨t1, f, ht1, -, hlt, hot⟩ := hfk.child
  intro b t ht q m hm
  by_cases hba : b = a
  · subst hba
    cases hs1.symm.trans ht
    rw [hl1, map_eq_some_iff] at hm
    obtain ⟨l, hl, rfl⟩ := hm
    rw [ho1, parentLeaf]
    split_ifs
    · exact h b s0 hs0 q l hl
    · rw [isWritable_forked, isCow_forked]
      exact hfork _ _ _ (h b s0 hs0 q l hl)
  by_cases hbc : b = c
  · subst hbc
    cases ht1.symm.trans ht
    rw [hot q m hm]
    rw [hlt, map_eq_some_iff] at hm
    obtain ⟨l, hl, rfl⟩ := hm
    rw [childLeaf]
    split_ifs
    · rw [isWritable_copied, isCow_copied]
      exact h a s0 hs0 q l hl
    · rw [isWritable_forked, isCow_forked]
      exact hfork _ _ _ (h a s0 hs0 q l hl)
  rw [hfk.others b hba hbc] at ht
  exact h b t ht q m hm

/-! ## Removing pages and references -/

theorem leaves_munmap {addr len : ℕ} (hk : AreasInv k) (h : Leaves P k) (hm : munmap k a addr len = some (k', b)) :
    Leaves P k' := by
  obtain ⟨s0, hs0, rfl | ⟨slot, vma, hmm⟩⟩ := munmap_spec hk hm
  · exact h
  obtain ⟨s1, hs1, -, hleaf, horigin⟩ := hmm.space
  intro b t ht q m hm
  by_cases hb : b = a
  · subst hb
    cases hs1.symm.trans ht
    rw [hleaf] at hm
    split_ifs at hm with hc
    rw [horigin q (by simpa using hc)]
    exact h b s0 hs0 q m hm
  · rw [hmm.others b hb] at ht
    exact h b t ht q m hm

theorem leaves_sysMmap {length : ℕ} {prot : Prot} {req : MapRequest} {r : Option ℕ} (h : Leaves P k)
    (hm : sysMmap k a length prot req = some (k', r)) : Leaves P k' := by
  obtain ⟨s0, hs0, ⟨-, rfl⟩ | ⟨-, v, rfl⟩ | ⟨len, m, -, -, -, rfl⟩⟩ := sysMmap_cases hm
  · exact h
  · exact leaves_congr h rfl
  · have heq := afterIncRef_eq k req
    refine leaves_setSpace (s := s0) (leaves_congr h (by rw [heq])) (by rw [heq]; exact hs0) ?_
    exact obeys_congr (h a s0 hs0) rfl rfl

theorem leaves_dropRef (h : Leaves P k) (hd : dropRef k a = some k') : Leaves P k' := by
  obtain ⟨s0, hs0, ⟨-, own, -, rfl⟩ | ⟨-, rfl⟩⟩ := dropRef_cases hd
  · intro b t ht
    have hb : (k.without a).space b = some t := ht
    exact h b t (space_without hb).2
  · exact leaves_setSpace h hs0 (obeys_congr (h a s0 hs0) rfl rfl)

end Rules

/-! ## Accesses -/

/-- the mapping behind an address: the one that created its page, or the area a fault would take the page from -/
def mappingAt (k : Kernel) (a addr : ℕ) : Option Origin := do
  let s ← k.space a
  match s.leaf (pageOf addr) with
  | some _ => s.origin (pageOf addr)
  | none => (findVma s.vmas (addr / pageSize * pageSize)).map .area

/-- the anonymous area that a not-present fault takes a page from -/
def anonFault (k : Kernel) (a addr : ℕ) : Option Vma := do
  let s ← k.space a
  match s.leaf (pageOf addr) with
  | some _ => none
  | none => (findVma s.vmas (addr / pageSize * pageSize)).filter fun vma => vma.backing = .anonymous

/-- does a write to the address take a copy-on-write fault that is resolved? -/
def resolves (k : Kernel) (a addr : ℕ) : Bool :=
  match k.space a with
  | none => false
  | some s =>
    match s.leaf (pageOf addr) with
    | some l => l.isCow && !l.isWritable
    | none => (findVma s.vmas (addr / pageSize * pageSize)).any fun vma =>
      match vma.backing with
      | .file _ _ shared => !shared
      | .anonymous => false

/-- what a rule has to satisfy for an access to keep it: the not-present faults of the four kinds of areas, and the
resolution of a copy-on-write fault -/
structure AccessRules (P : LeafRule) (k : Kernel) (a addr : ℕ) (w : Bool) : Prop where
  anon : ∀ vma, anonFault k a addr = some vma → P true false (some (.area vma))
  priv : ∀ vma, P false true (some (.area vma))
  sharedRw : ∀ vma, flagsWritable vma.flags = true → P true false (some (.area vma))
  sharedRo : ∀ vma, flagsWritable vma.flags = false → P false false (some (.area vma))
  resolve : w = true → resolves k a addr = true → P true false (mappingAt k a addr)

section Access

variable {P : LeafRule} {k k' : Kernel} {a addr : ℕ} {s : AddressSpace} {w : Bool}

theorem leaves_cowFault (h : Leaves P k) (hs : k.space a = some s)
    (hP : ∀ l, s.leaf (pageOf addr) = some l → l.isCow = true → P true false (s.origin (pageOf addr)))
    (hf : CowFault k a addr s k' b) : Leaves P k' := by
  -- in both cases the page gets the writable, private flags
  have hnew : ∀ l f n, s.leaf (pageOf addr) = some l → l.isCow = true →
      leafOf (.newPage f (cowWritableFlags l.entry.flags)) = some n → P n.isWritable n.isCow (s.origin (pageOf addr)) := by
    intro l f n hl hc hn
    obtain ⟨m, hm', -, hmc, hmw⟩ := leafOf_cowWritable l f
    cases hm'.symm.trans hn
    rw [hmw, hmc]
    exact hP l hl hc
  cases hf with
  | notCow _ => exact h
  | reuse hl hc _ hm | copy hl hc _ _ hm =>
    exact leaves_edit h (setLeaf_edited hm hl hs) rfl fun n => hnew _ _ n hl hc

theorem leaves_fileFault (hk : AreasInv k) (h : Leaves P k) (hs : k.space a = some s)
    (hn : s.leaf (pageOf addr) = none) (hr : AccessRules P k a addr w) (hf : FileFault k a addr s k' b) :
    Leaves P k' := by
  cases hf with
  | noArea hv => exact h
  | failed hv hb hg => exact leaves_congr h rfl
  | @anon vma _ hv hb hm =>
    obtain ⟨f, frames, -, hm⟩ := mapFresh_inv hm
    exact leaves_mapPage h hm rfl (hk.bits hs hv).1 (hr.anon vma (by simp [anonFault, hs, hn, hv, hb]))
  | @priv vma v fo st f _ hv hb hg hm =>
    exact leaves_mapPage h hm rfl (hk.bits hs hv).2.2 (hr.priv vma)
  | @sharedRw vma v fo st f _ hv hb hw hg hm =>
    exact leaves_mapPage h hm rfl (hk.bits hs hv).1 (hr.sharedRw vma hw)
  | @sharedRo vma v fo st f _ hv hb hw hg hm =>
    exact leaves_mapPage h hm rfl (hk.bits hs hv).2.1 (hr.sharedRo vma hw)

/-- **An access keeps a rule** that covers its faults. -/
theorem leaves_access {r : Option Pfn} (hk : AreasInv k) (h : Leaves P k) (hr : AccessRules P k a addr w)
    (ha : Access k a addr w k' r) : Leaves P k' := by
  cases ha with
  | present hp =>
    cases hp with
    | hit _ _ _ | kill _ _ _ _ => exact h
    | cow hs hl hw hf _ _ _ =>
      rw [Bool.and_eq_true] at hw
      refine leaves_cowFault h hs (fun l hl' hc => ?_) hf
      cases hl.symm.trans hl'
      have := hr.resolve hw.1 (by simp [resolves, hs, hl, hc, hw.2])
      simpa [mappingAt, hs, hl] using this
  | noPage hs hn hf => exact leaves_fileFault hk h hs hn hr hf
  | page hs hn hf hp =>
    have h1 := leaves_fileFault hk h hs hn hr hf
    obtain ⟨s1, l1, vma, hs1, hl1, hv, ho, hcow, -⟩ := fileFault_entry hk hs hf
    cases hp with
    | hit _ _ _ | kill _ _ _ _ => exact h1
    | cow hs2 hl2 hw hf2 _ _ _ =>
      cases hs1.symm.trans hs2
      rw [Bool.and_eq_true] at hw
      refine leaves_cowFault h1 hs1 (fun l hl' hc => ?_) hf2
      cases hl1.symm.trans hl'
      obtain ⟨v, fo, hb⟩ := hcow hc
      have := hr.resolve hw.1 (by simp [resolves, hs, hn, hv, hb])
      rw [ho]
      simpa [mappingAt, hs, hn, hv] using this

end Access

/-! ## Runs -/

/-- **Every operation keeps a rule** that holds of image pages, survives the marking of fork, and covers the faults of
the access. -/
theorem step_leaves {P : LeafRule} {k k' : Kernel} (hk : Shape k) (h : Leaves P k)
    (himg : ∀ o : Origin, P o.permitsWrite false (some o)) (hfork : ∀ w c o, P w c o → P false true o)
    (hacc : ∀ a addr w, op.target = some (a, addr, w) → AccessRules P k a addr w) (hstep : step k op = some k') :
    Leaves P k' := by
  cases step_cases hk.areas hstep with
  | create hl hp => exact leaves_congr (leaves_loadImage h himg hl) rfl
  | fork hf hp => exact leaves_congr (leaves_forkCow h hfork hf) rfl
  | @clone a s hs hp =>
    have h1 : Leaves P (k.setSpace a { s with refcount := s.refcount + 1 }) :=
      leaves_setSpace h hs (obeys_congr (h a s hs) rfl rfl)
    exact leaves_congr h1 rfl
  | execve hs hl hd => exact leaves_dropRef (leaves_loadImage h himg hl) hd
  | exit hd => exact leaves_congr (leaves_dropRef h hd) rfl
  | mmap hm => exact leaves_sysMmap h hm
  | munmap hm => exact leaves_munmap hk.areas h hm
  | munmapRefused | writeFailed => exact h
  | load haddr ha | storeKilled haddr ha => exact leaves_access hk.areas h (hacc _ _ _ rfl) ha
  | store haddr ha hs => exact leaves_congr (leaves_access hk.areas h (hacc _ _ _ rfl) ha) rfl
  | write hlen hw => exact leaves_congr h rfl

theorem leaves_new (P : LeafRule) (answers : List Pfn) (vnodes : ℕ → VNode) : Leaves P (Kernel.new answers vnodes) :=
  fun a s hs => by cases (show (Kernel.new answers vnodes).space a = none from rfl).symm.trans hs

/-! ## Writable entries -/

/-- writable only if the mapping that created the page permits it -/
def permitted : LeafRule := fun w _ o => w = true → o.any Origin.permitsWrite = true

/-- no not-present fault on an anonymous area without WRITABLE, and no copy-on-write fault resolved for a page whose
mapping does not permit writing -/
def PermitOk (k : Kernel) : Op → Prop
  | .load a addr => (anonFault k a addr).all (fun vma => flagsWritable vma.flags) = true
  | .store a addr _ => (anonFault k a addr).all (fun vma => flagsWritable vma.flags) = true ∧
      (resolves k a addr = true → (mappingAt k a addr).any Origin.permitsWrite = true)
  | _ => True

instance (k : Kernel) (op : Op) : Decidable (PermitOk k op) := by
  induction op using Op.casesOn <;> unfold PermitOk <;> infer_instance

theorem accessRules_permitted {k : Kernel} (hok : PermitOk k op) (a addr : ℕ) (w : Bool)
    (ht : op.target = some (a, addr, w)) : AccessRules permitted k a addr w := by
  have hanon : (anonFault k a addr).all (fun vma => flagsWritable vma.flags) = true := by
    cases op with
    | load b x => cases ht; exact hok
    | store b x y => cases ht; exact hok.1
    | _ => cases ht
  refine ⟨fun vma hv _ => ?_, fun vma hw => (by cases hw), fun vma hf _ => hf, fun vma _ hw => (by cases hw),
    fun hw hr _ => ?_⟩
  · rw [hv] at hanon
    exact hanon
  · cases op with
    | load b x => cases ht; cases hw
    | store b x y => cases ht; exact hok.2 hr
    | _ => cases ht

theorem step_permitted {k k' : Kernel} (hk : Shape k) (h : Leaves permitted k) (hok : PermitOk k op)
    (hstep : step k op = some k') : Leaves permitted k' :=
  step_leaves hk h (fun o hw => hw) (fun _ _ _ _ hw => by cases hw) (accessRules_permitted hok) hstep

/-- **An entry is writable only if the mapping that created its page permits writing**, in every state of every run
within `PermitOk`: the area's flags, the segment's PF_W, and never for the trampoline. -/
theorem writable_permitted (answers : List Pfn) (vnodes : ℕ → VNode) (ops : List Op) (k : Kernel)
    (hok : Meets step PermitOk (Kernel.new answers vnodes) ops) (hrun : run (Kernel.new answers vnodes) ops = some k)
    (a : ℕ) (s : AddressSpace) (p : UPage) (l : Leaf) (hs : k.space a = some s) (hl : s.leaf p = some l)
    (hw : l.isWritable = true) :
    (∃ o, s.origin p = some o ∧ o.permitsWrite = true) ∧ (∀ vma, s.origin p = some (.area vma) →
      flagsWritable vma.flags = true) ∧ (∀ prot, s.origin p = some (.image prot) → prot.write = true) ∧
      s.origin p ≠ some .trampoline := by
  have h := run_inv (fun k => Shape k ∧ Leaves permitted k)
    (fun _ _ _ hI hC hstep => ⟨step_shape hI.1 hstep, step_permitted hI.1 hI.2 hC hstep⟩)
    ⟨shape_new answers vnodes, leaves_new _ answers vnodes⟩ hok hrun
  obtain ⟨o, ho, hperm⟩ := exists_of_any (h.2 a s hs p l hl hw)
  refine ⟨⟨o, ho, hperm⟩, fun vma hv => ?_, fun prot hp => ?_, fun ht => ?_⟩
  · cases ho.symm.trans hv
    exact hperm
  · cases ho.symm.trans hp
    exact hperm
  · cases ho.symm.trans ht
    cases hperm

/-- a process maps a writable anonymous page and writes to it -/
def anonWriteOps : List Op := [.create bareImage, .mmap 0 4096 ⟨true, false⟩ .anonymous, .store 0 mmapBase 7]

/-- the page is writable, as its mapping permits -/
theorem writable_permitted_anon :
    ∃ k s l o, run smallKernel anonWriteOps = some k ∧ k.space 0 = some s ∧ s.leaf (pageOf mmapBase) = some l ∧
      l.isWritable = true ∧ s.origin (pageOf mmapBase) = some o ∧ o.permitsWrite = true := by
  have hmeets : Meets step PermitOk smallKernel anonWriteOps := by decide +kernel
  obtain ⟨k, hk, s, hs, l, hl, hw⟩ : ∃ k, run smallKernel anonWriteOps = some k ∧ ∃ s, k.space 0 = some s ∧
      ∃ l, s.leaf (pageOf mmapBase) = some l ∧ l.isWritable = true := by decide +kernel
  obtain ⟨o, ho, hperm⟩ := (writable_permitted _ _ anonWriteOps k hmeets hk 0 s _ l hs hl hw).1
  exact ⟨k, s, l, o, hk, hs, hl, hw, ho, hperm⟩

/-- a process maps an anonymous page read-only and reads it -/
def readOnlyAnonOps : List Op := [.create bareImage, .mmap 0 4096 ⟨false, false⟩ .anonymous, .load 0 mmapBase]

/-- a process maps a file MAP_PRIVATE and read-only, and writes to it -/
def readOnlyFileOps : List Op :=
  [.create bareImage, .mmap 0 4096 ⟨false, false⟩ (.file directMapBase 0 false false), .store 0 mmapBase 7]

/-- **Read-only areas get writable pages**: an anonymous one by any access, a MAP_PRIVATE one by a store. -/
theorem readOnly_writable (ops : List Op) (hops : ops = readOnlyAnonOps ∨ ops = readOnlyFileOps) :
    ∃ k s l vma, run smallKernel ops = some k ∧ k.space 0 = some s ∧ s.leaf (pageOf mmapBase) = some l ∧
      l.isWritable = true ∧ s.origin (pageOf mmapBase) = some (.area vma) ∧ flagsWritable vma.flags = false := by
  obtain ⟨k, hk, s, hs, l, hl, hw, o, ho, hcheck⟩ : ∃ k, run smallKernel ops = some k ∧ ∃ s, k.space 0 = some s ∧
      ∃ l, s.leaf (pageOf mmapBase) = some l ∧ l.isWritable = true ∧ ∃ o, s.origin (pageOf mmapBase) = some o ∧
        (match o with
          | .area vma => !flagsWritable vma.flags
          | _ => false) = true := by
    rcases hops with rfl | rfl <;> decide +kernel
  cases o with
  | area vma => exact ⟨k, s, l, vma, hk, hs, hl, hw, ho, by simpa using hcheck⟩
  | image _ | stack | trampoline => cases hcheck

/-- **The WRITABLE bit without the permission**, for an anonymous and for a MAP_PRIVATE area. -/
theorem readOnly_anon_writable :
    (∃ k s l vma, run smallKernel readOnlyAnonOps = some k ∧ k.space 0 = some s ∧
      s.leaf (pageOf mmapBase) = some l ∧ l.isWritable = true ∧ s.origin (pageOf mmapBase) = some (.area vma) ∧
      flagsWritable vma.flags = false) ∧
    ∃ k s l vma, run smallKernel readOnlyFileOps = some k ∧ k.space 0 = some s ∧
      s.leaf (pageOf mmapBase) = some l ∧ l.isWritable = true ∧ s.origin (pageOf mmapBase) = some (.area vma) ∧
      flagsWritable vma.flags = false :=
  ⟨readOnly_writable _ (.inl rfl), readOnly_writable _ (.inr rfl)⟩

/-! ## Isolation -/

section Isolation

variable {k k' : Kernel} {a : ℕ} {s : AddressSpace} {p : UPage} {l : Leaf}

/-- a writable entry is not COW -/
def resolved : LeafRule := fun w c _ => w = true → c = false

theorem accessRules_resolved (k : Kernel) (a addr : ℕ) (w : Bool) : AccessRules resolved k a addr w :=
  ⟨fun _ _ _ => rfl, fun _ hw => (by cases hw), fun _ _ _ => rfl, fun _ _ hw => (by cases hw), fun _ _ _ => rfl⟩

theorem step_resolved (hk : Shape k) (h : Leaves resolved k) (hstep : step k op = some k') : Leaves resolved k' :=
  step_leaves hk h (fun _ _ => rfl) (fun _ _ _ _ hw => by cases hw) (fun a addr w _ =>
    accessRules_resolved k a addr w) hstep

theorem users_here (hl : s.leaf p = some l) : 0 < s.users (s.kindOf p l) l.frame := by
  rw [users, countP_pos_iff]
  exact ⟨(p, l), (Slot.mem_leaves _ _ _).2 hl, by simp [uses]⟩

/-- two address spaces count separately -/
theorem add_le_total {b : ℕ} {t : AddressSpace} (hs : k.space a = some s) (ht : k.space b = some t) (hne : b ≠ a)
    (g : AddressSpace → ℕ) : g s + g t ≤ k.total g := by
  have hsum := sum_map_set k.spaces a (some s) none (fun o => o.elim 0 g) (space_eq_some hs)
  have hmem : some t ∈ k.spaces.set a none := mem_of_getElem? ((getElem?_set_ne hne.symm).trans (space_eq_some ht))
  have hle : g t ≤ ((k.spaces.set a none).map fun o => o.elim 0 g).sum :=
    single_le_sum (by simp) _ (mem_map.2 ⟨_, hmem, rfl⟩)
  change _ + g s = k.total g + 0 at hsum
  omega

/-- **Processes are isolated.** In every state of every run within `StepOk`, a page that a process can write to without
a fault is a page of a MAP_SHARED area on a frame of the page cache, or it has its frame for itself: no other page of
any process is on that frame, no page table is, and the page cache does not keep it. -/
theorem isolated_run (answers : List Pfn) (vnodes : ℕ → VNode) (ops : List Op)
    (hok : Meets step StepOk (Kernel.new answers vnodes) ops) (hrun : run (Kernel.new answers vnodes) ops = some k)
    (hs : k.space a = some s) (hl : s.leaf p = some l) (hw : l.isWritable = true) :
    s.inShared p = true ∧ k.kept l.frame = true ∨
    (∀ b t q m, k.space b = some t → t.leaf q = some m → m.frame = l.frame → b = a ∧ q = p) ∧
      (∀ b t, k.space b = some t → l.frame ∉ t.tables) ∧ k.kept l.frame = false := by
  obtain ⟨-, hgood⟩ := run_good hok hrun
  have hres : Leaves resolved k := (foldlM_inv (fun _ k => Shape k ∧ Leaves resolved k)
    (fun _ _ _ _ hI hstep => ⟨step_shape hI.1 hstep, step_resolved hI.1 hI.2 hstep⟩)
    ⟨shape_new answers vnodes, leaves_new _ answers vnodes⟩ hrun).2
  have hcow : l.isCow = false := hres a s hs p l hl hw
  have hacc := hgood.sound l.frame
  have hhere := users_here hl
  have hpos := users_pos hs hl
  by_cases hin : s.inShared p = true
  · rw [kindOf_shr hcow hin] at hpos
    exact .inl ⟨hin, hacc.borrowed hpos⟩
  · rw [kindOf_own hcow (Bool.eq_false_of_not_eq_true hin)] at hhere hpos
    obtain ⟨hown, hnoCow, hnoShr, htbl, hkept, -⟩ := hacc.own_only hpos
    simp only [Kernel.account] at hown hnoCow hnoShr htbl
    refine .inr ⟨fun b t q m hb hm hf => ?_, fun b t hb hmem => ?_, hkept⟩
    · have hq : p = q := hgood.leaf.seat a s p l b t q m hs hl hb hm hf.symm (not_cached_of_kept hkept)
      refine ⟨?_, hq.symm⟩
      by_contra hba
      have hsum : _ ≤ k.users .own l.frame := add_le_total hs hb hba fun s => s.users .own l.frame
      have hthere := users_here hm
      have hother := users_pos hb hm
      rw [hf] at hthere hother
      cases hkind : t.kindOf q m <;> rw [hkind] at hthere hother <;> omega
    · have htab : _ ≤ k.tableUses l.frame := le_total hb fun t => t.tables.count l.frame
      have hcount := count_pos_iff.2 hmem
      omega

end Isolation

/-- two processes, each with a page of its own at the same address -/
def twoWritersOps : List Op :=
  anonWriteOps ++ [.create bareImage, .mmap 1 4096 ⟨true, false⟩ .anonymous, .store 1 mmapBase 9]

/-- both pages are writable, and they are on different frames -/
theorem isolated_run_two :
    ∃ k, run (Kernel.new (framesFrom 1 1 200) emptyFiles) twoWritersOps = some k ∧ ∃ s l t m, k.space 0 = some s ∧
      s.leaf (pageOf mmapBase) = some l ∧ k.space 1 = some t ∧ t.leaf (pageOf mmapBase) = some m ∧ m.frame ≠ l.frame := by
  refine exists_of_check (fun k => ∃ s, k.space 0 = some s ∧ s.inShared (pageOf mmapBase) = false ∧
    ∃ l, s.leaf (pageOf mmapBase) = some l ∧ l.isWritable = true ∧ ∃ t, k.space 1 = some t ∧
      ∃ m, t.leaf (pageOf mmapBase) = some m ∧ True) (by decide +kernel) ?_
  rintro k hk ⟨s, hs, hin, l, hl, hw, t, ht, m, hm, -⟩
  refine ⟨s, l, t, m, hs, hl, ht, hm, fun hf => ?_⟩
  obtain ⟨hsh, -⟩ | ⟨honly, -⟩ := isolated_run _ _ twoWritersOps (by decide +kernel) hk hs hl hw
  · cases hin.symm.trans hsh
  · cases (honly 1 t _ m ht hm hf).1

end Rumicos.Proc
