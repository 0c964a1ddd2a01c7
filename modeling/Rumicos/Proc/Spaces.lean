/-
Building address spaces.

- `layout`: the pages of an executable in the order they are mapped; `loadImage_eq` says that loading an image is one
  loop of `mapFresh` over it.
-/
import Rumicos.Proc.Good

namespace Rumicos.Proc

open Paging Memory Lib Fs List Option AddressSpace

/-! ## A new address space -/

/-- an address space without pages -/
def emptySpace (f : Pfn) (vmas : List (Option Vma)) (next : ℕ) : AddressSpace :=
  ⟨⟨f, fun _ => none⟩, vmas, next, 1, none, fun _ => none⟩

variable {k k' : Kernel} {c : ℕ} {s : AddressSpace} {img : Image}

theorem newSpace_spec (h : newSpace k = some (k', c)) :
    ∃ f frames, allocFrame k.frames = some (f, frames) ∧ c = k.spaces.length ∧
      k' = { k with
        frames := frames, spaces := k.spaces ++ [some (emptySpace f (List.replicate maxVmas none) mmapBase)] } := by
  simp only [newSpace, bind_eq_bind, bind_eq_some_iff] at h
  obtain ⟨⟨f, frames⟩, hf, rfl, rfl⟩ := h
  exact ⟨f, frames, hf, rfl, rfl⟩

theorem leaf_emptySpace (f : Pfn) (vmas : List (Option Vma)) (next : ℕ) (p : UPage) :
    (emptySpace f vmas next).leaf p = none :=
  Slot.lookup_none (F := Pfn) p

theorem users_emptySpace (f : Pfn) (vmas : List (Option Vma)) (next : ℕ) (kd : Kind) (g : Pfn) :
    (emptySpace f vmas next).users kd g = 0 := by
  rw [users, countP_eq_zero]
  rintro ⟨p, l⟩ hm
  have := (Slot.mem_leaves _ _ _).1 hm
  cases this

section AddSpace

variable {f : Pfn} {frames : Frames} {vmas : List (Option Vma)} {next : ℕ}

/-- the state with one more address space -/
def addSpace (k : Kernel) (frames : Frames) (s : AddressSpace) : Kernel :=
  { k with frames := frames, spaces := k.spaces ++ [some s] }

theorem space_addSpace_self (k : Kernel) (frames : Frames) (s : AddressSpace) :
    (addSpace k frames s).space k.spaces.length = some s := by
  simp [addSpace, Kernel.space]

theorem space_addSpace_ne (k : Kernel) (frames : Frames) (s : AddressSpace) {b : ℕ} (hb : b ≠ k.spaces.length) :
    (addSpace k frames s).space b = k.space b := by
  simp only [addSpace, Kernel.space]
  rcases lt_or_gt_of_ne hb with hlt | hgt
  · rw [getElem?_append_left hlt]
  · rw [getElem?_eq_none (by simp; omega), getElem?_eq_none (by omega)]

theorem space_addSpace_cases {t : AddressSpace} {b : ℕ} (h : (addSpace k frames s).space b = some t) :
    (b = k.spaces.length ∧ t = s) ∨ k.space b = some t := by
  by_cases hb : b = k.spaces.length
  · subst hb
    rw [space_addSpace_self] at h
    cases h
    exact .inl ⟨rfl, rfl⟩
  · rw [space_addSpace_ne _ _ _ hb] at h
    exact .inr h

theorem total_addSpace (k : Kernel) (frames : Frames) (s : AddressSpace) (g : AddressSpace → ℕ) :
    (addSpace k frames s).total g = k.total g + g s := by
  simp [addSpace, Kernel.total]

/-- a fresh frame becomes a structural use -/
theorem sound_addTable {j : Kernel} (hk : Sound k) (hf : allocFrame k.frames = some (f, frames)) (hj : j.frames = frames)
    (hcow : j.cow = k.cow) (hkept : j.kept = k.kept) (husers : ∀ kd g, j.users kd g = k.users kd g)
    (htbl : ∀ g, j.tableUses g = k.tableUses g + if g = f then 1 else 0) : Sound j := by
  obtain ⟨hk0, hheld, -⟩ := sound_alloc (j := { k with frames := frames }) hf rfl rfl rfl rfl rfl hk
  intro g
  have hacc : j.account g =
      { ({ k with frames := frames } : Kernel).account g with tbl := k.tableUses g + if g = f then 1 else 0 } := by
    simp only [Kernel.account, husers, htbl, hj, hcow, hkept]
    rfl
  rw [hacc]
  by_cases hg : g = f
  · subst hg
    rw [if_pos rfl]
    exact Account.ok_addTbl (hk0 g) hheld.1 hheld.2
  · rw [if_neg hg]
    exact hk0 g

/-- **A new address space without pages keeps a state good**, whatever areas it starts with. -/
theorem good_addSpace (hk : Good k) (hlive : k.liveCount ≤ maxProcesses) (hf : allocFrame k.frames = some (f, frames))
    (hv : CoreOk (emptySpace f vmas next).core) :
    Good (addSpace k frames (emptySpace f vmas next)) := by
  have hbad := (allocFrame_spec hf).2.2.2.1
  have hnoleaf : ∀ b t q m, (addSpace k frames (emptySpace f vmas next)).space b = some t → t.leaf q = some m →
      k.space b = some t := by
    intro b t q m hb hm
    rcases space_addSpace_cases hb with ⟨-, rfl⟩ | hb
    cases hm
    · exact hb
  refine ⟨sound_addTable hk.sound hf rfl rfl rfl (fun kd g => ?_) fun g => ?_, ⟨?_, ?_, ?_, ?_, ?_⟩, ?_,
    hbad.trans hk.noBad⟩
  · rw [Kernel.users, total_addSpace, users_emptySpace]; rfl
  · rw [Kernel.tableUses, total_addSpace]
    have : (emptySpace f vmas next).tables = [f] := by
      simp [emptySpace, tables, Slot.labels]
    rw [this, count_singleton, Kernel.tableUses]
    simp only [beq_iff_eq]
    simp [eq_comm]
  · intro b t hb
    rcases space_addSpace_cases hb with ⟨-, rfl⟩ | hb
    · exact hv
    · exact hk.leaf.areas b t hb
  · intro b t q m hb hm
    exact hk.leaf.plain b t q m (hnoleaf b t q m hb hm) hm
  · intro b t q m c u r n hb hm hc hn
    exact hk.leaf.seat b t q m c u r n (hnoleaf b t q m hb hm) hm (hnoleaf c u r n hc hn) hn
  · intro b t q m key e hb hm
    exact hk.leaf.file b t q m key e (hnoleaf b t q m hb hm) hm
  · exact hk.leaf.keys
  · rw [Kernel.liveCount, total_addSpace]
    change k.liveCount + 1 ≤ _
    omega

end AddSpace

/-! ## Changes of the core -/

theorem users_congr {s' : AddressSpace} (hp : s'.pml4 = s.pml4)
    (hin : ∀ p l, s.leaf p = some l → s'.inShared p = s.inShared p) (kd : Kind) (f : Pfn) :
    s'.users kd f = s.users kd f := by
  rw [users, hp]
  refine countP_congr fun x hx => ?_
  have hkind : s'.kindOf x.1 x.2 = s.kindOf x.1 x.2 := by
    simp [kindOf, hin x.1 x.2 ((Slot.mem_leaves _ _ _).1 hx)]
  simp [uses, hkind]

section SetCore

variable {a : ℕ} {s' : AddressSpace}

theorem space_setSpace_cases (hs : k.space a = some s) {b : ℕ} {t : AddressSpace}
    (h : (k.setSpace a s').space b = some t) : (b = a ∧ t = s') ∨ (b ≠ a ∧ k.space b = some t) := by
  by_cases hba : b = a
  · subst hba
    rw [space_setSpace_self hs] at h
    cases h
    exact .inl ⟨rfl, rfl⟩
  · rw [space_setSpace_ne _ hba] at h
    exact .inr ⟨hba, h⟩

theorem leafInv_setCore (hk : LeafInv k) (hs : k.space a = some s) (hp : s'.pml4 = s.pml4)
    (hareas : CoreOk s'.core)
    (hin : ∀ p l, s.leaf p = some l → s'.inShared p = s.inShared p)
    (hseat : ∀ p l key, s.leaf p = some l → FileSeat s.vmas p key → FileSeat s'.vmas p key) :
    LeafInv (k.setSpace a s') := by
  have hleaf : s'.leaf = s.leaf := by funext p; simp [leaf, hp]
  have hcase : ∀ b t, (k.setSpace a s').space b = some t →
      ∃ t', k.space b = some t' ∧ t.leaf = t'.leaf ∧ (∀ q m, t'.leaf q = some m → t.inShared q = t'.inShared q) ∧
        ∀ q m key, t'.leaf q = some m → FileSeat t'.vmas q key → FileSeat t.vmas q key := by
    intro b t hb
    rcases space_setSpace_cases hs hb with ⟨rfl, rfl⟩ | ⟨-, hb⟩
    · exact ⟨s, hs, hleaf, hin, hseat⟩
    · exact ⟨t, hb, rfl, fun _ _ _ => rfl, fun _ _ _ _ h => h⟩
  refine ⟨?_, ?_, ?_, ?_, hk.keys⟩
  · intro b t hb
    rcases space_setSpace_cases hs hb with ⟨rfl, rfl⟩ | ⟨-, hb⟩
    · exact hareas
    · exact hk.areas b t hb
  · intro b t q m hb hm hsh
    obtain ⟨t', ht', hl, hi, -⟩ := hcase b t hb
    rw [hl] at hm
    exact hk.plain b t' q m ht' hm (by rw [← hi q m hm]; exact hsh)
  · intro b t q m c u r n hb hm hc hn
    obtain ⟨t', ht', hl, -, -⟩ := hcase b t hb
    obtain ⟨u', hu', hl', -, -⟩ := hcase c u hc
    rw [hl] at hm
    rw [hl'] at hn
    exact hk.seat b t' q m c u' r n ht' hm hu' hn
  · intro b t q m key e hb hm hcow hkey hf
    obtain ⟨t', ht', hl, -, hfs⟩ := hcase b t hb
    rw [hl] at hm
    exact hfs q m key hm (hk.file b t' q m key e ht' hm hcow hkey hf)

theorem liveCount_setSpace (hs : k.space a = some s) (s' : AddressSpace) :
    (k.setSpace a s').liveCount = k.liveCount := by
  have := total_setSpace hs s' fun _ => 1
  exact Nat.add_right_cancel this

theorem users_setCore (hs : k.space a = some s) (t : AddressSpace) (hp : t.pml4 = s.pml4)
    (hin : ∀ p l, s.leaf p = some l → t.inShared p = s.inShared p) (kd : Kind) (g : Pfn) :
    (k.setSpace a t).users kd g = k.users kd g := by
  have htot := total_setSpace hs t fun s => s.users kd g
  simp only [users_congr hp hin] at htot
  exact Nat.add_right_cancel htot

/-- **Areas, cursor and reference count may change** as long as no present page enters or leaves a MAP_SHARED area. -/
theorem good_setCore (hk : Good k) (hs : k.space a = some s) (hp : s'.pml4 = s.pml4) (hown : s'.ownFrame = s.ownFrame)
    (hareas : CoreOk s'.core)
    (hin : ∀ p l, s.leaf p = some l → s'.inShared p = s.inShared p)
    (hseat : ∀ p l key, s.leaf p = some l → FileSeat s.vmas p key → FileSeat s'.vmas p key) :
    Good (k.setSpace a s') := by
  refine ⟨fun g => ?_, leafInv_setCore hk.leaf hs hp hareas hin hseat, ?_, hk.noBad⟩
  · have htbl : (k.setSpace a s').tableUses g = k.tableUses g := by
      have htot := total_setSpace hs s' fun s => s.tables.count g
      have h1 : s'.tables = s.tables := by simp [tables, hp, hown]
      rw [h1] at htot
      exact Nat.add_right_cancel htot
    have hacc : (k.setSpace a s').account g = k.account g := by
      simp only [Kernel.account, users_setCore hs s' hp hin, htbl]
      rfl
    rw [hacc]
    exact hk.sound g
  · rw [liveCount_setSpace hs]; exact hk.live

end SetCore

/-! ## The address space's own frame -/

theorem allocShared_spec {a : ℕ} (h : allocShared k a = some k') :
    ∃ s f frames, k.space a = some s ∧ allocFrame k.frames = some (f, frames) ∧
      k' = { k with frames := frames }.setSpace a { s with ownFrame := some f } := by
  simp only [allocShared, bind_eq_bind, bind_eq_some_iff, Option.pure_def, some.injEq] at h
  obtain ⟨s, hs, ⟨f, frames⟩, hf, rfl⟩ := h
  exact ⟨s, f, frames, hs, hf, rfl⟩

theorem cores_ownFrame {k2 : Kernel} {c : Core} (h : k2.cores = k.cores ++ [some c]) (hs : s.core = c) (g : Pfn) :
    (k2.spaces.set k.spaces.length (some { s with ownFrame := some g })).map (Option.map AddressSpace.core) =
      k.cores ++ [some { c with ownFrame := some g }] := by
  have hlen : k.spaces.length = k.cores.length := by simp [Kernel.cores]
  have hcore : ({ s with ownFrame := some g } : AddressSpace).core = { c with ownFrame := some g } := by rw [← hs]; rfl
  rw [map_set, map_some, hcore]
  change k2.cores.set _ _ = _
  rw [h, hlen, set_append_right _ _ (le_refl _), Nat.sub_self, set_cons_zero]

/-- **The address space moves to its own frame.** -/
theorem good_allocShared {a : ℕ} (hk : Good k) (hs : k.space a = some s) (hown : s.ownFrame = none)
    (h : allocShared k a = some k') : Good k' := by
  obtain ⟨s', f, frames, hs', hf, rfl⟩ := allocShared_spec h
  cases hs.symm.trans hs'
  have hs0 : ({ k with frames := frames } : Kernel).space a = some s := hs
  have hl0 : LeafInv { k with frames := frames } := leafInv_congr hk.leaf rfl (sameFrames_refl _)
  refine ⟨sound_addTable hk.sound hf rfl rfl rfl (users_setCore hs0 { s with ownFrame := some f } rfl fun _ _ _ => rfl)
      fun g => ?_,
    leafInv_setCore hl0 hs0 rfl ⟨(hk.leaf.areas a s hs).vmas, (hk.leaf.areas a s hs).flags⟩
      (fun _ _ _ => rfl) (fun _ _ _ _ h => h), ?_, (allocFrame_spec hf).2.2.2.1.trans hk.noBad⟩
  · have htot := total_setSpace hs0 { s with ownFrame := some f } fun s => s.tables.count g
    have h1 : ({ s with ownFrame := some f } : AddressSpace).tables.count g =
        s.tables.count g + if g = f then 1 else 0 := by
      simp only [tables, hown, toList_some, toList_none, append_nil,
        count_append, count_singleton, beq_iff_eq]
      simp [eq_comm]
    have h2 : ({ k with frames := frames } : Kernel).total (fun s => s.tables.count g) = k.tableUses g := rfl
    rw [Kernel.tableUses]
    omega
  · rw [liveCount_setSpace hs0]; exact hk.live

/-! ## Loading an image -/

/-- one page of an image: where it goes, its bytes, its permissions and its origin -/
structure Placed where
  page : UPage
  bytes : Page
  prot : Prot
  origin : Origin

/-- `map_segment`'s pages -/
def LoadSegment.layout (seg : LoadSegment) (elfData : ℕ → UInt8) : List Placed :=
  (List.range seg.pageCount).map fun j =>
    ⟨pageOf (seg.vaddr + j * pageSize), seg.page elfData j, seg.prot, .image seg.prot⟩

/-- the pages of an image, in the order they are mapped -/
def Image.layout (img : Image) : List Placed :=
  img.segments.flatMap (fun seg => seg.layout img.elfData) ++
    ((List.range ustackPages).map fun j =>
      ⟨pageOf (ustackTop - ustackPages * pageSize + j * pageSize), img.stack j, ⟨true, false⟩, .stack⟩) ++
    [⟨pageOf sigreturnTrampolineVa, fun i => sigreturnTrampolineCode.getD i 0, ⟨false, true⟩, .trampoline⟩]

def place (a : ℕ) (k : Kernel) (x : Placed) : Option Kernel :=
  mapFresh k a x.page x.bytes (protToPageFlags x.prot) x.origin

theorem mapSegment_eq (elfData : ℕ → UInt8) (k : Kernel) (a : ℕ) (seg : LoadSegment) :
    mapSegment elfData k a seg = (seg.layout elfData).foldlM (place a) k := by
  rw [LoadSegment.layout, foldlM_map]
  rfl

theorem foldlM_flatMap {S A B : Type} (step : S → B → Option S) (g : A → List B) (l : List A) (s : S) :
    l.foldlM (fun s x => (g x).foldlM step s) s = (l.flatMap g).foldlM step s := by
  induction l generalizing s with
  | nil => rfl
  | cons x l ih =>
    rw [foldlM_cons, flatMap_cons, foldlM_append]
    congr 1
    funext t
    exact ih t

theorem layout_foldlM (k : Kernel) (c : ℕ) (img : Image) :
    img.layout.foldlM (place c) k = (img.segments.foldlM (fun k seg => mapSegment img.elfData k c seg) k).bind fun k =>
      (mapUserStack img.stack k c).bind fun k => mapSigreturnTrampoline k c := by
  have hseg : (fun k seg => mapSegment img.elfData k c seg) =
      fun k (seg : LoadSegment) => (seg.layout img.elfData).foldlM (place c) k := by
    funext k seg
    exact mapSegment_eq _ _ _ _
  rw [Image.layout, foldlM_append, foldlM_append, hseg, foldlM_flatMap]
  simp only [bind_eq_bind, bind_assoc]
  congr 1
  funext k1
  congr 1
  funext k2
  change (mapSigreturnTrampoline k2 c).bind some = _
  rcases mapSigreturnTrampoline k2 c with _ | k3 <;> rfl

/-- **Loading an image is one loop over its layout.** -/
theorem loadImage_eq (k : Kernel) (img : Image) :
    loadImage k img = (newSpace k).bind fun x =>
      (img.layout.foldlM (place x.2) x.1).bind fun k => (allocShared k x.2).map fun k => (k, x.2) := by
  simp only [loadImage, layout_foldlM, bind_assoc]
  congr 1
  funext x
  congr 1
  funext k1
  congr 1
  funext k2
  congr 1
  funext k3
  rcases allocShared k3 x.2 with _ | k4 <;> rfl

/-- what every page of an image is: not copy-on-write, writable exactly as its origin permits -/
theorem layout_prot (img : Image) (x : Placed) (hx : x ∈ img.layout) : x.origin.permitsWrite = x.prot.write := by
  simp only [Image.layout, mem_append, mem_flatMap, LoadSegment.layout, List.mem_map, mem_singleton] at hx
  rcases hx with (⟨seg, -, j, -, rfl⟩ | ⟨j, -, rfl⟩) | rfl <;> rfl

/-- the loop over the layout of an image, in the new address space `c`: no areas, no copy-on-write pages -/
structure Loading (k0 : Kernel) (c : ℕ) (k : Kernel) : Prop where
  space : ∃ s, k.space c = some s ∧ s.core = ⟨List.replicate maxVmas none, mmapBase, 1, none⟩ ∧
    ∀ p l, s.leaf p = some l → l.isCow = false
  others : ∀ b, b ≠ c → k.space b = k0.space b
  cores : k.cores = k0.cores
  cache : k.cache = k0.cache
  vnodes : k.vnodes = k0.vnodes
  orphans : k.orphans = k0.orphans
  cow : k.cow = k0.cow
  procs : k.procs = k0.procs
  stores : k.stores = k0.stores
  freed : k.frames.freed = k0.frames.freed

theorem inShared_noAreas (h : s.vmas = List.replicate maxVmas none) (p : UPage) : s.inShared p = false := by
  have : findVma s.vmas (pageAddr p) = none := by
    rw [findVma_none_iff, h]
    intro v hv
    simp [mem_replicate] at hv
  rw [inShared, this]
  rfl

theorem loading_start (k : Kernel) (f : Pfn) (frames : Frames) :
    Loading (addSpace k frames (emptySpace f (List.replicate maxVmas none) mmapBase)) k.spaces.length
      (addSpace k frames (emptySpace f (List.replicate maxVmas none) mmapBase)) :=
  ⟨⟨_, space_addSpace_self _ _ _, rfl, fun p l hp => by rw [leaf_emptySpace] at hp; cases hp⟩, fun _ _ => rfl, rfl, rfl,
    rfl, rfl, rfl, rfl, rfl, rfl⟩

theorem loading_place {k0 : Kernel} {x : Placed} (h : Loading k0 c k) (hx : place c k x = some k') : Loading k0 c k' := by
  obtain ⟨s, hs, hcore, hplain⟩ := h.space
  obtain ⟨f, frames, hf, hm⟩ := mapFresh_inv hx
  have hed := mapPage_edited hm
  obtain ⟨s0, s', hs0, hs', hse⟩ := hed.space
  cases hs.symm.trans hs0
  obtain ⟨l, hl, -, hlc, -⟩ := leafOf_newPage f (protToPageFlags_present x.prot)
  refine ⟨⟨s', hs', ?_, fun p m hm => ?_⟩, fun b hb => (hed.others b hb).trans (h.others b hb),
    hed.cores.trans h.cores, hed.cache.trans h.cache, hed.vnodes.trans h.vnodes, hed.orphans.trans h.orphans,
    hed.cow.trans h.cow, hed.procs.trans h.procs, hed.stores.trans h.stores, ?_⟩
  · exact hse.core.trans hcore
  · rw [hse.leaf, hl] at hm
    split_ifs at hm
    · cases hm
      rw [hlc]; simp
    · exact hplain p m hm
  · rw [hed.freed]
    exact (allocFrame_spec hf).2.2.1.trans h.freed

theorem good_place {k0 : Kernel} {x : Placed} (h : Loading k0 c k) (hk : Good k) (hx : place c k x = some k') :
    Good k' := by
  obtain ⟨s, hs, hcore, hplain⟩ := h.space
  have hsh := inShared_noAreas (congrArg Core.vmas hcore) x.page
  exact good_mapFresh hk hs hx (fun l hl => kindOf_own (hplain _ l hl) hsh) (by simp) (by simp) hsh

/-- what loading an image does to the rest of the system -/
structure Loaded (k : Kernel) (k' : Kernel) (c : ℕ) : Prop where
  id : c = k.spaces.length
  others : ∀ b, b ≠ c → k'.space b = k.space b
  cores : ∃ f, k'.cores = k.cores ++ [some ⟨List.replicate maxVmas none, mmapBase, 1, some f⟩]
  cache : k'.cache = k.cache
  vnodes : k'.vnodes = k.vnodes
  orphans : k'.orphans = k.orphans
  cow : k'.cow = k.cow
  procs : k'.procs = k.procs
  stores : k'.stores = k.stores
  freed : k'.frames.freed = k.frames.freed

theorem Loaded.kept {a : ℕ} (h : Loaded k k' c) (hs : k.space a = some s) : k'.space a = k.space a :=
  h.others a (by rw [h.id]; exact (space_lt hs).ne)

theorem loadImage_inv (h : loadImage k img = some (k', c)) :
    ∃ f frames k2, allocFrame k.frames = some (f, frames) ∧ c = k.spaces.length ∧
      img.layout.foldlM (place c) (addSpace k frames (emptySpace f (List.replicate maxVmas none) mmapBase)) = some k2 ∧
      allocShared k2 c = some k' := by
  rw [loadImage_eq] at h
  simp only [bind_eq_some_iff, map_eq_some_iff, Prod.exists] at h
  obtain ⟨k1, c', hn, k2, hl, k3, ha, rfl, rfl⟩ := h
  obtain ⟨f, frames, hf, rfl, rfl⟩ := newSpace_spec hn
  exact ⟨f, frames, k2, hf, rfl, hl, ha⟩

theorem loadImage_spec (h : loadImage k img = some (k', c)) : Loaded k k' c := by
  obtain ⟨f, frames, k2, hf, rfl, hl, ha⟩ := loadImage_inv h
  have h2 := foldlM_inv (fun _ => Loading _ k.spaces.length) (fun x _ k k' hI hx => loading_place hI hx)
    (loading_start k f frames) hl
  obtain ⟨s, hs, hcore, -⟩ := h2.space
  obtain ⟨s', g, frames', hs', hg, rfl⟩ := allocShared_spec ha
  cases hs.symm.trans hs'
  refine ⟨rfl, fun b hb => ?_, ⟨g, ?_⟩, h2.cache, h2.vnodes, h2.orphans, h2.cow, h2.procs, h2.stores,
    (allocFrame_spec hg).2.2.1.trans (h2.freed.trans (allocFrame_spec hf).2.2.1)⟩
  · rw [space_setSpace_ne _ hb]
    exact (h2.others b hb).trans (space_addSpace_ne _ _ _ hb)
  · have hc2 : k2.cores = k.cores ++ [some ⟨List.replicate maxVmas none, mmapBase, 1, none⟩] := by
      rw [h2.cores]
      simp [Kernel.cores, addSpace, emptySpace, core]
    exact cores_ownFrame hc2 hcore g

/-- **Loading an image keeps a state good.** -/
theorem good_loadImage (hk : Good k) (hlive : k.liveCount ≤ maxProcesses) (h : loadImage k img = some (k', c)) :
    Good k' := by
  obtain ⟨f, frames, k2, hf, rfl, hl, ha⟩ := loadImage_inv h
  have h0 : Good (addSpace k frames (emptySpace f (List.replicate maxVmas none) mmapBase)) :=
    good_addSpace hk hlive hf
      ⟨vmasOk_new, fun v hv => by simp [emptySpace, core] at hv⟩
  have h2 := foldlM_inv (fun _ j => Loading (addSpace k frames (emptySpace f (List.replicate maxVmas none) mmapBase))
      k.spaces.length j ∧ Good j)
    (fun x _ j j' hI hx => ⟨loading_place hI.1 hx, good_place hI.1 hI.2 hx⟩) ⟨loading_start k f frames, h0⟩ hl
  obtain ⟨s, hs, hcore, -⟩ := h2.1.space
  exact good_allocShared h2.2 hs (congrArg Core.ownFrame hcore) ha

end Rumicos.Proc
