/-
The copy-on-write kernel refines the eager-copy machine.

Without MAP_SHARED mappings and with room in COW_TABLE, every operation of the kernel is the same operation of the eager
machine, seen through `abs`: shared frames, cleared write bits and the table of counts are not observable.

- `Mirrored`: the invariant. Beside the accounts (`Good`), a cached page holds the file's bytes, and an entry whose
  mapping permits writing is writable or COW, never both.
- `sysFork_isSome`, `load_isSome`: a fork and a load return when the allocator has the frames for them.
-/
import Rumicos.Proc.Eager
import Rumicos.Proc.Permissions
import Rumicos.Proc.Processes
import Rumicos.Proc.UserFaults

namespace Rumicos.Proc

open Paging Memory Lib Fs Function List Option Slot
open Processes (copyFrames forkCow_frames)
open UserFaults (getOrFill_hit getOrFill_miss mapFresh_isSome mapPage_isSome resolveFileFault_filled)

/-! ## The invariant -/

/-- what every entry satisfies: its mapping is known, a page that may be written is writable or COW, and a writable
entry is not COW -/
def fitted : LeafRule := fun w c o =>
  ∃ x, o = some x ∧ (x.permitsWrite = true → w = true ∨ c = true) ∧ (w = true → c = false)

/-- cached pages hold the bytes of their files -/
def CacheClean (k : Kernel) : Prop :=
  ∀ key e, k.cache.find key = some e → fileContents k.vnodes key.1 key.2 = some (k.mem e.frame)

structure Mirrored (k : Kernel) : Prop where
  shape : Shape k
  good : Good k
  noShared : NoShared k
  leaves : Leaves fitted k
  clean : CacheClean k

variable {k k' : Kernel} {mem : Pfn → Page} {s s' : AddressSpace} {p : UPage} {l : Leaf} {o : Origin}
    {a addr : ℕ} {b : Bool}
variable {r : Option Pfn} {op : Op}

theorem cacheClean_congr (hk : Sound k) (h : CacheClean k) (hc : k'.cache = k.cache)
    (hv : fileContents k'.vnodes = fileContents k.vnodes) (hm : MemKept k k') : CacheClean k' := by
  intro key e he
  rw [hc] at he
  rw [hv, hm e.frame (cached_allocated hk he)]
  exact h key e he

/-! ## One rewritten page -/

theorem CacheClean.of_eq (h : CacheClean k) (hc : k'.cache = k.cache) (hm : k'.mem = k.mem)
    (hv : fileContents k'.vnodes = fileContents k.vnodes) : CacheClean k' := by
  intro key e he
  rw [hv, hm]
  exact h key e (hc ▸ he)

theorem absSpace_congr {mem' : Pfn → Page} (h : ∀ p l, s.leaf p = some l → mem' l.frame = mem l.frame) :
    absSpace mem' s = absSpace mem s := by
  unfold absSpace
  congr 1
  funext p
  rcases hl : s.leaf p with _ | l
  · rfl
  · simp [h p l hl]

theorem absSpace_pages (hl : s.leaf p = some l) (ho : s.origin p = some o) :
    (absSpace mem s).pages p = some ⟨mem l.frame, o⟩ := by
  simp [absSpace, hl, ho]

theorem absSpace_pages_none (hl : s.leaf p = none) : (absSpace mem s).pages p = none := by
  simp [absSpace, hl]

/-- two states that differ in address space `a` only -/
theorem abs_eq_setSpace {x : Option EagerSpace} (ha : (abs k').space a = x)
    (hoth : ∀ b, b ≠ a → (abs k').space b = (abs k).space b) (hlen : k'.spaces.length = k.spaces.length)
    (hp : k'.procs = k.procs) (hf : fileContents k'.vnodes = fileContents k.vnodes) : abs k' = (abs k).setSpace a x := by
  have hspace : (abs k').space = update (abs k).space a x := eq_update_iff.2 ⟨ha, hoth⟩
  unfold Eager.setSpace
  rw [← hspace]
  simp [abs, hlen, hp, hf]

/-- **One rewritten entry**: the page of the eager machine is what the new entry's frame holds. -/
theorem abs_edit (hs : k.space a = some s) (hs' : k'.space a = some s') (hed : SpaceEdited s p (some l) (some o) s')
    (hoth : ∀ b, b ≠ a → k'.space b = k.space b)
    (hmem : ∀ b t q m, k.space b = some t → t.leaf q = some m → (b = a → q ≠ p) → k'.mem m.frame = k.mem m.frame)
    (hlen : k'.spaces.length = k.spaces.length) (hp : k'.procs = k.procs)
    (hf : fileContents k'.vnodes = fileContents k.vnodes) :
    abs k' = (abs k).setPage a (absSpace k.mem s) p ⟨k'.mem l.frame, o⟩ := by
  refine abs_eq_setSpace ?_ (fun b hb => ?_) hlen hp hf
  · rw [abs_space hs', absSpace, hed.vmas, hed.mmapNext, hed.refcount]
    congr 2
    funext q
    by_cases hq : q = p
    · subst hq
      rw [hed.leaf, if_pos rfl, hed.origin, update_self, update_self]
      rfl
    · rw [hed.leaf, if_neg hq, hed.origin, update_of_ne hq, update_of_ne hq]
      change _ = (s.leaf q).bind fun m => (s.origin q).map fun o => EagerPage.mk (k.mem m.frame) o
      rcases hl : s.leaf q with _ | m
      · rfl
      · simp [hmem a s q m hs hl fun _ => hq]
  · simp only [abs, hoth b hb]
    rcases ht : k.space b with _ | t
    · rfl
    · simp only [map_some]
      rw [absSpace_congr fun q m hm => hmem b t q m ht hm fun hba => absurd hba hb]

/-- an entry mapped on a frame whose bytes are known, while the frames in use keep theirs -/
theorem abs_mapPage {j : Kernel} {f : Pfn} {flags : PageFlags} (hk : Sound k) (hs : k.space a = some s)
    (hm : mapPage j a p f flags (some o) = some k') (hpres : flags.has bitPresent = true) (hsp : j.spaces = k.spaces)
    (hpr : j.procs = k.procs) (hvn : j.vnodes = k.vnodes) (hmem : MemKept k j) :
    abs k' = (abs k).setPage a (absSpace k.mem s) p ⟨j.mem f, o⟩ := by
  obtain ⟨l, hl, hlf, -⟩ := leafOf_newPage f hpres
  have he := mapPage_edited hm
  rw [hl] at he
  obtain ⟨s0, s', hs0, hs', hed⟩ := he.space
  have hs1 : j.space a = some s := by rw [Kernel.space, hsp]; exact hs
  cases hs1.symm.trans hs0
  have h := abs_edit hs hs' hed (fun b hb => ?_) (fun b t q m ht hm _ => ?_) ?_ (he.procs.trans hpr) ?_
  · rw [h, he.mem, hlf]
  · rw [he.others b hb, Kernel.space, hsp]
    rfl
  · rw [he.mem]
    exact hmem _ (leaf_allocated hk ht hm)
  · rw [spaces_length he.cores, hsp]
  · rw [he.vnodes, hvn]

theorem abs_mapFresh {page : Page} {flags : PageFlags} (hk : Sound k) (hs : k.space a = some s)
    (hm : mapFresh k a p page flags o = some k') (hpres : flags.has bitPresent = true) :
    abs k' = (abs k).setPage a (absSpace k.mem s) p ⟨page, o⟩ ∧ MemKept k k' := by
  obtain ⟨f, frames, hf, hm⟩ := mapFresh_inv hm
  have hfree := (allocFrame_spec hf).1
  have hkept : MemKept k { k with frames := frames, mem := update k.mem f page } := memKept_update hfree rfl
  refine ⟨?_, ?_⟩
  · have h := abs_mapPage hk hs hm hpres rfl rfl rfl hkept
    rw [h]
    simp
  · exact memKept_update hfree (mapPage_edited hm).mem

/-! ## Loading and forking -/

theorem abs_setSpace (hs : k.space a = some s) :
    abs (k.setSpace a s') = (abs k).setSpace a (some (absSpace k.mem s')) := by
  refine abs_eq_setSpace (abs_space (space_setSpace_self hs s')) (fun b hb => ?_) (by simp [Kernel.setSpace]) rfl rfl
  simp only [abs, space_setSpace_ne k hb s']
  rfl

theorem Eager.setSpace_self {e : Eager} {x : Option EagerSpace} (h : e.space a = x) : e.setSpace a x = e := by
  unfold Eager.setSpace
  rw [← h, update_eq_self]

theorem abs_allocShared (h : allocShared k a = some k') : abs k' = abs k := by
  obtain ⟨s, f, frames, hs, -, rfl⟩ := allocShared_spec h
  have hs0 : ({ k with frames := frames } : Kernel).space a = some s := hs
  rw [abs_setSpace hs0]
  have habs : (abs { k with frames := frames }).space a = some (absSpace k.mem s) := abs_space hs0
  exact Eager.setSpace_self habs

/-- one more address space -/
theorem abs_eq_addSpace {x : EagerSpace} (ha : (abs k').space k.spaces.length = some x)
    (hoth : ∀ b, b ≠ k.spaces.length → (abs k').space b = (abs k).space b)
    (hlen : k'.spaces.length = k.spaces.length + 1) (hp : k'.procs = k.procs) (hv : k'.vnodes = k.vnodes) :
    abs k' = (abs k).addSpace x := by
  have hspace : (abs k').space = update (abs k).space k.spaces.length (some x) := eq_update_iff.2 ⟨ha, hoth⟩
  unfold Eager.addSpace Eager.setSpace
  change _ = Eager.mk (update (abs k).space k.spaces.length _) _ _ _
  rw [← hspace]
  simp [abs, hlen, hp, hv]

theorem abs_addSpace (k : Kernel) (frames : Frames) (s : AddressSpace) :
    abs (addSpace k frames s) = (abs k).addSpace (absSpace k.mem s) := by
  refine abs_eq_addSpace (abs_space (space_addSpace_self k frames s)) (fun b hb => ?_) (by simp [addSpace]) rfl rfl
  simp only [abs, space_addSpace_ne k frames s hb]
  rfl

theorem Eager.setPage_addSpace (e : Eager) (s : EagerSpace) (p : UPage) (x : EagerPage) :
    (e.addSpace s).setPage e.next s p x = e.addSpace { s with pages := update s.pages p (some x) } := by
  simp [Eager.setPage, Eager.setSpace, Eager.addSpace]

/-- the eager address space with the pages of `xs` -/
def placedSpace (xs : List Placed) : EagerSpace where
  pages := xs.foldl (fun pages x => update pages x.page (some ⟨x.bytes, x.origin⟩)) fun _ => none
  vmas := List.replicate maxVmas none
  mmapNext := mmapBase
  refcount := 1

theorem placedSpace_append (xs : List Placed) (x : Placed) :
    placedSpace (xs ++ [x]) = { placedSpace xs with
      pages := update (placedSpace xs).pages x.page (some ⟨x.bytes, x.origin⟩) } := by
  simp [placedSpace]

theorem absSpace_empty (mem : Pfn → Page) (f : Pfn) :
    absSpace mem (emptySpace f (List.replicate maxVmas none) mmapBase) = placedSpace [] := rfl

/-- **Loading an image**, page by page. -/
theorem abs_loadImage {img : Image} {c : ℕ} (hk : Good k) (hlive : k.liveCount ≤ maxProcesses) (hclean : CacheClean k)
    (h : loadImage k img = some (k', c)) : abs k' = (abs k).addSpace (Eager.imageSpace img) ∧ CacheClean k' := by
  obtain ⟨f, frames, k2, hf, rfl, hfold, hsh⟩ := loadImage_inv h
  have h0 : Good (addSpace k frames (emptySpace f (List.replicate maxVmas none) mmapBase)) :=
    good_addSpace hk hlive hf (coreOk_new _ _)
  have hend := foldlM_inv (fun rem j =>
      Loading (addSpace k frames (emptySpace f (List.replicate maxVmas none) mmapBase)) k.spaces.length j ∧ Good j ∧
      CacheClean j ∧ ∃ xs, xs ++ rem = img.layout ∧ abs j = (abs k).addSpace (placedSpace xs))
    (fun x rem j j' hI hx => ?_)
    ⟨loading_start k f frames, h0, hclean, [], rfl, by rw [abs_addSpace, absSpace_empty]⟩ hfold
  · obtain ⟨-, -, hcl, xs, hxs, habs⟩ := hend
    rw [append_nil] at hxs
    subst hxs
    refine ⟨(abs_allocShared hsh).trans habs, ?_⟩
    obtain ⟨s, g, frames', hs, -, rfl⟩ := allocShared_spec hsh
    exact hcl
  · obtain ⟨hld, hgood, hcl, xs, hxs, habs⟩ := hI
    obtain ⟨s, hs, hcore, -⟩ := hld.space
    obtain ⟨heq, hkept⟩ := abs_mapFresh hgood.sound hs hx (by simp)
    have hed := mapPage_edited (mapFresh_inv hx).choose_spec.choose_spec.2
    refine ⟨loading_place hld hx, good_place hld hgood hx, cacheClean_congr hgood.sound hcl hed.cache
      (by rw [hed.vnodes]) hkept, xs ++ [x], by rw [append_assoc]; exact hxs, ?_⟩
    have hsp : absSpace j.mem s = placedSpace xs := by
      have h1 := abs_space hs
      rw [habs] at h1
      exact (some.inj (h1.symm.trans (update_self _ _ _)))
    rw [heq, hsp, habs, placedSpace_append]
    exact Eager.setPage_addSpace _ _ _ _

/-- **Fork**: nobody can tell a shared frame from a copy. -/
theorem abs_forkCow {c : ℕ} (h : forkCow k a = some (k', c)) :
    ∃ s, k.space a = some s ∧ abs k' = (abs k).addSpace { absSpace k.mem s with refcount := 1 } := by
  obtain ⟨s, hs, hfk⟩ := forkCow_spec h
  refine ⟨s, hs, ?_⟩
  obtain ⟨s1, hs1, hcore1, ho1, hl1⟩ := hfk.parent
  obtain ⟨t1, f, ht1, hcore2, hl2, ho2⟩ := hfk.child
  obtain ⟨g, hcores⟩ := hfk.cores
  have hc := hfk.id
  subst hc
  have hparent : absSpace k.mem s1 = absSpace k.mem s := by
    obtain ⟨hv, hn, hr, -⟩ := Core.mk.inj hcore1
    unfold absSpace
    rw [ho1]
    congr 1
    funext p
    rw [hl1]
    rcases s.leaf p with _ | l
    · rfl
    · simp [frame_parentLeaf]
  have hchild : absSpace k.mem t1 = { absSpace k.mem s with refcount := 1 } := by
    obtain ⟨hv, hn, hr, -⟩ := Core.mk.inj hcore2
    unfold absSpace
    congr 1
    funext p
    rcases hl : s.leaf p with _ | l
    · simp [hl2, hl]
    · have hm : t1.leaf p = some (s.childLeaf p l) := by rw [hl2, hl]; rfl
      simp [hm, hl, frame_childLeaf, ho2 p _ hm]
  refine abs_eq_addSpace ?_ (fun b hb => ?_) ?_ hfk.procs hfk.vnodes
  · rw [abs_space ht1, hfk.mem, hchild]
  · by_cases hba : b = a
    · subst hba
      rw [abs_space hs1, abs_space hs, hfk.mem, hparent]
    · simp [abs, hfk.others b hba hb, hfk.mem]
  · have := congrArg List.length hcores
    simpa [Kernel.cores] using this

/-! ## Areas and references -/

theorem fileContents_update {vnodes : ℕ → VNode} {v : ℕ} {vn : VNode} (h1 : vn.vtype = (vnodes v).vtype)
    (h2 : vn.size = (vnodes v).size) (h3 : vn.blocks = (vnodes v).blocks) :
    fileContents (update vnodes v vn) = fileContents vnodes := by
  funext w off
  by_cases hw : w = v
  · subst hw
    simp only [fileContents, fillPageFromVnode, update_self, h1]
    split
    · congr 1
      funext i
      simp [ramfsRead_spec, VNode.byteAt, h2, h3]
    · rfl
  · rw [fileContents, update_of_ne hw]
    rfl

theorem fileContents_incRef (k : Kernel) (v : ℕ) : fileContents (vnodeIncRef k v).vnodes = fileContents k.vnodes :=
  fileContents_update rfl rfl rfl

theorem fileContents_decRef (k : Kernel) (v : ℕ) : fileContents (vnodeDecRef k v).vnodes = fileContents k.vnodes :=
  fileContents_update rfl rfl rfl

theorem fileContents_afterIncRef (k : Kernel) (req : MapRequest) :
    fileContents (afterIncRef k req).vnodes = fileContents k.vnodes := by
  cases req with
  | anonymous => rfl
  | file v off shared canWrite => exact fileContents_incRef k v

theorem abs_vnodes (h : k' = { k with vnodes := k'.vnodes }) (hf : fileContents k'.vnodes = fileContents k.vnodes) :
    abs k' = abs k := by
  have hs : k'.spaces = k.spaces := by rw [h]
  have hm : k'.mem = k.mem := by rw [h]
  have hp : k'.procs = k.procs := by rw [h]
  simp [abs, Kernel.space, hs, hm, hp, hf]

/-- **mmap**. -/
theorem abs_sysMmap {length : ℕ} {prot : Prot} {req : MapRequest} {r : Option ℕ}
    (h : sysMmap k a length prot req = some (k', r)) :
    (abs k).mmap a length prot req = some (abs k') ∧ k'.cache = k.cache ∧ k'.mem = k.mem ∧
      fileContents k'.vnodes = fileContents k.vnodes := by
  unfold sysMmap at h
  rcases hs : k.space a with _ | s
  · rw [hs] at h; cases h
  rw [hs, bind_eq_bind, bind_some] at h
  unfold Eager.mmap
  rw [abs_space hs, bind_eq_bind, bind_some]
  by_cases hal : mmapAllowed length prot req = true
  swap
  · rw [if_neg hal] at h ⊢
    simp only [Option.pure_def, some.injEq, Prod.mk.injEq] at h
    exact h.1 ▸ ⟨rfl, rfl, rfl, rfl⟩
  rw [if_pos hal] at h ⊢
  rcases hlen : alignUpPage length with _ | len
  · rw [hlen] at h
    simp only [Option.pure_def, some.injEq, Prod.mk.injEq] at h
    exact h.1 ▸ ⟨rfl, rfl, rfl, rfl⟩
  rw [hlen] at h
  have hvm : (absSpace k.mem s).vmas = s.vmas := rfl
  have hnx : (absSpace k.mem s).mmapNext = s.mmapNext := rfl
  simp only [hvm, hnx] at h ⊢
  rcases hm : mmap s.vmas s.mmapNext len (protToPageFlags prot) req.backing with _ | ⟨start, vmas, next⟩
  · rw [hm] at h
    simp only [Option.pure_def, some.injEq, Prod.mk.injEq] at h ⊢
    obtain ⟨h, -⟩ := h
    subst h
    cases req with
    | anonymous => exact ⟨rfl, rfl, rfl, rfl⟩
    | file v off shared canWrite =>
      have hf := (fileContents_decRef (vnodeIncRef k v) v).trans (fileContents_incRef k v)
      exact ⟨(abs_vnodes rfl hf).symm, rfl, rfl, hf⟩
  · rw [hm] at h
    simp only [Option.pure_def, some.injEq, Prod.mk.injEq] at h ⊢
    obtain ⟨h, -⟩ := h
    have heq := afterIncRef_eq k req
    have hs1 : (afterIncRef k req).space a = some s := by rw [heq]; exact hs
    have hmem : (afterIncRef k req).mem = k.mem := by rw [heq]
    have hf := fileContents_afterIncRef k req
    have hk' : k' = (afterIncRef k req).setSpace a { s with vmas := vmas, mmapNext := next } := h.symm
    subst hk'
    refine ⟨?_, ?_, hmem, hf⟩
    · rw [abs_setSpace hs1, abs_vnodes heq hf, hmem]
      rfl
    · change (afterIncRef k req).cache = _
      rw [heq]

theorem afterWriteback_private {vma : Vma} (h : vma.isShared = false) : afterWriteback k vma = k := by
  unfold afterWriteback
  split
  · rename_i hb
    rw [Vma.isShared, hb] at h
    cases h
  · rfl

/-- **munmap** of an area that is not MAP_SHARED. -/
theorem abs_munmap {len : ℕ} (hk : AreasInv k) (hns : NoShared k) (h : munmap k a addr len = some (k', b)) :
    (abs k).unmap a addr len = some (abs k') ∧ k'.cache = k.cache ∧ k'.mem = k.mem ∧
      fileContents k'.vnodes = fileContents k.vnodes := by
  obtain ⟨s, hs, h⟩ := munmap_cases h
  unfold Eager.unmap
  rw [abs_space hs, bind_eq_bind, bind_some]
  have hvm : (absSpace k.mem s).vmas = s.vmas := rfl
  rcases h with ⟨ht, rfl⟩ | ⟨slot, vma, k2, s2, ht, hslot, rfl, hend, hloop, hs2, rfl⟩
  · rw [hvm, ht]
    exact ⟨rfl, rfl, rfl, rfl⟩
  rw [← hend] at hloop
  have hmm := munmapped hs hslot hloop hs2 (hk a s hs).vmas
  have hw := afterWriteback_private (k := k) (hns.area hs vma (mem_of_getElem? hslot))
  have hf : fileContents ((afterDecRef k2 vma).setSpace a { s2 with vmas := s2.vmas.set slot none }).vnodes =
      fileContents k.vnodes := by
    rw [hmm.vnodes, hw]
    unfold afterDecRef
    split
    · exact fileContents_decRef k _
    · rfl
  refine ⟨?_, by rw [hmm.cache, hw], hmm.mem, hf⟩
  obtain ⟨s', hs', hcore, hleaf, horigin⟩ := hmm.space
  rw [hvm, ht]
  simp only [Option.pure_def, some.injEq]
  refine (abs_eq_setSpace ?_ (fun b hb => ?_) ?_ hmm.procs hf).symm
  · obtain ⟨hv, hn, hr, -⟩ := Core.mk.inj hcore
    rw [abs_space hs', hmm.mem, absSpace, absSpace]
    congr 2
    funext q
    rw [hleaf]
    by_cases hc : vma.contains (pageAddr q) = true
    · have hr := (contains_iff _ _).1 hc
      rw [hend] at hr
      rw [if_pos hc, if_pos hr]
      rfl
    · have hr : ¬ (vma.start ≤ pageAddr q ∧ pageAddr q < vma.start + len) := by
        rw [← hend, ← contains_iff]
        exact hc
      rw [if_neg hc, if_neg hr, horigin q (by simpa using hc)]
  · simp [abs, hmm.others b hb, hmm.mem]
  · have := congrArg List.length hmm.cores
    simpa [Kernel.cores] using this

/-- **Dropping a reference**. -/
theorem abs_dropRef (h : dropRef k a = some k') :
    (abs k).dropRef a = some (abs k') ∧ k'.cache = k.cache ∧ k'.mem = k.mem ∧ k'.vnodes = k.vnodes := by
  obtain ⟨s, hs, h⟩ := dropRef_cases h
  unfold Eager.dropRef
  rw [abs_space hs, bind_eq_bind, bind_some, show (absSpace k.mem s).refcount = s.refcount from rfl]
  obtain ⟨hr, own, -, rfl⟩ | ⟨hr, rfl⟩ := h
  · refine ⟨?_, rfl, rfl, rfl⟩
    rw [if_pos hr]
    simp only [Option.pure_def, some.injEq]
    symm
    refine abs_eq_setSpace ?_ (fun b hb => ?_) ?_ rfl rfl
    · simp [abs, Kernel.space, Kernel.without, getElem?_set_self (space_lt hs)]
    · simp [abs, Kernel.space, Kernel.without, getElem?_set_ne (Ne.symm hb)]
    · simp [Kernel.without]
  · refine ⟨?_, rfl, rfl, rfl⟩
    rw [if_neg hr, abs_setSpace hs]
    rfl

/-! ## Accesses -/

/-- the bytes behind the frame that `get_or_fill` returns are the file's -/
theorem getOrFill_bytes {st : Store} {v off : ℕ} (hk : Sound k) (hclean : CacheClean k)
    (h : getOrFill k.toStore v off = some (st, r)) :
    MemKept k { k with toStore := st } ∧ CacheClean { k with toStore := st } ∧ st.vnodes = k.vnodes ∧
      r.map st.mem = fileContents k.vnodes v off := by
  rcases getOrFill_cases h with ⟨e, he, rfl, rfl⟩ | ⟨f, frames, hn, hf, hfill, rfl, rfl⟩ |
    ⟨f, frames, page, hn, hf, hfill, rfl, hr⟩
  · exact ⟨fun _ _ => rfl, hclean, rfl, (hclean (v, off) e he).symm⟩
  · have hkept : MemKept k { k with toStore := { k.toStore with
        frames := freeFrame frames f, mem := update k.mem f zeroPage } } :=
      memKept_update (allocFrame_spec hf).1 rfl
    exact ⟨hkept, cacheClean_congr hk hclean rfl rfl hkept, rfl, hfill.symm⟩
  · have hfree := (allocFrame_spec hf).1
    rcases hr with ⟨hroom, rfl⟩ | ⟨-, rfl⟩
    · have hkept : MemKept k { k with toStore := { k.toStore with
          frames := frames, mem := update k.mem f page
          cache := k.cache.insert (v, off) ⟨f, false⟩ hn } } := memKept_update hfree rfl
      refine ⟨hkept, fun key e he => ?_, rfl, ?_⟩
      · rw [Table.find_insert _ _ _ _ _ hroom] at he
        split_ifs at he with hkey
        · cases he
          subst hkey
          simp only [update_self]
          exact hfill
        · rw [hkept e.frame (cached_allocated hk he)]
          exact hclean key e he
      · simp only [map_some, update_self]
        exact hfill.symm
    · have hkept : MemKept k { k with toStore := { k.toStore with
          frames := frames, mem := update k.mem f page, orphans := f :: k.orphans } } :=
        memKept_update hfree rfl
      refine ⟨hkept, cacheClean_congr hk hclean rfl rfl hkept, rfl, ?_⟩
      simp only [map_some, update_self]
      exact hfill.symm

theorem abs_fileFault (hk : Mirrored k) (hs : k.space a = some s) (hf : FileFault k a addr s k' b) :
    CacheClean k' ∧ ((b = false ∧ Eager.demandPage (abs k).files (absSpace k.mem s) addr = none ∧ abs k' = abs k) ∨
      b = true ∧ ∃ x, Eager.demandPage (abs k).files (absSpace k.mem s) addr = some x ∧
        abs k' = (abs k).setPage a (absSpace k.mem s) (pageOf addr) x) := by
  have hvm : (absSpace k.mem s).vmas = s.vmas := rfl
  have hfiles : (abs k).files = fileContents k.vnodes := rfl
  cases hf with
  | noArea hv =>
    refine ⟨hk.clean, .inl ⟨rfl, ?_, rfl⟩⟩
    rw [Eager.demandPage, hvm, hv]
  | @failed vma v fo shared st hv hb hg =>
    obtain ⟨hkept, hcl, hvn, hbytes⟩ := getOrFill_bytes hk.good.sound hk.clean hg
    refine ⟨hcl, .inl ⟨rfl, ?_, ?_⟩⟩
    · rw [Eager.demandPage, hvm, hv]
      simp [hb, hfiles, ← hbytes]
    · have hsp : ∀ c t, k.space c = some t → absSpace st.mem t = absSpace k.mem t := fun c t ht =>
        absSpace_congr fun q m hm => hkept _ (leaf_allocated hk.good.sound ht hm)
      have hspace : (abs { k with toStore := st }).space = (abs k).space := by
        funext c
        change (k.space c).map (absSpace st.mem) = (k.space c).map (absSpace k.mem)
        rcases ht : k.space c with _ | t
        · rfl
        · simp [hsp c t ht]
      have habs : abs { k with toStore := st } = { abs k with space := (abs { k with toStore := st }).space } := by
        simp [abs, hvn]
      rw [habs, hspace]
  | @anon vma _ hv hb hm =>
    obtain ⟨heq, hkept⟩ := abs_mapFresh hk.good.sound hs hm (hk.shape.areas.bits hs hv).1.present
    obtain ⟨f, frames, -, hm⟩ := mapFresh_inv hm
    have hed := mapPage_edited hm
    refine ⟨cacheClean_congr hk.good.sound hk.clean hed.cache (by rw [hed.vnodes]) hkept, .inr ⟨rfl, _, ?_, heq⟩⟩
    rw [Eager.demandPage, hvm, hv]
    simp [hb]
  | @priv vma v fo st f _ hv hb hg hm =>
    obtain ⟨hkept, hcl, hvn, hbytes⟩ := getOrFill_bytes hk.good.sound hk.clean hg
    have hed := mapPage_edited hm
    refine ⟨hcl.of_eq hed.cache hed.mem (by rw [hed.vnodes]), .inr ⟨rfl, ⟨st.mem f, .area vma⟩, ?_, ?_⟩⟩
    · rw [Eager.demandPage, hvm, hv]
      simp [hb, hfiles, ← hbytes]
    · exact abs_mapPage hk.good.sound hs hm (hk.shape.areas.bits hs hv).2.2.present rfl rfl hvn hkept
  | @sharedRw vma v fo st f _ hv hb hw hg hm | @sharedRo vma v fo st f _ hv hb hw hg hm =>
    have := hk.noShared.area hs vma (findVma_mem hv).1
    rw [Vma.isShared, hb] at this
    cases this

/-- a rewritten entry whose frame holds the bytes of the old one -/
theorem abs_setLeaf {j : Kernel} {m : Leaf} {x : Option Leaf} (hk : Sound k) (hs : k.space a = some s)
    (hl : s.leaf p = some l)
    (ho : s.origin p = some o) (hm : setLeaf j a p x (s.origin p) = some k') (hx : x = some m) (hsp : j.spaces = k.spaces)
    (hpr : j.procs = k.procs) (hvn : j.vnodes = k.vnodes) (hmem : MemKept k j) (hb : j.mem m.frame = k.mem l.frame) :
    abs k' = abs k := by
  have hs1 : j.space a = some s := by rw [Kernel.space, hsp]; exact hs
  have he := setLeaf_edited hm hl hs1
  rw [hx, ho] at he
  obtain ⟨s0, s', hs0, hs', hed⟩ := he.space
  cases hs1.symm.trans hs0
  have h := abs_edit hs hs' hed (fun b hb => ?_) (fun b t q n ht hn _ => ?_) ?_ (he.procs.trans hpr) ?_
  · -- the page before the fault is the page after it
    rw [h, he.mem, hb]
    refine Eager.setSpace_self ((abs_space hs).trans ?_)
    rw [← absSpace_pages hl ho, update_eq_self]
  · rw [he.others b hb, Kernel.space, hsp]
    rfl
  · rw [he.mem]
    exact hmem _ (leaf_allocated hk ht hn)
  · rw [spaces_length he.cores, hsp]
  · rw [he.vnodes, hvn]

theorem abs_cowFault (hk : Sound k) (hclean : CacheClean k) (hleaves : Leaves fitted k) (hs : k.space a = some s)
    (hf : CowFault k a addr s k' b) : CacheClean k' ∧ abs k' = abs k := by
  cases hf with
  | notCow _ => exact ⟨hclean, rfl⟩
  | @reuse l _ hl hc hsole hm =>
    obtain ⟨o, ho, -⟩ := hleaves a s hs _ l hl
    obtain ⟨m, hm', hmf, -, -⟩ := leafOf_cowWritable l l.entry.frame
    have he := setLeaf_edited hm hl hs
    exact ⟨hclean.of_eq he.cache he.mem (by rw [he.vnodes]),
      abs_setLeaf hk hs hl ho hm hm' rfl rfl rfl (fun _ _ => rfl) (by rw [hmf]; rfl)⟩
  | @copy l g frames _ hl hc hsole hg hm =>
    obtain ⟨o, ho, -⟩ := hleaves a s hs _ l hl
    obtain ⟨m, hm', hmf, -, -⟩ := leafOf_cowWritable l g
    have he := setLeaf_edited hm hl hs
    have hfree := (allocFrame_spec hg).1
    exact ⟨cacheClean_congr hk hclean he.cache (by rw [he.vnodes]) (memKept_update hfree he.mem),
      abs_setLeaf hk hs hl ho hm hm' rfl rfl rfl (memKept_update hfree rfl) (by rw [hmf]; exact update_self ..)⟩

theorem abs_present {w : Bool} (hk : w = true → Sound k) (hclean : CacheClean k) (hleaves : Leaves fitted k)
    (hs : k.space a = some s) (hl : s.leaf (pageOf addr) = some l)
    (hperm : w = true → (s.origin (pageOf addr)).all Origin.permitsWrite = true) (hp : Present k a addr w k' r) :
    CacheClean k' ∧ abs k' = abs k ∧ ∃ s' l', k'.space a = some s' ∧ s'.leaf (pageOf addr) = some l' ∧
      r = some l'.frame ∧ (w = true → l'.isWritable = true) := by
  cases hp with
  | hit hs1 hl1 hw =>
    refine ⟨hclean, rfl, _, _, hs1, hl1, rfl, fun hw1 => ?_⟩
    rw [hw1] at hw
    simpa using hw
  | kill hs1 hl1 hw hc =>
    -- a page that may be written is writable or COW
    cases hs.symm.trans hs1
    cases hl.symm.trans hl1
    rw [Bool.and_eq_true] at hw
    obtain ⟨o, ho, hfit, -⟩ := hleaves a s hs _ l hl
    have hpo := hperm hw.1
    rw [ho] at hpo
    rcases hfit hpo with h | h
    · rw [h] at hw
      cases hw.2
    · rw [h] at hc
      cases hc
  | cow hs1 hl1 hw hf hs' hl' hw' =>
    rw [Bool.and_eq_true] at hw
    obtain ⟨hcl, habs⟩ := abs_cowFault (hk hw.1) hclean hleaves hs1 hf
    exact ⟨hcl, habs, _, _, hs', hl', rfl, fun _ => hw'⟩

theorem accessRules_fitted (h : Leaves fitted k) (a addr : ℕ) (w : Bool) : AccessRules fitted k a addr w := by
  refine ⟨fun vma _ => ⟨_, rfl, fun _ => .inl rfl, fun _ => rfl⟩, fun vma => ⟨_, rfl, fun _ => .inr rfl, ?_⟩,
    fun vma _ => ⟨_, rfl, fun _ => .inl rfl, fun _ => rfl⟩, fun vma hw => ⟨_, rfl, fun hp => ?_, fun _ => rfl⟩,
    fun _ hr => ?_⟩
  · intro hw
    cases hw
  · rw [show Origin.permitsWrite (.area vma) = flagsWritable vma.flags from rfl, hw] at hp
    cases hp
  · -- a copy-on-write fault is on a page that some mapping created
    rcases hs : k.space a with _ | s
    · simp [resolves, hs] at hr
    rcases hl : s.leaf (pageOf addr) with _ | l
    · rcases hv : findVma s.vmas (addr / pageSize * pageSize) with _ | vma
      · simp [resolves, hs, hl, hv] at hr
      · exact ⟨.area vma, by simp [mappingAt, hs, hl, hv], fun _ => .inl rfl, fun _ => rfl⟩
    · obtain ⟨o, ho, -⟩ := h a s hs _ l hl
      exact ⟨o, by simp [mappingAt, hs, hl, ho], fun _ => .inl rfl, fun _ => rfl⟩

theorem page_of_abs {S : EagerSpace} {x : EagerPage} (h : abs k' = (abs k).setPage a S p x) (hs' : k'.space a = some s')
    (hl : s'.leaf p = some l) : k'.mem l.frame = x.bytes ∧ s'.origin p = some x.origin := by
  have h1 : some (absSpace k'.mem s') = some { S with pages := update S.pages p (some x) } := by
    rw [← abs_space hs', h]
    exact Eager.setPage_space_self _ _ _ _ _
  have h2 := congrFun (congrArg EagerSpace.pages (some.inj h1)) p
  change _ = update S.pages p (some x) p at h2
  rw [update_self] at h2
  simp only [absSpace, hl, bind_some, map_eq_some_iff] at h2
  obtain ⟨o, ho, rfl⟩ := h2
  exact ⟨rfl, ho⟩

/-- the outcome of an access, in terms of the eager machine -/
structure Accessed (k : Kernel) (a addr : ℕ) (s : AddressSpace) (w : Bool) (k' : Kernel) (f : Pfn) (x : EagerPage) :
    Prop where
  page : Eager.pageAt (abs k).files (absSpace k.mem s) addr = some x
  abs : abs k' = (abs k).setPage a (absSpace k.mem s) (pageOf addr) x
  bytes : k'.mem f = x.bytes
  leaf : ∃ s' l', k'.space a = some s' ∧ s'.leaf (pageOf addr) = some l' ∧ l'.frame = f ∧
    s'.origin (pageOf addr) = some x.origin ∧ (w = true → l'.isWritable = true)

/-- **An access** reaches the page the eager machine sees, or there is none. -/
theorem abs_access {w : Bool} (hk : Mirrored k) (haddr : addr < userTop) (hs : k.space a = some s)
    (hfits : w = true → FaultFits k a addr) (hperm : w = true → (mappingAt k a addr).all Origin.permitsWrite = true)
    (ha : Access k a addr w k' r) :
    CacheClean k' ∧ ((r = none ∧ Eager.pageAt (abs k).files (absSpace k.mem s) addr = none ∧ abs k' = abs k) ∨
      ∃ f x, r = some f ∧ Accessed k a addr s w k' f x) := by
  have hdemand : s.leaf (pageOf addr) = none → Eager.pageAt (abs k).files (absSpace k.mem s) addr =
      Eager.demandPage (abs k).files (absSpace k.mem s) addr := fun hn => by
    rw [Eager.pageAt, absSpace_pages_none hn, none_or]
  cases ha with
  | present hp =>
    have hex : ∃ l, s.leaf (pageOf addr) = some l := by
      cases hp with
      | hit hs1 hl _ | kill hs1 hl _ _ | cow hs1 hl _ _ _ _ _ => cases hs.symm.trans hs1; exact ⟨_, hl⟩
    obtain ⟨l, hl⟩ := hex
    obtain ⟨o, ho, -⟩ := hk.leaves a s hs _ l hl
    have hmap : mappingAt k a addr = s.origin (pageOf addr) := by simp [mappingAt, hs, hl]
    rw [hmap] at hperm
    obtain ⟨hcl, habs, s', l', hs', hl', rfl, hw⟩ :=
      abs_present (fun _ => hk.good.sound) hk.clean hk.leaves hs hl hperm hp
    have hpages : (absSpace k.mem s).pages (pageOf addr) = some ⟨k.mem l.frame, o⟩ := absSpace_pages hl ho
    have hset : abs k' = (abs k).setPage a (absSpace k.mem s) (pageOf addr) ⟨k.mem l.frame, o⟩ := by
      rw [habs]
      refine (Eager.setSpace_self ((abs_space hs).trans ?_)).symm
      rw [← hpages, update_eq_self]
    obtain ⟨hb, hor⟩ := page_of_abs hset hs' hl'
    refine ⟨hcl, .inr ⟨_, _, rfl, ?_, hset, hb, s', l', hs', hl', rfl, hor, hw⟩⟩
    rw [Eager.pageAt, hpages, some_or]
  | noPage hs1 hn hf =>
    cases hs.symm.trans hs1
    obtain ⟨hcl, ⟨-, hnone, habs⟩ | ⟨hb, -⟩⟩ := abs_fileFault hk hs hf
    · exact ⟨hcl, .inl ⟨rfl, (hdemand hn).trans hnone, habs⟩⟩
    · cases hb
  | @page _ k1 _ _ hs1 hn hf hp =>
    cases hs.symm.trans hs1
    obtain ⟨hcl1, ⟨hb, -⟩ | ⟨-, x, hx, habs1⟩⟩ := abs_fileFault hk hs hf
    · cases hb
    obtain ⟨s1, l1, vma, hs1, hl1, hv, ho1, -⟩ := fileFault_entry hk.shape.areas hs hf
    have hleaves1 := leaves_fileFault hk.shape.areas hk.leaves hs hn (accessRules_fitted hk.leaves a addr w) hf
    have hmap : mappingAt k a addr = s1.origin (pageOf addr) := by simp [mappingAt, hs, hn, hv, ho1]
    rw [hmap] at hperm
    obtain ⟨hcl, habs, s', l', hs', hl', rfl, hw⟩ := abs_present
      (fun hw => (good_fileFault hk.good hs hn haddr (hfits hw) hf).sound) hcl1 hleaves1 hs1 hl1 hperm hp
    have hset := habs.trans habs1
    obtain ⟨hb, hor⟩ := page_of_abs hset hs' hl'
    exact ⟨hcl, .inr ⟨_, x, rfl, (hdemand hn).trans hx, hset, hb, s', l', hs', hl', rfl, hor, hw⟩⟩

/-! ## Stores -/

theorem leaf_unique {b : ℕ} {t : AddressSpace} {q : UPage} {m : Leaf} (h : leavesOn k l.frame ≤ 1)
    (hs : k.space a = some s)
    (hl : s.leaf p = some l) (ht : k.space b = some t) (hm : t.leaf q = some m) (hf : m.frame = l.frame) :
    b = a ∧ q = p := by
  have hpos : ∀ (u : AddressSpace) (z : UPage) (n : Leaf), u.leaf z = some n → n.frame = l.frame →
      0 < (leaves (some u.pml4)).countP fun x => decide (x.2.frame = l.frame) := fun u z n hn hf =>
    countP_pos_iff.2 ⟨(z, n), (mem_leaves _ _ _).2 hn, by simp [hf]⟩
  have hab : b = a := by
    by_contra hne
    have h1 := total_without hs fun s => (leaves (some s.pml4)).countP fun x => decide (x.2.frame = l.frame)
    have ht' : (k.without a).space b = some t := by
      simp only [Kernel.without, Kernel.space, getElem?_set_ne (Ne.symm hne)]
      exact ht
    have h2 := le_total ht' fun s => (leaves (some s.pml4)).countP fun x => decide (x.2.frame = l.frame)
    have h3 := hpos t q m hm hf
    have h4 := hpos s p l hl rfl
    unfold leavesOn at h
    omega
  subst hab
  cases hs.symm.trans ht
  refine ⟨rfl, ?_⟩
  by_contra hne
  -- two members of the walk on one frame
  have h1 := le_total hs fun s => (leaves (some s.pml4)).countP fun x => decide (x.2.frame = l.frame)
  have hsub : [(p, l), (q, m)].Subperm
      ((leaves (some s.pml4)).filter fun x => decide (x.2.frame = l.frame)) := by
    refine subperm_of_subset ?_ fun x hx => ?_
    · simp only [nodup_cons, mem_singleton, Prod.mk.injEq, not_mem_nil, not_false_eq_true,
        nodup_nil, and_true]
      exact fun h => hne h.1.symm
    · rw [mem_filter]
      simp only [mem_cons, not_mem_nil, or_false] at hx
      rcases hx with rfl | rfl
      · exact ⟨(mem_leaves _ _ _).2 hl, by simp⟩
      · exact ⟨(mem_leaves _ _ _).2 hm, by simp [hf]⟩
  have h2 := hsub.length_le
  rw [← countP_eq_length_filter] at h2
  have h3 : 2 ≤ 1 := le_trans h2 (le_trans h1 h)
  omega

theorem writable_alone (hk : Sound k) (hns : NoShared k) (hleaves : Leaves fitted k) (hs : k.space a = some s)
    (hl : s.leaf p = some l) (hw : l.isWritable = true) : leavesOn k l.frame ≤ 1 ∧ cached k.cache l.frame = false := by
  obtain ⟨o, -, -, hc⟩ := hleaves a s hs p l hl
  have hpos := users_pos hs hl
  rw [kindOf_own (hc hw) (hns.inShared hs p)] at hpos
  obtain ⟨h1, h2, h3, -, h5, -⟩ := (hk l.frame).own_only hpos
  rw [leavesOn_account, h1, h2, h3]
  exact ⟨le_rfl, not_cached_of_kept h5⟩

/-- **A store** to a frame with one entry changes one page. -/
theorem abs_stored (b : UInt8) (hk : Sound k) (hns : NoShared k) (hleaves : Leaves fitted k) (hclean : CacheClean k)
    (hs : k.space a = some s) (hl : s.leaf (pageOf addr) = some l) (ho : s.origin (pageOf addr) = some o)
    (hw : l.isWritable = true) :
    CacheClean (stored k s l.frame addr b) ∧
      abs (stored k s l.frame addr b) = (abs k).setPage a (absSpace k.mem s) (pageOf addr)
        ⟨update (k.mem l.frame) (addr % pageSize) b, o⟩ := by
  obtain ⟨hone, hnc⟩ := writable_alone hk hns hleaves hs hl hw
  refine ⟨fun key e he => ?_, ?_⟩
  · replace he : k.cache.find key = some e := he
    have hne : e.frame ≠ l.frame := fun hf => by
      rw [(cached_iff _ _).2 ⟨key, e, he, hf⟩] at hnc
      cases hnc
    simp only [stored, update_of_ne hne]
    exact hclean key e he
  · have hself : SpaceEdited s (pageOf addr) (some l) (some o) s := by
      refine ⟨fun q => ?_, rfl, rfl, rfl, rfl, ?_⟩
      · split_ifs with hq
        · rw [hq, hl]
        · rfl
      · rw [← ho, update_eq_self]
    have hs' : (stored k s l.frame addr b).space a = some s := hs
    have h := abs_edit hs hs' hself (fun _ _ => rfl) (fun c t q m ht hm hne => ?_) rfl rfl rfl
    · rw [h]
      simp [stored]
    · have hmf : m.frame ≠ l.frame := fun hf => by
        obtain ⟨h1, h2⟩ := leaf_unique hone hs hl ht hm hf
        exact hne h1 h2
      simp [stored, update_of_ne hmf]

/-! ## Runs -/

/-- no MAP_SHARED mapping and no write() to a file, room in COW_TABLE, and stores only where the mapping permits -/
def EagerOk (k : Kernel) : Op → Prop
  | .fork a => Fits k.cow (forkFrames k a)
  | .mmap _ _ _ req => req.isShared = false
  | .load a addr => FaultFits k a addr
  | .store a addr _ => FaultFits k a addr ∧ (mappingAt k a addr).all Origin.permitsWrite = true
  | .write _ _ _ => False
  | _ => True

instance (k : Kernel) (op : Op) : Decidable (EagerOk k op) := by
  induction op using Op.casesOn <;> unfold EagerOk <;> infer_instance

theorem stepOk_of_eagerOk (h : NoShared k) (hok : EagerOk k op) : StepOk k op := by
  cases op with
  | fork a | load a addr => exact hok
  | execve a img | exit a => exact fun s hs _ p l _ => h.inShared hs p
  | mmap a length prot req =>
    intro hsh
    rw [show req.isShared = false from hok] at hsh
    cases hsh
  | store a addr b => exact hok.1
  | _ => trivial

theorem Eager.register_eq {e : Eager} (h : e.procs < maxProcesses) :
    e.register = some { e with procs := e.procs + 1 } := if_pos h

/-- a load of the kernel is the load of the eager machine; room in COW_TABLE plays no part in what it returns -/
theorem abs_load {r : Option UInt8} (hk : Mirrored k) (h : load k a addr = some (k', r)) :
    (abs k).load a addr = some (abs k', r) ∧ CacheClean k' := by
  obtain ⟨haddr, x, ha, rfl⟩ := load_inv hk.shape.areas h
  obtain ⟨s, hs⟩ := ha.space
  unfold Eager.load
  rw [if_neg (not_le.2 haddr), abs_space hs]
  simp only [bind_eq_bind, bind_some, Option.pure_def, some.injEq, Prod.mk.injEq]
  obtain ⟨hcl, ⟨rfl, hnone, habs⟩ | ⟨f, y, rfl, hacc⟩⟩ := abs_access hk haddr hs (fun hw => by cases hw)
    (fun hw => by cases hw) ha
  · refine ⟨⟨?_, by rw [hnone]; rfl⟩, hcl⟩
    rw [Eager.touch, hnone, habs]
  · refine ⟨⟨?_, ?_⟩, hcl⟩
    · rw [Eager.touch, hacc.page, hacc.abs]
    · rw [hacc.page, map_some, map_some, hacc.bytes]

theorem abs_store {b : UInt8} (hk : Mirrored k) (hok : EagerOk k (.store a addr b)) (h : store k a addr b = some k') :
    (abs k).store a addr b = some (abs k') ∧ CacheClean k' := by
  obtain ⟨haddr, ha⟩ := store_inv hk.shape.areas h
  have hsp : ∃ s, k.space a = some s := by
    rcases ha with ha | ⟨k1, f, s, ha, -, -⟩
    · exact ha.space
    · exact ha.space
  obtain ⟨s, hs⟩ := hsp
  unfold Eager.store
  rw [if_neg (not_le.2 haddr), abs_space hs]
  simp only [bind_eq_bind, bind_some]
  rcases ha with ha | ⟨k1, f, s1, ha, hs1, rfl⟩
  · obtain ⟨hcl, ⟨-, hnone, habs⟩ | ⟨f, y, hr, -⟩⟩ := abs_access hk haddr hs (fun _ => hok.1) (fun _ => hok.2) ha
    · rw [hnone]
      exact ⟨by rw [habs]; rfl, hcl⟩
    · cases hr
  · obtain ⟨hcl, ⟨hr, -⟩ | ⟨f', y, hr, hacc⟩⟩ := abs_access hk haddr hs (fun _ => hok.1) (fun _ => hok.2) ha
    · cases hr
    cases hr
    obtain ⟨s', l', hs', hl', hfr, hor, hw⟩ := hacc.leaf
    cases hs1.symm.trans hs'
    subst hfr
    have hgood := good_access hk.good haddr hok.1 ha
    have hns : NoShared k1 := by
      rw [NoShared, (access_frame ha).2.1]
      exact hk.noShared
    have hleaves := leaves_access hk.shape.areas hk.leaves (accessRules_fitted hk.leaves a addr true) ha
    obtain ⟨hcl', habs⟩ := abs_stored b hgood.sound hns hleaves hcl hs1 hl' hor (hw rfl)
    -- the page is the mapping's, so the store is permitted
    have hperm : y.origin.permitsWrite = true := by
      have hmap := hok.2
      have hy := hacc.page
      rw [Eager.pageAt] at hy
      rcases hl : s.leaf (pageOf addr) with _ | l
      · rw [absSpace_pages_none hl] at hy
        obtain ⟨vma, hv, hyo⟩ := Eager.demandPage_origin hy
        simp only [mappingAt, hs, hl, bind_eq_bind, bind_some] at hmap
        rw [show findVma s.vmas (addr / pageSize * pageSize) = some vma from hv] at hmap
        rw [hyo]
        simpa using hmap
      · obtain ⟨o, ho, -⟩ := hk.leaves a s hs _ l hl
        rw [absSpace_pages hl ho] at hy
        cases hy
        simpa [mappingAt, hs, hl, ho] using hmap
    rw [hacc.page]
    simp only [hperm, if_true, Option.pure_def]
    refine ⟨?_, hcl'⟩
    rw [habs, hacc.bytes]
    -- the second write to the page hides the first
    have hS : absSpace k1.mem s1 = { absSpace k.mem s with
        pages := update (absSpace k.mem s).pages (pageOf addr) (some y) } := by
      have h1 := abs_space hs1
      rw [hacc.abs] at h1
      exact some.inj (h1.symm.trans (Eager.setPage_space_self _ _ _ _ _))
    rw [hS, hacc.abs]
    simp [Eager.setPage, Eager.setSpace]

theorem abs_stepMunmap {length : ℕ} (hk : Mirrored k) (h : step k (.munmap a addr length) = some k') :
    (abs k).step (.munmap a addr length) = some (abs k') ∧ CacheClean k' := by
  simp only [step, sysMunmap, bind_eq_bind, bind_eq_some_iff] at h
  obtain ⟨s, hs, h⟩ := h
  change (abs k).munmap a addr length = _ ∧ _
  rw [Eager.munmap, abs_space hs]
  by_cases hbad : addr = 0 ∨ length = 0 ∨ addr % pageSize ≠ 0
  · rw [if_pos hbad] at h ⊢
    simp only [Option.pure_def, some.injEq] at h
    exact h ▸ ⟨rfl, hk.clean⟩
  · rw [if_neg hbad] at h ⊢
    rcases hlen : alignUpPage length with _ | len
    · rw [hlen] at h
      simp only [Option.pure_def, some.injEq] at h
      exact h ▸ ⟨rfl, hk.clean⟩
    · rw [hlen] at h
      simp only [bind_eq_some_iff, Option.pure_def, some.injEq, Prod.exists] at h
      obtain ⟨k1, b, hm, rfl⟩ := h
      obtain ⟨habs, hc, hmem, hf⟩ := abs_munmap hk.shape.areas hk.noShared hm
      exact ⟨habs, hk.clean.of_eq hc hmem hf⟩

/-- **One operation**, seen by the eager machine. -/
theorem eager_step (hk : Mirrored k) (hok : EagerOk k op) (h : step k op = some k') :
    (abs k).step op = some (abs k') ∧ CacheClean k' := by
  have hlive := hk.shape.live
  cases step_cases hk.shape.areas h with
  | @create img _ _ hl hp =>
    obtain ⟨habs, hcl⟩ := abs_loadImage hk.good hlive hk.clean hl
    refine ⟨?_, hcl⟩
    change ((abs k).addSpace (Eager.imageSpace img)).register = _
    rw [← habs]
    exact Eager.register_eq hp
  | @fork a _ _ hf hp =>
    obtain ⟨s, hs, habs⟩ := abs_forkCow hf
    obtain ⟨_, _, hfk⟩ := forkCow_spec hf
    have hcl := hk.clean.of_eq hfk.cache hfk.mem (by rw [hfk.vnodes])
    refine ⟨?_, hcl⟩
    change (abs k).fork a = _
    rw [Eager.fork, abs_space hs, bind_eq_bind, bind_some, ← habs]
    exact Eager.register_eq hp
  | @clone a s hs hp =>
    refine ⟨?_, hk.clean⟩
    change (abs k).clone a = _
    rw [Eager.clone, abs_space hs]
    have habs : abs (k.setSpace a { s with refcount := s.refcount + 1 }) =
        (abs k).setSpace a (some (absSpace k.mem { s with refcount := s.refcount + 1 })) := abs_setSpace hs
    change ((abs k).setSpace a (some (absSpace k.mem { s with refcount := s.refcount + 1 }))).register = _
    rw [← habs]
    exact Eager.register_eq hp
  | @execve a _ img _ _ _ hs hl hd =>
    obtain ⟨habs, hcl⟩ := abs_loadImage hk.good hlive hk.clean hl
    obtain ⟨hdrop, hc, hm, hv⟩ := abs_dropRef hd
    refine ⟨?_, hcl.of_eq hc hm (by rw [hv])⟩
    change (abs k).execve a img = _
    rw [Eager.execve, abs_space hs, ← habs]
    exact hdrop
  | @exit a _ hd =>
    obtain ⟨hdrop, hc, hm, hv⟩ := abs_dropRef hd
    have hcl := hk.clean.of_eq hc hm (by rw [hv])
    refine ⟨?_, hcl⟩
    change (abs k).exit a = _
    rw [Eager.exit, hdrop]
    rfl
  | mmap hm =>
    obtain ⟨habs, hc, hmem, hf⟩ := abs_sysMmap hm
    exact ⟨habs, hk.clean.of_eq hc hmem hf⟩
  | munmap hm | munmapRefused => exact abs_stepMunmap hk h
  | @load a addr _ _ haddr ha =>
    simp only [step, map_eq_some_iff, Prod.exists] at h
    obtain ⟨k1, r, hl, rfl⟩ := h
    obtain ⟨habs, hcl⟩ := abs_load hk hl
    refine ⟨?_, hcl⟩
    change ((abs k).load a addr).map Prod.fst = _
    rw [habs]
    rfl
  | storeKilled haddr ha | store haddr ha hs => exact abs_store hk hok h
  | writeFailed | write hlen hw => exact absurd hok not_false

theorem step_mirrored (hk : Mirrored k) (hok : EagerOk k op) (h : step k op = some k') :
    Mirrored k' where
  shape := step_shape hk.shape h
  good := step_good hk.shape hk.good (stepOk_of_eagerOk hk.noShared hok) h
  noShared := step_noShared hk.shape hk.noShared (fun _ _ _ _ he => by subst he; exact hok) h
  leaves := step_leaves hk.shape hk.leaves
    (fun o => ⟨o, rfl, fun hp => .inl hp, fun _ => rfl⟩)
    (fun _ _ _ ⟨x, hx, _⟩ => ⟨x, hx, fun _ => .inr rfl, fun hw => by cases hw⟩)
    (fun a addr w _ => accessRules_fitted hk.leaves a addr w) h
  clean := (eager_step hk hok h).2

theorem mirrored_new (answers : List Pfn) (vnodes : ℕ → VNode) : Mirrored (Kernel.new answers vnodes) where
  shape := shape_new _ _
  good := good_new _ _
  noShared := fun c hc => by simp [Kernel.cores, Kernel.new] at hc
  leaves := leaves_new _ _ _
  clean := fun key e he => by
    rw [show (Kernel.new answers vnodes).cache.find key = none from Table.find_empty key] at he
    cases he

theorem run_mirrored {ops : List Op} (hk : Mirrored k) (hok : Meets step EagerOk k ops) (h : run k ops = some k') :
    Mirrored k' ∧ (abs k).run ops = some (abs k') := by
  induction ops generalizing k with
  | nil =>
    simp only [run, foldlM_nil, Option.pure_def, some.injEq] at h
    exact h ▸ ⟨hk, rfl⟩
  | cons op ops ih =>
    obtain ⟨k1, h1, h2⟩ := (foldlM_cons_some _ _ _ _ _).1 h
    obtain ⟨hm, hr⟩ := ih (step_mirrored hk hok.1 h1) (hok.2 k1 h1) h2
    exact ⟨hm, (foldlM_cons_some _ _ _ _ _).2 ⟨abs k1, (eager_step hk hok.1 h1).1, hr⟩⟩

/-! ## Progress -/

/-- a fork returns iff the allocator has the frames of the copy and PROCESS_TABLE a slot -/
theorem sysFork_isSome (hs : k.space a = some s) :
    (sysFork k a).isSome = true ↔ gives allocFrame (copyFrames s) k.frames = true ∧ k.procs < maxProcesses := by
  have hframes : (forkCow k a).isSome = gives allocFrame (copyFrames s) k.frames := by
    rw [gives_eq, ← forkCow_frames hs, isSome_map]
  rw [← hframes, sysFork]
  cases hf : forkCow k a with
  | none => simp
  | some x =>
    obtain ⟨s0, -, hfork⟩ := forkCow_spec hf
    simp only [bind_eq_bind, bind_some, isSome_some, true_and, hfork.procs]
    split <;> simp_all

theorem gives_of_succ {n : ℕ} {fr : Frames} (h : gives allocFrame (n + 1) fr = true) : gives allocFrame n fr = true := by
  rw [gives_eq] at h ⊢
  cases ht : take allocFrame n fr with
  | none =>
    rw [take_eq_none_of_le ht (Nat.le_succ n)] at h
    cases h
  | some fr' => rfl

/-- `get_or_fill` takes at most one frame -/
theorem getOrFill_gives {st : Store} {n : ℕ} (h : gives allocFrame (n + 1) st.frames = true) (v off : ℕ) :
    ∃ st' r, getOrFill st v off = some (st', r) ∧ (r ≠ none → gives allocFrame n st'.frames = true) := by
  cases hc : st.cache.find (v, off) with
  | some e => exact ⟨st, _, getOrFill_hit hc, fun _ => gives_of_succ h⟩
  | none =>
    have hmiss := getOrFill_miss hc
    rw [gives] at h
    cases hf : allocFrame st.frames with
    | none =>
      rw [hf] at h
      cases h
    | some x =>
      rw [hf] at h hmiss
      obtain ⟨⟨st', r⟩, hg, he⟩ := map_eq_some_iff.1 hmiss
      refine ⟨st', r, hg, fun hr => ?_⟩
      split at he
      · rw [show st'.frames = x.2 from congrArg Prod.fst he]
        exact h
      · exact absurd (congrArg Prod.snd he) hr

/-- the frames and the file pointer that a not-present fault at `addr` needs -/
def FaultReady (k : Kernel) (s : AddressSpace) (addr : ℕ) : Prop :=
  gives allocFrame (missing (some s.pml4) (pageOf addr) + 1) k.frames = true ∧
    ∀ vma v fo shared, findVma s.vmas (addr / pageSize * pageSize) = some vma → vma.backing = .file v fo shared →
      directMapBase ≤ v

theorem resolveFileFault_isSome (hs : k.space a = some s) (hr : FaultReady k s addr) :
    (resolveFileFault k a addr).isSome = true := by
  obtain ⟨hfr, hptr⟩ := hr
  cases hv : findVma s.vmas (addr / pageSize * pageSize) with
  | none => simp [resolveFileFault, hs, hv]
  | some vma =>
    cases hb : vma.backing with
    | anonymous =>
      obtain ⟨k1, h1⟩ := isSome_iff_exists.1
        ((mapFresh_isSome hs (pageOf addr) zeroPage vma.flags.withWritable (.area vma)).trans hfr)
      simp [resolveFileFault, hs, hv, hb, h1, pageOf_align]
    | file v fo shared =>
      obtain ⟨st, r, hg, hrest⟩ := getOrFill_gives hfr v (fileOff vma fo addr)
      have hbase := hptr vma v fo shared hv hb
      cases r with
      | none =>
        rw [fileOff] at hg
        simp only [resolveFileFault, hs, hv, hb, bind_eq_bind, bind_some, if_neg (not_lt.2 hbase), hg]
        rfl
      | some f =>
        obtain ⟨k', flags, hs', hfr', he⟩ := resolveFileFault_filled hs hv hb hbase hg
        have hmap := mapPage_isSome hs' (pageOf addr) f flags (some (.area vma))
        rw [hfr', hrest (by simp)] at hmap
        obtain ⟨k1, h1⟩ := isSome_iff_exists.1 hmap
        rw [he, h1]
        rfl

/-- a load returns when the allocator has a page and the tables above it -/
theorem load_isSome (hk : AreasInv k) (haddr : addr < userTop) (hs : k.space a = some s) (hr : FaultReady k s addr) :
    (load k a addr).isSome = true := by
  have hacc : (access accessFuel k a addr false).isSome = true := by
    rw [accessFuel]
    cases hl : s.leaf (pageOf addr) with
    | some l =>
      rw [access_hit hs hl (by rfl)]
      rfl
    | none =>
      obtain ⟨⟨k1, b⟩, hf⟩ := isSome_iff_exists.1 (resolveFileFault_isSome hs hr)
      simp only [access, hs, hl, hf, bind_eq_bind, bind_some]
      cases b with
      | false => rfl
      | true =>
        obtain ⟨s0, hs0, hfault⟩ := resolveFileFault_inv hf
        obtain ⟨s1, l1, -, hs1, hl1, -⟩ := fileFault_entry hk hs0 hfault
        simp [hs1, hl1]
  obtain ⟨x, hx⟩ := isSome_iff_exists.1 hacc
  simp [load, not_le.2 haddr, hx]

/-- **The copy-on-write kernel refines the eager-copy machine.** After every run without MAP_SHARED mappings in which
COW_TABLE has room and stores respect their mappings, every load returns what the eager machine returns, and a store is
not visible in any other address space. Loads return while there are frames for a page and its tables, and a fork
returns exactly when there are frames for the copy and a slot for the child. -/
theorem eager_refines (answers : List Pfn) (vnodes : ℕ → VNode) (ops : List Op) (k : Kernel)
    (hok : Meets step EagerOk (Kernel.new answers vnodes) ops) (hrun : run (Kernel.new answers vnodes) ops = some k) :
    ∃ e, (Eager.new (fileContents vnodes)).run ops = some e ∧
      (∀ a addr k' r, load k a addr = some (k', r) → (e.load a addr).map Prod.snd = some r) ∧
      (∀ a addr byte k', EagerOk k (.store a addr byte) → store k a addr byte = some k' →
        ∀ b, b ≠ a → ∀ addr' k1 k2 r1 r2, load k b addr' = some (k1, r1) → load k' b addr' = some (k2, r2) → r2 = r1) ∧
      ∀ a s, k.space a = some s →
        (∀ addr, addr < userTop → FaultReady k s addr → (load k a addr).isSome = true) ∧
        ((step k (.fork a)).isSome = true ↔
          gives allocFrame (copyFrames s) k.frames = true ∧ k.procs < maxProcesses) := by
  obtain ⟨hk, he⟩ := run_mirrored (mirrored_new answers vnodes) hok hrun
  refine ⟨abs k, he, fun a addr k' r hl => ?_, fun a addr byte k' hst hstore b hb addr' k1 k2 r1 r2 hl1 hl2 => ?_,
    fun a s hs => ⟨fun addr haddr hr => load_isSome hk.shape.areas haddr hs hr, sysFork_isSome hs⟩⟩
  · rw [(abs_load hk hl).1]
    rfl
  · have hk' : Mirrored k' := step_mirrored hk hst (show step k (.store a addr byte) = some k' from hstore)
    obtain ⟨hoth, hfiles⟩ := Eager.store_space_ne (abs_store hk hst hstore).1
    have hsame := Eager.load_congr (hoth b hb) hfiles addr'
    rw [(abs_load hk hl1).1, (abs_load hk' hl2).1] at hsame
    exact some.inj hsame

/-- a process stores 7 in a page of its own and forks, and the child stores 9 there -/
def forkWriteOps : List Op := anonWriteOps ++ [.fork 0, .store 1 mmapBase 9]

/-- The eager machine holds the parent's 7 and the child's 9, and a store of the parent leaves the child's 9. -/
theorem eager_refines_forked :
    ∃ k e, run smallKernel forkWriteOps = some k ∧ (Eager.new (fileContents emptyFiles)).run forkWriteOps = some e ∧
      (e.load 0 mmapBase).map Prod.snd = some (some 7) ∧ (e.load 1 mmapBase).map Prod.snd = some (some 9) ∧
      ∃ k', store k 0 mmapBase 8 = some k' ∧ ∀ x, load k' 1 mmapBase = some x → x.2 = some 9 := by
  -- one evaluation of the run decides all of this
  obtain ⟨hmeets, k, hk, ⟨x, hx, hx2⟩, ⟨y, hy, hy2⟩, hok, k', hk', -⟩ :
      Meets step EagerOk smallKernel forkWriteOps ∧ ∃ k, run smallKernel forkWriteOps = some k ∧
        (∃ x, load k 0 mmapBase = some x ∧ x.2 = some 7) ∧ (∃ y, load k 1 mmapBase = some y ∧ y.2 = some 9) ∧
        EagerOk k (.store 0 mmapBase 8) ∧ ∃ k', store k 0 mmapBase 8 = some k' ∧ True := by
    decide +kernel
  obtain ⟨e, he, hloads, hstores, -⟩ := eager_refines _ _ forkWriteOps k hmeets hk
  refine ⟨k, e, hk, he, ?_, ?_, k', hk', fun z hz => ?_⟩
  · rw [hloads 0 mmapBase x.1 x.2 hx, hx2]
  · rw [hloads 1 mmapBase y.1 y.2 hy, hy2]
  · rw [hstores 0 mmapBase 8 k' hok hk' 1 (by decide) mmapBase y.1 z.1 y.2 z.2 hy hz, hy2]

end Rumicos.Proc
