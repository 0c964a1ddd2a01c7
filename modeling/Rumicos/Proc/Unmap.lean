/-
mmap and munmap.

- `Unmapped`: what the unmap loops (`unmap_pages`, `unmap_file_pages`) do to a list of pages; `unmapPage_spec` is one
  turn, `unmapLoop_spec` the whole loop.
- `Frees`: the frames an operation frees are free afterwards; with sound accounts nobody refers to them any more.
-/
import Rumicos.Proc.Spaces

namespace Rumicos.Proc

open Paging Memory Lib Fs List Option AddressSpace

/-! ## Freed frames -/

/-- between two states frames were only freed, and those that were are free -/
structure Frees (fr fr' : Frames) : Prop where
  shrink : ∀ g, fr'.allocated g = true → fr.allocated g = true
  freed : ∃ fs, fr'.freed = fs ++ fr.freed ∧ ∀ g ∈ fs, fr'.allocated g = false

theorem frees_refl (fr : Frames) : Frees fr fr := ⟨fun _ h => h, [], rfl, fun _ h => by cases h⟩

theorem Frees.trans {fr fr1 fr2 : Frames} (h : Frees fr fr1) (h' : Frees fr1 fr2) : Frees fr fr2 := by
  obtain ⟨fs, hfs, hun⟩ := h.freed
  obtain ⟨gs, hgs, hun'⟩ := h'.freed
  refine ⟨fun g hg => h.shrink g (h'.shrink g hg), gs ++ fs, by rw [hgs, hfs, append_assoc], fun g hg => ?_⟩
  rcases mem_append.1 hg with hg | hg
  · exact hun' g hg
  · by_contra hn
    have := h'.shrink g (by simpa using hn)
    rw [hun g hg] at this
    cases this

theorem frees_freeFrame (fr : Frames) (f : Pfn) : Frees fr (freeFrame fr f) := by
  refine ⟨fun g hg => ?_, [f], rfl, fun g hg => ?_⟩
  · by_cases hgf : g = f
    · subst hgf; simp [freeFrame] at hg
    · simpa [freeFrame, hgf] using hg
  · rw [mem_singleton.1 hg]
    simp [freeFrame]

theorem frees_releaseLeaf (st : Frames × CowTable) (l : Leaf) : Frees st.1 (releaseLeaf st l).1 := by
  unfold releaseLeaf
  split_ifs with hc
  · change Frees st.1 (if (st.2.find l.frame).isNone = true then freeFrame st.1 l.frame else st.1)
    split_ifs
    · exact frees_freeFrame _ _
    · exact frees_refl _
  · exact frees_freeFrame _ _

/-! ## The unmap loops -/

/-- the pages `ps` of address space `a`, which was `s0`, are unmapped -/
structure Unmapped (k : Kernel) (a : ℕ) (s0 : AddressSpace) (ps : List UPage) (k' : Kernel) : Prop where
  space : ∃ s, k'.space a = some s ∧ s.core = s0.core ∧ (∀ q, s.leaf q = if q ∈ ps then none else s0.leaf q) ∧
    ∀ q, q ∉ ps → s.origin q = s0.origin q
  others : ∀ b, b ≠ a → k'.space b = k.space b
  cores : k'.cores = k.cores
  frees : Frees k.frames k'.frames
  mem : k'.mem = k.mem
  cache : k'.cache = k.cache
  vnodes : k'.vnodes = k.vnodes
  orphans : k'.orphans = k.orphans
  procs : k'.procs = k.procs
  stores : k'.stores = k.stores

variable {k k' : Kernel} {a addr len length : ℕ} {s : AddressSpace} {p : UPage} {shared b : Bool} {prot : Prot}
variable {req : MapRequest}

/-- one turn of the unmap loops: nothing is mapped there, or the leaf is cleared and, outside MAP_SHARED, released -/
theorem unmapPage_cases (hs : k.space a = some s) (h : unmapPage shared a k p = some k') :
    (s.leaf p = none ∧ k' = k) ∨ ∃ l k1, s.leaf p = some l ∧ setLeaf k a p none none = some k1 ∧
      ((shared = true ∧ k' = k1) ∨ (shared = false ∧ k' = { k1 with
        frames := (releaseLeaf (k1.frames, k1.cow) l).1
        cow := (releaseLeaf (k1.frames, k1.cow) l).2 })) := by
  simp only [unmapPage, hs, bind_eq_bind, bind_some] at h
  rcases hl : s.leaf p with _ | l
  · rw [hl] at h
    simp only [Option.pure_def, some.injEq] at h
    exact .inl ⟨rfl, h.symm⟩
  · rw [hl] at h
    simp only [bind_eq_some_iff] at h
    obtain ⟨k1, hclear, h⟩ := h
    refine .inr ⟨l, k1, rfl, hclear, ?_⟩
    cases shared with
    | true =>
      simp only [if_true, Option.pure_def, some.injEq] at h
      exact .inl ⟨rfl, h.symm⟩
    | false =>
      simp only [Bool.false_eq_true, if_false, Option.pure_def, some.injEq] at h
      exact .inr ⟨rfl, h.symm⟩

theorem unmapPage_spec (hs : k.space a = some s) (h : unmapPage shared a k p = some k') : Unmapped k a s [p] k' := by
  rcases unmapPage_cases hs h with ⟨hl, rfl⟩ | ⟨l, k1, hl, hclear, hk'⟩
  · refine ⟨⟨s, hs, rfl, fun q => ?_, fun _ _ => rfl⟩, fun _ _ => rfl, rfl, frees_refl _, rfl, rfl, rfl, rfl, rfl, rfl⟩
    split_ifs with hq
    · rw [mem_singleton.1 hq]; exact hl
    · rfl
  · have hed := setLeaf_edited hclear hl hs
    obtain ⟨s0, s1, hs0, hs1, hse⟩ := hed.space
    cases hs.symm.trans hs0
    have hfr : k1.frames = k.frames := by
      obtain ⟨s2, pml4, -, -, rfl⟩ := setLeaf_spec hclear
      rfl
    have hspace : ∃ s', k1.space a = some s' ∧ s'.core = s.core ∧
        (∀ q, s'.leaf q = if q ∈ [p] then none else s.leaf q) ∧ ∀ q, q ∉ [p] → s'.origin q = s.origin q := by
      refine ⟨s1, hs1, hse.core, fun q => ?_, fun q hq => ?_⟩
      · rw [hse.leaf]
        simp
      · rw [hse.origin, Function.update_of_ne (by simpa using hq)]
    rcases hk' with ⟨-, rfl⟩ | ⟨-, rfl⟩
    · exact ⟨hspace, hed.others, hed.cores, by rw [hfr]; exact frees_refl _, hed.mem, hed.cache, hed.vnodes, hed.orphans,
        hed.procs, hed.stores⟩
    · exact ⟨hspace, hed.others, hed.cores, by rw [← hfr]; exact frees_releaseLeaf (k1.frames, k1.cow) l, hed.mem,
        hed.cache, hed.vnodes, hed.orphans, hed.procs, hed.stores⟩

theorem good_unmapPage (hk : Good k) (hs : k.space a = some s) (hin : s.inShared p = shared)
    (h : unmapPage shared a k p = some k') : Good k' := by
  rcases unmapPage_cases hs h with ⟨-, rfl⟩ | ⟨l, k1, hl, hclear, ⟨rfl, rfl⟩ | ⟨rfl, rfl⟩⟩
  · exact hk
  · exact good_forget hk hs hl hin hclear
  · exact good_unmap hk hs hl hin hclear

/-- **The unmap loops.** -/
theorem unmapLoop_spec (ps : List UPage) (hs : k.space a = some s) (h : ps.foldlM (unmapPage shared a) k = some k') :
    Unmapped k a s ps k' := by
  induction ps generalizing k s with
  | nil =>
    simp only [foldlM_nil, Option.pure_def, some.injEq] at h
    subst h
    exact ⟨⟨s, hs, rfl, fun q => by simp, fun _ _ => rfl⟩, fun _ _ => rfl, rfl, frees_refl _, rfl, rfl, rfl, rfl, rfl, rfl⟩
  | cons p ps ih =>
    obtain ⟨k1, h1, h2⟩ := (foldlM_cons_some _ _ _ _ _).1 h
    have hp := unmapPage_spec hs h1
    obtain ⟨s1, hs1, hc1, hl1, ho1⟩ := hp.space
    have hr := ih hs1 h2
    obtain ⟨s2, hs2, hc2, hl2, ho2⟩ := hr.space
    refine ⟨⟨s2, hs2, hc2.trans hc1, fun q => ?_, fun q hq => ?_⟩, fun b hb => (hr.others b hb).trans (hp.others b hb),
      hr.cores.trans hp.cores, hp.frees.trans hr.frees, hr.mem.trans hp.mem, hr.cache.trans hp.cache,
      hr.vnodes.trans hp.vnodes, hr.orphans.trans hp.orphans, hr.procs.trans hp.procs, hr.stores.trans hp.stores⟩
    · rw [hl2, hl1]
      by_cases h1 : q ∈ ps <;> by_cases h2 : q = p <;> simp [h2]
    · simp only [mem_cons, not_or] at hq
      rw [ho2 q hq.2, ho1 q (by simpa using hq.1)]

theorem good_unmapLoop (ps : List UPage) (hk : Good k) (hs : k.space a = some s) (hin : ∀ p ∈ ps, s.inShared p = shared)
    (h : ps.foldlM (unmapPage shared a) k = some k') : Good k' := by
  induction ps generalizing k s with
  | nil =>
    simp only [foldlM_nil, Option.pure_def, some.injEq] at h
    exact h ▸ hk
  | cons p ps ih =>
    obtain ⟨k1, h1, h2⟩ := (foldlM_cons_some _ _ _ _ _).1 h
    obtain ⟨s1, hs1, hc1, -, -⟩ := (unmapPage_spec hs h1).space
    refine ih (good_unmapPage hk hs (hin p mem_cons_self) h1) hs1 (fun q hq => ?_) h2
    have hv : s1.vmas = s.vmas := congrArg Core.vmas hc1
    simpa only [inShared, hv] using hin q (mem_cons_of_mem _ hq)

/-! ## munmap -/

/-- the store after the writeback of a MAP_SHARED area -/
def afterWriteback (k : Kernel) (vma : Vma) : Kernel :=
  match vma.backing with
  | .file v _ true => { k with toStore := writebackVnode k.toStore v }
  | _ => k

/-- the vnode reference a file area gives back -/
def afterDecRef (k : Kernel) (vma : Vma) : Kernel :=
  match vma.backing with
  | .file v _ _ => vnodeDecRef k v
  | .anonymous => k

/-- the slot a munmap call removes, if it removes one -/
def munmapTarget (vmas : List (Option Vma)) (addr len : ℕ) : Option ℕ :=
  if 2 ^ 64 ≤ addr + len then none else munmapSlot vmas addr (addr + len)

/-- **munmap** refuses, or removes one whole area. -/
theorem munmap_cases (h : munmap k a addr len = some (k', b)) :
    ∃ s, k.space a = some s ∧ ((munmapTarget s.vmas addr len = none ∧ k' = k) ∨
      ∃ slot vma k2 s2, munmapTarget s.vmas addr len = some slot ∧
        s.vmas[slot]? = some (some vma) ∧ vma.start = addr ∧ vma.endAddr = addr + len ∧
        (pagesIn addr (addr + len)).foldlM (unmapPage vma.isShared a) (afterWriteback k vma) = some k2 ∧
        (afterDecRef k2 vma).space a = some s2 ∧
        k' = (afterDecRef k2 vma).setSpace a { s2 with vmas := s2.vmas.set slot none }) := by
  simp only [munmap, bind_eq_bind, bind_eq_some_iff] at h
  obtain ⟨s, hs, h⟩ := h
  refine ⟨s, hs, ?_⟩
  rcases Nat.lt_or_ge (addr + len) (2 ^ 64) with hlt | hge
  · rw [if_neg (not_le.2 hlt)] at h
    rw [munmapTarget, if_neg (not_le.2 hlt)]
    split at h
    · rename_i hslot
      simp only [Option.pure_def, some.injEq, Prod.mk.injEq] at h
      exact .inl ⟨hslot, h.1.symm⟩
    · rename_i slot hslot
      obtain ⟨vma, hvma, hst, hend⟩ := munmapSlot_spec hslot
      simp only [hvma, join_some, bind_some, bind_eq_some_iff] at h
      obtain ⟨k2, hloop, s2, hs2, rfl, rfl⟩ := h
      exact .inr ⟨slot, vma, k2, s2, hslot, hvma, hst, hend, hloop, hs2, rfl⟩
  · rw [if_pos hge] at h
    rw [munmapTarget, if_pos hge]
    simp only [Option.pure_def, some.injEq, Prod.mk.injEq] at h
    exact .inl ⟨rfl, h.1.symm⟩

theorem good_afterWriteback (hk : Good k) (vma : Vma) : Good (afterWriteback k vma) := by
  unfold afterWriteback
  split
  · rename_i v _ _
    obtain ⟨h1, -, h3, h4⟩ := writebackVnode_frames k.toStore v
    exact good_congr hk rfl h1 h4 h3 rfl
  · exact hk

theorem good_afterDecRef (hk : Good k) (vma : Vma) : Good (afterDecRef k vma) := by
  unfold afterDecRef
  split
  · exact good_congr hk rfl rfl (sameFrames_refl _) rfl rfl
  · exact hk

theorem spaces_afterWriteback (k : Kernel) (vma : Vma) : (afterWriteback k vma).spaces = k.spaces := by
  unfold afterWriteback
  split <;> rfl

theorem space_afterWriteback (k : Kernel) (vma : Vma) (a : ℕ) : (afterWriteback k vma).space a = k.space a := by
  rw [Kernel.space, spaces_afterWriteback]
  rfl

theorem spaces_afterDecRef (k : Kernel) (vma : Vma) : (afterDecRef k vma).spaces = k.spaces := by
  unfold afterDecRef
  split <;> rfl

theorem frames_afterWriteback (k : Kernel) (vma : Vma) :
    (afterWriteback k vma).frames = k.frames ∧ (afterWriteback k vma).mem = k.mem ∧
      (afterWriteback k vma).orphans = k.orphans ∧ (afterWriteback k vma).procs = k.procs ∧
      (afterWriteback k vma).stores = k.stores ∧ SameFrames k.cache (afterWriteback k vma).cache := by
  unfold afterWriteback
  split
  · rename_i v _ _
    obtain ⟨h1, h2, h3, h4⟩ := writebackVnode_frames k.toStore v
    exact ⟨h1, h2, h3, rfl, rfl, h4⟩
  · exact ⟨rfl, rfl, rfl, rfl, rfl, sameFrames_refl _⟩

theorem afterDecRef_eq (k : Kernel) (vma : Vma) :
    afterDecRef k vma = { k with vnodes := (afterDecRef k vma).vnodes } := by
  unfold afterDecRef
  split <;> rfl

theorem mem_pagesIn_area {vmas : List (Option Vma)} {next : ℕ} (hok : VmasOk vmas next) {vma : Vma}
    (hv : some vma ∈ vmas) (q : UPage) : q ∈ pagesIn vma.start vma.endAddr ↔ vma.contains (pageAddr q) = true := by
  have hal := (hok.aligned vma hv).1
  have htop : vma.endAddr ≤ userTop := le_trans (hok.inside vma hv).2.2 (by decide)
  rw [contains_iff]
  exact ⟨fun h => pagesIn_addr hal htop h, fun h => mem_pagesIn hal h.1 h.2⟩

/-- the area of slot `slot` of address space `a`, which was `s0`, is removed -/
structure Munmapped (k : Kernel) (a : ℕ) (s0 : AddressSpace) (slot : ℕ) (vma : Vma) (k' : Kernel) : Prop where
  area : s0.vmas[slot]? = some (some vma)
  space : ∃ s, k'.space a = some s ∧ s.core = { s0.core with vmas := s0.vmas.set slot none } ∧
    (∀ q, s.leaf q = if vma.contains (pageAddr q) then none else s0.leaf q) ∧
    ∀ q, vma.contains (pageAddr q) = false → s.origin q = s0.origin q
  others : ∀ b, b ≠ a → k'.space b = k.space b
  cores : k'.cores = k.cores.set a (some { s0.core with vmas := s0.vmas.set slot none })
  frees : Frees k.frames k'.frames
  mem : k'.mem = k.mem
  orphans : k'.orphans = k.orphans
  procs : k'.procs = k.procs
  stores : k'.stores = k.stores
  cache : k'.cache = (afterWriteback k vma).cache
  vnodes : k'.vnodes = (afterDecRef (afterWriteback k vma) vma).vnodes

section Munmap

variable {k2 : Kernel} {s2 : AddressSpace} {slot : ℕ} {vma : Vma} (hs : k.space a = some s)
  (hslot : s.vmas[slot]? = some (some vma))
  (hloop : (pagesIn vma.start vma.endAddr).foldlM (unmapPage vma.isShared a) (afterWriteback k vma) = some k2)
  (hs2 : (afterDecRef k2 vma).space a = some s2)
include hs hslot hloop hs2

theorem munmap_loop (hok : VmasOk s.vmas s.mmapNext) :
    s2.core = s.core ∧ (∀ q, s2.leaf q = if vma.contains (pageAddr q) then none else s.leaf q) ∧
      ∀ q, vma.contains (pageAddr q) = false → s2.origin q = s.origin q := by
  have hmem : some vma ∈ s.vmas := mem_of_getElem? hslot
  obtain ⟨s3, hs3, hc3, hl3, ho3⟩ := (unmapLoop_spec _ ((space_afterWriteback k vma a).trans hs) hloop).space
  have hs3' : (afterDecRef k2 vma).space a = some s3 := by rw [Kernel.space, spaces_afterDecRef]; exact hs3
  cases hs2.symm.trans hs3'
  refine ⟨hc3, fun q => ?_, fun q hq => ho3 q fun hmq => ?_⟩
  · rw [hl3 q]
    simp [mem_pagesIn_area hok hmem q]
  · rw [(mem_pagesIn_area hok hmem q).1 hmq] at hq
    cases hq

theorem munmapped (hok : VmasOk s.vmas s.mmapNext) :
    Munmapped k a s slot vma ((afterDecRef k2 vma).setSpace a { s2 with vmas := s2.vmas.set slot none }) := by
  obtain ⟨hc3, hleaf, ho⟩ := munmap_loop hs hslot hloop hs2 hok
  have hun := unmapLoop_spec _ ((space_afterWriteback k vma a).trans hs) hloop
  have hv3 : s2.vmas = s.vmas := congrArg Core.vmas hc3
  obtain ⟨w1, w2, w3, w4, w5, w6⟩ := frames_afterWriteback k vma
  have hdec := afterDecRef_eq k2 vma
  have hcores2 : (afterDecRef k2 vma).cores = k.cores := by
    have h1 : (afterDecRef k2 vma).cores = k2.cores := by rw [Kernel.cores, spaces_afterDecRef]; rfl
    have h2 : (afterWriteback k vma).cores = k.cores := by rw [Kernel.cores, spaces_afterWriteback]; rfl
    rw [h1, hun.cores, h2]
  refine ⟨hslot, ⟨_, space_setSpace_self hs2 _, ?_, hleaf, ho⟩, ?_, ?_, ?_, ?_, ?_, ?_, ?_, ?_, ?_⟩
  · rw [← hc3, ← hv3]
    rfl
  · intro b hb
    rw [space_setSpace_ne _ hb, Kernel.space, spaces_afterDecRef, ← Kernel.space, hun.others b hb, space_afterWriteback]
  · change (List.set _ _ _).map _ = _
    rw [map_set]
    change (afterDecRef k2 vma).cores.set _ _ = _
    rw [hcores2, ← hc3, ← hv3]
    rfl
  · have h1 : (afterDecRef k2 vma).frames = k2.frames := by rw [hdec]
    change Frees k.frames (afterDecRef k2 vma).frames
    rw [h1, ← w1]
    exact hun.frees
  · rw [hdec, ← w2]
    exact hun.mem
  · rw [hdec, ← w3]
    exact hun.orphans
  · rw [hdec, ← w4]
    exact hun.procs
  · rw [hdec, ← w5]
    exact hun.stores
  · rw [hdec]
    exact hun.cache
  · simp only [afterDecRef, vnodeDecRef, hun.vnodes]
    split <;> first | rfl | exact hun.vnodes

theorem good_munmapped (hk : Good k) :
    Good ((afterDecRef k2 vma).setSpace a { s2 with vmas := s2.vmas.set slot none }) := by
  have hok : VmasOk s.vmas s.mmapNext := (hk.leaf.areas a s hs).vmas
  have hmem : some vma ∈ s.vmas := mem_of_getElem? hslot
  have hin : ∀ p ∈ pagesIn vma.start vma.endAddr, s.inShared p = vma.isShared := fun p hp => by
    have := (findVma_iff hok (pageAddr p) vma).2 ⟨hmem, (mem_pagesIn_area hok hmem p).1 hp⟩
    rw [inShared, this]
    rfl
  obtain ⟨hc3, hleaf, -⟩ := munmap_loop hs hslot hloop hs2 hok
  have hv3 : s2.vmas = s.vmas := congrArg Core.vmas hc3
  have hk2 := good_afterDecRef (good_unmapLoop _ (good_afterWriteback hk vma) ((space_afterWriteback k vma a).trans hs)
    hin hloop) vma
  have hok2 : VmasOk s2.vmas s2.mmapNext := (hk2.leaf.areas a s2 hs2).vmas
  have hslot2 : s2.vmas[slot]? = some (some vma) := by rw [hv3]; exact hslot
  -- no present page is in the area any more
  have hfind : ∀ q m, s2.leaf q = some m →
      findVma (s2.vmas.set slot none) (pageAddr q) = findVma s2.vmas (pageAddr q) := fun q m hm => by
    rw [hleaf q] at hm
    split_ifs at hm with hc
    rw [findVma_clear hok2 hslot2, if_neg hc]
  refine good_setCore hk2 hs2 rfl rfl
    ⟨vmasOk_clear hok2 slot, fun v hv => (hk2.leaf.areas a s2 hs2).flags v (mem_of_mem_set_none hv)⟩ (fun p l hl => ?_)
    (fun p l key hl hfs => ?_)
  · simp [inShared, hfind p l hl]
  · obtain ⟨v, fo, hv, hb, ho⟩ := hfs
    exact ⟨v, fo, by rw [hfind p l hl]; exact hv, hb, ho⟩

end Munmap

/-- **munmap** changes nothing, or removes one area with all its pages. -/
theorem munmap_spec (hk : AreasInv k) (h : munmap k a addr len = some (k', b)) :
    ∃ s, k.space a = some s ∧ (k' = k ∨ ∃ slot vma, Munmapped k a s slot vma k') := by
  obtain ⟨s, hs, h⟩ := munmap_cases h
  refine ⟨s, hs, ?_⟩
  rcases h with ⟨-, rfl⟩ | ⟨slot, vma, k2, s2, -, hslot, rfl, hend, hloop, hs2, rfl⟩
  · exact .inl rfl
  · rw [← hend] at hloop
    exact .inr ⟨slot, vma, munmapped hs hslot hloop hs2 (hk a s hs).vmas⟩

/-- **munmap keeps a state good.** -/
theorem good_munmap (hk : Good k) (h : munmap k a addr len = some (k', b)) : Good k' := by
  obtain ⟨s, hs, h⟩ := munmap_cases h
  rcases h with ⟨-, rfl⟩ | ⟨slot, vma, k2, s2, -, hslot, rfl, hend, hloop, hs2, rfl⟩
  · exact hk
  · rw [← hend] at hloop
    exact good_munmapped hs hslot hloop hs2 hk

/-! ## mmap -/

/-- the vnode reference a file mapping takes -/
def afterIncRef (k : Kernel) (req : MapRequest) : Kernel :=
  match req with
  | .file v _ _ _ => vnodeIncRef k v
  | .anonymous => k

/-- **mmap** is refused, or finds no room and rolls the reference back, or adds one area. -/
theorem sysMmap_cases {r : Option ℕ} (h : sysMmap k a length prot req = some (k', r)) :
    ∃ s, k.space a = some s ∧ ((r = none ∧ k' = k) ∨ (r = none ∧ ∃ v, k' = vnodeDecRef (vnodeIncRef k v) v) ∨
      ∃ len m, alignUpPage length = some len ∧
        mmap s.vmas s.mmapNext len (protToPageFlags prot) req.backing = some m ∧ r = some m.1 ∧
        k' = (afterIncRef k req).setSpace a { s with vmas := m.2.1, mmapNext := m.2.2 }) := by
  unfold sysMmap at h
  rcases hs : k.space a with _ | s
  · rw [hs] at h; cases h
  rw [hs, bind_eq_bind, bind_some] at h
  refine ⟨s, rfl, ?_⟩
  by_cases hal : mmapAllowed length prot req = true
  · rw [if_pos hal] at h
    rcases hlen : alignUpPage length with _ | len
    · rw [hlen] at h
      simp only [Option.pure_def, some.injEq, Prod.mk.injEq] at h
      exact .inl ⟨h.2.symm, h.1.symm⟩
    · rw [hlen] at h
      simp only at h
      rcases hm : mmap s.vmas s.mmapNext len (protToPageFlags prot) req.backing with _ | ⟨start, vmas, next⟩
      · rw [hm] at h
        simp only [Option.pure_def, some.injEq, Prod.mk.injEq] at h
        cases req with
        | anonymous => exact .inl ⟨h.2.symm, h.1.symm⟩
        | file v off shared canWrite => exact .inr (.inl ⟨h.2.symm, v, h.1.symm⟩)
      · rw [hm] at h
        simp only [Option.pure_def, some.injEq, Prod.mk.injEq] at h
        refine .inr (.inr ⟨len, (start, vmas, next), rfl, hm, h.2.symm, h.1.symm⟩)
  · rw [if_neg hal] at h
    simp only [Option.pure_def, some.injEq, Prod.mk.injEq] at h
    exact .inl ⟨h.2.symm, h.1.symm⟩

theorem sysMmap_allowed {x : ℕ} (h : sysMmap k a length prot req = some (k', some x)) :
    mmapAllowed length prot req = true := by
  by_contra hal
  unfold sysMmap at h
  rcases hs : k.space a with _ | s
  · rw [hs] at h
    cases h
  · rw [hs, bind_eq_bind, bind_some, if_neg hal] at h
    simp only [Option.pure_def, some.injEq, Prod.mk.injEq] at h
    cases h.2

/-- a MAP_SHARED request gets a range without present pages -/
def MmapClear (k : Kernel) (a length : ℕ) (prot : Prot) (req : MapRequest) : Prop :=
  req.isShared = true → ∀ s len m, k.space a = some s → alignUpPage length = some len →
    mmap s.vmas s.mmapNext len (protToPageFlags prot) req.backing = some m →
    ∀ q, m.1 ≤ pageAddr q → pageAddr q < m.1 + len → s.leaf q = none

theorem isShared_backing (start endAddr : ℕ) (flags : PageFlags) (req : MapRequest) :
    (⟨start, endAddr, flags, req.backing⟩ : Vma).isShared = req.isShared := by
  cases req with
  | anonymous => rfl
  | file v off shared canWrite => cases shared <;> rfl

theorem afterIncRef_eq (k : Kernel) (req : MapRequest) :
    afterIncRef k req = { k with vnodes := (afterIncRef k req).vnodes } := by
  unfold afterIncRef
  split <;> rfl

theorem findVma_none_of_mmap {vmas : List (Option Vma)} {next : ℕ} {flags : PageFlags} {backing : Backing}
    {m : ℕ × List (Option Vma) × ℕ} (hm : mmap vmas next len flags backing = some m) (h1 : m.1 ≤ addr)
    (h2 : addr < m.1 + len) : findVma vmas addr = none := by
  obtain ⟨-, -, -, -, hov, -⟩ := mmap_spec hm
  rw [findVma_none_iff]
  intro v hv
  by_contra hc
  have hc' : v.contains addr = true := by simpa using hc
  rw [contains_iff] at hc'
  rcases vmaOverlaps_false hov v hv with h | h <;> omega

/-- **mmap keeps a state good** when a new MAP_SHARED area covers no present page. -/
theorem good_sysMmap {r : Option ℕ} (hk : Good k) (hclear : MmapClear k a length prot req)
    (h : sysMmap k a length prot req = some (k', r)) : Good k' := by
  obtain ⟨s, hs, hc⟩ := sysMmap_cases h
  rcases hc with ⟨-, rfl⟩ | ⟨-, v, rfl⟩ | ⟨len, m, hlen, hm, hr, rfl⟩
  · exact hk
  · exact good_congr hk rfl rfl (sameFrames_refl _) rfl rfl
  have heq := afterIncRef_eq k req
  have hk1 : Good (afterIncRef k req) := by rw [heq]; exact good_congr hk rfl rfl (sameFrames_refl _) rfl rfl
  have hs1 : (afterIncRef k req).space a = some s := by rw [heq]; exact hs
  have hok : VmasOk s.vmas s.mmapNext := (hk.leaf.areas a s hs).vmas
  have hfind := findVma_mmap hok hm
  refine good_setCore hk1 hs1 rfl rfl ⟨vmasOk_mmap hok hm, fun v hv => ?_⟩ (fun p l hl => ?_) (fun p l key hl hfs => ?_)
  · rcases (mem_mmap hm v).1 hv with hv | rfl
    · exact (hk.leaf.areas a s hs).flags v hv
    · exact ⟨by simp, by simp⟩
  · simp only [inShared, hfind]
    split_ifs with hr
    · have hnone := findVma_none_of_mmap hm hr.1 hr.2
      cases hsh : req.isShared
      · rw [hnone]
        simp [isShared_backing, hsh]
      · rw [hclear hsh s len m hs hlen hm p hr.1 hr.2] at hl
        cases hl
    · rfl
  · obtain ⟨v, fo, hv, hb, ho⟩ := hfs
    refine ⟨v, fo, ?_, hb, ho⟩
    rw [hfind]
    split_ifs with hr
    · rw [findVma_none_of_mmap hm hr.1 hr.2] at hv
      cases hv
    · exact hv

end Rumicos.Proc
