/-
Fork (`fork_cow`, `clone_user_half_cow`).

- `Cloning`: where the walk over the parent's leaves stands. Leaves still to come are as before in the parent and absent
  in the child; those already met are shared. `cloning_step` is one turn of the walk.
- `Forked`, `forkCow_spec`: what a whole fork does. No frame is copied, none is freed, and nobody else's pages are
  touched.
-/
import Rumicos.Proc.Spaces

namespace Rumicos.Proc

open Paging Memory Lib Fs List Option PageTableEntry AddressSpace

/-! ## The entries fork writes -/

/-- read-only and COW, in the parent and in the child -/
def Leaf.forked (l : Leaf) : Leaf :=
  ⟨l.entry.withFlags (cowReadonlyFlags l.entry.flags),
    (PageTableEntry.withFlags_cowReadonly l.entry).1.trans l.present⟩

theorem Leaf.present_flags (l : Leaf) : l.entry.flags.has bitPresent = true := by
  rw [← hasBit_eq_flags _ _ (by decide)]
  exact l.present

theorem Leaf.isCow_flags (l : Leaf) : l.entry.flags.has bitCow = l.isCow :=
  (hasBit_eq_flags _ _ (by decide)).symm

theorem Leaf.isWritable_flags (l : Leaf) : l.entry.flags.has bitWritable = l.isWritable :=
  (hasBit_eq_flags _ _ (by decide)).symm

/-- the same frame with the same flags -/
def Leaf.copied (l : Leaf) : Leaf :=
  ⟨.newPage l.frame l.entry.flags, by rw [PageTableEntry.isPresent_newPage]; exact l.present_flags⟩

@[simp] theorem frame_forked (l : Leaf) : l.forked.frame = l.frame := frame_withFlags _ _

@[simp] theorem isCow_forked (l : Leaf) : l.forked.isCow = true := (withFlags_cowReadonly l.entry).2.2

@[simp] theorem isWritable_forked (l : Leaf) : l.forked.isWritable = false :=
  (withFlags_cowReadonly l.entry).2.1

@[simp] theorem frame_copied (l : Leaf) : l.copied.frame = l.frame := frame_newPage _ _

@[simp] theorem isCow_copied (l : Leaf) : l.copied.isCow = l.isCow :=
  (isCow_newPage _ _).trans l.isCow_flags

@[simp] theorem isWritable_copied (l : Leaf) : l.copied.isWritable = l.isWritable :=
  (isWritable_newPage _ _).trans l.isWritable_flags

theorem leafOf_forked (l : Leaf) : leafOf (l.entry.withFlags (cowReadonlyFlags l.entry.flags)) = some l.forked :=
  dif_pos l.forked.present

theorem leafOf_copied (l : Leaf) : leafOf (.newPage l.frame l.entry.flags) = some l.copied :=
  dif_pos l.copied.present

theorem flags_forked (l : Leaf) : l.forked.entry.flags = cowReadonlyFlags l.entry.flags :=
  flags_newPage _ _

/-- what the parent's table holds for a page after fork -/
def AddressSpace.parentLeaf (s : AddressSpace) (p : UPage) (l : Leaf) : Leaf := if s.inShared p then l else l.forked

/-- what the child's table holds for a page after fork -/
def AddressSpace.childLeaf (s : AddressSpace) (p : UPage) (l : Leaf) : Leaf :=
  if s.inShared p then l.copied else l.forked

theorem frame_parentLeaf (s : AddressSpace) (p : UPage) (l : Leaf) : (s.parentLeaf p l).frame = l.frame := by
  unfold parentLeaf
  split_ifs
  · rfl
  · exact frame_forked l

theorem frame_childLeaf (s : AddressSpace) (p : UPage) (l : Leaf) : (s.childLeaf p l).frame = l.frame := by
  unfold childLeaf
  split_ifs
  · exact frame_copied l
  · exact frame_forked l

/-- the frames the walk over `rem` hands to `cow_share`, in order -/
def AddressSpace.cowFrames (s : AddressSpace) (rem : List (UPage × Leaf)) : List Pfn :=
  (rem.filter fun x => !s.inShared x.1).map fun x => x.2.frame

/-! ## The walk -/

/-- the walk of a fork of `s0`, at address space `a`, into the new address space `c`; `rem` is still to come -/
structure Cloning (k0 : Kernel) (s0 : AddressSpace) (a c : ℕ) (rem : List (UPage × Leaf)) (k : Kernel) : Prop where
  parent : ∃ s, k.space a = some s ∧ s.core = s0.core ∧ s.origin = s0.origin ∧
    ∀ p, s.leaf p = if p ∈ rem.map Prod.fst then s0.leaf p else (s0.leaf p).map (s0.parentLeaf p)
  child : ∃ t, k.space c = some t ∧ t.core = ⟨s0.vmas, s0.mmapNext, 1, none⟩ ∧
    (∀ p, t.leaf p = if p ∈ rem.map Prod.fst then none else (s0.leaf p).map (s0.childLeaf p)) ∧
    ∀ p l, t.leaf p = some l → t.origin p = s0.origin p
  others : ∀ b, b ≠ a → b ≠ c → k.space b = k0.space b
  cores : k.cores = k0.cores
  mem : k.mem = k0.mem
  cache : k.cache = k0.cache
  vnodes : k.vnodes = k0.vnodes
  orphans : k.orphans = k0.orphans
  procs : k.procs = k0.procs
  stores : k.stores = k0.stores
  freed : k.frames.freed = k0.frames.freed

variable {s t s0 : AddressSpace} {p : UPage} {l : Leaf} {rem : List (UPage × Leaf)} {k k' : Kernel} {a c : ℕ}

theorem inShared_congr (h : s.vmas = t.vmas) (p : UPage) : s.inShared p = t.inShared p := by
  simp [inShared, h]

section

variable (hl : s0.leaf p = some l) (hp : p ∉ rem.map Prod.fst)
include hl hp

theorem walk_next {old : UPage → Option Leaf} {new : UPage → Leaf → Leaf} {s' : AddressSpace}
    (hs : ∀ q, s.leaf q = if q ∈ ((p, l) :: rem).map Prod.fst then old q else (s0.leaf q).map (new q))
    (hs' : ∀ q, s'.leaf q = if q = p then some (new p l) else s.leaf q) (q : UPage) :
    s'.leaf q = if q ∈ rem.map Prod.fst then old q else (s0.leaf q).map (new q) := by
  rw [hs' q]
  by_cases hq : q = p
  · subst hq
    rw [if_pos rfl, if_neg hp, hl]
    rfl
  · rw [if_neg hq, hs q]
    simp only [map_cons, mem_cons, hq, false_or]

theorem child_mapped {t' : AddressSpace} {m : Leaf}
    (hm : m = s0.childLeaf p l) (hcore : t.core = ⟨s0.vmas, s0.mmapNext, 1, none⟩)
    (ht : ∀ q, t.leaf q = if q ∈ ((p, l) :: rem).map Prod.fst then none else (s0.leaf q).map (s0.childLeaf q))
    (ho : ∀ q n, t.leaf q = some n → t.origin q = s0.origin q) (he : SpaceEdited t p (some m) (s0.origin p) t') :
    t'.core = ⟨s0.vmas, s0.mmapNext, 1, none⟩ ∧
      (∀ q, t'.leaf q = if q ∈ rem.map Prod.fst then none else (s0.leaf q).map (s0.childLeaf q)) ∧
      ∀ q n, t'.leaf q = some n → t'.origin q = s0.origin q := by
  refine ⟨he.core.trans hcore, walk_next hl hp ht (by rw [← hm]; exact he.leaf), fun q n hn => ?_⟩
  rw [he.origin]
  by_cases hq : q = p
  · subst hq; rw [Function.update_self]
  · rw [Function.update_of_ne hq]
    rw [he.leaf, if_neg hq] at hn
    exact ho q n hn

end

theorem cloneLeaf_cases (hs : k.space a = some s) (h : cloneLeaf a c k (p, l) = some k') :
    (s.inShared p = true ∧ mapPage k c p l.frame l.entry.flags (s.origin p) = some k') ∨
      (s.inShared p = false ∧ ∃ k1,
        setLeaf k a p (leafOf (l.entry.withFlags (cowReadonlyFlags l.entry.flags))) (s.origin p) = some k1 ∧
        mapPage { k1 with cow := cowShare k1.cow l.frame } c p l.frame (cowReadonlyFlags l.entry.flags) (s.origin p) =
          some k') := by
  simp only [cloneLeaf, hs, bind_eq_bind, bind_some] at h
  cases hin : s.inShared p with
  | true =>
    rw [hin] at h
    exact .inl ⟨rfl, h⟩
  | false =>
    rw [hin, if_neg (by decide)] at h
    simp only [bind_eq_some_iff] at h
    exact .inr ⟨rfl, h⟩

/-- **One turn of the walk.** -/
theorem cloning_step {k0 : Kernel} {x : UPage × Leaf} (hac : a ≠ c) (hnd : ((x :: rem).map Prod.fst).Nodup)
    (hx : s0.leaf x.1 = some x.2) (h : Cloning k0 s0 a c (x :: rem) k) (hstep : cloneLeaf a c k x = some k') :
    Cloning k0 s0 a c rem k' := by
  obtain ⟨p, l⟩ := x
  have hp : p ∉ rem.map Prod.fst := (nodup_cons.1 hnd).1
  obtain ⟨s, hs, hscore, hso, hsl⟩ := h.parent
  obtain ⟨t, ht, htcore, htl, hto⟩ := h.child
  have hsv : s.vmas = s0.vmas := congrArg Core.vmas hscore
  have hslp : s.leaf p = some l := by rw [hsl, if_pos (by simp)]; exact hx
  rcases cloneLeaf_cases hs hstep with ⟨hin, hmap⟩ | ⟨hin, k1, hmark, hmap⟩
  · -- MAP_SHARED: the parent keeps its entry
    have hin0 : s0.inShared p = true := by rw [← inShared_congr hsv]; exact hin
    have hed := mapPage_edited hmap
    rw [leafOf_copied, hso] at hed
    obtain ⟨t0, t', ht0, ht', hte⟩ := hed.space
    cases ht.symm.trans ht0
    refine ⟨⟨s, by rw [hed.others a hac]; exact hs, hscore, hso, ?_⟩,
      ⟨t', ht', child_mapped hx hp (by rw [childLeaf, if_pos hin0]) htcore htl hto hte⟩, ?_,
      hed.cores.trans h.cores, hed.mem.trans h.mem, hed.cache.trans h.cache, hed.vnodes.trans h.vnodes,
      hed.orphans.trans h.orphans, hed.procs.trans h.procs, hed.stores.trans h.stores, hed.freed.trans h.freed⟩
    · refine walk_next hx hp hsl fun q => ?_
      by_cases hq : q = p
      · subst hq; rw [if_pos rfl, hslp, parentLeaf, if_pos hin0]
      · rw [if_neg hq]
    · intro b hba hbc
      rw [hed.others b hbc]
      exact h.others b hba hbc
  · -- the parent's entry becomes COW, and the child gets the same entry
    have hin0 : s0.inShared p = false := by rw [← inShared_congr hsv]; exact hin
    have hed1 := setLeaf_edited hmark hslp hs
    rw [leafOf_forked] at hed1
    obtain ⟨s', s1, hs', hs1, hse⟩ := hed1.space
    cases hs.symm.trans hs'
    have ht1 : k1.space c = some t := by rw [hed1.others c (Ne.symm hac)]; exact ht
    have hed2 := mapPage_edited hmap
    have hleaf2 : leafOf (.newPage l.frame (cowReadonlyFlags l.entry.flags)) = some l.forked := leafOf_forked l
    rw [hleaf2, hso] at hed2
    obtain ⟨t0, t', ht0, ht', hte⟩ := hed2.space
    cases ht1.symm.trans ht0
    refine ⟨⟨s1, by rw [hed2.others a hac]; exact hs1, hse.core.trans hscore, ?_, ?_⟩,
      ⟨t', ht', child_mapped hx hp (by rw [childLeaf, hin0]; rfl) htcore htl hto hte⟩, ?_,
      hed2.cores.trans (hed1.cores.trans h.cores), hed2.mem.trans (hed1.mem.trans h.mem),
      hed2.cache.trans (hed1.cache.trans h.cache), hed2.vnodes.trans (hed1.vnodes.trans h.vnodes),
      hed2.orphans.trans (hed1.orphans.trans h.orphans), hed2.procs.trans (hed1.procs.trans h.procs),
      hed2.stores.trans (hed1.stores.trans h.stores), hed2.freed.trans (hed1.freed.trans h.freed)⟩
    · rw [hse.origin, ← hso, Function.update_eq_self]
    · refine walk_next hx hp hsl fun q => ?_
      rw [hse.leaf, parentLeaf, hin0]
      rfl
    · intro b hba hbc
      rw [hed2.others b hbc]
      exact (hed1.others b hba).trans (h.others b hba hbc)

/-- **One turn of the walk keeps a state good** while COW_TABLE has room for the frames to come. -/
theorem good_cloneLeaf {k0 : Kernel} {x : UPage × Leaf} (hac : a ≠ c) (hx : s0.leaf x.1 = some x.2)
    (h : Cloning k0 s0 a c (x :: rem) k) (hk : Good k) (hfits : Fits k.cow (s0.cowFrames (x :: rem)))
    (hstep : cloneLeaf a c k x = some k') : Good k' ∧ Fits k'.cow (s0.cowFrames rem) := by
  obtain ⟨p, l⟩ := x
  obtain ⟨s, hs, hscore, hso, hsl⟩ := h.parent
  obtain ⟨t, ht, htcore, htl, -⟩ := h.child
  have hsv : s.vmas = s0.vmas := congrArg Core.vmas hscore
  have htv : t.vmas = s0.vmas := congrArg Core.vmas htcore
  have hslp : s.leaf p = some l := by rw [hsl, if_pos (by simp)]; exact hx
  have htlp : t.leaf p = none := by rw [htl, if_pos (by simp)]
  rcases cloneLeaf_cases hs hstep with ⟨hin, hmap⟩ | ⟨hin, k1, hmark, hmap⟩
  · -- MAP_SHARED: the child borrows the frame too
    have hin0 : s0.inShared p = true := by rw [← inShared_congr hsv]; exact hin
    have hcow := hk.leaf.plain a s p l hs hslp hin
    have hkept : k.kept l.frame = true := by
      have := users_pos hs hslp
      rw [kindOf_shr hcow hin] at this
      exact (hk.sound l.frame).borrowed this
    refine ⟨good_mapShared hk ht hmap htlp l.present_flags (by rw [l.isCow_flags]; exact hcow)
      (by rw [inShared_congr htv]; exact hin0) hkept (hk.leaf.seat_of hs hslp), ?_⟩
    rw [cowFrames, filter_cons_of_neg (by simp [hin0])] at hfits
    rw [(mapPage_edited hmap).cow]
    exact hfits
  · -- the parent's page is marked, the child's page is one more claim
    have hin0 : s0.inShared p = false := by rw [← inShared_congr hsv]; exact hin
    have hk1 := good_markCow hk hs hslp hin hmark
    have hed1 := setLeaf_edited hmark hslp hs
    rw [leafOf_forked] at hed1
    obtain ⟨s', s1, hs', hs1, hse⟩ := hed1.space
    cases hs.symm.trans hs'
    have ht1 : k1.space c = some t := by rw [hed1.others c (Ne.symm hac)]; exact ht
    have hs1p : s1.leaf p = some l.forked := by rw [hse.leaf, if_pos rfl]
    have hfits1 : Fits k1.cow (l.frame :: s0.cowFrames rem) := by
      rw [cowFrames, filter_cons_of_pos (by simp [hin0])] at hfits
      rw [hed1.cow]
      exact hfits
    have hpos : 0 < k1.users .cow l.frame := by
      have := users_pos hs1 hs1p
      rwa [kindOf_cow (isCow_forked l), frame_forked] at this
    refine ⟨good_mapCow hk1 ht1 hmap htlp
      (by rw [← flags_forked]; exact l.forked.present_flags)
      (by rw [← flags_forked, Leaf.isCow_flags, isCow_forked])
      (by rw [inShared_congr htv]; exact hin0) (fits_head hfits1) (.inl hpos)
      (frame_forked l ▸ hk1.leaf.seat_of hs1 hs1p)
      (fun key e hkey hf => by
        have := hk1.leaf.file a s1 p l.forked key e hs1 hs1p (isCow_forked l) hkey (by rw [frame_forked, hf])
        rwa [hse.vmas, hsv, ← htv] at this), ?_⟩
    rw [(mapPage_edited hmap).cow]
    exact fits_tail hfits1

/-! ## A whole fork -/

/-- the frames a fork of `a` has to track -/
def forkFrames (k : Kernel) (a : ℕ) : List Pfn :=
  match k.space a with
  | some s => s.cowFrames (Slot.leaves (some s.pml4))
  | none => []

/-- what a fork of `s0`, at address space `a`, does -/
structure Forked (k : Kernel) (s0 : AddressSpace) (a : ℕ) (k' : Kernel) (c : ℕ) : Prop where
  id : c = k.spaces.length
  parent : ∃ s, k'.space a = some s ∧ s.core = s0.core ∧ s.origin = s0.origin ∧
    ∀ p, s.leaf p = (s0.leaf p).map (s0.parentLeaf p)
  child : ∃ t f, k'.space c = some t ∧ t.core = ⟨s0.vmas, s0.mmapNext, 1, some f⟩ ∧
    (∀ p, t.leaf p = (s0.leaf p).map (s0.childLeaf p)) ∧ ∀ p l, t.leaf p = some l → t.origin p = s0.origin p
  others : ∀ b, b ≠ a → b ≠ c → k'.space b = k.space b
  cores : ∃ f, k'.cores = k.cores ++ [some ⟨s0.vmas, s0.mmapNext, 1, some f⟩]
  mem : k'.mem = k.mem
  cache : k'.cache = k.cache
  vnodes : k'.vnodes = k.vnodes
  orphans : k'.orphans = k.orphans
  procs : k'.procs = k.procs
  stores : k'.stores = k.stores
  freed : k'.frames.freed = k.frames.freed

theorem forkCow_eq (hs : k.space a = some s) :
    forkCow k a = (allocFrame k.frames).bind fun x =>
      ((Slot.leaves (some s.pml4)).foldlM (cloneLeaf a k.spaces.length)
        (addSpace k x.2 (emptySpace x.1 s.vmas s.mmapNext))).bind fun k2 =>
          (allocShared k2 k.spaces.length).map fun k' => (k', k.spaces.length) := by
  simp only [forkCow, newSpace, hs, bind_eq_bind, Option.pure_def]
  cases hf : allocFrame k.frames with
  | none => rfl
  | some r =>
    obtain ⟨f, fr⟩ := r
    have hc := space_addSpace_self k fr (emptySpace f (List.replicate maxVmas none) mmapBase)
    have hset : (addSpace k fr (emptySpace f (List.replicate maxVmas none) mmapBase)).setSpace k.spaces.length
        { emptySpace f (List.replicate maxVmas none) mmapBase with vmas := s.vmas, mmapNext := s.mmapNext } =
        addSpace k fr (emptySpace f s.vmas s.mmapNext) := by
      simp [addSpace, Kernel.setSpace, emptySpace]
    simp only [addSpace, emptySpace] at hc hset
    simp only [bind_some, hc, hset, map_eq_bind]
    rfl

theorem forkCow_inv (h : forkCow k a = some (k', c)) :
    ∃ s f frames k2, k.space a = some s ∧ allocFrame k.frames = some (f, frames) ∧ c = k.spaces.length ∧
      (Slot.leaves (some s.pml4)).foldlM (cloneLeaf a c) (addSpace k frames (emptySpace f s.vmas s.mmapNext)) = some k2 ∧
      allocShared k2 c = some k' := by
  obtain ⟨s, hs, -⟩ := bind_eq_some_iff.1 h
  simp only [forkCow_eq hs, bind_eq_some_iff, map_eq_some_iff, Prod.exists] at h
  obtain ⟨f, frames, hf, k2, hfold, k3, hsh, rfl, rfl⟩ := h
  exact ⟨s, f, frames, k2, hs, hf, rfl, hfold, hsh⟩

theorem mem_leaves_fst (s : AddressSpace) (p : UPage) :
    p ∈ (Slot.leaves (some s.pml4)).map Prod.fst ↔ s.leaf p ≠ none := by
  rw [List.mem_map, ne_none_iff_exists']
  constructor
  · rintro ⟨⟨q, l⟩, hq, rfl⟩
    exact ⟨l, (Slot.mem_leaves _ _ _).1 hq⟩
  · rintro ⟨l, hl⟩
    exact ⟨(p, l), (Slot.mem_leaves _ _ _).2 hl, rfl⟩

theorem cloning_start (hs : k.space a = some s0) (f : Pfn) (frames : Frames) :
    Cloning (addSpace k frames (emptySpace f s0.vmas s0.mmapNext)) s0 a k.spaces.length
      (Slot.leaves (some s0.pml4)) (addSpace k frames (emptySpace f s0.vmas s0.mmapNext)) := by
  refine ⟨⟨s0, by rw [space_addSpace_ne _ _ _ (space_lt hs).ne]; exact hs, rfl, rfl, fun p => ?_⟩,
    ⟨_, space_addSpace_self _ _ _, rfl, fun p => ?_, fun p l hl => ?_⟩, fun _ _ _ => rfl, rfl,
    rfl, rfl, rfl, rfl, rfl, rfl, rfl⟩
  · by_cases hp : s0.leaf p = none
    · simp [hp]
    · rw [if_pos ((mem_leaves_fst s0 p).2 hp)]
  · rw [leaf_emptySpace]
    by_cases hp : s0.leaf p = none
    · simp [hp]
    · rw [if_pos ((mem_leaves_fst s0 p).2 hp)]
  cases hl

/-- **The whole walk.** -/
theorem cloning_run {k2 : Kernel} {f : Pfn} {frames : Frames} (hs : k.space a = some s0)
    (hfold : (Slot.leaves (some s0.pml4)).foldlM (cloneLeaf a k.spaces.length)
    (addSpace k frames (emptySpace f s0.vmas s0.mmapNext)) = some k2) :
    Cloning (addSpace k frames (emptySpace f s0.vmas s0.mmapNext)) s0 a k.spaces.length [] k2 := by
  exact (foldlM_inv (fun rem j => (rem.map Prod.fst).Nodup ∧ (∀ x ∈ rem, s0.leaf x.1 = some x.2) ∧
      Cloning (addSpace k frames (emptySpace f s0.vmas s0.mmapNext)) s0 a k.spaces.length rem j)
    (fun x rem j j' hI hx => ⟨(nodup_cons.1 hI.1).2, fun y hy => hI.2.1 y (mem_cons_of_mem _ hy),
      cloning_step (space_lt hs).ne hI.1 (hI.2.1 x mem_cons_self) hI.2.2 hx⟩)
    ⟨Slot.nodup_leaves _, fun x hx => (Slot.mem_leaves _ _ _).1 hx, cloning_start hs f frames⟩ hfold).2.2

/-- **Fork** does what `Forked` says. -/
theorem forkCow_spec (h : forkCow k a = some (k', c)) : ∃ s0, k.space a = some s0 ∧ Forked k s0 a k' c := by
  obtain ⟨s0, f, frames, k2, hs, hf, rfl, hfold, hsh⟩ := forkCow_inv h
  refine ⟨s0, hs, ?_⟩
  have hend := cloning_run hs hfold
  obtain ⟨s, hs2, hscore, hso, hsl⟩ := hend.parent
  obtain ⟨t, ht2, htcore, htl, hto⟩ := hend.child
  obtain ⟨t', g, frames', ht', hg, rfl⟩ := allocShared_spec hsh
  cases ht2.symm.trans ht'
  have ht2' : ({ k2 with frames := frames' } : Kernel).space k.spaces.length = some t := ht2
  refine ⟨rfl, ⟨s, ?_, hscore, hso, hsl⟩, ⟨{ t with ownFrame := some g }, g, space_setSpace_self ht2' _, ?_, htl, hto⟩,
    fun b hba hbc => ?_, ⟨g, ?_⟩, hend.mem, hend.cache, hend.vnodes, hend.orphans, hend.procs, hend.stores,
    (allocFrame_spec hg).2.2.1.trans (hend.freed.trans (allocFrame_spec hf).2.2.1)⟩
  · rw [space_setSpace_ne _ (space_lt hs).ne]
    exact hs2
  · exact congrArg (fun c : Core => { c with ownFrame := some g }) htcore
  · rw [space_setSpace_ne _ hbc]
    exact (hend.others b hba hbc).trans (space_addSpace_ne _ _ _ hbc)
  · have hc2 : k2.cores = k.cores ++ [some ⟨s0.vmas, s0.mmapNext, 1, none⟩] := by
      rw [hend.cores]
      simp [Kernel.cores, addSpace, emptySpace, core]
    exact cores_ownFrame hc2 htcore g

/-- **Fork keeps a state good** when COW_TABLE has room for the frames it has to track. -/
theorem good_forkCow (hk : Good k) (hlive : k.liveCount ≤ maxProcesses) (hfits : Fits k.cow (forkFrames k a))
    (h : forkCow k a = some (k', c)) : Good k' := by
  obtain ⟨s0, f, frames, k2, hs, hf, rfl, hfold, hsh⟩ := forkCow_inv h
  have hne := (space_lt hs).ne
  rw [forkFrames, hs] at hfits
  have h0 : Good (addSpace k frames (emptySpace f s0.vmas s0.mmapNext)) :=
    good_addSpace hk hlive hf ⟨(hk.leaf.areas a s0 hs).vmas, (hk.leaf.areas a s0 hs).flags⟩
  have hend := foldlM_inv (fun rem j => ((rem.map Prod.fst).Nodup ∧ (∀ x ∈ rem, s0.leaf x.1 = some x.2) ∧
      Cloning (addSpace k frames (emptySpace f s0.vmas s0.mmapNext)) s0 a k.spaces.length rem j) ∧
      Good j ∧ Fits j.cow (s0.cowFrames rem))
    (fun x rem j j' hI hx => ⟨⟨(nodup_cons.1 hI.1.1).2, fun y hy => hI.1.2.1 y (mem_cons_of_mem _ hy),
        cloning_step hne hI.1.1 (hI.1.2.1 x mem_cons_self) hI.1.2.2 hx⟩,
      good_cloneLeaf hne (hI.1.2.1 x mem_cons_self) hI.1.2.2 hI.2.1 hI.2.2 hx⟩)
    ⟨⟨Slot.nodup_leaves _, fun x hx => (Slot.mem_leaves _ _ _).1 hx, cloning_start hs f frames⟩, h0, hfits⟩ hfold
  obtain ⟨t, ht2, htcore, -, -⟩ := hend.1.2.2.child
  exact good_allocShared hend.2.1 ht2 (congrArg Core.ownFrame htcore) hsh

end Rumicos.Proc
