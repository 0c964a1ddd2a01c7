/-
MAP_SHARED coherence: what mappers of a file read, and what is in the file when nobody maps it any more.

- `SharedAt s p v off`: page p of the address space is page `off` of vnode v, by a MAP_SHARED area.
- `SeatOk`: a present MAP_SHARED page is on the frame the cache lists for its file page, and a dirty page of the cache
  belongs to a file of which somebody has a MAP_SHARED page present.
- `CoherentOk`: what an operation must not do. The dirty bit is set by the first fault on a page only, and any munmap of
  a MAP_SHARED area clears the bits of the whole file, so a store must find its page dirty; write() goes to the file
  alone, so it must find its pages uncached; and the conditions of `StepOk`, with room in the cache.
-/
import Rumicos.Proc.FileData

namespace Rumicos.Proc

open Paging Memory Lib Fs List Option

/-! ## Seats of MAP_SHARED pages -/

/-- page `p` is page `off` of vnode `v`, by a MAP_SHARED area -/
def SharedAt (s : AddressSpace) (p : UPage) (v off : ℕ) : Prop :=
  ∃ vma fo, findVma s.vmas (pageAddr p) = some vma ∧ vma.backing = .file v fo true ∧
    off = (fo + (pageAddr p - vma.start)) % 2 ^ 64

/-- a MAP_SHARED page of `v` is present -/
def AddressSpace.Touches (s : AddressSpace) (v : ℕ) : Prop := ∃ p l off, s.leaf p = some l ∧ SharedAt s p v off

/-- file areas start at page boundaries of their files -/
def AlignedAreas (k : Kernel) : Prop :=
  ∀ a s vma v fo shared, k.space a = some s → some vma ∈ s.vmas → vma.backing = .file v fo shared → fo % 4096 = 0

structure SeatOk (k : Kernel) : Prop where
  areas : AlignedAreas k
  seat : ∀ a s p l v off, k.space a = some s → s.leaf p = some l → SharedAt s p v off →
    ∃ e, k.cache.find (v, off) = some e ∧ e.frame = l.frame
  dirty : ∀ key e, k.cache.find key = some e → e.dirty = true → ∃ a s, k.space a = some s ∧ s.Touches key.1

variable {s : AddressSpace} {p : UPage} {v off addr a pos : ℕ} {k k' : Kernel} {op : Op}

theorem sharedAt_congr {t : AddressSpace} (h : t.vmas = s.vmas) : SharedAt t p v off ↔ SharedAt s p v off := by
  simp [SharedAt, h]

theorem SharedAt.inShared (h : SharedAt s p v off) : s.inShared p = true := by
  obtain ⟨vma, fo, hv, hb, -⟩ := h
  simp [AddressSpace.inShared, hv, Vma.isShared, hb]

theorem sharedAt_fault {fo : ℕ} {vma : Vma} (haddr : addr < userTop)
    (hv : findVma s.vmas (addr / pageSize * pageSize) = some vma) (hb : vma.backing = .file v fo true) :
    SharedAt s (pageOf addr) v (fileOff vma fo addr) :=
  ⟨vma, fo, by rw [pageAddr_pageOf haddr]; exact hv, hb, by rw [pageAddr_pageOf haddr]; rfl⟩

theorem sharedAt_unique {w off' : ℕ} (h : SharedAt s p v off) (h' : SharedAt s p w off') : w = v ∧ off' = off := by
  obtain ⟨vma, fo, hv, hb, rfl⟩ := h
  obtain ⟨vma', fo', hv', hb', rfl⟩ := h'
  cases hv.symm.trans hv'
  cases hb.symm.trans hb'
  exact ⟨rfl, rfl⟩

theorem fileOff_aligned (hk : AreasInv k) (hal : AlignedAreas k) (hs : k.space a = some s) {fo : ℕ} {vma : Vma}
    {shared : Bool} (hv : findVma s.vmas (addr / pageSize * pageSize) = some vma) (hb : vma.backing = .file v fo shared) :
    fileOff vma fo addr % 4096 = 0 := by
  obtain ⟨hm, hc⟩ := findVma_mem hv
  have h1 := hal a s vma v fo shared hs hm hb
  have h2 := ((hk a s hs).vmas.aligned vma hm).1
  unfold fileOff
  simp only [pageSize] at *
  omega

theorem sharedTarget_iff (hk : AreasInv k) (hal : AlignedAreas k) (hs : k.space a = some s) (haddr : addr < userTop)
    (h : sharedTarget s addr = some (v, pos)) : SharedAt s (pageOf addr) v (pageBase pos) ∧ pos % 4096 = addr % 4096 := by
  unfold sharedTarget at h
  split at h
  · rename_i start _ _ v' fo hv
    cases h
    have hoff := fileOff_aligned hk hal hs hv rfl
    have hbase : pageBase ((fo + (addr / pageSize * pageSize - start)) % 2 ^ 64 + addr % pageSize) =
        (fo + (addr / pageSize * pageSize - start)) % 2 ^ 64 :=
      pageBase_eq hoff (by omega) (by simp only [pageSize] at *; omega)
    refine ⟨?_, ?_⟩
    · rw [hbase]
      exact sharedAt_fault haddr hv rfl
    · unfold fileOff at hoff
      simp only [pageSize] at *
      omega
  · cases h

theorem sharedTarget_none (haddr : addr < userTop) (h : sharedTarget s addr = none) :
    s.inShared (pageOf addr) = false := by
  rw [AddressSpace.inShared, pageAddr_pageOf haddr]
  unfold sharedTarget at h
  split at h
  · cases h
  · rename_i hn
    rcases hv : findVma s.vmas (addr / pageSize * pageSize) with _ | ⟨start, endAddr, flags, backing⟩
    · rfl
    · rcases backing with _ | ⟨v, fo, _ | _⟩
      · rfl
      · rfl
      · exact absurd hv (hn _ _ _ _ _)

/-! ## What keeps the seats -/

/-- **Pages that move between address spaces**: every present MAP_SHARED page was one before, on the same frame. -/
theorem seatOk_transfer (h : SeatOk k) (hal : AlignedAreas k') (hsf : SameFrames k.cache k'.cache)
    (hleaf : ∀ a s p l v off, k'.space a = some s → s.leaf p = some l → SharedAt s p v off →
    ∃ b t m, k.space b = some t ∧ t.leaf p = some m ∧ SharedAt t p v off ∧ m.frame = l.frame)
    (hdirty : ∀ key e', k'.cache.find key = some e' → e'.dirty = true → ∃ e, k.cache.find key = some e ∧ e.dirty = true)
    (htouch : ∀ a s v, k.space a = some s → s.Touches v → (∃ off e, k'.cache.find (v, off) = some e ∧ e.dirty = true) →
    ∃ b t, k'.space b = some t ∧ t.Touches v) :
    SeatOk k' := by
  refine ⟨hal, fun a s p l v off hs hl hat => ?_, fun key e' he' hd => ?_⟩
  · obtain ⟨b, t, m, ht, hm, hat', hf⟩ := hleaf a s p l v off hs hl hat
    obtain ⟨e, he, hef⟩ := h.seat b t p m v off ht hm hat'
    have := hsf (v, off)
    rw [he, map_some, map_eq_some_iff] at this
    obtain ⟨e', he', hf'⟩ := this
    exact ⟨e', he', hf'.trans (hef.trans hf)⟩
  · obtain ⟨e, he, hd0⟩ := hdirty key e' he' hd
    obtain ⟨a, s, hs, ht⟩ := h.dirty key e he hd0
    exact htouch a s key.1 hs ht ⟨key.2, e', he', hd⟩

theorem seatOk_congr (h : SeatOk k) (hs : k'.spaces = k.spaces) (hc : k'.cache = k.cache) : SeatOk k' := by
  have hsp : k'.space = k.space := by funext a; simp [Kernel.space, hs]
  refine ⟨?_, ?_, ?_⟩
  · unfold AlignedAreas
    rw [hsp]
    exact h.areas
  · rw [hsp, hc]
    exact h.seat
  · rw [hsp, hc]
    exact h.dirty

variable {c : ℕ} {b w : Bool} {r : Option Pfn}

section Seats

variable {s' : AddressSpace}

theorem alignedAreas_of_cores (h : AlignedAreas k) (hc : k'.cores = k.cores) : AlignedAreas k' := by
  intro b t vma v fo shared ht hm hb
  have hcore := space_core hc b
  rw [ht, map_some, eq_comm, map_eq_some_iff] at hcore
  obtain ⟨u, hu, hcu⟩ := hcore
  refine h b u vma v fo shared hu ?_ hb
  rw [show u.vmas = t.vmas from congrArg Core.vmas hcu]
  exact hm

/-- **One entry replaced**, after a change of the cache that keeps what it lists. The page stays present, or was in no
MAP_SHARED area; the cache lists the new frame for a MAP_SHARED page; and a page that turns dirty is the new one. -/
theorem seatOk_edit {j : Kernel} {x : Option Leaf} {o : Option Origin} (h : SeatOk k) (hs : k.space a = some s)
    (he : Edited j a p x o k') (hj : j.spaces = k.spaces)
    (hcache : ∀ key e, k.cache.find key = some e → ∃ e', j.cache.find key = some e' ∧ e'.frame = e.frame)
    (hdirty : ∀ key e', j.cache.find key = some e' → e'.dirty = true → (∃ e, k.cache.find key = some e ∧
    e.dirty = true) ∨ (x ≠ none ∧ ∃ off, SharedAt s p key.1 off))
    (hkeep : s.inShared p = true → x ≠ none)
    (hnew : ∀ l v off, x = some l → SharedAt s p v off → ∃ e, j.cache.find (v, off) = some e ∧ e.frame = l.frame) :
    SeatOk k' := by
  obtain ⟨s0, s1, hs0, hs1, hed⟩ := he.space
  have hjs : j.space = k.space := by funext b; simp [Kernel.space, hj]
  rw [hjs] at hs0
  cases hs.symm.trans hs0
  have hoth : ∀ b, b ≠ a → k'.space b = k.space b := fun b hb => by rw [he.others b hb, hjs]
  have hcores : k'.cores = k.cores := by rw [he.cores, Kernel.cores, Kernel.cores, hj]
  refine ⟨alignedAreas_of_cores h.areas hcores, fun b t q m v off ht hm hat => ?_, fun key e' he' hd => ?_⟩
  · rw [he.cache]
    -- a page other than the new one has the seat it had
    have hold : ∀ t0, k.space b = some t0 → t0.leaf q = some m → SharedAt t0 q v off →
        ∃ e, j.cache.find (v, off) = some e ∧ e.frame = m.frame := by
      intro t0 ht0 hm0 hat0
      obtain ⟨e, hfe, hf⟩ := h.seat b t0 q m v off ht0 hm0 hat0
      obtain ⟨e', hfe', hf'⟩ := hcache _ e hfe
      exact ⟨e', hfe', hf'.trans hf⟩
    by_cases hb : b = a
    · subst hb
      cases hs1.symm.trans ht
      rw [sharedAt_congr hed.vmas] at hat
      rw [hed.leaf] at hm
      split_ifs at hm with hq
      · subst hq
        exact hnew m v off hm hat
      · exact hold s hs hm hat
    · rw [hoth b hb] at ht
      exact hold t ht hm hat
  · rw [he.cache] at he'
    -- the new page itself touches the file
    have hself : ∀ v, x ≠ none → (∃ off, SharedAt s p v off) → ∃ b t, k'.space b = some t ∧ t.Touches v := by
      rintro v hx ⟨off, hat⟩
      obtain ⟨l, hl⟩ := ne_none_iff_exists'.1 hx
      exact ⟨a, s1, hs1, p, l, off, by rw [hed.leaf, if_pos rfl, hl], (sharedAt_congr hed.vmas).2 hat⟩
    rcases hdirty key e' he' hd with ⟨e, hfe, hde⟩ | ⟨hx, hat⟩
    · obtain ⟨b, t, ht, q, m, off, hm, hat⟩ := h.dirty key e hfe hde
      by_cases hb : b = a
      · subst hb
        cases hs.symm.trans ht
        by_cases hq : q = p
        · subst hq
          exact hself key.1 (hkeep hat.inShared) ⟨off, hat⟩
        · exact ⟨b, s1, hs1, q, m, off, by rw [hed.leaf, if_neg hq]; exact hm, (sharedAt_congr hed.vmas).2 hat⟩
      · exact ⟨b, t, by rw [hoth b hb]; exact ht, q, m, off, hm, hat⟩
    · exact hself key.1 hx hat

theorem seatOk_editPlain {j : Kernel} {x : Option Leaf} {o : Option Origin} (h : SeatOk k) (hs : k.space a = some s)
    (he : Edited j a p x o k') (hj : j.spaces = k.spaces)
    (hcache : ∀ key e, k.cache.find key = some e → ∃ e', j.cache.find key = some e' ∧ e'.frame = e.frame)
    (hdirty : ∀ key e', j.cache.find key = some e' → e'.dirty = true → ∃ e, k.cache.find key = some e ∧ e.dirty = true)
    (hplain : s.inShared p = false) : SeatOk k' := by
  refine seatOk_edit h hs he hj hcache (fun key e' he' hd => .inl (hdirty key e' he' hd)) (fun hin => ?_)
    fun l v off hl hat => ?_
  · rw [hplain] at hin
    cases hin
  · rw [hat.inShared] at hplain
    cases hplain

theorem seatOk_loadImage {img : Image} (h : SeatOk k) (hl : loadImage k img = some (k', c)) : SeatOk k' := by
  have hld := loadImage_spec hl
  have hold : ∀ b t, k.space b = some t → b ≠ c := fun b t ht => by rw [hld.id]; exact (space_lt ht).ne
  -- the new address space has no areas
  obtain ⟨f, hcores⟩ := hld.cores
  have hvmas : ∀ t, k'.space c = some t → t.vmas = List.replicate maxVmas none := by
    intro t ht
    have h1 := mem_cores ht
    rw [hcores, hld.id, getElem?_append_right (by simp [Kernel.cores])] at h1
    simp only [Kernel.cores, length_map, Nat.sub_self, getElem?_cons_zero, some.injEq] at h1
    exact (congrArg Core.vmas h1).symm
  have hcases : ∀ b t, k'.space b = some t → (b = c ∧ t.vmas = List.replicate maxVmas none) ∨ k.space b = some t := by
    intro b t ht
    by_cases hbc : b = c
    · subst hbc
      exact .inl ⟨rfl, hvmas t ht⟩
    · rw [hld.others b hbc] at ht
      exact .inr ht
  refine seatOk_transfer h (fun b t vma v fo shared ht hm hb => ?_) (by rw [hld.cache]; exact sameFrames_refl _)
    (fun b t p l v off ht hm hat => ?_) (fun key e he hd => ⟨e, by rw [← hld.cache]; exact he, hd⟩)
    fun b t v ht htv _ => ⟨b, t, by rw [hld.others b (hold b t ht)]; exact ht, htv⟩
  · rcases hcases b t ht with ⟨-, hv⟩ | ht
    · rw [hv] at hm
      simp [mem_replicate] at hm
    · exact h.areas b t vma v fo shared ht hm hb
  · rcases hcases b t ht with ⟨-, hv⟩ | ht
    · have := hat.inShared
      rw [inShared_noAreas hv] at this
      cases this
    · exact ⟨b, t, l, ht, hm, hat, rfl⟩

theorem seatOk_forkCow (h : SeatOk k) (hf : forkCow k a = some (k', c)) : SeatOk k' := by
  obtain ⟨s0, hs0, hfk⟩ := forkCow_spec hf
  obtain ⟨s1, hs1, hcore1, -, hl1⟩ := hfk.parent
  obtain ⟨t1, f, ht1, hcore2, hlt, -⟩ := hfk.child
  have hv1 : s1.vmas = s0.vmas := congrArg Core.vmas hcore1
  have hv2 : t1.vmas = s0.vmas := congrArg Core.vmas hcore2
  have hold : ∀ b t, k.space b = some t → b ≠ c := fun b t ht => by rw [hfk.id]; exact (space_lt ht).ne
  -- parent and child have the areas of the parent, and entries on the same frames
  have hcases : ∀ b t, k'.space b = some t → k.space b = some t ∨ (t.vmas = s0.vmas ∧
      ∀ p l, t.leaf p = some l → ∃ m, s0.leaf p = some m ∧ m.frame = l.frame) := by
    intro b t ht
    by_cases hba : b = a
    · subst hba
      cases hs1.symm.trans ht
      refine .inr ⟨hv1, fun p l hl => ?_⟩
      rw [hl1, map_eq_some_iff] at hl
      obtain ⟨m, hm, rfl⟩ := hl
      exact ⟨m, hm, (frame_parentLeaf s0 p m).symm⟩
    by_cases hbc : b = c
    · subst hbc
      cases ht1.symm.trans ht
      refine .inr ⟨hv2, fun p l hl => ?_⟩
      rw [hlt, map_eq_some_iff] at hl
      obtain ⟨m, hm, rfl⟩ := hl
      exact ⟨m, hm, (frame_childLeaf s0 p m).symm⟩
    rw [hfk.others b hba hbc] at ht
    exact .inl ht
  refine seatOk_transfer h (fun b t vma v fo shared ht hm hb => ?_) (by rw [hfk.cache]; exact sameFrames_refl _)
    (fun b t p l v off ht hm hat => ?_) (fun key e he hd => ⟨e, by rw [← hfk.cache]; exact he, hd⟩)
    fun b t v ht htv _ => ?_
  · rcases hcases b t ht with ht | ⟨hv, -⟩
    · exact h.areas b t vma v fo shared ht hm hb
    · rw [hv] at hm
      exact h.areas a s0 vma v fo shared hs0 hm hb
  · rcases hcases b t ht with ht | ⟨hv, hleaf⟩
    · exact ⟨b, t, l, ht, hm, hat, rfl⟩
    · obtain ⟨m, hm', hmf⟩ := hleaf p l hm
      exact ⟨a, s0, m, hs0, hm', (sharedAt_congr hv).1 hat, hmf⟩
  · by_cases hba : b = a
    · subst hba
      cases hs0.symm.trans ht
      obtain ⟨p, l, off, hl, hat⟩ := htv
      exact ⟨b, s1, hs1, p, _, off, by rw [hl1, hl]; rfl, (sharedAt_congr hv1).2 hat⟩
    · refine ⟨b, t, ?_, htv⟩
      rw [hfk.others b hba (hold b t ht)]
      exact ht

/-- an address space with the same tables, whose areas look the same from every present page -/
theorem seatOk_setSpace (h : SeatOk k) (hs : k.space a = some s) (hp : s'.pml4 = s.pml4)
    (hat : ∀ p l v off, s.leaf p = some l → (SharedAt s' p v off ↔ SharedAt s p v off))
    (hal : ∀ vma v fo shared, some vma ∈ s'.vmas → vma.backing = .file v fo shared → fo % 4096 = 0) :
    SeatOk (k.setSpace a s') := by
  have hleaf : s'.leaf = s.leaf := by funext p; simp [AddressSpace.leaf, hp]
  refine seatOk_transfer h (fun b t vma v fo shared ht hm hb => ?_) (sameFrames_refl _) (fun b t p l v off ht hm h1 => ?_)
    (fun key e he hd => ⟨e, he, hd⟩) fun b t v ht htv _ => ?_
  · rcases space_setSpace_cases hs ht with ⟨-, rfl⟩ | ⟨-, ht⟩
    · exact hal vma v fo shared hm hb
    · exact h.areas b t vma v fo shared ht hm hb
  · rcases space_setSpace_cases hs ht with ⟨-, rfl⟩ | ⟨-, ht⟩
    · rw [hleaf] at hm
      exact ⟨a, s, l, hs, hm, (hat p l v off hm).1 h1, rfl⟩
    · exact ⟨b, t, l, ht, hm, h1, rfl⟩
  · by_cases hb : b = a
    · subst hb
      cases hs.symm.trans ht
      obtain ⟨p, l, off, hl, h1⟩ := htv
      exact ⟨b, s', space_setSpace_self hs s', p, l, off, by rw [hleaf]; exact hl, (hat p l v off hl).2 h1⟩
    · exact ⟨b, t, by rw [space_setSpace_ne k hb]; exact ht, htv⟩

theorem seatOk_sysMmap {length : ℕ} {prot : Prot} {req : MapRequest} {r : Option ℕ} (hk : AreasInv k) (h : SeatOk k)
    (hclear : MmapClear k a length prot req) (hm : sysMmap k a length prot req = some (k', r)) : SeatOk k' := by
  obtain ⟨s0, hs0, ⟨-, rfl⟩ | ⟨-, v, rfl⟩ | ⟨len, m, hlen, hmap, hr, rfl⟩⟩ := sysMmap_cases hm
  · exact h
  · exact seatOk_congr h rfl rfl
  subst hr
  have hallow := sysMmap_allowed hm
  have heq := afterIncRef_eq k req
  have hok := (hk a s0 hs0).vmas
  refine seatOk_setSpace (s := s0) (seatOk_congr h (by rw [heq]) (by rw [heq])) (by rw [heq]; exact hs0) rfl
    (fun p l v off hl => ?_) fun vma v fo shared hv hb => ?_
  · -- the new area is away from the present pages, or is not MAP_SHARED
    have hfind := findVma_mmap hok hmap (pageAddr p)
    simp only [SharedAt, hfind]
    split_ifs with hin
    · rw [findVma_none_of_mmap hmap hin.1 hin.2]
      constructor
      · rintro ⟨vma, fo, hv, hb, -⟩
        cases hv
        have hsh : req.isShared = true := by
          cases req with
          | anonymous => cases hb
          | file w off' shared cw => cases hb; rfl
        rw [hclear hsh s0 len m hs0 hlen hmap p hin.1 hin.2] at hl
        cases hl
      · rintro ⟨vma, fo, hv, -, -⟩
        cases hv
    · rfl
  · rcases (mem_mmap hmap vma).1 hv with hv | rfl
    · exact h.areas a s0 vma v fo shared hs0 hv hb
    · cases req with
      | anonymous => cases hb
      | file w off shared' cw =>
        cases hb
        simp only [mmapAllowed, Bool.and_eq_true, decide_eq_true_eq] at hallow
        exact hallow.1.1.1.2

theorem seatOk_dropRef (h : SeatOk k) (hplain : DropPlain k a) (hd : dropRef k a = some k') : SeatOk k' := by
  obtain ⟨s0, hs0, ⟨hr, own, -, rfl⟩ | ⟨-, rfl⟩⟩ := dropRef_cases hd
  · have hk' : SeatOk (k.without a) := by
      refine seatOk_transfer h (fun b t vma v fo shared ht => h.areas b t vma v fo shared (space_without ht).2)
        (sameFrames_refl _) (fun b t p l v off ht hm hat => ⟨b, t, l, (space_without ht).2, hm, hat, rfl⟩)
        (fun key e he hd => ⟨e, he, hd⟩) fun b t v ht htv _ => ?_
      -- the address space that goes has no MAP_SHARED page
      have hb : b ≠ a := by
        rintro rfl
        cases hs0.symm.trans ht
        obtain ⟨p, l, off, hl, hat⟩ := htv
        have := hplain s0 hs0 hr p l hl
        rw [hat.inShared] at this
        cases this
      exact ⟨b, t, by simp only [Kernel.without, Kernel.space, getElem?_set_ne (Ne.symm hb)]; exact ht, htv⟩
    exact seatOk_congr hk' rfl rfl
  · exact seatOk_setSpace h hs0 rfl (fun _ _ _ _ _ => Iff.rfl) fun vma v fo shared hm hb =>
      h.areas a s0 vma v fo shared hs0 hm hb

theorem dirty_writeback (hd : DataOk k) {e' : CacheEntry} {w : ℕ}
    (he : (writebackVnode k.toStore w).cache.find (v, off) = some e') (hdirty : e'.dirty = true) :
    v ≠ w ∧ k.cache.find (v, off) = some e' := by
  by_cases hreg : (k.vnodes w).vtype = .regular
  · obtain ⟨-, -, -, -, -, hfind⟩ := writebackVnode_spec k.toStore w hreg (hd.cap w) fun key e he => (hd.pages key e he).1
    rw [hfind] at he
    split_ifs at he with hv
    · rw [map_eq_some_iff] at he
      obtain ⟨e, -, rfl⟩ := he
      cases hdirty
    · exact ⟨hv, he⟩
  · have hno : ∀ key e, k.cache.find key = some e → key.1 ≠ w := fun key e he hv => by
      have := (hd.pages key e he).2
      rw [hv] at this
      exact hreg this
    have hskip : writebackVnode k.toStore w = k.toStore := writebackLoop_skip _ _ _ _ fun x hx =>
      .inl (hno x.1 x.2 ((Table.mem_entries _ _ _).1 hx))
    rw [hskip] at he
    exact ⟨hno _ e' he, he⟩

theorem seatOk_munmap {len : ℕ} (hk : AreasInv k) (h : SeatOk k) (hd : DataOk k)
    (hm : munmap k a addr len = some (k', b)) : SeatOk k' := by
  obtain ⟨s0, hs0, rfl | ⟨slot, vma, hmm⟩⟩ := munmap_spec hk hm
  · exact h
  obtain ⟨s1, hs1, hcore, hleaf, -⟩ := hmm.space
  have hv1 : s1.vmas = s0.vmas.set slot none := congrArg Core.vmas hcore
  have hfind : ∀ x, findVma (s0.vmas.set slot none) x = if vma.contains x then none else findVma s0.vmas x :=
    findVma_clear (hk a s0 hs0).vmas hmm.area
  -- a page that stays has the area it had
  have hat : ∀ p v off, SharedAt s1 p v off ↔ vma.contains (pageAddr p) = false ∧ SharedAt s0 p v off := by
    intro p v off
    simp only [SharedAt, hv1, hfind]
    cases vma.contains (pageAddr p) <;> simp
  have hcases : ∀ c t, k'.space c = some t → (c = a ∧ t = s1) ∨ (c ≠ a ∧ k.space c = some t) := by
    intro c t ht
    by_cases hc : c = a
    · subst hc
      cases hs1.symm.trans ht
      exact .inl ⟨rfl, rfl⟩
    · rw [hmm.others c hc] at ht
      exact .inr ⟨hc, ht⟩
  have hsf : SameFrames k.cache k'.cache := by
    rw [hmm.cache]
    exact (frames_afterWriteback k vma).2.2.2.2.2
  -- what is dirty afterwards is no page of the file of a MAP_SHARED area that goes
  have hdirty : ∀ v off e', k'.cache.find (v, off) = some e' → e'.dirty = true →
      k.cache.find (v, off) = some e' ∧ ∀ fo, vma.backing ≠ .file v fo true := by
    intro v off e' he' hde
    rw [hmm.cache] at he'
    unfold afterWriteback at he'
    split at he'
    · rename_i w fo hb
      obtain ⟨hne, he⟩ := dirty_writeback hd he' hde
      refine ⟨he, fun fo' hb' => hne ?_⟩
      rw [hb] at hb'
      cases hb'
      rfl
    · rename_i hb
      exact ⟨he', fun fo => hb v fo⟩
  refine seatOk_transfer h (fun c t u v fo shared ht hu hb => ?_) hsf (fun c t p l v off ht hl h1 => ?_)
    (fun key e he hde => ⟨e, (hdirty key.1 key.2 e he hde).1, hde⟩) fun c t v ht htv hde => ?_
  · rcases hcases c t ht with ⟨-, rfl⟩ | ⟨-, ht⟩
    · rw [hv1] at hu
      exact h.areas a s0 u v fo shared hs0 (mem_of_mem_set_none hu) hb
    · exact h.areas c t u v fo shared ht hu hb
  · rcases hcases c t ht with ⟨-, rfl⟩ | ⟨-, ht⟩
    · obtain ⟨hout, h0⟩ := (hat p v off).1 h1
      rw [hleaf, hout] at hl
      exact ⟨a, s0, l, hs0, hl, h0, rfl⟩
    · exact ⟨c, t, l, ht, hl, h1, rfl⟩
  · by_cases hc : c = a
    · subst hc
      cases hs0.symm.trans ht
      obtain ⟨off', e', he', hde⟩ := hde
      obtain ⟨p, l, off, hl, h0⟩ := htv
      -- the page is not in the area that goes: that one is of another file
      have hout : vma.contains (pageAddr p) = false := by
        by_contra hin
        have hv : findVma s0.vmas (pageAddr p) = some vma :=
          (findVma_iff (hk c s0 hs0).vmas _ _).2 ⟨mem_of_getElem? hmm.area, by simpa using hin⟩
        obtain ⟨u, fo, hu, hb, -⟩ := h0
        cases hv.symm.trans hu
        exact (hdirty v off' e' he' hde).2 fo hb
      exact ⟨c, s1, hs1, p, l, off, by rw [hleaf, hout]; exact hl, (hat p v off).2 ⟨hout, h0⟩⟩
    · exact ⟨c, t, by rw [hmm.others c hc]; exact ht, htv⟩

end Seats

/-! ## Faults -/

section Faults

section

variable (hk : Good k) (h : SeatOk k) (hd : DataOk k)
include hk h hd

/-- **A not-present fault** for which the cache has room -/
theorem coherent_fileFault (haddr : addr < userTop) (hs : k.space a = some s) (hn : s.leaf (pageOf addr) = none)
    (hfits : CacheFits k a addr) (hf : FileFault k a addr s k' b) : SeatOk k' ∧ DataOk k' := by
  have hareas := hk.leaf.areas
  cases hf with
  | noArea hv => exact ⟨h, hd⟩
  | @anon vma _ hv hb hm =>
    obtain ⟨f, frames, hf, hm⟩ := mapFresh_inv hm
    have he := mapPage_edited hm
    have hplain : s.inShared (pageOf addr) = false := by
      rw [inShared_of_findVma haddr hv, Vma.isShared, hb]
    exact ⟨seatOk_editPlain h hs he rfl (fun _ e he => ⟨e, he, rfl⟩) (fun _ e he hde => ⟨e, he, hde⟩) hplain,
      hd.fresh hk.sound hf he.cache he.vnodes he.mem he.stores⟩
  | @failed vma v fo shared st hv hb hg =>
    have hfill := filled hk.sound hd (fileOff_aligned hareas h.areas hs hv hb) (hfits.room hs hn hv hb) hg
    exact ⟨seatOk_congr h rfl (hfill.failed rfl).2, hfill.data⟩
  | @priv vma v fo st f _ hv hb hg hm =>
    have hfill := filled hk.sound hd (fileOff_aligned hareas h.areas hs hv hb) (hfits.room hs hn hv hb) hg
    have he := mapPage_edited hm
    have hplain : s.inShared (pageOf addr) = false := by
      rw [inShared_of_findVma haddr hv, Vma.isShared, hb]
    exact ⟨seatOk_editPlain h hs he rfl (fun key e he => ⟨e, hfill.kept key e he, rfl⟩)
        (fun key e he hde => ⟨e, hfill.dirty key e he hde, hde⟩) hplain,
      hfill.data.same he.cache he.vnodes he.mem he.stores⟩
  | @sharedRw vma v fo st f _ hv hb hw hg hm =>
    have hfill := filled hk.sound hd (fileOff_aligned hareas h.areas hs hv hb) (hfits.room hs hn hv hb) hg
    have he := mapPage_edited hm
    have hat := sharedAt_fault haddr hv hb
    obtain ⟨l, hl, hlf, -⟩ := leafOf_newPage f (hareas.bits hs hv).1.present
    have hdata := dataOk_markDirty hfill.data v (fileOff vma fo addr)
    refine ⟨seatOk_edit h hs he rfl (fun key e hfe => ?_) (fun key e' hfe hde => ?_) (fun _ => by rw [hl]; simp)
      fun m w off hm' hat' => ?_, hdata.same he.cache he.vnodes he.mem he.stores⟩
    · rw [find_markDirty, hfill.kept key e hfe]
      split_ifs
      · exact ⟨_, rfl, rfl⟩
      · exact ⟨e, rfl, rfl⟩
    · rw [find_markDirty] at hfe
      split_ifs at hfe with hkey
      · subst hkey
        exact .inr ⟨by rw [hl]; simp, _, hat⟩
      · exact .inl ⟨e', hfill.dirty key e' hfe hde, hde⟩
    · cases hl.symm.trans hm'
      obtain ⟨rfl, rfl⟩ := sharedAt_unique hat hat'
      obtain ⟨e, hfe, hef⟩ := hfill.listed f rfl
      rw [find_markDirty, if_pos rfl, hfe]
      exact ⟨_, rfl, hef.trans hlf.symm⟩
  | @sharedRo vma v fo st f _ hv hb hw hg hm =>
    have hfill := filled hk.sound hd (fileOff_aligned hareas h.areas hs hv hb) (hfits.room hs hn hv hb) hg
    have he := mapPage_edited hm
    obtain ⟨l, hl, hlf, -⟩ := leafOf_newPage f (hareas.bits hs hv).2.1.present
    refine ⟨seatOk_edit h hs he rfl (fun key e hfe => ⟨e, hfill.kept key e hfe, rfl⟩)
      (fun key e' hfe hde => .inl ⟨e', hfill.dirty key e' hfe hde, hde⟩) (fun _ => by rw [hl]; simp)
      fun m w off hm' hat' => ?_, hfill.data.same he.cache he.vnodes he.mem he.stores⟩
    cases hl.symm.trans hm'
    obtain ⟨rfl, rfl⟩ := sharedAt_unique (sharedAt_fault haddr hv hb) hat'
    obtain ⟨e, hfe, hef⟩ := hfill.listed f rfl
    exact ⟨e, hfe, hef.trans hlf.symm⟩

/-- **A copy-on-write fault** is on no MAP_SHARED page -/
theorem coherent_cowFault (hs : k.space a = some s) (hf : CowFault k a addr s k' b) : SeatOk k' ∧ DataOk k' := by
  cases hf with
  | notCow _ => exact ⟨h, hd⟩
  | reuse hl hc hsole hm =>
    have he := setLeaf_edited hm hl hs
    exact ⟨seatOk_editPlain h hs he rfl (fun _ e he => ⟨e, he, rfl⟩) (fun _ e he hde => ⟨e, he, hde⟩)
      (hk.leaf.not_shared hs hl hc),
      hd.same he.cache he.vnodes he.mem he.stores⟩
  | copy hl hc hsole hg hm =>
    have he := setLeaf_edited hm hl hs
    exact ⟨seatOk_editPlain h hs he rfl (fun _ e he => ⟨e, he, rfl⟩) (fun _ e he hde => ⟨e, he, hde⟩)
      (hk.leaf.not_shared hs hl hc),
      hd.fresh hk.sound hg he.cache he.vnodes he.mem he.stores⟩

theorem coherent_present (hp : Present k a addr w k' r) : SeatOk k' ∧ DataOk k' := by
  cases hp with
  | hit _ _ _ | kill _ _ _ _ => exact ⟨h, hd⟩
  | cow hs _ _ hf _ _ _ => exact coherent_cowFault hk h hd hs hf

/-- **An access** for which both tables have room -/
theorem coherent_access (haddr : addr < userTop) (hfits : FaultFits k a addr) (hcfits : CacheFits k a addr)
    (ha : Access k a addr w k' r) : SeatOk k' ∧ DataOk k' := by
  cases ha with
  | present hp => exact coherent_present hk h hd hp
  | noPage hs hn hf => exact coherent_fileFault hk h hd haddr hs hn hcfits hf
  | page hs hn hf hp =>
    obtain ⟨h1, hd1⟩ := coherent_fileFault hk h hd haddr hs hn hcfits hf
    exact coherent_present (good_fileFault hk hs hn haddr hfits hf) h1 hd1 hp

end

end Faults

/-! ## Stores -/

/-- a store to a present, writable MAP_SHARED page finds the page dirty -/
def StoreDirty (k : Kernel) (a addr : ℕ) : Prop :=
  ((k.space a).all fun s => (s.leaf (pageOf addr)).all fun l => !l.isWritable ||
    (sharedTarget s addr).all fun x => (k.cache.find (x.1, pageBase x.2)).any CacheEntry.dirty) = true

instance (k : Kernel) (a addr : ℕ) : Decidable (StoreDirty k a addr) := by unfold StoreDirty; infer_instance

section Stores

variable {f : Pfn}

theorem access_leaf (ha : Access k a addr w k' (some f)) :
    ∃ s' l, k'.space a = some s' ∧ s'.leaf (pageOf addr) = some l ∧ l.frame = f ∧ (w = true → l.isWritable = true) := by
  have hp : ∀ {j : Kernel}, Present j a addr w k' (some f) → ∃ s' l, k'.space a = some s' ∧
      s'.leaf (pageOf addr) = some l ∧ l.frame = f ∧ (w = true → l.isWritable = true) := by
    intro j hp
    cases hp with
    | hit hs hl hw => exact ⟨_, _, hs, hl, rfl, fun h => by simpa [h] using hw⟩
    | cow _ _ _ _ hs' hl' hw' => exact ⟨_, _, hs', hl', rfl, fun _ => hw'⟩
  cases ha with
  | present h | page _ _ _ h => exact hp h

theorem access_vmas {s' : AddressSpace} (ha : Access k a addr w k' r) (hs : k.space a = some s)
    (hs' : k'.space a = some s') : s'.vmas = s.vmas := by
  have hcore := space_core (access_frame ha).2.1 a
  rw [hs, hs', map_some, map_some, some.injEq] at hcore
  exact congrArg Core.vmas hcore

/-- **The page of a store is dirty**: it was, or the fault marked it. -/
theorem store_dirty {s' : AddressSpace} (hk : Good k) (h : SeatOk k) (hd : DataOk k) (haddr : addr < userTop)
    (hcfits : CacheFits k a addr) (hdirty : StoreDirty k a addr) (ha : Access k a addr true k' (some f))
    (hs' : k'.space a = some s') (ht : sharedTarget s' addr = some (v, pos)) :
    ∃ e, k'.cache.find (v, pageBase pos) = some e ∧ e.dirty = true := by
  obtain ⟨s, hs⟩ := ha.space
  have hvm := access_vmas ha hs hs'
  rw [show sharedTarget s' addr = sharedTarget s addr by simp only [sharedTarget, hvm]] at ht
  obtain ⟨hat, -⟩ := sharedTarget_iff hk.leaf.areas h.areas hs haddr ht
  obtain ⟨vma, fo, hv, hb, hoff⟩ := id hat
  rw [pageAddr_pageOf haddr] at hv hoff
  cases ha with
  | present hp =>
    cases hp with
    | @hit t l hs1 hl hw =>
      cases hs.symm.trans hs1
      have hwr : l.isWritable = true := by simpa using hw
      rw [StoreDirty, hs, all_some, hl, all_some, hwr, ht] at hdirty
      simpa only [Bool.not_true, Bool.false_or, all_some, Option.any_eq_true] using hdirty
    | @cow t _ l _ _ hs1 hl _ hf _ _ _ =>
      -- a MAP_SHARED page is not COW
      cases hs.symm.trans hs1
      have hplain := hk.leaf.plain a s _ l hs hl hat.inShared
      cases hf with
      | reuse hl' hc _ _ | copy hl' hc _ _ _ => cases hl.symm.trans hl'; rw [hc] at hplain; cases hplain
  | @page t k1 _ _ hs1 hn hf hp =>
    cases hs.symm.trans hs1
    obtain ⟨s1, l1, vma1, hs1', hl1, hv1, -, hcow, -⟩ := fileFault_entry hk.leaf.areas hs hf
    cases hv.symm.trans hv1
    cases hp with
    | @hit t l hs2 hl hw =>
      cases hs1'.symm.trans hs2
      cases hl1.symm.trans hl
      have hwr : l1.isWritable = true := by simpa using hw
      cases hf with
      | anon hv' hb' _ | priv hv' hb' _ _ => cases hv.symm.trans hv'; cases hb.symm.trans hb'
      | @sharedRw _ w fo' st g _ hv' hb' _ hg hm =>
        cases hv.symm.trans hv'
        cases hb.symm.trans hb'
        have hfill := filled hk.sound hd (fileOff_aligned hk.leaf.areas h.areas hs hv hb) (hcfits.room hs hn hv hb) hg
        obtain ⟨e, he, -⟩ := hfill.listed g rfl
        have hkey : (v, pageBase pos) = (v, fileOff vma fo addr) := by rw [hoff]; rfl
        rw [(mapPage_edited hm).cache]
        rw [find_markDirty, hkey, if_pos rfl, he]
        exact ⟨_, rfl, rfl⟩
      | @sharedRo _ w fo' st g _ hv' hb' hro hg hm =>
        -- the page was mapped read-only
        cases hv.symm.trans hv'
        have hro := (hk.leaf.areas.bits hs hv).2.1
        obtain ⟨l, hl', -, -, hlw, -⟩ := leafOf_newPage g hro.present
        obtain ⟨s0, s2, -, hs2', hed⟩ := (mapPage_edited hm).space
        cases hs1'.symm.trans hs2'
        rw [hed.leaf, if_pos rfl, hl', some.injEq] at hl1
        rw [← hl1, hlw, hro.writable] at hwr
        cases hwr
    | @cow t _ l _ _ hs2 hl _ hf2 _ _ _ =>
      cases hs1'.symm.trans hs2
      have hc : l1.isCow = true := by
        cases hf2 with
        | reuse hl' hc _ _ | copy hl' hc _ _ _ => cases hl1.symm.trans hl'; exact hc
      obtain ⟨w, fo', hb'⟩ := hcow hc
      cases hb.symm.trans hb'

/-- **A store** keeps the seats and the data. -/
theorem coherent_stored {l : Leaf} (b : UInt8) (hk : Good k) (h : SeatOk k) (hd : DataOk k) (hw : Leaves resolved k)
    (haddr : addr < userTop) (hs : k.space a = some s) (hl : s.leaf (pageOf addr) = some l) (hf : l.frame = f)
    (hwr : l.isWritable = true)
    (hdirty : ∀ v pos, sharedTarget s addr = some (v, pos) → ∃ e, k.cache.find (v, pageBase pos) = some e ∧
    e.dirty = true) :
    SeatOk (stored k s f addr b) ∧ DataOk (stored k s f addr b) := by
  refine ⟨seatOk_congr h rfl rfl, ?_⟩
  rcases ht : sharedTarget s addr with _ | ⟨v, pos⟩
  · -- a page of its own: the cache does not list its frame
    have hkind := users_pos hs hl
    rw [kindOf_own (hw a s hs _ l hl hwr) (sharedTarget_none haddr ht)] at hkind
    obtain ⟨-, -, -, -, h5, -⟩ := (hk.sound l.frame).own_only hkind
    have hnc := not_cached_of_kept h5
    refine dataOk_congr hd rfl (sameFiles_refl _) (fun key e he => ?_) (by simp [stored, storesAfter, ht])
    have hne : e.frame ≠ f := fun hef => by
      rw [← hf] at hef
      rw [(cached_iff _ _).2 ⟨key, e, he, hef⟩] at hnc
      cases hnc
    exact Function.update_of_ne hne _ _
  · obtain ⟨hat, hmod⟩ := sharedTarget_iff hk.leaf.areas h.areas hs haddr ht
    obtain ⟨e, he, hef⟩ := h.seat a s _ l v _ hs hl hat
    obtain ⟨e', he', hde⟩ := hdirty v pos ht
    cases he.symm.trans he'
    have hdata := dataOk_stored hd he hde hk.leaf.keys b
    rw [hef, hf, hmod] at hdata
    simp only [stored, storesAfter, ht]
    exact hdata

end Stores

/-! ## Runs -/

/-- write() stays below the cap of a file and away from cached pages, also over the gap it leaves behind the old end -/
def WriteClear (k : Kernel) (v offset : ℕ) (buf : List UInt8) : Prop :=
  offset + buf.length ≤ maxFileSize ∧ ∀ pos, pos < offset + buf.length → min (k.vnodes v).size offset ≤ pos →
    k.cache.find (v, pageBase pos) = none

instance (k : Kernel) (v offset : ℕ) (buf : List UInt8) : Decidable (WriteClear k v offset buf) := by
  unfold WriteClear; infer_instance

/-- what an operation must not do: beside `StepOk`, room for the page of a fault, stores to dirty pages, and write() to
uncached ones -/
def CoherentOk (k : Kernel) : Op → Prop
  | .load a addr => StepOk k (.load a addr) ∧ CacheFits k a addr
  | .store a addr b => StepOk k (.store a addr b) ∧ CacheFits k a addr ∧ StoreDirty k a addr
  | .write v offset buf => WriteClear k v offset buf
  | op => StepOk k op

instance (k : Kernel) (op : Op) : Decidable (CoherentOk k op) := by
  induction op using Op.casesOn <;> unfold CoherentOk <;> infer_instance

theorem stepOk_of_coherentOk (h : CoherentOk k op) : StepOk k op := by
  cases op with
  | load a addr | store a addr b => exact h.1
  | write v offset buf => trivial
  | _ => exact h

structure Coherent (k : Kernel) : Prop where
  shape : Shape k
  good : Good k
  leaves : Leaves resolved k
  seat : SeatOk k
  data : DataOk k

theorem dataOk_loadImage {img : Image} (hk : Good k) (hlive : k.liveCount ≤ maxProcesses) (h : DataOk k)
    (hl : loadImage k img = some (k', c)) : DataOk k' := by
  obtain ⟨f, frames, k2, hf, rfl, hfold, hsh⟩ := loadImage_inv hl
  have h0 : Good (addSpace k frames (emptySpace f (List.replicate maxVmas none) mmapBase)) :=
    good_addSpace hk hlive hf (coreOk_new _ _)
  have hend := foldlM_inv (fun _ j =>
      Loading (addSpace k frames (emptySpace f (List.replicate maxVmas none) mmapBase)) k.spaces.length j ∧ Good j ∧
      DataOk j)
    (fun x rem j j' hI hx => ?_)
    ⟨loading_start k f frames, h0, h.same rfl rfl rfl rfl⟩ hfold
  · obtain ⟨s, g, frames', -, -, rfl⟩ := allocShared_spec hsh
    exact hend.2.2.same rfl rfl rfl rfl
  · obtain ⟨hld, hgood, hdata⟩ := hI
    obtain ⟨g, frames', hg, hm⟩ := mapFresh_inv hx
    have he := mapPage_edited hm
    exact ⟨loading_place hld hx, good_place hld hgood hx,
      hdata.fresh hgood.sound hg he.cache he.vnodes he.mem he.stores⟩

theorem dataOk_dropRef (h : DataOk k) (hd : dropRef k a = some k') : DataOk k' := by
  obtain ⟨s, -, ⟨-, own, -, rfl⟩ | ⟨-, rfl⟩⟩ := dropRef_cases hd <;>
    exact h.same rfl rfl rfl rfl

theorem dataOk_munmap {len : ℕ} (hk : AreasInv k) (h : DataOk k) (hm : munmap k a addr len = some (k', b)) :
    DataOk k' := by
  obtain ⟨s, hs, rfl | ⟨slot, vma, hmm⟩⟩ := munmap_spec hk hm
  · exact h
  have hwb : DataOk (afterWriteback k vma) := by
    unfold afterWriteback
    split
    · exact dataOk_writeback h _
    · exact h
  obtain ⟨-, hmem, -, -, hst, -⟩ := frames_afterWriteback k vma
  exact dataOk_congr hwb hmm.cache (by rw [hmm.vnodes]; exact sameFiles_afterDecRef _ _)
    (fun _ _ _ => by rw [hmm.mem, hmem]) (hmm.stores.trans hst.symm)

/-- **Every operation within `CoherentOk` keeps the seats and the data.** -/
theorem step_seats (hk : Coherent k) (hok : CoherentOk k op) (h : step k op = some k') : SeatOk k' ∧ DataOk k' := by
  have hareas := hk.shape.areas
  cases step_cases hareas h with
  | create hl hp =>
    exact ⟨seatOk_congr (seatOk_loadImage hk.seat hl) rfl rfl,
      (dataOk_loadImage hk.good hk.shape.live hk.data hl).same rfl rfl rfl rfl⟩
  | fork hf hp =>
    obtain ⟨s0, -, hfk⟩ := forkCow_spec hf
    exact ⟨seatOk_congr (seatOk_forkCow hk.seat hf) rfl rfl,
      hk.data.same hfk.cache hfk.vnodes hfk.mem hfk.stores⟩
  | @clone a s hs hp =>
    have hset : SeatOk (k.setSpace a { s with refcount := s.refcount + 1 }) := seatOk_setSpace hk.seat hs rfl
      (fun _ _ _ _ _ => Iff.rfl) fun vma v fo shared hm hb => hk.seat.areas a s vma v fo shared hs hm hb
    exact ⟨seatOk_congr hset rfl rfl, hk.data.same rfl rfl rfl rfl⟩
  | execve hs hl hd =>
    exact ⟨seatOk_dropRef (seatOk_loadImage hk.seat hl) (dropPlain_loaded (loadImage_spec hl) hs hok) hd,
      dataOk_dropRef (dataOk_loadImage hk.good hk.shape.live hk.data hl) hd⟩
  | exit hd =>
    exact ⟨seatOk_congr (seatOk_dropRef hk.seat hok hd) rfl rfl,
      (dataOk_dropRef hk.data hd).same rfl rfl rfl rfl⟩
  | @mmap a length prot req _ r hm =>
    refine ⟨seatOk_sysMmap hareas hk.seat hok hm, ?_⟩
    obtain ⟨s, hs, ⟨-, rfl⟩ | ⟨-, v, rfl⟩ | ⟨len, m, -, -, -, rfl⟩⟩ := sysMmap_cases hm
    · exact hk.data
    · exact dataOk_congr hk.data rfl ((sameFiles_incRef k v).trans (sameFiles_decRef _ v)) (fun _ _ _ => rfl) rfl
    · have heq := afterIncRef_eq k req
      have hv := sameFiles_afterIncRef k req
      refine dataOk_congr hk.data ?_ hv (fun _ _ _ => ?_) ?_
      · change (afterIncRef k req).cache = _
        rw [heq]
      · change (afterIncRef k req).mem _ = _
        rw [heq]
      · change (afterIncRef k req).stores = _
        rw [heq]
  | munmap hm => exact ⟨seatOk_munmap hareas hk.seat hk.data hm, dataOk_munmap hareas hk.data hm⟩
  | munmapRefused | writeFailed => exact ⟨hk.seat, hk.data⟩
  | load haddr ha => exact coherent_access hk.good hk.seat hk.data haddr hok.1 hok.2 ha
  | storeKilled haddr ha => exact coherent_access hk.good hk.seat hk.data haddr hok.1 hok.2.1 ha
  | @store a addr b k1 f s haddr ha hs =>
    obtain ⟨h1, hd1⟩ := coherent_access hk.good hk.seat hk.data haddr hok.1 hok.2.1 ha
    obtain ⟨s1, l, hs1, hl, hlf, hwr⟩ := access_leaf ha
    cases hs.symm.trans hs1
    exact coherent_stored b (good_access hk.good haddr hok.1 ha) h1 hd1
      (leaves_access hareas hk.leaves (accessRules_resolved k a addr true) ha) haddr hs hl hlf (hwr rfl)
      fun v pos => store_dirty hk.good hk.seat hk.data haddr hok.2.1 hok.2.2 ha hs
  | @write v offset buf st hlen hw =>
    obtain rfl := vnodeWrite_eq hw
    exact ⟨seatOk_congr hk.seat rfl rfl, dataOk_write hk.data hok.1 fun pos h1 h2 => hok.2 pos h2 h1⟩

theorem step_coherent (hk : Coherent k) (hok : CoherentOk k op) (h : step k op = some k') :
    Coherent k' where
  shape := step_shape hk.shape h
  good := step_good hk.shape hk.good (stepOk_of_coherentOk hok) h
  leaves := step_resolved hk.shape hk.leaves h
  seat := (step_seats hk hok h).1
  data := (step_seats hk hok h).2

theorem coherent_new (answers : List Pfn) {vnodes : ℕ → VNode} (hcap : ∀ v, (vnodes v).size ≤ maxFileSize) :
    Coherent (Kernel.new answers vnodes) := by
  exact ⟨shape_new _ _, good_new _ _, leaves_new _ _ _, ⟨nofun, nofun, nofun⟩, ⟨nofun, hcap, nofun, nofun, nofun, nofun⟩⟩

theorem run_coherent {answers : List Pfn} {vnodes : ℕ → VNode} {ops : List Op} (hcap : ∀ v, (vnodes v).size ≤ maxFileSize)
    (hok : Meets step CoherentOk (Kernel.new answers vnodes) ops) (h : run (Kernel.new answers vnodes) ops = some k) :
    Coherent k :=
  run_inv Coherent (fun _ _ _ hI hC hs => step_coherent hI hC hs) (coherent_new answers hcap) hok h

/-- a load at an address of a MAP_SHARED area returns the last store through any mapping -/
theorem coherent_load {b : UInt8} {r : Option UInt8} (hk : Coherent k) (hs : k.space a = some s)
    (ht : sharedTarget s addr = some (v, pos)) (hb : lastMapped k.stores v pos = some b)
    (hload : load k a addr = some (k', r)) : r = some b := by
  have hareas := hk.shape.areas
  obtain ⟨haddr, x, ha, rfl⟩ := load_inv hareas hload
  obtain ⟨hat, hmod⟩ := sharedTarget_iff hareas hk.seat.areas hs haddr ht
  obtain ⟨hlast, hcached⟩ := hk.data.mappedLast v pos b hb
  obtain ⟨vma, fo, hv, hback, hoff⟩ := id hat
  rw [pageAddr_pageOf haddr] at hv hoff
  replace hoff : pageBase pos = fileOff vma fo addr := hoff
  -- the page is cached, so the fault needs no room
  have hcfits : CacheFits k a addr := by
    unfold CacheFits
    rcases hl : s.leaf (pageOf addr) with _ | l
    · have hfp : faultPage k a addr = some (v, pageBase pos) := by simp [faultPage, hs, hl, hv, hback, hoff]
      rw [hfp, all_some, isSome_iff_ne_none.2 hcached, Bool.true_or]
    · simp [faultPage, hs, hl]
  have hfits : FaultFits k a addr := by
    unfold FaultFits
    rcases hl : s.leaf (pageOf addr) with _ | l
    · simp [privateFrame, hs, hl, hv, hback]
    · simp [privateFrame, hs, hl]
  obtain ⟨h1, hd1⟩ := coherent_access hk.good hk.seat hk.data haddr hfits hcfits ha
  obtain ⟨-, -, -, -, hst, -⟩ := access_frame ha
  cases x with
  | some f =>
    obtain ⟨s', l, hs', hl, rfl, -⟩ := access_leaf ha
    have hat' := (sharedAt_congr (access_vmas ha hs hs')).2 hat
    obtain ⟨e, he, hef⟩ := h1.seat a s' _ l v _ hs' hl hat'
    have hbyte := hd1.cachedLast v pos e b he (by rw [hst]; exact hlast)
    rw [hef, hmod] at hbyte
    exact congrArg some hbyte
  | none =>
    -- only a not-present fault that finds no page can fail
    cases ha with
    | present hp | page _ _ _ hp =>
      cases hp with
      | kill _ _ hw _ => simp at hw
    | noPage hs1 hn hf =>
      cases hs.symm.trans hs1
      cases hf with
      | noArea hv' => cases hv.symm.trans hv'
      | failed hv' hb' hg =>
        cases hv.symm.trans hv'
        cases hback.symm.trans hb'
        have hfill := filled hk.good.sound hk.data (fileOff_aligned hareas hk.seat.areas hs hv hback)
          (hcfits.room hs hn hv hback) hg
        exact absurd (by rw [hoff]; exact (hfill.failed rfl).1) hcached

/-- no address space has a MAP_SHARED area of the file -/
def MapsNowhere (k : Kernel) (v : ℕ) : Prop :=
  ∀ a s vma fo, k.space a = some s → some vma ∈ s.vmas → vma.backing ≠ .file v fo true

/-- `MapsNowhere`, decided by the areas -/
def mapsNowhere (k : Kernel) (v : ℕ) : Bool :=
  k.spaces.all fun o => o.all fun s => s.vmas.all fun x => x.all fun vma => match vma.backing with
    | .file w _ true => decide (w ≠ v)
    | _ => true

theorem mapsNowhere_of_check (h : mapsNowhere k v = true) : MapsNowhere k v := by
  intro a s vma fo hs hm hb
  unfold mapsNowhere at h
  rw [List.all_eq_true] at h
  have h1 := h _ (mem_of_getElem? (space_eq_some hs))
  rw [all_some, List.all_eq_true] at h1
  have h2 := h1 _ hm
  rw [all_some, hb] at h2
  simp at h2

theorem coherent_file {b : UInt8} (hk : Coherent k) (hno : MapsNowhere k v) (hpos : pos < (k.vnodes v).size)
    (hb : lastStored k.stores v pos = some b) : (k.vnodes v).byteAt pos = b := by
  rcases he : k.cache.find (v, pageBase pos) with _ | e
  · exact (hk.data.fileLast v pos b he hb).2
  · have hclean : e.dirty = false := by
      by_contra hd
      obtain ⟨a, s, hs, p, l, off, -, vma, fo, hv, hback, -⟩ := hk.seat.dirty _ e he (by simpa using hd)
      exact hno a s vma fo hs (findVma_mem hv).1 hback
    rw [hk.data.clean v pos e he hclean hpos]
    exact hk.data.cachedLast v pos e b he hb

/-- **MAP_SHARED coherence.** In every state of every run within `CoherentOk`, from files of at most 1 MiB: a load at an
address of a MAP_SHARED area returns the last byte stored there through any mapping of the file; and a file with no
MAP_SHARED area left holds, at every position below its size, the last byte stored by a mapping or by write(). -/
theorem shared_coherent (answers : List Pfn) (vnodes : ℕ → VNode) (hcap : ∀ v, (vnodes v).size ≤ maxFileSize)
    (ops : List Op) (k : Kernel) (hok : Meets step CoherentOk (Kernel.new answers vnodes) ops)
    (h : run (Kernel.new answers vnodes) ops = some k) :
    (∀ a s addr v pos b k' r, k.space a = some s → sharedTarget s addr = some (v, pos) →
      lastMapped k.stores v pos = some b → load k a addr = some (k', r) → r = some b) ∧
    ∀ v, MapsNowhere k v → ∀ pos b, pos < (k.vnodes v).size → lastStored k.stores v pos = some b →
      (k.vnodes v).byteAt pos = b := by
  have hk := run_coherent hcap hok h
  exact ⟨fun a s addr v pos b k' r hs ht hb hl => coherent_load hk hs ht hb hl,
    fun v hno pos b hpos hb => coherent_file hk hno hpos hb⟩

/-- a kernel with frames 1, 2, ..., 200 free; every vnode is a regular file of one zero page -/
def zeroKernel : Kernel := Kernel.new (framesFrom 1 1 200) fun _ => ⟨.regular, 4096, [zeroPage], 1, 0⟩

/-- a write() to a file, MAP_SHARED mappings of it by two processes, and a store of 7 to its first byte by one of them -/
def shareOps : List Op := [.write directMapBase 0 [5, 6], .create bareImage,
  .mmap 0 4096 ⟨true, false⟩ (.file directMapBase 0 true true), .create bareImage,
  .mmap 1 4096 ⟨true, false⟩ (.file directMapBase 0 true true), .store 0 mmapBase 7]

/-- the same, and both mappings are removed -/
def shareUnmapOps : List Op := shareOps ++ [.munmap 0 mmapBase 4096, .munmap 1 mmapBase 4096]

/-- the other process loads the byte, and the file holds it in the end -/
theorem shared_coherent_share :
    (∃ k k', run zeroKernel shareOps = some k ∧ load k 1 mmapBase = some (k', some 7)) ∧
    ∃ k, run zeroKernel shareUnmapOps = some k ∧ (k.vnodes directMapBase).byteAt 0 = 7 ∧
      (k.vnodes directMapBase).byteAt 1 = 6 := by
  have hcap : ∀ v : ℕ, ((fun _ => ⟨.regular, 4096, [zeroPage], 1, 0⟩ : ℕ → VNode) v).size ≤ maxFileSize := fun _ =>
    show 4096 ≤ maxFileSize by decide
  refine ⟨?_, ?_⟩
  · have hmeets : Meets step CoherentOk zeroKernel shareOps := by decide +kernel
    obtain ⟨k, hk, ⟨s, hs, ht⟩, hlast, ⟨k', r⟩, hload, -⟩ : ∃ k, run zeroKernel shareOps = some k ∧
        (∃ s, k.space 1 = some s ∧ sharedTarget s mmapBase = some (directMapBase, 0)) ∧
        lastMapped k.stores directMapBase 0 = some 7 ∧ ∃ x, load k 1 mmapBase = some x ∧ True := by decide +kernel
    have hr := (shared_coherent _ _ hcap shareOps k hmeets hk).1 1 s mmapBase directMapBase 0 7 k' r hs ht hlast hload
    exact ⟨k, k', hk, by rw [hload, hr]⟩
  · have hmeets : Meets step CoherentOk zeroKernel shareUnmapOps := by decide +kernel
    refine exists_of_check (fun k => mapsNowhere k directMapBase = true ∧ 1 < (k.vnodes directMapBase).size ∧
      lastStored k.stores directMapBase 0 = some 7 ∧ lastStored k.stores directMapBase 1 = some 6) (by decide +kernel)
      fun k hk ⟨hno, hsize, h0, h1⟩ => ?_
    have hfile := (shared_coherent _ _ hcap shareUnmapOps k hmeets hk).2 directMapBase (mapsNowhere_of_check hno)
    exact ⟨hfile 0 7 (by omega) h0, hfile 1 6 hsize h1⟩

/-- a store of 7 to the first byte of a file through a mapping, a write() of 9 to it, and the munmap -/
def staleOps : List Op := [.create bareImage, .mmap 0 4096 ⟨true, false⟩ (.file directMapBase 0 true true),
  .store 0 mmapBase 7, .write directMapBase 0 [9], .munmap 0 mmapBase 4096]

/-- **A stale byte**: 9 was stored last, nobody maps the file any more, and the file holds 7. -/
theorem shared_stale :
    ∃ k, run zeroKernel staleOps = some k ∧ MapsNowhere k directMapBase ∧ 0 < (k.vnodes directMapBase).size ∧
      lastStored k.stores directMapBase 0 = some 9 ∧ (k.vnodes directMapBase).byteAt 0 = 7 :=
  exists_of_check (fun k => mapsNowhere k directMapBase = true ∧ 0 < (k.vnodes directMapBase).size ∧
      lastStored k.stores directMapBase 0 = some 9 ∧ (k.vnodes directMapBase).byteAt 0 = 7) (by decide +kernel)
    fun _ _ h => ⟨mapsNowhere_of_check h.1, h.2⟩

end Rumicos.Proc
