/-
What the page-table operations change, and what they leave alone.

- `Edited k a p x o k'`: k' is k with the leaf of page p of address space a replaced by x (and perhaps new table pages):
  every other leaf, every area and every shared table is as before. `setLeaf_edited`, `mapPage_edited`.
- `AddressSpace.core`, `Kernel.cores`: the part of the address spaces that page-table edits leave alone (`Edited.cores`).
- `sound_mapFresh`: mapping a fresh frame over nothing or over an exclusive page.
-/
import Rumicos.Lib.Run
import Rumicos.Proc.Accounts

namespace Rumicos.Proc

open Paging Memory Lib Fs List Option AddressSpace

/-! ## Edits of one leaf -/

/-- an address space with one leaf replaced -/
structure SpaceEdited (s : AddressSpace) (p : UPage) (x : Option Leaf) (o : Option Origin) (s' : AddressSpace) :
    Prop where
  leaf : ∀ q, s'.leaf q = if q = p then x else s.leaf q
  vmas : s'.vmas = s.vmas
  mmapNext : s'.mmapNext = s.mmapNext
  refcount : s'.refcount = s.refcount
  ownFrame : s'.ownFrame = s.ownFrame
  origin : s'.origin = Function.update s.origin p o

/-- the kernel state with one leaf replaced -/
structure Edited (k : Kernel) (a : ℕ) (p : UPage) (x : Option Leaf) (o : Option Origin) (k' : Kernel) : Prop where
  spaces : ∃ s s', k.space a = some s ∧ k'.spaces = k.spaces.set a (some s') ∧ SpaceEdited s p x o s'
  mem : k'.mem = k.mem
  cache : k'.cache = k.cache
  vnodes : k'.vnodes = k.vnodes
  orphans : k'.orphans = k.orphans
  cow : k'.cow = k.cow
  procs : k'.procs = k.procs
  stores : k'.stores = k.stores
  freed : k'.frames.freed = k.frames.freed
  badFree : k'.frames.badFree = k.frames.badFree

variable {k k' : Kernel} {a : ℕ} {p : UPage} {x : Option Leaf} {o : Option Origin} {s : AddressSpace} {flags : PageFlags}

theorem Edited.space (h : Edited k a p x o k') : ∃ s s', k.space a = some s ∧ k'.space a = some s' ∧
    SpaceEdited s p x o s' := by
  obtain ⟨s, s', hs, hsp, hed⟩ := h.spaces
  refine ⟨s, s', hs, ?_, hed⟩
  have := space_setSpace_self hs s'
  simpa only [Kernel.space, Kernel.setSpace, ← hsp] using this

theorem Edited.others (h : Edited k a p x o k') (b : ℕ) (hb : b ≠ a) : k'.space b = k.space b := by
  obtain ⟨s, s', -, hsp, -⟩ := h.spaces
  have := space_setSpace_ne k hb s'
  simpa only [Kernel.space, Kernel.setSpace, ← hsp] using this

theorem Edited.total (h : Edited k a p x o k') (g : AddressSpace → ℕ) (hg : ∀ s s', SpaceEdited s p x o s' → g s' = g s) :
    k'.total g = k.total g := by
  obtain ⟨s, s', hs, hsp, hed⟩ := h.spaces
  have h1 := total_setSpace hs s' g
  have h2 : (k.setSpace a s').total g = k'.total g := by simp [Kernel.total, Kernel.setSpace, hsp]
  rw [hg s s' hed] at h1
  omega

theorem edited_of_hasPath (h : setLeaf k a p x o = some k') (hp : Slot.hasPath (some s.pml4) p = true)
    (hs : k.space a = some s) : Edited k a p x o k' := by
  obtain ⟨s1, pml4, hs1, hw, rfl⟩ := setLeaf_spec h
  rw [hs] at hs1
  cases hs1
  refine ⟨⟨s, _, hs, rfl, ⟨fun q => ?_, rfl, rfl, rfl, rfl, rfl⟩⟩, rfl, rfl, rfl, rfl, rfl, rfl, rfl, rfl, rfl⟩
  have := Slot.lookup_write (some s.pml4) p q x hp
  rw [hw] at this
  exact this

theorem setLeaf_edited {l : Leaf} (h : setLeaf k a p x o = some k') (hl : s.leaf p = some l) (hs : k.space a = some s) :
    Edited k a p x o k' :=
  edited_of_hasPath h (hasPath_of_leaf hl) hs

theorem allocs_freed {fr fr' : Frames} {fs : List Pfn} (h : Slot.Allocs allocFrame fr fs fr') :
    fr'.freed = fr.freed ∧ fr'.badFree = fr.badFree := by
  induction h with
  | nil st => exact ⟨rfl, rfl⟩
  | cons hf _ ih =>
    obtain ⟨-, -, h1, h2, -⟩ := allocFrame_spec hf
    exact ⟨ih.1.trans h1, ih.2.trans h2⟩

theorem mapPage_edited {phys : Pfn} (h : mapPage k a p phys flags o = some k') :
    Edited k a p (leafOf (.newPage phys flags)) o k' := by
  simp only [mapPage, bind_eq_bind, bind_eq_some_iff] at h
  obtain ⟨k1, h1, h2⟩ := h
  obtain ⟨s, fs, pml4, frames, hs, hfs, rfl, -, -, hlook, hpath⟩ := ensureTables_spec h1
  have hs' : ({ k with frames := frames } : Kernel).space a = some s := hs
  have hs1 := space_setSpace_self hs' { s with pml4 := pml4 }
  have he := edited_of_hasPath h2 hpath hs1
  obtain ⟨⟨s2, s3, hs2, hs3, hed⟩, h3, h4, h5, h6, h7, h8, h9, h10, h11⟩ := he
  rw [hs1] at hs2
  cases hs2
  refine ⟨⟨s, s3, hs, ?_, ⟨fun q => ?_, hed.vmas, hed.mmapNext, hed.refcount, hed.ownFrame, hed.origin⟩⟩,
    h3, h4, h5, h6, h7, h8, h9, h10.trans (allocs_freed hfs).1, h11.trans (allocs_freed hfs).2⟩
  · rw [hs3]
    simp [Kernel.setSpace]
  · rw [hed.leaf q]
    simp [leaf, hlook]

/-- **Mapping a page keeps every account right** if the accounts with the new leaf in place of the old are right -/
theorem sound_mapPage {phys : Pfn} (hs : k.space a = some s) (h : mapPage k a p phys flags o = some k')
    (hok : ∀ g, (adjust (k.account g) (s.kindAt p (s.leaf p) g) (s.kindAt p (leafOf (.newPage phys flags)) g)).Ok) :
    Sound k' := by
  simp only [mapPage, bind_eq_bind, bind_eq_some_iff] at h
  obtain ⟨k1, h1, h2⟩ := h
  obtain ⟨fs, hfs, hacc⟩ := account_ensureTables h1
  obtain ⟨s1, -, pml4, frames, hs1, -, hk1, -, -, hlook, hpath⟩ := ensureTables_spec h1
  rw [hs] at hs1
  cases hs1
  have hsp : k1.space a = some { s with pml4 := pml4 } := by
    rw [hk1]; exact space_setSpace_self (k := { k with frames := frames }) hs _
  intro g
  have hset := account_setLeaf hsp h2 hpath g
  have hleaf : ({ s with pml4 := pml4 } : AddressSpace).leaf p = s.leaf p := hlook p
  have hkind : ∀ x, ({ s with pml4 := pml4 } : AddressSpace).kindAt p x g = s.kindAt p x g := fun x => rfl
  rw [hset, hacc g, hleaf]
  exact (ok_allocs hfs (fun g => adjust (k.account g) (s.kindAt p (s.leaf p) g)
    (s.kindAt p (leafOf (.newPage phys flags)) g)) (fun _ => rfl) hok).1 g

/-! ## What page-table edits leave alone -/

/-- areas, cursor, reference count and own frame -/
structure Core where
  vmas : List (Option Vma)
  mmapNext : ℕ
  refcount : ℕ
  ownFrame : Option Pfn

def AddressSpace.core (s : AddressSpace) : Core := ⟨s.vmas, s.mmapNext, s.refcount, s.ownFrame⟩

def Kernel.cores (k : Kernel) : List (Option Core) := k.spaces.map (Option.map AddressSpace.core)

theorem cores_getElem? (k : Kernel) (b : ℕ) : (k.cores[b]?).join = (k.space b).map AddressSpace.core := by
  simp only [Kernel.cores, Kernel.space, getElem?_map]
  rcases k.spaces[b]? with _ | _ | s <;> rfl

theorem space_core (h : k'.cores = k.cores) (b : ℕ) :
    (k'.space b).map AddressSpace.core = (k.space b).map AddressSpace.core := by
  rw [← cores_getElem?, ← cores_getElem?, h]

theorem total_cores (k : Kernel) (g : Core → ℕ) :
    k.total (fun s => g s.core) = (k.cores.map fun o => o.elim 0 g).sum := by
  simp only [Kernel.total, Kernel.cores, List.map_map]
  congr 1
  apply map_congr_left
  intro o _
  rcases o with _ | s <;> rfl

theorem cores_set {s' : AddressSpace} (hs : k.space a = some s) (hc : s'.core = s.core) :
    (k.spaces.set a (some s')).map (Option.map AddressSpace.core) = k.cores := by
  have hget : k.cores[a]? = some (some s.core) := by rw [Kernel.cores, getElem?_map, space_eq_some hs]; rfl
  obtain ⟨hlt, hval⟩ := List.getElem?_eq_some_iff.1 hget
  rw [map_set, map_some, hc, ← hval]
  exact set_getElem_self hlt

theorem SpaceEdited.core {s' : AddressSpace} (h : SpaceEdited s p x o s') : s'.core = s.core := by
  simp [AddressSpace.core, h.vmas, h.mmapNext, h.refcount, h.ownFrame]

theorem Edited.cores (h : Edited k a p x o k') : k'.cores = k.cores := by
  obtain ⟨s, s', hs, hsp, hed⟩ := h.spaces
  rw [Kernel.cores, hsp]
  exact cores_set hs hed.core

/-! ## Users and leaves -/

theorem users_pos {l : Leaf} (hs : k.space a = some s) (hl : s.leaf p = some l) : 0 < k.users (s.kindOf p l) l.frame := by
  refine lt_of_lt_of_le ?_ (le_total hs fun s => s.users _ _)
  rw [users, countP_pos_iff]
  exact ⟨(p, l), (Slot.mem_leaves _ _ _).2 hl, by simp [uses]⟩

theorem leaf_ne_of_unused {g : Pfn} (hg : (k.account g).Unused) {l : Leaf} (hs : k.space a = some s)
    (hl : s.leaf p = some l) : l.frame ≠ g := by
  rintro rfl
  have hpos := users_pos hs hl
  obtain ⟨h1, h2, h3, -⟩ := hg
  simp only [Kernel.account] at h1 h2 h3
  cases hk : s.kindOf p l <;> rw [hk] at hpos <;> omega

theorem leafOf_newPage (f : Pfn) (h : flags.has bitPresent = true) :
    ∃ l, leafOf (.newPage f flags) = some l ∧ l.frame = f ∧ l.isCow = flags.has bitCow ∧
      l.isWritable = flags.has bitWritable ∧ l.entry = .newPage f flags := by
  have hp : (PageTableEntry.newPage f flags).isPresent = true := by simpa using h
  exact ⟨⟨_, hp⟩, by simp [leafOf, hp], by simp [Leaf.frame], by simp [Leaf.isCow], by simp [Leaf.isWritable], rfl⟩

/-! ## Mapping a fresh frame -/

theorem mapFresh_inv {page : Page} {o : Origin} (h : mapFresh k a p page flags o = some k') :
    ∃ f frames, allocFrame k.frames = some (f, frames) ∧
      mapPage { k with frames := frames, mem := Function.update k.mem f page } a p f flags (some o) = some k' := by
  simp only [mapFresh, bind_eq_bind, bind_eq_some_iff] at h
  obtain ⟨⟨f, frames⟩, hf, hm⟩ := h
  exact ⟨f, frames, hf, hm⟩

/-- **A fresh frame over nothing, or over an exclusive page** (whose frame is then lost), keeps every account right -/
theorem sound_mapFresh {page : Page} {o : Origin} (hk : Sound k) (hs : k.space a = some s)
    (h : mapFresh k a p page flags o = some k') (hold : ∀ l, s.leaf p = some l → s.kindOf p l = .own)
    (hpres : flags.has bitPresent = true) (hcow : flags.has bitCow = false) (hsh : s.inShared p = false) : Sound k' := by
  obtain ⟨f, frames, hf, hm⟩ := mapFresh_inv h
  obtain ⟨hk0, hheld, -⟩ := sound_alloc (j := { k with frames := frames, mem := Function.update k.mem f page })
    hf rfl rfl rfl rfl rfl hk
  refine sound_mapPage (k := { k with frames := frames, mem := Function.update k.mem f page }) (s := s) hs hm ?_
  obtain ⟨l, hl, hlf, hlc, -, -⟩ := leafOf_newPage f hpres
  have hkind : s.kindOf p l = .own := by simp [kindOf, hlc, hcow, hsh]
  intro g
  rw [hl]
  by_cases hg : f = g
  · -- the new frame: unused so far, so the old leaf is not on it
    subst hg
    have hnone : s.kindAt p (s.leaf p) f = none := by
      rcases ho : s.leaf p with _ | m
      · rfl
      · exact kindAt_some_ne s p m f (leaf_ne_of_unused hheld.1 (k := { k with frames := frames, mem := _ }) hs ho)
    have hnew : s.kindAt p (some l) f = some .own := by rw [← hlf, kindAt_some_self, hkind]
    rw [hnone, hnew]
    exact Account.ok_addOwn (hk0 f) hheld.1 hheld.2
  · rw [kindAt_some_ne s p l g (by rw [hlf]; exact hg)]
    rcases ho : s.leaf p with _ | m
    exact hk0 g
    · by_cases hmg : m.frame = g
      · subst hmg
        rw [kindAt_some_self, hold m ho]
        exact Account.ok_dropOwn (hk0 m.frame)
      · rw [kindAt_some_ne s p m g hmg]; exact hk0 g

end Rumicos.Proc
