/-
The holders of a frame, and what mapping a page does to them.

A frame is held by an address space that maps it, or that has a page table or itself in it.
-/
import Rumicos.Proc.Release

namespace Rumicos.Proc

open Paging Memory Lib Fs List Option AddressSpace

/-! ## Holders -/

/-- the frames of an address space: of its pages, its page tables, and its own -/
def AddressSpace.held (s : AddressSpace) : List Pfn := (Slot.leaves (some s.pml4)).map (fun x => x.2.frame) ++ s.tables

/-- how often the address spaces hold frame `g` -/
def Kernel.heldCount (k : Kernel) (g : Pfn) : ℕ := k.total fun s => s.held.count g

/-- one if the leaf maps `g` -/
def here (x : Option Leaf) (g : Pfn) : ℕ := (x.any fun l => decide (l.frame = g)).toNat

theorem count_held (s : AddressSpace) (g : Pfn) :
    s.held.count g = (Slot.leaves (some s.pml4)).countP (fun x => decide (x.2.frame = g)) + s.tables.count g := by
  rw [held, count_append, count_eq_countP, countP_map]
  rfl

variable {k k' : Kernel} {a : ℕ} {s : AddressSpace} {p : UPage} {x : Option Leaf} {o : Option Origin}

theorem heldCount_setSpace (hs : k.space a = some s) (t : AddressSpace) (g : Pfn) :
    (k.setSpace a t).heldCount g + s.held.count g = k.heldCount g + t.held.count g :=
  total_setSpace hs t fun s => s.held.count g

section

variable (hs : k.space a = some s) (hp : Slot.hasPath (some s.pml4) p = true) (h : setLeaf k a p x o = some k')
include hs hp h

theorem held_setLeaf :
    ∃ s', k' = k.setSpace a s' ∧ ∀ g, s'.held.count g + here (s.leaf p) g = s.held.count g + here x g := by
  obtain ⟨s1, pml4, hs1, hw, rfl⟩ := setLeaf_spec h
  rw [hs] at hs1
  cases hs1
  refine ⟨_, rfl, fun g => ?_⟩
  have hleaves := Slot.countP_leaves_write (some s.pml4) p x (fun y => decide (y.2.frame = g)) hp
  have hlabels := Slot.labels_write (some s.pml4) p x
  rw [hw] at hleaves hlabels
  have htables : ({ s with pml4 := pml4, origin := Function.update s.origin p o } : AddressSpace).tables = s.tables := by
    simp [tables, hlabels]
  rw [count_held, count_held, htables]
  change (Slot.leaves (some pml4)).countP _ + _ + _ = _
  change _ + (here (s.leaf p) g) = _ + here x g at hleaves
  omega

theorem heldCount_setLeaf
    (g : Pfn) : k'.heldCount g + here (s.leaf p) g = k.heldCount g + here x g := by
  obtain ⟨s', rfl, hcount⟩ := held_setLeaf hs hp h
  have htot := heldCount_setSpace hs s' g
  have := hcount g
  omega

end

theorem frames_setLeaf (h : setLeaf k a p x o = some k') : k'.frames = k.frames := by
  obtain ⟨s, pml4, -, -, rfl⟩ := setLeaf_spec h
  rfl

/-! ## Allocation -/

theorem allocs_allocated {fr fr' : Frames} {fs : List Pfn} (h : Slot.Allocs allocFrame fr fs fr') :
    (∀ g, fr'.allocated g = (fr.allocated g || decide (g ∈ fs))) ∧ ∀ g ∈ fs, fr.allocated g = false := by
  induction h with
  | nil st => exact ⟨fun g => by simp, nofun⟩
  | @cons st st1 st2 f fs hf _ ih =>
    obtain ⟨hfree, hal, -, -, -⟩ := allocFrame_spec hf
    obtain ⟨ih1, ih2⟩ := ih
    refine ⟨fun g => ?_, fun g hg => ?_⟩
    · rw [ih1 g, hal]
      by_cases hgf : g = f
      · simp [hgf]
      · simp [hgf]
    · rcases mem_cons.1 hg with rfl | hg
      · exact hfree
      · have hfalse := ih2 g hg
        by_cases hgf : g = f
        · rw [hgf]
          exact hfree
        · rwa [hal, Function.update_of_ne hgf] at hfalse

/-- what mapping a frame at page `p`, where `old` was, does to all frames; `fs` are the new page tables -/
structure Mapped (k : Kernel) (old new : Option Leaf) (k' : Kernel) (fs : List Pfn) : Prop where
  allocated : ∀ g, k'.frames.allocated g = (k.frames.allocated g || decide (g ∈ fs))
  fresh : ∀ g ∈ fs, k.frames.allocated g = false
  held : ∀ g, k'.heldCount g + here old g = k.heldCount g + fs.count g + here new g

theorem mapPage_mapped {f : Pfn} {flags : PageFlags} (hs : k.space a = some s) (h : mapPage k a p f flags o = some k') :
    ∃ fs, Mapped k (s.leaf p) (leafOf (.newPage f flags)) k' fs := by
  obtain ⟨k1, he, h⟩ := bind_eq_some_iff.1 h
  obtain ⟨s', fs, pml4, frames, hs', hfs, rfl, hl, hlv, hlook, hpath⟩ := ensureTables_spec he
  cases hs.symm.trans hs'
  obtain ⟨hal, hfresh⟩ := allocs_allocated hfs
  have hs1 : (({ k with frames := frames } : Kernel).setSpace a { s with pml4 := pml4 }).space a =
      some { s with pml4 := pml4 } := space_setSpace_self (k := { k with frames := frames }) hs _
  have hleaf : ({ s with pml4 := pml4 } : AddressSpace).leaf p = s.leaf p := hlook p
  refine ⟨fs, fun g => ?_, hfresh, fun g => ?_⟩
  · rw [frames_setLeaf h]
    exact hal g
  · have hset := heldCount_setLeaf hs1 hpath h g
    have htot := heldCount_setSpace (k := { k with frames := frames }) hs { s with pml4 := pml4 } g
    have hcount : ({ s with pml4 := pml4 } : AddressSpace).held.count g = s.held.count g + fs.count g := by
      rw [count_held, count_held]
      have h1 := hlv.countP_eq (fun x => decide (x.2.frame = g))
      have h2 : ({ s with pml4 := pml4 } : AddressSpace).tables.count g = fs.count g + s.tables.count g := by
        simp only [tables, count_append, hl.count_eq]
        omega
      change (Slot.leaves (some pml4)).countP _ + _ = _
      omega
    have hk : ({ k with frames := frames } : Kernel).heldCount g = k.heldCount g := rfl
    rw [hleaf] at hset
    omega

end Rumicos.Proc
