/-
Giving frames and PCIDs back (`crates/memory/src/pcid.rs`, `drop_ref` of `crates/proc/src/address_space.rs`, the buffers of
`crates/proc/src/exec.rs`).

- `freeBlock`: the frames of a block one by one. `freeBlock_spec`: exactly these become free.
- `dropSpace`: a reference to an address space, and its PCID with the last one.
-/
import Rumicos.Proc.Conservation
import Rumicos.Proc.Processes

namespace Rumicos.Proc.ProcessFrames

open Paging Memory Lib Fs List Option
open Proc.Processes (Pcids allocOrder allocOrder_spec blockFrames inBlock mem_blockFrames kstackOrder maxPcid)

/-! ## Definitions -/

/-- `free_frame` for each frame of a block -/
def freeBlock (order : ℕ) (fr : Frames) (f : Pfn) : Frames := (blockFrames order f).foldl freeFrame fr

/-- `PCID_ALLOCATOR.free` of the PCID of address space `a`; id 0 is ignored -/
def freePcid (p : Pcids) (a : ℕ) : Pcids :=
  if p.spaceId a = 0 ∨ maxPcid ≤ p.spaceId a then p else { p with used := Function.update p.used (p.spaceId a) false }

/-- `drop_ref`, with the PCID -/
def dropSpace (k : Kernel) (pcids : Pcids) (a : ℕ) : Option (Kernel × Pcids) := do
  let s ← k.space a
  let k ← dropRef k a
  return (k, if s.refcount = 1 then freePcid pcids a else pcids)

def elfBufOrder : ℕ := 8

/-! ## Blocks of frames -/

theorem foldl_freeFrame (l : List Pfn) (fr : Frames) (g : Pfn) :
    (l.foldl freeFrame fr).allocated g = (fr.allocated g && decide (g ∉ l)) := by
  induction l generalizing fr with
  | nil => simp
  | cons f l ih =>
    rw [foldl_cons, ih]
    by_cases hg : g = f
    · simp [freeFrame, hg]
    · simp [freeFrame, hg]

theorem foldl_freeFrame_badFree (l : List Pfn) (fr : Frames) (hnd : l.Nodup) (hal : ∀ g ∈ l, fr.allocated g = true) :
    (l.foldl freeFrame fr).badFree = fr.badFree := by
  induction l generalizing fr with
  | nil => rfl
  | cons f l ih =>
    obtain ⟨hf, hnd⟩ := nodup_cons.1 hnd
    rw [foldl_cons, ih _ hnd]
    · simp [freeFrame, hal f mem_cons_self]
    · intro g hg
      have hne : g ≠ f := fun h => hf (h ▸ hg)
      exact (Function.update_of_ne hne ..).trans (hal g (mem_cons_of_mem _ hg))

variable {order : ℕ}

theorem nodup_blockFrames (ho : order ≤ 36) (f : Pfn) : (blockFrames order f).Nodup := by
  refine Nodup.map_on (fun i hi j hj h => ?_) nodup_range
  have hle : 2 ^ order ≤ 2 ^ 36 := Nat.pow_le_pow_right (by decide) ho
  have hij := congrArg BitVec.toNat ((BitVec.add_right_inj f).1 h)
  rw [BitVec.toNat_ofNat, BitVec.toNat_ofNat, Nat.mod_eq_of_lt (lt_of_lt_of_le (mem_range.1 hi) hle),
    Nat.mod_eq_of_lt (lt_of_lt_of_le (mem_range.1 hj) hle)] at hij
  exact hij

theorem freeBlock_spec (ho : order ≤ 36) {fr : Frames} {f : Pfn} (hf : f.toNat % 2 ^ order = 0)
    (hal : ∀ g, inBlock order f g = true → fr.allocated g = true) :
    (∀ g, (freeBlock order fr f).allocated g = (fr.allocated g && !inBlock order f g)) ∧
      (freeBlock order fr f).badFree = fr.badFree := by
  refine ⟨fun g => ?_, ?_⟩
  · rw [freeBlock, foldl_freeFrame]
    have hmem : decide (g ∈ blockFrames order f) = inBlock order f g := by
      rw [Bool.eq_iff_iff, decide_eq_true_iff]
      exact mem_blockFrames ho hf
    rw [decide_not, hmem]
  · apply foldl_freeFrame_badFree _ _ (nodup_blockFrames ho f)
    intro g hg
    exact hal g ((mem_blockFrames ho hf).1 hg)

theorem allocOrder_block (ho : order ≤ 36) {fr fr' : Frames} {f : Pfn} (h : allocOrder order fr = some (f, fr')) :
    f.toNat % 2 ^ order = 0 ∧ (∀ g, inBlock order f g = true → fr.allocated g = false) ∧
      (∀ g, fr'.allocated g = (inBlock order f g || fr.allocated g)) ∧ fr'.badFree = fr.badFree := by
  obtain ⟨hf, hfree, hal, _, hbad⟩ := allocOrder_spec h
  exact ⟨hf, fun g hg => hfree g ((mem_blockFrames ho hf).2 hg), hal, hbad⟩

end Rumicos.Proc.ProcessFrames
