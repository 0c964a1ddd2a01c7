/-
The direct map of physical memory, as `map_direct_memory` builds it from the bootloader's memory map
(`crates/paging/src/init.rs`, `table.rs`, `address.rs`).

The tables are a tree of PML4, PDPT and PD nodes; a PD entry is a 2 MiB page or a page table. Frames for tables are
numbered in the order in which they are handed out, and there are always more. Addresses are ℕ with the masks of the
source: `PhysAddr::new` keeps 52 bits, the sum `entry.base + entry.length` is one of 64 bits.

- The `while` loops take fuel. One whose end is 2^52 never ends, since the address it counts is masked.
- `map_page` takes the frame of a present PD entry for a page table, also when the entry is a 2 MiB page. What is then
  overwritten is the page's contents; there the model has no result.
-/
import Rumicos.Lib.Radix
import Rumicos.Paging.Entry

namespace Rumicos.Paging.DirectMap

open Lib

/-! ## The memory map -/

/-- `LimineMemMapEntry` -/
structure MemMapEntry where
  base : ℕ
  length : ℕ
  memType : ℕ
deriving DecidableEq

def memmapUsable : ℕ := 0
def memmapAcpiReclaimable : ℕ := 2
def memmapBootloaderReclaimable : ℕ := 5
def memmapExecutableAndModules : ℕ := 6
def memmapFramebuffer : ℕ := 14

namespace MemMapEntry

/-- the types that `map_direct_memory` does not skip -/
def mappable (e : MemMapEntry) : Bool :=
  e.memType == memmapUsable || e.memType == memmapBootloaderReclaimable || e.memType == memmapAcpiReclaimable ||
    e.memType == memmapExecutableAndModules || e.memType == memmapFramebuffer

def flags (e : MemMapEntry) : PageFlags :=
  if e.memType = memmapFramebuffer then
    PageFlags.new.withPresent.withWritable.withGlobal.withWriteThrough.withNoExecute
  else PageFlags.new.withPresent.withWritable.withGlobal.withNoExecute

/-- byte `p` of physical memory belongs to the entry -/
def Holds (e : MemMapEntry) (p : ℕ) : Prop := e.base ≤ p ∧ p < e.base + e.length

instance (e : MemMapEntry) (p : ℕ) : Decidable (e.Holds p) := by unfold Holds; infer_instance

end MemMapEntry

/-! ## Addresses -/

/-- `PhysAddr::new` -/
def physNew (a : ℕ) : ℕ := a % 2 ^ 52

/-- `align_down_4k`, `align_down_2m`, `align_down_1g` -/
def alignDown (size a : ℕ) : ℕ := a / size * size

/-- `align_up_4k`, `align_up_2m`, `align_up_1g` -/
def alignUp (size a : ℕ) : ℕ := (a + (size - 1)) / size * size

def frameBits (phys : ℕ) : Pfn := BitVec.ofNat 36 (phys / 4096)

def directMapBase : ℕ := 0xffff800000000000

/-- `direct_map_base + phys`, a wrapping sum -/
def virtOf (phys : ℕ) : ℕ := (directMapBase + phys) % 2 ^ 64

/-! ## Tables -/

inductive PdEntry where
  /-- a 2 MiB page -/
  | huge (e : PageTableEntry)
  /-- a page table and its frame -/
  | table (frame : ℕ) (entries : Fin 512 → PageTableEntry)

/-- `pml4_index`, `pdpt_index`, `pd_index` -/
def pdPath (virt : ℕ) : Path [512, 512, 512] :=
  (⟨virt / 2 ^ 39 % 512, Nat.mod_lt _ (by decide)⟩, ⟨virt / 2 ^ 30 % 512, Nat.mod_lt _ (by decide)⟩,
    ⟨virt / 2 ^ 21 % 512, Nat.mod_lt _ (by decide)⟩, ())

def ptIndex (virt : ℕ) : Fin 512 := ⟨virt / 4096 % 512, Nat.mod_lt _ (by decide)⟩

/-- `PageTableBuilder` -/
structure Builder where
  pml4 : Slot ℕ PdEntry [512, 512, 512]
  /-- frames handed out -/
  used : ℕ

def allocFrame (used : ℕ) : Option (ℕ × ℕ) := some (used, used + 1)

namespace Builder

def new : Builder := ⟨some ⟨0, fun _ => none⟩, 1⟩

/-- the PD entry for an address -/
def pdEntry (b : Builder) (virt : ℕ) : Option PdEntry := Slot.lookup b.pml4 (pdPath virt)

def setPdEntry (b : Builder) (virt : ℕ) (e : PdEntry) : Builder :=
  { b with pml4 := Slot.write b.pml4 (pdPath virt) (some e) }

def walkToPd (b : Builder) (virt : ℕ) : Option Builder :=
  (Slot.ensure allocFrame b.pml4 (pdPath virt) b.used).map fun r => ⟨r.1, r.2⟩

def mapPage (b : Builder) (virt phys : ℕ) (flags : PageFlags) : Option Builder :=
  (b.walkToPd virt).bind fun b =>
    let entry := PageTableEntry.newPage (frameBits phys) flags
    match b.pdEntry virt with
    | none =>
      let table := PdEntry.table b.used (Function.update (fun _ => .empty) (ptIndex virt) entry)
      some (setPdEntry { b with used := b.used + 1 } virt table)
    | some (.table frame entries) => some (b.setPdEntry virt (.table frame (Function.update entries (ptIndex virt) entry)))
    | some (.huge _) => none

/-- `map_huge_2m` -/
def mapHuge2m (b : Builder) (virt phys : ℕ) (flags : PageFlags) : Option Builder :=
  (b.walkToPd virt).map fun b => b.setPdEntry virt (.huge (.newPage (frameBits phys) flags.withHugePage))

/-- `PageTableWalker::translate`, with the flags of the entry it ends at -/
def translate (b : Builder) (virt : ℕ) : Option (ℕ × PageFlags) :=
  match b.pdEntry virt with
  | none => none
  | some (.huge e) => if e.isPresent then some (e.frame.toNat * 4096 + virt % 2 ^ 21, e.flags) else none
  | some (.table _ entries) =>
    let e := entries (ptIndex virt)
    if e.isPresent then some (e.frame.toNat * 4096 + virt % 4096, e.flags) else none

end Builder

/-! ## The loops -/

/-- `while phys < stop { body; phys = phys + step }` -/
def whilePhys (step stop : ℕ) (body : Builder → ℕ → Option Builder) : ℕ → ℕ → Builder → Option Builder
  | 0, phys, b => if phys < stop then none else some b
  | fuel + 1, phys, b =>
    if phys < stop then (body b phys).bind (whilePhys step stop body fuel (physNew (phys + step))) else some b

/-- `map_region_4k` -/
def mapRegion4k (fuel start stop : ℕ) (flags : PageFlags) (b : Builder) : Option Builder :=
  whilePhys 4096 (alignUp 4096 stop) (fun b phys => b.mapPage (virtOf phys) phys flags) fuel (alignDown 4096 start) b

/-- `map_huge_page_2m` -/
def mapHugePage2m (flags : PageFlags) (b : Builder) (phys : ℕ) : Option Builder := b.mapHuge2m (virtOf phys) phys flags

/-- `map_huge_page_1g`, which falls back to one 2 MiB page -/
def mapHugePage1g (flags : PageFlags) (b : Builder) (phys : ℕ) : Option Builder := mapHugePage2m flags b phys

/-- `map_region_2m` -/
def mapRegion2m (fuel start stop : ℕ) (flags : PageFlags) (b : Builder) : Option Builder :=
  let alignedStart := alignUp (2 ^ 21) start
  let alignedEnd := alignDown (2 ^ 21) stop
  (if alignedStart < alignedEnd then
    whilePhys (2 ^ 21) alignedEnd (mapHugePage2m flags) fuel alignedStart b else some b).bind fun b =>
  (if start < alignedStart then mapRegion4k fuel start alignedStart flags b else some b).bind fun b =>
  if alignedEnd < stop then mapRegion4k fuel alignedEnd stop flags b else some b

/-- one round of `map_direct_memory` for an entry that is not skipped -/
def mapEntry (fuel : ℕ) (b : Builder) (e : MemMapEntry) : Option Builder :=
  let start := physNew e.base
  let stop := physNew ((e.base + e.length) % 2 ^ 64)
  let alignedStart := alignUp (2 ^ 30) start
  let alignedEnd := alignDown (2 ^ 30) stop
  if alignedStart < alignedEnd then
    (whilePhys (2 ^ 30) alignedEnd (mapHugePage1g e.flags) fuel alignedStart b).bind fun b =>
    (if start < alignedStart then mapRegion2m fuel start alignedStart e.flags b else some b).bind fun b =>
    if alignedEnd < stop then mapRegion2m fuel alignedEnd stop e.flags b else some b
  else mapRegion2m fuel start stop e.flags b

def mapDirectMemory (fuel : ℕ) (memmap : List MemMapEntry) (b : Builder) : Option Builder :=
  (memmap.filter (·.mappable)).foldlM (mapEntry fuel) b

end Rumicos.Paging.DirectMap
