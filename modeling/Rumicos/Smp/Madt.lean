/-
The ACPI table of processors and interrupt controllers (`parse_madt` of `crates/smp/src/acpi.rs`, `IoApicList` and
`IsoList` of `crates/apic/src/ioapic.rs`).

A table is the bytes of its declared length. A read outside it has no result, and neither has a walk that does not end.
-/
import Mathlib.Tactic
import Rumicos.Lib.Bytes

namespace Rumicos.Smp

open Lib List Option

def maxCpus : ℕ := 64

def maxIoapics : ℕ := 8

def maxIsos : ℕ := 16

structure CpuEntry where
  acpiUid : ℕ
  apicId : ℕ
  isBsp : Bool
deriving DecidableEq

structure IoApicInfo where
  id : ℕ
  physAddr : ℕ
  gsiBase : ℕ
deriving DecidableEq

structure IsoInfo where
  isaIrq : ℕ
  gsi : ℕ
  flags : ℕ
deriving DecidableEq

/-- what an entry holds -/
inductive Entry where
  | cpu (info : CpuEntry)
  | ioapic (info : IoApicInfo)
  | iso (info : IsoInfo)
  | other
deriving DecidableEq

/-! ## Entries -/

/-- the value of `len` bytes, little-endian -/
def read (e : List UInt8) (off len : ℕ) : Option ℕ := (Mem.load (fun i => e[i]?) off len).map leValue

/-- enabled, or online capable -/
def cpuFlagsUsable (flags : ℕ) : Bool := flags &&& 3 != 0

def parseLapicEntry (e : List UInt8) : Option Entry := do
  let flags ← read e 4 4
  if cpuFlagsUsable flags then some (.cpu ⟨← read e 2 1, ← read e 3 1, false⟩) else some .other

def parseX2apicEntry (e : List UInt8) : Option Entry := do
  let flags ← read e 8 4
  if cpuFlagsUsable flags then some (.cpu ⟨← read e 12 4, ← read e 4 4, false⟩) else some .other

def parseIoapicEntry (e : List UInt8) : Option Entry := do
  some (.ioapic ⟨← read e 2 1, ← read e 4 4, ← read e 8 4⟩)

def parseIsoEntry (e : List UInt8) : Option Entry := do
  some (.iso ⟨← read e 3 1, ← read e 4 4, ← read e 8 2⟩)

/-- by its type and length -/
def parseEntry (e : List UInt8) (typ len : ℕ) : Option Entry :=
  if typ = 0 ∧ 8 ≤ len then parseLapicEntry e
  else if typ = 9 ∧ 16 ≤ len then parseX2apicEntry e
  else if typ = 1 ∧ 12 ≤ len then parseIoapicEntry e
  else if typ = 2 ∧ 10 ≤ len then parseIsoEntry e
  else some .other

/-! ## The walk -/

structure MadtInfo where
  cpus : List CpuEntry
  ioapics : List IoApicInfo
  isos : List IsoInfo
deriving DecidableEq

def pushCpuBspFirst (cpus : List CpuEntry) (cpu : CpuEntry) : List CpuEntry :=
  if maxCpus ≤ cpus.length then cpus
  else if cpu.isBsp then
    match cpus with
    | [] => [cpu]
    | first :: rest => cpu :: rest ++ [first]
  else cpus ++ [cpu]

/-- append unless the fixed capacity is exhausted -/
def pushWithin {α : Type} (capacity : ℕ) (xs : List α) (x : α) : List α := if xs.length < capacity then xs ++ [x] else xs

def MadtInfo.add (bsp : ℕ) (info : MadtInfo) : Entry → MadtInfo
  | .cpu x => { info with cpus := pushCpuBspFirst info.cpus { x with isBsp := x.apicId == bsp } }
  | .ioapic x => { info with ioapics := pushWithin maxIoapics info.ioapics x }
  | .iso x => { info with isos := pushWithin maxIsos info.isos x }
  | .other => info

/-- the entries that the loop comes to, in what is left of the table -/
def walk (rest : List UInt8) : ℕ → Option (List Entry)
  | 0 => none
  | fuel + 1 =>
    match rest with
    | typ :: len :: _ =>
      if len.toNat < 2 ∨ rest.length < len.toNat then some []
      else do
        let e ← parseEntry rest typ.toNat len.toNat
        let es ← walk (rest.drop len.toNat) fuel
        some (e :: es)
    | _ => some []

def parseMadt (bsp : ℕ) (table : List UInt8) : Option MadtInfo :=
  if table.length < 44 then some ⟨[], [], []⟩
  else (walk (table.drop 44) (table.length + 1)).map (foldl (MadtInfo.add bsp) ⟨[], [], []⟩)

theorem read_isSome {e : List UInt8} {off len : ℕ} (h : off + len ≤ e.length) : (read e off len).isSome := by
  have hload : Mem.load (fun i => e[i]?) off len = some ((e.drop off).take len) := by
    rw [Mem.load_eq_some]
    refine ⟨by simp; omega, fun i hi => ?_⟩
    rw [getElem?_take_of_lt hi, getElem?_drop]
  rw [read, hload]
  rfl

theorem isSome_bind {α β : Type} {x : Option α} {f : α → Option β} (hx : x.isSome) (hf : ∀ v, (f v).isSome) :
    (x.bind f).isSome := by
  obtain ⟨v, rfl⟩ := isSome_iff_exists.1 hx
  exact hf v

/-- an entry is read inside the table -/
theorem parseEntry_isSome {e : List UInt8} (typ : ℕ) {len : ℕ} (h : len ≤ e.length) : (parseEntry e typ len).isSome := by
  have hread : ∀ off n, off + n ≤ len → (read e off n).isSome := fun off n hn => read_isSome (hn.trans h)
  unfold parseEntry
  split_ifs with h0 h1 h2 h3
  · refine isSome_bind (hread 4 4 (by omega)) fun flags => ?_
    split_ifs
    · exact isSome_bind (hread 2 1 (by omega)) fun _ => isSome_bind (hread 3 1 (by omega)) fun _ => rfl
    · rfl
  · refine isSome_bind (hread 8 4 (by omega)) fun flags => ?_
    split_ifs
    · exact isSome_bind (hread 12 4 (by omega)) fun _ => isSome_bind (hread 4 4 (by omega)) fun _ => rfl
    · rfl
  · exact isSome_bind (hread 2 1 (by omega)) fun _ => isSome_bind (hread 4 4 (by omega)) fun _ =>
      isSome_bind (hread 8 4 (by omega)) fun _ => rfl
  · exact isSome_bind (hread 3 1 (by omega)) fun _ => isSome_bind (hread 4 4 (by omega)) fun _ =>
      isSome_bind (hread 8 2 (by omega)) fun _ => rfl
  · rfl

/-- the walk ends inside the table -/
theorem walk_isSome {rest : List UInt8} {fuel : ℕ} (h : rest.length < fuel) : (walk rest fuel).isSome := by
  fun_induction walk rest fuel with
  | case1 => omega
  | case2 fuel typ len tail hstop => rw [if_pos hstop]; rfl
  | case3 fuel typ len tail hfits ih =>
    obtain ⟨e, he⟩ := isSome_iff_exists.1 (parseEntry_isSome typ.toNat (not_lt.1 (not_or.1 hfits).2))
    obtain ⟨es, hes⟩ := isSome_iff_exists.1 (ih (by grind))
    simp only [if_neg hfits, he, hes, bind_eq_bind, bind_some, isSome_some]
  | case4 => rfl

/-! ## What is pushed -/

def Entry.cpu? (bsp : ℕ) : Entry → Option CpuEntry
  | .cpu x => some { x with isBsp := x.apicId == bsp }
  | _ => none

def Entry.ioapic? : Entry → Option IoApicInfo
  | .ioapic x => some x
  | _ => none

def Entry.iso? : Entry → Option IsoInfo
  | .iso x => some x
  | _ => none

theorem foldl_add (bsp : ℕ) (es : List Entry) (info : MadtInfo) : es.foldl (MadtInfo.add bsp) info =
    ⟨(es.filterMap (Entry.cpu? bsp)).foldl pushCpuBspFirst info.cpus, (es.filterMap Entry.ioapic?).foldl
    (pushWithin maxIoapics) info.ioapics,
      (es.filterMap Entry.iso?).foldl (pushWithin maxIsos) info.isos⟩ := by
  induction es generalizing info with
  | nil => rfl
  | cons e es ih => cases e <;> simp [ih, filterMap_cons, MadtInfo.add, Entry.cpu?, Entry.ioapic?, Entry.iso?]

theorem foldl_pushWithin {α : Type} (n : ℕ) (xs : List α) : xs.foldl (pushWithin n) [] = xs.take n := by
  induction xs using reverseRecOn with
  | nil => simp
  | append_singleton xs x ih =>
    rw [foldl_append, ih, foldl_cons, foldl_nil, pushWithin, length_take]
    split_ifs with h
    · rw [take_of_length_le (by omega), take_of_length_le (by simp; omega)]
    · rw [take_append_of_le_length (by omega)]

/-- the processors that are kept, and the boot processor among them -/
theorem foldl_pushCpu (bsp : ℕ) (xs : List CpuEntry) (hbsp : ∀ x ∈ xs, x.isBsp = (x.apicId == bsp)) :
    (xs.foldl pushCpuBspFirst []).Perm (xs.take maxCpus) ∧
      (bsp ∈ (xs.take maxCpus).map CpuEntry.apicId → (xs.foldl pushCpuBspFirst []).head?.map CpuEntry.apicId =
      some bsp) := by
  induction xs using reverseRecOn with
  | nil => simp
  | append_singleton xs x ih =>
    obtain ⟨hperm, hfirst⟩ := ih fun y hy => hbsp y (mem_append_left _ hy)
    have hx := hbsp x (by simp)
    have hlen := hperm.length_eq
    rw [foldl_append, foldl_cons]
    generalize xs.foldl pushCpuBspFirst [] = cpus at hperm hfirst hlen
    rw [length_take] at hlen
    rcases le_or_gt maxCpus cpus.length with hfull | hroom
    · rw [pushCpuBspFirst.eq_def, if_pos hfull, take_append_of_le_length (by omega)]
      exact ⟨hperm, hfirst⟩
    rw [take_of_length_le (by omega)] at hperm hfirst
    rw [pushCpuBspFirst.eq_def, if_neg (not_le.2 hroom), take_of_length_le (by simp; omega)]
    split_ifs with hb
    · have hid : x.apicId = bsp := by simpa [hx] using hb
      cases cpus with
      | nil => exact ⟨hperm.append_right [x], fun _ => congrArg some hid⟩
      | cons first rest =>
        refine ⟨?_, fun _ => congrArg some hid⟩
        have hswap : (x :: rest ++ [first]).Perm (first :: rest ++ [x]) :=
          (perm_append_singleton first (x :: rest)).trans
            ((Perm.swap x first rest).trans (perm_append_singleton x (first :: rest)).symm)
        exact hswap.trans (hperm.append_right [x])
    · refine ⟨hperm.append_right _, fun hmem => ?_⟩
      have hne : bsp ≠ x.apicId := fun he => hb (by simp [hx, he])
      have hold : bsp ∈ xs.map CpuEntry.apicId := by simpa [hne] using hmem
      cases cpus with
      | nil => cases hfirst hold
      | cons first rest => exact hfirst hold

/-- the usable processors of a table, in its order -/
def usable (es : List Entry) : List ℕ := (es.filterMap (Entry.cpu? 0)).map CpuEntry.apicId

/-- every processor once, and the boot processor first if it is listed -/
structure CpusOk (bsp : ℕ) (es : List Entry) (cpus : List CpuEntry) : Prop where
  once : (cpus.map CpuEntry.apicId).Nodup
  bspFirst : bsp ∈ usable es → cpus.head?.map CpuEntry.apicId = some bsp

/-- **Every table.** The walk ends and reads inside the table, and the controllers and overrides are those of the table,
in its order, up to the capacities. The processors are listed once, the boot processor first, exactly if the first 64
usable entries have different ids and the boot processor is one of them if it is listed at all. -/
theorem parseMadt_iff (bsp : ℕ) (table : List UInt8) : ∃ es info, walk (table.drop 44) (table.length + 1) = some es ∧
    parseMadt bsp table = some info ∧
    info.ioapics = (es.filterMap Entry.ioapic?).take maxIoapics ∧ info.isos = (es.filterMap Entry.iso?).take maxIsos ∧
    (CpusOk bsp es info.cpus ↔ ((usable es).take maxCpus).Nodup ∧ (bsp ∈ usable es → bsp ∈ (usable es).take maxCpus)) := by
  obtain ⟨es, hes⟩ := isSome_iff_exists.1 (walk_isSome (show (table.drop 44).length < table.length + 1 by simp))
  have hparse : parseMadt bsp table = some (es.foldl (MadtInfo.add bsp) ⟨[], [], []⟩) := by
    unfold parseMadt
    split_ifs with hshort
    · rw [drop_of_length_le (by omega)] at hes
      cases hes
      rfl
    · rw [hes]
      rfl
  refine ⟨es, _, hes, hparse, ?_, ?_, ?_⟩ <;> rw [foldl_add]
  · exact foldl_pushWithin ..
  · exact foldl_pushWithin ..
  have hids : usable es = (es.filterMap (Entry.cpu? bsp)).map CpuEntry.apicId := by
    unfold usable
    rw [map_filterMap, map_filterMap]
    congr 1
    funext e
    cases e <;> rfl
  obtain ⟨hperm, hfirst⟩ := foldl_pushCpu bsp (es.filterMap (Entry.cpu? bsp)) (by
    intro x hx
    obtain ⟨e, -, he⟩ := mem_filterMap.1 hx
    cases e <;> cases he
    rfl)
  have hperm' := hperm.map CpuEntry.apicId
  rw [map_take] at hperm' hfirst
  rw [← hids] at hperm' hfirst
  constructor
  · intro h
    refine ⟨hperm'.nodup_iff.1 h.once, fun hmem => hperm'.mem_iff.1 ?_⟩
    obtain ⟨x, hx, hid⟩ := map_eq_some_iff.1 (h.bspFirst hmem)
    exact mem_map.2 ⟨x, mem_of_head? hx, hid⟩
  · exact fun h => ⟨hperm'.nodup_iff.2 h.1, fun hmem => hfirst (h.2 hmem)⟩

/-- a header, and the same processor in both forms -/
def twiceListed : List UInt8 :=
  replicate 44 0 ++ [0, 8, 1, 5, 1, 0, 0, 0] ++ [9, 16, 0, 0, 5, 0, 0, 0, 1, 0, 0, 0, 1, 0, 0, 0]

/-- **A processor is returned twice.** -/
theorem processor_twice : ∃ info, parseMadt 0 twiceListed = some info ∧ info.cpus.map CpuEntry.apicId = [5, 5] := by
  decide +kernel

end Rumicos.Smp
