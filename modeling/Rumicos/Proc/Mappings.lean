/-
The mappings of address spaces over runs of `mmap`, `munmap` and `fork_cow` (`crates/proc/src/address_space.rs`), and
the file offsets their faults use (`sys_mmap` in `vma.rs`).
-/
import Rumicos.Proc.Runs

namespace Rumicos.Proc.Mappings

open Paging Memory Fs List Option

/-! ## The calls -/

/-- the fields of an address space that `mmap` and `munmap` use -/
structure Areas where
  vmas : List (Option Vma)
  next : ℕ
deriving DecidableEq

def Areas.new : Areas := ⟨List.replicate maxVmas none, mmapBase⟩

/-- `AddressSpace::mmap`: the state after it and its result -/
def Areas.mmap (a : Areas) (len : ℕ) (flags : PageFlags) (backing : Backing) : Areas × Option ℕ :=
  match Proc.mmap a.vmas a.next len flags backing with
  | some (start, vmas, next) => (⟨vmas, next⟩, some start)
  | none => (a, none)

/-- `AddressSpace::munmap`, without its pages -/
def Areas.munmap (a : Areas) (addr len : ℕ) : Areas × Bool :=
  if 2 ^ 64 ≤ addr + len then (a, false)
  else match munmapSlot a.vmas addr (addr + len) with
    | some slot => ({ a with vmas := a.vmas.set slot none }, true)
    | none => (a, false)

inductive Call where
  | mmap (i len : ℕ) (flags : PageFlags) (backing : Backing)
  | munmap (i addr len : ℕ)
  | fork (i : ℕ)

/-- a call on address space `i`; a fork adds a copy -/
def step (as : List Areas) : Call → List Areas
  | .mmap i len flags backing => as.modify i fun a => (a.mmap len flags backing).1
  | .munmap i addr len => as.modify i fun a => (a.munmap addr len).1
  | .fork i => as ++ as[i]?.toList

def run (calls : List Call) : List Areas := calls.foldl step [Areas.new]

/-! ## The invariant -/

/-- the areas are well formed and below the cursor -/
structure Laid (a : Areas) : Prop extends VmasOk a.vmas a.next where
  below : ∀ v, some v ∈ a.vmas → v.endAddr ≤ a.next
  cursor : a.next % pageSize = 0

variable {a : Areas} {as : List Areas} {len : ℕ} {flags : PageFlags} {backing : Backing}

theorem laid_new : Laid .new := ⟨vmasOk_new, fun v hv => by simp [Areas.new, mem_replicate] at hv, by decide⟩

theorem laid_mmap (h : Laid a) (len : ℕ) (flags : PageFlags) (backing : Backing) : Laid (a.mmap len flags backing).1 := by
  rw [Areas.mmap]
  split
  · rename_i start vmas next hr
    have hmem := mem_mmap hr
    obtain ⟨-, -, hlen, -, -, -, hnext, hst, -, hn⟩ := mmap_spec hr
    refine ⟨vmasOk_mmap h.toVmasOk hr, fun v hv => ?_, ?_⟩
    · rcases (hmem v).1 hv with hv | rfl
      · have hv := h.below v hv
        simp only at hnext hn ⊢
        omega
      · exact hn.ge
    · simp only [pageSize] at hlen hst hn ⊢
      omega
  · exact h

theorem laid_munmap (h : Laid a) (addr len : ℕ) : Laid (a.munmap addr len).1 := by
  rw [Areas.munmap]
  split_ifs with h64
  · exact h
  split
  · rename_i slot _
    refine ⟨vmasOk_clear h.toVmasOk slot, fun v hv => ?_, h.cursor⟩
    exact (mem_or_eq_of_mem_set hv).elim (h.below v) nofun
  · exact h

theorem forall_modify {P : Areas → Prop} (h : ∀ a ∈ as, P a) (i : ℕ) {f : Areas → Areas} (hf : ∀ a, P a → P (f a)) :
    ∀ a ∈ as.modify i f, P a := by
  intro b hb
  obtain ⟨j, hj⟩ := mem_iff_getElem?.1 hb
  rw [getElem?_modify] at hj
  obtain ⟨a, ha, rfl⟩ := map_eq_some_iff.1 hj
  have hP := h a (mem_of_getElem? ha)
  split
  · exact hf a hP
  · exact hP

theorem laid_step (h : ∀ a ∈ as, Laid a) (c : Call) : ∀ a ∈ step as c, Laid a := by
  cases c with
  | mmap i len flags backing => exact forall_modify h i fun _ ha => laid_mmap ha len flags backing
  | munmap i addr len => exact forall_modify h i fun _ ha => laid_munmap ha addr len
  | fork i =>
    intro b hb
    rcases mem_append.1 hb with hb | hb
    · exact h b hb
    · exact h b (mem_of_getElem? (mem_toList.1 hb))

theorem laid_run (calls : List Call) : ∀ a ∈ run calls, Laid a := by
  have hall : ∀ as, (∀ a ∈ as, Laid a) → ∀ a ∈ calls.foldl step as, Laid a := by
    induction calls with
    | nil => exact fun _ h => h
    | cons c calls ih => exact fun as h => ih _ (laid_step h c)
  exact hall _ fun a ha => mem_singleton.1 ha ▸ laid_new

theorem failed_calls (a : Areas) :
    (∀ len flags backing, (a.mmap len flags backing).2 = none → (a.mmap len flags backing).1 = a) ∧
      ∀ addr len, (a.munmap addr len).2 = false → (a.munmap addr len).1 = a := by
  refine ⟨fun len flags backing => ?_, fun addr len => ?_⟩
  · rw [Areas.mmap]
    split
    · nofun
    · exact fun _ => rfl
  · rw [Areas.munmap]
    split_ifs
    · exact fun _ => rfl
    · split
      · nofun
      · exact fun _ => rfl

/-- **The areas in every run.** In every state of every run they are disjoint, aligned and below the cursor, every
search for a place ends, and a call that fails changes nothing. -/
theorem areas_run (calls : List Call) : ∀ a ∈ run calls, Laid a ∧
    (∀ len first, len ≠ 0 → ∃ r, Searched a.vmas len first r) ∧
    (∀ len flags backing, (a.mmap len flags backing).2 = none → (a.mmap len flags backing).1 = a) ∧
    ∀ addr len, (a.munmap addr len).2 = false → (a.munmap addr len).1 = a :=
  fun a ha => ⟨laid_run calls a ha, fun _ first hlen => ⟨_, mmapSearch_ends hlen first⟩, failed_calls a⟩

/-- the child keeps the area that the parent unmaps -/
theorem areas_run_forked : ∃ a ∈ run [.mmap 0 8192 .new .anonymous, .fork 0, .munmap 0 mmapBase 8192],
    a.vmas ≠ Areas.new.vmas ∧ Laid a := by
  have hchild : ∃ a ∈ run [.mmap 0 8192 .new .anonymous, .fork 0, .munmap 0 mmapBase 8192], a.vmas ≠ Areas.new.vmas := by
    decide +kernel
  obtain ⟨a, ha, hvmas⟩ := hchild
  exact ⟨a, ha, hvmas, (areas_run _ a ha).1⟩

/-! ## Failures of `mmap` -/

/-- `len` free bytes of the region from `g` on -/
def Areas.FreeAt (a : Areas) (len g : ℕ) : Prop :=
  mmapBase ≤ g ∧ g + len ≤ mmapRegionEnd ∧ ∀ v, some v ∈ a.vmas → v.endAddr ≤ g ∨ g + len ≤ v.start

def Areas.Full (a : Areas) : Prop := none ∉ a.vmas

theorem mmap_of_room (h : Laid a) (hlen : len ≠ 0) (hpage : len % pageSize = 0) (hroom : a.next + len ≤ mmapRegionEnd)
    (hslot : none ∈ a.vmas) : (a.mmap len flags backing).2 = some a.next := by
  have hend : mmapRegionEnd < 2 ^ 63 := by decide
  have hcursor := h.cursor
  have hfirst : alignUpPage a.next = some a.next := by
    simp only [pageSize] at hcursor
    rw [alignUpPage, if_pos (by omega)]
    congr 1
    omega
  have hfree : vmaOverlaps a.vmas a.next (a.next + len) = false := by
    simp only [vmaOverlaps, List.any_eq_false, mem_filterMap]
    rintro v ⟨_, hv, rfl⟩
    have hv := h.below v hv
    simp only [Bool.and_eq_true, decide_eq_true_eq]
    omega
  have hsearch : mmapSearch a.vmas len (mmapRegionEnd / len + 1) a.next = some a.next := by
    simp only [mmapSearch, hfree]
    rw [if_neg (by omega), if_neg (by omega)]
    rfl
  obtain ⟨slot, hslot⟩ : ∃ slot, a.vmas.findIdx? Option.isNone = some slot := by
    rw [← isSome_iff_exists, findIdx?_isSome, List.any_eq_true]
    exact ⟨none, hslot, rfl⟩
  have hmmap : Proc.mmap a.vmas a.next len flags backing =
      some (a.next, a.vmas.set slot (some ⟨a.next, a.next + len, flags, backing⟩), a.next + len) := by
    rw [Proc.mmap, if_neg (by simp [hlen, hpage]), hslot, hfirst]
    simp [hsearch]
  rw [Areas.mmap, hmmap]

theorem mmap_eq_none (h : a.Full ∨ mmapRegionEnd < a.next + len) : (a.mmap len flags backing).2 = none := by
  rw [Areas.mmap]
  split
  · rename_i r hr
    obtain ⟨slot, -, -, hslot, -, hend, hnext, -⟩ := mmap_spec hr
    rcases h with hfull | h
    · exact absurd (mem_of_getElem? hslot) hfull
    · omega
  · rfl

/-- **When `mmap` fails only for want of a slot or a gap.** In every state of every sequence of calls: exactly if the
request fits above the cursor, all slots are in use, or nothing is free below the cursor either. -/
theorem mmap_fails_iff (calls : List Call) (ha : a ∈ run calls) (hlen : len ≠ 0) (hpage : len % pageSize = 0) :
    ((a.mmap len flags backing).2 = none → a.Full ∨ ¬ ∃ g, a.FreeAt len g) ↔
      a.next + len ≤ mmapRegionEnd ∨ a.Full ∨ ¬ ∃ g < a.next, a.FreeAt len g := by
  have h := laid_run calls a ha
  rcases Nat.lt_or_ge mmapRegionEnd (a.next + len) with hroom | hroom
  · -- what is free is below the cursor, and the call fails
    have hbelow : (∃ g, a.FreeAt len g) ↔ ∃ g < a.next, a.FreeAt len g :=
      ⟨fun ⟨g, hg⟩ => ⟨g, by have := hg.2.1; omega, hg⟩, fun ⟨g, _, hg⟩ => ⟨g, hg⟩⟩
    simp [mmap_eq_none (.inr hroom), hbelow, not_le.2 hroom]
  · refine iff_of_true (fun hnone => .inl fun hslot => ?_) (.inl hroom)
    rw [mmap_of_room h hlen hpage hroom hslot] at hnone
    cases hnone

/-- one area over the whole region -/
def wholeRegion : Areas := ⟨Areas.new.vmas.set 0 (some ⟨mmapBase, mmapRegionEnd, .new, .anonymous⟩), mmapRegionEnd⟩

/-- with the whole region mapped no page can be mapped, and indeed no gap is left -/
theorem mmap_fails_when_mapped : wholeRegion ∈ run [.mmap 0 (mmapRegionEnd - mmapBase) .new .anonymous] ∧
    (wholeRegion.mmap 4096 .new .anonymous).2 = none ∧ (wholeRegion.Full ∨ ¬ ∃ g, wholeRegion.FreeAt 4096 g) := by
  have hmem : wholeRegion ∈ run [.mmap 0 (mmapRegionEnd - mmapBase) .new .anonymous] := by decide +kernel
  have hnone : (wholeRegion.mmap 4096 .new .anonymous).2 = none := mmap_eq_none (.inr (by decide))
  refine ⟨hmem, hnone, (mmap_fails_iff _ hmem (by decide) (by decide)).2 (.inr (.inr ?_)) hnone⟩
  rintro ⟨g, -, hlo, hhi, hfree⟩
  have hout := hfree ⟨mmapBase, mmapRegionEnd, .new, .anonymous⟩ (by decide)
  simp only at hout
  omega

/-- an area over the whole region is mapped and unmapped: no area is left, and no page can be mapped -/
theorem emptied_region : ∃ a ∈ run [.mmap 0 (mmapRegionEnd - mmapBase) .new .anonymous,
    .munmap 0 mmapBase (mmapRegionEnd - mmapBase)],
    a.vmas = Areas.new.vmas ∧ (a.mmap 4096 .new .anonymous).2 = none ∧ ¬ (a.Full ∨ ¬ ∃ g, a.FreeAt 4096 g) := by
  refine ⟨⟨Areas.new.vmas, mmapRegionEnd⟩, by decide +kernel, rfl, mmap_eq_none (.inr (by decide)), ?_⟩
  rw [not_or, not_not, Areas.Full]
  exact ⟨by decide, mmapBase, le_rfl, by decide, fun v hv => by simp [Areas.new] at hv⟩

/-! ## File offsets -/

/-- the area that `sys_mmap` adds -/
def areaOf (start len : ℕ) (prot : Prot) (req : MapRequest) : Vma :=
  ⟨start, start + len, protToPageFlags prot, req.backing⟩

/-- after a fault at `addr` its page is on the frame of file page `pos` of vnode `v` -/
def MapsFile (k : Kernel) (i addr : ℕ) (k' : Kernel) (v pos : ℕ) : Prop :=
  ∃ st s l, getOrFill k.toStore v pos = some (st, some l.frame) ∧ k'.space i = some s ∧ s.leaf (pageOf addr) = some l

variable {k k' : Kernel} {i length start v off : ℕ} {prot : Prot} {shared canWrite : Bool}

theorem fault_mapsFile {s : AddressSpace} {addr : ℕ} (hk : AreasInv k) (hs : k.space i = some s)
    (hv : some (areaOf start len prot (.file v off shared canWrite)) ∈ s.vmas) (hstart : start % pageSize = 0)
    (hlo : start ≤ addr)
    (hhi : addr < start + len) (h : resolveFileFault k i addr = some (k', true)) :
    MapsFile k i addr k' v (fileOff (areaOf start len prot (.file v off shared canWrite)) off addr) := by
  obtain ⟨s₁, hs₁, hfault⟩ := resolveFileFault_inv h
  cases hs.symm.trans hs₁
  have hok : VmasOk s.vmas s.mmapNext := (hk i s hs).vmas
  have hfind : findVma s.vmas (addr / pageSize * pageSize) =
    some (areaOf start len prot (.file v off shared canWrite)) := by
    rw [findVma_iff hok, contains_iff]
    simp only [areaOf, pageSize] at hstart ⊢
    exact ⟨hv, by omega, by omega⟩
  obtain ⟨s', l', vma, hs', hl', hvma, -, -, hfile⟩ := fileFault_entry hk hs hfault
  cases hfind.symm.trans hvma
  obtain ⟨st, hst⟩ := hfile v off shared rfl
  exact ⟨st, s', l', hst, hs', hl'⟩

/-- **The file pages of a mapping.** A fault in it maps the cached page of the offset `fileOff` computes; these are the
offsets that were asked for, at every address, exactly when the mapping ends at or below 2^64. -/
theorem file_offset_iff (h : sysMmap k i length prot (.file v off shared canWrite) = some (k', some start))
    (hlen : alignUpPage length = some len) :
    (∀ k₁ j s addr k₂, AreasInv k₁ → k₁.space j = some s →
    some (areaOf start len prot (.file v off shared canWrite)) ∈ s.vmas →
      start ≤ addr → addr < start + len → resolveFileFault k₁ j addr = some (k₂, true) →
      MapsFile k₁ j addr k₂ v (fileOff (areaOf start len prot (.file v off shared canWrite)) off addr)) ∧
    ((∀ addr, start ≤ addr → addr < start + len →
        fileOff (areaOf start len prot (.file v off shared canWrite)) off addr = off +
        (addr / pageSize * pageSize - start)) ↔
      off + len ≤ 2 ^ 64) := by
  have hallowed : mmapAllowed length prot (.file v off shared canWrite) = true := by
    by_contra hne
    obtain ⟨s, -, h⟩ := bind_eq_some_iff.1 h
    rw [if_neg hne] at h
    cases h
  simp only [mmapAllowed, Bool.and_eq_true, decide_eq_true_eq] at hallowed
  have hoff : off % pageSize = 0 := hallowed.1.1.1.2
  obtain ⟨s, -, ⟨hr, -⟩ | ⟨hr, -⟩ | ⟨len', m, hlen', hm, hr, -⟩⟩ := sysMmap_cases h
  · cases hr
  · cases hr
  cases hlen.symm.trans hlen'
  cases hr
  obtain ⟨-, hne, hpage, -, -, -, -, hstart, -⟩ := mmap_spec hm
  refine ⟨fun k₁ j s addr k₂ hk hs hv hlo hhi hf => fault_mapsFile hk hs hv hstart hlo hhi hf, ?_⟩
  simp only [fileOff, areaOf, pageSize] at hoff hpage hstart ⊢
  constructor
  · intro hall
    -- the last page
    have hlast := hall (m.1 + len - 4096) (by omega) (by omega)
    omega
  · intro hfits addr hlo hhi
    exact Nat.mod_eq_of_lt (by omega)

/-- every file is one page of the byte 80 -/
def fileKernel : Kernel := Kernel.new (framesFrom 1 1 100) fun _ => ⟨.regular, 4096, [fun _ => 80], 1, 0⟩

/-- a mapping of the last page of the file offsets, and a fault in it -/
theorem file_offset_at_end : ∃ k k' k₂, Proc.run fileKernel [.create bareImage] = some k ∧
    sysMmap k 0 1 ⟨true, false⟩ (.file directMapBase (2 ^ 64 - 4096) false false) = some (k', some mmapBase) ∧
    resolveFileFault k' 0 (mmapBase + 5) = some (k₂, true) ∧
    MapsFile k' 0 (mmapBase + 5) k₂ directMapBase (2 ^ 64 - 4096) := by
  obtain ⟨k, hk, ⟨k', -⟩, hmap, rfl, ⟨s, hs, hv⟩, ⟨k₂, -⟩, hfault, rfl⟩ : ∃ k,
    Proc.run fileKernel [.create bareImage] = some k ∧
      ∃ x, sysMmap k 0 1 ⟨true, false⟩ (.file directMapBase (2 ^ 64 - 4096) false false) = some x ∧ x.2 = some mmapBase ∧
        (∃ s, x.1.space 0 = some s ∧
          some (areaOf mmapBase 4096 ⟨true, false⟩ (.file directMapBase (2 ^ 64 - 4096) false false)) ∈ s.vmas) ∧
        ∃ y, resolveFileFault x.1 0 (mmapBase + 5) = some y ∧ y.2 = true := by decide +kernel
  obtain ⟨hmaps, hoff⟩ := file_offset_iff hmap rfl
  have hstep : Proc.step k (.mmap 0 1 ⟨true, false⟩ (.file directMapBase (2 ^ 64 - 4096) false false)) = some k' := by
    rw [Proc.step, hmap]
    rfl
  have hareas : AreasInv k' := (step_shape (run_shape hk) hstep).areas
  have hfile := hmaps k' 0 s (mmapBase + 5) k₂ hareas hs hv (by omega) (by omega) hfault
  rw [hoff.2 (by decide) (mmapBase + 5) (by omega) (by omega)] at hfile
  exact ⟨k, k', k₂, hk, hmap, hfault, hfile⟩

/-- **A file offset that wraps**: two pages at 2^64 - 4096 are mapped, and the second shows the file's first byte. -/
theorem offset_wraps : ∃ k, Proc.run fileKernel [.create bareImage, .mmap 0 8192 ⟨true, false⟩
    (.file directMapBase (2 ^ 64 - 4096) false false)] =
    some k ∧ ∃ x, load k 0 (mmapBase + 4096) = some x ∧ x.2 = some 80 := by decide +kernel

end Rumicos.Proc.Mappings
