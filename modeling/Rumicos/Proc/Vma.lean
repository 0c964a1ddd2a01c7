/-
Virtual memory areas (`crates/proc/src/vma.rs`, and the VMA array of `crates/proc/src/address_space.rs`).

An address space keeps 32 slots for areas and a cursor `mmap_next`. `mmap` takes the first empty slot and the first free
range at or after the cursor inside [MMAP_BASE, MMAP_REGION_END); `munmap` empties the slot whose area is exactly the
given range. No frame is touched here.

- `VmasOk`: the areas are page-aligned, non-empty, inside the region and pairwise apart; `vmasOk_new`, `vmasOk_mmap`,
  `vmasOk_clear` keep it.

Addresses are natural numbers; the `checked_add`s of the source are the comparisons with 2^64.
-/
import Rumicos.Lib.Run
import Rumicos.Paging.Entry

namespace Rumicos.Proc

open Lib Paging List Option

def pageSize : ℕ := 4096
def maxVmas : ℕ := 32
def mmapBase : ℕ := 0x400000000000
def mmapRegionEnd : ℕ := 0x700000000000

/-- what backs an area's pages; `vnodePtr` is the direct-map address of the vnode -/
inductive Backing where
  | anonymous
  | file (vnodePtr fileOffset : ℕ) (shared : Bool)
deriving DecidableEq

structure Vma where
  start : ℕ
  endAddr : ℕ
  flags : PageFlags
  backing : Backing
deriving DecidableEq

def Vma.contains (v : Vma) (addr : ℕ) : Bool := decide (v.start ≤ addr) && decide (addr < v.endAddr)

/-- is this a MAP_SHARED file mapping? (the negation of `Vma::is_cow_eligible`) -/
def Vma.isShared (v : Vma) : Bool :=
  match v.backing with
  | .file _ _ true => true
  | _ => false

def flagsWritable (flags : PageFlags) : Bool := flags.has bitWritable

/-- the protection of a mapping request: PROT_WRITE and PROT_EXEC (PROT_READ has no effect on the flags) -/
structure Prot where
  write : Bool
  exec : Bool
deriving DecidableEq, Repr

/-- `prot_to_page_flags`, and with the ELF bits PF_W and PF_X also `user_flags_from_elf` -/
def protToPageFlags (p : Prot) : PageFlags :=
  let flags := PageFlags.new.withPresent.withUserAccessible
  let flags := if p.write then flags.withWritable else flags
  if p.exec then flags else flags.withNoExecute

def alignUpPage (value : ℕ) : Option ℕ :=
  if value + 4095 < 2 ^ 64 then some ((value + 4095) / 4096 * 4096) else none

def findVma (vmas : List (Option Vma)) (addr : ℕ) : Option Vma := (vmas.filterMap id).find? fun v => v.contains addr

def vmaOverlaps (vmas : List (Option Vma)) (start endAddr : ℕ) : Bool :=
  (vmas.filterMap id).any fun v => decide (start < v.endAddr) && decide (v.start < endAddr)

/-- the `loop` of `AddressSpace::mmap`: the first free range of `len` bytes at `start`, `start + len`, ... -/
def mmapSearch (vmas : List (Option Vma)) (len : ℕ) : ℕ → ℕ → Option ℕ
  | 0, _ => none
  | fuel + 1, start =>
    let endAddr := start + len
    if 2 ^ 64 ≤ endAddr then none
    else if mmapRegionEnd < endAddr then none
    else if vmaOverlaps vmas start endAddr then mmapSearch vmas len fuel endAddr
    else some start

/-- `AddressSpace::mmap`: the address, the new slots and the new cursor -/
def mmap (vmas : List (Option Vma)) (mmapNext len : ℕ) (flags : PageFlags) (backing : Backing) :
    Option (ℕ × List (Option Vma) × ℕ) := do
  if len = 0 ∨ len % pageSize ≠ 0 then none
  let slot ← vmas.findIdx? Option.isNone
  let first ← alignUpPage mmapNext
  let start ← mmapSearch vmas len (mmapRegionEnd / len + 1) first
  return (start, vmas.set slot (some ⟨start, start + len, flags, backing⟩), start + len)

/-- the slot `AddressSpace::munmap` takes: the area that is exactly [addr, endAddr) -/
def munmapSlot (vmas : List (Option Vma)) (addr endAddr : ℕ) : Option ℕ :=
  vmas.findIdx? fun s => s.any fun v => decide (v.start = addr) && decide (v.endAddr = endAddr)

/-! ## Flags -/

@[simp] theorem protToPageFlags_present (p : Prot) : (protToPageFlags p).has bitPresent = true := by
  rcases p with ⟨_ | _, _ | _⟩ <;> decide

@[simp] theorem protToPageFlags_writable (p : Prot) : (protToPageFlags p).has bitWritable = p.write := by
  rcases p with ⟨_ | _, _ | _⟩ <;> decide

@[simp] theorem protToPageFlags_cow (p : Prot) : (protToPageFlags p).has bitCow = false := by
  rcases p with ⟨_ | _, _ | _⟩ <;> decide

/-! ## What `mmap` chooses -/

variable {vmas : List (Option Vma)} {len next : ℕ} {flags : PageFlags} {backing : Backing} {r : ℕ × List (Option Vma) × ℕ}

/-- a result of the search is a free range inside the region, a whole number of steps after `first` -/
theorem mmapSearch_spec {fuel first start : ℕ} (h : mmapSearch vmas len fuel first = some start) :
    vmaOverlaps vmas start (start + len) = false ∧ start + len ≤ mmapRegionEnd ∧ ∃ k, start = first + k * len := by
  induction fuel generalizing first with
  | zero => simp [mmapSearch] at h
  | succ fuel ih =>
    simp only [mmapSearch] at h
    split_ifs at h with h64 hend hov
    · obtain ⟨h1, h2, k, hk⟩ := ih h
      exact ⟨h1, h2, k + 1, by rw [hk]; ring⟩
    · cases h
      exact ⟨by simpa using hov, by omega, 0, by simp⟩

/-- the `loop` run from `start` on ends with the result -/
inductive Searched (vmas : List (Option Vma)) (len : ℕ) : ℕ → Option ℕ → Prop
  | outside {start : ℕ} (h : 2 ^ 64 ≤ start + len ∨ mmapRegionEnd < start + len) : Searched vmas len start none
  | found {start : ℕ} (hend : start + len ≤ mmapRegionEnd) (hfree : vmaOverlaps vmas start (start + len) = false) :
      Searched vmas len start (some start)
  | next {start : ℕ} {r : Option ℕ} (hend : start + len ≤ mmapRegionEnd)
      (hbusy : vmaOverlaps vmas start (start + len) = true)
      (h : Searched vmas len (start + len) r) : Searched vmas len start r

/-- **The loop ends**, and the bound of the model is not the reason for a failure -/
theorem mmapSearch_ends (hlen : len ≠ 0) (first : ℕ) :
    Searched vmas len first (mmapSearch vmas len (mmapRegionEnd / len + 1) first) := by
  have hall : ∀ fuel first, mmapRegionEnd < first + fuel * len →
    Searched vmas len first (mmapSearch vmas len fuel first) := by
    intro fuel
    induction fuel with
    | zero => exact fun first h => .outside (.inr (by omega))
    | succ fuel ih =>
      intro first h
      simp only [mmapSearch]
      split_ifs with h64 hend hbusy
      · exact .outside (.inl h64)
      · exact .outside (.inr hend)
      · exact .next (by omega) hbusy (ih _ (by rw [Nat.succ_mul] at h; omega))
      · exact .found (by omega) (Bool.eq_false_of_not_eq_true hbusy)
  refine hall _ _ (lt_of_lt_of_le (Nat.lt_mul_of_div_lt (Nat.lt_succ_self _) (Nat.pos_of_ne_zero hlen)) ?_)
  exact Nat.le_add_left _ _

theorem mmap_spec (h : mmap vmas next len flags backing = some r) :
    ∃ slot, len ≠ 0 ∧ len % pageSize = 0 ∧ vmas[slot]? = some none ∧
      vmaOverlaps vmas r.1 (r.1 + len) = false ∧ r.1 + len ≤ mmapRegionEnd ∧ next ≤ r.1 ∧ r.1 % pageSize = 0 ∧
      r.2.1 = vmas.set slot (some ⟨r.1, r.1 + len, flags, backing⟩) ∧ r.2.2 = r.1 + len := by
  unfold mmap at h
  split_ifs at h with hlen
  · simp at h
  simp only [bind_eq_bind, bind_eq_some_iff, Option.pure_def, some.injEq] at h
  obtain ⟨slot, hslot, first, hfirst, start, hstart, rfl⟩ := h
  obtain ⟨h1, h2, k, hk⟩ := mmapSearch_spec hstart
  rw [not_or, not_not] at hlen
  unfold alignUpPage at hfirst
  split_ifs at hfirst with h64
  simp only [some.injEq] at hfirst
  have hdvd : pageSize ∣ start := by
    rw [hk, ← hfirst]
    exact Dvd.dvd.add (Dvd.intro_left _ rfl) (Dvd.dvd.mul_left (Nat.dvd_of_mod_eq_zero hlen.2) k)
  refine ⟨slot, hlen.1, hlen.2, ?_, h1, h2, ?_, Nat.mod_eq_zero_of_dvd hdvd, rfl, rfl⟩
  · obtain ⟨hlt, hnone, -⟩ := findIdx?_eq_some_iff_getElem.1 hslot
    rw [getElem?_eq_getElem hlt, isNone_iff_eq_none.1 hnone]
  · have : next ≤ first := by omega
    simp only [hk]
    exact le_trans this (Nat.le_add_right _ _)

/-! ## The areas of an address space -/

/-- areas are page-aligned, non-empty, inside the region and pairwise apart; the cursor is inside the region -/
structure VmasOk (vmas : List (Option Vma)) (mmapNext : ℕ) : Prop where
  slots : vmas.length = maxVmas
  apart : ∀ (i j : ℕ) (v w : Vma), vmas[i]? = some (some v) → vmas[j]? = some (some w) → i ≠ j →
    v.endAddr ≤ w.start ∨ w.endAddr ≤ v.start
  inside : ∀ v, some v ∈ vmas → mmapBase ≤ v.start ∧ v.start < v.endAddr ∧ v.endAddr ≤ mmapRegionEnd
  aligned : ∀ v, some v ∈ vmas → v.start % pageSize = 0 ∧ v.endAddr % pageSize = 0
  next : mmapBase ≤ mmapNext

theorem vmasOk_new : VmasOk (List.replicate maxVmas none) mmapBase where
  slots := length_replicate
  apart := fun i j v w hi => by
    have := mem_of_getElem? hi
    simp [mem_replicate] at this
  inside := fun v hv => by simp [mem_replicate] at hv
  aligned := fun v hv => by simp [mem_replicate] at hv
  next := le_refl _

theorem vmaOverlaps_false {a b : ℕ} (h : vmaOverlaps vmas a b = false) (v : Vma) (hv : some v ∈ vmas) :
    v.endAddr ≤ a ∨ b ≤ v.start := by
  simp only [vmaOverlaps, List.any_eq_false, mem_filterMap] at h
  have := h v ⟨some v, hv, rfl⟩
  simp only [Bool.and_eq_true, decide_eq_true_eq, not_and_or, not_lt] at this
  exact this

/-- the areas after a successful `mmap` are the old ones and the new one -/
theorem mem_mmap (hr : mmap vmas next len flags backing = some r) (v : Vma) :
    some v ∈ r.2.1 ↔ some v ∈ vmas ∨ v = ⟨r.1, r.1 + len, flags, backing⟩ := by
  obtain ⟨slot, -, -, hslot, -, -, -, -, hv, -⟩ := mmap_spec hr
  rw [hv]
  constructor
  · intro h
    exact (mem_or_eq_of_mem_set h).imp_right some.inj
  · rintro (h | rfl)
    · exact mem_set_of_ne hslot h nofun
    · exact mem_set (List.getElem?_eq_some_iff.1 hslot).1 _

theorem vmasOk_mmap (h : VmasOk vmas next) (hr : mmap vmas next len flags backing = some r) : VmasOk r.2.1 r.2.2 := by
  obtain ⟨slot, hlen, hal, hslot, hov, hend, hnext, hst, hv, hn⟩ := mmap_spec hr
  have hbase := h.next
  refine ⟨by rw [hv, length_set]; exact h.slots, ?_, ?_, ?_, by omega⟩
  · intro i j v w hi hj hij
    rw [hv] at hi hj
    rcases getElem?_set_cases hi with ⟨rfl, he⟩ | ⟨-, hi'⟩ <;> rcases getElem?_set_cases hj with ⟨rfl, hf⟩ | ⟨-, hj⟩
    · exact absurd rfl hij
    · cases he
      exact (vmaOverlaps_false hov w (mem_of_getElem? hj)).symm
    · cases hf
      exact vmaOverlaps_false hov v (mem_of_getElem? hi')
    · exact h.apart i j v w hi' hj hij
  · intro v hv
    rcases (mem_mmap hr v).1 hv with hv | rfl
    · exact h.inside v hv
    · exact ⟨by simp only; omega, by simp only; omega, hend⟩
  · intro v hv
    rcases (mem_mmap hr v).1 hv with hv | rfl
    · exact h.aligned v hv
    · exact ⟨hst, by simp only [pageSize] at *; omega⟩

theorem vmasOk_clear (h : VmasOk vmas next) (slot : ℕ) : VmasOk (vmas.set slot none) next := by
  refine ⟨by rw [length_set]; exact h.slots, ?_, fun v hv => h.inside v (mem_of_mem_set_none hv),
    fun v hv => h.aligned v (mem_of_mem_set_none hv), h.next⟩
  intro i j v w hi hj hij
  obtain ⟨-, hi⟩ := (getElem?_set_cases hi).resolve_left nofun
  obtain ⟨-, hj⟩ := (getElem?_set_cases hj).resolve_left nofun
  exact h.apart i j v w hi hj hij

theorem findVma_mem {addr : ℕ} {v : Vma} (h : findVma vmas addr = some v) : some v ∈ vmas ∧ v.contains addr = true := by
  have hm := mem_of_find?_eq_some h
  simp only [mem_filterMap] at hm
  obtain ⟨s, hs, rfl⟩ := hm
  have hp := find?_some h
  exact ⟨hs, hp⟩

theorem contains_iff (v : Vma) (addr : ℕ) : v.contains addr = true ↔ v.start ≤ addr ∧ addr < v.endAddr := by
  simp [Vma.contains]

/-- **`find_vma` finds the one area that contains the address** -/
theorem findVma_iff (h : VmasOk vmas next) (addr : ℕ) (v : Vma) :
    findVma vmas addr = some v ↔ some v ∈ vmas ∧ v.contains addr = true := by
  refine ⟨findVma_mem, fun ⟨hv, hc⟩ => ?_⟩
  rcases hf : findVma vmas addr with _ | w
  · have := find?_eq_none.1 hf v (mem_filterMap.2 ⟨some v, hv, rfl⟩)
    exact absurd hc this
  · obtain ⟨hw, hcw⟩ := findVma_mem hf
    obtain ⟨i, hi⟩ := mem_iff_getElem?.1 hv
    obtain ⟨j, hj⟩ := mem_iff_getElem?.1 hw
    rw [contains_iff] at hc hcw
    by_cases hij : i = j
    · subst hij
      rw [hi] at hj
      simpa using hj.symm
    · rcases h.apart i j v w hi hj hij with h1 | h1 <;> omega

theorem findVma_none_iff (vmas : List (Option Vma)) (addr : ℕ) :
    findVma vmas addr = none ↔ ∀ v, some v ∈ vmas → v.contains addr = false := by
  rw [findVma, find?_eq_none]
  simp only [mem_filterMap, Bool.not_eq_true]
  constructor
  · intro h v hv
    exact h v ⟨_, hv, rfl⟩
  · rintro h v ⟨s, hs, rfl⟩
    exact h v hs

theorem findVma_mmap (h : VmasOk vmas next) (hr : mmap vmas next len flags backing = some r) (addr : ℕ) :
    findVma r.2.1 addr = if r.1 ≤ addr ∧ addr < r.1 + len then some ⟨r.1, r.1 + len, flags, backing⟩
      else findVma vmas addr := by
  have hok := vmasOk_mmap h hr
  split_ifs with hin
  · rw [findVma_iff hok, mem_mmap hr, contains_iff]
    exact ⟨.inr rfl, hin⟩
  · rcases hf : findVma vmas addr with _ | v
    · rw [findVma_none_iff] at hf ⊢
      intro v hv
      rcases (mem_mmap hr v).1 hv with hv | rfl
      · exact hf v hv
      · simp only [Vma.contains, Bool.and_eq_false_iff, decide_eq_false_iff_not]
        omega
    · obtain ⟨hv, hc⟩ := findVma_mem hf
      exact (findVma_iff hok _ _).2 ⟨(mem_mmap hr v).2 (.inl hv), hc⟩

theorem munmapSlot_spec {addr endAddr slot : ℕ} (h : munmapSlot vmas addr endAddr = some slot) :
    ∃ v, vmas[slot]? = some (some v) ∧ v.start = addr ∧ v.endAddr = endAddr := by
  obtain ⟨hlt, hs, -⟩ := findIdx?_eq_some_iff_getElem.1 h
  rcases hv : vmas[slot] with _ | v
  · simp [hv] at hs
  · refine ⟨v, by rw [getElem?_eq_getElem hlt, hv], ?_⟩
    simpa [hv] using hs

theorem findVma_clear {slot : ℕ} {v : Vma} (h : VmasOk vmas next) (hs : vmas[slot]? = some (some v)) (addr : ℕ) :
    findVma (vmas.set slot none) addr = if v.contains addr then none else findVma vmas addr := by
  have hok := vmasOk_clear h slot
  split_ifs with hin
  · rw [findVma_none_iff]
    intro w hw
    obtain ⟨j, hj⟩ := mem_iff_getElem?.1 hw
    obtain ⟨hne, hj⟩ := (getElem?_set_cases hj).resolve_left nofun
    rw [contains_iff] at hin
    simp only [Vma.contains, Bool.and_eq_false_iff, decide_eq_false_iff_not]
    rcases h.apart slot j v w hs hj hne.symm with h2 | h2 <;> omega
  · rcases hf : findVma vmas addr with _ | w
    · rw [findVma_none_iff] at hf ⊢
      exact fun w hw => hf w (mem_of_mem_set_none hw)
    · obtain ⟨hw, hc⟩ := findVma_mem hf
      refine (findVma_iff hok _ _).2 ⟨mem_set_of_ne hs hw fun he => hin ?_, hc⟩
      rw [← some.inj he]
      exact hc

end Rumicos.Proc
