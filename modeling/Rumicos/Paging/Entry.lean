/-
Page-table entries of the paging crate (`crates/paging/src/entry.rs`).

A leaf entry is one 64-bit word: flag bits in [11:0] and [63], the physical frame number in [47:12] (the mask
`0xF_FFFF_FFFF` of `frame_bits` and `frame` keeps 36 of its bits). The word is the only record a user page has: the
teardown, fork and fault paths decide who owns a frame from the COW bit of this word.

- `PageFlags` carries the fact that it has no bit outside the flag positions. In the source the field is private and
  every constructor keeps it; here it is a field, so the frame number of `newPage` cannot be overwritten by flags.
- `cowReadonlyFlags`, `cowWritableFlags` (`crates/proc/src/pagefault.rs`): the two flag changes of copy-on-write, with
  what each does to every bit the kernel looks at.
-/
import Mathlib.Tactic

namespace Rumicos.Paging

open BitVec

/-- a physical frame number: the 36 bits `PhysAddr::frame_bits` keeps -/
abbrev Pfn := BitVec 36

/-! ## Flag bits -/

def bitPresent : ℕ := 0
def bitWritable : ℕ := 1
def bitUserAccessible : ℕ := 2
def bitWriteThrough : ℕ := 3
def bitCacheDisable : ℕ := 4
def bitHugePage : ℕ := 7
def bitGlobal : ℕ := 8
def bitCow : ℕ := 10
def bitNoExecute : ℕ := 63

/-- the test `(word & (1 << i)) != 0` -/
def hasBit (w : BitVec 64) (i : ℕ) : Bool := w &&& (1#64 <<< i) != 0#64

theorem hasBit_eq_getLsbD (w : BitVec 64) (i : ℕ) (hi : i < 64) : hasBit w i = w.getLsbD i := by
  rw [hasBit, ← twoPow_eq, and_twoPow]
  cases hw : w.getLsbD i with
  | false => simp
  | true =>
    have h : twoPow 64 i ≠ 0#64 := fun h => by
      have := congrArg (fun x => x.getLsbD i) h
      simp [hi] at this
    simpa using h

/-- the positions a flag may have: [11:0] and [63] -/
def flagMask : BitVec 64 := 0x8000000000000FFF#64

/-- page flags, with no bit outside the flag positions -/
@[ext]
structure PageFlags where
  bits : BitVec 64
  wf : bits &&& flagMask = bits
deriving DecidableEq

namespace PageFlags

def new : PageFlags := ⟨0#64, by decide⟩

/-- set the bits of a flag constant -/
def withBits (f : PageFlags) (m : BitVec 64) (hm : m &&& flagMask = m) : PageFlags :=
  ⟨f.bits ||| m, by rw [BitVec.and_comm, BitVec.and_or_distrib_left, BitVec.and_comm, f.wf, BitVec.and_comm, hm]⟩

/-- clear the bits of a flag constant -/
def withoutBits (f : PageFlags) (m : BitVec 64) : PageFlags :=
  ⟨f.bits &&& ~~~m, by rw [BitVec.and_assoc, BitVec.and_comm (~~~m), ← BitVec.and_assoc, f.wf]⟩

def withPresent (f : PageFlags) : PageFlags := f.withBits (1#64 <<< bitPresent) (by decide)
def withWritable (f : PageFlags) : PageFlags := f.withBits (1#64 <<< bitWritable) (by decide)
def withUserAccessible (f : PageFlags) : PageFlags := f.withBits (1#64 <<< bitUserAccessible) (by decide)
def withWriteThrough (f : PageFlags) : PageFlags := f.withBits (1#64 <<< bitWriteThrough) (by decide)
def withHugePage (f : PageFlags) : PageFlags := f.withBits (1#64 <<< bitHugePage) (by decide)
def withGlobal (f : PageFlags) : PageFlags := f.withBits (1#64 <<< bitGlobal) (by decide)
def withNoExecute (f : PageFlags) : PageFlags := f.withBits (1#64 <<< bitNoExecute) (by decide)
def withCow (f : PageFlags) : PageFlags := f.withBits (1#64 <<< bitCow) (by decide)
def withoutWritable (f : PageFlags) : PageFlags := f.withoutBits (1#64 <<< bitWritable)
def withoutCow (f : PageFlags) : PageFlags := f.withoutBits (1#64 <<< bitCow)

/-- the flag at position `i` -/
def has (f : PageFlags) (i : ℕ) : Bool := hasBit f.bits i

def isCow (f : PageFlags) : Bool := f.has bitCow

theorem has_withBits (f : PageFlags) (j : ℕ) (hj : j < 64) (hm : (1#64 <<< j) &&& flagMask = 1#64 <<< j) (i : ℕ)
    (hi : i < 64) : (f.withBits (1#64 <<< j) hm).has i = (f.has i || decide (j = i)) := by
  rw [has, has, hasBit_eq_getLsbD _ _ hi, hasBit_eq_getLsbD _ _ hi, withBits, getLsbD_or, ← twoPow_eq]
  simp [hj]

theorem has_withoutBits (f : PageFlags) (j : ℕ) (hj : j < 64) (i : ℕ) (hi : i < 64) :
    (f.withoutBits (1#64 <<< j)).has i = (f.has i && !decide (j = i)) := by
  rw [has, has, hasBit_eq_getLsbD _ _ hi, hasBit_eq_getLsbD _ _ hi, withoutBits, getLsbD_and, getLsbD_not,
    ← twoPow_eq, getLsbD_twoPow]
  simp [hi, hj]

end PageFlags

/-- `cow_writable_flags`: the flags a page gets when its copy-on-write fault is resolved -/
def cowWritableFlags (f : PageFlags) : PageFlags := f.withWritable.withoutCow

/-- `cow_readonly_flags`: the flags both copies of a page get at fork -/
def cowReadonlyFlags (f : PageFlags) : PageFlags := f.withoutWritable.withCow

theorem has_cowWritableFlags (f : PageFlags) (i : ℕ) (hi : i < 64) :
    (cowWritableFlags f).has i = ((f.has i || decide (bitWritable = i)) && !decide (bitCow = i)) := by
  rw [cowWritableFlags, PageFlags.withoutCow, PageFlags.has_withoutBits _ _ (by decide) _ hi, PageFlags.withWritable,
    PageFlags.has_withBits _ _ (by decide) _ _ hi]

theorem has_cowReadonlyFlags (f : PageFlags) (i : ℕ) (hi : i < 64) :
    (cowReadonlyFlags f).has i = ((f.has i && !decide (bitWritable = i)) || decide (bitCow = i)) := by
  rw [cowReadonlyFlags, PageFlags.withCow, PageFlags.has_withBits _ _ (by decide) _ _ hi, PageFlags.withoutWritable,
    PageFlags.has_withoutBits _ _ (by decide) _ hi]

/-! ## Entries -/

/-- `PageTableEntry` -/
@[ext]
structure PageTableEntry where
  bits : BitVec 64
deriving DecidableEq

namespace PageTableEntry

def newPage (phys : Pfn) (flags : PageFlags) : PageTableEntry := ⟨(phys.setWidth 64 <<< 12) ||| flags.bits⟩

def empty : PageTableEntry := ⟨0#64⟩

def frame (e : PageTableEntry) : Pfn := (e.bits >>> 12).setWidth 36

def flags (e : PageTableEntry) : PageFlags :=
  ⟨(e.bits &&& 0xFFF#64) ||| (e.bits &&& (1#64 <<< 63)), by
    rw [← BitVec.and_or_distrib_left, BitVec.and_assoc]; rfl⟩

def withFlags (e : PageTableEntry) (flags : PageFlags) : PageTableEntry := newPage e.frame flags

def isPresent (e : PageTableEntry) : Bool := hasBit e.bits bitPresent
def isWritable (e : PageTableEntry) : Bool := hasBit e.bits bitWritable

def isCow (e : PageTableEntry) : Bool := hasBit e.bits bitCow

theorem flagMask_getLsbD (i : ℕ) (hi : i < 64) : flagMask.getLsbD i = decide (i < 12 ∨ i = 63) := by
  revert i; decide

theorem flags_getLsbD_pfn (f : PageFlags) (i : ℕ) (h1 : 12 ≤ i) (h2 : i < 63) : f.bits.getLsbD i = false := by
  have hm : flagMask.getLsbD i = false := by
    rw [flagMask_getLsbD i (by omega), decide_eq_false]; omega
  rw [← f.wf, getLsbD_and, hm, Bool.and_false]

theorem pfn_and_flagMask (p : Pfn) : (p.setWidth 64 <<< 12) &&& flagMask = 0#64 := by
  apply eq_of_getLsbD_eq
  intro i hi
  rw [getLsbD_and, flagMask_getLsbD i hi]
  by_cases h12 : i < 12
  · simp [h12]
  · by_cases h63 : i = 63
    · subst h63; simp
    · simp [h12, h63]

/-- **An entry maps the frame it was made from**, whatever its flags -/
@[simp] theorem frame_newPage (p : Pfn) (f : PageFlags) : (newPage p f).frame = p := by
  apply eq_of_getLsbD_eq
  intro i hi
  have h1 : i < 64 := by omega
  have h2 : 12 + i < 64 := by omega
  simp only [frame, newPage, getLsbD_setWidth, getLsbD_ushiftRight, getLsbD_or,
    getLsbD_shiftLeft, flags_getLsbD_pfn f (12 + i) (by omega) (by omega), hi, h2]
  simp [h1]

theorem flags_bits (e : PageTableEntry) : e.flags.bits = e.bits &&& flagMask := by
  change (e.bits &&& 0xFFF#64) ||| (e.bits &&& (1#64 <<< 63)) = _
  rw [← and_or_distrib_left]; rfl

/-- a flag bit of the word is a flag of `flags` -/
theorem hasBit_eq_flags (e : PageTableEntry) (i : ℕ) (h : i < 12 ∨ i = 63) : hasBit e.bits i = e.flags.has i := by
  have hi : i < 64 := by omega
  rw [PageFlags.has, flags_bits, hasBit_eq_getLsbD _ _ hi, hasBit_eq_getLsbD _ _ hi, getLsbD_and,
    flagMask_getLsbD i hi]
  simp [h]

section

variable (p : Pfn) (f : PageFlags)

/-- **An entry has the flags it was made with**, whatever its frame -/
@[simp] theorem flags_newPage : (newPage p f).flags = f := by
  ext1
  rw [flags_bits, newPage, BitVec.and_comm, BitVec.and_or_distrib_left, BitVec.and_comm _ f.bits, f.wf,
    BitVec.and_comm, pfn_and_flagMask, BitVec.zero_or]

theorem hasBit_newPage (i : ℕ) (h : i < 12 ∨ i = 63) :
    hasBit (newPage p f).bits i = f.has i := by
  rw [hasBit_eq_flags _ _ h, flags_newPage]

@[simp] theorem isPresent_newPage : (newPage p f).isPresent = f.has bitPresent :=
  hasBit_newPage p f _ (by decide)

@[simp] theorem isWritable_newPage : (newPage p f).isWritable = f.has bitWritable :=
  hasBit_newPage p f _ (by decide)

@[simp] theorem isCow_newPage : (newPage p f).isCow = f.has bitCow :=
  hasBit_newPage p f _ (by decide)

end

@[simp] theorem frame_withFlags (e : PageTableEntry) (f : PageFlags) : (e.withFlags f).frame = e.frame :=
  frame_newPage _ _

/-- the entry fork leaves in both tables: same frame, present as before, read-only, COW -/
theorem withFlags_cowReadonly (e : PageTableEntry) :
    (e.withFlags (cowReadonlyFlags e.flags)).isPresent = e.isPresent ∧
      (e.withFlags (cowReadonlyFlags e.flags)).isWritable = false ∧
      (e.withFlags (cowReadonlyFlags e.flags)).isCow = true := by
  rw [withFlags, isPresent_newPage, isWritable_newPage, isCow_newPage, isPresent,
    hasBit_eq_flags _ _ (by decide : bitPresent < 12 ∨ bitPresent = 63)]
  refine ⟨?_, ?_, ?_⟩ <;> rw [has_cowReadonlyFlags _ _ (by decide)] <;> simp [bitPresent, bitWritable, bitCow]

/-- the entry a resolved copy-on-write fault leaves: present as before, writable, not COW -/
theorem newPage_cowWritable (e : PageTableEntry) (p : Pfn) :
    (newPage p (cowWritableFlags e.flags)).isPresent = e.isPresent ∧
      (newPage p (cowWritableFlags e.flags)).isWritable = true ∧
      (newPage p (cowWritableFlags e.flags)).isCow = false := by
  rw [isPresent_newPage, isWritable_newPage, isCow_newPage, isPresent,
    hasBit_eq_flags _ _ (by decide : bitPresent < 12 ∨ bitPresent = 63)]
  refine ⟨?_, ?_, ?_⟩ <;> rw [has_cowWritableFlags _ _ (by decide)] <;> simp [bitPresent, bitWritable, bitCow]

end PageTableEntry

end Rumicos.Paging
