/-
What a ramfs file stores over whole runs (`ramfs_read`, `ramfs_write`, `ramfs_truncate` of `crates/fs/src/ramfs.rs`).

The size is set to the end of the request, whatever was copied, and a truncation changes nothing but the size: the
blocks stay, with their bytes.

- `SizeLaw`: the size is the largest `offset + n` of the writes that returned `n > 0`, and every read returns as many
  bytes as the size says.
- `ReadLaw`: a read returns the bytes written since they were last cut off, and zeros where there are none.

Offsets are 64-bit numbers, and no buffer is longer than half the address space. A read changes nothing, so both laws
speak of every read in every state.
-/
import Rumicos.Fs.Ramfs
import Rumicos.Lib.Run

namespace Rumicos.Fs

open Memory Lib List Option

/-! ## Operations -/

/-- the arguments of a write -/
structure Write where
  offset : ℕ
  buf : List UInt8
  offset_lt : offset < 2 ^ 64
  buf_lt : buf.length < 2 ^ 63

/-- `offset as usize + buf.len()` -/
def Write.endPos (w : Write) : ℕ := (w.offset + w.buf.length) % 2 ^ 64

def ramfsTruncate (vn : VNode) (newSize : ℕ) : VNode := { vn with size := newSize }

/-- a new file -/
def VNode.empty : VNode := ⟨.regular, 0, [], 1, 0⟩

/-- 1 MiB -/
def ramfsMaxSize : ℕ := ramfsMaxBlocks * ramfsBlockSize

theorem Write.endPos_cases (w : Write) :
    w.offset + w.buf.length < 2 ^ 64 ∧ w.endPos = w.offset + w.buf.length ∨
      2 ^ 64 ≤ w.offset + w.buf.length ∧ w.endPos + 2 ^ 64 = w.offset + w.buf.length ∧ w.endPos < 2 ^ 63 := by
  have h1 := w.offset_lt
  have h2 := w.buf_lt
  unfold Write.endPos
  omega

/-- the file is no larger than its blocks, and these are at most 256 -/
structure Stored (vn : VNode) : Prop where
  size : vn.size ≤ vn.blocks.length * ramfsBlockSize
  blocks : vn.blocks.length ≤ ramfsMaxBlocks

theorem stored_empty : Stored VNode.empty := ⟨Nat.zero_le _, Nat.zero_le _⟩

theorem blocks_write (vn : VNode) (w : Write) :
    (ramfsWrite vn w.buf w.offset).1.blocks.length = blocksFor vn w.endPos := (ramfsWrite_stored vn w.buf w.offset).2.1

theorem count_write (vn : VNode) (w : Write) :
    (ramfsWrite vn w.buf w.offset).2 = min w.buf.length (blocksFor vn w.endPos * ramfsBlockSize - w.offset) :=
  (ramfsWrite_stored vn w.buf w.offset).1

theorem size_write (vn : VNode) (w : Write) : (ramfsWrite vn w.buf w.offset).1.size = max vn.size w.endPos := rfl

variable {vn : VNode} {w : Write} {pos : ℕ}

theorem blocksFor_le (h : Stored vn) (e : ℕ) : blocksFor vn e ≤ ramfsMaxBlocks := by
  have := h.blocks
  unfold blocksFor
  omega

theorem le_blocksFor (vn : VNode) {e : ℕ} (he : e ≤ ramfsMaxSize) : e ≤ blocksFor vn e * ramfsBlockSize := by
  have hroom : ∀ n e : ℕ, e ≤ 1048576 → e ≤ max n (min ((e + 4096 - 1) / 4096) 256) * 4096 := by
    omega
  exact hroom _ _ he

theorem stored_write (h : Stored vn) (he : w.endPos ≤ ramfsMaxSize) : Stored (ramfsWrite vn w.buf w.offset).1 := by
  constructor
  · rw [blocks_write]
    apply Nat.max_le.2
    constructor
    · have hle : vn.blocks.length ≤ blocksFor vn w.endPos := Nat.le_max_left _ _
      exact h.size.trans (Nat.mul_le_mul_right _ hle)
    · exact le_blocksFor vn he
  · rw [blocks_write]
    exact blocksFor_le h _

theorem short_read (h : vn.blocks.length * ramfsBlockSize < vn.size) :
    (ramfsRead vn 1 (vn.blocks.length * ramfsBlockSize)).2 ≠ min 1 (vn.size - vn.blocks.length * ramfsBlockSize) := by
  rw [ramfsRead_count]
  omega

theorem full_read (h : Stored vn) (len offset : ℕ) : (ramfsRead vn len offset).2 = min len (vn.size - offset) := by
  have := h.size
  rw [ramfsRead_count]
  omega

/-! ## The size -/

structure Sized where
  file : VNode
  /-- history: the largest `offset + n` of the writes that returned `n > 0` -/
  high : ℕ

def Sized.new : Sized := ⟨VNode.empty, 0⟩

def Sized.write (s : Sized) (w : Write) : Option Sized :=
  let r := ramfsWrite s.file w.buf w.offset
  some ⟨r.1, if 0 < r.2 then max s.high (w.offset + r.2) else s.high⟩

/-- **The law of the size.** -/
structure SizeLaw (s : Sized) : Prop where
  size : s.file.size = s.high
  read : ∀ len offset, (ramfsRead s.file len offset).2 = min len (s.file.size - offset)

/-- **The condition** on a write -/
def SizeOk (s : Sized) (w : Write) : Prop :=
  w.offset + w.buf.length ≤ ramfsMaxSize ∧ (0 < w.buf.length ∨ w.offset ≤ s.file.size) ∨
    2 ^ 64 ≤ w.offset + w.buf.length ∧ w.offset + w.buf.length - 2 ^ 64 ≤ s.file.size

structure Sized.Inv (s : Sized) : Prop where
  stored : Stored s.file
  size : s.file.size = s.high

theorem Sized.Inv.law {s : Sized} (h : s.Inv) : SizeLaw s := ⟨h.size, full_read h.stored⟩

theorem size_le_max (h : Stored vn) : vn.size ≤ ramfsMaxSize :=
  h.size.trans (Nat.mul_le_mul_right _ h.blocks)

theorem sized_step (s : Sized) (w : Write) (t : Sized) (h : s.Inv) (hok : SizeOk s w) (hstep : s.write w = some t) :
    t.Inv := by
  obtain rfl : _ = t := some.inj hstep
  have hmax := size_le_max h.stored
  have hcap : ramfsMaxSize < 2 ^ 63 := by decide
  have hcount := count_write s.file w
  have hsize := size_write s.file w
  have hhigh := h.size
  rcases hok with ⟨hle, hgap⟩ | ⟨hwrap, hin⟩
  · have he : w.endPos = w.offset + w.buf.length := Nat.mod_eq_of_lt (by omega)
    have hroom := le_blocksFor s.file (he.trans_le hle)
    refine ⟨stored_write h.stored (he.trans_le hle), ?_⟩
    simp only
    split_ifs with hpos <;> omega
  · -- the end wraps around: nothing is stored, and the size stays
    have he : w.endPos + 2 ^ 64 = w.offset + w.buf.length := by
      rcases w.endPos_cases with ⟨hlt, -⟩ | ⟨-, heq, -⟩ <;> omega
    have hbuf := w.buf_lt
    have hblocks : blocksFor s.file w.endPos * ramfsBlockSize ≤ ramfsMaxSize :=
      Nat.mul_le_mul_right _ (blocksFor_le h.stored _)
    refine ⟨stored_write h.stored (by omega), ?_⟩
    simp only
    rw [if_neg (by omega)]
    omega

theorem sized_bad (s : Sized) (w : Write) (h : s.Inv) (hbad : ¬ SizeOk s w) : ∃ t, s.write w = some t ∧ ¬ SizeLaw t := by
  refine ⟨_, rfl, fun hlaw => hbad ?_⟩
  have hlaw := hlaw.size
  have hmax := size_le_max h.stored
  have hbuf := w.buf_lt
  have hcount := count_write s.file w
  have hsize := size_write s.file w
  have hhigh := h.size
  have hblocks : blocksFor s.file w.endPos * ramfsBlockSize ≤ ramfsMaxSize :=
    Nat.mul_le_mul_right _ (blocksFor_le h.stored _)
  simp only at hlaw
  unfold SizeOk
  rcases w.endPos_cases with ⟨hlt, he⟩ | ⟨hwrap, he, -⟩
  · split_ifs at hlaw with hpos <;> omega
  · split_ifs at hlaw with hpos <;> omega

/-- **The size of a file is what was written.** Along every run of writes from an empty file, the law holds in every
state if and only if every write meets the condition. -/
theorem size_law_iff (ws : List Write) :
    (∀ k t, (ws.take k).foldlM Sized.write Sized.new = some t → SizeLaw t) ↔ Meets Sized.write SizeOk Sized.new ws :=
  (meets_iff_reached Sized.Inv sized_step sized_bad (fun _ h => h.law) ⟨stored_empty, rfl⟩).symm

/-- **A size without bytes.** One byte at 1 MiB: the write returns 0, the size becomes 1 MiB + 1, and the byte there
cannot be read. -/
theorem size_past_blocks :
    ∃ t, [⟨1048576, [7], by decide, by decide⟩].foldlM Sized.write Sized.new = some t ∧ t.high = 0 ∧
    t.file.size = 1048577 ∧
      (ramfsRead t.file 1 1048576).2 = 0 ∧ ¬ SizeLaw t := by
  have hrun : [⟨1048576, [7], by decide, by decide⟩].foldlM Sized.write Sized.new =
      some ⟨(ramfsWrite VNode.empty [7] 1048576).1, if 0 < (ramfsWrite VNode.empty [7] 1048576).2 then
        max 0 (1048576 + (ramfsWrite VNode.empty [7] 1048576).2) else 0⟩ := rfl
  have hcount : (ramfsWrite VNode.empty [7] 1048576).2 = 0 := by decide +kernel
  have hsize : (ramfsWrite VNode.empty [7] 1048576).1.size = 1048577 := by decide +kernel
  have hread : (ramfsRead (ramfsWrite VNode.empty [7] 1048576).1 1 1048576).2 = 0 := by decide +kernel
  rw [hcount] at hrun
  refine ⟨_, hrun, rfl, hsize, hread, fun hlaw => ?_⟩
  have hmin := hread.symm.trans (hlaw.read 1 1048576)
  rw [hsize] at hmin
  cases hmin

/-! ## The bytes -/

inductive FileOp where
  | write (w : Write)
  | truncate (newSize : Fin (2 ^ 64))

structure Content where
  file : VNode
  /-- history: the last byte written at a position since it was last cut off, zero if there is none -/
  bytes : ℕ → UInt8

def Content.new : Content := ⟨VNode.empty, fun _ => 0⟩

def Content.step (s : Content) : FileOp → Option Content
  | .write w =>
    let r := ramfsWrite s.file w.buf w.offset
    some ⟨r.1, fun pos => if w.offset ≤ pos ∧ pos < w.offset + r.2 then w.buf.getD (pos - w.offset) 0 else s.bytes pos⟩
  | .truncate n => some ⟨ramfsTruncate s.file n, fun pos => if pos < n then s.bytes pos else 0⟩

/-- **The law of the bytes**: a read returns what was written, up to the size -/
structure ReadLaw (s : Content) : Prop where
  count : ∀ len offset, (ramfsRead s.file len offset).2 = min len (s.file.size - offset)
  bytes : ∀ len offset i, i < (ramfsRead s.file len offset).2 → (ramfsRead s.file len offset).1 i = s.bytes (offset + i)

/-- **The condition**: the step does not make the file longer than its blocks can be, and the blocks hold no byte but
zeros between the old size and what is written -/
def ContentOk (s : Content) : FileOp → Prop
  | .write w =>
    w.endPos ≤ ramfsMaxSize ∧ ∀ pos, s.file.size ≤ pos → pos < w.endPos → pos < w.offset → s.file.byteAt pos = 0
  | .truncate n =>
    n ≤ s.file.blocks.length * ramfsBlockSize ∧ ∀ pos, s.file.size ≤ pos → pos < n → s.file.byteAt pos = 0

structure Content.Inv (s : Content) : Prop where
  stored : Stored s.file
  bytes : ∀ pos, pos < s.file.size → s.file.byteAt pos = s.bytes pos
  none : ∀ pos, s.file.size ≤ pos → s.bytes pos = 0

variable {s : Content}

theorem Content.Inv.law (h : s.Inv) : ReadLaw s := by
  refine ⟨full_read h.stored, fun len offset i hi => ?_⟩
  rw [full_read h.stored] at hi
  rw [ramfsRead_spec, if_pos (by omega)]
  exact h.bytes _ (by omega)

theorem ReadLaw.byteAt (h : ReadLaw s) (hpos : pos < s.file.size) : s.file.byteAt pos = s.bytes pos := by
  have hcount := h.count 1 pos
  have hbyte := h.bytes 1 pos 0 (by omega)
  rw [ramfsRead_spec, if_pos (by omega)] at hbyte
  exact hbyte

theorem ReadLaw.size_le (h : ReadLaw s) : s.file.size ≤ s.file.blocks.length * ramfsBlockSize := by
  by_contra hlt
  exact short_read (not_le.1 hlt) (h.count _ _)

theorem byteAt_write (vn : VNode) (w : Write) (pos : ℕ) :
    (ramfsWrite vn w.buf w.offset).1.byteAt pos =
      if w.offset ≤ pos ∧ pos < w.offset + (ramfsWrite vn w.buf w.offset).2 then
      w.buf.getD (pos - w.offset) 0 else vn.byteAt pos :=
  (ramfsWrite_stored vn w.buf w.offset).2.2 pos

theorem stored_to_end (he : w.endPos ≤ ramfsMaxSize) (hlo : w.offset ≤ pos) (hhi : pos < w.endPos) :
    pos < w.offset + (ramfsWrite vn w.buf w.offset).2 := by
  have hroom := le_blocksFor vn he
  rw [count_write]
  rcases w.endPos_cases with ⟨-, heq⟩ | ⟨-, heq, -⟩ <;> omega

theorem stored_lt_size (h : Stored vn) (hhi : pos < w.offset + (ramfsWrite vn w.buf w.offset).2) (hlo : w.offset ≤ pos) :
    pos < (ramfsWrite vn w.buf w.offset).1.size := by
  have hcap : ramfsMaxSize < 2 ^ 63 := by decide
  have hbuf := w.buf_lt
  have hblocks : blocksFor vn w.endPos * ramfsBlockSize ≤ ramfsMaxSize := Nat.mul_le_mul_right _ (blocksFor_le h _)
  rw [count_write] at hhi
  rw [size_write]
  rcases w.endPos_cases with ⟨-, heq⟩ | ⟨-, heq, -⟩ <;> omega

theorem content_write (h : s.Inv) (hok : ContentOk s (.write w)) {t : Content} (hstep : s.step (.write w) = some t) :
    t.Inv := by
  obtain rfl : _ = t := some.inj hstep
  obtain ⟨he, hgap⟩ := hok
  refine ⟨stored_write h.stored he, fun pos hpos => ?_, fun pos hpos => ?_⟩
  · simp only
    rw [byteAt_write]
    split_ifs with hin
    · rfl
    · by_cases hold : pos < s.file.size
      · exact h.bytes pos hold
      · -- between the old size and the write
        have hend : pos < w.endPos := by
          simp only [size_write] at hpos
          omega
        have hbefore : pos < w.offset := by
          by_contra hge
          exact hin ⟨not_lt.1 hge, stored_to_end he (not_lt.1 hge) hend⟩
        rw [hgap pos (not_lt.1 hold) hend hbefore, h.none pos (not_lt.1 hold)]
  · simp only at hpos ⊢
    rw [if_neg fun hin => (stored_lt_size h.stored hin.2 hin.1).not_ge hpos]
    apply h.none
    rw [size_write] at hpos
    omega

theorem content_truncate (h : s.Inv) {n : Fin (2 ^ 64)} (hok : ContentOk s (.truncate n)) {t : Content}
    (hstep : s.step (.truncate n) = some t) : t.Inv := by
  obtain rfl : _ = t := some.inj hstep
  obtain ⟨hle, hgap⟩ := hok
  refine ⟨⟨hle, h.stored.blocks⟩, fun pos hpos => ?_, fun pos hpos => if_neg (not_lt.2 hpos)⟩
  have hpos : pos < n := hpos
  have hbyte : (ramfsTruncate s.file n).byteAt pos = s.file.byteAt pos := rfl
  simp only
  rw [hbyte, if_pos hpos]
  by_cases hold : pos < s.file.size
  · exact h.bytes pos hold
  · rw [hgap pos (not_lt.1 hold) hpos, h.none pos (not_lt.1 hold)]

theorem content_step (s : Content) (a : FileOp) (t : Content) (h : s.Inv) (hok : ContentOk s a)
    (hstep : s.step a = some t) : t.Inv := by
  cases a with
  | write w => exact content_write h hok hstep
  | truncate n => exact content_truncate h hok hstep

theorem content_bad (s : Content) (a : FileOp) (h : s.Inv) (hbad : ¬ ContentOk s a) : ∃ t, s.step a = some t ∧
    ¬ ReadLaw t := by
  cases a with
  | write w =>
    refine ⟨_, rfl, fun hlaw => hbad ?_⟩
    have hsize := hlaw.size_le
    rw [size_write, blocks_write] at hsize
    have hblocks : blocksFor s.file w.endPos * ramfsBlockSize ≤ ramfsMaxSize :=
      Nat.mul_le_mul_right _ (blocksFor_le h.stored _)
    refine ⟨by omega, fun pos hold hend hbefore => ?_⟩
    have hlt : pos < (ramfsWrite s.file w.buf w.offset).1.size := by
      rw [size_write]
      omega
    have hbyte := hlaw.byteAt hlt
    simp only at hbyte
    rw [byteAt_write, if_neg (by omega), if_neg (by omega)] at hbyte
    exact hbyte.trans (h.none pos hold)
  | truncate n =>
    refine ⟨_, rfl, fun hlaw => hbad ?_⟩
    refine ⟨hlaw.size_le, fun pos hold hend => ?_⟩
    have hlt : pos < (ramfsTruncate s.file n).size := hend
    have hbyte := hlaw.byteAt hlt
    simp only at hbyte
    rw [if_pos hend, h.none pos hold] at hbyte
    exact hbyte

/-- **What is read is what was written.** Along every run of writes and truncations from an empty file, the law holds in
every state if and only if every step meets the condition. -/
theorem read_law_iff (ops : List FileOp) :
    (∀ k t, (ops.take k).foldlM Content.step Content.new = some t → ReadLaw t) ↔
      Meets Content.step ContentOk Content.new ops :=
  (meets_iff_reached Content.Inv content_step content_bad (fun _ h => h.law)
    ⟨stored_empty, fun _ hpos => absurd hpos (Nat.not_lt_zero _), fun _ _ => rfl⟩).symm

/-- a byte at position 0, a truncation, and a byte at position 1 -/
def writtenAgain : List FileOp :=
  [.write ⟨0, [65], by decide, by decide⟩, .truncate 0, .write ⟨1, [66], by decide, by decide⟩]

/-- **A truncated byte returns.** The file is truncated and grows again: position 0 reads as before the truncation. -/
theorem truncated_byte_returns :
    ∃ t, writtenAgain.foldlM Content.step Content.new = some t ∧ t.bytes 0 = 0 ∧ (ramfsRead t.file 1 0).1 0 = 65 ∧
    ¬ ReadLaw t := by
  refine exists_of_check (fun t => t.bytes 0 = 0 ∧ (ramfsRead t.file 1 0).1 0 = 65 ∧ (ramfsRead t.file 1 0).2 = 1)
    (by decide +kernel)
    fun t _ ⟨hbytes, hread, hcount⟩ => ⟨hbytes, hread, fun hlaw => ?_⟩
  have hbyte := hlaw.bytes 1 0 0 (by rw [hcount]; exact Nat.one_pos)
  rw [hread, hbytes] at hbyte
  cases hbyte

end Rumicos.Fs
