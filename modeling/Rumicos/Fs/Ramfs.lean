/-
Regular files of the RAM filesystem (`ramfs_read`, `ramfs_write` of `crates/fs/src/ramfs.rs`, the vnode of
`crates/fs/src/vnode.rs`).

A file is a size and up to 256 blocks of 4096 bytes. Both operations copy block by block. `ramfs_read` stops at the
size or after the last block; `ramfs_write` first appends zeroed blocks up to the cap, then copies what fits, and sets
the size to the end of the request even where the cap cut it short. The end is computed in 64 bits and wraps around. The
block frames are private to the file, so a block is its bytes here.

- `byteAt`: the byte at a file position (0 where there is no block).
-/
import Rumicos.Memory.Frames

namespace Rumicos.Fs

open Memory List Option

def ramfsBlockSize : ℕ := 4096
def ramfsMaxBlocks : ℕ := 256

/-- what kind of vnode it is: only regular files can be read and written -/
inductive VNodeType where
  | regular
  | directory
deriving DecidableEq, Repr

structure VNode where
  vtype : VNodeType
  size : ℕ
  blocks : List Page
  /-- `VNode::refcount` -/
  refcount : ℕ
  /-- history: references taken for file mappings minus those given back -/
  mapRefs : ℤ

/-- the byte at file position `pos` -/
def VNode.byteAt (vn : VNode) (pos : ℕ) : UInt8 :=
  match vn.blocks[pos / ramfsBlockSize]? with
  | some blk => blk (pos % ramfsBlockSize)
  | none => 0

/-- the copy loop of `ramfs_read`: bytes copied so far in `buf`, their number in `done` -/
def readLoop (vn : VNode) (toRead : ℕ) : ℕ → ℕ → ℕ → Page → Page × ℕ
  | 0, _, done, buf => (buf, done)
  | fuel + 1, fpos, done, buf =>
    if done < toRead then
      match vn.blocks[fpos / ramfsBlockSize]? with
      | none => (buf, done)
      | some blk =>
        let bof := fpos % ramfsBlockSize
        let chunk := min (ramfsBlockSize - bof) (toRead - done)
        readLoop vn toRead fuel (fpos + chunk) (done + chunk)
          fun i => if done ≤ i ∧ i < done + chunk then blk (bof + (i - done)) else buf i
    else (buf, done)

/-- `ramfs_read` into a zeroed buffer of `len` bytes: the buffer and the count -/
def ramfsRead (vn : VNode) (len offset : ℕ) : Page × ℕ :=
  if vn.size ≤ offset then (zeroPage, 0)
  else
    let toRead := min len (vn.size - offset)
    readLoop vn toRead toRead offset 0 zeroPage

/-- the copy loop of `ramfs_write` -/
def writeLoop (buf : List UInt8) : ℕ → ℕ → ℕ → List Page → List Page × ℕ
  | 0, _, done, blocks => (blocks, done)
  | fuel + 1, fpos, done, blocks =>
    if done < buf.length then
      match blocks[fpos / ramfsBlockSize]? with
      | none => (blocks, done)
      | some blk =>
        let bof := fpos % ramfsBlockSize
        let chunk := min (ramfsBlockSize - bof) (buf.length - done)
        writeLoop buf fuel (fpos + chunk) (done + chunk)
          (blocks.set (fpos / ramfsBlockSize)
            fun i => if bof ≤ i ∧ i < bof + chunk then buf.getD (done + (i - bof)) 0 else blk i)
    else (blocks, done)

/-- `ramfs_write`: the file afterwards and the count -/
def ramfsWrite (vn : VNode) (buf : List UInt8) (offset : ℕ) : VNode × ℕ :=
  let endPos := (offset + buf.length) % 2 ^ 64
  let need := (endPos + ramfsBlockSize - 1) / ramfsBlockSize
  let blocks := vn.blocks ++ List.replicate (min need ramfsMaxBlocks - vn.blocks.length) zeroPage
  let (blocks, done) := writeLoop buf buf.length offset 0 blocks
  ({ vn with blocks := blocks, size := max vn.size endPos }, done)

/-! ## Reading -/

theorem readLoop_spec (vn : VNode) (offset toRead fuel done : ℕ) (buf : Page) (hfuel : toRead ≤ done + fuel)
    (hdone : done ≤ toRead) (hbuf : ∀ i, buf i = if i < done then vn.byteAt (offset + i) else 0) (i : ℕ) :
    (readLoop vn toRead fuel (offset + done) done buf).1 i = if i < toRead then vn.byteAt (offset + i) else 0 := by
  induction fuel generalizing done buf with
  | zero =>
    have hd : done = toRead := by omega
    exact (hbuf i).trans (by rw [hd])
  | succ fuel ih =>
    rw [readLoop]
    by_cases hlt : done < toRead
    · rw [if_pos hlt]
      split
      · -- no block here, hence none later: every remaining byte reads 0
        rename_i hnone
        refine (hbuf i).trans ?_
        have hlen : vn.blocks.length ≤ (offset + done) / ramfsBlockSize := getElem?_eq_none_iff.1 hnone
        by_cases hi : i < done
        · rw [if_pos hi, if_pos (by omega)]
        · split_ifs with hi'
          · have hle : vn.blocks.length ≤ (offset + i) / ramfsBlockSize :=
              le_trans hlen (Nat.div_le_div_right (by omega))
            rw [VNode.byteAt, getElem?_eq_none_iff.2 hle]
          · rfl
      · rename_i blk hblk
        simp only
        set bof := (offset + done) % ramfsBlockSize with hbof
        set chunk := min (ramfsBlockSize - bof) (toRead - done) with hchunk
        have hpos : 0 < chunk := by
          have : bof < ramfsBlockSize := Nat.mod_lt _ (by decide)
          omega
        rw [Nat.add_assoc]
        refine ih (done + chunk) _ (by omega) (by omega) fun j => ?_
        by_cases hj : done ≤ j ∧ j < done + chunk
        · have hdiv : (offset + j) / ramfsBlockSize = (offset + done) / ramfsBlockSize := by
            simp only [ramfsBlockSize] at *; omega
          have hmod : (offset + j) % ramfsBlockSize = bof + (j - done) := by
            simp only [ramfsBlockSize] at *; omega
          rw [if_pos hj, if_pos hj.2, VNode.byteAt, hdiv, hblk, hmod]
        · rw [if_neg hj, hbuf]
          by_cases hj' : j < done
          · rw [if_pos hj', if_pos (by omega)]
          · rw [if_neg hj', if_neg (by omega)]
    · have hd : done = toRead := by omega
      rw [if_neg hlt]
      exact (hbuf i).trans (by rw [hd])

/-- **A read returns the bytes of the file** up to its size and zeros after it -/
theorem ramfsRead_spec (vn : VNode) (len offset i : ℕ) :
    (ramfsRead vn len offset).1 i = if i < len ∧ offset + i < vn.size then vn.byteAt (offset + i) else 0 := by
  unfold ramfsRead
  by_cases h : vn.size ≤ offset
  · rw [if_pos h, if_neg (by omega)]; rfl
  · rw [if_neg h]
    have hloop := readLoop_spec vn offset (min len (vn.size - offset)) (min len (vn.size - offset)) 0 zeroPage
      (by omega) (Nat.zero_le _) (fun j => by simp [zeroPage]) i
    refine hloop.trans ?_
    by_cases hi : i < len ∧ offset + i < vn.size
    · rw [if_pos hi, if_pos (by omega)]
    · rw [if_neg hi, if_neg (by omega)]

theorem readLoop_count (vn : VNode) (offset toRead fuel done : ℕ) (buf : Page) (hfuel : toRead ≤ done + fuel)
    (hdone : done ≤ min toRead (vn.blocks.length * ramfsBlockSize - offset)) :
    (readLoop vn toRead fuel (offset + done) done buf).2 = min toRead (vn.blocks.length * ramfsBlockSize - offset) := by
  induction fuel generalizing done buf with
  | zero =>
    rw [readLoop]
    omega
  | succ fuel ih =>
    rw [readLoop]
    by_cases hlt : done < toRead
    · rw [if_pos hlt]
      split
      · rename_i hnone
        have hlen : vn.blocks.length ≤ (offset + done) / ramfsBlockSize := getElem?_eq_none_iff.1 hnone
        rw [Nat.le_div_iff_mul_le (by decide)] at hlen
        omega
      · rename_i blk hblk
        have hbi : (offset + done) / ramfsBlockSize < vn.blocks.length := (List.getElem?_eq_some_iff.1 hblk).1
        have hmod : (offset + done) % ramfsBlockSize < ramfsBlockSize := Nat.mod_lt _ (by decide)
        have hend : (offset + done) / ramfsBlockSize * ramfsBlockSize + ramfsBlockSize ≤
            vn.blocks.length * ramfsBlockSize := by
          rw [← Nat.succ_mul]
          exact Nat.mul_le_mul_right _ hbi
        have hpos : (offset + done) / ramfsBlockSize * ramfsBlockSize + (offset + done) % ramfsBlockSize = offset + done :=
          Nat.div_add_mod' _ _
        simp only
        rw [Nat.add_assoc]
        exact ih _ _ (by omega) (by omega)
    · rw [if_neg hlt]
      omega

/-- **How many bytes a read returns** -/
theorem ramfsRead_count (vn : VNode) (len offset : ℕ) :
    (ramfsRead vn len offset).2 = min (min len (vn.size - offset)) (vn.blocks.length * ramfsBlockSize - offset) := by
  unfold ramfsRead
  by_cases h : vn.size ≤ offset
  · rw [if_pos h]
    omega
  · rw [if_neg h]
    exact readLoop_count vn offset (min len (vn.size - offset)) (min len (vn.size - offset)) 0 zeroPage
      (by omega) (by omega)

/-! ## Writing -/

/-- the byte at position `pos` of a list of blocks -/
def blockByte (blocks : List Page) (pos : ℕ) : UInt8 :=
  match blocks[pos / ramfsBlockSize]? with
  | some blk => blk (pos % ramfsBlockSize)
  | none => 0

theorem byteAt_eq (vn : VNode) (pos : ℕ) : vn.byteAt pos = blockByte vn.blocks pos := rfl

theorem blockByte_set (blocks : List Page) (bi bof chunk : ℕ) (blk : Page) (g : ℕ → UInt8)
    (hb : blocks[bi]? = some blk) (hin : bof + chunk ≤ ramfsBlockSize) (pos : ℕ) :
    blockByte (blocks.set bi fun i => if bof ≤ i ∧ i < bof + chunk then g (i - bof) else blk i) pos =
      if bi * ramfsBlockSize + bof ≤ pos ∧ pos < bi * ramfsBlockSize + bof + chunk
      then g (pos - (bi * ramfsBlockSize + bof)) else blockByte blocks pos := by
  have hlt : bi < blocks.length := (List.getElem?_eq_some_iff.1 hb).1
  by_cases hbi : bi = pos / ramfsBlockSize
  · have hsplit : pos = bi * ramfsBlockSize + pos % ramfsBlockSize := by
      rw [hbi, Nat.mul_comm]; exact (Nat.div_add_mod pos ramfsBlockSize).symm
    rw [blockByte, ← hbi, getElem?_set_self hlt]
    by_cases hc : bof ≤ pos % ramfsBlockSize ∧ pos % ramfsBlockSize < bof + chunk
    · rw [if_pos (by omega)]
      simp only [hc, and_self, if_true]
      congr 1
      omega
    · rw [if_neg (by omega), blockByte, ← hbi, hb]
      simp [hc]
  · rw [blockByte, getElem?_set_ne hbi, if_neg, blockByte]
    simp only [ramfsBlockSize] at *
    omega

theorem writeLoop_spec (buf : List UInt8) (offset fuel done : ℕ) (blocks : List Page) (hfuel : buf.length ≤ done + fuel)
    (hdone : done ≤ min buf.length (blocks.length * ramfsBlockSize - offset)) :
    (writeLoop buf fuel (offset + done) done blocks).2 = min buf.length (blocks.length * ramfsBlockSize - offset) ∧
    (writeLoop buf fuel (offset + done) done blocks).1.length = blocks.length ∧
    ∀ pos, blockByte (writeLoop buf fuel (offset + done) done blocks).1 pos =
      if offset + done ≤ pos ∧ pos < offset + min buf.length (blocks.length * ramfsBlockSize - offset) then
        buf.getD (pos - offset) 0
      else blockByte blocks pos := by
  induction fuel generalizing done blocks with
  | zero =>
    refine ⟨?_, rfl, fun pos => ?_⟩
    · rw [writeLoop]
      omega
    · rw [if_neg (by omega)]
      rfl
  | succ fuel ih =>
    by_cases hlt : done < buf.length
    · by_cases hbi : (offset + done) / ramfsBlockSize < blocks.length
      · set bof := (offset + done) % ramfsBlockSize with hbof
        set chunk := min (ramfsBlockSize - bof) (buf.length - done) with hchunk
        have hmod : bof < ramfsBlockSize := Nat.mod_lt _ (by decide)
        have hpos : (offset + done) / ramfsBlockSize * ramfsBlockSize + bof = offset + done := Nat.div_add_mod' _ _
        have hend : (offset + done) / ramfsBlockSize * ramfsBlockSize + ramfsBlockSize ≤
            blocks.length * ramfsBlockSize := by
          rw [← Nat.succ_mul]
          exact Nat.mul_le_mul_right _ hbi
        have hblk := getElem?_eq_getElem hbi
        have hset := blockByte_set blocks _ bof chunk _ (fun j => buf.getD (done + j) 0) hblk (by omega)
        rw [writeLoop, if_pos hlt, hblk]
        simp only
        rw [Nat.add_assoc offset]
        obtain ⟨h1, h2, h3⟩ := ih (done + chunk) (blocks.set ((offset + done) / ramfsBlockSize)
          fun i => if bof ≤ i ∧ i < bof + chunk then buf.getD (done + (i - bof)) 0
            else blocks[(offset + done) / ramfsBlockSize] i) (by omega) (by rw [length_set]; omega)
        rw [length_set] at h1 h2 h3
        refine ⟨h1, h2, fun pos => ?_⟩
        rw [h3 pos, hset pos, hpos]
        by_cases hlo : offset + (done + chunk) ≤ pos ∧
          pos < offset + min buf.length (blocks.length * ramfsBlockSize - offset)
        · rw [if_pos hlo, if_pos (by omega)]
        · rw [if_neg hlo]
          by_cases hc : offset + done ≤ pos ∧ pos < offset + done + chunk
          · rw [if_pos hc, if_pos (by omega)]
            congr 1
            omega
          · rw [if_neg hc, if_neg (by omega)]
      · -- no block here: the loop stops, and `done` is all that fits
        have hnone : blocks[(offset + done) / ramfsBlockSize]? = none := getElem?_eq_none_iff.2 (not_lt.1 hbi)
        rw [not_lt, Nat.le_div_iff_mul_le (by decide)] at hbi
        rw [writeLoop, if_pos hlt, hnone]
        refine ⟨?_, rfl, fun pos => ?_⟩
        · simp only
          omega
        · rw [if_neg (by omega)]
    · rw [writeLoop, if_neg hlt]
      refine ⟨?_, rfl, fun pos => ?_⟩
      · omega
      · rw [if_neg (by omega)]

theorem blockByte_append_zero (blocks : List Page) (n pos : ℕ) :
    blockByte (blocks ++ List.replicate n zeroPage) pos = blockByte blocks pos := by
  unfold blockByte
  by_cases h : pos / ramfsBlockSize < blocks.length
  · rw [getElem?_append_left h]
  · rw [getElem?_append_right (by omega), getElem?_eq_none_iff.2 (by omega : blocks.length ≤ _),
      getElem?_replicate]
    split_ifs <;> rfl

/-- the blocks after a write: as many as the request needs, up to the cap -/
def blocksFor (vn : VNode) (endPos : ℕ) : ℕ :=
  max vn.blocks.length (min ((endPos + ramfsBlockSize - 1) / ramfsBlockSize) ramfsMaxBlocks)

/-- **What a write stores**: the bytes for which there are blocks; no other byte changes. -/
theorem ramfsWrite_stored (vn : VNode) (buf : List UInt8) (offset : ℕ) :
    (ramfsWrite vn buf offset).2 =
      min buf.length (blocksFor vn ((offset + buf.length) % 2 ^ 64) * ramfsBlockSize - offset) ∧
    (ramfsWrite vn buf offset).1.blocks.length = blocksFor vn ((offset + buf.length) % 2 ^ 64) ∧
    ∀ pos, (ramfsWrite vn buf offset).1.byteAt pos =
      if offset ≤ pos ∧ pos < offset + (ramfsWrite vn buf offset).2 then buf.getD (pos - offset) 0 else vn.byteAt pos := by
  generalize he : (offset + buf.length) % 2 ^ 64 = e
  have hlen : (vn.blocks ++ List.replicate
    (min ((e + ramfsBlockSize - 1) / ramfsBlockSize) ramfsMaxBlocks - vn.blocks.length)
      zeroPage).length = blocksFor vn e := by
    rw [length_append, length_replicate, blocksFor]
    omega
  obtain ⟨h1, h2, h3⟩ := writeLoop_spec buf offset buf.length 0 (vn.blocks ++ List.replicate
    (min ((e + ramfsBlockSize - 1) / ramfsBlockSize) ramfsMaxBlocks - vn.blocks.length) zeroPage) (by omega)
      (Nat.zero_le _)
  rw [hlen] at h1 h2 h3
  have hwrite : ramfsWrite vn buf offset = ({ vn with
      blocks := (writeLoop buf buf.length offset 0 (vn.blocks ++ List.replicate
        (min ((e + ramfsBlockSize - 1) / ramfsBlockSize) ramfsMaxBlocks - vn.blocks.length) zeroPage)).1
      size := max vn.size e }, (writeLoop buf buf.length offset 0 (vn.blocks ++ List.replicate
        (min ((e + ramfsBlockSize - 1) / ramfsBlockSize) ramfsMaxBlocks - vn.blocks.length) zeroPage)).2) := by
    rw [← he]
    rfl
  rw [hwrite]
  refine ⟨h1, h2, fun pos => ?_⟩
  rw [byteAt_eq, byteAt_eq]
  rw [show writeLoop buf buf.length offset 0 = writeLoop buf buf.length (offset + 0) 0 from rfl, h3 pos, h1,
    blockByte_append_zero,
    Nat.add_zero]

theorem ramfsWrite_size (vn : VNode) (buf : List UInt8) (offset : ℕ) :
    (ramfsWrite vn buf offset).1.size = max vn.size ((offset + buf.length) % 2 ^ 64) := rfl

/-- **A write that ends at or below the 1 MiB cap** stores every byte of the buffer, changes no other byte, and
extends the size to its end. -/
theorem ramfsWrite_spec (vn : VNode) (buf : List UInt8) (offset : ℕ)
    (hcap : offset + buf.length ≤ ramfsMaxBlocks * ramfsBlockSize) :
    (ramfsWrite vn buf offset).2 = buf.length ∧
    (ramfsWrite vn buf offset).1.size = max vn.size (offset + buf.length) ∧
    ∀ pos, (ramfsWrite vn buf offset).1.byteAt pos =
      if offset ≤ pos ∧ pos < offset + buf.length then buf.getD (pos - offset) 0 else vn.byteAt pos := by
  have hmod : (offset + buf.length) % 2 ^ 64 = offset + buf.length := Nat.mod_eq_of_lt (lt_of_le_of_lt hcap (by decide))
  obtain ⟨h1, -, h3⟩ := ramfsWrite_stored vn buf offset
  have hfit : offset + buf.length ≤ blocksFor vn (offset + buf.length) * ramfsBlockSize := by
    have hroom : ∀ n e : ℕ, e ≤ 1048576 → e ≤ max n (min ((e + 4096 - 1) / 4096) 256) * 4096 := by
      omega
    exact hroom _ _ hcap
  have hcount : (ramfsWrite vn buf offset).2 = buf.length := by
    rw [h1, hmod]
    omega
  refine ⟨hcount, ?_, fun pos => ?_⟩
  · rw [ramfsWrite_size, hmod]
  · rw [h3 pos, hcount]

end Rumicos.Fs
