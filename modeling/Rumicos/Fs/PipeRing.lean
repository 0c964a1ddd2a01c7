/-
The ring buffer of a pipe (`PipeRing` of `crates/fs/src/pipe.rs`).

Two cursors and a length over a frame of 4096 bytes. A `PipeRing` carries what its operations keep: the write cursor is
`len` cells after the read cursor. `contents` is what the ring holds, in order.
-/
import Rumicos.Lib.Window

namespace Rumicos.Fs

open Lib

def pipeBufSize : ℕ := 4096

structure PipeRing where
  readPos : ℕ
  writePos : ℕ
  len : ℕ
  len_le : len ≤ pipeBufSize
  writePos_eq : writePos = (readPos + len) % pipeBufSize

/-- the data frame -/
abbrev PipeData := ℕ → UInt8

namespace PipeRing

def new : PipeRing := ⟨0, 0, 0, by decide, rfl⟩

def isEmpty (r : PipeRing) : Bool := r.len == 0

def isFull (r : PipeRing) : Bool := r.len == pipeBufSize

/-- the bytes in the ring, oldest first -/
def contents (r : PipeRing) (data : PipeData) : List UInt8 := window pipeBufSize data r.readPos r.len

/-- `read_into` a buffer of `cap` bytes: the bytes copied, and the ring -/
def readInto (r : PipeRing) (data : PipeData) (cap : ℕ) : List UInt8 × PipeRing :=
  let n := min cap r.len
  (window pipeBufSize data r.readPos n,
    ⟨(r.readPos + n) % pipeBufSize, r.writePos, r.len - n, (Nat.sub_le _ _).trans r.len_le, by
      rw [r.writePos_eq, Nat.mod_add_mod, Nat.add_assoc, Nat.add_sub_cancel' (min_le_right _ _)]⟩)

/-- `write_from` a buffer: the number of bytes copied, the data and the ring -/
def writeFrom (r : PipeRing) (data : PipeData) (src : List UInt8) : ℕ × PipeData × PipeRing :=
  let space := pipeBufSize - r.len
  let n := min src.length space
  (n, store pipeBufSize data r.writePos (src.take n),
    ⟨r.readPos, (r.writePos + n) % pipeBufSize, r.len + n, by
      have := r.len_le
      omega, by
      rw [r.writePos_eq, Nat.mod_add_mod, Nat.add_assoc]⟩)

theorem length_contents (r : PipeRing) (data : PipeData) : (r.contents data).length = r.len := length_window _ _ _

/-- a read takes a front part of the contents, all of it or `cap` bytes -/
theorem readInto_spec (r : PipeRing) (data : PipeData) (cap : ℕ) :
    r.contents data = (r.readInto data cap).1 ++ (r.readInto data cap).2.contents data ∧
      (r.readInto data cap).1.length = min cap r.len := by
  constructor
  · have hlen : r.len = min cap r.len + (r.len - min cap r.len) := by omega
    calc r.contents data = window pipeBufSize data r.readPos (min cap r.len + (r.len - min cap r.len)) := by
          rw [← hlen]
          rfl
      _ = window pipeBufSize data r.readPos (min cap r.len) ++
            window pipeBufSize data (r.readPos + min cap r.len) (r.len - min cap r.len) := window_add _ _ _ _
      _ = _ := by
          rw [← window_mod data (r.readPos + min cap r.len)]
          rfl
  · exact length_window _ _ _

theorem writeFrom_spec (r : PipeRing) (data : PipeData) (src : List UInt8) :
    (r.writeFrom data src).2.2.contents (r.writeFrom data src).2.1 =
        r.contents data ++ src.take (r.writeFrom data src).1 ∧
      (r.writeFrom data src).1 = min src.length (pipeBufSize - r.len) := by
  refine ⟨?_, rfl⟩
  have hle := r.len_le
  have hlen : (src.take (min src.length (pipeBufSize - r.len))).length = min src.length (pipeBufSize - r.len) := by
    rw [List.length_take]
    omega
  have hfit : r.len + (src.take (min src.length (pipeBufSize - r.len))).length ≤ pipeBufSize := by
    omega
  have hstore := window_store data r.readPos r.len (src.take (min src.length (pipeBufSize - r.len))) hfit
  rw [hlen, ← store_mod, ← r.writePos_eq] at hstore
  exact hstore

end PipeRing

end Rumicos.Fs
