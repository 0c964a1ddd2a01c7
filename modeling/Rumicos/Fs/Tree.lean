/-
Paths and directories (`crates/fs/src/dentry.rs`, `ramfs.rs`, and `split_parent` of `syscall.rs`).

A vnode is named by its number. A ramfs directory is one frame of up to 128 entries, filled from the front and made when
the first entry comes; a name is stored in at most 22 bytes. Only ramfs directories can be looked up in or created in.
Names and paths are bytes, and `/` is an ASCII byte, so splitting bytes is splitting the text.

- `pathLookup`, `splitParent`: absolute paths, component by component.
- `Tree.create`, `Tree.truncate`: the two changes `open` makes. A full directory drops the entry and still returns the
  vnode; truncation leaves the blocks where they are.
-/
import Rumicos.Memory.Frames

namespace Rumicos.Fs

open Memory

/-! ## Paths -/

abbrev Name := List UInt8

/-- `/` -/
def slash : UInt8 := 0x2f

def utf8Cont (b : UInt8) : Bool := 0x80 ≤ b && b ≤ 0xbf

/-- `core::str::from_utf8` succeeds -/
def utf8Valid : List UInt8 → Bool
  | [] => true
  | a :: bs =>
    if a < 0x80 then utf8Valid bs
    else
      match bs with
      | [] => false
      | b :: cs =>
        if 0xc2 ≤ a && a ≤ 0xdf then utf8Cont b && utf8Valid cs
        else
          match cs with
          | [] => false
          | c :: ds =>
            if 0xe0 ≤ a && a ≤ 0xef then
              -- no overlong form, no surrogate
              utf8Cont b && (a != 0xe0 || 0xa0 ≤ b) && (a != 0xed || b ≤ 0x9f) && utf8Cont c && utf8Valid ds
            else
              match ds with
              | [] => false
              | d :: es =>
                0xf0 ≤ a && a ≤ 0xf4 && utf8Cont b && (a != 0xf0 || 0x90 ≤ b) && (a != 0xf4 || b ≤ 0x8f) && utf8Cont c &&
                  utf8Cont d && utf8Valid es

/-- the components of a path; empty ones are skipped -/
def components (path : Name) : List Name := (path.splitOn slash).filter (· ≠ [])

/-- `split_parent`: the directory part and the last component -/
def splitParent (path : Name) : Option (Name × Name) :=
  if path.head? ≠ some slash ∨ path.getLast? = some slash then none
  else
    let base := (path.reverse.takeWhile (· ≠ slash)).reverse
    let parent := path.take (path.length - base.length - 1)
    if base = [] then none else some (if parent = [] then [slash] else parent, base)

/-! ## Vnodes -/

inductive Node where
  /-- a ramfs file: its size and its blocks -/
  | file (size : ℕ) (blocks : List Page)
  /-- a ramfs directory: has it a frame for its entries, and the entries in order -/
  | dir (page : Bool) (children : List (Name × ℕ))
  /-- a device or a pipe end: lookup, create and truncate do nothing -/
  | other

/-- `VNodeType`, of the vnodes that ramfs makes -/
inductive NewNode where
  | regular
  | directory
deriving DecidableEq

def NewNode.node : NewNode → Node
  | .regular => .file 0 []
  | .directory => .dir false []

structure Tree where
  nodes : List Node
  root : ℕ
  freeFrames : ℕ

def Tree.lookup (t : Tree) (v : ℕ) (name : Name) : Option ℕ :=
  match t.nodes[v]? with
  | some (.dir _ children) => (children.find? fun x => x.1 = name).map Prod.snd
  | _ => none

def Tree.pathLookup (t : Tree) (path : Name) : Option ℕ :=
  if path.head? = some slash then (components path).foldlM t.lookup t.root else none

def ramfsMaxChildren : ℕ := 128

def ramfsNameLen : ℕ := 22

/-- `alloc_frame`, `n` times; running out of memory is a panic -/
def Tree.take (t : Tree) (n : ℕ) : Option Tree :=
  if n ≤ t.freeFrames then some { t with freeFrames := t.freeFrames - n } else none

/-- `ramfs_dir_add_child` -/
def Tree.addChild (t : Tree) (dir : ℕ) (name : Name) (child : ℕ) : Option Tree :=
  match t.nodes[dir]? with
  | some (.dir page children) =>
    if ramfsMaxChildren ≤ children.length then some t
    else do
      let t ← t.take (if page then 0 else 1)
      return { t with nodes := t.nodes.set dir (.dir true (children ++ [(name.take ramfsNameLen, child)])) }
  | _ => some t

/-- `ops.create`: an inode and a vnode, then the entry; not in a directory it is the no-op stub -/
def Tree.create (t : Tree) (dir : ℕ) (name : Name) (kind : NewNode) : Option (Tree × Option ℕ) :=
  match t.nodes[dir]? with
  | some (.dir _ _) => do
    let t ← t.take 2
    let child := t.nodes.length
    let t ← { t with nodes := t.nodes ++ [kind.node] }.addChild dir name child
    return (t, some child)
  | _ => some (t, none)

/-- `ops.truncate` to length 0 -/
def Tree.truncate (t : Tree) (v : ℕ) : Tree :=
  match t.nodes[v]? with
  | some (.file _ blocks) => { t with nodes := t.nodes.set v (.file 0 blocks) }
  | _ => t

/-! ## What they leave -/

def Tree.isDir (t : Tree) (v : ℕ) : Bool :=
  match t.nodes[v]? with
  | some (.dir _ _) => true
  | _ => false

/-- the frame that the first entry of a directory takes -/
def entryFrames : Option Node → ℕ
  | some (.dir page children) => if ramfsMaxChildren ≤ children.length ∨ page = true then 0 else 1
  | _ => 0

/-- the frames a creation in directory `v` takes: the inode, the vnode, and that of a first entry -/
def Tree.createFrames (t : Tree) (v : ℕ) : ℕ := 2 + entryFrames t.nodes[v]?

theorem Tree.addChild_dir (t : Tree) {dir : ℕ} {page : Bool} {children : List (Name × ℕ)}
    (hd : t.nodes[dir]? = some (.dir page children)) (name : Name) (child : ℕ) :
    (entryFrames t.nodes[dir]? ≤ t.freeFrames → ∃ t', t.addChild dir name child = some t' ∧
      t'.freeFrames + entryFrames t.nodes[dir]? = t.freeFrames) ∧
    (t.freeFrames < entryFrames t.nodes[dir]? → t.addChild dir name child = none) := by
  simp only [addChild, entryFrames, hd, take]
  by_cases hfull : ramfsMaxChildren ≤ children.length
  · simp only [hfull]
    exact ⟨fun _ => ⟨t, rfl, rfl⟩, fun h => absurd h (Nat.not_lt_zero _)⟩
  cases page with
  | true =>
    simp only [hfull]
    exact ⟨fun _ => ⟨_, rfl, rfl⟩, fun h => absurd h (Nat.not_lt_zero _)⟩
  | false =>
    simp only [hfull, or_self, Bool.false_eq_true, if_false]
    constructor
    · intro h
      simp only [if_pos h]
      exact ⟨_, rfl, Nat.sub_add_cancel h⟩
    · intro h
      simp [if_neg (Nat.not_le.2 h)]

/-- a creation in a directory returns a vnode when the frames are there, and takes them -/
theorem Tree.create_dir {t : Tree} {dir : ℕ} (h : t.isDir dir = true) (name : Name) (kind : NewNode) :
    (t.createFrames dir ≤ t.freeFrames → ∃ t', t.create dir name kind = some (t', some t.nodes.length) ∧
      t'.freeFrames + t.createFrames dir = t.freeFrames) ∧
    (t.freeFrames < t.createFrames dir → t.create dir name kind = none) := by
  cases hd : t.nodes[dir]? with
  | none => simp [isDir, hd] at h
  | some node =>
    cases node with
    | file size blocks | other => simp [isDir, hd] at h
    | dir page children =>
      have hlt : dir < t.nodes.length := (List.getElem?_eq_some_iff.1 hd).1
      have happend : (t.nodes ++ [kind.node])[dir]? = some (.dir page children) := by
        rw [List.getElem?_append_left hlt, hd]
      obtain ⟨hroom, hnone⟩ := addChild_dir ⟨t.nodes ++ [kind.node], t.root, t.freeFrames - 2⟩ happend name t.nodes.length
      dsimp only at hroom hnone
      rw [happend] at hroom hnone
      simp only [create, createFrames, hd, take]
      by_cases h2 : 2 ≤ t.freeFrames
      · simp only [if_pos h2, Option.bind_eq_bind, Option.bind_some]
        constructor
        · intro hle
          obtain ⟨t', ht', hfree⟩ := hroom (by omega)
          rw [ht']
          exact ⟨t', rfl, by omega⟩
        · intro hlt
          rw [hnone (by omega)]
          rfl
      · simp only [if_neg h2, Option.bind_eq_bind, Option.bind_none]
        exact ⟨fun hle => absurd hle (by omega), fun _ => trivial⟩

theorem Tree.create_not_dir {t : Tree} {dir : ℕ} (h : t.isDir dir = false) (name : Name) (kind : NewNode) :
    t.create dir name kind = some (t, none) := by
  unfold isDir at h
  unfold create
  split
  · rename_i hd
    rw [hd] at h
    cases h
  · rfl

end Rumicos.Fs
