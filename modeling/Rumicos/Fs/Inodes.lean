/-
The ramfs tree as inodes (`crates/fs/src/ramfs.rs`, `dentry.rs`, `cpio.rs` from a path on, `split_parent` and `sys_open`).

Every ramfs vnode has an inode with a type, a size, blocks and entries; the type decides which operations its vnode
offers, but `ramfs_create_child` and `ramfs_write_file`, which the unpacker calls, do not look at it. Devices have no
inode (`fs_data` is 0). Frames are not counted here: running out of them is a panic.

- `Files.lookup`, `Files.walk`, `Files.pathLookup`: names are compared in full.
- `Inode.addChild`: a name is stored in 22 bytes, and a full directory drops the entry.
- `Files.createChild`: a new vnode, returned whether or not its entry was stored.
- `Files.lookupOrCreate`, `Files.ensureDir`, `Files.ensurePath`: the unpacker's way down a path.
- `Grows`: what is found stays where it is. `Created.lookup`: when a new entry is found.
-/
import Rumicos.Fs.Ramfs
import Rumicos.Fs.Tree

namespace Rumicos.Fs

open Memory List Option

/-! ## Inodes -/

structure Inode where
  vtype : VNodeType
  size : ℕ
  blocks : List Page
  children : List (Name × ℕ)

/-- `alloc_inode` -/
def Inode.new (vtype : VNodeType) : Inode := ⟨vtype, 0, [], []⟩

inductive Vnode where
  | ramfs (ino : Inode)
  | device

/-- the vnodes, named by their position, and the root -/
structure Files where
  vnodes : List Vnode
  root : ℕ

/-- an empty root directory -/
def Files.new : Files := ⟨[.ramfs (.new .directory)], 0⟩

def Files.inode (fs : Files) (v : ℕ) : Option Inode :=
  match fs.vnodes[v]? with
  | some (.ramfs ino) => some ino
  | _ => none

def Files.setInode (fs : Files) (v : ℕ) (ino : Inode) : Files := { fs with vnodes := fs.vnodes.set v (.ramfs ino) }

/-! ## Lookup -/

/-- `ramfs_dir_lookup` of a directory, the no-op of a file -/
def Inode.lookup (ino : Inode) (name : Name) : Option ℕ :=
  if ino.vtype = .directory then (ino.children.find? fun x => x.1 = name).map Prod.snd else none

/-- `ops.lookup`; that of a device is a no-op too -/
def Files.lookup (fs : Files) (v : ℕ) (name : Name) : Option ℕ := (fs.inode v).bind fun ino => ino.lookup name

/-- the loop of `path_lookup_from` -/
def Files.walk (fs : Files) (path : List Name) : Option ℕ := path.foldlM fs.lookup fs.root

def Files.pathLookup (fs : Files) (path : Name) : Option ℕ :=
  if path.head? = some slash then fs.walk (components path) else none

/-! ## Creation -/

def Inode.addChild (ino : Inode) (name : Name) (child : ℕ) : Inode :=
  if ramfsMaxChildren ≤ ino.children.length then ino
  else { ino with children := ino.children ++ [(name.take ramfsNameLen, child)] }

/-- the vnode that comes next -/
def Files.push (fs : Files) (v : Vnode) : Files := { fs with vnodes := fs.vnodes ++ [v] }

/-- a new vnode and `ramfs_dir_add_child` of it; a parent without inode would be a write to physical memory at 0 -/
def Files.addNew (fs : Files) (dir : ℕ) (name : Name) (v : Vnode) : Option (Files × ℕ) :=
  (fs.inode dir).map fun ino => ((fs.push v).setInode dir (ino.addChild name fs.vnodes.length), fs.vnodes.length)

/-- `ramfs_create_child` -/
def Files.createChild (fs : Files) (dir : ℕ) (name : Name) (vtype : VNodeType) : Option (Files × ℕ) :=
  fs.addNew dir name (.ramfs (.new vtype))

/-- `ops.create`: `ramfs_create_child` of a directory, the no-op of everything else -/
def Files.create (fs : Files) (dir : ℕ) (name : Name) (vtype : VNodeType) : Option (Files × Option ℕ) :=
  match fs.inode dir with
  | some ino =>
    if ino.vtype = .directory then (fs.createChild dir name vtype).map fun r => (r.1, some r.2) else some (fs, none)
  | none => some (fs, none)

/-- `ops.truncate` to length 0 -/
def Files.truncate (fs : Files) (v : ℕ) : Files :=
  match fs.inode v with
  | some ino => if ino.vtype = .regular then fs.setInode v { ino with size := 0 } else fs
  | none => fs

/-- `sys_open` up to the vnode -/
def Files.sysOpen (fs : Files) (path : Name) (create trunc : Bool) : Option (Files × Option ℕ) :=
  let path := path.take 255
  if path = [] ∨ utf8Valid path = false then some (fs, none)
  else
    match fs.pathLookup path with
    | some v => some (if trunc then fs.truncate v else fs, some v)
    | none =>
      if create = false then some (fs, none)
      else
        match splitParent path with
        | none => some (fs, none)
        | some (parent, base) =>
          match fs.pathLookup parent with
          | none => some (fs, none)
          | some dir => fs.create dir base .regular

/-! ## The unpacker -/

def Files.lookupOrCreate (fs : Files) (dir : ℕ) (name : Name) (vtype : VNodeType) : Option (Files × ℕ) :=
  match fs.lookup dir name with
  | some v => some (fs, v)
  | none => fs.createChild dir name vtype

/-- the loop of `ensure_dir` -/
def Files.ensureDirFrom (fs : Files) (cur : ℕ) : List Name → Option (Files × ℕ)
  | [] => some (fs, cur)
  | part :: rest =>
    if part = [] then fs.ensureDirFrom cur rest
    else (fs.lookupOrCreate cur part .directory).bind fun r => r.1.ensureDirFrom r.2 rest

def Files.ensureDir (fs : Files) (path : Name) : Option (Files × ℕ) := fs.ensureDirFrom fs.root (path.splitOn slash)

/-- the loop of `ensure_path`; the last part is the file, and without one the result is null -/
def Files.ensurePathFrom (fs : Files) (dir : ℕ) : List Name → Option (Files × Option ℕ)
  | [] => some (fs, none)
  | [part] =>
    if part = [] then some (fs, none)
    else (fs.lookupOrCreate dir part .regular).map fun r => (r.1, some r.2)
  | part :: rest =>
    if part = [] then fs.ensurePathFrom dir rest
    else (fs.lookupOrCreate dir part .directory).bind fun r => r.1.ensurePathFrom r.2 rest

def Files.ensurePath (fs : Files) (path : Name) : Option (Files × Option ℕ) :=
  fs.ensurePathFrom fs.root (path.splitOn slash)

/-- the vnode of an inode, for `ramfs_write` -/
def Inode.vnode (ino : Inode) : VNode := ⟨ino.vtype, ino.size, ino.blocks, 1, 0⟩

/-- `ramfs_write` at offset 0 -/
def Inode.writeFile (ino : Inode) (data : List UInt8) : Inode :=
  { ino with size := (ramfsWrite ino.vnode data 0).1.size, blocks := (ramfsWrite ino.vnode data 0).1.blocks }

/-- `ramfs_write_file` -/
def Files.writeFile (fs : Files) (v : ℕ) (data : List UInt8) : Option Files :=
  (fs.inode v).map fun ino => fs.setInode v (ino.writeFile data)

/-! ## Inodes of a changed tree -/

variable {fs fs' : Files} {v u dir : ℕ} {ino : Inode} {name : Name} {new : Option Inode}

theorem Files.lt_of_inode (h : fs.inode v = some ino) : v < fs.vnodes.length := by
  unfold Files.inode at h
  split at h
  · rename_i hv
    exact (List.getElem?_eq_some_iff.mp hv).1
  · cases h

theorem Files.inode_setInode (h : fs.inode v = some ino) (ino' : Inode) (u : ℕ) :
    (fs.setInode v ino').inode u = if u = v then some ino' else fs.inode u := by
  have hlt := Files.lt_of_inode h
  unfold Files.inode Files.setInode
  by_cases hu : u = v
  · subst hu
    simp [hlt]
  · simp [Ne.symm hu, hu]

theorem Files.inode_push (fs : Files) (x : Vnode) (hu : u < fs.vnodes.length) : (fs.push x).inode u = fs.inode u := by
  simp [Files.inode, Files.push, getElem?_append_left hu]

theorem Files.inode_push_last (fs : Files) (ino : Inode) : (fs.push (.ramfs ino)).inode fs.vnodes.length = some ino := by
  simp [Files.inode, Files.push]

/-- the tree after `ramfs_create_child`: the directory's inode has the new entry, the new vnode an empty inode -/
structure Created (fs fs' : Files) (dir : ℕ) (name : Name) (new : Option Inode) : Prop where
  root : fs'.root = fs.root
  length : fs'.vnodes.length = fs.vnodes.length + 1
  parent : ∀ ino, fs.inode dir = some ino → fs'.inode dir = some (ino.addChild name fs.vnodes.length)
  child : fs'.inode fs.vnodes.length = new
  other : ∀ v, v ≠ dir → v < fs.vnodes.length → fs'.inode v = fs.inode v

theorem created_addNew {n : ℕ} {x : Vnode} (h : fs.addNew dir name x = some (fs', n)) :
    n = fs.vnodes.length ∧ Created fs fs' dir name ((fs.push x).inode fs.vnodes.length) := by
  obtain ⟨ino, hd, h⟩ := map_eq_some_iff.1 h
  obtain ⟨rfl, rfl⟩ := Prod.mk.inj h
  have hlt := Files.lt_of_inode hd
  have hd' : (fs.push x).inode dir = some ino := (fs.inode_push x hlt).trans hd
  refine ⟨rfl, rfl, ?_, ?_, ?_, ?_⟩
  · simp [Files.setInode, Files.push]
  · intro ino' h'
    cases hd.symm.trans h'
    rw [Files.inode_setInode hd', if_pos rfl]
  · rw [Files.inode_setInode hd', if_neg (by omega)]
  · intro v hv hlt
    rw [Files.inode_setInode hd', if_neg hv, Files.inode_push fs x hlt]

theorem created_createChild {n : ℕ} {vtype : VNodeType} (h : fs.createChild dir name vtype = some (fs', n)) :
    n = fs.vnodes.length ∧ Created fs fs' dir name (some (.new vtype)) :=
  fs.inode_push_last (.new vtype) ▸ created_addNew h

/-! ## What is found stays -/

/-- every inode keeps its type and its entries, in their places -/
structure Grows (fs fs' : Files) : Prop where
  root : fs'.root = fs.root
  inode : ∀ v ino, fs.inode v = some ino → ∃ ino', fs'.inode v = some ino' ∧ ino'.vtype = ino.vtype ∧
    ino.children <+: ino'.children

theorem Grows.refl (fs : Files) : Grows fs fs := ⟨rfl, fun _ ino h => ⟨ino, h, rfl, prefix_rfl⟩⟩

theorem Grows.trans {fs'' : Files} (h : Grows fs fs') (h' : Grows fs' fs'') : Grows fs fs'' := by
  refine ⟨h'.root.trans h.root, fun v ino hi => ?_⟩
  obtain ⟨ino', hi', ht, hc⟩ := h.inode v ino hi
  obtain ⟨ino'', hi'', ht', hc'⟩ := h'.inode v ino' hi'
  exact ⟨ino'', hi'', ht'.trans ht, hc.trans hc'⟩

theorem Grows.lookup (h : Grows fs fs') (hl : fs.lookup v name = some u) : fs'.lookup v name = some u := by
  obtain ⟨ino, hi, hl⟩ := bind_eq_some_iff.mp hl
  obtain ⟨ino', hi', ht, hc⟩ := h.inode v ino hi
  rw [Files.lookup, hi', bind_some, Inode.lookup, ht]
  rw [Inode.lookup] at hl
  split_ifs at hl ⊢ with hdir
  obtain ⟨x, hx, rfl⟩ := map_eq_some_iff.mp hl
  rw [hc.find?_eq_some hx, map_some]

theorem Grows.walkFrom (h : Grows fs fs') {path : List Name} (hw : path.foldlM fs.lookup v = some u) :
    path.foldlM fs'.lookup v = some u := by
  induction path generalizing v with
  | nil => exact hw
  | cons name rest ih =>
    obtain ⟨w, hl, hw⟩ := bind_eq_some_iff.mp hw
    exact bind_eq_some_iff.mpr ⟨w, h.lookup hl, ih hw⟩

theorem Grows.walk (h : Grows fs fs') {path : List Name} (hw : fs.walk path = some u) : fs'.walk path = some u := by
  rw [Files.walk, h.root]
  exact h.walkFrom hw

theorem Grows.pathLookup (h : Grows fs fs') {path : Name} (hw : fs.pathLookup path = some u) :
    fs'.pathLookup path = some u := by
  unfold Files.pathLookup at hw ⊢
  split_ifs at hw ⊢
  exact h.walk hw

theorem walk_snoc (fs : Files) (path : List Name) (name : Name) :
    fs.walk (path ++ [name]) = (fs.walk path).bind fun v => fs.lookup v name := by
  simp [Files.walk]

theorem addChild_keeps (ino : Inode) (name : Name) (child : ℕ) :
    (ino.addChild name child).vtype = ino.vtype ∧ ino.children <+: (ino.addChild name child).children := by
  unfold Inode.addChild
  split_ifs
  · exact ⟨rfl, prefix_rfl⟩
  · exact ⟨rfl, prefix_append _ _⟩

theorem Created.grows (h : Created fs fs' dir name new) : Grows fs fs' := by
  refine ⟨h.root, fun v ino hi => ?_⟩
  by_cases hv : v = dir
  · subst hv
    exact ⟨_, h.parent ino hi, addChild_keeps ino name _⟩
  · exact ⟨ino, (h.other v hv (Files.lt_of_inode hi)).trans hi, rfl, prefix_rfl⟩

theorem grows_setInode {ino' : Inode} (hi : fs.inode v = some ino) (ht : ino'.vtype = ino.vtype)
    (hc : ino'.children = ino.children) : Grows fs (fs.setInode v ino') := by
  refine ⟨rfl, fun u old hu => ?_⟩
  rw [Files.inode_setInode hi]
  by_cases huv : u = v
  · subst huv
    cases hi.symm.trans hu
    exact ⟨ino', if_pos rfl, ht, hc ▸ prefix_rfl⟩
  · exact ⟨old, (if_neg huv).trans hu, rfl, prefix_rfl⟩

/-! ## When a new entry is found -/

/-- a directory that still has room -/
def Inode.HasRoom (ino : Inode) : Prop := ino.vtype = .directory ∧ ino.children.length < ramfsMaxChildren

theorem addChild_room (h : ino.HasRoom) (hname : name.length ≤ ramfsNameLen) (child : ℕ) :
    (ino.addChild name child).children = ino.children ++ [(name, child)] := by
  rw [Inode.addChild, if_neg (Nat.not_le.mpr h.2), take_of_length_le hname]

/-- **A stored entry is found.** The directory has room, the name fits and was not there. -/
theorem Created.lookup (h : Created fs fs' dir name new) (hd : fs.inode dir = some ino) (hroom : ino.HasRoom)
    (hname : name.length ≤ ramfsNameLen) (hnone : fs.lookup dir name = none) :
    fs'.lookup dir name = some fs.vnodes.length := by
  rw [Files.lookup, hd, bind_some, Inode.lookup, if_pos hroom.1, map_eq_none_iff] at hnone
  rw [Files.lookup, h.parent ino hd, bind_some, Inode.lookup, (addChild_keeps ino name _).1, if_pos hroom.1,
    addChild_room hroom hname, find?_append, hnone]
  simp

/-- no directory has two entries of one name -/
def Files.Distinct (fs : Files) : Prop :=
  ∀ v ino, fs.inode v = some ino → ino.vtype = .directory → (ino.children.map Prod.fst).Nodup

theorem not_mem_of_lookup (hdir : ino.vtype = .directory) (h : ino.lookup name = none) :
    name ∉ ino.children.map Prod.fst := by
  rw [Inode.lookup, if_pos hdir, map_eq_none_iff, find?_eq_none] at h
  intro hmem
  obtain ⟨x, hx, rfl⟩ := mem_map.mp hmem
  exact h x hx (by simp)

theorem Created.distinct (h : Created fs fs' dir name new) (hnew : ∀ i, new = some i → i.children = [])
    (hname : name.length ≤ ramfsNameLen) (hnone : fs.lookup dir name = none) (hfs : fs.Distinct)
    (hd : fs.inode dir = some ino) : fs'.Distinct := by
  intro v ino' hi hdir
  have hlt := h.length ▸ Files.lt_of_inode hi
  by_cases hv : v = dir
  · subst hv
    cases (h.parent ino hd).symm.trans hi
    rw [(addChild_keeps ino name _).1] at hdir
    by_cases hfull : ramfsMaxChildren ≤ ino.children.length
    · rw [Inode.addChild, if_pos hfull]
      exact hfs v ino hd hdir
    · rw [addChild_room ⟨hdir, Nat.not_le.mp hfull⟩ hname, map_append, nodup_append]
      rw [Files.lookup, hd] at hnone
      have hnew := not_mem_of_lookup hdir hnone
      refine ⟨hfs v ino hd hdir, by simp, ?_⟩
      intro a ha b hb hab
      obtain rfl : b = name := by simpa using hb
      exact hnew (hab ▸ ha)
  · by_cases hlast : v = fs.vnodes.length
    · subst hlast
      simp [hnew ino' (h.child.symm.trans hi)]
    · exact hfs v ino' ((h.other v hv (by omega)).symm.trans hi) hdir

theorem distinct_setInode {ino' : Inode} (hi : fs.inode v = some ino) (ht : ino'.vtype = ino.vtype)
    (hc : ino'.children = ino.children) (hfs : fs.Distinct) : (fs.setInode v ino').Distinct := by
  intro u x hu hdir
  rw [Files.inode_setInode hi] at hu
  split_ifs at hu with huv
  · cases hu
    rw [hc]
    exact hfs v ino hi (ht ▸ hdir)
  · exact hfs u x hu hdir

end Rumicos.Fs
