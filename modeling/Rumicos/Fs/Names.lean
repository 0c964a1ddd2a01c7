/-
Creation and lookup of names (`ramfs_create_child`, `ramfs_dir_add_child`, `ramfs_dir_lookup` of `crates/fs/src/ramfs.rs`,
`sys_open` of `syscall.rs`, `path_lookup_from` of `dentry.rs`, the paths of `cpio.rs`).

A file is made by `open` with `O_CREAT`, a directory or a device by the boot code, and either by an archive member,
which makes the directories on its way. A name is cut to 22 bytes when it is stored and compared in full when it is
looked up, a directory with 128 entries drops the next one, and `ramfs_create_child` neither looks the name up nor asks
whether its parent is a directory. In all these cases the caller gets a vnode.

- `Law`: every path whose creation returned a vnode is found and yields it, and no directory has two entries of one name.
- `StepOk`: the new names have at most 22 bytes, their directory is one and has room, and (where nobody looks first) the
  name is new.
-/
import Rumicos.Fs.Inodes
import Rumicos.Lib.Run

namespace Rumicos.Fs.Names

open Fs Lib List Option

/-! ## Paths as text -/

theorem components_append (a b : Name) : components (a ++ slash :: b) = components a ++ components b := by
  unfold components List.splitOn
  rw [splitOnP_append_cons a b (by simp), filter_append]

variable {name path : Name} {fs fs' : Files} {v d cur : ℕ} {parts : List Name} {r : Option ℕ}

theorem components_single (hne : name ≠ []) (hs : slash ∉ name) : components name = [name] := by
  unfold components List.splitOn
  rw [splitOnP_eq_singleton]
  · simp [hne]
  · intro x hx
    have hne : x ≠ slash := fun h => hs (h ▸ hx)
    simpa using hne

theorem exists_last_slash (h : slash ∈ path) : ∃ a b, path = a ++ slash :: b ∧ slash ∉ b := by
  obtain ⟨b, a, hrev, hb⟩ := eq_append_cons_of_mem (mem_reverse.mpr h)
  refine ⟨a.reverse, b.reverse, ?_, by simpa using hb⟩
  rw [← reverse_reverse path, hrev]
  simp

theorem lastComponent {a b : Name} (hb : slash ∉ b) :
    ((a ++ slash :: b).reverse.takeWhile (· ≠ slash)).reverse = b := by
  have hall : ∀ x ∈ b.reverse, decide (x ≠ slash) = true := by
    intro x hx
    have hne : x ≠ slash := fun h => hb (h ▸ mem_reverse.mp hx)
    simpa using hne
  rw [reverse_append, reverse_cons, append_assoc, takeWhile_append_of_pos hall]
  simp

/-- `split_parent` gives the last component and a path to its directory -/
theorem splitParent_spec {parent base : Name} (h : splitParent path = some (parent, base)) :
    base ≠ [] ∧ slash ∉ base ∧ components path = components parent ++ [base] := by
  have hhead : path.head? = some slash := by
    by_contra hne
    simp [splitParent, hne] at h
  obtain ⟨a, b, rfl, hb⟩ := exists_last_slash (mem_of_head? hhead)
  have ha : (a ++ slash :: b).take ((a ++ slash :: b).length - b.length - 1) = a := by
    have : (a ++ slash :: b).length - b.length - 1 = a.length := by
      simp only [length_append, length_cons]
      omega
    rw [this, take_left']
    rfl
  unfold splitParent at h
  split_ifs at h
  simp only [lastComponent hb, ha] at h
  by_cases hbase : b = []
  · rw [if_pos hbase] at h
    cases h
  rw [if_neg hbase, some.injEq, Prod.mk.injEq] at h
  obtain ⟨hparent, rfl⟩ := h
  refine ⟨hbase, hb, ?_⟩
  rw [components_append, components_single hbase hb, ← hparent]
  split_ifs with hnil
  · rw [hnil]
    rfl
  · rfl

/-! ## The system -/

inductive Op where
  /-- `open` with `O_CREAT` -/
  | open (path : Name) (trunc : Bool)
  /-- `ramfs_create_child` in the directory at a path -/
  | create (dir name : Name) (vtype : VNodeType)
  /-- `ramfs_dir_add_child` of a new device, there -/
  | device (dir name : Name)
  /-- an archive member: a file with its bytes, or a directory -/
  | member (name : Name) (file : Option (List UInt8))

structure State where
  files : Files
  /-- history: the paths whose creation returned a vnode, and that vnode -/
  made : List (Name × ℕ)

/-- creation returned `v` for `path` -/
def State.returned (s : State) (files : Files) (path : Name) (v : Option ℕ) : State :=
  ⟨files, s.made ++ (v.toList.map fun v => (path, v))⟩

def step (s : State) : Op → Option State
  | .open path trunc => (s.files.sysOpen path true trunc).map fun r => s.returned r.1 (path.take 255) r.2
  | .create dir name vtype =>
    match s.files.pathLookup dir with
    | none => some s
    | some d => (s.files.createChild d name vtype).map fun r => s.returned r.1 (dir ++ slash :: name) (some r.2)
  | .device dir name =>
    match s.files.pathLookup dir with
    | none => some s
    | some d => (s.files.addNew d name .device).map fun r => s.returned r.1 (dir ++ slash :: name) (some r.2)
  | .member name none => (s.files.ensureDir name).map fun r => s.returned r.1 (slash :: name) (some r.2)
  | .member name (some data) =>
    (s.files.ensurePath name).bind fun r =>
      match r.2 with
      | none => some (s.returned r.1 (slash :: name) none)
      | some v => (r.1.writeFile v data).map fun files => s.returned files (slash :: name) (some v)

/-- an empty root -/
def State.new : State := ⟨.new, []⟩

structure Law (s : State) : Prop where
  found : ∀ x ∈ s.made, s.files.pathLookup x.1 = some x.2
  distinct : s.files.Distinct

/-! ## The condition -/

instance (ino : Inode) : Decidable ino.HasRoom := inferInstanceAs (Decidable (_ ∧ _))

/-- `d` is a directory with room -/
def roomIn (fs : Files) (d : ℕ) : Bool := (fs.inode d).any fun ino => decide ino.HasRoom

/-- a component that fits its field -/
def Short (name : Name) : Prop := name.length ≤ ramfsNameLen

instance (name : Name) : Decidable (Short name) := inferInstanceAs (Decidable (_ ≤ _))

/-- where a path leaves what exists, its directory has room and the rest of its names fit -/
def Fits (fs : Files) (cur : ℕ) : List Name → Prop
  | [] => True
  | part :: rest =>
    if part = [] then Fits fs cur rest
    else
      match fs.lookup cur part with
      | some v => Fits fs v rest
      | none => roomIn fs cur = true ∧ ∀ name ∈ part :: rest, Short name

/-- the directory at `dir` takes the new entry `name` -/
def Takes (fs : Files) (dir name : Name) : Prop :=
  match fs.pathLookup dir with
  | none => True
  | some d => name ≠ [] ∧ slash ∉ name ∧ Short name ∧ roomIn fs d = true ∧ fs.lookup d name = none

/-- the parent of the path, where it is a directory, has room, and the last component fits -/
def OpenFits (fs : Files) (path : Name) : Prop :=
  fs.pathLookup path = none →
    match splitParent path with
    | none => True
    | some (parent, base) =>
      match fs.pathLookup parent with
      | none => True
      | some d => (fs.inode d).any (fun ino => decide (ino.vtype = .directory)) = true → Short base ∧ roomIn fs d = true

def StepOk (s : State) : Op → Prop
  | .open path _ => OpenFits s.files (path.take 255)
  | .create dir name _ | .device dir name => Takes s.files dir name
  | .member name _ => Fits s.files s.files.root (name.splitOn slash)

/-! ## One entry -/

/-- the tree has grown, its names are still distinct, and `path` leads to `v` -/
structure Placed (fs fs' : Files) (path : List Name) (v : ℕ) : Prop where
  grows : Grows fs fs'
  distinct : fs'.Distinct
  walk : fs'.walk path = some v

theorem Placed.trans {fs'' : Files} {p q : List Name} {u : ℕ} (h : Placed fs fs' p u) (h' : Placed fs' fs'' q v) :
    Placed fs fs'' q v := ⟨h.grows.trans h'.grows, h'.distinct, h'.walk⟩

theorem exists_room (h : roomIn fs d = true) : ∃ ino, fs.inode d = some ino ∧ ino.HasRoom := by
  obtain ⟨ino, hi, hr⟩ := exists_of_any h
  exact ⟨ino, hi, of_decide_eq_true hr⟩

theorem placed_created {new : Option Inode} {path : List Name} {ino : Inode} (hw : fs.walk path = some d)
    (hc : Created fs fs' d name new) (hnew : ∀ i, new = some i → i.children = []) (hs : Short name)
    (hd : fs.inode d = some ino) (hroom : ino.HasRoom) (hnone : fs.lookup d name = none) (hD : fs.Distinct) :
    Placed fs fs' (path ++ [name]) fs.vnodes.length := by
  refine ⟨hc.grows, hc.distinct hnew hs hnone hD hd, ?_⟩
  rw [walk_snoc, hc.grows.walk hw]
  exact hc.lookup hd hroom hs hnone

theorem placed_createChild {vtype : VNodeType} {path : List Name} (hw : fs.walk path = some d) (hs : Short name)
    (hroom : roomIn fs d = true) (hnone : fs.lookup d name = none) (hD : fs.Distinct)
    (h : fs.createChild d name vtype = some (fs', v)) : Placed fs fs' (path ++ [name]) v ∧
    fs'.inode v = some (.new vtype) := by
  obtain ⟨ino, hd, hroom⟩ := exists_room hroom
  obtain ⟨rfl, hc⟩ := created_createChild h
  refine ⟨placed_created hw hc ?_ hs hd hroom hnone hD, hc.child⟩
  intro i hi
  cases hi
  rfl

/-! ## The way down a path -/

theorem fits_fresh (h : fs.inode v = some (.new .directory)) (hs : ∀ name ∈ parts, Short name) : Fits fs v parts := by
  induction parts with
  | nil => trivial
  | cons part rest ih =>
    have hnone : fs.lookup v part = none := by
      rw [Files.lookup, h]
      rfl
    have hroom : roomIn fs v = true := by
      rw [roomIn, h]
      rfl
    unfold Fits
    rw [hnone]
    split_ifs
    · exact ih fun name hname => hs name (mem_cons_of_mem _ hname)
    · exact ⟨hroom, hs⟩

theorem placed_lookupOrCreate {part : Name} {rest path : List Name} {vtype : VNodeType} (hw : fs.walk path = some cur)
    (hne : part ≠ []) (hf : Fits fs cur (part :: rest)) (hD : fs.Distinct)
    (h : fs.lookupOrCreate cur part vtype = some (fs', v)) :
    Placed fs fs' (path ++ [part]) v ∧ (vtype = .directory → Fits fs' v rest) := by
  unfold Fits at hf
  rw [if_neg hne] at hf
  unfold Files.lookupOrCreate at h
  cases hl : fs.lookup cur part with
  | some u =>
    simp only [hl] at h hf
    obtain ⟨rfl, rfl⟩ := h
    refine ⟨⟨.refl fs, hD, ?_⟩, fun _ => hf⟩
    rw [walk_snoc, hw, bind_some, hl]
  | none =>
    simp only [hl] at h hf
    obtain ⟨hplaced, hnew⟩ := placed_createChild hw (hf.2 part mem_cons_self) hf.1 hl hD h
    refine ⟨hplaced, ?_⟩
    rintro rfl
    exact fits_fresh hnew fun name hname => hf.2 name (mem_cons_of_mem _ hname)

theorem fits_skip {part : Name} {rest : List Name} (h : part = []) : Fits fs cur (part :: rest) ↔ Fits fs cur rest := by
  rw [Fits, if_pos h]

theorem placed_ensureDir {path : List Name} (hw : fs.walk path = some cur) (hf : Fits fs cur parts) (hD : fs.Distinct)
    (h : fs.ensureDirFrom cur parts = some (fs', v)) : Placed fs fs' (path ++ parts.filter (· ≠ [])) v := by
  induction parts generalizing fs cur path with
  | nil =>
    cases h
    exact ⟨.refl _, hD, by simpa using hw⟩
  | cons part rest ih =>
    unfold Files.ensureDirFrom at h
    by_cases hne : part = []
    · rw [if_pos hne] at h
      simpa [hne] using ih hw ((fits_skip hne).1 hf) hD h
    · rw [if_neg hne] at h
      obtain ⟨⟨fs1, u⟩, h1, h2⟩ := bind_eq_some_iff.1 h
      obtain ⟨hp, hf'⟩ := placed_lookupOrCreate hw hne hf hD h1
      simpa [hne] using hp.trans (ih hp.walk (hf' rfl) hp.distinct h2)

theorem placed_ensurePath {path : List Name} (hw : fs.walk path = some cur) (hf : Fits fs cur parts) (hD : fs.Distinct)
    (h : fs.ensurePathFrom cur parts = some (fs', r)) :
    Grows fs fs' ∧ fs'.Distinct ∧ ∀ v, r = some v → fs'.walk (path ++ parts.filter (· ≠ [])) = some v := by
  induction parts generalizing fs cur path with
  | nil =>
    cases h
    exact ⟨.refl _, hD, nofun⟩
  | cons part rest ih =>
    by_cases hne : part = []
    · cases rest with
      | nil =>
        rw [Files.ensurePathFrom, if_pos hne] at h
        cases h
        exact ⟨.refl _, hD, nofun⟩
      | cons next rest =>
        rw [Files.ensurePathFrom, if_pos hne] at h
        simpa [hne] using ih hw ((fits_skip hne).1 hf) hD h
        nofun
    · cases rest with
      | nil =>
        rw [Files.ensurePathFrom, if_neg hne] at h
        obtain ⟨⟨fs1, u⟩, h1, h2⟩ := map_eq_some_iff.1 h
        cases h2
        obtain ⟨hp, -⟩ := placed_lookupOrCreate hw hne hf hD h1
        refine ⟨hp.grows, hp.distinct, ?_⟩
        intro v hv
        cases hv
        simpa [hne] using hp.walk
      | cons next rest =>
        rw [Files.ensurePathFrom, if_neg hne] at h
        obtain ⟨⟨fs1, u⟩, h1, h2⟩ := bind_eq_some_iff.1 h
        obtain ⟨hp, hf'⟩ := placed_lookupOrCreate hw hne hf hD h1
        obtain ⟨hg, hd, hfound⟩ := ih hp.walk (hf' rfl) hp.distinct h2
        refine ⟨hp.grows.trans hg, hd, ?_⟩
        simpa [hne] using hfound
        nofun

/-! ## The operations -/

theorem pathLookup_eq_some : fs.pathLookup path = some v ↔ path.head? = some slash ∧
    fs.walk (components path) = some v := by
  unfold Files.pathLookup
  split_ifs with h <;> simp [h]

theorem grows_truncate (hD : fs.Distinct) (v : ℕ) : Grows fs (fs.truncate v) ∧ (fs.truncate v).Distinct := by
  unfold Files.truncate
  split
  · rename_i ino hi
    split_ifs
    · exact ⟨grows_setInode hi rfl rfl, distinct_setInode hi rfl rfl hD⟩
    · exact ⟨.refl fs, hD⟩
  · exact ⟨.refl fs, hD⟩

/-- `ops.create` in the parent that `split_parent` gives -/
theorem placed_create {parent base : Name} (hD : fs.Distinct) (hnone : fs.pathLookup path = none)
    (hsplit : splitParent path = some (parent, base)) (hd : fs.pathLookup parent = some d) (hf : OpenFits fs path)
    (h : fs.create d base .regular = some (fs', r)) :
    Grows fs fs' ∧ fs'.Distinct ∧ ∀ v, r = some v → fs'.pathLookup path = some v := by
  have hf := hf hnone
  simp only [hsplit, hd] at hf
  unfold Files.create at h
  cases hi : fs.inode d with
  | none =>
    rw [hi] at h
    cases h
    exact ⟨.refl _, hD, nofun⟩
  | some ino =>
    simp only [hi] at h
    split_ifs at h with hdir
    · obtain ⟨⟨fs1, u⟩, h1, h2⟩ := map_eq_some_iff.1 h
      cases h2
      obtain ⟨hs, hroom⟩ := hf (by simp [hi, hdir])
      obtain ⟨-, -, hcomp⟩ := splitParent_spec hsplit
      have hw := (pathLookup_eq_some.1 hd).2
      have hhead : path.head? = some slash := by
        by_contra hne
        simp [splitParent, hne] at hsplit
      have hmiss : fs.lookup d base = none := by
        rw [Files.pathLookup, if_pos hhead, hcomp, walk_snoc, hw] at hnone
        exact hnone
      obtain ⟨hp, -⟩ := placed_createChild hw hs hroom hmiss hD h1
      refine ⟨hp.grows, hp.distinct, ?_⟩
      intro v hv
      cases hv
      exact pathLookup_eq_some.2 ⟨hhead, hcomp ▸ hp.walk⟩
    · cases h
      exact ⟨.refl _, hD, nofun⟩

theorem placed_sysOpen {trunc : Bool} (hD : fs.Distinct) (hf : OpenFits fs (path.take 255))
    (h : fs.sysOpen path true trunc = some (fs', r)) :
    Grows fs fs' ∧ fs'.Distinct ∧ ∀ v, r = some v → fs'.pathLookup (path.take 255) = some v := by
  unfold Files.sysOpen at h
  generalize path.take 255 = path at h hf ⊢
  have hsame : some (fs, (none : Option ℕ)) = some (fs', r) →
      Grows fs fs' ∧ fs'.Distinct ∧ ∀ v, r = some v → fs'.pathLookup path = some v := by
    intro h
    cases h
    exact ⟨.refl _, hD, nofun⟩
  by_cases hbad : path = [] ∨ utf8Valid path = false
  · rw [if_pos hbad] at h
    exact hsame h
  · rw [if_neg hbad] at h
    cases hl : fs.pathLookup path with
    | some u =>
      simp only [hl] at h
      obtain ⟨rfl, rfl⟩ := h
      have ht : Grows fs (if trunc = true then fs.truncate u else fs) ∧
        (if trunc = true then fs.truncate u else fs).Distinct := by
        split_ifs
        · exact grows_truncate hD u
        · exact ⟨.refl fs, hD⟩
      refine ⟨ht.1, ht.2, ?_⟩
      intro v hv
      cases hv
      exact ht.1.pathLookup hl
    | none =>
      cases hsplit : splitParent path with
      | none =>
        simp only [hl, hsplit] at h
        exact hsame h
      | some pb =>
        obtain ⟨parent, base⟩ := pb
        cases hd : fs.pathLookup parent with
        | none =>
          simp only [hl, hsplit, hd] at h
          exact hsame h
        | some d =>
          simp only [hl, hsplit, hd] at h
          exact placed_create hD hl hsplit hd hf h

/-! ## Runs -/

theorem Law.returned {s : State} (hI : Law s) {files : Files} (hg : Grows s.files files) (hD : files.Distinct)
    (hr : ∀ v, r = some v → files.pathLookup path = some v) : Law (s.returned files path r) := by
  refine ⟨?_, hD⟩
  intro x hx
  rcases mem_append.1 hx with hx | hx
  · exact hg.pathLookup (hI.found x hx)
  · obtain ⟨v, hv, rfl⟩ := mem_map.1 hx
    exact hr v (mem_toList.1 hv)

theorem Law.entry {s : State} (hI : Law s) {files : Files} {dir : Name} (hd : s.files.pathLookup dir = some d)
    (hne : name ≠ []) (hs : slash ∉ name) (hp : Placed s.files files (components dir ++ [name]) v) :
    Law (s.returned files (dir ++ slash :: name) (some v)) := by
  apply hI.returned hp.grows hp.distinct
  intro u hu
  cases hu
  obtain ⟨hhead, -⟩ := pathLookup_eq_some.1 hd
  refine pathLookup_eq_some.2 ⟨?_, ?_⟩
  · cases dir with
    | nil => cases hhead
    | cons x xs => exact hhead
  · rw [components_append, components_single hne hs]
    exact hp.walk

theorem components_cons (name : Name) : components (slash :: name) = (name.splitOn slash).filter (· ≠ []) :=
  components_append [] name

theorem law_step {s s' : State} {op : Op} (hI : Law s) (hC : StepOk s op) (h : step s op = some s') : Law s' := by
  cases op with
  | «open» path trunc =>
    obtain ⟨r, h1, rfl⟩ := map_eq_some_iff.1 h
    obtain ⟨hg, hD, hr⟩ := placed_sysOpen hI.distinct hC h1
    exact hI.returned hg hD hr
  | create dir name vtype =>
    simp only [step] at h
    simp only [StepOk, Takes] at hC
    cases hd : s.files.pathLookup dir with
    | none =>
      simp only [hd] at h
      cases h
      exact hI
    | some d =>
      simp only [hd] at h hC
      obtain ⟨hne, hs, hshort, hroom, hnone⟩ := hC
      obtain ⟨r, h1, rfl⟩ := map_eq_some_iff.1 h
      exact hI.entry hd hne hs (placed_createChild (pathLookup_eq_some.1 hd).2 hshort hroom hnone hI.distinct h1).1
  | device dir name =>
    simp only [step] at h
    simp only [StepOk, Takes] at hC
    cases hd : s.files.pathLookup dir with
    | none =>
      simp only [hd] at h
      cases h
      exact hI
    | some d =>
      simp only [hd] at h hC
      obtain ⟨hne, hs, hshort, hroom, hnone⟩ := hC
      obtain ⟨r, h1, rfl⟩ := map_eq_some_iff.1 h
      obtain ⟨ino, hi, hroom⟩ := exists_room hroom
      obtain ⟨hr, hc⟩ := created_addNew h1
      have hnew : ∀ i, (s.files.push .device).inode s.files.vnodes.length = some i → i.children = [] := by
        simp [Files.inode, Files.push]
      rw [hr]
      exact hI.entry hd hne hs (placed_created (pathLookup_eq_some.1 hd).2 hc hnew hshort hi hroom hnone hI.distinct)
  | member name file =>
    have hhead : (slash :: name).head? = some slash := rfl
    have hroot : s.files.walk [] = some s.files.root := rfl
    cases file with
    | none =>
      obtain ⟨r, h1, rfl⟩ := map_eq_some_iff.1 h
      have hp := placed_ensureDir hroot hC hI.distinct h1
      apply hI.returned hp.grows hp.distinct
      intro v hv
      cases hv
      exact pathLookup_eq_some.2 ⟨hhead, (components_cons name).symm ▸ hp.walk⟩
    | some data =>
      obtain ⟨⟨fs1, r⟩, h1, h2⟩ := bind_eq_some_iff.1 h
      obtain ⟨hg, hD, hr⟩ := placed_ensurePath hroot hC hI.distinct h1
      have hfound : ∀ v, r = some v → fs1.pathLookup (slash :: name) = some v := fun v hv =>
        pathLookup_eq_some.2 ⟨hhead, (components_cons name).symm ▸ hr v hv⟩
      cases r with
      | none =>
        cases h2
        exact hI.returned hg hD fun v hv => by cases hv
      | some v =>
        obtain ⟨files, h3, rfl⟩ := map_eq_some_iff.1 h2
        obtain ⟨ino, hi, rfl⟩ := map_eq_some_iff.1 h3
        have hw : Grows fs1 (fs1.setInode v (ino.writeFile data)) := grows_setInode hi rfl rfl
        apply hI.returned (hg.trans hw) (distinct_setInode hi rfl rfl hD)
        intro u hu
        exact hw.pathLookup (hfound u hu)

theorem law_new : Law State.new := by
  refine ⟨nofun, ?_⟩
  intro v ino hi _
  have hv := Files.lt_of_inode hi
  have hv : v = 0 := Nat.lt_one_iff.1 hv
  subst hv
  cases hi
  exact nodup_nil

/-- **Created names are found.** In every run whose steps are `StepOk`, every path whose creation has returned a vnode
is found and yields that vnode, and no directory has two entries of one name. -/
theorem law_run (ops : List Op) (s : State) (hC : Meets step StepOk State.new ops)
    (h : ops.foldlM step State.new = some s) : Law s :=
  run_inv Law (fun _ _ _ => law_step) law_new hC h

/-- an archive with the file `d/f`, then `open("/d/g", O_CREAT)` -/
def bootOps : List Op := [.member [100, 47, 102] (some [1, 2, 3]), .open [47, 100, 47, 103] false]

theorem bootOps_ok : Meets step StepOk State.new bootOps := by
  refine ⟨?_, ?_⟩
  · have hfits : roomIn Files.new 0 = true ∧ ∀ name ∈ [[100], [102]], Short name := by decide
    exact hfits
  · intro s hs
    cases hs
    refine ⟨?_, fun _ _ => trivial⟩
    intro _ _
    decide

/-- both names are found where they were created -/
theorem bootOps_found : ∃ s, bootOps.foldlM step State.new = some s ∧ s.made.map Prod.snd = [2, 3] ∧ Law s :=
  exists_and_of_check (by decide +kernel) fun s hs _ => law_run bootOps s bootOps_ok hs

/-- **A created name is lost.** `open` with `O_CREAT` returns a vnode for a name of 23 bytes; its entry has 22 of them,
and the next lookup of the path finds nothing. -/
theorem created_name_lost : ∃ s, [Op.open (slash :: List.replicate 23 97) false].foldlM step State.new = some s ∧
    ¬ Law s :=
  exists_of_check (fun s => ∃ x ∈ s.made, s.files.pathLookup x.1 ≠ some x.2) (by decide +kernel)
    fun _ _ ⟨x, hx, hne⟩ hlaw =>
    hne (hlaw.found x hx)

end Rumicos.Fs.Names
