/-
Unpacking the archive of a tree (`unpack_cpio` of `crates/fs/src/cpio.rs` over `ramfs.rs`).

A tree within the limits of ramfs is the list of its directories and files in the order of its archive, each directory
before its contents; every member is written `path` or `./path`, and the root, if it is written, is `.`, the first
member. The unpacker strips `./` but not `.`, skips names that are not UTF-8 and stops at a member named `TRAILER!!!`.

- `Shows fs items`: every path of the tree leads to a directory with exactly its entries or to a file with its contents.
-/
import Rumicos.Fs.Cpio

namespace Rumicos.Fs.Unpack

open Fs List Option

/-! ## Trees and their archives -/

inductive Content where
  | dir
  | file (data : List UInt8)

def Content.bytes : Content → List UInt8
  | .dir => []
  | .file data => data

/-- S_IFDIR, S_IFREG -/
def Content.format : Content → ℕ
  | .dir => 0o040000
  | .file _ => 0o100000

/-- a path as the archive spells it -/
def spell (dotted : Bool) (path : List Name) : Name := (if dotted then [46, 47] else []) ++ [slash].intercalate path

/-- a directory or file of the tree, with its path from the root and the rest of its header -/
structure Item where
  path : List Name
  content : Content
  dotted : Bool
  perm : ℕ
  unread : ℕ → ℕ
  lower : Bool
  perm_lt : perm < 0o10000
  size_le : content.bytes.length ≤ ramfsMaxBlocks * ramfsBlockSize
  name_lt : (spell dotted path).length + 1 < 2 ^ 32

def Item.name (x : Item) : Name := spell x.dotted x.path

def Item.member (x : Item) : Member where
  name := x.name
  mode := x.content.format + x.perm
  data := x.content.bytes
  unread := x.unread
  lower := x.lower
  mode_lt := by
    have hp := x.perm_lt
    cases x.content <;> simp only [Content.format] <;> omega
  name_lt := x.name_lt
  data_lt := lt_of_le_of_lt x.size_le (by decide)

theorem nil_short : ([] : List UInt8).length < 2 ^ 32 := by decide

/-- the root as `.` -/
def rootMember (perm : Fin 0o10000) : Member where
  name := [46]
  mode := 0o040000 + perm
  data := []
  unread := fun _ => 0
  lower := false
  mode_lt := by omega
  name_lt := by decide
  data_lt := nil_short

/-- the names of the entries of the directory at `p` -/
def below (items : List Item) (p : List Name) : List Name :=
  (items.filter fun x => x.path.dropLast = p).map fun x => x.path.getLastD []

/-- what an entry may be called -/
structure Component (name : Name) : Prop where
  ne_nil : name ≠ []
  noSlash : slash ∉ name
  ne_dot : name ≠ [46]
  length_le : name.length ≤ ramfsNameLen

/-- a tree within the limits, in the order of its archive -/
structure FileTree where
  items : List Item
  path_ne : ∀ x ∈ items, x.path ≠ []
  distinct : (items.map Item.path).Nodup
  ordered : ∀ pre x post, items = pre ++ x :: post → x.path.dropLast ≠ [] →
    ∃ y ∈ pre, y.path = x.path.dropLast ∧ y.content = .dir
  names : ∀ x ∈ items, ∀ name ∈ x.path, Component name
  width : ∀ p, (below items p).length ≤ ramfsMaxChildren

def FileTree.archive (t : FileTree) (root : Option (Fin 0o10000)) (rest : List UInt8) : List UInt8 :=
  Fs.archive (root.toList.map rootMember ++ t.items.map Item.member) rest

/-- an inode with this content, whose entries are `names` -/
def Inode.Is (ino : Inode) (names : List Name) : Content → Prop
  | .dir => ino.vtype = .directory ∧ (ino.children.map Prod.fst).Perm names
  | .file data =>
    ino.vtype = .regular ∧ ino.size = data.length ∧ ∀ i (h : i < data.length), ino.vnode.byteAt i = data.get ⟨i, h⟩

/-- `p` is the root or a path of the tree -/
def Listed (items : List Item) (p : List Name) (c : Content) : Prop :=
  p = [] ∧ c = .dir ∨ ∃ x ∈ items, x.path = p ∧ x.content = c

def Shows (fs : Files) (items : List Item) : Prop :=
  ∀ p c, Listed items p c → ∃ v ino, fs.walk p = some v ∧ fs.inode v = some ino ∧ Inode.Is ino (below items p) c

/-! ## Members of a tree -/

theorem mode_format (c : Content) {perm : ℕ} (h : perm < 0o10000) : (c.format + perm) &&& 0o170000 = c.format := by
  have hall : ∀ k ∈ [0o040000, 0o100000], ∀ a b : Fin 64, (k + (64 * a.val + b.val)) &&& 0o170000 = k := by decide +kernel
  have hk : c.format ∈ [0o040000, 0o100000] := by cases c <;> simp [Content.format]
  have hperm := hall c.format hk ⟨perm / 64, by omega⟩ ⟨perm % 64, by omega⟩
  rwa [Nat.div_add_mod] at hperm

variable {name : Name} {path : List Name} {x : Item} {fs fs' : Files} {cur v dir : ℕ} {pre : List Item} {ino : Inode}

theorem trimStart_eq (h : ∀ rest, name ≠ 46 :: 47 :: rest) : trimStart name = name := by
  unfold trimStart
  split
  · exact absurd rfl (h _)
  · rfl

theorem intercalate_cons (name : Name) (rest : List Name) :
    [slash].intercalate (name :: rest) = name ∨ ∃ t, [slash].intercalate (name :: rest) = name ++ slash :: t := by
  cases rest with
  | nil => exact .inl (by simp)
  | cons next rest => exact .inr ⟨[slash].intercalate (next :: rest), by simp [intercalate_cons_cons]⟩

theorem trimStart_intercalate (hpath : path ≠ []) (h : ∀ name ∈ path, Component name) :
    trimStart ([slash].intercalate path) = [slash].intercalate path := by
  obtain ⟨name, rest, rfl⟩ := exists_cons_of_ne_nil hpath
  have hname := h name mem_cons_self
  apply trimStart_eq
  intro t ht
  obtain ⟨tail, hjoin⟩ : ∃ tail, [slash].intercalate (name :: rest) = name ++ tail ∧
    (tail = [] ∨ ∃ t, tail = slash :: t) := by
    rcases intercalate_cons name rest with h | ⟨t, h⟩
    · exact ⟨[], by simpa using h, .inl rfl⟩
    · exact ⟨slash :: t, h, .inr ⟨t, rfl⟩⟩
  rw [hjoin.1] at ht
  -- the text starts with a dot and a slash, so its first component is a dot
  match name, hname with
  | [], hname => exact hname.ne_nil rfl
  | [a], hname =>
    obtain ⟨rfl, -⟩ := List.cons.inj ht
    exact hname.ne_dot rfl
  | a :: b :: name, hname =>
    obtain ⟨-, ht⟩ := List.cons.inj ht
    obtain ⟨rfl, -⟩ := List.cons.inj ht
    exact hname.noSlash (by simp [slash])

theorem trimStart_name (hpath : x.path ≠ []) (h : ∀ name ∈ x.path, Component name) :
    trimStart x.name = [slash].intercalate x.path := by
  rw [Item.name]
  cases x.dotted
  · exact trimStart_intercalate hpath h
  · exact trimStart_intercalate hpath h

theorem splitOn_intercalate (hpath : path ≠ []) (h : ∀ name ∈ path, Component name) :
    ([slash].intercalate path).splitOn slash = path :=
  List.splitOn_intercalate slash (fun name hname => (h name hname).noSlash) hpath

section

variable (hne : ∀ name ∈ path, name ≠ []) (hw : path.foldlM fs.lookup cur = some v) (hname : name ≠ [])
include hne hw hname

theorem ensureDirFrom_append :
    fs.ensureDirFrom cur (path ++ [name]) = fs.lookupOrCreate v name .directory := by
  induction path generalizing cur with
  | nil =>
    cases hw
    simp [Files.ensureDirFrom, hname]
  | cons part rest ih =>
    obtain ⟨u, hl, hw⟩ := bind_eq_some_iff.1 hw
    have hpart := hne part mem_cons_self
    simp only [cons_append, Files.ensureDirFrom, if_neg hpart, Files.lookupOrCreate, hl]
    exact ih (fun name hname => hne name (mem_cons_of_mem _ hname)) hw

theorem ensurePathFrom_append :
    fs.ensurePathFrom cur (path ++ [name]) = (fs.lookupOrCreate v name .regular).map fun r => (r.1, some r.2) := by
  induction path generalizing cur with
  | nil =>
    cases hw
    simp [Files.ensurePathFrom, hname]
  | cons part rest ih =>
    obtain ⟨u, hl, hw⟩ := bind_eq_some_iff.1 hw
    have hpart := hne part mem_cons_self
    have htail : rest ++ [name] ≠ [] := by simp
    obtain ⟨next, tail, hcons⟩ := exists_cons_of_ne_nil htail
    rw [cons_append, hcons, Files.ensurePathFrom, if_neg hpart, Files.lookupOrCreate, hl, ← hcons]
    · exact ih (fun name hname => hne name (mem_cons_of_mem _ hname)) hw
    · simp

end

theorem is_writeFile {data : List UInt8} (h : data.length ≤ ramfsMaxBlocks * ramfsBlockSize) (names : List Name) :
    Inode.Is ((Inode.new .regular).writeFile data) names (.file data) := by
  obtain ⟨-, hsize, hbyte⟩ := ramfsWrite_spec (Inode.new .regular).vnode data 0 (by omega)
  refine ⟨rfl, ?_, ?_⟩
  · rw [Inode.writeFile, hsize, Nat.zero_add]
    exact Nat.zero_max _
  · intro i hi
    calc ((Inode.new .regular).writeFile data).vnode.byteAt i =
      (ramfsWrite (Inode.new .regular).vnode data 0).1.byteAt i := rfl
      _ = data.getD (i - 0) 0 := by rw [hbyte, if_pos (by omega)]
      _ = data.get ⟨i, hi⟩ := by simp [hi]

/-! ## One more member -/

/-- `x` can follow `pre` -/
structure Next (pre : List Item) (x : Item) : Prop where
  path_ne : x.path ≠ []
  pre_ne : ∀ y ∈ pre, y.path ≠ []
  parent : Listed pre x.path.dropLast .dir
  new : ∀ y ∈ pre, y.path ≠ x.path
  childless : ∀ y ∈ pre, y.path.dropLast ≠ x.path
  names : ∀ name ∈ x.path, Component name
  room : (below pre x.path.dropLast).length < ramfsMaxChildren

theorem below_append (xs ys : List Item) (p : List Name) : below (xs ++ ys) p = below xs p ++ below ys p := by
  simp [below]

theorem below_singleton (x : Item) (p : List Name) :
    below [x] p = if x.path.dropLast = p then [x.path.getLastD []] else [] := by
  unfold below
  split_ifs with h <;> simp [h]

theorem dropLast_append_last (h : x.path ≠ []) : x.path.dropLast ++ [x.path.getLastD []] = x.path := by
  have hlast : x.path.getLastD [] = x.path.getLast h := by
    rw [getLastD_eq_getLast?, getLast?_eq_some_getLast h, getD_some]
  rw [hlast]
  exact dropLast_append_getLast h

theorem FileTree.next (t : FileTree) {post : List Item} (h : t.items = pre ++ x :: post) : Next pre x := by
  have hmem : ∀ y ∈ pre, y ∈ t.items := fun y hy => h ▸ mem_append_left _ hy
  have hx : x ∈ t.items := h ▸ mem_append_right _ mem_cons_self
  have hnew : ∀ y ∈ pre, y.path ≠ x.path := by
    have hnd := t.distinct
    rw [h, map_append, nodup_append] at hnd
    exact fun y hy => hnd.2.2 _ (mem_map_of_mem hy) _ (mem_map_of_mem mem_cons_self)
  refine ⟨t.path_ne x hx, fun y hy => t.path_ne y (hmem y hy), ?_, hnew, ?_, t.names x hx, ?_⟩
  · by_cases hroot : x.path.dropLast = []
    · exact .inl ⟨hroot, rfl⟩
    · exact .inr (t.ordered pre x post h hroot)
  · intro y hy heq
    obtain ⟨a, b, rfl⟩ := append_of_mem hy
    have hsplit : t.items = a ++ y :: (b ++ x :: post) := by simp [h]
    obtain ⟨z, hz, hzp, -⟩ := t.ordered a y _ hsplit (heq ▸ t.path_ne x hx)
    exact hnew z (mem_append_left _ hz) (hzp.trans heq)
  · have hw := t.width x.path.dropLast
    have hcons : x :: post = [x] ++ post := rfl
    rw [h, below_append, hcons, below_append, below_singleton, if_pos rfl] at hw
    simp only [length_append, length_singleton] at hw
    omega

/-- the tree of `items`, and no vnode at two of its paths -/
structure Built (fs : Files) (items : List Item) : Prop where
  shows : Shows fs items
  inj : ∀ p q c d v, Listed items p c → Listed items q d → fs.walk p = some v → fs.walk q = some v → p = q

theorem built_new : Built Files.new [] := by
  have hroot : ∀ p c, Listed [] p c → p = [] ∧ c = .dir := by
    intro p c h
    rcases h with h | ⟨x, hx, -⟩
    · exact h
    · cases hx
  refine ⟨?_, ?_⟩
  · intro p c h
    obtain ⟨rfl, rfl⟩ := hroot p c h
    exact ⟨0, _, rfl, rfl, rfl, .refl _⟩
  · intro p q c d v hp hq _ _
    exact (hroot p c hp).1.trans (hroot q d hq).1.symm

theorem Next.lookup_none (hx : Next pre x) (hi : fs.inode v = some ino)
    (his : Inode.Is ino (below pre x.path.dropLast) .dir) : fs.lookup v (x.path.getLastD []) = none := by
  rw [Files.lookup, hi, bind_some, Inode.lookup, if_pos his.1, map_eq_none_iff, find?_eq_none]
  intro e he heq
  have hmem : x.path.getLastD [] ∈ below pre x.path.dropLast :=
    his.2.mem_iff.1 (mem_map.2 ⟨e, he, of_decide_eq_true heq⟩)
  obtain ⟨y, hy, hlast⟩ := mem_map.1 hmem
  obtain ⟨hy, hdrop⟩ := mem_filter.1 hy
  have hdrop := of_decide_eq_true hdrop
  apply hx.new y hy
  rw [← dropLast_append_last (hx.pre_ne y hy), ← dropLast_append_last hx.path_ne, hdrop, hlast]

theorem listed_append {p : List Name} {c : Content} (h : Listed (pre ++ [x]) p c) :
    Listed pre p c ∨ p = x.path ∧ c = x.content := by
  rcases h with h | ⟨y, hy, hp, hc⟩
  · exact .inl (.inl h)
  · rcases mem_append.1 hy with hy | hy
    · exact .inl (.inr ⟨y, hy, hp, hc⟩)
    · obtain rfl := mem_singleton.1 hy
      exact .inr ⟨hp.symm, hc.symm⟩

theorem below_self (hx : Next pre x) : below (pre ++ [x]) x.path = [] := by
  have hne : x.path.dropLast ≠ x.path := by
    intro h
    have hlen := congrArg List.length (dropLast_append_last hx.path_ne)
    rw [h, length_append, length_singleton] at hlen
    omega
  have hpre : below pre x.path = [] := by
    rw [below, map_eq_nil_iff, filter_eq_nil_iff]
    intro y hy h
    exact hx.childless y hy (of_decide_eq_true h)
  rw [below_append, below_singleton, if_neg hne, hpre]
  rfl

theorem Next.last (hx : Next pre x) : Component (x.path.getLastD []) := by
  apply hx.names
  have hmem : x.path.getLastD [] ∈ x.path.dropLast ++ [x.path.getLastD []] := by simp
  rwa [dropLast_append_last hx.path_ne] at hmem

/-- the new vnode shows its content, its parent one entry more, and nothing else has changed -/
theorem Built.add (hB : Built fs pre) (hx : Next pre x) {new : Inode} (hw : fs.walk x.path.dropLast = some v)
    (hi : fs.inode v = some ino) (his : Inode.Is ino (below pre x.path.dropLast) .dir)
    (hc : Created fs fs' v (x.path.getLastD []) (some new)) (hnew : Inode.Is new [] x.content) :
    Built fs' (pre ++ [x]) := by
  have hroom : ino.HasRoom := by
    refine ⟨his.1, ?_⟩
    rw [← length_map (f := Prod.fst), his.2.length_eq]
    exact hx.room
  have hlookup := hc.lookup hi hroom hx.last.length_le (hx.lookup_none hi his)
  have hwalk : fs'.walk x.path = some fs.vnodes.length := by
    rw [← dropLast_append_last hx.path_ne, walk_snoc, hc.grows.walk hw, bind_some, hlookup]
  have hold : ∀ p c u, Listed pre p c → fs'.walk p = some u → fs.walk p = some u ∧ u < fs.vnodes.length := by
    intro p c u hp hu
    obtain ⟨u', i, hu', hi', -⟩ := hB.shows p c hp
    cases (hc.grows.walk hu').symm.trans hu
    exact ⟨hu', Files.lt_of_inode hi'⟩
  refine ⟨?_, ?_⟩
  · intro p c h
    rcases listed_append h with hp | ⟨rfl, rfl⟩
    · obtain ⟨u, i, hu, hui, hcontent⟩ := hB.shows p c hp
      by_cases huv : u = v
      · subst huv
        obtain rfl := hB.inj p _ c _ u hp hx.parent hu hw
        cases hi.symm.trans hui
        refine ⟨u, _, hc.grows.walk hu, hc.parent _ hi, ?_⟩
        cases c with
        | file data =>
          have hreg := hcontent.1
          rw [his.1] at hreg
          cases hreg
        | dir =>
          refine ⟨(addChild_keeps _ _ _).1.trans his.1, ?_⟩
          rw [addChild_room hroom hx.last.length_le, map_append, below_append, below_singleton, if_pos rfl]
          exact his.2.append_right _
      · have hne : x.path.dropLast ≠ p := fun h => huv (some.inj (hu.symm.trans (h ▸ hw)))
        refine ⟨u, i, hc.grows.walk hu, (hc.other u huv (Files.lt_of_inode hui)).trans hui, ?_⟩
        rw [below_append, below_singleton, if_neg hne, append_nil]
        exact hcontent
    · exact ⟨_, new, hwalk, hc.child, (below_self hx).symm ▸ hnew⟩
  · intro p q c d u hp hq hpu hqu
    have hlt : ∀ r e, Listed pre r e → fs'.walk r = some u → fs'.walk x.path = some u → False := by
      intro r e hr hru hxu
      have := some.inj (hwalk.symm.trans hxu)
      have := (hold r e u hr hru).2
      omega
    rcases listed_append hp with hp | ⟨rfl, -⟩
    · rcases listed_append hq with hq | ⟨rfl, -⟩
      · exact hB.inj p q c d u hp hq (hold p c u hp hpu).1 (hold q d u hq hqu).1
      · exact (hlt p c hp hpu hqu).elim
    · rcases listed_append hq with hq | ⟨rfl, -⟩
      · exact (hlt q d hq hqu hpu).elim
      · rfl

theorem Created.setChild {new : Inode} (h : Created fs fs' dir name (some new)) (hd : dir < fs.vnodes.length) :
    Created fs (fs'.setInode fs.vnodes.length ino) dir name (some ino) := by
  refine ⟨h.root, ?_, ?_, ?_, ?_⟩
  · rw [← h.length]
    simp [Files.setInode]
  · intro i hi
    rw [Files.inode_setInode h.child, if_neg (by omega), h.parent i hi]
  · rw [Files.inode_setInode h.child, if_pos rfl]
  · intro u hu hlt
    rw [Files.inode_setInode h.child, if_neg (by omega), h.other u hu hlt]

/-- **A member is stored.** -/
theorem unpack_item (hB : Built fs pre) (hx : Next pre x) (hutf : utf8Valid x.name = true) :
    ∃ fs', fs.unpackMember x.name (x.content.format + x.perm) x.content.bytes = some fs' ∧ Built fs' (pre ++ [x]) := by
  obtain ⟨v, ino, hw, hi, his⟩ := hB.shows _ _ hx.parent
  have htrim := trimStart_name hx.path_ne hx.names
  have hparts : ([slash].intercalate x.path).splitOn slash = x.path.dropLast ++ [x.path.getLastD []] := by
    rw [splitOn_intercalate hx.path_ne hx.names, dropLast_append_last hx.path_ne]
  have hne : ∀ name ∈ x.path.dropLast, name ≠ [] := fun name h => (hx.names name (mem_of_mem_dropLast h)).ne_nil
  have hnonempty : [slash].intercalate x.path ≠ [] := by
    intro h
    rw [h] at hparts
    have hlast := hx.last.ne_nil
    have : x.path.dropLast ++ [x.path.getLastD []] = [[]] := hparts.symm
    rcases append_eq_singleton_iff.1 this with ⟨-, h⟩ | ⟨-, h⟩
    · exact hlast (singleton_inj.1 h)
    · cases h
  have hcreate : ∀ vtype, fs.lookupOrCreate v (x.path.getLastD []) vtype =
    fs.createChild v (x.path.getLastD []) vtype := by
    intro vtype
    rw [Files.lookupOrCreate, hx.lookup_none hi his]
  have hnew : ∀ vtype, ∃ fs', fs.createChild v (x.path.getLastD []) vtype = some (fs', fs.vnodes.length) := by
    intro vtype
    simp only [Files.createChild, Files.addNew, hi]
    exact ⟨_, rfl⟩
  rw [Files.unpackMember, htrim, if_neg (by simp [hutf, hnonempty]), mode_format x.content x.perm_lt]
  cases hcontent : x.content with
  | dir =>
    obtain ⟨fs', hfs'⟩ := hnew .directory
    refine ⟨fs', ?_, hB.add hx hw hi his (created_createChild hfs').2 (hcontent ▸ ⟨rfl, .refl _⟩)⟩
    have hdir : fs.ensureDir ([slash].intercalate x.path) = some (fs', fs.vnodes.length) := by
      rw [Files.ensureDir, hparts, ensureDirFrom_append hne hw hx.last.ne_nil, hcreate, hfs']
    simp [Content.format, hdir]
  | file data =>
    obtain ⟨fs', hfs'⟩ := hnew .regular
    have hc := (created_createChild hfs').2
    have hsize : data.length ≤ ramfsMaxBlocks * ramfsBlockSize := by
      have := x.size_le
      rwa [hcontent] at this
    refine ⟨_, ?_, hB.add hx hw hi his (Created.setChild hc (Files.lt_of_inode hi)) (hcontent ▸ is_writeFile hsize [])⟩
    have hpath : fs.ensurePath ([slash].intercalate x.path) = some (fs', some fs.vnodes.length) := by
      rw [Files.ensurePath, hparts, ensurePathFrom_append hne hw hx.last.ne_nil, hcreate, hfs', map_some]
    simp [Content.format, Content.bytes, hpath, Files.writeFile, hc.child]

/-! ## Whole archives -/

/-- the unpacker takes the member -/
def Item.Taken (x : Item) : Prop := utf8Valid x.name = true ∧ x.name ≠ trailer

theorem unpack_items (t : FileTree) {mid post : List Item} (h : t.items = pre ++ (mid ++ post)) (hB : Built fs pre)
    (hok : ∀ x ∈ mid, x.Taken) : ∃ fs', fs.unpackMembers (mid.map Item.member) = some fs' ∧ Built fs' (pre ++ mid) := by
  induction mid generalizing pre fs with
  | nil => exact ⟨fs, rfl, by rwa [append_nil]⟩
  | cons x mid ih =>
    obtain ⟨hutf, hname⟩ := hok x mem_cons_self
    obtain ⟨fs1, h1, hB1⟩ := unpack_item hB (t.next h) hutf
    obtain ⟨fs', h2, hB'⟩ := ih (by simpa using h) hB1 fun y hy => hok y (mem_cons_of_mem _ hy)
    refine ⟨fs', ?_, by simpa using hB'⟩
    have hmember : ¬ x.member.name = trailer := hname
    rw [map_cons, Files.unpackMembers, if_neg hmember]
    exact bind_eq_some_iff.2 ⟨fs1, h1, h2⟩

theorem unpackMembers_append {ms ms' : List Member} (h : ∀ m ∈ ms, m.name ≠ trailer) (fs : Files) :
    fs.unpackMembers (ms ++ ms') = (fs.unpackMembers ms).bind fun fs' => fs'.unpackMembers ms' := by
  induction ms generalizing fs with
  | nil => rfl
  | cons m ms ih =>
    rw [cons_append, Files.unpackMembers, Files.unpackMembers, if_neg (h m mem_cons_self),
      if_neg (h m mem_cons_self), bind_assoc]
    congr 1
    funext fs'
    exact ih (fun m' hm => h m' (mem_cons_of_mem _ hm)) fs'

/-! ## What is left out -/

theorem utf8Valid_slash (a b : Name) : utf8Valid (a ++ slash :: b) = (utf8Valid a && utf8Valid b) := by
  have hcont : utf8Cont slash = false := by decide
  have hslash : utf8Valid (slash :: b) = utf8Valid b := by
    rw [utf8Valid.eq_def]
    exact if_pos (by decide)
  induction a using utf8Valid.induct with
  | case1 => simpa [utf8Valid] using hslash
  | case2 a bs h ih =>
    rw [cons_append, utf8Valid.eq_def, utf8Valid.eq_def (a :: bs)]
    simp [h, ih]
  | case3 a h =>
    rw [utf8Valid.eq_def, utf8Valid.eq_def [a]]
    rcases b with _ | ⟨c, _ | ⟨d, es⟩⟩ <;> simp [h, hcont]
  | case4 a h b' cs h2 ih =>
    rw [cons_append, cons_append, utf8Valid.eq_def, utf8Valid.eq_def (a :: b' :: cs)]
    simp [h, h2, ih, Bool.and_assoc]
  | case5 a h b' h2 =>
    rw [utf8Valid.eq_def, utf8Valid.eq_def [a, b']]
    rcases b with _ | ⟨d, es⟩ <;> simp [h, h2, hcont]
  | case6 a h b' h2 c ds h3 ih =>
    rw [cons_append, cons_append, cons_append, utf8Valid.eq_def, utf8Valid.eq_def (a :: b' :: c :: ds)]
    simp [h, h2, h3, ih, Bool.and_assoc]
  | case7 a h b' h2 c h3 =>
    rw [utf8Valid.eq_def, utf8Valid.eq_def [a, b', c]]
    simp [h, h2, h3, hcont]
  | case8 a h b' h2 c h3 d es ih =>
    rw [cons_append, cons_append, cons_append, cons_append, utf8Valid.eq_def,
      utf8Valid.eq_def (a :: b' :: c :: d :: es)]
    simp [h, h2, h3, ih, Bool.and_assoc]

theorem utf8Valid_intercalate (hpath : path ≠ []) : utf8Valid ([slash].intercalate path) = path.all utf8Valid := by
  induction path with
  | nil => exact absurd rfl hpath
  | cons name rest ih =>
    cases rest with
    | nil => simp
    | cons next rest =>
      rw [intercalate_cons_cons, append_assoc, singleton_append, utf8Valid_slash, ih (cons_ne_nil _ _)]
      rfl

theorem utf8Valid_name (hpath : x.path ≠ []) : utf8Valid x.name = x.path.all utf8Valid := by
  rw [← utf8Valid_intercalate hpath, Item.name]
  cases x.dotted
  · rfl
  · exact utf8Valid_slash [46] _

/-- every entry's name is UTF-8 -/
def Utf8 (fs : Files) : Prop := ∀ v ino, fs.inode v = some ino → ∀ e ∈ ino.children, utf8Valid e.1 = true

/-- what is found stays, and no name appears that is not UTF-8 -/
structure Keeps (fs fs' : Files) : Prop where
  grows : Grows fs fs'
  utf8 : Utf8 fs → Utf8 fs'

theorem Keeps.refl (fs : Files) : Keeps fs fs := ⟨.refl fs, id⟩

theorem Keeps.trans {fs'' : Files} (h : Keeps fs fs') (h' : Keeps fs' fs'') : Keeps fs fs'' :=
  ⟨h.grows.trans h'.grows, h'.utf8 ∘ h.utf8⟩

theorem keeps_createChild {n : ℕ} {vtype : VNodeType} (hname : utf8Valid name = true ∧ name.length ≤ ramfsNameLen)
    (h : fs.createChild dir name vtype = some (fs', n)) : Keeps fs fs' := by
  obtain ⟨-, hc⟩ := created_createChild h
  obtain ⟨ino, hd, -⟩ := map_eq_some_iff.1 h
  refine ⟨hc.grows, ?_⟩
  intro hU v i hi e he
  have hlt := hc.length ▸ Files.lt_of_inode hi
  by_cases hv : v = dir
  · subst hv
    cases (hc.parent ino hd).symm.trans hi
    unfold Inode.addChild at he
    split_ifs at he
    · exact hU v ino hd e he
    · rcases mem_append.1 he with he | he
      · exact hU v ino hd e he
      · rw [mem_singleton.1 he, take_of_length_le hname.2]
        exact hname.1
  · by_cases hlast : v = fs.vnodes.length
    · subst hlast
      cases hc.child.symm.trans hi
      cases he
    · exact hU v i ((hc.other v hv (by omega)).symm.trans hi) e he

theorem keeps_lookupOrCreate {n : ℕ} {vtype : VNodeType} (hname : utf8Valid name = true ∧ name.length ≤ ramfsNameLen)
    (h : fs.lookupOrCreate dir name vtype = some (fs', n)) : Keeps fs fs' := by
  unfold Files.lookupOrCreate at h
  split at h
  · cases h
    exact .refl _
  · exact keeps_createChild hname h

theorem keeps_ensureDirFrom {parts : List Name}
    (hparts : ∀ part ∈ parts, utf8Valid part = true ∧ part.length ≤ ramfsNameLen)
    (h : fs.ensureDirFrom cur parts = some (fs', v)) : Keeps fs fs' := by
  induction parts generalizing fs cur with
  | nil =>
    cases h
    exact .refl _
  | cons part rest ih =>
    have hrest := fun p hp => hparts p (mem_cons_of_mem part hp)
    rw [Files.ensureDirFrom] at h
    split_ifs at h
    · exact ih hrest h
    · obtain ⟨r, h1, h2⟩ := bind_eq_some_iff.1 h
      exact (keeps_lookupOrCreate (hparts part mem_cons_self) h1).trans (ih hrest h2)

theorem keeps_ensurePathFrom {parts : List Name}
    (hparts : ∀ part ∈ parts, utf8Valid part = true ∧ part.length ≤ ramfsNameLen) {v : Option ℕ}
    (h : fs.ensurePathFrom cur parts = some (fs', v)) : Keeps fs fs' := by
  fun_induction Files.ensurePathFrom fs cur parts with
  | case1 | case2 =>
    cases h
    exact .refl _
  | case3 fs dir part hne =>
    obtain ⟨r, h1, h2⟩ := map_eq_some_iff.1 h
    cases h2
    exact keeps_lookupOrCreate (hparts part mem_cons_self) h1
  | case4 fs dir rest _ ih => exact ih (fun p hp => hparts p (mem_cons_of_mem _ hp)) h
  | case5 fs dir part rest _ _ ih =>
    obtain ⟨r, h1, h2⟩ := bind_eq_some_iff.1 h
    exact (keeps_lookupOrCreate (hparts part mem_cons_self) h1).trans
      (ih r (fun p hp => hparts p (mem_cons_of_mem part hp)) h2)

theorem keeps_setInode (hi : fs.inode v = some ino) (data : List UInt8) :
    Keeps fs (fs.setInode v (ino.writeFile data)) := by
  refine ⟨grows_setInode hi rfl rfl, ?_⟩
  intro hU u i hu
  rw [Files.inode_setInode hi] at hu
  split_ifs at hu with huv
  · cases hu
    exact hU v ino hi
  · exact hU u i hu

theorem keeps_item (hpath : x.path ≠ []) (hnames : ∀ name ∈ x.path, Component name)
    (h : fs.unpackMember x.name (x.content.format + x.perm) x.content.bytes = some fs') : Keeps fs fs' := by
  unfold Files.unpackMember at h
  by_cases hskip : utf8Valid x.name = false ∨ trimStart x.name = []
  · rw [if_pos hskip] at h
    cases h
    exact .refl _
  rw [if_neg hskip, trimStart_name hpath hnames] at h
  have hutf : x.path.all utf8Valid = true := by
    rw [← utf8Valid_name hpath]
    simpa using (not_or.1 hskip).1
  have hparts : ∀ part ∈ x.path, utf8Valid part = true ∧ part.length ≤ ramfsNameLen := fun part hp =>
    ⟨all_eq_true.1 hutf part hp, (hnames part hp).length_le⟩
  split_ifs at h
  · obtain ⟨⟨fs1, r⟩, h1, h2⟩ := bind_eq_some_iff.1 h
    rw [Files.ensurePath, splitOn_intercalate hpath hnames] at h1
    have hk := keeps_ensurePathFrom hparts h1
    cases r with
    | none =>
      cases h2
      exact hk
    | some v =>
      obtain ⟨ino, hi, rfl⟩ := map_eq_some_iff.1 h2
      exact hk.trans (keeps_setInode hi _)
  · obtain ⟨⟨fs1, v⟩, h1, rfl⟩ := map_eq_some_iff.1 h
    rw [Files.ensureDir, splitOn_intercalate hpath hnames] at h1
    exact keeps_ensureDirFrom hparts h1
  · cases h
    exact .refl _

theorem keeps_items {items : List Item} (hpath : ∀ x ∈ items, x.path ≠ [])
    (hnames : ∀ x ∈ items, ∀ name ∈ x.path, Component name) (h : fs.unpackMembers (items.map Item.member) = some fs') :
    Keeps fs fs' := by
  induction items generalizing fs with
  | nil =>
    cases h
    exact .refl _
  | cons x items ih =>
    rw [map_cons, Files.unpackMembers] at h
    split_ifs at h
    · cases h
      exact .refl _
    · obtain ⟨fs1, h1, h2⟩ := bind_eq_some_iff.1 h
      exact (keeps_item (hpath x mem_cons_self) (hnames x mem_cons_self) h1).trans
        (ih (fun y hy => hpath y (mem_cons_of_mem _ hy)) (fun y hy => hnames y (mem_cons_of_mem _ hy)) h2)

theorem mem_of_lookup (h : ino.lookup name = some v) : name ∈ ino.children.map Prod.fst := by
  unfold Inode.lookup at h
  split_ifs at h
  obtain ⟨e, he, -⟩ := map_eq_some_iff.1 h
  have hname := find?_some he
  exact mem_map.2 ⟨e, mem_of_find?_eq_some he, of_decide_eq_true hname⟩

theorem utf8_of_walk (hU : Utf8 fs) (h : path.foldlM fs.lookup cur = some v) : path.all utf8Valid = true := by
  induction path generalizing cur with
  | nil => rfl
  | cons name rest ih =>
    obtain ⟨u, hl, hw⟩ := bind_eq_some_iff.1 h
    obtain ⟨ino, hi, hl⟩ := bind_eq_some_iff.1 hl
    obtain ⟨e, he, rfl⟩ := mem_map.1 (mem_of_lookup hl)
    rw [all_cons, ih hw, hU cur ino hi e he]
    rfl

/-- the root written as `.` is an entry of itself -/
theorem unpack_dot (perm : Fin 0o10000) :
    ∃ fs, Files.new.unpackMember [46] (0o040000 + perm) [] = some fs ∧ fs.lookup fs.root [46] = some 1 := by
  have hmode : (0o040000 + perm.val) &&& 0o170000 = 0o040000 := mode_format .dir perm.isLt
  rw [Files.unpackMember, hmode]
  exact ⟨_, rfl, rfl⟩

theorem Built.not_shows (hB : Built fs pre) (hx : Next pre x) {items : List Item} (hmem : x ∈ items) :
    ¬ Shows fs items := by
  intro hS
  obtain ⟨w, -, hw, -⟩ := hS x.path x.content (.inr ⟨x, hmem, rfl, rfl⟩)
  obtain ⟨v, ino, hv, hi, his⟩ := hB.shows _ _ hx.parent
  rw [← dropLast_append_last hx.path_ne, walk_snoc, hv, bind_some, hx.lookup_none hi his] at hw
  cases hw

theorem utf8_new : Utf8 Files.new := by
  intro v ino hi e he
  have hv : v = 0 := Nat.lt_one_iff.1 (Files.lt_of_inode hi)
  subst hv
  cases hi
  cases he

theorem no_trailer (t : FileTree) (hutf : ∀ x ∈ t.items, utf8Valid x.name = true)
    (hrun : Files.new.unpackMembers (t.items.map Item.member) = some fs) (hS : Shows fs t.items) (hx : x ∈ t.items)
    (hname : x.name = trailer) : False := by
  obtain ⟨y, hy⟩ := isSome_iff_exists.1
    (find?_isSome.2 ⟨x, hx, decide_eq_true hname⟩ : (t.items.find? fun x => decide (x.name = trailer)).isSome)
  obtain ⟨hytrailer, pre, post, hsplit, hpre⟩ := find?_eq_some_iff_append.1 hy
  have htaken : ∀ z ∈ pre, z.Taken := fun z hz =>
    ⟨hutf z (hsplit ▸ mem_append_left _ hz), by simpa using hpre z hz⟩
  obtain ⟨fs1, h1, hB⟩ := unpack_items t (hsplit : t.items = [] ++ (pre ++ y :: post)) built_new htaken
  have hmembers : ∀ m ∈ pre.map Item.member, m.name ≠ trailer := by
    intro m hm
    obtain ⟨z, hz, rfl⟩ := mem_map.1 hm
    exact (htaken z hz).2
  have hstop : y.member.name = trailer := of_decide_eq_true hytrailer
  rw [hsplit, map_append, unpackMembers_append hmembers, h1, bind_some, map_cons, Files.unpackMembers,
    if_pos hstop] at hrun
  cases hrun
  exact hB.not_shows (t.next hsplit) (mem_of_find?_eq_some hy) hS

/-- a root written as `.` is an entry too many -/
theorem no_root (t : FileTree) (perm : Fin 0o10000)
    (hrun : Files.new.unpackMembers (rootMember perm :: t.items.map Item.member) = some fs) : ¬ Shows fs t.items := by
  intro hS
  obtain ⟨fs1, h1, hdot⟩ := unpack_dot perm
  obtain ⟨fs1', h1', hrun⟩ := bind_eq_some_iff.1 hrun
  cases h1.symm.trans h1'
  have hk := (keeps_items t.path_ne t.names hrun).grows
  obtain ⟨v, ino, hv, hi, his⟩ := hS [] .dir (.inl ⟨rfl, rfl⟩)
  have hlook := hk.lookup hdot
  obtain rfl : fs.root = v := some.inj hv
  rw [Files.lookup, ← hk.root, hi] at hlook
  obtain ⟨x, hx, hlast⟩ := mem_map.1 (his.2.mem_iff.1 (mem_of_lookup hlook))
  obtain ⟨pre, post, hsplit⟩ := append_of_mem (mem_of_mem_filter hx)
  exact (t.next hsplit).last.ne_dot hlast

/-- **Unpacking the archive of a tree.** Into an empty root it yields exactly that tree if and only if the root is not a
member of the archive, every member's name is UTF-8, and none is spelled like the trailer. -/
theorem unpack_iff (t : FileTree) (root : Option (Fin 0o10000)) (rest : List UInt8) :
    (∃ fs, unpackCpio (t.archive root rest) Files.new = some fs ∧ Shows fs t.items) ↔ root = none ∧ ∀ x ∈ t.items,
    x.Taken := by
  rw [FileTree.archive, unpackCpio_archive]
  constructor
  · rintro ⟨fs, hrun, hS⟩
    cases root with
    | some perm => exact (no_root t perm hrun hS).elim
    | none =>
      have hutf : ∀ x ∈ t.items, utf8Valid x.name = true := by
        intro x hx
        obtain ⟨v, -, hw, -⟩ := hS x.path x.content (.inr ⟨x, hx, rfl, rfl⟩)
        rw [utf8Valid_name (t.path_ne x hx)]
        exact utf8_of_walk ((keeps_items t.path_ne t.names hrun).utf8 utf8_new) hw
      exact ⟨rfl, fun x hx => ⟨hutf x hx, no_trailer t hutf hrun hS hx⟩⟩
  · rintro ⟨rfl, hok⟩
    have hall : t.items = [] ++ (t.items ++ []) := by simp
    obtain ⟨fs, hrun, hB⟩ := unpack_items t hall built_new hok
    exact ⟨fs, hrun, hB.shows⟩

/-- the file `a` with one byte -/
def oneFile : FileTree where
  items := [⟨[[97]], .file [120], true, 0o644, fun _ => 0, false, by decide, by decide, by decide⟩]
  path_ne := by simp
  distinct := by simp
  ordered := by
    intro pre x post h hne
    obtain ⟨rfl, hx⟩ | ⟨rfl, hx⟩ := List.append_eq_singleton_iff.1 h.symm
    · obtain ⟨rfl, -⟩ := List.cons.inj hx
      exact absurd rfl hne
    · cases hx
  names := by
    intro x hx name hname
    obtain rfl := List.mem_singleton.1 hx
    obtain rfl := List.mem_singleton.1 hname
    exact ⟨by decide, by decide, by decide, by decide⟩
  width p := (List.length_map _).trans_le ((List.length_filter_le _ _).trans (by decide))

/-- **The root becomes an entry of itself.** The archive of a tree with one file, with the root written as `.`: the root
directory then has an entry `.` that the tree has not. -/
theorem dot_entry : ∃ fs, unpackCpio (oneFile.archive (some 0o755) []) Files.new = some fs ∧
    (fs.lookup fs.root [46]).isSome = true ∧
    ¬ Shows fs oneFile.items := by
  have hrun : (unpackCpio (oneFile.archive (some 0o755) []) Files.new).any (fun fs => (fs.lookup fs.root [46]).isSome) =
    true := by
    decide +kernel
  obtain ⟨fs, hfs⟩ := isSome_iff_exists.1 (isSome_of_any hrun)
  rw [hfs] at hrun
  refine ⟨fs, hfs, hrun, ?_⟩
  rw [FileTree.archive, unpackCpio_archive] at hfs
  exact no_root oneFile 0o755 hfs

end Rumicos.Fs.Unpack
