/-
Descriptor tables and the refcounts of pipe ends (`crates/proc/src/fd.rs`, `process.rs`, `vma.rs`,
`crates/fs/src/pipe.rs`).

A pipe has no counter of its readers and writers: the refcount of an end's VNode stands for the number of descriptors of
that end. The refcount is changed by pipe creation, dup, dup2, close, fork, clone and exit, and also by mmap and munmap,
which treat any descriptor as a file that can be mapped.

Every process has its own table (clone copies it), so the calls of one process do not overlap; `System.step` is one system
call. An address space is what mmap leaves behind in it: the VNodes of its file-backed areas. fork copies them, clone
shares them, execve starts an empty one.
-/
import Mathlib.Data.BitVec
import Rumicos.Lib.Bags
import Rumicos.Fs.Pipe

namespace Rumicos.Proc.Descriptors

open Lib Fs.Pipes Function List Option

/-! ## Tables -/

inductive VNode where
  | file (n : ℕ)
  | pipeEnd (pipe : ℕ) (side : Side)
deriving DecidableEq

def VNode.isPipe : VNode → Bool
  | .file _ => false
  | .pipeEnd _ _ => true

structure FdEntry where
  vnode : VNode
  flags : ℕ
deriving DecidableEq

/-- O_WRONLY or O_RDWR -/
def FdEntry.canWrite (e : FdEntry) : Bool := e.flags &&& 3 == 1 || e.flags &&& 3 == 2

/-- MAX_FDS slots -/
abbrev FdTable (E : Type) := Fin 64 → Option E

/-- the slot of a descriptor number in range -/
def slotOf (fd : ℤ) : Option (Fin 64) := if h : 0 ≤ fd ∧ fd < 64 then some ⟨fd.toNat, by omega⟩ else none

def FdTable.get {E : Type} (t : FdTable E) (fd : ℤ) : Option E := (slotOf fd).bind t

/-- the lowest free slot -/
def FdTable.free {E : Type} (t : FdTable E) : Option (Fin 64) := (List.finRange 64).find? fun i => (t i).isNone

/-- the VNodes of the occupied slots -/
def FdTable.vnodes (t : FdTable FdEntry) : List VNode := (List.finRange 64).filterMap fun i => (t i).map FdEntry.vnode

/-! ## Processes -/

structure Process where
  fds : FdTable FdEntry
  /-- its address space -/
  space : ℕ
  /-- has not exited -/
  live : Bool

structure System where
  /-- PROCESS_TABLE -/
  procs : Fin 64 → Option Process
  refcount : VNode → BitVec 32
  /-- the VNodes of the file-backed areas of each address space -/
  spaces : List (List VNode)
  /-- the number of pipes made so far -/
  pipes : ℕ

/-- one process with no descriptors -/
def System.new (refcount : VNode → BitVec 32) : System :=
  ⟨fun p => if p = 0 then some ⟨fun _ => none, 0, true⟩ else none, refcount, [[]], 0⟩

namespace System

def incRef (s : System) (v : VNode) : System :=
  { s with refcount := update s.refcount v (s.refcount v + 1) }

def decRef (s : System) (v : VNode) : System :=
  { s with refcount := update s.refcount v (s.refcount v - 1) }

/-- `ops.release`: the pipe ends count down, other VNodes do nothing -/
def release (s : System) (v : VNode) : System := if v.isPipe then s.decRef v else s

def setFds (s : System) (p : Fin 64) (q : Process) (t : FdTable FdEntry) : System :=
  { s with procs := update s.procs p (some { q with fds := t }) }

/-- `sys_pipe`: the end VNodes start at refcount 1 before the slots are looked for -/
def sysPipe (s : System) (p : Fin 64) (q : Process) : System :=
  let r : VNode := .pipeEnd s.pipes .read
  let w : VNode := .pipeEnd s.pipes .write
  let s := { s with
    refcount := update (update s.refcount r 1) w 1
    pipes := s.pipes + 1 }
  match q.fds.free with
  | none => s
  | some i =>
    let t := update q.fds i (some ⟨r, 0⟩)
    match FdTable.free t with
    | none => s
    | some j => s.setFds p q (update t j (some ⟨w, 1⟩))

def dup (s : System) (p : Fin 64) (q : Process) (oldFd : ℤ) : System :=
  match q.fds.get oldFd with
  | none => s
  | some e =>
    match q.fds.free with
    | none => s
    | some i => (s.setFds p q (update q.fds i (some e))).incRef e.vnode

/-- `FdTable::dup2` -/
def dup2 (s : System) (p : Fin 64) (q : Process) (oldFd newFd : ℤ) : System :=
  if oldFd = newFd then s
  else
    match q.fds.get oldFd with
    | none => s
    | some e =>
      match slotOf newFd with
      | none => s
      | some j =>
        let s := match q.fds j with
          | some old => s.decRef old.vnode
          | none => s
        (s.setFds p q (update q.fds j (some e))).incRef e.vnode

/-- `sys_close` -/
def close (s : System) (p : Fin 64) (q : Process) (fd : ℤ) : System :=
  match slotOf fd with
  | none => s
  | some i =>
    match q.fds i with
    | none => s
    | some e => (s.setFds p q (update q.fds i none)).release e.vnode

/-- `sys_open` of a file -/
def openFile (s : System) (p : Fin 64) (q : Process) (n flags : ℕ) : System :=
  match q.fds.free with
  | none => s
  | some i => s.setFds p q (update q.fds i (some ⟨.file n, flags⟩))

/-- a new process in the first free entry of PROCESS_TABLE; a full table panics -/
def register (s : System) (q : Process) : Option System :=
  ((List.finRange 64).find? fun i => (s.procs i).isNone).map fun i =>
    { s with procs := update s.procs i (some q) }

/-- `sys_fork`: `clone_for_fork` counts every descriptor, the areas are copied as they are -/
def fork (s : System) (q : Process) : Option System :=
  let s' := q.fds.vnodes.foldl incRef s
  register { s' with spaces := s.spaces ++ [s.spaces.getD q.space []] } ⟨q.fds, s.spaces.length, true⟩

/-- `sys_clone` with CLONE_VM -/
def cloneVm (s : System) (q : Process) : Option System :=
  register (q.fds.vnodes.foldl incRef s) ⟨q.fds, q.space, true⟩

/-- whether `sys_mmap` of a descriptor gets as far as the reference it takes -/
def mmapTakes (q : Process) (fd : ℤ) (shared writable : Bool) : Option VNode :=
  match q.fds.get fd with
  | none => none
  | some e => if shared && writable && !e.canWrite then none else some e.vnode

/-- `sys_mmap` of a descriptor; `room` says whether the address space has room -/
def mmap (s : System) (q : Process) (fd : ℤ) (shared writable room : Bool) : System :=
  match mmapTakes q fd shared writable with
  | none => s
  | some v =>
    if room then { s.incRef v with spaces := s.spaces.set q.space (s.spaces.getD q.space [] ++ [v]) }
    else (s.incRef v).decRef v

/-- `munmap` of the `j`-th area -/
def munmap (s : System) (q : Process) (j : ℕ) : System :=
  match (s.spaces.getD q.space [])[j]? with
  | none => s
  | some v => { s.decRef v with spaces := s.spaces.set q.space ((s.spaces.getD q.space []).eraseIdx j) }

/-- `execve` that succeeds: the descriptors stay -/
def execve (s : System) (p : Fin 64) (q : Process) : System :=
  { s with
    procs := update s.procs p (some { q with space := s.spaces.length })
    spaces := s.spaces ++ [[]] }

def exit (s : System) (p : Fin 64) (q : Process) : System :=
  q.fds.vnodes.foldl release
    { s with procs := update s.procs p (some { q with fds := fun _ => none, live := false }) }

end System

inductive Call where
  | pipe
  | dup (oldFd : ℤ)
  | dup2 (oldFd newFd : ℤ)
  | close (fd : ℤ)
  | openFile (n flags : ℕ)
  | fork
  | cloneVm
  | mmap (fd : ℤ) (shared writable room : Bool)
  | munmap (j : ℕ)
  | execve
  | exit
  /-- a parent reaps this process -/
  | reap
deriving DecidableEq

def System.call (s : System) (p : Fin 64) (q : Process) : Call → Option System
  | .pipe => some (s.sysPipe p q)
  | .dup oldFd => some (s.dup p q oldFd)
  | .dup2 oldFd newFd => some (s.dup2 p q oldFd newFd)
  | .close fd => some (s.close p q fd)
  | .openFile n flags => some (s.openFile p q n flags)
  | .fork => s.fork q
  | .cloneVm => s.cloneVm q
  | .mmap fd shared writable room => some (s.mmap q fd shared writable room)
  | .munmap j => some (s.munmap q j)
  | .execve => some (s.execve p q)
  | .exit => some (s.exit p q)
  | .reap => none

/-- a call of process `p`, or the reaping of a process that has exited -/
def System.step (s : System) (a : Fin 64 × Call) : Option System :=
  match s.procs a.1 with
  | none => none
  | some q =>
    if q.live then s.call a.1 q a.2
    else if a.2 = .reap then some { s with procs := update s.procs a.1 none } else none

def System.run (s : System) (as : List (Fin 64 × Call)) : Option System := as.foldlM System.step s

/-! ## Counting the slots that name an end -/

/-- 1 for a slot that names `v` -/
def hit (v : VNode) (o : Option FdEntry) : ℕ := if o.map FdEntry.vnode = some v then 1 else 0

def FdTable.count (t : FdTable FdEntry) (v : VNode) : ℕ := ∑ i, hit v (t i)

/-- the slots of one entry of PROCESS_TABLE -/
def names (v : VNode) : Option Process → ℕ
  | none => 0
  | some q => if q.live then q.fds.count v else 0

/-- the occupied slots that name `v` in the tables of all live processes -/
def System.slots (s : System) (v : VNode) : ℕ := ∑ p, names v (s.procs p)

theorem hit_some (v : VNode) (e : FdEntry) : hit v (some e) = if v = e.vnode then 1 else 0 := by
  simp [hit, eq_comm]

@[simp] theorem hit_none (v : VNode) : hit v none = 0 := rfl

theorem count_update (t : FdTable FdEntry) (i : Fin 64) (o : Option FdEntry) (v : VNode) :
    FdTable.count (update t i o) v + hit v (t i) = t.count v + hit v o := sum_update t (hit v) i o

theorem count_update_free (t : FdTable FdEntry) (i : Fin 64) (e : FdEntry) (v : VNode) (h : t i = none) :
    FdTable.count (update t i (some e)) v = t.count v + if v = e.vnode then 1 else 0 := by
  have := count_update t i (some e) v
  rwa [h, hit_none, Nat.add_zero, hit_some] at this

theorem count_pos {t : FdTable FdEntry} {i : Fin 64} {e : FdEntry} (h : t i = some e) : 0 < t.count e.vnode := by
  have h1 : 1 = hit e.vnode (t i) := by rw [h, hit_some, if_pos rfl]
  calc 0 < 1 := Nat.one_pos
    _ = hit e.vnode (t i) := h1
    _ ≤ t.count e.vnode :=
      Finset.single_le_sum (f := fun i => hit e.vnode (t i)) (fun _ _ => Nat.zero_le _) (Finset.mem_univ i)

theorem count_le (t : FdTable FdEntry) (v : VNode) : t.count v ≤ 64 := by
  calc t.count v ≤ ∑ _i : Fin 64, 1 := Finset.sum_le_sum fun i _ => by unfold hit; split <;> omega
    _ = 64 := by simp

theorem count_vnodes (t : FdTable FdEntry) (v : VNode) : t.vnodes.count v = t.count v := by
  have h (l : List (Fin 64)) :
      (l.filterMap fun i => (t i).map FdEntry.vnode).count v = (l.map fun i => hit v (t i)).sum := by
    induction l with
    | nil => rfl
    | cons i l ih =>
      rw [map_cons, sum_cons, ← ih]
      rcases hi : t i with _ | e
      · rw [filterMap_cons_none (by rw [hi]; rfl), hit_none, Nat.zero_add]
      · rw [filterMap_cons_some (b := e.vnode) (by rw [hi]; rfl), hit_some, Nat.add_comm]
        rcases eq_or_ne v e.vnode with rfl | hne
        · simp
        · simp [hne, hne.symm]
  rw [FdTable.vnodes, h, FdTable.count, Fin.sum_univ_def]

theorem names_le (v : VNode) (o : Option Process) : names v o ≤ 64 := by
  unfold names
  split
  · omega
  · split
    · exact count_le _ v
    · omega

theorem slots_le (s : System) (v : VNode) : s.slots v ≤ 4096 := by
  calc s.slots v ≤ ∑ _p : Fin 64, 64 := Finset.sum_le_sum fun p _ => names_le v _
    _ = 4096 := by simp

theorem slots_update (s : System) (p : Fin 64) (o : Option Process) (v : VNode) (ref : VNode → BitVec 32)
    (spaces : List (List VNode)) (pipes : ℕ) :
    System.slots ⟨update s.procs p o, ref, spaces, pipes⟩ v + names v (s.procs p) = s.slots v + names v o :=
  sum_update s.procs (names v) p o

variable {s s' : System} {n : ℕ} {p : Fin 64} {q : Process}

theorem slots_eq_zero_iff {v : VNode} :
    s.slots v = 0 ↔ ∀ p q, s.procs p = some q → q.live = true → ∀ i e, q.fds i = some e → e.vnode ≠ v := by
  constructor
  · rintro h p q hp hl i e he rfl
    have h0 : names e.vnode (s.procs p) = 0 := (Finset.sum_eq_zero_iff.1 h) p (Finset.mem_univ p)
    rw [hp, names, if_pos hl] at h0
    exact absurd h0 (count_pos he).ne'
  · intro h
    refine Finset.sum_eq_zero fun p _ => ?_
    rcases hp : s.procs p with _ | q
    · rfl
    · rw [names]
      split
      · rename_i hl
        refine Finset.sum_eq_zero fun i _ => ?_
        rcases hi : q.fds i with _ | e
        · rfl
        · rw [hit_some, if_neg fun hv => h p q hp hl i e hi hv.symm]
      · rfl

/-! ## The balance -/

/-- no pipe end is mapped -/
def Clean (spaces : List (List VNode)) : Prop := ∀ l ∈ spaces, ∀ v ∈ l, v.isPipe = false

/-- the refcount and the slots of every pipe end move together, no end that no slot names gets one, and none is mapped -/
structure Balanced (s s' : System) : Prop where
  pipes : s'.pipes = s.pipes
  refs : ∀ n d, s'.refcount (.pipeEnd n d) + s.slots (.pipeEnd n d) = s.refcount (.pipeEnd n d) + s'.slots (.pipeEnd n d)
  unnamed : ∀ n d, s.slots (.pipeEnd n d) = 0 → s'.slots (.pipeEnd n d) = 0
  clean : Clean s.spaces → Clean s'.spaces

theorem Balanced.refl (s : System) : Balanced s s := ⟨rfl, fun _ _ => rfl, fun _ _ h => h, id⟩

section Effects

section Clean

variable {spaces : List (List VNode)} {l : List VNode}

theorem Clean.getD (h : Clean spaces) (k : ℕ) : ∀ v ∈ spaces.getD k [], v.isPipe = false := by
  rw [getD_eq_getElem?_getD]
  rcases hk : spaces[k]? with _ | l
  · nofun
  · exact h l (mem_of_getElem? hk)

theorem Clean.set (h : Clean spaces) (k : ℕ) (hl : ∀ v ∈ l, v.isPipe = false) : Clean (spaces.set k l) :=
  forall_mem_set h hl

theorem Clean.append (h : Clean spaces) (hl : ∀ v ∈ l, v.isPipe = false) : Clean (spaces ++ [l]) :=
  forall_mem_append.2 ⟨h, forall_mem_singleton.2 hl⟩

end Clean

theorem refcount_incRef (s : System) (v w : VNode) :
    (s.incRef v).refcount w = s.refcount w + (if w = v then 1 else 0 : ℕ) := by
  rcases eq_or_ne w v with rfl | h
  · simp [System.incRef]
  · simp [System.incRef, h]

theorem refcount_decRef (s : System) (v w : VNode) :
    (s.decRef v).refcount w = s.refcount w - (if w = v then 1 else 0 : ℕ) := by
  rcases eq_or_ne w v with rfl | h
  · simp [System.decRef]
  · simp [System.decRef, h]

theorem refcount_release (s : System) (v : VNode) (n : ℕ) (d : Side) :
    (s.release v).refcount (.pipeEnd n d) =
      s.refcount (.pipeEnd n d) - (if VNode.pipeEnd n d = v then 1 else 0 : ℕ) := by
  unfold System.release
  split
  · exact refcount_decRef s v _
  · rename_i h
    have hne : VNode.pipeEnd n d ≠ v := by
      rintro rfl
      exact h rfl
    simp [hne]

theorem cast_balance {a b c d : ℕ} (h : a + b = c + d) : (a : BitVec 32) + b = c + d := by
  rw [← Nat.cast_add, h, Nat.cast_add]

theorem names_eq_zero {v : VNode} (h : s.slots v = 0) (p : Fin 64) : names v (s.procs p) = 0 :=
  (Finset.sum_eq_zero_iff.1 h) p (Finset.mem_univ p)

theorem names_live (hp : s.procs p = some q) (hl : q.live = true) (v : VNode) : names v (s.procs p) = q.fds.count v := by
  rw [hp, names, if_pos hl]

theorem count_eq_zero (hp : s.procs p = some q) (hl : q.live = true) {v : VNode} (h : s.slots v = 0) :
    q.fds.count v = 0 := (names_live hp hl v).symm.trans (names_eq_zero h p)

variable {i : Fin 64}

theorem ne_of_count {t : FdTable FdEntry} {v : VNode} {e : FdEntry} (h : t.count v = 0) (he : t i = some e) :
    v ≠ e.vnode := by
  rintro rfl
  exact (count_pos he).ne' h

theorem balanced_update (p : Fin 64) (o : Option Process) (ref : VNode → BitVec 32) (spaces : List (List VNode))
    (hr : ∀ n d, ref (.pipeEnd n d) + names (.pipeEnd n d) (s.procs p) =
      s.refcount (.pipeEnd n d) + names (.pipeEnd n d) o)
    (hu : ∀ n d, s.slots (.pipeEnd n d) = 0 → names (.pipeEnd n d) o = 0) (hc : Clean s.spaces → Clean spaces) :
    Balanced s ⟨update s.procs p o, ref, spaces, s.pipes⟩ := by
  refine ⟨rfl, fun n d => ?_, fun n d h => ?_, hc⟩
  · have hs := cast_balance (slots_update s p o (.pipeEnd n d) ref spaces s.pipes)
    linear_combination hr n d - hs
  · have hs := slots_update s p o (.pipeEnd n d) ref spaces s.pipes
    have h0 := hu n d h
    omega

theorem balanced_table (hp : s.procs p = some q) (hl : q.live = true) (t : FdTable FdEntry) (ref : VNode → BitVec 32)
    (hr : ∀ n d, ref (.pipeEnd n d) + q.fds.count (.pipeEnd n d) = s.refcount (.pipeEnd n d) + t.count (.pipeEnd n d))
    (hu : ∀ n d, q.fds.count (.pipeEnd n d) = 0 → t.count (.pipeEnd n d) = 0) :
    Balanced s ⟨update s.procs p (some { q with fds := t }), ref, s.spaces, s.pipes⟩ := by
  have hnew (v : VNode) : names v (some { q with fds := t }) = t.count v := if_pos hl
  refine balanced_update p _ ref s.spaces (fun n d => ?_) (fun n d h => ?_) id
  · rw [hnew, names_live hp hl]
    exact hr n d
  · rw [hnew]
    exact hu n d (count_eq_zero hp hl h)

theorem free_spec {E : Type} {t : FdTable E} (h : t.free = some i) : t i = none :=
  isNone_iff_eq_none.1 (find?_some (p := fun i => (t i).isNone) h)

section

variable (hp : s.procs p = some q) (hl : q.live = true)
include hp hl

theorem balanced_dup (oldFd : ℤ) : Balanced s (s.dup p q oldFd) := by
  unfold System.dup
  split
  · exact .refl s
  rename_i e he
  obtain ⟨j, -, hj⟩ := bind_eq_some_iff.1 he
  split
  · exact .refl s
  rename_i i hi
  have hcount (v : VNode) := count_update_free q.fds i e v (free_spec hi)
  refine balanced_table hp hl _ (s.incRef e.vnode).refcount (fun n d => ?_) fun n d h => ?_
  · rw [hcount, Nat.cast_add, refcount_incRef]
    ring
  · rw [hcount, h, if_neg (ne_of_count h hj)]

theorem balanced_dup2 (oldFd newFd : ℤ) :
    Balanced s (s.dup2 p q oldFd newFd) := by
  unfold System.dup2
  split
  · exact .refl s
  split
  · exact .refl s
  rename_i e he
  obtain ⟨i, -, hi⟩ := bind_eq_some_iff.1 he
  split
  · exact .refl s
  rename_i j hj
  have hcount (v : VNode) := count_update q.fds j (some e) v
  have hunnamed (n : ℕ) (d : Side) (h : q.fds.count (.pipeEnd n d) = 0) :
      FdTable.count (update q.fds j (some e)) (.pipeEnd n d) = 0 := by
    have h1 := hcount (.pipeEnd n d)
    rw [hit_some, if_neg (ne_of_count h hi)] at h1
    omega
  rcases hold : q.fds j with _ | old
  · refine balanced_table hp hl _ (s.incRef e.vnode).refcount (fun n d => ?_) hunnamed
    rw [refcount_incRef, count_update_free q.fds j e _ hold, Nat.cast_add]
    ring
  · refine balanced_table hp hl _ ((s.decRef old.vnode).incRef e.vnode).refcount (fun n d => ?_) hunnamed
    have hc := cast_balance (hcount (.pipeEnd n d))
    rw [hold, hit_some, hit_some] at hc
    rw [refcount_incRef, refcount_decRef]
    linear_combination -hc

theorem balanced_close (fd : ℤ) : Balanced s (s.close p q fd) := by
  unfold System.close
  split
  · exact .refl s
  rename_i i _
  split
  · exact .refl s
  rename_i e he
  have hcount (v : VNode) : FdTable.count (update q.fds i none) v + (if v = e.vnode then 1 else 0) = q.fds.count v := by
    have := count_update q.fds i none v
    rwa [he, hit_some, hit_none, Nat.add_zero] at this
  have hs' : (s.setFds p q (update q.fds i none)).release e.vnode =
      ⟨update s.procs p (some { q with fds := update q.fds i none }),
        (s.release e.vnode).refcount, s.spaces, s.pipes⟩ := by
    unfold System.release
    split <;> rfl
  rw [hs']
  refine balanced_table hp hl _ _ (fun n d => ?_) fun n d h => ?_
  · rw [refcount_release, ← hcount, Nat.cast_add]
    ring
  · have h1 := hcount (.pipeEnd n d)
    omega

theorem balanced_openFile (n flags : ℕ) :
    Balanced s (s.openFile p q n flags) := by
  unfold System.openFile
  split
  · exact .refl s
  rename_i i hi
  have hcount (k : ℕ) (d : Side) : FdTable.count (update q.fds i (some ⟨.file n, flags⟩)) (.pipeEnd k d) =
      q.fds.count (.pipeEnd k d) := by
    rw [count_update_free q.fds i _ _ (free_spec hi), if_neg (by simp), Nat.add_zero]
  refine balanced_table hp hl _ _ (fun k d => ?_) fun k d h => ?_
  · rw [hcount]
  · rw [hcount, h]

end

theorem foldl_incRef (vs : List VNode) (s : System) :
    vs.foldl System.incRef s = { s with refcount := fun w => s.refcount w + vs.count w } := by
  induction vs generalizing s with
  | nil => simp
  | cons v vs ih =>
    rw [foldl_cons, ih]
    congr 1
    funext w
    rw [refcount_incRef]
    rcases eq_or_ne w v with rfl | h
    · simp [add_assoc, add_comm]
    · simp [h, h.symm]

theorem foldl_release (vs : List VNode) (s : System) :
    ∃ ref : VNode → BitVec 32, vs.foldl System.release s = { s with refcount := ref } ∧
      ∀ n d, ref (.pipeEnd n d) = s.refcount (.pipeEnd n d) - (vs.count (.pipeEnd n d) : ℕ) := by
  induction vs generalizing s with
  | nil => exact ⟨s.refcount, rfl, by simp⟩
  | cons v vs ih =>
    obtain ⟨ref, hfold, href⟩ := ih (s.release v)
    refine ⟨ref, ?_, fun n d => ?_⟩
    · rw [foldl_cons, hfold]
      unfold System.release
      split <;> rfl
    · rw [href, refcount_release]
      rcases eq_or_ne v (.pipeEnd n d) with rfl | h
      · simp [sub_sub, add_comm]
      · simp [h, h.symm]

theorem register_spec (h : s.register q = some s') :
    ∃ i, s.procs i = none ∧ s' = { s with procs := update s.procs i (some q) } := by
  obtain ⟨i, hi, rfl⟩ := map_eq_some_iff.1 h
  exact ⟨i, isNone_iff_eq_none.1 (find?_some (p := fun i => (s.procs i).isNone) hi), rfl⟩

section

variable (hp : s.procs p = some q) (hl : q.live = true)
include hp hl

theorem balanced_child (hi : s.procs i = none) (space : ℕ)
    (spaces : List (List VNode)) (hc : Clean s.spaces → Clean spaces) :
    Balanced s ⟨update s.procs i (some ⟨q.fds, space, true⟩),
      fun w => s.refcount w + q.fds.vnodes.count w, spaces, s.pipes⟩ := by
  have hnew (v : VNode) : names v (some ⟨q.fds, space, true⟩) = q.fds.count v := rfl
  refine balanced_update i _ _ spaces (fun n d => ?_) (fun n d h => count_eq_zero hp hl h) hc
  rw [hi, hnew, count_vnodes, names, Nat.cast_zero, add_zero]

theorem balanced_fork (h : s.fork q = some s') : Balanced s s' := by
  unfold System.fork at h
  rw [foldl_incRef] at h
  obtain ⟨i, hi, rfl⟩ := register_spec h
  exact balanced_child hp hl hi _ _ fun hc => hc.append (hc.getD q.space)

theorem balanced_cloneVm (h : s.cloneVm q = some s') : Balanced s s' := by
  unfold System.cloneVm at h
  rw [foldl_incRef] at h
  obtain ⟨i, hi, rfl⟩ := register_spec h
  exact balanced_child hp hl hi _ _ id

theorem balanced_exit : Balanced s (s.exit p q) := by
  unfold System.exit
  obtain ⟨ref, hfold, href⟩ := foldl_release q.fds.vnodes
    { s with procs := update s.procs p (some { q with fds := fun _ => none, live := false }) }
  rw [hfold]
  refine balanced_update p _ ref s.spaces (fun n d => ?_) (fun n d _ => rfl) id
  rw [names_live hp hl, href, count_vnodes, names, if_neg (by simp)]
  ring

end

theorem balanced_execve (hp : s.procs p = some q) : Balanced s (s.execve p q) := by
  have hnew (v : VNode) : names v (some { q with space := s.spaces.length }) = names v (s.procs p) := by rw [hp]; rfl
  refine balanced_update p _ s.refcount _ (fun n d => ?_) (fun n d h => ?_) fun hc => hc.append nofun
  · rw [hnew]
  · rw [hnew, names_eq_zero h]

theorem balanced_reap (hp : s.procs p = some q) (hl : q.live = false) :
    Balanced s { s with procs := update s.procs p none } := by
  refine balanced_update p none s.refcount s.spaces (fun n d => ?_) (fun n d _ => rfl) id
  have hdead : names (.pipeEnd n d) (some q) = 0 := by simp [names, hl]
  rw [hp, hdead]
  rfl

theorem balanced_files (ref : VNode → BitVec 32) (spaces : List (List VNode))
    (h : ∀ n d, ref (.pipeEnd n d) = s.refcount (.pipeEnd n d)) (hc : Clean s.spaces → Clean spaces) :
    Balanced s ⟨s.procs, ref, spaces, s.pipes⟩ :=
  ⟨rfl, fun n d => congrArg (· + ((s.slots (.pipeEnd n d) : ℕ) : BitVec 32)) (h n d), fun _ _ h0 => h0, hc⟩

end Effects

/-! ## The invariant -/

structure Inv (s : System) : Prop where
  refs : ∀ n < s.pipes, ∀ d, s.refcount (.pipeEnd n d) = s.slots (.pipeEnd n d)
  /-- the slots name pipes that exist -/
  unnamed : ∀ n, s.pipes ≤ n → ∀ d, s.slots (.pipeEnd n d) = 0
  clean : Clean s.spaces

theorem Inv.balanced (h : Inv s) (hb : Balanced s s') : Inv s' := by
  refine ⟨fun n hn d => ?_, fun n hn d => ?_, hb.clean h.clean⟩
  · rw [hb.pipes] at hn
    have hr := hb.refs n d
    rw [h.refs n hn d] at hr
    linear_combination hr
  · rw [hb.pipes] at hn
    exact hb.unnamed n d (h.unnamed n hn d)

theorem inv_new (ref : VNode → BitVec 32) : Inv (.new ref) := by
  refine ⟨fun n hn => absurd hn (Nat.not_lt_zero n), fun n _ d => ?_, by simp [System.new, Clean]⟩
  rw [slots_eq_zero_iff]
  intro p q hp _ i e he
  simp only [System.new] at hp
  split at hp
  · cases hp
    cases he
  · cases hp

/-- two free slots: `sys_pipe` gets its descriptors -/
def TwoFree (t : FdTable FdEntry) : Prop := ∃ i j, i ≠ j ∧ t i = none ∧ t j = none

theorem free_eq_none_iff {E : Type} {t : FdTable E} : t.free = none ↔ ∀ i, t i ≠ none := by
  simp [FdTable.free]

section

variable (s : System) (p : Fin 64) (q : Process)

/-- what `sys_pipe` does to the slots: both descriptors, or neither -/
theorem sysPipe_slots :
    (TwoFree q.fds ∧ ∃ t : FdTable FdEntry, (∀ v, t.count v = q.fds.count v +
        ((if v = .pipeEnd s.pipes .read then 1 else 0) + if v = .pipeEnd s.pipes .write then 1 else 0)) ∧
        (s.sysPipe p q).procs = update s.procs p (some { q with fds := t })) ∨
      (¬ TwoFree q.fds ∧ (s.sysPipe p q).procs = s.procs) := by
  unfold System.sysPipe
  rcases hi : q.fds.free with _ | i
  · refine .inr ⟨?_, rfl⟩
    rintro ⟨i, _, _, h, _⟩
    exact free_eq_none_iff.1 hi i h
  have hi' := free_spec hi
  dsimp only
  rcases hj : FdTable.free (update q.fds i (some ⟨.pipeEnd s.pipes .read, 0⟩)) with _ | j
  · refine .inr ⟨?_, rfl⟩
    rintro ⟨k, l, hkl, hk, hl⟩
    have hno := free_eq_none_iff.1 hj
    have hone (m : Fin 64) (hm : q.fds m = none) : m = i := by
      by_contra hne
      exact hno m (by rw [update_of_ne hne, hm])
    exact hkl ((hone k hk).trans (hone l hl).symm)
  · have hj' := free_spec hj
    have hne : j ≠ i := by
      rintro rfl
      rw [update_self] at hj'
      cases hj'
    refine .inl ⟨⟨i, j, hne.symm, hi', by rwa [update_of_ne hne] at hj'⟩, _, fun v => ?_, rfl⟩
    rw [count_update_free _ j _ v hj', count_update_free _ i _ v hi', Nat.add_assoc]

theorem sysPipe_made :
    (s.sysPipe p q).pipes = s.pipes + 1 ∧ (s.sysPipe p q).spaces = s.spaces ∧ (s.sysPipe p q).refcount =
      update (update s.refcount (.pipeEnd s.pipes .read) 1) (.pipeEnd s.pipes .write) 1 := by
  unfold System.sysPipe
  dsimp only
  repeat' split
  all_goals exact ⟨rfl, rfl, rfl⟩

theorem sysPipe_refcount_new (d : Side) :
    (s.sysPipe p q).refcount (.pipeEnd s.pipes d) = 1 := by
  rw [(sysPipe_made s p q).2.2]
  cases d with
  | read => rw [update_of_ne (by simp), update_self]
  | write => rw [update_self]

theorem sysPipe_refcount_old (hn : n ≠ s.pipes) (d : Side) :
    (s.sysPipe p q).refcount (.pipeEnd n d) = s.refcount (.pipeEnd n d) := by
  rw [(sysPipe_made s p q).2.2, update_of_ne (by simp [hn]), update_of_ne (by simp [hn])]

end

section Steps

theorem slots_sysPipe (hp : s.procs p = some q) (hl : q.live = true) (hf : TwoFree q.fds) (n : ℕ) (d : Side) :
    (s.sysPipe p q).slots (.pipeEnd n d) = s.slots (.pipeEnd n d) + if n = s.pipes then 1 else 0 := by
  obtain ⟨-, t, ht, hprocs⟩ | ⟨hno, -⟩ := sysPipe_slots s p q
  · have hs := slots_update s p (some { q with fds := t }) (.pipeEnd n d) s.refcount s.spaces s.pipes
    have hnew : names (.pipeEnd n d) (some { q with fds := t }) = t.count (.pipeEnd n d) := by rw [names, if_pos hl]
    rw [hnew, ht, names_live hp hl] at hs
    have hslots : (s.sysPipe p q).slots (.pipeEnd n d) =
        System.slots ⟨update s.procs p (some { q with fds := t }), s.refcount, s.spaces, s.pipes⟩
          (.pipeEnd n d) := by
      rw [System.slots, hprocs]
      rfl
    have hends : ((if VNode.pipeEnd n d = .pipeEnd s.pipes .read then 1 else 0) +
        if VNode.pipeEnd n d = .pipeEnd s.pipes .write then 1 else 0) = if n = s.pipes then 1 else 0 := by
      cases d <;> simp
    omega
  · exact absurd hf hno

theorem inv_sysPipe (h : Inv s) (hp : s.procs p = some q) (hl : q.live = true) (hf : TwoFree q.fds) :
    Inv (s.sysPipe p q) := by
  obtain ⟨hpipes, hspaces, -⟩ := sysPipe_made s p q
  refine ⟨fun n hn d => ?_, fun n hn d => ?_, ?_⟩
  · rw [slots_sysPipe hp hl hf]
    rcases eq_or_ne n s.pipes with rfl | hne
    · rw [sysPipe_refcount_new, h.unnamed _ le_rfl, if_pos rfl]
      rfl
    · rw [sysPipe_refcount_old s p q hne, if_neg hne, Nat.add_zero]
      exact h.refs n (by omega) d
  · rw [slots_sysPipe hp hl hf, h.unnamed n (by omega), if_neg (by omega)]
  · rw [hspaces]
    exact h.clean

theorem inv_mmap (h : Inv s) {fd : ℤ} {shared writable room : Bool}
    (hok : room = true → ∀ v, System.mmapTakes q fd shared writable = some v → v.isPipe = false) :
    Inv (s.mmap q fd shared writable room) := by
  unfold System.mmap
  split
  · exact h
  rename_i v hv
  split
  · rename_i hroom
    have hfile := hok hroom v hv
    refine h.balanced (balanced_files (s.incRef v).refcount _ (fun n d => ?_) fun hc => hc.set _ fun w hw => ?_)
    · have hne : VNode.pipeEnd n d ≠ v := by
        rintro rfl
        cases hfile
      rw [refcount_incRef, if_neg hne]
      simp
    · rcases mem_append.1 hw with hw | hw
      · exact hc.getD _ w hw
      · rwa [mem_singleton.1 hw]
  · refine h.balanced (balanced_files ((s.incRef v).decRef v).refcount _ (fun n d => ?_) id)
    rw [refcount_decRef, refcount_incRef]
    ring

theorem inv_munmap (h : Inv s) (j : ℕ) : Inv (s.munmap q j) := by
  unfold System.munmap
  split
  · exact h
  rename_i v hv
  have hfile := h.clean.getD q.space v (mem_of_getElem? hv)
  refine h.balanced (balanced_files (s.decRef v).refcount _ (fun n d => ?_) fun hc => hc.set _ fun w hw => ?_)
  · have hne : VNode.pipeEnd n d ≠ v := by
      rintro rfl
      cases hfile
    rw [refcount_decRef, if_neg hne]
    simp
  · exact hc.getD _ w (mem_of_mem_eraseIdx hw)

end Steps

/-! ## The condition and the steps -/

/-- a pipe call finds two free slots, and no pipe end is mapped -/
def CallOk (s : System) (a : Fin 64 × Call) : Prop :=
  ∀ q, s.procs a.1 = some q → q.live = true →
    match a.2 with
    | .pipe => TwoFree q.fds
    | .mmap fd shared writable room =>
      room = true → ∀ v, System.mmapTakes q fd shared writable = some v → v.isPipe = false
    | _ => True

theorem inv_call {c : Call} (h : Inv s) (hp : s.procs p = some q) (hl : q.live = true) (hok : CallOk s (p, c))
    (hs : s.call p q c = some s') : Inv s' := by
  cases c with
  | pipe =>
    cases hs
    exact inv_sysPipe h hp hl (hok q hp hl)
  | dup oldFd =>
    cases hs
    exact h.balanced (balanced_dup hp hl oldFd)
  | dup2 oldFd newFd =>
    cases hs
    exact h.balanced (balanced_dup2 hp hl oldFd newFd)
  | close fd =>
    cases hs
    exact h.balanced (balanced_close hp hl fd)
  | openFile n flags =>
    cases hs
    exact h.balanced (balanced_openFile hp hl n flags)
  | fork => exact h.balanced (balanced_fork hp hl hs)
  | cloneVm => exact h.balanced (balanced_cloneVm hp hl hs)
  | mmap fd shared writable room =>
    cases hs
    exact inv_mmap h (hok q hp hl)
  | munmap j =>
    cases hs
    exact inv_munmap h j
  | execve =>
    cases hs
    exact h.balanced (balanced_execve hp)
  | exit =>
    cases hs
    exact h.balanced (balanced_exit hp hl)
  | reap => cases hs

theorem inv_step {a : Fin 64 × Call} (h : Inv s) (hok : CallOk s a) (hs : s.step a = some s') : Inv s' := by
  unfold System.step at hs
  split at hs
  · cases hs
  rename_i q hp
  split at hs
  · rename_i hl
    exact inv_call h hp hl hok hs
  · rename_i hl
    split at hs
    · cases hs
      exact h.balanced (balanced_reap hp (by simpa using hl))
    · cases hs

/-! ## Exact counts, exact ends of file -/

/-- no live process has a descriptor of `v` -/
def System.Closed (s : System) (v : VNode) : Prop :=
  ∀ p q, s.procs p = some q → q.live = true → ∀ i e, q.fds i = some e → e.vnode ≠ v

/-- the two refcounts that the calls on pipe `n` load -/
def System.refs (s : System) (n : ℕ) (d : Side) : ℕ := (s.refcount (.pipeEnd n d)).toNat

/-- where call `i` of a pipe stands after its next step -/
def pcAfter (ps : State) (i : ℕ) (c : Fs.Pipes.Call) : Option Pc := ((stepCall ps i c).bind (·.calls[i]?)).map (·.pc)

structure Exact (s : System) : Prop where
  refs : ∀ n < s.pipes, ∀ d, (s.refcount (.pipeEnd n d)).toNat = s.slots (.pipeEnd n d)
  /-- a read that found the ring empty reports the end of file exactly when no write descriptor is open -/
  reads : ∀ n < s.pipes, ∀ (ps : State) (i cap snap : ℕ), ps.pipe.refs = s.refs n →
    ps.calls[i]? = some ⟨.read cap, .count snap⟩ →
      (pcAfter ps i ⟨.read cap, .count snap⟩ = some (.returned 0) ↔ s.Closed (.pipeEnd n .write))
  /-- a write reports EPIPE on entry exactly when no read descriptor is open -/
  writes : ∀ n < s.pipes, ∀ (ps : State) (i : ℕ) (src : List UInt8), ps.pipe.refs = s.refs n →
    ps.calls[i]? = some ⟨.write src, .start⟩ →
      (pcAfter ps i ⟨.write src, .start⟩ = some (.returned ePipe) ↔ s.Closed (.pipeEnd n .read))
  /-- and so does a write that found the ring full -/
  full : ∀ n < s.pipes, ∀ (ps : State) (i : ℕ) (src : List UInt8) (snap : ℕ), ps.pipe.refs = s.refs n →
    ps.calls[i]? = some ⟨.write src, .count snap⟩ →
      (pcAfter ps i ⟨.write src, .count snap⟩ = some (.returned ePipe) ↔ s.Closed (.pipeEnd n .read))

theorem pcAfter_count {ps : State} {i : ℕ} {op : Op} {snap : ℕ} (hi : ps.calls[i]? = some ⟨op, .count snap⟩) :
    pcAfter ps i ⟨op, .count snap⟩ = some (.returned (noPeer op.side)) ↔ ps.pipe.refs op.side.other = 0 := by
  have hlt := (List.getElem?_eq_some_iff.1 hi).1
  simp only [pcAfter, stepCall, Call.side, bind_some, getElem?_set_self hlt]
  by_cases h : ps.pipe.refs op.side.other = 0 <;> simp [h]

theorem pcAfter_start {ps : State} {i : ℕ} {src : List UInt8} (hi : ps.calls[i]? = some ⟨.write src, .start⟩) :
    pcAfter ps i ⟨.write src, .start⟩ = some (.returned ePipe) ↔ ps.pipe.refs .read = 0 := by
  have hlt := (List.getElem?_eq_some_iff.1 hi).1
  simp only [pcAfter, stepCall, bind_some, getElem?_set_self hlt]
  by_cases h : ps.pipe.refs .read = 0 <;> simp [h]

theorem Inv.toNat_eq (h : Inv s) (hn : n < s.pipes) (d : Side) :
    (s.refcount (.pipeEnd n d)).toNat = s.slots (.pipeEnd n d) := by
  have hle := slots_le s (.pipeEnd n d)
  rw [h.refs n hn d, BitVec.natCast_eq_ofNat, BitVec.toNat_ofNat, Nat.mod_eq_of_lt (by omega)]

theorem Inv.refs_eq_zero (h : Inv s) (hn : n < s.pipes) (d : Side) : s.refs n d = 0 ↔ s.Closed (.pipeEnd n d) := by
  rw [System.refs, h.toNat_eq hn, slots_eq_zero_iff]
  rfl

theorem Inv.exact (h : Inv s) : Exact s := by
  refine ⟨fun n hn d => h.toNat_eq hn d, ?_, ?_, ?_⟩
  · intro n hn ps i cap snap hrefs hi
    rw [← h.refs_eq_zero hn, ← hrefs]
    exact pcAfter_count hi
  · intro n hn ps i src hrefs hi
    rw [← h.refs_eq_zero hn, ← hrefs]
    exact pcAfter_start hi
  · intro n hn ps i src snap hrefs hi
    rw [← h.refs_eq_zero hn, ← hrefs]
    exact pcAfter_count hi

theorem sysPipe_inexact (h : Inv s) (hf : ¬ TwoFree q.fds) : ¬ Exact (s.sysPipe p q) := by
  intro he
  obtain ⟨hf', -⟩ | ⟨-, hprocs⟩ := sysPipe_slots s p q
  · exact hf hf'
  have hlt : s.pipes < (s.sysPipe p q).pipes := by
    rw [(sysPipe_made s p q).1]
    exact Nat.lt_succ_self _
  have hr := he.refs s.pipes hlt .read
  rw [sysPipe_refcount_new, System.slots, hprocs, ← System.slots, h.unnamed _ le_rfl] at hr
  cases hr

theorem mmap_inexact (h : Inv s) (hp : s.procs p = some q) (hl : q.live = true) {fd : ℤ} {shared writable : Bool}
    {v : VNode} (hv : System.mmapTakes q fd shared writable = some v) (hpipe : v.isPipe = true) :
    ¬ Exact (s.mmap q fd shared writable true) := by
  have hslot : ∃ i e, q.fds i = some e ∧ e.vnode = v := by
    unfold System.mmapTakes at hv
    split at hv
    · cases hv
    rename_i e he
    obtain ⟨i, -, hi⟩ := bind_eq_some_iff.1 he
    split at hv
    · cases hv
    · exact ⟨i, e, hi, some.inj hv⟩
  obtain ⟨i, e, hi, rfl⟩ := hslot
  rcases hev : e.vnode with n | ⟨n, d⟩
  · rw [hev] at hpipe
    cases hpipe
  have hn : n < s.pipes := by
    by_contra hn
    exact ne_of_count (count_eq_zero hp hl (h.unnamed n (by omega) d)) hi hev.symm
  rw [hev] at hv
  intro he
  unfold System.mmap at he
  rw [hv] at he
  have hr : ((s.incRef (.pipeEnd n d)).refcount (.pipeEnd n d)).toNat = s.slots (.pipeEnd n d) := he.refs n hn d
  rw [refcount_incRef, if_pos rfl, h.refs n hn d, ← Nat.cast_add, BitVec.natCast_eq_ofNat, BitVec.toNat_ofNat] at hr
  omega

theorem step_inexact {a : Fin 64 × Call} (h : Inv s) (hok : ¬ CallOk s a) : ∃ s', s.step a = some s' ∧ ¬ Exact s' := by
  obtain ⟨p, c⟩ := a
  unfold CallOk at hok
  push Not at hok
  obtain ⟨q, hp, hl, hc⟩ := hok
  have hstep : s.step (p, c) = s.call p q c := by simp [System.step, hp, hl]
  rw [hstep]
  cases c with
  | pipe => exact ⟨_, rfl, sysPipe_inexact h hc⟩
  | mmap fd shared writable room =>
    dsimp only at hc
    push Not at hc
    obtain ⟨rfl, v, hv, hpipe⟩ := hc
    exact ⟨_, rfl, mmap_inexact h hp hl hv (by simpa using hpipe)⟩
  | _ => exact absurd trivial hc

/-- **Refcounts of pipe ends.** Along a run from a system without descriptors, every pipe end has as many references as
descriptors (and so reads and writes report its closing exactly) in every state, exactly when every pipe call finds two
free slots and no pipe end is mapped. -/
theorem refs_exact_iff (ref : VNode → BitVec 32) (as : List (Fin 64 × Call)) :
    (∀ k t, (System.new ref).run (as.take k) = some t → Exact t) ↔ Meets System.step CallOk (.new ref) as :=
  (meets_iff_reached Inv (fun _ _ _ h hok hs => inv_step h hok hs) (fun _ _ h hok => step_inexact h hok)
    (fun _ h => h.exact) (inv_new ref)).symm

/-- the write end of a pipe is mapped and its only descriptor closed: no writer is left, and readers wait for one -/
theorem refs_mapped :
    ∃ t, (System.new fun _ => 0).run [(0, .pipe), (0, .mmap 1 false false true), (0, .close 1)] = some t ∧
      t.pipes = 1 ∧ (t.refcount (.pipeEnd 0 .write)).toNat = 1 ∧ t.slots (.pipeEnd 0 .write) = 0 := by
  decide +kernel

end Rumicos.Proc.Descriptors
