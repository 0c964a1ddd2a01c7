/-
What a failed system call leaves behind: open, pipe, dup, dup2, mmap and sigaction (`crates/fs/src/syscall.rs`, `pipe.rs`,
`crates/proc/src/syscall.rs`, `fd.rs`, `vma.rs`).

`State` is what the calls of one process can see and change: the directory tree with its files and the free frames, the
refcounts of vnodes, the process's descriptors and signal actions, its areas. A call returns the state and its value;
`none` is a call that does not return (out of memory panics).

Reading user memory can take frames: the page may have to be brought in first. `Env` says what a read finds, how many
frames it takes, and whether it returns at all.

- `Kept`: if the value is an errno, the state is the one before the call.
-/
import Rumicos.Fs.Tree
import Rumicos.Proc.Descriptors
import Rumicos.Proc.Signal
import Rumicos.Proc.UserAccess
import Rumicos.Proc.Vma

namespace Rumicos.Proc.FailedCalls

open Fs Paging Proc.Signal Function List Option
open Proc.Descriptors (FdTable free_eq_none_iff free_spec slotOf)
open Proc.UserAccess (isUserPtr)

/-! ## The state -/

structure FdEntry where
  vnode : ℕ
  offset : ℕ
  flags : BitVec 32
deriving DecidableEq

/-- O_WRONLY or O_RDWR -/
def FdEntry.canWrite (e : FdEntry) : Bool := e.flags &&& 3 == 1 || e.flags &&& 3 == 2

structure State where
  tree : Tree
  /-- `VNode::refcount` -/
  refcount : ℕ → BitVec 32
  fds : FdTable FdEntry
  actions : SigTable
  vmas : List (Option Vma)
  mmapNext : ℕ

/-- user memory during a call -/
structure Env where
  /-- the bytes a read of `len` bytes at `addr` finds -/
  bytes : ℕ → ℕ → List UInt8
  /-- the word at `addr` -/
  word : ℕ → Word
  /-- the frames that faults of an access to `len` bytes at `addr` take; `none` when it does not return -/
  faults : ℕ → ℕ → Option ℕ

/-- an access to user memory -/
def State.touch (s : State) (env : Env) (addr len : ℕ) : Option State :=
  (env.faults addr len).bind fun n => (s.tree.take n).map fun tree => { s with tree := tree }

/-! ## open -/

def oCreat : BitVec 32 := 64
def oTrunc : BitVec 32 := 512

/-- `FdTable::alloc`, as the end of a call -/
def State.allocFd (s : State) (v : ℕ) (flags : BitVec 32) : State × ℤ :=
  match s.fds.free with
  | some i => ({ s with fds := update s.fds i (some ⟨v, 0, flags⟩) }, i.val)
  | none => (s, eMFile)

/-- `sys_open` once the path is in the kernel -/
def State.openPath (s : State) (path : Name) (flags : BitVec 32) : Option (State × ℤ) :=
  if !utf8Valid path then some (s, eFault)
  else
    match s.tree.pathLookup path with
    | some v =>
      let s := if flags &&& oTrunc ≠ 0 then { s with tree := s.tree.truncate v } else s
      some (s.allocFd v flags)
    | none =>
      if flags &&& oCreat = 0 then some (s, eNoEnt)
      else
        match splitParent path with
        | none => some (s, eNoEnt)
        | some (parent, base) =>
          match s.tree.pathLookup parent with
          | none => some (s, eNoEnt)
          | some dir => do
            let (tree, child) ← s.tree.create dir base .regular
            match child with
            | none => return ({ s with tree := tree }, eNoEnt)
            | some v => return { s with tree := tree }.allocFd v flags

def State.sysOpen (s : State) (env : Env) (path pathLen : ℕ) (flags : BitVec 32) : Option (State × ℤ) :=
  let len := min pathLen 255
  if len = 0 ∨ isUserPtr path len = false then some (s, eFault)
  else do
    let s ← s.touch env path len
    s.openPath (env.bytes path len) flags

/-! ## pipe, dup and dup2 -/

/-- `sys_pipe`: frames for the control block, the data and the two end vnodes, then the two slots -/
def State.sysPipe (s : State) (env : Env) (fdsPtr : ℕ) : Option (State × ℤ) :=
  if isUserPtr fdsPtr 8 = false then some (s, eFault)
  else do
    let tree ← s.tree.take 4
    let r := tree.nodes.length
    let s := { s with
      tree := { tree with nodes := tree.nodes ++ [Node.other, Node.other] }
      refcount := update (update s.refcount r 1) (r + 1) 1 }
    match s.fds.free with
    | none => return (s, eMFile)
    | some i =>
      let fds := update s.fds i (some ⟨r, 0, 0⟩)
      match FdTable.free fds with
      | none => return ({ s with fds := update fds i none }, eMFile)
      | some j =>
        let s ← { s with fds := update fds j (some ⟨r + 1, 0, 1⟩) }.touch env fdsPtr 8
        return (s, 0)

def State.incRef (s : State) (v : ℕ) : State := { s with refcount := update s.refcount v (s.refcount v + 1) }
def State.decRef (s : State) (v : ℕ) : State := { s with refcount := update s.refcount v (s.refcount v - 1) }

def State.dup (s : State) (oldFd : ℤ) : State × ℤ :=
  match s.fds.get oldFd with
  | none => (s, eBadf)
  | some e =>
    match s.fds.free with
    | none => (s, eMFile)
    | some i => ({ s with fds := update s.fds i (some e) }.incRef e.vnode, i.val)

/-- `FdTable::dup2` -/
def State.dup2 (s : State) (oldFd newFd : ℤ) : State × ℤ :=
  if oldFd = newFd then
    if (s.fds.get oldFd).isSome then (s, newFd) else (s, eBadf)
  else
    match s.fds.get oldFd with
    | none => (s, eBadf)
    | some e =>
      match slotOf newFd with
      | none => (s, eBadf)
      | some j =>
        let s := match s.fds j with
          | some old => s.decRef old.vnode
          | none => s
        ({ s with fds := update s.fds j (some e) }.incRef e.vnode, newFd)

/-! ## mmap -/

/-- the pure checks of `sys_mmap`: the errno, or the rounded length -/
def mmapCheck (addrHint length : ℕ) (prot flags : BitVec 32) (fd : ℤ) (offset : ℕ) : Except ℤ ℕ :=
  if addrHint ≠ 0 then .error eInval
  else if length = 0 then .error eInval
  else if offset % 4096 ≠ 0 then .error eInval
  else if prot &&& ~~~7#32 ≠ 0 then .error eInval
  else if flags &&& 3 = 0 ∨ flags &&& 3 = 3 then .error eInval
  else if flags &&& 0x20 ≠ 0 ∧ fd ≠ -1 then .error eInval
  else if flags &&& 0x20 = 0 ∧ fd < 0 then .error eBadf
  else
    match alignUpPage length with
    | none => .error eInval
    | some len => if len = 0 then .error eInval else .ok len

/-- the descriptor of a file mapping: its vnode, or the errno -/
def State.mmapFile (s : State) (prot flags : BitVec 32) (fd : ℤ) : Except ℤ ℕ :=
  match s.fds.get fd with
  | none => .error eBadf
  | some e => if flags &&& 1 ≠ 0 ∧ prot &&& 2 ≠ 0 ∧ e.canWrite = false then .error eAcces else .ok e.vnode

def protOf (prot : BitVec 32) : Prot := ⟨prot &&& 2 != 0, prot &&& 4 != 0⟩

/-- `AddressSpace::mmap` as the end of the call -/
def State.mapArea (s : State) (len : ℕ) (prot : BitVec 32) (backing : Backing) : Option (State × ℤ) :=
  (mmap s.vmas s.mmapNext len (protToPageFlags (protOf prot)) backing).map fun x =>
    ({ s with vmas := x.2.1, mmapNext := x.2.2 }, x.1)

def State.sysMmap (s : State) (addrHint length : ℕ) (prot flags : BitVec 32) (fd : ℤ) (offset : ℕ) : State × ℤ :=
  match mmapCheck addrHint length prot flags fd offset with
  | .error e => (s, e)
  | .ok len =>
    if flags &&& 0x20 ≠ 0 then (s.mapArea len prot .anonymous).getD (s, eNoMem)
    else
      match s.mmapFile prot flags fd with
      | .error e => (s, e)
      | .ok v =>
        let s := s.incRef v
        -- the mapping never took: roll the reference back
        (s.mapArea len prot (.file v offset (flags &&& 1 != 0))).getD (s.decRef v, eNoMem)

/-! ## sigaction -/

/-- the part of `sys_sigaction` under the lock of the table -/
def State.install (s : State) (env : Env) (signum : Fin 32) (act : ℕ) : Option (State ⊕ ℤ) :=
  if act = 0 then some (.inl s)
  else if isUserPtr act 8 = false then some (.inr eFault)
  else (s.touch env act 8).map fun s =>
    .inl { s with actions := update s.actions signum (actionFromUser (env.word act)) }

def State.sysSigaction (s : State) (env : Env) (signum act oldact : ℕ) : Option (State × ℤ) :=
  if h : signum < 32 ∧ signalIsCatchable signum = true then do
    match ← s.install env ⟨signum, h.1⟩ act with
    | .inr e => return (s, e)
    | .inl s =>
      if oldact = 0 then return (s, 0)
      else if isUserPtr oldact 8 = false then return (s, eFault)
      else do
        let s ← s.touch env oldact 8
        return (s, 0)
  else some (s, eInval)

/-! ## The property -/

inductive Call where
  | open (path pathLen : ℕ) (flags : BitVec 32)
  | pipe (fdsPtr : ℕ)
  | dup (oldFd : ℤ)
  | dup2 (oldFd newFd : ℤ)
  | mmap (addrHint length : ℕ) (prot flags : BitVec 32) (fd : ℤ) (offset : ℕ)
  | sigaction (signum act oldact : ℕ)

def State.call (s : State) (env : Env) : Call → Option (State × ℤ)
  | .open path pathLen flags => s.sysOpen env path pathLen flags
  | .pipe fdsPtr => s.sysPipe env fdsPtr
  | .dup oldFd => some (s.dup oldFd)
  | .dup2 oldFd newFd => some (s.dup2 oldFd newFd)
  | .mmap addrHint length prot flags fd offset => some (s.sysMmap addrHint length prot flags fd offset)
  | .sigaction signum act oldact => s.sysSigaction env signum act oldact

/-- a call that returns an errno has changed nothing -/
def Kept (s : State) (r : Option (State × ℤ)) : Prop := ∀ s' v, r = some (s', v) → v < 0 → s' = s

/-- does a creation at this path find its directory? -/
def State.creates (s : State) (path : Name) : Option ℕ :=
  (splitParent path).bind fun x => (s.tree.pathLookup x.1).filter s.tree.isDir

/-- open fails: no vnode, or no slot for it -/
def OpenFails (s : State) (path : Name) (flags : BitVec 32) : Prop :=
  utf8Valid path = false ∨
    match s.tree.pathLookup path with
    | some _ => s.fds.free = none
    | none => flags &&& oCreat = 0 ∨ s.creates path = none ∨
        s.fds.free = none ∧ ∀ dir, s.creates path = some dir → s.tree.createFrames dir ≤ s.tree.freeFrames

/-- open has no effect but the slot: no file with contents is truncated, none is created -/
def OpenPlain (s : State) (path : Name) (flags : BitVec 32) : Prop :=
  utf8Valid path = false ∨
    match s.tree.pathLookup path with
    | some v => flags &&& oTrunc = 0 ∨ ∀ size blocks, s.tree.nodes[v]? = some (.file size blocks) → size = 0
    | none => flags &&& oCreat = 0 ∨ s.creates path = none

/-- the state once faults have taken `n` frames -/
def State.spend (s : State) (n : ℕ) : State := { s with tree := { s.tree with freeFrames := s.tree.freeFrames - n } }

/-- when the call fails, its reads of user memory took no frame and it had no other effect -/
def CallOk (env : Env) (s : State) : Call → Prop
  | .open path pathLen flags =>
    0 < min pathLen 255 → isUserPtr path (min pathLen 255) = true → ∀ n, env.faults path (min pathLen 255) = some n →
      n ≤ s.tree.freeFrames → OpenFails (s.spend n) (env.bytes path (min pathLen 255)) flags →
        n = 0 ∧ OpenPlain s (env.bytes path (min pathLen 255)) flags
  | .pipe fdsPtr => isUserPtr fdsPtr 8 = true → 4 ≤ s.tree.freeFrames → ∃ i j, i ≠ j ∧ s.fds i = none ∧ s.fds j = none
  | .dup _ | .dup2 _ _ | .mmap _ _ _ _ _ _ => True
  | .sigaction signum act oldact =>
    ∀ h : signum < 32, signalIsCatchable signum = true → act ≠ 0 → isUserPtr act 8 = true → oldact ≠ 0 →
      isUserPtr oldact 8 = false → ∀ n, env.faults act 8 = some n → n ≤ s.tree.freeFrames →
        n = 0 ∧ actionFromUser (env.word act) = s.actions ⟨signum, h⟩

/-! ## dup, dup2 and mmap -/

variable {v : ℤ} {s' : State} {path : Name} {flags : BitVec 32}

section

variable {s : State} {env : Env}

theorem kept_of_errno : Kept s (some (s, v)) := by
  intro s' v' h _
  cases h
  rfl

theorem kept_of_nonneg (hv : 0 ≤ v) : Kept s (some (s', v)) := by
  intro s'' v' h hneg
  cases h
  exact absurd hv (not_le.2 hneg)

theorem slotOf_nonneg {fd : ℤ} {j : Fin 64} (h : slotOf fd = some j) : 0 ≤ fd := by
  unfold slotOf at h
  split at h
  · rename_i hfd
    exact hfd.1
  · cases h

theorem kept_dup (oldFd : ℤ) : Kept s (some (s.dup oldFd)) := by
  unfold State.dup
  cases s.fds.get oldFd with
  | none => exact kept_of_errno
  | some e =>
    cases s.fds.free with
    | none => exact kept_of_errno
    | some i => exact kept_of_nonneg (Int.natCast_nonneg _)

theorem kept_dup2 (oldFd newFd : ℤ) : Kept s (some (s.dup2 oldFd newFd)) := by
  unfold State.dup2
  by_cases heq : oldFd = newFd
  · rw [if_pos heq]
    split <;> exact kept_of_errno
  rw [if_neg heq]
  cases s.fds.get oldFd with
  | none => exact kept_of_errno
  | some e =>
    cases hj : slotOf newFd with
    | none => exact kept_of_errno
    | some j => exact kept_of_nonneg (slotOf_nonneg hj)

theorem decRef_incRef (v : ℕ) : (s.incRef v).decRef v = s := by
  unfold State.incRef State.decRef
  simp

theorem mapArea_nonneg {len : ℕ} {prot : BitVec 32} {backing : Backing}
    (h : s.mapArea len prot backing = some (s', v)) : 0 ≤ v := by
  obtain ⟨x, -, hx⟩ := map_eq_some_iff.1 h
  cases hx
  exact Int.natCast_nonneg _

/-- the end of `sys_mmap`: an address, or ENOMEM with what the caller puts back -/
theorem kept_mapArea (s₁ s₂ : State) (h : s₂ = s) (len : ℕ) (prot : BitVec 32) (backing : Backing) :
    Kept s (some ((s₁.mapArea len prot backing).getD (s₂, eNoMem))) := by
  cases hmap : s₁.mapArea len prot backing with
  | none =>
    subst h
    exact kept_of_errno
  | some x => exact kept_of_nonneg (mapArea_nonneg hmap)

theorem kept_mmap (addrHint length : ℕ) (prot flags : BitVec 32) (fd : ℤ) (offset : ℕ) :
    Kept s (some (s.sysMmap addrHint length prot flags fd offset)) := by
  unfold State.sysMmap
  cases mmapCheck addrHint length prot flags fd offset with
  | error e => exact kept_of_errno
  | ok len =>
    dsimp only
    split
    · exact kept_mapArea s s rfl _ _ _
    · cases s.mmapFile prot flags fd with
      | error e => exact kept_of_errno
      | ok v => exact kept_mapArea _ _ (decRef_incRef v) _ _ _

/-! ## open -/

theorem truncate_eq_self_iff (t : Tree) (v : ℕ) :
    t.truncate v = t ↔ ∀ size blocks, t.nodes[v]? = some (.file size blocks) → size = 0 := by
  unfold Tree.truncate
  split
  · rename_i size blocks hv
    constructor
    · intro h size' blocks' hv'
      rw [hv] at hv'
      cases hv'
      have hnodes : (t.nodes.set v (.file 0 blocks))[v]? = t.nodes[v]? := congrArg (fun t : Tree => t.nodes[v]?) h
      rw [hv, getElem?_set_self (List.getElem?_eq_some_iff.1 hv).1] at hnodes
      cases hnodes
      rfl
    · intro h
      have hset : t.nodes.set v (.file 0 blocks) = t.nodes := by
        obtain ⟨hlt, hget⟩ := List.getElem?_eq_some_iff.1 hv
        rw [← h size blocks hv, ← hget, set_getElem_self]
      rw [hset]
  · rename_i hv
    exact ⟨fun _ size blocks h => absurd h (hv size blocks), fun _ => rfl⟩

theorem truncate_freeFrames (t : Tree) (v : ℕ) : (t.truncate v).freeFrames = t.freeFrames := by
  unfold Tree.truncate
  split <;> rfl

theorem tree_eq_iff (t : Tree) : ({ s with tree := t } : State) = s ↔ t = s.tree := by
  constructor
  · intro h
    exact congrArg State.tree h
  · intro h
    rw [h]

theorem creates_eq_none (h : s.creates path = none) :
    splitParent path = none ∨ ∃ parent base, splitParent path = some (parent, base) ∧
      (s.tree.pathLookup parent = none ∨ ∃ dir, s.tree.pathLookup parent = some dir ∧ s.tree.isDir dir = false) := by
  cases hsplit : splitParent path with
  | none => exact .inl rfl
  | some x =>
    obtain ⟨parent, base⟩ := x
    refine .inr ⟨parent, base, rfl, ?_⟩
    rw [State.creates, hsplit, bind_some] at h
    cases hl : s.tree.pathLookup parent with
    | none => exact .inl rfl
    | some dir =>
      rw [hl, filter_some] at h
      refine .inr ⟨dir, rfl, ?_⟩
      cases hd : s.tree.isDir dir with
      | false => rfl
      | true =>
        rw [if_pos hd] at h
        cases h

theorem creates_eq_some {dir : ℕ} (h : s.creates path = some dir) :
    ∃ parent base, splitParent path = some (parent, base) ∧ s.tree.pathLookup parent = some dir ∧
      s.tree.isDir dir = true := by
  obtain ⟨⟨parent, base⟩, hsplit, hl⟩ := bind_eq_some_iff.1 h
  rw [filter_eq_some_iff] at hl
  exact ⟨parent, base, hsplit, hl.1, hl.2⟩

theorem allocFd_none (h : s.fds.free = none) (v : ℕ) (flags : BitVec 32) : s.allocFd v flags = (s, eMFile) := by
  rw [State.allocFd, h]

theorem allocFd_nonneg {i : Fin 64} (hfree : s.fds.free = some i) {v : ℕ} {w : ℤ}
    (h : some (s.allocFd v flags) = some (s', w)) : 0 ≤ w := by
  rw [State.allocFd, hfree] at h
  cases h
  exact Int.natCast_nonneg _

/-- how open ends: with an errno, with less memory or not, changed or not; or with a descriptor, or not at all -/
structure Refused (s : State) (path : Name) (flags : BitVec 32) : Prop where
  fails : OpenFails s path flags
  result : ∃ s' v, s.openPath path flags = some (s', v) ∧ v < 0 ∧ s'.tree.freeFrames ≤ s.tree.freeFrames ∧
    (s' = s ↔ OpenPlain s path flags)

theorem openPath_found {v : ℕ} (hutf : utf8Valid path = true) (hv : s.tree.pathLookup path = some v) :
    Refused s path flags ∨
      ¬ OpenFails s path flags ∧ ∀ s' w, s.openPath path flags = some (s', w) → 0 ≤ w := by
  -- the state before the slot is looked for
  obtain ⟨s₁, hs₁⟩ : ∃ s₁, s₁ = if flags &&& oTrunc ≠ 0 then { s with tree := s.tree.truncate v } else s := ⟨_, rfl⟩
  have hopen : s.openPath path flags = some (s₁.allocFd v flags) := by
    simp [State.openPath, hutf, hv, hs₁]
  have hfails : OpenFails s path flags ↔ s.fds.free = none := by
    simp [OpenFails, hutf, hv]
  have hsame : s₁.fds = s.fds ∧ s₁.tree.freeFrames = s.tree.freeFrames ∧ (s₁ = s ↔ OpenPlain s path flags) := by
    simp only [OpenPlain, hutf, hv, Bool.true_eq_false, false_or, ← truncate_eq_self_iff]
    rw [hs₁]
    by_cases htrunc : flags &&& oTrunc = 0
    · rw [if_neg (not_not.2 htrunc)]
      exact ⟨rfl, rfl, fun _ => .inl htrunc, fun _ => rfl⟩
    · rw [if_pos htrunc, tree_eq_iff]
      exact ⟨rfl, truncate_freeFrames s.tree v, .inr, fun h => h.resolve_left htrunc⟩
  cases hfree : s.fds.free with
  | none =>
    refine .inl ⟨hfails.2 hfree, s₁, eMFile, ?_, by decide, hsame.2.1.le, hsame.2.2⟩
    rw [hopen, allocFd_none (hsame.1 ▸ hfree)]
  | some i =>
    refine .inr ⟨fun h => ?_, fun s' w h => ?_⟩
    · rw [hfails, hfree] at h
      cases h
    · rw [hopen] at h
      exact allocFd_nonneg (hsame.1 ▸ hfree) h

theorem openPath_missing (hutf : utf8Valid path = true) (hv : s.tree.pathLookup path = none) : Refused s path flags ∨
      ¬ OpenFails s path flags ∧ ∀ s' w, s.openPath path flags = some (s', w) → 0 ≤ w := by
  have hfails : OpenFails s path flags ↔ flags &&& oCreat = 0 ∨ s.creates path = none ∨
      s.fds.free = none ∧ ∀ dir, s.creates path = some dir → s.tree.createFrames dir ≤ s.tree.freeFrames := by
    simp [OpenFails, hutf, hv]
  have hplain : OpenPlain s path flags ↔ flags &&& oCreat = 0 ∨ s.creates path = none := by
    simp [OpenPlain, hutf, hv]
  by_cases hcreat : flags &&& oCreat = 0
  · refine .inl ⟨hfails.2 (.inl hcreat), s, eNoEnt, ?_, by decide, le_rfl, fun _ => hplain.2 (.inl hcreat), fun _ => rfl⟩
    simp [State.openPath, hutf, hv, hcreat]
  cases hdir : s.creates path with
  | none =>
    refine .inl ⟨hfails.2 (.inr (.inl hdir)), s, eNoEnt,
      ?_, by decide, le_rfl, fun _ => hplain.2 (.inr hdir), fun _ => rfl⟩
    rcases creates_eq_none hdir with hsplit | ⟨parent, base, hsplit, hl | ⟨dir, hl, hd⟩⟩
    · simp [State.openPath, hutf, hv, hsplit]
    · simp [State.openPath, hutf, hv, hsplit, hl]
    · simp only [State.openPath, hutf, hv, hcreat, hsplit, hl,
        Tree.create_not_dir hd]
      rfl
  | some dir =>
    obtain ⟨parent, base, hsplit, hl, hd⟩ := creates_eq_some hdir
    obtain ⟨hroom, hnone⟩ := Tree.create_dir hd base .regular
    have hopen : s.openPath path flags = (s.tree.create dir base .regular).bind fun x =>
        match x.2 with
        | none => some ({ s with tree := x.1 }, eNoEnt)
        | some v => some ({ s with tree := x.1 }.allocFd v flags) := by
      simp only [State.openPath, hutf, hv, hcreat, hsplit, hl]
      rfl
    by_cases hframes : s.tree.createFrames dir ≤ s.tree.freeFrames
    · obtain ⟨tree, hcreate, hfreed⟩ := hroom hframes
      rw [hcreate] at hopen
      have hpos : 0 < s.tree.createFrames dir := by
        unfold Tree.createFrames
        omega
      cases hfree : s.fds.free with
      | none =>
        refine .inl ⟨hfails.2 (.inr (.inr ⟨hfree, fun d hd => ?_⟩)), { s with tree := tree }, eMFile,
          ?_, by decide, ?_, ?_, ?_⟩
        · rw [hdir] at hd
          cases hd
          exact hframes
        · rw [hopen]
          exact congrArg some (allocFd_none (s := { s with tree := tree }) hfree _ flags)
        · dsimp only
          omega
        · intro h
          rw [tree_eq_iff] at h
          rw [h] at hfreed
          omega
        · intro h
          rw [hplain, hdir] at h
          exact absurd (h.resolve_left hcreat) nofun
      | some i =>
        refine .inr ⟨fun h => ?_, fun s' w h => ?_⟩
        · rw [hfails, hdir, hfree] at h
          rcases h with h | h | h
          · exact hcreat h
          · cases h
          · cases h.1
        · rw [hopen] at h
          exact allocFd_nonneg (s := { s with tree := tree }) hfree h
    · rw [hnone (not_le.1 hframes)] at hopen
      refine .inr ⟨fun h => ?_, fun s' w h => ?_⟩
      · rw [hfails, hdir] at h
        rcases h with h | h | h
        · exact hcreat h
        · cases h
        · exact hframes (h.2 dir rfl)
      · rw [hopen] at h
        cases h

theorem openPath_cases (path : Name) (flags : BitVec 32) : Refused s path flags ∨
    ¬ OpenFails s path flags ∧ ∀ s' w, s.openPath path flags = some (s', w) → 0 ≤ w := by
  cases hutf : utf8Valid path with
  | false =>
    refine .inl ⟨.inl hutf, s, eFault, ?_, by decide, le_rfl, fun _ => .inl hutf, fun _ => rfl⟩
    simp [State.openPath, hutf]
  | true =>
    cases hv : s.tree.pathLookup path with
    | none => exact openPath_missing hutf hv
    | some v => exact openPath_found hutf hv

theorem touch_eq_some {addr len : ℕ} {s₁ : State} :
    s.touch env addr len = some s₁ ↔ ∃ n, env.faults addr len = some n ∧ n ≤ s.tree.freeFrames ∧ s₁ = s.spend n := by
  simp only [State.touch, Tree.take, bind_eq_some_iff, map_eq_some_iff]
  constructor
  · rintro ⟨n, hn, t, ht, h⟩
    by_cases hle : n ≤ s.tree.freeFrames
    · rw [if_pos hle] at ht
      cases ht
      exact ⟨n, hn, hle, h.symm⟩
    · rw [if_neg hle] at ht
      cases ht
  · rintro ⟨n, hn, hle, h⟩
    exact ⟨n, hn, _, if_pos hle, h.symm⟩

theorem kept_open_iff (path pathLen : ℕ) (flags : BitVec 32) :
    Kept s (s.sysOpen env path pathLen flags) ↔ CallOk env s (.open path pathLen flags) := by
  unfold State.sysOpen
  by_cases hbad : min pathLen 255 = 0 ∨ isUserPtr path (min pathLen 255) = false
  · rw [if_pos hbad]
    refine ⟨fun _ hlen hptr => ?_, fun _ => kept_of_errno⟩
    rcases hbad with h | h
    · omega
    · rw [hptr] at h
      cases h
  rw [if_neg hbad]
  rw [not_or, Bool.not_eq_false] at hbad
  constructor
  · intro hkept _ _ n hn hle hfails
    have hopen : s.touch env path (min pathLen 255) = some (s.spend n) := touch_eq_some.2 ⟨n, hn, hle, rfl⟩
    rw [hopen] at hkept
    rcases openPath_cases (s := s.spend n) (env.bytes path (min pathLen 255)) flags with hrefused | ⟨hok, -⟩
    · obtain ⟨s', v, hres, hneg, hfree, hplain⟩ := hrefused.result
      have hs' : s' = s := hkept s' v hres hneg
      -- the frames are all there again, so the read took none
      have hn0 : n = 0 := by
        rw [hs'] at hfree
        change s.tree.freeFrames ≤ s.tree.freeFrames - n at hfree
        omega
      subst hn0
      exact ⟨rfl, hplain.1 hs'⟩
    · exact absurd hfails hok
  · intro hok s' v hres hneg
    obtain ⟨s₁, htouch, hopen⟩ := bind_eq_some_iff.1 hres
    obtain ⟨n, hn, hle, rfl⟩ := touch_eq_some.1 htouch
    rcases openPath_cases (s := s.spend n) (env.bytes path (min pathLen 255)) flags with hrefused | ⟨-, hnonneg⟩
    · obtain ⟨hn0, hplain⟩ := hok (Nat.pos_of_ne_zero hbad.1) hbad.2 n hn hle hrefused.fails
      subst hn0
      obtain ⟨s'', v', hres', -, -, hiff⟩ := hrefused.result
      rw [hopen] at hres'
      cases hres'
      exact hiff.2 hplain
    · exact absurd (hnonneg s' v hopen) (not_le.2 hneg)

/-! ## pipe -/

theorem kept_pipe_iff (fdsPtr : ℕ) : Kept s (s.sysPipe env fdsPtr) ↔ CallOk env s (.pipe fdsPtr) := by
  unfold State.sysPipe
  cases hptr : isUserPtr fdsPtr 8 with
  | false =>
    refine ⟨fun _ h => ?_, fun _ => kept_of_errno⟩
    rw [hptr] at h
    cases h
  | true =>
    rw [if_neg Bool.true_eq_false.mp]
    by_cases h4 : 4 ≤ s.tree.freeFrames
    · simp only [Tree.take, if_pos h4, bind_eq_bind, bind_some]
      -- the new vnodes tell the state apart from the old one
      have hchanged : ∀ (refcount : ℕ → BitVec 32) (fds : FdTable FdEntry) (free : ℕ),
          ({ s with tree := ⟨s.tree.nodes ++ [.other, .other], s.tree.root, free⟩, refcount := refcount,
                     fds := fds } : State)
            ≠ s := by
        intro refcount fds free h
        have := congrArg (fun s : State => s.tree.nodes.length) h
        simp at this
      cases hfree : s.fds.free with
      | none =>
        constructor
        · intro hkept
          exact absurd (hkept _ eMFile rfl (by decide)) (hchanged _ _ _)
        · intro hok
          obtain ⟨i, j, -, hi, -⟩ := hok hptr h4
          exact absurd hi (free_eq_none_iff.1 hfree i)
      | some i =>
        dsimp only
        cases hfree' : FdTable.free (update s.fds i (some ⟨s.tree.nodes.length, 0, 0⟩)) with
        | none =>
          constructor
          · intro hkept
            exact absurd (hkept _ eMFile rfl (by decide)) (hchanged _ _ _)
          · intro hok
            obtain ⟨j, k, hjk, hj, hk⟩ := hok hptr h4
            have hall := free_eq_none_iff.1 hfree'
            have hone : ∀ l, s.fds l = none → l = i := by
              intro l hl
              by_contra hne
              have := hall l
              rw [update_of_ne hne] at this
              exact this hl
            exact absurd ((hone j hj).trans (hone k hk).symm) hjk
        | some j =>
          constructor
          · intro _ _ _
            have hj := free_spec hfree'
            have hne : j ≠ i := by
              intro heq
              rw [heq, update_self] at hj
              cases hj
            rw [update_of_ne hne] at hj
            exact ⟨j, i, hne, hj, free_spec hfree⟩
          · intro _ s' v h hneg
            simp only [bind_eq_some_iff] at h
            obtain ⟨s₁, -, h⟩ := h
            cases h
            exact absurd hneg (by decide)
    · simp only [Tree.take, if_neg h4]
      exact ⟨fun _ _ h => absurd h h4, fun _ s' v h => by cases h⟩

/-! ## sigaction -/

theorem kept_sigaction_iff (signum act oldact : ℕ) :
    Kept s (s.sysSigaction env signum act oldact) ↔ CallOk env s (.sigaction signum act oldact) := by
  unfold State.sysSigaction
  by_cases hcatch : signum < 32 ∧ signalIsCatchable signum = true
  · rw [dif_pos hcatch]
    by_cases hact : act = 0
    · refine ⟨fun _ _ _ h => absurd hact h, fun _ => ?_⟩
      simp only [State.install, if_pos hact, bind_eq_bind, bind_some]
      split_ifs
      · exact kept_of_errno
      · exact kept_of_errno
      · intro s' v h hneg
        simp only [bind_eq_some_iff] at h
        obtain ⟨s₁, -, h⟩ := h
        cases h
        exact absurd hneg (by decide)
    cases hptr : isUserPtr act 8 with
    | false =>
      refine ⟨fun _ _ _ _ h => ?_, fun _ => ?_⟩
      · rw [hptr] at h
        cases h
      · simp only [State.install, if_neg hact, hptr]
        exact kept_of_errno
    | true =>
      simp only [State.install, if_neg hact, hptr]
      by_cases hbad : oldact ≠ 0 ∧ isUserPtr oldact 8 = false
      · constructor
        · intro hkept _ _ _ _ _ _ n hn hle
          have htouch : s.touch env act 8 = some (s.spend n) := touch_eq_some.2 ⟨n, hn, hle, rfl⟩
          simp only [htouch, if_neg hbad.1, hbad.2] at hkept
          have hs := hkept _ eFault rfl (by decide)
          have hfree : s.tree.freeFrames - n = s.tree.freeFrames := congrArg (fun s : State => s.tree.freeFrames) hs
          have haction := congrArg (fun s : State => s.actions ⟨signum, hcatch.1⟩) hs
          dsimp only at haction
          rw [update_self] at haction
          exact ⟨by omega, haction⟩
        · intro hok s' v h hneg
          obtain ⟨x, hx, h⟩ := bind_eq_some_iff.1 h
          obtain ⟨s₁, htouch, rfl⟩ := map_eq_some_iff.1 hx
          obtain ⟨n, hn, hle, rfl⟩ := touch_eq_some.1 htouch
          obtain ⟨rfl, haction⟩ := hok hcatch.1 hcatch.2 hact hptr hbad.1 hbad.2 n hn hle
          simp only [if_neg hbad.1, hbad.2] at h
          cases h
          have hupdate : update s.actions ⟨signum, hcatch.1⟩ (actionFromUser (env.word act)) = s.actions := by
            rw [haction, update_eq_self]
          exact congrArg (fun actions => { s with actions := actions }) hupdate
      · refine ⟨fun _ _ _ _ _ h0 h1 => absurd ⟨h0, h1⟩ hbad, fun _ s' v h hneg => ?_⟩
        obtain ⟨x, hx, h⟩ := bind_eq_some_iff.1 h
        obtain ⟨s₁, -, rfl⟩ := map_eq_some_iff.1 hx
        have hv : v = 0 := by
          dsimp only at h
          by_cases hold : oldact = 0
          · rw [if_pos hold] at h
            cases h
            rfl
          · rw [if_neg hold, if_neg (fun hb => hbad ⟨hold, hb⟩)] at h
            obtain ⟨s₂, -, h⟩ := bind_eq_some_iff.1 h
            cases h
            rfl
        rw [hv] at hneg
        exact absurd hneg (by decide)
  · rw [dif_neg hcatch]
    exact ⟨fun _ h1 h2 => absurd ⟨h1, h2⟩ hcatch, fun _ => kept_of_errno⟩

end

/-! ## The main result -/

/-- **A failed call leaves no trace, except where it has already acted.** For every state, all arguments and any user
memory, a call that returns an errno leaves the state as it was exactly when the condition of its row holds: open has
truncated or created nothing before it finds the table full, pipe has its two slots, sigaction has not installed an
action before it rejects the pointer for the old one, and the reads of user memory took no frame. -/
theorem failed_call_kept_iff (env : Env) (s : State) (c : Call) : Kept s (s.call env c) ↔ CallOk env s c := by
  cases c with
  | «open» path pathLen flags => exact kept_open_iff path pathLen flags
  | pipe fdsPtr => exact kept_pipe_iff fdsPtr
  | dup oldFd => exact iff_of_true (kept_dup oldFd) trivial
  | dup2 oldFd newFd => exact iff_of_true (kept_dup2 oldFd newFd) trivial
  | mmap addrHint length prot flags fd offset => exact iff_of_true (kept_mmap addrHint length prot flags fd offset) trivial
  | sigaction signum act oldact => exact kept_sigaction_iff signum act oldact

/-- all 64 descriptors taken; the root directory has one file `a` of five bytes -/
def fullTable : State where
  tree := ⟨[.dir true [([0x61], 1)], .file 5 []], 0, 10⟩
  refcount := fun _ => 1
  fds := fun _ => some ⟨1, 0, 0⟩
  actions := SigTable.new
  vmas := List.replicate maxVmas none
  mmapNext := mmapBase

/-- user memory with the path `/a` and the word 0x5000, all of it present -/
def pathEnv : Env := ⟨fun _ _ => [0x2f, 0x61], fun _ => 0x5000, fun _ _ => some 0⟩

/-- the size of vnode `v` -/
def State.size (s : State) (v : ℕ) : Option ℕ :=
  match s.tree.nodes[v]? with
  | some (.file size _) => some size
  | _ => none

theorem not_kept_of_any {s : State} {r : Option (State × ℤ)} {p : State → Bool}
    (h : r.any (fun x => decide (x.2 < 0) && p x.1) = true) (hs : p s = false) : ¬ Kept s r := by
  intro hkept
  obtain ⟨⟨s', v⟩, hr, hx⟩ := Lib.exists_of_any h
  rw [Bool.and_eq_true, decide_eq_true_eq] at hx
  rw [hkept s' v hr hx.1, hs] at hx
  cases hx.2

/-- **Three failed calls that change the state.** open with O_TRUNC empties the file and returns EMFILE, pipe keeps four
frames and returns EMFILE, sigaction installs a handler and returns EFAULT. -/
theorem failed_calls_change :
    ¬ Kept fullTable (fullTable.call pathEnv (.open 0x1000 2 oTrunc)) ∧
      ¬ Kept fullTable (fullTable.call pathEnv (.pipe 0x1000)) ∧
      ¬ Kept fullTable (fullTable.call pathEnv (.sigaction 2 0x1000 1)) := by
  refine ⟨?_, ?_, ?_⟩
  · apply not_kept_of_any (p := fun s => s.size 1 == some 0)
    · decide +kernel
    · decide +kernel
  · apply not_kept_of_any (p := fun s => s.tree.freeFrames == 6)
    · decide +kernel
    · decide +kernel
  · apply not_kept_of_any (p := fun s => s.actions 2 == .handler 0x5000)
    · decide +kernel
    · decide +kernel

end Rumicos.Proc.FailedCalls
