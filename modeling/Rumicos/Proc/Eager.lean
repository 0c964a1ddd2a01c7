/-
The eager-copy machine: what processes without MAP_SHARED mappings may expect of their memory.

There are no frames, no copy-on-write entries and no tables beside the page tables: an address space owns the bytes of
its pages, and fork copies all of them. Whether a store is permitted is a property of the mapping that created the page.

- `Eager`, `Eager.step`, `Eager.run`: the machine, over the operations `Op` of the kernel.
- `Eager.load`: the byte a process reads. It depends on its own address space and on the files only
  (`Eager.load_congr`), and a store leaves every other address space alone (`Eager.store_space_ne`).
- `abs`: the eager machine that a kernel state stands for.
-/
import Rumicos.Proc.ShareCounts

namespace Rumicos.Proc

open Paging Memory Lib Fs List Option

/-! ## The machine -/

/-- a page of the eager machine: its bytes and the mapping that created it -/
structure EagerPage where
  bytes : Page
  origin : Origin

structure EagerSpace where
  pages : UPage → Option EagerPage
  vmas : List (Option Vma)
  mmapNext : ℕ
  refcount : ℕ

structure Eager where
  /-- address spaces, by id -/
  space : ℕ → Option EagerSpace
  /-- the id of the next address space -/
  next : ℕ
  procs : ℕ
  /-- what reading a page of a file returns; no result where the read fails -/
  files : ℕ → ℕ → Option Page

namespace Eager

/-- the machine without processes -/
def new (files : ℕ → ℕ → Option Page) : Eager := ⟨fun _ => none, 0, 0, files⟩

def setSpace (e : Eager) (a : ℕ) (s : Option EagerSpace) : Eager := { e with space := Function.update e.space a s }

def addSpace (e : Eager) (s : EagerSpace) : Eager := { e.setSpace e.next (some s) with next := e.next + 1 }

def setPage (e : Eager) (a : ℕ) (s : EagerSpace) (p : UPage) (x : EagerPage) : Eager :=
  e.setSpace a (some { s with pages := Function.update s.pages p (some x) })

/-- the pages of an image; a later page replaces an earlier one -/
def imagePages (img : Image) : UPage → Option EagerPage :=
  img.layout.foldl (fun pages x => Function.update pages x.page (some ⟨x.bytes, x.origin⟩)) fun _ => none

def imageSpace (img : Image) : EagerSpace := ⟨imagePages img, List.replicate maxVmas none, mmapBase, 1⟩

def dropRef (e : Eager) (a : ℕ) : Option Eager := do
  let s ← e.space a
  return e.setSpace a (if s.refcount = 1 then none else some { s with refcount := s.refcount - 1 })

/-- one more process, if PROCESS_TABLE has a slot -/
def register (e : Eager) : Option Eager := if e.procs < maxProcesses then some { e with procs := e.procs + 1 } else none

/-- fork: the child gets its own copy of every page -/
def fork (e : Eager) (a : ℕ) : Option Eager := do
  let s ← e.space a
  (e.addSpace { s with refcount := 1 }).register

def clone (e : Eager) (a : ℕ) : Option Eager := do
  let s ← e.space a
  (e.setSpace a (some { s with refcount := s.refcount + 1 })).register

def execve (e : Eager) (a : ℕ) (img : Image) : Option Eager := do
  let _ ← e.space a
  (e.addSpace (imageSpace img)).dropRef a

def exit (e : Eager) (a : ℕ) : Option Eager := do
  let e ← e.dropRef a
  return { e with procs := e.procs - 1 }

def mmap (e : Eager) (a length : ℕ) (prot : Prot) (req : MapRequest) : Option Eager := do
  let s ← e.space a
  if mmapAllowed length prot req then
    match alignUpPage length with
    | none => return e
    | some len =>
      match Proc.mmap s.vmas s.mmapNext len (protToPageFlags prot) req.backing with
      | some (_, vmas, next) => return e.setSpace a (some { s with vmas := vmas, mmapNext := next })
      | none => return e
  else return e

/-- munmap of [addr, addr + len) -/
def unmap (e : Eager) (a addr len : ℕ) : Option Eager := do
  let s ← e.space a
  match munmapTarget s.vmas addr len with
  | none => return e
  | some slot => return e.setSpace a (some { s with
      vmas := s.vmas.set slot none
      pages := fun q => if addr ≤ pageAddr q ∧ pageAddr q < addr + len then none else s.pages q })

def munmap (e : Eager) (a addr length : ℕ) : Option Eager := do
  let _ ← e.space a
  if addr = 0 ∨ length = 0 ∨ addr % pageSize ≠ 0 then return e
  else
    match alignUpPage length with
    | none => return e
    | some len => e.unmap a addr len

/-- the page of an area before its first access: zeros, or the file's bytes -/
def demandPage (files : ℕ → ℕ → Option Page) (s : EagerSpace) (addr : ℕ) : Option EagerPage :=
  match findVma s.vmas (addr / pageSize * pageSize) with
  | none => none
  | some vma =>
    match vma.backing with
    | .anonymous => some ⟨zeroPage, .area vma⟩
    | .file v fo _ => (files v (fileOff vma fo addr)).map fun page => ⟨page, .area vma⟩

theorem demandPage_origin {files : ℕ → ℕ → Option Page} {s : EagerSpace} {addr : ℕ} {x : EagerPage}
    (h : demandPage files s addr = some x) :
    ∃ vma, findVma s.vmas (addr / pageSize * pageSize) = some vma ∧ x.origin = .area vma := by
  unfold demandPage at h
  split at h
  · cases h
  · rename_i vma hv
    refine ⟨vma, hv, ?_⟩
    split at h
    · cases h
      rfl
    · rw [map_eq_some_iff] at h
      obtain ⟨page, -, rfl⟩ := h
      rfl

/-- the page an access sees -/
def pageAt (files : ℕ → ℕ → Option Page) (s : EagerSpace) (addr : ℕ) : Option EagerPage :=
  (s.pages (pageOf addr)).or (demandPage files s addr)

/-- an access makes the page it sees present -/
def touch (e : Eager) (a addr : ℕ) (s : EagerSpace) : Eager :=
  match pageAt e.files s addr with
  | none => e
  | some x => e.setPage a s (pageOf addr) x

/-- a load: the byte, or none where the process is killed -/
def load (e : Eager) (a addr : ℕ) : Option (Eager × Option UInt8) := do
  if userTop ≤ addr then none
  let s ← e.space a
  return (e.touch a addr s, (pageAt e.files s addr).map fun x => x.bytes (addr % pageSize))

/-- a store; a page whose mapping does not permit it is left alone -/
def store (e : Eager) (a addr : ℕ) (b : UInt8) : Option Eager := do
  if userTop ≤ addr then none
  let s ← e.space a
  match pageAt e.files s addr with
  | none => return e
  | some x =>
    if x.origin.permitsWrite then
      return e.setPage a s (pageOf addr) { x with bytes := Function.update x.bytes (addr % pageSize) b }
    else return e.setPage a s (pageOf addr) x

/-- one operation; write() to a file is not part of this machine -/
def step (e : Eager) : Op → Option Eager
  | .create img => (e.addSpace (imageSpace img)).register
  | .fork a => e.fork a
  | .clone a => e.clone a
  | .execve a img => e.execve a img
  | .exit a => e.exit a
  | .mmap a length prot req => e.mmap a length prot req
  | .munmap a addr length => e.munmap a addr length
  | .load a addr => (e.load a addr).map Prod.fst
  | .store a addr b => e.store a addr b
  | .write _ _ _ => none

def run (e : Eager) (ops : List Op) : Option Eager := ops.foldlM step e

/-! ## Isolation -/

theorem load_congr {e e' : Eager} {a : ℕ} (hs : e'.space a = e.space a) (hf : e'.files = e.files) (addr : ℕ) :
    (e'.load a addr).map Prod.snd = (e.load a addr).map Prod.snd := by
  unfold load
  rw [hs, hf]
  by_cases hlt : userTop ≤ addr
  · rw [if_pos hlt, if_pos hlt]
    rfl
  · rw [if_neg hlt, if_neg hlt]
    rcases e.space a with _ | s <;> rfl

theorem setPage_space_self (e : Eager) (a : ℕ) (s : EagerSpace) (p : UPage) (x : EagerPage) :
    (e.setPage a s p x).space a = some { s with pages := Function.update s.pages p (some x) } :=
  Function.update_self _ _ _

theorem setPage_space_ne (e : Eager) {a b : ℕ} (hb : b ≠ a) (s : EagerSpace) (p : UPage) (x : EagerPage) :
    (e.setPage a s p x).space b = e.space b := Function.update_of_ne hb _ _

theorem store_space_ne {e e' : Eager} {a addr : ℕ} {byte : UInt8} (h : e.store a addr byte = some e') :
    (∀ b, b ≠ a → e'.space b = e.space b) ∧ e'.files = e.files := by
  unfold store at h
  by_cases hlt : userTop ≤ addr
  · rw [if_pos hlt] at h; cases h
  rw [if_neg hlt] at h
  simp only [bind_eq_bind, bind_eq_some_iff] at h
  obtain ⟨s, hs, h⟩ := h
  split at h
  · simp only [Option.pure_def, some.injEq] at h
    exact h ▸ ⟨fun _ _ => rfl, rfl⟩
  · split_ifs at h <;> simp only [Option.pure_def, some.injEq] at h <;>
      exact h ▸ ⟨fun b hb => setPage_space_ne e hb _ _ _, rfl⟩

end Eager

/-! ## The eager machine a kernel state stands for -/

def absSpace (mem : Pfn → Page) (s : AddressSpace) : EagerSpace where
  pages p := (s.leaf p).bind fun l => (s.origin p).map fun o => ⟨mem l.frame, o⟩
  vmas := s.vmas
  mmapNext := s.mmapNext
  refcount := s.refcount

/-- what reading a page of a file returns -/
def fileContents (vnodes : ℕ → VNode) (v off : ℕ) : Option Page := fillPageFromVnode (vnodes v) off

def abs (k : Kernel) : Eager where
  space a := (k.space a).map (absSpace k.mem)
  next := k.spaces.length
  procs := k.procs
  files := fileContents k.vnodes

theorem abs_space {k : Kernel} {a : ℕ} {s : AddressSpace} (hs : k.space a = some s) :
    (abs k).space a = some (absSpace k.mem s) := by
  simp [abs, hs]

end Rumicos.Proc
