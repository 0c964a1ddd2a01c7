/-
User address spaces and the operations on them (`crates/proc/src/address_space.rs`, `pagefault.rs`, the memory part of
`fork.rs`, `clone.rs`, `exec.rs`, `wait.rs`).

An address space is a four-level page table for the user half, 32 slots for areas, and a reference count. The kernel
state joins all address spaces with the tables they share: the frame allocator, the bytes of every frame, the page
cache, the vnodes and `COW_TABLE`. Address spaces are named by their position in `spaces`; a position is never reused,
and a torn-down address space leaves `none` there.

Every operation returns no result where the source panics (out of memory, process table full, a vnode pointer that is
not a direct-map address) or where the address space is gone.

- `mapPage`, `forkCow`, `resolveFileFault`, `resolveCowFault`, `munmap`, `dropRef`, ...: the functions of the source.
- `Op`, `step`, `run`: any sequence of system calls, loads and stores by any processes.

History variables, read by no operation: `origin` (which mapping created a page), `stores` (stores made to file bytes),
`VNode.mapRefs`, `Store.orphans` and the two of `Frames`. TLBs and CPUs are not part of this model.
-/
import Rumicos.Lib.Radix
import Rumicos.Proc.Cow
import Rumicos.Proc.Vma
import Rumicos.Fs.PageCache

namespace Rumicos.Proc

open Paging Memory Lib Fs List Option

/-! ## Page tables -/

/-- a leaf entry with the PRESENT bit; a slot without one is an entry that is not present -/
structure Leaf where
  entry : PageTableEntry
  present : entry.isPresent = true
deriving DecidableEq

/-- what a reader of the table finds after `entry` is stored -/
def leafOf (entry : PageTableEntry) : Option Leaf :=
  if h : entry.isPresent = true then some ⟨entry, h⟩ else none

def Leaf.frame (l : Leaf) : Pfn := l.entry.frame
def Leaf.isCow (l : Leaf) : Bool := l.entry.isCow
def Leaf.isWritable (l : Leaf) : Bool := l.entry.isWritable

/-- entries a level, from the user half of the PML4 down -/
abbrev userWidths : List ℕ := [256, 512, 512, 512]

/-- a user page: its PML4, PDPT, PD and PT index -/
abbrev UPage := Lib.Path userWidths

/-- the page tables of a user half; labels are the frames the tables live in -/
abbrev UserTables := Tree Pfn Leaf userWidths

/-- the page of an address: `pml4_index`, `pdpt_index`, `pd_index`, `pt_index` -/
def pageOf (addr : ℕ) : UPage :=
  (Fin.ofNat 256 (addr / 2 ^ 39), Fin.ofNat 512 (addr / 2 ^ 30), Fin.ofNat 512 (addr / 2 ^ 21),
    Fin.ofNat 512 (addr / 2 ^ 12), ())

/-- the address of a page, from its indices -/
def pageAddr (p : UPage) : ℕ := p.1 * 2 ^ 39 + p.2.1 * 2 ^ 30 + p.2.2.1 * 2 ^ 21 + p.2.2.2.1 * 2 ^ 12

/-- the end of the user half -/
def userTop : ℕ := 2 ^ 47

/-- history: which mapping created a page -/
inductive Origin where
  | image (prot : Prot)
  | stack
  | trampoline
  | area (vma : Vma)
deriving DecidableEq

/-- does the mapping that created the page permit writing? -/
def Origin.permitsWrite : Origin → Bool
  | .image prot => prot.write
  | .stack => true
  | .trampoline => false
  | .area vma => flagsWritable vma.flags

structure AddressSpace where
  pml4 : UserTables
  vmas : List (Option Vma)
  mmapNext : ℕ
  refcount : ℕ
  /-- the frame `alloc_shared` moved it to -/
  ownFrame : Option Pfn
  /-- history: which mapping created each present page -/
  origin : UPage → Option Origin

/-- the present leaf entry of a page -/
def AddressSpace.leaf (s : AddressSpace) (p : UPage) : Option Leaf := Slot.lookup (some s.pml4) p

/-- is the page inside a MAP_SHARED area? -/
def AddressSpace.inShared (s : AddressSpace) (p : UPage) : Bool :=
  (findVma s.vmas (pageAddr p)).any Vma.isShared

/-! ## The kernel state -/

/-- history: one byte stored to a file, through a mapping or by write() -/
structure StoreEvent where
  vnode : ℕ
  pos : ℕ
  byte : UInt8
  viaMap : Bool
deriving DecidableEq

structure Kernel extends Store where
  cow : CowTable
  /-- address spaces, by id; `none` once torn down -/
  spaces : List (Option AddressSpace)
  /-- occupied slots of PROCESS_TABLE; each process holds one reference to one address space -/
  procs : ℕ
  /-- history: stores to file bytes, newest first -/
  stores : List StoreEvent

/-- the state at boot -/
def Kernel.new (answers : List Pfn) (vnodes : ℕ → VNode) : Kernel :=
  { Store.new answers vnodes with cow := CowTable.new, spaces := [], procs := 0, stores := [] }

/-- the live address space `a` -/
def Kernel.space (k : Kernel) (a : ℕ) : Option AddressSpace := k.spaces[a]?.join

def Kernel.setSpace (k : Kernel) (a : ℕ) (s : AddressSpace) : Kernel := { k with spaces := k.spaces.set a (some s) }

/-! ## Page-table edits -/

/-- `ensure_next_table` down to the page's PT -/
def ensureTables (k : Kernel) (a : ℕ) (p : UPage) : Option Kernel := do
  let s ← k.space a
  let (slot, frames) ← Slot.ensure allocFrame (some s.pml4) p k.frames
  let pml4 ← slot
  return { k with frames := frames }.setSpace a { s with pml4 := pml4 }

/-- store a leaf entry whose PT exists; `o` is the page's origin from now on -/
def setLeaf (k : Kernel) (a : ℕ) (p : UPage) (x : Option Leaf) (o : Option Origin) : Option Kernel := do
  let s ← k.space a
  let pml4 ← Slot.write (some s.pml4) p x
  return k.setSpace a { s with pml4 := pml4, origin := Function.update s.origin p o }

def mapPage (k : Kernel) (a : ℕ) (p : UPage) (phys : Pfn) (flags : PageFlags) (o : Option Origin) : Option Kernel := do
  let k ← ensureTables k a p
  setLeaf k a p (leafOf (.newPage phys flags)) o

/-- allocate a frame, fill it and map it -/
def mapFresh (k : Kernel) (a : ℕ) (p : UPage) (page : Page) (flags : PageFlags) (o : Origin) : Option Kernel := do
  let (f, frames) ← allocFrame k.frames
  mapPage { k with frames := frames, mem := Function.update k.mem f page } a p f flags (some o)

/-! ## Building an address space -/

/-- `AddressSpace::new`: an empty user half on a fresh PML4 -/
def newSpace (k : Kernel) : Option (Kernel × ℕ) := do
  let (f, frames) ← allocFrame k.frames
  let s : AddressSpace := ⟨⟨f, fun _ => none⟩, List.replicate maxVmas none, mmapBase, 1, none, fun _ => none⟩
  return ({ k with frames := frames, spaces := k.spaces ++ [some s] }, k.spaces.length)

def allocShared (k : Kernel) (a : ℕ) : Option Kernel := do
  let s ← k.space a
  let (f, frames) ← allocFrame k.frames
  return { k with frames := frames }.setSpace a { s with ownFrame := some f }

/-- a PT_LOAD segment as `parse_elf` returns it; `prot` are PF_W and PF_X -/
structure LoadSegment where
  vaddr : ℕ
  filesz : ℕ
  memsz : ℕ
  dataOff : ℕ
  prot : Prot
  aligned : vaddr % pageSize = 0
  inUser : vaddr + memsz ≤ userTop
deriving DecidableEq

/-- the number of pages `map_segment` maps -/
def LoadSegment.pageCount (seg : LoadSegment) : ℕ := (seg.memsz + pageSize - 1) / pageSize

/-- the bytes of the segment's page `j` -/
def LoadSegment.page (seg : LoadSegment) (elfData : ℕ → UInt8) (j : ℕ) : Page := fun i =>
  if i < pageSize ∧ j * pageSize + i < seg.filesz then elfData (seg.dataOff + j * pageSize + i) else 0

/-- an executable: its segments, its bytes, and the initial bytes of the stack pages (`setup_stack`) -/
structure Image where
  segments : List LoadSegment
  elfData : ℕ → UInt8
  stack : ℕ → Page

def ustackTop : ℕ := 0x7fffffff0000
def ustackPages : ℕ := 64
def sigreturnTrampolineVa : ℕ := 0x10000000
def sigreturnTrampolineCode : List UInt8 := [0x48, 0xc7, 0xc0, 0x0f, 0x00, 0x00, 0x00, 0x0f, 0x05]

def mapSegment (elfData : ℕ → UInt8) (k : Kernel) (a : ℕ) (seg : LoadSegment) : Option Kernel :=
  (List.range seg.pageCount).foldlM (fun k j =>
    mapFresh k a (pageOf (seg.vaddr + j * pageSize)) (seg.page elfData j) (protToPageFlags seg.prot) (.image seg.prot)) k

def mapUserStack (stack : ℕ → Page) (k : Kernel) (a : ℕ) : Option Kernel :=
  (List.range ustackPages).foldlM (fun k j =>
    mapFresh k a (pageOf (ustackTop - ustackPages * pageSize + j * pageSize)) (stack j)
      (protToPageFlags ⟨true, false⟩) .stack) k

/-- `AddressSpace::map_sigreturn_trampoline`: executable, not writable -/
def mapSigreturnTrampoline (k : Kernel) (a : ℕ) : Option Kernel :=
  mapFresh k a (pageOf sigreturnTrampolineVa) (fun i => sigreturnTrampolineCode.getD i 0)
    (protToPageFlags ⟨false, true⟩) .trampoline

/-- the from-scratch address space of `Process::create` and of execve's first phase -/
def loadImage (k : Kernel) (img : Image) : Option (Kernel × ℕ) := do
  let (k, a) ← newSpace k
  let k ← img.segments.foldlM (fun k seg => mapSegment img.elfData k a seg) k
  let k ← mapUserStack img.stack k a
  let k ← mapSigreturnTrampoline k a
  let k ← allocShared k a
  return (k, a)

/-! ## Fork -/

/-- the body of `clone_user_half_cow` for one present entry -/
def cloneLeaf (a child : ℕ) (k : Kernel) (x : UPage × Leaf) : Option Kernel := do
  let s ← k.space a
  if s.inShared x.1 then
    -- MAP_SHARED: the child gets the same entry
    mapPage k child x.1 x.2.frame x.2.entry.flags (s.origin x.1)
  else
    let cowFlags := cowReadonlyFlags x.2.entry.flags
    let k ← setLeaf k a x.1 (leafOf (x.2.entry.withFlags cowFlags)) (s.origin x.1)
    mapPage { k with cow := cowShare k.cow x.2.frame } child x.1 x.2.frame cowFlags (s.origin x.1)

/-- `AddressSpace::fork_cow` and `alloc_shared` of the child -/
def forkCow (k : Kernel) (a : ℕ) : Option (Kernel × ℕ) := do
  let s ← k.space a
  let (k, child) ← newSpace k
  let c ← k.space child
  let k := k.setSpace child { c with vmas := s.vmas, mmapNext := s.mmapNext }
  let k ← (Slot.leaves (some s.pml4)).foldlM (cloneLeaf a child) k
  let k ← allocShared k child
  return (k, child)

/-! ## Faults -/

/-- `vnode_ptr` must be a direct-map address -/
def directMapBase : ℕ := 0xffff800000000000

/-- `AddressSpace::resolve_file_fault`: the not-present fault of any area -/
def resolveFileFault (k : Kernel) (a addr : ℕ) : Option (Kernel × Bool) := do
  let s ← k.space a
  let page := addr / pageSize * pageSize
  match findVma s.vmas page with
  | none => return (k, false)
  | some vma =>
    match vma.backing with
    | .anonymous =>
      let k ← mapFresh k a (pageOf page) zeroPage vma.flags.withWritable (.area vma)
      return (k, true)
    | .file vnodePtr fileOffset shared =>
      if vnodePtr < directMapBase then none
      else
        let fileOff := (fileOffset + (page - vma.start)) % 2 ^ 64
        let (store, r) ← getOrFill k.toStore vnodePtr fileOff
        let k := { k with toStore := store }
        match r with
        | none => return (k, false)
        | some f =>
          if shared then
            if flagsWritable vma.flags then
              let k ← mapPage { k with toStore := markDirty k.toStore vnodePtr fileOff } a (pageOf page) f
                vma.flags.withWritable (some (.area vma))
              return (k, true)
            else
              let k ← mapPage k a (pageOf page) f vma.flags.withoutWritable (some (.area vma))
              return (k, true)
          else
            let k ← mapPage { k with cow := cowShare k.cow f } a (pageOf page) f
              vma.flags.withoutWritable.withCow (some (.area vma))
            return (k, true)

/-- `AddressSpace::resolve_cow_fault_inner` -/
def resolveCowFault (k : Kernel) (a addr : ℕ) : Option (Kernel × Bool) := do
  let s ← k.space a
  let p := pageOf addr
  match s.leaf p with
  | none => return (k, false)
  | some l =>
    if l.isCow then
      let newFlags := cowWritableFlags l.entry.flags
      let (cow, sole) := cowResolve k.cow l.frame
      if sole then
        let k ← setLeaf { k with cow := cow } a p (leafOf (l.entry.withFlags newFlags)) (s.origin p)
        return (k, true)
      else
        let (g, frames) ← allocFrame k.frames
        let k ← setLeaf { k with cow := cow, frames := frames, mem := Function.update k.mem g (k.mem l.frame) } a p
          (leafOf (.newPage g newFlags)) (s.origin p)
        return (k, true)
    else return (k, false)

/-- one user access with the faults it takes: the frame it reaches, or no frame where the process is killed (SIGSEGV);
`pf_handler` sends a write to a present page to `resolve_cow_fault` and a not-present page to `resolve_file_fault` -/
def access : ℕ → Kernel → ℕ → ℕ → Bool → Option (Kernel × Option Pfn)
  | 0, _, _, _, _ => none
  | fuel + 1, k, a, addr, isWrite => do
    let s ← k.space a
    match s.leaf (pageOf addr) with
    | some l =>
      if isWrite && !l.isWritable then
        let (k, resolved) ← resolveCowFault k a addr
        if resolved then access fuel k a addr isWrite else return (k, none)
      else return (k, some l.frame)
    | none =>
      let (k, resolved) ← resolveFileFault k a addr
      if resolved then access fuel k a addr isWrite else return (k, none)

/-- two faults are the most one access takes (`access_inv`) -/
def accessFuel : ℕ := 3

/-- the file byte behind an address of a MAP_SHARED area -/
def sharedTarget (s : AddressSpace) (addr : ℕ) : Option (ℕ × ℕ) :=
  match findVma s.vmas (addr / pageSize * pageSize) with
  | some ⟨start, _, _, .file vnodePtr fileOffset true⟩ =>
    some (vnodePtr, (fileOffset + (addr / pageSize * pageSize - start)) % 2 ^ 64 + addr % pageSize)
  | _ => none

/-- a user load: the byte, or none where the process is killed -/
def load (k : Kernel) (a addr : ℕ) : Option (Kernel × Option UInt8) := do
  if userTop ≤ addr then none
  let (k, r) ← access accessFuel k a addr false
  return (k, r.map fun f => k.mem f (addr % pageSize))

/-- a user store of one byte -/
def store (k : Kernel) (a addr : ℕ) (b : UInt8) : Option Kernel := do
  if userTop ≤ addr then none
  let (k, r) ← access accessFuel k a addr true
  match r with
  | none => return k
  | some f =>
    let s ← k.space a
    let stores := match sharedTarget s addr with
      | some (v, pos) => ⟨v, pos, b, true⟩ :: k.stores
      | none => k.stores
    return { k with mem := Function.update k.mem f (Function.update (k.mem f) (addr % pageSize) b), stores := stores }

/-! ## Unmapping and teardown -/

/-- give up a leaf's claim: under COW_TABLE's rule for a COW entry, at once for any other -/
def releaseLeaf (st : Frames × CowTable) (l : Leaf) : Frames × CowTable :=
  if l.isCow then
    let (cow, sole) := cowResolve st.2 l.frame
    (if sole then freeFrame st.1 l.frame else st.1, cow)
  else (freeFrame st.1 l.frame, st.2)

/-- the loop body of `unmap_pages` and, with `shared`, of `unmap_file_pages` -/
def unmapPage (shared : Bool) (a : ℕ) (k : Kernel) (p : UPage) : Option Kernel := do
  let s ← k.space a
  match s.leaf p with
  | none => return k
  | some l =>
    let k ← setLeaf k a p none none
    if shared then return k
    else
      let (frames, cow) := releaseLeaf (k.frames, k.cow) l
      return { k with frames := frames, cow := cow }

/-- the pages of [start, endAddr), in the order of the unmap loops -/
def pagesIn (start endAddr : ℕ) : List UPage :=
  (List.range ((endAddr - start + pageSize - 1) / pageSize)).map fun i => pageOf (start + i * pageSize)

/-- `vnode_inc_ref` for a mapping -/
def vnodeIncRef (k : Kernel) (v : ℕ) : Kernel :=
  { k with vnodes := Function.update k.vnodes v { k.vnodes v with
      refcount := ((k.vnodes v).refcount + 1) % 2 ^ 32, mapRefs := (k.vnodes v).mapRefs + 1 } }

/-- `vnode_dec_ref` for a mapping -/
def vnodeDecRef (k : Kernel) (v : ℕ) : Kernel :=
  { k with vnodes := Function.update k.vnodes v { k.vnodes v with
      refcount := ((k.vnodes v).refcount + 2 ^ 32 - 1) % 2 ^ 32, mapRefs := (k.vnodes v).mapRefs - 1 } }

def munmap (k : Kernel) (a addr len : ℕ) : Option (Kernel × Bool) := do
  let s ← k.space a
  if 2 ^ 64 ≤ addr + len then return (k, false)
  else
    match munmapSlot s.vmas addr (addr + len) with
    | none => return (k, false)
    | some slot =>
      let vma ← s.vmas[slot]?.join
      let k := match vma.backing with
        | .file v _ true => { k with toStore := writebackVnode k.toStore v }
        | _ => k
      let k ← (pagesIn addr (addr + len)).foldlM (unmapPage vma.isShared a) k
      let k := match vma.backing with
        | .file v _ _ => vnodeDecRef k v
        | .anonymous => k
      let s ← k.space a
      return (k.setSpace a { s with vmas := s.vmas.set slot none }, true)

/-- `AddressSpace::drop_ref`: on the last reference, `free_user_half` (which consumes the leaves and then each table,
the PML4 last) and the address space's own frame -/
def dropRef (k : Kernel) (a : ℕ) : Option Kernel := do
  let s ← k.space a
  if s.refcount = 1 then
    let (frames, cow) := Slot.fold releaseLeaf (fun st f => (freeFrame st.1 f, st.2)) (some s.pml4) (k.frames, k.cow)
    let own ← s.ownFrame
    return { k with frames := freeFrame frames own, cow := cow, spaces := k.spaces.set a none }
  else return k.setSpace a { s with refcount := s.refcount - 1 }

/-! ## System calls -/

/-- `MAX_PROCESSES`: `register_process` panics when all slots are taken -/
def maxProcesses : ℕ := 64

/-- what a mapping request names: anonymous memory, or a file through an open descriptor -/
inductive MapRequest where
  | anonymous
  | file (vnodePtr offset : ℕ) (shared canWrite : Bool)
deriving DecidableEq

def MapRequest.isShared : MapRequest → Bool
  | .file _ _ shared _ => shared
  | .anonymous => false

def MapRequest.backing : MapRequest → Backing
  | .anonymous => .anonymous
  | .file v off shared _ => .file v off shared

/-- the checks of `sys_mmap` on its arguments and the descriptor -/
def mmapAllowed (length : ℕ) (prot : Prot) : MapRequest → Bool
  | .anonymous => length ≠ 0
  | .file v off shared canWrite =>
    length ≠ 0 && decide (off % pageSize = 0) && decide (off < 2 ^ 64) && !(shared && prot.write && !canWrite) && v ≠ 0

/-- `sys_mmap`: the address, or none for an error -/
def sysMmap (k : Kernel) (a length : ℕ) (prot : Prot) (req : MapRequest) : Option (Kernel × Option ℕ) := do
  let s ← k.space a
  if mmapAllowed length prot req then
    match alignUpPage length with
    | none => return (k, none)
    | some len =>
      let k := match req with
        | .file v _ _ _ => vnodeIncRef k v
        | .anonymous => k
      match mmap s.vmas s.mmapNext len (protToPageFlags prot) req.backing with
      | some (start, vmas, next) => return (k.setSpace a { s with vmas := vmas, mmapNext := next }, some start)
      | none =>
        -- the mapping never took: roll the reference back
        return (match req with
          | .file v _ _ _ => vnodeDecRef k v
          | .anonymous => k, none)
  else return (k, none)

def sysMunmap (k : Kernel) (a addr length : ℕ) : Option Kernel := do
  let _ ← k.space a
  if addr = 0 ∨ length = 0 ∨ addr % pageSize ≠ 0 then return k
  else
    match alignUpPage length with
    | none => return k
    | some len =>
      let (k, _) ← munmap k a addr len
      return k

/-- `Process::create`: a new process with a from-scratch address space -/
def createProcess (k : Kernel) (img : Image) : Option Kernel := do
  let (k, _) ← loadImage k img
  if k.procs < maxProcesses then return { k with procs := k.procs + 1 } else none

/-- `sys_fork` of a process of address space `a` -/
def sysFork (k : Kernel) (a : ℕ) : Option Kernel := do
  let (k, _) ← forkCow k a
  if k.procs < maxProcesses then return { k with procs := k.procs + 1 } else none

/-- `sys_clone` with CLONE_VM: one more process on the same address space -/
def sysClone (k : Kernel) (a : ℕ) : Option Kernel := do
  let s ← k.space a
  if k.procs < maxProcesses then
    return { k.setSpace a { s with refcount := s.refcount + 1 } with procs := k.procs + 1 }
  else none

/-- a successful `do_execve` of a process of address space `a` -/
def doExecve (k : Kernel) (a : ℕ) (img : Image) : Option Kernel := do
  let _ ← k.space a
  let (k, _) ← loadImage k img
  dropRef k a

/-- the exit of a process of address space `a`, up to its reaping (`reap_zombie`) -/
def reapZombie (k : Kernel) (a : ℕ) : Option Kernel := do
  let k ← dropRef k a
  return { k with procs := k.procs - 1 }

/-- `sys_write` to the file of a descriptor: at most one page a call; the page cache is not told -/
def sysWrite (k : Kernel) (v offset : ℕ) (buf : List UInt8) : Option Kernel :=
  if buf.length ≤ 4096 then
    match vnodeWrite k.toStore v buf offset with
    | none => some k
    | some st => some { k with
        toStore := st
        stores := ((List.range buf.length).map fun i => ⟨v, offset + i, buf.getD i 0, false⟩).reverse ++ k.stores }
  else none

inductive Op where
  | create (img : Image)
  | fork (a : ℕ)
  | clone (a : ℕ)
  | execve (a : ℕ) (img : Image)
  | exit (a : ℕ)
  | mmap (a length : ℕ) (prot : Prot) (req : MapRequest)
  | munmap (a addr length : ℕ)
  | load (a addr : ℕ)
  | store (a addr : ℕ) (byte : UInt8)
  | write (v offset : ℕ) (buf : List UInt8)

def step (k : Kernel) : Op → Option Kernel
  | .create img => createProcess k img
  | .fork a => sysFork k a
  | .clone a => sysClone k a
  | .execve a img => doExecve k a img
  | .exit a => reapZombie k a
  | .mmap a length prot req => (sysMmap k a length prot req).map Prod.fst
  | .munmap a addr length => sysMunmap k a addr length
  | .load a addr => (load k a addr).map Prod.fst
  | .store a addr byte => store k a addr byte
  | .write v offset buf => sysWrite k v offset buf

def run (k : Kernel) (ops : List Op) : Option Kernel := ops.foldlM step k

/-! ## Pages and addresses -/

theorem pageAddr_pageOf {addr : ℕ} (h : addr < userTop) : pageAddr (pageOf addr) = addr / pageSize * pageSize := by
  simp only [pageAddr, pageOf, Fin.val_ofNat, userTop, pageSize] at *
  omega

theorem pageOf_pageAddr (p : UPage) : pageOf (pageAddr p) = p := by
  obtain ⟨i, j, k, l, u⟩ := p
  simp only [pageAddr, pageOf, Prod.mk.injEq, Fin.ext_iff, Fin.val_ofNat, and_true]
  omega

theorem pageAddr_lt (p : UPage) : pageAddr p < userTop := by
  simp only [pageAddr, userTop]
  omega

theorem pageAddr_aligned (p : UPage) : pageAddr p % pageSize = 0 := by
  simp only [pageAddr, pageSize]
  omega

theorem pageOf_align (addr : ℕ) : pageOf (addr / pageSize * pageSize) = pageOf addr := by
  simp only [pageOf, pageSize, Prod.mk.injEq, Fin.ext_iff, Fin.val_ofNat, and_true]
  omega

theorem pageAddr_inj {p q : UPage} (h : pageAddr p = pageAddr q) : p = q := by
  rw [← pageOf_pageAddr p, h, pageOf_pageAddr]

theorem mem_pagesIn {start endAddr : ℕ} (hs : start % pageSize = 0) {p : UPage} (h1 : start ≤ pageAddr p)
    (h2 : pageAddr p < endAddr) : p ∈ pagesIn start endAddr := by
  have ha := pageAddr_aligned p
  refine mem_map.2 ⟨(pageAddr p - start) / pageSize, mem_range.2 ?_, ?_⟩
  · simp only [pageSize] at *; omega
  · have : start + (pageAddr p - start) / pageSize * pageSize = pageAddr p := by
      simp only [pageSize] at *; omega
    rw [this, pageOf_pageAddr]

theorem pagesIn_addr {start endAddr : ℕ} (hs : start % pageSize = 0) (he : endAddr ≤ userTop) {p : UPage}
    (h : p ∈ pagesIn start endAddr) : start ≤ pageAddr p ∧ pageAddr p < endAddr := by
  obtain ⟨i, hi, rfl⟩ := mem_map.1 h
  rw [mem_range] at hi
  have hlt : start + i * pageSize < endAddr := by simp only [pageSize] at *; omega
  rw [pageAddr_pageOf (by omega)]
  have : (start + i * pageSize) / pageSize * pageSize = start + i * pageSize := by
    simp only [pageSize] at *; omega
  rw [this]
  exact ⟨by omega, hlt⟩

end Rumicos.Proc
