/-
Threads of shared address spaces on several CPUs: the page-table edits of `crates/proc/src/address_space.rs` step by step,
with the TLBs and `shootdown_page`.

Nothing locks an address space. A call reads an entry, stores one, frees a frame and invalidates the page in separate
steps, and anything may run between two of them: other calls, loads and stores of any CPU, interrupts. A section under a
COW bucket lock is one step, since nothing outside the lock reads or writes the table.

- `unmap_pages`, `unmap_file_pages` (`Job.unmap`): for each page of the range read the entry, store an empty one, release
  the frame, call `shootdown_page` and wait for it.
- `resolve_cow_fault_inner` (`Job.cow`): read the entry; under the bucket lock of its frame decide between reuse and copy
  and store the new entry; call `shootdown_page`. The entry is not read again under the lock.
- the anonymous case of `resolve_file_fault` (`Job.anon`): allocate a frame, store the entry, call `shootdown_page`.
- a load or store translates through the CPU's TLB or through the page table; the TLB keeps the translation until it is
  invalidated or dropped.

The shootdown is the system of `Rumicos.Proc.Shootdown`, run as a part of this one: its steps are steps here, and each
invalidation it executes removes the page from that CPU's TLB. CPUs stay with their address space.

`Moves` says once what each step does. History variables, read by no step: `Mapping.born`, `Call.taken`, `Call.resolved`,
`System.late` and the list of freed frames.
-/
import Rumicos.Memory.Frames
import Rumicos.Proc.Cow
import Rumicos.Proc.Shootdown

namespace Rumicos.Proc.Threads

open Paging Memory Lib List Option
open Proc.Shootdown (Cpu CpuMask)

/-! ## The system -/

/-- a leaf entry, in a page table or in a TLB -/
structure Mapping where
  entry : PageTableEntry
  /-- history: how often the frame had been freed when it was given to this page -/
  born : ℕ
deriving DecidableEq

/-- what `PageTableEntry::empty` leaves -/
def Mapping.empty : Mapping := ⟨PageTableEntry.empty, 0⟩

/-- the entry is present and leads to frame `f` -/
def Mapping.maps (m : Mapping) (f : Pfn) : Bool := m.entry.isPresent && decide (m.entry.frame = f)

theorem maps_iff {m : Mapping} {f : Pfn} : m.maps f = true ↔ m.entry.isPresent = true ∧ m.entry.frame = f := by
  simp [Mapping.maps]

/-- the CPUs and the address spaces their threads run in -/
structure Machine where
  online : Cpu → Bool
  /-- the address space in CR3 -/
  runs : Cpu → ℕ
  /-- `active_cpus` of each address space -/
  active : ℕ → CpuMask
  /-- `mark_active` comes before the load of CR3 -/
  marked : ∀ cpu, (active (runs cpu)).getLsbD cpu = true

/-- CPUs 0 and 1 run one address space, the others another -/
def pair : Machine where
  online _ := true
  runs cpu := if cpu.val < 2 then 0 else 1
  active space := if space = 0 then 3#64 else ~~~3#64
  marked := by decide

inductive Job where
  /-- `unmap_pages` and `unmap_file_pages` up to this address; `shared` for a MAP_SHARED area -/
  | unmap (stop : ℕ) (shared : Bool)
  /-- `resolve_cow_fault_inner` -/
  | cow
  /-- `resolve_file_fault` in an anonymous area with these flags -/
  | anon (flags : PageFlags)
deriving DecidableEq

inductive Pc where
  /-- about to look at the page: the head of the unmap loop, or the start of a fault -/
  | start
  /-- has read `old`, about to store an empty entry -/
  | clear (old : Mapping)
  /-- about to give up the frame of `old` -/
  | release (old : Mapping)
  /-- has read `old`, about to take the bucket lock -/
  | resolve (old : Mapping)
  /-- about to store the entry of a new frame -/
  | map (new : Mapping)
  /-- about to call `shootdown_page` -/
  | flush
  /-- inside that call -/
  | wait (shootdown : ℕ)
  | done
deriving DecidableEq

structure Call where
  cpu : Cpu
  job : Job
  /-- the page it is at -/
  page : ℕ
  pc : Pc
  /-- history: the frame its last store to the page table took from the page -/
  taken : Option Pfn
  /-- history: it has been through `cow_resolve` for a copy-on-write fault -/
  resolved : Bool
deriving DecidableEq

structure System where
  /-- the leaf entry of a page of an address space -/
  leaf : ℕ × ℕ → Mapping
  /-- what a CPU may translate a page with -/
  tlb : Cpu × ℕ → Option Mapping
  cow : CowTable
  frames : Frames
  shoot : Shootdown.System
  calls : List Call
  /-- history: loads and stores that reached a frame freed after it was given to their page -/
  late : List (Cpu × ℕ)

/-- how often the frame has been freed -/
def System.frees (s : System) (f : Pfn) : ℕ := s.frames.freed.count f

/-- where the entry of the call's page is -/
def Call.slot (M : Machine) (c : Call) : ℕ × ℕ := (M.runs c.cpu, c.page)

def Job.shared : Job → Bool
  | .unmap _ shared => shared
  | _ => false

/-- the frame the page loses when `new` replaces `old` -/
def takenOut (old new : Mapping) : Option Pfn :=
  if old.entry.isPresent && !new.maps old.entry.frame then some old.entry.frame else none

/-- the call at position `i` becomes `c` -/
def System.goto (s : System) (i : ℕ) (c : Call) : System := { s with calls := s.calls.set i c }

/-- call `c`, at position `i`, stores an entry at its page and goes on at `pc` -/
def System.store (M : Machine) (s : System) (i : ℕ) (c : Call) (new : Mapping) (pc : Pc) : System :=
  { s with
    leaf := Function.update s.leaf (c.slot M) new
    calls := s.calls.set i { c with pc := pc, taken := takenOut (s.leaf (c.slot M)) new } }

/-- the call after `shootdown_page` has returned -/
def Call.next (c : Call) : Call :=
  match c.job with
  | .unmap _ _ => { c with page := c.page + 4096, pc := .start }
  | _ => { c with pc := .done }

/-- the first step at a page -/
def begin (M : Machine) (s : System) (i : ℕ) (c : Call) : Option System :=
  let old := s.leaf (c.slot M)
  match c.job with
  | .unmap stop _ =>
    if c.page < stop then
      if old.entry.isPresent then some (s.goto i { c with pc := .clear old })
      else some (s.goto i { c with page := c.page + 4096 })
    else some (s.goto i { c with pc := .done })
  | .cow =>
    if old.entry.isPresent && old.entry.isCow then some (s.goto i { c with pc := .resolve old })
    else some (s.goto i { c with pc := .done })
  | .anon flags =>
    (allocFrame s.frames).map fun (f, frames) =>
      { s with frames := frames }.goto i { c with pc := .map ⟨.newPage f flags.withWritable, s.frees f⟩ }

/-- the next step of call `c`, at position `i`; none while it waits, and where `alloc_frame` panics -/
def stepCall (M : Machine) (s : System) (i : ℕ) (c : Call) : Option System :=
  match c.pc with
  | .start => begin M s i c
  | .clear old => some (s.store M i c .empty (if c.job.shared then .flush else .release old))
  | .release old =>
    let frame := old.entry.frame
    let s' := s.goto i { c with pc := .flush }
    if old.entry.isCow then
      let (cow, sole) := cowResolve s.cow frame
      some { s' with cow := cow, frames := if sole then freeFrame s.frames frame else s.frames }
    else some { s' with frames := freeFrame s.frames frame }
  | .resolve old =>
    let c := { c with resolved := true }
    let newFlags := cowWritableFlags old.entry.flags
    let (cow, sole) := cowResolve s.cow old.entry.frame
    if sole then some ({ s with cow := cow }.store M i c ⟨old.entry.withFlags newFlags, old.born⟩ .flush)
    else
      (allocFrame s.frames).map fun (f, frames) =>
        { s with cow := cow, frames := frames }.store M i c ⟨.newPage f newFlags, s.frees f⟩ .flush
  | .map new => some (s.store M i c new .flush)
  | .flush =>
    (Shootdown.step M.online s.shoot (.call c.cpu (M.active (M.runs c.cpu)) c.page)).map fun shoot =>
      { s with shoot := shoot }.goto i { c with pc := .wait s.shoot.calls.length }
  | .wait j =>
    if s.shoot.calls[j]?.any fun d => decide (d.pc = .returned) then some (s.goto i c.next) else none
  | .done => none

/-- the load or store that translates `page` with `m`; none where it faults -/
def useMapping (s : System) (cpu : Cpu) (page : ℕ) (write : Bool) (m : Mapping) : Option System :=
  if m.entry.isPresent && (!write || m.entry.isWritable) then
    some { s with
      tlb := Function.update s.tlb (cpu, page) (some m)
      late := if m.born = s.frees m.entry.frame then s.late else (cpu, page) :: s.late }
  else none

inductive Act where
  /-- a load or store that finds its translation in the TLB -/
  | hit (cpu : Cpu) (page : ℕ) (write : Bool)
  /-- a load or store that walks the page table -/
  | walk (cpu : Cpu) (page : ℕ) (write : Bool)
  /-- the TLB makes room -/
  | evict (cpu : Cpu) (page : ℕ)
  /-- a new call -/
  | call (cpu : Cpu) (job : Job) (page : ℕ)
  /-- the next step of call `i` -/
  | resume (i : ℕ)
  /-- the next step of a call of `shootdown_page` -/
  | shootdown (j : ℕ)
  /-- the next step of an interrupt handler -/
  | interrupt (j : ℕ)
deriving DecidableEq

/-- the shootdown moves on to `shoot`: what it has invalidated meanwhile leaves the TLBs -/
def System.flushed (s : System) (shoot : Shootdown.System) : System :=
  { s with
    shoot := shoot
    tlb := fun k => if k ∈ shoot.flushes.drop s.shoot.flushes.length then none else s.tlb k }

def stepShoot (M : Machine) (s : System) (a : Shootdown.Act) : Option System :=
  (Shootdown.step M.online s.shoot a).map s.flushed

def step (M : Machine) (s : System) : Act → Option System
  | .hit cpu page write => (s.tlb (cpu, page)).bind (useMapping s cpu page write)
  | .walk cpu page write => useMapping s cpu page write (s.leaf (M.runs cpu, page))
  | .evict cpu page => some { s with tlb := Function.update s.tlb (cpu, page) none }
  | .call cpu job page => some { s with calls := s.calls ++ [⟨cpu, job, page, .start, none, false⟩] }
  | .resume i => s.calls[i]?.bind (stepCall M s i)
  | .shootdown j => stepShoot M s (.resume j)
  | .interrupt j => stepShoot M s (.interrupt j)

def run (M : Machine) (s : System) (as : List Act) : Option System := as.foldlM (step M) s

/-! ## What a step does -/

/-- the steps of the system, one constructor for each effect -/
inductive Moves (M : Machine) (s : System) : Act → System → Prop
  | use {a : Act} {cpu : Cpu} {page : ℕ} {m : Mapping}
      (hm : s.tlb (cpu, page) = some m ∨ s.leaf (M.runs cpu, page) = m) (hp : m.entry.isPresent = true) :
      Moves M s a { s with
        tlb := Function.update s.tlb (cpu, page) (some m)
        late := if m.born = s.frees m.entry.frame then s.late else (cpu, page) :: s.late }
  | evict {a : Act} (cpu : Cpu) (page : ℕ) : Moves M s a { s with tlb := Function.update s.tlb (cpu, page) none }
  | call {a : Act} (cpu : Cpu) (job : Job) (page : ℕ) (ha : a = .call cpu job page) :
      Moves M s a { s with calls := s.calls ++ [⟨cpu, job, page, .start, none, false⟩] }
  | skip {i : ℕ} {c : Call} (page : ℕ) {pc : Pc} (hi : s.calls[i]? = some c) (hpc : c.pc = .start)
      (hnew : pc = .start ∨ pc = .done)
      (hjob : (∃ stop shared, c.job = .unmap stop shared) ∨ c.job = .cow ∧ page = c.page ∧ pc = .done ∧
        ((s.leaf (c.slot M)).entry.isPresent && (s.leaf (c.slot M)).entry.isCow) = false) :
      Moves M s (.resume i) (s.goto i { c with page := page, pc := pc })
  | read {i : ℕ} {c : Call} {pc : Pc} (hi : s.calls[i]? = some c) (hpc : c.pc = .start)
      (hp : (s.leaf (c.slot M)).entry.isPresent = true)
      (hnew : pc = .clear (s.leaf (c.slot M)) ∧ (∃ stop shared, c.job = .unmap stop shared) ∨
        pc = .resolve (s.leaf (c.slot M)) ∧ c.job = .cow ∧ (s.leaf (c.slot M)).entry.isCow = true) :
      Moves M s (.resume i) (s.goto i { c with pc := pc })
  | alloc {i : ℕ} {c : Call} {flags : PageFlags} {f : Pfn} {frames : Frames} (hi : s.calls[i]? = some c)
      (hpc : c.pc = .start) (hjob : c.job = .anon flags) (ha : allocFrame s.frames = some (f, frames)) :
      Moves M s (.resume i) ({ s with frames := frames }.goto i
        { c with pc := .map ⟨.newPage f flags.withWritable, s.frees f⟩ })
  | clear {i : ℕ} {c : Call} {old : Mapping} (hi : s.calls[i]? = some c) (hpc : c.pc = .clear old) :
      Moves M s (.resume i) (s.store M i c .empty (if c.job.shared then .flush else .release old))
  | keep {i : ℕ} {c : Call} {old : Mapping} {cow : CowTable} (hi : s.calls[i]? = some c) (hpc : c.pc = .release old) :
      Moves M s (.resume i) { s.goto i { c with pc := .flush } with cow := cow }
  | free {i : ℕ} {c : Call} {old : Mapping} {cow : CowTable} (hi : s.calls[i]? = some c) (hpc : c.pc = .release old)
      (hsole : old.entry.isCow = false ∨ s.cow.find old.entry.frame = none) :
      Moves M s (.resume i)
        { s.goto i { c with pc := .flush } with cow := cow, frames := freeFrame s.frames old.entry.frame }
  | reuse {i : ℕ} {c : Call} {old : Mapping} (hi : s.calls[i]? = some c) (hpc : c.pc = .resolve old)
      (hsole : s.cow.find old.entry.frame = none) :
      Moves M s (.resume i) ({ s with cow := cowUnshare s.cow old.entry.frame }.store M i { c with resolved := true }
        ⟨old.entry.withFlags (cowWritableFlags old.entry.flags), old.born⟩ .flush)
  | copy {i : ℕ} {c : Call} {old : Mapping} {f : Pfn} {frames : Frames} (hi : s.calls[i]? = some c)
      (hpc : c.pc = .resolve old) (hshared : s.cow.find old.entry.frame ≠ none)
      (ha : allocFrame s.frames = some (f, frames)) :
      Moves M s (.resume i) ({ s with cow := cowUnshare s.cow old.entry.frame, frames := frames }.store M i
        { c with resolved := true } ⟨.newPage f (cowWritableFlags old.entry.flags), s.frees f⟩ .flush)
  | map {i : ℕ} {c : Call} {new : Mapping} (hi : s.calls[i]? = some c) (hpc : c.pc = .map new) :
      Moves M s (.resume i) (s.store M i c new .flush)
  | flush {i : ℕ} {c : Call} {shoot : Shootdown.System} (hi : s.calls[i]? = some c) (hpc : c.pc = .flush)
      (hshoot : Shootdown.step M.online s.shoot (.call c.cpu (M.active (M.runs c.cpu)) c.page) = some shoot) :
      Moves M s (.resume i) ({ s with shoot := shoot }.goto i { c with pc := .wait s.shoot.calls.length })
  | wait {i j : ℕ} {c : Call} {d : Shootdown.Call} (hi : s.calls[i]? = some c) (hpc : c.pc = .wait j)
      (hj : s.shoot.calls[j]? = some d) (hd : d.pc = .returned) : Moves M s (.resume i) (s.goto i c.next)
  | shoot {a : Act} {b : Shootdown.Act} {shoot : Shootdown.System}
      (hshoot : Shootdown.step M.online s.shoot b = some shoot) : Moves M s a (s.flushed shoot)

section Steps

variable {M : Machine} {s s' : System} {a : Act} {i : ℕ} {c : Call}

theorem useMapping_moves {cpu : Cpu} {page : ℕ} {write : Bool} {m : Mapping}
    (hm : s.tlb (cpu, page) = some m ∨ s.leaf (M.runs cpu, page) = m) (h : useMapping s cpu page write m = some s') :
    Moves M s a s' := by
  unfold useMapping at h
  by_cases hp : (m.entry.isPresent && (!write || m.entry.isWritable)) = true
  · rw [if_pos hp] at h
    cases h
    exact .use hm (Bool.and_eq_true_iff.1 hp).1
  · rw [if_neg hp] at h
    cases h

theorem begin_moves (hi : s.calls[i]? = some c) (hpc : c.pc = .start) (h : begin M s i c = some s') :
    Moves M s (.resume i) s' := by
  unfold begin at h
  dsimp only at h
  split at h
  case h_1 stop shared hjob =>
    split_ifs at h with hlt hp
    · cases h
      exact .read hi hpc hp (.inl ⟨rfl, stop, shared, hjob⟩)
    · cases h
      exact .skip (c.page + 4096) hi hpc (.inl hpc) (.inl ⟨stop, shared, hjob⟩)
    · cases h
      exact .skip c.page hi hpc (.inr rfl) (.inl ⟨stop, shared, hjob⟩)
  case h_2 hjob =>
    split_ifs at h with hp
    · cases h
      obtain ⟨hp, hcow⟩ := Bool.and_eq_true_iff.1 hp
      exact .read hi hpc hp (.inr ⟨rfl, hjob, hcow⟩)
    · cases h
      exact .skip c.page hi hpc (.inr rfl) (.inr ⟨hjob, rfl, rfl, Bool.eq_false_of_not_eq_true hp⟩)
  case h_3 flags hjob =>
    obtain ⟨⟨f, frames⟩, ha, rfl⟩ := map_eq_some_iff.1 h
    exact .alloc hi hpc hjob ha

theorem stepCall_moves (hi : s.calls[i]? = some c) (h : stepCall M s i c = some s') : Moves M s (.resume i) s' := by
  unfold stepCall at h
  split at h
  case h_1 hpc => exact begin_moves hi hpc h
  case h_2 old hpc =>
    cases h
    exact .clear hi hpc
  case h_3 old hpc =>
    by_cases hcow : old.entry.isCow = true
    · rw [if_pos hcow] at h
      cases h
      by_cases hsole : (s.cow.find old.entry.frame).isNone = true
      · rw [if_pos hsole]
        exact .free hi hpc (.inr (isNone_iff_eq_none.1 hsole))
      · rw [if_neg hsole]
        exact .keep hi hpc
    · rw [if_neg hcow] at h
      cases h
      exact .free hi hpc (.inl (Bool.eq_false_of_not_eq_true hcow))
  case h_4 old hpc =>
    dsimp only [cowResolve] at h
    by_cases hsole : (s.cow.find old.entry.frame).isNone = true
    · rw [if_pos hsole] at h
      cases h
      exact .reuse hi hpc (isNone_iff_eq_none.1 hsole)
    · rw [if_neg hsole] at h
      obtain ⟨⟨f, frames⟩, ha, rfl⟩ := map_eq_some_iff.1 h
      exact .copy hi hpc (fun hn => hsole (isNone_iff_eq_none.2 hn)) ha
  case h_5 new hpc =>
    cases h
    exact .map hi hpc
  case h_6 hpc =>
    obtain ⟨shoot, hshoot, rfl⟩ := map_eq_some_iff.1 h
    exact .flush hi hpc hshoot
  case h_7 j hpc =>
    split_ifs at h with hj
    cases h
    obtain ⟨d, hd, hret⟩ := exists_of_any hj
    exact .wait hi hpc hd (of_decide_eq_true hret)
  case h_8 => exact absurd h (by simp)

theorem stepShoot_moves {b : Shootdown.Act} (h : stepShoot M s b = some s') : Moves M s a s' := by
  obtain ⟨shoot, hshoot, rfl⟩ := map_eq_some_iff.1 h
  exact .shoot hshoot

/-- **What a step can be.** -/
theorem step_moves (h : step M s a = some s') : Moves M s a s' := by
  cases a with
  | hit cpu page write =>
    obtain ⟨m, hm, h⟩ := bind_eq_some_iff.1 h
    exact useMapping_moves (.inl hm) h
  | walk cpu page write => exact useMapping_moves (.inr rfl) h
  | evict cpu page =>
    cases h
    exact .evict cpu page
  | call cpu job page =>
    cases h
    exact .call cpu job page rfl
  | resume i =>
    obtain ⟨c, hi, h⟩ := bind_eq_some_iff.1 h
    exact stepCall_moves hi h
  | shootdown j | interrupt j => exact stepShoot_moves h

end Steps

end Rumicos.Proc.Threads
