/-
Page faults that the kernel takes on user addresses (`crates/proc/src/pagefault.rs`, `address_space.rs`, the user copies of
`syscall.rs`, `crates/fs/src/syscall.rs`).

A system call loads and stores user memory byte by byte with plain instructions between `stac` and `clac`. A machine is the
kernel, the bytes still to be touched and what has become of the CPU. One step is one attempt at the next byte: the page is
there and permits the access; or `pf_handler` runs and the instruction is tried again; or the kernel panics, since a fault
from kernel mode that is not resolved never ends the process. An address between the halves raises #GP, for which no
handler is registered: `default_handler` returns to the same instruction, forever. An address in the kernel half is the
kernel's own memory.

- `step_running`: an attempt goes on exactly if its fault is `Resolvable`: in an area or copy-on-write,
  with a readable file behind it, and with frames for the page and for every table it lacks.
-/
import Rumicos.Proc.Runs
import Rumicos.Proc.UserAccess

namespace Rumicos.Proc.UserFaults

open Paging Memory Lib Fs List Option Slot

/-! ## The machine -/

/-- one byte at a user address -/
structure Touch where
  addr : ℕ
  isWrite : Bool
deriving DecidableEq

/-- the bytes of a list of accesses, in order -/
def touches (l : List UserAccess.Access) : List Touch :=
  l.flatMap fun x => (List.range x.len).map fun i => ⟨x.addr + i, decide (x.dir = .store)⟩

inductive Status where
  | running
  | panicked
  /-- the same instruction raises #GP again and again -/
  | hung
  /-- the access went to the kernel half -/
  | wild
deriving DecidableEq

structure Machine where
  kernel : Kernel
  todo : List Touch
  status : Status

/-- the first address of the kernel half -/
def kernelHalf : ℕ := 0xffff800000000000

/-- `pf_handler`, for the process of address space `a` -/
def pfHandler (k : Kernel) (a addr : ℕ) (isPresent isWrite : Bool) : Option (Kernel × Bool) :=
  if isPresent && isWrite then resolveCowFault k a addr
  else if !isPresent then resolveFileFault k a addr
  else some (k, false)

/-- the end of `pf_handler` for a fault from kernel mode: back to the instruction, or a panic; no result is a panic inside,
for want of a frame or over a `vnode_ptr` that is no direct-map address -/
def Machine.fault (m : Machine) : Option (Kernel × Bool) → Machine
  | some (k, true) => { m with kernel := k }
  | some (k, false) => { m with kernel := k, status := .panicked }
  | none => { m with status := .panicked }

/-- one attempt at the next byte, with the tables of `s` -/
def Machine.touch (m : Machine) (a : ℕ) (s : AddressSpace) (t : Touch) (rest : List Touch) : Machine :=
  if kernelHalf ≤ t.addr then { m with status := .wild }
  else if userTop ≤ t.addr then { m with status := .hung }
  else
    match s.leaf (pageOf t.addr) with
    | some l =>
      if t.isWrite && !l.isWritable then m.fault (pfHandler m.kernel a t.addr true t.isWrite) else { m with todo := rest }
    | none => m.fault (pfHandler m.kernel a t.addr false t.isWrite)

/-- a machine that has stopped, or has nothing left to do, takes no step -/
def step (a : ℕ) (m : Machine) : Option Machine :=
  match m.status, m.todo with
  | .running, t :: rest => (m.kernel.space a).map fun s => m.touch a s t rest
  | _, _ => none

/-- `n` steps -/
def after (a : ℕ) : ℕ → Machine → Option Machine
  | 0, m => some m
  | n + 1, m => (step a m).bind (after a n)

def start (k : Kernel) (todo : List Touch) : Machine := ⟨k, todo, .running⟩

/-! ## The condition -/

/-- the faults that are resolved, for an access to a page that is absent or forbids it -/
def Resolvable (k : Kernel) (s : AddressSpace) (t : Touch) : Prop :=
  match s.leaf (pageOf t.addr) with
  | some l =>
    t.isWrite = true → l.isWritable = false →
      l.isCow = true ∧ (k.cow.find l.frame ≠ none → Slot.gives allocFrame 1 k.frames = true)
  | none =>
    match findVma s.vmas (t.addr / pageSize * pageSize) with
    | none => False
    | some vma =>
      match vma.backing with
      | .anonymous => Slot.gives allocFrame (Slot.missing (some s.pml4) (pageOf t.addr) + 1) k.frames = true
      | .file v fo _ =>
        directMapBase ≤ v ∧
          match k.cache.find (v, fileOff vma fo t.addr) with
          | some _ => Slot.gives allocFrame (Slot.missing (some s.pml4) (pageOf t.addr)) k.frames = true
          | none =>
            (k.vnodes v).vtype = .regular ∧
              Slot.gives allocFrame (Slot.missing (some s.pml4) (pageOf t.addr) + 1) k.frames = true

/-- the next byte lies in the user half, and its fault, if it takes one, is resolved -/
def FaultOk (a : ℕ) (m : Machine) : Prop :=
  match m.status, m.todo with
  | .running, t :: _ => t.addr < userTop ∧ ∀ s, m.kernel.space a = some s → Resolvable m.kernel s t
  | _, _ => True

/-- every step the machine takes meets the condition -/
def FaultsOk (a : ℕ) (m : Machine) : Prop := ∀ n m', after a n m = some m' → FaultOk a m'

/-- all bytes get touched -/
def Completes (a : ℕ) (m : Machine) : Prop := ∃ n m', after a n m = some m' ∧ m'.todo = [] ∧ m'.status = .running

/-- the CPU never stops -/
def Survives (a : ℕ) (m : Machine) : Prop := ∀ n m', after a n m = some m' → m'.status = .running

/-! ## Frames that a fault needs -/

section Frames

variable {k : Kernel} {a : ℕ} {s : AddressSpace}

theorem lt_of_space (hs : k.space a = some s) : a < k.spaces.length := by
  by_contra hge
  rw [Kernel.space, getElem?_eq_none (not_lt.1 hge)] at hs
  cases hs

theorem setLeaf_isSome (hs : k.space a = some s) (p : UPage) (x : Option Leaf) (o : Option Origin) :
    (setLeaf k a p x o).isSome = true := by
  simp only [setLeaf, hs]
  rfl

theorem mapPage_isSome (hs : k.space a = some s) (p : UPage) (f : Pfn) (flags : PageFlags) (o : Option Origin) :
    (mapPage k a p f flags o).isSome = Slot.gives allocFrame (Slot.missing (some s.pml4) p) k.frames := by
  rw [← ensure_isSome]
  simp only [mapPage, ensureTables, hs, bind_eq_bind, bind_some]
  cases he : ensure allocFrame (some s.pml4) p k.frames with
  | none => rfl
  | some r =>
    obtain ⟨c, st, -, rfl⟩ := ensure_some he
    apply setLeaf_isSome
    have hlt : a < k.spaces.length := lt_of_space hs
    simp only [Kernel.space, Kernel.setSpace, getElem?_set_self hlt]
    rfl

theorem mapFresh_isSome (hs : k.space a = some s) (p : UPage) (page : Page) (flags : PageFlags) (o : Origin) :
    (mapFresh k a p page flags o).isSome = Slot.gives allocFrame (Slot.missing (some s.pml4) p + 1) k.frames := by
  simp only [mapFresh, gives]
  cases allocFrame k.frames with
  | none => rfl
  | some x => exact mapPage_isSome (k := { k with frames := x.2, mem := Function.update k.mem x.1 page }) hs ..

end Frames

/-! ## `get_or_fill` -/

section Fill

variable {st : Store} {v off : ℕ}

theorem getOrFill_hit {e : CacheEntry} (he : st.cache.find (v, off) = some e) :
    getOrFill st v off = some (st, some e.frame) := by
  unfold getOrFill
  split
  next e' he' =>
    rw [he] at he'
    cases he'
    rfl
  next hn =>
    rw [he] at hn
    cases hn

theorem getOrFill_miss (hn : st.cache.find (v, off) = none) :
    (getOrFill st v off).map (fun x => (x.1.frames, x.2)) = (allocFrame st.frames).map fun x =>
      if (st.vnodes v).vtype = .regular then (x.2, some x.1) else (freeFrame x.2 x.1, none) := by
  unfold getOrFill
  split
  next e he =>
    rw [hn] at he
    cases he
  next =>
    cases allocFrame st.frames with
    | none => rfl
    | some x =>
      simp only [fillPageFromVnode]
      cases (st.vnodes v).vtype with
      | regular =>
        simp only [if_true]
        split
        · rfl
        · rfl
      | directory => rfl

theorem exists_fill_iff (hn : st.cache.find (v, off) = none) (P : Frames → Prop) :
    (∃ st' f, getOrFill st v off = some (st', some f) ∧ P st'.frames) ↔
      (st.vnodes v).vtype = .regular ∧ ∃ x, allocFrame st.frames = some x ∧ P x.2 := by
  have hmiss := getOrFill_miss hn
  constructor
  · intro h
    obtain ⟨st', f, hg, hP⟩ := h
    rw [hg] at hmiss
    obtain ⟨x, hx, he⟩ := map_eq_some_iff.1 hmiss.symm
    split at he
    next hreg =>
      rw [Prod.mk.injEq] at he
      exact ⟨hreg, x, hx, by rw [he.1]; exact hP⟩
    next =>
      rw [Prod.mk.injEq] at he
      cases he.2
  · intro h
    obtain ⟨hreg, x, hx, hP⟩ := h
    rw [hx, map_some, if_pos hreg] at hmiss
    obtain ⟨y, hy, he⟩ := map_eq_some_iff.1 hmiss
    obtain ⟨st', r⟩ := y
    obtain ⟨hfr, rfl⟩ := Prod.mk.injEq .. ▸ he
    exact ⟨st', x.1, hy, by rw [hfr]; exact hP⟩

end Fill

/-! ## Faults that are resolved -/

section Resolved

variable {k : Kernel} {a addr : ℕ} {s : AddressSpace}

section

variable (hs : k.space a = some s)
include hs

theorem mapPage_resolved (p : UPage) (f : Pfn) (flags : PageFlags) (o : Option Origin) :
    ((mapPage k a p f flags o).bind fun k => some (k, true)).any Prod.snd =
      Slot.gives allocFrame (Slot.missing (some s.pml4) p) k.frames := by
  rw [← mapPage_isSome hs p f flags o]
  cases mapPage k a p f flags o with
  | none | some k' => rfl

/-- each kind of file mapping ends with the same `map_page` of the page it got -/
theorem resolveFileFault_filled {vma : Vma} {v fo : ℕ} {shared : Bool} {st : Store} {f : Pfn}
    (hv : findVma s.vmas (addr / pageSize * pageSize) = some vma) (hb : vma.backing = .file v fo shared)
    (hbase : directMapBase ≤ v) (hg : getOrFill k.toStore v (fileOff vma fo addr) = some (st, some f)) :
    ∃ k' flags, k'.space a = some s ∧ k'.frames = st.frames ∧ resolveFileFault k a addr =
      (mapPage k' a (pageOf addr) f flags (some (.area vma))).bind fun k => some (k, true) := by
  rw [fileOff] at hg
  simp only [resolveFileFault, hs, hv, hb, bind_eq_bind, bind_some, pageOf_align, if_neg (not_lt.2 hbase), hg]
  split
  · split
    · exact ⟨_, _, by exact hs, by rfl, rfl⟩
    · exact ⟨_, _, by exact hs, by rfl, rfl⟩
  · exact ⟨_, _, by exact hs, by rfl, rfl⟩

theorem resolveFileFault_file {vma : Vma} {v fo : ℕ} {shared : Bool}
    (hv : findVma s.vmas (addr / pageSize * pageSize) = some vma) (hb : vma.backing = .file v fo shared)
    (hbase : directMapBase ≤ v) :
    (resolveFileFault k a addr).any Prod.snd = true ↔
      ∃ st f, getOrFill k.toStore v (fileOff vma fo addr) = some (st, some f) ∧
        Slot.gives allocFrame (Slot.missing (some s.pml4) (pageOf addr)) st.frames = true := by
  cases hg : getOrFill k.toStore v (fileOff vma fo addr) with
  | none =>
    rw [fileOff] at hg
    simp only [resolveFileFault, hs, hv, hb, bind_eq_bind, bind_some, if_neg (not_lt.2 hbase), hg]
    simp
  | some x =>
    obtain ⟨st, r⟩ := x
    cases r with
    | none =>
      rw [fileOff] at hg
      simp only [resolveFileFault, hs, hv, hb, bind_eq_bind, bind_some, if_neg (not_lt.2 hbase), hg]
      simp
    | some f =>
      obtain ⟨k', flags, hs', hfr, he⟩ := resolveFileFault_filled hs hv hb hbase hg
      rw [he, mapPage_resolved hs', hfr]
      constructor
      · intro h
        exact ⟨st, f, rfl, h⟩
      · intro h
        obtain ⟨st', f', hst, h⟩ := h
        cases hst
        exact h

/-- **Not-present faults**: in an area, with a readable file behind it, and with the frames. -/
theorem resolveFileFault_iff (hn : s.leaf (pageOf addr) = none) (w : Bool) :
    (resolveFileFault k a addr).any Prod.snd = true ↔ Resolvable k s ⟨addr, w⟩ := by
  simp only [Resolvable, hn]
  cases hv : findVma s.vmas (addr / pageSize * pageSize) with
  | none => simp [resolveFileFault, hs, hv]
  | some vma =>
    dsimp only
    cases hb : vma.backing with
    | anonymous =>
      rw [← mapFresh_isSome hs (pageOf addr) zeroPage vma.flags.withWritable (.area vma)]
      simp only [resolveFileFault, hs, hv, hb, bind_eq_bind, bind_some, pageOf_align]
      cases mapFresh k a (pageOf addr) zeroPage vma.flags.withWritable (.area vma) with
      | none | some k' => rfl
    | file v fo shared =>
      dsimp only
      by_cases hbase : directMapBase ≤ v
      · rw [resolveFileFault_file hs hv hb hbase]
        cases hc : k.cache.find (v, fileOff vma fo addr) with
        | some e =>
          rw [getOrFill_hit hc]
          simp [hbase]
        | none =>
          rw [exists_fill_iff hc fun fr => gives allocFrame (missing (some s.pml4) (pageOf addr)) fr = true]
          simp only [hbase, gives]
          cases allocFrame k.frames with
          | none | some x => simp
      · simp [resolveFileFault, hs, hv, hb, not_le.1 hbase]

theorem setLeaf_resolved (p : UPage) (x : Option Leaf) (o : Option Origin) :
    ((setLeaf k a p x o).bind fun k => some (k, true)).any Prod.snd = true := by
  obtain ⟨k', hk'⟩ := isSome_iff_exists.1 (setLeaf_isSome hs p x o)
  rw [hk']
  rfl

/-- **Write faults on a present page**: a copy-on-write page, with a frame for the copy if it is shared. -/
theorem resolveCowFault_iff {l : Leaf} (hl : s.leaf (pageOf addr) = some l) :
    (resolveCowFault k a addr).any Prod.snd = true ↔
      l.isCow = true ∧ (k.cow.find l.frame ≠ none → Slot.gives allocFrame 1 k.frames = true) := by
  simp only [resolveCowFault, hs, hl, bind_eq_bind, bind_some]
  by_cases hc : l.isCow = true
  · simp only [hc, true_and]
    by_cases hsole : k.cow.find l.frame = none
    · have hres : (cowResolve k.cow l.frame).2 = true := by simp [cowResolve, hsole]
      rw [if_pos hres]
      simp only [hsole, ne_eq, not_true_eq_false, false_implies, iff_true]
      exact setLeaf_resolved (s := s) (by exact hs) _ _ _
    · have hres : ¬ (cowResolve k.cow l.frame).2 = true := by simp [cowResolve, hsole]
      rw [if_neg hres]
      simp only [hsole, ne_eq, not_false_eq_true, true_implies, gives]
      cases allocFrame k.frames with
      | none => simp
      | some x =>
        simp only [iff_true]
        exact setLeaf_resolved (s := s) (by exact hs) _ _ _
  · simp [hc]

end

end Resolved

/-! ## One step -/

variable {m m' : Machine} {a : ℕ} {s : AddressSpace} {t : Touch} {rest : List Touch}

theorem fault_running (hm : m.status = .running) (r : Option (Kernel × Bool)) :
    (m.fault r).status = .running ↔ r.any Prod.snd = true := by
  cases r with
  | none => simp [Machine.fault]
  | some x =>
    obtain ⟨k, b⟩ := x
    cases b with
    | true => simp [Machine.fault, hm]
    | false => simp [Machine.fault]

/-- **An attempt goes on** exactly if the byte lies in the user half and its fault is resolved. -/
theorem touch_running (hm : m.status = .running) (hs : m.kernel.space a = some s) (t : Touch) (rest : List Touch) :
    (m.touch a s t rest).status = .running ↔ t.addr < userTop ∧ Resolvable m.kernel s t := by
  have hhalf : userTop ≤ kernelHalf := by decide
  unfold Machine.touch
  by_cases hk : kernelHalf ≤ t.addr
  · rw [if_pos hk]
    simp [not_lt.2 (hhalf.trans hk)]
  rw [if_neg hk]
  by_cases hu : userTop ≤ t.addr
  · rw [if_pos hu]
    simp [not_lt.2 hu]
  rw [if_neg hu]
  simp only [not_le.1 hu, true_and]
  cases hl : s.leaf (pageOf t.addr) with
  | none =>
    rw [fault_running hm]
    exact resolveFileFault_iff hs hl t.isWrite
  | some l =>
    simp only [Resolvable, hl]
    by_cases hw : (t.isWrite && !l.isWritable) = true
    · rw [if_pos hw, fault_running hm]
      simp only [Bool.and_eq_true, Bool.not_eq_true'] at hw
      simp only [hw.1, hw.2, true_implies]
      exact resolveCowFault_iff hs hl
    · rw [if_neg hw]
      simp only [Bool.and_eq_true, Bool.not_eq_true', not_and] at hw
      simp only [hm, true_iff]
      intro h1 h2
      exact absurd h2 (hw h1)

/-! ## Progress -/

/-- the faults a byte can still take -/
def rank (s : AddressSpace) (t : Touch) : ℕ :=
  match s.leaf (pageOf t.addr) with
  | none => 2
  | some l => if t.isWrite && !l.isWritable then 1 else 0

/-- the faults the next byte can still take -/
def headRank (a : ℕ) (m : Machine) : ℕ :=
  match m.todo, m.kernel.space a with
  | t :: _, some s => rank s t
  | _, _ => 0

def work (a : ℕ) (m : Machine) : ℕ := 3 * m.todo.length + headRank a m

/-- the process has its address space, and its areas are well formed -/
structure Live (a : ℕ) (m : Machine) : Prop where
  areas : AreasInv m.kernel
  space : ∃ s, m.kernel.space a = some s

theorem rank_le (s : AddressSpace) (t : Touch) : rank s t ≤ 2 := by
  unfold rank
  split
  · exact le_rfl
  · split
    · decide
    · decide

theorem headRank_le (a : ℕ) (m : Machine) : headRank a m ≤ 2 := by
  unfold headRank
  split
  · exact rank_le _ _
  · exact Nat.zero_le 2

theorem fault_eq_of_running {r : Option (Kernel × Bool)} (h : (m.fault r).status = .running) (hm : m.status = .running) :
    ∃ k', r = some (k', true) ∧ m.fault r = { m with kernel := k' } := by
  have hany := (fault_running hm r).1 h
  obtain ⟨x, rfl, hx⟩ := exists_of_any hany
  obtain ⟨k', b⟩ := x
  cases hx
  exact ⟨k', rfl, rfl⟩

/-- a step that goes on has touched its byte or resolved a fault -/
inductive Goes (a : ℕ) (m : Machine) (s : AddressSpace) (t : Touch) (rest : List Touch) : Machine → Prop
  | hit : Goes a m s t rest { m with todo := rest }
  | cow {k' : Kernel} {l : Leaf} (hl : s.leaf (pageOf t.addr) = some l) (hw : (t.isWrite && !l.isWritable) = true)
      (hf : CowFault m.kernel a t.addr s k' true) : Goes a m s t rest { m with kernel := k' }
  | file {k' : Kernel} (hl : s.leaf (pageOf t.addr) = none) (hf : FileFault m.kernel a t.addr s k' true) :
      Goes a m s t rest { m with kernel := k' }

theorem touch_goes (hm : m.status = .running) (hs : m.kernel.space a = some s)
    (h : (m.touch a s t rest).status = .running) :
    Goes a m s t rest (m.touch a s t rest) := by
  have hlt := ((touch_running hm hs t rest).1 h).1
  have hhalf : ¬ kernelHalf ≤ t.addr := not_le.2 (hlt.trans (by decide))
  unfold Machine.touch at h ⊢
  rw [if_neg hhalf, if_neg (not_le.2 hlt)] at h ⊢
  cases hl : s.leaf (pageOf t.addr) with
  | none =>
    rw [hl] at h
    obtain ⟨k', hr, he⟩ := fault_eq_of_running h hm
    obtain ⟨s', hs', hf⟩ := resolveFileFault_inv hr
    cases hs.symm.trans hs'
    rw [he]
    exact .file hl hf
  | some l =>
    rw [hl] at h
    dsimp only at h ⊢
    by_cases hw : (t.isWrite && !l.isWritable) = true
    · rw [if_pos hw] at h ⊢
      obtain ⟨k', hr, he⟩ := fault_eq_of_running h hm
      have hwrite : t.isWrite = true := (Bool.and_eq_true_iff.1 hw).1
      simp only [hwrite] at hr
      obtain ⟨s', hs', hf⟩ := resolveCowFault_inv hr
      cases hs.symm.trans hs'
      rw [he]
      exact .cow hl hw hf
    · rw [if_neg hw]
      exact .hit

/-- **A step that goes on makes progress**: one byte less, or one fault less for the next byte. -/
theorem goes_progress (h : Live a m) (hs : m.kernel.space a = some s) (htodo : m.todo = t :: rest)
    (hgo : Goes a m s t rest m') : Live a m' ∧ work a m' < work a m := by
  have hrank : headRank a m = rank s t := by simp [headRank, htodo, hs]
  cases hgo with
  | hit =>
    refine ⟨⟨h.areas, h.space⟩, ?_⟩
    have hle := headRank_le a { m with todo := rest }
    simp only [work, htodo, length_cons]
    omega
  | @cow k' l hl hw hf =>
    obtain ⟨s', l', hs', hl', hw'⟩ := cowFault_leaf hs hf
    refine ⟨⟨areasInv_of_cores h.areas (cowFault_frame hs hf).cores, s', hs'⟩, ?_⟩
    have h1 : headRank a { m with kernel := k' } = 0 := by simp [headRank, htodo, hs', rank, hl', hw']
    have h2 : rank s t = 1 := by simp [rank, hl, hw]
    simp only [work]
    omega
  | @file k' hl hf =>
    obtain ⟨s', l', -, hs', hl', -⟩ := fileFault_entry h.areas hs hf
    refine ⟨⟨areasInv_of_cores h.areas (fileFault_frame hf).cores, s', hs'⟩, ?_⟩
    have h1 : headRank a { m with kernel := k' } ≤ 1 := by
      simp only [headRank, htodo, hs', rank, hl']
      split
      · decide
      · decide
    have h2 : rank s t = 2 := by simp [rank, hl]
    simp only [work]
    omega

/-! ## Whole runs -/

theorem step_eq (hm : m.status = .running) (htodo : m.todo = t :: rest) (hs : m.kernel.space a = some s) :
    step a m = some (m.touch a s t rest) := by
  simp [step, hm, htodo, hs]

theorem step_inv (h : step a m = some m') :
    m.status = .running ∧ ∃ s t rest, m.kernel.space a = some s ∧ m.todo = t :: rest ∧ m' = m.touch a s t rest := by
  unfold step at h
  split at h
  next t rest hm htodo =>
    obtain ⟨s, hs, rfl⟩ := map_eq_some_iff.1 h
    exact ⟨hm, s, t, rest, hs, htodo, rfl⟩
  next => cases h

theorem faultOk_iff (hm : m.status = .running) (htodo : m.todo = t :: rest) (hs : m.kernel.space a = some s) :
    FaultOk a m ↔ t.addr < userTop ∧ Resolvable m.kernel s t := by
  simp [FaultOk, hm, htodo, hs]

theorem faultOk_nil (htodo : m.todo = []) : FaultOk a m := by
  unfold FaultOk
  rw [htodo]
  cases m.status with
  | _ => trivial

/-- **A step goes on exactly under the condition**, and then makes progress. -/
theorem step_running (h : Live a m) (hstep : step a m = some m') :
    (m'.status = .running ↔ FaultOk a m) ∧ (m'.status = .running → Live a m' ∧ work a m' < work a m) := by
  obtain ⟨hm, s, t, rest, hs, htodo, rfl⟩ := step_inv hstep
  refine ⟨?_, ?_⟩
  · rw [faultOk_iff hm htodo hs]
    exact touch_running hm hs t rest
  · intro hgo
    exact goes_progress h hs htodo (touch_goes hm hs hgo)

theorem exists_step (h : Live a m) (hm : m.status = .running) (htodo : m.todo ≠ []) : ∃ m', step a m = some m' := by
  obtain ⟨s, hs⟩ := h.space
  obtain ⟨t, rest, ht⟩ := exists_cons_of_ne_nil htodo
  exact ⟨_, step_eq hm ht hs⟩

theorem FaultsOk.step (h : FaultsOk a m) (hstep : step a m = some m') : FaultsOk a m' := by
  intro n m'' hn
  apply h (n + 1)
  rw [after, hstep, bind_some, hn]

theorem completes_of_faultsOk (h : Live a m) (hm : m.status = .running) (hok : FaultsOk a m) : Completes a m := by
  induction hw : work a m using Nat.strong_induction_on generalizing m with
  | _ w ih =>
    by_cases htodo : m.todo = []
    · exact ⟨0, m, rfl, htodo, hm⟩
    · obtain ⟨m', hstep⟩ := exists_step h hm htodo
      obtain ⟨hiff, hprog⟩ := step_running h hstep
      have hrun : m'.status = .running := hiff.2 (hok 0 m rfl)
      obtain ⟨hlive, hlt⟩ := hprog hrun
      obtain ⟨n, m'', hn, hend⟩ := ih _ (hw ▸ hlt) hlive hrun (hok.step hstep) rfl
      exact ⟨n + 1, m'', by rw [after, hstep, bind_some, hn], hend⟩

theorem Completes.running (h : Completes a m) : m.status = .running := by
  obtain ⟨n, m', hn, -, hm'⟩ := h
  cases n with
  | zero =>
    cases hn
    exact hm'
  | succ n =>
    obtain ⟨m1, hstep, -⟩ := bind_eq_some_iff.1 hn
    exact (step_inv hstep).1

theorem faultsOk_of_completes (h : Live a m) (hc : Completes a m) : FaultsOk a m := by
  obtain ⟨n, m', hn, hend⟩ := hc
  induction n generalizing m with
  | zero =>
    cases hn
    -- nothing is left to do
    intro k m1 hk
    cases k with
    | zero =>
      cases hk
      exact faultOk_nil hend.1
    | succ k =>
      obtain ⟨m2, hstep, -⟩ := bind_eq_some_iff.1 hk
      obtain ⟨-, s, t, rest, -, htodo, -⟩ := step_inv hstep
      rw [hend.1] at htodo
      cases htodo
  | succ n ih =>
    obtain ⟨m1, hstep, hn⟩ := bind_eq_some_iff.1 hn
    obtain ⟨hiff, hprog⟩ := step_running h hstep
    have hrun : m1.status = .running := Completes.running ⟨n, m', hn, hend⟩
    intro k m2 hk
    cases k with
    | zero =>
      cases hk
      exact hiff.1 hrun
    | succ k =>
      rw [after, hstep] at hk
      exact ih (hprog hrun).1 hn k m2 hk

theorem survives_of_faultsOk (h : Live a m) (hm : m.status = .running) (hok : FaultsOk a m) : Survives a m := by
  intro n
  induction n generalizing m with
  | zero =>
    intro m' hn
    cases hn
    exact hm
  | succ n ih =>
    intro m' hn
    obtain ⟨m1, hstep, hn⟩ := bind_eq_some_iff.1 hn
    obtain ⟨hiff, hprog⟩ := step_running h hstep
    have hrun : m1.status = .running := hiff.2 (hok 0 m rfl)
    exact ih (hprog hrun).1 hrun (hok.step hstep) m' hn

theorem faultsOk_of_survives (h : Live a m) (hsv : Survives a m) : FaultsOk a m := by
  intro n
  induction n generalizing m with
  | zero =>
    intro m' hn
    cases hn
    by_cases htodo : m.todo = []
    · exact faultOk_nil htodo
    · obtain ⟨m', hstep⟩ := exists_step h (hsv 0 m rfl) htodo
      apply (step_running h hstep).1.1
      apply hsv 1
      rw [after, hstep, bind_some, after]
  | succ n ih =>
    intro m' hn
    obtain ⟨m1, hstep, hn⟩ := bind_eq_some_iff.1 hn
    have hnext : Survives a m1 := by
      intro k m2 hk
      apply hsv (k + 1)
      rw [after, hstep, bind_some, hk]
    exact ih ((step_running h hstep).2 (hnext 0 m1 rfl)).1 hnext m' hn

/-- **User copies.** All bytes get touched exactly if every fault on the way is resolvable, and exactly if the kernel never
panics and never hangs. -/
theorem completes_iff (h : Live a m) (hm : m.status = .running) :
    (Completes a m ↔ FaultsOk a m) ∧ (Survives a m ↔ FaultsOk a m) :=
  ⟨⟨faultsOk_of_completes h, completes_of_faultsOk h hm⟩, ⟨faultsOk_of_survives h, survives_of_faultsOk h hm⟩⟩

/-! ## System calls -/

/-- the machine at the start of a system call's accesses to user memory -/
def syscall (k : Kernel) (env : UserAccess.Env) (nr a1 a2 a3 : ℕ) : Machine :=
  start k (touches (UserAccess.procSyscallHandler env nr a1 a2 a3).1)

/-- **System calls and user memory.** In every reachable state, for every system call of a process with address space
`a` and all arguments: the call gets through its accesses to user memory exactly if each fault it takes is resolvable,
and exactly then the kernel neither panics nor hangs on one. -/
theorem syscall_completes_iff {answers : List Pfn} {vnodes : ℕ → VNode} {ops : List Op} {k : Kernel}
    (hrun : run (Kernel.new answers vnodes) ops = some k) {a : ℕ} {s : AddressSpace} (hs : k.space a = some s)
    (env : UserAccess.Env) (nr a1 a2 a3 : ℕ) :
    (Completes a (syscall k env nr a1 a2 a3) ↔ FaultsOk a (syscall k env nr a1 a2 a3)) ∧
      (Survives a (syscall k env nr a1 a2 a3) ↔ FaultsOk a (syscall k env nr a1 a2 a3)) :=
  completes_iff ⟨(run_shape hrun).areas, s, hs⟩ rfl

/-- PR_GET_NAME into an anonymous area whose page has not been touched: one fault, sixteen bytes -/
theorem prctl_anonymous :
    ∃ k, run smallKernel [.create bareImage, .mmap 0 4096 ⟨true, false⟩ .anonymous] = some k ∧
      Completes 0 (syscall k UserAccess.plainEnv 157 16 mmapBase 0) ∧
      FaultsOk 0 (syscall k UserAccess.plainEnv 157 16 mmapBase 0) := by
  refine exists_of_check (fun k => (∃ s, k.space 0 = some s ∧ True) ∧
    ∃ m, after 0 17 (syscall k UserAccess.plainEnv 157 16 mmapBase 0) = some m ∧ m.todo = [] ∧ m.status = .running)
    (by decide +kernel) fun k hk ⟨⟨s, hs, _⟩, m, hm⟩ => ?_
  have hc : Completes 0 (syscall k UserAccess.plainEnv 157 16 mmapBase 0) := ⟨17, m, hm⟩
  exact ⟨hc, (syscall_completes_iff hk hs _ _ _ _ _).1.1 hc⟩

/-- **A kernel panic from user mode.** A process that asks for its name at an unmapped address of the user half panics the
kernel, and so does one that asks for it in a read-only page. -/
theorem prctl_unmapped : UserAccess.isUserPtr 4096 16 = true ∧
    (run smallKernel [.create bareImage]).any (fun k =>
      (after 0 1 (syscall k UserAccess.plainEnv 157 16 4096 0)).any (fun m => decide (m.status = .panicked)) &&
      (after 0 1 (syscall k UserAccess.plainEnv 157 16 sigreturnTrampolineVa 0)).any
        (fun m => decide (m.status = .panicked))) = true := by
  decide +kernel

end Rumicos.Proc.UserFaults
