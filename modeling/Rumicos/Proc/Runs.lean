/-
Runs of the kernel: what one operation can do, and the invariants that every operation keeps.

- `Stepped`, `step_cases`: the outcomes of each operation of `Op`, in terms of the specifications of its parts.
- `Shape`: areas are well formed, the references to address spaces are the processes, and there are at most 64 of them.
  Every operation keeps it, whatever happens (`step_shape`).
- `StepOk`: what an operation must not do if the accounts are to stay right: overflow a bucket of COW_TABLE, lay a
  MAP_SHARED area over present pages, or tear down an address space that has pages in a MAP_SHARED area.
-/
import Rumicos.Proc.Faults
import Rumicos.Proc.Fork
import Rumicos.Proc.Teardown

namespace Rumicos.Proc

open Paging Memory Lib Fs List Option

/-! ## One operation -/

/-- the history of stores after a store to `addr` -/
def storesAfter (k : Kernel) (s : AddressSpace) (addr : ℕ) (b : UInt8) : List StoreEvent :=
  match sharedTarget s addr with
  | some (v, pos) => ⟨v, pos, b, true⟩ :: k.stores
  | none => k.stores

/-- the state after a store of `b` to frame `f` -/
def stored (k : Kernel) (s : AddressSpace) (f : Pfn) (addr : ℕ) (b : UInt8) : Kernel :=
  { k with
    mem := Function.update k.mem f (Function.update (k.mem f) (addr % pageSize) b)
    stores := storesAfter k s addr b }

/-- the outcomes of each operation -/
inductive Stepped (k : Kernel) : Op → Kernel → Prop
  | create {img : Image} {k1 : Kernel} {c : ℕ} (hl : loadImage k img = some (k1, c)) (hp : k1.procs < maxProcesses) :
      Stepped k (.create img) { k1 with procs := k1.procs + 1 }
  | fork {a c : ℕ} {k1 : Kernel} (hf : forkCow k a = some (k1, c)) (hp : k1.procs < maxProcesses) :
      Stepped k (.fork a) { k1 with procs := k1.procs + 1 }
  | clone {a : ℕ} {s : AddressSpace} (hs : k.space a = some s) (hp : k.procs < maxProcesses) :
      Stepped k (.clone a) { k.setSpace a { s with refcount := s.refcount + 1 } with procs := k.procs + 1 }
  | execve {a c : ℕ} {img : Image} {s : AddressSpace} {k1 k' : Kernel} (hs : k.space a = some s)
      (hl : loadImage k img = some (k1, c)) (hd : dropRef k1 a = some k') : Stepped k (.execve a img) k'
  | exit {a : ℕ} {k1 : Kernel} (hd : dropRef k a = some k1) : Stepped k (.exit a) { k1 with procs := k1.procs - 1 }
  | mmap {a length : ℕ} {prot : Prot} {req : MapRequest} {k' : Kernel} {r : Option ℕ}
      (hm : sysMmap k a length prot req = some (k', r)) : Stepped k (.mmap a length prot req) k'
  | munmap {a addr length len : ℕ} {k' : Kernel} {b : Bool} (hm : Proc.munmap k a addr len = some (k', b)) :
      Stepped k (.munmap a addr length) k'
  | munmapRefused {a addr length : ℕ} : Stepped k (.munmap a addr length) k
  | load {a addr : ℕ} {k' : Kernel} {r : Option Pfn} (haddr : addr < userTop) (ha : Access k a addr false k' r) :
      Stepped k (.load a addr) k'
  | storeKilled {a addr : ℕ} {b : UInt8} {k' : Kernel} (haddr : addr < userTop) (ha : Access k a addr true k' none) :
      Stepped k (.store a addr b) k'
  | store {a addr : ℕ} {b : UInt8} {k1 : Kernel} {f : Pfn} {s : AddressSpace} (haddr : addr < userTop)
      (ha : Access k a addr true k1 (some f)) (hs : k1.space a = some s) :
      Stepped k (.store a addr b) (stored k1 s f addr b)
  | writeFailed {v offset : ℕ} {buf : List UInt8} : Stepped k (.write v offset buf) k
  | write {v offset : ℕ} {buf : List UInt8} {st : Store} (hlen : buf.length ≤ 4096)
      (hw : vnodeWrite k.toStore v buf offset = some st) :
      Stepped k (.write v offset buf) { k with
        toStore := st
        stores := ((List.range buf.length).map fun i => ⟨v, offset + i, buf.getD i 0, false⟩).reverse ++ k.stores }

/-- the address space and address of a load or store, and whether it is a store -/
def Op.target : Op → Option (ℕ × ℕ × Bool)
  | .load a addr => some (a, addr, false)
  | .store a addr _ => some (a, addr, true)
  | _ => none

variable {k k' : Kernel} {a n : ℕ} {op : Op} {s : AddressSpace}

theorem load_inv {addr : ℕ} {r : Option UInt8} (hk : AreasInv k) (h : load k a addr = some (k', r)) :
    addr < userTop ∧ ∃ x, Access k a addr false k' x ∧ r = x.map fun f => k'.mem f (addr % pageSize) := by
  unfold load at h
  rcases Nat.lt_or_ge addr userTop with hlt | hge
  · rw [if_neg (not_le.2 hlt)] at h
    simp only [bind_eq_bind, bind_eq_some_iff, Option.pure_def, some.injEq, Prod.mk.injEq,
      Prod.exists] at h
    obtain ⟨k1, x, ha, rfl, rfl⟩ := h
    exact ⟨hlt, x, (access_inv hk 0 (k1, x) ha).1, rfl⟩
  · rw [if_pos hge] at h
    cases h

theorem store_inv {addr : ℕ} {b : UInt8} (hk : AreasInv k) (h : store k a addr b = some k') :
    addr < userTop ∧ (Access k a addr true k' none ∨ ∃ k1 f s, Access k a addr true k1 (some f) ∧
      k1.space a = some s ∧ k' = stored k1 s f addr b) := by
  unfold store at h
  rcases Nat.lt_or_ge addr userTop with hlt | hge
  · rw [if_neg (not_le.2 hlt)] at h
    simp only [bind_eq_bind, bind_eq_some_iff, Option.pure_def, Prod.exists] at h
    obtain ⟨k1, x, ha, h⟩ := h
    have hacc := (access_inv hk 0 (k1, x) ha).1
    refine ⟨hlt, ?_⟩
    cases x with
    | none =>
      cases h
      exact .inl hacc
    | some f =>
      simp only [bind_eq_some_iff, some.injEq] at h
      obtain ⟨s, hs, rfl⟩ := h
      exact .inr ⟨k1, f, s, hacc, hs, rfl⟩
  · rw [if_pos hge] at h
    cases h

/-- **The inversion of `step`.** -/
theorem step_cases (hk : AreasInv k) (h : step k op = some k') : Stepped k op k' := by
  cases op with
  | create img =>
    simp only [step, createProcess, bind_eq_bind, bind_eq_some_iff, Prod.exists] at h
    obtain ⟨k1, c, hl, h⟩ := h
    split_ifs at h with hp
    simp only [Option.pure_def, some.injEq] at h
    exact h ▸ .create hl hp
  | fork a =>
    simp only [step, sysFork, bind_eq_bind, bind_eq_some_iff, Prod.exists] at h
    obtain ⟨k1, c, hf, h⟩ := h
    split_ifs at h with hp
    simp only [Option.pure_def, some.injEq] at h
    exact h ▸ .fork hf hp
  | clone a =>
    simp only [step, sysClone, bind_eq_bind, bind_eq_some_iff] at h
    obtain ⟨s, hs, h⟩ := h
    split_ifs at h with hp
    simp only [Option.pure_def, some.injEq] at h
    exact h ▸ .clone hs hp
  | execve a img =>
    simp only [step, doExecve, bind_eq_bind, bind_eq_some_iff, Prod.exists] at h
    obtain ⟨s, hs, k1, c, hl, hd⟩ := h
    exact .execve hs hl hd
  | exit a =>
    simp only [step, reapZombie, bind_eq_bind, bind_eq_some_iff, Option.pure_def,
      some.injEq] at h
    obtain ⟨k1, hd, rfl⟩ := h
    exact .exit hd
  | mmap a length prot req =>
    simp only [step, map_eq_some_iff, Prod.exists] at h
    obtain ⟨k1, r, hm, rfl⟩ := h
    exact .mmap hm
  | munmap a addr length =>
    simp only [step, sysMunmap, bind_eq_bind, bind_eq_some_iff] at h
    obtain ⟨s, hs, h⟩ := h
    by_cases hbad : addr = 0 ∨ length = 0 ∨ addr % pageSize ≠ 0
    · rw [if_pos hbad] at h
      simp only [Option.pure_def, some.injEq] at h
      exact h ▸ .munmapRefused
    · rw [if_neg hbad] at h
      rcases hlen : alignUpPage length with _ | len
      · rw [hlen] at h
        simp only [Option.pure_def, some.injEq] at h
        exact h ▸ .munmapRefused
      · rw [hlen] at h
        simp only [bind_eq_some_iff, Option.pure_def, some.injEq, Prod.exists] at h
        obtain ⟨k1, b, hm, rfl⟩ := h
        exact .munmap hm
  | load a addr =>
    simp only [step, map_eq_some_iff, Prod.exists] at h
    obtain ⟨k1, r, hl, rfl⟩ := h
    obtain ⟨haddr, x, ha, -⟩ := load_inv hk hl
    exact .load haddr ha
  | store a addr b =>
    obtain ⟨haddr, ha | ⟨k1, f, s, ha, hs, rfl⟩⟩ := store_inv hk h
    · exact .storeKilled haddr ha
    · exact .store haddr ha hs
  | write v offset buf =>
    simp only [step, sysWrite] at h
    split_ifs at h with hlen
    split at h
    · simp only [some.injEq] at h
      exact h ▸ .writeFailed
    · rename_i st hw
      simp only [some.injEq] at h
      exact h ▸ .write hlen hw

/-! ## References -/

def refSum (cs : List (Option Core)) : ℕ := (cs.map fun o => o.elim 0 Core.refcount).sum

/-- every live address space is well formed and referenced, and there are `n` references in all -/
structure CoresOk (cs : List (Option Core)) (n : ℕ) : Prop where
  core : ∀ c, some c ∈ cs → CoreOk c ∧ 1 ≤ c.refcount ∧ c.ownFrame.isSome = true
  refs : refSum cs = n

/-- what every state of every run satisfies -/
structure Shape (k : Kernel) : Prop where
  cores : CoresOk k.cores k.procs
  procs : k.procs ≤ maxProcesses

theorem mem_cores (hs : k.space a = some s) : k.cores[a]? = some (some s.core) := by
  rw [Kernel.cores, getElem?_map, space_eq_some hs]
  rfl

theorem areasInv_of_coresOk (h : CoresOk k.cores n) : AreasInv k := fun _ _ hs =>
  (h.core _ (mem_of_getElem? (mem_cores hs))).1

theorem Shape.areas (h : Shape k) : AreasInv k := areasInv_of_coresOk h.cores

theorem coresOk_set {cs cs' : List (Option Core)} {m : ℕ} {c : Core} {x : Option Core} (h : CoresOk cs n)
    (ha : cs[a]? = some (some c)) (hcs : cs' = cs.set a x)
    (hx : ∀ d, x = some d → CoreOk d ∧ 1 ≤ d.refcount ∧ d.ownFrame.isSome = true)
    (hm : m + c.refcount = n + x.elim 0 Core.refcount) : CoresOk cs' m := by
  subst hcs
  refine ⟨fun d hd => ?_, ?_⟩
  · rcases mem_or_eq_of_mem_set hd with hd | hd
    · exact h.core d hd
    · exact hx d hd.symm
  · have hsum := sum_map_set cs a (some c) x (fun o => o.elim 0 Core.refcount) ha
    have hn : (cs.map fun o => o.elim 0 Core.refcount).sum = n := h.refs
    rw [refSum]
    simp only [elim_some] at hsum
    omega

theorem coresOk_append {cs : List (Option Core)} (h : CoresOk cs n) {d : Core} (hd : CoreOk d) (h1 : d.refcount = 1)
    (ho : d.ownFrame.isSome = true) : CoresOk (cs ++ [some d]) (n + 1) := by
  refine ⟨fun c hc => ?_, ?_⟩
  · rcases mem_append.1 hc with hc | hc
    · exact h.core c hc
    · simp only [mem_singleton, some.injEq] at hc
      exact hc ▸ ⟨hd, by omega, ho⟩
  · have hn : (cs.map fun o => o.elim 0 Core.refcount).sum = n := h.refs
    simp [refSum, h1, hn]

theorem coreOk_new (f : Option Pfn) (n : ℕ) : CoreOk ⟨List.replicate maxVmas none, mmapBase, n, f⟩ :=
  ⟨vmasOk_new, fun v hv => by simp [mem_replicate] at hv⟩

theorem coresOk_dropRef (h : CoresOk k.cores (n + 1)) (hd : dropRef k a = some k') :
    CoresOk k'.cores n ∧ k'.procs = k.procs := by
  obtain ⟨s, hs, ⟨hr, own, -, rfl⟩ | ⟨hr, rfl⟩⟩ := dropRef_cases hd
  · refine ⟨coresOk_set h (mem_cores hs) map_set nofun ?_, rfl⟩
    change n + s.refcount = n + 1 + 0
    omega
  · obtain ⟨h1, h2, h3⟩ := h.core _ (mem_of_getElem? (mem_cores hs))
    have h2' : 1 ≤ s.refcount := h2
    refine ⟨coresOk_set h (mem_cores hs) map_set (fun d hd => ?_) ?_, rfl⟩
    · cases hd
      exact ⟨⟨h1.vmas, h1.flags⟩, by change 1 ≤ s.refcount - 1; omega, h3⟩
    · change n + s.refcount = n + 1 + (s.refcount - 1)
      omega

theorem coreOk_mmap (h : CoreOk s.core) {len : ℕ} {prot : Prot} {req : MapRequest} {m : ℕ × List (Option Vma) × ℕ}
    (hm : mmap s.vmas s.mmapNext len (protToPageFlags prot) req.backing = some m) (n : ℕ) (f : Option Pfn) :
    CoreOk ⟨m.2.1, m.2.2, n, f⟩ := by
  refine ⟨vmasOk_mmap h.vmas hm, fun v hv => ?_⟩
  rcases (mem_mmap hm v).1 hv with hv | rfl
  · exact h.flags v hv
  · exact ⟨by simp, by simp⟩

theorem Shape.access {addr : ℕ} {w : Bool} {r : Option Pfn} (h : Shape k) (ha : Access k a addr w k' r) : Shape k' := by
  obtain ⟨-, hc, -, hp, -, -⟩ := access_frame ha
  exact ⟨by rw [hc, hp]; exact h.cores, by rw [hp]; exact h.procs⟩

/-- **Every operation keeps the shape of the system.** -/
theorem step_shape (h : Shape k) (hstep : step k op = some k') : Shape k' := by
  cases step_cases h.areas hstep with
  | @create img k1 c hl hp =>
    have hld := loadImage_spec hl
    obtain ⟨f, hc⟩ := hld.cores
    refine ⟨?_, hp⟩
    change CoresOk k1.cores (k1.procs + 1)
    rw [hc, hld.procs]
    exact coresOk_append h.cores (coreOk_new _ _) rfl rfl
  | @fork a c k1 hf hp =>
    obtain ⟨s0, hs, hfk⟩ := forkCow_spec hf
    obtain ⟨f, hc⟩ := hfk.cores
    refine ⟨?_, hp⟩
    change CoresOk k1.cores (k1.procs + 1)
    rw [hc, hfk.procs]
    have hok := h.areas a s0 hs
    exact coresOk_append h.cores ⟨hok.vmas, hok.flags⟩ rfl rfl
  | @clone a s hs hp =>
    obtain ⟨h1, h2, h3⟩ := h.cores.core _ (mem_of_getElem? (mem_cores hs))
    refine ⟨coresOk_set h.cores (mem_cores hs) map_set (fun d hd => ?_) ?_, hp⟩
    · cases hd
      exact ⟨⟨h1.vmas, h1.flags⟩, Nat.le_add_left _ _, h3⟩
    · change k.procs + 1 + s.refcount = k.procs + (s.refcount + 1)
      omega
  | @execve a c img s k1 _ hs hl hd =>
    have hld := loadImage_spec hl
    obtain ⟨f, hc⟩ := hld.cores
    have h1 : CoresOk k1.cores (k.procs + 1) := by
      rw [hc]
      exact coresOk_append h.cores (coreOk_new _ _) rfl rfl
    obtain ⟨h2, hp⟩ := coresOk_dropRef h1 hd
    have hprocs : k'.procs = k.procs := hp.trans hld.procs
    exact ⟨by rw [hprocs]; exact h2, by rw [hprocs]; exact h.procs⟩
  | @exit a k1 hd =>
    -- the process that exits holds one of the references
    obtain ⟨s, hs, -⟩ := dropRef_cases hd
    obtain ⟨-, h2, -⟩ := h.cores.core _ (mem_of_getElem? (mem_cores hs))
    have hpos : 1 ≤ k.procs := by
      have hle := single_le_sum (by simp) s.core.refcount
        (mem_map.2 ⟨some s.core, mem_of_getElem? (mem_cores hs), rfl⟩ :
          s.core.refcount ∈ k.cores.map fun o => o.elim 0 Core.refcount)
      have hr : (k.cores.map fun o => o.elim 0 Core.refcount).sum = k.procs := h.cores.refs
      omega
    have h1 : CoresOk k.cores (k.procs - 1 + 1) := by rw [Nat.sub_add_cancel hpos]; exact h.cores
    obtain ⟨h3, hp⟩ := coresOk_dropRef h1 hd
    refine ⟨?_, ?_⟩
    · rw [hp]
      exact h3
    · change k1.procs - 1 ≤ _
      have := h.procs
      omega
  | @mmap a length prot req _ r hm =>
    obtain ⟨s, hs, ⟨-, rfl⟩ | ⟨-, v, rfl⟩ | ⟨len, m, -, hmap, -, rfl⟩⟩ := sysMmap_cases hm
    · exact h
    · exact ⟨h.cores, h.procs⟩
    · have heq := afterIncRef_eq k req
      obtain ⟨h1, h2, h3⟩ := h.cores.core _ (mem_of_getElem? (mem_cores hs))
      have hprocs : (afterIncRef k req).procs = k.procs := by rw [heq]
      have hspaces : (afterIncRef k req).spaces = k.spaces := by rw [heq]
      refine ⟨?_, by change (afterIncRef k req).procs ≤ _; rw [hprocs]; exact h.procs⟩
      change CoresOk (((afterIncRef k req).spaces.set a _).map _) (afterIncRef k req).procs
      rw [hspaces, hprocs]
      refine coresOk_set h.cores (mem_cores hs) map_set (fun d hd => ?_) rfl
      cases hd
      exact ⟨coreOk_mmap h1 hmap _ _, h2, h3⟩
  | @munmap a addr length len _ b hm =>
    obtain ⟨s, hs, rfl | ⟨slot, vma, hmm⟩⟩ := munmap_spec h.areas hm
    · exact h
    · obtain ⟨h1, h2, h3⟩ := h.cores.core _ (mem_of_getElem? (mem_cores hs))
      refine ⟨?_, by rw [hmm.procs]; exact h.procs⟩
      rw [hmm.procs]
      refine coresOk_set h.cores (mem_cores hs) hmm.cores (fun d hd => ?_) rfl
      cases hd
      exact ⟨⟨vmasOk_clear h1.vmas slot, fun v hv => h1.flags v (mem_of_mem_set_none hv)⟩, h2, h3⟩
  | munmapRefused | writeFailed => exact h
  | load haddr ha | storeKilled haddr ha => exact h.access ha
  | store haddr ha hs =>
    obtain ⟨hc, hp⟩ := h.access ha
    exact ⟨hc, hp⟩
  | write hlen hw => exact ⟨h.cores, h.procs⟩

theorem shape_new (answers : List Pfn) (vnodes : ℕ → VNode) : Shape (Kernel.new answers vnodes) :=
  ⟨⟨fun c hc => by simp [Kernel.cores, Kernel.new] at hc, rfl⟩, Nat.zero_le _⟩

/-- **Every reachable state has the shape.** -/
theorem run_shape {answers : List Pfn} {vnodes : ℕ → VNode} {ops : List Op}
    (h : run (Kernel.new answers vnodes) ops = some k) : Shape k :=
  foldlM_inv (fun _ => Shape) (fun _ _ _ _ hI hs => step_shape hI hs) (shape_new answers vnodes) h

theorem Shape.live (h : Shape k) : k.liveCount ≤ maxProcesses := by
  have h1 : k.liveCount ≤ k.total fun s => s.core.refcount :=
    total_le_total k _ _ fun a s hs => (h.cores.core _ (mem_of_getElem? (mem_cores hs))).2.1
  have h2 : (k.total fun s => s.core.refcount) = k.procs := by
    rw [total_cores k Core.refcount]
    exact h.cores.refs
  have := h.procs
  omega

/-! ## Areas -/

section Areas

variable {P : Vma → Prop}

/-- every area satisfies `P` -/
def AllAreas (P : Vma → Prop) (k : Kernel) : Prop := ∀ c, some c ∈ k.cores → ∀ v, some v ∈ c.vmas → P v

theorem AllAreas.area (h : AllAreas P k) (hs : k.space a = some s) (v : Vma) (hv : some v ∈ s.vmas) : P v :=
  h s.core (mem_of_getElem? (mem_cores hs)) v hv

theorem allAreas_set {x : Option Core} (h : AllAreas P k) (hc : k'.cores = k.cores.set a x)
    (hx : ∀ d, x = some d → ∀ v, some v ∈ d.vmas → P v) : AllAreas P k' := by
  intro c hcm v hv
  rw [hc] at hcm
  rcases mem_or_eq_of_mem_set hcm with hcm | hcm
  · exact h c hcm v hv
  · exact hx c hcm.symm v hv

theorem allAreas_append {d : Core} (h : AllAreas P k) (hc : k'.cores = k.cores ++ [some d])
    (hd : ∀ v, some v ∈ d.vmas → P v) : AllAreas P k' := by
  intro c hcm v hv
  rw [hc] at hcm
  rcases mem_append.1 hcm with hcm | hcm
  · exact h c hcm v hv
  · simp only [mem_singleton, some.injEq] at hcm
    subst hcm
    exact hd v hv

theorem allAreas_loaded {c : ℕ} (h : AllAreas P k) (hl : Loaded k k' c) : AllAreas P k' := by
  obtain ⟨f, hc⟩ := hl.cores
  exact allAreas_append h hc fun v hv => by simp [mem_replicate] at hv

theorem allAreas_dropRef (h : AllAreas P k) (hd : dropRef k a = some k') : AllAreas P k' := by
  obtain ⟨s, hs, ⟨-, own, -, rfl⟩ | ⟨-, rfl⟩⟩ := dropRef_cases hd
  · exact allAreas_set h map_set nofun
  · refine allAreas_set h map_set fun d hd => ?_
    cases hd
    exact h.area hs

/-- **Areas come from mmap and are copied by fork.** -/
theorem step_allAreas (hk : Shape k) (h : AllAreas P k)
    (hop : ∀ a length prot req, op = .mmap a length prot req → ∀ start endAddr, P ⟨start, endAddr, protToPageFlags prot,
    req.backing⟩)
    (hstep : step k op = some k') : AllAreas P k' := by
  cases step_cases hk.areas hstep with
  | create hl hp =>
    have hld := allAreas_loaded h (loadImage_spec hl)
    exact hld
  | @fork a c k1 hf hp =>
    obtain ⟨s0, hs, hfk⟩ := forkCow_spec hf
    obtain ⟨f, hc⟩ := hfk.cores
    have hall := allAreas_append h hc (h.area hs)
    exact hall
  | @clone a s hs hp =>
    refine allAreas_set h map_set fun d hd => ?_
    cases hd
    exact h.area hs
  | execve hs hl hd => exact allAreas_dropRef (allAreas_loaded h (loadImage_spec hl)) hd
  | exit hd =>
    have := allAreas_dropRef h hd
    exact this
  | @mmap a length prot req _ r hm =>
    obtain ⟨s, hs, ⟨-, rfl⟩ | ⟨-, v, rfl⟩ | ⟨len, m, -, hmap, -, rfl⟩⟩ := sysMmap_cases hm
    · exact h
    · exact h
    · rw [afterIncRef_eq]
      refine allAreas_set h map_set fun d hd v hv => ?_
      cases hd
      rcases (mem_mmap hmap v).1 hv with hv | rfl
      · exact h.area hs v hv
      · exact hop a length prot req rfl _ _
  | munmap hm =>
    obtain ⟨s, hs, rfl | ⟨slot, vma, hmm⟩⟩ := munmap_spec hk.areas hm
    · exact h
    · refine allAreas_set h hmm.cores fun d hd v hv => ?_
      cases hd
      exact h.area hs v (mem_of_mem_set_none hv)
  | munmapRefused | writeFailed | write hlen hw => exact h
  | load haddr ha | storeKilled haddr ha =>
    rw [AllAreas, (access_frame ha).2.1]
    exact h
  | @store a addr b k1 f s haddr ha hs =>
    change AllAreas P k1
    rw [AllAreas, (access_frame ha).2.1]
    exact h

end Areas

/-! ## Good runs -/

/-- the last reference to an address space goes only when it has no page in a MAP_SHARED area -/
def DropPlain (k : Kernel) (a : ℕ) : Prop :=
  ∀ s, k.space a = some s → s.refcount = 1 → ∀ p l, s.leaf p = some l → s.inShared p = false

/-- what an operation must not do -/
def StepOk (k : Kernel) : Op → Prop
  | .fork a => Fits k.cow (forkFrames k a)
  | .execve a _ => DropPlain k a
  | .exit a => DropPlain k a
  | .mmap a length prot req => MmapClear k a length prot req
  | .load a addr => FaultFits k a addr
  | .store a addr _ => FaultFits k a addr
  | _ => True

/-- `DropPlain`, decided by the walk over the leaves -/
def dropPlain (k : Kernel) (a : ℕ) : Bool := (k.space a).all fun s =>
  !decide (s.refcount = 1) || (Slot.leaves (some s.pml4)).all fun x => !s.inShared x.1

theorem dropPlain_iff (k : Kernel) (a : ℕ) : dropPlain k a = true ↔ DropPlain k a := by
  unfold dropPlain DropPlain
  constructor
  · intro h s hs hr p l hl
    rw [hs, all_some, decide_eq_true hr, Bool.not_true, Bool.false_or, List.all_eq_true] at h
    simpa using h (p, l) ((Slot.mem_leaves _ _ _).2 hl)
  · intro h
    rcases hs : k.space a with _ | s
    · rfl
    · by_cases hr : s.refcount = 1
      · rw [all_some, decide_eq_true hr, Bool.not_true, Bool.false_or, List.all_eq_true]
        intro x hx
        rw [h s hs hr x.1 x.2 ((Slot.mem_leaves _ _ _).1 hx)]
        rfl
      · rw [all_some, decide_eq_false hr]
        rfl

/-- `MmapClear`, decided by the pages of the new area -/
def mmapClear (k : Kernel) (a length : ℕ) (prot : Prot) (req : MapRequest) : Bool :=
  !req.isShared || (k.space a).all fun s => (alignUpPage length).all fun len =>
    (mmap s.vmas s.mmapNext len (protToPageFlags prot) req.backing).all fun m =>
      (pagesIn m.1 (m.1 + len)).all fun q => (s.leaf q).isNone

theorem mmapClear_iff (k : Kernel) (a length : ℕ) (prot : Prot) (req : MapRequest) :
    mmapClear k a length prot req = true ↔ MmapClear k a length prot req := by
  unfold mmapClear MmapClear
  constructor
  · intro h hsh s len m hs hlen hm q h1 h2
    obtain ⟨-, -, -, -, -, -, -, hal, -, -⟩ := mmap_spec hm
    rw [hsh, hs, hlen, Bool.not_true, Bool.false_or, all_some, all_some, hm, all_some,
      List.all_eq_true] at h
    exact isNone_iff_eq_none.1 (h q (mem_pagesIn hal h1 h2))
  · intro h
    rcases hsh : req.isShared with _ | _
    · rfl
    rcases hs : k.space a with _ | s
    · rfl
    rcases hlen : alignUpPage length with _ | len
    · rfl
    rw [Bool.not_true, Bool.false_or, all_some, all_some]
    rcases hm : mmap s.vmas s.mmapNext len (protToPageFlags prot) req.backing with _ | m
    · rfl
    obtain ⟨-, -, -, -, -, hend, -, hal, -, -⟩ := mmap_spec hm
    rw [all_some, List.all_eq_true]
    intro q hq
    obtain ⟨h1, h2⟩ := pagesIn_addr hal (le_trans hend (by decide)) hq
    rw [h hsh s len m hs hlen hm q h1 h2]
    rfl

instance (k : Kernel) : (op : Op) → Decidable (StepOk k op)
  | .fork a => inferInstanceAs (Decidable (Fits k.cow (forkFrames k a)))
  | .execve a _ => decidable_of_iff _ (dropPlain_iff k a)
  | .exit a => decidable_of_iff _ (dropPlain_iff k a)
  | .mmap a length prot req => decidable_of_iff _ (mmapClear_iff k a length prot req)
  | .load a addr => inferInstanceAs (Decidable (FaultFits k a addr))
  | .store a addr _ => inferInstanceAs (Decidable (FaultFits k a addr))
  | .create _ | .clone _ | .munmap _ _ _ | .write _ _ _ => .isTrue trivial

theorem good_dropRef (hk : Good k) (hplain : DropPlain k a) (h : dropRef k a = some k') : Good k' := by
  obtain ⟨s, hs, ⟨hr, -⟩ | ⟨-, rfl⟩⟩ := dropRef_cases h
  · exact (dropRef_last hk hs hr (hplain s hs hr) h).good
  · exact good_dropRef_more hk hs _

theorem dropPlain_loaded {k1 : Kernel} {c : ℕ} (h : Loaded k k1 c) (hs : k.space a = some s) (hd : DropPlain k a) :
    DropPlain k1 a := by
  intro t ht
  rw [h.kept hs] at ht
  exact hd t ht

/-- **Every operation that meets `StepOk` keeps a state good.** -/
theorem step_good (h : Shape k) (hk : Good k) (hok : StepOk k op) (hstep : step k op = some k') : Good k' := by
  cases step_cases h.areas hstep with
  | create hl hp => exact good_congr (good_loadImage hk h.live hl) rfl rfl (sameFrames_refl _) rfl rfl
  | fork hf hp => exact good_congr (good_forkCow hk h.live hok hf) rfl rfl (sameFrames_refl _) rfl rfl
  | clone hs hp => exact good_congr (good_dropRef_more hk hs _) rfl rfl (sameFrames_refl _) rfl rfl
  | execve hs hl hd => exact good_dropRef (good_loadImage hk h.live hl) (dropPlain_loaded (loadImage_spec hl) hs hok) hd
  | exit hd => exact good_congr (good_dropRef hk hok hd) rfl rfl (sameFrames_refl _) rfl rfl
  | mmap hm => exact good_sysMmap hk hok hm
  | munmap hm => exact good_munmap hk hm
  | munmapRefused | writeFailed => exact hk
  | load haddr ha | storeKilled haddr ha => exact good_access hk haddr hok ha
  | store haddr ha hs => exact good_congr (good_access hk haddr hok ha) rfl rfl (sameFrames_refl _) rfl rfl
  | write hlen hw =>
    obtain rfl := vnodeWrite_eq hw
    exact good_congr hk rfl rfl (sameFrames_refl _) rfl rfl

theorem good_new (answers : List Pfn) (vnodes : ℕ → VNode) : Good (Kernel.new answers vnodes) where
  sound := fun f => by
    have hacc : (Kernel.new answers vnodes).account f = Account.zero := by
      have hca : cached (Kernel.new answers vnodes).cache f = false := by
        by_contra hn
        obtain ⟨key, e, he, -⟩ := (cached_iff _ _).1 (by simpa using hn)
        cases he
      have hent : (Kernel.new answers vnodes).cow.find f = none := Table.find_empty f
      simp only [Kernel.account, Kernel.kept, hca]
      rfl
    rw [hacc]
    exact Account.ok_zero
  leaf := by
    refine ⟨fun a s hs => ?_, fun a s p l hs => ?_, fun a s p l b t q m hs => ?_, fun a s p l key e hs => ?_,
      fun key key' e e' he => ?_⟩
    cases hs
    cases hs
    cases hs
    cases hs
    · cases he
  live := Nat.zero_le _
  noBad := rfl

/-- **Every run within `StepOk` stays good.** -/
theorem run_good {answers : List Pfn} {vnodes : ℕ → VNode} {ops : List Op}
    (hok : Meets step StepOk (Kernel.new answers vnodes) ops) (h : run (Kernel.new answers vnodes) ops = some k) :
    Shape k ∧ Good k :=
  run_inv (fun k => Shape k ∧ Good k) (fun _ _ _ hI hC hs => ⟨step_shape hI.1 hs, step_good hI.1 hI.2 hC hs⟩)
    ⟨shape_new answers vnodes, good_new answers vnodes⟩ hok h

theorem freedOk_dropRef (hk : Good k) (hplain : DropPlain k a) (h : dropRef k a = some k') :
    FreedOk k.frames k'.frames := by
  obtain ⟨s, hs, ⟨hr, -⟩ | ⟨-, rfl⟩⟩ := dropRef_cases h
  · exact (dropRef_last hk hs hr (hplain s hs hr) h).frees.freed
  · exact freedOk_of_eq rfl

/-- **What an operation frees is free afterwards.** -/
theorem step_frees (h : Shape k) (hk : Good k) (hok : StepOk k op) (hstep : step k op = some k') :
    FreedOk k.frames k'.frames := by
  cases step_cases h.areas hstep with
  | create hl hp => exact freedOk_of_eq (loadImage_spec hl).freed
  | fork hf hp =>
    obtain ⟨s0, -, hfk⟩ := forkCow_spec hf
    exact freedOk_of_eq hfk.freed
  | clone hs hp | munmapRefused | writeFailed => exact freedOk_of_eq rfl
  | execve hs hl hd =>
    have hld := loadImage_spec hl
    have := freedOk_dropRef (good_loadImage hk h.live hl) (dropPlain_loaded hld hs hok) hd
    rw [FreedOk, hld.freed] at this
    exact this
  | exit hd =>
    have hfree := freedOk_dropRef hk hok hd
    exact hfree
  | @mmap a length prot req _ r hm =>
    obtain ⟨s, hs, ⟨-, rfl⟩ | ⟨-, v, rfl⟩ | ⟨len, m, -, -, -, rfl⟩⟩ := sysMmap_cases hm
    · exact freedOk_of_eq rfl
    · exact freedOk_of_eq rfl
    · refine freedOk_of_eq ?_
      change (afterIncRef k req).frames.freed = _
      rw [afterIncRef_eq]
  | munmap hm =>
    obtain ⟨s, hs, rfl | ⟨slot, vma, hmm⟩⟩ := munmap_spec h.areas hm
    · exact freedOk_of_eq rfl
    · exact hmm.frees.freed
  | load haddr ha | storeKilled haddr ha | store haddr ha hs => exact (access_frame ha).2.2.2.2.2
  | write hlen hw =>
    obtain rfl := vnodeWrite_eq hw
    exact freedOk_of_eq rfl

/-! ## A small system -/

/-- an executable without segments: a stack and the trampoline -/
def bareImage : Image := ⟨[], fun _ => 0, fun _ => zeroPage⟩

/-- the frames `first`, `first + stride`, ... -/
def framesFrom (first stride n : ℕ) : List Pfn := (List.range n).map fun i => BitVec.ofNat 36 (first + i * stride)

/-- every vnode is an empty regular file -/
def emptyFiles : ℕ → VNode := fun _ => ⟨.regular, 0, [], 1, 0⟩

/-- a kernel with frames 1, 2, ..., 100 free and empty files -/
def smallKernel : Kernel := Kernel.new (framesFrom 1 1 100) emptyFiles

end Rumicos.Proc
