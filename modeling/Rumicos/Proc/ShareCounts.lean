/-
COW_TABLE's counts over whole runs without MAP_SHARED mappings.

`cow_share` drops a claim when the bucket of an untracked frame is full, and `get_or_fill` hands out a frame that the
cache does not list when the cache bucket is full. In both cases a frame has more claims than COW_TABLE knows.
-/
import Rumicos.Proc.Runs

namespace Rumicos.Proc

open Paging Memory Lib Fs List Option AddressSpace

/-! ## Counting entries -/

/-- the present COW entries that map `f`, in all address spaces -/
def cowLeaves (k : Kernel) (f : Pfn) : ℕ :=
  k.total fun s => (Slot.leaves (some s.pml4)).countP fun x => x.2.isCow && decide (x.2.frame = f)

/-- the present entries that map `f`, in all address spaces -/
def leavesOn (k : Kernel) (f : Pfn) : ℕ :=
  k.total fun s => (Slot.leaves (some s.pml4)).countP fun x => decide (x.2.frame = f)

theorem cowLeaves_eq (k : Kernel) (f : Pfn) : cowLeaves k f = k.users .cow f := by
  unfold cowLeaves Kernel.users
  congr 1
  funext s
  refine countP_congr fun x _ => ?_
  cases hc : x.2.isCow
  · cases hin : s.inShared x.1
    · simp [uses, kindOf_own hc hin]
    · simp [uses, kindOf_shr hc hin]
  · simp [uses, kindOf_cow hc]

theorem total_add (k : Kernel) (g h : AddressSpace → ℕ) : (k.total fun s => g s + h s) = k.total g + k.total h := by
  unfold Kernel.total
  rw [← sum_map_add]
  congr 1
  apply map_congr_left
  intro o _
  rcases o with _ | s <;> rfl

theorem leavesOn_account (k : Kernel) (f : Pfn) :
    leavesOn k f = (k.account f).own + (k.account f).cow + (k.account f).shr := by
  have hs : ∀ s : AddressSpace, (Slot.leaves (some s.pml4)).countP (fun x => decide (x.2.frame = f)) =
      s.users .own f + s.users .cow f + s.users .shr f := by
    intro s
    simp only [users]
    induction Slot.leaves (some s.pml4) with
    | nil => rfl
    | cons x xs ih =>
      simp only [countP_cons, ih, uses, Bool.and_eq_true]
      by_cases hf : x.2.frame = f
      · cases hk : s.kindOf x.1 x.2 <;> simp [hf] <;> omega
      · simp [hf]
  unfold leavesOn
  simp only [hs]
  rw [total_add, total_add]
  rfl

/-! ## Runs without MAP_SHARED mappings and with room in both tables -/

/-- the page that a not-present fault on a file area asks the page cache for -/
def faultPage (k : Kernel) (a addr : ℕ) : Option (ℕ × ℕ) := do
  let s ← k.space a
  match s.leaf (pageOf addr) with
  | some _ => none
  | none =>
    match findVma s.vmas (addr / pageSize * pageSize) with
    | some vma =>
      match vma.backing with
      | .file v fo _ => some (v, fileOff vma fo addr)
      | .anonymous => none
    | none => none

/-- the page cache lists the page of a not-present fault or has room for it -/
def CacheFits (k : Kernel) (a addr : ℕ) : Prop :=
  (faultPage k a addr).all (fun key => (k.cache.find key).isSome || k.cache.hasRoom key) = true

/-- no MAP_SHARED mapping, and room for every frame that has to be tracked or cached -/
def CountsOk (k : Kernel) : Op → Prop
  | .fork a => Fits k.cow (forkFrames k a)
  | .mmap _ _ _ req => req.isShared = false
  | .load a addr => FaultFits k a addr ∧ CacheFits k a addr
  | .store a addr _ => FaultFits k a addr ∧ CacheFits k a addr
  | _ => True

instance (k : Kernel) (a addr : ℕ) : Decidable (CacheFits k a addr) := by unfold CacheFits; infer_instance

instance (k : Kernel) (op : Op) : Decidable (CountsOk k op) := by
  induction op using Op.casesOn <;> unfold CountsOk <;> infer_instance

/-- no area is MAP_SHARED -/
def NoShared (k : Kernel) : Prop := ∀ c, some c ∈ k.cores → ∀ v, some v ∈ c.vmas → v.isShared = false

variable {k k' : Kernel} {a addr : ℕ} {s : AddressSpace} {op : Op} {r : Option Pfn}

theorem NoShared.area (h : NoShared k) (hs : k.space a = some s) (v : Vma) (hv : some v ∈ s.vmas) : v.isShared = false :=
  AllAreas.area (P := fun v => v.isShared = false) h hs v hv

theorem NoShared.inShared (h : NoShared k) (hs : k.space a = some s) (p : UPage) : s.inShared p = false := by
  rw [AddressSpace.inShared]
  rcases hv : findVma s.vmas (pageAddr p) with _ | v
  · rfl
  · exact h.area hs v (findVma_mem hv).1

/-- **Without MAP_SHARED requests no MAP_SHARED area appears.** -/
theorem step_noShared (hk : Shape k) (h : NoShared k)
    (hop : ∀ a length prot req, op = .mmap a length prot req → req.isShared = false) (hstep : step k op = some k') :
    NoShared k' := by
  refine step_allAreas (P := fun v => v.isShared = false) hk h (fun a length prot req he start endAddr => ?_) hstep
  rw [isShared_backing]
  exact hop a length prot req he

/-! ## The page cache lists what it hands out -/

theorem getOrFill_orphans {st st' : Store} {v off : ℕ}
    (hroom : st.cache.find (v, off) = none → st.cache.hasRoom (v, off) = true) (h : getOrFill st v off = some (st', r)) :
    st'.orphans = st.orphans := by
  rcases getOrFill_cases h with ⟨e, -, rfl, -⟩ | ⟨_, _, -, -, -, -, rfl⟩ | ⟨_, _, _, hn, -, -, -, ⟨-, rfl⟩ | ⟨hfull, -⟩⟩
  · rfl
  · rfl
  · rfl
  · rw [hroom hn] at hfull
    cases hfull

theorem CacheFits.room {v fo : ℕ} {vma : Vma} {shared : Bool} (h : CacheFits k a addr) (hs : k.space a = some s)
    (hn : s.leaf (pageOf addr) = none) (hv : findVma s.vmas (addr / pageSize * pageSize) = some vma)
    (hb : vma.backing = .file v fo shared) (hnone : k.cache.find (v, fileOff vma fo addr) = none) :
    k.cache.hasRoom (v, fileOff vma fo addr) = true := by
  have hfp : faultPage k a addr = some (v, fileOff vma fo addr) := by simp [faultPage, hs, hn, hv, hb]
  rw [CacheFits, hfp] at h
  simpa [hnone] using h

theorem fileFault_orphans {b : Bool} (hs : k.space a = some s) (hn : s.leaf (pageOf addr) = none)
    (hfits : CacheFits k a addr) (h : FileFault k a addr s k' b) : k'.orphans = k.orphans := by
  cases h with
  | noArea hv => rfl
  | anon hv hb hm =>
    obtain ⟨f, frames, hf, hm⟩ := mapFresh_inv hm
    exact (mapPage_edited hm).orphans
  | failed hv hb hg => exact getOrFill_orphans (hfits.room hs hn hv hb) hg
  | priv hv hb hg hm | sharedRo hv hb hw hg hm =>
    exact (mapPage_edited hm).orphans.trans (getOrFill_orphans (hfits.room hs hn hv hb) hg)
  | sharedRw hv hb hw hg hm =>
    have hfill := getOrFill_orphans (hfits.room hs hn hv hb) hg
    exact (mapPage_edited hm).orphans.trans hfill

theorem cowFault_store {b : Bool} (hs : k.space a = some s) (h : CowFault k a addr s k' b) :
    k'.orphans = k.orphans ∧ k'.cache = k.cache := by
  cases h with
  | notCow _ => exact ⟨rfl, rfl⟩
  | reuse hl hc hsole hm | copy hl hc hsole hg hm =>
    have hed := setLeaf_edited hm hl hs
    exact ⟨hed.orphans, hed.cache⟩

theorem present_store {w : Bool} (h : Present k a addr w k' r) : k'.orphans = k.orphans ∧ k'.cache = k.cache := by
  cases h with
  | hit _ _ _ | kill _ _ _ _ => exact ⟨rfl, rfl⟩
  | cow hs _ _ hf _ _ _ => exact cowFault_store hs hf

theorem access_orphans {w : Bool} (hfits : CacheFits k a addr) (h : Access k a addr w k' r) : k'.orphans = k.orphans := by
  cases h with
  | present hp => exact (present_store hp).1
  | noPage hs hn hf => exact fileFault_orphans hs hn hfits hf
  | page hs hn hf hp => exact (present_store hp).1.trans (fileFault_orphans hs hn hfits hf)

/-- **An operation that finds room in the page cache hands out no unlisted frame.** -/
theorem step_orphans (hk : Shape k) (hfits : ∀ a addr w, op.target = some (a, addr, w) → CacheFits k a addr)
    (h : step k op = some k') : k'.orphans = k.orphans := by
  cases step_cases hk.areas h with
  | create hl hp => exact (loadImage_spec hl).orphans
  | fork hf hp =>
    obtain ⟨s0, -, hfk⟩ := forkCow_spec hf
    exact hfk.orphans
  | clone hs hp | munmapRefused | writeFailed => rfl
  | execve hs hl hd =>
    obtain ⟨s, -, ⟨-, own, -, rfl⟩ | ⟨-, rfl⟩⟩ := dropRef_cases hd <;> exact (loadImage_spec hl).orphans
  | exit hd => obtain ⟨s, -, ⟨-, own, -, rfl⟩ | ⟨-, rfl⟩⟩ := dropRef_cases hd <;> rfl
  | @mmap a length prot req _ r hm =>
    obtain ⟨s, hs, ⟨-, rfl⟩ | ⟨-, v, rfl⟩ | ⟨len, m, -, -, -, rfl⟩⟩ := sysMmap_cases hm
    · rfl
    · rfl
    · change (afterIncRef k req).orphans = _
      rw [afterIncRef_eq]
  | munmap hm =>
    obtain ⟨s, hs, rfl | ⟨slot, vma, hmm⟩⟩ := munmap_spec hk.areas hm
    · rfl
    · exact hmm.orphans
  | load haddr ha | storeKilled haddr ha => exact access_orphans (hfits _ _ _ rfl) ha
  | store haddr ha hs =>
    have := access_orphans (hfits _ _ _ rfl) ha
    exact this
  | write hlen hw =>
    rw [vnodeWrite_eq hw]

/-! ## The counts -/

/-- every state of a run within `CountsOk` -/
structure Counted (k : Kernel) : Prop where
  shape : Shape k
  good : Good k
  noShared : NoShared k
  listed : k.orphans = []

theorem stepOk_of_countsOk (h : NoShared k) (hok : CountsOk k op) : StepOk k op := by
  cases op with
  | fork a => exact hok
  | execve a img | exit a => exact fun s hs _ p l _ => h.inShared hs p
  | mmap a length prot req =>
    intro hsh
    rw [show req.isShared = false from hok] at hsh
    cases hsh
  | load a addr | store a addr b => exact hok.1
  | _ => trivial

theorem cacheFits_of_countsOk (hok : CountsOk k op) (a addr : ℕ) (w : Bool) (ht : op.target = some (a, addr, w)) :
    CacheFits k a addr := by
  cases op with
  | load b x | store b x y => cases ht; exact hok.2
  | _ => cases ht

theorem step_counted (h : Counted k) (hok : CountsOk k op) (hstep : step k op = some k') :
    Counted k' where
  shape := step_shape h.shape hstep
  good := step_good h.shape h.good (stepOk_of_countsOk h.noShared hok) hstep
  noShared := step_noShared h.shape h.noShared (fun _ _ _ _ he => by subst he; exact hok) hstep
  listed := (step_orphans h.shape (cacheFits_of_countsOk hok) hstep).trans h.listed

theorem run_counted {answers : List Pfn} {vnodes : ℕ → VNode} {ops : List Op}
    (hok : Meets step CountsOk (Kernel.new answers vnodes) ops) (h : run (Kernel.new answers vnodes) ops = some k) :
    Counted k :=
  run_inv Counted (fun _ _ _ hI hC hs => step_counted hI hC hs)
    ⟨shape_new _ _, good_new _ _, fun c hc => by simp [Kernel.cores, Kernel.new] at hc, rfl⟩ hok h

theorem Counted.kept (h : Counted k) (f : Pfn) : (k.account f).kept = cached k.cache f := by
  change (cached k.cache f || k.orphans.contains f) = _
  rw [h.listed]
  simp

theorem Counted.refcount (h : Counted k) {f : Pfn} (hf : 0 < cowLeaves k f) :
    cowRefcount k.cow f = cowLeaves k f + (cached k.cache f).toNat := by
  rw [cowLeaves_eq] at hf ⊢
  have he : k.cow.find f = _ := (h.good.sound f).entry
  have hcl : (k.account f).claims = k.users .cow f + (cached k.cache f).toNat := by
    have hc : (k.account f).cow ≠ 0 := Nat.ne_of_gt hf
    rw [Account.claims, if_neg hc, h.kept]
    rfl
  rw [hcl] at he
  rw [cowRefcount, he]
  split_ifs with h1
  · rw [getD_none]
    omega
  · rw [getD_some]

theorem Counted.sole (h : Counted k) {f : Pfn} (hf : 0 < cowLeaves k f) (hs : k.cow.find f = none) :
    leavesOn k f = 1 ∧ cached k.cache f = false := by
  rw [cowLeaves_eq] at hf
  obtain ⟨h1, h2, h3, -, h5⟩ := (h.good.sound f).sole hf hs
  rw [h.kept] at h5
  rw [leavesOn_account, h1, h2, h3]
  exact ⟨rfl, h5⟩

theorem cowLeaves_pos {p : UPage} {l : Leaf} (hs : k.space a = some s) (hl : s.leaf p = some l) (hc : l.isCow = true) :
    0 < cowLeaves k l.frame := by
  have := users_pos hs hl
  rw [kindOf_cow hc] at this
  rw [cowLeaves_eq]
  exact this

theorem Counted.free (h : Counted k) {f : Pfn} (hf : k.frames.allocated f = false) :
    leavesOn k f = 0 ∧ cached k.cache f = false := by
  obtain ⟨h1, h2, h3, -, h5⟩ := (h.good.sound f).unused hf
  rw [h.kept] at h5
  rw [leavesOn_account, h1, h2, h3]
  exact ⟨rfl, h5⟩

/-- **COW_TABLE's counts are exact** in every state of every run within `CountsOk`: a count is the number of COW entries
on the frame, plus one if the page cache has it; whoever is taken for the only owner is; and a freed frame has no user
left. -/
theorem cowRefcount_exact (answers : List Pfn) (vnodes : ℕ → VNode) (ops : List Op) (k : Kernel)
    (hok : Meets step CountsOk (Kernel.new answers vnodes) ops) (hrun : run (Kernel.new answers vnodes) ops = some k) :
    (∀ f, 0 < cowLeaves k f → cowRefcount k.cow f = cowLeaves k f + (cached k.cache f).toNat) ∧
    (∀ f, 0 < cowLeaves k f → (cowResolve k.cow f).2 = true → leavesOn k f = 1 ∧ cached k.cache f = false) ∧
    (∀ a addr k' s s' l l', resolveCowFault k a addr = some (k', true) → k.space a = some s →
      s.leaf (pageOf addr) = some l → k'.space a = some s' → s'.leaf (pageOf addr) = some l' → l'.frame = l.frame →
      leavesOn k l.frame = 1 ∧ cached k.cache l.frame = false) ∧
    (∀ op k', CountsOk k op → step k op = some k' → k'.frames.badFree = false ∧
      ∃ fs, k'.frames.freed = fs ++ k.frames.freed ∧ ∀ f ∈ fs, leavesOn k' f = 0 ∧ cached k'.cache f = false) := by
  have h := run_counted hok hrun
  refine ⟨fun f hf => h.refcount hf, fun f hf hs => h.sole hf (by simpa [cowResolve] using hs), ?_, ?_⟩
  · intro a addr k' s s' l l' hfault hs hl hs' hl' hfr
    obtain ⟨s0, hs0, hf⟩ := resolveCowFault_inv hfault
    cases hs.symm.trans hs0
    cases hf with
    | @reuse m _ hm hc hsole hset =>
      cases hl.symm.trans hm
      exact h.sole (cowLeaves_pos hs hl hc) hsole
    | @copy m g frames _ hm hc hsole hg hset =>
      -- the page is on the fresh frame now, which is not the old one
      cases hl.symm.trans hm
      obtain ⟨n, hn, hnf, -, -⟩ := leafOf_cowWritable l g
      obtain ⟨s1, s2, hs1, hs2, hed⟩ := (setLeaf_edited hset hl hs).space
      cases hs'.symm.trans hs2
      rw [hed.leaf, if_pos rfl, hn] at hl'
      cases hl'
      have hun := (h.good.sound g).unused (allocFrame_spec hg).1
      exact absurd (hfr.symm.trans hnf) (leaf_ne_of_unused hun hs hl)
  · intro op k' hop hstep
    have h' := step_counted h hop hstep
    refine ⟨h'.good.noBad, ?_⟩
    obtain ⟨fs, hfs, hun⟩ := step_frees h.shape h.good (stepOk_of_countsOk h.noShared hop) hstep
    exact ⟨fs, hfs, fun f hf => h'.free (hun f hf)⟩

/-- a process maps a file MAP_PRIVATE and reads it -/
def privateReadOps : List Op :=
  [.create bareImage, .mmap 0 4096 ⟨false, false⟩ (.file directMapBase 0 false false), .load 0 mmapBase]

/-- the same, and it forks -/
def privateForkOps : List Op := privateReadOps ++ [.fork 0]

/-- the page is on a frame with three claims: the parent's, the child's and the cache's -/
theorem cowRefcount_exact_forked :
    ∃ k s l, run smallKernel privateForkOps = some k ∧ k.space 1 = some s ∧ s.leaf (pageOf mmapBase) = some l ∧
      cowRefcount k.cow l.frame = cowLeaves k l.frame + (cached k.cache l.frame).toNat ∧
      cowRefcount k.cow l.frame = 3 := by
  -- one evaluation of the run decides all of this
  obtain ⟨hmeets, k, hk, s, hs, l, hl, hcow, hthree⟩ : Meets step CountsOk smallKernel privateForkOps ∧
      ∃ k, run smallKernel privateForkOps = some k ∧ ∃ s, k.space 1 = some s ∧
        ∃ l, s.leaf (pageOf mmapBase) = some l ∧ l.isCow = true ∧ cowRefcount k.cow l.frame = 3 := by decide +kernel
  refine ⟨k, s, l, hk, hs, hl, ?_, hthree⟩
  exact (cowRefcount_exact _ _ privateForkOps k hmeets hk).1 _ (cowLeaves_pos hs hl hcow)

theorem two_le_cowLeaves {b : ℕ} {t : AddressSpace} {p q : UPage} {l m : Leaf} (hab : a ≠ b) (hs : k.space a = some s)
    (ht : k.space b = some t) (hl : s.leaf p = some l) (hm : t.leaf q = some m) (hlc : l.isCow = true)
    (hmc : m.isCow = true) (hf : m.frame = l.frame) : 2 ≤ cowLeaves k l.frame := by
  have h1 := total_without hs fun s =>
    (Slot.leaves (some s.pml4)).countP fun x => x.2.isCow && decide (x.2.frame = l.frame)
  have ht' : (k.without a).space b = some t := by
    simp only [Kernel.without, Kernel.space, getElem?_set_ne hab]
    exact ht
  have h2 := cowLeaves_pos ht' hm hmc
  have h3 : 0 < (Slot.leaves (some s.pml4)).countP fun x => x.2.isCow && decide (x.2.frame = l.frame) :=
    countP_pos_iff.2 ⟨(p, l), (Slot.mem_leaves _ _ _).2 hl, by simp [hlc]⟩
  rw [hf] at h2
  unfold cowLeaves at h2 ⊢
  omega

/-- the top page of the stack -/
def stackPage : UPage := pageOf (ustackTop - pageSize)

/-- **A full bucket loses claims.** All 81 frames hash to bucket 0, and a fork has to track 65 of them: the frame of the
top stack page is mapped copy-on-write by parent and child, and `cow_resolve` takes either of them for its only owner. -/
theorem cowRefcount_overflow :
    ∃ k s l, run (Kernel.new (framesFrom 10946 10946 81) emptyFiles) [.create bareImage, .fork 0] = some k ∧
      k.space 0 = some s ∧ s.leaf stackPage = some l ∧ 2 ≤ cowLeaves k l.frame ∧ cowRefcount k.cow l.frame = 1 ∧
      (cowResolve k.cow l.frame).2 = true := by
  obtain ⟨k, hk, s, hs, l, hl, t, ht, m, hm, hlc, hmc, hf, hnone⟩ :
      ∃ k, run (Kernel.new (framesFrom 10946 10946 81) emptyFiles) [.create bareImage, .fork 0] = some k ∧
        ∃ s, k.space 0 = some s ∧
        ∃ l, s.leaf stackPage = some l ∧ ∃ t, k.space 1 = some t ∧ ∃ m, t.leaf stackPage = some m ∧
          l.isCow = true ∧ m.isCow = true ∧ m.frame = l.frame ∧ k.cow.find l.frame = none := by decide +kernel
  refine ⟨k, s, l, hk, hs, hl, two_le_cowLeaves Nat.zero_ne_one hs ht hl hm hlc hmc hf, ?_, ?_⟩
  · rw [cowRefcount, hnone, getD_none]
  · rw [cowResolve, hnone]
    rfl

end Rumicos.Proc
