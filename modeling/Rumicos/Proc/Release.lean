/-
Dropping the last reference to an address space, in every reachable state.

`free_table` decides by the COW bit alone whether a leaf's frame is freed: it never looks at the areas. A page of a
MAP_SHARED area has no COW bit, so its frame, which belongs to the page cache, is freed with the address space.

- `ReleaseOk`: `StepOk`, and room in the page cache (an unlisted frame that only a MAP_PRIVATE page uses is never freed).
-/
import Rumicos.Proc.ShareCounts

namespace Rumicos.Proc

open Paging Memory Lib Fs List Option

/-- what an operation must not do if teardown is to be exact -/
def ReleaseOk (k : Kernel) (op : Op) : Prop :=
  StepOk k op ∧ ∀ a addr w, op.target = some (a, addr, w) → CacheFits k a addr

/-- every state of a run within `ReleaseOk` -/
structure Released (k : Kernel) : Prop where
  shape : Shape k
  good : Good k
  listed : k.orphans = []

theorem step_released {k k' : Kernel} {op : Op} (h : Released k) (hok : ReleaseOk k op) (hstep : step k op = some k') :
    Released k' where
  shape := step_shape h.shape hstep
  good := step_good h.shape h.good hok.1 hstep
  listed := (step_orphans h.shape hok.2 hstep).trans h.listed

theorem run_released {k : Kernel} {answers : List Pfn} {vnodes : ℕ → VNode} {ops : List Op}
    (hok : Meets step ReleaseOk (Kernel.new answers vnodes) ops) (h : run (Kernel.new answers vnodes) ops = some k) :
    Released k :=
  run_inv Released (fun _ _ _ hI hC hs => step_released hI hC hs) ⟨shape_new _ _, good_new _ _, rfl⟩ hok h

/-! ## One teardown -/

section Drop

variable {k k' : Kernel} {a : ℕ} {s : AddressSpace}

theorem dropRef_returns (h : Shape k) (hs : k.space a = some s) : ∃ k', dropRef k a = some k' := by
  obtain ⟨-, -, hown⟩ := h.cores.core _ (mem_of_getElem? (mem_cores hs))
  obtain ⟨own, hown⟩ := isSome_iff_exists.1 hown
  have hown' : s.ownFrame = some own := hown
  by_cases hr : s.refcount = 1
  · simp only [dropRef, hs, bind_eq_bind, bind_some, if_pos hr, hown']
    exact ⟨_, rfl⟩
  · simp only [dropRef, hs, bind_eq_bind, bind_some, if_neg hr]
    exact ⟨_, rfl⟩

theorem total_dropped (h : Dropped k a s k') (hs : k.space a = some s) (g : AddressSpace → ℕ) :
    k'.total g + g s = k.total g := by
  have h1 := total_without hs g
  have h2 : k'.total g = (k.without a).total g := by
    simp [Kernel.total, Kernel.without, h.spaces]
  rw [h2]
  exact h1

theorem kept_dropped (h : Dropped k a s k') (g : Pfn) : k'.kept g = k.kept g := by
  rw [h.rest]
  rfl

theorem table_unused (hk : Sound k) (h : Dropped k a s k') (hs : k.space a = some s) {g : Pfn} (hg : g ∈ s.tables) :
    usage (k'.account g) = 0 := by
  have hpos : 0 < s.tables.count g := count_pos_iff.2 hg
  have htbl := total_dropped h hs fun s => s.tables.count g
  have hown := total_dropped h hs fun s => s.users .own g
  have hcow := total_dropped h hs fun s => s.users .cow g
  have hshr := total_dropped h hs fun s => s.users .shr g
  have honly : 0 < k.users .own g + k.tableUses g → k.users .own g + k.tableUses g = 1 ∧ k.users .cow g = 0 ∧
      k.users .shr g = 0 ∧ k.kept g = false := (hk g).exclusive
  change k'.users .own g + k'.users .cow g + k'.users .shr g + k'.tableUses g + (k'.kept g).toNat = 0
  unfold Kernel.users Kernel.tableUses at *
  obtain ⟨h1, h2, h3, h4⟩ := honly (by omega)
  rw [kept_dropped h, h4, Bool.toNat_false]
  omega

/-- a frame that neither an entry nor the cache refers to has no use, unless it is a table -/
theorem usage_eq (h : Dropped k a s k') (hl : k.orphans = []) (g : Pfn) :
    usage (k'.account g) = leavesOn k' g + k'.tableUses g + (cached k'.cache g).toNat := by
  have hkept : k'.kept g = cached k'.cache g := by
    have ho : k'.orphans = [] := by rw [h.rest]; exact hl
    simp [Kernel.kept, ho]
  rw [leavesOn_account, ← hkept]
  rfl

theorem tableUses_leaf (hk : Sound k) (h : Dropped k a s k') (hs : k.space a = some s) {p : UPage} {l : Leaf}
    (hl : s.leaf p = some l) : k'.tableUses l.frame = 0 := by
  have htbl := total_dropped h hs fun s => s.tables.count l.frame
  have honly : 0 < k.users .own l.frame + k.tableUses l.frame → k.users .own l.frame + k.tableUses l.frame = 1 ∧
      k.users .cow l.frame = 0 ∧ k.users .shr l.frame = 0 ∧ k.kept l.frame = false := (hk l.frame).exclusive
  have hpos := users_pos hs hl
  unfold Kernel.tableUses at *
  cases hkd : s.kindOf p l <;> rw [hkd] at hpos <;> omega

end Drop

/-- **Teardown is exact.** In every state of every run within `ReleaseOk`, dropping the last reference to an address
space without MAP_SHARED pages returns, frees each of its tables and each frame that nobody else refers to exactly once,
and frees nothing that an entry, a table or the page cache refers to. -/
theorem dropRef_exact (answers : List Pfn) (vnodes : ℕ → VNode) (ops : List Op) (k : Kernel) (a : ℕ)
    (s : AddressSpace) (hok : Meets step ReleaseOk (Kernel.new answers vnodes) ops)
    (hrun : run (Kernel.new answers vnodes) ops = some k) (hs : k.space a = some s) (hlast : s.refcount = 1)
    (hplain : ∀ p l, s.leaf p = some l → s.inShared p = false) :
    ∃ k' fs, dropRef k a = some k' ∧ k'.frames.freed = fs ++ k.frames.freed ∧ k'.frames.badFree = false ∧
      (∀ g, fs.count g ≤ 1) ∧ (∀ g ∈ s.tables, fs.count g = 1) ∧
      (∀ p l, s.leaf p = some l → leavesOn k' l.frame = 0 → cached k'.cache l.frame = false →
        fs.count l.frame = 1) ∧
      ∀ g, 0 < leavesOn k' g ∨ 0 < k'.tableUses g ∨ cached k'.cache g = true → fs.count g = 0 := by
  have hk := run_released hok hrun
  obtain ⟨k', hd⟩ := dropRef_returns hk.shape hs
  have h := dropRef_last hk.good hs hlast hplain hd
  obtain ⟨fs, hfs, hone, hzero⟩ := h.exact
  have husage := usage_eq h hk.listed
  refine ⟨k', fs, hd, hfs, h.good.noBad, fun g => ?_, fun g hg => ?_, fun p l hl hn hc => ?_, fun g hg => ?_⟩
  · by_cases hg : s.holds g ∧ usage (k'.account g) = 0
    · exact le_of_eq (hone g hg.1 hg.2)
    · rw [hzero g hg]
      exact Nat.zero_le 1
  · exact hone g (.inl hg) (table_unused hk.good.sound h hs hg)
  · refine hone _ (.inr ⟨p, l, hl, rfl⟩) ?_
    rw [husage, hn, hc, tableUses_leaf hk.good.sound h hs hl]
    rfl
  · refine hzero g fun hg' => ?_
    have h0 := hg'.2
    rw [husage] at h0
    rcases hg with hg | hg | hg
    · omega
    · omega
    · rw [hg, Bool.toNat_true] at h0
      omega

/-- a process that maps a file MAP_PRIVATE and reads it may be torn down: the frame stays with the page cache -/
theorem dropRef_exact_privateRead :
    ∃ k s l k' fs, run smallKernel privateReadOps = some k ∧ k.space 0 = some s ∧
      s.leaf (pageOf mmapBase) = some l ∧ dropRef k 0 = some k' ∧ k'.frames.freed = fs ++ k.frames.freed ∧
      fs.count l.frame = 0 ∧ ∀ g ∈ s.tables, fs.count g = 1 := by
  have hcounts : Meets step CountsOk smallKernel privateReadOps := by decide +kernel
  have hnil : Meets step CountsOk smallKernel [] := trivial
  have h0 : Counted smallKernel := run_counted hnil rfl
  have hmeets : Meets step ReleaseOk smallKernel privateReadOps :=
    hcounts.imp_inv Counted (fun _ _ _ hI hC hs => step_counted hI hC hs)
      (fun _ _ hI hC => ⟨stepOk_of_countsOk hI.noShared hC, cacheFits_of_countsOk hC⟩) h0
  obtain ⟨k, hk, s, hs, hone, l, hl, hcached⟩ : ∃ k, run smallKernel privateReadOps = some k ∧ ∃ s, k.space 0 = some s ∧
      s.refcount = 1 ∧ ∃ l, s.leaf (pageOf mmapBase) = some l ∧ cached k.cache l.frame = true := by decide +kernel
  have hns := (run_counted hcounts hk).noShared
  obtain ⟨k', fs, hd, hfs, -, -, htbl, -, hzero⟩ :=
    dropRef_exact _ _ privateReadOps k 0 s hmeets hk hs hone fun p l _ => hns.inShared hs p
  have hcache : k'.cache = k.cache := by
    obtain ⟨_, -, ⟨-, _, -, rfl⟩ | ⟨-, rfl⟩⟩ := dropRef_cases hd <;> rfl
  exact ⟨k, s, l, k', fs, hk, hs, hl, hd, hfs, hzero _ (.inr (.inr (by rw [hcache]; exact hcached))), htbl⟩

/-- a process maps a file MAP_SHARED and reads it -/
def sharedReadOps : List Op :=
  [.create bareImage, .mmap 0 4096 ⟨false, false⟩ (.file directMapBase 0 true false), .load 0 mmapBase]

/-- **Teardown frees a frame of the page cache**: the process of `sharedReadOps` is torn down, and the cache still lists
the frame of its MAP_SHARED page, which is free now. -/
theorem dropRef_frees_cached :
    ∃ k s l k', run smallKernel sharedReadOps = some k ∧ k.space 0 = some s ∧ s.refcount = 1 ∧
      s.leaf (pageOf mmapBase) = some l ∧ dropRef k 0 = some k' ∧ cached k'.cache l.frame = true ∧
      l.frame ∈ k'.frames.freed ∧ k'.frames.allocated l.frame = false := by
  obtain ⟨k, hk, s, hs, hone, l, hl, k', hd, hcheck⟩ : ∃ k, run smallKernel sharedReadOps = some k ∧
    ∃ s, k.space 0 = some s ∧
      s.refcount = 1 ∧ ∃ l, s.leaf (pageOf mmapBase) = some l ∧ ∃ k', dropRef k 0 = some k' ∧
        cached k'.cache l.frame = true ∧
        l.frame ∈ k'.frames.freed ∧ k'.frames.allocated l.frame = false := by decide +kernel
  exact ⟨k, s, l, k', hk, hs, hone, hl, hd, hcheck⟩

end Rumicos.Proc
