/-
The account of every frame: who uses it according to the page tables, the page cache and the allocator, beside what
`COW_TABLE` says. This is where `Lib.Account` meets the kernel state.

A present leaf is an exclusive user of its frame, a copy-on-write user (COW bit), or a borrower of a page-cache frame
(inside a MAP_SHARED area). Page-table pages and the frames of the address spaces themselves are structural uses. The
page cache is the keeper of the frames it has handed out, entered or not (`orphans`).

- `Kernel.account`: the account of a frame, by counting.
- `Sound k`: every frame's account is right.
- `Held k g`: the frame g is allocated and nobody uses it yet.
-/
import Rumicos.Lib.Account
import Rumicos.Proc.AddressSpace

namespace Rumicos.Proc

open Paging Memory Lib Fs Function List Option AddressSpace Slot

/-! ## Counting users -/

/-- how a leaf uses its frame -/
inductive Kind where
  | own
  | cow
  | shr
deriving DecidableEq, Repr

def AddressSpace.kindOf (s : AddressSpace) (p : UPage) (l : Leaf) : Kind :=
  if l.isCow then .cow else if s.inShared p then .shr else .own

/-- is this leaf a user of kind `kd` of frame `f`? -/
def AddressSpace.uses (s : AddressSpace) (kd : Kind) (f : Pfn) (x : UPage × Leaf) : Bool :=
  decide (s.kindOf x.1 x.2 = kd) && decide (x.2.frame = f)

/-- the leaves of `s` that are users of kind `kd` of `f` -/
def AddressSpace.users (s : AddressSpace) (kd : Kind) (f : Pfn) : ℕ :=
  (Slot.leaves (some s.pml4)).countP (s.uses kd f)

/-- the frames `s` itself is made of: its page tables, and its own frame -/
def AddressSpace.tables (s : AddressSpace) : List Pfn := Slot.labels (some s.pml4) ++ s.ownFrame.toList

/-- a sum over the live address spaces -/
def Kernel.total (k : Kernel) (g : AddressSpace → ℕ) : ℕ := (k.spaces.map fun o => o.elim 0 g).sum

def Kernel.users (k : Kernel) (kd : Kind) (f : Pfn) : ℕ := k.total fun s => s.users kd f

def Kernel.tableUses (k : Kernel) (f : Pfn) : ℕ := k.total fun s => s.tables.count f

/-- has the page cache handed out this frame? -/
def Kernel.kept (k : Kernel) (f : Pfn) : Bool := cached k.cache f || k.orphans.contains f

def Kernel.account (k : Kernel) (f : Pfn) : Account where
  own := k.users .own f
  cow := k.users .cow f
  shr := k.users .shr f
  tbl := k.tableUses f
  kept := k.kept f
  alloc := k.frames.allocated f
  entry := k.cow.find f

/-- every frame's account is right -/
def Sound (k : Kernel) : Prop := ∀ f, (k.account f).Ok

/-- allocated, and nobody uses it yet -/
def Held (k : Kernel) (g : Pfn) : Prop := (k.account g).Unused ∧ (k.account g).alloc = true

/-! ## Sums over address spaces -/

theorem sum_map_set {α : Type} (l : List α) (i : ℕ) (x y : α) (h : α → ℕ) (hi : l[i]? = some x) :
    ((l.set i y).map h).sum + h x = (l.map h).sum + h y := by
  induction l generalizing i with
  | nil => simp at hi
  | cons z l ih =>
    cases i with
    | zero =>
      simp only [getElem?_cons_zero, some.injEq] at hi
      subst hi
      simp only [set_cons_zero, map_cons, sum_cons]
      omega
    | succ i =>
      have := ih i (by simpa using hi)
      simp only [set_cons_succ, map_cons, sum_cons]
      omega

variable {k k' : Kernel} {a : ℕ} {s : AddressSpace} {p : UPage}

section

variable (h : k.space a = some s)
include h

theorem space_eq_some : k.spaces[a]? = some (some s) := join_eq_some_iff.1 h

theorem space_lt : a < k.spaces.length :=
  (List.getElem?_eq_some_iff.1 (space_eq_some h)).1

theorem total_setSpace (s' : AddressSpace) (g : AddressSpace → ℕ) :
    (k.setSpace a s').total g + g s = k.total g + g s' :=
  sum_map_set k.spaces a (some s) (some s') (fun o => o.elim 0 g) (space_eq_some h)

theorem le_total (g : AddressSpace → ℕ) : g s ≤ k.total g :=
  single_le_sum (by simp) _ (mem_map.2 ⟨some s, mem_of_getElem? (space_eq_some h), rfl⟩)

theorem space_setSpace_self (s' : AddressSpace) : (k.setSpace a s').space a = some s' := by
  simp [Kernel.space, Kernel.setSpace, getElem?_set_self (space_lt h)]

end

theorem space_setSpace_ne (k : Kernel) {b : ℕ} (h : b ≠ a) (s' : AddressSpace) :
    (k.setSpace a s').space b = k.space b := by
  simp [Kernel.space, Kernel.setSpace, getElem?_set_ne (Ne.symm h)]

/-! ## The two page-table edits -/

theorem ensureTables_spec (h : ensureTables k a p = some k') :
    ∃ s fs pml4 frames, k.space a = some s ∧ Slot.Allocs allocFrame k.frames fs frames ∧
      k' = { k with frames := frames }.setSpace a { s with pml4 := pml4 } ∧
      (Slot.labels (some pml4)).Perm (fs ++ Slot.labels (some s.pml4)) ∧
      (Slot.leaves (some pml4)).Perm (Slot.leaves (some s.pml4)) ∧
      (∀ q, Slot.lookup (some pml4) q = Slot.lookup (some s.pml4) q) ∧ Slot.hasPath (some pml4) p = true := by
  simp only [ensureTables, bind_eq_bind, bind_eq_some_iff, Option.pure_def, some.injEq] at h
  obtain ⟨s, hs, ⟨slot, frames⟩, he, pml4, hp, rfl⟩ := h
  subst hp
  obtain ⟨fs, hfs, hl⟩ := ensure_allocs he
  exact ⟨s, fs, pml4, frames, hs, hfs, rfl, hl, leaves_ensure_perm he, lookup_ensure he,
    hasPath_ensure he⟩

theorem setLeaf_spec {x : Option Leaf} {o : Option Origin} (h : setLeaf k a p x o = some k') :
    ∃ s pml4, k.space a = some s ∧ Slot.write (some s.pml4) p x = some pml4 ∧
      k' = k.setSpace a { s with pml4 := pml4, origin := update s.origin p o } := by
  simp only [setLeaf, bind_eq_bind, bind_eq_some_iff, Option.pure_def, some.injEq] at h
  obtain ⟨s, hs, pml4, hp, rfl⟩ := h
  exact ⟨s, pml4, hs, hp, rfl⟩

theorem hasPath_of_leaf {l : Leaf} (h : s.leaf p = some l) : Slot.hasPath (some s.pml4) p = true := by
  by_contra hn
  have := lookup_eq_none_of_not_hasPath (some s.pml4) p (by simpa using hn)
  rw [leaf, this] at h
  cases h

/-! ## Accounts -/

/-- the kind of user an optional leaf of page `p` is of frame `f` -/
def AddressSpace.kindAt (s : AddressSpace) (p : UPage) (x : Option Leaf) (f : Pfn) : Option Kind :=
  x.bind fun l => if l.frame = f then some (s.kindOf p l) else none

/-- an account in which one user of kind `old` is replaced by one of kind `new` -/
def adjust (A : Account) (old new : Option Kind) : Account :=
  { A with
    own := A.own + (decide (new = some .own)).toNat - (decide (old = some .own)).toNat
    cow := A.cow + (decide (new = some .cow)).toNat - (decide (old = some .cow)).toNat
    shr := A.shr + (decide (new = some .shr)).toNat - (decide (old = some .shr)).toNat }

@[simp] theorem adjust_self (A : Account) (x : Option Kind) : adjust A x x = A := by
  simp [adjust]

theorem adjust_own_none (A : Account) : adjust A (some .own) none = { A with own := A.own - 1 } := by simp [adjust]

theorem adjust_cow_none (A : Account) : adjust A (some .cow) none = { A with cow := A.cow - 1 } := by simp [adjust]

theorem uses_eq_kindAt (s : AddressSpace) (kd : Kind) (f : Pfn) (p : UPage) (x : Option Leaf) :
    (x.any fun l => s.uses kd f (p, l)) = decide (s.kindAt p x f = some kd) := by
  rcases x with _ | l
  · simp [kindAt]
  · by_cases hf : l.frame = f <;> simp [kindAt, uses, hf]

theorem kindAt_none (s : AddressSpace) (p : UPage) (f : Pfn) : s.kindAt p none f = none := rfl

theorem kindAt_some_self (s : AddressSpace) (p : UPage) (l : Leaf) :
    s.kindAt p (some l) l.frame = some (s.kindOf p l) := by
  simp [kindAt]

theorem kindAt_some_ne (s : AddressSpace) (p : UPage) (l : Leaf) (f : Pfn) (h : l.frame ≠ f) :
    s.kindAt p (some l) f = none := by
  simp [kindAt, h]

/-- **Accounts across a leaf edit.** Only the frames of the old and the new leaf are affected. -/
theorem account_setLeaf {x : Option Leaf} {o : Option Origin} (hs : k.space a = some s) (h : setLeaf k a p x o = some k')
    (hp : Slot.hasPath (some s.pml4) p = true) (f : Pfn) :
    k'.account f = adjust (k.account f) (s.kindAt p (s.leaf p) f) (s.kindAt p x f) := by
  obtain ⟨s1, pml4, hs1, hw, rfl⟩ := setLeaf_spec h
  rw [hs] at hs1
  cases hs1
  have husers : ∀ kd, (k.setSpace a { s with pml4 := pml4, origin := update s.origin p o }).users kd f +
      (decide (s.kindAt p (s.leaf p) f = some kd)).toNat =
        k.users kd f + (decide (s.kindAt p x f = some kd)).toNat := by
    intro kd
    have htot := total_setSpace hs { s with pml4 := pml4, origin := update s.origin p o }
      fun s => s.users kd f
    have hcount := countP_leaves_write (some s.pml4) p x (s.uses kd f) hp
    rw [hw, uses_eq_kindAt, ← leaf, uses_eq_kindAt] at hcount
    have h1 : ({ s with pml4 := pml4, origin := update s.origin p o } : AddressSpace).users kd f =
        (leaves (some pml4)).countP (s.uses kd f) := rfl
    rw [h1] at htot
    simp only [Kernel.users, users] at htot ⊢
    omega
  have htbl : (k.setSpace a { s with pml4 := pml4, origin := update s.origin p o }).tableUses f =
      k.tableUses f := by
    have htot := total_setSpace hs { s with pml4 := pml4, origin := update s.origin p o }
      fun s => s.tables.count f
    have hl := labels_write (some s.pml4) p x
    rw [hw] at hl
    have h1 : ({ s with pml4 := pml4, origin := update s.origin p o } : AddressSpace).tables = s.tables := by
      simp [tables, hl]
    rw [h1] at htot
    simp only [Kernel.tableUses]
    omega
  have ho := husers .own
  have hc := husers .cow
  have hsh := husers .shr
  ext1
  · simp only [Kernel.account, adjust]; omega
  · simp only [Kernel.account, adjust]; omega
  · simp only [Kernel.account, adjust]; omega
  · exact htbl
  · rfl
  · rfl
  · rfl

/-- an allocation of frame `f`, in any state that differs in nothing an account reads -/
theorem account_alloc {j : Kernel} {f : Pfn} {frames : Frames} (h : allocFrame k.frames = some (f, frames))
    (hsp : j.spaces = k.spaces) (hca : j.cache = k.cache) (hor : j.orphans = k.orphans) (hco : j.cow = k.cow)
    (hfr : j.frames = frames) (g : Pfn) : j.account g = if g = f then { k.account g with alloc := true }
    else k.account g := by
  obtain ⟨-, ha, -, -, -⟩ := allocFrame_spec h
  have hu : ∀ kd, j.users kd g = k.users kd g := fun kd => by simp [Kernel.users, Kernel.total, hsp]
  have ht : j.tableUses g = k.tableUses g := by simp [Kernel.tableUses, Kernel.total, hsp]
  have hk : j.kept g = k.kept g := by simp [Kernel.kept, hca, hor]
  simp only [Kernel.account, hu, ht, hk, hco, hfr, ha]
  by_cases hg : g = f
  · subst hg; simp
  · simp [hg]

theorem sound_alloc {j : Kernel} {f : Pfn} {frames : Frames} (h : allocFrame k.frames = some (f, frames))
    (hsp : j.spaces = k.spaces) (hca : j.cache = k.cache) (hor : j.orphans = k.orphans) (hco : j.cow = k.cow)
    (hfr : j.frames = frames) (hk : Sound k) : Sound j ∧ Held j f ∧ ∀ g, Held k g → Held j g ∧ g ≠ f := by
  have hacc := account_alloc h hsp hca hor hco hfr
  obtain ⟨hfree, -⟩ := allocFrame_spec h
  refine ⟨fun g => ?_, ?_, fun g hg => ?_⟩
  · rw [hacc g]
    split_ifs with hgf
    · exact Account.ok_alloc (hk g)
    · exact hk g
  · have hun := (hk f).unused hfree
    rw [Held, hacc f, if_pos rfl]
    exact ⟨hun, rfl⟩
  · have hne : g ≠ f := fun he => by
      subst he
      have hal : k.frames.allocated g = true := hg.2
      rw [hfree] at hal
      cases hal
    rw [Held, hacc g, if_neg hne]
    exact ⟨hg, hne⟩

/-- a run of allocations for page tables, on any family of accounts that agrees with the allocator -/
theorem ok_allocs {fr fr' : Frames} {fs : List Pfn} (h : Slot.Allocs allocFrame fr fs fr') (A : Pfn → Account)
    (hA : ∀ g, (A g).alloc = fr.allocated g) (hok : ∀ g, (A g).Ok) :
    (∀ g, Account.Ok { A g with tbl := (A g).tbl + fs.count g, alloc := fr'.allocated g }) ∧
      ∀ g, fr.allocated g = true → fs.count g = 0 ∧ fr'.allocated g = true := by
  induction h generalizing A with
  | nil st =>
    refine ⟨fun g => ?_, fun g hg => ⟨rfl, hg⟩⟩
    rw [← hA g]; exact hok g
  | @cons st st1 st2 f fs hf _ ih =>
    obtain ⟨hfree, hal, -, -, -⟩ := allocFrame_spec hf
    -- the new table page: unused before, a structural use now
    let B : Pfn → Account := fun g => if g = f then { A g with tbl := (A g).tbl + 1, alloc := true } else A g
    have hB : ∀ g, (B g).alloc = st1.allocated g := fun g => by
      by_cases hg : g = f
      · subst hg; simp [B, hal]
      · simp [B, hg, hal, hA g]
    have hBok : ∀ g, (B g).Ok := fun g => by
      by_cases hg : g = f
      · have hun := (hok g).unused (by rw [hA g, hg]; exact hfree)
        simp only [B, if_pos hg]
        exact Account.ok_addTbl (Account.ok_alloc (hok g)) hun rfl
      · simp only [B, if_neg hg]; exact hok g
    obtain ⟨h1, h2⟩ := ih B hB hBok
    refine ⟨fun g => ?_, fun g hg => ?_⟩
    · have := h1 g
      by_cases hg : g = f
      · subst hg
        simp only [B, if_true, count_cons_self] at this ⊢
        convert this using 2
        omega
      · simpa [B, hg, count_cons_of_ne (Ne.symm hg)] using this
    · have hne : g ≠ f := fun he => by rw [he, hfree] at hg; cases hg
      have := h2 g (by rw [hal, update_of_ne hne]; exact hg)
      rw [count_cons_of_ne (Ne.symm hne)]
      exact this

theorem account_ensureTables (h : ensureTables k a p = some k') :
    ∃ fs, Slot.Allocs allocFrame k.frames fs k'.frames ∧ ∀ g, k'.account g =
      { k.account g with tbl := (k.account g).tbl + fs.count g, alloc := k'.frames.allocated g } := by
  obtain ⟨s, fs, pml4, frames, hs, hfs, rfl, hl, hlv, -, -⟩ := ensureTables_spec h
  refine ⟨fs, hfs, fun g => ?_⟩
  have hs' : ({ k with frames := frames } : Kernel).space a = some s := hs
  have husers : ∀ kd, (({ k with frames := frames } : Kernel).setSpace a { s with pml4 := pml4 }).users kd g =
      k.users kd g := fun kd => by
    have htot := total_setSpace hs' { s with pml4 := pml4 } fun s => s.users kd g
    have h1 : ({ s with pml4 := pml4 } : AddressSpace).users kd g = s.users kd g := hlv.countP_eq _
    rw [h1] at htot
    exact Nat.add_right_cancel htot
  have htbl : (({ k with frames := frames } : Kernel).setSpace a { s with pml4 := pml4 }).tableUses g =
      k.tableUses g + fs.count g := by
    have htot := total_setSpace hs' { s with pml4 := pml4 } fun s => s.tables.count g
    have h1 : ({ s with pml4 := pml4 } : AddressSpace).tables.count g = fs.count g + s.tables.count g := by
      simp only [tables, count_append, hl.count_eq]
      omega
    have h2 : ({ k with frames := frames } : Kernel).total (fun s => s.tables.count g) = k.tableUses g := rfl
    rw [h2] at htot
    simp only [Kernel.tableUses] at htot ⊢
    omega
  ext1
  · exact husers .own
  · exact husers .cow
  · exact husers .shr
  · exact htbl
  · rfl
  · rfl
  · rfl

end Rumicos.Proc
