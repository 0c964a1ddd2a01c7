/-
Dropping an address space (`drop_ref`, `free_user_half`, `free_table`).

The walk consumes every leaf and then every table page, the PML4 last, and then the address space's own frame. What is
still to come is charged to the accounts of the other address spaces, so that every account stays right at every point
of the walk.

- `Tearing`: where the walk stands: right accounts, no bad free, each frame freed at most once (`balance`), and a frame
  the walk has met stays allocated only while somebody uses it (`noLeak`). `tearing_step`, `tearing_run`.
- `Dropped`, `dropRef_last`: dropping the last reference of an address space without pages in MAP_SHARED areas frees each
  of its table pages, and each frame of its pages that nobody else uses, exactly once, and nothing else.
-/
import Rumicos.Proc.Unmap

namespace Rumicos.Proc

open Paging Memory Lib Fs List Option AddressSpace

/-! ## The walk -/

/-- is this leaf a claim of kind `kd` on frame `g`? -/
def Leaf.claims (kd : Kind) (g : Pfn) (l : Leaf) : Bool := decide (l.claim = kd) && decide (l.frame = g)

/-- leaves to be released -/
def leavesIn (es : List (Leaf ⊕ Pfn)) : List Leaf := es.filterMap Sum.getLeft?

/-- structural frames to be freed -/
def framesIn (es : List (Leaf ⊕ Pfn)) : List Pfn := es.filterMap Sum.getRight?

/-- the account of `g` with the events `es` still to come, over the account `B g` of everybody else -/
def pending (B : Pfn → Account) (es : List (Leaf ⊕ Pfn)) (st : Frames × CowTable) (g : Pfn) : Account :=
  { B g with
    own := (B g).own + (leavesIn es).countP (Leaf.claims .own g)
    cow := (B g).cow + (leavesIn es).countP (Leaf.claims .cow g)
    tbl := (B g).tbl + (framesIn es).count g
    alloc := st.1.allocated g
    entry := st.2.find g }

/-- one event of the walk -/
def consume (st : Frames × CowTable) (e : Leaf ⊕ Pfn) : Frames × CowTable :=
  e.elim (releaseLeaf st) fun f => (freeFrame st.1 f, st.2)

/-- does the event concern frame `g`? -/
def touches (g : Pfn) (e : Leaf ⊕ Pfn) : Prop := e.elim (fun l => l.frame = g) fun f => f = g

structure Tearing (B : Pfn → Account) (fr0 : Frames) (es0 es : List (Leaf ⊕ Pfn)) (st : Frames × CowTable) : Prop where
  ok : ∀ g, (pending B es st g).Ok
  noBad : st.1.badFree = false
  frees : Frees fr0 st.1
  balance : ∃ fs, st.1.freed = fs ++ fr0.freed ∧ ∀ g, fs.count g + (st.1.allocated g).toNat = (fr0.allocated g).toNat
  others : ∀ g, (∀ e ∈ es0, ¬ touches g e) → st.1.allocated g = fr0.allocated g
  noLeak : ∀ g, (∃ e ∈ es0, touches g e) → st.1.allocated g = true → 0 < usage (pending B es st g)

theorem claim_cases (l : Leaf) : l.claim = .own ∨ l.claim = .cow := by
  unfold Leaf.claim
  split_ifs
  · exact .inr rfl
  · exact .inl rfl

theorem pending_leaf (B : Pfn → Account) (l : Leaf) (es : List (Leaf ⊕ Pfn)) (st st' : Frames × CowTable) (g : Pfn) :
    pending B es st' g = { if g = l.frame then adjust (pending B (.inl l :: es) st g) (some l.claim) none
      else pending B (.inl l :: es) st g with alloc := st'.1.allocated g, entry := st'.2.find g } := by
  have hl : leavesIn (.inl l :: es) = l :: leavesIn es := rfl
  have hf : framesIn (.inl l :: es) = framesIn es := rfl
  by_cases hg : g = l.frame
  · rcases claim_cases l with hc | hc
    · rw [hc, adjust_own_none]
      simp [pending, hl, hf, Leaf.claims, hc, hg]
    · rw [hc, adjust_cow_none]
      simp [pending, hl, hf, Leaf.claims, hc, hg]
  · rw [if_neg hg]
    have hne : l.frame ≠ g := Ne.symm hg
    simp [pending, hl, hf, Leaf.claims, hne]

theorem pending_frame (B : Pfn → Account) (f : Pfn) (es : List (Leaf ⊕ Pfn)) (st st' : Frames × CowTable) (g : Pfn) :
    pending B es st' g = { pending B (.inr f :: es) st g with
      tbl := (pending B (.inr f :: es) st g).tbl - (if g = f then 1 else 0)
      alloc := st'.1.allocated g
      entry := st'.2.find g } := by
  have hl : leavesIn (.inr f :: es) = leavesIn es := rfl
  have hf : framesIn (.inr f :: es) = f :: framesIn es := rfl
  by_cases hg : g = f
  · subst hg
    simp [pending, hl, hf]
  · have hne : f ≠ g := Ne.symm hg
    simp [pending, hl, hf, count_cons_of_ne hne, hg]

variable {fr0 : Frames} {k : Kernel} {a : ℕ} {s : AddressSpace}

theorem balance_freeFrame {fr : Frames} {f : Pfn} (hf : fr.allocated f = true)
    (h : ∃ fs, fr.freed = fs ++ fr0.freed ∧ ∀ g, fs.count g + (fr.allocated g).toNat = (fr0.allocated g).toNat) :
    ∃ fs, (freeFrame fr f).freed = fs ++ fr0.freed ∧
      ∀ g, fs.count g + ((freeFrame fr f).allocated g).toNat = (fr0.allocated g).toNat := by
  obtain ⟨fs, hfs, hc⟩ := h
  refine ⟨f :: fs, by simp [freeFrame, hfs], fun g => ?_⟩
  have := hc g
  by_cases hg : g = f
  · subst hg
    rw [hf] at this
    simpa [freeFrame] using this
  · rw [count_cons_of_ne (Ne.symm hg)]
    simpa [freeFrame, hg] using this

theorem releaseLeaf_frames (st : Frames × CowTable) (l : Leaf) :
    (releaseLeaf st l).1 = freeFrame st.1 l.frame ∨ (releaseLeaf st l).1 = st.1 := by
  unfold releaseLeaf
  cases hc : l.isCow
  · exact .inl rfl
  · change (if (st.2.find l.frame).isNone = true then freeFrame st.1 l.frame else st.1) = _ ∨
      (if (st.2.find l.frame).isNone = true then freeFrame st.1 l.frame else st.1) = _
    split_ifs
    · exact .inl rfl
    · exact .inr rfl

/-- **One event of the walk.** -/
theorem tearing_step {B : Pfn → Account} {es0 es : List (Leaf ⊕ Pfn)} {e : Leaf ⊕ Pfn} {st : Frames × CowTable}
    (he : e ∈ es0) (h : Tearing B fr0 es0 (e :: es) st) : Tearing B fr0 es0 es (consume st e) := by
  cases e with
  | inl l =>
    have hpos : 0 < usersIn (pending B (.inl l :: es) st l.frame) l.claim := by
      have hl : leavesIn (.inl l :: es) = l :: leavesIn es := rfl
      rcases claim_cases l with hc | hc <;> simp [hc, usersIn, pending, hl, Leaf.claims]
    obtain ⟨h1, h2, h3, h4⟩ := ok_releaseLeaf st h.ok (fun _ => rfl) (fun _ => rfl) hpos
    have hal : st.1.allocated l.frame = true := by
      refine (h.ok l.frame).live ?_
      rcases claim_cases l with hc | hc <;> rw [hc] at hpos <;> simp only [usersIn] at hpos <;> omega
    change Tearing B fr0 es0 es (releaseLeaf st l)
    refine ⟨fun g => ?_, h2.trans h.noBad, h.frees.trans (frees_releaseLeaf st l), ?_, fun g hg => ?_, fun g hg hag => ?_⟩
    · rw [pending_leaf B l es st]
      exact h1 g
    · rcases releaseLeaf_frames st l with hr | hr
      · rw [hr]; exact balance_freeFrame hal h.balance
      · rw [hr]; exact h.balance
    · have hne : g ≠ l.frame := fun hgl => hg _ he hgl.symm
      rw [h4 g hne]
      exact h.others g hg
    · by_cases hgl : g = l.frame
      · subst hgl
        have := h3 hag
        rw [pending_leaf B l es st, if_pos rfl]
        exact this
      · rw [h4 g hgl] at hag
        have := h.noLeak g hg hag
        rw [pending_leaf B l es st, if_neg hgl]
        exact this
  | inr f =>
    have hpos : 0 < (pending B (.inr f :: es) st f).tbl := by
      have hf : framesIn (.inr f :: es) = f :: framesIn es := rfl
      simp [pending, hf]
    have hal : st.1.allocated f = true := (h.ok f).live (by omega)
    change Tearing B fr0 es0 es (freeFrame st.1 f, st.2)
    refine ⟨fun g => ?_, by simp [freeFrame, hal, h.noBad], h.frees.trans (frees_freeFrame _ _),
      balance_freeFrame hal h.balance, fun g hg => ?_, fun g hg hag => ?_⟩
    · rw [pending_frame B f es st]
      by_cases hg : g = f
      · subst hg
        simpa [freeFrame, pending] using Account.ok_freeTbl (h.ok g) hpos
      · simpa [freeFrame, hg, pending] using h.ok g
    · have hne : g ≠ f := fun hgf => hg _ he hgf.symm
      simpa [freeFrame, hne] using h.others g hg
    · by_cases hgf : g = f
      · subst hgf
        simp [freeFrame] at hag
      · have hag' : st.1.allocated g = true := by simpa [freeFrame, hgf] using hag
        have := h.noLeak g hg hag'
        rw [pending_frame B f es st, if_neg hgf]
        exact this

/-- **The whole walk.** -/
theorem tearing_run {B : Pfn → Account} {es0 es : List (Leaf ⊕ Pfn)} {st : Frames × CowTable} (hsub : ∀ e ∈ es, e ∈ es0)
    (h : Tearing B fr0 es0 es st) : Tearing B fr0 es0 [] (es.foldl consume st) := by
  induction es generalizing st with
  | nil => exact h
  | cons e es ih =>
    exact ih (fun x hx => hsub x (mem_cons_of_mem _ hx)) (tearing_step (hsub e mem_cons_self) h)

/-! ## Dropping a reference -/

/-- the events of `free_user_half` and of freeing the address space's own frame -/
def AddressSpace.dropEvents (s : AddressSpace) (own : Pfn) : List (Leaf ⊕ Pfn) :=
  Slot.postorder (some s.pml4) ++ [.inr own]

/-- the state without address space `a` -/
def Kernel.without (k : Kernel) (a : ℕ) : Kernel := { k with spaces := k.spaces.set a none }

theorem dropRef_cases {k' : Kernel} (h : dropRef k a = some k') :
    ∃ s, k.space a = some s ∧
      ((s.refcount = 1 ∧ ∃ own, s.ownFrame = some own ∧ k' = { k.without a with
          frames := ((s.dropEvents own).foldl consume (k.frames, k.cow)).1
          cow := ((s.dropEvents own).foldl consume (k.frames, k.cow)).2 }) ∨
        (s.refcount ≠ 1 ∧ k' = k.setSpace a { s with refcount := s.refcount - 1 })) := by
  simp only [dropRef, bind_eq_bind, bind_eq_some_iff] at h
  obtain ⟨s, hs, h⟩ := h
  refine ⟨s, hs, ?_⟩
  by_cases hr : s.refcount = 1
  · rw [if_pos hr] at h
    simp only [bind_eq_some_iff, Option.pure_def, some.injEq] at h
    obtain ⟨own, hown, rfl⟩ := h
    refine .inl ⟨hr, own, hown, ?_⟩
    rw [Slot.fold_eq_foldl, dropEvents, foldl_append]
    rfl
  · rw [if_neg hr] at h
    simp only [Option.pure_def, some.injEq] at h
    exact .inr ⟨hr, h.symm⟩

theorem total_without (h : k.space a = some s) (g : AddressSpace → ℕ) : (k.without a).total g + g s = k.total g :=
  sum_map_set k.spaces a (some s) none (fun o => o.elim 0 g) (space_eq_some h)

theorem space_without {b : ℕ} {t : AddressSpace} (h : (k.without a).space b = some t) : b ≠ a ∧ k.space b = some t := by
  simp only [Kernel.without, Kernel.space, getElem?_set] at h
  split_ifs at h with h1 h2
  · cases h
  · cases h
  · exact ⟨Ne.symm h1, h⟩

theorem leafInv_without (h : LeafInv k) (a : ℕ) : LeafInv (k.without a) where
  areas := fun b t hb => h.areas b t (space_without hb).2
  plain := fun b t p l hb => h.plain b t p l (space_without hb).2
  seat := fun b t p l c u q m hb hl hc hm =>
    h.seat b t p l c u q m (space_without hb).2 hl (space_without hc).2 hm
  file := fun b t p l key e hb hl => h.file b t p l key e (space_without hb).2 hl
  keys := h.keys

theorem leavesIn_dropEvents (s : AddressSpace) (own : Pfn) :
    leavesIn (s.dropEvents own) = (Slot.leaves (some s.pml4)).map Prod.snd := by
  rw [leavesIn, dropEvents, filterMap_append, Slot.leaves_postorder]
  simp

theorem framesIn_dropEvents {own : Pfn} (h : s.ownFrame = some own) : framesIn (s.dropEvents own) = s.tables := by
  rw [framesIn, dropEvents, filterMap_append, Slot.labels_postorder, tables, h]
  rfl

section Drop

variable {own : Pfn}

theorem users_eq_claims (own : Pfn) (hno : ∀ p l, s.leaf p = some l → s.inShared p = false) (kd : Kind) (g : Pfn) :
    s.users kd g = (leavesIn (s.dropEvents own)).countP (Leaf.claims kd g) := by
  rw [leavesIn_dropEvents, countP_map]
  refine countP_congr fun x hx => ?_
  have := claim_eq_kindOf (l := x.2) (hno x.1 x.2 ((Slot.mem_leaves _ _ _).1 hx))
  simp [uses, Leaf.claims, this]

theorem pending_dropEvents (hs : k.space a = some s) (hown : s.ownFrame = some own)
    (hno : ∀ p l, s.leaf p = some l → s.inShared p = false) (g : Pfn) :
    pending (k.without a).account (s.dropEvents own) (k.frames, k.cow) g = k.account g := by
  have hu : ∀ kd, (k.without a).users kd g + s.users kd g = k.users kd g := fun kd => total_without hs _
  have ht : (k.without a).tableUses g + s.tables.count g = k.tableUses g := total_without hs _
  have hshr : s.users .shr g = 0 := by
    rw [users_eq_claims own hno, countP_eq_zero]
    intro l _
    rcases claim_cases l with hc | hc <;> simp [Leaf.claims, hc]
  ext1
  · change (k.without a).users .own g + _ = k.users .own g
    rw [← users_eq_claims own hno]
    exact hu .own
  · change (k.without a).users .cow g + _ = k.users .cow g
    rw [← users_eq_claims own hno]
    exact hu .cow
  · change (k.without a).users .shr g = k.users .shr g
    rw [← hu .shr, hshr, Nat.add_zero]
  · change (k.without a).tableUses g + _ = k.tableUses g
    rw [framesIn_dropEvents hown]
    exact ht
  · rfl
  · rfl
  · rfl

/-- the frames address space `s` is made of or maps -/
def AddressSpace.holds (s : AddressSpace) (g : Pfn) : Prop := g ∈ s.tables ∨ ∃ p l, s.leaf p = some l ∧ l.frame = g

theorem touches_dropEvents (hown : s.ownFrame = some own) (g : Pfn) :
    (∃ e ∈ s.dropEvents own, touches g e) ↔ s.holds g := by
  constructor
  · rintro ⟨e, he, ht⟩
    cases e with
    | inl l =>
      have : l ∈ leavesIn (s.dropEvents own) := mem_filterMap.2 ⟨_, he, rfl⟩
      rw [leavesIn_dropEvents] at this
      obtain ⟨⟨p, m⟩, hm, rfl⟩ := mem_map.1 this
      exact .inr ⟨p, m, (Slot.mem_leaves _ _ _).1 hm, ht⟩
    | inr f =>
      have : f ∈ framesIn (s.dropEvents own) := mem_filterMap.2 ⟨_, he, rfl⟩
      rw [framesIn_dropEvents hown] at this
      have hfg : f = g := ht
      exact .inl (hfg ▸ this)
  · rintro (h | ⟨p, l, hl, rfl⟩)
    · rw [← framesIn_dropEvents hown] at h
      obtain ⟨e, he, hf⟩ := mem_filterMap.1 h
      cases e with
      | inl l => simp at hf
      | inr f =>
        simp only [Sum.getRight?_inr, some.injEq] at hf
        exact ⟨_, he, hf⟩
    · have : l ∈ leavesIn (s.dropEvents own) := by
        rw [leavesIn_dropEvents]
        exact mem_map.2 ⟨(p, l), (Slot.mem_leaves _ _ _).2 hl, rfl⟩
      obtain ⟨e, he, hf⟩ := mem_filterMap.1 this
      cases e with
      | inl m =>
        simp only [Sum.getLeft?_inl, some.injEq] at hf
        exact ⟨_, he, by rw [hf]; exact rfl⟩
      | inr f => simp at hf

theorem usage_pos_of_holds (hs : k.space a = some s) {g : Pfn} (h : s.holds g) : 0 < usage (k.account g) := by
  rcases h with h | ⟨p, l, hl, rfl⟩
  · have h1 : 0 < s.tables.count g := count_pos_iff.2 h
    have h2 : s.tables.count g ≤ k.tableUses g := le_total hs fun s => s.tables.count g
    change 0 < k.users .own g + k.users .cow g + k.users .shr g + k.tableUses g + (k.kept g).toNat
    omega
  · have hpos := users_pos hs hl
    change 0 < k.users .own l.frame + k.users .cow l.frame + k.users .shr l.frame + k.tableUses l.frame +
      (k.kept l.frame).toNat
    cases hk : s.kindOf p l <;> rw [hk] at hpos <;> omega

end Drop

/-- the last reference of address space `a`, which was `s`, is dropped -/
structure Dropped (k : Kernel) (a : ℕ) (s : AddressSpace) (k' : Kernel) : Prop where
  good : Good k'
  spaces : k'.spaces = k.spaces.set a none
  frees : Frees k.frames k'.frames
  /-- exactly once each: its tables, and the frames of its pages that nobody else uses -/
  exact : ∃ fs, k'.frames.freed = fs ++ k.frames.freed ∧
    (∀ g, s.holds g → usage (k'.account g) = 0 → fs.count g = 1) ∧
    ∀ g, ¬ (s.holds g ∧ usage (k'.account g) = 0) → fs.count g = 0
  rest : k' = { k.without a with frames := k'.frames, cow := k'.cow }

/-- **Dropping the last reference.** -/
theorem dropRef_last {k' : Kernel} (hk : Good k) (hs : k.space a = some s) (hr : s.refcount = 1)
    (hno : ∀ p l, s.leaf p = some l → s.inShared p = false) (h : dropRef k a = some k') : Dropped k a s k' := by
  obtain ⟨s', hs', hc⟩ := dropRef_cases h
  cases hs.symm.trans hs'
  rcases hc with ⟨-, own, hown, hk'⟩ | ⟨hn, -⟩
  swap
  · exact absurd hr hn
  have h0 : Tearing (k.without a).account k.frames (s.dropEvents own) (s.dropEvents own) (k.frames, k.cow) := by
    refine ⟨fun g => ?_, hk.noBad, frees_refl _, ⟨[], rfl, fun g => by simp⟩, fun _ _ => rfl, fun g hg _ => ?_⟩
    · rw [pending_dropEvents hs hown hno]
      exact hk.sound g
    · rw [pending_dropEvents hs hown hno]
      exact usage_pos_of_holds hs ((touches_dropEvents hown g).1 hg)
  have hend := tearing_run (fun _ h => h) h0
  have hacc : ∀ g, k'.account g = pending (k.without a).account [] ((s.dropEvents own).foldl consume (k.frames,
    k.cow)) g := by
    intro g
    rw [hk']
    rfl
  have hfr : k'.frames = ((s.dropEvents own).foldl consume (k.frames, k.cow)).1 := by rw [hk']
  have hsound : Sound k' := fun g => by rw [hacc g]; exact hend.ok g
  refine ⟨⟨hsound, ?_, ?_, ?_⟩, by rw [hk']; rfl, by rw [hfr]; exact hend.frees, ?_, by rw [hk']⟩
  · exact leafInv_congr (leafInv_without hk.leaf a) (by rw [hk']) (by rw [hk']; exact sameFrames_refl _)
  · have h1 := total_without hs fun _ => 1
    have h2 : k'.liveCount = (k.without a).total fun _ => 1 := by rw [hk']; rfl
    have h3 : k.liveCount = k.total fun _ => 1 := rfl
    have := hk.live
    omega
  · rw [hfr]; exact hend.noBad
  · obtain ⟨fs, hfs, hbal⟩ := hend.balance
    rw [← hfr] at hfs hbal
    refine ⟨fs, hfs, fun g hg hu => ?_, fun g hg => ?_⟩
    · -- it was allocated, and is not any more
      have hb := hbal g
      have hal0 : k.frames.allocated g = true := (hk.sound g).live (usage_pos_of_holds hs hg)
      have hal1 : k'.frames.allocated g = false := by
        by_contra hn
        have := hend.noLeak g ((touches_dropEvents hown g).2 hg) (by rw [← hfr]; simpa using hn)
        rw [← hacc g, hu] at this
        exact absurd this (lt_irrefl 0)
      rw [hal0, hal1] at hb
      simpa using hb
    · have hb := hbal g
      have hal : k'.frames.allocated g = k.frames.allocated g := by
        by_cases hh : s.holds g
        · have hu : 0 < usage (k'.account g) := Nat.pos_of_ne_zero fun h0 => hg ⟨hh, h0⟩
          have h1 : k'.frames.allocated g = true := (hsound g).live hu
          rw [h1, hend.frees.shrink g (by rw [← hfr]; exact h1)]
        · rw [hfr]
          exact hend.others g fun e he ht => hh ((touches_dropEvents hown g).1 ⟨e, he, ht⟩)
      rw [hal] at hb
      omega

theorem good_dropRef_more (hk : Good k) (hs : k.space a = some s) (n : ℕ) : Good (k.setSpace a { s with refcount := n }) :=
  good_setCore hk hs rfl rfl ⟨(hk.leaf.areas a s hs).vmas, (hk.leaf.areas a s hs).flags⟩ (fun _ _ _ => rfl)
    fun _ _ _ _ h => h

end Rumicos.Proc
