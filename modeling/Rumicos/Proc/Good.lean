/-
Good states, and the page-table edits that keep a state good.
-/
import Rumicos.Proc.LeafInv

namespace Rumicos.Proc

open Paging Memory Lib Fs Function List Option Account AddressSpace

/-! ## Good states -/

/-- sound accounts, frames mapped where they may be, no more address spaces than processes can have (one more while a
fork or an exec is building), and no frame freed that was not allocated -/
structure Good (k : Kernel) : Prop where
  sound : Sound k
  leaf : LeafInv k
  live : k.liveCount ≤ maxProcesses + 1
  noBad : k.frames.badFree = false

variable {k k' : Kernel} {a : ℕ} {p : UPage} {o : Option Origin} {f : Pfn} {flags : PageFlags}
    {s : AddressSpace} {l : Leaf}

variable {x : Option Leaf}

theorem liveCount_edited (h : Edited k a p x o k') : k'.liveCount = k.liveCount :=
  h.total _ fun _ _ _ => rfl

theorem Good.entry_lt (h : Good k) {c : ℕ} (hc : k.cow.find f = some c) : c < u32Max := by
  have he : k.cow.find f = _ := (h.sound f).entry
  rw [hc] at he
  split_ifs at he with h1
  simp only [some.injEq] at he
  have hb := users_cow_lt h.leaf h.live f
  have hcl : (k.account f).claims ≤ k.users .cow f + 1 := by
    unfold claims
    split_ifs
    · omega
    · have : (k.account f).kept.toNat ≤ 1 := Bool.toNat_le _
      change k.users .cow f + (k.account f).kept.toNat ≤ _
      omega
  omega

/-- a state with the address spaces, the frames, the claims and the cached frames of a good one -/
theorem good_congr (hk : Good k) (hs : k'.spaces = k.spaces) (hf : k'.frames = k.frames)
    (hc : SameFrames k.cache k'.cache) (ho : k'.orphans = k.orphans) (hcow : k'.cow = k.cow) : Good k' := by
  refine ⟨fun g => ?_, leafInv_congr hk.leaf hs hc, ?_, by rw [hf]; exact hk.noBad⟩
  · have hacc : k'.account g = k.account g := by
      simp [Kernel.account, Kernel.users, Kernel.tableUses, Kernel.total, Kernel.kept, hs, hf, hc.cached, ho, hcow]
    rw [hacc]
    exact hk.sound g
  · rw [Kernel.liveCount, Kernel.total, hs]
    exact hk.live

/-- below saturation and with room, `cow_share` adds one claim -/
theorem find_cowShare_self {t : CowTable} (hr : t.roomFor f = true) (hlt : ∀ c, t.find f = some c → c < u32Max) :
    (cowShare t f).find f = Account.share (t.find f) := by
  rw [find_cowShare _ _ _ hr, if_pos rfl]
  rcases hc : t.find f with _ | c
  · rfl
  · have := hlt c hc
    have hmin : min (c + 1) u32Max = c + 1 := by omega
    simp [share, hmin]

theorem find_cowUnshare_self (t : CowTable) (f : Pfn) : (cowUnshare t f).find f = Account.release (t.find f) := by
  rw [find_cowUnshare, if_pos rfl]
  rcases t.find f with _ | c <;> rfl

theorem account_cow (k : Kernel) (t : CowTable) (g : Pfn) :
    ({ k with cow := t } : Kernel).account g = { k.account g with entry := t.find g } := rfl

/-- **One new leaf.** A page gets the leaf `l` in a state with the address spaces and the cache of a good state. -/
theorem good_edit {j : Kernel} (hk : Good k) (hs : k.space a = some s) (hed : Edited j a p x o k')
    (hj : j.spaces = k.spaces) (hcache : j.cache = k.cache) (hbad : j.frames.badFree = false) (hx : x = some l)
    (hsound : Sound k') (hplain : s.inShared p = true → l.isCow = false)
    (hseat : ∀ b t q m, k.space b = some t → t.leaf q = some m → m.frame = l.frame → cached k.cache l.frame = false →
    p = q)
    (hfile : l.isCow = true → ∀ key e, k.cache.find key = some e → e.frame = l.frame → FileSeat s.vmas p key) :
    Good k' := by
  have hsp : j.space = k.space := by funext b; simp [Kernel.space, hj]
  subst hx
  refine ⟨hsound, leafInv_edit (leafInv_congr hk.leaf hj (hcache ▸ sameFrames_refl _)) hed ?_ ?_ ?_, ?_,
    hed.badFree.trans hbad⟩
  · rintro s' l' hs' ⟨⟩
    rw [hsp, hs] at hs'
    cases hs'
    exact hplain
  · rintro l' b t q m ⟨⟩ hb hm hf
    rw [hcache]
    exact hseat b t q m (hsp ▸ hb) hm hf.symm
  · rintro s' l' key e hs' ⟨⟩ hc hkey
    rw [hsp, hs] at hs'
    cases hs'
    exact hfile hc key e (hcache ▸ hkey)
  · rw [liveCount_edited hed, Kernel.liveCount, Kernel.total, hj]
    exact hk.live

theorem good_mapFresh {page : Page} {o : Origin} (hk : Good k) (hs : k.space a = some s)
    (h : mapFresh k a p page flags o = some k') (hold : ∀ l, s.leaf p = some l → s.kindOf p l = .own)
    (hpres : flags.has bitPresent = true) (hcow : flags.has bitCow = false) (hsh : s.inShared p = false) : Good k' := by
  obtain ⟨f, frames, hf, hm⟩ := mapFresh_inv h
  have hun := (hk.sound f).unused (allocFrame_spec hf).1
  obtain ⟨l, hl, hlf, hlc, -, -⟩ := leafOf_newPage f hpres
  rw [hcow] at hlc
  exact good_edit hk hs (mapPage_edited hm) rfl rfl ((allocFrame_spec hf).2.2.2.1.trans hk.noBad) hl
    (sound_mapFresh hk.sound hs h hold hpres hcow hsh) (fun _ => hlc)
    (fun b t q m hb hm' hff _ => absurd (hff.trans hlf) (leaf_ne_of_unused hun hb hm'))
    fun hc => by rw [hlc] at hc; cases hc

/-! ## Edits on one frame -/

/-- an edit whose old and new leaf are on frame `f` touches the account of `f` only -/
theorem forall_adjust {A : Pfn → Account} {old new : Option Leaf} (hold : ∀ m, old = some m → m.frame = f)
    (hnew : ∀ m, new = some m → m.frame = f) (hf : (adjust (A f) (s.kindAt p old f) (s.kindAt p new f)).Ok)
    (hne : ∀ g, g ≠ f → (A g).Ok) (g : Pfn) : (adjust (A g) (s.kindAt p old g) (s.kindAt p new g)).Ok := by
  by_cases hg : g = f
  · subst hg; exact hf
  · have hnone : ∀ x : Option Leaf, (∀ m, x = some m → m.frame = f) → s.kindAt p x g = none := by
      intro x hx
      rcases x with _ | m
      · rfl
      · exact kindAt_some_ne s p m g (by rw [hx m rfl]; exact Ne.symm hg)
    rw [hnone old hold, hnone new hnew]
    exact hne g hg

theorem sound_setLeaf (hs : k.space a = some s) (hl : s.leaf p = some l) (h : setLeaf k a p x o = some k')
    (hok : ∀ g, (adjust (k.account g) (s.kindAt p (s.leaf p) g) (s.kindAt p x g)).Ok) : Sound k' := fun g => by
  rw [account_setLeaf hs h (hasPath_of_leaf hl) g]
  exact hok g

theorem leafOf_cowReadonly (l : Leaf) :
    ∃ l', leafOf (l.entry.withFlags (cowReadonlyFlags l.entry.flags)) = some l' ∧ l'.frame = l.frame ∧
      l'.isCow = true ∧ l'.isWritable = false := by
  obtain ⟨hp, hw, hc⟩ := PageTableEntry.withFlags_cowReadonly l.entry
  exact ⟨⟨_, hp.trans l.present⟩, by simp [leafOf, hp, l.present], by simp [Leaf.frame], hc, hw⟩

theorem leafOf_cowWritable (l : Leaf) (f : Pfn) :
    ∃ l', leafOf (.newPage f (cowWritableFlags l.entry.flags)) = some l' ∧ l'.frame = f ∧ l'.isCow = false ∧
      l'.isWritable = true := by
  obtain ⟨hp, hw, hc⟩ := PageTableEntry.newPage_cowWritable l.entry f
  exact ⟨⟨_, hp.trans l.present⟩, by simp [leafOf, hp, l.present], by simp [Leaf.frame], hc, hw⟩

theorem kindOf_cow (h : l.isCow = true) : s.kindOf p l = .cow := by
  rw [kindOf, if_pos h]

theorem kindOf_shr (h : l.isCow = false) (hin : s.inShared p = true) : s.kindOf p l = .shr := by
  rw [kindOf, h, if_neg (by decide), if_pos hin]

theorem kindOf_own (h : l.isCow = false) (hin : s.inShared p = false) : s.kindOf p l = .own := by
  rw [kindOf, h, hin, if_neg (by decide), if_neg (by decide)]

/-- an exclusive or copy-on-write leaf without other claims is on a frame the cache does not list -/
theorem not_cached_of_kept (h : (k.account f).kept = false) : cached k.cache f = false := by
  have : k.kept f = false := h
  rw [Kernel.kept, Bool.or_eq_false_iff] at this
  exact this.1

section

variable (hk : Good k) (hs : k.space a = some s)
include hk hs

/-- **Mapping a page-cache frame inside a MAP_SHARED area.** -/
theorem good_mapShared (h : mapPage k a p f flags o = some k')
    (hnone : s.leaf p = none) (hpres : flags.has bitPresent = true) (hcow : flags.has bitCow = false)
    (hin : s.inShared p = true) (hkept : k.kept f = true)
    (hseat : ∀ b t q m, k.space b = some t → t.leaf q = some m → m.frame = f → cached k.cache f = false → p = q) :
    Good k' := by
  obtain ⟨l, hl, hlf, hlc, -, -⟩ := leafOf_newPage f hpres
  rw [hcow] at hlc
  refine good_edit hk hs (mapPage_edited h) rfl rfl hk.noBad hl
    (sound_mapPage hs h (forall_adjust (f := f) ?_ ?_ ?_ fun g _ => hk.sound g)) (fun _ => hlc) (hlf ▸ hseat)
    fun hc => by rw [hlc] at hc; cases hc
  · rw [hnone]; intro m hm; cases hm
  · rw [hl]; intro m hm; cases hm; exact hlf
  · have hnew : s.kindAt p (some l) f = some .shr := by rw [← hlf, kindAt_some_self, kindOf_shr hlc hin]
    rw [hnone, hl, hnew]
    exact ok_addShr (hk.sound f) hkept

/-- **Mapping a frame copy-on-write**, with one more claim in COW_TABLE. -/
theorem good_mapCow
    (h : mapPage { k with cow := cowShare k.cow f } a p f flags o = some k') (hnone : s.leaf p = none)
    (hpres : flags.has bitPresent = true) (hcow : flags.has bitCow = true) (hin : s.inShared p = false)
    (hroom : k.cow.roomFor f = true) (hclaim : 0 < k.users .cow f ∨ k.kept f = true)
    (hseat : ∀ b t q m, k.space b = some t → t.leaf q = some m → m.frame = f → cached k.cache f = false → p = q)
    (hfile : ∀ key e, k.cache.find key = some e → e.frame = f → FileSeat s.vmas p key) : Good k' := by
  obtain ⟨l, hl, hlf, hlc, -, -⟩ := leafOf_newPage f hpres
  rw [hcow] at hlc
  refine good_edit hk hs (mapPage_edited h) rfl rfl hk.noBad hl
    (sound_mapPage (k := { k with cow := cowShare k.cow f }) hs h (forall_adjust (f := f) ?_ ?_ ?_ fun g hg => ?_))
    (fun hsh => by rw [hin] at hsh; cases hsh) (hlf ▸ hseat) fun _ => hlf ▸ hfile
  · rw [hnone]; intro m hm; cases hm
  · rw [hl]; intro m hm; cases hm; exact hlf
  · have hnew : s.kindAt p (some l) f = some .cow := by rw [← hlf, kindAt_some_self, kindOf_cow hlc]
    rw [hnone, hl, hnew, account_cow, find_cowShare_self hroom fun c hc => hk.entry_lt hc]
    exact ok_shareCow (hk.sound f) hclaim
  · rw [account_cow, find_cowShare _ _ _ hroom, if_neg hg]
    exact hk.sound g

/-- **Fork marks a page copy-on-write.** An exclusive page becomes a copy-on-write page with one claim, which needs no
entry. -/
theorem good_markCow (hl : s.leaf p = some l) (hin : s.inShared p = false)
    (h : setLeaf k a p (leafOf (l.entry.withFlags (cowReadonlyFlags l.entry.flags))) o = some k') : Good k' := by
  obtain ⟨m, hm, hmf, hmc, -⟩ := leafOf_cowReadonly l
  have hpos := users_pos hs hl
  refine good_edit hk hs (setLeaf_edited h hl hs) rfl rfl hk.noBad hm
    (sound_setLeaf hs hl h (forall_adjust (f := l.frame) ?_ ?_ ?_ fun g _ => hk.sound g))
    (fun hsh => by rw [hin] at hsh; cases hsh) (hmf ▸ hk.leaf.seat_of hs hl) fun _ key e hkey hff => ?_
  · rw [hl]; intro x hx; cases hx; rfl
  · rw [hm]; intro x hx; cases hx; exact hmf
  · have hnew : s.kindAt p (some m) l.frame = some .cow := by rw [← hmf, kindAt_some_self, kindOf_cow hmc]
    rw [hl, kindAt_some_self, hm, hnew]
    cases hc : l.isCow
    · rw [kindOf_own hc hin] at hpos ⊢
      exact ok_markCow (hk.sound _) hpos
    · rw [kindOf_cow hc]
      exact hk.sound _
  · rw [hmf] at hff
    cases hc : l.isCow
    · -- an exclusive page is not on a listed frame
      rw [kindOf_own hc hin] at hpos
      have hnc := not_cached_of_kept ((hk.sound l.frame).own_only hpos).2.2.2.2.1
      rw [(cached_iff _ _).2 ⟨key, e, hkey, hff⟩] at hnc
      cases hnc
    · exact hk.leaf.file a s p l key e hs hl hc hkey hff

/-- **A write fault keeps the frame in place** when no other claim is left. -/
theorem good_reuse (hl : s.leaf p = some l) (hc : l.isCow = true)
    (hsole : k.cow.find l.frame = none)
    (h : setLeaf { k with cow := cowUnshare k.cow l.frame } a p
      (leafOf (l.entry.withFlags (cowWritableFlags l.entry.flags))) o = some k') : Good k' := by
  obtain ⟨m, hm, hmf, hmc, -⟩ := leafOf_cowWritable l l.entry.frame
  change leafOf (l.entry.withFlags _) = _ at hm
  change m.frame = l.frame at hmf
  have hs0 : ({ k with cow := cowUnshare k.cow l.frame } : Kernel).space a = some s := hs
  have hin := hk.leaf.not_shared hs hl hc
  have hpos := users_pos hs hl
  rw [kindOf_cow hc] at hpos
  refine good_edit hk hs (setLeaf_edited h hl hs0) rfl rfl hk.noBad hm
    (sound_setLeaf hs0 hl h (forall_adjust (f := l.frame) ?_ ?_ ?_ fun g hg => ?_)) (fun _ => hmc)
    (hmf ▸ hk.leaf.seat_of hs hl) fun hcow => by rw [hmc] at hcow; cases hcow
  · rw [hl]; intro x hx; cases hx; rfl
  · rw [hm]; intro x hx; cases hx; exact hmf
  · have hnew : s.kindAt p (some m) l.frame = some .own := by rw [← hmf, kindAt_some_self, kindOf_own hmc hin]
    rw [hl, kindAt_some_self, kindOf_cow hc, hm, hnew, account_cow, find_cowUnshare_self, hsole]
    exact ok_reuse (A := k.account l.frame) (hk.sound _) hpos hsole
  · rw [account_cow, find_cowUnshare, if_neg hg]
    exact hk.sound g

end

/-- giving up a copy-on-write claim on `l.frame`, in any state that agrees with `k` on everything else -/
theorem ok_giveUp (hk : Good k) (hpos : 0 < k.users .cow f) (hent : k.cow.find f ≠ none) :
    Account.Ok { k.account f with cow := (k.account f).cow - 1, entry := (cowUnshare k.cow f).find f } := by
  rw [find_cowUnshare_self]
  exact ok_release (A := k.account f) (hk.sound _) hpos hent

section

variable (hk : Good k) (hs : k.space a = some s) (hl : s.leaf p = some l)
include hk hs hl

/-- **A write fault copies the frame** while other claims are left. -/
theorem good_copy {g : Pfn} {frames : Frames}
    (hc : l.isCow = true)
    (hent : k.cow.find l.frame ≠ none) (hg : allocFrame k.frames = some (g, frames))
    (h : setLeaf { k with
        cow := cowUnshare k.cow l.frame
        frames := frames
        mem := update k.mem g (k.mem l.frame) } a p
      (leafOf (.newPage g (cowWritableFlags l.entry.flags))) o = some k') : Good k' := by
  obtain ⟨m, hm, hmf, hmc, -⟩ := leafOf_cowWritable l g
  obtain ⟨hk1, hheld, -⟩ := sound_alloc (j := { k with
    frames := frames
    mem := update k.mem g (k.mem l.frame) }) hg rfl rfl rfl rfl rfl hk.sound
  have hun := (hk.sound g).unused (allocFrame_spec hg).1
  have hlg : l.frame ≠ g := leaf_ne_of_unused hun hs hl
  have hs0 : ({ k with
    cow := cowUnshare k.cow l.frame
    frames := frames
    mem := update k.mem g (k.mem l.frame) } : Kernel).space a = some s := hs
  have hpos := users_pos hs hl
  rw [kindOf_cow hc] at hpos
  have hkind : s.kindOf p m = .own := kindOf_own hmc (hk.leaf.not_shared hs hl hc)
  refine good_edit hk hs (setLeaf_edited h hl hs0) rfl rfl ((allocFrame_spec hg).2.2.2.1.trans hk.noBad)
    hm (sound_setLeaf hs0 hl h fun x => ?_) (fun _ => hmc)
    (fun b t q n hb hn hff _ => absurd (hff.trans hmf) (leaf_ne_of_unused hun hb hn))
    fun hcow => by rw [hmc] at hcow; cases hcow
  rw [hl, hm, account_cow { k with frames := frames, mem := _ }]
  by_cases hx : x = l.frame
  · -- the old frame loses one claim
    subst hx
    rw [kindAt_some_self, kindOf_cow hc, kindAt_some_ne s p m l.frame (by rw [hmf]; exact Ne.symm hlg)]
    have hacc := account_alloc (j := { k with
      frames := frames
      mem := update k.mem g (k.mem l.frame) }) hg rfl rfl rfl rfl rfl l.frame
    rw [if_neg hlg] at hacc
    rw [hacc]
    exact ok_giveUp hk hpos hent
  · rw [find_cowUnshare, if_neg hx, kindAt_some_ne s p l x (Ne.symm hx)]
    by_cases hxg : x = g
    · subst hxg
      have hnew : s.kindAt p (some m) x = some .own := by rw [← hmf, kindAt_some_self, hkind]
      rw [hnew]
      exact ok_addOwn (hk1 x) hheld.1 hheld.2
    · rw [kindAt_some_ne s p m x (by rw [hmf]; exact Ne.symm hxg)]
      exact hk1 x

/-! ## Clearing a leaf -/

theorem good_cleared
    (h : setLeaf k a p none none = some k') :
    LeafInv k' ∧ k'.liveCount ≤ maxProcesses + 1 ∧ k'.frames.badFree = false ∧ ∀ g, k'.account g =
      if g = l.frame then adjust (k.account g) (some (s.kindOf p l)) none else k.account g := by
  have hed := setLeaf_edited h hl hs
  refine ⟨leafInv_clear hk.leaf hed, by rw [liveCount_edited hed]; exact hk.live, hed.badFree.trans hk.noBad,
    fun g => ?_⟩
  rw [account_setLeaf hs h (hasPath_of_leaf hl) g, hl, kindAt_none]
  split_ifs with hg
  · subst hg; rw [kindAt_some_self]
  · rw [kindAt_some_ne s p l g (Ne.symm hg), adjust_self]

theorem good_forget (hin : s.inShared p = true)
    (h : setLeaf k a p none none = some k') : Good k' := by
  obtain ⟨hli, hlive, hbad, hacc⟩ := good_cleared hk hs hl h
  refine ⟨fun g => ?_, hli, hlive, hbad⟩
  rw [hacc g]
  split_ifs with hg
  · rw [kindOf_shr (hk.leaf.plain a s p l hs hl hin) hin]
    exact ok_dropShr (hk.sound g)
  · exact hk.sound g

end

/-- the kind of user a leaf outside MAP_SHARED areas is -/
def Leaf.claim (l : Leaf) : Kind := if l.isCow then .cow else .own

theorem claim_eq_kindOf (hin : s.inShared p = false) : l.claim = s.kindOf p l := by
  cases hc : l.isCow
  · rw [kindOf_own hc hin]; simp [Leaf.claim, hc]
  · rw [kindOf_cow hc]; simp [Leaf.claim, hc]

/-- the users of kind `kd` in an account -/
def usersIn (A : Account) : Kind → ℕ
  | .own => A.own
  | .cow => A.cow
  | .shr => A.shr

/-- the users of every kind, and the keeper -/
def usage (A : Account) : ℕ := A.own + A.cow + A.shr + A.tbl + A.kept.toNat

/-- **Releasing a leaf.** On any family of accounts that agrees with the allocator and COW_TABLE: the leaf's claim goes,
the others stay right, the frame was allocated if it is freed, and it stays allocated only while somebody uses it. -/
theorem ok_releaseLeaf {A : Pfn → Account} (st : Frames × CowTable) (hA : ∀ g, (A g).Ok)
    (hal : ∀ g, (A g).alloc = st.1.allocated g) (hent : ∀ g, (A g).entry = st.2.find g)
    (hpos : 0 < usersIn (A l.frame) l.claim) :
    (∀ g, Account.Ok { if g = l.frame then adjust (A g) (some l.claim) none else A g with
        alloc := (releaseLeaf st l).1.allocated g
        entry := (releaseLeaf st l).2.find g }) ∧
      (releaseLeaf st l).1.badFree = st.1.badFree ∧
      ((releaseLeaf st l).1.allocated l.frame = true → 0 < usage (adjust (A l.frame) (some l.claim) none)) ∧
      ∀ g, g ≠ l.frame → (releaseLeaf st l).1.allocated g = st.1.allocated g := by
  have hother : ∀ {fr : Frames} {c : CowTable} g, g ≠ l.frame → fr.allocated g = st.1.allocated g →
      c.find g = st.2.find g → Account.Ok { if g = l.frame then adjust (A g) (some l.claim) none else A g with
        alloc := fr.allocated g, entry := c.find g } := by
    intro fr c g hg h1 h2
    rw [if_neg hg, h1, h2, ← hal g, ← hent g]
    exact hA g
  cases hc : l.isCow
  · -- an exclusive page is freed at once
    have hcl : l.claim = .own := by simp [Leaf.claim, hc]
    have hrel : releaseLeaf st l = (freeFrame st.1 l.frame, st.2) := by simp [releaseLeaf, hc]
    rw [hcl] at hpos
    have hlive : st.1.allocated l.frame = true := by
      rw [← hal]
      exact (hA _).live (by simp only [usersIn] at hpos; omega)
    rw [hrel]
    refine ⟨fun g => ?_, by simp [freeFrame, hlive], fun h => by simp [freeFrame] at h,
      fun g hg => by simp [freeFrame, hg]⟩
    by_cases hg : g = l.frame
    · subst hg
      rw [hcl, adjust_own_none, ← hent]
      simpa [freeFrame] using ok_freeOwn (hA l.frame) hpos
    · exact hother g hg (by simp [freeFrame, hg]) rfl
  · have hcl : l.claim = .cow := by simp [Leaf.claim, hc]
    rw [hcl] at hpos
    have hlive : st.1.allocated l.frame = true := by
      rw [← hal]
      exact (hA _).live (by simp only [usersIn] at hpos; omega)
    have hun : ∀ g, g ≠ l.frame → (cowUnshare st.2 l.frame).find g = st.2.find g := fun g hg => by
      rw [find_cowUnshare, if_neg hg]
    by_cases hsole : st.2.find l.frame = none
    · -- the last claim
      have hrel : releaseLeaf st l = (freeFrame st.1 l.frame, cowUnshare st.2 l.frame) := by
        simp [releaseLeaf, hc, cowResolve, hsole]
      rw [hrel]
      refine ⟨fun g => ?_, by simp [freeFrame, hlive], fun h => by simp [freeFrame] at h,
        fun g hg => by simp [freeFrame, hg]⟩
      by_cases hg : g = l.frame
      · subst hg
        rw [hcl, adjust_cow_none, find_cowUnshare_self, hsole]
        simpa [freeFrame, release] using ok_releaseFree (hA l.frame) hpos (by rw [hent, hsole])
      · exact hother g hg (by simp [freeFrame, hg]) (hun g hg)
    · -- other claims are left
      have hrel : releaseLeaf st l = (st.1, cowUnshare st.2 l.frame) := by
        have : (st.2.find l.frame).isNone = false := by
          rw [isNone_eq_false_iff, isSome_iff_ne_none]; exact hsole
        simp [releaseLeaf, hc, cowResolve, this]
      rw [hrel]
      refine ⟨fun g => ?_, rfl, fun _ => ?_, fun g _ => rfl⟩
      · by_cases hg : g = l.frame
        · subst hg
          rw [if_pos rfl, hcl, find_cowUnshare_self, ← hal, ← hent]
          exact ok_release (hA l.frame) hpos (by rw [hent]; exact hsole)
        · exact hother g hg rfl (hun g hg)
      · have hcls : ¬ (A l.frame).claims ≤ 1 := fun hle => hsole (by rw [← hent, (hA _).entry, if_pos hle])
        rw [hcl, adjust_cow_none, usage]
        simp only [claims] at hcls hpos ⊢
        split_ifs at hcls <;> omega

/-- **A page outside MAP_SHARED areas is cleared and released.** -/
theorem good_unmap (hk : Good k) (hs : k.space a = some s) (hl : s.leaf p = some l) (hin : s.inShared p = false)
    (h : setLeaf k a p none none = some k') :
    Good { k' with
      frames := (releaseLeaf (k'.frames, k'.cow) l).1
      cow := (releaseLeaf (k'.frames, k'.cow) l).2 } := by
  obtain ⟨hli, hlive, hbad, hacc⟩ := good_cleared hk hs hl h
  have hed := setLeaf_edited h hl hs
  have hfr : k'.frames = k.frames := by
    obtain ⟨s1, pml4, -, -, rfl⟩ := setLeaf_spec h
    rfl
  have hclaim : l.claim = s.kindOf p l := claim_eq_kindOf hin
  have hpos : 0 < usersIn (k.account l.frame) l.claim := by
    have := users_pos hs hl
    rw [← hclaim] at this
    cases hcl : l.claim <;> rw [hcl] at this <;> exact this
  obtain ⟨h1, h2, -, -⟩ := ok_releaseLeaf (A := k.account) (k'.frames, k'.cow) hk.sound
    (fun g => by rw [hfr]; rfl) (fun g => by rw [hed.cow]; rfl) hpos
  refine ⟨fun g => ?_, leafInv_congr hli rfl (sameFrames_refl _), hlive, h2.trans hbad⟩
  have := h1 g
  rw [hclaim] at this
  rw [← hacc g] at this
  exact this

/-! ## The bytes of frames in use -/

/-- the frames in use keep their bytes -/
def MemKept (k k' : Kernel) : Prop := ∀ g, k.frames.allocated g = true → k'.mem g = k.mem g

theorem leaf_allocated (hk : Sound k) (hs : k.space a = some s) (hl : s.leaf p = some l) :
    k.frames.allocated l.frame = true := by
  by_contra hn
  have hun := (hk l.frame).unused (by simpa [Kernel.account] using hn)
  exact leaf_ne_of_unused hun hs hl rfl

theorem cached_allocated {key : ℕ × ℕ} {e : CacheEntry} (hk : Sound k) (he : k.cache.find key = some e) :
    k.frames.allocated e.frame = true := by
  by_contra hn
  have hun := (hk e.frame).unused (by simpa [Kernel.account] using hn)
  have hc := not_cached_of_kept hun.2.2.2.2
  rw [(cached_iff _ _).2 ⟨key, e, he, rfl⟩] at hc
  cases hc

theorem memKept_update {page : Page} (hf : k.frames.allocated f = false) (hm : k'.mem = update k.mem f page) :
    MemKept k k' := by
  intro g hg
  rw [hm, update_of_ne]
  rintro rfl
  rw [hf] at hg
  cases hg

theorem spaces_length (h : k'.cores = k.cores) : k'.spaces.length = k.spaces.length := by
  have := congrArg List.length h
  simpa [Kernel.cores] using this

end Rumicos.Proc
