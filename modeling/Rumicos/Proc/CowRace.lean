/-
Copy-on-write faults of several threads on one page (`resolve_cow_fault_inner`, `cow_resolve`).

`resolve_cow_fault_inner` reads the page-table entry, takes the bucket lock of its frame and decides there between reuse
and copy, but it decides about the entry it has read. Two threads of one address space that read the same entry both go
through `cow_resolve` for the one claim of the page.

- `Exact`: each page whose entry has been replaced has been through `cow_resolve` once, and no other has; the entry it got
  maps a frame that no other page, in any address space, maps writable; every frame allocated since the start is mapped.
- `Ready`: what the faults find at the start. COW_TABLE counts at least the COW entries of each frame, nobody maps such a
  frame writable, and mapped frames are allocated.

The runs are those of `Rumicos.Proc.Threads` with copy-on-write faults as the only calls: any number of them, on any CPUs,
pages and address spaces, with loads, stores and shootdowns between their steps.
-/
import Rumicos.Proc.Threads

namespace Rumicos.Proc.Threads.CowRace

open Paging Memory Lib Function List Option PageTableEntry Finset
open Proc.Shootdown (Cpu)
open scoped Proc.Shootdown

/-! ## The property and its condition -/

/-- how many calls have been through `cow_resolve` for the page -/
def released (M : Machine) (s : System) (k : ℕ × ℕ) : ℕ := s.calls.countP fun c => c.resolved && decide (c.slot M = k)

/-- every replaced entry was resolved once, alone, and without a lost frame -/
structure Exact (M : Machine) (s₀ s : System) : Prop where
  released : ∀ k, released M s k = if s.leaf k = s₀.leaf k then 0 else 1
  /-- a fault that has returned leaves no COW entry behind -/
  returned : ∀ c ∈ s.calls, c.pc = .done → (s.leaf (c.slot M)).entry.isPresent = true →
    (s.leaf (c.slot M)).entry.isCow = false
  sole : ∀ k k' f, s.leaf k ≠ s₀.leaf k → k' ≠ k → (s.leaf k).maps f = true → (s.leaf k').maps f = true →
    (s.leaf k').entry.isWritable = false
  kept : ∀ f, s.frames.allocated f = true → s₀.frames.allocated f = true ∨ ∃ k, (s.leaf k).maps f = true

/-- the COW entries of a frame among `pages` -/
def claimants (pages : Finset (ℕ × ℕ)) (s : System) (f : Pfn) : Finset (ℕ × ℕ) :=
  pages.filter fun k => (s.leaf k).maps f = true ∧ (s.leaf k).entry.isCow = true

/-- what the page tables, COW_TABLE and the allocator agree on -/
structure Ready (pages : Finset (ℕ × ℕ)) (s : System) : Prop where
  /-- the pages in use, in all address spaces -/
  within : ∀ k f, (s.leaf k).maps f = true → k ∈ pages
  /-- COW_TABLE counts every claim (the page cache and others may have more) -/
  counted : ∀ f, ∃ n, Counts s.cow f n ∧ (claimants pages s f).card ≤ n
  readonly : ∀ k k' f, (s.leaf k).maps f = true → (s.leaf k).entry.isCow = true → (s.leaf k').maps f = true →
    (s.leaf k').entry.isWritable = false
  allocated : ∀ k f, (s.leaf k).maps f = true → s.frames.allocated f = true

/-- every call is a copy-on-write fault -/
def Act.isFault : Act → Bool
  | .call _ job _ => decide (job = .cow)
  | _ => true

def faultStep (M : Machine) (s : System) (a : Act) : Option System := if Act.isFault a then step M s a else none

/-- a call about to take the bucket lock finds the entry it has read -/
def Call.finds (M : Machine) (s : System) (c : Call) : Prop :=
  match c.pc with
  | .resolve old => s.leaf (c.slot M) = old
  | _ => True

instance (M : Machine) (s : System) (c : Call) : Decidable (Call.finds M s c) := by
  unfold Call.finds
  split <;> infer_instance

/-- a step through `cow_resolve` finds the entry its call has read -/
def ReadHolds (M : Machine) (s : System) : Act → Prop
  | .resume i => (step M s (.resume i)).isSome = true → ∀ c ∈ s.calls[i]?, Call.finds M s c
  | _ => True

instance (M : Machine) (s : System) (a : Act) : Decidable (ReadHolds M s a) := by
  unfold ReadHolds
  split <;> infer_instance

/-! ## The invariant -/

/-- where a fault is and what it has seen -/
def CallInv (M : Machine) (s₀ s : System) (c : Call) : Prop :=
  match c.pc with
  | .start => c.resolved = false
  | .resolve old => c.resolved = false ∧ old = s₀.leaf (c.slot M) ∧ old.entry.isPresent = true ∧ old.entry.isCow = true
  | .flush | .wait _ => s.leaf (c.slot M) ≠ s₀.leaf (c.slot M)
  | .done => (s.leaf (c.slot M)).entry.isPresent = true → (s.leaf (c.slot M)).entry.isCow = false
  | .clear _ | .release _ | .map _ => False

structure Inv (M : Machine) (pages : Finset (ℕ × ℕ)) (s₀ s : System) : Prop where
  start : Ready pages s₀
  ready : Ready pages s
  released : ∀ k, released M s k = if s.leaf k = s₀.leaf k then 0 else 1
  changed : ∀ k, s.leaf k ≠ s₀.leaf k → (s.leaf k).entry.isCow = false ∧ (s.leaf k).entry.isWritable = true
  sole : ∀ k k' f, s.leaf k ≠ s₀.leaf k → k' ≠ k → (s.leaf k).maps f = true → (s.leaf k').maps f = true →
    (s.leaf k').entry.isWritable = false
  kept : ∀ f, s.frames.allocated f = true → s₀.frames.allocated f = true ∨ ∃ k, (s.leaf k).maps f = true
  calls : ∀ c ∈ s.calls, c.job = .cow ∧ CallInv M s₀ s c

section Steps

variable {M : Machine} {pages : Finset (ℕ × ℕ)} {s₀ s s' : System} {i : ℕ} {c c' : Call} {k : ℕ × ℕ} {f : Pfn}

theorem inv_start (h : Ready pages s₀) (hc : s₀.calls = []) : Inv M pages s₀ s₀ where
  start := h
  ready := h
  released := fun k => by simp [CowRace.released, hc]
  changed := fun k hk => absurd rfl hk
  sole := fun k _ _ hk => absurd rfl hk
  kept := fun _ hf => .inl hf
  calls := by simp [hc]

theorem Inv.exact (hI : Inv M pages s₀ s) : Exact M s₀ s where
  released := hI.released
  returned := fun c hc hpc => by
    have h := (hI.calls c hc).2
    rw [CallInv, hpc] at h
    exact h
  sole := hI.sole
  kept := hI.kept

theorem mem_claimants (h : Ready pages s) :
    k ∈ claimants pages s f ↔ (s.leaf k).maps f = true ∧ (s.leaf k).entry.isCow = true := by
  rw [claimants, Finset.mem_filter]
  exact ⟨fun hk => hk.2, fun hk => ⟨h.within k f hk.1, hk⟩⟩

/-! ## Steps that leave the page tables alone -/

theorem released_set (hi : s.calls[i]? = some c) (hcalls : s'.calls = s.calls.set i c') (hslot : c'.slot M = c.slot M)
    (hres : c.resolved = false ∨ c'.resolved = c.resolved) :
    released M s' k = released M s k + if c.resolved = false ∧ c'.resolved = true ∧ c.slot M = k then 1 else 0 := by
  obtain ⟨hlt, he⟩ := List.getElem?_eq_some_iff.1 hi
  have hpos : c.resolved = true → c.slot M = k → 0 < released M s k := fun h1 h2 =>
    countP_pos_iff.2 ⟨c, mem_of_getElem? hi, by simp [h1, h2]⟩
  rw [released, hcalls, countP_set hlt, he, hslot]
  change released M s k - _ + _ = _
  by_cases hk : c.slot M = k
  · rcases h1 : c.resolved with _ | _
    · simp [hk]
    · have h2 : c'.resolved = true := by simpa [h1] using hres
      have := hpos h1 hk
      simp [hk, h2]
      omega
  · simp [hk]

/-- a step that changes no entry, no count and no frame, and no call beyond `i` -/
theorem Inv.move (hI : Inv M pages s₀ s) (hleaf : s'.leaf = s.leaf) (hcow : s'.cow = s.cow)
    (hframes : s'.frames = s.frames)
    (hrel : ∀ k, CowRace.released M s' k = CowRace.released M s k)
    (hcalls : ∀ c ∈ s'.calls, c.job = .cow ∧ CallInv M s₀ s c) : Inv M pages s₀ s' where
  start := hI.start
  ready := by
    obtain ⟨h1, h2, h3, h4⟩ := hI.ready
    refine ⟨?_, ?_, ?_, ?_⟩
    · rw [hleaf]; exact h1
    · unfold claimants
      rw [hcow, hleaf]; exact h2
    · rw [hleaf]; exact h3
    · rw [hleaf, hframes]; exact h4
  released := by rw [hleaf]; exact fun k => (hrel k).trans (hI.released k)
  changed := by rw [hleaf]; exact hI.changed
  sole := by rw [hleaf]; exact hI.sole
  kept := by rw [hleaf, hframes]; exact hI.kept
  calls := by
    unfold CallInv
    rw [hleaf]
    exact hcalls

theorem Inv.goto (hI : Inv M pages s₀ s) (hi : s.calls[i]? = some c) (hleaf : s'.leaf = s.leaf) (hcow : s'.cow = s.cow)
    (hframes : s'.frames = s.frames) (hcalls : s'.calls = s.calls.set i c') (hslot : c'.slot M = c.slot M)
    (hres : c'.resolved = c.resolved) (hjob : c'.job = c.job) (hc : CallInv M s₀ s c') : Inv M pages s₀ s' := by
  refine hI.move hleaf hcow hframes (fun k => ?_) ?_
  · rw [released_set hi hcalls hslot (.inr hres), if_neg, Nat.add_zero]
    rintro ⟨h1, h2, -⟩
    rw [hres, h1] at h2
    cases h2
  · rw [hcalls]
    exact forall_mem_set hI.calls ⟨hjob.trans (hI.calls c (mem_of_getElem? hi)).1, hc⟩

/-! ## A fault replaces its entry -/

theorem claimants_update {new : Mapping} (hleaf : s'.leaf = update s.leaf k new)
    (hc : new.entry.isCow = false) : claimants pages s' f = (claimants pages s f).erase k := by
  ext j
  rw [claimants, claimants, hleaf]
  by_cases hj : j = k
  · subst hj
    simp [hc]
  · simp [hj]

theorem counted_update (h : Ready pages s) {new : Mapping} {g : Pfn} (hleaf : s'.leaf = update s.leaf k new)
    (hc : new.entry.isCow = false) (hk : k ∈ claimants pages s g) (hcow : s'.cow = cowUnshare s.cow g) (f : Pfn) :
    ∃ n, Counts s'.cow f n ∧ (claimants pages s' f).card ≤ n := by
  obtain ⟨n, hn, hcard⟩ := h.counted f
  rw [claimants_update hleaf hc, hcow]
  by_cases hf : f = g
  · subst hf
    refine ⟨n - 1, counts_resolve hn, ?_⟩
    rw [card_erase_of_mem hk]
    exact Nat.sub_le_sub_right hcard 1
  · exact ⟨n, counts_resolve_other hn hf, (card_erase_le).trans hcard⟩

/-- **A fault that finds the entry it has read** replaces it by one that nobody else maps writable or COW. -/
theorem Inv.resolve (hI : Inv M pages s₀ s) (hi : s.calls[i]? = some c) {old : Mapping} (new : Mapping)
    (hpc : c.pc = .resolve old)
    (hread : s.leaf (c.slot M) = old) (hp : new.entry.isPresent = true) (hc : new.entry.isCow = false)
    (hw : new.entry.isWritable = true)
    (hothers : ∀ k, k ≠ c.slot M → (s.leaf k).maps new.entry.frame = true →
      (s.leaf k).entry.isWritable = false ∧ (s.leaf k).entry.isCow = false)
    (hleaf : s'.leaf = update s.leaf (c.slot M) new) (hcow : s'.cow = cowUnshare s.cow old.entry.frame)
    (halloc : ∀ g, s'.frames.allocated g = (s.frames.allocated g || decide (g = new.entry.frame)))
    {taken : Option Pfn} (hcalls : s'.calls = s.calls.set i { c with pc := .flush, taken := taken, resolved := true }) :
    Inv M pages s₀ s' := by
  obtain ⟨hjob, hcinv⟩ := hI.calls c (mem_of_getElem? hi)
  rw [CallInv, hpc] at hcinv
  obtain ⟨hres, horig, hop, hoc⟩ := hcinv
  have hself : s'.leaf (c.slot M) = new := by rw [hleaf, update_self]
  have hother : ∀ k, k ≠ c.slot M → s'.leaf k = s.leaf k := fun k hk => by rw [hleaf, update_of_ne hk]
  have hne : new ≠ s₀.leaf (c.slot M) := by
    rintro rfl
    rw [← horig, hoc] at hc
    cases hc
  have hmaps : (s.leaf (c.slot M)).maps old.entry.frame = true := by
    rw [hread]
    exact maps_iff.2 ⟨hop, rfl⟩
  have hclaim : c.slot M ∈ claimants pages s old.entry.frame :=
    (mem_claimants hI.ready).2 ⟨hmaps, by rw [hread]; exact hoc⟩
  have hnew : ∀ {g : Pfn}, new.maps g = true → new.entry.frame = g := fun h => (maps_iff.1 h).2
  constructor
  · exact hI.start
  · refine ⟨?_, counted_update hI.ready hleaf hc hclaim hcow, ?_, ?_⟩
    · intro k g hk
      by_cases hkc : k = c.slot M
      · rw [hkc]
        exact hI.ready.within _ _ hmaps
      · rw [hother k hkc] at hk
        exact hI.ready.within k g hk
    · intro k k' g hk hkcow hk'
      have hkc : k ≠ c.slot M := by
        rintro rfl
        rw [hself, hc] at hkcow
        cases hkcow
      rw [hother k hkc] at hk hkcow
      by_cases hkc' : k' = c.slot M
      · -- nobody else has a COW entry for the new frame
        rw [hkc', hself] at hk'
        obtain rfl := hnew hk'
        rw [(hothers k hkc hk).2] at hkcow
        cases hkcow
      · rw [hother k' hkc'] at hk' ⊢
        exact hI.ready.readonly k k' g hk hkcow hk'
    · intro k g hk
      rw [halloc]
      by_cases hkc : k = c.slot M
      · rw [hkc, hself] at hk
        simp [hnew hk]
      · rw [hother k hkc] at hk
        simp [hI.ready.allocated k g hk]
  · intro k
    rw [released_set hi hcalls rfl (.inl hres), hI.released]
    by_cases hkc : k = c.slot M
    · rw [hkc, hself, hread, if_pos horig, if_neg hne, if_pos ⟨hres, rfl, rfl⟩]
    · rw [hother k hkc, add_eq_left]
      exact if_neg fun h => hkc h.2.2.symm
  · intro k hk
    by_cases hkc : k = c.slot M
    · rw [hkc, hself]
      exact ⟨hc, hw⟩
    · rw [hother k hkc] at hk ⊢
      exact hI.changed k hk
  · intro k k' g hk hkk' hm hm'
    by_cases hkc : k = c.slot M
    · have hkc' : k' ≠ c.slot M := fun h => hkk' (h.trans hkc.symm)
      rw [hkc, hself] at hm
      rw [hother k' hkc'] at hm' ⊢
      obtain rfl := hnew hm
      exact (hothers k' hkc' hm').1
    · rw [hother k hkc] at hk hm
      by_cases hkc' : k' = c.slot M
      · -- an entry replaced before is writable: it cannot share the new frame
        rw [hkc', hself] at hm'
        obtain rfl := hnew hm'
        have := (hothers k hkc hm).1
        rw [(hI.changed k hk).2] at this
        cases this
      · rw [hother k' hkc'] at hm' ⊢
        exact hI.sole k k' g hk hkk' hm hm'
  · intro g hg
    rw [halloc, Bool.or_eq_true] at hg
    rcases hg with hg | hg
    · rcases hI.kept g hg with h | ⟨k, hk⟩
      · exact .inl h
      · by_cases hkc : k = c.slot M
        · rw [hkc, hread, horig] at hk
          exact .inl (hI.start.allocated _ g hk)
        · exact .inr ⟨k, by rw [hother k hkc]; exact hk⟩
    · exact .inr ⟨c.slot M, by rw [hself]; exact maps_iff.2 ⟨hp, (of_decide_eq_true hg).symm⟩⟩
  · intro d hd
    rw [hcalls] at hd
    rcases mem_or_eq_of_mem_set hd with hd | rfl
    · obtain ⟨hdjob, hdinv⟩ := hI.calls d hd
      refine ⟨hdjob, ?_⟩
      by_cases hdc : d.slot M = c.slot M
      · unfold CallInv at hdinv ⊢
        split at hdinv
        · exact hdinv
        · exact hdinv
        · rw [hdc, hself]; exact hne
        · rw [hdc, hself]; exact hne
        · rw [hdc, hself]; exact fun _ => hc
        all_goals exact hdinv
      · unfold CallInv at hdinv ⊢
        rw [hother _ hdc]
        exact hdinv
    · refine ⟨hjob, ?_⟩
      show s'.leaf (c.slot M) ≠ s₀.leaf (c.slot M)
      rw [hself]
      exact hne

theorem Ready.alone (h : Ready pages s) (hk : (s.leaf k).maps f = true) (hc : (s.leaf k).entry.isCow = true)
    (hfind : s.cow.find f = none) {j : ℕ × ℕ} (hj : j ≠ k) (hm : (s.leaf j).maps f = true) :
    (s.leaf j).entry.isWritable = false ∧ (s.leaf j).entry.isCow = false := by
  refine ⟨h.readonly k j f hk hc hm, ?_⟩
  by_contra hcow
  rw [Bool.not_eq_false] at hcow
  obtain ⟨n, hn, hcard⟩ := h.counted f
  have hn1 : n ≤ 1 := by
    by_contra hn1
    rw [Counts, if_neg hn1, hfind] at hn
    cases hn
  exact hj (card_le_one.1 (hcard.trans hn1) j ((mem_claimants h).2 ⟨hm, hcow⟩) k ((mem_claimants h).2 ⟨hk, hc⟩))

theorem faultStep_spec {a : Act} (h : faultStep M s a = some s') : Act.isFault a = true ∧ step M s a = some s' := by
  unfold faultStep at h
  split_ifs at h with ha
  exact ⟨ha, h⟩

/-- **A step that finds what was read keeps the invariant.** -/
theorem step_inv {a : Act} (hI : Inv M pages s₀ s) (hok : ReadHolds M s a) (h : faultStep M s a = some s') :
    Inv M pages s₀ s' := by
  obtain ⟨hfault, hstep⟩ := faultStep_spec h
  -- the invariant of the call that moves, at its place
  have hcall : ∀ {i : ℕ} {c : Call} {pc : Pc}, s.calls[i]? = some c → c.pc = pc →
      c.job = .cow ∧ CallInv M s₀ s { c with pc := pc } := fun hi hpc => by
    rw [← hpc]
    exact hI.calls _ (mem_of_getElem? hi)
  have hfinds : ∀ {i : ℕ} {c : Call} {old : Mapping}, a = .resume i → s.calls[i]? = some c → c.pc = .resolve old →
      s.leaf (c.slot M) = old := by
    rintro i c old rfl hi hpc
    have hf := hok (by rw [hstep]; rfl) c hi
    rw [Call.finds, hpc] at hf
    exact hf
  cases step_moves hstep with
  | use hm hp | evict cpu page | shoot hshoot => exact hI.move rfl rfl rfl (fun _ => rfl) hI.calls
  | call cpu job page ha =>
    subst ha
    have hjob : job = .cow := of_decide_eq_true hfault
    refine hI.move rfl rfl rfl (fun k => ?_) (forall_mem_append.2 ⟨hI.calls, forall_mem_singleton.2 ⟨hjob, rfl⟩⟩)
    simp [CowRace.released]
  | @skip i c page pc hi hpc hnew hjob =>
    obtain ⟨hcow, hinv⟩ := hcall hi hpc
    rcases hjob with ⟨stop, shared, hu⟩ | ⟨-, rfl, rfl, hentry⟩
    · rw [hcow] at hu
      cases hu
    · refine hI.goto hi rfl rfl rfl rfl rfl rfl rfl ?_
      intro hp
      have hp' : (s.leaf (c.slot M)).entry.isPresent = true := hp
      rw [hp'] at hentry
      exact hentry
  | @read i c pc hi hpc hp hnew =>
    obtain ⟨hcow, hinv⟩ := hcall hi hpc
    rcases hnew with ⟨-, stop, shared, hu⟩ | ⟨rfl, -, hc⟩
    · rw [hcow] at hu
      cases hu
    · refine hI.goto hi rfl rfl rfl rfl rfl rfl rfl ⟨hinv, ?_, hp, hc⟩
      -- a COW entry has not been replaced
      by_contra hne
      rw [(hI.changed _ hne).1] at hc
      cases hc
  | alloc hi hpc hjob ha =>
    rw [(hcall hi hpc).1] at hjob
    cases hjob
  | clear hi hpc | keep hi hpc | free hi hpc hsole | map hi hpc => exact (hcall hi hpc).2.elim
  | @reuse i c old hi hpc hsole =>
    obtain ⟨hcow, hres, horig, hop, hoc⟩ := hcall hi hpc
    have hread : s.leaf (c.slot M) = old := hfinds rfl hi hpc
    obtain ⟨hp, hw, hc⟩ := newPage_cowWritable old.entry old.entry.frame
    have hmaps : (s.leaf (c.slot M)).maps old.entry.frame = true := by
      rw [hread]
      exact maps_iff.2 ⟨hop, rfl⟩
    refine hI.resolve hi ⟨old.entry.withFlags (cowWritableFlags old.entry.flags), old.born⟩ hpc hread (hp.trans hop) hc hw
      (fun k hk hm => ?_) rfl rfl (fun g => ?_) rfl
    · rw [frame_withFlags] at hm
      exact hI.ready.alone hmaps (by rw [hread]; exact hoc) hsole hk hm
    · show s.frames.allocated g = (s.frames.allocated g || decide (g = (old.entry.withFlags _).frame))
      by_cases hg : g = old.entry.frame
      · simp [hg, hI.ready.allocated _ _ hmaps]
      · simp [hg]
  | @copy i c old f frames hi hpc hshared ha =>
    obtain ⟨hcow, hres, horig, hop, hoc⟩ := hcall hi hpc
    have hread : s.leaf (c.slot M) = old := hfinds rfl hi hpc
    obtain ⟨hp, hw, hc⟩ := newPage_cowWritable old.entry f
    obtain ⟨hfresh, halloc, -⟩ := allocFrame_spec ha
    refine hI.resolve hi ⟨.newPage f (cowWritableFlags old.entry.flags), s.frees f⟩ hpc hread (hp.trans hop) hc hw
      (fun k hk hm => ?_) rfl rfl (fun g => ?_) rfl
    · -- nobody maps a frame that was free
      rw [frame_newPage] at hm
      rw [hI.ready.allocated k f hm] at hfresh
      cases hfresh
    · show frames.allocated g = (s.frames.allocated g || decide (g = (newPage f _).frame))
      rw [halloc]
      by_cases hg : g = f
      · simp [hg]
      · simp [hg]
  | flush hi hpc hshoot => exact hI.goto hi rfl rfl rfl rfl rfl rfl rfl (hcall hi hpc).2
  | @wait i j c d hi hpc hj hd =>
    obtain ⟨hcow, hinv⟩ := hcall hi hpc
    have hnext : c.next = { c with pc := .done } := by rw [Call.next, hcow]
    rw [hnext]
    exact hI.goto hi rfl rfl rfl rfl rfl rfl rfl fun _ => (hI.changed _ hinv).1

/-- **A step that finds another entry** is a second release of the claim. -/
theorem step_bad {a : Act} (hI : Inv M pages s₀ s) (hbad : ¬ ReadHolds M s a) :
    ∃ s', faultStep M s a = some s' ∧ ¬ Exact M s₀ s' := by
  obtain ⟨i, rfl⟩ : ∃ i, a = .resume i := by
    cases a with
    | resume i => exact ⟨i, rfl⟩
    | _ => exact absurd trivial hbad
  simp only [ReadHolds, not_forall] at hbad
  obtain ⟨hsome, c, hi, hne⟩ := hbad
  obtain ⟨s', hs⟩ := isSome_iff_exists.1 hsome
  refine ⟨s', hs, fun hE => ?_⟩
  obtain ⟨old, hpc⟩ : ∃ old, c.pc = .resolve old := by
    unfold Call.finds at hne
    split at hne
    · rename_i old hpc
      exact ⟨old, hpc⟩
    · exact absurd trivial hne
  obtain ⟨-, hinv⟩ := hI.calls c (mem_of_getElem? hi)
  rw [CallInv, hpc] at hinv
  obtain ⟨hres, rfl, -, -⟩ := hinv
  rw [Call.finds, hpc] at hne
  have hstep : stepCall M s i c = some s' := by
    have hc : s.calls[i]? = some c := hi
    rw [step, hc] at hs
    exact hs
  obtain ⟨taken, hcalls⟩ : ∃ taken,
    s'.calls = s.calls.set i { c with pc := .flush, taken := taken, resolved := true } := by
    rw [stepCall, hpc] at hstep
    dsimp only [cowResolve] at hstep
    split_ifs at hstep
    · cases hstep
      exact ⟨_, rfl⟩
    · obtain ⟨⟨f, frames⟩, -, rfl⟩ := map_eq_some_iff.1 hstep
      exact ⟨_, rfl⟩
  have hrel := hE.released (c.slot M)
  rw [released_set hi hcalls rfl (.inl hres), hI.released, if_neg hne, if_pos ⟨hres, rfl, rfl⟩] at hrel
  split_ifs at hrel
  omega

end Steps

/-! ## Whole runs -/

/-- **One resolution for each page, exactly in the runs without a lost race.** From any page tables and counts that agree,
and for any number of threads that take copy-on-write faults on any pages: `Exact` holds in every state of the run if and
only if every call that goes through `cow_resolve` finds the page-table entry as it has read it. -/
theorem resolve_exact_iff (M : Machine) (pages : Finset (ℕ × ℕ)) (s₀ : System) (hready : Ready pages s₀)
    (hcalls : s₀.calls = []) (as : List Act) :
    Meets (faultStep M) (ReadHolds M) s₀ as ↔ ∀ n t, (as.take n).foldlM (faultStep M) s₀ = some t → Exact M s₀ t :=
  meets_iff_reached (Inv M pages s₀) (fun _ _ _ hI hok h => step_inv hI hok h) (fun _ _ hI hbad => step_bad hI hbad)
    (fun _ hI => hI.exact) (inv_start hready hcalls)

/-- the address spaces 0 and 1 after a fork: both map frame 5 at 0x1000, read-only and COW -/
def forked : System where
  leaf k := if k.1 < 2 ∧ k.2 = 4096 then ⟨.newPage 5 PageFlags.new.withPresent.withCow, 0⟩ else .empty
  tlb _ := none
  cow := cowShare CowTable.new 5
  frames := ⟨[6], fun f => f == 5, [], false⟩
  shoot := Shootdown.System.new
  calls := []
  late := []

theorem forked_leaf (k : ℕ × ℕ) : forked.leaf k =
    if k.1 < 2 ∧ k.2 = 4096 then ⟨.newPage 5 PageFlags.new.withPresent.withCow, 0⟩ else .empty := rfl

theorem forked_maps {k : ℕ × ℕ} {f : Pfn} (h : (forked.leaf k).maps f = true) : (k.1 < 2 ∧ k.2 = 4096) ∧ f = 5 := by
  rw [forked_leaf] at h
  split_ifs at h with hk
  · refine ⟨hk, ?_⟩
    have hf := (maps_iff.1 h).2
    exact hf.symm
  · exact absurd (maps_iff.1 h).1 (by decide)

theorem forked_find : (forked.cow.find 5 = some 2) ∧ ∀ f, f ≠ 5 → forked.cow.find f = none := by
  have hroom : CowTable.new.roomFor 5 = true := by decide +kernel
  constructor
  · decide +kernel
  · intro f hf
    show (cowShare CowTable.new 5).find f = none
    rw [find_cowShare _ _ _ hroom, if_neg hf]
    exact Lib.Table.find_empty f

theorem ready_forked : Ready {(0, 4096), (1, 4096)} forked where
  within := by
    rintro ⟨a, p⟩ f h
    obtain ⟨⟨ha, hp⟩, -⟩ := forked_maps h
    simp only [Finset.mem_insert, Finset.mem_singleton, Prod.mk.injEq]
    omega
  counted := by
    intro f
    by_cases hf : f = 5
    · subst hf
      exact ⟨2, forked_find.1, (card_filter_le _ _).trans (by decide)⟩
    · refine ⟨0, forked_find.2 f hf, ?_⟩
      rw [Nat.le_zero, card_eq_zero, claimants, filter_eq_empty_iff]
      exact fun k _ h => hf (forked_maps h.1).2
  readonly := by
    intro k k' f _ _ h
    rw [forked_leaf]
    split_ifs <;> decide
  allocated := by
    intro k f h
    obtain ⟨-, rfl⟩ := forked_maps h
    rfl

/-- two threads of address space 0 read the entry before either takes the bucket lock; then address space 1 faults -/
def racingActs : List Act :=
  [.call 0 .cow 4096, .call 1 .cow 4096, .resume 0, .resume 1, .resume 0, .resume 1, .call 2 .cow 4096,
    .resume 2, .resume 2]

/-- the second thread takes its fault after the first has stored the new entry -/
def orderedActs : List Act := [.call 0 .cow 4096, .resume 0, .resume 0, .call 1 .cow 4096, .resume 1]

/-- the first thread copies to frame 6 and gives up the claim; the second finds no entry in COW_TABLE and maps frame 5
again, writable. Two claims are gone for one mapping, frame 6 is lost, and the fork's other side, which then finds itself
alone too, writes to the same frame 5. -/
theorem resolved_twice : ∃ t, racingActs.foldlM (faultStep pair) forked = some t ∧ released pair t (0, 4096) = 2 ∧
    t.frames.allocated 6 = true ∧ (t.leaf (0, 4096)).maps 6 = false ∧ (t.leaf (1, 4096)).maps 6 = false ∧
    (t.leaf (0, 4096)).maps 5 = true ∧ (t.leaf (0, 4096)).entry.isWritable = true ∧
    (t.leaf (1, 4096)).maps 5 = true ∧ (t.leaf (1, 4096)).entry.isWritable = true := by
  decide +kernel

/-- in the other order the second thread finds nothing to do -/
theorem resolve_exact_ordered : ∃ t, orderedActs.foldlM (faultStep pair) forked = some t ∧ Exact pair forked t ∧
    released pair t (0, 4096) = 1 ∧ (t.leaf (0, 4096)).maps 6 = true := by
  have hmeets : Meets (faultStep pair) (ReadHolds pair) forked orderedActs := by decide +kernel
  refine exists_of_check (fun t => released pair t (0, 4096) = 1 ∧ (t.leaf (0, 4096)).maps 6 = true) (by decide +kernel)
    fun t ht h => ⟨?_, h⟩
  exact (resolve_exact_iff pair _ forked ready_forked rfl orderedActs).1 hmeets orderedActs.length t (by rwa [take_length])

end Rumicos.Proc.Threads.CowRace
