/-
Frames freed under a translation: `unmap_pages` and `unmap_file_pages` free a frame before they call `shootdown_page`,
and `resolve_cow_fault_inner` gives up its claim on the old frame before it does.

- `Fresh`: no CPU holds a translation to a frame that was freed after it was given to the page, and no load or store has
  gone through one. A frame freed while some TLB holds it breaks this at once.
- `StepOk`, `freed_unheld`: what keeps every run fresh. A private page leaves the page table only while no CPU holds a
  translation of it; a frame is freed only when no entry maps it, no fault is about to map it, and no other call that took
  it from a page is still in its shootdown; a copy-on-write fault that reuses its frame finds the entry it has read.

The invariant behind it (`Inv.backed`): a translation is backed by the page table or by a call that took the frame from
the page and whose shootdown has not reached the CPU.
-/
import Rumicos.Proc.Threads

namespace Rumicos.Proc.Threads

open Paging Memory Lib Function List Option PageTableEntry
open Proc.Shootdown (Cpu CpuMask FlushedSince)
open scoped Proc.Shootdown

/-! ## The property and its condition -/

/-- no translation, and no load or store so far, reaches a frame freed since it was given to the page -/
structure Fresh (s : System) : Prop where
  tlb : ∀ k m, s.tlb k = some m → m.born = s.frees m.entry.frame
  late : s.late = []

/-- nothing has run yet: the TLBs are empty, no call is under way, the page tables are arbitrary -/
structure Initial (s : System) : Prop where
  tlb : ∀ k, s.tlb k = none
  calls : s.calls = []
  shoot : s.shoot = Shootdown.System.new
  leaf : ∀ k, (s.leaf k).entry.isPresent = true → (s.leaf k).born = s.frees (s.leaf k).entry.frame
  late : s.late = []

/-- the call has stored an entry and its shootdown has not returned -/
def Call.flushing (c : Call) : Bool :=
  match c.pc with
  | .flush | .wait _ => true
  | _ => false

/-- nobody is left to reach `f`: no entry maps it, no fault is about to map it, no call that took it from a page is in its
shootdown -/
structure FreeOk (s : System) (f : Pfn) : Prop where
  leaf : ∀ k, (s.leaf k).maps f = false
  new : ∀ c ∈ s.calls, ∀ m, c.pc = .map m → m.entry.frame ≠ f
  taken : ∀ c ∈ s.calls, c.flushing = true → c.taken ≠ some f

/-- what the next step of call `c` asks of the state -/
def CallOk (M : Machine) (s : System) (c : Call) : Prop :=
  match c.pc with
  | .clear _ => c.job.shared = false → ∀ cpu, M.runs cpu = M.runs c.cpu → s.tlb (cpu, c.page) = none
  | .release old => old.entry.isCow = false ∨ s.cow.find old.entry.frame = none → FreeOk s old.entry.frame
  | .resolve old => s.cow.find old.entry.frame = none → s.leaf (c.slot M) = old
  | _ => True

def StepOk (M : Machine) (s : System) : Act → Prop
  | .resume i => ∀ c, s.calls[i]? = some c → CallOk M s c
  | _ => True

/-! ## The invariant -/

/-- the shootdown of call `c` has not reached `cpu` -/
def Unflushed (sh : Shootdown.System) (c : Call) (cpu : Cpu) : Prop :=
  match c.pc with
  | .flush => True
  | .wait j => ∀ d, sh.calls[j]? = some d → ¬ FlushedSince sh.flushes d.began cpu c.page
  | _ => False

/-- call `c` took `f` from the page and has still to invalidate it on `cpu` -/
def Covers (M : Machine) (sh : Shootdown.System) (c : Call) (cpu : Cpu) (page : ℕ) (f : Pfn) : Prop :=
  c.slot M = (M.runs cpu, page) ∧ c.taken = some f ∧ Unflushed sh c cpu

structure Inv (M : Machine) (s : System) : Prop where
  shoot : Shootdown.Inv M.online s.shoot
  waits : ∀ c ∈ s.calls, ∀ j, c.pc = .wait j →
    ∃ d, s.shoot.calls[j]? = some d ∧ d.mask = M.active (M.runs c.cpu) ∧ d.virt = c.page
  leaf : ∀ k, (s.leaf k).entry.isPresent = true → (s.leaf k).born = s.frees (s.leaf k).entry.frame
  new : ∀ c ∈ s.calls, ∀ m, c.pc = .map m → m.born = s.frees m.entry.frame
  fresh : Fresh s
  backed : ∀ cpu page m, s.tlb (cpu, page) = some m → (s.leaf (M.runs cpu, page)).maps m.entry.frame = true ∨
    ∃ c ∈ s.calls, Covers M s.shoot c cpu page m.entry.frame

theorem Initial.inv {M : Machine} {s : System} (h : Initial s) : Inv M s where
  shoot := by rw [h.shoot]; exact Shootdown.inv_new M.online
  waits := by simp [h.calls]
  leaf := h.leaf
  new := by simp [h.calls]
  fresh := ⟨fun k m hm => by simp [h.tlb k] at hm, h.late⟩
  backed := fun cpu page m hm => by simp [h.tlb] at hm

section Steps

variable {M : Machine} {s s' : System} {i : ℕ} {c c' d : Call} {cpu : Cpu} {page : ℕ} {f : Pfn}

theorem Covers.flushing {sh : Shootdown.System} (h : Covers M sh c cpu page f) : c.flushing = true := by
  have hu := h.2.2
  unfold Unflushed at hu
  unfold Call.flushing
  split at hu
  · rfl
  · rfl
  · exact hu.elim

/-- the invariant does not look at COW_TABLE, nor at the allocator beyond the freed frames -/
theorem Inv.congr (hI : Inv M s) (cow : CowTable) {frames : Frames} (hf : frames.freed = s.frames.freed) :
    Inv M { s with cow := cow, frames := frames } := by
  have hfrees : ∀ g, System.frees { s with cow := cow, frames := frames } g = s.frees g := fun g => by
    show frames.freed.count g = _
    rw [hf]; rfl
  constructor
  · exact hI.shoot
  · exact hI.waits
  · intro k hk
    rw [hfrees]
    exact hI.leaf k hk
  · intro c hc m hm
    rw [hfrees]
    exact hI.new c hc m hm
  · exact ⟨fun k m hm => by rw [hfrees]; exact hI.fresh.tlb k m hm, hI.fresh.late⟩
  · exact hI.backed

/-- a call moves on without a store: it was not in its shootdown, or nothing is left for it to invalidate -/
theorem Inv.goto (hI : Inv M s) (hi : s.calls[i]? = some c)
    (hwait : ∀ j, c'.pc ≠ .wait j) (hmap : ∀ m, c'.pc = .map m → m.born = s.frees m.entry.frame)
    (hcov : ∀ cpu page f, Covers M s.shoot c cpu page f → Covers M s.shoot c' cpu page f) :
    Inv M (s.goto i c') := by
  have hlt := (List.getElem?_eq_some_iff.1 hi).1
  constructor
  · exact hI.shoot
  · exact forall_mem_set hI.waits fun j hj => absurd hj (hwait j)
  · exact hI.leaf
  · exact forall_mem_set hI.new hmap
  · exact ⟨hI.fresh.tlb, hI.fresh.late⟩
  · intro cpu page m hm
    refine (hI.backed cpu page m hm).imp_right ?_
    rintro ⟨d, hd, hcd⟩
    by_cases hdc : d = c
    · subst hdc
      exact ⟨c', mem_set hlt _, hcov _ _ _ hcd⟩
    · exact ⟨d, mem_set_of_ne hi hd hdc, hcd⟩

theorem not_covers {sh : Shootdown.System} (h : c.flushing = false) : ¬ Covers M sh c cpu page f :=
  fun hc => by simp [hc.flushing] at h

theorem Inv.go (hI : Inv M s) (hi : s.calls[i]? = some c) (hc : c.flushing = false)
    (hwait : ∀ j, c'.pc ≠ .wait j) (hmap : ∀ m, c'.pc = .map m → m.born = s.frees m.entry.frame) : Inv M (s.goto i c') :=
  hI.goto hi hwait hmap fun _ _ _ h => absurd h (not_covers hc)

/-- **A store to the page table.** Translations that lose their entry are left to the call's shootdown; a store without
one must find no translation of the page. -/
theorem Inv.store (hI : Inv M s) (hi : s.calls[i]? = some c) (hc : c.flushing = false) {new : Mapping} {pc : Pc}
    (hnew : new.entry.isPresent = true → new.born = s.frees new.entry.frame) (hpc : ∀ j, pc ≠ .wait j)
    (hmap : ∀ m, pc ≠ .map m)
    (hheld : pc = .flush ∨ ∀ cpu, M.runs cpu = M.runs c'.cpu → s.tlb (cpu, c'.page) = none) :
    Inv M (s.store M i c' new pc) := by
  have hlt := (List.getElem?_eq_some_iff.1 hi).1
  constructor
  · exact hI.shoot
  · exact forall_mem_set hI.waits fun j hj => absurd hj (hpc j)
  · intro k hk
    change (update s.leaf (c'.slot M) new k).born = s.frees (update s.leaf (c'.slot M) new k).entry.frame
    change (update s.leaf (c'.slot M) new k).entry.isPresent = true at hk
    rw [update_apply] at hk ⊢
    split_ifs at hk ⊢ with he
    · exact hnew hk
    · exact hI.leaf k hk
  · exact forall_mem_set hI.new fun m hm => absurd hm (hmap m)
  · exact ⟨hI.fresh.tlb, hI.fresh.late⟩
  · intro cpu page m hm
    change (update s.leaf (c'.slot M) new (M.runs cpu, page)).maps m.entry.frame = true ∨ _
    rw [update_apply]
    rcases hI.backed cpu page m hm with hb | ⟨d, hd, hcd⟩
    · split_ifs with he
      · obtain ⟨hp, hf⟩ := maps_iff.1 hb
        by_cases hn : new.maps m.entry.frame = true
        · exact .inl hn
        · -- the entry loses the frame
          right
          rcases hheld with rfl | hheld
          · refine ⟨_, mem_set hlt _, he.symm, ?_, trivial⟩
            rw [he] at hp hf
            rw [takenOut, hf, if_pos (by simp [hp, hn])]
          · obtain ⟨h1, h2⟩ := Prod.mk.inj he
            have hnone := hheld cpu h1
            rw [← h2] at hnone
            exact absurd (hnone.symm.trans hm) (by simp)
      · exact .inl hb
    · refine .inr ⟨d, mem_set_of_ne hi hd ?_, hcd⟩
      rintro rfl
      exact not_covers hc hcd

/-- a load or store caches a translation that is in the TLB or in the page table already -/
theorem Inv.use (hI : Inv M s) {m : Mapping} (hm : s.tlb (cpu, page) = some m ∨ s.leaf (M.runs cpu, page) = m)
    (hp : m.entry.isPresent = true) :
    Inv M { s with
      tlb := update s.tlb (cpu, page) (some m)
      late := if m.born = s.frees m.entry.frame then s.late else (cpu, page) :: s.late } := by
  have hborn : m.born = s.frees m.entry.frame := by
    rcases hm with hm | rfl
    · exact hI.fresh.tlb _ m hm
    · exact hI.leaf _ hp
  rw [if_pos hborn]
  refine ⟨hI.shoot, hI.waits, hI.leaf, hI.new, ⟨?_, hI.fresh.late⟩, ?_⟩
  · intro k m' hm'
    change update s.tlb (cpu, page) (some m) k = some m' at hm'
    rw [update_apply] at hm'
    split_ifs at hm' with he
    · cases hm'
      exact hborn
    · exact hI.fresh.tlb k m' hm'
  · intro t p m' hm'
    change update s.tlb (cpu, page) (some m) (t, p) = some m' at hm'
    rw [update_apply] at hm'
    split_ifs at hm' with he
    · cases hm'
      obtain ⟨rfl, rfl⟩ := Prod.mk.inj he
      rcases hm with hm | rfl
      · exact hI.backed _ _ m hm
      · exact .inl (maps_iff.2 ⟨hp, rfl⟩)
    · exact hI.backed t p m' hm'

theorem Inv.shrink (hI : Inv M s) {tlb : Cpu × ℕ → Option Mapping} (h : ∀ k m, tlb k = some m → s.tlb k = some m) :
    Inv M { s with tlb := tlb } :=
  ⟨hI.shoot, hI.waits, hI.leaf, hI.new, ⟨fun k m hm => hI.fresh.tlb k m (h k m hm), hI.fresh.late⟩,
    fun cpu page m hm => hI.backed cpu page m (h _ m hm)⟩

theorem Inv.call (hI : Inv M s) (cpu : Cpu) (job : Job) (page : ℕ) :
    Inv M { s with calls := s.calls ++ [⟨cpu, job, page, .start, none, false⟩] } := by
  refine ⟨hI.shoot, ?_, hI.leaf, ?_, ⟨hI.fresh.tlb, hI.fresh.late⟩, ?_⟩
  · exact forall_mem_append.2 ⟨hI.waits, forall_mem_singleton.2 nofun⟩
  · exact forall_mem_append.2 ⟨hI.new, forall_mem_singleton.2 nofun⟩
  · intro t p m hm
    refine (hI.backed t p m hm).imp_right ?_
    rintro ⟨d, hd, hcd⟩
    exact ⟨d, mem_append_left _ hd, hcd⟩

/-- with nobody left to reach `f`, no TLB holds it -/
theorem Inv.unheld (hI : Inv M s) (hok : FreeOk s f) {m : Mapping} (hm : s.tlb (cpu, page) = some m) :
    m.entry.frame ≠ f := by
  rintro rfl
  rcases hI.backed cpu page m hm with hb | ⟨d, hd, hcd⟩
  · simp [hok.leaf] at hb
  · exact hok.taken d hd hcd.flushing hcd.2.1

theorem frees_freeFrame (s : System) (f : Pfn) {g : Pfn} (hg : g ≠ f) :
    System.frees { s with frames := freeFrame s.frames f } g = s.frees g := by
  show (f :: s.frames.freed).count g = s.frames.freed.count g
  rw [count_cons_of_ne (Ne.symm hg)]

/-- **A frame nobody can reach is freed.** -/
theorem Inv.free (hI : Inv M s) (hok : FreeOk s f) : Inv M { s with frames := freeFrame s.frames f } := by
  refine ⟨hI.shoot, hI.waits, ?_, ?_, ⟨?_, hI.fresh.late⟩, hI.backed⟩
  · intro k hk
    have hne : (s.leaf k).entry.frame ≠ f := fun he => by
      have hmaps := maps_iff.2 ⟨hk, he⟩
      simp [hok.leaf k] at hmaps
    rw [frees_freeFrame s f hne]
    exact hI.leaf k hk
  · intro c hc m hm
    rw [frees_freeFrame s f (hok.new c hc m hm)]
    exact hI.new c hc m hm
  · intro k m hm
    rw [frees_freeFrame s f (hI.unheld hok hm)]
    exact hI.fresh.tlb k m hm

/-- **`shootdown_page` is called**: nothing has been invalidated since -/
theorem Inv.flush (hI : Inv M s) (hi : s.calls[i]? = some c) (hpc : c.pc = .flush) {shoot : Shootdown.System}
    (h : Shootdown.step M.online s.shoot (.call c.cpu (M.active (M.runs c.cpu)) c.page) = some shoot) :
    Inv M ({ s with shoot := shoot }.goto i { c with pc := .wait s.shoot.calls.length }) := by
  have hlt := (List.getElem?_eq_some_iff.1 hi).1
  have hshoot := Shootdown.step_inv hI.shoot h
  cases h
  -- the calls of `shootdown_page` that were there keep their positions
  have hold : ∀ {j : ℕ} {d e : Shootdown.Call}, s.shoot.calls[j]? = some d →
      (s.shoot.calls ++ [e])[j]? = some d := fun hd => by
    rw [getElem?_append_left (List.getElem?_eq_some_iff.1 hd).1]
    exact hd
  refine ⟨hshoot, ?_, hI.leaf, ?_, ⟨hI.fresh.tlb, hI.fresh.late⟩, ?_⟩
  · refine forall_mem_set (fun d hd j hj => ?_) fun j hj => ?_
    · obtain ⟨e, he, hm, hv⟩ := hI.waits d hd j hj
      exact ⟨e, hold he, hm, hv⟩
    · obtain rfl := Pc.wait.inj hj
      exact ⟨_, getElem?_concat_length, rfl, rfl⟩
  · exact forall_mem_set hI.new nofun
  · intro cpu page m hm
    refine (hI.backed cpu page m hm).imp_right ?_
    rintro ⟨d, hd, hslot, htaken, hu⟩
    by_cases hdc : d = c
    · subst hdc
      refine ⟨_, mem_set hlt _, hslot, htaken, ?_⟩
      intro e he
      cases he.symm.trans getElem?_concat_length
      rintro ⟨n, hn, hf⟩
      exact absurd (List.getElem?_eq_some_iff.1 hf).1 (not_lt.2 hn)
    · refine ⟨d, mem_set_of_ne hi hd hdc, hslot, htaken, ?_⟩
      unfold Unflushed at hu ⊢
      split at hu
      · trivial
      · rename_i j hj
        intro e he
        obtain ⟨e', he', -, -⟩ := hI.waits d hd j hj
        cases (hold he').symm.trans he
        exact hu _ he'
      · exact hu

/-- **`shootdown_page` returns**: no CPU of the address space holds the frame any more -/
theorem Inv.wait (hI : Inv M s) (hi : s.calls[i]? = some c) {j : ℕ} (hpc : c.pc = .wait j) {d : Shootdown.Call}
    (hj : s.shoot.calls[j]? = some d) (hd : d.pc = .returned) : Inv M (s.goto i c.next) := by
  have hnext : c.next.pc = .start ∨ c.next.pc = .done := by
    unfold Call.next
    split
    · exact .inl rfl
    · exact .inr rfl
  refine hI.goto hi ?_ ?_ ?_
  · intro k hk
    rcases hnext with h | h <;> simp [h] at hk
  · intro m hm
    rcases hnext with h | h <;> simp [h] at hm
  · rintro cpu page f ⟨hslot, -, hu⟩
    obtain ⟨e, he, hmask, hvirt⟩ := hI.waits c (mem_of_getElem? hi) j hpc
    cases hj.symm.trans he
    rw [Unflushed, hpc] at hu
    have hmem : d.mask.getLsbD cpu = true := by
      rw [hmask, (Prod.mk.inj hslot).1]
      exact M.marked cpu
    have hdone := hI.shoot.returned (mem_of_getElem? hj) hd hmem
    rw [hvirt] at hdone
    exact absurd hdone (hu d hj)

/-- **A step inside the shootdown**: what it invalidates leaves the TLBs -/
theorem Inv.flushed (hI : Inv M s) {b : Shootdown.Act} {shoot : Shootdown.System}
    (h : Shootdown.step M.online s.shoot b = some shoot) : Inv M (s.flushed shoot) := by
  obtain ⟨gs, hgs⟩ := Shootdown.step_flushes h
  have htlb : ∀ k m, (s.flushed shoot).tlb k = some m → k ∉ gs ∧ s.tlb k = some m := by
    intro k m hm
    change (if k ∈ shoot.flushes.drop s.shoot.flushes.length then none else s.tlb k) = some m at hm
    rw [hgs, drop_left] at hm
    split_ifs at hm with hk
    exact ⟨hk, hm⟩
  refine ⟨Shootdown.step_inv hI.shoot h, ?_, hI.leaf, hI.new,
    ⟨fun k m hm => hI.fresh.tlb k m (htlb k m hm).2, hI.fresh.late⟩, ?_⟩
  · intro c hc j hj
    obtain ⟨d, hd, hm, hv⟩ := hI.waits c hc j hj
    obtain ⟨d', hd', hm', hv', -⟩ := Shootdown.step_call h hd
    exact ⟨d', hd', hm'.trans hm, hv'.trans hv⟩
  · intro cpu page m hm
    obtain ⟨hk, hm⟩ := htlb _ m hm
    refine (hI.backed cpu page m hm).imp_right ?_
    rintro ⟨c, hc, hslot, htaken, hu⟩
    refine ⟨c, hc, hslot, htaken, ?_⟩
    unfold Unflushed at hu ⊢
    split at hu
    · trivial
    · rename_i j hj
      intro d' hd'
      obtain ⟨d, hd, -, -⟩ := hI.waits c hc j hj
      obtain ⟨e, he, -, -, hbegan⟩ := Shootdown.step_call h hd
      cases he.symm.trans hd'
      rintro ⟨n, hn, hf⟩
      change shoot.flushes[n]? = _ at hf
      rw [hgs, getElem?_append] at hf
      split_ifs at hf with hlt
      · exact hu d hd ⟨n, hbegan ▸ hn, hf⟩
      · rw [(Prod.mk.inj hslot).2] at hf
        exact hk (mem_of_getElem? hf)
    · exact hu

/-- **A step within the condition keeps the invariant.** -/
theorem step_inv {a : Act} (hI : Inv M s) (hok : StepOk M s a) (h : step M s a = some s') : Inv M s' := by
  cases step_moves h with
  | use hm hp => exact hI.use hm hp
  | evict cpu page =>
    refine hI.shrink fun k m hm => ?_
    rw [update_apply] at hm
    split_ifs at hm
    exact hm
  | call cpu job page ha => exact hI.call cpu job page
  | skip page hi hpc hnew hjob =>
    refine hI.go hi (by simp [Call.flushing, hpc]) ?_ ?_ <;> rcases hnew with rfl | rfl <;> simp
  | read hi hpc hp hnew =>
    refine hI.go hi (by simp [Call.flushing, hpc]) ?_ ?_ <;> rcases hnew with ⟨rfl, -⟩ | ⟨rfl, -⟩ <;> simp
  | @alloc i c flags f frames hi hpc hjob ha =>
    have hfreed := (allocFrame_spec ha).2.2.1
    refine (hI.congr s.cow hfreed).go hi (by simp [Call.flushing, hpc]) (by simp) fun m hm => ?_
    obtain rfl := Pc.map.inj hm
    show s.frees f = frames.freed.count _
    rw [hfreed, frame_newPage]
    rfl
  | @clear i c old hi hpc =>
    have hc := hok c hi
    rw [CallOk, hpc] at hc
    refine hI.store hi (by simp [Call.flushing, hpc]) (fun hp => absurd hp (by decide)) ?_ ?_ ?_
    · split_ifs <;> simp
    · split_ifs <;> simp
    · by_cases hs : c.job.shared = true
      · exact .inl (if_pos hs)
      · exact .inr (hc (Bool.eq_false_of_not_eq_true hs))
  | keep hi hpc =>
    exact Inv.congr (hI.go hi (by simp [Call.flushing, hpc]) (by simp) (by simp)) _ rfl
  | @free i c old cow hi hpc hsole =>
    have hc := hok c hi
    rw [CallOk, hpc] at hc
    exact Inv.congr ((hI.free (hc hsole)).go hi (by simp [Call.flushing, hpc]) (by simp) (by simp)) cow rfl
  | @reuse i c old hi hpc hsole =>
    have hc := hok c hi
    rw [CallOk, hpc] at hc
    refine (hI.congr (cowUnshare s.cow old.entry.frame) rfl).store hi (by simp [Call.flushing, hpc]) ?_ (by simp) (by simp)
      (.inl rfl)
    -- the frame is still the one of the page
    intro hp
    have hp' : old.entry.isPresent = true := (newPage_cowWritable old.entry _).1.symm.trans hp
    rw [frame_withFlags]
    have hleaf := hI.leaf (c.slot M)
    rw [hc hsole] at hleaf
    exact hleaf hp'
  | @copy i c old f frames hi hpc hshared ha =>
    have hfreed := (allocFrame_spec ha).2.2.1
    refine (hI.congr (cowUnshare s.cow old.entry.frame) hfreed).store hi (by simp [Call.flushing, hpc]) ?_ (by simp)
      (by simp) (.inl rfl)
    intro _
    show s.frees f = frames.freed.count _
    rw [hfreed, frame_newPage]
    rfl
  | map hi hpc =>
    exact hI.store hi (by simp [Call.flushing, hpc]) (fun _ => hI.new _ (mem_of_getElem? hi) _ hpc) (by simp) (by simp)
      (.inl rfl)
  | flush hi hpc hshoot => exact hI.flush hi hpc hshoot
  | wait hi hpc hj hd => exact hI.wait hi hpc hj hd
  | shoot hshoot => exact hI.flushed hshoot

theorem freed_of_step {a : Act} (h : step M s a = some s') :
    s'.frames.freed = s.frames.freed ∨ ∃ i c old, a = .resume i ∧ s.calls[i]? = some c ∧ c.pc = .release old ∧
      (old.entry.isCow = false ∨ s.cow.find old.entry.frame = none) ∧
      s'.frames.freed = old.entry.frame :: s.frames.freed := by
  cases step_moves h with
  | alloc hi hpc hjob ha | copy hi hpc hshared ha => exact .inl (allocFrame_spec ha).2.2.1
  | @free i c old cow hi hpc hsole => exact .inr ⟨i, c, old, rfl, hi, hpc, hsole, rfl⟩
  | _ => exact .inl rfl

end Steps

/-! ## Whole runs -/

/-- **No frame is freed under a translation.** In every run that starts with empty TLBs and whose steps all meet `StepOk`,
for any machine and any interleaving: when a frame is freed no TLB holds a translation to it, and no load or store has
reached a frame freed since it was given to the page. -/
theorem freed_unheld (M : Machine) (s : System) (h0 : Initial s) (as : List Act) (a : Act) (t t' : System)
    (hok : Meets (step M) (StepOk M) s (as ++ [a])) (hrun : run M s as = some t) (hstep : step M t a = some t') :
    (∀ f, t'.frames.freed = f :: t.frames.freed → ∀ k m, t.tlb k = some m → m.entry.frame ≠ f) ∧ t'.late = [] := by
  obtain ⟨hmeets, hlast⟩ := meets_append.1 hok
  have hI : Inv M t := run_inv (Inv M) (fun s a s' hI hok h => step_inv hI hok h) h0.inv hmeets hrun
  have ha : StepOk M t a := (hlast t hrun).1
  refine ⟨fun f hf k m hm => ?_, (step_inv hI ha hstep).fresh.late⟩
  rcases freed_of_step hstep with hsame | ⟨i, c, old, rfl, hi, hpc, hsole, hfreed⟩
  · exact absurd (hsame.symm.trans hf).symm (cons_ne_self _ _)
  · obtain ⟨rfl, -⟩ := List.cons.inj (hf.symm.trans hfreed)
    have hc := ha c hi
    rw [CallOk, hpc] at hc
    exact hI.unheld (hc hsole) hm

/-- a page at 0x1000 with frame 5 -/
def onePage : System where
  leaf := update (fun _ => .empty) (0, 4096) ⟨.newPage 5 PageFlags.new.withPresent.withWritable, 0⟩
  tlb _ := none
  cow := CowTable.new
  frames := ⟨[5], fun f => f == 5, [], false⟩
  shoot := Shootdown.System.new
  calls := []
  late := []

theorem initial_onePage : Initial onePage := by
  refine ⟨fun _ => rfl, rfl, rfl, fun k hk => ?_, rfl⟩
  change (update (fun _ => Mapping.empty) (0, 4096) _ k).entry.isPresent = true at hk
  change (update (fun _ => Mapping.empty) (0, 4096) _ k).born = 0
  rw [update_apply] at hk ⊢
  split_ifs <;> rfl

/-- the unmap of the page up to the release of its frame -/
def unmapActs : List Act := [.call 0 (.unmap 8192 false) 4096, .resume 0, .resume 0]

/-- CPU 1 stores to the page and loses the translation, and CPU 0 unmaps the page -/
def evictedActs : List Act := .walk 1 4096 true :: .evict 1 4096 :: unmapActs

/-- the translation has left the TLB of CPU 1 before the unmap: the frame is freed with no TLB holding it -/
theorem freed_unheld_quiet : ∃ t t', Meets (step pair) (StepOk pair) onePage (evictedActs ++ [.resume 0]) ∧
    run pair onePage evictedActs = some t ∧ step pair t (.resume 0) = some t' ∧
    t'.frames.freed = 5 :: t.frames.freed ∧ ∀ k m, t.tlb k = some m → m.entry.frame ≠ 5 := by
  obtain ⟨t, ht, t', ht', hfreed⟩ : ∃ t, run pair onePage evictedActs = some t ∧
      ∃ t', step pair t (.resume 0) = some t' ∧ t'.frames.freed = 5 :: t.frames.freed := by decide +kernel
  have hmeets : Meets (step pair) (StepOk pair) onePage (evictedActs ++ [.resume 0]) := by
    -- neither the walk nor the eviction is a step of a call
    refine ⟨trivial, fun s h => ⟨trivial, fun s0 h0 => ⟨trivial, fun s1 h1 => ?_⟩⟩⟩
    cases h
    cases h0
    cases h1
    refine ⟨fun c hc => ?_, fun s2 h2 => ?_⟩
    · cases hc
      trivial
    cases h2
    refine ⟨fun c hc => ?_, fun s3 h3 => ?_⟩
    · cases hc
      intro _ cpu _
      change update (update (fun _ => none) (1, 4096) _) (1, 4096) none (cpu, 4096) = none
      rw [update_idem, update_apply]
      split_ifs <;> rfl
    cases h3
    refine ⟨fun c hc => ?_, fun _ _ => trivial⟩
    cases hc
    refine fun _ => ⟨fun k => ?_, fun d hd m hm => ?_, fun d hd hf => ?_⟩
    · change (update (update (fun _ => Mapping.empty) (0, 4096) _) (0, 4096) .empty k).maps _ = false
      rw [update_idem, update_apply]
      split_ifs <;> rfl
    · obtain rfl := mem_singleton.1 hd
      cases hm
    · obtain rfl := mem_singleton.1 hd
      cases hf
  exact ⟨t, t', hmeets, ht, ht', hfreed,
    (freed_unheld pair onePage initial_onePage evictedActs _ t t' hmeets ht ht').1 5 hfreed⟩

/-- another address space takes a page fault and gets the frame, then CPU 1 stores through what it has cached -/
def reuseActs : List Act :=
  [.call 2 (.anon PageFlags.new.withPresent) 4096, .resume 1, .resume 1, .hit 1 4096 true]

/-- CPU 1 stores to the page and CPU 0 unmaps it: the frame is freed with the translation in the TLB of CPU 1, goes to
another address space, and CPU 1 stores to it there -/
theorem freed_loaded : ∃ M s as t t' k m f bs u, Initial s ∧ run M s as = some t ∧ step M t (.resume 0) = some t' ∧
    t'.frames.freed = f :: t.frames.freed ∧ t.tlb k = some m ∧ m.entry.frame = f ∧ run M t' bs = some u ∧
    u.late ≠ [] := by
  obtain ⟨t, ht, t', ht', hfreed, ⟨m, hm, hf⟩, u, hu, hlate⟩ : ∃ t, run pair onePage (.walk 1 4096 true :: unmapActs) =
    some t ∧
      ∃ t', step pair t (.resume 0) = some t' ∧ t'.frames.freed = 5 :: t.frames.freed ∧
        (∃ m, t.tlb (1, 4096) = some m ∧ m.entry.frame = 5) ∧ ∃ u, run pair t' reuseActs = some u ∧ u.late ≠ [] := by
          decide +kernel
  exact ⟨pair, onePage, _, t, t', (1, 4096), m, 5, reuseActs, u, initial_onePage, ht, ht', hfreed, hm, hf, hu, hlate⟩

end Rumicos.Proc.Threads
