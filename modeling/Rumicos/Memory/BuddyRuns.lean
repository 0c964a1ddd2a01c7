/-
Runs of the buddy allocator.

A run boots on a memory map and then makes any sequence of calls: allocations, frees of blocks the callers hold (whole or
frame by frame), and writes of the callers into what they hold. `held` is the history of what is handed out.
-/
import Rumicos.Lib.Run
import Rumicos.Memory.BuddyInit

namespace Rumicos.Memory.Buddy

open Lib Lib.Dyadic Function List Option

/-! ## The calls -/

/-- the allocator `b` has the pool `P`, with `out` handed out -/
structure Ready (Q : Block → Prop) (B L : List Block) (b : NumaBuddy) (P : Pool) (out : List Block) : Prop where
  holds : Holds Q B L b.arena P out
  counted : Counted B b.arena out
  /-- frame 0 is never handed out -/
  nonzero : ∀ c ∈ out, c.1 ≠ 0
  live : b.node = none → out = []

section Calls

variable {Q : Block → Prop} {B L out : List Block} {b : NumaBuddy} {P : Pool} {a k : ℕ}

theorem Ready.perm {out' : List Block} (h : Ready Q B L b P out) (hp : out.Perm out') : Ready Q B L b P out' := by
  refine ⟨⟨h.holds.spells, account_perm hp h.holds.account, h.holds.kind, fun c hc => ?_⟩, ?_, fun c hc => ?_,
    fun hn => ?_⟩
  · exact h.holds.outKind c (hp.mem_iff.2 hc)
  · rw [Counted, ← weight_perm hp]
    exact h.counted
  · exact h.nonzero c (hp.mem_iff.2 hc)
  · have hnil := h.live hn
    subst hnil
    exact hp.nil_eq.symm

theorem Ready.pool_empty (h : Ready Q B L b P out) (hn : b.node = none) (hk : k ≤ maxOrder) : P k = [] := by
  have hl := h.holds.spells k hk
  have hhead : b.arena.node.freeLists k = 0 := by rw [NumaBuddy.arena, hn]; rfl
  rw [hhead] at hl
  exact linked_unique hl (linked_empty _)

theorem pool_ne_zero (h : Ready Q B L b P out) (hk : k ≤ maxOrder) (ha : a ∈ P k) : a ≠ 0 :=
  (h.holds.spells k hk).ne_zero a ha

theorem numaAlloc_spec (hM : Supply Q B)
    (h : Ready Q B L b P out) (hk : k ≤ maxOrder) :
    ((∀ j, k ≤ j → j ≤ maxOrder → P j = []) ∧ b.allocOrder k = some (none, b)) ∨
      ∃ j a l b', k ≤ j ∧ j ≤ maxOrder ∧ (∀ i, k ≤ i → i < j → P i = []) ∧ P j = a :: l ∧
        b.allocOrder k = some (some a, b') ∧ Ready Q B L b' (splitPool P k j a l) ((a, k) :: out) := by
  have hU := hM.fits
  rcases hn : b.node with _ | node
  · exact .inl ⟨fun j _ hj => h.pool_empty hn hj, by simp [NumaBuddy.allocOrder, hn]⟩
  · have harena : b.arena = ⟨node, b.mem⟩ := by simp [NumaBuddy.arena, hn]
    have hcalls : b.allocOrder k = (b.arena.allocOrder k).map fun r => (r.1, ⟨some r.2.node, r.2.mem⟩) := by
      simp [NumaBuddy.allocOrder, hn, harena]
    rcases allocOrder_spec hM.kind hM.once h.holds hk with ⟨hall, hnone⟩ | ⟨j, a, l, s', hkj, hj, hlow, hP, hs, hH, hf⟩
    · refine .inl ⟨hall, ?_⟩
      rw [hcalls, hnone, harena, map_some, ← hn]
    · have hmem : a ∈ P j := by
        rw [hP]
        exact mem_cons_self
      refine .inr ⟨j, a, l, ⟨some s'.node, s'.mem⟩, hkj, hj, hlow, hP, by rw [hcalls, hs]; rfl, hH, ?_, ?_, ?_⟩
      · -- the counter covers the block, so it does not wrap
        have hacc := hH.account _ splits_units
        have hcnt := h.counted
        have hu : units (a, k) = 2 ^ k := rfl
        unfold Counted at hcnt ⊢
        show s'.node.free + _ = _
        rw [weight_cons] at hacc ⊢
        omega
      · intro c hc
        rcases mem_cons.1 hc with rfl | hc
        · exact pool_ne_zero h hj hmem
        · exact h.nonzero c hc
      · simp

theorem numaFree_spec (hM : Supply Q B)
    (h : Ready Q B L b P ((a, k) :: out)) :
    ∃ b', b.freeOrder a k = some b' ∧ Ready Q B L b' (update P k (a :: P k)) out := by
  have hU := hM.fits
  rcases hn : b.node with _ | node
  · exact absurd (h.live hn) (by simp)
  · have harena : b.arena = ⟨node, b.mem⟩ := by simp [NumaBuddy.arena, hn]
    have hcalls : b.freeOrder a k = (b.arena.freeOrder a k).map fun s => ⟨some s.node, s.mem⟩ := by
      simp [NumaBuddy.freeOrder, hn, harena]
    obtain ⟨s', hs, hH, hf⟩ := freeOrder_spec hM.kind hM.once h.holds (h.nonzero _ mem_cons_self)
    refine ⟨⟨some s'.node, s'.mem⟩, by rw [hcalls, hs]; rfl, hH, ?_, fun c hc => ?_, by simp⟩
    · have hcnt := h.counted
      have hu : units (a, k) = 2 ^ k := rfl
      unfold Counted at hcnt ⊢
      rw [weight_cons] at hcnt
      show s'.node.free + _ = _
      omega
    · exact h.nonzero c (mem_cons_of_mem _ hc)

theorem freeAll_spec (hM : Supply Q B) (fs : List ℕ)
    (h : Ready Q B L b P (fs.map (fun f => (f, 0)) ++ out)) :
    ∃ b' P', fs.foldlM (fun (b : NumaBuddy) f => b.freeOrder f 0) b = some b' ∧ Ready Q B L b' P' out ∧
      P' 0 = fs.reverse ++ P 0 ∧ ∀ i, i ≠ 0 → P' i = P i := by
  induction fs generalizing b P with
  | nil => exact ⟨b, P, rfl, h, rfl, fun _ _ => rfl⟩
  | cons f fs ih =>
    obtain ⟨b1, hs1, h1⟩ := numaFree_spec hM h
    obtain ⟨b2, P2, hs2, h2, hz, hne⟩ := ih h1
    refine ⟨b2, P2, ?_, h2, ?_, fun i hi => ?_⟩
    · rw [foldlM_cons, hs1]
      exact hs2
    · rw [hz, reverse_cons, append_assoc]
      rfl
    · rw [hne i hi, update_of_ne hi]

theorem kind_frames (hQ : Kind Q) (h : Q (a, k)) {i : ℕ} (hi : i < 2 ^ k) : Q (a + i * 4096, 0) := by
  induction k generalizing a i with
  | zero =>
    obtain rfl : i = 0 := by simpa using hi
    simpa using h
  | succ k ih =>
    obtain ⟨hlow, hhigh⟩ := hQ.half h
    by_cases hlt : i < 2 ^ k
    · exact ih hlow hlt
    · have hsub : a + 2 ^ (k + 12) + (i - 2 ^ k) * 4096 = a + i * 4096 := by
        rw [pow_add]
        omega
      rw [← hsub]
      exact ih hhigh (by omega)

theorem freeFrames_spec (hM : Supply Q B)
    (h : Ready Q B L b P ((a, k) :: out)) :
    ∃ b' P', b.freeFrames a k = some b' ∧ Ready Q B L b' P' out ∧ P' 0 ≠ [] ∧ ∀ i, i ≠ 0 → P' i = P i := by
  have hne : a ≠ 0 := h.nonzero _ mem_cons_self
  have hframes : Ready Q B L b P (((List.range (2 ^ k)).map fun i => a + i * 4096).map (fun f => (f, 0)) ++ out) := by
    rw [List.map_map]
    have hacc := account_frames h.holds.account
    refine ⟨⟨h.holds.spells, hacc, h.holds.kind, fun c hc => ?_⟩, ?_, fun c hc => ?_, fun hn => ?_⟩
    · rcases mem_append.1 hc with hc | hc
      · obtain ⟨i, hi, rfl⟩ := mem_map.1 hc
        exact kind_frames hM.kind (h.holds.outKind _ mem_cons_self) (mem_range.1 hi)
      · exact h.holds.outKind c (mem_cons_of_mem _ hc)
    · have h1 := hacc _ splits_units
      have h2 := h.holds.account _ splits_units
      have h3 := h.counted
      unfold Counted at h3 ⊢
      simp only [Function.comp_def]
      omega
    · rcases mem_append.1 hc with hc | hc
      · obtain ⟨i, -, rfl⟩ := mem_map.1 hc
        simp only [Function.comp_apply]
        omega
      · exact h.nonzero c (mem_cons_of_mem _ hc)
    · exact absurd (h.live hn) (by simp)
  obtain ⟨b', P', hs, hR, hz, hi⟩ := freeAll_spec hM _ hframes
  refine ⟨b', P', ?_, hR, ?_, hi⟩
  · rw [NumaBuddy.freeFrames, Nat.one_shiftLeft]
    rwa [foldlM_map] at hs
  · rw [hz]
    have hpos : List.range (2 ^ k) ≠ [] := by simp
    simp [hpos]

theorem lowTries_spec (hM : Supply Q B) (tries : ℕ)
    (rejected : List ℕ) (h : Ready Q B L b P (rejected.map (fun f => (f, 0)) ++ out)) :
    ∃ r rejected' b' P', b.lowTries rejected tries = some (r, rejected', b') ∧
      Ready Q B L b' P' (rejected'.map (fun f => (f, 0)) ++ (r.toList.map (fun f => (f, 0)) ++ out)) := by
  induction tries generalizing b P rejected with
  | zero => exact ⟨none, rejected, b, P, rfl, h⟩
  | succ tries ih =>
    rcases numaAlloc_spec hM h (Nat.zero_le maxOrder) with ⟨-, hs⟩ | ⟨j, a, l, b1, -, -, -, -, hs, h1⟩
    · exact ⟨none, rejected, b, P, by rw [NumaBuddy.lowTries, hs], h⟩
    · by_cases hlow : a < low4gLimit
      · refine ⟨some a, rejected, b1, _, ?_, h1.perm ?_⟩
        · rw [NumaBuddy.lowTries, hs]
          exact if_pos hlow
        · exact perm_middle.symm
      · have hmove : Ready Q B L b1 (splitPool P 0 j a l) ((rejected ++ [a]).map (fun f => (f, 0)) ++ out) := by
          refine h1.perm ?_
          rw [map_append, append_assoc]
          exact perm_middle.symm
        obtain ⟨r, rejected', b2, P2, hs2, h2⟩ := ih _ hmove
        refine ⟨r, rejected', b2, P2, ?_, h2⟩
        rw [NumaBuddy.lowTries, hs]
        exact (if_neg hlow).trans hs2

theorem allocFrameBelow4g_spec (hM : Supply Q B)
    (h : Ready Q B L b P out) :
    ∃ r b' P', b.allocFrameBelow4g = some (r, b') ∧ Ready Q B L b' P' (r.toList.map (fun f => (f, 0)) ++ out) := by
  obtain ⟨r, rejected, b1, P1, hs1, h1⟩ := lowTries_spec hM 256 [] h
  obtain ⟨b2, P2, hs2, h2, -, -⟩ := freeAll_spec hM rejected h1
  refine ⟨r, b2, P2, ?_, h2⟩
  rw [NumaBuddy.allocFrameBelow4g, hs1]
  simp [hs2]

end Calls

/-! ## Runs -/

structure State where
  buddy : NumaBuddy
  /-- history: what the callers hold, with the order they got -/
  held : List Block

inductive Act where
  /-- `alloc_order`, and `alloc_frame` with order 0 -/
  | alloc (order : ℕ)
  | allocLow
  /-- a held block is freed with its order -/
  | free (b : Block)
  /-- a held block is freed frame by frame -/
  | freeFrames (b : Block)
  /-- a caller writes into what it holds -/
  | write (x : ℕ) (v : FreeFrame)

def step (s : State) : Act → Option State
  | .alloc order =>
    (s.buddy.allocOrder order).map fun r => ⟨r.2, r.1.toList.map (fun a => (a, order)) ++ s.held⟩
  | .allocLow => s.buddy.allocFrameBelow4g.map fun r => ⟨r.2, r.1.toList.map (fun a => (a, 0)) ++ s.held⟩
  | .free b => if b ∈ s.held then (s.buddy.freeOrder b.1 b.2).map fun r => ⟨r, s.held.erase b⟩ else none
  | .freeFrames b => if b ∈ s.held then (s.buddy.freeFrames b.1 b.2).map fun r => ⟨r, s.held.erase b⟩ else none
  | .write x v =>
    if ∃ b ∈ s.held, Covers 12 b x then
      some { s with buddy := { s.buddy with mem := update s.buddy.mem x v } }
    else none

/-- the callers keep to the rules: they free and write only what they hold -/
def Allowed (s : State) : Act → Prop
  | .alloc _ | .allocLow => True
  | .free b | .freeFrames b => b ∈ s.held
  | .write x _ => ∃ b ∈ s.held, Covers 12 b x

/-- `init` on an allocator that has no memory yet -/
def boot (memmap : List LimineMemmapEntry) (e : ExclusionSet) (mem : Heap) : Option State :=
  ((NumaBuddy.newUninit mem).init memmap e).map fun b => ⟨b, []⟩

/-- a whole run -/
def run (memmap : List LimineMemmapEntry) (e : ExclusionSet) (mem : Heap) (as : List Act) : Option State :=
  (boot memmap e mem).bind fun s => as.foldlM step s

section Runs

variable {Q : Block → Prop} {B L : List Block} {s : State} {P : Pool}

theorem allocOrder_large (b : NumaBuddy) {k : ℕ} (hk : maxOrder < k) : b.allocOrder k = some (none, b) := by
  rcases hn : b.node with _ | node
  · simp [NumaBuddy.allocOrder, hn]
  · have hs : (Arena.mk node b.mem).allocOrder k = some (none, ⟨node, b.mem⟩) := if_pos hk
    rw [NumaBuddy.allocOrder, hn]
    simp [hs, ← hn]

theorem ready_write (hB : ∀ x, weight (hits 12 x) B ≤ 1) (h : Ready Q B L s.buddy P s.held) {x : ℕ} {v : FreeFrame}
    (hx : ∃ b ∈ s.held, Covers 12 b x) :
    Ready Q B L { s.buddy with mem := update s.buddy.mem x v } P s.held := by
  obtain ⟨c, hc, hcx⟩ := hx
  refine ⟨⟨fun k hk => (h.holds.spells k hk).frame (fun hmem => ?_) v, h.holds.account, h.holds.kind, h.holds.outKind⟩,
    h.counted, h.nonzero, h.live⟩
  have hacc := h.holds.account _ (splits_hits x)
  have h1 := hits_pos hc hcx
  have h2 : 1 ≤ weight (hits 12 x) (freeBlocks P) :=
    hits_pos (mem_blocks.2 ⟨Nat.lt_succ_of_le hk, hmem⟩) (covers_self (x, k))
  have h3 := hB x
  omega

/-- **Every call the rules allow succeeds and keeps the account.** -/
theorem step_total (hM : Supply Q B)
    (h : Ready Q B L s.buddy P s.held) {a : Act} (ha : Allowed s a) :
    ∃ s' P', step s a = some s' ∧ Ready Q B L s'.buddy P' s'.held := by
  rcases a with k | _ | b | b | ⟨x, v⟩
  · by_cases hk : k ≤ maxOrder
    · rcases numaAlloc_spec hM h hk with ⟨-, hs⟩ | ⟨j, a, l, b', -, -, -, -, hs, hR⟩
      · exact ⟨⟨s.buddy, s.held⟩, P, by rw [step, hs]; rfl, h⟩
      · exact ⟨⟨b', (a, k) :: s.held⟩, _, by rw [step, hs]; rfl, hR⟩
    · exact ⟨⟨s.buddy, s.held⟩, P, by rw [step, allocOrder_large _ (not_le.1 hk)]; rfl, h⟩
  · obtain ⟨r, b', P', hs, hR⟩ := allocFrameBelow4g_spec hM h
    exact ⟨⟨b', _⟩, P', by rw [step, hs]; rfl, hR⟩
  · have hmem : b ∈ s.held := ha
    obtain ⟨b', hs, hR⟩ := numaFree_spec hM (h.perm (perm_cons_erase hmem))
    refine ⟨⟨b', s.held.erase b⟩, _, ?_, hR⟩
    rw [step, if_pos hmem, hs]
    rfl
  · have hmem : b ∈ s.held := ha
    obtain ⟨b', P', hs, hR, -⟩ := freeFrames_spec hM (h.perm (perm_cons_erase hmem))
    refine ⟨⟨b', s.held.erase b⟩, P', ?_, hR⟩
    rw [step, if_pos hmem, hs]
    rfl
  · exact ⟨_, P, if_pos ha, ready_write hM.once h ha⟩

theorem step_ready (hM : Supply Q B) {s' : State}
    {a : Act} (h : ∃ P, Ready Q B L s.buddy P s.held) (hs : step s a = some s') :
    ∃ P, Ready Q B L s'.buddy P s'.held := by
  obtain ⟨P, h⟩ := h
  -- a step that is taken is one the rules allow
  have ha : Allowed s a := by
    by_contra hno
    rcases a with k | _ | b | b | ⟨x, v⟩
    · exact hno trivial
    · exact hno trivial
    · exact absurd hs (by simp [step, show b ∉ s.held from hno])
    · exact absurd hs (by simp [step, show b ∉ s.held from hno])
    · rw [step, if_neg (show ¬ ∃ b ∈ s.held, Covers 12 b x from hno)] at hs
      exact absurd hs (by simp)
  obtain ⟨s1, P1, hs1, h1⟩ := step_total hM h ha
  cases hs1.symm.trans hs
  exact ⟨P1, h1⟩

end Runs

variable {memmap : List LimineMemmapEntry}

theorem boot_ready (h : GoodMap memmap) (e : ExclusionSet) (mem : Heap) :
    ∃ s P L, boot memmap e mem = some s ∧ s.held = [] ∧
      Ready (InMap memmap) (mapBlocks memmap e) L s.buddy P s.held ∧ (L = [] ↔ ∀ b ∈ mapBlocks memmap e, b.1 ≠ 0) := by
  obtain ⟨b, P, L, hs, hH, hc, hL⟩ := init_spec h e mem
  exact ⟨⟨b, []⟩, P, L, by rw [boot, hs]; rfl, rfl, ⟨hH, hc, by simp, fun _ => rfl⟩, hL⟩

theorem run_ready (h : GoodMap memmap) {e : ExclusionSet} {mem : Heap} {as : List Act} {s : State}
    (hs : run memmap e mem as = some s) :
    ∃ P L, Ready (InMap memmap) (mapBlocks memmap e) L s.buddy P s.held ∧
      (L = [] ↔ ∀ b ∈ mapBlocks memmap e, b.1 ≠ 0) := by
  obtain ⟨s0, P0, L, hboot, -, hR, hL⟩ := boot_ready h e mem
  rw [run, hboot] at hs
  obtain ⟨P, hP⟩ := foldlM_inv (fun _ s => ∃ P, Ready (InMap memmap) (mapBlocks memmap e) L s.buddy P s.held)
    (fun _ _ _ _ hI hs => step_ready (supply_map h e) hI hs) ⟨P0, hR⟩ hs
  exact ⟨P, L, hP, hL⟩

/-- **Free blocks.** On a map of disjoint usable regions below 2^44, after any calls in which callers free and write only
what they hold: the blocks on the free lists are naturally aligned, they and the blocks held are pairwise disjoint, they
meet no excluded range, and every block held lies inside one usable region. -/
theorem buddy_blocks (memmap : List LimineMemmapEntry) (e : ExclusionSet) (mem : Heap) (h : GoodMap memmap)
    (as : List Act) (s : State) (hs : run memmap e mem as = some s) :
    ∃ P : Pool, (∀ k ≤ maxOrder, Linked s.buddy.mem (s.buddy.arena.node.freeLists k) (P k)) ∧
      (∀ b ∈ freeBlocks P, 2 ^ (b.2 + 12) ∣ b.1) ∧
      (freeBlocks P ++ s.held).Pairwise (Apart 12) ∧
      (∀ b ∈ freeBlocks P, ∀ r ∈ e.ranges, ∀ x, Covers 12 b x → ¬ (r.1 ≤ x ∧ x < r.2)) ∧
      ∀ b ∈ s.held, ∃ entry ∈ memmap, entry.memType = 0 ∧ entry.base ≤ b.1 ∧
        b.1 + 2 ^ (b.2 + 12) ≤ entry.base + entry.length := by
  obtain ⟨P, L, hR, -⟩ := run_ready h hs
  refine ⟨P, hR.holds.spells, fun b hb => ?_, pairwise_apart fun x => ?_, fun b hb r hr x hx hrx => ?_, fun b hb => ?_⟩
  · obtain ⟨entry, -, -, -, hd, -⟩ := hR.holds.kind b hb
    exact hd
  · have hacc := hR.holds.account _ (splits_hits x)
    have hle := hits_mapBlocks h e x
    rw [weight_append]
    omega
  · -- a free address is in a managed page, which no excluded range meets
    have hacc := hR.holds.account _ (splits_hits x)
    have hpos := hits_pos hb hx
    have hne : weight (hits 12 x) (mapBlocks memmap e) ≠ 0 := by omega
    obtain ⟨entry, -, -, -, -, hno⟩ := covers_mapBlocks.1 (exists_covers hne)
    refine hno r hr ?_
    unfold Meet
    omega
  · obtain ⟨entry, he, ht, -, -, h3, h4⟩ := hR.holds.outKind b hb
    exact ⟨entry, he, ht, h3, h4⟩

/-- eight frames from 64 KiB on, of which the second is excluded -/
def smallMap : List LimineMemmapEntry := [⟨0x10000, 0x8000, 0⟩, ⟨0x20000, 0x1000, 5⟩]

def smallExclusions : ExclusionSet := ⟨(0x11000, 0x12000), (0, 0), []⟩

theorem goodMap_small : GoodMap smallMap := by
  refine ⟨by simp [smallMap], fun entry he ht => ?_⟩
  simp only [smallMap, mem_cons, not_mem_nil, or_false] at he
  rcases he with rfl | rfl
  · decide
  · decide

/-- a block of two frames and two frames, the second from the low zone -/
theorem buddy_blocks_small : ∃ s, run smallMap smallExclusions (fun _ => ⟨0, 0⟩) [.alloc 1, .alloc 0, .allocLow] = some s ∧
    s.held = [(0x14000, 0), (0x10000, 0), (0x12000, 1)] ∧ ∃ P : Pool, (freeBlocks P ++ s.held).Pairwise (Apart 12) := by
  refine exists_and_of_check (by decide +kernel) fun s hs _ => ?_
  obtain ⟨P, -, -, hP, -⟩ := buddy_blocks _ _ _ goodMap_small _ s hs
  exact ⟨P, hP⟩

/-! ## The free counter -/

/-- successive allocations of order 0 give exactly `n` frames and then fail -/
def Yields (b : NumaBuddy) : ℕ → Prop
  | 0 => ∃ b', b.allocOrder 0 = some (none, b')
  | n + 1 => ∃ a b', b.allocOrder 0 = some (some a, b') ∧ Yields b' n

theorem yields_unique {b : NumaBuddy} {n m : ℕ} (hn : Yields b n) (hm : Yields b m) : n = m := by
  induction n generalizing b m with
  | zero =>
    obtain ⟨b', hb⟩ := hn
    rcases m with _ | m
    · rfl
    · obtain ⟨a, b'', hb', -⟩ := hm
      exact absurd (hb.symm.trans hb') (by simp)
  | succ n ih =>
    obtain ⟨a, b', hb, hn⟩ := hn
    rcases m with _ | m
    · obtain ⟨b'', hb'⟩ := hm
      exact absurd (hb.symm.trans hb') (by simp)
    · obtain ⟨a', b'', hb', hm⟩ := hm
      obtain ⟨-, rfl⟩ : a = a' ∧ b' = b'' := by simpa using hb.symm.trans hb'
      rw [ih hn hm]

section Counter

variable {Q : Block → Prop} {B L out : List Block} {b : NumaBuddy} {P : Pool}

theorem weight_units_eq_zero {bs : List Block} (h : weight units bs = 0) : bs = [] := by
  rcases bs with _ | ⟨c, bs⟩
  · rfl
  · have hpos : 0 < units c := Nat.two_pow_pos _
    rw [weight_cons] at h
    omega

theorem ready_yields (hM : Supply Q B)
    (h : Ready Q B L b P out) : Yields b (weight units (freeBlocks P)) := by
  induction hn : weight units (freeBlocks P) generalizing b P out with
  | zero =>
    rcases numaAlloc_spec hM h (Nat.zero_le maxOrder) with ⟨-, hs⟩ | ⟨j, a, l, b', -, hj, -, hP, -, -⟩
    · exact ⟨b, hs⟩
    · -- the list of order `j` is not empty
      have hmem : (a, j) ∈ freeBlocks P := mem_blocks.2 ⟨Nat.lt_succ_of_le hj, by simp [hP]⟩
      rw [weight_units_eq_zero hn] at hmem
      exact absurd hmem not_mem_nil
  | succ n ih =>
    rcases numaAlloc_spec hM h (Nat.zero_le maxOrder) with ⟨hall, -⟩ | ⟨j, a, l, b', -, -, -, -, hs, hR⟩
    · have hne : freeBlocks P ≠ [] := by
        intro he
        rw [he] at hn
        exact absurd hn (by simp)
      obtain ⟨c, hc⟩ := exists_mem_of_ne_nil _ hne
      obtain ⟨hk, hmem⟩ := mem_blocks.1 hc
      rw [hall c.2 (Nat.zero_le _) (Nat.le_of_lt_succ hk)] at hmem
      exact absurd hmem not_mem_nil
    · refine ⟨a, b', hs, ih hR ?_⟩
      have h1 := h.holds.account _ splits_units
      have h2 := hR.holds.account _ splits_units
      have hu : units (a, 0) = 1 := rfl
      rw [weight_cons] at h2
      omega

theorem counter_eq (h : Ready Q B L b P out) :
    b.arena.node.free = weight units (freeBlocks P) + weight units L := by
  have h1 := h.holds.account _ splits_units
  have h2 := h.counted
  unfold Counted at h2
  omega

end Counter

theorem managed_zero {e : ExclusionSet} : (∀ b ∈ mapBlocks memmap e, b.1 ≠ 0) ↔ ¬ Managed memmap e 0 := by
  rw [← covers_mapBlocks]
  constructor
  · rintro h ⟨b, hb, h0, -⟩
    exact h b hb (Nat.le_zero.1 h0)
  · intro h b hb h0
    refine h ⟨b, hb, h0.le, ?_⟩
    rw [h0]
    exact Nat.lt_add_of_pos_right (Nat.two_pow_pos _)

/-- the counter is the number of frames that can be allocated, and every managed page is on a list or held -/
def NothingLost (memmap : List LimineMemmapEntry) (e : ExclusionSet) (s : State) : Prop :=
  Yields s.buddy s.buddy.arena.node.free ∧
    ∀ x, Managed memmap e x → (∃ b ∈ s.held, Covers 12 b x) ∨
      ∃ k ≤ maxOrder, ∃ l, Linked s.buddy.mem (s.buddy.arena.node.freeLists k) l ∧ ∃ a ∈ l, Covers 12 (a, k) x

/-- **The counter is exact unless page 0 is managed.** For every map of disjoint usable regions below 2^44: after every run
the free counter equals the number of frames that successive allocations obtain, and no managed frame is out of reach,
exactly when page 0 is not a usable page that no excluded range meets. -/
theorem counter_exact_iff (memmap : List LimineMemmapEntry) (e : ExclusionSet) (mem : Heap) (h : GoodMap memmap) :
    (∀ as s, run memmap e mem as = some s → NothingLost memmap e s) ↔ ¬ Managed memmap e 0 := by
  have hM := supply_map h e
  constructor
  · -- right after boot the counter is too high by what was lost
    intro hall
    obtain ⟨s, P, L, hboot, -, hR, hL⟩ := boot_ready h e mem
    obtain ⟨hy, -⟩ := hall [] s (by rw [run, hboot]; rfl)
    have heq := yields_unique hy (ready_yields hM hR)
    have hc := counter_eq hR
    exact managed_zero.1 (hL.1 (weight_units_eq_zero (by omega)))
  · intro h0 as s hs
    obtain ⟨P, L, hR, hL⟩ := run_ready h hs
    obtain rfl := hL.2 (managed_zero.2 h0)
    constructor
    · have hc := counter_eq hR
      rw [hc]
      exact ready_yields hM hR
    · intro x hx
      obtain ⟨b, hb, hbx⟩ := covers_mapBlocks.2 hx
      have hacc := hR.holds.account _ (splits_hits x)
      have hpos := hits_pos hb hbx
      rw [weight_nil] at hacc
      by_cases hheld : weight (hits 12 x) s.held = 0
      · right
        obtain ⟨c, hc, hcx⟩ := exists_covers (s := 12) (x := x) (show weight (hits 12 x) (freeBlocks P) ≠ 0 by omega)
        obtain ⟨hk, hmem⟩ := mem_blocks.1 hc
        have hk' := Nat.le_of_lt_succ hk
        exact ⟨c.2, hk', P c.2, hR.holds.spells _ hk', c.1, hmem, hcx⟩
      · exact .inl (exists_covers hheld)

/-- four of the seven frames are left -/
theorem counter_exact_small : ∃ s, run smallMap smallExclusions (fun _ => ⟨0, 0⟩) [.alloc 1, .alloc 0] = some s ∧
    s.buddy.arena.node.free = 4 ∧ NothingLost smallMap smallExclusions s :=
  exists_and_of_check (by decide +kernel) fun s hs _ => (counter_exact_iff _ _ _ goodMap_small).2 (by decide) _ s hs

/-- one region of four frames that starts at 0 -/
def zeroMap : List LimineMemmapEntry := [⟨0, 0x4000, 0⟩]

/-- the counter says 4, and nothing can be allocated: the block at 0 is the end of its list -/
theorem counter_zero : ∃ s, run zeroMap ⟨(0, 0), (0, 0), []⟩ (fun _ => ⟨0, 0⟩) [] = some s ∧
    s.buddy.arena.node.free = 4 ∧ (∃ b, s.buddy.allocOrder 0 = some (none, b)) ∧
    ¬ NothingLost zeroMap ⟨(0, 0), (0, 0), []⟩ s := by
  refine exists_of_check (fun s => s.buddy.arena.node.free = 4 ∧ ∃ r, s.buddy.allocOrder 0 = some r ∧ r.1 = none)
    (by decide +kernel)
    fun s hs ⟨hfree, ⟨_, b⟩, hb, hnone⟩ => ?_
  cases hnone
  refine ⟨hfree, ⟨b, hb⟩, fun hno => ?_⟩
  have hzero : Yields s.buddy 0 := ⟨b, hb⟩
  exact absurd (yields_unique hno.1 hzero) (by rw [hfree]; decide)

/-! ## Giving a block back -/

/-- a block given back whole, or frame by frame -/
def NumaBuddy.giveBack (b : NumaBuddy) (whole : Bool) (a k : ℕ) : Option NumaBuddy :=
  if whole then b.freeOrder a k else b.freeFrames a k

/-- a single frame, or another free block of order `k` or above beside the first one of order `k` -/
def Spare (b : NumaBuddy) (k : ℕ) : Prop :=
  k = 0 ∨ (∃ j ≤ maxOrder, k < j ∧ headAddr (b.arena.node.freeLists j) ≠ 0) ∨
    (headAddr (b.arena.node.freeLists k) ≠ 0 ∧ (b.mem (headAddr (b.arena.node.freeLists k))).nextPhys ≠ 0)

instance (b : NumaBuddy) (k : ℕ) : Decidable (Spare b k) := by unfold Spare; infer_instance

section Spare

variable {Q : Block → Prop} {B L out : List Block} {b : NumaBuddy} {P : Pool} {k : ℕ}

theorem head_ne_zero {mem : Heap} {head : ℕ} {l : List ℕ} (h : Linked mem head l) : headAddr head ≠ 0 ↔ l ≠ [] := by
  rcases l with _ | ⟨a, l⟩
  · exact ⟨fun hne => absurd h.1 hne, fun hne => absurd rfl hne⟩
  · have hne := h.ne_zero a mem_cons_self
    simpa [h.1.1] using hne

theorem spare_iff (h : Ready Q B L b P out) (hk : k ≤ maxOrder) :
    Spare b k ↔ k = 0 ∨ (∃ j ≤ maxOrder, k < j ∧ P j ≠ []) ∨ 2 ≤ (P k).length := by
  refine or_congr_right (or_congr ?_ ?_)
  · refine exists_congr fun j => and_congr_right fun hj => and_congr_right fun _ => ?_
    exact head_ne_zero (h.holds.spells j hj)
  · have hl := h.holds.spells k hk
    rw [head_ne_zero hl]
    rcases hP : P k with _ | ⟨a, l⟩
    · simp
    · rw [hP] at hl
      obtain ⟨⟨ha, -, hrest⟩, hpl⟩ := hl
      rw [ha]
      rcases l with _ | ⟨c, l⟩
      · have hz : (b.mem a).nextPhys = 0 := hrest
        simp [hz]
      · have hz : (b.mem a).nextPhys = c := hrest.1
        have hc := hrest.2.1
        simp [hz, hc]

theorem alloc_succeeds_iff (hM : Supply Q B)
    (h : Ready Q B L b P out) (hk : k ≤ maxOrder) :
    (∃ a b', b.allocOrder k = some (some a, b')) ↔ ∃ j ≤ maxOrder, k ≤ j ∧ P j ≠ [] := by
  rcases numaAlloc_spec hM h hk with ⟨hall, hs⟩ | ⟨j, a, l, b', hkj, hj, -, hP, hs, -⟩
  · constructor
    · rintro ⟨a, b', hb⟩
      exact absurd (hs.symm.trans hb) (by simp)
    · rintro ⟨j, hj, hkj, hne⟩
      exact absurd (hall j hkj hj) hne
  · exact ⟨fun _ => ⟨j, hj, hkj, by simp [hP]⟩, fun _ => ⟨a, b', hs⟩⟩

theorem splitPool_spare {j a : ℕ} {l : List ℕ} (hkj : k ≤ j) (hj : j ≤ maxOrder) (hlow : ∀ i, k ≤ i → i < j → P i = [])
    (hP : P j = a :: l) :
    (∃ i ≤ maxOrder, k ≤ i ∧ splitPool P k j a l i ≠ []) ↔
      (∃ i ≤ maxOrder, k < i ∧ P i ≠ []) ∨ 2 ≤ (P k).length := by
  have hPj : P j ≠ [] := by simp [hP]
  rcases hkj.eq_or_lt with rfl | hlt
  · -- the block was of order `k` itself: only its own list and those above count
    have hsp : ∀ i, splitPool P k k a l i = if i = k then l else P i := fun i => by
      rw [splitPool, if_neg (by omega)]
    simp only [hsp, hP, length_cons]
    constructor
    · rintro ⟨i, hi, hki, hne⟩
      by_cases hik : i = k
      · rw [if_pos hik] at hne
        exact .inr (by have := length_pos_of_ne_nil hne; omega)
      · rw [if_neg hik] at hne
        exact .inl ⟨i, hi, by omega, hne⟩
    · rintro (⟨i, hi, hki, hne⟩ | hlen)
      · exact ⟨i, hi, hki.le, by rwa [if_neg hki.ne']⟩
      · refine ⟨k, hj, le_rfl, ?_⟩
        rw [if_pos rfl]
        exact ne_nil_of_length_pos (by omega)
  · -- a larger block was split: its upper half of order `k` is left
    refine iff_of_true ⟨k, by omega, le_rfl, ?_⟩ (.inl ⟨j, hj, hlt, hPj⟩)
    rw [splitPool, if_pos ⟨le_rfl, hlt⟩]
    simp

end Spare

/-- **An order can be used up.** In every reachable state, when `alloc_order(k)` has succeeded and the block is given
back, the next `alloc_order(k)` succeeds exactly if the block came back whole, or it was a single frame, or another
block of order `k` or above was free. -/
theorem realloc_iff (memmap : List LimineMemmapEntry) (e : ExclusionSet) (mem : Heap) (h : GoodMap memmap)
    (as : List Act) (s : State) (hs : run memmap e mem as = some s) (k : ℕ) (hk : k ≤ maxOrder) (a : ℕ) (b : NumaBuddy)
    (ha : s.buddy.allocOrder k = some (some a, b)) (whole : Bool) :
    ∃ b', b.giveBack whole a k = some b' ∧
      ((∃ c b'', b'.allocOrder k = some (some c, b'')) ↔ whole = true ∨ Spare s.buddy k) := by
  have hM := supply_map h e
  obtain ⟨P, L, hR, -⟩ := run_ready h hs
  rcases numaAlloc_spec hM hR hk with ⟨-, hs'⟩ | ⟨j, a', l, b1, hkj, hj, hlow, hP, hs', h1⟩
  · exact absurd (ha.symm.trans hs') (by simp)
  obtain ⟨rfl, rfl⟩ : a = a' ∧ b = b1 := by simpa using ha.symm.trans hs'
  rcases whole with _ | _
  · obtain ⟨b2, P2, hs2, h2, hz, hi⟩ := freeFrames_spec hM h1
    refine ⟨b2, hs2, ?_⟩
    rw [alloc_succeeds_iff hM h2 hk, spare_iff hR hk]
    simp only [Bool.false_eq_true, false_or]
    by_cases hk0 : k = 0
    · subst hk0
      exact iff_of_true ⟨0, hk, le_rfl, hz⟩ (.inl rfl)
    · rw [or_iff_right hk0, ← splitPool_spare hkj hj hlow hP]
      refine exists_congr fun i => and_congr_right fun _ => and_congr_right fun hki => ?_
      rw [hi i (by omega)]
  · obtain ⟨b2, hs2, h2⟩ := numaFree_spec hM h1
    refine ⟨b2, hs2, ?_⟩
    rw [alloc_succeeds_iff hM h2 hk]
    exact iff_of_true ⟨k, hk, le_rfl, by simp⟩ (.inl rfl)

/-- two frames that form one block -/
def pairMap : List LimineMemmapEntry := [⟨0x2000, 0x2000, 0⟩]

/-- the block of two frames comes back as two blocks of one -/
theorem realloc_pair : ∃ s a b b', run pairMap ⟨(0, 0), (0, 0), []⟩ (fun _ => ⟨0, 0⟩) [] = some s ∧
    s.buddy.allocOrder 1 = some (some a, b) ∧ b.freeFrames a 1 = some b' ∧ ∃ c, b'.allocOrder 1 = some (none, c) := by
  obtain ⟨s, hs, ⟨r, b⟩, hb, a, ha, b', hb', ⟨c, d⟩, hc, hnone⟩ : ∃ s, run pairMap ⟨(0, 0), (0, 0), []⟩
    (fun _ => ⟨0, 0⟩) [] = some s ∧
      ∃ r, s.buddy.allocOrder 1 = some r ∧ ∃ a, r.1 = some a ∧ ∃ b', r.2.freeFrames a 1 = some b' ∧
        ∃ c, b'.allocOrder 1 = some c ∧ c.1 = none := by decide +kernel
  cases ha
  cases hnone
  exact ⟨s, a, b, b', hs, hb, hb', d, hc⟩

/-- with the four-frame block split, a second block of two frames is left -/
theorem realloc_iff_small : ∃ s a b b', run smallMap smallExclusions (fun _ => ⟨0, 0⟩) [] = some s ∧
    s.buddy.allocOrder 1 = some (some a, b) ∧ b.giveBack false a 1 = some b' ∧
    ∃ c b'', b'.allocOrder 1 = some (some c, b'') := by
  obtain ⟨s, hs, hspare, ⟨r, b⟩, hb, a, ha, -⟩ : ∃ s, run smallMap smallExclusions (fun _ => ⟨0, 0⟩) [] = some s ∧
      Spare s.buddy 1 ∧ ∃ r, s.buddy.allocOrder 1 = some r ∧ ∃ a, r.1 = some a ∧ True := by decide +kernel
  cases ha
  obtain ⟨b', hb', hiff⟩ := realloc_iff _ _ _ goodMap_small _ s hs 1 (by decide) a b hb false
  exact ⟨s, a, b, b', hs, hb, hb', hiff.2 (.inr hspare)⟩

end Rumicos.Memory.Buddy
