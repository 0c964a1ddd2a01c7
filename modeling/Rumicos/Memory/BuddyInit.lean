/-
What `init` puts on the free lists.

`carve`, `regionBlocks` and `mapBlocks` are the blocks that `add_region`, `add_region_excluding` and `init` push, in
order. `UsablePage` says when a page is managed: it lies in a usable entry and no excluded range meets it.
-/
import Rumicos.Memory.BuddyPool

namespace Rumicos.Memory.Buddy

open Lib.Dyadic List Option

/-! ## Cutting one region -/

theorem regionOrder_le (paddr remaining m : ℕ) : regionOrder paddr remaining m ≤ m := by
  induction m with
  | zero => exact le_rfl
  | succ m ih =>
    rw [regionOrder]
    split_ifs
    · exact le_rfl
    · omega

theorem regionOrder_fits {paddr remaining : ℕ} (h0 : 2 ^ 12 ≤ remaining) (hp : 2 ^ 12 ∣ paddr) (m : ℕ) :
    2 ^ (regionOrder paddr remaining m + 12) ≤ remaining ∧ 2 ^ (regionOrder paddr remaining m + 12) ∣ paddr := by
  induction m with
  | zero => exact ⟨h0, hp⟩
  | succ m ih =>
    rw [regionOrder]
    split_ifs with hf
    · rw [Nat.one_shiftLeft] at hf
      exact ⟨hf.1, Nat.dvd_of_mod_eq_zero hf.2⟩
    · exact ih

/-- the blocks `add_region` pushes -/
def carve (paddr stop : ℕ) : List Block :=
  if paddr < stop then
    let order := regionOrder paddr (stop - paddr) maxOrder
    (paddr, order) :: carve (paddr + 2 ^ (order + 12)) stop
  else []
termination_by stop - paddr
decreasing_by
  have hpos := Nat.two_pow_pos (regionOrder paddr (stop - paddr) maxOrder + 12)
  omega

/-- a naturally aligned block inside `[start, stop)` -/
def Inside (start stop : ℕ) (b : Block) : Prop :=
  b.2 ≤ maxOrder ∧ 2 ^ (b.2 + 12) ∣ b.1 ∧ start ≤ b.1 ∧ b.1 + 2 ^ (b.2 + 12) ≤ stop

theorem carve_spec {paddr stop : ℕ} (hp : 2 ^ 12 ∣ paddr) (hs : 2 ^ 12 ∣ stop) :
    (∀ b ∈ carve paddr stop, Inside paddr stop b) ∧
      (∀ x, weight (hits 12 x) (carve paddr stop) = if paddr ≤ x ∧ x < stop then 1 else 0) ∧
      weight units (carve paddr stop) * 2 ^ 12 = stop - paddr := by
  rw [carve]
  by_cases hlt : paddr < stop
  · have hrem : 2 ^ 12 ≤ stop - paddr := Nat.le_of_dvd (by omega) (Nat.dvd_sub hs hp)
    obtain ⟨hfit, hdvd⟩ := regionOrder_fits hrem hp maxOrder
    have hle := regionOrder_le paddr (stop - paddr) maxOrder
    simp only [hlt, if_true]
    generalize ho : regionOrder paddr (stop - paddr) maxOrder = order at *
    have hnext : 2 ^ 12 ∣ paddr + 2 ^ (order + 12) := dvd_add hp (pow_dvd_pow 2 (by omega))
    obtain ⟨hin, hhits, hunits⟩ := carve_spec hnext hs
    refine ⟨fun b hb => ?_, fun x => ?_, ?_⟩
    · rcases mem_cons.1 hb with rfl | hb
      · exact ⟨hle, hdvd, le_rfl, by simp only; omega⟩
      · obtain ⟨h1, h2, h3, h4⟩ := hin b hb
        exact ⟨h1, h2, by omega, h4⟩
    · have hx := hhits x
      rw [weight_cons, hx]
      simp only [hits, Covers]
      by_cases h1 : x < paddr + 2 ^ (order + 12)
      · have h2 : x < stop := by omega
        simp [h1, h2]
      · have h2 : paddr + 2 ^ (order + 12) ≤ x := by omega
        have h3 : paddr ≤ x := by omega
        simp [h2, h3]
    · rw [weight_cons, add_mul, units, ← pow_add]
      simp only
      omega
  · have hx : ∀ x, ¬ (paddr ≤ x ∧ x < stop) := fun x => by omega
    simp only [hlt, if_false]
    refine ⟨by simp, fun x => ?_, ?_⟩
    · rw [if_neg (hx x)]
      rfl
    · simp only [weight_nil]
      omega
termination_by stop - paddr
decreasing_by omega

/-! ## Regions with excluded ranges -/

/-- the blocks `add_region_excluding` pushes -/
def regionBlocks (start stop : ℕ) (e : ExclusionSet) : List Block :=
  if start ≥ stop then []
  else
    match h : firstExclusionOverlap start stop e with
    | some (reservedStart, reservedEnd) =>
      (if start < reservedStart then regionBlocks start reservedStart e else []) ++
        if reservedEnd < stop then regionBlocks reservedEnd stop e else []
    | none => carve ((start + 4095) / 4096 * 4096) (stop / 4096 * 4096)
termination_by stop - start
decreasing_by
  all_goals
    have hb := firstExclusionOverlap_bounds h
    simp only at hb
    omega

/-- the ranges have an address in common -/
def Meet (a b c d : ℕ) : Prop := max a c < min b d

instance (a b c d : ℕ) : Decidable (Meet a b c d) := by unfold Meet; infer_instance

/-- the page of `x` lies in `[start, stop)` and no excluded range meets it -/
def UsablePage (start stop : ℕ) (e : ExclusionSet) (x : ℕ) : Prop :=
  start ≤ x / 4096 * 4096 ∧ x / 4096 * 4096 + 4096 ≤ stop ∧
    ∀ r ∈ e.ranges, ¬ Meet r.1 r.2 (x / 4096 * 4096) (x / 4096 * 4096 + 4096)

instance (start stop : ℕ) (e : ExclusionSet) (x : ℕ) : Decidable (UsablePage start stop e x) := by
  unfold UsablePage
  infer_instance

variable {start stop : ℕ} {o : ℕ × ℕ} {e : ExclusionSet} {memmap : List LimineMemmapEntry}

theorem exclusionOverlap_eq_none {r : ℕ × ℕ} : exclusionOverlap start stop r = none ↔ ¬ Meet r.1 r.2 start stop := by
  unfold exclusionOverlap Meet
  simp

theorem exclusionOverlap_eq_some {r : ℕ × ℕ} (h : exclusionOverlap start stop r = some o) :
    o = (max r.1 start, min r.2 stop) ∧ Meet r.1 r.2 start stop := by
  unfold exclusionOverlap at h
  simp only at h
  split_ifs at h with hlt
  exact ⟨(some.inj h).symm, hlt⟩

theorem usablePage_split (h : firstExclusionOverlap start stop e = some o) (x : ℕ) :
    UsablePage start stop e x ↔ UsablePage start o.1 e x ∨ UsablePage o.2 stop e x := by
  obtain ⟨r, hr, ho⟩ := exists_of_findSome?_eq_some h
  obtain ⟨rfl, hmeet⟩ := exclusionOverlap_eq_some ho
  unfold UsablePage
  generalize x / 4096 * 4096 = p
  unfold Meet at hmeet
  constructor
  · rintro ⟨h1, h2, h3⟩
    have hnot := h3 r hr
    unfold Meet at hnot
    by_cases hleft : p + 4096 ≤ max r.1 start
    · exact .inl ⟨h1, hleft, h3⟩
    · exact .inr ⟨by omega, h2, h3⟩
  · rintro (⟨h1, h2, h3⟩ | ⟨h1, h2, h3⟩)
    · exact ⟨h1, by omega, h3⟩
    · exact ⟨by omega, h2, h3⟩

theorem usablePage_whole (h : firstExclusionOverlap start stop e = none) (x : ℕ) :
    UsablePage start stop e x ↔ (start + 4095) / 4096 * 4096 ≤ x ∧ x < stop / 4096 * 4096 := by
  have hno : ∀ r ∈ e.ranges, ¬ Meet r.1 r.2 start stop := fun r hr =>
    exclusionOverlap_eq_none.1 (findSome?_eq_none_iff.1 h r hr)
  unfold UsablePage
  constructor
  · omega
  · rintro ⟨h1, h2⟩
    have hlow : start ≤ x / 4096 * 4096 := by omega
    have hdiv : x / 4096 < stop / 4096 := Nat.div_lt_of_lt_mul (Nat.mul_comm _ 4096 ▸ h2)
    have hhigh : x / 4096 * 4096 + 4096 ≤ stop := by
      calc x / 4096 * 4096 + 4096 = (x / 4096 + 1) * 4096 := by ring
        _ ≤ stop / 4096 * 4096 := Nat.mul_le_mul_right _ hdiv
        _ ≤ stop := Nat.div_mul_le_self _ _
    refine ⟨hlow, hhigh, fun r hr hm => hno r hr ?_⟩
    unfold Meet at hm ⊢
    omega

theorem inside_mono {start' stop' : ℕ} {b : Block} (h : Inside start stop b) (h1 : start' ≤ start) (h2 : stop ≤ stop') :
    Inside start' stop' b :=
  ⟨h.1, h.2.1, h1.trans h.2.2.1, h.2.2.2.trans h2⟩

theorem regionBlocks_empty (h : stop ≤ start) : regionBlocks start stop e = [] := by
  rw [regionBlocks, if_pos h]

theorem regionBlocks_overlap (h : start < stop) (ho : firstExclusionOverlap start stop e = some o) :
    regionBlocks start stop e = regionBlocks start o.1 e ++ regionBlocks o.2 stop e := by
  rw [regionBlocks, if_neg (not_le.2 h)]
  split
  · rename_i rs re hr
    cases ho.symm.trans hr
    rw [ite_eq_left_iff.2 (fun h => (regionBlocks_empty (not_lt.1 h)).symm),
      ite_eq_left_iff.2 (fun h => (regionBlocks_empty (not_lt.1 h)).symm)]
  · rename_i hr
    exact absurd (ho.symm.trans hr) (by simp)

theorem regionBlocks_whole (h : start < stop) (ho : firstExclusionOverlap start stop e = none) :
    regionBlocks start stop e = carve ((start + 4095) / 4096 * 4096) (stop / 4096 * 4096) := by
  rw [regionBlocks, if_neg (not_le.2 h)]
  split
  · rename_i rs re hr
    exact absurd (ho.symm.trans hr) (by simp)
  · rfl

theorem regionBlocks_spec (start stop : ℕ) (e : ExclusionSet) :
    (∀ b ∈ regionBlocks start stop e, Inside start stop b) ∧
      ∀ x, weight (hits 12 x) (regionBlocks start stop e) = if UsablePage start stop e x then 1 else 0 := by
  by_cases hlt : start < stop
  · rcases ho : firstExclusionOverlap start stop e with _ | ⟨rs, re⟩
    · have hwhole := usablePage_whole ho
      obtain ⟨hin, hhits, -⟩ := @carve_spec ((start + 4095) / 4096 * 4096) (stop / 4096 * 4096)
        (Nat.dvd_mul_left _ _) (Nat.dvd_mul_left _ _)
      rw [regionBlocks_whole hlt ho]
      refine ⟨fun b hb => inside_mono (hin b hb) (by omega) (by omega), fun x => ?_⟩
      rw [hhits x]
      simp [hwhole x]
    · obtain ⟨hb1, hb2, hb3⟩ := firstExclusionOverlap_bounds ho
      have hsplit := usablePage_split ho
      obtain ⟨hinL, hhL⟩ := regionBlocks_spec start rs e
      obtain ⟨hinR, hhR⟩ := regionBlocks_spec re stop e
      rw [regionBlocks_overlap hlt ho]
      refine ⟨fun b hb => ?_, fun x => ?_⟩
      · rcases mem_append.1 hb with hb | hb
        · exact inside_mono (hinL b hb) le_rfl (by omega)
        · exact inside_mono (hinR b hb) (by omega) le_rfl
      · have hboth : ¬ (UsablePage start rs e x ∧ UsablePage re stop e x) := by
          rintro ⟨⟨-, h1, -⟩, h2, -⟩
          omega
        rw [weight_append, hhL, hhR]
        simp only [hsplit x]
        by_cases hl : UsablePage start rs e x
        · have hr : ¬ UsablePage re stop e x := fun hr => hboth ⟨hl, hr⟩
          simp [hr]
        · simp [hl]
  · rw [regionBlocks_empty (not_lt.1 hlt)]
    refine ⟨by simp, fun x => ?_⟩
    rw [if_neg, weight_nil]
    rintro ⟨h1, h2, -⟩
    omega
decreasing_by
  all_goals
    omega

/-! ## The memory map -/

/-- the blocks of one entry -/
def entryBlocks (e : ExclusionSet) (entry : LimineMemmapEntry) : List Block :=
  if entry.memType ≠ 0 then [] else regionBlocks entry.base (entry.base + entry.length) e

/-- the blocks `init` pushes -/
def mapBlocks (memmap : List LimineMemmapEntry) (e : ExclusionSet) : List Block := memmap.flatMap (entryBlocks e)

/-- address `x` belongs to the entry -/
def LimineMemmapEntry.Contains (entry : LimineMemmapEntry) (x : ℕ) : Prop :=
  entry.base ≤ x ∧ x < entry.base + entry.length

/-- the usable entries are disjoint and below 2^44 -/
structure GoodMap (memmap : List LimineMemmapEntry) : Prop where
  disjoint : (memmap.filter fun entry => entry.memType = 0).Pairwise fun a b => ∀ x, a.Contains x → ¬ b.Contains x
  bound : ∀ entry ∈ memmap, entry.memType = 0 → entry.base + entry.length ≤ 2 ^ 44

/-- the page of `x` lies in a usable entry and meets no excluded range -/
def Managed (memmap : List LimineMemmapEntry) (e : ExclusionSet) (x : ℕ) : Prop :=
  ∃ entry ∈ memmap, entry.memType = 0 ∧ UsablePage entry.base (entry.base + entry.length) e x

instance (memmap : List LimineMemmapEntry) (e : ExclusionSet) (x : ℕ) : Decidable (Managed memmap e x) := by
  unfold Managed
  infer_instance

theorem mem_mapBlocks {b : Block} :
    b ∈ mapBlocks memmap e ↔
      ∃ entry ∈ memmap, entry.memType = 0 ∧ b ∈ regionBlocks entry.base (entry.base + entry.length) e := by
  unfold mapBlocks
  rw [mem_flatMap]
  refine exists_congr fun entry => and_congr_right fun _ => ?_
  by_cases ht : entry.memType = 0
  · simp [entryBlocks]
  · simp [entryBlocks]

theorem covers_mapBlocks {x : ℕ} : (∃ b ∈ mapBlocks memmap e, Covers 12 b x) ↔ Managed memmap e x := by
  constructor
  · rintro ⟨b, hb, hx⟩
    obtain ⟨entry, he, ht, hb⟩ := mem_mapBlocks.1 hb
    have hpos := hits_pos hb hx
    rw [(regionBlocks_spec _ _ e).2 x] at hpos
    refine ⟨entry, he, ht, ?_⟩
    by_contra hno
    rw [if_neg hno] at hpos
    omega
  · rintro ⟨entry, he, ht, hu⟩
    have hne : weight (hits 12 x) (regionBlocks entry.base (entry.base + entry.length) e) ≠ 0 := by
      rw [(regionBlocks_spec _ _ e).2 x, if_pos hu]
      decide
    obtain ⟨b, hb, hx⟩ := exists_covers hne
    exact ⟨b, mem_mapBlocks.2 ⟨entry, he, ht, hb⟩, hx⟩

/-- **Each address once.** Over disjoint usable entries no address is in two of the blocks. -/
theorem hits_mapBlocks (h : GoodMap memmap) (e : ExclusionSet) (x : ℕ) : weight (hits 12 x) (mapBlocks memmap e) ≤ 1 := by
  obtain ⟨hd, -⟩ := h
  induction memmap with
  | nil => exact Nat.zero_le 1
  | cons entry rest ih =>
    by_cases ht : entry.memType = 0
    · have hcons : mapBlocks (entry :: rest) e =
          regionBlocks entry.base (entry.base + entry.length) e ++ mapBlocks rest e := by
        simp [mapBlocks, entryBlocks, ht]
      rw [filter_cons_of_pos (by simpa using ht), pairwise_cons] at hd
      rw [hcons, weight_append, (regionBlocks_spec _ _ e).2 x]
      split_ifs with hu
      · -- the entry has the page, so no other entry does
        have hz : weight (hits 12 x) (mapBlocks rest e) = 0 := by
          by_contra hne
          obtain ⟨entry', he', ht', hu'⟩ := covers_mapBlocks.1 (exists_covers hne)
          refine hd.1 entry' (mem_filter.2 ⟨he', by simpa using ht'⟩) (x / 4096 * 4096) ⟨hu.1, ?_⟩ ⟨hu'.1, ?_⟩
          · exact lt_of_lt_of_le (Nat.lt_add_of_pos_right (by decide)) hu.2.1
          · exact lt_of_lt_of_le (Nat.lt_add_of_pos_right (by decide)) hu'.2.1
        rw [hz]
      · have := ih hd.2
        omega
    · rw [filter_cons_of_neg (by simpa using ht)] at hd
      have hcons : mapBlocks (entry :: rest) e = mapBlocks rest e := by simp [mapBlocks, entryBlocks, ht]
      rw [hcons]
      exact ih hd

/-- a naturally aligned block inside one usable entry -/
def InMap (memmap : List LimineMemmapEntry) (b : Block) : Prop :=
  ∃ entry ∈ memmap, entry.memType = 0 ∧ Inside entry.base (entry.base + entry.length) b

theorem inMap_mapBlocks : ∀ b ∈ mapBlocks memmap e, InMap memmap b := by
  intro b hb
  obtain ⟨entry, he, ht, hb⟩ := mem_mapBlocks.1 hb
  exact ⟨entry, he, ht, (regionBlocks_spec _ _ e).1 b hb⟩

theorem inside_half {a k : ℕ} (h : Inside start stop (a, k + 1)) :
    Inside start stop (a, k) ∧ Inside start stop (a + 2 ^ (k + 12), k) := by
  obtain ⟨h1, h2, h3, h4⟩ := h
  simp only at h1 h2 h3 h4
  have hp : 2 ^ (k + 1 + 12) = 2 ^ (k + 12) + 2 ^ (k + 12) := by ring
  have hd : 2 ^ (k + 12) ∣ a := (pow_dvd_pow 2 (by omega)).trans h2
  exact ⟨⟨by omega, hd, h3, by simp only; omega⟩,
    ⟨by omega, dvd_add hd dvd_rfl, by omega, by simp only; omega⟩⟩

theorem kind_inMap (h : GoodMap memmap) : Kind (InMap memmap) where
  addr := by
    rintro ⟨a, k⟩ ⟨entry, he, ht, -, h2, -, h4⟩
    have hb := h.bound entry he ht
    have hd : 2 ^ 12 ∣ a := (pow_dvd_pow 2 (by omega)).trans h2
    refine plausible_iff.2 ⟨?_, Nat.mod_eq_zero_of_dvd hd⟩
    omega
  order := by
    rintro b ⟨entry, he, ht, h1, -⟩
    exact h1
  half := by
    rintro a k ⟨entry, he, ht, hin⟩
    obtain ⟨h1, h2⟩ := inside_half hin
    exact ⟨⟨entry, he, ht, h1⟩, ⟨entry, he, ht, h2⟩⟩

/-! ## Running `init` -/

section Init

variable {Q : Block → Prop} {B out : List Block}

variable {P : Pool} {b : NumaBuddy}

theorem lostBy_eq_nil {k a : ℕ} : lostBy P k a = [] ↔ a ≠ 0 := by
  unfold lostBy
  split_ifs with h
  · simp [h]
  · simp [h]

/-- the loop of `add_region` moves its blocks onto the lists -/
theorem addBlocks_spec (hQ : Kind Q) (hB : ∀ x, weight (hits 12 x) B ≤ 1) {s : Arena} {P : Pool}
    {L : List Block} (paddr stop : ℕ) (h : Holds Q B L s P (carve paddr stop ++ out)) :
    ∃ s' P' M, s.addBlocks paddr stop = some s' ∧ Holds Q B (M ++ L) s' P' out ∧ s'.node.free = s.node.free ∧
      (M = [] ↔ ∀ b ∈ carve paddr stop, b.1 ≠ 0) := by
  rw [carve] at h
  rw [Arena.addBlocks, carve]
  by_cases hlt : paddr < stop
  · have hpos := Nat.two_pow_pos (regionOrder paddr (stop - paddr) maxOrder + 12)
    simp only [hlt, Nat.one_shiftLeft] at h ⊢
    generalize regionOrder paddr (stop - paddr) maxOrder = order at *
    obtain ⟨s1, hs1, hH1, hf1⟩ := pushTo_spec hQ hB h
    obtain ⟨s2, P2, M, hs2, hH2, hf2, hM⟩ := addBlocks_spec hQ hB (paddr + 2 ^ (order + 12)) stop hH1
    refine ⟨s2, P2, M ++ lostBy P order paddr, ?_, ?_, hf2.trans hf1, ?_⟩
    · rw [hs1]
      exact hs2
    · rw [append_assoc]
      exact hH2
    · rw [append_eq_nil_iff, lostBy_eq_nil, hM]
      simp [and_comm]
  · simp only [hlt] at h ⊢
    exact ⟨s, P, [], rfl, h, rfl, by simp⟩
termination_by stop - paddr
decreasing_by omega

/-- the node with its headers; all lists are empty before the first region -/
def NumaBuddy.arena (b : NumaBuddy) : Arena := ⟨b.node.getD BuddyNode.new, b.mem⟩

/-- every frame that was given is counted as free or is still out -/
def Counted (B : List Block) (s : Arena) (out : List Block) : Prop := s.node.free + weight units out = weight units B

theorem addRegion_spec (hM : Supply Q B) {L : List Block}
    {base : ℕ} (hb : 2 ^ 12 ∣ base) (hs : 2 ^ 12 ∣ stop) (hle : base ≤ stop)
    (h : Holds Q B L b.arena P (carve base stop ++ out)) (hc : Counted B b.arena (carve base stop ++ out)) :
    ∃ b' P' M, b.addRegion base ((stop - base) / 4096) = some b' ∧ Holds Q B (M ++ L) b'.arena P' out ∧
      Counted B b'.arena out ∧ (M = [] ↔ ∀ b ∈ carve base stop, b.1 ≠ 0) := by
  have hU := hM.fits
  obtain ⟨-, -, hunits⟩ := carve_spec hb hs
  have hstop : base + (stop - base) / 4096 * 4096 = stop := by omega
  unfold Counted at hc
  rw [weight_append] at hc
  -- the counter moves before the blocks do
  have hH : Holds Q B L ⟨b.arena.node.grow base ((stop - base) / 4096), b.mem⟩ P (carve base stop ++ out) :=
    ⟨h.spells, h.account, h.kind, h.outKind⟩
  obtain ⟨s', P', M, hs', hH', hf, hM⟩ := addBlocks_spec hM.kind hM.once base stop hH
  refine ⟨⟨some s'.node, s'.mem⟩, P', M, ?_, hH', ?_, hM⟩
  · unfold NumaBuddy.addRegion
    rw [hstop]
    exact (congrArg _ hs').trans rfl
  · show s'.node.free + weight units out = _
    rw [hf]
    show (b.arena.node.free + (stop - base) / 4096) % 2 ^ 64 + weight units out = _
    omega

theorem addRegionExcluding_overlap (h : start < stop) (ho : firstExclusionOverlap start stop e = some o) :
    b.addRegionExcluding start stop e =
      (b.addRegionExcluding start o.1 e).bind fun b => b.addRegionExcluding o.2 stop e := by
  have hempty : ∀ (b : NumaBuddy) {start stop : ℕ}, ¬ start < stop → b.addRegionExcluding start stop e = some b := by
    intro b start stop hge
    rw [NumaBuddy.addRegionExcluding, if_pos (not_lt.1 hge)]
  rw [NumaBuddy.addRegionExcluding, if_neg (not_le.2 h)]
  split
  · rename_i rs re hr
    cases ho.symm.trans hr
    rw [ite_eq_left_iff.2 (fun h => (hempty b h).symm)]
    congr 1
    funext b'
    exact ite_eq_left_iff.2 fun h => (hempty b' h).symm
  · rename_i hr
    exact absurd (ho.symm.trans hr) (by simp)

theorem addRegionExcluding_whole (h : start < stop) (ho : firstExclusionOverlap start stop e = none) :
    b.addRegionExcluding start stop e =
      if stop / 4096 * 4096 ≤ (start + 4095) / 4096 * 4096 then some b
      else b.addRegion ((start + 4095) / 4096 * 4096)
        ((stop / 4096 * 4096 - (start + 4095) / 4096 * 4096) / 4096) := by
  rw [NumaBuddy.addRegionExcluding, if_neg (not_le.2 h)]
  split
  · rename_i rs re hr
    exact absurd (ho.symm.trans hr) (by simp)
  · rfl

theorem addRegionExcluding_spec (hM : Supply Q B)
    {b : NumaBuddy} {P : Pool} {L out : List Block} (start stop : ℕ) (e : ExclusionSet)
    (h : Holds Q B L b.arena P (regionBlocks start stop e ++ out))
    (hc : Counted B b.arena (regionBlocks start stop e ++ out)) :
    ∃ b' P' M, b.addRegionExcluding start stop e = some b' ∧ Holds Q B (M ++ L) b'.arena P' out ∧
      Counted B b'.arena out ∧ (M = [] ↔ ∀ b ∈ regionBlocks start stop e, b.1 ≠ 0) := by
  by_cases hlt : start < stop
  · rcases ho : firstExclusionOverlap start stop e with _ | ⟨rs, re⟩
    · rw [regionBlocks_whole hlt ho] at h hc ⊢
      rw [addRegionExcluding_whole hlt ho]
      split_ifs with hle
      · have hnil : carve ((start + 4095) / 4096 * 4096) (stop / 4096 * 4096) = [] := by
          rw [carve, if_neg (not_lt.2 hle)]
        rw [hnil] at h hc ⊢
        exact ⟨b, P, [], rfl, h, hc, by simp⟩
      · exact addRegion_spec hM (Nat.dvd_mul_left _ _) (Nat.dvd_mul_left _ _) (le_of_not_ge hle) h hc
    · obtain ⟨hb1, hb2, hb3⟩ := firstExclusionOverlap_bounds ho
      rw [regionBlocks_overlap hlt ho, append_assoc] at h hc
      obtain ⟨b1, P1, M1, hs1, hH1, hc1, hM1⟩ := addRegionExcluding_spec hM start rs e h hc
      obtain ⟨b2, P2, M2, hs2, hH2, hc2, hM2⟩ := addRegionExcluding_spec hM re stop e hH1 hc1
      refine ⟨b2, P2, M2 ++ M1, ?_, ?_, hc2, ?_⟩
      · rw [addRegionExcluding_overlap hlt ho, hs1]
        exact hs2
      · rw [append_assoc]
        exact hH2
      · rw [append_eq_nil_iff, hM1, hM2, regionBlocks_overlap hlt ho, forall_mem_append]
        exact and_comm
  · rw [regionBlocks_empty (not_lt.1 hlt)] at h hc ⊢
    refine ⟨b, P, [], ?_, h, hc, by simp⟩
    rw [NumaBuddy.addRegionExcluding, if_pos (not_lt.1 hlt)]
termination_by stop - start

theorem init_entries (hM : Supply Q B) {L : List Block} (memmap : List LimineMemmapEntry) (e : ExclusionSet)
    (h : Holds Q B L b.arena P (mapBlocks memmap e ++ out)) (hc : Counted B b.arena (mapBlocks memmap e ++ out)) :
    ∃ b' P' M, b.init memmap e = some b' ∧ Holds Q B (M ++ L) b'.arena P' out ∧ Counted B b'.arena out ∧
      (M = [] ↔ ∀ b ∈ mapBlocks memmap e, b.1 ≠ 0) := by
  induction memmap generalizing b P L with
  | nil => exact ⟨b, P, [], rfl, h, hc, by simp [mapBlocks]⟩
  | cons entry rest ih =>
    have hcons : mapBlocks (entry :: rest) e = entryBlocks e entry ++ mapBlocks rest e := flatMap_cons
    rw [hcons, append_assoc] at h hc
    have hentry : ∃ b' P' M, (if entry.memType ≠ 0 then some b else if entry.length = 0 then some b
          else b.addRegionExcluding entry.base (entry.base + entry.length) e) = some b' ∧
        Holds Q B (M ++ L) b'.arena P' (mapBlocks rest e ++ out) ∧ Counted B b'.arena (mapBlocks rest e ++ out) ∧
        (M = [] ↔ ∀ b ∈ entryBlocks e entry, b.1 ≠ 0) := by
      unfold entryBlocks at h hc ⊢
      split_ifs at h hc ⊢ with ht hl
      · exact ⟨b, P, [], rfl, h, hc, by simp⟩
      · -- an empty entry has no blocks
        rw [hl, Nat.add_zero, regionBlocks_empty le_rfl] at h hc ⊢
        exact ⟨b, P, [], rfl, h, hc, by simp⟩
      · exact addRegionExcluding_spec hM _ _ e h hc
    obtain ⟨b1, P1, M1, hs1, hH1, hc1, hM1⟩ := hentry
    obtain ⟨b2, P2, M2, hs2, hH2, hc2, hM2⟩ := ih hH1 hc1
    refine ⟨b2, P2, M2 ++ M1, ?_, ?_, hc2, ?_⟩
    · unfold NumaBuddy.init at hs2 ⊢
      rw [foldlM_cons, hs1]
      exact hs2
    · rw [append_assoc]
      exact hH2
    · rw [append_eq_nil_iff, hM1, hM2, hcons, forall_mem_append]
      exact and_comm

end Init

theorem units_mapBlocks (h : GoodMap memmap) (e : ExclusionSet) : weight units (mapBlocks memmap e) < 2 ^ 64 := by
  have hle : weight units (mapBlocks memmap e) * 2 ^ 12 ≤ 2 ^ 44 := by
    refine units_le (hits_mapBlocks h e) fun b hb => ?_
    obtain ⟨entry, he, ht, -, -, -, hin⟩ := inMap_mapBlocks b hb
    exact hin.trans (h.bound entry he ht)
  omega

theorem supply_map (h : GoodMap memmap) (e : ExclusionSet) : Supply (InMap memmap) (mapBlocks memmap e) :=
  ⟨kind_inMap h, hits_mapBlocks h e, units_mapBlocks h e⟩

/-- **What `init` leaves.** On a map of disjoint usable entries below 2^44 `init` succeeds: every managed frame is counted
and all blocks are on the lists, except those lost to a push of frame 0. -/
theorem init_spec (h : GoodMap memmap) (e : ExclusionSet) (mem : Heap) :
    ∃ b P L, (NumaBuddy.newUninit mem).init memmap e = some b ∧
      Holds (InMap memmap) (mapBlocks memmap e) L b.arena P [] ∧ Counted (mapBlocks memmap e) b.arena [] ∧
      (L = [] ↔ ∀ b ∈ mapBlocks memmap e, b.1 ≠ 0) := by
  have hempty : freeBlocks (fun _ => []) = [] := by decide
  have hstart : Holds (InMap memmap) (mapBlocks memmap e) [] (NumaBuddy.newUninit mem).arena (fun _ => [])
      (mapBlocks memmap e ++ []) := by
    refine ⟨fun k _ => linked_empty mem, fun w _ => ?_, ?_, ?_⟩
    · rw [hempty, append_nil, weight_nil, Nat.zero_add, Nat.add_zero]
    · rw [hempty]
      simp
    · rw [append_nil]
      exact inMap_mapBlocks
  have hcount : Counted (mapBlocks memmap e) (NumaBuddy.newUninit mem).arena (mapBlocks memmap e ++ []) := by
    rw [append_nil]
    exact Nat.zero_add _
  obtain ⟨b, P, M, hs, hH, hc, hM⟩ :=
    init_entries (supply_map h e) memmap e hstart hcount
  rw [append_nil] at hH
  exact ⟨b, P, M, hs, hH, hc, hM⟩

/-- **Exact coverage.** If besides no usable entry starts below 4096, the lists cover the managed pages, each once, and
nothing else, whatever the excluded ranges are. -/
theorem init_covers (h : GoodMap memmap) (hlow : ∀ entry ∈ memmap, entry.memType = 0 → 4096 ≤ entry.base)
    (e : ExclusionSet) (mem : Heap) :
    ∃ b P, (NumaBuddy.newUninit mem).init memmap e = some b ∧
      (∀ k ≤ maxOrder, Linked b.mem (b.arena.node.freeLists k) (P k)) ∧
      ∀ x, weight (hits 12 x) (freeBlocks P) = if Managed memmap e x then 1 else 0 := by
  obtain ⟨b, P, L, hs, hH, -, hL⟩ := init_spec h e mem
  have hnil : L = [] := by
    refine hL.2 fun c hc => ?_
    obtain ⟨entry, he, ht, -, -, hstart, -⟩ := inMap_mapBlocks c hc
    have := hlow entry he ht
    omega
  refine ⟨b, P, hs, hH.spells, fun x => ?_⟩
  have hw := hH.account (hits 12 x) (splits_hits x)
  rw [hnil] at hw
  have hle := hits_mapBlocks h e x
  split_ifs with hm
  · obtain ⟨c, hc, hx⟩ := covers_mapBlocks.2 hm
    have hpos := hits_pos hc hx
    omega
  · have hz : weight (hits 12 x) (mapBlocks memmap e) = 0 := by
      by_contra hne
      exact hm (covers_mapBlocks.1 (exists_covers hne))
    omega

/-- five pages from 4096 on, the second of them with one reserved byte -/
theorem init_covers_four : ∃ b P,
    (NumaBuddy.newUninit fun _ => ⟨0, 0⟩).init [⟨0x1000, 0x5000, 0⟩] ⟨(0x2000, 0x2001), (0, 0), []⟩ = some b ∧
      ∀ x, weight (hits 12 x) (freeBlocks P) =
        if Managed [⟨0x1000, 0x5000, 0⟩] ⟨(0x2000, 0x2001), (0, 0), []⟩ x then 1 else 0 := by
  obtain ⟨b, P, hb, -, hP⟩ := @init_covers [⟨0x1000, 0x5000, 0⟩] ⟨by simp, by simp⟩ (by simp)
    ⟨(0x2000, 0x2001), (0, 0), []⟩ fun _ => ⟨0, 0⟩
  exact ⟨b, P, hb, hP⟩

end Rumicos.Memory.Buddy
