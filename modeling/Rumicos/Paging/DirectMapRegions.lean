/-
What the region loops of `map_direct_memory` map (`map_region_4k`, `map_region_2m` and the 1 GiB loop).

A 4 KiB region never leaves one 2 MiB block: it is the head or the tail of a region that `map_region_2m` cuts. A region
with an end of a block inside it is mapped page by page exactly. A region strictly inside one block is not: its head is
mapped up to the end of the block and its tail from the start of the block, which together is the whole block.
-/
import Rumicos.Paging.DirectMapView

namespace Rumicos.Paging.DirectMap

open List Option

variable {flags : PageFlags} {fuel : ℕ} {b b' : Builder}

/-! ## 4 KiB pages of one block -/

/-- the part of block `n` between the offsets `i` and `j` -/
def InPart (n i j k : ℕ) : Prop := k / 512 = n % 2 ^ 27 ∧ i / 4096 ≤ k % 512 ∧ 4096 * (k % 512) < j

section Region4k

variable {n i j start stop : ℕ}

theorem draws_region4k (hF : flags.has bitPresent = true) (hn : n + 1 < 2 ^ 31) (hstart : start = 2 ^ 21 * n + i)
    (hstop : stop = 2 ^ 21 * n + j) (hj : j ≤ 2 ^ 21) (h : mapRegion4k fuel start stop flags b = some b') :
    Draws (cacheBits flags) (InPart n i j) (fun _ => False) b b' := by
  have hdraw := Draws.loop (c := cacheBits flags) (R := fun x k => k = x / 4096 % 2 ^ 36) (H := fun _ _ => False)
    (dvd_alignUp _ _) (by unfold alignUp; omega) (fun b b' phys _ hb => ?_) (dvd_alignDown _ _) h
  · refine hdraw.congr (fun k hk => ?_) fun _ _ => by simp
    unfold InPart alignDown alignUp
    constructor
    · omega
    · rintro ⟨hblock, hlo, hhi⟩
      exact ⟨4096 * (512 * n + k % 512), Dvd.intro _ rfl, by omega, by omega, by omega⟩
  · by_cases hhuge : b.IsHuge (phys / 2 ^ 21)
    · rw [mapPage_isHuge flags hhuge] at hb
      cases hb
    · obtain ⟨b1, hb1, hdraw⟩ := draws_mapPage hF b phys hhuge
      rw [hb1] at hb
      cases hb
      exact hdraw

theorem region4k_huge (hhuge : b.IsHuge n) (hstart : start = 2 ^ 21 * n + i) (hi : i < 2 ^ 21) (hlt : start < stop) :
    mapRegion4k fuel start stop flags b = none := by
  have hlt : alignDown 4096 start < alignUp 4096 stop := by
    unfold alignDown alignUp
    omega
  have hblock : alignDown 4096 start / 2 ^ 21 = n := by
    unfold alignDown
    omega
  unfold mapRegion4k
  cases fuel with
  | zero => rw [whilePhys, if_pos hlt]
  | succ fuel =>
    rw [whilePhys, if_pos hlt, mapPage_isHuge flags (by rwa [hblock])]
    rfl

theorem region4k_total (hF : flags.has bitPresent = true) (hn : n + 1 < 2 ^ 31) (hstart : start = 2 ^ 21 * n + i)
    (hstop : stop = 2 ^ 21 * n + j) (hj : j ≤ 2 ^ 21) (hfuel : 512 ≤ fuel) (hfree : ¬ b.IsHuge n) :
    ∃ b', mapRegion4k fuel start stop flags b = some b' := by
  subst hstart hstop
  have hbody (b : Builder) (phys : ℕ) (hI : ¬ b.IsHuge n) (_ : 4096 ∣ phys) (hlo : alignDown 4096 (2 ^ 21 * n) ≤ phys)
      (hhi : phys < alignUp 4096 (2 ^ 21 * n + j)) :
      ∃ b', b.mapPage (virtOf phys) phys flags = some b' ∧ ¬ b'.IsHuge n := by
    have hblock : phys / 2 ^ 21 = n := by
      unfold alignDown at hlo
      unfold alignUp at hhi
      omega
    obtain ⟨b1, hb1, hdraw⟩ := draws_mapPage hF b phys (by rwa [hblock])
    refine ⟨b1, hb1, fun hhuge => hI ?_⟩
    rw [b1.isHuge_congr (Nat.mod_mod n (2 ^ 27)).symm, hdraw.huge _ (Nat.mod_lt _ (by decide)), false_or,
      b.isHuge_congr (Nat.mod_mod n (2 ^ 27))] at hhuge
    exact hhuge
  obtain ⟨b', hb', -⟩ := whilePhys_total (fun b => ¬ b.IsHuge n) (dvd_alignUp _ _) (by unfold alignUp; omega) hbody
    fuel (dvd_alignDown 4096 (2 ^ 21 * n + i)) (by unfold alignDown; omega)
    (by unfold alignDown alignUp; omega) hfree
  exact ⟨b', hb'⟩

end Region4k

/-! ## 2 MiB pages -/

theorem whilePhys_of_le {step stop a : ℕ} {body : Builder → ℕ → Option Builder} (h : stop ≤ a) :
    whilePhys step stop body fuel a b = some b := by
  cases fuel with
  | zero | succ fuel => rw [whilePhys, if_neg (by omega)]

theorem draws_hugePages (hF : flags.has bitPresent = true) {a e : ℕ} (ha : 2 ^ 21 ∣ a) (he : 2 ^ 21 ∣ e)
    (hlow : e ≤ 2 ^ 47) (h : whilePhys (2 ^ 21) e (mapHugePage2m flags) fuel a b = some b') :
    Draws (cacheBits flags) (fun k => a ≤ 4096 * k ∧ 4096 * k < e) (fun n => a ≤ 2 ^ 21 * n ∧ 2 ^ 21 * n < e) b b' := by
  have hdraw := Draws.loop (c := cacheBits flags) (R := fun x k => k / 512 = x / 2 ^ 21 % 2 ^ 27)
    (H := fun x n => n = x / 2 ^ 21 % 2 ^ 27) he (by omega) (fun b b' phys hphys hb => ?_) ha h
  · refine hdraw.congr (fun k hk => ?_) fun n hn => ?_
    · constructor
      · omega
      · rintro ⟨hlo, hhi⟩
        exact ⟨2 ^ 21 * (k / 512), Dvd.intro _ rfl, by omega, by omega, by omega⟩
    · constructor
      · omega
      · rintro ⟨hlo, hhi⟩
        exact ⟨2 ^ 21 * n, Dvd.intro _ rfl, by omega, by omega, by omega⟩
  · obtain ⟨b1, hb1, hdraw⟩ := draws_mapHuge2m hF b (Nat.mod_eq_zero_of_dvd hphys)
    unfold mapHugePage2m at hb
    rw [hb1] at hb
    cases hb
    exact hdraw

theorem hugePages_total (hF : flags.has bitPresent = true) {step a e : ℕ} (hstep : 2 ^ 21 ∣ step) (ha : step ∣ a)
    (he : step ∣ e) (hlow : e < 2 ^ 52) (hfuel : e ≤ a + fuel * step) (b : Builder) :
    ∃ b', whilePhys step e (mapHugePage2m flags) fuel a b = some b' := by
  have hbody (b : Builder) (phys : ℕ) (_ : True) (hp : step ∣ phys) (_ : 0 ≤ phys) (_ : phys < e) :
      ∃ b', mapHugePage2m flags b phys = some b' ∧ True := by
    obtain ⟨b1, hb1, -⟩ := draws_mapHuge2m hF b (Nat.mod_eq_zero_of_dvd (hstep.trans hp))
    exact ⟨b1, hb1, trivial⟩
  obtain ⟨b', hb', -⟩ := whilePhys_total (fun _ => True) he hlow hbody fuel ha (Nat.zero_le _) hfuel trivial
  exact ⟨b', hb'⟩

theorem region2m_eq_some {start stop : ℕ} (h : mapRegion2m fuel start stop flags b = some b') :
    ∃ b1 b2, whilePhys (2 ^ 21) (alignDown (2 ^ 21) stop) (mapHugePage2m flags) fuel (alignUp (2 ^ 21) start) b = some b1 ∧
      (if start < alignUp (2 ^ 21) start then mapRegion4k fuel start (alignUp (2 ^ 21) start) flags b1 else some b1) =
        some b2 ∧
      (if alignDown (2 ^ 21) stop < stop then mapRegion4k fuel (alignDown (2 ^ 21) stop) stop flags b2 else some b2) =
        some b' := by
  obtain ⟨b1, h1, h⟩ := bind_eq_some_iff.1 h
  obtain ⟨b2, h2, h3⟩ := bind_eq_some_iff.1 h
  refine ⟨b1, b2, ?_, h2, h3⟩
  split at h1
  · exact h1
  · cases h1
    exact whilePhys_of_le (by omega)

section

variable (hF : flags.has bitPresent = true)
include hF

theorem draws_head {start : ℕ} (hlow : start / 2 ^ 21 + 1 < 2 ^ 31)
    (h : (if start < alignUp (2 ^ 21) start then mapRegion4k fuel start (alignUp (2 ^ 21) start) flags b else some b) =
      some b') :
    Draws (cacheBits flags)
      (fun k => start % 2 ^ 21 ≠ 0 ∧ InPart (start / 2 ^ 21) (start % 2 ^ 21) (2 ^ 21) k) (fun _ => False) b b' := by
  split at h
  · rename_i hlt
    unfold alignUp at hlt
    have hstop : alignUp (2 ^ 21) start = 2 ^ 21 * (start / 2 ^ 21) + 2 ^ 21 := by
      unfold alignUp
      omega
    have hdraw := draws_region4k hF hlow (Nat.div_add_mod start (2 ^ 21)).symm hstop le_rfl h
    exact hdraw.congr (fun k _ => ⟨fun hk => ⟨by omega, hk⟩, And.right⟩) fun _ _ => Iff.rfl
  · rename_i hge
    cases h
    refine (Draws.refl _ _).congr (fun k _ => ?_) fun _ _ => Iff.rfl
    unfold alignUp at hge
    exact ⟨False.elim, fun hk => absurd hk.1 (by omega)⟩

theorem head_total (start : ℕ) (hlow : start / 2 ^ 21 + 1 < 2 ^ 31)
    (hfuel : 512 ≤ fuel) (hfree : start % 2 ^ 21 ≠ 0 → ¬ b.IsHuge (start / 2 ^ 21)) :
    ∃ b', (if start < alignUp (2 ^ 21) start then mapRegion4k fuel start (alignUp (2 ^ 21) start) flags b
      else some b) = some b' := by
  split
  · rename_i hlt
    unfold alignUp at hlt
    have hstop : alignUp (2 ^ 21) start = 2 ^ 21 * (start / 2 ^ 21) + 2 ^ 21 := by
      unfold alignUp
      omega
    exact region4k_total hF hlow (Nat.div_add_mod start (2 ^ 21)).symm hstop le_rfl hfuel (hfree (by omega))
  · exact ⟨b, rfl⟩

theorem draws_tail {stop : ℕ} (hlow : stop / 2 ^ 21 + 1 < 2 ^ 31)
    (h : (if alignDown (2 ^ 21) stop < stop then mapRegion4k fuel (alignDown (2 ^ 21) stop) stop flags b else some b) =
      some b') :
    Draws (cacheBits flags) (InPart (stop / 2 ^ 21) 0 (stop % 2 ^ 21)) (fun _ => False) b b' := by
  split at h
  · exact draws_region4k hF hlow (by unfold alignDown; omega) (Nat.div_add_mod stop (2 ^ 21)).symm
      (Nat.mod_lt _ (by decide)).le h
  · rename_i hge
    cases h
    refine (Draws.refl _ _).congr (fun k _ => ?_) fun _ _ => Iff.rfl
    unfold alignDown at hge
    exact ⟨False.elim, fun hk => absurd hk.2.2 (by omega)⟩

theorem tail_total (stop : ℕ) (hlow : stop / 2 ^ 21 + 1 < 2 ^ 31)
    (hfuel : 512 ≤ fuel) (hfree : stop % 2 ^ 21 ≠ 0 → ¬ b.IsHuge (stop / 2 ^ 21)) :
    ∃ b', (if alignDown (2 ^ 21) stop < stop then mapRegion4k fuel (alignDown (2 ^ 21) stop) stop flags b
      else some b) = some b' := by
  split
  · rename_i hlt
    unfold alignDown at hlt
    exact region4k_total hF hlow (by unfold alignDown; omega : _ = _ + 0) (Nat.div_add_mod stop (2 ^ 21)).symm
      (Nat.mod_lt _ (by decide)).le hfuel (hfree (by omega))
  · exact ⟨b, rfl⟩

/-- **Regions with an end of a block inside.** They draw the pages they touch, and the blocks inside them become huge. -/
theorem draws_region2m {start stop : ℕ} (hlow : stop ≤ 2 ^ 47)
    (hcut : alignUp (2 ^ 21) start ≤ alignDown (2 ^ 21) stop) (h : mapRegion2m fuel start stop flags b = some b') :
    Draws (cacheBits flags) (fun k => start / 4096 ≤ k ∧ 4096 * k < stop)
      (fun n => start ≤ 2 ^ 21 * n ∧ 2 ^ 21 * (n + 1) ≤ stop) b b' := by
  obtain ⟨b1, b2, h1, h2, h3⟩ := region2m_eq_some h
  have hle : alignDown (2 ^ 21) stop ≤ stop := by unfold alignDown; omega
  have hhead : start / 2 ^ 21 + 1 < 2 ^ 31 := by unfold alignUp at hcut; omega
  have hdraw := ((draws_hugePages hF (dvd_alignUp _ _) (dvd_alignDown _ _) (by omega) h1).trans
    (draws_head hF hhead h2)).trans (draws_tail hF (by omega) h3)
  unfold alignUp alignDown at hcut
  refine hdraw.congr (fun k hk => ?_) fun n hn => ?_
  · unfold InPart alignUp alignDown
    omega
  · simp only [or_false, alignUp, alignDown]
    omega

theorem region2m_total {start stop : ℕ} (hlow : stop ≤ 2 ^ 47)
    (hcut : alignUp (2 ^ 21) start ≤ alignDown (2 ^ 21) stop) (hfuel : 2 ^ 47 ≤ fuel)
    (hhead : start % 2 ^ 21 ≠ 0 → ¬ b.IsHuge (start / 2 ^ 21)) (htail : stop % 2 ^ 21 ≠ 0 → ¬ b.IsHuge (stop / 2 ^ 21)) :
    ∃ b', mapRegion2m fuel start stop flags b = some b' := by
  have hle : alignDown (2 ^ 21) stop ≤ stop := by unfold alignDown; omega
  have hhead' : start / 2 ^ 21 + 1 < 2 ^ 31 := by unfold alignUp at hcut; omega
  obtain ⟨b1, h1⟩ := hugePages_total hF (dvd_refl _) (dvd_alignUp (2 ^ 21) start) (dvd_alignDown (2 ^ 21) stop)
    (by omega) (by omega : _ ≤ _ + fuel * 2 ^ 21) b
  have huge1 := (draws_hugePages hF (dvd_alignUp _ _) (dvd_alignDown _ _) (by omega) h1).huge
  have hfuel' : 512 ≤ fuel := by omega
  obtain ⟨b2, h2⟩ := head_total (b := b1) hF start hhead' hfuel' fun hne => by
    rw [huge1 _ (by unfold alignUp at hcut; omega)]
    rintro (⟨hlo, -⟩ | hh)
    · unfold alignUp at hlo
      omega
    · exact hhead hne hh
  have huge2 := (draws_head hF hhead' h2).huge
  obtain ⟨b3, h3⟩ := tail_total (b := b2) hF stop (by omega) hfuel' fun hne => by
    rw [huge2 _ (by omega), false_or, huge1 _ (by omega)]
    rintro (⟨-, hhi⟩ | hh)
    · unfold alignDown at hhi
      omega
    · exact htail hne hh
  refine ⟨b3, ?_⟩
  unfold mapRegion2m
  dsimp only
  have hloop : (if alignUp (2 ^ 21) start < alignDown (2 ^ 21) stop then
      whilePhys (2 ^ 21) (alignDown (2 ^ 21) stop) (mapHugePage2m flags) fuel (alignUp (2 ^ 21) start) b else some b) =
      some b1 := by
    split
    · exact h1
    · rw [whilePhys_of_le (by omega)] at h1
      exact h1
  rw [hloop, bind_some, h2, bind_some, h3]

end

/-! ## Regions strictly inside a block -/

/-- the two parts of `map_region_2m` when no end of a block lies inside -/
theorem region2m_small {start stop : ℕ} (hsmall : alignDown (2 ^ 21) stop < alignUp (2 ^ 21) start) :
    mapRegion2m fuel start stop flags b =
      (if start < alignUp (2 ^ 21) start then mapRegion4k fuel start (alignUp (2 ^ 21) start) flags b else some b).bind
        fun b => if alignDown (2 ^ 21) stop < stop then mapRegion4k fuel (alignDown (2 ^ 21) stop) stop flags b
          else some b := by
  unfold mapRegion2m
  dsimp only
  rw [if_neg (by omega), bind_some]

section Small

variable {start stop n : ℕ}

/-- **Regions strictly inside a block.** They draw the whole block. -/
theorem draws_region2m_small (hF : flags.has bitPresent = true) (hle : start ≤ stop) (hn : n + 1 < 2 ^ 31)
    (hstart : start / 2 ^ 21 = n) (hstop : stop / 2 ^ 21 = n) (hin : start % 2 ^ 21 ≠ 0)
    (h : mapRegion2m fuel start stop flags b = some b') :
    Draws (cacheBits flags) (fun k => k / 512 = n % 2 ^ 27) (fun _ => False) b b' := by
  rw [region2m_small (by unfold alignDown alignUp; omega)] at h
  obtain ⟨b1, h1, h2⟩ := bind_eq_some_iff.1 h
  have hdraw := (draws_head hF (by omega) h1).trans (draws_tail hF (by omega) h2)
  refine hdraw.congr (fun k hk => ?_) fun _ _ => by simp
  unfold InPart
  omega

theorem region2m_small_huge (hstart : start / 2 ^ 21 = n) (hstop : stop / 2 ^ 21 = n) (hin : start % 2 ^ 21 ≠ 0)
    (hhuge : b.IsHuge n) : mapRegion2m fuel start stop flags b = none := by
  have hlt : start < alignUp (2 ^ 21) start := by unfold alignUp; omega
  rw [region2m_small (by unfold alignDown alignUp; omega), if_pos hlt,
    region4k_huge hhuge (by omega : start = 2 ^ 21 * n + start % 2 ^ 21) (Nat.mod_lt _ (by decide)) hlt]
  rfl

theorem region2m_small_last (hstart : start / 2 ^ 21 = 2 ^ 31 - 1) (hstop : stop / 2 ^ 21 = 2 ^ 31 - 1)
    (hin : start % 2 ^ 21 ≠ 0) : mapRegion2m fuel start stop flags b = none := by
  have hup : alignUp (2 ^ 21) start = 2 ^ 52 := by unfold alignUp; omega
  rw [region2m_small (by unfold alignDown alignUp; omega), hup, if_pos (by omega)]
  have hend : alignUp 4096 (2 ^ 52) = 2 ^ 52 := by decide
  unfold mapRegion4k
  rw [hend, whilePhys_forever _ fuel (by unfold alignDown; omega) b]
  rfl

theorem region2m_small_total (hF : flags.has bitPresent = true) (hn : n + 1 < 2 ^ 31) (hfuel : 512 ≤ fuel)
    (hstart : start / 2 ^ 21 = n) (hstop : stop / 2 ^ 21 = n) (hin : start % 2 ^ 21 ≠ 0) (hfree : ¬ b.IsHuge n) :
    ∃ b', mapRegion2m fuel start stop flags b = some b' := by
  obtain ⟨b1, h1⟩ := head_total (b := b) hF start (by omega) hfuel fun _ => by rwa [hstart]
  have huge1 := (draws_head hF (by omega) h1).huge
  have hfree1 : ¬ b1.IsHuge n := by
    rw [b1.isHuge_congr (Nat.mod_mod n (2 ^ 27)).symm, huge1 _ (Nat.mod_lt _ (by decide)), false_or,
      b.isHuge_congr (Nat.mod_mod n (2 ^ 27))]
    exact hfree
  obtain ⟨b2, h2⟩ := tail_total (b := b1) hF stop (by omega) hfuel fun _ => by rwa [hstop]
  exact ⟨b2, by rw [region2m_small (by unfold alignDown alignUp; omega), h1, bind_some, h2]⟩

end Small

/-! ## Aligned GiBs -/

/-- **1 GiB pages.** Of every GiB in the range only the first 2 MiB are drawn. -/
theorem draws_gibs (hF : flags.has bitPresent = true) {a e : ℕ} (ha : 2 ^ 30 ∣ a) (he : 2 ^ 30 ∣ e) (hlow : e ≤ 2 ^ 47)
    (h : whilePhys (2 ^ 30) e (mapHugePage1g flags) fuel a b = some b') :
    Draws (cacheBits flags) (fun k => a ≤ 4096 * k ∧ 4096 * k < e ∧ k % 2 ^ 18 < 512)
      (fun n => a ≤ 2 ^ 21 * n ∧ 2 ^ 21 * n < e ∧ n % 512 = 0) b b' := by
  have hdraw := Draws.loop (c := cacheBits flags) (R := fun x k => k / 512 = x / 2 ^ 21 % 2 ^ 27)
    (H := fun x n => n = x / 2 ^ 21 % 2 ^ 27) he (by omega) (fun b b' phys hphys hb => ?_) ha h
  · refine hdraw.congr (fun k hk => ?_) fun n hn => ?_
    · constructor
      · omega
      · rintro ⟨hlo, hhi, hfirst⟩
        exact ⟨2 ^ 30 * (k / 2 ^ 18), Dvd.intro _ rfl, by omega, by omega, by omega⟩
    · constructor
      · omega
      · rintro ⟨hlo, hhi, hfirst⟩
        exact ⟨2 ^ 21 * n, by omega, by omega, by omega, by omega⟩
  · have hphys2 : phys % 2 ^ 21 = 0 := by
      omega
    obtain ⟨b1, hb1, hdraw⟩ := draws_mapHuge2m hF b hphys2
    unfold mapHugePage1g mapHugePage2m at hb
    rw [hb1] at hb
    cases hb
    exact hdraw

end Rumicos.Paging.DirectMap
