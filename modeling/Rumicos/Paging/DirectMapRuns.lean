/-
`map_direct_memory` as a whole: for which memory maps the direct map is exact.

An entry reaches the pages it touches, with two exceptions. Of every aligned GiB inside it only the first 2 MiB are mapped
(`Dropped`), and an entry strictly inside a 2 MiB block (`Small`) reaches the whole block. Where several entries reach a
page, the last one decides its cache bits.
-/
import Rumicos.Lib.Run
import Rumicos.Paging.DirectMapRegions

namespace Rumicos.Paging.DirectMap

open Lib List Option

/-! ## What an entry reaches -/

namespace MemMapEntry

/-- the cache bits of its pages -/
def cache (e : MemMapEntry) : Bool × Bool := cacheBits e.flags

/-- page `k` has a byte of the entry -/
def Touches (e : MemMapEntry) (k : ℕ) : Prop := 0 < e.length ∧ e.base / 4096 ≤ k ∧ 4096 * k < e.base + e.length

/-- page `k` is in an aligned GiB inside the entry, and not in its first 2 MiB -/
def Dropped (e : MemMapEntry) (k : ℕ) : Prop :=
  e.base ≤ 2 ^ 30 * (k / 2 ^ 18) ∧ 2 ^ 30 * (k / 2 ^ 18 + 1) ≤ e.base + e.length ∧ 512 ≤ k % 2 ^ 18

/-- both ends are in one 2 MiB block, the first one not at its start -/
def Small (e : MemMapEntry) : Prop := e.base % 2 ^ 21 ≠ 0 ∧ e.base / 2 ^ 21 = (e.base + e.length) / 2 ^ 21

/-- page `k` is in the 2 MiB block of the base; blocks repeat after 48 bits -/
def InBlock (e : MemMapEntry) (k : ℕ) : Prop := k / 512 = e.base / 2 ^ 21 % 2 ^ 27

def Reaches (e : MemMapEntry) (k : ℕ) : Prop := e.Touches k ∧ ¬ e.Dropped k ∨ e.Small ∧ e.InBlock k

/-- block `n` is inside the entry and not dropped: it becomes one page -/
def HoldsBlock (e : MemMapEntry) (n : ℕ) : Prop :=
  e.base ≤ 2 ^ 21 * n ∧ 2 ^ 21 * (n + 1) ≤ e.base + e.length ∧ ¬ e.Dropped (512 * n)

/-- if it has bytes, they have addresses in the direct map -/
def Low (e : MemMapEntry) : Prop := 0 < e.length → e.base + e.length ≤ 2 ^ 47

instance (e : MemMapEntry) (k : ℕ) : Decidable (e.Touches k) := by unfold Touches; infer_instance
instance (e : MemMapEntry) (k : ℕ) : Decidable (e.Dropped k) := by unfold Dropped; infer_instance
instance (e : MemMapEntry) : Decidable e.Small := by unfold Small; infer_instance
instance (e : MemMapEntry) (k : ℕ) : Decidable (e.InBlock k) := by unfold InBlock; infer_instance
instance (e : MemMapEntry) (k : ℕ) : Decidable (e.Reaches k) := by unfold Reaches; infer_instance

theorem touches_iff {e : MemMapEntry} {k : ℕ} : e.Touches k ↔ ∃ p, e.Holds p ∧ p / 4096 = k := by
  unfold Touches Holds
  constructor
  · rintro ⟨hpos, hlo, hhi⟩
    exact ⟨max e.base (4096 * k), by omega, by omega⟩
  · omega

theorem flags_present (e : MemMapEntry) : e.flags.has bitPresent = true := by
  unfold flags
  split <;> decide

end MemMapEntry

section Entries

variable {fuel : ℕ} {b b' : Builder} {e : MemMapEntry}

theorem start_stop (hlow : e.Low) (hpos : 0 < e.length) :
    physNew e.base = e.base ∧ physNew ((e.base + e.length) % 2 ^ 64) = e.base + e.length := by
  have h := hlow hpos
  unfold physNew
  omega

theorem mapEntry_small (fuel : ℕ) (b : Builder) (hlow : e.Low) (hsmall : e.Small) :
    mapEntry fuel b e = mapRegion2m fuel (physNew e.base) (physNew ((e.base + e.length) % 2 ^ 64)) e.flags b ∧
      physNew e.base ≤ physNew ((e.base + e.length) % 2 ^ 64) ∧ physNew e.base % 2 ^ 21 ≠ 0 ∧
      physNew e.base / 2 ^ 21 = e.base / 2 ^ 21 % 2 ^ 31 ∧
      physNew ((e.base + e.length) % 2 ^ 64) / 2 ^ 21 = e.base / 2 ^ 21 % 2 ^ 31 := by
  obtain ⟨hin, hblock⟩ := hsmall
  have hbounds : physNew e.base ≤ physNew ((e.base + e.length) % 2 ^ 64) ∧ physNew e.base % 2 ^ 21 ≠ 0 ∧
      physNew e.base / 2 ^ 21 = e.base / 2 ^ 21 % 2 ^ 31 ∧
      physNew ((e.base + e.length) % 2 ^ 64) / 2 ^ 21 = e.base / 2 ^ 21 % 2 ^ 31 := by
    rcases Nat.eq_zero_or_pos e.length with hzero | hpos
    · unfold physNew
      omega
    · have h := hlow hpos
      obtain ⟨h1, h2⟩ := start_stop hlow hpos
      omega
  refine ⟨?_, hbounds⟩
  unfold mapEntry
  rw [if_neg]
  unfold alignUp alignDown
  omega

theorem draws_mapEntry_small (hlow : e.Low) (hsmall : e.Small) (h : mapEntry fuel b e = some b') :
    Draws e.cache e.Reaches e.HoldsBlock b b' ∧ e.base / 2 ^ 21 % 2 ^ 31 ≠ 2 ^ 31 - 1 ∧ ¬ b.IsHuge (e.base / 2 ^ 21) := by
  obtain ⟨hmap, hle, hin, hstart, hstop⟩ := mapEntry_small fuel b hlow hsmall
  rw [hmap] at h
  have hlast : e.base / 2 ^ 21 % 2 ^ 31 ≠ 2 ^ 31 - 1 := by
    intro hlast
    rw [region2m_small_last (hstart.trans hlast) (hstop.trans hlast) hin] at h
    cases h
  refine ⟨?_, hlast, fun hhuge => ?_⟩
  · have hdraw := draws_region2m_small e.flags_present hle (by omega) hstart hstop hin h
    obtain ⟨hoff, hblock⟩ := hsmall
    refine hdraw.congr (fun k hk => ?_) fun n hn => ?_
    · have hsmall : e.Small := ⟨hoff, hblock⟩
      unfold MemMapEntry.Reaches MemMapEntry.Touches MemMapEntry.InBlock
      simp only [hsmall, true_and]
      omega
    · unfold MemMapEntry.HoldsBlock
      refine ⟨False.elim, fun h => ?_⟩
      omega
  · rw [b.isHuge_congr (by omega : e.base / 2 ^ 21 % 2 ^ 27 = e.base / 2 ^ 21 % 2 ^ 31 % 2 ^ 27)] at hhuge
    rw [region2m_small_huge hstart hstop hin hhuge] at h
    cases h

theorem mapEntry_empty (hzero : e.length = 0) (hsmall : ¬ e.Small) : mapEntry fuel b e = some b := by
  have hbase : e.base % 2 ^ 21 = 0 := by
    unfold MemMapEntry.Small at hsmall
    omega
  have hmap : mapEntry fuel b e = mapRegion2m fuel (physNew e.base) (physNew e.base) e.flags b := by
    have hstop : physNew ((e.base + e.length) % 2 ^ 64) = physNew e.base := by
      unfold physNew
      omega
    unfold mapEntry
    rw [hstop, if_neg]
    unfold alignUp alignDown
    omega
  have haligned : physNew e.base % 2 ^ 21 = 0 := by
    unfold physNew
    omega
  have hup : alignUp (2 ^ 21) (physNew e.base) = physNew e.base := by
    unfold alignUp
    omega
  have hdown : alignDown (2 ^ 21) (physNew e.base) = physNew e.base := by
    unfold alignDown
    omega
  rw [hmap]
  unfold mapRegion2m
  simp only [hup, hdown, lt_irrefl, if_false, bind_some]

theorem draws_optional {flags : PageFlags} (hF : flags.has bitPresent = true) {start stop : ℕ} (hlow : stop ≤ 2 ^ 47)
    (haligned : start % 2 ^ 21 = 0 ∨ stop % 2 ^ 21 = 0) (hle : start ≤ stop)
    (h : (if start < stop then mapRegion2m fuel start stop flags b else some b) = some b') :
    Draws (cacheBits flags) (fun k => start < stop ∧ start / 4096 ≤ k ∧ 4096 * k < stop)
      (fun n => start ≤ 2 ^ 21 * n ∧ 2 ^ 21 * (n + 1) ≤ stop) b b' := by
  split at h
  · rename_i hlt
    have hcut : alignUp (2 ^ 21) start ≤ alignDown (2 ^ 21) stop := by
      unfold alignUp alignDown
      omega
    exact (draws_region2m hF hlow hcut h).congr (fun k _ => by simp [hlt]) fun _ _ => Iff.rfl
  · cases h
    refine (Draws.refl _ _).congr (fun k _ => ?_) fun n _ => ?_
    · exact ⟨False.elim, fun h => by omega⟩
    · exact ⟨False.elim, fun h => by omega⟩

theorem draws_mapEntry_large (hlow : e.Low) (hpos : 0 < e.length) (hsmall : ¬ e.Small)
    (h : mapEntry fuel b e = some b') : Draws e.cache e.Reaches e.HoldsBlock b b' := by
  have hend := hlow hpos
  obtain ⟨hstart, hstop⟩ := start_stop hlow hpos
  unfold mapEntry at h
  dsimp only at h
  rw [hstart, hstop] at h
  unfold MemMapEntry.Small at hsmall
  split at h
  · -- an aligned GiB inside: the GiBs, the head, the tail
    rename_i hgib
    obtain ⟨b1, h1, h⟩ := bind_eq_some_iff.1 h
    obtain ⟨b2, h2, h3⟩ := bind_eq_some_iff.1 h
    have hle : alignDown (2 ^ 30) (e.base + e.length) ≤ e.base + e.length := by unfold alignDown; omega
    have hge : e.base ≤ alignUp (2 ^ 30) e.base := by unfold alignUp; omega
    have hdraw := ((draws_gibs e.flags_present (dvd_alignUp _ _) (dvd_alignDown _ _) (by omega) h1).trans
      (draws_optional e.flags_present (by omega) (.inr (by unfold alignUp; omega)) hge h2)).trans
      (draws_optional e.flags_present hend (.inl (by unfold alignDown; omega)) hle h3)
    unfold alignUp alignDown at hgib hdraw
    refine hdraw.congr (fun k hk => ?_) fun n hn => ?_
    · unfold MemMapEntry.Reaches MemMapEntry.Touches MemMapEntry.Dropped MemMapEntry.Small
      omega
    · unfold MemMapEntry.HoldsBlock MemMapEntry.Dropped
      omega
  · rename_i hgib
    have hcut : alignUp (2 ^ 21) e.base ≤ alignDown (2 ^ 21) (e.base + e.length) := by
      unfold alignUp alignDown
      omega
    unfold alignUp alignDown at hgib
    refine (draws_region2m e.flags_present hend hcut h).congr (fun k hk => ?_) fun n hn => ?_
    · unfold MemMapEntry.Reaches MemMapEntry.Touches MemMapEntry.Dropped MemMapEntry.Small
      omega
    · unfold MemMapEntry.HoldsBlock MemMapEntry.Dropped
      omega

/-- **One entry** draws the pages it reaches; a small one must find its block free of a 2 MiB page. -/
theorem draws_mapEntry (hlow : e.Low) (h : mapEntry fuel b e = some b') :
    Draws e.cache e.Reaches e.HoldsBlock b b' ∧
      (e.Small → e.base / 2 ^ 21 % 2 ^ 31 ≠ 2 ^ 31 - 1 ∧ ¬ b.IsHuge (e.base / 2 ^ 21)) := by
  by_cases hsmall : e.Small
  · obtain ⟨hdraw, hfree⟩ := draws_mapEntry_small hlow hsmall h
    exact ⟨hdraw, fun _ => hfree⟩
  refine ⟨?_, fun h => absurd h hsmall⟩
  rcases Nat.eq_zero_or_pos e.length with hzero | hpos
  · rw [mapEntry_empty hzero hsmall] at h
    cases h
    refine (Draws.refl _ _).congr (fun k _ => ?_) fun n _ => ?_
    · unfold MemMapEntry.Reaches MemMapEntry.Touches
      exact ⟨False.elim, fun h => h.elim (fun h => by omega) fun h => hsmall h.1⟩
    · unfold MemMapEntry.HoldsBlock
      exact ⟨False.elim, fun h => by omega⟩
  · exact draws_mapEntry_large hlow hpos hsmall h

theorem optional_total {flags : PageFlags} (hF : flags.has bitPresent = true) (start stop : ℕ) (hlow : stop ≤ 2 ^ 47)
    (haligned : start % 2 ^ 21 = 0 ∨ stop % 2 ^ 21 = 0) (hfuel : 2 ^ 47 ≤ fuel)
    (hhead : start % 2 ^ 21 ≠ 0 → ¬ b.IsHuge (start / 2 ^ 21)) (htail : stop % 2 ^ 21 ≠ 0 → ¬ b.IsHuge (stop / 2 ^ 21)) :
    ∃ b', (if start < stop then mapRegion2m fuel start stop flags b else some b) = some b' := by
  split
  · refine region2m_total hF hlow ?_ hfuel hhead htail
    unfold alignUp alignDown
    omega
  · exact ⟨b, rfl⟩

theorem mapEntry_large_total (hlow : e.Low) (hpos : 0 < e.length) (hsmall : ¬ e.Small) (hfuel : 2 ^ 47 ≤ fuel)
    (hhead : e.base % 2 ^ 21 ≠ 0 → ¬ b.IsHuge (e.base / 2 ^ 21))
    (htail : (e.base + e.length) % 2 ^ 21 ≠ 0 → ¬ b.IsHuge ((e.base + e.length) / 2 ^ 21)) :
    ∃ b', mapEntry fuel b e = some b' := by
  have hend := hlow hpos
  obtain ⟨hstart, hstop⟩ := start_stop hlow hpos
  unfold mapEntry
  dsimp only
  rw [hstart, hstop]
  split
  · have hle : alignDown (2 ^ 30) (e.base + e.length) ≤ e.base + e.length := by unfold alignDown; omega
    have hge : e.base ≤ alignUp (2 ^ 30) e.base := by unfold alignUp; omega
    obtain ⟨b1, h1⟩ := hugePages_total e.flags_present (Dvd.intro 512 rfl : 2 ^ 21 ∣ 2 ^ 30)
      (dvd_alignUp (2 ^ 30) e.base) (dvd_alignDown (2 ^ 30) (e.base + e.length)) (by omega)
      (by omega : _ ≤ _ + fuel * 2 ^ 30) b
    have huge1 := (draws_gibs e.flags_present (dvd_alignUp _ _) (dvd_alignDown _ _) (by omega) h1).huge
    have hup : alignUp (2 ^ 30) e.base % 2 ^ 21 = 0 := by unfold alignUp; omega
    have hdown : alignDown (2 ^ 30) (e.base + e.length) % 2 ^ 21 = 0 := by unfold alignDown; omega
    obtain ⟨b2, h2⟩ := optional_total (b := b1) e.flags_present e.base (alignUp (2 ^ 30) e.base) (by omega)
      (.inr hup) hfuel
      (fun hne => by
        rw [huge1 _ (by omega)]
        rintro (⟨hlo, -⟩ | hh)
        · omega
        · exact hhead hne hh)
      (fun hne => absurd hup hne)
    have huge2 := (draws_optional e.flags_present (by omega) (.inr hup) hge h2).huge
    obtain ⟨b3, h3⟩ := optional_total (b := b2) e.flags_present _ (e.base + e.length) hend (.inl hdown) hfuel
      (fun hne => absurd hdown hne)
      (fun hne => by
        rw [huge2 _ (by omega), huge1 _ (by omega)]
        rintro (⟨-, hhi⟩ | ⟨-, hhi, -⟩ | hh)
        · omega
        · omega
        · exact htail hne hh)
    refine ⟨b3, ?_⟩
    have h1' : whilePhys (2 ^ 30) (alignDown (2 ^ 30) (e.base + e.length)) (mapHugePage1g e.flags) fuel
        (alignUp (2 ^ 30) e.base) b = some b1 := h1
    rw [h1', bind_some, h2, bind_some, h3]
  · refine region2m_total e.flags_present hend ?_ hfuel hhead htail
    unfold MemMapEntry.Small at hsmall
    unfold alignUp alignDown
    omega

theorem mapEntry_total (hlow : e.Low) (hfuel : 2 ^ 47 ≤ fuel)
    (hfree : e.Small → e.base / 2 ^ 21 % 2 ^ 31 ≠ 2 ^ 31 - 1 ∧ ¬ b.IsHuge (e.base / 2 ^ 21))
    (hedge : 0 < e.length → ¬ e.Small → (e.base % 2 ^ 21 ≠ 0 → ¬ b.IsHuge (e.base / 2 ^ 21)) ∧
      ((e.base + e.length) % 2 ^ 21 ≠ 0 → ¬ b.IsHuge ((e.base + e.length) / 2 ^ 21))) :
    ∃ b', mapEntry fuel b e = some b' := by
  by_cases hsmall : e.Small
  · obtain ⟨hmap, hle, hin, hstart, hstop⟩ := mapEntry_small fuel b hlow hsmall
    obtain ⟨hlast, hhuge⟩ := hfree hsmall
    rw [hmap]
    refine region2m_small_total e.flags_present (by omega) (by omega) hstart hstop hin ?_
    rw [← b.isHuge_congr (by omega : e.base / 2 ^ 21 % 2 ^ 27 = e.base / 2 ^ 21 % 2 ^ 31 % 2 ^ 27)]
    exact hhuge
  · rcases Nat.eq_zero_or_pos e.length with hzero | hpos
    · exact ⟨b, mapEntry_empty hzero hsmall⟩
    · exact mapEntry_large_total hlow hpos hsmall hfuel (hedge hpos hsmall).1 (hedge hpos hsmall).2

end Entries

/-! ## Memory maps -/

/-- a memory map: its entries are pairwise disjoint -/
structure MemMap where
  entries : List MemMapEntry
  disjoint : entries.Pairwise fun e f => ∀ p, ¬ (e.Holds p ∧ f.Holds p)

/-- the entries that are not skipped -/
def MemMap.mapped (m : MemMap) : List MemMapEntry := m.entries.filter (·.mappable)

/-- the last of the entries that reach page `k` -/
def lastReach (l : List MemMapEntry) (k : ℕ) : Option MemMapEntry := l.reverse.find? fun e => e.Reaches k

theorem lastReach_append (l : List MemMapEntry) (e : MemMapEntry) (k : ℕ) :
    lastReach (l ++ [e]) k = if e.Reaches k then some e else lastReach l k := by
  simp only [lastReach]
  by_cases h : e.Reaches k <;> simp [h]

/-- what the builder holds after the entries of `l` -/
structure Drawn (l : List MemMapEntry) (b : Builder) : Prop where
  page : ∀ k < 2 ^ 36, b.page k = (lastReach l k).map fun e => (k, e.cache)
  huge : ∀ n < 2 ^ 27, b.IsHuge n ↔ ∃ e ∈ l, e.HoldsBlock n

/-- every small entry lies in a block that no entry before it made a 2 MiB page, and not in the last block below 2^52 -/
def SmallFree (l : List MemMapEntry) : Prop :=
  ∀ pre e post, l = pre ++ e :: post → e.Small →
    e.base / 2 ^ 21 % 2 ^ 31 ≠ 2 ^ 31 - 1 ∧ ∀ a ∈ pre, ¬ a.HoldsBlock (e.base / 2 ^ 21 % 2 ^ 27)

theorem drawn_new : Drawn [] .new := by
  have hnone (v : ℕ) : Builder.new.pdEntry v = none := rfl
  refine ⟨fun k _ => ?_, fun n _ => ?_⟩
  · rfl
  · simp only [Builder.IsHuge, hnone]
    simp

variable {l : List MemMapEntry} {b : Builder} {e : MemMapEntry} {fuel : ℕ} {m : MemMap}

theorem Drawn.isHuge_iff (h : Drawn l b) (n : ℕ) : b.IsHuge n ↔ ∃ e ∈ l, e.HoldsBlock (n % 2 ^ 27) := by
  rw [← h.huge _ (Nat.mod_lt _ (by decide)), b.isHuge_congr (Nat.mod_mod n (2 ^ 27))]

theorem Drawn.append {b' : Builder} (h : Drawn l b) (hdraw : Draws e.cache e.Reaches e.HoldsBlock b b') :
    Drawn (l ++ [e]) b' := by
  refine ⟨fun k hk => ?_, fun n hn => ?_⟩
  · rw [lastReach_append]
    split
    · rename_i hR
      exact hdraw.inside k hk hR
    · rename_i hR
      rw [hdraw.outside k hk hR, h.page k hk]
  · rw [hdraw.huge n hn, h.huge n hn]
    simp only [mem_append, mem_singleton]
    constructor
    · rintro (he | ⟨a, ha, hb⟩)
      · exact ⟨e, .inr rfl, he⟩
      · exact ⟨a, .inl ha, hb⟩
    · rintro ⟨a, ha | rfl, hb⟩
      · exact .inr ⟨a, ha, hb⟩
      · exact .inl hb

/-- the small entry after `pre` found its block free -/
theorem Drawn.not_isHuge {pre : List MemMapEntry} (h : Drawn pre b) :
    ¬ b.IsHuge (e.base / 2 ^ 21) ↔ ∀ a ∈ pre, ¬ a.HoldsBlock (e.base / 2 ^ 21 % 2 ^ 27) := by
  rw [h.isHuge_iff]
  simp

theorem run_drawn {rest : List MemMapEntry} {b' : Builder} (hlow : ∀ e ∈ rest, e.Low) (h : Drawn l b)
    (hrun : rest.foldlM (mapEntry fuel) b = some b') :
    Drawn (l ++ rest) b' ∧ ∀ pre e post, rest = pre ++ e :: post → e.Small →
      e.base / 2 ^ 21 % 2 ^ 31 ≠ 2 ^ 31 - 1 ∧ ∀ a ∈ l ++ pre, ¬ a.HoldsBlock (e.base / 2 ^ 21 % 2 ^ 27) := by
  induction rest generalizing l b with
  | nil =>
    cases hrun
    rw [append_nil]
    refine ⟨h, fun pre e post hnil => ?_⟩
    simp at hnil
  | cons e rest ih =>
    obtain ⟨b1, h1, hrun⟩ := (foldlM_cons_some _ _ _ _ _).1 hrun
    obtain ⟨hdraw, hfree⟩ := draws_mapEntry (hlow e mem_cons_self) h1
    obtain ⟨hdrawn, hrest⟩ := ih (fun e he => hlow e (mem_cons_of_mem _ he)) (h.append hdraw) hrun
    rw [append_assoc] at hdrawn
    refine ⟨hdrawn, fun pre f post hsplit hsmall => ?_⟩
    rcases pre with _ | ⟨x, pre⟩
    · obtain ⟨rfl, -⟩ := List.cons.inj hsplit
      obtain ⟨hlast, hhuge⟩ := hfree hsmall
      rw [append_nil]
      exact ⟨hlast, h.not_isHuge.1 hhuge⟩
    · obtain ⟨rfl, hpost⟩ := List.cons.inj hsplit
      have := hrest pre f post hpost hsmall
      rwa [append_assoc, singleton_append] at this

theorem not_holdsBlock {a : MemMapEntry} (hdisj : ∀ p, ¬ (a.Holds p ∧ e.Holds p)) {p : ℕ} (he : e.Holds p) :
    ¬ a.HoldsBlock (p / 2 ^ 21) := by
  rintro ⟨hlo, hhi, -⟩
  refine hdisj p ⟨?_, he⟩
  unfold MemMapEntry.Holds
  omega

theorem run_total {rest : List MemMapEntry} (hlow : ∀ e ∈ rest, e.Low) (hfree : SmallFree (l ++ rest))
    (hdisj : (l ++ rest).Pairwise fun e f => ∀ p, ¬ (e.Holds p ∧ f.Holds p)) (hfuel : 2 ^ 47 ≤ fuel) (h : Drawn l b) :
    ∃ b', rest.foldlM (mapEntry fuel) b = some b' := by
  induction rest generalizing l b with
  | nil => exact ⟨b, rfl⟩
  | cons e rest ih =>
    have hle := hlow e mem_cons_self
    have hbefore (a : MemMapEntry) (ha : a ∈ l) : ∀ p, ¬ (a.Holds p ∧ e.Holds p) :=
      (pairwise_append.1 hdisj).2.2 a ha e mem_cons_self
    have hblock (p : ℕ) (hp : e.Holds p) (hlt : p < 2 ^ 47) : ¬ b.IsHuge (p / 2 ^ 21) := by
      rw [h.isHuge_iff, Nat.mod_eq_of_lt (by omega)]
      rintro ⟨a, ha, hhold⟩
      exact not_holdsBlock (hbefore a ha) hp hhold
    obtain ⟨b1, h1⟩ : ∃ b1, mapEntry fuel b e = some b1 := by
      refine mapEntry_total hle hfuel (fun hsmall => ?_) fun hpos _ => ?_
      · obtain ⟨hlast, hno⟩ := hfree l e rest rfl hsmall
        exact ⟨hlast, h.not_isHuge.2 hno⟩
      · have hend := hle hpos
        constructor
        · intro _
          exact hblock e.base (by unfold MemMapEntry.Holds; omega) (by omega)
        · intro hne
          have := hblock (e.base + e.length - 1) (by unfold MemMapEntry.Holds; omega) (by omega)
          rwa [show (e.base + e.length - 1) / 2 ^ 21 = (e.base + e.length) / 2 ^ 21 by omega] at this
    obtain ⟨hdraw, -⟩ := draws_mapEntry hle h1
    obtain ⟨b2, h2⟩ := ih (l := l ++ [e]) (fun e he => hlow e (mem_cons_of_mem _ he)) (by simpa using hfree)
      (by simpa using hdisj) (h.append hdraw)
    exact ⟨b2, (foldlM_cons_some _ _ _ _ _).2 ⟨b1, h1, h2⟩⟩

/-! ## Exactness -/

/-- every byte of a mappable entry is at its place in the direct map, with the entry's cache bits, and no other page is
mapped -/
structure Exact (m : MemMap) (b : Builder) : Prop where
  bytes : ∀ e ∈ m.entries, e.mappable = true → ∀ p, e.Holds p → directMapBase + p < 2 ^ 64 ∧
    ∃ f, b.translate (directMapBase + p) = some (p, f) ∧ cacheBits f = e.cache
  only : ∀ k < 2 ^ 36, (b.translate (virtOf (4096 * k))).isSome → ∃ e ∈ m.entries, e.mappable = true ∧
    ∃ p, e.Holds p ∧ p / 4096 = k

structure MapOk (m : MemMap) : Prop where
  /-- all bytes have addresses in the direct map -/
  low : ∀ e ∈ m.mapped, e.Low
  /-- the last entry that reaches a page has the cache bits of every entry that touches it -/
  reached : ∀ e ∈ m.mapped, ∀ k, e.Touches k → ∃ r, lastReach m.mapped k = some r ∧ r.cache = e.cache
  /-- a small entry lies in a block that entries touch on every page -/
  touched : ∀ e ∈ m.mapped, e.Small → ∀ k < 2 ^ 36, e.InBlock k → ∃ a ∈ m.mapped, a.Touches k
  free : SmallFree m.mapped

theorem MemMap.mem_mapped : e ∈ m.mapped ↔ e ∈ m.entries ∧ e.mappable = true := by
  simp [MemMap.mapped]

theorem virtOf_of_low {p : ℕ} (h : directMapBase + p < 2 ^ 64) : virtOf p = directMapBase + p := Nat.mod_eq_of_lt h

theorem translate_aligned {k : ℕ} {r : ℕ × PageFlags} (h : b.translate (virtOf (4096 * k)) = some r) : r.1 % 4096 = 0 := by
  have hmod := virtOf_mod (4096 * k)
  unfold Builder.translate at h
  split at h
  · cases h
  · split at h
    · cases h
      omega
    · cases h
  · dsimp only at h
    split at h
    · cases h
      omega
    · cases h

theorem translate_byte_iff (b : Builder) (p : ℕ) (c : Bool × Bool) :
    (∃ f, b.translate (virtOf p) = some (p, f) ∧ cacheBits f = c) ↔ b.page (p / 4096) = some (p / 4096, c) := by
  rw [Builder.page, b.translate_virtOf p]
  rcases hpage : b.translate (virtOf (4096 * (p / 4096))) with _ | r
  · simp
  · have haligned := translate_aligned hpage
    simp only [map_some, some.injEq, Prod.mk.injEq]
    constructor
    · rintro ⟨f, ⟨hr, rfl⟩, hc⟩
      exact ⟨by omega, hc⟩
    · rintro ⟨hr, hc⟩
      exact ⟨r.2, ⟨by omega, rfl⟩, hc⟩

theorem page_isSome (b : Builder) (k : ℕ) : (b.translate (virtOf (4096 * k))).isSome = (b.page k).isSome := by
  rw [Builder.page, isSome_map]

theorem Drawn.isSome_iff (h : Drawn l b) {k : ℕ} (hk : k < 2 ^ 36) :
    (b.translate (virtOf (4096 * k))).isSome ↔ ∃ e ∈ l, e.Reaches k := by
  rw [page_isSome, h.page k hk, lastReach]
  simp

theorem mapOk_of_exact (hrun : mapDirectMemory fuel m.entries .new = some b) (h : Exact m b) : MapOk m := by
  have hlow : ∀ e ∈ m.mapped, e.Low := by
    intro e he hpos
    obtain ⟨hmem, hmap⟩ := MemMap.mem_mapped.1 he
    have hbyte := (h.bytes e hmem hmap (e.base + e.length - 1) (by unfold MemMapEntry.Holds; omega)).1
    unfold directMapBase at hbyte
    omega
  obtain ⟨hdrawn, hfree⟩ := run_drawn hlow drawn_new hrun
  refine ⟨hlow, fun e he k hk => ?_, fun e he hsmall k hk hblock => ?_, fun pre e post hsplit hsmall => ?_⟩
  · obtain ⟨hmem, hmap⟩ := MemMap.mem_mapped.1 he
    obtain ⟨p, hp, rfl⟩ := MemMapEntry.touches_iff.1 hk
    obtain ⟨haddr, hbyte⟩ := h.bytes e hmem hmap p hp
    have hlt : p / 4096 < 2 ^ 36 := by
      unfold directMapBase at haddr
      omega
    rw [← virtOf_of_low haddr, translate_byte_iff, hdrawn.page _ hlt] at hbyte
    obtain ⟨r, hr, heq⟩ := map_eq_some_iff.1 hbyte
    exact ⟨r, hr, congrArg Prod.snd heq⟩
  · obtain ⟨a, ha, hmap, hp⟩ := h.only k hk ((hdrawn.isSome_iff hk).2 ⟨e, he, .inr ⟨hsmall, hblock⟩⟩)
    exact ⟨a, MemMap.mem_mapped.2 ⟨ha, hmap⟩, MemMapEntry.touches_iff.2 hp⟩
  · exact hfree pre e post hsplit hsmall

theorem exact_of_mapOk (h : MapOk m) : ∃ fuel b, mapDirectMemory fuel m.entries .new = some b ∧ Exact m b := by
  have hdisj : m.mapped.Pairwise fun e f => ∀ p, ¬ (e.Holds p ∧ f.Holds p) := m.disjoint.filter _
  obtain ⟨b, hrun⟩ := run_total (l := []) h.low h.free hdisj (le_refl (2 ^ 47)) drawn_new
  obtain ⟨hdrawn, -⟩ := run_drawn h.low drawn_new hrun
  rw [nil_append] at hdrawn
  refine ⟨2 ^ 47, b, hrun, fun e hmem hmap p hp => ?_, fun k hk hsome => ?_⟩
  · have he : e ∈ m.mapped := MemMap.mem_mapped.2 ⟨hmem, hmap⟩
    have hend : p < 2 ^ 47 := by
      have hend := h.low e he (by unfold MemMapEntry.Holds at hp; omega)
      unfold MemMapEntry.Holds at hp
      omega
    have haddr : directMapBase + p < 2 ^ 64 := by
      unfold directMapBase
      omega
    refine ⟨haddr, ?_⟩
    obtain ⟨r, hr, hcache⟩ := h.reached e he (p / 4096) (MemMapEntry.touches_iff.2 ⟨p, hp, rfl⟩)
    rw [← virtOf_of_low haddr, translate_byte_iff, hdrawn.page _ (by omega), hr, map_some, hcache]
  · obtain ⟨e, he, hR⟩ := (hdrawn.isSome_iff hk).1 hsome
    obtain ⟨a, ha, htouch⟩ : ∃ a ∈ m.mapped, a.Touches k := by
      rcases hR with ⟨htouch, -⟩ | ⟨hsmall, hblock⟩
      · exact ⟨e, he, htouch⟩
      · exact h.touched e he hsmall k hk hblock
    obtain ⟨hmem, hmap⟩ := MemMap.mem_mapped.1 ha
    exact ⟨a, hmem, hmap, MemMapEntry.touches_iff.1 htouch⟩

/-- **The direct map.** `map_direct_memory` builds an exact direct map, in finitely many rounds, if and only if the memory
map is `MapOk`. -/
theorem direct_map_exact_iff (m : MemMap) :
    (∃ fuel b, mapDirectMemory fuel m.entries .new = some b ∧ Exact m b) ↔ MapOk m :=
  ⟨fun ⟨_, _, hrun, h⟩ => mapOk_of_exact hrun h, exact_of_mapOk⟩

/-- the memory map of one usable GiB -/
def oneGib : MemMap := ⟨[⟨0, 2 ^ 30, memmapUsable⟩], List.pairwise_singleton _ _⟩

/-- **One GiB.** The direct map is built and does not map the byte after the first 2 MiB, so it is not exact. -/
theorem gib_unmapped : (mapDirectMemory 1 oneGib.entries .new).any
    (fun b => (b.translate directMapBase).isSome && (b.translate (directMapBase + 2 ^ 21)).isNone) = true ∧
      ¬ ∃ fuel b, mapDirectMemory fuel oneGib.entries .new = some b ∧ Exact oneGib b := by
  refine ⟨by decide +kernel, fun ⟨fuel, b, hrun, hexact⟩ => ?_⟩
  obtain ⟨r, hr, -⟩ := (mapOk_of_exact hrun hexact).reached ⟨0, 2 ^ 30, memmapUsable⟩ (by decide) 512 (by decide)
  cases hr

end Rumicos.Paging.DirectMap
