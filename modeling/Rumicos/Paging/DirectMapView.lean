/-
What the steps of `map_direct_memory` do to the translation of the direct map.

A builder is looked at through two views of physical memory: `page k`, where the direct map sends page `k` and with which
cache bits, and `IsHuge n`, whether block `n` of 2 MiB is one page. `Draws c R H b b'` says that a step from `b` to `b'`
sends the pages in `R` to themselves with cache bits `c`, makes the blocks in `H` huge, and changes nothing else.
-/
import Rumicos.Paging.DirectMap

namespace Rumicos.Paging.DirectMap

open Lib List Option PageFlags PageTableEntry

/-! ## Indices -/

/-- PWT and PCD -/
def cacheBits (f : PageFlags) : Bool × Bool := (f.has bitWriteThrough, f.has bitCacheDisable)

theorem virtOf_block (p : ℕ) : virtOf p / 2 ^ 21 % 2 ^ 27 = (p / 2 ^ 21 + 2 ^ 26) % 2 ^ 27 := by
  unfold virtOf directMapBase
  omega

theorem virtOf_mod (p : ℕ) : virtOf p % 2 ^ 21 = p % 2 ^ 21 := by
  unfold virtOf directMapBase
  omega

theorem pdPath_eq_iff (v w : ℕ) : pdPath v = pdPath w ↔ v / 2 ^ 21 % 2 ^ 27 = w / 2 ^ 21 % 2 ^ 27 := by
  simp only [pdPath, Prod.mk.injEq, Fin.mk.injEq, and_true]
  omega

theorem pdPath_virtOf (p q : ℕ) : pdPath (virtOf p) = pdPath (virtOf q) ↔ p / 2 ^ 21 % 2 ^ 27 = q / 2 ^ 21 % 2 ^ 27 := by
  rw [pdPath_eq_iff, virtOf_block, virtOf_block]
  omega

theorem ptIndex_virtOf (p q : ℕ) : ptIndex (virtOf p) = ptIndex (virtOf q) ↔ p / 4096 % 512 = q / 4096 % 512 := by
  have hp := virtOf_mod p
  have hq := virtOf_mod q
  simp only [ptIndex, Fin.mk.injEq]
  omega

/-! ## PD entries after the primitive steps -/

variable {b : Builder} {virt phys a : ℕ} {flags : PageFlags} {c : Bool × Bool}

namespace Builder

theorem walkToPd_spec (b : Builder) (virt : ℕ) : ∃ b', b.walkToPd virt = some b' ∧
    Slot.hasPath b'.pml4 (pdPath virt) = true ∧ ∀ v, b'.pdEntry v = b.pdEntry v := by
  obtain ⟨r, hr⟩ := Slot.ensure_total (fun _ => rfl : ∀ st, (allocFrame st).isSome) b.pml4 (pdPath virt) b.used
  exact ⟨⟨r.1, r.2⟩, by rw [walkToPd, hr, map_some], Slot.hasPath_ensure hr,
    fun v => Slot.lookup_ensure hr (pdPath v)⟩

theorem pdEntry_setPdEntry (h : Slot.hasPath b.pml4 (pdPath virt) = true) (e : PdEntry) (v : ℕ) :
    (b.setPdEntry virt e).pdEntry v = if pdPath v = pdPath virt then some e else b.pdEntry v :=
  Slot.lookup_write _ _ _ _ h

theorem mapHuge2m_spec (b : Builder) (virt phys : ℕ) (flags : PageFlags) :
    ∃ b', b.mapHuge2m virt phys flags = some b' ∧ ∀ v, b'.pdEntry v =
      if pdPath v = pdPath virt then some (.huge (.newPage (frameBits phys) flags.withHugePage)) else b.pdEntry v := by
  obtain ⟨b1, h1, hpath, hentry⟩ := b.walkToPd_spec virt
  refine ⟨_, by rw [mapHuge2m, h1, map_some], fun v => ?_⟩
  rw [pdEntry_setPdEntry hpath, hentry]

/-- the entries of the page table at a PD entry; a missing table is all empty -/
def tableOf : Option PdEntry → Fin 512 → PageTableEntry
  | some (.table _ entries) => entries
  | _ => fun _ => .empty

theorem mapPage_huge {e : PageTableEntry} (h : b.pdEntry virt = some (.huge e)) : b.mapPage virt phys flags = none := by
  obtain ⟨b1, h1, -, hentry⟩ := b.walkToPd_spec virt
  simp [mapPage, h1, hentry, h]

theorem mapPage_spec (phys : ℕ) (flags : PageFlags) (h : ∀ e, b.pdEntry virt ≠ some (.huge e)) :
    ∃ b' frame, b.mapPage virt phys flags = some b' ∧ ∀ v, b'.pdEntry v =
      if pdPath v = pdPath virt then
        some (.table frame (Function.update (tableOf (b.pdEntry virt)) (ptIndex virt) (.newPage (frameBits phys) flags)))
      else b.pdEntry v := by
  obtain ⟨b1, h1, hpath, hentry⟩ := b.walkToPd_spec virt
  rcases hpd : b.pdEntry virt with _ | e | ⟨frame, entries⟩
  · refine ⟨_, b1.used, by simp only [mapPage, h1, bind_some, hentry, hpd]; rfl, fun v => ?_⟩
    rw [← hentry v]
    exact pdEntry_setPdEntry hpath _ v
  · exact absurd hpd (h e)
  · refine ⟨_, frame, by simp only [mapPage, h1, bind_some, hentry, hpd]; rfl, fun v => ?_⟩
    rw [← hentry v]
    exact pdEntry_setPdEntry hpath _ v

/-! ## Pages and blocks -/

/-- where page `k` of physical memory is in the direct map -/
def page (b : Builder) (k : ℕ) : Option (ℕ × (Bool × Bool)) :=
  (b.translate (virtOf (4096 * k))).map fun r => (r.1 / 4096, cacheBits r.2)

/-- block `n` of physical memory is one page of the direct map -/
def IsHuge (b : Builder) (n : ℕ) : Prop := ∃ e, b.pdEntry (virtOf (2 ^ 21 * n)) = some (.huge e)

theorem pdEntry_congr (b : Builder) {p q : ℕ} (h : p / 2 ^ 21 % 2 ^ 27 = q / 2 ^ 21 % 2 ^ 27) :
    b.pdEntry (virtOf p) = b.pdEntry (virtOf q) := by
  rw [pdEntry, pdEntry, (pdPath_virtOf p q).2 h]

theorem isHuge_congr (b : Builder) {m n : ℕ} (h : m % 2 ^ 27 = n % 2 ^ 27) : b.IsHuge m ↔ b.IsHuge n := by
  unfold IsHuge
  rw [b.pdEntry_congr (p := 2 ^ 21 * m) (q := 2 ^ 21 * n) (by omega)]

theorem translate_virtOf (b : Builder) (p : ℕ) :
    b.translate (virtOf p) = (b.translate (virtOf (4096 * (p / 4096)))).map fun r => (r.1 + p % 4096, r.2) := by
  have hp := virtOf_mod p
  have hk := virtOf_mod (4096 * (p / 4096))
  have hindex : ptIndex (virtOf (4096 * (p / 4096))) = ptIndex (virtOf p) := (ptIndex_virtOf _ _).2 (by omega)
  unfold translate
  rw [b.pdEntry_congr (p := 4096 * (p / 4096)) (q := p) (by omega), hindex]
  rcases b.pdEntry (virtOf p) with _ | e | ⟨frame, entries⟩
  · rfl
  · dsimp only
    split
    · simp only [map_some, some.injEq, Prod.mk.injEq, and_true]
      omega
    · rfl
  · dsimp only
    split
    · simp only [map_some, some.injEq, Prod.mk.injEq, and_true]
      omega
    · rfl

end Builder

/-! ## Drawing -/

/-- the pages in `R` get cache bits `c`, the blocks in `H` become huge -/
structure Draws (c : Bool × Bool) (R H : ℕ → Prop) (b b' : Builder) : Prop where
  inside : ∀ k < 2 ^ 36, R k → b'.page k = some (k, c)
  outside : ∀ k < 2 ^ 36, ¬ R k → b'.page k = b.page k
  huge : ∀ n < 2 ^ 27, b'.IsHuge n ↔ H n ∨ b.IsHuge n

theorem Draws.refl (c : Bool × Bool) (b : Builder) : Draws c (fun _ => False) (fun _ => False) b b :=
  ⟨fun _ _ h => h.elim, fun _ _ _ => rfl, fun _ _ => by simp⟩

theorem Draws.trans {R R' H H' : ℕ → Prop} {b1 b2 : Builder} (h : Draws c R H b b1) (h' : Draws c R' H' b1 b2) :
    Draws c (fun k => R k ∨ R' k) (fun n => H n ∨ H' n) b b2 := by
  refine ⟨fun k hk hR => ?_, fun k hk hR => ?_, fun n hn => ?_⟩
  · by_cases hR' : R' k
    · exact h'.inside k hk hR'
    · rw [h'.outside k hk hR', h.inside k hk (hR.resolve_right hR')]
  · rw [h'.outside k hk fun h => hR (.inr h), h.outside k hk fun h => hR (.inl h)]
  · rw [h'.huge n hn, h.huge n hn]
    tauto

theorem Draws.congr {R R' H H' : ℕ → Prop} {b' : Builder} (h : Draws c R H b b') (hR : ∀ k < 2 ^ 36, R k ↔ R' k)
    (hH : ∀ n < 2 ^ 27, H n ↔ H' n) : Draws c R' H' b b' :=
  ⟨fun k hk hr => h.inside k hk ((hR k hk).2 hr), fun k hk hr => h.outside k hk fun hr' => hr ((hR k hk).1 hr'),
    fun n hn => by rw [h.huge n hn, hH n hn]⟩

theorem cacheBits_withHugePage (f : PageFlags) : cacheBits f.withHugePage = cacheBits f := by
  unfold cacheBits withHugePage
  rw [has_withBits _ _ (by decide) _ _ (by decide), has_withBits _ _ (by decide) _ _ (by decide)]
  simp [bitHugePage, bitWriteThrough, bitCacheDisable]

theorem isHuge_iff (b : Builder) (p : ℕ) : b.IsHuge (p / 2 ^ 21) ↔ ∃ e, b.pdEntry (virtOf p) = some (.huge e) := by
  unfold Builder.IsHuge
  rw [b.pdEntry_congr (p := 2 ^ 21 * (p / 2 ^ 21)) (q := p) (by omega)]

theorem mapPage_isHuge (flags : PageFlags) (h : b.IsHuge (phys / 2 ^ 21)) :
    b.mapPage (virtOf phys) phys flags = none := by
  obtain ⟨e, he⟩ := (isHuge_iff b phys).1 h
  exact Builder.mapPage_huge he

/-- **What `map_page` does** to the translation of every address: it changes one page, and no huge entry. -/
theorem mapPage_translate (hF : flags.has bitPresent = true) (b : Builder) (phys : ℕ)
    (hno : ∀ e, b.pdEntry virt ≠ some (.huge e)) : ∃ b', b.mapPage virt phys flags = some b' ∧
      (∀ v, pdPath v = pdPath virt → ptIndex v = ptIndex virt →
        b'.translate v = some ((frameBits phys).toNat * 4096 + v % 4096, flags)) ∧
      (∀ v, ¬ (pdPath v = pdPath virt ∧ ptIndex v = ptIndex virt) → b'.translate v = b.translate v) ∧
      ∀ v e, b'.pdEntry v = some (.huge e) ↔ b.pdEntry v = some (.huge e) := by
  obtain ⟨b', frame, hb', hentry⟩ := Builder.mapPage_spec phys flags hno
  refine ⟨b', hb', fun v hpath hindex => ?_, fun v hne => ?_, fun v e => ?_⟩
  · simp [Builder.translate, hentry, if_pos hpath, hindex, hF]
  · unfold Builder.translate
    rw [hentry]
    by_cases hpath : pdPath v = pdPath virt
    · -- the same page table, another of its entries
      have hindex : ptIndex v ≠ ptIndex virt := fun h => hne ⟨hpath, h⟩
      have hpd : b.pdEntry v = b.pdEntry virt := by
        unfold Builder.pdEntry
        rw [hpath]
      rw [if_pos hpath, hpd]
      dsimp only
      rw [Function.update_of_ne hindex]
      rcases hb : b.pdEntry virt with _ | e | ⟨f, entries⟩
      · exact if_neg (by simp only [Builder.tableOf]; decide)
      · exact absurd hb (hno e)
      · rfl
    · rw [if_neg hpath]
  · rw [hentry]
    split
    · rename_i hpath
      have hpd : b.pdEntry v = b.pdEntry virt := by
        unfold Builder.pdEntry
        rw [hpath]
      rw [hpd]
      simp [hno]
    · rfl

/-- `map_page` outside the huge blocks draws one page -/
theorem draws_mapPage (hF : flags.has bitPresent = true) (b : Builder) (phys : ℕ) (hfree : ¬ b.IsHuge (phys / 2 ^ 21)) :
    ∃ b', b.mapPage (virtOf phys) phys flags = some b' ∧
      Draws (cacheBits flags) (fun k => k = phys / 4096 % 2 ^ 36) (fun _ => False) b b' := by
  have hno (e : PageTableEntry) : b.pdEntry (virtOf phys) ≠ some (.huge e) :=
    fun he => hfree ((isHuge_iff b phys).2 ⟨e, he⟩)
  obtain ⟨b', hb', hin, hout, hhuge⟩ := mapPage_translate hF b phys hno
  refine ⟨b', hb', fun k hk hR => ?_, fun k hk hR => ?_, fun n hn => ?_⟩
  · have hframe : (frameBits phys).toNat = k := by rw [frameBits, BitVec.toNat_ofNat, hR]
    rw [Builder.page, hin _ ((pdPath_virtOf _ _).2 (by omega)) ((ptIndex_virtOf _ _).2 (by omega)), map_some]
    congr 2
    omega
  · have hne : ¬ (pdPath (virtOf (4096 * k)) = pdPath (virtOf phys) ∧ ptIndex (virtOf (4096 * k)) =
      ptIndex (virtOf phys)) := by
      rw [pdPath_virtOf, ptIndex_virtOf]
      omega
    rw [Builder.page, Builder.page, hout _ hne]
  · simp [Builder.IsHuge, hhuge]

/-- `map_huge_2m` draws the pages of a block and makes it huge -/
theorem draws_mapHuge2m (hF : flags.has bitPresent = true) (b : Builder) (hphys : phys % 2 ^ 21 = 0) :
    ∃ b', b.mapHuge2m (virtOf phys) phys flags = some b' ∧
      Draws (cacheBits flags) (fun k => k / 512 = phys / 2 ^ 21 % 2 ^ 27) (fun n => n = phys / 2 ^ 21 % 2 ^ 27) b b' := by
  obtain ⟨b', hb', hentry⟩ := b.mapHuge2m_spec (virtOf phys) phys flags
  have hpresent : flags.withHugePage.has bitPresent = true := by
    rw [withHugePage, has_withBits _ _ (by decide) _ _ (by decide), hF, Bool.true_or]
  refine ⟨b', hb', fun k hk hR => ?_, fun k hk hR => ?_, fun n hn => ?_⟩
  · have hpath : pdPath (virtOf (4096 * k)) = pdPath (virtOf phys) := (pdPath_virtOf _ _).2 (by omega)
    have hoff := virtOf_mod (4096 * k)
    have hframe : (frameBits phys).toNat = k / 512 * 512 := by
      rw [frameBits, BitVec.toNat_ofNat]
      omega
    simp only [Builder.page, Builder.translate, hentry, if_pos hpath, isPresent_newPage, hpresent,
      if_true, frame_newPage, flags_newPage, map_some,
      cacheBits_withHugePage]
    congr 2
    omega
  · have hpath : pdPath (virtOf (4096 * k)) ≠ pdPath (virtOf phys) := by
      rw [Ne, pdPath_virtOf]
      omega
    have hsame : b'.translate (virtOf (4096 * k)) = b.translate (virtOf (4096 * k)) := by
      unfold Builder.translate
      rw [hentry, if_neg hpath]
    rw [Builder.page, Builder.page, hsame]
  · unfold Builder.IsHuge
    rw [hentry]
    by_cases hpath : pdPath (virtOf (2 ^ 21 * n)) = pdPath (virtOf phys)
    · rw [if_pos hpath]
      rw [pdPath_virtOf] at hpath
      have hn' : n = phys / 2 ^ 21 % 2 ^ 27 := by omega
      exact ⟨fun _ => .inl hn', fun _ => ⟨_, rfl⟩⟩
    · rw [if_neg hpath]
      rw [pdPath_virtOf] at hpath
      have hn' : n ≠ phys / 2 ^ 21 % 2 ^ 27 := by omega
      exact ⟨.inr, fun h => h.resolve_left hn'⟩

/-! ## Loops -/

theorem dvd_alignDown (size a : ℕ) : size ∣ alignDown size a := Dvd.intro_left _ rfl

theorem dvd_alignUp (size a : ℕ) : size ∣ alignUp size a := Dvd.intro_left _ rfl

section Loops

variable {step stop : ℕ} {body : Builder → ℕ → Option Builder}

theorem add_le_of_dvd {x y : ℕ} (hx : step ∣ x) (hy : step ∣ y) (h : x < y) : x + step ≤ y := by
  have hle : step ≤ y - x := Nat.le_of_dvd (by omega) (Nat.dvd_sub hy hx)
  omega

theorem physNew_next (hp : step ∣ phys) (hs : step ∣ stop) (hlt : phys < stop) (hstop : stop < 2 ^ 52) :
    physNew (phys + step) = phys + step := by
  have hle := add_le_of_dvd hp hs hlt
  exact Nat.mod_eq_of_lt (by omega)

/-- **The loop rule.** A loop draws what its rounds draw. -/
theorem Draws.loop {R H : ℕ → ℕ → Prop} (hs : step ∣ stop) (hstop : stop < 2 ^ 52)
    (hbody : ∀ b b' phys, step ∣ phys → body b phys = some b' → Draws c (R phys) (H phys) b b') {fuel : ℕ}
    {b' : Builder} (ha : step ∣ a) (hrun : whilePhys step stop body fuel a b = some b') :
    Draws c (fun k => ∃ x, step ∣ x ∧ a ≤ x ∧ x < stop ∧ R x k) (fun n => ∃ x, step ∣ x ∧ a ≤ x ∧ x < stop ∧ H x n)
      b b' := by
  have hsplit (P : ℕ → Prop) {a : ℕ} (ha : step ∣ a) (hlt : a < stop) :
      (P a ∨ ∃ x, step ∣ x ∧ a + step ≤ x ∧ x < stop ∧ P x) ↔ ∃ x, step ∣ x ∧ a ≤ x ∧ x < stop ∧ P x := by
    constructor
    · rintro (h | ⟨x, hx, hax, hxs, h⟩)
      · exact ⟨a, ha, le_rfl, hlt, h⟩
      · exact ⟨x, hx, by omega, hxs, h⟩
    · rintro ⟨x, hx, hax, hxs, h⟩
      rcases Nat.eq_or_lt_of_le hax with rfl | hlt'
      · exact .inl h
      · exact .inr ⟨x, hx, add_le_of_dvd ha hx hlt', hxs, h⟩
  induction fuel generalizing a b with
  | zero =>
    rw [whilePhys] at hrun
    split at hrun
    · cases hrun
    · cases hrun
      refine (Draws.refl c _).congr (fun k _ => ?_) fun n _ => ?_
      · exact ⟨False.elim, fun ⟨x, _, hax, hxs, _⟩ => by omega⟩
      · exact ⟨False.elim, fun ⟨x, _, hax, hxs, _⟩ => by omega⟩
  | succ fuel ih =>
    rw [whilePhys] at hrun
    split at hrun
    · rename_i hlt
      obtain ⟨b1, hb1, hrest⟩ := bind_eq_some_iff.1 hrun
      rw [physNew_next ha hs hlt hstop] at hrest
      have hdraw := (hbody b b1 a ha hb1).trans (ih (ha.add (dvd_refl step)) hrest)
      exact hdraw.congr (fun k _ => hsplit (R · k) ha hlt) fun n _ => hsplit (H · n) ha hlt
    · cases hrun
      refine (Draws.refl c _).congr (fun k _ => ?_) fun n _ => ?_
      · exact ⟨False.elim, fun ⟨x, _, hax, hxs, _⟩ => by omega⟩
      · exact ⟨False.elim, fun ⟨x, _, hax, hxs, _⟩ => by omega⟩

theorem whilePhys_total {lo : ℕ} (I : Builder → Prop) (hs : step ∣ stop) (hstop : stop < 2 ^ 52)
    (hbody : ∀ b phys, I b → step ∣ phys → lo ≤ phys → phys < stop → ∃ b', body b phys = some b' ∧ I b') (fuel : ℕ)
    (ha : step ∣ a) (hlo : lo ≤ a) (hfuel : stop ≤ a + fuel * step) (hI : I b) :
    ∃ b', whilePhys step stop body fuel a b = some b' ∧ I b' := by
  induction fuel generalizing a b with
  | zero => exact ⟨b, by rw [whilePhys, if_neg (by omega)], hI⟩
  | succ fuel ih =>
    rw [whilePhys]
    split
    · rename_i hlt
      obtain ⟨b1, hb1, hI1⟩ := hbody b a hI ha hlo hlt
      rw [hb1, physNew_next ha hs hlt hstop]
      refine ih (ha.add (dvd_refl step)) (by omega) ?_ hI1
      rw [Nat.succ_mul] at hfuel
      omega
    · exact ⟨b, rfl, hI⟩

theorem whilePhys_forever (body : Builder → ℕ → Option Builder) (fuel : ℕ) (ha : a < 2 ^ 52) (b : Builder) :
    whilePhys step (2 ^ 52) body fuel a b = none := by
  induction fuel generalizing a b with
  | zero => rw [whilePhys, if_pos ha]
  | succ fuel ih =>
    rw [whilePhys, if_pos ha]
    rcases body b a with _ | b1
    · rfl
    · exact ih (Nat.mod_lt _ (by decide)) b1

end Loops

end Rumicos.Paging.DirectMap
