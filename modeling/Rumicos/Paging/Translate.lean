/-
Page tables as a finite map: any sequence of `map_page` and `map_huge_2m` on a fresh builder, seen through
`PageTableWalker::translate` (`crates/paging/src/table.rs`).

An entry keeps 36 bits of the frame number, so a physical address loses its bits from 48 on.
-/
import Rumicos.Paging.DirectMapView

namespace Rumicos.Paging.DirectMap

open List Option

/-- bits 63 to 48 are copies of bit 47 -/
def Canonical (v : ℕ) : Prop := v < 2 ^ 47 ∨ 2 ^ 64 - 2 ^ 47 ≤ v ∧ v < 2 ^ 64

inductive MapCall where
  | page (virt phys : ℕ) (flags : PageFlags)
  | huge (virt phys : ℕ) (flags : PageFlags)

namespace MapCall

/-- the size of the page -/
def size : MapCall → ℕ
  | page .. => 4096
  | huge .. => 2 ^ 21

def virt : MapCall → ℕ
  | page virt _ _ | huge virt _ _ => virt

def phys : MapCall → ℕ
  | page _ phys _ | huge _ phys _ => phys

def flags : MapCall → PageFlags
  | page _ _ flags | huge _ _ flags => flags

def apply (b : Builder) : MapCall → Option Builder
  | page virt phys flags => b.mapPage virt phys flags
  | huge virt phys flags => b.mapHuge2m virt phys flags

/-- the address is in the page -/
def covers (v : ℕ) (c : MapCall) : Bool := v / c.size == c.virt / c.size

structure Ok (c : MapCall) : Prop where
  canonical : Canonical c.virt
  virt : c.size ∣ c.virt
  phys : c.size ∣ c.phys
  small : c.phys < 2 ^ 52
  present : c.flags.has bitPresent = true

end MapCall

/-- the calls are aligned, and none maps a 4 KiB page inside a 2 MiB page -/
structure CallsOk (calls : List MapCall) : Prop where
  ok : ∀ c ∈ calls, c.Ok
  apart : ∀ c ∈ calls, ∀ d ∈ calls, c.size = 4096 → d.size = 2 ^ 21 → d.covers c.virt = false

/-- the last call for an address -/
def lastCall (calls : List MapCall) (v : ℕ) : Option MapCall := calls.reverse.find? (·.covers v)

/-- the map that the calls describe -/
def describes (calls : List MapCall) (v : ℕ) : Option ℕ := (lastCall calls v).map fun c => c.phys + v % c.size

theorem lastCall_snoc (calls : List MapCall) (c : MapCall) (v : ℕ) :
    lastCall (calls ++ [c]) v = if c.covers v then some c else lastCall calls v := by
  rw [lastCall, reverse_append, reverse_singleton, singleton_append, find?_cons]
  cases c.covers v <;> rfl

theorem covers_huge_iff {v virt : ℕ} (hv : Canonical v) (hvirt : Canonical virt) (phys : ℕ) (flags : PageFlags) :
    (MapCall.huge virt phys flags).covers v = true ↔ pdPath v = pdPath virt := by
  rw [pdPath_eq_iff]
  simp only [MapCall.covers, MapCall.size, MapCall.virt, beq_iff_eq]
  unfold Canonical at hv hvirt
  omega

theorem covers_page_iff {v virt : ℕ} (hv : Canonical v) (hvirt : Canonical virt) (phys : ℕ) (flags : PageFlags) :
    (MapCall.page virt phys flags).covers v = true ↔ pdPath v = pdPath virt ∧ ptIndex v = ptIndex virt := by
  rw [pdPath_eq_iff]
  simp only [MapCall.covers, MapCall.size, MapCall.virt, beq_iff_eq, ptIndex, Fin.mk.injEq]
  unfold Canonical at hv hvirt
  omega

/-- what the tables say after the calls -/
structure Shown (calls : List MapCall) (b : Builder) : Prop where
  translate : ∀ v, Canonical v → (b.translate v).map Prod.fst = (lastCall calls v).map fun c =>
    c.phys % 2 ^ 48 + v % c.size
  huge : ∀ v e, Canonical v → b.pdEntry v = some (.huge e) → ∃ c ∈ calls, c.size = 2 ^ 21 ∧ c.covers v = true

theorem frameBits_mul {phys size : ℕ} (h : size ∣ phys) (hsize : 4096 ∣ size) :
    (frameBits phys).toNat * 4096 = phys % 2 ^ 48 := by
  have hdvd := hsize.trans h
  rw [frameBits, BitVec.toNat_ofNat]
  omega

theorem shown_apply {calls : List MapCall} {c : MapCall} {b : Builder} (hb : Shown calls b) (hc : CallsOk (calls ++ [c])) :
    ∃ b', c.apply b = some b' ∧ Shown (calls ++ [c]) b' := by
  have hok := hc.ok c (by simp)
  cases c with
  | page virt phys flags =>
    have hno : ∀ e, b.pdEntry virt ≠ some (.huge e) := by
      intro e he
      obtain ⟨d, hd, hsize, hcov⟩ := hb.huge virt e hok.canonical he
      have hnot : d.covers virt = false := hc.apart (.page virt phys flags) (by simp) d (mem_append_left _ hd) rfl hsize
      exact Bool.false_ne_true (hnot.symm.trans hcov)
    obtain ⟨b', hb', hin, hout, hhuge⟩ := mapPage_translate hok.present b phys hno
    refine ⟨b', hb', fun v hv => ?_, fun v e hv he => ?_⟩
    · rw [lastCall_snoc]
      split_ifs with hcov
      · obtain ⟨hpath, hindex⟩ := (covers_page_iff hv hok.canonical phys flags).1 hcov
        have hframe : (frameBits phys).toNat * 4096 = phys % 2 ^ 48 := frameBits_mul hok.phys dvd_rfl
        rw [hin v hpath hindex, hframe]
        rfl
      · rw [hout v fun h => hcov ((covers_page_iff hv hok.canonical phys flags).2 h), hb.translate v hv]
    · obtain ⟨d, hd, h⟩ := hb.huge v e hv ((hhuge v e).1 he)
      exact ⟨d, mem_append_left _ hd, h⟩
  | huge virt phys flags =>
    obtain ⟨b', hb', hentry⟩ := b.mapHuge2m_spec virt phys flags
    have hpresent : flags.withHugePage.has bitPresent = true := by
      rw [PageFlags.withHugePage, PageFlags.has_withBits _ _ (by decide) _ _ (by decide), show flags.has bitPresent =
        true from hok.present, Bool.true_or]
    refine ⟨b', hb', fun v hv => ?_, fun v e hv he => ?_⟩
    · rw [lastCall_snoc]
      unfold Builder.translate
      rw [hentry]
      split_ifs with hpath hcov hcov
      · have hframe : (frameBits phys).toNat * 4096 = phys % 2 ^ 48 :=
          frameBits_mul (show 2 ^ 21 ∣ phys from hok.phys) (by decide)
        simpa [hpresent, MapCall.phys, MapCall.size] using hframe
      · exact absurd ((covers_huge_iff hv hok.canonical phys flags).2 hpath) hcov
      · exact absurd ((covers_huge_iff hv hok.canonical phys flags).1 hcov) hpath
      · exact hb.translate v hv
    · rw [hentry] at he
      split_ifs at he with hpath
      · exact ⟨.huge virt phys flags, by simp, rfl, (covers_huge_iff hv hok.canonical phys flags).2 hpath⟩
      · obtain ⟨d, hd, h⟩ := hb.huge v e hv he
        exact ⟨d, mem_append_left _ hd, h⟩

theorem shown_run {calls : List MapCall} (hc : CallsOk calls) : ∃ b, calls.foldlM MapCall.apply Builder.new = some b ∧
    Shown calls b := by
  induction calls using reverseRecOn with
  | nil => exact ⟨_, rfl, fun v _ => rfl, fun v e _ he => by cases he⟩
  | append_singleton calls c ih =>
    obtain ⟨b, hb, hshown⟩ := ih ⟨fun d hd => hc.ok d (mem_append_left _ hd), fun d hd e he =>
      hc.apart d (mem_append_left _ hd) e (mem_append_left _ he)⟩
    obtain ⟨b', hb', hshown'⟩ := shown_apply hshown hc
    exact ⟨b', by simp [hb, hb'], hshown'⟩

/-- **Page tables are a finite map.** The calls succeed, and every address translates as the last call for it says,
exactly if that call's physical address is below 2^48. -/
theorem translate_iff {calls : List MapCall} (hc : CallsOk calls) : ∃ b, calls.foldlM MapCall.apply Builder.new = some b ∧
    ((∀ v, Canonical v → (b.translate v).map Prod.fst = describes calls v) ↔
      ∀ v c, Canonical v → lastCall calls v = some c → c.phys < 2 ^ 48) := by
  obtain ⟨b, hb, hshown⟩ := shown_run hc
  refine ⟨b, hb, fun h v c hv hlast => ?_, fun h v hv => ?_⟩
  · have hsame := (hshown.translate v hv).symm.trans (h v hv)
    rw [describes, hlast, map_some, map_some, some.injEq] at hsame
    omega
  · rw [hshown.translate v hv, describes]
    cases hlast : lastCall calls v with
    | none => rfl
    | some c => rw [map_some, map_some, Nat.mod_eq_of_lt (h v c hv hlast)]

def present : PageFlags := PageFlags.new.withPresent

theorem callsOk_single {phys : ℕ} (h : 4096 ∣ phys) (hsmall : phys < 2 ^ 52) : CallsOk [.page 0 phys present] := by
  refine ⟨fun c hc => ?_, fun c _ d hd _ hsize => ?_⟩
  · cases mem_singleton.1 hc
    exact ⟨.inl (show 0 < 2 ^ 47 by decide), dvd_zero _, h, hsmall, show present.has bitPresent = true by decide⟩
  · cases mem_singleton.1 hd
    cases hsize

/-- a page, a huge page beside it, and the first page mapped again -/
def remapCalls : List MapCall := [.page 0 8192 present, .huge (2 ^ 21) (2 ^ 22) present, .page 0 12288 present]

theorem callsOk_remap : CallsOk remapCalls := by
  refine ⟨fun c hc => ?_, fun c hc d hd hsize hhuge => ?_⟩
  · simp only [remapCalls, mem_cons, not_mem_nil, or_false] at hc
    obtain rfl | rfl | rfl := hc
    · exact ⟨.inl (by decide), by decide, by decide, by decide, by decide⟩
    · exact ⟨.inl (by decide), by decide, by decide, by decide, by decide⟩
    · exact ⟨.inl (by decide), by decide, by decide, by decide, by decide⟩
  · simp only [remapCalls, mem_cons, not_mem_nil, or_false] at hc hd
    obtain rfl | rfl | rfl := hd
    · cases hhuge
    · obtain rfl | rfl | rfl := hc
      · rfl
      · cases hsize
      · rfl
    · cases hhuge

/-- the huge page and the second mapping of the page are what the tables translate to -/
theorem translate_remapped : ∃ b, remapCalls.foldlM MapCall.apply Builder.new = some b ∧
    (b.translate 5).map Prod.fst = some 12293 ∧ (b.translate (2 ^ 21 + 4103)).map Prod.fst = some (2 ^ 22 + 4103) := by
  obtain ⟨b, hb, hiff⟩ := translate_iff callsOk_remap
  have htr := hiff.2 fun v c _ hlast => by
    have hmem := mem_reverse.1 (mem_of_find?_eq_some hlast)
    simp only [remapCalls, mem_cons, not_mem_nil, or_false] at hmem
    obtain rfl | rfl | rfl := hmem <;> decide
  exact ⟨b, hb, htr 5 (.inl (by decide)), htr (2 ^ 21 + 4103) (.inl (by decide))⟩

/-- **Bit 48 is lost.** Page 0 is mapped to 2^48 and translates to 0. -/
theorem high_frame_lost : ∃ b, [MapCall.page 0 (2 ^ 48) present].foldlM MapCall.apply Builder.new = some b ∧
    (b.translate 0).map Prod.fst = some 0 ∧
    describes [.page 0 (2 ^ 48) present] 0 = some (2 ^ 48) := by
  obtain ⟨b, hb, hshown⟩ := shown_run (callsOk_single (show 4096 ∣ 2 ^ 48 by decide) (by decide))
  exact ⟨b, hb, hshown.translate 0 (.inl (by decide)), rfl⟩

end Rumicos.Paging.DirectMap
