/-
Where a frame may be mapped.

- `LeafInv`: areas are apart; leaves inside MAP_SHARED areas are not COW; a frame that the page cache does not list is
  mapped at one page number only, in however many address spaces; a COW leaf on a listed frame lies in a MAP_PRIVATE
  area of that file, at the page of that file offset.
-/
import Rumicos.Proc.Edits

namespace Rumicos.Proc

open Paging Memory Lib Fs List Option AddressSpace

/-- page `p` lies in a MAP_PRIVATE area of the file of `key`, at the file offset of `key` -/
def FileSeat (vmas : List (Option Vma)) (p : UPage) (key : ℕ × ℕ) : Prop :=
  ∃ vma fo, findVma vmas (pageAddr p) = some vma ∧ vma.backing = .file key.1 fo false ∧
    key.2 = (fo + (pageAddr p - vma.start)) % 2 ^ 64

/-- areas are apart, and their flags say PRESENT and not COW -/
structure CoreOk (c : Core) : Prop where
  vmas : VmasOk c.vmas c.mmapNext
  flags : ∀ v, some v ∈ c.vmas → v.flags.has bitPresent = true ∧ v.flags.has bitCow = false

def AreasInv (k : Kernel) : Prop := ∀ a s, k.space a = some s → CoreOk s.core

theorem areasInv_of_cores {k k' : Kernel} (h : AreasInv k) (hc : k'.cores = k.cores) : AreasInv k' := by
  intro a s hs
  have hcore := space_core hc a
  rw [hs, map_some, eq_comm, map_eq_some_iff] at hcore
  obtain ⟨t, ht, htc⟩ := hcore
  rw [← htc]
  exact h a t ht

structure LeafInv (k : Kernel) : Prop where
  areas : AreasInv k
  plain : ∀ a s p l, k.space a = some s → s.leaf p = some l → s.inShared p = true → l.isCow = false
  seat : ∀ a s p l b t q m, k.space a = some s → s.leaf p = some l → k.space b = some t → t.leaf q = some m →
    l.frame = m.frame → cached k.cache l.frame = false → p = q
  file : ∀ a s p l key e, k.space a = some s → s.leaf p = some l → l.isCow = true → k.cache.find key = some e →
    e.frame = l.frame → FileSeat s.vmas p key
  keys : ∀ key key' e e', k.cache.find key = some e → k.cache.find key' = some e' → e.frame = e'.frame → key = key'

section

variable {k : Kernel} {a : ℕ} {s : AddressSpace} {p : UPage} {l : Leaf} (h : LeafInv k) (hs : k.space a = some s)
  (hl : s.leaf p = some l)
include h hs hl

theorem LeafInv.not_shared (hc : l.isCow = true) : s.inShared p = false := by
  by_contra hn
  have := h.plain a s p l hs hl (by simpa using hn)
  rw [hc] at this; cases this

theorem LeafInv.seat_of (b : ℕ) (t : AddressSpace) (q : UPage) (m : Leaf) (hb : k.space b = some t)
    (hm : t.leaf q = some m) (hf : m.frame = l.frame) (hca : cached k.cache l.frame = false) : p = q :=
  h.seat a s p l b t q m hs hl hb hm hf.symm hca

end

/-- **One edited leaf.** What the new leaf has to satisfy for `LeafInv` to survive. -/
theorem leafInv_edit {k k' : Kernel} {a : ℕ} {p : UPage} {x : Option Leaf} {o : Option Origin} (h : LeafInv k)
    (he : Edited k a p x o k')
    (hplain : ∀ s l, k.space a = some s → x = some l → s.inShared p = true → l.isCow = false)
    (hseat : ∀ l b t q m, x = some l → k.space b = some t → t.leaf q = some m → l.frame = m.frame →
      cached k.cache l.frame = false → p = q)
    (hfile : ∀ s l key e, k.space a = some s → x = some l → l.isCow = true → k.cache.find key = some e →
      e.frame = l.frame → FileSeat s.vmas p key) : LeafInv k' := by
  obtain ⟨s0, s0', hs0, hs0', hed⟩ := he.space
  have hin : s0'.inShared = s0.inShared := by funext q; simp [inShared, hed.vmas]
  -- every leaf of k' is the new one, or a leaf of k with the same areas around it
  have hleaf : ∀ b t q m, k'.space b = some t → t.leaf q = some m →
      (b = a ∧ q = p ∧ x = some m ∧ t = s0') ∨
        ∃ t', k.space b = some t' ∧ t'.leaf q = some m ∧ t'.vmas = t.vmas := by
    intro b t q m hb hm
    by_cases hba : b = a
    · subst hba
      rw [hs0'] at hb
      cases hb
      rw [hed.leaf q] at hm
      split_ifs at hm with hq
      · exact .inl ⟨rfl, hq, hm, rfl⟩
      · exact .inr ⟨s0, hs0, hm, hed.vmas.symm⟩
    · rw [he.others b hba] at hb
      exact .inr ⟨t, hb, hm, rfl⟩
  refine ⟨areasInv_of_cores h.areas he.cores, fun b t q m hb hm hsh => ?_,
    fun b t q m c u r n hb hm hc hn hf hca => ?_, fun b t q m key e hb hm hcow hkey hf => ?_,
    by rw [he.cache]; exact h.keys⟩
  · rcases hleaf b t q m hb hm with ⟨rfl, rfl, hx, rfl⟩ | ⟨t', ht', hm', hv⟩
    · exact hplain s0 m hs0 hx (by rw [← hin]; exact hsh)
    · refine h.plain b t' q m ht' hm' ?_
      simpa only [inShared, hv] using hsh
  · rw [he.cache] at hca
    rcases hleaf b t q m hb hm with ⟨-, rfl, hx, -⟩ | ⟨t', ht', hm', -⟩
    · rcases hleaf c u r n hc hn with ⟨-, rfl, -, -⟩ | ⟨u', hu', hn', -⟩
      · rfl
      · exact hseat m c u' r n hx hu' hn' hf hca
    · rcases hleaf c u r n hc hn with ⟨-, rfl, hx, -⟩ | ⟨u', hu', hn', -⟩
      · exact (hseat n b t' q m hx ht' hm' hf.symm (by rw [← hf]; exact hca)).symm
      · exact h.seat b t' q m c u' r n ht' hm' hu' hn' hf hca
  · rw [he.cache] at hkey
    rcases hleaf b t q m hb hm with ⟨rfl, rfl, hx, rfl⟩ | ⟨t', ht', hm', hv⟩
    · rw [hed.vmas]
      exact hfile s0 m key e hs0 hx hcow hkey hf
    · rw [← hv]
      exact h.file b t' q m key e ht' hm' hcow hkey hf

theorem leafInv_clear {k k' : Kernel} {a : ℕ} {p : UPage} {o : Option Origin} (h : LeafInv k)
    (he : Edited k a p none o k') : LeafInv k' :=
  leafInv_edit h he (fun _ _ _ hx => by cases hx) (fun _ _ _ _ _ hx => by cases hx) (fun _ _ _ _ _ hx => by cases hx)

/-- `LeafInv` reads the address spaces and the frames of the cache only -/
theorem leafInv_congr {k k' : Kernel} (h : LeafInv k) (hs : k'.spaces = k.spaces) (hc : SameFrames k.cache k'.cache) :
    LeafInv k' := by
  have hsp : k'.space = k.space := by funext a; simp [Kernel.space, hs]
  refine ⟨by rw [AreasInv, hsp]; exact h.areas, by rw [hsp]; exact h.plain, ?_, ?_, ?_⟩
  · rw [hsp]
    intro a s p l b t q m ha hl hb hm hf hca
    exact h.seat a s p l b t q m ha hl hb hm hf (by rw [← hc.cached]; exact hca)
  · rw [hsp]
    intro a s p l key e' ha hl hcow hkey hf
    obtain ⟨e, he, hee⟩ := hc.find hkey
    exact h.file a s p l key e ha hl hcow he (by rw [hee]; exact hf)
  · intro key key' e1 e2 h1 h2 hf
    obtain ⟨e, he, hee⟩ := hc.find h1
    obtain ⟨e', he', hee'⟩ := hc.find h2
    exact h.keys key key' e e' he he' (by rw [hee, hee']; exact hf)

/-! ## Counting copy-on-write users -/

/-- the pages of `s` that map `f` copy-on-write -/
def cowPages (s : AddressSpace) (f : Pfn) : List UPage :=
  ((Slot.leaves (some s.pml4)).filter (s.uses .cow f)).map Prod.fst

theorem length_cowPages (s : AddressSpace) (f : Pfn) : (cowPages s f).length = s.users .cow f := by
  rw [cowPages, length_map, users, countP_eq_length_filter]

theorem nodup_cowPages (s : AddressSpace) (f : Pfn) : (cowPages s f).Nodup :=
  (Slot.nodup_leaves (some s.pml4)).sublist (filter_sublist.map _)

theorem mem_cowPages {s : AddressSpace} {f : Pfn} {p : UPage} (h : p ∈ cowPages s f) :
    ∃ l, s.leaf p = some l ∧ l.isCow = true ∧ l.frame = f := by
  obtain ⟨⟨q, l⟩, hm, rfl⟩ := mem_map.1 h
  rw [mem_filter, Slot.mem_leaves] at hm
  refine ⟨l, hm.1, ?_⟩
  have := hm.2
  simp only [uses, kindOf, Bool.and_eq_true, decide_eq_true_eq] at this
  refine ⟨?_, this.2⟩
  by_contra hc
  split_ifs at this <;> simp at this

/-- two pages of one address space at the same file offset of the same area are one page -/
theorem fileSeat_inj {vmas : List (Option Vma)} {p q : UPage} {key : ℕ × ℕ} (hp : FileSeat vmas p key)
    (hq : FileSeat vmas q key) (h : findVma vmas (pageAddr p) = findVma vmas (pageAddr q)) : p = q := by
  obtain ⟨v, fo, hv, hb, ho⟩ := hp
  obtain ⟨w, fo', hw, hb', ho'⟩ := hq
  rw [hv, hw] at h
  cases h
  rw [hb] at hb'
  simp only [Backing.file.injEq] at hb'
  have h1 := (contains_iff v _).1 (findVma_mem hv).2
  have h2 := (contains_iff v _).1 (findVma_mem hw).2
  have hlt1 := pageAddr_lt p
  have hlt2 := pageAddr_lt q
  apply pageAddr_inj
  simp only [userTop] at hlt1 hlt2
  omega

/-- **An address space maps a frame copy-on-write at most once for each of its areas.** -/
theorem users_cow_le {k : Kernel} (h : LeafInv k) {a : ℕ} {s : AddressSpace} (hs : k.space a = some s) (f : Pfn) :
    s.users .cow f ≤ maxVmas := by
  rw [← length_cowPages]
  by_cases hc : cached k.cache f = true
  · -- a listed frame: the page determines its area, and the area the page
    obtain ⟨key, e, hkey, hf⟩ := (cached_iff _ _).1 hc
    have hseat : ∀ p ∈ cowPages s f, FileSeat s.vmas p key := fun p hp => by
      obtain ⟨l, hl, hcow, hlf⟩ := mem_cowPages hp
      exact h.file a s p l key e hs hl hcow hkey (by rw [hf, hlf])
    rw [← toFinset_card_of_nodup (nodup_cowPages s f), ← Finset.card_range maxVmas]
    refine Finset.card_le_card_of_injOn (fun p => s.vmas.idxOf (findVma s.vmas (pageAddr p))) ?_ ?_
    · intro p hp
      obtain ⟨v, fo, hv, -⟩ := hseat p (mem_toFinset.1 hp)
      simp only [Finset.coe_range]
      rw [hv, ← (h.areas a s hs).vmas.slots]
      exact idxOf_lt_length_of_mem (findVma_mem hv).1
    · intro p hp q hq hpq
      have hp' := hseat p (mem_toFinset.1 hp)
      have hq' := hseat q (mem_toFinset.1 hq)
      refine fileSeat_inj hp' hq' ?_
      obtain ⟨v, fo, hv, -⟩ := hp'
      obtain ⟨w, fo', hw, -⟩ := hq'
      simp only [hv] at hpq ⊢
      exact (idxOf_inj (findVma_mem hv).1).1 hpq
  · -- any other frame is mapped at one page number
    have hall : ∀ p ∈ cowPages s f, ∀ q ∈ cowPages s f, p = q := fun p hp q hq => by
      obtain ⟨l, hl, -, hlf⟩ := mem_cowPages hp
      obtain ⟨m, hm, -, hmf⟩ := mem_cowPages hq
      exact h.seat a s p l a s q m hs hl hs hm (by rw [hlf, hmf]) (by rw [hlf]; simpa using hc)
    have hle : (cowPages s f).length ≤ 1 := by
      rcases hl : cowPages s f with _ | ⟨p, _ | ⟨q, rest⟩⟩
      · simp
      · simp
      · have hnd := nodup_cowPages s f
        have hpq := hall p (by rw [hl]; simp) q (by rw [hl]; simp)
        rw [hl, hpq] at hnd
        simp at hnd
    exact le_trans hle (by decide)

/-- the number of live address spaces -/
def Kernel.liveCount (k : Kernel) : ℕ := k.total fun _ => 1

theorem total_le_total (k : Kernel) (g h : AddressSpace → ℕ) (hle : ∀ a s, k.space a = some s → g s ≤ h s) :
    k.total g ≤ k.total h := by
  refine sum_le_sum fun o ho => ?_
  rcases o with _ | s
  · exact le_refl _
  · obtain ⟨a, ha⟩ := mem_iff_getElem?.1 ho
    exact hle a s (by simp [Kernel.space, ha])

theorem users_cow_lt {k : Kernel} (h : LeafInv k) (hlive : k.liveCount ≤ maxProcesses + 1) (f : Pfn) :
    k.users .cow f + 1 < u32Max := by
  have h1 : k.users .cow f ≤ k.total fun _ => maxVmas := total_le_total k _ _ fun a s hs => users_cow_le h hs f
  have h2 : (k.total fun _ => maxVmas) = maxVmas * k.liveCount := by
    simp only [Kernel.total, Kernel.liveCount, ← sum_map_mul_left]
    congr 2
    funext o
    rcases o with _ | s <;> simp
  have h3 : maxVmas * k.liveCount ≤ maxVmas * (maxProcesses + 1) := Nat.mul_le_mul_left _ hlive
  have h4 : maxVmas * (maxProcesses + 1) + 1 < u32Max := by decide
  omega

end Rumicos.Proc
