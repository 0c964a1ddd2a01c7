/-
The page-fault paths: what each can do, and that each keeps the accounts and `LeafInv`.

- `FileFault`, `CowFault`, `Access`: the outcomes of `resolve_file_fault`, `resolve_cow_fault_inner` and of one user
  access; `resolveFileFault_inv`, `resolveCowFault_inv`, `access_inv` are the inversions. An access takes at most one
  not-present fault and then at most one copy-on-write fault.
- `FaultFits`: the condition a not-present fault on a MAP_PRIVATE page needs: COW_TABLE has room for the frame.
-/
import Rumicos.Proc.Good

namespace Rumicos.Proc

open Paging Memory Lib Fs Function List Option

/-! ## Inversions -/

/-- the file offset behind a page of a file area -/
def fileOff (vma : Vma) (fo addr : ℕ) : ℕ := (fo + (addr / pageSize * pageSize - vma.start)) % 2 ^ 64

/-- the outcomes of a not-present fault in address space `s = k.space a` -/
inductive FileFault (k : Kernel) (a addr : ℕ) (s : AddressSpace) : Kernel → Bool → Prop
  | noArea (hv : findVma s.vmas (addr / pageSize * pageSize) = none) : FileFault k a addr s k false
  | anon {vma : Vma} {k' : Kernel} (hv : findVma s.vmas (addr / pageSize * pageSize) = some vma)
      (hb : vma.backing = .anonymous)
      (hm : mapFresh k a (pageOf addr) zeroPage vma.flags.withWritable (.area vma) = some k') :
      FileFault k a addr s k' true
  | failed {vma : Vma} {v fo : ℕ} {shared : Bool} {st : Store}
      (hv : findVma s.vmas (addr / pageSize * pageSize) = some vma) (hb : vma.backing = .file v fo shared)
      (hg : getOrFill k.toStore v (fileOff vma fo addr) = some (st, none)) :
      FileFault k a addr s { k with toStore := st } false
  | priv {vma : Vma} {v fo : ℕ} {st : Store} {f : Pfn} {k' : Kernel}
      (hv : findVma s.vmas (addr / pageSize * pageSize) = some vma) (hb : vma.backing = .file v fo false)
      (hg : getOrFill k.toStore v (fileOff vma fo addr) = some (st, some f))
      (hm : mapPage { k with toStore := st, cow := cowShare k.cow f } a (pageOf addr) f
        vma.flags.withoutWritable.withCow (some (.area vma)) = some k') :
      FileFault k a addr s k' true
  | sharedRw {vma : Vma} {v fo : ℕ} {st : Store} {f : Pfn} {k' : Kernel}
      (hv : findVma s.vmas (addr / pageSize * pageSize) = some vma) (hb : vma.backing = .file v fo true)
      (hw : flagsWritable vma.flags = true) (hg : getOrFill k.toStore v (fileOff vma fo addr) = some (st, some f))
      (hm : mapPage { k with toStore := markDirty st v (fileOff vma fo addr) } a (pageOf addr) f
        vma.flags.withWritable (some (.area vma)) = some k') :
      FileFault k a addr s k' true
  | sharedRo {vma : Vma} {v fo : ℕ} {st : Store} {f : Pfn} {k' : Kernel}
      (hv : findVma s.vmas (addr / pageSize * pageSize) = some vma) (hb : vma.backing = .file v fo true)
      (hw : flagsWritable vma.flags = false) (hg : getOrFill k.toStore v (fileOff vma fo addr) = some (st, some f))
      (hm : mapPage { k with toStore := st } a (pageOf addr) f vma.flags.withoutWritable (some (.area vma)) = some k') :
      FileFault k a addr s k' true

variable {k k' : Kernel} {a addr v off : ℕ} {b w : Bool} {f : Pfn} {st : Store} {r : Option Pfn} {s : AddressSpace}
variable {p : UPage}

theorem resolveFileFault_inv (h : resolveFileFault k a addr = some (k', b)) : ∃ s, k.space a = some s ∧
    FileFault k a addr s k' b := by
  simp only [resolveFileFault, bind_eq_bind, bind_eq_some_iff] at h
  obtain ⟨s, hs, h⟩ := h
  refine ⟨s, hs, ?_⟩
  simp only [pageOf_align] at h
  split at h
  · rename_i hv
    cases h
    exact .noArea hv
  · rename_i vma hv
    split at h
    · rename_i hb
      simp only [bind_eq_some_iff] at h
      obtain ⟨k1, hm, rfl, rfl⟩ := h
      exact .anon hv hb hm
    · rename_i v fo shared hb
      rcases Nat.lt_or_ge v directMapBase with hbase | hbase
      · rw [if_pos hbase] at h; cases h
      rw [if_neg (not_lt.2 hbase)] at h
      simp only [bind_eq_some_iff] at h
      obtain ⟨⟨st, r⟩, hg, h⟩ := h
      simp only at h
      split at h
      · cases h
        exact .failed hv hb hg
      · split_ifs at h with hsh hw
        · simp only [bind_eq_some_iff] at h
          obtain ⟨k1, hm, rfl, rfl⟩ := h
          subst hsh
          exact .sharedRw hv hb hw hg hm
        · simp only [bind_eq_some_iff] at h
          obtain ⟨k1, hm, rfl, rfl⟩ := h
          subst hsh
          exact .sharedRo hv hb (by simpa using hw) hg hm
        · simp only [bind_eq_some_iff] at h
          obtain ⟨k1, hm, rfl, rfl⟩ := h
          have hf : shared = false := by simpa using hsh
          subst hf
          exact .priv hv hb hg hm

/-- the outcomes of a write fault on a present page in address space `s = k.space a` -/
inductive CowFault (k : Kernel) (a addr : ℕ) (s : AddressSpace) : Kernel → Bool → Prop
  | notCow (hl : ∀ l, s.leaf (pageOf addr) = some l → l.isCow = false) : CowFault k a addr s k false
  | reuse {l : Leaf} {k' : Kernel} (hl : s.leaf (pageOf addr) = some l) (hc : l.isCow = true)
      (hsole : k.cow.find l.frame = none)
      (hm : setLeaf { k with cow := cowUnshare k.cow l.frame } a (pageOf addr)
        (leafOf (l.entry.withFlags (cowWritableFlags l.entry.flags))) (s.origin (pageOf addr)) = some k') :
      CowFault k a addr s k' true
  | copy {l : Leaf} {g : Pfn} {frames : Frames} {k' : Kernel} (hl : s.leaf (pageOf addr) = some l)
      (hc : l.isCow = true) (hsole : k.cow.find l.frame ≠ none) (hg : allocFrame k.frames = some (g, frames))
      (hm : setLeaf { k with
          cow := cowUnshare k.cow l.frame
          frames := frames
          mem := update k.mem g (k.mem l.frame) } a (pageOf addr)
        (leafOf (.newPage g (cowWritableFlags l.entry.flags))) (s.origin (pageOf addr)) = some k') :
      CowFault k a addr s k' true

theorem resolveCowFault_inv (h : resolveCowFault k a addr = some (k', b)) : ∃ s, k.space a = some s ∧
    CowFault k a addr s k' b := by
  simp only [resolveCowFault, bind_eq_bind, bind_eq_some_iff] at h
  obtain ⟨s, hs, h⟩ := h
  refine ⟨s, hs, ?_⟩
  split at h
  · rename_i hl
    cases h
    exact .notCow fun l hl' => by rw [hl] at hl'; cases hl'
  · rename_i l hl
    split_ifs at h with hc hsole
    · simp only [bind_eq_some_iff] at h
      obtain ⟨k1, hm, rfl, rfl⟩ := h
      exact .reuse hl hc (by simpa [cowResolve] using hsole) hm
    · simp only [bind_eq_some_iff] at h
      obtain ⟨⟨g, frames⟩, hg, k1, hm, rfl, rfl⟩ := h
      exact .copy hl hc (by simpa [cowResolve] using hsole) hg hm
    · cases h
      refine .notCow fun l' hl' => ?_
      rw [hl] at hl'
      cases hl'
      simpa using hc

/-! ## Filling the cache -/

theorem cached_insert (c : PageCache) (key : ℕ × ℕ) (f : Pfn) (hn : c.find key = none) (hr : c.hasRoom key = true)
    (g : Pfn) : cached (c.insert key ⟨f, false⟩ hn) g = (cached c g || decide (g = f)) := by
  rw [Bool.eq_iff_iff, cached_iff, Bool.or_eq_true, cached_iff, decide_eq_true_eq]
  constructor
  · rintro ⟨key', e, he, rfl⟩
    rw [Table.find_insert _ _ _ _ _ hr] at he
    split_ifs at he with hk
    · cases he; exact .inr rfl
    · exact .inl ⟨key', e, he, rfl⟩
  · rintro (⟨key', e, he, rfl⟩ | rfl)
    · refine ⟨key', e, ?_, rfl⟩
      rw [Table.find_insert _ _ _ _ _ hr, if_neg, he]
      rintro rfl
      rw [hn] at he
      cases he
    · exact ⟨key, _, by rw [Table.find_insert _ _ _ _ _ hr, if_pos rfl], rfl⟩

theorem sound_fill {frames : Frames} (hk : Sound k) (hf : allocFrame k.frames = some (f, frames))
    (hsp : k'.spaces = k.spaces) (hco : k'.cow = k.cow) (hfr : k'.frames = frames)
    (hkept : ∀ g, k'.kept g = (k.kept g || decide (g = f))) : Sound k' := by
  obtain ⟨hk0, hheld, -⟩ := sound_alloc (j := { k with frames := frames }) hf rfl rfl rfl rfl rfl hk
  intro g
  have hacc : k'.account g =
      { ({ k with frames := frames } : Kernel).account g with kept := k.kept g || decide (g = f) } := by
    simp [Kernel.account, Kernel.users, Kernel.tableUses, Kernel.total, hsp, hco, hfr, hkept]
  rw [hacc]
  by_cases hg : g = f
  · subst hg
    simpa using Account.ok_keep (hk0 g) hheld.1 hheld.2
  · rw [decide_eq_false hg, Bool.or_false]
    exact hk0 g

theorem leafInv_cacheInsert {key : ℕ × ℕ} (h : LeafInv k) (hun : (k.account f).Unused) (hn : k.cache.find key = none)
    (hroom : k.cache.hasRoom key = true) (hsp : k'.spaces = k.spaces) (hc : k'.cache = k.cache.insert key ⟨f, false⟩ hn) :
    LeafInv k' := by
  have hspace : k'.space = k.space := by funext a; simp [Kernel.space, hsp]
  have hfind : ∀ key', k'.cache.find key' = if key' = key then some ⟨f, false⟩ else k.cache.find key' := fun key' => by
    rw [hc, Table.find_insert _ _ _ _ _ hroom]
  -- the new frame is listed nowhere else
  have hfresh : ∀ key e, k.cache.find key = some e → e.frame ≠ f := fun key e he hef => by
    have hca : cached k.cache f = true := (cached_iff _ _).2 ⟨key, e, he, hef⟩
    have := hun.2.2.2.2
    simp [Kernel.account, Kernel.kept, hca] at this
  refine ⟨by rw [AreasInv, hspace]; exact h.areas, by rw [hspace]; exact h.plain, ?_, ?_, ?_⟩
  · rw [hspace]
    intro a s p l b t q m ha hl hb hm hff hca
    refine h.seat a s p l b t q m ha hl hb hm hff ?_
    rw [hc, cached_insert _ _ _ _ hroom, Bool.or_eq_false_iff] at hca
    exact hca.1
  · rw [hspace]
    intro a s p l key' e ha hl hcow hkey hff
    rw [hfind] at hkey
    split_ifs at hkey with hke
    · cases hkey
      exact absurd hff.symm (leaf_ne_of_unused hun ha hl)
    · exact h.file a s p l key' e ha hl hcow hkey hff
  · intro key1 key2 e1 e2 h1 h2 hff
    rw [hfind] at h1 h2
    split_ifs at h1 h2 with hk1 hk2 hk2
    · rw [hk1, hk2]
    · cases h1
      exact absurd hff.symm (hfresh key2 e2 h2)
    · cases h2
      exact absurd hff (hfresh key1 e1 h1)
    · exact h.keys key1 key2 e1 e2 h1 h2 hff

/-- **`get_or_fill` keeps a state good.** The frame it returns is kept, and either the cache lists it or nothing used
it before. -/
theorem good_getOrFill (hk : Good k) (h : getOrFill k.toStore v off = some (st, r)) :
    Good { k with toStore := st } ∧ ∀ f, r = some f → ({ k with toStore := st } : Kernel).kept f = true ∧
      ((∃ e, st.cache.find (v, off) = some e ∧ e.frame = f) ∨ (k.account f).Unused ∧ st.cache = k.cache) := by
  rcases getOrFill_cases h with ⟨e, he, rfl, rfl⟩ | ⟨f, frames, hn, hf, -, rfl, rfl⟩ |
    ⟨f, frames, page, hn, hf, -, rfl, hr⟩
  · -- hit
    refine ⟨hk, fun f hfe => ?_⟩
    cases hfe
    have hc : cached k.cache e.frame = true := (cached_iff _ _).2 ⟨_, e, he, rfl⟩
    exact ⟨by simp [Kernel.kept, hc], .inl ⟨e, he, rfl⟩⟩
  · -- failed read: the frame goes back where it came from
    obtain ⟨hfree, hal, -, -, -⟩ := allocFrame_spec hf
    refine ⟨⟨fun g => ?_, leafInv_congr hk.leaf rfl (sameFrames_refl _), hk.live, ?_⟩, fun f hfe => by cases hfe⟩
    · have hacc : ({ k with toStore := { k.toStore with
          frames := freeFrame frames f, mem := update k.mem f zeroPage } } : Kernel).account g = k.account g := by
        ext1 <;> try rfl
        simp only [Kernel.account, freeFrame, hal, update_idem]
        by_cases hg : g = f
        · subst hg; simp [hfree]
        · rw [update_of_ne hg]
      rw [hacc]
      exact hk.sound g
    · simp [freeFrame, hal, (allocFrame_spec hf).2.2.2.1, hk.noBad]
  · -- fill: the cache lists the frame, or its bucket is full
    have hun := (hk.sound f).unused (allocFrame_spec hf).1
    have hbad := (allocFrame_spec hf).2.2.2.1.trans hk.noBad
    rcases hr with ⟨hroom, rfl⟩ | ⟨-, rfl⟩
    · refine ⟨⟨sound_fill hk.sound hf rfl rfl rfl fun g => ?_, leafInv_cacheInsert hk.leaf hun hn hroom rfl rfl,
        hk.live, hbad⟩, fun g hg => ?_⟩
      · simp only [Kernel.kept, cached_insert _ _ _ _ hroom]
        cases cached k.cache g <;> cases k.orphans.contains g <;> simp
      · cases hg
        exact ⟨by simp [Kernel.kept, cached_insert _ _ _ _ hroom],
          .inl ⟨_, by rw [Table.find_insert _ _ _ _ _ hroom, if_pos rfl], rfl⟩⟩
    · refine ⟨⟨sound_fill hk.sound hf rfl rfl rfl fun g => ?_, leafInv_congr hk.leaf rfl (sameFrames_refl _),
        hk.live, hbad⟩, fun g hg => ?_⟩
      · simp only [Kernel.kept, contains_cons]
        rw [show (g == f) = decide (g = f) from rfl]
        cases cached k.cache g <;> cases k.orphans.contains g <;> simp
      · cases hg
        exact ⟨by simp [Kernel.kept], .inr ⟨hun, rfl⟩⟩

/-! ## Not-present faults -/

/-- the frame `get_or_fill` returns if it returns one: the cached one, or the allocator's next -/
def cacheFrame (st : Store) (v off : ℕ) : Option Pfn :=
  match st.cache.find (v, off) with
  | some e => some e.frame
  | none => st.frames.answers.head?

theorem getOrFill_frame {st' : Store} (h : getOrFill st v off = some (st', some f)) : cacheFrame st v off = some f := by
  rcases getOrFill_cases h with ⟨e, he, rfl, hf⟩ | ⟨_, _, _, _, _, hf, _⟩ | ⟨g, frames, page, hn, hf, -, hg, -⟩
  · cases hf
    simp [cacheFrame, he]
  · cases hf
  · cases hg
    simp [cacheFrame, hn, (allocFrame_spec hf).2.2.2.2]

/-- the frame that a not-present fault asks `cow_share` to count: only a MAP_PRIVATE file page does -/
def privateFrame (k : Kernel) (a addr : ℕ) : Option Pfn := do
  let s ← k.space a
  match s.leaf (pageOf addr) with
  | some _ => none
  | none =>
    match findVma s.vmas (addr / pageSize * pageSize) with
    | some vma =>
      match vma.backing with
      | .file v fo false => cacheFrame k.toStore v (fileOff vma fo addr)
      | _ => none
    | none => none

/-- COW_TABLE has room for the frame of a not-present fault -/
def FaultFits (k : Kernel) (a addr : ℕ) : Prop := (privateFrame k a addr).all k.cow.roomFor = true

instance (k : Kernel) (a addr : ℕ) : Decidable (FaultFits k a addr) :=
  inferInstanceAs (Decidable ((privateFrame k a addr).all k.cow.roomFor = true))

theorem has_withWritable (f : PageFlags) (i : ℕ) (hi : i < 64) :
    f.withWritable.has i = (f.has i || decide (bitWritable = i)) :=
  PageFlags.has_withBits _ _ (by decide) _ _ hi

theorem has_withoutWritable (f : PageFlags) (i : ℕ) (hi : i < 64) :
    f.withoutWritable.has i = (f.has i && !decide (bitWritable = i)) :=
  PageFlags.has_withoutBits _ _ (by decide) _ hi

/-- the flags of a present page, and what they say of writing and copying -/
structure PageBits (f : PageFlags) (w c : Bool) : Prop where
  present : f.has bitPresent = true
  writable : f.has bitWritable = w
  cow : f.has bitCow = c

/-- the flags a not-present fault gives to the pages of an area -/
theorem AreasInv.bits {vma : Vma} (hk : AreasInv k) (hs : k.space a = some s) (hv : findVma s.vmas addr = some vma) :
    PageBits vma.flags.withWritable true false ∧ PageBits vma.flags.withoutWritable false false ∧
      PageBits vma.flags.withoutWritable.withCow false true := by
  obtain ⟨hp, hc⟩ := (hk a s hs).flags vma (findVma_mem hv).1
  have hrw := has_withWritable vma.flags
  have hro := has_withoutWritable vma.flags
  have hcow := has_cowReadonlyFlags vma.flags
  refine ⟨⟨?_, ?_, ?_⟩, ⟨?_, ?_, ?_⟩, ?_, ?_, ?_⟩
  · rw [hrw _ (by decide), hp]; rfl
  · rw [hrw _ (by decide), decide_eq_true rfl, Bool.or_true]
  · rw [hrw _ (by decide), hc]; rfl
  · rw [hro _ (by decide), hp]; rfl
  · rw [hro _ (by decide), decide_eq_true rfl, Bool.not_true, Bool.and_false]
  · rw [hro _ (by decide), hc]; rfl
  · exact (hcow _ (by decide)).trans (by rw [hp]; rfl)
  · exact (hcow _ (by decide)).trans (by simp [bitWritable, bitCow])
  · exact (hcow _ (by decide)).trans (by simp)

theorem inShared_of_findVma {vma : Vma} (haddr : addr < userTop)
    (hv : findVma s.vmas (addr / pageSize * pageSize) = some vma) : s.inShared (pageOf addr) = vma.isShared := by
  rw [AddressSpace.inShared, pageAddr_pageOf haddr, hv]
  rfl

/-- a frame that `get_or_fill` returned and the cache does not list is mapped nowhere -/
theorem fill_seat (h : (∃ e, st.cache.find (v, off) = some e ∧ e.frame = f) ∨ (k.account f).Unused ∧ st.cache = k.cache)
    (b : ℕ) (t : AddressSpace) (q : UPage) (m : Leaf) (hb : k.space b = some t) (hm : t.leaf q = some m) (hf : m.frame = f)
    (hca : cached st.cache f = false) : p = q := by
  rcases h with ⟨e, he, hef⟩ | ⟨hun, -⟩
  · rw [(cached_iff _ _).2 ⟨_, e, he, hef⟩] at hca
    cases hca
  · exact absurd hf (leaf_ne_of_unused hun hb hm)

/-- **A not-present fault keeps a state good** when COW_TABLE has room for its frame. -/
theorem good_fileFault (hk : Good k) (hs : k.space a = some s) (hnone : s.leaf (pageOf addr) = none)
    (haddr : addr < userTop) (hfits : FaultFits k a addr) (h : FileFault k a addr s k' b) : Good k' := by
  cases h with
  | noArea hv => exact hk
  | failed hv hb hg => exact (good_getOrFill hk hg).1
  | @anon vma _ hv hb hm =>
    obtain ⟨hrw, -, -⟩ := hk.leaf.areas.bits hs hv
    refine good_mapFresh hk hs hm (fun l hl => by rw [hnone] at hl; cases hl) hrw.present hrw.cow ?_
    rw [inShared_of_findVma haddr hv, Vma.isShared, hb]
  | @priv vma v fo st f _ hv hb hg hm =>
    obtain ⟨-, -, hcow⟩ := hk.leaf.areas.bits hs hv
    obtain ⟨hk1, hfill⟩ := good_getOrFill hk hg
    obtain ⟨hkept, hnew⟩ := hfill f rfl
    refine good_mapCow (k := { k with toStore := st }) hk1 hs hm hnone hcow.present hcow.cow ?_ ?_ (.inr hkept)
      (fill_seat (k := k) hnew) ?_
    · rw [inShared_of_findVma haddr hv, Vma.isShared, hb]
    · have hpf : privateFrame k a addr = some f := by
        simp [privateFrame, hs, hnone, hv, hb, getOrFill_frame hg]
      rw [FaultFits, hpf] at hfits
      exact hfits
    · intro key e hkey hef
      rcases hnew with ⟨e', he', hef'⟩ | ⟨hun, hcache⟩
      · have hke : key = (v, fileOff vma fo addr) := hk1.leaf.keys _ _ e e' hkey he' (by rw [hef, hef'])
        subst hke
        refine ⟨vma, fo, by rw [pageAddr_pageOf haddr]; exact hv, hb, ?_⟩
        rw [pageAddr_pageOf haddr, fileOff]
      · -- an unused frame is not listed
        have hl : cached k.cache f = true := (cached_iff _ _).2 ⟨key, e, by rw [← hcache]; exact hkey, hef⟩
        rw [not_cached_of_kept hun.2.2.2.2] at hl
        cases hl
  | @sharedRw vma v fo st f _ hv hb hw hg hm =>
    obtain ⟨hrw, -, -⟩ := hk.leaf.areas.bits hs hv
    obtain ⟨hk1, hfill⟩ := good_getOrFill hk hg
    obtain ⟨hkept, hnew⟩ := hfill f rfl
    have hsf := sameFrames_markDirty st v (fileOff vma fo addr)
    have hk2 : Good { k with toStore := markDirty st v (fileOff vma fo addr) } := good_congr hk1 rfl rfl hsf rfl rfl
    refine good_mapShared hk2 hs hm hnone hrw.present hrw.cow ?_ ?_ fun b t q m hb hm hf hca =>
      fill_seat (k := k) hnew b t q m hb hm hf (by rw [← hsf.cached]; exact hca)
    · rw [inShared_of_findVma haddr hv, Vma.isShared, hb]
    · rw [Kernel.kept, hsf.cached]
      exact hkept
  | @sharedRo vma v fo st f _ hv hb hw hg hm =>
    obtain ⟨-, hro, -⟩ := hk.leaf.areas.bits hs hv
    obtain ⟨hk1, hfill⟩ := good_getOrFill hk hg
    obtain ⟨hkept, hnew⟩ := hfill f rfl
    refine good_mapShared hk1 hs hm hnone hro.present hro.cow ?_ hkept (fill_seat (k := k) hnew)
    rw [inShared_of_findVma haddr hv, Vma.isShared, hb]

/-- **A copy-on-write fault keeps a state good.** -/
theorem good_cowFault (hk : Good k) (hs : k.space a = some s) (h : CowFault k a addr s k' b) : Good k' := by
  cases h with
  | notCow _ => exact hk
  | reuse hl hc hsole hm => exact good_reuse hk hs hl hc hsole hm
  | copy hl hc hsole hg hm => exact good_copy hk hs hl hc hsole hg hm

/-! ## One access -/

/-- an access to a present page: it goes through, or the process is killed, or a copy-on-write fault lets it through -/
inductive Present (k : Kernel) (a addr : ℕ) (w : Bool) : Kernel → Option Pfn → Prop
  | hit {s : AddressSpace} {l : Leaf} (hs : k.space a = some s) (hl : s.leaf (pageOf addr) = some l)
      (hw : (w && !l.isWritable) = false) : Present k a addr w k (some l.frame)
  | kill {s : AddressSpace} {l : Leaf} (hs : k.space a = some s) (hl : s.leaf (pageOf addr) = some l)
      (hw : (w && !l.isWritable) = true) (hc : l.isCow = false) : Present k a addr w k none
  | cow {s s' : AddressSpace} {l l' : Leaf} {k' : Kernel} (hs : k.space a = some s)
      (hl : s.leaf (pageOf addr) = some l) (hw : (w && !l.isWritable) = true) (hf : CowFault k a addr s k' true)
      (hs' : k'.space a = some s') (hl' : s'.leaf (pageOf addr) = some l') (hw' : l'.isWritable = true) :
      Present k a addr w k' (some l'.frame)

/-- an access: to a present page, or after a not-present fault -/
inductive Access (k : Kernel) (a addr : ℕ) (w : Bool) : Kernel → Option Pfn → Prop
  | present {k' : Kernel} {r : Option Pfn} (hp : Present k a addr w k' r) : Access k a addr w k' r
  | noPage {s : AddressSpace} {k' : Kernel} (hs : k.space a = some s) (hn : s.leaf (pageOf addr) = none)
      (hf : FileFault k a addr s k' false) : Access k a addr w k' none
  | page {s : AddressSpace} {k1 k' : Kernel} {r : Option Pfn} (hs : k.space a = some s)
      (hn : s.leaf (pageOf addr) = none) (hf : FileFault k a addr s k1 true) (hp : Present k1 a addr w k' r) :
      Access k a addr w k' r

theorem Access.space (h : Access k a addr w k' r) : ∃ s, k.space a = some s := by
  cases h with
  | present hp =>
    cases hp with
    | hit hs _ _ | kill hs _ _ _ | cow hs _ _ _ _ _ _ => exact ⟨_, hs⟩
  | noPage hs _ _ | page hs _ _ _ => exact ⟨_, hs⟩

theorem cowFault_leaf (hs : k.space a = some s) (h : CowFault k a addr s k' true) :
    ∃ s' l', k'.space a = some s' ∧ s'.leaf (pageOf addr) = some l' ∧ l'.isWritable = true := by
  cases h with
  | @reuse l _ hl hc hsole hm =>
    obtain ⟨m, hm', -, -, hw⟩ := leafOf_cowWritable l l.entry.frame
    obtain ⟨s0, s', hs0, hs', hed⟩ := (setLeaf_edited hm hl hs).space
    exact ⟨s', m, hs', by rw [hed.leaf, if_pos rfl]; exact hm', hw⟩
  | @copy l g frames _ hl hc hsole hg hm =>
    obtain ⟨m, hm', -, -, hw⟩ := leafOf_cowWritable l g
    obtain ⟨s0, s', hs0, hs', hed⟩ := (setLeaf_edited hm hl hs).space
    exact ⟨s', m, hs', by rw [hed.leaf, if_pos rfl]; exact hm', hw⟩

theorem mapPage_leaf {flags : PageFlags} {o : Option Origin} (h : mapPage k a p f flags o = some k')
    (hp : flags.has bitPresent = true) : ∃ s' l', k'.space a = some s' ∧ s'.leaf p = some l' ∧ l'.frame = f ∧
      s'.origin p = o ∧ l'.isCow = flags.has bitCow := by
  obtain ⟨l, hl, hframe, hcow, -⟩ := leafOf_newPage f hp
  obtain ⟨s0, s', -, hs', hed⟩ := (mapPage_edited h).space
  exact ⟨s', l, hs', by rw [hed.leaf, if_pos rfl]; exact hl, hframe, by rw [hed.origin, Function.update_self], hcow⟩

/-- the page a resolved not-present fault maps: COW only if it is a page of a MAP_PRIVATE file area, and in a file area
on the frame of the file page -/
theorem fileFault_entry (hk : AreasInv k) (hs : k.space a = some s) (h : FileFault k a addr s k' true) :
    ∃ s' l' vma, k'.space a = some s' ∧ s'.leaf (pageOf addr) = some l' ∧
      findVma s.vmas (addr / pageSize * pageSize) = some vma ∧ s'.origin (pageOf addr) = some (.area vma) ∧
      (l'.isCow = true → ∃ v fo, vma.backing = .file v fo false) ∧
      ∀ v fo shared, vma.backing = .file v fo shared →
        ∃ st, getOrFill k.toStore v (fileOff vma fo addr) = some (st, some l'.frame) := by
  obtain ⟨vma, flags, k1, f, hv, hp, hcow, hm, hfile⟩ : ∃ vma flags k1 f,
      findVma s.vmas (addr / pageSize * pageSize) = some vma ∧ flags.has bitPresent = true ∧
      (flags.has bitCow = true → ∃ v fo, vma.backing = .file v fo false) ∧
      mapPage k1 a (pageOf addr) f flags (some (.area vma)) = some k' ∧
      ∀ v fo shared, vma.backing = .file v fo shared → ∃ st, getOrFill k.toStore v (fileOff vma fo addr) =
        some (st, some f) := by
    cases h with
    | anon hv hb hm =>
      obtain ⟨f, frames, -, hm⟩ := mapFresh_inv hm
      obtain ⟨hrw, -, -⟩ := hk.bits hs hv
      exact ⟨_, _, _, f, hv, hrw.present, fun h => absurd h (ne_true_of_eq_false hrw.cow), hm,
        fun _ _ _ h => nomatch hb.symm.trans h⟩
    | priv hv hb hg hm =>
      exact ⟨_, _, _, _, hv, (hk.bits hs hv).2.2.present, fun _ => ⟨_, _, hb⟩, hm,
        fun _ _ _ h => by cases hb.symm.trans h; exact ⟨_, hg⟩⟩
    | sharedRw hv hb hw hg hm =>
      obtain ⟨hrw, -, -⟩ := hk.bits hs hv
      exact ⟨_, _, _, _, hv, hrw.present, fun h => absurd h (ne_true_of_eq_false hrw.cow), hm,
        fun _ _ _ h => by cases hb.symm.trans h; exact ⟨_, hg⟩⟩
    | sharedRo hv hb hw hg hm =>
      obtain ⟨-, hro, -⟩ := hk.bits hs hv
      exact ⟨_, _, _, _, hv, hro.present, fun h => absurd h (ne_true_of_eq_false hro.cow), hm,
        fun _ _ _ h => by cases hb.symm.trans h; exact ⟨_, hg⟩⟩
  obtain ⟨s', l', hs', hl', rfl, ho, hc⟩ := mapPage_leaf hm hp
  exact ⟨s', l', vma, hs', hl', hv, ho, fun h => hcow (hc.symm.trans h), hfile⟩

theorem access_hit {l : Leaf} (hs : k.space a = some s) (hl : s.leaf (pageOf addr) = some l)
    (hw : (w && !l.isWritable) = false) (n : ℕ) : access (n + 1) k a addr w = some (k, some l.frame) := by
  simp only [access, hs, hl, hw, bind_eq_bind, bind_some, Bool.false_eq_true, if_false, Option.pure_def]

theorem access_present {l : Leaf} (hs : k.space a = some s) (hl : s.leaf (pageOf addr) = some l) (n : ℕ)
    (r : Kernel × Option Pfn) :
    access (n + 2) k a addr w = some r → Present k a addr w r.1 r.2 ∧ ∀ m, access (m + 2) k a addr w = some r := by
  intro h
  by_cases hw : (w && !l.isWritable) = true
  · simp only [access, hs, hl, hw, bind_eq_bind, bind_some, if_true, bind_eq_some_iff] at h ⊢
    obtain ⟨⟨k1, b⟩, hc, h⟩ := h
    obtain ⟨s1, hs1, hf⟩ := resolveCowFault_inv hc
    cases hs.symm.trans hs1
    cases b with
    | true =>
      obtain ⟨s', l', hs', hl', hw'⟩ := cowFault_leaf hs hf
      have hhit : ∀ m, access (m + 1) k1 a addr w = some (k1, some l'.frame) :=
        access_hit hs' hl' (by rw [hw']; simp)
      have hr := (hhit n).symm.trans h
      cases hr
      exact ⟨.cow hs hl hw hf hs' hl' hw', fun m => ⟨_, hc, hhit m⟩⟩
    | false =>
      simp only [Bool.false_eq_true, if_false, Option.pure_def, some.injEq] at h
      subst h
      cases hf with
      | notCow hnc => exact ⟨.kill hs hl hw (hnc l hl), fun m => ⟨_, hc, rfl⟩⟩
  · have hw' : (w && !l.isWritable) = false := by simpa using hw
    have hr := (access_hit hs hl hw' (n + 1)).symm.trans h
    cases hr
    exact ⟨.hit hs hl hw', fun m => access_hit hs hl hw' (m + 1)⟩

/-- **What an access can do**, and that two faults are the most it takes: more fuel changes nothing. -/
theorem access_inv (hk : AreasInv k) (n : ℕ) (r : Kernel × Option Pfn) (h : access (n + accessFuel) k a addr w = some r) :
    Access k a addr w r.1 r.2 ∧ access accessFuel k a addr w = some r := by
  rcases hs : k.space a with _ | s
  · simp [accessFuel, access, hs] at h
  rcases hl : s.leaf (pageOf addr) with _ | l
  · have hstep : ∀ m, access (m + 1) k a addr w = (resolveFileFault k a addr).bind fun x =>
        if x.2 = true then access m x.1 a addr w else some (x.1, none) := fun m => by simp [access, hs, hl]
    rw [accessFuel, hstep, bind_eq_some_iff] at *
    obtain ⟨⟨k1, b⟩, hf, h⟩ := h
    obtain ⟨s1, hs1, hff⟩ := resolveFileFault_inv hf
    cases hs.symm.trans hs1
    cases b with
    | true =>
      obtain ⟨s', l', -, hs', hl', -⟩ := fileFault_entry hk hs hff
      obtain ⟨hp, hm⟩ := access_present hs' hl' n r h
      exact ⟨.page hs hl hff hp, ⟨_, hf, hm 0⟩⟩
    | false =>
      simp only [Bool.false_eq_true, if_false, some.injEq] at h
      subst h
      exact ⟨.noPage hs hl hff, ⟨_, hf, rfl⟩⟩
  · obtain ⟨hp, hm⟩ := access_present hs hl (n + 1) r h
    exact ⟨.present hp, hm 1⟩

theorem good_present (hk : Good k) (h : Present k a addr w k' r) : Good k' := by
  cases h with
  | hit _ _ _ | kill _ _ _ _ => exact hk
  | cow hs _ _ hf _ _ _ => exact good_cowFault hk hs hf

/-- **An access keeps a state good** when COW_TABLE has room for the frame of its not-present fault. -/
theorem good_access (hk : Good k) (haddr : addr < userTop) (hfits : FaultFits k a addr) (h : Access k a addr w k' r) :
    Good k' := by
  cases h with
  | present hp => exact good_present hk hp
  | noPage hs hn hf => exact good_fileFault hk hs hn haddr hfits hf
  | page hs hn hf hp => exact good_present (good_fileFault hk hs hn haddr hfits hf) hp

/-! ## What an access leaves alone -/

/-- frames freed between two states are free in the second -/
def FreedOk (fr fr' : Frames) : Prop := ∃ fs, fr'.freed = fs ++ fr.freed ∧ ∀ g ∈ fs, fr'.allocated g = false

theorem freedOk_of_eq {fr fr' : Frames} (h : fr'.freed = fr.freed) : FreedOk fr fr' :=
  ⟨[], h, fun _ hg => by cases hg⟩

/-- a fault in address space `a` -/
structure FaultFrame (k : Kernel) (a : ℕ) (k' : Kernel) : Prop where
  others : ∀ b, b ≠ a → k'.space b = k.space b
  cores : k'.cores = k.cores
  vnodes : k'.vnodes = k.vnodes
  procs : k'.procs = k.procs
  stores : k'.stores = k.stores
  freed : k'.frames.freed = k.frames.freed

theorem faultFrame_refl (k : Kernel) (a : ℕ) : FaultFrame k a k := ⟨fun _ _ => rfl, rfl, rfl, rfl, rfl, rfl⟩

theorem FaultFrame.trans {k1 k2 : Kernel} (h : FaultFrame k a k1) (h' : FaultFrame k1 a k2) : FaultFrame k a k2 :=
  ⟨fun b hb => (h'.others b hb).trans (h.others b hb), h'.cores.trans h.cores, h'.vnodes.trans h.vnodes,
    h'.procs.trans h.procs, h'.stores.trans h.stores, h'.freed.trans h.freed⟩

theorem Edited.frame {x : Option Leaf} {o : Option Origin} (h : Edited k a p x o k') : FaultFrame k a k' :=
  ⟨h.others, h.cores, h.vnodes, h.procs, h.stores, h.freed⟩

theorem fill_frame (h : getOrFill k.toStore v off = some (st, some f)) : FaultFrame k a { k with toStore := st } := by
  rcases getOrFill_cases h with ⟨e, -, rfl, -⟩ | ⟨_, _, _, _, _, hr, _⟩ | ⟨g, frames, page, hn, hg, -, -, hr⟩
  · exact faultFrame_refl k a
  · cases hr
  · have hfr := (allocFrame_spec hg).2.2.1
    rcases hr with ⟨-, rfl⟩ | ⟨-, rfl⟩ <;> exact ⟨fun _ _ => rfl, rfl, rfl, rfl, rfl, hfr⟩

theorem fileFault_frame (h : FileFault k a addr s k' true) : FaultFrame k a k' := by
  cases h with
  | anon hv hb hm =>
    obtain ⟨f, frames, hf, hm⟩ := mapFresh_inv hm
    have h0 : FaultFrame k a { k with frames := frames, mem := update k.mem f zeroPage } :=
      ⟨fun _ _ => rfl, rfl, rfl, rfl, rfl, (allocFrame_spec hf).2.2.1⟩
    exact h0.trans (mapPage_edited hm).frame
  | @priv _ _ _ st f _ hv hb hg hm =>
    have h0 : FaultFrame { k with toStore := st } a { k with toStore := st, cow := cowShare k.cow f } :=
      ⟨fun _ _ => rfl, rfl, rfl, rfl, rfl, rfl⟩
    exact (fill_frame hg).trans (h0.trans (mapPage_edited hm).frame)
  | @sharedRw vma v fo st f _ hv hb hw hg hm =>
    have h0 : FaultFrame { k with toStore := st } a { k with toStore := markDirty st v (fileOff vma fo addr) } :=
      ⟨fun _ _ => rfl, rfl, rfl, rfl, rfl, rfl⟩
    exact (fill_frame hg).trans (h0.trans (mapPage_edited hm).frame)
  | sharedRo hv hb hw hg hm => exact (fill_frame hg).trans (mapPage_edited hm).frame

/-- a not-present fault that is not resolved changes no address space; a failed read gives its frame back -/
theorem fileFault_failed (h : FileFault k a addr s k' false) :
    k'.spaces = k.spaces ∧ k'.vnodes = k.vnodes ∧ k'.procs = k.procs ∧ k'.stores = k.stores ∧ k'.cache = k.cache ∧
      k'.orphans = k.orphans ∧ FreedOk k.frames k'.frames := by
  cases h with
  | noArea hv => exact ⟨rfl, rfl, rfl, rfl, rfl, rfl, freedOk_of_eq rfl⟩
  | failed hv hb hg =>
    rcases getOrFill_cases hg with ⟨_, _, _, hr⟩ | ⟨f, frames, -, hf, -, -, rfl⟩ | ⟨_, _, _, _, _, _, hr, _⟩
    · cases hr
    · refine ⟨rfl, rfl, rfl, rfl, rfl, rfl, [f], ?_, fun g hg => ?_⟩
      · simp [freeFrame, (allocFrame_spec hf).2.2.1]
      · rw [mem_singleton.1 hg]
        simp [freeFrame]
    · cases hr

theorem cowFault_frame (hs : k.space a = some s) (h : CowFault k a addr s k' b) : FaultFrame k a k' := by
  cases h with
  | notCow _ => exact faultFrame_refl k a
  | @reuse l _ hl hc hsole hm =>
    have h0 : FaultFrame k a { k with cow := cowUnshare k.cow l.frame } := ⟨fun _ _ => rfl, rfl, rfl, rfl, rfl, rfl⟩
    exact h0.trans (setLeaf_edited hm hl hs).frame
  | @copy l g frames _ hl hc hsole hg hm =>
    have h0 : FaultFrame k a { k with
        cow := cowUnshare k.cow l.frame, frames := frames, mem := update k.mem g (k.mem l.frame) } :=
      ⟨fun _ _ => rfl, rfl, rfl, rfl, rfl, (allocFrame_spec hg).2.2.1⟩
    exact h0.trans (setLeaf_edited hm hl hs).frame

theorem present_frame (h : Present k a addr w k' r) : FaultFrame k a k' := by
  cases h with
  | hit _ _ _ | kill _ _ _ _ => exact faultFrame_refl k a
  | cow hs _ _ hf _ _ _ => exact cowFault_frame hs hf

/-- **An access** leaves the other address spaces, all cores, the files and the processes alone. -/
theorem access_frame (h : Access k a addr w k' r) :
    (∀ b, b ≠ a → k'.space b = k.space b) ∧ k'.cores = k.cores ∧ k'.vnodes = k.vnodes ∧ k'.procs = k.procs ∧
      k'.stores = k.stores ∧ FreedOk k.frames k'.frames := by
  cases h with
  | present hp =>
    have hf := present_frame hp
    exact ⟨hf.others, hf.cores, hf.vnodes, hf.procs, hf.stores, freedOk_of_eq hf.freed⟩
  | noPage hs hn hf =>
    obtain ⟨h1, h2, h3, h4, -, -, h5⟩ := fileFault_failed hf
    exact ⟨fun b _ => by simp [Kernel.space, h1], by rw [Kernel.cores, h1]; rfl, h2, h3, h4, h5⟩
  | page hs hn hf hp =>
    have h := (fileFault_frame hf).trans (present_frame hp)
    exact ⟨h.others, h.cores, h.vnodes, h.procs, h.stores, freedOk_of_eq h.freed⟩

end Rumicos.Proc
