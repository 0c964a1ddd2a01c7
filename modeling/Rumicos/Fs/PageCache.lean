/-
The page cache (`crates/fs/src/pagecache.rs`): (vnode, page-aligned file offset) to frame, in 256 buckets of 32 slots.

`Store` is the part of the kernel state these functions touch: the frame allocator, the bytes of every frame, the
cache and the vnodes (named by their direct-map address). Entries are never evicted: `evict_vnode` has no caller.

`get_or_fill` re-checks the bucket after the read because another CPU may have filled the page meanwhile. Here one
operation runs at a time, so the second look finds what the first found.
-/
import Rumicos.Lib.Buckets
import Rumicos.Fs.Ramfs

namespace Rumicos.Fs

open Paging Memory Lib Function List Option

def pageCacheBucketCap : ℕ := 32

/-- `pagecache::bucket_index` -/
def cacheBucketIndex (key : ℕ × ℕ) : Fin 256 :=
  let pageNo := BitVec.ofNat 64 key.2 >>> 12
  let mixed := BitVec.ofNat 64 key.1 ^^^ (pageNo * 0x2545F4914F6CDD1D#64)
  (((mixed * 0x9e3779b97f4a7c15#64) >>> 56).setWidth 8).toFin

/-- the value part of a `PageCacheEntry` -/
structure CacheEntry where
  frame : Pfn
  dirty : Bool
deriving DecidableEq

/-- `PAGE_CACHE`, keyed by vnode and file offset -/
abbrev PageCache := Table cacheBucketIndex pageCacheBucketCap CacheEntry

structure Store where
  frames : Frames
  /-- the bytes of every frame -/
  mem : Pfn → Page
  cache : PageCache
  /-- the vnodes, by direct-map address -/
  vnodes : ℕ → VNode
  /-- history: frames `get_or_fill` handed out without a cache entry -/
  orphans : List Pfn

/-- the store at boot -/
def Store.new (answers : List Pfn) (vnodes : ℕ → VNode) : Store :=
  ⟨Frames.new answers, fun _ => zeroPage, Table.empty _ _ _, vnodes, []⟩

/-- `fill_page_from_vnode`: the page's bytes, or no result where the read fails -/
def fillPageFromVnode (vn : VNode) (fileOffset : ℕ) : Option Page :=
  match vn.vtype with
  | .regular => some (ramfsRead vn 4096 fileOffset).1
  | .directory => none

def getOrFill (s : Store) (vnodePtr fileOffset : ℕ) : Option (Store × Option Pfn) :=
  match h : s.cache.find (vnodePtr, fileOffset) with
  | some e => some (s, some e.frame)
  | none =>
    match allocFrame s.frames with
    | none => none
    | some (f, frames) =>
      match fillPageFromVnode (s.vnodes vnodePtr) fileOffset with
      | none => some ({ s with frames := freeFrame frames f, mem := update s.mem f zeroPage }, none)
      | some page =>
        if s.cache.hasRoom (vnodePtr, fileOffset) then
          some ({ s with
            frames := frames
            mem := update s.mem f page
            cache := s.cache.insert (vnodePtr, fileOffset) ⟨f, false⟩ h }, some f)
        else
          -- bucket full: the frame is returned, nothing remembers it
          some ({ s with
            frames := frames
            mem := update s.mem f page
            orphans := f :: s.orphans }, some f)

def markDirty (s : Store) (vnodePtr fileOffset : ℕ) : Store :=
  { s with cache := s.cache.alter (vnodePtr, fileOffset) fun e => some { e with dirty := true } }

/-- clear the dirty bit of one entry -/
def clearDirty (s : Store) (key : ℕ × ℕ) : Store :=
  { s with cache := s.cache.alter key fun e => some { e with dirty := false } }

/-- `VNodeOps::write` of the vnode; no result where the vnode cannot be written -/
def vnodeWrite (s : Store) (vnodePtr : ℕ) (buf : List UInt8) (offset : ℕ) : Option Store :=
  match (s.vnodes vnodePtr).vtype with
  | .regular =>
    some { s with vnodes := update s.vnodes vnodePtr (ramfsWrite (s.vnodes vnodePtr) buf offset).1 }
  | .directory => none

/-- the scan of `writeback_vnode` over the entries of all buckets -/
def writebackLoop (vnodePtr vsize : ℕ) : List ((ℕ × ℕ) × CacheEntry) → Store → Store
  | [], s => s
  | (key, e) :: rest, s =>
    if key.1 ≠ vnodePtr ∨ e.dirty = false then writebackLoop vnodePtr vsize rest s
    else if vsize ≤ key.2 then writebackLoop vnodePtr vsize rest (clearDirty s key)
    else
      match vnodeWrite s vnodePtr ((List.range (min (vsize - key.2) 4096)).map (s.mem e.frame)) key.2 with
      | none => s
      | some s' => writebackLoop vnodePtr vsize rest (clearDirty s' key)

def writebackVnode (s : Store) (vnodePtr : ℕ) : Store :=
  writebackLoop vnodePtr (s.vnodes vnodePtr).size s.cache.entries s

/-! ## What `get_or_fill` does -/

/-- **The outcomes of `get_or_fill`.** -/
theorem getOrFill_cases {s s' : Store} {v off : ℕ} {r : Option Pfn} (h : getOrFill s v off = some (s', r)) :
    (∃ e, s.cache.find (v, off) = some e ∧ s' = s ∧ r = some e.frame) ∨
    (∃ f frames, s.cache.find (v, off) = none ∧ allocFrame s.frames = some (f, frames) ∧
      fillPageFromVnode (s.vnodes v) off = none ∧ r = none ∧
      s' = { s with frames := freeFrame frames f, mem := update s.mem f zeroPage }) ∨
    (∃ f frames page, ∃ hn : s.cache.find (v, off) = none, allocFrame s.frames = some (f, frames) ∧
      fillPageFromVnode (s.vnodes v) off = some page ∧ r = some f ∧
      ((s.cache.hasRoom (v, off) = true ∧ s' = { s with
          frames := frames
          mem := update s.mem f page
          cache := s.cache.insert (v, off) ⟨f, false⟩ hn }) ∨
        (s.cache.hasRoom (v, off) = false ∧ s' = { s with
          frames := frames
          mem := update s.mem f page
          orphans := f :: s.orphans }))) := by
  unfold getOrFill at h
  split at h
  · rename_i e he
    simp only [some.injEq, Prod.mk.injEq] at h
    exact .inl ⟨e, he, h.1.symm, h.2.symm⟩
  · rename_i hn
    split at h
    · cases h
    · rename_i f frames hf
      split at h
      · rename_i hp
        simp only [some.injEq, Prod.mk.injEq] at h
        exact .inr (.inl ⟨f, frames, hn, hf, hp, h.2.symm, h.1.symm⟩)
      · rename_i page hp
        refine .inr (.inr ⟨f, frames, page, hn, hf, hp, ?_⟩)
        split_ifs at h with hr
        · simp only [some.injEq, Prod.mk.injEq] at h
          exact ⟨h.2.symm, .inl ⟨hr, h.1.symm⟩⟩
        · simp only [some.injEq, Prod.mk.injEq] at h
          exact ⟨h.2.symm, .inr ⟨by simpa using hr, h.1.symm⟩⟩

/-! ## The frames the cache lists -/

/-- is there a cache entry with this frame? -/
def cached (c : PageCache) (f : Pfn) : Bool := c.entries.any fun x => decide (x.2.frame = f)

theorem cached_iff (c : PageCache) (f : Pfn) : cached c f = true ↔ ∃ key e, c.find key = some e ∧ e.frame = f := by
  simp only [cached, List.any_eq_true, decide_eq_true_eq]
  constructor
  · rintro ⟨⟨key, e⟩, hm, hf⟩
    exact ⟨key, e, (Table.mem_entries c key e).1 hm, hf⟩
  · rintro ⟨key, e, hm, hf⟩
    exact ⟨(key, e), (Table.mem_entries c key e).2 hm, hf⟩

/-- the two caches list the same frames under the same keys -/
def SameFrames (c c' : PageCache) : Prop :=
  ∀ key, (c'.find key).map CacheEntry.frame = (c.find key).map CacheEntry.frame

theorem SameFrames.find {c c' : PageCache} (h : SameFrames c c') {key : ℕ × ℕ} {e' : CacheEntry}
    (he : c'.find key = some e') : ∃ e, c.find key = some e ∧ e.frame = e'.frame := by
  have hk := h key
  rw [he, map_some, eq_comm, map_eq_some_iff] at hk
  exact hk

theorem SameFrames.cached {c c' : PageCache} (h : SameFrames c c') (f : Pfn) : cached c' f = cached c f := by
  rw [Bool.eq_iff_iff, cached_iff, cached_iff]
  constructor
  · rintro ⟨key, e', he', rfl⟩
    obtain ⟨e, he, hf⟩ := h.find he'
    exact ⟨key, e, he, hf⟩
  · rintro ⟨key, e, he, rfl⟩
    have hk := h key
    rw [he, map_some, map_eq_some_iff] at hk
    obtain ⟨e', he', hf⟩ := hk
    exact ⟨key, e', he', hf⟩

theorem sameFrames_refl (c : PageCache) : SameFrames c c := fun _ => rfl

theorem SameFrames.trans {c d e : PageCache} (h : SameFrames c d) (h' : SameFrames d e) : SameFrames c e :=
  fun key => (h' key).trans (h key)

theorem sameFrames_alter (c : PageCache) (key : ℕ × ℕ) (g : CacheEntry → CacheEntry) (hg : ∀ e, (g e).frame = e.frame) :
    SameFrames c (c.alter key fun e => some (g e)) := by
  intro key'
  rw [Table.find_alter]
  split_ifs with h
  · subst h
    rcases c.find key' with _ | e
    · rfl
    · simp [hg]
  · rfl

theorem sameFrames_markDirty (s : Store) (v off : ℕ) : SameFrames s.cache (markDirty s v off).cache :=
  sameFrames_alter _ _ _ fun _ => rfl

theorem sameFrames_clearDirty (s : Store) (key : ℕ × ℕ) : SameFrames s.cache (clearDirty s key).cache :=
  sameFrames_alter _ _ _ fun _ => rfl

theorem vnodeWrite_eq {s s' : Store} {v off : ℕ} {buf : List UInt8} (h : vnodeWrite s v buf off = some s') :
    s' = { s with vnodes := update s.vnodes v (ramfsWrite (s.vnodes v) buf off).1 } := by
  unfold vnodeWrite at h
  split at h
  · exact (some.inj h).symm
  · cases h

theorem writebackLoop_frames (v vsize : ℕ) (es : List ((ℕ × ℕ) × CacheEntry)) (s : Store) :
    (writebackLoop v vsize es s).frames = s.frames ∧ (writebackLoop v vsize es s).mem = s.mem ∧
      (writebackLoop v vsize es s).orphans = s.orphans ∧ SameFrames s.cache (writebackLoop v vsize es s).cache := by
  induction es generalizing s with
  | nil => exact ⟨rfl, rfl, rfl, sameFrames_refl _⟩
  | cons x es ih =>
    obtain ⟨key, e⟩ := x
    rw [writebackLoop]
    split_ifs with h1 h2
    · exact ih s
    · obtain ⟨i1, i2, i3, i4⟩ := ih (clearDirty s key)
      exact ⟨i1, i2, i3, (sameFrames_clearDirty s key).trans i4⟩
    · split
      · exact ⟨rfl, rfl, rfl, sameFrames_refl _⟩
      · rename_i s' hw
        obtain rfl := vnodeWrite_eq hw
        obtain ⟨i1, i2, i3, i4⟩ := ih (clearDirty _ key)
        exact ⟨i1, i2, i3, (sameFrames_clearDirty _ key).trans i4⟩

theorem writebackVnode_frames (s : Store) (v : ℕ) :
    (writebackVnode s v).frames = s.frames ∧ (writebackVnode s v).mem = s.mem ∧
      (writebackVnode s v).orphans = s.orphans ∧ SameFrames s.cache (writebackVnode s v).cache :=
  writebackLoop_frames _ _ _ _

/-! ## What a writeback does -/

/-- the file offset of the page that holds position `pos` -/
def pageBase (pos : ℕ) : ℕ := pos / 4096 * 4096

theorem pageBase_eq {off pos : ℕ} (hal : off % 4096 = 0) (h1 : off ≤ pos) (h2 : pos < off + 4096) :
    pageBase pos = off := by
  unfold pageBase
  omega

/-- an entry that needs no writeback -/
def CacheEntry.clean (e : CacheEntry) : CacheEntry := { e with dirty := false }

theorem find_clearDirty (s : Store) (key key' : ℕ × ℕ) :
    (clearDirty s key).cache.find key' =
      if key' = key then (s.cache.find key').map CacheEntry.clean else s.cache.find key' := by
  rw [clearDirty, Table.find_alter]
  split_ifs with h
  · subst h
    rcases s.cache.find key' with _ | e <;> rfl
  · rfl

theorem map_clean_clean (o : Option CacheEntry) :
    (o.map CacheEntry.clean).map CacheEntry.clean = o.map CacheEntry.clean := by
  rcases o with _ | e <;> rfl

/-- the effect of a writeback of `v` over the entries `es` -/
structure WrittenBack (v vsize : ℕ) (es : List ((ℕ × ℕ) × CacheEntry)) (s s' : Store) : Prop where
  others : ∀ w, w ≠ v → s'.vnodes w = s.vnodes w
  vtype : (s'.vnodes v).vtype = .regular
  size : (s'.vnodes v).size = vsize
  written : ∀ pos, pos < vsize → ∀ x ∈ es, x.1 = (v, pageBase pos) → x.2.dirty = true →
    (s'.vnodes v).byteAt pos = s.mem x.2.frame (pos % 4096)
  kept : ∀ pos, pos < vsize → (∀ x ∈ es, x.1 = (v, pageBase pos) → x.2.dirty = false) →
    (s'.vnodes v).byteAt pos = (s.vnodes v).byteAt pos
  cleaned : ∀ key, (∃ x ∈ es, x.1 = key ∧ key.1 = v ∧ x.2.dirty = true) →
    s'.cache.find key = (s.cache.find key).map CacheEntry.clean
  untouched : ∀ key, (∀ x ∈ es, x.1 = key → key.1 = v → x.2.dirty = false) → s'.cache.find key = s.cache.find key

theorem byteAt_writePage (vn : VNode) (page : Page) {off vsize pos : ℕ} (hcap : vsize ≤ ramfsMaxBlocks * ramfsBlockSize)
    (hal : off % 4096 = 0) (hoff : off < vsize) (hpos : pos < vsize) :
    (ramfsWrite vn ((List.range (min (vsize - off) 4096)).map page) off).1.byteAt pos =
      if pageBase pos = off then page (pos % 4096) else vn.byteAt pos := by
  have hlen : ((List.range (min (vsize - off) 4096)).map page).length = min (vsize - off) 4096 := by simp
  obtain ⟨-, -, hbyte⟩ := ramfsWrite_spec vn ((List.range (min (vsize - off) 4096)).map page) off (by omega)
  rw [hbyte, hlen]
  by_cases hb : pageBase pos = off
  · have hbase : pos / 4096 * 4096 = off := hb
    have hin : off ≤ pos ∧ pos < off + min (vsize - off) 4096 := by omega
    have hidx : pos - off < min (vsize - off) 4096 := by omega
    rw [if_pos hin, if_pos hb, getD_eq_getElem?_getD, getElem?_map, getElem?_range hidx]
    simp only [map_some, getD_some]
    congr 1
    omega
  · rw [if_neg hb, if_neg]
    rintro ⟨h1, h2⟩
    exact hb (pageBase_eq hal h1 (by omega))

section Loop

variable {v vsize : ℕ} {es : List ((ℕ × ℕ) × CacheEntry)} {s s' : Store} {key : ℕ × ℕ} {e : CacheEntry}

theorem WrittenBack.skip (h : WrittenBack v vsize es s s') (hskip : key.1 ≠ v ∨ e.dirty = false) :
    WrittenBack v vsize ((key, e) :: es) s s' := by
  -- the head is no dirty page of the file
  have hhead : key.1 = v → e.dirty = true → False := fun hv hd => by
    rcases hskip with hs | hs
    · exact hs hv
    · rw [hs] at hd
      cases hd
  refine ⟨h.others, h.vtype, h.size, fun pos hpos x hx hk hd => ?_, fun pos hpos hall => ?_, ?_, fun key' hall => ?_⟩
  · rcases mem_cons.1 hx with rfl | hx
    · exact (hhead (congrArg Prod.fst hk) hd).elim
    · exact h.written pos hpos x hx hk hd
  · exact h.kept pos hpos fun x hx => hall x (mem_cons_of_mem _ hx)
  · rintro key' ⟨x, hx, hk, hv, hd⟩
    rcases mem_cons.1 hx with rfl | hx
    · exact (hhead ((congrArg Prod.fst hk).trans hv) hd).elim
    · exact h.cleaned key' ⟨x, hx, hk, hv, hd⟩
  · exact h.untouched key' fun x hx => hall x (mem_cons_of_mem _ hx)

theorem WrittenBack.clear {s1 : Store} (h : WrittenBack v vsize es (clearDirty s1 key) s') (hs1 : s1.cache = s.cache)
    (hkv : key.1 = v) (hdirty : e.dirty = true) :
    (∀ key', (∃ x ∈ (key, e) :: es, x.1 = key' ∧ key'.1 = v ∧ x.2.dirty = true) →
      s'.cache.find key' = (s.cache.find key').map CacheEntry.clean) ∧
    ∀ key', (∀ x ∈ (key, e) :: es, x.1 = key' → key'.1 = v → x.2.dirty = false) →
      s'.cache.find key' = s.cache.find key' := by
  refine ⟨?_, fun key' hall => ?_⟩
  · rintro key' ⟨x, hx, hk, hv, hd⟩
    by_cases hmem : ∃ y ∈ es, y.1 = key' ∧ key'.1 = v ∧ y.2.dirty = true
    · rw [h.cleaned key' hmem, find_clearDirty, hs1]
      split_ifs
      · exact map_clean_clean _
      · rfl
    · rw [h.untouched key' fun y hy hyk hyv => by
        by_contra hn
        exact hmem ⟨y, hy, hyk, hyv, by simpa using hn⟩, find_clearDirty, hs1]
      rcases mem_cons.1 hx with rfl | hx
      · rw [if_pos hk.symm]
      · exact absurd ⟨x, hx, hk, hv, hd⟩ hmem
  · rw [h.untouched key' fun y hy => hall y (mem_cons_of_mem _ hy), find_clearDirty, hs1, if_neg]
    intro hk
    subst hk
    have := hall (key', e) mem_cons_self rfl hkv
    rw [hdirty] at this
    cases this

theorem WrittenBack.past (h : WrittenBack v vsize es (clearDirty s key) s') (hkv : key.1 = v) (hdirty : e.dirty = true)
    (hpast : vsize ≤ key.2) : WrittenBack v vsize ((key, e) :: es) s s' := by
  obtain ⟨hc1, hc2⟩ := h.clear (s := s) rfl hkv hdirty
  refine ⟨h.others, h.vtype, h.size, fun pos hpos x hx hk hd => ?_, fun pos hpos hall => ?_, hc1, hc2⟩
  · rcases mem_cons.1 hx with rfl | hx
    · have : key.2 = pos / 4096 * 4096 := congrArg Prod.snd hk
      omega
    · exact h.written pos hpos x hx hk hd
  · exact h.kept pos hpos fun x hx => hall x (mem_cons_of_mem _ hx)

theorem WrittenBack.write {vn' : VNode}
    (h : WrittenBack v vsize es (clearDirty { s with vnodes := update s.vnodes v vn' } key) s')
    (hkv : key.1 = v) (hdirty : e.dirty = true) (hfun : ∀ y ∈ es, key = y.1 → e = y.2)
    (hbyte : ∀ pos, pos < vsize → vn'.byteAt pos =
      if pageBase pos = key.2 then s.mem e.frame (pos % 4096) else (s.vnodes v).byteAt pos) :
    WrittenBack v vsize ((key, e) :: es) s s' := by
  obtain ⟨hc1, hc2⟩ := h.clear (s := s) rfl hkv hdirty
  have hkept : ∀ pos, pos < vsize → (∀ x ∈ es, x.1 = (v, pageBase pos) → x.2.dirty = false) →
      (s'.vnodes v).byteAt pos = if pageBase pos = key.2 then s.mem e.frame (pos % 4096) else (s.vnodes v).byteAt pos := by
    intro pos hpos hall
    rw [h.kept pos hpos hall]
    simp only [clearDirty, update_self]
    exact hbyte pos hpos
  refine ⟨fun w hwv => (h.others w hwv).trans (update_of_ne hwv _ _), h.vtype, h.size,
    fun pos hpos x hx hk hd => ?_, fun pos hpos hall => ?_, hc1, hc2⟩
  · rcases mem_cons.1 hx with rfl | hx
    · by_cases hmem : ∀ y ∈ es, y.1 = (v, pageBase pos) → y.2.dirty = false
      · rw [hkept pos hpos hmem, if_pos (congrArg Prod.snd hk).symm]
      · -- the same page later in the list is the same entry
        push Not at hmem
        obtain ⟨y, hy, hyk, hyd⟩ := hmem
        rw [h.written pos hpos y hy hyk (by simpa using hyd), ← hfun y hy (hk.trans hyk.symm)]
        rfl
    · exact h.written pos hpos x hx hk hd
  · rw [hkept pos hpos fun x hx => hall x (mem_cons_of_mem _ hx), if_neg]
    intro hb
    have := hall (key, e) mem_cons_self (Prod.ext hkv hb.symm)
    rw [hdirty] at this
    cases this

end Loop

/-- **The writeback loop**, over any list of entries that says one thing about each page. -/
theorem writebackLoop_spec (v vsize : ℕ) (hcap : vsize ≤ ramfsMaxBlocks * ramfsBlockSize)
    (es : List ((ℕ × ℕ) × CacheEntry)) (s : Store) (hreg : (s.vnodes v).vtype = .regular)
    (hsize : (s.vnodes v).size = vsize) (hal : ∀ x ∈ es, x.1.1 = v → x.1.2 % 4096 = 0)
    (hfun : ∀ x ∈ es, ∀ y ∈ es, x.1 = y.1 → x.2 = y.2) :
    WrittenBack v vsize es s (writebackLoop v vsize es s) := by
  induction es generalizing s with
  | nil =>
    exact ⟨fun _ _ => rfl, hreg, hsize, fun _ _ x hx => (by cases hx), fun _ _ _ => rfl,
      fun _ ⟨x, hx, _⟩ => (by cases hx), fun _ _ => rfl⟩
  | cons x es ih =>
    obtain ⟨key, e⟩ := x
    replace ih := fun s hreg hsize => ih s hreg hsize (fun x hx => hal x (mem_cons_of_mem _ hx))
      fun x hx y hy => hfun x (mem_cons_of_mem _ hx) y (mem_cons_of_mem _ hy)
    rw [writebackLoop]
    by_cases hskip : key.1 ≠ v ∨ e.dirty = false
    · rw [if_pos hskip]
      exact (ih s hreg hsize).skip hskip
    rw [if_neg hskip]
    rw [not_or, not_not, Bool.not_eq_false] at hskip
    obtain ⟨hkv, hdirty⟩ := hskip
    by_cases hpast : vsize ≤ key.2
    · rw [if_pos hpast]
      exact (ih (clearDirty s key) hreg hsize).past hkv hdirty hpast
    rw [if_neg hpast]
    have hoff : key.2 % 4096 = 0 := hal (key, e) mem_cons_self hkv
    have hlen : ((List.range (min (vsize - key.2) 4096)).map (s.mem e.frame)).length = min (vsize - key.2) 4096 := by simp
    have hbyte := fun pos (hpos : pos < vsize) =>
      byteAt_writePage (s.vnodes v) (s.mem e.frame) hcap hoff (not_le.1 hpast) hpos
    have hsz : (ramfsWrite (s.vnodes v) ((List.range (min (vsize - key.2) 4096)).map (s.mem e.frame)) key.2).1.size =
        vsize := by
      rw [(ramfsWrite_spec (s.vnodes v) _ key.2 (by omega)).2.1]
      omega
    simp only [vnodeWrite, hreg]
    refine (ih _ ?_ ?_).write hkv hdirty (fun y hy => hfun (key, e) mem_cons_self y (mem_cons_of_mem _ hy)) hbyte
    · simp only [clearDirty, update_self]
      exact hreg
    · simp only [clearDirty, update_self]
      exact hsz

theorem writebackLoop_skip (v vsize : ℕ) (es : List ((ℕ × ℕ) × CacheEntry)) (s : Store)
    (h : ∀ x ∈ es, x.1.1 ≠ v ∨ x.2.dirty = false) : writebackLoop v vsize es s = s := by
  induction es with
  | nil => rfl
  | cons x es ih =>
    rw [writebackLoop, if_pos (h x mem_cons_self)]
    exact ih fun y hy => h y (mem_cons_of_mem _ hy)

/-- **A writeback** of a regular file below the 1 MiB cap: every dirty page is in the file, up to its size, and no page of
the file is dirty any more. -/
theorem writebackVnode_spec (s : Store) (v : ℕ) (hreg : (s.vnodes v).vtype = .regular)
    (hcap : (s.vnodes v).size ≤ ramfsMaxBlocks * ramfsBlockSize)
    (hal : ∀ key e, s.cache.find key = some e → key.2 % 4096 = 0) :
    (∀ w, w ≠ v → (writebackVnode s v).vnodes w = s.vnodes w) ∧
    ((writebackVnode s v).vnodes v).vtype = .regular ∧ ((writebackVnode s v).vnodes v).size = (s.vnodes v).size ∧
    (∀ pos, pos < (s.vnodes v).size → ∀ e, s.cache.find (v, pageBase pos) = some e → e.dirty = true →
      ((writebackVnode s v).vnodes v).byteAt pos = s.mem e.frame (pos % 4096)) ∧
    (∀ pos, pos < (s.vnodes v).size → (∀ e, s.cache.find (v, pageBase pos) = some e → e.dirty = false) →
      ((writebackVnode s v).vnodes v).byteAt pos = (s.vnodes v).byteAt pos) ∧
    ∀ key, (writebackVnode s v).cache.find key =
      if key.1 = v then (s.cache.find key).map CacheEntry.clean else s.cache.find key := by
  have h := writebackLoop_spec v (s.vnodes v).size hcap s.cache.entries s hreg rfl
    (fun x hx _ => hal x.1 x.2 ((Table.mem_entries _ _ _).1 hx)) fun x hx y hy hxy => by
      have h1 := (Table.mem_entries s.cache x.1 x.2).1 hx
      have h2 := (Table.mem_entries s.cache y.1 y.2).1 hy
      rw [hxy, h2] at h1
      exact (some.inj h1).symm
  refine ⟨h.others, h.vtype, h.size, fun pos hpos e he hd => ?_, fun pos hpos hall => ?_, fun key => ?_⟩
  · exact h.written pos hpos ((v, pageBase pos), e) ((Table.mem_entries _ _ _).2 he) rfl hd
  · refine h.kept pos hpos fun x hx hk => hall x.2 ?_
    rw [← hk]
    exact (Table.mem_entries _ _ _).1 hx
  · by_cases hd : ∃ x ∈ s.cache.entries, x.1 = key ∧ key.1 = v ∧ x.2.dirty = true
    · obtain ⟨x, hx, hk, hv, -⟩ := id hd
      rw [writebackVnode, h.cleaned key hd, if_pos hv]
    · rw [writebackVnode, h.untouched key fun x hx hk hv => by
        by_contra hn
        exact hd ⟨x, hx, hk, hv, by simpa using hn⟩]
      split_ifs with hv
      · rcases he : s.cache.find key with _ | e
        · rfl
        · -- a clean entry stays as it is
          have hcl : e.dirty = false := by
            by_contra hn
            exact hd ⟨(key, e), (Table.mem_entries _ _ _).2 he, rfl, hv, by simpa using hn⟩
          rw [map_some, CacheEntry.clean, ← hcl]
      · rfl

end Rumicos.Fs
