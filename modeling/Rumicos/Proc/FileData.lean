/-
File bytes that are in two places: in the blocks of the file and in the page cache.

- `DataOk`: a cached page holds the last stores to it; a clean cached page agrees with the file below the file's size; a
  position whose page is not cached has its last store in the file.
-/
import Rumicos.Proc.ShareCounts
import Rumicos.Proc.Permissions

namespace Rumicos.Proc

open Paging Memory Lib Fs Function List Option

/-! ## The state of a file -/

/-- the last byte stored to position `pos` of vnode `v` -/
def lastStored (stores : List StoreEvent) (v pos : ℕ) : Option UInt8 :=
  (stores.find? fun e => decide (e.vnode = v) && decide (e.pos = pos)).map StoreEvent.byte

/-- the last byte stored to position `pos` of vnode `v` through a mapping -/
def lastMapped (stores : List StoreEvent) (v pos : ℕ) : Option UInt8 :=
  (stores.find? fun e => decide (e.vnode = v) && decide (e.pos = pos) && e.viaMap).map StoreEvent.byte

/-- the largest file: 256 blocks of 4 KiB -/
def maxFileSize : ℕ := ramfsMaxBlocks * ramfsBlockSize

/-- what the cache and the files hold -/
structure DataOk (k : Kernel) : Prop where
  /-- cached pages are pages of regular files -/
  pages : ∀ key e, k.cache.find key = some e → key.2 % 4096 = 0 ∧ (k.vnodes key.1).vtype = .regular
  cap : ∀ v, (k.vnodes v).size ≤ maxFileSize
  clean : ∀ v pos e, k.cache.find (v, pageBase pos) = some e → e.dirty = false → pos < (k.vnodes v).size →
    (k.vnodes v).byteAt pos = k.mem e.frame (pos % 4096)
  cachedLast : ∀ v pos e b, k.cache.find (v, pageBase pos) = some e → lastStored k.stores v pos = some b →
    k.mem e.frame (pos % 4096) = b
  fileLast : ∀ v pos b, k.cache.find (v, pageBase pos) = none → lastStored k.stores v pos = some b →
    pos < (k.vnodes v).size ∧ (k.vnodes v).byteAt pos = b
  mappedLast : ∀ v pos b, lastMapped k.stores v pos = some b →
    lastStored k.stores v pos = some b ∧ k.cache.find (v, pageBase pos) ≠ none

/-- the same files, apart from references -/
def SameFiles (vnodes vnodes' : ℕ → VNode) : Prop :=
  ∀ v, (vnodes' v).vtype = (vnodes v).vtype ∧ (vnodes' v).size = (vnodes v).size ∧
    ∀ pos, (vnodes' v).byteAt pos = (vnodes v).byteAt pos

theorem sameFiles_refl (vnodes : ℕ → VNode) : SameFiles vnodes vnodes := fun _ => ⟨rfl, rfl, fun _ => rfl⟩

theorem SameFiles.trans {u v w : ℕ → VNode} (h : SameFiles u v) (h' : SameFiles v w) : SameFiles u w := fun n =>
  ⟨(h' n).1.trans (h n).1, (h' n).2.1.trans (h n).2.1, fun pos => ((h' n).2.2 pos).trans ((h n).2.2 pos)⟩

theorem sameFiles_update (vnodes : ℕ → VNode) (v : ℕ) {vn : VNode} (ht : vn.vtype = (vnodes v).vtype)
    (hsz : vn.size = (vnodes v).size) (hb : vn.blocks = (vnodes v).blocks) :
    SameFiles vnodes (update vnodes v vn) := by
  intro w
  by_cases hw : w = v
  · subst hw
    rw [update_self]
    exact ⟨ht, hsz, fun pos => by rw [byteAt_eq, byteAt_eq, hb]⟩
  · rw [update_of_ne hw]
    exact ⟨rfl, rfl, fun _ => rfl⟩

theorem sameFiles_incRef (k : Kernel) (v : ℕ) : SameFiles k.vnodes (vnodeIncRef k v).vnodes :=
  sameFiles_update _ _ rfl rfl rfl

theorem sameFiles_decRef (k : Kernel) (v : ℕ) : SameFiles k.vnodes (vnodeDecRef k v).vnodes :=
  sameFiles_update _ _ rfl rfl rfl

theorem sameFiles_afterIncRef (k : Kernel) (req : MapRequest) : SameFiles k.vnodes (afterIncRef k req).vnodes := by
  cases req with
  | anonymous => exact sameFiles_refl _
  | file v off shared canWrite => exact sameFiles_incRef k v

theorem sameFiles_afterDecRef (k : Kernel) (vma : Vma) : SameFiles k.vnodes (afterDecRef k vma).vnodes := by
  unfold afterDecRef
  split
  · exact sameFiles_decRef k _
  · exact sameFiles_refl _

variable {k k' : Kernel} {page : Page} {off v : ℕ}

theorem dataOk_congr (h : DataOk k) (hc : k'.cache = k.cache) (hv : SameFiles k.vnodes k'.vnodes)
    (hm : ∀ key e, k.cache.find key = some e → k'.mem e.frame = k.mem e.frame) (hs : k'.stores = k.stores) :
    DataOk k' where
  pages := fun key e he => by
    rw [hc] at he
    rw [(hv key.1).1]
    exact h.pages key e he
  cap := fun v => by
    rw [(hv v).2.1]
    exact h.cap v
  clean := fun v pos e he hd hp => by
    rw [hc] at he
    rw [(hv v).2.1] at hp
    rw [(hv v).2.2, hm _ e he]
    exact h.clean v pos e he hd hp
  cachedLast := fun v pos e b he hb => by
    rw [hc] at he
    rw [hs] at hb
    rw [hm _ e he]
    exact h.cachedLast v pos e b he hb
  fileLast := fun v pos b he hb => by
    rw [hc] at he
    rw [hs] at hb
    rw [(hv v).2.1, (hv v).2.2]
    exact h.fileLast v pos b he hb
  mappedLast := fun v pos b hb => by
    rw [hs] at hb ⊢
    rw [hc]
    exact h.mappedLast v pos b hb

theorem DataOk.same (h : DataOk k) (hc : k'.cache = k.cache) (hv : k'.vnodes = k.vnodes) (hm : k'.mem = k.mem)
    (hs : k'.stores = k.stores) : DataOk k' :=
  dataOk_congr h hc (by rw [hv]; exact sameFiles_refl _) (fun _ _ _ => by rw [hm]) hs

/-- a frame that was free is filled -/
theorem DataOk.fresh {f : Pfn} {frames : Frames} (h : DataOk k) (hk : Sound k)
    (hf : allocFrame k.frames = some (f, frames)) (hc : k'.cache = k.cache) (hv : k'.vnodes = k.vnodes)
    (hm : k'.mem = update k.mem f page) (hs : k'.stores = k.stores) : DataOk k' :=
  dataOk_congr h hc (by rw [hv]; exact sameFiles_refl _)
    (fun _ _ he => memKept_update (allocFrame_spec hf).1 hm _ (cached_allocated hk he)) hs

/-! ## Filling, marking and writing back -/

theorem fillPage_byte {vn : VNode} {pos : ℕ} (h : fillPageFromVnode vn off = some page) (hb : pageBase pos = off)
    (hpos : pos < vn.size) : vn.vtype = .regular ∧ page (pos % 4096) = vn.byteAt pos := by
  unfold fillPageFromVnode at h
  split at h
  · rename_i hreg
    simp only [some.injEq] at h
    refine ⟨hreg, ?_⟩
    have hoff : off + pos % 4096 = pos := by
      unfold pageBase at hb
      omega
    rw [← h, ramfsRead_spec, hoff, if_pos ⟨Nat.mod_lt _ (by decide), hpos⟩]
  · cases h

/-- `get_or_fill` enters a page: it holds the file's bytes, and so the last stores -/
theorem dataOk_fill {f : Pfn} (h : DataOk k) (hn : k.cache.find (v, off) = none)
    (hroom : k.cache.hasRoom (v, off) = true) (hal : off % 4096 = 0)
    (hfill : fillPageFromVnode (k.vnodes v) off = some page)
    (hfresh : ∀ key e, k.cache.find key = some e → e.frame ≠ f) (frames : Frames) :
    DataOk { k with toStore := { k.toStore with
      frames := frames
      mem := update k.mem f page
      cache := k.cache.insert (v, off) ⟨f, false⟩ hn } } := by
  have hreg : (k.vnodes v).vtype = .regular := by
    unfold fillPageFromVnode at hfill
    split at hfill
    · assumption
    · cases hfill
  have hfind : ∀ key e, (k.cache.insert (v, off) ⟨f, false⟩ hn).find key = some e →
      (key = (v, off) ∧ e = ⟨f, false⟩) ∨ (key ≠ (v, off) ∧ k.cache.find key = some e) := by
    intro key e he
    rw [Table.find_insert _ _ _ _ _ hroom] at he
    split_ifs at he with hk
    · exact .inl ⟨hk, (some.inj he).symm⟩
    · exact .inr ⟨hk, he⟩
  refine ⟨fun key e he => ?_, h.cap, fun w pos e he hd hp => ?_, fun w pos e b he hb => ?_, fun w pos b he hb => ?_,
    fun w pos b hb => ?_⟩
  · rcases hfind key e he with ⟨rfl, -⟩ | ⟨-, he⟩
    · exact ⟨hal, hreg⟩
    · exact h.pages key e he
  · rcases hfind _ e he with ⟨hk, rfl⟩ | ⟨-, he⟩
    · obtain ⟨rfl, hb⟩ := Prod.mk.inj hk
      simp only [update_self]
      exact (fillPage_byte hfill hb hp).2.symm
    · simp only [update_of_ne (hfresh _ e he)]
      exact h.clean w pos e he hd hp
  · rcases hfind _ e he with ⟨hk, rfl⟩ | ⟨-, he⟩
    · obtain ⟨rfl, hbase⟩ := Prod.mk.inj hk
      obtain ⟨hp, hbyte⟩ := h.fileLast w pos b (by rw [hbase]; exact hn) hb
      simp only [update_self]
      rw [(fillPage_byte hfill hbase hp).2, hbyte]
    · simp only [update_of_ne (hfresh _ e he)]
      exact h.cachedLast w pos e b he hb
  · refine h.fileLast w pos b ?_ hb
    rw [Table.find_insert _ _ _ _ _ hroom] at he
    split_ifs at he
    exact he
  · obtain ⟨h1, h2⟩ := h.mappedLast w pos b hb
    refine ⟨h1, ?_⟩
    rw [Table.find_insert _ _ _ _ _ hroom]
    split_ifs
    · exact some_ne_none _
    · exact h2

/-- what `get_or_fill` leaves when the cache lists the page or has room for it -/
structure Filled (k : Kernel) (v off : ℕ) (st : Store) (r : Option Pfn) : Prop where
  listed : ∀ f, r = some f → ∃ e, st.cache.find (v, off) = some e ∧ e.frame = f
  kept : ∀ key e, k.cache.find key = some e → st.cache.find key = some e
  dirty : ∀ key e, st.cache.find key = some e → e.dirty = true → k.cache.find key = some e
  failed : r = none → k.cache.find (v, off) = none ∧ st.cache = k.cache
  data : DataOk { k with toStore := st }

theorem filled {st : Store} {r : Option Pfn} (hk : Sound k) (h : DataOk k) (hal : off % 4096 = 0)
    (hroom : k.cache.find (v, off) = none → k.cache.hasRoom (v, off) = true)
    (hg : getOrFill k.toStore v off = some (st, r)) : Filled k v off st r := by
  rcases getOrFill_cases hg with ⟨e, he, rfl, rfl⟩ | ⟨f, frames, hn, hf, -, rfl, rfl⟩ |
    ⟨f, frames, page, hn, hf, hfill, rfl, ⟨hr, rfl⟩ | ⟨hr, rfl⟩⟩
  · exact ⟨fun f hf => ⟨e, he, some.inj hf⟩, fun _ _ h => h, fun _ _ h _ => h, fun hr => (by cases hr), h⟩
  · exact ⟨fun f hf => (by cases hf), fun _ _ h => h, fun _ _ h _ => h, fun _ => ⟨hn, rfl⟩, h.fresh hk hf rfl rfl rfl rfl⟩
  · have hfresh : ∀ key e, k.cache.find key = some e → e.frame ≠ f := by
      rintro key e he rfl
      have hal := cached_allocated hk he
      rw [(allocFrame_spec hf).1] at hal
      cases hal
    have hfind : ∀ key, (k.cache.insert (v, off) ⟨f, false⟩ hn).find key =
        if key = (v, off) then some ⟨f, false⟩ else k.cache.find key := fun key => Table.find_insert _ _ _ _ _ hr
    refine ⟨fun g hg => ⟨⟨f, false⟩, ?_, some.inj hg⟩, fun key e he => ?_, fun key e he hd => ?_,
      fun hr => (by cases hr), dataOk_fill h hn hr hal hfill hfresh frames⟩
    · simp [hfind]
    · simp only [hfind]
      rw [if_neg]
      · exact he
      · rintro rfl
        cases hn.symm.trans he
    · simp only [hfind] at he
      split_ifs at he with hkey
      · cases he
        cases hd
      · exact he
  · rw [hroom hn] at hr
    cases hr

theorem find_markDirty (st : Store) (v off : ℕ) (key : ℕ × ℕ) :
    (markDirty st v off).cache.find key =
      if key = (v, off) then (st.cache.find key).map (fun e => { e with dirty := true }) else st.cache.find key := by
  rw [markDirty, Table.find_alter]
  split_ifs with h
  · subst h
    rcases st.cache.find (v, off) with _ | e <;> rfl
  · rfl

theorem dataOk_markDirty (h : DataOk k) (v off : ℕ) : DataOk { k with toStore := markDirty k.toStore v off } := by
  have hfind : ∀ key e', (markDirty k.toStore v off).cache.find key = some e' →
      ∃ e, k.cache.find key = some e ∧ e'.frame = e.frame ∧ (e'.dirty = false → e.dirty = false) := by
    intro key e' he
    rw [find_markDirty] at he
    split_ifs at he
    · rw [map_eq_some_iff] at he
      obtain ⟨e, he, rfl⟩ := he
      exact ⟨e, he, rfl, fun hd => by cases hd⟩
    · exact ⟨e', he, rfl, id⟩
  have hnone : ∀ key, (markDirty k.toStore v off).cache.find key = none ↔ k.cache.find key = none := by
    intro key
    rw [find_markDirty]
    split_ifs
    · exact map_eq_none_iff
    · rfl
  refine ⟨fun key e' he => ?_, h.cap, fun w pos e' he hd hp => ?_, fun w pos e' b he hb => ?_,
    fun w pos b he hb => h.fileLast w pos b ((hnone _).1 he) hb, fun w pos b hb => ?_⟩
  · obtain ⟨e, he, -, -⟩ := hfind key e' he
    exact h.pages key e he
  · obtain ⟨e, he, hf, hd'⟩ := hfind _ e' he
    rw [hf]
    exact h.clean w pos e he (hd' hd) hp
  · obtain ⟨e, he, hf, -⟩ := hfind _ e' he
    rw [hf]
    exact h.cachedLast w pos e b he hb
  · obtain ⟨h1, h2⟩ := h.mappedLast w pos b hb
    exact ⟨h1, fun hn => h2 ((hnone _).1 hn)⟩

/-- **A writeback** leaves the last stores where they are in the cache, and the file agrees with every page of it. -/
theorem dataOk_writeback (h : DataOk k) (v : ℕ) : DataOk { k with toStore := writebackVnode k.toStore v } := by
  by_cases hreg : (k.vnodes v).vtype = .regular
  · obtain ⟨hoth, hvt, hsz, hwritten, hkept, hfind⟩ :=
      writebackVnode_spec k.toStore v hreg (h.cap v) fun key e he => (h.pages key e he).1
    obtain ⟨-, hmem, -, hsf⟩ := writebackVnode_frames k.toStore v
    have hnone : ∀ key, (writebackVnode k.toStore v).cache.find key = none ↔ k.cache.find key = none := by
      intro key
      rw [← map_eq_none_iff (f := CacheEntry.frame), hsf key, map_eq_none_iff]
    have hvtype : ∀ w, ((writebackVnode k.toStore v).vnodes w).vtype = (k.vnodes w).vtype := fun w => by
      by_cases hw : w = v
      · rw [hw, hvt, hreg]
      · rw [hoth w hw]
    have hsize : ∀ w, ((writebackVnode k.toStore v).vnodes w).size = (k.vnodes w).size := fun w => by
      by_cases hw : w = v
      · rw [hw, hsz]
      · rw [hoth w hw]
    refine ⟨fun key e' he => ?_, fun w => ?_, fun w pos e' he hd hp => ?_, fun w pos e' b he hb => ?_,
      fun w pos b he hb => ?_, fun w pos b hb => ?_⟩
    · obtain ⟨e, he, -⟩ := hsf.find he
      obtain ⟨h1, h2⟩ := h.pages key e he
      exact ⟨h1, (hvtype key.1).trans h2⟩
    · exact le_of_eq_of_le (hsize w) (h.cap w)
    · rw [hsize] at hp
      rw [hmem]
      rw [hfind] at he
      by_cases hw : w = v
      · subst hw
        rw [if_pos rfl, map_eq_some_iff] at he
        obtain ⟨e, he, rfl⟩ := he
        rcases hde : e.dirty with _ | _
        · rw [hkept pos hp fun e2 he2 => by cases he.symm.trans he2; exact hde]
          exact h.clean w pos e he hde hp
        · exact hwritten pos hp e he hde
      · rw [if_neg hw] at he
        rw [hoth w hw]
        exact h.clean w pos e' he hd hp
    · obtain ⟨e, he, hf⟩ := hsf.find he
      rw [hmem, ← hf]
      exact h.cachedLast w pos e b he hb
    · have hn : k.cache.find (w, pageBase pos) = none := (hnone _).1 he
      obtain ⟨h1, h2⟩ := h.fileLast w pos b hn hb
      refine ⟨lt_of_lt_of_eq h1 (hsize w).symm, ?_⟩
      by_cases hw : w = v
      · subst hw
        rw [hkept pos h1 fun e he => by rw [hn] at he; cases he]
        exact h2
      · rw [hoth w hw]
        exact h2
    · obtain ⟨h1, h2⟩ := h.mappedLast w pos b hb
      exact ⟨h1, fun hn => h2 ((hnone _).1 hn)⟩
  · -- only regular files have cached pages
    have hskip : writebackVnode k.toStore v = k.toStore := writebackLoop_skip _ _ _ _ fun x hx => .inl fun hv => by
      have := (h.pages x.1 x.2 ((Table.mem_entries _ _ _).1 hx)).2
      rw [hv] at this
      exact hreg this
    rw [hskip]
    exact h

/-! ## Stores -/

/-- the history of a write() -/
def writeEvents (v offset : ℕ) (buf : List UInt8) : List StoreEvent :=
  ((List.range buf.length).map fun i => ⟨v, offset + i, buf.getD i 0, false⟩).reverse

theorem mem_writeEvents {offset : ℕ} {buf : List UInt8} {e : StoreEvent} :
    e ∈ writeEvents v offset buf ↔ ∃ i, i < buf.length ∧ e = ⟨v, offset + i, buf.getD i 0, false⟩ := by
  simp [writeEvents, eq_comm]

theorem lastStored_write (stores : List StoreEvent) (v offset : ℕ) (buf : List UInt8) (w pos : ℕ) :
    lastStored (writeEvents v offset buf ++ stores) w pos =
      if w = v ∧ offset ≤ pos ∧ pos < offset + buf.length then some (buf.getD (pos - offset) 0)
      else lastStored stores w pos := by
  unfold lastStored
  rw [find?_append]
  rcases hf : (writeEvents v offset buf).find? (fun e => decide (e.vnode = w) && decide (e.pos = pos)) with _ | e
  · rw [hf, if_neg, none_or]
    rintro ⟨rfl, h1, h2⟩
    have := find?_eq_none.1 hf ⟨w, pos, buf.getD (pos - offset) 0, false⟩
      (mem_writeEvents.2 ⟨pos - offset, by omega, by rw [Nat.add_sub_cancel' h1]⟩)
    simp at this
  · obtain ⟨i, hi, rfl⟩ := mem_writeEvents.1 (mem_of_find?_eq_some hf)
    have hp := find?_some hf
    simp only [Bool.and_eq_true, decide_eq_true_eq] at hp
    obtain ⟨rfl, rfl⟩ := hp
    rw [hf, if_pos ⟨rfl, by omega, by omega⟩, Nat.add_sub_cancel_left]
    rfl

theorem lastMapped_write (stores : List StoreEvent) (v offset : ℕ) (buf : List UInt8) (w pos : ℕ) :
    lastMapped (writeEvents v offset buf ++ stores) w pos = lastMapped stores w pos := by
  unfold lastMapped
  rw [find?_append, find?_eq_none.2, none_or]
  intro e he
  obtain ⟨i, -, rfl⟩ := mem_writeEvents.1 he
  simp

/-- **write()** to positions whose pages are not cached -/
theorem dataOk_write {offset : ℕ} {buf : List UInt8} (h : DataOk k) (hcap : offset + buf.length ≤ maxFileSize)
    (hun : ∀ pos, min (k.vnodes v).size offset ≤ pos → pos < offset + buf.length → k.cache.find (v, pageBase pos) = none) :
    DataOk { k with
      vnodes := update k.vnodes v (ramfsWrite (k.vnodes v) buf offset).1
      stores := writeEvents v offset buf ++ k.stores } := by
  obtain ⟨-, hsize, hbyte⟩ := ramfsWrite_spec (k.vnodes v) buf offset hcap
  refine ⟨fun key e he => ⟨(h.pages key e he).1, ?_⟩, fun w => ?_, fun w pos e he hd hp => ?_, fun w pos e b he hb => ?_,
    fun w pos b he hb => ?_, fun w pos b hb => ?_⟩
  · by_cases hw : key.1 = v
    · simp only [hw, update_self]
      exact hw ▸ (h.pages key e he).2
    · simp only [update_of_ne hw]
      exact (h.pages key e he).2
  · by_cases hw : w = v
    · subst hw
      simp only [update_self]
      rw [hsize]
      exact max_le (h.cap w) hcap
    · simp only [update_of_ne hw]
      exact h.cap w
  · -- a cached page lies below the old size and outside what is written
    by_cases hw : w = v
    · subst hw
      simp only [update_self] at hp ⊢
      have hout : pos < min (k.vnodes w).size offset ∨ offset + buf.length ≤ pos := by
        by_contra hn
        rw [not_or, not_lt, not_le] at hn
        rw [hun pos hn.1 hn.2] at he
        cases he
      rw [hbyte, if_neg (by omega)]
      exact h.clean w pos e he hd (by omega)
    · simp only [update_of_ne hw] at hp ⊢
      exact h.clean w pos e he hd hp
  · rw [lastStored_write] at hb
    split_ifs at hb with hin
    · obtain ⟨rfl, h1, h2⟩ := hin
      rw [hun pos (by omega) h2] at he
      cases he
    · exact h.cachedLast w pos e b he hb
  · rw [lastStored_write] at hb
    by_cases hw : w = v
    · subst hw
      simp only [update_self]
      rw [hbyte]
      split_ifs at hb with hin
      · rw [if_pos hin.2]
        exact ⟨by omega, some.inj hb⟩
      · obtain ⟨h1, h2⟩ := h.fileLast w pos b he hb
        rw [if_neg fun hc => hin ⟨rfl, hc⟩]
        exact ⟨by omega, h2⟩
    · rw [if_neg fun hc => hw hc.1] at hb
      simp only [update_of_ne hw]
      exact h.fileLast w pos b he hb
  · rw [lastMapped_write] at hb
    obtain ⟨h1, h2⟩ := h.mappedLast w pos b hb
    refine ⟨?_, h2⟩
    rw [lastStored_write, if_neg]
    · exact h1
    · rintro ⟨rfl, h3, h4⟩
      exact h2 (hun pos (by omega) h4)

/-- **A store** through a mapping of a dirty page -/
theorem dataOk_stored {pos : ℕ} {e : CacheEntry} (h : DataOk k) (he : k.cache.find (v, pageBase pos) = some e)
    (hdirty : e.dirty = true)
    (hkeys : ∀ key key' e e', k.cache.find key = some e → k.cache.find key' = some e' → e.frame = e'.frame → key = key')
    (b : UInt8) :
    DataOk { k with
      mem := update k.mem e.frame (update (k.mem e.frame) (pos % 4096) b)
      stores := ⟨v, pos, b, true⟩ :: k.stores } := by
  have hlast : ∀ w q, lastStored (⟨v, pos, b, true⟩ :: k.stores) w q =
      if v = w ∧ pos = q then some b else lastStored k.stores w q := by
    intro w q
    by_cases hc : v = w ∧ pos = q
    · simp [lastStored, hc]
    · rw [if_neg hc, lastStored, find?_cons_of_neg (by simpa using hc), lastStored]
  have hmapped : ∀ w q, lastMapped (⟨v, pos, b, true⟩ :: k.stores) w q =
      if v = w ∧ pos = q then some b else lastMapped k.stores w q := by
    intro w q
    by_cases hc : v = w ∧ pos = q
    · simp [lastMapped, hc]
    · rw [if_neg hc, lastMapped, find?_cons_of_neg (by simpa using hc), lastMapped]
  refine ⟨h.pages, h.cap, fun w q e' he' hd hp => ?_, fun w q e' c he' hc => ?_, fun w q c hn hc => ?_,
    fun w q c hc => ?_⟩
  · have hne : e'.frame ≠ e.frame := fun hf => by
      have hkey := hkeys _ _ e' e he' he hf
      rw [hkey, he] at he'
      cases he'
      rw [hdirty] at hd
      cases hd
    simp only [update_of_ne hne]
    exact h.clean w q e' he' hd hp
  · rw [hlast] at hc
    by_cases hf : e'.frame = e.frame
    · obtain ⟨rfl, hbase⟩ := Prod.mk.inj (hkeys _ _ e' e he' he hf)
      simp only [hf, update_self]
      by_cases hq : pos = q
      · rw [if_pos ⟨rfl, hq⟩] at hc
        rw [← hq, update_self]
        exact some.inj hc
      · -- another byte of the same page
        have hmod : q % 4096 ≠ pos % 4096 := by
          unfold pageBase at hbase
          omega
        rw [if_neg fun hx => hq hx.2] at hc
        rw [update_of_ne hmod, ← hf]
        exact h.cachedLast w q e' c he' hc
    · simp only [update_of_ne hf]
      rw [if_neg] at hc
      · exact h.cachedLast w q e' c he' hc
      · rintro ⟨rfl, rfl⟩
        cases he.symm.trans he'
        exact hf rfl
  · rw [hlast, if_neg] at hc
    · exact h.fileLast w q c hn hc
    · rintro ⟨rfl, rfl⟩
      cases he.symm.trans hn
  · rw [hmapped] at hc
    rw [hlast]
    split_ifs at hc ⊢ with hx
    · obtain ⟨rfl, rfl⟩ := hx
      exact ⟨hc, by rw [he]; exact some_ne_none _⟩
    · exact h.mappedLast w q c hc

end Rumicos.Proc
