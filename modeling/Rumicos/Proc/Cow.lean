/-
The copy-on-write share counts (`crates/proc/src/cow.rs`).

`COW_TABLE` has 256 buckets of 32 slots. An entry says how many claims there are on a frame; no entry stands for one
claim. The table cannot report failure: `cow_share` on an untracked frame whose bucket is full does nothing.

- `Counts t f n`: the table holds n claims on f (n = 0 and n = 1 are both "no entry").
- `Fits t fs`: every bucket has room for the frames of fs that are not tracked yet. `fits_head`, `fits_tail`: a run of
  `cow_share` calls over such a list never meets a full bucket.

`cow_resolve` runs its action under the bucket lock; the action's effect belongs to the caller, so the function here
returns the new table and the flag the action receives.
-/
import Rumicos.Lib.Buckets
import Rumicos.Paging.Entry

namespace Rumicos.Proc

open Paging Lib List Option

def cowBucketCapacity : ℕ := 32

/-- `u32::MAX`, where `saturating_add` stops -/
def u32Max : ℕ := 2 ^ 32 - 1

/-- `cow::bucket_index`: the top 8 bits of the 64-bit product -/
def bucketIndex (frame : Pfn) : Fin 256 :=
  (((frame.setWidth 64 * 0x9e3779b97f4a7c15#64) >>> 56).setWidth 8).toFin

/-- `COW_TABLE`: frame to refcount -/
abbrev CowTable := Table bucketIndex cowBucketCapacity ℕ

/-- `COW_TABLE` at boot -/
def CowTable.new : CowTable := Table.empty bucketIndex cowBucketCapacity ℕ

def cowShare (t : CowTable) (frame : Pfn) : CowTable :=
  match h : t.find frame with
  | some _ => t.alter frame fun refcount => some (min (refcount + 1) u32Max)
  | none => t.insert frame 2 h

def cowRefcount (t : CowTable) (frame : Pfn) : ℕ := (t.find frame).getD 1

def cowUnshare (t : CowTable) (frame : Pfn) : CowTable :=
  t.alter frame fun refcount => if 2 < refcount then some (refcount - 1) else none

/-- `cow_resolve`: the new table, and the `sole` flag its action runs with -/
def cowResolve (t : CowTable) (frame : Pfn) : CowTable × Bool := (cowUnshare t frame, (t.find frame).isNone)

/-- the frame is tracked already or its bucket has a free slot -/
def CowTable.roomFor (t : CowTable) (frame : Pfn) : Bool := (t.find frame).isSome || t.hasRoom frame

/-! ## What every frame reads after a call -/

theorem find_cowShare (t : CowTable) (f g : Pfn) (hr : t.roomFor f = true) :
    (cowShare t f).find g =
      if g = f then some (((t.find f).map fun c => min (c + 1) u32Max).getD 2) else t.find g := by
  unfold cowShare
  split
  · rename_i c hc
    rw [Table.find_alter, hc]; rfl
  · rename_i hc
    have hroom : t.hasRoom f = true := by simpa [CowTable.roomFor, hc] using hr
    rw [Table.find_insert _ _ _ _ _ hroom, hc]; rfl

theorem find_cowUnshare (t : CowTable) (f g : Pfn) :
    (cowUnshare t f).find g =
      if g = f then (t.find f).bind (fun c => if 2 < c then some (c - 1) else none) else t.find g :=
  Table.find_alter _ _ _ _

/-! ## Claims -/

/-- the table holds `n` claims on `f`; zero and one claim need no entry -/
def Counts (t : CowTable) (f : Pfn) (n : ℕ) : Prop := t.find f = if n ≤ 1 then none else some n

variable {t : CowTable} {f : Pfn}

theorem counts_resolve {n : ℕ} (h : Counts t f n) : Counts (cowResolve t f).1 f (n - 1) := by
  rw [Counts, cowResolve, find_cowUnshare, h]
  by_cases h1 : n ≤ 1
  · simp [h1]
  · by_cases h2 : 2 < n
    · have : ¬ n - 1 ≤ 1 := by omega
      simp [h1, h2]
    · have : n - 1 ≤ 1 := by omega
      simp [h1, h2]

theorem counts_resolve_other {g : Pfn} {n : ℕ} (h : Counts t g n) (hg : g ≠ f) : Counts (cowResolve t f).1 g n := by
  rw [Counts, cowResolve, find_cowUnshare, if_neg hg]; exact h

/-! ## Room for a list of frames -/

/-- the frames of `fs` in bucket `i` that have no entry yet, each once -/
def untracked (t : CowTable) (fs : List Pfn) (i : Fin 256) : List Pfn :=
  (fs.filter fun f => decide (bucketIndex f = i) && (t.find f).isNone).dedup

/-- every bucket can hold its entries and those the frames of `fs` still need -/
def Fits (t : CowTable) (fs : List Pfn) : Prop :=
  ∀ i, t.used i + (untracked t fs i).length ≤ cowBucketCapacity

instance (t : CowTable) (fs : List Pfn) : Decidable (Fits t fs) := by unfold Fits; infer_instance

theorem fits_head {fs : List Pfn} (h : Fits t (f :: fs)) : t.roomFor f = true := by
  rcases hf : t.find f with _ | c
  · have hmem : f ∈ untracked t (f :: fs) (bucketIndex f) := by
      simp [untracked, hf]
    have hpos := length_pos_of_mem hmem
    have hroom : t.hasRoom f = true := by
      rw [Table.hasRoom_iff]
      have := h (bucketIndex f)
      omega
    simp [CowTable.roomFor, hroom]
  · simp [CowTable.roomFor, hf]

/-- the bucket use after a `cow_share` that finds room -/
theorem used_cowShare (t : CowTable) (f : Pfn) (hr : t.roomFor f = true) (i : Fin 256) :
    (cowShare t f).used i = t.used i + if i = bucketIndex f ∧ t.find f = none then 1 else 0 := by
  unfold cowShare
  split
  · rename_i c hc
    simp [Table.used_alter_some, hc]
  · rename_i hc
    have hroom : t.hasRoom f = true := by simpa [CowTable.roomFor, hc] using hr
    simp [Table.used_insert _ _ _ _ hroom, hc]

theorem fits_tail {fs : List Pfn} (h : Fits t (f :: fs)) : Fits (cowShare t f) fs := by
  intro i
  have hr := fits_head h
  have hi := h i
  rw [used_cowShare _ _ hr]
  by_cases hnew : i = bucketIndex f ∧ t.find f = none
  · -- the new entry is f's: f leaves the list of untracked frames of this bucket
    obtain ⟨rfl, hf⟩ := hnew
    have hsub : (f :: untracked (cowShare t f) fs (bucketIndex f)).Subperm (untracked t (f :: fs) (bucketIndex f)) := by
      refine subperm_of_subset (nodup_cons.2 ⟨?_, nodup_dedup _⟩) ?_
      · simp [untracked, find_cowShare _ _ _ hr]
      · intro g hg
        rcases mem_cons.1 hg with rfl | hg
        · simp [untracked, hf]
        · simp only [untracked, mem_dedup, mem_filter, find_cowShare _ _ _ hr, Bool.and_eq_true, mem_cons] at hg ⊢
          refine ⟨.inr hg.1, hg.2.1, ?_⟩
          by_cases hgf : g = f
          · simp [hgf] at hg
          · simpa [hgf] using hg.2.2
    have := hsub.length_le
    simp only [length_cons, hf, and_self, if_true] at this ⊢
    omega
  · have hsub : (untracked (cowShare t f) fs i).Subperm (untracked t (f :: fs) i) := by
      refine subperm_of_subset (nodup_dedup _) ?_
      intro g hg
      simp only [untracked, mem_dedup, mem_filter, find_cowShare _ _ _ hr, Bool.and_eq_true, mem_cons] at hg ⊢
      refine ⟨.inr hg.1, hg.2.1, ?_⟩
      by_cases hgf : g = f
      · simp [hgf] at hg
      · simpa [hgf] using hg.2.2
    have := hsub.length_le
    rw [if_neg hnew]
    omega

end Rumicos.Proc
