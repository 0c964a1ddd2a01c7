/-
Bounded bucketed tables: a fixed number of buckets, each a fixed number of slots, every key stored in the bucket its
hash names. An insertion takes the first empty slot of that bucket and is silently lost when there is none. Nothing
here knows what the keys and values are.

- `Bucket`: the slots of one bucket, scanned from the left (`find`, `alter`, `insert`).
- `Table hash cap ν`: the buckets, with proofs that no bucket holds a key twice, that every key sits in its own bucket
  and that every bucket has `cap` slots. The table operations keep all three by construction.
- `Table.find_alter`, `Table.find_insert`: what every key reads after an operation.
- `Table.mem_entries`: the entries met by a scan of all buckets are those `find` finds.
- `Table.used_alter_some`, `Table.used_insert`: how many slots of a bucket are taken.
-/
import Mathlib.Tactic

namespace Rumicos.Lib

open Function List Option

/-! ## One bucket -/

/-- the slots of a bucket, each empty or holding a key and its value -/
abbrev Bucket (κ ν : Type) := List (Option (κ × ν))

namespace Bucket

variable {κ ν : Type} [DecidableEq κ]

/-- the value in the first slot that holds key `k` -/
def find : Bucket κ ν → κ → Option ν
  | [], _ => none
  | none :: b, k => find b k
  | some (k', v) :: b, k => if k' = k then some v else find b k

/-- change the first slot that holds key `k`; `none` empties it -/
def alter : Bucket κ ν → κ → (ν → Option ν) → Bucket κ ν
  | [], _, _ => []
  | none :: b, k, f => none :: alter b k f
  | some (k', v) :: b, k, f => if k' = k then (f v).map (k', ·) :: b else some (k', v) :: alter b k f

/-- put `(k, v)` into the first empty slot; a full bucket stays as it is -/
def insert : Bucket κ ν → κ → ν → Bucket κ ν
  | [], _, _ => []
  | none :: b, k, v => some (k, v) :: b
  | some e :: b, k, v => some e :: insert b k v

/-- is some slot empty? -/
def hasRoom (b : Bucket κ ν) : Bool := b.any Option.isNone

/-- the keys held, in slot order -/
def keys (b : Bucket κ ν) : List κ := b.filterMap (Option.map Prod.fst)

/-- how many slots are taken -/
def used (b : Bucket κ ν) : ℕ := b.countP Option.isSome

omit [DecidableEq κ] in
@[simp] theorem keys_nil : keys ([] : Bucket κ ν) = [] := rfl

omit [DecidableEq κ] in
@[simp] theorem keys_none (b : Bucket κ ν) : keys (none :: b) = keys b := rfl

omit [DecidableEq κ] in
@[simp] theorem keys_some (k : κ) (v : ν) (b : Bucket κ ν) : keys (some (k, v) :: b) = k :: keys b := rfl

section

variable (b : Bucket κ ν)

-- the equations of the three recursions are derived here, once for all the proofs below
attribute [local simp] find alter insert

theorem find_eq_none (k : κ) : find b k = none ↔ k ∉ keys b := by
  induction b with
  | nil => simp
  | cons s b ih =>
    rcases s with _ | ⟨k', v⟩
    · simpa using ih
    · by_cases h : k' = k
      · simp [h]
      · simp [h, ih, Ne.symm h]

theorem mem_of_find (k : κ) (v : ν) (h : find b k = some v) : some (k, v) ∈ b := by
  induction b with
  | nil => simp at h
  | cons s b ih =>
    rcases s with _ | ⟨k', v'⟩
    · exact mem_cons_of_mem _ (ih h)
    · simp only [find] at h
      split_ifs at h with hk
      · cases h; subst hk; exact mem_cons_self
      · exact mem_cons_of_mem _ (ih h)

omit [DecidableEq κ] in
theorem mem_keys_of_mem (k : κ) (v : ν) (h : some (k, v) ∈ b) : k ∈ keys b :=
  mem_filterMap.2 ⟨_, h, rfl⟩

theorem find_of_mem (hb : b.keys.Nodup) (k : κ) (v : ν) (h : some (k, v) ∈ b) :
    find b k = some v := by
  induction b with
  | nil => simp at h
  | cons s b ih =>
    rcases s with _ | ⟨k', v'⟩
    · exact ih hb (by simpa using h)
    · simp only [keys_some, nodup_cons] at hb
      rcases mem_cons.1 h with h | h
      · cases h; simp
      · have : k' ≠ k := fun hk => hb.1 (hk ▸ mem_keys_of_mem b k v h)
        simp only [find, this]
        exact ih hb.2 h

/-- an altered bucket keeps its keys, except possibly the altered one -/
theorem keys_alter_sublist (k : κ) (f : ν → Option ν) : (alter b k f).keys.Sublist b.keys := by
  induction b with
  | nil => exact List.Sublist.slnil
  | cons s b ih =>
    rcases s with _ | ⟨k', v⟩
    · exact ih
    · simp only [alter]
      split_ifs
      · cases f v with
        | none => exact sublist_cons_self _ _
        | some w => exact List.Sublist.refl _
      · exact ih.cons_cons _

theorem find_alter_self (hb : b.keys.Nodup) (k : κ) (f : ν → Option ν) :
    find (alter b k f) k = (find b k).bind f := by
  induction b with
  | nil => rfl
  | cons s b ih =>
    rcases s with _ | ⟨k', v⟩
    · exact ih hb
    · simp only [keys_some, nodup_cons] at hb
      by_cases hk : k' = k
      · subst hk
        cases hf : f v with
        | none => simpa [hf] using (find_eq_none b k').2 hb.1
        | some w => simp [hf]
      · simpa [hk] using ih hb.2

theorem find_alter_other (k k' : κ) (hne : k' ≠ k) (f : ν → Option ν) :
    find (alter b k f) k' = find b k' := by
  induction b with
  | nil => rfl
  | cons s b ih =>
    rcases s with _ | ⟨j, v⟩
    · exact ih
    · by_cases hj : j = k
      · subst hj
        cases hf : f v <;> simp [hf, Ne.symm hne]
      · simp [hj, ih]

omit [DecidableEq κ] in
theorem insert_full (h : b.hasRoom = false) (k : κ) (v : ν) : insert b k v = b := by
  induction b with
  | nil => rfl
  | cons s b ih =>
    rcases s with _ | e
    · simp [hasRoom] at h
    · simp only [insert, List.cons.injEq, true_and]
      exact ih (by simpa [hasRoom] using h)

theorem find_insert_self (h : b.hasRoom = true) (k : κ) (hk : k ∉ keys b) (v : ν) :
    find (insert b k v) k = some v := by
  induction b with
  | nil => simp [hasRoom] at h
  | cons s b ih =>
    rcases s with _ | ⟨k', v'⟩
    · simp
    · simp only [keys_some, mem_cons, not_or] at hk
      simp only [insert, find, Ne.symm hk.1]
      exact ih (by simpa [hasRoom] using h) hk.2

theorem find_insert_other (k k' : κ) (hne : k' ≠ k) (v : ν) :
    find (insert b k v) k' = find b k' := by
  induction b with
  | nil => rfl
  | cons s b ih =>
    rcases s with _ | ⟨j, w⟩
    · simp [Ne.symm hne]
    · simp [ih]

omit [DecidableEq κ] in
theorem keys_insert (k : κ) (v : ν) (j : κ) (hj : j ∈ keys (insert b k v)) : j = k ∨ j ∈ keys b := by
  induction b with
  | nil => simp at hj
  | cons s b ih =>
    rcases s with _ | ⟨k', w⟩
    · simpa using hj
    · simp only [insert, keys_some, mem_cons] at hj ⊢
      rcases hj with h | h
      · exact .inr (.inl h)
      · rcases ih h with h | h
        · exact .inl h
        · exact .inr (.inr h)

omit [DecidableEq κ] in
theorem nodup_insert (hb : b.keys.Nodup) (k : κ) (hk : k ∉ keys b) (v : ν) :
    (insert b k v).keys.Nodup := by
  induction b with
  | nil => simp
  | cons s b ih =>
    rcases s with _ | ⟨k', w⟩
    · simpa using ⟨hk, hb⟩
    · simp only [keys_some, nodup_cons, mem_cons, not_or] at hb hk
      simp only [insert, keys_some, nodup_cons]
      refine ⟨fun h => ?_, ih hb.2 hk.2⟩
      rcases keys_insert b k v k' h with h | h
      · exact hk.1 h.symm
      · exact hb.1 h

@[simp] theorem length_alter (k : κ) (f : ν → Option ν) : (alter b k f).length = b.length := by
  induction b with
  | nil => rfl
  | cons s b ih =>
    rcases s with _ | ⟨k', v⟩
    · simp [ih]
    · simp only [alter]
      split_ifs <;> simp [ih]

omit [DecidableEq κ] in
@[simp] theorem length_insert (k : κ) (v : ν) : (insert b k v).length = b.length := by
  induction b with
  | nil => rfl
  | cons s b ih => rcases s with _ | e <;> simp [ih]

omit [DecidableEq κ] in
/-- a bucket has room exactly when fewer slots are taken than it has -/
theorem hasRoom_iff : b.hasRoom = true ↔ b.used < b.length := by
  induction b with
  | nil => simp [hasRoom]
  | cons s b ih =>
    rcases s with _ | e
    · have : b.countP Option.isSome ≤ b.length := countP_le_length
      simp only [hasRoom, used, any_cons, isNone_none, Bool.true_or, true_iff, length_cons,
        countP_cons, isSome_none]
      simp only [Bool.false_eq_true, if_false]
      omega
    · simp only [used, length_cons,
        countP_cons, isSome_some, if_true, Nat.add_lt_add_iff_right] at ih ⊢
      exact ih

omit [DecidableEq κ] in
theorem countP_insert (h : b.hasRoom = true) (k : κ) (v : ν) (p : Option (κ × ν) → Bool) (hp : p none = false) :
    (insert b k v).countP p = b.countP p + (p (some (k, v))).toNat := by
  induction b with
  | nil => simp [hasRoom] at h
  | cons s b ih =>
    rcases s with _ | e
    · cases hv : p (some (k, v)) <;> simp [hp, hv]
    · have := ih (by simpa [hasRoom] using h)
      simp only [insert, countP_cons] at this ⊢
      omega

omit [DecidableEq κ] in
theorem used_insert (h : b.hasRoom = true) (k : κ) (v : ν) : (insert b k v).used = b.used + 1 :=
  countP_insert b h k v Option.isSome rfl

/-- altering a slot to a value keeps the number of taken slots -/
theorem used_alter_some (k : κ) (f : ν → ν) : (alter b k (fun v => some (f v))).used = b.used := by
  induction b with
  | nil => rfl
  | cons s b ih =>
    rcases s with _ | ⟨k', v⟩
    · simpa [used] using ih
    · simp only [used] at ih
      by_cases hk : k' = k <;> simp [used, hk, ih]

end

end Bucket

/-! ## The table -/

/-- `n` buckets of `cap` slots; every key is in the bucket of its hash, once -/
structure Table {κ : Type} {n : ℕ} (hash : κ → Fin n) (cap : ℕ) (ν : Type) where
  slots : Fin n → Bucket κ ν
  nodup : ∀ i, (slots i).keys.Nodup
  placed : ∀ i, ∀ k ∈ (slots i).keys, hash k = i
  len : ∀ i, (slots i).length = cap

namespace Table

variable {κ ν : Type} [DecidableEq κ] {n : ℕ} {hash : κ → Fin n} {cap : ℕ}

/-- all slots empty -/
def empty (hash : κ → Fin n) (cap : ℕ) (ν : Type) : Table hash cap ν where
  slots := fun _ => List.replicate cap none
  nodup := fun _ => by simp [Bucket.keys, List.filterMap_replicate_of_none]
  placed := fun _ => by simp [Bucket.keys, List.filterMap_replicate_of_none]
  len := fun _ => List.length_replicate

/-- the value stored under `k` -/
def find (t : Table hash cap ν) (k : κ) : Option ν := (t.slots (hash k)).find k

/-- change or remove the value stored under `k` -/
def alter (t : Table hash cap ν) (k : κ) (f : ν → Option ν) : Table hash cap ν where
  slots := update t.slots (hash k) ((t.slots (hash k)).alter k f)
  nodup := fun i => by
    rcases eq_or_ne i (hash k) with rfl | hi
    · rw [update_self]; exact (t.nodup _).sublist (Bucket.keys_alter_sublist _ _ _)
    · rw [update_of_ne hi]; exact t.nodup i
  placed := fun i => by
    rcases eq_or_ne i (hash k) with rfl | hi
    · rw [update_self]
      exact fun j hj => t.placed _ j ((Bucket.keys_alter_sublist _ _ _).subset hj)
    · rw [update_of_ne hi]; exact t.placed i
  len := fun i => by
    rcases eq_or_ne i (hash k) with rfl | hi
    · rw [update_self, Bucket.length_alter]; exact t.len _
    · rw [update_of_ne hi]; exact t.len i

/-- store `v` under the absent key `k`; lost when the bucket of `k` is full -/
def insert (t : Table hash cap ν) (k : κ) (v : ν) (hk : t.find k = none) : Table hash cap ν where
  slots := update t.slots (hash k) ((t.slots (hash k)).insert k v)
  nodup := fun i => by
    rcases eq_or_ne i (hash k) with rfl | hi
    · rw [update_self]
      exact Bucket.nodup_insert _ (t.nodup _) _ ((Bucket.find_eq_none _ _).1 hk) _
    · rw [update_of_ne hi]; exact t.nodup i
  placed := fun i => by
    rcases eq_or_ne i (hash k) with rfl | hi
    · rw [update_self]
      intro j hj
      rcases Bucket.keys_insert _ _ _ _ hj with rfl | hj
      · rfl
      · exact t.placed _ j hj
    · rw [update_of_ne hi]; exact t.placed i
  len := fun i => by
    rcases eq_or_ne i (hash k) with rfl | hi
    · rw [update_self, Bucket.length_insert]; exact t.len _
    · rw [update_of_ne hi]; exact t.len i

/-- has the bucket of `k` an empty slot? -/
def hasRoom (t : Table hash cap ν) (k : κ) : Bool := (t.slots (hash k)).hasRoom

/-- how many slots of bucket `i` are taken -/
def used (t : Table hash cap ν) (i : Fin n) : ℕ := (t.slots i).used

/-- every entry, bucket by bucket -/
def entries (t : Table hash cap ν) : List (κ × ν) := (List.finRange n).flatMap fun i => (t.slots i).filterMap id

@[simp] theorem find_empty (k : κ) : (empty hash cap ν).find k = none := by
  rw [find, Bucket.find_eq_none]
  simp [empty, Bucket.keys]

theorem slots_alter (t : Table hash cap ν) (k : κ) (f : ν → Option ν) :
    (t.alter k f).slots = update t.slots (hash k) ((t.slots (hash k)).alter k f) := rfl

theorem slots_insert (t : Table hash cap ν) (k : κ) (v : ν) (hk : t.find k = none) :
    (t.insert k v hk).slots = update t.slots (hash k) ((t.slots (hash k)).insert k v) := rfl

theorem find_alter (t : Table hash cap ν) (k j : κ) (f : ν → Option ν) :
    (t.alter k f).find j = if j = k then (t.find k).bind f else t.find j := by
  by_cases hj : j = k
  · subst hj
    simp only [find, slots_alter, update_self]
    exact Bucket.find_alter_self _ (t.nodup _) _ _
  · rw [if_neg hj]
    by_cases hh : hash j = hash k
    · rw [find, find, slots_alter, hh, update_self]; exact Bucket.find_alter_other _ _ _ hj _
    · rw [find, find, slots_alter, update_of_ne hh]

theorem find_insert (t : Table hash cap ν) (k j : κ) (v : ν) (hk : t.find k = none) (hr : t.hasRoom k = true) :
    (t.insert k v hk).find j = if j = k then some v else t.find j := by
  by_cases hj : j = k
  · subst hj
    simp only [find, slots_insert, update_self]
    exact Bucket.find_insert_self _ hr _ ((Bucket.find_eq_none _ _).1 hk) _
  · rw [if_neg hj]
    by_cases hh : hash j = hash k
    · rw [find, find, slots_insert, hh, update_self]; exact Bucket.find_insert_other _ _ _ hj _
    · rw [find, find, slots_insert, update_of_ne hh]

/-- an insertion into a full bucket changes nothing -/
theorem slots_insert_full (t : Table hash cap ν) (k : κ) (v : ν) (hk : t.find k = none) (hr : t.hasRoom k = false) :
    (t.insert k v hk).slots = t.slots := by
  rw [slots_insert, Bucket.insert_full _ hr, update_eq_self]

theorem mem_entries (t : Table hash cap ν) (k : κ) (v : ν) : (k, v) ∈ t.entries ↔ t.find k = some v := by
  simp only [entries, mem_flatMap, mem_finRange, true_and, mem_filterMap]
  constructor
  · rintro ⟨i, s, hs, rfl⟩
    have hi := t.placed i k (Bucket.mem_keys_of_mem _ _ _ hs)
    subst hi
    exact Bucket.find_of_mem _ (t.nodup _) _ _ hs
  · intro h
    exact ⟨hash k, _, Bucket.mem_of_find _ _ _ h, rfl⟩

omit [DecidableEq κ] in
theorem hasRoom_iff (t : Table hash cap ν) (k : κ) : t.hasRoom k = true ↔ t.used (hash k) < cap := by
  rw [hasRoom, Bucket.hasRoom_iff, t.len]; rfl

theorem used_alter_some (t : Table hash cap ν) (k : κ) (f : ν → ν) (i : Fin n) :
    (t.alter k fun v => some (f v)).used i = t.used i := by
  rcases eq_or_ne i (hash k) with rfl | hi
  · rw [used, slots_alter, update_self]; exact Bucket.used_alter_some _ _ _
  · rw [used, slots_alter, update_of_ne hi, used]

theorem used_insert (t : Table hash cap ν) (k : κ) (v : ν) (hk : t.find k = none) (hr : t.hasRoom k = true)
    (i : Fin n) : (t.insert k v hk).used i = t.used i + if i = hash k then 1 else 0 := by
  rcases eq_or_ne i (hash k) with rfl | hi
  · rw [used, slots_insert, update_self, if_pos rfl]; exact Bucket.used_insert _ hr _ _
  · rw [used, slots_insert, update_of_ne hi, if_neg hi, used, Nat.add_zero]

end Table

end Rumicos.Lib
