/-
Split virtqueues (`Virtqueue` of `crates/virtio/src/queue.rs`) and the device at the other end.

Four sixteen-bit cursors run freely over two rings. The driver stores a descriptor into the available ring and then
exposes its index; the device takes what is exposed, keeps it as long as it likes, and returns what it has in any order;
`pop_used` takes the next completion. The driver is one thread, the device does its steps whenever it likes.

- `Posts`: the driver posts only while fewer descriptors are outstanding than the queue has entries.

History variables: `posted`, `fetched`, `completed`, `popped`, and how many completions were waiting when `pop_used`
found none.
-/
import Rumicos.Lib.Run
import Rumicos.Lib.Cursor

namespace Rumicos.Virtio

open Lib Function List

structure Virtqueue where
  avail : ℕ → ℕ
  used : ℕ → ℕ × ℕ
  availIdx : ℕ
  /-- the index in the available ring, as the device sees it -/
  shared : ℕ
  /-- the device's cursor in the available ring -/
  deviceIdx : ℕ
  usedIdx : ℕ
  lastUsedIdx : ℕ
  /-- the device has taken these and not returned them -/
  held : List ℕ
  posted : List ℕ
  fetched : List ℕ
  completed : List (ℕ × ℕ)
  popped : List (ℕ × ℕ)
  missed : List ℕ

/-- `Virtqueue::new`: zeroed rings -/
def Virtqueue.new : Virtqueue := ⟨fun _ => 0, fun _ => (0, 0), 0, 0, 0, 0, 0, [], [], [], [], [], []⟩

def ringSlot (idx queueSize : ℕ) : ℕ := idx % queueSize

inductive Act where
  /-- `push_avail`: the ring entry and the driver's index, then the index in the ring -/
  | store (desc : ℕ)
  | expose
  | popUsed
  /-- the device takes the next available entry, and returns the `i`-th of those it has -/
  | fetch
  | complete (i len : ℕ)

def step (size : ℕ) (q : Virtqueue) : Act → Option Virtqueue
  | .store desc =>
    if q.shared = q.availIdx then
      some { q with avail := update q.avail (ringSlot q.availIdx size) desc, availIdx := wrappingAdd 16 q.availIdx 1,
                    posted := q.posted ++ [desc] }
    else none
  | .expose => some { q with shared := q.availIdx }
  | .popUsed =>
    if q.usedIdx = q.lastUsedIdx then some { q with missed := (q.completed.length - q.popped.length) :: q.missed }
    else some { q with lastUsedIdx := wrappingAdd 16 q.lastUsedIdx 1,
                       popped := q.popped ++ [q.used (ringSlot q.lastUsedIdx size)] }
  | .fetch =>
    if q.deviceIdx = q.shared then none
    else
      let desc := q.avail (ringSlot q.deviceIdx size)
      some { q with deviceIdx := wrappingAdd 16 q.deviceIdx 1, held := desc :: q.held, fetched := q.fetched ++ [desc] }
  | .complete i len => do
    let desc ← q.held[i]?
    some { q with used := update q.used (ringSlot q.usedIdx size) (desc, len), usedIdx := wrappingAdd 16 q.usedIdx 1,
                  held := q.held.eraseIdx i, completed := q.completed ++ [(desc, len)] }

/-- fewer than `size` descriptors are outstanding when one is posted -/
def Posts (size : ℕ) (q : Virtqueue) : Act → Prop
  | .store _ => q.posted.length < q.popped.length + size
  | _ => True

structure Inv (N : ℕ) (q : Virtqueue) : Prop where
  availIdx : q.availIdx = q.posted.length % 2 ^ 16
  deviceIdx : q.deviceIdx = q.fetched.length % 2 ^ 16
  usedIdx : q.usedIdx = q.completed.length % 2 ^ 16
  lastUsedIdx : q.lastUsedIdx = q.popped.length % 2 ^ 16
  shared : ∃ e, q.shared = e % 2 ^ 16 ∧ q.fetched.length ≤ e ∧ e ≤ q.posted.length ∧ q.posted.length ≤ e + 1
  held : q.completed.length + q.held.length = q.fetched.length
  room : q.posted.length ≤ q.popped.length + N
  fetched : q.fetched <+: q.posted
  popped : q.popped <+: q.completed
  avail : ∀ p, q.fetched.length ≤ p → p < q.posted.length → q.posted[p]? = some (q.avail (p % N))
  used : ∀ p, q.popped.length ≤ p → p < q.completed.length → q.completed[p]? = some (q.used (p % N))
  missed : ∀ n ∈ q.missed, n = 0

variable {k : ℕ} {q q' : Virtqueue}

theorem inv_new (N : ℕ) : Inv N .new := by
  constructor <;> simp [Virtqueue.new]

theorem ringSlot_eq (hk : k ≤ 8) (n : ℕ) : ringSlot (n % 2 ^ 16) (2 ^ k) = n % 2 ^ k :=
  Nat.mod_mod_of_dvd _ (Nat.pow_dvd_pow 2 (by omega))

theorem inv_step (hk : k ≤ 8) {a : Act} (h : Inv (2 ^ k) q) (hC : Posts (2 ^ k) q a)
    (hstep : step (2 ^ k) q a = some q') : Inv (2 ^ k) q' := by
  have hsize : 2 ^ k ≤ 2 ^ 8 := Nat.pow_le_pow_right (by decide) hk
  have hfetched := h.fetched.length_le
  have hpopped := h.popped.length_le
  have hheld := h.held
  have hroom := h.room
  cases a with
  | store desc =>
    rw [step, h.availIdx, ringSlot_eq hk, wrappingAdd_mod] at hstep
    split_ifs at hstep with hshared
    cases hstep
    have hspace : q.posted.length < q.popped.length + 2 ^ k := hC
    -- no entry that the device has not taken is in the slot
    have hfree : ∀ p, q.fetched.length ≤ p → p < q.posted.length → p % 2 ^ k ≠ q.posted.length % 2 ^ k :=
      fun p hp hp' => slot_ne hp' (by omega)
    obtain ⟨e, he, hle, hle', hlt⟩ := h.shared
    obtain rfl := cursor_inj hle' (by omega) (he.symm.trans hshared)
    exact { h with
      availIdx := by simp
      shared := ⟨_, he, hle, by simp, by simp⟩
      room := by simpa using hspace
      fetched := h.fetched.trans (prefix_append ..)
      avail := by grind [h.avail] }
  | expose =>
    cases hstep
    exact { h with shared := ⟨_, h.availIdx, hfetched, le_rfl, Nat.le_succ _⟩ }
  | popUsed =>
    rw [step, h.usedIdx, h.lastUsedIdx, ringSlot_eq hk, wrappingAdd_mod] at hstep
    split_ifs at hstep with hnone <;> cases hstep
    · exact { h with usedIdx := rfl, lastUsedIdx := rfl, missed := forall_mem_cons.2 ⟨by omega, h.missed⟩ }
    · have hlt : q.popped.length < q.completed.length := lt_of_le_of_ne hpopped fun he => hnone (by rw [he])
      exact { h with
        usedIdx := rfl
        lastUsedIdx := by simp
        room := by grind
        popped := prefix_snoc h.popped (h.used _ le_rfl hlt)
        used := by grind [h.used] }
  | fetch =>
    rw [step, h.deviceIdx, ringSlot_eq hk, wrappingAdd_mod] at hstep
    split_ifs at hstep with hnone
    cases hstep
    obtain ⟨e, he, hle, hle', hlt⟩ := h.shared
    have hmore : q.fetched.length < e := lt_of_le_of_ne hle fun heq => hnone (by rw [he, heq])
    exact { h with
      deviceIdx := by simp
      shared := ⟨e, he, by simpa using hmore, hle', hlt⟩
      held := by grind
      fetched := prefix_snoc h.fetched (h.avail _ le_rfl (by omega))
      avail := by grind [h.avail] }
  | complete i len =>
    obtain ⟨desc, hi, hstep⟩ := Option.bind_eq_some_iff.1 hstep
    rw [h.usedIdx, ringSlot_eq hk, wrappingAdd_mod] at hstep
    cases hstep
    obtain ⟨hlt, -⟩ := List.getElem?_eq_some_iff.1 hi
    have hfree : ∀ p, q.popped.length ≤ p → p < q.completed.length → p % 2 ^ k ≠ q.completed.length % 2 ^ k :=
      fun p hp hp' => slot_ne hp' (by omega)
    exact { h with
      usedIdx := by simp
      held := by grind
      popped := h.popped.trans (prefix_append ..)
      used := by grind [h.used] }

/-- **Both rings are queues.** As long as the driver posts only while fewer descriptors are outstanding than the queue
has entries: the device gets what was posted, in order; an entry it has not taken is still in its slot; and `pop_used`
yields the completions in the device's order, each of them once, and finds none only if there is none. -/
theorem virtqueue_run {as : List Act} (hk : k ≤ 8) (hrun : as.foldlM (step (2 ^ k)) .new = some q)
    (hC : Meets (step (2 ^ k)) (Posts (2 ^ k)) .new as) :
    q.popped <+: q.completed ∧ (∀ n ∈ q.missed, n = 0) ∧ q.fetched <+: q.posted ∧
      ∀ p, q.fetched.length ≤ p → p < q.posted.length → q.posted[p]? = some (q.avail (p % 2 ^ k)) := by
  have h : Inv (2 ^ k) q := run_inv (Inv (2 ^ k)) (fun _ _ _ h hC => inv_step hk h hC) (inv_new _) hC hrun
  exact ⟨h.popped, h.missed, h.fetched, h.avail⟩

instance (size : ℕ) (q : Virtqueue) : (a : Act) → Decidable (Posts size q a)
  | .store _ => inferInstanceAs (Decidable (_ < _))
  | .expose | .popUsed | .fetch | .complete .. => inferInstanceAs (Decidable True)

/-- three descriptors on a queue of four, given back in another order -/
def outOfOrder : List Act :=
  [.store 3, .popUsed, .expose, .store 5, .expose, .fetch, .store 6, .expose, .fetch, .fetch, .complete 1 64,
    .complete 1 32,
    .popUsed, .complete 0 16, .popUsed, .popUsed]

theorem virtqueue_run_three : ∃ q, outOfOrder.foldlM (step (2 ^ 2)) .new = some q ∧
    q.popped = [(5, 64), (3, 32), (6, 16)] ∧ q.popped <+: q.completed :=
  exists_and_of_check (by decide +kernel) fun q hrun _ => (virtqueue_run (by decide) hrun (by decide +kernel)).1

end Rumicos.Virtio
