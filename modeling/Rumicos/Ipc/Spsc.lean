/-
The single-producer single-consumer ring under any interleaving (`crates/ipc/src/spsc.rs`).

`push` loads its own tail and then the head, writes the slot and publishes the new tail; `pop` loads its own head and
then the tail, reads the slot and publishes the new head. Each load, slot access and store is a step, and the two sides
interleave freely. The cursors wrap at 2^64.

History variables: `pushed` and `popped`, and for each failed call how many values were unread when it looked.
-/
import Rumicos.Lib.Run
import Rumicos.Lib.Cursor

namespace Rumicos.Ipc.Spsc

open Lib Function List

variable {α : Type}

/-- a `push` by what it does next -/
inductive Producer (α : Type) where
  | idle
  | loadHead (tail : ℕ) (value : α)
  | write (tail : ℕ) (value : α)
  | publish (tail : ℕ) (value : α)

/-- a `pop` by what it does next -/
inductive Consumer (α : Type) where
  | idle
  | loadTail (head : ℕ)
  | read (head : ℕ)
  | advance (head : ℕ) (value : α)

structure State (α : Type) where
  head : ℕ
  tail : ℕ
  slots : ℕ → α
  producer : Producer α
  consumer : Consumer α
  pushed : List α
  popped : List α
  refused : List ℕ
  missed : List ℕ

/-- `SpscRing::new`; the slots are uninitialised -/
def State.new (slots : ℕ → α) : State α := ⟨0, 0, slots, .idle, .idle, [], [], [], []⟩

def State.unread (s : State α) : ℕ := s.pushed.length - s.popped.length

inductive Act (α : Type) where
  | push (value : α)
  | producer
  | pop
  | consumer

def step (N : ℕ) (s : State α) : Act α → Option (State α)
  | .push value =>
    match s.producer with
    | .idle => some { s with producer := .loadHead s.tail value }
    | _ => none
  | .producer =>
    match s.producer with
    | .idle => none
    | .loadHead tail value =>
      if wrappingSub 64 tail s.head = N then some { s with producer := .idle, refused := s.unread :: s.refused }
      else some { s with producer := .write tail value }
    | .write tail value =>
      some { s with slots := update s.slots (tail &&& (N - 1)) value, producer := .publish tail value }
    | .publish tail value =>
      some { s with tail := wrappingAdd 64 tail 1, producer := .idle, pushed := s.pushed ++ [value] }
  | .pop =>
    match s.consumer with
    | .idle => some { s with consumer := .loadTail s.head }
    | _ => none
  | .consumer =>
    match s.consumer with
    | .idle => none
    | .loadTail head =>
      if head = s.tail then some { s with consumer := .idle, missed := s.unread :: s.missed }
      else some { s with consumer := .read head }
    | .read head => some { s with consumer := .advance head (s.slots (head &&& (N - 1))) }
    | .advance head value =>
      some { s with head := wrappingAdd 64 head 1, consumer := .idle, popped := s.popped ++ [value] }

/-- the producer is about to write the slot that the consumer is about to read -/
def State.Racing (N : ℕ) (s : State α) : Prop :=
  ∃ tail value head, s.producer = .write tail value ∧ s.consumer = .read head ∧ tail &&& (N - 1) = head &&& (N - 1)

structure Inv (N : ℕ) (s : State α) : Prop where
  head : s.head = s.popped.length % 2 ^ 64
  tail : s.tail = s.pushed.length % 2 ^ 64
  popped : s.popped <+: s.pushed
  room : s.pushed.length ≤ s.popped.length + N
  unread : ∀ p, s.popped.length ≤ p → p < s.pushed.length → s.pushed[p]? = some (s.slots (p % N))
  loadHead : ∀ t v, s.producer = .loadHead t v → t = s.tail
  write : ∀ t v, s.producer = .write t v → t = s.tail ∧ s.pushed.length < s.popped.length + N
  publish : ∀ t v, s.producer = .publish t v → t = s.tail ∧ s.pushed.length < s.popped.length + N ∧
    s.slots (s.pushed.length % N) = v
  loadTail : ∀ h, s.consumer = .loadTail h → h = s.head
  read : ∀ h, s.consumer = .read h → h = s.head ∧ s.popped.length < s.pushed.length
  advance : ∀ h v, s.consumer = .advance h v → h = s.head ∧ s.popped.length < s.pushed.length ∧
    s.slots (s.popped.length % N) = v
  refused : ∀ n ∈ s.refused, n = N
  missed : ∀ n ∈ s.missed, n = 0

variable {k : ℕ} {s s' : State α}

theorem inv_new (N : ℕ) (slots : ℕ → α) : Inv N (State.new slots) := by
  constructor <;> simp [State.new]

section

variable (hk : k < 64) (h : Inv (2 ^ k) s)
include hk h

theorem Inv.loadHead_sees : wrappingSub 64 s.tail s.head = s.unread := by
  have hlt : 2 ^ k < 2 ^ 64 := Nat.pow_lt_pow_right (by decide) hk
  have hroom := h.room
  rw [h.head, h.tail, wrappingSub_mod h.popped.length_le (by omega)]
  rfl

theorem Inv.loadTail_sees : s.head = s.tail ↔ s.popped.length = s.pushed.length := by
  have hlt : 2 ^ k < 2 ^ 64 := Nat.pow_lt_pow_right (by decide) hk
  have hroom := h.room
  rw [h.head, h.tail]
  exact ⟨cursor_inj h.popped.length_le (by omega), congrArg (· % 2 ^ 64)⟩

theorem inv_producer (hstep : step (2 ^ k) s .producer = some s') : Inv (2 ^ k) s' := by
  simp only [step] at hstep
  split at hstep
  · cases hstep
  · next t v hp =>
    obtain rfl := h.loadHead t v hp
    have hroom := h.room
    rw [h.loadHead_sees hk] at hstep
    split_ifs at hstep with hfull <;> cases hstep
    · exact { h with loadHead := nofun, write := nofun, publish := nofun, refused := forall_mem_cons.2 ⟨hfull, h.refused⟩ }
    · exact { h with loadHead := nofun, write := by grind [State.unread], publish := nofun }
  · next t v hp =>
    obtain ⟨rfl, hspace⟩ := h.write t v hp
    -- no slot is written that holds an unread value
    have hfree : ∀ p, s.popped.length ≤ p → p < s.pushed.length → p % 2 ^ k ≠ s.pushed.length % 2 ^ k :=
      fun p hp hp' => slot_ne hp' (by omega)
    have hslot : s.tail &&& (2 ^ k - 1) = s.pushed.length % 2 ^ k := h.tail ▸ slot_eq hk.le _
    cases hstep
    exact { h with
      unread := by grind [h.unread]
      loadHead := nofun
      write := nofun
      publish := by grind
      advance := by grind [h.advance] }
  · next t v hp =>
    obtain ⟨rfl, hspace, hslot⟩ := h.publish t v hp
    cases hstep
    exact { h with
      tail := by rw [h.tail, wrappingAdd_mod, length_append, length_singleton]
      popped := h.popped.trans (prefix_append ..)
      room := by simpa using hspace
      unread := by grind [h.unread]
      loadHead := nofun
      write := nofun
      publish := nofun
      read := by grind [h.read]
      advance := by grind [h.advance] }

theorem inv_consumer (hstep : step (2 ^ k) s .consumer = some s') : Inv (2 ^ k) s' := by
  simp only [step] at hstep
  split at hstep
  · cases hstep
  · next hd hp =>
    obtain rfl := h.loadTail hd hp
    have hsees := h.loadTail_sees hk
    have hle := h.popped.length_le
    split_ifs at hstep with heq <;> cases hstep
    · exact { h with loadTail := nofun, read := nofun, advance := nofun,
                     missed := forall_mem_cons.2 ⟨by grind [State.unread], h.missed⟩ }
    · exact { h with loadTail := nofun, read := by grind, advance := nofun }
  · next hd hp =>
    obtain ⟨rfl, hpos⟩ := h.read hd hp
    have hslot : s.head &&& (2 ^ k - 1) = s.popped.length % 2 ^ k := h.head ▸ slot_eq hk.le _
    cases hstep
    exact { h with loadTail := nofun, read := nofun, advance := by grind }
  · next hd v hp =>
    obtain ⟨rfl, hpos, hslot⟩ := h.advance hd v hp
    cases hstep
    exact { h with
      head := by rw [h.head, wrappingAdd_mod, length_append, length_singleton]
      popped := prefix_snoc h.popped (hslot ▸ h.unread _ le_rfl hpos)
      room := by grind [h.room]
      unread := by grind [h.unread]
      write := by grind [h.write]
      publish := by grind [h.publish]
      loadTail := nofun
      read := nofun
      advance := nofun }

theorem inv_step {a : Act α} (hstep : step (2 ^ k) s a = some s') : Inv (2 ^ k) s' := by
  cases a with
  | producer => exact inv_producer hk h hstep
  | consumer => exact inv_consumer hk h hstep
  | push v =>
    simp only [step] at hstep
    split at hstep <;> cases hstep
    exact { h with loadHead := by grind, write := nofun, publish := nofun }
  | pop =>
    simp only [step] at hstep
    split at hstep <;> cases hstep
    exact { h with loadTail := by grind, read := nofun, advance := nofun }

end

/-- **The ring is a queue.** What was popped is a prefix of what was pushed, a push fails only when the ring is full and
a pop only when it is empty, and no slot is read while it is written. -/
theorem spsc_run {slots : ℕ → α} {as : List (Act α)} (hk : k < 64)
    (hrun : as.foldlM (step (2 ^ k)) (State.new slots) = some s) :
    s.popped <+: s.pushed ∧ (∀ n ∈ s.refused, n = 2 ^ k) ∧ (∀ n ∈ s.missed, n = 0) ∧ ¬ s.Racing (2 ^ k) := by
  have h : Inv (2 ^ k) s := foldlM_inv (fun _ s => Inv (2 ^ k) s) (fun _ _ _ _ h => inv_step hk h) (inv_new _ slots) hrun
  refine ⟨h.popped, h.refused, h.missed, ?_⟩
  rintro ⟨t, v, hd, hw, hr, heq⟩
  obtain ⟨rfl, hspace⟩ := h.write t v hw
  obtain ⟨rfl, hpos⟩ := h.read hd hr
  rw [h.head, h.tail, slot_eq hk.le, slot_eq hk.le] at heq
  exact slot_ne hpos hspace heq.symm

/-- the second push finds the ring of one slot full -/
theorem spsc_run_two : ∃ s, [Act.push 7, .producer, .producer, .producer, .pop, .push 8, .consumer, .producer,
    .consumer, .consumer].foldlM
    (step (2 ^ 0)) (State.new fun _ => 0) = some s ∧ (s.popped = [7] ∧ s.refused = [1]) ∧ s.popped <+: s.pushed :=
  exists_and_of_check (by decide +kernel) fun s hrun _ => (spsc_run (by decide) hrun).1

end Rumicos.Ipc.Spsc
