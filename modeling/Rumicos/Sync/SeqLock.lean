/-
The sequence lock under any interleaving (`crates/sync/src/seqlock.rs`).

`write` takes the spin lock, makes the sequence number odd, changes the words of the value one at a time and makes the
number even again; writers that wait for the lock change nothing. `read` loads the number until it is even, copies the
words one at a time, and starts again unless a second load finds the same number. Each of these is a step, and any
number of readers and writers interleave freely. The sequence number wraps at 2^64.

History variables: `results`, the values that the finished writes have left, and `returned`, what each finished read
returned, with the number of writes that had finished when it was called.
-/
import Rumicos.Lib.Run

namespace Rumicos.Sync.SeqLock

open Lib Function List Option

variable {w : ℕ} {V : Type}

/-- the writer that holds the spin lock, by what it does next -/
inductive Writer where
  /-- nobody holds it -/
  | none
  | begins
  /-- in `f` -/
  | writes
  | unlocks
deriving DecidableEq

/-- what readers and writers share -/
structure Lock (w : ℕ) (V : Type) where
  sequence : ℕ
  value : Fin w → V
  writer : Writer
  results : List (Fin w → V)

/-- a call of `read` -/
structure Reader (w : ℕ) (V : Type) where
  /-- the writes that had finished when it was called, and those that had begun -/
  finished : ℕ
  begun : ℕ
  /-- the sequence number it has loaded -/
  before : Option ℕ
  copy : Fin w → Option V

structure State (w : ℕ) (V : Type) where
  lock : Lock w V
  readers : ℕ → Option (Reader w V)
  returned : List (ℕ × (Fin w → V))

def State.new (value : Fin w → V) : State w V := ⟨⟨0, value, .none, []⟩, fun _ => none, []⟩

/-- the writes that have made the sequence number odd -/
def Lock.begun (l : Lock w V) : ℕ := l.results.length + if l.writer = .writes then 1 else 0

inductive Write (w : ℕ) (V : Type) where
  | lock
  | begin
  | store (i : Fin w) (v : V)
  | finish
  | unlock

def Lock.step (l : Lock w V) : Write w V → Option (Lock w V)
  | .lock => if l.writer = .none then some { l with writer := .begins } else none
  | .begin => if l.writer = .begins then some { l with sequence := (l.sequence + 1) % 2 ^ 64, writer := .writes } else none
  | .store i v => if l.writer = .writes then some { l with value := update l.value i v } else none
  | .finish =>
    if l.writer = .writes then some ⟨(l.sequence + 1) % 2 ^ 64, l.value, .unlocks, l.results ++ [l.value]⟩ else none
  | .unlock => if l.writer = .unlocks then some { l with writer := .none } else none

inductive Act (w : ℕ) (V : Type) where
  | write (a : Write w V)
  | read (r : ℕ)
  | load (r : ℕ)
  | copy (r : ℕ) (i : Fin w)
  /-- the second load, when all words are copied -/
  | check (r : ℕ)

def State.setReader (s : State w V) (r : ℕ) (o : Option (Reader w V)) : State w V :=
  { s with readers := update s.readers r o }

def step (s : State w V) : Act w V → Option (State w V)
  | .write a => (s.lock.step a).map fun l => { s with lock := l }
  | .read r =>
    if s.readers r = none then some (s.setReader r (some ⟨s.lock.results.length, s.lock.begun, none, fun _ => none⟩))
      else none
  | .load r =>
    (s.readers r).bind fun x =>
      if x.before = none then
        -- an odd number is loaded again
        some (if s.lock.sequence % 2 = 0 then s.setReader r
          (some { x with before := some s.lock.sequence, copy := fun _ => none })
          else s)
      else none
  | .copy r i =>
    (s.readers r).bind fun x =>
      x.before.map fun _ => s.setReader r (some { x with copy := update x.copy i (some (s.lock.value i)) })
  | .check r =>
    (s.readers r).bind fun x => x.before.bind fun before =>
      if h : ∀ i, (x.copy i).isSome then
        some (if before = s.lock.sequence then
          { s.setReader r none with returned := s.returned ++ [(x.finished, fun i => (x.copy i).get (h i))] }
        else s.setReader r (some { x with before := none }))
      else none

def run (s : State w V) (as : List (Act w V)) : Option (State w V) := as.foldlM step s

/-- fewer than 2^63 writes have begun during the read -/
def FewWrites (s : State w V) : Act w V → Prop
  | .check r => ∀ x ∈ s.readers r, s.lock.begun - x.begun < 2 ^ 63
  | _ => True

instance (s : State w V) (a : Act w V) : Decidable (FewWrites s a) := by
  unfold FewWrites
  split <;> infer_instance

/-! ## Writers -/

variable {init : Fin w → V} {l l' : Lock w V} {s : State w V} {r : ℕ} {x : Reader w V}

structure LockOk (init : Fin w → V) (l : Lock w V) : Prop where
  sequence : l.sequence = (l.results.length + l.begun) % 2 ^ 64
  value : l.writer ≠ .writes → (init :: l.results)[l.results.length]? = some l.value

/-- the value is the one it was, or the number is odd or has grown -/
structure Later (l l' : Lock w V) : Prop where
  begun : l.begun ≤ l'.begun
  results : l.results <+: l'.results
  same : l'.writer ≠ .writes → l'.results.length = l.results.length → l.writer ≠ .writes ∧ l'.value = l.value

theorem lockOk_step {a : Write w V} (h : LockOk init l) (hstep : l.step a = some l') : LockOk init l' ∧ Later l l' := by
  have hseq := h.sequence
  cases a with
  | lock =>
    obtain ⟨hw, hl⟩ := ite_none_right_eq_some.1 hstep
    cases hl
    have hbegun : l.begun = ({ l with writer := .begins } : Lock w V).begun := by simp [Lock.begun, hw]
    exact ⟨⟨hbegun ▸ hseq, fun _ => h.value (by simp [hw])⟩, hbegun.le, prefix_rfl, fun _ _ => ⟨by simp [hw], rfl⟩⟩
  | begin =>
    obtain ⟨hw, hl⟩ := ite_none_right_eq_some.1 hstep
    cases hl
    refine ⟨⟨?_, fun hne => absurd rfl hne⟩, by simp [Lock.begun, hw], prefix_rfl, fun hne => absurd rfl hne⟩
    simp only [Lock.begun, hw, reduceCtorEq, if_true, if_false] at hseq ⊢
    omega
  | store i v =>
    obtain ⟨hw, hl⟩ := ite_none_right_eq_some.1 hstep
    cases hl
    exact ⟨⟨hseq, fun hne => absurd hw hne⟩, le_rfl, prefix_rfl, fun hne => absurd hw hne⟩
  | finish =>
    obtain ⟨hw, hl⟩ := ite_none_right_eq_some.1 hstep
    cases hl
    refine ⟨⟨?_, fun _ => by simp⟩, by simp [Lock.begun, hw], prefix_append _ _, fun _ hlen => by simp at hlen⟩
    simp only [Lock.begun, hw, length_append, length_singleton, reduceCtorEq, if_true, if_false] at hseq ⊢
    omega
  | unlock =>
    obtain ⟨hw, hl⟩ := ite_none_right_eq_some.1 hstep
    cases hl
    have hbegun : l.begun = ({ l with writer := .none } : Lock w V).begun := by simp [Lock.begun, hw]
    exact ⟨⟨hbegun ▸ hseq, fun _ => h.value (by simp [hw])⟩, hbegun.le, prefix_rfl, fun _ _ => ⟨by simp [hw], rfl⟩⟩

/-! ## Readers -/

/-- a read that has loaded `2 * k` did so after the `k`-th write; until the next one begins, its copy is of that write's
result -/
structure ReaderOk (l : Lock w V) (x : Reader w V) : Prop where
  begun : x.begun ≤ l.begun
  finished : x.finished ≤ l.results.length
  loaded : ∀ b, x.before = some b → ∃ k, b = 2 * k % 2 ^ 64 ∧ x.finished ≤ k ∧ x.begun ≤ k ∧ k ≤ l.results.length ∧
    (k = l.results.length → l.writer ≠ .writes → ∀ i v, x.copy i = some v → v = l.value i)

theorem ReaderOk.later (h : ReaderOk l x) (hl : Later l l') : ReaderOk l' x := by
  have hlen := hl.results.length_le
  refine ⟨h.begun.trans hl.begun, h.finished.trans hlen, fun b hb => ?_⟩
  obtain ⟨k, hk, hf, hs, hle, hcopy⟩ := h.loaded b hb
  refine ⟨k, hk, hf, hs, hle.trans hlen, fun heq hw => ?_⟩
  obtain ⟨hw', hv⟩ := hl.same hw (by omega)
  rw [hv]
  exact hcopy (by omega) hw'

/-- an even number is the one after a finished write -/
theorem ReaderOk.load (h : ReaderOk l x) (hl : LockOk init l) (heven : l.sequence % 2 = 0) :
    ReaderOk l { x with before := some l.sequence, copy := fun _ => none } := by
  have hseq := hl.sequence
  have hbegun : l.begun = l.results.length := by
    simp only [Lock.begun] at hseq ⊢
    split_ifs at hseq ⊢ <;> omega
  refine ⟨h.begun, h.finished, fun b hb => ?_⟩
  cases hb
  exact ⟨l.results.length, by omega, h.finished, hbegun ▸ h.begun, le_rfl, fun _ _ i v hv => nomatch hv⟩

theorem ReaderOk.copy_word (h : ReaderOk l x) (i : Fin w) :
    ReaderOk l { x with copy := update x.copy i (some (l.value i)) } := by
  refine ⟨h.begun, h.finished, fun b hb => ?_⟩
  obtain ⟨k, hk, hf, hs, hle, hcopy⟩ := h.loaded b hb
  refine ⟨k, hk, hf, hs, hle, fun heq hw j v hv => ?_⟩
  change update x.copy i (some (l.value i)) j = some v at hv
  by_cases hij : j = i
  · subst hij
    rw [update_self] at hv
    exact (some.inj hv).symm
  · rw [update_of_ne hij] at hv
    exact hcopy heq hw j v hv

/-- where the number is the one that was loaded, no write has begun since -/
theorem ReaderOk.accepted (h : ReaderOk l x) (hl : LockOk init l) (hb : x.before = some l.sequence)
    (hfew : l.begun - x.begun < 2 ^ 63) (hall : ∀ i, (x.copy i).isSome) :
    ∃ k, x.finished ≤ k ∧ (init :: l.results)[k]? = some fun i => (x.copy i).get (hall i) := by
  obtain ⟨k, hk, hf, hs, hle, hcopy⟩ := h.loaded _ hb
  have hseq := hl.sequence
  obtain ⟨hlen, hw⟩ : k = l.results.length ∧ l.writer ≠ .writes := by
    simp only [Lock.begun] at hseq hfew
    split_ifs at hseq hfew with hw
    · omega
    · exact ⟨by omega, hw⟩
  have hvalue : (fun i => (x.copy i).get (hall i)) = l.value :=
    funext fun i => hcopy hlen hw i _ (some_get (hall i)).symm
  exact ⟨k, hf, by rw [hvalue, hlen]; exact hl.value hw⟩

/-! ## Runs -/

structure Inv (init : Fin w → V) (s : State w V) : Prop where
  lock : LockOk init s.lock
  readers : ∀ r x, s.readers r = some x → ReaderOk s.lock x
  returned : ∀ y ∈ s.returned, ∃ k, y.1 ≤ k ∧ (init :: s.lock.results)[k]? = some y.2

theorem Inv.setReader (h : Inv init s) {o : Option (Reader w V)} (ho : ∀ x, o = some x → ReaderOk s.lock x) :
    Inv init (s.setReader r o) := by
  refine ⟨h.lock, fun q x hq => ?_, h.returned⟩
  change update s.readers r o q = some x at hq
  by_cases hqr : q = r
  · subst hqr
    rw [update_self] at hq
    exact ho x hq
  · rw [update_of_ne hqr] at hq
    exact h.readers q x hq

theorem inv_new (init : Fin w → V) : Inv init (State.new init) := by
  refine ⟨⟨rfl, fun _ => rfl⟩, fun r x hx => ?_, fun y hy => ?_⟩
  · cases hx
  · cases hy

theorem inv_step (s : State w V) (a : Act w V) (s' : State w V) (h : Inv init s) (hfew : FewWrites s a)
    (hstep : step s a = some s') :
    Inv init s' := by
  cases a with
  | write a =>
    obtain ⟨l, hl, rfl⟩ := map_eq_some_iff.1 hstep
    obtain ⟨hok, hlater⟩ := lockOk_step h.lock hl
    refine ⟨hok, fun r x hx => (h.readers r x hx).later hlater, fun y hy => ?_⟩
    obtain ⟨k, hle, hk⟩ := h.returned y hy
    obtain ⟨rest, hrest⟩ := hlater.results
    refine ⟨k, hle, ?_⟩
    rw [← hrest, ← cons_append, getElem?_append_left (List.getElem?_eq_some_iff.1 hk).1]
    exact hk
  | read r =>
    obtain ⟨-, hs⟩ := ite_none_right_eq_some.1 hstep
    cases hs
    refine h.setReader fun x hx => ?_
    cases hx
    exact ⟨le_rfl, le_rfl, nofun⟩
  | load r =>
    obtain ⟨x, hx, hstep⟩ := bind_eq_some_iff.1 hstep
    obtain ⟨-, hs⟩ := ite_none_right_eq_some.1 hstep
    cases hs
    split_ifs with heven
    · refine h.setReader fun y hy => ?_
      cases hy
      exact (h.readers r x hx).load h.lock heven
    · exact h
  | copy r i =>
    obtain ⟨x, hx, hstep⟩ := bind_eq_some_iff.1 hstep
    obtain ⟨b, -, rfl⟩ := map_eq_some_iff.1 hstep
    refine h.setReader fun y hy => ?_
    cases hy
    exact (h.readers r x hx).copy_word i
  | check r =>
    obtain ⟨x, hx, hstep⟩ := bind_eq_some_iff.1 hstep
    obtain ⟨b, hb, hstep⟩ := bind_eq_some_iff.1 hstep
    have hok := h.readers r x hx
    split_ifs at hstep with hall heq
    · cases hstep
      have hset := h.setReader (r := r) (o := none) nofun
      refine ⟨h.lock, hset.readers, forall_mem_append.2 ⟨h.returned, forall_mem_singleton.2 ?_⟩⟩
      exact hok.accepted h.lock (heq ▸ hb) (hfew x hx) hall
    · cases hstep
      refine h.setReader fun y hy => ?_
      cases hy
      exact ⟨hok.begun, hok.finished, nofun⟩

/-- **No torn and no stale reads.** In every run in which fewer than 2^63 writes begin during one read, each value that
was returned is the initial one or the complete result of one write, and not older than the last write that had finished
when the read began. -/
theorem seqlock_run (init : Fin w → V) (as : List (Act w V)) (s : State w V) (hrun : run (State.new init) as = some s)
    (hfew : Meets step FewWrites (State.new init) as) :
    ∀ y ∈ s.returned, ∃ k, y.1 ≤ k ∧ (init :: s.lock.results)[k]? = some y.2 :=
  (run_inv (Inv init) inv_step (inv_new init) hfew hrun).returned

/-- a read that overlaps a write starts again, and returns the result of the write -/
theorem seqlock_run_retry :
    ∃ s, run (State.new ![1, 2]) [.read 0, .load 0, .copy 0 0, .write .lock, .write .begin, .write (.store 1 4), .copy 0 1,
        .write (.store 0 3), .write .finish, .check 0, .load 0, .copy 0 1, .copy 0 0, .check 0] = some s ∧
      s.returned = [(0, ![3, 4])] ∧ ∀ y ∈ s.returned, ∃ k, y.1 ≤ k ∧ (![1, 2] :: s.lock.results)[k]? = some y.2 :=
  exists_and_of_check (by decide +kernel) fun s hrun _ => seqlock_run _ _ s hrun (by decide +kernel)

end Rumicos.Sync.SeqLock
