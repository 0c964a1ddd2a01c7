/-
A pipe with any number of threads in `pipe_read`, `pipe_write` and the two release hooks (`crates/fs/src/pipe.rs`).

The two directions mirror each other: a read samples `read_seq`, looks at the ring under its lock, and on success wakes a
writer if the ring was full; a write samples `write_seq` and wakes a reader if the ring was empty. `Side` names the
direction, and what the source keeps twice (`read_seq` and `write_seq`, the refcounts of the two end VNodes, the two wait
queues) is indexed by it.

One step is one atomic piece of the source: the load of a counter, the section under the ring lock, the increment of a
generation counter, a wake, or the decision of `thread_block_if` under the queue lock. A wake of `n` readies the first
`n` waiters, which go round their loop again. `seq` counts the events; the AtomicU32 holds it modulo 2^32.

History variables, read by no step: `taken` and `put`.
-/
import Rumicos.Lib.Run
import Rumicos.Fs.PipeRing

namespace Rumicos.Fs.Pipes

open Lib List Option

/-! ## The pipe -/

inductive Side where
  | read
  | write
deriving DecidableEq

def Side.other : Side → Side
  | .read => .write
  | .write => .read

@[simp] theorem Side.other_other (d : Side) : d.other.other = d := by cases d <;> rfl

theorem Side.eq_or_eq_other (d d' : Side) : d' = d ∨ d' = d.other := by cases d <;> cases d' <;> simp [Side.other]

structure Pipe where
  ring : PipeRing
  data : PipeData
  /-- `read_seq` and `write_seq` -/
  seq : Side → ℕ
  /-- the refcounts of the read-end and write-end VNodes -/
  refs : Side → ℕ
  /-- `read_waiters` and `write_waiters`: the waiting calls, first come first -/
  waiters : Side → List ℕ

/-- a fresh pipe with so many descriptors open on its ends -/
def Pipe.new (data : PipeData) (refs : Side → ℕ) : Pipe := ⟨PipeRing.new, data, fun _ => 0, refs, fun _ => []⟩

/-- a read has bytes to take, a write has room -/
def Pipe.ready (p : Pipe) : Side → Bool
  | .read => !p.ring.isEmpty
  | .write => !p.ring.isFull

/-- the section of `pipe_read` under the ring lock: the bytes, `was_full`, the pipe -/
def Pipe.readSection (p : Pipe) (cap : ℕ) : List UInt8 × Bool × Pipe :=
  if p.ring.isEmpty then ([], false, p)
  else ((p.ring.readInto p.data cap).1, p.ring.isFull, { p with ring := (p.ring.readInto p.data cap).2 })

/-- the section of `pipe_write` under the ring lock: the count, `was_empty`, the pipe -/
def Pipe.writeSection (p : Pipe) (src : List UInt8) : ℕ × Bool × Pipe :=
  if p.ring.isFull then (0, false, p)
  else
    ((p.ring.writeFrom p.data src).1, p.ring.isEmpty,
      { p with ring := (p.ring.writeFrom p.data src).2.2, data := (p.ring.writeFrom p.data src).2.1 })

/-! ## Calls -/

inductive Op where
  /-- `pipe_read` into a buffer of `cap` bytes -/
  | read (cap : ℕ)
  /-- `pipe_write` -/
  | write (src : List UInt8)
  /-- `pipe_read_release`, `pipe_write_release` -/
  | close (side : Side)
deriving DecidableEq

def Op.side : Op → Side
  | .read _ => .read
  | .write _ => .write
  | .close side => side

inductive Pc where
  /-- entered -/
  | start
  /-- before the load of the own generation counter -/
  | sample
  /-- before the section under the ring lock -/
  | ring (snap : ℕ)
  /-- before the increment of the other side's counter -/
  | publish (ret : ℤ)
  /-- before the wake of the other side -/
  | wake (ret : ℤ)
  /-- nothing moved: before the load of the other side's descriptor count -/
  | count (snap : ℕ)
  /-- before the decision of `thread_block_if` -/
  | decide (snap : ℕ)
  | blocked
  | returned (ret : ℤ)
deriving DecidableEq

structure Call where
  op : Op
  pc : Pc
deriving DecidableEq

def Call.side (c : Call) : Side := c.op.side

def ePipe : ℤ := -32

/-- `reader_step_when_empty(false)` and `writer_step_when_full(false)` -/
def noPeer : Side → ℤ
  | .read => 0
  | .write => ePipe

structure State where
  pipe : Pipe
  calls : List Call
  /-- history: the bytes taken by reads, in the order of their ring sections -/
  taken : List UInt8
  /-- history: the bytes accepted from writes, in the order of theirs -/
  put : List UInt8

def State.new (data : PipeData) (refs : Side → ℕ) : State := ⟨Pipe.new data refs, [], [], []⟩

/-- where a section that moved `n` bytes leads; `edge` is `was_full` or `was_empty` -/
def afterSection (snap n : ℕ) (edge : Bool) : Pc :=
  if 0 < n then if edge then .publish n else .returned n else .count snap

/-- `wake_one` after a transfer, `wake_all` after a close -/
def Op.wakes : Op → List ℕ → List ℕ
  | .close _, ws => ws
  | _, ws => ws.take 1

/-- the woken calls go round their loop -/
def wakeCalls (woken : List ℕ) (calls : List Call) : List Call :=
  calls.mapIdx fun k c => if k ∈ woken then { c with pc := .sample } else c

/-- the next step of call `c`, at position `i` -/
def stepCall (s : State) (i : ℕ) (c : Call) : Option State :=
  let goto (pc : Pc) : List Call := s.calls.set i { c with pc := pc }
  match c.pc with
  | .start =>
    match c.op with
    | .read _ => some { s with calls := goto .sample }
    | .write _ => some { s with calls := goto (if s.pipe.refs .read = 0 then .returned ePipe else .sample) }
    | .close d =>
      -- `dec_ref` returns the previous count
      if s.pipe.refs d = 0 then none
      else
        some { s with
          pipe := { s.pipe with refs := Function.update s.pipe.refs d (s.pipe.refs d - 1) }
          calls := goto (if s.pipe.refs d = 1 then .publish 0 else .returned 0) }
  | .sample => some { s with calls := goto (.ring (s.pipe.seq c.side)) }
  | .ring snap =>
    match c.op with
    | .read cap =>
      let r := s.pipe.readSection cap
      some { s with pipe := r.2.2, taken := s.taken ++ r.1, calls := goto (afterSection snap r.1.length r.2.1) }
    | .write src =>
      let r := s.pipe.writeSection src
      some { s with pipe := r.2.2, put := s.put ++ src.take r.1, calls := goto (afterSection snap r.1 r.2.1) }
    | .close _ => none
  | .publish ret =>
    some { s with
      pipe := { s.pipe with seq := Function.update s.pipe.seq c.side.other (s.pipe.seq c.side.other + 1) }
      calls := goto (.wake ret) }
  | .wake ret =>
    let ws := s.pipe.waiters c.side.other
    let woken := c.op.wakes ws
    some { s with
      pipe := { s.pipe with waiters := Function.update s.pipe.waiters c.side.other (ws.drop woken.length) }
      calls := (wakeCalls woken s.calls).set i { c with pc := .returned ret } }
  | .count snap =>
    some { s with
      calls := goto (if s.pipe.refs c.side.other = 0 then .returned (noPeer c.side) else .decide snap) }
  | .decide snap =>
    if s.pipe.seq c.side % 2 ^ 32 = snap % 2 ^ 32 then
      some { s with
        pipe := { s.pipe with waiters := Function.update s.pipe.waiters c.side (s.pipe.waiters c.side ++ [i]) }
        calls := goto .blocked }
    else some { s with calls := goto .sample }
  | .blocked => none
  | .returned _ => none

inductive Act where
  /-- a thread with an open descriptor of that end makes a call -/
  | call (op : Op)
  /-- the next step of call `i` -/
  | resume (i : ℕ)
deriving DecidableEq

def step (s : State) : Act → Option State
  | .call op => if s.pipe.refs op.side = 0 then none else some { s with calls := s.calls ++ [⟨op, .start⟩] }
  | .resume i => s.calls[i]?.bind (stepCall s i)

def run (s : State) (as : List Act) : Option State := as.foldlM step s

/-- what a step of call `c` can be, one constructor for each atomic piece of the source -/
inductive Moves (s : State) (i : ℕ) (c : Call) : State → Prop
  | enter (pc : Pc) (hop : ∀ d, c.op ≠ .close d) (hpc : c.pc = .start) (hto : pc = .sample ∨ pc = .returned ePipe) :
    Moves s i c { s with calls := s.calls.set i { c with pc := pc } }
  | release (d : Side) (hop : c.op = .close d) (hpc : c.pc = .start) (hd : s.pipe.refs d ≠ 0) :
    Moves s i c { s with
      pipe := { s.pipe with refs := Function.update s.pipe.refs d (s.pipe.refs d - 1) }
      calls := s.calls.set i { c with pc := if s.pipe.refs d = 1 then .publish 0 else .returned 0 } }
  | sample (hpc : c.pc = .sample) :
    Moves s i c { s with calls := s.calls.set i { c with pc := .ring (s.pipe.seq c.side) } }
  | read (cap snap : ℕ) (hop : c.op = .read cap) (hpc : c.pc = .ring snap) :
    Moves s i c { s with
      pipe := (s.pipe.readSection cap).2.2
      taken := s.taken ++ (s.pipe.readSection cap).1
      calls := s.calls.set i
        { c with pc := afterSection snap (s.pipe.readSection cap).1.length (s.pipe.readSection cap).2.1 } }
  | write (src : List UInt8) (snap : ℕ) (hop : c.op = .write src) (hpc : c.pc = .ring snap) :
    Moves s i c { s with
      pipe := (s.pipe.writeSection src).2.2
      put := s.put ++ src.take (s.pipe.writeSection src).1
      calls := s.calls.set i
        { c with pc := afterSection snap (s.pipe.writeSection src).1 (s.pipe.writeSection src).2.1 } }
  | publish (ret : ℤ) (hpc : c.pc = .publish ret) :
    Moves s i c { s with
      pipe := { s.pipe with seq := Function.update s.pipe.seq c.side.other (s.pipe.seq c.side.other + 1) }
      calls := s.calls.set i { c with pc := .wake ret } }
  | wake (ret : ℤ) (hpc : c.pc = .wake ret) :
    Moves s i c { s with
      pipe := { s.pipe with
        waiters := Function.update s.pipe.waiters c.side.other
          ((s.pipe.waiters c.side.other).drop (c.op.wakes (s.pipe.waiters c.side.other)).length) }
      calls := (wakeCalls (c.op.wakes (s.pipe.waiters c.side.other)) s.calls).set i { c with pc := .returned ret } }
  | count (snap : ℕ) (hpc : c.pc = .count snap) :
    Moves s i c { s with
      calls := s.calls.set i
        { c with pc := if s.pipe.refs c.side.other = 0 then .returned (noPeer c.side) else .decide snap } }
  | block (snap : ℕ) (hpc : c.pc = .decide snap) (hseq : s.pipe.seq c.side % 2 ^ 32 = snap % 2 ^ 32) :
    Moves s i c { s with
      pipe := { s.pipe with waiters := Function.update s.pipe.waiters c.side (s.pipe.waiters c.side ++ [i]) }
      calls := s.calls.set i { c with pc := .blocked } }
  | retry (snap : ℕ) (hpc : c.pc = .decide snap) :
    Moves s i c { s with calls := s.calls.set i { c with pc := .sample } }

theorem moves_of_stepCall {s s' : State} {i : ℕ} {c : Call} (h : stepCall s i c = some s') : Moves s i c s' := by
  unfold stepCall at h
  split at h
  case h_1 hpc =>
    split at h
    case h_1 hop =>
      cases h
      exact .enter .sample (by simp [hop]) hpc (.inl rfl)
    case h_2 hop =>
      cases h
      refine .enter _ (by simp [hop]) hpc ?_
      split_ifs
      · exact .inr rfl
      · exact .inl rfl
    case h_3 d hop =>
      rw [ite_eq_iff] at h
      rcases h with ⟨-, h⟩ | ⟨hd, h⟩
      · exact absurd h (by simp)
      · cases h
        exact .release d hop hpc hd
  case h_2 hpc =>
    cases h
    exact .sample hpc
  case h_3 snap hpc =>
    split at h
    case h_1 cap hop =>
      cases h
      exact .read cap snap hop hpc
    case h_2 src hop =>
      cases h
      exact .write src snap hop hpc
    case h_3 => exact absurd h (by simp)
  case h_4 ret hpc =>
    cases h
    exact .publish ret hpc
  case h_5 ret hpc =>
    cases h
    exact .wake ret hpc
  case h_6 snap hpc =>
    cases h
    exact .count snap hpc
  case h_7 snap hpc =>
    rw [ite_eq_iff] at h
    rcases h with ⟨hseq, h⟩ | ⟨-, h⟩
    · cases h
      exact .block snap hpc hseq
    · cases h
      exact .retry snap hpc
  case h_8 => exact absurd h (by simp)
  case h_9 => exact absurd h (by simp)

/-! ## The byte stream -/

/-- what was accepted is what was taken and what the ring holds -/
def Fifo (s : State) : Prop := s.put = s.taken ++ s.pipe.ring.contents s.pipe.data

theorem readSection_contents (p : Pipe) (cap : ℕ) :
    p.ring.contents p.data =
      (p.readSection cap).1 ++ (p.readSection cap).2.2.ring.contents (p.readSection cap).2.2.data := by
  unfold Pipe.readSection
  split_ifs
  · rfl
  · exact (p.ring.readInto_spec p.data cap).1

theorem writeSection_contents (p : Pipe) (src : List UInt8) :
    (p.writeSection src).2.2.ring.contents (p.writeSection src).2.2.data =
      p.ring.contents p.data ++ src.take (p.writeSection src).1 := by
  unfold Pipe.writeSection
  split_ifs
  · simp
  · exact (p.ring.writeFrom_spec p.data src).1

theorem fifo_moves {s s' : State} {i : ℕ} {c : Call} (hI : Fifo s) (h : Moves s i c s') : Fifo s' := by
  cases h with
  | read cap snap hop hpc =>
    calc s.put = s.taken ++ s.pipe.ring.contents s.pipe.data := hI
      _ = (s.taken ++ (s.pipe.readSection cap).1) ++ _ := by rw [readSection_contents, append_assoc]
  | write src snap hop hpc =>
    calc s.put ++ _ = (s.taken ++ s.pipe.ring.contents s.pipe.data) ++ _ := by rw [← hI]
      _ = s.taken ++ _ := by rw [writeSection_contents, append_assoc]
  | _ => exact hI

theorem fifo_step {s s' : State} {a : Act} (hI : Fifo s) (h : step s a = some s') : Fifo s' := by
  cases a with
  | call op =>
    rw [step] at h
    split_ifs at h
    cases h
    exact hI
  | resume i =>
    obtain ⟨c, -, hc⟩ := bind_eq_some_iff.1 h
    exact fifo_moves hI (moves_of_stepCall hc)

/-- **A pipe is a byte stream.** For any readers, writers and closers, any buffer sizes and any interleaving: the bytes
taken by the reads, in the order of their ring sections, are a front part of the bytes accepted from the writes in the
order of theirs; the rest is exactly what the ring holds, at most 4096 bytes. -/
theorem fifo_exact (data : PipeData) (refs : Side → ℕ) (as : List Act) (s : State)
    (h : run (State.new data refs) as = some s) :
    s.put = s.taken ++ s.pipe.ring.contents s.pipe.data ∧ (s.pipe.ring.contents s.pipe.data).length ≤ 4096 := by
  have hnew : Fifo (State.new data refs) := rfl
  refine ⟨foldlM_inv (fun _ s => Fifo s) (fun _ _ _ _ hI hs => fifo_step hI hs) hnew h, ?_⟩
  rw [PipeRing.length_contents]
  exact s.pipe.ring.len_le

/-- a write of three bytes and a read of two -/
def shortActs : List Act :=
  [.call (.write [7, 8, 9]), .call (.read 2)] ++ List.replicate 5 (.resume 0) ++ List.replicate 3 (.resume 1)

/-- two bytes are taken, the third is in the ring -/
theorem fifo_exact_short : ∃ s, run (State.new (fun _ => 0) fun _ => 1) shortActs = some s ∧ s.taken = [7, 8] ∧
    s.put = [7, 8] ++ s.pipe.ring.contents s.pipe.data := by
  refine exists_and_of_check (by decide +kernel) fun s hs htaken => ?_
  rw [← htaken]
  exact (fifo_exact _ _ _ s hs).1

end Rumicos.Fs.Pipes
