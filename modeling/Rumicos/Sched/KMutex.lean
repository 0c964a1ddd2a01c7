/-
`KMutex` over the futex table (`crates/sched/src/futex.rs`, `waitqueue.rs`).

The word is 0 (free), 1 (held) or 2 (held, and somebody may wait). Any number of threads lock, try to lock and unlock
one mutex; a step is one atomic access to the word or one section under the lock of the bucket's wait queue. Threads
that wait for other keys of the bucket are passed over by `wake_n_matching` and left out.

- `lock`: a compare-exchange, then a loop of `swap(2)` and `futex_wait(2)`, which reads the word, and again under the
  queue lock before it links the thread and marks it Blocked.
- the guard's drop: `swap(0)`, and `futex_wake(1)` if the word was 2. For each waiter in turn it tries CPU 0's scheduler
  lock twice; a waiter it cannot push stays linked and the next one is tried (`Push`). A full run queue has marked the
  thread Runnable already.
- a thread that was pushed resumes when the scheduler comes to it, whether it had left its CPU or not.
-/
import Rumicos.Lib.Bags
import Rumicos.Lib.Run

namespace Rumicos.Sched.KMutex

open Lib List Option Bool

/-! ## The system -/

inductive Pc where
  | idle
  /-- `lock`, before its compare-exchange -/
  | fast
  /-- `try_lock` -/
  | tryLock
  /-- before `swap(2)`; `woken` if the thread comes from a wake -/
  | swap (woken : Bool)
  /-- `futex_wait`, before its first load -/
  | load
  /-- before the section under the queue lock -/
  | enqueue
  /-- linked, before the call of the scheduler -/
  | linked
  /-- in the scheduler -/
  | asleep
  | holds
  /-- `futex_wake` of an unlock -/
  | wake
deriving DecidableEq

structure Thread where
  pc : Pc
  /-- `ThreadState::Blocked` -/
  blocked : Bool
  /-- on a run queue -/
  ready : Bool
deriving DecidableEq

structure State where
  word : ℕ
  /-- the waiters on the mutex -/
  queue : List ℕ
  threads : List Thread
deriving DecidableEq

def State.new (n : ℕ) : State := ⟨0, [], List.replicate n ⟨.idle, false, false⟩⟩

def State.set (s : State) (i : ℕ) (t : Thread) : State := { s with threads := s.threads.set i t }

/-! ## Waking -/

/-- one call of `try_push_to_cpu` -/
inductive Push where
  /-- the scheduler lock is taken -/
  | contended
  /-- the run queue is full -/
  | full
  | ok
deriving DecidableEq

/-- `try_make_runnable`: does one of the two attempts push the thread? -/
def delivers (a : Push × Push) : Bool := a.1 == .ok || a.2 == .ok

/-- does one of them come as far as `state = Runnable`? -/
def marks (a : Push × Push) : Bool := a.1 != .contended || a.2 != .contended

/-- on a run queue -/
def Thread.resume (t : Thread) : Thread := { t with blocked := false, ready := true }

/-- `wake_n_matching` with a count of one; the attempts for each waiter -/
def wakeOne : List (Push × Push) → List ℕ → List Thread → List ℕ × List Thread
  | _, [], ts => ([], ts)
  | tries, i :: q, ts =>
    let a := tries.headD (.ok, .ok)
    if delivers a then (q, ts.modify i Thread.resume)
    else
      let r := wakeOne tries.tail q (if marks a then ts.modify i fun t => { t with blocked := false } else ts)
      (i :: r.1, r.2)

/-! ## Steps -/

inductive Act where
  | lock (i : ℕ)
  | tryLock (i : ℕ)
  /-- the next step of thread `i`; `tries` are the attempts of a wake -/
  | step (i : ℕ) (tries : List (Push × Push))
deriving DecidableEq

def stepThread (s : State) (i : ℕ) (t : Thread) (tries : List (Push × Push)) : Option State :=
  match t.pc with
  | .idle => none
  | .fast => some (if s.word = 0 then { s with word := 1 }.set i { t with pc := .holds }
      else s.set i { t with pc := .swap false })
  | .tryLock => some (if s.word = 0 then { s with word := 1 }.set i { t with pc := .holds }
      else s.set i { t with pc := .idle })
  | .swap _ => some ({ s with word := 2 }.set i { t with pc := if s.word = 0 then .holds else .load })
  | .load => some (s.set i { t with pc := if s.word = 2 then .enqueue else .swap false })
  | .enqueue =>
    some (if s.word = 2 then { s with queue := s.queue ++ [i] }.set i { t with pc := .linked, blocked := true }
      else s.set i { t with pc := .swap false })
  | .linked => some (s.set i { t with pc := .asleep, ready := t.ready || !t.blocked })
  | .asleep => if t.ready then some (s.set i { t with pc := .swap true, ready := false }) else none
  | .holds => some ({ s with word := 0 }.set i { t with pc := if s.word = 2 then .wake else .idle })
  | .wake =>
    let r := wakeOne tries s.queue s.threads
    some (({ s with queue := r.1, threads := r.2 } : State).set i { t with pc := .idle })

def step (s : State) : Act → Option State
  | .lock i => (s.threads[i]?).bind fun t => if t.pc = .idle then some (s.set i { t with pc := .fast }) else none
  | .tryLock i => (s.threads[i]?).bind fun t => if t.pc = .idle then some (s.set i { t with pc := .tryLock }) else none
  | .step i tries => (s.threads[i]?).bind fun t => stepThread s i t tries

def run (s : State) (as : List Act) : Option State := as.foldlM step s

/-! ## The property and its condition -/

/-- the threads that hold the mutex -/
def State.holders (s : State) : ℕ := s.threads.countP fun t => t.pc == .holds

/-- blocked in `futex_wait` -/
def Thread.Blocked (t : Thread) : Prop := (t.pc = .linked ∨ t.pc = .asleep) ∧ t.blocked = true

/-- in `futex_wake`, or woken by it and not yet back at the word -/
def Thread.Unlocking (t : Thread) : Prop := t.pc = .wake ∨ t.pc = .swap true ∨ t.ready = true

/-- nobody is blocked on a free mutex -/
def State.Unstranded (s : State) : Prop := s.word = 0 → ∀ t ∈ s.threads, ¬ t.Blocked

/-- is a wake about to be made? -/
def State.wakes (s : State) : Act → Bool
  | .step i _ => (s.threads[i]?).any fun t => t.pc == .wake
  | _ => false

/-- a wake that has waiters pushes one, and no attempt finds the run queue full -/
def Delivered (s : State) : Act → Prop
  | .step i tries => s.wakes (.step i tries) = true → s.queue ≠ [] →
      (∃ k < s.queue.length, delivers (tries.getD k (.ok, .ok)) = true) ∧ ∀ a ∈ tries, a.1 ≠ .full ∧ a.2 ≠ .full
  | _ => True

/-- a wake finds at most one waiter, or the word 2 -/
def FewWaiters (s : State) (a : Act) : Prop := s.wakes a = true → s.queue.length ≤ 1 ∨ s.word = 2

instance (t : Thread) : Decidable t.Blocked := by unfold Thread.Blocked; infer_instance
instance (t : Thread) : Decidable t.Unlocking := by unfold Thread.Unlocking; infer_instance
instance (s : State) : Decidable s.Unstranded := by unfold State.Unstranded; infer_instance
instance (s : State) (a : Act) : Decidable (FewWaiters s a) := by unfold FewWaiters; infer_instance
instance (s : State) (a : Act) : Decidable (Delivered s a) := by
  unfold Delivered
  split <;> infer_instance

/-! ## Mutual exclusion -/

variable {s : State} {i word : ℕ} {t t' : Thread} {woken : Bool}

theorem holders_set (ht : s.threads[i]? = some t) (t' : Thread) :
    (s.set i t').holders + (t.pc == .holds).toNat = s.holders + (t'.pc == .holds).toNat :=
  countP_set_add ht t' fun t => t.pc == .holds

theorem wakeOne_pcs (tries : List (Push × Push)) (q : List ℕ) (ts : List Thread) :
    (wakeOne tries q ts).2.map Thread.pc = ts.map Thread.pc := by
  have hmodify : ∀ (f : Thread → Thread) (ts : List Thread) (i : ℕ), (∀ t, (f t).pc = t.pc) →
      (ts.modify i f).map Thread.pc = ts.map Thread.pc := by
    intro f ts i hf
    apply ext_getElem?
    intro j
    rw [getElem?_map, getElem?_map, getElem?_modify]
    cases ts[j]? with
    | none => rfl
    | some t => by_cases hij : i = j <;> simp [hij, hf]
  induction q generalizing tries ts with
  | nil => rfl
  | cons i q ih =>
    unfold wakeOne
    simp only
    split_ifs
    · exact hmodify _ _ _ fun _ => rfl
    · rw [ih]
      exact hmodify _ _ _ fun _ => rfl
    · exact ih _ _

/-- at most one thread holds the mutex, and none while the word is 0 -/
structure Exclusive (s : State) : Prop where
  one : s.holders ≤ 1
  free : s.word = 0 → s.holders = 0

theorem Exclusive.set (h : Exclusive s) (ht : s.threads[i]? = some t) (hpc : t.pc ≠ .holds) (hpc' : t'.pc ≠ .holds)
    (hword : word = 0 → s.word = 0) : Exclusive ({ s with word := word }.set i t') := by
  have hcount := holders_set (s := { s with word := word }) ht t'
  rw [beq_false_of_ne hpc, beq_false_of_ne hpc'] at hcount
  have hsame : ({ s with word := word }.set i t').holders = s.holders := hcount
  exact ⟨hsame.trans_le h.one, fun hw => hsame.trans (h.free (hword hw))⟩

theorem Exclusive.take (h : Exclusive s) (ht : s.threads[i]? = some t) (hpc' : t'.pc = .holds) (hfree : s.word = 0)
    (hword : word ≠ 0) : Exclusive ({ s with word := word }.set i t') := by
  have hcount := holders_set (s := { s with word := word }) ht t'
  have hnone : ({ s with word := word } : State).holders = 0 := h.free hfree
  rw [hpc'] at hcount
  refine ⟨?_, fun hw => absurd hw hword⟩
  simp only [beq_self_eq_true, toNat_true] at hcount
  omega

theorem exclusive_step (s : State) (a : Act) (s' : State) (h : Exclusive s) (hstep : step s a = some s') :
    Exclusive s' := by
  cases a with
  | lock i | tryLock i =>
    obtain ⟨t, ht, hstep⟩ := bind_eq_some_iff.1 hstep
    split_ifs at hstep with hpc
    cases hstep
    exact h.set ht (by rw [hpc]; decide) (by nofun) id
  | step i tries =>
    obtain ⟨t, ht, hstep⟩ := bind_eq_some_iff.1 hstep
    unfold stepThread at hstep
    generalize hpc : t.pc = pc at hstep
    cases pc with
    | idle => cases hstep
    | fast | tryLock =>
      cases hstep
      split_ifs with hword
      · exact h.take ht rfl hword one_ne_zero
      · exact h.set ht (by rw [hpc]; decide) (by nofun) id
    | swap woken =>
      cases hstep
      by_cases hword : s.word = 0
      · exact h.take ht (if_pos hword) hword two_ne_zero
      · exact h.set ht (by rw [hpc]; nofun) (by rw [if_neg hword]; nofun) nofun
    | load =>
      cases hstep
      exact h.set ht (by rw [hpc]; decide) (by split_ifs <;> nofun) id
    | enqueue =>
      cases hstep
      split_ifs with hword
      · exact Exclusive.set (s := { s with queue := s.queue ++ [i] }) ⟨h.one, h.free⟩ ht (by rw [hpc]; decide)
          (by nofun) id
      · exact h.set ht (by rw [hpc]; decide) (by nofun) id
    | linked =>
      cases hstep
      exact h.set ht (by rw [hpc]; decide) (by nofun) id
    | asleep =>
      dsimp only at hstep
      split_ifs at hstep with hready
      cases hstep
      exact h.set ht (by rw [hpc]; decide) (by nofun) id
    | holds =>
      cases hstep
      have hcount := holders_set (s := { s with word := 0 }) ht { t with pc := if s.word = 2 then .wake else .idle }
      have hone := h.one
      have hsame : ({ s with word := 0 } : State).holders = s.holders := rfl
      have hleft : ((if s.word = 2 then Pc.wake else .idle) == .holds) = false := by split_ifs <;> rfl
      rw [hpc, hleft] at hcount
      simp only [beq_self_eq_true, toNat_true, toNat_false] at hcount
      exact ⟨by omega, fun _ => by omega⟩
    | wake =>
      cases hstep
      have hpcs := wakeOne_pcs tries s.queue s.threads
      have hholders : (⟨s.word, (wakeOne tries s.queue s.threads).1,
        (wakeOne tries s.queue s.threads).2⟩ : State).holders =
          s.holders := by
        have hmap : ∀ ts : List Thread, (ts.countP fun t => t.pc == .holds) = (ts.map Thread.pc).countP (· == .holds) := by
          intro ts
          rw [countP_map]
          rfl
        unfold State.holders
        rw [hmap, hmap, hpcs]
      have hget : (wakeOne tries s.queue s.threads).2[i]?.map Thread.pc = some .wake := by
        rw [← getElem?_map, hpcs, getElem?_map, ht, map_some, hpc]
      obtain ⟨u, hu, hupc⟩ := map_eq_some_iff.1 hget
      exact Exclusive.set (s := ⟨s.word, _, _⟩) ⟨hholders.trans_le h.one, fun hw => hholders.trans (h.free hw)⟩
        hu (by rw [hupc]; decide) (by nofun) id

theorem exclusive_new (n : ℕ) : Exclusive (State.new n) := by
  have hzero : (State.new n).holders = 0 := by
    unfold State.holders State.new
    rw [countP_replicate]
    rfl
  exact ⟨hzero.trans_le (Nat.zero_le _), fun _ => hzero⟩

/-- **Mutual exclusion**, in every run. -/
theorem holders_le_one {n : ℕ} {as : List Act} (h : run (State.new n) as = some s) : s.holders ≤ 1 :=
  (foldlM_inv (fun _ => Exclusive) (fun a _ s s' hI hs => exclusive_step s a s' hI hs) (exclusive_new n) h).one

/-! ## Waiters -/

/-- the queue holds the blocked threads, each once, and a thread on a run queue is one that was woken -/
structure Linked (s : State) : Prop where
  queued : ∀ i ∈ s.queue, ∃ t, s.threads[i]? = some t ∧ t.Blocked ∧ t.ready = false
  nodup : s.queue.Nodup
  linked : ∀ i t, s.threads[i]? = some t → t.Blocked → i ∈ s.queue
  ready : ∀ t ∈ s.threads, t.ready = true → (t.pc = .linked ∨ t.pc = .asleep) ∧ t.blocked = false

/-- a thread that is not in `futex_wait` is neither blocked nor on a run queue -/
theorem Linked.awake (h : Linked s) (ht : s.threads[i]? = some t) (hpc : t.pc ≠ .linked ∧ t.pc ≠ .asleep) :
    ¬ t.Blocked ∧ t.ready = false :=
  ⟨fun hb => hb.1.elim hpc.1 hpc.2, eq_false_iff.2 fun hr => (h.ready t (mem_of_getElem? ht) hr).1.elim hpc.1 hpc.2⟩

theorem Linked.set (h : Linked s) (ht : s.threads[i]? = some t) (hB : t'.Blocked ↔ t.Blocked)
    (hq : t.Blocked → t.ready = false → t'.ready = false)
    (hr : t'.ready = true → (t'.pc = .linked ∨ t'.pc = .asleep) ∧ t'.blocked = false) (word : ℕ) :
    Linked ({ s with word := word }.set i t') := by
  have hi : i < s.threads.length := (List.getElem?_eq_some_iff.1 ht).1
  have hself : (s.threads.set i t')[i]? = some t' := getElem?_set_self hi
  constructor
  · intro j hj
    obtain ⟨u, hu, hublocked, huready⟩ := h.queued j hj
    by_cases hij : i = j
    · subst hij
      obtain rfl : t = u := some.inj (ht.symm.trans hu)
      exact ⟨t', hself, hB.2 hublocked, hq hublocked huready⟩
    · exact ⟨u, (getElem?_set_ne hij).trans hu, hublocked, huready⟩
  · exact h.nodup
  · intro j u hu hublocked
    change (s.threads.set i t')[j]? = some u at hu
    by_cases hij : i = j
    · subst hij
      obtain rfl : t' = u := some.inj (hself.symm.trans hu)
      exact h.linked i t ht (hB.1 hublocked)
    · rw [getElem?_set_ne hij] at hu
      exact h.linked j u hu hublocked
  · exact forall_mem_set h.ready hr

theorem Linked.enqueue (h : Linked s) (ht : s.threads[i]? = some t) (hpc : t.pc = .enqueue) :
    Linked ({ s with queue := s.queue ++ [i] }.set i { t with pc := .linked, blocked := true }) := by
  have hi : i < s.threads.length := (List.getElem?_eq_some_iff.1 ht).1
  have hself : (s.threads.set i { t with pc := .linked, blocked := true })[i]? =
    some { t with pc := .linked, blocked := true } :=
    getElem?_set_self hi
  obtain ⟨hB, hready⟩ := h.awake ht (by rw [hpc]; decide)
  have hnot : i ∉ s.queue := by
    intro hmem
    obtain ⟨u, hu, hublocked, -⟩ := h.queued i hmem
    obtain rfl : t = u := some.inj (ht.symm.trans hu)
    exact hB hublocked
  constructor
  · intro j hj
    by_cases hij : i = j
    · subst hij
      exact ⟨_, hself, ⟨.inl rfl, rfl⟩, hready⟩
    · have hjq : j ∈ s.queue := by
        rcases mem_append.1 hj with hj | hj
        · exact hj
        · exact absurd (mem_singleton.1 hj).symm hij
      obtain ⟨u, hu, hublocked⟩ := h.queued j hjq
      exact ⟨u, (getElem?_set_ne hij).trans hu, hublocked⟩
  · exact h.nodup.append (nodup_singleton i) (disjoint_singleton.2 hnot)
  · intro j u hu hublocked
    by_cases hij : i = j
    · exact mem_append_right _ (mem_singleton.2 hij.symm)
    · change (s.threads.set i _)[j]? = some u at hu
      rw [getElem?_set_ne hij] at hu
      exact mem_append_left _ (h.linked j u hu hublocked)
  · exact forall_mem_set h.ready fun hr => absurd (hready.symm.trans hr) false_ne_true

theorem Linked.resume (h : Linked s) {before after : List ℕ} (hq : s.queue = before ++ i :: after) :
    Linked ⟨s.word, before ++ after, s.threads.modify i Thread.resume⟩ := by
  have hnodup := h.nodup
  rw [hq] at hnodup
  have hparts := nodup_middle.1 hnodup
  have hmem : ∀ j, j ∈ s.queue ↔ j = i ∨ j ∈ before ++ after := by
    intro j
    rw [hq, mem_append, mem_append, mem_cons]
    tauto
  constructor
  · intro j hj
    obtain ⟨u, hu, hublocked⟩ := h.queued j ((hmem j).2 (.inr hj))
    have hij : i ≠ j := by
      intro hij
      exact (nodup_cons.1 hparts).1 (hij ▸ hj)
    exact ⟨u, (getElem?_modify_ne _ _ hij).trans hu, hublocked⟩
  · exact (nodup_cons.1 hparts).2
  · intro j u hu hublocked
    rw [getElem?_modify] at hu
    obtain ⟨v, hv, rfl⟩ := map_eq_some_iff.1 hu
    by_cases hij : i = j
    · rw [if_pos hij] at hublocked
      cases hublocked.2
    · rw [if_neg hij] at hublocked
      exact ((hmem j).1 (h.linked j v hv hublocked)).resolve_left (Ne.symm hij)
  · intro u hu huready
    obtain ⟨j, hj⟩ := mem_iff_getElem?.1 hu
    rw [getElem?_modify] at hj
    obtain ⟨v, hv, rfl⟩ := map_eq_some_iff.1 hj
    by_cases hij : i = j
    · subst hij
      obtain ⟨w, hw, hwblocked, -⟩ := h.queued i ((hmem i).2 (.inl rfl))
      obtain rfl : w = v := some.inj (hw.symm.trans hv)
      rw [if_pos rfl]
      exact ⟨hwblocked.1, rfl⟩
    · rw [if_neg hij] at huready ⊢
      exact h.ready v (mem_of_getElem? hv) huready

theorem not_marks {a : Push × Push} (hd : ¬ delivers a = true) (hfull : a.1 ≠ .full ∧ a.2 ≠ .full) : ¬ marks a = true := by
  obtain ⟨p, p'⟩ := a
  cases p <;> cases p' <;> first | exact absurd rfl hd | exact absurd rfl hfull.1 | exact absurd rfl hfull.2 | decide

theorem wakeOne_delivered {tries : List (Push × Push)} {q : List ℕ} (ts : List Thread)
    (hd : ∃ k < q.length, delivers (tries.getD k (.ok, .ok)) = true) (hfull : ∀ a ∈ tries, a.1 ≠ .full ∧ a.2 ≠ .full) :
    ∃ before i after, q = before ++ i :: after ∧ wakeOne tries q ts = (before ++ after, ts.modify i Thread.resume) := by
  induction q generalizing tries with
  | nil =>
    obtain ⟨k, hk, -⟩ := hd
    exact absurd hk (Nat.not_lt_zero k)
  | cons j q ih =>
    unfold wakeOne
    simp only
    split_ifs with hfirst hmark
    · exact ⟨[], j, q, rfl, rfl⟩
    · -- a waiter marked and not pushed has met a full run queue
      exfalso
      cases tries with
      | nil => exact hfirst rfl
      | cons a tries =>
        exact not_marks hfirst (hfull a mem_cons_self) hmark
    · obtain ⟨k, hk, hdk⟩ := hd
      cases k with
      | zero =>
        refine absurd ?_ hfirst
        rwa [headD_eq_head?_getD, head?_eq_getElem?, ← getD_eq_getElem?_getD]
      | succ k =>
        have htail : tries.tail.getD k (.ok, .ok) = tries.getD (k + 1) (.ok, .ok) := by cases tries <;> rfl
        obtain ⟨before, i, after, rfl, hw⟩ := ih ⟨k, Nat.lt_of_succ_lt_succ hk, htail ▸ hdk⟩
          fun a ha => hfull a (mem_of_mem_tail ha)
        exact ⟨j :: before, i, after, rfl, by rw [hw]; rfl⟩

/-! ## Why a queue is not forgotten -/

/-- in `futex_wake`; with `woken`, the thread it woke counts too -/
def Thread.Waking (woken : Bool) (t : Thread) : Prop := t.pc = .wake ∨ woken = true ∧ (t.pc = .swap true ∨ t.ready = true)

/-- somebody will look after the waiters: the holder, who finds the word 2, or a wake under way -/
def Awaited (woken : Bool) (s : State) : Prop := s.queue ≠ [] → s.word = 2 ∨ ∃ t ∈ s.threads, t.Waking woken

theorem Awaited.set (h : Awaited woken s) (ht : s.threads[i]? = some t)
    (hU : s.word = 2 ∨ t.Waking woken → word = 2 ∨ t'.Waking woken) :
    Awaited woken ({ s with word := word }.set i t') := by
  have hnew : word = 2 ∨ t'.Waking woken → word = 2 ∨ ∃ u ∈ s.threads.set i t', u.Waking woken := by
    intro hor
    cases hor with
    | inl hword => exact .inl hword
    | inr hw => exact .inr ⟨t', mem_set (List.getElem?_eq_some_iff.1 ht).1 t', hw⟩
  intro hq
  rcases h hq with hword | ⟨u, hu, hw⟩
  · exact hnew (hU (.inl hword))
  · by_cases hut : u = t
    · subst hut
      exact hnew (hU (.inr hw))
    · exact .inr ⟨u, mem_set_of_ne ht hu hut, hw⟩

/-- what a thread between calls, or on its way into `futex_wait`, is not -/
theorem Linked.not_waking (h : Linked s) (ht : s.threads[i]? = some t)
    (hpc : t.pc ≠ .wake ∧ t.pc ≠ .swap true ∧ t.pc ≠ .linked ∧ t.pc ≠ .asleep) (woken : Bool) : ¬ t.Waking woken := by
  rintro (hw | ⟨-, hs | hr⟩)
  · exact hpc.1 hw
  · exact hpc.2.1 hs
  · exact false_ne_true ((h.awake ht hpc.2.2).2.symm.trans hr)

/-- the waiters of a state are linked and awaited -/
structure Inv (woken : Bool) (s : State) : Prop where
  linked : Linked s
  awaited : Awaited woken s

theorem Inv.set (h : Inv woken s) (ht : s.threads[i]? = some t)
    (hpc : t.pc ≠ .wake ∧ t.pc ≠ .swap true ∧ t.pc ≠ .linked ∧ t.pc ≠ .asleep) (hpc' : t'.pc ≠ .linked ∧ t'.pc ≠ .asleep)
    (hready : t'.ready = t.ready) (hword : s.word = 2 → word = 2 ∨ t'.pc = .wake) :
    Inv woken ({ s with word := word }.set i t') := by
  obtain ⟨hB, hold⟩ := h.linked.awake ht hpc.2.2
  have hB' : ¬ t'.Blocked := fun hb => hb.1.elim hpc'.1 hpc'.2
  refine ⟨h.linked.set ht (iff_of_false hB' hB) (fun hb => absurd hb hB) ?_ word, h.awaited.set ht ?_⟩
  · intro hr
    rw [hready, hold] at hr
    cases hr
  · rintro (hw | hw)
    · exact (hword hw).imp_right .inl
    · exact absurd hw (h.linked.not_waking ht hpc woken)

theorem inv_wake (h : Inv woken s) (ht : s.threads[i]? = some t) (hpc : t.pc = .wake) {tries : List (Push × Push)}
    (hd : Delivered s (.step i tries)) (hfew : woken = false → FewWaiters s (.step i tries)) :
    Inv woken ((⟨s.word, (wakeOne tries s.queue s.threads).1, (wakeOne tries s.queue s.threads).2⟩ : State).set i
      { t with pc := .idle }) := by
  obtain ⟨hB, hready⟩ := h.linked.awake ht (by rw [hpc]; decide)
  have hset : ∀ {s' : State}, Linked s' → s'.threads[i]? = some t → Linked (s'.set i { t with pc := .idle }) := by
    intro s' hl hget
    refine hl.set hget (iff_of_false ?_ hB) (fun hb => absurd hb hB) ?_ s'.word
    · intro hb
      cases hb.1 <;> contradiction
    · intro hr
      exact absurd (hready.symm.trans hr) false_ne_true
  by_cases hq : s.queue = []
  · have hnone : wakeOne tries s.queue s.threads = ([], s.threads) := by rw [hq]; rfl
    rw [hnone]
    have hs : Linked ⟨s.word, [], s.threads⟩ := hq ▸ h.linked
    exact ⟨hset hs ht, fun hne => absurd rfl hne⟩
  · have hwakes : s.wakes (.step i tries) = true := by
      change s.threads[i]?.any _ = true
      rw [ht, any_some, hpc]
      rfl
    obtain ⟨hsome, hfull⟩ := hd hwakes hq
    obtain ⟨before, j, after, hsplit, hw⟩ := wakeOne_delivered s.threads hsome hfull
    rw [hw]
    obtain ⟨u, hu, hublocked, -⟩ := h.linked.queued j (hsplit ▸ mem_append_right _ mem_cons_self)
    -- the thread that wakes is not the one it wakes
    have hij : j ≠ i := by
      intro hij
      obtain rfl : t = u := some.inj (ht.symm.trans (hij ▸ hu))
      exact hB hublocked
    have hget : (s.threads.modify j Thread.resume)[i]? = some t := (getElem?_modify_ne _ _ hij).trans ht
    refine ⟨hset (h.linked.resume hsplit) hget, ?_⟩
    intro hne
    cases woken with
    | true =>
      refine .inr ⟨u.resume, ?_, .inr ⟨rfl, .inr rfl⟩⟩
      apply mem_of_getElem? (i := j)
      change ((s.threads.modify j Thread.resume).set i _)[j]? = _
      rw [getElem?_set_ne (Ne.symm hij), getElem?_modify_eq, hu]
      rfl
    | false =>
      refine .inl ((hfew rfl hwakes).resolve_left ?_)
      intro hlen
      have hpos : 0 < (before ++ after).length := length_pos_iff.2 hne
      rw [hsplit, length_append, length_cons] at hlen
      rw [length_append] at hpos
      omega

theorem inv_step (woken : Bool) (s : State) (a : Act) (s' : State) (h : Inv woken s)
    (hC : Delivered s a ∧ (woken = false → FewWaiters s a)) (hstep : step s a = some s') : Inv woken s' := by
  cases a with
  | lock i | tryLock i =>
    obtain ⟨t, ht, hstep⟩ := bind_eq_some_iff.1 hstep
    split_ifs at hstep with hpc
    cases hstep
    exact h.set ht (by rw [hpc]; decide) (by simp) (by rfl) .inl
  | step i tries =>
    obtain ⟨t, ht, hstep⟩ := bind_eq_some_iff.1 hstep
    unfold stepThread at hstep
    generalize hpc : t.pc = pc at hstep
    cases pc with
    | idle => cases hstep
    | fast | tryLock =>
      cases hstep
      split_ifs with hword
      · exact h.set ht (by rw [hpc]; decide) (by simp) (by rfl) fun hw => absurd (hword.symm.trans hw) (by decide)
      · exact h.set ht (by rw [hpc]; decide) (by simp) (by rfl) .inl
    | swap w =>
      cases hstep
      obtain ⟨hold, hready⟩ := h.linked.awake ht (by rw [hpc]; exact ⟨nofun, nofun⟩)
      refine ⟨h.linked.set ht (iff_of_false ?_ hold) (fun hb => absurd hb hold) ?_ 2, h.awaited.set ht fun _ => .inl rfl⟩
      · rintro ⟨hpc', -⟩
        dsimp only at hpc'
        split_ifs at hpc' <;> rcases hpc' with h | h <;> cases h
      · intro hr
        exact absurd (hready.symm.trans hr) false_ne_true
    | load =>
      cases hstep
      exact h.set ht (by rw [hpc]; decide) (by dsimp only; split_ifs <;> decide) (by rfl) .inl
    | enqueue =>
      cases hstep
      split_ifs with hword
      · exact ⟨h.linked.enqueue ht hpc, fun _ => .inl hword⟩
      · exact h.set ht (by rw [hpc]; decide) (by simp) (by rfl) .inl
    | linked =>
      cases hstep
      refine ⟨h.linked.set ht ?_ ?_ ?_ s.word, h.awaited.set ht ?_⟩
      · exact ⟨fun hb => ⟨.inl hpc, hb.2⟩, fun hb => ⟨.inr rfl, hb.2⟩⟩
      · intro hb hr
        simp [hb.2, hr]
      · intro hr
        refine ⟨.inr rfl, ?_⟩
        rcases or_eq_true_iff.1 hr with hr | hr
        · exact (h.linked.ready t (mem_of_getElem? ht) hr).2
        · simpa using hr
      · rintro (hw | hw | ⟨hwoken, hs | hr⟩)
        · exact .inl hw
        · rw [hpc] at hw
          cases hw
        · rw [hpc] at hs
          cases hs
        · exact .inr (.inr ⟨hwoken, .inr (by simp [hr])⟩)
    | asleep =>
      dsimp only at hstep
      split_ifs at hstep with hready
      cases hstep
      have hold : ¬ t.Blocked := by
        intro hb
        have hfree := (h.linked.ready t (mem_of_getElem? ht) hready).2
        exact absurd (hfree.symm.trans hb.2) false_ne_true
      refine ⟨h.linked.set ht (iff_of_false ?_ hold) (fun _ _ => rfl) (by nofun) s.word, h.awaited.set ht ?_⟩
      · intro hb
        cases hb.1 <;> contradiction
      · rintro (hw | hw | ⟨hwoken, -⟩)
        · exact .inl hw
        · rw [hpc] at hw
          cases hw
        · exact .inr (.inr ⟨hwoken, .inl rfl⟩)
    | holds =>
      cases hstep
      exact h.set ht (by rw [hpc]; decide) (by dsimp only; split_ifs <;> decide) (by rfl) fun hw => .inr (if_pos hw)
    | wake =>
      cases hstep
      exact inv_wake h ht hpc hC.1 hC.2

theorem inv_new (woken : Bool) (n : ℕ) : Inv woken (State.new n) := by
  have hidle : ∀ t ∈ (State.new n).threads, t = ⟨.idle, false, false⟩ := fun t ht => eq_of_mem_replicate ht
  refine ⟨⟨nofun, nodup_nil, ?_, ?_⟩, fun hne => absurd rfl hne⟩
  · intro i t ht hb
    rw [hidle t (mem_of_getElem? ht)] at hb
    cases hb.2
  · intro t ht hr
    rw [hidle t ht] at hr
    cases hr

theorem Inv.unstranded (h : Inv woken s) (hnone : ∀ t ∈ s.threads, ¬ t.Waking woken) : s.Unstranded := by
  intro hword t ht hb
  obtain ⟨i, hi⟩ := mem_iff_getElem?.1 ht
  have hq : s.queue ≠ [] := ne_nil_of_mem (h.linked.linked i t hi hb)
  rcases h.awaited hq with htwo | ⟨u, hu, hw⟩
  · exact absurd (hword.symm.trans htwo) (by decide)
  · exact hnone u hu hw

/-- **The mutex over every run.** At most one thread holds it. In a run whose wakes all deliver, nobody is blocked on a
free mutex unless a thread is in `futex_wake` or comes from one; if each wake also finds at most one waiter, unless a
thread is in `futex_wake`. -/
theorem kmutex_run (n : ℕ) (as : List Act) (s : State) (hrun : run (State.new n) as = some s) :
    s.holders ≤ 1 ∧
      (Meets step Delivered (State.new n) as →
        ((∀ t ∈ s.threads, ¬ t.Unlocking) → s.Unstranded) ∧
        (Meets step FewWaiters (State.new n) as → (∀ t ∈ s.threads, t.pc ≠ .wake) → s.Unstranded)) := by
  refine ⟨holders_le_one hrun, fun hd => ⟨fun hnone => ?_, fun hfew hnone => ?_⟩⟩
  · have hmeets : Meets step (fun s a => Delivered s a ∧ (true = false → FewWaiters s a)) (State.new n) as :=
      hd.mono fun s a h => ⟨h, nofun⟩
    have hinv := run_inv (Inv true) (inv_step true) (inv_new true n) hmeets hrun
    refine hinv.unstranded fun t ht hw => hnone t ht ?_
    exact hw.imp_right And.right
  · have hmeets : Meets step (fun s a => Delivered s a ∧ (false = false → FewWaiters s a)) (State.new n) as :=
      (hd.and hfew).mono fun s a h => ⟨h.1, fun _ => h.2⟩
    have hinv := run_inv (Inv false) (inv_step false) (inv_new false n) hmeets hrun
    refine hinv.unstranded fun t ht hw => ?_
    rcases hw with hw | ⟨hf, -⟩
    · exact hnone t ht hw
    · cases hf

/-- thread 0 holds the mutex, thread 1 comes to wait for it, and thread 0 unlocks; `tries` are the attempts of the wake -/
def contention (tries : List (Push × Push)) : List Act :=
  [.lock 0, .step 0 [], .lock 1, .step 1 [], .step 1 [], .step 1 [], .step 1 [], .step 1 [], .step 0 [], .step 0 tries]

/-- the waiter is pushed at the first attempt, and comes to hold the mutex -/
theorem waiter_takes_over :
    ∃ as s, as = contention [(.ok, .ok)] ++ [.step 1 [], .step 1 []] ∧ run (State.new 2) as = some s ∧
      Meets step Delivered (State.new 2) as ∧ Meets step FewWaiters (State.new 2) as ∧
      (∀ t ∈ s.threads, t.pc ≠ .wake) ∧ s.holders = 1 ∧ s.Unstranded := by
  obtain ⟨s, hs, hnone, hone⟩ : ∃ s, run (State.new 2) (contention [(.ok, .ok)] ++ [.step 1 [], .step 1 []]) = some s ∧
      (∀ t ∈ s.threads, t.pc ≠ .wake) ∧ s.holders = 1 := by decide +kernel
  have hd : Meets step Delivered (State.new 2) (contention [(.ok, .ok)] ++ [.step 1 [], .step 1 []]) := by decide +kernel
  have hfew : Meets step FewWaiters (State.new 2) (contention [(.ok, .ok)] ++ [.step 1 [], .step 1 []]) := by
    decide +kernel
  exact ⟨_, s, rfl, hs, hd, hfew, hnone, hone, ((kmutex_run 2 _ s hs).2 hd).2 hfew hnone⟩

/-- both attempts find CPU 0's scheduler lock taken: the mutex is free, nobody is in an unlock, and thread 1 is blocked
on it -/
theorem undelivered_wake_strands :
    ∃ s, run (State.new 2) (contention [(.contended, .contended)]) = some s ∧ s.word = 0 ∧ s.holders = 0 ∧
      (∀ t ∈ s.threads, ¬ t.Unlocking) ∧ (∃ t, s.threads[1]? = some t ∧ t.Blocked) ∧ ¬ s.Unstranded := by
  decide +kernel

end Rumicos.Sched.KMutex
