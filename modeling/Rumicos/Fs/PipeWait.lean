/-
Who sleeps on a pipe.

A reader sleeps on an empty ring and a writer on a full one; the thread that ends this state increments the sleeper's
generation counter and wakes one waiter, and the last close of an end wakes all waiters of the other. The wakes are
edge-triggered: a write into a ring that is not empty wakes nobody.

- `Accounted`, `accounted_moves`: while each `wake_one` finds at most one waiter, every queue that is not empty has a
  reason: the ring is not ready, or a notifier is between its ring section and its wake.
-/
import Rumicos.Fs.Pipe

namespace Rumicos.Fs.Pipes

open Lib Function List Option

/-! ## Sleepers -/

/-- no call is on its way: each has returned or sleeps -/
def Quiet (s : State) : Prop := ∀ c ∈ s.calls, c.pc = .blocked ∨ ∃ ret, c.pc = .returned ret

/-- nothing is under way, and a call sleeps that could go on, or whose other end is closed -/
def Stranded (s : State) : Prop :=
  Quiet s ∧ ∃ c ∈ s.calls, c.pc = .blocked ∧ (s.pipe.ready c.side = true ∨ s.pipe.refs c.side.other = 0)

def Call.settled (c : Call) : Bool :=
  match c.pc with
  | .blocked | .returned _ => true
  | _ => false

theorem settled_iff {c : Call} : c.settled = true ↔ c.pc = .blocked ∨ ∃ ret, c.pc = .returned ret := by
  unfold Call.settled
  split <;> simp_all

instance (s : State) : Decidable (Quiet s) :=
  decidable_of_iff (∀ c ∈ s.calls, c.settled = true) (forall₂_congr fun _ _ => settled_iff)

instance (s : State) : Decidable (Stranded s) := by unfold Stranded; infer_instance

/-- the call has something to move -/
def Op.moves : Op → Bool
  | .read cap => 0 < cap
  | .write src => src ≠ []
  | .close _ => true

def Op.isClose : Op → Bool
  | .close _ => true
  | _ => false

/-- a `wake_one` comes when at most one call waits -/
def Call.wakeOk (s : State) (c : Call) : Bool :=
  match c.pc with
  | .wake _ => c.op.isClose || (s.pipe.waiters c.side.other).length ≤ 1
  | _ => true

/-- fewer than 2^32 events since the call sampled its counter -/
def Call.fresh (s : State) (c : Call) : Bool :=
  match c.pc with
  | .decide snap => s.pipe.seq c.side < snap + 2 ^ 32
  | _ => true

/-- calls have non-empty buffers, a `wake_one` finds at most one waiter, and the counters do not wrap around unnoticed -/
def WakeOk (s : State) : Act → Prop
  | .call op => op.moves = true
  | .resume i => ∀ c ∈ s.calls[i]?, c.wakeOk s = true ∧ c.fresh s = true

instance (s : State) (a : Act) : Decidable (WakeOk s a) := by
  unfold WakeOk
  split <;> infer_instance

/-! ## The reason of each sleeper -/

/-- a call is between its ring section (or its `dec_ref`) and its wake of side `d` -/
def Notifies (c : Call) (d : Side) (close : Bool) : Prop :=
  c.side = d.other ∧ c.op.isClose = close ∧ ∃ ret, c.pc = .publish ret ∨ c.pc = .wake ret

/-- it has not yet incremented the counter of side `d` -/
def Publishes (c : Call) (d : Side) (close : Bool) : Prop :=
  c.side = d.other ∧ c.op.isClose = close ∧ ∃ ret, c.pc = .publish ret

/-- the counter value a call goes by -/
def Call.snap (c : Call) : Option ℕ :=
  match c.pc with
  | .ring n | .count n | .decide n => some n
  | _ => none

structure Accounted (s : State) : Prop where
  moves : ∀ c ∈ s.calls, c.op.moves = true
  queued : ∀ d k, k ∈ s.pipe.waiters d → ∃ c, s.calls[k]? = some c ∧ c.side = d ∧ c.pc = .blocked
  blocked : ∀ k c, s.calls[k]? = some c → c.pc = .blocked → k ∈ s.pipe.waiters c.side
  nodup : ∀ d, (s.pipe.waiters d).Nodup
  snap : ∀ c ∈ s.calls, ∀ n, c.snap = some n → n ≤ s.pipe.seq c.side
  /-- a call that found the ring not ready: it still is, or the event is counted or about to be -/
  seen : ∀ c ∈ s.calls, ∀ n, c.pc = .count n ∨ c.pc = .decide n →
    s.pipe.ready c.side = false ∨ n < s.pipe.seq c.side ∨ ∃ p ∈ s.calls, Publishes p c.side false
  /-- a call that found the other end open: it still is, or the close is counted or about to be -/
  peers : ∀ c ∈ s.calls, ∀ n, c.pc = .decide n →
    s.pipe.refs c.side.other ≠ 0 ∨ n < s.pipe.seq c.side ∨ ∃ p ∈ s.calls, Publishes p c.side true
  /-- a queue that is not empty has its reasons -/
  asleep : ∀ d, s.pipe.waiters d ≠ [] →
    (s.pipe.ready d = false ∨ ∃ p ∈ s.calls, Notifies p d false) ∧
      (s.pipe.refs d.other ≠ 0 ∨ ∃ p ∈ s.calls, Notifies p d true)

theorem accounted_new (data : PipeData) (refs : Side → ℕ) : Accounted (State.new data refs) where
  moves := by simp [State.new]
  queued := by simp [State.new, Pipe.new]
  blocked := by simp [State.new]
  nodup := by simp [State.new, Pipe.new]
  snap := by simp [State.new]
  seen := by simp [State.new]
  peers := by simp [State.new]
  asleep := by simp [State.new, Pipe.new]

theorem Accounted.not_stranded {s : State} (h : Accounted s) : ¬ Stranded s := by
  rintro ⟨hq, c, hc, hpc, hbad⟩
  obtain ⟨k, hk⟩ := mem_iff_getElem?.1 hc
  have hne : s.pipe.waiters c.side ≠ [] := ne_nil_of_mem (h.blocked k c hk hpc)
  have hno : ∀ close, ¬ ∃ p ∈ s.calls, Notifies p c.side close := by
    rintro close ⟨p, hp, -, -, ret, hpp⟩
    have := hq p hp
    rcases hpp with hpp | hpp
    · simp [hpp] at this
    · simp [hpp] at this
  obtain ⟨h1, h2⟩ := h.asleep c.side hne
  rcases hbad with hbad | hbad
  · exact absurd hbad (by simp [h1.resolve_right (hno false)])
  · exact h2.resolve_right (hno true) hbad

/-! ## Steps that move one call -/

variable {c' x : Call}

section Steps

variable {s s' : State} {i : ℕ} {c : Call} {d : Side} {close : Bool}

theorem Publishes.notifies (h : Publishes c d close) : Notifies c d close := by
  obtain ⟨h1, h2, ret, h3⟩ := h
  exact ⟨h1, h2, ret, .inl h3⟩

theorem keep_publishes (hi : s.calls[i]? = some c) (hc : ∀ ret, c.pc ≠ .publish ret)
    (h : ∃ p ∈ s.calls, Publishes p d close) : ∃ p ∈ s.calls.set i c', Publishes p d close := by
  obtain ⟨p, hp, hpub⟩ := h
  refine ⟨p, mem_set_of_ne hi hp ?_, hpub⟩
  rintro rfl
  obtain ⟨-, -, ret, hpc⟩ := hpub
  exact hc ret hpc

theorem keep_notifies (hi : s.calls[i]? = some c) (hc : ∀ ret, c.pc ≠ .publish ret ∧ c.pc ≠ .wake ret)
    (h : ∃ p ∈ s.calls, Notifies p d close) : ∃ p ∈ s.calls.set i c', Notifies p d close := by
  obtain ⟨p, hp, hnot⟩ := h
  refine ⟨p, mem_set_of_ne hi hp ?_, hnot⟩
  rintro rfl
  obtain ⟨-, -, ret, hpc | hpc⟩ := hnot
  · exact (hc ret).1 hpc
  · exact (hc ret).2 hpc

theorem mem_set_cases (hx : x ∈ s.calls.set i c') : x = c' ∨ x ∈ s.calls :=
  (mem_or_eq_of_mem_set hx).symm

/-- what a call that has looked at the ring or the other end goes by -/
def Call.Justified (s : State) (c : Call) : Prop :=
  (∀ n, c.snap = some n → n ≤ s.pipe.seq c.side) ∧
  (∀ n, c.pc = .count n ∨ c.pc = .decide n →
    s.pipe.ready c.side = false ∨ n < s.pipe.seq c.side ∨ ∃ p ∈ s.calls, Publishes p c.side false) ∧
  ∀ n, c.pc = .decide n → s.pipe.refs c.side.other ≠ 0 ∨ n < s.pipe.seq c.side ∨ ∃ p ∈ s.calls, Publishes p c.side true

theorem justified_of_snap (h : c.snap = none) : c.Justified s := by
  refine ⟨fun n hn => ?_, fun n hn => ?_, fun n hn => ?_⟩
  · rw [h] at hn
    cases hn
  · rcases hn with hn | hn <;> simp [Call.snap, hn] at h
  · simp [Call.snap, hn] at h

/-- the reasons of the sleepers of side `d` -/
def Awaited (s : State) (d : Side) : Prop :=
  (s.pipe.ready d = false ∨ ∃ p ∈ s.calls, Notifies p d false) ∧
    (s.pipe.refs d.other ≠ 0 ∨ ∃ p ∈ s.calls, Notifies p d true)

section

variable (h : Accounted s)
include h

/-- **What a step must not forget.** New calls are justified, the queues are exact, and an event that ends a reason is
published or counted. -/
theorem Accounted.carry (hcalls : ∀ x ∈ s'.calls, x ∈ s.calls ∨ x.op.moves = true ∧ x.Justified s')
    (hqueued : ∀ d k, k ∈ s'.pipe.waiters d → ∃ c, s'.calls[k]? = some c ∧ c.side = d ∧ c.pc = .blocked)
    (hblocked : ∀ k c, s'.calls[k]? = some c → c.pc = .blocked → k ∈ s'.pipe.waiters c.side)
    (hnodup : ∀ d, (s'.pipe.waiters d).Nodup) (hseq : ∀ d, s.pipe.seq d ≤ s'.pipe.seq d)
    (hpub : ∀ d close, (∃ p ∈ s.calls, Publishes p d close) →
      s.pipe.seq d < s'.pipe.seq d ∨ ∃ p ∈ s'.calls, Publishes p d close)
    (hready : ∀ d, s.pipe.ready d = false → s'.pipe.ready d = false ∨ ∃ p ∈ s'.calls, Publishes p d false)
    (hrefs : ∀ d, s.pipe.refs d.other ≠ 0 → s'.pipe.refs d.other ≠ 0 ∨ ∃ p ∈ s'.calls, Publishes p d true)
    (hasleep : ∀ d, s'.pipe.waiters d ≠ [] → Awaited s' d ∨ s.pipe.waiters d ≠ [] ∧
      ∀ close, (∃ p ∈ s.calls, Notifies p d close) → ∃ p ∈ s'.calls, Notifies p d close) : Accounted s' := by
  have hjust : ∀ x ∈ s'.calls, x.Justified s' := by
    intro x hx
    rcases hcalls x hx with hx | ⟨-, hx⟩
    · -- an event that was counted or about to be still is
      have hlater : ∀ n close, x.snap = some n → (n < s.pipe.seq x.side ∨ ∃ p ∈ s.calls, Publishes p x.side close) →
          n < s'.pipe.seq x.side ∨ ∃ p ∈ s'.calls, Publishes p x.side close := by
        rintro n close hn (hlt | hp)
        · exact .inl (hlt.trans_le (hseq _))
        · exact (hpub _ _ hp).imp_left (h.snap x hx n hn).trans_lt
      refine ⟨fun n hn => (h.snap x hx n hn).trans (hseq _), fun n hn => ?_, fun n hn => ?_⟩
      · have hsnap : x.snap = some n := by rcases hn with hn | hn <;> simp [Call.snap, hn]
        rcases h.seen x hx n hn with hr | hs
        · exact (hready _ hr).imp_right .inr
        · exact .inr (hlater n _ hsnap hs)
      · rcases h.peers x hx n hn with hr | hs
        · exact (hrefs _ hr).imp_right .inr
        · exact .inr (hlater n _ (by simp [Call.snap, hn]) hs)
    · exact hx
  refine ⟨fun x hx => ?_, hqueued, hblocked, hnodup, fun x hx => (hjust x hx).1, fun x hx => (hjust x hx).2.1,
    fun x hx => (hjust x hx).2.2, fun d hd => ?_⟩
  · exact (hcalls x hx).elim (h.moves x) And.left
  · rcases hasleep d hd with hd | ⟨hd, hnot⟩
    · exact hd
    obtain ⟨h1, h2⟩ := h.asleep d hd
    have hpn : ∀ close, (∃ p ∈ s'.calls, Publishes p d close) → ∃ p ∈ s'.calls, Notifies p d close :=
      fun _ ⟨p, hp, hpub⟩ => ⟨p, hp, hpub.notifies⟩
    constructor
    · rcases h1 with hr | hp
      · exact (hready d hr).imp_right (hpn false)
      · exact .inr (hnot false hp)
    · rcases h2 with hr | hp
      · exact (hrefs d hr).imp_right (hpn true)
      · exact .inr (hnot true hp)

/-- a step that moves call `c` between places where it does not sleep -/
theorem accounted_set (hi : s.calls[i]? = some c) (hb : c.pc ≠ .blocked) {pc : Pc} (hb' : pc ≠ .blocked)
    (hcalls : s'.calls = s.calls.set i { c with pc := pc }) (hw : s'.pipe.waiters = s.pipe.waiters)
    (hseq : ∀ d, s.pipe.seq d ≤ s'.pipe.seq d)
    (hpub : ∀ d close, (∃ p ∈ s.calls, Publishes p d close) →
      s.pipe.seq d < s'.pipe.seq d ∨ ∃ p ∈ s'.calls, Publishes p d close)
    (hnot : ∀ d close, (∃ p ∈ s.calls, Notifies p d close) → ∃ p ∈ s'.calls, Notifies p d close)
    (hready : ∀ d, s.pipe.ready d = false → s'.pipe.ready d = false ∨ ∃ p ∈ s'.calls, Publishes p d false)
    (hrefs : ∀ d, s.pipe.refs d.other ≠ 0 → s'.pipe.refs d.other ≠ 0 ∨ ∃ p ∈ s'.calls, Publishes p d true)
    (hjust : ({ c with pc := pc } : Call).Justified s') : Accounted s' := by
  refine h.carry (fun x hx => ?_) (fun d k hk => ?_) (fun k x hx hpc => ?_) (fun d => ?_) hseq hpub hready hrefs
    fun d hd => .inr ⟨by rwa [hw] at hd, hnot d⟩
  · rw [hcalls] at hx
    rcases mem_set_cases hx with rfl | hx
    · exact .inr ⟨h.moves c (mem_of_getElem? hi), hjust⟩
    · exact .inl hx
  · rw [hw] at hk
    obtain ⟨x, hx, hside, hpc⟩ := h.queued d k hk
    refine ⟨x, ?_, hside, hpc⟩
    have hik : i ≠ k := by
      rintro rfl
      exact hb (some.inj (hi.symm.trans hx) ▸ hpc)
    rw [hcalls, getElem?_set_ne hik]
    exact hx
  · rw [hcalls] at hx
    rw [hw]
    rcases getElem?_set_cases hx with ⟨-, rfl⟩ | ⟨-, hx⟩
    · exact absurd hpc hb'
    · exact h.blocked k x hx hpc
  · rw [hw]
    exact h.nodup d

/-- a step that only moves call `c`, from a place where it neither sleeps nor notifies -/
theorem accounted_goto (hi : s.calls[i]? = some c) (hb : c.pc ≠ .blocked)
    (hn : ∀ ret, c.pc ≠ .publish ret ∧ c.pc ≠ .wake ret) {pc : Pc} (hb' : pc ≠ .blocked)
    (hjust : ({ c with pc := pc } : Call).Justified { s with calls := s.calls.set i { c with pc := pc } }) :
    Accounted { s with calls := s.calls.set i { c with pc := pc } } :=
  accounted_set h hi hb hb' rfl rfl (fun _ => le_rfl) (fun _ _ hp => .inr (keep_publishes hi (fun ret => (hn ret).1) hp))
    (fun _ _ => keep_notifies hi hn) (fun _ hr => .inl hr) (fun _ hr => .inl hr) hjust

theorem accounted_release (hi : s.calls[i]? = some c) (hop : c.op = .close d) (hpc : c.pc = .start)
    (hd : s.pipe.refs d ≠ 0) :
    Accounted { s with
      pipe := { s.pipe with refs := update s.pipe.refs d (s.pipe.refs d - 1) }
      calls := s.calls.set i { c with pc := if s.pipe.refs d = 1 then .publish 0 else .returned 0 } } := by
  obtain ⟨hlt, -⟩ := List.getElem?_eq_some_iff.1 hi
  refine accounted_set h hi (by simp [hpc]) ?_ rfl rfl (fun _ => le_rfl)
    (fun d' close hp => .inr (keep_publishes hi (by simp [hpc]) hp))
    (fun d' close hp => keep_notifies hi (by simp [hpc]) hp) (fun _ hr => .inl hr) (fun d' hr => ?_) (justified_of_snap ?_)
  · split_ifs <;> simp
  · by_cases hdd : d'.other = d
    · subst hdd
      by_cases h1 : s.pipe.refs d'.other = 1
      · -- the last descriptor: the closer goes on to wake the other side
        refine .inr ⟨_, mem_set hlt _, ?_, ?_, 0, ?_⟩
        · simp [Call.side, hop, Op.side]
        · simp [hop, Op.isClose]
        · simp [h1]
      · left
        simp only [update_self]
        omega
    · left
      simpa only [update_of_ne hdd] using hr
  · unfold Call.snap
    split_ifs <;> rfl

/-- the section of a transfer: nothing moved because the side was not ready, or the edge was noticed -/
theorem accounted_section (hi : s.calls[i]? = some c) {snap n : ℕ} (hpc : c.pc = .ring snap)
    (hop : c.op.isClose = false) {edge : Bool}
    (hcalls : s'.calls = s.calls.set i { c with pc := afterSection snap n edge })
    (hw : s'.pipe.waiters = s.pipe.waiters) (hseq : s'.pipe.seq = s.pipe.seq) (hrefs : s'.pipe.refs = s.pipe.refs)
    (hnone : n = 0 → s'.pipe.ring = s.pipe.ring ∧ s.pipe.ready c.side = false)
    (hedge : 0 < n → s.pipe.ready c.side = true ∧ edge = !s.pipe.ready c.side.other) : Accounted s' := by
  obtain ⟨hlt, -⟩ := List.getElem?_eq_some_iff.1 hi
  have hready : ∀ d, s'.pipe.ring = s.pipe.ring → s'.pipe.ready d = s.pipe.ready d := by
    intro d hr
    cases d <;> simp [Pipe.ready, hr]
  refine accounted_set h hi (by simp [hpc]) ?_ hcalls hw (fun d => by rw [hseq]) (fun d close hp => .inr ?_)
    (fun d close hp => ?_) (fun d hr => ?_) (fun d hr => .inl (by rwa [hrefs])) ?_
  · unfold afterSection
    split_ifs <;> simp
  · rw [hcalls]
    exact keep_publishes hi (by simp [hpc]) hp
  · rw [hcalls]
    exact keep_notifies hi (by simp [hpc]) hp
  · rcases Nat.eq_zero_or_pos n with hn | hn
    · exact .inl ((hready d (hnone hn).1).trans hr)
    -- only the other side can have been not ready; its edge is published
    obtain ⟨hside, rfl⟩ := hedge hn
    rcases Side.eq_or_eq_other c.side d with rfl | rfl
    · exact absurd hside (by simp [hr])
    · right
      have hto : afterSection snap n (!s.pipe.ready c.side.other) = .publish n := by simp [afterSection, hn, hr]
      refine ⟨{ c with pc := .publish n }, ?_, (Side.other_other _).symm, hop, n, rfl⟩
      rw [hcalls, hto]
      exact mem_set hlt _
  · rcases Nat.eq_zero_or_pos n with rfl | hn
    · obtain ⟨hring, hnot⟩ := hnone rfl
      refine ⟨fun m hm => ?_, fun m _ => .inl ((hready _ hring).trans hnot), fun m hm => ?_⟩
      · obtain rfl : snap = m := by simpa [Call.snap, afterSection] using hm
        rw [hseq]
        exact h.snap c (mem_of_getElem? hi) snap (by simp [Call.snap, hpc])
      · simp [afterSection] at hm
    · apply justified_of_snap
      unfold Call.snap afterSection
      split_ifs <;> rfl

theorem accounted_publish (hi : s.calls[i]? = some c) {ret : ℤ} (hpc : c.pc = .publish ret) :
    Accounted { s with
      pipe := { s.pipe with seq := update s.pipe.seq c.side.other (s.pipe.seq c.side.other + 1) }
      calls := s.calls.set i { c with pc := .wake ret } } := by
  obtain ⟨hlt, -⟩ := List.getElem?_eq_some_iff.1 hi
  have hseq : ∀ d, s.pipe.seq d ≤ update s.pipe.seq c.side.other (s.pipe.seq c.side.other + 1) d := by
    intro d
    by_cases hd : d = c.side.other
    · subst hd
      rw [update_self]
      omega
    · rw [update_of_ne hd]
  refine accounted_set h hi (by simp [hpc]) (by simp) rfl rfl hseq (fun d close hp => ?_) (fun d close hp => ?_)
    (fun _ hr => .inl hr) (fun _ hr => .inl hr) (justified_of_snap rfl)
  · obtain ⟨p, hp, hpub⟩ := hp
    by_cases hpe : p = c
    · subst hpe
      left
      have hd : d = p.side.other := by rw [hpub.1, Side.other_other]
      subst hd
      simp
    · exact .inr ⟨p, mem_set_of_ne hi hp hpe, hpub⟩
  · obtain ⟨p, hp, hnot⟩ := hp
    by_cases hpe : p = c
    · subst hpe
      exact ⟨_, mem_set hlt _, hnot.1, hnot.2.1, ret, .inr rfl⟩
    · exact ⟨p, mem_set_of_ne hi hp hpe, hnot⟩

/-! ## Falling asleep and waking -/

theorem Accounted.not_queued {k : ℕ} (hx : s.calls[k]? = some x) (hb : x.pc ≠ .blocked) (d : Side) :
    k ∉ s.pipe.waiters d := by
  intro hmem
  obtain ⟨y, hy, -, hypc⟩ := h.queued d k hmem
  exact hb (some.inj (hx.symm.trans hy) ▸ hypc)

theorem accounted_block (hi : s.calls[i]? = some c) {snap : ℕ} (hpc : c.pc = .decide snap)
    (hseq : s.pipe.seq c.side = snap) :
    Accounted { s with
      pipe := { s.pipe with waiters := update s.pipe.waiters c.side (s.pipe.waiters c.side ++ [i]) }
      calls := s.calls.set i { c with pc := .blocked } } := by
  have hc : c ∈ s.calls := mem_of_getElem? hi
  obtain ⟨hlt, -⟩ := List.getElem?_eq_some_iff.1 hi
  have hpub : ∀ d close, (∃ p ∈ s.calls, Publishes p d close) →
      ∃ p ∈ s.calls.set i { c with pc := .blocked }, Publishes p d close :=
    fun d close => keep_publishes hi (by simp [hpc])
  have hfresh := h.not_queued hi (by simp [hpc])
  refine h.carry (fun x hx => ?_) (fun d k hk => ?_) (fun k x hx hxpc => ?_) (fun d => ?_) (fun _ => le_rfl)
    (fun d close hp => .inr (hpub d close hp)) (fun _ hr => .inl hr) (fun _ hr => .inl hr) fun d hd => ?_
  · rcases mem_set_cases hx with rfl | hx
    · exact .inr ⟨h.moves c hc, justified_of_snap rfl⟩
    · exact .inl hx
  · by_cases hik : i = k
    · subst hik
      refine ⟨_, getElem?_set_self hlt, ?_, rfl⟩
      by_contra hd
      have hdc : d ≠ c.side := fun he => hd he.symm
      have hk' : i ∈ s.pipe.waiters d := by simpa only [update_of_ne hdc] using hk
      exact hfresh d hk'
    · have hk' : k ∈ s.pipe.waiters d := by
        by_cases hd : d = c.side
        · subst hd
          rcases mem_append.1 (by simpa only [update_self] using hk) with hk | hk
          · exact hk
          · exact absurd (mem_singleton.1 hk).symm hik
        · simpa only [update_of_ne hd] using hk
      obtain ⟨x, hx, hside, hxpc⟩ := h.queued d k hk'
      exact ⟨x, (getElem?_set_ne hik).trans hx, hside, hxpc⟩
  · rcases getElem?_set_cases hx with ⟨rfl, rfl⟩ | ⟨-, hx⟩
    · have hside : ({ c with pc := .blocked } : Call).side = c.side := rfl
      simp [hside]
    · have hmem := h.blocked k x hx hxpc
      by_cases hd : x.side = c.side
      · simp only [hd, update_self]
        exact mem_append_left _ (hd ▸ hmem)
      · simpa only [update_of_ne hd] using hmem
  · by_cases hd : d = c.side
    · subst hd
      simp only [update_self]
      rw [← concat_eq_append]
      exact (h.nodup _).concat (hfresh _)
    · simpa only [update_of_ne hd] using h.nodup d
  · by_cases hdc : d = c.side
    · subst hdc
      -- the counter has not moved since the call looked, so what it saw holds or is about to be published
      have h1 := h.seen c hc snap (.inr hpc)
      have h2 := h.peers c hc snap hpc
      rw [hseq] at h1 h2
      simp only [lt_irrefl, false_or] at h1 h2
      refine .inl ⟨h1.imp_right fun hp => ?_, h2.imp_right fun hp => ?_⟩
      · obtain ⟨p, hp, hpp⟩ := hpub _ _ hp
        exact ⟨p, hp, hpp.notifies⟩
      · obtain ⟨p, hp, hpp⟩ := hpub _ _ hp
        exact ⟨p, hp, hpp.notifies⟩
    · exact .inr ⟨by simpa only [update_of_ne hdc] using hd, fun close => keep_notifies hi (by simp [hpc])⟩

end

theorem getElem?_wakeCalls {woken : List ℕ} {calls : List Call} {k : ℕ} (hk : k ∉ woken) :
    (wakeCalls woken calls)[k]? = calls[k]? := by
  rw [wakeCalls, getElem?_mapIdx]
  simp [hk]

theorem mem_wakeCalls {woken : List ℕ} {calls : List Call} (hx : x ∈ wakeCalls woken calls) :
    x ∈ calls ∨ ∃ y ∈ calls, x = { y with pc := .sample } := by
  obtain ⟨k, hk⟩ := mem_iff_getElem?.1 hx
  rw [wakeCalls, getElem?_mapIdx] at hk
  obtain ⟨y, hy, rfl⟩ := map_eq_some_iff.1 hk
  have hmem := mem_of_getElem? hy
  split_ifs
  · exact .inr ⟨y, hmem, rfl⟩
  · exact .inl hmem

theorem accounted_wake (h : Accounted s) (hi : s.calls[i]? = some c) {ret : ℤ} (hpc : c.pc = .wake ret)
    (hone : c.op.isClose = true ∨ (s.pipe.waiters c.side.other).length ≤ 1) :
    Accounted { s with
      pipe := { s.pipe with
        waiters := update s.pipe.waiters c.side.other
          ((s.pipe.waiters c.side.other).drop (c.op.wakes (s.pipe.waiters c.side.other)).length) }
      calls := (wakeCalls (c.op.wakes (s.pipe.waiters c.side.other)) s.calls).set i { c with pc := .returned ret } } := by
  have hall : c.op.wakes (s.pipe.waiters c.side.other) = s.pipe.waiters c.side.other := by
    rcases hop : c.op with cap | src | d
    · have hlen := hone.resolve_left (by simp [hop, Op.isClose])
      exact take_of_length_le hlen
    · have hlen := hone.resolve_left (by simp [hop, Op.isClose])
      exact take_of_length_le hlen
    · rfl
  rw [hall, drop_length]
  have hi' : i ∉ s.pipe.waiters c.side.other := h.not_queued hi (by simp [hpc]) _
  -- nobody who is awake is touched
  have hkeep : ∀ p ∈ s.calls, p ≠ c → p.pc ≠ .blocked →
      p ∈ (wakeCalls (s.pipe.waiters c.side.other) s.calls).set i { c with pc := .returned ret } := by
    intro p hp hne hb
    obtain ⟨k, hk⟩ := mem_iff_getElem?.1 hp
    have hk' := (getElem?_wakeCalls (h.not_queued hk hb c.side.other)).trans hk
    exact mem_set_of_ne ((getElem?_wakeCalls hi').trans hi) (mem_of_getElem? hk') hne
  refine h.carry (fun x hx => ?_) (fun d k hk => ?_) (fun k x hx hxpc => ?_) (fun d => ?_) (fun _ => le_rfl)
    (fun d close hp => .inr ?_) (fun _ hr => .inl hr) (fun _ hr => .inl hr) fun d hd => .inr ?_
  · rcases mem_set_cases (s := { s with calls := wakeCalls _ _ }) hx with rfl | hx
    · exact .inr ⟨h.moves c (mem_of_getElem? hi), justified_of_snap rfl⟩
    · rcases mem_wakeCalls hx with hx | ⟨y, hy, rfl⟩
      · exact .inl hx
      · exact .inr ⟨h.moves y hy, justified_of_snap rfl⟩
  · have hd : d ≠ c.side.other := by
      rintro rfl
      simp at hk
    have hk' : k ∈ s.pipe.waiters d := by simpa only [update_of_ne hd] using hk
    obtain ⟨x, hx, hside, hxpc⟩ := h.queued d k hk'
    have hik : i ≠ k := by
      rintro rfl
      exact h.not_queued hi (by simp [hpc]) d hk'
    have hother : k ∉ s.pipe.waiters c.side.other := by
      intro hmem
      obtain ⟨y, hy, hyside, -⟩ := h.queued _ k hmem
      exact hd (hside ▸ (some.inj (hx.symm.trans hy)) ▸ hyside)
    exact ⟨x, (getElem?_set_ne hik).trans ((getElem?_wakeCalls hother).trans hx), hside, hxpc⟩
  · rcases getElem?_set_cases hx with ⟨-, rfl⟩ | ⟨-, hx⟩
    · cases hxpc
    by_cases hk : k ∈ s.pipe.waiters c.side.other
    · rw [wakeCalls, getElem?_mapIdx] at hx
      obtain ⟨y, -, rfl⟩ := map_eq_some_iff.1 hx
      rw [if_pos hk] at hxpc
      cases hxpc
    · rw [getElem?_wakeCalls hk] at hx
      have hq := h.blocked k x hx hxpc
      have hd : x.side ≠ c.side.other := fun he => hk (he ▸ hq)
      simpa only [update_of_ne hd] using hq
  · by_cases hd : d = c.side.other
    · subst hd
      simp
    · simpa only [update_of_ne hd] using h.nodup d
  · obtain ⟨p, hp, hpp⟩ := hp
    obtain ⟨r, hr⟩ := hpp.2.2
    refine ⟨p, hkeep p hp ?_ (by simp [hr]), hpp⟩
    rintro rfl
    simp [hpc] at hr
  · have hne : d ≠ c.side.other := by
      rintro rfl
      simp at hd
    refine ⟨by simpa only [update_of_ne hne] using hd, ?_⟩
    rintro close ⟨p, hp, hpn⟩
    obtain ⟨r, hr⟩ := hpn.2.2
    refine ⟨p, hkeep p hp ?_ (by rcases hr with hr | hr <;> simp [hr]), hpn⟩
    rintro rfl
    exact hne (by rw [hpn.1, Side.other_other])

theorem readSection_moves (p : Pipe) {cap : ℕ} (hcap : 0 < cap) :
    ((p.readSection cap).1.length = 0 → (p.readSection cap).2.2.ring = p.ring ∧ p.ready .read = false) ∧
      (0 < (p.readSection cap).1.length → p.ready .read = true ∧ (p.readSection cap).2.1 = !p.ready .write) := by
  unfold Pipe.readSection
  by_cases he : p.ring.isEmpty
  · simp [he, Pipe.ready]
  · have hlen : (p.ring.readInto p.data cap).1.length = min cap p.ring.len := (p.ring.readInto_spec p.data cap).2
    have hpos : p.ring.len ≠ 0 := by simpa [PipeRing.isEmpty] using he
    rw [if_neg he]
    refine ⟨fun hz => ?_, fun _ => ⟨by simp [Pipe.ready, he], by simp [Pipe.ready]⟩⟩
    simp only [hlen] at hz
    omega

theorem writeSection_moves (p : Pipe) {src : List UInt8} (hsrc : src ≠ []) :
    ((p.writeSection src).1 = 0 → (p.writeSection src).2.2.ring = p.ring ∧ p.ready .write = false) ∧
      (0 < (p.writeSection src).1 → p.ready .write = true ∧ (p.writeSection src).2.1 = !p.ready .read) := by
  unfold Pipe.writeSection
  by_cases hf : p.ring.isFull
  · simp [hf, Pipe.ready]
  · have hn : (p.ring.writeFrom p.data src).1 = min src.length (pipeBufSize - p.ring.len) :=
      (p.ring.writeFrom_spec p.data src).2
    have hroom : p.ring.len ≠ pipeBufSize := by simpa [PipeRing.isFull] using hf
    have hle := p.ring.len_le
    have hpos : 0 < src.length := length_pos_of_ne_nil hsrc
    rw [if_neg hf]
    refine ⟨fun hz => ?_, fun _ => ⟨by simp [Pipe.ready, hf], by simp [Pipe.ready]⟩⟩
    simp only [hn] at hz
    omega

theorem readSection_frame (p : Pipe) (cap : ℕ) :
    (p.readSection cap).2.2.waiters = p.waiters ∧ (p.readSection cap).2.2.seq = p.seq ∧
      (p.readSection cap).2.2.refs = p.refs := by
  unfold Pipe.readSection
  split_ifs <;> exact ⟨rfl, rfl, rfl⟩

theorem writeSection_frame (p : Pipe) (src : List UInt8) :
    (p.writeSection src).2.2.waiters = p.waiters ∧ (p.writeSection src).2.2.seq = p.seq ∧
      (p.writeSection src).2.2.refs = p.refs := by
  unfold Pipe.writeSection
  split_ifs <;> exact ⟨rfl, rfl, rfl⟩

/-- **Every step keeps the reasons of the sleepers.** -/
theorem accounted_moves (h : Accounted s) (hi : s.calls[i]? = some c) (hw : c.wakeOk s = true) (hf : c.fresh s = true)
    (hm : Moves s i c s') : Accounted s' := by
  have hc : c ∈ s.calls := mem_of_getElem? hi
  have hmoves := h.moves c hc
  cases hm with
  | enter pc hop hpc hto =>
    refine accounted_goto h hi (by simp [hpc]) (by simp [hpc]) ?_ (justified_of_snap ?_)
    · rcases hto with rfl | rfl <;> simp
    · rcases hto with rfl | rfl <;> rfl
  | release d hop hpc hd => exact accounted_release h hi hop hpc hd
  | sample hpc =>
    refine accounted_goto h hi (by simp [hpc]) (by simp [hpc]) (by simp) ⟨fun n hn => ?_, by simp, by simp⟩
    obtain rfl : s.pipe.seq c.side = n := by simpa [Call.snap] using hn
    exact le_rfl
  | read cap snap hop hpc =>
    have hside : c.side = .read := by simp [Call.side, hop, Op.side]
    have hcap : 0 < cap := by simpa [hop, Op.moves] using hmoves
    obtain ⟨hz, hp⟩ := readSection_moves s.pipe hcap
    obtain ⟨h1, h2, h3⟩ := readSection_frame s.pipe cap
    exact accounted_section h hi hpc (by simp [hop, Op.isClose]) rfl h1 h2 h3 (by rw [hside]; exact hz)
      (by rw [hside]; exact hp)
  | write src snap hop hpc =>
    have hside : c.side = .write := by simp [Call.side, hop, Op.side]
    have hsrc : src ≠ [] := by simpa [hop, Op.moves] using hmoves
    obtain ⟨hz, hp⟩ := writeSection_moves s.pipe hsrc
    obtain ⟨h1, h2, h3⟩ := writeSection_frame s.pipe src
    exact accounted_section h hi hpc (by simp [hop, Op.isClose]) rfl h1 h2 h3 (by rw [hside]; exact hz)
      (by rw [hside]; exact hp)
  | publish ret hpc => exact accounted_publish h hi hpc
  | wake ret hpc =>
    refine accounted_wake h hi hpc ?_
    simpa [Call.wakeOk, hpc] using hw
  | count snap hpc =>
    by_cases h0 : s.pipe.refs c.side.other = 0
    · rw [if_pos h0]
      exact accounted_goto h hi (by simp [hpc]) (by simp [hpc]) (by simp) (justified_of_snap rfl)
    · rw [if_neg h0]
      refine accounted_goto h hi (by simp [hpc]) (by simp [hpc]) (by simp) ⟨fun n hn => ?_, fun n hn => ?_,
        fun n hn => .inl h0⟩
      · obtain rfl : snap = n := by simpa [Call.snap] using hn
        exact h.snap c hc snap (by simp [Call.snap, hpc])
      · obtain rfl : snap = n := by simpa using hn
        exact (h.seen c hc snap (.inl hpc)).imp_right fun hs => hs.imp_right (keep_publishes hi (by simp [hpc]))
  | block snap hpc hseq =>
    have hle := h.snap c hc snap (by simp [Call.snap, hpc])
    have hlt : s.pipe.seq c.side < snap + 2 ^ 32 := by simpa [Call.fresh, hpc] using hf
    exact accounted_block h hi hpc (by omega)
  | retry snap hpc => exact accounted_goto h hi (by simp [hpc]) (by simp [hpc]) (by simp) (justified_of_snap rfl)

/-! ## Whole runs -/

theorem accounted_call (h : Accounted s) {op : Op} (hop : op.moves = true) :
    Accounted { s with calls := s.calls ++ [⟨op, .start⟩] } := by
  have hgrow : ∀ {Q : Call → Prop}, (∃ p ∈ s.calls, Q p) → ∃ p ∈ s.calls ++ [⟨op, .start⟩], Q p :=
    fun ⟨p, hp, hq⟩ => ⟨p, mem_append_left _ hp, hq⟩
  refine h.carry (fun x hx => ?_) (fun d k hk => ?_) (fun k x hx hpc => ?_) h.nodup (fun _ => le_rfl)
    (fun _ _ hp => .inr (hgrow hp)) (fun _ hr => .inl hr) (fun _ hr => .inl hr) fun d hd => .inr ⟨hd, fun _ => hgrow⟩
  · rcases mem_append.1 hx with hx | hx
    · exact .inl hx
    · obtain rfl := mem_singleton.1 hx
      exact .inr ⟨hop, justified_of_snap rfl⟩
  · obtain ⟨x, hx, hside, hpc⟩ := h.queued d k hk
    exact ⟨x, (getElem?_append_left (List.getElem?_eq_some_iff.1 hx).1).trans hx, hside, hpc⟩
  · rcases Nat.lt_or_ge k s.calls.length with hk | hk
    · exact h.blocked k x ((getElem?_append_left hk).symm.trans hx) hpc
    · have hx' := (getElem?_append_right hk).symm.trans hx
      obtain rfl := mem_singleton.1 (mem_of_getElem? hx')
      cases hpc

end Steps

theorem accounted_step {s s' : State} {a : Act} (h : Accounted s) (hC : WakeOk s a) (hs : step s a = some s') :
    Accounted s' := by
  cases a with
  | call op =>
    rw [step] at hs
    split_ifs at hs
    cases hs
    exact accounted_call h hC
  | resume i =>
    obtain ⟨c, hi, hc⟩ := bind_eq_some_iff.1 hs
    obtain ⟨hw, hf⟩ := hC c hi
    exact accounted_moves h hi hw hf (moves_of_stepCall hc)

/-- **Nobody is stranded.** In every run of readers, writers and closers in which calls have non-empty buffers, each
`wake_one` finds at most one waiter, and fewer than 2^32 events lie between a sample and its re-check: no state reached has
a thread asleep that could go on, or whose other end is closed, with nothing under way. -/
theorem pipe_awake (data : PipeData) (refs : Side → ℕ) (as : List Act) (s : State)
    (hC : Meets step WakeOk (State.new data refs) as) (h : run (State.new data refs) as = some s) : ¬ Stranded s :=
  (run_inv Accounted (fun _ _ _ hI hC hs => accounted_step hI hC hs) (accounted_new data refs) hC h).not_stranded

/-- a reader sleeps, a write wakes it, it reads -/
def wokenActs : List Act :=
  .call (.read 2) :: List.replicate 5 (.resume 0) ++ .call (.write [1, 2]) :: List.replicate 5 (.resume 1) ++
    List.replicate 2 (.resume 0)

/-- the reader has the bytes, and nobody is left asleep -/
theorem pipe_awake_woken : ∃ s, run (State.new (fun _ => 0) fun _ => 1) wokenActs = some s ∧ s.taken = [1, 2] ∧
    ¬ Stranded s :=
  exists_and_of_check (by decide +kernel) fun s hs _ => pipe_awake _ _ _ s (by decide +kernel) hs

/-- two readers sleep, one write of two bytes wakes the first, which takes one byte -/
def strandActs : List Act :=
  [.call (.read 1), .call (.read 1)] ++ List.replicate 5 (.resume 0) ++ List.replicate 5 (.resume 1) ++
    .call (.write [1, 2]) :: List.replicate 5 (.resume 2) ++ List.replicate 2 (.resume 0)

/-- the second reader sleeps on, with a byte in the ring -/
theorem stranded_reader : ∃ s, run (State.new (fun _ => 0) fun _ => 1) strandActs = some s ∧ Stranded s := by
  decide +kernel

/-! ## A call alone -/

/-- the steps of call 0 until it returns or sleeps -/
def settle : ℕ → State → State
  | 0, s => s
  | n + 1, s => match step s (.resume 0) with
    | some s' => settle n s'
    | none => s

/-- where a call ends when no other thread is in the pipe -/
def outcome (p : Pipe) (op : Op) : Option Pc := (settle 6 ⟨p, [⟨op, .start⟩], [], []⟩).calls[0]?.map Call.pc

/-- the bytes that the ring section moves -/
def Pipe.moved (p : Pipe) : Op → ℕ
  | .read cap => (p.readSection cap).1.length
  | .write src => (p.writeSection src).1
  | .close _ => 0

variable {p : Pipe} {op : Op}

/-- a call alone sleeps exactly if its ring section moves nothing and the other end is open -/
theorem outcome_cases (hop : op.isClose = false) (p : Pipe) :
    (∃ r, outcome p op = some (.returned r)) ∧ (0 < p.moved op ∨ p.refs op.side.other = 0) ∨
      outcome p op = some .blocked ∧ p.moved op = 0 ∧ p.refs op.side.other ≠ 0 := by
  cases op with
  | close d => cases hop
  | read cap =>
    obtain ⟨-, hseq, hrefs⟩ := readSection_frame p cap
    rcases Nat.eq_zero_or_pos (p.readSection cap).1.length with hn | hn
    · by_cases h0 : p.refs .write = 0 <;>
        simp [outcome, settle, step, stepCall, Call.side, Op.side, Side.other, afterSection, Pipe.moved, hn, h0,
          hseq, hrefs]
    · cases hedge : (p.readSection cap).2.1 <;>
        simp [outcome, settle, step, stepCall, Op.side, Side.other, afterSection, Pipe.moved, wakeCalls, hn, hedge]
  | write src =>
    obtain ⟨-, hseq, hrefs⟩ := writeSection_frame p src
    by_cases h0 : p.refs .read = 0
    · simp [outcome, settle, step, stepCall, Op.side, Side.other, h0]
    rcases Nat.eq_zero_or_pos (p.writeSection src).1 with hn | hn
    · simp [outcome, settle, step, stepCall, Call.side, Op.side, Side.other, afterSection, Pipe.moved, hn, h0, hseq, hrefs]
    · cases hedge : (p.writeSection src).2.1 <;>
        simp [outcome, settle, step, stepCall, Op.side, Side.other, afterSection, Pipe.moved, wakeCalls, hn, h0, hedge]

/-- an empty buffer moves nothing, any other moves nothing only if the ring is not ready -/
theorem moved_eq_zero (hop : op.isClose = false) (p : Pipe) :
    (op.moves = false → p.moved op = 0) ∧ (op.moves = true → p.moved op = 0 → p.ready op.side = false) := by
  cases op with
  | close d => cases hop
  | read cap =>
    refine ⟨fun h => ?_, fun h hn => ((readSection_moves p (by simpa [Op.moves] using h)).1 hn).2⟩
    obtain rfl : cap = 0 := by simpa [Op.moves] using h
    rw [Pipe.moved, Pipe.readSection]
    split_ifs
    · rfl
    · exact (p.ring.readInto_spec p.data 0).2.trans (Nat.zero_min _)
  | write src =>
    refine ⟨fun h => ?_, fun h hn => ((writeSection_moves p (by simpa [Op.moves] using h)).1 hn).2⟩
    obtain rfl : src = [] := by simpa [Op.moves] using h
    rw [Pipe.moved, Pipe.writeSection]
    split_ifs
    · rfl
    · exact (p.ring.writeFrom_spec p.data []).2.trans (Nat.zero_min _)

/-- **When calls sleep.** A call alone sleeps only on a ring that is not ready, and never with an empty buffer, exactly
if its buffer is not empty or the other end is closed. -/
theorem sleeps_iff (p : Pipe) (op : Op) (hop : op.isClose = false) :
    ((outcome p op = some .blocked → p.ready op.side = false) ∧
    (op.moves = false → ∃ r, outcome p op = some (.returned r))) ↔
      op.moves = true ∨ p.refs op.side.other = 0 := by
  obtain ⟨hempty, hready⟩ := moved_eq_zero hop p
  rcases outcome_cases hop p with ⟨⟨r, hr⟩, hwhy⟩ | ⟨hblocked, hn, hpeer⟩
  · have hnot : outcome p op ≠ some .blocked := by
      rw [hr]
      nofun
    refine iff_of_true ⟨fun h => absurd h hnot, fun _ => ⟨r, hr⟩⟩ (hwhy.imp_left fun hpos => ?_)
    by_contra hmoves
    rw [hempty (by simpa using hmoves)] at hpos
    cases hpos
  · by_cases hmoves : op.moves = true
    · exact iff_of_true ⟨fun _ => hready hmoves hn, fun h => by rw [hmoves] at h; cases h⟩ (.inl hmoves)
    · refine iff_of_false (fun h => ?_) (not_or.2 ⟨hmoves, hpeer⟩)
      obtain ⟨r, hr⟩ := h.2 (by simpa using hmoves)
      rw [hr] at hblocked
      cases hblocked

/-- a read of an empty ring sleeps, so the ring is not ready -/
theorem sleeps_on_empty : (Pipe.new (fun _ => 0) fun _ => 1).ready .read = false :=
  ((sleeps_iff _ (.read 1) rfl).2 (.inl rfl)).1 (by decide +kernel)

/-- a write of no bytes into an empty ring sleeps -/
theorem empty_write_sleeps : outcome (Pipe.new (fun _ => 0) fun _ => 1) (.write []) = some .blocked ∧
    (Pipe.new (fun _ => 0) fun _ => 1).ready .write = true := by decide +kernel

end Rumicos.Fs.Pipes
