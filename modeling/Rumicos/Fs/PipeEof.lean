/-
End of file on a pipe.

A reader looks at the ring under its lock and afterwards, without it, at the number of write descriptors. It answers 0 when
the ring was empty at the first look and the number is 0 at the second. In between a writer can write and close.

- `Justified`: during the call the ring was empty and no write descriptor was open.
- `LastCloseOk`: no reader is between its two looks when the last write descriptor is closed on a non-empty ring, and a
  write that reaches the ring still has an open descriptor.
- `Drained`: every accepted byte has been taken, and no more can come.
-/
import Rumicos.Fs.PipeWait

namespace Rumicos.Fs.Pipes

open Lib List Option

/-! ## What an answer of 0 stands for -/

/-- the ring is empty and no write descriptor is open -/
def EofAt (s : State) : Prop := s.pipe.ring.isEmpty = true ∧ s.pipe.refs .write = 0

instance (s : State) : Decidable (EofAt s) := by unfold EofAt; infer_instance

def Call.underway (c : Call) : Bool :=
  match c.pc with
  | .returned _ => false
  | _ => true

/-- at some instant of the run call `i` was under way and the pipe was at its end -/
def Justified (s : State) (as : List Act) (i : ℕ) : Prop :=
  ∃ bs ∈ as.inits, (run s bs).any fun t => t.calls[i]?.any Call.underway && decide (EofAt t)

instance (s : State) (as : List Act) (i : ℕ) : Decidable (Justified s as i) := by unfold Justified; infer_instance

/-- a read that found the ring empty and has not yet looked at the write descriptors -/
def Call.checking (c : Call) : Bool :=
  match c.op, c.pc with
  | .read cap, .count _ => 0 < cap
  | _, _ => false

/-- a release of the write end, before its `dec_ref` -/
def Call.closing (c : Call) : Bool :=
  match c.op, c.pc with
  | .close .write, .start => true
  | _, _ => false

/-- a write, before its section under the ring lock -/
def Call.writing (c : Call) : Bool :=
  match c.op, c.pc with
  | .write _, .ring _ => true
  | _, _ => false

/-- while a reader is between its two looks, the last write descriptor is not closed on a non-empty ring; and a write
descriptor is open when a write comes to the ring -/
def LastCloseOk (s : State) : Act → Prop
  | .call _ => True
  | .resume i =>
    ∀ c ∈ s.calls[i]?,
      (c.closing = true → s.pipe.refs .write = 1 →
        s.pipe.ring.isEmpty = true ∨ ∀ r ∈ s.calls, r.checking = false) ∧
      (c.writing = true → s.pipe.refs .write ≠ 0)

instance (s : State) (a : Act) : Decidable (LastCloseOk s a) := by
  induction a using Act.casesOn <;> unfold LastCloseOk <;> infer_instance

/-! ## Between the two looks -/

structure Looks (s : State) : Prop where
  /-- what a reader saw of the ring still counts -/
  empty : ∀ c ∈ s.calls, c.checking = true → s.pipe.ring.isEmpty = true ∨ s.pipe.refs .write ≠ 0
  /-- a read on its way out took something -/
  took : ∀ c ∈ s.calls, c.side = .read → c.op.isClose = false → ∀ ret, c.pc = .publish ret ∨ c.pc = .wake ret → ret ≠ 0

theorem looks_new (data : PipeData) (refs : Side → ℕ) : Looks (State.new data refs) where
  empty := by simp [State.new]
  took := by simp [State.new]

section Steps

variable {s s' : State} {i : ℕ} {c : Call}

theorem looks_set (h : Looks s) (c' : Call) (hcalls : ∀ x ∈ s'.calls, x = c' ∨ x ∈ s.calls ∨ x.pc = .sample)
    (hkeep : ∀ x ∈ s.calls, x.checking = true → s.pipe.ring.isEmpty = true ∨ s.pipe.refs .write ≠ 0 →
      s'.pipe.ring.isEmpty = true ∨ s'.pipe.refs .write ≠ 0)
    (hnew : c'.checking = true → s'.pipe.ring.isEmpty = true ∨ s'.pipe.refs .write ≠ 0)
    (htook : c'.side = .read → c'.op.isClose = false → ∀ ret, c'.pc = .publish ret ∨ c'.pc = .wake ret → ret ≠ 0) :
    Looks s' := by
  constructor
  · intro x hx hxc
    rcases hcalls x hx with rfl | hx | hpc
    · exact hnew hxc
    · exact hkeep x hx hxc (h.empty x hx hxc)
    · simp [Call.checking, hpc] at hxc
  · intro x hx hside hop ret hret
    rcases hcalls x hx with rfl | hx | hpc
    · exact htook hside hop ret hret
    · exact h.took x hx hside hop ret hret
    · simp [hpc] at hret

/-- a step that leaves the ring and the write descriptors alone and sends the call where it neither looks nor wakes -/
theorem looks_goto (h : Looks s) {pc : Pc} (hcalls : s'.calls = s.calls.set i { c with pc := pc })
    (hring : s'.pipe.ring = s.pipe.ring) (hrefs : s'.pipe.refs .write = s.pipe.refs .write)
    (hpc : ∀ n, pc ≠ .count n) (hpc' : ∀ ret, pc ≠ .publish ret ∧ pc ≠ .wake ret) : Looks s' := by
  refine looks_set h { c with pc := pc } (fun x hx => ?_) (fun x _ _ he => by rw [hring, hrefs]; exact he)
    (fun hc => ?_) (fun _ _ ret hret => ?_)
  · rw [hcalls] at hx
    exact (mem_set_cases hx).imp_right .inl
  · unfold Call.checking at hc
    split at hc
    · rename_i hn
      exact absurd hn (hpc _)
    · exact absurd hc (by simp)
  · rcases hret with hret | hret
    · exact absurd hret (hpc' ret).1
    · exact absurd hret (hpc' ret).2

theorem afterSection_publish {snap n : ℕ} {edge : Bool} {ret : ℤ}
    (h : afterSection snap n edge = .publish ret ∨ afterSection snap n edge = .wake ret) : ret ≠ 0 := by
  unfold afterSection at h
  split_ifs at h with hn he
  · have hret : (n : ℤ) = ret := by simpa using h
    omega
  · simp at h
  · simp at h

theorem isEmpty_readSection {p : Pipe} {cap : ℕ} (h : p.ring.isEmpty = true) :
    (p.readSection cap).2.2.ring.isEmpty = true ∧ (p.readSection cap).1.length = 0 := by
  unfold Pipe.readSection
  simp [h]

theorem looks_moves (h : Looks s) (hi : s.calls[i]? = some c)
    (hclose : c.closing = true → s.pipe.refs .write = 1 →
      s.pipe.ring.isEmpty = true ∨ ∀ r ∈ s.calls, r.checking = false)
    (hwrite : c.writing = true → s.pipe.refs .write ≠ 0) (hm : Moves s i c s') : Looks s' := by
  cases hm with
  | enter pc hop hpc hto =>
    refine looks_goto h rfl rfl rfl ?_ ?_
    · rcases hto with rfl | rfl <;> simp
    · rcases hto with rfl | rfl <;> simp
  | release d hop hpc hd =>
    refine looks_set h _ (fun x hx => (mem_set_cases hx).imp_right .inl) (fun x hx hxc he => ?_) (fun hc => ?_)
      (fun hside hcl => ?_)
    · by_cases hdw : d = .write
      · subst hdw
        rcases he with he | he
        · exact .inl he
        · by_cases h1 : s.pipe.refs .write = 1
          · -- the last close: the ring is empty, or no reader is between its looks
            refine .inl ((hclose (by simp [Call.closing, hop, hpc]) h1).resolve_right fun hno => ?_)
            exact absurd hxc (by simp [hno x hx])
          · simp only [Function.update_self]
            omega
      · simpa only [Function.update_of_ne (Ne.symm hdw)] using he
    · simp [Call.checking, hop] at hc
    · simp [hop, Op.isClose] at hcl
  | sample hpc | block snap hpc hseq | retry snap hpc => exact looks_goto h rfl rfl rfl (by simp) (by simp)
  | read cap snap hop hpc =>
    have hrefs := (readSection_frame s.pipe cap).2.2
    refine looks_set h _ (fun x hx => (mem_set_cases hx).imp_right .inl) (fun x _ _ he => ?_) (fun hc => ?_)
      (fun _ _ ret hret => afterSection_publish hret)
    · rcases he with he | he
      · exact .inl (isEmpty_readSection he).1
      · exact .inr (by rw [hrefs]; exact he)
    · -- it goes on to the second look only from an empty ring
      left
      by_cases hcap : 0 < cap
      · obtain ⟨hz, -⟩ := readSection_moves s.pipe hcap
        have hn : (s.pipe.readSection cap).1.length = 0 := by
          by_contra hn
          have hpos := Nat.pos_of_ne_zero hn
          unfold Call.checking afterSection at hc
          simp only [hop] at hc
          split_ifs at hc
        have he : s.pipe.ring.isEmpty = true := by simpa [Pipe.ready] using (hz hn).2
        exact (isEmpty_readSection he).1
      · unfold Call.checking at hc
        rw [hop] at hc
        split at hc
        · rename_i cap' _ hcap' _
          obtain rfl : cap = cap' := by simpa using hcap'
          exact absurd (of_decide_eq_true hc) hcap
        · exact absurd hc (by simp)
  | write src snap hop hpc =>
    have hrefs := (writeSection_frame s.pipe src).2.2
    refine looks_set h _ (fun x hx => (mem_set_cases hx).imp_right .inl) (fun _ _ _ _ => .inr ?_) (fun hc => ?_)
      (fun _ _ ret hret => afterSection_publish hret)
    · rw [hrefs]
      exact hwrite (by simp [Call.writing, hop, hpc])
    · simp [Call.checking, hop] at hc
  | publish ret hpc =>
    refine looks_set h _ (fun x hx => (mem_set_cases hx).imp_right .inl) (fun x _ _ he => he) (fun hc => ?_)
      (fun hside hcl r hr => ?_)
    · unfold Call.checking at hc
      split at hc <;> simp_all
    · obtain rfl : ret = r := by simpa using hr
      exact h.took c (mem_of_getElem? hi) hside hcl ret (.inl hpc)
  | wake ret hpc =>
    refine looks_set h { c with pc := .returned ret } (fun x hx => ?_) (fun x _ _ he => he) (fun hc => ?_) (by simp)
    · rcases mem_or_eq_of_mem_set hx with hx | hx
      · rcases mem_wakeCalls hx with hx | ⟨y, -, rfl⟩
        · exact .inr (.inl hx)
        · exact .inr (.inr rfl)
      · exact .inl hx
    · unfold Call.checking at hc
      split at hc <;> simp_all
  | count snap hpc =>
    refine looks_goto h rfl rfl rfl ?_ ?_
    · split_ifs <;> simp
    · split_ifs <;> simp

theorem looks_step {a : Act} (h : Looks s) (hC : LastCloseOk s a) (hs : step s a = some s') : Looks s' := by
  cases a with
  | call op =>
    rw [step] at hs
    split_ifs at hs
    cases hs
    refine looks_set h ⟨op, .start⟩ (fun x hx => ?_) (fun x _ _ he => he) (fun hc => ?_) (by simp)
    · rcases mem_append.1 hx with hx | hx
      · exact .inr (.inl hx)
      · exact .inl (mem_singleton.1 hx)
    · unfold Call.checking at hc
      split at hc <;> simp_all
  | resume i =>
    obtain ⟨c, hi, hc⟩ := bind_eq_some_iff.1 hs
    obtain ⟨h1, h2⟩ := hC c hi
    exact looks_moves h hi h1 h2 (moves_of_stepCall hc)

theorem zero_from_count (h : Looks s) (hi : s.calls[i]? = some c) (hm : Moves s i c s') {k cap : ℕ} (hcap : 0 < cap)
    (hnot : s.calls[k]? ≠ some ⟨.read cap, .returned 0⟩) (hnow : s'.calls[k]? = some ⟨.read cap, .returned 0⟩) :
    k = i ∧ c.checking = true ∧ s.pipe.refs .write = 0 := by
  obtain ⟨hlt, -⟩ := List.getElem?_eq_some_iff.1 hi
  -- a step that is a `set` moves only call `i`
  have hset : ∀ {pc : Pc}, (s.calls.set i { c with pc := pc })[k]? = some ⟨.read cap, .returned 0⟩ →
      k = i ∧ c.op = .read cap ∧ pc = .returned 0 := by
    intro pc hk
    by_cases hki : i = k
    · subst hki
      have hc' := some.inj ((getElem?_set_self hlt).symm.trans hk)
      exact ⟨rfl, congrArg Call.op hc', congrArg Call.pc hc'⟩
    · rw [getElem?_set_ne hki] at hk
      exact absurd hk hnot
  cases hm with
  | enter pc hop hpc hto =>
    obtain ⟨-, -, rfl⟩ := hset hnow
    simp [ePipe] at hto
  | release d hop hpc hd | write src snap hop hpc =>
    obtain ⟨-, hop', -⟩ := hset hnow
    exact absurd (hop.symm.trans hop') (by simp)
  | sample hpc | publish ret hpc | block snap hpc hseq | retry snap hpc =>
    obtain ⟨-, -, hpc'⟩ := hset hnow
    exact absurd hpc' (by simp)
  | read cap' snap hop hpc =>
    obtain ⟨-, -, hpc'⟩ := hset hnow
    unfold afterSection at hpc'
    split_ifs at hpc' with hn
    have hz : ((s.pipe.readSection cap').1.length : ℤ) = 0 := by simpa using hpc'
    omega
  | wake ret hpc =>
    have hlen : i < (wakeCalls (c.op.wakes (s.pipe.waiters c.side.other)) s.calls).length := by
      simpa [wakeCalls] using hlt
    by_cases hki : i = k
    · subst hki
      have hc' := some.inj ((getElem?_set_self hlen).symm.trans hnow)
      have hop : c.op = .read cap := congrArg Call.op hc'
      have hret : ret = 0 := by simpa using congrArg Call.pc hc'
      exact absurd hret (h.took c (mem_of_getElem? hi) (by simp [Call.side, hop, Op.side])
        (by simp [hop, Op.isClose]) ret (.inr hpc))
    · have hnow' : (wakeCalls (c.op.wakes (s.pipe.waiters c.side.other)) s.calls)[k]? =
          some ⟨.read cap, .returned 0⟩ := by
        rw [← hnow]
        exact (getElem?_set_ne hki).symm
      by_cases hk : k ∈ c.op.wakes (s.pipe.waiters c.side.other)
      · rw [wakeCalls, getElem?_mapIdx] at hnow'
        obtain ⟨y, -, hy⟩ := map_eq_some_iff.1 hnow'
        rw [if_pos hk] at hy
        exact absurd (congrArg Call.pc hy) (by simp)
      · rw [getElem?_wakeCalls hk] at hnow'
        exact absurd hnow' hnot
  | count snap hpc =>
    obtain ⟨hk, hop, hpc'⟩ := hset hnow
    have hside : c.side = .read := by simp [Call.side, hop, Op.side]
    refine ⟨hk, by simp [Call.checking, hop, hpc, hcap], ?_⟩
    by_contra h0
    rw [hside] at hpc'
    rw [if_neg (show ¬ s.pipe.refs Side.read.other = 0 from h0)] at hpc'
    exact absurd hpc' (by simp)

/-! ## After the end -/

/-- no write descriptor is open, the ring is empty, and what was accepted has been taken -/
structure Drained (s : State) : Prop where
  closed : s.pipe.refs .write = 0
  empty : s.pipe.ring.isEmpty = true
  taken : s.put = s.taken

theorem drained_step {a : Act} (h : Drained s) (hC : LastCloseOk s a) (hs : step s a = some s') : Drained s' := by
  cases a with
  | call op =>
    rw [step] at hs
    split_ifs at hs
    cases hs
    exact ⟨h.closed, h.empty, h.taken⟩
  | resume i =>
    obtain ⟨c, hi, hc⟩ := bind_eq_some_iff.1 hs
    cases moves_of_stepCall hc with
    | release d hop hpc hd =>
      refine ⟨?_, h.empty, h.taken⟩
      have hdw : d ≠ .write := by
        rintro rfl
        exact hd h.closed
      exact (Function.update_of_ne (Ne.symm hdw) ..).trans h.closed
    | read cap snap hop hpc =>
      obtain ⟨hring, hlen⟩ : (s.pipe.readSection cap).2.2.ring.isEmpty = true ∧ (s.pipe.readSection cap).1.length = 0 :=
        isEmpty_readSection h.empty
      refine ⟨(congrFun (readSection_frame s.pipe cap).2.2 _).trans h.closed, hring, ?_⟩
      rw [length_eq_zero_iff.1 hlen, append_nil]
      exact h.taken
    | write src snap hop hpc => exact absurd h.closed ((hC c hi).2 (by simp [Call.writing, hop, hpc]))
    | _ => exact ⟨h.closed, h.empty, h.taken⟩

end Steps

/-! ## Whole runs -/

/-- **End of file is justified, and the end.** In every run in which, while a reader is between its look at the ring and
its look at the write descriptors, the last write descriptor is not closed on a non-empty ring, and in which a write that
comes to the ring has an open descriptor: a read with a non-empty buffer that has returned 0 was under way at an instant
when the ring was empty and no write descriptor was open, and from its return on every byte that a writer was told it
wrote has been taken by a reader. -/
theorem eof_justified (data : PipeData) (refs : Side → ℕ) (as : List Act) (s : State)
    (hC : Meets step LastCloseOk (State.new data refs) as) (h : run (State.new data refs) as = some s) (i cap : ℕ)
    (hcap : 0 < cap) (hret : s.calls[i]? = some ⟨.read cap, .returned 0⟩) :
    Justified (State.new data refs) as i ∧ s.put = s.taken := by
  obtain ⟨bs, a, cs, u, v, rfl, hu, huv, hnot, hnow⟩ :=
    exists_switch (fun t => t.calls[i]? = some ⟨.read cap, .returned 0⟩) (by simp [State.new]) h hret
  obtain ⟨hCb, hCa⟩ := meets_append.1 hC
  have hnew : Fifo (State.new data refs) := rfl
  have hF : Fifo u := foldlM_inv (fun _ s => Fifo s) (fun _ _ _ _ hI hs => fifo_step hI hs) hnew hu
  have hL : Looks u := run_inv Looks (fun _ _ _ hI hC hs => looks_step hI hC hs) (looks_new data refs) hCb hu
  cases a with
  | call op =>
    rw [step] at huv
    split_ifs at huv
    cases huv
    -- the new call has not returned
    rcases mem_append.1 (mem_of_getElem? hnow) with hmem | hmem
    · by_cases hlt : i < u.calls.length
      · exact absurd ((getElem?_append_left hlt).symm.trans hnow) hnot
      · have hnow' := (getElem?_append_right (not_lt.1 hlt)).symm.trans hnow
        exact absurd (mem_singleton.1 (mem_of_getElem? hnow')) (by simp)
    · exact absurd (mem_singleton.1 hmem) (by simp)
  | resume j =>
    obtain ⟨c, hj, hc⟩ := bind_eq_some_iff.1 huv
    obtain ⟨rfl, hcheck, h0⟩ := zero_from_count hL hj (moves_of_stepCall hc) hcap hnot hnow
    have hempty := (hL.empty c (mem_of_getElem? hj) hcheck).resolve_right (not_not.2 h0)
    have hnil : u.pipe.ring.contents u.pipe.data = [] :=
      length_eq_zero_iff.1 ((PipeRing.length_contents ..).trans (beq_iff_eq.1 hempty))
    have hdrained : Drained u := ⟨h0, hempty, by rw [hF, hnil, append_nil]⟩
    have hafter : (Act.resume i :: cs).foldlM step u = some s := by
      rw [run, foldlM_append, hu] at h
      exact h
    have hend := run_inv Drained (fun _ _ _ hI hC hs => drained_step hI hC hs) hdrained (hCa u hu) hafter
    refine ⟨⟨bs, by simp [mem_inits], ?_⟩, hend.taken⟩
    have hunder : c.underway = true := by
      unfold Call.checking at hcheck
      split at hcheck
      · rename_i hpc
        simp [Call.underway, hpc]
      · exact absurd hcheck (by simp)
    have hru : run (State.new data refs) bs = some u := hu
    rw [hru]
    simp [hj, hunder, EofAt, hempty, h0]

/-- the reader looks at the ring; a write of one byte and the close of the only write descriptor follow; then the reader
looks at the write descriptors -/
def closedActs : List Act :=
  .call (.read 1) :: List.replicate 3 (.resume 0) ++ .call (.write [9]) :: List.replicate 5 (.resume 1) ++
    .call (.close .write) :: List.replicate 3 (.resume 2) ++ [.resume 0]

/-- the read returns 0 with a byte in the ring -/
theorem eof_unjustified : ∃ s, run (State.new (fun _ => 0) fun _ => 1) closedActs = some s ∧
    s.calls[0]? = some ⟨.read 1, .returned 0⟩ ∧ s.put = [9] ∧ s.taken = [] ∧
    ¬ Justified (State.new (fun _ => 0) fun _ => 1) closedActs 0 := by decide +kernel

/-- one byte is written and read, the writer closes, and the reader comes again -/
def drainedActs : List Act :=
  .call (.write [9]) :: List.replicate 5 (.resume 0) ++ .call (.read 1) :: List.replicate 3 (.resume 1) ++
    .call (.close .write) :: List.replicate 3 (.resume 2) ++ .call (.read 1) :: List.replicate 4 (.resume 3)

/-- the second read finds everything taken -/
theorem eof_justified_drained : ∃ s, run (State.new (fun _ => 0) fun _ => 1) drainedActs = some s ∧
    (s.calls[3]? = some ⟨.read 1, .returned 0⟩ ∧ s.taken = [9]) ∧
    Justified (State.new (fun _ => 0) fun _ => 1) drainedActs 3 ∧ s.put = s.taken :=
  exists_and_of_check (by decide +kernel) fun s hs hret =>
    eof_justified _ _ _ s (by decide +kernel) hs 3 1 (by decide) hret.1

end Rumicos.Fs.Pipes
