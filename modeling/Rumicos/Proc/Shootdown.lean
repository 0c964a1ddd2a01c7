/-
Cross-CPU TLB invalidation (`crates/proc/src/shootdown.rs`), step by step.

`shootdown_page` invalidates locally, takes SHOOTDOWN_SERIALIZE, publishes its request in the one slot of
PENDING_SHOOTDOWN, sends an interrupt (IPI) to each target, spins until `remaining` is 0 and drops the lock. The handler
reads the slot, invalidates, signals end of interrupt and decrements `remaining`. Every section under PENDING_SHOOTDOWN's
lock is one step here; between the steps of one call or handler anything else may run.

An IPI is a handler that has not started (`HandlerPc.sent`): it is delivered at any later time, in any order, once.
CPUs are numbered below MAX_CPUS = 64, so `cpu % 64` is the number itself. A CPU without an APIC id (`online`) is sent
nothing.

- `Inv`, `step_inv`: while a request is out, `remaining` is the number of targets that have not acknowledged it; between
  requests no handler is outstanding, so no handler ever meets another request than its own.

History variables, read by no step: `flushes` (the invalidations executed, oldest first) and `Call.began`.
-/
import Rumicos.Lib.Run

namespace Rumicos.Proc.Shootdown

open Lib List Option

/-! ## The system -/

abbrev Cpu := Fin 64

/-- for the numerals of CPUs -/
scoped instance numCpus : NeZero 64 := ⟨by decide⟩

/-- a u64 with one bit for each CPU -/
abbrev CpuMask := BitVec 64

def remoteTargets (activeMask : CpuMask) (selfId : Cpu) : CpuMask := activeMask &&& ~~~(1#64 <<< selfId.val)

/-- `u64::count_ones` -/
def countOnes (m : CpuMask) : ℕ := (Finset.univ.filter fun i : Cpu => m.getLsbD i).card

structure ShootdownRequest where
  targetMask : CpuMask
  remaining : ℕ
  virt : ℕ
deriving DecidableEq

/-- where a call of `shootdown_page` is -/
inductive CallPc where
  /-- before the local invalidation -/
  | flush
  /-- spins on SHOOTDOWN_SERIALIZE -/
  | lock
  | publish
  /-- the loop that sends the IPIs, at this CPU -/
  | send (cpu : ℕ)
  /-- spins on `remaining` -/
  | wait
  | unlock
  | returned
deriving DecidableEq

structure Call where
  cpu : Cpu
  mask : CpuMask
  virt : ℕ
  /-- history: the number of invalidations executed before the call -/
  began : ℕ
  pc : CallPc
deriving DecidableEq

def Call.remote (c : Call) : CpuMask := remoteTargets c.mask c.cpu

/-- where a run of `shootdown_handler` is -/
inductive HandlerPc where
  /-- the IPI is on its way -/
  | sent
  /-- the slot has been read -/
  | flush (virt : Option ℕ)
  | ack
deriving DecidableEq

structure Handler where
  cpu : Cpu
  pc : HandlerPc
deriving DecidableEq

structure System where
  /-- SHOOTDOWN_SERIALIZE -/
  serialize : Bool
  /-- PENDING_SHOOTDOWN -/
  slot : Option ShootdownRequest
  calls : List Call
  /-- handlers that have not finished -/
  handlers : List Handler
  /-- history: the invalidations executed, oldest first -/
  flushes : List (Cpu × ℕ)
deriving DecidableEq

def System.new : System := ⟨false, none, [], [], []⟩

/-- the next step of call `c`, at position `i`; none while it spins -/
def stepCall (online : Cpu → Bool) (s : System) (i : ℕ) (c : Call) : Option System :=
  let goto (pc : CallPc) : List Call := s.calls.set i { c with pc := pc }
  match c.pc with
  | .flush =>
    some { s with
      flushes := s.flushes ++ [(c.cpu, c.virt)]
      calls := goto (if c.remote = 0#64 then .returned else .lock) }
  | .lock => if s.serialize then none else some { s with serialize := true, calls := goto .publish }
  | .publish => some { s with slot := some ⟨c.remote, countOnes c.remote, c.virt⟩, calls := goto (.send 0) }
  | .send n =>
    if h : n < 64 then
      if c.remote.getLsbD n && online ⟨n, h⟩ then
        some { s with handlers := s.handlers ++ [⟨⟨n, h⟩, .sent⟩], calls := goto (.send (n + 1)) }
      else some { s with calls := goto (.send (n + 1)) }
    else some { s with calls := goto .wait }
  | .wait => if s.slot.all fun r => decide (r.remaining = 0) then some { s with calls := goto .unlock } else none
  | .unlock => some { s with serialize := false, calls := goto .returned }
  | .returned => none

/-- the address the handler on `cpu` finds in the slot -/
def pendingFor (slot : Option ShootdownRequest) (cpu : Cpu) : Option ℕ :=
  match slot with
  | some req => if req.targetMask.getLsbD cpu then some req.virt else none
  | none => none

/-- the next step of handler `h`, at position `j` -/
def stepHandler (s : System) (j : ℕ) (h : Handler) : System :=
  match h.pc with
  | .sent => { s with handlers := s.handlers.set j ⟨h.cpu, .flush (pendingFor s.slot h.cpu)⟩ }
  | .flush virt =>
    { s with
      flushes := s.flushes ++ (virt.map fun v => (h.cpu, v)).toList
      handlers := s.handlers.set j ⟨h.cpu, .ack⟩ }
  | .ack =>
    { s with
      -- `fetch_sub` wraps
      slot := s.slot.map fun r => { r with remaining := (r.remaining + 2 ^ 64 - 1) % 2 ^ 64 }
      handlers := s.handlers.eraseIdx j }

inductive Act where
  /-- a new call on `cpu` -/
  | call (cpu : Cpu) (mask : CpuMask) (virt : ℕ)
  /-- the next step of call `i` -/
  | resume (i : ℕ)
  /-- the next step of handler `j` -/
  | interrupt (j : ℕ)
deriving DecidableEq

def step (online : Cpu → Bool) (s : System) : Act → Option System
  | .call cpu mask virt => some { s with calls := s.calls ++ [⟨cpu, mask, virt, s.flushes.length, .flush⟩] }
  | .resume i => s.calls[i]?.bind (stepCall online s i)
  | .interrupt j => s.handlers[j]?.map (stepHandler s j)

def run (online : Cpu → Bool) (s : System) (as : List Act) : Option System := as.foldlM (step online) s

/-! ## Invalidations -/

/-- `cpu` has executed an invalidation of `virt` after the first `began` ones -/
def FlushedSince (flushes : List (Cpu × ℕ)) (began : ℕ) (cpu : Cpu) (virt : ℕ) : Prop :=
  ∃ i, began ≤ i ∧ flushes[i]? = some (cpu, virt)

variable {fs : List (Cpu × ℕ)} {c : Call} {t : Cpu} {n : ℕ} {online : Cpu → Bool} {m : CpuMask} {hs : List Handler}
variable {s s' : System} {a : Act}

theorem FlushedSince.append {began virt : ℕ} {cpu : Cpu} (h : FlushedSince fs began cpu virt) (gs : List (Cpu × ℕ)) :
    FlushedSince (fs ++ gs) began cpu virt := by
  obtain ⟨i, hi, hf⟩ := h
  refine ⟨i, hi, ?_⟩
  rw [getElem?_append_left (List.getElem?_eq_some_iff.1 hf).1]
  exact hf

theorem flushedSince_last {began : ℕ} (cpu : Cpu) (virt : ℕ) (h : began ≤ fs.length) :
    FlushedSince (fs ++ [(cpu, virt)]) began cpu virt :=
  ⟨fs.length, h, getElem?_concat_length⟩

theorem getLsbD_remote (h : c.mask.getLsbD t = true) (ht : t ≠ c.cpu) : c.remote.getLsbD t = true := by
  have hne : t.val ≠ c.cpu.val := fun hv => ht (Fin.ext hv)
  rw [Call.remote, remoteTargets, BitVec.getLsbD_and, h]
  rcases Nat.lt_or_ge t.val c.cpu.val with hl | hl
  · simp [hl]
  · have h0 : t.val - c.cpu.val ≠ 0 := by omega
    simp [h0]

/-! ## The invariant -/

/-- the call is between its acquisition of SHOOTDOWN_SERIALIZE and its release -/
def Call.holds (c : Call) : Bool :=
  match c.pc with
  | .publish | .send _ | .wait | .unlock => true
  | .flush | .lock | .returned => false

/-- the call's request is out: it has sent IPIs to the targets below the number -/
def Call.sentTo (c : Call) : Option ℕ :=
  match c.pc with
  | .send n => some n
  | .wait => some 64
  | _ => none

instance (t : Cpu) (l : List Cpu) : Decidable (t ∈ l) := inferInstance

/-- the targets below `n` that have no handler left to run -/
def acked (online : Cpu → Bool) (m : CpuMask) (hs : List Handler) (n : ℕ) : Finset Cpu :=
  Finset.univ.filter fun t => m.getLsbD t ∧ t.val < n ∧ online t ∧ t ∉ hs.map Handler.cpu

/-- handler `h` will invalidate, or has invalidated, what call `c` asks for -/
def Serves (fs : List (Cpu × ℕ)) (c : Call) (h : Handler) : Prop :=
  match h.pc with
  | .sent => True
  | .flush virt => virt = some c.virt
  | .ack => FlushedSince fs c.began h.cpu c.virt

theorem Serves.append {h : Handler} (hs : Serves fs c h) (gs : List (Cpu × ℕ)) : Serves (fs ++ gs) c h := by
  unfold Serves at hs ⊢
  split at hs
  · trivial
  · exact hs
  · exact FlushedSince.append hs gs

/-- what holds while call `c` has sent its request to the targets below `n` -/
structure Broadcast (online : Cpu → Bool) (s : System) (c : Call) (n : ℕ) : Prop where
  distinct : (s.handlers.map Handler.cpu).Nodup
  target : ∀ h ∈ s.handlers, c.remote.getLsbD h.cpu = true ∧ h.cpu.val < n ∧ online h.cpu = true
  serves : ∀ h ∈ s.handlers, Serves s.flushes c h
  flushed : ∀ t ∈ acked online c.remote s.handlers n, FlushedSince s.flushes c.began t c.virt
  /-- `remaining` counts the targets that have not acknowledged -/
  slot : ∃ r, s.slot = some ⟨c.remote, r, c.virt⟩ ∧
    r + (acked online c.remote s.handlers n).card = countOnes c.remote

/-- the call has done what it was called for -/
def Done (fs : List (Cpu × ℕ)) (c : Call) : Prop :=
  ∀ t : Cpu, c.remote.getLsbD t = true → FlushedSince fs c.began t c.virt

structure Inv (online : Cpu → Bool) (s : System) : Prop where
  began : ∀ c ∈ s.calls, c.began ≤ s.flushes.length
  /-- every call past its first step has invalidated locally -/
  own : ∀ c ∈ s.calls, c.pc ≠ .flush → FlushedSince s.flushes c.began c.cpu c.virt
  done : ∀ c ∈ s.calls, c.pc = .unlock ∨ c.pc = .returned → Done s.flushes c
  /-- the lock is taken by exactly the call that holds it -/
  holder : s.calls.countP Call.holds = s.serialize.toNat
  /-- no handler outlives the request it was sent for -/
  idle : (∀ c ∈ s.calls, c.sentTo = none) → s.handlers = []
  out : ∀ c ∈ s.calls, ∀ n, c.sentTo = some n → Broadcast online s c n

theorem inv_new (online : Cpu → Bool) : Inv online System.new where
  began := by simp [System.new]
  own := by simp [System.new]
  done := by simp [System.new]
  holder := rfl
  idle := fun _ => rfl
  out := by simp [System.new]

theorem Call.holds_of_sentTo (h : c.sentTo = some n) : c.holds = true := by
  unfold Call.sentTo at h
  unfold Call.holds
  split at h <;> simp_all

theorem acked_subset (online : Cpu → Bool) (m : CpuMask) (hs : List Handler) (n : ℕ) :
    acked online m hs n ⊆ Finset.univ.filter fun i : Cpu => m.getLsbD i := by
  intro t ht
  simp only [acked, Finset.mem_filter, Finset.mem_univ, true_and] at ht ⊢
  exact ht.1

theorem mem_acked : t ∈ acked online m hs n ↔ m.getLsbD t = true ∧ t.val < n ∧ online t = true ∧
    t ∉ hs.map Handler.cpu := by
  simp [acked]

theorem acked_send (t : Cpu) : acked online m (hs ++ [⟨t, .sent⟩]) (t.val + 1) = acked online m hs t.val := by
  ext u
  have hv : u = t ↔ u.val = t.val := Fin.ext_iff
  rw [mem_acked, mem_acked, map_append, mem_append, map_singleton, mem_singleton]
  constructor
  · rintro ⟨hm, hlt, ho, hn⟩
    exact ⟨hm, by have := mt hv.2 (fun he => hn (.inr he)); omega, ho, fun he => hn (.inl he)⟩
  · rintro ⟨hm, hlt, ho, hn⟩
    refine ⟨hm, by omega, ho, ?_⟩
    rintro (he | he)
    · exact hn he
    · have := hv.1 he
      omega

theorem acked_skip (hn : n < 64) (h : ¬ (m.getLsbD n && online ⟨n, hn⟩) = true) :
    acked online m hs (n + 1) = acked online m hs n := by
  ext u
  rw [mem_acked, mem_acked]
  constructor
  · rintro ⟨hm, hlt, ho, hu⟩
    refine ⟨hm, ?_, ho, hu⟩
    by_contra hge
    have hv : u.val = n := by omega
    have hu' : u = ⟨n, hn⟩ := Fin.ext hv
    rw [hu'] at hm ho
    exact h (by rw [ho]; simpa using hm)
  · rintro ⟨hm, hlt, ho, hu⟩
    exact ⟨hm, by omega, ho, hu⟩

theorem acked_all (hn : 64 ≤ n) : acked online m hs 64 = acked online m hs n := by
  ext u
  have hn' : u.val < n := by omega
  simp [mem_acked, hn']

/-- the acknowledgement of handler `j` adds its CPU -/
theorem acked_ack {j : ℕ} {h : Handler} (hd : (hs.map Handler.cpu).Nodup) (hj : hs[j]? = some h)
    (ht : m.getLsbD h.cpu = true ∧ h.cpu.val < n ∧ online h.cpu = true) :
    acked online m (hs.eraseIdx j) n = insert h.cpu (acked online m hs n) ∧ h.cpu ∉ acked online m hs n := by
  have hmem : h.cpu ∈ hs.map Handler.cpu := mem_map_of_mem (mem_of_getElem? hj)
  have hcpu : ∀ u, u ∈ (hs.eraseIdx j).map Handler.cpu ↔ u ∈ hs.map Handler.cpu ∧ u ≠ h.cpu := by
    intro u
    have hj' : (hs.map Handler.cpu)[j]? = some h.cpu := by rw [getElem?_map, hj]; rfl
    obtain ⟨hlt, he⟩ := List.getElem?_eq_some_iff.1 hj'
    rw [← eraseIdx_map, ← he, ← hd.erase_getElem _ hlt, hd.mem_erase_iff]
    exact and_comm
  constructor
  · ext u
    rw [mem_acked, Finset.mem_insert, mem_acked, hcpu]
    by_cases hu : u = h.cpu
    · subst hu
      simp [ht]
    · simp [hu]
  · rw [mem_acked]
    exact fun ha => ha.2.2.2 hmem

/-! ## The steps of a call -/

section Calls

variable {c' : Call} {i : ℕ}

theorem Broadcast.congr (hB : Broadcast online s c n) {gs : List (Cpu × ℕ)} (hh : s'.handlers = s.handlers)
    (hs : s'.slot = s.slot) (hf : s'.flushes = s.flushes ++ gs) (hr : c'.remote = c.remote) (hv : c'.virt = c.virt)
    (hb : c'.began = c.began) : Broadcast online s' c' n where
  distinct := by rw [hh]; exact hB.distinct
  target := by rw [hh, hr]; exact hB.target
  serves := by
    rw [hh, hf]
    intro h hmem
    have hsv := (hB.serves h hmem).append gs
    unfold Serves at hsv ⊢
    rw [hv, hb]
    exact hsv
  flushed := by
    rw [hh, hr, hf, hv, hb]
    exact fun t ht => (hB.flushed t ht).append gs
  slot := by rw [hh, hs, hr, hv]; exact hB.slot

theorem Inv.others (hI : Inv online s) (hi : s.calls[i]? = some c) (hh : c.holds = true) {d : Call}
    (hd : d ∈ s.calls.set i c') : d = c' ∨ d ∈ s.calls ∧ d.holds = false := by
  obtain ⟨k, hk⟩ := mem_iff_getElem?.1 hd
  obtain ⟨hlt, he⟩ := List.getElem?_eq_some_iff.1 hi
  rw [getElem?_set] at hk
  split at hk
  · left
    simpa [hlt, eq_comm] using hk
  · rename_i hik
    right
    refine ⟨mem_of_getElem? hk, ?_⟩
    -- with `c` out of the way nobody is counted
    have hz : (s.calls.set i { c with pc := .flush }).countP Call.holds = 0 := by
      have h1 : s.serialize.toNat ≤ 1 := Bool.toNat_le _
      have h0 : ({ c with pc := .flush } : Call).holds = false := rfl
      rw [countP_set hlt, he, hI.holder, hh, h0]
      simp [Nat.sub_eq_zero_of_le h1]
    have hmem : d ∈ s.calls.set i { c with pc := .flush } := by
      refine mem_of_getElem? (?_ : _[k]? = some d)
      rw [getElem?_set_ne hik]
      exact hk
    simpa using countP_eq_zero.1 hz d hmem

theorem not_sentTo_of_not_holds (h : c.holds = false) : c.sentTo = none := by
  by_contra hs
  obtain ⟨n, hn⟩ := ne_none_iff_exists'.1 hs
  exact absurd (Call.holds_of_sentTo hn) (by simp [h])

section

variable (hI : Inv online s)
include hI

theorem Inv.locked (hc : c ∈ s.calls) (hh : c.holds = true) : s.serialize = true := by
  have hpos : 0 < s.calls.countP Call.holds := countP_pos_iff.2 ⟨c, hc, hh⟩
  rw [hI.holder] at hpos
  by_contra hs
  rw [Bool.eq_false_of_not_eq_true hs] at hpos
  exact absurd hpos (by decide)

theorem Inv.quiet (hi : s.calls[i]? = some c) (hh : c.holds = true) (hn : c.sentTo = none) :
    s.handlers = [] := by
  refine hI.idle fun d hd => ?_
  obtain ⟨hlt, he⟩ := List.getElem?_eq_some_iff.1 hi
  have hset : s.calls.set i c = s.calls := by rw [← he]; exact set_getElem_self hlt
  rw [← hset] at hd
  rcases hI.others hi hh hd with rfl | ⟨-, hd⟩
  · exact hn
  · exact not_sentTo_of_not_holds hd

theorem inv_holder {pc : CallPc} (hi : s.calls[i]? = some c) (hh : c.holds = true)
    (hcalls : s'.calls = s.calls.set i { c with pc := pc }) (hf : s'.flushes = s.flushes)
    (hser : s'.serialize = ({ c with pc := pc } : Call).holds)
    (hdone : pc = .unlock ∨ pc = .returned → Done s.flushes c)
    (hidle : ({ c with pc := pc } : Call).sentTo = none → s'.handlers = [])
    (hout : ∀ n, ({ c with pc := pc } : Call).sentTo = some n → Broadcast online s' { c with pc := pc } n) :
    Inv online s' := by
  have hc : c ∈ s.calls := mem_of_getElem? hi
  obtain ⟨hlt, he⟩ := List.getElem?_eq_some_iff.1 hi
  have hmem : ({ c with pc := pc } : Call) ∈ s'.calls := by rw [hcalls]; exact mem_set hlt _
  have hpc : c.pc ≠ .flush := by
    intro hp
    simp [Call.holds, hp] at hh
  constructor
  · intro d hd
    rw [hcalls] at hd
    rw [hf]
    rcases hI.others hi hh hd with rfl | ⟨hd, -⟩
    · exact hI.began c hc
    · exact hI.began d hd
  · intro d hd hne
    rw [hcalls] at hd
    rw [hf]
    rcases hI.others hi hh hd with rfl | ⟨hd, -⟩
    · exact hI.own c hc hpc
    · exact hI.own d hd hne
  · intro d hd hpd
    rw [hcalls] at hd
    rw [hf]
    rcases hI.others hi hh hd with rfl | ⟨hd, -⟩
    · exact hdone hpd
    · exact hI.done d hd hpd
  · have h1 : s.serialize.toNat ≤ 1 := Bool.toNat_le _
    rw [hcalls, countP_set hlt, he, hI.holder, hh, hser]
    cases ({ c with pc := pc } : Call).holds <;> simp <;> omega
  · exact fun hnone => hidle (hnone _ hmem)
  · intro d hd n hn
    rw [hcalls] at hd
    rcases hI.others hi hh hd with rfl | ⟨-, hd⟩
    · exact hout n hn
    · rw [not_sentTo_of_not_holds hd] at hn
      exact absurd hn (by simp)

theorem Inv.free (hs : s.serialize = false) :
    (∀ d ∈ s.calls, d.holds = false) ∧ s.handlers = [] := by
  have hz : s.calls.countP Call.holds = 0 := by rw [hI.holder, hs]; rfl
  have hall : ∀ d ∈ s.calls, d.holds = false := fun d hd => by simpa using countP_eq_zero.1 hz d hd
  exact ⟨hall, hI.idle fun d hd => not_sentTo_of_not_holds (hall d hd)⟩

variable (hi : s.calls[i]? = some c)
include hi

theorem inv_lock (hpc : c.pc = .lock) (hs : s.serialize = false) :
    Inv online { s with serialize := true, calls := s.calls.set i { c with pc := .publish } } := by
  have hc : c ∈ s.calls := mem_of_getElem? hi
  obtain ⟨hlt, he⟩ := List.getElem?_eq_some_iff.1 hi
  obtain ⟨hfree, hidle⟩ := hI.free hs
  constructor
  · exact forall_mem_set hI.began (hI.began c hc)
  · exact forall_mem_set hI.own fun _ => hI.own c hc (by simp [hpc])
  · exact forall_mem_set hI.done (by simp)
  · have hcf : c.holds = false := hfree c hc
    rw [countP_set hlt, he, hI.holder, hs, hcf]
    rfl
  · exact fun _ => hidle
  · refine forall_mem_set (fun d hd n hn => ?_) (by simp [Call.sentTo])
    rw [not_sentTo_of_not_holds (hfree d hd)] at hn
    exact absurd hn (by simp)

theorem inv_flush (hpc : c.pc = .flush) :
    Inv online { s with
      flushes := s.flushes ++ [(c.cpu, c.virt)]
      calls := s.calls.set i { c with pc := if c.remote = 0#64 then .returned else .lock } } := by
  have hc : c ∈ s.calls := mem_of_getElem? hi
  obtain ⟨hlt, he⟩ := List.getElem?_eq_some_iff.1 hi
  have hlen : s.flushes.length ≤ (s.flushes ++ [(c.cpu, c.virt)]).length := by simp
  have hcf : c.holds = false := by simp [Call.holds, hpc]
  have hnh : ({ c with pc := if c.remote = 0#64 then .returned else .lock } : Call).holds = false := by
    split_ifs <;> rfl
  constructor
  · exact forall_mem_set (fun d hd => (hI.began d hd).trans hlen) ((hI.began c hc).trans hlen)
  · exact forall_mem_set (fun d hd hne => (hI.own d hd hne).append _) fun _ => flushedSince_last _ _ (hI.began c hc)
  · refine forall_mem_set (fun d hd hpd t ht => (hI.done d hd hpd t ht).append _) fun hpd t ht => ?_
    -- the call returns at once only without remote targets
    by_cases h0 : c.remote = 0#64
    · have ht' : c.remote.getLsbD t = true := ht
      simp [h0] at ht'
    · simp [h0] at hpd
  · rw [countP_set hlt, he, hI.holder, hcf, hnh]
    simp
  · intro hnone
    refine hI.idle fun d hd => ?_
    obtain ⟨k, hk⟩ := mem_iff_getElem?.1 hd
    by_cases hik : i = k
    · subst hik
      cases hi.symm.trans hk
      exact not_sentTo_of_not_holds hcf
    · refine hnone d (mem_of_getElem? (?_ : _[k]? = some d))
      rw [getElem?_set_ne hik]
      exact hk
  · refine forall_mem_set (fun d hd n hn => (hI.out d hd n hn).congr rfl rfl rfl rfl rfl rfl) fun n hn => ?_
    rw [not_sentTo_of_not_holds hnh] at hn
    exact absurd hn (by simp)

theorem inv_publish (hpc : c.pc = .publish) :
    Inv online { s with
      slot := some ⟨c.remote, countOnes c.remote, c.virt⟩
      calls := s.calls.set i { c with pc := .send 0 } } := by
  have hh : c.holds = true := by simp [Call.holds, hpc]
  have hser : s.serialize = true := hI.locked (mem_of_getElem? hi) hh
  have hidle : s.handlers = [] := hI.quiet hi hh (by simp [Call.sentTo, hpc])
  have hz : acked online c.remote [] 0 = ∅ := by
    refine Finset.eq_empty_of_forall_notMem fun t ht => ?_
    exact absurd (mem_acked.1 ht).2.1 (by omega)
  refine inv_holder hI hi hh rfl rfl hser (by simp) (by simp [Call.sentTo]) fun n hn => ?_
  obtain rfl : 0 = n := by simpa [Call.sentTo] using hn
  constructor
  · simp [hidle]
  · simp [hidle]
  · simp [hidle]
  · intro t ht
    have ht' : t ∈ acked online c.remote s.handlers 0 := ht
    rw [hidle, hz] at ht'
    exact absurd ht' (Finset.notMem_empty t)
  · refine ⟨countOnes c.remote, rfl, ?_⟩
    show _ + (acked online c.remote s.handlers 0).card = _
    rw [hidle, hz]
    rfl

theorem inv_send (hpc : c.pc = .send n) (hn : n < 64)
    (hon : (c.remote.getLsbD n && online ⟨n, hn⟩) = true) :
    Inv online { s with
      handlers := s.handlers ++ [⟨⟨n, hn⟩, .sent⟩]
      calls := s.calls.set i { c with pc := .send (n + 1) } } := by
  have hc : c ∈ s.calls := mem_of_getElem? hi
  have hh : c.holds = true := by simp [Call.holds, hpc]
  have hB : Broadcast online s c n := hI.out c hc n (by simp [Call.sentTo, hpc])
  obtain ⟨hon1, hon2⟩ := Bool.and_eq_true_iff.1 hon
  have hack : acked online c.remote (s.handlers ++ [⟨⟨n, hn⟩, .sent⟩]) (n + 1) = acked online c.remote s.handlers n :=
    acked_send ⟨n, hn⟩
  refine inv_holder hI hi hh rfl rfl (hI.locked hc hh) (by simp) (by simp [Call.sentTo]) fun m hm => ?_
  obtain rfl : n + 1 = m := by simpa [Call.sentTo] using hm
  constructor
  · rw [map_append, map_singleton, ← concat_eq_append]
    refine hB.distinct.concat fun hmem => ?_
    obtain ⟨h, hmem, he⟩ := mem_map.1 hmem
    -- the earlier ones went to lower numbers
    have hlt := (hB.target h hmem).2.1
    rw [he] at hlt
    exact lt_irrefl _ hlt
  · refine forall_mem_append.2 ⟨fun h hmem => ?_, forall_mem_singleton.2 ⟨hon1, Nat.lt_succ_self n, hon2⟩⟩
    obtain ⟨h1, h2, h3⟩ := hB.target h hmem
    exact ⟨h1, by omega, h3⟩
  · exact forall_mem_append.2 ⟨hB.serves, forall_mem_singleton.2 trivial⟩
  · intro t ht
    refine hB.flushed t ?_
    rw [← hack]
    exact ht
  · obtain ⟨r, hr, hsum⟩ := hB.slot
    refine ⟨r, hr, ?_⟩
    rw [← hack] at hsum
    exact hsum

/-- nothing is sent, the loop goes on with `acked` as it was -/
theorem inv_next {pc : CallPc} {m : ℕ} (hn : c.sentTo = some n)
    (hm : ({ c with pc := pc } : Call).sentTo = some m) (hle : ∀ t : Cpu, t.val < n → t.val < m)
    (hack : acked online c.remote s.handlers m = acked online c.remote s.handlers n) :
    Inv online { s with calls := s.calls.set i { c with pc := pc } } := by
  have hc : c ∈ s.calls := mem_of_getElem? hi
  have hh : c.holds = true := Call.holds_of_sentTo hn
  have hh' : ({ c with pc := pc } : Call).holds = true := Call.holds_of_sentTo hm
  have hB : Broadcast online s c n := hI.out c hc n hn
  refine inv_holder hI hi hh rfl rfl ((hI.locked hc hh).trans hh'.symm) ?_ (by simp [hm]) fun k hk => ?_
  · rintro (rfl | rfl) <;> simp [Call.sentTo] at hm
  · cases hm.symm.trans hk
    obtain ⟨r, hr, hsum⟩ := hB.slot
    refine ⟨hB.distinct, fun h hmem => ?_, hB.serves, fun t ht => hB.flushed t ?_, r, hr, ?_⟩
    · obtain ⟨h1, h2, h3⟩ := hB.target h hmem
      exact ⟨h1, hle _ h2, h3⟩
    · rw [← hack]
      exact ht
    · rw [← hack] at hsum
      exact hsum

/-- once `remaining` is 0 every target has acknowledged -/
theorem inv_wait (hpc : c.pc = .wait)
    (hz : s.slot.all (fun r => decide (r.remaining = 0)) = true) :
    Inv online { s with calls := s.calls.set i { c with pc := .unlock } } := by
  have hc : c ∈ s.calls := mem_of_getElem? hi
  have hh : c.holds = true := by simp [Call.holds, hpc]
  have hB : Broadcast online s c 64 := hI.out c hc 64 (by simp [Call.sentTo, hpc])
  obtain ⟨r, hr, hsum⟩ := hB.slot
  obtain rfl : r = 0 := by simpa [hr] using hz
  have hall : acked online c.remote s.handlers 64 = Finset.univ.filter fun i : Cpu => c.remote.getLsbD i := by
    refine Finset.eq_of_subset_of_card_le (acked_subset _ _ _ _) ?_
    rw [Nat.zero_add] at hsum
    exact hsum.ge
  have hmem : ∀ t : Cpu, c.remote.getLsbD t = true → t ∈ acked online c.remote s.handlers 64 := by
    rw [hall]
    simp
  refine inv_holder hI hi hh rfl rfl (hI.locked hc hh) ?_ ?_ (by simp [Call.sentTo])
  · exact fun _ t ht => hB.flushed t (hmem t ht)
  · intro _
    refine eq_nil_iff_forall_not_mem.2 fun h hmemh => ?_
    have hack := hmem h.cpu (hB.target h hmemh).1
    exact (mem_acked.1 hack).2.2.2 (mem_map_of_mem hmemh)

theorem inv_unlock (hpc : c.pc = .unlock) :
    Inv online { s with serialize := false, calls := s.calls.set i { c with pc := .returned } } := by
  have hc : c ∈ s.calls := mem_of_getElem? hi
  have hh : c.holds = true := by simp [Call.holds, hpc]
  refine inv_holder hI hi hh rfl rfl rfl (fun _ => hI.done c hc (.inl hpc)) (fun _ => ?_) (by simp [Call.sentTo])
  exact hI.quiet hi hh (by simp [Call.sentTo, hpc])

/-- **A step of a call keeps the invariant.** -/
theorem inv_stepCall (h : stepCall online s i c = some s') :
    Inv online s' := by
  unfold stepCall at h
  split at h
  case h_1 hpc =>
    cases h
    exact inv_flush hI hi hpc
  case h_2 hpc =>
    split_ifs at h with hs
    cases h
    exact inv_lock hI hi hpc (Bool.eq_false_of_not_eq_true hs)
  case h_3 hpc =>
    cases h
    exact inv_publish hI hi hpc
  case h_4 n hpc =>
    have hto : c.sentTo = some n := by simp [Call.sentTo, hpc]
    split_ifs at h with hn hon
    · cases h
      exact inv_send hI hi hpc hn hon
    · cases h
      exact inv_next hI hi hto rfl (fun t ht => by omega) (acked_skip hn hon)
    · cases h
      exact inv_next hI hi hto rfl (fun t _ => t.isLt) (acked_all (by omega))
  case h_5 hpc =>
    split_ifs at h with hz
    cases h
    exact inv_wait hI hi hpc hz
  case h_6 hpc =>
    cases h
    exact inv_unlock hI hi hpc
  case h_7 => exact absurd h (by simp)

end

end Calls

/-! ## The steps of a handler -/

section Handlers

variable {h : Handler} {j : ℕ}

theorem inv_handler (hI : Inv online s) (hj : s.handlers[j]? = some h) (gs : List (Cpu × ℕ)) (hc : s'.calls = s.calls)
    (hs : s'.serialize = s.serialize) (hf : s'.flushes = s.flushes ++ gs)
    (hout : ∀ c ∈ s.calls, ∀ n, Broadcast online s c n → Broadcast online s' c n) : Inv online s' where
  began := by
    rw [hc, hf, length_append]
    exact fun c hmem => (hI.began c hmem).trans (Nat.le_add_right _ _)
  own := by
    rw [hc, hf]
    exact fun c hmem hne => (hI.own c hmem hne).append gs
  done := by
    rw [hc, hf]
    exact fun c hmem hp t ht => (hI.done c hmem hp t ht).append gs
  holder := by rw [hc, hs]; exact hI.holder
  idle := by
    intro hnone
    rw [hc] at hnone
    -- a handler runs, so a request is out
    have hnil := hI.idle hnone
    rw [hnil] at hj
    exact absurd hj (by simp)
  out := by
    rw [hc]
    exact fun c hmem n hn => hout c hmem n (hI.out c hmem n hn)

/-- moving handler `j` on leaves the handlers' CPUs alone -/
theorem map_cpu_set (hj : hs[j]? = some h) (pc : HandlerPc) :
    (hs.set j ⟨h.cpu, pc⟩).map Handler.cpu = hs.map Handler.cpu := by
  obtain ⟨hlt, he⟩ := List.getElem?_eq_some_iff.1 hj
  refine ext_getElem? fun k => ?_
  rw [getElem?_map, getElem?_map, getElem?_set]
  split_ifs with hk
  · subst hk
    rw [hj]
    rfl
  · rfl

/-- handler `j` moves on without acknowledging -/
theorem broadcast_move (hB : Broadcast online s c n) (hj : s.handlers[j]? = some h) {pc : HandlerPc}
    (gs : List (Cpu × ℕ)) (hh : s'.handlers = s.handlers.set j ⟨h.cpu, pc⟩) (hs : s'.slot = s.slot)
    (hf : s'.flushes = s.flushes ++ gs) (hserves : Serves s'.flushes c ⟨h.cpu, pc⟩) : Broadcast online s' c n := by
  have hmap : s'.handlers.map Handler.cpu = s.handlers.map Handler.cpu := by rw [hh]; exact map_cpu_set hj pc
  have hack : acked online c.remote s'.handlers n = acked online c.remote s.handlers n := by
    unfold acked
    rw [hmap]
  constructor
  · rw [hmap]
    exact hB.distinct
  · rw [hh]
    exact forall_mem_set hB.target (hB.target h (mem_of_getElem? hj))
  · rw [hf] at hserves ⊢
    rw [hh]
    exact forall_mem_set (fun g hg => (hB.serves g hg).append gs) hserves
  · rw [hack, hf]
    exact fun t ht => (hB.flushed t ht).append gs
  · rw [hack, hs]
    exact hB.slot

theorem countOnes_le (m : CpuMask) : countOnes m ≤ 64 :=
  (Finset.card_le_univ _).trans_eq (Fintype.card_fin 64)

theorem Broadcast.remaining_pos (hB : Broadcast online s c n) (hj : s.handlers[j]? = some h) {r : ℕ}
    (hr : r + (acked online c.remote s.handlers n).card = countOnes c.remote) : r ≠ 0 := by
  have hmem : h ∈ s.handlers := mem_of_getElem? hj
  obtain ⟨ht, -⟩ := hB.target h hmem
  have hlt : (acked online c.remote s.handlers n).card < countOnes c.remote := by
    refine Finset.card_lt_card ⟨acked_subset _ _ _ _, fun hsub => ?_⟩
    have hack : h.cpu ∈ acked online c.remote s.handlers n := hsub (by simpa using ht)
    exact (mem_acked.1 hack).2.2.2 (mem_map_of_mem hmem)
  omega

theorem broadcast_ack (hB : Broadcast online s c n) (hj : s.handlers[j]? = some h) (hpc : h.pc = .ack) :
    Broadcast online (stepHandler s j h) c n := by
  have hmem : h ∈ s.handlers := mem_of_getElem? hj
  obtain ⟨hack, hnot⟩ := acked_ack hB.distinct hj (hB.target h hmem)
  have hserves : FlushedSince s.flushes c.began h.cpu c.virt := by
    have hsv := hB.serves h hmem
    unfold Serves at hsv
    rw [hpc] at hsv
    exact hsv
  obtain ⟨r, hr, hsum⟩ := hB.slot
  have hpos : r ≠ 0 := hB.remaining_pos hj hsum
  have h64 := countOnes_le c.remote
  have hsub : (r + 2 ^ 64 - 1) % 2 ^ 64 = r - 1 := by omega
  rw [stepHandler, hpc]
  constructor
  · rw [← eraseIdx_map]
    exact hB.distinct.eraseIdx j
  · exact fun g hg => hB.target g (mem_of_mem_eraseIdx hg)
  · exact fun g hg => hB.serves g (mem_of_mem_eraseIdx hg)
  · intro t ht
    rw [hack] at ht
    rcases Finset.mem_insert.1 ht with rfl | ht
    · exact hserves
    · exact hB.flushed t ht
  · refine ⟨r - 1, ?_, ?_⟩
    · simp only [hr, map_some, hsub]
    · rw [hack, Finset.card_insert_of_notMem hnot]
      omega

/-- **A step of a handler keeps the invariant.** -/
theorem inv_stepHandler (hI : Inv online s) (hj : s.handlers[j]? = some h) : Inv online (stepHandler s j h) := by
  have hmem : h ∈ s.handlers := mem_of_getElem? hj
  rcases hpc : h.pc with _ | virt | _
  · refine inv_handler hI hj [] ?_ ?_ ?_ fun c _ n hB => ?_
    · rw [stepHandler, hpc]
    · rw [stepHandler, hpc]
    · rw [stepHandler, hpc, append_nil]
    · obtain ⟨r, hr, -⟩ := hB.slot
      have hp : pendingFor s.slot h.cpu = some c.virt := by
        rw [hr]
        exact if_pos (hB.target h hmem).1
      rw [stepHandler, hpc]
      exact broadcast_move hB hj [] rfl rfl (append_nil _).symm hp
  · refine inv_handler hI hj (virt.map fun v => (h.cpu, v)).toList ?_ ?_ ?_ fun c hc n hB => ?_
    · rw [stepHandler, hpc]
    · rw [stepHandler, hpc]
    · rw [stepHandler, hpc]
    · have hsv := hB.serves h hmem
      unfold Serves at hsv
      rw [hpc] at hsv
      obtain rfl : virt = some c.virt := hsv
      rw [stepHandler, hpc]
      exact broadcast_move hB hj [(h.cpu, c.virt)] rfl rfl rfl (flushedSince_last _ _ (hI.began c hc))
  · refine inv_handler hI hj [] ?_ ?_ ?_ fun c _ n hB => broadcast_ack hB hj hpc
    · rw [stepHandler, hpc]
    · rw [stepHandler, hpc]
    · rw [stepHandler, hpc, append_nil]

end Handlers

/-! ## Whole runs -/

theorem inv_call (hI : Inv online s) (cpu : Cpu) (mask : CpuMask) (virt : ℕ) :
    Inv online { s with calls := s.calls ++ [⟨cpu, mask, virt, s.flushes.length, .flush⟩] } := by
  constructor
  · exact forall_mem_append.2 ⟨hI.began, forall_mem_singleton.2 le_rfl⟩
  · exact forall_mem_append.2 ⟨hI.own, forall_mem_singleton.2 fun hne => absurd rfl hne⟩
  · exact forall_mem_append.2 ⟨hI.done, forall_mem_singleton.2 (by simp)⟩
  · rw [countP_append, hI.holder]
    rfl
  · exact fun hnone => hI.idle fun c hc => hnone c (mem_append_left _ hc)
  · refine forall_mem_append.2 ⟨fun c hc n hn => ?_, forall_mem_singleton.2 (by simp [Call.sentTo])⟩
    exact (hI.out c hc n hn).congr rfl rfl (append_nil _).symm rfl rfl rfl

theorem step_inv (hI : Inv online s) (h : step online s a = some s') : Inv online s' := by
  rcases a with ⟨cpu, mask, virt⟩ | i | j
  · cases h
    exact inv_call hI cpu mask virt
  · obtain ⟨c, hi, hc⟩ := bind_eq_some_iff.1 h
    exact inv_stepCall hI hi hc
  · obtain ⟨g, hj, rfl⟩ := map_eq_some_iff.1 h
    exact inv_stepHandler hI hj

/-! ### What a step leaves alone -/

theorem stepCall_keeps {i : ℕ} (h : stepCall online s i c = some s') :
    (∃ pc, s'.calls = s.calls.set i { c with pc := pc }) ∧ ∃ gs, s'.flushes = s.flushes ++ gs := by
  unfold stepCall at h
  split at h
  case h_1 =>
    cases h
    exact ⟨⟨_, rfl⟩, _, rfl⟩
  case h_2 | h_5 =>
    split_ifs at h
    cases h
    exact ⟨⟨_, rfl⟩, [], (append_nil _).symm⟩
  case h_4 =>
    split_ifs at h <;> obtain rfl := some.inj h <;> exact ⟨⟨_, rfl⟩, [], (append_nil _).symm⟩
  case h_7 => exact absurd h (by simp)
  all_goals
    cases h
    exact ⟨⟨_, rfl⟩, [], (append_nil _).symm⟩

theorem step_flushes (h : step online s a = some s') : ∃ gs, s'.flushes = s.flushes ++ gs := by
  cases a with
  | call cpu mask virt =>
    cases h
    exact ⟨[], (append_nil _).symm⟩
  | resume i =>
    obtain ⟨c, -, hc⟩ := bind_eq_some_iff.1 h
    exact (stepCall_keeps hc).2
  | interrupt j =>
    obtain ⟨g, -, rfl⟩ := map_eq_some_iff.1 h
    unfold stepHandler
    split
    · exact ⟨[], (append_nil _).symm⟩
    · exact ⟨_, rfl⟩
    · exact ⟨[], (append_nil _).symm⟩

theorem step_call (h : step online s a = some s') {j : ℕ} {d : Call} (hd : s.calls[j]? = some d) :
    ∃ d', s'.calls[j]? = some d' ∧ d'.mask = d.mask ∧ d'.virt = d.virt ∧ d'.began = d.began := by
  cases a with
  | call cpu mask virt =>
    cases h
    refine ⟨d, ?_, rfl, rfl, rfl⟩
    rw [getElem?_append_left (List.getElem?_eq_some_iff.1 hd).1]
    exact hd
  | resume i =>
    obtain ⟨c, hi, hc⟩ := bind_eq_some_iff.1 h
    obtain ⟨⟨pc, hcalls⟩, -⟩ := stepCall_keeps hc
    rw [hcalls, getElem?_set]
    split_ifs with hij hlt
    · subst hij
      cases hi.symm.trans hd
      exact ⟨_, rfl, rfl, rfl, rfl⟩
    · subst hij
      exact absurd (List.getElem?_eq_some_iff.1 hd).1 hlt
    · exact ⟨d, hd, rfl, rfl, rfl⟩
  | interrupt k =>
    obtain ⟨g, -, rfl⟩ := map_eq_some_iff.1 h
    refine ⟨d, ?_, rfl, rfl, rfl⟩
    unfold stepHandler
    split <;> exact hd

theorem reachable_inv {as : List Act} (h : run online System.new as = some s) : Inv online s :=
  foldlM_inv (fun _ => Inv online) (fun _ _ _ _ hI hs => step_inv hI hs) (inv_new online) h

/-- a call that has returned has been served by every CPU of its mask, its own included -/
theorem Inv.returned (hI : Inv online s) (hc : c ∈ s.calls) (hpc : c.pc = .returned) (ht : c.mask.getLsbD t = true) :
    FlushedSince s.flushes c.began t c.virt := by
  by_cases hself : t = c.cpu
  · subst hself
    exact hI.own c hc (by simp [hpc])
  · exact hI.done c hc (.inr hpc) t (getLsbD_remote ht hself)

/-- **Returned means invalidated everywhere.** In every state that CPUs calling `shootdown_page` with any masks can reach,
under any interleaving with the handlers: a call that has returned has had every CPU of its mask execute an invalidation of
its address since it began, and a handler about to acknowledge finds `remaining` above 0, so it never underflows. -/
theorem shootdown_exact (online : Cpu → Bool) (as : List Act) (s : System) (h : run online System.new as = some s) :
    (∀ c ∈ s.calls, c.pc = .returned →
      ∀ t : Cpu, c.mask.getLsbD t = true → FlushedSince s.flushes c.began t c.virt) ∧
    ∀ g ∈ s.handlers, ∃ r, s.slot = some r ∧ r.remaining ≠ 0 := by
  have hI := reachable_inv h
  constructor
  · exact fun c hc hpc t ht => hI.returned hc hpc ht
  · intro g hg
    obtain ⟨j, hj⟩ := mem_iff_getElem?.1 hg
    -- a handler outstanding means a request is out
    have hout : ∃ c ∈ s.calls, ∃ n, c.sentTo = some n := by
      by_contra hno
      have hnil := hI.idle fun c hc => by
        by_contra hne
        exact hno ⟨c, hc, ne_none_iff_exists'.1 hne⟩
      rw [hnil] at hg
      exact absurd hg not_mem_nil
    obtain ⟨c, hc, n, hn⟩ := hout
    have hB := hI.out c hc n hn
    obtain ⟨r, hr, hsum⟩ := hB.slot
    exact ⟨_, hr, hB.remaining_pos hj hsum⟩

/-- CPU 0 invalidates a page that is also active on CPU 1 -/
def pairActs : List Act :=
  .call 0 3#64 4096 :: List.replicate 68 (.resume 0) ++ List.replicate 3 (.interrupt 0) ++ List.replicate 2 (.resume 0)

/-- the call returns with the page invalidated on both CPUs -/
theorem shootdown_exact_pair : ∃ s c, run (fun _ => true) System.new pairActs = some s ∧ c ∈ s.calls ∧
    c.pc = .returned ∧ ∀ t : Cpu, t.val < 2 → FlushedSince s.flushes 0 t 4096 := by
  obtain ⟨s, hs, hcalls⟩ : ∃ s, run (fun _ => true) System.new pairActs = some s ∧
    s.calls = [⟨0, 3#64, 4096, 0, .returned⟩] := by
    decide +kernel
  have hmem : (⟨0, 3#64, 4096, 0, .returned⟩ : Call) ∈ s.calls := by simp [hcalls]
  refine ⟨s, _, hs, hmem, rfl, fun t ht => ?_⟩
  refine (shootdown_exact _ _ s hs).1 _ hmem rfl t ?_
  have hbits : ∀ t : Cpu, t.val < 2 → (3#64).getLsbD t = true := by decide
  exact hbits t ht

end Rumicos.Proc.Shootdown
