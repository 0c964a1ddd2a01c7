/-
The page cache under concurrent calls (`get_or_fill`, `cache_lookup` of `crates/fs/src/pagecache.rs`).

Any number of calls is under way. A call looks its key up under the bucket lock, and if it is not there allocates a frame
and reads the file into it with no lock held; then, under the lock again, it looks once more and enters its frame into the
first empty slot. A lost race or a failed read frees the frame, after the lock is released. Between any two of these steps
others may run; the rest of the kernel allocates frames and frees its own meanwhile. Entries are never removed
(`evict_vnode` has no caller).

- `Law`: no key is in the cache twice; a call that began when its key was cached gets that entry's frame; the frame of a
  call has one fate, for its reason (entered, freed after a lost race or a failed read, or handed out uncached by a full
  bucket); and the allocated frames are those cached, held by a call or the rest of the kernel's, each of them once.

History variables: `due`, `got`, `fates`, `read` and `room` of a call.
-/
import Rumicos.Fs.PageCache
import Rumicos.Lib.Bags
import Rumicos.Lib.Run

namespace Rumicos.Fs.CacheRace

open Fs Lib Paging Memory List Option

/-! ## The system -/

/-- where a call is -/
inductive Phase where
  | look
  | alloc
  /-- reading the file into its frame -/
  | fill (frame : Pfn)
  /-- before the second look -/
  | enter (frame : Pfn)
  /-- before `raw_free_frame`, with the result it will return -/
  | drop (frame : Pfn) (result : Option Pfn)
  | done (result : Option Pfn)
deriving DecidableEq

def Phase.holds : Phase → Option Pfn
  | .fill f | .enter f | .drop f _ => some f
  | _ => none

/-- what becomes of a frame that a call has allocated -/
inductive Fate where
  | entered
  | freed
  | uncached
deriving DecidableEq

structure Call where
  key : ℕ × ℕ
  phase : Phase
  /-- history: the frame that was cached for the key when the call began -/
  due : Option Pfn
  /-- history: the frame it has allocated -/
  got : Option Pfn
  /-- history: what it has done with that frame -/
  fates : List Fate
  /-- history: its read succeeded, or failed -/
  read : Option Bool
  /-- history: its bucket had room for the frame, or was full -/
  room : Option Bool

def Call.to (c : Call) (phase : Phase) : Call := { c with phase := phase }

/-- it has allocated `f` -/
def Call.take (c : Call) (f : Pfn) : Call := { c with phase := .fill f, got := some f }

/-- its read is over -/
def Call.filled (c : Call) (f : Pfn) (ok : Bool) : Call :=
  { c with phase := if ok then .enter f else .drop f none, read := some ok }

/-- it has looked for an empty slot -/
def Call.looked (c : Call) (room : Bool) : Call := { c with room := some room }

/-- it returns, having done this with its frame -/
def Call.finish (c : Call) (result : Option Pfn) (fate : Fate) : Call :=
  { c with phase := .done result, fates := c.fates ++ [fate] }

structure State where
  /-- `PAGE_CACHE`; the dirty bits are left out -/
  buckets : Fin 256 → Bucket (ℕ × ℕ) Pfn
  frames : Frames
  calls : List Call
  /-- the frames of the rest of the kernel -/
  others : List Pfn

def State.new (answers : List Pfn) : State := ⟨fun _ => List.replicate pageCacheBucketCap none, Frames.new answers, [], []⟩

def State.bucket (s : State) (key : ℕ × ℕ) : Bucket (ℕ × ℕ) Pfn := s.buckets (cacheBucketIndex key)

/-- `cache_lookup` -/
def State.find (s : State) (key : ℕ × ℕ) : Option Pfn := (s.bucket key).find key

def State.set (s : State) (i : ℕ) (c : Call) : State := { s with calls := s.calls.set i c }

/-- the first empty slot of the key's bucket is taken -/
def State.insert (s : State) (key : ℕ × ℕ) (f : Pfn) : State :=
  { s with buckets := Function.update s.buckets (cacheBucketIndex key) ((s.bucket key).insert key f) }

inductive Act where
  /-- a CPU calls `get_or_fill` -/
  | call (key : ℕ × ℕ)
  /-- the next step of call `i`; does its read succeed? -/
  | next (i : ℕ) (readOk : Bool)
  /-- the rest of the kernel allocates a frame, or frees one of its own -/
  | take
  | give (k : ℕ)

/-- the next step of `get_or_fill` -/
def State.advance (s : State) (i : ℕ) (c : Call) (readOk : Bool) : Option State :=
  match c.phase with
  | .look =>
    match s.find c.key with
    | some f => some (s.set i (c.to (.done (some f))))
    | none => some (s.set i (c.to .alloc))
  | .alloc =>
    (allocFrame s.frames).map fun r => { s with frames := r.2 }.set i (c.take r.1)
  | .fill f => some (s.set i (c.filled f readOk))
  | .enter f =>
    match s.find c.key with
    | some winner => some (s.set i (c.to (.drop f (some winner))))
    | none =>
      if (s.bucket c.key).hasRoom then some ((s.insert c.key f).set i ((c.looked true).finish (some f) .entered))
      else some ({ s with others := f :: s.others }.set i ((c.looked false).finish (some f) .uncached))
  | .drop f result => some ({ s with frames := freeFrame s.frames f }.set i (c.finish result .freed))
  | .done _ => none

def step (s : State) : Act → Option State
  | .call key => some { s with calls := s.calls ++ [⟨key, .look, s.find key, none, [], none, none⟩] }
  | .next i readOk => (s.calls[i]?).bind fun c => s.advance i c readOk
  | .take => (allocFrame s.frames).map fun r => { s with frames := r.2, others := r.1 :: s.others }
  | .give k => (s.others[k]?).map fun f => { s with frames := freeFrame s.frames f, others := s.others.eraseIdx k }

/-! ## The law -/

/-- how a call may end, and why, when the cache answers as `find` does -/
inductive Call.Ended (find : ℕ × ℕ → Option Pfn) (c : Call) : Option Pfn → Prop
  | hit (f : Pfn) : c.got = none → c.fates = [] → find c.key = some f → c.Ended find (some f)
  | entered (f : Pfn) : c.got = some f → c.fates = [.entered] → c.read = some true → c.room = some true →
      find c.key = some f → c.Ended find (some f)
  | lost (f w : Pfn) : c.got = some f → c.fates = [.freed] → c.read = some true → find c.key = some w →
      c.Ended find (some w)
  | failed (f : Pfn) : c.got = some f → c.fates = [.freed] → c.read = some false → c.Ended find none
  | uncached (f : Pfn) : c.got = some f → c.fates = [.uncached] → c.read = some true → c.room = some false →
      c.Ended find (some f)

structure Call.Ok (find : ℕ × ℕ → Option Pfn) (c : Call) : Prop where
  later : ∀ f, c.due = some f → find c.key = some f ∧ (c.phase = .look ∨ c.phase = .done (some f))
  before : c.phase = .look ∨ c.phase = .alloc → c.got = none ∧ c.fates = []
  holding : ∀ f, c.phase.holds = some f → c.got = some f ∧ c.fates = []
  readOk : ∀ f, c.phase = .enter f → c.read = some true
  dropped : ∀ f r, c.phase = .drop f r → c.read = some r.isSome
  outrun : ∀ f w, c.phase = .drop f (some w) → find c.key = some w
  ended : ∀ r, c.phase = .done r → c.Ended find r

/-- does a slot hold this frame? -/
def slotHas (f : Pfn) (slot : Option ((ℕ × ℕ) × Pfn)) : Bool := slot.any fun e => decide (e.2 = f)

def Call.has (f : Pfn) (c : Call) : Bool := decide (c.phase.holds = some f)

/-- how often frame `f` is cached, in the hands of a call, or the rest of the kernel's -/
def State.uses (s : State) (f : Pfn) : ℕ :=
  ∑ j, (s.buckets j).countP (slotHas f) + s.calls.countP (Call.has f) + s.others.count f

structure Law (s : State) : Prop where
  unique : ∀ j, (s.buckets j).keys.Nodup
  placed : ∀ j, ∀ key ∈ (s.buckets j).keys, cacheBucketIndex key = j
  slots : ∀ j, (s.buckets j).length = pageCacheBucketCap
  calls : ∀ c ∈ s.calls, c.Ok s.find
  sole : ∀ f, s.uses f = (s.frames.allocated f).toNat
  safe : s.frames.badFree = false

variable {find : ℕ × ℕ → Option Pfn} {fr : Frames}

theorem Call.Ok.mono {find' : ℕ × ℕ → Option Pfn} {c : Call} (h : c.Ok find)
    (hle : ∀ key f, find key = some f → find' key = some f) : c.Ok find' := by
  refine ⟨fun f hf => ?_, h.before, h.holding, h.readOk, h.dropped, fun f w hw => hle _ _ (h.outrun f w hw),
    fun r hr => ?_⟩
  · obtain ⟨hfind, hphase⟩ := h.later f hf
    exact ⟨hle _ _ hfind, hphase⟩
  · cases h.ended r hr with
    | hit f hg hf hfind => exact .hit f hg hf (hle _ _ hfind)
    | entered f hg hf hread hroom hfind => exact .entered f hg hf hread hroom (hle _ _ hfind)
    | lost f w hg hf hread hfind => exact .lost f w hg hf hread (hle _ _ hfind)
    | failed f hg hf hread => exact .failed f hg hf hread
    | uncached f hg hf hread hroom => exact .uncached f hg hf hread hroom

theorem Call.Ok.due_none {c : Call} (h : c.Ok find) (hphase : c.phase = .alloc ∨ c.phase.holds ≠ none) :
    c.due = none := by
  cases hdue : c.due with
  | none => rfl
  | some f =>
    exfalso
    rcases (h.later f hdue).2 with hp | hp
    · rcases hphase with ha | hh
      · rw [hp] at ha
        cases ha
      · exact hh (congrArg Phase.holds hp)
    · rcases hphase with ha | hh
      · rw [hp] at ha
        cases ha
      · exact hh (congrArg Phase.holds hp)

theorem Call.Ok.of_holding {c : Call} {f : Pfn} (hdue : c.due = none) (hheld : c.phase.holds = some f)
    (hgot : c.got = some f ∧ c.fates = []) (hread : ∀ g, c.phase = .enter g → c.read = some true)
    (hdrop : ∀ g r, c.phase = .drop g r → c.read = some r.isSome)
    (hout : ∀ g w, c.phase = .drop g (some w) → find c.key = some w) : c.Ok find := by
  refine ⟨fun g hg => ?_, fun h => ?_, fun g hg => ?_, hread, hdrop, hout, fun r hr => ?_⟩
  · rw [hdue] at hg
    cases hg
  · rcases h with h | h <;> rw [h] at hheld <;> cases hheld
  · cases hheld.symm.trans hg
    exact hgot
  · rw [hr] at hheld
    cases hheld

theorem Call.Ok.of_done {c : Call} {r : Option Pfn} (hphase : c.phase = .done r)
    (hdue : ∀ f, c.due = some f → find c.key = some f ∧ r = some f) (hend : c.Ended find r) : c.Ok find := by
  have hno : c.phase.holds = none := congrArg Phase.holds hphase
  refine ⟨fun g hg => ?_, fun h => ?_, fun g hg => ?_, fun g hg => ?_, fun g r hg => ?_, fun g w hg => ?_, fun r' hr => ?_⟩
  · obtain ⟨hfind, rfl⟩ := hdue g hg
    exact ⟨hfind, .inr hphase⟩
  · rcases h with h | h <;> rw [hphase] at h <;> cases h
  · cases hno.symm.trans hg
  · rw [hg] at hno
    cases hno
  · rw [hg] at hno
    cases hno
  · rw [hg] at hno
    cases hno
  · obtain rfl := Phase.done.inj (hphase.symm.trans hr)
    exact hend

theorem Call.Ok.finish {find' : ℕ × ℕ → Option Pfn} {c : Call} {f : Pfn} {r : Option Pfn} {fate : Fate}
    (h : c.Ok find) (hheld : c.phase.holds = some f) (room : Option Bool)
    (hend : ({ c with room := room }.finish r fate).Ended find' r) : ({ c with room := room }.finish r fate).Ok find' := by
  apply Call.Ok.of_done rfl _ hend
  intro g hg
  have hdue : c.due = none := h.due_none (.inr (by rw [hheld]; nofun))
  rw [show c.due = some g from hg] at hdue
  cases hdue

/-! ## Frames -/

/-- one if the frame is `g` -/
def isIn (o : Option Pfn) (g : Pfn) : ℕ := (decide (o = some g)).toNat

theorem isIn_none (g : Pfn) : isIn none g = 0 := rfl

theorem sole_alloc {fr' : Frames} {f : Pfn} {u u' : Pfn → ℕ} (h : allocFrame fr = some (f, fr'))
    (hu : ∀ g, u g = (fr.allocated g).toNat) (hu' : ∀ g, u' g = u g + isIn (some f) g) (g : Pfn) :
    u' g = (fr'.allocated g).toNat := by
  obtain ⟨hfree, hal, -⟩ := allocFrame_spec h
  have hg := hu g
  rw [hu', hal]
  by_cases hfg : f = g
  · subst hfg
    rw [hfree] at hg
    simpa [isIn] using hg
  · simpa [isIn, hfg, Function.update_of_ne (Ne.symm hfg)] using hg

theorem sole_free {f : Pfn} {u u' : Pfn → ℕ} (hu : ∀ g, u g = (fr.allocated g).toNat)
    (hu' : ∀ g, u' g + isIn (some f) g = u g) :
    (∀ g, u' g = ((freeFrame fr f).allocated g).toNat) ∧ (freeFrame fr f).badFree = fr.badFree := by
  have hf : u' f + 1 = (fr.allocated f).toNat := by simpa [isIn] using (hu' f).trans (hu f)
  have hal : fr.allocated f = true := by
    by_contra hno
    rw [Bool.not_eq_true] at hno
    rw [hno] at hf
    cases hf
  refine ⟨fun g => ?_, by simp [freeFrame, hal]⟩
  by_cases hfg : f = g
  · subst hfg
    rw [hal] at hf
    simpa [freeFrame] using hf
  · have hg := (hu' g).trans (hu g)
    simpa [isIn, freeFrame, hfg, Function.update_of_ne (Ne.symm hfg)] using hg

variable {s : State} {i : ℕ} {c c' : Call} {f : Pfn} {key : ℕ × ℕ}

theorem uses_set (hc : s.calls[i]? = some c) (c' : Call) (g : Pfn) :
    (s.set i c').uses g + isIn c.phase.holds g = s.uses g + isIn c'.phase.holds g := by
  have hcount := countP_set_add hc c' (Call.has g)
  simp only [Call.has] at hcount
  simp only [State.uses, State.set, isIn]
  omega

theorem uses_take (hc : s.calls[i]? = some c) (hnone : c.phase.holds = none) (hheld : c'.phase.holds = some f) (g : Pfn) :
    (s.set i c').uses g = s.uses g + isIn (some f) g := by
  have hset := uses_set hc c' g
  rwa [hnone, hheld, isIn_none, add_zero] at hset

theorem uses_give (hc : s.calls[i]? = some c) (hheld : c.phase.holds = some f) (hnone : c'.phase.holds = none) (g : Pfn) :
    (s.set i c').uses g + isIn (some f) g = s.uses g := by
  have hset := uses_set hc c' g
  rwa [hheld, hnone, isIn_none, add_zero] at hset

theorem uses_insert (hroom : (s.bucket key).hasRoom = true) (f g : Pfn) :
    (s.insert key f).uses g = s.uses g + isIn (some f) g := by
  have hsum := sum_update s.buckets (fun b => b.countP (slotHas g)) (cacheBucketIndex key) ((s.bucket key).insert key f)
  have hb := Bucket.countP_insert (s.bucket key) hroom key f (slotHas g) rfl
  have hslot : (slotHas g (some (key, f))).toNat = isIn (some f) g := by simp [slotHas, isIn]
  simp only [State.uses, State.insert, State.bucket] at hsum hb ⊢
  omega

theorem uses_others (f : Pfn) (l : List Pfn) (g : Pfn) :
    { s with others := f :: l }.uses g = { s with others := l }.uses g + isIn (some f) g := by
  simp only [State.uses, add_assoc, isIn]
  by_cases hfg : f = g <;> simp [hfg]

/-- the cache as a table -/
def Law.table (hL : Law s) : Table cacheBucketIndex pageCacheBucketCap Pfn := ⟨s.buckets, hL.unique, hL.placed, hL.slots⟩

theorem Law.find_insert (hL : Law s) (hroom : (s.bucket key).hasRoom = true) (hnone : s.find key = none) (f : Pfn)
    (k : ℕ × ℕ) :
    (s.insert key f).find k = if k = key then some f else s.find k :=
  Table.find_insert hL.table key k f hnone hroom

/-! ## One step -/

/-- call `i` goes on as `c'`, holding what it held -/
theorem Law.move (hL : Law s) (hc : s.calls[i]? = some c) (hok : c'.Ok s.find) (hholds : c'.phase.holds = c.phase.holds) :
    Law (s.set i c') := by
  refine ⟨hL.unique, hL.placed, hL.slots, forall_mem_set hL.calls hok, fun g => ?_, hL.safe⟩
  have huses := uses_set hc c' g
  rw [hholds] at huses
  exact (Nat.add_right_cancel huses).trans (hL.sole g)

/-- call `i` goes on as `c'` with other frames -/
theorem Law.reframe {others : List Pfn} (hL : Law s) (hok : c'.Ok s.find)
    (hsole : ∀ g, ({ s with frames := fr, others := others }.set i c').uses g = (fr.allocated g).toNat)
    (hsafe : fr.badFree = false) : Law ({ s with frames := fr, others := others }.set i c') :=
  ⟨hL.unique, hL.placed, hL.slots, forall_mem_set hL.calls hok, hsole, hsafe⟩

theorem Law.entered (hL : Law s) (hc : s.calls[i]? = some c) (hphase : c.phase = .enter f)
    (hroom : (s.bucket c.key).hasRoom = true)
    (hnone : s.find c.key = none) :
    Law ((s.insert c.key f).set i ((c.looked true).finish (some f) .entered)) := by
  have hOk := hL.calls c (mem_of_getElem? hc)
  obtain ⟨hgot, hfates⟩ := hOk.holding f (by rw [hphase]; rfl)
  have hfind := hL.find_insert hroom hnone f
  refine ⟨(hL.table.insert c.key f hnone).nodup, (hL.table.insert c.key f hnone).placed,
    (hL.table.insert c.key f hnone).len,
    fun d hd => ?_, fun g => ?_, hL.safe⟩
  · change d.Ok (s.insert c.key f).find
    rcases mem_or_eq_of_mem_set hd with hd | rfl
    · apply (hL.calls d hd).mono
      intro k g hg
      rw [hfind, if_neg]
      · exact hg
      · rintro rfl
        rw [hnone] at hg
        cases hg
    · have hfate : ((c.looked true).finish (some f) .entered).fates = [.entered] := congrArg (· ++ [_]) hfates
      exact hOk.finish (congrArg Phase.holds hphase) _
        (.entered f hgot hfate (hOk.readOk f hphase) rfl ((hfind c.key).trans (if_pos rfl)))
  · -- the frame goes from the call to the bucket
    have hci : (s.insert c.key f).calls[i]? = some c := hc
    have hgive := uses_give hci (congrArg Phase.holds hphase)
      (show ((c.looked true).finish (some f) .entered).phase.holds = none from rfl) g
    rw [uses_insert hroom f g] at hgive
    exact (Nat.add_right_cancel hgive).trans (hL.sole g)

theorem Law.advance {s' : State} {readOk : Bool} (hL : Law s) (hc : s.calls[i]? = some c)
    (h : s.advance i c readOk = some s') :
    Law s' := by
  have hOk := hL.calls c (mem_of_getElem? hc)
  unfold State.advance at h
  cases hphase : c.phase with
  | look =>
    obtain ⟨hgot, hfates⟩ := hOk.before (.inl hphase)
    simp only [hphase] at h
    cases hfind : s.find c.key with
    | some f =>
      simp only [hfind, some.injEq] at h
      subst h
      have hend : (c.to (.done (some f))).Ended s.find (some f) := .hit f hgot hfates hfind
      refine hL.move hc (.of_done rfl (fun g hg => ?_) hend) (by rw [hphase]; rfl)
      have hdue := (hOk.later g hg).1
      exact ⟨hdue, hfind.symm.trans hdue⟩
    | none =>
      simp only [hfind, some.injEq] at h
      subst h
      refine hL.move hc ⟨fun g hg => ?_, fun _ => ⟨hgot, hfates⟩, nofun, nofun, nofun, nofun, nofun⟩ (by rw [hphase]; rfl)
      have hdue := (hOk.later g hg).1
      rw [hfind] at hdue
      cases hdue
  | alloc =>
    obtain ⟨-, hfates⟩ := hOk.before (.inr hphase)
    simp only [hphase] at h
    obtain ⟨⟨f, fr⟩, hal, rfl⟩ := map_eq_some_iff.1 h
    obtain ⟨-, -, -, hbad, -⟩ := allocFrame_spec hal
    have hok : (c.take f).Ok s.find := .of_holding (hOk.due_none (.inl hphase)) rfl ⟨rfl, hfates⟩ nofun nofun nofun
    apply hL.reframe hok _ (hbad.trans hL.safe)
    have htake : ∀ g, (s.set i (c.take f)).uses g = s.uses g + isIn (some f) g :=
      uses_take hc (congrArg Phase.holds hphase) rfl
    exact sole_alloc hal hL.sole htake
  | fill f =>
    have hheld := hOk.holding f (congrArg Phase.holds hphase)
    have hdue := hOk.due_none (.inr (by rw [hphase]; nofun))
    simp only [hphase, some.injEq] at h
    subst h
    cases readOk with
    | true =>
      have hok : (c.filled f true).Ok s.find := .of_holding hdue rfl hheld (fun _ _ => rfl) nofun nofun
      exact hL.move hc hok (by rw [hphase]; rfl)
    | false =>
      have hdrop : ∀ g r, (c.filled f false).phase = .drop g r → (c.filled f false).read = some r.isSome := by
        intro g r hg
        cases hg
        rfl
      have hok : (c.filled f false).Ok s.find := .of_holding hdue rfl hheld nofun hdrop nofun
      exact hL.move hc hok (by rw [hphase]; rfl)
  | enter f =>
    have hheld := hOk.holding f (congrArg Phase.holds hphase)
    simp only [hphase] at h
    cases hfind : s.find c.key with
    | some w =>
      simp only [hfind, some.injEq] at h
      subst h
      have hok : (c.to (.drop f (some w))).Ok s.find := by
        have hdue : (c.to (.drop f (some w))).due = none := hOk.due_none (.inr (by rw [hphase]; nofun))
        refine Call.Ok.of_holding hdue rfl hheld nofun (fun g r hg => ?_) fun g w hg => ?_
        · cases hg
          exact hOk.readOk f hphase
        · cases hg
          exact hfind
      exact hL.move hc hok (by rw [hphase]; rfl)
    | none =>
      simp only [hfind] at h
      split_ifs at h with hroom
      · cases h
        exact hL.entered hc hphase hroom hfind
      · cases h
        have hfate : ((c.looked false).finish (some f) .uncached).fates = [.uncached] := congrArg (· ++ [_]) hheld.2
        have hend : ((c.looked false).finish (some f) .uncached).Ended s.find (some f) :=
          .uncached f hheld.1 hfate (hOk.readOk f hphase) rfl
        apply hL.reframe (hOk.finish (congrArg Phase.holds hphase) _ hend) _ hL.safe
        intro g
        have hgive : (s.set i ((c.looked false).finish (some f) .uncached)).uses g + isIn (some f) g = s.uses g :=
          uses_give hc (congrArg Phase.holds hphase) rfl g
        refine Eq.trans ?_ (hL.sole g)
        exact (uses_others (s := s.set i ((c.looked false).finish (some f) .uncached)) f s.others g).trans hgive
  | drop f result =>
    have hheld := hOk.holding f (congrArg Phase.holds hphase)
    simp only [hphase, some.injEq] at h
    subst h
    have hgive : ∀ g, (s.set i (c.finish result .freed)).uses g + isIn (some f) g = s.uses g :=
      uses_give hc (congrArg Phase.holds hphase) rfl
    have hfree := sole_free hL.sole hgive
    apply hL.reframe (hOk.finish (congrArg Phase.holds hphase) c.room _) hfree.1 (hfree.2.trans hL.safe)
    have hfate : (c.finish result .freed).fates = [.freed] := congrArg (· ++ [_]) hheld.2
    have hread := hOk.dropped f result hphase
    cases result with
    | none => exact .failed f hheld.1 hfate hread
    | some w => exact .lost f w hheld.1 hfate hread (hOk.outrun f w hphase)
  | done r =>
    simp only [hphase] at h
    cases h

theorem Law.step {s' : State} {a : Act} (hL : Law s) (h : step s a = some s') : Law s' := by
  cases a with
  | call key =>
    cases h
    refine ⟨hL.unique, hL.placed, hL.slots, forall_mem_append.2 ⟨hL.calls, forall_mem_singleton.2 ?_⟩,
      fun g => ?_, hL.safe⟩
    · exact ⟨fun g hg => ⟨hg, .inl rfl⟩, fun _ => ⟨rfl, rfl⟩, nofun, nofun, nofun, nofun, nofun⟩
    · simpa [State.uses, Call.has, Phase.holds] using hL.sole g
  | next i readOk =>
    obtain ⟨c, hc, hadv⟩ := bind_eq_some_iff.1 h
    exact hL.advance hc hadv
  | take =>
    obtain ⟨⟨f, fr⟩, hal, rfl⟩ := map_eq_some_iff.1 h
    obtain ⟨-, -, -, hbad, -⟩ := allocFrame_spec hal
    refine ⟨hL.unique, hL.placed, hL.slots, hL.calls, sole_alloc hal hL.sole fun g => ?_, hbad.trans hL.safe⟩
    exact uses_others f s.others g
  | give k =>
    obtain ⟨f, hf, rfl⟩ := map_eq_some_iff.1 h
    have hgive : ∀ g, { s with others := s.others.eraseIdx k }.uses g + isIn (some f) g = s.uses g := by
      intro g
      rw [← uses_others]
      obtain ⟨hk, rfl⟩ := List.getElem?_eq_some_iff.1 hf
      simp [State.uses, (getElem_cons_eraseIdx_perm hk).count_eq]
    have hfree := sole_free hL.sole hgive
    exact ⟨hL.unique, hL.placed, hL.slots, hL.calls, hfree.1, hfree.2.trans hL.safe⟩

theorem Law.new (answers : List Pfn) : Law (State.new answers) := by
  refine ⟨fun j => ?_, fun j key hkey => ?_, fun j => ?_, nofun, fun f => ?_, rfl⟩
  · simp [State.new, Bucket.keys]
  · simp [State.new, Bucket.keys] at hkey
  · exact length_replicate
  · simp [State.new, State.uses, slotHas, countP_replicate, Frames.new]

/-- two calls for page 0 of vnode 4096, step by step side by side, and one for its next page whose read fails -/
def race : List Act :=
  [.call (4096, 0), .call (4096, 0), .next 0 true, .next 1 true, .next 0 true, .next 1 true, .next 0 true, .next 1 true,
    .next 0 true, .next 1 true, .next 1 true, .call (4096, 4096), .next 2 true, .next 2 true, .next 2 false, .next 2 true]

end Rumicos.Fs.CacheRace
