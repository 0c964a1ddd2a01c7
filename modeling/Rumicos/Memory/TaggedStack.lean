/-
The lock-free stack of free objects under any interleaving (`AtomicTaggedStack` in `crates/memory/src/tagged_stack.rs`).

The head packs the address of the top node with a 64-bit tag that every exchange increments; each node holds the address
of the next one. `push` loads the head, writes the link of its node and exchanges; `pop` loads the head, reads the link
of the top node and exchanges. Each of these is a step, the callers interleave freely, and an exchange that finds
another head starts its loop again. A caller may write to the nodes it owns, so that a `pop` can read its link out of a
node that has left the stack.

History variables: `owner` (who has a node that is not on the stack), `swaps` (how many exchanges succeeded; a call
keeps their number at its load) and `log` (the operations in the order in which they took effect).
-/
import Rumicos.Lib.Chain
import Rumicos.Lib.Cursor
import Rumicos.Lib.Run

namespace Rumicos.Memory.TaggedStack

open Lib Function List Option

def pack (ptr tag : ℕ) : ℕ := tag <<< 64 ||| ptr

def unpack (value : ℕ) : ℕ × ℕ := (value % 2 ^ 64, (value >>> 64) % 2 ^ 64)

/-- a call by what it does next -/
inductive Call where
  | idle
  | push (node : ℕ)
  | link (node current time : ℕ)
  | swapIn (node current time : ℕ)
  | pop
  | follow (current time : ℕ)
  | swapOut (current next time : ℕ)
deriving DecidableEq

inductive Event where
  | pushed (node : ℕ)
  | popped (node : ℕ)
  | empty
deriving DecidableEq

structure State where
  head : ℕ
  next : ℕ → ℕ
  calls : ℕ → Call
  owner : ℕ → Option ℕ
  swaps : ℕ
  log : List Event

def State.new (next : ℕ → ℕ) (owner : ℕ → Option ℕ) : State := ⟨0, next, fun _ => .idle, owner, 0, []⟩

def State.goto (s : State) (i : ℕ) (c : Call) : State := { s with calls := update s.calls i c }

def State.store (s : State) (i : ℕ) (c : Call) (node value : ℕ) : State :=
  { s.goto i c with next := update s.next node value }

/-- an exchange that succeeds, with which `node` gets the owner `o` -/
def State.swap (s : State) (i head node : ℕ) (o : Option ℕ) (e : Event) : State :=
  { s.goto i .idle with head := head, owner := update s.owner node o, swaps := s.swaps + 1, log := s.log ++ [e] }

def State.resume (s : State) (i : ℕ) : Call → Option State
  | .idle => none
  | .push node => some (s.goto i (.link node s.head s.swaps))
  | .link node current time => some (s.store i (.swapIn node current time) node (unpack current).1)
  | .swapIn node current _ =>
    if s.head = current then some (s.swap i (pack node (wrappingAdd 64 (unpack current).2 1)) node none (.pushed node))
    else some (s.goto i (.push node))
  | .pop =>
    if (unpack s.head).1 = 0 then some { s.goto i .idle with log := s.log ++ [.empty] }
    else some (s.goto i (.follow s.head s.swaps))
  | .follow current time => some (s.goto i (.swapOut current (s.next (unpack current).1) time))
  | .swapOut current next _ =>
    let node := (unpack current).1
    if s.head = current then some (s.swap i (pack next (wrappingAdd 64 (unpack current).2 1)) node (some i) (.popped node))
    else some (s.goto i .pop)

inductive Act where
  | push (i node : ℕ)
  | pop (i : ℕ)
  | resume (i : ℕ)
  /-- the owner of a node writes to it -/
  | write (i node value : ℕ)

def step (s : State) : Act → Option State
  | .push i node => if s.calls i = .idle ∧ s.owner node = some i then some (s.goto i (.push node)) else none
  | .pop i => if s.calls i = .idle then some (s.goto i .pop) else none
  | .resume i => s.resume i (s.calls i)
  | .write i node value => if s.calls i = .idle ∧ s.owner node = some i then some (s.store i .idle node value) else none

/-- when a call that is about to exchange loaded the head -/
def Call.loaded : Call → Option ℕ
  | .swapIn _ _ time | .swapOut _ _ time => some time
  | _ => none

/-- fewer than 2^64 exchanges succeed between the load of a call and its exchange -/
def Timely (s : State) : Act → Prop
  | .resume i => ∀ time ∈ (s.calls i).loaded, s.swaps < time + 2 ^ 64
  | _ => True

instance (s : State) (a : Act) : Decidable (Timely s a) := by
  induction a using Act.casesOn <;> unfold Timely <;> infer_instance

/-- a stack that one caller after another uses -/
def apply (l : List ℕ) : Event → Option (List ℕ)
  | .pushed node => if node ∈ l then none else some (node :: l)
  | .popped node => if l.head? = some node then some l.tail else none
  | .empty => if l = [] then some l else none

/-! ## Invariant -/

/-- `current` is the head that a call loaded after `time` exchanges -/
structure Seen (head swaps current time : ℕ) : Prop where
  le : time ≤ swaps
  tag : (unpack current).2 = time % 2 ^ 64
  head : time = swaps → head = current

def CallOk (s : State) (i : ℕ) : Call → Prop
  | .idle | .pop => True
  | .push node => s.owner node = some i
  | .link node current time => s.owner node = some i ∧ Seen s.head s.swaps current time
  | .swapIn node current time =>
    s.owner node = some i ∧ Seen s.head s.swaps current time ∧ s.next node = (unpack current).1
  | .follow current time => Seen s.head s.swaps current time ∧ (unpack current).1 ≠ 0
  | .swapOut current next time =>
    Seen s.head s.swaps current time ∧ (unpack current).1 ≠ 0 ∧ (time = s.swaps → s.next (unpack current).1 = next)

/-- memory holds the stack `l`; the nodes are those that have an owner in `owner` -/
structure Inv (owner : ℕ → Option ℕ) (s : State) (l : List ℕ) : Prop where
  head : s.head = pack (l.headD 0) (s.swaps % 2 ^ 64)
  chain : Chain s.next 0 (l.headD 0) l
  nodup : l.Nodup
  mem : ∀ a, a ∈ l ↔ s.owner a = none ∧ owner a ≠ none
  owned : ∀ a, owner a = none → s.owner a = none
  calls : ∀ i, CallOk s i (s.calls i)
  log : s.log.foldlM apply [] = some l

variable {s t : State} {i node current time : ℕ} {c : Call} {l l' : List ℕ} {owner : ℕ → Option ℕ}

theorem unpack_pack {ptr tag : ℕ} (hptr : ptr < 2 ^ 64) (htag : tag < 2 ^ 64) : unpack (pack ptr tag) = (ptr, tag) := by
  rw [pack, unpack, ← Nat.shiftLeft_add_eq_or_of_lt hptr, Nat.shiftLeft_eq, Nat.shiftRight_eq_div_pow]
  ext <;> dsimp only <;> omega

theorem chain_head {next : ℕ → ℕ} {p : ℕ} (h : Chain next 0 p l) : p = l.headD 0 := by
  cases l with
  | nil => exact h
  | cons a l => exact h.1

/-- the calls after a step of caller `i`, which changes nothing that the others own, and the head only in an exchange -/
theorem calls_after (h : ∀ j, CallOk s j (s.calls j)) (hcalls : t.calls = update s.calls i c) (hc : CallOk t i c)
    (howner : ∀ j ≠ i, ∀ a, s.owner a = some j → t.owner a = some j ∧ t.next a = s.next a) (hle : s.swaps ≤ t.swaps)
    (hhead : t.swaps = s.swaps → t.head = s.head ∧ t.next (unpack s.head).1 = s.next (unpack s.head).1) :
    ∀ j, CallOk t j (t.calls j) := by
  rw [hcalls]
  refine (forall_update_iff _ fun j d => CallOk t j d).2 ⟨hc, fun j hj => ?_⟩
  have hseen : ∀ {current time}, Seen s.head s.swaps current time → Seen t.head t.swaps current time := by
    rintro current time ⟨hle', htag, hcur⟩
    refine ⟨hle'.trans hle, htag, fun heq => ?_⟩
    rw [(hhead (by omega)).1]
    exact hcur (by omega)
  have hok := h j
  have hown := howner j hj
  generalize s.calls j = d at hok
  cases d with
  | idle | pop => trivial
  | push node => exact (hown node hok).1
  | link node current time => exact ⟨(hown node hok.1).1, hseen hok.2⟩
  | swapIn node current time => exact ⟨(hown node hok.1).1, hseen hok.2.1, (hown node hok.1).2.trans hok.2.2⟩
  | follow current time => exact ⟨hseen hok.1, hok.2⟩
  | swapOut current next time =>
    obtain ⟨hs, hne, hnext⟩ := hok
    refine ⟨hseen hs, hne, fun heq => ?_⟩
    have hold : time = s.swaps := by
      have := hs.le
      omega
    rw [← hnext hold, ← hs.head hold]
    exact (hhead (by omega)).2

theorem Inv.goto (h : Inv owner s l) (hc : CallOk (s.goto i c) i c) : Inv owner (s.goto i c) l :=
  { h with calls := calls_after h.calls rfl hc (fun _ _ _ ha => ⟨ha, rfl⟩) le_rfl fun _ => ⟨rfl, rfl⟩ }

/-- an exchange that succeeds -/
theorem Inv.swap {head : ℕ} {o : Option ℕ} {e : Event} (h : Inv owner s l) (hown : ∀ j ≠ i, s.owner node ≠ some j)
    (hnode : owner node ≠ none) (hhead : head = pack (l'.headD 0) ((s.swaps + 1) % 2 ^ 64))
    (hchain : Chain s.next 0 (l'.headD 0) l') (hnodup : l'.Nodup)
    (hmem : ∀ a, a ∈ l' ↔ update s.owner node o a = none ∧ owner a ≠ none) (hlog : apply l e = some l') :
    Inv owner (s.swap i head node o e) l' := by
  refine ⟨hhead, hchain, hnodup, hmem, fun a ha => ?_, calls_after h.calls rfl trivial (fun j hj a ha => ⟨?_, rfl⟩)
    (Nat.le_succ _) fun heq => absurd heq (Nat.succ_ne_self _), by simp [State.swap, State.goto, h.log, hlog]⟩
  · refine (update_of_ne ?_ ..).trans (h.owned a ha)
    rintro rfl
    exact hnode ha
  · refine (update_of_ne ?_ ..).trans ha
    rintro rfl
    exact hown j hj ha

theorem Inv.popped {a : ℕ} (h : Inv owner s (a :: l)) :
    Inv owner (s.swap i (pack (l.headD 0) (wrappingAdd 64 (s.swaps % 2 ^ 64) 1)) a (some i) (.popped a)) l := by
  obtain ⟨hout, hnode⟩ := (h.mem a).1 mem_cons_self
  obtain ⟨hal, hnodup⟩ := nodup_cons.1 h.nodup
  have hchain := h.chain.2.2
  refine h.swap (fun j _ hj => nomatch hout.symm.trans hj) hnode ?_ (chain_head hchain ▸ hchain) hnodup (fun b => ?_)
    (if_pos rfl)
  · rw [wrappingAdd_mod]
  · have hb := h.mem b
    rw [update_apply]
    split_ifs with hba
    · simp [hba, hal]
    · simpa [hba] using hb

section

variable (hvalid : ∀ a, owner a ≠ none → a ≠ 0 ∧ a < 2 ^ 64) (h : Inv owner s l)
include hvalid h

theorem Inv.valid (ha : s.owner node = some i) : node ≠ 0 ∧ node ∉ l ∧ owner node ≠ none := by
  have hne : owner node ≠ none := fun hnone => nomatch (h.owned node hnone).symm.trans ha
  refine ⟨(hvalid node hne).1, fun hmem => ?_, hne⟩
  cases ((h.mem node).1 hmem).1.symm.trans ha

theorem Inv.unpack_head : unpack s.head = (l.headD 0, s.swaps % 2 ^ 64) := by
  rw [h.head, unpack_pack _ (Nat.mod_lt _ (Nat.two_pow_pos 64))]
  cases l with
  | nil => exact Nat.two_pow_pos 64
  | cons a l => exact (hvalid a ((h.mem a).1 mem_cons_self).2).2

theorem Inv.seen : Seen s.head s.swaps s.head s.swaps := ⟨le_rfl, by rw [h.unpack_head hvalid], fun _ => rfl⟩

/-- an exchange that succeeds finds the head of its load, and there was none in between -/
theorem Inv.time_eq (hseen : Seen s.head s.swaps s.head time) (ht : s.swaps < time + 2 ^ 64) : time = s.swaps := by
  refine cursor_inj (w := 64) hseen.le (by omega) ?_
  rw [← hseen.tag, h.unpack_head hvalid]

/-- a write to a node off the stack -/
theorem Inv.store (ha : s.owner node = some i) {x : ℕ} (hc : CallOk (s.store i c node x) i c) :
    Inv owner (s.store i c node x) l := by
  obtain ⟨hne, hmem, -⟩ := h.valid hvalid ha
  refine { h with
    chain := h.chain.congr fun a hal => update_of_ne (ne_of_mem_of_not_mem hal hmem) ..
    calls := calls_after h.calls rfl hc (fun j hj a hja => ⟨hja, update_of_ne ?_ ..⟩) le_rfl fun _ =>
      ⟨rfl, update_of_ne ?_ ..⟩ }
  · rintro rfl
    exact hj (some.inj (hja.symm.trans ha))
  · rw [h.unpack_head hvalid]
    cases l with
    | nil => exact hne.symm
    | cons a l => exact (ne_of_not_mem_cons hmem).symm

theorem Inv.pushed (hown : s.owner node = some i) (hnext : s.next node = l.headD 0) :
    Inv owner (s.swap i (pack node (wrappingAdd 64 (s.swaps % 2 ^ 64) 1)) node none (.pushed node)) (node :: l) := by
  obtain ⟨hne, hmem, hnode⟩ := h.valid hvalid hown
  refine h.swap (fun j hj hj' => hj (some.inj (hj'.symm.trans hown))) hnode ?_ ⟨rfl, hne, ?_⟩
    (nodup_cons.2 ⟨hmem, h.nodup⟩) (fun a => ?_) (if_neg hmem)
  · rw [wrappingAdd_mod, headD_cons]
  · rw [hnext]
    exact h.chain
  · rw [mem_cons, h.mem, update_apply]
    split_ifs with ha <;> simp [ha, hnode]

theorem inv_resume (ht : Timely s (.resume i)) (hstep : step s (.resume i) = some t) : ∃ l', Inv owner t l' := by
  have hc := h.calls i
  have hhead := h.unpack_head hvalid
  have hloaded := h.seen hvalid
  simp only [step] at hstep
  simp only [Timely] at ht
  generalize s.calls i = c at hc ht hstep
  cases c with
  | idle => cases hstep
  | push node =>
    cases hstep
    exact ⟨l, h.goto ⟨hc, hloaded⟩⟩
  | link node current time =>
    cases hstep
    exact ⟨l, h.store hvalid hc.1 ⟨hc.1, hc.2, update_self ..⟩⟩
  | swapIn node current time =>
    obtain ⟨hown, hseen, hnext⟩ := hc
    simp only [State.resume] at hstep
    split_ifs at hstep with hcur <;> cases hstep
    · subst hcur
      rw [hhead] at hnext ⊢
      exact ⟨node :: l, h.pushed hvalid hown hnext⟩
    · exact ⟨l, h.goto hown⟩
  | pop =>
    simp only [State.resume] at hstep
    split_ifs at hstep with hnull <;> cases hstep
    · rw [hhead] at hnull
      have hnil : l = [] := by
        cases l with
        | nil => rfl
        | cons a l => exact absurd hnull (h.chain.ne_nil a mem_cons_self)
      exact ⟨l, { h.goto (i := i) (c := .idle) trivial with log := by simp [h.log, apply, hnil] }⟩
    · exact ⟨l, h.goto ⟨hloaded, hnull⟩⟩
  | follow current time =>
    cases hstep
    exact ⟨l, h.goto ⟨hc.1, hc.2, fun _ => rfl⟩⟩
  | swapOut current next time =>
    obtain ⟨hseen, hne, hnext⟩ := hc
    simp only [State.resume] at hstep
    split_ifs at hstep with hcur <;> cases hstep
    · subst hcur
      -- the link was read after the last exchange: it is still the one of the top node
      have hlink := hnext (h.time_eq hvalid hseen (ht time rfl))
      rw [hhead] at hne hlink ⊢
      cases l with
      | nil => exact absurd rfl hne
      | cons a l =>
        have htop : next = l.headD 0 := hlink.symm.trans (chain_head h.chain.2.2)
        rw [htop]
        exact ⟨l, h.popped⟩
    · exact ⟨l, h.goto trivial⟩

theorem inv_step {a : Act} (ht : Timely s a) (hstep : step s a = some t) : ∃ l', Inv owner t l' := by
  cases a with
  | resume i => exact inv_resume hvalid h ht hstep
  | push i node =>
    obtain ⟨⟨-, hown⟩, hstep⟩ := ite_none_right_eq_some.1 hstep
    cases hstep
    exact ⟨l, h.goto hown⟩
  | pop i =>
    obtain ⟨-, hstep⟩ := ite_none_right_eq_some.1 hstep
    cases hstep
    exact ⟨l, h.goto trivial⟩
  | write i node value =>
    obtain ⟨⟨-, hown⟩, hstep⟩ := ite_none_right_eq_some.1 hstep
    cases hstep
    exact ⟨l, h.store hvalid hown trivial⟩

end

theorem inv_new (next : ℕ → ℕ) (owner : ℕ → Option ℕ) : Inv owner (.new next owner) [] :=
  ⟨by simp [State.new, pack], rfl, nodup_nil, fun a => by simp [State.new], fun _ => id, fun _ => trivial, rfl⟩

/-- **The stack is linearisable.** In every run in which fewer than 2^64 exchanges fall between the load of a call and
its exchange, the operations take effect one after another on a stack: a pop returns what is on top when it takes
effect, and finds nothing only when the stack is empty. Memory holds that stack, and on it are exactly the nodes that
nobody owns: none is lost, and none is given to two callers. -/
theorem stack_run {next : ℕ → ℕ} {as : List Act} (hvalid : ∀ a, owner a ≠ none → a ≠ 0 ∧ a < 2 ^ 64)
    (hok : Meets step Timely (.new next owner) as) (hrun : as.foldlM step (.new next owner) = some s) :
    ∃ l, s.log.foldlM apply [] = some l ∧ Chain s.next 0 (unpack s.head).1 l ∧ l.Nodup ∧
      ∀ a, a ∈ l ↔ s.owner a = none ∧ owner a ≠ none := by
  obtain ⟨l, h⟩ := run_inv (fun s => ∃ l, Inv owner s l) (fun _ _ _ ⟨_, h⟩ ht hs => inv_step hvalid h ht hs)
    ⟨[], inv_new next owner⟩ hok hrun
  refine ⟨l, h.log, ?_, h.nodup, h.mem⟩
  rw [h.unpack_head hvalid]
  exact h.chain

/-- caller 0 has read the link of the top node when caller 1 takes both nodes and puts that one back -/
def abaActs : List Act :=
  let call (a : Act) (i : ℕ) : List Act := a :: replicate 3 (.resume i)
  call (.push 0 16) 0 ++ call (.push 0 8) 0 ++ [.pop 0, .resume 0, .resume 0] ++ call (.pop 1) 1 ++ call (.pop 1) 1 ++
    call (.push 1 8) 1 ++ call (.resume 0) 0

/-- the tag has moved on, so the exchange of the first pop fails and is tried again -/
theorem stack_run_aba : ∃ s, abaActs.foldlM step (.new id fun a => if a ∈ [8, 16] then some 0 else none) = some s ∧
    (s.log = [.pushed 16, .pushed 8, .popped 8, .popped 16, .pushed 8, .popped 8] ∧
    (s.owner 8, s.owner 16) = (some 0, some 1)) ∧
      ∃ l, s.log.foldlM apply [] = some l ∧ Chain s.next 0 (unpack s.head).1 l := by
  refine exists_and_of_check (by decide +kernel) fun s hs _ => ?_
  have hvalid : ∀ a, (if a ∈ [8, 16] then some 0 else none) ≠ none → a ≠ 0 ∧ a < 2 ^ 64 := by
    intro a ha
    have hmem : a = 8 ∨ a = 16 := by simpa [or_iff_not_imp_left] using ha
    omega
  obtain ⟨l, hlog, hchain, -⟩ := stack_run hvalid (by decide +kernel) hs
  exact ⟨l, hlog, hchain⟩

end Rumicos.Memory.TaggedStack
