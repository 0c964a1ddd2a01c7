/-
One free list of the buddy allocator (`FreeList` of `crates/memory/src/buddy.rs`).

The list is threaded through the free frames themselves: the header of a free frame holds the physical address of the
next one. The head packs a frame number with a 16-bit tag. Every caller holds the allocator's lock, so the
compare-and-exchange of each loop succeeds at once.

The failed assertions of the source are `none`; `Linked` lists never fail them.
-/
import Rumicos.Lib.Chain

namespace Rumicos.Memory.Buddy

open Lib Function List Option

/-! ## The list -/

/-- the header of a free frame -/
structure FreeFrame where
  nextPhys : ℕ
  generation : ℕ
deriving DecidableEq

/-- the headers, by physical address -/
abbrev Heap := ℕ → FreeFrame

def maxPlausiblePhys : ℕ := 1 <<< 44

def pack (frameNum tag : ℕ) : ℕ := ((frameNum <<< 16) % 2 ^ 64) ||| (tag &&& 0xFFFF)

def unpack (packed : ℕ) : ℕ × ℕ := (packed >>> 16, packed &&& 0xFFFF)

/-- `push`: the new head and the memory -/
def push (head : ℕ) (mem : Heap) (frame : ℕ) : Option (ℕ × Heap) :=
  if frame < maxPlausiblePhys ∧ frame &&& 0xFFF = 0 then
    let (headFrame, tag) := unpack head
    some (pack (frame >>> 12) ((tag + 1) % 2 ^ 64), update mem frame ⟨headFrame <<< 12, tag⟩)
  else none

/-- `pop`: the frame, if any, and the new head -/
def pop (head : ℕ) (mem : Heap) : Option (Option ℕ × ℕ) :=
  let (headFrame, tag) := unpack head
  if headFrame = 0 then some (none, head)
  else
    let frame := headFrame <<< 12
    let nextPhys := (mem frame).nextPhys
    if frame < maxPlausiblePhys ∧ nextPhys < maxPlausiblePhys ∧ nextPhys &&& 0xFFF = 0 then
      some (some frame, pack (nextPhys >>> 12) ((tag + 1) % 2 ^ 64))
    else none

/-! ## Packed heads -/

/-- a page-aligned address that the assertions let through -/
def Plausible (a : ℕ) : Prop := a < maxPlausiblePhys ∧ a &&& 0xFFF = 0

variable {a head : ℕ} {l : List ℕ} {mem : Heap}

theorem plausible_iff : Plausible a ↔ a < 2 ^ 44 ∧ a % 2 ^ 12 = 0 := by
  have hm : a &&& 0xFFF = a % 2 ^ 12 := Nat.and_two_pow_sub_one_eq_mod a 12
  rw [Plausible, hm, maxPlausiblePhys, Nat.one_shiftLeft]

theorem plausible_zero : Plausible 0 := plausible_iff.2 (by decide)

theorem Plausible.shift (h : Plausible a) : (a >>> 12) <<< 12 = a := by
  obtain ⟨-, hz⟩ := plausible_iff.1 h
  omega

theorem unpack_pack {f : ℕ} (hf : f < 2 ^ 32) (tag : ℕ) : (unpack (pack f tag)).1 = f := by
  have hm : tag &&& 0xFFFF = tag % 2 ^ 16 := Nat.and_two_pow_sub_one_eq_mod tag 16
  have hlt : f <<< 16 < 2 ^ 64 := by
    omega
  have ht : (tag % 2 ^ 16) >>> 16 = 0 := by
    rw [Nat.shiftRight_eq_div_pow]
    exact Nat.div_eq_of_lt (Nat.mod_lt _ (by decide))
  simp only [unpack, pack]
  rw [Nat.mod_eq_of_lt hlt, hm, Nat.shiftRight_or_distrib, Nat.shiftLeft_shiftRight, ht, Nat.or_zero]

/-- the address a head stands for -/
def headAddr (head : ℕ) : ℕ := (unpack head).1 <<< 12

theorem headAddr_pack (h : Plausible a) (tag : ℕ) : headAddr (pack (a >>> 12) tag) = a := by
  have hlt : a >>> 12 < 2 ^ 32 := by
    have h44 := (plausible_iff.1 h).1
    omega
  rw [headAddr, unpack_pack hlt, h.shift]

theorem headAddr_eq_zero : headAddr head = 0 ↔ (unpack head).1 = 0 := by
  rw [headAddr]
  omega

/-! ## What a head spells -/

/-- following the headers from `head` visits exactly `l` -/
def Linked (mem : Heap) (head : ℕ) (l : List ℕ) : Prop :=
  Chain (fun a => (mem a).nextPhys) 0 (headAddr head) l ∧ ∀ a ∈ l, Plausible a

/-- the list after a push of `a` -/
def pushed (a : ℕ) (l : List ℕ) : List ℕ := if a = 0 then [] else a :: l

theorem mem_of_mem_pushed {b : ℕ} (h : b ∈ pushed a l) : b = a ∨ b ∈ l := by
  unfold pushed at h
  split_ifs at h
  · exact absurd h not_mem_nil
  · exact mem_cons.1 h

theorem linked_empty (mem : Heap) : Linked mem 0 [] := ⟨rfl, fun _ ha => absurd ha not_mem_nil⟩

section

variable (h : Linked mem head l)
include h

theorem linked_unique {l' : List ℕ} (h' : Linked mem head l') : l = l' := chain_unique h.1 h'.1

theorem Linked.frame (ha : a ∉ l) (v : FreeFrame) : Linked (update mem a v) head l := by
  refine ⟨h.1.congr fun b hb => ?_, h.2⟩
  rw [update_of_ne]
  rintro rfl
  exact ha hb

theorem Linked.ne_zero : ∀ a ∈ l, a ≠ 0 := h.1.ne_nil

theorem push_spec (hp : Plausible a) (ha : a ∉ l) :
    ∃ head' v, push head mem a = some (head', update mem a v) ∧
      Linked (update mem a v) head' (pushed a l) := by
  refine ⟨_, _, if_pos hp, ?_⟩
  by_cases h0 : a = 0
  · subst h0
    exact ⟨headAddr_pack plausible_zero _, fun b hb => absurd hb not_mem_nil⟩
  · rw [pushed, if_neg h0]
    constructor
    · rw [headAddr_pack hp]
      have hc := chain_push h.1 h0 ha
      refine hc.congr fun b _ => ?_
      by_cases hb : b = a
      · subst hb
        simp [headAddr, unpack]
      · simp [update_of_ne hb]
    · intro b hb
      rcases mem_cons.1 hb with rfl | hb
      · exact hp
      · exact h.2 b hb

theorem pop_spec :
    match l with
    | [] => pop head mem = some (none, head)
    | a :: rest => ∃ head', pop head mem = some (some a, head') ∧ Linked mem head' rest := by
  rcases l with _ | ⟨a, rest⟩
  · exact if_pos (headAddr_eq_zero.1 h.1)
  · obtain ⟨⟨ha, hn, hrest⟩, hp⟩ := h
    have hpa : Plausible a := hp a mem_cons_self
    have hf : ¬ (unpack head).1 = 0 := fun hz => hn (ha ▸ headAddr_eq_zero.2 hz)
    -- the link of the first frame is the address of the second, or 0
    have hnext : Plausible (mem a).nextPhys := by
      rcases rest with _ | ⟨b, rest⟩
      · rw [show (mem a).nextPhys = 0 from hrest]
        exact plausible_zero
      · rw [show (mem a).nextPhys = b from hrest.1]
        exact hp b (by simp)
    have ha' : (unpack head).1 <<< 12 = a := ha
    refine ⟨pack ((mem a).nextPhys >>> 12) (((unpack head).2 + 1) % 2 ^ 64), ?_, ?_, ?_⟩
    · unfold pop
      simp only [hf, if_false, ha']
      exact if_pos ⟨hpa.1, hnext.1, hnext.2⟩
    · rw [headAddr_pack hnext]
      exact hrest
    · exact fun b hb => hp b (mem_cons_of_mem a hb)

end

end Rumicos.Memory.Buddy
