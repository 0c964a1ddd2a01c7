/-
The moves before sysretq (`enter_user_mode`, `enter_signal_handler` of `crates/proc/src/process.rs`).

The operands of the two asm blocks are `in(reg)`: each is in a general purpose register the compiler chooses, and the
block moves them one by one into the registers that SYSRET and the user expect. RCX is written before three of the
operands are read and R11 before one, and nothing keeps the compiler from choosing RCX or R11.
-/
import Mathlib.Data.BitVec
import Mathlib.Tactic

namespace Rumicos.Proc.UserEntry

open Function List

/-! ## Instructions -/

inductive Reg where
  | cr3 | rsp | rax | rbx | rcx | rdx | rsi | rdi | r8 | r9 | r10 | r11 | r12 | r13 | r14 | r15
deriving DecidableEq

/-- the register class `reg` -/
def Reg.isGeneral (r : Reg) : Bool := r ≠ .cr3 && r ≠ .rsp

abbrev Regs := Reg → BitVec 64

inductive Instr where
  | mov (dst src : Reg)
  /-- `xor dst, dst` -/
  | clear (dst : Reg)

def Instr.dst : Instr → Reg
  | .mov d _ | .clear d => d

def Instr.exec (regs : Regs) : Instr → Regs
  | .mov d s => update regs d (regs s)
  | .clear d => update regs d 0

def exec (is : List Instr) (regs : Regs) : Regs := is.foldl Instr.exec regs

def Instr.reads (r : Reg) : Instr → Prop
  | .mov _ s => s = r
  | .clear _ => False

/-- no operand is overwritten before it is read -/
def Intact (is : List Instr) : Prop := is.Pairwise fun i j => ¬ j.reads i.dst

variable {is : List Instr} {regs : Regs} {d s : Reg}

theorem exec_frame (h : d ∉ is.map Instr.dst) : exec is regs d = regs d := by
  induction is generalizing regs with
  | nil => rfl
  | cons i is ih =>
    obtain ⟨hi, his⟩ := ne_and_not_mem_of_not_mem_cons h
    refine (ih his).trans ?_
    cases i with
    | mov d' s | clear d' => exact update_of_ne hi _ _

theorem exec_mov (h : Intact is) (hd : (is.map Instr.dst).Nodup) (hm : .mov d s ∈ is) : exec is regs d = regs s := by
  induction is generalizing regs with
  | nil => cases hm
  | cons i is ih =>
    obtain ⟨hi, his⟩ := pairwise_cons.1 h
    obtain ⟨hnot, hnodup⟩ := nodup_cons.1 hd
    rcases mem_cons.1 hm with rfl | hm
    · exact (exec_frame hnot).trans (update_self _ _ _)
    · refine (ih his hnodup hm).trans ?_
      have hne : s ≠ i.dst := hi _ hm
      cases i with
      | mov d' s' | clear d' => exact update_of_ne hne _ _

/-! ## The two blocks -/

structure Values where
  cr3 : BitVec 64
  rip : BitVec 64
  rsp : BitVec 64
  rflags : BitVec 64
  /-- `rax` or `arg` -/
  value : BitVec 64

/-- the compiler's choice for the operands: distinct registers of class `reg` -/
structure Allocation where
  cr3 : Reg
  rip : Reg
  rsp : Reg
  rflags : Reg
  value : Reg
  general : ∀ r ∈ [cr3, rip, rsp, rflags, value], r.isGeneral = true
  distinct : [cr3, rip, rsp, rflags, value].Nodup

/-- the registers at the first instruction -/
def Allocation.load (a : Allocation) (v : Values) (rest : Regs) : Regs := fun r =>
  if r = a.value then v.value
  else if r = a.rflags then v.rflags
  else if r = a.rsp then v.rsp
  else if r = a.rip then v.rip
  else if r = a.cr3 then v.cr3
  else rest r

/-- up to `swapgs` -/
def enterUserMode (a : Allocation) : List Instr :=
  [.mov .cr3 a.cr3, .mov .rcx a.rip, .mov .rsp a.rsp, .mov .r11 a.rflags, .mov .rax a.value]

def enterSignalHandler (a : Allocation) : List Instr :=
  [.mov .cr3 a.cr3, .mov .rcx a.rip, .mov .rsp a.rsp, .mov .r11 a.rflags, .mov .rdi a.value, .clear .rax]

/-- `sysretq` finds the values where it and the user expect them, the last one in `dst` -/
structure Entered (is : List Instr) (dst : Reg) (a : Allocation) (v : Values) (rest : Regs) : Prop where
  rcx : exec is (a.load v rest) .rcx = v.rip
  rsp : exec is (a.load v rest) .rsp = v.rsp
  r11 : exec is (a.load v rest) .r11 = v.rflags
  value : exec is (a.load v rest) dst = v.value
  intact : Intact is

/-- RCX and R11 are not the registers of operands still to be read when they are written -/
def Allocation.Apart (a : Allocation) : Prop := (∀ r ∈ [a.rsp, a.rflags, a.value], r ≠ .rcx) ∧ a.value ≠ .r11

variable {a : Allocation}

theorem load_operands (a : Allocation) (v : Values) (rest : Regs) :
    a.load v rest a.rip = v.rip ∧ a.load v rest a.rsp = v.rsp ∧ a.load v rest a.rflags = v.rflags ∧
      a.load v rest a.value = v.value := by
  have h := a.distinct
  simp only [nodup_cons, mem_cons, not_or] at h
  simp [Allocation.load, h]

theorem entered_of_intact {dst : Reg} (v : Values) (rest : Regs) (h : Intact is) (hd : (is.map Instr.dst).Nodup)
    (hm : ∀ i ∈ [Instr.mov .rcx a.rip, .mov .rsp a.rsp, .mov .r11 a.rflags, .mov dst a.value], i ∈ is) :
    Entered is dst a v rest := by
  obtain ⟨h1, h2, h3, h4⟩ := load_operands a v rest
  simp only [forall_mem_cons] at hm
  obtain ⟨m1, m2, m3, m4, -⟩ := hm
  exact ⟨(exec_mov h hd m1).trans h1, (exec_mov h hd m2).trans h2, (exec_mov h hd m3).trans h3,
    (exec_mov h hd m4).trans h4, h⟩

theorem intact_enterUserMode : Intact (enterUserMode a) ↔ a.Apart := by
  have h := a.general
  simp [Reg.isGeneral] at h
  simp [Intact, enterUserMode, Instr.reads, Instr.dst, Allocation.Apart, h]

theorem intact_enterSignalHandler : Intact (enterSignalHandler a) ↔ a.Apart := by
  have h := a.general
  simp [Reg.isGeneral] at h
  simp [Intact, enterSignalHandler, Instr.reads, Instr.dst, Allocation.Apart, h]

/-- **Operands of the way to user mode.** For all values and every choice of distinct registers, both blocks reach sysretq
with every value in its place and no operand overwritten before it is read, exactly when the choice keeps the stack
pointer, the flags and the last operand out of RCX, and the last operand out of R11. -/
theorem enter_iff (a : Allocation) (v : Values) (rest : Regs) :
    (Entered (enterUserMode a) .rax a v rest ↔ a.Apart) ∧ (Entered (enterSignalHandler a) .rdi a v rest ↔ a.Apart) := by
  constructor
  · rw [← intact_enterUserMode]
    have hd : [Reg.cr3, .rcx, .rsp, .r11, .rax].Nodup := by decide
    exact ⟨Entered.intact, fun h => entered_of_intact v rest h hd (by simp [enterUserMode])⟩
  · rw [← intact_enterSignalHandler]
    have hd : [Reg.cr3, .rcx, .rsp, .r11, .rdi, .rax].Nodup := by decide
    exact ⟨Entered.intact, fun h => entered_of_intact v rest h hd (by simp [enterSignalHandler])⟩

/-- the stack pointer in RCX: the user gets the entry point as its stack -/
theorem stack_in_rcx : ∃ a : Allocation,
    exec (enterUserMode a) (a.load ⟨1, 2, 3, 4, 5⟩ 0) .rsp = 2 ∧
      exec (enterSignalHandler a) (a.load ⟨1, 2, 3, 4, 5⟩ 0) .rsp = 2 :=
  ⟨⟨.rax, .rbx, .rcx, .rdx, .rsi, by decide, by decide⟩, by decide⟩

end Rumicos.Proc.UserEntry
