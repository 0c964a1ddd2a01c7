/-
The signal frame on the user stack (`crates/proc/src/signal.rs`: `compute_signal_frame_layout`, `write_signal_frame`).

Both delivery paths write 144 bytes of context and the 8 bytes of a return address below the stack pointer they find, in
the CPU's current syscall frame or in the interrupt frame. The stack pointer is the user's: any 64-bit value.
-/
import Rumicos.Proc.Signal
import Rumicos.Proc.UserFaults

namespace Rumicos.Proc.SignalFrame

open Paging Memory Lib Fs Proc.Signal Proc.UserFaults BitVec

/-! ## The bytes of the frame -/

/-- the return to user mode that delivers, with the frame it finds -/
inductive ReturnPath where
  | syscall (frame : SyscallFrame)
  | interrupt (frame : InterruptFrame)

/-- the `user_rsp` that `write_signal_frame` is called with -/
def ReturnPath.userRsp : ReturnPath → Word
  | .syscall frame => frame.userRsp
  | .interrupt frame => frame.rsp

/-- `core::ptr::write` of `len` bytes; addresses wrap -/
def storeBytes (addr : Word) (len : ℕ) : List Touch :=
  (List.range len).map fun i => ⟨(addr + BitVec.ofNat 64 i).toNat, true⟩

/-- `write_signal_frame`: the context, then the return address -/
def frameBytes (userRsp : Word) : List Touch :=
  storeBytes (computeSignalFrameLayout userRsp).ctxAddr ctxSize ++
    storeBytes (computeSignalFrameLayout userRsp).retAddrSlot 8

/-- `check_and_deliver_iret` and `setup_and_enter_handler` up to the end of `write_signal_frame` -/
def writeSignalFrame (k : Kernel) (path : ReturnPath) : Machine := start k (frameBytes path.userRsp)

/-- in the user half and strictly below the 128 bytes under `rsp` -/
def Placed (rsp : Word) (t : Touch) : Prop := t.addr < userTop ∧ t.addr + 128 < rsp.toNat

/-! ## Arithmetic -/

theorem toNat_align (x : Word) : (x &&& ~~~0xf#64).toNat = x.toNat / 16 * 16 := by
  have hmask : ~~~0xf#64 = allOnes 64 <<< 4 := by decide
  have hshift : x &&& allOnes 64 <<< 4 = x >>> 4 <<< 4 := by
    ext i hi
    simp only [getElem_and, getElem_shiftLeft, getElem_allOnes]
    by_cases h4 : i < 4
    · simp [h4]
    · have hi' : 4 + (i - 4) = i := by omega
      simp [h4, hi', getLsbD_eq_getElem hi]
  rw [hmask, hshift, toNat_shiftLeft, toNat_ushiftRight]
  omega

theorem toNat_ctxAddr (r : Word) :
    (computeSignalFrameLayout r).ctxAddr.toNat = (r.toNat + (2 ^ 64 - 272)) % 2 ^ 64 / 16 * 16 := by
  have hctx : (computeSignalFrameLayout r).ctxAddr = (r - 272#64) &&& ~~~0xf#64 := by
    simp only [computeSignalFrameLayout]
    rw [sub_sub]
    rfl
  have hsub : (r - 272#64).toNat = (r.toNat + (2 ^ 64 - 272)) % 2 ^ 64 := by
    rw [toNat_sub, toNat_ofNat]
    omega
  rw [hctx, toNat_align, hsub]

theorem toNat_retAddrSlot (r : Word) : (computeSignalFrameLayout r).retAddrSlot.toNat =
    ((computeSignalFrameLayout r).ctxAddr.toNat + (2 ^ 64 - 8)) % 2 ^ 64 := by
  simp only [computeSignalFrameLayout, toNat_sub, toNat_ofNat]
  omega

theorem forall_storeBytes {addr : Word} {len : ℕ} {P : Touch → Prop} :
    (∀ t ∈ storeBytes addr len, P t) ↔ ∀ i < len, P ⟨(addr.toNat + i) % 2 ^ 64, true⟩ := by
  simp [storeBytes]

/-! ## Where the frame lands -/

/-- the stack pointers `used` whose frame lies in the user half and below the red zone of `rsp` -/
def FrameFits (used rsp : Word) : Prop :=
  288 ≤ used.toNat ∧ used.toNat < userTop + 144 ∧ (used.toNat - 272) / 16 * 16 + 272 ≤ rsp.toNat

instance (used rsp : Word) : Decidable (FrameFits used rsp) := by unfold FrameFits; infer_instance

/-- **Where the frame lands.** -/
theorem frame_placed_iff (used rsp : Word) : (∀ t ∈ frameBytes used, Placed rsp t) ↔ FrameFits used rsp := by
  have hctx := toNat_ctxAddr used
  have hret := toNat_retAddrSlot used
  simp only [frameBytes, List.forall_mem_append, forall_storeBytes, Placed, FrameFits, userTop, ctxSize]
  constructor
  · intro h
    obtain ⟨h1, h2⟩ := h
    have hlast := h1 143 (by decide)
    have hslot := h2 0 (by decide)
    omega
  · intro h
    refine ⟨?_, ?_⟩
    · omega
    · omega

/-! ## Delivery -/

/-- **The signal frame.** In every reachable state, for every stack pointer `rsp` that was interrupted and every frame the
delivery path finds: all bytes are written, in the user half and below the red zone, exactly if the stack pointer found is
one whose frame fits there and each page fault on the way is resolvable. -/
theorem signal_frame_iff {answers : List Pfn} {vnodes : ℕ → VNode} {ops : List Op} {k : Kernel}
    (hrun : run (Kernel.new answers vnodes) ops = some k) {a : ℕ} {s : AddressSpace} (hs : k.space a = some s)
    (path : ReturnPath) (rsp : Word) :
    ((∀ t ∈ frameBytes path.userRsp, Placed rsp t) ∧ Completes a (writeSignalFrame k path)) ↔
      FrameFits path.userRsp rsp ∧ FaultsOk a (writeSignalFrame k path) := by
  rw [frame_placed_iff, (completes_iff ⟨(run_shape hrun).areas, s, hs⟩ rfl).1]

/-- an interrupt with this stack pointer -/
def interruptAt (rsp : Word) : ReturnPath :=
  .interrupt (InterruptFrame.ofUser { SavedUserContext.zeroed with userRsp := rsp })

/-- an interrupt at the top of the user stack -/
theorem signal_frame_on_stack :
    ∃ k, run smallKernel [.create bareImage] = some k ∧ Completes 0 (writeSignalFrame k (interruptAt 0x7fffffff0000)) ∧
      FrameFits 0x7fffffff0000 0x7fffffff0000 ∧ FaultsOk 0 (writeSignalFrame k (interruptAt 0x7fffffff0000)) := by
  refine exists_of_check (fun k => (∃ s, k.space 0 = some s ∧ True) ∧
    ∃ m, after 0 152 (writeSignalFrame k (interruptAt 0x7fffffff0000)) = some m ∧ m.todo = [] ∧ m.status = .running)
    (by decide +kernel) fun k hk ⟨⟨s, hs, _⟩, m, hm⟩ => ?_
  have hc : Completes 0 (writeSignalFrame k (interruptAt 0x7fffffff0000)) := ⟨152, m, hm⟩
  have hplaced := (frame_placed_iff (interruptAt 0x7fffffff0000).userRsp 0x7fffffff0000).2 (by decide)
  exact ⟨hc, (signal_frame_iff hk hs (interruptAt 0x7fffffff0000) 0x7fffffff0000).1 ⟨hplaced, hc⟩⟩

/-- **Frames elsewhere.** With a stack pointer of 0 the context goes to the top of the kernel half; with one in an
unmapped page of the user half the kernel panics. -/
theorem frame_in_kernel_half :
    (run smallKernel [.create bareImage]).any (fun k =>
      (after 0 1 (writeSignalFrame k (interruptAt 0))).any (fun m => decide (m.status = .wild)) &&
      (after 0 1 (writeSignalFrame k (interruptAt 0x5000))).any (fun m => decide (m.status = .panicked))) = true := by
  decide +kernel

end Rumicos.Proc.SignalFrame
