/-
The frame allocator as its callers see it (`alloc_frame`, `free_frame` of `crates/memory/src/lib.rs`).

Which free frame the buddy allocator returns is not the callers' business: `answers` is the list of frames it will
return, an arbitrary input of every run. The allocator's own promise is checked at each answer: a frame that is
allocated is never returned (`track_alloc` asserts this). An empty list stands for out of memory; the source panics in
both cases, so `allocFrame` has no result.

`free_frame` asserts that the frame was allocated (`track_free`, for frames below 2 GiB; above that a second free is not
noticed). Both kinds of misuse set `badFree`. `freed` is the history of all frees, newest first.
-/
import Rumicos.Paging.Entry

namespace Rumicos.Memory

open Paging

/-- the bytes of a frame, by offset below 4096 -/
abbrev Page := ℕ → UInt8

/-- a zeroed frame -/
def zeroPage : Page := fun _ => 0

structure Frames where
  /-- what `alloc_frame` will return -/
  answers : List Pfn
  allocated : Pfn → Bool
  /-- history: the frames freed so far, newest first -/
  freed : List Pfn
  /-- history: a frame was freed that was not allocated -/
  badFree : Bool

/-- nothing allocated yet -/
def Frames.new (answers : List Pfn) : Frames := ⟨answers, fun _ => false, [], false⟩

def allocFrame (fr : Frames) : Option (Pfn × Frames) :=
  match fr.answers with
  | [] => none
  | f :: rest =>
    if fr.allocated f then none
    else some (f, { fr with answers := rest, allocated := Function.update fr.allocated f true })

def freeFrame (fr : Frames) (f : Pfn) : Frames :=
  { fr with
    allocated := Function.update fr.allocated f false
    freed := f :: fr.freed
    badFree := fr.badFree || !fr.allocated f }

theorem allocFrame_spec {fr fr' : Frames} {f : Pfn} (h : allocFrame fr = some (f, fr')) :
    fr.allocated f = false ∧ fr'.allocated = Function.update fr.allocated f true ∧ fr'.freed = fr.freed ∧
      fr'.badFree = fr.badFree ∧ fr.answers = f :: fr'.answers := by
  unfold allocFrame at h
  split at h
  · cases h
  · rename_i g rest hg
    split_ifs at h with ha
    cases h
    exact ⟨by simpa using ha, rfl, rfl, rfl, hg⟩

end Rumicos.Memory
