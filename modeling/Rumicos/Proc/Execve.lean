/-
execve and the memory it needs (`do_execve` in `crates/proc/src/exec.rs`, `alloc_frame` and `alloc_order` of
`crates/memory`).

The file is read into a buffer of 256 frames, parsed, and mapped into a new address space, the caller's own being
untouched; then the new address space gets its record, the old one is dropped and the process enters the new image. A
missing or malformed file ends the call with an errno. The frame and PCID allocators panic when they have nothing left,
which a result of `none` stands for.

The strings are those `sys_execve` has copied. What the file system answers for a path is an input (`load`). The old
address space's teardown and the activation of the new one are steps of their own in other modules; here they are part
of the call.
-/
import Rumicos.Proc.Descriptors
import Rumicos.Proc.ExecArgs
import Rumicos.Proc.ProcessFrames
import Rumicos.Proc.ProcessTables
import Rumicos.Proc.Signal

namespace Rumicos.Proc.Execve

open Paging Memory Lib Fs List Option Slot
open Proc.Processes (Pcids PcidRoom give_isSome allocOrder inBlock Deeper mapPage_takesTables)
open Proc.ProcessFrames (freeBlock freePcid dropSpace elfBufOrder allocOrder_block freeBlock_spec)
open Proc.ExecArgs (maxArgv maxEnvp copyLen setupStack setupStack_decodes stackPages)

/-! ## The call -/

/-- a string that `sys_execve` has copied: cut at its first NUL and at 256 bytes -/
structure Arg where
  bytes : List UInt8
  short : bytes.length ≤ copyLen
  noNul : 0 ∉ bytes

/-- the calling process -/
structure Caller where
  space : ℕ
  userRip : ℕ
  userRsp : ℕ
  userRflags : ℕ
  userRax : ℤ
  fdTable : Descriptors.FdTable Descriptors.FdEntry
  sigTable : Signal.SigTable
  sigFrame : Option Signal.SavedUserContext
  pending : Signal.PendingSet

/-- the second phase: new address space, registers and signal state; every descriptor stays open -/
def Caller.replaced (p : Caller) (space entry rsp : ℕ) : Caller :=
  { p with
    space := space
    userRip := entry
    userRsp := rsp
    userRflags := 0x202
    userRax := 0
    sigTable := Signal.SigTable.new
    sigFrame := none
    pending := 0 }

structure System where
  kernel : Kernel
  pcids : Pcids
  proc : Caller

inductive Reply where
  | errno (e : ℤ)
  | entered
deriving DecidableEq

/-- `free_elf_buf` -/
def System.giveBack (s : System) (fr : Frames) (buf : Pfn) : System :=
  { s with kernel := { s.kernel with frames := freeBlock elfBufOrder fr buf } }

/-- the new address space, from the file in the buffer `buf` to `alloc_shared` -/
def loadInto (k : Kernel) (buf : Pfn) (img : Image) : Option (Kernel × ℕ) :=
  (newSpace k).bind fun x =>
    (img.segments.foldlM (fun k seg => mapSegment img.elfData k x.2 seg) x.1).bind fun k =>
      (mapUserStack img.stack k x.2).bind fun k =>
        (mapSigreturnTrampoline k x.2).bind fun k =>
          (allocShared { k with frames := freeBlock elfBufOrder k.frames buf } x.2).map fun k => (k, x.2)

/-- what happens once the file is accepted -/
def System.replaceImage (s : System) (fr : Frames) (buf : Pfn) (img : Image) (entry rsp : ℕ) : Option System :=
  (loadInto { s.kernel with frames := fr } buf img).bind fun x =>
    (s.pcids.give x.2).bind fun pcids =>
      (dropSpace x.1 pcids s.proc.space).map fun y => ⟨y.1, y.2, s.proc.replaced x.2 entry rsp⟩

def doExecve (s : System) (load : List UInt8 → Except ℤ (List UInt8)) (path : List UInt8) (argv envp : List Arg) :
    Option (System × Reply) :=
  if maxArgv < argv.length ∨ maxEnvp < envp.length then some (s, .errno e2Big)
  else (allocOrder elfBufOrder s.kernel.frames).bind fun x =>
    match load path with
    | .error r => some (s.giveBack x.2 x.1, .errno (if r = -2 then eNoEnt else eIo))
    | .ok data =>
      if data.length = 0 then some (s.giveBack x.2 x.1, .errno eNoExec)
      else match parseElf data with
        | .error _ => some (s.giveBack x.2 x.1, .errno eNoExec)
        | .ok info =>
          (setupStack (argv.map Arg.bytes) (envp.map Arg.bytes)).bind fun st =>
            (s.replaceImage x.2 x.1 (elfImage data info (stackPages st.1)) info.entry st.2).map fun s => (s, .entered)

/-! ## The frames of an image -/

/-- the frames that mapping `pages` takes in a new address space: the PML4, one for each page, and the tables above them -/
def imageFrames (pages : List UPage) : ℕ := 1 + (pages.length + Slot.missingAll (some (emptySpace 0 [] 0).pml4) pages)

/-- the pages the loader maps, in order -/
def imagePages (info : ElfInfo) : List UPage :=
  info.segments.flatMap (fun seg => (List.range seg.pageCount).map fun j => pageOf (seg.vaddr + j * pageSize)) ++
    (List.range ustackPages).map ustackPage ++ [pageOf sigreturnTrampolineVa]

theorem layout_pages (data : List UInt8) (info : ElfInfo) (stack : ℕ → Page) :
    (elfImage data info stack).layout.map Placed.page = imagePages info := by
  simp only [Image.layout, map_append, map_flatMap, LoadSegment.layout, List.map_map]
  rfl

section Counting

variable {k : Kernel} {c : ℕ} {t : AddressSpace}

theorem place_frames (hc : k.space c = some t) (x : Placed) :
    (place c k x).map (·.frames) = Slot.take allocFrame (1 + Slot.missing (some t.pml4) x.page) k.frames ∧
      ∀ k', place c k x = some k' → ∃ t', k'.space c = some t' ∧ Deeper t t' x.page := by
  rw [Slot.take_add, Slot.take, place, mapFresh]
  cases hf : allocFrame k.frames with
  | none => exact ⟨rfl, fun k' h => by cases h⟩
  | some r =>
    obtain ⟨f, fr⟩ := r
    have htakes := mapPage_takesTables (k := { k with frames := fr, mem := Function.update k.mem f x.bytes }) hc x.page f
      (protToPageFlags x.prot) (some x.origin)
    exact ⟨htakes.frames, htakes.space⟩

theorem foldlM_place_frames (xs : List Placed) (hc : k.space c = some t) :
    (xs.foldlM (place c) k).map (·.frames) =
        Slot.take allocFrame (xs.length + Slot.missingAll (some t.pml4) (xs.map Placed.page)) k.frames ∧
      ∀ k', xs.foldlM (place c) k = some k' → (k'.space c).isSome = true := by
  induction xs generalizing k t with
  | nil =>
    rw [map_nil, missingAll_nil]
    refine ⟨rfl, fun k' h => ?_⟩
    cases h
    rw [hc]
    rfl
  | cons x xs ih =>
    obtain ⟨hframes, hspace⟩ := place_frames hc x
    rw [foldlM_cons, map_cons, length_cons]
    cases hx : place c k x with
    | none =>
      rw [hx] at hframes
      have hle := missing_le_missingAll (some t.pml4) x.page (xs.map Placed.page)
      exact ⟨(take_eq_none_of_le hframes.symm (by omega)).symm, nofun⟩
    | some k₁ =>
      obtain ⟨t₁, hc₁, hdeep⟩ := hspace k₁ hx
      rw [hx, map_some] at hframes
      obtain ⟨hrest, hlive⟩ := ih hc₁
      refine ⟨?_, hlive⟩
      rw [hdeep, show xs.length + 1 + (missing (some t.pml4) x.page + missingAll (some t₁.pml4) (xs.map Placed.page)) =
        1 + missing (some t.pml4) x.page + (xs.length + missingAll (some t₁.pml4) (xs.map Placed.page)) by ring,
        Slot.take_add, ← hframes, bind_some]
      exact hrest

end Counting

theorem loadInto_eq (k : Kernel) (buf : Pfn) (img : Image) :
    loadInto k buf img = (allocFrame k.frames).bind fun x =>
      (img.layout.foldlM (place k.spaces.length)
      (addSpace k x.2 (emptySpace x.1 (List.replicate maxVmas none) mmapBase))).bind fun k' =>
        (allocShared { k' with frames := freeBlock elfBufOrder k'.frames buf } k.spaces.length).map fun k' =>
        (k', k.spaces.length) := by
  rw [loadInto, newSpace]
  cases hf : allocFrame k.frames with
  | none => rfl
  | some r =>
    simp only [layout_foldlM, bind_assoc]
    rfl

variable {a : ℕ} {k' : Kernel} {buf : Pfn} {fr : Frames}

theorem allocShared_isSome {k : Kernel} {t : AddressSpace} (h : k.space a = some t) (fr : Frames) :
    (allocShared { k with frames := fr } a).isSome = (allocFrame fr).isSome := by
  have h' : ({ k with frames := fr } : Kernel).space a = some t := h
  rw [allocShared, h']
  cases allocFrame fr with
  | none | some r =>
    rfl

/-- **The frames of an image.** Loading succeeds exactly when the allocator gives `imageFrames` frames, and one more for
the record once the buffer is free again. -/
theorem loadInto_isSome (k : Kernel) (buf : Pfn) (img : Image) :
    (loadInto k buf img).isSome = true ↔
      ∃ fr, Slot.take allocFrame (imageFrames (img.layout.map Placed.page)) k.frames = some fr ∧
      (allocFrame (freeBlock elfBufOrder fr buf)).isSome = true := by
  rw [loadInto_eq, imageFrames, length_map, Slot.take_add, Slot.take]
  cases hf : allocFrame k.frames with
  | none => simp
  | some r =>
    obtain ⟨f, fr⟩ := r
    obtain ⟨hframes, hlive⟩ := foldlM_place_frames (c := k.spaces.length) img.layout
      (space_addSpace_self k fr (emptySpace f (List.replicate maxVmas none) mmapBase))
    -- the number of tables does not depend on the frame of the root
    have hcount : take allocFrame (img.layout.length + missingAll (some (emptySpace 0 [] 0).pml4)
      (img.layout.map Placed.page)) fr =
        (img.layout.foldlM (place k.spaces.length)
          (addSpace k fr (emptySpace f (List.replicate maxVmas none) mmapBase))).map (·.frames) :=
      hframes.symm
    simp only [bind_some, Slot.take]
    rw [hcount]
    cases hfold : img.layout.foldlM (place k.spaces.length)
      (addSpace k fr (emptySpace f (List.replicate maxVmas none) mmapBase)) with
    | none => simp
    | some k' =>
      obtain ⟨t, ht⟩ := isSome_iff_exists.1 (hlive k' hfold)
      rw [bind_some, isSome_map, allocShared_isSome ht, map_some]
      simp

/-! ## The new image -/

/-- the address space shows the last mapping of each page -/
def Shows (xs : List Placed) (k : Kernel) (c : ℕ) : Prop :=
  (∀ addr, k.byteAt c addr = (lastAt xs (pageOf addr)).map fun x => x.bytes (addr % pageSize)) ∧
    ∀ p, k.protAt c p = (lastAt xs p).map Placed.prot

theorem Shows.congr {xs : List Placed} {k : Kernel} {c : ℕ} {t t' : AddressSpace} (h : Shows xs k c)
    (ht : k.space c = some t) (ht' : k'.space c = some t') (hleaf : t'.pml4 = t.pml4) (hmem : k'.mem = k.mem) :
    Shows xs k' c := by
  have hleaves : t'.leaf = t.leaf := by
    funext p
    rw [AddressSpace.leaf, AddressSpace.leaf, hleaf]
  refine ⟨fun addr => ?_, fun p => ?_⟩
  · rw [← h.1 addr, Kernel.byteAt, Kernel.byteAt, ht, ht', bind_some, bind_some, hleaves, hmem]
  · rw [← h.2 p, Kernel.protAt, Kernel.protAt, ht, ht', bind_some, bind_some, hleaves]

theorem loadInto_spec {k : Kernel} {img : Image} {c : ℕ} (h : loadInto k buf img = some (k', c)) :
    c = k.spaces.length ∧ Shows img.layout k' c ∧ (k'.space c).isSome = true ∧ ∀ b, b ≠ c → k'.space b = k.space b := by
  rw [loadInto_eq] at h
  obtain ⟨⟨f, fr⟩, -, h⟩ := bind_eq_some_iff.1 h
  obtain ⟨k₂, hfold, h⟩ := bind_eq_some_iff.1 h
  obtain ⟨k₃, hshared, hr⟩ := map_eq_some_iff.1 h
  cases hr
  have hcontents := contents_layout hfold
  have hothers := (foldlM_inv (fun _ j => Loading _ k.spaces.length j) (fun _ _ _ _ hI hx => loading_place hI hx)
    (loading_start k f fr) hfold).others
  generalize freeBlock elfBufOrder k₂.frames buf = fr₂ at hshared
  obtain ⟨t, g, fr₃, ht, -, rfl⟩ := allocShared_spec hshared
  have hself := space_setSpace_self (k := { k₂ with frames := fr₃ }) ht { t with ownFrame := some g }
  refine ⟨rfl, ?_, by rw [hself]; rfl, fun b hb => ?_⟩
  · exact Shows.congr ⟨hcontents.byteAt, hcontents.protAt⟩ ht hself rfl rfl
  · rw [space_setSpace_ne _ hb]
    exact (hothers b hb).trans (space_addSpace_ne _ _ _ hb)

theorem dropRef_isSome {k : Kernel} {t : AddressSpace} (h : k.space a = some t) (hown : t.ownFrame.isSome = true) :
    (dropRef k a).isSome = true := by
  obtain ⟨own, hown⟩ := isSome_iff_exists.1 hown
  by_cases hr : t.refcount = 1
  · simp only [dropRef, h, bind_eq_bind, bind_some, if_pos hr, hown]
    rfl
  · simp only [dropRef, h, bind_eq_bind, bind_some, if_neg hr]
    rfl

theorem dropRef_keeps {k : Kernel} (h : dropRef k a = some k') :
    k'.mem = k.mem ∧ ∀ b, b ≠ a → k'.space b = k.space b := by
  obtain ⟨t, -, hcase⟩ := dropRef_cases h
  rcases hcase with ⟨-, own, -, rfl⟩ | ⟨-, rfl⟩
  · refine ⟨rfl, fun b hb => ?_⟩
    simp [Kernel.space, Kernel.without, getElem?_set_ne hb.symm]
  · exact ⟨rfl, fun b hb => space_setSpace_ne k hb _⟩

/-- the caller has an address space with a record -/
def Live (s : System) : Prop := ∃ t, s.kernel.space s.proc.space = some t ∧ t.ownFrame.isSome = true

theorem replaceImage_isSome {s : System} (hlive : Live s) (fr : Frames) (buf : Pfn) (img : Image) (entry rsp : ℕ) :
    (s.replaceImage fr buf img entry rsp).isSome = true ↔
      (loadInto { s.kernel with frames := fr } buf img).isSome = true ∧ PcidRoom s.pcids := by
  rw [System.replaceImage]
  cases hload : loadInto { s.kernel with frames := fr } buf img with
  | none => exact ⟨nofun, nofun⟩
  | some x =>
    obtain ⟨k, c⟩ := x
    obtain ⟨hc, -, -, hothers⟩ := loadInto_spec hload
    obtain ⟨t, ht, hown⟩ := hlive
    have hold : k.space s.proc.space = some t := by
      rw [hothers _ (by rw [hc]; exact (space_lt ht).ne)]
      exact ht
    rw [← give_isSome s.pcids c, bind_some, isSome_some, eq_self, true_and]
    cases s.pcids.give c with
    | none => rfl
    | some pcids =>
      obtain ⟨k', hk'⟩ := isSome_iff_exists.1 (dropRef_isSome hold hown)
      simp only [dropSpace, hold, hk']
      rfl

theorem replaceImage_spec {s s' : System} (hlive : Live s) {img : Image} {entry rsp : ℕ}
    (h : s.replaceImage fr buf img entry rsp = some s') :
    s'.proc = s.proc.replaced s'.proc.space entry rsp ∧ Shows img.layout s'.kernel s'.proc.space := by
  obtain ⟨⟨k, c⟩, hload, h⟩ := bind_eq_some_iff.1 h
  obtain ⟨pcids, -, h⟩ := bind_eq_some_iff.1 h
  obtain ⟨⟨k', pcids'⟩, hdrop, rfl⟩ := map_eq_some_iff.1 h
  obtain ⟨hc, hshows, hnew, -⟩ := loadInto_spec hload
  obtain ⟨t, ht, -⟩ := hlive
  have hne : c ≠ s.proc.space := by
    rw [hc]
    exact (space_lt ht).ne'
  obtain ⟨t', ht'⟩ := isSome_iff_exists.1 hnew
  simp only [dropSpace, bind_eq_bind, bind_eq_some_iff] at hdrop
  obtain ⟨-, -, k₂, hk₂, rfl, -⟩ := hdrop
  obtain ⟨hmem, hothers⟩ := dropRef_keeps hk₂
  exact ⟨rfl, hshows.congr ht' ((hothers c hne).trans ht') rfl hmem⟩

/-! ## The call as a whole -/

section Calls

variable (s : System) (load : List UInt8 → Except ℤ (List UInt8)) (path : List UInt8) (argv envp : List Arg)

/-- **The property.** The new image is entered, or an errno is returned and everything is as before, the free frames
included. -/
def Fine : Option (System × Reply) → Prop
  | none => False
  | some (s', .errno e) =>
    e < 0 ∧ ∃ fr : Frames, s' = { s with kernel := { s.kernel with frames := fr } } ∧
      fr.allocated = s.kernel.frames.allocated
  | some (s', .entered) => ∃ data info mem rsp, load path = .ok data ∧ parseElf data = .ok info ∧
      setupStack (argv.map Arg.bytes) (envp.map Arg.bytes) = some (mem, rsp) ∧
        s'.proc = s.proc.replaced s'.proc.space info.entry rsp ∧
      Shows (elfImage data info (stackPages mem)).layout s'.kernel s'.proc.space

/-- a PCID, a frame for all that is mapped, and one for the record once the buffer is free again -/
def ImageRoom (fr : Frames) (buf : Pfn) (info : ElfInfo) : Prop :=
  PcidRoom s.pcids ∧ ∃ fr', Slot.take allocFrame (imageFrames (imagePages info)) fr = some fr' ∧
    (allocFrame (freeBlock elfBufOrder fr' buf)).isSome = true

/-- **The condition**: there is a free block for the file and, if `parse_elf` accepts it, room for the image -/
def ExecRoom : Prop :=
  (maxArgv < argv.length ∨ maxEnvp < envp.length) ∨ ∃ buf fr, allocOrder elfBufOrder s.kernel.frames = some (buf, fr) ∧
    ∀ data info, load path = .ok data → parseElf data = .ok info → ImageRoom s fr buf info

variable {s load path argv envp}

theorem replaceImage_room (hlive : Live s) (fr : Frames) (buf : Pfn) (data : List UInt8) (info : ElfInfo)
    (stack : ℕ → Page) (rsp : ℕ) :
    (s.replaceImage fr buf (elfImage data info stack) info.entry rsp).isSome = true ↔ ImageRoom s fr buf info := by
  have hroom := replaceImage_isSome hlive fr buf (elfImage data info stack) info.entry rsp
  rw [loadInto_isSome, layout_pages] at hroom
  exact hroom.trans and_comm

theorem forall_file_iff {data : List UInt8} {info : ElfInfo} (hparse : parseElf data = .ok info) (P : ElfInfo → Prop) :
    (∀ data' info', (.ok data : Except ℤ (List UInt8)) = .ok data' → parseElf data' = .ok info' → P info') ↔ P info := by
  constructor
  · intro h
    exact h data info rfl hparse
  · intro h data' info' hdata' hparse'
    cases hdata'
    cases hparse.symm.trans hparse'
    exact h

theorem fine_giveBack (h : allocOrder elfBufOrder s.kernel.frames = some (buf, fr)) {e : ℤ} (he : e < 0) :
    Fine s load path argv envp (some (s.giveBack fr buf, .errno e)) := by
  obtain ⟨haligned, hfree, hal, -⟩ := allocOrder_block (by decide) h
  obtain ⟨hfreed, -⟩ := freeBlock_spec (by decide) haligned fun g hg => by rw [hal g, hg]; rfl
  refine ⟨he, freeBlock elfBufOrder fr buf, rfl, ?_⟩
  funext g
  rw [hfreed g, hal g]
  cases hin : inBlock elfBufOrder buf g with
  | false => rw [Bool.false_or, Bool.not_false, Bool.and_true]
  | true => rw [hfree g hin, Bool.not_true, Bool.and_false]

/-- what `sys_execve` has copied fits the stack -/
theorem setupStack_fits (h : ¬ (maxArgv < argv.length ∨ maxEnvp < envp.length)) :
    (setupStack (argv.map Arg.bytes) (envp.map Arg.bytes)).isSome = true := by
  obtain ⟨hargc, henvc⟩ := not_or.1 h
  obtain ⟨mem, rsp, hstack, -⟩ := @setupStack_decodes (argv.map Arg.bytes) (envp.map Arg.bytes) (fun b hb => by
    rw [← map_append] at hb
    obtain ⟨x, -, rfl⟩ := mem_map.1 hb
    exact ⟨x.noNul, x.short⟩) (by rw [length_map]; exact not_lt.1 hargc) (by rw [length_map]; exact not_lt.1 henvc)
  rw [hstack]
  rfl

/-- **Errors of execve.** The call enters the new image or leaves everything as it was, with an errno, exactly when
`ExecRoom`: it has the frames and the PCID of every step it gets to. -/
theorem doExecve_fine_iff (hlive : Live s) : Fine s load path argv envp (doExecve s load path argv envp) ↔
    ExecRoom s load path argv envp := by
  rw [doExecve, ExecRoom]
  by_cases hbig : maxArgv < argv.length ∨ maxEnvp < envp.length
  · rw [if_pos hbig]
    exact iff_of_true ⟨by decide, s.kernel.frames, rfl, rfl⟩ (.inl hbig)
  rw [if_neg hbig, or_iff_right hbig]
  cases hbuf : allocOrder elfBufOrder s.kernel.frames with
  | none => exact iff_of_false id (by nofun)
  | some x =>
    obtain ⟨buf, fr⟩ := x
    have hroom : (∃ b f, some (buf, fr) = some (b, f) ∧ ∀ data info, load path = .ok data → parseElf data = .ok info →
      ImageRoom s f b info) ↔
        ∀ data info, load path = .ok data → parseElf data = .ok info → ImageRoom s fr buf info := by simp
    rw [hroom]
    cases hload : load path with
    | error r =>
      refine iff_of_true (fine_giveBack hbuf ?_) nofun
      split <;> decide
    | ok data =>
      by_cases hdata : data.length = 0
      · obtain rfl := length_eq_zero_iff.1 hdata
        refine iff_of_true (fine_giveBack hbuf (by decide)) fun _ info h hparse => ?_
        cases h
        cases hparse
      simp only [if_neg hdata]
      cases hparse : parseElf data with
      | error e =>
        refine iff_of_true (fine_giveBack hbuf (by decide)) fun _ info h hparse' => ?_
        cases h
        cases hparse.symm.trans hparse'
      | ok info =>
        obtain ⟨⟨mem, rsp⟩, hstack⟩ := isSome_iff_exists.1 (setupStack_fits hbig)
        rw [forall_file_iff hparse, ← replaceImage_room hlive fr buf data info (stackPages mem) rsp, hstack]
        simp only [bind_some]
        cases hreplace : s.replaceImage fr buf (elfImage data info (stackPages mem)) info.entry rsp with
        | none => exact iff_of_false id (by nofun)
        | some s' =>
          obtain ⟨hproc, hshows⟩ := replaceImage_spec hlive hreplace
          exact iff_of_true ⟨data, info, mem, rsp, hload, hparse, hstack, hproc, hshows⟩ rfl

theorem take_answers {n : ℕ} {fr' : Frames} (h : Slot.take allocFrame n fr = some fr') : n ≤ fr.answers.length := by
  induction n generalizing fr with
  | zero => exact Nat.zero_le _
  | succ n ih =>
    obtain ⟨⟨f, fr₁⟩, hf, h⟩ := bind_eq_some_iff.1 h
    rw [(allocFrame_spec hf).2.2.2.2]
    exact Nat.succ_le_succ (ih h)

theorem length_imagePages (info : ElfInfo) : (info.segments.map LoadSegment.pageCount).sum ≤ (imagePages info).length := by
  simp only [imagePages, length_append, length_flatMap, length_map, length_range]
  rw [Nat.add_assoc]
  exact Nat.le_add_right _ _

/-- **A shortage.** A file whose segments have more pages than there are frames panics the kernel. -/
theorem doExecve_shortage (hlive : Live s) (hargs : ¬ (maxArgv < argv.length ∨ maxEnvp < envp.length))
    (hbuf : allocOrder elfBufOrder s.kernel.frames = some (buf, fr)) {data : List UInt8} {info : ElfInfo}
    (hload : load path = .ok data) (hparse : parseElf data = .ok info)
    (hfew : fr.answers.length < (info.segments.map LoadSegment.pageCount).sum) :
    doExecve s load path argv envp = none := by
  have hdata : data.length ≠ 0 := by
    intro h0
    obtain rfl := length_eq_zero_iff.1 h0
    cases hparse
  obtain ⟨⟨mem, rsp⟩, hstack⟩ := isSome_iff_exists.1 (setupStack_fits hargs)
  have hroom : ¬ ImageRoom s fr buf info := by
    intro h
    obtain ⟨-, fr', htake, -⟩ := h
    have hle := take_answers htake
    have hpages := length_imagePages info
    rw [imageFrames] at hle
    omega
  rw [← replaceImage_room hlive fr buf data info (stackPages mem) rsp, not_isSome_iff_eq_none] at hroom
  simp only [doExecve, if_neg hargs, hbuf, bind_some, hload, if_neg hdata, hparse, hstack, hroom, map_none]

end Calls

/-! ## Calls -/

/-- one process on a machine with 456 free frames, 256 of them in a block -/
def smallMachine : System where
  kernel := {
    Kernel.new (256 :: framesFrom 600 1 200) emptyFiles with
    frames := { Frames.new (256 :: framesFrom 600 1 200) with allocated := fun f => f = 1 || f = 2 }
    spaces := [some { emptySpace 1 (List.replicate maxVmas none) mmapBase with ownFrame := some 2 }] }
  pcids := ⟨true, fun _ => false, fun _ => 0⟩
  proc := ⟨0, 0, 0, 0, 0, fun _ => none, Signal.SigTable.new, none, 0⟩

theorem live_smallMachine : Live smallMachine := ⟨_, rfl, rfl⟩

/-- the image of two segments is entered at its entry point -/
theorem two_pages_entered :
    Live smallMachine ∧ ∃ s', doExecve smallMachine (fun _ => .ok twoPages) [47] [] [] = some (s', .entered) ∧
    s'.proc.userRip = 0x4000b0 := by
  have hbuild : (allocOrder elfBufOrder smallMachine.kernel.frames).any (fun r => (parseElf twoPages).toOption.any
    fun info =>
      (smallMachine.replaceImage r.2 r.1 (elfImage twoPages info fun _ => zeroPage) info.entry 0).isSome) = true := by
        decide +kernel
  obtain ⟨⟨buf, fr⟩, hbuf, hbuild⟩ := exists_of_any hbuild
  obtain ⟨info, hparse, hbuild⟩ := exists_of_any hbuild
  have hroom : ExecRoom smallMachine (fun _ => .ok twoPages) [47] [] [] :=
    .inr ⟨buf, fr, hbuf, (forall_file_iff (ok_of_toOption hparse) _).2
      ((replaceImage_room live_smallMachine _ _ _ _ _ _).1 hbuild)⟩
  have hiff := @doExecve_fine_iff smallMachine (fun _ => .ok twoPages) [47] [] [] live_smallMachine
  have hrun : (doExecve smallMachine (fun _ => .ok twoPages) [47] [] []).any (fun r => r.2 == .entered) = true := by
    decide +kernel
  obtain ⟨⟨s', reply⟩, hrun, hreply⟩ := exists_of_any hrun
  obtain rfl : reply = .entered := beq_iff_eq.1 hreply
  rw [hrun] at hiff
  obtain ⟨data, info', mem, rsp, hload, hparse', -, hproc, -⟩ := hiff.2 hroom
  cases hload
  refine ⟨live_smallMachine, s', hrun, ?_⟩
  rw [hproc]
  exact (parseElf_entry hparse').trans (by decide +kernel)

/-- 120 bytes: a header and one PT_LOAD header with a `p_memsz` of one terabyte -/
def hugeElf : List UInt8 := elfFile 0x400000 [⟨1, 5, 120, 0x400000, 0, 2 ^ 40, 4096⟩] []

/-- the header passes every check, and there are not enough frames -/
theorem large_image_panics :
    Live smallMachine ∧ hugeElf.length = 120 ∧ (parseElf hugeElf).toOption.isSome = true ∧
      doExecve smallMachine (fun _ => .ok hugeElf) [47] [] [] = none ∧
      ¬ Fine smallMachine (fun _ => .ok hugeElf) [47] [] [] (doExecve smallMachine (fun _ => .ok hugeElf) [47] [] []) := by
  have hinfo : (parseElf hugeElf).toOption.any (fun info => (info.segments.map LoadSegment.pageCount).sum == 2 ^ 28) =
    true := by decide +kernel
  have hframes : (allocOrder elfBufOrder smallMachine.kernel.frames).any (fun r => r.2.answers.length == 200) = true := by
    decide +kernel
  obtain ⟨info, hparse, hpages⟩ := exists_of_any hinfo
  obtain ⟨⟨buf, fr⟩, hbuf, hfew⟩ := exists_of_any hframes
  have hpanic : doExecve smallMachine (fun _ => .ok hugeElf) [47] [] [] = none := by
    apply doExecve_shortage live_smallMachine (by decide) hbuf rfl (ok_of_toOption hparse)
    rw [beq_iff_eq.1 hpages, beq_iff_eq.1 hfew]
    decide
  refine ⟨live_smallMachine, by decide +kernel, by rw [hparse]; rfl, hpanic, ?_⟩
  rw [hpanic]
  exact id

end Rumicos.Proc.Execve
