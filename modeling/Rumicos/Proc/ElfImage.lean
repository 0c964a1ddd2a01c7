/-
The address space that is built from an executable (`map_segment`, `map_user_stack`, `map_sigreturn_trampoline`).

The loader maps the pages of each PT_LOAD segment in file order, then the stack, then the trampoline, and `map_page`
overwrites what is mapped already. So a page holds what the last mapping of it put there (`lastAt`): its bytes and its
permissions.

- `Faithful`: every byte of every range, the union of the permissions on every page, the stack and the trampoline.
- `HeadersAgree`: a condition on the program headers. Of those whose rounded range has a page, the last one has the byte of
  every range there and the union of the permissions.
-/
import Rumicos.Proc.Conservation
import Rumicos.Proc.Elf

namespace Rumicos.Proc

open Paging Memory Lib Fs Function List Option

/-! ## The last mapping of a page -/

/-- the last page of the list that goes to `p` -/
def lastAt (xs : List Placed) (p : UPage) : Option Placed := xs.reverse.find? fun x => x.page = p

theorem lastAt_append (xs ys : List Placed) (p : UPage) : lastAt (xs ++ ys) p = (lastAt ys p).or (lastAt xs p) := by
  rw [lastAt, reverse_append, find?_append]
  rfl

theorem lastAt_singleton (x : Placed) (p : UPage) : lastAt [x] p = if x.page = p then some x else none := by
  by_cases h : x.page = p <;> simp [lastAt]

variable {xs : List Placed} {x : Placed} {k k' : Kernel} {c i j : ℕ} {data : List UInt8} {info : ElfInfo}

theorem lastAt_eq_none {p : UPage} (h : ∀ x ∈ xs, x.page ≠ p) : lastAt xs p = none :=
  find?_eq_none.2 fun x hx hp => h x (mem_reverse.1 hx) (of_decide_eq_true hp)

theorem mem_of_lastAt {p : UPage} (h : lastAt xs p = some x) : x ∈ xs ∧ x.page = p :=
  ⟨mem_reverse.1 (mem_of_find?_eq_some h), by simpa using find?_some h⟩

theorem lastAt_of_nodup (h : (xs.map Placed.page).Nodup) (hx : x ∈ xs) : lastAt xs x.page = some x := by
  cases hl : lastAt xs x.page with
  | none =>
    rw [lastAt, find?_eq_none] at hl
    exact absurd (decide_eq_true rfl) (hl x (mem_reverse.2 hx))
  | some y =>
    obtain ⟨hy, hpage⟩ := mem_of_lastAt hl
    rw [inj_on_of_nodup_map h hy hx hpage]

/-! ## What loading leaves behind -/

/-- every page of the address space `c` is that of its last mapping -/
def Contents (xs : List Placed) (k : Kernel) (c : ℕ) : Prop :=
  ∃ s, k.space c = some s ∧ ∀ p,
    (lastAt xs p = none → s.leaf p = none) ∧
    ∀ x, lastAt xs p = some x → ∃ l, s.leaf p = some l ∧ l.entry = .newPage l.frame (protToPageFlags x.prot) ∧
      k.mem l.frame = x.bytes ∧ k.frames.allocated l.frame = true

theorem contents_place (h : Contents xs k c) (hx : place c k x = some k') : Contents (xs ++ [x]) k' c := by
  obtain ⟨s, hs, hpages⟩ := h
  obtain ⟨f, frames, hf, hm⟩ := mapFresh_inv hx
  obtain ⟨hfree, hal, -⟩ := allocFrame_spec hf
  have hed := mapPage_edited hm
  obtain ⟨fs, hmapped⟩ := mapPage_mapped (k := { k with frames := frames, mem := update k.mem f x.bytes }) hs hm
  obtain ⟨s0, s', hs0, hs', hse⟩ := hed.space
  obtain rfl : s = s0 := some.inj (hs.symm.trans hs0)
  obtain ⟨l, hl, hlf, -, -, hentry⟩ := leafOf_newPage f (protToPageFlags_present x.prot)
  -- a frame that was in use is not the fresh one, and stays in use
  have hkeep : ∀ g, k.frames.allocated g = true → k'.mem g = k.mem g ∧ k'.frames.allocated g = true := by
    intro g hg
    have hne : g ≠ f := fun he => absurd (he ▸ hg) (by simp [hfree])
    refine ⟨?_, ?_⟩
    · rw [hed.mem]
      exact update_of_ne hne _ _
    · rw [hmapped.allocated]
      rw [hal, update_of_ne hne, hg, Bool.true_or]
  refine ⟨s', hs', fun p => ?_⟩
  rw [lastAt_append, lastAt_singleton, hse.leaf]
  by_cases hp : x.page = p
  · rw [if_pos hp, if_pos hp.symm, hl]
    refine ⟨nofun, fun y hy => ?_⟩
    cases hy
    refine ⟨l, rfl, hlf ▸ hentry, ?_, ?_⟩
    · rw [hed.mem, hlf]
      exact update_self _ _ _
    · rw [hmapped.allocated, hlf]
      rw [hal, update_self, Bool.true_or]
  · rw [if_neg hp, if_neg (Ne.symm hp)]
    refine ⟨(hpages p).1, fun y hy => ?_⟩
    obtain ⟨m, hm, hme, hmem, hma⟩ := (hpages p).2 y hy
    obtain ⟨hmem', hma'⟩ := hkeep m.frame hma
    exact ⟨m, hm, hme, hmem'.trans hmem, hma'⟩

theorem contents_layout {f : Pfn} {frames : Frames}
    (h : xs.foldlM (place k.spaces.length) (addSpace k frames (emptySpace f (List.replicate maxVmas none) mmapBase)) =
    some k') :
    Contents xs k' k.spaces.length := by
  have hend := foldlM_inv (fun rem j => ∃ ys, ys ++ rem = xs ∧ Contents ys j k.spaces.length) (fun x rem j j' hI hx =>
    ?_) ⟨[], rfl, ?_⟩ h
  · obtain ⟨ys, hys, hcont⟩ := hend
    rw [append_nil] at hys
    rwa [hys] at hcont
  · obtain ⟨ys, hys, hcont⟩ := hI
    exact ⟨ys ++ [x], by rw [append_assoc]; exact hys, contents_place hcont hx⟩
  · exact ⟨_, space_addSpace_self k frames _, fun p => ⟨fun _ => leaf_emptySpace _ _ _ p, nofun⟩⟩

/-- **Loading.** The new address space holds the pages of the layout, the last mapping of each. -/
theorem contents_loadImage {img : Image} (h : loadImage k img = some (k', c)) : Contents img.layout k' c := by
  obtain ⟨f, frames, k2, hf, rfl, hfold, hsh⟩ := loadImage_inv h
  obtain ⟨s, hs, hpages⟩ := contents_layout hfold
  obtain ⟨s0, g, frames', hs0, hg, rfl⟩ := allocShared_spec hsh
  obtain rfl : s = s0 := some.inj (hs.symm.trans hs0)
  refine ⟨{ s with ownFrame := some g }, space_setSpace_self (k := { k2 with frames := frames' }) hs _,
    fun p => ⟨(hpages p).1, ?_⟩⟩
  intro x hx
  obtain ⟨l, hl, hle, hmem, hla⟩ := (hpages p).2 x hx
  refine ⟨l, hl, hle, hmem, ?_⟩
  change frames'.allocated l.frame = true
  rw [(allocFrame_spec hg).2.1]
  by_cases hgl : l.frame = g
  · rw [hgl, update_self]
  · rw [update_of_ne hgl, hla]

/-! ## What a program sees -/

/-- the byte at an address -/
def Kernel.byteAt (k : Kernel) (c addr : ℕ) : Option UInt8 :=
  (k.space c).bind fun s => (s.leaf (pageOf addr)).map fun l => k.mem l.frame (addr % pageSize)

def protOf (e : PageTableEntry) : Prot := ⟨e.isWritable, !e.flags.has bitNoExecute⟩

/-- the permissions of a page -/
def Kernel.protAt (k : Kernel) (c : ℕ) (p : UPage) : Option Prot := (k.space c).bind fun s => (s.leaf p).map fun l =>
  protOf l.entry

theorem protOf_newPage (f : Pfn) (prot : Prot) : protOf (.newPage f (protToPageFlags prot)) = prot := by
  unfold protOf
  rw [PageTableEntry.isWritable_newPage, PageTableEntry.flags_newPage]
  obtain ⟨w, x⟩ := prot
  cases w <;> cases x <;> rfl

section Seen

variable (h : Contents xs k c)

include h

theorem Contents.byteAt (addr : ℕ) : k.byteAt c addr = (lastAt xs (pageOf addr)).map fun x =>
    x.bytes (addr % pageSize) := by
  obtain ⟨s, hs, hpages⟩ := h
  rw [Kernel.byteAt, hs, bind_some]
  cases hx : lastAt xs (pageOf addr) with
  | none => rw [(hpages _).1 hx, map_none, map_none]
  | some x =>
    obtain ⟨l, hl, -, hmem, -⟩ := (hpages _).2 x hx
    rw [hl, map_some, map_some, hmem]

theorem Contents.protAt (p : UPage) : k.protAt c p = (lastAt xs p).map Placed.prot := by
  obtain ⟨s, hs, hpages⟩ := h
  rw [Kernel.protAt, hs, bind_some]
  cases hx : lastAt xs p with
  | none => rw [(hpages _).1 hx, map_none, map_none]
  | some x =>
    obtain ⟨l, hl, hentry, -⟩ := (hpages _).2 x hx
    rw [hl, map_some, map_some, hentry, protOf_newPage]

end Seen

/-! ## The executable's own account -/

/-- the image of an accepted file; `stack` is what `setup_stack` writes -/
def elfImage (data : List UInt8) (info : ElfInfo) (stack : ℕ → Page) : Image :=
  ⟨info.segments, fun i => data.getD i 0, stack⟩

/-- byte `i` of a PT_LOAD range -/
def Elf64Phdr.byte (data : List UInt8) (ph : Elf64Phdr) (i : ℕ) : UInt8 :=
  if i < ph.filesz then data.getD (ph.offset + i) 0 else 0

/-- the range has a byte on the page -/
def Elf64Phdr.touches (ph : Elf64Phdr) (p : UPage) : Bool :=
  decide (0 < ph.memsz ∧ ph.vaddr < pageAddr p + pageSize ∧ pageAddr p < ph.vaddr + ph.memsz)

/-- the union of the permissions of the segments that touch a page -/
def unionProt (data : List UInt8) (p : UPage) : Prot :=
  ⟨(loads data).any fun ph => ph.touches p && ph.prot.write, (loads data).any fun ph => ph.touches p && ph.prot.exec⟩

def ustackPage (j : ℕ) : UPage := pageOf (ustackTop - ustackPages * pageSize + j * pageSize)

/-- **The property.** Every byte of every range, every page's permissions, the stack and the trampoline. -/
structure Faithful (data : List UInt8) (stack : ℕ → Page) (k : Kernel) (c : ℕ) : Prop where
  bytes : ∀ ph ∈ loads data, ∀ i < ph.memsz, k.byteAt c (ph.vaddr + i) = some (ph.byte data i)
  prots : ∀ ph ∈ loads data, ∀ p, ph.touches p = true → k.protAt c p = some (unionProt data p)
  stack : ∀ j < ustackPages, ∀ i < pageSize, k.byteAt c (ustackTop - ustackPages * pageSize + j * pageSize + i) =
    some (stack j i) ∧
    k.protAt c (ustackPage j) = some ⟨true, false⟩
  trampoline : ∀ i < pageSize, k.byteAt c (sigreturnTrampolineVa + i) = some (sigreturnTrampolineCode.getD i 0) ∧
    k.protAt c (pageOf sigreturnTrampolineVa) = some ⟨false, true⟩

/-- the rounded range has the page -/
def Elf64Phdr.covers (ph : Elf64Phdr) (p : UPage) : Bool :=
  decide (ph.vaddr / pageSize * pageSize ≤ pageAddr p ∧ pageAddr p < ph.vaddr + ph.memsz)

/-- what the file has for an address of the rounded range -/
def Elf64Phdr.byteAt (data : List UInt8) (ph : Elf64Phdr) (addr : ℕ) : UInt8 :=
  if addr < ph.vaddr + ph.filesz then data.getD (ph.offset + addr - ph.vaddr) 0 else 0

/-- the last of the program headers whose rounded range has the page -/
def lastCover (phs : List Elf64Phdr) (p : UPage) : Option Elf64Phdr := phs.reverse.find? fun ph => ph.covers p

/-- **The condition**, on the program headers: on the page of a byte of a range, the last header that covers the page has
that byte and the union of the permissions -/
def HeadersAgree (data : List UInt8) : Prop :=
  ∀ ph ∈ loads data, ∀ i < ph.memsz, ∀ q ∈ lastCover (loads data) (pageOf (ph.vaddr + i)),
    q.byteAt data (ph.vaddr + i) = ph.byte data i ∧ q.prot = unionProt data (pageOf (ph.vaddr + i))

instance (data : List UInt8) : Decidable (HeadersAgree data) := by unfold HeadersAgree; infer_instance

/-- no range reaches into the pages of the stack or the trampoline -/
def Apart (data : List UInt8) : Prop :=
  ∀ ph ∈ loads data,
    (ph.vaddr + ph.memsz ≤ sigreturnTrampolineVa ∨ sigreturnTrampolineVa + pageSize ≤ ph.vaddr) ∧
    (ph.vaddr + ph.memsz ≤ ustackTop - ustackPages * pageSize ∨ ustackTop ≤ ph.vaddr)

instance (data : List UInt8) : Decidable (Apart data) := by unfold Apart; infer_instance

/-! ## Pages -/

theorem pageOf_inj {a b : ℕ} (ha : a < userTop) (hb : b < userTop) (h : pageOf a = pageOf b) :
    a / pageSize = b / pageSize := by
  have haddr := congrArg pageAddr h
  rw [pageAddr_pageOf ha, pageAddr_pageOf hb] at haddr
  exact Nat.eq_of_mul_eq_mul_right (by decide) haddr

/-- an address of the page that starts at `base` -/
theorem pageOf_add {base : ℕ} (hbase : base % pageSize = 0) (hi : i < pageSize) :
    pageOf (base + i) = pageOf base ∧ (base + i) % pageSize = i := by
  have hdiv : (base + i) / pageSize * pageSize = base := by
    simp only [pageSize] at *
    omega
  refine ⟨?_, ?_⟩
  · rw [← pageOf_align (base + i), hdiv]
  · simp only [pageSize] at *
    omega

theorem ustack_addr (hj : j < ustackPages) :
    (ustackTop - ustackPages * pageSize + j * pageSize) % pageSize = 0 ∧
    ustackTop - ustackPages * pageSize + j * pageSize < userTop ∧
      (ustackTop - ustackPages * pageSize + j * pageSize) / pageSize = 34359738288 + j := by
  simp only [ustackTop, ustackPages, pageSize, userTop] at *
  omega

/-! ## The stack and the trampoline

They are mapped last, and apart from each other, so nothing in the file changes them. -/

def stackPlaced (stack : ℕ → Page) (j : ℕ) : Placed := ⟨ustackPage j, stack j, ⟨true, false⟩, .stack⟩

def trampolinePlaced : Placed := ⟨pageOf sigreturnTrampolineVa, fun i => sigreturnTrampolineCode.getD i 0,
  ⟨false, true⟩, .trampoline⟩

theorem layout_eq (img : Image) :
    img.layout = img.segments.flatMap (fun seg => seg.layout img.elfData) ++ (List.range ustackPages).map
    (stackPlaced img.stack) ++
      [trampolinePlaced] := rfl

theorem ustackPage_inj (hi : i < ustackPages) (hj : j < ustackPages) (h : ustackPage i = ustackPage j) : i = j := by
  obtain ⟨-, hlti, hdivi⟩ := ustack_addr hi
  obtain ⟨-, hltj, hdivj⟩ := ustack_addr hj
  have hdiv := pageOf_inj hlti hltj h
  rw [hdivi, hdivj] at hdiv
  exact Nat.add_left_cancel hdiv

theorem ustackPage_ne_trampoline (hj : j < ustackPages) : pageOf sigreturnTrampolineVa ≠ ustackPage j := by
  intro h
  obtain ⟨-, hlt, hdiv⟩ := ustack_addr hj
  have heq := pageOf_inj (by decide) hlt h
  rw [hdiv] at heq
  simp only [sigreturnTrampolineVa, pageSize] at heq
  omega

theorem lastAt_stack (img : Image) (hj : j < ustackPages) :
    lastAt img.layout (ustackPage j) = some (stackPlaced img.stack j) := by
  have hnodup : (((List.range ustackPages).map (stackPlaced img.stack)).map Placed.page).Nodup := by
    rw [List.map_map]
    refine Nodup.map_on ?_ nodup_range
    intro a ha b hb hab
    exact ustackPage_inj (mem_range.1 ha) (mem_range.1 hb) hab
  have hmem : stackPlaced img.stack j ∈ (List.range ustackPages).map (stackPlaced img.stack) :=
    mem_map.2 ⟨j, mem_range.2 hj, rfl⟩
  have hlast : lastAt ((List.range ustackPages).map (stackPlaced img.stack)) (ustackPage j) =
    some (stackPlaced img.stack j) :=
    lastAt_of_nodup hnodup hmem
  rw [layout_eq, lastAt_append, lastAt_append, lastAt_singleton, hlast]
  have hne : trampolinePlaced.page ≠ ustackPage j := ustackPage_ne_trampoline hj
  rw [if_neg hne]
  rfl

theorem lastAt_trampoline (img : Image) : lastAt img.layout (pageOf sigreturnTrampolineVa) = some trampolinePlaced := by
  have hpage : trampolinePlaced.page = pageOf sigreturnTrampolineVa := rfl
  rw [layout_eq, lastAt_append]
  rfl

theorem Contents.stack {img : Image} (h : Contents img.layout k c) (hj : j < ustackPages) (hi : i < pageSize) :
    k.byteAt c (ustackTop - ustackPages * pageSize + j * pageSize + i) = some (img.stack j i) ∧
      k.protAt c (ustackPage j) = some ⟨true, false⟩ := by
  obtain ⟨hpage, hoff⟩ := pageOf_add (ustack_addr hj).1 hi
  have hlast := lastAt_stack img hj
  rw [h.byteAt, h.protAt, hpage, hoff, hlast]
  rw [ustackPage] at hlast
  rw [hlast]
  exact ⟨rfl, rfl⟩

/-! ## The segments -/

section Segments

variable {ph : Elf64Phdr} {seg : LoadSegment}

/-- the page as the segment of `ph` fills it -/
def Elf64Phdr.placed (data : List UInt8) (ph : Elf64Phdr) (p : UPage) : Placed :=
  ⟨p, fun i => if i < pageSize then ph.byteAt data (pageAddr p + i) else 0, ph.prot, .image ph.prot⟩

theorem nodup_layout (seg : LoadSegment) (elfData : ℕ → UInt8) : ((seg.layout elfData).map Placed.page).Nodup := by
  rw [LoadSegment.layout, List.map_map]
  refine Nodup.map_on (fun a ha b hb hab => ?_) nodup_range
  have hua := LoadSegment.page_user (mem_range.1 ha)
  have hub := LoadSegment.page_user (mem_range.1 hb)
  have hdiv := pageOf_inj (by simp only [pageSize] at *; omega) (by simp only [pageSize] at *; omega) hab
  have hmod := seg.aligned
  simp only [pageSize] at *
  omega

/-- page `j` of the segment is `p` -/
theorem pageOf_segment {j : ℕ} (hj : j < seg.pageCount) (p : UPage) :
    pageOf (seg.vaddr + j * pageSize) = p ↔ pageAddr p = seg.vaddr + j * pageSize := by
  have huser := LoadSegment.page_user hj
  constructor
  · rintro rfl
    rw [pageAddr_pageOf (by simp only [pageSize] at *; omega)]
    have hmod := seg.aligned
    simp only [pageSize] at *
    omega
  · intro h
    rw [← h, pageOf_pageAddr]

/-- **One segment** maps the pages of its rounded range, with the bytes that the file has for them. -/
theorem lastAt_segment (h : loadSegment data.length ph = .ok seg) (p : UPage) :
    lastAt (seg.layout fun i => data.getD i 0) p = if ph.covers p then some (ph.placed data p) else none := by
  obtain ⟨hvaddr, hfilesz, hmemsz, hoff, hprot, -⟩ := loadSegment_spec h
  have hal := seg.aligned
  have hpal := pageAddr_aligned p
  have hpage : ph.pageOffset = ph.vaddr % pageSize := rfl
  have hcount : ∀ j, j < seg.pageCount ↔ j * pageSize < seg.memsz := by
    intro j
    unfold LoadSegment.pageCount
    simp only [pageSize]
    omega
  split_ifs with hcov
  · obtain ⟨hlo, hhi⟩ := of_decide_eq_true hcov
    obtain ⟨j, hj⟩ : ∃ j, pageAddr p = seg.vaddr + j * pageSize :=
      ⟨(pageAddr p - seg.vaddr) / pageSize, by simp only [pageSize] at *; omega⟩
    have hjc : j < seg.pageCount := (hcount j).2 (by omega)
    have hx : ∃ x ∈ seg.layout fun i => data.getD i 0, x = ph.placed data p := by
      refine ⟨_, mem_map.2 ⟨j, mem_range.2 hjc, rfl⟩, ?_⟩
      rw [(pageOf_segment hjc p).2 hj, hprot, Elf64Phdr.placed]
      congr 1
      funext i
      rw [LoadSegment.page, Elf64Phdr.byteAt, ite_and]
      refine if_congr Iff.rfl (if_congr (by omega) ?_ rfl) rfl
      congr 1
      omega
    obtain ⟨x, hmem, rfl⟩ := hx
    exact lastAt_of_nodup (nodup_layout seg _) hmem
  · refine lastAt_eq_none fun x hx hp => hcov (decide_eq_true ?_)
    obtain ⟨j, hj, rfl⟩ := mem_map.1 hx
    have hjc := mem_range.1 hj
    have hat := (pageOf_segment hjc p).1 hp
    have hlt := (hcount j).1 hjc
    simp only [pageSize] at *
    omega

/-- **All segments**: the last header that covers the page decides. -/
theorem lastAt_segments {phs : List Elf64Phdr} {segs : List LoadSegment}
    (h : List.Forall₂ (fun ph seg => loadSegment data.length ph = .ok seg) phs segs) (p : UPage) :
    lastAt (segs.flatMap fun seg => seg.layout fun i => data.getD i 0) p = (lastCover phs p).map fun q =>
    q.placed data p := by
  induction h with
  | nil => rfl
  | @cons ph seg phs segs hseg _ ih =>
    rw [flatMap_cons, lastAt_append, ih, lastAt_segment hseg, lastCover, lastCover, reverse_cons, find?_append]
    cases phs.reverse.find? fun ph => ph.covers p with
    | some q => rfl
    | none => by_cases hcov : ph.covers p <;> simp [hcov]

theorem touches_byte {p : UPage} (h : ph.touches p = true) : ∃ i < ph.memsz, pageOf (ph.vaddr + i) = p := by
  obtain ⟨hpos, hlow, hhigh⟩ := of_decide_eq_true h
  -- the first address of the range on the page
  refine ⟨pageAddr p - ph.vaddr, by omega, ?_⟩
  by_cases hle : ph.vaddr ≤ pageAddr p
  · rw [Nat.add_sub_cancel' hle, pageOf_pageAddr]
  · have haddr : ph.vaddr + (pageAddr p - ph.vaddr) = pageAddr p + (ph.vaddr - pageAddr p) := by omega
    rw [haddr, (pageOf_add (pageAddr_aligned p) (by omega)).1, pageOf_pageAddr]

variable (hparse : parseElf data = .ok info) (hapart : Apart data) (hph : ph ∈ loads data) (hi : i < ph.memsz)

include hparse hph hi

/-- a byte of a range is a user address, on a page that its own header covers and touches -/
theorem byte_covered : ph.vaddr + i < userTop ∧ ph.covers (pageOf (ph.vaddr + i)) = true ∧
    ph.touches (pageOf (ph.vaddr + i)) = true := by
  have hsegs := parseElf_segments hparse
  have hlen := hsegs.length_eq
  obtain ⟨n, hn, hget⟩ := mem_iff_getElem.1 hph
  obtain ⟨-, -, -, -, -, -, -, huser, -⟩ := loadSegment_spec (hsegs.get hn (hlen ▸ hn))
  rw [get_eq_getElem, hget] at huser
  have hlt : ph.vaddr + i < userTop := by omega
  have haddr := pageAddr_pageOf hlt
  refine ⟨hlt, decide_eq_true ?_, decide_eq_true ?_⟩ <;> rw [haddr] <;> simp only [pageSize] <;> omega

include hapart

/-- **The page of a byte** is that of the last header that covers it: the stack and the trampoline are elsewhere. -/
theorem lastAt_byte (stack : ℕ → Page) : ∃ q, lastCover (loads data) (pageOf (ph.vaddr + i)) = some q ∧
    lastAt (elfImage data info stack).layout (pageOf (ph.vaddr + i)) = some (q.placed data (pageOf (ph.vaddr + i))) := by
  obtain ⟨hlt, hcov, -⟩ := byte_covered hparse hph hi
  obtain ⟨htramp, hstack⟩ := hapart ph hph
  obtain ⟨q, hq⟩ : ∃ q, lastCover (loads data) (pageOf (ph.vaddr + i)) = some q := by
    rw [← isSome_iff_exists, lastCover, find?_isSome]
    exact ⟨ph, mem_reverse.2 hph, hcov⟩
  refine ⟨q, hq, ?_⟩
  have hnostack : lastAt ((List.range ustackPages).map (stackPlaced stack)) (pageOf (ph.vaddr + i)) = none := by
    refine lastAt_eq_none fun x hx hp => ?_
    obtain ⟨j, hj, rfl⟩ := mem_map.1 hx
    have hju := mem_range.1 hj
    have hdiv := pageOf_inj (ustack_addr hju).2.1 hlt hp
    rw [(ustack_addr hju).2.2] at hdiv
    simp only [ustackTop, ustackPages, pageSize] at *
    omega
  have hnotramp : lastAt [trampolinePlaced] (pageOf (ph.vaddr + i)) = none := by
    refine lastAt_eq_none fun x hx hp => ?_
    obtain rfl := mem_singleton.1 hx
    have hdiv := pageOf_inj (by decide) hlt hp
    simp only [sigreturnTrampolineVa, pageSize] at *
    omega
  rw [layout_eq, lastAt_append, lastAt_append, hnotramp]
  change none.or ((lastAt ((List.range ustackPages).map (stackPlaced stack)) _).or
    (lastAt (info.segments.flatMap _) _)) = _
  rw [hnostack]
  change none.or (none.or (lastAt (info.segments.flatMap fun seg => seg.layout fun i => data.getD i 0) _)) = _
  rw [lastAt_segments (parseElf_segments hparse), hq]
  rfl

end Segments

/-- a kernel with a hundred free frames -/
def loaderKernel : Kernel := Kernel.new (framesFrom 1 1 100) emptyFiles

/-- parses the file and loads it -/
def loadFile (data : List UInt8) : Option (ElfInfo × Kernel × ℕ) :=
  (parseElf data).toOption.bind fun info => (loadImage loaderKernel (elfImage data info fun _ => zeroPage)).map (info, ·)

theorem loadFile_eq (h : loadFile data = some (info, k, c)) :
    parseElf data = .ok info ∧ loadImage loaderKernel (elfImage data info fun _ => zeroPage) = some (k, c) := by
  obtain ⟨info', hparse, hload⟩ := bind_eq_some_iff.1 h
  obtain ⟨r, hload, hr⟩ := map_eq_some_iff.1 hload
  cases hr
  exact ⟨ok_of_toOption hparse, hload⟩

/-- four bytes of text and four bytes of data, each on a page of its own -/
def twoPages : List UInt8 := elfFile 0x4000b0 [⟨1, 5, 176, 0x4000b0, 4, 4, 4096⟩, ⟨1, 6, 180, 0x4010b4, 4, 16, 4096⟩]
  [1, 2, 3, 4, 5, 6, 7, 8]

/-- text and data are next to each other in the file and in memory -/
def textThenData : List UInt8 := elfFile 0x4000b0 [⟨1, 5, 176, 0x4000b0, 4, 4, 4096⟩, ⟨1, 6, 180, 0x4000b4, 4, 4, 4096⟩]
  [1, 2, 3, 4, 5, 6, 7, 8]

/-- the same two segments, the data first in the table -/
def dataThenText : List UInt8 := elfFile 0x4000b0 [⟨1, 6, 180, 0x4000b4, 4, 4, 4096⟩, ⟨1, 5, 176, 0x4000b0, 4, 4, 4096⟩]
  [1, 2, 3, 4, 5, 6, 7, 8]

end Rumicos.Proc
