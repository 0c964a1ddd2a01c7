/-
The ELF loader's parser (`crates/proc/src/elf.rs`).

A file is a list of bytes. The header is its first 64 bytes, the program headers are 56 bytes each from `e_phoff` on;
fields are little-endian at fixed offsets. Offsets and sizes are 64-bit: a sum that the source checks for overflow is
refused here at 2^64, and a sum or a slice that it does not check is a panic there (`slice`). `parseElf_safe`: no file
makes the parser or `map_segment` panic.
-/
import Rumicos.Lib.Bytes
import Rumicos.Lib.Run
import Rumicos.Proc.AddressSpace

namespace Rumicos.Proc

open Lib Memory List Option

/-! ## Fields -/

/-- `len` bytes at `off`, little-endian -/
def le (data : List UInt8) (off len : ℕ) : ℕ := ((data.drop off).take len).foldr (fun b n => b.toNat + 256 * n) 0

structure Elf64Header where
  ident : List UInt8
  type : ℕ
  machine : ℕ
  entry : ℕ
  phoff : ℕ
  phentsize : ℕ
  phnum : ℕ

structure Elf64Phdr where
  type : ℕ
  flags : ℕ
  offset : ℕ
  vaddr : ℕ
  filesz : ℕ
  memsz : ℕ
  align : ℕ
deriving DecidableEq

inductive ElfError where
  | tooShort
  | badMagic
  | notElf64
  | notLittleEndian
  | notExecutable
  | notX86_64
  | tooManySegments
  | badAlignment
  | segmentInKernelSpace
  | offsetOutOfBounds
deriving DecidableEq

def elf64HeaderSize : ℕ := 64
def elf64PhdrSize : ℕ := 56
def maxLoadSegments : ℕ := 8
def ptLoad : ℕ := 1

/-- how parsing ends without a result: the file is refused, or an index leaves the file or 64 bits and the kernel panics -/
inductive Stop where
  | refused (e : ElfError)
  | panic

/-- `&data[off..off + len]` -/
def slice (data : List UInt8) (off len : ℕ) : Except Stop (List UInt8) :=
  if off + len < 2 ^ 64 ∧ off + len ≤ data.length then .ok ((data.drop off).take len) else .error .panic

def readHeader (data : List UInt8) : Except Stop Elf64Header :=
  if data.length < elf64HeaderSize then .error (.refused .tooShort)
  else (slice data 0 elf64HeaderSize).map fun b =>
    ⟨b.take 16, le b 16 2, le b 18 2, le b 24 8, le b 32 8, le b 54 2, le b 56 2⟩

def readPhdr (data : List UInt8) : Except Stop Elf64Phdr :=
  if data.length < elf64PhdrSize then .error (.refused .offsetOutOfBounds)
  else (slice data 0 elf64PhdrSize).map fun b =>
    ⟨le b 0 4, le b 4 4, le b 8 8, le b 16 8, le b 32 8, le b 40 8, le b 48 8⟩

/-! ## Segments -/

/-- the entry point and the segments -/
structure ElfInfo where
  entry : ℕ
  segments : List LoadSegment

def isPowerOfTwo (n : ℕ) : Bool := n != 0 && n &&& (n - 1) == 0

/-- PF_W and PF_X -/
def Elf64Phdr.prot (ph : Elf64Phdr) : Prot := ⟨ph.flags / 2 % 2 = 1, ph.flags % 2 = 1⟩

/-- `p_vaddr & (PAGE_SIZE - 1)` -/
def Elf64Phdr.pageOffset (ph : Elf64Phdr) : ℕ := ph.vaddr % pageSize

/-- the checks of one PT_LOAD header, and its segment from the start of the page on -/
def loadSegment (len : ℕ) (ph : Elf64Phdr) : Except Stop LoadSegment :=
  if ph.align < pageSize || !isPowerOfTwo ph.align then .error (.refused .badAlignment)
  else if userTop ≤ ph.vaddr then .error (.refused .segmentInKernelSpace)
  else if 2 ^ 64 ≤ ph.vaddr + ph.memsz then .error (.refused .segmentInKernelSpace)
  else if htop : userTop < ph.vaddr + ph.memsz then .error (.refused .segmentInKernelSpace)
  else if ph.memsz < ph.filesz then .error (.refused .offsetOutOfBounds)
  else if 2 ^ 64 ≤ ph.offset + ph.filesz then .error (.refused .offsetOutOfBounds)
  else if len < ph.offset + ph.filesz then .error (.refused .offsetOutOfBounds)
  else if ph.offset < ph.pageOffset then .error (.refused .offsetOutOfBounds)
  else if 2 ^ 64 ≤ ph.filesz + ph.pageOffset ∨ 2 ^ 64 ≤ ph.memsz + ph.pageOffset then .error .panic
  else .ok {
    vaddr := ph.vaddr / pageSize * pageSize
    filesz := ph.filesz + ph.pageOffset
    memsz := ph.memsz + ph.pageOffset
    dataOff := ph.offset - ph.pageOffset
    prot := ph.prot
    aligned := Nat.mul_mod_left _ _
    inUser := by
      have := Nat.div_add_mod' ph.vaddr pageSize
      unfold Elf64Phdr.pageOffset
      omega }

/-- the program header `idx` -/
def readPhdrAt (data : List UInt8) (phoff phentsize idx : ℕ) : Except Stop Elf64Phdr :=
  (slice data (phoff + idx * phentsize) phentsize).bind readPhdr

/-- one iteration of `parse_elf`'s loop -/
def parsePhdr (data : List UInt8) (phoff phentsize : ℕ) (info : ElfInfo) (idx : ℕ) : Except Stop ElfInfo :=
  (readPhdrAt data phoff phentsize idx).bind fun ph =>
    if ph.type ≠ ptLoad then .ok info
    else if info.segments.length = maxLoadSegments then .error (.refused .tooManySegments)
    else (loadSegment data.length ph).map fun seg => { info with segments := info.segments ++ [seg] }

/-- the header and its checks -/
def checkHeader (data : List UInt8) : Except Stop Elf64Header :=
  (readHeader data).bind fun header =>
    if header.ident.take 4 ≠ [0x7f, 0x45, 0x4c, 0x46] then .error (.refused .badMagic)
    else if header.ident.getD 4 0 ≠ 2 then .error (.refused .notElf64)
    else if header.ident.getD 5 0 ≠ 1 then .error (.refused .notLittleEndian)
    else if header.type ≠ 2 then .error (.refused .notExecutable)
    else if header.machine ≠ 62 then .error (.refused .notX86_64)
    else if header.phentsize ≠ elf64PhdrSize then .error (.refused .offsetOutOfBounds)
    else if maxLoadSegments < header.phnum then .error (.refused .tooManySegments)
    else if 2 ^ 64 ≤ header.phoff + header.phnum * header.phentsize then .error (.refused .offsetOutOfBounds)
    else if data.length < header.phoff + header.phnum * header.phentsize then .error (.refused .offsetOutOfBounds)
    else .ok header

def parseElf (data : List UInt8) : Except Stop ElfInfo :=
  (checkHeader data).bind fun header =>
    (List.range header.phnum).foldlM (parsePhdr data header.phoff header.phentsize) ⟨header.entry, []⟩

/-! ## What an accepted file is -/

/-- the program headers of a file -/
def phdrs (data : List UInt8) : List Elf64Phdr :=
  (List.range (le data 56 2)).filterMap fun idx => (readPhdrAt data (le data 32 8) elf64PhdrSize idx).toOption

/-- its PT_LOAD headers -/
def loads (data : List UInt8) : List Elf64Phdr := (phdrs data).filter fun ph => ph.type = ptLoad

variable {ε α : Type} {a : α} {data : List UInt8} {info : ElfInfo} {c : Prop} {seg : LoadSegment}

theorem ok_of_toOption {e : Except ε α} (h : e.toOption = some a) : e = .ok a := by
  cases e with
  | error _ => cases h
  | ok _ =>
    cases h
    rfl

theorem bind_eq_ok {β : Type} {x : Except ε α} {f : α → Except ε β} {b : β} (h : x.bind f = .ok b) :
    ∃ a, x = .ok a ∧ f a = .ok b := by
  cases x with
  | error e => cases h
  | ok a => exact ⟨a, rfl, h⟩

theorem of_guard [Decidable c] {e : ε} {x : Except ε α} (h : (if c then .error e else x) = .ok a) :
    ¬ c ∧ x = .ok a := by
  by_cases hc : c
  · rw [if_pos hc] at h
    cases h
  · rw [if_neg hc] at h
    exact ⟨hc, h⟩

theorem of_guard_dep [Decidable c] {e : ε} {x : ¬ c → Except ε α} (h : (if hc : c then .error e else x hc) = .ok a) :
    ∃ hc : ¬ c, x hc = .ok a := by
  by_cases hc : c
  · rw [dif_pos hc] at h
    cases h
  · rw [dif_neg hc] at h
    exact ⟨hc, h⟩

theorem map_eq_ok {β : Type} {x : Except ε α} {f : α → β} {b : β} (h : x.map f = .ok b) : ∃ a, x = .ok a ∧ f a = b := by
  cases x with
  | error e => cases h
  | ok a => exact ⟨a, rfl, Except.ok.inj h⟩

/-- a field of a slice is that field of the file -/
theorem le_slice {b : List UInt8} {off n i len : ℕ} (h : slice data off n = .ok b) (hi : i + len ≤ n) :
    le b i len = le data (off + i) len := by
  unfold slice at h
  split_ifs at h
  cases h
  rw [le, le, drop_take, take_take, drop_drop, min_eq_left (by omega)]

theorem readHeader_ok {header : Elf64Header} (h : readHeader data = .ok header) :
    header.entry = le data 24 8 ∧ header.phoff = le data 32 8 ∧ header.phnum = le data 56 2 := by
  obtain ⟨-, h⟩ := of_guard h
  obtain ⟨b, hb, rfl⟩ := map_eq_ok h
  exact ⟨(le_slice hb (by decide)).trans (by rw [Nat.zero_add]), (le_slice hb (by decide)).trans (by rw [Nat.zero_add]),
    (le_slice hb (by decide)).trans (by rw [Nat.zero_add])⟩

theorem checkHeader_ok {header : Elf64Header} (h : checkHeader data = .ok header) :
    readHeader data = .ok header ∧ header.phentsize = elf64PhdrSize ∧
      header.phoff + header.phnum * header.phentsize < 2 ^ 64 ∧
      header.phoff + header.phnum * header.phentsize ≤ data.length := by
  obtain ⟨header', hheader, h⟩ := bind_eq_ok h
  obtain ⟨-, h⟩ := of_guard h
  obtain ⟨-, h⟩ := of_guard h
  obtain ⟨-, h⟩ := of_guard h
  obtain ⟨-, h⟩ := of_guard h
  obtain ⟨-, h⟩ := of_guard h
  obtain ⟨hsize, h⟩ := of_guard h
  obtain ⟨-, h⟩ := of_guard h
  obtain ⟨h64, h⟩ := of_guard h
  obtain ⟨hlen, h⟩ := of_guard h
  cases h
  exact ⟨hheader, not_not.1 hsize, not_le.1 h64, not_lt.1 hlen⟩

theorem parseElf_loop (h : parseElf data = .ok info) :
    (List.range (le data 56 2)).foldlM (parsePhdr data (le data 32 8) elf64PhdrSize) ⟨le data 24 8, []⟩ = .ok info := by
  obtain ⟨header, hheader, h⟩ := bind_eq_ok h
  obtain ⟨hread, hsize, -⟩ := checkHeader_ok hheader
  obtain ⟨hentry, hphoff, hphnum⟩ := readHeader_ok hread
  rwa [← hentry, ← hphoff, ← hphnum, ← hsize]

theorem parsePhdr_ok {phoff phentsize idx : ℕ} {info' : ElfInfo}
    (h : parsePhdr data phoff phentsize info idx = .ok info') :
    ∃ ph, readPhdrAt data phoff phentsize idx = .ok ph ∧ info'.entry = info.entry ∧
      ((ph.type ≠ ptLoad ∧ info'.segments = info.segments) ∨
        (ph.type = ptLoad ∧ ∃ seg, loadSegment data.length ph = .ok seg ∧ info'.segments = info.segments ++ [seg])) := by
  obtain ⟨ph, hph, h⟩ := bind_eq_ok h
  refine ⟨ph, hph, ?_⟩
  split_ifs at h with htype hfull
  · cases h
    exact ⟨rfl, .inl ⟨htype, rfl⟩⟩
  · cases hseg : loadSegment data.length ph with
    | error e =>
      rw [hseg] at h
      cases h
    | ok seg =>
      rw [hseg] at h
      cases h
      exact ⟨rfl, .inr ⟨not_not.1 htype, seg, rfl, rfl⟩⟩

theorem parseLoop_ok {phoff phentsize : ℕ} {idxs : List ℕ} {info' : ElfInfo}
    (h : idxs.foldlM (parsePhdr data phoff phentsize) info = .ok info') :
    info'.entry = info.entry ∧ ∃ segs, info'.segments = info.segments ++ segs ∧
      List.Forall₂ (fun ph seg => loadSegment data.length ph = .ok seg)
        ((idxs.filterMap fun idx => (readPhdrAt data phoff phentsize idx).toOption).filter fun ph => ph.type = ptLoad)
        segs := by
  induction idxs generalizing info with
  | nil =>
    cases h
    exact ⟨rfl, [], (append_nil _).symm, .nil⟩
  | cons idx idxs ih =>
    obtain ⟨mid, hmid, h⟩ := bind_eq_ok h
    obtain ⟨ph, hph, hentry, hcase⟩ := parsePhdr_ok hmid
    obtain ⟨hentry', segs, hsegs, hall⟩ := ih h
    have hread : ((idx :: idxs).filterMap fun idx => (readPhdrAt data phoff phentsize idx).toOption) =
        ph :: idxs.filterMap fun idx => (readPhdrAt data phoff phentsize idx).toOption := by
      rw [filterMap_cons, hph]
      rfl
    refine ⟨hentry'.trans hentry, ?_⟩
    rw [hread]
    rcases hcase with ⟨htype, hsame⟩ | ⟨htype, seg, hseg, hadd⟩
    · refine ⟨segs, hsegs.trans (by rw [hsame]), ?_⟩
      rw [filter_cons_of_neg (by simpa using htype)]
      exact hall
    · refine ⟨seg :: segs, hsegs.trans (by rw [hadd, append_assoc]; rfl), ?_⟩
      rw [filter_cons_of_pos (by simpa using htype)]
      exact .cons hseg hall

theorem parseElf_entry (h : parseElf data = .ok info) : info.entry = le data 24 8 :=
  (parseLoop_ok (parseElf_loop h)).1

theorem parseElf_segments (h : parseElf data = .ok info) :
    List.Forall₂ (fun ph seg => loadSegment data.length ph = .ok seg) (loads data) info.segments := by
  obtain ⟨-, segs, hsegs, hall⟩ := parseLoop_ok (parseElf_loop h)
  rw [hsegs]
  exact hall

theorem exists_phdr (h : parseElf data = .ok info) (hseg : seg ∈ info.segments) :
    ∃ ph, loadSegment data.length ph = .ok seg := by
  have hall := parseElf_segments h
  generalize info.segments = segs at hall hseg
  generalize loads data = phs at hall
  induction hall with
  | nil => cases hseg
  | cons hload _ ih =>
    rcases mem_cons.1 hseg with rfl | hseg
    · exact ⟨_, hload⟩
    · exact ih hseg

theorem loadSegment_spec {len : ℕ} {ph : Elf64Phdr} (h : loadSegment len ph = .ok seg) :
    seg.vaddr + ph.pageOffset = ph.vaddr ∧ seg.filesz = ph.filesz + ph.pageOffset ∧ seg.memsz = ph.memsz + ph.pageOffset ∧
      seg.dataOff + ph.pageOffset = ph.offset ∧ seg.prot = ph.prot ∧ ph.filesz ≤ ph.memsz ∧ ph.offset + ph.filesz ≤ len ∧
      ph.vaddr + ph.memsz ≤ userTop ∧ ph.offset + ph.filesz < 2 ^ 64 := by
  obtain ⟨-, h⟩ := of_guard h
  obtain ⟨-, h⟩ := of_guard h
  obtain ⟨-, h⟩ := of_guard h
  obtain ⟨huser, h⟩ := of_guard_dep h
  obtain ⟨hsize, h⟩ := of_guard h
  obtain ⟨h64, h⟩ := of_guard h
  obtain ⟨hlen, h⟩ := of_guard h
  obtain ⟨hoff, h⟩ := of_guard h
  obtain ⟨-, h⟩ := of_guard h
  cases h
  refine ⟨?_, rfl, rfl, ?_, rfl, ?_, ?_, ?_, not_le.1 h64⟩
  · exact Nat.div_add_mod' ph.vaddr pageSize
  · exact Nat.sub_add_cancel (not_lt.1 hoff)
  · exact not_lt.1 hsize
  · exact not_lt.1 hlen
  · exact not_lt.1 huser

/-! ## Files -/

def Elf64Phdr.bytes (ph : Elf64Phdr) : List UInt8 :=
  bytesOf 4 ph.type ++ bytesOf 4 ph.flags ++ bytesOf 8 ph.offset ++ bytesOf 8 ph.vaddr ++ bytesOf 8 0 ++
    bytesOf 8 ph.filesz ++
    bytesOf 8 ph.memsz ++ bytesOf 8 ph.align

/-- a file: the header, the program headers right after it, and `body` -/
def elfFile (entry : ℕ) (phs : List Elf64Phdr) (body : List UInt8) : List UInt8 :=
  [0x7f, 0x45, 0x4c, 0x46, 2, 1, 1] ++ List.replicate 9 0 ++ bytesOf 2 2 ++ bytesOf 2 62 ++ bytesOf 4 1 ++
    bytesOf 8 entry ++ bytesOf 8 64 ++
    bytesOf 8 0 ++ bytesOf 4 0 ++ bytesOf 2 64 ++ bytesOf 2 56 ++ bytesOf 2 phs.length ++ bytesOf 6 0 ++
      phs.flatMap Elf64Phdr.bytes ++ body

/-! ## No panic -/

/-- the computation does not panic -/
def NoPanic (x : Except Stop α) : Prop := x ≠ .error .panic

theorem noPanic_ok (a : α) : NoPanic (.ok a) := by
  intro h
  cases h

theorem noPanic_refused (e : ElfError) : NoPanic (.error (.refused e) : Except Stop α) := by
  intro h
  cases h

theorem noPanic_bind {β : Type} {x : Except Stop α} {f : α → Except Stop β} (hx : NoPanic x)
    (hf : ∀ a, x = .ok a → NoPanic (f a)) : NoPanic (x.bind f) := by
  cases x with
  | error e => exact fun h => hx (congrArg _ (Except.error.inj h))
  | ok a => exact hf a rfl

theorem noPanic_map {β : Type} {x : Except Stop α} (f : α → β) (hx : NoPanic x) : NoPanic (x.map f) := by
  cases x with
  | error e => exact fun h => hx (congrArg _ (Except.error.inj h))
  | ok a => exact noPanic_ok _

theorem noPanic_guard [Decidable c] {e : ElfError} {x : Except Stop α} (hx : ¬ c → NoPanic x) :
    NoPanic (if c then .error (.refused e) else x) := by
  split_ifs with hc
  · exact noPanic_refused _
  · exact hx hc

theorem noPanic_foldlM {σ β : Type} {f : σ → β → Except Stop σ} {l : List β} {s : σ} (hf : ∀ s, ∀ x ∈ l, NoPanic (f s x)) :
    NoPanic (l.foldlM f s) := by
  induction l generalizing s with
  | nil => exact noPanic_ok _
  | cons x l ih =>
    refine noPanic_bind (hf s x mem_cons_self) fun s' _ => ?_
    exact ih fun s y hy => hf s y (mem_cons_of_mem x hy)

theorem slice_inside {off len : ℕ} (h64 : off + len < 2 ^ 64) (hlen : off + len ≤ data.length) :
    slice data off len = .ok ((data.drop off).take len) := if_pos ⟨h64, hlen⟩

theorem noPanic_slice {off len : ℕ} (h64 : off + len < 2 ^ 64) (hlen : off + len ≤ data.length) :
    NoPanic (slice data off len) := by
  rw [slice_inside h64 hlen]
  exact noPanic_ok _

theorem noPanic_checkHeader (data : List UInt8) : NoPanic (checkHeader data) := by
  refine noPanic_bind (noPanic_guard fun h => noPanic_map _ (noPanic_slice (by decide) ?_)) fun header _ => ?_
  · exact (Nat.zero_add _).trans_le (not_lt.1 h)
  · iterate 9 refine noPanic_guard fun _ => ?_
    exact noPanic_ok _

theorem noPanic_loadSegment (len : ℕ) (ph : Elf64Phdr) : NoPanic (loadSegment len ph) := by
  refine noPanic_guard fun _ => noPanic_guard fun _ => noPanic_guard fun _ => ?_
  split_ifs with htop hsize _ _ _ hsum
  iterate 5 exact noPanic_refused _
  · -- the end of the range is a user address, and so are both sums
    have hmod : ph.pageOffset ≤ ph.vaddr := Nat.mod_le _ _
    simp only [userTop] at htop
    omega
  · exact noPanic_ok _

/-- the loop's slice is a program header, which the header's checks placed inside the file -/
theorem noPanic_parsePhdr {header : Elf64Header} {idx : ℕ} (hheader : checkHeader data = .ok header)
    (hidx : idx < header.phnum) (info : ElfInfo) : NoPanic (parsePhdr data header.phoff header.phentsize info idx) := by
  obtain ⟨-, -, h64, hlen⟩ := checkHeader_ok hheader
  have hrow : (idx + 1) * header.phentsize ≤ header.phnum * header.phentsize := Nat.mul_le_mul_right _ hidx
  rw [Nat.succ_mul] at hrow
  refine noPanic_bind (noPanic_bind (noPanic_slice (by omega) (by omega)) fun b _ => ?_) fun ph _ => ?_
  · exact noPanic_guard fun h => noPanic_map _ (noPanic_slice (by decide) ((Nat.zero_add _).trans_le (not_lt.1 h)))
  · split_ifs with htype hfull
    · exact noPanic_ok _
    · exact noPanic_refused _
    · exact noPanic_map _ (noPanic_loadSegment _ _)

theorem noPanic_parseElf (data : List UInt8) : NoPanic (parseElf data) :=
  noPanic_bind (noPanic_checkHeader data) fun _ hheader =>
    noPanic_foldlM fun info _ hidx => noPanic_parsePhdr hheader (mem_range.1 hidx) info

/-! ## The slices of `map_segment` -/

/-- the end of a segment; the sum saturates -/
def LoadSegment.memEnd (seg : LoadSegment) : ℕ := min (seg.vaddr + seg.memsz) (2 ^ 64 - 1)

/-- `align_up` of the end -/
def LoadSegment.mapEnd (seg : LoadSegment) : ℕ := (seg.memEnd + (pageSize - 1)) / pageSize * pageSize

/-- the page for `virt`: zeros, and `copy_len` bytes of the file over them -/
def LoadSegment.fill (seg : LoadSegment) (data : List UInt8) (virt : ℕ) : Except Stop Page :=
  if virt - seg.vaddr < seg.filesz then
    (slice data (seg.dataOff + (virt - seg.vaddr)) (min pageSize (seg.filesz - (virt - seg.vaddr)))).map
      fun bytes i => bytes.getD i 0
  else .ok zeroPage

/-- `while virt < map_end`; `.ok none` when no frame is left -/
def mapSegmentLoop (data : List UInt8) (a : ℕ) (seg : LoadSegment) (k : Kernel) (virt : ℕ) : Except Stop (Option Kernel) :=
  if virt < seg.mapEnd then
    (seg.fill data virt).bind fun page =>
      match mapFresh k a (pageOf virt) page (protToPageFlags seg.prot) (.image seg.prot) with
      | none => .ok none
      | some k' => if 2 ^ 64 ≤ virt + pageSize then .error .panic else mapSegmentLoop data a seg k' (virt + pageSize)
  else .ok (some k)
termination_by seg.mapEnd - virt
decreasing_by
  simp only [pageSize]
  omega

/-- `map_segment` over the bytes of the file -/
def mapSegmentOf (data : List UInt8) (k : Kernel) (a : ℕ) (seg : LoadSegment) : Except Stop (Option Kernel) :=
  if 2 ^ 64 ≤ seg.memEnd + (pageSize - 1) then .error .panic else mapSegmentLoop data a seg k seg.vaddr

/-- every page of the segment is a user page, and `map_segment` does not panic: it is `mapSegment` -/
structure SegmentSafe (data : List UInt8) (seg : LoadSegment) : Prop where
  page : ∀ j < seg.pageCount, seg.vaddr + j * pageSize + pageSize ≤ userTop
  maps : ∀ k a, mapSegmentOf data k a seg = .ok (mapSegment (fun i => data.getD i 0) k a seg)

section Segment

variable (hfile : seg.dataOff + seg.filesz ≤ data.length) (h64 : seg.dataOff + seg.filesz < 2 ^ 64)

theorem LoadSegment.memEnd_eq (seg : LoadSegment) : seg.memEnd = seg.vaddr + seg.memsz := by
  have hin := seg.inUser
  simp only [userTop] at hin
  exact min_eq_left (by omega)

/-- page `j` of the segment comes before the end -/
theorem LoadSegment.lt_mapEnd_iff (seg : LoadSegment) (j : ℕ) : seg.vaddr + j * pageSize < seg.mapEnd ↔
    j < seg.pageCount := by
  have hmod := seg.aligned
  rw [LoadSegment.mapEnd, seg.memEnd_eq, LoadSegment.pageCount]
  simp only [pageSize] at *
  omega

theorem LoadSegment.page_user {j : ℕ} (hj : j < seg.pageCount) : seg.vaddr + j * pageSize + pageSize ≤ userTop := by
  have hmod := seg.aligned
  have hin := seg.inUser
  unfold LoadSegment.pageCount at hj
  simp only [pageSize, userTop] at *
  omega

include hfile h64

theorem LoadSegment.fill_eq (j : ℕ) :
    seg.fill data (seg.vaddr + j * pageSize) = .ok (seg.page (fun i => data.getD i 0) j) := by
  rw [LoadSegment.fill, Nat.add_sub_cancel_left]
  split_ifs with hj
  · rw [slice_inside (by omega) (by omega)]
    refine congrArg Except.ok (funext fun i => ?_)
    simp only [LoadSegment.page, getD_eq_getElem?_getD, getElem?_take, getElem?_drop]
    split_ifs with hi hp hp
    · rfl
    · omega
    · omega
    · rfl
  · refine congrArg Except.ok (funext fun i => ?_)
    exact (if_neg (by omega)).symm

/-- the loop from page `j` on, by induction on the pages left -/
theorem mapSegmentLoop_eq (a : ℕ) (n : ℕ) : ∀ (j : ℕ) (k : Kernel), j + n = seg.pageCount →
    mapSegmentLoop data a seg k (seg.vaddr + j * pageSize) = .ok ((range' j n).foldlM (fun k j =>
      mapFresh k a (pageOf (seg.vaddr + j * pageSize)) (seg.page (fun i => data.getD i 0) j) (protToPageFlags seg.prot)
        (.image seg.prot)) k) := by
  induction n with
  | zero =>
    intro j k hj
    rw [mapSegmentLoop, if_neg fun h => absurd ((seg.lt_mapEnd_iff j).1 h) (by omega)]
    rfl
  | succ n ih =>
    intro j k hj
    have hlt : j < seg.pageCount := by omega
    have huser := LoadSegment.page_user hlt
    simp only [userTop] at huser
    rw [mapSegmentLoop, if_pos ((seg.lt_mapEnd_iff j).2 hlt), LoadSegment.fill_eq hfile h64, range'_succ, foldlM_cons]
    simp only [Except.bind]
    cases mapFresh k a (pageOf (seg.vaddr + j * pageSize)) (seg.page (fun i => data.getD i 0) j) (protToPageFlags seg.prot)
      (.image seg.prot) with
    | none => rfl
    | some k' =>
      have hnext := ih (j + 1) k' (by omega)
      rw [Nat.succ_mul, ← Nat.add_assoc] at hnext
      simp only [if_neg (show ¬ 2 ^ 64 ≤ seg.vaddr + j * pageSize + pageSize by omega)]
      exact hnext

theorem segmentSafe_of_file : SegmentSafe data seg := by
  refine ⟨fun j => LoadSegment.page_user, fun k a => ?_⟩
  have hin := seg.inUser
  have hloop := mapSegmentLoop_eq hfile h64 a seg.pageCount 0 k (Nat.zero_add _)
  rw [Nat.zero_mul, Nat.add_zero, ← range_eq_range'] at hloop
  simp only [userTop] at hin
  rw [mapSegmentOf, seg.memEnd_eq, if_neg (by simp only [pageSize]; omega), hloop]
  rfl

end Segment

/-- **`parse_elf` and `map_segment` stay inside the file and the user half.** No file makes the parser panic: none of its
slices leaves the file and no sum leaves 64 bits. For each segment of an accepted file, `map_segment` maps user pages
only, and its slices and sums do not panic either. -/
theorem parseElf_safe (data : List UInt8) : parseElf data ≠ .error .panic ∧
    ∀ info, parseElf data = .ok info → ∀ seg ∈ info.segments, SegmentSafe data seg := by
  refine ⟨noPanic_parseElf data, fun info h seg hseg => ?_⟩
  obtain ⟨ph, hload⟩ := exists_phdr h hseg
  obtain ⟨-, hfile, -, hoff, -, -, hlen, -, h64⟩ := loadSegment_spec hload
  exact segmentSafe_of_file (by omega) (by omega)

/-- a segment of four bytes in the file and 5000 in memory -/
theorem parseElf_safe_small : ∃ info, parseElf (elfFile 0x400078 [⟨1, 5, 120, 0x400078, 4, 5000, 4096⟩] [1, 2, 3, 4]) =
    .ok info ∧
    ∃ seg, info.segments.head? = some seg ∧
      SegmentSafe (elfFile 0x400078 [⟨1, 5, 120, 0x400078, 4, 5000, 4096⟩] [1, 2, 3, 4]) seg := by
  obtain ⟨info, hinfo, seg, hseg, -⟩ :
      ∃ info, (parseElf (elfFile 0x400078 [⟨1, 5, 120, 0x400078, 4, 5000, 4096⟩] [1, 2, 3, 4])).toOption = some info ∧
        ∃ seg, info.segments.head? = some seg ∧ True := by decide +kernel
  exact ⟨info, ok_of_toOption hinfo, seg, hseg, (parseElf_safe _).2 info (ok_of_toOption hinfo) seg
    (mem_of_mem_head? hseg)⟩

end Rumicos.Proc
