/-
The arguments of execve, from the caller's memory to the new stack (`sys_execve` in `crates/proc/src/syscall.rs`,
`do_execve` and `setup_stack` in `exec.rs`).

`sys_execve` copies 256 bytes for the path and for each of at most 32 argv and 32 envp pointers, cuts them at the first
NUL and takes what is not UTF-8 as the empty string. `setup_stack` packs the strings below the top of the new stack and
pushes the vectors. A copy that meets an unmapped byte is a kernel page fault, which panics.
-/
import Rumicos.Proc.ElfImage
import Rumicos.Proc.UserAccess

namespace Rumicos.Proc.ExecArgs

open Lib Memory Paging List Option
open Proc.UserAccess (isUserPtr userMin)

/-! ## UTF-8 -/

/-- where the check stands inside a character: bytes still to come and the range of the next one -/
structure Utf8 where
  left : ℕ
  lo : UInt8
  hi : UInt8

/-- the first byte of a character; overlong forms, surrogates and values above U+10FFFF have no lead or a narrower
second byte -/
def Utf8.lead (b : UInt8) : Option Utf8 :=
  if b < 0x80 then some ⟨0, 0, 0⟩
  else if 0xc2 ≤ b ∧ b ≤ 0xdf then some ⟨1, 0x80, 0xbf⟩
  else if b = 0xe0 then some ⟨2, 0xa0, 0xbf⟩
  else if b = 0xed then some ⟨2, 0x80, 0x9f⟩
  else if 0xe1 ≤ b ∧ b ≤ 0xef then some ⟨2, 0x80, 0xbf⟩
  else if b = 0xf0 then some ⟨3, 0x90, 0xbf⟩
  else if 0xf1 ≤ b ∧ b ≤ 0xf3 then some ⟨3, 0x80, 0xbf⟩
  else if b = 0xf4 then some ⟨3, 0x80, 0x8f⟩
  else none

def Utf8.next (u : Utf8) (b : UInt8) : Option Utf8 :=
  if u.left = 0 then Utf8.lead b
  else if u.lo ≤ b ∧ b ≤ u.hi then some ⟨u.left - 1, 0x80, 0xbf⟩
  else none

/-- `core::str::from_utf8` accepts the bytes -/
def isUtf8 (bs : List UInt8) : Bool := (bs.foldlM Utf8.next ⟨0, 0, 0⟩).any fun u => u.left = 0

/-! ## The copies -/

/-- the caller's memory: what can be read there, faults that are resolved included -/
structure UserMem where
  byte : Mem
  user : ∀ a b, byte a = some b → userMin ≤ a ∧ a < UserAccess.userTop

/-- why a call does not enter the new image -/
inductive Stop where
  | errno (e : ℤ)
  | panic
deriving DecidableEq

def maxArgv : ℕ := 32
def maxEnvp : ℕ := 32
def copyLen : ℕ := 256

def nulTerminatedLen (buf : List UInt8) : ℕ := buf.findIdx (· == 0)

def copyFromUser (m : UserMem) (src len : ℕ) : Except Stop (List UInt8) :=
  match m.byte.load src len with
  | some buf => .ok buf
  | none => .error .panic

def readU64FromUser (m : UserMem) (ptr : ℕ) : Except Stop ℕ :=
  match m.byte.word64 ptr with
  | some v => .ok v
  | none => .error .panic

/-- the loop over `argv` or `envp`, with `n` slots left in the kernel's buffers -/
def copyStrings (m : UserMem) : ℕ → ℕ → Except Stop (List (List UInt8))
  | 0, _ => .ok []
  | n + 1, ptr =>
    if isUserPtr ptr 8 = false then .error (.errno eFault)
    else (readU64FromUser m ptr).bind fun arg =>
      if arg = 0 then .ok []
      else if isUserPtr arg 1 = false then .error (.errno eFault)
      else (copyFromUser m arg copyLen).bind fun buf =>
        (copyStrings m n (ptr + 8)).map (buf.take (nulTerminatedLen buf) :: ·)

/-- `from_utf8(..).unwrap_or("")` -/
def toStr (bs : List UInt8) : List UInt8 := if isUtf8 bs then bs else []

def copyVector (m : UserMem) (max ptr : ℕ) : Except Stop (List (List UInt8)) :=
  if ptr = 0 then .ok [] else (copyStrings m max ptr).map (List.map toStr)

/-! ## The new stack -/

def stackBase : ℕ := ustackTop - ustackPages * 4096

/-- the pages of `map_user_stack`, zeroed -/
def freshStack : Mem := fun a => if stackBase ≤ a ∧ a < ustackTop then some 0 else none

/-- the loop of `write_bytes_to_user`: one page walk and one copy for each page that the bytes touch -/
def writeLoop : ℕ → Mem → ℕ → List UInt8 → Option Mem
  | 0, m, _, data => if data = [] then some m else none
  | rounds + 1, m, virt, data =>
    if data = [] then some m
    else
      let chunk := min (4096 - virt % 4096) data.length
      -- the page walk panics where nothing is mapped
      if (m virt).isSome then writeLoop rounds (m.store virt (data.take chunk)) (virt + chunk) (data.drop chunk) else none

/-- `write_bytes_to_user`; every round writes a byte at least -/
def writeBytesToUser (m : Mem) (virt : ℕ) (data : List UInt8) : Option Mem := writeLoop data.length m virt data

/-- the state of the loop that packs the strings -/
structure Packed where
  mem : Mem
  rsp : ℕ
  ptrs : List ℕ

def packString (p : Packed) (s : List UInt8) : Option Packed :=
  let rsp := p.rsp - (s.length + 1)
  (writeBytesToUser p.mem rsp s).bind fun mem => (writeBytesToUser mem (rsp + s.length) [0]).map fun mem =>
    ⟨mem, rsp, p.ptrs ++ [rsp]⟩

def push (st : Mem × ℕ) (v : ℕ) : Option (Mem × ℕ) :=
  (writeBytesToUser st.1 (st.2 - 8) (bytesOf 8 v)).map fun mem => (mem, st.2 - 8)

/-- the stack pointer below the strings, such that a block of `qwords` pushes ends on a 16-byte boundary -/
def alignStack (rsp qwords : ℕ) : ℕ :=
  let rsp := rsp / 16 * 16
  if rsp % 16 ≠ qwords * 8 % 16 then rsp - 8 else rsp

/-- what is pushed, in order: the auxiliary terminator, envp, argv and argc -/
def stackBlock (argc : ℕ) (ptrs : List ℕ) : List ℕ := [0, 0, 0] ++ (ptrs.drop argc).reverse ++ [0] ++
  (ptrs.take argc).reverse ++ [argc]

def setupStack (argv envp : List (List UInt8)) : Option (Mem × ℕ) :=
  ((argv ++ envp).foldlM packString ⟨freshStack, ustackTop - 8, []⟩).bind fun p =>
    (stackBlock argv.length p.ptrs).foldlM push (p.mem, alignStack p.rsp (5 + argv.length + envp.length))

/-! ## The call -/

/-- the new image: its file, its stack and its stack pointer -/
structure Started where
  info : ElfInfo
  mem : Mem
  rsp : ℕ

/-- `do_execve` without the caller's own state; `load` is what the file system answers for a path -/
def doExecve (load : List UInt8 → Except ℤ (List UInt8)) (path : List UInt8) (argv envp : List (List UInt8)) :
    Except Stop Started :=
  if maxArgv < argv.length ∨ maxEnvp < envp.length then .error (.errno e2Big)
  else match load path with
    | .error r => .error (.errno (if r = -2 then eNoEnt else eIo))
    | .ok data =>
      if data.length = 0 then .error (.errno eNoExec)
      else match parseElf data with
        | .error _ => .error (.errno eNoExec)
        | .ok info =>
          match setupStack argv envp with
          | none => .error .panic
          | some (mem, rsp) => .ok ⟨info, mem, rsp⟩

def sysExecve (m : UserMem) (load : List UInt8 → Except ℤ (List UInt8)) (pathPtr argvPtr envpPtr : ℕ) :
    Except Stop Started :=
  if isUserPtr pathPtr 1 = false then .error (.errno eFault)
  else (copyFromUser m pathPtr copyLen).bind fun buf =>
    if isUtf8 (buf.take (nulTerminatedLen buf)) = false then .error (.errno eNoEnt)
    else (copyVector m maxArgv argvPtr).bind fun argv =>
      (copyVector m maxEnvp envpPtr).bind fun envp => doExecve load (buf.take (nulTerminatedLen buf)) argv envp

/-! ## Writing to the stack -/

/-- the stack is mapped, and nothing else -/
def Mapped (m : Mem) : Prop := ∀ a, (m a).isSome ↔ stackBase ≤ a ∧ a < ustackTop

theorem mapped_freshStack : Mapped freshStack := by
  intro a
  by_cases ha : stackBase ≤ a ∧ a < ustackTop
  · rw [freshStack, if_pos ha]
    exact iff_of_true rfl ha
  · rw [freshStack, if_neg ha]
    exact iff_of_false (by decide) ha

section Writes

variable {m : Mem} (h : Mapped m) {a : ℕ} {bs : List UInt8} (hlo : stackBase ≤ a) (hhi : a + bs.length ≤ ustackTop)
include h hlo hhi

theorem Mapped.store : Mapped (m.store a bs) := by
  intro x
  by_cases hin : a ≤ x ∧ x < a + bs.length
  · obtain ⟨i, rfl⟩ := Nat.exists_eq_add_of_le hin.1
    have hi : i < bs.length := by omega
    rw [Mem.store_inside hi, getElem?_eq_getElem hi]
    exact iff_of_true rfl (by omega)
  · rw [Mem.store_outside (by omega)]
    exact h x

/-- the rounds together are one store -/
theorem Mapped.write_rounds {rounds : ℕ} (hrounds : bs.length ≤ rounds) :
    writeLoop rounds m a bs = some (m.store a bs) := by
  induction rounds generalizing m a bs with
  | zero =>
    obtain rfl := length_eq_zero_iff.1 (Nat.le_zero.1 hrounds)
    rw [writeLoop, if_pos rfl, Mem.store_nil]
  | succ rounds ih =>
    rw [writeLoop]
    by_cases hbs : bs = []
    · rw [if_pos hbs, hbs, Mem.store_nil]
    · have hpos : 0 < bs.length := length_pos_iff.2 hbs
      set chunk := min (4096 - a % 4096) bs.length with hchunk
      have htake : (bs.take chunk).length = chunk := by rw [length_take]; omega
      have hdrop : (bs.drop chunk).length = bs.length - chunk := length_drop
      rw [if_neg hbs, if_pos ((h a).2 (by omega)), ih (h.store hlo (by omega)) (by omega) (by omega) (by omega)]
      have hglue : (m.store a (bs.take chunk)).store (a + (bs.take chunk).length) (bs.drop chunk) =
          m.store a (bs.take chunk ++ bs.drop chunk) := Mem.store_append _
      rw [htake, take_append_drop] at hglue
      rw [hglue]

theorem Mapped.write : writeBytesToUser m a bs = some (m.store a bs) := h.write_rounds hlo hhi le_rfl

end Writes

/-- a write: its address and its bytes -/
abbrev Write := ℕ × List UInt8

/-- the writes have no byte in common -/
def Apart (w w' : Write) : Prop := w.1 + w.2.length ≤ w'.1 ∨ w'.1 + w'.2.length ≤ w.1

def writeAll (m : Mem) (ws : List Write) : Option Mem := ws.foldlM (fun m w => writeBytesToUser m w.1 w.2) m

theorem writeAll_spec {ws : List Write} (hin : ∀ w ∈ ws, stackBase ≤ w.1 ∧ w.1 + w.2.length ≤ ustackTop)
    (hapart : ws.Pairwise Apart)
    {m : Mem} (h : Mapped m) : ∃ m', writeAll m ws = some m' ∧ Mapped m' ∧ (∀ w ∈ ws, m'.load w.1 w.2.length = some w.2) ∧
      ∀ x, (∀ w ∈ ws, x < w.1 ∨ w.1 + w.2.length ≤ x) → m' x = m x := by
  induction ws generalizing m with
  | nil => exact ⟨m, rfl, h, nofun, fun _ _ => rfl⟩
  | cons w ws ih =>
    obtain ⟨hw, hws⟩ := forall_mem_cons.1 hin
    obtain ⟨hhead, htail⟩ := pairwise_cons.1 hapart
    obtain ⟨m', hm', hmapped, hload, hkept⟩ := ih hws htail (h.store hw.1 hw.2)
    refine ⟨m', ?_, hmapped, forall_mem_cons.2 ⟨?_, hload⟩, fun x hx => ?_⟩
    · rw [writeAll, foldlM_cons, h.write hw.1 hw.2]
      exact hm'
    · rw [Mem.load_congr (m := m.store w.1 w.2), Mem.load_store]
      intro i hi
      refine hkept _ fun w' hw' => ?_
      have happ := hhead w' hw'
      unfold Apart at happ
      omega
    · obtain ⟨hx, hrest⟩ := forall_mem_cons.1 hx
      rw [hkept x hrest, Mem.store_outside hx]

/-! ## The writes of `setup_stack` -/

/-- the bytes of the strings with their terminators -/
def packedSize (ss : List (List UInt8)) : ℕ := (ss.map fun s => s.length + 1).sum

/-- the strings are packed downward, each with its NUL -/
def stringWrites : ℕ → List (List UInt8) → List Write
  | _, [] => []
  | rsp, s :: ss => (rsp - (s.length + 1), s) :: (rsp - (s.length + 1) + s.length, [0]) :: stringWrites (rsp -
      (s.length + 1)) ss

def stringPtrs : ℕ → List (List UInt8) → List ℕ
  | _, [] => []
  | rsp, s :: ss => (rsp - (s.length + 1)) :: stringPtrs (rsp - (s.length + 1)) ss

def pushWrites : ℕ → List ℕ → List Write
  | _, [] => []
  | rsp, v :: vs => (rsp - 8, bytesOf 8 v) :: pushWrites (rsp - 8) vs

/-- the stack pointer when the block is pushed -/
def blockTop (argv envp : List (List UInt8)) : ℕ :=
  alignStack (ustackTop - 8 - packedSize (argv ++ envp)) (5 + argv.length + envp.length)

def blockOf (argv envp : List (List UInt8)) : List ℕ := stackBlock argv.length (stringPtrs (ustackTop - 8) (argv ++ envp))

def stackWrites (argv envp : List (List UInt8)) : List Write :=
  stringWrites (ustackTop - 8) (argv ++ envp) ++ pushWrites (blockTop argv envp) (blockOf argv envp)

variable {ss argv envp : List (List UInt8)} {m : Mem} {rsp : ℕ} {ptrs vs : List ℕ}

theorem writeAll_append (m : Mem) (ws ws' : List Write) : writeAll m (ws ++ ws') = (writeAll m ws).bind fun m =>
    writeAll m ws' :=
  foldlM_append

theorem foldlM_packString (ss : List (List UInt8)) (p : Packed) : ss.foldlM packString p =
    (writeAll p.mem (stringWrites p.rsp ss)).map fun mem => ⟨mem, p.rsp - packedSize ss, p.ptrs ++
    stringPtrs p.rsp ss⟩ := by
  induction ss generalizing p with
  | nil => simp [stringWrites, stringPtrs, packedSize, writeAll]
  | cons s ss ih =>
    simp only [foldlM_cons, packString, stringWrites, writeAll, bind_eq_bind, map_bind, bind_assoc,
      bind_map, Function.comp_def]
    refine bind_congr fun m₁ _ => bind_congr fun m₂ _ => ?_
    rw [ih]
    simp only [append_assoc, Nat.sub_sub]
    rfl

theorem foldlM_push (vs : List ℕ) (st : Mem × ℕ) :
    vs.foldlM push st = (writeAll st.1 (pushWrites st.2 vs)).map fun mem => (mem, st.2 - 8 * vs.length) := by
  induction vs generalizing st with
  | nil => simp [pushWrites, writeAll]
  | cons v vs ih =>
    simp only [foldlM_cons, push, pushWrites, writeAll, bind_eq_bind, map_bind, bind_map, Function.comp_def]
    refine bind_congr fun m _ => ?_
    rw [ih]
    simp only [Nat.sub_sub, Nat.add_comm 8]
    rfl

theorem length_stringPtrs (rsp : ℕ) (ss : List (List UInt8)) : (stringPtrs rsp ss).length = ss.length := by
  induction ss generalizing rsp with
  | nil => rfl
  | cons s ss ih => rw [stringPtrs, length_cons, length_cons, ih]

theorem length_stackBlock {argc : ℕ} (h : argc ≤ ptrs.length) : (stackBlock argc ptrs).length = 5 + ptrs.length := by
  simp [stackBlock]
  omega

theorem length_blockOf (argv envp : List (List UInt8)) : (blockOf argv envp).length = 5 + argv.length + envp.length := by
  have hptrs := length_stringPtrs (ustackTop - 8) (argv ++ envp)
  rw [length_append] at hptrs
  rw [blockOf, length_stackBlock (by omega), hptrs, Nat.add_assoc]

/-- `setup_stack` makes these writes, in this order -/
theorem setupStack_eq (argv envp : List (List UInt8)) :
    setupStack argv envp = (writeAll freshStack (stackWrites argv envp)).map fun mem =>
    (mem, blockTop argv envp - 8 * (5 + argv.length + envp.length)) := by
  rw [setupStack, foldlM_packString, stackWrites, writeAll_append, bind_map, map_bind]
  refine bind_congr fun mem _ => ?_
  rw [Function.comp_apply, foldlM_push]
  change (writeAll mem (pushWrites (blockTop argv envp) (blockOf argv envp))).map
    (fun mem => (mem, blockTop argv envp - 8 * (blockOf argv envp).length)) = _
  rw [length_blockOf]
  rfl

/-- the writes are between two addresses, and apart -/
def Laid (lo hi : ℕ) (ws : List Write) : Prop := (∀ w ∈ ws, lo ≤ w.1 ∧ w.1 + w.2.length ≤ hi) ∧ ws.Pairwise Apart

theorem Laid.cons {lo mid hi : ℕ} {w : Write} {ws : List Write} (h : Laid lo mid ws) (hlo : lo ≤ mid) (hmid : mid ≤ w.1)
    (hhi : w.1 + w.2.length ≤ hi) : Laid lo hi (w :: ws) := by
  refine ⟨forall_mem_cons.2 ⟨⟨by omega, hhi⟩, fun x hx => ?_⟩, pairwise_cons.2 ⟨fun x hx => ?_, h.2⟩⟩
  · have hx := h.1 x hx
    omega
  · exact .inr ((h.1 x hx).2.trans hmid)

theorem laid_pushWrites (h : 8 * vs.length ≤ rsp) : Laid (rsp - 8 * vs.length) rsp (pushWrites rsp vs) := by
  induction vs generalizing rsp with
  | nil => exact ⟨nofun, .nil⟩
  | cons v vs ih =>
    rw [length_cons] at h ⊢
    have hrest := @ih (rsp - 8) (by omega)
    rw [show rsp - 8 - 8 * vs.length = rsp - 8 * (vs.length + 1) by omega] at hrest
    exact hrest.cons (by omega) le_rfl (by simp only [length_bytesOf]; omega)

theorem laid_stringWrites (h : packedSize ss ≤ rsp) : Laid (rsp - packedSize ss) rsp (stringWrites rsp ss) := by
  induction ss generalizing rsp with
  | nil => exact ⟨nofun, .nil⟩
  | cons s ss ih =>
    simp only [packedSize, map_cons, sum_cons] at h ih ⊢
    have hrest := @ih (rsp - (s.length + 1)) (by omega)
    rw [Nat.sub_sub] at hrest
    -- the NUL is above its string
    have hnul : Laid _ rsp ((rsp - (s.length + 1) + s.length, [0]) :: _) :=
      hrest.cons (by omega) (by simp) (by simp; omega)
    refine ⟨forall_mem_cons.2 ⟨by simp only; omega, hnul.1⟩, pairwise_cons.2 ⟨fun x hx => ?_, hnul.2⟩⟩
    rcases mem_cons.1 hx with rfl | hx
    · exact .inl le_rfl
    · exact .inr (hrest.1 x hx).2

theorem alignStack_bounds (rsp qwords : ℕ) (h : 24 ≤ rsp) :
    alignStack rsp qwords ≤ rsp ∧ rsp ≤ alignStack rsp qwords + 23 ∧ alignStack rsp qwords % 16 = qwords * 8 % 16 := by
  simp only [alignStack]
  split <;> omega

theorem packedSize_le {n : ℕ} (h : ∀ s ∈ ss, s.length ≤ n) : packedSize ss ≤ ss.length * (n + 1) := by
  have hsum := sum_le_card_nsmul (ss.map fun s => s.length + 1) (n + 1) (by
    intro x hx
    obtain ⟨s, hs, rfl⟩ := mem_map.1 hx
    exact Nat.succ_le_succ (h s hs))
  rwa [length_map, smul_eq_mul] at hsum

/-! ## The round trip -/

/-- the initial stack reads as argc, argv and envp -/
def Decodes (m : Mem) (rsp : ℕ) (argv envp : List (List UInt8)) : Prop :=
  m.word64 rsp = some argv.length ∧
    (∃ xs, StringArray m (rsp + 8) xs ∧ xs.map Prod.snd = argv) ∧
    ∃ xs, StringArray m (rsp + 8 * (argv.length + 2)) xs ∧ xs.map Prod.snd = envp

theorem Decodes.unique {argv' envp' : List (List UInt8)} (h : Decodes m rsp argv envp) (h' : Decodes m rsp argv' envp') :
    argv = argv' ∧ envp = envp' := by
  obtain ⟨hargc, ⟨xs, hxs, rfl⟩, ys, hys, rfl⟩ := h
  obtain ⟨hargc', ⟨xs', hxs', rfl⟩, ys', hys', rfl⟩ := h'
  obtain rfl := hxs.unique hxs'
  exact ⟨rfl, by rw [hys.unique hys']⟩

theorem reverse_stackBlock (argc : ℕ) (ptrs : List ℕ) :
    (stackBlock argc ptrs).reverse = argc :: (ptrs.take argc ++ 0 :: (ptrs.drop argc ++ 0 :: [0, 0])) := by
  simp [stackBlock]

theorem stackBlock_lt {argc : ℕ} (hargc : argc < 2 ^ 64) (hptrs : ∀ q ∈ ptrs, q < ustackTop) :
    ∀ v ∈ stackBlock argc ptrs, v < 2 ^ 64 := by
  have htop : ustackTop < 2 ^ 64 := by decide
  intro v hv
  rw [← mem_reverse, reverse_stackBlock] at hv
  simp only [mem_cons, mem_append, not_mem_nil, or_false] at hv
  rcases hv with rfl | hv | rfl | hv | rfl | rfl | rfl
  · exact hargc
  · exact (hptrs v (mem_of_mem_take hv)).trans htop
  · decide
  · exact (hptrs v (mem_of_mem_drop hv)).trans htop
  all_goals decide

theorem map_snd_zip_of_forall₂ {R : ℕ → List UInt8 → Prop} {ps : List ℕ} (h : List.Forall₂ R ps ss) :
    (ps.zip ss).map Prod.snd = ss := map_snd_zip h.length_eq.ge

theorem decodes_of_words (hwords : Words m rsp (stackBlock argv.length ptrs).reverse)
    (hstrings : List.Forall₂ (fun q s => q ≠ 0 ∧ CString m q s) ptrs (argv ++ envp)) : Decodes m rsp argv envp := by
  rw [reverse_stackBlock] at hwords
  obtain ⟨hargc, hargs⟩ := hwords
  have hargv := forall₂_take_append _ _ _ hstrings
  have henvp := forall₂_drop_append _ _ _ hstrings
  have henv := (words_append.1 hargs).2.2
  have hlen : (ptrs.take argv.length).length = argv.length := hargv.length_eq
  rw [hlen, show rsp + 8 + 8 * argv.length + 8 = rsp + 8 * (argv.length + 2) by ring] at henv
  exact ⟨hargc, ⟨_, stringArray_of_words hargs hargv, map_snd_zip_of_forall₂ hargv⟩,
    _, stringArray_of_words henv henvp, map_snd_zip_of_forall₂ henvp⟩

theorem stringPtrs_written (rsp : ℕ) (ss : List (List UInt8)) :
    List.Forall₂ (fun q s => s ∈ ss ∧ (q, s) ∈ stringWrites rsp ss ∧ (q + s.length, [0]) ∈ stringWrites rsp ss)
    (stringPtrs rsp ss) ss := by
  induction ss generalizing rsp with
  | nil => exact .nil
  | cons s ss ih =>
    refine .cons ⟨mem_cons_self, mem_cons_self, mem_cons_of_mem _ mem_cons_self⟩ ((ih _).imp fun q t h => ?_)
    exact ⟨mem_cons_of_mem _ h.1, mem_cons_of_mem _ (mem_cons_of_mem _ h.2.1),
      mem_cons_of_mem _ (mem_cons_of_mem _ h.2.2)⟩

theorem cstring_of_loads {q : ℕ} {s : List UInt8} (hs : m.load q s.length = some s)
    (hnul : m.load (q + s.length) 1 = some [0])
    (h0 : 0 ∉ s) : CString m q s :=
  ⟨(Mem.load_eq_some.1 hs).2, (Mem.load_eq_some.1 hnul).2 0 Nat.one_pos, h0⟩

theorem words_of_pushes (hv : ∀ v ∈ vs, v < 2 ^ 64) (h : ∀ w ∈ pushWrites rsp vs, m.load w.1 w.2.length = some w.2)
    (hroom : 8 * vs.length ≤ rsp) : Words m (rsp - 8 * vs.length) vs.reverse := by
  induction vs generalizing rsp with
  | nil => trivial
  | cons v vs ih =>
    obtain ⟨hv, hvs⟩ := forall_mem_cons.1 hv
    obtain ⟨hw, hws⟩ := forall_mem_cons.1 h
    rw [length_cons] at hroom ⊢
    rw [reverse_cons, words_append, length_reverse, show rsp - 8 * (vs.length + 1) = rsp - 8 - 8 * vs.length by omega,
      show rsp - 8 - 8 * vs.length + 8 * vs.length = rsp - 8 by omega]
    refine ⟨ih hvs hws (by omega), ?_, trivial⟩
    rw [length_bytesOf] at hw
    rw [Mem.word64, hw, map_some, leValue_bytesOf (by omega)]

section

variable (hstr : ∀ s ∈ argv ++ envp, s.length ≤ copyLen) (hargc : argv.length ≤ maxArgv) (henvc : envp.length ≤ maxEnvp)
include hstr hargc henvc

theorem stackWrites_laid :
    stackBase + 8 * (5 + argv.length + envp.length) ≤ blockTop argv envp ∧
    blockTop argv envp % 16 = (5 + argv.length + envp.length) * 8 % 16 ∧
      Laid (blockTop argv envp - 8 * (5 + argv.length + envp.length)) (ustackTop - 8) (stackWrites argv envp) := by
  have hcount : (argv ++ envp).length ≤ 64 := by
    rw [length_append]
    exact Nat.add_le_add hargc henvc
  -- at most 64 strings of 257 bytes: the stack has room for them and for the block
  have hsize : packedSize (argv ++ envp) ≤ 64 * 257 := (packedSize_le hstr).trans (Nat.mul_le_mul_right _ hcount)
  have hbase : stackBase + 262144 = ustackTop := by decide
  rw [length_append] at hcount
  obtain ⟨hle, hge, halign⟩ := alignStack_bounds (ustackTop - 8 - packedSize (argv ++ envp))
    (5 + argv.length + envp.length) (by omega)
  rw [← blockTop] at hle hge halign
  have hstrings : Laid _ _ (stringWrites (ustackTop - 8) (argv ++ envp)) := laid_stringWrites (by omega)
  have hpushes : Laid _ _ (pushWrites (blockTop argv envp) (blockOf argv envp)) :=
    laid_pushWrites (by rw [length_blockOf]; omega)
  rw [length_blockOf] at hpushes
  refine ⟨by omega, halign, fun w hw => ?_, pairwise_append.2 ⟨hstrings.2, hpushes.2, fun w hw w' hw' => .inr ?_⟩⟩
  · rcases mem_append.1 hw with hw | hw
    · have hw := hstrings.1 w hw
      omega
    · have hw := hpushes.1 w hw
      omega
  · have hw := hstrings.1 w hw
    have hw' := hpushes.1 w' hw'
    omega

theorem setupStack_written :
    ∃ mem, setupStack argv envp = some (mem, blockTop argv envp - 8 * (5 + argv.length + envp.length)) ∧ Mapped mem ∧
      ∀ w ∈ stackWrites argv envp, mem.load w.1 w.2.length = some w.2 := by
  obtain ⟨hroom, -, hin, hapart⟩ := stackWrites_laid hstr hargc henvc
  obtain ⟨mem, hmem, hmapped, hload, -⟩ :=
    writeAll_spec (fun w hw => by have hw := hin w hw; omega) hapart mapped_freshStack
  exact ⟨mem, by rw [setupStack_eq, hmem, map_some], hmapped, hload⟩

end

/-- **The writes of `setup_stack`.** They are made from the returned pointer, which is aligned, up to the top of the
mapped stack, have no byte in common, and all stay. -/
theorem setup_stack_writes {argv envp : List (List UInt8)} (hstr : ∀ s ∈ argv ++ envp, s.length ≤ 255)
    (hargc : argv.length ≤ maxArgv)
    (henvc : envp.length ≤ maxEnvp) : ∃ mem rsp, setupStack argv envp = some (mem, rsp) ∧
      setupStack argv envp = (writeAll freshStack (stackWrites argv envp)).map (fun mem => (mem, rsp)) ∧ rsp % 16 = 0 ∧
      stackBase ≤ rsp ∧
      (stackWrites argv envp).Pairwise Apart ∧
      ∀ w ∈ stackWrites argv envp, rsp ≤ w.1 ∧ w.1 + w.2.length ≤ ustackTop - 8 ∧ mem.load w.1 w.2.length = some w.2 := by
  have hfits : ∀ s ∈ argv ++ envp, s.length ≤ copyLen := fun s hs => (hstr s hs).trans (by decide)
  obtain ⟨hroom, halign, hin, hapart⟩ := stackWrites_laid hfits hargc henvc
  obtain ⟨mem, hmem, -, hload⟩ := setupStack_written hfits hargc henvc
  exact ⟨mem, _, hmem, setupStack_eq argv envp, by omega, by omega, hapart, fun w hw => ⟨(hin w hw).1, (hin w hw).2,
    hload w hw⟩⟩

/-- "ls" and an empty string: the pointer is aligned, and the string and its NUL stay below the top of the stack -/
theorem setup_stack_writes_two : ∃ mem rsp, setupStack [[108, 115]] [[]] = some (mem, rsp) ∧ rsp % 16 = 0 ∧
    mem.load (ustackTop - 11) 2 = some [108, 115] ∧ mem.load (ustackTop - 9) 1 = some [0] := by
  obtain ⟨mem, rsp, h, -, halign, -, -, hstay⟩ := @setup_stack_writes [[108, 115]] [[]] (by decide) (by decide) (by decide)
  exact ⟨mem, rsp, h, halign, (hstay (ustackTop - 11, [108, 115]) (by decide)).2.2,
    (hstay (ustackTop - 9, [0]) (by decide)).2.2⟩

/-- **The new stack.** Strings without NUL that fit come back as they were, at an aligned stack pointer. -/
theorem setupStack_decodes (hstr : ∀ s ∈ argv ++ envp, 0 ∉ s ∧ s.length ≤ copyLen) (hargc : argv.length ≤ maxArgv)
    (henvc : envp.length ≤ maxEnvp) :
    ∃ mem rsp, setupStack argv envp = some (mem, rsp) ∧ Mapped mem ∧ rsp % 16 = 0 ∧ Decodes mem rsp argv envp := by
  have hfits : ∀ s ∈ argv ++ envp, s.length ≤ copyLen := fun s hs => (hstr s hs).2
  obtain ⟨hroom, halign, hin, -⟩ := stackWrites_laid hfits hargc henvc
  obtain ⟨mem, hmem, hmapped, hload⟩ := setupStack_written hfits hargc henvc
  obtain ⟨hstrings, hpushes⟩ := forall_mem_append.1 hload
  have hptrs : List.Forall₂ (fun q s => (q ≠ 0 ∧ q < ustackTop) ∧ CString mem q s)
    (stringPtrs (ustackTop - 8) (argv ++ envp)) (argv ++ envp) := by
    refine (stringPtrs_written (ustackTop - 8) (argv ++ envp)).imp fun q s h => ⟨?_, ?_⟩
    · have hq := hin _ (mem_append_left _ h.2.1)
      have hbase : 0 < stackBase := by decide
      omega
    · exact cstring_of_loads (hstrings _ h.2.1) (hstrings _ h.2.2) (hstr s h.1).1
  have hsmall : ∀ v ∈ blockOf argv envp, v < 2 ^ 64 :=
    stackBlock_lt (hargc.trans_lt (by decide)) fun q hq => (((forall₂_and_left _ _).1 hptrs).1 q hq).2
  have hwords := words_of_pushes hsmall hpushes (by rw [length_blockOf]; omega)
  rw [length_blockOf] at hwords
  exact ⟨mem, _, hmem, hmapped, by omega, decodes_of_words hwords (hptrs.imp fun q s h => ⟨h.1.1, h.2⟩)⟩

/-- the pages that `setup_stack` leaves -/
def stackPages (m : Mem) (j : ℕ) : Page := fun i => (m (stackBase + j * pageSize + i)).getD 0

theorem image_decodes {data : List UInt8} {info : ElfInfo} (hmapped : Mapped m) (h : Decodes m rsp argv envp)
    {k k' : Kernel} {c : ℕ} (hload : loadImage k (elfImage data info (stackPages m)) = some (k', c)) :
    Decodes (k'.byteAt c) rsp argv envp := by
  have hcontents := contents_loadImage hload
  have hmore : ∀ a b, m a = some b → k'.byteAt c a = some b := by
    intro a b hb
    obtain ⟨hlo, hhi⟩ := (hmapped a).1 (by rw [hb]; rfl)
    have hbase : stackBase + ustackPages * pageSize = ustackTop := by decide
    have hsplit := Nat.div_add_mod' (a - stackBase) pageSize
    have hmod : (a - stackBase) % pageSize < pageSize := Nat.mod_lt _ (by decide)
    have hpage : (a - stackBase) / pageSize < ustackPages := Nat.div_lt_of_lt_mul (by rw [Nat.mul_comm]; omega)
    have hbyte := (hcontents.stack hpage hmod).1
    have haddr : stackBase + (a - stackBase) / pageSize * pageSize + (a - stackBase) % pageSize = a := by omega
    have hstack : stackPages m ((a - stackBase) / pageSize) ((a - stackBase) % pageSize) = b := by
      rw [stackPages, haddr, hb, getD_some]
    calc k'.byteAt c a
        = k'.byteAt c (stackBase + (a - stackBase) / pageSize * pageSize + (a - stackBase) % pageSize) := by rw [haddr]
      _ = some (stackPages m ((a - stackBase) / pageSize) ((a - stackBase) % pageSize)) := hbyte
      _ = some b := by rw [hstack]
  obtain ⟨hargc, ⟨xs, hxs, hargv⟩, ys, hys, henvp⟩ := h
  exact ⟨Mem.word64_mono hmore hargc, ⟨xs, hxs.mono hmore, hargv⟩, ys, hys.mono hmore, henvp⟩

/-- **The arguments in the new process.** Whatever file is loaded and whatever the kernel holds, a program that follows
the pointers from its stack pointer, through its own page tables, finds the strings that `setup_stack` was given. -/
theorem exec_stack_arrives (hstr : ∀ s ∈ argv ++ envp, 0 ∉ s ∧ s.length ≤ copyLen) (hargc : argv.length ≤ maxArgv)
    (henvc : envp.length ≤ maxEnvp) : ∃ mem rsp, setupStack argv envp = some (mem, rsp) ∧ rsp % 16 = 0 ∧
      ∀ data info k k' c, loadImage k (elfImage data info (stackPages mem)) = some (k', c) →
      Decodes (k'.byteAt c) rsp argv envp := by
  obtain ⟨mem, rsp, hmem, hmapped, halign, hdec⟩ := setupStack_decodes hstr hargc henvc
  exact ⟨mem, rsp, hmem, halign, fun _ _ _ _ _ hload => image_decodes hmapped hdec hload⟩

/-- "ls" arrives in an image of two segments -/
theorem exec_stack_arrives_ls : ∃ mem rsp info k c, setupStack [[108, 115]] [] = some (mem, rsp) ∧
    loadImage loaderKernel (elfImage twoPages info (stackPages mem)) = some (k, c) ∧
    Decodes (k.byteAt c) rsp [[108, 115]] [] := by
  obtain ⟨mem, rsp, hmem, -, h⟩ := @exec_stack_arrives [[108, 115]] [] (by decide) (by decide) (by decide)
  obtain ⟨⟨mem', rsp'⟩, hmem', info, -, ⟨k, c⟩, hload, -⟩ : ∃ x, setupStack [[108, 115]] [] = some x ∧
      ∃ info, (parseElf twoPages).toOption = some info ∧
        ∃ y, loadImage loaderKernel (elfImage twoPages info (stackPages x.1)) = some y ∧ True := by decide +kernel
  cases hmem.symm.trans hmem'
  exact ⟨mem, rsp, info, k, c, hmem, hload, h _ _ _ _ _ hload⟩

/-! ## The copies of strings -/

section Copies

variable {m : UserMem}

variable {a ptr : ℕ} {args : List (ℕ × List UInt8)}

theorem isUserPtr_of_load {len : ℕ} {bs : List UInt8} (h : m.byte.load a len = some bs) (hlen : 0 < len) :
    isUserPtr a len = true := by
  obtain ⟨hbs, hget⟩ := Mem.load_eq_some.1 h
  have hread : ∀ i < len, userMin ≤ a + i ∧ a + i < UserAccess.userTop := by
    intro i hi
    exact m.user (a + i) _ ((hget i hi).trans (getElem?_eq_getElem (by omega)))
  have hfirst := hread 0 hlen
  have hlast := hread (len - 1) (by omega)
  have htop : UserAccess.userTop < 2 ^ 64 := by decide
  rw [isUserPtr, if_pos (by omega), Bool.and_eq_true, decide_eq_true_iff, decide_eq_true_iff]
  omega

theorem isUserPtr_of_byte {b : UInt8} (h : m.byte a = some b) : isUserPtr a 1 = true := by
  have hload : m.byte.load a 1 = some [b] := by rw [Mem.load, h, bind_some, Mem.load, map_some]
  exact isUserPtr_of_load hload Nat.one_pos

theorem take_nulTerminatedLen {mem : Mem} {len : ℕ} {s buf : List UInt8} (hs : CString mem a s)
    (hbuf : mem.load a len = some buf) : buf.take (nulTerminatedLen buf) = s.take len := by
  obtain ⟨hlen, hget⟩ := Mem.load_eq_some.1 hbuf
  have hsame : ∀ i < len, i < s.length → buf[i]? = s[i]? := by
    intro i hi his
    rw [← hget i hi, hs.bytes i his]
  have hidx : nulTerminatedLen buf = min s.length len := by
    by_cases hlt : s.length < len
    · rw [Nat.min_eq_left hlt.le, nulTerminatedLen, findIdx_eq (by omega)]
      constructor
      · have hnul := (hget s.length hlt).symm.trans hs.nul
        rw [getElem?_eq_getElem (by omega)] at hnul
        simpa using hnul
      · intro j hj
        have hj' := hsame j (by omega) hj
        rw [getElem?_eq_getElem (by omega), getElem?_eq_getElem hj] at hj'
        rw [some.inj hj', beq_eq_false_iff_ne]
        exact fun h0 => hs.nonzero (h0 ▸ getElem_mem hj)
    · rw [Nat.min_eq_right (by omega), ← hlen, nulTerminatedLen, findIdx_eq_length]
      intro b hb
      obtain ⟨j, hj, rfl⟩ := mem_iff_getElem.1 hb
      have hj' := hsame j (by omega) (by omega)
      rw [getElem?_eq_getElem hj] at hj'
      rw [beq_eq_false_iff_ne]
      exact fun h0 => hs.nonzero (h0 ▸ mem_of_getElem? hj'.symm)
  apply ext_getElem?
  intro i
  rw [hidx, getElem?_take, getElem?_take]
  by_cases hi : i < min s.length len
  · rw [if_pos hi, if_pos (by omega), hsame i (by omega) (by omega)]
  · by_cases hil : i < len
    · rw [if_neg hi, if_pos hil, getElem?_eq_none (by omega)]
    · rw [if_neg hi, if_neg hil]

/-- 256 bytes can be read at the pointer -/
def Window (m : UserMem) (ptr : ℕ) : Prop := (m.byte.load ptr copyLen).isSome

instance (m : UserMem) (ptr : ℕ) : Decidable (Window m ptr) := inferInstanceAs (Decidable (_ = true))

theorem copyStrings_eq (h : StringArray m.byte ptr args) (n : ℕ) :
    copyStrings m n ptr =
      if ∀ x ∈ args.take n, Window m x.1 then .ok ((args.take n).map fun x => x.2.take copyLen) else .error .panic := by
  induction h generalizing n with
  | nil hword =>
    cases n with
    | zero => rfl
    | succ n =>
      obtain ⟨bs, hload, -⟩ := map_eq_some_iff.1 hword
      rw [copyStrings, if_neg (by rw [isUserPtr_of_load hload (by decide)]; decide), readU64FromUser, hword]
      rfl
  | @cons a p s rest hword hp hs hrest ih =>
    cases n with
    | zero => rfl
    | succ n =>
      obtain ⟨bs, hload, -⟩ := map_eq_some_iff.1 hword
      rw [copyStrings, if_neg (by rw [isUserPtr_of_load hload (by decide)]; decide), readU64FromUser, hword]
      simp only [Except.bind]
      obtain ⟨c, hc⟩ := hs.exists_byte
      rw [if_neg hp, if_neg (by rw [isUserPtr_of_byte hc]; decide), copyFromUser, ih]
      simp only [take_succ_cons, forall_mem_cons]
      cases hbuf : m.byte.load p copyLen with
      | none =>
        have hwindow : ¬ Window m p := by rw [Window, hbuf]; decide
        exact (if_neg fun hall => hwindow hall.1).symm
      | some buf =>
        have hwindow : Window m p := by rw [Window, hbuf]; rfl
        simp only [hwindow, true_and, take_nulTerminatedLen hs hbuf]
        split <;> rfl

/-- `argv` or `envp` as the caller passes it: a NULL pointer stands for no strings -/
def Denotes (m : UserMem) (ptr : ℕ) (args : List (ℕ × List UInt8)) : Prop := (ptr = 0 ∧ args = []) ∨
  (ptr ≠ 0 ∧ StringArray m.byte ptr args)

/-- what `do_execve` is given for the strings -/
def sent (args : List (ℕ × List UInt8)) : List (List UInt8) := (args.take 32).map fun x => toStr (x.2.take copyLen)

theorem copyVector_eq (h : Denotes m ptr args) :
    copyVector m 32 ptr = if ∀ x ∈ args.take 32, Window m x.1 then .ok (sent args) else .error .panic := by
  rcases h with ⟨rfl, rfl⟩ | ⟨hptr, harray⟩
  · rfl
  · rw [copyVector, if_neg hptr, copyStrings_eq harray]
    split
    · rw [Except.map, List.map_map]
      rfl
    · rfl

theorem Denotes.nonzero (h : Denotes m ptr args) : ∀ x ∈ args, 0 ∉ x.2 := by
  rcases h with ⟨-, rfl⟩ | ⟨-, harray⟩
  · nofun
  · induction harray with
    | nil _ => nofun
    | cons _ _ hs _ ih => exact forall_mem_cons.2 ⟨hs.nonzero, ih⟩

end Copies

theorem toStr_sub (bs : List UInt8) : toStr bs ⊆ bs ∧ (toStr bs).length ≤ bs.length := by
  rw [toStr]
  split
  · exact ⟨List.Subset.refl _, le_rfl⟩
  · exact ⟨nil_subset _, Nat.zero_le _⟩

theorem toStr_take_iff (s : List UInt8) : toStr (s.take copyLen) = s ↔ s.length ≤ copyLen ∧ isUtf8 s = true := by
  constructor
  · intro h
    have hlen : s.length ≤ copyLen := by
      have hle := (toStr_sub (s.take copyLen)).2
      rw [h, length_take] at hle
      exact hle.trans (Nat.min_le_left _ _)
    rw [take_of_length_le hlen, toStr] at h
    refine ⟨hlen, ?_⟩
    by_cases hutf : isUtf8 s = true
    · exact hutf
    · rw [if_neg hutf] at h
      rw [← h]
      rfl
  · intro h
    rw [take_of_length_le h.1, toStr, if_pos h.2]

/-- **The condition** on a vector: at most 32 strings, each of at most 256 bytes and in UTF-8 -/
def Whole (args : List (ℕ × List UInt8)) : Prop := args.length ≤ 32 ∧ ∀ x ∈ args, x.2.length ≤ copyLen ∧ isUtf8 x.2 = true

instance (args : List (ℕ × List UInt8)) : Decidable (Whole args) := inferInstanceAs (Decidable (_ ∧ _))

theorem sent_eq_iff (args : List (ℕ × List UInt8)) : sent args = args.map Prod.snd ↔ Whole args := by
  constructor
  · intro h
    have hlen : args.length ≤ 32 := by
      have hlen := congrArg length h
      rw [sent, length_map, length_map, length_take] at hlen
      omega
    rw [sent, take_of_length_le hlen] at h
    exact ⟨hlen, fun x hx => (toStr_take_iff x.2).1 (map_inj_left.1 h x hx)⟩
  · intro h
    rw [sent, take_of_length_le h.1]
    exact map_inj_left.2 fun x hx => (toStr_take_iff x.2).2 (h.2 x hx)

theorem sent_fits {args : List (ℕ × List UInt8)} (h : ∀ x ∈ args, 0 ∉ x.2) :
    (sent args).length ≤ 32 ∧ ∀ s ∈ sent args, 0 ∉ s ∧ s.length ≤ copyLen := by
  refine ⟨by rw [sent, length_map, length_take]; exact Nat.min_le_left _ _, fun s hs => ?_⟩
  obtain ⟨x, hx, rfl⟩ := mem_map.1 hs
  obtain ⟨hsub, hlen⟩ := toStr_sub (x.2.take copyLen)
  refine ⟨fun h0 => h x (mem_of_mem_take hx) (mem_of_mem_take (hsub h0)), hlen.trans ?_⟩
  rw [length_take]
  exact Nat.min_le_left _ _

/-! ## The call as a whole -/

/-- **The property.** The call fails with a negative errno, or the new stack decodes to the strings. -/
def Carried (r : Except Stop Started) (argv envp : List (List UInt8)) : Prop :=
  match r with
  | .error (.errno e) => e < 0
  | .error .panic => False
  | .ok st => Decodes st.mem st.rsp argv envp

/-- there is no file at the path, or `parse_elf` refuses it -/
def Refused (r : Except ℤ (List UInt8)) : Prop := ∀ data info, r = .ok data → parseElf data ≠ .ok info

/-- the path is no user pointer, or not UTF-8, or names no executable: or the strings are whole. Every copy that is made
before must find its 256 bytes. -/
def ExecOk (m : UserMem) (load : List UInt8 → Except ℤ (List UInt8)) (pathPtr : ℕ) (args envs : List (ℕ × List UInt8)) :
    Prop :=
  isUserPtr pathPtr 1 = false ∨ ∃ buf, m.byte.load pathPtr copyLen = some buf ∧
    (isUtf8 (buf.take (nulTerminatedLen buf)) = false ∨
      (∀ x ∈ args.take 32 ++ envs.take 32, Window m x.1) ∧ (Refused (load (buf.take (nulTerminatedLen buf))) ∨
        Whole args ∧ Whole envs))

theorem doExecve_cases {load : List UInt8 → Except ℤ (List UInt8)} {path : List UInt8}
    (hstr : ∀ s ∈ argv ++ envp, 0 ∉ s ∧ s.length ≤ copyLen)
    (hargc : argv.length ≤ maxArgv) (henvc : envp.length ≤ maxEnvp) :
    (Refused (load path) ∧ ∃ e < 0, doExecve load path argv envp = .error (.errno e)) ∨
      (¬ Refused (load path) ∧ ∃ st, doExecve load path argv envp = .ok st ∧ Mapped st.mem ∧
      Decodes st.mem st.rsp argv envp) := by
  rw [doExecve, if_neg (by omega)]
  cases hload : load path with
  | error r => exact .inl ⟨nofun, _, by split <;> decide, rfl⟩
  | ok data =>
    by_cases hdata : data.length = 0
    · obtain rfl := length_eq_zero_iff.1 hdata
      refine .inl ⟨fun _ info h => ?_, _, by decide, rfl⟩
      cases h
      nofun
    · simp only [if_neg hdata]
      cases hparse : parseElf data with
      | error e =>
        refine .inl ⟨fun _ info h => ?_, _, by decide, rfl⟩
        cases h
        rw [hparse]
        nofun
      | ok info =>
        obtain ⟨mem, rsp, hstack, hmapped, -, hdecodes⟩ := setupStack_decodes hstr hargc henvc
        exact .inr ⟨fun h => h data info rfl hparse, ⟨info, mem, rsp⟩, by rw [hstack], hmapped, hdecodes⟩

theorem doExecve_carried {load : List UInt8 → Except ℤ (List UInt8)} {path : List UInt8}
    {args envs : List (ℕ × List UInt8)}
    (hargs : ∀ x ∈ args, 0 ∉ x.2) (henvs : ∀ x ∈ envs, 0 ∉ x.2) :
    Carried (doExecve load path (sent args) (sent envs)) (args.map Prod.snd) (envs.map Prod.snd) ↔
      Refused (load path) ∨ Whole args ∧ Whole envs := by
  obtain ⟨hargc, hargv⟩ := sent_fits hargs
  obtain ⟨henvc, henvp⟩ := sent_fits henvs
  have hstr : ∀ s ∈ sent args ++ sent envs, 0 ∉ s ∧ s.length ≤ copyLen := forall_mem_append.2 ⟨hargv, henvp⟩
  obtain ⟨hrefused, e, he, hcall⟩ | ⟨haccepted, st, hcall, -, hdecodes⟩ := doExecve_cases hstr hargc henvc
  · rw [hcall]
    exact iff_of_true he (.inl hrefused)
  · rw [hcall, or_iff_right haccepted, ← sent_eq_iff, ← sent_eq_iff]
    refine ⟨hdecodes.unique, fun h => ?_⟩
    rw [h.1, h.2] at hdecodes
    exact hdecodes

/-- the copies of `sys_execve`, for any property that an errno has and a panic has not -/
theorem sysExecve_iff {P : Except Stop Started → Prop} (herrno : ∀ e < 0, P (.error (.errno e)))
    (hpanic : ¬ P (.error .panic))
    (m : UserMem) (load : List UInt8 → Except ℤ (List UInt8)) (pathPtr : ℕ) {argvPtr envpPtr : ℕ}
    {args envs : List (ℕ × List UInt8)}
    (hargv : Denotes m argvPtr args) (henvp : Denotes m envpPtr envs) :
    P (sysExecve m load pathPtr argvPtr envpPtr) ↔
      isUserPtr pathPtr 1 = false ∨ ∃ buf, m.byte.load pathPtr copyLen = some buf ∧
      (isUtf8 (buf.take (nulTerminatedLen buf)) = false ∨
        (∀ x ∈ args.take 32 ++ envs.take 32, Window m x.1) ∧
        P (doExecve load (buf.take (nulTerminatedLen buf)) (sent args) (sent envs))) := by
  rw [sysExecve]
  by_cases hpath : isUserPtr pathPtr 1 = false
  · rw [if_pos hpath]
    exact iff_of_true (herrno _ (by decide)) (.inl hpath)
  rw [if_neg hpath, or_iff_right hpath, copyFromUser]
  cases hbuf : m.byte.load pathPtr copyLen with
  | none => exact iff_of_false hpanic (by nofun)
  | some buf =>
    simp only [Except.bind, some.injEq, exists_eq_left']
    by_cases hutf : isUtf8 (buf.take (nulTerminatedLen buf)) = false
    · rw [if_pos hutf]
      exact iff_of_true (herrno _ (by decide)) (.inl hutf)
    rw [if_neg hutf, or_iff_right hutf, maxArgv, copyVector_eq hargv, maxEnvp, copyVector_eq henvp, forall_mem_append]
    by_cases hargs : ∀ x ∈ args.take 32, Window m x.1
    · by_cases henvs : ∀ x ∈ envs.take 32, Window m x.1
      · simp only [if_pos hargs, if_pos henvs]
        exact (and_iff_right ⟨hargs, henvs⟩).symm
      · simp only [if_pos hargs, if_neg henvs]
        exact iff_of_false hpanic fun h => henvs h.1.2
    · simp only [if_neg hargs]
      exact iff_of_false hpanic fun h => hargs h.1.1

/-- **The arguments of execve.** For vectors of NUL-terminated strings in the caller's memory, the new program finds
exactly these strings, or the call returns an errno, if and only if `ExecOk` holds. -/
theorem execve_args_iff (m : UserMem) (load : List UInt8 → Except ℤ (List UInt8)) (pathPtr : ℕ) {argvPtr envpPtr : ℕ}
    {args envs : List (ℕ × List UInt8)} (hargv : Denotes m argvPtr args) (henvp : Denotes m envpPtr envs) :
    Carried (sysExecve m load pathPtr argvPtr envpPtr) (args.map Prod.snd) (envs.map Prod.snd) ↔
    ExecOk m load pathPtr args envs := by
  have hiff := @sysExecve_iff (Carried · (args.map Prod.snd) (envs.map Prod.snd))
    (fun _ he => he) id m load pathPtr _ _ _ _ hargv henvp
  simp only [doExecve_carried hargv.nonzero henvp.nonzero] at hiff
  exact hiff

/-! ## Calls -/

/-- `bytes`, repeated `count` times from `addr` on -/
structure Chunk where
  addr : ℕ
  bytes : List UInt8
  count : ℕ

def Chunk.at (c : Chunk) (a : ℕ) : Option UInt8 :=
  if c.addr ≤ a ∧ a < c.addr + c.count * c.bytes.length then c.bytes[(a - c.addr) % c.bytes.length]? else none

/-- memory of `len` bytes from 0x400000 on: the path `/bin` and the chunks, zero elsewhere -/
def callerMem (len : ℕ) (h : len ≤ 8192) (chunks : List Chunk) : UserMem where
  byte a :=
    if 0x400000 ≤ a ∧ a < 0x400000 + len then some (((⟨0x400000, [47, 98, 105, 110], 1⟩ :: chunks).findSome? fun c =>
      c.at a).getD 0) else none
  user a b hb := by
    by_cases ha : 0x400000 ≤ a ∧ a < 0x400000 + len
    · simp only [userMin, UserAccess.userTop]
      omega
    · rw [if_neg ha] at hb
      cases hb

/-- every path names a bare executable -/
def bareLoad (_ : List UInt8) : Except ℤ (List UInt8) := .ok (elfFile 0x400000 [] [])

/-- argv is `ls -l`, at 0x400008, and envp `A=B`, at 0x400020 -/
def lsMem : UserMem := callerMem 512 (by decide) [⟨0x400008, bytesOf 8 0x400030, 1⟩, ⟨0x400010, bytesOf 8 0x400034, 1⟩,
  ⟨0x400020, bytesOf 8 0x400038, 1⟩, ⟨0x400030, [108, 115], 1⟩, ⟨0x400034, [45, 108], 1⟩, ⟨0x400038, [65, 61, 66], 1⟩]

/-- both vectors are on the new stack -/
theorem ls_arrives :
    ∃ st, sysExecve lsMem bareLoad 0x400000 0x400008 0x400020 = .ok st ∧ Decodes st.mem st.rsp [[108, 115], [45, 108]]
    [[65, 61, 66]] := by
  have hargv : Denotes lsMem 0x400008 [(0x400030, [108, 115]), (0x400034, [45, 108])] :=
    .inr ⟨by decide, .cons (by decide +kernel) (by decide) ⟨by decide +kernel, by decide +kernel, by decide⟩
      (.cons (by decide +kernel) (by decide) ⟨by decide +kernel, by decide +kernel, by decide⟩ (.nil (by decide +kernel)))⟩
  have henvp : Denotes lsMem 0x400020 [(0x400038, [65, 61, 66])] :=
    .inr ⟨by decide, .cons (by decide +kernel) (by decide) ⟨by decide +kernel, by decide +kernel, by decide⟩ (.nil
      (by decide +kernel))⟩
  have hbuf : (lsMem.byte.load 0x400000 copyLen).isSome = true := by decide +kernel
  obtain ⟨buf, hbuf⟩ := isSome_iff_exists.1 hbuf
  have hwindows : ∀ x ∈ ([(0x400030, [108, 115]), (0x400034, [45, 108])] : List (ℕ × List UInt8)).take 32 ++
      ([(0x400038, [65, 61, 66])] : List (ℕ × List UInt8)).take 32, Window lsMem x.1 := by decide +kernel
  have hok : ExecOk lsMem bareLoad 0x400000 [(0x400030, [108, 115]), (0x400034, [45, 108])] [(0x400038, [65, 61, 66])] :=
    .inr ⟨buf, hbuf, .inr ⟨hwindows, .inr ⟨by decide, by decide⟩⟩⟩
  have hiff := execve_args_iff lsMem bareLoad 0x400000 hargv henvp
  have hrun : (sysExecve lsMem bareLoad 0x400000 0x400008 0x400020).toOption.isSome = true := by decide +kernel
  obtain ⟨st, hst⟩ := isSome_iff_exists.1 hrun
  have hcall := ok_of_toOption hst
  rw [hcall] at hiff
  exact ⟨st, hcall, hiff.2 hok⟩

/-- thirty-three times the argument `a` -/
def manyMem : UserMem := callerMem 1024 (by decide) [⟨0x400008, bytesOf 8 0x400118, 33⟩, ⟨0x400118, [97], 1⟩]

/-- the argument is the byte 0xff -/
def byteMem : UserMem := callerMem 512 (by decide) [⟨0x400008, bytesOf 8 0x400018, 1⟩, ⟨0x400018, [255], 1⟩]

/-- the argument `a` ends the mapped memory -/
def lastMem : UserMem := callerMem 282 (by decide) [⟨0x400108, bytesOf 8 0x400118, 1⟩, ⟨0x400118, [97], 1⟩]

theorem many_denotes : Denotes manyMem 0x400008 (List.replicate 33 (0x400118, [97])) := by
  have hword : ∀ i < 33, manyMem.byte.word64 (0x400008 + 8 * i) = some 0x400118 := by decide +kernel
  have htail : ∀ n ≤ 33, StringArray manyMem.byte (0x400008 + 8 * (33 - n)) (replicate n (0x400118, [97])) := by
    intro n
    induction n with
    | zero => exact fun _ => .nil (by decide +kernel)
    | succ n ih =>
      intro hn
      have hrest := ih (by omega)
      rw [show 33 - n = 33 - (n + 1) + 1 by omega] at hrest
      exact .cons (hword _ (by omega)) (by decide) ⟨by decide +kernel, by decide +kernel, by decide⟩ hrest
  exact .inr ⟨by decide, htail 33 le_rfl⟩

/-- **What is lost.** Of 33 arguments the new image gets 32; an argument that is not UTF-8 arrives as the empty string;
an argument at the end of mapped memory panics the kernel. -/
theorem execve_drops_arguments :
    (∃ st, sysExecve manyMem bareLoad 0x400000 0x400008 0 = .ok st ∧
    Denotes manyMem 0x400008 (List.replicate 33 (0x400118, [97])) ∧
      st.mem.word64 st.rsp = some 32 ∧ ¬ Decodes st.mem st.rsp (List.replicate 33 [97]) []) ∧
    (∃ st, sysExecve byteMem bareLoad 0x400000 0x400008 0 = .ok st ∧ Denotes byteMem 0x400008 [(0x400018, [255])] ∧
      ¬ Decodes st.mem st.rsp [[255]] []) ∧
    (Denotes lastMem 0x400108 [(0x400118, [97])] ∧ sysExecve lastMem bareLoad 0x400000 0x400108 0 = .error .panic) := by
  refine ⟨?_, ?_, ?_, ?_⟩
  · have hrun : (sysExecve manyMem bareLoad 0x400000 0x400008 0).toOption.any
      (fun st => st.mem.word64 st.rsp == some 32) = true := by
      decide +kernel
    obtain ⟨st, hst, hargc⟩ := exists_of_any hrun
    have hargc := beq_iff_eq.1 hargc
    refine ⟨st, ok_of_toOption hst, many_denotes, hargc, fun h => ?_⟩
    have hcount := h.1
    rw [hargc] at hcount
    exact absurd hcount (by decide)
  · have hrun : (sysExecve byteMem bareLoad 0x400000 0x400008 0).toOption.any
        (fun st => (st.mem.word64 (st.rsp + 8)).any fun p => st.mem p == some 0) = true := by decide +kernel
    obtain ⟨st, hst, hfirst⟩ := exists_of_any hrun
    obtain ⟨p, hp, hzero⟩ := exists_of_any hfirst
    have hzero := beq_iff_eq.1 hzero
    refine ⟨st, ok_of_toOption hst, .inr ⟨by decide, .cons (by decide +kernel) (by decide)
      ⟨by decide +kernel, by decide +kernel, by decide⟩ (.nil (by decide +kernel))⟩, fun h => ?_⟩
    obtain ⟨-, ⟨xs, hxs, hmap⟩, -⟩ := h
    cases hxs with
    | nil _ => cases hmap
    | cons hword _ hs _ =>
      cases hp.symm.trans hword
      obtain ⟨rfl, -⟩ := cons.inj hmap
      have hbyte := hs.bytes 0 Nat.one_pos
      rw [Nat.add_zero, hzero] at hbyte
      exact absurd hbyte (by decide)
  · exact .inr ⟨by decide, .cons (by decide +kernel) (by decide) ⟨by decide +kernel, by decide +kernel, by decide⟩ (.nil
      (by decide +kernel))⟩
  · have hrun : (match sysExecve lastMem bareLoad 0x400000 0x400108 0 with
        | .error e => decide (e = .panic)
        | .ok _ => false) = true := by decide +kernel
    cases hcall : sysExecve lastMem bareLoad 0x400000 0x400108 0 with
    | error e =>
      rw [hcall] at hrun
      rw [of_decide_eq_true hrun]
    | ok st =>
      rw [hcall] at hrun
      cases hrun

end Rumicos.Proc.ExecArgs
