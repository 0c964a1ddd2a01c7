/-
execve of the user library, from its argv to the argv of the new program (`userspace/liblow/src/lib.rs`).

`execve` copies the path and the strings into zeroed buffers, each string into a row of 128 bytes of `arg_store`, and
gives the kernel the addresses of the rows. `args_from_stack` decodes argv from the stack pointer the new program is
entered with. The kernel copies 256 bytes from every row on, so from the last row it reads 128 bytes past `arg_store`.
-/
import Rumicos.Proc.ExecArgs

namespace Rumicos.Proc.ExecArgs

open Lib List

/-! ## The caller -/

/-- MAX_ARGV, and MAX_ARGC of the decoder -/
def libMaxArgv : ℕ := 16
def maxArgLen : ℕ := 128

/-- where the buffers of a call are -/
structure Buffers where
  pathBuf : ℕ
  argStore : ℕ
  argPtrs : ℕ
  envpNull : ℕ

/-- a row of `arg_store` -/
def Buffers.row (b : Buffers) (i : ℕ) : ℕ := b.argStore + maxArgLen * i

/-- a zeroed buffer of `n` bytes after `s` has been copied to its start -/
def buffer (n : ℕ) (s : List UInt8) : List UInt8 := s ++ List.replicate (n - s.length) 0

/-- the caller's memory at the system call -/
structure Buffers.Filled (b : Buffers) (m : UserMem) (path : List UInt8) (argv : List (List UInt8)) : Prop where
  pathBuf : m.byte.load b.pathBuf 256 = some (buffer 256 path)
  argStore : ∀ i < libMaxArgv, m.byte.load (b.row i) maxArgLen = some (buffer maxArgLen (argv.getD i []))
  argPtrs : Words m.byte b.argPtrs ((List.range argv.length).map b.row ++ List.replicate (libMaxArgv + 1 - argv.length) 0)
  envpNull : m.byte.word64 b.envpNull = some 0

def execve (m : UserMem) (load : List UInt8 → Except ℤ (List UInt8)) (b : Buffers) (path : List UInt8)
    (argv : List (List UInt8)) :
    Except Stop Started :=
  if path.length ≥ 256 then .error (.errno (-36))
  else if argv.length > libMaxArgv then .error (.errno e2Big)
  else if ∃ a ∈ argv, a.length ≥ maxArgLen then .error (.errno e2Big)
  else sysExecve m load b.pathBuf b.argPtrs b.envpNull

/-! ## The new program -/

/-- the loop of `cstr_to_str`, with `n` bytes to go; `none` is a byte that cannot be read -/
def scan (m : Mem) (p : ℕ) : ℕ → Option (List UInt8)
  | 0 => some []
  | n + 1 => (m p).bind fun c => if c = 0 then some [] else (scan m (p + 1) n).map (c :: ·)

def cstrToStr (m : Mem) (p : ℕ) : Option (List UInt8) := (scan m p maxArgLen).map toStr

/-- the loop of `args_from_stack`, with `n` pointers to go -/
def argsLoop (m : Mem) (a : ℕ) : ℕ → Option (List (List UInt8))
  | 0 => some []
  | n + 1 => (m.word64 a).bind fun p =>
    if p = 0 then some [] else (cstrToStr m p).bind fun s => (argsLoop m (a + 8) n).map (s :: ·)

def argsFromStack (m : Mem) (stack : ℕ) : Option (List (List UInt8)) :=
  if stack = 0 then some [] else (m.word64 stack).bind fun argc => argsLoop m (stack + 8) (min argc libMaxArgv)

/-- **The property.** The call fails with an errno, or the new program finds argv on its stack. -/
def Delivered (argv : List (List UInt8)) : Except Stop Started → Prop
  | .error (.errno e) => e < 0
  | .error .panic => False
  | .ok st => argsFromStack st.mem st.rsp = some argv

/-- argv as `execve` accepts it, of Rust strings without NUL -/
structure Accepted (argv : List (List UInt8)) : Prop where
  count : argv.length ≤ libMaxArgv
  each : ∀ s ∈ argv, s.length < maxArgLen ∧ isUtf8 s = true ∧ 0 ∉ s

section Decoding

variable {m : Mem} {a p : ℕ} {s : List UInt8}

theorem scan_cstring (h : CString m p s) {n : ℕ} (hn : s.length < n) : scan m p n = some s := by
  induction s generalizing p n with
  | nil =>
    obtain ⟨n, rfl⟩ := Nat.exists_eq_succ_of_ne_zero hn.ne'
    have hnul : m p = some 0 := h.nul
    simp [scan, hnul]
  | cons c s ih =>
    obtain ⟨n, rfl⟩ := Nat.exists_eq_succ_of_ne_zero (Nat.ne_zero_of_lt hn)
    have hc : m p = some c := h.bytes 0 (Nat.succ_pos _)
    obtain ⟨h0, hs⟩ := ne_and_not_mem_of_not_mem_cons h.nonzero
    have htail : CString m (p + 1) s := by
      refine ⟨fun i hi => ?_, ?_, hs⟩
      · rw [Nat.add_assoc, Nat.add_comm 1]
        exact h.bytes (i + 1) (Nat.succ_lt_succ hi)
      · rw [Nat.add_assoc, Nat.add_comm 1]
        exact h.nul
    simp [scan, hc, Ne.symm h0, ih htail (Nat.lt_of_succ_lt_succ hn)]

theorem argsLoop_eq {xs : List (ℕ × List UInt8)} (h : StringArray m a xs)
    (hx : ∀ x ∈ xs, x.2.length < maxArgLen ∧ isUtf8 x.2 = true) : argsLoop m a xs.length = some (xs.map Prod.snd) := by
  induction h with
  | nil _ => rfl
  | cons hword hp hs _ ih =>
    obtain ⟨⟨hlen, hutf⟩, hrest⟩ := forall_mem_cons.1 hx
    simp [argsLoop, hword, hp, cstrToStr, scan_cstring hs hlen, toStr, hutf, ih hrest]

end Decoding

section Call

variable {m : UserMem} {b : Buffers} {path : List UInt8} {argv : List (List UInt8)}
    {load : List UInt8 → Except ℤ (List UInt8)}

theorem argsFromStack_eq {m : Mem} {rsp : ℕ} (hargv : Accepted argv) (hm : Mapped m) (h : Decodes m rsp argv []) :
    argsFromStack m rsp = some argv := by
  obtain ⟨hargc, ⟨xs, hxs, rfl⟩, -⟩ := h
  have hrsp : rsp ≠ 0 := by
    obtain ⟨bs, hload, -⟩ := Option.map_eq_some_iff.1 hargc
    obtain ⟨hlen, hget⟩ := Mem.load_eq_some.1 hload
    have hsome : (m rsp).isSome := by
      rw [show m rsp = bs[0]? from hget 0 (by decide), getElem?_eq_getElem (by omega)]
      rfl
    have hbase := ((hm rsp).1 hsome).1
    have hpos : 0 < stackBase := by decide
    omega
  have hcount := hargv.count
  rw [length_map] at hargc hcount
  rw [argsFromStack, if_neg hrsp, hargc, Option.bind_some, Nat.min_eq_left hcount]
  exact argsLoop_eq hxs fun x hx => (hargv.each _ (mem_map_of_mem hx)).imp_right And.left

theorem doExecve_delivered (hargv : Accepted argv) : Delivered argv (doExecve load path argv []) := by
  have hcount := hargv.count
  have hstr : ∀ s ∈ argv ++ [], 0 ∉ s ∧ s.length ≤ copyLen := by
    rw [append_nil]
    exact fun s hs => ⟨(hargv.each s hs).2.2, (hargv.each s hs).1.le.trans (by decide)⟩
  obtain ⟨-, e, he, hcall⟩ | ⟨-, st, hcall, hmapped, hdecodes⟩ := @doExecve_cases argv [] load path hstr
    (hcount.trans (by decide)) (Nat.zero_le _)
  · rw [hcall]
    exact he
  · rw [hcall]
    exact argsFromStack_eq hargv hmapped hdecodes

/-- what the kernel is given for argv -/
def Buffers.args (b : Buffers) (argv : List (List UInt8)) : List (ℕ × List UInt8) :=
  ((List.range argv.length).map b.row).zip argv

theorem cstring_of_buffer {m : Mem} {a n : ℕ} {s : List UInt8} (h : m.load a n = some (buffer n s)) (hlen : s.length < n)
    (h0 : 0 ∉ s) : CString m a s := by
  obtain ⟨-, hget⟩ := Mem.load_eq_some.1 h
  refine ⟨fun i hi => ?_, ?_, h0⟩
  · rw [hget i (hi.trans hlen), buffer, getElem?_append_left hi]
  · rw [hget _ hlen, buffer, getElem?_append_right le_rfl, getElem?_replicate_of_lt (by omega)]

theorem ne_zero_of_array {a : ℕ} {xs : List (ℕ × List UInt8)} (h : StringArray m.byte a xs) : a ≠ 0 := by
  rintro rfl
  obtain ⟨v, hword⟩ : ∃ v, m.byte.word64 0 = some v := by cases h <;> exact ⟨_, ‹_›⟩
  obtain ⟨bs, hload, -⟩ := Option.map_eq_some_iff.1 hword
  exact absurd (isUserPtr_of_load hload (by decide)) (by decide)

theorem Buffers.Filled.denotes (h : b.Filled m path argv) (hargv : Accepted argv) : Denotes m b.argPtrs (b.args argv) := by
  have hstrings : List.Forall₂ (fun p s => p ≠ 0 ∧ CString m.byte p s) ((range argv.length).map b.row) argv := by
    refine forall₂_iff_get.2 ⟨by simp, fun i hi hi' => ?_⟩
    obtain ⟨hlen, -, h0⟩ := hargv.each argv[i] (getElem_mem hi')
    have hrow := h.argStore i (hi'.trans_le hargv.count)
    rw [getD_eq_getElem?_getD, getElem?_eq_getElem hi'] at hrow
    have hs := cstring_of_buffer hrow hlen h0
    obtain ⟨c, hc⟩ := hs.exists_byte
    have hmin : UserAccess.userMin ≤ b.row i := (m.user _ _ hc).1
    simp only [get_eq_getElem, getElem_map, getElem_range]
    exact ⟨by unfold UserAccess.userMin at hmin; omega, hs⟩
  have hwords := h.argPtrs
  rw [show libMaxArgv + 1 - argv.length = (libMaxArgv - argv.length) + 1 by have := hargv.count; omega] at hwords
  have harray := stringArray_of_words hwords hstrings
  exact .inr ⟨ne_zero_of_array harray, harray⟩

/-- the path as the kernel cuts it -/
def kernelPath (path : List UInt8) : List UInt8 := (buffer 256 path).take (nulTerminatedLen (buffer 256 path))

/-- **argv from program to program.** For every path and argv that `execve` accepts and every placement of its buffers,
the new program decodes the same argv, or the call fails with an errno, exactly when 256 bytes can be read from each
string's row on (or the path is not taken). -/
theorem argv_delivered_iff (load : List UInt8 → Except ℤ (List UInt8)) (hpath : path.length < 256) (hargv : Accepted argv)
    (hb : b.Filled m path argv) :
    Delivered argv (execve m load b path argv) ↔ isUtf8 (kernelPath path) = false ∨
    ∀ i < argv.length, Window m (b.row i) := by
  have hcount : argv.length ≤ 16 := hargv.count
  have hlen : (b.args argv).length = argv.length := by simp [Buffers.args]
  have hshort : ¬ ∃ a ∈ argv, a.length ≥ maxArgLen := fun ⟨a, ha, hge⟩ => absurd (hargv.each a ha).1 (not_lt.2 hge)
  have hfst : (b.args argv).map Prod.fst = (range argv.length).map b.row := map_fst_zip (by simp)
  have hsnd : (b.args argv).map Prod.snd = argv := map_snd_zip (by simp)
  have hwindows : (∀ x ∈ b.args argv, Window m x.1) ↔ ∀ i < argv.length, Window m (b.row i) := by
    rw [← forall_mem_map (f := Prod.fst), hfst]
    simp
  have hsent : sent (b.args argv) = argv := by
    refine ((sent_eq_iff _).2 ⟨by omega, fun x hx => ?_⟩).trans hsnd
    have hx := hargv.each x.2 (hsnd ▸ mem_map_of_mem hx)
    exact ⟨hx.1.le.trans (by decide), hx.2.1⟩
  have henv : Denotes m b.envpNull [] := .inr ⟨ne_zero_of_array (.nil hb.envpNull), .nil hb.envpNull⟩
  obtain ⟨c, hc, -⟩ := Option.bind_eq_some_iff.1 (show (m.byte b.pathBuf).bind _ = _ from hb.pathBuf)
  have hiff := sysExecve_iff (P := Delivered argv) (fun _ he => he) id m load b.pathBuf (hb.denotes hargv) henv
  rw [or_iff_right (by rw [isUserPtr_of_byte hc]; decide), copyLen, hb.pathBuf, hsent, take_nil, append_nil,
    take_of_length_le (by omega), hwindows] at hiff
  rw [execve, if_neg (not_le.2 hpath), if_neg (not_lt.2 hargv.count), if_neg hshort, hiff]
  simp only [Option.some.injEq, exists_eq_left']
  exact or_congr_right (and_iff_left (doExecve_delivered hargv))

end Call

/-- the caller's memory ends with `arg_store`, whose first `n` rows hold the string `a` -/
def libMem (a : List UInt8) (n : ℕ) : UserMem := callerMem 2560 (by decide)
  (⟨0x400200, buffer 128 a, n⟩ :: (List.range n).map fun i => ⟨0x400100 + 8 * i, bytesOf 8 (0x400200 + 128 * i), 1⟩)

def libBuffers : Buffers := ⟨0x400000, 0x400200, 0x400100, 0x400190⟩

/-- "ls" as each of two strings -/
theorem two_strings_delivered : ∃ m b, Delivered [[108, 115], [108, 115]]
    (execve m bareLoad b [47, 98, 105, 110] [[108, 115], [108, 115]]) := by
  have hb : libBuffers.Filled (libMem [108, 115] 2) [47, 98, 105, 110] [[108, 115], [108, 115]] :=
    ⟨by decide +kernel, by decide +kernel, by decide +kernel, by decide +kernel⟩
  have hrows : ∀ i < 2, Window (libMem [108, 115] 2) (libBuffers.row i) := by decide +kernel
  refine ⟨libMem [108, 115] 2, libBuffers, ?_⟩
  rw [argv_delivered_iff bareLoad (by decide) ⟨by decide, by decide⟩ hb]
  exact .inr hrows

/-- sixteen strings: the kernel reads past the last row, and panics -/
theorem sixteen_strings_panic : libBuffers.Filled (libMem [97] 16) [47, 98, 105, 110] (List.replicate 16 [97]) ∧
    ¬ Delivered (List.replicate 16 [97])
    (execve (libMem [97] 16) bareLoad libBuffers [47, 98, 105, 110] (List.replicate 16 [97])) := by
  refine ⟨⟨by decide +kernel, by decide +kernel, by decide +kernel, by decide +kernel⟩, ?_⟩
  have hrun : (match execve (libMem [97] 16) bareLoad libBuffers [47, 98, 105, 110] (replicate 16 [97]) with
    | .error e => decide (e = .panic)
    | .ok _ => false) = true := by decide +kernel
  cases hcall : execve (libMem [97] 16) bareLoad libBuffers [47, 98, 105, 110] (replicate 16 [97]) with
  | error e =>
    rw [hcall] at hrun
    rw [of_decide_eq_true hrun]
    exact id
  | ok st =>
    rw [hcall] at hrun
    cases hrun

end Rumicos.Proc.ExecArgs
