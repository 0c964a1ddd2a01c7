/-
The bytes of user memory that system call handlers load and store (`crates/proc/src/syscall.rs`, `wait.rs`,
`crates/fs/src/syscall.rs`, `pipe.rs`).

A handler checks a pointer with `is_user_ptr` for a length of its own choice and then copies with a routine that takes
another length. The model of a handler is the list of its accesses, in order, with its result. What a handler learns from
the rest of the kernel is in `Env`: the open files, whether a path was found, the pointers that loads return (another
thread may write the arrays meanwhile, so these are free). Handlers without user pointers have no accesses and the result
`Env.ret`. The frame of a signal handler is written after the call, at the stack pointer, and is not part of it.
-/
import Rumicos.Fs.PipeRing
import Rumicos.Fs.Ramfs
import Rumicos.Proc.Errno
import Rumicos.Proc.Signal

namespace Rumicos.Proc.UserAccess

open Fs Memory
open Signal (signalIsCatchable)

/-! ## User pointers -/

def userTop : ℕ := 0x0000800000000000
def userMin : ℕ := 4096

def isUserPtr (addr len : ℕ) : Bool :=
  if addr + len < 2 ^ 64 then decide (userMin ≤ addr) && decide (addr + len ≤ userTop) else false

inductive Dir where
  | load
  | store
deriving DecidableEq

/-- `len` bytes from `addr` on -/
structure Access where
  dir : Dir
  addr : ℕ
  len : ℕ
deriving DecidableEq

/-- the bytes lie below USER_TOP -/
def Access.Below (a : Access) : Prop := ∀ i < a.len, a.addr + i < userTop

abbrev Reply := List Access × ℤ

/-! ## Open files -/

/-- what the `read` of a file's vtable works on -/
inductive Ops where
  | ramfs (vn : VNode)
  | directory
  | null
  | zero
  /-- bytes ready at the port -/
  | serial (ready : ℕ)
  /-- bytes in the keyboard ring when it is not empty -/
  | keyboard (typed : ℕ)
  | pipeRead (ring : PipeRing) (data : PipeData)
  | pipeWrite

/-- `ops.read` into a buffer of `cap` bytes: the count -/
def Ops.read : Ops → ℕ → ℕ → ℤ
  | .ramfs vn, cap, offset => (ramfsRead vn cap offset).2
  | .directory, _, _ => eInval
  | .null, _, _ => 0
  | .zero, cap, _ => cap
  | .serial ready, cap, _ => min ready cap
  | .keyboard typed, cap, _ => min typed cap
  | .pipeRead ring data, cap, _ => (ring.readInto data cap).1.length
  | .pipeWrite, _, _ => eBadf

structure File where
  ops : Ops
  offset : ℕ
  flags : ℕ

def fdCanRead (flags : ℕ) : Bool := flags &&& 3 == 0 || flags &&& 3 == 2
def fdCanWrite (flags : ℕ) : Bool := flags &&& 3 == 1 || flags &&& 3 == 2

structure Env where
  /-- `current_process()` is not null -/
  process : Bool
  /-- the handler of the file system is registered -/
  vfs : Bool
  /-- `fd_info` -/
  file : ℤ → Option File
  /-- the bytes of the path are UTF-8 -/
  pathUtf8 : Bool
  /-- `path_lookup` -/
  pathFound : Bool
  /-- free slots of the descriptor table -/
  freeSlots : ℕ
  /-- `sys_wait4` comes to find a zombie -/
  zombie : Bool
  /-- the pointers loaded from the two arrays of `execve` -/
  argv : ℕ → ℕ
  envp : ℕ → ℕ
  /-- results that do not depend on user memory -/
  ret : ℤ

/-- `a as i32` -/
def asI32 (a : ℕ) : ℤ := if a % 2 ^ 32 < 2 ^ 31 then a % 2 ^ 32 else a % 2 ^ 32 - 2 ^ 32

/-- `a as i64` -/
def asI64 (a : ℕ) : ℤ := if a % 2 ^ 64 < 2 ^ 63 then a % 2 ^ 64 else a % 2 ^ 64 - 2 ^ 64

/-! ## Handlers of the file system -/

def sysWrite (env : Env) (fd : ℤ) (buf len : ℕ) : Reply :=
  if !isUserPtr buf len then ([], eFault)
  else
    match env.file fd with
    | none => ([], eBadf)
    | some f => if !fdCanWrite f.flags then ([], eBadf) else ([⟨.load, buf, min len 4096⟩], env.ret)

def sysRead (env : Env) (fd : ℤ) (buf len : ℕ) : Reply :=
  if !isUserPtr buf len then ([], eFault)
  else
    match env.file fd with
    | none => ([], eBadf)
    | some f =>
      if !fdCanRead f.flags then ([], eBadf)
      else
        let n := f.ops.read (min len 4096) f.offset
        if 0 < n then ([⟨.store, buf, n.toNat⟩], n) else ([], n)

def sysOpen (env : Env) (path pathLen : ℕ) : Reply :=
  let len := min pathLen 255
  if len == 0 || !isUserPtr path len then ([], eFault)
  else ([⟨.load, path, len⟩], if env.pathUtf8 then env.ret else eFault)

/-- `sys_stat`; a StatBuf has 24 bytes -/
def sysStat (env : Env) (path stat : ℕ) : Reply :=
  if !isUserPtr path 1 then ([], eFault)
  else if !isUserPtr stat 24 then ([], eFault)
  else
    let load : Access := ⟨.load, path, 255⟩
    if !env.pathUtf8 then ([load], eFault)
    else if !env.pathFound then ([load], eNoEnt)
    else ([load, ⟨.store, stat, 24⟩], 0)

def sysPipe (env : Env) (fds : ℕ) : Reply :=
  if !isUserPtr fds 8 then ([], eFault)
  else if !env.process then ([], eNoMem)
  else if env.freeSlots < 2 then ([], eMFile)
  else ([⟨.store, fds, 4⟩, ⟨.store, fds + 4, 4⟩], 0)

def fsSyscallHandler (env : Env) (nr a1 a2 a3 : ℕ) : Reply :=
  match nr with
  | 0 => sysRead env (asI32 a1) a2 a3
  | 1 => sysWrite env (asI32 a1) a2 a3
  | 2 => sysOpen env a1 a2
  | 3 => ([], env.ret)
  | 4 => sysStat env a1 a2
  | 22 => sysPipe env a1
  | _ => ([], eNoSys)

/-! ## Handlers of the process layer -/

def sysWriteDirect (fd : ℤ) (buf len : ℕ) : Reply :=
  if fd ≠ 1 ∧ fd ≠ 2 then ([], eNoSys)
  else if !isUserPtr buf len then ([], eFault)
  else ([⟨.load, buf, len⟩], len)

/-- `sys_prctl`: PR_GET_NAME copies the 16 bytes of the name -/
def sysPrctl (env : Env) (option arg2 : ℕ) : Reply :=
  if option ≠ 16 then ([], eInval)
  else if !isUserPtr arg2 16 then ([], eFault)
  else if !env.process then ([], eFault)
  else ([⟨.store, arg2, 16⟩], 0)

def sysSigaction (env : Env) (signum act oldact : ℕ) : Reply :=
  if !signalIsCatchable signum then ([], eInval)
  else if !env.process then ([], eFault)
  else if act ≠ 0 ∧ isUserPtr act 8 = false then ([], eFault)
  else
    let loads : List Access := if act ≠ 0 then [⟨.load, act, 8⟩] else []
    if oldact ≠ 0 then
      if !isUserPtr oldact 8 then (loads, eFault) else (loads ++ [⟨.store, oldact, 8⟩], 0)
    else (loads, 0)

/-- `sys_wait4`; without a zombie it returns without an access or keeps waiting -/
def sysWait4 (env : Env) (pid : ℤ) (status : ℕ) : Reply :=
  if !env.process then ([], eInval)
  else if pid < -1 then ([], eChild)
  else if !env.zombie then ([], env.ret)
  else if status ≠ 0 ∧ isUserPtr status 4 = true then ([⟨.store, status, 4⟩], env.ret)
  else ([], env.ret)

/-- the loop of `sys_execve` over argv or envp, with `left` slots left, at entry `i`: the accesses, and false for EFAULT -/
def copyStrings (base : ℕ) (ptrs : ℕ → ℕ) : ℕ → ℕ → List Access × Bool
  | 0, _ => ([], true)
  | left + 1, i =>
    if !isUserPtr (base + 8 * i) 8 then ([], false)
    else
      let load : Access := ⟨.load, base + 8 * i, 8⟩
      if ptrs i = 0 then ([load], true)
      else if !isUserPtr (ptrs i) 1 then ([load], false)
      else
        let r := copyStrings base ptrs left (i + 1)
        (load :: ⟨.load, ptrs i, 256⟩ :: r.1, r.2)

/-- an array that may be null; MAX_ARGV and MAX_ENVP are 32 -/
def copyArray (base : ℕ) (ptrs : ℕ → ℕ) : List Access × Bool :=
  if base ≠ 0 then copyStrings base ptrs 32 0 else ([], true)

def sysExecve (env : Env) (path argv envp : ℕ) : Reply :=
  if !isUserPtr path 1 then ([], eFault)
  else
    let load : Access := ⟨.load, path, 256⟩
    if !env.pathUtf8 then ([load], eNoEnt)
    else
      let args := copyArray argv env.argv
      if !args.2 then (load :: args.1, eFault)
      else
        let envs := copyArray envp env.envp
        if !envs.2 then (load :: args.1 ++ envs.1, eFault) else (load :: args.1 ++ envs.1, env.ret)

def procSyscallHandler (env : Env) (nr a1 a2 a3 : ℕ) : Reply :=
  match nr with
  | 59 => sysExecve env a1 a2 a3
  | 13 => sysSigaction env (a1 % 2 ^ 32) a2 a3
  | 157 => sysPrctl env a1 a2
  | 61 => sysWait4 env (asI64 a1) a2
  -- exit, getpid, fork, clone, kill, sigreturn, dup, dup2, mmap, munmap
  | 60 | 39 | 57 | 56 | 62 | 15 | 32 | 33 | 9 | 11 => ([], env.ret)
  | _ =>
    let r := if env.vfs then fsSyscallHandler env nr a1 a2 a3 else ([], eNoSys)
    if r.2 ≠ eNoSys then r
    else if nr = 1 then (r.1 ++ (sysWriteDirect (asI32 a1) a2 a3).1, (sysWriteDirect (asI32 a1) a2 a3).2)
    else (r.1, eNoSys)

/-! ## Checked accesses -/

/-- every byte of every access lies below USER_TOP -/
def Safe (l : List Access) : Prop := ∀ a ∈ l, a.Below

variable {addr len : ℕ}

theorem isUserPtr_iff : isUserPtr addr len = true ↔ userMin ≤ addr ∧ addr + len ≤ userTop := by
  unfold isUserPtr userTop
  split
  · simp
  · simp only [Bool.false_eq_true, false_iff]
    omega

theorem isUserPtr_eq_false : (!isUserPtr addr len) = true ↔ ¬ isUserPtr addr len = true := by simp

theorem below_iff {d : Dir} (hlen : 0 < len) : (⟨d, addr, len⟩ : Access).Below ↔ addr + len ≤ userTop := by
  constructor
  · intro h
    have := h (len - 1) (Nat.sub_lt hlen Nat.one_pos)
    dsimp only at this
    omega
  · intro h i hi
    dsimp only at hi ⊢
    omega

theorem below_of_isUserPtr {d : Dir} {n : ℕ} (h : isUserPtr addr n = true) (hle : len ≤ n) :
    (⟨d, addr, len⟩ : Access).Below := by
  intro i hi
  have := (isUserPtr_iff.1 h).2
  dsimp only at hi ⊢
  omega

theorem safe_nil : Safe [] := by simp [Safe]

theorem safe_cons {a : Access} {l : List Access} : Safe (a :: l) ↔ a.Below ∧ Safe l := by simp [Safe]

theorem safe_append {l m : List Access} : Safe (l ++ m) ↔ Safe l ∧ Safe m := by
  simp only [Safe, List.mem_append]
  exact ⟨fun h => ⟨fun a ha => h a (.inl ha), fun a ha => h a (.inr ha)⟩, fun h a ha => ha.elim (h.1 a) (h.2 a)⟩

theorem readLoop_le (vn : VNode) (toRead fuel fpos done : ℕ) (buf : Page) (h : done ≤ toRead) :
    (readLoop vn toRead fuel fpos done buf).2 ≤ toRead := by
  induction fuel generalizing fpos done buf with
  | zero => exact h
  | succ fuel ih =>
    rw [readLoop]
    split
    · split
      · exact h
      · exact ih _ _ _ (by omega)
    · exact h

/-- no `read` reports more than the buffer holds -/
theorem read_le (ops : Ops) (cap offset : ℕ) : ops.read cap offset ≤ cap := by
  cases ops with
  | ramfs vn =>
    simp only [Ops.read, ramfsRead]
    split
    · simp
    · have h := readLoop_le vn (min cap (vn.size - offset)) (min cap (vn.size - offset)) offset 0 zeroPage (Nat.zero_le _)
      omega
  | directory =>
    simp only [Ops.read, eInval]
    omega
  | null | serial ready | keyboard typed =>
    simp only [Ops.read]
    omega
  | zero => exact le_rfl
  | pipeRead ring data =>
    have h := (ring.readInto_spec data cap).2
    simp only [Ops.read]
    omega
  | pipeWrite =>
    simp only [Ops.read, eBadf]
    omega

/-! ## Handlers that copy no more than they check -/

section Handlers

variable (env : Env)

theorem safe_sysWrite (fd : ℤ) (buf len : ℕ) : Safe (sysWrite env fd buf len).1 := by
  unfold sysWrite
  split
  · exact safe_nil
  rename_i hptr
  rw [isUserPtr_eq_false, not_not] at hptr
  split
  · exact safe_nil
  split
  · exact safe_nil
  · exact safe_cons.2 ⟨below_of_isUserPtr hptr (min_le_left _ _), safe_nil⟩

theorem safe_sysRead (fd : ℤ) (buf len : ℕ) : Safe (sysRead env fd buf len).1 := by
  unfold sysRead
  split
  · exact safe_nil
  rename_i hptr
  rw [isUserPtr_eq_false, not_not] at hptr
  split
  · exact safe_nil
  rename_i f _
  split
  · exact safe_nil
  have hle := read_le f.ops (min len 4096) f.offset
  dsimp only
  split
  · exact safe_cons.2 ⟨below_of_isUserPtr hptr (by omega), safe_nil⟩
  · exact safe_nil

theorem safe_sysOpen (path pathLen : ℕ) : Safe (sysOpen env path pathLen).1 := by
  unfold sysOpen
  dsimp only
  split
  · exact safe_nil
  rename_i hptr
  rw [Bool.or_eq_true, not_or, isUserPtr_eq_false, not_not] at hptr
  exact safe_cons.2 ⟨below_of_isUserPtr hptr.2 le_rfl, safe_nil⟩

theorem safe_sysPipe (fds : ℕ) : Safe (sysPipe env fds).1 := by
  unfold sysPipe
  split
  · exact safe_nil
  rename_i hptr
  rw [isUserPtr_eq_false, not_not] at hptr
  have hend := (isUserPtr_iff.1 hptr).2
  split
  · exact safe_nil
  split
  · exact safe_nil
  · exact safe_cons.2 ⟨below_of_isUserPtr hptr (by omega), safe_cons.2 ⟨(below_iff (by omega)).2 (by omega), safe_nil⟩⟩

theorem safe_sysWriteDirect (fd : ℤ) (buf len : ℕ) : Safe (sysWriteDirect fd buf len).1 := by
  unfold sysWriteDirect
  split
  · exact safe_nil
  split
  · exact safe_nil
  rename_i hptr
  rw [isUserPtr_eq_false, not_not] at hptr
  exact safe_cons.2 ⟨below_of_isUserPtr hptr le_rfl, safe_nil⟩

theorem safe_sysPrctl (option arg2 : ℕ) : Safe (sysPrctl env option arg2).1 := by
  unfold sysPrctl
  split
  · exact safe_nil
  split
  · exact safe_nil
  rename_i hptr
  rw [isUserPtr_eq_false, not_not] at hptr
  split
  · exact safe_nil
  · exact safe_cons.2 ⟨below_of_isUserPtr hptr le_rfl, safe_nil⟩

theorem safe_sysSigaction (signum act oldact : ℕ) : Safe (sysSigaction env signum act oldact).1 := by
  unfold sysSigaction
  split
  · exact safe_nil
  split
  · exact safe_nil
  split
  · exact safe_nil
  rename_i hact
  have hloads : Safe (if act ≠ 0 then [⟨.load, act, 8⟩] else []) := by
    split
    · rename_i hne
      have hptr : isUserPtr act 8 = true := by simpa [hne] using hact
      exact safe_cons.2 ⟨below_of_isUserPtr hptr le_rfl, safe_nil⟩
    · exact safe_nil
  dsimp only
  split
  · split
    · exact hloads
    · rename_i hptr
      rw [isUserPtr_eq_false, not_not] at hptr
      exact safe_append.2 ⟨hloads, safe_cons.2 ⟨below_of_isUserPtr hptr le_rfl, safe_nil⟩⟩
  · exact hloads

theorem safe_sysWait4 (pid : ℤ) (status : ℕ) : Safe (sysWait4 env pid status).1 := by
  unfold sysWait4
  split
  · exact safe_nil
  split
  · exact safe_nil
  split
  · exact safe_nil
  split
  · rename_i h
    exact safe_cons.2 ⟨below_of_isUserPtr h.2 le_rfl, safe_nil⟩
  · exact safe_nil

end Handlers

/-! ## Handlers that copy more than they check -/

theorem safe_sysStat_iff (env : Env) (path stat : ℕ) : Safe (sysStat env path stat).1 ↔
    (isUserPtr path 1 = true → isUserPtr stat 24 = true → path + 255 ≤ userTop) := by
  unfold sysStat
  by_cases hpath : isUserPtr path 1 = true
  · by_cases hstat : isUserPtr stat 24 = true
    · have hload : (⟨.load, path, 255⟩ : Access).Below ↔ path + 255 ≤ userTop := below_iff (by decide)
      have hstore : (⟨.store, stat, 24⟩ : Access).Below := below_of_isUserPtr hstat le_rfl
      rw [if_neg (by simp [hpath]), if_neg (by simp [hstat])]
      split
      · simp [safe_cons, safe_nil, hload, hpath, hstat]
      · split <;> simp [safe_cons, safe_nil, hload, hstore, hpath, hstat]
    · simp [safe_nil, hstat]
  · simp [safe_nil, hpath]

/-- entry `j` of an array names a string -/
def Entry (base : ℕ) (ptrs : ℕ → ℕ) (j : ℕ) : Prop :=
  isUserPtr (base + 8 * j) 8 = true ∧ ptrs j ≠ 0 ∧ isUserPtr (ptrs j) 1 = true

/-- the strings up to entry 31, or the first one missing, leave room for 256 bytes -/
def StringsOk (base : ℕ) (ptrs : ℕ → ℕ) : Prop :=
  ∀ k < 32, (∀ j ≤ k, Entry base ptrs j) → ptrs k + 256 ≤ userTop

/-- the array has 32 strings, or fewer and then a null -/
def Terminated (base : ℕ) (ptrs : ℕ → ℕ) : Prop :=
  ∃ n ≤ 32, (∀ j < n, Entry base ptrs j) ∧ (n = 32 ∨ isUserPtr (base + 8 * n) 8 = true ∧ ptrs n = 0)

theorem copyStrings_entry {base : ℕ} {ptrs : ℕ → ℕ} {i : ℕ} (h : Entry base ptrs i) (left : ℕ) :
    copyStrings base ptrs (left + 1) i = (⟨.load, base + 8 * i, 8⟩ :: ⟨.load, ptrs i, 256⟩ ::
      (copyStrings base ptrs left (i + 1)).1, (copyStrings base ptrs left (i + 1)).2) := by
  rw [copyStrings, if_neg (by simp [h.1]), if_neg h.2.1, if_neg (by simp [h.2.2])]

/-- where no string is named, the pointer is loaded if it is the user's, and the loop stops -/
theorem copyStrings_stop {base : ℕ} {ptrs : ℕ → ℕ} {i : ℕ} (h : ¬ Entry base ptrs i) (left : ℕ) :
    Safe (copyStrings base ptrs (left + 1) i).1 ∧ ((copyStrings base ptrs (left + 1) i).2 = true ↔
      isUserPtr (base + 8 * i) 8 = true ∧ ptrs i = 0) := by
  rw [copyStrings]
  by_cases hptr : isUserPtr (base + 8 * i) 8 = true
  · have hload : Safe [⟨.load, base + 8 * i, 8⟩] := safe_cons.2 ⟨below_of_isUserPtr hptr le_rfl, safe_nil⟩
    rw [if_neg (by simp [hptr])]
    split
    · rename_i hnull
      exact ⟨hload, by simp [hptr, hnull]⟩
    · rename_i hnull
      have hstr : isUserPtr (ptrs i) 1 = false := by
        by_contra hstr
        exact h ⟨hptr, hnull, by simpa using hstr⟩
      rw [if_pos (by simp [hstr])]
      exact ⟨hload, by simp [hnull]⟩
  · rw [if_pos (by simp [hptr])]
    exact ⟨safe_nil, by simp [hptr]⟩

section

variable (base : ℕ) (ptrs : ℕ → ℕ)

/-- the loop is safe when the strings it comes to leave room; induction on the slots left -/
theorem safe_copyStrings_iff (left i : ℕ) : Safe (copyStrings base ptrs left i).1 ↔
    ∀ k, i ≤ k → k < i + left → (∀ j, i ≤ j → j ≤ k → Entry base ptrs j) → ptrs k + 256 ≤ userTop := by
  induction left generalizing i with
  | zero =>
    refine ⟨fun _ k hik hk => ?_, fun _ => safe_nil⟩
    omega
  | succ left ih =>
    by_cases hentry : Entry base ptrs i
    · have hload : (⟨.load, base + 8 * i, 8⟩ : Access).Below := below_of_isUserPtr hentry.1 le_rfl
      have hstr : (⟨.load, ptrs i, 256⟩ : Access).Below ↔ ptrs i + 256 ≤ userTop := below_iff (by decide)
      rw [copyStrings_entry hentry, safe_cons, safe_cons, hstr, ih]
      constructor
      · rintro ⟨-, hi, hrest⟩ k hik hk hall
        rcases Nat.eq_or_lt_of_le hik with rfl | hlt
        · exact hi
        · exact hrest k hlt (by omega) fun j hj hjk => hall j (by omega) hjk
      · intro h
        refine ⟨hload, h i le_rfl (by omega) fun j hj hji => ?_, fun k hik hk hall => ?_⟩
        · rwa [Nat.le_antisymm hji hj]
        · refine h k (by omega) (by omega) fun j hj hjk => ?_
          rcases Nat.eq_or_lt_of_le hj with rfl | hlt
          · exact hentry
          · exact hall j hlt hjk
    · refine ⟨fun _ k hik _ hall => ?_, fun _ => (copyStrings_stop hentry left).1⟩
      exact absurd (hall i le_rfl hik) hentry

theorem copyStrings_true_iff (left i : ℕ) : (copyStrings base ptrs left i).2 = true ↔
    ∃ n, i ≤ n ∧ n ≤ i + left ∧ (∀ j, i ≤ j → j < n → Entry base ptrs j) ∧
      (n = i + left ∨ isUserPtr (base + 8 * n) 8 = true ∧ ptrs n = 0) := by
  induction left generalizing i with
  | zero =>
    refine ⟨fun _ => ⟨i, le_rfl, le_rfl, fun j hj hji => ?_, .inl rfl⟩, fun _ => rfl⟩
    omega
  | succ left ih =>
    by_cases hentry : Entry base ptrs i
    · rw [copyStrings_entry hentry, ih]
      constructor
      · rintro ⟨n, hin, hn, hall, hend⟩
        refine ⟨n, by omega, by omega, fun j hj hjn => ?_, hend.imp (by omega) id⟩
        rcases Nat.eq_or_lt_of_le hj with rfl | hlt
        · exact hentry
        · exact hall j hlt hjn
      · rintro ⟨n, hin, hn, hall, hend⟩
        have hne : n ≠ i := by
          rintro rfl
          rcases hend with hend | hend
          · omega
          · exact hentry.2.1 hend.2
        exact ⟨n, by omega, by omega, fun j hj hjn => hall j (by omega) hjn, hend.imp (by omega) id⟩
    · rw [(copyStrings_stop hentry left).2]
      constructor
      · intro hnull
        refine ⟨i, le_rfl, by omega, fun j hj hji => ?_, .inr hnull⟩
        omega
      · rintro ⟨n, hin, hn, hall, hend⟩
        rcases Nat.eq_or_lt_of_le hin with rfl | hlt
        · exact hend.resolve_left (by omega)
        · exact absurd (hall i le_rfl hlt) hentry

theorem safe_copyArray_iff :
    Safe (copyArray base ptrs).1 ↔ (base ≠ 0 → StringsOk base ptrs) := by
  unfold copyArray StringsOk
  split
  · rename_i hne
    rw [safe_copyStrings_iff]
    simp [hne]
  · rename_i hzero
    simp [safe_nil, hzero]

theorem copyArray_true_iff :
    (copyArray base ptrs).2 = true ↔ (base ≠ 0 → Terminated base ptrs) := by
  unfold copyArray Terminated
  split
  · rename_i hne
    rw [copyStrings_true_iff]
    simp [hne]
  · rename_i hzero
    simp [hzero]

end

/-- the path and every string that `execve` comes to leave room for 256 bytes -/
def ExecveOk (env : Env) (path argv envp : ℕ) : Prop :=
  isUserPtr path 1 = true → path + 256 ≤ userTop ∧ (env.pathUtf8 = true →
    (argv ≠ 0 → StringsOk argv env.argv) ∧
      ((argv ≠ 0 → Terminated argv env.argv) → envp ≠ 0 → StringsOk envp env.envp))

theorem safe_sysExecve_iff (env : Env) (path argv envp : ℕ) :
    Safe (sysExecve env path argv envp).1 ↔ ExecveOk env path argv envp := by
  unfold sysExecve ExecveOk
  by_cases hpath : isUserPtr path 1 = true
  · have hload : (⟨.load, path, 256⟩ : Access).Below ↔ path + 256 ≤ userTop := below_iff (by decide)
    rw [if_neg (by simp [hpath]), ← safe_copyArray_iff argv, ← copyArray_true_iff, ← safe_copyArray_iff envp]
    dsimp only
    split
    · rename_i hutf8
      simp only [Bool.not_eq_true'] at hutf8
      simp [safe_cons, safe_nil, hload, hpath, hutf8]
    · rename_i hutf8
      have hutf8 : env.pathUtf8 = true := by simpa using hutf8
      split
      · rename_i hargs
        have hargs : (copyArray argv env.argv).2 = false := by simpa using hargs
        simp [safe_cons, hload, hpath, hutf8, hargs]
      · rename_i hargs
        have hargs : (copyArray argv env.argv).2 = true := by simpa using hargs
        split <;> simp [safe_cons, safe_append, hload, hpath, hutf8, hargs]
  · simp [safe_nil, hpath]

/-! ## All system calls -/

/-- the path of stat leaves room for 255 bytes -/
def StatOk (env : Env) (path stat : ℕ) : Prop :=
  env.vfs = true → isUserPtr path 1 = true → isUserPtr stat 24 = true → path + 255 ≤ userTop

/-- only execve (59) and stat (4) ask for anything -/
def CallOk (env : Env) (nr a1 a2 a3 : ℕ) : Prop :=
  (nr = 59 → ExecveOk env a1 a2 a3) ∧ (nr = 4 → StatOk env a1 a2)

theorem safe_fsSyscallHandler_iff (env : Env) (nr a1 a2 a3 : ℕ) : Safe (fsSyscallHandler env nr a1 a2 a3).1 ↔
    (nr = 4 → isUserPtr a1 1 = true → isUserPtr a2 24 = true → a1 + 255 ≤ userTop) := by
  unfold fsSyscallHandler
  split
  · simp [safe_sysRead]
  · simp [safe_sysWrite]
  · simp [safe_sysOpen]
  · simp [safe_nil]
  · simp [safe_sysStat_iff]
  · simp [safe_sysPipe]
  · simp only [safe_nil, true_iff]
    intro hnr
    contradiction

theorem safe_chain_iff (env : Env) {nr : ℕ} (a1 a2 a3 : ℕ) (hnr : nr ≠ 59) (r : Reply)
    (hr : r = if env.vfs then fsSyscallHandler env nr a1 a2 a3 else ([], eNoSys)) :
    Safe (if r.2 ≠ eNoSys then r
      else if nr = 1 then (r.1 ++ (sysWriteDirect (asI32 a1) a2 a3).1, (sysWriteDirect (asI32 a1) a2 a3).2)
      else (r.1, eNoSys)).1 ↔ CallOk env nr a1 a2 a3 := by
  have hfirst : Safe r.1 ↔ CallOk env nr a1 a2 a3 := by
    unfold CallOk StatOk
    rw [hr]
    split
    · rename_i hvfs
      rw [safe_fsSyscallHandler_iff]
      simp [hvfs, hnr]
    · rename_i hvfs
      simp [safe_nil, hvfs, hnr]
  split
  · exact hfirst
  · split
    · rw [safe_append, hfirst]
      simp [safe_sysWriteDirect]
    · exact hfirst

/-- **User memory.** For every call number, all arguments and every state of the rest of the kernel, the bytes that the
handler loads and stores at user pointers lie below USER_TOP exactly when `CallOk` holds. -/
theorem user_access_iff (env : Env) (nr a1 a2 a3 : ℕ) :
    Safe (procSyscallHandler env nr a1 a2 a3).1 ↔ CallOk env nr a1 a2 a3 := by
  unfold procSyscallHandler
  split
  · simp [safe_sysExecve_iff, CallOk]
  · simp [safe_sysSigaction, CallOk]
  · simp [safe_sysPrctl, CallOk]
  · simp [safe_sysWait4, CallOk]
  -- the calls without user pointers, and the file system
  all_goals first
    | exact safe_chain_iff env a1 a2 a3 (by assumption) _ rfl
    | simp [safe_nil, CallOk]

/-- a kernel with a file system and no open files -/
def plainEnv : Env := ⟨true, true, fun _ => none, true, true, 64, false, fun _ => 0, fun _ => 0, 0⟩

/-- **A path at the top of user memory.** stat of a path that starts one byte below USER_TOP loads the byte at
USER_TOP. -/
theorem stat_above_top : (procSyscallHandler plainEnv 4 (userTop - 1) 4096 0).1 =
    [⟨.load, userTop - 1, 255⟩, ⟨.store, 4096, 24⟩] ∧ ¬ Safe (procSyscallHandler plainEnv 4 (userTop - 1) 4096 0).1 := by
  have hrun : (procSyscallHandler plainEnv 4 (userTop - 1) 4096 0).1 =
      [⟨.load, userTop - 1, 255⟩, ⟨.store, 4096, 24⟩] := by decide
  refine ⟨hrun, fun h => ?_⟩
  rw [hrun, safe_cons] at h
  exact absurd (h.1 1 (by decide)) (by decide)

end Rumicos.Proc.UserAccess
