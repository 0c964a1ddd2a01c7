/-
The exit status of a pipeline (`execute_pipeline` of `userspace/shell/src/exec.rs`, the status words of
`userspace/liblow/src/lib.rs` and `crates/proc/src/wait.rs`).

The shell makes the pipes, forks every stage, and reaps as many children as it forked, in the order in which they exit.
Each call can fail: a failed `pipe` ends the pipeline, a failed `fork` the loop of forks, a failed `wait4` the loop of
reaps. Descriptors are left out.
-/
import Mathlib.Tactic

namespace Rumicos.Shell

/-- `encode_exit_status`: the low eight bits of the code -/
def encodeExitStatus (code : ℤ) : ℕ := (code % 256).toNat <<< 8

def wifexited (status : ℕ) : Bool := status &&& 0x7f == 0

def wexitstatus (status : ℕ) : ℕ := (status >>> 8) &&& 0xff

/-- what the kernel answers to the calls of the shell, in their order -/
structure Calls where
  pipe : ℕ → Bool
  /-- the child's pid, or a negative errno -/
  fork : ℕ → ℤ
  /-- the pid of the child that is reaped, or a negative errno -/
  wait4 : ℕ → ℤ
  /-- what the child with this pid passes to `exit` -/
  exitCode : ℤ → ℤ

/-- the pids of the stages from `i` on, up to the first failure -/
def Calls.forkStages (k : Calls) (i : ℕ) : ℕ → List ℤ
  | 0 => []
  | n + 1 => if k.fork i < 0 then [] else k.fork i :: k.forkStages (i + 1) n

/-- the reap loop from call `j` on -/
def Calls.reap (k : Calls) (lastPid : ℤ) (j lastStatus : ℕ) : ℕ → ℕ
  | 0 => lastStatus
  | n + 1 =>
    if k.wait4 j < 0 then lastStatus
    else k.reap lastPid (j + 1) (if k.wait4 j = lastPid then encodeExitStatus (k.exitCode (k.wait4 j)) else lastStatus) n

def Calls.executePipeline (k : Calls) (n : ℕ) : ℕ :=
  if n = 0 then 0
  else if (List.range (n - 1)).all k.pipe = false then 1
  else
    let pids := k.forkStages 0 n
    let lastPid := if pids.length = n then pids.getD (n - 1) 0 else -1
    let lastStatus := k.reap lastPid 0 0 pids.length
    if wifexited lastStatus then wexitstatus lastStatus else 1

/-- the exit code of the last of `n + 1` stages -/
def Calls.lastCode (k : Calls) (n : ℕ) : ℕ := (k.exitCode (k.fork n) % 256).toNat

/-- every pipe was made, and every stage started -/
def Calls.Piped (k : Calls) (n : ℕ) : Prop := ∀ i < n, k.pipe i = true

def Calls.Started (k : Calls) (n : ℕ) : Prop := ∀ i ≤ n, 0 ≤ k.fork i

/-- the calls from `j` on reap the child before one of them fails -/
def Calls.reaps (k : Calls) (pid : ℤ) (j : ℕ) : ℕ → Bool
  | 0 => false
  | n + 1 => 0 ≤ k.wait4 j && (k.wait4 j = pid || k.reaps pid (j + 1) n)

/-- 0 is success, and anything else the last stage's exit code or a failure code -/
structure Calls.Reports (k : Calls) (n result : ℕ) : Prop where
  success : result = 0 → k.Piped n ∧ k.Started n ∧ k.lastCode n = 0
  failure : result ≠ 0 → result = k.lastCode n ∨ result = 1

variable {k : Calls}

theorem wexitstatus_encode (code : ℤ) : wifexited (encodeExitStatus code) = true ∧ wexitstatus (encodeExitStatus code) =
    (code % 256).toNat := by
  have hlt : (code % 256).toNat < 256 := by omega
  unfold wifexited wexitstatus encodeExitStatus
  revert hlt
  generalize (code % 256).toNat = c
  revert c
  decide +kernel

theorem length_forkStages_iff (i n : ℕ) : (k.forkStages i n).length = n ↔ ∀ x, i ≤ x → x < i + n → 0 ≤ k.fork x := by
  fun_induction Calls.forkStages k i n <;> grind

theorem getElem?_forkStages {i n x : ℕ} {pid : ℤ} (h : (k.forkStages i n)[x]? = some pid) : pid = k.fork (i + x) := by
  fun_induction Calls.forkStages k i n generalizing x <;> grind

/-- what the reap loop ends with -/
theorem reap_eq (pid : ℤ) (j n st : ℕ) : k.reap pid j st n = if k.reaps pid j n then encodeExitStatus (k.exitCode pid)
    else st := by
  fun_induction Calls.reap k pid j st n <;> grind [Calls.reaps]

theorem not_reaps_neg {pid : ℤ} (h : pid < 0) (j n : ℕ) : k.reaps pid j n = false := by
  fun_induction Calls.reaps k pid j n <;> grind

theorem executePipeline_started {n : ℕ} (hpiped : k.Piped n) (hstarted : k.Started n) :
    k.executePipeline (n + 1) = if k.reaps (k.fork n) 0 (n + 1) then k.lastCode n else 0 := by
  have hlen : (k.forkStages 0 (n + 1)).length = n + 1 := (length_forkStages_iff 0 _).2 fun x _ hx => hstarted x (by omega)
  have hlast : (k.forkStages 0 (n + 1)).getD n 0 = k.fork n := by
    have hn := List.getElem?_eq_getElem (show n < (k.forkStages 0 (n + 1)).length by omega)
    rw [List.getD_eq_getElem?_getD, hn, getElem?_forkStages hn, Nat.zero_add]
    rfl
  have hpipes : (List.range n).all k.pipe = true := by simpa [Calls.Piped] using hpiped
  simp only [Calls.executePipeline, Nat.add_sub_cancel, hpipes, reap_eq]
  split_ifs <;> grind [wexitstatus_encode, Calls.lastCode, wexitstatus, wifexited]

theorem executePipeline_not_started {n : ℕ} (hpiped : k.Piped n) (hstarted : ¬ k.Started n) :
    k.executePipeline (n + 1) = 0 := by
  have hlen : (k.forkStages 0 (n + 1)).length ≠ n + 1 := fun h => hstarted fun x hx => (length_forkStages_iff 0 _).1 h x
    (Nat.zero_le _) (by omega)
  have hpipes : (List.range n).all k.pipe = true := by simpa [Calls.Piped] using hpiped
  simp [Calls.executePipeline, hpipes, hlen, reap_eq, not_reaps_neg, wifexited, wexitstatus]

/-- **The status of a pipeline.** Zero means success, and any other result is the last stage's exit code or a failure
code, exactly if a pipe could not be made, or every stage was started and the last one is reaped before a `wait4` fails
(or exits with 0). -/
theorem pipeline_reports_iff (k : Calls) (n : ℕ) :
    k.Reports n (k.executePipeline (n + 1)) ↔ ¬ k.Piped n ∨ k.Started n ∧
    (k.lastCode n = 0 ∨ k.reaps (k.fork n) 0 (n + 1) = true) := by
  by_cases hpiped : k.Piped n
  · by_cases hstarted : k.Started n
    · rw [executePipeline_started hpiped hstarted]
      constructor
      · intro h
        refine .inr ⟨hstarted, ?_⟩
        by_contra hnot
        rw [not_or] at hnot
        exact hnot.1 (h.success (if_neg hnot.2)).2.2
      · rintro (h | ⟨-, h⟩)
        · exact absurd hpiped h
        · constructor <;> grind
    · rw [executePipeline_not_started hpiped hstarted]
      exact ⟨fun h => absurd (h.success rfl).2.1 hstarted, fun h => (h.elim (absurd hpiped) fun h => absurd h.1 hstarted)⟩
  · have hone : k.executePipeline (n + 1) = 1 := by
      rw [Calls.executePipeline, if_neg n.succ_ne_zero, if_pos]
      simpa [Calls.Piped] using hpiped
    rw [hone]
    exact ⟨fun _ => .inl hpiped, fun _ => ⟨nofun, fun _ => .inr rfl⟩⟩

/-- **A pipeline that was not started succeeds.** The second of two stages cannot be forked. -/
theorem unstarted_pipeline_succeeds : ∃ k : Calls, k.executePipeline 2 = 0 ∧ ¬ k.Reports 1 (k.executePipeline 2) :=
  ⟨⟨fun _ => true, fun i => if i = 0 then 7 else -12, fun _ => 7,
    fun _ => 0⟩, by decide, fun h => absurd ((h.success (by decide)).2.1 1 le_rfl) (by decide)⟩

end Rumicos.Shell
