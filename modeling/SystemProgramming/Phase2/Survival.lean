import SystemProgramming.Phase2.Shell

/-!
Which lines with a `|` leave the shell alive. Every call of `run_pipe` for two
or more commands leaves all the work to children; the call for a single
command does it in place. So everything hangs on how many tokens `strtok`
finds, and it passes over empty pieces.
-/

namespace SystemProgramming.Phase2

open SystemProgramming.CLib

/-- The calls after which a process is another program, gone or somewhere else. -/
def Call.endangers : Call → Bool
  | .execvp _ | .exit _ | .chdir _ => true
  | _ => false

variable {exec : List CString → Bool} {p q : Process} {cmds : List CString} {call : Call}

@[simp] theorem mem_own {calls : List Call} : (q, call) ∈ own p calls ↔ p = q ∧ call ∈ calls := by
  simp [own, and_comm]

/-- The code of a single command ends the process, one way or another. -/
theorem exists_mem_runStage (exec : List CString → Bool) (cmd : CString) :
    ∃ call ∈ runStage exec cmd, call.endangers = true := by
  have hexecvp (argv : List CString) :
      Call.execvp argv ∈ execvpOrExit exec argv 0 := by
    rw [execvpOrExit]
    split <;> exact List.mem_cons_self
  rw [runStage]
  split
  · exact ⟨_, List.mem_cons_self, rfl⟩
  next file args hwords =>
  split
  · next calls hbuiltin =>
      refine ⟨.exit 0, ?_, rfl⟩
      revert hbuiltin
      simp only [builtinCommand]
      split
      · cases args <;> exact fun h => nomatch h
      · split
        · rintro ⟨rfl, _⟩
          exact List.mem_cons_self
        · exact fun h => nomatch h
  · exact ⟨.exit 0, List.mem_append_right _ List.mem_cons_self, rfl⟩
  · exact ⟨_, List.mem_append_right _ (hexecvp _), rfl⟩

/-- `run_pipe` works in its process and in children of it. -/
theorem prefix_of_mem_runPipe (hmem : (q, call) ∈ runPipe exec p cmds) : p <+: q := by
  induction cmds generalizing p with
  | nil => nomatch hmem
  | cons cmd cmds ih =>
      cases cmds with
      | nil =>
          rw [runPipe, mem_own] at hmem
          exact hmem.1 ▸ List.prefix_refl p
      | cons next cmds =>
          simp only [runPipe, List.mem_append, mem_own] at hmem
          rcases hmem with (((((⟨rfl, _⟩ | ⟨rfl, _⟩) | ⟨rfl, _⟩) | ⟨rfl, _⟩) | hmem) | ⟨rfl, _⟩) |
            ⟨rfl, _⟩
          · exact List.prefix_refl p
          · exact List.prefix_append p _
          · exact List.prefix_refl p
          · exact List.prefix_append p _
          · exact (List.prefix_append p [1]).trans (ih hmem)
          · exact List.prefix_append p _
          · exact List.prefix_refl p

/-- With two or more commands the process of `run_pipe` itself stays what and where it is. -/
theorem runPipe_endangers {next : CString} {cmd : CString}
    (hmem : (p, call) ∈ runPipe exec p (cmd :: next :: cmds)) : call.endangers = false := by
  have hchild (k : Nat) : p ++ [k] ≠ p := by simp
  have hnot : ¬ p ++ [1] <+: p := by
    intro hprefix
    have hlength := hprefix.length_le
    rw [List.length_append, List.length_singleton] at hlength
    omega
  simp only [runPipe, List.mem_append, mem_own, hchild, false_and, or_false] at hmem
  rcases hmem with ((⟨_, hcall⟩ | ⟨_, hcall⟩) | hmem) | ⟨_, hcall⟩
  · rcases List.mem_pair.mp hcall with rfl | rfl <;> rfl
  · rw [List.mem_singleton.mp hcall]
    rfl
  · exact absurd (prefix_of_mem_runPipe hmem) hnot
  · revert hcall call
    decide

theorem length_tokenLoop (n : Nat) (line : CString) :
    (tokenLoop n line).length = min n (pieces line).length := by
  rw [tokenLoop_eq, List.length_take]

/-- **When the shell survives a line with a `|`.** It does unless the line has exactly one
nonempty piece. -/
theorem shell_survives_iff (exec : List CString → Bool) {line : CString} (hbar : '|' ∈ line) :
    (∀ call, ([], call) ∈ eval exec line → call.endangers = false) ↔ (pieces line).length ≠ 1 := by
  have hcount := length_tokenLoop MyShell.MAXCMDS line
  rw [eval, if_pos hbar]
  match htokens : tokenLoop MyShell.MAXCMDS line with
  | [] =>
      rw [htokens, List.length_nil] at hcount
      refine iff_of_true (fun _ hmem => nomatch hmem) fun hone => ?_
      rw [hone] at hcount
      exact absurd hcount (by decide)
  | [cmd] =>
      rw [htokens, List.length_singleton] at hcount
      refine iff_of_false (fun hsafe => ?_) fun hne => hne ?_
      · obtain ⟨call, hmem, hcall⟩ := exists_mem_runStage exec cmd
        rw [hsafe call (mem_own.mpr ⟨rfl, hmem⟩)] at hcall
        exact Bool.false_ne_true hcall
      · rw [MyShell.MAXCMDS] at hcount
        omega
  | cmd :: next :: cmds =>
      rw [htokens, List.length_cons, List.length_cons] at hcount
      exact iff_of_true (fun _ => runPipe_endangers) (by omega)

theorem shell_survives_iff_ls_wc : '|' ∈ "ls | wc\n".toList ∧ ∀ call,
    ([], call) ∈ eval (fun _ => true) "ls | wc\n".toList → call.endangers = false := by
  refine ⟨by decide, (shell_survives_iff _ (by decide)).mpr fun hone => ?_⟩
  have hcount := length_tokenLoop MyShell.MAXCMDS "ls | wc\n".toList
  rw [hone] at hcount
  revert hcount
  decide

/-- `|ls`: one token, and the shell itself becomes `ls`. -/
theorem shell_lost : ¬ ∀ call, ([], call) ∈ eval (fun _ => true) "|ls\n".toList →
    call.endangers = false :=
  fun hsafe => absurd (hsafe (.execvp ["ls".toList]) (by decide)) (by decide)

end SystemProgramming.Phase2
