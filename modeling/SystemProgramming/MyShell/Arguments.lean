import SystemProgramming.MyShell.ExecFailure
import SystemProgramming.MyShell.Transitions
import SystemProgramming.Phase2.Words

/-!
What becomes of the words of a line. `parseline` stops when `argv` is full, and
neither `eval` nor `launch_pipeline` looks whether there was more to read.
-/

namespace SystemProgramming.MyShell

open SystemProgramming.CLib
open SystemProgramming.Phase2 (words myShell_parseline_take manyWords length_words_manyWords)

/-- `eval` of the line hands `argv` for the stage `segment` to a builtin, or some process of
the launch hands it to `Execvp`. A call of `Execvp` that fails is given what the same call is
given when it succeeds. -/
inductive HandsOver (line : CString) (segment : CString) (argv : List CString) : Prop
  | builtin (bg : Bool) (cmd : CString) (args : List CString) (action : Action) :
      parseLine line = some ([segment], bg) → parseline segment = cmd :: args →
      builtinCommand cmd args = some action → argv = cmd :: args → HandsOver line segment argv
  | execvp (segments : List CString) (bg : Bool) (cmdline : CString) (execFails : Nat → Bool)
      (pidOf : List Nat → Pid) (fds fds' : FdTable) (pids : Nat → Int) (proc : List Nat)
      (i : Nat) : eval line = .launch segments bg cmdline → segments[i]? = some segment →
      .execs proc i argv fds' ∈
        (launchTrace execFails pidOf segments [] fds (.enter segments bg cmdline pids)).ends →
      HandsOver line segment argv

/-- Every stage is handed all the words of its text in order. -/
def ArgumentsKept (line : CString) : Prop :=
  ∀ segment argv, HandsOver line segment argv → (words segment).Sublist argv

variable {line segment cmdline : CString} {segments argv : List CString} {bg : Bool}

/-- The stages of a launch are handed what `parseline` makes of their segments. -/
theorem launchTrace_execs (execFails : Nat → Bool) (pidOf : List Nat → Pid)
    {rest : List CString} {proc proc' : List Nat} {fds fds' : FdTable} {f : LaunchFrame} {i : Nat}
    (hmem : .execs proc' i argv fds' ∈ (launchTrace execFails pidOf rest proc fds f).ends) :
    ∃ k segment, i = f.i + k ∧ rest[k]? = some segment ∧ argv = parseline segment := by
  induction rest generalizing proc fds f with
  | nil => simp [launchTrace] at hmem
  | cons segment rest ih =>
      have hlater {proc : List Nat} {fds : FdTable} {f' : LaunchFrame} (hi : f'.i = f.i + 1)
          (hmem : .execs proc' i argv fds' ∈
            (launchTrace execFails pidOf rest proc fds f').ends) :
          ∃ k s, i = f.i + k ∧ (segment :: rest)[k]? = some s ∧ argv = parseline s := by
        obtain ⟨k, s, hk, hs, hargv⟩ := ih hmem
        exact ⟨k + 1, s, by omega, hs, hargv⟩
      simp only [launchTrace] at hmem
      split at hmem
      · exact hlater rfl hmem
      · rcases List.mem_append.mp hmem with hmem | hmem
        · split at hmem
          -- a child that falls out of its branch goes on with the next stage
          · exact hlater (by simp) hmem
          · simp only [List.mem_singleton, ProcEnd.execs.injEq] at hmem
            exact ⟨0, segment, hmem.2.1, rfl, hmem.2.2.1⟩
        · exact hlater (by simp) hmem

theorem HandsOver.eq (h : HandsOver line segment argv) :
    argv = parseline segment ∧
      ∃ segments bg, parseLine line = some (segments, bg) ∧ segment ∈ segments := by
  cases h with
  | builtin bg cmd args action hparse hargv _ heq =>
      exact ⟨heq.trans hargv.symm, _, bg, hparse, List.mem_singleton_self segment⟩
  | execvp segments bg cmdline execFails pidOf fds fds' pids proc i heval hi hmem =>
      obtain ⟨k, s, hik, hs, hargv⟩ := launchTrace_execs execFails pidOf hmem
      obtain rfl : i = k := hik.trans (Nat.zero_add k)
      obtain rfl := Option.some.inj (hi.symm.trans hs)
      exact ⟨hargv, segments, bg, (eval_launch heval).1, List.mem_of_getElem? hi⟩

/-- Every stage that is launched is handed over. -/
theorem handsOver_of_launch (heval : eval line = .launch segments bg cmdline)
    (hmem : segment ∈ segments) : ∃ argv, HandsOver line segment argv := by
  have hrun := (parseLine_runnable (eval_launch heval).1).1
  obtain ⟨i, hi, hsegment⟩ := List.mem_iff_getElem.mp hmem
  obtain ⟨-, hexecs, -⟩ := launchTrace_contained (fun _ => false) (fun _ => ⟨1, by decide⟩) hrun []
    [] (.enter segments bg cmdline fun _ => 0) fun _ _ => rfl
  obtain ⟨argv, fds', hexec⟩ := hexecs i (by simpa [LaunchFrame.enter] using hi)
  exact ⟨argv, .execvp segments bg cmdline _ _ _ fds' _ _ i heval
    (List.getElem?_eq_some_iff.mpr ⟨hi, hsegment⟩) hexec⟩

/-- Every segment of an accepted line is handed over. -/
theorem exists_handsOver (hparse : parseLine line = some (segments, bg))
    (hmem : segment ∈ segments) : ∃ argv, HandsOver line segment argv := by
  cases segments with
  | nil => nomatch hmem
  | cons first rest =>
      cases rest with
      | nil =>
          obtain rfl := List.mem_singleton.mp hmem
          obtain ⟨cmd, args, hargv⟩ := List.exists_cons_of_ne_nil
            ((parseLine_runnable hparse).1 segment List.mem_cons_self)
          cases hbuiltin : builtinCommand cmd args with
          | some action => exact ⟨_, .builtin bg cmd args action hparse hargv hbuiltin rfl⟩
          | none =>
              have hlaunch : eval line = .launch [segment] bg (normalizeJobcmd line) := by
                simp only [eval, hparse, hargv, hbuiltin, Option.getD_none]
              exact handsOver_of_launch hlaunch hmem
      | cons second rest =>
          have hlaunch : eval line =
              .launch (first :: second :: rest) bg (normalizeJobcmd line) := by
            simp only [eval, hparse]
          exact handsOver_of_launch hlaunch hmem

/-- A segment that is handed over whole has room in `argv`. -/
theorem length_words_le (hkept : ArgumentsKept line) (hparse : parseLine line = some (segments, bg))
    (hmem : segment ∈ segments) : (words segment).length ≤ MAXARGS - 1 := by
  obtain ⟨argv, hhands⟩ := exists_handsOver hparse hmem
  have hle := (hkept segment argv hhands).length_le
  rw [hhands.eq.1, myShell_parseline_take, cutNewline_segment hparse hmem, List.length_take] at hle
  omega

/-- **When no argument is dropped.** -/
theorem arguments_kept_iff (line : CString) :
    ArgumentsKept line ↔ ∀ segments bg, parseLine line = some (segments, bg) →
      ∀ segment ∈ segments, (words segment).length ≤ MAXARGS - 1 := by
  constructor
  · intro hkept segments bg hparse segment hmem
    exact length_words_le hkept hparse hmem
  · intro hroom segment argv hhands
    obtain ⟨rfl, segments, bg, hparse, hmem⟩ := hhands.eq
    rw [myShell_parseline_take, cutNewline_segment hparse hmem,
      List.take_of_length_le (hroom segments bg hparse segment hmem)]

/-- Of 128 words the last one is dropped. -/
theorem arguments_not_kept : ¬ ∀ line : CString, line.length < MAXLINE → ArgumentsKept line := by
  intro h
  have hparse : parseLine (manyWords 127 ++ ['\n']) = some ([manyWords 127], false) := by
    decide +kernel
  have hlong := length_words_le (h (manyWords 127 ++ ['\n']) (by decide +kernel)) hparse
    List.mem_cons_self
  rw [length_words_manyWords] at hlong
  exact absurd hlong (by decide)

end SystemProgramming.MyShell
