import SystemProgramming.Phase2.Agreement
import SystemProgramming.Phase2.PipelineTrace

/-!
The programs of a pipeline. Phase 2 starts them from a tree of processes that goes
down by one for each command, phase 3 from a loop of the shell, and neither gives
a program another descriptor than the other does. What is left of the difference is
which commands they find in a line, and that the children of phase 2 look for a
`cd` or an `exit` before they call `Execvp`.
-/

namespace SystemProgramming.Phase2

open SystemProgramming.CLib SystemProgramming.MyShell SystemProgramming.Library

/-! ### Programs -/

/-- `execvp` has been called for the command of `st`, with the descriptors of `st`. -/
def World.Execs (w : World) (st : Stage) : Prop := ∃ p, w.Ran p st ∧ (p, .execvp st.argv) ∈ w.trace

section Run

variable {exec : List CString → Bool} {own : FdTable} {cmds : List CString} {p : Process}
  {w : World} {st : Stage} {i : Nat}

/-- All descriptors of a command of phase 2, as those of a stage of phase 3. -/
theorem InOrder.get (h : InOrder own cmds w) (hran : w.Ran p st) (m : Nat) :
    st.fds.get m = stageFile own cmds.length st.i m := by
  have hi := (h.process p st hran).1
  rw [stageFile]
  rcases m with _ | _ | m
  · rw [h.input p st hran]
    rcases Nat.eq_zero_or_pos st.i with hzero | hpos
    · rw [if_pos hzero, if_neg (by omega), if_neg (by omega)]
    · rw [if_neg (by omega), if_pos ⟨rfl, hpos⟩]
  · rw [h.output p st hran]
    rcases Nat.lt_or_eq_of_le (show st.i + 1 ≤ cmds.length from hi) with hmid | hlast
    · rw [if_neg (by omega), if_neg (by omega), if_pos ⟨rfl, hmid⟩]
    · rw [if_pos hlast, if_neg (by omega), if_neg (by omega)]
  · rw [h.others p st hran _ (by omega), if_neg (by omega), if_neg (by omega)]

end Run

/-! ### The stages of phase 3 -/

/-- A launch of phase 3, by what each of its stages is. -/
structure Staged (own : FdTable) (commands : List (List CString)) (stages : List Stage) :
    Prop where
  numbered : stages.map Stage.i = List.range commands.length
  argv : stages.map Stage.argv = commands
  files : ∀ s ∈ stages, ∀ m, s.fds.get m = stageFile own commands.length s.i m

theorem Staged.mem {own : FdTable} {commands : List (List CString)} {stages : List Stage}
    (h : Staged own commands stages) {s : Stage} (hs : s ∈ stages) :
    s.i < commands.length ∧ commands[s.i]? = some s.argv := by
  have hlt : s.i < commands.length := by
    have hmem := List.mem_map_of_mem (f := Stage.i) hs
    rwa [h.numbered, List.mem_range] at hmem
  obtain ⟨k, hk, rfl⟩ := List.mem_iff_getElem.mp hs
  have hi : stages[k].i = k := by
    have hnumber := congrArg (·[k]?) h.numbered
    have hk' : k < commands.length := by rwa [← h.argv, List.length_map]
    simpa [hk, hk'] using hnumber
  refine ⟨hlt, ?_⟩
  rw [hi, ← h.argv, List.getElem?_map, List.getElem?_eq_getElem hk, Option.map_some]

section Both

variable {exec : List CString → Bool} {own : FdTable} {cmds : List CString}
  {commands : List (List CString)} {stages : List Stage} {w : World}

/-- A run of phase 2 that is over, by what each of its programs is. -/
structure Finished (own : FdTable) (cmds : List CString) (w : World) : Prop where
  order : InOrder own cmds w
  execs : ∀ p st, w.Ran p st → (w.Execs st ↔ isProgram st.argv = true)
  ran : ∀ i < cmds.length, ∃ p st, w.Ran p st ∧ st.i = i

theorem Finished.argv (h : Finished own cmds w) {p : Process} {st : Stage} (hran : w.Ran p st) :
    (cmds.map parseline)[st.i]? = some st.argv := by
  obtain ⟨hi, -, hargv⟩ := h.order.process p st hran
  rw [hargv, List.getElem?_map, List.getD_eq_getElem?_getD, List.getElem?_eq_getElem hi]
  rfl

end Both

end SystemProgramming.Phase2
