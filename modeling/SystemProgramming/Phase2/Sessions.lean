import SystemProgramming.Library.LineReader
import SystemProgramming.Phase2.Lexers

/-!
Sessions of phases 1 and 2, which share the loop of `main`. It asks `feof` before it looks
at what `fgets` has read: a last line without a newline is dropped, and a line that is too
long for the buffer is evaluated in parts.

Phase 2 is the shell of phase 1 for lines without a bar in which both find the same words,
as long as no `fork` fails.
-/

namespace SystemProgramming.Phase1

open SystemProgramming.CLib SystemProgramming.Library
open SystemProgramming.Phase2 (Call Trace own)

def MAXLINE : Nat := 8192

def newline (c : Char) : Bool := c = '\n'

/-- `builtin_command`, which is the same in both phases. -/
def builtinCommand (file : CString) (args : List CString) : List Call × Option Bool :=
  Phase2.builtinCommand file args

/-- `eval`. `forks` says whether `fork` succeeds; if not, `Fork` prints a message and returns
-1, and `if (pid > 0)` keeps the shell from waiting. -/
def eval (exec : List CString → Bool) (forks : Bool) (cmdline : CString) : Trace :=
  match argvOf cmdline with
  | [] => []
  | file :: args =>
      match builtinCommand file args with
      | (calls, some false) =>
          own [] (calls ++ [.fork]) ++
            if forks then
              own [0] (Phase2.execvpOrExit exec (file :: args) 1) ++ own [] [.waitpid]
            else own [] [.message]
      | (calls, _) => own [] calls

/-- `feof (stdin)` behind a call of `fgets` that has taken these characters. -/
def feof (taken : CString) : Bool := taken.length < MAXLINE - 1 && !taken.getLast?.any newline

/-- The string in `cmdline` behind it. -/
def cmdlineOf (taken : CString) : CString := taken.takeWhile (· ≠ '\x00')

/-- The call is the last one of its process. -/
def Ends (exec : List CString → Bool) : Call → Bool
  | .exit _ => true
  | .execvp argv => exec argv
  | _ => false

/-- The shell, the process `[]`, comes to its end. -/
def isOver (exec : List CString → Bool) (trace : Trace) : Bool :=
  trace.any fun step => step.1 = [] && Ends exec step.2

/-- The loop of `main`, with the `eval` of either phase, where no child takes from the standard
input or moves in it. -/
def mainLoop (exec : List CString → Bool) (eval : CString → Trace) (text : CString) : Trace :=
  let read := readUpTo newline (MAXLINE - 1) text
  if _h : feof read.1 = true then own [] [.exit 0]
  else
    let trace := eval (cmdlineOf read.1)
    if isOver exec trace then trace else trace ++ mainLoop exec eval read.2
termination_by text.length
decreasing_by
  refine length_readUpTo_lt newline (by decide) fun hnil => _h ?_
  change feof (readUpTo newline (MAXLINE - 1) text).1 = true
  rw [hnil]
  rfl

/-- `main`, with every `fork` succeeding. -/
def main (exec : List CString → Bool) (text : CString) : Trace :=
  mainLoop exec (eval exec true) text

/-! ### What is evaluated -/

/-- What `main` reads of a text and does not drop. -/
def inputs (text : CString) : List CString :=
  (((lines newline text).flatMap (parts (MAXLINE - 1))).filter fun part => !feof part).map cmdlineOf

/-- The evaluation of lines up to the one that ends the shell. -/
def session (exec : List CString → Bool) (eval : CString → Trace) : List CString → Trace
  | [] => own [] [.exit 0]
  | line :: more => eval line ++ if isOver exec (eval line) then [] else session exec eval more

theorem feof_take {line : CString} (hlong : MAXLINE - 1 ≤ line.length) :
    feof (line.take (MAXLINE - 1)) = false := by
  have hlen : (line.take (MAXLINE - 1)).length = MAXLINE - 1 := by
    rw [List.length_take, Nat.min_eq_left hlong]
  rw [feof, hlen, decide_eq_false (Nat.lt_irrefl _), Bool.false_and]

/-- The first line is read whole or in part. -/
theorem inputs_eq (text : CString) :
    inputs text = if feof (readUpTo newline (MAXLINE - 1) text).1 = true then [] else
      cmdlineOf (readUpTo newline (MAXLINE - 1) text).1 ::
        inputs (readUpTo newline (MAXLINE - 1) text).2 := by
  by_cases hnil : text = []
  · rw [hnil]
    rfl
  rcases Nat.lt_or_ge (MAXLINE - 1) (firstLine newline text).length with hlt | hle
  · have hwhole := feof_take hlt.le
    have hrest : (readUpTo newline (MAXLINE - 1) text).2 = text.drop (MAXLINE - 1) :=
      readUpTo_snd_of_lt newline hlt
    have hread := congrArg Prod.fst (readUpTo_eq newline (MAXLINE - 1) text)
    rw [hread, hrest, hwhole, if_neg Bool.false_ne_true, inputs, inputs,
      lines_of_ne_nil newline hnil, lines_drop newline hlt, List.flatMap_cons,
      parts_of_lt (by decide) hlt, List.cons_append, List.filter_cons, hwhole, Bool.not_false,
      if_pos rfl, List.map_cons, List.flatMap_cons]
  · rw [readUpTo_of_le newline hle]
    simp only
    have hfirst : inputs text = ((([firstLine newline text] ++
        (lines newline (afterLine newline text)).flatMap (parts (MAXLINE - 1))).filter
          fun part => !feof part).map cmdlineOf) := by
      rw [inputs, lines_of_ne_nil newline hnil, List.flatMap_cons, parts_of_le hle]
    rw [hfirst, List.singleton_append, List.filter_cons]
    cases hend : feof (firstLine newline text) with
    | false => rfl
    | true =>
        -- a line that is dropped is the last one
        have hlast : afterLine newline text = [] := by
          refine afterLine_of_not_ended newline fun c hc => ?_
          rw [feof, Bool.and_eq_true, Bool.not_eq_true', Option.any_eq_false] at hend
          simpa using hend.2 c hc
        rw [hlast]
        rfl

/-- **What is read.** `main` evaluates the lines of the text, each in parts of `MAXLINE - 1`
characters, but not a last part that neither fills the buffer nor ends with a newline. -/
theorem mainLoop_eq (exec : List CString → Bool) (eval : CString → Trace) (text : CString) :
    mainLoop exec eval text = session exec eval (inputs text) := by
  fun_induction mainLoop exec eval text with
  | case1 text read hend =>
      rw [inputs_eq, if_pos hend]
      rfl
  | case2 text read hend trace hover =>
      rw [inputs_eq, if_neg hend, session, if_pos hover, List.append_nil]
  | case3 text read hend trace hover ih =>
      rw [inputs_eq, if_neg hend, session, if_neg hover, ih]

end SystemProgramming.Phase1

namespace SystemProgramming.Phase2

open SystemProgramming.CLib

/-- `main` of phase 2, the same loop, with every `fork` and `pipe` succeeding. -/
def main (exec : List CString → Bool) (text : CString) : Trace :=
  Phase1.mainLoop exec (eval exec) text

end SystemProgramming.Phase2

namespace SystemProgramming.Phase1

open SystemProgramming.CLib SystemProgramming.Library
open SystemProgramming.Phase2 (Trace own)

/-! ### Lines that are the same to both phases -/

/-- A line of one command, with room for its words in `argv`, which phase 2 reads as phase 1
does. -/
def Shared (line : CString) : Prop :=
  '|' ∉ line ∧ (argvOf line).length < MAXARGS ∧ ∀ word ∈ argvOf line, Plain word

instance (line : CString) : Decidable (Shared line) := inferInstanceAs (Decidable (_ ∧ _))

variable (exec : List CString → Bool)

/-- Where `fork` succeeds. Phase 2 has no `if (pid > 0)` in front of its `Waitpid`. -/
theorem eval_eq {line : CString} (hline : Shared line) :
    eval exec true line = Phase2.eval exec line := by
  obtain ⟨hbar, -, hplain⟩ := hline
  rw [Phase2.eval, if_neg hbar, eval, (parselines_agree_iff line).mpr hplain]
  cases Phase2.parseline line with
  | nil => rfl
  | cons file args =>
      dsimp only [builtinCommand]
      obtain ⟨calls, returned⟩ := Phase2.builtinCommand file args
      rcases returned with _ | _ | _
      · rfl
      · exact (List.append_assoc _ _ _).symm
      · rfl

theorem session_congr {eval eval' : CString → Trace} {lines : List CString}
    (hsame : ∀ line ∈ lines, eval line = eval' line) :
    session exec eval lines = session exec eval' lines := by
  induction lines with
  | nil => rfl
  | cons line lines ih =>
      obtain ⟨hline, hmore⟩ := List.forall_mem_cons.mp hsame
      rw [session, session, hline, ih hmore]

/-- **The shell of phase 1 in phase 2.** A text without bars, whose words both phases read in
the same way, makes both shells do the same when every `fork` succeeds. -/
theorem sessions_agree {text : CString} (hshared : ∀ line ∈ inputs text, Shared line) :
    main exec text = Phase2.main exec text := by
  rw [main, Phase2.main, mainLoop_eq, mainLoop_eq]
  exact session_congr exec fun line hline => eval_eq exec (hshared line hline)

theorem sessions_agree_exit :
    main (fun _ => true) "cd /\n ls\t-l\nexit\nls".toList =
      Phase2.main (fun _ => true) "cd /\n ls\t-l\nexit\nls".toList :=
  sessions_agree _ (by decide +kernel)

end SystemProgramming.Phase1
