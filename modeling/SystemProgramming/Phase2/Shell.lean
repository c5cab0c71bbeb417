import SystemProgramming.Library.Splitting
import SystemProgramming.MyShell.Lexer

/-!
The shell of phase 2: `eval` cuts a line with a `|` by `strtok` and gives the
pieces to `run_pipe`, which forks a child for the first of them and one for
the rest. What a piece of code does is written down as the system calls that
matter here, each with the process that makes it. `fork` and `pipe` succeed;
`exec` says for which argument vectors `execvp` does.
-/

namespace SystemProgramming.Phase2

open SystemProgramming.CLib SystemProgramming.MyShell

/-! ### Reading a line -/

/-- `strtok`: the next token, and the text behind the character that ended it. -/
def strtok (delim : Char) (s : CString) : Option (CString × CString) :=
  match s.dropWhile (· = delim) with
  | [] => none
  | c :: t => some ((c :: t).takeWhile (· ≠ delim), ((c :: t).dropWhile (· ≠ delim)).drop 1)

/-- The loop of `eval` that fills `cmds`, with room for `fuel` more. -/
def tokenLoop : Nat → CString → List CString
  | 0, _ => []
  | fuel + 1, rest =>
      match strtok '|' rest with
      | none => []
      | some (token, rest) => token :: tokenLoop fuel rest

/-- The loop of `parseline`. It scans words as `parseline` of phase 3 does, but does not
look whether there is room in `argv`. -/
def parselineLoop : Nat → CString → List CString → List CString
  | 0, _, argv => argv
  | fuel + 1, p, argv =>
      match p.dropWhile isspace with
      | [] => argv
      | c :: p => parselineLoop fuel (wordAt c p).2 (argv ++ [(wordAt c p).1])

def parseline (buf : CString) : List CString :=
  parselineLoop (cutNewline buf).length (cutNewline buf) []

/-- The argument vectors of the commands that `eval` finds in a line. -/
def argvs (line : CString) : List (List CString) :=
  if '|' ∈ line then (tokenLoop MAXCMDS line).map parseline else [parseline line]

/-! ### Running it -/

/-- A process, by the forks that lead to it from the shell, which is `[]`. -/
abbrev Process := List Nat

inductive PipeEnd
  | read
  | write
  deriving DecidableEq

inductive Call
  | pipe
  | fork
  | dup2 (fd : PipeEnd) (standard : Nat)
  | close (fd : PipeEnd)
  | waitpid
  | chdir (dir : CString)
  | execvp (argv : List CString)
  | exit (status : Nat)
  | message
  deriving DecidableEq

abbrev Trace := List (Process × Call)

def own (p : Process) (calls : List Call) : Trace := calls.map fun call => (p, call)

/-- `builtin_command`: the calls it makes and what it returns, `none` when it does not. -/
def builtinCommand (file : CString) (args : List CString) : List Call × Option Bool :=
  if file = ['c', 'd'] then
    match args with
    | [] => ([.message], some true)
    | dir :: _ => ([.chdir dir], some true)
  else if file = ['e', 'x', 'i', 't'] then ([.exit 0], none)
  else ([], some false)

variable (exec : List CString → Bool)

/-- `Execvp`, and `exit` in case it returns. -/
def execvpOrExit (argv : List CString) (status : Nat) : List Call :=
  if exec argv then [.execvp argv] else [.execvp argv, .message, .exit status]

/-- What `run_pipe` does for a single command, in whatever process it is in. -/
def runStage (cmd : CString) : List Call :=
  match parseline cmd with
  | [] => [.exit 0]
  | file :: args =>
      match builtinCommand file args with
      | (calls, none) => calls
      | (calls, some true) => calls ++ [.exit 0]
      | (calls, some false) => calls ++ execvpOrExit exec (file :: args) 0

/-- `run_pipe`. It returns unless there is a single command. -/
def runPipe (p : Process) : List CString → Trace
  | [] => []
  | [cmd] => own p (runStage exec cmd)
  | cmd :: next :: cmds =>
      own p [.pipe, .fork] ++
      own (p ++ [0]) ([.dup2 .write 1, .close .read, .close .write] ++ runStage exec cmd) ++
      own p [.fork] ++
      own (p ++ [1]) [.dup2 .read 0, .close .read, .close .write] ++
      runPipe (p ++ [1]) (next :: cmds) ++
      own (p ++ [1]) (if cmds = [] then [] else [.exit 0]) ++
      own p [.close .read, .close .write, .waitpid, .waitpid]

/-- `eval`. -/
def eval (cmdline : CString) : Trace :=
  if '|' ∈ cmdline then runPipe exec [] (tokenLoop MAXCMDS cmdline)
  else
    match parseline cmdline with
    | [] => []
    | file :: args =>
        match builtinCommand file args with
        | (calls, some false) =>
            own [] (calls ++ [.fork]) ++ own [0] (execvpOrExit exec (file :: args) 1) ++
              own [] [.waitpid]
        | (calls, _) => own [] calls

/-! ### The tokens of a line -/

/-- The nonempty pieces of a line between its bars. -/
def pieces (line : CString) : List CString := (line.splitOn '|').filter fun piece => !piece.isEmpty

theorem pieces_eq_tokens (s : CString) : pieces s = Library.tokens (· = '|') s := by
  rw [pieces, List.splitOn_eq_splitOnP]
  rfl

theorem pieces_strtok (s : CString) :
    pieces s = match strtok '|' s with
      | none => []
      | some (token, rest) => token :: pieces rest := by
  rw [pieces_eq_tokens, strtok]
  cases hdrop : s.dropWhile (· = '|') with
  | nil => exact Library.tokens_of_nil hdrop
  | cons c t =>
      rw [Library.tokens_of_cons hdrop]
      simp only [pieces_eq_tokens, decide_not]

/-- `eval` finds the nonempty pieces, as far as there is room. -/
theorem tokenLoop_eq (n : Nat) (s : CString) : tokenLoop n s = (pieces s).take n := by
  induction n generalizing s with
  | zero => rfl
  | succ n ih =>
      rw [tokenLoop, pieces_strtok]
      cases strtok '|' s with
      | none => rfl
      | some found => exact congrArg _ (ih _)

end SystemProgramming.Phase2
