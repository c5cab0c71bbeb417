import SystemProgramming.MyShell.Wiring
import SystemProgramming.Phase2.Shell

/-!
The processes of a pipeline of the phase 2 shell, in any order of their steps.
`run_pipe` forks a child for the first command and one for the rest, which calls
`run_pipe` again; both set up their descriptors before they go on.

The process the pipeline is started from has no other children. What `execvp`
starts ends at some time, and nothing else ends a process from outside.
-/

namespace SystemProgramming.Phase2

open SystemProgramming.CLib SystemProgramming.MyShell SystemProgramming.Library

/-! ### Processes -/

/-- The two children of a call of `run_pipe`. -/
inductive Side
  | left
  | right
  deriving DecidableEq

/-- What a child does before it comes to its command, or to the rest of them. -/
inductive SetUp
  | dup2
  | closeRead
  | closeWrite
  deriving DecidableEq

/-- The call a process makes next. -/
inductive Point
  | enter
  | forkLeft
  | forkRight
  | closeRead
  | closeWrite
  | waitFirst
  | waitSecond
  | returned
  | setUp (side : Side) (point : SetUp)
  /-- In the code for a single command, with these calls to come. -/
  | stage (calls : List Call)
  /-- What `execvp` has started. -/
  | program
  | zombie
  | reaped
  deriving DecidableEq

/-- `cmds` and `fd` are those of the call of `run_pipe` the process is in, and `i` is the
number of the first of `cmds` in the whole pipeline. `ran` is the command the process has
come to, with the descriptors it had then. -/
structure Proc where
  fds : FdTable
  i : Nat
  cmds : List CString
  fd : Int × Int := (-1, -1)
  point : Point := .enter
  ran : Option Stage := none

namespace Proc

variable (exec : List CString → Bool)

/-- The code for a single command, which is `cmds[0]`. -/
def toStage (pr : Proc) : Proc :=
  { pr with
    point := .stage (runStage exec (pr.cmds.headD []))
    ran := some { i := pr.i, argv := parseline (pr.cmds.headD []), fds := pr.fds } }

/-- The kernel closes the descriptors of a process that ends. -/
def exits (pr : Proc) : Proc := { pr with fds := [], point := .zombie }

/-- The next call of a process and what it leaves of it, apart from `waitpid`. The process the
pipeline is started from goes on with `eval` when `run_pipe` returns. -/
def next (p : Process) (pr : Proc) : Option (List Call × Proc) :=
  match pr.point with
  | .enter =>
      match pr.cmds with
      | [] => some ([], { pr with point := .returned })
      | [_] => some ([], pr.toStage exec)
      | _ :: _ :: _ =>
          let (fd, fds) := pr.fds.pipe pr.i
          some ([.pipe], { pr with fd := fd, fds := fds, point := .forkLeft })
  | .forkLeft => some ([.fork], { pr with point := .forkRight })
  | .forkRight => some ([.fork], { pr with point := .closeRead })
  | .closeRead =>
      some ([.close .read], { pr with fds := pr.fds.close pr.fd.1, point := .closeWrite })
  | .closeWrite =>
      some ([.close .write], { pr with fds := pr.fds.close pr.fd.2, point := .waitFirst })
  | .returned => if p = [] then none else some ([.exit 0], pr.exits)
  | .setUp .left .dup2 =>
      some ([.dup2 .write 1],
        { pr with fds := pr.fds.dup2 pr.fd.2 1, point := .setUp .left .closeRead })
  | .setUp .right .dup2 =>
      some ([.dup2 .read 0],
        { pr with fds := pr.fds.dup2 pr.fd.1 0, point := .setUp .right .closeRead })
  | .setUp side .closeRead =>
      some ([.close .read],
        { pr with fds := pr.fds.close pr.fd.1, point := .setUp side .closeWrite })
  | .setUp .left .closeWrite =>
      some ([.close .write], { pr with fds := pr.fds.close pr.fd.2 }.toStage exec)
  | .setUp .right .closeWrite =>
      some ([.close .write],
        { pr with
          fds := pr.fds.close pr.fd.2
          i := pr.i + 1
          cmds := pr.cmds.tail
          point := .enter })
  | .stage (.execvp argv :: calls) =>
      some ([.execvp argv],
        { pr with point := if exec argv then .program else .stage calls })
  | .stage (.exit status :: _) => some ([.exit status], pr.exits)
  | .stage (call :: calls) => some ([call], { pr with point := .stage calls })
  | .stage [] | .waitFirst | .waitSecond | .program | .zombie | .reaped => none

/-- The child that a process forks, and its number. -/
def child (pr : Proc) : Option (Nat × Proc) :=
  match pr.point with
  | .forkLeft => some (0, { pr with point := .setUp .left .dup2 })
  | .forkRight => some (1, { pr with point := .setUp .right .dup2 })
  | _ => none

/-- What `next` does, a constructor for each of its branches. -/
inductive Branch (p : Process) (pr : Proc) : List Call → Proc → Prop
  | nothing (hpoint : pr.point = .enter) (hcmds : pr.cmds = []) :
      Branch p pr [] { pr with point := .returned }
  | single (cmd : CString) (hpoint : pr.point = .enter) (hcmds : pr.cmds = [cmd]) :
      Branch p pr [] (pr.toStage exec)
  | pipe (cmd cmd' : CString) (rest : List CString) (hpoint : pr.point = .enter)
      (hcmds : pr.cmds = cmd :: cmd' :: rest) :
      Branch p pr [.pipe] { pr with
        fd := (pr.fds.pipe pr.i).1
        fds := (pr.fds.pipe pr.i).2
        point := .forkLeft }
  | forkLeft (hpoint : pr.point = .forkLeft) : Branch p pr [.fork] { pr with point := .forkRight }
  | forkRight (hpoint : pr.point = .forkRight) : Branch p pr [.fork] { pr with point := .closeRead }
  | closeRead (hpoint : pr.point = .closeRead) :
      Branch p pr [.close .read] { pr with fds := pr.fds.close pr.fd.1, point := .closeWrite }
  | closeWrite (hpoint : pr.point = .closeWrite) :
      Branch p pr [.close .write] { pr with fds := pr.fds.close pr.fd.2, point := .waitFirst }
  | returned (hpoint : pr.point = .returned) (hp : p ≠ []) : Branch p pr [.exit 0] pr.exits
  | dupWrite (hpoint : pr.point = .setUp .left .dup2) :
      Branch p pr [.dup2 .write 1]
        { pr with fds := pr.fds.dup2 pr.fd.2 1, point := .setUp .left .closeRead }
  | dupRead (hpoint : pr.point = .setUp .right .dup2) :
      Branch p pr [.dup2 .read 0]
        { pr with fds := pr.fds.dup2 pr.fd.1 0, point := .setUp .right .closeRead }
  | childRead (side : Side) (hpoint : pr.point = .setUp side .closeRead) :
      Branch p pr [.close .read]
        { pr with fds := pr.fds.close pr.fd.1, point := .setUp side .closeWrite }
  | first (hpoint : pr.point = .setUp .left .closeWrite) :
      Branch p pr [.close .write] ({ pr with fds := pr.fds.close pr.fd.2 }.toStage exec)
  | others (hpoint : pr.point = .setUp .right .closeWrite) :
      Branch p pr [.close .write] { pr with
        fds := pr.fds.close pr.fd.2
        i := pr.i + 1
        cmds := pr.cmds.tail
        point := .enter }
  | execvp (argv : List CString) (todo : List Call)
      (hpoint : pr.point = .stage (.execvp argv :: todo)) :
      Branch p pr [.execvp argv] { pr with point := if exec argv then .program else .stage todo }
  | exit (status : Nat) (todo : List Call) (hpoint : pr.point = .stage (.exit status :: todo)) :
      Branch p pr [.exit status] pr.exits
  | call (call : Call) (todo : List Call) (hpoint : pr.point = .stage (call :: todo))
      (hexecvp : ∀ argv, call ≠ .execvp argv) (hexit : ∀ status, call ≠ .exit status) :
      Branch p pr [call] { pr with point := .stage todo }

variable {exec} in
theorem next_branch {p : Process} {pr pr' : Proc} {calls : List Call}
    (h : pr.next exec p = some (calls, pr')) : Branch exec p pr calls pr' := by
  rw [next] at h
  split at h
  case h_1 hpoint =>
    split at h <;> cases h
    · next hcmds => exact .nothing hpoint hcmds
    · next cmd hcmds => exact .single cmd hpoint hcmds
    · next cmd cmd' rest hcmds => exact .pipe cmd cmd' rest hpoint hcmds
  case h_6 hpoint =>
    split at h <;> cases h
    next hp => exact .returned hpoint hp
  all_goals cases h
  case h_2 hpoint => exact .forkLeft hpoint
  case h_3 hpoint => exact .forkRight hpoint
  case h_4 hpoint => exact .closeRead hpoint
  case h_5 hpoint => exact .closeWrite hpoint
  case h_7 hpoint => exact .dupWrite hpoint
  case h_8 hpoint => exact .dupRead hpoint
  case h_9 side hpoint => exact .childRead side hpoint
  case h_10 hpoint => exact .first hpoint
  case h_11 hpoint => exact .others hpoint
  case h_12 argv todo hpoint => exact .execvp argv todo hpoint
  case h_13 status todo hpoint => exact .exit status todo hpoint
  case h_14 call todo hexecvp hexit hpoint => exact .call call todo hpoint hexecvp hexit

theorem child_cases {pr child : Proc} {k : Nat} (h : pr.child = some (k, child)) :
    (pr.point = .forkLeft ∧ k = 0 ∧ child = { pr with point := .setUp .left .dup2 }) ∨
    (pr.point = .forkRight ∧ k = 1 ∧ child = { pr with point := .setUp .right .dup2 }) := by
  rw [Proc.child] at h
  split at h <;> cases h
  · next hpoint => exact .inl ⟨hpoint, rfl, rfl⟩
  · next hpoint => exact .inr ⟨hpoint, rfl, rfl⟩

end Proc

/-- Where a process is behind a call of `waitpid`. -/
def Point.afterWait : Point → Option Point
  | .waitFirst => some .waitSecond
  | .waitSecond => some .returned
  | _ => none

/-! ### Steps -/

/-- The processes there have been, and the calls they have made. -/
structure World where
  procs : Process → Option Proc
  trace : Trace

inductive Move
  /-- Process `p` makes its next call. -/
  | call (p : Process)
  /-- Its call of `waitpid` reports this child, or that there is none. -/
  | wait (p : Process) (child : Option Nat)
  /-- The program `p` has become ends. -/
  | ends (p : Process)
  deriving DecidableEq

/-- The world when the shell calls `run_pipe`. -/
def World.start (own : FdTable) (cmds : List CString) : World where
  procs p := if p = [] then some { fds := own, i := 0, cmds := cmds } else none
  trace := []

/-- The processes with the child that `p` forks. -/
def fork (procs : Process → Option Proc) (p : Process) (pr : Proc) : Process → Option Proc :=
  match pr.child with
  | none => procs
  | some (k, child) => Function.update procs (p ++ [k]) (some child)

/-- `p` has no child that has not been reaped. -/
def noChildren (procs : Process → Option Proc) (p : Process) : Bool :=
  [0, 1].all fun k => (procs (p ++ [k])).all fun child => child.point = .reaped

def World.step (exec : List CString → Bool) (w : World) : Move → Option World
  | .call p => do
      let pr ← w.procs p
      let (calls, pr') ← pr.next exec p
      some
        { procs := Function.update (fork w.procs p pr) p (some pr')
          trace := w.trace ++ own p calls }
  | .wait p (some k) => do
      let pr ← w.procs p
      let point ← pr.point.afterWait
      let child ← w.procs (p ++ [k])
      if child.point = .zombie then
        some
          { procs := Function.update
              (Function.update w.procs (p ++ [k]) (some { child with point := .reaped }))
              p (some { pr with point := point })
            trace := w.trace ++ own p [.waitpid] }
      else none
  | .wait p none => do
      let pr ← w.procs p
      let point ← pr.point.afterWait
      if noChildren w.procs p then
        some
          { procs := Function.update w.procs p (some { pr with point := point })
            trace := w.trace ++ own p [.waitpid, .message] }
      else none
  | .ends p => do
      let pr ← w.procs p
      if pr.point = .program then
        some { w with procs := Function.update w.procs p (some pr.exits) }
      else none

theorem fork_apply (procs : Process → Option Proc) (p : Process) (pr : Proc) (q : Process) :
    fork procs p pr q = match pr.child with
      | none => procs q
      | some (k, child) => if q = p ++ [k] then some child else procs q := by
  rw [fork]
  cases pr.child with
  | none => rfl
  | some forked => exact Function.update_apply _ _ _ _

/-- What a move does. -/
theorem World.step_cases {exec : List CString → Bool} {w w' : World} {move : Move}
    (h : w.step exec move = some w') : ∃ p pr, w.procs p = some pr ∧
      ((∃ calls pr', move = .call p ∧ pr.next exec p = some (calls, pr') ∧
        w' = ⟨Function.update (fork w.procs p pr) p (some pr'), w.trace ++ own p calls⟩) ∨
      (∃ k point child, move = .wait p (some k) ∧ pr.point.afterWait = some point ∧
        w.procs (p ++ [k]) = some child ∧ child.point = .zombie ∧
        w' = ⟨Function.update
            (Function.update w.procs (p ++ [k]) (some { child with point := .reaped }))
            p (some { pr with point := point }), w.trace ++ own p [.waitpid]⟩) ∨
      (∃ point, move = .wait p none ∧ pr.point.afterWait = some point ∧
        noChildren w.procs p = true ∧
        w' = ⟨Function.update w.procs p (some { pr with point := point }),
          w.trace ++ own p [.waitpid, .message]⟩) ∨
      (move = .ends p ∧ pr.point = .program ∧
        w' = ⟨Function.update w.procs p (some pr.exits), w.trace⟩)) := by
  match move, h with
  | .call p, h =>
      simp only [step, Option.bind_eq_bind, Option.bind_eq_some_iff, Option.some.injEq] at h
      obtain ⟨pr, hpr, ⟨calls, pr'⟩, hnext, rfl⟩ := h
      exact ⟨p, pr, hpr, .inl ⟨calls, pr', rfl, hnext, rfl⟩⟩
  | .wait p (some k), h =>
      simp only [step, Option.bind_eq_bind, Option.bind_eq_some_iff] at h
      obtain ⟨pr, hpr, point, hpoint, child, hchild, h⟩ := h
      split at h
      · next hzombie =>
          exact ⟨p, pr, hpr, .inr (.inl ⟨k, point, child, rfl, hpoint, hchild, hzombie,
            (Option.some.inj h).symm⟩)⟩
      · cases h
  | .wait p none, h =>
      simp only [step, Option.bind_eq_bind, Option.bind_eq_some_iff] at h
      obtain ⟨pr, hpr, point, hpoint, h⟩ := h
      split at h
      · next hnone =>
          exact ⟨p, pr, hpr, .inr (.inr (.inl ⟨point, rfl, hpoint, hnone,
            (Option.some.inj h).symm⟩))⟩
      · cases h
  | .ends p, h =>
      simp only [step, Option.bind_eq_bind, Option.bind_eq_some_iff] at h
      obtain ⟨pr, hpr, h⟩ := h
      split at h
      · next hprogram =>
          exact ⟨p, pr, hpr, .inr (.inr (.inr ⟨rfl, hprogram, (Option.some.inj h).symm⟩))⟩
      · cases h

end SystemProgramming.Phase2
