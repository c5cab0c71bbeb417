import SystemProgramming.MyShell.Jobs

/-!
`launch_pipeline`, seen from inside one process. The loop works on its local
variables (`LaunchFrame`) and on the descriptor table of the process that runs
it; what `pipe` and `fork` return comes from outside.

The same code is run by the shell and, behind a failed `execvp`, by a child:
`Execvp` returns then, and the child goes on with the code of its parent.
`LaunchTrace` collects what all these processes do; `launchPipeline` is the
run of the shell alone, with `pipe` and `fork` allowed to fail.
-/

namespace SystemProgramming.MyShell

open SystemProgramming.CLib

/-- The arguments and local variables of `launch_pipeline`. The array `pids` is not
initialised: `pids` holds whatever was on the stack. -/
structure LaunchFrame where
  segments : List CString
  bg : Bool
  cmdline : CString
  pids : Nat → Int
  prevRead : Int := -1
  pgid : Int := 0
  i : Nat := 0

def LaunchFrame.nseg (f : LaunchFrame) : Nat := f.segments.length

/-- The frame `launch_pipeline` enters its loop with. -/
def LaunchFrame.enter (segments : List CString) (bg : Bool) (cmdline : CString)
    (pids : Nat → Int) : LaunchFrame :=
  { segments := segments, bg := bg, cmdline := cmdline, pids := pids }

/-- `if (i < nseg - 1 && Pipe (fd) < 0)`, when the call succeeds or is not made. -/
def openPipe (fds : FdTable) (f : LaunchFrame) : (Int × Int) × FdTable :=
  if f.i + 1 < f.nseg then fds.pipe f.i else ((-1, -1), fds)

/-- The branch `pid == 0` up to the call of `Execvp`, in the child `self`. -/
def childBranch (fds : FdTable) (f : LaunchFrame) (fd : Int × Int) (self : Int) :
    FdTable × LaunchFrame :=
  let pgid := if f.pgid = 0 then self else f.pgid
  let fds := if f.prevRead ≠ -1 then fds.dup2 f.prevRead 0 else fds
  let fds := if f.i + 1 < f.nseg then fds.dup2 fd.2 1 else fds
  let fds := if f.prevRead ≠ -1 then fds.close f.prevRead else fds
  let fds := if f.i + 1 < f.nseg then (fds.close fd.1).close fd.2 else fds
  (fds, { f with pgid := pgid })

/-- The rest of the loop body behind that branch, `i++` included, with `pid` what
`Fork` returned. -/
def afterFork (fds : FdTable) (f : LaunchFrame) (fd : Int × Int) (pid : Int) :
    FdTable × LaunchFrame :=
  let pgid := if f.pgid = 0 then pid else f.pgid
  let fds := if f.prevRead ≠ -1 then fds.close f.prevRead else fds
  let pids := Function.update f.pids f.i pid
  if f.i + 1 < f.nseg then
    (fds.close fd.2, { f with pgid := pgid, pids := pids, prevRead := fd.1, i := f.i + 1 })
  else
    (fds, { f with pgid := pgid, pids := pids, prevRead := -1, i := f.i + 1 })

/-- `if (argv[0] == NULL) continue;` -/
def LaunchFrame.skip (f : LaunchFrame) : LaunchFrame := { f with i := f.i + 1 }

section Fields

variable (fds : FdTable) (f : LaunchFrame) (fd : Int × Int) (pid : Int)

@[simp] theorem childBranch_i : (childBranch fds f fd pid).2.i = f.i := rfl

@[simp] theorem afterFork_i : (afterFork fds f fd pid).2.i = f.i + 1 := by
  simp only [afterFork]
  split <;> rfl

@[simp] theorem afterFork_nseg : (afterFork fds f fd pid).2.nseg = f.nseg := by
  simp only [afterFork]
  split <;> rfl

@[simp] theorem afterFork_pgid :
    (afterFork fds f fd pid).2.pgid = if f.pgid = 0 then pid else f.pgid := by
  simp only [afterFork]
  split <;> rfl

@[simp] theorem afterFork_pids :
    (afterFork fds f fd pid).2.pids = Function.update f.pids f.i pid := by
  simp only [afterFork]
  split <;> rfl

end Fields

/-! ### The processes of one launch

`fork` and `pipe` succeed here, and `execFails i` says whether `execvp` fails
for stage `i`. A process is named by the stages at which it and its ancestors
were forked, the original shell by the empty list. -/

inductive ProcEnd
  /-- The child of stage `i` turned into its command. -/
  | execs (proc : List Nat) (i : Nat) (argv : List CString) (fds : FdTable)
  /-- The process left the loop and runs on with `add_job`, `wait_for_foreground`
  and, in the end, the prompt loop. -/
  | leaves (proc : List Nat) (fds : FdTable) (f : LaunchFrame)

def ProcEnd.isLeaves : ProcEnd → Bool
  | .execs .. => false
  | .leaves .. => true

/-- The calls of `fork`, each with the process that made it and its stage, and how
each process ended. -/
structure LaunchTrace where
  forks : List (List Nat × Nat)
  ends : List ProcEnd

/-- The loop over the segments from stage `f.i` on, run by the process `proc` and
by every child that falls out of its branch. -/
def launchTrace (execFails : Nat → Bool) (pidOf : List Nat → Pid) :
    List CString → List Nat → FdTable → LaunchFrame → LaunchTrace
  | [], proc, fds, f => ⟨[], [.leaves proc fds f]⟩
  | segment :: rest, proc, fds, f =>
      let argv := parseline segment
      if argv = [] then launchTrace execFails pidOf rest proc fds f.skip
      else
        let (fd, fds) := openPipe fds f
        let child := proc ++ [f.i]
        let inChild := childBranch fds f fd (pidOf child)
        let ofChild :=
          if execFails f.i then
            let fallen := afterFork inChild.1 inChild.2 fd 0
            launchTrace execFails pidOf rest child fallen.1 fallen.2
          else ⟨[], [.execs child f.i argv inChild.1]⟩
        let inParent := afterFork fds f fd (pidOf child)
        let ofParent := launchTrace execFails pidOf rest proc inParent.1 inParent.2
        ⟨(proc, f.i) :: (ofChild.forks ++ ofParent.forks), ofChild.ends ++ ofParent.ends⟩

/-- What the design of the loop asks of a launch of `n` stages: no stage is forked
twice, every child leaves its branch by `exec`, and the original shell alone
goes on with the code behind the loop. -/
structure Contained (n : Nat) (t : LaunchTrace) : Prop where
  once : ∀ i < n, (t.forks.map Prod.snd).count i = 1
  children : ∀ proc i, (proc, i) ∈ t.forks →
    ∃ argv fds, ProcEnd.execs (proc ++ [i]) i argv fds ∈ t.ends
  shell : ∃ fds f, t.ends.filter ProcEnd.isLeaves = [.leaves [] fds f]

/-! ### The shell's own run, with failing system calls -/

/-- What `pipe` and `fork` do at each stage. -/
structure LaunchOracle where
  pipeFails : Nat → Bool
  forkFails : Nat → Bool
  pid : Nat → Pid

/-- What `Fork` returns to the shell at stage `i`. -/
def LaunchOracle.fork (o : LaunchOracle) (i : Nat) : Int :=
  if o.forkFails i then -1 else o.pid i

inductive LoopEnd
  /-- `Pipe` failed: the early return. -/
  | returns (fds : FdTable) (f : LaunchFrame) (children : List Child)
  /-- The loop ran to its end. -/
  | done (fds : FdTable) (f : LaunchFrame) (children : List Child)

/-- The loop of `launch_pipeline` in the shell, over the segments from stage `f.i`
on. `children` are the children forked so far. -/
def launchLoop (o : LaunchOracle) : List CString → FdTable → LaunchFrame → List Child → LoopEnd
  | [], fds, f, children => .done fds f children
  | segment :: rest, fds, f, children =>
      if parseline segment = [] then launchLoop o rest fds f.skip children
      else if f.i + 1 < f.nseg ∧ o.pipeFails f.i = true then .returns fds f children
      else
        let (fd, fds) := openPipe fds f
        let (fds, f') := afterFork fds f fd (o.fork f.i)
        let forked := if o.forkFails f.i then []
          else [{ pid := o.pid f.i, pgrp := groupOf f'.pgid }]
        launchLoop o rest fds f' (children ++ forked)

/-- The state in which `launch_pipeline` returns or calls `wait_for_foreground`.
`added` is the job it added and `killed` the group it sent SIGKILL. -/
structure LaunchResult where
  table : JobTable
  fds : FdTable
  children : List Child
  added : Option Slot
  killed : Option Int

/-- `launch_pipeline` behind its loop. -/
def launchFinish (table : JobTable) (fds : FdTable) (f : LaunchFrame)
    (children : List Child) : LaunchResult :=
  let fds := if f.prevRead ≠ -1 then fds.close f.prevRead else fds
  match table.addJob f.pgid f.pids f.nseg (if f.bg then .background else .foreground)
      f.cmdline with
  | (none, table) =>
      { table := table, fds := fds, children := children, added := none,
        killed := if f.pgid > 0 then some f.pgid else none }
  | (some i, table) =>
      { table := table, fds := fds, children := children, added := some i, killed := none }

def launchPipeline (o : LaunchOracle) (table : JobTable) (fds : FdTable)
    (f : LaunchFrame) : LaunchResult :=
  match launchLoop o f.segments fds f [] with
  | .returns fds _ children =>
      { table := table, fds := fds, children := children, added := none, killed := none }
  | .done fds f children => launchFinish table fds f children

end SystemProgramming.MyShell
