import SystemProgramming.Library.Runs
import SystemProgramming.MyShell.Launch

/-!
The phase 3 shell as a machine: its main flow, the handler of SIGCHLD, and the
kernel with the children of the shell.

A step of the main flow runs up to the next place where the handler could make
a difference: the next access to the job table or `fg_pgid`, the next change
of the signal mask, or the next system call. The handler may start between any
two steps while SIGCHLD is unblocked; each round of its loop is one step, and
the main flow stands still until it returns. The children change state at any
time. Every choice of the environment is in the label, so a step is a function
of its label.

SIGCHLD is a flag: any number of changes raise it once. The handlers of SIGINT
and SIGTSTP read `fg_pgid` and call `kill`; all the shell sees of them is that
they end a `sigsuspend`.
-/

namespace SystemProgramming.MyShell

open SystemProgramming.CLib

/-! ### What a line asks for -/

/-- What `eval` does with a line. -/
inductive Action
  /-- An error message, an empty line or `cd`: nothing the machine shows. -/
  | nothing
  | exit
  | jobs
  | bg (jid : Int)
  | fg (jid : Int)
  | kill (jid : Int)
  | launch (segments : List CString) (bg : Bool) (cmdline : CString)

/-- `parse_job_id (argv[1], &jid)` in front of a builtin; an error ends the builtin. -/
def withJobId (args : List CString) (action : Int → Action) : Action :=
  match parseJobId args.head? with
  | none => .nothing
  | some jid => action jid

/-- `builtin_command`; `none` is the return value 0. -/
def builtinCommand (cmd : CString) (args : List CString) : Option Action :=
  if cmd = "cd".toList then some .nothing
  else if cmd = "exit".toList then some .exit
  else if cmd = "jobs".toList then some .jobs
  else if cmd = "bg".toList then some (withJobId args .bg)
  else if cmd = "fg".toList then some (withJobId args .fg)
  else if cmd = "kill".toList then some (withJobId args .kill)
  else none

/-- `eval`. -/
def eval (cmdline : CString) : Action :=
  match parseLine cmdline with
  | none => .nothing
  | some ([], _) => .nothing
  | some ([segment], bg) =>
      match parseline segment with
      | [] => .nothing
      | cmd :: args =>
          (builtinCommand cmd args).getD (.launch [segment] bg (normalizeJobcmd cmdline))
  | some (segments, bg) => .launch segments bg (normalizeJobcmd cmdline)

/-! ### States -/

/-- Where the main flow stands. `jobs`, `launch`, `launched` and the places named
`Lookup` and `Unlock` lie between `block_sigchld` and `restore_sigmask`. -/
inductive Pc
  | prompt
  | exited
  | jobs
  /-- In the loop of `launch_pipeline`, or behind it when `f.i = nseg`. -/
  | launch (f : LaunchFrame)
  | launched (f : LaunchFrame) (job : Option Slot)
  | afterLaunch (f : LaunchFrame) (job : Option Slot)
  /-- Before the test `fg_pgid == pgid`. -/
  | waitTest (pgid : Int)
  /-- Between the test and the call of `sigsuspend`. -/
  | waitCall (pgid : Int)
  | suspended (pgid : Int)
  | bgLookup (jid : Int)
  | bgUnlock (job : Option Slot)
  /-- Before `job->pgid` is read for the call of `kill`. -/
  | bgRead (job : Slot)
  /-- Before the call `kill (-g, SIGCONT)`. -/
  | bgSignal (job : Slot) (g : Int)
  | bgPrint (job : Slot)
  | fgLookup (jid : Int)
  | fgUnlock (job : Option (Slot × Int))
  | fgSignal (job : Slot) (pgid : Int)
  | killLookup (jid : Int)
  | killUnlock (job : Option Slot)
  | killRead (job : Slot)
  | killSignal (g : Int)

/-- The shell and what the kernel keeps for it. `blocked` says whether SIGCHLD is in
the signal mask and `prev` is the mask saved by the last `block_sigchld`.
`found` is a history variable: the process group of the job that
`find_job_by_jid` found last. No code reads it. -/
structure Shell where
  table : JobTable := {}
  pc : Pc := .prompt
  blocked : Bool := false
  prev : Bool := false
  inHandler : Bool := false
  pending : Bool := false
  children : List Child := []
  fds : FdTable := [some (.inherited 0), some (.inherited 1), some (.inherited 2)]
  found : Int := 0

inductive Label
  /-- `fgets` reads a line; `stack` is what the array `pids` holds before it is
  written. -/
  | readLine (line : CString) (stack : Nat → Int)
  | endOfInput
  /-- The main flow goes on without a choice of the environment. -/
  | proceed
  | pipeFails
  | forkFails
  | forks (pid : Pid)
  | killFails
  | killSucceeds
  /-- A child stops, continues or ends. -/
  | change (pid : Pid) (status : Status)
  /-- SIGCHLD is delivered. -/
  | deliver
  /-- `waitpid` returns the report of a child to the handler. -/
  | reap (pid : Pid)
  /-- `waitpid` has nothing to report and the handler returns. -/
  | handlerReturns
  /-- SIGINT or SIGTSTP is delivered. -/
  | keyboard

namespace Shell

def blockSigchld (s : Shell) : Shell := { s with prev := s.blocked, blocked := true }

def restoreSigmask (s : Shell) : Shell := { s with blocked := s.prev }

/-- The mask of `sigsuspend` is empty. -/
def sigchldOpen (s : Shell) : Bool :=
  match s.pc with
  | .suspended _ => true
  | .exited => false
  | _ => !s.blocked

/-- The child `waitpid` would report on. -/
def reportOf (s : Shell) (pid : Pid) : Option Status :=
  (s.children.find? fun c => c.pid = pid).bind Child.report

/-! ### Steps -/

def start (s : Shell) (stack : Nat → Int) : Action → Shell
  | .nothing => s
  | .exit => { s with pc := .exited }
  | .jobs => { s.blockSigchld with pc := .jobs }
  | .bg jid => { s.blockSigchld with pc := .bgLookup jid }
  | .fg jid => { s.blockSigchld with pc := .fgLookup jid }
  | .kill jid => { s.blockSigchld with pc := .killLookup jid }
  | .launch segments bg cmdline =>
      { s.blockSigchld with pc := .launch (.enter segments bg cmdline stack) }

/-- The steps of the main flow that leave the environment no choice. -/
def proceed (s : Shell) : Option Shell :=
  match s.pc with
  | .jobs => some { s.restoreSigmask with pc := .prompt }
  | .launch f =>
      match f.segments[f.i]? with
      | some segment =>
          if parseline segment = [] then some { s with pc := .launch f.skip } else none
      | none =>
          let fds := if f.prevRead ≠ -1 then s.fds.close f.prevRead else s.fds
          let (job, table) := s.table.addJob f.pgid f.pids f.nseg
            (if f.bg then .background else .foreground) f.cmdline
          some { s with table := table, fds := fds, pc := .launched f job }
  | .launched f job => some { s.restoreSigmask with pc := .afterLaunch f job }
  | .afterLaunch _ none => some { s with pc := .prompt }
  | .afterLaunch f (some _) =>
      some { s with pc := if f.bg then .prompt else .waitTest f.pgid }
  | .waitTest pgid =>
      some { s with pc := if s.table.fgPgid = pgid then .waitCall pgid else .prompt }
  | .waitCall pgid => some { s with pc := .suspended pgid }
  | .bgLookup jid =>
      match s.table.findJobByJid jid with
      | none => some { s with pc := .bgUnlock none }
      | some i =>
          some { s with
            table := (s.table.setState i .background).updateFgPgid
            found := (s.table.jobs i).pgid
            pc := .bgUnlock (some i) }
  | .bgUnlock none => some { s.restoreSigmask with pc := .prompt }
  | .bgUnlock (some i) => some { s.restoreSigmask with pc := .bgRead i }
  | .bgRead i => some { s with pc := .bgSignal i (s.table.jobs i).pgid }
  | .bgPrint _ => some { s with pc := .prompt }
  | .fgLookup jid =>
      match s.table.findJobByJid jid with
      | none => some { s with pc := .fgUnlock none }
      | some i =>
          some { s with
            table := (s.table.setState i .foreground).updateFgPgid
            found := (s.table.jobs i).pgid
            pc := .fgUnlock (some (i, (s.table.jobs i).pgid)) }
  | .fgUnlock none => some { s.restoreSigmask with pc := .prompt }
  | .fgUnlock (some (i, pgid)) => some { s.restoreSigmask with pc := .fgSignal i pgid }
  | .killLookup jid =>
      match s.table.findJobByJid jid with
      | none => some { s with pc := .killUnlock none }
      | some i =>
          some { s with found := (s.table.jobs i).pgid, pc := .killUnlock (some i) }
  | .killUnlock none => some { s.restoreSigmask with pc := .prompt }
  | .killUnlock (some i) => some { s.restoreSigmask with pc := .killRead i }
  | .killRead i => some { s with pc := .killSignal (s.table.jobs i).pgid }
  | _ => none

/-- The stage of the pipeline the loop of `launch_pipeline` is about to fork. -/
def stage (s : Shell) : Option LaunchFrame :=
  match s.pc with
  | .launch f =>
      match f.segments[f.i]? with
      | some segment => if parseline segment = [] then none else some f
      | none => none
  | _ => none

/-- The kernel hands out no pid of a process that has not been reaped and none of a
process group that has members. -/
def freshPid (s : Shell) (pid : Pid) : Bool :=
  s.children.all fun c => c.pid ≠ pid && c.pgrp ≠ pid

/-- One step of the machine. -/
def step (s : Shell) : Label → Option Shell
  | .readLine line stack =>
      match s.pc with
      | .prompt =>
          if s.inHandler = false ∧ line.length < MAXLINE then some (s.start stack (eval line))
          else none
      | _ => none
  | .endOfInput =>
      match s.pc with
      | .prompt => if s.inHandler then none else some { s with pc := .exited }
      | _ => none
  | .proceed => if s.inHandler then none else s.proceed
  | .pipeFails =>
      if s.inHandler then none
      else s.stage.bind fun f =>
        if f.i + 1 < f.nseg then some { s.restoreSigmask with pc := .prompt } else none
  | .forkFails =>
      if s.inHandler then none
      else s.stage.bind fun f =>
        let (fd, fds) := openPipe s.fds f
        let (fds, f) := afterFork fds f fd (-1)
        some { s with fds := fds, pc := .launch f }
  | .forks pid =>
      if s.inHandler then none
      else s.stage.bind fun f =>
        if s.freshPid pid then
          let (fd, fds) := openPipe s.fds f
          let (fds, f) := afterFork fds f fd pid
          some { s with
            fds := fds
            pc := .launch f
            children := s.children ++ [{ pid := pid, pgrp := groupOf f.pgid }] }
        else none
  | .killFails =>
      if s.inHandler then none
      else match s.pc with
        | .bgSignal _ _ | .fgSignal _ _ | .killSignal _ => some { s with pc := .prompt }
        | _ => none
  | .killSucceeds =>
      if s.inHandler then none
      else match s.pc with
        | .bgSignal i _ => some { s with pc := .bgPrint i }
        | .fgSignal _ pgid => some { s with pc := .waitTest pgid }
        | .killSignal _ => some { s with pc := .prompt }
        | _ => none
  | .change pid status =>
      ((s.children.find? fun c => c.pid = pid).bind (Child.change · status)).map fun c' =>
        { s with
          children := s.children.map fun c => if c.pid = pid then c' else c
          pending := true }
  | .deliver =>
      if s.inHandler = false ∧ s.pending = true ∧ s.sigchldOpen = true then
        some { s with inHandler := true, pending := false }
      else none
  | .reap pid =>
      if s.inHandler then
        (s.reportOf pid).map fun status =>
          { s with
            table := s.table.sigchldBody pid status
            children :=
              if status.terminated then s.children.filter fun c => c.pid ≠ pid
              else s.children.map fun c => if c.pid = pid then { c with report := none } else c }
      else none
  | .handlerReturns =>
      if s.inHandler = true ∧ ∀ c ∈ s.children, c.report = none then
        some { s with
          table := s.table.updateFgPgid
          inHandler := false
          pc := match s.pc with
            | .suspended pgid => .waitTest pgid
            | pc => pc }
      else none
  | .keyboard =>
      if s.inHandler then some s
      else match s.pc with
        | .suspended pgid => some { s with pc := .waitTest pgid }
        | _ => some s

end Shell

end SystemProgramming.MyShell
