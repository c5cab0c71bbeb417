import SystemProgramming.Phase2.Processes

/-!
What a process of a pipeline is and which descriptors it has, wherever it stands.
All of this is about one process at a time: a process keeps it with each of its
own calls, and gives it to the children it forks.
-/

namespace SystemProgramming.Phase2

open SystemProgramming.CLib SystemProgramming.MyShell SystemProgramming.Library

/-! ### Where the processes are -/

/-- The process that calls `run_pipe` for the commands from number `d` on. -/
def spine (d : Nat) : Process := List.replicate d 1

/-- Its left child. -/
def leaf (d : Nat) : Process := spine d ++ [0]

/-- The process that command `i` of `n` runs in. -/
def commandProcess (n i : Nat) : Process := if i + 1 = n then spine i else leaf i

/-- The processes of a pipeline of `n` commands. -/
def Member (n : Nat) (p : Process) : Prop :=
  (∃ d < n, p = spine d) ∨ ∃ d, d + 1 < n ∧ p = leaf d

theorem spine_append (d : Nat) : spine d ++ [1] = spine (d + 1) := List.replicate_succ'.symm

theorem spine_inj {d e : Nat} : spine d = spine e ↔ d = e :=
  List.replicate_left_inj

theorem leaf_inj {d e : Nat} : leaf d = leaf e ↔ d = e := by
  rw [leaf, leaf, List.append_left_inj, spine_inj]

theorem leaf_ne_spine (d e : Nat) : leaf d ≠ spine e := by
  intro h
  have hmem : 0 ∈ spine e := h ▸ List.mem_append_right _ List.mem_cons_self
  exact absurd (List.eq_of_mem_replicate hmem) (by decide)

theorem commandProcess_inj {n i j : Nat} (h : commandProcess n i = commandProcess n j) :
    i = j := by
  rw [commandProcess, commandProcess] at h
  split at h <;> split at h
  · exact spine_inj.mp h
  · exact absurd h.symm (leaf_ne_spine _ _)
  · exact absurd h (leaf_ne_spine _ _)
  · exact leaf_inj.mp h

theorem member_commandProcess {n i : Nat} (hi : i < n) : Member n (commandProcess n i) := by
  rw [commandProcess]
  split
  · exact .inl ⟨i, hi, rfl⟩
  · exact .inr ⟨i, by omega, rfl⟩

/-! ### Descriptors -/

/-- What `run_pipe` finds at descriptor `m` when it is called for the commands from
number `d` on. -/
def inheritedFile (own : FdTable) (d : Nat) (m : Nat) : Option File :=
  if m = 0 ∧ 0 < d then some (.pipeRead (d - 1)) else own.get m

/-- The same behind the `dup2` of a child. -/
def redirected (own : FdTable) (d : Nat) : Side → Nat → Option File
  | .left => Function.update (inheritedFile own d) 1 (some (.pipeWrite d))
  | .right => inheritedFile own (d + 1)

/-- Besides `rest` a process has the write end of pipe `d`, and the read end where `both`, at
the numbers in `fd`. -/
structure Open (d : Nat) (both : Bool) (rest : Nat → Option File) (fds : FdTable)
    (fd : Int × Int) : Prop where
  ends : ∃ r w : Nat, fd = (↑r, ↑w) ∧ r ≠ w ∧ rest r = none ∧ rest w = none ∧ ∀ m, fds.get m =
    if m = w then some (.pipeWrite d) else if m = r ∧ both then some (.pipeRead d) else rest m

section Ends

variable {own fds : FdTable} {fd : Int × Int} {d m : Nat} {both : Bool}
  {rest : Nat → Option File}

theorem Open.pipe (h : ∀ m, fds.get m = rest m) :
    Open d true rest (fds.pipe d).2 (fds.pipe d).1 := by
  obtain ⟨r, w, hrw, hr, hw, hends, hget⟩ := fds.pipe_spec d
  refine ⟨r, w, hends, hrw, h r ▸ hr, h w ▸ hw, fun m => ?_⟩
  rw [hget, h]
  simp only [and_true]

theorem Open.closeRead (h : Open d true rest fds fd) :
    Open d false rest (fds.close fd.1) fd := by
  obtain ⟨r, w, rfl, hrw, hr, hw, hget⟩ := h.ends
  refine ⟨r, w, rfl, hrw, hr, hw, fun m => ?_⟩
  rw [FdTable.get_close, hget]
  by_cases hm : m = r
  · rw [if_pos (by omega), if_neg (by omega), if_neg (by simp), hm, hr]
  · rw [if_neg (by omega), if_neg (c := m = r ∧ true = true) (by omega),
      if_neg (c := m = r ∧ false = true) (by omega)]

theorem Open.closeWrite (h : Open d false rest fds fd) : (fds.close fd.2).get m = rest m := by
  obtain ⟨r, w, rfl, hrw, hr, hw, hget⟩ := h.ends
  rw [FdTable.get_close, hget]
  by_cases hm : m = w
  · rw [if_pos (by omega), hm, hw]
  · rw [if_neg (by omega), if_neg hm, if_neg (by simp)]

/-- `dup2` of one of the ends to a descriptor that is in use. -/
theorem Open.dup2 (h : Open d true rest fds fd) {e : Nat} {file : File}
    (hfile : fds.get e = some file) {n : Nat} (hn : rest n ≠ none) :
    Open d true (Function.update rest n (some file)) (fds.dup2 e n) fd := by
  obtain ⟨r, w, rfl, hrw, hr, hw, hget⟩ := h.ends
  have hrn : r ≠ n := by rintro rfl; exact hn hr
  have hwn : w ≠ n := by rintro rfl; exact hn hw
  refine ⟨r, w, rfl, hrw, ?_, ?_, fun m => ?_⟩
  · rw [Function.update_of_ne hrn, hr]
  · rw [Function.update_of_ne hwn, hw]
  · rw [get_dup2 hfile, hget, Function.update_apply]
    split
    · next hm => rw [if_neg (by omega), if_neg (by omega)]
    · rfl

theorem Open.dupWrite (h : Open d true rest fds fd) {n : Nat} (hn : rest n ≠ none) :
    Open d true (Function.update rest n (some (.pipeWrite d))) (fds.dup2 fd.2 n) fd := by
  obtain ⟨r, w, rfl, -, -, -, hget⟩ := h.ends
  exact h.dup2 (by rw [hget, if_pos rfl]) hn

theorem Open.dupRead (h : Open d true rest fds fd) {n : Nat} (hn : rest n ≠ none) :
    Open d true (Function.update rest n (some (.pipeRead d))) (fds.dup2 fd.1 n) fd := by
  obtain ⟨r, w, rfl, hrw, -, -, hget⟩ := h.ends
  exact h.dup2 (by rw [hget, if_neg hrw, if_pos ⟨rfl, rfl⟩]) hn

theorem inheritedFile_ne_none (hopen : own.get m ≠ none) : inheritedFile own d m ≠ none := by
  rw [inheritedFile]
  split
  · exact Option.some_ne_none _
  · exact hopen

theorem redirected_right :
    redirected own d .right = Function.update (inheritedFile own d) 0 (some (.pipeRead d)) := by
  funext m
  rw [redirected, Function.update_apply, inheritedFile, inheritedFile]
  by_cases hm : m = 0
  · rw [if_pos ⟨hm, d.succ_pos⟩, if_pos hm, Nat.add_sub_cancel]
  · rw [if_neg (by omega), if_neg hm, if_neg (by omega)]

/-- A command that is not the last one. -/
theorem redirected_left {n : Nat} (hd : d + 1 < n) :
    redirected own d .left m = stageFile own n d m := by
  rw [redirected, Function.update_apply, stageFile, inheritedFile]
  by_cases hm : m = 1
  · rw [if_pos hm, if_neg (by omega), if_pos ⟨hm, hd⟩]
  · rw [if_neg hm, if_neg (c := m = 1 ∧ _) (by omega)]

/-- The last command. -/
theorem inheritedFile_last {n : Nat} (hd : d + 1 = n) :
    inheritedFile own d m = stageFile own n d m := by
  rw [inheritedFile, stageFile, if_neg (c := m = 1 ∧ _) (by omega)]

end Ends

/-! ### A process at each of its points -/

namespace Point

/-- The descriptors of a process in the call of `run_pipe` for the commands of `n` from number
`d` on. -/
def Fits (own : FdTable) (n d : Nat) (fds : FdTable) (fd : Int × Int) : Point → Prop
  | .enter | .waitFirst | .waitSecond | .returned => ∀ m, fds.get m = inheritedFile own d m
  | .forkLeft | .forkRight | .closeRead | .setUp _ .dup2 =>
      Open d true (inheritedFile own d) fds fd
  | .closeWrite => Open d false (inheritedFile own d) fds fd
  | .setUp side .closeRead => Open d true (redirected own d side) fds fd
  | .setUp side .closeWrite => Open d false (redirected own d side) fds fd
  | .stage _ | .program => ∀ m, fds.get m = stageFile own n d m
  | .zombie | .reaped => fds = []

/-- The process has come to its command. -/
def inCommand : Point → Bool
  | .stage _ | .program => true
  | _ => false

def ended : Point → Bool
  | .zombie | .reaped => true
  | _ => false

end Point

namespace Proc

/-- The calls of a command end with the first one that does not return. -/
def Finishes (exec : List CString → Bool) : List Call → Prop
  | [] => False
  | .execvp argv :: calls => if exec argv then calls = [] else Finishes exec calls
  | .exit _ :: calls => calls = []
  | _ :: calls => Finishes exec calls

theorem finishes_cons {exec : List CString → Bool} {call : Call} {todo : List Call}
    (hexecvp : ∀ argv, call ≠ .execvp argv) (hexit : ∀ status, call ≠ .exit status) :
    Finishes exec (call :: todo) ↔ Finishes exec todo := by
  rw [Finishes] <;> assumption

/-- Which process it is. -/
def place (n : Nat) (pr : Proc) : Process :=
  if pr.ran.isSome then commandProcess n pr.i
  else
    match pr.point with
    | .setUp .left _ => leaf pr.i
    | .setUp .right _ => spine (pr.i + 1)
    | _ => spine pr.i

/-- How many commands its call of `run_pipe` is for, at least. -/
def least (pr : Proc) : Nat := if pr.ran.isSome ∨ pr.point = .enter then 1 else 2

/-- What is true of process `p` of the pipeline of `cmds`, when the shell has the
descriptors `own`. -/
structure Sound (exec : List CString → Bool) (own : FdTable) (cmds : List CString) (p : Process)
    (pr : Proc) : Prop where
  place : p = pr.place cmds.length
  rest : pr.cmds = cmds.drop pr.i
  least : pr.i + pr.least ≤ cmds.length
  fits : pr.point.Fits own cmds.length pr.i pr.fds pr.fd
  ran : pr.point.ended = false → pr.ran.isSome = pr.point.inCommand
  stage : ∀ st ∈ pr.ran, st.i = pr.i ∧ st.argv = parseline (pr.cmds.headD []) ∧
    ∀ m, st.fds.get m = stageFile own cmds.length pr.i m
  finishes : ∀ calls, pr.point = .stage calls → Finishes exec calls

section

variable {exec : List CString → Bool} {own : FdTable} {cmds : List CString} {p q : Process}
  {pr pr' : Proc} {calls : List Call}

theorem Sound.ran_eq_none (h : Sound exec own cmds p pr) (hended : pr.point.ended = false)
    (hcommand : pr.point.inCommand = false) : pr.ran = none := by
  rw [← Option.not_isSome_iff_eq_none, h.ran hended, hcommand]
  exact Bool.false_ne_true

theorem Sound.two_le (h : Sound exec own cmds p pr) (hran : pr.ran = none)
    (henter : pr.point ≠ .enter) : pr.i + 2 ≤ cmds.length := by
  have hleast := h.least
  rwa [Proc.least, if_neg (by simp [hran, henter])] at hleast

/-- A process in a call of `run_pipe` for two commands or more. -/
theorem Sound.between (h : Sound exec own cmds p pr) {point : Point} (hpoint : pr.point = point)
    (hended : point.ended = false) (hcommand : point.inCommand = false)
    (henter : point ≠ .enter) : pr.ran = none ∧ pr.i + 2 ≤ cmds.length ∧
      point.Fits own cmds.length pr.i pr.fds pr.fd := by
  subst hpoint
  have hran := h.ran_eq_none hended hcommand
  exact ⟨hran, h.two_le hran henter, h.fits⟩

/-- A process that comes to `run_pipe`. -/
theorem Sound.entered (h : Sound exec own cmds p pr) (hpoint : pr.point = .enter) :
    pr.ran = none ∧ 0 < pr.cmds.length ∧ pr.i + pr.cmds.length = cmds.length ∧
      ∀ m, pr.fds.get m = inheritedFile own pr.i m := by
  have hlen := congrArg List.length h.rest
  have hleast := h.least
  have hfits := h.fits
  rw [List.length_drop] at hlen
  rw [Proc.least, if_pos (.inr hpoint)] at hleast
  rw [hpoint] at hfits
  exact ⟨h.ran_eq_none (by rw [hpoint]; rfl) (by rw [hpoint]; rfl), by omega, by omega, hfits⟩

/-- A process on its way through `run_pipe`, or the child it leaves there. -/
theorem Sound.go (h : Sound exec own cmds p pr) (hran : pr.ran = none) {fds : FdTable}
    {fd : Int × Int} (point : Point) (hcommand : point.inCommand = false)
    (hplace : q = { pr with fds := fds, fd := fd, point := point }.place cmds.length)
    (hmore : pr.i + 2 ≤ cmds.length) (hfits : point.Fits own cmds.length pr.i fds fd) :
    Sound exec own cmds q { pr with fds := fds, fd := fd, point := point } where
  place := hplace
  rest := h.rest
  least := by
    have hle : { pr with fds := fds, fd := fd, point := point }.least ≤ 2 := by
      rw [Proc.least]
      split <;> decide
    exact (Nat.add_le_add_left hle _).trans hmore
  fits := hfits
  ran _ := by rw [hcommand, hran]; rfl
  stage st hst := by
    rw [Option.mem_def, hran] at hst
    cases hst
  finishes calls hcalls := by
    subst hcalls
    cases hcommand

theorem finishes_runStage (exec : List CString → Bool) (cmd : CString) :
    Finishes exec (runStage exec cmd) := by
  have hexecvp (argv : List CString) : Finishes exec (execvpOrExit exec argv 0) := by
    rw [execvpOrExit]
    split
    · next hexec => rw [Finishes, if_pos hexec]
    · next hexec =>
        rw [Finishes, if_neg hexec]
        exact rfl
  rw [runStage]
  cases parseline cmd with
  | nil => trivial
  | cons file args =>
      by_cases hcd : file = ['c', 'd']
      · simp only [builtinCommand, if_pos hcd]
        cases args <;> trivial
      by_cases hexit : file = ['e', 'x', 'i', 't']
      · simp only [builtinCommand, if_neg hcd, if_pos hexit]
        trivial
      · simp only [builtinCommand, if_neg hcd, if_neg hexit]
        exact hexecvp _

/-- A process that comes to its command. -/
theorem Sound.toStage (hplace : p = commandProcess cmds.length pr.i)
    (hrest : pr.cmds = cmds.drop pr.i) (hi : pr.i + 1 ≤ cmds.length)
    (hfds : ∀ m, pr.fds.get m = stageFile own cmds.length pr.i m) :
    Sound exec own cmds p (pr.toStage exec) where
  place := hplace
  rest := hrest
  least := hi
  fits := hfds
  ran _ := rfl
  stage st hst := by
    obtain rfl := Option.some.inj hst
    exact ⟨rfl, rfl, hfds⟩
  finishes calls hcalls := Point.stage.inj hcalls ▸ finishes_runStage exec _

/-- A process that ends, in its command or behind its call of `run_pipe`. -/
theorem Sound.exits (h : Sound exec own cmds p pr)
    (hpoint : pr.ran.isSome ∨ pr.point = .returned) : Sound exec own cmds p pr.exits where
  place := by
    rw [h.place, Proc.place, Proc.place]
    split
    · next hran => exact (if_pos hran).symm
    · next hran =>
        obtain hsome | hreturned := hpoint
        · exact absurd hsome hran
        · rw [hreturned]
          exact (if_neg hran).symm
  rest := h.rest
  least := by
    have hleast : pr.exits.least = pr.least := by
      obtain hsome | hreturned := hpoint
      · rw [Proc.least, Proc.least, if_pos (.inl hsome), if_pos (.inl hsome)]
      · simp [Proc.least, Proc.exits, hreturned]
    rw [hleast]
    exact h.least
  fits := rfl
  ran hended := by cases hended
  stage := h.stage
  finishes calls hcalls := by cases hcalls

/-- The right child calls `run_pipe` for the other commands. -/
theorem Sound.others (h : Sound exec own cmds p pr) {fds : FdTable}
    (hplace : p = spine (pr.i + 1)) (hran : pr.ran = none) (hmore : pr.i + 2 ≤ cmds.length)
    (hfds : ∀ m, fds.get m = inheritedFile own (pr.i + 1) m) :
    Sound exec own cmds p
      { pr with fds := fds, i := pr.i + 1, cmds := pr.cmds.tail, point := .enter } where
  place := by
    rw [Proc.place, hran]
    exact hplace
  rest := by rw [h.rest, List.tail_drop]
  least := by
    rw [Proc.least, if_pos (.inr rfl)]
    exact hmore
  fits := hfds
  ran _ := by rw [hran]; rfl
  stage st hst := by
    rw [Option.mem_def, hran] at hst
    cases hst
  finishes calls hcalls := by cases hcalls

theorem Sound.isSome_ran (h : Sound exec own cmds p pr) {todo : List Call}
    (hpoint : pr.point = .stage todo) : pr.ran.isSome = true := by
  rw [h.ran (by rw [hpoint]; rfl), hpoint]
  rfl

/-- A process goes on with its command, or becomes it. -/
theorem Sound.inStage (h : Sound exec own cmds p pr) {todo : List Call}
    (hpoint : pr.point = .stage todo) {point : Point} (hcommand : point.inCommand = true)
    (hfits : (∀ m, pr.fds.get m = stageFile own cmds.length pr.i m) →
      point.Fits own cmds.length pr.i pr.fds pr.fd)
    (hcalls : ∀ calls, point = .stage calls → Finishes exec calls) :
    Sound exec own cmds p { pr with point := point } where
  place := by
    have hran := h.isSome_ran hpoint
    rw [h.place, Proc.place, Proc.place, if_pos hran, if_pos hran]
  rest := h.rest
  least := by
    have hleast := h.least
    rw [Proc.least, if_pos (.inl (h.isSome_ran hpoint))] at hleast ⊢
    exact hleast
  fits := by
    have hat := h.fits
    rw [hpoint] at hat
    exact hfits hat
  ran _ := by rw [h.isSome_ran hpoint, hcommand]
  stage := h.stage
  finishes := hcalls

/-- A process stays what it is with every call of its own. -/
theorem Sound.next (hopen : ∀ m ≤ 1, own.get m ≠ none) (h : Sound exec own cmds p pr)
    (hnext : pr.next exec p = some (calls, pr')) : Sound exec own cmds p pr' := by
  have hplace := h.place
  rw [Proc.place] at hplace
  cases next_branch hnext with
  | nothing hpoint hcmds =>
      obtain ⟨-, hpos, -, -⟩ := h.entered hpoint
      rw [hcmds] at hpos
      cases hpos
  | single cmd hpoint hcmds =>
      obtain ⟨hran, -, hlast, hfds⟩ := h.entered hpoint
      rw [hcmds, List.length_singleton] at hlast
      rw [hran, hpoint] at hplace
      refine Sound.toStage ?_ h.rest hlast.le fun m => ?_
      · rw [commandProcess, if_pos hlast]
        exact hplace
      · rw [hfds m, inheritedFile_last hlast]
  | pipe cmd cmd' rest hpoint hcmds =>
      obtain ⟨hran, -, hlen, hfds⟩ := h.entered hpoint
      rw [hcmds, List.length_cons, List.length_cons] at hlen
      rw [hran, hpoint] at hplace
      exact h.go hran .forkLeft rfl (by rw [Proc.place, hran]; exact hplace) (by omega)
        (Open.pipe hfds)
  | forkLeft hpoint =>
      obtain ⟨hran, hmore, hfits⟩ := h.between hpoint rfl rfl (by simp)
      rw [hran, hpoint] at hplace
      exact h.go hran .forkRight rfl (by rw [Proc.place, hran]; exact hplace) hmore hfits
  | forkRight hpoint =>
      obtain ⟨hran, hmore, hfits⟩ := h.between hpoint rfl rfl (by simp)
      rw [hran, hpoint] at hplace
      exact h.go hran .closeRead rfl (by rw [Proc.place, hran]; exact hplace) hmore hfits
  | closeRead hpoint =>
      obtain ⟨hran, hmore, hfits⟩ := h.between hpoint rfl rfl (by simp)
      rw [hran, hpoint] at hplace
      exact h.go hran .closeWrite rfl (by rw [Proc.place, hran]; exact hplace) hmore
        hfits.closeRead
  | closeWrite hpoint =>
      obtain ⟨hran, hmore, hfits⟩ := h.between hpoint rfl rfl (by simp)
      rw [hran, hpoint] at hplace
      exact h.go hran .waitFirst rfl (by rw [Proc.place, hran]; exact hplace) hmore
        fun m => hfits.closeWrite
  | returned hpoint hp => exact h.exits (.inr hpoint)
  | dupWrite hpoint =>
      obtain ⟨hran, hmore, hfits⟩ := h.between hpoint rfl rfl (by simp)
      rw [hran, hpoint] at hplace
      exact h.go hran (.setUp .left .closeRead) rfl (by rw [Proc.place, hran]; exact hplace) hmore
        (hfits.dupWrite (inheritedFile_ne_none (hopen 1 le_rfl)))
  | dupRead hpoint =>
      obtain ⟨hran, hmore, hfits⟩ := h.between hpoint rfl rfl (by simp)
      rw [hran, hpoint] at hplace
      refine h.go hran (.setUp .right .closeRead) rfl (by rw [Proc.place, hran]; exact hplace)
        hmore ?_
      rw [Point.Fits, redirected_right]
      exact hfits.dupRead (inheritedFile_ne_none (hopen 0 (Nat.zero_le 1)))
  | childRead side hpoint =>
      obtain ⟨hran, hmore, hfits⟩ := h.between hpoint rfl rfl (by simp)
      rw [hran, hpoint] at hplace
      refine h.go hran (.setUp side .closeWrite) rfl ?_ hmore hfits.closeRead
      rw [Proc.place, hran, hplace]
      cases side <;> rfl
  | first hpoint =>
      obtain ⟨hran, hmore, hfits⟩ := h.between hpoint rfl rfl (by simp)
      rw [hran, hpoint] at hplace
      refine Sound.toStage ?_ h.rest (Nat.le_of_succ_le hmore) fun m => ?_
      · rw [commandProcess, if_neg (Nat.ne_of_lt hmore)]
        exact hplace
      · rw [hfits.closeWrite, redirected_left hmore]
  | others hpoint =>
      obtain ⟨hran, hmore, hfits⟩ := h.between hpoint rfl rfl (by simp)
      rw [hran, hpoint] at hplace
      exact h.others hplace hran hmore fun m => hfits.closeWrite
  | execvp argv todo hpoint =>
      have hfinishes := h.finishes _ hpoint
      rw [Finishes] at hfinishes
      split
      · exact h.inStage hpoint rfl id fun _ heq => by cases heq
      · next hexec =>
          rw [if_neg hexec] at hfinishes
          exact h.inStage hpoint rfl id fun _ heq => Point.stage.inj heq ▸ hfinishes
  | exit status todo hpoint => exact h.exits (.inl (h.isSome_ran hpoint))
  | call call todo hpoint hexecvp hexit =>
      have hfinishes := (finishes_cons hexecvp hexit).mp (h.finishes _ hpoint)
      exact h.inStage hpoint rfl id fun _ heq => Point.stage.inj heq ▸ hfinishes

/-- What `waitpid` leaves of the process that calls it. -/
theorem Sound.afterWait (h : Sound exec own cmds p pr) {point : Point}
    (hpoint : pr.point.afterWait = some point) :
    Sound exec own cmds p { pr with point := point } := by
  cases hat : pr.point with
  | waitFirst =>
      rw [hat] at hpoint
      obtain rfl := Option.some.inj hpoint
      obtain ⟨hran, hmore, hfits⟩ := h.between hat rfl rfl (by simp)
      exact h.go hran .waitSecond rfl (by rw [h.place, Proc.place, Proc.place, hran, hat]) hmore
        hfits
  | waitSecond =>
      rw [hat] at hpoint
      obtain rfl := Option.some.inj hpoint
      obtain ⟨hran, hmore, hfits⟩ := h.between hat rfl rfl (by simp)
      exact h.go hran .returned rfl (by rw [h.place, Proc.place, Proc.place, hran, hat]) hmore
        hfits
  | _ => rw [hat] at hpoint; cases hpoint

/-- What it leaves of the child. -/
theorem Sound.reaped (h : Sound exec own cmds p pr) (hpoint : pr.point = .zombie) :
    Sound exec own cmds p { pr with point := .reaped } where
  place := by
    rw [h.place, Proc.place, Proc.place, hpoint]
  rest := h.rest
  least := by
    have hleast := h.least
    rw [Proc.least, hpoint] at hleast
    rw [Proc.least]
    simpa using hleast
  fits := by
    have hfits := h.fits
    rw [hpoint] at hfits
    exact hfits
  ran hended := by cases hended
  stage := h.stage
  finishes calls hcalls := by cases hcalls

/-- A child begins as the copy of a process of the pipeline. -/
theorem Sound.child (h : Sound exec own cmds p pr) {k : Nat} {child : Proc}
    (hchild : pr.child = some (k, child)) : Sound exec own cmds (p ++ [k]) child := by
  have hplace := h.place
  rw [Proc.place] at hplace
  obtain ⟨hpoint, rfl, rfl⟩ | ⟨hpoint, rfl, rfl⟩ := child_cases hchild
  · obtain ⟨hran, hmore, hfits⟩ := h.between hpoint rfl rfl (by simp)
    rw [hran, hpoint] at hplace
    refine h.go hran (.setUp .left .dup2) rfl ?_ hmore hfits
    rw [Proc.place, hran, hplace]
    rfl
  · obtain ⟨hran, hmore, hfits⟩ := h.between hpoint rfl rfl (by simp)
    rw [hran, hpoint] at hplace
    refine h.go hran (.setUp .right .dup2) rfl ?_ hmore hfits
    rw [Proc.place, hran, hplace]
    exact spine_append pr.i

end

end Proc

end SystemProgramming.Phase2
