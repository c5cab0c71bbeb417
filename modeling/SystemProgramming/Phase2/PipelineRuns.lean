import Mathlib.Algebra.Order.BigOperators.Group.Finset
import SystemProgramming.Library.Runs
import SystemProgramming.Phase2.CommandCalls
import SystemProgramming.Phase2.Pipeline

/-!
The runs of `run_pipe`: none goes on for ever and none gets stuck, so each of
them comes to the point where the shell returns, and by then every command has
had its process, wired to its neighbours, which has made the calls of that
command, and all of them are gone.
-/

namespace SystemProgramming.Phase2

open SystemProgramming.CLib SystemProgramming.MyShell SystemProgramming.Library

/-! ### Runs end -/

/-- How many moves a process has in front of it, at most. -/
def Point.left : Point → Nat
  | .setUp _ .dup2 => 11
  | .setUp _ .closeRead => 10
  | .setUp _ .closeWrite => 9
  | .enter => 8
  | .forkLeft => 7
  | .forkRight => 6
  | .closeRead => 5
  | .closeWrite => 4
  | .waitFirst => 3
  | .waitSecond => 2
  | .returned => 1
  | .stage calls => calls.length + 1
  | .program => 1
  | .zombie | .reaped => 0

/-- The same for one that may still be forked. -/
def left : Option Proc → Nat
  | none => 12
  | some pr => pr.point.left

theorem Point.Goes.left_lt {point point' : Point} (h : point.Goes point') :
    point'.left < point.left := by
  cases h with
  | single calls h | first calls h =>
      rw [Point.left, Point.left]
      omega
  | call call calls | execvp call calls | exit call calls =>
      simp [Point.left]
  | dup2 side | childRead side => exact Nat.lt_succ_self _
  | _ => decide

theorem Point.left_afterWait {point point' : Point} (h : point.afterWait = some point') :
    point'.left < point.left := by
  obtain ⟨rfl, rfl⟩ | ⟨rfl, rfl⟩ := Point.afterWait_cases h <;> decide

/-- How many moves a pipeline of `n` commands has in front of it, at most. -/
def movesLeft (n : Nat) (procs : Process → Option Proc) : Nat :=
  ∑ d ∈ Finset.range n, (left (procs (spine d)) + left (procs (leaf d)))

section Ends

variable {exec : List CString → Bool} {own : FdTable} {cmds : List CString} {p : Process}
  {pr : Proc} {procs procs' : Process → Option Proc} {w w' : World} {move : Move}

theorem left_update (hp : procs p = some pr) {pr' : Proc} (hlt : pr'.point.left < pr.point.left)
    (hle : ∀ q, left (procs' q) ≤ left (procs q)) :
    left (Function.update procs' p (some pr') p) < left (procs p) ∧
      ∀ q, left (Function.update procs' p (some pr') q) ≤ left (procs q) := by
  have hself : left (Function.update procs' p (some pr') p) < left (procs p) := by
    rw [Function.update_self, hp]
    exact hlt
  refine ⟨hself, fun q => ?_⟩
  by_cases hq : q = p
  · exact hq ▸ hself.le
  · rw [Function.update_of_ne hq]
    exact hle q

/-- A process that is forked has its moves in front of it. -/
theorem Tree.left_fork (h : Tree exec own cmds procs) (hp : procs p = some pr) (q : Process) :
    left (fork procs p pr q) ≤ left (procs q) := by
  rw [fork_apply]
  split
  · exact Nat.le_refl _
  · next k child hchild =>
      split
      · next hq =>
          rw [hq, h.child_absent hp hchild, left, left]
          obtain ⟨-, -, rfl⟩ | ⟨-, -, rfl⟩ := Proc.child_cases hchild <;> dsimp only <;> decide
      · exact Nat.le_refl _

/-- Every step is one of the moves. -/
theorem Tree.left_step (h : Tree exec own cmds w.procs) (hstep : w.step exec move = some w') :
    ∃ p pr, w.procs p = some pr ∧ left (w'.procs p) < left (w.procs p) ∧
      ∀ q, left (w'.procs q) ≤ left (w.procs q) := by
  obtain ⟨p, pr, hp, ⟨calls, pr', -, hnext, rfl⟩ | ⟨k, point, child, -, hpoint, hchild, hzombie,
    rfl⟩ | ⟨point, -, hpoint, -, rfl⟩ | ⟨-, hpoint, rfl⟩⟩ := World.step_cases hstep
  · exact ⟨p, pr, hp, left_update hp ((h.sound p pr hp).goes hnext).left_lt (h.left_fork hp)⟩
  · refine ⟨p, pr, hp, left_update hp (Point.left_afterWait hpoint) fun q => ?_⟩
    rw [Function.update_apply]
    split
    · exact Nat.zero_le _
    · exact Nat.le_refl _
  · exact ⟨p, pr, hp, left_update hp (Point.left_afterWait hpoint) fun q => Nat.le_refl _⟩
  · refine ⟨p, pr, hp, left_update hp ?_ fun q => Nat.le_refl _⟩
    rw [hpoint]
    exact Nat.zero_lt_one

theorem movesLeft_lt {n : Nat} (hle : ∀ q, left (procs' q) ≤ left (procs q))
    (hlt : left (procs' p) < left (procs p))
    (hp : Member n p) : movesLeft n procs' < movesLeft n procs := by
  refine Finset.sum_lt_sum (fun d _ => Nat.add_le_add (hle _) (hle _)) ?_
  obtain ⟨d, hd, rfl⟩ | ⟨d, hd, rfl⟩ := hp
  · exact ⟨d, Finset.mem_range.mpr hd, Nat.add_lt_add_of_lt_of_le hlt (hle _)⟩
  · exact ⟨d, Finset.mem_range.mpr (by omega), Nat.add_lt_add_of_le_of_lt (hle _) hlt⟩

theorem Tree.movesLeft_step (h : Tree exec own cmds w.procs)
    (hstep : w.step exec move = some w') :
    movesLeft cmds.length w'.procs < movesLeft cmds.length w.procs := by
  obtain ⟨p, pr, hp, hlt, hle⟩ := h.left_step hstep
  exact movesLeft_lt hle hlt (h.sound p pr hp).member

theorem movesLeft_le (n : Nat) (procs : Process → Option Proc)
    (h : ∀ p, left (procs p) ≤ 12) : movesLeft n procs ≤ 24 * n := by
  have hsum := Finset.sum_le_card_nsmul (Finset.range n)
    (fun d => left (procs (spine d)) + left (procs (leaf d))) 24
    fun d _ => Nat.add_le_add (h (spine d)) (h (leaf d))
  rw [Finset.card_range, Nat.nsmul_eq_mul, Nat.mul_comm] at hsum
  exact hsum

theorem left_start (own : FdTable) (cmds : List CString) (p : Process) :
    left ((World.start own cmds).procs p) ≤ 12 := by
  rw [World.start]
  dsimp only
  split
  · exact (show Point.enter.left ≤ 12 by decide)
  · exact Nat.le_refl _

/-! ### Runs do not get stuck -/

/-- A process that does not wait for a child, has not ended and is not the shell behind its
pipeline can go on. -/
theorem Proc.Sound.can_move (h : pr.Sound exec own cmds p) (hp : w.procs p = some pr)
    (hended : pr.point.ended = false) (hwait : pr.point.afterWait = none)
    (hreturned : pr.point = .returned → p ≠ []) : ∃ move, (w.step exec move).isSome := by
  by_cases hprogram : pr.point = .program
  · exact ⟨.ends p, by simp [World.step, hp, hprogram]⟩
  refine ⟨.call p, ?_⟩
  have hnext : (pr.next exec p).isSome := by
    cases hpoint : pr.point with
    | enter =>
        simp only [Proc.next, hpoint]
        split <;> rfl
    | returned =>
        simp only [Proc.next, hpoint, if_neg (hreturned hpoint)]
        rfl
    | setUp side point =>
        cases side <;> cases point <;> simp [Proc.next, hpoint]
    | stage todo =>
        rcases todo with _ | ⟨call, todo⟩
        · exact absurd (h.finishes [] hpoint) id
        cases call <;> simp [Proc.next, hpoint]
    | forkLeft | forkRight | closeRead | closeWrite => simp [Proc.next, hpoint]
    | waitFirst | waitSecond => rw [hpoint] at hwait; cases hwait
    | program => exact absurd hpoint hprogram
    | zombie | reaped => rw [hpoint] at hended; cases hended
  obtain ⟨⟨calls, pr'⟩, hnext⟩ := Option.isSome_iff_exists.mp hnext
  simp [World.step, hp, hnext]

/-- **No run gets stuck** before the shell returns. The induction is on the commands behind
number `d`: a process that waits can rely on its children. -/
theorem Tree.can_move (h : Tree exec own cmds w.procs) {d : Nat}
    (hp : w.procs (spine d) = some pr) (hended : pr.point.ended = false)
    (hreturned : pr.point = .returned → d ≠ 0) : ∃ move, (w.step exec move).isSome := by
  induction hn : cmds.length - d generalizing d pr with
  | zero =>
      obtain ⟨e, he, hspine⟩ | ⟨e, -, hleaf⟩ := (h.sound _ pr hp).member
      · rw [spine_inj] at hspine
        omega
      · exact absurd hleaf.symm (leaf_ne_spine e d)
  | succ n ih =>
      have hsound := h.sound _ pr hp
      cases hwait : pr.point.afterWait with
      | none =>
          exact hsound.can_move hp hended hwait fun hat heq =>
            hreturned hat ((List.replicate_eq_nil_iff 1).mp heq)
      | some point =>
          obtain ⟨k, child, hchild, hreaped, hk⟩ := h.exists_child hp hwait
          by_cases hzombie : child.point = .zombie
          · exact ⟨.wait (spine d) (some k), by simp [World.step, hp, hwait, hchild, hzombie]⟩
          have hchildEnded : child.point.ended = false := by
            cases hat : child.point with
            | zombie => exact absurd hat hzombie
            | reaped => exact absurd hat hreaped
            | _ => rfl
          obtain rfl | rfl := hk
          · have hleaf := h.sound (leaf d) child hchild
            refine hleaf.can_move hchild hchildEnded ?_ fun _ => ?_
            · by_contra hsome
              obtain ⟨point', hpoint'⟩ := Option.ne_none_iff_exists'.mp hsome
              exact leaf_ne_spine _ _ (hleaf.eq_spine_of_wait hpoint')
            · exact List.append_ne_nil_of_right_ne_nil _ (List.cons_ne_nil _ _)
          · rw [spine_append] at hchild
            exact ih hchild hchildEnded (fun _ => d.succ_ne_zero) (by omega)

end Ends

/-! ### What a run leaves -/

/-- The descriptors of the process are set up. -/
def Point.settled : Point → Bool
  | .waitFirst | .waitSecond | .returned | .stage _ | .program | .zombie | .reaped => true
  | .enter | .forkLeft | .forkRight | .closeRead | .closeWrite | .setUp _ _ => false

/-- `run_pipe` has returned in the shell. -/
def World.Returned (w : World) : Prop := ∃ pr, w.procs [] = some pr ∧ pr.point = .returned

/-- Process `p` has come to run a command, as `st` says. -/
def World.Ran (w : World) (p : Process) (st : Stage) : Prop :=
  ∃ pr, w.procs p = some pr ∧ pr.ran = some st

/-- A state of a pipeline in which all is as it should be. -/
structure InOrder (own : FdTable) (cmds : List CString) (w : World) : Prop where
  /-- Each command has one process. -/
  process : ∀ p st, w.Ran p st → st.i < cmds.length ∧ p = commandProcess cmds.length st.i ∧
    st.argv = parseline (cmds.getD st.i [])
  input : ∀ p st, w.Ran p st →
    st.fds.get 0 = if st.i = 0 then own.get 0 else some (.pipeRead (st.i - 1))
  output : ∀ p st, w.Ran p st →
    st.fds.get 1 = if st.i + 1 = cmds.length then own.get 1 else some (.pipeWrite st.i)
  others : ∀ p st, w.Ran p st → ∀ m, 2 ≤ m → st.fds.get m = own.get m
  /-- A pipe can be written to by nobody else. -/
  writeEnd : ∀ p pr k, w.procs p = some pr → pr.point.settled = true →
    Holds pr.fds (.pipeWrite k) → ∃ st ∈ pr.ran, st.i = k
  /-- The shell has what it had before. -/
  shell : ∀ pr, w.procs [] = some pr → pr.point.settled = true → ∀ m, pr.fds.get m = own.get m
  started : w.Returned → ∀ i < cmds.length, ∃! p, ∃ st, w.Ran p st ∧ st.i = i
  ended : w.Returned → ∀ p pr, w.procs p = some pr → p ≠ [] → pr.point = .reaped

/-- The processes call what their commands say. -/
structure World.CallsCommands (exec : List CString → Bool) (cmds : List CString) (w : World) :
    Prop where
  /-- Behind its way through `run_pipe` a process makes the calls of the code for its command. -/
  calls : ∀ p pr st, w.procs p = some pr → pr.ran = some st →
    ∃ setUp, (∀ call ∈ setUp, call.endangers = false) ∧
      callsOf p w.trace ++ pr.point.todo = setUp ++ runStage exec (cmds.getD st.i [])
  /-- It makes them, and is the program, with the descriptors it has come with. -/
  held : ∀ p pr st, w.procs p = some pr → pr.ran = some st → pr.point.ended = false →
    pr.fds = st.fds
  /-- A process calls `execvp` with the words of its command only, and only for a program. -/
  programs : ∀ p argv, (p, .execvp argv) ∈ w.trace →
    ∃ st, w.Ran p st ∧ st.argv = argv ∧ isProgram argv = true
  /-- It does not end without having done so. -/
  executed : ∀ p pr st, w.procs p = some pr → pr.ran = some st → pr.point.ended = true →
    isProgram st.argv = true → (p, .execvp st.argv) ∈ w.trace

theorem World.Follows.callsCommands {exec : List CString → Bool} {cmds : List CString} {w : World}
    (h : w.Follows exec) (hargv : ∀ p st, w.Ran p st → st.argv = parseline (cmds.getD st.i [])) :
    w.CallsCommands exec cmds := by
  have hcommand {p : Process} {pr : Proc} {st : Stage} (hp : w.procs p = some pr)
      (hst : pr.ran = some st) : (pr.point.ended = false → pr.fds = st.fds) ∧
      ∃ setUp, (∀ call ∈ setUp, call.endangers = false) ∧
        callsOf p w.trace ++ pr.point.todo = setUp ++ runStage exec (cmds.getD st.i []) := by
    cases h.each p pr hp with
    | before hran => cases hran.symm.trans hst
    | command st' cmd setUp hran _ hfds _ hcmd hsetUp hcalls =>
        obtain rfl := Option.some.inj (hran.symm.trans hst)
        rw [← runStage_congr (hcmd.symm.trans (hargv p st' ⟨pr, hp, hst⟩))]
        exact ⟨hfds, setUp, hsetUp, hcalls⟩
  constructor
  case calls => exact fun p pr st hp hst => (hcommand hp hst).2
  case held => exact fun p pr st hp hst => (hcommand hp hst).1
  case programs =>
    intro p argv hmem
    rw [← mem_callsOf] at hmem
    cases hp : w.procs p with
    | none =>
        rw [h.absent p hp] at hmem
        cases hmem
    | some pr =>
        cases h.each p pr hp with
        | before _ _ hmade => cases (hmade _ hmem rfl).1
        | command st cmd setUp hran _ _ _ hcmd hsetUp hcalls =>
            have hlist := List.mem_append_left pr.point.todo hmem
            rw [hcalls, List.mem_append] at hlist
            obtain hbefore | hstage := hlist
            · cases hsetUp _ hbefore
            · obtain ⟨rfl, hprogram⟩ := (execvp_mem_runStage_iff exec cmd argv).mp hstage
              exact ⟨st, ⟨pr, hp, hran⟩, hcmd, hprogram⟩
  case executed =>
    intro p pr st hp hst hended hprogram
    obtain ⟨-, setUp, -, hcalls⟩ := hcommand hp hst
    have htodo : pr.point.todo = [] := by
      cases hat : pr.point with
      | zombie | reaped => rfl
      | _ => rw [hat] at hended; cases hended
    rw [htodo, List.append_nil] at hcalls
    rw [← mem_callsOf, hcalls]
    refine List.mem_append_right _ ((execvp_mem_runStage_iff exec _ _).mpr ⟨?_, hprogram⟩)
    exact hargv p st ⟨pr, hp, hst⟩

/-- `run_pipe` runs the pipeline of `cmds`, whatever the order of the steps. -/
structure RunsPipeline (exec : List CString → Bool) (own : FdTable) (cmds : List CString) :
    Prop where
  /-- No run goes on for ever. -/
  bounded : ∀ moves w, Library.exec (World.step exec) moves (World.start own cmds) = some w →
    moves.length ≤ 24 * cmds.length
  /-- Until the shell returns there is always something to go on with. -/
  goesOn : ∀ w, Reachable (World.step exec) anyStep (World.start own cmds) w →
    ¬w.Returned → ∃ move, (w.step exec move).isSome
  inOrder : ∀ w, Reachable (World.step exec) anyStep (World.start own cmds) w →
    InOrder own cmds w
  callsCommands : ∀ w, Reachable (World.step exec) anyStep (World.start own cmds) w →
    w.CallsCommands exec cmds

section Results

variable {exec : List CString → Bool} {own : FdTable} {cmds : List CString} {p : Process}
  {pr : Proc} {procs : Process → Option Proc} {w : World} {d e : Nat}

/-- Behind a call of `run_pipe` that is over, everything below it is gone. -/
theorem Tree.collected (h : Tree exec own cmds procs) (hp : procs (spine d) = some pr)
    (hpoint : pr.point = .returned ∨ pr.point = .reaped) (hde : d ≤ e)
    (he : e + 1 < cmds.length) :
    life (procs (leaf e)) = .collected ∧ life (procs (spine (e + 1))) = .collected := by
  have hbelow {c : Nat} {qr : Proc} (hq : procs (spine c) = some qr)
      (hqr : qr.point = .returned ∨ qr.point = .reaped) (hc : c + 1 < cmds.length) :
      life (procs (leaf c)) = .collected ∧ life (procs (spine (c + 1))) = .collected := by
    have hkid := h.kids c
    rw [hq, Option.map_some] at hkid
    obtain hqr | hqr := hqr
    · rw [hqr] at hkid
      exact hkid
    · rw [hqr, Kids, if_neg (Nat.ne_of_lt hc)] at hkid
      exact hkid
  induction e, hde using Nat.le_induction with
  | base => exact hbelow hp hpoint he
  | succ e hde ih =>
      obtain ⟨qr, hq, hqr⟩ := life_eq_collected.mp (ih (Nat.lt_of_succ_lt he)).2
      exact hbelow hq (.inr hqr) he

theorem commandProcess_ne_nil {n : Nat} (hn : 2 ≤ n) (i : Nat) : commandProcess n i ≠ [] := by
  rw [commandProcess]
  split
  · next hi =>
      obtain ⟨j, rfl⟩ := Nat.exists_eq_succ_of_ne_zero (show i ≠ 0 by omega)
      exact List.cons_ne_nil _ _
  · exact List.append_ne_nil_of_right_ne_nil _ (List.cons_ne_nil _ _)

/-- When the shell returns, all the others have been there and are gone. -/
theorem Tree.collected_of_returned (h : Tree exec own cmds w.procs) (hreturned : w.Returned)
    (hmember : Member cmds.length p) (hne : p ≠ []) :
    ∃ pr, w.procs p = some pr ∧ pr.point = .reaped := by
  obtain ⟨shell, hshell, hpoint⟩ := hreturned
  have hall {e : Nat} := h.collected (d := 0) (e := e) hshell (.inl hpoint) (Nat.zero_le e)
  apply life_eq_collected.mp
  obtain ⟨e, he, rfl⟩ | ⟨e, he, rfl⟩ := hmember
  · obtain _ | e := e
    · exact absurd rfl hne
    · exact (hall he).2
  · exact (hall he).1

theorem Tree.reaped (h : Tree exec own cmds w.procs) (hreturned : w.Returned)
    (hp : w.procs p = some pr) (hne : p ≠ []) : pr.point = .reaped := by
  obtain ⟨qr, hq, hreaped⟩ := h.collected_of_returned hreturned (h.sound p pr hp).member hne
  exact Option.some.inj (hq.symm.trans hp) ▸ hreaped

/-- The shell does not end. -/
def World.Alive (w : World) : Prop := ∃ pr, w.procs [] = some pr ∧ pr.point.ended = false

/-- With two commands or more the shell runs none of them. -/
theorem Proc.Sound.shell_ran (h : pr.Sound exec own cmds []) (hcmds : 2 ≤ cmds.length) :
    pr.ran = none := by
  rw [← Option.not_isSome_iff_eq_none]
  intro hran
  have hlast := h.last_of_ran (d := 0) hran
  omega

theorem Tree.alive_step (h : Tree exec own cmds w.procs) (hcmds : 2 ≤ cmds.length)
    (hw : w.Alive) {w' : World} {move : Move} (hstep : w.step exec move = some w') :
    w'.Alive := by
  obtain ⟨shell, hshell, hended⟩ := hw
  have hran : shell.point.inCommand = false := by
    rw [← (h.sound [] shell hshell).ran hended, (h.sound [] shell hshell).shell_ran hcmds]
    rfl
  have hchild (p : Process) (k : Nat) : [] ≠ p ++ [k] :=
    (List.append_ne_nil_of_right_ne_nil p (List.cons_ne_nil k [])).symm
  obtain ⟨p, pr, hp, hmove⟩ := World.step_cases hstep
  by_cases hself : p = []
  · subst hself
    obtain rfl : shell = pr := Option.some.inj (hshell.symm.trans hp)
    obtain ⟨calls, pr', -, hnext, rfl⟩ | ⟨k, point, child, -, hpoint, -, -, rfl⟩ |
      ⟨point, -, hpoint, -, rfl⟩ | ⟨-, hpoint, -⟩ := hmove
    · refine ⟨pr', by simp only [Function.update_self], ?_⟩
      have hgoes := (h.sound [] shell hp).goes hnext
      have hreturned : shell.point ≠ .returned := by
        intro hat
        simp [Proc.next, hat] at hnext
      generalize shell.point = point at hgoes hran hreturned
      generalize pr'.point = point' at hgoes ⊢
      cases hgoes with
      | returned => exact absurd rfl hreturned
      | call | execvp | exit => cases hran
      | _ => rfl
    · refine ⟨{ shell with point := point }, by simp only [Function.update_self], ?_⟩
      obtain ⟨-, rfl⟩ | ⟨-, rfl⟩ := Point.afterWait_cases hpoint <;> rfl
    · refine ⟨{ shell with point := point }, by simp only [Function.update_self], ?_⟩
      obtain ⟨-, rfl⟩ | ⟨-, rfl⟩ := Point.afterWait_cases hpoint <;> rfl
    · rw [hpoint] at hran
      cases hran
  · have hself := Ne.symm hself
    refine ⟨shell, ?_, hended⟩
    obtain ⟨calls, pr', -, -, rfl⟩ | ⟨k, point, child, -, -, -, -, rfl⟩ |
      ⟨point, -, -, -, rfl⟩ | ⟨-, -, rfl⟩ := hmove
    · dsimp only
      rw [Function.update_of_ne hself, fork_apply]
      split
      · exact hshell
      · rw [if_neg (hchild p _), hshell]
    · dsimp only
      rw [Function.update_of_ne hself, Function.update_of_ne (hchild p k), hshell]
    · exact (Function.update_of_ne hself _ _).trans hshell
    · exact (Function.update_of_ne hself _ _).trans hshell

/-- A process that has been reaped and was to run a command has done so. -/
theorem Proc.Sound.ran_of_place {i : Nat}
    (h : pr.Sound exec own cmds (commandProcess cmds.length i)) (hreaped : pr.point = .reaped) :
    ∃ st ∈ pr.ran, st.i = i := by
  have hplace := h.place
  rw [Proc.place] at hplace
  split at hplace
  · next hran =>
      obtain ⟨st, hst⟩ := Option.isSome_iff_exists.mp hran
      exact ⟨st, hst, (h.stage st hst).1.trans (commandProcess_inj hplace).symm⟩
  · next hran =>
      have hmore := h.two_le (Option.not_isSome_iff_eq_none.mp hran) (by rw [hreaped]; simp)
      rw [hreaped, commandProcess] at hplace
      split at hplace
      · have hi := spine_inj.mp hplace
        omega
      · exact absurd hplace (leaf_ne_spine _ _)

theorem Proc.Sound.writeEnd (hown : NoPipes own) (h : pr.Sound exec own cmds p)
    (hsettled : pr.point.settled = true) {k : Nat} (hk : Holds pr.fds (.pipeWrite k)) :
    ∃ st ∈ pr.ran, st.i = k := by
  obtain ⟨m, hm⟩ := hk
  have hfits := h.fits
  have hran := h.ran
  have hnot : own.get m ≠ some (.pipeWrite k) := fun hget => by cases hown m _ hget
  generalize pr.point = point at hfits hran hsettled
  cases point with
  | waitFirst | waitSecond | returned =>
      rw [hfits m, inheritedFile] at hm
      split at hm
      · cases hm
      · exact absurd hm hnot
  | stage | program =>
      obtain ⟨st, hst⟩ := Option.isSome_iff_exists.mp (hran rfl)
      rw [hfits m, stageFile] at hm
      split at hm
      · cases hm
      · split at hm
        · exact ⟨st, hst, (h.stage st hst).1.trans (File.pipeWrite.inj (Option.some.inj hm))⟩
        · exact absurd hm hnot
  | zombie | reaped =>
      rw [show pr.fds = [] from hfits] at hm
      cases hm
  | _ => cases hsettled

theorem Proc.Sound.shell_fds (h : pr.Sound exec own cmds []) (hcmds : 2 ≤ cmds.length)
    (hended : pr.point.ended = false) (hsettled : pr.point.settled = true) (m : Nat) :
    pr.fds.get m = own.get m := by
  have hnone := h.shell_ran hcmds
  have hplace := h.place
  have hfits := h.fits
  have hran := h.ran
  rw [Proc.place, hnone] at hplace
  rw [hnone] at hran
  generalize pr.point = point at hplace hfits hran hended hsettled
  cases point with
  | waitFirst | waitSecond | returned =>
      have hi : 0 = pr.i := spine_inj.mp hplace
      rw [hfits m, inheritedFile, if_neg (by omega)]
  | stage | program => cases hran rfl
  | zombie | reaped => cases hended
  | _ => cases hsettled

theorem Tree.inOrder (hown : NoPipes own) (h : Tree exec own cmds w.procs)
    (hcmds : 2 ≤ cmds.length) (halive : w.Alive) : InOrder own cmds w := by
  have hfile {p : Process} {st : Stage} (hran : w.Ran p st) : st.i < cmds.length ∧
      p = commandProcess cmds.length st.i ∧ st.argv = parseline (cmds.getD st.i []) ∧
      ∀ m, st.fds.get m = stageFile own cmds.length st.i m := by
    obtain ⟨pr, hp, hst⟩ := hran
    have hsound := h.sound p pr hp
    obtain ⟨hi, hargv, hfds⟩ := hsound.stage st hst
    have hsome : pr.ran.isSome := by rw [hst]; rfl
    have hplace := hsound.place
    have hleast := hsound.least
    rw [Proc.place, if_pos hsome] at hplace
    rw [Proc.least, if_pos (.inl hsome)] at hleast
    rw [hsound.rest, List.headD_eq_head?_getD, List.head?_drop, ← List.getD_eq_getElem?_getD]
      at hargv
    rw [hi]
    exact ⟨hleast, hplace, hargv, hfds⟩
  constructor
  case process => exact fun p st hran => ⟨(hfile hran).1, (hfile hran).2.1, (hfile hran).2.2.1⟩
  case input =>
    intro p st hran
    rw [(hfile hran).2.2.2, stageFile]
    split
    · next hm => rw [if_neg (by omega)]
    · next hm => rw [if_neg (by omega), if_pos (by omega)]
  case output =>
    intro p st hran
    have hi := (hfile hran).1
    rw [(hfile hran).2.2.2, stageFile, if_neg (by omega)]
    split
    · next hm => rw [if_neg (by omega)]
    · next hm => rw [if_pos (by omega)]
  case others =>
    intro p st hran m hm
    rw [(hfile hran).2.2.2, stageFile, if_neg (by omega), if_neg (by omega)]
  case writeEnd => exact fun p pr k hp hsettled hk => (h.sound p pr hp).writeEnd hown hsettled hk
  case shell =>
    obtain ⟨shell, hshell, hended⟩ := halive
    intro pr hp hsettled
    obtain rfl : shell = pr := Option.some.inj (hshell.symm.trans hp)
    exact (h.sound [] shell hp).shell_fds hcmds hended hsettled
  case started =>
    intro hreturned i hi
    obtain ⟨pr, hp, hreaped⟩ := h.collected_of_returned hreturned (member_commandProcess hi)
      (commandProcess_ne_nil hcmds i)
    obtain ⟨st, hst, hsti⟩ := (h.sound _ pr hp).ran_of_place hreaped
    refine ⟨commandProcess cmds.length i, ⟨st, ⟨pr, hp, hst⟩, hsti⟩, ?_⟩
    rintro q ⟨st', hran, rfl⟩
    exact (hfile hran).2.1
  case ended => exact fun hreturned p pr hp hne => h.reaped hreturned hp hne

/-- **Pipelines of any length.** `run_pipe` runs every pipeline of two commands or more: each
command has a process of its own, and that process calls what the command says. -/
theorem runsPipeline (exec : List CString → Bool) {own : FdTable} {cmds : List CString}
    (hopen : ∀ m ≤ 2, own.get m ≠ none) (hown : NoPipes own) (hcmds : 2 ≤ cmds.length) :
    RunsPipeline exec own cmds := by
  have hopen' : ∀ m ≤ 1, own.get m ≠ none := fun m hm => hopen m (by omega)
  have hstart : Tree exec own cmds (World.start own cmds).procs :=
    Tree.start own (List.ne_nil_of_length_pos (Nat.lt_of_lt_of_le Nat.two_pos hcmds))
  have hreach (w : World)
      (hw : Reachable (World.step exec) anyStep (World.start own cmds) w) :
      Tree exec own cmds w.procs ∧ w.Alive ∧ w.Follows exec := by
    refine hw.invariant (I := fun w => Tree exec own cmds w.procs ∧ w.Alive ∧ w.Follows exec)
      ⟨hstart, ⟨_, rfl, rfl⟩, .start own cmds⟩ ?_
    intro w move w' ⟨h, halive, hfollows⟩ _ hstep
    exact ⟨h.step hopen' hstep, h.alive_step hcmds halive hstep,
      hfollows.step (fun _ _ _ _ hp hchild => h.child_absent hp hchild) hstep⟩
  constructor
  case bounded =>
    intro moves w hmoves
    have hmove (w : World) (move : Move) (w' : World) (h : Tree exec own cmds w.procs)
        (hstep : w.step exec move = some w') :
        Tree exec own cmds w'.procs ∧
          movesLeft cmds.length w'.procs < movesLeft cmds.length w.procs :=
      ⟨h.step hopen' hstep, h.movesLeft_step hstep⟩
    have hlength := length_le_of_exec hmove hstart hmoves
    have hleft := movesLeft_le cmds.length _ (left_start own cmds)
    omega
  case goesOn =>
    intro w hw hnot
    obtain ⟨h, ⟨shell, hshell, hended⟩, -⟩ := hreach w hw
    exact h.can_move (d := 0) hshell hended fun hpoint => absurd ⟨shell, hshell, hpoint⟩ hnot
  case inOrder => exact fun w hw => (hreach w hw).1.inOrder hown hcmds (hreach w hw).2.1
  case callsCommands =>
    intro w hw
    obtain ⟨h, halive, hfollows⟩ := hreach w hw
    have horder := h.inOrder hown hcmds halive
    exact hfollows.callsCommands fun p st hran => (horder.process p st hran).2.2

theorem runsPipeline_three :
    RunsPipeline (fun _ => true) [some (.inherited 0), some (.inherited 1), some (.inherited 2)]
      ["cat".toList, "sort".toList, "wc".toList] :=
  runsPipeline _ (by decide) noPipes_inherited (by decide)

end Results

end SystemProgramming.Phase2
