import SystemProgramming.Phase2.Descriptors
import SystemProgramming.Phase2.Survival

/-!
What the process of a command calls. On its way through `run_pipe` a process neither
becomes another program nor ends nor goes to another directory; when it has come to its
command it makes the calls of the code for that command, one after the other. This is
about one process at a time, and it does not matter what the others do, nor which
system calls have failed before.
-/

namespace SystemProgramming.Phase2

open SystemProgramming.CLib SystemProgramming.MyShell SystemProgramming.Library

/-- The calls of process `p`, in order. -/
def callsOf (p : Process) (trace : Trace) : List Call :=
  (trace.filter fun entry => entry.1 = p).map Prod.snd

section Projection

variable {p q : Process} {call : Call} {calls : List Call} {trace trace' : Trace}

@[simp] theorem callsOf_append :
    callsOf q (trace ++ trace') = callsOf q trace ++ callsOf q trace' := by
  rw [callsOf, List.filter_append, List.map_append]
  rfl

@[simp] theorem callsOf_own_self : callsOf p (own p calls) = calls := by
  simp [callsOf, own, List.filter_map, Function.comp_def]

theorem callsOf_own (hne : q ≠ p) : callsOf q (own p calls) = [] := by
  simp [callsOf, own, List.filter_map, Function.comp_def, hne.symm]

theorem callsOf_eq_nil (h : ∀ call, (q, call) ∉ trace) : callsOf q trace = [] := by
  rw [callsOf, List.map_eq_nil_iff, List.filter_eq_nil_iff]
  rintro ⟨r, call⟩ hmem hr
  obtain rfl : r = q := of_decide_eq_true hr
  exact h call hmem

theorem count_callsOf (call : Call) : (callsOf p trace).count call = trace.count (p, call) := by
  induction trace with
  | nil => rfl
  | cons entry trace ih =>
      obtain ⟨r, c⟩ := entry
      rw [callsOf] at ih ⊢
      by_cases hr : r = p
      · simp [List.count_cons, hr, ih]
      · simp [hr, ih]

theorem mem_callsOf : call ∈ callsOf p trace ↔ (p, call) ∈ trace := by
  rw [← List.count_pos_iff, count_callsOf, List.count_pos_iff]

end Projection

/-! ### Programs -/

/-- The child of phase 2 with this argument vector calls `Execvp`. -/
def isProgram : List CString → Bool
  | [] => false
  | file :: _ => file ≠ ['c', 'd'] && file ≠ ['e', 'x', 'i', 't']

theorem execvp_mem_runStage_iff (exec : List CString → Bool) (cmd : CString) (argv : List CString) :
    Call.execvp argv ∈ runStage exec cmd ↔ argv = parseline cmd ∧ isProgram argv = true := by
  rw [runStage]
  cases parseline cmd with
  | nil =>
      refine iff_of_false (by simp) ?_
      rintro ⟨rfl, hprogram⟩
      cases hprogram
  | cons file args =>
      by_cases hcd : file = ['c', 'd']
      · simp only [builtinCommand, if_pos hcd]
        have hnot : ¬(argv = file :: args ∧ isProgram argv = true) := by
          rintro ⟨rfl, hprogram⟩
          simp [isProgram, hcd] at hprogram
        cases args <;> exact iff_of_false (by simp) hnot
      by_cases hexit : file = ['e', 'x', 'i', 't']
      · refine iff_of_false (by simp [builtinCommand, hexit]) ?_
        rintro ⟨rfl, hprogram⟩
        simp [isProgram, hexit] at hprogram
      · have hprogram : isProgram (file :: args) = true := by simp [isProgram, hcd, hexit]
        have hcall : Call.execvp argv ∈ execvpOrExit exec (file :: args) 0 ↔ argv = file :: args := by
          rw [execvpOrExit]
          split <;> simp
        simp only [builtinCommand, if_neg hcd, if_neg hexit, List.nil_append]
        rw [hcall]
        constructor
        · rintro rfl
          exact ⟨rfl, hprogram⟩
        · exact And.left

/-- The code for a command depends on its words only. -/
theorem runStage_congr {exec : List CString → Bool} {cmd cmd' : CString}
    (h : parseline cmd = parseline cmd') : runStage exec cmd = runStage exec cmd' := by
  rw [runStage, runStage, h]

/-! ### One process -/

/-- The calls of the code for a single command that are still to come. -/
def Point.todo : Point → List Call
  | .stage calls => calls
  | _ => []

/-- What a process has called, by what it has come to. -/
inductive Proc.Follows (exec : List CString → Bool) (made : List Call) (pr : Proc) : Prop
  | before (hran : pr.ran = none) (hcommand : pr.point.inCommand = false)
      (hmade : ∀ call ∈ made, call.endangers = true → call = .exit 0 ∧ pr.point.ended = true)
  | command (st : Stage) (cmd : CString) (setUp : List Call) (hran : pr.ran = some st)
      (hpoint : pr.point.inCommand = true ∨ pr.point.ended = true)
      (hfds : pr.point.ended = false → pr.fds = st.fds)
      (hfinishes : ∀ calls, pr.point = .stage calls → Proc.Finishes exec calls)
      (hargv : st.argv = parseline cmd) (hsetUp : ∀ call ∈ setUp, call.endangers = false)
      (hcalls : made ++ pr.point.todo = setUp ++ runStage exec cmd)

namespace Proc.Follows

variable {exec : List CString → Bool} {made calls : List Call} {pr pr' : Proc} {p : Process}
  {point : Point}

/-- A process that is neither in a command nor at its end. -/
theorem not_come (h : pr.Follows exec made) (hcommand : pr.point.inCommand = false)
    (hended : pr.point.ended = false) :
    pr.ran = none ∧ ∀ call ∈ made, call.endangers = false := by
  cases h with
  | before hran _ hmade =>
      refine ⟨hran, fun call hmem => ?_⟩
      by_contra hcall
      have hexit := (hmade call hmem (by simpa using hcall)).2
      rw [hended] at hexit
      cases hexit
  | command st cmd setUp hran hpoint =>
      rw [hcommand, hended] at hpoint
      simp at hpoint

/-- It goes on, and does not come to its command. -/
theorem go (h : pr.Follows exec made) (hcommand : pr.point.inCommand = false)
    (hended : pr.point.ended = false) (hran : pr'.ran = pr.ran)
    (hcommand' : pr'.point.inCommand = false) (hcalls : ∀ call ∈ calls, call.endangers = false) :
    pr'.Follows exec (made ++ calls) := by
  obtain ⟨hnone, hmade⟩ := h.not_come hcommand hended
  refine .before (hran.trans hnone) hcommand' fun call hmem hcall => ?_
  have hnot : call.endangers = false :=
    (List.mem_append.mp hmem).elim (hmade call) (hcalls call)
  rw [hnot] at hcall
  cases hcall

/-- It comes to its command. -/
theorem toStage (h : pr.Follows exec made) (hcommand : pr.point.inCommand = false)
    (hended : pr.point.ended = false) (hcalls : ∀ call ∈ calls, call.endangers = false)
    (fds : FdTable) : ({ pr with fds := fds }.toStage exec).Follows exec (made ++ calls) := by
  have hmade := (h.not_come hcommand hended).2
  refine .command _ (pr.cmds.headD []) (made ++ calls) rfl (.inl rfl) (fun _ => rfl)
    (fun calls hstage => Point.stage.inj hstage ▸ finishes_runStage exec _) rfl ?_ rfl
  exact fun call hmem => (List.mem_append.mp hmem).elim (hmade call) (hcalls call)

/-- It is in its command, and makes a call of it. -/
theorem inStage (h : pr.Follows exec made) {call : Call} {todo : List Call}
    (hat : pr.point = .stage (call :: todo)) (hran : pr'.ran = pr.ran)
    (hpoint : pr'.point.inCommand = true ∨ pr'.point.ended = true)
    (hfds : pr'.point.ended = false → pr'.fds = pr.fds)
    (hrest : Finishes exec (call :: todo) → pr'.point.todo = todo ∧
      ∀ calls, pr'.point = .stage calls → Finishes exec calls) :
    pr'.Follows exec (made ++ [call]) := by
  cases h with
  | before _ hcommand =>
      rw [hat] at hcommand
      cases hcommand
  | command st cmd setUp hst hin hfds' hfin hargv hsetUp hcalls =>
      obtain ⟨htodo, hfinishes⟩ := hrest (hfin _ hat)
      rw [hat] at hfds' hcalls
      refine .command st cmd setUp (hran.trans hst) hpoint
        (fun hended => (hfds hended).trans (hfds' rfl)) hfinishes hargv hsetUp ?_
      rw [htodo, ← hcalls, List.append_assoc]
      rfl

/-- A process goes on as it has to with every call of its own. -/
theorem next (h : pr.Follows exec made) (hnext : pr.next exec p = some (calls, pr')) :
    pr'.Follows exec (made ++ calls) := by
  cases next_branch hnext with
  | nothing hpoint | pipe _ _ _ hpoint | forkLeft hpoint | forkRight hpoint | closeRead hpoint
  | closeWrite hpoint | dupWrite hpoint | dupRead hpoint | childRead _ hpoint | others hpoint =>
      exact h.go (by rw [hpoint]; rfl) (by rw [hpoint]; rfl) rfl rfl (by simp [Call.endangers])
  | single cmd hpoint | first hpoint =>
      exact h.toStage (by rw [hpoint]; rfl) (by rw [hpoint]; rfl) (by simp [Call.endangers]) _
  | returned hpoint =>
      obtain ⟨hran, hmade⟩ := h.not_come (by rw [hpoint]; rfl) (by rw [hpoint]; rfl)
      refine .before hran rfl fun call hmem hcall => ⟨?_, rfl⟩
      rcases List.mem_append.mp hmem with hmem | hmem
      · rw [hmade call hmem] at hcall
        cases hcall
      · exact List.mem_singleton.mp hmem
  | execvp argv todo hpoint =>
      by_cases hexec : exec argv = true
      · refine h.inStage hpoint rfl (by simp [hexec, Point.inCommand]) (fun _ => rfl) ?_
        intro hfinishes
        rw [Finishes, if_pos hexec] at hfinishes
        simp [hexec, Point.todo, hfinishes]
      · refine h.inStage hpoint rfl (by simp [hexec, Point.inCommand]) (fun _ => rfl) ?_
        intro hfinishes
        rw [Finishes, if_neg hexec] at hfinishes
        simpa [hexec, Point.todo] using hfinishes
  | exit status todo hpoint =>
      refine h.inStage hpoint rfl (.inr rfl) (fun hended => by cases hended) fun hfinishes => ?_
      exact ⟨(show todo = [] from hfinishes).symm, fun calls hstage => by cases hstage⟩
  | call call todo hpoint hexecvp hexit =>
      refine h.inStage hpoint rfl (.inl rfl) (fun _ => rfl) fun hfinishes => ⟨rfl, ?_⟩
      rintro _ ⟨⟩
      exact (finishes_cons hexecvp hexit).mp hfinishes

theorem child (h : pr.Follows exec made) {k : Nat} {child : Proc}
    (hchild : pr.child = some (k, child)) : child.Follows exec [] := by
  obtain ⟨hpoint, -, rfl⟩ | ⟨hpoint, -, rfl⟩ := child_cases hchild
  all_goals
    obtain ⟨hran, -⟩ := h.not_come (by rw [hpoint]; rfl) (by rw [hpoint]; rfl)
    exact .before hran rfl (by simp)

theorem afterWait (h : pr.Follows exec made) (hpoint : pr.point.afterWait = some point)
    (hcalls : ∀ call ∈ calls, call.endangers = false) :
    Proc.Follows exec (made ++ calls) { pr with point := point } := by
  cases hat : pr.point with
  | waitFirst | waitSecond =>
      rw [hat] at hpoint
      obtain rfl := Option.some.inj hpoint
      exact h.go (by rw [hat]; rfl) (by rw [hat]; rfl) rfl rfl hcalls
  | _ => rw [hat] at hpoint; cases hpoint

/-- What it has called stays when the program ends and when it has been waited for. -/
theorem ends (h : pr.Follows exec made) (hpoint : pr.point = .program ∨ pr.point = .zombie)
    (hran : pr'.ran = pr.ran) (hended : pr'.point = .zombie ∨ pr'.point = .reaped) :
    pr'.Follows exec made := by
  have hdone : pr'.point.ended = true := by obtain hat | hat := hended <;> rw [hat] <;> rfl
  cases h with
  | before hnone hcommand hmade =>
      refine .before (hran.trans hnone) ?_ fun call hmem hcall => ⟨(hmade call hmem hcall).1, hdone⟩
      obtain hat | hat := hended <;> rw [hat] <;> rfl
  | command st cmd setUp hst hin hfds hfinishes hargv hsetUp hcalls =>
      refine .command st cmd setUp (hran.trans hst) (.inr hdone) (fun hnot => ?_)
        (fun calls hstage => ?_) hargv hsetUp ?_
      · rw [hdone] at hnot
        cases hnot
      · rw [hstage] at hdone
        cases hdone
      · obtain hat | hat := hpoint <;> obtain hat' | hat' := hended <;>
          simpa [hat, hat', Point.todo] using hcalls

end Proc.Follows

/-! ### All processes -/

/-- Each process has called what it was to call, and nobody who is not there has called
anything. -/
structure World.Follows (exec : List CString → Bool) (w : World) : Prop where
  each : ∀ p pr, w.procs p = some pr → pr.Follows exec (callsOf p w.trace)
  absent : ∀ p, w.procs p = none → callsOf p w.trace = []

section World

variable {exec : List CString → Bool} {own : FdTable} {cmds : List CString} {p : Process}
  {pr pr' : Proc} {procs : Process → Option Proc} {calls : List Call} {w w' : World} {move : Move}

theorem World.Follows.start (own : FdTable) (cmds : List CString) :
    (World.start own cmds).Follows exec where
  each p pr hp := by
    rw [World.start] at hp
    dsimp only at hp
    split at hp
    · obtain rfl := Option.some.inj hp
      exact .before rfl rfl (by simp [World.start, callsOf])
    · cases hp
  absent p _ := rfl

/-- Process `p` makes calls, and the others stay as they are, end or are forked. -/
theorem World.Follows.update (h : w.Follows exec) (hp : w.procs p = some pr)
    (hself : pr'.Follows exec (callsOf p w.trace ++ calls))
    (hothers : ∀ q, q ≠ p → procs q = w.procs q ∨
      ∃ qr, procs q = some qr ∧ qr.Follows exec (callsOf q w.trace)) :
    World.Follows exec
      ⟨Function.update procs p (some pr'), w.trace ++ Phase2.own p calls⟩ where
  each q qr hq := by
    dsimp only at hq ⊢
    rw [callsOf_append]
    by_cases hqp : q = p
    · subst hqp
      rw [Function.update_self, Option.some.injEq] at hq
      rw [callsOf_own_self, ← hq]
      exact hself
    · rw [Function.update_of_ne hqp] at hq
      rw [callsOf_own hqp, List.append_nil]
      obtain hsame | ⟨qr', hqr', hfollows⟩ := hothers q hqp
      · exact h.each q qr (hsame.symm.trans hq)
      · obtain rfl := Option.some.inj (hqr'.symm.trans hq)
        exact hfollows
  absent q hq := by
    dsimp only at hq ⊢
    by_cases hqp : q = p
    · subst hqp
      rw [Function.update_self] at hq
      cases hq
    · rw [Function.update_of_ne hqp] at hq
      rw [callsOf_append, callsOf_own hqp, List.append_nil]
      obtain hsame | ⟨qr', hqr', -⟩ := hothers q hqp
      · exact h.absent q (hsame.symm.trans hq)
      · cases hq.symm.trans hqr'

/-- Process `p` goes on alone, and does not come to its command. -/
theorem World.Follows.go (h : w.Follows exec) (hp : w.procs p = some pr)
    (hcommand : pr.point.inCommand = false) (hended : pr.point.ended = false)
    (hran : pr'.ran = pr.ran) (hcommand' : pr'.point.inCommand = false)
    (hcalls : ∀ call ∈ calls, call.endangers = false) :
    World.Follows exec
      ⟨Function.update w.procs p (some pr'), w.trace ++ Phase2.own p calls⟩ :=
  h.update hp ((h.each p pr hp).go hcommand hended hran hcommand' hcalls) fun _ _ => .inl rfl

/-- **Every step keeps to the calls**, where children are forked at places that are free. -/
theorem World.Follows.step (h : w.Follows exec)
    (hfree : ∀ p pr k child, w.procs p = some pr → pr.child = some (k, child) →
      w.procs (p ++ [k]) = none)
    (hstep : w.step exec move = some w') : w'.Follows exec := by
  obtain ⟨p, pr, hp, ⟨calls, pr', -, hnext, rfl⟩ | ⟨k, point, child, -, hpoint, hchild, hzombie,
    rfl⟩ | ⟨point, -, hpoint, -, rfl⟩ | ⟨-, hpoint, rfl⟩⟩ := World.step_cases hstep
  all_goals have hat := h.each p pr hp
  · refine h.update hp (hat.next hnext) fun q _ => ?_
    rw [fork_apply]
    cases hchild : pr.child with
    | none => exact .inl rfl
    | some forked =>
        obtain ⟨k, child⟩ := forked
        by_cases hq : q = p ++ [k]
        · refine .inr ⟨child, if_pos hq, ?_⟩
          rw [h.absent q (hq ▸ hfree p pr k child hp hchild)]
          exact hat.child hchild
        · exact .inl (if_neg hq)
  · refine h.update hp (hat.afterWait hpoint (by simp [Call.endangers])) fun q _ => ?_
    rw [Function.update_apply]
    by_cases hq : q = p ++ [k]
    · subst hq
      exact .inr ⟨_, if_pos rfl, (h.each _ child hchild).ends (.inr hzombie) rfl (.inr rfl)⟩
    · exact .inl (if_neg hq)
  · exact h.update hp (hat.afterWait hpoint (by simp [Call.endangers])) fun q _ => .inl rfl
  · have hself : pr.exits.Follows exec (callsOf p w.trace ++ []) := by
      rw [List.append_nil]
      exact hat.ends (.inl hpoint) rfl (.inl rfl)
    have hends := h.update hp hself fun q _ => .inl rfl
    rwa [show Phase2.own p [] = [] from rfl, List.append_nil] at hends

end World

end SystemProgramming.Phase2
