import SystemProgramming.Library.Refinement
import SystemProgramming.Phase2.ForkFailureRuns

/-!
Pipelines in which `pipe` may fail too. `run_pipe` does not look at what `Pipe` returns,
and `fd` is not initialised: the children copy and close whatever descriptors it holds
by chance, and so does the caller. Where the processes go does not depend on their
descriptors, so the pipeline still comes to its end; the descriptors do.
-/

namespace SystemProgramming.Phase2

open SystemProgramming.CLib SystemProgramming.MyShell SystemProgramming.Library

/-! ### Processes without their descriptors -/

/-- What a process is apart from its descriptors. -/
def Proc.control (pr : Proc) : Proc :=
  { pr with
    fds := []
    fd := (-1, -1)
    ran := pr.ran.map fun st => { st with fds := [] } }

/-- Two states of the processes that differ in descriptors only. -/
def Alike (procs procs' : Process → Option Proc) : Prop :=
  ∀ p, (procs p).map Proc.control = (procs' p).map Proc.control

section Control

variable {exec : List CString → Bool} {p q : Process} {pr pr' qr : Proc} {calls : List Call}
  {procs procs' : Process → Option Proc} {k : Nat}

theorem point_eq (h : pr.control = qr.control) : pr.point = qr.point :=
  (congrArg Proc.point h : pr.control.point = qr.control.point)

theorem next_control (exec : List CString → Bool) (p : Process) (pr : Proc) :
    (pr.next exec p).map (Prod.map id Proc.control) =
      (pr.control.next exec p).map (Prod.map id Proc.control) := by
  obtain ⟨fds, i, cmds, fd, point, ran⟩ := pr
  cases point with
  | enter =>
      rcases cmds with _ | ⟨cmd, _ | ⟨cmd', cmds⟩⟩ <;>
        simp [Proc.next, Proc.control, Proc.toStage, Function.comp_def]
  | returned =>
      by_cases hp : p = [] <;> simp [Proc.next, Proc.control, Proc.exits, hp, Function.comp_def]
  | setUp side point =>
      cases side <;> cases point <;>
        simp [Proc.next, Proc.control, Proc.toStage, Function.comp_def]
  | stage todo =>
      rcases todo with _ | ⟨call, todo⟩
      · rfl
      · cases call <;> simp [Proc.next, Proc.control, Proc.exits, Function.comp_def]
  | _ => simp [Proc.next, Proc.control, Function.comp_def]

theorem child_control (pr : Proc) :
    pr.child.map (Prod.map id Proc.control) = pr.control.child.map (Prod.map id Proc.control) := by
  obtain ⟨fds, i, cmds, fd, point, ran⟩ := pr
  cases point <;> simp [Proc.child, Proc.control, Function.comp_def]

theorem exists_of_control {α : Type} {x y : Option (α × Proc)} {a : α}
    (h : x.map (Prod.map id Proc.control) = y.map (Prod.map id Proc.control))
    (hx : x = some (a, pr)) : ∃ qr, y = some (a, qr) ∧ pr.control = qr.control := by
  rw [hx, Option.map_some] at h
  obtain ⟨⟨a', qr⟩, hy, heq⟩ := Option.map_eq_some_iff.mp h.symm
  obtain ⟨rfl, hcontrol⟩ := Prod.mk.inj heq
  exact ⟨qr, hy, hcontrol.symm⟩

/-- A process with the same control makes the same call. -/
theorem exists_next (h : pr.control = qr.control) (hnext : pr.next exec p = some (calls, pr')) :
    ∃ qr', qr.next exec p = some (calls, qr') ∧ pr'.control = qr'.control :=
  exists_of_control ((next_control exec p pr).trans (h ▸ (next_control exec p qr).symm)) hnext

theorem exists_child (h : pr.control = qr.control) {child : Proc}
    (hchild : pr.child = some (k, child)) :
    ∃ child', qr.child = some (k, child') ∧ child.control = child'.control :=
  exists_of_control ((child_control pr).trans (h ▸ (child_control qr).symm)) hchild

theorem Alike.symm (h : Alike procs procs') : Alike procs' procs := fun p => (h p).symm

theorem Alike.exists_proc (h : Alike procs procs') (hp : procs p = some pr) :
    ∃ qr, procs' p = some qr ∧ pr.control = qr.control := by
  have hsame := h p
  rw [hp, Option.map_some] at hsame
  obtain ⟨qr, hq, heq⟩ := Option.map_eq_some_iff.mp hsame.symm
  exact ⟨qr, hq, heq.symm⟩

theorem Alike.update (h : Alike procs procs') (p : Process) (hpr : pr.control = qr.control) :
    Alike (Function.update procs p (some pr))
      (Function.update procs' p (some qr)) := by
  intro q
  rw [Function.update_apply, Function.update_apply]
  split
  · rw [Option.map_some, Option.map_some, hpr]
  · exact h q

theorem Alike.fork (h : Alike procs procs') (p : Process) (hpr : pr.control = qr.control) :
    Alike (fork procs p pr) (fork procs' p qr) := by
  cases hchild : pr.child with
  | none =>
      have hnone : qr.child = none := by
        by_contra hsome
        obtain ⟨⟨k, child⟩, hqr⟩ := Option.ne_none_iff_exists'.mp hsome
        obtain ⟨child', hpr', -⟩ := exists_child hpr.symm hqr
        rw [hchild] at hpr'
        cases hpr'
      rw [Phase2.fork, Phase2.fork, hchild, hnone]
      exact h
  | some forked =>
      obtain ⟨k, child⟩ := forked
      obtain ⟨child', hqr, hcontrol⟩ := exists_child hpr hchild
      rw [Phase2.fork, Phase2.fork, hchild, hqr]
      exact h.update (p ++ [k]) hcontrol

theorem Alike.noChildren (h : Alike procs procs') (hnone : noChildren procs p = true) :
    noChildren procs' p = true := by
  refine List.all_eq_true.mpr fun k hk => ?_
  have hall := List.all_eq_true.mp hnone k hk
  cases hchild : procs' (p ++ [k]) with
  | none => rfl
  | some child' =>
      obtain ⟨child, hchild', hcontrol⟩ := h.symm.exists_proc hchild
      rw [hchild', Option.all_some] at hall
      rw [Option.all_some, point_eq hcontrol]
      exact hall

theorem control_point (h : pr.control = qr.control) (point : Point) {fds fds' : FdTable}
    {fd fd' : Int × Int} : { pr with fds := fds, fd := fd, point := point }.control =
      { qr with fds := fds', fd := fd', point := point }.control := by
  obtain ⟨_, i, cmds, _, _, ran⟩ := pr
  obtain ⟨_, i', cmds', _, _, ran'⟩ := qr
  simp only [Proc.control, Proc.mk.injEq, true_and] at h ⊢
  exact ⟨h.1, h.2.1, h.2.2.2⟩

/-- **Descriptors do not steer.** What one state can do the other can do. -/
theorem Alike.step {w v w' : World} (h : Alike w.procs v.procs) {move : Move}
    (hstep : w.step exec move = some w') :
    ∃ v', v.step exec move = some v' ∧ Alike w'.procs v'.procs := by
  obtain ⟨p, pr, hp, ⟨calls, pr', rfl, hnext, rfl⟩ | ⟨k, point, child, rfl, hpoint, hchild,
    hzombie, rfl⟩ | ⟨point, rfl, hpoint, hnone, rfl⟩ | ⟨rfl, hpoint, rfl⟩⟩ :=
      World.step_cases hstep
  all_goals obtain ⟨qr, hq, hcontrol⟩ := h.exists_proc hp
  · obtain ⟨qr', hnext', hcontrol'⟩ := exists_next hcontrol hnext
    refine ⟨⟨Function.update (Phase2.fork v.procs p qr) p (some qr'), v.trace ++ own p calls⟩, ?_,
      (h.fork p hcontrol).update p hcontrol'⟩
    simp [World.step, hq, hnext']
  · obtain ⟨child', hchild', hc⟩ := h.exists_proc hchild
    rw [point_eq hcontrol] at hpoint
    rw [point_eq hc] at hzombie
    refine ⟨⟨Function.update
        (Function.update v.procs (p ++ [k]) (some { child' with point := .reaped }))
        p (some { qr with point := point }), v.trace ++ own p [.waitpid]⟩, ?_,
      (h.update _ (control_point hc .reaped)).update p (control_point hcontrol point)⟩
    simp [World.step, hq, hpoint, hchild', hzombie]
  · rw [point_eq hcontrol] at hpoint
    refine ⟨⟨Function.update v.procs p (some { qr with point := point }),
      v.trace ++ own p [.waitpid, .message]⟩, ?_, h.update p (control_point hcontrol point)⟩
    simp [World.step, hq, hpoint, h.noChildren hnone]
  · rw [point_eq hcontrol] at hpoint
    refine ⟨⟨Function.update v.procs p (some qr.exits), v.trace⟩, ?_,
      h.update p (control_point hcontrol .zombie)⟩
    simp [World.step, hq, hpoint]

end Control

/-! ### Steps -/

/-- `broken` has what was in `fd` where a `pipe` has failed. -/
structure Broken where
  faulty : Faulty
  broken : Process → Option (Int × Int)

inductive BrokenMove
  | made (move : FaultyMove)
  /-- The `pipe` that process `p` calls next fails, and `fd` holds these numbers. -/
  | pipeFails (p : Process) (fd : Int × Int)
  deriving DecidableEq

def Broken.start (own : FdTable) (cmds : List CString) : Broken where
  faulty := .start own cmds
  broken _ := none

def Broken.step (exec : List CString → Bool) (b : Broken) : BrokenMove → Option Broken
  | .made move => (b.faulty.step exec move).map fun f => { b with faulty := f }
  | .pipeFails p fd => do
      let pr ← b.faulty.world.procs p
      match pr.point, pr.cmds with
      | .enter, _ :: _ :: _ =>
          some
            { faulty :=
                { b.faulty with
                  world :=
                    { procs := Function.update b.faulty.world.procs p
                        (some { pr with fd := fd, point := .forkLeft })
                      trace := b.faulty.world.trace ++ own p [.pipe, .message] } }
              broken := Function.update b.broken p (some fd) }
      | _, _ => none

/-- The move of a process whose `pipe` works. -/
def BrokenMove.mended : BrokenMove → FaultyMove
  | .made move => move
  | .pipeFails p _ => .made (.call p)

/-- The same state of a pipeline whose pipes have all worked. -/
structure Mends (b : Broken) (f : Faulty) : Prop where
  alike : Alike b.faulty.world.procs f.world.procs
  failed : b.faulty.failed = f.failed

section Steps

variable {exec : List CString → Bool} {own : FdTable} {cmds : List CString} {p : Process}
  {pr : Proc} {b b' : Broken} {f : Faulty} {move : BrokenMove}

theorem Broken.step_cases (h : b.step exec move = some b') :
    (∃ made f', move = .made made ∧ b.faulty.step exec made = some f' ∧ b' = ⟨f', b.broken⟩) ∨
    (∃ p fd pr, move = .pipeFails p fd ∧ b.faulty.world.procs p = some pr ∧ pr.point = .enter ∧
      2 ≤ pr.cmds.length ∧ b' = ⟨⟨⟨Function.update b.faulty.world.procs p
        (some { pr with fd := fd, point := .forkLeft }),
        b.faulty.world.trace ++ Phase2.own p [.pipe, .message]⟩, b.faulty.failed⟩,
        Function.update b.broken p (some fd)⟩) := by
  cases move with
  | made made =>
      obtain ⟨f', hstep, rfl⟩ := Option.map_eq_some_iff.mp h
      exact .inl ⟨made, f', rfl, hstep, rfl⟩
  | pipeFails p fd =>
      simp only [Broken.step, Option.bind_eq_bind, Option.bind_eq_some_iff] at h
      obtain ⟨pr, hp, h⟩ := h
      split at h
      · next hpoint hcmds =>
          obtain rfl := Option.some.inj h
          exact .inr ⟨p, fd, pr, rfl, hp, hpoint, by simp [hcmds], rfl⟩
      · cases h

theorem Mends.step (h : Mends b f) (hstep : b.step exec move = some b') :
    ∃ f', f.step exec move.mended = some f' ∧ Mends b' f' := by
  obtain ⟨made, f', rfl, hmade, rfl⟩ | ⟨p, fd, pr, rfl, hp, hpoint, hcmds, rfl⟩ :=
    Broken.step_cases hstep
  · obtain ⟨made, w', rfl, hmove, rfl⟩ |
      ⟨p, pr, k, child, calls, pr', rfl, hp, hchild, hnext, rfl⟩ := Faulty.step_cases hmade
    · obtain ⟨v', hv, halike⟩ := h.alike.step hmove
      exact ⟨{ f with world := v' }, by simp [BrokenMove.mended, Faulty.step, hv],
        halike, h.failed⟩
    · obtain ⟨qr, hq, hcontrol⟩ := h.alike.exists_proc hp
      obtain ⟨child', hchild', -⟩ := exists_child hcontrol hchild
      obtain ⟨qr', hnext', hcontrol'⟩ := exists_next hcontrol hnext
      refine ⟨⟨⟨Function.update f.world.procs p (some qr'),
        f.world.trace ++ Phase2.own p (calls ++ [.message])⟩, (p, k) :: f.failed⟩, ?_,
        h.alike.update p hcontrol', by rw [h.failed]⟩
      simp [BrokenMove.mended, Faulty.step, hq, hchild', hnext']
  · obtain ⟨qr, hq, hcontrol⟩ := h.alike.exists_proc hp
    have hcmds' : qr.cmds = pr.cmds :=
      (congrArg Proc.cmds hcontrol.symm : qr.control.cmds = pr.control.cmds)
    rw [point_eq hcontrol] at hpoint
    rw [← hcmds'] at hcmds
    obtain ⟨cmd, cmd', rest, hrest⟩ : ∃ cmd cmd' rest, qr.cmds = cmd :: cmd' :: rest := by
      rcases hlist : qr.cmds with _ | ⟨cmd, _ | ⟨cmd', rest⟩⟩
      · simp [hlist] at hcmds
      · simp [hlist] at hcmds
      · exact ⟨cmd, cmd', rest, rfl⟩
    refine ⟨{ f with
      world := ⟨Function.update f.world.procs p (some
        { qr with fd := (qr.fds.pipe qr.i).1, fds := (qr.fds.pipe qr.i).2, point := .forkLeft }),
        f.world.trace ++ Phase2.own p [.pipe]⟩ }, ?_, ?_, h.failed⟩
    · simp [BrokenMove.mended, Faulty.step, World.step, hq, Proc.next, hpoint, hrest, fork,
        Proc.child]
    · exact h.alike.update p (control_point hcontrol .forkLeft)

end Steps

/-! ### Descriptors -/

/-- Neither the `pipe` of process `p` has failed nor one above it. -/
def Broken.Unbroken (b : Broken) (p : Process) : Prop := ∀ q, q <+: p → b.broken q = none

/-- What the shell has when its `pipe` has failed: it closes what `fd` holds. -/
def Torn (own : FdTable) (fd : Int × Int) (pr : Proc) : Prop :=
  pr.fd = fd ∧
    match pr.point with
    | .forkLeft | .forkRight | .closeRead => ∀ m, pr.fds.get m = own.get m
    | .closeWrite => ∀ m : Nat, pr.fds.get m = if (m : Int) = fd.1 then none else own.get m
    | .waitFirst | .waitSecond | .returned =>
        ∀ m : Nat, pr.fds.get m = if (m : Int) = fd.1 ∨ (m : Int) = fd.2 then none else own.get m
    | _ => False

/-- What holds of the descriptors in any state. -/
structure Tied (exec : List CString → Bool) (own : FdTable) (cmds : List CString) (b : Broken) :
    Prop where
  sound : ∀ p pr, b.faulty.world.procs p = some pr → b.Unbroken p → pr.Sound exec own cmds p
  shell : ∀ fd, b.broken [] = some fd → ∀ pr, b.faulty.world.procs [] = some pr → Torn own fd pr

section Descriptors

variable {exec : List CString → Bool} {own : FdTable} {cmds : List CString} {p q : Process}
  {pr pr' : Proc} {calls : List Call} {b b' : Broken} {move : BrokenMove} {fd : Int × Int}
  {k : Nat}

theorem Broken.Unbroken.parent (h : b.Unbroken (p ++ [k])) : b.Unbroken p :=
  fun q hq => h q (hq.trans (List.prefix_append p [k]))

theorem Torn.next (h : Torn own fd pr) (hnext : pr.next exec [] = some (calls, pr')) :
    Torn own fd pr' := by
  obtain ⟨hfd, hfds⟩ := h
  cases Proc.next_branch hnext with
  | forkLeft hpoint | forkRight hpoint =>
      rw [hpoint] at hfds
      exact ⟨hfd, hfds⟩
  | closeRead hpoint =>
      rw [hpoint] at hfds
      refine ⟨hfd, fun m => ?_⟩
      rw [FdTable.get_close, hfd, hfds]
  | closeWrite hpoint =>
      rw [hpoint] at hfds
      refine ⟨hfd, fun m => ?_⟩
      rw [FdTable.get_close, hfd, hfds]
      by_cases hread : (m : Int) = fd.1 <;> simp [hread]
  | returned hpoint hp => exact absurd rfl hp
  | nothing hpoint | single _ hpoint | pipe _ _ _ hpoint | dupWrite hpoint | dupRead hpoint
  | childRead _ hpoint | first hpoint | others hpoint | execvp _ _ hpoint | exit _ _ hpoint
  | call _ _ hpoint =>
      rw [hpoint] at hfds
      exact hfds.elim

theorem Torn.afterWait (h : Torn own fd pr) {point : Point}
    (hpoint : pr.point.afterWait = some point) : Torn own fd { pr with point := point } := by
  obtain ⟨hfd, hfds⟩ := h
  obtain ⟨hat, rfl⟩ | ⟨hat, rfl⟩ := Point.afterWait_cases hpoint <;> rw [hat] at hfds <;>
    exact ⟨hfd, hfds⟩

theorem Tied.start (own : FdTable) (hcmds : cmds ≠ []) :
    Tied exec own cmds (Broken.start own cmds) where
  sound p pr hp _ := (Tree.start own hcmds).sound p pr hp
  shell fd hfd := by cases hfd

/-- Processes change and no `pipe` fails. -/
theorem Tied.update {f : Faulty} (h : Tied exec own cmds b)
    (hnew : ∀ q qr, f.world.procs q = some qr → b.faulty.world.procs q = some qr ∨
      (b.Unbroken q → qr.Sound exec own cmds q) ∧
        (q = [] → ∀ fd, b.broken [] = some fd → Torn own fd qr)) :
    Tied exec own cmds ⟨f, b.broken⟩ where
  sound q qr hq hunbroken :=
    (hnew q qr hq).elim (fun hold => h.sound q qr hold hunbroken) fun hs => hs.1 hunbroken
  shell fd hfd qr hq :=
    (hnew [] qr hq).elim (fun hold => h.shell fd hfd qr hold) fun hs => hs.2 rfl fd hfd

theorem update_eq_some {procs : Process → Option Proc}
    (h : Function.update procs p (some pr') q = some pr) :
    (q = p ∧ pr' = pr) ∨ procs q = some pr := by
  rw [Function.update_apply] at h
  split at h
  · next hq => exact .inl ⟨hq, Option.some.inj h⟩
  · exact .inr h

theorem Tied.step_faulty (hopen : ∀ m ≤ 1, own.get m ≠ none) (h : Tied exec own cmds b)
    {f : Faulty} {made : FaultyMove} (hstep : b.faulty.step exec made = some f) :
    Tied exec own cmds ⟨f, b.broken⟩ := by
  have hself {p : Process} {pr pr' : Proc} {calls : List Call}
      (hp : b.faulty.world.procs p = some pr) (hnext : pr.next exec p = some (calls, pr')) :
      (b.Unbroken p → pr'.Sound exec own cmds p) ∧
        (p = [] → ∀ fd, b.broken [] = some fd → Torn own fd pr') := by
    refine ⟨fun hunbroken => (h.sound p pr hp hunbroken).next hopen hnext, ?_⟩
    rintro rfl fd hfd
    exact (h.shell fd hfd pr hp).next hnext
  have hwait {p : Process} {pr : Proc} {point : Point} (hp : b.faulty.world.procs p = some pr)
      (hpoint : pr.point.afterWait = some point) :
      (b.Unbroken p → Proc.Sound exec own cmds p { pr with point := point }) ∧
        (p = [] → ∀ fd, b.broken [] = some fd → Torn own fd { pr with point := point }) := by
    refine ⟨fun hunbroken => (h.sound p pr hp hunbroken).afterWait hpoint, ?_⟩
    rintro rfl fd hfd
    exact (h.shell fd hfd pr hp).afterWait hpoint
  obtain ⟨made, w', -, hmade, rfl⟩ | ⟨p, pr, k, child, calls, pr', -, hp, hchild, hnext, rfl⟩ :=
    Faulty.step_cases hstep
  · obtain ⟨p, pr, hp, ⟨calls, pr', -, hnext, rfl⟩ | ⟨k, point, child, -, hpoint, hchild, hzombie,
      rfl⟩ | ⟨point, -, hpoint, hnone, rfl⟩ | ⟨-, hpoint, rfl⟩⟩ := World.step_cases hmade
    all_goals refine h.update fun q qr hq => ?_
    all_goals obtain ⟨rfl, rfl⟩ | hq := update_eq_some hq
    · exact .inr (hself hp hnext)
    · rw [fork_apply] at hq
      split at hq
      · exact .inl hq
      · next k child hchild =>
          split at hq
          · next heq =>
              obtain rfl := Option.some.inj hq
              subst heq
              refine .inr ⟨fun hunbroken => ?_, fun hnil => absurd hnil (by simp)⟩
              exact (h.sound p pr hp hunbroken.parent).child hchild
          · exact .inl hq
    · exact .inr (hwait hp hpoint)
    · obtain ⟨rfl, rfl⟩ | hq := update_eq_some hq
      · refine .inr ⟨fun hunbroken => ?_, fun hnil => absurd hnil (by simp)⟩
        exact (h.sound _ child hchild hunbroken).reaped hzombie
      · exact .inl hq
    · exact .inr (hwait hp hpoint)
    · exact .inl hq
    · refine .inr ⟨fun hunbroken => ?_, ?_⟩
      · have hsound := h.sound q pr hp hunbroken
        have hran : pr.ran.isSome := by rw [hsound.ran (by rw [hpoint]; rfl), hpoint]; rfl
        exact hsound.exits (.inl hran)
      · rintro rfl fd hfd
        have htorn := (h.shell fd hfd pr hp).2
        rw [hpoint] at htorn
        exact htorn.elim
    · exact .inl hq
  · refine h.update fun q qr hq => ?_
    obtain ⟨rfl, rfl⟩ | hq := update_eq_some hq
    · exact .inr (hself hp hnext)
    · exact .inl hq

/-- **Every step keeps the descriptors tied.** -/
theorem Tied.step (hopen : ∀ m ≤ 1, own.get m ≠ none) (h : Tied exec own cmds b)
    (hstep : b.step exec move = some b') : Tied exec own cmds b' := by
  obtain ⟨made, f', -, hmade, rfl⟩ | ⟨p, fd, pr, -, hp, hpoint, -, rfl⟩ := Broken.step_cases hstep
  · exact h.step_faulty hopen hmade
  constructor
  case sound =>
    intro q qr hq hunbroken
    have hqp : ¬p <+: q := by
      intro hle
      have hnone := hunbroken p hle
      dsimp only at hnone
      rw [Function.update_self] at hnone
      cases hnone
    obtain ⟨rfl, -⟩ | hq := update_eq_some hq
    · exact absurd (List.prefix_refl q) hqp
    refine h.sound q qr hq fun r hr => ?_
    have hrp : r ≠ p := by
      rintro rfl
      exact hqp hr
    exact (Function.update_of_ne hrp _ _).symm.trans (hunbroken r hr)
  case shell =>
    intro fd' hfd' qr hq
    dsimp only at hfd' hq
    by_cases hnil : p = []
    · subst hnil
      rw [Function.update_self, Option.some.injEq] at hfd' hq
      subst hq
      refine ⟨hfd', fun m => ?_⟩
      have hunbroken : b.Unbroken [] := by
        intro r hr
        rw [List.prefix_nil.mp hr]
        by_contra hsome
        obtain ⟨fd, hfd⟩ := Option.ne_none_iff_exists'.mp hsome
        have htorn := (h.shell fd hfd pr hp).2
        rw [hpoint] at htorn
        exact htorn
      have hsound := h.sound [] pr hp hunbroken
      have hi : 0 = pr.i := spine_inj.mp (hsound.eq_spine (by rw [hpoint]; rfl)
        (by rw [hpoint]; rfl) (by simp [hpoint]))
      obtain ⟨-, -, -, hfds⟩ := hsound.entered hpoint
      dsimp only
      rw [hfds, inheritedFile, if_neg (by omega)]
    · rw [Function.update_of_ne (Ne.symm hnil)] at hfd'
      obtain ⟨heq, -⟩ | hq := update_eq_some hq
      · exact absurd heq.symm hnil
      · exact h.shell fd' hfd' qr hq

end Descriptors

/-! ### Calls -/

section Calls

variable {exec : List CString → Bool} {b b' : Broken} {f f' : Faulty} {w w' : World}
  {move : BrokenMove} {made : FaultyMove}

/-- A place for a child is free in every state that is alike. -/
theorem Alike.free (h : Alike w.procs w'.procs)
    (hfree : ∀ p pr k child, w'.procs p = some pr → pr.child = some (k, child) →
      w'.procs (p ++ [k]) = none) :
    ∀ p pr k child, w.procs p = some pr → pr.child = some (k, child) →
      w.procs (p ++ [k]) = none := by
  intro p pr k child hp hchild
  obtain ⟨qr, hq, hcontrol⟩ := h.exists_proc hp
  obtain ⟨child', hchild', -⟩ := exists_child hcontrol hchild
  have hsame := h (p ++ [k])
  rw [hfree p qr k child' hq hchild'] at hsame
  exact Option.map_eq_none_iff.mp hsame

end Calls

/-! ### Runs -/

theorem Alike.returned {w v : World} (h : Alike w.procs v.procs) (hreturned : w.Returned) :
    v.Returned := by
  obtain ⟨shell, hshell, hpoint⟩ := hreturned
  obtain ⟨qr, hq, hcontrol⟩ := h.exists_proc hshell
  exact ⟨qr, hq, point_eq hcontrol ▸ hpoint⟩

end SystemProgramming.Phase2
