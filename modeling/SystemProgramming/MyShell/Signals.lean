import SystemProgramming.MyShell.Transitions

/-!
The groups the builtins signal. `builtin_fg` saves the group of the job while
SIGCHLD is blocked; `builtin_bg` and `builtin_kill` read `job->pgid` again when
the handler may already have cleared the slot, and `kill (-0, sig)` goes to the
group of the shell itself.

`SignalsNamed` says that the group is the one the job had when it was found.
It holds in every run in which no handler clears a slot that is about to be
read and no builtin finds a job whose first `fork` failed.
-/

namespace SystemProgramming.MyShell

open SystemProgramming.CLib SystemProgramming.Library

/-- The group `g` of the call `kill (-g, sig)` that comes next. -/
def Pc.signals : Pc → Option Int
  | .bgSignal _ g => some g
  | .fgSignal _ g => some g
  | .killSignal g => some g
  | _ => none

/-- The slot whose group is read before the call of `kill`. -/
def Pc.willRead : Pc → Option Slot
  | .bgUnlock job | .killUnlock job => job
  | .bgRead i | .killRead i => some i
  | _ => none

/-- The group `builtin_fg` has saved. -/
def Pc.saved : Pc → Option Int
  | .fgUnlock (some (_, g)) => some g
  | _ => none

/-- No group is on its way to `kill`. -/
def Pc.idle (pc : Pc) : Prop := pc.willRead = none ∧ pc.saved = none ∧ pc.signals = none

theorem Action.pc_idle (stack : Nat → Int) (action : Action) : (action.pc stack).idle := by
  cases action <;> exact ⟨rfl, rfl, rfl⟩

/-- Every group in the table is what `fork` returned for a first stage. -/
def JobTable.GroupsForked (t : JobTable) : Prop :=
  ∀ i, (t.jobs i).used = true → (t.jobs i).pgid = -1 ∨ 0 < (t.jobs i).pgid

theorem JobTable.GroupsForked.mono {t t' : JobTable} (h : t.GroupsForked)
    (hsame : ∀ i, (t'.jobs i).used = true →
      (t.jobs i).used = true ∧ (t'.jobs i).pgid = (t.jobs i).pgid) : t'.GroupsForked := by
  intro i hi
  obtain ⟨hused, hpgid⟩ := hsame i hi
  exact hpgid ▸ h i hused

theorem JobTable.GroupsForked.setState {t : JobTable} (h : t.GroupsForked) (i : Slot)
    (state : JobState) : (t.setState i state).updateFgPgid.GroupsForked := by
  refine h.mono fun j hj => ?_
  by_cases hji : j = i <;> simpa [hji] using hj

namespace Shell

/-- The builtins signal the group of the job they found, which is not their own. -/
def SignalsNamed (s : Shell) : Prop :=
  ∀ g, s.pc.signals = some g → g = s.found ∧ 0 < g

/-- A lookup finds no job with the group -1 of a failed `fork`, and the handler does
not clear a slot whose group `builtin_bg` or `builtin_kill` is about to read. -/
def slotsStay (s : Shell) : Label → Bool
  | .proceed =>
      match s.pc with
      | .bgLookup jid | .fgLookup jid | .killLookup jid =>
          match s.table.findJobByJid jid with
          | some i => (s.table.jobs i).pgid ≠ -1
          | none => true
      | _ => true
  | .reap pid =>
      match s.pc, s.reportOf pid with
      | .bgRead i, some status | .killRead i, some status => !s.table.frees i pid status
      | _, _ => true
  | _ => true

/-- Every group on its way to `kill` is that of the job found. -/
structure Named (s : Shell) : Prop where
  groups : s.table.GroupsForked
  reads : ∀ i, s.pc.willRead = some i → (s.table.jobs i).pgid = s.found ∧ 0 < s.found
  saves : ∀ g, s.pc.saved = some g → g = s.found ∧ 0 < g
  sends : SignalsNamed s

theorem Named.of_idle {s : Shell} (hgroups : s.table.GroupsForked) (hpc : s.pc.idle) :
    Named s where
  groups := hgroups
  reads := fun i hi => by simp [hpc.1] at hi
  saves := fun g hg => by simp [hpc.2.1] at hg
  sends := fun g hg => by simp [hpc.2.2] at hg

/-- A job found by a builtin has a group of its own. -/
theorem Named.found_pos {s : Shell} (h : Named s) {jid : Int} {i : Slot}
    (hfind : s.table.findJobByJid jid = some i) (hne : (s.table.jobs i).pgid ≠ -1) :
    0 < (s.table.jobs i).pgid :=
  (h.groups i (JobTable.findJobByJid_spec hfind).1).resolve_left hne

theorem Named.goto {s : Shell} {l : Label} {pc : Pc} (h : Named s) (hgoto : Goto s l pc) :
    Named { s with pc := pc } := by
  cases hgoto with
  | bgRead i hpc =>
      obtain ⟨hfound, hpos⟩ := h.reads i (by rw [hpc]; rfl)
      refine ⟨h.groups, nofun, nofun, fun g hg => ?_⟩
      cases hg
      exact ⟨hfound, hfound ▸ hpos⟩
  | killRead i hpc =>
      obtain ⟨hfound, hpos⟩ := h.reads i (by rw [hpc]; rfl)
      refine ⟨h.groups, nofun, nofun, fun g hg => ?_⟩
      cases hg
      exact ⟨hfound, hfound ▸ hpos⟩
  | _ => exact .of_idle h.groups ⟨rfl, rfl, rfl⟩

theorem Named.unlock {s : Shell} {pc : Pc} (h : Named s) (hunlock : Unlock s.pc pc) :
    Named { s.restoreSigmask with pc := pc } := by
  generalize hpc : s.pc = before at hunlock
  cases hunlock with
  | bg i | kill i =>
      refine ⟨h.groups, fun j hj => h.reads j ?_, nofun, nofun⟩
      rw [hpc]
      exact hj
  | fg i g =>
      refine ⟨h.groups, nofun, nofun, fun g' hg' => h.saves g' ?_⟩
      rw [hpc]
      exact hg'
  | _ => exact .of_idle h.groups ⟨rfl, rfl, rfl⟩

theorem Named.step {s s' : Shell} {l : Label} (hs : Consistent s) (h : Named s)
    (hstay : s.slotsStay l = true) (ht : Transition s l s') : Named s' := by
  cases ht with
  | read line stack hrun hpc =>
      obtain ⟨hstart, _⟩ | ⟨hstart, _⟩ := start_eq s stack (eval line) hpc <;>
        exact hstart ▸ .of_idle h.groups (Action.pc_idle stack _)
  | goto l pc hrun hgoto => exact h.goto hgoto
  | unlock pc hrun hunlock => exact h.unlock hunlock
  | add f fds hrun hpc hend =>
      have hproper := hs.frame f hpc
      refine .of_idle ?_ ⟨rfl, rfl, rfl⟩
      obtain ⟨_, hadd⟩ | ⟨i, t', _, hadd, _, hother, hnew⟩ :=
        s.table.addJob_cases f.pgid f.pids f.nseg
          (if f.bg then .background else .foreground) f.cmdline
      · simp only [hadd]
        exact h.groups
      · simp only [hadd]
        intro j hj
        rw [JobTable.jobs_updateFgPgid] at hj ⊢
        by_cases hji : j = i
        · subst hji
          rw [hnew]
          exact hproper.later (lt_of_lt_of_le hproper.stages hend)
        · rw [hother j hji] at hj ⊢
          exact h.groups j hj
  | bgFound jid i hrun hpc hfind =>
      simp only [slotsStay, hpc, hfind, decide_eq_true_eq] at hstay
      refine ⟨h.groups.setState i _, fun j hj => ?_, nofun, nofun⟩
      cases hj
      exact ⟨by simp, h.found_pos hfind hstay⟩
  | fgFound jid i hrun hpc hfind =>
      simp only [slotsStay, hpc, hfind, decide_eq_true_eq] at hstay
      refine ⟨h.groups.setState i _, nofun, fun g hg => ?_, nofun⟩
      cases hg
      exact ⟨rfl, h.found_pos hfind hstay⟩
  | killFound jid i hrun hpc hfind =>
      simp only [slotsStay, hpc, hfind, decide_eq_true_eq] at hstay
      refine ⟨h.groups, fun j hj => ?_, nofun, nofun⟩
      cases hj
      exact ⟨rfl, h.found_pos hfind hstay⟩
  | pipeFails f hrun hpc | forkFails f fds fds' fd hrun hpc hi
  | forks pid f fds fds' fd hrun hpc hi hfresh =>
      exact .of_idle h.groups ⟨rfl, rfl, rfl⟩
  | change pid status children hpids => exact ⟨h.groups, h.reads, h.saves, h.sends⟩
  | deliver hrun hopen => exact ⟨h.groups, h.reads, h.saves, h.sends⟩
  | reap pid status children hin hreport hpids =>
      refine ⟨?_, fun i hi => ?_, h.saves, h.sends⟩
      · refine h.groups.mono fun i hi => ?_
        obtain ⟨_, hfree⟩ | ⟨hused, hpgid, _⟩ := s.table.sigchldBody_slot pid status i
        · rw [hfree] at hi
          cases hi
        · exact ⟨hused ▸ hi, hpgid⟩
      -- `bg` and `kill` have the slot but not the group yet, so it must not be freed now
      · have hkeep : s.table.frees i pid status = false := by
          have hunmasked := hs.handler hin
          cases hpc : s.pc with
          | bgRead j | killRead j =>
              rw [hpc] at hi
              cases hi
              simpa only [slotsStay, hpc, hreport, Bool.not_eq_true'] using hstay
          | bgUnlock job | killUnlock job => rw [hpc] at hunmasked; cases hunmasked
          | _ => rw [hpc] at hi; cases hi
        obtain ⟨hfrees, _⟩ | ⟨_, hpgid, _⟩ := s.table.sigchldBody_slot pid status i
        · simp [hkeep] at hfrees
        · exact hpgid ▸ h.reads i hi
  | handlerReturns pc hin hpc =>
      obtain ⟨rfl, _⟩ | ⟨g, _, rfl⟩ := hpc
      · exact ⟨h.groups, h.reads, h.saves, h.sends⟩
      · exact .of_idle h.groups ⟨rfl, rfl, rfl⟩
  | keyboard => exact h

/-- **Signals hit the named job only**, in every run in which the slots stay. -/
theorem signals_named {s : Shell}
    (h : Reachable Shell.step (fun s l => s.slotsStay l = true) {} s) : SignalsNamed s := by
  have hnamed : Consistent s ∧ Named s := by
    refine h.invariant (I := fun s => Consistent s ∧ Named s)
      ⟨.init, .of_idle (fun i hi => by cases hi) ⟨rfl, rfl, rfl⟩⟩ ?_
    intro s l s' ⟨hs, hn⟩ hstay hstep
    exact ⟨hs.step (step_transition hstep), hn.step hs hstay (step_transition hstep)⟩
  exact hnamed.2.sends

/-- A job in the background, and `kill %1`. The status of the job changes before
`builtin_kill` reads its group. -/
def killRun (status : Status) : List Label :=
  [.readLine "a &\n".toList fun _ => 0, .forks 100, .proceed, .proceed, .proceed,
    .readLine "kill %1\n".toList fun _ => 0, .proceed, .proceed,
    .change 100 status, .deliver, .reap 100, .handlerReturns, .proceed]

/-- The job ends, and the handler clears its slot. -/
theorem kill_own_group :
    ¬ ∀ s, Reachable Shell.step anyStep {} s → SignalsNamed s := by
  intro h
  have hrun : ((exec (restrict Shell.step anyStep) (killRun .exited) {}).map
      fun s => (s.pc.signals, s.found)) = some (some 0, 100) := by decide +kernel
  obtain ⟨s, hs, hview⟩ := Option.map_eq_some_iff.mp hrun
  exact absurd (h s (.of_exec hs) 0 (Prod.mk.inj hview).1).2 (by decide)

/-- The job stops. -/
theorem kill_stopped_job :
    SignalsNamed ((exec (restrict Shell.step fun s l => s.slotsStay l = true)
      (killRun .stopped) {}).get (by decide +kernel)) :=
  signals_named (.of_exec (Option.some_get _).symm)

end Shell

end SystemProgramming.MyShell
