import SystemProgramming.MyShell.Transitions

/-!
The wait for the foreground job. `wait_for_foreground` tests `fg_pgid` with
SIGCHLD open and calls `sigsuspend` afterwards. A handler that runs in between
and takes the job out of the foreground uses the signal up, and the shell
sleeps for a change that has already been handled.

That window is the only one: as long as no handler in it takes the foreground
job away, a shell that sleeps for a group has that group in the foreground.
-/

namespace SystemProgramming.MyShell

open SystemProgramming.CLib SystemProgramming.Library

/-! ### What a reap does to the foreground -/

namespace JobTable

/-- The status of `pid` takes the foreground job the searches find out of the
foreground: it stops, or its last live process ends. -/
def leavesForeground (t : JobTable) (pid : Int) (status : Status) : Bool :=
  match t.findForegroundJob with
  | none => false
  | some i =>
      t.findJobByPid pid == some i &&
        (status == .stopped || status.terminated && decide ((t.jobs i).liveCount ≤ 1))

/-- A change of a slot that is not the foreground job, to a job that is not either,
leaves the foreground group as it is. -/
theorem foregroundPgid_of_other {t t' : JobTable} {i : Slot}
    (hsame : ∀ j, j ≠ i → t'.jobs j = t.jobs j) (hi : t.findForegroundJob ≠ some i)
    (hout : (t'.jobs i).used = true → (t'.jobs i).state ≠ .foreground) :
    t'.foregroundPgid = t.foregroundPgid := by
  have hout' : ((t'.jobs i).used && (t'.jobs i).state == .foreground) = false := by
    simpa using hout
  cases hfind : t.findForegroundJob with
  | none =>
      have hnone := findForegroundJob_eq_none.mp hfind
      have hfind' : t'.findForegroundJob = none := by
        refine findForegroundJob_eq_none.mpr fun j => ?_
        by_cases hj : j = i
        · exact hj ▸ hout
        · exact hsame j hj ▸ hnone j
      unfold foregroundPgid
      rw [hfind, hfind']
  | some k =>
      have hk : k ≠ i := fun hki => hi (hki ▸ hfind)
      have hfind' : t'.findForegroundJob = some k := by
        obtain ⟨hfg, hfirst⟩ := findSlot_eq_some.mp hfind
        refine findSlot_eq_some.mpr ⟨hsame k hk ▸ hfg, fun j hj => ?_⟩
        by_cases hji : j = i
        · exact hji ▸ hout'
        · exact hsame j hji ▸ hfirst j hj
      unfold foregroundPgid
      rw [hfind, hfind']
      simp only [hsame k hk]

theorem foregroundPgid_setLive (t : JobTable) (i : Slot) (live : Nat) :
    (t.setJob i { t.jobs i with liveCount := live }).foregroundPgid = t.foregroundPgid := by
  have hjob (j : Slot) : let job := (t.setJob i { t.jobs i with liveCount := live }).jobs j
      job.used = (t.jobs j).used ∧ job.state = (t.jobs j).state ∧
        job.pgid = (t.jobs j).pgid := by
    by_cases hj : j = i <;> simp [hj]
  have hfind : (t.setJob i { t.jobs i with liveCount := live }).findForegroundJob =
      t.findForegroundJob :=
    findSlot_congr fun j => by rw [(hjob j).1, (hjob j).2.1]
  unfold foregroundPgid
  rw [hfind]
  cases t.findForegroundJob with
  | none => rfl
  | some k => exact (hjob k).2.2

theorem foregroundPgid_sigchldBody {t : JobTable} {pid : Int} {status : Status}
    (h : t.leavesForeground pid status = false) :
    (t.sigchldBody pid status).foregroundPgid = t.foregroundPgid := by
  have hne (i : Slot) (hfind : t.findJobByPid pid = some i)
      (hleave : status = .stopped ∨ status.terminated = true ∧ (t.jobs i).liveCount ≤ 1) :
      t.findForegroundJob ≠ some i := by
    intro hfg
    rw [leavesForeground, hfg] at h
    simp only [hfind] at h
    obtain rfl | ⟨hterm, hlive⟩ := hleave
    · simp at h
    · simp [hterm, hlive] at h
  generalize ht' : t.sigchldBody pid status = t'
  have hcharge : Charge t pid status t' := ht' ▸ t.sigchldBody_charge pid status
  clear ht'
  cases hcharge with
  | unknown | keep => rfl
  | stop i hfind hst =>
      exact foregroundPgid_of_other (fun j hj => by simp [hj]) (hne i hfind (.inl hst))
        (by simp)
  | resume i hfind hst hstopped =>
      refine foregroundPgid_of_other (i := i) (fun j hj => by simp [hj]) (fun hfg => ?_)
        (by simp)
      have hstate := (findForegroundJob_spec hfg).2
      rw [hstopped] at hstate
      cases hstate
  | charge i hfind hst hlive => exact t.foregroundPgid_setLive i _
  | free i hfind hst hlive =>
      exact foregroundPgid_of_other (fun j hj => by simp [hj])
        (hne i hfind (.inr ⟨hst, hlive⟩)) (by simp)

end JobTable

/-! ### The window -/

/-- The group for which the main flow stands in `sigsuspend`. -/
def Pc.sleepsFor : Pc → Option Int
  | .suspended pgid => some pgid
  | _ => none

theorem Pc.sleepsFor_eq_some {pc : Pc} {g : Int} :
    pc.sleepsFor = some g ↔ pc = .suspended g := by
  cases pc <;> simp [sleepsFor]

namespace Shell

/-- The shell sleeps for a group that is not in the foreground, and no change of a
child is left to wake it. -/
def LostWakeup (s : Shell) : Prop :=
  ∃ g, s.pc = .suspended g ∧ s.inHandler = false ∧ s.table.fgPgid ≠ g ∧
    s.pending = false ∧ ∀ c ∈ s.children, c.report = none

/-- No handler that runs between the test and `sigsuspend` takes the foreground job
out of the foreground. -/
def windowQuiet (s : Shell) : Label → Bool
  | .reap pid =>
      match s.pc, s.reportOf pid with
      | .waitCall _, some status => !s.table.leavesForeground pid status
      | _, _ => true
  | _ => true

/-- Behind the test the group waited for is in the foreground. Only the handler that
wakes `sigsuspend` may change that. -/
structure Awaited (s : Shell) : Prop where
  called : ∀ g, s.pc = .waitCall g → s.table.foregroundPgid = g
  suspended : ∀ g, s.pc = .suspended g → s.inHandler = false → s.table.foregroundPgid = g

theorem Awaited.of_pc {s : Shell} (hcall : ∀ g, s.pc ≠ .waitCall g)
    (hsuspended : ∀ g, s.pc ≠ .suspended g) : Awaited s :=
  ⟨fun g hpc => absurd hpc (hcall g), fun g hpc => absurd hpc (hsuspended g)⟩

theorem Awaited.step {s s' : Shell} {l : Label} (hs : Consistent s) (h : Awaited s)
    (hquiet : s.windowQuiet l = true) (ht : Transition s l s') : Awaited s' := by
  cases ht with
  | read line stack hrun hpc =>
      have hstart : (s.start stack (eval line)).pc = (eval line).pc stack := by
        obtain ⟨hstart, _⟩ | ⟨hstart, _⟩ := start_eq s stack (eval line) hpc <;> rw [hstart]
      have hpc' (action : Action) : (∀ g, action.pc stack ≠ .waitCall g) ∧
          ∀ g, action.pc stack ≠ .suspended g := by
        cases action <;> exact ⟨fun g => nofun, fun g => nofun⟩
      exact .of_pc (fun g => hstart ▸ (hpc' _).1 g) (fun g => hstart ▸ (hpc' _).2 g)
  | goto l pc hrun hgoto =>
      cases hgoto with
      | waitOn g hpc hg =>
          refine ⟨fun g' hg' => ?_, nofun⟩
          cases hg'
          -- the test read `fg_pgid`, which is up to date outside the handler
          exact (hs.fg hrun).symm.trans hg
      | suspend g hpc =>
          refine ⟨nofun, fun g' hg' _ => ?_⟩
          cases hg'
          exact h.called g hpc
      | inBackground f i hpc hbg => exact .of_pc (fun g => nofun) (fun g => nofun)
      | _ => exact .of_pc (fun g => nofun) (fun g => nofun)
  | unlock pc hrun hunlock =>
      have hpc : (∀ g, pc ≠ .waitCall g) ∧ ∀ g, pc ≠ .suspended g := by
        generalize s.pc = before at hunlock
        cases hunlock <;> exact ⟨fun g => nofun, fun g => nofun⟩
      exact .of_pc hpc.1 hpc.2
  | add | bgFound | fgFound | killFound | pipeFails | forkFails | forks =>
      exact .of_pc (fun g => nofun) (fun g => nofun)
  | change pid status children hpids => exact ⟨h.called, h.suspended⟩
  | deliver hrun hopen => exact ⟨h.called, fun g _ hin => by simp at hin⟩
  | reap pid status children hin hreport hpids =>
      refine ⟨fun g hpc => ?_, fun g _ hout => by simp [hin] at hout⟩
      simp only at hpc
      -- in the window between test and `sigsuspend` the foreground job must not end
      simp only [windowQuiet, hpc, hreport, Bool.not_eq_true'] at hquiet
      exact (JobTable.foregroundPgid_sigchldBody hquiet).trans (h.called g hpc)
  | handlerReturns pc hin hpc =>
      have hfg : s.table.updateFgPgid.foregroundPgid = s.table.foregroundPgid :=
        JobTable.foregroundPgid_congr (JobTable.jobs_updateFgPgid _)
      obtain ⟨rfl, hnot⟩ | ⟨g, _, rfl⟩ := hpc
      · exact ⟨fun g hg => hfg.trans (h.called g hg), fun g hg => absurd hg (hnot g)⟩
      · exact .of_pc (fun g => nofun) (fun g => nofun)
  | keyboard => exact h

/-- **No lost wakeup**, in every run whose windows are quiet. -/
theorem no_lostWakeup {s : Shell}
    (h : Reachable Shell.step (fun s l => s.windowQuiet l = true) {} s) : ¬ LostWakeup s := by
  have hawaited : Consistent s ∧ Awaited s := by
    refine h.invariant (I := fun s => Consistent s ∧ Awaited s)
      ⟨.init, .of_pc (fun g => nofun) (fun g => nofun)⟩ ?_
    intro s l s' ⟨hs, ha⟩ hquiet hstep
    exact ⟨hs.step (step_transition hstep), ha.step hs hquiet (step_transition hstep)⟩
  rintro ⟨g, hpc, hrun, hne, _⟩
  exact hne ((hawaited.1.fg hrun).trans (hawaited.2.suspended g hpc hrun))

/-- A foreground command up to the test of `fg_pgid`. -/
def foregroundRun : List Label :=
  [.readLine "a\n".toList fun _ => 0, .forks 100, .proceed, .proceed, .proceed,
    .proceed]

/-- The command ends, and the handler sees its end. -/
def commandEnds : List Label :=
  [.change 100 .exited, .deliver, .reap 100, .handlerReturns]

/-- The command ends between the test and `sigsuspend`. -/
theorem lostWakeup_in_window :
    ¬ ∀ s, Reachable Shell.step anyStep {} s → ¬ LostWakeup s := by
  intro h
  have hrun : ((exec (restrict Shell.step anyStep) (foregroundRun ++ commandEnds ++ [.proceed])
      {}).map fun s => (s.pc.sleepsFor, s.inHandler, s.table.fgPgid, s.pending, s.children)) =
        some (some 100, false, 0, false, []) := by decide +kernel
  obtain ⟨s, hs, hview⟩ := Option.map_eq_some_iff.mp hrun
  simp only [Prod.mk.injEq] at hview
  obtain ⟨hpc, hin, hfg, hpending, hchildren⟩ := hview
  refine h s (.of_exec hs) ⟨100, Pc.sleepsFor_eq_some.mp hpc, hin, ?_, hpending, ?_⟩
  · rw [hfg]
    decide
  · rw [hchildren]
    nofun

/-- The command ends while the shell sleeps; the handler wakes it. -/
theorem no_lostWakeup_foreground :
    ¬ LostWakeup ((exec (restrict Shell.step fun s l => s.windowQuiet l = true)
      (foregroundRun ++ [.proceed] ++ commandEnds) {}).get (by decide +kernel)) :=
  no_lostWakeup (.of_exec (Option.some_get _).symm)

end Shell

end SystemProgramming.MyShell
