import SystemProgramming.MyShell.Transitions

/-!
The foreground job. The shell compares one group, `fg_pgid`, with the one it
waits for, which is right as long as at most one job is in the foreground and
none is when a line is read.

Every part of the shell keeps this but one: when `kill` fails, `builtin_fg`
returns to the prompt and leaves the job it has just moved in the foreground.
-/

namespace SystemProgramming.MyShell

open SystemProgramming.CLib SystemProgramming.Library

namespace JobTable

/-- The job in slot `i` is a foreground job. -/
def Fg (t : JobTable) (i : Slot) : Prop :=
  (t.jobs i).used = true ∧ (t.jobs i).state = .foreground

theorem foregroundPgid_of_unique {t : JobTable} {i : Slot} (hi : t.Fg i)
    (hunique : ∀ j, t.Fg j → j = i) : t.foregroundPgid = (t.jobs i).pgid := by
  cases hfind : t.findForegroundJob with
  | none => exact absurd hi.2 (findForegroundJob_eq_none.mp hfind i hi.1)
  | some k =>
      have hk : k = i := hunique k (findForegroundJob_spec hfind)
      rw [foregroundPgid, hfind, hk]

end JobTable

/-- The group the main flow waits for or is about to wait for. -/
def Pc.waitsFor : Pc → Option Int
  | .launched f (some _) | .afterLaunch f (some _) => if f.bg then none else some f.pgid
  | .waitTest g | .waitCall g | .suspended g => some g
  | .fgUnlock (some (_, g)) => some g
  | .fgSignal _ g => some g
  | _ => none

/-- The slot `builtin_fg` has moved to the foreground. -/
def Pc.moved : Pc → Option Slot
  | .fgUnlock (some (i, _)) => some i
  | .fgSignal i _ => some i
  | _ => none

def Pc.atPrompt : Pc → Bool
  | .prompt => true
  | _ => false

theorem Pc.atPrompt_iff {pc : Pc} : pc.atPrompt = true ↔ pc = .prompt := by
  cases pc <;> simp [atPrompt]

namespace Shell

/-- At most one job is in the foreground, none when a line is read, and the shell waits
for the one there is until it is deleted or leaves the foreground. -/
structure OneForeground (s : Shell) : Prop where
  unique : ∀ i j, s.table.Fg i → s.table.Fg j → i = j
  prompt : s.pc = .prompt → ∀ i, ¬ s.table.Fg i
  awaited : ∀ i, s.table.Fg i → s.pc.waitsFor = some (s.table.jobs i).pgid

/-- `kill` does not fail in `builtin_fg` while the job it has moved is still in the
foreground. -/
def fgKillSucceeds (s : Shell) : Label → Bool
  | .killFails =>
      match s.pc with
      | .fgSignal i _ => !((s.table.jobs i).used && (s.table.jobs i).state == .foreground)
      | _ => true
  | _ => true

/-- The foreground job is the one the main flow is concerned with. -/
structure Tracked (s : Shell) : Prop where
  unique : ∀ i j, s.table.Fg i → s.table.Fg j → i = j
  awaited : ∀ i, s.table.Fg i → s.pc.waitsFor = some (s.table.jobs i).pgid
  moved : ∀ i k, s.table.Fg i → s.pc.moved = some k → i = k

theorem Tracked.of_none {s : Shell} (h : ∀ i, ¬ s.table.Fg i) : Tracked s where
  unique := fun i _ hi => absurd hi (h i)
  awaited := fun i hi => absurd hi (h i)
  moved := fun i _ hi => absurd hi (h i)

/-- No job is in the foreground when the main flow waits for none. -/
theorem Tracked.empty {s : Shell} (h : Tracked s) (hpc : s.pc.waitsFor = none) (i : Slot) :
    ¬ s.table.Fg i := by
  intro hi
  have hwait := h.awaited i hi
  rw [hpc] at hwait
  cases hwait

/-- Tracking survives when foreground jobs only go and the main flow stays concerned
with the same job. -/
theorem Tracked.shrink {s s' : Shell} (h : Tracked s)
    (hfg : ∀ i, s'.table.Fg i →
      s.table.Fg i ∧ (s'.table.jobs i).pgid = (s.table.jobs i).pgid)
    (hwait : s'.pc.waitsFor = s.pc.waitsFor)
    (hmoved : ∀ k, s'.pc.moved = some k → s.pc.moved = some k) : Tracked s' where
  unique := fun i j hi hj => h.unique i j (hfg i hi).1 (hfg j hj).1
  awaited := fun i hi => by rw [hwait, (hfg i hi).2, h.awaited i (hfg i hi).1]
  moved := fun i k hi hk => h.moved i k (hfg i hi).1 (hmoved k hk)

theorem Tracked.goto {s : Shell} {l : Label} {pc : Pc} (hs : Consistent s) (h : Tracked s)
    (hrun : s.inHandler = false) (hkill : s.fgKillSucceeds l = true) (hgoto : Goto s l pc) :
    Tracked { s with pc := pc } := by
  have hsame (hwait : pc.waitsFor = s.pc.waitsFor) (hmoved : pc.moved = none) :
      Tracked { s with pc := pc } :=
    h.shrink (fun i hi => ⟨hi, rfl⟩) hwait (fun k hk => by simp [hmoved] at hk)
  cases hgoto with
  | waitOver g hpc hne =>
      -- the wait ends only when the foreground is empty
      refine .of_none fun i hi => hne ?_
      have hg : some g = some (s.table.jobs i).pgid := by
        rw [← h.awaited i hi, hpc]
        rfl
      rw [hs.fg hrun, JobTable.foregroundPgid_of_unique hi fun j hj => h.unique j i hj hi,
        Option.some.inj hg]
  | fgFails i g hpc =>
      refine .of_none fun j (hj : s.table.Fg j) => ?_
      have hji : j = i := h.moved j i hj (by rw [hpc]; rfl)
      subst hji
      simp [fgKillSucceeds, hpc, hj.1, hj.2] at hkill
  | inBackground f i hpc hbg =>
      exact hsame (by simp [hpc, Pc.waitsFor, hbg]) rfl
  | inForeground f i hpc hbg =>
      exact hsame (by simp [hpc, Pc.waitsFor, hbg]) rfl
  | endOfInput hpc | skip _ _ hpc | full _ hpc | waitOn _ hpc | suspend _ hpc
  | bgUnknown _ hpc | fgUnknown _ hpc | killUnknown _ hpc | bgRead _ hpc | killRead _ hpc
  | bgPrint _ hpc | bgSent _ _ hpc | bgFails _ _ hpc | fgSent _ _ hpc | killSent _ hpc
  | killFails _ hpc | keyboard _ hpc => exact hsame (by rw [hpc]; rfl) rfl

theorem Unlock.waitsFor_eq {pc pc' : Pc} (h : Unlock pc pc') :
    pc'.waitsFor = pc.waitsFor ∧ ∀ k, pc'.moved = some k → pc.moved = some k := by
  cases h with
  | launched f job =>
      cases job with
      | none => exact ⟨rfl, nofun⟩
      | some i => exact ⟨rfl, nofun⟩
  | fg i g => exact ⟨rfl, fun _ hk => hk⟩
  | jobs | bgUnknown | bg _ | fgUnknown | killUnknown | kill _ => exact ⟨rfl, nofun⟩

/-- The slot that becomes a foreground job is the only one. -/
theorem Tracked.of_one {s : Shell} {i : Slot} (hone : ∀ j, s.table.Fg j → j = i)
    (hwait : s.table.Fg i → s.pc.waitsFor = some (s.table.jobs i).pgid)
    (hmoved : ∀ k, s.pc.moved = some k → k = i) : Tracked s where
  unique := fun j k hj hk => (hone j hj).trans (hone k hk).symm
  awaited := fun j hj => by
    have hji := hone j hj
    subst hji
    exact hwait hj
  moved := fun j k hj hk => (hone j hj).trans (hmoved k hk).symm

theorem Tracked.step {s s' : Shell} {l : Label} (hs : Consistent s) (h : Tracked s)
    (hkill : s.fgKillSucceeds l = true) (ht : Transition s l s') : Tracked s' := by
  cases ht with
  | read line stack hrun hpc =>
      have hnone := h.empty (by rw [hpc]; rfl)
      obtain ⟨hstart, _⟩ | ⟨hstart, _⟩ := start_eq s stack (eval line) hpc <;>
        exact hstart ▸ .of_none hnone
  | goto l pc hrun hgoto => exact h.goto hs hrun hkill hgoto
  | unlock pc hrun hunlock =>
      exact h.shrink (fun i hi => ⟨hi, rfl⟩) hunlock.waitsFor_eq.1 hunlock.waitsFor_eq.2
  | add f fds hrun hpc hend =>
      have hnone := h.empty (by rw [hpc]; rfl)
      obtain ⟨_, hadd⟩ | ⟨i, t', _, hadd, _, hother, hnew⟩ :=
        s.table.addJob_cases f.pgid f.pids f.nseg
          (if f.bg then .background else .foreground) f.cmdline
      · refine .of_none fun j hj => hnone j ?_
        simpa only [hadd] using hj
      -- the new job is the only one that can be in the foreground
      · have hjobs : t'.updateFgPgid.jobs = t'.jobs := JobTable.jobs_updateFgPgid t'
        refine .of_one (i := i) (fun j hj => ?_) (fun hi => ?_) (fun k hk => ?_)
        · by_contra hji
          simp only [hadd, JobTable.Fg, hjobs, hother j hji] at hj
          exact hnone j hj
        · simp only [hadd, JobTable.Fg, hjobs, hnew] at hi ⊢
          cases hbg : f.bg with
          | true => simp [hbg] at hi
          | false => simp [Pc.waitsFor, hbg]
        · simp [Pc.moved] at hk
  | bgFound jid i hrun hpc hfind =>
      have hnone := h.empty (by rw [hpc]; rfl)
      refine .of_none fun j hj => ?_
      by_cases hji : j = i
      · subst hji
        simp [JobTable.Fg] at hj
      · exact hnone j (by simpa [JobTable.Fg, hji] using hj)
  | fgFound jid i hrun hpc hfind =>
      have hnone := h.empty (by rw [hpc]; rfl)
      refine .of_one (i := i) (fun j hj => ?_) (fun _ => ?_) (fun k hk => ?_)
      · by_contra hji
        exact hnone j (by simpa [JobTable.Fg, hji] using hj)
      · simp [Pc.waitsFor]
      · simpa [Pc.moved, eq_comm] using hk
  | killFound jid i hrun hpc hfind | pipeFails f hrun hpc
  | forkFails f fds fds' fd hrun hpc hi | forks pid f fds fds' fd hrun hpc hi hfresh =>
      exact .of_none (h.empty (by rw [hpc]; rfl))
  | change pid status children hpids => exact ⟨h.unique, h.awaited, h.moved⟩
  | deliver hrun hopen => exact ⟨h.unique, h.awaited, h.moved⟩
  | reap pid status children hin hreport hpids =>
      refine h.shrink (fun i hi => ?_) rfl (fun k hk => hk)
      obtain ⟨_, hfree⟩ | ⟨hused, hpgid, hstate⟩ := s.table.sigchldBody_slot pid status i
      · simp [JobTable.Fg, hfree] at hi
      · exact ⟨⟨hused ▸ hi.1, hstate hi.2⟩, hpgid⟩
  | handlerReturns pc hin hpc =>
      obtain ⟨rfl, _⟩ | ⟨g, hsuspended, rfl⟩ := hpc
      · exact h.shrink (fun i hi => ⟨hi, rfl⟩) rfl (fun k hk => hk)
      · exact h.shrink (fun i hi => ⟨hi, rfl⟩) (by rw [hsuspended]; rfl) nofun
  | keyboard => exact h

/-- **No foreground job at the prompt**, in every run in which `kill` does not fail
while `builtin_fg` has a job in the foreground. -/
theorem oneForeground {s : Shell}
    (h : Reachable Shell.step (fun s l => s.fgKillSucceeds l = true) {} s) :
    OneForeground s := by
  have htracked : Consistent s ∧ Tracked s := by
    refine h.invariant (I := fun s => Consistent s ∧ Tracked s)
      ⟨.init, .of_none fun i hi => by cases hi.1⟩ ?_
    intro s l s' ⟨hs, ht⟩ hkill hstep
    exact ⟨hs.step (step_transition hstep), ht.step hs hkill (step_transition hstep)⟩
  exact ⟨htracked.2.unique, fun hpc => htracked.2.empty (by rw [hpc]; rfl),
    htracked.2.awaited⟩

/-- `fork` and `pipe` succeed. -/
def launchesSucceed : Label → Bool
  | .pipeFails | .forkFails => false
  | _ => true

/-- A job in the background, and `fg %1` up to its call of `kill`. -/
def fgRun : List Label :=
  [.readLine "a &\n".toList fun _ => 0, .forks 100, .proceed, .proceed, .proceed,
    .readLine "fg %1\n".toList fun _ => 0, .proceed, .proceed]

/-- `kill` fails, and the job stays in the foreground while the next line is read. -/
theorem foreground_at_prompt :
    ¬ ∀ s, Reachable Shell.step (fun _ l => launchesSucceed l = true) {} s →
      OneForeground s := by
  intro h
  have hrun : ((exec (restrict Shell.step fun _ l => launchesSucceed l = true)
      (fgRun ++ [.killFails]) {}).map fun s =>
        (s.pc.atPrompt, (s.table.jobs 0).used, (s.table.jobs 0).state)) =
          some (true, true, .foreground) := by decide +kernel
  obtain ⟨s, hs, hview⟩ := Option.map_eq_some_iff.mp hrun
  simp only [Prod.mk.injEq] at hview
  exact (h s (.of_exec hs)).prompt (Pc.atPrompt_iff.mp hview.1) 0 hview.2

/-- `kill` succeeds, and the shell waits for the job. -/
theorem oneForeground_fg :
    OneForeground ((exec (restrict Shell.step fun s l => s.fgKillSucceeds l = true)
      (fgRun ++ [.killSucceeds, .proceed, .proceed]) {}).get (by decide +kernel)) :=
  oneForeground (.of_exec (Option.some_get _).symm)

end Shell

end SystemProgramming.MyShell
