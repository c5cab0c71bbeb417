import SystemProgramming.MyShell.Attribution
import SystemProgramming.MyShell.Foreground

/-!
The handlers of SIGINT and SIGTSTP. They read `fg_pgid` and send the signal on to that
group. No mask holds them off: they run at the prompt, in the middle of a launch, and
while `sigchld_handler` is at work, when `fg_pgid` may be out of date; and between their
read and their `kill` the handler of SIGCHLD may run once more.
-/

namespace SystemProgramming.MyShell

open SystemProgramming.CLib SystemProgramming.Library

/-- `sigint_handler` and `sigtstp_handler`: the group `pgid` of their call
`kill (-pgid, sig)`, if they make it. -/
def Shell.keyboardGroup (s : Shell) : Option Int :=
  if s.table.fgPgid > 0 then some s.table.fgPgid else none

/-- What can happen between the read of `fg_pgid` and the call of `kill`: children change
and `sigchld_handler` runs, but the main flow stands still. -/
def Label.nested : Label → Bool
  | .change _ _ | .deliver | .reap _ | .handlerReturns => true
  | _ => false

/-- A value of `fg_pgid` that the handlers would use is the group of a job, be it one that
has just left the foreground. -/
def JobTable.Keyed (t : JobTable) : Prop :=
  0 < t.fgPgid → ∃ i, (t.jobs i).used = true ∧ (t.jobs i).pgid = t.fgPgid

theorem JobTable.Keyed.of_foreground {t : JobTable} (h : t.fgPgid = t.foregroundPgid) :
    t.Keyed := by
  intro hpos
  rw [h] at hpos ⊢
  unfold foregroundPgid at hpos ⊢
  cases hfind : t.findForegroundJob with
  | none => simp [hfind] at hpos
  | some i => exact ⟨i, (findForegroundJob_spec hfind).1, rfl⟩

theorem JobTable.Keyed.update (t : JobTable) : t.updateFgPgid.Keyed :=
  .of_foreground ((fgPgid_updateFgPgid t).trans
    (foregroundPgid_congr (jobs_updateFgPgid t)).symm)

theorem JobTable.Keyed.set {t : JobTable} (h : t.Keyed) (i : Slot) {job : Job}
    (hused : job.used = (t.jobs i).used) (hpgid : job.pgid = (t.jobs i).pgid) :
    (t.setJob i job).Keyed := by
  intro hpos
  obtain ⟨j, hj, hgroup⟩ := h hpos
  refine ⟨j, ?_, ?_⟩ <;> by_cases hji : j = i
  · subst hji
    simpa [hused] using hj
  · simpa [hji] using hj
  · subst hji
    simpa [hpgid] using hgroup
  · simpa [hji] using hgroup

theorem JobTable.Keyed.sigchldBody {t : JobTable} (h : t.Keyed) (pid : Int)
    (status : Status) : (t.sigchldBody pid status).Keyed := by
  generalize ht' : t.sigchldBody pid status = t'
  have hcharge : Charge t pid status t' := ht' ▸ t.sigchldBody_charge pid status
  cases hcharge with
  | unknown | keep => exact h
  | stop i | resume i | charge i => exact h.set i rfl rfl
  | free i => exact .update _

namespace Shell

theorem Consistent.keyed {s : Shell} (hs : Consistent s) (hrun : s.inHandler = false) :
    s.table.Keyed :=
  .of_foreground (hs.fg hrun)

theorem keyed_step {s s' : Shell} {l : Label} (hs' : Consistent s') (h : s.table.Keyed)
    (ht : Transition s l s') : s'.table.Keyed := by
  cases ht with
  | read line stack hrun hpc =>
      obtain ⟨hstart, _⟩ | ⟨hstart, _⟩ := start_eq s stack (eval line) hpc <;>
        exact hstart ▸ h
  | goto | unlock | pipeFails | forkFails | forks | killFound => exact h
  | change | deliver | keyboard => exact h
  | add f fds hrun hpc hend => exact hs'.keyed hrun
  | bgFound jid i hrun hpc hfind | fgFound jid i hrun hpc hfind => exact .update _
  | reap pid status children hin hreport hpids => exact h.sigchldBody pid status
  | handlerReturns pc hin hpc => exact .update _

/-- No process is new, and none changes its group. -/
theorem children_nested {s s' : Shell} {l : Label} (hl : l.nested = true)
    (hstep : s.step l = some s') :
    ∀ c' ∈ s'.children, ∃ c ∈ s.children, c.pid = c'.pid ∧ c.pgrp = c'.pgrp := by
  have hsame (h : s'.children = s.children) :
      ∀ c' ∈ s'.children, ∃ c ∈ s.children, c.pid = c'.pid ∧ c.pgrp = c'.pgrp := by
    rw [h]
    exact fun c hc => ⟨c, hc, rfl, rfl⟩
  cases step_transition hstep with
  | read | unlock | add | bgFound | fgFound | killFound | pipeFails | forkFails | forks
  | keyboard => cases hl
  | goto l pc hrun hgoto => cases hgoto <;> cases hl
  | deliver | handlerReturns => exact hsame rfl
  | change pid status children hpids =>
      obtain ⟨c, c', hfind, hchange, hs'⟩ := step_change hstep
      obtain ⟨hpid, hgrp, -, -⟩ := change_spec hchange
      rw [hs']
      intro d hd
      obtain ⟨e, he, rfl⟩ := List.mem_map.mp hd
      split
      · exact ⟨c, List.mem_of_find?_eq_some hfind, hpid.symm, hgrp.symm⟩
      · exact ⟨e, he, rfl, rfl⟩
  | reap pid status children hin hreport hpids =>
      obtain ⟨-, status', -, hs'⟩ := step_reap hstep
      rw [hs']
      intro d hd
      dsimp only at hd
      split at hd
      · exact ⟨d, (List.mem_filter.mp hd).1, rfl, rfl⟩
      · obtain ⟨e, he, rfl⟩ := List.mem_map.mp hd
        refine ⟨e, he, ?_, ?_⟩ <;> split <;> rfl

theorem children_nested_run {s s' : Shell} {ls : List Label} (hls : ∀ l ∈ ls, l.nested = true)
    (hexec : exec step ls s = some s') :
    ∀ c' ∈ s'.children, ∃ c ∈ s.children, c.pid = c'.pid ∧ c.pgrp = c'.pgrp := by
  induction ls generalizing s with
  | nil =>
      cases hexec
      exact fun c hc => ⟨c, hc, rfl, rfl⟩
  | cons l ls ih =>
      rw [exec_cons, Option.bind_eq_some_iff] at hexec
      obtain ⟨t, ht, hrest⟩ := hexec
      intro c' hc'
      have hmore := fun m hm => hls m (List.mem_cons_of_mem l hm)
      obtain ⟨d, hd, hdpid, hdgrp⟩ := ih hmore hrest c' hc'
      obtain ⟨c, hc, hpid, hgrp⟩ := children_nested (hls l List.mem_cons_self) ht d hd
      exact ⟨c, hc, hpid.trans hdpid, hgrp.trans hdgrp⟩

/-- What the keys do. Outside `sigchld_handler` they signal the group of the foreground job
and no other, and nobody where the shell waits for no job. At any time whatsoever, and
whatever the handler does before the call of `kill`, those signalled are processes of one
job, and all that are left of it. -/
structure KeysHit (s : Shell) : Prop where
  foreground : s.inHandler = false → ∀ g, s.keyboardGroup = some g ↔
    ∃ i, s.table.Fg i ∧ (s.table.jobs i).pgid = g
  nobody : s.inHandler = false → s.pc.waitsFor = none → s.keyboardGroup = none
  oneJob : ∀ g, s.keyboardGroup = some g → ∃ i, (s.table.jobs i).used = true ∧
    ∀ ls s', (∀ l ∈ ls, l.nested = true) → exec step ls s = some s' →
      ∀ c ∈ s'.children, c.pgrp = g ↔ (c.pid : Int) ∈ (s.table.jobs i).recorded

theorem keyboardGroup_eq_some {s : Shell} {g : Int} :
    s.keyboardGroup = some g ↔ 0 < g ∧ s.table.fgPgid = g := by
  unfold keyboardGroup
  split
  · rw [Option.some.injEq]
    omega
  · refine iff_of_false (by simp) ?_
    omega

/-- **The keys reach the foreground job only**, in every run in which the table and the
kernel agree and `builtin_fg` does not fail. -/
theorem keys_hit {s : Shell}
    (h : Reachable step (fun s l => s.keepsTrack l = true ∧ s.fgKillSucceeds l = true) {} s) :
    KeysHit s := by
  have hinv : Consistent s ∧ Attributed s ∧ Tracked s ∧ s.table.Keyed := by
    refine h.invariant (I := fun s => Consistent s ∧ Attributed s ∧ Tracked s ∧ s.table.Keyed)
      ⟨.init, .init, .of_none fun _ hi => Bool.noConfusion hi.1,
        fun hpos => absurd hpos (by decide)⟩ ?_
    rintro s l s' ⟨hs, ha, htr, hk⟩ ⟨hkeeps, hkill⟩ hstep
    have ht := step_transition hstep
    have hs' := hs.step ht
    exact ⟨hs', ha.step hs hkeeps hstep, htr.step hs hkill ht, keyed_step hs' hk ht⟩
  obtain ⟨hs, ha, htr, hk⟩ := hinv
  have hforeground (hrun : s.inHandler = false) (g : Int) : s.keyboardGroup = some g ↔
      ∃ i, s.table.Fg i ∧ (s.table.jobs i).pgid = g := by
    rw [keyboardGroup_eq_some, hs.fg hrun]
    constructor
    · rintro ⟨hpos, hgroup⟩
      unfold JobTable.foregroundPgid at hgroup
      cases hfind : s.table.findForegroundJob with
      | none =>
          simp only [hfind] at hgroup
          omega
      | some i => exact ⟨i, JobTable.findForegroundJob_spec hfind, by simpa [hfind] using hgroup⟩
    · rintro ⟨i, hi, rfl⟩
      exact ⟨ha.positive i hi.1,
        JobTable.foregroundPgid_of_unique hi fun j hj => htr.unique j i hj hi⟩
  refine ⟨hforeground, fun hrun hpc => ?_, fun g hg => ?_⟩
  · refine Option.eq_none_iff_forall_ne_some.mpr fun g hg => ?_
    obtain ⟨i, hi, -⟩ := (hforeground hrun g).mp hg
    exact htr.empty hpc i hi
  · obtain ⟨hpos, hgroup⟩ := keyboardGroup_eq_some.mp hg
    obtain ⟨i, hi, hpgid⟩ := hk (hgroup ▸ hpos)
    refine ⟨i, hi, fun ls s' hls hexec c' hc' => ?_⟩
    obtain ⟨c, hc, hpid, hgrp⟩ := children_nested_run hls hexec c' hc'
    rw [← hpid, ← hgrp, ha.owns c hc i hi, hpgid, hgroup]

/-- The foreground job has just been stopped, and `fg_pgid` still has its group. -/
def keyInHandler : List Label :=
  [.readLine "a\n".toList fun _ => 0, .forks 100, .proceed, .proceed, .proceed, .proceed,
    .proceed, .change 100 .stopped, .deliver, .reap 100]

theorem keys_hit_inHandler :
    KeysHit ((exec (restrict step fun s l => s.keepsTrack l = true ∧ s.fgKillSucceeds l = true)
      keyInHandler {}).get (by decide +kernel)) :=
  keys_hit (.of_exec (Option.some_get _).symm)

end Shell

end SystemProgramming.MyShell
