import SystemProgramming.MyShell.Foreground
import SystemProgramming.MyShell.Signals
import SystemProgramming.MyShell.StoppedState
import SystemProgramming.MyShell.Wakeup

/-!
The shell left to itself. Between two lines of input, while no child changes, the main
flow, the handler and the kernel go on by themselves: `Label.own` are their steps.

They come to an end whatever the order: `work` is a bound on how many are left. Where
they end the shell stands at the prompt or in `sigsuspend`, or it has exited; unless it
has, every change of a child has been reaped by then, so that no zombie stays behind.
-/

namespace SystemProgramming.MyShell

open SystemProgramming.CLib SystemProgramming.Library

/-! ### The steps of the shell -/

/-- The step is taken by the shell or the kernel, with no line of input, no key and no
change of a child. -/
def Label.own : Label → Bool
  | .readLine _ _ | .endOfInput | .change _ _ | .keyboard => false
  | _ => true

/-- How many steps of the main flow may come before it stands still. -/
def Pc.rank : Pc → Nat
  | .prompt | .exited | .suspended _ => 0
  | .jobs | .waitCall _ | .bgPrint _ | .killSignal _ => 1
  | .waitTest _ | .bgSignal _ _ | .killRead _ => 2
  | .afterLaunch _ _ | .bgRead _ | .fgSignal _ _ | .killUnlock _ => 3
  | .launched _ _ | .bgUnlock _ | .fgUnlock _ | .killLookup _ => 4
  | .bgLookup _ | .fgLookup _ => 5
  | .launch f => 5 + (f.nseg - f.i)

/-- The main flow waits for something from outside. -/
def Pc.waits : Pc → Bool
  | .prompt | .exited | .suspended _ => true
  | _ => false

def Pc.hasExited : Pc → Bool
  | .exited => true
  | _ => false

namespace Shell

/-- The machine without its environment. -/
def ownStep : Shell → Label → Option Shell := restrict step fun _ l => l.own = true

/-- How many of these steps there can be. A pending SIGCHLD costs one more than the
handler it starts, and the handler one more than the wait it wakes. -/
def work (s : Shell) : Nat :=
  4 * s.pending.toNat + 3 * s.inHandler.toNat + s.children.countP (·.report.isSome) + s.pc.rank

/-- The main flow waits, and unless the shell has exited there is nothing left to reap. -/
structure AtRest (s : Shell) : Prop where
  handler : s.inHandler = false
  waits : s.pc.waits = true
  heard : s.pc.hasExited = false → s.pending = false ∧ ∀ c ∈ s.children, c.report = none
  reaped : s.pc.hasExited = false → ∀ c ∈ s.children, c.state ≠ .zombie

theorem ownStep_eq_some {s s' : Shell} {l : Label} :
    s.ownStep l = some s' ↔ l.own = true ∧ s.step l = some s' := by
  unfold ownStep restrict
  by_cases hown : l.own = true <;> simp [hown]

/-! ### Every step takes something from what is left -/

theorem Goto.rank_lt {s : Shell} {l : Label} {pc : Pc} (h : Goto s l pc) (hs : Consistent s)
    (hown : l.own = true) : pc.rank < s.pc.rank := by
  cases h with
  | endOfInput | keyboard => cases hown
  | skip f segment hpc hmem hnil => exact absurd hnil ((hs.frame f hpc).runnable segment hmem)
  | full f hpc | inBackground f i hpc | inForeground f i hpc | waitOver g hpc | waitOn g hpc
  | suspend g hpc | bgUnknown jid hpc | fgUnknown jid hpc | killUnknown jid hpc | bgRead i hpc
  | killRead i hpc | bgPrint i hpc | bgSent i g hpc | bgFails i g hpc | fgSent i g hpc
  | fgFails i g hpc | killSent g hpc | killFails g hpc => simp [hpc, Pc.rank]

theorem Unlock.rank_lt {pc pc' : Pc} (h : Unlock pc pc') : pc'.rank < pc.rank := by
  cases h <;> simp [Pc.rank]

/-- A stage that is forked, with or without success, is not forked again. -/
theorem rank_afterFork_lt {f : LaunchFrame} (hi : f.i < f.nseg) (fds : FdTable)
    (fd : Int × Int) (pid : Int) :
    (Pc.launch (afterFork fds f fd pid).2).rank < (Pc.launch f).rank := by
  simp only [Pc.rank, afterFork_i, afterFork_nseg]
  omega

/-- A report that `waitpid` returns is gone. -/
theorem countP_report_reap {children : List Child} {pid : Pid} {status : Status} {b : Bool}
    (hreport : (children.find? fun c => c.pid = pid).bind Child.report = some status) :
    (if b then children.filter fun c => c.pid ≠ pid
      else children.map fun c => if c.pid = pid then { c with report := none } else c).countP
        (·.report.isSome) < children.countP (·.report.isSome) := by
  obtain ⟨c, hfind, hc⟩ := Option.bind_eq_some_iff.mp hreport
  have hmem : c ∈ children := List.mem_of_find?_eq_some hfind
  have hpid : c.pid = pid := by simpa using List.find?_some hfind
  -- both ways the reports left are those of the other processes
  have hleft : (if b then children.filter fun c => c.pid ≠ pid
      else children.map fun c => if c.pid = pid then { c with report := none } else c).countP
        (·.report.isSome) = (children.filter fun c => c.pid ≠ pid).countP (·.report.isSome) := by
    cases b with
    | true => rfl
    | false =>
        rw [if_neg Bool.false_ne_true, List.countP_map, List.countP_filter]
        refine List.countP_congr fun d _ => ?_
        by_cases hd : d.pid = pid <;> simp [hd]
  have hgone : 0 < (children.filter fun c => !decide (c.pid ≠ pid)).countP (·.report.isSome) :=
    List.countP_pos_iff.mpr ⟨c, by simp [hmem, hpid], by simp [hc]⟩
  rw [hleft, List.countP_eq_countP_filter_add children _ fun c => decide (c.pid ≠ pid)]
  omega

theorem work_lt {s s' : Shell} {l : Label} (hs : Consistent s) (hown : l.own = true)
    (hstep : s.step l = some s') : s'.work < s.work := by
  cases step_transition hstep with
  | read | change | keyboard => cases hown
  | goto l pc hrun hgoto =>
      have hrank := hgoto.rank_lt hs hown
      simp only [work]
      omega
  | unlock pc hrun hunlock =>
      have hrank := hunlock.rank_lt
      simp only [work, restoreSigmask]
      omega
  | add f fds hrun hpc hend =>
      simp only [work, hpc, Pc.rank]
      omega
  | bgFound jid i hrun hpc hfind | fgFound jid i hrun hpc hfind
  | killFound jid i hrun hpc hfind =>
      simp only [work, hpc, Pc.rank]
      omega
  | pipeFails f hrun hpc =>
      simp only [work, restoreSigmask, hpc, Pc.rank]
      omega
  | forkFails f fds fds' fd hrun hpc hi =>
      have hrank := rank_afterFork_lt hi fds fd (-1)
      simp only [work, hpc]
      omega
  | forks pid f fds fds' fd hrun hpc hi hfresh =>
      have hrank := rank_afterFork_lt hi fds fd pid
      simp only [work, hpc, List.countP_append, List.countP_singleton, Option.isSome_none]
      simp only [Bool.false_eq_true, if_false]
      omega
  | deliver hrun hopen =>
      have hpending : s.pending = true := by
        simp only [step] at hstep
        split at hstep
        · rename_i hguard
          exact hguard.2.1
        · cases hstep
      simp only [work, hrun, hpending, Bool.toNat_true, Bool.toNat_false]
      omega
  | reap pid status children hin hreport hpids =>
      obtain ⟨-, status', hreport', hs'⟩ := step_reap hstep
      have hcount := countP_report_reap (b := status'.terminated) hreport'
      rw [hs']
      simp only [work]
      omega
  | handlerReturns pc hin hpc =>
      -- the wait that `sigsuspend` is woken to costs less than the handler
      have hrank : pc.rank ≤ s.pc.rank + 2 := by
        obtain ⟨rfl, -⟩ | ⟨g, hsuspended, rfl⟩ := hpc
        · omega
        · rw [hsuspended]
          exact le_refl 2
      simp only [work, hin, Bool.toNat_true, Bool.toNat_false]
      omega

/-! ### What is reported -/

/-- A report tells the state its child is in, a process that has ended has one, and while
no SIGCHLD is pending and no handler runs there is none. -/
structure Reported (s : Shell) : Prop where
  distinct : s.alive.Nodup
  coherent : ∀ c ∈ s.children, ∀ status, c.report = some status → c.state = status.leaves
  ended : ∀ c ∈ s.children, c.state = .zombie → c.report ≠ none
  heard : s.inHandler = false → s.pending = false → ∀ c ∈ s.children, c.report = none

theorem Reported.init : Reported {} where
  distinct := .nil
  coherent := fun _ hc => absurd hc List.not_mem_nil
  ended := fun _ hc => absurd hc List.not_mem_nil
  heard := fun _ _ _ hc => absurd hc List.not_mem_nil

/-- A step that leaves the children alone. -/
theorem Reported.frame {s s' : Shell} (h : Reported s) (hchildren : s'.children = s.children)
    (hheard : s'.inHandler = false → s'.pending = false → ∀ c ∈ s.children, c.report = none) :
    Reported s' := by
  refine ⟨?_, ?_, ?_, ?_⟩
  · rw [alive, hchildren]
    exact h.distinct
  · rw [hchildren]
    exact h.coherent
  · rw [hchildren]
    exact h.ended
  · rw [hchildren]
    exact hheard

theorem Reported.forks {s s' : Shell} {pid : Pid} {g : Int} (h : Reported s)
    (hfresh : s.freshPid pid = true)
    (hchildren : s'.children = s.children ++ [{ pid := pid, pgrp := g }])
    (hin : s'.inHandler = s.inHandler) (hpending : s'.pending = s.pending) : Reported s' := by
  have hmem (c : Child) (hc : c ∈ s'.children) :
      c ∈ s.children ∨ c = { pid := pid, pgrp := g } := by
    simpa [hchildren] using hc
  refine ⟨?_, fun c hc status hreport => ?_, fun c hc hzombie => ?_, fun hrun hquiet c hc => ?_⟩
  · rw [alive, hchildren, List.map_append]
    exact nodup_snoc h.distinct (freshPid_spec hfresh).1
  · obtain hold | rfl := hmem c hc
    · exact h.coherent c hold status hreport
    · cases hreport
  · obtain hold | rfl := hmem c hc
    · exact h.ended c hold hzombie
    · cases hzombie
  · obtain hold | rfl := hmem c hc
    · exact h.heard (hin ▸ hrun) (hpending ▸ hquiet) c hold
    · rfl

theorem Reported.change {s s' : Shell} {pid : Pid} {status : Status} (h : Reported s)
    (hstep : s.step (.change pid status) = some s') : Reported s' := by
  obtain ⟨c, c', hfind, hchange, rfl⟩ := step_change hstep
  obtain ⟨hpid, -, hstate, hreport⟩ := change_spec hchange
  have hcpid : c.pid = pid := by simpa using List.find?_some hfind
  refine ⟨?_, fun d hd st hst => ?_, fun d hd hzombie => ?_, fun _ hquiet => ?_⟩
  · have hsame : (s.children.map fun d => if d.pid = pid then c' else d).map
        (fun d => (d.pid : Int)) = s.alive := by
      rw [List.map_map]
      refine List.map_congr_left fun d _ => ?_
      by_cases hd : d.pid = pid <;> simp [hd, hpid, hcpid]
    rw [alive, hsame]
    exact h.distinct
  · obtain ⟨e, he, rfl⟩ := List.mem_map.mp hd
    split at hst
    · rw [if_pos ‹_›]
      rw [hreport] at hst
      cases hst
      exact ProcState.change_leaves hstate
    · rw [if_neg ‹_›]
      exact h.coherent e he st hst
  · obtain ⟨e, he, rfl⟩ := List.mem_map.mp hd
    split at hzombie
    · rw [if_pos ‹_›, hreport]
      exact Option.some_ne_none status
    · rw [if_neg ‹_›]
      exact h.ended e he hzombie
  · cases hquiet

theorem Reported.reap {s s' : Shell} {pid : Pid} (h : Reported s)
    (hstep : s.step (.reap pid) = some s') : Reported s' := by
  obtain ⟨hin, status, hreport, rfl⟩ := step_reap hstep
  obtain ⟨c, hfind, hc⟩ := Option.bind_eq_some_iff.mp hreport
  have hcmem : c ∈ s.children := List.mem_of_find?_eq_some hfind
  have hcpid : c.pid = pid := by simpa using List.find?_some hfind
  cases hterm : status.terminated with
  | true =>
      have hold (d : Child) (hd : d ∈ s.children.filter fun c => c.pid ≠ pid) :
          d ∈ s.children := (List.mem_filter.mp hd).1
      refine ⟨?_, fun d hd => h.coherent d (hold d hd), fun d hd => h.ended d (hold d hd),
        fun hrun => by simp [hin] at hrun⟩
      exact h.distinct.sublist (List.filter_sublist.map _)
  | false =>
      -- the status does not end a process, so the process it is from has not ended
      have halive (d : Child) (hd : d ∈ s.children) (hdpid : d.pid = pid) :
          d.state ≠ .zombie := by
        have hdc : d = c := List.inj_on_of_nodup_map h.distinct hd hcmem (by rw [hdpid, hcpid])
        rw [hdc, h.coherent c hcmem status hc]
        cases status <;> simp_all [Status.leaves, Status.terminated]
      simp only [Bool.false_eq_true, if_false]
      refine ⟨?_, fun d hd st hst => ?_, fun d hd hzombie => ?_,
        fun hrun => by simp [hin] at hrun⟩
      · have hsame : (s.children.map fun d =>
            if d.pid = pid then { d with report := none } else d).map
            (fun d => (d.pid : Int)) = s.alive := by
          rw [List.map_map]
          refine List.map_congr_left fun d _ => ?_
          by_cases hd : d.pid = pid <;> simp [hd]
        rw [alive, hsame]
        exact h.distinct
      · obtain ⟨e, he, rfl⟩ := List.mem_map.mp hd
        split at hst
        · cases hst
        · rw [if_neg ‹_›]
          exact h.coherent e he st hst
      · obtain ⟨e, he, rfl⟩ := List.mem_map.mp hd
        split at hzombie
        · exact absurd hzombie (halive e he ‹_›)
        · rw [if_neg ‹_›]
          exact h.ended e he hzombie

theorem Reported.step {s s' : Shell} {l : Label} (h : Reported s)
    (hstep : s.step l = some s') : Reported s' := by
  cases step_transition hstep with
  | read line stack hrun hpc =>
      obtain ⟨hstart, _⟩ | ⟨hstart, _⟩ := start_eq s stack (eval line) hpc <;>
        exact hstart ▸ h.frame rfl h.heard
  | goto | unlock | add | bgFound | fgFound | killFound | pipeFails | forkFails | keyboard =>
      exact h.frame rfl h.heard
  | forks pid f fds fds' fd hrun hpc hi hfresh => exact h.forks hfresh rfl rfl rfl
  | change pid status children hpids => exact h.change hstep
  | deliver hrun hopen => exact h.frame rfl fun hin => by simp at hin
  | reap pid status children hin hreport hpids => exact h.reap hstep
  | handlerReturns pc hin hpc =>
      refine h.frame rfl fun _ _ => ?_
      -- the handler returns when `waitpid` has nothing to report
      simp only [Shell.step] at hstep
      split at hstep
      · rename_i hnone
        exact hnone.2
      · cases hstep

/-! ### Where it ends -/

/-- Outside the handler a main flow that does not wait can go on. -/
theorem exists_step_of_not_waits {s : Shell} (hrun : s.inHandler = false)
    (hpc : s.pc.waits = false) : ∃ l, l.own = true ∧ s.step l ≠ none := by
  have hproceed (h : s.proceed ≠ none) : ∃ l, l.own = true ∧ s.step l ≠ none :=
    ⟨.proceed, rfl, by simpa [step, hrun] using h⟩
  cases hcase : s.pc with
  | prompt | exited | suspended g => simp [hcase, Pc.waits] at hpc
  | bgSignal i g | fgSignal i g | killSignal g =>
      exact ⟨.killFails, rfl, by simp [step, hrun, hcase]⟩
  | launch f =>
      cases hseg : f.segments[f.i]? with
      | none => exact hproceed (by simp [proceed, hcase, hseg])
      | some segment =>
          by_cases hnil : parseline segment = []
          · exact hproceed (by simp [proceed, hcase, hseg, hnil])
          · exact ⟨.forkFails, rfl, by simp [step, stage, hrun, hcase, hseg, hnil]⟩
  | bgLookup jid | fgLookup jid | killLookup jid =>
      refine hproceed ?_
      cases hfind : s.table.findJobByJid jid <;> simp [proceed, hcase, hfind]
  | afterLaunch f job | bgUnlock job | fgUnlock job | killUnlock job =>
      refine hproceed ?_
      cases job <;> simp [proceed, hcase]
  | jobs | launched f job | waitTest g | waitCall g | bgRead i | bgPrint i | killRead i =>
      exact hproceed (by simp [proceed, hcase])

/-- The handler can always reap or return. -/
theorem exists_step_of_inHandler {s : Shell} (h : Reported s) (hin : s.inHandler = true) :
    ∃ l, l.own = true ∧ s.step l ≠ none := by
  by_cases hnone : ∀ c ∈ s.children, c.report = none
  · exact ⟨.handlerReturns, rfl, by simpa [step, hin] using hnone⟩
  · push Not at hnone
    obtain ⟨c, hc, hreport⟩ := hnone
    refine ⟨.reap c.pid, rfl, ?_⟩
    obtain ⟨status, hstatus⟩ := Option.ne_none_iff_exists'.mp hreport
    have hfind : s.children.find? (fun d => d.pid = c.pid) = some c := by
      obtain ⟨d, hd⟩ : ∃ d, s.children.find? (fun d => d.pid = c.pid) = some d :=
        Option.isSome_iff_exists.mp (List.find?_isSome.mpr ⟨c, hc, by simp⟩)
      have hdpid : d.pid = c.pid := by simpa using List.find?_some hd
      rwa [List.inj_on_of_nodup_map h.distinct (List.mem_of_find?_eq_some hd) hc
        (by rw [hdpid])] at hd
    simp [step, hin, reportOf, hfind, hstatus]

theorem atRest_iff {s : Shell} (hs : Consistent s) (h : Reported s) :
    (∀ l, s.ownStep l = none) ↔ AtRest s := by
  have hown (hstuck : ∀ l, s.ownStep l = none) : ¬∃ l, l.own = true ∧ s.step l ≠ none := by
    rintro ⟨l, hl, hstep⟩
    exact hstep (by simpa [ownStep, restrict, hl] using hstuck l)
  constructor
  · intro hstuck
    have hrun : s.inHandler = false := by
      by_contra hin
      exact hown hstuck (exists_step_of_inHandler h (by simpa using hin))
    have hwaits : s.pc.waits = true := by
      by_contra hpc
      exact hown hstuck (exists_step_of_not_waits hrun (by simpa using hpc))
    have hquiet (hexit : s.pc.hasExited = false) : s.pending = false := by
      have hopen : s.sigchldOpen = true := by
        have hmask := hs.mask
        unfold sigchldOpen
        cases hcase : s.pc with
        | exited => simp [hcase, Pc.hasExited] at hexit
        | prompt => simp [hmask, hcase, Pc.masked]
        | suspended g => rfl
        | _ => simp [hcase, Pc.waits] at hwaits
      by_contra hpending
      exact hown hstuck ⟨.deliver, rfl, by simp_all [step]⟩
    have hheard (hexit : s.pc.hasExited = false) : ∀ c ∈ s.children, c.report = none :=
      h.heard hrun (hquiet hexit)
    exact ⟨hrun, hwaits, fun hexit => ⟨hquiet hexit, hheard hexit⟩,
      fun hexit c hc hzombie => h.ended c hc hzombie (hheard hexit c hc)⟩
  · intro hrest l
    by_contra hne
    obtain ⟨s', hs'⟩ := Option.ne_none_iff_exists'.mp hne
    obtain ⟨hl, hstep⟩ := ownStep_eq_some.mp hs'
    have hrun := hrest.handler
    have hwaits := hrest.waits
    cases step_transition hstep with
    | read | change | keyboard => cases hl
    | goto l pc hrun hgoto =>
        cases hgoto with
        | endOfInput | keyboard => cases hl
        | _ => simp_all [Pc.waits]
    | unlock pc hrun hunlock =>
        generalize s.pc = before at hunlock hwaits
        cases hunlock <;> cases hwaits
    | deliver hrun hopen =>
        simp only [step] at hstep
        split at hstep
        · rename_i hguard
          cases hcase : s.pc with
          | exited => simp [sigchldOpen, hcase] at hguard
          | _ => simp_all [(hrest.heard (by rw [hcase]; rfl)).1]
        · cases hstep
    | reap pid status children hin hreport hpids => simp [hrun] at hin
    | handlerReturns pc hin hpc => simp [hrun] at hin
    | _ => simp_all [Pc.waits]

/-- **The shell comes to rest.** From every state it reaches, with whatever system calls
failing, it takes at most `work` steps by itself, in whatever order; it cannot go on
exactly where it is at rest; and it gets to such a state. -/
theorem comes_to_rest {s : Shell} (h : Reachable step anyStep {} s) :
    (∀ ls s', exec ownStep ls s = some s' → ls.length ≤ s.work) ∧
    ((∀ l, s.ownStep l = none) ↔ AtRest s) ∧
    ∃ ls s', exec ownStep ls s = some s' ∧ AtRest s' := by
  have hinv : Consistent s ∧ Reported s := by
    refine h.invariant (I := fun s => Consistent s ∧ Reported s) ⟨.init, .init⟩ ?_
    rintro s l s' ⟨hs, hr⟩ - hstep
    exact ⟨hs.step (step_transition hstep), hr.step hstep⟩
  have hstep : ∀ s l s', Consistent s ∧ Reported s → s.ownStep l = some s' →
      (Consistent s' ∧ Reported s') ∧ s'.work < s.work := by
    rintro s l s' ⟨hs, hr⟩ hown
    obtain ⟨hl, hstep⟩ := ownStep_eq_some.mp hown
    exact ⟨⟨hs.step (step_transition hstep), hr.step hstep⟩, work_lt hs hl hstep⟩
  refine ⟨fun ls s' hexec => ?_, atRest_iff hinv.1 hinv.2, ?_⟩
  · have hbound := length_le_of_exec hstep hinv hexec
    omega
  · obtain ⟨ls, s', hexec, ⟨hs', hr'⟩, hstuck⟩ := exists_stuck hstep hinv
    exact ⟨ls, s', hexec, (atRest_iff hs' hr').mp hstuck⟩

theorem comes_to_rest_earlyExit :
    let s := (exec (restrict Shell.step anyStep) earlyExit {}).get (by decide +kernel)
    (∀ ls s', exec ownStep ls s = some s' → ls.length ≤ s.work) ∧
      ((∀ l, s.ownStep l = none) ↔ AtRest s) ∧
      ∃ ls s', exec ownStep ls s = some s' ∧ AtRest s' :=
  comes_to_rest (.of_exec (Option.some_get _).symm)

/-! ### The jobs at rest -/

/-- No group in the table is 0, nor is the one the main flow waits for. -/
structure Grouped (s : Shell) : Prop where
  groups : s.table.GroupsForked
  waits : ∀ g, s.pc.waitsFor = some g → g ≠ 0

theorem pgid_ne_zero {t : JobTable} (h : t.GroupsForked) {i : Slot}
    (hi : (t.jobs i).used = true) : (t.jobs i).pgid ≠ 0 := by
  have hgroup := h i hi
  omega

/-- A step that the groups survive and the wait does not begin with. -/
theorem Grouped.frame {s s' : Shell} (h : Grouped s)
    (hgroups : s.table.GroupsForked → s'.table.GroupsForked)
    (hwait : s'.pc.waitsFor = none ∨ s'.pc.waitsFor = s.pc.waitsFor) : Grouped s' := by
  refine ⟨hgroups h.groups, fun g hg => ?_⟩
  obtain hnone | hsame := hwait
  · rw [hnone] at hg
    cases hg
  · exact h.waits g (hsame ▸ hg)

theorem Grouped.step {s s' : Shell} {l : Label} (hs : Consistent s) (h : Grouped s)
    (ht : Transition s l s') : Grouped s' := by
  cases ht with
  | read line stack hrun hpc =>
      have hwait (action : Action) : (action.pc stack).waitsFor = none := by cases action <;> rfl
      obtain ⟨hstart, _⟩ | ⟨hstart, _⟩ := start_eq s stack (eval line) hpc <;>
        exact hstart ▸ h.frame id (.inl (hwait _))
  | goto l pc hrun hgoto =>
      refine h.frame id ?_
      cases hgoto with
      | inBackground f i hpc hbg | inForeground f i hpc hbg =>
          exact .inr (by simp [hpc, Pc.waitsFor, hbg])
      | waitOn g hpc | suspend g hpc | fgSent i g hpc | keyboard g hpc =>
          exact .inr (by rw [hpc]; rfl)
      | _ => exact .inl rfl
  | unlock pc hrun hunlock => exact h.frame id (.inr hunlock.waitsFor_eq.1)
  | add f fds hrun hpc hend =>
      have hproper := hs.frame f hpc
      have hgroup : f.pgid = -1 ∨ 0 < f.pgid :=
        hproper.later (lt_of_lt_of_le hproper.stages hend)
      refine ⟨?_, fun g hg => ?_⟩
      · obtain ⟨_, hadd⟩ | ⟨i, t', _, hadd, _, hother, hnew⟩ :=
          s.table.addJob_cases f.pgid f.pids f.nseg
            (if f.bg then .background else .foreground) f.cmdline
        · simp only [hadd]
          exact h.groups
        · simp only [hadd]
          intro j hj
          rw [JobTable.jobs_updateFgPgid] at hj ⊢
          by_cases hji : j = i
          · subst hji
            rw [hnew]
            exact hgroup
          · rw [hother j hji] at hj ⊢
            exact h.groups j hj
      · cases hjob : (s.table.addJob f.pgid f.pids f.nseg
            (if f.bg then .background else .foreground) f.cmdline).1 with
        | none => simp [hjob, Pc.waitsFor] at hg
        | some i =>
            simp only [hjob, Pc.waitsFor] at hg
            split at hg
            · cases hg
            · obtain rfl := Option.some.inj hg
              omega
  | bgFound jid i hrun hpc hfind => exact h.frame (·.setState i _) (.inl rfl)
  | fgFound jid i hrun hpc hfind =>
      refine ⟨h.groups.setState i _, fun g hg => ?_⟩
      obtain rfl := Option.some.inj hg
      exact pgid_ne_zero h.groups (JobTable.findJobByJid_spec hfind).1
  | killFound jid i hrun hpc hfind | pipeFails f hrun hpc
  | forkFails f fds fds' fd hrun hpc hi | forks pid f fds fds' fd hrun hpc hi hfresh =>
      exact h.frame id (.inl rfl)
  | change pid status children hpids => exact h.frame id (.inr rfl)
  | deliver hrun hopen => exact h.frame id (.inr rfl)
  | reap pid status children hin hreport hpids =>
      refine h.frame (fun hgroups => hgroups.mono fun i hi => ?_) (.inr rfl)
      obtain ⟨_, hfree⟩ | ⟨hused, hpgid, _⟩ := s.table.sigchldBody_slot pid status i
      · rw [hfree] at hi
        cases hi
      · exact ⟨hused ▸ hi, hpgid⟩
  | handlerReturns pc hin hpc =>
      refine h.frame (fun hgroups => hgroups.mono fun i hi => ?_) (.inr ?_)
      · rw [JobTable.jobs_updateFgPgid] at hi ⊢
        exact ⟨hi, rfl⟩
      · obtain ⟨rfl, _⟩ | ⟨g, hsuspended, rfl⟩ := hpc
        · rfl
        · rw [hsuspended]
          rfl
  | keyboard => exact h

end Shell

end SystemProgramming.MyShell
