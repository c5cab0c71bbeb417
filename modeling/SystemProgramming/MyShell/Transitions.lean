import SystemProgramming.MyShell.Machine

/-!
What one step of the shell can do. `Transition` has one constructor for each
kind of step; `step_transition` is the only place where the step function is
unfolded, and every invariant of the machine is a case analysis on it.

`Consistent` holds in every reachable state, whatever the environment does: the
signal mask follows the place of the main flow, and outside the handler
`fg_pgid` is the group of the first foreground job.
-/

namespace SystemProgramming.MyShell

open SystemProgramming.CLib SystemProgramming.Library

/-- The places between `block_sigchld` and `restore_sigmask`. -/
def Pc.masked : Pc → Bool
  | .jobs | .launch _ | .launched _ _ | .bgLookup _ | .bgUnlock _ | .fgLookup _ | .fgUnlock _
  | .killLookup _ | .killUnlock _ => true
  | _ => false

/-- Where a line leads the main flow. -/
def Action.pc (stack : Nat → Int) : Action → Pc
  | .nothing => .prompt
  | .exit => .exited
  | .jobs => .jobs
  | .bg jid => .bgLookup jid
  | .fg jid => .fgLookup jid
  | .kill jid => .killLookup jid
  | .launch segments isBg cmdline => .launch (.enter segments isBg cmdline stack)

/-- The value `update_fg_pgid` stores. -/
def JobTable.foregroundPgid (t : JobTable) : Int :=
  match t.findForegroundJob with
  | none => 0
  | some i => (t.jobs i).pgid

theorem JobTable.fgPgid_updateFgPgid (t : JobTable) :
    t.updateFgPgid.fgPgid = t.foregroundPgid := by
  unfold updateFgPgid foregroundPgid
  cases t.findForegroundJob <;> rfl

theorem JobTable.foregroundPgid_congr {t t' : JobTable} (h : t'.jobs = t.jobs) :
    t'.foregroundPgid = t.foregroundPgid := by
  have hfind : t'.findForegroundJob = t.findForegroundJob := findSlot_congr fun _ => by rw [h]
  unfold foregroundPgid
  rw [hfind, h]

namespace Shell

/-! ### The kinds of steps -/

/-- The steps of the main flow that touch neither the table nor the mask. -/
inductive Goto (s : Shell) : Label → Pc → Prop
  | endOfInput : s.pc = .prompt → Goto s .endOfInput .exited
  | skip (f : LaunchFrame) (segment : CString) : s.pc = .launch f →
      segment ∈ f.segments → parseline segment = [] → Goto s .proceed (.launch f.skip)
  | full (f : LaunchFrame) : s.pc = .afterLaunch f none → Goto s .proceed .prompt
  | inBackground (f : LaunchFrame) (i : Slot) : s.pc = .afterLaunch f (some i) →
      f.bg = true → Goto s .proceed .prompt
  | inForeground (f : LaunchFrame) (i : Slot) : s.pc = .afterLaunch f (some i) →
      f.bg = false → Goto s .proceed (.waitTest f.pgid)
  | waitOver (g : Int) : s.pc = .waitTest g → s.table.fgPgid ≠ g → Goto s .proceed .prompt
  | waitOn (g : Int) : s.pc = .waitTest g → s.table.fgPgid = g →
      Goto s .proceed (.waitCall g)
  | suspend (g : Int) : s.pc = .waitCall g → Goto s .proceed (.suspended g)
  | bgUnknown (jid : Int) : s.pc = .bgLookup jid → Goto s .proceed (.bgUnlock none)
  | fgUnknown (jid : Int) : s.pc = .fgLookup jid → Goto s .proceed (.fgUnlock none)
  | killUnknown (jid : Int) : s.pc = .killLookup jid → Goto s .proceed (.killUnlock none)
  | bgRead (i : Slot) : s.pc = .bgRead i →
      Goto s .proceed (.bgSignal i (s.table.jobs i).pgid)
  | killRead (i : Slot) : s.pc = .killRead i →
      Goto s .proceed (.killSignal (s.table.jobs i).pgid)
  | bgPrint (i : Slot) : s.pc = .bgPrint i → Goto s .proceed .prompt
  | bgSent (i : Slot) (g : Int) : s.pc = .bgSignal i g → Goto s .killSucceeds (.bgPrint i)
  | bgFails (i : Slot) (g : Int) : s.pc = .bgSignal i g → Goto s .killFails .prompt
  | fgSent (i : Slot) (g : Int) : s.pc = .fgSignal i g → Goto s .killSucceeds (.waitTest g)
  | fgFails (i : Slot) (g : Int) : s.pc = .fgSignal i g → Goto s .killFails .prompt
  | killSent (g : Int) : s.pc = .killSignal g → Goto s .killSucceeds .prompt
  | killFails (g : Int) : s.pc = .killSignal g → Goto s .killFails .prompt
  | keyboard (g : Int) : s.pc = .suspended g → Goto s .keyboard (.waitTest g)

/-- What stands behind `restore_sigmask`. -/
inductive Unlock : Pc → Pc → Prop
  | jobs : Unlock .jobs .prompt
  | launched (f : LaunchFrame) (job : Option Slot) :
      Unlock (.launched f job) (.afterLaunch f job)
  | bgUnknown : Unlock (.bgUnlock none) .prompt
  | bg (i : Slot) : Unlock (.bgUnlock (some i)) (.bgRead i)
  | fgUnknown : Unlock (.fgUnlock none) .prompt
  | fg (i : Slot) (g : Int) : Unlock (.fgUnlock (some (i, g))) (.fgSignal i g)
  | killUnknown : Unlock (.killUnlock none) .prompt
  | kill (i : Slot) : Unlock (.killUnlock (some i)) (.killRead i)

/-- What one step does. The main flow takes its steps outside the handler only. -/
inductive Transition (s : Shell) : Label → Shell → Prop
  | read (line : CString) (stack : Nat → Int) : s.inHandler = false → s.pc = .prompt →
      Transition s (.readLine line stack) (s.start stack (eval line))
  | goto (l : Label) (pc : Pc) : s.inHandler = false → Goto s l pc →
      Transition s l { s with pc := pc }
  | unlock (pc : Pc) : s.inHandler = false → Unlock s.pc pc →
      Transition s .proceed { s.restoreSigmask with pc := pc }
  | add (f : LaunchFrame) (fds : FdTable) : s.inHandler = false → s.pc = .launch f →
      f.nseg ≤ f.i →
      Transition s .proceed { s with
        table := (s.table.addJob f.pgid f.pids f.nseg
          (if f.bg then .background else .foreground) f.cmdline).2
        fds := fds
        pc := .launched f (s.table.addJob f.pgid f.pids f.nseg
          (if f.bg then .background else .foreground) f.cmdline).1 }
  | bgFound (jid : Int) (i : Slot) : s.inHandler = false → s.pc = .bgLookup jid →
      s.table.findJobByJid jid = some i →
      Transition s .proceed { s with
        table := (s.table.setState i .background).updateFgPgid
        found := (s.table.jobs i).pgid
        pc := .bgUnlock (some i) }
  | fgFound (jid : Int) (i : Slot) : s.inHandler = false → s.pc = .fgLookup jid →
      s.table.findJobByJid jid = some i →
      Transition s .proceed { s with
        table := (s.table.setState i .foreground).updateFgPgid
        found := (s.table.jobs i).pgid
        pc := .fgUnlock (some (i, (s.table.jobs i).pgid)) }
  | killFound (jid : Int) (i : Slot) : s.inHandler = false → s.pc = .killLookup jid →
      s.table.findJobByJid jid = some i →
      Transition s .proceed
        { s with found := (s.table.jobs i).pgid, pc := .killUnlock (some i) }
  | pipeFails (f : LaunchFrame) : s.inHandler = false → s.pc = .launch f →
      Transition s .pipeFails { s.restoreSigmask with pc := .prompt }
  | forkFails (f : LaunchFrame) (fds fds' : FdTable) (fd : Int × Int) :
      s.inHandler = false → s.pc = .launch f → f.i < f.nseg →
      Transition s .forkFails
        { s with fds := fds', pc := .launch (afterFork fds f fd (-1)).2 }
  | forks (pid : Pid) (f : LaunchFrame) (fds fds' : FdTable) (fd : Int × Int) :
      s.inHandler = false → s.pc = .launch f → f.i < f.nseg → s.freshPid pid = true →
      Transition s (.forks pid) { s with
        fds := fds'
        pc := .launch (afterFork fds f fd pid).2
        children := s.children ++
          [{ pid := pid, pgrp := groupOf (afterFork fds f fd pid).2.pgid }] }
  | change (pid : Pid) (status : Status) (children : List Child) :
      children.map Child.pid = s.children.map Child.pid →
      Transition s (.change pid status) { s with children := children, pending := true }
  | deliver : s.inHandler = false → s.pc.masked = false ∨ s.blocked = false →
      Transition s .deliver { s with inHandler := true, pending := false }
  | reap (pid : Pid) (status : Status) (children : List Child) : s.inHandler = true →
      s.reportOf pid = some status →
      children.map Child.pid =
        (s.children.map Child.pid).filter (fun p => !status.terminated || p ≠ pid) →
      Transition s (.reap pid)
        { s with table := s.table.sigchldBody pid status, children := children }
  | handlerReturns (pc : Pc) : s.inHandler = true →
      (pc = s.pc ∧ ∀ g, s.pc ≠ .suspended g) ∨
        (∃ g, s.pc = .suspended g ∧ pc = .waitTest g) →
      Transition s .handlerReturns
        { s with table := s.table.updateFgPgid, inHandler := false, pc := pc }
  | keyboard : Transition s .keyboard s

/-! ### The inversion lemma -/

theorem proceed_transition {s s' : Shell} (hrun : s.inHandler = false)
    (h : s.proceed = some s') : Transition s .proceed s' := by
  unfold proceed at h
  cases hpc : s.pc with
  | launch f =>
      simp only [hpc] at h
      cases hseg : f.segments[f.i]? with
      | none =>
          simp only [hseg, Option.some.injEq] at h
          subst h
          exact .add f _ hrun hpc (List.getElem?_eq_none_iff.mp hseg)
      | some segment =>
          simp only [hseg] at h
          split at h
          · rename_i hnil
            cases h
            exact .goto _ _ hrun (.skip f segment hpc (List.mem_of_getElem? hseg) hnil)
          · cases h
  | afterLaunch f job =>
      cases job with
      | none =>
          simp only [hpc, Option.some.injEq] at h
          subst h
          exact .goto _ _ hrun (.full f hpc)
      | some i =>
          simp only [hpc, Option.some.injEq] at h
          subst h
          cases hbg : f.bg with
          | true => exact .goto _ _ hrun (.inBackground f i hpc hbg)
          | false => exact .goto _ _ hrun (.inForeground f i hpc hbg)
  | waitTest g =>
      simp only [hpc, Option.some.injEq] at h
      subst h
      by_cases hg : s.table.fgPgid = g
      · simpa only [hg, if_true] using Transition.goto _ _ hrun (.waitOn g hpc hg)
      · simpa only [hg, if_false] using Transition.goto _ _ hrun (.waitOver g hpc hg)
  | bgLookup jid =>
      simp only [hpc] at h
      cases hfind : s.table.findJobByJid jid with
      | none =>
          simp only [hfind, Option.some.injEq] at h
          exact h ▸ .goto _ _ hrun (.bgUnknown jid hpc)
      | some i =>
          simp only [hfind, Option.some.injEq] at h
          exact h ▸ .bgFound jid i hrun hpc hfind
  | fgLookup jid =>
      simp only [hpc] at h
      cases hfind : s.table.findJobByJid jid with
      | none =>
          simp only [hfind, Option.some.injEq] at h
          exact h ▸ .goto _ _ hrun (.fgUnknown jid hpc)
      | some i =>
          simp only [hfind, Option.some.injEq] at h
          exact h ▸ .fgFound jid i hrun hpc hfind
  | killLookup jid =>
      simp only [hpc] at h
      cases hfind : s.table.findJobByJid jid with
      | none =>
          simp only [hfind, Option.some.injEq] at h
          exact h ▸ .goto _ _ hrun (.killUnknown jid hpc)
      | some i =>
          simp only [hfind, Option.some.injEq] at h
          exact h ▸ .killFound jid i hrun hpc hfind
  | jobs =>
      simp only [hpc, Option.some.injEq] at h
      exact h ▸ .unlock _ hrun (hpc ▸ .jobs)
  | launched f job =>
      simp only [hpc, Option.some.injEq] at h
      exact h ▸ .unlock _ hrun (hpc ▸ .launched f job)
  | bgUnlock job =>
      cases job with
      | none =>
          simp only [hpc, Option.some.injEq] at h
          exact h ▸ .unlock _ hrun (hpc ▸ .bgUnknown)
      | some i =>
          simp only [hpc, Option.some.injEq] at h
          exact h ▸ .unlock _ hrun (hpc ▸ .bg i)
  | fgUnlock job =>
      cases job with
      | none =>
          simp only [hpc, Option.some.injEq] at h
          exact h ▸ .unlock _ hrun (hpc ▸ .fgUnknown)
      | some job =>
          simp only [hpc, Option.some.injEq] at h
          exact h ▸ .unlock _ hrun (hpc ▸ .fg job.1 job.2)
  | killUnlock job =>
      cases job with
      | none =>
          simp only [hpc, Option.some.injEq] at h
          exact h ▸ .unlock _ hrun (hpc ▸ .killUnknown)
      | some i =>
          simp only [hpc, Option.some.injEq] at h
          exact h ▸ .unlock _ hrun (hpc ▸ .kill i)
  | waitCall g =>
      simp only [hpc, Option.some.injEq] at h
      exact h ▸ .goto _ _ hrun (.suspend g hpc)
  | bgRead i =>
      simp only [hpc, Option.some.injEq] at h
      exact h ▸ .goto _ _ hrun (.bgRead i hpc)
  | bgPrint i =>
      simp only [hpc, Option.some.injEq] at h
      exact h ▸ .goto _ _ hrun (.bgPrint i hpc)
  | killRead i =>
      simp only [hpc, Option.some.injEq] at h
      exact h ▸ .goto _ _ hrun (.killRead i hpc)
  | prompt | exited | suspended _ | bgSignal _ _ | fgSignal _ _ | killSignal _ =>
      simp only [hpc, reduceCtorEq] at h

theorem stage_spec {s : Shell} {f : LaunchFrame} (h : s.stage = some f) :
    s.pc = .launch f ∧ f.i < f.nseg := by
  unfold stage at h
  cases hpc : s.pc with
  | launch f' =>
      simp only [hpc] at h
      cases hseg : f'.segments[f'.i]? with
      | none => simp only [hseg, reduceCtorEq] at h
      | some segment =>
          simp only [hseg] at h
          split at h
          · cases h
          · cases h
            exact ⟨rfl, (List.getElem?_eq_some_iff.mp hseg).1⟩
  | _ => simp only [hpc, reduceCtorEq] at h

theorem step_transition {s s' : Shell} {l : Label} (h : s.step l = some s') :
    Transition s l s' := by
  cases l with
  | readLine line stack =>
      cases hpc : s.pc with
      | prompt =>
          simp only [step, hpc] at h
          split at h
          · rename_i hread
            exact Option.some.inj h ▸ .read line stack hread.1 hpc
          · cases h
      | _ => simp only [step, hpc, reduceCtorEq] at h
  | endOfInput =>
      cases hpc : s.pc with
      | prompt =>
          simp only [step, hpc] at h
          split at h
          · cases h
          · rename_i hrun
            exact Option.some.inj h ▸ .goto _ _ (by simpa using hrun) (.endOfInput hpc)
      | _ => simp only [step, hpc, reduceCtorEq] at h
  | proceed =>
      simp only [step] at h
      split at h
      · cases h
      · rename_i hrun
        exact proceed_transition (by simpa using hrun) h
  | pipeFails =>
      simp only [step] at h
      split at h
      · cases h
      · rename_i hrun
        obtain ⟨f, hf, h⟩ := Option.bind_eq_some_iff.mp h
        split at h
        · exact Option.some.inj h ▸ .pipeFails f (by simpa using hrun) (stage_spec hf).1
        · cases h
  | forkFails =>
      simp only [step] at h
      split at h
      · cases h
      · rename_i hrun
        obtain ⟨f, hf, h⟩ := Option.bind_eq_some_iff.mp h
        exact Option.some.inj h ▸ .forkFails f _ _ _ (by simpa using hrun) (stage_spec hf).1
          (stage_spec hf).2
  | forks pid =>
      simp only [step] at h
      split at h
      · cases h
      · rename_i hrun
        obtain ⟨f, hf, h⟩ := Option.bind_eq_some_iff.mp h
        split at h
        · rename_i hfresh
          exact Option.some.inj h ▸ .forks pid f _ _ _ (by simpa using hrun) (stage_spec hf).1
            (stage_spec hf).2 hfresh
        · cases h
  | killFails =>
      simp only [step] at h
      split at h
      · cases h
      · rename_i hrun
        have hrun : s.inHandler = false := by simpa using hrun
        split at h
        · rename_i i g hpc
          exact Option.some.inj h ▸ .goto _ _ hrun (.bgFails i g hpc)
        · rename_i i g hpc
          exact Option.some.inj h ▸ .goto _ _ hrun (.fgFails i g hpc)
        · rename_i g hpc
          exact Option.some.inj h ▸ .goto _ _ hrun (.killFails g hpc)
        · cases h
  | killSucceeds =>
      simp only [step] at h
      split at h
      · cases h
      · rename_i hrun
        have hrun : s.inHandler = false := by simpa using hrun
        split at h
        · rename_i i g hpc
          exact Option.some.inj h ▸ .goto _ _ hrun (.bgSent i g hpc)
        · rename_i i g hpc
          exact Option.some.inj h ▸ .goto _ _ hrun (.fgSent i g hpc)
        · rename_i g hpc
          exact Option.some.inj h ▸ .goto _ _ hrun (.killSent g hpc)
        · cases h
  | change pid status =>
      simp only [step] at h
      obtain ⟨c', hc', h⟩ := Option.map_eq_some_iff.mp h
      obtain ⟨c, hfind, hchange⟩ := Option.bind_eq_some_iff.mp hc'
      have hpid : c'.pid = pid := by
        obtain ⟨state, _, rfl⟩ := Option.map_eq_some_iff.mp hchange
        simpa using List.find?_some hfind
      -- no pid changes, for the one that is replaced keeps its own
      refine h ▸ .change pid status _ ?_
      rw [List.map_map]
      refine List.map_congr_left fun d _ => ?_
      by_cases hd : d.pid = pid <;> simp [hd, hpid]
  | deliver =>
      simp only [step] at h
      split at h
      · rename_i hopen
        obtain ⟨hrun, _, hmask⟩ := hopen
        refine Option.some.inj h ▸ .deliver hrun ?_
        unfold sigchldOpen at hmask
        cases hpc : s.pc with
        -- `sigsuspend` opens the mask for the time it sleeps
        | suspended g => exact .inl rfl
        | exited => simp only [hpc, Bool.false_eq_true] at hmask
        | _ => exact .inr (by simpa [hpc] using hmask)
      · cases h
  | reap pid =>
      simp only [step] at h
      split at h
      · rename_i hhandler
        obtain ⟨status, hreport, h⟩ := Option.map_eq_some_iff.mp h
        refine h ▸ .reap pid status _ hhandler hreport ?_
        cases status.terminated with
        | true => simp [List.filter_map, Function.comp_def]
        | false =>
            simp only [Bool.false_eq_true, if_false, List.map_map, Bool.not_false,
              Bool.true_or, List.filter_true]
            refine List.map_congr_left fun d _ => ?_
            by_cases hd : d.pid = pid <;> simp [hd]
      · cases h
  | handlerReturns =>
      simp only [step] at h
      split at h
      · rename_i hret
        cases hpc : s.pc with
        | suspended g =>
            simp only [hpc, Option.some.injEq] at h
            -- the handler is what `sigsuspend` waits for
            exact h ▸ .handlerReturns _ hret.1 (.inr ⟨g, hpc, rfl⟩)
        | _ =>
            simp only [hpc, Option.some.injEq] at h
            exact h ▸ .handlerReturns _ hret.1 (.inl ⟨hpc.symm, by simp [hpc]⟩)
      · cases h
  | keyboard =>
      simp only [step] at h
      split at h
      · exact Option.some.inj h ▸ .keyboard
      · rename_i hrun
        split at h
        · rename_i g hpc
          exact Option.some.inj h ▸ .goto _ _ (by simpa using hrun) (.keyboard g hpc)
        · exact Option.some.inj h ▸ .keyboard

/-! ### The children

`Transition` keeps of a change and of a reap what happens to the pids; these two say
what happens to the child. -/

theorem step_change {s s' : Shell} {pid : Pid} {status : Status}
    (h : s.step (.change pid status) = some s') :
    ∃ c c', s.children.find? (fun c => c.pid = pid) = some c ∧ c.change status = some c' ∧
      s' = { s with
        children := s.children.map fun c => if c.pid = pid then c' else c
        pending := true } := by
  simp only [step] at h
  obtain ⟨c', hc', h⟩ := Option.map_eq_some_iff.mp h
  obtain ⟨c, hfind, hchange⟩ := Option.bind_eq_some_iff.mp hc'
  exact ⟨c, c', hfind, hchange, h.symm⟩

theorem step_reap {s s' : Shell} {pid : Pid} (h : s.step (.reap pid) = some s') :
    s.inHandler = true ∧ ∃ status, s.reportOf pid = some status ∧
      s' = { s with
        table := s.table.sigchldBody pid status
        children :=
          if status.terminated then s.children.filter fun c => c.pid ≠ pid
          else s.children.map fun c => if c.pid = pid then { c with report := none } else c } := by
  simp only [step] at h
  split at h
  · obtain ⟨status, hreport, h⟩ := Option.map_eq_some_iff.mp h
    exact ⟨‹_›, status, hreport, h.symm⟩
  · cases h

/-- A change of status leaves pid and group alone. -/
theorem change_spec {c c' : Child} {status : Status} (h : c.change status = some c') :
    c'.pid = c.pid ∧ c'.pgrp = c.pgrp ∧ c.state.change status = some c'.state ∧
      c'.report = some status := by
  obtain ⟨state, hstate, rfl⟩ := Option.map_eq_some_iff.mp h
  exact ⟨rfl, rfl, hstate, rfl⟩

/-! ### What holds in every run -/

theorem start_eq (s : Shell) (stack : Nat → Int) (action : Action) (hpc : s.pc = .prompt) :
    s.start stack action = { s with pc := action.pc stack } ∧
        (action = .nothing ∨ action = .exit) ∨
      s.start stack action = { s.blockSigchld with pc := action.pc stack } ∧
        (action.pc stack).masked = true := by
  obtain ⟨table, pc, blocked, prev, inHandler, pending, children, fds, found⟩ := s
  simp only at hpc
  subst hpc
  cases action with
  | nothing => exact .inl ⟨rfl, .inl rfl⟩
  | exit => exact .inl ⟨rfl, .inr rfl⟩
  | jobs | bg _ | fg _ | kill _ | launch _ _ _ => exact .inr ⟨rfl, rfl⟩

theorem Goto.masked_eq {s : Shell} {l : Label} {pc : Pc} (h : Goto s l pc) :
    pc.masked = s.pc.masked := by
  cases h <;> simp only [*, Pc.masked]

theorem Unlock.masked_eq {pc pc' : Pc} (h : Unlock pc pc') :
    pc.masked = true ∧ pc'.masked = false := by
  cases h <;> exact ⟨rfl, rfl⟩

end Shell

/-- `launch_pipeline` starts with its first stage. -/
theorem Action.of_pc_launch {action : Action} {stack : Nat → Int} {f : LaunchFrame}
    (h : action.pc stack = .launch f) : ∃ segments bg cmdline,
      action = .launch segments bg cmdline ∧ f = .enter segments bg cmdline stack := by
  cases action with
  | launch segments bg cmdline =>
      cases h
      exact ⟨segments, bg, cmdline, rfl, rfl⟩
  | _ => cases h

/-- A frame of `launch_pipeline` whose segments all name a command: no stage is skipped,
and the group is set by the first `fork`. -/
structure LaunchFrame.Proper (f : LaunchFrame) : Prop where
  runnable : ∀ segment ∈ f.segments, parseline segment ≠ []
  stages : 0 < f.nseg
  bound : f.i ≤ f.nseg
  first : f.i = 0 → f.pgid = 0
  later : 0 < f.i → f.pgid = -1 ∨ 0 < f.pgid

/-- What is launched is what `parse_line` made of the line. -/
theorem eval_launch {line cmdline : CString} {segments : List CString} {bg : Bool}
    (h : eval line = .launch segments bg cmdline) :
    parseLine line = some (segments, bg) ∧ segments ≠ [] := by
  have hbuiltin (cmd : CString) (args : List CString) (action : Action)
      (hb : builtinCommand cmd args = some action) : action ≠ .launch segments bg cmdline := by
    have hid (make : Int → Action) (hmake : ∀ jid, make jid ≠ .launch segments bg cmdline) :
        withJobId args make ≠ .launch segments bg cmdline := by
      unfold withJobId
      split
      · exact Action.noConfusion
      · exact hmake _
    unfold builtinCommand at hb
    split_ifs at hb <;> cases hb
    · exact Action.noConfusion
    · exact Action.noConfusion
    · exact Action.noConfusion
    · exact hid _ fun _ => Action.noConfusion
    · exact hid _ fun _ => Action.noConfusion
    · exact hid _ fun _ => Action.noConfusion
  unfold eval at h
  split at h
  · cases h
  · cases h
  · rename_i segment bg' hparse
    split at h
    · cases h
    · rename_i cmd args hargv
      cases hb : builtinCommand cmd args with
      | none =>
          rw [hb] at h
          cases h
          exact ⟨hparse, by simp⟩
      | some action =>
          rw [hb] at h
          exact absurd h (hbuiltin cmd args action hb)
  · rename_i segments' bg' hne _ hparse
    cases h
    exact ⟨hparse, hne⟩

theorem LaunchFrame.Proper.enter {segments : List CString} (bg : Bool) (cmdline : CString)
    (stack : Nat → Int) (hrun : ∀ segment ∈ segments, parseline segment ≠ [])
    (hne : segments ≠ []) : (LaunchFrame.enter segments bg cmdline stack).Proper :=
  ⟨hrun, List.length_pos_of_ne_nil hne, Nat.zero_le _, fun _ => rfl,
    fun h => absurd h (Nat.lt_irrefl 0)⟩

theorem LaunchFrame.Proper.afterFork {f : LaunchFrame} (h : f.Proper) (hi : f.i < f.nseg)
    (fds : FdTable) (fd : Int × Int) {pid : Int} (hpid : pid = -1 ∨ 0 < pid) :
    (afterFork fds f fd pid).2.Proper := by
  refine ⟨?_, ?_, ?_, ?_, fun _ => ?_⟩
  · have hsegs : (MyShell.afterFork fds f fd pid).2.segments = f.segments := by
      simp only [MyShell.afterFork]
      split <;> rfl
    rw [hsegs]
    exact h.runnable
  · rw [afterFork_nseg]
    exact h.stages
  · rw [afterFork_i, afterFork_nseg]
    exact hi
  · rw [afterFork_i]
    omega
  · rw [afterFork_pgid]
    split
    · exact hpid
    · rename_i hne
      exact h.later (Nat.pos_of_ne_zero fun hzero => hne (h.first hzero))

namespace Shell

/-- The mask follows the main flow, the handler runs in unmasked places only, and
outside the handler `fg_pgid` is up to date. -/
structure Consistent (s : Shell) : Prop where
  mask : s.blocked = s.pc.masked
  saved : s.prev = false
  handler : s.inHandler = true → s.pc.masked = false
  fg : s.inHandler = false → s.table.fgPgid = s.table.foregroundPgid
  frame : ∀ f, s.pc = .launch f → f.Proper

theorem Consistent.init : Consistent {} where
  mask := rfl
  saved := rfl
  handler := fun _ => rfl
  fg := fun _ => by decide +kernel
  frame := fun _ h => by cases h

theorem Consistent.step {s s' : Shell} {l : Label} (h : Consistent s)
    (ht : Transition s l s') : Consistent s' := by
  obtain ⟨hmask, hsaved, hhandler, hfg, hframe⟩ := h
  cases ht with
  | read line stack hrun hpc =>
      have hblocked : s.blocked = false := by rw [hmask, hpc]; rfl
      have hlaunch (f : LaunchFrame) (hf : (eval line).pc stack = .launch f) : f.Proper := by
        obtain ⟨segments, bg, cmdline, heval, rfl⟩ := Action.of_pc_launch hf
        obtain ⟨hparse, hne⟩ := eval_launch heval
        exact .enter bg cmdline stack (parseLine_runnable hparse).1 hne
      obtain ⟨hstart, hidle⟩ | ⟨hstart, hlock⟩ := start_eq s stack (eval line) hpc
      · rw [hstart]
        refine ⟨?_, hsaved, fun hin => ?_, hfg, hlaunch⟩
        · obtain heval | heval := hidle <;> rw [heval] <;> exact hblocked
        · simp [hrun] at hin
      · rw [hstart]
        refine ⟨hlock.symm, hblocked, fun hin => ?_, hfg, hlaunch⟩
        simp [blockSigchld, hrun] at hin
  | goto l pc hrun hgoto =>
      refine ⟨hmask.trans hgoto.masked_eq.symm, hsaved, fun hin => ?_, hfg, fun f hf => ?_⟩
      · simp [hrun] at hin
      · simp only at hf
        subst hf
        cases hgoto with
        | skip f' segment hpc hmem hnil => exact absurd hnil ((hframe f' hpc).runnable _ hmem)
  | unlock pc hrun hunlock =>
      refine ⟨hsaved.trans hunlock.masked_eq.2.symm, hsaved, fun hin => ?_, hfg, fun f hf => ?_⟩
      · simp [restoreSigmask, hrun] at hin
      · simp only at hf
        subst hf
        exact absurd hunlock.masked_eq.2 Bool.noConfusion
  | add f fds hrun hpc hend =>
      refine ⟨hmask.trans (by rw [hpc]; rfl), hsaved, fun hin => ?_, fun _ => ?_,
        fun f hf => by cases hf⟩
      · simp [hrun] at hin
      · obtain ⟨_, hadd⟩ | ⟨i, t', _, hadd, _⟩ := s.table.addJob_cases f.pgid f.pids f.nseg
          (if f.bg then .background else .foreground) f.cmdline
        · simp only [hadd]
          exact hfg hrun
        · simp only [hadd]
          rw [JobTable.fgPgid_updateFgPgid,
            JobTable.foregroundPgid_congr (JobTable.jobs_updateFgPgid t')]
  | bgFound jid i hrun hpc hfind | fgFound jid i hrun hpc hfind =>
      refine ⟨hmask.trans (by rw [hpc]; rfl), hsaved, fun hin => ?_, fun _ => ?_,
        fun f hf => by cases hf⟩
      · simp [hrun] at hin
      · rw [JobTable.fgPgid_updateFgPgid,
          JobTable.foregroundPgid_congr (JobTable.jobs_updateFgPgid _)]
  | killFound jid i hrun hpc hfind =>
      refine ⟨hmask.trans (by rw [hpc]; rfl), hsaved, fun hin => ?_, hfg,
        fun f hf => by cases hf⟩
      simp [hrun] at hin
  | pipeFails f hrun hpc =>
      refine ⟨hsaved, hsaved, fun hin => ?_, hfg, fun f hf => by cases hf⟩
      simp [restoreSigmask, hrun] at hin
  | forkFails f fds fds' fd hrun hpc hi =>
      refine ⟨hmask.trans (by rw [hpc]; rfl), hsaved, fun hin => ?_, hfg, fun f' hf' => ?_⟩
      · simp [hrun] at hin
      · cases hf'
        exact (hframe f hpc).afterFork hi fds fd (.inl rfl)
  | forks pid f fds fds' fd hrun hpc hi hfresh =>
      refine ⟨hmask.trans (by rw [hpc]; rfl), hsaved, fun hin => ?_, hfg, fun f' hf' => ?_⟩
      · simp [hrun] at hin
      · cases hf'
        exact (hframe f hpc).afterFork hi fds fd (.inr pid.2)
  | change pid status children hpids => exact ⟨hmask, hsaved, hhandler, hfg, hframe⟩
  | deliver hrun hopen =>
      refine ⟨hmask, hsaved, fun _ => ?_, fun hin => by simp at hin, hframe⟩
      obtain hopen | hopen := hopen
      · exact hopen
      · exact hmask.symm.trans hopen
  | reap pid status children hin hreport hpids =>
      exact ⟨hmask, hsaved, hhandler, fun hrun => by simp [hin] at hrun, hframe⟩
  | handlerReturns pc hin hpc =>
      have hunmasked : pc.masked = s.pc.masked := by
        obtain ⟨rfl, _⟩ | ⟨g, hsus, rfl⟩ := hpc
        · rfl
        · rw [hsus]; rfl
      refine ⟨hmask.trans hunmasked.symm, hsaved, fun hin => by simp at hin, fun _ => ?_,
        fun f hf => ?_⟩
      · rw [JobTable.fgPgid_updateFgPgid,
          JobTable.foregroundPgid_congr (JobTable.jobs_updateFgPgid _)]
      · obtain ⟨rfl, _⟩ | ⟨g, hsus, rfl⟩ := hpc
        · exact hframe f hf
        · cases hf
  | keyboard => exact ⟨hmask, hsaved, hhandler, hfg, hframe⟩

theorem Consistent.not_launch {s : Shell} (h : Consistent s) (hin : s.inHandler = true)
    (f : LaunchFrame) : s.pc ≠ .launch f := by
  intro hpc
  have hunmasked := h.handler hin
  rw [hpc] at hunmasked
  cases hunmasked

/-- No stage is skipped: a launch goes on with `fork` and `add_job` only. -/
theorem Consistent.goto_not_launch {s : Shell} {l : Label} {pc : Pc} (h : Consistent s)
    (hgoto : Goto s l pc) (f : LaunchFrame) : s.pc ≠ .launch f ∧ pc ≠ .launch f := by
  cases hgoto with
  | skip f' segment hpc hmem hnil => exact absurd hnil ((h.frame f' hpc).runnable segment hmem)
  | _ => simp_all

theorem Unlock.not_launch {pc pc' : Pc} (h : Unlock pc pc') (f : LaunchFrame) :
    pc ≠ .launch f ∧ pc' ≠ .launch f := by
  cases h <;> exact ⟨nofun, nofun⟩

end Shell

end SystemProgramming.MyShell
