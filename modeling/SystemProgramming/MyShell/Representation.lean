import SystemProgramming.MyShell.Foreground

/-!
What the job table looks like whenever SIGCHLD is unblocked and the handler is not
running. The slots are in order in every state, in the handler and in masked
sections too; only `fg_pgid` lags behind there.

The handler is given any status of any pid here, whether a child could have it or
not: `freeStep` adds such reports to the steps of the machine.
-/

namespace SystemProgramming.MyShell

open SystemProgramming.CLib SystemProgramming.Library

/-! ### One slot -/

/-- What a slot may hold when the jids below `nextJid` have been given. -/
structure Job.Sound (job : Job) (nextJid : Int) : Prop where
  issued : job.used = true → 0 < job.jid ∧ job.jid < nextJid
  state : job.used = true → job.state ≠ .empty
  counts : job.used = true →
    1 ≤ job.liveCount ∧ job.liveCount ≤ job.npids ∧ job.npids ≤ MAXCMDS
  unused : job.used = false → job = {}

theorem Job.Sound.zero (nextJid : Int) : Job.Sound {} nextJid where
  issued h := absurd h Bool.noConfusion
  state h := absurd h Bool.noConfusion
  counts h := absurd h Bool.noConfusion
  unused _ := rfl

theorem Job.Sound.mono {job : Job} {n n' : Int} (h : job.Sound n) (hn : n ≤ n') :
    job.Sound n' where
  issued hused := ⟨(h.issued hused).1, (h.issued hused).2.trans_le hn⟩
  state := h.state
  counts := h.counts
  unused := h.unused

/-- What a writer that adds no job may do to the job in a slot. -/
inductive Job.Rewrite (job : Job) : Job → Prop
  | erase : Rewrite job {}
  | keep : Rewrite job job
  | state (state : JobState) : job.used = true → state ≠ .empty →
      Rewrite job { job with state := state }
  | live (n : Nat) : job.used = true → 1 ≤ n → n ≤ job.liveCount →
      Rewrite job { job with liveCount := n }

theorem Job.Rewrite.same {job job' : Job} (h : Rewrite job job') (hused : job'.used = true) :
    job.used = true ∧ job'.jid = job.jid := by
  cases h with
  | erase => simp at hused
  | keep => exact ⟨hused, rfl⟩
  | state st hjob hst => exact ⟨hjob, rfl⟩
  | live n hjob hpos hle => exact ⟨hjob, rfl⟩

theorem Job.Rewrite.sound {job job' : Job} {n : Int} (h : Rewrite job job') (hs : job.Sound n) :
    job'.Sound n := by
  cases h with
  | erase => exact .zero n
  | keep => exact hs
  | state st hjob hst =>
      exact ⟨hs.issued, fun _ => hst, hs.counts, fun hno => by simp [hjob] at hno⟩
  | live k hjob hpos hle =>
      refine ⟨hs.issued, hs.state, fun _ => ?_, fun hno => by simp [hjob] at hno⟩
      obtain ⟨-, hlive, hnpids⟩ := hs.counts hjob
      exact ⟨hpos, hle.trans hlive, hnpids⟩

namespace JobTable

/-! ### All slots -/

structure SlotsSound (t : JobTable) : Prop where
  next : 0 < t.nextJid
  distinct : ∀ i j, (t.jobs i).used = true → (t.jobs j).used = true →
    (t.jobs i).jid = (t.jobs j).jid → i = j
  sound : ∀ i, (t.jobs i).Sound t.nextJid

theorem SlotsSound.init : SlotsSound {} where
  next := Int.one_pos
  distinct _ _ h := absurd h Bool.noConfusion
  sound _ := .zero 1

theorem SlotsSound.rewrite {t t' : JobTable} (h : SlotsSound t) (hnext : t'.nextJid = t.nextJid)
    (hjobs : ∀ i, (t.jobs i).Rewrite (t'.jobs i)) : SlotsSound t' where
  next := hnext ▸ h.next
  distinct := by
    intro i j hi hj hjid
    obtain ⟨hi, hji⟩ := (hjobs i).same hi
    obtain ⟨hj, hjj⟩ := (hjobs j).same hj
    exact h.distinct i j hi hj (hji ▸ hjj ▸ hjid)
  sound i := hnext ▸ (hjobs i).sound (h.sound i)

theorem SlotsSound.setState {t : JobTable} (h : SlotsSound t) {i : Slot}
    (hi : (t.jobs i).used = true) {state : JobState} (hstate : state ≠ .empty) :
    SlotsSound (t.setState i state) := by
  refine h.rewrite rfl fun j => ?_
  rw [jobs_setState]
  split
  · rename_i hj
    subst hj
    exact .state state hi hstate
  · exact .keep

theorem SlotsSound.updateFgPgid {t : JobTable} (h : SlotsSound t) : SlotsSound t.updateFgPgid :=
  h.rewrite rfl fun _ => .keep

/-- A round of the handler's loop, for any pid and any status. -/
theorem SlotsSound.sigchldBody {t : JobTable} (h : SlotsSound t) (pid : Int) (status : Status) :
    SlotsSound (t.sigchldBody pid status) := by
  generalize ht' : t.sigchldBody pid status = t'
  have hcharge : Charge t pid status t' := ht' ▸ t.sigchldBody_charge pid status
  cases hcharge with
  | unknown | keep => exact h
  | stop i hfind | resume i hfind =>
      exact h.setState (findJobByPid_spec hfind).1 (by decide)
  | charge i hfind hst hlive =>
      refine h.rewrite rfl fun j => ?_
      rw [jobs_setJob]
      split
      · rename_i hj
        subst hj
        exact .live _ (findJobByPid_spec hfind).1 (by omega) (by omega)
      · exact .keep
  | free i hfind hst hlive =>
      refine h.rewrite rfl fun j => ?_
      rw [jobs_deleteJob]
      split
      · exact .erase
      · exact .keep

theorem nextJid_sigchldBody (t : JobTable) (pid : Int) (status : Status) :
    (t.sigchldBody pid status).nextJid = t.nextJid := by
  generalize ht' : t.sigchldBody pid status = t'
  have hcharge : Charge t pid status t' := ht' ▸ t.sigchldBody_charge pid status
  cases hcharge <;> rfl

/-- `add_job` gives the next jid, or nothing changes. -/
theorem SlotsSound.addJob {t : JobTable} (h : SlotsSound t) (pgid : Int) (pids : Nat → Int)
    {npids : Nat} {state : JobState} (cmdline : CString) (hpos : 1 ≤ npids)
    (hmax : npids ≤ MAXCMDS) (hstate : state ≠ .empty) :
    SlotsSound (t.addJob pgid pids npids state cmdline).2 := by
  obtain ⟨-, hadd⟩ | ⟨i, t', hfree, hadd, hnext, hother, hnew⟩ :=
    t.addJob_cases pgid pids npids state cmdline
  · rw [hadd]
    exact h
  rw [hadd]
  refine SlotsSound.updateFgPgid ⟨?_, ?_, ?_⟩
  · have := h.next
    omega
  · -- the new jid is above all the others
    have hlt : ∀ k, k ≠ i → (t'.jobs k).used = true → (t'.jobs k).jid < (t'.jobs i).jid := by
      intro k hk hused
      rw [hother k hk] at hused ⊢
      rw [hnew]
      exact ((h.sound k).issued hused).2
    intro j k hj hk hjid
    rcases eq_or_ne j i with rfl | hji <;> rcases eq_or_ne k j with rfl | hkj
    · rfl
    · exact absurd hjid (hlt k hkj hk).ne'
    · rfl
    · rcases eq_or_ne k i with rfl | hki
      · exact absurd hjid (hlt j hji hj).ne
      · rw [hother j hji] at hj hjid
        rw [hother k hki] at hk hjid
        exact h.distinct j k hj hk hjid
  · intro j
    rcases eq_or_ne j i with rfl | hji
    · have := h.next
      rw [hnew]
      exact ⟨fun _ => ⟨this, by dsimp only; omega⟩, fun _ => hstate,
        fun _ => ⟨hpos, le_rfl, hmax⟩, fun hno => absurd hno Bool.noConfusion⟩
    · rw [hother j hji]
      exact (h.sound j).mono (by omega)

end JobTable

/-! ### Arbitrary reports -/

inductive Event
  | step (l : Label)
  /-- `waitpid` returns `pid` and `status` to the handler, whatever the children do. -/
  | report (pid : Int) (status : Status)

namespace Shell

def freeStep (s : Shell) : Event → Option Shell
  | .step l => s.step l
  | .report pid status =>
      if s.inHandler then some { s with table := s.table.sigchldBody pid status } else none

/-- The jid `add_job` gives in a step. -/
def jidGiven (s : Shell) : Event → Option Int
  | .step .proceed =>
      match s.pc with
      | .launch f =>
          if f.nseg ≤ f.i then
            let (job, table) := s.table.addJob f.pgid f.pids f.nseg
              (if f.bg then .background else .foreground) f.cmdline
            job.map fun i => (table.jobs i).jid
          else none
      | _ => none
  | _ => none

/-- The jids given in a run, in order. -/
def jidsGiven : List Event → Shell → List Int
  | [], _ => []
  | e :: es, s => (s.jidGiven e).toList ++ ((s.freeStep e).map (jidsGiven es)).getD []

/-- What holds in every state of every run. -/
structure InOrder (s : Shell) : Prop where
  consistent : s.Consistent
  slots : s.table.SlotsSound
  frame : ∀ f, s.pc = .launch f → f.nseg ≤ MAXCMDS

theorem InOrder.init : InOrder {} := ⟨.init, .init, fun _ h => by cases h⟩

theorem InOrder.step {s s' : Shell} {l : Label} (h : InOrder s) (ht : Transition s l s') :
    InOrder s' := by
  refine ⟨h.consistent.step ht, ?_, ?_⟩
  · cases ht with
    | read line stack hrun hpc =>
        obtain ⟨hstart, -⟩ | ⟨hstart, -⟩ := start_eq s stack (eval line) hpc <;>
          rw [hstart] <;> exact h.slots
    | add f fds hrun hpc hend =>
        refine h.slots.addJob _ _ _ (h.consistent.frame f hpc).stages (h.frame f hpc) ?_
        split <;> decide
    | bgFound jid i hrun hpc hfind | fgFound jid i hrun hpc hfind =>
        exact (h.slots.setState (JobTable.findJobByJid_spec hfind).1 (by decide)).updateFgPgid
    | reap pid status children hin hreport hpids => exact h.slots.sigchldBody pid status
    | handlerReturns pc hin hpc => exact h.slots.updateFgPgid
    | _ => exact h.slots
  · intro f' hf'
    cases ht with
    | read line stack hrun hpc =>
        have hpc' : (eval line).pc stack = .launch f' := by
          obtain ⟨hstart, -⟩ | ⟨hstart, -⟩ := start_eq s stack (eval line) hpc <;>
            rw [hstart] at hf' <;> exact hf'
        obtain ⟨segments, bg, cmdline, heval, rfl⟩ := Action.of_pc_launch hpc'
        exact (parseLine_runnable (eval_launch heval).1).2
    | goto l pc hrun hgoto =>
        cases hgoto with
        | skip f segment hpc hmem hnil =>
            cases hf'
            exact h.frame f hpc
        | _ => cases hf'
    | unlock pc hrun hunlock =>
        have hmasked := hunlock.masked_eq.2
        cases hf'
        exact absurd hmasked Bool.noConfusion
    | forkFails f fds fds' fd hrun hpc hi | forks pid f fds fds' fd hrun hpc hi hfresh =>
        cases hf'
        rw [afterFork_nseg]
        exact h.frame f hpc
    | handlerReturns pc hin hpc =>
        obtain ⟨rfl, -⟩ | ⟨g, hsus, rfl⟩ := hpc
        · exact h.frame f' hf'
        · cases hf'
    | add _ _ _ _ _ | bgFound _ _ _ _ _ | fgFound _ _ _ _ _ | killFound _ _ _ _ _
    | pipeFails _ _ _ => cases hf'
    | change _ _ _ _ | deliver _ _ | reap _ _ _ _ _ _ | keyboard => exact h.frame f' hf'

theorem InOrder.freeStep {s s' : Shell} {e : Event} (h : InOrder s)
    (hs : s.freeStep e = some s') : InOrder s' := by
  cases e with
  | step l => exact h.step (step_transition hs)
  | report pid status =>
      simp only [Shell.freeStep] at hs
      split at hs
      · rename_i hin
        cases hs
        obtain ⟨⟨hmask, hsaved, hhandler, -, hframe⟩, hslots, hbound⟩ := h
        refine ⟨⟨hmask, hsaved, hhandler, fun hrun => ?_, hframe⟩, hslots.sigchldBody pid status,
          hbound⟩
        simp [hin] at hrun
      · cases hs

/-! ### The jids of a run -/

theorem jidGiven_eq_none {s : Shell} (h : ∀ f, s.pc ≠ .launch f) (e : Event) :
    s.jidGiven e = none := by
  unfold jidGiven
  split
  · split
    · exact absurd ‹_› (h _)
    · rfl
  · rfl

/-- A step gives no jid, or the next one. -/
theorem InOrder.jidGiven {s s' : Shell} {e : Event} (h : InOrder s)
    (hs : s.freeStep e = some s') :
    (s.jidGiven e = none ∧ s'.table.nextJid = s.table.nextJid) ∨
      (s.jidGiven e = some s.table.nextJid ∧ s'.table.nextJid = s.table.nextJid + 1) := by
  cases e with
  | report pid status =>
      simp only [Shell.freeStep] at hs
      split at hs
      · cases hs
        exact .inl ⟨rfl, s.table.nextJid_sigchldBody pid status⟩
      · cases hs
  | step l =>
      cases step_transition hs with
      | read line stack hrun hpc =>
          refine .inl ⟨rfl, ?_⟩
          obtain ⟨hstart, -⟩ | ⟨hstart, -⟩ := start_eq s stack (eval line) hpc
          · rw [hstart]
          · rw [hstart]
            rfl
      | goto l pc hrun hgoto =>
          exact .inl ⟨jidGiven_eq_none (fun f => (h.consistent.goto_not_launch hgoto f).1) _, rfl⟩
      | unlock pc hrun hunlock =>
          exact .inl ⟨jidGiven_eq_none (fun f => (hunlock.not_launch f).1) _, rfl⟩
      | add f fds hrun hpc hend =>
          simp only [Shell.jidGiven, hpc, if_pos hend]
          obtain ⟨-, hadd⟩ | ⟨i, t', -, hadd, hnext, -, hnew⟩ := s.table.addJob_cases f.pgid
            f.pids f.nseg (if f.bg then .background else .foreground) f.cmdline
          · rw [hadd]
            exact .inl ⟨rfl, rfl⟩
          · rw [hadd]
            refine .inr ⟨?_, hnext⟩
            rw [Option.map_some, JobTable.jobs_updateFgPgid, hnew]
      | bgFound jid i hrun hpc hfind | fgFound jid i hrun hpc hfind
      | killFound jid i hrun hpc hfind =>
          exact .inl ⟨jidGiven_eq_none (by simp [hpc]) _, rfl⟩
      | reap pid status children hin hreport hpids =>
          exact .inl ⟨rfl, s.table.nextJid_sigchldBody pid status⟩
      | pipeFails _ _ _ | forkFails _ _ _ _ _ _ _ | forks _ _ _ _ _ _ _ _ _ | change _ _ _ _
      | deliver _ _ | handlerReturns _ _ _ | keyboard => exact .inl ⟨rfl, rfl⟩

/-- The jids of a run are consecutive. -/
theorem InOrder.jidsGiven {es : List Event} {s s' : Shell} (h : InOrder s)
    (hrun : exec Shell.freeStep es s = some s') :
    ∃ n : Nat, Shell.jidsGiven es s = (List.range n).map (fun k : Nat => s.table.nextJid + k) ∧
      s'.table.nextJid = s.table.nextJid + n := by
  induction es generalizing s with
  | nil =>
      cases hrun
      exact ⟨0, rfl, (Int.add_zero _).symm⟩
  | cons e es ih =>
      obtain ⟨m, hm, hrest⟩ := Option.bind_eq_some_iff.mp hrun
      obtain ⟨n, hids, hnext⟩ := ih (h.freeStep hm) hrest
      simp only [Shell.jidsGiven, hm, Option.map_some, Option.getD_some]
      obtain ⟨hnone, hsame⟩ | ⟨hsome, hsucc⟩ := h.jidGiven hm
      · rw [hsame] at hids hnext
        exact ⟨n, by rw [hnone]; exact hids, hnext⟩
      · rw [hsucc] at hids hnext
        refine ⟨n + 1, ?_, by omega⟩
        have hshift : (List.range n).map (fun k : Nat => s.table.nextJid + 1 + k) =
            (List.range n).map ((fun k : Nat => s.table.nextJid + k) ∘ Nat.succ) :=
          List.map_congr_left fun k _ => by simp only [Function.comp_apply]; omega
        rw [hsome, hids, hshift, List.range_succ_eq_map, List.map_cons, List.map_map]
        simp

theorem InOrder.of_exec {es : List Event} {s s' : Shell} (h : InOrder s)
    (hrun : exec Shell.freeStep es s = some s') : InOrder s' := by
  induction es generalizing s with
  | nil =>
      cases hrun
      exact h
  | cons e es ih =>
      obtain ⟨m, hm, hrest⟩ := Option.bind_eq_some_iff.mp hrun
      exact ih (h.freeStep hm) hrest

end Shell

/-! ### The invariant -/

/-- The job table between the masked sections. -/
structure JobTable.Represented (t : JobTable) : Prop where
  distinct : ∀ i j, (t.jobs i).used = true → (t.jobs j).used = true →
    (t.jobs i).jid = (t.jobs j).jid → i = j
  issued : ∀ i, (t.jobs i).used = true → 0 < (t.jobs i).jid ∧ (t.jobs i).jid < t.nextJid
  state : ∀ i, (t.jobs i).used = true →
    (t.jobs i).state ∈ [.foreground, .background, .stopped]
  counts : ∀ i, (t.jobs i).used = true → 1 ≤ (t.jobs i).liveCount ∧
    (t.jobs i).liveCount ≤ (t.jobs i).npids ∧ (t.jobs i).npids ≤ MAXCMDS
  unused : ∀ i, (t.jobs i).used = false → t.jobs i = {}
  foreground : ((∀ i, ¬t.Fg i) ∧ t.fgPgid = 0) ∨
    ∃ i, t.Fg i ∧ (∀ j < i, ¬t.Fg j) ∧ t.fgPgid = (t.jobs i).pgid

theorem JobTable.foregroundPgid_spec (t : JobTable) :
    ((∀ i, ¬t.Fg i) ∧ t.foregroundPgid = 0) ∨
      ∃ i, t.Fg i ∧ (∀ j < i, ¬t.Fg j) ∧ t.foregroundPgid = (t.jobs i).pgid := by
  unfold foregroundPgid
  cases hfind : t.findForegroundJob with
  | none => exact .inl ⟨fun i hi => findForegroundJob_eq_none.mp hfind i hi.1 hi.2, rfl⟩
  | some i =>
      refine .inr ⟨i, findForegroundJob_spec hfind, fun j hj hfg => ?_, rfl⟩
      have hfalse := (findSlot_eq_some.mp hfind).2 j hj
      simp [hfg.1, hfg.2] at hfalse

namespace Shell

theorem InOrder.represented {s : Shell} (h : InOrder s) (hhandler : s.inHandler = false) :
    s.table.Represented where
  distinct := h.slots.distinct
  issued i := (h.slots.sound i).issued
  state i hi := by
    have hne := (h.slots.sound i).state hi
    cases hst : (s.table.jobs i).state with
    | empty => exact absurd hst hne
    | _ => decide
  counts i := (h.slots.sound i).counts
  unused i := (h.slots.sound i).unused
  foreground := by
    rw [h.consistent.fg hhandler]
    exact s.table.foregroundPgid_spec

/-- The table is in order wherever SIGCHLD is unblocked and the handler is not running,
and no jid is given twice, in every run that adds fewer than 2^31 - 1 jobs. -/
theorem table_represented {es : List Event} {s : Shell}
    (hrun : exec freeStep es {} = some s) (hjobs : (jidsGiven es {}).length < 2 ^ 31 - 1) :
    (jidsGiven es {}).Nodup ∧ s.table.nextJid < 2 ^ 31 ∧
      (s.blocked = false → s.inHandler = false → s.table.Represented) := by
  obtain ⟨n, hids, hnext⟩ := InOrder.init.jidsGiven hrun
  refine ⟨?_, ?_, fun _ => (InOrder.init.of_exec hrun).represented⟩
  · rw [hids]
    refine List.nodup_range.map fun a b hab => ?_
    dsimp only at hab
    omega
  · rw [hids, List.length_map, List.length_range] at hjobs
    rw [hnext]
    change (1 : Int) + n < 2 ^ 31
    omega

/-- Two jobs in the background. The first is reaped, and the second is said to have
stopped. -/
def twoJobs : List Event :=
  [.step (.readLine "sleep 9 &\n".toList fun _ => 0), .step (.forks 100),
    .step .proceed, .step .proceed, .step .proceed,
    .step (.readLine "cat &\n".toList fun _ => 0), .step (.forks 101),
    .step (.change 100 .signaled), .step .proceed, .step .proceed,
    .step .deliver, .report 101 .stopped, .step (.reap 100),
    .step .handlerReturns]

theorem table_represented_twoJobs :
    ((exec freeStep twoJobs {}).get (by decide +kernel)).table.Represented :=
  (table_represented (Option.some_get _).symm (by decide +kernel)).2.2 (by decide +kernel)
    (by decide +kernel)

end Shell

end SystemProgramming.MyShell
