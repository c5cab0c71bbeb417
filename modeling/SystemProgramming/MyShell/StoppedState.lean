import SystemProgramming.MyShell.Accounting

/-!
The state JOB_STOPPED against the stopped processes of a job. The handler keeps one
state for all processes of a job: a stop sets it, a continue takes it back, and an
end leaves it alone, whichever process the status is from. So it is wrong after a
continue while another process is stopped, and after the end of the only stopped
process.

SIGCONT does not act at once here: a process that `fg` or `bg` has sent it to changes
some time later, and until then the signal is on its way.
-/

namespace SystemProgramming.MyShell

open SystemProgramming.CLib SystemProgramming.Library

/-! ### Signals on their way -/

/-- The shell, and the children with a SIGCONT of `fg` or `bg` on its way to them. -/
structure Posted where
  shell : Shell := {}
  inFlight : List Pid := []

/-- The children that a step sends SIGCONT to while they are stopped. -/
def Shell.continues (s : Shell) : Label → List Pid
  | .killSucceeds =>
      match s.pc with
      | .bgSignal _ g | .fgSignal _ g =>
          (s.children.filter fun c => c.pgrp = g ∧ c.state = .stopped).map Child.pid
      | _ => []
  | _ => []

/-- The slot whose job `fg` or `bg` has found and is about to send SIGCONT to. -/
def Pc.resumes : Pc → Option Slot
  | .bgUnlock (some i) | .bgRead i | .bgSignal i _ | .fgUnlock (some (i, _))
  | .fgSignal i _ => some i
  | _ => none

namespace Posted

/-- A child that changes has dealt with the signal. -/
def step (t : Posted) (l : Label) : Option Posted :=
  (t.shell.step l).map fun s' =>
    { shell := s'
      inFlight :=
        match l with
        | .change pid _ => t.inFlight.filter (· ≠ pid)
        | l => t.inFlight ++ t.shell.continues l }

/-- The processes of the job in slot `i`: the children it records. -/
def members (t : Posted) (i : Slot) : List Child :=
  t.shell.children.filter fun c => (c.pid : Int) ∈ (t.shell.table.jobs i).recorded

/-- No status is left to reap, the handler is not running, and no SIGCONT of `fg` or `bg`
is still to come. -/
structure Quiescent (t : Posted) : Prop where
  handler : t.shell.inHandler = false
  reaped : ∀ c ∈ t.shell.children, c.report = none
  arrived : t.inFlight = []
  sent : t.shell.pc.resumes = none

/-- A job is stopped when one of its processes is. -/
def Faithful (t : Posted) : Prop :=
  ∀ i, (t.shell.table.jobs i).used = true →
    ((t.shell.table.jobs i).state = .stopped ↔ ∃ c ∈ t.members i, c.state = .stopped)

/-! ### The condition -/

/-- The child is stopped, that has been reaped, and nobody has sent it SIGCONT. -/
def rests (t : Posted) (c : Child) : Bool :=
  c.state == .stopped && c.report == none && !t.inFlight.contains c.pid

/-- The processes of the job in slot `i` besides `pid`. -/
def others (t : Posted) (i : Slot) (pid : Pid) : List Child :=
  (t.members i).filter fun c => c.pid ≠ pid

/-- The call of `kill` that `reached` describes leaves no stopped process of the job in
slot `i` behind, or the handler has noted a new stop meanwhile. -/
def reachesAll (t : Posted) (i : Slot) (reached : Child → Bool) : Bool :=
  !(t.shell.table.jobs i).used || (t.shell.table.jobs i).state == .stopped ||
    (t.members i).all fun c => !t.rests c || reached c

/-- The reap of `status`, from `pid`, leaves the job in slot `i` in a state that is right. -/
def reapsRight (t : Posted) (i : Slot) (pid : Pid) : Status → Bool
  | .stopped => true
  | .continued =>
      (t.shell.table.jobs i).state != .stopped || t.shell.pc.resumes == some i ||
        (t.others i pid).all fun c => !t.rests c
  | .exited | .signaled =>
      (t.shell.table.jobs i).state != .stopped || decide ((t.shell.table.jobs i).liveCount ≤ 1) ||
        (t.others i pid).any fun c => c.state == .stopped || c.report.isSome

/-- The steps that keep the states right. -/
def keepsRight (t : Posted) : Label → Bool
  | .forks pid => (t.shell.table.findJobByPid pid).isNone
  | .reap pid =>
      match t.shell.reportOf pid, t.shell.table.findJobByPid pid with
      | some status, some i => t.reapsRight i pid status
      | _, _ => true
  | .killFails =>
      match t.shell.pc with
      | .bgSignal i _ | .fgSignal i _ => t.reachesAll i fun _ => false
      | _ => true
  | .killSucceeds =>
      match t.shell.pc with
      | .bgSignal i g | .fgSignal i g => t.reachesAll i fun c => c.pgrp = g
      | _ => true
  | _ => true

end Posted

/-! ### What holds of the children -/

/-- The state a process is in after the change that `status` reports. -/
def Status.leaves : Status → ProcState
  | .stopped => .stopped
  | .continued => .running
  | .exited | .signaled => .zombie

theorem ProcState.change_leaves {state state' : ProcState} {status : Status}
    (h : state.change status = some state') : state' = status.leaves := by
  cases state <;> cases status <;> simp_all [ProcState.change, Status.leaves]

namespace JobTable

/-- A status changes one slot at most. -/
theorem jobs_sigchldBody_other (t : JobTable) {pid : Int} (status : Status) {j : Slot}
    (hj : t.findJobByPid pid ≠ some j) : (t.sigchldBody pid status).jobs j = t.jobs j := by
  generalize ht' : t.sigchldBody pid status = t'
  have hcharge : Charge t pid status t' := ht' ▸ t.sigchldBody_charge pid status
  cases hcharge with
  | unknown | keep => rfl
  | stop i hfind | resume i hfind | charge i hfind | free i hfind =>
      have hne : j ≠ i := fun hji => hj (hji ▸ hfind)
      simp [hne]

/-- What it does to the slot it finds. -/
theorem jobs_sigchldBody_found {t : JobTable} {pid : Int} {i : Slot} (status : Status)
    (hfind : t.findJobByPid pid = some i) :
    (t.sigchldBody pid status).jobs i =
      match status with
      | .stopped => { t.jobs i with state := .stopped }
      | .continued =>
          if (t.jobs i).state = .stopped then { t.jobs i with state := .background } else t.jobs i
      | .exited | .signaled =>
          if (t.jobs i).liveCount ≤ 1 then {}
          else { t.jobs i with liveCount := (t.jobs i).liveCount - 1 } := by
  generalize ht' : t.sigchldBody pid status = t'
  have hcharge : Charge t pid status t' := ht' ▸ t.sigchldBody_charge pid status
  cases hcharge with
  | unknown hnone => simp [hfind] at hnone
  | stop k hk hst =>
      obtain rfl : i = k := Option.some.inj (hfind.symm.trans hk)
      simp [hst]
  | resume k hk hst hstate =>
      obtain rfl : i = k := Option.some.inj (hfind.symm.trans hk)
      simp [hst, hstate]
  | keep k hk hst hstate =>
      obtain rfl : i = k := Option.some.inj (hfind.symm.trans hk)
      simp [hst, hstate]
  | charge k hk hst hlive =>
      obtain rfl : i = k := Option.some.inj (hfind.symm.trans hk)
      cases status <;> simp_all [Status.terminated]
  | free k hk hst hlive =>
      obtain rfl : i = k := Option.some.inj (hfind.symm.trans hk)
      cases status <;> simp_all [Status.terminated]

end JobTable

/-- What a status leaves in use is what it was. -/
theorem JobTable.sigchldBody_records (t : JobTable) (pid : Int) (status : Status) (j : Slot)
    (hj : ((t.sigchldBody pid status).jobs j).used = true) :
    (t.jobs j).used = true ∧
      ((t.sigchldBody pid status).jobs j).recorded = (t.jobs j).recorded := by
  generalize ht' : t.sigchldBody pid status = t' at *
  have hcharge : Charge t pid status t' := ht' ▸ t.sigchldBody_charge pid status
  cases hcharge with
  | unknown | keep => exact ⟨hj, rfl⟩
  | stop i | resume i | charge i | free i =>
      by_cases hji : j = i
      · subst hji
        simp_all [Job.recorded]
      · simp_all

namespace Shell

def Records (s : Shell) (i : Slot) (c : Child) : Prop :=
  (s.table.jobs i).used = true ∧ (c.pid : Int) ∈ (s.table.jobs i).recorded

/-- A report tells the state its child is in, no two jobs record one child, and the
children of a launch are recorded nowhere yet and have nothing reaped. -/
structure Ordered (s : Shell) : Prop where
  distinct : s.alive.Nodup
  coherent : ∀ c ∈ s.children, ∀ status, c.report = some status → c.state = status.leaves
  single : ∀ c ∈ s.children, ∀ i j, s.Records i c → s.Records j c → i = j
  fresh : ∀ f, s.pc = .launch f → ∀ c ∈ s.children, (c.pid : Int) ∈ f.stored →
    (∀ i, ¬s.Records i c) ∧ (c.report = none → c.state = .running)

theorem Ordered.init : Ordered {} where
  distinct := .nil
  coherent := nofun
  single := nofun
  fresh := nofun

/-- A step that adds no child and no record. -/
theorem Ordered.of {s s' : Shell} (h : Ordered s) (hdistinct : s'.alive.Nodup)
    (hchildren : ∀ c' ∈ s'.children, (∃ c ∈ s.children, c.pid = c'.pid) ∧
      ∀ status, c'.report = some status → c'.state = status.leaves)
    (hjobs : ∀ i, (s'.table.jobs i).used = true → (s.table.jobs i).used = true ∧
      (s'.table.jobs i).recorded = (s.table.jobs i).recorded)
    (hpc : ∀ f, s'.pc = .launch f → f.i = 0 ∨ s.pc = .launch f ∧
      ∀ c' ∈ s'.children, c'.report = none → c' ∈ s.children) : Ordered s' := by
  have hrecords : ∀ {c c' : Child}, c.pid = c'.pid → ∀ i, s'.Records i c' → s.Records i c := by
    intro c c' hpid i hi
    obtain ⟨hused, hrec⟩ := hjobs i hi.1
    exact ⟨hused, hpid ▸ hrec ▸ hi.2⟩
  refine ⟨hdistinct, fun c hc => (hchildren c hc).2, fun c' hc' i j hi hj => ?_,
    fun f hf c' hc' hstored => ?_⟩
  · obtain ⟨⟨c, hc, hpid⟩, -⟩ := hchildren c' hc'
    exact h.single c hc i j (hrecords hpid i hi) (hrecords hpid j hj)
  · obtain hzero | ⟨hold, hsame⟩ := hpc f hf
    · simp [LaunchFrame.stored, hzero] at hstored
    · obtain ⟨⟨c, hc, hpid⟩, -⟩ := hchildren c' hc'
      refine ⟨fun i hi => ?_, fun hnone => ?_⟩
      · exact (h.fresh f hold c hc (hpid ▸ hstored)).1 i (hrecords hpid i hi)
      · exact (h.fresh f hold c' (hsame c' hc' hnone) hstored).2 hnone

/-- A step of the main flow that leaves children and records alone. -/
theorem Ordered.frame {s s' : Shell} (h : Ordered s) (hchildren : s'.children = s.children)
    (hjobs : ∀ i, (s'.table.jobs i).used = true → (s.table.jobs i).used = true ∧
      (s'.table.jobs i).recorded = (s.table.jobs i).recorded)
    (hpc : ∀ f, s'.pc = .launch f → f.i = 0 ∨ s.pc = .launch f) : Ordered s' := by
  refine h.of ?_ ?_ hjobs fun f hf => (hpc f hf).imp_right fun hold => ⟨hold, ?_⟩
  · rw [alive, hchildren]
    exact h.distinct
  · rw [hchildren]
    exact fun c hc => ⟨⟨c, hc, rfl⟩, h.coherent c hc⟩
  · rw [hchildren]
    exact fun c hc _ => hc

theorem Ordered.change {s s' : Shell} {pid : Pid} {status : Status} (h : Ordered s)
    (hstep : s.step (.change pid status) = some s') : Ordered s' := by
  obtain ⟨c, c', hfind, hchange, rfl⟩ := step_change hstep
  obtain ⟨hpid, -, hstate, hreport⟩ := change_spec hchange
  have hc : c ∈ s.children := List.mem_of_find?_eq_some hfind
  have hcpid : c.pid = pid := by simpa using List.find?_some hfind
  refine h.of ?_ ?_ (fun i hi => ⟨hi, rfl⟩) fun f hf => .inr ⟨hf, ?_⟩
  · have hsame : (s.children.map fun d => if d.pid = pid then c' else d).map
        (fun d => (d.pid : Int)) = s.alive := by
      rw [List.map_map]
      refine List.map_congr_left fun d _ => ?_
      by_cases hd : d.pid = pid <;> simp [hd, hpid, hcpid]
    rw [alive, hsame]
    exact h.distinct
  · intro d' hd'
    obtain ⟨d, hd, rfl⟩ := List.mem_map.mp hd'
    split
    · refine ⟨⟨c, hc, hpid.symm⟩, fun st hst => ?_⟩
      rw [hreport] at hst
      cases hst
      exact ProcState.change_leaves hstate
    · exact ⟨⟨d, hd, rfl⟩, h.coherent d hd⟩
  · intro d' hd' hnone
    obtain ⟨d, hd, rfl⟩ := List.mem_map.mp hd'
    split
    · rw [if_pos ‹_›, hreport] at hnone
      cases hnone
    · exact hd

theorem Ordered.reap {s s' : Shell} {pid : Pid} (hs : Consistent s) (h : Ordered s)
    (hstep : s.step (.reap pid) = some s') : Ordered s' := by
  obtain ⟨hin, status, hreport, rfl⟩ := step_reap hstep
  refine h.of ?_ ?_ (s.table.sigchldBody_records pid status) fun f hf =>
    absurd hf (hs.not_launch hin f)
  · simp only [alive]
    split
    · exact h.distinct.sublist (List.filter_sublist.map _)
    · have hsame : (s.children.map fun d =>
          if d.pid = pid then { d with report := none } else d).map
          (fun d => (d.pid : Int)) = s.alive := by
        rw [List.map_map]
        refine List.map_congr_left fun d _ => ?_
        by_cases hd : d.pid = pid <;> simp [hd]
      rw [hsame]
      exact h.distinct
  · intro d' hd'
    dsimp only at hd'
    split at hd'
    · have hd := (List.mem_filter.mp hd').1
      exact ⟨⟨d', hd, rfl⟩, h.coherent d' hd⟩
    · obtain ⟨d, hd, rfl⟩ := List.mem_map.mp hd'
      split
      · exact ⟨⟨d, hd, rfl⟩, fun _ h => by cases h⟩
      · exact ⟨⟨d, hd, rfl⟩, h.coherent d hd⟩

theorem Ordered.forkFails {s s' : Shell} {f : LaunchFrame} {fds : FdTable} {fd : Int × Int}
    (h : Ordered s) (hpc : s.pc = .launch f) (htable : s'.table = s.table)
    (hchildren : s'.children = s.children)
    (hpc' : s'.pc = .launch (afterFork fds f fd (-1)).2) : Ordered s' := by
  have hrecords : ∀ i c, s'.Records i c ↔ s.Records i c := fun i c => by simp only [Records, htable]
  refine ⟨?_, ?_, ?_, fun f' hf' c hc hstored => ?_⟩
  · rw [alive, hchildren]
    exact h.distinct
  · rw [hchildren]
    exact h.coherent
  · simp only [hchildren, hrecords]
    exact h.single
  · cases hpc'.symm.trans hf'
    rw [hchildren] at hc
    rw [LaunchFrame.stored_afterFork, List.mem_append, List.mem_singleton] at hstored
    simp only [hrecords]
    refine h.fresh f hpc c hc (hstored.resolve_right fun hneg => ?_)
    have := c.pid.2
    omega

theorem Ordered.forks {s s' : Shell} {f : LaunchFrame} {pid : Pid} {fds : FdTable}
    {fd : Int × Int} {g : Int} (h : Ordered s) (hpc : s.pc = .launch f)
    (hfresh : s.freshPid pid = true) (hunrecorded : s.table.findJobByPid pid = none)
    (htable : s'.table = s.table)
    (hchildren : s'.children = s.children ++ [{ pid := pid, pgrp := g }])
    (hpc' : s'.pc = .launch (afterFork fds f fd pid).2) : Ordered s' := by
  have hrecords : ∀ i c, s'.Records i c ↔ s.Records i c := fun i c => by simp only [Records, htable]
  have hnone : ∀ i c, c.pid = pid → ¬s.Records i c := fun i c hcpid hi =>
    JobTable.findJobByPid_eq_none.mp hunrecorded i hi.1 (hcpid ▸ hi.2)
  obtain ⟨hnew, -⟩ := freshPid_spec hfresh
  refine ⟨?_, fun c hc => ?_, fun c hc i j => ?_, fun f' hf' c hc hstored => ?_⟩
  · rw [alive, hchildren, List.map_append, List.map_singleton]
    exact nodup_snoc h.distinct hnew
  all_goals rw [hchildren, List.mem_append, List.mem_singleton] at hc
  · obtain hc | rfl := hc
    · exact h.coherent c hc
    · exact fun _ h => by cases h
  · simp only [hrecords]
    obtain hc | rfl := hc
    · exact h.single c hc i j
    · exact fun hi => absurd hi (hnone i _ rfl)
  · cases hpc'.symm.trans hf'
    simp only [hrecords]
    obtain hc | rfl := hc
    · rw [LaunchFrame.stored_afterFork, List.mem_append, List.mem_singleton] at hstored
      refine h.fresh f hpc c hc (hstored.resolve_right fun hcpid => ?_)
      exact hnew (List.mem_map.mpr ⟨c, hc, hcpid⟩)
    · exact ⟨fun i => hnone i _ rfl, fun _ => rfl⟩

/-- The new job records children that no job has recorded. -/
theorem Ordered.add {s : Shell} {f : LaunchFrame} {fds : FdTable} {state : JobState} {pc : Pc}
    (h : Ordered s) (hpc : s.pc = .launch f) (hend : f.nseg ≤ f.i)
    (hpc' : ∀ f, pc ≠ .launch f) :
    Ordered { s with
      table := (s.table.addJob f.pgid f.pids f.nseg state f.cmdline).2, fds := fds, pc := pc } := by
  obtain ⟨-, hadd⟩ | ⟨i, t', hunused, hadd, -, hother, hnew⟩ :=
    s.table.addJob_cases f.pgid f.pids f.nseg state f.cmdline
  · rw [hadd]
    exact h.frame rfl (fun i hi => ⟨hi, rfl⟩) fun f hf => absurd hf (hpc' f)
  rw [hadd]
  have hstored : ∀ p ∈ (t'.jobs i).recorded, p ∈ f.stored := by
    intro p hp
    rw [hnew, Job.recorded] at hp
    obtain ⟨k, hk, rfl⟩ := List.mem_map.mp (List.mem_of_mem_take hp)
    exact List.mem_map.mpr ⟨k, List.mem_range.mpr (by have := List.mem_range.mp hk; omega), rfl⟩
  refine ⟨h.distinct, h.coherent, fun c hc j k hj hk => ?_, fun f' hf' => absurd hf' (hpc' f')⟩
  simp only [Records, JobTable.jobs_updateFgPgid] at hj hk
  -- a child of the launch is in no other job
  have hold : ∀ l, l ≠ i → (t'.jobs l).used = true ∧ (c.pid : Int) ∈ (t'.jobs l).recorded →
      s.Records l c := fun l hl hrec => by rwa [hother l hl] at hrec
  have hlaunched : (c.pid : Int) ∈ (t'.jobs i).recorded → ∀ l, ¬s.Records l c := fun hrec =>
    (h.fresh f hpc c hc (hstored _ hrec)).1
  by_cases hji : j = i <;> by_cases hki : k = i
  · exact hji.trans hki.symm
  · subst hji
    exact absurd (hold k hki hk) (hlaunched hj.2 k)
  · subst hki
    exact absurd (hold j hji hj) (hlaunched hk.2 j)
  · exact h.single c hc j k (hold j hji hj) (hold k hki hk)

end Shell

/-! ### What holds of the states -/

theorem Shell.Unlock.resumes_eq {pc pc' : Pc} (h : Unlock pc pc') :
    pc'.resumes = pc.resumes := by
  cases h <;> rfl

namespace Posted

open Shell

theorem mem_members {t : Posted} {i : Slot} {c : Child} :
    c ∈ t.members i ↔
      c ∈ t.shell.children ∧ (c.pid : Int) ∈ (t.shell.table.jobs i).recorded := by
  simp [members]

theorem rests_iff {t : Posted} {c : Child} :
    t.rests c = true ↔ c.state = .stopped ∧ c.report = none ∧ c.pid ∉ t.inFlight := by
  simp [rests, and_assoc]

theorem rests_mono {t t' : Posted} (h : ∀ p ∈ t.inFlight, p ∈ t'.inFlight) {c : Child}
    (hc : t'.rests c = true) : t.rests c = true := by
  obtain ⟨hstopped, hnone, hout⟩ := rests_iff.mp hc
  exact rests_iff.mpr ⟨hstopped, hnone, fun hin => hout (h _ hin)⟩

/-- A stopped job has a process that is stopped or has something to report; and a process
that rests makes its job a stopped one, unless `fg` or `bg` is about to resume it. -/
structure Right (t : Posted) : Prop where
  noted : ∀ i, (t.shell.table.jobs i).used = true → (t.shell.table.jobs i).state = .stopped →
    ∃ c ∈ t.members i, c.state = .stopped ∨ c.report ≠ none
  shown : ∀ i, (t.shell.table.jobs i).used = true → t.shell.pc.resumes ≠ some i →
    ∀ c ∈ t.members i, t.rests c = true → (t.shell.table.jobs i).state = .stopped

theorem Right.init : Right {} where
  noted _ h := absurd h Bool.noConfusion
  shown _ h := absurd h Bool.noConfusion

/-- At a quiescent point the invariant is the claim about the states. -/
theorem Right.faithful {t : Posted} (h : Right t) (hq : t.Quiescent) : t.Faithful := by
  intro i hi
  constructor
  · intro hstate
    obtain ⟨c, hc, hstopped | hreport⟩ := h.noted i hi hstate
    · exact ⟨c, hc, hstopped⟩
    · exact absurd (hq.reaped c (mem_members.mp hc).1) hreport
  · rintro ⟨c, hc, hstopped⟩
    refine h.shown i hi (by simp [hq.sent]) c hc (rests_iff.mpr ⟨hstopped, ?_, ?_⟩)
    · exact hq.reaped c (mem_members.mp hc).1
    · simp [hq.arrived]

/-- A step that changes no child and the state of no job. -/
theorem Right.frame {t t' : Posted} (h : Right t)
    (hchildren : t'.shell.children = t.shell.children)
    (hjobs : ∀ i, (t'.shell.table.jobs i).used = true → (t.shell.table.jobs i).used = true ∧
      (t'.shell.table.jobs i).recorded = (t.shell.table.jobs i).recorded ∧
      (t'.shell.table.jobs i).state = (t.shell.table.jobs i).state)
    (hflight : ∀ p ∈ t.inFlight, p ∈ t'.inFlight)
    (hpc : ∀ i, (t.shell.table.jobs i).used = true → t.shell.pc.resumes = some i →
      t'.shell.pc.resumes = some i ∨ (t.shell.table.jobs i).state = .stopped ∨
        ∀ c ∈ t.members i, t.rests c = true → c.pid ∈ t'.inFlight) : Right t' := by
  have hmembers : ∀ i, (t'.shell.table.jobs i).used = true → ∀ c, c ∈ t'.members i ↔
      c ∈ t.members i := by
    intro i hi c
    rw [mem_members, mem_members, hchildren, (hjobs i hi).2.1]
  refine ⟨fun i hi hstate => ?_, fun i hi hres c hc hrest => ?_⟩
  · obtain ⟨hused, -, hsame⟩ := hjobs i hi
    obtain ⟨c, hc, hor⟩ := h.noted i hused (hsame ▸ hstate)
    exact ⟨c, (hmembers i hi c).mpr hc, hor⟩
  · obtain ⟨hused, -, hsame⟩ := hjobs i hi
    rw [hsame]
    have hc := (hmembers i hi c).mp hc
    by_cases hold : t.shell.pc.resumes = some i
    · obtain hpc | hpc | hpc := hpc i hused hold
      · exact absurd hpc hres
      · exact hpc
      · exact absurd (hpc c hc (rests_mono hflight hrest)) (rests_iff.mp hrest).2.2
    · exact h.shown i hused hold c hc (rests_mono hflight hrest)

theorem Right.change {t : Posted} {s' : Shell} {pid : Pid} {status : Status} (h : Right t)
    (hstep : t.shell.step (.change pid status) = some s') :
    Right { shell := s', inFlight := t.inFlight.filter (· ≠ pid) } := by
  obtain ⟨c, c', hfind, hchange, rfl⟩ := step_change hstep
  obtain ⟨hpid, -, -, hreport⟩ := change_spec hchange
  have hcpid : c.pid = pid := by simpa using List.find?_some hfind
  refine ⟨fun i hi hstate => ?_, fun i hi hres d' hd' hrest => ?_⟩
  · obtain ⟨d, hd, hor⟩ := h.noted i hi hstate
    obtain ⟨hmem, hrec⟩ := mem_members.mp hd
    refine ⟨_, mem_members.mpr ⟨List.mem_map_of_mem hmem, ?_⟩, ?_⟩
    · split
      · rename_i hdpid
        rw [hpid, hcpid, ← hdpid]
        exact hrec
      · exact hrec
    · split
      · exact .inr (by simp [hreport])
      · exact hor
  · obtain ⟨hmem, hrec⟩ := mem_members.mp hd'
    obtain ⟨hstopped, hnone, hout⟩ := rests_iff.mp hrest
    obtain ⟨d, hd, rfl⟩ := List.mem_map.mp hmem
    by_cases hdpid : d.pid = pid
    · rw [if_pos hdpid, hreport] at hnone
      cases hnone
    · rw [if_neg hdpid] at hrec hstopped hnone hout
      refine h.shown i hi hres d (mem_members.mpr ⟨hd, hrec⟩) (rests_iff.mpr ⟨hstopped, hnone, ?_⟩)
      simpa [hdpid] using hout

/-- The child whose report `waitpid` returns, and the only one with its pid. -/
theorem reported {s : Shell} {pid : Pid} {status : Status} (h : Ordered s)
    (hreport : s.reportOf pid = some status) :
    ∃ c ∈ s.children, c.pid = pid ∧ c.report = some status ∧
      ∀ d ∈ s.children, d.pid = pid → d = c := by
  obtain ⟨c, hfind, hc⟩ := Option.bind_eq_some_iff.mp hreport
  have hmem := List.mem_of_find?_eq_some hfind
  have hcpid : c.pid = pid := by simpa using List.find?_some hfind
  refine ⟨c, hmem, hcpid, hc, fun d hd hdpid => ?_⟩
  exact List.inj_on_of_nodup_map h.distinct hd hmem (by rw [hdpid, hcpid])

/-- The report of `c` leaves the other children as they are, and `c` in the state it has
reported, unless it has ended. -/
structure Leaves (children children' : List Child) (c : Child) (status : Status) : Prop where
  state : c.state = status.leaves
  stay : ∀ d ∈ children, d.pid ≠ c.pid → d ∈ children'
  cleared : status.terminated = false → { c with report := none } ∈ children'
  source : ∀ d ∈ children', d ∈ children ∧ d.pid ≠ c.pid ∨ d.pid = c.pid ∧ d.state = status.leaves

theorem leaves_reap {s : Shell} {pid : Pid} {status : Status} (h : Ordered s)
    (hreport : s.reportOf pid = some status) :
    ∃ c ∈ s.children, c.pid = pid ∧ Leaves s.children
      (if status.terminated then s.children.filter fun c => c.pid ≠ pid
        else s.children.map fun c => if c.pid = pid then { c with report := none } else c)
      c status := by
  obtain ⟨c, hc, rfl, hcreport, hunique⟩ := reported h hreport
  have hcstate := h.coherent c hc status hcreport
  refine ⟨c, hc, rfl, hcstate, fun d hd hdpid => ?_, fun hterm => ?_, fun d' hd' => ?_⟩
  · split
    · exact List.mem_filter.mpr ⟨hd, by simpa using hdpid⟩
    · exact List.mem_map.mpr ⟨d, hd, by rw [if_neg hdpid]⟩
  · rw [hterm]
    exact List.mem_map.mpr ⟨c, hc, by rw [if_pos rfl]⟩
  · split at hd'
    · obtain ⟨hd, hne⟩ := List.mem_filter.mp hd'
      exact .inl ⟨hd, by simpa using hne⟩
    · obtain ⟨d, hd, rfl⟩ := List.mem_map.mp hd'
      by_cases hdpid : d.pid = c.pid
      · rw [if_pos hdpid]
        exact .inr ⟨hdpid, hunique d hd hdpid ▸ hcstate⟩
      · rw [if_neg hdpid]
        exact .inl ⟨hd, hdpid⟩

/-- A job that is not found has not recorded the child. -/
theorem notMem_recorded {s : Shell} {c : Child} {i : Slot} (h : Ordered s)
    (hc : c ∈ s.children) (hfind : s.table.findJobByPid c.pid ≠ some i)
    (hi : (s.table.jobs i).used = true) : (c.pid : Int) ∉ (s.table.jobs i).recorded := by
  intro hrec
  cases hk : s.table.findJobByPid c.pid with
  | none => exact JobTable.findJobByPid_eq_none.mp hk i hi hrec
  | some k =>
      have hki := h.single c hc k i (JobTable.findJobByPid_spec hk) ⟨hi, hrec⟩
      exact hfind (hki ▸ hk)

section Reap

variable {t : Posted} {c : Child} {status : Status} {children : List Child} {i : Slot}

/-- The job that is found for `c`, if it is a stopped one behind the report. -/
theorem noted_found (hleaves : Leaves t.shell.children children c status)
    (hfind : t.shell.table.findJobByPid c.pid = some i)
    (hkeeps : t.reapsRight i c.pid status = true)
    (hi : ((t.shell.table.sigchldBody c.pid status).jobs i).used = true)
    (hstate : ((t.shell.table.sigchldBody c.pid status).jobs i).state = .stopped) :
    ∃ d ∈ children, (d.pid : Int) ∈ (t.shell.table.jobs i).recorded ∧
      (d.state = .stopped ∨ d.report ≠ none) := by
  rw [JobTable.jobs_sigchldBody_found status hfind] at hi hstate
  cases status with
  | stopped =>
      exact ⟨_, hleaves.cleared rfl, (JobTable.findJobByPid_spec hfind).2, .inl hleaves.state⟩
  | continued =>
      dsimp only at hstate
      split at hstate
      · simp at hstate
      · exact absurd hstate ‹_›
  | exited | signaled =>
      dsimp only at hi hstate
      split at hi
      · simp at hi
      rename_i hlive
      rw [if_neg hlive] at hstate
      have hstate : (t.shell.table.jobs i).state = .stopped := hstate
      simp only [reapsRight, hstate, bne_self_eq_false, Bool.false_or, hlive, decide_false,
        List.any_eq_true, Bool.or_eq_true, beq_iff_eq, Option.isSome_iff_ne_none] at hkeeps
      obtain ⟨d, hd, hor⟩ := hkeeps
      obtain ⟨hd, hne⟩ := List.mem_filter.mp hd
      obtain ⟨hmem, hdrec⟩ := mem_members.mp hd
      exact ⟨d, hleaves.stay d hmem (by simpa using hne), hdrec, hor⟩

/-- The job that is found for `c`, if a process of it rests behind the report. Unless `c` has
stopped, that process rested before. -/
theorem Right.shown_found (h : Right t) (d : Child)
    (hfind : t.shell.table.findJobByPid c.pid = some i)
    (hkeeps : t.reapsRight i c.pid status = true)
    (hi : ((t.shell.table.sigchldBody c.pid status).jobs i).used = true)
    (hres : t.shell.pc.resumes ≠ some i)
    (hold : status ≠ .stopped → d ∈ t.members i ∧ d.pid ≠ c.pid ∧ t.rests d = true) :
    ((t.shell.table.sigchldBody c.pid status).jobs i).state = .stopped := by
  have hused := (t.shell.table.sigchldBody_records c.pid status i hi).1
  rw [JobTable.jobs_sigchldBody_found status hfind] at hi ⊢
  cases status with
  | stopped => rfl
  | continued =>
      obtain ⟨hmem, hne, hrest⟩ := hold (by decide)
      have hstate := h.shown i hused hres d hmem hrest
      simp only [reapsRight, hstate, bne_self_eq_false, Bool.false_or, Bool.or_eq_true,
        beq_iff_eq, hres, false_or, List.all_eq_true] at hkeeps
      have := hkeeps d (List.mem_filter.mpr ⟨hmem, by simpa using hne⟩)
      simp [hrest] at this
  | exited | signaled =>
      obtain ⟨hmem, -, hrest⟩ := hold (by decide)
      dsimp only at hi ⊢
      split at hi
      · simp at hi
      rw [if_neg ‹_›]
      exact h.shown i hused hres d hmem hrest

end Reap

theorem Right.reap {t : Posted} {s' : Shell} {pid : Pid} (h : Right t) (ho : Ordered t.shell)
    (hkeeps : t.keepsRight (.reap pid) = true) (hstep : t.shell.step (.reap pid) = some s') :
    Right { shell := s', inFlight := t.inFlight } := by
  obtain ⟨-, status, hreport, rfl⟩ := step_reap hstep
  obtain ⟨c, hc, rfl, hleaves⟩ := leaves_reap ho hreport
  simp only [keepsRight, hreport] at hkeeps
  refine ⟨fun i hi hstate => ?_, fun i hi hres d hd hrest => ?_⟩
  · obtain ⟨hused, hrecs⟩ := t.shell.table.sigchldBody_records c.pid status i hi
    simp only [mem_members, hrecs]
    by_cases hfind : t.shell.table.findJobByPid c.pid = some i
    · simp only [hfind] at hkeeps
      obtain ⟨d, hd, hrec, hor⟩ := noted_found hleaves hfind hkeeps hi hstate
      exact ⟨d, ⟨hd, hrec⟩, hor⟩
    · dsimp only at hstate
      rw [t.shell.table.jobs_sigchldBody_other status hfind] at hstate
      obtain ⟨d, hd, hor⟩ := h.noted i hused hstate
      obtain ⟨hmem, hrec⟩ := mem_members.mp hd
      have hne : d.pid ≠ c.pid := fun heq => notMem_recorded ho hc hfind hused (heq ▸ hrec)
      exact ⟨d, ⟨hleaves.stay d hmem hne, hrec⟩, hor⟩
  · obtain ⟨hused, hrecs⟩ := t.shell.table.sigchldBody_records c.pid status i hi
    obtain ⟨hd, hrec⟩ := mem_members.mp hd
    obtain ⟨hstopped, hnone, hout⟩ := rests_iff.mp hrest
    rw [hrecs] at hrec
    have hsource := hleaves.source d hd
    by_cases hfind : t.shell.table.findJobByPid c.pid = some i
    · simp only [hfind] at hkeeps
      refine h.shown_found d hfind hkeeps hi hres fun hst => ?_
      obtain ⟨hd, hne⟩ | ⟨-, hstate⟩ := hsource
      · exact ⟨mem_members.mpr ⟨hd, hrec⟩, hne, rests_iff.mpr ⟨hstopped, hnone, hout⟩⟩
      · rw [hstopped] at hstate
        cases status with
        | stopped => exact absurd rfl hst
        | continued | exited | signaled => cases hstate
    · dsimp only
      rw [t.shell.table.jobs_sigchldBody_other status hfind]
      obtain ⟨hd, -⟩ | ⟨hdpid, -⟩ := hsource
      · exact h.shown i hused hres d (mem_members.mpr ⟨hd, hrec⟩)
          (rests_iff.mpr ⟨hstopped, hnone, hout⟩)
      · exact absurd (hdpid ▸ hrec) (notMem_recorded ho hc hfind hused)

theorem Right.add {t : Posted} {f : LaunchFrame} {fds : FdTable} {state : JobState} {pc : Pc}
    {inFlight : List Pid} (h : Right t) (ho : Ordered t.shell) (hpc : t.shell.pc = .launch f)
    (hend : f.nseg ≤ f.i) (hstate : state ≠ .stopped) (hflight : ∀ p ∈ t.inFlight, p ∈ inFlight) :
    Right { shell := { t.shell with
              table := (t.shell.table.addJob f.pgid f.pids f.nseg state f.cmdline).2
              fds := fds
              pc := pc }
            inFlight := inFlight } := by
  have hres : ∀ i, t.shell.pc.resumes ≠ some i := fun i => by simp [hpc, Pc.resumes]
  obtain ⟨-, hadd⟩ | ⟨k, t', hunused, hadd, -, hother, hnew⟩ :=
    t.shell.table.addJob_cases f.pgid f.pids f.nseg state f.cmdline
  · rw [hadd]
    exact h.frame rfl (fun i hi => ⟨hi, rfl, rfl⟩) hflight fun i _ hi => absurd hi (hres i)
  rw [hadd]
  refine ⟨fun i hi hst => ?_, fun i hi _ c hc hrest => ?_⟩
  · simp only [JobTable.jobs_updateFgPgid] at hi hst
    by_cases hik : i = k
    · rw [hik, hnew] at hst
      exact absurd hst hstate
    · rw [hother i hik] at hi hst
      obtain ⟨c, hc, hor⟩ := h.noted i hi hst
      refine ⟨c, ?_, hor⟩
      rw [mem_members] at hc ⊢
      simp only [JobTable.jobs_updateFgPgid]
      rwa [hother i hik]
  · rw [mem_members] at hc
    simp only [JobTable.jobs_updateFgPgid] at hi hc ⊢
    by_cases hik : i = k
    · -- a child of the launch that has nothing to report is running
      have hstored : (c.pid : Int) ∈ f.stored := by
        have hrec := hc.2
        rw [hik, hnew, Job.recorded] at hrec
        obtain ⟨j, hj, hpid⟩ := List.mem_map.mp (List.mem_of_mem_take hrec)
        have hj := List.mem_range.mp hj
        exact List.mem_map.mpr ⟨j, List.mem_range.mpr (by omega), hpid⟩
      obtain ⟨hstopped, hnone, -⟩ := rests_iff.mp hrest
      rw [(ho.fresh f hpc c hc.1 hstored).2 hnone] at hstopped
      cases hstopped
    · rw [hother i hik] at hi hc ⊢
      exact h.shown i hi (hres i) c (mem_members.mpr hc) (rests_mono hflight hrest)

theorem Right.forks {t t' : Posted} {pid : Pid} {g : Int} (h : Right t)
    (hunrecorded : t.shell.table.findJobByPid pid = none)
    (htable : t'.shell.table = t.shell.table)
    (hchildren : t'.shell.children = t.shell.children ++ [{ pid := pid, pgrp := g }])
    (hflight : ∀ p ∈ t.inFlight, p ∈ t'.inFlight) (hres : t.shell.pc.resumes = none) :
    Right t' := by
  refine ⟨fun i hi hstate => ?_, fun i hi _ c hc hrest => ?_⟩
  · rw [htable] at hi hstate
    obtain ⟨c, hc, hor⟩ := h.noted i hi hstate
    obtain ⟨hmem, hrec⟩ := mem_members.mp hc
    refine ⟨c, mem_members.mpr ⟨?_, htable ▸ hrec⟩, hor⟩
    rw [hchildren]
    exact List.mem_append_left _ hmem
  · rw [htable] at hi ⊢
    rw [mem_members, hchildren, htable, List.mem_append, List.mem_singleton] at hc
    obtain ⟨hc | rfl, hrec⟩ := hc
    · exact h.shown i hi (by simp [hres]) c (mem_members.mpr ⟨hc, hrec⟩) (rests_mono hflight hrest)
    · exact absurd hrec (JobTable.findJobByPid_eq_none.mp hunrecorded i hi)

/-- `fg` or `bg` finds a job: its state is right again once its SIGCONT has come. -/
theorem Right.found {t : Posted} {i : Slot} {state : JobState} {pc : Pc} {g : Int}
    {inFlight : List Pid} (h : Right t) (hstate : state ≠ .stopped)
    (hres : t.shell.pc.resumes = none) (hres' : pc.resumes = some i)
    (hflight : ∀ p ∈ t.inFlight, p ∈ inFlight) :
    Right { shell := { t.shell with
              table := (t.shell.table.setState i state).updateFgPgid, found := g, pc := pc }
            inFlight := inFlight } := by
  have hother : ∀ j, j ≠ i →
      ((t.shell.table.setState i state).updateFgPgid).jobs j = t.shell.table.jobs j := by
    intro j hj
    simp [hj]
  refine ⟨fun j hj hst => ?_, fun j hj hne c hc hrest => ?_⟩
  · have hji : j ≠ i := by
      rintro rfl
      simp only [JobTable.jobs_updateFgPgid, JobTable.jobs_setState, if_true] at hst
      exact hstate hst
    simp only [hother j hji] at hj hst
    obtain ⟨c, hc, hor⟩ := h.noted j hj hst
    refine ⟨c, ?_, hor⟩
    rw [mem_members] at hc ⊢
    simp only [hother j hji]
    exact hc
  · have hji : j ≠ i := by
      rintro rfl
      exact hne hres'
    rw [mem_members] at hc
    simp only [hother j hji] at hj hc ⊢
    exact h.shown j hj (by simp [hres]) c (mem_members.mpr hc) (rests_mono hflight hrest)

/-! ### Every step -/

theorem Ordered.step {t t' : Posted} {l : Label} (hs : Consistent t.shell)
    (h : Ordered t.shell) (hkeeps : t.keepsRight l = true) (hstep : t.step l = some t') :
    Ordered t'.shell := by
  obtain ⟨s', hs', rfl⟩ := Option.map_eq_some_iff.mp hstep
  dsimp only
  cases step_transition hs' with
  | read line stack hrun hpc =>
      have hzero : ∀ f, (eval line).pc stack = .launch f → f.i = 0 := by
        intro f hf
        obtain ⟨_, _, _, _, rfl⟩ := Action.of_pc_launch hf
        rfl
      obtain ⟨hstart, -⟩ | ⟨hstart, -⟩ := start_eq t.shell stack (eval line) hpc <;>
        exact hstart ▸ h.frame rfl (fun i hi => ⟨hi, rfl⟩) fun f hf => .inl (hzero f hf)
  | goto l pc hrun hgoto =>
      exact h.frame rfl (fun i hi => ⟨hi, rfl⟩) fun f hf =>
        absurd hf (hs.goto_not_launch hgoto f).2
  | unlock pc hrun hunlock =>
      exact h.frame rfl (fun i hi => ⟨hi, rfl⟩) fun f hf => absurd hf (hunlock.not_launch f).2
  | add f fds hrun hpc hend => exact h.add hpc hend fun _ hf => by cases hf
  | bgFound jid i hrun hpc hfind | fgFound jid i hrun hpc hfind =>
      refine h.frame rfl (fun j hj => ?_) fun _ hf => by cases hf
      by_cases hji : j = i <;> simp_all [Job.recorded]
  | killFound jid i hrun hpc hfind => exact h.frame rfl (fun i hi => ⟨hi, rfl⟩) fun _ hf => by cases hf
  | pipeFails f hrun hpc => exact h.frame rfl (fun i hi => ⟨hi, rfl⟩) fun _ hf => by cases hf
  | forkFails f fds fds' fd hrun hpc hi => exact h.forkFails hpc rfl rfl rfl
  | forks pid f fds fds' fd hrun hpc hi hfresh =>
      exact h.forks hpc hfresh (by simpa [keepsRight] using hkeeps) rfl rfl rfl
  | change pid status children hpids => exact h.change hs'
  | deliver hrun hopen => exact h.frame rfl (fun i hi => ⟨hi, rfl⟩) fun f hf => .inr hf
  | reap pid status children hin hreport hpids => exact h.reap hs hs'
  | handlerReturns pc hin hpc =>
      refine h.frame rfl (fun i hi => ⟨hi, rfl⟩) fun f hf => ?_
      obtain ⟨rfl, -⟩ | ⟨g, hsuspended, rfl⟩ := hpc
      · exact .inr hf
      · cases hf
  | keyboard => exact h

theorem reachesAll_iff {t : Posted} {i : Slot} {reached : Child → Bool}
    (hi : (t.shell.table.jobs i).used = true) : t.reachesAll i reached = true ↔
      (t.shell.table.jobs i).state = .stopped ∨
        ∀ c ∈ t.members i, t.rests c = true → reached c = true := by
  simp [reachesAll, hi, ← Bool.not_eq_true, imp_iff_not_or]

/-- The call of `kill` in `fg` or `bg` for slot `i` ends its concern with that slot. -/
theorem Right.sent {t : Posted} {i : Slot} {pc : Pc} {inFlight : List Pid}
    {reached : Child → Bool} (h : Right t) (hpc : t.shell.pc.resumes = some i)
    (hkeeps : t.reachesAll i reached = true) (hflight : ∀ p ∈ t.inFlight, p ∈ inFlight)
    (hreached : ∀ c ∈ t.shell.children, t.rests c = true → reached c = true →
      c.pid ∈ inFlight) :
    Right { shell := { t.shell with pc := pc }, inFlight := inFlight } := by
  refine h.frame rfl (fun j hj => ⟨hj, rfl, rfl⟩) hflight fun j hj hres => .inr ?_
  obtain rfl : i = j := Option.some.inj (hpc.symm.trans hres)
  refine ((reachesAll_iff hj).mp hkeeps).imp_right fun hall c hc hrest => ?_
  exact hreached c (mem_members.mp hc).1 hrest (hall c hc hrest)

theorem mem_continues {s : Shell} {g : Int} {c : Child}
    (hpc : ∃ i, s.pc = .bgSignal i g ∨ s.pc = .fgSignal i g) (hc : c ∈ s.children)
    (hgrp : c.pgrp = g) (hstopped : c.state = .stopped) :
    c.pid ∈ s.continues .killSucceeds := by
  have hmem : c.pid ∈ (s.children.filter fun c => c.pgrp = g ∧ c.state = .stopped).map Child.pid :=
    List.mem_map_of_mem (List.mem_filter.mpr ⟨hc, by simp [hgrp, hstopped]⟩)
  obtain ⟨i, hpc | hpc⟩ := hpc <;> rw [Shell.continues, hpc] <;> exact hmem

theorem Right.step {t t' : Posted} {l : Label} (ho : Ordered t.shell) (h : Right t)
    (hkeeps : t.keepsRight l = true) (hstep : t.step l = some t') : Right t' := by
  obtain ⟨s', hs', rfl⟩ := Option.map_eq_some_iff.mp hstep
  have hflight : ∀ p ∈ t.inFlight, p ∈ t.inFlight ++ t.shell.continues l := fun p hp =>
    List.mem_append_left _ hp
  -- the steps of the main flow that do not call `kill`
  have hplain : ∀ {s : Shell} {inFlight : List Pid}, s.children = t.shell.children →
      s.table.jobs = t.shell.table.jobs → (∀ p ∈ t.inFlight, p ∈ inFlight) →
      (∀ i, t.shell.pc.resumes = some i → s.pc.resumes = some i) →
      Right { shell := s, inFlight := inFlight } := by
    intro s inFlight hchildren hjobs hin hpc
    refine h.frame hchildren (fun i hi => ?_) hin fun i _ hi => .inl (hpc i hi)
    dsimp only at hi ⊢
    rw [hjobs] at hi ⊢
    exact ⟨hi, rfl, rfl⟩
  cases step_transition hs' with
  | read line stack hrun hpc =>
      obtain ⟨hstart, -⟩ | ⟨hstart, -⟩ := start_eq t.shell stack (eval line) hpc <;>
        exact hstart ▸ hplain rfl rfl hflight (by simp [hpc, Pc.resumes])
  | goto l pc hrun hgoto =>
      cases hgoto with
      | bgSent i g hpc | fgSent i g hpc =>
          simp only [keepsRight, hpc] at hkeeps
          refine h.sent (by rw [hpc]; rfl) hkeeps hflight fun c hc hrest hgrp => ?_
          have hgrp : c.pgrp = g := by simpa using hgrp
          exact List.mem_append_right _
            (mem_continues ⟨i, by simp [hpc]⟩ hc hgrp (rests_iff.mp hrest).1)
      | bgFails i g hpc | fgFails i g hpc =>
          simp only [keepsRight, hpc] at hkeeps
          exact h.sent (by rw [hpc]; rfl) hkeeps hflight fun c hc hrest hgrp => by cases hgrp
      | _ => exact hplain rfl rfl hflight (by simp [*, Pc.resumes])
  | unlock pc hrun hunlock =>
      exact hplain rfl rfl hflight fun i hi => hunlock.resumes_eq.trans hi
  | add f fds hrun hpc hend =>
      refine h.add ho hpc hend ?_ hflight
      split <;> decide
  | bgFound jid i hrun hpc hfind | fgFound jid i hrun hpc hfind =>
      exact h.found (by decide) (by rw [hpc]; rfl) rfl hflight
  | killFound jid i hrun hpc hfind => exact hplain rfl rfl hflight (by simp [hpc, Pc.resumes])
  | pipeFails f hrun hpc => exact hplain rfl rfl hflight (by simp [hpc, Pc.resumes])
  | forkFails f fds fds' fd hrun hpc hi => exact hplain rfl rfl hflight (by simp [hpc, Pc.resumes])
  | forks pid f fds fds' fd hrun hpc hi hfresh =>
      exact h.forks (by simpa [keepsRight] using hkeeps) rfl rfl hflight (by rw [hpc]; rfl)
  | change pid status children hpids => exact h.change hs'
  | deliver hrun hopen => exact hplain rfl rfl hflight fun i hi => hi
  | reap pid status children hin hreport hpids =>
      have hreap := h.reap ho hkeeps hs'
      simpa only [Shell.continues, List.append_nil] using hreap
  | handlerReturns pc hin hpc =>
      refine hplain rfl rfl hflight fun i hi => ?_
      obtain ⟨rfl, -⟩ | ⟨g, hsuspended, rfl⟩ := hpc
      · exact hi
      · simp [hsuspended, Pc.resumes] at hi
  | keyboard => exact hplain rfl rfl hflight fun i hi => hi

/-- A job is stopped exactly when one of its processes is, at every quiescent point of a
run in which every reap leaves the state right, `fg` and `bg` reach every stopped
process of their job, and no recorded pid is handed out again. -/
theorem stopped_faithful {t : Posted}
    (h : Reachable Posted.step (fun t l => t.keepsRight l = true) {} t) (hq : t.Quiescent) :
    t.Faithful := by
  have hinv : Consistent t.shell ∧ Ordered t.shell ∧ Right t := by
    refine h.invariant (I := fun t => Consistent t.shell ∧ Ordered t.shell ∧ Right t)
      ⟨.init, .init, .init⟩ ?_
    intro t l t' ⟨hs, ho, hr⟩ hkeeps hstep
    obtain ⟨s', hs', rfl⟩ := Option.map_eq_some_iff.mp hstep
    exact ⟨hs.step (step_transition hs'), Ordered.step hs ho hkeeps hstep,
      hr.step ho hkeeps hstep⟩
  exact hinv.2.2.faithful hq

/-- A pipeline both processes of which stop. -/
def bothStop : List Label :=
  [.readLine "a | b &\n".toList fun _ => 0, .forks 100, .forks 101,
    .proceed, .proceed, .proceed, .change 100 .stopped,
    .change 101 .stopped, .deliver, .reap 100,
    .reap 101, .handlerReturns]

/-- `bg` continues both. -/
def bothContinue : List Label :=
  [.readLine "bg %1\n".toList fun _ => 0, .proceed, .proceed, .proceed, .killSucceeds, .proceed,
    .change 100 .continued, .change 101 .continued, .deliver,
    .reap 101, .reap 100, .handlerReturns]

theorem stopped_faithful_bg :
    ((exec (restrict Posted.step fun t l => t.keepsRight l = true)
      (bothStop ++ bothContinue) {}).get (by decide +kernel)).Faithful :=
  stopped_faithful (.of_exec (Option.some_get _).symm)
    ⟨by decide +kernel, by decide +kernel, by decide +kernel, by decide +kernel⟩

/-- One of the two is continued from outside: the job is no longer a stopped one, and the
other process is still stopped. -/
theorem stopped_not_faithful : ¬ ∀ t, Reachable Posted.step anyStep {} t → t.Quiescent →
    t.Faithful := by
  intro h
  have hrun : ((exec (restrict Posted.step anyStep) (bothStop ++
      [.change 100 .continued, .deliver, .reap 100, .handlerReturns])
      {}).map fun t => (decide (t.shell.inHandler = false ∧
        (∀ c ∈ t.shell.children, c.report = none) ∧ t.inFlight = [] ∧ t.shell.pc.resumes = none),
        (t.shell.table.jobs 0).used, (t.shell.table.jobs 0).state,
        (t.members 0).any fun c => c.state = .stopped)) =
      some (true, true, .background, true) := by decide +kernel
  obtain ⟨t, ht, hview⟩ := Option.map_eq_some_iff.mp hrun
  simp only [Prod.mk.injEq, decide_eq_true_eq] at hview
  obtain ⟨⟨hhandler, hreaped, harrived, hsent⟩, hused, hstate, hany⟩ := hview
  obtain ⟨c, hc, hstopped⟩ := List.any_eq_true.mp hany
  have hiff := h t (.of_exec ht) ⟨hhandler, hreaped, harrived, hsent⟩ 0 hused
  rw [hstate] at hiff
  exact absurd (hiff.mpr ⟨c, hc, by simpa using hstopped⟩) (by decide)

end Posted

end SystemProgramming.MyShell
