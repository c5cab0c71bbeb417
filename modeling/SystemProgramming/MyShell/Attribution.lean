import SystemProgramming.MyShell.Accounting

/-!
Which job the handler charges a status to. The pids of processes that have ended
stay in the array of their job, and `find_job_by_pid` takes the first slot whose
array has the pid: a pid handed out again leads it to the wrong job.

A process belongs to the job whose `pgid` is its process group. The two places that
say so, the group in the kernel and the array in the table, agree as long as every
`fork` of a job succeeds and no recorded pid comes back.
-/

namespace SystemProgramming.MyShell

open SystemProgramming.CLib SystemProgramming.Library

namespace Shell

/-! ### The invariant -/

/-- What `fork` returned to the launch that is under way. -/
def inLaunch (s : Shell) : List Int :=
  match s.pc with
  | .launch f => f.stored
  | _ => []

/-- The shell without the children of the launch that is under way. -/
def settled (s : Shell) : Shell :=
  { s with pc := .prompt, children := s.children.filter fun c => (c.pid : Int) ∉ s.inLaunch }

/-- The children of a launch before its job is added. -/
structure Launching (s : Shell) (f : LaunchFrame) : Prop where
  distinct : (f.stored.filter (· ≠ -1)).Nodup
  stored : ∀ p ∈ f.stored, p = -1 ∨ p ∈ s.alive ∧
    ∀ i, (s.table.jobs i).used = true → p ∉ (s.table.jobs i).recorded
  leader : 0 < f.i → f.pgid = f.pids 0
  group : 0 < f.pgid → ∀ c ∈ s.children, (c.pid : Int) ∈ f.stored ↔ c.pgrp = f.pgid

/-- The table and the kernel agree on whom a process belongs to. -/
structure Attributed (s : Shell) : Prop where
  distinct : s.alive.Nodup
  books : Accounted s.settled
  positive : ∀ i, (s.table.jobs i).used = true → 0 < (s.table.jobs i).pgid
  owns : ∀ c ∈ s.children, ∀ i, (s.table.jobs i).used = true →
    ((c.pid : Int) ∈ (s.table.jobs i).recorded ↔ c.pgrp = (s.table.jobs i).pgid)
  launching : ∀ f, s.pc = .launch f → Launching s f

theorem settled_alive (s : Shell) : s.settled.alive = s.alive.filter (· ∉ s.inLaunch) := by
  simp only [alive, settled, List.filter_map, Function.comp_def]

theorem inLaunch_of_launch {s : Shell} {f : LaunchFrame} (h : s.pc = .launch f) :
    s.inLaunch = f.stored := by
  simp only [inLaunch, h]

theorem inLaunch_of_not {s : Shell} (h : ∀ f, s.pc ≠ .launch f) : s.inLaunch = [] := by
  unfold inLaunch
  split
  · exact absurd ‹_› (h _)
  · rfl

/-- The books of two shells with the same jobs, and the same children behind them. -/
theorem Accounted.of_settled {s s' : Shell} (h : Accounted s.settled)
    (hjobs : ∀ i, (s'.table.jobs i).used = (s.table.jobs i).used ∧
      (s'.table.jobs i).recorded = (s.table.jobs i).recorded ∧
      (s'.table.jobs i).liveCount = (s.table.jobs i).liveCount)
    (halive : s'.settled.alive = s.settled.alive) : Accounted s'.settled :=
  h.frame hjobs halive nofun nofun

/-- Outside a launch all children are settled. -/
theorem Attributed.accounted {s : Shell} (h : Attributed s) (hpc : ∀ f, s.pc ≠ .launch f) :
    Accounted s := by
  refine h.books.frame (fun i => ⟨rfl, rfl, rfl⟩) ?_ nofun fun f hf => absurd hf (hpc f)
  rw [settled_alive, inLaunch_of_not hpc]
  simp

theorem Attributed.init : Attributed {} where
  distinct := .nil
  books := Accounted.init
  positive _ h := absurd h Bool.noConfusion
  owns := nofun
  launching := nofun

/-- A step that moves no pid and no group. -/
theorem Attributed.frame {s s' : Shell} (h : Attributed s)
    (hjobs : ∀ i, (s'.table.jobs i).used = (s.table.jobs i).used ∧
      (s'.table.jobs i).recorded = (s.table.jobs i).recorded ∧
      (s'.table.jobs i).liveCount = (s.table.jobs i).liveCount)
    (hpgid : ∀ i, (s'.table.jobs i).pgid = (s.table.jobs i).pgid)
    (halive : s'.alive = s.alive)
    (hkept : ∀ c' ∈ s'.children, ∃ c ∈ s.children, c.pid = c'.pid ∧ c.pgrp = c'.pgrp)
    (hpc : ∀ f, s.pc = .launch f → s'.pc = .launch f)
    (hpc' : ∀ f, s'.pc = .launch f → s.pc = .launch f ∨ f.i = 0 ∧ f.pgid = 0) :
    Attributed s' := by
  have hlaunch : s'.inLaunch = s.inLaunch := by
    by_cases hs' : ∃ f, s'.pc = .launch f
    · obtain ⟨f, hf⟩ := hs'
      obtain hold | ⟨hzero, -⟩ := hpc' f hf
      · rw [inLaunch_of_launch hf, inLaunch_of_launch hold]
      -- a launch that begins has stored nothing
      · by_cases hs : ∃ g, s.pc = .launch g
        · obtain ⟨g, hg⟩ := hs
          have hsame := hf.symm.trans (hpc g hg)
          cases hsame
          rw [inLaunch_of_launch hf, inLaunch_of_launch hg]
        · rw [inLaunch_of_launch hf, inLaunch_of_not fun g hg => hs ⟨g, hg⟩]
          simp [LaunchFrame.stored, hzero]
    · rw [inLaunch_of_not fun f hf => hs' ⟨f, hf⟩, inLaunch_of_not fun f hf => hs' ⟨f, hpc f hf⟩]
  refine ⟨halive ▸ h.distinct, h.books.of_settled hjobs ?_, fun i hi => ?_, fun c' hc' i hi => ?_,
    fun f hf => ?_⟩
  · rw [settled_alive, settled_alive, halive, hlaunch]
  · rw [hpgid]
    exact h.positive i ((hjobs i).1 ▸ hi)
  · obtain ⟨c, hc, hpid, hgrp⟩ := hkept c' hc'
    rw [(hjobs i).2.1, hpgid, ← hpid, ← hgrp]
    exact h.owns c hc i ((hjobs i).1 ▸ hi)
  · obtain hold | ⟨hzero, hnone⟩ := hpc' f hf
    · obtain ⟨hnodup, hstored, hleader, hgroup⟩ := h.launching f hold
      refine ⟨hnodup, fun p hp => ?_, hleader, fun hpos c' hc' => ?_⟩
      · refine (hstored p hp).imp_right fun h => ⟨halive ▸ h.1, fun i hi => ?_⟩
        rw [(hjobs i).2.1]
        exact h.2 i ((hjobs i).1 ▸ hi)
      · obtain ⟨c, hc, hpid, hgrp⟩ := hkept c' hc'
        rw [← hpid, ← hgrp]
        exact hgroup hpos c hc
    · have hnil : f.stored = [] := by simp [LaunchFrame.stored, hzero]
      refine ⟨?_, ?_, by omega, by omega⟩ <;> simp [hnil]

/-! ### The launch -/

/-- The first pid stored is the group of the launch. -/
theorem leader_afterFork {f : LaunchFrame} (hproper : f.Proper)
    (hleader : 0 < f.i → f.pgid = f.pids 0) (fds : FdTable) (fd : Int × Int) (pid : Int) :
    (afterFork fds f fd pid).2.pgid = (afterFork fds f fd pid).2.pids 0 := by
  rw [afterFork_pgid, afterFork_pids]
  rcases Nat.eq_zero_or_pos f.i with hi | hi
  · rw [if_pos (hproper.first hi), hi, Function.update_self]
  · have hne : f.pgid ≠ 0 := by
      rcases hproper.later hi with h | h <;> omega
    rw [if_neg hne, Function.update_of_ne (by omega), hleader hi]

/-- A used job has a child that is settled. -/
theorem Attributed.member {s : Shell} (h : Attributed s) {i : Slot}
    (hi : (s.table.jobs i).used = true) :
    ∃ c ∈ s.children, (c.pid : Int) ∈ (s.table.jobs i).recorded ∧ (c.pid : Int) ∉ s.inLaunch ∧
      c.pgrp = (s.table.jobs i).pgid := by
  obtain ⟨-, hcount, hpos⟩ := h.books.counts i hi
  rw [hcount] at hpos
  have hlive : 0 < liveAmong s.settled.alive (s.table.jobs i).recorded := hpos
  obtain ⟨p, hrec, hp⟩ := List.countP_pos_iff.mp hlive
  rw [decide_eq_true_eq, settled_alive, List.mem_filter] at hp
  obtain ⟨c, hc, rfl⟩ := List.mem_map.mp hp.1
  exact ⟨c, hc, hrec, by simpa using hp.2, (h.owns c hc i hi).mp hrec⟩

theorem Attributed.forkFails {s : Shell} {f : LaunchFrame} {fds fds' : FdTable} {fd : Int × Int}
    (h : Attributed s) (hpc : s.pc = .launch f) (hproper : f.Proper) :
    Attributed { s with fds := fds', pc := .launch (afterFork fds f fd (-1)).2 } := by
  obtain ⟨hnodup, hstored, hleader, hgroup⟩ := h.launching f hpc
  have hchild : ∀ c : Child, (c.pid : Int) ≠ -1 := fun c => by
    have := c.pid.2
    omega
  refine ⟨h.distinct, h.books.of_settled (fun i => ⟨rfl, rfl, rfl⟩) ?_, h.positive, h.owns, ?_⟩
  · rw [settled_alive, settled_alive, inLaunch_of_launch hpc]
    simp only [inLaunch, LaunchFrame.stored_afterFork]
    refine List.filter_congr fun p hp => ?_
    obtain ⟨c, -, rfl⟩ := List.mem_map.mp hp
    simp [hchild c]
  · intro f' hf'
    cases hf'
    refine ⟨?_, fun p hp => ?_, fun _ => leader_afterFork hproper hleader fds fd (-1),
      fun hpos c hc => ?_⟩
    · rw [LaunchFrame.stored_afterFork, List.filter_append]
      simpa using hnodup
    · rw [LaunchFrame.stored_afterFork] at hp
      obtain hp | hp := List.mem_append.mp hp
      · exact hstored p hp
      · exact .inl (List.mem_singleton.mp hp)
    · rw [afterFork_pgid] at hpos ⊢
      rw [LaunchFrame.stored_afterFork]
      split at hpos
      · omega
      · rw [if_neg ‹_›]
        simpa [hchild c] using hgroup hpos c hc

theorem groupOf_afterFork (fds : FdTable) (f : LaunchFrame) (fd : Int × Int) (pid : Pid) :
    groupOf (afterFork fds f fd pid).2.pgid =
      if f.pgid = 0 then (pid : Int) else if 0 < f.pgid then f.pgid else 0 := by
  rw [afterFork_pgid, groupOf]
  split
  · exact if_pos pid.2
  · rfl

/-- The group of a new child is not that of a job. -/
theorem Attributed.group_ne {s : Shell} {f : LaunchFrame} {pid : Pid} {fds : FdTable}
    {fd : Int × Int} {i : Slot} (h : Attributed s) (hpc : s.pc = .launch f)
    (hfresh : s.freshPid pid = true) (hi : (s.table.jobs i).used = true) :
    groupOf (afterFork fds f fd pid).2.pgid ≠ (s.table.jobs i).pgid := by
  intro heq
  obtain ⟨-, -, -, hgroup⟩ := h.launching f hpc
  obtain ⟨d, hd, -, hsettled, hdgrp⟩ := h.member hi
  have hpgid := h.positive i hi
  rw [inLaunch_of_launch hpc] at hsettled
  rw [groupOf_afterFork] at heq
  split at heq
  · exact (freshPid_spec hfresh).2 d hd (hdgrp.trans heq.symm)
  split at heq
  · exact hsettled ((hgroup ‹_› d hd).mpr (hdgrp.trans heq.symm))
  · omega

/-- The children that were there are in the group of the launch as before. -/
theorem Attributed.group_afterFork {s : Shell} {f : LaunchFrame} {pid : Pid} {fds : FdTable}
    {fd : Int × Int} {c : Child} (h : Attributed s) (hpc : s.pc = .launch f)
    (hproper : f.Proper) (hfresh : s.freshPid pid = true) (hc : c ∈ s.children)
    (hpos : 0 < (afterFork fds f fd pid).2.pgid) :
    (c.pid : Int) ∈ f.stored ↔ c.pgrp = (afterFork fds f fd pid).2.pgid := by
  obtain ⟨-, -, -, hgroup⟩ := h.launching f hpc
  rw [afterFork_pgid] at hpos ⊢
  split
  · -- the launch is given its group now
    have hnil : f.stored = [] := by
      rcases Nat.eq_zero_or_pos f.i with hi | hi
      · simp [LaunchFrame.stored, hi]
      · rcases hproper.later hi with h | h <;> omega
    rw [hnil]
    exact iff_of_false List.not_mem_nil ((freshPid_spec hfresh).2 c hc)
  · rw [if_neg ‹_›] at hpos
    exact hgroup hpos c hc

theorem Attributed.forks {s s' : Shell} {f : LaunchFrame} {pid : Pid} {fds : FdTable}
    {fd : Int × Int} {child : Child} (h : Attributed s) (hpc : s.pc = .launch f)
    (hproper : f.Proper) (hfresh : s.freshPid pid = true)
    (hunrecorded : s.table.findJobByPid pid = none) (htable : s'.table = s.table)
    (hpc' : s'.pc = .launch (afterFork fds f fd pid).2)
    (hchildren : s'.children = s.children ++ [child]) (hpid : child.pid = pid)
    (hgrp : child.pgrp = groupOf (afterFork fds f fd pid).2.pgid) : Attributed s' := by
  obtain ⟨hnodup, hstored, hleader, -⟩ := h.launching f hpc
  obtain ⟨hnew, -⟩ := freshPid_spec hfresh
  have hnone := JobTable.findJobByPid_eq_none.mp hunrecorded
  have hpos := pid.2
  have hnotStored : (pid : Int) ∉ f.stored := fun hp => by
    obtain hneg | ⟨hmem, -⟩ := hstored _ hp
    · omega
    · exact hnew hmem
  have hother : ∀ c ∈ s.children, (c.pid : Int) ≠ pid := fun c hc hcpid =>
    hnew (List.mem_map.mpr ⟨c, hc, hcpid⟩)
  have halive : s'.alive = s.alive ++ [(pid : Int)] := by
    rw [alive, hchildren, List.map_append, List.map_singleton, hpid]
    rfl
  have hstored' : s'.inLaunch = f.stored ++ [(pid : Int)] := by
    rw [inLaunch_of_launch hpc', LaunchFrame.stored_afterFork]
  refine ⟨?_, h.books.of_settled (fun i => ?_) ?_, htable ▸ h.positive, fun c hc i hi => ?_,
    fun f' hf' => ?_⟩
  · rw [halive]
    exact nodup_snoc h.distinct hnew
  · rw [htable]
    exact ⟨rfl, rfl, rfl⟩
  · have hgone : [(pid : Int)].filter (· ∉ f.stored ++ [(pid : Int)]) = [] := by simp
    rw [settled_alive, settled_alive, hstored', inLaunch_of_launch hpc, halive, List.filter_append,
      hgone, List.append_nil]
    refine List.filter_congr fun p hp => ?_
    obtain ⟨c, hc, rfl⟩ := List.mem_map.mp hp
    simp [hother c hc]
  · rw [htable] at hi ⊢
    rw [hchildren] at hc
    obtain hc | hc := List.mem_append.mp hc
    · exact h.owns c hc i hi
    · obtain rfl := List.mem_singleton.mp hc
      rw [hpid]
      exact iff_of_false (hnone i hi) (hgrp ▸ h.group_ne hpc hfresh hi)
  · cases hpc'.symm.trans hf'
    have hne : (pid : Int) ≠ -1 := by omega
    refine ⟨?_, fun p hp => ?_, fun _ => leader_afterFork hproper hleader fds fd pid,
      fun hpos' c hc => ?_⟩
    · have hkept : [(pid : Int)].filter (· ≠ -1) = [(pid : Int)] := by simp [hne]
      rw [LaunchFrame.stored_afterFork, List.filter_append, hkept]
      exact nodup_snoc hnodup fun hp => hnotStored (List.mem_filter.mp hp).1
    · rw [halive, htable]
      rw [LaunchFrame.stored_afterFork] at hp
      obtain hp | hp := List.mem_append.mp hp
      · exact (hstored p hp).imp_right fun h => ⟨List.mem_append_left _ h.1, h.2⟩
      · rw [List.mem_singleton.mp hp]
        exact .inr ⟨by simp, hnone⟩
    · rw [LaunchFrame.stored_afterFork, List.mem_append, List.mem_singleton]
      rw [hchildren] at hc
      obtain hc | hc := List.mem_append.mp hc
      · rw [or_iff_left (hother c hc)]
        exact h.group_afterFork hpc hproper hfresh hc hpos'
      · obtain rfl := List.mem_singleton.mp hc
        refine iff_of_true (.inr (by rw [hpid])) ?_
        rw [hgrp, groupOf, if_pos hpos']

/-- A launch that ends without a job has left no child. -/
theorem Attributed.drop {s s' : Shell} {f : LaunchFrame} (h : Attributed s)
    (hpc : s.pc = .launch f) (hnone : ∀ p ∈ f.stored, p = -1) (htable : s'.table = s.table)
    (hchildren : s'.children = s.children) (hpc' : ∀ f, s'.pc ≠ .launch f) : Attributed s' := by
  have halive : s'.alive = s.alive := congrArg (List.map fun c : Child => (c.pid : Int)) hchildren
  refine ⟨halive ▸ h.distinct, h.books.of_settled (fun i => ?_) ?_, htable ▸ h.positive, ?_,
    fun f hf => absurd hf (hpc' f)⟩
  · rw [htable]
    exact ⟨rfl, rfl, rfl⟩
  · rw [settled_alive, settled_alive, halive, inLaunch_of_launch hpc, inLaunch_of_not hpc']
    refine List.filter_congr fun p hp => ?_
    obtain ⟨c, -, rfl⟩ := List.mem_map.mp hp
    have hstored : (c.pid : Int) ∉ f.stored := fun hmem => by
      have := hnone _ hmem
      have := c.pid.2
      omega
    simp [hstored]
  · rw [htable, hchildren]
    exact h.owns

/-- Without a failed `fork` the children of the launch can be entered into the books. -/
theorem Attributed.enlisted {s : Shell} {f : LaunchFrame} (h : Attributed s)
    (hpc : s.pc = .launch f) (hall : -1 ∉ f.stored) : Accounted s := by
  obtain ⟨hnodup, hstored, -, -⟩ := h.launching f hpc
  have hne : ∀ p ∈ f.stored, p ≠ -1 := fun p hp hneg => hall (hneg ▸ hp)
  have hstored : ∀ p ∈ f.stored, p ∈ s.alive ∧
      ∀ i, (s.table.jobs i).used = true → p ∉ (s.table.jobs i).recorded := fun p hp =>
    (hstored p hp).resolve_left (hne p hp)
  rw [List.filter_eq_self.mpr (by simpa using hne)] at hnodup
  refine ⟨h.distinct, fun i hi => ?_, h.books.disjoint, fun p hp => ?_, fun f' hf' => ?_⟩
  · obtain ⟨hrec, hcount, hpos⟩ := h.books.counts i hi
    refine ⟨hrec, hcount.trans ?_, hpos⟩
    rw [liveIn, settled_alive, inLaunch_of_launch hpc]
    refine liveAmong_congr fun p hp => ?_
    have hnot : p ∉ f.stored := fun hmem => (hstored p hmem).2 i hi hp
    simp [hnot]
  · by_cases hmem : p ∈ f.stored
    · exact .inr ⟨f, hpc, hmem⟩
    · obtain hjob | ⟨g, hg, -⟩ := h.books.covered p (by
        rw [settled_alive, inLaunch_of_launch hpc]
        simp [hp, hmem])
      · exact .inl hjob
      · cases hg
  · cases hpc.symm.trans hf'
    exact ⟨hnodup, hstored⟩

/-- The new job is the job of the processes in its group. -/
theorem Attributed.add {s : Shell} {f : LaunchFrame} {job : Option Slot} {table : JobTable}
    {fds : FdTable} {state : JobState} (h : Attributed s) (hpc : s.pc = .launch f)
    (hproper : f.Proper) (hend : f.nseg ≤ f.i) (hall : -1 ∉ f.stored)
    (hfree : (s.table.findSlot fun job => !job.used).isSome = true)
    (hadd : s.table.addJob f.pgid f.pids f.nseg state f.cmdline = (job, table)) :
    Attributed { s with table := table, fds := fds, pc := .launched f job } := by
  have hbooks : Accounted { s with table := table, fds := fds, pc := .launched f job } :=
    (h.enlisted hpc hall).add hpc hproper hend hfree hadd
  obtain ⟨-, -, hleader, hgroup⟩ := h.launching f hpc
  have hi : f.i = f.nseg := le_antisymm hproper.bound hend
  have hstages := hproper.stages
  have hfirst : f.pids 0 ∈ f.stored :=
    List.mem_map.mpr ⟨0, List.mem_range.mpr (by omega), rfl⟩
  have hpgid : 0 < f.pgid := by
    refine (hproper.later (by omega)).resolve_left fun hneg => hall ?_
    rw [← hneg, hleader (by omega)]
    exact hfirst
  obtain ⟨hfull, -⟩ | ⟨i, t', hunused, hadd', -, hother, hnew⟩ :=
    s.table.addJob_cases f.pgid f.pids f.nseg state f.cmdline
  · obtain ⟨k, hk⟩ := Option.isSome_iff_exists.mp hfree
    simpa [hfull k] using (JobTable.findSlot_eq_some.mp hk).1
  rw [hadd'] at hadd
  obtain ⟨rfl, rfl⟩ := Prod.mk.inj hadd
  have hrec : (t'.jobs i).recorded = f.stored := by
    rw [hnew, Job.recorded, LaunchFrame.stored, hi]
    exact List.take_of_length_le (by simp)
  refine ⟨h.distinct, ?_, fun j hj => ?_, fun c hc j hj => ?_, by simp⟩
  · refine hbooks.frame (fun j => ⟨rfl, rfl, rfl⟩) ?_ (fun _ hf => by cases hf) (fun _ hf => by cases hf)
    rw [settled_alive]
    exact List.filter_eq_self.mpr fun p _ => by simp [inLaunch]
  · simp only [JobTable.jobs_updateFgPgid] at hj ⊢
    by_cases hji : j = i
    · rw [hji, hnew]
      exact hpgid
    · rw [hother j hji] at hj ⊢
      exact h.positive j hj
  · simp only [JobTable.jobs_updateFgPgid] at hj ⊢
    by_cases hji : j = i
    · rw [hji, hrec, hnew]
      exact hgroup hpgid c hc
    · rw [hother j hji] at hj ⊢
      exact h.owns c hc j hj

/-! ### The handler -/

theorem Attributed.reap {s s' : Shell} {pid : Pid} (h : Attributed s) (hs : Consistent s)
    (hstep : s.step (.reap pid) = some s') : Attributed s' := by
  obtain ⟨hin, status, hreport, hs'⟩ := step_reap hstep
  have hpc := hs.not_launch hin
  cases hterm : status.terminated with
  | false =>
      simp only [hterm, Bool.false_eq_true, if_false] at hs'
      subst hs'
      refine h.frame (sigchldBody_of_running s.table pid hterm) (fun i => ?_) ?_ ?_
        (fun f hf => hf) fun f hf => .inl hf
      · obtain ⟨hfrees, -⟩ | ⟨-, hpgid, -⟩ := s.table.sigchldBody_slot pid status i
        · simp [JobTable.frees, hterm] at hfrees
        · exact hpgid
      · simp only [alive, List.map_map]
        refine List.map_congr_left fun c _ => ?_
        by_cases hc : c.pid = pid <;> simp [hc]
      · intro c' hc'
        obtain ⟨c, hc, rfl⟩ := List.mem_map.mp hc'
        refine ⟨c, hc, ?_⟩
        split <;> exact ⟨rfl, rfl⟩
  | true =>
      simp only [hterm, if_true] at hs'
      have halive : s'.alive = s.alive.filter (· ≠ (pid : Int)) := by
        rw [hs']
        simp [alive, List.filter_map, Function.comp_def, Subtype.ext_iff]
      have htable : s'.table = s.table.sigchldBody pid status := by rw [hs']
      have hpc' : s'.pc = s.pc := by rw [hs']
      have hmem := mem_alive_of_report hreport
      obtain ⟨i, hc⟩ := (h.accounted hpc).charged hpc hmem hterm htable halive
      have hbooks := hc.accounted (h.accounted hpc) hmem halive hpc hpc'
      -- what is still in use is what it was
      have hkept : ∀ j, (s'.table.jobs j).used = true → (s.table.jobs j).used = true ∧
          (s'.table.jobs j).recorded = (s.table.jobs j).recorded ∧
          (s'.table.jobs j).pgid = (s.table.jobs j).pgid := by
        intro j hj
        by_cases hji : j = i
        · subst hji
          obtain ⟨-, hjob⟩ | ⟨-, hjob⟩ := hc.once
          · rw [hjob]
            exact ⟨hc.used, rfl, rfl⟩
          · simp [hjob] at hj
        · rw [hc.others j hji] at hj ⊢
          exact ⟨hj, rfl, rfl⟩
      refine ⟨hbooks.distinct, ?_, fun j hj => ?_, fun c hcs j hj => ?_,
        fun f hf => absurd (hpc' ▸ hf) (hpc f)⟩
      · refine hbooks.frame (fun j => ⟨rfl, rfl, rfl⟩) ?_
          (fun f hf => absurd (hpc' ▸ hf) (hpc f)) (fun _ hf => by cases hf)
        rw [settled_alive, inLaunch_of_not fun f hf => hpc f (hpc' ▸ hf)]
        simp
      · obtain ⟨hused, -, hpgid⟩ := hkept j hj
        rw [hpgid]
        exact h.positive j hused
      · obtain ⟨hused, hrec, hpgid⟩ := hkept j hj
        rw [hrec, hpgid]
        refine h.owns c ?_ j hused
        rw [hs'] at hcs
        exact (List.mem_filter.mp hcs).1

/-! ### Every step -/

/-- The steps that keep the table and the kernel agreed: `fork` returns no pid that is
still recorded, a launch that `Pipe` ends has no child, and one that comes to `add_job`
has no failed `fork` when there is room for it and no child when there is none. -/
def keepsTrack (s : Shell) : Label → Bool
  | .forks pid => (s.table.findJobByPid pid).isNone
  | .pipeFails =>
      match s.pc with
      | .launch f => f.stored.all (· == -1)
      | _ => true
  | .proceed =>
      match s.pc with
      | .launch f =>
          if (s.table.findSlot fun job => !job.used).isSome then !f.stored.contains (-1)
          else f.stored.all (· == -1)
      | _ => true
  | _ => true

theorem Attributed.step {s s' : Shell} {l : Label} (hs : Consistent s) (h : Attributed s)
    (hkeeps : s.keepsTrack l = true) (hstep : s.step l = some s') : Attributed s' := by
  cases step_transition hstep with
  | read line stack hrun hpc =>
      have hpcs (f : LaunchFrame) : (eval line).pc stack = .launch f →
          s.pc = .launch f ∨ f.i = 0 ∧ f.pgid = 0 := by
        intro hf
        obtain ⟨_, _, _, _, rfl⟩ := Action.of_pc_launch hf
        exact .inr ⟨rfl, rfl⟩
      obtain ⟨hstart, -⟩ | ⟨hstart, -⟩ := start_eq s stack (eval line) hpc <;>
        exact hstart ▸ h.frame (fun i => ⟨rfl, rfl, rfl⟩) (fun i => rfl) rfl
          (fun c hc => ⟨c, hc, rfl, rfl⟩) (by simp [hpc]) hpcs
  | goto l pc hrun hgoto =>
      exact h.frame (fun i => ⟨rfl, rfl, rfl⟩) (fun i => rfl) rfl
        (fun c hc => ⟨c, hc, rfl, rfl⟩)
        (fun f hf => absurd hf (hs.goto_not_launch hgoto f).1)
        fun f hf => absurd hf (hs.goto_not_launch hgoto f).2
  | unlock pc hrun hunlock =>
      exact h.frame (fun i => ⟨rfl, rfl, rfl⟩) (fun i => rfl) rfl
        (fun c hc => ⟨c, hc, rfl, rfl⟩)
        (fun f hf => absurd hf (hunlock.not_launch f).1)
        fun f hf => absurd hf (hunlock.not_launch f).2
  | add f fds hrun hpc hend =>
      simp only [keepsTrack, hpc] at hkeeps
      split at hkeeps
      · rename_i hfree
        exact h.add hpc (hs.frame f hpc) hend (by simpa using hkeeps) hfree rfl
      · rename_i hfull
        obtain ⟨-, hadd⟩ | ⟨i, t', hunused, -⟩ := s.table.addJob_cases f.pgid f.pids f.nseg
          (if f.bg then .background else .foreground) f.cmdline
        · exact h.drop hpc (by simpa using hkeeps) (by rw [hadd]) rfl (by simp)
        · rw [Option.not_isSome_iff_eq_none] at hfull
          have hused := JobTable.findSlot_eq_none.mp hfull i
          simp [hunused] at hused
  | bgFound jid i hrun hpc hfind | fgFound jid i hrun hpc hfind =>
      refine h.frame (fun j => ?_) (fun j => ?_) rfl (fun c hc => ⟨c, hc, rfl, rfl⟩)
        (by simp [hpc]) (by simp) <;>
        by_cases hji : j = i <;> simp [hji, Job.recorded]
  | killFound jid i hrun hpc hfind =>
      exact h.frame (fun j => ⟨rfl, rfl, rfl⟩) (fun j => rfl) rfl
        (fun c hc => ⟨c, hc, rfl, rfl⟩) (by simp [hpc]) (by simp)
  | pipeFails f hrun hpc =>
      simp only [keepsTrack, hpc] at hkeeps
      exact h.drop hpc (by simpa using hkeeps) rfl rfl (by simp)
  | forkFails f fds fds' fd hrun hpc hi => exact h.forkFails hpc (hs.frame f hpc)
  | forks pid f fds fds' fd hrun hpc hi hfresh =>
      exact h.forks hpc (hs.frame f hpc) hfresh (by simpa [keepsTrack] using hkeeps) rfl rfl rfl
        rfl rfl
  | change pid status children hpids =>
      obtain ⟨c, c', hfind, hchange, hs'⟩ := step_change hstep
      obtain ⟨hpid, hgrp, -, -⟩ := change_spec hchange
      have hcpid : c.pid = pid := by simpa using List.find?_some hfind
      refine h.frame (fun i => ⟨rfl, rfl, rfl⟩) (fun i => rfl) ?_ ?_ (fun f hf => hf)
        fun f hf => .inl hf
      · simpa [alive, List.map_map, Function.comp_def] using
          congrArg (List.map Subtype.val) hpids
      · intro d hd
        have hchildren : children = _ := congrArg Shell.children hs'
        rw [hchildren] at hd
        obtain ⟨e, he, rfl⟩ := List.mem_map.mp hd
        split
        · rename_i hepid
          exact ⟨c, List.mem_of_find?_eq_some hfind, hpid.symm, hgrp.symm⟩
        · exact ⟨e, he, rfl, rfl⟩
  | deliver hrun hopen =>
      exact h.frame (fun i => ⟨rfl, rfl, rfl⟩) (fun i => rfl) rfl
        (fun c hc => ⟨c, hc, rfl, rfl⟩) (fun f hf => hf) fun f hf => .inl hf
  | reap pid status children hin hreport hpids => exact h.reap hs hstep
  | handlerReturns pc hin hpc =>
      refine h.frame (fun i => ⟨rfl, rfl, rfl⟩) (fun i => rfl) rfl
        (fun c hc => ⟨c, hc, rfl, rfl⟩) ?_ ?_ <;>
        obtain ⟨rfl, -⟩ | ⟨g, hsuspended, rfl⟩ := hpc
      · exact fun f hf => hf
      · simp [hsuspended]
      · exact fun f hf => .inl hf
      · simp
  | keyboard => exact h

/-! ### Whom a status is charged to -/

/-- The job in slot `i` is the one the child was launched for: its group is the
child's. -/
def Belongs (s : Shell) (c : Child) (i : Slot) : Prop :=
  (s.table.jobs i).used = true ∧ (s.table.jobs i).pgid = c.pgrp

/-- Every child has one job, which alone records its pid and which `find_job_by_pid`
finds; every job has a child. -/
structure JobsFound (s : Shell) : Prop where
  once : ∀ c ∈ s.children, ∃! i, (s.table.jobs i).used = true ∧
    (c.pid : Int) ∈ (s.table.jobs i).recorded
  found : ∀ c ∈ s.children, ∃ i, s.table.findJobByPid c.pid = some i ∧ s.Belongs c i ∧
    ∀ j, s.Belongs c j → j = i
  living : ∀ i, (s.table.jobs i).used = true → ∃ c ∈ s.children, s.Belongs c i

theorem Attributed.jobsFound {s : Shell} (h : Attributed s) (hpc : ∀ f, s.pc ≠ .launch f) :
    s.JobsFound := by
  have ha := h.accounted hpc
  have hrecorded : ∀ c ∈ s.children, ∃ i, (s.table.jobs i).used = true ∧
      (c.pid : Int) ∈ (s.table.jobs i).recorded := by
    intro c hc
    obtain hjob | ⟨f, hf, -⟩ := ha.covered c.pid (List.mem_map.mpr ⟨c, hc, rfl⟩)
    · exact hjob
    · exact absurd hf (hpc f)
  refine ⟨fun c hc => ?_, fun c hc => ?_, fun i hi => ?_⟩
  · obtain ⟨i, hi, hrec⟩ := hrecorded c hc
    exact ⟨i, ⟨hi, hrec⟩, fun j ⟨hj, hrec'⟩ => ha.disjoint j i hj hi _ hrec' hrec⟩
  · obtain ⟨k, hk, hreck⟩ := hrecorded c hc
    obtain ⟨i, hfind⟩ : ∃ i, s.table.findJobByPid c.pid = some i := by
      rw [← Option.isSome_iff_exists, Option.isSome_iff_ne_none]
      exact fun hnone => JobTable.findJobByPid_eq_none.mp hnone k hk hreck
    obtain ⟨hi, hrec⟩ := JobTable.findJobByPid_spec hfind
    refine ⟨i, hfind, ⟨hi, ((h.owns c hc i hi).mp hrec).symm⟩, fun j ⟨hj, hpgid⟩ => ?_⟩
    exact ha.disjoint j i hj hi _ ((h.owns c hc j hj).mpr hpgid.symm) hrec
  · obtain ⟨c, hc, -, -, hgrp⟩ := h.member hi
    exact ⟨c, hc, hi, hgrp.symm⟩

/-- Every status is charged to the job its process belongs to, in every run that hands
out no recorded pid and has no launch with some of its processes missing. -/
theorem jobs_found {s : Shell}
    (h : Reachable Shell.step (fun s l => s.keepsTrack l = true) {} s)
    (hopen : s.blocked = false) : s.JobsFound := by
  have hinv : Consistent s ∧ Attributed s := by
    refine h.invariant (I := fun s => Consistent s ∧ Attributed s) ⟨.init, .init⟩ ?_
    intro s l s' ⟨hs, ha⟩ hkeeps hstep
    exact ⟨hs.step (step_transition hstep), ha.step hs hkeeps hstep⟩
  refine hinv.2.jobsFound fun f hf => ?_
  have hmask := hinv.1.mask
  rw [hopen, hf] at hmask
  cases hmask

/-- A pipeline whose second process ends and is reaped, and another job that its pid is
handed out to. -/
def pidReused (pid : Pid) : List Label :=
  [.readLine "a | b &\n".toList fun _ => 0, .forks 100, .forks 101,
    .proceed, .proceed, .proceed, .change 101 .exited, .deliver,
    .reap 101, .handlerReturns,
    .readLine "c &\n".toList fun _ => 0, .forks pid, .proceed, .proceed, .proceed]

theorem jobs_found_twoJobs :
    ((exec (restrict Shell.step fun s l => s.keepsTrack l = true)
      (pidReused 102) {}).get (by decide +kernel)).JobsFound :=
  jobs_found (.of_exec (Option.some_get _).symm) (by decide +kernel)

/-- The new process is looked up in the job of the old one. -/
theorem jobs_not_found : ¬ ∀ s, Reachable Shell.step anyStep {} s → s.blocked = false →
    s.JobsFound := by
  intro h
  have hrun : ((exec (restrict Shell.step anyStep) (pidReused 101) {}).map fun s =>
      (s.blocked, s.children.map fun c => (c.pid, c.pgrp), s.table.findJobByPid 101,
        (s.table.jobs 0).pgid)) =
      some (false, [(100, 100), (101, 101)], some 0, 100) := by
    decide +kernel
  obtain ⟨s, hs, hview⟩ := Option.map_eq_some_iff.mp hrun
  simp only [Prod.mk.injEq] at hview
  obtain ⟨hopen, hchildren, hfind, hpgid⟩ := hview
  have hmem : ((101, 101) : Pid × Int) ∈ s.children.map fun c => (c.pid, c.pgrp) := by
    rw [hchildren]
    decide
  obtain ⟨c, hc, hceq⟩ := List.mem_map.mp hmem
  obtain ⟨hcpid, hcgrp⟩ := Prod.mk.inj hceq
  obtain ⟨i, hi, hbelongs, -⟩ := (h s (.of_exec hs) hopen).found c hc
  rw [hcpid] at hi
  obtain rfl : 0 = i := Option.some.inj (hfind.symm.trans hi)
  have hgroup := hbelongs.2
  rw [hpgid, hcgrp] at hgroup
  simp at hgroup

end Shell

end SystemProgramming.MyShell
