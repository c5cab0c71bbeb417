import SystemProgramming.MyShell.Transitions

/-!
Job accounting: the counter `live_count` of a job against the children the
kernel still keeps for it.

A child is recorded in exactly one place, the job it was launched for or, from
`fork` to `add_job`, the array `pids` of the launch. SIGCHLD is blocked in
that span, so the handler finds every child it reaps in exactly one job.
-/

namespace SystemProgramming.MyShell

open SystemProgramming.CLib SystemProgramming.Library

/-! ### Counting -/

/-- How many of the recorded processes are alive. -/
def liveAmong (alive recorded : List Int) : Nat := recorded.countP fun p => p ∈ alive

theorem liveAmong_congr {alive alive' recorded : List Int}
    (h : ∀ p ∈ recorded, p ∈ alive' ↔ p ∈ alive) :
    liveAmong alive' recorded = liveAmong alive recorded :=
  List.countP_congr fun p hp => by simpa using h p hp

theorem liveAmong_all {alive recorded : List Int} (h : ∀ p ∈ recorded, p ∈ alive) :
    liveAmong alive recorded = recorded.length :=
  List.countP_eq_length.mpr fun p hp => by simpa using h p hp

/-- The end of a recorded process takes one off the count. -/
theorem liveAmong_reap {alive recorded : List Int} {pid : Int} (hnodup : recorded.Nodup)
    (hrec : pid ∈ recorded) (halive : pid ∈ alive) :
    liveAmong alive recorded = liveAmong (alive.filter (· ≠ pid)) recorded + 1 := by
  have hsub : (recorded.filter fun p => p ∈ alive.filter (· ≠ pid)) =
      (recorded.filter fun p => p ∈ alive).erase pid := by
    rw [(hnodup.filter _).erase_eq_filter, List.filter_filter]
    refine List.filter_congr fun p _ => ?_
    by_cases hp : p = pid <;> simp [hp]
  have hmem : pid ∈ recorded.filter fun p => p ∈ alive := by simp [hrec, halive]
  have hpos : 0 < (recorded.filter fun p => p ∈ alive).length := List.length_pos_of_mem hmem
  unfold liveAmong
  rw [List.countP_eq_length_filter, List.countP_eq_length_filter, hsub,
    List.length_erase_of_mem hmem]
  omega

/-! ### The invariant -/

/-- The pids stored by the stages forked so far. -/
def LaunchFrame.stored (f : LaunchFrame) : List Int := (List.range f.i).map f.pids

theorem LaunchFrame.stored_afterFork (f : LaunchFrame) (fds : FdTable) (fd : Int × Int)
    (pid : Int) : (afterFork fds f fd pid).2.stored = f.stored ++ [pid] := by
  simp only [stored, afterFork_i, afterFork_pids, List.range_succ, List.map_append,
    List.map_singleton, Function.update_self]
  congr 1
  refine List.map_congr_left fun i hi => Function.update_of_ne ?_ _ _
  have := List.mem_range.mp hi
  omega

namespace Shell

/-- The pids of the children that have not been reaped. -/
def alive (s : Shell) : List Int := s.children.map fun c => (c.pid : Int)

/-- The recorded processes of the job in slot `i` that have not been reaped. -/
def liveIn (s : Shell) (i : Slot) : Nat := liveAmong s.alive (s.table.jobs i).recorded

/-- Every child is recorded once, and every job counts its own. -/
structure Accounted (s : Shell) : Prop where
  distinct : s.alive.Nodup
  counts : ∀ i, (s.table.jobs i).used = true →
    (s.table.jobs i).recorded.Nodup ∧ (s.table.jobs i).liveCount = s.liveIn i ∧
      0 < (s.table.jobs i).liveCount
  disjoint : ∀ i j, (s.table.jobs i).used = true → (s.table.jobs j).used = true →
    ∀ p ∈ (s.table.jobs i).recorded, p ∈ (s.table.jobs j).recorded → i = j
  covered : ∀ p ∈ s.alive, (∃ i, (s.table.jobs i).used = true ∧
      p ∈ (s.table.jobs i).recorded) ∨
    ∃ f, s.pc = .launch f ∧ p ∈ f.stored
  launching : ∀ f, s.pc = .launch f → f.stored.Nodup ∧ ∀ p ∈ f.stored,
    p ∈ s.alive ∧ ∀ i, (s.table.jobs i).used = true → p ∉ (s.table.jobs i).recorded

/-- `fork` and `pipe` succeed, `add_job` finds a free slot, and the kernel hands out no
pid that is still recorded in a job. -/
def undisturbed (s : Shell) : Label → Bool
  | .pipeFails | .forkFails => false
  | .forks pid => (s.table.findJobByPid pid).isNone
  | .proceed =>
      match s.pc with
      | .launch _ => (s.table.findSlot fun job => !job.used).isSome
      | _ => true
  | _ => true

/-- A step that moves no pid keeps the accounts. -/
theorem Accounted.frame {s s' : Shell} (h : Accounted s)
    (hjobs : ∀ i, (s'.table.jobs i).used = (s.table.jobs i).used ∧
      (s'.table.jobs i).recorded = (s.table.jobs i).recorded ∧
      (s'.table.jobs i).liveCount = (s.table.jobs i).liveCount)
    (halive : s'.alive = s.alive)
    (hpc : ∀ f, s.pc = .launch f → s'.pc = .launch f)
    (hpc' : ∀ f, s'.pc = .launch f → s.pc = .launch f ∨ f.i = 0) : Accounted s' where
  distinct := halive ▸ h.distinct
  counts := fun i hi => by
    obtain ⟨hused, hrec, hlive⟩ := hjobs i
    rw [liveIn, hrec, hlive, halive]
    exact h.counts i (hused ▸ hi)
  disjoint := fun i j hi hj => by
    rw [(hjobs i).2.1, (hjobs j).2.1]
    exact h.disjoint i j ((hjobs i).1 ▸ hi) ((hjobs j).1 ▸ hj)
  covered := fun p hp => by
    rw [halive] at hp
    obtain ⟨i, hi, hrec⟩ | ⟨f, hf, hstored⟩ := h.covered p hp
    · exact .inl ⟨i, (hjobs i).1.trans hi, (hjobs i).2.1 ▸ hrec⟩
    · exact .inr ⟨f, hpc f hf, hstored⟩
  launching := fun f hf => by
    obtain hf | hzero := hpc' f hf
    · obtain ⟨hnodup, hstored⟩ := h.launching f hf
      refine ⟨hnodup, fun p hp => ⟨halive ▸ (hstored p hp).1, fun i hi => ?_⟩⟩
      rw [(hjobs i).2.1]
      exact (hstored p hp).2 i ((hjobs i).1 ▸ hi)
    · simp [LaunchFrame.stored, hzero]

theorem Accounted.init : Accounted {} where
  distinct := .nil
  counts := fun i hi => by cases hi
  disjoint := fun i j hi => by cases hi
  covered := nofun
  launching := nofun

/-- A job added to a table with room records the children of its launch. -/
theorem Accounted.add {s : Shell} {f : LaunchFrame} {job : Option Slot} {table : JobTable}
    {fds : FdTable} {state : JobState} (h : Accounted s) (hpc : s.pc = .launch f)
    (hproper : f.Proper) (hend : f.nseg ≤ f.i)
    (hfree : (s.table.findSlot fun job => !job.used).isSome = true)
    (hadd : s.table.addJob f.pgid f.pids f.nseg state f.cmdline = (job, table)) :
    Accounted { s with table := table, fds := fds, pc := .launched f job } := by
  have hi : f.i = f.nseg := le_antisymm hproper.bound hend
  obtain ⟨hnodup, hstored⟩ := h.launching f hpc
  obtain ⟨hfull, _⟩ | ⟨i, t', hunused, hadd', _, hother, hnew⟩ :=
    s.table.addJob_cases f.pgid f.pids f.nseg state f.cmdline
  · obtain ⟨k, hk⟩ := Option.isSome_iff_exists.mp hfree
    simpa [hfull k] using (JobTable.findSlot_eq_some.mp hk).1
  rw [hadd'] at hadd
  obtain ⟨rfl, rfl⟩ := Prod.mk.inj hadd
  have hjob (j : Slot) : t'.updateFgPgid.jobs j = t'.jobs j := by simp
  have hrec : (t'.jobs i).recorded = f.stored := by
    rw [hnew, Job.recorded, LaunchFrame.stored, hi]
    exact List.take_of_length_le (by simp)
  have hold (j : Slot) (hj : j ≠ i) (hused : (t'.jobs j).used = true) :
      (s.table.jobs j).used = true := hother j hj ▸ hused
  refine ⟨h.distinct, fun j hj => ?_, fun j k hj hk p hp hp' => ?_, fun p hp => ?_, nofun⟩
  · simp only [hjob, liveIn] at hj ⊢
    by_cases hji : j = i
    · subst hji
      have hall : liveAmong s.alive f.stored = f.nseg := by
        rw [liveAmong_all fun p hp => (hstored p hp).1]
        simp [LaunchFrame.stored, hi]
      rw [hrec, hnew]
      exact ⟨hnodup, hall.symm, hproper.stages⟩
    · rw [hother j hji] at hj ⊢
      exact h.counts j hj
  · simp only [hjob] at hj hk hp hp'
    by_cases hji : j = i <;> by_cases hki : k = i
    · exact hji.trans hki.symm
    · subst hji
      rw [hrec] at hp
      exact absurd (hother k hki ▸ hp') ((hstored p hp).2 k (hold k hki hk))
    · subst hki
      rw [hrec] at hp'
      exact absurd (hother j hji ▸ hp) ((hstored p hp').2 j (hold j hji hj))
    · rw [hother j hji] at hp
      rw [hother k hki] at hp'
      exact h.disjoint j k (hold j hji hj) (hold k hki hk) p hp hp'
  · simp only [hjob]
    refine .inl ?_
    obtain ⟨j, hj, hjp⟩ | ⟨f', hf', hp'⟩ := h.covered p hp
    · have hji : j ≠ i := fun hji => by simp [hji, hunused] at hj
      exact ⟨j, hother j hji ▸ hj, hother j hji ▸ hjp⟩
    · rw [hpc] at hf'
      cases hf'
      exact ⟨i, by rw [hnew], hrec ▸ hp'⟩

/-- What the kernel promises of a pid it hands out. -/
theorem freshPid_spec {s : Shell} {pid : Pid} (h : s.freshPid pid = true) :
    (pid : Int) ∉ s.alive ∧ ∀ c ∈ s.children, c.pgrp ≠ pid := by
  have hne : ∀ c ∈ s.children, c.pid ≠ pid ∧ c.pgrp ≠ pid := fun c hc => by
    simpa using List.all_eq_true.mp h c hc
  refine ⟨fun hmem => ?_, fun c hc => (hne c hc).2⟩
  obtain ⟨c, hc, hpid⟩ := List.mem_map.mp hmem
  exact (hne c hc).1 (Subtype.ext hpid)

theorem nodup_snoc {l : List Int} {p : Int} (h : l.Nodup) (hp : p ∉ l) : (l ++ [p]).Nodup :=
  List.nodup_append.mpr ⟨h, List.nodup_singleton p, fun _ ha _ hb hab =>
    hp (List.mem_singleton.mp hb ▸ hab ▸ ha)⟩

/-- A child just forked is new to the kernel and to the table. -/
theorem Accounted.fork {s s' : Shell} {f : LaunchFrame} {pid : Pid} {fds : FdTable}
    {fd : Int × Int} (h : Accounted s) (hpc : s.pc = .launch f)
    (hfresh : s.freshPid pid = true) (hunrecorded : s.table.findJobByPid pid = none)
    (htable : s'.table = s.table) (hpc' : s'.pc = .launch (afterFork fds f fd pid).2)
    (halive : s'.alive = s.alive ++ [(pid : Int)]) : Accounted s' := by
  obtain ⟨hnew, -⟩ := freshPid_spec hfresh
  have hnone := JobTable.findJobByPid_eq_none.mp hunrecorded
  obtain ⟨hnodup, hstored⟩ := h.launching f hpc
  have hfresh' : (pid : Int) ∉ f.stored := fun hp => hnew (hstored _ hp).1
  refine ⟨?_, fun i hi => ?_, htable ▸ h.disjoint, fun p hp => ?_, fun f' hf' => ?_⟩
  · rw [halive]
    exact nodup_snoc h.distinct hnew
  · rw [htable] at hi
    have hsame : liveAmong (s.alive ++ [(pid : Int)]) (s.table.jobs i).recorded =
        liveAmong s.alive (s.table.jobs i).recorded := by
      refine liveAmong_congr fun p hp => ?_
      have hne : p ≠ pid := fun hp' => hnone i hi (hp' ▸ hp)
      simp [hne]
    rw [liveIn, htable, halive, hsame]
    exact h.counts i hi
  · rw [halive] at hp
    rw [htable, hpc']
    obtain hp | hp := List.mem_append.mp hp
    · obtain hjob | ⟨f', hf', hp'⟩ := h.covered p hp
      · exact .inl hjob
      · rw [hpc] at hf'
        cases hf'
        exact .inr ⟨_, rfl, by rw [f.stored_afterFork]; simp [hp']⟩
    · exact .inr ⟨_, rfl, by rw [f.stored_afterFork]; simp [List.mem_singleton.mp hp]⟩
  · rw [hpc'] at hf'
    cases hf'
    rw [f.stored_afterFork, halive, htable]
    refine ⟨?_, fun p hp => ?_⟩
    · exact nodup_snoc hnodup hfresh'
    · obtain hp | hp := List.mem_append.mp hp
      · exact ⟨List.mem_append_left _ (hstored p hp).1, (hstored p hp).2⟩
      · rw [List.mem_singleton.mp hp]
        exact ⟨by simp, hnone⟩

/-! ### The reap of an ended child -/

/-- The end of `pid` is charged to the job in slot `i` and to no other. -/
structure ChargedTo (s s' : Shell) (pid : Int) (i : Slot) : Prop where
  used : (s.table.jobs i).used = true
  recorded : pid ∈ (s.table.jobs i).recorded
  only : ∀ j, (s.table.jobs j).used = true → pid ∈ (s.table.jobs j).recorded → j = i
  others : ∀ j, j ≠ i → s'.table.jobs j = s.table.jobs j
  once : 1 < (s.table.jobs i).liveCount ∧ s'.table.jobs i =
      { s.table.jobs i with liveCount := (s.table.jobs i).liveCount - 1 } ∨
    (s.table.jobs i).liveCount = 1 ∧ s'.table.jobs i = {}
  gone : pid ∉ s'.alive

theorem Accounted.charged {s s' : Shell} {pid : Pid} {status : Status} (h : Accounted s)
    (hpc : ∀ f, s.pc ≠ .launch f) (hmem : (pid : Int) ∈ s.alive)
    (hterm : status.terminated = true) (htable : s'.table = s.table.sigchldBody pid status)
    (halive : s'.alive = s.alive.filter (· ≠ (pid : Int))) :
    ∃ i, ChargedTo s s' pid i := by
  obtain ⟨i, hi, hrec⟩ | ⟨f, hf, _⟩ := h.covered pid hmem
  swap
  · exact absurd hf (hpc f)
  have honly (j : Slot) (hj : (s.table.jobs j).used = true)
      (hp : (pid : Int) ∈ (s.table.jobs j).recorded) : j = i := h.disjoint j i hj hi pid hp hrec
  obtain ⟨_, _, hpos⟩ := h.counts i hi
  have hcharge := s.table.sigchldBody_charge pid status
  rw [← htable] at hcharge
  have hgone : (pid : Int) ∉ s'.alive := by rw [halive]; simp
  clear htable
  generalize ht' : s'.table = t' at hcharge
  have hnotRunning : status ≠ .stopped ∧ status ≠ .continued := by
    constructor <;> rintro rfl <;> cases hterm
  cases hcharge with
  | unknown hfind => exact absurd hrec (JobTable.findJobByPid_eq_none.mp hfind i hi)
  | stop k hfind hst => exact absurd hst hnotRunning.1
  | resume k hfind hst => exact absurd hst hnotRunning.2
  | keep k hfind hst => exact absurd hst hnotRunning.2
  | charge k hfind _ hlive =>
      have hki := honly k (JobTable.findJobByPid_spec hfind).1
        (JobTable.findJobByPid_spec hfind).2
      subst hki
      refine ⟨k, hi, hrec, honly, fun j hj => ?_, .inl ⟨hlive, ?_⟩, hgone⟩
      · simp [ht', hj]
      · simp [ht']
  | free k hfind _ hlive =>
      have hki := honly k (JobTable.findJobByPid_spec hfind).1
        (JobTable.findJobByPid_spec hfind).2
      subst hki
      refine ⟨k, hi, hrec, honly, fun j hj => ?_, .inr ⟨by omega, ?_⟩, hgone⟩
      · simp [ht', hj]
      · simp [ht']

theorem ChargedTo.accounted {s s' : Shell} {pid : Int} {i : Slot} (h : Accounted s)
    (hc : ChargedTo s s' pid i) (hmem : pid ∈ s.alive)
    (halive : s'.alive = s.alive.filter (· ≠ pid)) (hpc : ∀ f, s.pc ≠ .launch f)
    (hpc' : s'.pc = s.pc) : Accounted s' := by
  obtain ⟨hnodup, hcount, _⟩ := h.counts i hc.used
  have hlive : (s.table.jobs i).liveCount =
      liveAmong s'.alive (s.table.jobs i).recorded + 1 := by
    rw [hcount, halive]
    exact liveAmong_reap hnodup hc.recorded hmem
  have hkept (j : Slot) (hj : (s'.table.jobs j).used = true) :
      (s.table.jobs j).used = true ∧
        (s'.table.jobs j).recorded = (s.table.jobs j).recorded := by
    by_cases hji : j = i
    · subst hji
      obtain ⟨_, hjob⟩ | ⟨_, hjob⟩ := hc.once
      · rw [hjob]
        exact ⟨hc.used, rfl⟩
      · simp [hjob] at hj
    · rw [hc.others j hji] at hj ⊢
      exact ⟨hj, rfl⟩
  refine ⟨?_, fun j hj => ?_, fun j k hj hk p hp hp' => ?_, fun p hp => .inl ?_, fun f hf => ?_⟩
  · rw [halive]
    exact h.distinct.filter _
  · by_cases hji : j = i
    · subst hji
      obtain ⟨hmany, hjob⟩ | ⟨_, hjob⟩ := hc.once
      · rw [liveIn, hjob]
        exact ⟨hnodup, by simp only [Job.recorded] at hlive ⊢; omega, by simp only; omega⟩
      · simp [hjob] at hj
    -- the other jobs do not count the process
    · have hother : pid ∉ (s.table.jobs j).recorded := fun hp =>
        hji (hc.only j (hkept j hj).1 hp)
      have hsame : liveAmong (s.alive.filter (· ≠ pid)) (s.table.jobs j).recorded =
          liveAmong s.alive (s.table.jobs j).recorded := by
        refine liveAmong_congr fun p hp => ?_
        have hne : p ≠ pid := fun hpp => hother (hpp ▸ hp)
        simp [hne]
      rw [liveIn, hc.others j hji, halive, hsame]
      exact h.counts j (hkept j hj).1
  · rw [(hkept j hj).2] at hp
    rw [(hkept k hk).2] at hp'
    exact h.disjoint j k (hkept j hj).1 (hkept k hk).1 p hp hp'
  · rw [halive, List.mem_filter] at hp
    have hne : p ≠ pid := by simpa using hp.2
    obtain ⟨j, hj, hrec⟩ | ⟨f, hf, _⟩ := h.covered p hp.1
    · by_cases hji : j = i
      · subst hji
        obtain ⟨_, hjob⟩ | ⟨hone, _⟩ := hc.once
        · exact ⟨j, by rw [hjob]; exact hc.used, by rw [hjob]; exact hrec⟩
        -- the job is freed with the last of its processes, so `p` was not one of them
        · have hzero : liveAmong s'.alive (s.table.jobs j).recorded = 0 := by omega
          have hdead := List.countP_eq_zero.mp hzero p hrec
          rw [halive] at hdead
          simp [hp.1, hne] at hdead
      · exact ⟨j, by rw [hc.others j hji]; exact hj, by rw [hc.others j hji]; exact hrec⟩
    · exact absurd hf (hpc f)
  · exact absurd (hpc' ▸ hf) (hpc f)

/-- A job is freed when the child reaped is the last of its processes. -/
theorem ChargedTo.freed_iff {s s' : Shell} {pid : Int} {i : Slot} (h : Accounted s)
    (hc : ChargedTo s s' pid i) (hmem : pid ∈ s.alive) :
    (s'.table.jobs i).used = false ↔
      ∀ p ∈ (s.table.jobs i).recorded, p ∈ s.alive → p = pid := by
  obtain ⟨hnodup, hcount, _⟩ := h.counts i hc.used
  have hlive : (s.table.jobs i).liveCount =
      liveAmong (s.alive.filter (· ≠ pid)) (s.table.jobs i).recorded + 1 :=
    hcount.trans (liveAmong_reap hnodup hc.recorded hmem)
  have hzero : liveAmong (s.alive.filter (· ≠ pid)) (s.table.jobs i).recorded = 0 ↔
      ∀ p ∈ (s.table.jobs i).recorded, p ∈ s.alive → p = pid := by
    rw [liveAmong, List.countP_eq_zero]
    simp
  rw [← hzero]
  obtain ⟨hmany, hjob⟩ | ⟨hone, hjob⟩ := hc.once
  · have hused := hc.used
    simp only [hjob, hused, Bool.true_eq_false, false_iff]
    omega
  · simp only [hjob, true_iff]
    omega

/-! ### Every step -/

theorem mem_alive_of_report {s : Shell} {pid : Pid} {status : Status}
    (h : s.reportOf pid = some status) : (pid : Int) ∈ s.alive := by
  obtain ⟨c, hfind, _⟩ := Option.bind_eq_some_iff.mp h
  have hpid : c.pid = pid := by simpa using List.find?_some hfind
  exact List.mem_map.mpr ⟨c, List.mem_of_find?_eq_some hfind, by rw [hpid]⟩

/-- The pids left by a reap. -/
theorem alive_reap {s : Shell} {pid : Pid} {status : Status} {children : List Child}
    (h : children.map Child.pid =
      (s.children.map Child.pid).filter (fun p => !status.terminated || p ≠ pid)) :
    children.map (fun c => (c.pid : Int)) =
      if status.terminated then s.alive.filter (· ≠ (pid : Int)) else s.alive := by
  have hvals := congrArg (List.map Subtype.val) h
  rw [List.map_map] at hvals
  refine Eq.trans hvals ?_
  cases status.terminated with
  | false => simp [alive, Function.comp_def]
  | true => simp [alive, List.filter_map, Function.comp_def, Subtype.ext_iff]

/-- A status that ends no process changes no accounts. -/
theorem sigchldBody_of_running (t : JobTable) (pid : Int) {status : Status}
    (hst : status.terminated = false) (j : Slot) :
    ((t.sigchldBody pid status).jobs j).used = (t.jobs j).used ∧
      ((t.sigchldBody pid status).jobs j).recorded = (t.jobs j).recorded ∧
      ((t.sigchldBody pid status).jobs j).liveCount = (t.jobs j).liveCount := by
  generalize ht' : t.sigchldBody pid status = t'
  have hcharge : JobTable.Charge t pid status t' := ht' ▸ t.sigchldBody_charge pid status
  cases hcharge with
  | unknown | keep => exact ⟨rfl, rfl, rfl⟩
  | stop i | resume i => by_cases hj : j = i <;> simp [hj, Job.recorded]
  | charge i _ hterm | free i _ hterm => simp [hst] at hterm

theorem Accounted.step {s s' : Shell} {l : Label} (hs : Consistent s) (h : Accounted s)
    (hcalm : s.undisturbed l = true) (ht : Transition s l s') : Accounted s' := by
  cases ht with
  | read line stack hrun hpc =>
      have hpcs (f : LaunchFrame) : (eval line).pc stack = .launch f →
          s.pc = .launch f ∨ f.i = 0 := by
        intro hf
        obtain ⟨_, _, _, _, rfl⟩ := Action.of_pc_launch hf
        exact .inr rfl
      obtain ⟨hstart, _⟩ | ⟨hstart, _⟩ := start_eq s stack (eval line) hpc <;>
        exact hstart ▸ h.frame (fun i => ⟨rfl, rfl, rfl⟩) rfl (by simp [hpc]) hpcs
  | goto l pc hrun hgoto =>
      exact h.frame (fun i => ⟨rfl, rfl, rfl⟩) rfl
        (fun f hf => absurd hf (hs.goto_not_launch hgoto f).1)
        fun f hf => absurd hf (hs.goto_not_launch hgoto f).2
  | unlock pc hrun hunlock =>
      exact h.frame (fun i => ⟨rfl, rfl, rfl⟩) rfl
        (fun f hf => absurd hf (hunlock.not_launch f).1)
        fun f hf => absurd hf (hunlock.not_launch f).2
  | add f fds hrun hpc hend =>
      simp only [undisturbed, hpc] at hcalm
      exact h.add hpc (hs.frame f hpc) hend hcalm rfl
  | bgFound jid i hrun hpc hfind | fgFound jid i hrun hpc hfind =>
      refine h.frame (fun j => ?_) rfl (by simp [hpc]) nofun
      by_cases hj : j = i <;> simp [hj, Job.recorded]
  | killFound jid i hrun hpc hfind =>
      exact h.frame (fun i => ⟨rfl, rfl, rfl⟩) rfl (by simp [hpc]) nofun
  | pipeFails f hrun hpc | forkFails f fds fds' fd hrun hpc hi => cases hcalm
  | forks pid f fds fds' fd hrun hpc hi hfresh =>
      exact h.fork hpc hfresh (Option.isNone_iff_eq_none.mp hcalm) rfl rfl (by simp [alive])
  | change pid status children hpids =>
      have halive : children.map (fun c => (c.pid : Int)) = s.alive := by
        simpa [alive, List.map_map, Function.comp_def] using
          congrArg (List.map Subtype.val) hpids
      exact h.frame (fun i => ⟨rfl, rfl, rfl⟩) halive (fun f hf => hf) (fun f hf => .inl hf)
  | deliver hrun hopen =>
      exact h.frame (fun i => ⟨rfl, rfl, rfl⟩) rfl (fun f hf => hf) (fun f hf => .inl hf)
  | reap pid status children hin hreport hpids =>
      have halive := alive_reap hpids
      have hmem := mem_alive_of_report hreport
      cases hterm : status.terminated with
      | true =>
          simp only [hterm, if_true] at halive
          have hcharged : ∃ i, ChargedTo s
              { s with table := s.table.sigchldBody pid status, children := children } pid i :=
            h.charged (hs.not_launch hin) hmem hterm rfl halive
          obtain ⟨i, hc⟩ := hcharged
          exact hc.accounted h hmem halive (hs.not_launch hin) rfl
      | false =>
          simp only [hterm, Bool.false_eq_true, if_false] at halive
          exact h.frame (sigchldBody_of_running _ _ hterm) halive (fun f hf => hf)
            (fun f hf => .inl hf)
  | handlerReturns pc hin hpc =>
      obtain ⟨rfl, _⟩ | ⟨g, hsuspended, rfl⟩ := hpc
      · exact h.frame (fun i => ⟨rfl, rfl, rfl⟩) rfl (fun f hf => hf) (fun f hf => .inl hf)
      · exact h.frame (fun i => ⟨rfl, rfl, rfl⟩) rfl (by simp [hsuspended]) nofun
  | keyboard => exact h

/-- The last process of the job in slot `i` that has not been reaped is reaped. -/
def LastReap (s : Shell) (l : Label) (i : Slot) : Prop :=
  ∃ pid status, l = .reap pid ∧ s.reportOf pid = some status ∧ status.terminated = true ∧
    (pid : Int) ∈ (s.table.jobs i).recorded ∧
    ∀ p ∈ (s.table.jobs i).recorded, p ∈ s.alive → p = pid

/-- Steps other than a reap free no slot. -/
theorem used_step {s s' : Shell} {l : Label} (ht : Transition s l s')
    (hl : ∀ pid, l ≠ .reap pid) {i : Slot} (hi : (s.table.jobs i).used = true) :
    (s'.table.jobs i).used = true := by
  cases ht with
  | read line stack hrun hpc =>
      obtain ⟨hstart, _⟩ | ⟨hstart, _⟩ := start_eq s stack (eval line) hpc <;>
        exact hstart ▸ hi
  | add f fds hrun hpc hend =>
      obtain ⟨_, hadd⟩ | ⟨k, t', hunused, hadd, _, hother, _⟩ :=
        s.table.addJob_cases f.pgid f.pids f.nseg
          (if f.bg then .background else .foreground) f.cmdline
      · simpa only [hadd] using hi
      · have hik : i ≠ k := fun hik => by simp [← hik, hi] at hunused
        simpa [hadd, hother i hik] using hi
  | bgFound jid j hrun hpc hfind | fgFound jid j hrun hpc hfind =>
      by_cases hij : i = j
      · subst hij
        simpa using hi
      · simpa [hij] using hi
  | reap pid => exact absurd rfl (hl pid)
  | _ => exact hi

/-- **Job accounting**, in every run without failing system calls. -/
theorem accounting {s : Shell}
    (h : Reachable Shell.step (fun s l => s.undisturbed l = true) {} s) :
    (∀ i, (s.table.jobs i).used = true → (s.table.jobs i).liveCount = s.liveIn i) ∧
    (∀ pid status s', s.reportOf pid = some status → status.terminated = true →
      s.step (.reap pid) = some s' → ∃ i, ChargedTo s s' pid i) ∧
    ∀ l s', s.undisturbed l = true → s.step l = some s' →
      ∀ i, (s.table.jobs i).used = true →
        ((s'.table.jobs i).used = false ↔ s.LastReap l i) := by
  have hinv : Consistent s ∧ Accounted s := by
    refine h.invariant (I := fun s => Consistent s ∧ Accounted s) ⟨.init, .init⟩ ?_
    intro s l s' ⟨hs, ha⟩ hcalm hstep
    exact ⟨hs.step (step_transition hstep), ha.step hs hcalm (step_transition hstep)⟩
  obtain ⟨hs, ha⟩ := hinv
  have hcharged (pid : Pid) (status : Status) (s' : Shell)
      (hreport : s.reportOf pid = some status) (hterm : status.terminated = true)
      (hstep : s.step (.reap pid) = some s') : ∃ i, ChargedTo s s' pid i := by
    cases step_transition hstep with
    | reap _ status' children hin hreport' hpids =>
        obtain rfl : status' = status := Option.some.inj (hreport'.symm.trans hreport)
        have halive := alive_reap hpids
        simp only [hterm, if_true] at halive
        exact ha.charged (hs.not_launch hin) (mem_alive_of_report hreport) hterm rfl halive
    | goto _ _ hrun hgoto => cases hgoto
  refine ⟨fun i hi => (ha.counts i hi).2.1, hcharged, fun l s' hcalm hstep i hi => ?_⟩
  have hlast (pid : Pid) (hl : l = .reap pid) :
      (s'.table.jobs i).used = false ↔ s.LastReap l i := by
    subst hl
    cases step_transition hstep with
    | goto _ _ hrun hgoto => cases hgoto
    | reap _ status children hin hreport hpids =>
    cases hterm : status.terminated with
    | false =>
        have hused := (sigchldBody_of_running s.table pid hterm i).1
        refine ⟨fun hfree => ?_, fun ⟨pid', status', hl, hreport', hterm', _⟩ => ?_⟩
        · simp only [hused, hi, Bool.true_eq_false] at hfree
        · cases hl
          obtain rfl : status' = status := Option.some.inj (hreport'.symm.trans hreport)
          simp [hterm] at hterm'
    | true =>
        have hmem := mem_alive_of_report hreport
        obtain ⟨k, hc⟩ := hcharged pid status _ hreport hterm hstep
        by_cases hik : i = k
        · subst hik
          rw [hc.freed_iff ha hmem]
          refine ⟨fun hall => ⟨pid, status, rfl, hreport, hterm, hc.recorded, hall⟩, ?_⟩
          rintro ⟨pid', _, hl, _, _, _, hall⟩
          cases hl
          exact hall
        · have hkept := hc.others i hik
          simp only at hkept
          refine ⟨fun hfree => ?_, fun ⟨pid', _, hl, _, _, hrec, _⟩ => ?_⟩
          · simp only [hkept, hi, Bool.true_eq_false] at hfree
          · cases hl
            exact absurd (hc.only i hi hrec) hik
  -- only a reap frees a slot
  by_cases hl : ∃ pid, l = .reap pid
  · exact hlast hl.choose hl.choose_spec
  · have hl' : ∀ pid, l ≠ .reap pid := fun pid hpid => hl ⟨pid, hpid⟩
    have hused := used_step (step_transition hstep) hl' hi
    refine ⟨fun hfree => by simp [hused] at hfree, fun ⟨pid, _, hpid, _⟩ => ?_⟩
    exact absurd hpid (hl' pid)

/-- A pipeline of two commands, the first of which ends before `add_job` has run; the
handler is about to reap it. -/
def earlyExit : List Label :=
  [.readLine "a | b\n".toList fun _ => 0, .forks 100,
    .change 100 .exited, .forks 101, .proceed, .proceed, .deliver]

theorem accounting_earlyExit :
    let s := (exec (restrict Shell.step fun s l => s.undisturbed l = true) earlyExit {}).get
      (by decide +kernel)
    ∀ i, (s.table.jobs i).used = true → (s.table.jobs i).liveCount = s.liveIn i :=
  (accounting (.of_exec (Option.some_get _).symm)).1

end Shell

end SystemProgramming.MyShell
