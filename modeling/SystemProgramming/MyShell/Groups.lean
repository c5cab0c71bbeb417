import SystemProgramming.Library.Runs
import SystemProgramming.MyShell.LaunchFailure

/-!
How the processes of a pipeline come into one group. For each of them `setpgid` is
called twice, by the shell behind `Fork` and by the child in front of `Execvp`, and
nothing orders the two calls: the child may have turned into its command, or ended,
before the shell comes to its call, and the shell may have forked all the other
stages before the child comes to its own.

A process that has ended holds on to its pid and its group until it is reaped. SIGCHLD
is blocked all through the launch, so nobody is reaped here, and the group of the first
process is there for the others to join.
-/

namespace SystemProgramming.MyShell

open SystemProgramming.CLib SystemProgramming.Library

/-! ### Processes and groups -/

/-- How far a process has come in the branch `pid == 0` of `launch_pipeline`. -/
inductive Branch
  /-- Before its own call of `setpgid`. -/
  | forked
  /-- Between that call and `Execvp`. -/
  | grouped
  /-- In its command. -/
  | execed
  deriving DecidableEq

/-- A process with its group, 0 for the shell's own, and its copy of the variable
`pgid`. -/
structure Process where
  pid : Pid
  pgrp : Int := 0
  pgid : Int := 0
  branch : Branch := .forked
  ended : Bool := false
  deriving DecidableEq

/-- `if (pgid == 0) pgid = getpid();` -/
def Process.aim (p : Process) : Int := if p.pgid = 0 then p.pid else p.pgid

theorem Process.aim_ne_zero (p : Process) : p.aim ≠ 0 := by
  unfold aim
  split
  · exact p.pid.2.ne'
  · assumption

/-- `setpgid (pid, pgid)` for a process of the same session. The kernel refuses a group
that is neither the process itself nor has a member, and a process that has called
`execve`. -/
def setpgid (procs : List Process) (pid pgid : Int) : List Process :=
  if 0 < pgid ∧ (pgid = pid ∨ ∃ p ∈ procs, p.pgrp = pgid) then
    procs.map fun p =>
      if (p.pid : Int) = pid ∧ p.branch ≠ .execed then { p with pgrp := pgid } else p
  else procs

/-- The loop of `launch_pipeline` as far as groups go. `forked` is what `Fork` returned
until the shell has called `setpgid` for it. -/
structure Grouping where
  procs : List Process
  pgid : Int := 0
  i : Nat := 0
  forked : Option Int := none

inductive Move
  | fork
  /-- `if (pgid == 0) pgid = pid; setpgid (pid, pgid);` -/
  | shellSets
  /-- `setpgid (0, pgid)` in the child. -/
  | childSets (pid : Pid)
  | execs (pid : Pid)
  /-- The process exits or is killed. -/
  | ends (pid : Pid)

namespace Grouping

variable (o : LaunchOracle) (n : Nat)

/-- The kernel hands out no pid that is in use, for a process or for a group. -/
def fresh (t : Grouping) (pid : Pid) : Bool :=
  t.procs.all fun p => p.pid ≠ pid && p.pgrp ≠ pid

/-- Changes the process `pid`, if it has not ended and is at a place where it can. -/
def move (t : Grouping) (pid : Pid) (can : Process → Bool) (change : Process → Process) :
    Option Grouping :=
  if t.procs.any fun p => p.pid = pid && !p.ended && can p then
    some { t with procs := t.procs.map fun p => if p.pid = pid then change p else p }
  else none

/-- One step of the shell or of a child. `n` is the number of stages. -/
def step (t : Grouping) : Move → Option Grouping
  | .fork =>
      if t.forked = none ∧ t.i < n then
        if o.forkFails t.i then some { t with forked := some (-1) }
        else if t.fresh (o.pid t.i) then
          some { t with
            procs := t.procs ++ [{ pid := o.pid t.i, pgid := t.pgid }]
            forked := some (o.pid t.i : Int) }
        else none
      else none
  | .shellSets =>
      t.forked.map fun pid =>
        let pgid := if t.pgid = 0 then pid else t.pgid
        { procs := setpgid t.procs pid pgid, pgid := pgid, i := t.i + 1, forked := none }
  | .childSets pid =>
      (t.procs.find? fun p => p.pid = pid).bind fun p =>
        move { t with procs := setpgid t.procs pid p.aim } pid (fun p => p.branch = .forked)
          fun p => { p with pgid := p.aim, branch := .grouped }
  | .execs pid => t.move pid (fun p => p.branch = .grouped) fun p => { p with branch := .execed }
  | .ends pid => t.move pid (fun _ => true) fun p => { p with ended := true }

/-! ### What a step does -/

variable {o n} {t t' : Grouping} {pid : Pid} {old : List (Pid × Int)}

/-- What `setpgid` does to each process. -/
theorem setpgid_eq_map (procs : List Process) (pid pgid : Int) :
    setpgid procs pid pgid = procs.map fun p =>
      if (0 < pgid ∧ (pgid = pid ∨ ∃ q ∈ procs, q.pgrp = pgid)) ∧ (p.pid : Int) = pid ∧
        p.branch ≠ .execed then { p with pgrp := pgid } else p := by
  unfold setpgid
  by_cases hok : 0 < pgid ∧ (pgid = pid ∨ ∃ q ∈ procs, q.pgrp = pgid)
  · simp only [hok, true_and, if_true]
  · simp only [hok, false_and, if_false, List.map_id']

theorem move_spec {can : Process → Bool} {change : Process → Process}
    (hdistinct : (t.procs.map Process.pid).Nodup) (h : t.move pid can change = some t') :
    (∀ p ∈ t.procs, p.pid = pid → can p = true) ∧
      t' = { t with procs := t.procs.map fun p => if p.pid = pid then change p else p } := by
  unfold move at h
  split at h
  · rename_i hany
    obtain ⟨q, hq, hcan⟩ := List.any_eq_true.mp hany
    simp only [Bool.and_eq_true, decide_eq_true_eq] at hcan
    refine ⟨fun p hp hpid => ?_, (Option.some.inj h).symm⟩
    rw [List.inj_on_of_nodup_map hdistinct hp hq (hpid.trans hcan.1.1.symm)]
    exact hcan.2
  · cases h

/-- Its own call moves a child to the group it aims at, if there is one to join. -/
def Process.join (procs : List Process) (p : Process) : Process :=
  { p with
    pgrp := if 0 < p.aim ∧ (p.aim = p.pid ∨ ∃ q ∈ procs, q.pgrp = p.aim) then p.aim else p.pgrp
    pgid := p.aim
    branch := .grouped }

theorem step_childSets (hdistinct : (t.procs.map Process.pid).Nodup)
    (h : t.step o n (.childSets pid) = some t') :
    (∀ p ∈ t.procs, p.pid = pid → p.branch = .forked) ∧
      t' = { t with
        procs := t.procs.map fun p => if p.pid = pid then Process.join t.procs p else p } := by
  simp only [step] at h
  obtain ⟨c, hfind, hmove⟩ := Option.bind_eq_some_iff.mp h
  have hc : c ∈ t.procs := List.mem_of_find?_eq_some hfind
  have hcpid : c.pid = pid := by simpa using List.find?_some hfind
  have honly : ∀ p ∈ t.procs, p.pid = pid → p = c := fun p hp hpid =>
    List.inj_on_of_nodup_map hdistinct hp hc (hpid.trans hcpid.symm)
  rw [setpgid_eq_map] at hmove
  have hpids : (t.procs.map fun p =>
      if (0 < c.aim ∧ (c.aim = (pid : Int) ∨ ∃ q ∈ t.procs, q.pgrp = c.aim)) ∧
        (p.pid : Int) = pid ∧ p.branch ≠ .execed then { p with pgrp := c.aim } else p).map
        Process.pid = t.procs.map Process.pid := by
    rw [List.map_map]
    refine List.map_congr_left fun p _ => ?_
    simp only [Function.comp_apply]
    split <;> rfl
  obtain ⟨hcan, rfl⟩ := move_spec (hpids ▸ hdistinct) hmove
  have hbranch : ∀ p ∈ t.procs, p.pid = pid → p.branch = .forked := by
    intro p hp hpid
    have hp' := hcan _ (List.mem_map_of_mem hp)
    simp only [decide_eq_true_eq] at hp'
    split at hp' <;> exact hp' hpid
  refine ⟨hbranch, ?_⟩
  simp only [List.map_map, Grouping.mk.injEq, and_true]
  refine List.map_congr_left fun p hp => ?_
  by_cases hpid : p.pid = pid
  · obtain rfl := honly p hp hpid
    subst hpid
    simp only [Function.comp_apply, hbranch p hp rfl, ne_eq, reduceCtorEq, not_false_eq_true,
      and_true, Process.join]
    by_cases hok : 0 < p.aim ∧ (p.aim = (p.pid : Int) ∨ ∃ q ∈ t.procs, q.pgrp = p.aim)
    · simp only [if_pos hok, if_true]
      rfl
    · simp only [if_neg hok, if_true]
  · have hne : (p.pid : Int) ≠ pid := fun h => hpid (Subtype.ext h)
    simp [hpid, hne]

/-! ### The invariant -/

/-- What is known of a process whose pid and group are to be `e`. Only the one that has
just been forked may not be in its group yet. -/
structure Placed (o : LaunchOracle) (forked : Option Int) (p : Process) (e : Pid × Int) :
    Prop where
  pid : p.pid = e.1
  aim : groupOf p.aim = e.2
  pgrp : p.pgrp = e.2 ∨ p.pgrp = 0 ∧ p.branch = .forked ∧ forked = some (p.pid : Int)
  new : forked = some (p.pid : Int) → p.aim = o.fork 0

/-- How many stages have been forked. -/
def stages (t : Grouping) : Nat := t.i + t.forked.toList.length

/-- The processes are those there were before and those of the stages forked so far, all
of them in their groups or on the way there. -/
structure InGroups (o : LaunchOracle) (old : List (Pid × Int)) (t : Grouping) : Prop where
  distinct : (t.procs.map Process.pid).Nodup
  pgid : t.pgid = if t.i = 0 then 0 else o.fork 0
  forking : ∀ q, t.forked = some q → q = o.fork t.i
  placed : List.Forall₂ (Placed o t.forked) t.procs
    (old ++ (forkedFrom o (o.fork 0) 0 t.stages).map fun c => (c.pid, c.pgrp))
  leader : 0 < t.i → 0 < o.fork 0 → ∃ p ∈ t.procs, p.pgrp = o.fork 0

theorem groupOf_of_pos {g : Int} (h : 0 < g) : groupOf g = g := if_pos h

theorem groupOf_of_not_pos {g : Int} (h : ¬0 < g) : groupOf g = 0 := if_neg h

theorem forkedFrom_succ_right (o : LaunchOracle) (g : Int) (k : Nat) :
    forkedFrom o g 0 (k + 1) = forkedFrom o g 0 k ++
      if o.forkFails k then [] else [{ pid := o.pid k, pgrp := groupOf g }] := by
  unfold forkedFrom
  rw [List.range'_concat, List.filter_append, List.map_append]
  cases hk : o.forkFails k <;> simp [hk]

theorem exists_of_forall₂ {α β : Type*} {R : α → β → Prop} {l : List α} {u : List β}
    (h : List.Forall₂ R l u) {a : α} (ha : a ∈ l) : ∃ b ∈ u, R a b := by
  induction h with
  | nil => cases ha
  | cons hab _ ih =>
      obtain rfl | ha := List.mem_cons.mp ha
      · exact ⟨_, List.mem_cons_self, hab⟩
      · obtain ⟨b, hb, hR⟩ := ih ha
        exact ⟨b, List.mem_cons_of_mem _ hb, hR⟩

/-- A step that changes each process for itself. -/
theorem InGroups.map (h : InGroups o old t) {f : Process → Process}
    (hprocs : t'.procs = t.procs.map f) (hi : t'.i = t.i) (hpgid : t'.pgid = t.pgid)
    (hforked : t'.forked = t.forked) (hpid : ∀ p ∈ t.procs, (f p).pid = p.pid)
    (hplaced : ∀ p ∈ t.procs, ∀ e, Placed o t.forked p e → Placed o t.forked (f p) e)
    (hkept : ∀ p ∈ t.procs, p.pgrp = o.fork 0 → 0 < o.fork 0 → (f p).pgrp = o.fork 0) :
    InGroups o old t' := by
  have hpids : t'.procs.map Process.pid = t.procs.map Process.pid := by
    rw [hprocs, List.map_map]
    exact List.map_congr_left hpid
  have hstages : t'.stages = t.stages := by rw [stages, hi, hforked, stages]
  refine ⟨hpids ▸ h.distinct, by rw [hpgid, hi, h.pgid], ?_, ?_, fun hpos hlead => ?_⟩
  · rw [hforked, hi]
    exact h.forking
  · rw [hprocs, hforked, hstages, List.forall₂_map_left_iff]
    have hmem := (List.forall₂_and_left _ _).mpr ⟨fun _ hp => hp, h.placed⟩
    exact hmem.imp fun p e hp => hplaced p hp.1 e hp.2
  · obtain ⟨p, hp, hgrp⟩ := h.leader (hi ▸ hpos) hlead
    exact ⟨f p, hprocs ▸ List.mem_map_of_mem hp, hkept p hp hgrp hlead⟩

/-- Nothing but its `setpgid` and its `exec` matters of what a process does. -/
theorem Placed.of_eq {forked : Option Int} {p p' : Process} {e : Pid × Int}
    (h : Placed o forked p e) (hpid : p'.pid = p.pid) (hgrp : p'.pgrp = p.pgrp)
    (haim : p'.aim = p.aim) (hbranch : p'.branch = p.branch ∨ p.branch ≠ .forked) :
    Placed o forked p' e := by
  refine ⟨hpid.trans h.pid, haim ▸ h.aim, ?_, fun hnew => ?_⟩
  · obtain hin | ⟨hout, hb, hforked⟩ := h.pgrp
    · exact .inl (hgrp.trans hin)
    · obtain hsame | hne := hbranch
      · exact .inr ⟨hgrp.trans hout, hsame.trans hb, hpid ▸ hforked⟩
      · exact absurd hb hne
  · exact haim ▸ h.new (hpid ▸ hnew)

/-- Between two calls of `Fork` every process is in its group. -/
theorem Placed.pgrp_eq {p : Process} {e : Pid × Int} (h : Placed o none p e) :
    p.pgrp = e.2 :=
  h.pgrp.resolve_right fun hout => by simpa using hout.2.2

theorem InGroups.fork (h : InGroups o old t) (hstep : t.step o n .fork = some t') :
    InGroups o old t' := by
  simp only [step] at hstep
  split at hstep
  case isFalse => cases hstep
  case isTrue hguard =>
  obtain ⟨hnone, hi⟩ := hguard
  have hplaced := h.placed
  rw [hnone, stages, hnone] at hplaced
  split at hstep
  -- `fork` fails, and -1 is nobody's pid
  case isTrue hfails =>
    cases hstep
    refine ⟨h.distinct, h.pgid, fun q hq => ?_, ?_, h.leader⟩
    · cases hq
      exact (if_pos hfails).symm
    · have hstages : ({ t with forked := some (-1) } : Grouping).stages = t.i + 1 := rfl
      rw [hstages, forkedFrom_succ_right, if_pos hfails, List.append_nil]
      refine hplaced.imp fun p e hp => ⟨hp.pid, hp.aim, .inl hp.pgrp_eq, fun hnew => ?_⟩
      have hpos := p.pid.2
      have hneg := Option.some.inj hnew
      omega
  case isFalse hok =>
  split at hstep
  case isFalse => cases hstep
  case isTrue hfresh =>
    cases hstep
    have hfork : o.fork t.i = o.pid t.i := if_neg hok
    have hnew (p : Process) (hp : p ∈ t.procs) : p.pid ≠ o.pid t.i := by
      have hp' := List.all_eq_true.mp hfresh p hp
      simp only [Bool.and_eq_true, decide_eq_true_eq] at hp'
      exact hp'.1
    have haim : Process.aim { pid := o.pid t.i, pgid := t.pgid } = o.fork 0 := by
      unfold Process.aim
      simp only [h.pgid]
      by_cases hzero : t.i = 0
      · rw [hzero] at hfork ⊢
        rw [if_pos rfl, if_pos rfl, hfork]
      · rw [if_neg hzero, if_neg (o.fork_ne_zero 0)]
    refine ⟨?_, h.pgid, fun q hq => ?_, ?_, fun hpos hlead => ?_⟩
    · simp only [List.map_append, List.map_singleton]
      refine List.nodup_append.mpr ⟨h.distinct, List.nodup_singleton _, fun a ha b hb hab => ?_⟩
      obtain ⟨p, hp, rfl⟩ := List.mem_map.mp ha
      exact hnew p hp (hab.trans (List.mem_singleton.mp hb))
    · cases hq
      exact hfork.symm
    · have hstages : ({ t with
          procs := t.procs ++ [{ pid := o.pid t.i, pgid := t.pgid }]
          forked := some (o.pid t.i : Int) } : Grouping).stages = t.i + 1 := rfl
      rw [hstages, forkedFrom_succ_right, if_neg hok, List.map_append, ← List.append_assoc]
      refine List.rel_append ?_ (.cons ⟨rfl, ?_, .inr ⟨rfl, rfl, rfl⟩, fun _ => haim⟩ .nil)
      · have hmem := (List.forall₂_and_left _ _).mpr ⟨fun _ hp => hp, hplaced⟩
        refine hmem.imp fun p e hp => ⟨hp.2.pid, hp.2.aim, .inl hp.2.pgrp_eq, fun hpid => ?_⟩
        exact absurd (Subtype.ext (Option.some.inj hpid).symm) (hnew p hp.1)
      · exact congrArg groupOf haim
    · obtain ⟨p, hp, hgrp⟩ := h.leader hpos hlead
      exact ⟨p, List.mem_append_left _ hp, hgrp⟩

theorem InGroups.shellSets (h : InGroups o old t) (hstep : t.step o n .shellSets = some t') :
    InGroups o old t' := by
  simp only [step] at hstep
  obtain ⟨q, hq, rfl⟩ := Option.map_eq_some_iff.mp hstep
  have hfork : q = o.fork t.i := h.forking q hq
  have hgroup : (if t.pgid = 0 then q else t.pgid) = o.fork 0 := by
    rw [h.pgid]
    by_cases hzero : t.i = 0
    · rw [if_pos hzero, if_pos rfl, hfork, hzero]
    · rw [if_neg hzero, if_neg (o.fork_ne_zero 0)]
  simp only [hgroup]
  rw [setpgid_eq_map]
  have hplaced : List.Forall₂ (Placed o none) (t.procs.map fun p =>
      if (0 < o.fork 0 ∧ (o.fork 0 = q ∨ ∃ c ∈ t.procs, c.pgrp = o.fork 0)) ∧
        (p.pid : Int) = q ∧ p.branch ≠ .execed then { p with pgrp := o.fork 0 } else p)
      (old ++ (forkedFrom o (o.fork 0) 0 (t.i + 1)).map fun c => (c.pid, c.pgrp)) := by
    have hold := h.placed
    rw [stages, hq] at hold
    have hmem := (List.forall₂_and_left _ _).mpr ⟨fun _ hp => hp, hold⟩
    refine List.forall₂_map_left_iff.mpr (hmem.imp fun p e hp => ?_)
    obtain ⟨-, hp⟩ := hp
    by_cases hpid : (p.pid : Int) = q
    · have haim : p.aim = o.fork 0 := hp.new (by rw [hpid])
      have hin : p.pgrp ≠ e.2 → p.pgrp = 0 ∧ p.branch = .forked := fun hne =>
        ⟨(hp.pgrp.resolve_left hne).1, (hp.pgrp.resolve_left hne).2.1⟩
      split
      · rename_i hset
        exact ⟨hp.pid, hp.aim, .inl (by rw [← hp.aim, haim, groupOf_of_pos hset.1.1]),
          fun hnew => by cases hnew⟩
      · rename_i hkeep
        refine ⟨hp.pid, hp.aim, .inl ?_, fun hnew => by cases hnew⟩
        by_contra hne
        obtain ⟨hzero, hbranch⟩ := hin hne
        -- the call fails for want of a group only where the group is the shell's own
        have hpos : 0 < o.fork 0 := by
          by_contra hneg
          rw [← hp.aim, haim, groupOf_of_not_pos hneg] at hne
          exact hne hzero
        refine hkeep ⟨⟨hpos, ?_⟩, hpid, by rw [hbranch]; decide⟩
        rcases Nat.eq_zero_or_pos t.i with hi | hi
        · exact .inl (by rw [hfork, hi])
        · exact .inr (h.leader hi hpos)
    · rw [if_neg fun hset => hpid hset.2.1]
      refine ⟨hp.pid, hp.aim, .inl (hp.pgrp.resolve_right fun hout => ?_),
        fun hnew => by cases hnew⟩
      exact hpid (Option.some.inj hout.2.2).symm
  refine ⟨?_, (if_neg (Nat.succ_ne_zero t.i)).symm, (fun _ hnew => by cases hnew), hplaced,
    fun _ hpos => ?_⟩
  · have hpids : (t.procs.map fun p =>
        if (0 < o.fork 0 ∧ (o.fork 0 = q ∨ ∃ c ∈ t.procs, c.pgrp = o.fork 0)) ∧
          (p.pid : Int) = q ∧ p.branch ≠ .execed then { p with pgrp := o.fork 0 } else p).map
          Process.pid = t.procs.map Process.pid := by
      rw [List.map_map]
      refine List.map_congr_left fun p _ => ?_
      simp only [Function.comp_apply]
      split <;> rfl
    exact hpids ▸ h.distinct
  · have hfirst : ((o.pid 0, groupOf (o.fork 0)) : Pid × Int) ∈
        old ++ (forkedFrom o (o.fork 0) 0 (t.i + 1)).map fun c => (c.pid, c.pgrp) := by
      have hmem : ({ pid := o.pid 0, pgrp := groupOf (o.fork 0) } : Child) ∈
          forkedFrom o (o.fork 0) 0 (t.i + 1) :=
        mem_forkedFrom.mpr ⟨0, Nat.succ_pos _, (o.fork_pos_iff 0).mp hpos, rfl⟩
      exact List.mem_append_right _ (List.mem_map.mpr ⟨_, hmem, rfl⟩)
    obtain ⟨p, hp, hp'⟩ := exists_of_forall₂ hplaced.flip hfirst
    exact ⟨p, hp, hp'.pgrp_eq.trans (groupOf_of_pos hpos)⟩

theorem Process.aim_join (procs : List Process) (p : Process) :
    (Process.join procs p).aim = p.aim := by
  unfold Process.join
  exact if_neg p.aim_ne_zero

/-- The own call of a child brings it into its group, or finds it there. -/
theorem InGroups.placed_join (h : InGroups o old t) {p : Process} {e : Pid × Int}
    (hpe : Placed o t.forked p e) :
    Placed o t.forked (Process.join t.procs p) e := by
  have haim := Process.aim_join t.procs p
  refine ⟨hpe.pid, haim ▸ hpe.aim, .inl ?_, fun hnew => haim ▸ hpe.new hnew⟩
  simp only [Process.join]
  split
  · rename_i hset
    rw [← hpe.aim, groupOf_of_pos hset.1]
  · rename_i hkeep
    obtain hin | ⟨hzero, -, hforked⟩ := hpe.pgrp
    · exact hin
    · rw [hzero, ← hpe.aim]
      refine (groupOf_of_not_pos fun hpos => hkeep ⟨hpos, ?_⟩).symm
      -- the group exists: it is the child's own or that of the first process
      rw [hpe.new hforked] at hpos ⊢
      rcases Nat.eq_zero_or_pos t.i with hi | hi
      · exact .inl (by rw [h.forking _ hforked, hi])
      · exact .inr (h.leader hi hpos)

theorem InGroups.step (h : InGroups o old t) {m : Move} (hstep : t.step o n m = some t') :
    InGroups o old t' := by
  cases m with
  | fork => exact h.fork hstep
  | shellSets => exact h.shellSets hstep
  | childSets pid =>
      obtain ⟨-, rfl⟩ := step_childSets h.distinct hstep
      refine h.map rfl rfl rfl rfl (fun p _ => ?_) (fun p hp e hpe => ?_)
        fun p hp hgrp hpos => ?_
      · split <;> rfl
      · split
        · exact h.placed_join hpe
        · exact hpe
      · split
        · obtain ⟨e, -, hpe⟩ := exists_of_forall₂ h.placed hp
          have hin : p.pgrp = e.2 := hpe.pgrp.resolve_right fun hout => by omega
          have hjoin := (h.placed_join hpe).pgrp.resolve_right fun hout => by cases hout.2.1
          exact hjoin.trans (hin.symm.trans hgrp)
        · exact hgrp
  | execs pid =>
      obtain ⟨hcan, rfl⟩ := move_spec h.distinct hstep
      refine h.map rfl rfl rfl rfl (fun p _ => ?_) (fun p hp e hpe => ?_)
        fun p hp hgrp _ => ?_
      · split <;> rfl
      · split
        · have hbranch : p.branch = .grouped := by simpa using hcan p hp ‹_›
          exact hpe.of_eq rfl rfl rfl (.inr (by rw [hbranch]; decide))
        · exact hpe
      · split <;> exact hgrp
  | ends pid =>
      obtain ⟨-, rfl⟩ := move_spec h.distinct hstep
      refine h.map rfl rfl rfl rfl (fun p _ => ?_) (fun p hp e hpe => ?_)
        fun p hp hgrp _ => ?_
      · split <;> rfl
      · split
        · exact hpe.of_eq rfl rfl rfl (.inl rfl)
        · exact hpe
      · split <;> exact hgrp

/-! ### Every order of the calls -/

/-- The processes of earlier launches are where they belong. -/
def Settled (old : List Process) : Prop :=
  (old.map Process.pid).Nodup ∧ ∀ p ∈ old, p.pgrp = groupOf p.aim

theorem InGroups.enter {procs : List Process} (hold : Settled procs) (o : LaunchOracle) :
    InGroups o (procs.map fun p => (p.pid, p.pgrp)) { procs := procs } where
  distinct := hold.1
  pgid := rfl
  forking := fun _ hq => by cases hq
  placed := by
    have hnone : forkedFrom o (o.fork 0) 0 ({ procs := procs } : Grouping).stages = [] := rfl
    rw [hnone, List.map_nil, List.append_nil, List.forall₂_map_right_iff, List.forall₂_same]
    exact fun p hp => ⟨rfl, (hold.2 p hp).symm, .inl rfl, fun hnew => by cases hnew⟩
  leader := fun hpos => absurd hpos (Nat.lt_irrefl 0)

/-- **One group for a pipeline.** The first `fork` succeeds. Then, whatever the order of the calls
of `setpgid`, of the `exec`s and of the ends of the processes, and whichever other calls of
`fork` fail: no command of the pipeline runs outside the group of the first child, and when the
shell comes to `add_job` that group is the one it records, and the kernel has the processes it
had and the children of the launch, each of which is in that group. -/
theorem launch_groups {o : LaunchOracle} (hpipe : ∀ i, o.pipeFails i = false)
    (hfirst : o.forkFails 0 = false) {segments : List CString}
    (hsegs : ∀ s ∈ segments, parseline s ≠ []) (hne : segments ≠ [])
    (bg : Bool) (cmdline : CString) (stack : Nat → Int) (fds : FdTable) {procs : List Process}
    (hold : Settled procs) {t : Grouping}
    (h : Reachable (step o segments.length) anyStep { procs := procs } t) :
    (∀ p ∈ t.procs, p.branch = .execed →
      (p.pid, p.pgrp) ∈ procs.map (fun p => (p.pid, p.pgrp)) ∨ p.pgrp = o.pid 0) ∧
    (t.i = segments.length → t.forked = none → Settled t.procs ∧ t.pgid = o.pid 0 ∧
      ∃ fds' f' children,
        launchLoop o segments fds (.enter segments bg cmdline stack) [] =
          .done fds' f' children ∧
        f'.pgid = o.pid 0 ∧ (∀ c ∈ children, c.pgrp = o.pid 0) ∧
        t.procs.map (fun p => (p.pid, p.pgrp)) =
          procs.map (fun p => (p.pid, p.pgrp)) ++ children.map fun c => (c.pid, c.pgrp)) := by
  have hin : InGroups o (procs.map fun p => (p.pid, p.pgrp)) t :=
    h.invariant (.enter hold o) fun _ _ _ hin _ hstep => hin.step hstep
  have hfork : o.fork 0 = o.pid 0 := if_neg (by rw [hfirst]; exact Bool.false_ne_true)
  have hgroup : groupOf (o.fork 0) = o.pid 0 := by rw [hfork, groupOf_of_pos (o.pid 0).2]
  refine ⟨fun p hp hbranch => ?_,
    fun hend hnone => ⟨⟨hin.distinct, fun p hp => ?_⟩, ?_, ?_⟩⟩
  · obtain ⟨e, he, hpe⟩ := exists_of_forall₂ hin.placed hp
    have hgrp : p.pgrp = e.2 := hpe.pgrp.resolve_right fun hout => by
      rw [hbranch] at hout
      exact absurd hout.2.1 (by decide)
    rw [hpe.pid, hgrp]
    obtain he | he := List.mem_append.mp he
    · exact .inl he
    · obtain ⟨c, hc, rfl⟩ := List.mem_map.mp he
      obtain ⟨j, -, -, rfl⟩ := mem_forkedFrom.mp hc
      exact .inr hgroup
  · obtain ⟨e, -, hpe⟩ := exists_of_forall₂ hin.placed hp
    rw [hnone] at hpe
    rw [hpe.pgrp_eq, hpe.aim]
  · have hpos := List.length_pos_of_ne_nil hne
    rw [hin.pgid, if_neg (by omega), hfork]
  · obtain ⟨fds', f', hloop, -, hpgid, -⟩ := launchLoop_done o hsegs fds
      (f := .enter segments bg cmdline stack) (Nat.zero_add _) (fun j _ _ => hpipe j) (.inl hne) []
    have hsettled : settledPgid o (.enter segments bg cmdline stack) = o.fork 0 := if_pos rfl
    rw [hsettled] at hloop hpgid
    refine ⟨fds', f', _, hloop, hpgid.trans hfork, fun c hc => ?_, ?_⟩
    · obtain ⟨j, -, -, rfl⟩ := mem_forkedFrom.mp hc
      exact hgroup
    have hplaced := hin.placed
    have hstages : t.stages = segments.length := by simp [stages, hnone, hend]
    rw [hstages, hnone] at hplaced
    have heq : List.Forall₂ Eq (t.procs.map fun p => (p.pid, p.pgrp)) _ :=
      List.forall₂_map_left_iff.mpr
        (hplaced.imp fun _ _ hpe => Prod.ext hpe.pid hpe.pgrp_eq)
    rwa [List.forall₂_eq_eq_eq] at heq

/-- Pids from 100 on, and no call fails. -/
def calm : LaunchOracle where
  pipeFails _ := false
  forkFails _ := false
  pid i := ⟨100 + i, hundred_add_pos i⟩

/-- The first of two commands has run and ended before the shell calls `setpgid` for it,
and the second is still before its own call when the shell goes on to `add_job`. -/
def earlyAndLate : List Move :=
  [.fork, .childSets 100, .execs 100, .ends 100, .shellSets, .fork, .shellSets]

theorem launch_groups_earlyAndLate :
    let t := (exec (restrict (step calm 2) anyStep) earlyAndLate { procs := [] }).get
      (by decide +kernel)
    Settled t.procs ∧ t.pgid = 100 ∧ ∃ fds' f' children,
      launchLoop calm ["a".toList, "b".toList] []
        (.enter ["a".toList, "b".toList] true [] fun _ => 0) [] = .done fds' f' children ∧
      f'.pgid = 100 ∧ (∀ c ∈ children, c.pgrp = 100) ∧
      t.procs.map (fun p => (p.pid, p.pgrp)) = [] ++ children.map fun c => (c.pid, c.pgrp) :=
  (launch_groups (fun _ => rfl) rfl
    (by decide +kernel : ∀ s ∈ ["a".toList, "b".toList], parseline s ≠ []) (by decide) true []
    (fun _ => 0) [] ⟨by simp, by simp⟩ (.of_exec (Option.some_get _).symm)).2 (by decide +kernel)
    (by decide +kernel)

end Grouping

end SystemProgramming.MyShell
