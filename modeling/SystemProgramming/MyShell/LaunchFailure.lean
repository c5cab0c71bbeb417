import SystemProgramming.MyShell.Launch

/-!
Failing `pipe` and `fork` calls. The early return behind a failed `pipe` keeps
the read end of the previous pipe and forgets the children of the earlier
stages; a failed `fork` is entered into `pids` as -1 and counted as a process
of the job. What is left is when these slips do no harm.
-/

namespace SystemProgramming.MyShell

open SystemProgramming.CLib

/-! ### The pipe descriptors the shell holds -/

def NoPipes (fds : FdTable) : Prop :=
  ∀ n file, fds.get n = some file → file.isPipe = false

/-- `fd` is open on the read end of a pipe, and no other descriptor on a pipe. -/
def HoldsOne (fds : FdTable) (fd : Int) : Prop :=
  ∃ r : Nat, fd = r ∧ (∃ k, fds.get r = some (.pipeRead k)) ∧
    ∀ n file, fds.get n = some file → file.isPipe = true → n = r

/-- The loop invariant: the shell holds `prev_read` and no other pipe descriptor. -/
def Held (fds : FdTable) (prevRead : Int) : Prop :=
  (prevRead = -1 ∧ NoPipes fds) ∨ HoldsOne fds prevRead

theorem get_closePrev (fds : FdTable) (fd : Int) (m : Nat) :
    (if fd ≠ -1 then fds.close fd else fds).get m =
      if (m : Int) = fd then none else fds.get m := by
  by_cases h : fd = -1
  · subst h
    rw [if_neg (by simp), if_neg (by omega)]
  · rw [if_pos h, FdTable.get_close]

theorem Held.closePrev {fds : FdTable} {fd : Int} (h : Held fds fd) :
    NoPipes (if fd ≠ -1 then fds.close fd else fds) := by
  intro n file hget
  rw [get_closePrev] at hget
  split at hget
  · simp at hget
  rename_i hn
  rcases h with ⟨-, hno⟩ | ⟨r, rfl, -, honly⟩
  · exact hno n file hget
  · by_contra hpipe
    rw [Bool.not_eq_false] at hpipe
    exact hn (by rw [honly n file hget hpipe])

/-- What one round of the loop leaves the shell with. -/
theorem Held.afterFork {fds : FdTable} {f : LaunchFrame} (h : Held fds f.prevRead)
    (pid : Int) :
    let opened := openPipe fds f
    let next := MyShell.afterFork opened.2 f opened.1 pid
    (f.i + 1 < f.nseg → HoldsOne next.1 next.2.prevRead) ∧
      (¬f.i + 1 < f.nseg → next.2.prevRead = -1 ∧ NoPipes next.1) := by
  dsimp only
  constructor
  · intro hi
    obtain ⟨r, w, hrw, hr, hw, hends, hget⟩ := FdTable.pipe_spec fds f.i
    have hprev : (r : Int) ≠ f.prevRead := by
      rintro heq
      rcases h with ⟨hneg, -⟩ | ⟨p, hp, ⟨k, hk⟩, -⟩
      · omega
      · have : r = p := by omega
        rw [← this, hr] at hk
        simp at hk
    simp only [openPipe, if_pos hi, MyShell.afterFork, hends]
    refine ⟨r, rfl, ⟨f.i, ?_⟩, fun n file hn hpipe => ?_⟩
    · rw [FdTable.get_close, if_neg (by omega), get_closePrev, if_neg hprev, hget,
        if_neg hrw, if_pos rfl]
    · rw [FdTable.get_close] at hn
      split at hn
      · simp at hn
      rename_i hnw
      rw [get_closePrev] at hn
      split at hn
      · simp at hn
      rename_i hnp
      rw [hget, if_neg (by omega)] at hn
      split at hn
      · assumption
      rcases h with ⟨-, hno⟩ | ⟨p, hp, -, honly⟩
      · simp [hno n file hn] at hpipe
      · exact absurd (by rw [hp, honly n file hn hpipe]) hnp
  · intro hi
    simp only [openPipe, if_neg hi, MyShell.afterFork]
    exact ⟨trivial, h.closePrev⟩

/-! ### What the loop does -/

theorem LaunchOracle.fork_ne_zero (o : LaunchOracle) (i : Nat) : o.fork i ≠ 0 := by
  unfold fork
  split
  · decide
  · exact (o.pid i).2.ne'

/-- The children of the stages from `i` on, in group `g`. -/
def forkedFrom (o : LaunchOracle) (g : Int) (i k : Nat) : List Child :=
  ((List.range' i k).filter fun j => !o.forkFails j).map fun j =>
    { pid := o.pid j, pgrp := groupOf g }

theorem forkedFrom_succ (o : LaunchOracle) (g : Int) (i k : Nat) :
    forkedFrom o g i (k + 1) =
      (if o.forkFails i then [] else [{ pid := o.pid i, pgrp := groupOf g }]) ++
        forkedFrom o g (i + 1) k := by
  unfold forkedFrom
  rw [List.range'_succ, List.filter_cons]
  cases o.forkFails i <;> rfl

theorem length_forkedFrom (o : LaunchOracle) (g : Int) (i k : Nat) :
    (forkedFrom o g i k).length = k ↔ ∀ j, i ≤ j → j < i + k → o.forkFails j = false := by
  have h := List.length_filter_eq_length_iff (l := List.range' i k) (p := fun j => !o.forkFails j)
  simpa [forkedFrom, and_imp] using h

/-- The group of the job, settled by the first stage that is forked. -/
def settledPgid (o : LaunchOracle) (f : LaunchFrame) : Int :=
  if f.pgid = 0 then o.fork f.i else f.pgid

/-- Without a failing `pipe` the loop runs to its end, and keeps `Held`. -/
theorem launchLoop_done (o : LaunchOracle) {rest : List CString}
    (hrest : ∀ s ∈ rest, parseline s ≠ []) (fds : FdTable) {f : LaunchFrame}
    (hlen : f.i + rest.length = f.nseg)
    (hpipes : ∀ j, f.i ≤ j → j + 1 < f.nseg → o.pipeFails j = false)
    (hg : rest ≠ [] ∨ f.pgid ≠ 0) (children : List Child) :
    ∃ fds' f', launchLoop o rest fds f children =
        .done fds' f' (children ++ forkedFrom o (settledPgid o f) f.i rest.length) ∧
      (Held fds f.prevRead → Held fds' f'.prevRead) ∧ f'.pgid = settledPgid o f ∧
      f'.nseg = f.nseg ∧ ∀ j, f'.pids j = if f.i ≤ j ∧ j < f.nseg then o.fork j else f.pids j := by
  induction rest generalizing fds f children with
  | nil =>
      have hpgid : f.pgid ≠ 0 := hg.resolve_left (by simp)
      refine ⟨fds, f, by simp [launchLoop, forkedFrom], id, by simp [settledPgid, hpgid], rfl,
        ?_⟩
      intro j
      rw [if_neg (by simp at hlen; omega)]
  | cons segment rest ih =>
      have hpipe : ¬(f.i + 1 < f.nseg ∧ o.pipeFails f.i = true) := by
        rintro ⟨hi, hfail⟩
        rw [hpipes f.i le_rfl hi] at hfail
        simp at hfail
      simp only [launchLoop, if_neg (hrest segment (by simp)), if_neg hpipe]
      have hheld (h : Held fds f.prevRead) := h.afterFork (o.fork f.i)
      dsimp only at hheld
      have hi := afterFork_i (openPipe fds f).2 f (openPipe fds f).1 (o.fork f.i)
      have hnseg := afterFork_nseg (openPipe fds f).2 f (openPipe fds f).1 (o.fork f.i)
      have hpgid : (afterFork (openPipe fds f).2 f (openPipe fds f).1 (o.fork f.i)).2.pgid =
          settledPgid o f := afterFork_pgid _ _ _ _
      have hpids := afterFork_pids (openPipe fds f).2 f (openPipe fds f).1 (o.fork f.i)
      generalize afterFork (openPipe fds f).2 f (openPipe fds f).1 (o.fork f.i) = next at *
      have hne : next.2.pgid ≠ 0 := by
        rw [hpgid]
        unfold settledPgid
        split
        · exact o.fork_ne_zero _
        · assumption
      -- the first `fork` settles the group, also when it fails
      have hsettled : settledPgid o next.2 = settledPgid o f := by
        rw [← hpgid]
        exact if_neg hne
      have hheld' (h : Held fds f.prevRead) : Held next.1 next.2.prevRead := by
        by_cases hmid : f.i + 1 < f.nseg
        · exact .inr ((hheld h).1 hmid)
        · exact .inl ((hheld h).2 hmid)
      rw [List.length_cons] at hlen
      obtain ⟨fds', f', hloop, hend, hpgid', hnseg', hpids'⟩ :=
        ih (fun s hs => hrest s (by simp [hs])) next.1 (by omega)
          (fun j hj hj' => hpipes j (by omega) (by omega)) (.inr hne)
          (children ++ if o.forkFails f.i then []
            else [{ pid := o.pid f.i, pgrp := groupOf next.2.pgid }])
      rw [hsettled, hi] at hloop
      refine ⟨fds', f', ?_, hend ∘ hheld', hpgid'.trans hsettled, hnseg'.trans hnseg,
        fun j => ?_⟩
      · rw [hloop, List.length_cons, forkedFrom_succ, hpgid, List.append_assoc]
      · rw [hpids' j, hpids, hi, hnseg, Function.update_apply]
        by_cases hj : j = f.i
        · subst hj
          rw [if_neg (by omega), if_pos rfl, if_pos ⟨le_rfl, by omega⟩]
        · rw [if_neg hj]
          by_cases hlt : f.i ≤ j ∧ j < f.nseg
          · rw [if_pos (by omega), if_pos hlt]
          · rw [if_neg (by omega), if_neg hlt]

/-- A failing `pipe` behind the first stage returns with the read end of the previous
pipe open. -/
theorem launchLoop_returns (o : LaunchOracle) (hzero : o.pipeFails 0 = false)
    {rest : List CString} (hrest : ∀ s ∈ rest, parseline s ≠ []) {fds : FdTable}
    {f : LaunchFrame} (hlen : f.i + rest.length = f.nseg) (hheld : Held fds f.prevRead)
    (hholds : 0 < f.i → HoldsOne fds f.prevRead)
    (hpipe : ∃ j, f.i ≤ j ∧ j + 1 < f.nseg ∧ o.pipeFails j = true) (children : List Child) :
    ∃ fds' f' children', launchLoop o rest fds f children = .returns fds' f' children' ∧
      HoldsOne fds' f'.prevRead := by
  obtain ⟨j, hij, hj, hfail⟩ := hpipe
  induction rest generalizing fds f children with
  | nil =>
      simp at hlen
      omega
  | cons segment rest ih =>
      simp only [launchLoop, if_neg (hrest segment (by simp))]
      split
      · rename_i hnow
        have hi : 0 < f.i := by
          rcases Nat.eq_zero_or_pos f.i with hi | hi
          · rw [hi, hzero] at hnow
            simp at hnow
          · exact hi
        exact ⟨fds, f, children, rfl, hholds hi⟩
      · rename_i hnow
        have hne : j ≠ f.i := by
          rintro rfl
          exact hnow ⟨hj, hfail⟩
        obtain ⟨hmore, -⟩ := hheld.afterFork (o.fork f.i)
        have hnext := hmore (by omega)
        rw [List.length_cons] at hlen
        refine ih (fun s hs => hrest s (by simp [hs])) ?_ (.inr hnext) (fun _ => hnext) _ ?_ ?_
        · rw [afterFork_i, afterFork_nseg]
          omega
        · rw [afterFork_i]
          omega
        · rwa [afterFork_nseg]

/-! ### When a partial launch is handled -/

/-- What the shell owes the processes and descriptors of a launch, however far it
got: every child is recorded in the job it added or its group has been killed,
the job counts the children that exist, and no pipe stays open. -/
structure LaunchSafe (r : LaunchResult) : Prop where
  recorded : ∀ c ∈ r.children,
    (∃ i, r.added = some i ∧ (r.table.jobs i).used = true ∧
      (c.pid : Int) ∈ (r.table.jobs i).recorded) ∨ r.killed = some c.pgrp
  counted : ∀ i, r.added = some i → (r.table.jobs i).npids = r.children.length ∧
    (r.table.jobs i).liveCount = r.children.length ∧ 0 < (r.table.jobs i).pgid
  closed : NoPipes r.fds

/-- The failures that do no harm, for `n` stages: `pipe` fails before anything has
been forked; or `pipe` never fails and either `fork` does not, or the job table
is `full`, so that no job is added, and the group that is killed then holds all
children there are. -/
def HarmlessFailures (o : LaunchOracle) (n : Nat) (full : Prop) : Prop :=
  (1 < n ∧ o.pipeFails 0 = true) ∨
    (∀ i, i + 1 < n → o.pipeFails i = false) ∧
      ((∀ i < n, o.forkFails i = false) ∨
        full ∧ (o.forkFails 0 = false ∨ ∀ i < n, o.forkFails i = true))

/-- The two ways `launch_pipeline` ends behind its loop. -/
theorem launchFinish_cases (table : JobTable) (fds : FdTable) (f : LaunchFrame)
    (children : List Child) :
    let fds' := if f.prevRead ≠ -1 then fds.close f.prevRead else fds
    ((∀ i, (table.jobs i).used = true) ∧ launchFinish table fds f children =
      { table := table, fds := fds', children := children, added := none,
        killed := if f.pgid > 0 then some f.pgid else none }) ∨
    ∃ (i : Slot) (t : JobTable), (table.jobs i).used = false ∧
      (t.jobs i).used = true ∧ (t.jobs i).pgid = f.pgid ∧ (t.jobs i).npids = f.nseg ∧
      (t.jobs i).liveCount = f.nseg ∧
      (t.jobs i).recorded = (List.range f.nseg).map f.pids ∧
      launchFinish table fds f children =
        { table := t, fds := fds', children := children, added := some i, killed := none } := by
  dsimp only
  unfold launchFinish
  rcases table.addJob_cases f.pgid f.pids f.nseg (if f.bg then .background else .foreground)
    f.cmdline with ⟨hfull, hadd⟩ | ⟨i, t, hfree, hadd, -, -, hjob⟩
  · rw [hadd]
    exact .inl ⟨hfull, rfl⟩
  · rw [hadd]
    refine .inr ⟨i, t.updateFgPgid, hfree, ?_⟩
    rw [JobTable.jobs_updateFgPgid, hjob]
    exact ⟨rfl, rfl, rfl, rfl, List.take_of_length_le (by simp), rfl⟩

theorem mem_forkedFrom {o : LaunchOracle} {g : Int} {n : Nat} {c : Child} :
    c ∈ forkedFrom o g 0 n ↔
      ∃ j < n, o.forkFails j = false ∧ { pid := o.pid j, pgrp := groupOf g } = c := by
  simp [forkedFrom, and_assoc]

theorem HoldsOne.not_noPipes {fds : FdTable} {fd : Int} (h : HoldsOne fds fd) :
    ¬NoPipes fds := by
  obtain ⟨r, -, ⟨k, hk⟩, -⟩ := h
  intro hno
  simpa [File.isPipe] using hno r _ hk

theorem LaunchOracle.fork_of_ok {o : LaunchOracle} {j : Nat} (h : o.forkFails j = false) :
    o.fork j = o.pid j := by
  simp [fork, h]

theorem LaunchOracle.fork_pos_iff (o : LaunchOracle) (j : Nat) :
    0 < o.fork j ↔ o.forkFails j = false := by
  unfold fork
  cases o.forkFails j with
  | false => simpa using (o.pid j).2
  | true => simp

theorem launchFinish_safe_iff (o : LaunchOracle) (table : JobTable) {fds : FdTable}
    {f : LaunchFrame} (hheld : Held fds f.prevRead) (hpos : 0 < f.nseg)
    (hpgid : f.pgid = o.fork 0) (hpids : ∀ j < f.nseg, f.pids j = o.fork j) :
    LaunchSafe (launchFinish table fds f (forkedFrom o (o.fork 0) 0 f.nseg)) ↔
      (∀ i < f.nseg, o.forkFails i = false) ∨
        (∀ i, (table.jobs i).used = true) ∧
          (o.forkFails 0 = false ∨ ∀ i < f.nseg, o.forkFails i = true) := by
  have hlength := length_forkedFrom o (o.fork 0) 0 f.nseg
  simp only [Nat.zero_add, Nat.zero_le, true_implies] at hlength
  rcases launchFinish_cases table fds f (forkedFrom o (o.fork 0) 0 f.nseg) with
    ⟨hfull, heq⟩ | ⟨i, t, hfree, hused, hjpgid, hnpids, hlive, hrecorded, heq⟩
  · rw [heq, hpgid]
    constructor
    -- without a slot the children must be killed, and `kill` needs a group above zero
    · rintro ⟨hrec, -, -⟩
      refine .inr ⟨hfull, ?_⟩
      by_contra hcon
      push Not at hcon
      obtain ⟨hfail, j, hj, hok⟩ := hcon
      have hok : o.forkFails j = false := by simpa using hok
      rcases hrec _ (mem_forkedFrom.mpr ⟨j, hj, hok, rfl⟩) with ⟨i, hi, -⟩ | hkill
      · simp at hi
      · have hneg : ¬0 < o.fork 0 := fun h => hfail ((o.fork_pos_iff 0).mp h)
        simp [hneg] at hkill
    · intro hcond
      refine ⟨fun c hc => ?_, by simp, hheld.closePrev⟩
      obtain ⟨j, hj, hok, rfl⟩ := mem_forkedFrom.mp hc
      have hzero : o.forkFails 0 = false := by
        rcases hcond with hall | ⟨-, hzero | hnone⟩
        · exact hall 0 hpos
        · exact hzero
        · simp [hnone j hj] at hok
      have hgroup : 0 < o.fork 0 := (o.fork_pos_iff 0).mpr hzero
      exact .inr (by simp [groupOf, hgroup])
  · rw [heq]
    constructor
    · rintro ⟨-, hcount, -⟩
      exact .inl (hlength.mp ((hcount i rfl).1.symm.trans hnpids))
    · rintro (hall | ⟨hfull, -⟩)
      · refine ⟨fun c hc => ?_, fun k hk => ?_, hheld.closePrev⟩
        · obtain ⟨j, hj, hok, rfl⟩ := mem_forkedFrom.mp hc
          refine .inl ⟨i, rfl, hused, ?_⟩
          rw [hrecorded]
          exact List.mem_map.mpr ⟨j, List.mem_range.mpr hj, by
            rw [hpids j hj, o.fork_of_ok hok]⟩
        · obtain rfl := Option.some.inj hk
          have hn := (hlength.mpr hall).symm
          exact ⟨hnpids.trans hn, hlive.trans hn, by
            rw [hjpgid, hpgid]
            exact (o.fork_pos_iff 0).mpr (hall 0 hpos)⟩
      · simp [hfull i] at hfree

/-- A partial launch is handled exactly when its failures are harmless. -/
theorem launchPipeline_safe_iff {line : CString} {segments : List CString} {bg : Bool}
    (hparse : parseLine line = some (segments, bg)) (hne : segments ≠ [])
    (o : LaunchOracle) (table : JobTable) (fds : FdTable) (hfds : NoPipes fds)
    (cmdline : CString) (pids : Nat → Int) :
    LaunchSafe (launchPipeline o table fds (.enter segments bg cmdline pids)) ↔
      HarmlessFailures o segments.length (∀ i, (table.jobs i).used = true) := by
  have hsegs := (parseLine_runnable hparse).1
  have hpos : 0 < segments.length := List.length_pos_of_ne_nil hne
  have hheld : Held fds (LaunchFrame.enter segments bg cmdline pids).prevRead :=
    .inl ⟨rfl, hfds⟩
  unfold launchPipeline HarmlessFailures
  by_cases hpipes : ∀ j, j + 1 < segments.length → o.pipeFails j = false
  · obtain ⟨fds', f', hloop, hend, hpgid, hnseg, hpids⟩ :=
      launchLoop_done o hsegs fds (f := .enter segments bg cmdline pids) (Nat.zero_add _)
        (fun j _ hj => hpipes j hj) (.inl hne) []
    have hnseg : f'.nseg = segments.length := hnseg
    have hzero : ¬(1 < segments.length ∧ o.pipeFails 0 = true) := by
      rintro ⟨hlen, hfail⟩
      simp [hpipes 0 hlen] at hfail
    rw [show (LaunchFrame.enter segments bg cmdline pids).segments = segments from rfl, hloop,
      or_iff_right hzero, and_iff_right hpipes, ← hnseg]
    refine launchFinish_safe_iff o table (hend hheld) (hnseg ▸ hpos) hpgid fun j hj => ?_
    rw [hpids j]
    exact if_pos ⟨Nat.zero_le j, hnseg.subst hj⟩
  · have hsome : ∃ j, j + 1 < segments.length ∧ o.pipeFails j = true := by
      push Not at hpipes
      simpa using hpipes
    obtain ⟨k, hk, hkfail⟩ := hsome
    rw [show (LaunchFrame.enter segments bg cmdline pids).segments = segments from rfl]
    by_cases hzero : o.pipeFails 0 = true
    · have hfirst : launchLoop o segments fds (.enter segments bg cmdline pids) [] =
          .returns fds (.enter segments bg cmdline pids) [] := by
        obtain ⟨segment, rest, rfl⟩ := List.exists_cons_of_ne_nil hne
        rw [launchLoop, if_neg (hsegs segment (by simp))]
        exact if_pos ⟨(Nat.succ_le_succ (Nat.zero_le k)).trans_lt hk, hzero⟩
      rw [hfirst]
      exact iff_of_true ⟨by simp, by simp, hfds⟩ (.inl ⟨by omega, hzero⟩)
    -- a later `pipe` returns at once, with the read end of the one before it open
    · obtain ⟨fds', f', children, hloop, hholds⟩ := launchLoop_returns o
        (by simpa using hzero) hsegs (Nat.zero_add _) hheld (fun h => absurd h (lt_irrefl 0))
        ⟨k, Nat.zero_le k, hk, hkfail⟩ []
      rw [hloop]
      refine iff_of_false (fun h => hholds.not_noPipes h.closed) ?_
      rintro (h | h)
      · exact hzero h.2
      · exact hpipes h.1

theorem hundred_add_pos (i : Nat) : (0 : Int) < 100 + i := by omega

theorem launchPipeline_safe_two_stages :
    LaunchSafe (launchPipeline
      { pipeFails := fun _ => false, forkFails := fun _ => false,
        pid := fun i => ⟨100 + i, hundred_add_pos i⟩ } {} []
      (.enter ["ls".toList, "wc".toList] false "ls | wc".toList fun _ => 0)) := by
  have hparse : parseLine "ls | wc\n".toList = some (["ls".toList, "wc".toList], false) := by
    decide +kernel
  exact (launchPipeline_safe_iff hparse (by simp) _ _ _ (by simp [NoPipes, FdTable.get]) _ _).mpr
    (.inr ⟨fun _ _ => rfl, .inl fun _ _ => rfl⟩)

/-- A line `ls` whose `fork` fails: the job counts a process that does not exist. -/
theorem launchPipeline_not_safe :
    ¬ ∀ (line : CString) (segments : List CString) (bg : Bool),
      parseLine line = some (segments, bg) → segments ≠ [] → ∀ (o : LaunchOracle)
        (table : JobTable) (fds : FdTable), NoPipes fds → ∀ (cmdline : CString)
        (pids : Nat → Int),
        LaunchSafe (launchPipeline o table fds (.enter segments bg cmdline pids)) := by
  intro h
  have hparse : parseLine "ls\n".toList = some (["ls".toList], false) := by decide +kernel
  let o : LaunchOracle :=
    { pipeFails := fun _ => false, forkFails := fun _ => true, pid := fun _ => 100 }
  have hcount := (h _ _ _ hparse (by simp) o {} [] (by simp [NoPipes, FdTable.get]) []
    fun _ => 0).counted 0 (by decide +kernel)
  have hnpids : ((launchPipeline o {} []
      (.enter ["ls".toList] false [] fun _ => 0)).table.jobs 0).npids = 1 := by decide +kernel
  have hchildren : (launchPipeline o {} []
      (.enter ["ls".toList] false [] fun _ => 0)).children.length = 0 := by decide +kernel
  rw [hnpids, hchildren] at hcount
  simp at hcount

end SystemProgramming.MyShell
