import SystemProgramming.MyShell.LaunchFailure

/-!
The descriptors of a pipeline whose `pipe`, `fork`, `dup2` and `close` calls succeed.
Between two rounds of the loop the shell holds, besides the descriptors it was
started with, the read end of the last pipe and nothing else. From that come the
tables of all stages at `Execvp`, whatever numbers the kernel gives the pipes.

A child whose `execvp` fails closes a descriptor a second time in the code behind its
branch; where every `close` succeeds, the shell alone goes round the loop.
-/

namespace SystemProgramming.MyShell

open SystemProgramming.CLib

/-! ### The stages of a launch -/

/-- A child of the shell as it calls `Execvp`. -/
structure Stage where
  i : Nat
  argv : List CString
  fds : FdTable

/-- The loop of `launch_pipeline` in the shell from stage `f.i` on, when no call fails:
the stages it forks, and the table and the variables it leaves the loop with. -/
def launchStages (pidOf : Nat → Pid) :
    List CString → FdTable → LaunchFrame → List Stage × FdTable × LaunchFrame
  | [], fds, f => ([], fds, f)
  | segment :: rest, fds, f =>
      let argv := parseline segment
      if argv = [] then launchStages pidOf rest fds f.skip
      else
        let (fd, fds) := openPipe fds f
        let inChild := childBranch fds f fd (pidOf f.i)
        let inParent := afterFork fds f fd (pidOf f.i)
        let later := launchStages pidOf rest inParent.1 inParent.2
        ({ i := f.i, argv := argv, fds := inChild.1 } :: later.1, later.2)

/-- The stages are the children of the trace of all processes. -/
theorem ends_launchTrace (pidOf : List Nat → Pid) (rest : List CString) (proc : List Nat)
    (fds : FdTable) (f : LaunchFrame) :
    (launchTrace (fun _ => false) pidOf rest proc fds f).ends =
      let run := launchStages (fun i => pidOf (proc ++ [i])) rest fds f
      run.1.map (fun s => .execs (proc ++ [s.i]) s.i s.argv s.fds) ++
        [.leaves proc run.2.1 run.2.2] := by
  induction rest generalizing fds f with
  | nil => rfl
  | cons segment rest ih =>
      dsimp only [launchTrace, launchStages]
      split
      · exact ih fds f.skip
      · rw [if_neg (by simp), ih]
        rfl

/-- The shell leaves the loop as it does in its own run. -/
theorem launchLoop_eq_launchStages (o : LaunchOracle) (hpipe : ∀ i, o.pipeFails i = false)
    (hfork : ∀ i, o.forkFails i = false) (rest : List CString) (fds : FdTable)
    (f : LaunchFrame) (children : List Child) :
    ∃ children', launchLoop o rest fds f children =
      .done (launchStages o.pid rest fds f).2.1 (launchStages o.pid rest fds f).2.2
        children' := by
  induction rest generalizing fds f children with
  | nil => exact ⟨children, rfl⟩
  | cons segment rest ih =>
      dsimp only [launchLoop, launchStages]
      split
      · exact ih fds f.skip children
      · rw [if_neg (by simp [hpipe]), o.fork_of_ok (hfork f.i)]
        exact ih _ _ _

/-! ### The loop invariant -/

/-- Before stage `i` the shell holds what it owns and, at `prev_read`, the read end of
the pipe of the stage before; before the first stage and behind the last one
there is no such pipe. -/
structure Between (own fds : FdTable) (f : LaunchFrame) : Prop where
  outside : f.i = 0 ∨ f.nseg ≤ f.i → f.prevRead = -1
  inside : 0 < f.i → f.i < f.nseg → ∃ p : Nat, f.prevRead = p ∧ own.get p = none
  held : ∀ m : Nat, fds.get m =
    if (m : Int) = f.prevRead then some (.pipeRead (f.i - 1)) else own.get m

theorem Between.enter (own : FdTable) (segments : List CString) (bg : Bool) (cmdline : CString)
    (pids : Nat → Int) : Between own own (.enter segments bg cmdline pids) where
  outside _ := rfl
  inside h := absurd h (lt_irrefl 0)
  held m := (if_neg (by change (m : Int) ≠ -1; omega)).symm

/-- The table of stage `i` of `n` at `Execvp`. -/
def stageFile (own : FdTable) (n i m : Nat) : Option File :=
  if m = 0 ∧ 0 < i then some (.pipeRead (i - 1))
  else if m = 1 ∧ i + 1 < n then some (.pipeWrite i)
  else own.get m

theorem get_dup2 {t : FdTable} {fd : Nat} {file : File} (h : t.get fd = some file) (n m : Nat) :
    (t.dup2 fd n).get m = if m = n then some file else t.get m := by
  simp only [FdTable.dup2, if_neg (Int.natCast_nonneg fd).not_gt, Int.toNat_natCast, h,
    FdTable.get_install]

section Round

variable {own fds : FdTable} {f : LaunchFrame}

/-- The number of `prev_read` is not one the shell owns. -/
theorem Between.prev_free (h : Between own fds f) {p : Nat} (hp : f.prevRead = p) :
    own.get p = none := by
  have hinside : 0 < f.i ∧ f.i < f.nseg := by
    by_contra hout
    have := h.outside (by omega)
    omega
  obtain ⟨q, hq, hfree⟩ := h.inside hinside.1 hinside.2
  obtain rfl : p = q := by omega
  exact hfree

/-- Behind `Pipe` the shell holds two more descriptors, both new to it. -/
theorem Between.pipe (h : Between own fds f) :
    ∃ r w : Nat, r ≠ w ∧ own.get r = none ∧ own.get w = none ∧ (r : Int) ≠ f.prevRead ∧
      (w : Int) ≠ f.prevRead ∧ (fds.pipe f.i).1 = (↑r, ↑w) ∧
      ∀ m : Nat, (fds.pipe f.i).2.get m =
        if m = w then some (.pipeWrite f.i) else if m = r then some (.pipeRead f.i)
        else if (m : Int) = f.prevRead then some (.pipeRead (f.i - 1)) else own.get m := by
  obtain ⟨r, w, hrw, hr, hw, hends, hget⟩ := fds.pipe_spec f.i
  have hfree : ∀ m : Nat, fds.get m = none → (m : Int) ≠ f.prevRead ∧ own.get m = none := by
    intro m hm
    rw [h.held] at hm
    split at hm
    · simp at hm
    · exact ⟨‹_›, hm⟩
  refine ⟨r, w, hrw, (hfree r hr).2, (hfree w hw).2, (hfree r hr).1, (hfree w hw).1, hends, ?_⟩
  intro m
  rw [hget, h.held]

/-- `if (prev_read != -1) dup2 (prev_read, STDIN_FILENO)`, in a table that still holds
`prev_read`. -/
theorem Between.dupPrev (h : Between own fds f) (hn : f.i < f.nseg) {t : FdTable}
    (ht : ∀ p : Nat, f.prevRead = p → t.get p = some (.pipeRead (f.i - 1))) (m : Nat) :
    (if f.prevRead ≠ -1 then t.dup2 f.prevRead 0 else t).get m =
      if m = 0 ∧ 0 < f.i then some (.pipeRead (f.i - 1)) else t.get m := by
  rcases Nat.eq_zero_or_pos f.i with hi | hi
  · rw [if_neg (by simp [h.outside (.inl hi)]), if_neg (by omega)]
  · obtain ⟨p, hp, -⟩ := h.inside hi hn
    rw [if_pos (by omega), hp, get_dup2 (ht p hp)]
    simp only [hi, and_true]

/-- What a child of the loop calls `Execvp` with. -/
theorem Between.child (h : Between own fds f) (hn : f.i < f.nseg)
    (hopen : ∀ m ≤ 1, own.get m ≠ none) (self : Int) (m : Nat) :
    (childBranch (openPipe fds f).2 f (openPipe fds f).1 self).1.get m =
      stageFile own f.nseg f.i m := by
  -- no descriptor of a pipe is one of the first two
  have hnew : ∀ k : Nat, own.get k = none → 2 ≤ k := by
    intro k hk
    by_contra hlt
    exact hopen k (by omega) hk
  unfold stageFile
  by_cases hi : f.i + 1 < f.nseg
  · obtain ⟨r, w, hrw, hr, hw, hrp, hwp, hends, hget⟩ := h.pipe
    have hr2 := hnew r hr
    have hw2 := hnew w hw
    have hdup := h.dupPrev hn (t := (fds.pipe f.i).2) (by
      intro p hp
      rw [hget, if_neg (by omega), if_neg (by omega), if_pos hp.symm])
    simp only [openPipe, if_pos hi, childBranch, hends]
    have hdupw : ((if f.prevRead ≠ -1 then (fds.pipe f.i).2.dup2 f.prevRead 0
        else (fds.pipe f.i).2).get w) = some (.pipeWrite f.i) := by
      rw [hdup, if_neg (by omega), hget, if_pos rfl]
    rw [FdTable.get_close, FdTable.get_close, get_closePrev, get_dup2 hdupw, hdup, hget]
    -- what is closed again has got its number from the kernel
    split
    · obtain rfl : m = w := by omega
      rw [if_neg (by omega), if_neg (by omega), hw]
    split
    · obtain rfl : m = r := by omega
      rw [if_neg (by omega), if_neg (by omega), hr]
    split
    · have hfree := h.prev_free (Eq.symm ‹_›)
      have hm := hnew m hfree
      rw [if_neg (by omega), if_neg (by omega), hfree]
    split
    · rw [if_neg (by omega), if_pos (by omega)]
    · rw [if_neg (c := m = 1 ∧ _) (by omega)]
      split
      · rfl
      · rw [if_neg (by omega), if_neg (by omega)]
  · have hdup := h.dupPrev hn (t := fds) fun p hp => by rw [h.held, if_pos hp.symm]
    simp only [openPipe, if_neg hi, childBranch]
    rw [get_closePrev, hdup, h.held, if_neg (c := m = 1 ∧ _) (by omega)]
    split
    · have hfree := h.prev_free (Eq.symm ‹_›)
      have hm := hnew m hfree
      rw [if_neg (by omega), hfree]
    · rfl

/-- What one round of the loop leaves the shell with. -/
theorem Between.afterFork (h : Between own fds f) (pid : Int) :
    let next := MyShell.afterFork (openPipe fds f).2 f (openPipe fds f).1 pid
    Between own next.1 next.2 := by
  dsimp only
  have hnseg := afterFork_nseg (openPipe fds f).2 f (openPipe fds f).1 pid
  by_cases hi : f.i + 1 < f.nseg
  · obtain ⟨r, w, hrw, hr, hw, hrp, hwp, hends, hget⟩ := h.pipe
    simp only [openPipe, if_pos hi, MyShell.afterFork, hends] at hnseg ⊢
    refine ⟨fun hout => ?_, fun _ _ => ⟨r, rfl, hr⟩, fun m => ?_⟩
    · dsimp only at hout
      omega
    dsimp only
    rw [FdTable.get_close, get_closePrev, hget, Nat.add_sub_cancel]
    split
    · obtain rfl : m = w := by omega
      rw [if_neg (by omega), hw]
    split
    · rw [if_neg (by omega), h.prev_free (Eq.symm ‹_›)]
    rw [if_neg (by omega)]
    split
    · rw [if_pos (by omega)]
    · rw [if_neg (by omega)]
  · -- the last round closes `prev_read` and sets it to -1
    simp only [openPipe, if_neg hi, MyShell.afterFork] at hnseg ⊢
    refine ⟨fun _ => rfl, fun _ hn => ?_, fun m => ?_⟩
    · dsimp only at hn
      omega
    dsimp only
    rw [get_closePrev, h.held, if_neg (c := (m : Int) = -1) (by omega)]
    split
    · rw [h.prev_free (Eq.symm ‹_›)]
    · rfl

end Round

/-! ### The wiring -/

/-- The run of the loop, from the invariant of its rounds. -/
theorem Between.launchStages {own : FdTable} (hopen : ∀ m ≤ 1, own.get m ≠ none)
    (pidOf : Nat → Pid) {rest : List CString} (hrest : ∀ s ∈ rest, parseline s ≠ [])
    {fds : FdTable} {f : LaunchFrame} (hlen : f.i + rest.length = f.nseg)
    (h : Between own fds f) :
    let run := MyShell.launchStages pidOf rest fds f
    run.1.map Stage.i = List.range' f.i rest.length ∧
      (∀ s ∈ run.1, ∀ m, s.fds.get m = stageFile own f.nseg s.i m) ∧
      run.2.2.prevRead = -1 ∧ ∀ m, run.2.1.get m = own.get m := by
  induction rest generalizing fds f with
  | nil =>
      rw [List.length_nil] at hlen
      have hprev := h.outside (.inr (by omega))
      refine ⟨rfl, by simp [MyShell.launchStages], hprev, fun m => ?_⟩
      dsimp only [MyShell.launchStages]
      rw [h.held, if_neg (by omega)]
  | cons segment rest ih =>
      rw [List.length_cons] at hlen
      have hi := afterFork_i (openPipe fds f).2 f (openPipe fds f).1 (pidOf f.i)
      have hnseg := afterFork_nseg (openPipe fds f).2 f (openPipe fds f).1 (pidOf f.i)
      obtain ⟨hids, hfds, hprev, hshell⟩ := ih (fun s hs => hrest s (List.mem_cons_of_mem _ hs))
        (by omega) (h.afterFork (pidOf f.i))
      rw [hi] at hids
      rw [hnseg] at hfds
      dsimp only [MyShell.launchStages]
      rw [if_neg (hrest segment List.mem_cons_self)]
      refine ⟨?_, ?_, hprev, hshell⟩
      · rw [List.map_cons, List.length_cons, List.range'_succ, hids]
      · intro s hs
        rcases List.mem_cons.mp hs with rfl | hs
        · exact h.child (by omega) hopen (pidOf f.i)
        · exact hfds s hs

/-- A table in which some descriptor stands for `file`. -/
def Holds (fds : FdTable) (file : File) : Prop := ∃ m, fds.get m = some file

/-- A pipeline of `n` stages with every descriptor where it belongs. -/
structure Wired (own : FdTable) (n : Nat) (stages : List Stage) (shell : FdTable) : Prop where
  once : stages.map Stage.i = List.range n
  input : ∀ s ∈ stages, s.fds.get 0 =
    if s.i = 0 then own.get 0 else some (.pipeRead (s.i - 1))
  output : ∀ s ∈ stages, s.fds.get 1 =
    if s.i + 1 = n then own.get 1 else some (.pipeWrite s.i)
  others : ∀ s ∈ stages, ∀ m file, 2 ≤ m → s.fds.get m = some file → file.isPipe = false
  shell : NoPipes shell
  writeEnd : ∀ k, k + 1 < n → ∀ s ∈ stages, Holds s.fds (.pipeWrite k) ↔ s.i = k
  readEnd : ∀ k, k + 1 < n → ∀ s ∈ stages, Holds s.fds (.pipeRead k) ↔ s.i = k + 1

theorem holds_write_iff {own : FdTable} (hown : NoPipes own) {t : FdTable} {n i k : Nat}
    (ht : ∀ m, t.get m = stageFile own n i m) (hk : k + 1 < n) :
    Holds t (.pipeWrite k) ↔ i = k := by
  constructor
  · rintro ⟨m, hm⟩
    rw [ht, stageFile] at hm
    split at hm
    · simp at hm
    split at hm
    · simpa using hm
    · simpa [File.isPipe] using hown m _ hm
  · rintro rfl
    exact ⟨1, by rw [ht, stageFile, if_neg (by omega), if_pos ⟨rfl, hk⟩]⟩

theorem holds_read_iff {own : FdTable} (hown : NoPipes own) {t : FdTable} {n i k : Nat}
    (ht : ∀ m, t.get m = stageFile own n i m) :
    Holds t (.pipeRead k) ↔ i = k + 1 := by
  constructor
  · rintro ⟨m, hm⟩
    rw [ht, stageFile] at hm
    split at hm
    · simp only [Option.some.injEq, File.pipeRead.injEq] at hm
      omega
    split at hm
    · simp at hm
    · simpa [File.isPipe] using hown m _ hm
  · rintro rfl
    exact ⟨0, by rw [ht, stageFile, if_pos ⟨rfl, k.succ_pos⟩, Nat.add_sub_cancel]⟩

/-- Any number of stages is wired into one pipeline. -/
theorem launchStages_wired {segments : List CString} (hsegs : ∀ s ∈ segments, parseline s ≠ [])
    {fds : FdTable} (hopen : ∀ m ≤ 2, fds.get m ≠ none) (hfds : NoPipes fds)
    (pidOf : Nat → Pid) (bg : Bool) (cmdline : CString) (pids : Nat → Int) :
    let run := launchStages pidOf segments fds (.enter segments bg cmdline pids)
    Wired fds segments.length run.1 run.2.1 := by
  dsimp only
  obtain ⟨hids, hget, -, hshell⟩ := (Between.enter fds segments bg cmdline pids).launchStages
    (fun m hm => hopen m (by omega)) pidOf hsegs (Nat.zero_add _)
  generalize launchStages pidOf segments fds (.enter segments bg cmdline pids) = run at *
  -- the stages have the numbers below `nseg`, each once
  have hnum : ∀ s ∈ run.1, s.i < segments.length := by
    intro s hs
    have hmem := List.mem_map_of_mem (f := Stage.i) hs
    rw [hids] at hmem
    simpa [LaunchFrame.enter] using hmem
  constructor
  case once => rw [hids, List.range_eq_range']; rfl
  case input =>
    intro s hs
    rw [hget s hs, stageFile]
    split
    · rw [if_neg (by omega)]
    · rw [if_neg (by omega), if_pos (by omega)]
  case output =>
    intro s hs
    have hlt := hnum s hs
    rw [hget s hs, stageFile, if_neg (by omega)]
    have hn : (LaunchFrame.enter segments bg cmdline pids).nseg = segments.length := rfl
    rcases Nat.lt_or_eq_of_le (show s.i + 1 ≤ segments.length by omega) with hmid | hlast
    · rw [if_pos (by omega), if_neg (by omega)]
    · rw [if_neg (by omega), if_pos hlast]
  case others =>
    intro s hs m file hm hfile
    rw [hget s hs, stageFile, if_neg (by omega), if_neg (by omega)] at hfile
    exact hfds m file hfile
  case shell =>
    intro m file hfile
    rw [hshell] at hfile
    exact hfds m file hfile
  case writeEnd => exact fun k hk s hs => holds_write_iff hfds (hget s hs) hk
  case readEnd => exact fun k _ s hs => holds_read_iff hfds (hget s hs)

theorem noPipes_inherited :
    NoPipes [some (.inherited 0), some (.inherited 1), some (.inherited 2)] := by
  intro n file h
  rcases n with _ | _ | _ | n <;> cases h <;> rfl

theorem launchStages_wired_three :
    let run := launchStages (fun i => ⟨100 + i, hundred_add_pos i⟩)
      ["cat".toList, "sort".toList, "wc".toList]
      [some (.inherited 0), some (.inherited 1), some (.inherited 2)]
      (.enter ["cat".toList, "sort".toList, "wc".toList] false "cat | sort | wc".toList fun _ => 0)
    Wired [some (.inherited 0), some (.inherited 1), some (.inherited 2)] 3 run.1 run.2.1 := by
  have hsegs : ∀ s ∈ ["cat".toList, "sort".toList, "wc".toList], parseline s ≠ [] := by
    decide +kernel
  exact launchStages_wired hsegs (by decide) noPipes_inherited _ _ _ _

end SystemProgramming.MyShell
