import SystemProgramming.MyShell.Launch

/-!
Failing `execvp` calls. A child whose `execvp` fails is not ended: it falls out
of its branch into the code of its parent, forks the remaining stages once
more, and leaves the loop as a second shell. So a launch is contained exactly
when no stage fails.
-/

namespace SystemProgramming.MyShell

open SystemProgramming.CLib

variable (execFails : Nat → Bool) (pidOf : List Nat → Pid)

/-- Whatever fails, the process that runs the loop leaves it. -/
theorem launchTrace_leaves (rest : List CString) (proc : List Nat) (fds : FdTable)
    (f : LaunchFrame) :
    ∃ fds' f', ProcEnd.leaves proc fds' f' ∈
      (launchTrace execFails pidOf rest proc fds f).ends := by
  induction rest generalizing fds f with
  | nil => exact ⟨fds, f, by simp [launchTrace]⟩
  | cons segment rest ih =>
      simp only [launchTrace]
      split
      · exact ih fds f.skip
      · obtain ⟨fds', f', h⟩ := ih
          (afterFork (openPipe fds f).2 f (openPipe fds f).1 (pidOf (proc ++ [f.i]))).1
          (afterFork (openPipe fds f).2 f (openPipe fds f).1 (pidOf (proc ++ [f.i]))).2
        exact ⟨fds', f', List.mem_append_right _ h⟩

/-- The child of a stage whose `execvp` fails leaves the loop too. -/
theorem launchTrace_fallen {rest : List CString} (hrest : ∀ s ∈ rest, parseline s ≠ [])
    (proc : List Nat) (fds : FdTable) (f : LaunchFrame) {k : Nat} (hk : k < rest.length)
    (hfail : execFails (f.i + k) = true) :
    ∃ fds' f', ProcEnd.leaves (proc ++ [f.i + k]) fds' f' ∈
      (launchTrace execFails pidOf rest proc fds f).ends := by
  induction rest generalizing fds f k with
  | nil => simp at hk
  | cons segment rest ih =>
      simp only [launchTrace, if_neg (hrest segment (by simp))]
      cases k with
      | zero =>
          rw [Nat.add_zero] at hfail ⊢
          simp only [hfail, if_true]
          obtain ⟨fds', f', h⟩ := launchTrace_leaves execFails pidOf rest (proc ++ [f.i]) _ _
          exact ⟨fds', f', List.mem_append_left _ h⟩
      | succ k =>
          let inParent := afterFork (openPipe fds f).2 f (openPipe fds f).1
            (pidOf (proc ++ [f.i]))
          have hi : inParent.2.i + k = f.i + (k + 1) := by
            rw [afterFork_i]
            omega
          have hk' : k < rest.length := by simpa using hk
          obtain ⟨fds', f', h⟩ := ih (fun s hs => hrest s (by simp [hs])) inParent.1
            inParent.2 hk' (by rw [hi]; exact hfail)
          rw [hi] at h
          exact ⟨fds', f', List.mem_append_right _ h⟩

/-- When no stage fails, the process forks each remaining stage once, every child
runs its command, and nobody else leaves the loop. -/
theorem launchTrace_contained {rest : List CString} (hrest : ∀ s ∈ rest, parseline s ≠ [])
    (proc : List Nat) (fds : FdTable) (f : LaunchFrame)
    (hok : ∀ k < rest.length, execFails (f.i + k) = false) :
    (launchTrace execFails pidOf rest proc fds f).forks =
        (List.range' f.i rest.length).map (fun i => (proc, i)) ∧
      (∀ i ∈ List.range' f.i rest.length, ∃ argv fds', ProcEnd.execs (proc ++ [i]) i argv fds' ∈
        (launchTrace execFails pidOf rest proc fds f).ends) ∧
      ∃ fds' f', (launchTrace execFails pidOf rest proc fds f).ends.filter ProcEnd.isLeaves =
        [.leaves proc fds' f'] := by
  induction rest generalizing fds f with
  | nil => exact ⟨rfl, by simp, fds, f, rfl⟩
  | cons segment rest ih =>
      have hhead : execFails f.i = false := by simpa using hok 0 (by simp)
      let inParent := afterFork (openPipe fds f).2 f (openPipe fds f).1
        (pidOf (proc ++ [f.i]))
      obtain ⟨hforks, hexecs, fds', f', hleaves⟩ :=
        ih (fun s hs => hrest s (by simp [hs])) inParent.1 inParent.2 (fun k hk => by
          rw [afterFork_i, Nat.add_assoc, Nat.add_comm 1]
          exact hok (k + 1) (by simpa using hk))
      rw [afterFork_i] at hforks hexecs
      simp only [launchTrace, if_neg (hrest segment (by simp)), hhead, Bool.false_eq_true,
        if_false, List.nil_append, List.length_cons, List.range'_succ, List.map_cons]
      refine ⟨congrArg _ hforks, ?_, fds', f', ?_⟩
      · intro i hi
        rcases List.mem_cons.mp hi with rfl | hi
        · exact ⟨_, _, List.mem_append_left _ (List.mem_singleton_self _)⟩
        · obtain ⟨argv, fds'', h⟩ := hexecs i hi
          exact ⟨argv, fds'', List.mem_append_right _ h⟩
      · simpa [ProcEnd.isLeaves] using hleaves

/-- A launch of an accepted line is contained exactly when `execvp` succeeds for
all of its stages. -/
theorem launch_contained_iff {line : CString} {segments : List CString} {bg : Bool}
    (hparse : parseLine line = some (segments, bg)) (execFails : Nat → Bool)
    (pidOf : List Nat → Pid) (fds : FdTable) (cmdline : CString) (pids : Nat → Int) :
    Contained segments.length
        (launchTrace execFails pidOf segments [] fds (.enter segments bg cmdline pids)) ↔
      ∀ i < segments.length, execFails i = false := by
  have hsegs := (parseLine_runnable hparse).1
  constructor
  · intro h i hi
    by_contra hfail
    rw [Bool.not_eq_false] at hfail
    obtain ⟨fds', f', hmem⟩ := launchTrace_fallen execFails pidOf hsegs [] fds
      (.enter segments bg cmdline pids) hi (by simpa [LaunchFrame.enter] using hfail)
    obtain ⟨fds'', f'', hshell⟩ := h.shell
    have hleaves : ProcEnd.leaves ([] ++ [0 + i]) fds' f' ∈ [ProcEnd.leaves [] fds'' f''] := by
      rw [← hshell, List.mem_filter]
      exact ⟨hmem, rfl⟩
    simp at hleaves
  · intro hok
    obtain ⟨hforks, hexecs, hshell⟩ := launchTrace_contained execFails pidOf hsegs [] fds
      (.enter segments bg cmdline pids) (by simpa [LaunchFrame.enter] using hok)
    refine ⟨fun i hi => ?_, fun proc i hi => ?_, hshell⟩
    · have hstages : ((List.range' 0 segments.length).map
          (fun i => (([] : List Nat), i))).map Prod.snd = List.range' 0 segments.length := by
        simp
      rw [hforks]
      change List.count i (((List.range' 0 segments.length).map _).map Prod.snd) = 1
      rw [hstages]
      exact List.count_eq_one_of_mem (List.nodup_range') (by simpa using hi)
    · rw [hforks] at hi
      obtain ⟨j, hj, hpair⟩ := List.mem_map.mp hi
      obtain ⟨rfl, rfl⟩ := Prod.mk.inj hpair
      exact hexecs j hj

/-- A line `nosuch` whose command does not exist: the child becomes a second
shell. -/
theorem launch_not_contained :
    ¬ ∀ (line : CString) (segments : List CString) (bg : Bool),
      parseLine line = some (segments, bg) → ∀ (execFails : Nat → Bool)
        (pidOf : List Nat → Pid) (fds : FdTable) (cmdline : CString) (pids : Nat → Int),
        Contained segments.length
          (launchTrace execFails pidOf segments [] fds (.enter segments bg cmdline pids)) := by
  intro h
  have hparse : parseLine "nosuch\n".toList = some (["nosuch".toList], false) := by
    decide +kernel
  obtain ⟨fds, f, hshell⟩ := (h _ _ _ hparse (fun _ => true) (fun _ => 100)
    [] [] (fun _ => 0)).shell
  have htwo : ((launchTrace (fun _ => true) (fun _ => 100) ["nosuch".toList] [] []
      (.enter ["nosuch".toList] false [] fun _ => 0)).ends.filter ProcEnd.isLeaves).length =
        2 := by decide +kernel
  rw [hshell] at htwo
  simp at htwo

theorem launch_contained_two_stages :
    Contained 2 (launchTrace (fun _ => false) (fun _ => 100)
      ["ls".toList, "wc".toList] [] []
      (.enter ["ls".toList, "wc".toList] false "ls | wc".toList fun _ => 0)) := by
  have hparse : parseLine "ls | wc\n".toList = some (["ls".toList, "wc".toList], false) := by
    decide +kernel
  exact (launch_contained_iff hparse _ _ _ _ _).mpr fun _ _ => rfl

end SystemProgramming.MyShell
