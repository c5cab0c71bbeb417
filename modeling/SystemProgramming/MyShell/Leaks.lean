import SystemProgramming.MyShell.Transitions
import SystemProgramming.MyShell.Wiring

/-!
The descriptors of the shell over a whole session. A launch opens two descriptors for
each pipe and closes them again, whatever becomes of its `fork`s; the one way out of it
that forgets a descriptor is the early return behind a failed `Pipe`, which leaves
`prev_read` open.
-/

namespace SystemProgramming.MyShell

open SystemProgramming.CLib SystemProgramming.Library

/-- The descriptor that a step leaves open for good. -/
def Shell.forgets (s : Shell) : Label → List Nat
  | .pipeFails =>
      match s.pc with
      | .launch f => if f.prevRead = -1 then [] else [f.prevRead.toNat]
      | _ => []
  | _ => []

/-- The step is a `Pipe` that fails behind the first stage of a pipeline. -/
def Shell.failsLate (s : Shell) : Label → Bool
  | .pipeFails =>
      match s.pc with
      | .launch f => 0 < f.i
      | _ => false
  | _ => false

/-- The shell, the descriptors it has forgotten, and how many calls of `Pipe` have failed
behind the first stage of a pipeline. -/
structure Leaking where
  shell : Shell := {}
  leaked : List Nat := []
  failures : Nat := 0

def Leaking.step (t : Leaking) (l : Label) : Option Leaking :=
  (t.shell.step l).map fun s' =>
    { shell := s'
      leaked := t.leaked ++ t.shell.forgets l
      failures := t.failures + (t.shell.failsLate l).toNat }

/-- The descriptors the shell was started with and the read ends it has forgotten, and
nothing else. -/
structure Owned (own : FdTable) (lost : List Nat) : Prop where
  distinct : lost.Nodup
  high : ∀ m ∈ lost, 2 < m
  held : ∀ m ∈ lost, ∃ k, own.get m = some (.pipeRead k)
  others : ∀ m, m ∉ lost → own.get m = if m ≤ 2 then some (.inherited m) else none

/-- A number that is free is neither that of a standard descriptor nor one of those that have
been forgotten. -/
theorem Owned.of_free {own : FdTable} {lost : List Nat} (h : Owned own lost) {p : Nat}
    (hfree : own.get p = none) : 2 < p ∧ p ∉ lost := by
  have hnew : p ∉ lost := by
    intro hmem
    obtain ⟨_, hopen⟩ := h.held p hmem
    simp [hfree] at hopen
  refine ⟨?_, hnew⟩
  by_contra hle
  have hopen := h.others p hnew
  rw [hfree, if_pos (by omega)] at hopen
  cases hopen

theorem Owned.standard {own : FdTable} {lost : List Nat} (h : Owned own lost) {m : Nat}
    (hm : m ≤ 2) : own.get m = some (.inherited m) := by
  rw [h.others m fun hmem => absurd (h.high m hmem) (by omega), if_pos hm]

/-- A descriptor that is new to the shell and that it forgets. -/
theorem Owned.snoc {own fds : FdTable} {lost : List Nat} (h : Owned own lost) {p k : Nat}
    (hfree : own.get p = none) (hp : fds.get p = some (.pipeRead k))
    (hsame : ∀ m, m ≠ p → fds.get m = own.get m) : Owned fds (lost ++ [p]) := by
  obtain ⟨hhigh, hnew⟩ := h.of_free hfree
  refine ⟨?_, fun m hm => ?_, fun m hm => ?_, fun m hm => ?_⟩
  · refine List.nodup_append.mpr ⟨h.distinct, List.nodup_singleton p, fun a ha b hb hab => ?_⟩
    exact hnew (List.mem_singleton.mp hb ▸ hab ▸ ha)
  · obtain hm | hm := List.mem_append.mp hm
    · exact h.high m hm
    · exact List.mem_singleton.mp hm ▸ hhigh
  · by_cases hmp : m = p
    · exact hmp ▸ ⟨k, hp⟩
    · rw [hsame m hmp]
      exact h.held m ((List.mem_append.mp hm).resolve_right (by simpa using hmp))
  · have hmp : m ≠ p := fun h => hm (List.mem_append_right _ (by simp [h]))
    rw [hsame m hmp]
    exact h.others m fun hmem => hm (List.mem_append_left _ hmem)

theorem Owned.congr {own fds : FdTable} {lost : List Nat} (h : Owned own lost)
    (hsame : ∀ m, fds.get m = own.get m) : Owned fds lost where
  distinct := h.distinct
  high := h.high
  held := fun m hm => hsame m ▸ h.held m hm
  others := fun m hm => hsame m ▸ h.others m hm

/-! ### What a step does to the descriptors -/

namespace Shell

theorem step_forks_fds {s s' : Shell} {pid : Pid} (h : s.step (.forks pid) = some s') :
    ∃ f, s.pc = .launch f ∧
      s'.fds = (afterFork (openPipe s.fds f).2 f (openPipe s.fds f).1 pid).1 ∧
      s'.pc = .launch (afterFork (openPipe s.fds f).2 f (openPipe s.fds f).1 pid).2 := by
  simp only [step] at h
  split at h
  · cases h
  · obtain ⟨f, hf, h⟩ := Option.bind_eq_some_iff.mp h
    split at h
    · cases h
      exact ⟨f, (stage_spec hf).1, rfl, rfl⟩
    · cases h

theorem step_forkFails_fds {s s' : Shell} (h : s.step .forkFails = some s') :
    ∃ f, s.pc = .launch f ∧
      s'.fds = (afterFork (openPipe s.fds f).2 f (openPipe s.fds f).1 (-1)).1 ∧
      s'.pc = .launch (afterFork (openPipe s.fds f).2 f (openPipe s.fds f).1 (-1)).2 := by
  simp only [step] at h
  split at h
  · cases h
  · obtain ⟨f, hf, h⟩ := Option.bind_eq_some_iff.mp h
    cases h
    exact ⟨f, (stage_spec hf).1, rfl, rfl⟩

/-- Behind the loop the last read end is closed. -/
theorem step_add_fds {s s' : Shell} {f : LaunchFrame} (h : s.step .proceed = some s')
    (hpc : s.pc = .launch f) (hend : f.nseg ≤ f.i) :
    s'.fds = if f.prevRead ≠ -1 then s.fds.close f.prevRead else s.fds := by
  have hseg : f.segments[f.i]? = none := List.getElem?_eq_none_iff.mpr hend
  simp only [step, proceed, hpc, hseg] at h
  split at h
  · cases h
  · cases h
    rfl

theorem step_pipeFails_stage {s s' : Shell} {f : LaunchFrame}
    (h : s.step .pipeFails = some s') (hpc : s.pc = .launch f) : f.i < f.nseg := by
  simp only [step] at h
  split at h
  · cases h
  · obtain ⟨f', hf, -⟩ := Option.bind_eq_some_iff.mp h
    obtain ⟨hpc', hi⟩ := stage_spec hf
    rw [hpc] at hpc'
    cases hpc'
    exact hi

end Shell

/-! ### The invariant -/

namespace Leaking

/-- In the loop of a launch the shell holds `prev_read` besides what it owns. -/
def Balanced (t : Leaking) : Prop :=
  ∃ own, Owned own t.leaked ∧
    (∀ f, t.shell.pc = .launch f → Between own t.shell.fds f) ∧
    ((∀ f, t.shell.pc ≠ .launch f) → ∀ m, t.shell.fds.get m = own.get m)

/-- A step that opens and closes nothing. -/
theorem Balanced.frame {t t' : Leaking} (h : Balanced t) (hleaked : t'.leaked = t.leaked)
    (hfds : t'.shell.fds = t.shell.fds)
    (hpc : t'.shell.pc = t.shell.pc ∨ (∀ f, t.shell.pc ≠ .launch f) ∧
      ∀ f, t'.shell.pc = .launch f → ∃ segments bg cmdline stack,
        f = .enter segments bg cmdline stack) : Balanced t' := by
  obtain ⟨own, howned, hlaunch, hidle⟩ := h
  obtain hsame | ⟨hbefore, hafter⟩ := hpc
  · refine ⟨own, hleaked ▸ howned, ?_, ?_⟩
    · rw [hsame, hfds]
      exact hlaunch
    · rw [hsame, hfds]
      exact hidle
  · refine ⟨t.shell.fds, hleaked ▸ howned.congr (hidle hbefore), fun f hf => ?_, fun _ m => ?_⟩
    · obtain ⟨segments, bg, cmdline, stack, rfl⟩ := hafter f hf
      rw [hfds]
      exact .enter _ segments bg cmdline stack
    · rw [hfds]

/-- A stage of a launch, whatever `Fork` returns. -/
theorem Balanced.stage {t t' : Leaking} {f : LaunchFrame} {pid : Int} (h : Balanced t)
    (hleaked : t'.leaked = t.leaked) (hpc : t.shell.pc = .launch f)
    (hfds : t'.shell.fds =
      (afterFork (openPipe t.shell.fds f).2 f (openPipe t.shell.fds f).1 pid).1)
    (hpc' : t'.shell.pc =
      .launch (afterFork (openPipe t.shell.fds f).2 f (openPipe t.shell.fds f).1 pid).2) :
    Balanced t' := by
  obtain ⟨own, howned, hlaunch, -⟩ := h
  have hnext := (hlaunch f hpc).afterFork pid
  refine ⟨own, hleaked ▸ howned, fun f' hf' => ?_, fun hout => absurd hpc' (hout _)⟩
  obtain rfl := Pc.launch.inj (hpc'.symm.trans hf')
  rw [hfds]
  exact hnext

theorem Balanced.step {t t' : Leaking} {l : Label} (hs : Shell.Consistent t.shell)
    (h : Balanced t) (hstep : t.step l = some t') : Balanced t' := by
  obtain ⟨s', hs', rfl⟩ := Option.map_eq_some_iff.mp hstep
  have hnone (hl : t.shell.forgets l = []) : t.leaked ++ t.shell.forgets l = t.leaked := by
    rw [hl, List.append_nil]
  cases Shell.step_transition hs' with
  | read line stack hrun hpc =>
      refine h.frame (hnone rfl) ?_ (.inr ⟨by simp [hpc], fun f hf => ?_⟩)
      · obtain ⟨hstart, _⟩ | ⟨hstart, _⟩ := Shell.start_eq t.shell stack (eval line) hpc <;>
          exact hstart ▸ rfl
      · have hpc' : (eval line).pc stack = .launch f := by
          obtain ⟨hstart, _⟩ | ⟨hstart, _⟩ := Shell.start_eq t.shell stack (eval line) hpc <;>
            exact (congrArg Shell.pc hstart).symm.trans hf
        obtain ⟨segments, bg, cmdline, -, rfl⟩ := Action.of_pc_launch hpc'
        exact ⟨segments, bg, cmdline, stack, rfl⟩
  | goto l pc hrun hgoto =>
      have hforgets : t.shell.forgets l = [] := by cases hgoto <;> rfl
      exact h.frame (hnone hforgets) rfl (.inr ⟨fun f => (hs.goto_not_launch hgoto f).1,
        fun f hf => absurd hf (hs.goto_not_launch hgoto f).2⟩)
  | unlock pc hrun hunlock =>
      exact h.frame (hnone rfl) rfl (.inr ⟨fun f => (hunlock.not_launch f).1,
        fun f hf => absurd hf (hunlock.not_launch f).2⟩)
  | add f fds hrun hpc hend =>
      obtain ⟨own, howned, hlaunch, -⟩ := h
      have hbetween := hlaunch f hpc
      have hfds := Shell.step_add_fds hs' hpc hend
      have hprev := hbetween.outside (.inr hend)
      refine ⟨own, (hnone rfl).symm ▸ howned, fun f' hf' => Pc.noConfusion hf', fun _ m => ?_⟩
      rw [hfds, if_neg (not_not.mpr hprev), hbetween.held, if_neg (by omega)]
  | bgFound jid i hrun hpc hfind | fgFound jid i hrun hpc hfind
  | killFound jid i hrun hpc hfind =>
      exact h.frame (hnone rfl) rfl (.inr ⟨by simp [hpc], fun f hf => Pc.noConfusion hf⟩)
  | pipeFails f hrun hpc =>
      obtain ⟨own, howned, hlaunch, -⟩ := h
      have hbetween := hlaunch f hpc
      have hi := Shell.step_pipeFails_stage hs' hpc
      by_cases hprev : f.prevRead = -1
      · refine ⟨own, ?_, fun f' hf' => Pc.noConfusion hf', fun _ m => ?_⟩
        · simpa [Shell.forgets, hpc, hprev] using howned
        · exact (hbetween.held m).trans (if_neg (by omega))
      · have hpos : 0 < f.i := Nat.pos_of_ne_zero fun hzero =>
          hprev (hbetween.outside (.inl hzero))
        obtain ⟨p, hp, hfree⟩ := hbetween.inside hpos hi
        have hforgets : t.shell.forgets .pipeFails = [p] := by
          simp [Shell.forgets, hpc, hp]
        refine ⟨t.shell.fds, hforgets ▸ howned.snoc hfree (k := f.i - 1) ?_ fun m hm => ?_,
          fun f' hf' => Pc.noConfusion hf', fun _ _ => rfl⟩
        · exact (hbetween.held p).trans (if_pos hp.symm)
        · exact (hbetween.held m).trans (if_neg (by omega))
  | forkFails f fds fds' fd hrun hpc hi =>
      obtain ⟨f₁, hpc₁, hfds, hpc'⟩ := Shell.step_forkFails_fds hs'
      exact h.stage (hnone rfl) hpc₁ hfds hpc'
  | forks pid f fds fds' fd hrun hpc hi hfresh =>
      obtain ⟨f₁, hpc₁, hfds, hpc'⟩ := Shell.step_forks_fds hs'
      exact h.stage (hnone rfl) hpc₁ hfds hpc'
  | change | deliver | reap | keyboard => exact h.frame (hnone rfl) rfl (.inl rfl)
  | handlerReturns pc hin hpc =>
      obtain ⟨rfl, -⟩ | ⟨g, hsuspended, rfl⟩ := hpc
      · exact h.frame (hnone rfl) rfl (.inl rfl)
      · exact h.frame (hnone rfl) rfl
          (.inr ⟨by simp [hsuspended], fun f hf => Pc.noConfusion hf⟩)

/-- A descriptor is forgotten where a `Pipe` fails behind the first stage, and nowhere else. -/
theorem Balanced.length_forgets {t : Leaking} {l : Label} {s' : Shell} (h : Balanced t)
    (hstep : t.shell.step l = some s') :
    (t.shell.forgets l).length = (t.shell.failsLate l).toNat := by
  by_cases hl : l = .pipeFails
  · subst hl
    obtain ⟨own, -, hlaunch, -⟩ := h
    cases Shell.step_transition hstep with
    | pipeFails f hrun hpc =>
        have hbetween := hlaunch f hpc
        have hi := Shell.step_pipeFails_stage hstep hpc
        simp only [Shell.forgets, Shell.failsLate, hpc]
        rcases Nat.eq_zero_or_pos f.i with hzero | hpos
        · rw [if_pos (hbetween.outside (.inl hzero)), hzero]
          rfl
        · obtain ⟨p, hp, -⟩ := hbetween.inside hpos hi
          rw [if_neg (by omega), decide_eq_true hpos]
          rfl
    | goto l pc hrun hgoto => cases hgoto
  · cases l with
    | pipeFails => exact absurd rfl hl
    | _ => rfl

/-- What the shell has open, between two steps of `launch_pipeline` or elsewhere. -/
structure Kept (t : Leaking) : Prop where
  standard : ∀ m ≤ 2, m ∉ t.leaked ∧ t.shell.fds.get m = some (.inherited m)
  distinct : t.leaked.Nodup
  /-- As many as calls of `Pipe` have failed behind the first stage of a pipeline. -/
  failures : t.leaked.length = t.failures
  leaked : ∀ m ∈ t.leaked, ∃ k, t.shell.fds.get m = some (.pipeRead k)
  /-- Behind the first stage of a launch `prev_read` is open, and is none of these. -/
  prev : ∀ f, t.shell.pc = .launch f → 0 < f.i → f.i < f.nseg →
    ∃ p : Nat, f.prevRead = p ∧ 2 < p ∧ p ∉ t.leaked ∧
      t.shell.fds.get p = some (.pipeRead (f.i - 1))
  noPrev : ∀ f, t.shell.pc = .launch f → f.i = 0 ∨ f.nseg ≤ f.i → f.prevRead = -1
  others : ∀ m, m ∉ t.leaked → (∀ f, t.shell.pc = .launch f → (m : Int) ≠ f.prevRead) →
    t.shell.fds.get m = if m ≤ 2 then some (.inherited m) else none

theorem Kept.of_launch {t : Leaking} {own : FdTable} {f : LaunchFrame}
    (howned : Owned own t.leaked) (hbetween : Between own t.shell.fds f)
    (hf : t.shell.pc = .launch f) (hcount : t.leaked.length = t.failures) : Kept t where
  standard m hm := by
    refine ⟨fun hmem => absurd (howned.high m hmem) (by omega), ?_⟩
    have hopen := howned.standard hm
    refine (hbetween.held m).trans ((if_neg fun hmp => ?_).trans hopen)
    rw [hbetween.prev_free hmp.symm] at hopen
    cases hopen
  distinct := howned.distinct
  failures := hcount
  leaked m hm := by
    obtain ⟨k, hk⟩ := howned.held m hm
    refine ⟨k, (hbetween.held m).trans ((if_neg fun hmp => ?_).trans hk)⟩
    rw [hbetween.prev_free hmp.symm] at hk
    cases hk
  prev f' hf' hpos hi := by
    obtain rfl := Pc.launch.inj (hf.symm.trans hf')
    obtain ⟨p, hp, hfree⟩ := hbetween.inside hpos hi
    obtain ⟨hhigh, hnew⟩ := howned.of_free hfree
    exact ⟨p, hp, hhigh, hnew, (hbetween.held p).trans (if_pos hp.symm)⟩
  noPrev f' hf' hout := by
    obtain rfl := Pc.launch.inj (hf.symm.trans hf')
    exact hbetween.outside hout
  others m hm hprev :=
    (hbetween.held m).trans ((if_neg (hprev f hf)).trans (howned.others m hm))

theorem Kept.of_idle {t : Leaking} {own : FdTable} (howned : Owned own t.leaked)
    (hout : ∀ m, t.shell.fds.get m = own.get m) (hpc : ∀ f, t.shell.pc ≠ .launch f)
    (hcount : t.leaked.length = t.failures) : Kept t where
  standard m hm :=
    ⟨fun hmem => absurd (howned.high m hmem) (by omega), (hout m).trans (howned.standard hm)⟩
  distinct := howned.distinct
  failures := hcount
  leaked m hm := hout m ▸ howned.held m hm
  prev f hf := absurd hf (hpc f)
  noPrev f hf := absurd hf (hpc f)
  others m hm _ := (hout m).trans (howned.others m hm)

/-- **The descriptors of a session.** In every run, whatever fails and whoever ends, the
shell has open what it was started with, `prev_read` behind the first stage of a launch, and one
read end for each `Pipe` that failed behind the first stage of a pipeline. -/
theorem descriptors_kept {t : Leaking} (h : Reachable step anyStep {} t) : Kept t := by
  have hinv : Shell.Consistent t.shell ∧ Balanced t ∧ t.leaked.length = t.failures := by
    refine h.invariant
      (I := fun t => Shell.Consistent t.shell ∧ Balanced t ∧ t.leaked.length = t.failures)
      ⟨.init, ?_, rfl⟩ ?_
    · refine ⟨({} : Shell).fds, ⟨.nil, by simp, by simp, fun m _ => ?_⟩,
        fun f hf => Pc.noConfusion hf, fun _ _ => rfl⟩
      rcases m with _ | _ | _ | m
      · rfl
      · rfl
      · rfl
      · exact (if_neg (by omega)).symm
    · rintro t l t' ⟨hs, hb, hcount⟩ - hstep
      have hb' := hb.step hs hstep
      obtain ⟨s', hs', rfl⟩ := Option.map_eq_some_iff.mp hstep
      refine ⟨hs.step (Shell.step_transition hs'), hb', ?_⟩
      rw [List.length_append, hcount, hb.length_forgets hs']
  obtain ⟨-, ⟨own, howned, hlaunch, hidle⟩, hcount⟩ := hinv
  by_cases hpc : ∃ f, t.shell.pc = .launch f
  · obtain ⟨f, hf⟩ := hpc
    exact .of_launch howned (hlaunch f hf) hf hcount
  · have hnot : ∀ f, t.shell.pc ≠ .launch f := fun f hf => hpc ⟨f, hf⟩
    exact .of_idle howned (hidle hnot) hnot hcount

/-- The second `Pipe` of a pipeline of three fails, and another pipeline follows. -/
def pipeFailsOnce : List Label :=
  [.readLine "a | b | c\n".toList fun _ => 0, .forks 100, .pipeFails,
    .readLine "d | e\n".toList fun _ => 0, .forks 101, .forks 102]

theorem descriptors_kept_pipeFailsOnce :
    let t := (exec (restrict step anyStep) pipeFailsOnce {}).get (by decide +kernel)
    t.leaked = [3] ∧ t.failures = 1 ∧ Kept t :=
  ⟨by decide +kernel, by decide +kernel, descriptors_kept (.of_exec (Option.some_get _).symm)⟩

end Leaking

end SystemProgramming.MyShell
