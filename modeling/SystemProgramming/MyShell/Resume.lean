import SystemProgramming.MyShell.Foreground

/-!
`bg` and `fg` when the signal cannot be sent. Both builtins change the state of the
job and `fg_pgid` under the mask, and call `kill` behind it; the error return does
not change them back.
-/

namespace SystemProgramming.MyShell

open SystemProgramming.CLib SystemProgramming.Library

/-- The two builtins that send SIGCONT. -/
inductive Resume
  | bg
  | fg

namespace Resume

def action : Resume → Int → Action
  | .bg => .bg
  | .fg => .fg

/-- Before the table is searched. -/
def lookup : Resume → Int → Pc
  | .bg => .bgLookup
  | .fg => .fgLookup

/-- The state the builtin gives to the job. -/
def state : Resume → JobState
  | .bg => .background
  | .fg => .foreground

/-- What the builtin makes of the table. -/
def move (r : Resume) (t : JobTable) (i : Slot) : JobTable := (t.setState i r.state).updateFgPgid

end Resume

/-- The places of `builtin_bg` and `builtin_fg` behind the change, up to their return. -/
def Pc.resuming : Pc → Bool
  | .bgUnlock (some _) | .bgRead _ | .bgSignal _ _ | .fgUnlock (some _) | .fgSignal _ _
  | .prompt => true
  | _ => false

/-- The steps of a builtin in which `kill` fails and no child event intervenes. -/
def Label.failing : Label → Bool
  | .proceed | .killFails | .keyboard => true
  | _ => false

namespace JobTable

variable {t : JobTable} {i : Slot}

theorem setState_self {state : JobState} (h : (t.jobs i).state = state) :
    t.setState i state = t := by
  subst h
  rw [setState, setJob, Function.update_eq_self]

theorem updateFgPgid_self (h : t.fgPgid = t.foregroundPgid) : t.updateFgPgid = t := by
  have hfg : t.updateFgPgid.fgPgid = t.fgPgid := (t.fgPgid_updateFgPgid).trans h.symm
  calc t.updateFgPgid = { t with fgPgid := t.updateFgPgid.fgPgid } := rfl
    _ = t := by rw [hfg]

/-- The change is none only where the job has its new state already. -/
theorem move_eq_self_iff {r : Resume} (h : t.fgPgid = t.foregroundPgid) :
    r.move t i = t ↔ (t.jobs i).state = r.state := by
  constructor
  · intro hmove
    rw [← congrArg (fun t => (t.jobs i).state) hmove]
    simp [Resume.move]
  · intro hstate
    rw [Resume.move, setState_self hstate, updateFgPgid_self h]

end JobTable

namespace Shell

/-- The way of a builtin: the table is searched, then changed, then left alone. -/
inductive Resuming (r : Resume) (jid : Int) (t : JobTable) (i : Slot) (s : Shell) : Prop
  | lookup : s.pc = r.lookup jid → s.table = t → Resuming r jid t i s
  | moved : s.pc.resuming = true → s.table = r.move t i → Resuming r jid t i s

variable {r : Resume} {jid : Int} {t : JobTable} {i : Slot} {s s' : Shell} {l : Label}

theorem Resuming.start (hcmd : ∃ stack, s' = s.start stack (r.action jid)) :
    Resuming r jid s.table i s' := by
  obtain ⟨stack, rfl⟩ := hcmd
  cases r <;> exact .lookup rfl rfl

theorem Resuming.found (hfind : s.table.findJobByJid jid = some i)
    (hpc : s.pc = r.lookup jid) (h : s.proceed = some s') :
    Resuming r jid s.table i s' := by
  cases r with
  | bg =>
      simp only [proceed, hpc, Resume.lookup, hfind, Option.some.injEq] at h
      exact h ▸ .moved rfl rfl
  | fg =>
      simp only [proceed, hpc, Resume.lookup, hfind, Option.some.injEq] at h
      exact h ▸ .moved rfl rfl

/-- Behind the change no step touches the table. -/
theorem resuming_step (hpc : s.pc.resuming = true) (hl : l.failing = true)
    (ht : Transition s l s') : s'.pc.resuming = true ∧ s'.table = s.table := by
  cases ht with
  | goto l pc hrun hgoto => cases hgoto <;> simp_all [Pc.resuming, Label.failing]
  | unlock pc hrun hunlock =>
      refine ⟨?_, rfl⟩
      generalize s.pc = p at hpc hunlock
      cases hunlock with
      | launched | kill => cases hpc
      | jobs | bgUnknown | bg | fgUnknown | fg | killUnknown => rfl
  | keyboard => exact ⟨hpc, rfl⟩
  | add f fds hrun hpc' | bgFound jid i hrun hpc' | fgFound jid i hrun hpc'
  | killFound jid i hrun hpc' =>
      rw [hpc'] at hpc
      cases hpc
  | read | pipeFails | forkFails | forks | change | deliver | reap | handlerReturns => cases hl

theorem Resuming.step (hfind : t.findJobByJid jid = some i) (h : Resuming r jid t i s)
    (hl : l.failing = true) (hstep : s.step l = some s') : Resuming r jid t i s' := by
  cases h with
  | moved hpc htable =>
      obtain ⟨hpc', htable'⟩ := resuming_step hpc hl (step_transition hstep)
      exact .moved hpc' (htable'.trans htable)
  | lookup hpc htable =>
      subst htable
      cases l with
      | proceed =>
          simp only [Shell.step] at hstep
          split at hstep
          · cases hstep
          · exact .found hfind hpc hstep
      | killFails => cases r <;> simp [Shell.step, hpc, Resume.lookup] at hstep
      | keyboard =>
          obtain rfl : s = s' := by
            cases r <;> simpa [Shell.step, hpc, Resume.lookup] using hstep
          exact .lookup hpc rfl
      | _ => cases hl

theorem Resuming.returned (h : Resuming r jid t i s) (hpc : s.pc = .prompt) :
    s.table = r.move t i := by
  cases h with
  | lookup hlookup => cases r <;> simp [hpc, Resume.lookup] at hlookup
  | moved _ htable => exact htable

/-- **When a failed resume is atomic.** `bg` and `fg` leave table and `fg_pgid` as they
were if and only if the job was in the state they give to it. -/
theorem failed_resume_atomic_iff {line : CString} {stack : Nat → Int} {ls : List Label}
    (hs : Reachable Shell.step anyStep {} s) (hcmd : eval line = r.action jid)
    (hfind : s.table.findJobByJid jid = some i) (hfail : ∀ l ∈ ls, l.failing = true)
    (hexec : exec Shell.step (.readLine line stack :: ls) s = some s')
    (hreturn : s'.pc = .prompt) :
    s'.table = s.table ↔ (s.table.jobs i).state = r.state := by
  obtain ⟨u, hread, hrest⟩ := Option.bind_eq_some_iff.mp hexec
  have hconsistent : Consistent s :=
    hs.invariant .init fun _ _ _ h _ hstep => h.step (step_transition hstep)
  obtain ⟨hrun, hu⟩ : s.inHandler = false ∧ u = s.start stack (r.action jid) := by
    cases step_transition hread with
    | read _ _ hrun _ => exact ⟨hrun, by rw [hcmd]⟩
    | goto _ _ _ hgoto => cases hgoto
  have hlast : Resuming r jid s.table i s' := by
    refine StatesMeet.last (P := Resuming r jid s.table i)
      (StatesMeet.of_preserved (I := fun _ => Resuming r jid s.table i)
        (L := fun _ l => l.failing = true) (fun _ _ _ _ h hl => h.step hfind hl)
        (fun _ _ h => h) (.start ⟨stack, hu⟩) (.of_forall fun _ => hfail)) hrest
  rw [hlast.returned hreturn, JobTable.move_eq_self_iff (hconsistent.fg hrun)]

/-- A job in the background is stopped. -/
def stoppedRun : List Label :=
  [.readLine "a &\n".toList fun _ => 0, .forks 100, .proceed, .proceed, .proceed,
    .change 100 .stopped, .deliver, .reap 100, .handlerReturns]

/-- `builtin_bg` with a `kill` that fails. -/
def failingBg : List Label := [.proceed, .proceed, .proceed, .killFails]

def bgLine : CString := "bg %1\n".toList

theorem eval_bgLine : eval bgLine = .bg 1 := rfl

/-- The state a run from the start reaches. -/
def reached (ls : List Label) (h : (exec (restrict Shell.step anyStep) ls {}).isSome) : Shell :=
  (exec (restrict Shell.step anyStep) ls {}).get h

theorem reachable_reached (ls : List Label)
    (h : (exec (restrict Shell.step anyStep) ls {}).isSome) :
    Reachable Shell.step anyStep {} (reached ls h) :=
  .of_exec (Option.some_get h).symm

/-- After one `bg` that fails the next one has nothing to change. -/
theorem failed_resume_atomic_iff_again :
    let s := reached (stoppedRun ++ .readLine bgLine (fun _ => 0) :: failingBg) (by decide +kernel)
    let s' := (exec Shell.step (.readLine bgLine (fun _ => 0) :: failingBg) s).get
      (by decide +kernel)
    s'.table = s.table ↔ (s.table.jobs 0).state = .background :=
  failed_resume_atomic_iff (r := .bg) (i := 0) (reachable_reached _ _) eval_bgLine
    (by decide +kernel) (by decide) (Option.some_get _).symm
    (Pc.atPrompt_iff.mp (by decide +kernel))

/-- The stopped job is shown as running once `bg` has failed. -/
theorem failed_resume_not_atomic :
    ¬ ∀ (r : Resume) (jid : Int) (i : Slot) (line : CString) (stack : Nat → Int)
      (ls : List Label) (s s' : Shell), Reachable Shell.step anyStep {} s →
      eval line = r.action jid → s.table.findJobByJid jid = some i →
      (∀ l ∈ ls, l.failing = true) →
      exec Shell.step (.readLine line stack :: ls) s = some s' → s'.pc = .prompt →
      s'.table = s.table := by
  intro h
  have htable := h .bg 1 0 bgLine (fun _ => 0) failingBg (reached stoppedRun (by decide +kernel))
    ((exec Shell.step (.readLine bgLine (fun _ => 0) :: failingBg)
      (reached stoppedRun (by decide +kernel))).get (by decide +kernel))
    (reachable_reached _ _) eval_bgLine (by decide +kernel) (by decide)
    (Option.some_get _).symm (Pc.atPrompt_iff.mp (by decide +kernel))
  exact absurd (congrArg (fun t => (t.jobs 0).state) htable) (by decide +kernel)

end Shell

end SystemProgramming.MyShell
