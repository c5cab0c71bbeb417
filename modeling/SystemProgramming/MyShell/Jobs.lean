import Mathlib.Algebra.GroupWithZero.Nat
import Mathlib.Data.Fin.Tuple.Basic
import Mathlib.Data.List.Nodup
import SystemProgramming.MyShell.Kernel
import SystemProgramming.MyShell.Lexer

/-!
The job table of the phase 3 shell and the functions that read and write it.
A pointer into `jobs` is the index of the slot it points at; a slot that is
not in use is all zero, which is the default `Job`.
-/

namespace SystemProgramming.MyShell

open SystemProgramming.CLib

inductive JobState | empty | foreground | background | stopped
  deriving DecidableEq, Repr

/-- `job_t`. Of the array `pids` the entries written by `add_job` are kept. -/
structure Job where
  used : Bool := false
  jid : Int := 0
  pgid : Int := 0
  pids : List Int := []
  npids : Nat := 0
  liveCount : Nat := 0
  state : JobState := .empty
  cmdline : CString := []
  deriving DecidableEq, Repr

/-- The entries of `pids` below `npids`. -/
def Job.recorded (job : Job) : List Int := job.pids.take job.npids

abbrev Slot := Fin MAXJOBS

instance : NeZero MAXJOBS := ⟨by decide⟩

/-- The static variables of the shell. -/
structure JobTable where
  jobs : Slot → Job := fun _ => {}
  nextJid : Int := 1
  fgPgid : Int := 0

namespace JobTable

/-- The loop all searches share: the first slot whose job passes the test. -/
def findSlot (t : JobTable) (p : Job → Bool) : Option Slot :=
  Fin.find? fun i => p (t.jobs i)

theorem findSlot_eq_some {t : JobTable} {p : Job → Bool} {i : Slot} :
    t.findSlot p = some i ↔ p (t.jobs i) = true ∧ ∀ j < i, p (t.jobs j) = false :=
  Fin.find?_eq_some_iff

theorem findSlot_eq_none {t : JobTable} {p : Job → Bool} :
    t.findSlot p = none ↔ ∀ i, p (t.jobs i) = false :=
  Fin.find?_eq_none_iff

/-- A search looks at the jobs through its test only. -/
theorem findSlot_congr {t t' : JobTable} {p : Job → Bool}
    (h : ∀ i, p (t'.jobs i) = p (t.jobs i)) : t'.findSlot p = t.findSlot p :=
  congrArg Fin.find? (funext h)

-- The unifier would otherwise run the search over all slots.
attribute [irreducible] findSlot

def findJobByJid (t : JobTable) (jid : Int) : Option Slot :=
  t.findSlot fun job => job.used && job.jid == jid

def findJobByPid (t : JobTable) (pid : Int) : Option Slot :=
  t.findSlot fun job => job.used && job.recorded.contains pid

def findForegroundJob (t : JobTable) : Option Slot :=
  t.findSlot fun job => job.used && job.state == .foreground

def updateFgPgid (t : JobTable) : JobTable :=
  { t with fgPgid :=
      match t.findForegroundJob with
      | none => 0
      | some i => (t.jobs i).pgid }

/-- Stores a job into a slot. -/
def setJob (t : JobTable) (i : Slot) (job : Job) : JobTable :=
  { t with jobs := Function.update t.jobs i job }

def setState (t : JobTable) (i : Slot) (state : JobState) : JobTable :=
  t.setJob i { t.jobs i with state := state }

/-- `add_job`: `memcpy` copies the first `npids` entries of the caller's array
and `strncpy` at most `MAXLINE - 1` characters. -/
def addJob (t : JobTable) (pgid : Int) (pids : Nat → Int) (npids : Nat)
    (state : JobState) (cmdline : CString) : Option Slot × JobTable :=
  match t.findSlot fun job => !job.used with
  | none => (none, t)
  | some i =>
      (some i,
        ({ t.setJob i
            { used := true, jid := t.nextJid, pgid := pgid,
              pids := (List.range npids).map pids, npids := npids,
              liveCount := npids, state := state,
              cmdline := cmdline.take (MAXLINE - 1) } with
          nextJid := t.nextJid + 1 } : JobTable).updateFgPgid)

def deleteJob (t : JobTable) (i : Slot) : JobTable := (t.setJob i {}).updateFgPgid

/-- The body of the `while` loop of `sigchld_handler`, for one pid and status
that `waitpid` returned. -/
def sigchldBody (t : JobTable) (pid : Int) (status : Status) : JobTable :=
  match t.findJobByPid pid with
  | none => t
  | some i =>
      match status with
      | .stopped => t.setState i .stopped
      | .continued =>
          if (t.jobs i).state = .stopped then t.setState i .background else t
      | .exited | .signaled =>
          let live := if (t.jobs i).liveCount > 0 then (t.jobs i).liveCount - 1
            else (t.jobs i).liveCount
          let t := t.setJob i { t.jobs i with liveCount := live }
          if live = 0 then t.deleteJob i else t

/-! ### Reading an updated table -/

@[simp] theorem jobs_setJob (t : JobTable) (i j : Slot) (job : Job) :
    (t.setJob i job).jobs j = if j = i then job else t.jobs j := by
  simp [setJob, Function.update_apply]

@[simp] theorem fgPgid_setJob (t : JobTable) (i : Slot) (job : Job) :
    (t.setJob i job).fgPgid = t.fgPgid := rfl

@[simp] theorem jobs_setState (t : JobTable) (i j : Slot) (state : JobState) :
    (t.setState i state).jobs j =
      if j = i then { t.jobs i with state := state } else t.jobs j := by
  simp [setState]

@[simp] theorem jobs_updateFgPgid (t : JobTable) : t.updateFgPgid.jobs = t.jobs := rfl

@[simp] theorem nextJid_updateFgPgid (t : JobTable) :
    t.updateFgPgid.nextJid = t.nextJid := rfl

@[simp] theorem jobs_deleteJob (t : JobTable) (i j : Slot) :
    (t.deleteJob i).jobs j = if j = i then {} else t.jobs j := by
  simp [deleteJob]

@[simp] theorem setJob_setJob (t : JobTable) (i : Slot) (job job' : Job) :
    (t.setJob i job).setJob i job' = t.setJob i job' := by
  simp [setJob]

/-! ### What the searches find -/

theorem findJobByJid_spec {t : JobTable} {jid : Int} {i : Slot}
    (h : t.findJobByJid jid = some i) : (t.jobs i).used = true ∧ (t.jobs i).jid = jid := by
  simpa using (findSlot_eq_some.mp h).1

theorem findJobByPid_spec {t : JobTable} {pid : Int} {i : Slot}
    (h : t.findJobByPid pid = some i) :
    (t.jobs i).used = true ∧ pid ∈ (t.jobs i).recorded := by
  simpa using (findSlot_eq_some.mp h).1

theorem findJobByPid_eq_none {t : JobTable} {pid : Int} :
    t.findJobByPid pid = none ↔
      ∀ i, (t.jobs i).used = true → pid ∉ (t.jobs i).recorded := by
  simp [findJobByPid, findSlot_eq_none]

theorem findForegroundJob_spec {t : JobTable} {i : Slot}
    (h : t.findForegroundJob = some i) :
    (t.jobs i).used = true ∧ (t.jobs i).state = .foreground := by
  simpa using (findSlot_eq_some.mp h).1

theorem findForegroundJob_eq_none {t : JobTable} :
    t.findForegroundJob = none ↔
      ∀ i, (t.jobs i).used = true → (t.jobs i).state ≠ .foreground := by
  simp [findForegroundJob, findSlot_eq_none]

@[simp] theorem findForegroundJob_updateFgPgid (t : JobTable) :
    t.updateFgPgid.findForegroundJob = t.findForegroundJob :=
  findSlot_congr fun _ => rfl

/-! ### What the writers do

One inversion lemma for `add_job` and one for the body of the handler; the
invariants of the table are derived from these and never unfold the
functions. -/

theorem addJob_cases (t : JobTable) (pgid : Int) (pids : Nat → Int) (npids : Nat)
    (state : JobState) (cmdline : CString) :
    ((∀ i, (t.jobs i).used = true) ∧ t.addJob pgid pids npids state cmdline = (none, t)) ∨
    ∃ (i : Slot) (t' : JobTable), (t.jobs i).used = false ∧
      t.addJob pgid pids npids state cmdline = (some i, t'.updateFgPgid) ∧
      t'.nextJid = t.nextJid + 1 ∧ (∀ j, j ≠ i → t'.jobs j = t.jobs j) ∧
      t'.jobs i =
        { used := true, jid := t.nextJid, pgid := pgid,
          pids := (List.range npids).map pids, npids := npids, liveCount := npids,
          state := state, cmdline := cmdline.take (MAXLINE - 1) } := by
  unfold addJob
  cases hfree : t.findSlot fun job => !job.used with
  | none => exact .inl ⟨by simpa using findSlot_eq_none.mp hfree, rfl⟩
  | some i =>
      have hi : (t.jobs i).used = false := by simpa using (findSlot_eq_some.mp hfree).1
      refine .inr ⟨i, _, hi, rfl, rfl, fun j hj => ?_, ?_⟩
      · simp [setJob, Function.update_of_ne hj]
      · simp [setJob]

/-- What one status does to the table. -/
inductive Charge (t : JobTable) (pid : Int) (status : Status) : JobTable → Prop
  | unknown : t.findJobByPid pid = none → Charge t pid status t
  | stop (i : Slot) : t.findJobByPid pid = some i → status = .stopped →
      Charge t pid status (t.setState i .stopped)
  | resume (i : Slot) : t.findJobByPid pid = some i → status = .continued →
      (t.jobs i).state = .stopped → Charge t pid status (t.setState i .background)
  | keep (i : Slot) : t.findJobByPid pid = some i → status = .continued →
      (t.jobs i).state ≠ .stopped → Charge t pid status t
  | charge (i : Slot) : t.findJobByPid pid = some i → status.terminated = true →
      1 < (t.jobs i).liveCount →
      Charge t pid status
        (t.setJob i { t.jobs i with liveCount := (t.jobs i).liveCount - 1 })
  | free (i : Slot) : t.findJobByPid pid = some i → status.terminated = true →
      (t.jobs i).liveCount ≤ 1 → Charge t pid status (t.deleteJob i)

theorem sigchldBody_charge (t : JobTable) (pid : Int) (status : Status) :
    Charge t pid status (t.sigchldBody pid status) := by
  have hterm (i : Slot) (hi : t.findJobByPid pid = some i)
      (hst : status.terminated = true) :
      Charge t pid status
        (let live := if (t.jobs i).liveCount > 0 then (t.jobs i).liveCount - 1
          else (t.jobs i).liveCount
        let t := t.setJob i { t.jobs i with liveCount := live }
        if live = 0 then t.deleteJob i else t) := by
    by_cases hlive : 1 < (t.jobs i).liveCount
    · have hpos : (t.jobs i).liveCount > 0 := by omega
      have hne : (t.jobs i).liveCount - 1 ≠ 0 := by omega
      simp only [hpos, if_true, hne, if_false]
      exact .charge i hi hst hlive
    · have hzero : (if (t.jobs i).liveCount > 0 then (t.jobs i).liveCount - 1
          else (t.jobs i).liveCount) = 0 := by split <;> omega
      simp only [hzero, if_true, deleteJob, setJob_setJob]
      exact .free i hi hst (by omega)
  unfold sigchldBody
  cases hfind : t.findJobByPid pid with
  | none => exact .unknown hfind
  | some i =>
      cases status with
      | stopped => exact .stop i hfind rfl
      | continued =>
          by_cases hst : (t.jobs i).state = .stopped
          · simpa only [hst, if_true] using Charge.resume i hfind rfl hst
          · simpa only [hst, if_false] using Charge.keep i hfind rfl hst
      | exited => exact hterm i hfind rfl
      | signaled => exact hterm i hfind rfl

/-- The status of `pid` ends the last live process of the job in slot `i`. -/
def frees (t : JobTable) (i : Slot) (pid : Int) (status : Status) : Bool :=
  t.findJobByPid pid == some i && (status.terminated && decide ((t.jobs i).liveCount ≤ 1))

/-- What a reap leaves in a slot: nothing, or the same job, which has not become a
foreground job. -/
theorem sigchldBody_slot (t : JobTable) (pid : Int) (status : Status) (j : Slot) :
    (t.frees j pid status = true ∧ (t.sigchldBody pid status).jobs j = {}) ∨
      (((t.sigchldBody pid status).jobs j).used = (t.jobs j).used ∧
        ((t.sigchldBody pid status).jobs j).pgid = (t.jobs j).pgid ∧
        (((t.sigchldBody pid status).jobs j).state = .foreground →
          (t.jobs j).state = .foreground)) := by
  generalize ht' : t.sigchldBody pid status = t'
  have hcharge : Charge t pid status t' := ht' ▸ t.sigchldBody_charge pid status
  cases hcharge with
  | unknown | keep => exact .inr ⟨rfl, rfl, id⟩
  | stop i | resume i =>
      refine .inr ?_
      by_cases hj : j = i <;> simp [hj]
  | charge i =>
      refine .inr ?_
      by_cases hj : j = i <;> simp [hj]
  | free i hfind hst hlive =>
      by_cases hj : j = i
      · subst hj
        exact .inl ⟨by simp [frees, hfind, hst, hlive], by simp⟩
      · exact .inr (by simp [hj])

end JobTable

/-- `parse_job_id`: the value left in `*jid` when it returns 0. -/
def parseJobId : Option CString → Option Int
  | some ('%' :: arg) =>
      let (value, rest) := strtol arg
      if arg = [] ∨ rest ≠ [] ∨ toInt value ≤ 0 then none else some (toInt value)
  | _ => none

end SystemProgramming.MyShell
