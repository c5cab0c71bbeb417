import SystemProgramming.MyShell.Input
import SystemProgramming.MyShell.JobIds
import SystemProgramming.MyShell.Quoting
import SystemProgramming.MyShell.Representation
import SystemProgramming.Phase2.Words

/-!
The listing of the builtin `jobs`, and what a reader can do with it. Each line has the
number of a job in brackets, its state in ten columns and its text; behind a `%` the
number is an argument of `bg`, `fg` and `kill`.

The number of a job stays its number: the shell gives none twice.
-/

namespace SystemProgramming.MyShell

open SystemProgramming.CLib SystemProgramming.Library

/-! ### What is printed -/

/-- `job_state_name`. -/
def jobStateName : JobState → CString
  | .foreground => "Foreground".toList
  | .background => "Running".toList
  | .stopped => "Stopped".toList
  | .empty => "Unknown".toList

/-- What `list_jobs` prints of a job, with the format `"[%d] %-10s %s\n"`. -/
def Job.row (job : Job) : CString :=
  '[' :: (toString job.jid).toList ++ ']' :: ' ' ::
    (jobStateName job.state).rightpad 10 ' ' ++ ' ' :: job.cmdline ++ ['\n']

/-- `list_jobs`, between its calls of `block_sigchld` and `restore_sigmask`. -/
def listJobs (t : JobTable) : CString :=
  (List.finRange MAXJOBS).flatMap fun i => if (t.jobs i).used then (t.jobs i).row else []

/-! ### Reading it -/

/-- The columns of a line: the number, the state and the text. -/
structure Row where
  jid : CString
  state : CString
  cmdline : CString
  deriving DecidableEq

def readRow (line : CString) : Row :=
  let number := line.drop 1
  let columns := (number.dropWhile isdigit).drop 2
  { jid := number.takeWhile isdigit
    state := (columns.take 10).takeWhile (· ≠ ' ')
    cmdline := (columns.drop 11).dropLast }

def readListing (text : CString) : List Row := (lines newline text).map readRow

/-- The slots of the jobs, in the order of the listing. -/
def JobTable.usedSlots (t : JobTable) : List Slot :=
  (List.finRange MAXJOBS).filter fun i => (t.jobs i).used

def Job.columns (job : Job) : Row :=
  { jid := (toString job.jid).toList, state := jobStateName job.state, cmdline := job.cmdline }

theorem state_columns (state : JobState) (rest : CString) :
    (((jobStateName state).rightpad 10 ' ' ++ rest).take 10).takeWhile (· ≠ ' ') =
        jobStateName state ∧
      ((jobStateName state).rightpad 10 ' ' ++ rest).drop 10 = rest := by
  cases state <;> exact ⟨rfl, rfl⟩

/-- The number of a job is written in digits. -/
theorem digits_toString {n : Int} (hn : 0 < n) : Digits (toString n).toList := by
  obtain ⟨m, ⟨htext, -⟩ | ⟨-, rfl⟩⟩ := toList_toString n
  · exact htext ▸ (digits_toDigits m).1
  · omega

theorem readRow_row {job : Job} (hjid : 0 < job.jid) : readRow job.row = job.columns := by
  obtain ⟨-, hdigits⟩ := digits_toString hjid
  obtain ⟨hstate, hrest⟩ := state_columns job.state (' ' :: (job.cmdline ++ ['\n']))
  have hnumber : job.row.drop 1 = (toString job.jid).toList ++ ']' :: ' ' ::
      ((jobStateName job.state).rightpad 10 ' ' ++ ' ' :: (job.cmdline ++ ['\n'])) := by
    simp [Job.row]
  have htake : (job.row.drop 1).takeWhile isdigit = (toString job.jid).toList := by
    rw [hnumber, List.takeWhile_append_of_pos hdigits]
    exact List.append_nil _
  have hcolumns : ((job.row.drop 1).dropWhile isdigit).drop 2 =
      (jobStateName job.state).rightpad 10 ' ' ++ ' ' :: (job.cmdline ++ ['\n']) := by
    rw [hnumber, List.dropWhile_append_of_pos hdigits]
    rfl
  have htext (columns : CString) : columns.drop 11 = (columns.drop 10).drop 1 := by
    rw [List.drop_drop]
  rw [readRow, hcolumns, htake, hstate, htext, hrest, List.drop_one, List.tail_cons,
    List.dropLast_concat]
  rfl

variable {t : JobTable}

theorem newline_notMem_row {job : Job} (hjid : 0 < job.jid) (hcmd : '\n' ∉ job.cmdline) :
    ∃ text, job.row = text ++ ['\n'] ∧ ∀ c ∈ text, newline c = false := by
  refine ⟨_, rfl, fun c hc => decide_eq_false ?_⟩
  rintro rfl
  have hnumber : '\n' ∉ (toString job.jid).toList := fun hmem =>
    absurd ((digits_toString hjid).2 _ hmem) (by decide)
  have hname : '\n' ∉ (jobStateName job.state).rightpad 10 ' ' := by
    cases job.state <;> decide
  simp only [List.mem_append, List.mem_cons, hnumber, hname, hcmd, or_false] at hc
  exact absurd hc (by decide)

/-- The lines of the listing. -/
theorem lines_listJobs (hcmd : ∀ i, '\n' ∉ (t.jobs i).cmdline)
    (hjid : ∀ i, (t.jobs i).used = true → 0 < (t.jobs i).jid) :
    lines newline (listJobs t) = t.usedSlots.map fun i => (t.jobs i).row := by
  rw [listJobs, JobTable.usedSlots]
  induction List.finRange MAXJOBS with
  | nil => rfl
  | cons i slots ih =>
      rw [List.flatMap_cons, List.filter_cons]
      split
      · next hused =>
          obtain ⟨text, hrow, htext⟩ := newline_notMem_row (hjid i hused) (hcmd i)
          rw [hrow, List.append_assoc, List.singleton_append,
            lines_append_cons newline htext rfl, ih, List.map_cons, hrow]
      · exact ih

theorem readListing_listJobs (hcmd : ∀ i, '\n' ∉ (t.jobs i).cmdline)
    (hjid : ∀ i, (t.jobs i).used = true → 0 < (t.jobs i).jid) :
    readListing (listJobs t) = t.usedSlots.map fun i => (t.jobs i).columns := by
  rw [readListing, lines_listJobs hcmd hjid, List.map_map]
  refine List.map_congr_left fun i hi => readRow_row (hjid i ?_)
  exact (List.mem_filter.mp hi).2

/-! ### Naming what is listed -/

/-- A builtin that takes a job id. -/
inductive JobBuiltin
  | bg
  | fg
  | kill

def JobBuiltin.name : JobBuiltin → CString
  | .bg => "bg".toList
  | .fg => "fg".toList
  | .kill => "kill".toList

def JobBuiltin.action : JobBuiltin → Int → Action
  | .bg => .bg
  | .fg => .fg
  | .kill => .kill

/-- The line a user types. -/
def JobBuiltin.line (r : JobBuiltin) (jid : CString) : CString := r.name ++ ' ' :: '%' :: jid

variable {r : JobBuiltin} {ds : CString}

/-- A character that means nothing to `parse_line`. -/
def Ordinary (c : Char) : Prop :=
  c ≠ '\'' ∧ c ≠ '"' ∧ c ≠ '|' ∧ c ≠ '&' ∧ c ≠ '\n'

instance (c : Char) : Decidable (Ordinary c) := inferInstanceAs (Decidable (_ ∧ _))

theorem ordinary_of_isdigit {c : Char} (hc : isdigit c = true) : Ordinary c := by
  refine ⟨?_, ?_, ?_, ?_, ?_⟩ <;> rintro rfl <;> exact absurd hc (by decide)

theorem ordinary_line (hds : Digits ds) : ∀ c ∈ r.line ds, Ordinary c := by
  intro c hc
  have hname : r.name.all (fun c => decide (Ordinary c)) = true := by cases r <;> decide
  rcases List.mem_append.mp hc with hc | hc
  · exact of_decide_eq_true (List.all_eq_true.mp hname c hc)
  rcases List.mem_cons.mp hc with rfl | hc
  · decide
  rcases List.mem_cons.mp hc with rfl | hc
  · decide
  · exact ordinary_of_isdigit (hds.2 c hc)

theorem words_line (hds : Digits ds) : Phase2.words (r.line ds) = [r.name, '%' :: ds] := by
  have hscan : ('%' :: ds).takeWhile (!isspace ·) = '%' :: ds ∧
      ('%' :: ds).dropWhile (!isspace ·) = [] := by
    rw [List.takeWhile_eq_self_iff, List.dropWhile_eq_nil_iff]
    have htest : ∀ c ∈ '%' :: ds, (!isspace c) = true := by
      refine List.forall_mem_cons.mpr ⟨rfl, fun c hc => ?_⟩
      rw [not_isspace_of_isdigit (hds.2 c hc)]
      rfl
    exact ⟨htest, htest⟩
  have hjid : wordAt '%' ds = ('%' :: ds, []) := by
    rw [wordAt, if_neg (by decide), hscan.1, hscan.2]
    rfl
  have hlast : Phase2.words ('%' :: ds) = ['%' :: ds] := by
    rw [Phase2.words_of_cons (c := '%') (t := ds) rfl, hjid, Phase2.words_of_nil rfl]
  cases r with
  | bg => exact (Phase2.words_of_cons rfl).trans (congrArg _ hlast)
  | fg => exact (Phase2.words_of_cons rfl).trans (congrArg _ hlast)
  | kill => exact (Phase2.words_of_cons rfl).trans (congrArg _ hlast)

/-- The line is a command of its own. -/
theorem parseLine_line (hds : Digits ds) :
    parseLine (r.line ds ++ ['\n']) = some ([r.line ds], false) := by
  have hordinary := ordinary_line (r := r) hds
  have hcut : cutNewline (r.line ds ++ ['\n']) = r.line ds :=
    cutNewline_append fun hmem => (hordinary _ hmem).2.2.2.2 rfl
  have hpieces : linePieces (r.line ds) = [] ++ [r.line ds] :=
    pieces_of_not_cuts fun c hc q => q.cuts_of_ne (hordinary c hc).2.2.1
  have hamp : '&' ∉ r.line ds := fun hmem => (hordinary _ hmem).2.2.2.1 rfl
  have htrim : trimWs (r.line ds) = r.line ds := by
    obtain ⟨u, d, hlast⟩ := ds.eq_nil_or_concat.resolve_left hds.1
    rw [List.concat_eq_append] at hlast
    have hd : isspace d = false := not_isspace_of_isdigit (hds.2 d (by simp [hlast]))
    have hback : r.line ds = (r.name ++ ' ' :: '%' :: u) ++ [d] := by simp [JobBuiltin.line, hlast]
    cases r with
    | bg => exact trimWs_eq_self rfl hback rfl hd
    | fg => exact trimWs_eq_self rfl hback rfl hd
    | kill => exact trimWs_eq_self rfl hback rfl hd
  have hends : endsAmp (r.line ds) = false := by
    rw [endsAmp, htrim]
    exact decide_eq_false fun hlast => hamp (List.mem_of_getLast? hlast)
  have hstrip : stripAmp (r.line ds) = r.line ds :=
    (stripAmp_of_not_endsAmp (by rw [hends]; decide)).trans htrim
  have hne : r.line ds ≠ [] := List.append_ne_nil_of_right_ne_nil _ (List.cons_ne_nil _ _)
  refine (parseLine_eq_some_iff (List.cons_ne_nil _ _)).mpr
    ⟨[], r.line ds, hcut.symm ▸ hpieces, ⟨by decide, fun p hp => ?_, ?_⟩, ?_, hends.symm⟩
  · cases hp
  · rw [hstrip]
    exact ⟨hne, hamp⟩
  · rw [hstrip]
    rfl

/-- What the shell does with it. -/
theorem eval_line (hds : Digits ds) :
    eval (r.line ds ++ ['\n']) = withJobId ['%' :: ds] r.action := by
  have hnewline : '\n' ∉ r.line ds := fun hmem => (ordinary_line hds _ hmem).2.2.2.2 rfl
  have hargv : parseline (r.line ds) = [r.name, '%' :: ds] := by
    rw [Phase2.myShell_parseline_take, cutNewline_eq_self hnewline, words_line hds]
    rfl
  have hbuiltin : builtinCommand r.name ['%' :: ds] = some (withJobId ['%' :: ds] r.action) := by
    cases r <;> rfl
  rw [eval, parseLine_line hds]
  simp only [hargv, hbuiltin, Option.getD_some]

/-! ### What stays of a job -/

theorem Job.Rewrite.kept {job job' : Job} (h : job.Rewrite job') (hused : job'.used = true) :
    job'.pgid = job.pgid ∧ job'.cmdline = job.cmdline := by
  cases h with
  | erase => simp at hused
  | keep | state _ _ _ | live _ _ _ _ => exact ⟨rfl, rfl⟩

theorem Job.Rewrite.newline_notMem {job job' : Job} (h : job.Rewrite job')
    (hcmd : '\n' ∉ job.cmdline) : '\n' ∉ job'.cmdline := by
  cases h with
  | erase => exact List.not_mem_nil
  | keep | state _ _ _ | live _ _ _ _ => exact hcmd

namespace JobTable

theorem setState_rewrite {i : Slot} (hi : (t.jobs i).used = true) {state : JobState}
    (hstate : state ≠ .empty) (j : Slot) :
    (t.jobs j).Rewrite ((t.setState i state).jobs j) := by
  rw [jobs_setState]
  split
  · next hj =>
      subst hj
      exact .state state hi hstate
  · exact .keep

theorem sigchldBody_rewrite (t : JobTable) (pid : Int) (status : Status) (j : Slot) :
    (t.jobs j).Rewrite ((t.sigchldBody pid status).jobs j) := by
  generalize ht' : t.sigchldBody pid status = t'
  have hcharge : Charge t pid status t' := ht' ▸ t.sigchldBody_charge pid status
  cases hcharge with
  | unknown | keep => exact .keep
  | stop i hfind | resume i hfind =>
      exact setState_rewrite (findJobByPid_spec hfind).1 (by decide) j
  | charge i hfind hst hlive =>
      rw [jobs_setJob]
      split
      · next hj =>
          subst hj
          exact .live _ (findJobByPid_spec hfind).1 (by omega) (by omega)
      · exact .keep
  | free i hfind hst hlive =>
      rw [jobs_deleteJob]
      split
      · exact .erase
      · exact .keep

end JobTable

theorem afterFork_cmdline (fds : FdTable) (f : LaunchFrame) (fd : Int × Int) (pid : Int) :
    (afterFork fds f fd pid).2.cmdline = f.cmdline := by
  simp only [afterFork]
  split <;> rfl

theorem builtinCommand_ne_launch {cmd : CString} {args : List CString} {action : Action}
    (hb : builtinCommand cmd args = some action) (segments : List CString) (bg : Bool)
    (cmdline : CString) : action ≠ .launch segments bg cmdline := by
  unfold builtinCommand withJobId at hb
  grind

/-- The text of the job is made of the line. -/
theorem eval_launch_text {line cmdline : CString} {segments : List CString} {bg : Bool}
    (h : eval line = .launch segments bg cmdline) : cmdline = normalizeJobcmd line := by
  unfold eval at h
  split at h
  · cases h
  · cases h
  · split at h
    · cases h
    · next cmd args hargv =>
        cases hb : builtinCommand cmd args with
        | none =>
            rw [hb] at h
            cases h
            rfl
        | some action =>
            rw [hb] at h
            exact absurd h (builtinCommand_ne_launch hb segments bg cmdline)
  · cases h
    rfl

namespace Shell

/-- The job in a slot is rewritten, or `launch_pipeline` has added it. -/
theorem freeStep_slot {s s' : Shell} {e : Event} (hs : s.freeStep e = some s') (j : Slot) :
    (s.table.jobs j).Rewrite (s'.table.jobs j) ∨
      ∃ f, s.pc = .launch f ∧ (s'.table.jobs j).jid = s.table.nextJid ∧
        (s'.table.jobs j).cmdline = f.cmdline.take (MAXLINE - 1) := by
  cases e with
  | report pid status =>
      simp only [Shell.freeStep] at hs
      split at hs
      · cases hs
        exact .inl (s.table.sigchldBody_rewrite pid status j)
      · cases hs
  | step l =>
      cases step_transition hs with
      | read line stack hrun hpc =>
          obtain ⟨hstart, -⟩ | ⟨hstart, -⟩ := start_eq s stack (eval line) hpc <;>
            exact .inl (hstart ▸ .keep)
      | add f fds hrun hpc hend =>
          obtain ⟨-, hadd⟩ | ⟨i, t', -, hadd, -, hother, hnew⟩ := s.table.addJob_cases f.pgid
            f.pids f.nseg (if f.bg then .background else .foreground) f.cmdline
          · rw [hadd]
            exact .inl .keep
          · rw [hadd, JobTable.jobs_updateFgPgid]
            rcases eq_or_ne j i with rfl | hji
            · exact .inr ⟨f, hpc, by rw [hnew], by rw [hnew]⟩
            · exact .inl (hother j hji ▸ .keep)
      | bgFound jid i hrun hpc hfind | fgFound jid i hrun hpc hfind =>
          exact .inl (JobTable.setState_rewrite (JobTable.findJobByJid_spec hfind).1
            (by decide) j)
      | reap pid status children hin hreport hpids =>
          exact .inl (s.table.sigchldBody_rewrite pid status j)
      | goto _ _ _ _ | unlock _ _ _ | killFound _ _ _ _ _ | pipeFails _ _ _
      | forkFails _ _ _ _ _ _ _ | forks _ _ _ _ _ _ _ _ _ | change _ _ _ _ | deliver _ _
      | handlerReturns _ _ _ | keyboard => exact .inl .keep

/-- The texts of jobs, and of the one that is launched, have no newline. -/
structure OneLine (s : Shell) : Prop where
  jobs : ∀ j, '\n' ∉ (s.table.jobs j).cmdline
  frame : ∀ f, s.pc = .launch f → '\n' ∉ f.cmdline

theorem OneLine.init : OneLine {} := ⟨fun _ => List.not_mem_nil, fun _ hpc => by cases hpc⟩

theorem OneLine.freeStep {s s' : Shell} {e : Event} (h : OneLine s)
    (hs : s.freeStep e = some s') : OneLine s' := by
  refine ⟨fun j => ?_, fun f' hf' => ?_⟩
  · rcases freeStep_slot hs j with hrewrite | ⟨f, hpc, -, htext⟩
    · exact hrewrite.newline_notMem (h.jobs j)
    · rw [htext]
      exact fun hmem => h.frame f hpc (List.mem_of_mem_take hmem)
  cases e with
  | report pid status =>
      simp only [Shell.freeStep] at hs
      split at hs
      · cases hs
        exact h.frame f' hf'
      · cases hs
  | step l =>
      cases step_transition hs with
      | read line stack hrun hpc =>
          have hpc' : (eval line).pc stack = .launch f' := by
            obtain ⟨hstart, -⟩ | ⟨hstart, -⟩ := start_eq s stack (eval line) hpc <;>
              rw [hstart] at hf' <;> exact hf'
          obtain ⟨segments, bg, cmdline, heval, rfl⟩ := Action.of_pc_launch hpc'
          rw [LaunchFrame.enter, eval_launch_text heval]
          exact fun hmem => newline_notMem_cutNewline line (mem_of_mem_stripAmp hmem)
      | goto l pc hrun hgoto =>
          cases hgoto with
          | skip f segment hpc hmem hnil =>
              cases hf'
              exact h.frame f hpc
          | _ => cases hf'
      | unlock pc hrun hunlock =>
          have hmasked := hunlock.masked_eq.2
          cases hf'
          exact absurd hmasked Bool.noConfusion
      | forkFails f fds fds' fd hrun hpc hi | forks pid f fds fds' fd hrun hpc hi hfresh =>
          cases hf'
          rw [afterFork_cmdline]
          exact h.frame f hpc
      | handlerReturns pc hin hpc =>
          obtain ⟨rfl, -⟩ | ⟨g, hsus, rfl⟩ := hpc
          · exact h.frame f' hf'
          · cases hf'
      | add _ _ _ _ _ | bgFound _ _ _ _ _ | fgFound _ _ _ _ _ | killFound _ _ _ _ _
      | pipeFails _ _ _ => cases hf'
      | change _ _ _ _ | deliver _ _ | reap _ _ _ _ _ _ | keyboard => exact h.frame f' hf'

/-- The number `n` belongs to the job that was in slot `i`, if to any. -/
structure Stays (i : Slot) (job : Job) (t : JobTable) : Prop where
  given : job.jid < t.nextJid
  same : ∀ j, (t.jobs j).used = true → (t.jobs j).jid = job.jid →
    j = i ∧ (t.jobs j).pgid = job.pgid ∧ (t.jobs j).cmdline = job.cmdline

theorem Stays.freeStep {s s' : Shell} {e : Event} {i : Slot} {job : Job} (hin : s.InOrder)
    (h : Stays i job s.table) (hs : s.freeStep e = some s') : Stays i job s'.table := by
  have hnext : s.table.nextJid ≤ s'.table.nextJid := by
    rcases hin.jidGiven hs with ⟨-, hsame⟩ | ⟨-, hsucc⟩ <;> omega
  refine ⟨h.given.trans_le hnext, fun j hused hjid => ?_⟩
  rcases freeStep_slot hs j with hrewrite | ⟨f, -, hnew, -⟩
  · obtain ⟨hused', hjid'⟩ := hrewrite.same hused
    obtain ⟨hpgid, hcmd⟩ := hrewrite.kept hused
    obtain ⟨hslot, hgroup, htext⟩ := h.same j hused' (hjid'.symm.trans hjid)
    exact ⟨hslot, hpgid.trans hgroup, hcmd.trans htext⟩
  · have hgiven := h.given
    omega

end Shell

/-! ### The listing in a run -/

/-- What a row of the listing of `t` tells about the job in slot `i`: behind a `%` its number
means this job, in `t` and in the table `later`, unless the job is gone by then. -/
structure Row.Tells (row : Row) (t later : JobTable) (i : Slot) : Prop where
  state : row.state = jobStateName (t.jobs i).state
  cmdline : row.cmdline = (t.jobs i).cmdline
  typed : ∀ r : JobBuiltin, eval (r.line row.jid ++ ['\n']) = r.action (t.jobs i).jid
  found : t.findJobByJid (t.jobs i).jid = some i
  lasting : ∀ j, later.findJobByJid (t.jobs i).jid = some j →
    j = i ∧ (later.jobs j).pgid = (t.jobs i).pgid ∧ (later.jobs j).cmdline = (t.jobs i).cmdline

/-- A number that is printed is parsed as itself. -/
theorem parseJobId_toString {n : Int} (hpos : 0 < n) (hmax : n ≤ intMax) :
    parseJobId (some ('%' :: (toString n).toList)) = some n := by
  rw [intMax] at hmax
  have hsaturate : saturate n = n :=
    saturate_eq_self (by rw [longMin]; omega) (by rw [longMax]; omega)
  have hint : toInt n = n := Int.bmod_eq_of_le (by omega) (by omega)
  exact parseJobId_eq_some.mpr
    ⟨n, ⟨_, rfl, isNumeral_toString n⟩, by rw [hsaturate, hint], hpos⟩

theorem JobTable.SlotsSound.findJobByJid {t : JobTable} (h : t.SlotsSound) {i : Slot}
    (hi : (t.jobs i).used = true) : t.findJobByJid (t.jobs i).jid = some i := by
  cases hfind : t.findJobByJid (t.jobs i).jid with
  | none =>
      have hnone := findSlot_eq_none.mp hfind i
      simp [hi] at hnone
  | some j =>
      obtain ⟨hj, hjid⟩ := findJobByJid_spec hfind
      rw [h.distinct j i hj hi hjid]

namespace Shell

variable {s s' : Shell}

theorem listed_of_reachable (hrun : Reachable freeStep anyStep {} s) : s.InOrder ∧ s.OneLine :=
  hrun.invariant (I := fun s => InOrder s ∧ OneLine s) ⟨.init, .init⟩
    fun _ _ _ h _ hs => ⟨h.1.freeStep hs, h.2.freeStep hs⟩

/-- A number stays with its job. -/
theorem stays_of_reachable (hin : s.InOrder) (hlater : Reachable freeStep anyStep s s') {i : Slot}
    (hi : (s.table.jobs i).used = true) :
    s'.InOrder ∧ s.table.nextJid ≤ s'.table.nextJid ∧ Stays i (s.table.jobs i) s'.table := by
  refine hlater.invariant (I := fun s' => InOrder s' ∧ s.table.nextJid ≤ s'.table.nextJid ∧
    Stays i (s.table.jobs i) s'.table) ⟨hin, le_rfl, ?_, fun j hj hjid => ?_⟩ ?_
  · exact ((hin.slots.sound i).issued hi).2
  · obtain rfl := hin.slots.distinct j i hj hi hjid
    exact ⟨rfl, rfl, rfl⟩
  · rintro m e m' ⟨hm, hnext, hstays⟩ - hs
    refine ⟨hm.freeStep hs, hnext.trans ?_, hstays.freeStep hm hs⟩
    rcases hm.jidGiven hs with ⟨-, hsame⟩ | ⟨-, hsucc⟩ <;> omega

/-- **The listing can be typed back.** It has one row for each job, in the order of the slots;
what it tells stays true as long as `next_jid` does not overflow. -/
theorem listing_tells (hrun : Reachable freeStep anyStep {} s)
    (hlater : Reachable freeStep anyStep s s') (hjids : s'.table.nextJid ≤ intMax) :
    List.Forall₂ (fun row i => row.Tells s.table s'.table i) (readListing (listJobs s.table))
      s.table.usedSlots := by
  obtain ⟨hin, hone⟩ := listed_of_reachable hrun
  have hissued (i : Slot) (hi : (s.table.jobs i).used = true) := (hin.slots.sound i).issued hi
  rw [readListing_listJobs hone.jobs fun i hi => (hissued i hi).1, List.forall₂_map_left_iff,
    List.forall₂_same]
  intro i hi
  have hused : (s.table.jobs i).used = true := (List.mem_filter.mp hi).2
  obtain ⟨hpos, hlt⟩ := hissued i hused
  obtain ⟨-, hnext, hstays⟩ := stays_of_reachable hin hlater hused
  refine ⟨rfl, rfl, fun r => ?_, hin.slots.findJobByJid hused, fun j hj => ?_⟩
  · refine (eval_line (digits_toString hpos)).trans ?_
    rw [withJobId, List.head?_cons, parseJobId_toString hpos (by omega)]
  · obtain ⟨hjused, hjid⟩ := JobTable.findJobByJid_spec hj
    exact hstays.same j hjused hjid

/-- Two jobs in the background, of which the first is stopped. -/
def twoListed : Shell :=
  (exec (restrict freeStep anyStep)
    [.step (.readLine "sleep 9 | cat &\n".toList fun _ => 0), .step (.forks 100),
      .step (.forks 101), .step .proceed, .step .proceed, .step .proceed,
      .step (.readLine "vi &\n".toList fun _ => 0), .step (.forks 102), .step .proceed,
      .step .proceed, .step .proceed, .step (.change 100 .stopped), .step .deliver,
      .step (.reap 100), .step .handlerReturns] {}).get (by decide +kernel)

example : listJobs twoListed.table =
    "[1] Stopped    sleep 9 | cat\n[2] Running    vi\n".toList := by decide +kernel

/-- The second job has ended, and a third one has taken its slot. -/
def threeListed : Shell :=
  (exec (restrict freeStep anyStep)
    [.step (.change 102 .exited), .step .deliver, .step (.reap 102), .step .handlerReturns,
      .step (.readLine "ls &\n".toList fun _ => 0), .step (.forks 103), .step .proceed]
    twoListed).get (by decide +kernel)

theorem listing_tells_threeListed :
    List.Forall₂ (fun row i => row.Tells twoListed.table threeListed.table i)
      (readListing (listJobs twoListed.table)) twoListed.table.usedSlots :=
  listing_tells (.of_exec (Option.some_get _).symm) (.of_exec (Option.some_get _).symm)
    (by decide +kernel)

end Shell

end SystemProgramming.MyShell
