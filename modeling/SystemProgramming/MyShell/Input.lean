import SystemProgramming.Library.LineReader
import SystemProgramming.MyShell.Buffer
import SystemProgramming.MyShell.Machine

/-!
The loop of `main` and its standard input. `fgets` reads a line into a buffer of
`MAXLINE` characters, and `main` does not look whether the newline has come with
it: what did not fit is the next command.

`eval` is taken to return unless the line makes it call `exit`; what it does in
between is in the machine of the shell.
-/

namespace SystemProgramming.MyShell

open SystemProgramming.CLib SystemProgramming.Library

def newline (c : Char) : Bool := c = '\n'

/-- `fgets (cmdline, size, stdin)` with `input` to come: the string in `cmdline` and what it
leaves, or null at the end of the file. -/
def fgets (size : Nat) (input : CString) : Option (CString × CString) :=
  if input = [] then none
  else
    let (taken, rest) := readUpTo newline (size - 1) input
    some (taken.takeWhile (· ≠ Buffer.NUL), rest)

/-- `eval` calls `exit`. -/
def exits (line : CString) : Bool :=
  match eval line with
  | .exit => true
  | _ => false

/-! ### The loop of `main` -/

/-- What is left of the standard input, the arguments of `eval` so far, and whether `main` is
still in its loop. -/
structure MainLoop where
  input : CString
  calls : List CString := []
  running : Bool := true

/-- A round of the loop: the call of `fgets` goes through, or a read error ends it and leaves
the input as it is. -/
inductive Round
  | reads
  | fails
  deriving DecidableEq

namespace MainLoop

/-- Behind a null that does not mean the end of the file, whatever `errno` is, the loop goes on
with its next round. -/
def step (s : MainLoop) : Round → Option MainLoop
  | .fails => if s.running then some s else none
  | .reads =>
      if s.running then
        match fgets MAXLINE s.input with
        | none => some { s with running := false }
        | some (cmdline, rest) =>
            some { input := rest, calls := s.calls ++ [cmdline], running := !exits cmdline }
      else none

end MainLoop

/-! ### One line is one command -/

/-- The lines up to the first one that ends the shell. -/
def upToExit : List CString → List CString
  | [] => []
  | line :: more => line :: if exits line then [] else upToExit more

/-- The lines the shell is to evaluate. -/
def commandLines (text : CString) : List CString := upToExit (lines newline text)

theorem commandLines_of_ne_nil {text : CString} (htext : text ≠ []) :
    commandLines text = firstLine newline text ::
      if exits (firstLine newline text) then [] else commandLines (afterLine newline text) := by
  rw [commandLines, lines_of_ne_nil newline htext, upToExit]
  rfl

/-- `main` evaluates the lines of the text, in order and each one whole. -/
structure LineByLine (text : CString) : Prop where
  /-- Nothing else is ever evaluated, and when the shell ends nothing is left out. -/
  calls : ∀ s, Reachable MainLoop.step anyStep ⟨text, [], true⟩ s →
    s.calls <+: commandLines text ∧ (s.running = false → s.calls = commandLines text)
  /-- The loop goes on until the shell ends, and that takes one read for each character and
  one for the end of the file at most. -/
  ends : ∀ rounds s, exec MainLoop.step rounds ⟨text, [], true⟩ = some s →
    rounds.count .reads ≤ text.length + 1 ∧ (s.running = true → ∀ r, (s.step r).isSome)

theorem firstLine_mem_commandLines {text : CString} (htext : text ≠ []) :
    firstLine newline text ∈ commandLines text := by
  rw [commandLines_of_ne_nil htext]
  exact List.mem_cons_self

namespace MainLoop

variable {s s' : MainLoop} {text : CString} {r : Round}

/-- The lines still to come. -/
def toCome (s : MainLoop) : List CString := if s.running then commandLines s.input else []

/-- What one round does. -/
theorem step_cases (h : s.step r = some s') : s.running = true ∧
    ((r = .fails ∧ s' = s) ∨
    (r = .reads ∧ s.input = [] ∧ s' = { s with running := false }) ∨
    ∃ cmdline rest, r = .reads ∧ s.input ≠ [] ∧ fgets MAXLINE s.input = some (cmdline, rest) ∧
      s' = { input := rest, calls := s.calls ++ [cmdline], running := !exits cmdline }) := by
  cases r with
  | fails =>
      rw [step] at h
      split at h
      · next hrun => exact ⟨hrun, .inl ⟨rfl, (Option.some.inj h).symm⟩⟩
      · cases h
  | reads =>
      rw [step] at h
      split at h
      · next hrun =>
          refine ⟨hrun, .inr ?_⟩
          by_cases hend : s.input = []
          · rw [hend, fgets, if_pos rfl] at h
            exact .inl ⟨rfl, hend, (Option.some.inj h).symm.trans (by rw [← hend])⟩
          · rw [fgets, if_neg hend] at h
            exact .inr ⟨_, _, rfl, hend, if_neg hend, (Option.some.inj h).symm⟩
      · cases h

/-- `fgets` of a text without NULs. -/
theorem fgets_eq {input : CString} (hne : input ≠ []) (hnul : Buffer.NUL ∉ input) :
    fgets MAXLINE input = some (readUpTo newline (MAXLINE - 1) input) := by
  have hclean : ∀ c ∈ (readUpTo newline (MAXLINE - 1) input).1, c ≠ Buffer.NUL := by
    rintro c hc rfl
    rw [readUpTo_eq] at hc
    apply hnul
    rw [← firstLine_append_afterLine newline input]
    exact List.mem_append_left _ (List.mem_of_mem_take hc)
  rw [fgets, if_neg hne]
  refine congrArg some (Prod.ext ?_ rfl)
  exact List.takeWhile_eq_self_iff.mpr fun c hc => decide_eq_true (hclean c hc)

/-! ### Lines that fit

What is evaluated and what is to come make up the lines of the text, as long as every line
has room in the buffer. -/

structure OnTrack (text : CString) (s : MainLoop) : Prop where
  clean : Buffer.NUL ∉ s.input
  split : s.calls ++ s.toCome = commandLines text

theorem toCome_of_running (hrun : s.running = true) : s.toCome = commandLines s.input :=
  if_pos hrun

theorem toCome_of_ended (hrun : s.running = false) : s.toCome = [] := by
  rw [toCome, hrun, if_neg Bool.false_ne_true]

theorem toCome_cons (hrun : s.running = true) (hne : s.input ≠ []) (calls : List CString) :
    s.toCome = firstLine newline s.input ::
      toCome ⟨afterLine newline s.input, calls, !exits (firstLine newline s.input)⟩ := by
  rw [toCome_of_running hrun, commandLines_of_ne_nil hne, toCome]
  cases exits (firstLine newline s.input) <;> rfl

theorem onTrack_init (hnul : Buffer.NUL ∉ text) : OnTrack text ⟨text, [], true⟩ :=
  ⟨hnul, rfl⟩

/-- A round keeps to the lines where the next one fits. -/
theorem OnTrack.step (hs : OnTrack text s) (h : s.step r = some s')
    (hfit : (firstLine newline s.input).length ≤ MAXLINE - 1) :
    OnTrack text s' ∧
      (s.toCome = s'.toCome ∨ s.toCome = firstLine newline s.input :: s'.toCome) := by
  obtain ⟨hrun, ⟨-, rfl⟩ | ⟨-, hend, rfl⟩ | ⟨cmdline, rest, -, hne, hfgets, rfl⟩⟩ := step_cases h
  · exact ⟨hs, .inl rfl⟩
  · have hnone : s.toCome = toCome { s with running := false } := by
      rw [toCome_of_running hrun, hend]
      rfl
    exact ⟨⟨hs.clean, hnone ▸ hs.split⟩, .inl hnone⟩
  · rw [fgets_eq hne hs.clean, readUpTo_of_le newline hfit, Option.some.injEq,
      Prod.mk.injEq] at hfgets
    obtain ⟨rfl, rfl⟩ := hfgets
    have hcome := toCome_cons hrun hne (s.calls ++ [firstLine newline s.input])
    refine ⟨⟨fun hmem => hs.clean ?_, ?_⟩, .inr hcome⟩
    · rw [← firstLine_append_afterLine newline s.input]
      exact List.mem_append_right _ hmem
    · rw [← hs.split, hcome, List.append_assoc, List.singleton_append]

/-- Where all the lines to come fit. -/
structure AllFit (text : CString) (s : MainLoop) : Prop extends OnTrack text s where
  fit : ∀ line ∈ s.toCome, line.length ≤ MAXLINE - 1

theorem AllFit.first (hs : AllFit text s) (hrun : s.running = true) :
    (firstLine newline s.input).length ≤ MAXLINE - 1 := by
  by_cases hne : s.input = []
  · rw [hne]
    exact Nat.zero_le _
  · apply hs.fit
    rw [toCome_cons hrun hne []]
    exact List.mem_cons_self

theorem AllFit.step (hs : AllFit text s) (h : s.step r = some s') : AllFit text s' := by
  obtain ⟨hs', hcome | hcome⟩ := hs.toOnTrack.step h (hs.first (step_cases h).1)
  · exact ⟨hs', hcome ▸ hs.fit⟩
  · exact ⟨hs', fun line hline => hs.fit line (hcome ▸ List.mem_cons_of_mem _ hline)⟩

/-! ### A line that does not fit -/

/-- Something has been evaluated that is no line of the text, or this is going to happen. -/
def OffTrack (text : CString) (s : MainLoop) : Prop :=
  ¬s.calls <+: commandLines text ∨
    OnTrack text s ∧ ∃ line ∈ s.toCome, MAXLINE - 1 < line.length

/-- The part of a line is no line. -/
theorem not_prefix_of_long (hs : OnTrack text s) (hrun : s.running = true) (hne : s.input ≠ [])
    (hlong : MAXLINE - 1 < (firstLine newline s.input).length) :
    ¬s.calls ++ [(firstLine newline s.input).take (MAXLINE - 1)] <+: commandLines text := by
  rw [← hs.split, toCome_cons hrun hne [], List.prefix_append_right_inj, List.cons_prefix_cons]
  rintro ⟨heq, -⟩
  have hlen := congrArg List.length heq
  rw [List.length_take] at hlen
  omega

theorem OffTrack.step (hs : OffTrack text s) (h : s.step r = some s') : OffTrack text s' := by
  obtain hoff | ⟨hon, line, hline, hlong⟩ := hs
  · left
    obtain ⟨-, ⟨-, rfl⟩ | ⟨-, -, rfl⟩ | ⟨cmdline, rest, -, -, -, rfl⟩⟩ := step_cases h
    · exact hoff
    · exact hoff
    · exact fun hpre => hoff ((List.prefix_append _ _).trans hpre)
  · obtain hfit | hfirst := le_or_gt (firstLine newline s.input).length (MAXLINE - 1)
    · obtain ⟨hon', hcome | hcome⟩ := hon.step h hfit
      · exact .inr ⟨hon', line, hcome ▸ hline, hlong⟩
      · rw [hcome] at hline
        obtain rfl | hline := List.mem_cons.mp hline
        · omega
        · exact .inr ⟨hon', line, hline, hlong⟩
    · obtain ⟨hrun, ⟨-, rfl⟩ | ⟨-, hend, rfl⟩ | ⟨cmdline, rest, -, hne, hfgets, rfl⟩⟩ :=
        step_cases h
      · exact .inr ⟨hon, line, hline, hlong⟩
      · rw [hend] at hfirst
        cases hfirst
      · rw [fgets_eq hne hon.clean, readUpTo_eq, Option.some.injEq, Prod.mk.injEq] at hfgets
        obtain ⟨rfl, -⟩ := hfgets
        exact .inl (not_prefix_of_long hon hrun hne hfirst)

/-! ### Reads that are left -/

/-- How many calls of `fgets` may still go through. -/
def readsLeft (s : MainLoop) : Nat := if s.running then s.input.length + 1 else 0

theorem isSome_step (hrun : s.running = true) (r : Round) : (s.step r).isSome := by
  cases r with
  | fails => rw [step, if_pos hrun]; rfl
  | reads =>
      rw [step, if_pos hrun]
      split <;> rfl

theorem readsLeft_step (h : s.step r = some s') :
    s'.readsLeft + (if r == .reads then 1 else 0) ≤ s.readsLeft := by
  obtain ⟨hrun, ⟨rfl, rfl⟩ | ⟨rfl, -, rfl⟩ | ⟨cmdline, rest, rfl, hne, hfgets, rfl⟩⟩ :=
    step_cases h
  · exact Nat.le_refl _
  · rw [readsLeft, readsLeft, if_pos hrun, if_neg Bool.false_ne_true]
    exact Nat.succ_le_succ (Nat.zero_le _)
  · rw [fgets, if_neg hne, Option.some.injEq, Prod.mk.injEq] at hfgets
    have hlt := length_readUpTo_lt newline (n := MAXLINE - 1) (by decide) hne
    rw [hfgets.2] at hlt
    have hle : readsLeft ⟨rest, s.calls ++ [cmdline], !exits cmdline⟩ ≤ rest.length + 1 := by
      rw [readsLeft]
      split
      · exact Nat.le_refl _
      · exact Nat.zero_le _
    rw [readsLeft.eq_1 s, if_pos hrun]
    exact Nat.succ_le_succ (hle.trans hlt)

theorem count_reads_le {rounds : List Round} (h : exec step rounds s = some s') :
    rounds.count .reads + s'.readsLeft ≤ s.readsLeft :=
  countP_le_of_exec (fun _ _ _ _ hstep => ⟨trivial, readsLeft_step hstep⟩) trivial h

/-- The loop can get to its end from everywhere. -/
theorem exists_end (s : MainLoop) :
    ∃ t, Reachable step anyStep s t ∧ t.running = false := by
  induction hleft : s.readsLeft using Nat.strong_induction_on generalizing s with
  | _ left ih =>
      cases hrun : s.running with
      | false => exact ⟨s, .refl, hrun⟩
      | true =>
          obtain ⟨s', hs'⟩ := Option.isSome_iff_exists.mp (isSome_step hrun .reads)
          have hlt : s'.readsLeft < left := by
            rw [← hleft]
            exact readsLeft_step hs'
          obtain ⟨t, ht, hend⟩ := ih _ hlt s' rfl
          exact ⟨t, .head ⟨.reads, trivial, hs'⟩ ht, hend⟩

end MainLoop

theorem lineByLine_of_fit {text : CString} (hnul : Buffer.NUL ∉ text)
    (hfit : ∀ line ∈ commandLines text, line.length ≤ MAXLINE - 1) : LineByLine text := by
  refine ⟨fun s hreach => ?_, fun rounds s hexec => ?_⟩
  · have hs : MainLoop.AllFit text s :=
      hreach.invariant ⟨MainLoop.onTrack_init hnul, hfit⟩
        fun _ _ _ hs _ hstep => hs.step hstep
    refine ⟨⟨s.toCome, hs.split⟩, fun hend => ?_⟩
    rw [← hs.split, MainLoop.toCome_of_ended hend, List.append_nil]
  · exact ⟨(Nat.le_add_right _ _).trans (MainLoop.count_reads_le hexec), MainLoop.isSome_step⟩

theorem not_lineByLine_of_long {text line : CString} (hnul : Buffer.NUL ∉ text)
    (hline : line ∈ commandLines text) (hlong : MAXLINE - 1 < line.length) :
    ¬LineByLine text := by
  intro htext
  obtain ⟨t, hreach, hend⟩ := MainLoop.exists_end ⟨text, [], true⟩
  have hoff : MainLoop.OffTrack text t :=
    hreach.invariant (.inr ⟨MainLoop.onTrack_init hnul, line, hline, hlong⟩)
      fun _ _ _ hs _ hstep => hs.step hstep
  obtain hcalls | ⟨-, later, hlater, -⟩ := hoff
  · exact hcalls (htext.calls t hreach).1
  · rw [MainLoop.toCome_of_ended hend] at hlater
    cases hlater

/-- **The lines of the input.** The shell evaluates a text line by line if and only if every
line up to the one that ends the shell fits into the buffer of `main`. -/
theorem lineByLine_iff {text : CString} (hnul : Buffer.NUL ∉ text) :
    LineByLine text ↔ ∀ line ∈ commandLines text, line.length ≤ MAXLINE - 1 := by
  refine ⟨fun htext line hline => ?_, lineByLine_of_fit hnul⟩
  by_contra hlong
  exact not_lineByLine_of_long hnul hline (Nat.lt_of_not_le hlong) htext

theorem lineByLine_twoLines : LineByLine "jobs\nls".toList :=
  (lineByLine_iff (by decide)).mpr (by decide)

/-- The 8191 characters that fit are `echo` and blanks; the next command is `exit`. -/
theorem not_lineByLine_longLine :
    ¬LineByLine ("echo".toList ++ List.replicate 8187 ' ' ++ "exit".toList ++ ['\n']) := by
  have hchars (c : Char)
      (hc : c ∈ "echo".toList ++ List.replicate 8187 ' ' ++ "exit".toList) :
      newline c = false ∧ c ≠ Buffer.NUL := by
    have hwords : ("echoexit".toList.all fun c => !newline c && c != Buffer.NUL) = true := by
      decide
    have hblank : newline ' ' = false ∧ ' ' ≠ Buffer.NUL := by decide
    rw [List.mem_append, List.mem_append, List.mem_replicate, or_right_comm,
      ← List.mem_append] at hc
    obtain hc | ⟨-, rfl⟩ := hc
    · simpa using List.all_eq_true.mp hwords c hc
    · exact hblank
  have hline := firstLine_append_cons newline (fun c hc => (hchars c hc).1)
    (show newline '\n' = true by rfl) []
  have hnul : Buffer.NUL ∉
      "echo".toList ++ List.replicate 8187 ' ' ++ "exit".toList ++ ['\n'] := by
    rw [List.mem_append]
    rintro (hmem | hmem)
    · exact (hchars _ hmem).2 rfl
    · exact absurd hmem (by decide)
  have hmem := firstLine_mem_commandLines (List.append_ne_nil_of_right_ne_nil
    ("echo".toList ++ List.replicate 8187 ' ' ++ "exit".toList) (List.cons_ne_nil '\n' []))
  refine not_lineByLine_of_long hnul hmem ?_
  rw [hline]
  simp only [List.length_append, List.length_replicate]
  decide

end SystemProgramming.MyShell
