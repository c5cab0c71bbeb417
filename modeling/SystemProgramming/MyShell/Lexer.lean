import SystemProgramming.CLib

/-!
The two scanners of the phase 3 shell. Both work in place on a buffer: they
write NULs behind the pieces they find and hand out pointers to them. Every
piece is read only up to its own NUL afterwards, so the model hands out the
pieces themselves.

`parse_line` cuts a line at its unquoted `|` and strips a trailing `&`;
`parseline` cuts one segment into words.
-/

namespace SystemProgramming.MyShell

open SystemProgramming.CLib

def MAXLINE : Nat := 8192
def MAXARGS : Nat := 128
def MAXCMDS : Nat := 16
def MAXJOBS : Nat := 16

/-- `trim_ws`: the first loop skips leading white space, the second overwrites
trailing white space with NULs. -/
def trimWs (s : CString) : CString := (s.dropWhile isspace).rdropWhile isspace

/-- `normalize_jobcmd`. -/
def normalizeJobcmd (cmdline : CString) : CString :=
  let s := trimWs (cutNewline cmdline)
  if s.getLast? = some '&' then trimWs s.dropLast else s

/-- The word of `parseline` that begins with `c`, and the text behind the NUL
that ends it. A word that begins with a quote runs up to the same quote. -/
def wordAt (c : Char) (p : CString) : CString × CString :=
  if c = '"' ∨ c = '\'' then
    (p.takeWhile (· ≠ c), (p.dropWhile (· ≠ c)).drop 1)
  else
    ((c :: p).takeWhile (!isspace ·), ((c :: p).dropWhile (!isspace ·)).drop 1)

/-- The loop of `parseline` with `p` the rest of the buffer and `argv` the words
stored so far. Every round consumes a character, so the length of the buffer
is fuel enough. -/
def parselineLoop : Nat → CString → List CString → List CString
  | 0, _, argv => argv
  | fuel + 1, p, argv =>
      match p.dropWhile isspace with
      | [] => argv
      | c :: p =>
          let argv := argv ++ [(wordAt c p).1]
          if argv.length ≥ MAXARGS - 1 then argv
          else parselineLoop fuel (wordAt c p).2 argv

/-- `parseline`: the argument vector, without the NULL that ends it. -/
def parseline (buf : CString) : List CString :=
  parselineLoop (cutNewline buf).length (cutNewline buf) []

/-- The loop of `parse_line`. `cur` is the text between `start` and `p`, and
`segments` what has been cut off before `start`; `none` is the return value
-1. -/
def parseLineLoop : CString → Bool → Bool → CString → List CString →
    Option (CString × List CString)
  | [], _, _, cur, segments => some (cur, segments)
  | c :: p, inSingle, inDouble, cur, segments =>
      if c = '\'' ∧ ¬inDouble then
        parseLineLoop p (!inSingle) inDouble (cur ++ [c]) segments
      else if c = '"' ∧ ¬inSingle then
        parseLineLoop p inSingle (!inDouble) (cur ++ [c]) segments
      else if ¬inSingle ∧ ¬inDouble ∧ c = '|' then
        let segment := trimWs cur
        if segment = [] ∨ '&' ∈ segment then none
        else if segments.length + 1 ≥ MAXCMDS then none
        else parseLineLoop p inSingle inDouble [] (segments ++ [segment])
      else parseLineLoop p inSingle inDouble (cur ++ [c]) segments

/-- What `parse_line` does behind its loop, with `start` the text behind the last
unquoted `|`. -/
def parseLineLast (start : CString) (segments : List CString) :
    Option (List CString × Bool) :=
  let start := trimWs start
  if start = [] then
    if segments = [] then some ([], false) else none
  else if start.getLast? = some '&' then
    let start := trimWs start.dropLast
    if start = [] ∨ '&' ∈ start then none else some (segments ++ [start], true)
  else if '&' ∈ start then none
  else some (segments ++ [start], false)

/-- `parse_line`: the segments, whose number is `nseg`, and `bg`. -/
def parseLine (buf : CString) : Option (List CString × Bool) :=
  (parseLineLoop (cutNewline buf) false false [] []).bind fun (start, segments) =>
    parseLineLast start segments

example : parseLine "ls -l | grep 'a|b' &\n".toList =
    some (["ls -l".toList, "grep 'a|b'".toList], true) := by decide +kernel

example : parseline "grep \"a b\"c".toList =
    ["grep".toList, "a b".toList, "c".toList] := by decide +kernel

/-! ### What an accepted line looks like

`launch_pipeline` skips a segment without words. The skip is unreachable for
the segments `parse_line` hands out: each begins with a character that is not
white space, so `parseline` finds a word in it. -/

theorem trimWs_head {s t : CString} {c : Char} (h : trimWs s = c :: t) :
    isspace c = false := by
  have hprefix : trimWs s <+: s.dropWhile isspace := List.rdropWhile_prefix _ _
  rw [h] at hprefix
  obtain ⟨r, hr⟩ := hprefix
  have hne : s.dropWhile isspace ≠ [] := by simp [← hr]
  have hhead := List.head_dropWhile_not isspace hne
  simpa [← hr] using hhead

theorem length_wordAt (c : Char) (p : CString) : (wordAt c p).2.length ≤ p.length := by
  have hdrop (test : Char → Bool) (s : CString) : (s.dropWhile test).length ≤ s.length :=
    (List.dropWhile_suffix test).length_le
  rw [wordAt]
  split
  · exact (List.drop_suffix 1 _).length_le.trans (hdrop _ p)
  · have hle := hdrop (!isspace ·) (c :: p)
    rw [List.length_drop]
    simp only [List.length_cons] at hle ⊢
    omega

/-- What is left behind a word is shorter. -/
theorem length_wordAt_lt {p t : CString} {c : Char} (hdrop : p.dropWhile isspace = c :: t) :
    (wordAt c t).2.length < p.length := by
  have hle := (List.dropWhile_suffix (l := p) isspace).length_le
  rw [hdrop, List.length_cons] at hle
  exact (Nat.lt_succ_of_le (length_wordAt c t)).trans_le hle

/-- More rounds than there are characters change nothing. -/
theorem parselineLoop_fuel {fuel fuel' : Nat} {p : CString} (hfuel : p.length ≤ fuel)
    (hfuel' : p.length ≤ fuel') (argv : List CString) :
    parselineLoop fuel p argv = parselineLoop fuel' p argv := by
  have hzero (fuel : Nat) : parselineLoop fuel [] argv = argv := by cases fuel <;> rfl
  induction fuel generalizing fuel' p argv with
  | zero => rw [List.eq_nil_of_length_eq_zero (Nat.le_zero.mp hfuel), hzero, hzero]
  | succ fuel ih =>
      cases fuel' with
      | zero => rw [List.eq_nil_of_length_eq_zero (Nat.le_zero.mp hfuel'), hzero, hzero]
      | succ fuel' =>
          rw [parselineLoop, parselineLoop]
          cases hdrop : p.dropWhile isspace with
          | nil => rfl
          | cons c t =>
              have hless := length_wordAt_lt hdrop
              dsimp only
              split
              · rfl
              · exact ih (by omega) (by omega) _ fun fuel => by cases fuel <;> rfl

/-- The words found so far stay in front. -/
theorem prefix_parselineLoop (fuel : Nat) (p : CString) (argv : List CString) :
    argv <+: parselineLoop fuel p argv := by
  induction fuel generalizing p argv with
  | zero => exact List.prefix_refl _
  | succ fuel ih =>
      simp only [parselineLoop]
      split
      · exact List.prefix_refl _
      · split
        · exact List.prefix_append _ _
        · exact (List.prefix_append _ _).trans (ih _ _)

theorem parseline_ne_nil {c : Char} {t : CString} (hc : isspace c = false) :
    parseline (c :: t) ≠ [] := by
  have hnl : c ≠ '\n' := by
    rintro rfl
    simp [isspace] at hc
  have hcut : cutNewline (c :: t) = c :: cutNewline t := by
    simp [cutNewline, hnl]
  have hdrop (p : CString) : (c :: p).dropWhile isspace = c :: p := by
    simp [hc]
  have hword (fuel : Nat) (p w : CString) : parselineLoop fuel p [w] ≠ [] := by
    obtain ⟨r, hr⟩ := prefix_parselineLoop fuel p [w]
    simp [← hr]
  rw [parseline, hcut, List.length_cons, parselineLoop, hdrop]
  dsimp only
  split
  · simp
  · exact hword _ _ _

theorem parseline_trimWs_ne_nil {s : CString} (h : trimWs s ≠ []) :
    parseline (trimWs s) ≠ [] := by
  obtain ⟨c, t, hct⟩ := List.exists_cons_of_ne_nil h
  rw [hct]
  exact parseline_ne_nil (trimWs_head hct)

/-- The segments the loop of `parse_line` cuts off all have a word, and there are
fewer than `MAXCMDS` of them. -/
theorem parseLineLoop_runnable {p cur start : CString} {inSingle inDouble : Bool}
    {segments segments' : List CString}
    (hsegs : ∀ s ∈ segments, parseline s ≠ []) (hlen : segments.length < MAXCMDS)
    (h : parseLineLoop p inSingle inDouble cur segments = some (start, segments')) :
    (∀ s ∈ segments', parseline s ≠ []) ∧ segments'.length < MAXCMDS := by
  induction p generalizing inSingle inDouble cur segments with
  | nil =>
      simp only [parseLineLoop, Option.some.injEq, Prod.mk.injEq] at h
      exact h.2 ▸ ⟨hsegs, hlen⟩
  | cons c p ih =>
      simp only [parseLineLoop] at h
      split at h
      · exact ih hsegs hlen h
      split at h
      · exact ih hsegs hlen h
      split at h
      · split at h
        · simp at h
        rename_i hseg
        split at h
        · simp at h
        rename_i hroom
        refine ih ?_ ?_ h
        · intro s hs
          rcases List.mem_append.mp hs with hs | hs
          · exact hsegs s hs
          · rw [List.mem_singleton.mp hs]
            exact parseline_trimWs_ne_nil (fun hnil => hseg (.inl hnil))
        · simpa using hroom
      · exact ih hsegs hlen h

/-- Every segment of an accepted line has a word, and there are at most
`MAXCMDS` segments. -/
theorem parseLine_runnable {buf : CString} {segments : List CString} {bg : Bool}
    (h : parseLine buf = some (segments, bg)) :
    (∀ s ∈ segments, parseline s ≠ []) ∧ segments.length ≤ MAXCMDS := by
  rw [parseLine, Option.bind_eq_some_iff] at h
  obtain ⟨⟨start, cut⟩, hloop, hlast⟩ := h
  obtain ⟨hcut, hlen⟩ := parseLineLoop_runnable (by simp) (by decide) hloop
  have hsnoc : ∀ t, trimWs t ≠ [] →
      (∀ s ∈ cut ++ [trimWs t], parseline s ≠ []) ∧
        (cut ++ [trimWs t]).length ≤ MAXCMDS := by
    intro t ht
    refine ⟨?_, by simpa using Nat.succ_le_of_lt hlen⟩
    intro s hs
    rcases List.mem_append.mp hs with hs | hs
    · exact hcut s hs
    · rw [List.mem_singleton.mp hs]
      exact parseline_trimWs_ne_nil ht
  simp only [parseLineLast] at hlast
  split at hlast
  · split at hlast
    · simp only [Option.some.injEq, Prod.mk.injEq] at hlast
      simp [← hlast.1]
    · simp at hlast
  rename_i hstart
  split at hlast
  · split at hlast
    · simp at hlast
    rename_i hrest
    simp only [Option.some.injEq, Prod.mk.injEq] at hlast
    exact hlast.1 ▸ hsnoc _ (fun hnil => hrest (.inl hnil))
  · split at hlast
    · simp at hlast
    simp only [Option.some.injEq, Prod.mk.injEq] at hlast
    exact hlast.1 ▸ hsnoc _ hstart

end SystemProgramming.MyShell
