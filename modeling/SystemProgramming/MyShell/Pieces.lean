import SystemProgramming.Library.Splitting
import SystemProgramming.MyShell.Lexer

/-!
`parse_line` in terms of the pieces between the unquoted bars of a line: each is
trimmed and has to be a command text, the last one may end in an `&`.

`parseLineOut` is `parse_line` with everything it leaves to its caller, also where
it returns -1; `parsePieces` says the same of the pieces.
-/

namespace SystemProgramming.MyShell

open SystemProgramming.CLib SystemProgramming.Library

/-! ### Trimming -/

theorem trimWs_append_blanks (s : CString) :
    trimWs s ++ (s.dropWhile isspace).rtakeWhile isspace = s.dropWhile isspace := by
  rw [trimWs, List.rdropWhile, List.rtakeWhile, ← List.reverse_append,
    List.takeWhile_append_dropWhile, List.reverse_reverse]

/-- What trimming takes away. -/
theorem exists_trimWs (s : CString) : ∃ front back, s = front ++ (trimWs s ++ back) ∧
    (∀ d ∈ front, isspace d = true) ∧ ∀ d ∈ back, isspace d = true := by
  refine ⟨s.takeWhile isspace, (s.dropWhile isspace).rtakeWhile isspace, ?_,
    fun d hd => List.mem_takeWhile_imp hd, fun d hd => List.mem_rtakeWhile_imp hd⟩
  rw [trimWs_append_blanks, List.takeWhile_append_dropWhile]

theorem mem_trimWs {s : CString} {c : Char} (hmem : c ∈ s) (hc : isspace c = false) :
    c ∈ trimWs s := by
  obtain ⟨front, back, hs, hfront, hback⟩ := exists_trimWs s
  rw [hs] at hmem
  rcases List.mem_append.mp hmem with hmem | hmem
  · simp [hfront c hmem] at hc
  · rcases List.mem_append.mp hmem with hmem | hmem
    · exact hmem
    · simp [hback c hmem] at hc

theorem mem_of_mem_trimWs {s : CString} {c : Char} (hmem : c ∈ trimWs s) : c ∈ s :=
  (List.dropWhile_suffix _).subset ((List.rdropWhile_prefix _ _).subset hmem)

theorem trimWs_blanks_append {blanks : CString} (hblanks : ∀ d ∈ blanks, isspace d = true)
    (s : CString) : trimWs (blanks ++ s) = trimWs s := by
  rw [trimWs, trimWs, List.dropWhile_append_of_pos hblanks]

theorem trimWs_append_of_blanks {blanks : CString} (hblanks : ∀ d ∈ blanks, isspace d = true)
    (s : CString) : trimWs (s ++ blanks) = trimWs s := by
  have hback (t : CString) : (t ++ blanks).rdropWhile isspace = t.rdropWhile isspace := by
    have hreverse : ∀ d ∈ blanks.reverse, isspace d = true :=
      fun d hd => hblanks d (List.mem_reverse.mp hd)
    rw [List.rdropWhile, List.rdropWhile, List.reverse_append,
      List.dropWhile_append_of_pos hreverse]
  rw [trimWs, trimWs, List.dropWhile_append]
  split
  · next hnone =>
      rw [List.isEmpty_iff.mp hnone, List.dropWhile_eq_nil_iff.mpr hblanks]
  · exact hback _

theorem trimWs_trimWs (s : CString) : trimWs (trimWs s) = trimWs s := by
  have hfront : (trimWs s).dropWhile isspace = trimWs s := by
    cases htrim : trimWs s with
    | nil => rfl
    | cons c t => exact List.dropWhile_cons_of_neg (by simp [trimWs_head htrim])
  rw [trimWs, hfront, trimWs, List.rdropWhile_idempotent]

/-- The last character of a trimmed text is the last one that is no white space. -/
theorem getLast?_trimWs (s : CString) :
    (trimWs s).getLast? = (s.filter (!isspace ·)).getLast? := by
  obtain ⟨front, back, hs, hfront, hback⟩ := exists_trimWs s
  have hnone {blanks : CString} (hblanks : ∀ d ∈ blanks, isspace d = true) :
      blanks.filter (!isspace ·) = [] :=
    List.filter_eq_nil_iff.mpr fun d hd => by simp [hblanks d hd]
  have hfilter : s.filter (!isspace ·) = (trimWs s).filter (!isspace ·) := by
    conv_lhs => rw [hs, List.filter_append, List.filter_append, hnone hfront, hnone hback]
    rw [List.nil_append, List.append_nil]
  rw [hfilter]
  rcases (trimWs s).eq_nil_or_concat with hnil | ⟨t, c, hc⟩
  · rw [hnil]
    rfl
  · have hne : trimWs s ≠ [] := by simp [hc]
    have hlast : ¬ isspace ((trimWs s).getLast hne) = true :=
      List.rdropWhile_last_not isspace (s.dropWhile isspace) hne
    have hkeep : [c].filter (!isspace ·) = [c] := by simpa [hc] using hlast
    rw [hc, List.concat_eq_append, List.filter_append, hkeep, List.getLast?_concat,
      List.getLast?_concat]

theorem newline_notMem_cutNewline (s : CString) : '\n' ∉ cutNewline s := by
  intro hmem
  have htest := List.mem_takeWhile_imp hmem
  exact of_decide_eq_true htest rfl

/-! ### Pieces -/

/-- `in_single` and `in_double`. -/
abbrev Quotes := Bool × Bool

def Quotes.next (q : Quotes) (c : Char) : Quotes :=
  if c = '\'' ∧ ¬q.2 then (!q.1, q.2)
  else if c = '"' ∧ ¬q.1 then (q.1, !q.2)
  else q

/-- An unquoted bar. -/
def Quotes.cuts (q : Quotes) (c : Char) : Bool := !q.1 && !q.2 && c = '|'

/-- The quotes that are open behind a text. -/
def quotesAfter (s : CString) : Quotes := s.foldl Quotes.next (false, false)

/-- The pieces of a line between its unquoted bars. -/
def linePieces (s : CString) : List CString := pieces Quotes.next Quotes.cuts (false, false) s

theorem Quotes.next_of_ne {c : Char} (hsingle : c ≠ '\'') (hdouble : c ≠ '"') (q : Quotes) :
    q.next c = q := by
  rw [next, if_neg fun h => hsingle h.1, if_neg fun h => hdouble h.1]

theorem Quotes.cuts_of_ne {c : Char} (hc : c ≠ '|') (q : Quotes) : q.cuts c = false := by
  simp [cuts, hc]

/-- Without a quote in a text the same quotes are open behind it. -/
theorem Quotes.foldl_next {s : CString} (hs : ∀ c ∈ s, c ≠ '\'' ∧ c ≠ '"') (q : Quotes) :
    s.foldl Quotes.next q = q := by
  induction s with
  | nil => rfl
  | cons c s ih =>
      obtain ⟨hsingle, hdouble⟩ := hs c List.mem_cons_self
      rw [List.foldl_cons, q.next_of_ne hsingle hdouble]
      exact ih fun d hd => hs d (List.mem_cons_of_mem c hd)

theorem exists_mem_linePieces {s : CString} {c : Char} (hmem : c ∈ s) (hc : c ≠ '|') :
    ∃ piece ∈ linePieces s, c ∈ piece :=
  exists_mem_pieces hmem fun q => q.cuts_of_ne hc

/-- A text that `parse_line` takes for a segment. -/
def IsCommand (s : CString) : Prop := s ≠ [] ∧ '&' ∉ s

instance (s : CString) : Decidable (IsCommand s) := inferInstanceAs (Decidable (_ ∧ _))

/-- A text without the white space around it and without the `&` at its end. -/
def stripAmp (s : CString) : CString :=
  if (trimWs s).getLast? = some '&' then trimWs (trimWs s).dropLast else trimWs s

def endsAmp (s : CString) : Bool := (trimWs s).getLast? = some '&'

theorem normalizeJobcmd_eq (line : CString) : normalizeJobcmd line = stripAmp (cutNewline line) :=
  rfl

theorem stripAmp_congr {s t : CString} (h : trimWs s = trimWs t) : stripAmp s = stripAmp t := by
  rw [stripAmp, stripAmp, h]

theorem stripAmp_append (s : CString) : stripAmp (s ++ ['&']) = trimWs s := by
  have hdrop : (s ++ ['&']).dropWhile isspace = s.dropWhile isspace ++ ['&'] := by
    rw [List.dropWhile_append]
    split
    · next hnone =>
        rw [List.isEmpty_iff.mp hnone]
        rfl
    · rfl
  have htrim : trimWs (s ++ ['&']) = s.dropWhile isspace ++ ['&'] := by
    rw [trimWs, hdrop, List.rdropWhile_concat_neg _ _ _ (by decide)]
  have hback : ∀ d ∈ (s.dropWhile isspace).rtakeWhile isspace, isspace d = true :=
    fun d hd => List.mem_rtakeWhile_imp hd
  rw [stripAmp, htrim, List.getLast?_concat, if_pos rfl, List.dropLast_concat,
    ← trimWs_append_blanks, trimWs_append_of_blanks hback, trimWs_trimWs]

theorem trimWs_stripAmp (s : CString) : trimWs (stripAmp s) = stripAmp s := by
  rw [stripAmp]
  split <;> exact trimWs_trimWs _

theorem stripAmp_append_blanks {blanks : CString} (hblanks : ∀ d ∈ blanks, isspace d = true)
    (s : CString) : stripAmp (s ++ '&' :: blanks) = trimWs s := by
  have hsplit : s ++ '&' :: blanks = (s ++ ['&']) ++ blanks := by simp
  rw [hsplit, stripAmp_congr (trimWs_append_of_blanks hblanks _), stripAmp_append]

theorem stripAmp_of_not_endsAmp {s : CString} (h : ¬endsAmp s = true) : stripAmp s = trimWs s :=
  if_neg fun hlast => h (decide_eq_true hlast)

/-- A text with an `&` at its end, and what is left of it. -/
theorem exists_endsAmp {s : CString} (h : endsAmp s = true) :
    ∃ t blanks, s = t ++ '&' :: blanks ∧ (∀ d ∈ blanks, isspace d = true) ∧
      stripAmp s = trimWs t := by
  obtain ⟨front, back, hs, -, hback⟩ := exists_trimWs s
  obtain ⟨t, ht⟩ := List.getLast?_eq_some_iff.mp (of_decide_eq_true h)
  have hsplit : s = (front ++ t) ++ '&' :: back := by
    rw [hs, ht]
    simp
  exact ⟨front ++ t, back, hsplit, hback,
    (congrArg stripAmp hsplit).trans (stripAmp_append_blanks hback _)⟩

/-! ### Everything `parse_line` leaves -/

/-- Whether `parse_line` returns 0, the segments that `nseg` counts, and `bg`. -/
structure Parsed where
  ok : Bool
  segments : List CString
  bg : Bool

def Parsed.accepted (r : Parsed) : Option (List CString × Bool) :=
  if r.ok then some (r.segments, r.bg) else none

/-- The loop of `parse_line`, with the segments counted when it returns -1. -/
def parseLineLoopOut : CString → Bool → Bool → CString → List CString →
    Except (List CString) (CString × List CString)
  | [], _, _, cur, segments => .ok (cur, segments)
  | c :: p, inSingle, inDouble, cur, segments =>
      if c = '\'' ∧ ¬inDouble then
        parseLineLoopOut p (!inSingle) inDouble (cur ++ [c]) segments
      else if c = '"' ∧ ¬inSingle then
        parseLineLoopOut p inSingle (!inDouble) (cur ++ [c]) segments
      else if ¬inSingle ∧ ¬inDouble ∧ c = '|' then
        let segment := trimWs cur
        if segment = [] ∨ '&' ∈ segment then .error segments
        else if segments.length + 1 ≥ MAXCMDS then .error (segments ++ [segment])
        else parseLineLoopOut p inSingle inDouble [] (segments ++ [segment])
      else parseLineLoopOut p inSingle inDouble (cur ++ [c]) segments

def parseLineLastOut (start : CString) (segments : List CString) : Parsed :=
  let start := trimWs start
  if start = [] then ⟨segments.isEmpty, segments, false⟩
  else if start.getLast? = some '&' then
    let start := trimWs start.dropLast
    if start = [] ∨ '&' ∈ start then ⟨false, segments, true⟩
    else ⟨true, segments ++ [start], true⟩
  else if '&' ∈ start then ⟨false, segments, false⟩
  else ⟨true, segments ++ [start], false⟩

/-- Behind the loop. -/
def parseLineRest : Except (List CString) (CString × List CString) → Parsed
  | .error segments => ⟨false, segments, false⟩
  | .ok (start, segments) => parseLineLastOut start segments

def parseLineOut (buf : CString) : Parsed :=
  parseLineRest (parseLineLoopOut (cutNewline buf) false false [] [])

theorem parseLineLoop_eq_toOption (p : CString) (inSingle inDouble : Bool) (cur : CString)
    (segments : List CString) :
    parseLineLoop p inSingle inDouble cur segments =
      (parseLineLoopOut p inSingle inDouble cur segments).toOption := by
  induction p generalizing inSingle inDouble cur segments with
  | nil => rfl
  | cons c p ih =>
      rw [parseLineLoop, parseLineLoopOut]
      dsimp only
      split_ifs
      · exact ih _ _ _ _
      · exact ih _ _ _ _
      · rfl
      · rfl
      · exact ih _ _ _ _
      · exact ih _ _ _ _

theorem parseLineLast_eq_accepted (start : CString) (segments : List CString) :
    parseLineLast start segments = (parseLineLastOut start segments).accepted := by
  rw [parseLineLast, parseLineLastOut]
  dsimp only
  split_ifs with hstart hsegments
  · rw [hsegments]
    rfl
  · rw [Parsed.accepted, if_neg]
    simpa using hsegments
  all_goals rfl

/-- `parseLine` keeps of this what `eval` looks at. -/
theorem parseLine_eq_accepted (buf : CString) : parseLine buf = (parseLineOut buf).accepted := by
  rw [parseLine, parseLineOut, parseLineLoop_eq_toOption]
  cases parseLineLoopOut (cutNewline buf) false false [] [] with
  | error segments => rfl
  | ok found => exact parseLineLast_eq_accepted _ _

/-! ### The same of the pieces -/

def parsePieces : List CString → List CString → Parsed
  | [], segments => ⟨false, segments, false⟩
  | [last], segments => parseLineLastOut last segments
  | piece :: more :: rest, segments =>
      if IsCommand (trimWs piece) then
        if segments.length + 1 ≥ MAXCMDS then ⟨false, segments ++ [trimWs piece], false⟩
        else parsePieces (more :: rest) (segments ++ [trimWs piece])
      else ⟨false, segments, false⟩

theorem parsePieces_cons {rest : List CString} (hrest : rest ≠ []) (piece : CString)
    (segments : List CString) :
    parsePieces (piece :: rest) segments =
      if IsCommand (trimWs piece) then
        if segments.length + 1 ≥ MAXCMDS then ⟨false, segments ++ [trimWs piece], false⟩
        else parsePieces rest (segments ++ [trimWs piece])
      else ⟨false, segments, false⟩ := by
  obtain ⟨more, rest, rfl⟩ := List.exists_cons_of_ne_nil hrest
  rfl

/-- The loop with `cur` in front of what is left. -/
theorem parseLineLoopOut_eq (p : CString) (inSingle inDouble : Bool) (cur : CString)
    (segments : List CString) :
    parseLineRest (parseLineLoopOut p inSingle inDouble cur segments) =
      parsePieces ((pieces Quotes.next Quotes.cuts (inSingle, inDouble) p).modifyHead (cur ++ ·))
        segments := by
  induction p generalizing inSingle inDouble cur segments with
  | nil =>
      rw [pieces, List.modifyHead_cons, List.append_nil]
      rfl
  | cons c p ih =>
      obtain ⟨first, rest, hpieces⟩ := exists_pieces_cons Quotes.next Quotes.cuts
        (Quotes.next (inSingle, inDouble) c) p
      -- a character that cuts nothing moves over to `cur`
      have hpass (hcut : Quotes.cuts (inSingle, inDouble) c = false) :
          (pieces Quotes.next Quotes.cuts (inSingle, inDouble) (c :: p)).modifyHead (cur ++ ·) =
            (pieces Quotes.next Quotes.cuts (Quotes.next (inSingle, inDouble) c) p).modifyHead
              ((cur ++ [c]) ++ ·) := by
        rw [pieces, hcut, if_neg Bool.false_ne_true, hpieces]
        simp
      rw [parseLineLoopOut]
      by_cases hsingle : c = '\'' ∧ ¬inDouble
      · rw [if_pos hsingle, ih,
          hpass (Quotes.cuts_of_ne (by rw [hsingle.1]; decide) _), Quotes.next, if_pos hsingle]
      rw [if_neg hsingle]
      by_cases hdouble : c = '"' ∧ ¬inSingle
      · rw [if_pos hdouble, ih,
          hpass (Quotes.cuts_of_ne (by rw [hdouble.1]; decide) _), Quotes.next, if_neg hsingle,
          if_pos hdouble]
      rw [if_neg hdouble]
      have hnext : Quotes.next (inSingle, inDouble) c = (inSingle, inDouble) := by
        rw [Quotes.next, if_neg hsingle, if_neg hdouble]
      by_cases hbar : ¬inSingle ∧ ¬inDouble ∧ c = '|'
      · have hcut : Quotes.cuts (inSingle, inDouble) c = true := by
          simpa [Quotes.cuts, and_assoc] using hbar
        rw [if_pos hbar, pieces, if_pos hcut, List.modifyHead_cons, List.append_nil,
          parsePieces_cons pieces_ne_nil, hnext]
        dsimp only
        by_cases hcommand : IsCommand (trimWs cur)
        · rw [if_neg (not_or.mpr hcommand), if_pos hcommand]
          by_cases hfull : segments.length + 1 ≥ MAXCMDS
          · rw [if_pos hfull, if_pos hfull]
            rfl
          · rw [if_neg hfull, if_neg hfull, ih, ← hnext, hpieces]
            rfl
        · rw [if_neg hcommand,
            if_pos (by simpa only [IsCommand, not_and_or, not_not] using hcommand)]
          rfl
      · rw [if_neg hbar, ih, hpass (by simpa [Quotes.cuts] using hbar), hnext]

/-- **`parse_line` on pieces.** -/
theorem parseLineOut_eq (buf : CString) :
    parseLineOut buf = parsePieces (linePieces (cutNewline buf)) [] := by
  have hloop := parseLineLoopOut_eq (cutNewline buf) false false [] []
  obtain ⟨first, rest, hpieces⟩ := exists_pieces_cons Quotes.next Quotes.cuts (false, false)
    (cutNewline buf)
  rw [hpieces, List.modifyHead_cons, List.nil_append, ← hpieces] at hloop
  exact hloop

/-! ### Accepted and refused pieces -/

variable {init tail tail' segments : List CString} {last : CString}

/-- Command texts with room for them are taken one after the other. -/
theorem parsePieces_append (hinit : ∀ p ∈ init, IsCommand (trimWs p))
    (hroom : segments.length + init.length < MAXCMDS) (htail : tail ≠ []) :
    parsePieces (init ++ tail) segments = parsePieces tail (segments ++ init.map trimWs) := by
  induction init generalizing segments with
  | nil => rw [List.nil_append, List.map_nil, List.append_nil]
  | cons p init ih =>
      rw [List.length_cons] at hroom
      rw [List.cons_append, parsePieces_cons (List.append_ne_nil_of_right_ne_nil init htail),
        if_pos (hinit p List.mem_cons_self), if_neg (by omega),
        ih (fun q hq => hinit q (List.mem_cons_of_mem p hq))
          (by rw [List.length_append, List.length_singleton]; omega)]
      simp

/-- What stands behind a refused piece, or behind the last one there is room for, is not
looked at. -/
theorem parsePieces_refused (hinit : (∃ p ∈ init, ¬IsCommand (trimWs p)) ∨
      MAXCMDS ≤ segments.length + init.length) (hroom : segments.length < MAXCMDS)
    (htail : tail ≠ []) (htail' : tail' ≠ []) :
    parsePieces (init ++ tail) segments = parsePieces (init ++ tail') segments ∧
      (parsePieces (init ++ tail) segments).ok = false := by
  induction init generalizing segments with
  | nil =>
      rcases hinit with ⟨p, hp, _⟩ | hfull
      · nomatch hp
      · exact absurd hroom (Nat.not_lt.mpr hfull)
  | cons p init ih =>
      rw [List.cons_append, List.cons_append,
        parsePieces_cons (List.append_ne_nil_of_right_ne_nil init htail),
        parsePieces_cons (List.append_ne_nil_of_right_ne_nil init htail')]
      split_ifs with hp hfull
      · exact ⟨rfl, rfl⟩
      · refine ih ?_ (by rw [List.length_append, List.length_singleton]; omega)
        refine hinit.imp ?_ ?_
        · rintro ⟨q, hq, hrefused⟩
          rcases List.mem_cons.mp hq with rfl | hq
          · exact absurd hp hrefused
          · exact ⟨q, hq, hrefused⟩
        · intro hlong
          rw [List.length_cons] at hlong
          rw [List.length_append, List.length_singleton]
          omega
      · exact ⟨rfl, rfl⟩

theorem stripAmp_of_blank (hblank : trimWs last = []) : stripAmp last = [] := by
  rw [stripAmp, hblank, List.getLast?_nil, if_neg (by simp)]

/-- The last piece. -/
theorem parseLineLastOut_eq (last : CString) (segments : List CString) :
    parseLineLastOut last segments =
      if trimWs last = [] then ⟨segments.isEmpty, segments, false⟩
      else if IsCommand (stripAmp last) then ⟨true, segments ++ [stripAmp last], endsAmp last⟩
      else ⟨false, segments, endsAmp last⟩ := by
  rw [parseLineLastOut, stripAmp, endsAmp]
  dsimp only
  split_ifs <;> simp_all [IsCommand]

/-- What `parse_line` asks of the pieces of a line. -/
structure Accepted (init : List CString) (last : CString) : Prop where
  room : init.length < MAXCMDS
  commands : ∀ p ∈ init, IsCommand (trimWs p)
  last : IsCommand (stripAmp last)

/-- Accepted lines, blank ones too. -/
theorem parseLine_eq_some {line : CString} {bg : Bool} :
    parseLine line = some (segments, bg) ↔
      ∃ init last, linePieces (cutNewline line) = init ++ [last] ∧
        (Accepted init last ∧ segments = init.map trimWs ++ [stripAmp last] ∧ bg = endsAmp last ∨
          init = [] ∧ trimWs last = [] ∧ segments = [] ∧ bg = false) := by
  obtain ⟨init, last, hpieces⟩ := exists_pieces_concat Quotes.next Quotes.cuts (false, false)
    (cutNewline line)
  have hsame {P : List CString → CString → Prop} :
      (∃ init' last', init ++ [last] = init' ++ [last'] ∧ P init' last') ↔ P init last := by
    constructor
    · rintro ⟨init', last', h, hP⟩
      obtain ⟨rfl, rfl⟩ := List.append_singleton_inj.mp h
      exact hP
    · exact fun hP => ⟨init, last, rfl, hP⟩
  rw [parseLine_eq_accepted, parseLineOut_eq, linePieces, hpieces, hsame]
  by_cases htaken : (∀ p ∈ init, IsCommand (trimWs p)) ∧ init.length < MAXCMDS
  · rw [parsePieces_append htaken.1 (by simpa using htaken.2) (List.cons_ne_nil last []),
      List.nil_append, parsePieces, parseLineLastOut_eq]
    by_cases hblank : trimWs last = []
    · have hnot : ¬Accepted init last := fun h => h.last.1 (stripAmp_of_blank hblank)
      rw [if_pos hblank]
      cases init with
      | nil => simp [Parsed.accepted, hblank, hnot, eq_comm]
      | cons p init => simp [Parsed.accepted, hnot]
    · rw [if_neg hblank]
      by_cases hcommand : IsCommand (stripAmp last)
      · have haccepted : Accepted init last := ⟨htaken.2, htaken.1, hcommand⟩
        rw [if_pos hcommand]
        simp [Parsed.accepted, haccepted, hblank, eq_comm]
      · have hnot : ¬Accepted init last := fun h => hcommand h.last
        rw [if_neg hcommand]
        simp [Parsed.accepted, hnot, hblank]
  · have hrefused : (∃ p ∈ init, ¬IsCommand (trimWs p)) ∨
        MAXCMDS ≤ ([] : List CString).length + init.length := by
      by_contra hnot
      push Not at hnot
      exact htaken ⟨hnot.1, by simpa using hnot.2⟩
    obtain ⟨-, hok⟩ := parsePieces_refused hrefused (by decide) (List.cons_ne_nil last [])
      (List.cons_ne_nil last [])
    rw [Parsed.accepted, hok]
    refine iff_of_false nofun ?_
    rintro (⟨h, -⟩ | ⟨rfl, -⟩)
    · exact htaken ⟨h.commands, h.room⟩
    · exact htaken ⟨fun p hp => (nomatch hp), by decide⟩

/-- **Accepted lines** with a command. -/
theorem parseLine_eq_some_iff {line : CString} {bg : Bool} (hne : segments ≠ []) :
    parseLine line = some (segments, bg) ↔
      ∃ init last, linePieces (cutNewline line) = init ++ [last] ∧ Accepted init last ∧
        segments = init.map trimWs ++ [stripAmp last] ∧ bg = endsAmp last := by
  rw [parseLine_eq_some]
  simp [hne]

theorem mem_of_mem_stripAmp {s : CString} {c : Char} (hmem : c ∈ stripAmp s) : c ∈ s := by
  rw [stripAmp] at hmem
  split at hmem
  · exact mem_of_mem_trimWs ((List.dropLast_sublist _).subset (mem_of_mem_trimWs hmem))
  · exact mem_of_mem_trimWs hmem

/-- A segment is a part of the line. -/
theorem mem_of_mem_segment {line s : CString} {bg : Bool} {c : Char}
    (hparse : parseLine line = some (segments, bg)) (hs : s ∈ segments) (hc : c ∈ s) :
    c ∈ cutNewline line := by
  obtain ⟨init, last, hpieces, -, rfl, -⟩ :=
    (parseLine_eq_some_iff (List.ne_nil_of_mem hs)).mp hparse
  have hline {piece : CString} (hpiece : piece ∈ init ++ [last]) (hmem : c ∈ piece) :
      c ∈ cutNewline line := mem_of_mem_pieces (hpieces ▸ hpiece) hmem
  rcases List.mem_append.mp hs with hs | hs
  · obtain ⟨piece, hpiece, rfl⟩ := List.mem_map.mp hs
    exact hline (List.mem_append_left _ hpiece) (mem_of_mem_trimWs hc)
  · rw [List.mem_singleton.mp hs] at hc
    exact hline (List.mem_append_right _ List.mem_cons_self) (mem_of_mem_stripAmp hc)

theorem cutNewline_segment {line s : CString} {bg : Bool}
    (hparse : parseLine line = some (segments, bg)) (hs : s ∈ segments) : cutNewline s = s :=
  cutNewline_eq_self fun hmem => newline_notMem_cutNewline line (mem_of_mem_segment hparse hs hmem)

end SystemProgramming.MyShell
