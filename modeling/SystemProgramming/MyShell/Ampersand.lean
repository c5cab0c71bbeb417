import SystemProgramming.MyShell.Pieces

/-!
An `&` within quotes. The loop of `parse_line` honours quotes where it looks for a
`|`; the three places that look for an `&` do not. A line with a quoted `&` is
refused for it, so that the `&` is like a letter only where the line is refused
no later for something else.
-/

namespace SystemProgramming.MyShell

open SystemProgramming.CLib SystemProgramming.Library

variable {before after : CString} {c x : Char}

/-! ### Two runs -/

/-- What two runs of `parse_line` leave differs in that character at most. -/
structure SameBut (before after : CString) (c : Char) (r r' : Parsed) : Prop where
  ok : r'.ok = r.ok
  bg : r'.bg = r.bg
  segments : r'.segments = r.segments ∨ ∃ front back a b,
    r.segments = front ++ (a ++ '&' :: b) :: back ∧
      r'.segments = front ++ (a ++ c :: b) :: back ∧ a <:+ before ∧ b <+: after

/-- The `&` between the two texts is like the character `c`. -/
def AmpLiteral (before after : CString) (c : Char) : Prop :=
  SameBut before after c (parseLineOut (before ++ '&' :: after))
    (parseLineOut (before ++ c :: after))

/-- Piece `i` of a line is refused. -/
def Refused (pieces : List CString) (i : Nat) : Prop :=
  ∃ piece, pieces[i]? = some piece ∧
    ¬IsCommand (if i + 1 = pieces.length then stripAmp piece else trimWs piece)

/-- With `c` in place of the `&`, the piece it is in or one in front of that is refused, or
there is no room for it. -/
def RefusedAnyway (before after : CString) (c : Char) : Prop :=
  MAXCMDS < (linePieces before).length ∨ ∃ i < (linePieces before).length,
    Refused (linePieces (cutNewline (before ++ c :: after))) i

/-! ### The piece with the character -/

/-- A character that is no quote and no bar is a part of its piece. -/
theorem linePieces_insert {init rest : List CString} {last first text : CString}
    (hc : c ≠ '\'' ∧ c ≠ '"' ∧ c ≠ '|') (hbefore : linePieces before = init ++ [last])
    (hafter : pieces Quotes.next Quotes.cuts (quotesAfter before) text = first :: rest) :
    linePieces (before ++ c :: text) = init ++ (last ++ c :: first) :: rest := by
  refine pieces_append hbefore ?_
  rw [pieces, Quotes.cuts_of_ne hc.2.2, if_neg Bool.false_ne_true,
    Quotes.next_of_ne hc.1 hc.2.1]
  exact congrArg (List.modifyHead (c :: ·)) hafter

/-- A segment that is counted stays counted. -/
theorem length_le_parsePieces (ps segments : List CString) :
    segments.length ≤ (parsePieces ps segments).segments.length := by
  induction ps generalizing segments with
  | nil => exact Nat.le_refl _
  | cons piece rest ih =>
      rcases eq_or_ne rest [] with rfl | hrest
      · rw [parsePieces, parseLineLastOut_eq]
        split_ifs
        · exact Nat.le_refl _
        · exact List.length_append ▸ Nat.le_add_right _ _
        · exact Nat.le_refl _
      · rw [parsePieces_cons hrest]
        have hlonger : segments.length ≤ (segments ++ [trimWs piece]).length :=
          List.length_append ▸ Nat.le_add_right _ _
        split_ifs
        · exact hlonger
        · exact hlonger.trans (ih _)
        · exact Nat.le_refl _

theorem SameBut.length_eq {r r' : Parsed} (h : SameBut before after c r r') :
    r'.segments.length = r.segments.length := by
  rcases h.segments with h | ⟨front, back, a, b, h, h', -, -⟩
  · rw [h]
  · rw [h, h']
    simp

theorem SameBut.refl (r : Parsed) : SameBut before after c r r := ⟨rfl, rfl, .inl rfl⟩

/-- What follows the character decides whether the piece ends in an `&`. -/
theorem endsAmp_insert {last first : CString} (hfirst : first.filter (!isspace ·) ≠ []) (x : Char) :
    endsAmp (last ++ x :: first) = endsAmp first := by
  have hsplit : last ++ x :: first = (last ++ [x]) ++ first := by simp
  rw [endsAmp, endsAmp, getLast?_trimWs, getLast?_trimWs, hsplit, List.filter_append,
    List.getLast?_append_of_ne_nil _ hfirst]

/-- An `&` in front of other text is not the one that is stripped. -/
theorem amp_mem_stripAmp {last first : CString} (hfirst : first.filter (!isspace ·) ≠ []) :
    '&' ∈ stripAmp (last ++ '&' :: first) := by
  have hmem (s t : CString) : '&' ∈ trimWs (s ++ '&' :: t) :=
    mem_trimWs (List.mem_append_right s List.mem_cons_self) (by decide)
  by_cases hends : endsAmp first = true
  · obtain ⟨t, blanks, rfl, hblanks, -⟩ := exists_endsAmp hends
    have hsplit : last ++ '&' :: (t ++ '&' :: blanks) = (last ++ '&' :: t) ++ '&' :: blanks := by
      simp
    rw [hsplit, stripAmp_append_blanks hblanks]
    exact hmem last t
  · rw [← endsAmp_insert hfirst '&'] at hends
    rw [stripAmp_of_not_endsAmp hends]
    exact hmem last first

/-- Balanced quotes are closed behind the character, in the last piece at the latest. -/
theorem filter_ne_nil_of_balanced {text : CString} (hquoted : quotesAfter before ≠ (false, false))
    (hbalanced : text.foldl Quotes.next (quotesAfter before) = (false, false)) :
    text.filter (!isspace ·) ≠ [] := by
  intro hnil
  refine hquoted (hbalanced ▸ (Quotes.foldl_next (fun d hd => ?_) _).symm)
  have hspace : isspace d = true := by
    simpa using List.filter_eq_nil_iff.mp hnil d hd
  refine ⟨?_, ?_⟩ <;> rintro rfl <;> exact absurd hspace (by decide)

/-! ### The law -/

/-- The piece with the character, with command texts in front of it. -/
theorem sameBut_piece_iff {segments rest : List CString} {last first : CString}
    (hfirst : rest = [] → first.filter (!isspace ·) ≠ [])
    (hc : isspace c = false) :
    SameBut before after c (parsePieces ((last ++ '&' :: first) :: rest) segments)
        (parsePieces ((last ++ c :: first) :: rest) segments) ↔
      ¬IsCommand (if rest = [] then stripAmp (last ++ c :: first)
        else trimWs (last ++ c :: first)) := by
  have hmem (d : Char) (hd : isspace d = false) : d ∈ trimWs (last ++ d :: first) :=
    mem_trimWs (List.mem_append_right last List.mem_cons_self) hd
  rcases eq_or_ne rest [] with rfl | hrest
  · have hamp : ¬IsCommand (stripAmp (last ++ '&' :: first)) :=
      fun h => h.2 (amp_mem_stripAmp (hfirst rfl))
    rw [if_pos rfl, parsePieces, parsePieces, parseLineLastOut_eq, parseLineLastOut_eq,
      if_neg (List.ne_nil_of_mem (hmem '&' (by decide))), if_neg (List.ne_nil_of_mem (hmem c hc)),
      if_neg hamp, endsAmp_insert (hfirst rfl), endsAmp_insert (hfirst rfl)]
    split
    · next hcommand => exact iff_of_false (fun h => Bool.noConfusion h.ok) (not_not.mpr hcommand)
    · next hrefused => exact iff_of_true (.refl _) hrefused
  · have hamp : ¬IsCommand (trimWs (last ++ '&' :: first)) := fun h => h.2 (hmem '&' (by decide))
    rw [if_neg hrest, parsePieces_cons hrest, parsePieces_cons hrest, if_neg hamp]
    by_cases hcommand : IsCommand (trimWs (last ++ c :: first))
    · -- the piece is counted, where with the `&` it is not
      refine iff_of_false (fun h => ?_) (not_not.mpr hcommand)
      have hlength := h.length_eq
      rw [if_pos hcommand] at hlength
      split at hlength
      · simp at hlength
      · have hle := length_le_parsePieces rest (segments ++ [trimWs (last ++ c :: first)])
        rw [hlength, List.length_append, List.length_singleton] at hle
        exact Nat.not_succ_le_self _ hle
    · rw [if_neg hcommand]
      exact iff_of_true (.refl _) hcommand

/-- The refused pieces up to one of them: those in front of it, and itself. -/
theorem exists_refused_iff {init rest : List CString} {piece : CString} :
    (∃ i < init.length + 1, Refused (init ++ piece :: rest) i) ↔
      (∃ p ∈ init, ¬IsCommand (trimWs p)) ∨
        ¬IsCommand (if rest = [] then stripAmp piece else trimWs piece) := by
  have hlength : (init ++ piece :: rest).length = init.length + 1 + rest.length := by
    rw [List.length_append, List.length_cons]
    omega
  have hinit {i : Nat} (hi : i < init.length) (p : CString) (hp : init[i]? = some p) :
      Refused (init ++ piece :: rest) i ↔ ¬IsCommand (trimWs p) := by
    have hnot : ¬ i + 1 = (init ++ piece :: rest).length := by omega
    rw [Refused, List.getElem?_append_left hi, hp]
    simp only [hnot, if_false, Option.some.injEq, exists_eq_left']
  have hself : Refused (init ++ piece :: rest) init.length ↔
      ¬IsCommand (if rest = [] then stripAmp piece else trimWs piece) := by
    have hlast : init.length + 1 = (init ++ piece :: rest).length ↔ rest = [] := by
      rw [← List.length_eq_zero_iff]
      omega
    rw [Refused, List.getElem?_append_right (Nat.le_refl _), Nat.sub_self]
    simp only [hlast]
    simp
  constructor
  · rintro ⟨i, hi, hrefused⟩
    rcases Nat.lt_succ_iff_lt_or_eq.mp hi with hi | rfl
    · have hp := List.getElem?_eq_getElem hi
      exact .inl ⟨_, List.getElem_mem hi, (hinit hi _ hp).mp hrefused⟩
    · exact .inr (hself.mp hrefused)
  · rintro (⟨p, hp, hrefused⟩ | hrefused)
    · obtain ⟨i, hi, hp⟩ := List.mem_iff_getElem.mp hp
      exact ⟨i, by omega, (hinit hi p (List.getElem?_eq_some_iff.mpr ⟨hi, hp⟩)).mpr hrefused⟩
    · exact ⟨init.length, Nat.lt_succ_self _, hself.mpr hrefused⟩

theorem cutNewline_insert (hbefore : '\n' ∉ before) (hx : x ≠ '\n') (after : CString) :
    cutNewline (before ++ x :: after) = before ++ x :: cutNewline after := by
  have htest : ∀ c ∈ before, decide (c ≠ '\n') = true := fun d hd =>
    decide_eq_true fun heq => hbefore (heq ▸ hd)
  rw [cutNewline, List.takeWhile_append_of_pos htest,
    List.takeWhile_cons_of_pos (by simpa using hx)]
  rfl

/-- **When a quoted `&` is literal.** -/
theorem quoted_amp_literal_iff (hletter : c.isAlpha = true) (hbefore : '\n' ∉ before)
    (hquoted : quotesAfter before ≠ (false, false))
    (hbalanced : quotesAfter (cutNewline (before ++ '&' :: after)) = (false, false)) :
    AmpLiteral before after c ↔ RefusedAnyway before after c := by
  have hne {d : Char} (hd : d.isAlpha = false) : c ≠ d := fun heq => by
    rw [heq, hd] at hletter
    nomatch hletter
  have hspace : isspace c = false := by
    simp [isspace, hne (d := ' ') (by decide), hne (d := '\t') (by decide),
      hne (d := '\n') (by decide), hne (d := '\x0b') (by decide), hne (d := '\x0c') (by decide),
      hne (d := '\r') (by decide)]
  obtain ⟨init, last, hinit⟩ := exists_pieces_concat Quotes.next Quotes.cuts (false, false) before
  obtain ⟨first, rest, hrest⟩ := exists_pieces_cons Quotes.next Quotes.cuts (quotesAfter before)
    (cutNewline after)
  have hline {x : Char} (hx : x ≠ '\'' ∧ x ≠ '"' ∧ x ≠ '|') (hnl : x ≠ '\n') :
      linePieces (cutNewline (before ++ x :: after)) = init ++ (last ++ x :: first) :: rest := by
    rw [cutNewline_insert hbefore hnl]
    exact linePieces_insert hx hinit hrest
  have hcline := hline ⟨hne (by decide), hne (by decide), hne (by decide)⟩ (hne (by decide))
  have hcount : (linePieces before).length = init.length + 1 := by
    rw [linePieces, hinit, List.length_append, List.length_singleton]
  rw [AmpLiteral, parseLineOut_eq, parseLineOut_eq, hline (by decide) (by decide), hcline,
    RefusedAnyway, hcline, hcount, exists_refused_iff, Nat.lt_succ_iff]
  by_cases hearly : (∃ p ∈ init, ¬IsCommand (trimWs p)) ∨ MAXCMDS ≤ init.length
  · -- both runs end in front of the piece
    have hsame : parsePieces (init ++ (last ++ '&' :: first) :: rest) [] =
        parsePieces (init ++ (last ++ c :: first) :: rest) [] :=
      (parsePieces_refused (by simpa using hearly) (by decide) (List.cons_ne_nil _ rest)
        (List.cons_ne_nil _ rest)).1
    rw [hsame]
    exact iff_of_true (.refl _) (hearly.elim (fun h => .inr (.inl h)) .inl)
  · obtain ⟨hcommands, hroom⟩ := not_or.mp hearly
    have htaken : ∀ p ∈ init, IsCommand (trimWs p) := fun p hp =>
      not_not.mp fun hrefused => hcommands ⟨p, hp, hrefused⟩
    have hroom' : ([] : List CString).length + init.length < MAXCMDS := by simpa using hroom
    rw [parsePieces_append htaken hroom' (List.cons_ne_nil _ _),
      parsePieces_append htaken hroom' (List.cons_ne_nil _ _),
      sameBut_piece_iff (fun hlast => ?_) hspace]
    · simp [hcommands, hroom]
    · -- a text in one piece is that piece
      obtain rfl := hlast
      obtain rfl := (suffix_of_pieces (hrest.trans (List.nil_append _).symm)).2 rfl
      refine filter_ne_nil_of_balanced hquoted ?_
      rw [cutNewline_insert hbefore (by decide), quotesAfter, List.foldl_append, List.foldl_cons,
        Quotes.next_of_ne (by decide) (by decide)] at hbalanced
      exact hbalanced

/-- The line is refused for its first piece. -/
theorem quoted_amp_literal_iff_firstPiece :
    AmpLiteral "a & b | echo \"x".toList "y\"\n".toList 'z' ↔
      RefusedAnyway "a & b | echo \"x".toList "y\"\n".toList 'z' :=
  quoted_amp_literal_iff (by decide) (by decide) (by decide) (by decide)

/-- `echo "a&b"` is refused and `echo "axb"` is not. -/
theorem quoted_amp_not_literal :
    ¬ ∀ (before after : CString) (c : Char), c.isAlpha = true → '\n' ∉ before →
      quotesAfter before ≠ (false, false) →
      quotesAfter (cutNewline (before ++ '&' :: after)) = (false, false) →
      AmpLiteral before after c := by
  intro h
  have hsame := h "echo \"a".toList "b\"\n".toList 'x' (by decide) (by decide) (by decide)
    (by decide)
  exact absurd hsame.ok (by decide +kernel)

end SystemProgramming.MyShell
