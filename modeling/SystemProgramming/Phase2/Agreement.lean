import SystemProgramming.Phase2.Shell
import SystemProgramming.Phase2.Words

/-!
Where phase 2 and phase 3 find the same commands in a line. Phase 3 reads
quotes before it looks for a `|`, and trims the pieces; phase 2 does neither.
The first matters when a `|` is quoted, the second when a piece ends in white
space behind a quote that `parseline` never sees closed.
-/

namespace SystemProgramming.Phase2

open SystemProgramming.CLib SystemProgramming.MyShell

/-! ### Conditions on a line -/

/-- Some `|` is within quotes, as `parse_line` reads them. -/
def quotedBar : CString → Bool → Bool → Bool
  | [], _, _ => false
  | c :: p, inSingle, inDouble =>
      if c = '\'' ∧ ¬inDouble then quotedBar p (!inSingle) inDouble
      else if c = '"' ∧ ¬inSingle then quotedBar p inSingle (!inDouble)
      else (c = '|' && (inSingle || inDouble)) || quotedBar p inSingle inDouble

/-! ### Words -/

theorem parselineLoop_eq {fuel : Nat} {p : CString} (hfuel : p.length ≤ fuel)
    (argv : List CString) : parselineLoop fuel p argv = argv ++ words p := by
  induction fuel generalizing p argv with
  | zero =>
      rw [List.eq_nil_of_length_eq_zero (Nat.le_zero.mp hfuel), words_of_nil rfl, List.append_nil]
      rfl
  | succ fuel ih =>
      rw [parselineLoop]
      cases hdrop : p.dropWhile isspace with
      | nil => rw [words_of_nil hdrop, List.append_nil]
      | cons c t =>
          have hless := length_wordAt_lt hdrop
          dsimp only
          rw [ih (by omega), words_of_cons hdrop, List.append_assoc, List.singleton_append]

theorem parseline_eq (buf : CString) : parseline buf = words (cutNewline buf) :=
  parselineLoop_eq (Nat.le_refl _) []

/-! ### Bars -/

variable {p : CString} {q : Quotes}

theorem quotedBar_cons (q : Quotes) (c : Char) (p : CString) :
    quotedBar (c :: p) q.1 q.2 =
      (c = '|' && (q.1 || q.2) || quotedBar p (q.next c).1 (q.next c).2) := by
  have hnot {d : Char} (hd : d ≠ '|') (b : Bool) : b = (d = '|' && (q.1 || q.2) || b) := by
    rw [decide_eq_false hd, Bool.false_and, Bool.false_or]
  rw [quotedBar, Quotes.next]
  split
  · next hsingle => exact hnot (by rw [hsingle.1]; decide) _
  split
  · next hdouble => exact hnot (by rw [hdouble.1]; decide) _
  · rfl

/-- Without a quoted bar `parse_line` cuts at every bar. -/
theorem pieces_of_not_quotedBar (hno : quotedBar p q.1 q.2 = false) :
    Library.pieces Quotes.next Quotes.cuts q p = p.splitOn '|' := by
  induction p generalizing q with
  | nil => rfl
  | cons c p ih =>
      rw [quotedBar_cons, Bool.or_eq_false_iff] at hno
      rw [Library.pieces, ih hno.2, List.splitOn_cons_eq_if_modifyHead]
      rcases eq_or_ne c '|' with rfl | hc
      · have hcut : q.cuts '|' = true := by simpa [Quotes.cuts] using hno.1
        rw [if_pos hcut, if_pos (beq_self_eq_true _)]
      · rw [q.cuts_of_ne hc, if_neg Bool.false_ne_true, if_neg (by simpa using hc)]

theorem exists_quotedBar (hbar : quotedBar p q.1 q.2 = true) :
    ∃ front rest, p = front ++ '|' :: rest ∧ (front.foldl Quotes.next q).cuts '|' = false := by
  induction p generalizing q with
  | nil => nomatch hbar
  | cons c p ih =>
      rw [quotedBar_cons, Bool.or_eq_true, Bool.and_eq_true, decide_eq_true_eq] at hbar
      rcases hbar with ⟨rfl, hopen⟩ | hrest
      · refine ⟨[], p, rfl, ?_⟩
        rcases Bool.or_eq_true_iff.mp hopen with hopen | hopen <;> simp [Quotes.cuts, hopen]
      · obtain ⟨front, rest, rfl, hcut⟩ := ih hrest
        exact ⟨c :: front, rest, rfl, hcut⟩

/-- What `parse_line` hands out for a line without `&`. -/
theorem parseLine_false {line : CString} {segments : List CString}
    (hparse : parseLine line = some (segments, false)) (hne : segments ≠ []) :
    (quotedBar (cutNewline line) false false = false →
        segments = ((cutNewline line).splitOn '|').map trimWs) ∧
      (quotedBar (cutNewline line) false false = true → ∃ s ∈ segments, '|' ∈ s) := by
  obtain ⟨init, last, hpieces, -, rfl, hends⟩ := (parseLine_eq_some_iff hne).mp hparse
  have hall : init.map trimWs ++ [stripAmp last] = (linePieces (cutNewline line)).map trimWs := by
    rw [stripAmp_of_not_endsAmp (by simp [← hends]), hpieces, List.map_append]
    rfl
  rw [hall]
  refine ⟨fun hno => ?_, fun hbar => ?_⟩
  · have hcut : linePieces (cutNewline line) = (cutNewline line).splitOn '|' :=
      pieces_of_not_quotedBar hno
    rw [hcut]
  · obtain ⟨front, rest, hsplit, hcut⟩ := exists_quotedBar (q := (false, false)) hbar
    obtain ⟨piece, hpiece, hmem⟩ := Library.mem_pieces_append hcut rest
    rw [← hsplit] at hpiece
    exact ⟨trimWs piece, List.mem_map_of_mem hpiece, mem_trimWs hmem rfl⟩

/-! ### Agreement -/

theorem notMem_of_mem_tokenLoop {n : Nat} {s token : CString} (hmem : token ∈ tokenLoop n s) :
    '|' ∉ token := by
  induction n generalizing s with
  | zero => cases hmem
  | succ n ih =>
      rw [tokenLoop] at hmem
      split at hmem
      · cases hmem
      · next token' rest hfound =>
          rcases List.mem_cons.mp hmem with rfl | hmem
          · rw [strtok] at hfound
            split at hfound
            · cases hfound
            · simp only [Option.some.injEq, Prod.mk.injEq] at hfound
              intro hbar
              rw [← hfound.1] at hbar
              have htest := List.mem_takeWhile_imp hbar
              exact of_decide_eq_true htest rfl
          · exact ih hmem

/-- Phase 2 never hands a bar of a line with bars to a command. -/
theorem notMem_of_mem_argvs {line w : CString} {argv : List CString} (hbar : '|' ∈ line)
    (hargv : argv ∈ argvs line) (hw : w ∈ argv) : '|' ∉ w := by
  rw [argvs, if_pos hbar] at hargv
  obtain ⟨token, htoken, rfl⟩ := List.mem_map.mp hargv
  intro hmem
  rw [parseline_eq] at hw
  exact notMem_of_mem_tokenLoop htoken
    ((List.takeWhile_prefix _).subset (mem_of_mem_words hw hmem))

/-- A line as `fgets` reads it: a newline only at its end. -/
def IsLine (line : CString) : Prop := '\n' ∉ line.dropLast

instance (line : CString) : Decidable (IsLine line) := inferInstanceAs (Decidable (¬ _))

theorem IsLine.eq {line : CString} (hline : IsLine line) :
    line = cutNewline line ∨ line = cutNewline line ++ ['\n'] := by
  rcases line.eq_nil_or_concat with rfl | ⟨text, c, rfl⟩
  · exact .inl rfl
  rw [IsLine, List.concat_eq_append, List.dropLast_concat] at hline
  rw [List.concat_eq_append]
  rcases eq_or_ne c '\n' with rfl | hc
  · exact .inr (by rw [cutNewline_append hline])
  · refine .inl (cutNewline_eq_self ?_).symm
    simp only [List.mem_append, List.mem_singleton, not_or]
    exact ⟨hline, hc.symm⟩

theorem map_cutNewline_splitOn {line : CString} (hline : IsLine line) :
    (line.splitOn '|').map cutNewline = (cutNewline line).splitOn '|' := by
  have hsplit (text t : CString) (htext : '\n' ∉ text) (ht : t = [] ∨ t = ['\n']) :
      ((text ++ t).splitOn '|').map cutNewline = text.splitOn '|' := by
    induction text with
    | nil =>
        have hbar : '|' ∉ t := by rcases ht with rfl | rfl <;> decide
        rw [List.nil_append, List.splitOn_eq_singleton hbar, List.splitOn_nil]
        rcases ht with rfl | rfl <;> rfl
    | cons c text ih =>
        obtain ⟨hc, htext⟩ := not_or.mp (mt List.mem_cons.mpr htext)
        have hrest := ih htext
        rw [List.cons_append, List.splitOn_cons_eq_if_modifyHead,
          List.splitOn_cons_eq_if_modifyHead, ← hrest]
        split
        · rfl
        · -- the character goes to the front of the first piece
          obtain ⟨piece, more, hpieces⟩ := List.exists_cons_of_ne_nil
            (List.splitOn_ne_nil '|' (text ++ t))
          have hcut : cutNewline (c :: piece) = c :: cutNewline piece :=
            List.takeWhile_cons_of_pos (decide_eq_true (Ne.symm hc))
          rw [hpieces]
          simp [hcut]
  have hnot := newline_notMem_cutNewline line
  rcases hline.eq with heq | heq
  · have hrun := hsplit (cutNewline line) [] hnot (.inl rfl)
    rw [List.append_nil, ← heq] at hrun
    rw [hrun, ← heq]
  · have hrun := hsplit (cutNewline line) ['\n'] hnot (.inr rfl)
    rwa [← heq] at hrun

/-- The argument vectors of phase 2, where every piece has a word. -/
theorem argvs_eq {line : CString} (hline : IsLine line)
    (hpieces : ∀ piece ∈ (cutNewline line).splitOn '|', trimWs piece ≠ [])
    (hroom : ((cutNewline line).splitOn '|').length ≤ MAXCMDS) :
    argvs line = ((cutNewline line).splitOn '|').map words := by
  have hmap := map_cutNewline_splitOn hline
  rw [argvs]
  split
  · have hall : ∀ piece ∈ line.splitOn '|', (!piece.isEmpty) = true := by
      intro piece hmem
      have hne := hpieces (cutNewline piece) (hmap ▸ List.mem_map_of_mem hmem)
      cases piece with
      | nil => exact absurd rfl hne
      | cons c piece => rfl
    rw [← hmap, List.length_map] at hroom
    rw [tokenLoop_eq, pieces, List.filter_eq_self.mpr hall, List.take_of_length_le hroom, ← hmap,
      List.map_map]
    exact List.map_congr_left fun piece _ => parseline_eq piece
  · next hbar =>
      have hnot : '|' ∉ cutNewline line := fun h => hbar ((List.takeWhile_prefix _).subset h)
      rw [List.splitOn_eq_singleton hnot, parseline_eq]
      rfl

/-- **When phase 2 and phase 3 agree on a line.** -/
theorem phases_agree_iff {line : CString} (hline : IsLine line) {segments : List CString}
    (hparse : parseLine line = some (segments, false)) (hne : segments ≠ [])
    (hroom : ∀ s ∈ segments, (MyShell.parseline s).length < MAXARGS - 1) :
    argvs line = segments.map MyShell.parseline ↔
      quotedBar (cutNewline line) false false = false ∧
        ∀ piece ∈ (cutNewline line).splitOn '|',
          ¬ (endsOpen piece = true ∧ endsBlank piece = true) := by
  obtain ⟨hcut, hquoted⟩ := parseLine_false hparse hne
  obtain ⟨hwords, hcount⟩ := parseLine_runnable hparse
  have hsegment (s : CString) (hs : s ∈ segments) : MyShell.parseline s = words s := by
    rw [myShell_parseline_eq (hroom s hs), cutNewline_segment hparse hs]
  cases hbar : quotedBar (cutNewline line) false false with
  | true =>
      -- phase 3 hands the quoted bar to a command, phase 2 cannot
      refine iff_of_false (fun hsame => ?_) fun h => Bool.false_ne_true h.1.symm
      obtain ⟨s, hs, hmem⟩ := hquoted hbar
      obtain ⟨w, hw, hbarw⟩ := exists_mem_words hmem rfl (by decide)
      have htext : '|' ∈ cutNewline line := mem_of_mem_segment hparse hs hmem
      have hline' : '|' ∈ line := (List.takeWhile_prefix _).subset htext
      refine notMem_of_mem_argvs hline' ?_ hw hbarw
      rw [hsame, ← hsegment s hs]
      exact List.mem_map_of_mem hs
  | false =>
      have hsegments := hcut hbar
      have hpiece (piece : CString) (hpiece : piece ∈ (cutNewline line).splitOn '|') :
          trimWs piece ∈ segments := hsegments ▸ List.mem_map_of_mem hpiece
      rw [argvs_eq hline (fun piece hp hnil => hwords _ (hpiece piece hp) (hnil ▸ rfl))
        (by rwa [hsegments, List.length_map] at hcount), hsegments, List.map_map, List.map_inj_left]
      refine Iff.trans (forall₂_congr fun piece hp => ?_) (and_iff_right rfl).symm
      rw [Function.comp_apply, hsegment _ (hpiece piece hp)]
      exact words_trimWs_iff piece

theorem phases_agree_iff_ls_wc :
    argvs "ls | wc\n".toList = ["ls".toList, "wc".toList].map MyShell.parseline := by
  have hsplit : (cutNewline "ls | wc\n".toList).splitOn '|' = ["ls ".toList, " wc".toList] := by
    have hbar := List.splitOn_append_cons_self_of_not_mem
      (show '|' ∉ "ls ".toList by decide) " wc".toList
    rwa [List.splitOn_eq_singleton (show '|' ∉ " wc".toList by decide)] at hbar
  refine (phases_agree_iff (by decide) (by decide +kernel) (by decide) (by decide +kernel)).mpr
    ⟨by decide, ?_⟩
  rw [hsplit]
  decide

/-- A quoted bar: one command in phase 3, two in phase 2. -/
theorem phases_differ : ∃ line segments, IsLine line ∧ parseLine line = some (segments, false) ∧
    segments ≠ [] ∧ (∀ s ∈ segments, (MyShell.parseline s).length < MAXARGS - 1) ∧
    argvs line ≠ segments.map MyShell.parseline :=
  ⟨"echo \"a|b\"\n".toList, ["echo \"a|b\"".toList],
    by decide, by decide +kernel, by decide, by decide +kernel, by decide +kernel⟩

end SystemProgramming.Phase2
