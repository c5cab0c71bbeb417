import SystemProgramming.Phase1.Shell
import SystemProgramming.Phase2.Agreement

/-!
The words of a line in phases 1 and 2. Phase 1 cuts at blanks and tabs and knows no
quotes; phase 2 cuts at all of white space, and a quote in front of a word takes it up
to the same quote.
-/

namespace SystemProgramming.Phase1

open SystemProgramming.CLib SystemProgramming.Library SystemProgramming.MyShell
open SystemProgramming.Phase2 (words words_of_nil words_of_cons words_dropBlanks IsQuote)

/-- What `parseline` leaves in `argv`, up to NULL. -/
def argvOf (buf : CString) : List CString := (parseline buf).filterMap Prod.snd

theorem argvOf_eq (buf : CString) : argvOf buf = tokens blank (cutNewline buf) := by
  rw [argvOf, parseline_eq, words_storesOf]

/-- A word that phase 2 reads as phase 1 does. -/
def Plain (word : CString) : Prop :=
  (∀ c ∈ word.head?, ¬ IsQuote c) ∧ ∀ c ∈ word, isspace c = false

-- The characters of the word are tried, not all there are.
instance (word : CString) : Decidable (Plain word) :=
  haveI : Decidable (∀ c ∈ word.head?, ¬ IsQuote c) := Option.decidableForallMem _
  haveI : Decidable (∀ c ∈ word, isspace c = false) := List.decidableBAll _ _
  inferInstanceAs (Decidable (_ ∧ _))

theorem isspace_of_blank {c : Char} (hc : blank c = true) : isspace c = true := by
  rw [blank, Bool.or_eq_true, decide_eq_true_eq, decide_eq_true_eq] at hc
  rcases hc with rfl | rfl <;> rfl

theorem scan_sublist (test : Char → Bool) (s : CString) :
    (s.takeWhile test ++ (s.dropWhile test).drop 1).Sublist s := by
  conv_rhs => rw [← List.takeWhile_append_dropWhile (p := test) (l := s)]
  exact (List.Sublist.refl _).append (List.drop_sublist 1 _)

/-- Nothing is read twice. -/
theorem wordAt_sublist (c : Char) (t : CString) :
    ((wordAt c t).1 ++ (wordAt c t).2).Sublist (c :: t) := by
  rw [wordAt]
  split
  · exact (scan_sublist _ t).cons c
  · exact scan_sublist (!isspace ·) (c :: t)

theorem flatten_words_sublist (s : CString) : (words s).flatten.Sublist s := by
  induction s using Phase2.words.induct with
  | case1 s hdrop =>
      rw [words_of_nil hdrop]
      exact List.nil_sublist s
  | case2 s c t hdrop ih =>
      have hword := ((List.Sublist.refl (wordAt c t).1).append ih).trans (wordAt_sublist c t)
      rw [words_of_cons hdrop, List.flatten_cons]
      exact (hdrop ▸ hword).trans (List.dropWhile_sublist isspace)

/-- A word in quotes leaves its first quote behind. -/
theorem flatten_words_quoted {s t : CString} {c : Char} (hdrop : s.dropWhile isspace = c :: t)
    (hc : IsQuote c) : (words s).flatten.Sublist t := by
  have hword : wordAt c t = (t.takeWhile (· ≠ c), (t.dropWhile (· ≠ c)).drop 1) := if_pos hc
  rw [words_of_cons hdrop, List.flatten_cons, hword]
  exact ((List.Sublist.refl _).append (flatten_words_sublist _)).trans (scan_sublist _ t)

/-- The words of phase 1 have all characters but blanks and tabs, so that words which are the
same come from as many of them. -/
theorem nonblank_le {s u : CString} (hsame : words s = tokens blank s)
    (hsub : (words s).flatten.Sublist u) : s.countP (!blank ·) ≤ u.countP (!blank ·) := by
  have hle := hsub.countP_le (p := (!blank ·))
  rw [hsame, flatten_tokens, List.countP_filter] at hle
  simpa only [Bool.and_self] using hle

theorem takeWhile_isspace_iff (s : CString) : s.takeWhile (!isspace ·) = s.takeWhile (!blank ·) ↔
    ∀ c ∈ s.takeWhile (!blank ·), isspace c = false := by
  refine ⟨fun hsame c hc => ?_, fun hclean => ?_⟩
  · rw [← hsame] at hc
    simpa using List.mem_takeWhile_imp hc
  induction s with
  | nil => rfl
  | cons c s ih =>
      cases hc : blank c with
      | true => simp [hc, isspace_of_blank hc]
      | false =>
          rw [List.takeWhile_cons_of_pos (by simp [hc])] at hclean
          obtain ⟨hspace, hclean⟩ := List.forall_mem_cons.mp hclean
          simpa [hc, hspace] using ih hclean

/-- Two scans that read the same leave the same. -/
theorem scan_congr {test test' : Char → Bool} {s : CString}
    (htake : s.takeWhile test = s.takeWhile test') : s.dropWhile test = s.dropWhile test' := by
  have hsplit := (List.takeWhile_append_dropWhile (p := test) (l := s)).trans
    (List.takeWhile_append_dropWhile (p := test') (l := s)).symm
  rw [htake] at hsplit
  exact List.append_cancel_left hsplit

theorem dropWhile_isspace (s : CString) :
    (s.dropWhile blank).dropWhile isspace = s.dropWhile isspace := by
  induction s with
  | nil => rfl
  | cons c s ih =>
      cases hc : blank c with
      | false => rw [List.dropWhile_cons_of_neg (by simp [hc])]
      | true =>
          rw [List.dropWhile_cons_of_pos hc, ih, List.dropWhile_cons_of_pos (isspace_of_blank hc)]

/-- **The words of the two phases.** -/
theorem words_eq_tokens_iff (s : CString) :
    words s = tokens blank s ↔ ∀ word ∈ tokens blank s, Plain word := by
  induction s using Phase2.words.induct with
  | case1 s hdrop =>
      cases hblank : s.dropWhile blank with
      | nil => simp [words_of_nil hdrop, tokens_of_nil hblank]
      | cons c t =>
          -- a word of phase 1 that is white space to phase 2
          have hc : blank c = false := stops_of_dropWhile hblank
          have hspace : isspace c = true := by
            refine List.dropWhile_eq_nil_iff.mp hdrop c ((List.dropWhile_suffix blank).subset ?_)
            rw [hblank]
            exact List.mem_cons_self
          rw [words_of_nil hdrop, tokens_of_cons hblank]
          refine iff_of_false (List.cons_ne_nil _ _).symm fun hplain => ?_
          have hword := (hplain _ List.mem_cons_self).2 c (by simp [hc])
          exact Bool.false_ne_true (hword.symm.trans hspace)
  | case2 s c t hdrop ih =>
      obtain ⟨d, u, hblank⟩ : ∃ d u, s.dropWhile blank = d :: u := by
        refine List.exists_cons_of_ne_nil fun hnil => ?_
        have hagain := dropWhile_isspace s
        rw [hnil, hdrop] at hagain
        exact (List.cons_ne_nil c t).symm hagain
      have hagain := dropWhile_isspace s
      rw [hblank, hdrop] at hagain
      have hd : blank d = false := stops_of_dropWhile hblank
      have hcount : u.countP (!blank ·) < s.countP (!blank ·) := by
        have hle := (List.dropWhile_sublist (l := s) blank).countP_le (p := (!blank ·))
        rw [hblank, List.countP_cons_of_pos (by simp [hd])] at hle
        exact hle
      have hfirst : d ∈ (d :: u).takeWhile (!blank ·) := by simp [hd]
      by_cases hplain : isspace d = false ∧ ¬ IsQuote d
      · rw [List.dropWhile_cons_of_neg (by simp [hplain.1])] at hagain
        obtain ⟨rfl, rfl⟩ := List.cons.inj hagain
        have hword : wordAt d u =
            ((d :: u).takeWhile (!isspace ·), ((d :: u).dropWhile (!isspace ·)).drop 1) :=
          if_neg hplain.2
        rw [hword] at ih
        have hhead : ∀ e ∈ ((d :: u).takeWhile (!blank ·)).head?, ¬ IsQuote e := by
          simpa [hd] using hplain.2
        rw [words_of_cons hdrop, tokens_of_cons hblank, hword, List.cons.injEq,
          List.forall_mem_cons, Plain, and_iff_right hhead, ← takeWhile_isspace_iff]
        refine and_congr_right fun hsame => ?_
        rw [← scan_congr hsame]
        exact ih
      · -- a character that only phase 1 keeps
        have hread : (words s).flatten.Sublist u := by
          cases hspace : isspace d with
          | true =>
              rw [List.dropWhile_cons_of_pos hspace] at hagain
              have hwords := flatten_words_sublist (s.dropWhile isspace)
              rw [words_dropBlanks, hdrop, ← hagain] at hwords
              exact hwords.trans (List.dropWhile_sublist isspace)
          | false =>
              rw [List.dropWhile_cons_of_neg (by simp [hspace])] at hagain
              obtain ⟨rfl, rfl⟩ := List.cons.inj hagain
              exact flatten_words_quoted hdrop (not_not.mp fun hquote => hplain ⟨hspace, hquote⟩)
        refine iff_of_false (fun hsame => (nonblank_le hsame hread).not_gt hcount) fun hall => ?_
        rw [tokens_of_cons hblank] at hall
        obtain ⟨hhead, hclean⟩ := hall _ List.mem_cons_self
        exact hplain ⟨hclean d hfirst, hhead d (by simp [hd])⟩

/-- **When phase 1 and phase 2 agree on the words of a line.** -/
theorem parselines_agree_iff (line : CString) :
    argvOf line = Phase2.parseline line ↔ ∀ word ∈ argvOf line, Plain word := by
  rw [argvOf_eq, Phase2.parseline_eq, eq_comm]
  exact words_eq_tokens_iff (cutNewline line)

example : ¬ Plain "\"a".toList ∧ argvOf "\"a b\"\n".toList = ["\"a".toList, "b\"".toList] ∧
    Phase2.parseline "\"a b\"\n".toList = ["a b".toList] := by decide

end SystemProgramming.Phase1
