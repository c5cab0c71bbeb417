import SystemProgramming.MyShell.Pieces
import SystemProgramming.Phase2.Words

/-!
Bars that `parse_line` takes for quoted, and what `parseline` makes of them. For
`parse_line` every quote counts, for `parseline` only one with which a word
begins; so an apostrophe within a word hides a bar from the first and not from
the second.
-/

namespace SystemProgramming.MyShell

open SystemProgramming.CLib SystemProgramming.Library SystemProgramming.Phase2

/-! ### Arguments in the buffer -/

/-- An argument: where its pointer points to in the buffer, the text there, and whether a quote
stands in front of it. -/
structure Argument where
  start : Nat
  text : CString
  quoted : Bool
  deriving DecidableEq

/-- The rest of the buffer at the pointer for a word that begins with `c`; a quote is passed
over. -/
def argRest (c : Char) (p : CString) : CString := if IsQuote c then p else c :: p

/-- The argument that begins with `c`, in a buffer of length `n`. -/
def argumentAt (n : Nat) (c : Char) (p : CString) : Argument :=
  ⟨n - (argRest c p).length, (wordAt c p).1, decide (IsQuote c)⟩

/-- The loop of `parseline`, with the pointers it stores. -/
def argumentsLoop (n : Nat) : Nat → CString → List Argument → List Argument
  | 0, _, argv => argv
  | fuel + 1, p, argv =>
      match p.dropWhile isspace with
      | [] => argv
      | c :: p =>
          let argv := argv ++ [argumentAt n c p]
          if argv.length ≥ MAXARGS - 1 then argv
          else argumentsLoop n fuel (wordAt c p).2 argv

def arguments (buf : CString) : List Argument :=
  argumentsLoop (cutNewline buf).length (cutNewline buf).length (cutNewline buf) []

/-- These are the arguments of `parseline`. -/
theorem map_text_arguments (buf : CString) : (arguments buf).map Argument.text = parseline buf := by
  have hloop (n fuel : Nat) (p : CString) (argv : List Argument) :
      (argumentsLoop n fuel p argv).map Argument.text =
        parselineLoop fuel p (argv.map Argument.text) := by
    induction fuel generalizing p argv with
    | zero => rfl
    | succ fuel ih =>
        rw [argumentsLoop, parselineLoop]
        cases p.dropWhile isspace with
        | nil => rfl
        | cons c p =>
            have hlength : (argv ++ [argumentAt n c p]).length =
                (argv.map Argument.text ++ [(wordAt c p).1]).length := by simp
            dsimp only
            rw [hlength]
            split
            · exact List.map_append
            · rw [ih, List.map_append]
              rfl
  exact hloop _ _ _ []

/-- All arguments of a text at the end of a buffer of length `n`, however many. -/
def allArguments (n : Nat) (s : CString) : List Argument :=
  match _h : s.dropWhile isspace with
  | [] => []
  | c :: t => argumentAt n c t :: allArguments n (wordAt c t).2
termination_by s.length
decreasing_by
  exact length_wordAt_lt _h

variable {n k : Nat} {s t A B : CString} {b c : Char}

theorem allArguments_of_nil (hdrop : s.dropWhile isspace = []) : allArguments n s = [] := by
  rw [allArguments]
  split
  · rfl
  · next h => rw [hdrop] at h; nomatch h

theorem allArguments_of_cons (hdrop : s.dropWhile isspace = c :: t) :
    allArguments n s = argumentAt n c t :: allArguments n (wordAt c t).2 := by
  rw [allArguments]
  split
  · next h => rw [hdrop] at h; nomatch h
  · next h =>
      rw [hdrop] at h
      obtain ⟨rfl, rfl⟩ := List.cons.inj h
      rfl

theorem argumentsLoop_eq {fuel : Nat} {p : CString} (hfuel : p.length ≤ fuel)
    {argv : List Argument} (hroom : argv.length < MAXARGS - 1) :
    argumentsLoop n fuel p argv =
      argv ++ (allArguments n p).take (MAXARGS - 1 - argv.length) := by
  have hscans : Scans (argumentAt n) (allArguments n) :=
    ⟨allArguments_of_nil, allArguments_of_cons⟩
  refine hscans.loop_eq (fun _ _ => rfl) (fun fuel p argv hdrop => ?_)
    (fun fuel p argv c t hdrop => ?_) hfuel hroom
  · rw [argumentsLoop, hdrop]
  · rw [argumentsLoop, hdrop]

theorem arguments_eq (hs : '\n' ∉ s) :
    arguments s = (allArguments s.length s).take (MAXARGS - 1) := by
  rw [arguments, cutNewline_eq_self hs]
  exact argumentsLoop_eq (Nat.le_refl _) (by decide)

/-! ### One word -/

/-- What a word that begins with `c` goes on with. -/
def argTest (c : Char) : Char → Bool :=
  if IsQuote c then fun d => decide (d ≠ c) else fun d => !isspace d

theorem wordAt_eq (c : Char) (t : CString) :
    wordAt c t = ((argRest c t).takeWhile (argTest c),
      ((argRest c t).dropWhile (argTest c)).drop 1) := by
  rw [wordAt, argRest, argTest]
  by_cases hc : IsQuote c
  · rw [if_pos hc, if_pos hc]
    exact if_pos hc
  · rw [if_neg hc, if_neg hc]
    exact if_neg hc

/-- The quote in front of the rest, if there is one. -/
def argLead (c : Char) : CString := if IsQuote c then [c] else []

theorem argLead_append (c : Char) (t : CString) : argLead c ++ argRest c t = c :: t := by
  rw [argLead, argRest]
  split <;> rfl

/-- In front of `b`, all that belongs to the word or a word that has ended. -/
theorem scan_cases (test : Char → Bool) (hb : test b = true) (A B : CString) :
    (A.dropWhile test = [] ∧ ∃ D, (A ++ b :: B).takeWhile test = A ++ b :: D) ∨
      (A.dropWhile test ≠ [] ∧ (A ++ b :: B).takeWhile test = A.takeWhile test ∧
        ((A ++ b :: B).dropWhile test).drop 1 = (A.dropWhile test).drop 1 ++ b :: B) := by
  rcases eq_or_ne (A.dropWhile test) [] with hnil | hstop
  · refine .inl ⟨hnil, B.takeWhile test, ?_⟩
    rw [List.takeWhile_append_of_pos (List.dropWhile_eq_nil_iff.mp hnil),
      List.takeWhile_cons_of_pos hb]
  · exact .inr ⟨hstop, scan_append test hstop (b :: B)⟩

theorem argTest_self (hc : isspace c = false) (hquote : ¬IsQuote c) : argTest c c = true := by
  rw [argTest, if_neg hquote]
  simp [hc]

theorem argTest_of_ne (hb : isspace b = false) (hquote : ¬IsQuote b) (c : Char) :
    argTest c b = true := by
  rw [argTest]
  split
  · next hc => exact decide_eq_true fun heq => hquote (heq ▸ hc)
  · simp [hb]

/-- A word with text behind it has ended, whatever that text is. -/
theorem wordAt_rest (hc : isspace c = false) (hrest : (wordAt c t).2 ≠ []) :
    ∃ u, c :: t = u ++ (wordAt c t).2 ∧ ∀ y, ∃ t', u ++ y = c :: t' ∧
      wordAt c t' = ((wordAt c t).1, y) ∧ ¬(IsQuote c ∧ c ∉ t') := by
  rw [wordAt_eq] at hrest ⊢
  dsimp only at hrest ⊢
  have hwhole := List.takeWhile_append_dropWhile (p := argTest c) (l := argRest c t)
  have hword : ∀ d ∈ (argRest c t).takeWhile (argTest c), argTest c d = true :=
    fun d hd => List.mem_takeWhile_imp hd
  cases hdrop : (argRest c t).dropWhile (argTest c) with
  | nil =>
      rw [hdrop] at hrest
      exact absurd rfl hrest
  | cons d rest =>
      have hd : argTest c d = false := stops_of_dropWhile hdrop
      rw [hdrop] at hwhole
      generalize (argRest c t).takeWhile (argTest c) = w at hwhole hword
      refine ⟨argLead c ++ (w ++ [d]), ?_, fun y => ?_⟩
      · rw [← argLead_append c t, ← hwhole]
        simp
      have hscan : (w ++ d :: y).takeWhile (argTest c) = w ∧
          ((w ++ d :: y).dropWhile (argTest c)).drop 1 = y := by
        have hstop : ¬ argTest c d = true := by simp [hd]
        rw [List.takeWhile_append_of_pos hword, List.dropWhile_append_of_pos hword,
          List.takeWhile_cons_of_neg hstop, List.dropWhile_cons_of_neg hstop, List.append_nil]
        exact ⟨rfl, rfl⟩
      by_cases hquote : IsQuote c
      · have hdc : d = c := by
          rw [argTest, if_pos hquote] at hd
          exact not_not.mp (of_decide_eq_false hd)
        refine ⟨w ++ d :: y, by simp [argLead, hquote], ?_, fun h => h.2 (by simp [hdc])⟩
        rw [wordAt_eq, argRest, if_pos hquote, hscan.1, hscan.2]
      · -- the word begins with `c` itself
        cases w with
        | nil =>
            rw [argRest, if_neg hquote, List.nil_append] at hwhole
            rw [(List.cons.inj hwhole).1, argTest_self hc hquote] at hd
            nomatch hd
        | cons e w =>
            obtain rfl : e = c := by
              rw [argRest, if_neg hquote] at hwhole
              exact (List.cons.inj hwhole).1
            refine ⟨w ++ d :: y, by simp [argLead, hquote], ?_, fun h => hquote h.1⟩
            rw [wordAt_eq, argRest, if_neg hquote]
            exact Prod.ext hscan.1 hscan.2

/-- Within a word `parseline` is in quotes if the word began with one. -/
theorem inside_word {front C : CString} (hfront : ∀ d ∈ front, isspace d = true)
    (hc : isspace c = false) (hC : C <+: (wordAt c t).1) :
    endsOpen (front ++ (argLead c ++ C)) = decide (IsQuote c) ∧
      (IsQuote c → (words (front ++ (argLead c ++ C))).length = 1) := by
  have htest : ∀ d ∈ C, argTest c d = true := by
    intro d hd
    rw [wordAt_eq] at hC
    exact List.mem_takeWhile_imp (hC.subset hd)
  have hdrop (t' : CString) : (front ++ c :: t').dropWhile isspace = c :: t' := by
    rw [List.dropWhile_append_of_pos hfront, List.dropWhile_cons_of_neg (by simp [hc])]
  by_cases hquote : IsQuote c
  · have hnot : c ∉ C := fun hmem => by
      have hself := htest c hmem
      rw [argTest, if_pos hquote] at hself
      exact of_decide_eq_true hself rfl
    have hnil : (wordAt c C).2 = [] := by
      rw [wordAt_eq, argRest, if_pos hquote, List.dropWhile_eq_nil_iff.mpr htest]
      rfl
    rw [argLead, if_pos hquote, List.singleton_append, endsOpen_of_cons (hdrop C),
      if_pos ⟨hquote, hnot⟩, words_of_cons (hdrop C), hnil, words_of_nil rfl]
    exact ⟨(decide_eq_true hquote).symm, fun _ => rfl⟩
  · refine ⟨?_, fun h => absurd h hquote⟩
    rw [argLead, if_neg hquote, List.nil_append, decide_eq_false hquote]
    cases C with
    | nil =>
        rw [List.append_nil]
        exact endsOpen_of_nil (List.dropWhile_eq_nil_iff.mpr hfront)
    | cons e C =>
        obtain rfl : e = c := by
          obtain ⟨R, hR⟩ := hC
          rw [wordAt_eq, argRest, if_neg hquote,
            List.takeWhile_cons_of_pos (argTest_self hc hquote)] at hR
          exact (List.cons.inj hR).1
        have hnil : (wordAt e C).2 = [] := by
          rw [wordAt_eq, argRest, if_neg hquote, List.dropWhile_eq_nil_iff.mpr htest]
          rfl
        rw [endsOpen_of_cons (hdrop C), if_neg fun h => hquote h.1, hnil]
        rfl

/-! ### All words -/

/-- What stands in front of `b` begins with a text that `b` is not in. -/
theorem exists_append_front {front rest : CString} (hb : b ∉ front)
    (h : A ++ b :: B = front ++ rest) : ∃ A', A = front ++ A' ∧ A' ++ b :: B = rest := by
  rcases List.append_eq_append_iff.mp h with ⟨x, hx, hrest⟩ | ⟨x, hx, hrest⟩
  · cases x with
    | nil => exact ⟨[], by simpa using hx.symm, hrest⟩
    | cons d x =>
        obtain ⟨rfl, -⟩ := List.cons.inj hrest
        exact absurd (hx ▸ List.mem_append_right A List.mem_cons_self) hb
  · exact ⟨x, hx, hrest.symm⟩

/-- The quote that a word begins with stands in front of `b`. -/
theorem exists_append_lead (hquote : ¬IsQuote b) (h : A ++ b :: B = c :: t) :
    ∃ A', A = argLead c ++ A' ∧ A' ++ b :: B = argRest c t := by
  rw [argLead, argRest]
  split
  · next hopen =>
      cases A with
      | nil => exact absurd ((List.cons.inj h).1 ▸ hopen) hquote
      | cons d A =>
          obtain ⟨rfl, hrest⟩ := List.cons.inj h
          exact ⟨A, rfl, hrest⟩
  · exact ⟨A, rfl, h⟩

/-- The white space in front of the first word. -/
theorem split_front (hdrop : s.dropWhile isspace = c :: t) : ∃ front,
    s = front ++ c :: t ∧ (∀ d ∈ front, isspace d = true) ∧ isspace c = false :=
  ⟨s.takeWhile isspace, by rw [← hdrop, List.takeWhile_append_dropWhile],
    fun _ hd => List.mem_takeWhile_imp hd, stops_of_dropWhile hdrop⟩

/-- **Where an argument is.** Anywhere within it `parseline` is in quotes if it is quoted, and
it is then the last of the words up to there. -/
theorem allArguments_spec {a : Argument} (hn : s.length ≤ n)
    (ha : (allArguments n s)[k]? = some a) :
    ∃ P R, s = P ++ (a.text ++ R) ∧ a.start + s.length = n + P.length ∧
      ∀ C, C <+: a.text → endsOpen (P ++ C) = a.quoted ∧
        (a.quoted = true → (words (P ++ C)).length = k + 1) := by
  induction s using words.induct generalizing k with
  | case1 s hdrop => simp [allArguments_of_nil hdrop] at ha
  | case2 s c t hdrop ih =>
      obtain ⟨front, rfl, hfront, hc⟩ := split_front hdrop
      rw [allArguments_of_cons hdrop] at ha
      cases k with
      | zero =>
          obtain rfl : argumentAt n c t = a := Option.some.inj ha
          have hlead := argLead_append c t
          have hlength := congrArg List.length hlead
          simp only [List.length_append, List.length_cons] at hn hlength
          refine ⟨front ++ argLead c, (argRest c t).dropWhile (argTest c), ?_, ?_, fun C hC => ?_⟩
          · rw [argumentAt, wordAt_eq, List.takeWhile_append_dropWhile, List.append_assoc, hlead]
          · simp only [argumentAt, List.length_append, List.length_cons]
            omega
          · rw [List.append_assoc]
            obtain ⟨hopen, hwords⟩ := inside_word hfront hc hC
            exact ⟨hopen, fun hquoted => hwords (of_decide_eq_true hquoted)⟩
      | succ k =>
          rw [List.getElem?_cons_succ] at ha
          have hrest : (wordAt c t).2 ≠ [] := fun hnil => by
            rw [hnil, allArguments_of_nil rfl] at ha
            cases ha
          obtain ⟨u, hu, hany⟩ := wordAt_rest hc hrest
          have hlength := congrArg List.length hu
          simp only [List.length_append, List.length_cons] at hn hlength
          obtain ⟨P, R, hs, hstart, hin⟩ := ih (by omega) ha
          refine ⟨front ++ (u ++ P), R, ?_, ?_, fun C hC => ?_⟩
          · rw [hu]
            conv_lhs => rw [hs]
            simp only [List.append_assoc]
          · simp only [List.length_append, List.length_cons]
            omega
          · obtain ⟨t', ht', hword, hclosed⟩ := hany (P ++ C)
            have hdrop' : (front ++ c :: t').dropWhile isspace = c :: t' := by
              rw [List.dropWhile_append_of_pos hfront, List.dropWhile_cons_of_neg (by simp [hc])]
            obtain ⟨hopen, hwords⟩ := hin C hC
            rw [List.append_assoc, List.append_assoc, ht', endsOpen_of_cons hdrop',
              if_neg hclosed, words_of_cons hdrop', hword]
            exact ⟨hopen, fun hquoted => congrArg Nat.succ (hwords hquoted)⟩

/-- **Every bar is in an argument.** -/
theorem exists_argument (hn : (A ++ b :: B).length ≤ n) (hb : isspace b = false)
    (hquote : ¬IsQuote b) : ∃ (k : Nat) (a : Argument) (P C D : CString),
      (allArguments n (A ++ b :: B))[k]? = some a ∧ A = P ++ C ∧ a.text = C ++ b :: D ∧
        a.start + (A ++ b :: B).length = n + P.length := by
  generalize hs : A ++ b :: B = s at hn
  induction s using words.induct generalizing A with
  | case1 s hdrop =>
      have hmem : b ∈ s := hs ▸ List.mem_append_right A List.mem_cons_self
      simp [List.dropWhile_eq_nil_iff.mp hdrop b hmem] at hb
  | case2 s c t hdrop ih =>
      obtain ⟨front, rfl, hfront, hc⟩ := split_front hdrop
      -- the white space in front, and the quote the word begins with, stand in front of the bar
      obtain ⟨A', rfl, hA'⟩ : ∃ A', A = front ++ A' ∧ A' ++ b :: B = c :: t :=
        exists_append_front (fun hmem => by simp [hfront b hmem] at hb) hs
      obtain ⟨A'', rfl, hA''⟩ := exists_append_lead hquote hA'
      have hlead := congrArg List.length (argLead_append c t)
      have hlength := congrArg List.length hA''
      rw [allArguments_of_cons hdrop]
      simp only [List.length_append, List.length_cons] at hn hlead hlength
      rcases scan_cases (argTest c) (argTest_of_ne hb hquote c) A'' B with
        ⟨-, D, hword⟩ | ⟨hstop, -, hrest⟩
      · refine ⟨0, argumentAt n c t, front ++ argLead c, A'', D, rfl, by simp, ?_, ?_⟩
        · rw [argumentAt, wordAt_eq, ← hA'', hword]
        · simp only [argumentAt, List.length_append, List.length_cons]
          omega
      · rw [hA''] at hrest
        have hsecond : ((A''.dropWhile (argTest c)).drop 1) ++ b :: B = (wordAt c t).2 := by
          rw [wordAt_eq, hrest]
        have hle := congrArg List.length hsecond
        obtain ⟨d, w, hdrop''⟩ := List.exists_cons_of_ne_nil hstop
        have hparts := List.takeWhile_append_dropWhile (p := argTest c) (l := A'')
        have hcount := congrArg List.length hparts
        rw [hdrop''] at hsecond hle hparts hcount
        simp only [List.drop_one, List.tail_cons, List.length_append, List.length_cons]
          at hsecond hle hcount
        obtain ⟨k, a, P, C, D, ha, rfl, htext, hstart⟩ := ih hsecond (by omega)
        refine ⟨k + 1, a, front ++ (argLead c ++ (A''.takeWhile (argTest c) ++ d :: P)), C, D, ha,
          ?_, htext, ?_⟩
        · conv_lhs => rw [← hparts]
          simp
        · simp only [List.length_append, List.length_cons] at hstart hcount hle ⊢
          omega

/-! ### Agreement -/

/-- Every bar of a segment is strictly within an argument that begins with a quote, and none is
in another argument. -/
structure BarsQuoted (segment : CString) : Prop where
  inside : ∀ x, segment[x]? = some '|' → ∃ a ∈ arguments segment,
    a.quoted = true ∧ a.start ≤ x ∧ x < a.start + a.text.length
  outside : ∀ a ∈ arguments segment, a.quoted = false → '|' ∉ a.text

/-- At every bar of a text `parseline` is in quotes, in a word that `argv` has room for. -/
def BarsRead (s : CString) : Prop :=
  ∀ A B, s = A ++ '|' :: B → endsOpen A = true ∧ (words A).length ≤ MAXARGS - 1

theorem mem_arguments (hs : '\n' ∉ s) {a : Argument} :
    a ∈ arguments s ↔ ∃ k < MAXARGS - 1, (allArguments s.length s)[k]? = some a := by
  rw [arguments_eq hs, List.mem_iff_getElem?]
  refine exists_congr fun k => ?_
  rw [List.getElem?_take]
  split
  · next hk => exact (and_iff_right hk).symm
  · next hk => exact iff_of_false nofun fun h => hk h.1

/-- `allArguments_spec` in the buffer itself. -/
theorem argument_spec {a : Argument} (ha : (allArguments s.length s)[k]? = some a) :
    ∃ P R, s = P ++ (a.text ++ R) ∧ a.start = P.length ∧
      ∀ C, C <+: a.text → endsOpen (P ++ C) = a.quoted ∧
        (a.quoted = true → (words (P ++ C)).length = k + 1) := by
  obtain ⟨P, R, hparts, hstart, hin⟩ := allArguments_spec (Nat.le_refl _) ha
  exact ⟨P, R, hparts, by omega, hin⟩

theorem BarsQuoted.read (hs : '\n' ∉ s) (h : BarsQuoted s) : BarsRead s := by
  rintro A B rfl
  obtain ⟨a, ha, hquoted, hfrom, hto⟩ := h.inside A.length (by simp)
  obtain ⟨k, hroom, hk⟩ := (mem_arguments hs).mp ha
  obtain ⟨P, R, hparts, hstart, hin⟩ := argument_spec hk
  obtain ⟨C, rfl, hC⟩ : ∃ C, A = P ++ C ∧ C <+: a.text := by
    have hP : P <+: A := List.prefix_of_prefix_length_le
      (hparts.symm ▸ List.prefix_append P _) (List.prefix_append A ('|' :: B)) (by omega)
    obtain ⟨C, rfl⟩ := hP
    rw [List.append_assoc] at hparts
    have hrest := List.append_cancel_left hparts
    rw [List.length_append] at hto
    exact ⟨C, rfl, List.prefix_of_prefix_length_le (hrest ▸ List.prefix_append _ _)
      (List.prefix_append _ _) (by omega)⟩
  obtain ⟨hopen, hwords⟩ := hin C hC
  rw [hopen, hwords hquoted]
  exact ⟨hquoted, hroom⟩

theorem BarsRead.inside (hs : '\n' ∉ s) (h : BarsRead s) {x : Nat} (hx : s[x]? = some '|') :
    ∃ a ∈ arguments s, a.quoted = true ∧ a.start ≤ x ∧ x < a.start + a.text.length := by
  obtain ⟨hlt, hget⟩ := List.getElem?_eq_some_iff.mp hx
  have hsplit : s = s.take x ++ '|' :: s.drop (x + 1) := by
    rw [← hget, List.getElem_cons_drop, List.take_append_drop]
  obtain ⟨hopen, hroom⟩ := h _ _ hsplit
  obtain ⟨k, a, P, C, D, ha, hA, htext, hstart⟩ := exists_argument (n := s.length)
    (Nat.le_of_eq (congrArg List.length hsplit).symm) (show isspace '|' = false from rfl)
    (show ¬IsQuote '|' by decide)
  rw [← hsplit] at ha hstart
  obtain ⟨P', R, hparts, hstart', hin⟩ := argument_spec ha
  -- both lemmas speak of the same place
  obtain rfl : P' = P := by
    have hwhole := hparts.symm.trans hsplit
    rw [hA, List.append_assoc] at hwhole
    exact (List.append_inj hwhole (by omega)).1
  obtain ⟨hquoted, hwords⟩ := hin C (htext ▸ List.prefix_append _ _)
  rw [← hA, hopen] at hquoted
  rw [← hA] at hwords
  rw [hwords hquoted.symm] at hroom
  have hlength := congrArg List.length hA
  rw [List.length_take_of_le (Nat.le_of_lt hlt), List.length_append] at hlength
  refine ⟨a, (mem_arguments hs).mpr ⟨k, hroom, ha⟩, hquoted.symm, by omega, ?_⟩
  rw [htext, List.length_append, List.length_cons]
  omega

theorem BarsRead.outside (hs : '\n' ∉ s) (h : BarsRead s) {a : Argument} (ha : a ∈ arguments s)
    (hquoted : a.quoted = false) : '|' ∉ a.text := by
  intro hbar
  obtain ⟨k, -, hk⟩ := (mem_arguments hs).mp ha
  obtain ⟨P, R, hparts, -, hin⟩ := argument_spec hk
  obtain ⟨C, D, htext⟩ := List.append_of_mem hbar
  have hopen := (h (P ++ C) (D ++ R) (by rw [hparts, htext]; simp)).1
  rw [(hin C (htext ▸ List.prefix_append _ _)).1, hquoted] at hopen
  nomatch hopen

theorem barsQuoted_iff (hs : '\n' ∉ s) : BarsQuoted s ↔ BarsRead s :=
  ⟨fun h => h.read hs, fun h => ⟨fun _ => h.inside hs, fun _ => h.outside hs⟩⟩

/-! ### From pieces to segments -/

/-- White space in front and text without a bar behind make no difference. -/
theorem barsRead_iff {front text back : CString} (hfront : ∀ d ∈ front, isspace d = true)
    (hback : '|' ∉ back) : BarsRead (front ++ (text ++ back)) ↔ BarsRead text := by
  have hsame (A : CString) : endsOpen (front ++ A) = endsOpen A ∧ words (front ++ A) = words A := by
    have hdrop : (front ++ A).dropWhile isspace = A.dropWhile isspace :=
      List.dropWhile_append_of_pos hfront
    rw [endsOpen, endsOpen, foldl_blank, hdrop, ← foldl_blank, ← words_dropBlanks, hdrop,
      words_dropBlanks]
    exact ⟨rfl, rfl⟩
  constructor
  · rintro hread A B rfl
    have hbar := hread (front ++ A) (B ++ back) (by simp)
    rwa [(hsame A).1, (hsame A).2] at hbar
  · intro hread A B hs
    obtain ⟨A, rfl, hrest⟩ := exists_append_front
      (fun hmem => absurd (hfront '|' hmem) (by decide)) hs.symm
    rw [(hsame A).1, (hsame A).2]
    rcases List.append_eq_append_iff.mp hrest with ⟨x, rfl, hx⟩ | ⟨x, rfl, hx⟩
    · cases x with
      | nil =>
          rw [List.nil_append] at hx
          exact absurd (hx ▸ List.mem_cons_self) hback
      | cons d x =>
          obtain ⟨rfl, -⟩ := List.cons.inj hx
          exact hread A x rfl
    · exact absurd (hx ▸ List.mem_append_right x List.mem_cons_self) hback

theorem barsRead_trimWs (s : CString) : BarsRead (trimWs s) ↔ BarsRead s := by
  obtain ⟨front, back, hs, hfront, hback⟩ := exists_trimWs s
  conv_rhs => rw [hs]
  exact (barsRead_iff hfront fun hmem => absurd (hback '|' hmem) (by decide)).symm

theorem barsRead_stripAmp (s : CString) : BarsRead (stripAmp s) ↔ BarsRead s := by
  by_cases hends : endsAmp s = true
  · obtain ⟨t, blanks, rfl, hblanks, hstrip⟩ := exists_endsAmp hends
    have hback : '|' ∉ '&' :: blanks := fun hmem => by
      rcases List.mem_cons.mp hmem with hbar | hmem
      · exact absurd hbar (by decide)
      · exact absurd (hblanks '|' hmem) (by decide)
    have hsame : BarsRead ([] ++ (t ++ '&' :: blanks)) ↔ BarsRead t :=
      barsRead_iff (List.forall_mem_nil _) hback
    rw [hstrip, barsRead_trimWs]
    exact hsame.symm
  · rw [stripAmp_of_not_endsAmp hends, barsRead_trimWs]

/-- **The two lexers agree on a line** just when `parseline`, at every bar that is left in a
piece of it, is in quotes too, in a word that `argv` has room for. -/
theorem bars_quoted_iff {line : CString} {segments : List CString} {bg : Bool}
    (hparse : parseLine line = some (segments, bg)) :
    (∀ segment ∈ segments, BarsQuoted segment) ↔
      ∀ piece ∈ linePieces (cutNewline line), ∀ front rest, piece = front ++ '|' :: rest →
        endsOpen front = true ∧ (words front).length ≤ MAXARGS - 1 := by
  have hread : (∀ segment ∈ segments, BarsQuoted segment) ↔
      ∀ segment ∈ segments, BarsRead segment :=
    forall₂_congr fun segment hs => barsQuoted_iff fun hmem =>
      newline_notMem_cutNewline line (mem_of_mem_segment hparse hs hmem)
  rw [hread]
  change _ ↔ ∀ piece ∈ linePieces (cutNewline line), BarsRead piece
  obtain ⟨init, last, hpieces, ⟨-, rfl, -⟩ | ⟨rfl, hblank, rfl, -⟩⟩ := parseLine_eq_some.mp hparse
  · rw [hpieces]
    simp only [List.forall_mem_append, List.forall_mem_map, List.forall_mem_singleton,
      barsRead_trimWs, barsRead_stripAmp]
  · have hlast : BarsRead last := fun A B hsplit => by
      have hbar : '|' ∈ trimWs last := mem_trimWs (by simp [hsplit]) rfl
      rw [hblank] at hbar
      nomatch hbar
    rw [hpieces]
    simpa using hlast

/-- A text with one bar. -/
theorem barsRead_of_bar {front rest : CString} (hfront : '|' ∉ front) (hrest : '|' ∉ rest)
    (hread : endsOpen front = true ∧ (words front).length ≤ MAXARGS - 1) :
    BarsRead (front ++ '|' :: rest) := by
  intro A B hs
  obtain ⟨A, rfl, hA⟩ := exists_append_front hfront hs.symm
  cases A with
  | nil => rwa [List.append_nil]
  | cons d A =>
      exact absurd ((List.cons.inj hA).2 ▸ List.mem_append_right A List.mem_cons_self) hrest

/-- The bar of a pattern is in quotes for both. -/
theorem bars_quoted_iff_pattern :
    BarsQuoted "grep 'a|b' f".toList ∧ BarsQuoted "wc".toList := by
  have hparse : parseLine "grep 'a|b' f | wc\n".toList =
      some (["grep 'a|b' f".toList, "wc".toList], false) := by decide
  have hpieces : linePieces (cutNewline "grep 'a|b' f | wc\n".toList) =
      ["grep 'a".toList ++ '|' :: "b' f ".toList, " wc".toList] := by decide
  have hwords : words "grep 'a".toList = ["grep".toList, "a".toList] := by
    have hquoted : words "'a".toList = ["a".toList] := by
      rw [words_of_cons (c := '\'') (t := "a".toList) (by decide), words_of_nil (by decide)]
      decide
    rw [← hquoted]
    exact words_of_cons (c := 'g') (t := "rep 'a".toList) (by decide)
  have hread : ∀ piece ∈ linePieces (cutNewline "grep 'a|b' f | wc\n".toList), BarsRead piece := by
    rw [hpieces, List.forall_mem_cons, List.forall_mem_singleton]
    refine ⟨barsRead_of_bar (by decide) (by decide) ?_, fun A B hs => ?_⟩
    · rw [hwords]
      decide
    · have hbar : '|' ∈ " wc".toList := by simp [hs]
      exact absurd hbar (by decide)
  simpa using (bars_quoted_iff hparse).mpr hread

/-- After an apostrophe within a word a bar goes to `echo` as a word without quotes. -/
theorem bars_not_quoted : ¬∀ (line : CString) (segments : List CString) (bg : Bool),
    parseLine line = some (segments, bg) → ∀ segment ∈ segments, BarsQuoted segment := by
  intro h
  have hquoted := h "echo don't | it's\n".toList ["echo don't | it's".toList] false (by decide)
    _ List.mem_cons_self
  have hargument : ⟨11, ['|'], false⟩ ∈ arguments "echo don't | it's".toList := by decide
  exact hquoted.outside _ hargument rfl List.mem_cons_self

end SystemProgramming.MyShell
