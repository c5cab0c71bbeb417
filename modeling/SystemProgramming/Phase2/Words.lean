import SystemProgramming.MyShell.Pieces

/-!
The words of a string, as the loop of `parseline` finds them in both phases, when
`argv` has room for them all, and what white space at the end of the string
makes of them.
-/

namespace SystemProgramming.Phase2

open SystemProgramming.CLib SystemProgramming.MyShell

/-! ### Words -/

/-- The words of a string, however many. -/
def words (s : CString) : List CString :=
  match _h : s.dropWhile isspace with
  | [] => []
  | c :: t => (wordAt c t).1 :: words (wordAt c t).2
termination_by s.length
decreasing_by
  have hdrop := (List.dropWhile_suffix (l := s) isspace).length_le
  have hword := length_wordAt c t
  rw [_h, List.length_cons] at hdrop
  omega

theorem words_of_nil {s : CString} (hdrop : s.dropWhile isspace = []) : words s = [] := by
  rw [words]
  split
  · rfl
  · next h => rw [hdrop] at h; nomatch h

theorem words_of_cons {s t : CString} {c : Char} (hdrop : s.dropWhile isspace = c :: t) :
    words s = (wordAt c t).1 :: words (wordAt c t).2 := by
  rw [words]
  split
  · next h => rw [hdrop] at h; nomatch h
  · next h =>
      rw [hdrop] at h
      obtain ⟨rfl, rfl⟩ := List.cons.inj h
      rfl

/-- `all` lists what `item` makes of each word, from the first one on. -/
structure Scans {α : Type} (item : Char → CString → α) (all : CString → List α) : Prop where
  nil : ∀ {s}, s.dropWhile isspace = [] → all s = []
  cons : ∀ {s t c}, s.dropWhile isspace = c :: t → all s = item c t :: all (wordAt c t).2

theorem scans_words : Scans (fun c t => (wordAt c t).1) words := ⟨words_of_nil, words_of_cons⟩

/-- A loop that stops when `argv` is full keeps of the list what there is room for. -/
theorem Scans.loop_eq {α : Type} {item : Char → CString → α} {all : CString → List α}
    (h : Scans item all) {loop : Nat → CString → List α → List α}
    (hzero : ∀ p argv, loop 0 p argv = argv)
    (hnil : ∀ fuel p argv, p.dropWhile isspace = [] → loop (fuel + 1) p argv = argv)
    (hcons : ∀ fuel p argv c t, p.dropWhile isspace = c :: t → loop (fuel + 1) p argv =
      if (argv ++ [item c t]).length ≥ MAXARGS - 1 then argv ++ [item c t]
      else loop fuel (wordAt c t).2 (argv ++ [item c t]))
    {fuel : Nat} {p : CString} (hfuel : p.length ≤ fuel) {argv : List α}
    (hroom : argv.length < MAXARGS - 1) :
    loop fuel p argv = argv ++ (all p).take (MAXARGS - 1 - argv.length) := by
  induction fuel generalizing p argv with
  | zero =>
      rw [List.eq_nil_of_length_eq_zero (Nat.le_zero.mp hfuel), hzero, h.nil rfl, List.take_nil,
        List.append_nil]
  | succ fuel ih =>
      cases hdrop : p.dropWhile isspace with
      | nil => rw [hnil _ _ _ hdrop, h.nil hdrop, List.take_nil, List.append_nil]
      | cons c t =>
          have hless := length_wordAt_lt hdrop
          have hlen : (argv ++ [item c t]).length = argv.length + 1 := by simp
          obtain ⟨n, hn⟩ := Nat.exists_eq_add_one.mpr (Nat.sub_pos_of_lt hroom)
          rw [hcons _ _ _ _ _ hdrop, h.cons hdrop, hn, List.take_succ_cons]
          split
          · next hfull =>
              have hlast : n = 0 := by omega
              rw [hlast, List.take_zero]
          · next hfree =>
              have hrest : MAXARGS - 1 - (argv ++ [item c t]).length = n := by omega
              rw [ih (by omega) (Nat.not_le.mp hfree), hrest, List.append_assoc,
                List.singleton_append]

/-- Phase 3 stores the words that `argv` has room for. -/
theorem myShell_parselineLoop_eq {fuel : Nat} {p : CString} (hfuel : p.length ≤ fuel)
    {argv : List CString} (hroom : argv.length < MAXARGS - 1) :
    MyShell.parselineLoop fuel p argv = argv ++ (words p).take (MAXARGS - 1 - argv.length) := by
  refine scans_words.loop_eq (fun _ _ => rfl) (fun fuel p argv hdrop => ?_)
    (fun fuel p argv c t hdrop => ?_) hfuel hroom
  · rw [MyShell.parselineLoop, hdrop]
  · rw [MyShell.parselineLoop, hdrop]

theorem myShell_parseline_take (buf : CString) :
    MyShell.parseline buf = (words (cutNewline buf)).take (MAXARGS - 1) :=
  myShell_parselineLoop_eq (Nat.le_refl _) (by decide)

theorem myShell_parseline_eq {buf : CString}
    (hroom : (MyShell.parseline buf).length < MAXARGS - 1) :
    MyShell.parseline buf = words (cutNewline buf) := by
  rw [myShell_parseline_take, List.length_take] at hroom
  rw [myShell_parseline_take, List.take_of_length_le (by omega)]

/-- Where `parseline` is behind a character. -/
inductive Place
  | between
  | word
  | quote (c : Char)
  deriving DecidableEq

def Place.next : Place → Char → Place
  | .between, c =>
      if isspace c then .between else if c = '"' ∨ c = '\'' then .quote c else .word
  | .word, c => if isspace c then .between else .word
  | .quote q, c => if c = q then .between else .quote q

def Place.isQuote : Place → Bool
  | .quote _ => true
  | _ => false

/-- The last word is quoted and its quote is not closed. -/
def endsOpen (s : CString) : Bool := (s.foldl Place.next .between).isQuote

def endsBlank (s : CString) : Bool := s.getLast?.any isspace

/-! ### White space at the end of a piece -/

/-- A word lasts as long as its test holds, and the character that ends it is passed over. -/
theorem foldl_next {place : Place} {test : Char → Bool} (hstay : ∀ d, test d = true →
    place.next d = place) (hleave : ∀ d, test d = false → place.next d = .between) (t : CString) :
    t.foldl Place.next place =
      if t.dropWhile test = [] then place
      else ((t.dropWhile test).drop 1).foldl Place.next .between := by
  induction t with
  | nil => rfl
  | cons d t ih =>
      cases hd : test d with
      | true =>
          rw [List.foldl_cons, hstay d hd, ih, List.dropWhile_cons_of_pos hd]
      | false =>
          rw [List.foldl_cons, hleave d hd, List.dropWhile_cons_of_neg (by simp [hd]),
            if_neg (List.cons_ne_nil d t)]
          rfl

theorem foldl_blank (s : CString) : s.foldl Place.next .between =
    (s.dropWhile isspace).foldl Place.next .between := by
  induction s with
  | nil => rfl
  | cons c s ih =>
      cases hc : isspace c with
      | true => rw [List.foldl_cons, Place.next, if_pos hc, ih, List.dropWhile_cons_of_pos hc]
      | false => rw [List.dropWhile_cons_of_neg (by simp [hc])]

theorem endsOpen_of_nil {s : CString} (hdrop : s.dropWhile isspace = []) : endsOpen s = false := by
  rw [endsOpen, foldl_blank, hdrop]
  rfl

/-- A quote begins a quoted word. -/
def IsQuote (c : Char) : Prop := c = '"' ∨ c = '\''

instance (c : Char) : Decidable (IsQuote c) := inferInstanceAs (Decidable (_ ∨ _))

theorem endsOpen_of_cons {s t : CString} {c : Char} (hdrop : s.dropWhile isspace = c :: t) :
    endsOpen s = if IsQuote c ∧ c ∉ t then true else endsOpen (wordAt c t).2 := by
  have hc : isspace c = false := stops_of_dropWhile hdrop
  rw [endsOpen, foldl_blank, hdrop, List.foldl_cons, Place.next, hc, if_neg Bool.false_ne_true,
    wordAt]
  split
  · next hquote =>
      have hstay : ∀ d, decide (d ≠ c) = true → (Place.quote c).next d = .quote c := by
        intro d hd
        rw [Place.next, if_neg (of_decide_eq_true hd)]
      have hleave : ∀ d, decide (d ≠ c) = false → (Place.quote c).next d = .between := by
        intro d hd
        rw [Place.next, if_pos (not_not.mp (of_decide_eq_false hd))]
      rw [foldl_next hstay hleave]
      have hclosed : t.dropWhile (fun d => decide (d ≠ c)) = [] ↔ c ∉ t := by
        rw [List.dropWhile_eq_nil_iff]
        exact ⟨fun h hmem => of_decide_eq_true (h c hmem) rfl,
          fun h d hd => decide_eq_true fun heq => h (heq ▸ hd)⟩
      split
      · next hnil => rw [if_pos ⟨hquote, hclosed.mp hnil⟩]; rfl
      · next hcons => rw [if_neg fun h => hcons (hclosed.mpr h.2)]; rfl
  · next hquote =>
      have hstay : ∀ d, (!isspace d) = true → Place.word.next d = .word := by
        intro d hd
        rw [Place.next, if_neg (by simpa using hd)]
      have hleave : ∀ d, (!isspace d) = false → Place.word.next d = .between := by
        intro d hd
        rw [Place.next, if_pos (by simpa using hd)]
      have hskip : (c :: t).dropWhile (!isspace ·) = t.dropWhile (!isspace ·) :=
        List.dropWhile_cons_of_pos (by simp [hc])
      have hnot : ¬ (IsQuote c ∧ c ∉ t) := fun h => hquote h.1
      rw [foldl_next hstay hleave, if_neg hnot, hskip]
      split
      · next hnil => rw [hnil]; rfl
      · rfl

variable {u blanks : CString}

theorem words_blanks (hblanks : ∀ d ∈ blanks, isspace d = true) : words blanks = [] :=
  words_of_nil (List.dropWhile_eq_nil_iff.mpr hblanks)

/-- A scan that stops within `t` is the same for what is longer than `t`. -/
theorem scan_append (test : Char → Bool) {t : CString} (hstop : t.dropWhile test ≠ [])
    (blanks : CString) : (t ++ blanks).takeWhile test = t.takeWhile test ∧
      ((t ++ blanks).dropWhile test).drop 1 = (t.dropWhile test).drop 1 ++ blanks := by
  have hshort : (t.takeWhile test).length ≠ t.length := by
    have hparts := congrArg List.length (List.takeWhile_append_dropWhile (p := test) (l := t))
    have hpos := List.length_pos_iff.mpr hstop
    rw [List.length_append] at hparts
    omega
  rw [List.takeWhile_append, List.dropWhile_append, if_neg hshort,
    if_neg (by simpa [List.isEmpty_iff] using hstop)]
  obtain ⟨d, r, hdrop⟩ := List.exists_cons_of_ne_nil hstop
  rw [hdrop]
  exact ⟨rfl, rfl⟩

/-- White space behind a string is a part of its first word when that is quoted and not closed.
Otherwise the word stays as it is. -/
theorem wordAt_append {c : Char} (t : CString) (hc : isspace c = false)
    (hblanks : ∀ d ∈ blanks, isspace d = true) :
    (IsQuote c ∧ c ∉ t ∧ wordAt c t = (t, []) ∧ wordAt c (t ++ blanks) = (t ++ blanks, [])) ∨
      ¬ (IsQuote c ∧ c ∉ t) ∧ (wordAt c (t ++ blanks)).1 = (wordAt c t).1 ∧
        words (wordAt c (t ++ blanks)).2 = words ((wordAt c t).2 ++ blanks) := by
  have hnone : c ∉ blanks := fun hmem => by simp [hblanks c hmem] at hc
  rw [wordAt, wordAt]
  split
  · next hquote =>
      have hopen {s : CString} (hs : c ∉ s) : s.takeWhile (fun d => decide (d ≠ c)) = s ∧
          s.dropWhile (fun d => decide (d ≠ c)) = [] := by
        rw [List.takeWhile_eq_self_iff, List.dropWhile_eq_nil_iff]
        have htest : ∀ d ∈ s, decide (d ≠ c) = true := fun d hd =>
          decide_eq_true fun heq => hs (heq ▸ hd)
        exact ⟨htest, htest⟩
      -- a closed quote ends in front of the white space, an open one takes it in
      rcases Decidable.em (c ∈ t) with hmem | hmem
      · obtain ⟨htake, hdrop⟩ := scan_append (fun d => decide (d ≠ c))
          (fun hnil => of_decide_eq_true (List.dropWhile_eq_nil_iff.mp hnil c hmem) rfl) blanks
        rw [htake, hdrop]
        exact .inr ⟨fun h => h.2 hmem, rfl, rfl⟩
      · have hmem' : c ∉ t ++ blanks := fun h => (List.mem_append.mp h).elim hmem hnone
        rw [(hopen hmem).1, (hopen hmem).2, (hopen hmem').1, (hopen hmem').2]
        exact .inl ⟨hquote, hmem, rfl, rfl⟩
  · next hquote =>
      refine .inr ⟨fun h => hquote h.1, ?_⟩
      rw [← List.cons_append]
      -- the word ends with the string or at white space of its own
      rcases eq_or_ne ((c :: t).dropWhile (!isspace ·)) [] with hnil | hstop
      · have hall := List.dropWhile_eq_nil_iff.mp hnil
        have hkeep :
            blanks.takeWhile (!isspace ·) = [] ∧ blanks.dropWhile (!isspace ·) = blanks := by
          cases blanks with
          | nil => exact ⟨rfl, rfl⟩
          | cons d ds => simp [hblanks d List.mem_cons_self]
        rw [List.takeWhile_append_of_pos hall, List.dropWhile_append_of_pos hall, hkeep.1, hkeep.2,
          hnil, List.append_nil, List.takeWhile_eq_self_iff.mpr hall]
        refine ⟨rfl, ?_⟩
        rw [words_blanks fun d hd => hblanks d (List.mem_of_mem_drop hd)]
        exact (words_blanks hblanks).symm
      · obtain ⟨htake, hdrop⟩ := scan_append _ hstop blanks
        rw [htake, hdrop]
        exact ⟨rfl, rfl⟩

/-- White space at the end changes the words exactly when a quote is open. -/
theorem words_append_iff (u : CString) (hblanks : ∀ d ∈ blanks, isspace d = true) :
    words (u ++ blanks) = words u ↔ blanks = [] ∨ endsOpen u = false := by
  induction u using words.induct with
  | case1 u hdrop =>
      have hall : (u ++ blanks).dropWhile isspace = [] := by
        rw [List.dropWhile_eq_nil_iff] at hdrop ⊢
        intro d hd
        exact (List.mem_append.mp hd).elim (hdrop d) (hblanks d)
      exact iff_of_true ((words_of_nil hall).trans (words_of_nil hdrop).symm)
        (.inr (endsOpen_of_nil hdrop))
  | case2 u c t hdrop ih =>
      have hdrop' : (u ++ blanks).dropWhile isspace = c :: (t ++ blanks) := by
        rw [List.dropWhile_append, hdrop]
        rfl
      rw [words_of_cons hdrop, words_of_cons hdrop', endsOpen_of_cons hdrop]
      rcases wordAt_append t (stops_of_dropWhile hdrop) hblanks with
        ⟨hquote, hnot, hword, hword'⟩ | ⟨hclosed, hsame, hrest⟩
      · rw [hword, hword', if_pos ⟨hquote, hnot⟩]
        simp
      · rw [if_neg hclosed, hsame, hrest, ← ih]
        simp

/-- White space closes no quote. -/
theorem isQuote_foldl {place : Place} (hplace : ∀ q, place = .quote q → isspace q = false)
    (hblanks : ∀ d ∈ blanks, isspace d = true) :
    (blanks.foldl Place.next place).isQuote = place.isQuote := by
  induction blanks generalizing place with
  | nil => rfl
  | cons d blanks ih =>
      have hd := hblanks d List.mem_cons_self
      have hrest := fun e he => hblanks e (List.mem_cons_of_mem d he)
      rw [List.foldl_cons]
      cases place with
      | between =>
          rw [Place.next, if_pos hd]
          exact ih hplace hrest
      | word =>
          rw [Place.next, if_pos hd]
          exact ih (fun q hq => nomatch hq) hrest
      | quote c =>
          have hne : d ≠ c := by
            rintro rfl
            simp [hplace d rfl] at hd
          rw [Place.next, if_neg hne]
          exact ih hplace hrest

/-- `parseline` takes no white space for a quote. -/
theorem isspace_of_quote (s : CString) (q : Char)
    (hplace : s.foldl Place.next .between = .quote q) : isspace q = false := by
  induction s using List.reverseRecOn with
  | nil => nomatch hplace
  | append_singleton s c ih =>
      rw [List.foldl_append, List.foldl_cons, List.foldl_nil] at hplace
      cases hbefore : s.foldl Place.next .between with
      | between =>
          rw [hbefore, Place.next] at hplace
          split at hplace
          · nomatch hplace
          · next hc =>
              split at hplace
              · exact Place.quote.inj hplace ▸ eq_false_of_ne_true hc
              · nomatch hplace
      | word =>
          rw [hbefore, Place.next] at hplace
          split at hplace <;> nomatch hplace
      | quote d =>
          rw [hbefore, Place.next] at hplace
          split at hplace
          · nomatch hplace
          · exact ih (hbefore.trans hplace)

theorem words_dropBlanks (s : CString) : words (s.dropWhile isspace) = words s := by
  have hagain : (s.dropWhile isspace).dropWhile isspace = s.dropWhile isspace :=
    List.dropWhile_idempotent isspace s
  cases hdrop : s.dropWhile isspace with
  | nil => rw [words_of_nil hdrop, words_of_nil rfl]
  | cons c t =>
      rw [hdrop] at hagain
      rw [words_of_cons hdrop, words_of_cons hagain]

/-- **What trimming a piece changes.** -/
theorem words_trimWs_iff (s : CString) :
    words s = words (trimWs s) ↔ ¬ (endsOpen s = true ∧ endsBlank s = true) := by
  have hsplit := trimWs_append_blanks s
  have hblanks : ∀ d ∈ (s.dropWhile isspace).rtakeWhile isspace, isspace d = true :=
    fun d hd => List.mem_rtakeWhile_imp hd
  have hopen : endsOpen s = endsOpen (trimWs s) := by
    rw [endsOpen, foldl_blank, ← hsplit, List.foldl_append]
    exact isQuote_foldl (isspace_of_quote _) hblanks
  have hend : s.dropWhile isspace ≠ [] →
      ((s.dropWhile isspace).rtakeWhile isspace = [] ↔ endsBlank s = false) := by
    intro hne
    have hlast : s.getLast? = (s.dropWhile isspace).getLast? := by
      conv_lhs => rw [← List.takeWhile_append_dropWhile (p := isspace) (l := s)]
      exact List.getLast?_append_of_ne_nil _ hne
    rw [List.rtakeWhile_eq_nil_iff, endsBlank, hlast, List.getLast?_eq_some_getLast hne]
    simp [hne]
  rw [← words_dropBlanks, ← hsplit, words_append_iff _ hblanks, ← hopen]
  rcases eq_or_ne (s.dropWhile isspace) [] with hnil | hne
  · simp [endsOpen_of_nil hnil]
  · rw [hend hne]
    cases endsOpen s <;> cases endsBlank s <;> decide

/-! ### What the words are made of -/

theorem mem_wordAt {c d : Char} {t : CString} (hmem : d ∈ c :: t) (hd : isspace d = false)
    (hquote : ¬ IsQuote d) : d ∈ (wordAt c t).1 ∨ d ∈ (wordAt c t).2 := by
  have hpart {test : Char → Bool} {s : CString} (hmem : d ∈ s) (htest : test d = true) :
      d ∈ s.takeWhile test ∨ d ∈ (s.dropWhile test).drop 1 := by
    rw [← List.takeWhile_append_dropWhile (p := test) (l := s), List.mem_append] at hmem
    refine hmem.imp_right fun hdrop => ?_
    cases hrest : s.dropWhile test with
    | nil => rw [hrest] at hdrop; nomatch hdrop
    | cons e r =>
        rw [hrest] at hdrop
        rcases List.mem_cons.mp hdrop with rfl | hdrop
        · rw [stops_of_dropWhile hrest] at htest
          nomatch htest
        · exact hdrop
  rw [wordAt]
  split
  · next hc =>
      have hne : d ≠ c := fun heq => hquote (heq ▸ hc)
      exact hpart ((List.mem_cons.mp hmem).resolve_left hne) (decide_eq_true hne)
  · exact hpart hmem (by simp [hd])

/-- Whatever is not white space and no quote is in some word. -/
theorem exists_mem_words {s : CString} {d : Char} (hmem : d ∈ s) (hd : isspace d = false)
    (hquote : ¬ IsQuote d) : ∃ w ∈ words s, d ∈ w := by
  have hdropped (s : CString) (hmem : d ∈ s) : d ∈ s.dropWhile isspace := by
    rw [← List.takeWhile_append_dropWhile (p := isspace) (l := s), List.mem_append] at hmem
    refine hmem.resolve_left fun htake => ?_
    simp [List.mem_takeWhile_imp htake] at hd
  induction s using words.induct with
  | case1 s hdrop => exact absurd (hdrop ▸ hdropped s hmem) List.not_mem_nil
  | case2 s c t hdrop ih =>
      rw [words_of_cons hdrop]
      rcases mem_wordAt (hdrop ▸ hdropped s hmem) hd hquote with hword | hrest
      · exact ⟨_, List.mem_cons_self, hword⟩
      · obtain ⟨w, hw, hdw⟩ := ih hrest
        exact ⟨w, List.mem_cons_of_mem _ hw, hdw⟩

theorem mem_of_mem_words {s w : CString} {d : Char} (hw : w ∈ words s) (hd : d ∈ w) : d ∈ s := by
  have hsub (c : Char) (t : CString) : (d ∈ (wordAt c t).1 → d ∈ c :: t) ∧
      (d ∈ (wordAt c t).2 → d ∈ c :: t) := by
    rw [wordAt]
    split
    · exact ⟨fun h => List.mem_cons_of_mem _ ((List.takeWhile_prefix _).subset h),
        fun h => List.mem_cons_of_mem _ ((List.dropWhile_suffix _).subset (List.mem_of_mem_drop h))⟩
    · exact ⟨fun h => (List.takeWhile_prefix (!isspace ·)).subset h,
        fun h => (List.dropWhile_suffix (!isspace ·)).subset (List.mem_of_mem_drop h)⟩
  induction s using words.induct with
  | case1 s hdrop => rw [words_of_nil hdrop] at hw; cases hw
  | case2 s c t hdrop ih =>
      rw [words_of_cons hdrop] at hw
      refine (List.dropWhile_suffix isspace).subset (hdrop ▸ ?_)
      rcases List.mem_cons.mp hw with rfl | hw
      · exact (hsub c t).1 hd
      · exact (hsub c t).2 (ih hw)

/-! ### Many words -/

/-- `n + 1` words of one letter. -/
def manyWords (n : Nat) : CString := 'a' :: (List.replicate n [' ', 'a']).flatten

theorem length_words_manyWords (n : Nat) : (words (manyWords n)).length = n + 1 := by
  induction n with
  | zero =>
      rw [words_of_cons (c := 'a') (t := []) rfl, words_of_nil rfl]
      rfl
  | succ n ih =>
      have hmore : manyWords (n + 1) = 'a' :: ' ' :: manyWords n := by
        rw [manyWords, List.replicate_succ, List.flatten_cons]
        rfl
      have hword : wordAt 'a' (' ' :: manyWords n) = (['a'], manyWords n) := rfl
      rw [hmore, words_of_cons (c := 'a') (t := ' ' :: manyWords n) rfl, hword, List.length_cons,
        ih]

end SystemProgramming.Phase2
