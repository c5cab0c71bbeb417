import Mathlib.Data.List.Forall2
import SystemProgramming.MyShell.Lexer

/-!
The scanners of the phase 3 shell as they work in memory: on one buffer of
`MAXLINE` bytes, by indices, with a NUL written behind every piece. What they
hand out are indices into the buffer. Each of them is shown to leave there the
strings that its counterpart on strings computes.
-/

namespace SystemProgramming.MyShell.Buffer

open SystemProgramming.CLib

abbrev Bytes := Nat → Char

def NUL : Char := '\x00'

/-! ### The scanners

`fuel` bounds the rounds of the loops. Every loop stops at a NUL at the latest,
so the size of the buffer is enough. -/

/-- `while (*p && test (*p)) p++`. -/
def skipWhile (test : Char → Bool) : Nat → Bytes → Nat → Nat
  | 0, _, p => p
  | fuel + 1, buf, p =>
      if buf p ≠ NUL ∧ test (buf p) then skipWhile test fuel buf (p + 1) else p

def strlen (buf : Bytes) (s : Nat) : Nat := skipWhile (fun _ => true) MAXLINE buf s - s

/-- `strchr (s, '&') != NULL`. -/
def hasAmpersand (buf : Bytes) (s : Nat) : Bool :=
  buf (skipWhile (· ≠ '&') MAXLINE buf s) = '&'

/-- `buf[strcspn (buf, "\n")] = '\0'`. -/
def cutNewline (buf : Bytes) (s : Nat) : Bytes :=
  Function.update buf (skipWhile (· ≠ '\n') MAXLINE buf s) NUL

/-- The second loop of `trim_ws`, from `e` down to `s`. -/
def trimEnd : Nat → Bytes → Nat → Nat → Bytes
  | 0, buf, _, _ => buf
  | fuel + 1, buf, s, e =>
      if s < e ∧ isspace (buf e) then trimEnd fuel (Function.update buf e NUL) s (e - 1) else buf

def trimWs (buf : Bytes) (s : Nat) : Nat × Bytes :=
  let s := skipWhile isspace MAXLINE buf s
  if buf s = NUL then (s, buf)
  else (s, trimEnd MAXLINE buf s (s + strlen buf s - 1))

/-- A word of `parseline` from `p` on: where it begins, what is written behind it, and where the
scan goes on. -/
def word (buf : Bytes) (p : Nat) : Nat × Bytes × Nat :=
  if buf p = '"' ∨ buf p = '\'' then
    let e := skipWhile (· ≠ buf p) MAXLINE buf (p + 1)
    if buf e = buf p then (p + 1, Function.update buf e NUL, e + 1) else (p + 1, buf, e)
  else
    let e := skipWhile (!isspace ·) MAXLINE buf p
    if buf e ≠ NUL then (p, Function.update buf e NUL, e + 1) else (p, buf, e)

def parselineLoop : Nat → Bytes → Nat → List Nat → Bytes × List Nat
  | 0, buf, _, argv => (buf, argv)
  | fuel + 1, buf, p, argv =>
      let p := skipWhile isspace MAXLINE buf p
      if buf p = NUL then (buf, argv)
      else
        let argv := argv ++ [(word buf p).1]
        if argv.length ≥ MAXARGS - 1 then ((word buf p).2.1, argv)
        else parselineLoop fuel (word buf p).2.1 (word buf p).2.2 argv

/-- `parseline`: the buffer it leaves, and `argv` with the NULL that ends it. -/
def parseline (buf : Bytes) (s : Nat) : Bytes × List (Option Nat) :=
  let (buf, argv) := parselineLoop MAXLINE (cutNewline buf s) s []
  (buf, argv.map some ++ [none])

/-- The loop of `parse_line`; `none` is the return value -1. -/
def parseLineLoop : Nat → Bytes → Nat → Nat → Bool → Bool → List Nat →
    Option (Bytes × Nat × List Nat)
  | 0, _, _, _, _, _, _ => none
  | fuel + 1, buf, p, start, inSingle, inDouble, segments =>
      if buf p = NUL then some (buf, start, segments)
      else if buf p = '\'' ∧ ¬inDouble then
        parseLineLoop fuel buf (p + 1) start (!inSingle) inDouble segments
      else if buf p = '"' ∧ ¬inSingle then
        parseLineLoop fuel buf (p + 1) start inSingle (!inDouble) segments
      else if ¬inSingle ∧ ¬inDouble ∧ buf p = '|' then
        let (segment, buf) := trimWs (Function.update buf p NUL) start
        if buf segment = NUL ∨ hasAmpersand buf segment then none
        else if segments.length + 1 ≥ MAXCMDS then none
        else parseLineLoop fuel buf (p + 1) (p + 1) inSingle inDouble (segments ++ [segment])
      else parseLineLoop fuel buf (p + 1) start inSingle inDouble segments

/-- What `parse_line` does behind its loop. -/
def parseLineLast (buf : Bytes) (start : Nat) (segments : List Nat) :
    Option (Bytes × List Nat × Bool) :=
  let (start, buf) := trimWs buf start
  if buf start = NUL then
    if segments = [] then some (buf, [], false) else none
  else
    let p := start + strlen buf start - 1
    if buf p = '&' then
      let (start, buf) := trimWs (Function.update buf p NUL) start
      if buf start = NUL then none
      else if hasAmpersand buf start then none
      else some (buf, segments ++ [start], true)
    else if hasAmpersand buf start then none
    else some (buf, segments ++ [start], false)

/-- `parse_line`: the buffer it leaves, `segments`, whose number is `nseg`, and `bg`. -/
def parseLine (buf : Bytes) (s : Nat) : Option (Bytes × List Nat × Bool) :=
  (parseLineLoop MAXLINE (cutNewline buf s) s s false false []).bind
    fun (buf, start, segments) => parseLineLast buf start segments

/-! ### Strings in the buffer -/

/-- The bytes from `p` on up to the first NUL. -/
def StrAt (buf : Bytes) (p : Nat) : CString → Prop
  | [] => buf p = NUL
  | c :: s => buf p = c ∧ c ≠ NUL ∧ StrAt buf (p + 1) s

variable {buf buf' : Bytes} {p q start : Nat} {s t cur : CString} {test : Char → Bool}

theorem StrAt.append (hs : StrAt buf p (s ++ t)) : StrAt buf (p + s.length) t := by
  induction s generalizing p with
  | nil => exact hs
  | cons c s ih =>
      rw [List.length_cons, Nat.add_comm s.length, ← Nat.add_assoc]
      exact ih hs.2.2

theorem StrAt.congr (hs : StrAt buf p s) (hsame : ∀ x, p ≤ x → x ≤ p + s.length → buf' x = buf x) :
    StrAt buf' p s := by
  induction s generalizing p with
  | nil => exact (hsame p (Nat.le_refl p) (Nat.le_add_right _ _)).trans hs
  | cons c s ih =>
      refine ⟨(hsame p (Nat.le_refl p) (Nat.le_add_right _ _)).trans hs.1, hs.2.1, ih hs.2.2 ?_⟩
      intro x hpx hx
      exact hsame x (by omega) (by simp only [List.length_cons]; omega)

theorem StrAt.update (hs : StrAt buf p s) (hq : q < p ∨ p + s.length < q) (c : Char) :
    StrAt (Function.update buf q c) p s :=
  hs.congr fun _ _ _ => Function.update_of_ne (by omega) ..

/-- A NUL behind the first part leaves the first part. -/
theorem StrAt.cut (hs : StrAt buf p (s ++ t)) :
    StrAt (Function.update buf (p + s.length) NUL) p s := by
  induction s generalizing p with
  | nil => exact Function.update_self ..
  | cons c s ih =>
      have hrest := ih hs.2.2
      rw [Nat.add_assoc, Nat.add_comm 1] at hrest
      refine ⟨?_, hs.2.1, hrest⟩
      rw [Function.update_of_ne (by simp only [List.length_cons]; omega)]
      exact hs.1

theorem StrAt.eq_nul_iff (hs : StrAt buf p s) : buf p = NUL ↔ s = [] := by
  cases s with
  | nil => exact iff_of_true hs rfl
  | cons c s => exact iff_of_false (hs.1 ▸ hs.2.1) (List.cons_ne_nil c s)

/-- A buffer that was zeroed before `s` was written to its front. -/
def ofString (s : CString) : Bytes := fun k => s.getD k NUL

theorem strAt_ofString_append (t : CString) (hs : NUL ∉ s) :
    StrAt (ofString (t ++ s)) t.length s := by
  induction s generalizing t with
  | nil => simp [StrAt, ofString]
  | cons c s ih =>
      obtain ⟨hc, hs⟩ := not_or.mp (mt List.mem_cons.mpr hs)
      have hrest := ih (t ++ [c]) hs
      rw [List.append_assoc, List.singleton_append, List.length_append] at hrest
      exact ⟨by simp [ofString], Ne.symm hc, hrest⟩

theorem strAt_ofString (hs : NUL ∉ s) : StrAt (ofString s) 0 s := strAt_ofString_append [] hs

theorem StrAt.skipWhile (hs : StrAt buf p s) {fuel : Nat} (hfuel : s.length ≤ fuel) :
    skipWhile test fuel buf p = p + (s.takeWhile test).length := by
  induction fuel generalizing p s with
  | zero =>
      rw [List.eq_nil_of_length_eq_zero (Nat.le_zero.mp hfuel)]
      rfl
  | succ fuel ih =>
      rw [Buffer.skipWhile]
      cases s with
      | nil => rw [if_neg fun h => h.1 hs]; rfl
      | cons c s =>
          rw [hs.1]
          split
          · next htest =>
              rw [ih hs.2.2 (Nat.le_of_succ_le_succ hfuel), List.takeWhile_cons_of_pos htest.2,
                List.length_cons]
              omega
          · next htest =>
              rw [List.takeWhile_cons_of_neg fun h => htest ⟨hs.2.1, h⟩]
              rfl

theorem StrAt.skipped (hs : StrAt buf p s) (test : Char → Bool) :
    StrAt buf (p + (s.takeWhile test).length) (s.dropWhile test) :=
  StrAt.append (by rwa [List.takeWhile_append_dropWhile])

/-- Nothing outside of `[lo, hi)` was written. -/
def SameOff (lo hi : Nat) (buf buf' : Bytes) : Prop := ∀ x, x < lo ∨ hi ≤ x → buf' x = buf x

theorem SameOff.refl (lo hi : Nat) (buf : Bytes) : SameOff lo hi buf buf := fun _ _ => rfl

theorem SameOff.trans {lo hi : Nat} {buf₁ buf₂ buf₃ : Bytes} (h12 : SameOff lo hi buf₁ buf₂)
    (h23 : SameOff lo hi buf₂ buf₃) : SameOff lo hi buf₁ buf₃ :=
  fun x hx => (h23 x hx).trans (h12 x hx)

theorem SameOff.mono {lo hi lo' hi' : Nat} (hsame : SameOff lo hi buf buf') (hlo : lo' ≤ lo)
    (hhi : hi ≤ hi') : SameOff lo' hi' buf buf' :=
  fun x hx => hsame x (by omega)

theorem SameOff.update {lo hi : Nat} (hlo : lo ≤ q) (hhi : q < hi) (c : Char) :
    SameOff lo hi buf (Function.update buf q c) :=
  fun _ _ => Function.update_of_ne (by omega) ..

theorem StrAt.sameOff {lo hi : Nat} (hs : StrAt buf p s) (hsame : SameOff lo hi buf buf')
    (hout : p + s.length < lo ∨ hi ≤ p) : StrAt buf' p s :=
  hs.congr fun x _ _ => hsame x (by omega)

/-! ### Each scanner does what its counterpart does -/

theorem strlen_eq (hs : StrAt buf p s) (hlength : s.length ≤ MAXLINE) :
    strlen buf p = s.length := by
  have hall : s.takeWhile (fun _ => true) = s := List.takeWhile_eq_self_iff.mpr fun _ _ => rfl
  rw [strlen, hs.skipWhile hlength, hall]
  omega

theorem hasAmpersand_eq (hs : StrAt buf p s) (hlength : s.length ≤ MAXLINE) :
    hasAmpersand buf p = true ↔ '&' ∈ s := by
  have hrest := hs.skipped fun c => decide (c ≠ '&')
  rw [hasAmpersand, hs.skipWhile hlength, decide_eq_true_iff]
  cases hdrop : s.dropWhile fun c => decide (c ≠ '&') with
  | nil =>
      rw [hdrop] at hrest
      have hnone := List.dropWhile_eq_nil_iff.mp hdrop
      refine iff_of_false ?_ fun hmem => absurd rfl (of_decide_eq_true (hnone _ hmem))
      rw [show buf _ = NUL from hrest]
      decide
  | cons c t =>
      rw [hdrop] at hrest
      have hc : c = '&' := not_not.mp (of_decide_eq_false (stops_of_dropWhile hdrop))
      refine iff_of_true (hrest.1.trans hc) ?_
      have hmem : c ∈ s.dropWhile fun c => decide (c ≠ '&') := hdrop ▸ List.mem_cons_self
      exact hc ▸ (List.dropWhile_suffix _).subset hmem

theorem strAt_cutNewline (hs : StrAt buf p s) (hlength : s.length ≤ MAXLINE) :
    StrAt (cutNewline buf p) p (CLib.cutNewline s) := by
  rw [cutNewline, hs.skipWhile hlength, ← CLib.cutNewline]
  refine StrAt.cut (t := s.dropWhile fun c => decide (c ≠ '\n')) ?_
  rwa [CLib.cutNewline, List.takeWhile_append_dropWhile]

theorem length_trimWs (s : CString) : (MyShell.trimWs s).length ≤ s.length :=
  (List.rdropWhile_prefix _ _).length_le.trans (List.dropWhile_suffix _).length_le

/-- The second loop of `trim_ws` never passes the first character, which is not white space. -/
theorem strAt_trimEnd {c : Char} (hs : StrAt buf p (c :: s)) (hc : isspace c = false) {fuel : Nat}
    (hfuel : s.length ≤ fuel) :
    StrAt (trimEnd fuel buf p (p + s.length)) p ((c :: s).rdropWhile isspace) ∧
      SameOff (p + 1) (p + 1 + s.length) buf (trimEnd fuel buf p (p + s.length)) := by
  induction fuel generalizing buf s with
  | zero =>
      rw [List.eq_nil_of_length_eq_zero (Nat.le_zero.mp hfuel)] at hs ⊢
      rw [List.rdropWhile_singleton, hc]
      exact ⟨hs, .refl _ _ _⟩
  | succ fuel ih =>
      rw [trimEnd]
      rcases s.eq_nil_or_concat with rfl | ⟨t, d, rfl⟩
      · rw [if_neg fun h => absurd h.1 (by simp), List.rdropWhile_singleton, hc]
        exact ⟨hs, .refl _ _ _⟩
      · have hlast : buf (p + (t.concat d).length) = d := by
          have hrest := StrAt.append (s := c :: t) (t := [d]) (by simpa using hs)
          simpa [Nat.add_assoc] using hrest.1
        have hlength : p < p + (t.concat d).length := by simp
        have hfuel' : t.length ≤ fuel := by simpa using hfuel
        rw [hlast, List.concat_eq_append, ← List.cons_append]
        split
        · next hspace =>
            have hcut := StrAt.cut (s := c :: t) (t := [d]) (by simpa using hs)
            have hend : p + (t ++ [d]).length = p + (c :: t).length := by simp
            have hback : p + (c :: t).length - 1 = p + t.length := by
              rw [List.length_cons, ← Nat.add_assoc, Nat.add_sub_cancel]
            rw [hend, hback, List.rdropWhile_concat_pos _ _ _ hspace.2]
            obtain ⟨hstr, hsame⟩ := ih hcut hfuel'
            refine ⟨hstr, .trans (.update ?_ ?_ _) (hsame.mono (Nat.le_refl _) ?_)⟩
            · exact Nat.add_le_add_left (Nat.succ_pos _) p
            · simp only [List.length_append, List.length_cons, List.length_nil]
              omega
            · exact Nat.add_le_add_left (by simp) _
        · next hspace =>
            rw [List.rdropWhile_concat_neg _ _ _ fun h => hspace ⟨by simp, h⟩]
            exact ⟨by simpa using hs, .refl _ _ _⟩

/-- `trim_ws` leaves the trimmed string, inside of where the string was. -/
theorem strAt_trimWs (hs : StrAt buf p s) (hlength : s.length ≤ MAXLINE) :
    StrAt (trimWs buf p).2 (trimWs buf p).1 (MyShell.trimWs s) ∧ p ≤ (trimWs buf p).1 ∧
      (trimWs buf p).1 + (MyShell.trimWs s).length ≤ p + s.length ∧
      SameOff p (p + s.length) buf (trimWs buf p).2 := by
  have hstart := hs.skipped isspace
  have hparts : (s.takeWhile isspace).length + (s.dropWhile isspace).length = s.length := by
    rw [← List.length_append, List.takeWhile_append_dropWhile]
  rw [trimWs, hs.skipWhile hlength, MyShell.trimWs]
  cases hdrop : s.dropWhile isspace with
  | nil =>
      rw [hdrop] at hstart hparts
      rw [if_pos (show buf _ = NUL from hstart)]
      refine ⟨hstart, Nat.le_add_right _ _, ?_, .refl _ _ _⟩
      simp only [List.rdropWhile_nil, List.length_nil] at hparts ⊢
      omega
  | cons c t =>
      rw [hdrop] at hstart hparts
      have hc : isspace c = false := stops_of_dropWhile hdrop
      simp only [List.length_cons] at hparts
      have hend : p + (s.takeWhile isspace).length + (t.length + 1) - 1 =
          p + (s.takeWhile isspace).length + t.length := by omega
      rw [if_neg fun h => absurd (hstart.eq_nul_iff.mp h) (List.cons_ne_nil c t),
        strlen_eq hstart (by simp only [List.length_cons]; omega), List.length_cons, hend]
      obtain ⟨hstr, hsame⟩ := strAt_trimEnd hstart hc (show t.length ≤ MAXLINE by omega)
      refine ⟨hstr, Nat.le_add_right _ _, ?_, hsame.mono (by omega) (by omega)⟩
      have hle := (List.rdropWhile_prefix isspace (c :: t)).length_le
      simp only [List.length_cons] at hle ⊢
      omega

/-- Where a word ends, a NUL is written over the character behind it, if there is one. -/
theorem strAt_endWord (hs : StrAt buf q s) (test : Char → Bool) {e : Nat}
    (he : e = q + (s.takeWhile test).length) :
    (s.dropWhile test = [] ∧ buf e = NUL ∧ s.takeWhile test = s) ∨
      ∃ d t, s.dropWhile test = d :: t ∧ test d = false ∧ buf e = d ∧ d ≠ NUL ∧
        StrAt (Function.update buf e NUL) q (s.takeWhile test) ∧
        StrAt (Function.update buf e NUL) (e + 1) t ∧ e + 1 + t.length = q + s.length := by
  subst he
  have hrest := hs.skipped test
  cases hdrop : s.dropWhile test with
  | nil =>
      rw [hdrop] at hrest
      have hwhole : s.takeWhile test ++ s.dropWhile test = s := List.takeWhile_append_dropWhile
      rw [hdrop, List.append_nil] at hwhole
      exact .inl ⟨rfl, hrest, hwhole⟩
  | cons d t =>
      rw [hdrop] at hrest
      have hd : test d = false := stops_of_dropWhile hdrop
      have hparts : (s.takeWhile test).length + (d :: t).length = s.length := by
        rw [← hdrop, ← List.length_append, List.takeWhile_append_dropWhile]
      rw [List.length_cons] at hparts
      refine .inr ⟨d, t, rfl, hd, hrest.1, hrest.2.1, ?_, hrest.2.2.update (by omega) NUL, by omega⟩
      exact StrAt.cut (t := s.dropWhile test) (by rwa [List.takeWhile_append_dropWhile])

/-- What the scan of a word leaves: the word, and the rest of the string behind it. -/
structure WordSpec (buf : Bytes) (p : Nat) (s : CString) (found : Nat × Bytes × Nat)
    (w rest : CString) : Prop where
  strAt_word : StrAt found.2.1 found.1 w
  strAt_rest : StrAt found.2.1 found.2.2 rest
  order : found.1 + w.length < found.2.2 ∨ rest = []
  from_start : p ≤ found.2.2
  within : found.2.2 + rest.length ≤ p + s.length
  same : SameOff p (p + s.length) buf found.2.1

theorem wordSpec_word {c : Char} (hs : StrAt buf p (c :: t)) (hlength : t.length < MAXLINE) :
    WordSpec buf p (c :: t) (word buf p) (wordAt c t).1 (wordAt c t).2 := by
  have hlength' : (c :: t).length = t.length + 1 := List.length_cons
  rw [word, hs.1, wordAt]
  split
  · -- a quote: the word begins behind it
    rw [hs.2.2.skipWhile (Nat.le_of_lt hlength)]
    rcases strAt_endWord hs.2.2 (fun d => decide (d ≠ c)) rfl with
      ⟨hdrop, hnul, htake⟩ | ⟨d, r, hdrop, hd, hbuf, hne, hword, hrest, hend⟩
    · rw [if_neg fun heq => hs.2.1 (heq.symm.trans hnul), hdrop, htake]
      rw [htake] at hnul
      refine ⟨hs.2.2, hnul, .inr rfl, ?_, ?_, .refl _ _ _⟩
      all_goals
        dsimp only [List.drop, List.length]
        omega
    · have hdc : d = c := not_not.mp (of_decide_eq_false hd)
      rw [if_pos (hbuf.trans hdc), hdrop]
      refine ⟨hword, hrest, .inl (Nat.lt_succ_self _), ?_, ?_, .update (by omega) (by omega) _⟩
      all_goals
        dsimp only [List.drop]
        omega
  · rw [hs.skipWhile (hlength' ▸ hlength)]
    rcases strAt_endWord hs (fun d => !isspace d) rfl with
      ⟨hdrop, hnul, htake⟩ | ⟨d, r, hdrop, hd, hbuf, hne, hword, hrest, hend⟩
    · rw [if_neg (not_not.mpr hnul), hdrop, htake]
      rw [htake] at hnul
      exact ⟨hs, hnul, .inr rfl, Nat.le_add_right _ _, Nat.le_refl _, .refl _ _ _⟩
    · rw [if_pos (hbuf ▸ hne), hdrop]
      refine ⟨hword, hrest, .inl (Nat.lt_succ_self _), ?_, ?_, .update (by omega) (by omega) _⟩
      all_goals
        dsimp only [List.drop]
        omega

/-- The word stays when only the rest is written to. -/
theorem WordSpec.kept {found : Nat × Bytes × Nat} {w rest : CString}
    (hword : WordSpec buf p s found w rest)
    (hsame : SameOff found.2.2 (found.2.2 + rest.length) found.2.1 buf') :
    StrAt buf' found.1 w := by
  refine hword.strAt_word.congr fun x _ hx => hsame x ?_
  rcases hword.order with hlt | rfl
  · exact .inl (Nat.lt_of_le_of_lt hx hlt)
  · exact Nat.lt_or_ge _ _

/-- The loop of `parseline` leaves the words that its counterpart finds, and writes nowhere but
in the string. -/
theorem strAt_parselineLoop (hs : StrAt buf p s) (hlength : s.length ≤ MAXLINE)
    {ptrs : List Nat} {argv : List CString} (hcount : ptrs.length = argv.length) {fuel : Nat}
    (hfuel : s.length ≤ fuel) : ∃ buf' ptrs' argv',
      parselineLoop fuel buf p ptrs = (buf', ptrs ++ ptrs') ∧
      MyShell.parselineLoop fuel s argv = argv ++ argv' ∧ List.Forall₂ (StrAt buf') ptrs' argv' ∧
      SameOff p (p + s.length) buf buf' := by
  induction fuel generalizing buf p s ptrs argv with
  | zero => exact ⟨buf, [], [], by simp [parselineLoop], by simp [MyShell.parselineLoop], .nil,
      .refl _ _ _⟩
  | succ fuel ih =>
      have hstart := hs.skipped isspace
      have hparts : (s.takeWhile isspace).length + (s.dropWhile isspace).length = s.length := by
        rw [← List.length_append, List.takeWhile_append_dropWhile]
      rw [parselineLoop, MyShell.parselineLoop, hs.skipWhile hlength]
      dsimp only
      cases hdrop : s.dropWhile isspace with
      | nil =>
          rw [hdrop] at hstart
          rw [if_pos (show buf _ = NUL from hstart)]
          exact ⟨buf, [], [], by simp, by simp, .nil, .refl _ _ _⟩
      | cons c t =>
          rw [hdrop] at hstart hparts
          simp only [List.length_cons] at hparts
          rw [if_neg fun h => absurd (hstart.eq_nul_iff.mp h) (List.cons_ne_nil c t)]
          have hword := wordSpec_word hstart (show t.length < MAXLINE by omega)
          have hwithin := hword.within
          have hnext := hword.from_start
          have hsame := hword.same
          simp only [List.length_cons] at hwithin hsame
          have hsame' : SameOff p (p + s.length) buf _ := hsame.mono (by omega) (by omega)
          simp only [List.length_append, List.length_singleton, hcount]
          split
          · exact ⟨_, [_], [_], rfl, rfl, .cons hword.strAt_word .nil, hsame'⟩
          · have hless := length_wordAt c t
            obtain ⟨buf₂, ptrs', argv', hrun, hwords, hall, hsame₂⟩ := ih hword.strAt_rest
              (by omega) (show (ptrs ++ [(word buf (p + (s.takeWhile isspace).length)).1]).length =
                (argv ++ [(wordAt c t).1]).length by simpa using hcount) (by omega)
            refine ⟨buf₂, _ :: ptrs', _ :: argv', ?_, ?_, .cons (hword.kept hsame₂) hall, ?_⟩
            · rw [hrun, List.append_assoc, List.singleton_append]
            · rw [hwords, List.append_assoc, List.singleton_append]
            · exact hsame'.trans (hsame₂.mono (by omega) (by omega))

/-- **`parseline` in the buffer.** -/
theorem strAt_parseline (hs : StrAt buf p s) (hlength : s.length ≤ MAXLINE) :
    ∃ buf' argv, parseline buf p = (buf', argv.map some ++ [none]) ∧
      List.Forall₂ (StrAt buf') argv (MyShell.parseline s) := by
  have hcut := strAt_cutNewline hs hlength
  have hle : (CLib.cutNewline s).length ≤ MAXLINE :=
    (List.takeWhile_prefix _).length_le.trans hlength
  obtain ⟨buf', ptrs, argv, hrun, hwords, hall, _⟩ :=
    strAt_parselineLoop hcut hle (show ([] : List Nat).length = ([] : List CString).length from rfl)
      hle
  refine ⟨buf', ptrs, by rw [parseline, hrun]; rfl, ?_⟩
  rw [MyShell.parseline, parselineLoop_fuel (Nat.le_refl _) hle, hwords]
  exact hall

/-- The segments handed out so far, which end in front of `start`. -/
def Handed (buf : Bytes) (start : Nat) (ptrs : List Nat) (segments : List CString) : Prop :=
  List.Forall₂ (fun q segment => StrAt buf q segment ∧ q + segment.length < start) ptrs segments

theorem Handed.sameOff {ptrs : List Nat} {segments : List CString} {n : Nat}
    (hh : Handed buf start ptrs segments) (hsame : SameOff start n buf buf') {start' : Nat}
    (hstart : start ≤ start') : Handed buf' start' ptrs segments :=
  List.Forall₂.imp (fun _ _ h => ⟨h.1.sameOff hsame (.inl h.2), Nat.lt_of_lt_of_le h.2 hstart⟩) hh

theorem Handed.concat {ptrs : List Nat} {segments : List CString}
    (hh : Handed buf start ptrs segments) (hs : StrAt buf q s) (hq : q + s.length < start) :
    Handed buf start (ptrs ++ [q]) (segments ++ [s]) :=
  List.rel_append hh (.cons ⟨hs, hq⟩ .nil)

/-- The bar in `parse_line`: the segment in front of it is cut off and trimmed. -/
theorem strAt_bar {rest : CString} (hs : StrAt buf start (cur ++ '|' :: rest))
    (hp : p = start + cur.length) (hlength : (cur ++ '|' :: rest).length ≤ MAXLINE)
    {segment : Nat} (htrim : trimWs (Function.update buf p NUL) start = (segment, buf')) :
    StrAt buf' segment (MyShell.trimWs cur) ∧
      segment + (MyShell.trimWs cur).length < p + 1 ∧ StrAt buf' (p + 1) rest ∧
      SameOff start (p + 1) buf buf' := by
  subst hp
  have hrest : StrAt buf (start + cur.length + 1) rest := (StrAt.append hs).2.2
  have hlength' : cur.length ≤ MAXLINE := by
    simp only [List.length_append, List.length_cons] at hlength
    omega
  obtain ⟨hstr, _, hend, hsame⟩ := strAt_trimWs (StrAt.cut hs) hlength'
  rw [htrim] at hstr hend hsame
  have hcut : SameOff start (start + cur.length + 1) buf
      (Function.update buf (start + cur.length) NUL) :=
    .update (Nat.le_add_right _ _) (Nat.lt_succ_self _) NUL
  refine ⟨hstr, Nat.lt_succ_of_le hend, ?_, hcut.trans (hsame.mono (Nat.le_refl _) (Nat.le_succ _))⟩
  exact (hrest.update (.inl (Nat.lt_succ_self _)) NUL).sameOff hsame (.inr (Nat.le_succ _))

/-- What the loop of `parse_line` leaves, beside what its counterpart computes. -/
def LeavesRest (found : Bytes × Nat × List Nat) (rest : CString × List CString) : Prop :=
  StrAt found.1 found.2.1 rest.1 ∧ rest.1.length ≤ MAXLINE ∧
    Handed found.1 found.2.1 found.2.2 rest.2

/-- The loop of `parse_line`. `cur` stands between `start` and `p`, and the rest of the line
behind it. -/
theorem strAt_parseLineLoop {rest : CString} (hs : StrAt buf start (cur ++ rest))
    (hp : p = start + cur.length) (hlength : (cur ++ rest).length ≤ MAXLINE)
    {ptrs : List Nat} {segments : List CString} (hh : Handed buf start ptrs segments)
    (inSingle inDouble : Bool) {fuel : Nat} (hfuel : rest.length < fuel) :
    Option.Rel LeavesRest (parseLineLoop fuel buf p start inSingle inDouble ptrs)
      (MyShell.parseLineLoop rest inSingle inDouble cur segments) := by
  obtain ⟨fuel, rfl⟩ : ∃ n, fuel = n + 1 := ⟨fuel - 1, by omega⟩
  induction rest generalizing buf p start cur ptrs segments inSingle inDouble fuel with
  | nil =>
      rw [List.append_nil] at hs hlength
      have hnul : buf p = NUL := hp ▸ StrAt.append (t := []) (by rwa [List.append_nil])
      rw [parseLineLoop, if_pos hnul]
      exact .some ⟨hs, hlength, hh⟩
  | cons c rest ih =>
      obtain ⟨fuel, rfl⟩ : ∃ n, fuel = n + 1 := ⟨fuel - 1, by simp at hfuel; omega⟩
      have hhere : StrAt buf p (c :: rest) := hp ▸ StrAt.append hs
      have hfuel' : rest.length < fuel + 1 := by simpa using hfuel
      -- the cursor passes the character
      have hpass (inSingle inDouble : Bool) := @ih buf (p + 1) start (cur ++ [c])
        (by simpa using hs) (by rw [List.length_append, hp]; rfl) (by simpa using hlength) ptrs
        segments hh inSingle inDouble fuel hfuel'
      rw [MyShell.parseLineLoop, parseLineLoop, hhere.1, if_neg hhere.2.1]
      split
      · exact hpass _ _
      split
      · exact hpass _ _
      split
      · next hbar =>
          obtain ⟨_, _, rfl⟩ := hbar
          dsimp only
          generalize htrim : trimWs (Function.update buf p NUL) start = trimmed
          obtain ⟨segment, buf₂⟩ := trimmed
          obtain ⟨hsegment, hend, hrest, hsame⟩ := strAt_bar hs hp hlength htrim
          simp only [List.length_append, List.length_cons] at hlength
          have hcount : ptrs.length = segments.length := hh.length_eq
          have htrimmed : (MyShell.trimWs cur).length ≤ MAXLINE := by
            have hle := length_trimWs cur
            omega
          simp only [hsegment.eq_nul_iff, hasAmpersand_eq hsegment htrimmed, hcount]
          split
          · exact .none
          split
          · exact .none
          · exact ih (show StrAt buf₂ (p + 1) ([] ++ rest) from hrest) (Nat.add_zero _).symm
              (show rest.length ≤ MAXLINE by omega)
              ((hh.sameOff hsame (by omega)).concat hsegment hend) _ _ fuel hfuel'
      · exact hpass _ _

theorem rel_bind {α β γ δ : Type} {r : α → β → Prop} {r' : γ → δ → Prop} {x : Option α}
    {y : Option β} {f : α → Option γ} {g : β → Option δ} (hxy : Option.Rel r x y)
    (hfg : ∀ a b, r a b → Option.Rel r' (f a) (g b)) : Option.Rel r' (x.bind f) (y.bind g) := by
  cases hxy with
  | none => exact .none
  | some hab => exact hfg _ _ hab

/-- What `parse_line` hands out, beside what its counterpart computes. -/
def HandsOut (found : Bytes × List Nat × Bool) (result : List CString × Bool) : Prop :=
  List.Forall₂ (StrAt found.1) found.2.1 result.1 ∧ found.2.2 = result.2

theorem Handed.handsOut {ptrs : List Nat} {segments : List CString}
    (hh : Handed buf start ptrs segments) (hs : StrAt buf q s) (bg : Bool) :
    HandsOut (buf, ptrs ++ [q], bg) (segments ++ [s], bg) :=
  ⟨List.rel_append (List.Forall₂.imp (fun _ _ h => h.1) hh) (.cons hs .nil), rfl⟩

theorem strAt_parseLineLast (hs : StrAt buf start s) (hlength : s.length ≤ MAXLINE)
    {ptrs : List Nat} {segments : List CString} (hh : Handed buf start ptrs segments) :
    Option.Rel HandsOut (parseLineLast buf start ptrs) (MyShell.parseLineLast s segments) := by
  obtain ⟨hstr, hfrom, _, hsame⟩ := strAt_trimWs hs hlength
  have hh₁ := hh.sameOff hsame hfrom
  have htrimmed := (length_trimWs s).trans hlength
  have hnil : ptrs = [] ↔ segments = [] := by
    rw [← List.length_eq_zero_iff, ← List.length_eq_zero_iff, hh.length_eq]
  rw [parseLineLast, MyShell.parseLineLast]
  generalize trimWs buf start = trimmed at hstr hfrom hsame hh₁
  obtain ⟨start₁, buf₁⟩ := trimmed
  dsimp only at hstr hfrom hh₁ ⊢
  simp only [hstr.eq_nul_iff, hnil]
  split
  · split
    · exact .some ⟨.nil, rfl⟩
    · exact .none
  next hne =>
  -- the last character stands where `strlen` ends, in front of the NUL
  obtain ⟨t, d, htd⟩ := (List.eq_nil_or_concat (MyShell.trimWs s)).resolve_left hne
  have hback : start₁ + strlen buf₁ start₁ - 1 = start₁ + t.length := by
    rw [strlen_eq hstr htrimmed, htd, List.length_concat]
    rfl
  rw [htd, List.concat_eq_append] at hstr htrimmed
  have hlast : buf₁ (start₁ + t.length) = d := (StrAt.append hstr).1
  rw [hback, hlast, htd, List.concat_eq_append, List.getLast?_concat, List.dropLast_concat]
  simp only [Option.some.injEq]
  split
  · next hamp =>
      rw [List.length_append] at htrimmed
      have ht : t.length ≤ MAXLINE := Nat.le_of_add_right_le htrimmed
      -- the `&` is cut off and what is left is trimmed once more
      obtain ⟨hstr₂, hfrom₂, _, hsame₂⟩ := strAt_trimWs (StrAt.cut hstr) ht
      have hh₂ : Handed _ start₁ ptrs segments := (hh₁.sameOff (n := start₁ + t.length + 1)
        (.update (Nat.le_add_right _ _) (Nat.lt_succ_self _) NUL) (Nat.le_refl _)).sameOff hsame₂
          (Nat.le_refl _)
      generalize trimWs (Function.update buf₁ (start₁ + t.length) NUL) start₁ = trimmed
        at hstr₂ hfrom₂ hsame₂ hh₂
      obtain ⟨start₂, buf₂⟩ := trimmed
      dsimp only at hstr₂ hh₂ ⊢
      simp only [hstr₂.eq_nul_iff, hasAmpersand_eq hstr₂ ((length_trimWs t).trans ht)]
      split
      · next hempty => rw [if_pos (.inl hempty)]; exact .none
      next hempty =>
      split
      · next hmem => rw [if_pos (.inr hmem)]; exact .none
      · next hmem =>
          rw [if_neg (not_or.mpr ⟨hempty, hmem⟩)]
          exact .some (hh₂.handsOut hstr₂ true)
  · simp only [hasAmpersand_eq hstr htrimmed]
    split
    · exact .none
    · exact .some (hh₁.handsOut hstr false)

/-- **`parse_line` in the buffer.** -/
theorem strAt_parseLine (hs : StrAt buf p s) (hlength : s.length < MAXLINE) :
    Option.Rel HandsOut (parseLine buf p) (MyShell.parseLine s) := by
  have hle : (CLib.cutNewline s).length ≤ s.length := (List.takeWhile_prefix _).length_le
  have hcut := strAt_cutNewline hs (Nat.le_of_lt hlength)
  have hloop := strAt_parseLineLoop (show StrAt _ p ([] ++ CLib.cutNewline s) from hcut)
    (Nat.add_zero p).symm (show (CLib.cutNewline s).length ≤ MAXLINE by omega) .nil false false
    (show _ < MAXLINE by omega)
  exact rel_bind hloop fun _ _ hrest => strAt_parseLineLast hrest.1 hrest.2.1 hrest.2.2

end SystemProgramming.MyShell.Buffer
