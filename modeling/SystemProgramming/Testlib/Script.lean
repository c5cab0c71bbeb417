import SystemProgramming.Library.LineReader
import SystemProgramming.Library.Splitting
import SystemProgramming.Testlib.Interpreter

/-!
The text that the loop of `main` reads. `fgets` takes up to `LINE_LEN - 1`
characters of a line, and `strtok` up to `TOKEN_MAX` words of what it took. So a
line that is too long is read as several lines, and a word that is too much is
not read at all.
-/

namespace SystemProgramming.Testlib

open SystemProgramming.CLib SystemProgramming.Library

def LINE_LEN : Nat := 256

def TOKEN_MAX : Nat := 8

def newline (c : Char) : Bool := c = '\n'

/-- The delimiters of `strtok`. -/
def delimiter (c : Char) : Bool := c = ' ' || c = '\n'

/-- `strtok` on what its last call left: the token, and what is behind it. -/
def strtok (s : CString) : Option (CString × CString) :=
  match s.dropWhile delimiter with
  | [] => none
  | c :: t =>
      some ((c :: t).takeWhile fun b => !delimiter b,
        ((c :: t).dropWhile fun b => !delimiter b).drop 1)

/-- `tokens`, with room for `room` more. -/
def tokenLoop : Nat → CString → List String
  | 0, _ => []
  | room + 1, s =>
      match strtok s with
      | none => []
      | some (tok, rest) => String.ofList tok :: tokenLoop room rest

/-- The tokens of what `fgets` took, a string that ends at its first null character. -/
def lineTokens (taken : CString) : List String :=
  tokenLoop TOKEN_MAX (taken.takeWhile (· ≠ '\x00'))

/-- The tokens of each round of the loop of `main`. -/
def readScript (text : CString) : List (List String) :=
  if text = [] then []
  else
    let read := readUpTo newline (LINE_LEN - 1) text
    lineTokens read.1 :: readScript read.2
termination_by text.length
decreasing_by exact length_readUpTo_lt newline (by decide) ‹_›

/-- The program on a text; `outcomes` has what the C library does in each round. -/
def Main.run (fuel : Nat) (text : CString) (outcomes : Nat → Outcomes) : Option Store :=
  Main.main fuel ((readScript text).zipIdx.map fun round => (round.1, outcomes round.2))

/-! ### Tokens -/

variable {text line : CString} {script : List (List String)}

theorem tokenLoop_eq (room : Nat) (s : CString) :
    tokenLoop room s = ((tokens delimiter s).take room).map String.ofList := by
  induction room generalizing s with
  | zero => rfl
  | succ room ih =>
      rw [tokenLoop, strtok]
      cases hdrop : s.dropWhile delimiter with
      | nil =>
          rw [tokens_of_nil hdrop]
          rfl
      | cons c t =>
          rw [tokens_of_cons hdrop, List.take_succ_cons, List.map_cons]
          exact congrArg _ (ih _)

/-- A word that `strtok` finds. -/
def Word (token : String) : Prop :=
  token ≠ "" ∧ ∀ c ∈ token.toList, delimiter c = false ∧ c ≠ '\x00'

/-! ### Lines -/

/-- **What is read.** Each line is read in parts of `LINE_LEN - 1` characters, and of each part
the first `TOKEN_MAX` words. -/
theorem readScript_eq (text : CString) :
    readScript text = (lines newline text).flatMap fun line =>
      (parts (LINE_LEN - 1) line).map lineTokens := by
  fun_induction readScript text with
  | case1 => rfl
  | case2 text htext read ih =>
      rw [ih, lines_of_ne_nil newline htext, List.flatMap_cons]
      rcases Nat.lt_or_ge (LINE_LEN - 1) (firstLine newline text).length with hlt | hle
      · -- the rest of the line is the first line of what is left
        have hread : read.1 = (firstLine newline text).take (LINE_LEN - 1) :=
          congrArg Prod.fst (readUpTo_eq newline (LINE_LEN - 1) text)
        have hrest : read.2 = text.drop (LINE_LEN - 1) := readUpTo_snd_of_lt newline hlt
        rw [hrest, lines_drop newline hlt, hread, List.flatMap_cons, parts_of_lt (by decide) hlt,
          List.map_cons, List.cons_append]
      · have hread : read = (firstLine newline text, afterLine newline text) :=
          readUpTo_of_le newline hle
        rw [hread, parts_of_le hle]
        rfl

/-! ### Scripts -/

/-- Words with a blank between them. -/
def wordsText (words : List String) : CString := (String.intercalate " " words).toList

def scriptText (script : List (List String)) : CString :=
  script.flatMap fun words => wordsText words ++ ['\n']

/-- A line that is read as it is meant. -/
structure Readable (words : List String) : Prop where
  clean : ∀ word ∈ words, Word word
  count : words.length ≤ TOKEN_MAX
  length : (wordsText words).length < LINE_LEN - 1

theorem mem_wordsText {words : List String} {c : Char} (hc : c ∈ wordsText words) :
    c = ' ' ∨ ∃ word ∈ words, c ∈ word.toList := by
  cases words with
  | nil => exact absurd hc (by simp [wordsText])
  | cons word words =>
      rw [wordsText, CLib.intercalate_cons, String.toList_append, List.mem_append,
        String.toList_join, List.mem_flatMap] at hc
      rcases hc with hc | ⟨text, htext, hc⟩
      · exact .inr ⟨word, List.mem_cons_self, hc⟩
      · obtain ⟨word', hword', rfl⟩ := List.mem_map.mp htext
        rw [String.toList_append, List.mem_append] at hc
        rcases hc with hc | hc
        · exact .inl (by simpa using hc)
        · exact .inr ⟨word', List.mem_cons_of_mem _ hword', hc⟩

/-- The words of a line are found again. -/
theorem tokens_wordsText {words : List String} (hwords : ∀ word ∈ words, Word word) :
    tokens delimiter (wordsText words ++ ['\n']) = words.map String.toList := by
  induction words with
  | nil => rfl
  | cons word words ih =>
      obtain ⟨hne, hclean⟩ := hwords word List.mem_cons_self
      have hrest := ih fun w hw => hwords w (List.mem_cons_of_mem _ hw)
      have happend := (tokens_append (p := delimiter) (w := word.toList)
        (by simpa using hne) fun c hc => (hclean c hc).1).2
      cases words with
      | nil => exact happend '\n' [] rfl
      | cons next words =>
          have hline : wordsText (word :: next :: words) ++ ['\n'] =
              word.toList ++ ' ' :: (wordsText (next :: words) ++ ['\n']) := by
            simp [wordsText, String.intercalate_cons_cons]
          rw [hline, happend ' ' _ rfl, hrest]
          rfl

theorem lineTokens_wordsText {words : List String} (h : Readable words) :
    lineTokens (wordsText words ++ ['\n']) = words := by
  have hnull : ∀ c ∈ wordsText words ++ ['\n'], decide (c ≠ '\x00') = true := by
    intro c hc
    rcases List.mem_append.mp hc with hc | hc
    · rcases mem_wordsText hc with rfl | ⟨word, hword, hc⟩
      · decide
      · exact decide_eq_true ((h.clean word hword).2 c hc).2
    · rw [List.mem_singleton.mp hc]
      decide
  rw [lineTokens, List.takeWhile_eq_self_iff.mpr hnull, tokenLoop_eq, tokens_wordsText h.clean,
    List.take_of_length_le (by simpa using h.count), List.map_map]
  simp [Function.comp_def]

/-- **A script that is written is read.** -/
theorem readScript_scriptText (script : List (List String)) (h : ∀ words ∈ script, Readable words) :
    readScript (scriptText script) = script := by
  induction script with
  | nil =>
      rw [scriptText, List.flatMap_nil, readScript]
      rfl
  | cons words script ih =>
      have hwords := h words List.mem_cons_self
      have hline : ∀ c ∈ wordsText words, newline c = false := by
        intro c hc
        rcases mem_wordsText hc with rfl | ⟨word, hword, hc⟩
        · rfl
        · have hdelimiter := ((hwords.clean word hword).2 c hc).1
          simp only [delimiter, Bool.or_eq_false_iff] at hdelimiter
          exact hdelimiter.2
      have hfirst := firstLine_append_cons newline hline (c := '\n') rfl (scriptText script)
      have hafter := afterLine_append_cons newline hline (c := '\n') rfl (scriptText script)
      have htext : scriptText (words :: script) = wordsText words ++ '\n' :: scriptText script := by
        simp [scriptText]
      have hread := readUpTo_of_le (n := LINE_LEN - 1) newline (by
        rw [hfirst, List.length_append]
        exact hwords.length)
      rw [htext, readScript, if_neg (by simp), hread, hfirst, hafter]
      simp only [lineTokens_wordsText hwords, ih fun w hw => h w (List.mem_cons_of_mem _ hw)]

-- The characters of the token are tried, not all there are.
instance (token : String) : Decidable (Word token) :=
  haveI : Decidable (∀ c ∈ token.toList, delimiter c = false ∧ c ≠ '\x00') :=
    List.decidableBAll _ _
  inferInstanceAs (Decidable (_ ∧ _))

instance (words : List String) : Decidable (Readable words) :=
  decidable_of_iff ((∀ word ∈ words, Word word) ∧ words.length ≤ TOKEN_MAX ∧
      (wordsText words).length < LINE_LEN - 1)
    ⟨fun h => ⟨h.1, h.2.1, h.2.2⟩, fun h => ⟨h.clean, h.count, h.length⟩⟩

theorem readScript_scriptText_push :
    readScript (scriptText [["create", "list", "L"], [], ["list_push_back", "L", "-7"]]) =
      [["create", "list", "L"], [], ["list_push_back", "L", "-7"]] :=
  readScript_scriptText _ (by decide +kernel)

end SystemProgramming.Testlib
