import SystemProgramming.CLib
import SystemProgramming.Library.Splitting

/-!
The argument vector of phase 1. `eval` calls `parseline` once for every line; it
takes the words by `strtok` and writes them into an array of `MAXARGS` pointers
without a look at how many there are. What it writes is written down store by
store.
-/

namespace SystemProgramming.Phase1

open SystemProgramming.CLib SystemProgramming.Library

def MAXARGS : Nat := 128

/-- `strtok`: the next token, and the text behind the character that ended it. -/
def strtok (delim : Char → Bool) (s : CString) : Option (CString × CString) :=
  match s.dropWhile delim with
  | [] => none
  | c :: t => some ((c :: t).takeWhile (!delim ·), ((c :: t).dropWhile (!delim ·)).drop 1)

/-- A character of `" \t"`. -/
def blank (c : Char) : Bool := c = ' ' || c = '\t'

/-- A store into `argv`: the index and the word, `none` for NULL. -/
abbrev Store := Nat × Option CString

/-- The loop of `parseline` and the store behind it, with `rest` what `strtok` has left. Every
token has a character, so the length of the buffer is fuel enough. -/
def parselineLoop : Nat → CString → Nat → List Store
  | 0, _, argc => [(argc, none)]
  | fuel + 1, rest, argc =>
      match strtok blank rest with
      | none => [(argc, none)]
      | some (token, rest) => (argc, some token) :: parselineLoop fuel rest (argc + 1)

/-- The stores of `parseline`. -/
def parseline (buf : CString) : List Store :=
  parselineLoop (cutNewline buf).length (cutNewline buf) 0

/-! ### What is stored -/

/-- The stores of some words from the index `argc` on, with the NULL behind them. -/
def storesOf : Nat → List CString → List Store
  | argc, [] => [(argc, none)]
  | argc, word :: words => (argc, some word) :: storesOf (argc + 1) words

/-- The last of the stores has the highest index. -/
theorem storesOf_inBounds {n argc : Nat} {words : List CString} :
    (∀ store ∈ storesOf argc words, store.1 < n) ↔ argc + words.length < n := by
  induction words generalizing argc with
  | nil => simp [storesOf]
  | cons word words ih =>
      rw [storesOf, List.forall_mem_cons, ih, List.length_cons]
      omega

theorem words_storesOf (argc : Nat) (words : List CString) :
    (storesOf argc words).filterMap Prod.snd = words := by
  induction words generalizing argc with
  | nil => rfl
  | cons word words ih => exact congrArg (word :: ·) (ih (argc + 1))

theorem parselineLoop_eq {fuel : Nat} {rest : CString} (hfuel : rest.length ≤ fuel) (argc : Nat) :
    parselineLoop fuel rest argc = storesOf argc (tokens blank rest) := by
  induction fuel generalizing rest argc with
  | zero =>
      rw [List.eq_nil_of_length_eq_zero (Nat.le_zero.mp hfuel), tokens_of_nil rfl]
      rfl
  | succ fuel ih =>
      rw [parselineLoop, strtok]
      have hle := (List.dropWhile_suffix (l := rest) blank).length_le
      cases hdrop : rest.dropWhile blank with
      | nil =>
          rw [tokens_of_nil hdrop]
          rfl
      | cons c t =>
          rw [hdrop, List.length_cons] at hle
          have hrest : (((c :: t).dropWhile (!blank ·)).drop 1).length ≤ t.length := by
            have hstop : blank c = false := stops_of_dropWhile hdrop
            have hshort := (List.dropWhile_suffix (l := t) (!blank ·)).length_le
            simp only [List.dropWhile_cons, hstop, Bool.not_false, if_true, List.length_drop]
            omega
          dsimp only
          rw [ih (by omega), tokens_of_cons hdrop]
          rfl

/-- Phase 1 stores the words between blanks and tabs. -/
theorem parseline_eq (buf : CString) :
    parseline buf = storesOf 0 (tokens blank (cutNewline buf)) :=
  parselineLoop_eq (Nat.le_refl _) 0

example : parseline "ls  -l\n".toList =
    [(0, some "ls".toList), (1, some "-l".toList), (2, none)] := by decide

end SystemProgramming.Phase1
