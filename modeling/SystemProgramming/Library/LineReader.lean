import Mathlib.Data.List.Basic

/-!
The lines of a text, and a reader that takes one line at a time into a buffer of
limited size. `stop` holds of the characters that end a line; such a character
belongs to the line it ends, and the last line may have none. A line longer than
the buffer comes in several parts, and no part says that it is one.
-/

namespace SystemProgramming.Library

variable {α : Type*} (stop : α → Bool)

/-- The first line. -/
def firstLine : List α → List α
  | [] => []
  | c :: text => if stop c then [c] else c :: firstLine text

/-- What is behind the first line. -/
def afterLine : List α → List α
  | [] => []
  | c :: text => if stop c then text else afterLine text

def lines : List α → List (List α)
  | [] => []
  | c :: text =>
      if stop c then [c] :: lines text
      else match lines text with
        | [] => [[c]]
        | line :: more => (c :: line) :: more

/-- What the reader takes into a buffer for `n` characters, and what it leaves. -/
def readUpTo : Nat → List α → List α × List α
  | 0, text => ([], text)
  | _ + 1, [] => ([], [])
  | n + 1, c :: text =>
      if stop c then ([c], text)
      else
        let (taken, rest) := readUpTo n text
        (c :: taken, rest)

variable {n : Nat} {text : List α}

theorem firstLine_append_afterLine (text : List α) :
    firstLine stop text ++ afterLine stop text = text := by
  induction text with
  | nil => rfl
  | cons c text ih =>
      rw [firstLine, afterLine]
      split
      · rfl
      · rw [List.cons_append, ih]

theorem lines_of_ne_nil (htext : text ≠ []) :
    lines stop text = firstLine stop text :: lines stop (afterLine stop text) := by
  induction text with
  | nil => exact absurd rfl htext
  | cons c text ih =>
      rw [lines, firstLine, afterLine]
      split
      · rfl
      · cases text with
        | nil => rfl
        | cons d text => rw [ih (List.cons_ne_nil d text)]

theorem firstLine_append_cons {c : α} (htext : ∀ b ∈ text, stop b = false) (hc : stop c = true)
    (rest : List α) : firstLine stop (text ++ c :: rest) = text ++ [c] := by
  induction text with
  | nil => rw [List.nil_append, firstLine, if_pos hc, List.nil_append]
  | cons b text ih =>
      have hb : ¬stop b = true := by rw [htext b List.mem_cons_self]; exact Bool.false_ne_true
      rw [List.cons_append, firstLine, if_neg hb, List.cons_append,
        ih fun a ha => htext a (List.mem_cons_of_mem b ha)]

theorem afterLine_append_cons {c : α} (htext : ∀ b ∈ text, stop b = false) (hc : stop c = true)
    (rest : List α) : afterLine stop (text ++ c :: rest) = rest := by
  induction text with
  | nil => rw [List.nil_append, afterLine, if_pos hc]
  | cons b text ih =>
      have hb : ¬stop b = true := by rw [htext b List.mem_cons_self]; exact Bool.false_ne_true
      rw [List.cons_append, afterLine, if_neg hb,
        ih fun a ha => htext a (List.mem_cons_of_mem b ha)]

theorem lines_append_cons {c : α} (htext : ∀ b ∈ text, stop b = false) (hc : stop c = true)
    (rest : List α) : lines stop (text ++ c :: rest) = (text ++ [c]) :: lines stop rest := by
  rw [lines_of_ne_nil stop (by simp), firstLine_append_cons stop htext hc,
    afterLine_append_cons stop htext hc]

/-- A first line that is not ended is the last one. -/
theorem afterLine_of_not_ended (h : ∀ c ∈ (firstLine stop text).getLast?, stop c = false) :
    afterLine stop text = [] := by
  induction text with
  | nil => rfl
  | cons c text ih =>
      rw [firstLine] at h
      rw [afterLine]
      split
      · next hc =>
          rw [if_pos hc] at h
          exact absurd (h c rfl) (by simp [hc])
      · next hc =>
          rw [if_neg hc] at h
          refine ih fun d hd => h d ?_
          rw [List.getLast?_cons, hd]
          rfl

/-- The reader leaves off where the buffer is full or the line ends. -/
theorem readUpTo_eq (n : Nat) (text : List α) :
    readUpTo stop n text =
      ((firstLine stop text).take n, (firstLine stop text).drop n ++ afterLine stop text) := by
  induction n generalizing text with
  | zero => rw [readUpTo, List.take_zero, List.drop_zero, firstLine_append_afterLine]
  | succ n ih =>
      cases text with
      | nil => rfl
      | cons c text =>
          rw [readUpTo, firstLine, afterLine]
          split
          · rw [List.take_succ_cons, List.drop_succ_cons, List.take_nil, List.drop_nil,
              List.nil_append]
          · rw [ih, List.take_succ_cons, List.drop_succ_cons]

/-- A line that fits is read whole. -/
theorem readUpTo_of_le (hfit : (firstLine stop text).length ≤ n) :
    readUpTo stop n text = (firstLine stop text, afterLine stop text) := by
  rw [readUpTo_eq, List.take_of_length_le hfit, List.drop_of_length_le hfit, List.nil_append]

/-- The reader gets on. -/
theorem length_readUpTo_lt (hn : 0 < n) (htext : text ≠ []) :
    (readUpTo stop n text).2.length < text.length := by
  obtain ⟨c, text, rfl⟩ := List.exists_cons_of_ne_nil htext
  have hsplit := congrArg List.length (firstLine_append_afterLine stop (c :: text))
  have hpos : 0 < (firstLine stop (c :: text)).length := by
    rw [firstLine]
    split <;> exact Nat.succ_pos _
  rw [readUpTo_eq]
  simp only [List.length_append, List.length_drop] at hsplit ⊢
  omega

/-! ### Parts of a line -/

/-- A line in parts of `n` elements. -/
def parts (n : Nat) (line : List α) : List (List α) :=
  if line.length ≤ n ∨ n = 0 then [line]
  else line.take n :: parts n (line.drop n)
termination_by line.length
decreasing_by
  rw [List.length_drop]
  omega

theorem parts_of_le {line : List α} (h : line.length ≤ n) : parts n line = [line] := by
  rw [parts, if_pos (.inl h)]

theorem parts_of_lt {line : List α} (hn : 0 < n) (h : n < line.length) :
    parts n line = line.take n :: parts n (line.drop n) := by
  rw [parts, if_neg (by omega)]

/-- Part of the first line is taken away. -/
theorem lines_drop (hn : n < (firstLine stop text).length) :
    lines stop (text.drop n) =
      (firstLine stop text).drop n :: lines stop (afterLine stop text) := by
  induction n generalizing text with
  | zero =>
      refine lines_of_ne_nil stop ?_
      rintro rfl
      exact absurd hn (Nat.not_lt_zero 0)
  | succ n ih =>
      cases text with
      | nil => exact absurd hn (Nat.not_lt_zero _)
      | cons c text =>
          rw [firstLine] at hn ⊢
          rw [afterLine]
          split at hn
          · exact absurd hn (by simp)
          · rename_i hc
            rw [if_neg hc, if_neg hc]
            exact ih (Nat.lt_of_succ_lt_succ hn)

/-- The reader leaves the text behind what it takes. -/
theorem readUpTo_snd_of_lt (hn : n < (firstLine stop text).length) :
    (readUpTo stop n text).2 = text.drop n := by
  have hsplit : (firstLine stop text ++ afterLine stop text).drop n =
      (firstLine stop text).drop n ++ afterLine stop text :=
    List.drop_append_of_le_length (Nat.le_of_lt hn)
  rw [firstLine_append_afterLine] at hsplit
  rw [readUpTo_eq, hsplit]

end SystemProgramming.Library
