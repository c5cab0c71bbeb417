import SystemProgramming.Phase1.Shell
import SystemProgramming.Phase2.Agreement

/-!
The bounds of `argv` in the first two phases. Neither `parseline` looks whether
there is room, so that it depends on the number of words alone where the last
store goes.
-/

namespace SystemProgramming.Phase2

open SystemProgramming.CLib SystemProgramming.MyShell
open SystemProgramming.Phase1 (Store storesOf storesOf_inBounds words_storesOf)

/-- The loop of `parseline` and the store behind it. -/
def storesLoop : Nat → CString → Nat → List Store
  | 0, _, argc => [(argc, none)]
  | fuel + 1, p, argc =>
      match p.dropWhile isspace with
      | [] => [(argc, none)]
      | c :: p => (argc, some (wordAt c p).1) :: storesLoop fuel (wordAt c p).2 (argc + 1)

/-- The stores of `parseline` into `argv`. -/
def stores (buf : CString) : List Store := storesLoop (cutNewline buf).length (cutNewline buf) 0

theorem storesLoop_eq {fuel : Nat} {p : CString} (hfuel : p.length ≤ fuel) (argc : Nat) :
    storesLoop fuel p argc = storesOf argc (words p) := by
  induction fuel generalizing p argc with
  | zero =>
      rw [List.eq_nil_of_length_eq_zero (Nat.le_zero.mp hfuel), words_of_nil rfl]
      rfl
  | succ fuel ih =>
      rw [storesLoop]
      cases hdrop : p.dropWhile isspace with
      | nil =>
          rw [words_of_nil hdrop]
          rfl
      | cons c t =>
          have hless := length_wordAt_lt hdrop
          dsimp only
          rw [ih (by omega), words_of_cons hdrop]
          rfl

theorem stores_eq (buf : CString) : stores buf = storesOf 0 (words (cutNewline buf)) :=
  storesLoop_eq (Nat.le_refl _) 0

/-- The stores are those of the vector that `parseline` makes. -/
theorem parseline_eq_stores (buf : CString) : (stores buf).filterMap Prod.snd = parseline buf := by
  rw [stores_eq, words_storesOf, parseline_eq]

/-- The texts that `eval` and `run_pipe` hand to `parseline`. -/
def parsedTexts (line : CString) : List CString :=
  if '|' ∈ line then tokenLoop MAXCMDS line else [line]

theorem argvs_eq_map (line : CString) : argvs line = (parsedTexts line).map parseline := by
  rw [argvs, parsedTexts]
  split <;> rfl

/-- Every store into `argv` that a line leads to has an index below `MAXARGS`. -/
structure InBounds (line : CString) : Prop where
  phase1 : ∀ store ∈ Phase1.parseline line, store.1 < Phase1.MAXARGS
  phase2 : ∀ text ∈ parsedTexts line, ∀ store ∈ stores text, store.1 < MAXARGS

theorem stores_inBounds_iff (text : CString) :
    (∀ store ∈ stores text, store.1 < MAXARGS) ↔
      (words (cutNewline text)).length ≤ MAXARGS - 1 := by
  rw [stores_eq, storesOf_inBounds, Nat.zero_add, Nat.lt_iff_le_pred (by decide)]

/-- **When the argument vectors stay in bounds.** -/
theorem argv_inBounds_iff (line : CString) :
    InBounds line ↔
      (Library.tokens Phase1.blank (cutNewline line)).length ≤ Phase1.MAXARGS - 1 ∧
        ∀ text ∈ parsedTexts line, (words (cutNewline text)).length ≤ MAXARGS - 1 := by
  have hphase1 : (∀ store ∈ Phase1.parseline line, store.1 < Phase1.MAXARGS) ↔
      (Library.tokens Phase1.blank (cutNewline line)).length ≤ Phase1.MAXARGS - 1 := by
    rw [Phase1.parseline_eq, storesOf_inBounds, Nat.zero_add, Nat.lt_iff_le_pred (by decide)]
  constructor
  · rintro ⟨h1, h2⟩
    exact ⟨hphase1.mp h1, fun text htext => (stores_inBounds_iff text).mp (h2 text htext)⟩
  · rintro ⟨h1, h2⟩
    exact ⟨hphase1.mpr h1, fun text htext => (stores_inBounds_iff text).mpr (h2 text htext)⟩

/-- 128 words, whose NULL is stored behind the end of `argv`. -/
theorem argv_not_inBounds :
    ¬ ∀ line : CString, line.length < MAXLINE → IsLine line → InBounds line := by
  intro h
  have hin := h (manyWords 127 ++ ['\n']) (by decide +kernel) (by decide +kernel)
  have htext : manyWords 127 ++ ['\n'] ∈ parsedTexts (manyWords 127 ++ ['\n']) := by
    rw [parsedTexts, if_neg (by decide +kernel)]
    exact List.mem_singleton_self _
  have hlong := (stores_inBounds_iff _).mp (hin.phase2 _ htext)
  rw [cutNewline_append (by decide +kernel), length_words_manyWords] at hlong
  exact absurd hlong (by decide)

end SystemProgramming.Phase2
