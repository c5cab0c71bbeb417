import SystemProgramming.MyShell.Jobs

/-!
Job ids as they are written on a command line. `parse_job_id` reads a number with
`strtol` and converts it to `int` before it looks whether it is positive. The
conversion drops the high bits, so some numbers that are no job id come out as
one.
-/

namespace SystemProgramming.MyShell

open SystemProgramming.CLib

/-! ### Numerals -/

/-- Decimal digits, at least one. -/
def Digits (s : CString) : Prop := s ≠ [] ∧ ∀ c ∈ s, isdigit c = true

/-- What `strtol` reads to the end: blanks, a sign and digits, with the number they stand for. -/
inductive IsNumeral : CString → Int → Prop
  | plain (ds : CString) : Digits ds → IsNumeral ds (digitsValue ds)
  | plus (ds : CString) : Digits ds → IsNumeral ('+' :: ds) (digitsValue ds)
  | minus (ds : CString) : Digits ds → IsNumeral ('-' :: ds) (-digitsValue ds)
  | blank (c : Char) (s : CString) (v : Int) : isspace c = true → IsNumeral s v →
      IsNumeral (c :: s) v

/-- The value of a numeral as a `long`. -/
def saturate (v : Int) : Int := max longMin (min longMax v)

variable {s : CString} {v w : Int}

/-- The number with the sign that was read. -/
def signed (neg : Bool) (ds : CString) : Int := if neg then -digitsValue ds else digitsValue ds

theorem strtol_of_digits {neg : Bool} {ds : CString}
    (hsign : strtolSign (s.dropWhile isspace) = (neg, ds)) (hds : Digits ds) :
    strtol s = (saturate (signed neg ds), []) := by
  have htake : ds.takeWhile isdigit = ds := List.takeWhile_eq_self_iff.mpr hds.2
  have hdrop : ds.dropWhile isdigit = [] := List.dropWhile_eq_nil_iff.mpr hds.2
  obtain ⟨c, t, rfl⟩ := List.exists_cons_of_ne_nil hds.1
  rw [strtol, hsign]
  dsimp only
  rw [htake, hdrop]
  rfl

theorem not_isspace_of_isdigit {c : Char} (hc : isdigit c = true) : isspace c = false := by
  by_contra hspace
  simp only [isspace, Bool.not_eq_false, Bool.or_eq_true, decide_eq_true_eq] at hspace
  rcases hspace with ((((rfl | rfl) | rfl) | rfl) | rfl) | rfl <;> exact absurd hc (by decide)

theorem IsNumeral.strtolSign_eq (h : IsNumeral s v) :
    ∃ neg ds, strtolSign (s.dropWhile isspace) = (neg, ds) ∧ Digits ds ∧ v = signed neg ds := by
  induction h with
  | plain ds hds =>
      refine ⟨false, ds, ?_, hds, rfl⟩
      obtain ⟨c, t, rfl⟩ := List.exists_cons_of_ne_nil hds.1
      have hc := hds.2 c List.mem_cons_self
      rw [List.dropWhile_cons_of_neg (by rw [not_isspace_of_isdigit hc]; decide)]
      unfold strtolSign
      split
      · next heq => exact absurd ((List.cons.inj heq).1 ▸ hc) (by decide)
      · next heq => exact absurd ((List.cons.inj heq).1 ▸ hc) (by decide)
      · rfl
  | plus ds hds => exact ⟨false, ds, rfl, hds, rfl⟩
  | minus ds hds => exact ⟨true, ds, rfl, hds, rfl⟩
  | blank c s v hc _ ih =>
      rw [List.dropWhile_cons_of_pos hc]
      exact ih

theorem IsNumeral.strtol_eq (h : IsNumeral s v) : strtol s = (saturate v, []) := by
  obtain ⟨neg, ds, hsign, hds, rfl⟩ := h.strtolSign_eq
  exact strtol_of_digits hsign hds

theorem isNumeral_of_dropWhile (h : IsNumeral (s.dropWhile isspace) v) : IsNumeral s v := by
  induction s with
  | nil => exact h
  | cons c s ih =>
      by_cases hc : isspace c = true
      · rw [List.dropWhile_cons_of_pos hc] at h
        exact .blank c s v hc (ih h)
      · rwa [List.dropWhile_cons_of_neg hc] at h

theorem isNumeral_of_strtolSign {neg : Bool} {t ds : CString} (hsign : strtolSign t = (neg, ds))
    (hds : Digits ds) : IsNumeral t (signed neg ds) := by
  unfold strtolSign at hsign
  split at hsign <;> obtain ⟨rfl, rfl⟩ := Prod.mk.inj hsign
  · exact .minus _ hds
  · exact .plus _ hds
  · exact .plain _ hds

/-- A text that `strtol` reads to its end is a numeral. -/
theorem exists_isNumeral (hs : s ≠ []) (hrest : (strtol s).2 = []) : ∃ v, IsNumeral s v := by
  obtain ⟨neg, t, hsign⟩ : ∃ neg t, strtolSign (s.dropWhile isspace) = (neg, t) := ⟨_, _, rfl⟩
  rw [strtol, hsign] at hrest
  dsimp only at hrest
  split at hrest
  · exact absurd hrest hs
  · next ds hnone =>
      refine ⟨_, isNumeral_of_dropWhile (isNumeral_of_strtolSign hsign ⟨?_, ?_⟩)⟩
      · rintro rfl
        exact hnone rfl
      · exact List.dropWhile_eq_nil_iff.mp hrest

/-! ### Printed numbers -/

theorem digitsValue_append (ds : CString) (c : Char) :
    digitsValue (ds ++ [c]) = 10 * digitsValue ds + (c.toNat - '0'.toNat) := by
  rw [digitsValue, List.foldl_append]
  rfl

theorem digitChar_ten :
    ∀ d < 10, isdigit d.digitChar = true ∧ d.digitChar.toNat - '0'.toNat = d := by
  decide

/-- The digits of a number are read as that number. -/
theorem digits_toDigits (n : Nat) :
    Digits (Nat.toDigits 10 n) ∧ digitsValue (Nat.toDigits 10 n) = n := by
  induction n using Nat.strongRecOn with
  | _ n ih =>
      obtain ⟨hdigit, hvalue⟩ := digitChar_ten (n % 10) (Nat.mod_lt n (by decide))
      rw [Nat.toDigits_eq_if (by decide)]
      split
      · rename_i hlt
        rw [Nat.mod_eq_of_lt hlt] at hdigit hvalue
        refine ⟨⟨List.cons_ne_nil _ _, fun c hc => ?_⟩, (digitsValue_append [] _).trans ?_⟩
        · rwa [List.mem_singleton.mp hc]
        · simpa [digitsValue] using hvalue
      · obtain ⟨⟨_, hdigits⟩, hvalues⟩ := ih (n / 10) (by omega)
        refine ⟨⟨by simp, fun c hc => ?_⟩, ?_⟩
        · rcases List.mem_append.mp hc with hc | hc
          · exact hdigits c hc
          · rwa [List.mem_singleton.mp hc]
        · rw [digitsValue_append, hvalues, hvalue, Nat.div_add_mod]

theorem toList_toString (x : Int) : ∃ n, (toString x).toList = Nat.toDigits 10 n ∧ x = n ∨
    (toString x).toList = '-' :: Nat.toDigits 10 n ∧ x = -n := by
  cases x with
  | ofNat n => exact ⟨n, .inl ⟨by simp [toString, Int.repr, Nat.repr], rfl⟩⟩
  | negSucc n => exact ⟨n + 1, .inr ⟨by simp [toString, Int.repr, Nat.repr], rfl⟩⟩

theorem isNumeral_toString (x : Int) : IsNumeral (toString x).toList x := by
  obtain ⟨n, ⟨htext, rfl⟩ | ⟨htext, rfl⟩⟩ := toList_toString x
  all_goals
    obtain ⟨hdigits, hvalue⟩ := digits_toDigits n
    rw [htext]
  · have hplain := IsNumeral.plain _ hdigits
    rwa [hvalue] at hplain
  · have hminus := IsNumeral.minus _ hdigits
    rwa [hvalue] at hminus

/-! ### Conversion -/

/-- The numbers that are no job id and come out as one. -/
def Wraps (v : Int) : Prop :=
  (longMin ≤ v ∧ v ≤ longMax) ∧ ¬ (1 ≤ v ∧ v ≤ intMax) ∧ 1 ≤ v % 2 ^ 32 ∧ v % 2 ^ 32 ≤ intMax

instance (v : Int) : Decidable (Wraps v) := inferInstanceAs (Decidable (_ ∧ _))

theorem saturate_eq_self (hmin : longMin ≤ v) (hmax : v ≤ longMax) : saturate v = v := by
  rw [saturate, min_eq_right hmax, max_eq_right hmin]

/-- A positive result is the remainder of a number that fits into a `long`. -/
theorem toInt_saturate_pos (hpos : 0 < toInt (saturate v)) :
    (longMin ≤ v ∧ v ≤ longMax) ∧ toInt (saturate v) = v % 2 ^ 32 ∧ 1 ≤ v % 2 ^ 32 ∧
      v % 2 ^ 32 ≤ intMax := by
  have hbounds : longMin ≤ v ∧ v ≤ longMax := by
    rw [saturate] at hpos
    by_contra hout
    rcases not_and_or.mp hout with hlow | hhigh
    · rw [min_eq_right (by simp only [longMin, longMax] at hlow ⊢; omega),
        max_eq_left (Int.le_of_lt (Int.not_le.mp hlow))] at hpos
      exact absurd hpos (by decide)
    · rw [min_eq_left (Int.le_of_lt (Int.not_le.mp hhigh))] at hpos
      exact absurd hpos (by decide)
  rw [saturate_eq_self hbounds.1 hbounds.2, toInt, Int.bmod_def] at hpos ⊢
  refine ⟨hbounds, ?_⟩
  rw [intMax]
  split at hpos <;> split <;> omega

theorem toInt_of_remainder (hlow : 1 ≤ v % 2 ^ 32) (hhigh : v % 2 ^ 32 ≤ intMax) :
    toInt v = v % 2 ^ 32 := by
  rw [intMax] at hhigh
  rw [toInt, Int.bmod_def]
  split <;> omega

/-! ### Arguments -/

/-- `%` and a numeral. -/
def Names (arg : CString) (v : Int) : Prop := ∃ s, arg = '%' :: s ∧ IsNumeral s v

variable {arg : CString} {jid : Int}

theorem parseJobId_eq_some : parseJobId (some arg) = some jid ↔
    ∃ v, Names arg v ∧ toInt (saturate v) = jid ∧ 0 < jid := by
  constructor
  · intro hparse
    unfold parseJobId at hparse
    split at hparse
    · next s heq =>
        dsimp only at hparse
        split at hparse
        · cases hparse
        · next hok =>
            obtain ⟨hs, hrest, hpos⟩ := by simpa only [not_or, not_not, Int.not_le] using hok
            obtain ⟨v, hv⟩ := exists_isNumeral hs hrest
            rw [hv.strtol_eq] at hparse hpos
            obtain rfl := Option.some.inj hparse
            exact ⟨v, ⟨s, Option.some.inj heq, hv⟩, rfl, hpos⟩
    · cases hparse
  · rintro ⟨v, ⟨s, rfl, hv⟩, rfl, hpos⟩
    have hs : s ≠ [] := by
      rintro rfl
      cases hv with
      | plain _ hds => exact hds.1 rfl
    rw [parseJobId, hv.strtol_eq]
    dsimp only
    rw [if_neg]
    rintro (h | h | h)
    · exact hs h
    · exact h rfl
    · exact absurd hpos (Int.not_lt.mpr h)

/-- An argument names one number. -/
theorem Names.unique (hv : Names arg v) (hw : Names arg w) : saturate v = saturate w := by
  obtain ⟨s, rfl, hv⟩ := hv
  obtain ⟨_, heq, hw⟩ := hw
  obtain rfl := (List.cons.inj heq).2
  exact congrArg Prod.fst (hv.strtol_eq.symm.trans hw.strtol_eq)

/-- The job that `builtin_bg`, `builtin_fg` and `builtin_kill` act on. -/
def JobTable.jobNamed (t : JobTable) (arg : CString) : Option Slot :=
  (parseJobId (some arg)).bind t.findJobByJid

/-- `parse_job_id` accepts the argument only as the number that is written, and a builtin acts
on the job with that number only. -/
structure JobIdExact (arg : CString) : Prop where
  parsed : ∀ jid, parseJobId (some arg) = some jid →
    ∃ v, Names arg v ∧ 1 ≤ v ∧ v ≤ intMax ∧ jid = v
  acts : ∀ (t : JobTable) (i : Slot), t.jobNamed arg = some i → Names arg (t.jobs i).jid

/-- **When a job id is read as it is written.** It is unless the number wraps to a positive
`int`. -/
theorem jobId_exact_iff (arg : CString) : JobIdExact arg ↔ ∀ v, Names arg v → ¬ Wraps v := by
  constructor
  · rintro ⟨hparsed, -⟩ v hv ⟨⟨hmin, hmax⟩, hout, hlow, hhigh⟩
    have hint : toInt (saturate v) = v % 2 ^ 32 := by
      rw [saturate_eq_self hmin hmax, toInt_of_remainder hlow hhigh]
    obtain ⟨w, hw, hw1, hwmax, -⟩ := hparsed (v % 2 ^ 32)
      (parseJobId_eq_some.mpr ⟨v, hv, hint, by omega⟩)
    have heq := hv.unique hw
    rw [saturate_eq_self hmin hmax, saturate_eq_self] at heq
    · exact hout (heq ▸ ⟨hw1, hwmax⟩)
    · simp only [longMin]
      omega
    · simp only [longMax, intMax] at hwmax ⊢
      omega
  · intro hnot
    have hparsed (jid : Int) (hjid : parseJobId (some arg) = some jid) :
        ∃ v, Names arg v ∧ 1 ≤ v ∧ v ≤ intMax ∧ jid = v := by
      obtain ⟨v, hv, rfl, hpos⟩ := parseJobId_eq_some.mp hjid
      obtain ⟨hbounds, hint, hlow, hhigh⟩ := toInt_saturate_pos hpos
      obtain ⟨h1, hmax⟩ : 1 ≤ v ∧ v ≤ intMax := by
        by_contra hout
        exact hnot v hv ⟨hbounds, hout, hlow, hhigh⟩
      refine ⟨v, hv, h1, hmax, hint.trans (Int.emod_eq_of_lt (by omega) ?_)⟩
      rw [intMax] at hmax
      omega
    refine ⟨hparsed, fun t i hi => ?_⟩
    obtain ⟨jid, hjid, hfind⟩ := Option.bind_eq_some_iff.mp hi
    obtain ⟨v, hv, -, -, rfl⟩ := hparsed jid hjid
    have hjob := (JobTable.findSlot_eq_some.mp hfind).1
    simp only [Bool.and_eq_true, beq_iff_eq] at hjob
    exact hjob.2 ▸ hv

/-- 2^32 + 1 becomes 1. -/
def wrappedId : CString := "%4294967297".toList

theorem jobId_not_exact : ¬ ∀ arg, JobIdExact arg := by
  intro h
  obtain ⟨v, hv, h1, hmax, rfl⟩ := (h wrappedId).parsed 1 (by decide)
  have hdigits : "4294967297".toList.all isdigit = true := by decide
  have hwrapped : Names wrappedId 4294967297 :=
    ⟨"4294967297".toList, rfl, .plain _ ⟨by decide, List.all_eq_true.mp hdigits⟩⟩
  exact absurd (hv.unique hwrapped) (by decide)

end SystemProgramming.MyShell
