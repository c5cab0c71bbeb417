import SystemProgramming.Library.Faults
import SystemProgramming.Testlib.BitmapArray

/-!
`bitmap.c` with the reason for which a call stops: a failed `ASSERT`, or an
access to memory that is not there. Without the reason the calls are those of
`Bitmap`. On a bitmap whose bits all have their element, only the three calls
without an `ASSERT` can end in an access outside the array.
-/

namespace SystemProgramming.Testlib

open SystemProgramming.Library

/-- Why a program stops. -/
inductive Fault
  | assertion
  | access
  deriving DecidableEq

/-! ### The calls -/

namespace Checked

def ASSERT (condition : Bool) : Except Fault Unit :=
  if condition then .ok () else .error .assertion

/-- `b->bits[idx]`. -/
def elem (b : Bitmap) (idx : Nat) : Except Fault ElemType :=
  match b.bits[idx]? with
  | some elem => .ok elem
  | none => .error .access

/-- An instruction on `b->bits[idx]` and a register. -/
def asm (b : Bitmap) (op : ElemType → ElemType → ElemType) (idx : Nat) (reg : ElemType) :
    Except Fault Bitmap := do
  return { b with bits := b.bits.set idx (op (← elem b idx) reg) }

def mark (b : Bitmap) (bitIdx : Nat) : Except Fault Bitmap :=
  asm b orl (elemIdx bitIdx) (bitMask bitIdx)

def reset (b : Bitmap) (bitIdx : Nat) : Except Fault Bitmap :=
  asm b andl (elemIdx bitIdx) (~~~ bitMask bitIdx)

def flip (b : Bitmap) (bitIdx : Nat) : Except Fault Bitmap :=
  asm b xorl (elemIdx bitIdx) (bitMask bitIdx)

def set (b : Bitmap) (idx : Nat) (value : Bool) : Except Fault Bitmap := do
  ASSERT (idx < b.bitCnt)
  if value then mark b idx else reset b idx

def test (b : Bitmap) (idx : Nat) : Except Fault Bool := do
  ASSERT (idx < b.bitCnt)
  return decide ((← elem b (elemIdx idx)) &&& bitMask idx ≠ 0#64)

/-- The `ASSERT`s on a range. -/
def assertRange (b : Bitmap) (start cnt : Nat) : Except Fault Unit := do
  ASSERT (start ≤ b.bitCnt)
  ASSERT (sizeT (start + cnt) ≤ b.bitCnt)

def setMultiple (b : Bitmap) (start cnt : Nat) (value : Bool) : Except Fault Bitmap := do
  assertRange b start cnt
  (List.range cnt).foldlM (fun b i => set b (sizeT (start + i)) value) b

def setAll (b : Bitmap) (value : Bool) : Except Fault Bitmap := setMultiple b 0 b.bitCnt value

def countLoop (b : Bitmap) (start : Nat) (value : Bool) : Nat → Nat → Nat → Except Fault Nat
  | 0, _, valueCnt => .ok valueCnt
  | rounds + 1, i, valueCnt => do
      let bit ← test b (sizeT (start + i))
      countLoop b start value rounds (i + 1)
        (if bit = value then sizeT (valueCnt + 1) else valueCnt)

def count (b : Bitmap) (start cnt : Nat) (value : Bool) : Except Fault Nat := do
  assertRange b start cnt
  countLoop b start value cnt 0 0

def containsLoop (b : Bitmap) (start : Nat) (value : Bool) : Nat → Nat → Except Fault Bool
  | 0, _ => .ok false
  | rounds + 1, i => do
      let bit ← test b (sizeT (start + i))
      if bit = value then return true else containsLoop b start value rounds (i + 1)

def contains (b : Bitmap) (start cnt : Nat) (value : Bool) : Except Fault Bool := do
  assertRange b start cnt
  containsLoop b start value cnt 0

def any (b : Bitmap) (start cnt : Nat) : Except Fault Bool := contains b start cnt true

protected def none (b : Bitmap) (start cnt : Nat) : Except Fault Bool := do
  return !(← contains b start cnt true)

def all (b : Bitmap) (start cnt : Nat) : Except Fault Bool := do
  return !(← contains b start cnt false)

def scanLoop (b : Bitmap) (cnt : Nat) (value : Bool) : Nat → Nat → Except Fault Nat
  | 0, _ => .ok BITMAP_ERROR
  | rounds + 1, i => do
      if ← contains b i cnt !value then scanLoop b cnt value rounds (i + 1) else return i

def scan (b : Bitmap) (start cnt : Nat) (value : Bool) : Except Fault Nat := do
  ASSERT (start ≤ b.bitCnt)
  if cnt ≤ b.bitCnt then scanLoop b cnt value (b.bitCnt - cnt + 1 - start) start
  else return BITMAP_ERROR

def scanAndFlip (b : Bitmap) (start cnt : Nat) (value : Bool) : Except Fault (Nat × Bitmap) := do
  let idx ← scan b start cnt value
  if idx ≠ BITMAP_ERROR then return (idx, ← setMultiple b idx cnt !value)
  else return (idx, b)

/-! ### Without the reason -/

section ToOption

variable (b : Bitmap) (idx start cnt : Nat) (value : Bool)

theorem toOption_ASSERT (condition : Bool) :
    (ASSERT condition).toOption = if condition then some () else Option.none := by
  cases condition <;> rfl

theorem toOption_elem : (elem b idx).toOption = b.bits[idx]? := by
  rw [elem]
  split <;> simp [*]

theorem toOption_asm (op : ElemType → ElemType → ElemType) (reg : ElemType) :
    (asm b op idx reg).toOption = b.asm op idx reg := by
  rw [asm, toOption_bind, toOption_elem, Bitmap.asm]
  cases b.bits[idx]? <;> rfl

theorem toOption_mark : (mark b idx).toOption = b.mark idx := toOption_asm b _ _ _

theorem toOption_reset : (reset b idx).toOption = b.reset idx := toOption_asm b _ _ _

theorem toOption_flip : (flip b idx).toOption = b.flip idx := toOption_asm b _ _ _

theorem toOption_set : (set b idx value).toOption = b.set idx value := by
  rw [set, toOption_bind, toOption_ASSERT, Bitmap.set]
  by_cases hidx : idx < b.bitCnt
  · cases value
    · simpa [hidx] using toOption_reset b idx
    · simpa [hidx] using toOption_mark b idx
  · simp [hidx]

theorem toOption_test : (test b idx).toOption = b.test idx := by
  rw [test, toOption_bind, toOption_ASSERT, Bitmap.test]
  by_cases hidx : idx < b.bitCnt
  · simp only [hidx, decide_true, if_true, Option.bind_some, toOption_bind, toOption_elem,
      toOption_pure]
    cases b.bits[elemIdx idx]? <;> rfl
  · simp [hidx]

theorem toOption_assertRange : (assertRange b start cnt).toOption =
    if start ≤ b.bitCnt ∧ sizeT (start + cnt) ≤ b.bitCnt then some () else Option.none := by
  rw [assertRange, toOption_bind, toOption_ASSERT, toOption_ASSERT]
  by_cases hstart : start ≤ b.bitCnt <;> simp [hstart]

theorem toOption_setMultiple :
    (setMultiple b start cnt value).toOption = b.setMultiple start cnt value := by
  rw [setMultiple, toOption_bind, toOption_assertRange, Bitmap.setMultiple]
  split
  · rw [Option.bind_some, toOption_foldlM]
    simp only [toOption_set]
  · rfl

theorem toOption_containsLoop (rounds i : Nat) :
    (containsLoop b start value rounds i).toOption = b.containsLoop start value rounds i := by
  induction rounds generalizing i with
  | zero => rfl
  | succ rounds ih =>
      rw [containsLoop, toOption_bind, toOption_test, Bitmap.containsLoop]
      congr 1
      funext bit
      split
      · rfl
      · exact ih _

theorem toOption_contains :
    (contains b start cnt value).toOption = b.contains start cnt value := by
  rw [contains, toOption_bind, toOption_assertRange, Bitmap.contains]
  split
  · exact toOption_containsLoop b start value cnt 0
  · rfl

theorem toOption_scanLoop (rounds i : Nat) :
    (scanLoop b cnt value rounds i).toOption = b.scanLoop cnt value rounds i := by
  induction rounds generalizing i with
  | zero => rfl
  | succ rounds ih =>
      rw [scanLoop, toOption_bind, toOption_contains, Bitmap.scanLoop]
      congr 1
      funext found
      split
      · exact ih _
      · rfl

theorem toOption_scan : (scan b start cnt value).toOption = b.scan start cnt value := by
  rw [scan, toOption_bind, toOption_ASSERT, Bitmap.scan]
  by_cases hstart : start ≤ b.bitCnt
  · simp only [hstart, decide_true, if_true, Option.bind_some]
    split
    · exact toOption_scanLoop b cnt value _ _
    · rfl
  · simp [hstart]

theorem toOption_scanAndFlip :
    (scanAndFlip b start cnt value).toOption = b.scanAndFlip start cnt value := by
  rw [scanAndFlip, toOption_bind, toOption_scan, Bitmap.scanAndFlip]
  congr 1
  funext idx
  split
  · rw [toOption_bind, toOption_setMultiple]
    cases b.setMultiple idx cnt !value <;> rfl
  · rfl

end ToOption

/-! ### Inside the array -/

section Safe

variable {b : Bitmap} {idx start cnt : Nat} {value : Bool}

/-- The call does not leave the array. -/
abbrev Safe {β : Type} (call : Except Fault β) : Prop := Avoids Fault.access call

theorem safe_ASSERT (condition : Bool) : Safe (ASSERT condition) := by
  cases condition <;> exact nofun

theorem of_ASSERT {condition : Bool} {u : Unit} (h : ASSERT condition = .ok u) :
    condition = true := by
  cases condition
  · cases h
  · rfl

theorem safe_elem (hidx : idx < b.bits.length) : Safe (elem b idx) := by
  rw [elem, List.getElem?_eq_getElem hidx]
  exact avoids_ok _ _

theorem safe_asm (hidx : idx < b.bits.length) (op : ElemType → ElemType → ElemType)
    (reg : ElemType) : Safe (asm b op idx reg) :=
  (safe_elem hidx).bind fun _ _ => avoids_pure _ _

theorem safe_set (hb : b.Sized) (idx : Nat) (value : Bool) : Safe (set b idx value) := by
  refine (safe_ASSERT _).bind fun _ hassert => ?_
  have hidx := hb idx (of_decide_eq_true (of_ASSERT hassert))
  cases value
  · exact safe_asm hidx _ _
  · exact safe_asm hidx _ _

theorem safe_test (hb : b.Sized) (idx : Nat) : Safe (test b idx) := by
  refine (safe_ASSERT _).bind fun _ hassert => ?_
  exact (safe_elem (hb idx (of_decide_eq_true (of_ASSERT hassert)))).bind fun _ _ =>
    avoids_pure _ _

theorem safe_assertRange (b : Bitmap) (start cnt : Nat) : Safe (assertRange b start cnt) :=
  (safe_ASSERT _).bind fun _ _ => safe_ASSERT _

/-- What every call leaves as it is. -/
structure SameSize (b b' : Bitmap) : Prop where
  bitCnt : b'.bitCnt = b.bitCnt
  length : b'.bits.length = b.bits.length

theorem SameSize.refl (b : Bitmap) : SameSize b b := ⟨rfl, rfl⟩

theorem SameSize.trans {b₁ b₂ b₃ : Bitmap} (h12 : SameSize b₁ b₂) (h23 : SameSize b₂ b₃) :
    SameSize b₁ b₃ :=
  ⟨h23.bitCnt.trans h12.bitCnt, h23.length.trans h12.length⟩

theorem SameSize.sized {b' : Bitmap} (h : SameSize b b') (hb : b.Sized) : b'.Sized := by
  intro i hi
  rw [h.length]
  exact hb i (h.bitCnt ▸ hi)

theorem sameSize_asm {b' : Bitmap} {op : ElemType → ElemType → ElemType} {reg : ElemType}
    (h : asm b op idx reg = .ok b') : SameSize b b' := by
  obtain ⟨x, _, hx⟩ := bind_eq_ok.mp h
  obtain rfl := Except.ok.inj hx
  exact ⟨rfl, List.length_set ..⟩

theorem of_set {b' : Bitmap} (h : set b idx value = .ok b') : idx < b.bitCnt ∧ SameSize b b' := by
  obtain ⟨_, hassert, hasm⟩ := bind_eq_ok.mp h
  refine ⟨of_decide_eq_true (of_ASSERT hassert), ?_⟩
  cases value
  · exact sameSize_asm hasm
  · exact sameSize_asm hasm

theorem safe_setMultiple (hb : b.Sized) (start cnt : Nat) (value : Bool) :
    Safe (setMultiple b start cnt value) :=
  (safe_assertRange b start cnt).bind fun _ _ =>
    avoids_foldlM (fun _ _ _ hb => safe_set hb _ _)
      (fun _ _ _ hb hset => (of_set hset).2.sized hb) hb

/-- A range is set only if it lies in the bitmap: round `bit_cnt - start` of a longer one
fails. -/
theorem of_setMultiple {b' : Bitmap} (hsize : b.bitCnt < 2 ^ 64)
    (h : setMultiple b start cnt value = .ok b') : start + cnt ≤ b.bitCnt ∧ SameSize b b' := by
  obtain ⟨_, hassert, hloop⟩ := bind_eq_ok.mp h
  obtain ⟨_, hstart, _⟩ := bind_eq_ok.mp hassert
  have hle : start ≤ b.bitCnt := of_decide_eq_true (of_ASSERT hstart)
  obtain ⟨hsame, hrounds⟩ := foldlM_rounds (I := SameSize b)
    (fun c i c' hc hset => hc.trans (of_set hset).2) (.refl b) hloop
  refine ⟨?_, hsame⟩
  by_contra hlong
  obtain ⟨c, c', hc, hset⟩ := hrounds (b.bitCnt - start) (List.mem_range.mpr (by omega))
  have hlt := (of_set hset).1
  rw [Nat.add_sub_cancel' hle, hc.bitCnt, sizeT, Nat.mod_eq_of_lt hsize] at hlt
  exact Nat.lt_irrefl _ hlt

theorem safe_countLoop (hb : b.Sized) (start : Nat) (value : Bool) (rounds i valueCnt : Nat) :
    Safe (countLoop b start value rounds i valueCnt) := by
  induction rounds generalizing i valueCnt with
  | zero => exact avoids_ok _ _
  | succ rounds ih => exact (safe_test hb _).bind fun _ _ => ih _ _

theorem safe_count (hb : b.Sized) (start cnt : Nat) (value : Bool) :
    Safe (count b start cnt value) :=
  (safe_assertRange b start cnt).bind fun _ _ => safe_countLoop hb _ _ _ _ _

theorem safe_containsLoop (hb : b.Sized) (start : Nat) (value : Bool) (rounds i : Nat) :
    Safe (containsLoop b start value rounds i) := by
  induction rounds generalizing i with
  | zero => exact avoids_ok _ _
  | succ rounds ih =>
      refine (safe_test hb _).bind fun bit _ => ?_
      split
      · exact avoids_pure _ _
      · exact ih _

theorem safe_contains (hb : b.Sized) (start cnt : Nat) (value : Bool) :
    Safe (contains b start cnt value) :=
  (safe_assertRange b start cnt).bind fun _ _ => safe_containsLoop hb _ _ _ _

theorem safe_scanLoop (hb : b.Sized) (cnt : Nat) (value : Bool) (rounds i : Nat) :
    Safe (scanLoop b cnt value rounds i) := by
  induction rounds generalizing i with
  | zero => exact avoids_ok _ _
  | succ rounds ih =>
      refine (safe_contains hb _ _ _).bind fun found _ => ?_
      split
      · exact ih _
      · exact avoids_pure _ _

theorem safe_scan (hb : b.Sized) (start cnt : Nat) (value : Bool) :
    Safe (scan b start cnt value) := by
  refine (safe_ASSERT _).bind fun _ _ => ?_
  split
  · exact safe_scanLoop hb _ _ _ _
  · exact avoids_pure _ _

theorem safe_scanAndFlip (hb : b.Sized) (start cnt : Nat) (value : Bool) :
    Safe (scanAndFlip b start cnt value) := by
  refine (safe_scan hb _ _ _).bind fun idx _ => ?_
  split
  · exact (safe_setMultiple hb _ _ _).bind fun _ _ => avoids_pure _ _
  · exact avoids_pure _ _

end Safe

end Checked

end SystemProgramming.Testlib
