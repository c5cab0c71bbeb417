import Mathlib.Logic.Function.Basic
import SystemProgramming.Testlib.Bitmap

/-!
The bitmap against a plain array of booleans.

The instructions reach the low half of an element only: the bits 32 to 63 of
every element keep what `malloc` left there, whatever is called.
`BitmapOp.run_spec` says this once for all operations. A bitmap therefore
follows the array exactly as long as those bits start out as zero and no
operation turns one of them on.
-/

namespace SystemProgramming.Testlib

open SystemProgramming.Library

/-! ### The plain array -/

/-- The calls that change a bitmap. -/
inductive BitmapOp
  | mark (idx : Nat)
  | reset (idx : Nat)
  | flip (idx : Nat)
  | set (idx : Nat) (value : Bool)
  | setAll (value : Bool)
  | setMultiple (start cnt : Nat) (value : Bool)
  | scanAndFlip (start cnt : Nat) (value : Bool)

/-- Sets the entries `start` to `start + cnt - 1`. -/
def fill (a : Nat → Bool) (start cnt : Nat) (value : Bool) : Nat → Bool :=
  fun i => if start ≤ i ∧ i < start + cnt then value else a i

/-- The first place at or behind `start` with `cnt` entries equal to `value`. -/
def firstGroup (n : Nat) (a : Nat → Bool) (start cnt : Nat) (value : Bool) : Option Nat :=
  (List.range (n + 1)).find? fun i =>
    decide (start ≤ i ∧ i + cnt ≤ n ∧ ∀ j < cnt, a (i + j) = value)

namespace BitmapOp

/-- What a call does to an array of `n` booleans. -/
def apply (n : Nat) (a : Nat → Bool) : BitmapOp → Nat → Bool
  | mark idx => Function.update a idx true
  | reset idx => Function.update a idx false
  | flip idx => Function.update a idx !a idx
  | set idx value => Function.update a idx value
  | setAll value => fill a 0 n value
  | setMultiple start cnt value => fill a start cnt value
  | scanAndFlip start cnt value =>
      match firstGroup n a start cnt value with
      | some i => fill a i cnt !value
      | none => a

def InRange (n : Nat) : BitmapOp → Prop
  | mark idx | reset idx | flip idx | set idx _ => idx < n
  | setAll _ => True
  | setMultiple start cnt _ => start + cnt ≤ n
  | scanAndFlip start _ _ => start ≤ n

def run (b : Bitmap) : BitmapOp → Option Bitmap
  | mark idx => b.mark idx
  | reset idx => b.reset idx
  | flip idx => b.flip idx
  | set idx value => b.set idx value
  | setAll value => b.setAll value
  | setMultiple start cnt value => b.setMultiple start cnt value
  | scanAndFlip start cnt value => (b.scanAndFlip start cnt value).map Prod.snd

/-- A call looks at the entries below `n` only. -/
theorem apply_congr {n : Nat} {a a' : Nat → Bool} (h : ∀ i < n, a' i = a i) (op : BitmapOp)
    {i : Nat} (hi : i < n) : op.apply n a' i = op.apply n a i := by
  have hfill (start cnt : Nat) (value : Bool) :
      fill a' start cnt value i = fill a start cnt value i := by
    simp only [fill, h i hi]
  have hupdate (idx : Nat) (value : Bool) :
      Function.update a' idx value i = Function.update a idx value i := by
    simp only [Function.update_apply, h i hi]
  cases op with
  | mark idx | reset idx | set idx value => exact hupdate idx _
  | flip idx =>
      by_cases hidx : i = idx
      · subst hidx
        simp [apply, h i hi]
      · simp [apply, hidx, h i hi]
  | setAll value => exact hfill 0 n value
  | setMultiple start cnt value => exact hfill start cnt value
  | scanAndFlip start cnt value =>
      have hgroup : firstGroup n a' start cnt value = firstGroup n a start cnt value := by
        unfold firstGroup
        congr 1
        funext k
        refine decide_eq_decide.mpr (and_congr_right fun _ => and_congr_right fun hk => ?_)
        refine forall₂_congr fun j hj => ?_
        rw [h (k + j) (by omega)]
      simp only [apply, hgroup]
      cases firstGroup n a start cnt value with
      | none => exact h i hi
      | some k => exact hfill k cnt _

end BitmapOp

/-! ### Sizes -/

attribute [ext] Bitmap

namespace Bitmap

theorem elemCnt_of_lt {n : Nat} (hn : n + 63 < 2 ^ 64) : elemCnt n = (n + 63) / 64 := by
  simp only [elemCnt, ELEM_BITS, sizeT]
  omega

/-- For the largest sizes `elem_cnt` wraps. -/
theorem elemCnt_of_le {n : Nat} (hn : n < 2 ^ 64) (hwrap : 2 ^ 64 ≤ n + 63) : elemCnt n = 0 := by
  simp only [elemCnt, ELEM_BITS, sizeT]
  omega

/-- Every bit has its element. -/
def Sized (b : Bitmap) : Prop := ∀ i < b.bitCnt, elemIdx i < b.bits.length

theorem Valid.lt {b : Bitmap} (hb : b.Valid) : b.bitCnt + 63 < 2 ^ 64 := by
  by_contra hwrap
  have hcnt := elemCnt_of_le hb.size (by omega)
  have hroom := hb.room
  rw [hb.length, hcnt] at hroom
  omega

theorem Valid.sized {b : Bitmap} (hb : b.Valid) : b.Sized := by
  intro i hi
  have hroom := hb.room
  simp only [elemIdx, ELEM_BITS] at hroom ⊢
  omega

end Bitmap

/-! ### What the calls do to the bits -/

theorem getLsbD_bitMask (idx k : Nat) : (bitMask idx).getLsbD k = decide (k = idx % 64) :=
  getLsbD_bit (Nat.mod_lt _ (by decide))

namespace Bitmap

/-- The bits 0 to 31 of every element become those of `a`, the others stay. -/
structure LowUpdate (b b' : Bitmap) (a : Nat → Bool) : Prop where
  bitCnt : b'.bitCnt = b.bitCnt
  length : b'.bits.length = b.bits.length
  bits : ∀ j, b'.bit j = if j % 64 < 32 then a j else b.bit j

theorem LowUpdate.sized {b b' : Bitmap} {a : Nat → Bool} (h : LowUpdate b b' a)
    (hb : b.Sized) : b'.Sized := by
  intro i hi
  rw [h.length]
  exact hb i (h.bitCnt ▸ hi)

/-- Nothing changes if the low bits become what they are. -/
theorem LowUpdate.eq {b b' : Bitmap} {a : Nat → Bool} (h : LowUpdate b b' a)
    (ha : ∀ j, j % 64 < 32 → a j = b.bit j) : b' = b := by
  refine Bitmap.ext h.bitCnt (eq_of_bitAt (by decide) h.length fun j => (h.bits j).trans ?_)
  split
  · exact ha j ‹_›
  · rfl

theorem LowUpdate.refl (b : Bitmap) : LowUpdate b b b.bit :=
  ⟨rfl, rfl, fun _ => (ite_self _).symm⟩

/-- One instruction, on the element that holds bit `idx`. -/
theorem asm_spec {b : Bitmap} {op : BitVec 32 → BitVec 32 → BitVec 32}
    {f : Bool → Bool → Bool}
    (hop : ∀ x y k, k < 32 → (op x y).getLsbD k = f (x.getLsbD k) (y.getLsbD k))
    {idx : Nat} (helem : elemIdx idx < b.bits.length) (reg : ElemType) {a : Nat → Bool}
    (ha : ∀ j, j % 64 < 32 →
      a j = if j / 64 = idx / 64 then f (b.bit j) (reg.getLsbD (j % 64)) else b.bit j) :
    ∃ b', b.asm (dword op) (elemIdx idx) reg = some b' ∧ LowUpdate b b' a := by
  refine ⟨{ b with bits := b.bits.set (elemIdx idx) (dword op b.bits[elemIdx idx] reg) },
    ?_, rfl, by simp, fun j => ?_⟩
  · rw [asm, List.getElem?_eq_getElem helem]
    rfl
  · have hset : bitAt (b.bits.set (elemIdx idx) (dword op b.bits[elemIdx idx] reg)) j =
        if j / 64 = idx / 64 then (dword op b.bits[elemIdx idx] reg).getLsbD (j % 64)
        else b.bit j := bitAt_set helem _ j
    have hbit (hj : j / 64 = idx / 64) :
        b.bit j = b.bits[elemIdx idx].getLsbD (j % 64) := by
      have hget : b.bits[j / 64]? = some b.bits[elemIdx idx] := by
        rw [hj]
        exact List.getElem?_eq_getElem helem
      rw [bit, bitAt, hget, Option.getD_some]
    have hmod : j % 64 < 64 := Nat.mod_lt j (by decide)
    change bitAt (b.bits.set (elemIdx idx) (dword op b.bits[elemIdx idx] reg)) j = _
    rw [hset]
    by_cases hj : j / 64 = idx / 64 <;> by_cases hlow : j % 64 < 32
    · simp only [hj, hlow, if_true, getLsbD_dword hop _ _ hmod, ha j hlow, hbit hj]
    · simp only [hj, hlow, if_true, if_false, getLsbD_dword hop _ _ hmod, hbit hj]
    · simp only [hj, hlow, if_true, if_false, ha j hlow]
    · simp only [hj, hlow, if_false]

/-- Bits in the same place of the same element are the same bit. -/
theorem eq_of_place {i j : Nat} (hdiv : j / 64 = i / 64) (hmod : j % 64 = i % 64) : j = i := by
  omega

/-- One instruction whose other operand tells bit `idx` from the rest of its element. -/
theorem asm_place_spec {b : Bitmap} {op : BitVec 32 → BitVec 32 → BitVec 32}
    {f : Bool → Bool → Bool} {g : Bool → Bool}
    (hop : ∀ x y k, k < 32 → (op x y).getLsbD k = f (x.getLsbD k) (y.getLsbD k))
    {idx : Nat} (helem : elemIdx idx < b.bits.length) {reg : ElemType}
    (hreg : ∀ j, reg.getLsbD (j % 64) = g (decide (j % 64 = idx % 64)))
    (hothers : ∀ x, f x (g false) = x) :
    ∃ b', b.asm (dword op) (elemIdx idx) reg = some b' ∧
      LowUpdate b b' (Function.update b.bit idx (f (b.bit idx) (g true))) := by
  refine asm_spec hop helem reg fun j hlow => ?_
  rw [hreg, Function.update_apply]
  by_cases hj : j = idx
  · simp [hj]
  · by_cases hdiv : j / 64 = idx / 64
    · have hmod : j % 64 ≠ idx % 64 := fun hmod => hj (eq_of_place hdiv hmod)
      simp [hj, hdiv, hmod, hothers]
    · simp [hj, hdiv]

theorem mark_spec {b : Bitmap} {idx : Nat} (helem : elemIdx idx < b.bits.length) :
    ∃ b', b.mark idx = some b' ∧ LowUpdate b b' (Function.update b.bit idx true) := by
  have hspec := asm_place_spec (f := (· || ·)) (g := id) (fun x y k _ => BitVec.getLsbD_or) helem
    (fun _ => getLsbD_bitMask idx _) Bool.or_false
  rwa [id, Bool.or_true] at hspec

theorem reset_spec {b : Bitmap} {idx : Nat} (helem : elemIdx idx < b.bits.length) :
    ∃ b', b.reset idx = some b' ∧ LowUpdate b b' (Function.update b.bit idx false) := by
  have hreg (j : Nat) : (~~~ bitMask idx).getLsbD (j % 64) = !decide (j % 64 = idx % 64) := by
    rw [BitVec.getLsbD_not, getLsbD_bitMask]
    simp [Nat.mod_lt]
  have hspec := asm_place_spec (f := (· && ·)) (fun x y k _ => BitVec.getLsbD_and) helem hreg
    Bool.and_true
  rwa [Bool.not_true, Bool.and_false] at hspec

theorem flip_spec {b : Bitmap} {idx : Nat} (helem : elemIdx idx < b.bits.length) :
    ∃ b', b.flip idx = some b' ∧ LowUpdate b b' (Function.update b.bit idx !b.bit idx) := by
  have hspec := asm_place_spec (f := (· ^^ ·)) (g := id) (fun x y k _ => BitVec.getLsbD_xor) helem
    (fun _ => getLsbD_bitMask idx _) Bool.xor_false
  rwa [id, Bool.xor_true] at hspec

theorem set_spec {b : Bitmap} (hb : b.Sized) {idx : Nat} (hidx : idx < b.bitCnt)
    (value : Bool) :
    ∃ b', b.set idx value = some b' ∧ LowUpdate b b' (Function.update b.bit idx value) := by
  rw [set, if_pos hidx]
  cases value with
  | true => exact mark_spec (hb idx hidx)
  | false => exact reset_spec (hb idx hidx)

theorem test_spec {b : Bitmap} (hb : b.Sized) {idx : Nat} (hidx : idx < b.bitCnt) :
    b.test idx = some (b.bit idx) := by
  have hlt := hb idx hidx
  have helem := List.getElem?_eq_getElem hlt
  have hbit : b.bit idx = b.bits[elemIdx idx].getLsbD (idx % 64) := by
    rw [bit, bitAt]
    change (b.bits[elemIdx idx]?.getD 0).getLsbD (idx % 64) = _
    rw [helem, Option.getD_some]
  rw [test, if_pos hidx, helem, Option.map_some, hbit, Option.some.injEq]
  exact decide_and_bit _ (Nat.mod_lt _ (by decide))

/-! ### The loops -/

theorem setMultiple_spec {b : Bitmap} (hb : b.Sized) (hsize : b.bitCnt < 2 ^ 64)
    {start cnt : Nat} (h : start + cnt ≤ b.bitCnt) (value : Bool) :
    ∃ b', b.setMultiple start cnt value = some b' ∧
      LowUpdate b b' (fill b.bit start cnt value) := by
  have hloop (k : Nat) (hk : k ≤ cnt) :
      ∃ b', (List.range k).foldlM (fun b i => b.set (sizeT (start + i)) value) b = some b' ∧
        LowUpdate b b' (fill b.bit start k value) := by
    induction k with
    | zero =>
        have hfill : fill b.bit start 0 value = b.bit := by
          ext j
          exact if_neg (by omega)
        refine ⟨b, rfl, rfl, rfl, fun j => ?_⟩
        rw [hfill, ite_self]
    | succ k ih =>
        obtain ⟨b₁, hrun, hup⟩ := ih (by omega)
        have hidx : start + k < b₁.bitCnt := by rw [hup.bitCnt]; omega
        obtain ⟨b₂, hset, hcnt, hlen, hbits⟩ := set_spec (hup.sized hb) hidx value
        refine ⟨b₂, ?_, hcnt.trans hup.bitCnt, hlen.trans hup.length, fun j => ?_⟩
        · rw [List.range_succ, List.foldlM_append, hrun]
          have hwrap : sizeT (start + k) = start + k := Nat.mod_eq_of_lt (by omega)
          simp [hwrap, hset]
        · rw [hbits, Function.update_apply, hup.bits]
          by_cases hlow : j % 64 < 32
          · simp only [hlow, if_true, fill]
            by_cases hj : j = start + k
            · simp [hj]
            · have hiff : (start ≤ j ∧ j < start + (k + 1)) ↔ (start ≤ j ∧ j < start + k) := by
                omega
              simp [hj, hiff]
          · simp only [hlow, if_false]
  have hwrap : sizeT (start + cnt) = start + cnt := Nat.mod_eq_of_lt (by omega)
  rw [setMultiple, if_pos ⟨by omega, by omega⟩]
  exact hloop cnt (Nat.le_refl _)

theorem contains_spec {b : Bitmap} (hb : b.Sized) (hsize : b.bitCnt < 2 ^ 64)
    {start cnt : Nat} (h : start + cnt ≤ b.bitCnt) (value : Bool) :
    b.contains start cnt value = some (decide (∃ j < cnt, b.bit (start + j) = value)) := by
  have hloop (rounds i : Nat) (hi : i + rounds = cnt) :
      b.containsLoop start value rounds i =
        some (decide (∃ j < cnt, i ≤ j ∧ b.bit (start + j) = value)) := by
    induction rounds generalizing i with
    | zero =>
        have hnone : ¬ ∃ j < cnt, i ≤ j ∧ b.bit (start + j) = value := by
          rintro ⟨j, hj, hij, _⟩
          omega
        simp [containsLoop, hnone]
    | succ rounds ih =>
        have hwrap : sizeT (start + i) = start + i := Nat.mod_eq_of_lt (by omega)
        rw [containsLoop, hwrap, test_spec hb (by omega), Option.bind_some]
        by_cases hbit : b.bit (start + i) = value
        · have hsome : ∃ j < cnt, i ≤ j ∧ b.bit (start + j) = value :=
            ⟨i, by omega, Nat.le_refl i, hbit⟩
          simp [hbit, hsome]
        · rw [if_neg hbit, ih (i + 1) (by omega), Option.some.injEq, decide_eq_decide]
          refine exists_congr fun j => and_congr_right fun _ => ?_
          refine ⟨fun ⟨hij, hj⟩ => ⟨by omega, hj⟩, fun ⟨hij, hj⟩ => ⟨?_, hj⟩⟩
          have hne : i ≠ j := fun hij => hbit (hij ▸ hj)
          omega
  have hwrap : sizeT (start + cnt) = start + cnt := Nat.mod_eq_of_lt (by omega)
  rw [contains, if_pos ⟨by omega, by omega⟩, hloop cnt 0 (by omega)]
  simp

theorem firstGroup_eq_some {n : Nat} {a : Nat → Bool} {start cnt i : Nat} {value : Bool} :
    firstGroup n a start cnt value = some i ↔
      (start ≤ i ∧ i + cnt ≤ n ∧ ∀ j < cnt, a (i + j) = value) ∧
        ∀ k < i, ¬ (start ≤ k ∧ k + cnt ≤ n ∧ ∀ j < cnt, a (k + j) = value) := by
  rw [firstGroup, List.find?_range_eq_some]
  simp only [decide_eq_true_eq, Bool.not_eq_true', decide_eq_false_iff_not, List.mem_range]
  constructor
  · rintro ⟨hi, _, hfirst⟩
    exact ⟨hi, hfirst⟩
  · rintro ⟨hi, hfirst⟩
    exact ⟨hi, by omega, hfirst⟩

theorem firstGroup_eq_none {n : Nat} {a : Nat → Bool} {start cnt : Nat} {value : Bool} :
    firstGroup n a start cnt value = none ↔
      ∀ i, ¬ (start ≤ i ∧ i + cnt ≤ n ∧ ∀ j < cnt, a (i + j) = value) := by
  rw [firstGroup, List.find?_range_eq_none]
  simp only [Bool.not_eq_true', decide_eq_false_iff_not]
  refine ⟨fun h i hi => h i (by omega) hi, fun h i _ => h i⟩

theorem scan_spec {b : Bitmap} (hb : b.Sized) (hsize : b.bitCnt < 2 ^ 64) {start : Nat}
    (h : start ≤ b.bitCnt) (cnt : Nat) (value : Bool) :
    b.scan start cnt value =
      some ((firstGroup b.bitCnt b.bit start cnt value).getD BITMAP_ERROR) := by
  rw [scan, if_pos h]
  by_cases hcnt : cnt ≤ b.bitCnt
  swap
  · have hnone : firstGroup b.bitCnt b.bit start cnt value = none :=
      firstGroup_eq_none.mpr fun i ⟨_, hi, _⟩ => by omega
    rw [if_neg hcnt, hnone, Option.getD_none]
  rw [if_pos hcnt]
  have hloop (rounds i : Nat) (hrounds : rounds = b.bitCnt - cnt + 1 - i) (hi : start ≤ i)
      (hbefore : ∀ k < i, ¬ (start ≤ k ∧ k + cnt ≤ b.bitCnt ∧ ∀ j < cnt, b.bit (k + j) = value)) :
      b.scanLoop cnt value rounds i =
        some ((firstGroup b.bitCnt b.bit start cnt value).getD BITMAP_ERROR) := by
    induction rounds generalizing i with
    | zero =>
        have hnone : firstGroup b.bitCnt b.bit start cnt value = none :=
          firstGroup_eq_none.mpr fun k hk => hbefore k (by omega) hk
        rw [scanLoop, hnone, Option.getD_none]
    | succ rounds ih =>
        rw [scanLoop, contains_spec hb hsize (by omega), Option.bind_some]
        by_cases hgroup : ∀ j < cnt, b.bit (i + j) = value
        · have hfound : ¬ ∃ j < cnt, b.bit (i + j) = !value := by
            rintro ⟨j, hj, hbit⟩
            simp [hgroup j hj] at hbit
          have hsome : firstGroup b.bitCnt b.bit start cnt value = some i :=
            firstGroup_eq_some.mpr ⟨⟨hi, by omega, hgroup⟩, hbefore⟩
          simp [hfound, hsome]
        · have hfound : ∃ j < cnt, b.bit (i + j) = !value := by
            simp only [not_forall] at hgroup
            obtain ⟨j, hj, hbit⟩ := hgroup
            exact ⟨j, hj, Bool.eq_not.mpr hbit⟩
          simp only [hfound, decide_true, if_true]
          refine ih (i + 1) (by omega) (by omega) fun k hk hall => ?_
          by_cases hki : k = i
          · exact hgroup (hki ▸ hall.2.2)
          · exact hbefore k (by omega) hall
  exact hloop _ start rfl (Nat.le_refl _) fun k hk hall => by omega

end Bitmap

/-! ### Every call -/

/-- **What a call does to the bits**: the low half of every element follows the array, the
high half never changes. -/
theorem BitmapOp.run_spec {b : Bitmap} (hb : b.Sized) (hsize : b.bitCnt + 63 < 2 ^ 64)
    {op : BitmapOp} (hop : op.InRange b.bitCnt) :
    ∃ b', op.run b = some b' ∧ Bitmap.LowUpdate b b' (op.apply b.bitCnt b.bit) := by
  have hlt : b.bitCnt < 2 ^ 64 := by omega
  cases op with
  | mark idx => exact Bitmap.mark_spec (hb idx hop)
  | reset idx => exact Bitmap.reset_spec (hb idx hop)
  | flip idx => exact Bitmap.flip_spec (hb idx hop)
  | set idx value => exact Bitmap.set_spec hb hop value
  | setAll value => exact Bitmap.setMultiple_spec hb hlt (by omega) value
  | setMultiple start cnt value => exact Bitmap.setMultiple_spec hb hlt hop value
  | scanAndFlip start cnt value =>
      have hstart : start ≤ b.bitCnt := hop
      have hscan := Bitmap.scan_spec hb hlt hstart cnt value
      cases hgroup : firstGroup b.bitCnt b.bit start cnt value with
      | none =>
          refine ⟨b, ?_, ?_⟩
          · rw [run, Bitmap.scanAndFlip, hscan, hgroup]
            rfl
          · simp only [apply, hgroup]
            exact .refl b
      | some i =>
          have hi := (Bitmap.firstGroup_eq_some.mp hgroup).1.2.1
          have hne : i ≠ BITMAP_ERROR := by
            simp only [BITMAP_ERROR, SIZE_MAX]
            omega
          obtain ⟨b', hset, hup⟩ := Bitmap.setMultiple_spec hb hlt hi !value
          refine ⟨b', ?_, ?_⟩
          · rw [run, Bitmap.scanAndFlip, hscan, hgroup]
            simp [hne, hset]
          · simpa only [apply, hgroup] using hup

/-! ### Every sequence of calls -/

/-- After every call of the sequence `bitmap_test` reads the array. -/
def Follows (n : Nat) (b : Bitmap) (a : Nat → Bool) : List BitmapOp → Prop
  | [] => ∀ i < n, b.test i = some (a i)
  | op :: ops =>
      (∀ i < n, b.test i = some (a i)) ∧
        ∃ b', op.run b = some b' ∧ Follows n b' (op.apply n a) ops

/-- No call of the sequence turns on an entry of the array that belongs to the high half
of an element. -/
def LeavesHighOff (n : Nat) (a : Nat → Bool) : List BitmapOp → Prop
  | [] => True
  | op :: ops =>
      (∀ i < n, 32 ≤ i % 64 → op.apply n a i = false) ∧ LeavesHighOff n (op.apply n a) ops

theorem Follows.tests {n : Nat} {b : Bitmap} {a : Nat → Bool} {ops : List BitmapOp}
    (h : Follows n b a ops) : ∀ i < n, b.test i = some (a i) := by
  cases ops with
  | nil => exact h
  | cons op ops => exact h.1

/-- From a state in which bitmap and array agree and the high bits are off. -/
theorem follows_iff_leavesHighOff {n : Nat} (hn : n + 63 < 2 ^ 64) {ops : List BitmapOp}
    (hops : ∀ op ∈ ops, op.InRange n) {b : Bitmap} {a : Nat → Bool} (hb : b.Sized)
    (hcnt : b.bitCnt = n) (hhigh : ∀ i < n, 32 ≤ i % 64 → b.bit i = false)
    (heq : ∀ i < n, b.bit i = a i) : Follows n b a ops ↔ LeavesHighOff n a ops := by
  have htests {b' : Bitmap} {a' : Nat → Bool} (hb' : b'.Sized) (hcnt' : b'.bitCnt = n) :
      (∀ i < n, b'.test i = some (a' i)) ↔ ∀ i < n, b'.bit i = a' i := by
    refine forall₂_congr fun i hi => ?_
    rw [Bitmap.test_spec hb' (hcnt' ▸ hi), Option.some.injEq]
  induction ops generalizing b a with
  | nil => exact ⟨fun _ => trivial, fun _ => (htests hb hcnt).mpr heq⟩
  | cons op ops ih =>
      have hops' : ∀ op' ∈ ops, op'.InRange n := fun op' hmem => hops op' (by simp [hmem])
      obtain ⟨b', hrun, hup⟩ :=
        BitmapOp.run_spec hb (hcnt ▸ hn) (hcnt.symm ▸ hops op (by simp))
      rw [hcnt] at hup
      have hb' := hup.sized hb
      have hcnt' : b'.bitCnt = n := hup.bitCnt.trans hcnt
      have hhigh' (i : Nat) (hi : i < n) (h32 : 32 ≤ i % 64) : b'.bit i = false := by
        rw [hup.bits, if_neg (by omega), hhigh i hi h32]
      constructor
      · rintro ⟨_, b'', hrun', hfollows⟩
        obtain rfl : b'' = b' := Option.some.inj (hrun'.symm.trans hrun)
        have heq' := (htests hb' hcnt').mp hfollows.tests
        exact ⟨fun i hi h32 => (heq' i hi).symm.trans (hhigh' i hi h32),
          (ih hops' hb' hcnt' hhigh' heq').mp hfollows⟩
      · rintro ⟨hoff, hleaves⟩
        refine ⟨(htests hb hcnt).mpr heq, b', hrun,
          (ih hops' hb' hcnt' hhigh' fun i hi => ?_).mpr hleaves⟩
        by_cases h32 : i % 64 < 32
        · rw [hup.bits, if_pos h32, op.apply_congr heq hi]
        · rw [hhigh' i hi (by omega), hoff i hi (by omega)]

/-- A bitmap just created is off in the low halves and as `malloc` left it in the high
ones. -/
theorem create_spec {n : Nat} (hn : n + 63 < 2 ^ 64) (content : Nat → ElemType) :
    ∃ b, Bitmap.create n content = some b ∧ b.Sized ∧ b.bitCnt = n ∧
      ∀ i < n, b.bit i = if i % 64 < 32 then false else (content (i / 64)).getLsbD (i % 64) := by
  have hcnt := Bitmap.elemCnt_of_lt hn
  let raw : Bitmap := { bitCnt := n, bits := (List.range (elemCnt n)).map content }
  have hraw : raw.Sized := by
    intro i hi
    have hi' : i < n := hi
    simp only [raw, elemIdx, ELEM_BITS, List.length_map, List.length_range, hcnt]
    omega
  have hbit (i : Nat) (hi : i < n) : raw.bit i = (content (i / 64)).getLsbD (i % 64) := by
    have hidx : i / 64 < elemCnt n := by omega
    simp [Bitmap.bit, bitAt, raw, hidx]
  have hsize : raw.bitCnt < 2 ^ 64 := by
    have : raw.bitCnt = n := rfl
    omega
  obtain ⟨b, hset, hup⟩ :=
    Bitmap.setMultiple_spec hraw hsize (Nat.le_of_eq (Nat.zero_add raw.bitCnt)) false
  refine ⟨b, hset, hup.sized hraw, hup.bitCnt, fun i hi => ?_⟩
  rw [hup.bits, hbit i hi]
  have hfill : fill raw.bit 0 raw.bitCnt false i = false := by
    have hi' : i < raw.bitCnt := hi
    rw [fill, if_pos ⟨Nat.zero_le i, by omega⟩]
  rw [hfill]

/-- For the largest sizes `elem_cnt` wraps to 0, and the first write is out of bounds. -/
theorem create_wraps {n : Nat} (hn : n < 2 ^ 64) (hwrap : 2 ^ 64 ≤ n + 63)
    (content : Nat → ElemType) : Bitmap.create n content = none := by
  have hcnt := Bitmap.elemCnt_of_le hn hwrap
  obtain ⟨m, rfl⟩ : ∃ m, n = m + 1 := ⟨n - 1, by omega⟩
  have hset : ({ bitCnt := m + 1, bits := [] } : Bitmap).set (sizeT (0 + 0)) false = none := by
    simp [Bitmap.set, Bitmap.reset, Bitmap.asm, sizeT]
  rw [Bitmap.create, hcnt, Bitmap.setAll, Bitmap.setMultiple]
  simp only [List.range_zero, List.map_nil]
  split
  · rw [List.range_succ_eq_map, List.foldlM_cons, hset]
    rfl
  · rfl

/-- **A bitmap follows the plain array** exactly when its high bits start out as zero and
no call turns one of them on. -/
theorem bitmap_follows_iff {n : Nat} (hn : n < 2 ^ 64) {ops : List BitmapOp}
    (hops : ∀ op ∈ ops, op.InRange n) (content : Nat → ElemType) :
    (∃ b, Bitmap.create n content = some b ∧ Follows n b (fun _ => false) ops) ↔
      n + 63 < 2 ^ 64 ∧
        (∀ i < n, 32 ≤ i % 64 → (content (i / 64)).getLsbD (i % 64) = false) ∧
        LeavesHighOff n (fun _ => false) ops := by
  by_cases hsize : n + 63 < 2 ^ 64
  swap
  · refine ⟨fun ⟨b, hcreate, _⟩ => ?_, fun h => absurd h.1 hsize⟩
    rw [create_wraps hn (by omega)] at hcreate
    cases hcreate
  obtain ⟨b, hcreate, hb, hcnt, hbits⟩ := create_spec hsize content
  have hoff (hzero : ∀ i < n, 32 ≤ i % 64 → (content (i / 64)).getLsbD (i % 64) = false)
      (i : Nat) (hi : i < n) : b.bit i = false := by
    rw [hbits i hi]
    split
    · rfl
    · exact hzero i hi (by omega)
  have hiff (hzero : ∀ i < n, 32 ≤ i % 64 → (content (i / 64)).getLsbD (i % 64) = false) :=
    follows_iff_leavesHighOff hsize hops hb hcnt (fun i hi _ => hoff hzero i hi) (hoff hzero)
  constructor
  · rintro ⟨b', hcreate', hfollows⟩
    obtain rfl : b' = b := Option.some.inj (hcreate'.symm.trans hcreate)
    have hzero (i : Nat) (hi : i < n) (h32 : 32 ≤ i % 64) :
        (content (i / 64)).getLsbD (i % 64) = false := by
      have htest := hfollows.tests i hi
      rwa [Bitmap.test_spec hb (hcnt ▸ hi), hbits i hi, if_neg (by omega),
        Option.some.injEq] at htest
    exact ⟨hsize, hzero, (hiff hzero).mp hfollows⟩
  · rintro ⟨_, hzero, hleaves⟩
    exact ⟨b, hcreate, (hiff hzero).mpr hleaves⟩

theorem bitmap_follows_low_bits :
    ∃ b, Bitmap.create 40 (fun _ => 0) = some b ∧ Follows 40 b (fun _ => false)
      [.mark 3, .flip 31, .scanAndFlip 0 4 false, .setMultiple 0 8 false] := by
  refine (bitmap_follows_iff (by decide) ?_ _).mpr ⟨by decide, by decide, ?_⟩
  · simp [BitmapOp.InRange]
  · simp only [LeavesHighOff]
    decide +kernel

/-- `bitmap_mark (b, 32)` has no effect. -/
theorem bitmap_mark_lost :
    ¬ ∀ (n : Nat) (content : Nat → ElemType) (ops : List BitmapOp) (b : Bitmap),
      n < 2 ^ 64 → (∀ op ∈ ops, op.InRange n) → Bitmap.create n content = some b →
        Follows n b (fun _ => false) ops := by
  intro h
  obtain ⟨b, hcreate, hb, hcnt, hbits⟩ := create_spec (n := 33) (by decide) fun _ => 0
  have hoff (i : Nat) (hi : i < 33) : b.bit i = false := by
    rw [hbits i hi]
    simp
  have hops : ∀ op ∈ [BitmapOp.mark 32], op.InRange 33 := by simp [BitmapOp.InRange]
  have hfollows := h 33 _ [.mark 32] b (by decide) hops hcreate
  have hleaves := (follows_iff_leavesHighOff (by decide) hops hb hcnt
    (fun i hi _ => hoff i hi) hoff).mp hfollows
  have hmark := hleaves.1 32 (by decide) (by decide)
  simp [BitmapOp.apply] at hmark

end SystemProgramming.Testlib
