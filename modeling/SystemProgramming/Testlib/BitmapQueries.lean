import Mathlib.Order.Bounds.Basic
import SystemProgramming.Testlib.BitmapArray

/-!
The calls that only read a bitmap, against the sequence of its bits. For a
range inside the bitmap no `ASSERT` fails, and the answers are those of the
sequence: a number of places for `bitmap_count`, quantifiers over the range for
`bitmap_contains` and its relatives, a least place for `bitmap_scan`.
-/

namespace SystemProgramming.Testlib

namespace Bitmap

variable {b : Bitmap} {start cnt : Nat} {value : Bool}

/-! ### The number of bits -/

/-- How many bits of the range have the value. -/
def countBits (b : Bitmap) (start cnt : Nat) (value : Bool) : Nat :=
  (List.range' start cnt).countP fun i => b.bit i = value

theorem countBits_succ (b : Bitmap) (start cnt : Nat) (value : Bool) :
    b.countBits start (cnt + 1) value =
      b.countBits start cnt value + if b.bit (start + cnt) = value then 1 else 0 := by
  rw [countBits, List.range'_concat, List.countP_append]
  simp [countBits, List.countP_singleton]

theorem countBits_le (b : Bitmap) (start cnt : Nat) (value : Bool) :
    b.countBits start cnt value ≤ cnt :=
  List.countP_le_length.trans (List.length_range' ..).le

/-- A bit is true or false. -/
theorem countBits_add (b : Bitmap) (start cnt : Nat) :
    b.countBits start cnt true + b.countBits start cnt false = cnt := by
  induction cnt with
  | zero => rfl
  | succ cnt ih =>
      rw [countBits_succ, countBits_succ]
      cases b.bit (start + cnt) <;> simp <;> omega

theorem countBits_eq_iff (b : Bitmap) (start cnt : Nat) (value : Bool) :
    b.countBits start cnt value = cnt ↔ ∀ j < cnt, b.bit (start + j) = value := by
  induction cnt with
  | zero => simp [countBits]
  | succ cnt ih =>
      have hle := countBits_le b start cnt value
      rw [countBits_succ, Nat.forall_lt_succ_right, ← ih]
      split
      · simp [*]
      · simp [*]
        omega

theorem count_spec (hb : b.Sized) (hsize : b.bitCnt < 2 ^ 64) (h : start + cnt ≤ b.bitCnt)
    (value : Bool) : b.count start cnt value = some (b.countBits start cnt value) := by
  have hloop (rounds i : Nat) (hi : i + rounds = cnt) :
      b.countLoop start value rounds i (b.countBits start i value) =
        some (b.countBits start cnt value) := by
    induction rounds generalizing i with
    | zero =>
        obtain rfl : i = cnt := by omega
        rfl
    | succ rounds ih =>
        have hwrap : sizeT (start + i) = start + i := Nat.mod_eq_of_lt (by omega)
        have hle := countBits_le b start i value
        have hcnt : sizeT (b.countBits start i value + 1) = b.countBits start i value + 1 :=
          Nat.mod_eq_of_lt (by omega)
        rw [countLoop, hwrap, test_spec hb (by omega), Option.bind_some, hcnt,
          ← ih (i + 1) (by omega), countBits_succ]
        congr 1
        split <;> rfl
  have hwrap : sizeT (start + cnt) = start + cnt := Nat.mod_eq_of_lt (by omega)
  rw [count, if_pos ⟨by omega, by omega⟩]
  exact hloop cnt 0 (Nat.zero_add _)

theorem any_spec (hb : b.Sized) (hsize : b.bitCnt < 2 ^ 64) (h : start + cnt ≤ b.bitCnt) :
    b.any start cnt = some (decide (∃ j < cnt, b.bit (start + j) = true)) :=
  contains_spec hb hsize h true

theorem none_spec (hb : b.Sized) (hsize : b.bitCnt < 2 ^ 64) (h : start + cnt ≤ b.bitCnt) :
    b.none start cnt = some (decide (∀ j < cnt, b.bit (start + j) = false)) := by
  rw [Bitmap.none, contains_spec hb hsize h, Option.map_some, ← decide_not]
  simp

theorem all_spec (hb : b.Sized) (hsize : b.bitCnt < 2 ^ 64) (h : start + cnt ≤ b.bitCnt) :
    b.all start cnt = some (decide (∀ j < cnt, b.bit (start + j) = true)) := by
  rw [all, contains_spec hb hsize h, Option.map_some, ← decide_not]
  simp

/-! ### Searching -/

/-- The places from `start` on at which `cnt` bits of the bitmap have the value. -/
def groups (b : Bitmap) (start cnt : Nat) (value : Bool) : Set Nat :=
  {i | start ≤ i ∧ i + cnt ≤ b.bitCnt ∧ ∀ j < cnt, b.bit (i + j) = value}

theorem firstGroup_isLeast {i : Nat} (hi : firstGroup b.bitCnt b.bit start cnt value = some i) :
    IsLeast (b.groups start cnt value) i := by
  obtain ⟨hmem, hfirst⟩ := firstGroup_eq_some.mp hi
  exact ⟨hmem, fun k hk => Nat.le_of_not_lt fun hlt => hfirst k hlt hk⟩

theorem scan_least (hb : b.Sized) (hsize : b.bitCnt < BITMAP_ERROR) (h : start ≤ b.bitCnt)
    (cnt : Nat) (value : Bool) :
    ∃ r, b.scan start cnt value = some r ∧
      (r ≠ BITMAP_ERROR → IsLeast (b.groups start cnt value) r) ∧
      (r = BITMAP_ERROR ↔ b.groups start cnt value = ∅) := by
  refine ⟨_, scan_spec hb (hsize.trans (by decide)) h cnt value, ?_⟩
  cases hgroup : firstGroup b.bitCnt b.bit start cnt value with
  | none =>
      refine ⟨fun hne => absurd rfl hne, fun _ => ?_, fun _ => rfl⟩
      exact Set.eq_empty_of_forall_notMem (firstGroup_eq_none.mp hgroup)
  | some i =>
      have hleast := firstGroup_isLeast hgroup
      have hne : i ≠ BITMAP_ERROR := fun heq => by
        have hi : i + cnt ≤ b.bitCnt := hleast.1.2.1
        omega
      exact ⟨fun _ => hleast, fun heq => absurd heq hne,
        fun hempty => absurd hleast.1 (hempty ▸ Set.notMem_empty i)⟩

end Bitmap

/-- The calls that only read a bitmap answer what its sequence of bits says. -/
theorem bitmap_queries (b : Bitmap) (hb : b.Valid) :
    (∀ start cnt value, start + cnt ≤ b.bitCnt →
      b.count start cnt value = some (b.countBits start cnt value) ∧
      b.contains start cnt value = some (decide (∃ j < cnt, b.bit (start + j) = value)) ∧
      b.any start cnt = some (decide (∃ j < cnt, b.bit (start + j) = true)) ∧
      b.none start cnt = some (decide (∀ j < cnt, b.bit (start + j) = false)) ∧
      b.all start cnt = some (decide (∀ j < cnt, b.bit (start + j) = true)) ∧
      b.countBits start cnt true + b.countBits start cnt false = cnt ∧
      (b.all start cnt = some true ↔ b.count start cnt true = some cnt)) ∧
    ∀ start cnt value, start ≤ b.bitCnt → cnt < 2 ^ 64 →
      ∃ r, b.scan start cnt value = some r ∧
        (r ≠ BITMAP_ERROR → IsLeast (b.groups start cnt value) r) ∧
        (r = BITMAP_ERROR ↔ b.groups start cnt value = ∅) := by
  have hsized := hb.sized
  have hlt := hb.lt
  refine ⟨fun start cnt value h => ?_, fun start cnt value h _ =>
    Bitmap.scan_least hsized (by simp only [BITMAP_ERROR, SIZE_MAX]; omega) h cnt value⟩
  have hall := Bitmap.all_spec hsized hb.size h
  have hcount := Bitmap.count_spec hsized hb.size h
  refine ⟨hcount value, Bitmap.contains_spec hsized hb.size h value,
    Bitmap.any_spec hsized hb.size h, Bitmap.none_spec hsized hb.size h, hall,
    b.countBits_add start cnt, ?_⟩
  rw [hall, hcount, Option.some_inj, Option.some_inj, decide_eq_true_iff,
    Bitmap.countBits_eq_iff]

/-- Seventy bits in two elements; the bits 1, 2 and 64 are on. -/
theorem bitmap_queries_twoElements :
    (Bitmap.mk 70 [6, 1]).count 60 10 false = some 9 ∧
      (Bitmap.mk 70 [6, 1]).all 1 2 = some true ∧
      ∃ r, (Bitmap.mk 70 [6, 1]).scan 3 61 false = some r ∧
        (r ≠ BITMAP_ERROR → IsLeast ((Bitmap.mk 70 [6, 1]).groups 3 61 false) r) ∧
        (r = BITMAP_ERROR ↔ (Bitmap.mk 70 [6, 1]).groups 3 61 false = ∅) := by
  obtain ⟨hrange, hscan⟩ := bitmap_queries ⟨70, [6, 1]⟩ ⟨by decide, by decide, by decide⟩
  obtain ⟨hcount, _⟩ := hrange 60 10 false (by decide)
  obtain ⟨_, _, _, _, hall, _⟩ := hrange 1 2 true (by decide)
  exact ⟨hcount.trans (by decide), hall.trans (by decide), hscan 3 61 false (by decide) (by decide)⟩

end SystemProgramming.Testlib
