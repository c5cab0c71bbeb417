import SystemProgramming.Testlib.BitmapCommands

/-!
Two places where `bitmap.c` relies on a sum of `size_t`s: the number of elements
`bitmap_create` allocates, and the `ASSERT`s on a range. Both sums wrap.
-/

namespace SystemProgramming.Testlib

open SystemProgramming.Library BitmapMemory

variable {n : Nat}

/-! ### Storage -/

theorem byteCnt_div (n : Nat) : byteCnt n / 8 = elemCnt n := by
  have hlt : sizeT (n + ELEM_BITS - 1) < ELEM_BITS * 2 ^ 58 := Nat.mod_lt _ (by decide)
  have hcnt : elemCnt n < 2 ^ 58 := Nat.div_lt_of_lt_mul hlt
  rw [byteCnt, sizeT, Nat.mod_eq_of_lt (by omega), Nat.mul_div_cancel_left _ (by decide)]

/-- There is a word for every bit exactly if the sum in `DIV_ROUND_UP` does not wrap. -/
theorem word_for_every_bit_iff (hn : n < 2 ^ 64) :
    (∀ i < n, elemIdx i < byteCnt n / 8) ↔ n + 63 < 2 ^ 64 := by
  rw [byteCnt_div]
  constructor
  · intro hword
    by_contra hwrap
    have hfirst := hword 0 (by omega)
    rw [Bitmap.elemCnt_of_le hn (by omega)] at hfirst
    exact Nat.not_lt_zero _ hfirst
  · intro hsum i hi
    rw [Bitmap.elemCnt_of_lt hsum, elemIdx, ELEM_BITS]
    omega

/-- `bitmap_create` returns null, or its `byte_cnt (n)` bytes have a word for every bit. -/
def Covered (s : BitmapMemory) (memory : BitmapMalloc) (n : Nat) : Prop :=
  (∃ s', (bitmapCreate memory n).run s = .ok (none, s')) ∨ ∀ i < n, elemIdx i < byteCnt n / 8

/-- **The storage of a bitmap has room for all its bits** exactly if its size is not one of the
last 63 numbers of a `size_t`, or there is no memory for it. -/
theorem bitmapCreate_covered_iff (s : BitmapMemory) (memory : BitmapMalloc) (n : Nat)
    (hn : n < 2 ^ 64) : Covered s memory n ↔ n + 63 < 2 ^ 64 ∨ ¬ memory.Enough n := by
  rw [Covered, word_for_every_bit_iff hn]
  constructor
  · rintro (⟨s', hnull⟩ | hsum)
    · by_contra hboth
      obtain ⟨hwrap, hmemory⟩ := not_or.mp hboth
      rw [run_bitmapCreate_wraps s (not_not.mp hmemory) hn (by omega)] at hnull
      cases hnull
    · exact .inl hsum
  · rintro (hsum | hmemory)
    · exact .inr hsum
    · obtain ⟨s', hnull, _⟩ := run_bitmapCreate_fails s hmemory
      exact .inl ⟨s', hnull⟩

/-- The size that `create bitmap B -64` asks for still gets its words. -/
theorem bitmapCreate_covered_iff_minus64 : Covered .empty .zeroed (sizeTOfInt (-64)) :=
  (bitmapCreate_covered_iff .empty .zeroed (sizeTOfInt (-64)) (by decide)).mpr
    (.inl (by decide))

/-- `create bitmap B -1` gets an array without elements. -/
theorem create_minus1_not_covered :
    ¬ ∀ (s : BitmapMemory) (memory : BitmapMalloc) (n : Nat), n < 2 ^ 64 →
      Covered s memory n := by
  intro h
  rcases h .empty .zeroed (sizeTOfInt (-1)) (by decide) with ⟨s', hnull⟩ | hword
  · rw [run_bitmapCreate_wraps .empty (BitmapMalloc.enough_zeroed _) (by decide) (by decide)]
      at hnull
    cases hnull
  · exact absurd ((word_for_every_bit_iff (by decide)).mp hword) (by decide)

/-! ### Ranges -/

namespace Checked

variable {b : Bitmap} {idx start cnt : Nat} {value : Bool}

/-- Every `ASSERT` of the call holds. -/
abbrev Passes {β : Type} (call : Except Fault β) : Prop := Avoids Fault.assertion call

theorem passes_ASSERT {condition : Bool} (h : condition = true) : Passes (ASSERT condition) := by
  rw [h]
  exact avoids_ok _ _

theorem passes_elem (b : Bitmap) (idx : Nat) : Passes (elem b idx) := by
  rw [elem]
  split
  · exact avoids_ok _ _
  · exact fun h => by cases h

theorem passes_asm (b : Bitmap) (op : ElemType → ElemType → ElemType) (idx : Nat)
    (reg : ElemType) : Passes (asm b op idx reg) :=
  (passes_elem b idx).bind fun _ _ => avoids_pure _ _

theorem passes_set (hidx : idx < b.bitCnt) (value : Bool) : Passes (set b idx value) := by
  refine (passes_ASSERT (decide_eq_true hidx)).bind fun _ _ => ?_
  cases value
  · exact passes_asm _ _ _ _
  · exact passes_asm _ _ _ _

theorem passes_test (hidx : idx < b.bitCnt) : Passes (test b idx) :=
  (passes_ASSERT (decide_eq_true hidx)).bind fun _ _ =>
    (passes_elem _ _).bind fun _ _ => avoids_pure _ _

theorem assertRange_eq_ok : assertRange b start cnt = .ok () ↔
    start ≤ b.bitCnt ∧ sizeT (start + cnt) ≤ b.bitCnt := by
  rw [← toOption_eq_some, toOption_assertRange]
  split <;> simp [*]

/-- No index of the range fails the `ASSERT` of `bitmap_set` or `bitmap_test`. -/
structure Inside (b : Bitmap) (start cnt : Nat) : Prop where
  indices : ∀ i < cnt, sizeT (start + i) < b.bitCnt
  setMultiple : ∀ value, Passes (setMultiple b start cnt value)
  count : ∀ value, Passes (count b start cnt value)
  contains : ∀ value, Passes (contains b start cnt value)

/-- The bitmap keeps its size through the loop of `bitmap_set_multiple`. -/
theorem passes_setMultiple (hrange : assertRange b start cnt = .ok ())
    (hidx : ∀ i < cnt, sizeT (start + i) < b.bitCnt) (value : Bool) :
    Passes (setMultiple b start cnt value) := by
  rw [setMultiple, hrange]
  refine avoids_foldlM (I := SameSize b) (fun c i hi hc => ?_) (fun c i c' hc hset => ?_) (.refl b)
  · refine passes_set ?_ value
    rw [hc.bitCnt]
    exact hidx i (List.mem_range.mp hi)
  · exact hc.trans (of_set hset).2

theorem passes_countLoop {rounds i valueCnt : Nat}
    (hidx : ∀ k, i ≤ k → k < i + rounds → sizeT (start + k) < b.bitCnt) :
    Passes (countLoop b start value rounds i valueCnt) := by
  induction rounds generalizing i valueCnt with
  | zero => exact avoids_ok _ _
  | succ rounds ih =>
      refine (passes_test (hidx i (Nat.le_refl i) (by omega))).bind fun _ _ => ?_
      exact ih fun k hle hlt => hidx k (by omega) (by omega)

theorem passes_containsLoop {rounds i : Nat}
    (hidx : ∀ k, i ≤ k → k < i + rounds → sizeT (start + k) < b.bitCnt) :
    Passes (containsLoop b start value rounds i) := by
  induction rounds generalizing i with
  | zero => exact avoids_ok _ _
  | succ rounds ih =>
      refine (passes_test (hidx i (Nat.le_refl i) (by omega))).bind fun bit _ => ?_
      split
      · exact avoids_pure _ _
      · exact ih fun k hle hlt => hidx k (by omega) (by omega)

theorem inside_of_indices (hrange : assertRange b start cnt = .ok ())
    (hidx : ∀ i < cnt, sizeT (start + i) < b.bitCnt) : Inside b start cnt where
  indices := hidx
  setMultiple := passes_setMultiple hrange hidx
  count value := by
    rw [count, hrange]
    exact passes_countLoop fun k _ hk => hidx k (by omega)
  contains value := by
    rw [contains, hrange]
    exact passes_containsLoop fun k _ hk => hidx k (by omega)

end Checked

open Checked

/-- **The `ASSERT`s on a range are enough** exactly if its end does not wrap, or it begins behind
the last bit. -/
theorem rangeGuards_sound_iff (b : Bitmap) (start cnt : Nat) (hsize : b.bitCnt < 2 ^ 64)
    (hstart : start < 2 ^ 64) (hcnt : cnt < 2 ^ 64) :
    (assertRange b start cnt = .ok () → Inside b start cnt) ↔
      b.bitCnt < start ∨ start + cnt < 2 ^ 64 := by
  constructor
  · intro hsound
    by_contra hwrap
    obtain ⟨hle, hend⟩ := not_or.mp hwrap
    -- the wrapped end lies before the beginning, so both guards pass
    have hrange : assertRange b start cnt = .ok () := by
      rw [assertRange_eq_ok, sizeT]
      omega
    have hpast := (hsound hrange).indices (b.bitCnt - start) (by omega)
    rw [sizeT] at hpast
    omega
  · rintro hcases hrange
    obtain ⟨hle, hend⟩ := assertRange_eq_ok.mp hrange
    have hsum : start + cnt < 2 ^ 64 := hcases.resolve_left (Nat.not_lt.mpr hle)
    rw [sizeT, Nat.mod_eq_of_lt hsum] at hend
    refine inside_of_indices hrange fun i hi => ?_
    rw [sizeT]
    omega

theorem rangeGuards_sound_iff_tenBits : Inside ⟨10, [5]⟩ 5 3 :=
  (rangeGuards_sound_iff ⟨10, [5]⟩ 5 3 (by decide) (by decide) (by decide)).mpr
    (.inr (by decide)) rfl

/-- `bitmap_set_multiple B 5 -3 true` on 10 bits passes them, and goes on to bit 10. -/
theorem rangeGuards_minus3_not_sound :
    ¬ ∀ (b : Bitmap) (start cnt : Nat), b.bitCnt < 2 ^ 64 → start < 2 ^ 64 → cnt < 2 ^ 64 →
      assertRange b start cnt = .ok () → Inside b start cnt := by
  intro h
  have hinside := h ⟨10, [5]⟩ 5 (sizeTOfInt (-3)) (by decide) (by decide) (by decide) rfl
  exact absurd (hinside.indices 5 (by decide)) (by decide)

end SystemProgramming.Testlib
