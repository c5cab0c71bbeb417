import Mathlib.Algebra.Group.Nat.Defs
import Mathlib.Data.List.Basic
import Mathlib.Data.List.Perm.Basic
import Mathlib.Logic.Function.Basic
import Mathlib.Order.Bounds.Basic

/-!
The elements of a row of buckets, and the powers of two their number is kept at.
-/

namespace SystemProgramming.Library

variable {ε : Type*}

/-! ### What a row of buckets holds -/

/-- The elements of the first `n` rows. -/
def pool (rows : Nat → List ε) (n : Nat) : List ε := (List.range n).flatMap rows

variable {rows : Nat → List ε} {n i : Nat} {x : ε}

theorem pool_succ (rows : Nat → List ε) (n : Nat) : pool rows (n + 1) = pool rows n ++ rows n := by
  simp [pool, List.range_succ]

theorem mem_pool : x ∈ pool rows n ↔ ∃ i < n, x ∈ rows i := by simp [pool]

theorem pool_congr {rows' : Nat → List ε} (hrows : ∀ i < n, rows i = rows' i) :
    pool rows n = pool rows' n :=
  List.flatMap_congr fun i hi => hrows i (List.mem_range.mp hi)

theorem pool_eq_nil (hrows : ∀ i < n, rows i = []) : pool rows n = [] :=
  List.flatMap_eq_nil_iff.mpr fun i hi => hrows i (List.mem_range.mp hi)

/-- The elements of the rows from `i` on. -/
def poolFrom (rows : Nat → List ε) (i n : Nat) : List ε := (List.range' i (n - i)).flatMap rows

theorem poolFrom_zero (rows : Nat → List ε) (n : Nat) : poolFrom rows 0 n = pool rows n := by
  rw [poolFrom, pool, List.range_eq_range', Nat.sub_zero]

theorem poolFrom_of_le (rows : Nat → List ε) (hni : n ≤ i) : poolFrom rows i n = [] := by
  rw [poolFrom, Nat.sub_eq_zero_of_le hni]
  rfl

theorem poolFrom_of_lt (rows : Nat → List ε) (hi : i < n) :
    poolFrom rows i n = rows i ++ poolFrom rows (i + 1) n := by
  rw [poolFrom, poolFrom, show n - i = n - (i + 1) + 1 by omega, List.range'_succ,
    List.flatMap_cons]

/-- Replacing a row replaces its elements. -/
theorem pool_update (rows : Nat → List ε) (hi : i < n) (xs : List ε) :
    (xs ++ pool rows n).Perm (rows i ++ pool (Function.update rows i xs) n) := by
  induction n with
  | zero => exact absurd hi (Nat.not_lt_zero i)
  | succ n ih =>
      rw [pool_succ, pool_succ]
      by_cases hin : i = n
      · subst hin
        have hsame : pool (Function.update rows i xs) i = pool rows i :=
          pool_congr fun j hj => Function.update_of_ne (Nat.ne_of_lt hj) ..
        rw [Function.update_self, hsame]
        have hswap : (xs ++ pool rows i ++ rows i).Perm (rows i ++ (xs ++ pool rows i)) :=
          List.perm_append_comm
        rw [List.append_assoc] at hswap
        exact hswap.trans (List.Perm.append_left _ List.perm_append_comm)
      · rw [Function.update_of_ne (Ne.symm hin), ← List.append_assoc, ← List.append_assoc]
        exact (ih (by omega)).append_right _

theorem pool_insert (rows : Nat → List ε) (hi : i < n) (x : ε) :
    (pool (Function.update rows i (x :: rows i)) n).Perm (x :: pool rows n) := by
  have hupdate := pool_update rows hi (x :: rows i)
  rw [List.cons_append] at hupdate
  have hfront : (rows i ++ x :: pool rows n).Perm (x :: (rows i ++ pool rows n)) :=
    List.perm_middle
  exact (List.perm_append_left_iff _).mp (hfront.trans hupdate).symm

theorem pool_remove (rows : Nat → List ε) (hi : i < n) {A B : List ε} (hAB : rows i = A ++ x :: B) :
    (pool rows n).Perm (x :: pool (Function.update rows i (A ++ B)) n) := by
  have hupdate := pool_update rows hi (A ++ B)
  rw [hAB] at hupdate
  have hfront : (A ++ x :: B ++ pool (Function.update rows i (A ++ B)) n).Perm
      (A ++ B ++ x :: pool (Function.update rows i (A ++ B)) n) := by
    rw [List.append_assoc, List.append_assoc, List.cons_append]
    exact List.Perm.append_left _ List.perm_middle.symm
  exact (List.perm_append_left_iff _).mp (hupdate.trans hfront)

/-! ### Powers of two -/

/-- Turning off the lowest bit leaves the highest one on, if it is another. -/
theorem two_pow_log2_le_and {x : Nat} (hx : x ≠ 0) (hpow : x ≠ 2 ^ x.log2) :
    2 ^ x.log2 ≤ x &&& (x - 1) := by
  have hle := Nat.log2_self_le hx
  have hlt := Nat.lt_log2_self (n := x)
  have hbit {y : Nat} (hy : 2 ^ x.log2 ≤ y) (hy' : y < 2 ^ (x.log2 + 1)) :
      y.testBit x.log2 = true := by
    rw [Nat.testBit_eq_decide_div_mod_eq, decide_eq_true_iff]
    have hdiv : y / 2 ^ x.log2 = 1 := by
      rw [Nat.pow_succ] at hy'
      exact Nat.div_eq_of_lt_le (by omega) (by omega)
    rw [hdiv]
  refine Nat.ge_two_pow_of_testBit ?_
  rw [Nat.testBit_and, hbit hle hlt, hbit (by omega) (by omega)]
  rfl

theorem log2_eq_of_le {x y : Nat} (hle : 2 ^ x.log2 ≤ y) (hyx : y ≤ x) : y.log2 = x.log2 := by
  have hy : y ≠ 0 := Nat.ne_of_gt (Nat.lt_of_lt_of_le (Nat.two_pow_pos _) hle)
  have hlt := Nat.lt_log2_self (n := x)
  exact (Nat.log2_eq_iff hy).mpr ⟨hle, by omega⟩

theorem and_pred_eq_zero_iff {x : Nat} (hx : x ≠ 0) : x &&& (x - 1) = 0 ↔ x = 2 ^ x.log2 := by
  constructor
  · intro hzero
    by_contra hpow
    have hle := two_pow_log2_le_and hx hpow
    have hpos := Nat.two_pow_pos x.log2
    omega
  · intro hpow
    rw [hpow, Nat.and_two_pow_sub_one_eq_mod, Nat.mod_self]

theorem isGreatest_two_pow_log2 {x : Nat} (hx : x ≠ 0) :
    IsGreatest {p | (∃ k, p = 2 ^ k) ∧ p ≤ x} (2 ^ x.log2) := by
  refine ⟨⟨⟨_, rfl⟩, Nat.log2_self_le hx⟩, ?_⟩
  rintro _ ⟨⟨k, rfl⟩, hle⟩
  exact Nat.pow_le_pow_right Nat.zero_lt_two ((Nat.le_log2 hx).mpr hle)

end SystemProgramming.Library
