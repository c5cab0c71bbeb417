import Mathlib.Algebra.Group.Nat.Defs
import Mathlib.Data.List.Basic

/-!
A list of words read as one sequence of bits, the lowest bit of a word first.
-/

namespace SystemProgramming.Library

variable {w : Nat}

/-- Bit `i` of the sequence; bits behind the last word read as false. -/
def bitAt (words : List (BitVec w)) (i : Nat) : Bool :=
  (words[i / w]?.getD 0).getLsbD (i % w)

theorem bitAt_set {words : List (BitVec w)} {k : Nat} (hk : k < words.length)
    (word : BitVec w) (i : Nat) :
    bitAt (words.set k word) i = if i / w = k then word.getLsbD (i % w) else bitAt words i := by
  unfold bitAt
  by_cases hi : i / w = k
  · rw [if_pos hi, hi, List.getElem?_set_self hk, Option.getD_some]
  · rw [if_neg hi, List.getElem?_set_ne (Ne.symm hi)]

/-- The sequence of its bits determines a list of words of its length. -/
theorem eq_of_bitAt (hw : 0 < w) {words words' : List (BitVec w)}
    (hlen : words'.length = words.length) (hbits : ∀ i, bitAt words' i = bitAt words i) :
    words' = words := by
  apply List.ext_getElem hlen
  intro k hk' hk
  ext r hr
  have hbit := hbits (w * k + r)
  simp only [bitAt, Nat.mul_add_div hw, Nat.div_eq_of_lt hr, Nat.add_zero, Nat.mul_add_mod,
    Nat.mod_eq_of_lt hr, List.getElem?_eq_getElem hk', List.getElem?_eq_getElem hk,
    Option.getD_some] at hbit
  simpa only [BitVec.getElem_eq_testBit_toNat, BitVec.getLsbD] using hbit

/-- A mask of one bit tests that bit. -/
theorem decide_and_bit (word : BitVec w) {k : Nat} (hk : k < w) :
    decide (word &&& (1#w <<< k) ≠ 0#w) = word.getLsbD k := by
  rw [← BitVec.twoPow_eq, BitVec.and_twoPow]
  have hne : BitVec.twoPow w k ≠ 0#w := by
    intro hzero
    have hbit := congrArg (fun v => v.getLsbD k) hzero
    simp [hk] at hbit
  cases word.getLsbD k <;> simp [hne]

theorem getLsbD_bit {k j : Nat} (hk : k < w) : (1#w <<< k).getLsbD j = decide (j = k) := by
  rw [← BitVec.twoPow_eq, BitVec.getLsbD_twoPow]
  by_cases hj : j = k
  · simp [hj, hk]
  · simp [hj, Ne.symm hj]

end SystemProgramming.Library
