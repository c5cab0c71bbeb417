import Mathlib.Logic.Function.Basic

/-!
Steps that mix the bits of a word and lose nothing.
-/

namespace SystemProgramming.Library

variable {w k : Nat} {c d : BitVec w}

/-- A word with its high part xored onto its low part. -/
def xorShift (k : Nat) (x : BitVec w) : BitVec w := (x >>> k) ^^^ x

/-- Done twice it changes nothing, if the shift by `k` takes at least half of the word away. -/
theorem xorShift_involutive (hk : w ≤ 2 * k) : Function.Involutive (xorShift (w := w) k) := by
  intro x
  have hgone : x >>> k >>> k = 0#w := by
    rw [← BitVec.shiftRight_add]
    exact BitVec.ushiftRight_eq_zero (by omega)
  calc xorShift k (xorShift k x)
      = ((x >>> k >>> k) ^^^ (x >>> k)) ^^^ ((x >>> k) ^^^ x) := by
        rw [xorShift, xorShift, BitVec.ushiftRight_xor_distrib]
    _ = ((x >>> k) ^^^ (x >>> k)) ^^^ x := by rw [hgone, BitVec.zero_xor, BitVec.xor_assoc]
    _ = x := by rw [BitVec.xor_self, BitVec.zero_xor]

/-- A constant with an inverse can be divided out. -/
theorem mul_bijective (h : c * d = 1#w) : Function.Bijective fun x : BitVec w => x * c := by
  have hback (x : BitVec w) {c d : BitVec w} (h : c * d = 1#w) : x * c * d = x := by
    rw [BitVec.mul_assoc, h, BitVec.mul_one]
  exact Function.bijective_iff_has_inverse.mpr
    ⟨fun x => x * d, fun x => hback x h, fun x => hback x ((BitVec.mul_comm d c).trans h)⟩

end SystemProgramming.Library
