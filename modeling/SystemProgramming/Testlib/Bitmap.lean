import SystemProgramming.Library.Words

/-!
`bitmap.c` on x86-64: elements are `unsigned long`, 64 bits wide, and the three
instructions `orl`, `andl` and `xorl` work on the low double word of the
element in memory and of the register.

A `size_t` is a number below 2^64, and its arithmetic wraps. An access outside
the array of elements and a failed `ASSERT` end in `none`.
-/

namespace SystemProgramming.Testlib

open SystemProgramming.Library

abbrev ElemType := BitVec 64

def ELEM_BITS : Nat := 64

/-- A result of type `size_t`. -/
def sizeT (x : Nat) : Nat := x % 2 ^ 64

def SIZE_MAX : Nat := 2 ^ 64 - 1

def BITMAP_ERROR : Nat := SIZE_MAX

structure Bitmap where
  bitCnt : Nat
  bits : List ElemType

def elemIdx (bitIdx : Nat) : Nat := bitIdx / ELEM_BITS

def bitMask (bitIdx : Nat) : ElemType := 1#64 <<< (bitIdx % ELEM_BITS)

/-- `DIV_ROUND_UP (bit_cnt, ELEM_BITS)`. -/
def elemCnt (bitCnt : Nat) : Nat := sizeT (bitCnt + ELEM_BITS - 1) / ELEM_BITS

/-- An instruction `opl %k1, %k0` on an element in memory and a register. -/
def dword (op : BitVec 32 → BitVec 32 → BitVec 32) (mem reg : ElemType) : ElemType :=
  mem.extractLsb' 32 32 ++ op (mem.extractLsb' 0 32) (reg.extractLsb' 0 32)

def orl : ElemType → ElemType → ElemType := dword (· ||| ·)

def andl : ElemType → ElemType → ElemType := dword (· &&& ·)

def xorl : ElemType → ElemType → ElemType := dword (· ^^^ ·)

namespace Bitmap

/-- An instruction on `b->bits[idx]` and a register. -/
def asm (b : Bitmap) (op : ElemType → ElemType → ElemType) (idx : Nat) (reg : ElemType) :
    Option Bitmap :=
  b.bits[idx]?.map fun elem => { b with bits := b.bits.set idx (op elem reg) }

def mark (b : Bitmap) (bitIdx : Nat) : Option Bitmap :=
  b.asm orl (elemIdx bitIdx) (bitMask bitIdx)

def reset (b : Bitmap) (bitIdx : Nat) : Option Bitmap :=
  b.asm andl (elemIdx bitIdx) (~~~ bitMask bitIdx)

def flip (b : Bitmap) (bitIdx : Nat) : Option Bitmap :=
  b.asm xorl (elemIdx bitIdx) (bitMask bitIdx)

def set (b : Bitmap) (idx : Nat) (value : Bool) : Option Bitmap :=
  if idx < b.bitCnt then if value then b.mark idx else b.reset idx else none

def test (b : Bitmap) (idx : Nat) : Option Bool :=
  if idx < b.bitCnt then
    b.bits[elemIdx idx]?.map fun elem => decide (elem &&& bitMask idx ≠ 0#64)
  else none

def setMultiple (b : Bitmap) (start cnt : Nat) (value : Bool) : Option Bitmap :=
  if start ≤ b.bitCnt ∧ sizeT (start + cnt) ≤ b.bitCnt then
    (List.range cnt).foldlM (fun b i => b.set (sizeT (start + i)) value) b
  else none

def setAll (b : Bitmap) (value : Bool) : Option Bitmap := b.setMultiple 0 b.bitCnt value

/-- The loop of `bitmap_count` with `cnt - i` rounds to go. -/
def countLoop (b : Bitmap) (start : Nat) (value : Bool) : Nat → Nat → Nat → Option Nat
  | 0, _, valueCnt => some valueCnt
  | rounds + 1, i, valueCnt =>
      (b.test (sizeT (start + i))).bind fun bit =>
        b.countLoop start value rounds (i + 1)
          (if bit = value then sizeT (valueCnt + 1) else valueCnt)

def count (b : Bitmap) (start cnt : Nat) (value : Bool) : Option Nat :=
  if start ≤ b.bitCnt ∧ sizeT (start + cnt) ≤ b.bitCnt then b.countLoop start value cnt 0 0
  else none

/-- The loop of `bitmap_contains` with `cnt - i` rounds to go. -/
def containsLoop (b : Bitmap) (start : Nat) (value : Bool) : Nat → Nat → Option Bool
  | 0, _ => some false
  | rounds + 1, i =>
      (b.test (sizeT (start + i))).bind fun bit =>
        if bit = value then some true else b.containsLoop start value rounds (i + 1)

def contains (b : Bitmap) (start cnt : Nat) (value : Bool) : Option Bool :=
  if start ≤ b.bitCnt ∧ sizeT (start + cnt) ≤ b.bitCnt then b.containsLoop start value cnt 0
  else none

def any (b : Bitmap) (start cnt : Nat) : Option Bool := b.contains start cnt true

protected def none (b : Bitmap) (start cnt : Nat) : Option Bool :=
  (b.contains start cnt true).map not

def all (b : Bitmap) (start cnt : Nat) : Option Bool := (b.contains start cnt false).map not

/-- The loop of `bitmap_scan` with `last + 1 - i` rounds to go. -/
def scanLoop (b : Bitmap) (cnt : Nat) (value : Bool) : Nat → Nat → Option Nat
  | 0, _ => some BITMAP_ERROR
  | rounds + 1, i =>
      (b.contains i cnt !value).bind fun found =>
        if found then b.scanLoop cnt value rounds (i + 1) else some i

def scan (b : Bitmap) (start cnt : Nat) (value : Bool) : Option Nat :=
  if start ≤ b.bitCnt then
    if cnt ≤ b.bitCnt then b.scanLoop cnt value (b.bitCnt - cnt + 1 - start) start
    else some BITMAP_ERROR
  else none

def scanAndFlip (b : Bitmap) (start cnt : Nat) (value : Bool) : Option (Nat × Bitmap) :=
  (b.scan start cnt value).bind fun idx =>
    if idx ≠ BITMAP_ERROR then (b.setMultiple idx cnt !value).map fun b => (idx, b)
    else some (idx, b)

/-- `bitmap_create` when both calls of `malloc` succeed; `content` is what the array of
elements holds then. -/
def create (bitCnt : Nat) (content : Nat → ElemType) : Option Bitmap :=
  ({ bitCnt := bitCnt, bits := (List.range (elemCnt bitCnt)).map content } : Bitmap).setAll false

/-- A bitmap as `bitmap_create` makes it: a number of bits that is a `size_t`, and the array
of elements for it, which has room for them all. -/
structure Valid (b : Bitmap) : Prop where
  size : b.bitCnt < 2 ^ 64
  length : b.bits.length = elemCnt b.bitCnt
  room : b.bitCnt ≤ ELEM_BITS * b.bits.length

/-! ### Reading the bits -/

/-- The bit `bitmap_test` reads, without its checks. -/
def bit (b : Bitmap) (i : Nat) : Bool := bitAt b.bits i

end Bitmap

theorem getLsbD_dword {op : BitVec 32 → BitVec 32 → BitVec 32} {f : Bool → Bool → Bool}
    (hop : ∀ x y k, k < 32 → (op x y).getLsbD k = f (x.getLsbD k) (y.getLsbD k))
    (mem reg : ElemType) {k : Nat} (hk : k < 64) :
    (dword op mem reg).getLsbD k =
      if k < 32 then f (mem.getLsbD k) (reg.getLsbD k) else mem.getLsbD k := by
  unfold dword
  rw [BitVec.getLsbD_append]
  by_cases hlow : k < 32
  · rw [if_pos hlow, if_pos hlow, hop _ _ _ hlow]
    simp [hlow]
  · rw [if_neg hlow, if_neg hlow, BitVec.getLsbD_extractLsb', ← Nat.add_sub_assoc (by omega),
      Nat.add_sub_cancel_left]
    simp only [Bool.and_eq_right_iff_imp, decide_eq_true_eq]
    omega

end SystemProgramming.Testlib
