import SystemProgramming.Testlib.BitmapCommands
import SystemProgramming.Testlib.DumpText

/-!
What `bitmap_dump` shows of a bitmap. It prints half of the bytes of the elements,
from the first on. That is enough as long as one element has room for the bits
twice, and never again: the elements grow by eight bytes and the dump by four.
-/

namespace SystemProgramming.Testlib

open SystemProgramming.Library

variable {b : Bitmap} {i k : Nat}

/-- The byte `k` of the elements. -/
def Bitmap.byte (b : Bitmap) (k : Nat) : Byte :=
  (b.bits[k / 8]?.getD 0).extractLsb' (8 * (k % 8)) 8

theorem Bitmap.Valid.elemCnt_eq (hb : b.Valid) : elemCnt b.bitCnt = (b.bitCnt + 63) / 64 := by
  rw [elemCnt, sizeT, ELEM_BITS]
  exact congrArg (· / 64) (Nat.mod_eq_of_lt hb.lt)

namespace Checked

theorem byteAt_eq (hk : k / 8 < b.bits.length) : byteAt b k = .ok (b.byte k) := by
  rw [byteAt, elem, Bitmap.byte, List.getElem?_eq_getElem hk]
  rfl

theorem mapM_byteAt {ks : List Nat} (hks : ∀ k ∈ ks, k / 8 < b.bits.length) :
    ks.mapM (byteAt b) = .ok (ks.map b.byte) := by
  induction ks with
  | nil => rfl
  | cons k ks ih =>
      rw [List.mapM_cons, byteAt_eq (hks k List.mem_cons_self),
        ih fun j hj => hks j (List.mem_cons_of_mem k hj)]
      rfl

/-- The bytes that `bitmap_dump` prints. -/
theorem dump_eq (hb : b.Valid) : dump b =
    .ok (hexDump 0 ((List.range (4 * elemCnt b.bitCnt)).map b.byte) false) := by
  have hcnt : byteCnt b.bitCnt / 2 = 4 * elemCnt b.bitCnt := by
    have hlt := hb.lt
    rw [hb.elemCnt_eq, byteCnt, hb.elemCnt_eq, sizeT]
    omega
  rw [dump, hcnt, mapM_byteAt]
  · rfl
  · intro k hk
    rw [List.mem_range] at hk
    rw [hb.length]
    omega

end Checked

/-- A bit of the bitmap is a bit of its byte. -/
theorem Bitmap.getLsbD_byte (b : Bitmap) (i : Nat) :
    (b.byte (i / 8)).getLsbD (i % 8) = b.bit i := by
  have hdiv : i / 8 / 8 = i / 64 := Nat.div_div_eq_div_mul ..
  have hmod : 8 * (i / 8 % 8) + i % 8 = i % 64 := by omega
  have hlt : i % 8 < 8 := Nat.mod_lt _ (by decide)
  rw [byte, bit, bitAt, BitVec.getLsbD_extractLsb', hdiv, hmod, decide_eq_true hlt, Bool.true_and]

/-- The text of the dump has the byte of every bit, and tells two bitmaps with different bits
apart. -/
structure DumpShows (b : Bitmap) : Prop where
  bits : ∃ text, Checked.dump b = .ok text ∧ ∀ i < b.bitCnt, ∃ byte,
    (readDump text)[i / 8]? = some byte ∧ Checked.byteAt b (i / 8) = .ok byte ∧
      b.test i = some (byte.getLsbD (i % 8))
  determined : ∀ b' : Bitmap, b'.Valid → b'.bitCnt = b.bitCnt →
    Checked.dump b' = Checked.dump b → ∀ i < b.bitCnt, b'.test i = b.test i

theorem getElem?_readDump (b : Bitmap) (n k : Nat) :
    (readDump (hexDump 0 ((List.range n).map b.byte) false))[k]? =
      if k < n then some (b.byte k) else none := by
  rw [readDump_hexDump, List.getElem?_map]
  split
  · next hk => simp [hk]
  · next hk => simp [hk]

/-- **`bitmap_dump` shows every bit** of the bitmaps with up to 32 bits, and of no other. -/
theorem bitmap_dump_shows_iff (hb : b.Valid) : DumpShows b ↔ b.bitCnt ≤ 32 := by
  have hcnt := hb.elemCnt_eq
  constructor
  · rintro ⟨⟨text, htext, hbits⟩, -⟩
    by_contra hmany
    -- the byte of the last bit is behind the bytes of the dump
    have hbehind : ¬ (b.bitCnt - 1) / 8 < 4 * elemCnt b.bitCnt := by omega
    obtain ⟨byte, hbyte, -⟩ := hbits (b.bitCnt - 1) (by omega)
    rw [Checked.dump_eq hb] at htext
    rw [← Except.ok.inj htext, getElem?_readDump, if_neg hbehind] at hbyte
    cases hbyte
  · intro hfew
    have hprinted (i : Nat) (hi : i < b.bitCnt) : i / 8 < 4 * elemCnt b.bitCnt := by omega
    refine ⟨⟨_, Checked.dump_eq hb, fun i hi => ⟨b.byte (i / 8), ?_, ?_, ?_⟩⟩, ?_⟩
    · rw [getElem?_readDump, if_pos (hprinted i hi)]
    · have hlt := hprinted i hi
      exact Checked.byteAt_eq (by rw [hb.length]; omega)
    · rw [b.getLsbD_byte, Bitmap.test_spec hb.sized hi]
    · intro b' hb' hsize hdump i hi
      rw [Checked.dump_eq hb, Checked.dump_eq hb', hsize] at hdump
      have hbytes := congrArg (fun text => (readDump text)[i / 8]?) (Except.ok.inj hdump)
      simp only [getElem?_readDump, if_pos (hprinted i hi), Option.some.injEq] at hbytes
      rw [Bitmap.test_spec hb.sized hi, Bitmap.test_spec hb'.sized (hsize ▸ hi),
        ← b.getLsbD_byte, ← b'.getLsbD_byte, hbytes]

theorem bitmap_dump_shows_iff_sixteen : DumpShows ⟨16, [0x83a1]⟩ ↔ 16 ≤ 32 :=
  bitmap_dump_shows_iff ⟨by decide, by decide, by decide⟩

/-- Bit 64 of 128 is not shown. -/
theorem bitmap_dump_hides : ¬ ∀ b : Bitmap, b.Valid → DumpShows b := by
  intro h
  have hshows := (h ⟨128, [0, 1]⟩ ⟨by decide, by decide, by decide⟩).determined ⟨128, [0, 0]⟩
    ⟨by decide, by decide, by decide⟩ rfl (by decide +kernel) 64 (by decide)
  revert hshows
  decide

end SystemProgramming.Testlib
