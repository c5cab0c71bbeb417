import SystemProgramming.Testlib.BitmapDump
import SystemProgramming.Testlib.Progress

/-!
The bitmap commands on a sequence of booleans. `BitmapCommand.leaves` and
`BitmapCommand.Prints` say what a command does, without elements, masks and
memory. Two things of the machine remain: an instruction does not reach the
upper half of an element, and what is not reached is what `malloc` left there.
-/

namespace SystemProgramming.Testlib

open SystemProgramming.CLib SystemProgramming.Library BitmapMemory

/-! ### Sequences -/

/-- An entry of a sequence, off behind its end. -/
def bitOf (bits : List Bool) (i : Nat) : Bool := bits.getD i false

/-- The entries that the instructions reach become those of `a`. -/
def overwrite (bits : List Bool) (a : Nat → Bool) : List Bool :=
  (List.range bits.length).map fun i => if i % ELEM_BITS < 32 then a i else bitOf bits i

/-- A new sequence of `n` entries, with those of `bits` copied to its front. -/
def BitmapMalloc.extended (memory : BitmapMalloc) (n : Nat) (bits : List Bool) : List Bool :=
  (List.range n).map fun i => if i % ELEM_BITS < 32 then bitOf bits i else memory.bit i

/-- The entries `start` to `start + cnt - 1`. -/
def bitsFrom (bits : List Bool) (start cnt : Nat) : List Bool := (bits.drop start).take cnt

theorem BitmapMalloc.enough_iff {memory : BitmapMalloc} {n : Nat} :
    memory.Enough n ↔ memory.cell.isSome = true ∧ (memory.bits.isSome = true ∨ n = 0) := by
  rw [Option.isSome_iff_ne_none, Option.isSome_iff_ne_none]
  exact Iff.rfl

instance (memory : BitmapMalloc) (n : Nat) : Decidable (memory.Enough n) :=
  decidable_of_iff _ BitmapMalloc.enough_iff.symm

namespace BitmapCommand

/-- The call of a command that changes bits where they are. -/
def op : BitmapCommand → Option BitmapOp
  | mark idx => some (.mark idx)
  | reset idx => some (.reset idx)
  | flip idx => some (.flip idx)
  | set idx value => some (.set idx value)
  | setAll value => some (.setAll value)
  | setMultiple start cnt value => some (.setMultiple start cnt value)
  | scanAndFlip start cnt value => some (.scanAndFlip start cnt value)
  | test _ | count _ _ _ | contains _ _ _ | any _ _ | none _ _ | all _ _ | scan _ _ _ | size
  | dump | expand _ => .none

/-- The sequence after a command. -/
def leaves (memory : BitmapMalloc) (bits : List Bool) (c : BitmapCommand) : List Bool :=
  match c with
  | expand more =>
      let newSize := sizeT (bits.length + sizeTOfInt more)
      if memory.Enough newSize then memory.extended newSize bits else bits
  | c => c.op.elim bits fun op => overwrite bits (op.apply bits.length (bitOf bits))

/-- What a command may print. The dump has bytes for the first half of the elements; they show
what is behind the last bit, too. -/
def Prints (bits : List Bool) (c : BitmapCommand) (text : String) : Prop :=
  match c with
  | test idx => text = boolText (bitOf bits idx)
  | count start cnt value => text = sizeText ((bitsFrom bits start cnt).count value)
  | contains start cnt value => text = boolText (value ∈ bitsFrom bits start cnt)
  | any start cnt => text = boolText (true ∈ bitsFrom bits start cnt)
  | none start cnt => text = boolText (true ∉ bitsFrom bits start cnt)
  | all start cnt => text = boolText (false ∉ bitsFrom bits start cnt)
  | scan start cnt value | scanAndFlip start cnt value =>
      text = sizeText ((firstGroup bits.length (bitOf bits) start cnt value).getD BITMAP_ERROR)
  | size => text = sizeText bits.length
  | dump => ∃ bytes : List Byte, text = hexDump 0 bytes false ∧
      bytes.length = 4 * elemCnt bits.length ∧
      ∀ i < bits.length, ∀ byte ∈ bytes[i / 8]?, byte.getLsbD (i % 8) = bitOf bits i
  | mark _ | reset _ | flip _ | set _ _ | setAll _ | setMultiple _ _ _ | expand _ => text = ""

end BitmapCommand

/-! ### The sequence of a bitmap -/

/-- The sequence of bits that `bitmap_test` reads. -/
def Bitmap.shown (b : Bitmap) : List Bool := (List.range b.bitCnt).map b.bit

section Shown

variable {b b' : Bitmap} {i start cnt : Nat} {value : Bool} {a : Nat → Bool}

@[simp] theorem length_shown (b : Bitmap) : b.shown.length = b.bitCnt := by
  rw [Bitmap.shown, List.length_map, List.length_range]

theorem bitOf_shown (hi : i < b.bitCnt) : bitOf b.shown i = b.bit i := by
  simp [bitOf, Bitmap.shown, hi]

theorem bitOf_shown_of_le (hi : b.bitCnt ≤ i) : bitOf b.shown i = false := by
  simp [bitOf, Bitmap.shown, hi]

theorem bitsFrom_shown (h : start + cnt ≤ b.bitCnt) :
    bitsFrom b.shown start cnt = (List.range' start cnt).map b.bit := by
  rw [bitsFrom, Bitmap.shown, ← List.map_drop, ← List.map_take, List.range_eq_range',
    List.drop_range', List.take_range'_of_length_ge (by omega), Nat.zero_add, Nat.mul_one]

theorem mem_bitsFrom (h : start + cnt ≤ b.bitCnt) :
    value ∈ bitsFrom b.shown start cnt ↔ ∃ j < cnt, b.bit (start + j) = value := by
  rw [bitsFrom_shown h, List.mem_map]
  constructor
  · rintro ⟨i, hi, rfl⟩
    obtain ⟨j, hj, rfl⟩ := List.mem_range'.mp hi
    exact ⟨j, hj, by rw [Nat.one_mul]⟩
  · rintro ⟨j, hj, rfl⟩
    exact ⟨start + j, List.mem_range'.mpr ⟨j, hj, by rw [Nat.one_mul]⟩, rfl⟩

theorem count_bitsFrom (h : start + cnt ≤ b.bitCnt) (value : Bool) :
    (bitsFrom b.shown start cnt).count value = b.countBits start cnt value := by
  rw [bitsFrom_shown h, List.count, List.countP_map, Bitmap.countBits]
  refine List.countP_congr fun i _ => ?_
  simp

theorem firstGroup_shown (start cnt : Nat) (value : Bool) :
    firstGroup b.bitCnt (bitOf b.shown) start cnt value =
      firstGroup b.bitCnt b.bit start cnt value := by
  unfold firstGroup
  congr 1
  funext k
  refine decide_eq_decide.mpr (and_congr_right fun _ => and_congr_right fun hk => ?_)
  refine forall₂_congr fun j hj => ?_
  rw [bitOf_shown (by omega)]

/-- An update of the low bits is one of the sequence. -/
theorem Bitmap.LowUpdate.shown {op : BitmapOp}
    (h : b.LowUpdate b' (op.apply b.bitCnt b.bit)) :
    b'.shown = overwrite b.shown (op.apply b.shown.length (bitOf b.shown)) := by
  rw [overwrite, length_shown, Bitmap.shown, h.bitCnt]
  refine List.map_congr_left fun i hi => ?_
  have hi : i < b.bitCnt := List.mem_range.mp hi
  rw [h.bits, ELEM_BITS, bitOf_shown hi, op.apply_congr (fun j hj => bitOf_shown hj) hi]

end Shown

/-! ### The commands -/

namespace Checked

variable {b : Bitmap} {start cnt : Nat} {value : Bool}

theorem toOption_countLoop (b : Bitmap) (start : Nat) (value : Bool) (rounds i valueCnt : Nat) :
    (countLoop b start value rounds i valueCnt).toOption =
      b.countLoop start value rounds i valueCnt := by
  induction rounds generalizing i valueCnt with
  | zero => rfl
  | succ rounds ih =>
      rw [countLoop, toOption_bind, toOption_test, Bitmap.countLoop]
      congr 1
      funext bit
      exact ih _ _

theorem count_eq (hb : b.Valid) (h : start + cnt ≤ b.bitCnt) (value : Bool) :
    count b start cnt value = .ok (b.countBits start cnt value) := by
  refine toOption_eq_some.mp (Eq.trans ?_ (Bitmap.count_spec hb.sized hb.size h value))
  rw [count, toOption_bind, toOption_assertRange, Bitmap.count]
  split
  · exact toOption_countLoop b start value cnt 0 0
  · rfl

theorem contains_eq (hb : b.Valid) (h : start + cnt ≤ b.bitCnt) (value : Bool) :
    contains b start cnt value = .ok (decide (value ∈ bitsFrom b.shown start cnt)) := by
  refine toOption_eq_some.mp ((toOption_contains b start cnt value).trans ?_)
  rw [Bitmap.contains_spec hb.sized hb.size h value]
  simp only [mem_bitsFrom h]

end Checked

namespace BitmapMemory

variable {s s' : BitmapMemory} {p : Nat} {a : Option Nat} {b b' : Bitmap} {β : Type}
  {bitmap : Option Nat} {bits : List Bool} {c : BitmapCommand} {memory : BitmapMalloc}

/-- The bitmap has the bits of the sequence. -/
def Shows (s : BitmapMemory) (bitmap : Option Nat) (bits : List Bool) : Prop :=
  ∃ p a b, bitmap = some p ∧ Stored s p a b ∧ b.shown = bits

theorem Stored.shows (h : Stored s p a b) : s.Shows (some p) b.shown := ⟨p, a, b, rfl, h, rfl⟩

/-- What a command may do on a bitmap. -/
def Does (s : BitmapMemory) (p : Nat) (memory : BitmapMalloc) (b : Bitmap) (c : BitmapCommand) :
    Prop :=
  ∃ text bitmap s', (doBitmapCommand memory (some p) c).run s = .ok ((text, bitmap), s') ∧
    c.Prints b.shown text ∧ s'.Shows bitmap (c.leaves memory b.shown)

/-- A command that only reads. -/
theorem Stored.does_read (h : Stored s p a b) {f : Bitmap → Except Fault β} {x : β}
    (hf : f b = .ok x) (text : β → String)
    (hrun : doBitmapCommand memory (some p) c =
      (do return (text (← readBitmap (some p) f), some p) : BitmapProg _))
    (hprints : c.Prints b.shown (text x)) (hsame : c.leaves memory b.shown = b.shown) :
    Does s p memory b c := by
  refine ⟨text x, some p, s, ?_, hprints, ?_⟩
  · rw [hrun, run_bind_of_ok (h.run_read hf)]
    rfl
  · rw [hsame]
    exact h.shows

/-- A command that changes bits, and returns nothing. -/
theorem Stored.does_update (h : Stored s p a b) (hvalid : b.Valid) (op : BitmapOp)
    {f : Bitmap → Except Fault Bitmap} (hf : (f b).toOption = op.run b)
    (hop : op.InRange b.bitCnt)
    (hrun : doBitmapCommand memory (some p) c = (do
      updateBitmap (some p) f
      return ("", some p) : BitmapProg _))
    (hprints : c.Prints b.shown "")
    (hleaves : c.leaves memory b.shown =
      overwrite b.shown (op.apply b.shown.length (bitOf b.shown))) : Does s p memory b c := by
  obtain ⟨b', hb', hup⟩ := exists_ok_of_toOption hf (BitmapOp.run_spec hvalid.sized hvalid.lt hop)
  obtain ⟨s', hupdate, hstored, -⟩ := h.run_update hb' hup.bitCnt hup.length
  refine ⟨"", some p, s', ?_, hprints, ?_⟩
  · rw [hrun, run_bind_of_ok hupdate]
    rfl
  · rw [hleaves, ← hup.shown]
    exact hstored.shows

/-- `bitmap_scan_and_flip` returns what `bitmap_scan` finds. -/
theorem Stored.does_scanAndFlip (h : Stored s p a b) (hvalid : b.Valid) {start cnt : Nat}
    {value : Bool} (hrange : start ≤ b.bitCnt) :
    Does s p memory b (.scanAndFlip start cnt value) := by
  obtain ⟨⟨idx, b'⟩, hflip⟩ := Checked.exists_scanAndFlip hvalid hrange cnt value
  have hidx : idx = (firstGroup b.bitCnt b.bit start cnt value).getD BITMAP_ERROR := by
    obtain ⟨found, hscan, hrest⟩ := bind_eq_ok.mp hflip
    rw [Checked.scan_eq hvalid hrange] at hscan
    rw [Except.ok.inj hscan]
    split at hrest
    · obtain ⟨b'', -, heq⟩ := bind_eq_ok.mp hrest
      exact (Prod.mk.inj (Except.ok.inj heq)).1.symm
    · exact (Prod.mk.inj (Except.ok.inj hrest)).1.symm
  have hrun : (BitmapOp.scanAndFlip start cnt value).run b = some b' := by
    rw [BitmapOp.run, ← Checked.toOption_scanAndFlip, hflip]
    rfl
  have hop : (BitmapOp.scanAndFlip start cnt value).InRange b.bitCnt := hrange
  obtain ⟨b'', hrun', hup⟩ := BitmapOp.run_spec hvalid.sized hvalid.lt hop
  obtain rfl : b' = b'' := Option.some.inj (hrun.symm.trans hrun')
  obtain ⟨s', hchange, hstored, -⟩ := h.run_change
    (f := fun b => Checked.scanAndFlip b start cnt value) hflip hup.bitCnt hup.length
  refine ⟨sizeText idx, some p, s', ?_, ?_, ?_⟩
  · rw [doBitmapCommand, run_bind_of_ok hchange]
    rfl
  · rw [BitmapCommand.Prints, length_shown, firstGroup_shown, hidx]
  · have hshown := hstored.shows
    rw [hup.shown] at hshown
    exact hshown

/-- The dump has the bits in its bytes. -/
theorem Stored.does_dump (h : Stored s p a b) (hvalid : b.Valid) : Does s p memory b .dump := by
  refine h.does_read (Checked.dump_eq hvalid) id rfl ⟨_, rfl, by simp, fun i hi byte hbyte => ?_⟩
    rfl
  rw [length_shown] at hi
  rw [List.getElem?_map, Option.mem_def, Option.map_eq_some_iff] at hbyte
  obtain ⟨k, hk, rfl⟩ := hbyte
  obtain ⟨_, rfl⟩ := List.getElem?_eq_some_iff.mp hk
  rw [List.getElem_range, Bitmap.getLsbD_byte, bitOf_shown hi]

/-- A new bitmap takes the place of the old one. -/
theorem Stored.does_expand (h : Stored s p a b) (hvalid : b.Valid) {more : Int}
    (hgrows : Grows memory b more) : Does s p memory b (.expand more) := by
  by_cases hmemory : memory.Enough (sizeT (b.bitCnt + sizeTOfInt more))
  · have hlt := hgrows hmemory
    have hwrap : sizeT (b.bitCnt + sizeTOfInt more) = b.bitCnt + sizeTOfInt more :=
      Nat.mod_eq_of_lt (by omega)
    obtain ⟨s', c, new, hrun, hstored, -, hcnt, hbits, -⟩ :=
      h.run_bitmapExpand_copy hvalid hmemory (by omega) (by omega)
    refine ⟨"", some s.brk, s', ?_, rfl, s.brk, c, new, rfl, hstored, ?_⟩
    · rw [doBitmapCommand, run_bind_of_ok hrun]
      rfl
    · simp only [BitmapCommand.leaves, length_shown]
      rw [if_pos hmemory, Bitmap.shown, BitmapMalloc.extended, hcnt]
      refine List.map_congr_left fun i hi => ?_
      have hi : i < sizeT (b.bitCnt + sizeTOfInt more) := List.mem_range.mp hi
      rw [hbits i (hcnt ▸ hi), ELEM_BITS]
      split
      · by_cases hib : i < b.bitCnt
        · simp [hib, bitOf_shown]
        · simp [hib, bitOf_shown_of_le (Nat.le_of_not_lt hib)]
      · rfl
  · obtain ⟨s', hrun, hcells, harrays⟩ := h.run_bitmapExpand_none hmemory
    refine ⟨"", some p, s', ?_, rfl, ?_⟩
    · rw [doBitmapCommand, run_bind_of_ok hrun]
      rfl
    · simp only [BitmapCommand.leaves, length_shown]
      rw [if_neg hmemory]
      exact (h.congr hcells harrays).shows

/-- **A bitmap does what the sequence does**, as long as a command names bits that are there. -/
theorem Alone.does (h : Alone s p a b) (hrange : c.InRange b.bitCnt)
    (hgrows : ∀ more, c = .expand more → Grows memory b more) :
    Does s p memory b c := by
  have hb := h.stored
  have hvalid := h.valid
  cases c with
  | mark idx =>
      exact hb.does_update hvalid (.mark idx) (Checked.toOption_mark b idx) hrange rfl rfl rfl
  | reset idx =>
      exact hb.does_update hvalid (.reset idx) (Checked.toOption_reset b idx) hrange rfl rfl
        rfl
  | flip idx =>
      exact hb.does_update hvalid (.flip idx) (Checked.toOption_flip b idx) hrange rfl rfl rfl
  | set idx value =>
      exact hb.does_update hvalid (.set idx value) (Checked.toOption_set b idx value) hrange
        rfl rfl rfl
  | setAll value =>
      exact hb.does_update hvalid (.setAll value)
        (Checked.toOption_setMultiple b 0 b.bitCnt value) trivial rfl rfl rfl
  | setMultiple start cnt value =>
      exact hb.does_update hvalid (.setMultiple start cnt value)
        (Checked.toOption_setMultiple b start cnt value) hrange rfl rfl rfl
  | scanAndFlip start cnt value =>
      exact hb.does_scanAndFlip hvalid ((Nat.le_add_right _ _).trans hrange)
  | test idx =>
      refine hb.does_read (Checked.test_spec hvalid.sized hrange) boolText rfl ?_ rfl
      rw [BitmapCommand.Prints, bitOf_shown hrange]
  | count start cnt value =>
      refine hb.does_read (Checked.count_eq hvalid hrange value) sizeText rfl ?_ rfl
      rw [BitmapCommand.Prints, count_bitsFrom hrange]
  | contains start cnt value =>
      exact hb.does_read (Checked.contains_eq hvalid hrange value) boolText rfl rfl rfl
  | any start cnt =>
      exact hb.does_read (Checked.contains_eq hvalid hrange true) boolText rfl rfl rfl
  | none start cnt =>
      have hnone : Checked.none b start cnt = .ok (!decide (true ∈ bitsFrom b.shown start cnt)) :=
        bind_eq_ok.mpr ⟨_, Checked.contains_eq hvalid hrange true, rfl⟩
      refine hb.does_read hnone boolText rfl ?_ rfl
      rw [BitmapCommand.Prints, decide_not]
  | all start cnt =>
      have hall : Checked.all b start cnt = .ok (!decide (false ∈ bitsFrom b.shown start cnt)) :=
        bind_eq_ok.mpr ⟨_, Checked.contains_eq hvalid hrange false, rfl⟩
      refine hb.does_read hall boolText rfl ?_ rfl
      rw [BitmapCommand.Prints, decide_not]
  | scan start cnt value =>
      refine hb.does_read (Checked.scan_eq hvalid ((Nat.le_add_right _ _).trans hrange) cnt value)
        sizeText rfl ?_ rfl
      rw [BitmapCommand.Prints, length_shown, firstGroup_shown]
  | size =>
      refine ⟨sizeText b.bitCnt, some p, s, ?_, ?_, hb.shows⟩
      · rw [doBitmapCommand, run_bind_of_ok hb.run_bitmapSize]
        rfl
      · rw [BitmapCommand.Prints, length_shown]
  | dump => exact hb.does_dump hvalid
  | expand more => exact hb.does_expand hvalid (hgrows more rfl)

/-! ### Creation and dumps -/

/-- What `dump_bitmap` prints for a sequence. -/
def bitsText (bits : List Bool) : String :=
  String.join (bits.map fun bit => if bit then "1" else "0") ++ "\n"

theorem Stored.run_dumpBitmapLoop (hb : Stored s p a b) (hsized : b.Sized) {rounds i : Nat}
    (hrounds : i + rounds = b.bitCnt) :
    (dumpBitmapLoop (some p) rounds i).run s =
      .ok (String.join ((List.range' i rounds).map fun j => if b.bit j then "1" else "0"), s) := by
  induction rounds generalizing i with
  | zero => rfl
  | succ rounds ih =>
      have htest := Checked.test_spec hsized (show i < b.bitCnt by omega)
      have hrest := ih (show i + 1 + rounds = b.bitCnt by omega)
      rw [dumpBitmapLoop, run_bind_of_ok (hb.run_read htest), run_bind_of_ok hrest,
        List.range'_succ, List.map_cons, String.join_cons]
      rfl

theorem Stored.run_dumpBitmap (hb : Stored s p a b) (hsized : b.Sized) :
    (dumpBitmap (some p)).run s = .ok (bitsText b.shown, s) := by
  rw [dumpBitmap, run_bind_of_ok hb.run_bitmapSize,
    run_bind_of_ok (hb.run_dumpBitmapLoop hsized (Nat.zero_add _)), bitsText, Bitmap.shown,
    List.map_map, List.range_eq_range']
  rfl

theorem run_bitmapCreate_shows (s : BitmapMemory) {n : Nat} (hmemory : memory.Enough n)
    (hn : n + 63 < 2 ^ 64) : ∃ s', (bitmapCreate memory n).run s = .ok (some s.brk, s') ∧
      s'.Shows (some s.brk) (memory.extended n []) := by
  obtain ⟨s', c, b, hrun, hstored, -, -, hcnt, hbits⟩ := run_bitmapCreate s hmemory hn
  refine ⟨s', hrun, s.brk, c, b, rfl, hstored, ?_⟩
  rw [Bitmap.shown, BitmapMalloc.extended, hcnt]
  refine List.map_congr_left fun i hi => ?_
  rw [hbits i (List.mem_range.mp hi), ELEM_BITS]
  rfl

end BitmapMemory

end SystemProgramming.Testlib
