import SystemProgramming.CLib
import SystemProgramming.Testlib.BitmapExpand
import SystemProgramming.Testlib.HexDump

/-!
The branches of `do_bitmap_command` on the bitmap they name. The numbers of a
line are `int`s that become `size_t`s, so a negative one is huge. The calls with
an `ASSERT` stop there before they leave the array of elements; `bitmap_mark`,
`bitmap_reset` and `bitmap_flip` have none.
-/

namespace SystemProgramming.Testlib

open SystemProgramming.CLib SystemProgramming.Library BitmapMemory

/-! ### Dumps -/

def byteCnt (bitCnt : Nat) : Nat := sizeT (8 * elemCnt bitCnt)

/-- The byte `k` of the elements in memory, the low bytes of an element first. -/
def Checked.byteAt (b : Bitmap) (k : Nat) : Except Fault Byte := do
  return (← Checked.elem b (k / 8)).extractLsb' (8 * (k % 8)) 8

/-- `bitmap_dump`, which prints half of the bytes. -/
def Checked.dump (b : Bitmap) : Except Fault String := do
  return hexDump 0 (← (List.range (byteCnt b.bitCnt / 2)).mapM (byteAt b)) false

/-! ### Commands -/

/-- The branches of `do_bitmap_command`, with their arguments. -/
inductive BitmapCommand
  | mark (idx : Nat)
  | reset (idx : Nat)
  | flip (idx : Nat)
  | set (idx : Nat) (value : Bool)
  | test (idx : Nat)
  | setAll (value : Bool)
  | setMultiple (start cnt : Nat) (value : Bool)
  | count (start cnt : Nat) (value : Bool)
  | contains (start cnt : Nat) (value : Bool)
  | any (start cnt : Nat)
  | none (start cnt : Nat)
  | all (start cnt : Nat)
  | scan (start cnt : Nat) (value : Bool)
  | scanAndFlip (start cnt : Nat) (value : Bool)
  | size
  | dump
  | expand (size : Int)
  deriving DecidableEq

def parseBool (token : String) : Bool := token = "true"

/-- `(size_t) atoi (token)`. -/
def parseSize (token : String) : Nat := sizeTOfInt (atoi token.toList)

/-- The branch for `tokens[0]` and the tokens from `tokens[2]` on. -/
def bitmapCommand (token : String) (args : List String) : Option BitmapCommand :=
  match token, args with
  | "bitmap_mark", idx :: _ => some (.mark (parseSize idx))
  | "bitmap_reset", idx :: _ => some (.reset (parseSize idx))
  | "bitmap_flip", idx :: _ => some (.flip (parseSize idx))
  | "bitmap_set", idx :: value :: _ => some (.set (parseSize idx) (parseBool value))
  | "bitmap_test", idx :: _ => some (.test (parseSize idx))
  | "bitmap_set_all", value :: _ => some (.setAll (parseBool value))
  | "bitmap_set_multiple", start :: cnt :: value :: _ =>
      some (.setMultiple (parseSize start) (parseSize cnt) (parseBool value))
  | "bitmap_count", start :: cnt :: value :: _ =>
      some (.count (parseSize start) (parseSize cnt) (parseBool value))
  | "bitmap_contains", start :: cnt :: value :: _ =>
      some (.contains (parseSize start) (parseSize cnt) (parseBool value))
  | "bitmap_any", start :: cnt :: _ => some (.any (parseSize start) (parseSize cnt))
  | "bitmap_none", start :: cnt :: _ => some (.none (parseSize start) (parseSize cnt))
  | "bitmap_all", start :: cnt :: _ => some (.all (parseSize start) (parseSize cnt))
  | "bitmap_scan", start :: cnt :: value :: _ =>
      some (.scan (parseSize start) (parseSize cnt) (parseBool value))
  | "bitmap_scan_and_flip", start :: cnt :: value :: _ =>
      some (.scanAndFlip (parseSize start) (parseSize cnt) (parseBool value))
  | "bitmap_size", _ => some .size
  | "bitmap_dump", _ => some .dump
  | "bitmap_expand", size :: _ => some (.expand (atoi size.toList))
  | _, _ => Option.none

/-- What `print_bool` prints. -/
def boolText (value : Bool) : String := if value then "true\n" else "false\n"

/-- What `printf ("%zu\n", n)` prints. -/
def sizeText (n : Nat) : String := toString n ++ "\n"

/-- The command on `obj->bitmap`: what it prints, and the new `obj->bitmap`. -/
def doBitmapCommand (memory : BitmapMalloc) (bitmap : Option Nat) (c : BitmapCommand) :
    BitmapProg (String × Option Nat) :=
  match c with
  | .mark idx => do
      updateBitmap bitmap fun b => Checked.mark b idx
      return ("", bitmap)
  | .reset idx => do
      updateBitmap bitmap fun b => Checked.reset b idx
      return ("", bitmap)
  | .flip idx => do
      updateBitmap bitmap fun b => Checked.flip b idx
      return ("", bitmap)
  | .set idx value => do
      updateBitmap bitmap fun b => Checked.set b idx value
      return ("", bitmap)
  | .test idx => do return (boolText (← readBitmap bitmap fun b => Checked.test b idx), bitmap)
  | .setAll value => do
      updateBitmap bitmap fun b => Checked.setAll b value
      return ("", bitmap)
  | .setMultiple start cnt value => do
      updateBitmap bitmap fun b => Checked.setMultiple b start cnt value
      return ("", bitmap)
  | .count start cnt value => do
      return (sizeText (← readBitmap bitmap fun b => Checked.count b start cnt value), bitmap)
  | .contains start cnt value => do
      return (boolText (← readBitmap bitmap fun b => Checked.contains b start cnt value), bitmap)
  | .any start cnt => do
      return (boolText (← readBitmap bitmap fun b => Checked.any b start cnt), bitmap)
  | .none start cnt => do
      return (boolText (← readBitmap bitmap fun b => Checked.none b start cnt), bitmap)
  | .all start cnt => do
      return (boolText (← readBitmap bitmap fun b => Checked.all b start cnt), bitmap)
  | .scan start cnt value => do
      return (sizeText (← readBitmap bitmap fun b => Checked.scan b start cnt value), bitmap)
  | .scanAndFlip start cnt value => do
      return (sizeText (← changeBitmap bitmap fun b => Checked.scanAndFlip b start cnt value),
        bitmap)
  | .size => do return (sizeText (← bitmapSize bitmap), bitmap)
  | .dump => do return (← readBitmap bitmap Checked.dump, bitmap)
  | .expand size => do
      let expanded ← bitmapExpand memory bitmap size
      return ("", if expanded.isSome then expanded else bitmap)

/-! ### Inside the storage -/

/-- The bits the arguments of a command name are bits of a bitmap of `n` bits. -/
def BitmapCommand.InRange (n : Nat) : BitmapCommand → Prop
  | mark idx | reset idx | flip idx | set idx _ | test idx => idx < n
  | setMultiple start cnt _ | count start cnt _ | contains start cnt _ | scan start cnt _
  | scanAndFlip start cnt _ => start + cnt ≤ n
  | any start cnt | none start cnt | all start cnt => start + cnt ≤ n
  | setAll _ | size | dump | expand _ => True

/-- No access outside the elements; and out of range an `ASSERT` fails, or nothing changes. -/
structure StaysInside (s : BitmapMemory) (p : Nat) (inRange : Prop)
    (result : Except Fault ((String × Option Nat) × BitmapMemory)) : Prop where
  access : result ≠ .error .access
  outside : ¬ inRange → result = .error .assertion ∨
    ∃ text s', result = .ok ((text, some p), s') ∧ s'.cells = s.cells ∧ s'.arrays = s.arrays

section Inside

variable {s s' : BitmapMemory} {p : Nat} {a : Option Nat} {b : Bitmap} {inRange : Prop}
  {β : Type}

theorem staysInside_assertion : StaysInside s p inRange (.error .assertion) :=
  ⟨nofun, fun _ => .inl rfl⟩

theorem staysInside_unchanged (text : String) (hcells : s'.cells = s.cells)
    (harrays : s'.arrays = s.arrays) : StaysInside s p inRange (.ok ((text, some p), s')) :=
  ⟨nofun, fun _ => .inr ⟨text, s', rfl, hcells, harrays⟩⟩

theorem staysInside_of_inRange (hrange : inRange) (text : String) (bitmap : Option Nat)
    (s' : BitmapMemory) : StaysInside s p inRange (.ok ((text, bitmap), s')) :=
  ⟨nofun, fun hout => absurd hrange hout⟩

/-- A command that only reads the bitmap. -/
theorem staysInside_read {f : Bitmap → Except Fault β} {text : β → String}
    (hb : Stored s p a b) (hsafe : Checked.Safe (f b)) :
    StaysInside s p inRange
      ((do return (text (← readBitmap (some p) f), some p) : BitmapProg _).run s) := by
  cases hf : f b with
  | ok result =>
      rw [run_bind_of_ok (hb.run_read hf)]
      exact staysInside_unchanged _ rfl rfl
  | error fault =>
      rw [run_bind_of_error (hb.run_read_error hf)]
      cases fault with
      | assertion => exact staysInside_assertion
      | access => exact absurd hf hsafe

/-- The elements are the same when the bitmap is. -/
theorem BitmapMemory.SameBut.arrays_eq (hsame : SameBut a s s') (hb : Stored s p a b)
    (hb' : Stored s' p a b) : s'.arrays = s.arrays := by
  ext1 r
  by_cases hr : some r = a
  · subst hr
    exact hb'.bits.trans hb.bits.symm
  · exact hsame.arrays r hr

/-- A command that changes bits of the bitmap. -/
theorem staysInside_change {f : Bitmap → Except Fault (β × Bitmap)} (text : β → String)
    (hb : Stored s p a b) (hsafe : Checked.Safe (f b))
    (hf : ∀ result b', f b = .ok (result, b') → Checked.SameSize b b' ∧ (¬ inRange → b' = b)) :
    StaysInside s p inRange
      ((do return (text (← changeBitmap (some p) f), some p) : BitmapProg _).run s) := by
  cases hresult : f b with
  | ok result =>
      obtain ⟨result, b'⟩ := result
      obtain ⟨hsize, hout⟩ := hf result b' hresult
      obtain ⟨s', hrun, hb', hsame, _⟩ := hb.run_change hresult hsize.bitCnt hsize.length
      rw [run_bind_of_ok hrun]
      refine ⟨nofun, fun hrange => ?_⟩
      obtain rfl := hout hrange
      exact .inr ⟨_, s', rfl, hsame.cells, hsame.arrays_eq hb hb'⟩
  | error fault =>
      rw [run_bind_of_error (hb.run_change_error hresult)]
      cases fault with
      | assertion => exact staysInside_assertion
      | access => exact absurd hresult hsafe

theorem staysInside_update {f : Bitmap → Except Fault Bitmap} (hb : Stored s p a b)
    (hsafe : Checked.Safe (f b))
    (hf : ∀ b', f b = .ok b' → Checked.SameSize b b' ∧ (¬ inRange → b' = b)) :
    StaysInside s p inRange ((do
      updateBitmap (some p) f
      return ("", some p) : BitmapProg _).run s) := by
  refine staysInside_change (fun _ => "") hb (hsafe.bind fun _ _ => avoids_pure _ _) ?_
  intro result b' hresult
  obtain ⟨b'', hb'', heq⟩ := bind_eq_ok.mp hresult
  obtain ⟨rfl, rfl⟩ := Prod.mk.inj (Except.ok.inj heq)
  exact hf b'' hb''

/-! ### Instructions without an `ASSERT` -/

/-- One of the three commands without an `ASSERT`: out of range it has to miss, and the bit it
names has to have an element. -/
theorem staysInside_asm_iff {call : Bitmap → Except Fault Bitmap} {idx : Nat} {bits : Nat → Bool}
    (hb : Stored s p a b) (hsized : b.Sized)
    (hcall : elemIdx idx < b.bits.length → ∃ b', call b = .ok b' ∧ b.LowUpdate b' bits)
    (hpast : b.bits.length ≤ elemIdx idx → call b = .error .access) :
    StaysInside s p (idx < b.bitCnt) ((do
        updateBitmap (some p) call
        return ("", some p) : BitmapProg _).run s) ↔
      idx < b.bitCnt ∨ elemIdx idx < b.bits.length ∧ ∀ j, j % 64 < 32 → bits j = b.bit j := by
  rcases Nat.lt_or_ge (elemIdx idx) b.bits.length with hlt | hge
  swap
  · have hnot : ¬ idx < b.bitCnt := fun hidx => absurd (hsized idx hidx) (Nat.not_lt.mpr hge)
    rw [run_bind_of_error (hb.run_update_error (hpast hge))]
    refine iff_of_false (fun h => h.access rfl) ?_
    rintro (hidx | ⟨hlt, _⟩)
    · exact hnot hidx
    · exact absurd hlt (Nat.not_lt.mpr hge)
  obtain ⟨b', hb', hup⟩ := hcall hlt
  obtain ⟨s', hrun, hstored, hsame, _⟩ := hb.run_update hb' hup.bitCnt hup.length
  rw [run_bind_of_ok hrun]
  constructor
  · intro h
    refine or_iff_not_imp_left.mpr fun hidx => ⟨hlt, fun j hj => ?_⟩
    rcases h.outside hidx with hfault | ⟨text, s'', hok, hcells, harrays⟩
    · cases hfault
    · cases hok
      obtain rfl := hstored.unique (hb.congr hcells harrays)
      rw [hup.bits j, if_pos hj]
  · rintro (hidx | ⟨_, hbits⟩)
    · exact staysInside_of_inRange hidx _ _ _
    · obtain rfl := hup.eq hbits
      exact staysInside_unchanged _ hsame.cells (hsame.arrays_eq hb hstored)

/-- Writing a value to the low bit `idx` changes nothing if it is there, or if the bit is not
a low one. -/
theorem update_low_iff {idx : Nat} {value : Bool} :
    (∀ j, j % 64 < 32 → Function.update b.bit idx value j = b.bit j) ↔
      32 ≤ idx % ELEM_BITS ∨ b.bit idx = value := by
  constructor
  · intro h
    refine or_iff_not_imp_left.mpr fun hlow => ?_
    have hidx := h idx (Nat.lt_of_not_le hlow)
    rwa [Function.update_self, eq_comm] at hidx
  · rintro (hhigh | hbit) j hj
    · rcases eq_or_ne j idx with rfl | hne
      · exact absurd hj (Nat.not_lt.mpr hhigh)
      · exact Function.update_of_ne hne ..
    · rw [← hbit, Function.update_eq_self]

theorem asm_past {op : ElemType → ElemType → ElemType} {idx : Nat} {reg : ElemType}
    (hidx : b.bits.length ≤ idx) : Checked.asm b op idx reg = .error .access := by
  rw [Checked.asm, Checked.elem, List.getElem?_eq_none hidx]
  rfl

/-! ### Every command -/

/-- When a command stays inside. -/
def BitmapCommand.Guarded (memory : BitmapMalloc) (b : Bitmap) : BitmapCommand → Prop
  | mark idx => idx < b.bitCnt ∨ elemIdx idx < elemCnt b.bitCnt ∧
      (32 ≤ idx % ELEM_BITS ∨ b.bit idx = true)
  | reset idx => idx < b.bitCnt ∨ elemIdx idx < elemCnt b.bitCnt ∧
      (32 ≤ idx % ELEM_BITS ∨ b.bit idx = false)
  | flip idx => idx < b.bitCnt ∨ elemIdx idx < elemCnt b.bitCnt ∧ 32 ≤ idx % ELEM_BITS
  | expand more => ¬ (memory.Enough (sizeT (b.bitCnt + sizeTOfInt more)) ∧
      2 ^ 64 ≤ sizeT (b.bitCnt + sizeTOfInt more) + 63)
  | _ => True

/-- The element that an instruction without an `ASSERT` names is there, and so are the elements
of the array that `bitmap_expand` gets. -/
def BitmapCommand.InStorage (memory : BitmapMalloc) (b : Bitmap) : BitmapCommand → Prop
  | mark idx | reset idx | flip idx => elemIdx idx < elemCnt b.bitCnt
  | expand more => ¬ (memory.Enough (sizeT (b.bitCnt + sizeTOfInt more)) ∧
      2 ^ 64 ≤ sizeT (b.bitCnt + sizeTOfInt more) + 63)
  | _ => True

theorem safe_dump (hb : b.Valid) : Checked.Safe (Checked.dump b) := by
  refine (avoids_mapM fun k hk => ?_).bind fun _ _ => avoids_pure _ _
  refine (Checked.safe_elem ?_).bind fun _ _ => avoids_pure _ _
  rw [List.mem_range, byteCnt, ← hb.length, sizeT] at hk
  have hmod := Nat.mod_le (8 * b.bits.length) (2 ^ 64)
  omega

theorem of_scanAndFlip (hb : b.Valid) {start cnt idx : Nat} {value : Bool} {b' : Bitmap}
    (h : Checked.scanAndFlip b start cnt value = .ok (idx, b')) :
    Checked.SameSize b b' ∧ (¬ start + cnt ≤ b.bitCnt → b' = b) := by
  obtain ⟨found, hscan, hrest⟩ := bind_eq_ok.mp h
  rcases eq_or_ne found BITMAP_ERROR with hnone | hsome
  · rw [if_neg (not_not.mpr hnone)] at hrest
    obtain ⟨_, rfl⟩ := Prod.mk.inj (Except.ok.inj hrest)
    exact ⟨.refl b, fun _ => rfl⟩
  · rw [if_pos hsome] at hrest
    obtain ⟨b'', hset, heq⟩ := bind_eq_ok.mp hrest
    obtain ⟨_, rfl⟩ := Prod.mk.inj (Except.ok.inj heq)
    refine ⟨(Checked.of_setMultiple hb.size hset).2, fun hout => absurd ?_ hout⟩
    have hstart : start ≤ b.bitCnt := by
      obtain ⟨_, hassert, _⟩ := bind_eq_ok.mp hscan
      exact of_decide_eq_true (Checked.of_ASSERT hassert)
    have hfound := Bitmap.scan_spec hb.sized hb.size hstart cnt value
    rw [← Checked.toOption_scan, hscan, toOption_ok, Option.some.injEq] at hfound
    cases hgroup : firstGroup b.bitCnt b.bit start cnt value with
    | none =>
        rw [hgroup] at hfound
        exact absurd hfound hsome
    | some i =>
        obtain ⟨⟨hle, hlast, _⟩, _⟩ := Bitmap.firstGroup_eq_some.mp hgroup
        omega

/-- A command without an `ASSERT` on a bitmap as it is created. -/
theorem staysInside_update_iff (call : Bitmap → Except Fault Bitmap) (idx : Nat) (value : Bool)
    (hvalid : b.Valid) (hb : Stored s p a b)
    (hcall : elemIdx idx < b.bits.length →
      ∃ b', call b = .ok b' ∧ b.LowUpdate b' (Function.update b.bit idx value))
    (hpast : b.bits.length ≤ elemIdx idx → call b = .error .access) :
    StaysInside s p (idx < b.bitCnt) ((do
        updateBitmap (some p) call
        return ("", some p) : BitmapProg _).run s) ↔
      idx < b.bitCnt ∨ elemIdx idx < elemCnt b.bitCnt ∧
        (32 ≤ idx % ELEM_BITS ∨ b.bit idx = value) := by
  rw [staysInside_asm_iff hb hvalid.sized hcall hpast, update_low_iff, hvalid.length]

/-- `bitmap_create` fails, or it is called with a size that is smaller, fits or wraps. -/
theorem staysInside_expand_iff (hvalid : b.Valid) (hb : Stored s p a b) (memory : BitmapMalloc)
    (more : Int) :
    StaysInside s p (BitmapCommand.InRange b.bitCnt (.expand more))
        ((doBitmapCommand memory (some p) (.expand more)).run s) ↔
      BitmapCommand.Guarded memory b (.expand more) := by
  by_cases hmemory : memory.Enough (sizeT (b.bitCnt + sizeTOfInt more))
  swap
  · obtain ⟨s', hrun, hcells, harrays⟩ := hb.run_bitmapExpand_none hmemory
    rw [doBitmapCommand, run_bind_of_ok hrun]
    exact iff_of_true (staysInside_unchanged _ hcells harrays) fun h => hmemory h.1
  rcases Nat.lt_or_ge (sizeT (b.bitCnt + sizeTOfInt more)) b.bitCnt with hlt | hle
  · have hroom := hvalid.lt
    rw [doBitmapCommand, run_bind_of_error (hb.run_bitmapExpand_shrink hvalid hmemory hlt)]
    exact iff_of_true staysInside_assertion fun h => by omega
  rcases Nat.lt_or_ge (sizeT (b.bitCnt + sizeTOfInt more) + 63) (2 ^ 64) with hlt | hwrap
  · obtain ⟨s', c, new, hrun, _⟩ := hb.run_bitmapExpand_copy hvalid hmemory hlt hle
    rw [doBitmapCommand, run_bind_of_ok hrun]
    exact iff_of_true (staysInside_of_inRange trivial _ _ _) fun h => by omega
  · rw [doBitmapCommand, run_bind_of_error (hb.run_bitmapExpand_wraps hmemory hwrap)]
    exact iff_of_false (fun h => h.access rfl) fun h => h ⟨hmemory, hwrap⟩

theorem staysInside_iff_guarded (hvalid : b.Valid) (hb : Stored s p a b) (memory : BitmapMalloc)
    (c : BitmapCommand) :
    StaysInside s p (c.InRange b.bitCnt) ((doBitmapCommand memory (some p) c).run s) ↔
      c.Guarded memory b := by
  have hsized := hvalid.sized
  cases c with
  | mark idx =>
      exact staysInside_update_iff (fun b => Checked.mark b idx) idx true hvalid hb (fun helem =>
        exists_ok_of_toOption (Checked.toOption_mark b idx) (Bitmap.mark_spec helem)) asm_past
  | reset idx =>
      exact staysInside_update_iff (fun b => Checked.reset b idx) idx false hvalid hb (fun helem =>
        exists_ok_of_toOption (Checked.toOption_reset b idx) (Bitmap.reset_spec helem)) asm_past
  | flip idx =>
      have hiff := staysInside_update_iff (fun b => Checked.flip b idx) idx (!b.bit idx) hvalid hb
        (fun helem => exists_ok_of_toOption (Checked.toOption_flip b idx)
          (Bitmap.flip_spec helem)) asm_past
      -- a flip that reaches its bit never leaves it as it is
      have hnever : (32 ≤ idx % ELEM_BITS ∨ b.bit idx = !b.bit idx) ↔ 32 ≤ idx % ELEM_BITS := by
        simp
      rw [hnever] at hiff
      exact hiff
  | set idx value =>
      refine iff_of_true (staysInside_update hb (Checked.safe_set hsized idx value) ?_) trivial
      intro b' hset
      obtain ⟨hidx, hsame⟩ := Checked.of_set hset
      exact ⟨hsame, fun hout => absurd hidx hout⟩
  | test idx => exact iff_of_true (staysInside_read hb (Checked.safe_test hsized idx)) trivial
  | setAll value =>
      refine iff_of_true (staysInside_update hb (Checked.safe_setMultiple hsized _ _ _) ?_) trivial
      intro b' hset
      exact ⟨(Checked.of_setMultiple hvalid.size hset).2, fun hout => absurd trivial hout⟩
  | setMultiple start cnt value =>
      refine iff_of_true (staysInside_update hb (Checked.safe_setMultiple hsized _ _ _) ?_) trivial
      intro b' hset
      obtain ⟨hrange, hsame⟩ := Checked.of_setMultiple hvalid.size hset
      exact ⟨hsame, fun hout => absurd hrange hout⟩
  | count start cnt value =>
      exact iff_of_true (staysInside_read hb (Checked.safe_count hsized start cnt value)) trivial
  | contains start cnt value =>
      exact iff_of_true (staysInside_read hb (Checked.safe_contains hsized start cnt value)) trivial
  | any start cnt =>
      exact iff_of_true (staysInside_read hb (Checked.safe_contains hsized start cnt true)) trivial
  | none start cnt =>
      have hsafe := Checked.safe_contains hsized start cnt true
      exact iff_of_true (staysInside_read hb (hsafe.bind fun _ _ => avoids_pure _ _)) trivial
  | all start cnt =>
      have hsafe := Checked.safe_contains hsized start cnt false
      exact iff_of_true (staysInside_read hb (hsafe.bind fun _ _ => avoids_pure _ _)) trivial
  | scan start cnt value =>
      exact iff_of_true (staysInside_read hb (Checked.safe_scan hsized start cnt value)) trivial
  | scanAndFlip start cnt value =>
      have hsafe := Checked.safe_scanAndFlip hsized start cnt value
      refine iff_of_true (staysInside_change sizeText hb hsafe ?_) trivial
      exact fun idx b' hflip => of_scanAndFlip hvalid hflip
  | size =>
      refine iff_of_true ?_ trivial
      rw [doBitmapCommand, run_bind_of_ok hb.run_bitmapSize]
      exact staysInside_unchanged _ rfl rfl
  | dump => exact iff_of_true (staysInside_read hb (safe_dump hvalid)) trivial
  | expand more => exact staysInside_expand_iff hvalid hb memory more

/-- A command that finds the storage it asks for does not leave it. -/
theorem run_doBitmapCommand_inStorage (hvalid : b.Valid) (hb : Stored s p a b)
    {memory : BitmapMalloc} {c : BitmapCommand} (hc : c.InStorage memory b) :
    (doBitmapCommand memory (some p) c).run s ≠ .error .access := by
  have hguarded : c.Guarded memory b → (doBitmapCommand memory (some p) c).run s ≠ .error .access :=
    fun h => ((staysInside_iff_guarded hvalid hb memory c).mpr h).access
  -- the three instructions have their element, and write it
  have hasm {call : Bitmap → Except Fault Bitmap} {bits : Nat → Bool}
      (hcall : ∃ b', call b = .ok b' ∧ b.LowUpdate b' bits) :
      (do
        updateBitmap (some p) call
        return ("", some p) : BitmapProg _).run s ≠ .error .access := by
    obtain ⟨b', hb', hup⟩ := hcall
    obtain ⟨s', hrun, -⟩ := hb.run_update hb' hup.bitCnt hup.length
    rw [run_bind_of_ok hrun]
    exact fun heq => by cases heq
  cases c with
  | mark idx =>
      exact hasm (exists_ok_of_toOption (Checked.toOption_mark b idx)
        (Bitmap.mark_spec (hvalid.length ▸ hc)))
  | reset idx =>
      exact hasm (exists_ok_of_toOption (Checked.toOption_reset b idx)
        (Bitmap.reset_spec (hvalid.length ▸ hc)))
  | flip idx =>
      exact hasm (exists_ok_of_toOption (Checked.toOption_flip b idx)
        (Bitmap.flip_spec (hvalid.length ▸ hc)))
  | expand more => exact hguarded hc
  | _ => exact hguarded trivial

end Inside

/-- **The bitmap commands stay inside the storage** exactly when those without an `ASSERT` name
a bit of the bitmap or miss, and `bitmap_expand` does not ask for a size for which the number of
elements wraps. -/
theorem bitmapCommand_inside_iff (s : BitmapMemory) (memory : BitmapMalloc) (p : Nat)
    (a : Option Nat) (b : Bitmap) (hvalid : b.Valid) (hb : Stored s p a b) (token : String)
    (args : List String) :
    ∀ c ∈ bitmapCommand token args,
      StaysInside s p (c.InRange b.bitCnt) ((doBitmapCommand memory (some p) c).run s) ↔
        c.Guarded memory b :=
  fun c _ => staysInside_iff_guarded hvalid hb memory c

/-- In a bitmap of 10 bits the bit 40 has an element, and no instruction reaches it. -/
theorem bitmapCommand_inside_iff_tenBits :
    StaysInside (ofBitmap ⟨10, [5]⟩) 0 (BitmapCommand.InRange 10 (.mark 40))
      ((doBitmapCommand .zeroed (some 0) (.mark 40)).run (ofBitmap ⟨10, [5]⟩)) := by
  refine (bitmapCommand_inside_iff (ofBitmap ⟨10, [5]⟩) .zeroed 0 (some 1) ⟨10, [5]⟩
    ⟨by decide, rfl, by decide⟩ (stored_ofBitmap _) "bitmap_mark" ["40"] (.mark 40) rfl).mpr ?_
  exact .inr ⟨by decide, .inl (by decide)⟩

/-- `bitmap_mark B 64` writes behind the elements of a bitmap of 10 bits. -/
theorem bitmap_mark_outside :
    ¬ ∀ (s : BitmapMemory) (memory : BitmapMalloc) (p : Nat) (a : Option Nat) (b : Bitmap),
      b.Valid → Stored s p a b → ∀ (token : String) (args : List String),
        ∀ c ∈ bitmapCommand token args,
          StaysInside s p (c.InRange b.bitCnt) ((doBitmapCommand memory (some p) c).run s) := by
  intro h
  have hinside := h (ofBitmap ⟨10, [5]⟩) .zeroed 0 (some 1) ⟨10, [5]⟩ ⟨by decide, rfl, by decide⟩
    (stored_ofBitmap _) "bitmap_mark" ["64"] (.mark 64) rfl
  exact hinside.access rfl

end SystemProgramming.Testlib
