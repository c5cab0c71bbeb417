import SystemProgramming.Testlib.BitmapMemory

/-!
`bitmap_expand` for every `int`. What `bitmap_create` returns is known first,
for all outcomes of its two calls of `malloc`; the loop then copies the bits of
the old bitmap as long as they have a place in the new one, and stops at an
`ASSERT` if there are more of them.
-/

namespace SystemProgramming.Testlib

open SystemProgramming.Library

/-! ### Creation -/

theorem BitmapMemory.Stored.unique {s : BitmapMemory} {p : Nat} {a a' : Option Nat}
    {b b' : Bitmap} (h : Stored s p a b) (h' : Stored s p a' b') : b = b' := by
  have hcell := Option.some.inj (h.cell.symm.trans h'.cell)
  have hcnt : b.bitCnt = b'.bitCnt := congrArg BitmapCell.bitCnt hcell
  obtain rfl : a = a' := congrArg BitmapCell.bits hcell
  have hbits : b.bits = b'.bits := Option.some.inj (h.bits.symm.trans h'.bits)
  exact Bitmap.ext hcnt hbits

namespace BitmapMalloc

/-- The bitmap of `n` bits before its bits are set. -/
def raw (memory : BitmapMalloc) (n : Nat) : Bitmap where
  bitCnt := n
  bits :=
    match memory.bits with
    | none => []
    | some content => (List.range (elemCnt n)).map content

/-- `bitmap_create` gets what it needs. -/
def Enough (memory : BitmapMalloc) (n : Nat) : Prop :=
  memory.cell ≠ none ∧ (memory.bits ≠ none ∨ n = 0)

/-- What happens to be in place of bit `i`. -/
def bit (memory : BitmapMalloc) (i : Nat) : Bool :=
  match memory.bits with
  | none => false
  | some content => (content (i / ELEM_BITS)).getLsbD (i % ELEM_BITS)

/-- Zeroed memory. -/
def zeroed : BitmapMalloc := ⟨some ⟨0, none⟩, some fun _ => 0⟩

theorem enough_zeroed (n : Nat) : zeroed.Enough n := ⟨nofun, .inl nofun⟩

theorem raw_valid {memory : BitmapMalloc} {n : Nat} (hmemory : memory.Enough n)
    (hn : n + 63 < 2 ^ 64) : (memory.raw n).Valid := by
  have hcnt : elemCnt n = (n + 63) / 64 := Bitmap.elemCnt_of_lt hn
  have hlen : (memory.raw n).bits.length = elemCnt n := by
    unfold raw
    split
    · rename_i hbits
      rcases hmemory.2 with hsome | rfl
      · exact absurd hbits hsome
      · rfl
    · simp
  refine ⟨?_, hlen, ?_⟩
  · change n < 2 ^ 64
    omega
  · change n ≤ ELEM_BITS * (memory.raw n).bits.length
    rw [hlen, hcnt, ELEM_BITS]
    omega

theorem raw_bit {memory : BitmapMalloc} {n i : Nat} (hn : n + 63 < 2 ^ 64) (hi : i < n) :
    (memory.raw n).bit i = memory.bit i := by
  have hcnt : elemCnt n = (n + 63) / 64 := Bitmap.elemCnt_of_lt hn
  have hidx : i / 64 < elemCnt n := by omega
  cases hbits : memory.bits with
  | none => simp [Bitmap.bit, bitAt, raw, bit, hbits]
  | some content => simp [Bitmap.bit, bitAt, raw, bit, hbits, hidx, ELEM_BITS]

end BitmapMalloc

theorem Checked.SameSize.valid {b b' : Bitmap} (h : Checked.SameSize b b') (hb : b.Valid) :
    b'.Valid := by
  refine ⟨?_, ?_, ?_⟩
  · rw [h.bitCnt]
    exact hb.size
  · rw [h.bitCnt, h.length]
    exact hb.length
  · rw [h.bitCnt, h.length]
    exact hb.room

theorem Bitmap.LowUpdate.valid {b b' : Bitmap} {bits : Nat → Bool} (h : b.LowUpdate b' bits)
    (hb : b.Valid) : b'.Valid :=
  Checked.SameSize.valid ⟨h.bitCnt, h.length⟩ hb

namespace Checked

theorem set_spec {b : Bitmap} (hb : b.Sized) {idx : Nat} (hidx : idx < b.bitCnt) (value : Bool) :
    ∃ b', set b idx value = .ok b' ∧ b.LowUpdate b' (Function.update b.bit idx value) :=
  exists_ok_of_toOption (toOption_set b idx value) (Bitmap.set_spec hb hidx value)

theorem test_spec {b : Bitmap} (hb : b.Sized) {idx : Nat} (hidx : idx < b.bitCnt) :
    test b idx = .ok (b.bit idx) :=
  toOption_eq_some.mp ((toOption_test b idx).trans (Bitmap.test_spec hb hidx))

theorem setAll_spec {b : Bitmap} (hb : b.Valid) (value : Bool) :
    ∃ b', setAll b value = .ok b' ∧ b.LowUpdate b' (fill b.bit 0 b.bitCnt value) :=
  exists_ok_of_toOption (toOption_setMultiple b 0 b.bitCnt value)
    (Bitmap.setMultiple_spec hb.sized hb.size (Nat.le_of_eq (Nat.zero_add b.bitCnt)) value)

theorem set_past {b : Bitmap} {idx : Nat} (hidx : b.bitCnt ≤ idx) (value : Bool) :
    set b idx value = .error .assertion := by
  have hassert : ASSERT (idx < b.bitCnt) = .error .assertion :=
    if_neg (by simpa using hidx)
  rw [set, hassert]
  rfl

/-- The first write to an array without elements. -/
theorem setAll_empty {n : Nat} (hn : n ≠ 0) (value : Bool) :
    setAll ⟨n, []⟩ value = .error .access := by
  obtain ⟨m, rfl⟩ := Nat.exists_eq_succ_of_ne_zero hn
  have hrange : assertRange ⟨m + 1, []⟩ 0 (m + 1) = .ok () := by
    have hwrap : sizeT (0 + (m + 1)) ≤ m + 1 := by
      rw [Nat.zero_add]
      exact Nat.mod_le _ _
    rw [assertRange, ASSERT, ASSERT, if_pos (by simp), if_pos (by simpa using hwrap)]
    rfl
  have hset : set ⟨m + 1, []⟩ (sizeT (0 + 0)) value = .error .access := by
    have hassert : ASSERT (decide (sizeT (0 + 0) < m + 1)) = .ok () :=
      if_pos (by simp [sizeT])
    rw [set, hassert]
    cases value <;> rfl
  have hloop : (List.range (m + 1)).foldlM (fun b i => set b (sizeT (0 + i)) value) ⟨m + 1, []⟩ =
      .error .access := by
    rw [List.range_succ_eq_map, List.foldlM_cons, hset]
    rfl
  change (assertRange ⟨m + 1, []⟩ 0 (m + 1) >>= fun _ =>
    (List.range (m + 1)).foldlM (fun b i => set b (sizeT (0 + i)) value) ⟨m + 1, []⟩) = _
  rw [hrange, ← hloop]
  rfl

end Checked

namespace BitmapMemory

variable {s : BitmapMemory} {memory : BitmapMalloc} {n : Nat}

theorem run_setCell {q : Nat} {cell : BitmapCell} (h : s.cells q = some cell)
    (cell' : BitmapCell) :
    (setCell (some q) cell').run s = .ok ((), s.withCell q (lt_brk_of_cell h) (some cell')) := by
  simp only [StateT.run, Testlib.setCell]
  split
  · simp_all
  · rfl

theorem run_freeCell {q : Nat} {cell : BitmapCell} (h : s.cells q = some cell) :
    (freeCell (some q)).run s = .ok ((), s.withCell q (lt_brk_of_cell h) none) := by
  simp only [StateT.run, freeCell]
  split
  · simp_all
  · rfl

theorem run_bitmapCreate_none (hcell : memory.cell = none) (n : Nat) :
    (bitmapCreate memory n).run s = .ok (none, s) := by
  rw [bitmapCreate, hcell]
  rfl

/-- The block of the first call is given back. -/
theorem run_bitmapCreate_rollback (hcell : memory.cell ≠ none) (hbits : memory.bits = none)
    (hn : n ≠ 0) :
    ∃ s', (bitmapCreate memory n).run s = .ok (none, s') ∧ s'.cells = s.cells ∧
      s'.arrays = s.arrays := by
  obtain ⟨garbage, hgarbage⟩ := Option.ne_none_iff_exists'.mp hcell
  let s₁ := s.grow.withCell s.brk (Nat.lt_succ_self _) (some garbage)
  have h₁ : s₁.cells s.brk = some garbage := Function.update_self ..
  let s₂ := s₁.withCell s.brk (lt_brk_of_cell h₁) (some ⟨n, none⟩)
  have h₂ : s₂.cells s.brk = some ⟨n, none⟩ := Function.update_self ..
  refine ⟨s₂.withCell s.brk (lt_brk_of_cell h₂) none, ?_, ?_, rfl⟩
  · rw [bitmapCreate, hgarbage, hbits]
    rw [run_bind_of_ok (a := some s.brk) (t := s₁) rfl]
    simp only [Option.isSome_some, if_true, mallocBits, pure_bind, Option.isSome_none,
      Bool.false_or, decide_eq_true_eq, hn, if_false]
    rw [run_bind_of_ok (run_setCell h₁ _), run_bind_of_ok (run_freeCell h₂)]
    rfl
  · ext1 r
    by_cases hr : r = s.brk
    · subst hr
      exact (Function.update_self ..).trans (s.unused _ (Nat.le_refl _)).1.symm
    · change Function.update (Function.update (Function.update _ _ _) _ _) _ _ r = _
      rw [Function.update_of_ne hr, Function.update_of_ne hr, Function.update_of_ne hr]
      rfl

theorem run_bitmapCreate_fails (s : BitmapMemory) (hmemory : ¬ memory.Enough n) :
    ∃ s', (bitmapCreate memory n).run s = .ok (none, s') ∧ s'.cells = s.cells ∧
      s'.arrays = s.arrays := by
  rcases eq_or_ne memory.cell none with hcell | hcell
  · exact ⟨s, run_bitmapCreate_none hcell _, rfl, rfl⟩
  · have hrest := not_and.mp hmemory hcell
    rw [not_or, not_not] at hrest
    exact run_bitmapCreate_rollback hcell hrest.1 hrest.2

/-- The blocks of a bitmap at `q` with its elements at `c` are not those of `s`, which are as
they were. -/
structure Fresh (s s' : BitmapMemory) (q : Nat) (c : Option Nat) : Prop where
  cell : s.brk ≤ q
  bits : ∀ r, c = some r → s.brk ≤ r
  cells : ∀ r, r ≠ q → s'.cells r = s.cells r
  arrays : ∀ r, some r ≠ c → s'.arrays r = s.arrays r

theorem Fresh.sameBut {s₁ s₂ : BitmapMemory} {q : Nat} {c : Option Nat} (h : Fresh s s₁ q c)
    (hsame : SameBut c s₁ s₂) : Fresh s s₂ q c :=
  ⟨h.cell, h.bits, fun r hr => (congrFun hsame.cells r).trans (h.cells r hr),
    fun r hr => (hsame.arrays r hr).trans (h.arrays r hr)⟩

/-- With both blocks what remains is to set the bits. -/
theorem run_bitmapCreate_enough (s : BitmapMemory) (hmemory : memory.Enough n) :
    ∃ s' c, Stored s' s.brk c (memory.raw n) ∧ Fresh s s' s.brk c ∧
      (bitmapCreate memory n).run s = (do
        updateBitmap (some s.brk) fun b => Checked.setAll b false
        return some s.brk).run s' := by
  obtain ⟨garbage, hgarbage⟩ := Option.ne_none_iff_exists'.mp hmemory.1
  let s₁ := s.grow.withCell s.brk (Nat.lt_succ_self _) (some garbage)
  have h₁ : s₁.cells s.brk = some garbage := Function.update_self ..
  have hne (r : Nat) (hr : r ≠ s.brk) : s₁.cells r = s.cells r := Function.update_of_ne hr ..
  cases hbits : memory.bits with
  | none =>
      -- no array is needed for no bits
      have hn : n = 0 := hmemory.2.resolve_left fun h => h hbits
      have hraw : memory.raw n = ⟨n, []⟩ := by rw [BitmapMalloc.raw, hbits]
      refine ⟨s₁.withCell s.brk (lt_brk_of_cell h₁) (some ⟨n, none⟩), none, ⟨?_, ?_⟩,
        ⟨Nat.le_refl _, nofun, fun r hr => ?_, fun _ _ => rfl⟩, ?_⟩
      · exact Function.update_self ..
      · rw [hraw]
        rfl
      · exact (Function.update_of_ne hr ..).trans (hne r hr)
      · rw [bitmapCreate, hgarbage, hbits, run_bind_of_ok (a := some s.brk) (t := s₁) rfl]
        simp only [Option.isSome_some, if_true, mallocBits, pure_bind, Option.isSome_none,
          Bool.false_or, decide_eq_true_eq, hn]
        rw [run_bind_of_ok (run_setCell h₁ _)]
  | some content =>
      have hraw : memory.raw n = ⟨n, (List.range (elemCnt n)).map content⟩ := by
        rw [BitmapMalloc.raw, hbits]
      let s₂ := s₁.grow.withArray s₁.brk (Nat.lt_succ_self _)
        (some ((List.range (elemCnt n)).map content))
      have h₂ : s₂.cells s.brk = some garbage := h₁
      refine ⟨s₂.withCell s.brk (lt_brk_of_cell h₂) (some ⟨n, some s₁.brk⟩), some s₁.brk,
        ⟨?_, ?_⟩, ⟨Nat.le_refl _, fun r hr => ?_, fun r hr => ?_, fun r hr => ?_⟩, ?_⟩
      · exact Function.update_self ..
      · rw [hraw]
        exact Function.update_self ..
      · obtain rfl := Option.some.inj hr
        exact Nat.le_succ _
      · exact (Function.update_of_ne hr ..).trans (hne r hr)
      · exact Function.update_of_ne (fun h => hr (congrArg some h)) ..
      · rw [bitmapCreate, hgarbage, hbits, run_bind_of_ok (a := some s.brk) (t := s₁) rfl]
        simp only [Option.isSome_some, if_true]
        rw [run_bind_of_ok (a := some s₁.brk) (t := s₂) rfl, run_bind_of_ok (run_setCell h₂ _)]
        simp only [Option.isSome_some, Bool.true_or, if_true]

/-- A new bitmap has its low bits off and its high bits as `malloc` left them. -/
theorem run_bitmapCreate (s : BitmapMemory) (hmemory : memory.Enough n) (hn : n + 63 < 2 ^ 64) :
    ∃ s' c b, (bitmapCreate memory n).run s = .ok (some s.brk, s') ∧ Stored s' s.brk c b ∧
      Fresh s s' s.brk c ∧ b.Valid ∧ b.bitCnt = n ∧
      ∀ i < n, b.bit i = if i % 64 < 32 then false else memory.bit i := by
  obtain ⟨s₁, c, hraw, hfresh, hrun⟩ := run_bitmapCreate_enough s hmemory
  have hvalid := BitmapMalloc.raw_valid hmemory hn
  obtain ⟨b, hset, hup⟩ := Checked.setAll_spec hvalid false
  obtain ⟨s₂, hupdate, hstored, hsame, _⟩ :=
    hraw.run_update (f := fun b => Checked.setAll b false) hset hup.bitCnt hup.length
  refine ⟨s₂, c, b, ?_, hstored, hfresh.sameBut hsame, hup.valid hvalid, hup.bitCnt,
    fun i hi => ?_⟩
  · rw [hrun, run_bind_of_ok hupdate]
    rfl
  · have hfill : fill (memory.raw n).bit 0 n false i = false :=
      if_pos ⟨Nat.zero_le i, by omega⟩
    rw [hup.bits]
    split
    · exact hfill
    · exact BitmapMalloc.raw_bit hn hi

/-- Where the number of elements wraps to 0, the first bit has none. -/
theorem run_bitmapCreate_wraps (s : BitmapMemory) (hmemory : memory.Enough n) (hn : n < 2 ^ 64)
    (hwrap : 2 ^ 64 ≤ n + 63) : (bitmapCreate memory n).run s = .error .access := by
  obtain ⟨s₁, c, hraw, _, hrun⟩ := run_bitmapCreate_enough s hmemory
  have hcnt := Bitmap.elemCnt_of_le hn hwrap
  have hempty : memory.raw n = ⟨n, []⟩ := by
    rw [BitmapMalloc.raw, hcnt]
    cases memory.bits <;> rfl
  have hset : Checked.setAll (memory.raw n) false = .error .access := by
    rw [hempty]
    exact Checked.setAll_empty (by omega) false
  rw [hrun, run_bind_of_error (hraw.run_update_error hset)]

/-! ### The copy -/

/-- The loop of `bitmap_expand` when every bit has its place in the new bitmap. -/
theorem run_expandLoop {p q : Nat} {a c : Option Nat} {b new : Bitmap} (hb : b.Sized)
    (hapart : Apart a c) {rounds i : Nat} (hrounds : i + rounds = b.bitCnt)
    (hroom : b.bitCnt ≤ new.bitCnt) (hsized : new.Sized) (hold : Stored s p a b)
    (hnew : Stored s q c new) :
    ∃ s' new', (expandLoop (some p) (some q) rounds i).run s = .ok ((), s') ∧
      Stored s' p a b ∧ Stored s' q c new' ∧ SameBut c s s' ∧
      new.LowUpdate new' fun j => if i ≤ j ∧ j < b.bitCnt then b.bit j else new.bit j := by
  induction rounds generalizing s new i with
  | zero =>
      refine ⟨s, new, rfl, hold, hnew, .refl c s, rfl, rfl, fun j => ?_⟩
      have hdone : ¬ (i ≤ j ∧ j < b.bitCnt) := by omega
      rw [if_neg hdone, ite_self]
  | succ rounds ih =>
      have hi : i < b.bitCnt := by omega
      have htest := Checked.test_spec hb hi
      obtain ⟨new₁, hset, hup⟩ := Checked.set_spec hsized (hi.trans_le hroom) (b.bit i)
      obtain ⟨s₁, hupdate, hnew₁, hsame, _⟩ :=
        hnew.run_update (f := fun new => Checked.set new i (b.bit i)) hset hup.bitCnt hup.length
      have hrest : i + 1 + rounds = b.bitCnt := by omega
      have hroom₁ : b.bitCnt ≤ new₁.bitCnt := hup.bitCnt ▸ hroom
      obtain ⟨s₂, new₂, hloop, hold₂, hnew₂, hsame₂, hup₂⟩ :=
        ih hrest hroom₁ (hup.sized hsized) (hold.frame hsame hapart) hnew₁
      refine ⟨s₂, new₂, ?_, hold₂, hnew₂, hsame.trans hsame₂, hup₂.bitCnt.trans hup.bitCnt,
        hup₂.length.trans hup.length, fun j => ?_⟩
      · rw [expandLoop, run_bind_of_ok (hold.run_read htest), run_bind_of_ok hupdate, hloop]
      · rw [hup₂.bits, hup.bits]
        split
        · rcases eq_or_ne j i with rfl | hne
          · rw [if_neg (by omega), if_pos (by omega), Function.update_self]
          · rw [Function.update_of_ne hne]
            exact if_congr (by omega) rfl rfl
        · rfl

/-- It stops at the first bit that has none. -/
theorem run_expandLoop_error {p q : Nat} {a c : Option Nat} {b new : Bitmap} (hb : b.Sized)
    (hapart : Apart a c) {rounds i : Nat} (hrounds : i + rounds = b.bitCnt)
    (hroom : new.bitCnt < b.bitCnt) (hi : i ≤ new.bitCnt) (hsized : new.Sized)
    (hold : Stored s p a b) (hnew : Stored s q c new) :
    (expandLoop (some p) (some q) rounds i).run s = .error .assertion := by
  induction rounds generalizing s new i with
  | zero => omega
  | succ rounds ih =>
      have hlt : i < b.bitCnt := hi.trans_lt hroom
      have htest := Checked.test_spec hb hlt
      rw [expandLoop, run_bind_of_ok (hold.run_read htest)]
      rcases Nat.lt_or_eq_of_le hi with hlt | rfl
      · obtain ⟨new₁, hset, hup⟩ := Checked.set_spec hsized hlt (b.bit i)
        obtain ⟨s₁, hupdate, hnew₁, hsame, _⟩ :=
          hnew.run_update (f := fun new => Checked.set new i (b.bit i)) hset hup.bitCnt hup.length
        have hrest : i + 1 + rounds = b.bitCnt := by omega
        have hroom₁ : new₁.bitCnt < b.bitCnt := hup.bitCnt.symm ▸ hroom
        have hi₁ : i + 1 ≤ new₁.bitCnt := hup.bitCnt.symm ▸ hlt
        rw [run_bind_of_ok hupdate]
        exact ih hrest hroom₁ hi₁ (hup.sized hsized) (hold.frame hsame hapart) hnew₁
      · rw [run_bind_of_error (hnew.run_update_error (Checked.set_past (Nat.le_refl _) _))]

/-! ### Destruction and expansion -/

theorem Stored.run_bitmapDestroy {p : Nat} {a : Option Nat} {b : Bitmap} (hb : Stored s p a b) :
    ∃ s', (bitmapDestroy (some p)).run s = .ok ((), s') ∧
      s'.cells = Function.update s.cells p none ∧
      ∀ r, s'.arrays r = if a = some r then none else s.arrays r := by
  have hbits := hb.bits
  cases a with
  | none =>
      refine ⟨s.withCell p (lt_brk_of_cell hb.cell) none, ?_, rfl, fun r => rfl⟩
      rw [bitmapDestroy]
      simp only [Option.isSome_some, if_true]
      rw [run_bind_of_ok hb.run_getCell]
      exact run_freeCell hb.cell
  | some r =>
      have harray : s.arrays r = some b.bits := hbits
      let s₁ := s.withArray r (lt_brk_of_array harray) none
      have hcell : s₁.cells p = some ⟨b.bitCnt, some r⟩ := hb.cell
      have hfree : (freeBits (some r)).run s = .ok ((), s₁) := by
        simp only [StateT.run, freeBits]
        split
        · simp_all
        · rfl
      refine ⟨s₁.withCell p (lt_brk_of_cell hcell) none, ?_, rfl, fun r' => ?_⟩
      · rw [bitmapDestroy]
        simp only [Option.isSome_some, if_true]
        rw [run_bind_of_ok hb.run_getCell, run_bind_of_ok hfree]
        exact run_freeCell hcell
      · change Function.update s.arrays r none r' = _
        rw [Function.update_apply]
        exact if_congr ⟨fun h => congrArg some h.symm, fun h => (Option.some.inj h).symm⟩ rfl rfl

section Expand

variable {p : Nat} {a : Option Nat} {b : Bitmap} {size : Int}

/-- Without memory for the new bitmap nothing changes. -/
theorem Stored.run_bitmapExpand_none (hb : Stored s p a b)
    (hmemory : ¬ memory.Enough (sizeT (b.bitCnt + sizeTOfInt size))) :
    ∃ s', (bitmapExpand memory (some p) size).run s = .ok (none, s') ∧ s'.cells = s.cells ∧
      s'.arrays = s.arrays := by
  obtain ⟨s', hrun, hsame⟩ := run_bitmapCreate_fails s hmemory
  refine ⟨s', ?_, hsame⟩
  rw [bitmapExpand, run_bind_of_ok hb.run_bitmapSize, run_bind_of_ok hrun]
  rfl

/-- What the calls before the loop do. -/
theorem Stored.run_bitmapExpand_enough (hb : Stored s p a b)
    (hmemory : memory.Enough (sizeT (b.bitCnt + sizeTOfInt size)))
    (hlt : sizeT (b.bitCnt + sizeTOfInt size) + 63 < 2 ^ 64) :
    ∃ s' c new, Stored s' p a b ∧ Stored s' s.brk c new ∧ Apart a c ∧ Fresh s s' s.brk c ∧
      new.Valid ∧ new.bitCnt = sizeT (b.bitCnt + sizeTOfInt size) ∧
      (∀ i < new.bitCnt, new.bit i = if i % 64 < 32 then false else memory.bit i) ∧
      (bitmapExpand memory (some p) size).run s = (do
        expandLoop (some p) (some s.brk) b.bitCnt 0
        bitmapDestroy (some p)
        return some s.brk).run s' := by
  obtain ⟨s', c, new, hrun, hnew, hfresh, hvalid, hcnt, hbits⟩ := run_bitmapCreate s hmemory hlt
  have hp : p ≠ s.brk := (lt_brk_of_cell hb.cell).ne
  have hold (r : Nat) (hr : a = some r) : r < s.brk := by
    subst hr
    exact lt_brk_of_array hb.bits
  have hapart : Apart a c := fun r hr hc => absurd (hold r hr) (Nat.not_lt.mpr (hfresh.bits r hc))
  have hold' : Stored s' p a b := by
    refine ⟨(hfresh.cells p hp).trans hb.cell, ?_⟩
    cases a with
    | none => exact hb.bits
    | some r => exact (hfresh.arrays r fun h => hapart r rfl h.symm).trans hb.bits
  refine ⟨s', c, new, hold', hnew, hapart, hfresh, hvalid, hcnt, hcnt ▸ hbits, ?_⟩
  rw [bitmapExpand, run_bind_of_ok hb.run_bitmapSize, run_bind_of_ok hrun]
  rfl

/-- A bitmap that does not shrink is copied and destroyed. -/
theorem Stored.run_bitmapExpand_copy (hb : Stored s p a b) (hvalid : b.Valid)
    (hmemory : memory.Enough (sizeT (b.bitCnt + sizeTOfInt size)))
    (hlt : sizeT (b.bitCnt + sizeTOfInt size) + 63 < 2 ^ 64)
    (hle : b.bitCnt ≤ sizeT (b.bitCnt + sizeTOfInt size)) :
    ∃ s' c new, (bitmapExpand memory (some p) size).run s = .ok (some s.brk, s') ∧
      Stored s' s.brk c new ∧ new.Valid ∧ new.bitCnt = sizeT (b.bitCnt + sizeTOfInt size) ∧
      (∀ i < new.bitCnt, new.bit i =
        if i % 64 < 32 then decide (i < b.bitCnt) && b.bit i else memory.bit i) ∧
      Apart a c ∧ (∀ r, r ≠ s.brk → s'.cells r = if r = p then none else s.cells r) ∧
      ∀ r, some r ≠ c → s'.arrays r = if a = some r then none else s.arrays r := by
  obtain ⟨s₁, c, new, hold, hnew, hapart, hfresh, hnewValid, hcnt, hbits, hrun⟩ :=
    hb.run_bitmapExpand_enough hmemory hlt
  obtain ⟨s₂, new₂, hloop, hold₂, hnew₂, hsame, hup⟩ :=
    run_expandLoop hvalid.sized hapart (Nat.zero_add _) (hcnt ▸ hle) hnewValid.sized hold hnew
  obtain ⟨s₃, hdestroy, hcells, harrays⟩ := hold₂.run_bitmapDestroy
  have hp : p ≠ s.brk := (lt_brk_of_cell hb.cell).ne
  have hfresh₂ := hfresh.sameBut hsame
  refine ⟨s₃, c, new₂, ?_, ⟨?_, ?_⟩, hup.valid hnewValid, hup.bitCnt.trans hcnt, fun i hi => ?_,
    hapart, fun r hr => ?_, fun r hr => ?_⟩
  · rw [hrun, run_bind_of_ok hloop, run_bind_of_ok hdestroy]
    rfl
  · rw [hcells, Function.update_of_ne hp.symm]
    exact hnew₂.cell
  -- `bitmap_destroy` takes the old array, which is another one
  · have helems := hnew₂.bits
    cases c with
    | none => exact helems
    | some r =>
        refine Eq.trans ?_ helems
        exact (harrays r).trans (if_neg fun h => hapart r h rfl)
  · have hi' : i < new.bitCnt := hup.bitCnt ▸ hi
    rw [hup.bits]
    split
    · rename_i hlow
      rw [hbits i hi', if_pos hlow]
      by_cases hib : i < b.bitCnt <;> simp [hib]
    · rename_i hhigh
      rw [hbits i hi', if_neg hhigh]
  · rw [hcells, Function.update_apply, hfresh₂.cells r hr]
  · rw [harrays, hfresh₂.arrays r hr]

/-- The first bit without a place in the new bitmap trips the `ASSERT` of `bitmap_set`. -/
theorem Stored.run_bitmapExpand_shrink (hb : Stored s p a b) (hvalid : b.Valid)
    (hmemory : memory.Enough (sizeT (b.bitCnt + sizeTOfInt size)))
    (hlt : sizeT (b.bitCnt + sizeTOfInt size) < b.bitCnt) :
    (bitmapExpand memory (some p) size).run s = .error .assertion := by
  have hsize := hvalid.lt
  obtain ⟨s₁, c, new, hold, hnew, hapart, _, hnewValid, hcnt, _, hrun⟩ :=
    hb.run_bitmapExpand_enough hmemory (by omega)
  have hloop := run_expandLoop_error hvalid.sized hapart (Nat.zero_add _) (hcnt ▸ hlt)
    (Nat.zero_le _) hnewValid.sized hold hnew
  rw [hrun, run_bind_of_error hloop]

theorem Stored.run_bitmapExpand_wraps (hb : Stored s p a b)
    (hmemory : memory.Enough (sizeT (b.bitCnt + sizeTOfInt size)))
    (hwrap : 2 ^ 64 ≤ sizeT (b.bitCnt + sizeTOfInt size) + 63) :
    (bitmapExpand memory (some p) size).run s = .error .access := by
  have hcreate := run_bitmapCreate_wraps s hmemory (Nat.mod_lt _ (by decide)) hwrap
  rw [bitmapExpand, run_bind_of_ok hb.run_bitmapSize, run_bind_of_error hcreate]

/-! ### What is expected of the call -/

/-- Null and nothing changed, or a bitmap of the new size with the old bits, and the old one
destroyed. -/
def ExpandedWell (s : BitmapMemory) (p : Nat) (a : Option Nat) (b : Bitmap) (size : Int)
    (result : Except Fault (Option Nat × BitmapMemory)) : Prop :=
  (∃ s', result = .ok (none, s') ∧ s'.cells = s.cells ∧ s'.arrays = s.arrays) ∨
    ∃ s' q c new, result = .ok (some q, s') ∧ Stored s' q c new ∧ new.Valid ∧
      (new.bitCnt : Int) = b.bitCnt + size ∧
      (∀ i < new.bitCnt, new.bit i = (decide (i < b.bitCnt) && b.bit i)) ∧
      s'.cells p = none ∧ ∀ r, a = some r → s'.arrays r = none

theorem not_expandedWell_error {fault : Fault} : ¬ ExpandedWell s p a b size (.error fault) := by
  rintro (⟨_, h, _⟩ | ⟨_, _, _, _, h, _⟩)
  · cases h
  · cases h

/-- A bitmap with nothing else in memory. -/
def ofBitmap (b : Bitmap) : BitmapMemory where
  cells q := if q = 0 then some ⟨b.bitCnt, some 1⟩ else none
  arrays q := if q = 1 then some b.bits else none
  brk := 2
  unused q hq := ⟨if_neg (by omega), if_neg (by omega)⟩

theorem stored_ofBitmap (b : Bitmap) : Stored (ofBitmap b) 0 (some 1) b := ⟨rfl, rfl⟩

end Expand

end BitmapMemory

open BitmapMemory

/-- **`bitmap_expand` does what is expected** exactly if there is no memory for the new bitmap,
or it grows, its size is far enough from 2^64, and the memory it gets has the right bits in the
places no instruction reaches. -/
theorem bitmapExpand_iff (s : BitmapMemory) (memory : BitmapMalloc) (p : Nat) (a : Option Nat)
    (b : Bitmap) (size : Int) (hvalid : b.Valid) (hb : Stored s p a b)
    (hsize : -2 ^ 31 ≤ size ∧ size < 2 ^ 31) :
    ExpandedWell s p a b size ((bitmapExpand memory (some p) size).run s) ↔
      ¬ memory.Enough (sizeT (b.bitCnt + sizeTOfInt size)) ∨
        (0 ≤ size ∧ b.bitCnt + size + 63 < 2 ^ 64 ∧
          ∀ i : Nat, i < b.bitCnt + size → 32 ≤ i % 64 →
            memory.bit i = (decide (i < b.bitCnt) && b.bit i)) := by
  have hroom := hvalid.lt
  have hnew : (sizeT (b.bitCnt + sizeTOfInt size) : Int) = (b.bitCnt + size) % 2 ^ 64 := by
    simp only [sizeT, sizeTOfInt]
    omega
  by_cases hmemory : memory.Enough (sizeT (b.bitCnt + sizeTOfInt size))
  swap
  · exact iff_of_true (.inl (hb.run_bitmapExpand_none hmemory)) (.inl hmemory)
  simp only [hmemory, not_true_eq_false, false_or]
  rcases Nat.lt_or_ge (sizeT (b.bitCnt + sizeTOfInt size)) b.bitCnt with hlt | hle
  · rw [hb.run_bitmapExpand_shrink hvalid hmemory hlt]
    refine iff_of_false not_expandedWell_error ?_
    rintro ⟨h0, h64, -⟩
    omega
  rcases Nat.lt_or_ge (sizeT (b.bitCnt + sizeTOfInt size) + 63) (2 ^ 64) with hlt | hwrap
  swap
  · rw [hb.run_bitmapExpand_wraps hmemory hwrap]
    refine iff_of_false not_expandedWell_error ?_
    rintro ⟨h0, h64, -⟩
    omega
  obtain ⟨s', c, new, hrun, hstored, hnewValid, hcnt, hbits, hapart, hcells, harrays⟩ :=
    hb.run_bitmapExpand_copy hvalid hmemory hlt hle
  constructor
  · rintro (⟨_, hrun', _⟩ | ⟨s₂, q, c', new', hrun', hstored', _, hcnt', hbits', _, _⟩)
    · rw [hrun] at hrun'
      cases hrun'
    rw [hrun] at hrun'
    cases hrun'
    obtain rfl := hstored.unique hstored'
    refine ⟨by omega, by omega, fun i hi h32 => ?_⟩
    have hi' : i < new.bitCnt := by omega
    rw [← hbits' i hi', hbits i hi', if_neg (by omega)]
  · rintro ⟨h0, h64, hhigh⟩
    refine .inr ⟨s', s.brk, c, new, hrun, hstored, hnewValid, by omega, fun i hi => ?_, ?_,
      fun r hr => ?_⟩
    · rw [hbits i hi]
      split
      · rfl
      · exact hhigh i (by omega) (by omega)
    · rw [hcells p (lt_brk_of_cell hb.cell).ne, if_pos rfl]
    · rw [harrays r fun h => hapart r hr h.symm, if_pos hr]

/-- On zeroed memory a bitmap of 10 bits grows to one of 12. -/
theorem bitmapExpand_iff_twelve :
    ExpandedWell (ofBitmap ⟨10, [5]⟩) 0 (some 1) ⟨10, [5]⟩ 2
      ((bitmapExpand .zeroed (some 0) 2).run (ofBitmap ⟨10, [5]⟩)) := by
  apply (bitmapExpand_iff (ofBitmap ⟨10, [5]⟩) .zeroed 0 (some 1) ⟨10, [5]⟩ 2
    ⟨by decide, rfl, by decide⟩ (stored_ofBitmap _) (by decide)).mpr
  refine .inr ⟨by decide, by decide, fun i hi h32 => ?_⟩
  have hi' : (i : Int) < 10 + 2 := hi
  omega

/-- A bitmap of 10 bits does not shrink to one of 8. -/
theorem bitmapExpand_shrinks_not :
    ¬ ∀ (s : BitmapMemory) (memory : BitmapMalloc) (p : Nat) (a : Option Nat) (b : Bitmap)
        (size : Int), b.Valid → Stored s p a b → -2 ^ 31 ≤ size ∧ size < 2 ^ 31 →
      ExpandedWell s p a b size ((bitmapExpand memory (some p) size).run s) := by
  intro h
  have hvalid : Bitmap.Valid ⟨10, [5]⟩ := ⟨by decide, rfl, by decide⟩
  have hwell := h (ofBitmap ⟨10, [5]⟩) .zeroed 0 (some 1) ⟨10, [5]⟩ (-2) hvalid
    (stored_ofBitmap _) (by decide)
  have hrun := (stored_ofBitmap ⟨10, [5]⟩).run_bitmapExpand_shrink hvalid
    (BitmapMalloc.enough_zeroed (sizeT (10 + sizeTOfInt (-2)))) (by decide)
  rw [hrun] at hwell
  exact not_expandedWell_error hwell

end SystemProgramming.Testlib
