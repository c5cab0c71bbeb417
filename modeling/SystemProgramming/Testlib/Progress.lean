import SystemProgramming.Testlib.ValidObjects

/-!
When a line comes to an end. On valid objects every command does, as long as
`list_splice` and `list_unique` keep to their lists, the products of
`hash_apply` are `int`s, and the bits that a bitmap command names are there: no
`ASSERT` fails, no loop runs on, no memory that is not there is read, written or
freed.
-/

namespace SystemProgramming.Testlib

open SystemProgramming.CLib SystemProgramming.Library BitmapMemory

/-! ### Calls on bitmaps -/

section Calls

variable {b : Bitmap} {start cnt idx : Nat} {value : Bool}

namespace Checked

theorem exists_countLoop (hb : b.Valid) (value : Bool) {rounds i : Nat}
    (hrounds : start + i + rounds ≤ b.bitCnt) (valueCnt : Nat) :
    ∃ n, countLoop b start value rounds i valueCnt = .ok n := by
  induction rounds generalizing i valueCnt with
  | zero => exact ⟨valueCnt, rfl⟩
  | succ rounds ih =>
      have hlt := hb.lt
      have hwrap : sizeT (start + i) = start + i := Nat.mod_eq_of_lt (by omega)
      have htest := test_spec hb.sized (show sizeT (start + i) < b.bitCnt by omega)
      obtain ⟨n, hrest⟩ := ih (i := i + 1) (by omega)
        (if b.bit (sizeT (start + i)) = value then sizeT (valueCnt + 1) else valueCnt)
      exact ⟨n, bind_eq_ok.mpr ⟨_, htest, hrest⟩⟩

theorem assertRange_eq (hb : b.Valid) (h : start + cnt ≤ b.bitCnt) :
    assertRange b start cnt = .ok () := by
  have hlt := hb.lt
  have hwrap : sizeT (start + cnt) = start + cnt := Nat.mod_eq_of_lt (by omega)
  refine toOption_eq_some.mp ((toOption_assertRange b start cnt).trans (if_pos ⟨by omega, ?_⟩))
  rw [hwrap]
  exact h

theorem exists_count (hb : b.Valid) (h : start + cnt ≤ b.bitCnt) (value : Bool) :
    ∃ n, count b start cnt value = .ok n := by
  have h₀ : start + 0 + cnt ≤ b.bitCnt := h
  obtain ⟨n, hloop⟩ := exists_countLoop hb value h₀ 0
  exact ⟨n, bind_eq_ok.mpr ⟨(), assertRange_eq hb h, hloop⟩⟩

theorem exists_contains (hb : b.Valid) (h : start + cnt ≤ b.bitCnt) (value : Bool) :
    ∃ found, contains b start cnt value = .ok found :=
  ⟨_, toOption_eq_some.mp ((toOption_contains b start cnt value).trans
    (Bitmap.contains_spec hb.sized hb.size h value))⟩

theorem exists_setMultiple (hb : b.Valid) (h : start + cnt ≤ b.bitCnt) (value : Bool) :
    ∃ b', setMultiple b start cnt value = .ok b' := by
  obtain ⟨b', hset, _⟩ := exists_ok_of_toOption (toOption_setMultiple b start cnt value)
    (Bitmap.setMultiple_spec hb.sized hb.size h value)
  exact ⟨b', hset⟩

theorem scan_eq (hb : b.Valid) (h : start ≤ b.bitCnt) (cnt : Nat) (value : Bool) :
    scan b start cnt value = .ok ((firstGroup b.bitCnt b.bit start cnt value).getD BITMAP_ERROR) :=
  toOption_eq_some.mp ((toOption_scan b start cnt value).trans
    (Bitmap.scan_spec hb.sized hb.size h cnt value))

theorem exists_scanAndFlip (hb : b.Valid) (h : start ≤ b.bitCnt) (cnt : Nat) (value : Bool) :
    ∃ result, scanAndFlip b start cnt value = .ok result := by
  have hscan := scan_eq hb h cnt value
  cases hgroup : firstGroup b.bitCnt b.bit start cnt value with
  | none =>
      rw [hgroup] at hscan
      exact ⟨_, bind_eq_ok.mpr ⟨_, hscan, if_neg (not_not.mpr rfl)⟩⟩
  | some i =>
      rw [hgroup] at hscan
      obtain ⟨⟨_, hlast, _⟩, _⟩ := Bitmap.firstGroup_eq_some.mp hgroup
      obtain ⟨b', hset⟩ := exists_setMultiple hb hlast (!value)
      have hlt := hb.lt
      have hne : i ≠ BITMAP_ERROR := by
        rw [BITMAP_ERROR, SIZE_MAX]
        omega
      exact ⟨_, bind_eq_ok.mpr ⟨i, hscan, (if_pos hne).trans (bind_eq_ok.mpr ⟨b', hset, rfl⟩)⟩⟩

theorem exists_dump (hb : b.Valid) : ∃ text, dump b = .ok text := by
  have hassert : Avoids .assertion (dump b) := by
    refine (avoids_mapM fun k _ => ?_).bind fun _ _ => avoids_pure _ _
    refine Avoids.bind ?_ fun _ _ => avoids_pure _ _
    rw [elem]
    split <;> exact fun h => by cases h
  cases hdump : dump b with
  | ok text => exact ⟨text, rfl⟩
  | error fault =>
      cases fault with
      | assertion => exact absurd hdump hassert
      | access => exact absurd hdump (safe_dump hb)

end Checked

end Calls

/-! ### Bitmap commands -/

namespace BitmapMemory

variable {s : BitmapMemory} {p : Nat} {a : Option Nat} {b : Bitmap} {memory : BitmapMalloc}
  {β : Type}

theorem Alone.exists_read (h : Alone s p a b) {f : Bitmap → Except Fault β} (text : β → String)
    (hf : ∃ x, f b = .ok x) :
    ∃ result s', (do return (text (← readBitmap (some p) f), some p) : BitmapProg _).run s =
      .ok (result, s') := by
  obtain ⟨x, hx⟩ := hf
  exact ⟨_, s, (run_bind_of_ok (h.stored.run_read hx)).trans rfl⟩

theorem Alone.exists_change (h : Alone s p a b) {f : Bitmap → Except Fault (β × Bitmap)}
    (text : β → String) (hf : ∃ result, f b = .ok result)
    (hsize : ∀ x b', f b = .ok (x, b') → Checked.SameSize b b') :
    ∃ result s', (do return (text (← changeBitmap (some p) f), some p) : BitmapProg _).run s =
      .ok (result, s') := by
  obtain ⟨⟨x, b'⟩, hx⟩ := hf
  have hsame := hsize x b' hx
  obtain ⟨s', hchange, _⟩ := h.stored.run_change hx hsame.bitCnt hsame.length
  exact ⟨_, s', (run_bind_of_ok hchange).trans rfl⟩

theorem Alone.exists_update (h : Alone s p a b) {f : Bitmap → Except Fault Bitmap}
    (hf : ∃ b', f b = .ok b') (hsize : ∀ b', f b = .ok b' → Checked.SameSize b b') :
    ∃ result s', (do
      updateBitmap (some p) f
      return ("", some p) : BitmapProg _).run s = .ok (result, s') := by
  obtain ⟨b', hb'⟩ := hf
  have hsame := hsize b' hb'
  obtain ⟨s', hupdate, _⟩ := h.stored.run_update hb' hsame.bitCnt hsame.length
  exact ⟨_, s', (run_bind_of_ok hupdate).trans rfl⟩

/-- `bitmap_expand` gets no memory for a size that is out of range. -/
def Grows (memory : BitmapMalloc) (b : Bitmap) (size : Int) : Prop :=
  memory.Enough (sizeT (b.bitCnt + sizeTOfInt size)) → b.bitCnt + sizeTOfInt size + 63 < 2 ^ 64

theorem Alone.exists_doBitmapCommand (h : Alone s p a b) {c : BitmapCommand}
    (hrange : c.InRange b.bitCnt) (hgrows : ∀ size, c = .expand size → Grows memory b size) :
    ∃ result s', (doBitmapCommand memory (some p) c).run s = .ok (result, s') := by
  have hsized := h.valid.sized
  have hlt := h.valid.lt
  cases c with
  | mark idx =>
      obtain ⟨b', hb', _⟩ := exists_ok_of_toOption (Checked.toOption_mark b idx)
        (Bitmap.mark_spec (hsized idx hrange))
      exact h.exists_update ⟨b', hb'⟩ fun _ => Checked.sameSize_asm
  | reset idx =>
      obtain ⟨b', hb', _⟩ := exists_ok_of_toOption (Checked.toOption_reset b idx)
        (Bitmap.reset_spec (hsized idx hrange))
      exact h.exists_update ⟨b', hb'⟩ fun _ => Checked.sameSize_asm
  | flip idx =>
      obtain ⟨b', hb', _⟩ := exists_ok_of_toOption (Checked.toOption_flip b idx)
        (Bitmap.flip_spec (hsized idx hrange))
      exact h.exists_update ⟨b', hb'⟩ fun _ => Checked.sameSize_asm
  | set idx value =>
      obtain ⟨b', hb', _⟩ := Checked.set_spec hsized hrange value
      exact h.exists_update ⟨b', hb'⟩ fun _ hset => (Checked.of_set hset).2
  | test idx => exact h.exists_read boolText ⟨_, Checked.test_spec hsized hrange⟩
  | setAll value =>
      exact h.exists_update (Checked.exists_setMultiple h.valid (Nat.zero_add _).le value)
        fun _ hset => (Checked.of_setMultiple h.valid.size hset).2
  | setMultiple start cnt value =>
      exact h.exists_update (Checked.exists_setMultiple h.valid hrange value)
        fun _ hset => (Checked.of_setMultiple h.valid.size hset).2
  | count start cnt value =>
      exact h.exists_read sizeText (Checked.exists_count h.valid hrange value)
  | contains start cnt value =>
      exact h.exists_read boolText (Checked.exists_contains h.valid hrange value)
  | any start cnt => exact h.exists_read boolText (Checked.exists_contains h.valid hrange true)
  | none start cnt =>
      obtain ⟨found, hfound⟩ := Checked.exists_contains h.valid hrange true
      exact h.exists_read boolText ⟨!found, bind_eq_ok.mpr ⟨found, hfound, rfl⟩⟩
  | all start cnt =>
      obtain ⟨found, hfound⟩ := Checked.exists_contains h.valid hrange false
      exact h.exists_read boolText ⟨!found, bind_eq_ok.mpr ⟨found, hfound, rfl⟩⟩
  | scan start cnt value =>
      exact h.exists_read sizeText
        ⟨_, Checked.scan_eq h.valid ((Nat.le_add_right _ _).trans hrange) cnt value⟩
  | scanAndFlip start cnt value =>
      exact h.exists_change sizeText (Checked.exists_scanAndFlip h.valid
        ((Nat.le_add_right _ _).trans hrange) cnt value)
        fun _ _ hflip => (of_scanAndFlip h.valid hflip).1
  | size => exact ⟨_, s, (run_bind_of_ok h.stored.run_bitmapSize).trans rfl⟩
  | dump => exact h.exists_read id (Checked.exists_dump h.valid)
  | expand size =>
      by_cases hmemory : memory.Enough (sizeT (b.bitCnt + sizeTOfInt size))
      · have hsum := hgrows size rfl hmemory
        have hwrap : sizeT (b.bitCnt + sizeTOfInt size) = b.bitCnt + sizeTOfInt size :=
          Nat.mod_eq_of_lt (by omega)
        obtain ⟨s', _, _, hrun, _⟩ := h.stored.run_bitmapExpand_copy h.valid hmemory (by omega)
          (by omega)
        exact ⟨_, s', (run_bind_of_ok hrun).trans rfl⟩
      · obtain ⟨s', hrun, _⟩ := h.stored.run_bitmapExpand_none hmemory
        exact ⟨_, s', (run_bind_of_ok hrun).trans rfl⟩

end BitmapMemory

/-! ### Legal lines -/

variable {s : Store} {fuel k : Nat} {o : Outcomes} {tokens : List String} {i : Fin MAX_DS}

/-- What a line may ask for, and what `malloc` has to find for it. -/
structure LineLegal (s : Store) (line : Line) : Prop where
  buckets : ∀ name rest, line.1 = "create" :: "hashtable" :: name :: rest →
    line.2.hash.buckets ≠ none
  bitCnt : ∀ name bitCnt rest, line.1 = "create" :: "bitmap" :: name :: bitCnt :: rest →
    0 ≤ number bitCnt
  /-- The range does not end before it begins, and does not go into itself. -/
  splice : ∀ token name args before source first last, line.1 = token :: name :: args →
    listCommand token args = some (.splice before source first last) → first ≤ last ∧
      ∀ i, findList s.lists.lists name = some i → findList s.lists.lists source = some i →
        ¬ (first ≤ before ∧ before < last)
  /-- The duplicates go to another list. -/
  unique : ∀ token name args other, line.1 = token :: name :: args →
    listCommand token args = some (.unique (some other)) →
      ∀ i, findList s.lists.lists name = some i → findList s.lists.lists other ≠ some i
  /-- No product is out of range. -/
  apply : ∀ token name args action, line.1 = token :: name :: args →
    hashCommand token args = some (.apply (some action)) →
      ∀ i, findHash s name = some i → (s.hashes i).obj.Fits action
  /-- The bits are bits of the bitmap, which does not get shorter, or out of range. -/
  bits : ∀ token name args c, line.1 = token :: name :: args → bitmapCommand token args = some c →
    ∀ i p a b, findBitmap s name = some i → (s.bitmaps i).obj.bitmap = some p →
      Stored (s.bitmaps i).obj.memory p a b → c.InRange b.bitCnt ∧
        ∀ size, c = .expand size → 0 ≤ size ∧ Grows line.2.bitmap b size

theorem number_lt (token : String) : number token < 2 ^ 31 :=
  Int.bmod_lt (Nat.two_pow_pos 32)

theorem LineLegal.keepsValid {line : Line} (hlegal : LineLegal s line) : KeepsValid s line where
  hash name rest heq _ := hlegal.buckets name rest heq
  bitmap name bitCnt rest heq _ h := by
    have hlt := number_lt bitCnt
    have hle := hlegal.bitCnt name bitCnt rest heq
    have hwrap := h.2
    rw [sizeTOfInt] at hwrap
    omega
  splice token name args before source first last heq hcommand := by
    intro i j xs ys hi hj _ _ hrange
    obtain ⟨hle, hout⟩ := hlegal.splice token name args before source first last heq hcommand
    rcases Int.lt_or_eq_of_le hle with hlt | rfl
    · refine .inr (.inl ⟨hlt, fun hboth => ?_⟩)
      obtain ⟨hsame, hin⟩ := hboth
      obtain rfl : i = j := of_decide_eq_true hsame
      exact hout i hi hj hin
    · exact .inl rfl
  storage token name args c heq hcommand i p a b hfind hp hb hvalid := by
    obtain ⟨hrange, hexpand⟩ := hlegal.bits token name args c heq hcommand i p a b hfind hp hb
    cases c with
    | mark idx | reset idx | flip idx =>
        have hsized := hvalid.sized idx hrange
        rwa [hvalid.length] at hsized
    | expand size =>
        rintro ⟨hmemory, hwrap⟩
        have hgrows := (hexpand size rfl).2 hmemory
        have hmod := Nat.mod_le (b.bitCnt + sizeTOfInt size) (2 ^ 64)
        rw [sizeT] at hwrap
        omega
    | _ => trivial

theorem LineLegal.reference {r : Reference} {items : Fin MAX_DS → List Nat}
    {token name : String} {args : List String} {c : ListCommand}
    (hlegal : LineLegal s (token :: name :: args, o)) (hs : Represents s.lists r items)
    (hcommand : listCommand token args = some c) : r.Legal (.list name c) := by
  cases c with
  | splice before source first last =>
      obtain ⟨hle, hout⟩ := hlegal.splice token name args before source first last rfl hcommand
      simp only [findList_eq hs] at hout
      exact ⟨hle, hout⟩
  | unique duplicates =>
      cases duplicates with
      | none => trivial
      | some other =>
          have hother := hlegal.unique token name args other rfl hcommand
          simp only [findList_eq hs] at hother
          exact hother
  | _ => trivial

/-! ### Objects -/

theorem Store.Lasts.exists_destroyList (h : s.Lasts fuel k)
    (hused : (s.lists.lists i).used = true) :
    ∃ s', (onLists (destroyList fuel i)).run s = some ((), s') := by
  obtain ⟨r, items, hs, _, hfuel⟩ := h.represents
  obtain ⟨l, _, hrun, _⟩ := does_destroyList hs (hs.isSome_of_used hused)
    (Nat.lt_of_succ_lt (hfuel i))
  exact ⟨_, run_onLists hrun⟩

theorem Store.Lasts.exists_destroyHash (h : s.Lasts fuel k) (hused : (s.hashes i).used = true) :
    ∃ obj, (clearTable fuel).run (s.hashAt i) = some ((), obj) ∧
      (Main.destroyHash fuel i).run s =
        some ((), s.putHash i { s.hashes i with used := false, obj := obj }) := by
  obtain ⟨a, rows, S, m, ht, hm⟩ := h.hashAt hused
  obtain ⟨obj, hclear, _⟩ := ht.run_clearTable (show m < fuel by omega)
  refine ⟨obj, hclear, (run_bind_of (run_onHash hclear)).trans ?_⟩
  change some ((), _) = _
  simp [Store.putHash]

theorem Store.Lasts.exists_destroyBitmap (h : s.Lasts fuel k)
    (hused : (s.bitmaps i).used = true) :
    ∃ memory, (bitmapDestroy (s.bitmaps i).obj.bitmap).run (s.bitmaps i).obj.memory =
        .ok ((), memory) ∧
      (Main.destroyBitmap i).run s = some ((), s.putBitmap i { s.bitmaps i with
        used := false, obj := { (s.bitmaps i).obj with memory := memory } }) := by
  obtain ⟨p, a, b, hp, halone⟩ := (h.bitmaps i).used hused
  obtain ⟨memory, hdestroy, _⟩ := halone.run_bitmapDestroy
  rw [← hp] at hdestroy
  have hget : (get : MainProg Store).run s = some (s, s) := rfl
  refine ⟨memory, hdestroy, (run_bind_of hget).trans
    ((run_bind_of (run_onBitmap hdestroy)).trans ?_)⟩
  change some ((), _) = _
  simp [Store.putBitmap]

/-! ### Lines -/

theorem Store.Lasts.exists_doDelete (h : s.Lasts fuel k) (name : String) :
    ∃ s', (Main.doDelete fuel name).run s = some ((), s') := by
  have hget : (get : MainProg Store).run s = some (s, s) := rfl
  rw [Main.doDelete, run_bind_of hget]
  cases hfind : findObject s name with
  | none => exact ⟨s, rfl⟩
  | some found =>
      obtain ⟨kind, i⟩ := found
      have hused := of_findObject hfind
      cases kind with
      | list => exact h.exists_destroyList hused
      | hash =>
          obtain ⟨obj, _, hrun⟩ := h.exists_destroyHash hused
          exact ⟨_, hrun⟩
      | bitmap =>
          obtain ⟨memory, _, hrun⟩ := h.exists_destroyBitmap hused
          exact ⟨_, hrun⟩

theorem Store.Lasts.exists_doDumpdata (h : s.Lasts fuel k) (name : String) :
    ∃ s', (Main.doDumpdata fuel name).run s = some ((), s') := by
  have hget : (get : MainProg Store).run s = some (s, s) := rfl
  rw [Main.doDumpdata, run_bind_of hget]
  cases hfind : findObject s name with
  | none => exact ⟨s, rfl⟩
  | some found =>
      obtain ⟨kind, i⟩ := found
      have hused := of_findObject hfind
      cases kind with
      | list =>
          obtain ⟨r, items, hs, _, hfuel⟩ := h.represents
          obtain ⟨l, _, hrun, _⟩ := does_dumpList hs (hs.isSome_of_used hused)
            (Nat.lt_of_succ_lt (hfuel i))
          exact ⟨_, run_onLists hrun⟩
      | hash =>
          obtain ⟨a, rows, S, m, ht, hm⟩ := h.hashAt hused
          obtain ⟨vs, hdump, _⟩ := ht.run_dumpHash (show m < fuel by omega)
          exact ⟨_, run_onHash hdump⟩
      | bitmap =>
          obtain ⟨p, a, b, hp, halone⟩ := (h.bitmaps i).used hused
          obtain ⟨text, hdump⟩ := halone.run_dumpBitmap
          rw [← hp] at hdump
          exact ⟨_, (run_bind_of hget).trans ((run_bind_of (run_onBitmap hdump)).trans rfl)⟩

theorem Store.Lasts.exists_doListCommand (h : s.Lasts fuel k) (hlegal : LineLegal s (tokens, o)) :
    ∃ s', (Main.doListCommand fuel o tokens).run s = some ((), s') := by
  have hget : (get : MainProg Store).run s = some (s, s) := rfl
  obtain ⟨r, items, hs, _, hfuel⟩ := h.represents
  rw [Main.doListCommand.eq_def]
  split
  swap
  · exact ⟨s, rfl⟩
  rename_i token name args
  rw [run_bind_of hget]
  cases hfind : findList s.lists.lists name with
  | none => exact ⟨s, rfl⟩
  | some i =>
      have hname : r.find name = some i := (findList_eq hs name).symm.trans hfind
      have hi := Reference.isSome_of_find hname
      simp only
      split
      · have hlength : ((items i).map Addr.item).length < fuel := by
          rw [List.length_map, ← length_values hs]
          exact Nat.lt_of_succ_lt (hfuel i)
        obtain ⟨links', hrun, _⟩ := run_listShuffle (hs.lists i hi) hlength o.rand
        exact ⟨_, run_onLists (run_onLinks hrun)⟩
      · cases hcommand : listCommand token args with
        | none => exact ⟨s, rfl⟩
        | some c =>
            obtain ⟨l, _, hrun, _⟩ : Does (doListCommand fuel o.listItem i c) s.lists _ :=
              does_listCommand hs hi hfuel name hname c (hlegal.reference hs hcommand)
            exact ⟨_, run_onLists hrun⟩

theorem Store.Lasts.exists_doHashCommand (h : s.Lasts fuel (k + 1))
    (hlegal : LineLegal s (tokens, o)) :
    ∃ s', (Main.doHashCommand fuel o tokens).run s = some ((), s') := by
  have hget : (get : MainProg Store).run s = some (s, s) := rfl
  rw [Main.doHashCommand.eq_def]
  split
  swap
  · exact ⟨s, rfl⟩
  rename_i token name args
  rw [run_bind_of hget]
  cases hfind : findHash s name with
  | none => exact ⟨s, rfl⟩
  | some i =>
      cases hcommand : hashCommand token args with
      | none => exact ⟨s, rfl⟩
      | some c =>
          obtain ⟨a, rows, S, m, ht, hm⟩ := h.hashAt (of_findUsed hfind).1
          have hrun : ∃ obj, (doHashCommand fuel o.hash c).run (s.hashAt i) = some ((), obj) := by
            by_cases hc : ∃ action, c = .apply (some action)
            · obtain ⟨action, rfl⟩ := hc
              obtain ⟨obj, hrun, _⟩ := ht.run_apply (show m < fuel by omega) o.hash
                (hlegal.apply token name args action rfl hcommand i hfind)
              exact ⟨obj, hrun⟩
            · obtain ⟨obj, _, _, _, hrun, _⟩ := ht.run_doHashCommand (show _ ≤ fuel by omega) o.hash
                c fun action heq => hc ⟨action, heq⟩
              exact ⟨obj, hrun⟩
          obtain ⟨obj, hrun⟩ := hrun
          exact ⟨_, run_onHash hrun⟩

theorem Store.Lasts.exists_doBitmapCommand (h : s.Lasts fuel k)
    (hlegal : LineLegal s (tokens, o)) :
    ∃ s', (Main.doBitmapCommand o tokens).run s = some ((), s') := by
  have hget : (get : MainProg Store).run s = some (s, s) := rfl
  rw [Main.doBitmapCommand.eq_def]
  split
  swap
  · exact ⟨s, rfl⟩
  rename_i token name args
  rw [run_bind_of hget]
  cases hfind : findBitmap s name with
  | none => exact ⟨s, rfl⟩
  | some i =>
      cases hcommand : bitmapCommand token args with
      | none => exact ⟨s, rfl⟩
      | some c =>
          obtain ⟨p, a, b, hp, halone⟩ := (h.bitmaps i).used (of_findUsed hfind).1
          obtain ⟨hrange, hgrows⟩ :=
            hlegal.bits token name args c rfl hcommand i p a b hfind hp halone.stored
          obtain ⟨⟨text, bitmap⟩, memory, hrun⟩ := halone.exists_doBitmapCommand hrange
            fun size heq => (hgrows size heq).2
          rw [← hp] at hrun
          exact ⟨_, (run_bind_of hget).trans ((run_bind_of (run_onBitmap hrun)).trans rfl)⟩

/-- **Legal lines come to an end.** -/
theorem Store.Lasts.exists_step (h : s.Lasts fuel (k + 1)) {line : Line}
    (hlegal : LineLegal s line) : ∃ s', Main.step fuel s line = some s' := by
  obtain ⟨tokens, o⟩ := line
  have hcreates := h.createReturns hlegal.keepsValid
  suffices hline : ∃ s', (Main.doLine fuel o tokens).run s = some ((), s') by
    obtain ⟨s', hrun⟩ := hline
    exact ⟨s', Option.map_eq_some_iff.mpr ⟨_, hrun, rfl⟩⟩
  rw [Main.doLine.eq_def]
  split
  · exact ⟨s, rfl⟩
  · obtain ⟨s', hstep, _⟩ := hcreates rfl
    obtain ⟨⟨_, t⟩, hrun, _⟩ := Option.map_eq_some_iff.mp hstep
    exact ⟨t, hrun⟩
  · exact h.exists_doDelete _
  · exact h.exists_doDumpdata _
  · split
    · exact h.exists_doListCommand hlegal
    · split
      · exact h.exists_doHashCommand hlegal
      · split
        · exact h.exists_doBitmapCommand hlegal
        · exact ⟨s, rfl⟩

end SystemProgramming.Testlib
