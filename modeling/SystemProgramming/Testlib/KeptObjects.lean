import SystemProgramming.Testlib.Effects
import SystemProgramming.Testlib.HashInterpreter
import SystemProgramming.Testlib.SpliceCommand
import SystemProgramming.Testlib.UniqueCommand

/-!
What the commands of one kind leave of its objects, if they come to an end. A
command may trip an `ASSERT` or run on for good, `list_unique` of a list with
itself or `bitmap_mark` far behind the last bit; the program goes no further
then. Otherwise the objects are well formed again, unless `list_splice` is
given its range the wrong way round.
-/

namespace SystemProgramming.Testlib

open SystemProgramming.Library BitmapMemory

/-! ### Lists -/

section Lists

variable {s s' : Interp} {r : Reference} {items : Fin MAX_DS → List Nat} {i j : Fin MAX_DS}
  {fuel n : Nat} {memory : Malloc} {name : String} {xs ys : List Nat}

/-- The lists are well formed, and have at most `n` items. -/
def Interp.ListsWithin (s : Interp) (n : Nat) : Prop :=
  ∃ r items, Represents s r items ∧ r.size ≤ n

/-- The positions of a call of `list_splice` that are all in range are in order. -/
def Interp.SplicesInOrder (s : Interp) (name source : String) (before fst lst : Int) : Prop :=
  ∀ i j xs ys, findList s.lists name = some i → findList s.lists source = some j →
    IsList s.links (listAt i) (List.map Addr.item xs) →
    IsList s.links (listAt j) (List.map Addr.item ys) →
    InRange xs.length ys.length before fst lst → SpliceOrder (i = j) before fst lst

theorem Interp.ListsWithin.mono {m : Nat} (h : s.ListsWithin n) (hnm : n ≤ m) :
    s.ListsWithin m := by
  obtain ⟨r, items, hs, hsize⟩ := h
  exact ⟨r, items, hs, hsize.trans hnm⟩

theorem Represents.setOut (hs : Represents s r items) (out : String) :
    Represents { s with out := out } { r with out := out } items :=
  ⟨rfl, hs.names, hs.sentinels, hs.lists, hs.values, hs.owner, hs.fresh⟩

theorem Interp.ListsWithin.setOut (h : s.ListsWithin n) (out : String) :
    Interp.ListsWithin { s with out := out } n := by
  obtain ⟨r, items, hs, hsize⟩ := h
  exact ⟨_, items, hs.setOut out, hsize⟩

theorem Represents.isSome_of_used (hs : Represents s r items) (hused : (s.lists i).used = true) :
    (r.lists i).isSome := by
  have hnames := hs.names i
  rw [hused, if_pos rfl, Option.map_eq_some_iff] at hnames
  obtain ⟨l, hl, _⟩ := hnames
  exact Option.isSome_of_eq_some hl

/-- A command that is known to end. -/
theorem Does.represents {cmd : Cmd Unit} {r' : Reference} (h : Does cmd s r')
    (hrun : cmd.run s = some ((), s')) : ∃ items', Represents s' r' items' := by
  obtain ⟨t, items', hrun', ht⟩ := h
  obtain rfl := congrArg Prod.snd (Option.some.inj (hrun'.symm.trans hrun))
  exact ⟨items', ht⟩

theorem Does.listsWithin {cmd : Cmd Unit} {r' : Reference} (h : Does cmd s r')
    (hrun : cmd.run s = some ((), s')) (hsize : r'.size ≤ n) : s'.ListsWithin n := by
  obtain ⟨items', hs'⟩ := h.represents hrun
  exact ⟨r', items', hs', hsize⟩

/-- The items of a list in another order. -/
theorem Represents.reorder (hs : Represents s r items) (hi : (r.lists i).isSome)
    {links' : Heap Addr} (hlist : IsList links' (listAt i) (xs.map .item))
    (hsame : s.links.SameOff (rowOf items i) links') (hperm : xs.Perm (items i)) :
    ∃ r' items', Represents { s with links := links' } r' items' ∧ r'.size = r.size := by
  refine ⟨_, _, hs.setList hi (E := []) hlist hsame (by simp) fun m hm =>
    .inl (hperm.mem_iff.mp hm), ?_⟩
  have hset := Reference.size_set_eq hi (xs.map s.val)
  rw [length_values hs, List.length_map, hperm.length_eq] at hset
  omega

theorem Represents.of_listShuffle (hs : Represents s r items) (hi : (r.lists i).isSome)
    (hfuel : r.size < fuel) {rand : Nat → Nat}
    (hrun : (onLinks (listShuffle fuel (listAt i) rand)).run s = some ((), s')) :
    ∃ r' items', Represents s' r' items' ∧ r'.size = r.size := by
  have hlength : ((items i).map Addr.item).length < fuel := by
    rw [List.length_map, ← length_values hs]
    exact (r.length_values_le i).trans_lt hfuel
  obtain ⟨links', hshuffle, hlist, hsame⟩ := run_listShuffle (hs.lists i hi) hlength rand
  obtain ⟨ys, hys, hperm⟩ := exists_items (Draws.order_perm _ rfl : (Draws.order _ _).Perm _)
  rw [hys] at hlist
  obtain rfl := congrArg Prod.snd (Option.some.inj ((run_onLinks hshuffle).symm.trans hrun))
  exact hs.reorder hi hlist hsame hperm

/-- `list_unique` of a list with itself. -/
theorem Represents.of_listUnique_self (hs : Represents s r items) (hi : (r.lists i).isSome)
    {source : String} (hself : r.find source = some i)
    (hrun : (doListCommand fuel memory i (.unique (some source))).run s = some ((), s')) :
    s'.ListsWithin r.size := by
  rw [run_doUnique hs, Option.bind_some, hself] at hrun
  obtain ⟨⟨_, links'⟩, hunique, heq⟩ := Option.map_eq_some_iff.mp hrun
  obtain rfl : _ = s' := congrArg Prod.snd heq
  rcases eq_or_ne (items i) [] with hempty | hne
  · have hl := hs.lists i hi
    rw [hempty] at hl
    have hnil : (listUnique (listItemLess s.values) fuel (listAt i) (some (listAt i))).run s.links =
        some ((), s.links) := run_listUnique_nil hl fuel _
    obtain rfl := congrArg Prod.snd (Option.some.inj (hnil.symm.trans hunique))
    exact ⟨r, items, hs, le_rfl⟩
  · rcases run_listUnique_self hs hi fuel hne with
      ⟨hnone, _⟩ | ⟨_, xs, hsome, hlist, hperm, hsame, _⟩
    · exact absurd (hunique.symm.trans hnone) (Option.some_ne_none _)
    · obtain rfl := congrArg Prod.snd (Option.some.inj (hsome.symm.trans hunique))
      obtain ⟨r', items', hs', hsize⟩ := hs.reorder hi hlist hsame hperm
      exact ⟨r', items', hs', hsize.le⟩

/-- `list_splice` of positions in order. -/
theorem Represents.of_listSplice (hs : Represents s r items) (hname : r.find name = some i)
    (hfuel : r.size + 1 < fuel) {source : String} {before fst lst : Int}
    (horder : ∀ j, r.find source = some j →
      InRange (items i).length (items j).length before fst lst → SpliceOrder (i = j) before fst lst)
    (hrun : (doListCommand fuel memory i (.splice before source fst lst)).run s = some ((), s')) :
    s'.ListsWithin (r.size + 1) := by
  have hi := Reference.isSome_of_find hname
  have hlength (k : Fin MAX_DS) : (r.values k).length + 1 < fuel :=
    (Nat.succ_le_succ (r.length_values_le k)).trans_lt hfuel
  have hitems (k : Fin MAX_DS) : (items k).length < fuel :=
    length_values hs k ▸ Nat.lt_of_succ_lt (hlength k)
  have hsame : s.ListsWithin (r.size + 1) := ⟨r, items, hs, Nat.le_succ _⟩
  cases hsource : r.find source with
  | none =>
      have hstart : (get : Cmd Interp).run s = some (s, s) := rfl
      rw [doListCommand, run_bind_of hstart, findList_eq hs, hsource] at hrun
      cases hrun
      exact hsame
  | some j =>
      by_cases hrange : InRange (items i).length (items j).length before fst lst
      swap
      · rw [run_spliceCommand hs hi hsource hitems, if_neg hrange] at hrun
        cases hrun
        exact hsame
      have hlegal (hle : fst ≤ lst) (hout : i = j → ¬ (fst ≤ before ∧ before < lst)) :
          s'.ListsWithin (r.size + 1) := by
        have hlegal : r.Legal (.list name (.splice before source fst lst)) := by
          refine ⟨hle, fun slot hslot hslot' => hout ?_⟩
          rw [← Option.some.inj (hname.symm.trans hslot)] at hslot'
          exact Option.some.inj (hslot'.symm.trans hsource)
        exact (does_listCommand hs hi hlength name hname _ hlegal).listsWithin hrun
          (r.size_listCommand _ hname hlegal)
      rcases horder j hsource hrange with heq | ⟨hlt, hout⟩ | ⟨hij, hl0, hlf, hbl⟩
      · exact hlegal (Int.le_of_eq heq) fun _ => by omega
      · refine hlegal (Int.le_of_lt hlt) fun hij hin => hout ⟨?_, hin⟩
        exact decide_eq_true hij
      · -- the range is the other way round, and nothing changes
        obtain rfl := of_decide_eq_true hij
        obtain ⟨f, rfl⟩ := Int.eq_ofNat_of_zero_le (Int.le_of_lt (Int.lt_trans hl0 hlf))
        obtain ⟨l, rfl⟩ := Int.eq_ofNat_of_zero_le (Int.le_of_lt hl0)
        subst hbl
        have hcall := run_onLinks (run_spliceAt_reversed_end (hs.lists i hi) (Int.ofNat_lt.mp hl0)
          (Int.ofNat_lt.mp hlf) (Int.ofNat_lt.mp hrange.2.1.2))
        rw [← run_spliceCommand_inRange hs hi hsource hitems hrange] at hcall
        obtain rfl := congrArg Prod.snd (Option.some.inj (hcall.symm.trans hrun))
        exact hsame

theorem Represents.of_listCommand (hs : Represents s r items) (hname : r.find name = some i)
    (hfuel : r.size + 1 < fuel) {c : ListCommand}
    (horder : ∀ before source fst lst j, c = .splice before source fst lst →
      r.find source = some j → InRange (items i).length (items j).length before fst lst →
      SpliceOrder (i = j) before fst lst)
    (hrun : (doListCommand fuel memory i c).run s = some ((), s')) :
    s'.ListsWithin (r.size + 1) := by
  have hi := Reference.isSome_of_find hname
  have hlength (k : Fin MAX_DS) : (r.values k).length + 1 < fuel :=
    (Nat.succ_le_succ (r.length_values_le k)).trans_lt hfuel
  have hlegal (hlegal : r.Legal (.list name c)) : s'.ListsWithin (r.size + 1) :=
    (does_listCommand hs hi hlength name hname c hlegal).listsWithin hrun
      (r.size_listCommand _ hname hlegal)
  cases c with
  | splice before source fst lst =>
      exact hs.of_listSplice hname hfuel (fun j hj => horder before source fst lst j rfl hj) hrun
  | unique duplicates =>
      cases duplicates with
      | none => exact hlegal trivial
      | some source =>
          by_cases hself : r.find source = some i
          · exact (hs.of_listUnique_self hi hself hrun).mono (Nat.le_succ _)
          · refine hlegal fun slot hslot => ?_
            rwa [← Option.some.inj (hname.symm.trans hslot)]
  | _ => exact hlegal trivial

theorem Represents.of_createListObject (hs : Represents s r items)
    (hrun : (createListObject name).run s = some ((), s')) : s'.ListsWithin r.size := by
  refine (does_createListObject hs name false).listsWithin hrun ?_
  rw [Reference.command]
  split
  · exact le_rfl
  · exact r.size_update_le _ _ rfl

theorem Represents.of_destroyList (hs : Represents s r items) (hi : (r.lists i).isSome)
    (hfuel : r.size < fuel) (hrun : (destroyList fuel i).run s = some ((), s')) :
    s'.ListsWithin r.size :=
  (does_destroyList hs hi ((r.length_values_le i).trans_lt hfuel)).listsWithin hrun
    (r.size_update_le _ _ rfl)

theorem Represents.of_dumpList (hs : Represents s r items) (hi : (r.lists i).isSome)
    (hfuel : r.size < fuel) (hrun : (dumpList fuel i).run s = some ((), s')) :
    s'.ListsWithin r.size :=
  (does_dumpList hs hi ((r.length_values_le i).trans_lt hfuel)).listsWithin hrun le_rfl

end Lists

/-! ### Hash tables -/

section Hashes

variable {s s' : HashInterp} {a : Nat} {rows : Nat × Nat → List HashItem} {S : List HashItem}
  {n fuel k : Nat} {memory : HashMalloc}

/-- An action that goes through all items is defined on their values. -/
theorem of_forM_hashAction {action : HashAction} {items : List HashItem} (hnodup : items.Nodup)
    (hrun : (items.forM (hashAction action)).run s = some ((), s'))
    {e : HashItem} (he : e ∈ items) :
    ∃ m v w, e = .item m ∧ s.values m = some v ∧ action.value v = some w := by
  rw [List.forM_eq_forM] at hrun
  induction items generalizing s with
  | nil => exact absurd he List.not_mem_nil
  | cons x items ih =>
      obtain ⟨hnot, hrestNodup⟩ := List.nodup_cons.mp hnodup
      rw [List.forM_cons] at hrun
      obtain ⟨_, t, hact, hrest⟩ := exists_of_run_bind hrun
      cases x with
      | temp w => nomatch hact
      | item k =>
          obtain ⟨v, hv, hact⟩ := Option.bind_eq_some_iff.mp hact
          obtain ⟨w, hw, heq⟩ := Option.bind_eq_some_iff.mp hact
          obtain rfl := congrArg Prod.snd (Option.some.inj heq)
          rcases List.mem_cons.mp he with rfl | hmem
          · exact ⟨k, v, w, rfl, hv, hw⟩
          · obtain ⟨m, u, w', rfl, hu, hw'⟩ := ih hrestNodup hrest hmem
            have hne : m ≠ k := by
              rintro rfl
              exact hnot hmem
            exact ⟨m, u, w', rfl, (Function.update_of_ne hne ..).symm.trans hu, hw'⟩

/-- `hash_apply` that ends has found no product that overflows. -/
theorem HashInterp.Table.of_apply {action : HashAction} (ht : s.Table a rows S n)
    (hfuel : n < fuel)
    (hrun : (doHashCommand fuel memory (.apply (some action))).run s = some ((), s')) :
    s.Fits action := by
  have happly := run_onTable (ht.owns.holds.wellFormed.run_hashApply
    (Nat.lt_of_le_of_lt ht.length_le hfuel))
  obtain ⟨items, t, hcall, hrest⟩ := exists_of_run_bind hrun
  obtain ⟨rfl, rfl⟩ := Prod.mk.inj (Option.some.inj (happly.symm.trans hcall))
  have hperm := ht.owns.holds.perm
  intro v hv
  obtain ⟨m, hm⟩ := ht.mem_stored.mp hv
  have hmem := (ht.owns.allocated (.item m)).mp (by rw [Allocated, hm]; rfl)
  obtain ⟨m', u, w, heq, hu, hw⟩ := of_forM_hashAction
    (hperm.nodup_iff.mpr ht.owns.holds.nodup) hrest
    (hperm.mem_iff.mpr (by simpa using hmem))
  obtain rfl := HashItem.item.inj heq
  obtain rfl := Option.some.inj (hm.symm.trans hu)
  rw [hw]
  rfl

theorem HashInterp.Lasts.mono (h : s.Lasts fuel (k + 1)) : s.Lasts fuel k := by
  obtain ⟨a, rows, S, n, ht, hn⟩ := h
  exact ⟨a, rows, S, n, ht, by omega⟩

theorem HashInterp.Lasts.setOut (h : s.Lasts fuel k) (out : String) :
    HashInterp.Lasts { s with out := out } fuel k := by
  obtain ⟨a, rows, S, n, ht, hn⟩ := h
  exact ⟨a, rows, S, n, ht.setOut out, hn⟩

theorem HashInterp.Lasts.of_doHashCommand (h : s.Lasts fuel (k + 1)) {c : HashCommand}
    (hrun : (doHashCommand fuel memory c).run s = some ((), s')) : s'.Lasts fuel k := by
  obtain ⟨a, rows, S, n, ht, hn⟩ := h
  by_cases hc : ∃ action, c = .apply (some action)
  · obtain ⟨action, rfl⟩ := hc
    have hfuel : n < fuel := by omega
    obtain ⟨t, hrun', ht', _⟩ := ht.run_apply hfuel memory (ht.of_apply hfuel hrun)
    obtain rfl := congrArg Prod.snd (Option.some.inj (hrun'.symm.trans hrun))
    exact ⟨a, rows, S, n, ht', by omega⟩
  · obtain ⟨t, a', rows', S', hrun', ht', _⟩ := ht.run_doHashCommand (show _ ≤ fuel by omega)
      memory c fun action heq => hc ⟨action, heq⟩
    obtain rfl := congrArg Prod.snd (Option.some.inj (hrun'.symm.trans hrun))
    exact ⟨a', rows', S', n + 1, ht', by omega⟩

theorem HashInterp.Lasts.of_dumpHash (h : s.Lasts fuel (k + 1))
    (hrun : (dumpHash fuel).run s = some ((), s')) : s'.Lasts fuel k := by
  obtain ⟨a, rows, S, n, ht, hn⟩ := h
  obtain ⟨vs, hdump, _⟩ := ht.run_dumpHash (show n < fuel by omega)
  obtain rfl := congrArg Prod.snd (Option.some.inj (hdump.symm.trans hrun))
  exact ⟨a, rows, S, n, ht.setOut _, by omega⟩

/-- A destroyed table leaves no item. -/
theorem HashInterp.Table.run_clearTable (ht : s.Table a rows S n) (hfuel : n < fuel) :
    ∃ s', (clearTable fuel).run s = some ((), s') ∧ ∀ m, s'.values m = none := by
  obtain ⟨h', rows', hrun, hh', hcnt⟩ := (ht.owns.holds.weaken fun _ => False.elim).run_hashClear
    (some fun _ => none) (fun _ _ _ _ => False.elim) (Nat.lt_of_le_of_lt ht.length_le hfuel)
  have hpos : 0 < h'.bucketCnt := Nat.zero_lt_of_lt hh'.four_le
  obtain ⟨h'', hbuckets⟩ : ∃ h'', (freeBuckets a).run h' = some ((), h'') :=
    ⟨_, if_pos (hh'.chains.isSome_head ⟨rfl, hpos⟩)⟩
  have hdestroy : (hashDestroy fuel (some fun _ => none)).run s.hash =
      some (pool (fun i => rows (a, i)) s.hash.bucketCnt, h'') := by
    rw [hashDestroy, run_bind_of hrun, run_bind_of (t := h') rfl, hh'.buckets]
    exact run_bind_of hbuckets
  have hperm := ht.owns.holds.perm
  obtain ⟨s', hfree, _, hnone, _⟩ := run_forM_freeHashItem (s := { s with hash := h'' })
    (I := fun _ => True) (fun _ _ _ => trivial)
    (pool (fun i => rows (a, i)) s.hash.bucketCnt) trivial
    (hperm.nodup_iff.mpr ht.owns.holds.nodup) fun e => by
      rw [hperm.mem_iff]
      simpa using ht.owns.allocated e
  exact ⟨s', (run_bind_of (run_onTable hdestroy)).trans hfree, hnone⟩

end Hashes

/-! ### Bitmaps -/

namespace BitmapMemory

variable {s s' : BitmapMemory} {p : Nat} {a : Option Nat} {b b' : Bitmap} {n : Nat}
  {memory : BitmapMalloc} {bitmap : Option Nat} {β : Type}

/-- No block is in use. -/
structure Clear (s : BitmapMemory) : Prop where
  cells : ∀ q, s.cells q = none
  arrays : ∀ r, s.arrays r = none

/-- The blocks of a bitmap are the only ones in use. -/
structure Alone (s : BitmapMemory) (p : Nat) (a : Option Nat) (b : Bitmap) : Prop where
  stored : Stored s p a b
  valid : b.Valid
  cells : ∀ q, q ≠ p → s.cells q = none
  arrays : ∀ r, some r ≠ a → s.arrays r = none

/-- A valid bitmap, with all blocks that are in use. -/
def HasBitmap (s : BitmapMemory) (bitmap : Option Nat) : Prop :=
  ∃ p a b, bitmap = some p ∧ Alone s p a b

theorem Alone.hasBitmap (h : Alone s p a b) : HasBitmap s (some p) := ⟨p, a, b, rfl, h⟩

theorem Alone.change (h : Alone s p a b) (hb' : Stored s' p a b') (hsame : SameBut a s s')
    (hsize : Checked.SameSize b b') : Alone s' p a b' :=
  ⟨hb', hsize.valid h.valid, fun q hq => (congrFun hsame.cells q).trans (h.cells q hq),
    fun r hr => (hsame.arrays r hr).trans (h.arrays r hr)⟩

theorem Alone.congr (h : Alone s p a b) (hcells : s'.cells = s.cells)
    (harrays : s'.arrays = s.arrays) : Alone s' p a b :=
  ⟨h.stored.congr hcells harrays, h.valid, fun q hq => (congrFun hcells q).trans (h.cells q hq),
    fun r hr => (congrFun harrays r).trans (h.arrays r hr)⟩

/-- `bitmap_create` gives back what it cannot use. -/
theorem Clear.run_bitmapCreate (h : s.Clear)
    (hsafe : ¬ (memory.Enough n ∧ 2 ^ 64 ≤ n + 63)) :
    ∃ bitmap s', (bitmapCreate memory n).run s = .ok (bitmap, s') ∧
      (bitmap = none ∧ s'.Clear ∨ HasBitmap s' bitmap) := by
  by_cases hmemory : memory.Enough n
  · have hn : n + 63 < 2 ^ 64 := Nat.lt_of_not_le fun hle => hsafe ⟨hmemory, hle⟩
    obtain ⟨s', c, b, hrun, hstored, hfresh, hvalid, _⟩ :=
      BitmapMemory.run_bitmapCreate s hmemory hn
    exact ⟨_, s', hrun, .inr ⟨s.brk, c, b, rfl, hstored, hvalid,
      fun q hq => (hfresh.cells q hq).trans (h.cells q),
      fun r hr => (hfresh.arrays r hr).trans (h.arrays r)⟩⟩
  · obtain ⟨s', hrun, hcells, harrays⟩ := run_bitmapCreate_fails s hmemory
    exact ⟨none, s', hrun, .inl ⟨rfl, fun q => (congrFun hcells q).trans (h.cells q),
      fun r => (congrFun harrays r).trans (h.arrays r)⟩⟩

theorem Alone.run_bitmapDestroy (h : Alone s p a b) :
    ∃ s', (bitmapDestroy (some p)).run s = .ok ((), s') ∧ s'.Clear := by
  obtain ⟨s', hrun, hcells, harrays⟩ := h.stored.run_bitmapDestroy
  refine ⟨s', hrun, fun q => ?_, fun r => ?_⟩
  · rw [hcells]
    rcases eq_or_ne q p with rfl | hq
    · exact Function.update_self ..
    · exact (Function.update_of_ne hq ..).trans (h.cells q hq)
  · rw [harrays]
    split
    · rfl
    · rename_i hr
      exact h.arrays r fun heq => hr heq.symm

theorem run_dumpBitmapLoop (hb : Stored s p a b) (hsized : b.Sized) {rounds i : Nat}
    (hrounds : i + rounds = b.bitCnt) :
    ∃ text, (dumpBitmapLoop (some p) rounds i).run s = .ok (text, s) := by
  induction rounds generalizing i with
  | zero => exact ⟨"", rfl⟩
  | succ rounds ih =>
      have htest := Checked.test_spec hsized (show i < b.bitCnt by omega)
      obtain ⟨text, hrest⟩ := ih (show i + 1 + rounds = b.bitCnt by omega)
      refine ⟨(if b.bit i then "1" else "0") ++ text, ?_⟩
      rw [dumpBitmapLoop, run_bind_of_ok (hb.run_read htest), run_bind_of_ok hrest]
      rfl

theorem Alone.run_dumpBitmap (h : Alone s p a b) :
    ∃ text, (dumpBitmap (some p)).run s = .ok (text, s) := by
  obtain ⟨text, hloop⟩ := run_dumpBitmapLoop h.stored h.valid.sized (Nat.zero_add _)
  refine ⟨text ++ "\n", ?_⟩
  rw [dumpBitmap, run_bind_of_ok h.stored.run_bitmapSize, run_bind_of_ok hloop]
  rfl

/-- A command that only reads. -/
theorem Alone.of_read {f : Bitmap → Except Fault β} {text : β → String}
    {t : String} (h : Alone s p a b)
    (hrun : (do return (text (← readBitmap (some p) f), some p) : BitmapProg _).run s =
      .ok ((t, bitmap), s')) : HasBitmap s' bitmap := by
  cases hf : f b with
  | error fault =>
      rw [run_bind_of_error (h.stored.run_read_error hf)] at hrun
      cases hrun
  | ok result =>
      rw [run_bind_of_ok (h.stored.run_read hf)] at hrun
      cases hrun
      exact h.hasBitmap

/-- A command that writes bits. -/
theorem Alone.of_change {f : Bitmap → Except Fault (β × Bitmap)} {t : String}
    (text : β → String) (h : Alone s p a b)
    (hf : ∀ result b', f b = .ok (result, b') → Checked.SameSize b b')
    (hrun : (do return (text (← changeBitmap (some p) f), some p) : BitmapProg _).run s =
      .ok ((t, bitmap), s')) : HasBitmap s' bitmap := by
  cases hresult : f b with
  | error fault =>
      rw [run_bind_of_error (h.stored.run_change_error hresult)] at hrun
      cases hrun
  | ok result =>
      obtain ⟨result, b'⟩ := result
      have hsize := hf result b' hresult
      obtain ⟨t, hchange, hb', hsame, _⟩ :=
        h.stored.run_change hresult hsize.bitCnt hsize.length
      rw [run_bind_of_ok hchange] at hrun
      cases hrun
      exact (h.change hb' hsame hsize).hasBitmap

theorem Alone.of_update {f : Bitmap → Except Fault Bitmap} {t : String} (h : Alone s p a b)
    (hf : ∀ b', f b = .ok b' → Checked.SameSize b b')
    (hrun : (do
      updateBitmap (some p) f
      return ("", some p) : BitmapProg _).run s = .ok ((t, bitmap), s')) : HasBitmap s' bitmap := by
  refine h.of_change (fun _ => "") (fun result b' hresult => ?_) hrun
  obtain ⟨b'', hb'', heq⟩ := bind_eq_ok.mp hresult
  obtain ⟨rfl, rfl⟩ := Prod.mk.inj (Except.ok.inj heq)
  exact hf b'' hb''

/-- A new bitmap takes the place of the old one, whose blocks are freed. -/
theorem Alone.of_expand {size : Int} {t : String} (h : Alone s p a b)
    (hrun : (doBitmapCommand memory (some p) (.expand size)).run s = .ok ((t, bitmap), s')) :
    HasBitmap s' bitmap := by
  by_cases hmemory : memory.Enough (sizeT (b.bitCnt + sizeTOfInt size))
  swap
  · obtain ⟨t, hexpand, hcells, harrays⟩ := h.stored.run_bitmapExpand_none hmemory
    rw [doBitmapCommand, run_bind_of_ok hexpand] at hrun
    cases hrun
    exact (h.congr hcells harrays).hasBitmap
  rcases Nat.lt_or_ge (sizeT (b.bitCnt + sizeTOfInt size)) b.bitCnt with hlt | hle
  · rw [doBitmapCommand, run_bind_of_error (h.stored.run_bitmapExpand_shrink h.valid hmemory hlt)]
      at hrun
    cases hrun
  rcases Nat.lt_or_ge (sizeT (b.bitCnt + sizeTOfInt size) + 63) (2 ^ 64) with hlt | hwrap
  · obtain ⟨t, c, new, hexpand, hstored, hvalid, _, _, _, hcells, harrays⟩ :=
      h.stored.run_bitmapExpand_copy h.valid hmemory hlt hle
    rw [doBitmapCommand, run_bind_of_ok hexpand] at hrun
    cases hrun
    refine ⟨s.brk, c, new, rfl, hstored, hvalid, fun q hq => ?_, fun r hr => ?_⟩
    · rw [hcells q hq]
      split
      · rfl
      · exact h.cells q ‹_›
    · rw [harrays r hr]
      split
      · rfl
      · exact h.arrays r fun heq => ‹¬ a = some r› heq.symm
  · rw [doBitmapCommand, run_bind_of_error (h.stored.run_bitmapExpand_wraps hmemory hwrap)] at hrun
    cases hrun

theorem Alone.of_doBitmapCommand {c : BitmapCommand} {t : String} (h : Alone s p a b)
    (hrun : (doBitmapCommand memory (some p) c).run s = .ok ((t, bitmap), s')) :
    HasBitmap s' bitmap := by
  cases c with
  | mark idx | reset idx | flip idx =>
      exact h.of_update (fun _ hasm => Checked.sameSize_asm hasm) hrun
  | set idx value => exact h.of_update (fun _ hset => (Checked.of_set hset).2) hrun
  | setAll value | setMultiple start cnt value =>
      exact h.of_update (fun _ hset => (Checked.of_setMultiple h.valid.size hset).2) hrun
  | scanAndFlip start cnt value =>
      exact h.of_change sizeText (fun _ _ hflip => (of_scanAndFlip h.valid hflip).1) hrun
  | test idx | count start cnt value | contains start cnt value | any start cnt
  | none start cnt | all start cnt | scan start cnt value | dump => exact h.of_read hrun
  | size =>
      rw [doBitmapCommand, run_bind_of_ok h.stored.run_bitmapSize] at hrun
      cases hrun
      exact h.hasBitmap
  | expand size => exact h.of_expand hrun

end BitmapMemory

end SystemProgramming.Testlib
