import SystemProgramming.Library.Refinement
import SystemProgramming.Testlib.Ledger
import SystemProgramming.Testlib.Objects

/-!
The program does with its memory what a user expects of the objects. Each line
is taken apart as the program does it, and on each way the call of the list, of
the table or of the bitmap is known already; what is left is where the result
goes and what is printed.
-/

namespace SystemProgramming.Testlib

open SystemProgramming.CLib SystemProgramming.Library BitmapMemory

variable {s s' : Store} {t : Objects} {fuel k : Nat} {o : Outcomes} {tokens : List String}
  {i : Fin MAX_DS} {name text : String} {lines : List Line}

/-! ### What the memory shows -/

/-- The sequences are determined by the memory. -/
theorem Represents.reference_eq {l : Interp} {r r' : Reference}
    {items items' : Fin MAX_DS → List Nat} (h : Represents l r items)
    (h' : Represents l r' items') : r' = r := by
  have hlists (i : Fin MAX_DS) : r'.lists i = r.lists i := by
    have hname := (h'.names i).trans (h.names i).symm
    cases hr : r.lists i with
    | none =>
        rw [hr] at hname
        exact Option.map_eq_none_iff.mp hname
    | some e =>
        have hi : (r.lists i).isSome = true := Option.isSome_of_eq_some hr
        rw [hr, Option.map_some, Option.map_eq_some_iff] at hname
        obtain ⟨e', hr', hfst⟩ := hname
        have hitems := h.items_eq hi (h'.lists i (Option.isSome_of_eq_some hr'))
        have hsnd : r'.values i = r.values i := by
          rw [h.values_eq, h'.values_eq, hitems]
        rw [Reference.values, Reference.values, hr, hr'] at hsnd
        rw [hr']
        exact congrArg some (Prod.ext hfst hsnd)
  obtain ⟨lists, out⟩ := r
  obtain ⟨lists', out'⟩ := r'
  obtain rfl : lists' = lists := funext hlists
  obtain rfl : out' = out := h'.out.symm.trans h.out
  rfl

theorem BitmapMemory.Shows.shown_eq {m : BitmapMemory} {p : Nat} {a : Option Nat} {b : Bitmap}
    {bits : List Bool} (h : m.Shows (some p) bits) (hb : Stored m p a b) : b.shown = bits := by
  obtain ⟨p', a', b', hp, hb', rfl⟩ := h
  obtain rfl := Option.some.inj hp
  obtain ⟨hcnt, rfl⟩ := BitmapCell.mk.inj (Option.some.inj (hb.cell.symm.trans hb'.cell))
  have hbits := Option.some.inj (hb.bits.symm.trans hb'.bits)
  obtain ⟨bitCnt, elems⟩ := b
  obtain ⟨bitCnt', elems'⟩ := b'
  cases hcnt
  cases hbits
  rfl

namespace Objects

@[simp] theorem print_empty (t : Objects) : t.print "" = t := by
  obtain ⟨⟨lists, out⟩, tables, bitmaps⟩ := t
  simp [print, Reference.print]

end Objects

namespace Store.Shows

theorem setLists (hs : s.Shows t) {l : Interp} {r : Reference} {items : Fin MAX_DS → List Nat}
    (hl : Represents l r items) : Store.Shows { s with lists := l } { t with lists := r } :=
  ⟨⟨items, hl⟩, hs.tables, hs.bitmaps⟩

theorem print (hs : s.Shows t) (text : String) :
    Store.Shows { s with lists := { s.lists with out := s.lists.out ++ text } } (t.print text) := by
  obtain ⟨items, hl⟩ := hs.lists
  exact ⟨⟨items, (hl.print text).2⟩, hs.tables, hs.bitmaps⟩

theorem putHash (hs : s.Shows t) {obj : DsObj HashInterp} {entry : Option (String × Finset Int)}
    (hobj : obj.Matches HashInterp.Shows entry) (hout : obj.obj.out = s.lists.out ++ text) :
    (s.putHash i obj).Shows
      (Objects.print { t with tables := Function.update t.tables i entry } text) := by
  obtain ⟨items, hl⟩ := hs.lists
  refine ⟨⟨items, ?_⟩, matches_update hs.tables hobj, hs.bitmaps⟩
  rw [Store.putHash, hout]
  exact (hl.print text).2

theorem putBitmap (hs : s.Shows t) {obj : DsObj BitmapSlot} {entry : Option (String × List Bool)}
    (hobj : obj.Matches BitmapSlot.Shows entry) :
    (s.putBitmap i obj).Shows { t with bitmaps := Function.update t.bitmaps i entry } :=
  ⟨hs.lists, hs.tables, matches_update hs.bitmaps hobj⟩

theorem findList_eq (hs : s.Shows t) (name : String) :
    findList s.lists.lists name = t.lists.find name := by
  obtain ⟨items, hl⟩ := hs.lists
  exact Testlib.findList_eq hl name

theorem findObject_eq (hs : s.Shows t) (name : String) : findObject s name = t.find name := by
  cases hlist : t.lists.find name with
  | some i => simp only [findObject, Objects.find, hs.findList_eq, hlist]
  | none =>
      cases htable : findEntry t.tables name <;>
        simp only [findObject, Objects.find, hs.findList_eq, hlist, findHash,
          findUsed_eq hs.tables, htable, findBitmap, findUsed_eq hs.bitmaps]

end Store.Shows

/-! ### Slots in use -/

/-- The lists of a state that lasts, with rounds enough for all the loops on them. -/
theorem Store.Lasts.lists_of_shows (h : s.Lasts fuel k) (hs : s.Shows t) :
    ∃ items, Represents s.lists t.lists items ∧ ∀ i, (t.lists.values i).length + 1 < fuel := by
  obtain ⟨items, hl⟩ := hs.lists
  obtain ⟨r, items', hl', _, hfuel⟩ := h.represents
  obtain rfl := hl'.reference_eq hl
  exact ⟨items, hl, hfuel⟩

/-- The table of a slot in use, as a command finds it. -/
theorem Store.Lasts.table_of_shows (h : s.Lasts fuel k) (hs : s.Shows t)
    (hused : (s.hashes i).used = true) :
    t.tables i = some ((s.hashes i).name, t.set i) ∧ (s.hashAt i).Stores (t.set i) ∧
      ∃ a rows S n, (s.hashAt i).Table a rows S n ∧ n + k + 5 ≤ fuel ∧
        (s.hashAt i).Good a rows := by
  obtain ⟨V, hentry, hsearchable, hstores⟩ := (hs.tables i).of_used hused
  obtain rfl : t.set i = V := by rw [Objects.set, hentry, Option.elim_some]
  obtain ⟨a, rows, S, n, ht, hn⟩ := h.hashAt hused
  have hsearchable' : (s.hashAt i).Searchable := by
    obtain ⟨a', rows', S', ho, hgood⟩ := hsearchable
    exact ⟨a', rows', S', ⟨ho.holds, ho.allocated, ho.apart, ho.brk⟩, hgood.placed, hgood.unique⟩
  exact ⟨hentry, hstores.congr rfl, a, rows, S, n, ht, hn, ht.searchable_iff.mp hsearchable'⟩

/-- The bitmap of a slot in use. -/
theorem Store.Lasts.bitmap_of_shows (h : s.Lasts fuel k) (hs : s.Shows t)
    (hused : (s.bitmaps i).used = true) : ∃ p a b, (s.bitmaps i).obj.bitmap = some p ∧
      Alone (s.bitmaps i).obj.memory p a b ∧ t.bits i = b.shown ∧
      t.bitmaps i = some ((s.bitmaps i).name, b.shown) := by
  obtain ⟨bits, hentry, hshows⟩ := (hs.bitmaps i).of_used hused
  obtain ⟨p, a, b, hp, halone⟩ := (h.bitmaps i).used hused
  rw [BitmapSlot.Shows, hp] at hshows
  obtain rfl := hshows.shown_eq halone.stored
  exact ⟨p, a, b, hp, halone, by rw [Objects.bits, hentry, Option.elim_some], hentry⟩

/-! ### Tables that come and go -/

section Tables

variable {h h' : HashInterp}

theorem of_run_onTable {β : Type} {x : β} {prog : HashProg HashItem β}
    (hrun : (onTable prog).run h = some (x, h')) : h'.values = h.values ∧ h'.out = h.out := by
  obtain ⟨_, _, heq⟩ := Option.map_eq_some_iff.mp hrun
  cases heq
  exact ⟨rfl, rfl⟩

theorem of_createHashObject_run {memory : MallocArray HashItem}
    (hrun : (createHashObject fuel memory).run h = some ((), h')) :
    h'.values = h.values ∧ h'.out = h.out := by
  obtain ⟨_, h₁, htable, hrest⟩ := exists_of_run_bind hrun
  cases hrest
  exact of_run_onTable htable

theorem out_of_forM_freeHashItem {items : List HashItem}
    (hrun : (items.forM freeHashItem).run h = some ((), h')) : h'.out = h.out := by
  rw [List.forM_eq_forM] at hrun
  induction items generalizing h with
  | nil =>
      cases hrun
      rfl
  | cons e items ih =>
      rw [List.forM_cons] at hrun
      obtain ⟨_, h₁, hfree, hrest⟩ := exists_of_run_bind hrun
      cases e with
      | temp v => cases hfree
      | item m => exact (ih hrest).trans (of_freeHashItem hfree).2

theorem out_of_clearTable (hrun : (clearTable fuel).run h = some ((), h')) : h'.out = h.out := by
  obtain ⟨items, h₁, hdestroy, hfree⟩ := exists_of_run_bind hrun
  exact (out_of_forM_freeHashItem hfree).trans (of_run_onTable hdestroy).2

end Tables

/-! ### Lines -/

/-- The program comes to the end of a line, with objects that the line may leave. -/
def Store.Goes (s : Store) (prog : MainProg Unit) (A : Objects → Prop) : Prop :=
  ∃ s' t', prog.run s = some ((), s') ∧ A t' ∧ s'.Shows t'

theorem Store.Shows.goes_pure (hs : s.Shows t) {A : Objects → Prop} (hA : A t) :
    s.Goes (pure ()) A := ⟨s, t, rfl, hA, hs⟩

/-- What is done with the lists alone. -/
theorem Store.Shows.goes_onLists (hs : s.Shows t) {cmd : Cmd Unit} {r : Reference}
    {A : Objects → Prop} (hdoes : Does cmd s.lists r) (hA : A { t with lists := r }) :
    s.Goes (onLists cmd) A := by
  obtain ⟨l, items, hrun, hl⟩ := hdoes
  exact ⟨_, _, run_onLists hrun, hA, hs.setLists hl⟩

theorem run_get_bind {f : Store → MainProg Unit} : (get >>= f).run s = (f s).run s := rfl

theorem Store.Lasts.goes_destroy (h : s.Lasts fuel k) (hs : s.Shows t) {kind : DsKind}
    (hused : s.uses kind i = true) : s.Goes (destroy fuel kind i) (· = t.remove kind i) := by
  cases kind with
  | list =>
      obtain ⟨items, hl, hfuel⟩ := h.lists_of_shows hs
      exact hs.goes_onLists (does_destroyList hl (hl.isSome_of_used hused)
        (Nat.lt_of_succ_lt (hfuel i))) rfl
  | hash =>
      obtain ⟨obj, hclear, hrun⟩ := h.exists_destroyHash hused
      have hout : obj.out = s.lists.out ++ "" := by
        rw [out_of_clearTable hclear, String.append_empty]
        rfl
      have hunused : DsObj.Matches HashInterp.Shows
          { s.hashes i with used := false, obj := obj } none := rfl
      have hshows := hs.putHash (i := i) hunused hout
      rw [Objects.print_empty] at hshows
      exact ⟨_, _, hrun, rfl, hshows⟩
  | bitmap =>
      obtain ⟨memory, _, hrun⟩ := h.exists_destroyBitmap hused
      exact ⟨_, _, hrun, rfl, hs.putBitmap (.of_unused rfl)⟩

theorem Store.Lasts.goes_doDelete (h : s.Lasts fuel k) (hs : s.Shows t) (name : String) :
    s.Goes (Main.doDelete fuel name) (· = t.delete name) := by
  rw [Store.Goes, Main.doDelete, run_get_bind, Objects.delete]
  have hfind := hs.findObject_eq name
  rw [hfind]
  cases hobject : t.find name with
  | none => exact hs.goes_pure rfl
  | some found =>
      obtain ⟨kind, i⟩ := found
      rw [hobject] at hfind
      have hused : s.uses kind i = true := by
        have hmatch := of_findObject hfind
        cases kind <;> exact hmatch
      have hgoes := h.goes_destroy hs hused
      cases kind <;> exact hgoes

theorem Store.Lasts.goes_doDumpdata (h : s.Lasts fuel k) (hs : s.Shows t) (name : String) :
    s.Goes (Main.doDumpdata fuel name) (t.DoDumpdata name) := by
  rw [Store.Goes, Main.doDumpdata, run_get_bind]
  have hfind := hs.findObject_eq name
  rw [hfind]
  cases hobject : t.find name with
  | none => exact hs.goes_pure (by rw [Objects.DoDumpdata, hobject])
  | some found =>
      obtain ⟨kind, i⟩ := found
      rw [hobject] at hfind
      have hused := of_findObject hfind
      cases kind with
      | list =>
          obtain ⟨items, hl, hfuel⟩ := h.lists_of_shows hs
          refine hs.goes_onLists (does_dumpList hl (hl.isSome_of_used hused)
            (Nat.lt_of_succ_lt (hfuel i))) ?_
          rw [Objects.DoDumpdata, hobject]
          rfl
      | hash =>
          obtain ⟨hentry, hstores, a, rows, S, n, ht, hn, hgood⟩ := h.table_of_shows hs hused
          obtain ⟨xs, hnodup, hset, hdump⟩ :=
            ht.exists_dumpHash (show n < fuel by omega) hgood.unique hstores
          refine ⟨_, t.print (Objects.numbersText xs), run_onHash hdump, ?_, ?_⟩
          · rw [Objects.DoDumpdata, hobject]
            exact ⟨xs, hnodup, hset, rfl⟩
          · have hmatches : DsObj.Matches HashInterp.Shows { s.hashes i with
                obj := { s.hashAt i with out := s.lists.out ++ Objects.numbersText xs } }
                (t.tables i) := by
              rw [hentry]
              exact ⟨hused, rfl, (ht.setOut _).searchable_iff.mpr ⟨hgood.placed, hgood.unique⟩,
                hstores.congr rfl⟩
            have hshows := hs.putHash (i := i) hmatches rfl
            rwa [Function.update_eq_self] at hshows
      | bitmap =>
          obtain ⟨p, a, b, hp, halone, hbits, hentry⟩ := h.bitmap_of_shows hs hused
          have hdump := halone.stored.run_dumpBitmap halone.valid.sized
          rw [← hp] at hdump
          refine ⟨_, t.print (bitsText b.shown),
            run_get_bind.trans ((run_bind_of (run_onBitmap hdump)).trans rfl), ?_,
            Store.Shows.print ?_ _⟩
          · rw [Objects.DoDumpdata, hobject, ← hbits]
          · have hshows := hs.putBitmap (i := i) (hs.bitmaps i)
            rwa [Function.update_eq_self] at hshows

/-- The items of a list in the order that the numbers drawn give. -/
theorem does_listShuffle {l : Interp} {r : Reference} {items : Fin MAX_DS → List Nat}
    (hl : Represents l r items) (hi : (r.lists i).isSome) (hfuel : (r.values i).length < fuel)
    (rand : Nat → Nat) : ∃ xs : List Int, xs.Perm (r.values i) ∧
      Does (onLinks (listShuffle fuel (listAt i) rand)) l (r.set i xs) := by
  have hlength : ((items i).map Addr.item).length < fuel := by
    rwa [List.length_map, ← length_values hl]
  obtain ⟨links', hrun, hlist, hsame⟩ := run_listShuffle (hl.lists i hi) hlength rand
  obtain ⟨ns, hns, hperm⟩ := exists_items (Draws.order_perm _ rfl : (Draws.order _ _).Perm _)
  rw [hns] at hlist
  refine ⟨ns.map l.val, ?_, does_reorder hl hi hrun hlist hsame fun n hn => hperm.mem_iff.mp hn⟩
  rw [hl.values_eq]
  exact hperm.map _

theorem Store.Lasts.goes_doListCommand (h : s.Lasts fuel k) (hs : s.Shows t)
    (hlegal : LineLegal s (tokens, o)) :
    s.Goes (Main.doListCommand fuel o tokens) (t.DoListCommand o tokens) := by
  obtain ⟨items, hl, hfuel⟩ := h.lists_of_shows hs
  rcases tokens with _ | ⟨token, _ | ⟨name, args⟩⟩
  · exact hs.goes_pure rfl
  · exact hs.goes_pure rfl
  rw [Store.Goes, Main.doListCommand, run_get_bind, hs.findList_eq]
  cases hname : t.lists.find name with
  | none => exact hs.goes_pure (by rw [Objects.DoListCommand, hname])
  | some i =>
      have hi := Reference.isSome_of_find hname
      simp only
      split
      · rename_i hshuffle
        obtain ⟨xs, hperm, hdoes⟩ := does_listShuffle hl hi (Nat.lt_of_succ_lt (hfuel i)) o.rand
        refine hs.goes_onLists hdoes ?_
        simp only [Objects.DoListCommand, hname, if_pos hshuffle]
        exact ⟨xs, hperm, rfl⟩
      · rename_i hshuffle
        cases hcommand : listCommand token args with
        | none =>
            refine hs.goes_pure ?_
            simp only [Objects.DoListCommand, hname, if_neg hshuffle, hcommand]
        | some c =>
            refine hs.goes_onLists (does_listCommand hl hi hfuel name hname c
              (hlegal.reference hl hcommand)) ?_
            simp only [Objects.DoListCommand, hname, if_neg hshuffle, hcommand]

theorem Store.Lasts.goes_doHashCommand (h : s.Lasts fuel (k + 1)) (hs : s.Shows t)
    (hsound : LineSound s (tokens, o)) :
    s.Goes (Main.doHashCommand fuel o tokens) (t.DoHashCommand o tokens) := by
  rcases tokens with _ | ⟨token, _ | ⟨name, args⟩⟩
  · exact hs.goes_pure rfl
  · exact hs.goes_pure rfl
  rw [Store.Goes, Main.doHashCommand, run_get_bind]
  have hname : findHash s name = findEntry t.tables name := findUsed_eq hs.tables name
  cases hfind : findHash s name with
  | none =>
      rw [hfind] at hname
      exact hs.goes_pure (by rw [Objects.DoHashCommand, ← hname])
  | some i =>
      rw [hfind] at hname
      cases hcommand : hashCommand token args with
      | none =>
          refine hs.goes_pure ?_
          simp only [Objects.DoHashCommand, ← hname, hcommand]
      | some c =>
          have hused := (of_findUsed hfind).1
          obtain ⟨hentry, hstores, a, rows, S, n, ht, hn, hgood⟩ := h.table_of_shows hs hused
          obtain ⟨obj, hrun, hsearchable, hstores', hout⟩ :=
            ht.exists_doHashCommand (show n + 5 ≤ fuel by omega) hgood hstores o.hash (c := c) <| by
              rintro action rfl
              exact ⟨hsound.apply token name args action rfl hcommand i hfind,
                hsound.compatible token name args action rfl hcommand i hfind⟩
          have hmatches : DsObj.Matches HashInterp.Shows { s.hashes i with obj := obj }
              ((t.tables i).map fun e => (e.1, c.leaves o.hash.item.isSome (t.set i))) := by
            rw [hentry]
            exact ⟨hused, rfl, hsearchable, hstores'⟩
          refine ⟨_, _, run_onHash hrun, ?_, hs.putHash hmatches hout⟩
          simp only [Objects.DoHashCommand, ← hname, hcommand]
          rfl

theorem Store.Lasts.goes_doBitmapCommand (h : s.Lasts fuel k) (hs : s.Shows t)
    (hlegal : LineLegal s (tokens, o)) :
    s.Goes (Main.doBitmapCommand o tokens) (t.DoBitmapCommand o tokens) := by
  rcases tokens with _ | ⟨token, _ | ⟨name, args⟩⟩
  · exact hs.goes_pure rfl
  · exact hs.goes_pure rfl
  rw [Store.Goes, Main.doBitmapCommand, run_get_bind]
  have hname : findBitmap s name = findEntry t.bitmaps name := findUsed_eq hs.bitmaps name
  cases hfind : findBitmap s name with
  | none =>
      rw [hfind] at hname
      exact hs.goes_pure (by rw [Objects.DoBitmapCommand, ← hname])
  | some i =>
      rw [hfind] at hname
      cases hcommand : bitmapCommand token args with
      | none =>
          refine hs.goes_pure ?_
          simp only [Objects.DoBitmapCommand, ← hname, hcommand]
      | some c =>
          have hused := (of_findUsed hfind).1
          obtain ⟨p, a, b, hp, halone, hbits, hentry⟩ := h.bitmap_of_shows hs hused
          obtain ⟨hrange, hgrows⟩ :=
            hlegal.bits token name args c rfl hcommand i p a b hfind hp halone.stored
          obtain ⟨text, bitmap, memory, hrun, hprints, hshows⟩ := halone.does hrange
            fun more heq => (hgrows more heq).2
          rw [← hp] at hrun
          have hmatches : DsObj.Matches BitmapSlot.Shows
              { s.bitmaps i with obj := ⟨memory, bitmap⟩ }
              ((t.bitmaps i).map fun e => (e.1, c.leaves o.bitmap (t.bits i))) := by
            rw [hentry, hbits]
            exact ⟨hused, rfl, hshows⟩
          have hshows' := (hs.putBitmap (i := i) hmatches).print text
          refine ⟨_, _, ?_, ?_, hshows'⟩
          · refine run_get_bind.trans ((run_bind_of (run_onBitmap hrun)).trans ?_)
            change some ((), _) = _
            simp [Store.putBitmap]
          · simp only [Objects.DoBitmapCommand, ← hname, hcommand]
            exact ⟨text, hbits ▸ hprints, rfl⟩

theorem Store.Lasts.goes_createHash (h : s.Lasts fuel k) (hs : s.Shows t) {rest : List String}
    (hbuckets : o.hash.buckets ≠ none) :
    s.Goes (Main.createHashObject fuel o.hash.buckets name)
      (· = t.create o.bitmap ("create" :: "hashtable" :: name :: rest)) := by
  rw [Store.Goes, Main.createHashObject, run_get_bind]
  have hslot : findEmptyHashSlot s = freeEntry t.tables := findEmpty_eq hs.tables
  cases hfree : findEmptyHashSlot s with
  | none =>
      rw [hfree] at hslot
      exact hs.goes_pure (by rw [Objects.create, ← hslot])
  | some idx =>
      rw [hfree] at hslot
      obtain ⟨⟨asked, garbage⟩, hbuckets⟩ := Option.ne_none_iff_exists'.mp hbuckets
      have hnone : ∀ m, (s.hashAt idx).values m = none := (h.hashes idx).free (of_findEmpty hfree)
      obtain ⟨obj, a, rows, hcreate, ht, hsearchable⟩ :=
        run_createHashObject hnone fuel asked garbage
      rw [← hbuckets] at hcreate
      obtain ⟨hvalues, hout⟩ := of_createHashObject_run hcreate
      have hstores : obj.Stores ∅ := by
        intro v
        simp [hvalues, hnone]
      have hmatches : DsObj.Matches HashInterp.Shows ⟨copyName name, true, obj⟩
          (some (copyName name, ∅)) := ⟨rfl, rfl, hsearchable, hstores⟩
      have hset (f : DsObj HashInterp → DsObj HashInterp) : (setHash idx f).run s =
        some ((), { s with hashes := Function.update s.hashes idx (f (s.hashes idx)) }) := rfl
      refine ⟨s.putHash idx ⟨copyName name, true, obj⟩, _, (run_bind_of (hset _)).trans ?_, rfl, ?_⟩
      · refine (run_onHash (show _ = some ((), obj) from ?_)).trans ?_
        · simpa [Store.hashAt] using hcreate
        · simp [Store.putHash]
      · have hprinted : obj.out = s.lists.out ++ "" := by
          rw [hout, String.append_empty]
          rfl
        have hshows := hs.putHash (i := idx) hmatches hprinted
        rw [Objects.print_empty] at hshows
        rwa [Objects.create, ← hslot]

theorem Store.Shows.goes_createBitmap (hs : s.Shows t) {bitCnt : String}
    {rest : List String} (hsize : ¬ (o.bitmap.Enough (sizeTOfInt (number bitCnt)) ∧
      2 ^ 64 ≤ sizeTOfInt (number bitCnt) + 63)) :
    s.Goes (Main.createBitmapObject o.bitmap name (number bitCnt))
      (· = t.create o.bitmap ("create" :: "bitmap" :: name :: bitCnt :: rest)) := by
  rw [Store.Goes, Main.createBitmapObject, run_get_bind]
  have hslot : findEmptyBitmapSlot s = freeEntry t.bitmaps := findEmpty_eq hs.bitmaps
  cases hfree : findEmptyBitmapSlot s with
  | none =>
      rw [hfree] at hslot
      exact hs.goes_pure (by rw [Objects.create, ← hslot])
  | some idx =>
      rw [hfree] at hslot
      have hunused := of_findEmpty hfree
      by_cases hmemory : o.bitmap.Enough (sizeTOfInt (number bitCnt))
      · obtain ⟨memory, hcreate, hshows⟩ := run_bitmapCreate_shows (s.bitmaps idx).obj.memory
          hmemory (Nat.lt_of_not_le fun hle => hsize ⟨hmemory, hle⟩)
        have hmatches : DsObj.Matches BitmapSlot.Shows
            ⟨copyName name, true, ⟨memory, some (s.bitmaps idx).obj.memory.brk⟩⟩
            (some (copyName name, _)) := ⟨rfl, rfl, hshows⟩
        refine ⟨_, _, ?_, ?_, hs.putBitmap (i := idx) hmatches⟩
        · refine (run_bind_of (run_onBitmap hcreate)).trans ?_
          change some ((), _) = _
          simp [Store.putBitmap]
        · rw [Objects.create, ← hslot]
          exact (if_pos hmemory).symm
      · obtain ⟨memory, hcreate, -⟩ :=
          run_bitmapCreate_fails (s.bitmaps idx).obj.memory hmemory
        have hmatches : DsObj.Matches BitmapSlot.Shows
            { s.bitmaps idx with obj := ⟨memory, none⟩ } none := hunused
        have hentry : t.bitmaps idx = none := by
          have hany := List.find?_some hslot.symm
          simpa using hany
        have hshows := hs.putBitmap (i := idx) hmatches
        rw [← hentry, Function.update_eq_self] at hshows
        refine ⟨_, _, ?_, ?_, hshows⟩
        · refine (run_bind_of (run_onBitmap hcreate)).trans ?_
          change some ((), _) = _
          simp [Store.putBitmap]
        · rw [Objects.create, ← hslot]
          exact (if_neg hmemory).symm

theorem Store.Lasts.goes_doCreate (h : s.Lasts fuel k) (hs : s.Shows t) {args : List String}
    (hlegal : LineLegal s ("create" :: args, o)) :
    s.Goes (Main.doCreate fuel o ("create" :: args))
      (· = t.create o.bitmap ("create" :: args)) := by
  unfold Main.doCreate
  split
  · rename_i name rest heq
    cases heq
    obtain ⟨items, hl⟩ := hs.lists
    exact hs.goes_onLists (does_createListObject hl name true) rfl
  · rename_i name rest heq
    cases heq
    exact h.goes_createHash hs (hlegal.buckets name rest rfl)
  · rename_i name bitCnt rest heq
    cases heq
    refine hs.goes_createBitmap fun hboth => ?_
    have hlt := number_lt bitCnt
    have hle := hlegal.bitCnt name bitCnt rest rfl
    have hwrap := hboth.2
    rw [sizeTOfInt] at hwrap
    omega
  · rename_i hlist htable hbitmap
    refine hs.goes_pure ?_
    unfold Objects.create
    split
    · exact absurd ‹_› (hlist _ _ _)
    · exact absurd ‹_› (htable _ _ _)
    · exact absurd ‹_› (hbitmap _ _ _ _)
    · rfl

theorem Store.Lasts.goes_doLine (h : s.Lasts fuel (k + 1)) (hs : s.Shows t)
    (hsound : LineSound s (tokens, o)) :
    s.Goes (Main.doLine fuel o tokens) (t.DoLine (tokens, o)) := by
  unfold Main.doLine Objects.DoLine
  split
  · exact hs.goes_pure rfl
  · exact h.goes_doCreate hs hsound.toLineLegal
  · exact h.goes_doDelete hs _
  · exact h.goes_doDumpdata hs _
  · simp only
    split
    · exact h.goes_doListCommand hs hsound.toLineLegal
    · split
      · exact h.goes_doHashCommand hs hsound
      · split
        · exact h.goes_doBitmapCommand hs hsound.toLineLegal
        · exact hs.goes_pure rfl

/-! ### Runs -/

theorem shows_initial : Store.initial.Shows .initial where
  lists := ⟨_, represents_initial⟩
  tables _ := rfl
  bitmaps _ := rfl

theorem Store.Lasts.exists_shows_step (h : s.Lasts fuel (k + 1)) (hs : s.Shows t) {line : Line}
    (hsound : LineSound s line) : ∃ s' t', Main.step fuel s line = some s' ∧ t.DoLine line t' ∧
      s'.Lasts fuel k ∧ s'.Shows t' := by
  obtain ⟨s', t', hrun, hline, hs'⟩ := h.goes_doLine hs hsound
  have hstep : Main.step fuel s line = some s' := Option.map_eq_some_iff.mpr ⟨_, hrun, rfl⟩
  exact ⟨s', t', hstep, hline, h.effect hsound.keepsValid (effect_of_step hstep), hs'⟩

theorem Objects.remove_of_unused (hs : s.Shows t) {kind : DsKind}
    (hunused : s.uses kind i = false) : t.remove kind i = t := by
  have hentry {β γ : Type} {P : β → γ → Prop} {obj : DsObj β} {entry : Option (String × γ)}
      (hmatches : obj.Matches P entry) (hfree : obj.used = false) : entry = none := by
    cases entry with
    | none => rfl
    | some e => exact absurd (hfree.symm.trans hmatches.1) Bool.false_ne_true
  cases kind with
  | list =>
      obtain ⟨items, hl⟩ := hs.lists
      have hname := hl.names i
      have hfree : (s.lists.lists i).used = false := hunused
      rw [hfree, if_neg Bool.false_ne_true, Option.map_eq_none_iff] at hname
      rw [Objects.remove, ← hname, Function.update_eq_self]
  | hash => rw [Objects.remove, ← hentry (hs.tables i) hunused, Function.update_eq_self]
  | bitmap => rw [Objects.remove, ← hentry (hs.bitmaps i) hunused, Function.update_eq_self]

theorem Store.Lasts.of_destroy (h : s.Lasts fuel k) {kind : DsKind} (hused : s.uses kind i = true)
    (hrun : (destroy fuel kind i).run s = some ((), s')) : s'.Lasts fuel k := by
  cases kind with
  | list =>
      obtain ⟨l, hlist, rfl⟩ := of_run_onLists hrun
      exact h.of_destroyList hused hlist
  | hash =>
      obtain ⟨obj, hclear, hdestroy⟩ := h.exists_destroyHash hused
      obtain rfl := congrArg Prod.snd (Option.some.inj (hdestroy.symm.trans hrun))
      exact h.of_destroyHash hused hclear
  | bitmap =>
      obtain ⟨memory, hfree, hdestroy⟩ := h.exists_destroyBitmap hused
      obtain rfl := congrArg Prod.snd (Option.some.inj (hdestroy.symm.trans hrun))
      exact h.of_destroyBitmap hused hfree

theorem Store.Lasts.goes_release (h : s.Lasts fuel k) (hs : s.Shows t) (kind : DsKind)
    (i : Fin MAX_DS) : ∃ s', (release fuel kind i).run s = some ((), s') ∧ s'.Lasts fuel k ∧
      s'.Shows (t.remove kind i) := by
  rw [release, run_get_bind]
  by_cases hused : s.uses kind i = true
  · obtain ⟨s', _, hrun, rfl, hs'⟩ := h.goes_destroy hs hused
    rw [if_pos hused]
    exact ⟨s', hrun, h.of_destroy hused hrun, hs'⟩
  · rw [if_neg hused, Objects.remove_of_unused hs (Bool.not_eq_true _ ▸ hused)]
    exact ⟨s, rfl, h, hs⟩

@[simp] theorem Objects.out_remove (t : Objects) (kind : DsKind) (i : Fin MAX_DS) :
    (t.remove kind i).lists.out = t.lists.out := by
  cases kind <;> rfl

/-- `cleanup_all_objects` prints nothing. -/
theorem Store.Lasts.exists_releaseSlots (h : s.Lasts fuel k) (hs : s.Shows t)
    (slots : List (Fin MAX_DS)) : ∃ s' t', (slots.forM (releaseSlots fuel)).run s = some ((), s') ∧
      s'.Shows t' ∧ t'.lists.out = t.lists.out := by
  simp only [List.forM_eq_forM]
  induction slots generalizing s t with
  | nil => exact ⟨s, t, rfl, hs, rfl⟩
  | cons i slots ih =>
      obtain ⟨s₁, hrun₁, h₁, hs₁⟩ := h.goes_release hs .list i
      obtain ⟨s₂, hrun₂, h₂, hs₂⟩ := h₁.goes_release hs₁ .hash i
      obtain ⟨s₃, hrun₃, h₃, hs₃⟩ := h₂.goes_release hs₂ .bitmap i
      obtain ⟨s', t', hrun, hs', hout⟩ := ih h₃ hs₃
      refine ⟨s', t', ?_, hs', by simpa using hout⟩
      have hround : (releaseSlots fuel i).run s = some ((), s₃) := by
        rw [releaseSlots, run_bind_of hrun₁, run_bind_of hrun₂, hrun₃]
      rw [List.forM_cons, run_bind_of hround]
      exact hrun

/-- A run of sound lines from objects that are shown, with rounds for `k` more lines. -/
theorem Store.Lasts.exec_shows (h : s.Lasts fuel (k + lines.length)) (hs : s.Shows t)
    (hmeet : StepsMeet (Main.step fuel) LineSound lines s) :
    ∃ s' t', exec (Main.step fuel) lines s = some s' ∧ RunsTo Objects.DoLine lines t t' ∧
      s'.Lasts fuel k ∧ s'.Shows t' := by
  have hstep : ∀ k s t line, Store.Lasts fuel (k + 1) s ∧ s.Shows t → LineSound s line →
      ∃ s' t', Main.step fuel s line = some s' ∧ t.DoLine line t' ∧
        Store.Lasts fuel k s' ∧ s'.Shows t' :=
    fun k s t line h hsound => h.1.exists_shows_step h.2 hsound
  exact exec_refines (R := fun k s t => Store.Lasts fuel k s ∧ s.Shows t) hstep ⟨h, hs⟩ hmeet

/-- **The interpreter refines the objects.** A program of sound lines comes to its end. After
every line that is run the memory has the objects that one of the runs of the objects leads to,
and the output of the program is the text that this run prints. -/
theorem main_refines (fuel : Nat) (lines : List Line) (hfuel : lines.length + 9 ≤ fuel)
    (hmeet : StepsMeet (Main.step fuel) LineSound (linesRun lines) .initial) :
    (∀ done, done <+: linesRun lines → ∃ s t, exec (Main.step fuel) done .initial = some s ∧
      RunsTo Objects.DoLine done .initial t ∧ s.Shows t) ∧
    ∃ s t, Main.main fuel lines = some s ∧ RunsTo Objects.DoLine (linesRun lines) .initial t ∧
      s.lists.out = t.lists.out := by
  have hlength : (linesRun lines).length ≤ lines.length := (List.takeWhile_sublist _).length_le
  refine ⟨fun done hdone => ?_, ?_⟩
  · have hroom : 0 + done.length + 9 ≤ fuel := by
      have hdoneLength := hdone.length_le
      omega
    obtain ⟨s, t, hexec, hruns, -, hs⟩ :=
      (Store.Lasts.initial hroom).exec_shows shows_initial (hmeet.of_isPrefix hdone)
    exact ⟨s, t, hexec, hruns, hs⟩
  · have hroom : 0 + (linesRun lines).length + 9 ≤ fuel := by omega
    obtain ⟨s, t, hexec, hruns, h, hs⟩ :=
      (Store.Lasts.initial hroom).exec_shows shows_initial hmeet
    obtain ⟨s', t', hcleanup, hs', hout⟩ := h.exists_releaseSlots hs (List.finRange MAX_DS)
    obtain ⟨items, hl⟩ := hs'.lists
    refine ⟨s', t, ?_, hruns, hl.out.trans hout⟩
    have hround (i : Fin MAX_DS) := StateT.ext (run_cleanup_round fuel i)
    rw [Main.main]
    change Option.bind (exec (Main.step fuel) (linesRun lines) .initial) _ = _
    rw [hexec, Option.bind_some, Main.cleanupAllObjects, funext hround, hcleanup]
    rfl

/-- A `create` of a list or of a table, with memory for its buckets. -/
theorem lineSound_create {args : List String} (hbuckets : o.hash.buckets ≠ none)
    (hbitmap : args.head? ≠ some "bitmap") : LineSound s ("create" :: args, o) where
  toLineLegal := by
    refine lineLegal_create hbuckets fun name bitCnt rest heq => ?_
    subst heq
    exact absurd rfl hbitmap
  compatible token name rest action heq hcommand := by
    obtain ⟨rfl, -⟩ := List.cons.inj heq
    cases hcommand

/-- A command that has to do with one list only, or with a table, and not with `hash_apply`. -/
theorem lineSound_command {token : String} {args : List String} (hcreate : token ≠ "create")
    (hsplice : ∀ before source first last,
      listCommand token args ≠ some (.splice before source first last))
    (hunique : ∀ other, listCommand token args ≠ some (.unique (some other)))
    (happly : ∀ action, hashCommand token args ≠ some (.apply (some action)))
    (hbitmap : bitmapCommand token args = none) (name : String) :
    LineSound s (token :: name :: args, o) where
  toLineLegal := lineLegal_command hcreate hsplice hunique happly hbitmap name
  compatible token name args action heq hcommand := by
    cases heq
    cases happly action hcommand

/-- A table and a list with one name, dumps of both, and a line that is not read. -/
def mixedLines : List Line :=
  [(["create", "hashtable", "X"], .plain), (["hash_insert", "X", "4"], .plain),
    (["hash_replace", "X", "-4"], .plain), (["dumpdata", "X"], .plain),
    (["create", "list", "X"], .plain), (["list_push_front", "X", "7"], .plain),
    (["dumpdata", "X"], .plain), (["quit"], .plain), (["delete", "X"], .plain)]

theorem lineSound_mixedLines {line : Line} (hline : line ∈ linesRun mixedLines) (s : Store) :
    LineSound s line := by
  have hmem : line ∈ mixedLines.take 7 := hline
  simp only [mixedLines, List.take_succ_cons, List.take_zero, List.mem_cons, List.not_mem_nil,
    or_false] at hmem
  rcases hmem with rfl | rfl | rfl | rfl | rfl | rfl | rfl
  case inl | inr.inr.inr.inr.inl => exact lineSound_create (by simp [Outcomes.plain]) (by simp)
  all_goals
    exact lineSound_command (by decide) (fun _ _ _ _ h => by cases h) (fun _ h => by cases h)
      (fun _ h => by cases h) rfl _

theorem main_refines_mixedLines :
    (∀ done, done <+: linesRun mixedLines → ∃ s t,
      exec (Main.step 18) done .initial = some s ∧
      RunsTo Objects.DoLine done .initial t ∧ s.Shows t) ∧
    ∃ s t, Main.main 18 mixedLines = some s ∧
      RunsTo Objects.DoLine (linesRun mixedLines) .initial t ∧ s.lists.out = t.lists.out :=
  main_refines 18 mixedLines (by decide) (.of_forall fun s _ hline => lineSound_mixedLines hline s)

end SystemProgramming.Testlib
