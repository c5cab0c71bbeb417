import SystemProgramming.Testlib.KeptObjects

/-!
What is in the slots in use. `create list` cannot fail, and `create bitmap`
takes its slot only when the bitmap is there; but `create_hash_object` takes it
first and does not look at what `hash_init` returns. As long as that does not
fail, and no other command breaks an object, every slot in use has a valid one.
A write behind the elements of a bitmap ends a run here; in the program it may
hit the block of another object. So the condition asks for none.
-/

namespace SystemProgramming.Testlib

open SystemProgramming.CLib SystemProgramming.Library BitmapMemory

variable {s s' : Store} {fuel k : Nat} {o : Outcomes} {tokens : List String}

/-- Every slot in use has a well-formed object: a list of allocated items, a table whose
buckets are lists of the allocated items, a bitmap with storage for all its bits. -/
structure Store.Valid (s : Store) : Prop where
  lists : ∀ i, (s.lists.lists i).used = true → ∃ ns : List Nat,
    IsList s.lists.links (listAt i) (ns.map .item) ∧ ∀ n ∈ ns, (s.lists.values n).isSome = true
  hashes : ∀ i, (s.hashes i).used = true → ∃ a rows S, (s.hashes i).obj.Owns a rows S []
  bitmaps : ∀ i, (s.bitmaps i).used = true → ∃ p a b, (s.bitmaps i).obj.bitmap = some p ∧
    Stored (s.bitmaps i).obj.memory p a b ∧ b.Valid

/-! ### The invariant -/

/-- A table in use lasts for `k` more lines; a slot that is free has no items. -/
structure HashKept (fuel k : Nat) (obj : DsObj HashInterp) : Prop where
  used : obj.used = true → obj.obj.Lasts fuel k
  free : obj.used = false → ∀ m, obj.obj.values m = none

structure BitmapKept (obj : DsObj BitmapSlot) : Prop where
  used : obj.used = true → HasBitmap obj.obj.memory obj.obj.bitmap
  free : obj.used = false → obj.obj.memory.Clear

theorem HashKept.of_used {obj : DsObj HashInterp} (hused : obj.used = true)
    (h : obj.obj.Lasts fuel k) : HashKept fuel k obj :=
  ⟨fun _ => h, fun hfree => absurd (hused.symm.trans hfree) Bool.false_ne_true.symm⟩

theorem BitmapKept.of_used {obj : DsObj BitmapSlot} (hused : obj.used = true)
    (h : HasBitmap obj.obj.memory obj.obj.bitmap) : BitmapKept obj :=
  ⟨fun _ => h, fun hfree => absurd (hused.symm.trans hfree) Bool.false_ne_true.symm⟩

/-- The fuel is enough for `k` more lines, each of which adds at most one item. -/
structure Store.Lasts (fuel k : Nat) (s : Store) : Prop where
  room : k + 9 ≤ fuel
  lists : ∃ n, s.lists.ListsWithin n ∧ n + k + 2 ≤ fuel
  hashes : ∀ i, HashKept fuel k (s.hashes i)
  bitmaps : ∀ i, BitmapKept (s.bitmaps i)

theorem HashKept.mono {obj : DsObj HashInterp} (h : HashKept fuel (k + 1) obj) :
    HashKept fuel k obj :=
  ⟨fun hused => (h.used hused).mono, h.free⟩

namespace Store.Lasts

theorem initial (hfuel : k + 9 ≤ fuel) : Store.Lasts fuel k .initial where
  room := hfuel
  lists := ⟨0, ⟨_, _, represents_initial, Reference.size_initial.le⟩, by omega⟩
  hashes _ := ⟨nofun, fun _ _ => rfl⟩
  bitmaps _ := ⟨nofun, fun _ => ⟨fun _ => rfl, fun _ => rfl⟩⟩

theorem mono (h : s.Lasts fuel (k + 1)) : s.Lasts fuel k := by
  obtain ⟨n, hn, hle⟩ := h.lists
  have hroom := h.room
  exact ⟨by omega, ⟨n, hn, by omega⟩, fun i => (h.hashes i).mono, h.bitmaps⟩

/-- The lists as sequences, and rounds enough for all the loops on them. -/
theorem represents (h : s.Lasts fuel k) : ∃ r items, Represents s.lists r items ∧
    r.size < fuel ∧ ∀ i, (r.values i).length + 1 < fuel := by
  obtain ⟨n, ⟨r, items, hs, hsize⟩, hle⟩ := h.lists
  refine ⟨r, items, hs, by omega, fun i => ?_⟩
  have hlength := r.length_values_le i
  omega

theorem valid (h : s.Lasts fuel k) : s.Valid where
  lists i hi := by
    obtain ⟨r, items, hs, _⟩ := h.represents
    exact ⟨items i, hs.lists i (hs.isSome_of_used hi), fun n hn => hs.isSome_values hn⟩
  hashes i hi := by
    obtain ⟨a, rows, S, n, ht, _⟩ := (h.hashes i).used hi
    exact ⟨a, rows, S, ht.owns⟩
  bitmaps i hi := by
    obtain ⟨p, a, b, hp, halone⟩ := (h.bitmaps i).used hi
    exact ⟨p, a, b, hp, halone.stored, halone.valid⟩

/-! ### Changing one part -/

theorem setLists (h : s.Lasts fuel k) {l : Interp} {n : Nat} (hl : l.ListsWithin n)
    (hn : n + k + 2 ≤ fuel) : Store.Lasts fuel k { s with lists := l } :=
  ⟨h.room, ⟨n, hl, hn⟩, h.hashes, h.bitmaps⟩

theorem setOut (h : s.Lasts fuel k) (out : String) :
    Store.Lasts fuel k { s with lists := { s.lists with out := out } } := by
  obtain ⟨n, hn, hle⟩ := h.lists
  exact h.setLists (hn.setOut out) hle

theorem putHash (h : s.Lasts fuel k) {idx : Fin MAX_DS} {obj : DsObj HashInterp}
    (hobj : HashKept fuel k obj) : (s.putHash idx obj).Lasts fuel k := by
  obtain ⟨n, hn, hle⟩ := h.lists
  refine ⟨h.room, ⟨n, hn.setOut _, hle⟩, fun i => ?_, h.bitmaps⟩
  rcases eq_or_ne i idx with rfl | hi
  · simpa [Store.putHash] using hobj
  · simpa [Store.putHash, hi] using h.hashes i

theorem putBitmap (h : s.Lasts fuel k) {idx : Fin MAX_DS} {obj : DsObj BitmapSlot}
    (hobj : BitmapKept obj) : (s.putBitmap idx obj).Lasts fuel k := by
  refine ⟨h.room, h.lists, h.hashes, fun i => ?_⟩
  rcases eq_or_ne i idx with rfl | hi
  · simpa [Store.putBitmap] using hobj
  · simpa [Store.putBitmap, hi] using h.bitmaps i

end Store.Lasts

/-! ### The condition -/

/-- What the condition asks of a line: `hash_init` gets its array, `bitmap_create` does not
get an array for a number of elements that wraps to 0, `list_splice` has its positions in order,
and `bitmap_mark`, `bitmap_reset`, `bitmap_flip` and `bitmap_expand` find the elements that they
write. -/
structure KeepsValid (s : Store) (line : Line) : Prop where
  hash : ∀ name rest, line.1 = "create" :: "hashtable" :: name :: rest →
    findEmptyHashSlot s ≠ none → line.2.hash.buckets ≠ none
  bitmap : ∀ name bitCnt rest, line.1 = "create" :: "bitmap" :: name :: bitCnt :: rest →
    findEmptyBitmapSlot s ≠ none → ¬ (line.2.bitmap.Enough (sizeTOfInt (number bitCnt)) ∧
      2 ^ 64 ≤ sizeTOfInt (number bitCnt) + 63)
  splice : ∀ token name args before source fst lst, line.1 = token :: name :: args →
    listCommand token args = some (.splice before source fst lst) →
    s.lists.SplicesInOrder name source before fst lst
  storage : ∀ token name args c, line.1 = token :: name :: args →
    bitmapCommand token args = some c → ∀ i p a b, findBitmap s name = some i →
    (s.bitmaps i).obj.bitmap = some p → Stored (s.bitmaps i).obj.memory p a b → b.Valid →
    c.InStorage line.2.bitmap b

/-! ### Every effect -/

theorem Store.Lasts.hashAt (h : s.Lasts fuel k) {i : Fin MAX_DS}
    (hused : (s.hashes i).used = true) : (s.hashAt i).Lasts fuel k :=
  ((h.hashes i).used hused).setOut _

/-- The slot that `create` takes for a table. -/
theorem Store.Lasts.of_createHash (h : s.Lasts fuel k) {idx : Fin MAX_DS} {obj : HashInterp}
    (name : String) {memory : MallocArray HashItem} (hmemory : memory ≠ none)
    (hfree : findEmptyHashSlot s = some idx)
    (hrun : (createHashObject fuel memory).run (s.hashAt idx) = some ((), obj)) :
    (s.putHash idx ⟨name, true, obj⟩).Lasts fuel k := by
  obtain ⟨⟨asked, garbage⟩, rfl⟩ := Option.ne_none_iff_exists'.mp hmemory
  have hnone : ∀ m, (s.hashAt idx).values m = none := (h.hashes idx).free (of_findEmpty hfree)
  obtain ⟨t, a, rows, hcreate, ht, _⟩ := run_createHashObject hnone fuel asked garbage
  obtain rfl := congrArg Prod.snd (Option.some.inj (hcreate.symm.trans hrun))
  have hroom := h.room
  exact h.putHash ⟨fun _ => ⟨a, rows, [], 4, ht, by omega⟩, nofun⟩

/-- The slot that `create` takes for a bitmap, if there is one. -/
theorem Store.Lasts.of_createBitmap (h : s.Lasts fuel k) {idx : Fin MAX_DS}
    {bitmap : Option Nat} (name : String) {memory : BitmapMalloc} {n : Nat} {t : BitmapMemory}
    (hmemory : ¬ (memory.Enough n ∧ 2 ^ 64 ≤ n + 63)) (hfree : findEmptyBitmapSlot s = some idx)
    (hrun : (bitmapCreate memory n).run (s.bitmaps idx).obj.memory = .ok (bitmap, t)) :
    (s.putBitmap idx (if bitmap.isSome then ⟨name, true, t, bitmap⟩
      else { s.bitmaps idx with obj := ⟨t, bitmap⟩ })).Lasts fuel k := by
  have hunused := of_findEmpty hfree
  obtain ⟨bitmap', t', hcreate, hresult⟩ :=
    ((h.bitmaps idx).free hunused).run_bitmapCreate hmemory
  obtain ⟨rfl, rfl⟩ := Prod.mk.inj (Except.ok.inj (hcreate.symm.trans hrun))
  refine h.putBitmap ?_
  rcases hresult with ⟨rfl, hclear⟩ | hhas
  · exact ⟨fun hused => absurd (hunused.symm.trans hused) Bool.false_ne_true, fun _ => hclear⟩
  · obtain ⟨p, a, b, rfl, halone⟩ := hhas
    exact ⟨fun _ => halone.hasBitmap, nofun⟩

theorem Store.Lasts.of_destroyList (h : s.Lasts fuel k) {i : Fin MAX_DS} {l : Interp}
    (hused : (s.lists.lists i).used = true)
    (hrun : (destroyList fuel i).run s.lists = some ((), l)) :
    Store.Lasts fuel k { s with lists := l } := by
  obtain ⟨n, ⟨r, items, hs, hsize⟩, hle⟩ := h.lists
  exact h.setLists (hs.of_destroyList (hs.isSome_of_used hused) (by omega) hrun) (by omega)

theorem Store.Lasts.of_destroyHash (h : s.Lasts fuel k) {i : Fin MAX_DS} {obj : HashInterp}
    (hused : (s.hashes i).used = true)
    (hrun : (clearTable fuel).run (s.hashAt i) = some ((), obj)) :
    (s.putHash i { s.hashes i with used := false, obj := obj }).Lasts fuel k := by
  obtain ⟨a, rows, S, m, ht, hm⟩ := h.hashAt hused
  obtain ⟨t, hclear, hnone⟩ := ht.run_clearTable (show m < fuel by omega)
  obtain rfl := congrArg Prod.snd (Option.some.inj (hclear.symm.trans hrun))
  exact h.putHash ⟨nofun, fun _ => hnone⟩

theorem Store.Lasts.of_destroyBitmap (h : s.Lasts fuel k) {i : Fin MAX_DS}
    {memory : BitmapMemory} (hused : (s.bitmaps i).used = true)
    (hrun : (bitmapDestroy (s.bitmaps i).obj.bitmap).run (s.bitmaps i).obj.memory =
      .ok ((), memory)) :
    (s.putBitmap i { s.bitmaps i with
      used := false, obj := { (s.bitmaps i).obj with memory := memory } }).Lasts fuel k := by
  obtain ⟨p, a, b, hp, halone⟩ := (h.bitmaps _).used hused
  obtain ⟨t, hdestroy, hclear⟩ := halone.run_bitmapDestroy
  rw [hp] at hrun
  obtain rfl := congrArg Prod.snd (Except.ok.inj (hdestroy.symm.trans hrun))
  exact h.putBitmap ⟨nofun, fun _ => hclear⟩

theorem Store.Lasts.of_listCommand (h : s.Lasts fuel (k + 1)) {name : String} {i : Fin MAX_DS}
    {c : ListCommand} {l : Interp} (hfind : findList s.lists.lists name = some i)
    (hsplice : ∀ before source fst lst, c = .splice before source fst lst →
      s.lists.SplicesInOrder name source before fst lst)
    (hrun : (doListCommand fuel o.listItem i c).run s.lists = some ((), l)) :
    Store.Lasts fuel k { s with lists := l } := by
  obtain ⟨n, ⟨r, items, hs, hsize⟩, hle⟩ := h.lists
  have hname : r.find name = some i := (findList_eq hs name).symm.trans hfind
  refine h.mono.setLists (n := r.size + 1) ?_ (by omega)
  refine hs.of_listCommand hname (by omega) (fun before source fst lst j hc hj => ?_) hrun
  exact hsplice before source fst lst hc i j (items i) (items j) hfind
    ((findList_eq hs source).trans hj) (hs.lists i (Reference.isSome_of_find hname))
    (hs.lists j (Reference.isSome_of_find hj))

/-- A line keeps the invariant if it meets the condition. -/
theorem Store.Lasts.effect (h : s.Lasts fuel (k + 1)) (hsafe : KeepsValid s (tokens, o))
    (heffect : Effect fuel o s tokens s') : s'.Lasts fuel k := by
  have hk := h.mono
  obtain ⟨n, ⟨r, items, hs, hsize⟩, hle⟩ := h.lists
  have hlists {l : Interp} (hl : l.ListsWithin r.size) : Store.Lasts fuel k { s with lists := l } :=
    hk.setLists hl (by omega)
  cases heffect with
  | skip => exact hk
  | createList hrun => exact hlists (hs.of_createListObject hrun)
  | createHash hfree hrun =>
      exact hk.of_createHash _ (hsafe.hash _ _ rfl (by simp [hfree])) hfree hrun
  | createBitmap hfree hrun =>
      exact hk.of_createBitmap _ (hsafe.bitmap _ _ _ rfl (by simp [hfree])) hfree hrun
  | destroyList hused hrun => exact hk.of_destroyList hused hrun
  | destroyHash hused hrun => exact hk.of_destroyHash hused hrun
  | destroyBitmap hused hrun => exact hk.of_destroyBitmap hused hrun
  | dumpList hused hrun =>
      exact hlists (hs.of_dumpList (hs.isSome_of_used hused) (by omega) hrun)
  | dumpHash hused hrun =>
      exact hk.putHash (.of_used hused ((h.hashAt hused).of_dumpHash hrun))
  | dumpBitmap hused hrun =>
      obtain ⟨p, a, b, hp, halone⟩ := (h.bitmaps _).used hused
      obtain ⟨text, hdump⟩ := halone.run_dumpBitmap
      rw [hp] at hrun
      obtain ⟨rfl, rfl⟩ := Prod.mk.inj (Except.ok.inj (hdump.symm.trans hrun))
      exact (hk.putBitmap (hk.bitmaps _)).setOut _
  | shuffle hused hrun =>
      obtain ⟨r', items', hs', hsize'⟩ :=
        hs.of_listShuffle (hs.isSome_of_used hused) (by omega) hrun
      exact hlists ⟨r', items', hs', hsize'.le⟩
  | listCommand hfind hcommand hrun =>
      exact h.of_listCommand hfind (fun before source fst lst hc =>
        hsafe.splice _ _ _ before source fst lst rfl (hcommand.trans (congrArg some hc))) hrun
  | hashCommand hfind hcommand hrun =>
      have hused := (of_findUsed hfind).1
      exact hk.putHash (.of_used hused ((h.hashAt hused).of_doHashCommand hrun))
  | bitmapCommand hfind hcommand hrun =>
      have hused := (of_findUsed hfind).1
      obtain ⟨p, a, b, hp, halone⟩ := (h.bitmaps _).used hused
      rw [hp] at hrun
      refine (hk.putBitmap (.of_used ?_ ?_)).setOut _
      · exact hused
      · exact halone.of_doBitmapCommand hrun

/-! ### Creation comes to an end -/

/-- `create` comes to an end, and every slot in use then has a valid object. -/
def CreateReturns (fuel : Nat) (s : Store) (line : Line) : Prop :=
  line.1.head? = some "create" → ∃ s', Main.step fuel s line = some s' ∧ s'.Valid

theorem exists_run_createHashObject (h : s.Lasts fuel k) (name : String)
    {memory : MallocArray HashItem} (hmemory : findEmptyHashSlot s ≠ none → memory ≠ none) :
    ∃ s', (Main.createHashObject fuel memory name).run s = some ((), s') := by
  have hget : (get : MainProg Store).run s = some (s, s) := rfl
  rw [Main.createHashObject, run_bind_of hget]
  cases hfree : findEmptyHashSlot s with
  | none => exact ⟨s, rfl⟩
  | some idx =>
      obtain ⟨⟨asked, garbage⟩, rfl⟩ := Option.ne_none_iff_exists'.mp (hmemory (by simp [hfree]))
      have hnone : ∀ m, (s.hashAt idx).values m = none := (h.hashes idx).free (of_findEmpty hfree)
      obtain ⟨t, a, rows, hcreate, _⟩ := run_createHashObject hnone fuel asked garbage
      have hset (f : DsObj HashInterp → DsObj HashInterp) : (setHash idx f).run s =
        some ((), { s with hashes := Function.update s.hashes idx (f (s.hashes idx)) }) := rfl
      refine ⟨_, (run_bind_of (hset _)).trans (run_onHash (show _ = some ((), t) from ?_))⟩
      simpa [Store.hashAt] using hcreate

theorem exists_run_createBitmapObject (h : s.Lasts fuel k) (name : String) (bitCnt : Int)
    {memory : BitmapMalloc} (hmemory : findEmptyBitmapSlot s ≠ none →
      ¬ (memory.Enough (sizeTOfInt bitCnt) ∧ 2 ^ 64 ≤ sizeTOfInt bitCnt + 63)) :
    ∃ s', (Main.createBitmapObject memory name bitCnt).run s = some ((), s') := by
  have hget : (get : MainProg Store).run s = some (s, s) := rfl
  rw [Main.createBitmapObject, run_bind_of hget]
  cases hfree : findEmptyBitmapSlot s with
  | none => exact ⟨s, rfl⟩
  | some idx =>
      obtain ⟨bitmap, t, hcreate, _⟩ := ((h.bitmaps idx).free (of_findEmpty hfree)).run_bitmapCreate
        (hmemory (by simp [hfree]))
      cases bitmap with
      | none => exact ⟨_, (run_bind_of (run_onBitmap hcreate)).trans rfl⟩
      | some p => exact ⟨_, (run_bind_of (run_onBitmap hcreate)).trans rfl⟩

theorem Store.Lasts.createReturns (h : s.Lasts fuel (k + 1)) {line : Line}
    (hsafe : KeepsValid s line) : CreateReturns fuel s line := by
  obtain ⟨tokens, o⟩ := line
  intro hhead
  obtain ⟨args, rfl⟩ : ∃ args, tokens = "create" :: args := by
    cases tokens with
    | nil => cases hhead
    | cons token args => exact ⟨args, congrArg (· :: args) (Option.some.inj hhead)⟩
  have hreturns : ∃ s', (Main.doCreate fuel o ("create" :: args)).run s = some ((), s') := by
    unfold Main.doCreate
    split
    · rename_i name rest heq
      obtain ⟨n, ⟨r, items, hs, _⟩, _⟩ := h.lists
      obtain ⟨l, _, hrun, _⟩ := does_createListObject hs name false
      exact ⟨_, run_onLists hrun⟩
    · rename_i name rest heq
      cases heq
      exact exists_run_createHashObject h name (hsafe.hash name rest rfl)
    · rename_i name bitCnt rest heq
      cases heq
      exact exists_run_createBitmapObject h name _ (hsafe.bitmap name bitCnt rest rfl)
    · exact ⟨s, rfl⟩
  obtain ⟨s', hrun⟩ := hreturns
  have hstep : Main.step fuel s ("create" :: args, o) = some s' :=
    Option.map_eq_some_iff.mpr ⟨_, hrun, rfl⟩
  exact ⟨s', hstep, (h.effect hsafe (effect_of_step hstep)).valid⟩

/-! ### No access outside -/

/-- A command on a bitmap does not leave its storage. -/
def BitmapInside (s : Store) (line : Line) : Prop :=
  ∀ token name args c i, line.1 = token :: name :: args → bitmapCommand token args = some c →
    findBitmap s name = some i → (doBitmapCommand line.2.bitmap (s.bitmaps i).obj.bitmap c).run
      (s.bitmaps i).obj.memory ≠ .error .access

theorem Store.Lasts.bitmapInside (h : s.Lasts fuel k) {line : Line} (hsafe : KeepsValid s line) :
    BitmapInside s line := by
  intro token name args c i hline hcommand hfind
  obtain ⟨p, a, b, hp, halone⟩ := (h.bitmaps i).used (of_findUsed hfind).1
  have hstorage := hsafe.storage token name args c hline hcommand i p a b hfind hp halone.stored
    halone.valid
  rw [hp]
  exact run_doBitmapCommand_inStorage halone.valid halone.stored hstorage

/-- **Valid objects.** In every run in which no array for a new table is missing, no bitmap is
created for which the number of elements wraps, the positions of `list_splice` are in order and
no bitmap command names an element that is not there, every slot in use has a valid object, every
`create` comes to an end, and every bitmap command stays inside the storage of its bitmap. -/
theorem objects_valid (fuel : Nat) (lines : List Line) (hfuel : lines.length + 9 ≤ fuel)
    (hmeet : StepsMeet (Main.step fuel) KeepsValid lines .initial) :
    StatesMeet (Main.step fuel) Store.Valid lines .initial ∧
      StepsMeet (Main.step fuel) (CreateReturns fuel) lines .initial ∧
      StepsMeet (Main.step fuel) BitmapInside lines .initial := by
  have hI : Store.initial.Lasts fuel lines.length := .initial hfuel
  have hstep : ∀ k s line s', Store.Lasts fuel (k + 1) s → KeepsValid s line →
      Main.step fuel s line = some s' → s'.Lasts fuel k :=
    fun k s line s' h hsafe hrun => h.effect hsafe (effect_of_step hrun)
  exact ⟨.of_preserved hstep (fun _ _ h => h.valid) hI hmeet,
    .of_preserved hstep (fun _ _ _ h hsafe => h.createReturns hsafe) hI hmeet,
    .of_preserved hstep (fun _ _ _ h hsafe => h.bitmapInside hsafe) hI hmeet⟩

/-- A `create` with memory for buckets, and with a size that is not too large. -/
theorem keepsValid_create {args : List String} (hbuckets : o.hash.buckets ≠ none)
    (hsize : ∀ name bitCnt rest, args = "bitmap" :: name :: bitCnt :: rest →
      sizeTOfInt (number bitCnt) + 63 < 2 ^ 64) : KeepsValid s ("create" :: args, o) where
  hash _ _ _ _ := hbuckets
  bitmap name bitCnt rest heq _ h :=
    absurd h.2 (Nat.not_le.mpr (hsize name bitCnt rest (List.cons.inj heq).2))
  splice token name rest before source fst lst heq hcommand := by
    obtain ⟨rfl, -⟩ := List.cons.inj heq
    cases hcommand
  storage token name rest c heq hcommand := by
    obtain ⟨rfl, -⟩ := List.cons.inj heq
    cases hcommand

/-- An object of each kind, and a bitmap without memory. -/
def creationLines : List Line :=
  [(["create", "list", "L"], .plain), (["create", "hashtable", "H"], .plain),
    (["create", "bitmap", "B", "10"], .plain),
    (["create", "bitmap", "C", "10"], { Outcomes.plain with bitmap := ⟨none, none⟩ })]

theorem objects_valid_creationLines :
    StatesMeet (Main.step 20) Store.Valid creationLines .initial ∧
      StepsMeet (Main.step 20) (CreateReturns 20) creationLines .initial ∧
      StepsMeet (Main.step 20) BitmapInside creationLines .initial := by
  refine objects_valid 20 creationLines (by decide) (.of_forall fun s line hline => ?_)
  simp only [creationLines, List.mem_cons, List.not_mem_nil, or_false] at hline
  rcases hline with rfl | rfl | rfl | rfl
  · exact keepsValid_create nofun fun name bitCnt rest heq => by simp at heq
  · exact keepsValid_create nofun fun name bitCnt rest heq => by simp at heq
  all_goals
    refine keepsValid_create nofun fun name bitCnt rest heq => ?_
    cases heq
    decide

/-- Without memory for its buckets a table is in use all the same. -/
theorem create_not_valid :
    ¬ ∀ (fuel : Nat) (lines : List Line), lines.length + 9 ≤ fuel →
      StatesMeet (Main.step fuel) Store.Valid lines .initial := by
  intro h
  have hrun := h 10 [(["create", "hashtable", "H"], { Outcomes.plain with hash := ⟨none, none⟩ })]
    (by decide)
  obtain ⟨a, rows, S, ho⟩ := (hrun.2 _ rfl).hashes ⟨0, by decide⟩ rfl
  cases ho.holds.buckets

end SystemProgramming.Testlib
