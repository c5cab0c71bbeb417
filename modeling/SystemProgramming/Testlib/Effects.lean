import SystemProgramming.Testlib.Naming

/-!
What a line of input can do, said once. `Effect` has one case for each branch
of the interpreter in which something happens: it says which object the branch
works on, with what call, and where the result goes. What holds of every run is
then shown case by case.
-/

namespace SystemProgramming.Testlib

open SystemProgramming.CLib SystemProgramming.Library

variable {β : Type} {s s' : Store} {fuel : Nat} {b : β} {idx i : Fin MAX_DS}

/-! ### Slots -/

/-- An object and the output of its commands. -/
def Store.putHash (s : Store) (idx : Fin MAX_DS) (obj : DsObj HashInterp) : Store where
  lists := { s.lists with out := obj.obj.out }
  hashes := Function.update s.hashes idx obj
  bitmaps := s.bitmaps

def Store.putBitmap (s : Store) (idx : Fin MAX_DS) (obj : DsObj BitmapSlot) : Store :=
  { s with bitmaps := Function.update s.bitmaps idx obj }

/-- The table of a slot, as a command finds it. -/
def Store.hashAt (s : Store) (idx : Fin MAX_DS) : HashInterp :=
  { (s.hashes idx).obj with out := s.lists.out }

theorem run_onLists {cmd : Cmd β} {l : Interp} (hrun : cmd.run s.lists = some (b, l)) :
    (onLists cmd).run s = some (b, { s with lists := l }) :=
  Option.map_eq_some_iff.mpr ⟨_, hrun, rfl⟩

theorem run_onHash {cmd : HashCmd β} {obj : HashInterp}
    (hrun : cmd.run (s.hashAt idx) = some (b, obj)) :
    (onHash idx cmd).run s = some (b, s.putHash idx { s.hashes idx with obj := obj }) :=
  Option.map_eq_some_iff.mpr ⟨_, hrun, rfl⟩

theorem run_onBitmap {prog : BitmapProg β} {memory : BitmapMemory}
    (hrun : prog.run (s.bitmaps idx).obj.memory = .ok (b, memory)) :
    (onBitmap idx prog).run s = some (b, s.putBitmap idx { s.bitmaps idx with
      obj := { (s.bitmaps idx).obj with memory := memory } }) :=
  Option.map_eq_some_iff.mpr ⟨_, toOption_eq_some.mpr hrun, rfl⟩

theorem of_run_onLists {cmd : Cmd β} (hrun : (onLists cmd).run s = some (b, s')) :
    ∃ l, cmd.run s.lists = some (b, l) ∧ s' = { s with lists := l } := by
  obtain ⟨⟨_, l⟩, hcmd, heq⟩ := Option.map_eq_some_iff.mp hrun
  cases heq
  exact ⟨l, hcmd, rfl⟩

theorem of_run_onHash {cmd : HashCmd β} (hrun : (onHash idx cmd).run s = some (b, s')) :
    ∃ obj, cmd.run (s.hashAt idx) = some (b, obj) ∧
      s' = s.putHash idx { s.hashes idx with obj := obj } := by
  obtain ⟨⟨_, obj⟩, hcmd, heq⟩ := Option.map_eq_some_iff.mp hrun
  cases heq
  exact ⟨obj, hcmd, rfl⟩

theorem of_run_onBitmap {prog : BitmapProg β} (hrun : (onBitmap idx prog).run s = some (b, s')) :
    ∃ memory, prog.run (s.bitmaps idx).obj.memory = .ok (b, memory) ∧
      s' = s.putBitmap idx { s.bitmaps idx with
        obj := { (s.bitmaps idx).obj with memory := memory } } := by
  obtain ⟨⟨_, memory⟩, hprog, heq⟩ := Option.map_eq_some_iff.mp hrun
  cases heq
  exact ⟨memory, toOption_eq_some.mp hprog, rfl⟩

theorem of_run_setHash {f : DsObj HashInterp → DsObj HashInterp}
    (hrun : (setHash idx f).run s = some ((), s')) :
    s' = { s with hashes := Function.update s.hashes idx (f (s.hashes idx)) } := by
  cases hrun
  rfl

theorem of_run_setBitmap {f : DsObj BitmapSlot → DsObj BitmapSlot}
    (hrun : (setBitmap idx f).run s = some ((), s')) :
    s' = s.putBitmap idx (f (s.bitmaps idx)) := by
  cases hrun
  rfl

theorem of_run_get {f : Store → MainProg Unit} (hrun : (get >>= f).run s = some ((), s')) :
    (f s).run s = some ((), s') := hrun

theorem of_findList {lists : Fin MAX_DS → ListObj} {name : String}
    (h : findList lists name = some i) : (lists i).used = true := by
  have hfound := List.find?_some h
  rw [Bool.and_eq_true] at hfound
  exact hfound.1

theorem of_findEmpty {objs : Fin MAX_DS → DsObj β} (h : findEmpty objs = some i) :
    (objs i).used = false := by
  simpa using List.find?_some h

/-! ### Lines -/

/-- What `destroy_hash` does to a table. -/
def clearTable (fuel : Nat) : HashCmd Unit := do
  let items ← onTable (hashDestroy fuel (some fun _ => none))
  items.forM freeHashItem

/-- What a line can do to the state. -/
inductive Effect (fuel : Nat) (o : Outcomes) (s : Store) : List String → Store → Prop
  | skip (tokens : List String) : Effect fuel o s tokens s
  | createList {name : String} {rest : List String} {l : Interp}
      (hrun : (createListObject name).run s.lists = some ((), l)) :
      Effect fuel o s ("create" :: "list" :: name :: rest) { s with lists := l }
  | createHash {name : String} {rest : List String} {idx : Fin MAX_DS} {obj : HashInterp}
      (hfree : findEmptyHashSlot s = some idx)
      (hrun : (createHashObject fuel o.hash.buckets).run (s.hashAt idx) = some ((), obj)) :
      Effect fuel o s ("create" :: "hashtable" :: name :: rest)
        (s.putHash idx ⟨copyName name, true, obj⟩)
  | createBitmap {name bitCnt : String} {rest : List String} {idx : Fin MAX_DS}
      {bitmap : Option Nat} {memory : BitmapMemory} (hfree : findEmptyBitmapSlot s = some idx)
      (hrun : (bitmapCreate o.bitmap (sizeTOfInt (number bitCnt))).run
        (s.bitmaps idx).obj.memory = .ok (bitmap, memory)) :
      Effect fuel o s ("create" :: "bitmap" :: name :: bitCnt :: rest)
        (s.putBitmap idx (if bitmap.isSome then ⟨copyName name, true, memory, bitmap⟩
          else { s.bitmaps idx with obj := ⟨memory, bitmap⟩ }))
  | destroyList {tokens : List String} {i : Fin MAX_DS} {l : Interp}
      (hused : (s.lists.lists i).used = true)
      (hrun : (Testlib.destroyList fuel i).run s.lists = some ((), l)) :
      Effect fuel o s tokens { s with lists := l }
  | destroyHash {tokens : List String} {i : Fin MAX_DS} {obj : HashInterp}
      (hused : (s.hashes i).used = true)
      (hrun : (clearTable fuel).run (s.hashAt i) = some ((), obj)) :
      Effect fuel o s tokens (s.putHash i { s.hashes i with used := false, obj := obj })
  | destroyBitmap {tokens : List String} {i : Fin MAX_DS} {memory : BitmapMemory}
      (hused : (s.bitmaps i).used = true)
      (hrun : (bitmapDestroy (s.bitmaps i).obj.bitmap).run (s.bitmaps i).obj.memory =
        .ok ((), memory)) :
      Effect fuel o s tokens (s.putBitmap i { s.bitmaps i with
        used := false, obj := { (s.bitmaps i).obj with memory := memory } })
  | dumpList {tokens : List String} {i : Fin MAX_DS} {l : Interp}
      (hused : (s.lists.lists i).used = true)
      (hrun : (Testlib.dumpList fuel i).run s.lists = some ((), l)) :
      Effect fuel o s tokens { s with lists := l }
  | dumpHash {tokens : List String} {i : Fin MAX_DS} {obj : HashInterp}
      (hused : (s.hashes i).used = true)
      (hrun : (Testlib.dumpHash fuel).run (s.hashAt i) = some ((), obj)) :
      Effect fuel o s tokens (s.putHash i { s.hashes i with obj := obj })
  | dumpBitmap {tokens : List String} {i : Fin MAX_DS} {text : String} {memory : BitmapMemory}
      (hused : (s.bitmaps i).used = true)
      (hrun : (Testlib.dumpBitmap (s.bitmaps i).obj.bitmap).run (s.bitmaps i).obj.memory =
        .ok (text, memory)) :
      Effect fuel o s tokens { s.putBitmap i { s.bitmaps i with
          obj := { (s.bitmaps i).obj with memory := memory } } with
        lists := { s.lists with out := s.lists.out ++ text } }
  | shuffle {tokens : List String} {i : Fin MAX_DS} {l : Interp}
      (hused : (s.lists.lists i).used = true)
      (hrun : (onLinks (listShuffle fuel (listAt i) o.rand)).run s.lists = some ((), l)) :
      Effect fuel o s tokens { s with lists := l }
  | listCommand {token name : String} {args : List String} {i : Fin MAX_DS} {c : ListCommand}
      {l : Interp} (hfind : findList s.lists.lists name = some i)
      (hcommand : Testlib.listCommand token args = some c)
      (hrun : (doListCommand fuel o.listItem i c).run s.lists = some ((), l)) :
      Effect fuel o s (token :: name :: args) { s with lists := l }
  | hashCommand {token name : String} {args : List String} {i : Fin MAX_DS} {c : HashCommand}
      {obj : HashInterp} (hfind : findHash s name = some i)
      (hcommand : Testlib.hashCommand token args = some c)
      (hrun : (doHashCommand fuel o.hash c).run (s.hashAt i) = some ((), obj)) :
      Effect fuel o s (token :: name :: args) (s.putHash i { s.hashes i with obj := obj })
  | bitmapCommand {token name : String} {args : List String} {i : Fin MAX_DS} {c : BitmapCommand}
      {text : String} {bitmap : Option Nat} {memory : BitmapMemory}
      (hfind : findBitmap s name = some i)
      (hcommand : Testlib.bitmapCommand token args = some c)
      (hrun : (doBitmapCommand o.bitmap (s.bitmaps i).obj.bitmap c).run
        (s.bitmaps i).obj.memory = .ok ((text, bitmap), memory)) :
      Effect fuel o s (token :: name :: args) { s.putBitmap i { s.bitmaps i with
          obj := ⟨memory, bitmap⟩ } with
        lists := { s.lists with out := s.lists.out ++ text } }

section Cases

variable {o : Outcomes} {tokens : List String}

theorem of_createHashObject {name : String} {rest : List String}
    (hrun : (Main.createHashObject fuel o.hash.buckets name).run s = some ((), s')) :
    Effect fuel o s ("create" :: "hashtable" :: name :: rest) s' := by
  have hbody := of_run_get hrun
  cases hfree : findEmptyHashSlot s with
  | none =>
      rw [hfree] at hbody
      cases hbody
      exact .skip _
  | some idx =>
      rw [hfree] at hbody
      obtain ⟨_, t, hset, hinit⟩ := exists_of_run_bind hbody
      obtain rfl := of_run_setHash hset
      obtain ⟨obj, hcmd, rfl⟩ := of_run_onHash hinit
      have heffect : Effect fuel o s ("create" :: "hashtable" :: name :: rest) _ :=
        .createHash hfree (by simpa [Store.hashAt] using hcmd)
      simpa [Store.putHash] using heffect

theorem of_createBitmapObject {name bitCnt : String} {rest : List String}
    (hrun : (Main.createBitmapObject o.bitmap name (number bitCnt)).run s = some ((), s')) :
    Effect fuel o s ("create" :: "bitmap" :: name :: bitCnt :: rest) s' := by
  have hbody := of_run_get hrun
  cases hfree : findEmptyBitmapSlot s with
  | none =>
      rw [hfree] at hbody
      cases hbody
      exact .skip _
  | some idx =>
      rw [hfree] at hbody
      obtain ⟨bitmap, t, hcreate, hrest⟩ := exists_of_run_bind hbody
      obtain ⟨memory, hprog, rfl⟩ := of_run_onBitmap hcreate
      obtain ⟨_, t, hset, hlast⟩ := exists_of_run_bind hrest
      obtain rfl := of_run_setBitmap hset
      have heffect : Effect fuel o s ("create" :: "bitmap" :: name :: bitCnt :: rest) _ :=
        .createBitmap hfree hprog
      cases bitmap with
      | none =>
          cases hlast
          simpa [Store.putBitmap] using heffect
      | some p =>
          rw [Option.isSome_some, if_pos rfl] at hlast
          obtain rfl := of_run_setBitmap hlast
          simpa [Store.putBitmap] using heffect

theorem of_destroyHash (hused : (s.hashes i).used = true)
    (hrun : (Main.destroyHash fuel i).run s = some ((), s')) : Effect fuel o s tokens s' := by
  obtain ⟨_, t, hclear, hset⟩ := exists_of_run_bind hrun
  obtain ⟨obj, hcmd, rfl⟩ := of_run_onHash hclear
  obtain rfl := of_run_setHash hset
  have heffect : Effect fuel o s tokens _ := .destroyHash hused hcmd
  simpa [Store.putHash] using heffect

theorem of_destroyBitmap (hused : (s.bitmaps i).used = true)
    (hrun : (Main.destroyBitmap i).run s = some ((), s')) : Effect fuel o s tokens s' := by
  obtain ⟨_, t, hdestroy, hset⟩ := exists_of_run_bind (of_run_get hrun)
  obtain ⟨memory, hprog, rfl⟩ := of_run_onBitmap hdestroy
  obtain rfl := of_run_setBitmap hset
  have heffect : Effect fuel o s tokens _ := .destroyBitmap hused hprog
  simpa [Store.putBitmap] using heffect

theorem of_doCreate {args : List String}
    (hrun : (Main.doCreate fuel o ("create" :: args)).run s = some ((), s')) :
    Effect fuel o s ("create" :: args) s' := by
  unfold Main.doCreate at hrun
  split at hrun
  · rename_i heq
    cases heq
    obtain ⟨l, hcmd, rfl⟩ := of_run_onLists hrun
    exact .createList hcmd
  · rename_i heq
    cases heq
    exact of_createHashObject hrun
  · rename_i heq
    cases heq
    exact of_createBitmapObject hrun
  · cases hrun
    exact .skip _

/-- Where `find_object` finds a name, the slot is in use. -/
theorem of_findObject {name : String} {kind : DsKind} (h : findObject s name = some (kind, i)) :
    match kind with
    | .list => (s.lists.lists i).used = true
    | .hash => (s.hashes i).used = true
    | .bitmap => (s.bitmaps i).used = true := by
  unfold findObject at h
  split at h
  · rename_i hfind
    cases h
    exact of_findList hfind
  · split at h
    · rename_i hfind
      cases h
      exact (of_findUsed hfind).1
    · obtain ⟨_, hfind, heq⟩ := Option.map_eq_some_iff.mp h
      cases heq
      exact (of_findUsed hfind).1

theorem of_doDelete {name : String} (hrun : (Main.doDelete fuel name).run s = some ((), s')) :
    Effect fuel o s tokens s' := by
  have hbody := of_run_get hrun
  split at hbody
  · rename_i hfind
    obtain ⟨l, hcmd, rfl⟩ := of_run_onLists hbody
    exact .destroyList (of_findObject hfind) hcmd
  · rename_i hfind
    exact of_destroyHash (of_findObject hfind) hbody
  · rename_i hfind
    exact of_destroyBitmap (of_findObject hfind) hbody
  · cases hbody
    exact .skip _

theorem of_doDumpdata {name : String} (hrun : (Main.doDumpdata fuel name).run s = some ((), s')) :
    Effect fuel o s tokens s' := by
  have hbody := of_run_get hrun
  split at hbody
  · rename_i hfind
    obtain ⟨l, hcmd, rfl⟩ := of_run_onLists hbody
    exact .dumpList (of_findObject hfind) hcmd
  · rename_i hfind
    obtain ⟨obj, hcmd, rfl⟩ := of_run_onHash hbody
    exact .dumpHash (of_findObject hfind) hcmd
  · rename_i hfind
    obtain ⟨text, t, hdump, hprint⟩ := exists_of_run_bind (of_run_get hbody)
    obtain ⟨memory, hprog, rfl⟩ := of_run_onBitmap hdump
    cases hprint
    exact .dumpBitmap (of_findObject hfind) hprog
  · cases hbody
    exact .skip _

theorem of_doListCommand (hrun : (Main.doListCommand fuel o tokens).run s = some ((), s')) :
    Effect fuel o s tokens s' := by
  unfold Main.doListCommand at hrun
  split at hrun
  · have hbody := of_run_get hrun
    split at hbody
    · cases hbody
      exact .skip _
    · rename_i hfind
      split at hbody
      · obtain ⟨l, hcmd, rfl⟩ := of_run_onLists hbody
        exact .shuffle (of_findList hfind) hcmd
      · split at hbody
        · cases hbody
          exact .skip _
        · rename_i hcommand
          obtain ⟨l, hcmd, rfl⟩ := of_run_onLists hbody
          exact .listCommand hfind hcommand hcmd
  · cases hrun
    exact .skip _

theorem of_doHashCommand (hrun : (Main.doHashCommand fuel o tokens).run s = some ((), s')) :
    Effect fuel o s tokens s' := by
  unfold Main.doHashCommand at hrun
  split at hrun
  · have hbody := of_run_get hrun
    split at hbody
    · cases hbody
      exact .skip _
    · rename_i hfind
      split at hbody
      · cases hbody
        exact .skip _
      · rename_i hcommand
        obtain ⟨obj, hcmd, rfl⟩ := of_run_onHash hbody
        exact .hashCommand hfind hcommand hcmd
  · cases hrun
    exact .skip _

theorem of_doBitmapCommand (hrun : (Main.doBitmapCommand o tokens).run s = some ((), s')) :
    Effect fuel o s tokens s' := by
  unfold Main.doBitmapCommand at hrun
  split at hrun
  · have hbody := of_run_get hrun
    split at hbody
    · cases hbody
      exact .skip _
    · rename_i hfind
      split at hbody
      · cases hbody
        exact .skip _
      · rename_i hcommand
        obtain ⟨⟨text, bitmap⟩, t, hcall, hrest⟩ := exists_of_run_bind (of_run_get hbody)
        obtain ⟨memory, hprog, rfl⟩ := of_run_onBitmap hcall
        obtain ⟨_, t, hset, hprint⟩ := exists_of_run_bind hrest
        obtain rfl := of_run_setBitmap hset
        cases hprint
        have heffect : Effect fuel o s (_ :: _ :: _) _ := .bitmapCommand hfind hcommand hprog
        simpa [Store.putBitmap] using heffect
  · cases hrun
    exact .skip _

/-- **What a step can do.** -/
theorem effect_of_step {line : Line} (hrun : Main.step fuel s line = some s') :
    Effect fuel line.2 s line.1 s' := by
  obtain ⟨⟨_, t⟩, hline, rfl⟩ := Option.map_eq_some_iff.mp hrun
  unfold Main.doLine at hline
  split at hline
  · cases hline
    exact .skip _
  · rename_i htokens
    rw [htokens] at hline ⊢
    exact of_doCreate hline
  · exact of_doDelete hline
  · exact of_doDumpdata hline
  · split at hline
    · exact of_doListCommand hline
    · split at hline
      · exact of_doHashCommand hline
      · split at hline
        · exact of_doBitmapCommand hline
        · cases hline
          exact .skip _

end Cases

end SystemProgramming.Testlib
