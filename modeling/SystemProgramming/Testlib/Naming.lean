import SystemProgramming.Testlib.Interpreter

/-!
What a name finds after `create`. `copy_name` keeps the first `NAME_LEN - 1`
characters of a name, and the lookup compares all of them; so a new object
answers to its name exactly if the name was not cut.
-/

namespace SystemProgramming.Testlib

open SystemProgramming.CLib SystemProgramming.Library

theorem length_copyName (name : String) :
    (copyName name).length = min (NAME_LEN - 1) name.length := by
  simp [copyName, String.length_toList]

theorem copyName_eq_iff {name : String} : copyName name = name ↔ name.length < NAME_LEN := by
  constructor
  · intro heq
    have hlen := length_copyName name
    rw [heq, NAME_LEN] at hlen
    rw [NAME_LEN]
    omega
  · intro hlen
    rw [NAME_LEN] at hlen
    rw [copyName, List.take_of_length_le (by rw [NAME_LEN, String.length_toList]; omega),
      String.ofList_toList]

/-! ### One table -/

section Table

variable {β γ : Type} {objs : Fin MAX_DS → DsObj β} {objs' : Fin MAX_DS → DsObj γ}
  {slot : Fin MAX_DS} {name other : String}

theorem findUsed_eq_none :
    findUsed objs name = none ↔ ∀ i, (objs i).used → (objs i).name ≠ name := by
  simp [findUsed]

theorem of_findUsed (h : findUsed objs name = some slot) :
    (objs slot).used = true ∧ (objs slot).name = name := by
  simpa using List.find?_some h

/-- The slot `slot` is taken for a new object with the name `name`, and no other one changes. -/
structure Takes (objs : Fin MAX_DS → DsObj β) (objs' : Fin MAX_DS → DsObj γ) (slot : Fin MAX_DS)
    (name : String) : Prop where
  free : (objs slot).used = false
  used : (objs' slot).used = true
  name_eq : (objs' slot).name = copyName name
  others : ∀ i, i ≠ slot → (objs' i).used = (objs i).used ∧ (objs' i).name = (objs i).name

/-- The name finds the object, and no other name finds more than before. -/
def NamedWell (objs : Fin MAX_DS → DsObj β) (objs' : Fin MAX_DS → DsObj γ) (slot : Fin MAX_DS)
    (name : String) : Prop :=
  findUsed objs' name = some slot ∧
    ∀ other, other ≠ name → (findUsed objs' other).isSome → (findUsed objs other).isSome

theorem Takes.namedWell_iff (h : Takes objs objs' slot name) (hnone : findUsed objs name = none) :
    NamedWell objs objs' slot name ↔ name.length < NAME_LEN := by
  rw [← copyName_eq_iff]
  constructor
  · intro hwell
    rw [← h.name_eq]
    exact (of_findUsed hwell.1).2
  · intro hcopy
    have hold := findUsed_eq_none.mp hnone
    have hslot (i : Fin MAX_DS) (hi : (objs' i).used = true ∧ (objs' i).name = name) :
        i = slot := by
      by_contra hne
      obtain ⟨hused, hname⟩ := h.others i hne
      exact hold i (hused ▸ hi.1) (hname ▸ hi.2)
    refine ⟨?_, fun other hother hfound => ?_⟩
    · cases hfind : findUsed objs' name with
      | none => exact absurd (h.name_eq.trans hcopy) (findUsed_eq_none.mp hfind slot h.used)
      | some i => rw [hslot i (of_findUsed hfind)]
    · obtain ⟨i, hi⟩ := Option.isSome_iff_exists.mp hfound
      obtain ⟨hused', hname'⟩ := of_findUsed hi
      have hne : i ≠ slot := by
        rintro rfl
        exact hother (hname'.symm.trans (h.name_eq.trans hcopy))
      obtain ⟨hused, hname⟩ := h.others i hne
      rw [Option.isSome_iff_ne_none]
      intro hnone'
      exact findUsed_eq_none.mp hnone' i (hused ▸ hused') (hname ▸ hname')

end Table

/-! ### The three tables -/

/-- The names of the table of a kind. -/
def Store.table (s : Store) : DsKind → Fin MAX_DS → DsObj Unit
  | .list, i => ⟨(s.lists.lists i).name, (s.lists.lists i).used, ()⟩
  | .hash, i => ⟨(s.hashes i).name, (s.hashes i).used, ()⟩
  | .bitmap, i => ⟨(s.bitmaps i).name, (s.bitmaps i).used, ()⟩

/-- `find_list`, `find_hash` and `find_bitmap`. -/
def Store.find (s : Store) : DsKind → String → Option (Fin MAX_DS)
  | .list, name => findList s.lists.lists name
  | .hash, name => findHash s name
  | .bitmap, name => findBitmap s name

theorem Store.find_eq (s : Store) (kind : DsKind) (name : String) :
    s.find kind name = findUsed (s.table kind) name := by
  cases kind <;> rfl

/-- The token that names the kind in a `create`. -/
def DsKind.token : DsKind → String
  | .list => "list"
  | .hash => "hashtable"
  | .bitmap => "bitmap"

section Create

variable {s s' : Store} {name : String} {slot i : Fin MAX_DS} {fuel : Nat}

/-- A table in which one slot was taken, if that is the one that is new. -/
theorem takes_of_update {objs objs' : Fin MAX_DS → DsObj Unit}
    (hobjs : objs' = Function.update objs i ⟨copyName name, true, ()⟩)
    (hfree : (objs slot).used = false) (hused : (objs' slot).used = true) :
    Takes objs objs' slot name := by
  have hslot : slot = i := by
    by_contra hne
    rw [hobjs, Function.update_of_ne hne, hfree] at hused
    cases hused
  subst hslot
  subst hobjs
  refine ⟨hfree, hused, by rw [Function.update_self], fun k hk => ?_⟩
  rw [Function.update_of_ne hk]
  exact ⟨rfl, rfl⟩

theorem createListObject_table {l l' : Interp}
    (hrun : (createListObject name).run l = some ((), l')) :
    l'.lists = l.lists ∨
      ∃ i, l'.lists = Function.update l.lists i ⟨copyName name, true⟩ := by
  have hbody : (createListObject name).run l =
      ((findEmptyListSlot l.lists).elim (pure ()) fun slot => do
        setObj slot ⟨copyName name, true⟩
        onLinks (listInit (listAt slot)) : Cmd Unit).run l := by
    rw [createListObject, StateT.run_bind, StateT.run_get, pure_bind]
    cases findEmptyListSlot l.lists <;> rfl
  rw [hbody] at hrun
  cases hslot : findEmptyListSlot l.lists with
  | none =>
      rw [hslot] at hrun
      cases hrun
      exact .inl rfl
  | some i =>
      rw [hslot] at hrun
      obtain ⟨_, l₁, hset, hinit⟩ := exists_of_run_bind hrun
      cases hset
      obtain ⟨⟨_, links⟩, _, heq⟩ := Option.map_eq_some_iff.mp hinit
      cases heq
      exact .inr ⟨i, rfl⟩

theorem createHashObject_table {memory : MallocArray HashItem}
    (hrun : (Main.createHashObject fuel memory name).run s = some ((), s')) :
    s'.table .hash = s.table .hash ∨
      ∃ i, s'.table .hash = Function.update (s.table .hash) i ⟨copyName name, true, ()⟩ := by
  have hbody : (Main.createHashObject fuel memory name).run s =
      ((findEmptyHashSlot s).elim (pure ()) fun idx => do
        setHash idx fun obj => { obj with used := true, name := copyName name }
        onHash idx (Testlib.createHashObject fuel memory) : MainProg Unit).run s := by
    rw [Main.createHashObject, StateT.run_bind, StateT.run_get, pure_bind]
    cases findEmptyHashSlot s <;> rfl
  rw [hbody] at hrun
  cases hslot : findEmptyHashSlot s with
  | none =>
      rw [hslot] at hrun
      cases hrun
      exact .inl rfl
  | some i =>
      rw [hslot] at hrun
      obtain ⟨_, s₁, hset, hinit⟩ := exists_of_run_bind hrun
      cases hset
      obtain ⟨⟨_, obj⟩, _, heq⟩ := Option.map_eq_some_iff.mp hinit
      cases heq
      refine .inr ⟨i, ?_⟩
      ext1 k
      rcases eq_or_ne k i with rfl | hk
      · simp [Store.table]
      · simp [Store.table, hk]

theorem createBitmapObject_table {memory : BitmapMalloc} {bitCnt : Int}
    (hrun : (Main.createBitmapObject memory name bitCnt).run s = some ((), s')) :
    s'.table .bitmap = s.table .bitmap ∨
      ∃ i, s'.table .bitmap = Function.update (s.table .bitmap) i ⟨copyName name, true, ()⟩ := by
  have hbody : (Main.createBitmapObject memory name bitCnt).run s =
      ((findEmptyBitmapSlot s).elim (pure ()) fun idx => do
        let bitmap ← onBitmap idx (bitmapCreate memory (sizeTOfInt bitCnt))
        setBitmap idx fun obj => { obj with obj := { obj.obj with bitmap := bitmap } }
        if bitmap.isSome then
          setBitmap idx fun obj => { obj with used := true, name := copyName name } :
        MainProg Unit).run s := by
    rw [Main.createBitmapObject, StateT.run_bind, StateT.run_get, pure_bind]
    cases findEmptyBitmapSlot s <;> rfl
  rw [hbody] at hrun
  cases hslot : findEmptyBitmapSlot s with
  | none =>
      rw [hslot] at hrun
      cases hrun
      exact .inl rfl
  | some i =>
      rw [hslot] at hrun
      obtain ⟨bitmap, s₁, hcreate, hrest⟩ := exists_of_run_bind hrun
      obtain ⟨⟨_, memory'⟩, _, heq⟩ := Option.map_eq_some_iff.mp hcreate
      cases heq
      obtain ⟨_, s₂, hset, hlast⟩ := exists_of_run_bind hrest
      cases hset
      cases bitmap with
      | none =>
          cases hlast
          refine .inl ?_
          ext1 k
          rcases eq_or_ne k i with rfl | hk
          · simp [Store.table]
          · simp [Store.table, hk]
      | some p =>
          cases hlast
          refine .inr ⟨i, ?_⟩
          ext1 k
          rcases eq_or_ne k i with rfl | hk
          · simp [Store.table]
          · simp [Store.table, hk]

/-- `create` takes at most one slot of the table. -/
theorem create_table {kind : DsKind} {o : Outcomes} {rest : List String}
    (hrun : Main.step fuel s ("create" :: kind.token :: name :: rest, o) = some s') :
    s'.table kind = s.table kind ∨
      ∃ i, s'.table kind = Function.update (s.table kind) i ⟨copyName name, true, ()⟩ := by
  obtain ⟨⟨_, s₁⟩, hline, rfl⟩ := Option.map_eq_some_iff.mp hrun
  cases kind with
  | list =>
      obtain ⟨⟨_, l'⟩, hcreate, heq⟩ := Option.map_eq_some_iff.mp hline
      cases heq
      rcases createListObject_table hcreate with hlists | ⟨i, hlists⟩
      · refine .inl ?_
        ext1 k
        simp [Store.table, hlists]
      · refine .inr ⟨i, ?_⟩
        ext1 k
        rcases eq_or_ne k i with rfl | hk
        · simp [Store.table, hlists]
        · simp [Store.table, hlists, hk]
  | hash => exact createHashObject_table hline
  | bitmap =>
      cases rest with
      | nil =>
          cases hline
          exact .inl rfl
      | cons bitCnt rest => exact createBitmapObject_table hline

end Create

/-- **A new object answers to its name**, and no other name finds more than before, exactly if
the name has fewer than `NAME_LEN` characters. -/
theorem create_named_iff (fuel : Nat) (s s' : Store) (o : Outcomes) (kind : DsKind) (name : String)
    (rest : List String) (slot : Fin MAX_DS) (hnone : s.find kind name = none)
    (hrun : Main.step fuel s ("create" :: kind.token :: name :: rest, o) = some s')
    (hfree : (s.table kind slot).used = false) (hused : (s'.table kind slot).used = true) :
    (s'.find kind name = some slot ∧ ∀ other, other ≠ name → (s'.find kind other).isSome →
      (s.find kind other).isSome) ↔ name.length < NAME_LEN := by
  simp only [Store.find_eq] at hnone ⊢
  rcases create_table hrun with hsame | ⟨i, hupdate⟩
  · rw [hsame, hfree] at hused
    cases hused
  · exact (takes_of_update hupdate hfree hused).namedWell_iff hnone

/-- Outcomes of a library that has zeroed memory and draws zeros. -/
def Outcomes.plain : Outcomes where
  listItem := some (0, ⟨none, none⟩)
  hash := ⟨some (0, ⟨none, none⟩), some (0, fun _ => ⟨none, none⟩)⟩
  bitmap := .zeroed
  rand _ := 0

theorem create_named_iff_table :
    ∃ s', Main.step 1 .initial (["create", "hashtable", "table"], .plain) = some s' ∧
      s'.find .hash "table" = some ⟨0, by decide⟩ := by
  refine ⟨_, rfl, ((create_named_iff 1 .initial _ .plain .hash "table" [] ⟨0, by decide⟩ rfl rfl
    rfl rfl).mpr (by decide)).1⟩

/-- A name of 32 characters is cut when the list is created, and does not find it. -/
theorem create_not_named :
    ¬ ∀ (fuel : Nat) (s s' : Store) (o : Outcomes) (kind : DsKind) (name : String)
        (rest : List String) (slot : Fin MAX_DS), s.find kind name = none →
      Main.step fuel s ("create" :: kind.token :: name :: rest, o) = some s' →
      (s.table kind slot).used = false → (s'.table kind slot).used = true →
      s'.find kind name = some slot ∧ ∀ other, other ≠ name → (s'.find kind other).isSome →
        (s.find kind other).isSome := by
  intro h
  have hfind := (h 1 .initial _ .plain .list "abcdefghijklmnopqrstuvwxyz012345" []
    ⟨0, by decide⟩ rfl rfl rfl rfl).1
  rw [Store.find_eq] at hfind
  have hlen := copyName_eq_iff.mp (of_findUsed hfind).2
  exact absurd hlen (by decide)

end SystemProgramming.Testlib
