import SystemProgramming.Testlib.ArrayLedger
import SystemProgramming.Testlib.ListLedger
import SystemProgramming.Testlib.Progress

/-!
The ledger of the interpreter. In a legal run every block is freed at most once,
and at every moment the blocks in use are those of the objects in use: each item
of a table is in one of its buckets, each table has one array, each bitmap its
two blocks, and each list item is in one list. Only the last part has an
exception. `list_unique` without a second list takes duplicates out of its list
and does not free them; so the ledger balances, and `cleanup_all_objects` leaves
nothing, if and only if every such call finds no duplicates.
-/

namespace SystemProgramming.Testlib

open SystemProgramming.CLib SystemProgramming.Library BitmapMemory

variable {s s' : Store} {fuel k : Nat} {o : Outcomes} {tokens : List String} {i j : Fin MAX_DS}

/-! ### What is in use -/

/-- A table in use has its items in its buckets and one array, a free slot has neither. -/
structure TableAccounted (obj : DsObj HashInterp) : Prop where
  used : obj.used = true → ∃ a rows S, obj.obj.Owns a rows S [] ∧
    ∀ b, LiveArray obj.obj.hash.links b → b = a
  free : obj.used = false → (∀ n, obj.obj.values n = none) ∧ obj.obj.hash.NoArrays

/-- Every block in use belongs to one object in use. -/
structure Store.Accounted (s : Store) : Prop where
  lists : ∃ items : Fin MAX_DS → List Nat,
    (∀ i, (s.lists.lists i).used = true →
      IsList s.lists.links (listAt i) ((items i).map .item)) ∧
    ∀ n, (s.lists.values n).isSome = true ↔ ∃! i, (s.lists.lists i).used = true ∧ n ∈ items i
  hashes : ∀ i, TableAccounted (s.hashes i)
  bitmaps : ∀ i, BitmapKept (s.bitmaps i)

/-- No item, no array and no bitmap is left. -/
structure Store.Freed (s : Store) : Prop where
  items : ∀ n, s.lists.values n = none
  hashes : ∀ i, (∀ n, (s.hashes i).obj.values n = none) ∧ (s.hashes i).obj.hash.NoArrays
  bitmaps : ∀ i, (s.bitmaps i).obj.memory.Clear

/-! ### The invariant -/

structure ArraysKept (obj : DsObj HashInterp) : Prop where
  used : obj.used = true → obj.obj.hash.Tidy
  free : obj.used = false → obj.obj.hash.NoArrays

structure Store.Kept (fuel k : Nat) (s : Store) : Prop where
  lasts : s.Lasts fuel k
  arrays : ∀ i, ArraysKept (s.hashes i)

theorem ArraysKept.of_used {obj : DsObj HashInterp} (hused : obj.used = true)
    (h : obj.obj.hash.Tidy) : ArraysKept obj :=
  ⟨fun _ => h, fun hfree => absurd (hused.symm.trans hfree) Bool.false_ne_true.symm⟩

theorem kept_initial (hfuel : k + 9 ≤ fuel) : Store.initial.Kept fuel k where
  lasts := .initial hfuel
  arrays _ := ⟨nofun, fun _ _ hb => hb.elim fun _ hi => hi.elim nofun nofun⟩

theorem Store.Kept.mono (h : s.Kept fuel (k + 1)) : s.Kept fuel k := ⟨h.lasts.mono, h.arrays⟩

theorem Store.Kept.zero (h : s.Kept fuel k) : s.Kept fuel 0 := by
  induction k with
  | zero => exact h
  | succ k ih => exact ih h.mono

theorem Store.Kept.arrays_putHash (h : s.Kept fuel k) {obj : DsObj HashInterp}
    (hobj : ArraysKept obj) (j : Fin MAX_DS) : ArraysKept ((s.putHash i obj).hashes j) := by
  rcases eq_or_ne j i with rfl | hj
  · simpa [Store.putHash] using hobj
  · simpa [Store.putHash, hj] using h.arrays j

theorem Store.Kept.tidy_hashAt (h : s.Kept fuel k) (hused : (s.hashes i).used = true) :
    (s.hashAt i).hash.Tidy := (h.arrays i).used hused

theorem Store.Kept.of_destroyHash (h : s.Kept fuel k) {obj : HashInterp}
    (hused : (s.hashes i).used = true)
    (hrun : (clearTable fuel).run (s.hashAt i) = some ((), obj)) :
    (s.putHash i { s.hashes i with used := false, obj := obj }).Kept fuel k where
  lasts := h.lasts.of_destroyHash hused hrun
  arrays := h.arrays_putHash
    ⟨nofun, fun _ => triple_clearTable fuel _ _ _ (h.tidy_hashAt hused) hrun⟩

/-- A line keeps the invariant. -/
theorem Store.Kept.effect (h : s.Kept fuel (k + 1)) (hlegal : LineLegal s (tokens, o))
    (heffect : Effect fuel o s tokens s') : s'.Kept fuel k := by
  refine ⟨h.lasts.effect hlegal.keepsValid heffect, ?_⟩
  cases heffect with
  | @createHash name rest idx obj hfree hrun =>
      have hnone : (s.hashAt idx).hash.NoArrays := (h.arrays idx).free (of_findEmpty hfree)
      exact h.arrays_putHash (.of_used rfl (triple_createHashObject _ _ _ _ hnone hrun))
  | destroyHash hused hrun => exact (h.of_destroyHash hused hrun).arrays
  | dumpHash hused hrun =>
      exact h.arrays_putHash (.of_used hused
        (preserves_dumpHash fuel _ _ _ (h.tidy_hashAt hused) hrun))
  | hashCommand hfind hcommand hrun =>
      have hused := (of_findUsed hfind).1
      exact h.arrays_putHash (.of_used hused
        (preserves_doHashCommand _ _ _ _ _ (h.tidy_hashAt hused) hrun))
  | _ => exact h.arrays

/-- With the invariant, the list items are all there is to ask for. -/
theorem Store.Kept.accounted_iff (h : s.Kept fuel k) : s.Accounted ↔ s.lists.Held := by
  constructor
  · rintro ⟨⟨items, hlists, hitems⟩, -, -⟩ n hn
    obtain ⟨i, ⟨hused, hmem⟩, -⟩ := (hitems n).mp hn
    exact ⟨i, items i, hused, hlists i hused, hmem⟩
  · intro hheld
    obtain ⟨r, items, hs, _⟩ := h.lasts.represents
    refine ⟨⟨items, fun i hused => hs.lists i (hs.isSome_of_used hused), fun n => ?_⟩, fun i => ?_,
      h.lasts.bitmaps⟩
    · constructor
      · intro hn
        obtain ⟨i, ns, hused, hlist, hmem⟩ := hheld n hn
        have hns := hs.items_eq (hs.isSome_of_used hused) hlist
        exact ⟨i, ⟨hused, hns ▸ hmem⟩, fun j hj => hs.owner j i n hj.2 (hns ▸ hmem)⟩
      · rintro ⟨i, ⟨_, hmem⟩, -⟩
        exact hs.isSome_values hmem
    · refine ⟨fun hused => ?_,
        fun hfree => ⟨(h.lasts.hashes i).free hfree, (h.arrays i).free hfree⟩⟩
      obtain ⟨a, rows, S, m, ht, _⟩ := (h.lasts.hashes i).used hused
      refine ⟨a, rows, S, ht.owns, fun b hb => ?_⟩
      exact Option.some.inj (((h.arrays i).used hused b hb).symm.trans ht.owns.holds.buckets)

/-! ### The condition -/

/-- `list_unique` without a second list only has a list without equal neighbours. -/
def FreesDuplicates (s : Store) (line : Line) : Prop :=
  ∀ name rest i ns, line.1 = "list_unique" :: name :: rest →
    findList s.lists.lists name = some i → rest.head?.bind (findList s.lists.lists) = none →
    IsList s.lists.links (listAt i) (List.map Addr.item ns) →
    (ns.map s.lists.values).IsChain (· ≠ ·)

theorem listCommand_unique {token : String} {args : List String} {duplicates : Option String}
    (h : listCommand token args = some (.unique duplicates)) :
    token = "list_unique" ∧ duplicates = args.head? := by
  unfold listCommand at h
  split at h <;> cases h
  exact ⟨rfl, rfl⟩

/-- What a line with `list_unique` runs. -/
theorem step_unique {name : String} (rest : List String)
    (hfind : findList s.lists.lists name = some i) :
    Main.step fuel s ("list_unique" :: name :: rest, o) =
      ((doListCommand fuel o.listItem i (.unique rest.head?)).run s.lists).map
        fun result => { s with lists := result.2 } := by
  have hline : Main.doLine fuel o ("list_unique" :: name :: rest) =
      Main.doListCommand fuel o ("list_unique" :: name :: rest) := rfl
  have hget : (get : MainProg Store).run s = some (s, s) := rfl
  have hbody : (Main.doListCommand fuel o ("list_unique" :: name :: rest)).run s =
      (onLists (doListCommand fuel o.listItem i (.unique rest.head?))).run s := by
    rw [Main.doListCommand, run_bind_of hget, hfind]
    rfl
  rw [Main.step, hline, hbody]
  change Option.map _ (Option.map _ _) = _
  rw [Option.map_map]
  rfl

/-! ### Every step -/

/-- `list_unique` of a list loses the duplicates that it does not give to another. -/
theorem Store.Kept.held_unique (h : s.Kept fuel (k + 1)) {name : String} {rest : List String}
    (hlegal : LineLegal s ("list_unique" :: name :: rest, o))
    (hfind : findList s.lists.lists name = some i) (hheld : s.lists.Held) {l : Interp}
    (hrun : (doListCommand fuel o.listItem i (.unique rest.head?)).run s.lists = some ((), l)) :
    l.Held ↔ FreesDuplicates s ("list_unique" :: name :: rest, o) := by
  obtain ⟨r, items, hs, _, hfuel⟩ := h.lasts.represents
  have hname : r.find name = some i := (findList_eq hs name).symm.trans hfind
  have hi := Reference.isSome_of_find hname
  have hlegal' := hlegal.reference hs (c := .unique rest.head?) rfl
  obtain ⟨items', hs'⟩ := (does_listCommand hs hi hfuel name hname _ hlegal').represents hrun
  rw [(tallies_listCommand hs hname hfuel hlegal' hs.counts hrun).held_iff hs hs' hs.counts hheld,
    Reference.dropped]
  have hsame : rest.head?.bind (findList s.lists.lists) = rest.head?.bind r.find :=
    congrArg rest.head?.bind (funext (findList_eq hs))
  have hdedup : (dedup (r.values i)).2.length = 0 ↔
      ((items i).map s.lists.values).IsChain (· ≠ ·) := by
    rw [List.length_eq_zero_iff, dedup_eq_nil_iff, hs.values i, List.isChain_map]
    simp
  constructor
  · rintro hdropped name' rest' j ns heq hj hnone hns
    cases heq
    obtain rfl := Option.some.inj (hfind.symm.trans hj)
    have hitems := hs.items_eq hi hns
    rw [← hsame, hnone, if_pos rfl] at hdropped
    exact hitems ▸ hdedup.mp hdropped
  · intro hfrees
    split
    · rename_i hnone
      exact hdedup.mpr (hfrees name rest i (items i) rfl hfind (hsame.trans hnone) (hs.lists i hi))
    · rfl

/-- No other line loses an item. -/
theorem Store.Kept.held_effect (h : s.Kept fuel (k + 1)) (hlegal : LineLegal s (tokens, o))
    (hother : ∀ name rest, tokens = "list_unique" :: name :: rest →
      findList s.lists.lists name = none)
    (heffect : Effect fuel o s tokens s') (hheld : s.lists.Held) : s'.lists.Held := by
  obtain ⟨r, items, hs, hsize, hfuel⟩ := h.lasts.represents
  have hlen (j : Fin MAX_DS) : (r.values j).length < fuel := Nat.lt_of_succ_lt (hfuel j)
  cases heffect with
  | createList hrun =>
      obtain ⟨items', hs'⟩ := (does_createListObject hs _ true).represents hrun
      exact ((tallies_createListObject hs.counts true hrun).held_iff hs hs' hs.counts hheld).mpr rfl
  | @destroyList _ i l hused hrun =>
      have hi := hs.isSome_of_used hused
      obtain ⟨items', hs'⟩ := (does_destroyList hs hi (hlen i)).represents hrun
      exact ((tallies_destroyList hs hi hs.counts hrun).held_iff hs hs' hs.counts hheld).mpr rfl
  | @dumpList _ i l hused hrun =>
      obtain ⟨items', hs'⟩ :=
        (does_dumpList hs (hs.isSome_of_used hused) (hlen i)).represents hrun
      exact ((tallies_dumpList hs.counts hrun _).held_iff hs hs' hs.counts hheld).mpr rfl
  | shuffle hused hrun =>
      obtain ⟨r', items', hs', hsize'⟩ :=
        hs.of_listShuffle (hs.isSome_of_used hused) hsize hrun
      have htally : Tallies _ _ r r' 0 := .of_size (counts_onLinks _) hs.counts hrun hsize'
      exact (htally.held_iff hs hs' hs.counts hheld).mpr rfl
  | @listCommand token name args i c l hfind hcommand hrun =>
      have hname : r.find name = some i := (findList_eq hs name).symm.trans hfind
      have hi := Reference.isSome_of_find hname
      have hlegal' := hlegal.reference hs hcommand
      obtain ⟨items', hs'⟩ := (does_listCommand hs hi hfuel name hname c hlegal').represents hrun
      refine ((tallies_listCommand hs hname hfuel hlegal' hs.counts hrun).held_iff hs hs' hs.counts
        hheld).mpr ?_
      cases c with
      | unique duplicates =>
          obtain ⟨rfl, -⟩ := listCommand_unique hcommand
          cases (hother name args rfl).symm.trans hfind
      | _ => rfl
  | _ => exact hheld

/-- A legal line ends, and loses an item if and only if it does not meet the condition. -/
theorem Store.Kept.step (h : s.Kept fuel (k + 1)) {line : Line} (hlegal : LineLegal s line) :
    ∃ s', Main.step fuel s line = some s' ∧ s'.Kept fuel k ∧
      (s.Accounted → (s'.Accounted ↔ FreesDuplicates s line)) := by
  obtain ⟨tokens, o⟩ := line
  obtain ⟨s', hstep⟩ := h.lasts.exists_step hlegal
  have heffect := effect_of_step hstep
  have h' := h.effect hlegal heffect
  refine ⟨s', hstep, h', fun haccounted => ?_⟩
  have hheld := h.accounted_iff.mp haccounted
  rw [h'.accounted_iff]
  by_cases hunique : ∃ name rest i, tokens = "list_unique" :: name :: rest ∧
      findList s.lists.lists name = some i
  · obtain ⟨name, rest, i, rfl, hfind⟩ := hunique
    rw [step_unique rest hfind] at hstep
    obtain ⟨⟨_, l⟩, hrun, rfl⟩ := Option.map_eq_some_iff.mp hstep
    exact h.held_unique hlegal hfind hheld hrun
  -- all other lines free what they take out
  · refine iff_of_true (h.held_effect hlegal (fun name rest heq => ?_) heffect hheld) ?_
    · by_contra hsome
      obtain ⟨i, hi⟩ := Option.ne_none_iff_exists'.mp hsome
      exact hunique ⟨name, rest, i, heq, hi⟩
    · intro name rest i ns heq hfind
      exact absurd ⟨name, rest, i, heq, hfind⟩ hunique

/-! ### The end of the program -/

def Store.uses (s : Store) (kind : DsKind) (i : Fin MAX_DS) : Bool :=
  match kind with
  | .list => (s.lists.lists i).used
  | .hash => (s.hashes i).used
  | .bitmap => (s.bitmaps i).used

/-- The call of `cleanup_all_objects` for a slot in use. -/
def destroy (fuel : Nat) (kind : DsKind) (i : Fin MAX_DS) : MainProg Unit :=
  match kind with
  | .list => onLists (destroyList fuel i)
  | .hash => Main.destroyHash fuel i
  | .bitmap => Main.destroyBitmap i

/-- The slot is given up, if it was in use, and no item is lost. -/
structure Released (fuel k : Nat) (s s' : Store) (kind : DsKind) (i : Fin MAX_DS) : Prop where
  kept : s'.Kept fuel k
  held : s.lists.Held → s'.lists.Held
  uses : ∀ kind' j, s'.uses kind' j = true ↔ s.uses kind' j = true ∧ ¬ (kind' = kind ∧ j = i)

theorem Store.Kept.exists_destroyList (h : s.Kept fuel k) (hused : s.uses .list i = true) :
    ∃ s', (destroy fuel .list i).run s = some ((), s') ∧ Released fuel k s s' .list i := by
  obtain ⟨s', hrun⟩ := h.lasts.exists_destroyList hused
  obtain ⟨l, hlist, rfl⟩ := of_run_onLists hrun
  obtain ⟨r, items, hs, _, hfuel⟩ := h.lasts.represents
  have hi := hs.isSome_of_used hused
  have hlen : (r.values i).length < fuel := Nat.lt_of_succ_lt (hfuel i)
  obtain ⟨items', hs'⟩ := (does_destroyList hs hi hlen).represents hlist
  refine ⟨_, hrun, ⟨h.lasts.of_destroyList hused hlist, h.arrays⟩, fun hheld => ?_,
    fun kind j => ?_⟩
  · exact ((tallies_destroyList hs hi hs.counts hlist).held_iff hs hs' hs.counts hheld).mpr rfl
  · cases kind with
    | list =>
        rcases eq_or_ne j i with rfl | hj
        · simp [Store.uses, hs'.used_iff]
        · simp [Store.uses, hs'.used_iff, hs.used_iff, hj]
    | hash | bitmap => simp [Store.uses]

theorem Store.Kept.exists_destroy (h : s.Kept fuel k) {kind : DsKind}
    (hused : s.uses kind i = true) :
    ∃ s', (destroy fuel kind i).run s = some ((), s') ∧ Released fuel k s s' kind i := by
  cases kind with
  | list => exact h.exists_destroyList hused
  | hash =>
      obtain ⟨obj, hclear, hrun⟩ := h.lasts.exists_destroyHash hused
      refine ⟨_, hrun, h.of_destroyHash hused hclear, id, fun kind j => ?_⟩
      cases kind with
      | hash => rcases eq_or_ne j i with rfl | hj <;> simp [Store.uses, Store.putHash, *]
      | list | bitmap => simp [Store.uses, Store.putHash]
  | bitmap =>
      obtain ⟨memory, hdestroy, hrun⟩ := h.lasts.exists_destroyBitmap hused
      refine ⟨_, hrun, ⟨h.lasts.of_destroyBitmap hused hdestroy, h.arrays⟩, id, fun kind j => ?_⟩
      cases kind with
      | bitmap => rcases eq_or_ne j i with rfl | hj <;> simp [Store.uses, Store.putBitmap, *]
      | list | hash => simp [Store.uses, Store.putBitmap]

/-- A slot is given up if it is in use. -/
def release (fuel : Nat) (kind : DsKind) (i : Fin MAX_DS) : MainProg Unit := do
  if (← get).uses kind i then destroy fuel kind i

theorem Store.Kept.exists_release (h : s.Kept fuel k) (kind : DsKind) (i : Fin MAX_DS) :
    ∃ s', (release fuel kind i).run s = some ((), s') ∧ Released fuel k s s' kind i := by
  have hget : (get : MainProg Store).run s = some (s, s) := rfl
  rw [release, run_bind_of hget]
  by_cases hused : s.uses kind i = true
  · rw [if_pos hused]
    exact h.exists_destroy hused
  · rw [if_neg hused]
    refine ⟨s, rfl, h, id, fun kind' j => ⟨fun huses => ⟨huses, ?_⟩, And.left⟩⟩
    rintro ⟨rfl, rfl⟩
    exact hused huses

/-- One round of `cleanup_all_objects`: the slots with number `i`, one of each kind. -/
def releaseSlots (fuel : Nat) (i : Fin MAX_DS) : MainProg Unit := do
  release fuel .list i
  release fuel .hash i
  release fuel .bitmap i

theorem run_cleanup_round (fuel : Nat) (i : Fin MAX_DS) (s : Store) :
    (do
      if ((← get).lists.lists i).used then onLists (destroyList fuel i)
      if ((← get).hashes i).used then Main.destroyHash fuel i
      if ((← get).bitmaps i).used then Main.destroyBitmap i : MainProg Unit).run s =
    (releaseSlots fuel i).run s := by
  have hif (c : Bool) (m : MainProg Unit) (rest : Unit → MainProg Unit) :
      ((if c then m else pure ()) >>= rest) = if c then m >>= rest else rest () := by
    cases c <;> rfl
  simp only [releaseSlots, release, bind_assoc, hif]
  rfl

theorem Store.Kept.exists_round (h : s.Kept fuel k) (i : Fin MAX_DS) :
    ∃ s', (releaseSlots fuel i).run s = some ((), s') ∧ s'.Kept fuel k ∧
      (s.lists.Held → s'.lists.Held) ∧
      ∀ kind j, s'.uses kind j = true → s.uses kind j = true ∧ j ≠ i := by
  obtain ⟨s₁, hrun₁, h₁⟩ := h.exists_release .list i
  obtain ⟨s₂, hrun₂, h₂⟩ := h₁.kept.exists_release .hash i
  obtain ⟨s₃, hrun₃, h₃⟩ := h₂.kept.exists_release .bitmap i
  refine ⟨s₃, ?_, h₃.kept, fun hheld => h₃.held (h₂.held (h₁.held hheld)), fun kind j huses => ?_⟩
  · rw [releaseSlots, run_bind_of hrun₁, run_bind_of hrun₂, hrun₃]
  · rw [h₃.uses, h₂.uses, h₁.uses] at huses
    obtain ⟨⟨⟨huses, hlist⟩, hhash⟩, hbitmap⟩ := huses
    refine ⟨huses, fun hj => ?_⟩
    cases kind with
    | list => exact hlist ⟨rfl, hj⟩
    | hash => exact hhash ⟨rfl, hj⟩
    | bitmap => exact hbitmap ⟨rfl, hj⟩

theorem Store.Kept.exists_rounds (h : s.Kept fuel k) (l : List (Fin MAX_DS)) :
    ∃ s', (l.forM (releaseSlots fuel)).run s = some ((), s') ∧ s'.Kept fuel k ∧
      (s.lists.Held → s'.lists.Held) ∧
      ∀ kind j, s'.uses kind j = true → s.uses kind j = true ∧ j ∉ l := by
  simp only [List.forM_eq_forM]
  induction l generalizing s with
  | nil => exact ⟨s, rfl, h, id, fun _ _ huses => ⟨huses, List.not_mem_nil⟩⟩
  | cons i l ih =>
      obtain ⟨s₁, hrun₁, h₁, hheld₁, huses₁⟩ := h.exists_round i
      obtain ⟨s', hrun, h', hheld, huses⟩ := ih h₁
      refine ⟨s', ?_, h', fun hs => hheld (hheld₁ hs), fun kind j hj => ?_⟩
      · rw [List.forM_cons, run_bind_of hrun₁]
        exact hrun
      · obtain ⟨hj₁, hnot⟩ := huses kind j hj
        obtain ⟨hj₀, hne⟩ := huses₁ kind j hj₁
        exact ⟨hj₀, List.not_mem_cons_of_ne_of_not_mem hne hnot⟩

/-- `cleanup_all_objects` ends, and leaves nothing but lost items. -/
theorem Store.Kept.exists_cleanupAllObjects (h : s.Kept fuel k) :
    ∃ s', (Main.cleanupAllObjects fuel).run s = some ((), s') ∧
      (s.lists.Held → s'.Freed) := by
  obtain ⟨s', hrun, h', hheld, huses⟩ := h.exists_rounds (List.finRange MAX_DS)
  have hround (i : Fin MAX_DS) := StateT.ext (run_cleanup_round fuel i)
  have hunused (kind : DsKind) (i : Fin MAX_DS) : s'.uses kind i = false := by
    rw [← Bool.not_eq_true]
    exact fun hused => (huses kind i hused).2 (List.mem_finRange i)
  refine ⟨s', ?_, fun hs => ⟨fun n => ?_, fun i => ?_, fun i => ?_⟩⟩
  · rw [Main.cleanupAllObjects, funext hround]
    exact hrun
  · by_contra hn
    obtain ⟨i, _, hused, _⟩ := hheld hs n (Option.isSome_iff_ne_none.mpr hn)
    exact Bool.noConfusion ((hunused .list i).symm.trans hused)
  · exact ⟨(h'.lasts.hashes i).free (hunused .hash i), (h'.arrays i).free (hunused .hash i)⟩
  · exact (h'.lasts.bitmaps i).free (hunused .bitmap i)

/-! ### Whole runs -/

/-- The lines that are run, those in front of `quit`. -/
def linesRun (lines : List Line) : List Line :=
  lines.takeWhile fun line => line.1.head? ≠ some "quit"

theorem mem_of_mem_linesRun {line : Line} {lines : List Line} (h : line ∈ linesRun lines) :
    line ∈ lines := (List.takeWhile_sublist _).subset h

/-- A `create` with memory for buckets, and with a size that is not negative. -/
theorem lineLegal_create {args : List String} (hbuckets : o.hash.buckets ≠ none)
    (hsize : ∀ name bitCnt rest, args = "bitmap" :: name :: bitCnt :: rest → 0 ≤ number bitCnt) :
    LineLegal s ("create" :: args, o) where
  buckets _ _ _ := hbuckets
  bitCnt name bitCnt rest heq := hsize name bitCnt rest (List.cons.inj heq).2
  splice token name rest before source fst lst heq hcommand := by
    obtain ⟨rfl, -⟩ := List.cons.inj heq
    cases hcommand
  unique token name rest other heq hcommand := by
    obtain ⟨rfl, -⟩ := List.cons.inj heq
    cases hcommand
  apply token name rest action heq hcommand := by
    obtain ⟨rfl, -⟩ := List.cons.inj heq
    cases hcommand
  bits token name rest c heq hcommand := by
    obtain ⟨rfl, -⟩ := List.cons.inj heq
    cases hcommand

/-- A command that has to do with one list only, or with a table, and not with `hash_apply`. -/
theorem lineLegal_command {token : String} {args : List String} (hcreate : token ≠ "create")
    (hsplice : ∀ before source first last,
      listCommand token args ≠ some (.splice before source first last))
    (hunique : ∀ other, listCommand token args ≠ some (.unique (some other)))
    (happly : ∀ action, hashCommand token args ≠ some (.apply (some action)))
    (hbitmap : bitmapCommand token args = none) (name : String) :
    LineLegal s (token :: name :: args, o) where
  buckets _ _ heq := absurd (List.cons.inj heq).1 hcreate
  bitCnt _ _ _ heq := absurd (List.cons.inj heq).1 hcreate
  splice token name args before source fst lst heq h := by
    cases heq
    cases hsplice before source fst lst h
  unique token name args other heq h := by
    cases heq
    cases hunique other h
  apply token name args action heq h := by
    cases heq
    cases happly action h
  bits token name args c heq h := by
    cases heq
    cases hbitmap.symm.trans h

/-- **The ledger.** In a run of legal lines the program comes to its end, without an access to
memory that is not there and without freeing a block twice. All blocks are accounted for in every
state, and freed at the end, if and only if no call of `list_unique` without a second list finds
duplicates. -/
theorem ledger_iff (fuel : Nat) (lines : List Line) (hfuel : lines.length + 9 ≤ fuel)
    (hlegal : StepsMeet (Main.step fuel) LineLegal (linesRun lines) .initial) :
    ∃ s, Main.main fuel lines = some s ∧
      ((StatesMeet (Main.step fuel) Store.Accounted (linesRun lines) .initial ∧ s.Freed) ↔
        StepsMeet (Main.step fuel) FreesDuplicates (linesRun lines) .initial) := by
  have hlength : (linesRun lines).length ≤ lines.length := (List.takeWhile_sublist _).length_le
  have hI : Store.initial.Kept fuel (linesRun lines).length := kept_initial (by omega)
  have hP : Store.initial.Accounted := hI.accounted_iff.mpr fun n hn => nomatch hn
  have hstep (k : Nat) (s : Store) (line : Line) (h : s.Kept fuel (k + 1))
      (hline : LineLegal s line) : ∃ s', Main.step fuel s line = some s' ∧ s'.Kept fuel k ∧
        (s.Accounted → (s'.Accounted ↔ FreesDuplicates s line)) := h.step hline
  obtain ⟨⟨s, hexec⟩, hiff⟩ := exec_of_steps hstep hI hP hlegal
  have hkept : StatesMeet (Main.step fuel) (Store.Kept fuel 0) (linesRun lines) .initial := by
    refine .of_invariant (I := Store.Kept fuel) (fun k s line h hline => ?_)
      (fun k s => Store.Kept.zero) hI hlegal
    obtain ⟨s', hrun, h', _⟩ := hstep k s line h hline
    exact ⟨s', hrun, h'⟩
  have hlast := hkept.last hexec
  obtain ⟨s', hcleanup, hfreed⟩ := hlast.exists_cleanupAllObjects
  refine ⟨s', ?_, ?_⟩
  · rw [Main.main]
    change Option.bind (exec (Main.step fuel) (linesRun lines) .initial) _ = _
    rw [hexec, Option.bind_some, hcleanup]
    rfl
  -- the cleanup frees what is in a list, so it adds nothing to the condition
  · rw [← hiff]
    refine ⟨And.left, fun hstates => ⟨hstates, hfreed ?_⟩⟩
    exact hlast.accounted_iff.mp (hstates.last hexec)

/-- An object of each kind, all with one name, and `delete`. -/
def shadowLines : List Line :=
  [(["create", "list", "X"], .plain), (["create", "hashtable", "X"], .plain),
    (["create", "bitmap", "X", "10"], .plain), (["list_push_back", "X", "1"], .plain),
    (["hash_insert", "X", "2"], .plain), (["delete", "X"], .plain)]

theorem ledger_iff_shadowLines :
    ∃ s, Main.main 20 shadowLines = some s ∧
      StatesMeet (Main.step 20) Store.Accounted (linesRun shadowLines) .initial ∧ s.Freed := by
  obtain ⟨s, hrun, hiff⟩ := ledger_iff 20 shadowLines (by decide) <|
    .of_forall fun s line hline => by
      have hline := mem_of_mem_linesRun hline
      simp only [shadowLines, List.mem_cons, List.not_mem_nil, or_false] at hline
      rcases hline with rfl | rfl | rfl | rfl | rfl | rfl
      · exact lineLegal_create nofun fun name bitCnt rest heq => by simp at heq
      · exact lineLegal_create nofun fun name bitCnt rest heq => by simp at heq
      · refine lineLegal_create nofun fun name bitCnt rest heq => ?_
        cases heq
        decide
      all_goals
        exact lineLegal_command (by decide) (fun _ _ _ _ h => by cases h) (fun _ h => by cases h)
          (fun _ h => by cases h) rfl _
  refine ⟨s, hrun, hiff.mpr (.of_forall fun s line hline name rest i ns heq => ?_)⟩
  have hline := mem_of_mem_linesRun hline
  simp only [shadowLines, List.mem_cons, List.not_mem_nil, or_false] at hline
  rcases hline with rfl | rfl | rfl | rfl | rfl | rfl <;> simp at heq

/-- Equal neighbours. -/
def duplicateLines : List Line :=
  [(["create", "list", "L"], .plain), (["list_push_back", "L", "1"], .plain),
    (["list_push_back", "L", "1"], .plain), (["list_unique", "L"], .plain)]

/-- The duplicate of a list without another one is not freed. -/
theorem list_unique_leaks :
    ¬ ∀ (fuel : Nat) (lines : List Line), lines.length + 9 ≤ fuel →
      StepsMeet (Main.step fuel) LineLegal (linesRun lines) .initial →
      ∃ s, Main.main fuel lines = some s ∧
        StatesMeet (Main.step fuel) Store.Accounted (linesRun lines) .initial ∧ s.Freed := by
  intro h
  obtain ⟨s, hrun, -, hfreed⟩ := h 13 duplicateLines (by decide) <|
    .of_forall fun s line hline => by
      have hline := mem_of_mem_linesRun hline
      simp only [duplicateLines, List.mem_cons, List.not_mem_nil, or_false] at hline
      rcases hline with rfl | rfl | rfl | rfl
      · exact lineLegal_create nofun fun name bitCnt rest heq => by simp at heq
      all_goals
        exact lineLegal_command (by decide) (fun _ _ _ _ h => by cases h) (fun _ h => by cases h)
          (fun _ h => by cases h) rfl _
  have hleft : (Main.main 13 duplicateLines).map (fun s => s.lists.values 1) = some (some 1) := by
    decide +kernel
  rw [hrun, Option.map_some, hfreed.items 1] at hleft
  cases hleft

end SystemProgramming.Testlib
