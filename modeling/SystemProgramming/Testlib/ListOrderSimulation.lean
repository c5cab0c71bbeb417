import SystemProgramming.Testlib.ListSimulation

/-!
The commands that compare values, and those on the table of the lists.
-/

namespace SystemProgramming.Testlib

open SystemProgramming.Library

/-- The order `list_item_less` decides, on all addresses. -/
def itemLt (values : Nat → Option Int) (a b : Addr) : Bool :=
  (entryValue values (some a)).getD 0 < (entryValue values (some b)).getD 0

instance (values : Nat → Option Int) : IsStrictWeakOrder Addr (fun a b => itemLt values a b) :=
  inferInstanceAs (IsStrictWeakOrder Addr
    (fun a b => byKey (fun a => (entryValue values (some a)).getD 0) a b))

variable {s : Interp} {r : Reference} {items : Fin MAX_DS → List Nat} {i j : Fin MAX_DS}
  {fuel : Nat} {memory : Malloc}

@[simp] theorem itemLt_item (s : Interp) (n m : Nat) :
    itemLt s.values (.item n) (.item m) = decide (s.val n < s.val m) := rfl

theorem decides_listItemLess {ns : List Nat} (hns : ∀ n ∈ ns, (s.values n).isSome) :
    Decides (listItemLess s.values) (itemLt s.values) (ns.map .item) := by
  intro x hx y hy
  obtain ⟨n, hn, rfl⟩ := List.mem_map.mp hx
  obtain ⟨m, hm, rfl⟩ := List.mem_map.mp hy
  obtain ⟨v, hv⟩ := Option.isSome_iff_exists.mp (hns n hn)
  obtain ⟨w, hw⟩ := Option.isSome_iff_exists.mp (hns m hm)
  simp [listItemLess, entryValue, itemLt, hv, hw]

theorem run_withLess {β : Type} (prog : (Ptr Addr → Ptr Addr → Option Bool) → Prog Addr β) {b : β}
    {links' : Heap Addr} (hrun : (prog (listItemLess s.values)).run s.links = some (b, links')) :
    (withLess prog).run s = some (b, { s with links := links' }) :=
  run_onLinks hrun

def Addr.number : Addr → Option Nat
  | .item n => some n
  | _ => none

/-- A rearrangement of items is a rearrangement of their numbers. -/
theorem exists_items {ys : List Addr} {ns : List Nat} (hperm : ys.Perm (ns.map .item)) :
    ∃ ms : List Nat, ys = ms.map .item ∧ ms.Perm ns := by
  have hmap (zs : List Addr) (hzs : ∀ z ∈ zs, z ∈ ns.map Addr.item) :
      zs = (zs.filterMap Addr.number).map Addr.item := by
    induction zs with
    | nil => rfl
    | cons z zs ih =>
        obtain ⟨n, _, rfl⟩ := List.mem_map.mp (hzs z List.mem_cons_self)
        simpa [Addr.number] using ih fun y hy => hzs y (List.mem_cons_of_mem _ hy)
  refine ⟨ys.filterMap Addr.number, hmap ys fun y hy => hperm.mem_iff.mp hy, ?_⟩
  have hnumber : (ns.map Addr.item).filterMap Addr.number = ns := by
    have hcomp : Addr.number ∘ Addr.item = some := rfl
    rw [List.filterMap_map, hcomp, List.filterMap_some]
  exact hnumber ▸ hperm.filterMap Addr.number

/-- The plain list function of the reference. -/
theorem dedup_eq (x : Int) (xs : List Int) :
    dedup (x :: xs) =
      (x :: (unique (fun a b => decide (a < b)) x xs).1,
        (unique (fun a b => decide (a < b)) x xs).2) := by
  induction xs generalizing x with
  | nil => rfl
  | cons y ys ih =>
      rw [dedup, unique, ih]
      by_cases hxy : x = y
      · subst hxy
        simp
      · have hlt : ¬ (y ≤ x ∧ x ≤ y) := by omega
        simp [hxy, hlt]

theorem dedup_map (s : Interp) (n : Nat) (ns : List Nat) :
    dedup ((n :: ns).map s.val) =
      ((n :: (unique (fun a b => decide (s.val a < s.val b)) n ns).1).map s.val,
        (unique (fun a b => decide (s.val a < s.val b)) n ns).2.map s.val) := by
  rw [List.map_cons, dedup_eq, unique_map, List.map_cons]

theorem max?_eq (x : Int) (xs : List Int) :
    (x :: xs).max? = some (maximum (fun a b => decide (a < b)) x xs) := by
  have hmax : (max : Int → Int → Int) = fun best e => if decide (best < e) then e else best := by
    funext a b
    simp only [decide_eq_true_iff]
    split <;> omega
  rw [List.max?_cons', hmax, maximum]

theorem min?_eq (x : Int) (xs : List Int) :
    (x :: xs).min? = some (minimum (fun a b => decide (a < b)) x xs) := by
  have hmin : (min : Int → Int → Int) = fun best e => if decide (e < best) then e else best := by
    funext a b
    simp only [decide_eq_true_iff]
    split <;> omega
  rw [List.min?_cons', hmin, minimum, maximum]

section Compare

variable (hs : Represents s r items) (hi : (r.lists i).isSome)

include hs hi

theorem does_sort (hfuel : (r.values i).length < fuel) :
    Does (doListCommand fuel memory i .sort) s (r.listCommand memory.isSome i .sort) := by
  obtain ⟨h', ys, hrun, hlist, hrearr, hsorted, hsame⟩ := run_listSort (hs.lists i hi)
    (decides_listItemLess fun n hn => hs.isSome_values hn)
    (by rwa [List.length_map, ← length_values hs])
  obtain ⟨ms, rfl, hperm⟩ := exists_items hrearr.perm
  have hvalues : (r.values i).insertionSort (· ≤ ·) = ms.map s.val := by
    have hms : (ms.map s.val).Pairwise (· ≤ ·) := by
      rw [List.pairwise_map] at hsorted ⊢
      exact hsorted.imp fun {a b} hab => by simpa [notAfter] using hab
    refine List.Perm.eq_of_pairwise (fun a b _ _ => Int.le_antisymm)
      (List.pairwise_insertionSort (· ≤ ·) _) hms ?_
    rw [hs.values_eq]
    exact (List.perm_insertionSort _ _).trans (hperm.map _).symm
  rw [Reference.listCommand, hvalues]
  exact ⟨_, _, run_withLess (listSort · fuel (listAt i)) hrun,
    hs.setList hi (E := []) hlist hsame (by simp) fun n hn => .inl (hperm.mem_iff.mp hn)⟩

theorem does_insertOrdered (hfuel : (r.values i).length < fuel) (value : Int) :
    Does (doListCommand fuel memory i (.insertOrdered value)) s
      (r.listCommand memory.isSome i (.insertOrdered value)) := by
  rcases memory with _ | ⟨asked, garbage⟩
  · exact hs.does_pure
  · obtain ⟨n, s', hmake, hs', hnot, hvalue, hlink⟩ := hs.makeListItem asked garbage value
    have hval : s'.val n = value := by simp [Interp.val, hvalue]
    have hsome : ∀ m ∈ n :: items i, (s'.values m).isSome := fun m hm =>
      (List.mem_cons.mp hm).elim (fun heq => by rw [heq, hvalue]; rfl) hs'.isSome_values
    obtain ⟨h', hrun, hlist, hsame⟩ := run_listInsertOrdered (hs'.lists i hi)
      (decides_listItemLess hsome) hlink (item_notMem_rowOf hnot)
      (show _ < fuel by rwa [List.length_map, ← length_values hs])
    refine Does.bind hmake ?_
    have htest (m : Nat) : (!itemLt s'.values (.item n) (.item m)) = decide (s'.val m ≤ value) := by
      rw [itemLt_item, hval]
      by_cases hlt : value < s'.val m <;> simp [hlt, Int.not_le.mpr, Int.not_lt.mp]
    have hsplit := (List.takeWhile_append_dropWhile
      (p := fun m => decide (s'.val m ≤ value)) (l := items i)).symm
    simp only [upTo, above, List.takeWhile_map, List.dropWhile_map, Function.comp_def,
      htest] at hlist
    rw [Reference.listCommand, hs'.values_eq, List.takeWhile_map, List.dropWhile_map]
    obtain ⟨_, _, hinsert, hs''⟩ := does_insertItem hs' hi hsplit hnot hvalue hrun hlist hsame
    exact ⟨_, _, hinsert, hs''⟩

omit hi in
/-- The call of the command, where the list does not take its own duplicates. -/
theorem run_unique (hl : IsList s.links (listAt i) ((items i).map .item))
    (hfuel : (items i).length < fuel) (slot : Option (Fin MAX_DS)) (hne : slot ≠ some i)
    (hused : ∀ j ∈ slot, (r.lists j).isSome) :
    ∃ h' kept removed, (listUnique (listItemLess s.values) fuel (listAt i)
        (slot.map listAt)).run s.links = some ((), h') ∧
      dedup ((items i).map s.val) = (kept.map s.val, removed.map s.val) ∧
      (kept ++ removed).Perm (items i) ∧ IsList h' (listAt i) (kept.map .item) ∧
      (∀ j ∈ slot, IsList h' (listAt j) ((items j ++ removed).map .item)) ∧
      s.links.SameOff (rowOf items i ++ slot.elim [] (rowOf items)) h' := by
  cases hns : items i with
  | nil =>
      rw [hns] at hl
      refine ⟨s.links, [], [], run_listUnique_nil hl fuel _, rfl, .refl _, hl, ?_, .refl _ _⟩
      intro j hj
      rw [List.append_nil]
      exact hs.lists j (hused j hj)
  | cons n ns =>
      have hrow : rowOf items i = (listAt i).row (.item n :: ns.map .item) := by
        rw [rowOf, hns, List.map_cons]
      have hless : Decides (listItemLess s.values) (itemLt s.values)
          (.item n :: ns.map Addr.item) :=
        decides_listItemLess (show ∀ m ∈ n :: ns, (s.values m).isSome from
          fun m hm => hs.isSome_values (hns ▸ hm))
      have hdups : ∀ d ∈ slot.map fun j => (listAt j, (items j).map Addr.item),
          IsList s.links d.1 d.2 ∧
            ∀ z ∈ (listAt i).row (.item n :: ns.map .item), z ∉ d.1.row d.2 := by
        intro d hd
        obtain ⟨j, hj, rfl⟩ := Option.mem_map.mp hd
        refine ⟨hs.lists j (hused j hj), fun x hx => ?_⟩
        have hij : i ≠ j := fun heq => hne (heq ▸ hj)
        exact hs.disjoint hij (hrow ▸ hx)
      rw [hns, List.map_cons] at hl
      rw [hns, List.length_cons] at hfuel
      obtain ⟨h', hrun, hlist, hlists, hsame⟩ := run_listUnique hl hless hdups
        (show _ < fuel by rw [List.length_map]; exact Nat.lt_of_succ_lt hfuel)
      have hplain := @unique_map _ (itemLt s.values) _ Addr.item n ns
      simp only [itemLt_item] at hplain
      rw [hplain] at hlist hlists
      refine ⟨h', _, _, ?_, dedup_map s n ns, (unique_perm n ns).cons n, hlist, ?_, ?_⟩
      · simpa [Function.comp_def] using hrun
      · intro j hj
        rw [List.map_append]
        exact hlists _ (Option.mem_map_of_mem _ hj)
      · cases slot <;> exact hrow ▸ hsame

theorem does_unique (hfuel : (r.values i).length < fuel) (duplicates : Option String)
    (hother : ∀ name ∈ duplicates, r.find name ≠ some i) :
    Does (doListCommand fuel memory i (.unique duplicates)) s
      (r.listCommand memory.isSome i (.unique duplicates)) := by
  refine Does.bind (t := s) rfl ?_
  have hfind : duplicates.bind (findList s.lists) = duplicates.bind r.find :=
    congrArg duplicates.bind (funext (findList_eq hs))
  have hne : duplicates.bind r.find ≠ some i := by
    cases duplicates with
    | none => simp
    | some name => simpa using hother name rfl
  have hused : ∀ j ∈ duplicates.bind r.find, (r.lists j).isSome := by
    intro j hj
    obtain ⟨name, _, hname⟩ := Option.bind_eq_some_iff.mp hj
    exact Reference.isSome_of_find hname
  rw [length_values hs] at hfuel
  rw [Reference.listCommand, hs.values_eq]
  simp only [hfind]
  generalize duplicates.bind r.find = slot at hne hused
  obtain ⟨h', kept, removed, hrun, hdedup, hperm, hlist, hlists, hsame⟩ :=
    run_unique hs (hs.lists i hi) hfuel slot hne hused
  rw [hdedup]
  cases slot with
  | none =>
      have hset := hs.setList hi (E := []) hlist (by simpa using hsame) (by simp) fun m hm =>
        .inl (hperm.mem_iff.mp (List.mem_append_left _ hm))
      exact ⟨_, _, run_withLess (listUnique · fuel (listAt i) none) hrun, hset⟩
  | some j =>
      have hij : i ≠ j := fun heq => hne (heq ▸ rfl)
      have hset := hs.setLists hi (hused j rfl) hij hlist (hlists j rfl) hsame <| by
        refine List.perm_iff_count.mpr fun m => ?_
        have hcount := List.perm_iff_count.mp hperm m
        simp only [List.count_append] at hcount ⊢
        omega
      rw [List.map_append, ← hs.values_eq j] at hset
      exact ⟨_, _, run_withLess (listUnique · fuel (listAt i) (some (listAt j))) hrun, hset⟩

/-- A search for the last item that no other is before, in an order of the values. -/
theorem does_extreme {search : (Ptr Addr → Ptr Addr → Option Bool) → Prog Addr (Ptr Addr)}
    {before : Addr → Addr → Bool} {lt : Int → Int → Bool} {f : List Int → Option Int}
    (hfuel : (r.values i).length < fuel) (hnil : f [] = none)
    (hcons : ∀ x xs, f (x :: xs) = some (maximum lt x xs))
    (hbefore : ∀ n m, before (.item n) (.item m) = lt (s.val n) (s.val m))
    (hsearch : ∀ x xs, IsList s.links (listAt i) (x :: xs) →
      Decides (listItemLess s.values) (itemLt s.values) (x :: xs) → xs.length < fuel →
      (search (listItemLess s.values)).run s.links = some (some (maximum before x xs), s.links)) :
    Does (do if !(← onLinks (listEmpty (listAt i))) then printValue (← withLess search)) s
      (r.printValue (f (r.values i))) := by
  refine does_printFound hs hi hnil fun hne => ?_
  have hl := hs.lists i hi
  rw [length_values hs] at hfuel
  obtain ⟨n, ns, hns⟩ := List.exists_cons_of_ne_nil hne
  have hless : Decides (listItemLess s.values) (itemLt s.values) ((n :: ns).map .item) :=
    decides_listItemLess fun m hm => hs.isSome_values (hns ▸ hm)
  rw [hns] at hl hfuel ⊢
  have hrun := hsearch (.item n) (ns.map .item) hl hless (by
    rw [List.length_map]
    exact Nat.lt_of_succ_lt hfuel)
  have horder : (fun a b => before (.item a) (.item b)) = fun a b => lt (s.val a) (s.val b) :=
    funext fun a => funext fun b => hbefore a b
  rw [maximum_map, horder] at hrun
  refine ⟨_, maximum_mem n ns, run_withLess search hrun, ?_⟩
  rw [List.map_cons, hcons, maximum_map]

theorem does_max (hfuel : (r.values i).length < fuel) :
    Does (doListCommand fuel memory i .max) s (r.listCommand memory.isSome i .max) :=
  does_extreme hs hi hfuel rfl max?_eq (fun _ _ => rfl) fun _ _ => run_listMax

theorem does_min (hfuel : (r.values i).length < fuel) :
    Does (doListCommand fuel memory i .min) s (r.listCommand memory.isSome i .min) :=
  does_extreme hs hi hfuel rfl min?_eq (fun _ _ => rfl) fun _ _ => run_listMin

end Compare

end SystemProgramming.Testlib
