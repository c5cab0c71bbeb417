import Mathlib.Data.Set.Card
import SystemProgramming.Library.Triples
import SystemProgramming.Testlib.KeptObjects

/-!
How many list items are allocated. A command allocates an item exactly when a
sequence gets longer and frees one exactly when a sequence gets shorter, with
one exception: what `list_unique` takes out of its list, and has no second list
to put it into, stays allocated. So an item is lost there and nowhere else.
-/

namespace SystemProgramming.Testlib

open SystemProgramming.Library

variable {β : Type} {s s' : Interp} {r r' : Reference} {items : Fin MAX_DS → List Nat}
  {i j : Fin MAX_DS} {fuel c : Nat} {memory : Malloc} {name : String}

/-- The items that are allocated. -/
def Interp.live (s : Interp) : Set Nat := {n | (s.values n).isSome = true}

/-- `c` items are allocated, none of them past the last one. -/
structure Interp.Counts (s : Interp) (c : Nat) : Prop where
  card : s.live.ncard = c
  fresh : ∀ n, s.brk ≤ n → s.values n = none

theorem Interp.Counts.finite (h : s.Counts c) : s.live.Finite := by
  refine (Set.finite_Iio s.brk).subset fun n hn => Nat.lt_of_not_le fun hle => ?_
  rw [Interp.live, Set.mem_ofPred_eq, h.fresh n hle] at hn
  cases hn

theorem Represents.counts (hs : Represents s r items) : s.Counts s.live.ncard := ⟨rfl, hs.fresh⟩

/-! ### Every item is in a list -/

/-- Every allocated item is in a list in use. -/
def Interp.Held (s : Interp) : Prop :=
  ∀ n, (s.values n).isSome = true → ∃ i ns, (s.lists i).used = true ∧
    IsList s.links (listAt i) (List.map Addr.item ns) ∧ n ∈ ns

theorem Represents.used_iff (hs : Represents s r items) :
    (s.lists i).used = true ↔ (r.lists i).isSome = true := by
  have hnames := hs.names i
  constructor
  · exact hs.isSome_of_used
  · intro hi
    by_contra hunused
    rw [if_neg hunused, Option.map_eq_none_iff] at hnames
    rw [hnames] at hi
    cases hi

theorem Represents.items_of_isNone (hs : Represents s r items) (hi : r.lists i = none) :
    items i = [] := by
  have hvalues := hs.values_eq i
  rw [Reference.values, hi] at hvalues
  exact List.map_eq_nil_iff.mp hvalues.symm

/-- A list has its items once. -/
theorem Represents.items_eq (hs : Represents s r items) (hi : (r.lists i).isSome = true)
    {ns : List Nat} (hlist : IsList s.links (listAt i) (ns.map .item)) : items i = ns := by
  have hns := (hs.lists i hi).unique hlist
  rwa [List.map_inj_right fun _ _ => Addr.item.inj] at hns

theorem Represents.isSome_of_mem (hs : Represents s r items) {n : Nat} (hn : n ∈ items i) :
    (r.lists i).isSome = true := by
  by_contra hnone
  rw [hs.items_of_isNone (by simpa using hnone)] at hn
  cases hn

theorem Represents.nodup_items (hs : Represents s r items) (i : Fin MAX_DS) : (items i).Nodup := by
  cases hi : r.lists i with
  | none => simp [hs.items_of_isNone hi]
  | some l => exact (hs.lists i (by simp [hi])).nodup_elems.of_map _

/-- The items of all lists. -/
def listed (items : Fin MAX_DS → List Nat) : Finset Nat :=
  Finset.univ.biUnion fun i => (items i).toFinset

theorem mem_listed {n : Nat} : n ∈ listed items ↔ ∃ i, n ∈ items i := by simp [listed]

theorem Represents.card_listed (hs : Represents s r items) : (listed items).card = r.size := by
  rw [listed, Finset.card_biUnion, Reference.size]
  · refine Finset.sum_congr rfl fun i _ => ?_
    rw [List.toFinset_card_of_nodup (hs.nodup_items i), length_values hs]
  · intro i _ j _ hij
    refine Finset.disjoint_left.mpr fun n hi hj => hij ?_
    exact hs.owner i j n (List.mem_toFinset.mp hi) (List.mem_toFinset.mp hj)

theorem Represents.listed_subset (hs : Represents s r items) : ↑(listed items) ⊆ s.live := by
  intro n hn
  obtain ⟨i, hi⟩ := mem_listed.mp hn
  exact hs.isSome_values hi

theorem Represents.size_le (hs : Represents s r items) (hc : s.Counts c) : r.size ≤ c := by
  rw [← hs.card_listed, ← hc.card, ← Set.ncard_coe_finset]
  exact Set.ncard_le_ncard hs.listed_subset hc.finite

/-- The items that are listed are as many as are allocated if no item is lost. -/
theorem Represents.held_iff (hs : Represents s r items) (hc : s.Counts c) :
    s.Held ↔ c = r.size := by
  rw [← hc.card, ← hs.card_listed, ← Set.ncard_coe_finset]
  constructor
  · refine fun hheld => congrArg Set.ncard (Set.Subset.antisymm (fun n hn => ?_) hs.listed_subset)
    obtain ⟨i, ns, hused, hlist, hmem⟩ := hheld n hn
    have hns := hs.items_eq (hs.isSome_of_used hused) hlist
    exact mem_listed.mpr ⟨i, hns ▸ hmem⟩
  · intro hcard n hn
    -- what is listed is allocated, and as many are: so nothing else is
    have heq := Set.eq_of_subset_of_ncard_le hs.listed_subset hcard.le hc.finite
    obtain ⟨i, hi⟩ := mem_listed.mp (show n ∈ (listed items : Set Nat) from heq ▸ hn)
    have hsome := hs.isSome_of_mem hi
    exact ⟨i, items i, hs.used_iff.mpr hsome, hs.lists i hsome, hi⟩

/-! ### What a call allocates and frees -/

theorem triple_makeListItem (memory : Malloc) (value : Int) :
    Triple (Interp.Counts · c) (makeListItem memory value) fun p s =>
      p.isSome = memory.isSome ∧ s.Counts (if memory.isSome then c + 1 else c) := by
  intro s p s' hc hrun
  rcases memory with _ | ⟨asked, garbage⟩
  · cases hrun
    exact ⟨rfl, hc⟩
  · cases hrun
    have hnone : s.values (s.fresh asked) = none := by
      rw [Interp.fresh]
      split
      · exact Option.isNone_iff_eq_none.mp ‹_›
      · exact hc.fresh _ le_rfl
    refine ⟨rfl, ?_, fun m hm => ?_⟩
    · have hlive : {m | (Function.update s.values (s.fresh asked) (some value) m).isSome = true} =
          insert (s.fresh asked) s.live := by
        ext m
        rcases eq_or_ne m (s.fresh asked) with rfl | hne
        · simp
        · simp [Interp.live, hne]
      have hnot : s.fresh asked ∉ s.live := by simp [Interp.live, hnone]
      change Set.ncard {m | _} = _
      rw [hlive, Set.ncard_insert_of_notMem hnot hc.finite, hc.card]
      rfl
    · have hbrk : max s.brk (s.fresh asked + 1) ≤ m := hm
      exact (Function.update_of_ne (by omega) ..).trans (hc.fresh m (by omega))

theorem triple_freeItem (e : Ptr Addr) : Triple (Interp.Counts · c) (freeItem e) fun _ s =>
    s.Counts (if e.isSome then c - 1 else c) := by
  intro s _ s' hc hrun
  rcases e with _ | (i | i | n)
  · cases hrun
    exact hc
  · cases hrun
  · cases hrun
  · obtain ⟨hsome, heq⟩ := Option.ite_none_right_eq_some.mp hrun
    cases heq
    refine ⟨?_, fun m hm => ?_⟩
    · have hlive : {m | (Function.update s.values n none m).isSome = true} = s.live \ {n} := by
        ext m
        rcases eq_or_ne m n with rfl | hne
        · simp
        · simp [Interp.live, hne]
      change Set.ncard {m | _} = _
      rw [hlive, Set.ncard_sdiff_singleton_of_mem (show n ∈ s.live from hsome), hc.card]
      rfl
    · rcases eq_or_ne m n with rfl | hne
      · exact Function.update_self ..
      · exact (Function.update_of_ne hne ..).trans (hc.fresh m hm)

theorem counts_onLinks (prog : Prog Addr β) : Preserves (Interp.Counts · c) (onLinks prog) := by
  intro s _ s' hc hrun
  obtain ⟨_, _, heq⟩ := Option.map_eq_some_iff.mp hrun
  cases heq
  exact ⟨hc.card, hc.fresh⟩

theorem counts_printf (text : String) : Preserves (Interp.Counts · c) (printf text) :=
  .modify fun _ hc => ⟨hc.card, hc.fresh⟩

theorem counts_getValue (e : Ptr Addr) : Preserves (Interp.Counts · c) (getValue e) := by
  intro s _ s' hc hrun
  obtain ⟨_, _, heq⟩ := Option.map_eq_some_iff.mp hrun
  cases heq
  exact hc

theorem counts_printValue (e : Ptr Addr) : Preserves (Interp.Counts · c) (printValue e) :=
  (counts_getValue e).bind fun _ => counts_printf _

theorem counts_withLess (prog : (Ptr Addr → Ptr Addr → Option Bool) → Prog Addr β) :
    Preserves (Interp.Counts · c) (withLess prog) := .get fun _ => counts_onLinks _

/-! ### The ledger -/

/-- The items that `list_unique` takes out of its list and puts into no other. -/
def Reference.dropped (r : Reference) (i : Fin MAX_DS) : ListCommand → Nat
  | .unique duplicates =>
      if duplicates.bind r.find = none then (dedup (r.values i)).2.length else 0
  | _ => 0

/-- The number of items changes with the sequences, but for `dropped` items. -/
def Tallies (s' : Interp) (c : Nat) (r r' : Reference) (dropped : Nat) : Prop :=
  ∃ c', s'.Counts c' ∧ c' + r.size = c + r'.size + dropped

theorem Tallies.of_preserves {cmd : Cmd Unit} {d : Nat} (hcmd : Preserves (Interp.Counts · c) cmd)
    (hc : s.Counts c) (hrun : cmd.run s = some ((), s')) (hsize : r'.size + d = r.size) :
    Tallies s' c r r' d :=
  ⟨c, hcmd s () s' hc hrun, by omega⟩

/-- Nothing is added, freed or lost. -/
theorem Tallies.of_size {cmd : Cmd Unit} (hcmd : Preserves (Interp.Counts · c) cmd)
    (hc : s.Counts c) (hrun : cmd.run s = some ((), s')) (hsize : r'.size = r.size) :
    Tallies s' c r r' 0 := .of_preserves hcmd hc hrun ((Nat.add_zero _).trans hsize)

/-- Nothing happens. -/
theorem Tallies.refl (hc : s.Counts c) : Tallies s c r r 0 := ⟨c, hc, (Nat.add_zero _).symm⟩

/-- An item is added if there is memory for it. -/
theorem tallies_add {prog : Ptr Addr → Cmd Unit} {value : Int} {xs : List Int}
    (hprog : ∀ c item, Preserves (Interp.Counts · c) (prog item)) (hi : (r.lists i).isSome)
    (hc : s.Counts c)
    (hrun : (do
      let item ← makeListItem memory value
      if item.isSome then prog item : Cmd Unit).run s = some ((), s'))
    (hxs : xs.length = (r.values i).length + 1) :
    Tallies s' c r (if memory.isSome then r.set i xs else r) 0 := by
  have hcmd : Triple (Interp.Counts · c) (do
      let item ← makeListItem memory value
      if item.isSome then prog item : Cmd Unit)
      fun _ s => s.Counts (if memory.isSome then c + 1 else c) :=
    (triple_makeListItem memory value).bind fun item =>
      .conseq (.ite (hprog _ _) (.skip _)) (fun _ h => h.2) fun _ _ => id
  refine ⟨_, hcmd s () s' hc hrun, ?_⟩
  have hset := Reference.size_set_eq hi xs
  split <;> omega

/-- An item of a list is freed. -/
theorem tallies_free {links' : Heap Addr} {n : Nat} {xs : List Int}
    (hs : Represents s r items) (hi : (r.lists i).isSome) (hc : s.Counts c)
    (hrun : (freeItem (some (.item n))).run { s with links := links' } = some ((), s'))
    (hxs : xs.length + 1 = (r.values i).length) : Tallies s' c r (r.set i xs) 0 := by
  refine ⟨c - 1, triple_freeItem _ { s with links := links' } () s' ⟨hc.card, hc.fresh⟩ hrun, ?_⟩
  have hset := Reference.size_set_eq hi xs
  have hsize := hs.size_le hc
  have hlength := r.length_values_le i
  omega

theorem tallies_popFront (hs : Represents s r items) (hi : (r.lists i).isSome)
    (hc : s.Counts c)
    (hrun : (doListCommand fuel memory i .popFront).run s = some ((), s')) :
    Tallies s' c r (r.set i (r.values i).tail) 0 := by
  have hl := hs.lists i hi
  simp only [doListCommand] at hrun
  rw [run_bind_of (run_onLinks (run_listEmpty hl))] at hrun
  cases hns : items i with
  | nil =>
      rw [hns] at hrun
      cases hrun
      have hvalues : r.values i = [] := by rw [hs.values_eq, hns]; rfl
      rw [hvalues, List.tail_nil, set_of_empty hs hns]
      exact .refl hc
  | cons n ns =>
      rw [hns] at hl hrun
      obtain ⟨h', hpop, -⟩ := run_listPopFront hl
      simp only [List.map_cons, List.isEmpty_cons, Bool.not_false, if_true] at hrun
      rw [run_bind_of (run_onLinks hpop)] at hrun
      refine tallies_free hs hi hc hrun ?_
      rw [List.length_tail, length_values hs, hns]
      rfl

theorem tallies_popBack (hs : Represents s r items) (hi : (r.lists i).isSome)
    (hc : s.Counts c)
    (hrun : (doListCommand fuel memory i .popBack).run s = some ((), s')) :
    Tallies s' c r (r.set i (r.values i).dropLast) 0 := by
  have hl := hs.lists i hi
  simp only [doListCommand] at hrun
  rw [run_bind_of (run_onLinks (run_listEmpty hl))] at hrun
  rcases List.eq_nil_or_concat (items i) with hns | ⟨ns, n, hns⟩
  · rw [hns] at hrun
    cases hrun
    have hvalues : r.values i = [] := by rw [hs.values_eq, hns]; rfl
    rw [hvalues, List.dropLast_nil, set_of_empty hs hns]
    exact .refl hc
  · rw [List.concat_eq_append] at hns
    rw [hns, List.map_append, List.map_singleton] at hl
    obtain ⟨h', hpop, -⟩ := run_listPopBack hl
    have hne : ((items i).map Addr.item).isEmpty = false := by simp [hns]
    rw [hne, Bool.not_false, if_pos rfl, run_bind_of (run_onLinks hpop)] at hrun
    refine tallies_free hs hi hc hrun ?_
    rw [List.length_dropLast, length_values hs, hns, List.length_append]
    rfl

theorem tallies_remove (hs : Represents s r items) (hi : (r.lists i).isSome)
    (hfuel : (r.values i).length < fuel) (hc : s.Counts c) {idx : Int}
    (hrun : (doListCommand fuel memory i (.remove idx)).run s = some ((), s')) :
    Tallies s' c r (r.listCommand memory.isSome i (.remove idx)) 0 := by
  simp only [doListCommand] at hrun
  rw [run_bind_of (run_elemAt hs hi hfuel idx)] at hrun
  have hsome := isSome_elemAt (items i) idx
  rw [← length_values hs] at hsome
  cases hat : elemAt (items i) idx with
  | none =>
      rw [hat] at hrun hsome
      cases hrun
      rw [eq_comm, Option.isSome_none, decide_eq_false_iff_not] at hsome
      rw [Reference.listCommand]
      split
      · rw [List.eraseIdx_of_length_le (by omega), Reference.set_values]
        exact .refl hc
      · exact .refl hc
  | some n =>
      rw [hat] at hrun hsome
      rw [eq_comm, Option.isSome_some, decide_eq_true_iff] at hsome
      rw [Option.map_some, Option.isSome_some, if_pos rfl] at hrun
      obtain ⟨_, t, hremove, hfree⟩ := exists_of_run_bind hrun
      obtain ⟨⟨_, links'⟩, _, heq⟩ := Option.map_eq_some_iff.mp hremove
      cases heq
      rw [Reference.listCommand, if_pos hsome.1]
      refine tallies_free hs hi hc hfree ?_
      rw [List.length_eraseIdx, if_pos (by omega)]
      omega

theorem tallies_insert (hs : Represents s r items) (hi : (r.lists i).isSome)
    (hfuel : (r.values i).length < fuel) (hc : s.Counts c) {idx value : Int}
    (hrun : (doListCommand fuel memory i (.insert idx value)).run s = some ((), s')) :
    Tallies s' c r (r.listCommand memory.isSome i (.insert idx value)) 0 := by
  simp only [doListCommand] at hrun
  rw [run_bind_of (run_posAt hs hi hfuel idx)] at hrun
  obtain ⟨item, t, hmake, hrest⟩ := exists_of_run_bind hrun
  obtain ⟨hitem, ht⟩ := triple_makeListItem memory value s item t hc hmake
  rw [Reference.listCommand]
  cases hok : memory.isSome with
  | false =>
      rw [hok] at hitem ht
      rw [hitem, Bool.false_and, if_neg Bool.false_ne_true] at hrest
      have hcount := triple_freeItem item t () s' ht hrest
      rw [hitem, if_neg Bool.false_ne_true, if_neg Bool.false_ne_true] at hcount
      exact ⟨c, hcount, (Nat.add_zero _).symm⟩
  | true =>
      rw [hok, if_pos rfl] at ht
      rw [hok] at hitem
      by_cases hrange : 0 ≤ idx ∧ idx ≤ (r.values i).length
      · obtain ⟨pos, hpos⟩ := first_some (((items i).drop idx.toNat).map Addr.item) (Addr.tail i)
        rw [if_pos hrange, hpos, hitem, Option.isSome_some, Bool.and_true, if_pos rfl] at hrest
        refine ⟨c + 1, counts_onLinks _ t () s' ht hrest, ?_⟩
        have hset := Reference.size_set_eq hi
          ((r.values i).take idx.toNat ++ value :: (r.values i).drop idx.toNat)
        rw [List.length_append, List.length_cons, List.length_take, List.length_drop] at hset
        rw [if_pos ⟨rfl, hrange⟩]
        omega
      · rw [if_neg hrange, Option.isSome_none, Bool.and_false, if_neg Bool.false_ne_true] at hrest
        have hcount := triple_freeItem item t () s' ht hrest
        rw [hitem, if_pos rfl] at hcount
        rw [if_neg fun h => hrange h.2]
        exact ⟨c, hcount, (Nat.add_zero _).symm⟩

/-! ### Every command on a list -/

theorem Reference.size_print (r : Reference) (text : String) : (r.print text).size = r.size := rfl

theorem Reference.size_printValue (r : Reference) (v : Option Int) :
    (r.printValue v).size = r.size := by
  cases v <;> rfl

/-- A sequence of the same length. -/
theorem Reference.size_set_of_length (hi : (r.lists i).isSome) {xs : List Int}
    (hxs : xs.length = (r.values i).length) : (r.set i xs).size = r.size := by
  have hset := Reference.size_set_eq hi xs
  omega

theorem Reference.size_unique (hname : r.find name = some i) {duplicates : Option String}
    (hother : ∀ other ∈ duplicates, r.find other ≠ some i) (ok : Bool) :
    (r.listCommand ok i (.unique duplicates)).size + r.dropped i (.unique duplicates) = r.size := by
  have hi := isSome_of_find hname
  have hlength := length_dedup (r.values i)
  have hkept := size_set_eq hi (dedup (r.values i)).1
  simp only [listCommand, dropped]
  cases hdups : duplicates.bind r.find with
  | none =>
      rw [if_pos rfl]
      simp only
      omega
  | some dups =>
      obtain ⟨other, rfl, hfind⟩ := Option.bind_eq_some_iff.mp hdups
      have hne : dups ≠ i := fun heq => hother other rfl (heq ▸ hfind)
      have happend := size_set_eq (r := r.set i (dedup (r.values i)).1) (i := dups)
        (by simpa using isSome_of_find hfind) (r.values dups ++ (dedup (r.values i)).2)
      rw [values_set_of_ne hne, List.length_append] at happend
      rw [if_neg (Option.some_ne_none dups)]
      simp only
      omega

theorem tallies_listCommand (hs : Represents s r items)
    (hname : r.find name = some i) (hfuel : ∀ k, (r.values k).length + 1 < fuel)
    {cmd : ListCommand} (hlegal : r.Legal (.list name cmd)) (hc : s.Counts c)
    (hrun : (doListCommand fuel memory i cmd).run s = some ((), s')) :
    Tallies s' c r (r.listCommand memory.isSome i cmd) (r.dropped i cmd) := by
  have hi := Reference.isSome_of_find hname
  have hlen : (r.values i).length < fuel := Nat.lt_of_succ_lt (hfuel i)
  cases cmd with
  | pushFront value | pushBack value =>
      exact tallies_add (fun _ _ => counts_onLinks _) hi hc hrun (by simp)
  | popFront => exact tallies_popFront hs hi hc hrun
  | popBack => exact tallies_popBack hs hi hc hrun
  | front | back =>
      refine .of_size ((counts_onLinks _).bind fun _ => .ite ?_ (.skip _)) hc hrun
        (r.size_printValue _)
      exact (counts_onLinks _).bind fun _ => counts_printValue _
  | empty | size =>
      exact .of_size ((counts_onLinks _).bind fun _ => counts_printf _) hc hrun (r.size_print _)
  | insert idx value => exact tallies_insert hs hi hlen hc hrun
  | insertOrdered value =>
      refine tallies_add (fun _ _ => counts_withLess _) hi hc hrun ?_
      have hsplit := congrArg List.length (List.takeWhile_append_dropWhile
        (p := fun x => decide (x ≤ value)) (l := r.values i))
      rw [List.length_append] at hsplit
      rw [List.length_append, List.length_cons]
      omega
  | remove idx => exact tallies_remove hs hi hlen hc hrun
  | reverse =>
      exact .of_size (counts_onLinks _) hc hrun
        (Reference.size_set_of_length hi List.length_reverse)
  | sort =>
      exact .of_size (counts_withLess fun less => listSort less fuel (listAt i)) hc hrun
        (Reference.size_set_of_length hi (List.length_insertionSort _ _))
  | splice before source first last =>
      refine .of_size ?_ hc hrun ?_
      · refine .get fun s => ?_
        split
        · exact .skip _
        · refine (counts_onLinks _).bind fun _ => (counts_onLinks _).bind fun _ => ?_
          exact (counts_onLinks _).bind fun _ => .ite (counts_onLinks _) (.skip _)
      -- what the target gets the source loses
      · have hle : first ≤ last := hlegal.1
        rw [Reference.listCommand]
        split
        · rfl
        · rename_i hsource
          split
          · exact Reference.size_splice hi (Reference.isSome_of_find hsource) _ (by omega)
          · rfl
  | unique duplicates =>
      refine .of_preserves (.get fun s => counts_withLess _) hc hrun ?_
      refine Reference.size_unique hname (fun other hother => ?_) _
      cases hother
      exact hlegal i hname
  | max | min =>
      refine .of_size ((counts_onLinks _).bind fun _ => .ite ?_ (.skip _)) hc hrun
        (r.size_printValue _)
      exact (counts_withLess _).bind fun _ => counts_printValue _
  | swap a b =>
      refine .of_size ((counts_onLinks _).bind fun _ => (counts_onLinks _).bind fun _ =>
        .ite (counts_onLinks _) (.skip _)) hc hrun ?_
      rw [Reference.listCommand]
      split
      · exact Reference.size_set_of_length hi (by simp)
      · rfl

/-! ### Whole lists -/

theorem Tallies.trans {t : Interp} {r₁ r₂ : Reference} {d d' : Nat} (h : Tallies t c r r₁ d)
    (hrest : ∀ c, t.Counts c → Tallies s' c r₁ r₂ d') : Tallies s' c r r₂ (d + d') := by
  obtain ⟨c₁, ht, h₁⟩ := h
  obtain ⟨c₂, hs', h₂⟩ := hrest c₁ ht
  exact ⟨c₂, hs', by omega⟩

theorem tallies_destroyListLoop (hs : Represents s r items) (hi : (r.lists i).isSome)
    (hc : s.Counts c) (hrun : (destroyListLoop i fuel).run s = some ((), s')) :
    Tallies s' c r (r.set i []) 0 := by
  induction fuel generalizing s r items c with
  | zero => cases hrun
  | succ fuel ih =>
      have hl := hs.lists i hi
      rw [destroyListLoop, run_bind_of (run_onLinks (run_listEmpty hl))] at hrun
      cases hns : items i with
      | nil =>
          rw [hns] at hrun
          cases hrun
          rw [set_of_empty hs hns]
          exact .refl hc
      | cons n ns =>
          rw [hns] at hl hrun
          obtain ⟨h', hpop, hlist, hsame, _⟩ := run_listPopFront hl
          simp only [List.map_cons, List.isEmpty_cons, Bool.not_false, if_true] at hrun
          rw [run_bind_of (run_onLinks hpop)] at hrun
          obtain ⟨_, t, hfree, hrest⟩ := exists_of_run_bind hrun
          obtain ⟨items', ht⟩ := (does_takeOut hs hi hlist
            (hsame.mono fun x hx => mem_rowOf_of_row (by simp +contextual [hns]) hx)
            (show (items i).Perm (n :: ns) by rw [hns])).represents hfree
          have hlength : (ns.map s.val).length + 1 = (r.values i).length := by
            rw [length_values hs, hns, List.length_map, List.length_cons]
          have htally := tallies_free hs hi hc hfree hlength
          have hloop := htally.trans fun c' hc' => ih ht (by simpa using hi) hc' hrest
          rwa [Reference.set_set] at hloop

/-- A slot that had no elements, or has none left. -/
theorem Reference.size_congr (hvalues : ∀ k, r.values k = r'.values k) : r.size = r'.size := by
  simp only [size, hvalues]

theorem tallies_destroyList (hs : Represents s r items) (hi : (r.lists i).isSome)
    (hc : s.Counts c) (hrun : (destroyList fuel i).run s = some ((), s')) :
    Tallies s' c r { r with lists := Function.update r.lists i none } 0 := by
  obtain ⟨_, t, hloop, hunused⟩ := exists_of_run_bind hrun
  cases hunused
  obtain ⟨c', ht, heq⟩ := tallies_destroyListLoop hs hi hc hloop
  have hsize : (r.set i []).size =
      Reference.size { r with lists := Function.update r.lists i none } := by
    refine Reference.size_congr fun k => ?_
    rcases eq_or_ne k i with rfl | hki
    · rw [Reference.values_set_self hi]
      simp [Reference.values]
    · rw [Reference.values_set_of_ne hki]
      simp [Reference.values, hki]
  exact ⟨c', ⟨ht.card, ht.fresh⟩, by rw [heq, hsize]⟩

theorem counts_dumpListLoop (fuel : Nat) (e : Ptr Addr) (first : Bool) :
    Preserves (Interp.Counts · c) (dumpListLoop i fuel e first) := by
  induction fuel generalizing e first with
  | zero => exact .failure
  | succ fuel ih =>
      rw [dumpListLoop]
      refine .ite (.skip _) (.ite ((counts_printf _).bind fun _ => ?_) ?_)
      all_goals
        exact (counts_getValue _).bind fun _ => (counts_printf _).bind fun _ =>
          (counts_onLinks _).bind fun _ => ih _ _

theorem tallies_dumpList (hc : s.Counts c) (hrun : (dumpList fuel i).run s = some ((), s'))
    (text : String) : Tallies s' c r (r.print text) 0 := by
  refine .of_size ((counts_onLinks _).bind fun _ => ?_) hc hrun (r.size_print text)
  exact (counts_dumpListLoop _ _ _).bind fun _ => counts_printf _

theorem tallies_createListObject (hc : s.Counts c) (ok : Bool)
    (hrun : (createListObject name).run s = some ((), s')) :
    Tallies s' c r (r.command ok (.create name)) 0 := by
  refine .of_size (.get fun s => ?_) hc hrun ?_
  · split
    · exact .skip _
    · exact Triple.bind (.modify fun _ hc => ⟨hc.card, hc.fresh⟩) fun _ => counts_onLinks _
  · rw [Reference.command]
    split
    · rfl
    · rename_i slot hslot
      have hnone : r.lists slot = none := by simpa using List.find?_some hslot
      refine Reference.size_congr fun k => ?_
      rcases eq_or_ne k slot with rfl | hk
      · simp [Reference.values, hnone]
      · simp [Reference.values, hk]

/-- Whether an item is lost, after a command that did not find one lost. -/
theorem Tallies.held_iff {items' : Fin MAX_DS → List Nat} {d : Nat} (h : Tallies s' c r r' d)
    (hs : Represents s r items) (hs' : Represents s' r' items') (hc : s.Counts c)
    (hheld : s.Held) : s'.Held ↔ d = 0 := by
  obtain ⟨c', hc', heq⟩ := h
  rw [hs'.held_iff hc']
  have hall := (hs.held_iff hc).mp hheld
  omega

end SystemProgramming.Testlib
