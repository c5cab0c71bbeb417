import SystemProgramming.Testlib.ListRefinement

/-!
Every list command, run on memory that represents some sequences, ends in
memory that represents the sequences after the command.
-/

namespace SystemProgramming.Testlib

open SystemProgramming.Library

/-- The command ends, in memory that represents `r'`. -/
def Does (cmd : Cmd Unit) (s : Interp) (r' : Reference) : Prop :=
  ∃ s' items', cmd.run s = some ((), s') ∧ Represents s' r' items'

variable {β : Type} {s : Interp} {r : Reference} {items : Fin MAX_DS → List Nat}
  {i j : Fin MAX_DS} {fuel : Nat} {memory : Malloc}

theorem run_onLinks {prog : Prog Addr β} {b : β} {links' : Heap Addr}
    (hrun : prog.run s.links = some (b, links')) :
    (onLinks prog).run s = some (b, { s with links := links' }) := by
  change Option.map _ (prog.run s.links) = _
  rw [hrun]
  rfl

theorem Does.bind {γ : Type} {m : Cmd γ} {f : γ → Cmd Unit} {b : γ} {t : Interp} {r' : Reference}
    (hm : m.run s = some (b, t)) (hf : Does (f b) t r') : Does (m >>= f) s r' := by
  obtain ⟨s'', items', hrun, hs'⟩ := hf
  exact ⟨s'', items', (run_bind_of hm).trans hrun, hs'⟩

theorem Represents.does_pure (hs : Represents s r items) : Does (pure ()) s r :=
  ⟨s, items, rfl, hs⟩

theorem Represents.does_printf (hs : Represents s r items) (text : String) :
    Does (printf text) s (r.print text) :=
  ⟨_, items, hs.print text⟩

/-! ### Memory -/

theorem values_fresh (hs : Represents s r items) (n : Nat) : s.values (s.fresh n) = none := by
  rw [Interp.fresh]
  split
  case isTrue hfree => exact Option.isNone_iff_eq_none.mp hfree
  case isFalse => exact hs.fresh _ (Nat.le_refl _)

/-- A new item is in no list. -/
theorem Represents.makeListItem (hs : Represents s r items) (asked : Nat) (garbage : Link Addr)
    (value : Int) :
    ∃ n s', (makeListItem (some (asked, garbage)) value).run s = some (some (.item n), s') ∧
      Represents s' r items ∧ (∀ k, n ∉ items k) ∧ s'.values n = some value ∧
      (s'.links (.item n)).isSome = true := by
  have hnot (k : Fin MAX_DS) : s.fresh asked ∉ items k := fun hmem => by
    have hsome := hs.isSome_values hmem
    simp [values_fresh hs] at hsome
  have hvalues (k : Fin MAX_DS) (m : Nat) (hm : m ∈ items k) :
      Function.update s.values (s.fresh asked) (some value) m = s.values m :=
    Function.update_of_ne (fun heq : m = s.fresh asked => hnot k (heq ▸ hm)) ..
  refine ⟨s.fresh asked, _, rfl, ?_, hnot, Function.update_self .., by simp⟩
  refine ⟨hs.out, hs.names, fun k => ?_, fun k hk => ?_, fun k => ?_, hs.owner, fun m hm => ?_⟩
  · simpa using hs.sentinels k
  · refine (hs.lists k hk).sameOff (S := [.item (s.fresh asked)]) (fun x hx =>
      Function.update_of_ne (by simpa using hx) ..) fun x hx hmem => hnot k ?_
    obtain rfl := List.mem_singleton.mp hmem
    simpa [CList.mem_row, listAt] using hx
  · rw [← hs.values k]
    exact List.map_congr_left (hvalues k)
  · have hbrk : max s.brk (s.fresh asked + 1) ≤ m := hm
    have hne : m ≠ s.fresh asked := by omega
    exact (Function.update_of_ne hne ..).trans (hs.fresh m (by omega))

/-- An item that is in no list can be freed. -/
theorem Represents.freeItem (hs : Represents s r items) {n : Nat} (hn : ∀ k, n ∉ items k)
    (hvalue : (s.values n).isSome = true) : Does (freeItem (some (.item n))) s r := by
  refine ⟨_, items, if_pos hvalue, hs.out, hs.names, fun k => ?_, fun k hk => ?_, fun k => ?_,
    hs.owner, fun m hm => ?_⟩
  · simpa using hs.sentinels k
  · refine (hs.lists k hk).sameOff (S := [.item n]) (fun x hx =>
      Function.update_of_ne (by simpa using hx) ..) fun x hx hmem => hn k ?_
    obtain rfl := List.mem_singleton.mp hmem
    simpa [CList.mem_row, listAt] using hx
  · rw [← hs.values k]
    exact List.map_congr_left fun m hm =>
      Function.update_of_ne (fun heq : m = n => hn k (heq ▸ hm)) ..
  · by_cases hmn : m = n
    · subst hmn
      exact Function.update_self ..
    · exact (Function.update_of_ne hmn ..).trans (hs.fresh m hm)

/-! ### Commands on one list -/

section OneList

variable (hs : Represents s r items) (hi : (r.lists i).isSome)

include hs in
theorem length_values (i : Fin MAX_DS) : (r.values i).length = (items i).length := by
  rw [hs.values_eq, List.length_map]

include hs in
theorem set_of_empty (hns : items i = []) : r.set i [] = r := by
  have hset := r.set_values i
  rwa [hs.values_eq, hns] at hset

omit hs hi in
theorem mem_rowOf_of_row {ns : List Nat} (hns : ∀ n ∈ ns, n ∈ items i) {x : Addr}
    (hx : x ∈ (listAt i).row (ns.map .item)) : x ∈ rowOf items i := by
  rw [mem_rowOf]
  rw [CList.mem_row, List.mem_map] at hx
  exact hx.imp_right fun h => h.imp_left fun ⟨n, hn, hx⟩ => ⟨n, hns n hn, hx⟩

include hs hi

theorem does_setList {prog : Prog Addr Unit} {links' : Heap Addr} {ns E : List Nat}
    (hrun : prog.run s.links = some ((), links'))
    (hlist : IsList links' (listAt i) (ns.map .item))
    (hsame : s.links.SameOff (E.map .item ++ rowOf items i) links')
    (hE : ∀ n ∈ E, (s.values n).isSome ∧ ∀ k, n ∉ items k)
    (hns : ∀ n ∈ ns, n ∈ items i ∨ n ∈ E) :
    Does (onLinks prog) s (r.set i (ns.map s.val)) :=
  ⟨_, _, run_onLinks hrun, hs.setList hi hlist hsame hE hns⟩

/-- A list gives its items another order. -/
theorem does_reorder {prog : Prog Addr Unit} {links' : Heap Addr} {ns : List Nat}
    (hrun : prog.run s.links = some ((), links'))
    (hlist : IsList links' (listAt i) (ns.map .item))
    (hsame : s.links.SameOff (rowOf items i) links') (hns : ∀ n ∈ ns, n ∈ items i) :
    Does (onLinks prog) s (r.set i (ns.map s.val)) :=
  does_setList hs hi (E := []) hrun hlist hsame (by simp) fun n hn => .inl (hns n hn)

/-- An item taken out of its list is freed. -/
theorem does_takeOut {links' : Heap Addr} {n : Nat} {ns : List Nat}
    (hlist : IsList links' (listAt i) (ns.map .item))
    (hsame : s.links.SameOff (rowOf items i) links') (hperm : (items i).Perm (n :: ns)) :
    Does (freeItem (some (.item n))) { s with links := links' } (r.set i (ns.map s.val)) := by
  have hnodup : (n :: ns).Nodup := hperm.nodup_iff.mp ((hs.lists i hi).nodup_elems.of_map _)
  have hmem (m : Nat) (hm : m ∈ n :: ns) : m ∈ items i := hperm.mem_iff.mpr hm
  have hset := hs.setList hi (E := []) hlist hsame (by simp)
    fun m hm => .inl (hmem m (List.mem_cons_of_mem _ hm))
  refine hset.freeItem (fun k hk => ?_) (hs.isSome_values (hmem n List.mem_cons_self))
  by_cases hki : k = i
  · subst hki
    rw [Function.update_self] at hk
    exact (List.nodup_cons.mp hnodup).1 hk
  · rw [Function.update_of_ne hki] at hk
    exact hki (hs.owner k i n hk (hmem n List.mem_cons_self))

omit hi in
theorem does_printValue {n : Nat} (hn : n ∈ items i) :
    Does (printValue (some (.item n))) s (r.printValue (some (s.val n))) := by
  obtain ⟨v, hv⟩ := Option.isSome_iff_exists.mp (hs.isSome_values hn)
  have hget : (getValue (some (.item n))).run s = some (v, s) := by
    change Option.map _ (s.values n) = _
    rw [hv]
    rfl
  have hval : s.val n = v := by simp [Interp.val, hv]
  rw [hval]
  exact Does.bind hget (hs.does_printf _)

theorem does_popFront :
    Does (doListCommand fuel memory i .popFront) s (r.listCommand memory.isSome i .popFront) := by
  have hl := hs.lists i hi
  refine Does.bind (run_onLinks (run_listEmpty hl)) ?_
  rw [Reference.listCommand, hs.values_eq]
  cases hns : items i with
  | nil => exact (set_of_empty hs hns).symm ▸ hs.does_pure
  | cons n ns =>
      rw [hns] at hl
      obtain ⟨h', hrun, hlist, hsame, _⟩ := run_listPopFront hl
      refine Does.bind (run_onLinks hrun) ?_
      exact does_takeOut hs hi hlist
        (hsame.mono fun x hx => mem_rowOf_of_row (by simp +contextual [hns]) hx)
        (hns ▸ List.Perm.refl _)

theorem does_popBack :
    Does (doListCommand fuel memory i .popBack) s (r.listCommand memory.isSome i .popBack) := by
  have hl := hs.lists i hi
  refine Does.bind (run_onLinks (run_listEmpty hl)) ?_
  rw [Reference.listCommand, hs.values_eq]
  rcases List.eq_nil_or_concat (items i) with hns | ⟨ns, n, hns⟩
  · rw [hns]
    exact (set_of_empty hs hns).symm ▸ hs.does_pure
  · rw [List.concat_eq_append] at hns
    rw [hns, List.map_append, List.map_singleton] at hl
    obtain ⟨h', hrun, hlist, hsame, _⟩ := run_listPopBack hl
    have hne : ((items i).map Addr.item).isEmpty = false := by simp [hns]
    have hlast : ((items i).map s.val).dropLast = ns.map s.val := by simp [hns]
    rw [hne, hlast]
    refine Does.bind (run_onLinks hrun) ?_
    exact does_takeOut hs hi hlist
      (hsame.mono fun x hx => mem_rowOf_of_row (by simp +contextual [hns]) hx)
      (hns ▸ List.perm_append_singleton n ns)

/-- A list that is not empty has an item with the value that is printed. -/
theorem does_printFound {search : Cmd (Ptr Addr)} {f : List Int → Option Int}
    (hnil : f [] = none)
    (hfound : items i ≠ [] → ∃ n ∈ items i, search.run s = some (some (.item n), s) ∧
      f ((items i).map s.val) = some (s.val n)) :
    Does (do if !(← onLinks (listEmpty (listAt i))) then printValue (← search)) s
      (r.printValue (f (r.values i))) := by
  refine Does.bind (run_onLinks (run_listEmpty (hs.lists i hi))) ?_
  rw [hs.values_eq]
  by_cases hne : items i = []
  · rw [hne, List.map_nil, List.map_nil, hnil]
    exact hs.does_pure
  · obtain ⟨n, hn, hrun, hvalue⟩ := hfound hne
    have hempty : ((items i).map Addr.item).isEmpty = false := by simp [hne]
    rw [hempty, hvalue]
    exact Does.bind hrun (does_printValue hs hn)

theorem does_front :
    Does (doListCommand fuel memory i .front) s (r.listCommand memory.isSome i .front) := by
  refine does_printFound hs hi (f := List.head?) rfl fun hne => ?_
  have hl := hs.lists i hi
  obtain ⟨n, ns, hns⟩ := List.exists_cons_of_ne_nil hne
  rw [hns] at hl ⊢
  exact ⟨n, List.mem_cons_self, run_onLinks (run_listFront hl), rfl⟩

theorem does_back :
    Does (doListCommand fuel memory i .back) s (r.listCommand memory.isSome i .back) := by
  refine does_printFound hs hi (f := List.getLast?) rfl fun hne => ?_
  have hl := hs.lists i hi
  obtain ⟨ns, n, hns⟩ := List.eq_nil_or_concat (items i) |>.resolve_left hne
  rw [List.concat_eq_append] at hns
  rw [hns] at hl ⊢
  rw [List.map_append, List.map_singleton] at hl ⊢
  exact ⟨n, by simp, run_onLinks (run_listBack hl), List.getLast?_concat⟩

theorem does_empty :
    Does (doListCommand fuel memory i .empty) s (r.listCommand memory.isSome i .empty) := by
  have hempty : (r.values i).isEmpty = ((items i).map Addr.item).isEmpty := by
    rw [hs.values_eq, List.isEmpty_map, List.isEmpty_map]
  refine Does.bind (run_onLinks (run_listEmpty (hs.lists i hi))) ?_
  rw [Reference.listCommand, hempty]
  exact hs.does_printf _

theorem does_size (hfuel : (r.values i).length < fuel) :
    Does (doListCommand fuel memory i .size) s (r.listCommand memory.isSome i .size) := by
  have hlength : (r.values i).length = ((items i).map Addr.item).length := by
    rw [hs.values_eq, List.length_map, List.length_map]
  refine Does.bind (run_onLinks (run_listSize (hs.lists i hi) (hlength ▸ hfuel))) ?_
  rw [Reference.listCommand, hlength]
  exact hs.does_printf _

theorem does_reverse (hfuel : (r.values i).length < fuel) :
    Does (doListCommand fuel memory i .reverse) s (r.listCommand memory.isSome i .reverse) := by
  obtain ⟨h', hrun, hlist, hsame⟩ := run_listReverse (hs.lists i hi) (show _ < fuel by
    rwa [List.length_map, ← length_values hs])
  rw [← List.map_reverse] at hlist
  rw [Reference.listCommand, hs.values_eq, ← List.map_reverse]
  exact does_reorder hs hi hrun hlist hsame fun n hn => List.mem_reverse.mp hn

/-! ### Commands that make an item -/

/-- A new item goes between the items `A` and `B` of a list. -/
theorem does_insertItem {prog : Prog Addr Unit} {links' : Heap Addr} {n : Nat} {value : Int}
    {A B : List Nat} (hAB : items i = A ++ B) (hnot : ∀ k, n ∉ items k)
    (hvalue : s.values n = some value) (hrun : prog.run s.links = some ((), links'))
    (hlist : IsList links' (listAt i) (A.map .item ++ .item n :: B.map .item))
    (hsame : s.links.SameOff (.item n :: rowOf items i) links') :
    Does (onLinks prog) s (r.set i (A.map s.val ++ value :: B.map s.val)) := by
  have hval : s.val n = value := by simp [Interp.val, hvalue]
  have hmap : A.map s.val ++ value :: B.map s.val = (A ++ n :: B).map s.val := by
    simp [hval]
  rw [hmap]
  refine does_setList hs hi (E := [n]) hrun (by simpa using hlist) hsame ?_ fun m hm => ?_
  · rintro m hm
    obtain rfl := List.mem_singleton.mp hm
    exact ⟨by rw [hvalue]; rfl, hnot⟩
  · rw [hAB]
    simp only [List.mem_append, List.mem_cons, List.not_mem_nil, or_false] at hm ⊢
    tauto

omit hs hi in
theorem item_notMem_rowOf {n : Nat} (hnot : ∀ k, n ∉ items k) :
    .item n ∉ (listAt i).row ((items i).map .item) := fun hmem => by
  refine hnot i ?_
  simpa [CList.mem_row, listAt] using hmem

theorem does_pushFront (value : Int) :
    Does (doListCommand fuel memory i (.pushFront value)) s
      (r.listCommand memory.isSome i (.pushFront value)) := by
  rcases memory with _ | ⟨asked, garbage⟩
  · exact hs.does_pure
  · obtain ⟨n, s', hmake, hs', hnot, hvalue, hlink⟩ := hs.makeListItem asked garbage value
    obtain ⟨h', hrun, hlist, hsame⟩ :=
      run_listPushFront (hs'.lists i hi) hlink (item_notMem_rowOf hnot)
    refine Does.bind hmake ?_
    rw [Reference.listCommand, hs'.values_eq]
    exact does_insertItem hs' hi (A := []) rfl hnot hvalue hrun hlist hsame

theorem does_pushBack (value : Int) :
    Does (doListCommand fuel memory i (.pushBack value)) s
      (r.listCommand memory.isSome i (.pushBack value)) := by
  rcases memory with _ | ⟨asked, garbage⟩
  · exact hs.does_pure
  · obtain ⟨n, s', hmake, hs', hnot, hvalue, hlink⟩ := hs.makeListItem asked garbage value
    obtain ⟨h', hrun, hlist, hsame⟩ :=
      run_listPushBack (hs'.lists i hi) hlink (item_notMem_rowOf hnot)
    refine Does.bind hmake ?_
    rw [Reference.listCommand, hs'.values_eq]
    exact does_insertItem hs' hi (B := []) (List.append_nil _).symm hnot hvalue hrun hlist hsame

theorem does_insert (hfuel : (r.values i).length < fuel) (idx value : Int) :
    Does (doListCommand fuel memory i (.insert idx value)) s
      (r.listCommand memory.isSome i (.insert idx value)) := by
  have hlength := length_values hs i
  have hpos := run_listPosAt (hs.lists i hi)
    (show _ < fuel by rwa [List.length_map, ← hlength]) idx
  rw [List.length_map, ← hlength] at hpos
  refine Does.bind (run_onLinks hpos) ?_
  rcases memory with _ | ⟨asked, garbage⟩
  · have hskip : r.listCommand false i (.insert idx value) = r := by simp [Reference.listCommand]
    simp only [Option.isSome_none, hskip]
    exact Does.bind rfl hs.does_pure
  · obtain ⟨n, s', hmake, hs', hnot, hvalue, hlink⟩ := hs.makeListItem asked garbage value
    refine Does.bind hmake ?_
    by_cases hrange : 0 ≤ idx ∧ idx ≤ (r.values i).length
    · have hsplit := List.take_append_drop idx.toNat (items i)
      have hl : IsList s'.links (listAt i) (((items i).take idx.toNat).map .item ++
          ((items i).drop idx.toNat).map .item) := by
        rw [← List.map_append, hsplit]
        exact hs'.lists i hi
      have hnotrow := item_notMem_rowOf (i := i) hnot
      rw [← hsplit, List.map_append] at hnotrow
      obtain ⟨h', hrun, hlist, hsame⟩ := run_listInsert_at hl hlink hnotrow
      rw [← List.map_append, hsplit] at hsame
      have hdone : r.listCommand true i (.insert idx value) = r.set i
          (((items i).take idx.toNat).map s'.val ++
            value :: ((items i).drop idx.toNat).map s'.val) := by
        rw [Reference.listCommand, if_pos ⟨rfl, hrange⟩, hs'.values_eq, List.map_take,
          List.map_drop]
      obtain ⟨pos, hfirst⟩ := first_some (((items i).drop idx.toNat).map .item) (listAt i).tail
      rw [hfirst] at hrun
      simp only [if_pos hrange, ← List.map_drop, hfirst, Option.isSome_some, hdone]
      exact does_insertItem hs' hi hsplit.symm hnot hvalue hrun hlist hsame
    · have hskip : r.listCommand true i (.insert idx value) = r := if_neg fun h => hrange h.2
      simp only [if_neg hrange, Option.isSome_some, hskip]
      exact hs'.freeItem hnot (by rw [hvalue]; rfl)

/-! ### Commands with an index -/

theorem run_elemAt (hfuel : (r.values i).length < fuel) (idx : Int) :
    (onLinks (listElemAt fuel (listAt i) idx)).run s =
      some ((elemAt (items i) idx).map .item, s) := by
  rw [length_values hs] at hfuel
  have hrun := run_listElemAt (hs.lists i hi) (show _ < fuel by rwa [List.length_map]) idx
  rw [elemAt_map] at hrun
  exact run_onLinks hrun

theorem run_posAt (hfuel : (r.values i).length < fuel) (idx : Int) :
    (onLinks (listPosAt fuel (listAt i) idx)).run s =
      some (if 0 ≤ idx ∧ idx ≤ (r.values i).length then
        first (((items i).drop idx.toNat).map .item) (some (.tail i)) else none, s) := by
  rw [length_values hs] at hfuel ⊢
  have hrun := run_listPosAt (hs.lists i hi) (show _ < fuel by rwa [List.length_map]) idx
  rw [List.length_map, ← List.map_drop] at hrun
  exact run_onLinks hrun

theorem does_remove (hfuel : (r.values i).length < fuel) (idx : Int) :
    Does (doListCommand fuel memory i (.remove idx)) s
      (r.listCommand memory.isSome i (.remove idx)) := by
  refine Does.bind (run_elemAt hs hi hfuel idx) ?_
  cases hat : elemAt (items i) idx with
  | none =>
      have hskip : r.listCommand memory.isSome i (.remove idx) = r := by
        rw [Reference.listCommand]
        rcases elemAt_eq_none hat with hneg | hlen
        · exact if_neg (by omega)
        · rw [← length_values hs] at hlen
          split
          · rw [List.eraseIdx_of_length_le hlen, Reference.set_values]
          · rfl
      exact hskip.symm ▸ hs.does_pure
  | some n =>
      obtain ⟨A, B, hAB, hidx⟩ := elemAt_eq_some hat
      have hl := hs.lists i hi
      rw [hAB, List.map_append, List.map_cons] at hl
      obtain ⟨h', hrun, hlist, hsame, _⟩ := run_listRemove_at hl
      have hdone : r.listCommand memory.isSome i (.remove idx) =
          r.set i ((A ++ B).map s.val) := by
        rw [Reference.listCommand, if_pos (by omega), hs.values_eq, hAB, hidx,
          Int.toNat_natCast, List.eraseIdx_map, List.eraseIdx_append_of_length_le (Nat.le_refl _),
          Nat.sub_self, List.eraseIdx_cons_zero]
      rw [hdone]
      rw [← List.map_append] at hlist hsame
      refine Does.bind (run_onLinks hrun) ?_
      refine does_takeOut hs hi hlist (hsame.mono fun x hx => mem_rowOf_of_row ?_ hx)
        (hAB ▸ List.perm_middle)
      intro m hm
      rw [hAB]
      simp only [List.mem_append, List.mem_cons] at hm ⊢
      tauto

/-- `list_swap` on the elements at two places, with the first one in front. -/
theorem does_swapAt {A M B : List Nat} {n m : Nat} (hAB : items i = A ++ n :: (M ++ m :: B))
    (hfuel : 2 ≤ fuel) :
    Does (onLinks (listSwap fuel (some (.item n)) (some (.item m)))) s
        (r.set i ((A ++ m :: (M ++ n :: B)).map s.val)) ∧
      Does (onLinks (listSwap fuel (some (.item m)) (some (.item n)))) s
        (r.set i ((A ++ m :: (M ++ n :: B)).map s.val)) := by
  have hl := hs.lists i hi
  simp only [hAB, List.map_append, List.map_cons] at hl
  obtain ⟨h', hrun, hrun', hlist, hsame⟩ := run_listSwap hl (fuel - 2)
  rw [Nat.sub_add_cancel hfuel] at hrun hrun'
  have hmem (k : Nat) (hk : k ∈ A ++ m :: (M ++ n :: B)) : k ∈ items i := by
    rw [hAB]
    simp only [List.mem_append, List.mem_cons] at hk ⊢
    tauto
  have hsame' : s.links.SameOff (rowOf items i) h' := by simpa [rowOf, hAB] using hsame
  exact ⟨does_reorder hs hi hrun (by simpa using hlist) hsame' hmem,
    does_reorder hs hi hrun' (by simpa using hlist) hsame' hmem⟩

theorem does_swap (hfuel : (r.values i).length + 1 < fuel) (a b : Int) :
    Does (doListCommand fuel memory i (.swap a b)) s
      (r.listCommand memory.isSome i (.swap a b)) := by
  refine Does.bind (run_elemAt hs hi (by omega) a) ?_
  refine Does.bind (run_elemAt hs hi (by omega) b) ?_
  rw [Reference.listCommand, hs.values_eq, elemAt_map, elemAt_map]
  cases ha : elemAt (items i) a with
  | none => exact hs.does_pure
  | some n =>
      cases hb : elemAt (items i) b with
      | none => exact hs.does_pure
      | some m =>
          obtain ⟨A, B, hAB, rfl⟩ := elemAt_eq_some ha
          have htwo : 2 ≤ fuel := by omega
          simp only [Option.map_some, Int.toNat_natCast]
          by_cases hab : (A.length : Int) = b
          · -- the same place
            subst hab
            obtain rfl : n = m := Option.some.inj (ha.symm.trans hb)
            have hl := hs.lists i hi
            rw [hAB, List.map_append, List.map_cons] at hl
            have hself := run_listSwap_self hl (fuel - 1)
            rw [Nat.sub_add_cancel (by omega)] at hself
            have hset : (((items i).map s.val).set A.length (s.val n)).set A.length (s.val n) =
                r.values i := by
              rw [hs.values_eq, hAB]
              simp
            rw [Int.toNat_natCast, hset, Reference.set_values]
            exact ⟨s, items, run_onLinks hself, hs⟩
          obtain ⟨C, D, hCD, rfl⟩ := elemAt_eq_some hb
          rw [Int.toNat_natCast]
          rcases List.append_eq_append_iff.mp (hAB ▸ hCD) with ⟨M, hC, hM⟩ | ⟨M, hA, hM⟩
          · cases M with
            | nil => exact absurd (by rw [hC, List.append_nil]) hab
            | cons n' M =>
                obtain ⟨rfl, rfl⟩ := List.cons.inj hM
                obtain rfl := hC
                simpa [hAB, List.set_append_right] using (does_swapAt hs hi hAB htwo).1
          · cases M with
            | nil => exact absurd (by rw [hA, List.append_nil]) hab
            | cons m' M =>
                obtain ⟨rfl, rfl⟩ := List.cons.inj hM
                obtain rfl := hA
                simpa [hCD, List.set_append_right] using (does_swapAt hs hi hCD htwo).2

end OneList

/-! ### Splicing -/

section Splice

variable (hs : Represents s r items) (hi : (r.lists i).isSome)

include hs hi

/-- A range of a list, given as `S` between `A` and `B`, goes between `C` and `D`. -/
theorem does_spliceSame {A S B C D : List Nat} {n : Nat} (hitems : items i = A ++ S ++ B)
    (hn : S.head? = some n) (hCD : A ++ B = C ++ D) :
    Does (onLinks (listSplice (first (D.map .item) (some (.tail i))) (some (.item n))
      (first (B.map .item) (some (.tail i))))) s (r.set i ((C ++ S ++ D).map s.val)) := by
  have hl := hs.lists i hi
  simp only [hitems, List.map_append] at hl
  have hhead : (S.map Addr.item).head? = some (.item n) := by simp [hn]
  have hCD' : A.map Addr.item ++ B.map .item = C.map .item ++ D.map .item := by
    rw [← List.map_append, hCD, List.map_append]
  obtain ⟨h', hrun, hlist, hsame⟩ := run_listSplice_same hl hhead hCD'
  refine does_reorder hs hi hrun (by simpa using hlist) (by simpa [rowOf, hitems] using hsame)
    fun m hm => ?_
  have hm' : m ∈ A ++ B ↔ m ∈ C ++ D := by rw [hCD]
  rw [hitems]
  simp only [List.mem_append] at hm hm' ⊢
  tauto

theorem does_spliceOther (hj : (r.lists j).isSome) (hij : i ≠ j) {A S B C D : List Nat} {n : Nat}
    (hsource : items j = A ++ S ++ B) (hn : S.head? = some n) (htarget : items i = C ++ D) :
    Does (onLinks (listSplice (first (D.map .item) (some (.tail i))) (some (.item n))
      (first (B.map .item) (some (.tail j))))) s
      ((r.set j ((A ++ B).map s.val)).set i ((C ++ S ++ D).map s.val)) := by
  have hl := hs.lists i hi
  have hsrc := hs.lists j hj
  have hdisj := fun x => hs.disjoint (Ne.symm hij) (x := x)
  simp only [rowOf, htarget, hsource, List.map_append] at hl hsrc hdisj
  have hhead : (S.map Addr.item).head? = some (.item n) := by simp [hn]
  obtain ⟨h', hrun, hlistj, hlisti, hsame⟩ := run_listSplice_other hsrc hl hdisj hhead
  rw [← List.map_append] at hlistj
  refine ⟨_, _, run_onLinks hrun, hs.setLists hj hi (Ne.symm hij) hlistj
    (by simpa using hlisti) (by simpa [rowOf, htarget, hsource] using hsame) ?_⟩
  rw [hsource, htarget]
  refine List.perm_iff_count.mpr fun m => ?_
  simp only [List.count_append]
  omega

omit hs hi in
theorem split_range {α : Type} (xs : List α) {f l : Nat} (hfl : f ≤ l) :
    xs = xs.take f ++ (xs.take l).drop f ++ xs.drop l := by
  have htake : xs.take f = (xs.take l).take f := by rw [List.take_take, Nat.min_eq_left hfl]
  rw [htake, List.take_append_drop, List.take_append_drop]

omit hs hi in
/-- The cursor for a place outside of the range, once the range is gone. -/
theorem first_splice_target {α : Type} {xs : List α} {f l b : Nat} (hfl : f < l)
    (hl : l ≤ xs.length) (hb : b < f ∨ l ≤ b) (t : Option α) :
    first (xs.drop b) t =
      first ((xs.take f ++ xs.drop l).drop (if b ≤ f then b else b - (l - f))) t := by
  simp only [first, List.head?_drop]
  congr 1
  rcases hb with hb | hb
  · rw [if_pos (Nat.le_of_lt hb), List.getElem?_append_left (by rw [List.length_take]; omega),
      List.getElem?_take_of_lt hb]
  · rw [if_neg (by omega), List.getElem?_append_right (by rw [List.length_take]; omega),
      List.length_take, List.getElem?_drop]
    congr 1
    omega

theorem does_splice (hfuel : ∀ k, (r.values k).length + 1 < fuel) (before : Int) (source : String)
    (fst lst : Int) (hrange : fst ≤ lst)
    (hout : r.find source = some i → ¬ (fst ≤ before ∧ before < lst)) :
    Does (doListCommand fuel memory i (.splice before source fst lst)) s
      (r.listCommand memory.isSome i (.splice before source fst lst)) := by
  refine Does.bind (t := s) rfl ?_
  rw [findList_eq hs, Reference.listCommand]
  cases hfind : r.find source with
  | none => exact hs.does_pure
  | some j =>
      have hj := Reference.isSome_of_find hfind
      have hlen (k : Fin MAX_DS) : (r.values k).length < fuel := Nat.lt_of_succ_lt (hfuel k)
      refine Does.bind (run_posAt hs hi (hlen i) before) ?_
      refine Does.bind (run_elemAt hs hj (hlen j) fst) ?_
      refine Does.bind (run_posAt hs hj (hlen j) lst) ?_
      have hpos (P : Prop) [Decidable P] (xs : List Addr) (t : Addr) :
          (if P then first xs (some t) else none).isSome = decide P := by
        obtain ⟨b, hb⟩ := first_some xs t
        by_cases hP : P <;> simp [hP, hb]
      simp only [hpos, Option.isSome_map, isSome_elemAt, ← length_values hs, Bool.and_eq_true,
        decide_eq_true_iff, and_assoc]
      by_cases hall : 0 ≤ before ∧ before ≤ (r.values i).length ∧ 0 ≤ fst ∧
          fst < (r.values j).length ∧ 0 ≤ lst ∧ lst ≤ (r.values j).length
      case neg => rw [if_neg hall, if_neg hall]; exact hs.does_pure
      rw [if_pos hall, if_pos hall]
      obtain ⟨hb0, hb, hf0, hf, hl0, hl⟩ := hall
      rw [if_pos ⟨hb0, hb⟩, if_pos ⟨hl0, hl⟩]
      obtain ⟨n, hn⟩ : ∃ n, elemAt (items j) fst = some n := by
        rw [← Option.isSome_iff_exists, isSome_elemAt, ← length_values hs]
        simp [hf0, hf]
      rw [hn, Option.map_some]
      have hget : (items j)[fst.toNat]? = some n := by
        rwa [elemAt, if_neg (by omega)] at hn
      by_cases hsame : fst = lst
      · -- nothing to move
        subst hsame
        obtain ⟨hlt, hn'⟩ := List.getElem?_eq_some_iff.mp hget
        have hl' := hs.lists i hi
        rw [← List.take_append_drop before.toNat (items i), List.map_append] at hl'
        have hrun := run_listSplice_empty hl' (some (.item n))
        rw [List.drop_eq_getElem_cons hlt, hn', List.map_cons, first_cons,
          Reference.splice_empty]
        exact ⟨s, items, run_onLinks hrun, hs⟩
      have hfl : fst.toNat < lst.toNat := by omega
      have hsplit := split_range (items j) (Nat.le_of_lt hfl)
      have hhead : (((items j).take lst.toNat).drop fst.toNat).head? = some n := by
        rw [List.head?_drop, List.getElem?_take_of_lt hfl, hget]
      rw [Reference.splice]
      by_cases hij : i = j
      · subst hij
        have hout' := hout hfind
        have htarget := first_splice_target hfl (b := before.toNat)
          (show lst.toNat ≤ ((items i).map Addr.item).length by
            rw [List.length_map, ← length_values hs]
            omega) (by omega) (some (.tail i))
        have hspliced := does_spliceSame hs hi hsplit hhead (List.take_append_drop
          (if before.toNat ≤ fst.toNat then before.toNat
            else before.toNat - (lst.toNat - fst.toNat)) _).symm
        rw [List.map_drop, htarget]
        simpa [hs.values_eq] using hspliced
      · have hspliced := does_spliceOther hs hi hj hij hsplit hhead
          (List.take_append_drop before.toNat (items i)).symm
        rw [if_neg hij]
        simpa [hs.values_eq] using hspliced

end Splice

end SystemProgramming.Testlib
