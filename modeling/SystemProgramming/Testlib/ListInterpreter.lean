import SystemProgramming.Testlib.ListOrderSimulation

/-!
Whole runs of the list commands. **`interpret_refines`** is the result: the
interpreter never fails, and its memory represents the plain sequences after
every command.
-/

namespace SystemProgramming.Testlib

open SystemProgramming.Library

variable {s : Interp} {r : Reference} {items : Fin MAX_DS → List Nat} {i : Fin MAX_DS}
  {fuel : Nat} {memory : Malloc}

theorem Does.seq {cmd rest : Cmd Unit} {r' r'' : Reference} (hcmd : Does cmd s r')
    (hrest : ∀ s' items', Represents s' r' items' → Does rest s' r'') :
    Does (do cmd; rest) s r'' := by
  obtain ⟨s', items', hrun, hs'⟩ := hcmd
  exact Does.bind hrun (hrest s' items' hs')

/-! ### The table -/

theorem does_createListObject (hs : Represents s r items) (name : String) (ok : Bool) :
    Does (createListObject name) s (r.command ok (.create name)) := by
  refine Does.bind (t := s) rfl ?_
  rw [findEmptyListSlot_eq hs, Reference.command]
  cases hslot : (List.finRange MAX_DS).find? fun i => (r.lists i).isNone with
  | none => exact hs.does_pure
  | some slot =>
      have hnone : r.lists slot = none := by simpa using List.find?_some hslot
      have hitems : items slot = [] := by
        have hvalues := hs.values_eq slot
        rw [Reference.values, hnone] at hvalues
        simpa using hvalues.symm
      obtain ⟨hhead, htail⟩ := hs.sentinels slot
      obtain ⟨h', hrun, hlist, hsame⟩ := run_listInit
        (show (s.links (listAt slot).head).isSome = true from hhead) htail (by simp [listAt])
      have hoff (k : Fin MAX_DS) (hk : k ≠ slot) (x : Addr) (hx : x ∈ rowOf items k) :
          x ∉ (listAt slot).row [] := fun hmem =>
        hs.disjoint hk hx (by rwa [rowOf, hitems])
      refine Does.bind (t := { s with lists := Function.update s.lists slot ⟨copyName name, true⟩ })
        rfl ⟨_, items, run_onLinks hrun, hs.out, fun k => ?_, fun k => ?_, fun k hk => ?_,
          fun k => ?_, hs.owner, hs.fresh⟩
      all_goals
        by_cases hks : k = slot
      · subst hks
        simp
      · simpa [hks] using hs.names k
      · subst hks
        exact ⟨hlist.seg.isSome (CList.mem_row.mpr (.inl rfl)),
          hlist.seg.isSome (CList.mem_row.mpr (.inr (.inr rfl)))⟩
      · have hk₁ := hsame _ (hoff k hks _ (mem_rowOf.mpr (.inl rfl)))
        have hk₂ := hsame _ (hoff k hks _ (mem_rowOf.mpr (.inr (.inr rfl))))
        exact ⟨(congrArg _ hk₁).trans (hs.sentinels k).1,
          (congrArg _ hk₂).trans (hs.sentinels k).2⟩
      · subst hks
        rw [hitems]
        exact hlist
      · exact (hs.lists k (by simpa [hks] using hk)).sameOff hsame (hoff k hks)
      · subst hks
        simp [hitems, Reference.values]
      · simpa [Reference.values, hks] using hs.values k

theorem does_destroyListLoop (hs : Represents s r items) (hi : (r.lists i).isSome)
    (hfuel : (r.values i).length < fuel) : Does (destroyListLoop i fuel) s (r.set i []) := by
  induction fuel generalizing s r items with
  | zero => exact absurd hfuel (Nat.not_lt_zero _)
  | succ fuel ih =>
      have hl := hs.lists i hi
      rw [destroyListLoop]
      refine Does.bind (run_onLinks (run_listEmpty hl)) ?_
      cases hns : items i with
      | nil => exact (set_of_empty hs hns).symm ▸ hs.does_pure
      | cons n ns =>
          rw [hns] at hl
          obtain ⟨h', hrun, hlist, hsame, _⟩ := run_listPopFront hl
          refine Does.bind (run_onLinks hrun) ?_
          have htake := does_takeOut hs hi hlist
            (hsame.mono fun x hx => mem_rowOf_of_row (by simp +contextual [hns]) hx)
            (show (items i).Perm (n :: ns) by rw [hns])
          refine htake.seq fun s' items' hs' => ?_
          rw [length_values hs, hns, List.length_cons] at hfuel
          have hrest := ih hs' (by simpa using hi) (by
            rw [Reference.values_set_self hi, List.length_map]
            omega)
          rwa [Reference.set_set] at hrest

theorem does_destroyList (hs : Represents s r items) (hi : (r.lists i).isSome)
    (hfuel : (r.values i).length < fuel) :
    Does (destroyList fuel i) s { r with lists := Function.update r.lists i none } := by
  refine (does_destroyListLoop hs hi hfuel).seq fun s' items' hs' => ?_
  have hitems : items' i = [] := by
    have hvalues := hs'.values_eq i
    rw [Reference.values_set_self hi] at hvalues
    simpa using hvalues.symm
  refine ⟨_, items', rfl, hs'.out, fun k => ?_, hs'.sentinels, fun k hk => ?_, fun k => ?_,
    hs'.owner, hs'.fresh⟩
  all_goals
    by_cases hki : k = i
  · subst hki
    simp
  · simpa [hki, Reference.set] using hs'.names k
  · subst hki
    simp at hk
  · exact hs'.lists k (by simpa [hki, Reference.set] using hk)
  · subst hki
    simp [hitems, Reference.values]
  · have hvalues := hs'.values k
    rw [Reference.values_set_of_ne hki] at hvalues
    simpa [Reference.values, hki] using hvalues

/-! ### Dumps -/

theorem run_dumpListLoop_cons (hs : Represents s r items) (hi : (r.lists i).isSome) {A B : List Nat}
    {n : Nat} (hAB : items i = A ++ n :: B) (atFirst : Bool) (fuel : Nat) :
    (dumpListLoop i (fuel + 1) (some (.item n)) atFirst).run s =
      (dumpListLoop i fuel (first (B.map .item) (some (listAt i).tail)) false).run
        { s with out := s.out ++ (if atFirst then "" else " ") ++ toString (s.val n) } := by
  have hl := hs.lists i hi
  rw [hAB, List.map_append, List.map_cons] at hl
  have hne : some (Addr.item n) ≠ listEnd (listAt i) := by simp [listEnd, listAt]
  obtain ⟨v, hv⟩ := Option.isSome_iff_exists.mp
    (hs.isSome_values (show n ∈ items i by simp [hAB]))
  have hval : s.val n = v := by simp [Interp.val, hv]
  have hget (out : String) : (getValue (some (.item n))).run { s with out := out } =
      some (v, { s with out := out }) := by
    change Option.map _ (s.values n) = _
    rw [hv]
    rfl
  have hprint (text out : String) : (printf text).run { s with out := out } =
      some ((), { s with out := out ++ text }) := rfl
  have hnext (out : String) := run_onLinks (s := { s with out := out }) (run_listNext_at hl)
  rw [dumpListLoop, if_neg hne, hval]
  cases atFirst with
  | true =>
      simp only [Bool.not_true, Bool.false_eq_true, if_false, if_true, String.append_empty]
      rw [run_bind_of (hget s.out), run_bind_of (hprint _ s.out), run_bind_of (hnext _)]
  | false =>
      simp only [Bool.not_false, Bool.false_eq_true, if_false, if_true]
      rw [run_bind_of (hprint " " s.out), run_bind_of (hget _), run_bind_of (hprint _ _),
        run_bind_of (hnext _)]

/-- The loop of `dump_list` behind the first value. -/
theorem run_dumpListLoop (hs : Represents s r items) (hi : (r.lists i).isSome) {A B : List Nat}
    (hAB : items i = A ++ B) (hfuel : B.length < fuel) :
    (dumpListLoop i fuel (first (B.map .item) (some (listAt i).tail)) false).run s =
      some ((), { s with
        out := s.out ++ String.join (B.map fun n => " " ++ toString (s.val n)) }) := by
  induction fuel generalizing s r A B with
  | zero => exact absurd hfuel (Nat.not_lt_zero _)
  | succ fuel ih =>
      cases B with
      | nil => simp [dumpListLoop, listEnd]
      | cons n B =>
          rw [List.map_cons, first_cons, run_dumpListLoop_cons hs hi hAB]
          have hs' := (hs.print (" " ++ toString (s.val n))).2
          rw [← String.append_assoc] at hs'
          have hrest := ih hs' hi (show items i = (A ++ [n]) ++ B by simpa using hAB)
            (by simpa using hfuel)
          simpa [String.join_cons, String.append_assoc, Interp.val] using hrest

theorem does_dumpList (hs : Represents s r items) (hi : (r.lists i).isSome)
    (hfuel : (r.values i).length < fuel) :
    Does (dumpList fuel i) s
      (r.print (String.intercalate " " ((r.values i).map toString) ++ "\n")) := by
  have hl := hs.lists i hi
  refine Does.bind (run_onLinks (run_listBegin hl)) ?_
  rw [length_values hs] at hfuel
  obtain ⟨fuel, rfl⟩ := Nat.exists_eq_succ_of_ne_zero (Nat.ne_of_gt (Nat.zero_lt_of_lt hfuel))
  rw [hs.values_eq, List.map_map]
  cases hns : items i with
  | nil =>
      have hloop :
          (dumpListLoop i (fuel + 1) (some (listAt i).tail) true).run s = some ((), s) := by
        simp [dumpListLoop, listEnd]
      refine Does.bind hloop ?_
      simpa using hs.does_printf "\n"
  | cons n ns =>
      rw [hns] at hfuel
      have hs' := (hs.print (toString (s.val n))).2
      have hloop := run_dumpListLoop_cons hs hi (A := []) hns true fuel
      have hrest := run_dumpListLoop hs' hi (show items i = [n] ++ ns from hns)
        (by simpa using hfuel)
      simp only [if_true, String.append_empty] at hloop
      rw [hrest] at hloop
      refine Does.bind hloop ?_
      have hall := (hs.print (String.intercalate " "
        (List.map (toString ∘ s.val) (n :: ns)))).2.does_printf "\n"
      simpa [CLib.intercalate_cons, Reference.print, String.append_assoc, Function.comp_def,
        Interp.val] using hall

/-! ### One command -/

theorem does_listCommand (hs : Represents s r items) (hi : (r.lists i).isSome)
    (hfuel : ∀ k, (r.values k).length + 1 < fuel) (name : String) (hname : r.find name = some i)
    (c : ListCommand) (hlegal : r.Legal (.list name c)) :
    Does (doListCommand fuel memory i c) s (r.listCommand memory.isSome i c) := by
  have hlen : (r.values i).length < fuel := Nat.lt_of_succ_lt (hfuel i)
  cases c with
  | pushFront value => exact does_pushFront hs hi value
  | pushBack value => exact does_pushBack hs hi value
  | popFront => exact does_popFront hs hi
  | popBack => exact does_popBack hs hi
  | front => exact does_front hs hi
  | back => exact does_back hs hi
  | empty => exact does_empty hs hi
  | size => exact does_size hs hi hlen
  | insert idx value => exact does_insert hs hi hlen idx value
  | insertOrdered value => exact does_insertOrdered hs hi hlen value
  | remove idx => exact does_remove hs hi hlen idx
  | reverse => exact does_reverse hs hi hlen
  | sort => exact does_sort hs hi hlen
  | splice before source first last =>
      exact does_splice hs hi hfuel before source first last hlegal.1 (hlegal.2 i hname)
  | unique duplicates =>
      refine does_unique hs hi hlen duplicates fun other hother => ?_
      cases hother
      exact hlegal i hname
  | max => exact does_max hs hi hlen
  | min => exact does_min hs hi hlen
  | swap a b => exact does_swap hs hi (hfuel i) a b

theorem does_command (hs : Represents s r items) (hfuel : ∀ k, (r.values k).length + 1 < fuel)
    (c : Command) (hlegal : r.Legal c) :
    Does (doCommand fuel memory c) s (r.command memory.isSome c) := by
  have hlen (k : Fin MAX_DS) : (r.values k).length < fuel := Nat.lt_of_succ_lt (hfuel k)
  cases c with
  | create name => exact does_createListObject hs name memory.isSome
  | delete name =>
      refine Does.bind (t := s) rfl ?_
      rw [findList_eq hs, Reference.command]
      cases hfind : r.find name with
      | none => exact hs.does_pure
      | some slot => exact does_destroyList hs (Reference.isSome_of_find hfind) (hlen slot)
  | dumpdata name =>
      refine Does.bind (t := s) rfl ?_
      rw [findList_eq hs, Reference.command]
      cases hfind : r.find name with
      | none => exact hs.does_pure
      | some slot => exact does_dumpList hs (Reference.isSome_of_find hfind) (hlen slot)
  | list name c =>
      refine Does.bind (t := s) rfl ?_
      rw [findList_eq hs, Reference.command]
      cases hfind : r.find name with
      | none => exact hs.does_pure
      | some slot =>
          exact does_listCommand hs (Reference.isSome_of_find hfind) hfuel name hfind c hlegal

/-! ### Whole runs -/

theorem Reference.LegalRun.of_append {r : Reference} {lines done : List (List String × Malloc)}
    (hlegal : r.LegalRun lines) (hdone : done <+: lines) : r.LegalRun done := by
  induction lines generalizing r done with
  | nil =>
      rw [List.prefix_nil.mp hdone]
      trivial
  | cons line lines ih =>
      cases done with
      | nil => trivial
      | cons line' done =>
          obtain ⟨rfl, hdone'⟩ := List.cons_prefix_cons.mp hdone
          exact ⟨hlegal.1, ih hlegal.2 hdone'⟩

theorem run_interpret (hs : Represents s r items) (lines : List (List String × Malloc))
    (hlegal : r.LegalRun lines) (hfuel : r.size + lines.length + 2 ≤ fuel) :
    ∃ s' items', (interpret fuel lines).run s = some ((), s') ∧
      Represents s' (r.interpret lines) items' := by
  induction lines generalizing s r items with
  | nil => exact ⟨s, items, rfl, hs⟩
  | cons line lines ih =>
      obtain ⟨tokens, memory⟩ := line
      have hlen (k : Fin MAX_DS) : (r.values k).length + 1 < fuel := by
        have hsize := r.length_values_le k
        simp only [List.length_cons] at hfuel
        omega
      have hsize : (r.line tokens memory).size ≤ r.size + 1 := by
        rw [Reference.line]
        cases hcommand : command tokens with
        | none => exact Nat.le_succ _
        | some c => exact r.size_command _ (hlegal.1 c hcommand)
      have hline : Does (doLine fuel tokens memory) s (r.line tokens memory) := by
        rw [doLine, Reference.line]
        cases hcommand : command tokens with
        | none => exact hs.does_pure
        | some c => exact does_command hs hlen c (hlegal.1 c hcommand)
      obtain ⟨s₁, items₁, hrun, hs₁⟩ := hline
      obtain ⟨s', items', hrest, hs'⟩ := ih hs₁ hlegal.2 (by
        simp only [List.length_cons] at hfuel
        omega)
      exact ⟨s', items', (run_bind_of hrun).trans hrest, hs'⟩

/-- **The interpreter refines the plain sequences.** In a legal run no `ASSERT` fails and
no loop runs on; after every command the lists are well formed and disjoint, hold the
values of the sequences, and what was printed agrees. -/
theorem interpret_refines (lines done : List (List String × Malloc))
    (hlegal : Reference.initial.LegalRun lines) (hdone : done <+: lines)
    (hfuel : lines.length + 2 ≤ fuel) :
    ∃ s items, (interpret fuel done).run .initial = some ((), s) ∧
      Represents s (Reference.initial.interpret done) items := by
  have hlength := hdone.length_le
  refine run_interpret represents_initial done (hlegal.of_append hdone) ?_
  rw [Reference.size_initial]
  omega

/-- Two lists that exchange elements, with an allocation that fails. -/
def exchangeRun : List (List String × Malloc) :=
  [(["create", "list", "L"], none), (["create", "list", "M"], none),
    (["list_push_back", "L", "3"], some (7, ⟨none, none⟩)),
    (["list_push_back", "L", "1"], some (7, ⟨some (.item 7), none⟩)),
    (["list_insert", "L", "1", "3"], some (2, ⟨none, none⟩)),
    (["list_insert_ordered", "M", "-4"], some (0, ⟨none, none⟩)),
    (["list_push_front", "M", "9"], none), (["list_unique", "L", "M"], none),
    (["list_splice", "M", "1", "L", "0", "2"], none), (["list_swap", "M", "2", "0"], none),
    (["list_sort", "M"], none), (["dumpdata", "M"], none), (["delete", "M"], none)]

theorem interpret_refines_exchangeRun :
    ∃ s items, (interpret 15 exchangeRun).run .initial = some ((), s) ∧
      Represents s (Reference.initial.interpret exchangeRun) items :=
  interpret_refines exchangeRun exchangeRun (by decide +kernel) List.prefix_rfl (by decide)

end SystemProgramming.Testlib
