import SystemProgramming.Testlib.ListOrdered
import SystemProgramming.Testlib.ListReorder
import SystemProgramming.Testlib.ListReference

/-!
The list commands on memory do what they do on plain sequences.

`Represents s r items` says that the memory `s` holds the sequences `r` in the
items `items`: every list is well formed, no item is in two lists, and the
values agree. A command changes one list or two, and `Represents.setList` and
`Represents.setLists` say what has to be known about them; all the other lists
stay as they are because no cell of theirs is written.
-/

namespace SystemProgramming.Testlib

open SystemProgramming.Library

/-! ### Positions -/

section Positions

variable {α : Type} {h : Heap α} {list : CList α} {xs ys zs : List α}

theorem run_advance (hl : IsList h list (ys ++ zs)) {k : Nat} (hk : k ≤ zs.length) :
    (advance k (first zs (some list.tail))).run h =
      some (first (zs.drop k) (some list.tail), h) := by
  induction k generalizing ys zs with
  | zero => rfl
  | succ k ih =>
      cases zs with
      | nil => exact absurd hk (Nat.not_succ_le_zero _)
      | cons z zs =>
          rw [advance, first_cons, run_bind_of (run_listNext_at hl)]
          exact ih (show IsList h list ((ys ++ [z]) ++ zs) by simpa using hl)
            (Nat.le_of_succ_le_succ hk)

theorem first_drop (xs : List α) (k : Nat) (n : Option α) (hk : k < xs.length) :
    first (xs.drop k) n = xs[k]? := by
  rw [List.drop_eq_getElem_cons hk, first_cons, List.getElem?_eq_getElem hk]

variable [DecidableEq α]

theorem run_listElemAt (hl : IsList h list xs) {fuel : Nat} (hfuel : xs.length < fuel)
    (idx : Int) : (listElemAt fuel list idx).run h = some (elemAt xs idx, h) := by
  rw [listElemAt, run_bind_of (run_listBegin hl), elemAt]
  by_cases hneg : idx < 0
  · simp [hneg]
  · by_cases hlen : xs.length ≤ idx.toNat
    · simp [hneg, run_listSize hl hfuel, hlen]
    · have hadvance := run_advance (show IsList h list ([] ++ xs) from hl) (k := idx.toNat)
        (by omega)
      rw [first_drop xs _ _ (by omega)] at hadvance
      simpa [hneg, run_listSize hl hfuel, hlen] using hadvance

/-- The place `list_pos_at` finds. -/
theorem run_listPosAt (hl : IsList h list xs) {fuel : Nat} (hfuel : xs.length < fuel)
    (idx : Int) : (listPosAt fuel list idx).run h = some
      (if 0 ≤ idx ∧ idx ≤ xs.length then first (xs.drop idx.toNat) (some list.tail) else none,
        h) := by
  rw [listPosAt]
  by_cases hneg : idx < 0
  · simp [hneg]
  · by_cases hlen : xs.length < idx
    · have hrange : ¬ (0 ≤ idx ∧ idx ≤ xs.length) := by omega
      simp [hneg, run_listSize hl hfuel, hlen]
    · have hrange : 0 ≤ idx ∧ idx ≤ xs.length := by omega
      by_cases heq : idx.toNat = xs.length
      · simp [hneg, run_listSize hl hfuel, heq, hrange, listEnd]
      · have hat := run_listElemAt hl hfuel idx
        rw [elemAt, if_neg hneg, ← first_drop xs _ (some list.tail) (by omega)] at hat
        simpa [hneg, run_listSize hl hfuel, hlen, heq, hrange] using hat

end Positions

/-! ### Memory that holds sequences -/

/-- The cells of the list in a slot. -/
def rowOf (items : Fin MAX_DS → List Nat) (slot : Fin MAX_DS) : List Addr :=
  (listAt slot).row ((items slot).map .item)

structure Represents (s : Interp) (r : Reference) (items : Fin MAX_DS → List Nat) : Prop where
  out : s.out = r.out
  names : ∀ i, (r.lists i).map Prod.fst = if (s.lists i).used then some (s.lists i).name else none
  sentinels : ∀ i, (s.links (.head i)).isSome = true ∧ (s.links (.tail i)).isSome = true
  lists : ∀ i, (r.lists i).isSome → IsList s.links (listAt i) ((items i).map .item)
  values : ∀ i, (items i).map s.values = (r.values i).map some
  owner : ∀ i j n, n ∈ items i → n ∈ items j → i = j
  fresh : ∀ n, s.brk ≤ n → s.values n = none

variable {s : Interp} {r : Reference} {items : Fin MAX_DS → List Nat} {i j k : Fin MAX_DS}

theorem mem_rowOf {x : Addr} : x ∈ rowOf items i ↔
    x = .head i ∨ (∃ n ∈ items i, .item n = x) ∨ x = .tail i := by
  simp [rowOf, CList.mem_row, listAt]

/-- No cell belongs to two lists. -/
theorem Represents.disjoint (hs : Represents s r items) (hij : i ≠ j) {x : Addr}
    (hi : x ∈ rowOf items i) : x ∉ rowOf items j := by
  rw [mem_rowOf] at hi ⊢
  rintro (rfl | ⟨n, hn, rfl⟩ | rfl)
  · simp [hij.symm] at hi
  · obtain ⟨m, hm, heq⟩ : ∃ m ∈ items i, Addr.item m = Addr.item n := by simpa using hi
    obtain rfl := Addr.item.inj heq
    exact hij (hs.owner i j m hm hn)
  · simp [hij.symm] at hi

/-- The value of an allocated item. -/
def Interp.val (s : Interp) (n : Nat) : Int := (s.values n).getD 0

theorem map_values {ns : List Nat} (hns : ∀ n ∈ ns, (s.values n).isSome) :
    ns.map s.values = (ns.map s.val).map some := by
  rw [List.map_map]
  refine List.map_congr_left fun n hn => ?_
  obtain ⟨v, hv⟩ := Option.isSome_iff_exists.mp (hns n hn)
  simp [Interp.val, hv]

theorem Represents.isSome_values (hs : Represents s r items) {n : Nat} (hn : n ∈ items i) :
    (s.values n).isSome = true := by
  have hmem : s.values n ∈ (r.values i).map some := hs.values i ▸ List.mem_map_of_mem hn
  obtain ⟨v, _, hv⟩ := List.mem_map.mp hmem
  rw [← hv]
  rfl

theorem Represents.values_eq (hs : Represents s r items) (i : Fin MAX_DS) :
    r.values i = (items i).map s.val := by
  have hvalues := hs.values i
  rw [map_values fun n hn => hs.isSome_values hn] at hvalues
  exact ((List.map_inj_right fun _ _ => Option.some.inj).mp hvalues).symm

/-- The memory is an empty table at first. -/
theorem represents_initial : Represents .initial .initial fun _ => [] where
  out := rfl
  names _ := rfl
  sentinels _ := ⟨rfl, rfl⟩
  lists _ h := absurd h (by simp [Reference.initial])
  values _ := rfl
  owner _ _ _ h := absurd h List.not_mem_nil
  fresh _ _ := rfl

theorem findList_eq (hs : Represents s r items) (name : String) :
    findList s.lists name = r.find name := by
  rw [findList, Reference.find]
  congr 1
  funext i
  have hname := hs.names i
  cases hl : r.lists i with
  | none =>
      cases hused : (s.lists i).used with
      | false => simp
      | true => simp [hl, hused] at hname
  | some l =>
      cases hused : (s.lists i).used with
      | false => simp [hl, hused] at hname
      | true =>
          rw [hl, hused] at hname
          simp only [Option.map_some, if_true, Option.some.injEq] at hname
          simp [hname]

theorem findEmptyListSlot_eq (hs : Represents s r items) :
    findEmptyListSlot s.lists = (List.finRange MAX_DS).find? fun i => (r.lists i).isNone := by
  rw [findEmptyListSlot]
  congr 1
  funext i
  have hname := hs.names i
  cases hl : r.lists i <;> cases hused : (s.lists i).used <;> simp [hl, hused] at hname ⊢

theorem Represents.print (hs : Represents s r items) (text : String) :
    (printf text).run s = some ((), { s with out := s.out ++ text }) ∧
      Represents { s with out := s.out ++ text } (r.print text) items :=
  ⟨rfl, ⟨congrArg (· ++ text) hs.out, hs.names, hs.sentinels, hs.lists, hs.values, hs.owner,
    hs.fresh⟩⟩

/-! ### Changing lists -/

/-- The lists whose cells are written are well formed again; the others stay. -/
theorem Represents.relink (hs : Represents s r items) {r' : Reference}
    {items' : Fin MAX_DS → List Nat} {links' : Heap Addr} {S : List Addr}
    (hout : r'.out = r.out)
    (hnames : ∀ k, (r'.lists k).map Prod.fst = (r.lists k).map Prod.fst)
    (hvalues : ∀ k, (items' k).map s.values = (r'.values k).map some)
    (howner : ∀ i j n, n ∈ items' i → n ∈ items' j → i = j)
    (hsame : s.links.SameOff S links')
    (hrow : ∀ k, (items' k = items k ∧ ∀ x ∈ rowOf items k, x ∉ S) ∨
      IsList links' (listAt k) ((items' k).map .item)) :
    Represents { s with links := links' } r' items' where
  out := hs.out.trans hout.symm
  names k := (hnames k).trans (hs.names k)
  sentinels k := by
    rcases hrow k with ⟨_, hoff⟩ | hlist
    · have hhead := hsame _ (hoff _ (mem_rowOf.mpr (.inl rfl)))
      have htail := hsame _ (hoff _ (mem_rowOf.mpr (.inr (.inr rfl))))
      exact ⟨(congrArg _ hhead).trans (hs.sentinels k).1,
        (congrArg _ htail).trans (hs.sentinels k).2⟩
    · exact ⟨hlist.seg.isSome (CList.mem_row.mpr (.inl rfl)),
        hlist.seg.isSome (CList.mem_row.mpr (.inr (.inr rfl)))⟩
  lists k hk := by
    rcases hrow k with ⟨hitems, hoff⟩ | hlist
    · rw [← Option.isSome_map (f := Prod.fst), hnames, Option.isSome_map] at hk
      rw [hitems]
      exact (hs.lists k hk).sameOff hsame hoff
    · exact hlist
  values := hvalues
  owner := howner
  fresh := hs.fresh

/-- One list changes. It may take up items `E` that were in no list. -/
theorem Represents.setList (hs : Represents s r items) (hi : (r.lists i).isSome)
    {links' : Heap Addr} {ns E : List Nat}
    (hlist : IsList links' (listAt i) (ns.map .item))
    (hsame : s.links.SameOff (E.map .item ++ rowOf items i) links')
    (hE : ∀ n ∈ E, (s.values n).isSome ∧ ∀ k, n ∉ items k)
    (hns : ∀ n ∈ ns, n ∈ items i ∨ n ∈ E) :
    Represents { s with links := links' } (r.set i (ns.map s.val))
      (Function.update items i ns) := by
  have hvalues : ns.map s.values = (ns.map s.val).map some :=
    map_values fun n hn => (hns n hn).elim hs.isSome_values fun hn => (hE n hn).1
  refine hs.relink rfl (r.map_fst_set i · _) (fun k => ?_) (fun a b n ha hb => ?_) hsame
    fun k => ?_
  · by_cases hki : k = i
    · subst hki
      rw [Function.update_self, hvalues, Reference.values_set_self hi]
    · rw [Function.update_of_ne hki, Reference.values_set_of_ne hki, hs.values]
  · have hmem (c : Fin MAX_DS) (hc : n ∈ Function.update items i ns c) :
        (c = i ∧ (n ∈ items i ∨ n ∈ E)) ∨ c ≠ i ∧ n ∈ items c := by
      by_cases hci : c = i
      · subst hci
        rw [Function.update_self] at hc
        exact .inl ⟨rfl, hns n hc⟩
      · rw [Function.update_of_ne hci] at hc
        exact .inr ⟨hci, hc⟩
    rcases hmem a ha with ⟨hai, ha' | ha'⟩ | ⟨hai, ha'⟩ <;>
      rcases hmem b hb with ⟨hbi, hb' | hb'⟩ | ⟨hbi, hb'⟩
    case inl.inl.inl.inl | inl.inl.inl.inr | inl.inr.inl.inl | inl.inr.inl.inr =>
      exact hai.trans hbi.symm
    case inl.inl.inr => exact hai.trans (hs.owner i b n ha' hb')
    case inl.inr.inr => exact absurd hb' ((hE n ha').2 b)
    case inr.inl.inl => exact (hs.owner a i n ha' hb').trans hbi.symm
    case inr.inl.inr => exact absurd ha' ((hE n hb').2 a)
    case inr.inr => exact hs.owner a b n ha' hb'
  · by_cases hki : k = i
    · subst hki
      exact .inr (by rwa [Function.update_self])
    · refine .inl ⟨Function.update_of_ne hki .., fun x hx hmem => ?_⟩
      rcases List.mem_append.mp hmem with hxE | hxi
      · obtain ⟨n, hn, rfl⟩ := List.mem_map.mp hxE
        have hnk : n ∈ items k := by simpa [mem_rowOf] using hx
        exact (hE n hn).2 k hnk
      · exact hs.disjoint hki hx hxi

/-- Two lists change and exchange items. -/
theorem Represents.setLists (hs : Represents s r items) (hi : (r.lists i).isSome)
    (hj : (r.lists j).isSome) (hij : i ≠ j) {links' : Heap Addr} {ns ms : List Nat}
    (hlisti : IsList links' (listAt i) (ns.map .item))
    (hlistj : IsList links' (listAt j) (ms.map .item))
    (hsame : s.links.SameOff (rowOf items i ++ rowOf items j) links')
    (hperm : (ns ++ ms).Perm (items i ++ items j)) :
    Represents { s with links := links' } ((r.set i (ns.map s.val)).set j (ms.map s.val))
      (Function.update (Function.update items i ns) j ms) := by
  have hat (k : Fin MAX_DS) : (k = j ∧ Function.update (Function.update items i ns) j ms k = ms) ∨
      (k = i ∧ Function.update (Function.update items i ns) j ms k = ns) ∨
      (k ≠ i ∧ k ≠ j ∧ Function.update (Function.update items i ns) j ms k = items k) := by
    by_cases hkj : k = j
    · subst hkj
      exact .inl ⟨rfl, Function.update_self ..⟩
    · rw [Function.update_of_ne hkj]
      by_cases hki : k = i
      · subst hki
        exact .inr (.inl ⟨rfl, Function.update_self ..⟩)
      · exact .inr (.inr ⟨hki, hkj, Function.update_of_ne hki ..⟩)
  have hmem (n : Nat) (hn : n ∈ ns ∨ n ∈ ms) : n ∈ items i ∨ n ∈ items j := by
    simpa using hperm.mem_iff.mp (by simpa using hn)
  have hvaluesi : ns.map s.values = (ns.map s.val).map some :=
    map_values fun n hn => (hmem n (.inl hn)).elim hs.isSome_values hs.isSome_values
  have hvaluesj : ms.map s.values = (ms.map s.val).map some :=
    map_values fun n hn => (hmem n (.inr hn)).elim hs.isSome_values hs.isSome_values
  have hnodup : (ns ++ ms).Nodup := by
    have hitems (k : Fin MAX_DS) (hk : (r.lists k).isSome) : (items k).Nodup :=
      (hs.lists k hk).nodup_elems.of_map _
    refine hperm.nodup_iff.mpr (List.nodup_append.mpr ⟨hitems i hi, hitems j hj, ?_⟩)
    rintro n hni _ hnj rfl
    exact hij (hs.owner i j n hni hnj)
  refine hs.relink rfl (fun k => by simp) (fun k => ?_) (fun a b n ha hb => ?_) hsame fun k => ?_
  · rcases hat k with ⟨rfl, hk⟩ | ⟨rfl, hk⟩ | ⟨hki, hkj, hk⟩
    · rw [hk, hvaluesj, Reference.values_set_self (by simpa using hj)]
    · rw [hk, hvaluesi, Reference.values_set_of_ne hij, Reference.values_set_self hi]
    · rw [hk, Reference.values_set_of_ne hkj, Reference.values_set_of_ne hki, hs.values]
  -- every item still has one owner: nine cases, by what `hat` says about the two slots
  · have hcross : n ∈ ns → n ∉ ms := fun hn hm =>
      (List.nodup_append.mp hnodup).2.2 n hn n hm rfl
    have hother (c : Fin MAX_DS) (hn : n ∈ ns ∨ n ∈ ms) (hc : n ∈ items c) : c = i ∨ c = j :=
      (hmem n hn).imp (hs.owner c i n hc) (hs.owner c j n hc)
    rcases hat a with ⟨haj, ha'⟩ | ⟨hai, ha'⟩ | ⟨hai, haj, ha'⟩ <;>
      rcases hat b with ⟨hbj, hb'⟩ | ⟨hbi, hb'⟩ | ⟨hbi, hbj, hb'⟩ <;> rw [ha'] at ha <;>
      rw [hb'] at hb
    case inl.inl => exact haj.trans hbj.symm
    case inr.inl.inr.inl => exact hai.trans hbi.symm
    case inl.inr.inl => exact absurd ha (hcross hb)
    case inr.inl.inl => exact absurd hb (hcross ha)
    case inl.inr.inr => exact ((hother b (.inr ha) hb).elim hbi hbj).elim
    case inr.inl.inr.inr => exact ((hother b (.inl ha) hb).elim hbi hbj).elim
    case inr.inr.inl => exact ((hother a (.inr hb) ha).elim hai haj).elim
    case inr.inr.inr.inl => exact ((hother a (.inl hb) ha).elim hai haj).elim
    case inr.inr.inr.inr => exact hs.owner a b n ha hb
  · rcases hat k with ⟨rfl, hk⟩ | ⟨rfl, hk⟩ | ⟨hki, hkj, hk⟩
    · exact .inr (by rw [hk]; exact hlistj)
    · exact .inr (by rw [hk]; exact hlisti)
    · refine .inl ⟨hk, fun x hx hmem => ?_⟩
      exact (List.mem_append.mp hmem).elim (hs.disjoint hki hx) (hs.disjoint hkj hx)

end SystemProgramming.Testlib
