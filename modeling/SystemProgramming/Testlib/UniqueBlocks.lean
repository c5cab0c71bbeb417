import Mathlib.Data.List.SplitBy
import SystemProgramming.Testlib.StableSort

/-!
What `list_unique` keeps. The list falls into its maximal blocks of consecutive
equivalent elements; the first of each block stays, and all others go to the
second list. What stays has no equivalent neighbours, so that a second call
finds nothing to do.
-/

namespace SystemProgramming.Testlib

open SystemProgramming.Library

variable {α : Type} {lt : α → α → Bool} {x y : α} {xs : List α}

/-! ### On plain lists -/

theorem equivalent_iff : equivalent lt x y ↔ notAfter lt x y ∧ notAfter lt y x := by
  simp [equivalent, notAfter, and_comm]

theorem unique_cons_of_equivalent (hxy : equivalent lt x y) :
    unique lt x (y :: xs) = ((unique lt x xs).1, y :: (unique lt x xs).2) :=
  if_pos hxy

theorem unique_cons_of_not (hxy : equivalent lt x y = false) :
    unique lt x (y :: xs) = (y :: (unique lt y xs).1, (unique lt y xs).2) :=
  if_neg (by simpa [equivalent] using hxy)

/-- No two neighbours that stay are equivalent. -/
theorem isChain_unique (lt : α → α → Bool) (x : α) (xs : List α) :
    (x :: (unique lt x xs).1).IsChain fun a b => equivalent lt a b = false := by
  induction xs generalizing x with
  | nil => exact .singleton x
  | cons y xs ih =>
      cases hxy : equivalent lt x y with
      | true =>
          rw [unique_cons_of_equivalent hxy]
          exact ih x
      | false =>
          rw [unique_cons_of_not hxy]
          exact .cons_cons hxy (ih y)

/-- Without equivalent neighbours everything stays. -/
theorem unique_of_isChain (h : (x :: xs).IsChain fun a b => equivalent lt a b = false) :
    unique lt x xs = (xs, []) := by
  induction xs generalizing x with
  | nil => rfl
  | cons y xs ih =>
      obtain ⟨hxy, hrest⟩ := List.isChain_cons_cons.mp h
      rw [unique_cons_of_not hxy, ih hrest]

/-- A block gives away all but its first element. -/
theorem unique_append {B : List α} (hB : ∀ z ∈ B, equivalent lt x z) (xs : List α) :
    unique lt x (B ++ xs) = ((unique lt x xs).1, B ++ (unique lt x xs).2) := by
  induction B with
  | nil => rfl
  | cons y B ih =>
      obtain ⟨hxy, hB⟩ := List.forall_mem_cons.mp hB
      rw [List.cons_append, unique_cons_of_equivalent hxy, ih hB, List.cons_append]

theorem equivalent_symm (hxy : equivalent lt x y) : equivalent lt y x :=
  equivalent_iff.mpr (equivalent_iff.mp hxy).symm

section Blocks

variable [IsStrictWeakOrder α (fun a b => lt a b)]

theorem equivalent_refl (x : α) : equivalent lt x x :=
  equivalent_iff.mpr (by simpa using notAfter_total lt x x)

theorem equivalent_trans {z : α} (hxy : equivalent lt x y) (hyz : equivalent lt y z) :
    equivalent lt x z := by
  rw [equivalent_iff] at hxy hyz ⊢
  exact ⟨notAfter_trans lt _ _ _ hxy.1 hyz.1, notAfter_trans lt _ _ _ hyz.2 hxy.2⟩

/-- Neighbours that are equivalent make a block of equivalent elements. -/
theorem equivalent_of_isChain {B : List α} (hB : (x :: B).IsChain fun a b => equivalent lt a b) :
    ∀ z ∈ x :: B, equivalent lt x z := by
  induction B generalizing x with
  | nil => simpa using equivalent_refl x
  | cons y B ih =>
      obtain ⟨hxy, hrest⟩ := List.isChain_cons_cons.mp hB
      intro z hz
      rcases List.mem_cons.mp hz with rfl | hz
      · exact equivalent_refl z
      · exact equivalent_trans hxy (ih hrest z hz)

/-- A list taken apart into its blocks. -/
theorem unique_blocks {B : List α} {bs : List (List α)}
    (hblock : ∀ b ∈ (x :: B) :: bs, b.IsChain fun a b => equivalent lt a b)
    (hapart : ((x :: B) :: bs).IsChain fun b c =>
      ∃ hb hc, equivalent lt (b.getLast hb) (c.head hc) = false) :
    unique lt x (B ++ bs.flatten) = (bs.filterMap List.head?, B ++ bs.flatMap List.tail) := by
  have hB := equivalent_of_isChain (hblock _ List.mem_cons_self)
  rw [unique_append fun z hz => hB z (List.mem_cons_of_mem _ hz)]
  induction bs generalizing x B with
  | nil => rfl
  | cons c bs ih =>
      obtain ⟨⟨hb, hc, hlast⟩, hapart⟩ := List.isChain_cons_cons.mp hapart
      obtain ⟨y, C, rfl⟩ := List.exists_cons_of_ne_nil hc
      -- the next block begins with an element that is not equivalent to `x`
      have hxy : equivalent lt x y = false := by
        refine Bool.eq_false_iff.mpr fun hxy => ?_
        have hxlast := hB _ (List.getLast_mem hb)
        exact Bool.eq_false_iff.mp hlast (equivalent_trans (equivalent_symm hxlast) hxy)
      have hblock' := fun b hb => hblock b (List.mem_cons_of_mem (x :: B) hb)
      have hC := equivalent_of_isChain (hblock' _ List.mem_cons_self)
      rw [List.flatten_cons, List.cons_append, unique_cons_of_not hxy,
        unique_append fun z hz => hC z (List.mem_cons_of_mem _ hz), ih hblock' hapart hC]
      rfl

/-- `list_unique` keeps the first element of each block and gives away the rest. -/
theorem unique_splitBy (lt : α → α → Bool) [IsStrictWeakOrder α (fun a b => lt a b)] (x : α)
    (xs : List α) :
    ((x :: xs).splitBy (equivalent lt)).filterMap List.head? = x :: (unique lt x xs).1 ∧
      ((x :: xs).splitBy (equivalent lt)).flatMap List.tail = (unique lt x xs).2 := by
  obtain ⟨hflat, hnil, hblock, hapart⟩ :=
    List.splitBy_eq_iff.mp (rfl : (x :: xs).splitBy (equivalent lt) = _)
  generalize (x :: xs).splitBy (equivalent lt) = bs at hflat hnil hblock hapart ⊢
  rcases bs with _ | ⟨_ | ⟨y, B⟩, bs⟩
  · cases hflat
  · exact absurd List.mem_cons_self hnil
  · rw [List.flatten_cons, List.cons_append] at hflat
    obtain ⟨rfl, rfl⟩ := List.cons.inj hflat
    rw [unique_blocks hblock hapart]
    exact ⟨rfl, rfl⟩

end Blocks

/-! ### On lists in memory -/

variable [DecidableEq α] {h : Heap α} {list : CList α} {less : Ptr α → Ptr α → Option Bool}
  {dups : Option (CList α × List α)} {fuel : Nat}

/-- Where no neighbours are equivalent, `list_unique` writes nothing. -/
theorem run_listUnique_of_isChain (hl : IsList h list xs) (hless : Decides less lt xs)
    (hdups : ∀ d ∈ dups, IsList h d.1 d.2 ∧ ∀ z ∈ list.row xs, z ∉ d.1.row d.2)
    (hfuel : xs.length < fuel) (hchain : xs.IsChain fun a b => equivalent lt a b = false) :
    (listUnique less fuel list (dups.map Prod.fst)).run h = some ((), h) := by
  cases xs with
  | nil => exact run_listUnique_nil hl _ _
  | cons x xs =>
      obtain ⟨h', hrun, hlist, hlists, hsame⟩ := run_listUnique hl hless hdups
        (Nat.lt_of_succ_lt hfuel)
      rw [unique_of_isChain hchain] at hlist hlists
      have hheap : h' = h := by
        funext z
        by_cases hz : z ∈ list.row (x :: xs)
        · exact hl.seg.agree hlist.seg z hz
        · by_cases hzd : z ∈ dupRow dups
          · cases dups with
            | none => cases hzd
            | some d =>
                have hd := hlists d rfl
                rw [List.append_nil] at hd
                exact (hdups d rfl).1.seg.agree hd.seg z hzd
          · exact hsame z (by simp [hz, hzd])
      rw [hrun, hheap]

/-- `list_unique` keeps the first element of each maximal block of equivalent elements, in
order, and appends all others to the second list when there is one. No neighbours that stay
are equivalent, and a second call changes nothing. -/
theorem listUnique_blocks [IsStrictWeakOrder α (fun a b => lt a b)]
    (dups : Option (CList α × List α)) (hl : IsList h list xs) (hless : Decides less lt xs)
    (hdups : ∀ d ∈ dups, IsList h d.1 d.2 ∧ ∀ z ∈ list.row xs, z ∉ d.1.row d.2)
    (hfuel : xs.length < fuel) :
    ∃ h' kept moved,
      (listUnique less fuel list (dups.map Prod.fst)).run h = some ((), h') ∧
      kept = (xs.splitBy (equivalent lt)).filterMap List.head? ∧
      moved = (xs.splitBy (equivalent lt)).flatMap List.tail ∧
      IsList h' list kept ∧ (∀ d ∈ dups, IsList h' d.1 (d.2 ++ moved)) ∧
      kept.IsChain (fun a b => equivalent lt a b = false) ∧
      (listUnique less fuel list (dups.map Prod.fst)).run h' = some ((), h') ∧
      h.SameOff (list.row xs ++ dupRow dups) h' := by
  cases xs with
  | nil =>
      refine ⟨h, [], [], run_listUnique_nil hl _ _, rfl, rfl, hl, fun d hd => ?_, .nil,
        run_listUnique_nil hl _ _, .refl _ h⟩
      simpa using (hdups d hd).1
  | cons x xs =>
      obtain ⟨hkept, hmoved⟩ := unique_splitBy lt x xs
      obtain ⟨h', hrun, hlist, hlists, hsame⟩ := run_listUnique hl hless hdups
        (Nat.lt_of_succ_lt hfuel)
      have hchain := isChain_unique lt x xs
      refine ⟨h', _, _, hrun, hkept.symm, hmoved.symm, hlist, hlists, hchain, ?_, hsame⟩
      have hperm : ((unique lt x xs).1 ++ (unique lt x xs).2).Perm xs := unique_perm x xs
      -- what stays is not given away
      have hkeptRow (z : α) (hz : z ∈ list.row (x :: (unique lt x xs).1)) :
          z ∈ list.row (x :: xs) ∧ z ∉ (unique lt x xs).2 := by
        have helems (w : α) (hw : w ∈ (unique lt x xs).2) : w ∈ x :: xs :=
          List.mem_cons_of_mem x (hperm.mem_iff.mp (List.mem_append_right _ hw))
        have hnodup := (hperm.cons x).nodup_iff.mpr hl.nodup_elems
        have hdisj := (List.nodup_append.mp (List.cons_append ▸ hnodup)).2.2
        rw [CList.mem_row] at hz ⊢
        rcases hz with rfl | hz | rfl
        · exact ⟨.inl rfl, fun hw => hl.ne_head (helems _ hw) rfl⟩
        · refine ⟨.inr (.inl ?_), fun hw => hdisj z hz z hw rfl⟩
          exact (hperm.cons x).mem_iff.mp (List.mem_append_left _ hz)
        · exact ⟨.inr (.inr rfl), fun hw => hl.ne_tail (helems _ hw) rfl⟩
      have hdups' : ∀ d ∈ dups.map fun d => (d.1, d.2 ++ (unique lt x xs).2), IsList h' d.1 d.2 ∧
          ∀ z ∈ list.row (x :: (unique lt x xs).1), z ∉ d.1.row d.2 := by
        intro d' hd'
        obtain ⟨d, hd, rfl⟩ := Option.map_eq_some_iff.mp hd'
        refine ⟨hlists d hd, fun z hz hmem => ?_⟩
        obtain ⟨hrow, hmoved⟩ := hkeptRow z hz
        have hnot := (hdups d hd).2 z hrow
        simp only [CList.mem_row, List.mem_append] at hmem hnot
        tauto
      have hlength := hperm.length_eq
      have hagain := run_listUnique_of_isChain hlist
        (hless.mono fun z hz => (hperm.cons x).mem_iff.mp (List.mem_append_left _ hz)) hdups'
        (show (x :: (unique lt x xs).1).length < fuel by
          simp only [List.length_append, List.length_cons] at hlength hfuel ⊢
          omega)
        hchain
      rwa [Option.map_map] at hagain

/-- Six nodes in three blocks, and a second list with a node of its own. -/
theorem listUnique_blocks_threeBlocks :
    ∃ h' kept moved,
      (listUnique (comparing (byKey (· % 3))) 7 ⟨0, 1⟩ (some ⟨10, 11⟩)).run
        (memoryOf [(⟨0, 1⟩, [2, 5, 8, 3, 4, 7]), (⟨10, 11⟩, [12])]) = some ((), h') ∧
      kept = ([2, 5, 8, 3, 4, 7].splitBy (equivalent (byKey (· % 3)))).filterMap List.head? ∧
      moved = ([2, 5, 8, 3, 4, 7].splitBy (equivalent (byKey (· % 3)))).flatMap List.tail ∧
      IsList h' ⟨0, 1⟩ kept ∧ (∀ d ∈ some (⟨10, 11⟩, [12]), IsList h' d.1 (d.2 ++ moved)) ∧
      kept.IsChain (fun a b => equivalent (byKey (· % 3)) a b = false) ∧
      (listUnique (comparing (byKey (· % 3))) 7 ⟨0, 1⟩ (some ⟨10, 11⟩)).run h' =
        some ((), h') ∧
      (memoryOf [(⟨0, 1⟩, [2, 5, 8, 3, 4, 7]), (⟨10, 11⟩, [12])]).SameOff
        (CList.row ⟨0, 1⟩ [2, 5, 8, 3, 4, 7] ++ dupRow (some (⟨10, 11⟩, [12]))) h' := by
  have hlists := isList_memoryOf
    (show (List.flatMap (fun l : CList Nat × List Nat => l.1.row l.2)
      [(⟨0, 1⟩, [2, 5, 8, 3, 4, 7]), (⟨10, 11⟩, [12])]).Nodup by decide)
  refine listUnique_blocks (some (⟨10, 11⟩, [12])) (hlists (⟨0, 1⟩, [2, 5, 8, 3, 4, 7]) (by simp))
    (decides_comparing _ _) (fun d hd => ?_) (show 6 < 7 by decide)
  obtain rfl := Option.mem_some_iff.mp hd
  exact ⟨hlists _ (by simp), by decide⟩

end SystemProgramming.Testlib
