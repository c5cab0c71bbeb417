import SystemProgramming.Testlib.StableSort

/-!
`list_max` and `list_min` beside `list_sort`. Each scan returns the first of the
extreme elements, and a stable rearrangement keeps it the first of them. In a
sorted order the first minimum stands at the front, and the first maximum in
front of its equivalents, at the end.
-/

namespace SystemProgramming.Testlib

open SystemProgramming.Library

variable {α : Type} {lt : α → α → Bool} {xs ys : List α} {m x y : α}

/-! ### On plain lists -/

/-- Only smaller elements stand in front of `m`, and no greater one behind it. -/
def EarliestMaximum (lt : α → α → Bool) (xs : List α) (m : α) : Prop :=
  ∃ before after, xs = before ++ m :: after ∧ (∀ z ∈ before, lt z m = true) ∧
    ∀ z ∈ after, lt m z = false

/-- `m` is the first of the last block of equivalent elements. -/
def BeginsLastBlock (lt : α → α → Bool) (ys : List α) (m : α) : Prop :=
  ∃ before block, ys = before ++ m :: block ∧ (∀ z ∈ before, lt z m = true) ∧
    ∀ z ∈ block, equivalent lt m z = true

section Order

variable [IsStrictWeakOrder α (fun a b => lt a b)]

omit [IsStrictWeakOrder α (fun a b => lt a b)] in
theorem equivalent_swap (lt : α → α → Bool) (x : α) :
    equivalent (fun a b => lt b a) x = equivalent lt x :=
  funext fun _ => Bool.and_comm _ _

theorem equivalent_self (lt : α → α → Bool) [IsStrictWeakOrder α (fun a b => lt a b)] (x : α) :
    equivalent lt x x = true := by
  have hirrefl : lt x x = false :=
    Bool.eq_false_iff.mpr (irrefl_of (fun a b => (lt a b : Prop)) x)
  simp [equivalent, hirrefl]

/-- What is not less than `x` takes its place on the right of `lt`. -/
theorem lt_of_lt_of_not (hxy : lt x y = true) (hmy : lt m y = false) : lt x m = true := by
  by_contra hxm
  have hmx : notAfter lt y x := notAfter_trans lt y m x (by simp [notAfter, hmy])
    (by simpa [notAfter] using hxm)
  simp [notAfter, hxy] at hmx

/-- What is not greater than `x` takes its place on the left of `lt`. -/
theorem lt_of_not_of_lt (hxy : lt x y = false) (hxm : lt x m = true) : lt y m = true := by
  by_contra hym
  have hmx : notAfter lt m x := notAfter_trans lt m y x (by simpa [notAfter] using hym)
    (by simp [notAfter, hxy])
  simp [notAfter, hxm] at hmx

namespace EarliestMaximum

theorem not_lt (h : EarliestMaximum lt xs m) {z : α} (hz : z ∈ xs) : lt m z = false := by
  obtain ⟨before, after, rfl, hbefore, hafter⟩ := h
  rcases List.mem_append.mp hz with hz | hz
  · exact lt_asymm_of lt (hbefore z hz)
  · rcases List.mem_cons.mp hz with rfl | hz
    · simpa [equivalent] using equivalent_self lt z
    · exact hafter z hz

omit [IsStrictWeakOrder α (fun a b => lt a b)] in
theorem cons (h : EarliestMaximum lt xs m) (hx : lt x m = true) :
    EarliestMaximum lt (x :: xs) m := by
  obtain ⟨before, after, rfl, hbefore, hafter⟩ := h
  exact ⟨x :: before, after, rfl, List.forall_mem_cons.mpr ⟨hx, hbefore⟩, hafter⟩

/-- An element that is not greater than the first one makes no difference. -/
theorem skip (h : EarliestMaximum lt (x :: xs) m) (hxy : lt x y = false) :
    EarliestMaximum lt (x :: y :: xs) m := by
  obtain ⟨before, after, hsplit, hbefore, hafter⟩ := h
  cases before with
  | nil =>
      obtain ⟨rfl, rfl⟩ := List.cons.inj hsplit
      exact ⟨[], y :: xs, rfl, hbefore, List.forall_mem_cons.mpr ⟨hxy, hafter⟩⟩
  | cons z before =>
      obtain ⟨rfl, rfl⟩ := List.cons.inj hsplit
      obtain ⟨hxm, hbefore⟩ := List.forall_mem_cons.mp hbefore
      refine ⟨x :: y :: before, after, rfl, ?_, hafter⟩
      exact List.forall_mem_cons.mpr
        ⟨hxm, List.forall_mem_cons.mpr ⟨lt_of_not_of_lt hxy hxm, hbefore⟩⟩

/-- It is the first of its class, and nothing is greater. -/
theorem iff_find? : EarliestMaximum lt xs m ↔
    (∀ z ∈ xs, lt m z = false) ∧ xs.find? (equivalent lt m) = some m := by
  constructor
  · intro h
    refine ⟨fun z hz => h.not_lt hz, ?_⟩
    obtain ⟨before, after, hsplit, hbefore, _⟩ := h
    refine List.find?_eq_some_iff_append.mpr ⟨equivalent_self lt m, before, after, hsplit, ?_⟩
    intro z hz
    simp [equivalent, hbefore z hz]
  · rintro ⟨hnot, hfind⟩
    obtain ⟨_, before, after, rfl, hbefore⟩ := List.find?_eq_some_iff_append.mp hfind
    refine ⟨before, after, rfl, fun z hz => ?_, fun z hz => hnot z (by simp [hz])⟩
    have hclass := hbefore z hz
    simpa [equivalent, hnot z (by simp [hz])] using hclass

/-- A rearrangement that keeps the order of a class keeps its first element. -/
theorem rearranged (h : EarliestMaximum lt xs m) (hperm : ys.Perm xs)
    (hclass : ys.filter (equivalent lt m) = xs.filter (equivalent lt m)) :
    EarliestMaximum lt ys m := by
  obtain ⟨hnot, hfind⟩ := iff_find?.mp h
  refine iff_find?.mpr ⟨fun z hz => hnot z (hperm.mem_iff.mp hz), ?_⟩
  rw [← List.head?_filter, hclass, List.head?_filter]
  exact hfind

omit [IsStrictWeakOrder α (fun a b => lt a b)] in
/-- Behind the first maximum of a sorted list all are maxima. -/
theorem beginsLastBlock (h : EarliestMaximum lt ys m)
    (hsorted : ys.Pairwise (notAfter lt · ·)) : BeginsLastBlock lt ys m := by
  obtain ⟨before, after, rfl, hbefore, hafter⟩ := h
  refine ⟨before, after, rfl, hbefore, fun z hz => ?_⟩
  have hmz := List.rel_of_pairwise_cons (List.pairwise_append.mp hsorted).2.1 hz
  simpa [equivalent, hafter z hz, notAfter] using hmz

omit [IsStrictWeakOrder α (fun a b => lt a b)] in
/-- In front of the first minimum of a sorted list there is nothing. -/
theorem head?_eq (h : EarliestMaximum (fun a b => lt b a) ys m)
    (hsorted : ys.Pairwise (notAfter lt · ·)) : ys.head? = some m := by
  obtain ⟨before, after, rfl, hbefore, _⟩ := h
  cases before with
  | nil => rfl
  | cons z before =>
      have hzm : notAfter lt z m := List.rel_of_pairwise_cons hsorted (by simp)
      have hmz := hbefore z (List.mem_cons_self ..)
      simp [notAfter, hmz] at hzm

end EarliestMaximum

/-- The scan takes another element only if it is greater than the best so far. -/
theorem earliest_maximum (x : α) (xs : List α) :
    EarliestMaximum lt (x :: xs) (maximum lt x xs) := by
  induction xs generalizing x with
  | nil => exact ⟨[], [], rfl, by simp, by simp⟩
  | cons y xs ih =>
      rw [maximum, List.foldl_cons, ← maximum]
      split
      case isTrue hxy =>
          have hy := (ih y).not_lt (List.mem_cons_self ..)
          exact (ih y).cons (lt_of_lt_of_not hxy hy)
      case isFalse hxy => exact (ih x).skip (by simpa using hxy)

theorem earliest_minimum (x : α) (xs : List α) :
    EarliestMaximum (fun a b => lt b a) (x :: xs) (minimum lt x xs) := by
  have hswap : IsStrictWeakOrder α (fun a b => lt b a) :=
    inferInstanceAs (IsStrictWeakOrder α (Function.swap fun a b => (lt a b : Prop)))
  exact earliest_maximum x xs

end Order

/-! ### On lists in memory -/

section Memory

variable [DecidableEq α]

/-- **Extremes agree with sorting.** `list_min` returns the node that `list_sort` places first,
and `list_max` the first of the last block of equivalent nodes, the earliest maximum of the
list; neither changes a link. -/
theorem extremes_eq_sort (h : Heap α) (list : CList α) (x : α) (xs : List α)
    (less : Ptr α → Ptr α → Option Bool) (lt : α → α → Bool)
    [IsStrictWeakOrder α (fun a b => lt a b)] (fuel : Nat) (hl : IsList h list (x :: xs))
    (hless : Decides less lt (x :: xs)) (hfuel : (x :: xs).length < fuel) :
    ∃ h' ys min max, (listSort less fuel list).run h = some ((), h') ∧ IsList h' list ys ∧
      (listMin less fuel list).run h = some (some min, h) ∧ ys.head? = some min ∧
      (listMax less fuel list).run h = some (some max, h) ∧ BeginsLastBlock lt ys max ∧
      EarliestMaximum lt (x :: xs) max := by
  obtain ⟨h', ys, hsort, hlist, hrearr, hsorted, _⟩ := run_listSort hl hless hfuel
  have hshort : xs.length < fuel := Nat.lt_of_succ_lt hfuel
  have hclass (a : α) := Rearranged.equivalent hrearr a
  have hmax : EarliestMaximum lt (x :: xs) (maximum lt x xs) := earliest_maximum x xs
  have hmin : EarliestMaximum (fun a b => lt b a) ys (minimum lt x xs) := by
    have hswap : IsStrictWeakOrder α (fun a b => lt b a) :=
      inferInstanceAs (IsStrictWeakOrder α (Function.swap fun a b => (lt a b : Prop)))
    refine (earliest_minimum x xs).rearranged hrearr.perm ?_
    rw [equivalent_swap]
    exact hclass _
  exact ⟨h', ys, minimum lt x xs, maximum lt x xs, hsort, hlist, run_listMin hl hless hshort,
    hmin.head?_eq hsorted, run_listMax hl hless hshort,
    (hmax.rearranged hrearr.perm (hclass _)).beginsLastBlock hsorted, hmax⟩

/-- Five nodes with three keys: 3 is the first with the least key, 5 the first with the
greatest. -/
theorem extremes_eq_sort_threeKeys :
    ∃ h' ys min max, (listSort (comparing (byKey (· % 3))) 6 ⟨0, 1⟩).run
        (memoryOf [(⟨0, 1⟩, [5, 3, 2, 4, 6])]) = some ((), h') ∧ IsList h' ⟨0, 1⟩ ys ∧
      (listMin (comparing (byKey (· % 3))) 6 ⟨0, 1⟩).run (memoryOf [(⟨0, 1⟩, [5, 3, 2, 4, 6])]) =
        some (some min, memoryOf [(⟨0, 1⟩, [5, 3, 2, 4, 6])]) ∧ ys.head? = some min ∧
      (listMax (comparing (byKey (· % 3))) 6 ⟨0, 1⟩).run (memoryOf [(⟨0, 1⟩, [5, 3, 2, 4, 6])]) =
        some (some max, memoryOf [(⟨0, 1⟩, [5, 3, 2, 4, 6])]) ∧
      BeginsLastBlock (byKey (· % 3)) ys max ∧
      EarliestMaximum (byKey (· % 3)) [5, 3, 2, 4, 6] max :=
  extremes_eq_sort _ ⟨0, 1⟩ 5 [3, 2, 4, 6] _ (byKey (· % 3)) 6
    (isList_memoryOf (by decide) _ (List.mem_singleton_self _)) (decides_comparing _ _)
    (by decide)

end Memory

end SystemProgramming.Testlib
