import SystemProgramming.Testlib.ListFamily
import SystemProgramming.Testlib.ListOrdered

/-!
Sorted orders. `list_sort` gives the one order that is sorted and keeps the
elements none of which is less in the order they had, and so does
`list_insert_ordered` when the elements come one by one. Both change the links
of the list only, so that the two ways end in the same memory.
-/

namespace SystemProgramming.Testlib

open SystemProgramming.Library

variable {α : Type} [DecidableEq α] {h h' : Heap α} {list : CList α} {xs es : List α} {e : α}
  {less : Ptr α → Ptr α → Option Bool} {lt : α → α → Bool}

/-- A `list_less_func` that is defined for all elements. -/
def comparing (lt : α → α → Bool) (a b : Ptr α) : Option Bool := do return lt (← a) (← b)

omit [DecidableEq α] in
theorem decides_comparing (lt : α → α → Bool) (xs : List α) : Decides (comparing lt) lt xs :=
  fun _ _ _ _ => rfl

/-- Neither element is less. -/
def equivalent (lt : α → α → Bool) (x y : α) : Bool := !lt x y && !lt y x

omit [DecidableEq α] in
theorem Rearranged.equivalent {ys : List α} (hrearr : Rearranged (notAfter lt) xs ys) (a : α) :
    ys.filter (equivalent lt a) = xs.filter (equivalent lt a) := by
  have hclass : (fun b => notAfter lt a b && notAfter lt b a) = Testlib.equivalent lt a := by
    funext b
    exact Bool.and_comm _ _
  exact hclass ▸ hrearr.stable a

omit [DecidableEq α] in
/-- The links outside of the list and the order of its elements make the memory. -/
theorem IsList.heap_eq {S : List α} {h₁ h₂ : Heap α} (hl₁ : IsList h₁ list xs)
    (hl₂ : IsList h₂ list xs) (h₁off : h.SameOff S h₁) (h₂off : h.SameOff S h₂)
    (hS : ∀ x ∈ S, x ∈ list.row xs) : h₁ = h₂ :=
  (h₁off.mono hS).eq_of_seg (h₂off.mono hS) hl₁.seg hl₂.seg

section Ordered

variable [IsStrictWeakOrder α (fun a b => lt a b)] {fuel : Nat}

/-- `list_sort` ends, no `ASSERT` fails on the way, and the list holds the same elements,
sorted, with the equivalent ones in their old order. -/
theorem listSort_stable (hl : IsList h list xs) (hless : Decides less lt xs)
    (hfuel : xs.length < fuel) :
    ∃ h' ys, (listSort less fuel list).run h = some ((), h') ∧ IsList h' list ys ∧
      ys.Perm xs ∧ ys.Pairwise (fun x y => lt y x = false) ∧
      (∀ a, ys.filter (equivalent lt a) = xs.filter (equivalent lt a)) ∧
      h.SameOff (list.row xs) h' := by
  obtain ⟨h', ys, hrun, hlist, hrearr, hsorted, hsame⟩ := run_listSort hl hless hfuel
  refine ⟨h', ys, hrun, hlist, hrearr.perm, hsorted.imp ?_, Rearranged.equivalent hrearr, hsame⟩
  intro x y hxy
  simpa [notAfter] using hxy

/-- Five nodes with three keys. -/
theorem listSort_stable_threeKeys :
    ∃ h' ys, (listSort (comparing (byKey (· % 3))) 6 ⟨0, 1⟩).run
        (memoryOf [(⟨0, 1⟩, [5, 3, 2, 4, 6])]) = some ((), h') ∧ IsList h' ⟨0, 1⟩ ys ∧
      ys.Perm [5, 3, 2, 4, 6] ∧ ys.Pairwise (fun x y => byKey (· % 3) y x = false) ∧
      (∀ a, ys.filter (equivalent (byKey (· % 3)) a) =
        [5, 3, 2, 4, 6].filter (equivalent (byKey (· % 3)) a)) ∧
      (memoryOf [(⟨0, 1⟩, [5, 3, 2, 4, 6])]).SameOff (CList.row ⟨0, 1⟩ [5, 3, 2, 4, 6]) h' :=
  listSort_stable (isList_memoryOf (by decide) _ (List.mem_singleton_self _))
    (decides_comparing _ _) (by decide)

/-! ### One by one -/

/-- `list_insert_ordered` for each element. -/
def insertEach (less : Ptr α → Ptr α → Option Bool) (fuel : Nat) (list : CList α) (es : List α) :
    Prog α Unit :=
  forM es fun e => listInsertOrdered less fuel list (some e)

/-- `list_push_back` for each element, and then `list_sort`. -/
def pushEachAndSort (less : Ptr α → Ptr α → Option Bool) (fuel : Nat) (list : CList α)
    (es : List α) : Prog α Unit := do
  forM es fun e => listPushBack list (some e)
  listSort less fuel list

end Ordered

omit [DecidableEq α] in
theorem row_append_perm (list : CList α) (xs es : List α) :
    (list.row (xs ++ es)).Perm (es ++ list.row xs) := by
  have hmid : (list.head :: (xs ++ (es ++ [list.tail]))).Perm
      (es ++ list.head :: (xs ++ [list.tail])) :=
    ((List.perm_append_comm_assoc xs es [list.tail]).cons list.head).trans List.perm_middle.symm
  simpa only [CList.row, List.cons_append, List.append_assoc] using hmid

omit [DecidableEq α] in
/-- A program that puts one element into the list, run for each of `es`. -/
theorem run_each (step : α → Prog α Unit) (place : List α → α → List α) {T : List α} {fuel : Nat}
    (hplace : ∀ xs e, (place xs e).Perm (xs ++ [e]))
    (hstep : ∀ h xs e, IsList h list xs → (h e).isSome = true → e ∉ list.row xs →
      (∀ z ∈ e :: xs, z ∈ T) → xs.length < fuel → ∃ h', (step e).run h = some ((), h') ∧
        IsList h' list (place xs e) ∧ h.SameOff (e :: list.row xs) h')
    (hl : IsList h list xs) (halloc : ∀ e ∈ es, (h e).isSome = true)
    (hnodup : (list.row (xs ++ es)).Nodup) (hT : ∀ z ∈ xs ++ es, z ∈ T)
    (hfuel : (xs ++ es).length ≤ fuel) :
    ∃ h', (forM es step).run h = some ((), h') ∧ IsList h' list (es.foldl place xs) ∧
      h.SameOff (list.row (xs ++ es)) h' := by
  induction es generalizing h xs with
  | nil => exact ⟨h, rfl, hl, .refl _ h⟩
  | cons e es ih =>
      have hsplit := (row_append_perm list xs (e :: es)).nodup_iff.mp hnodup
      obtain ⟨hes, _, hdisj⟩ := List.nodup_append.mp hsplit
      obtain ⟨h₁, hrun₁, hl₁, hsame₁⟩ := hstep h xs e hl (halloc e (by simp))
        (fun hmem => hdisj e (by simp) e hmem rfl)
        (fun z hz => hT z (by simp at hz ⊢; tauto)) (by simp at hfuel; omega)
      have hperm : (place xs e ++ es).Perm (xs ++ e :: es) := by
        simpa using (hplace xs e).append_right es
      have hrow (z : α) : z ∈ list.row (place xs e ++ es) ↔ z ∈ list.row (xs ++ e :: es) :=
        (row_perm hperm list).mem_iff
      obtain ⟨h', hrun, hlist, hsame⟩ := ih hl₁
        (fun z hz => by
          rw [hsame₁ z fun hmem => ?_]
          · exact halloc z (by simp [hz])
          · rcases List.mem_cons.mp hmem with rfl | hmem
            · exact (List.nodup_cons.mp hes).1 hz
            · exact hdisj z (by simp [hz]) z hmem rfl)
        ((row_perm hperm list).nodup_iff.mpr hnodup)
        (fun z hz => hT z (hperm.mem_iff.mp hz)) (hperm.length_eq ▸ hfuel)
      refine ⟨h', ?_, hlist, (hsame₁.mono fun z hz => ?_).trans (hsame.mono fun z hz => ?_)⟩
      · rw [List.forM_cons, run_bind_of hrun₁, hrun]
      · refine (row_append_perm list xs (e :: es)).mem_iff.mpr ?_
        simp at hz ⊢
        tauto
      · exact (hrow z).mp hz

omit [DecidableEq α] in
theorem foldl_concat (xs es : List α) : es.foldl (fun xs e => xs ++ [e]) xs = xs ++ es := by
  induction es generalizing xs with
  | nil => simp
  | cons e es ih => simp [ih]

section Ordered

variable [IsStrictWeakOrder α (fun a b => lt a b)] {fuel : Nat}

/-- Both ways of bringing the elements `es` into a sorted list give the same memory. -/
theorem run_insertEach_eq (es : List α) (hl : IsList h list xs)
    (hsorted : xs.Pairwise (notAfter lt · ·)) (halloc : ∀ e ∈ es, (h e).isSome = true)
    (hnodup : (list.row (xs ++ es)).Nodup) (hless : Decides less lt (xs ++ es))
    (hfuel : (xs ++ es).length < fuel) :
    ∃ h', (insertEach less fuel list es).run h = some ((), h') ∧
      (pushEachAndSort less fuel list es).run h = some ((), h') ∧
      IsList h' list (es.foldl (place (notAfter lt)) xs) := by
  obtain ⟨h₁, hrun₁, hlist₁, hsame₁⟩ := run_each
    (fun e => listInsertOrdered less fuel list (some e)) (place (notAfter lt)) place_perm
    (fun h xs e hl he hnot hT hlen => run_listInsertOrdered hl (hless.mono hT) he hnot hlen)
    hl halloc hnodup (fun z hz => hz) hfuel.le
  obtain ⟨h₂, hrun₂, hlist₂, hsame₂⟩ := run_each
    (fun e => listPushBack list (some e)) (fun xs e => xs ++ [e]) (fun _ _ => .refl _)
    (fun h xs e hl he hnot _ _ => run_listPushBack hl he hnot) hl halloc hnodup (fun z hz => hz)
    hfuel.le
  rw [foldl_concat] at hlist₂
  obtain ⟨h₃, ys, hrun₃, hlist₃, hrearr, hys, hsame₃⟩ := run_listSort hlist₂ hless hfuel
  obtain ⟨hrearr', hplaced⟩ := rearranged_placeEach (notAfter_trans lt) (notAfter_total lt)
    hsorted es
  have heq : es.foldl (place (notAfter lt)) xs = ys :=
    (hrearr'.symm.trans hrearr).eq_of_pairwise (by simpa using fun a => notAfter_total lt a a)
      hplaced hys
  subst heq
  have hheap : h₁ = h₃ := hlist₁.heap_eq hlist₃ hsame₁ (hsame₂.trans hsame₃) fun z hz =>
    (row_perm hrearr.perm list).mem_iff.mpr hz
  refine ⟨h₁, hrun₁, ?_, hlist₁⟩
  rw [pushEachAndSort, run_bind_of hrun₂, hheap]
  exact hrun₃

/-- Nodes that `list_insert_ordered` brings into an empty list one by one stand as if they had
been appended and the list sorted then; and so does one node brought into a sorted list. -/
theorem insertOrdered_eq_sort (h : Heap α) (list : CList α) (xs es : List α) (e : α)
    (less : Ptr α → Ptr α → Option Bool) (lt : α → α → Bool)
    [IsStrictWeakOrder α (fun a b => lt a b)] (fuel : Nat) :
    (IsList h list [] → (∀ e ∈ es, (h e).isSome = true) → (list.row es).Nodup →
      Decides less lt es → es.length < fuel →
      ∃ h' ys, (insertEach less fuel list es).run h = some ((), h') ∧
        (pushEachAndSort less fuel list es).run h = some ((), h') ∧
        IsList h' list ys ∧ ys.Perm es) ∧
    (IsList h list xs → xs.Pairwise (fun x y => lt y x = false) → (h e).isSome = true →
      e ∉ list.row xs → Decides less lt (xs ++ [e]) → xs.length + 1 < fuel →
      ∃ h' ys, (listInsertOrdered less fuel list (some e)).run h = some ((), h') ∧
        (do listPushBack list (some e); listSort less fuel list).run h = some ((), h') ∧
        IsList h' list ys ∧ ys.Perm (xs ++ [e])) := by
  refine ⟨fun hl halloc hnodup hless hfuel => ?_, fun hl hsorted he hnot hless hfuel => ?_⟩
  · obtain ⟨h', hinsert, hsort, hlist⟩ := run_insertEach_eq es hl .nil halloc hnodup hless hfuel
    exact ⟨h', _, hinsert, hsort, hlist, (rearranged_placeEach (notAfter_trans lt)
      (notAfter_total lt) .nil es).1.perm⟩
  · have hnodup : (list.row (xs ++ [e])).Nodup :=
      (row_append_perm list xs [e]).nodup_iff.mpr (List.nodup_cons.mpr ⟨hnot, hl.nodup⟩)
    obtain ⟨h', hinsert, hsort, hlist⟩ := run_insertEach_eq [e] hl
      (hsorted.imp fun {x y} hxy => by simpa [notAfter] using hxy) (by simpa using he) hnodup
      hless (by simpa using hfuel)
    refine ⟨h', _, ?_, ?_, hlist, place_perm xs e⟩
    · simpa [insertEach] using hinsert
    · simpa [pushEachAndSort] using hsort

end Ordered

theorem insertOrdered_eq_sort_threeKeys :
    (∃ h' ys, (insertEach (comparing (byKey (· % 3))) 6 ⟨0, 1⟩ [5, 3, 2, 4, 6]).run
          (memoryOf [(⟨0, 1⟩, [])]) = some ((), h') ∧
        (pushEachAndSort (comparing (byKey (· % 3))) 6 ⟨0, 1⟩ [5, 3, 2, 4, 6]).run
          (memoryOf [(⟨0, 1⟩, [])]) = some ((), h') ∧
        IsList h' ⟨0, 1⟩ ys ∧ ys.Perm [5, 3, 2, 4, 6]) ∧
    (∃ h' ys, (listInsertOrdered (comparing (byKey (· % 3))) 7 ⟨0, 1⟩ (some 7)).run
          (memoryOf [(⟨0, 1⟩, [3, 6, 4, 5, 2])]) = some ((), h') ∧
        (do listPushBack ⟨0, 1⟩ (some 7); listSort (comparing (byKey (· % 3))) 7 ⟨0, 1⟩).run
          (memoryOf [(⟨0, 1⟩, [3, 6, 4, 5, 2])]) = some ((), h') ∧
        IsList h' ⟨0, 1⟩ ys ∧ ys.Perm ([3, 6, 4, 5, 2] ++ [7])) :=
  ⟨(insertOrdered_eq_sort _ ⟨0, 1⟩ [] [5, 3, 2, 4, 6] 7 _ (byKey (· % 3)) 6).1
      (isList_memoryOf (by decide) _ (List.mem_singleton_self _)) (by decide) (by decide)
      (decides_comparing _ _) (by decide),
    (insertOrdered_eq_sort _ ⟨0, 1⟩ [3, 6, 4, 5, 2] [] 7 _ (byKey (· % 3)) 7).2
      (isList_memoryOf (by decide) _ (List.mem_singleton_self _)) (by decide) (by decide)
      (by decide) (decides_comparing _ _) (by decide)⟩

end SystemProgramming.Testlib
