import SystemProgramming.Library.SortedRuns
import SystemProgramming.Testlib.ListSpec

/-!
`list_sort` and the functions below it.

The cursors `a0`, `a1b0` and `b1` cut the list into what is done, two runs and
the rest. Every move of the merge is one splice inside the list; a pass over
the list halves the number of its runs, so there is a pass with a single run,
and the list is sorted then.
-/

namespace SystemProgramming.Testlib

open SystemProgramming.Library

variable {α : Type} {h : Heap α} {list : CList α} {xs P Q X Y S : List α} {x y : α}

/-- `less` is defined for the elements `xs`, and compares them by `lt`. -/
def Decides (less : Ptr α → Ptr α → Option Bool) (lt : α → α → Bool) (xs : List α) : Prop :=
  ∀ x ∈ xs, ∀ y ∈ xs, less (some x) (some y) = some (lt x y)

theorem Decides.mono {less : Ptr α → Ptr α → Option Bool} {lt : α → α → Bool} {ys : List α}
    (hless : Decides less lt xs) (hsub : ∀ y ∈ ys, y ∈ xs) : Decides less lt ys :=
  fun x hx y hy => hless x (hsub x hx) y (hsub y hy)

/-- Two cursors meet only if there is nothing between them. -/
theorem IsList.first_eq_first_iff (hl : IsList h list (P ++ (X ++ S))) :
    first (X ++ S) (some list.tail) = first S (some list.tail) ↔ X = [] := by
  cases X with
  | nil => simp
  | cons x X =>
      have hne : some x ≠ first S (some list.tail) := by
        cases S with
        | nil => simpa using hl.ne_tail (x := x) (by simp)
        | cons s S =>
            have hnodup := (List.nodup_append.mp hl.nodup_elems).2.1
            rw [List.cons_append, List.nodup_cons] at hnodup
            simpa using fun heq : x = s => hnodup.1 (by simp [heq])
      simpa using hne

/-- `list_next` and back. -/
theorem run_listNext_listPrev (hl : IsList h list (P ++ x :: y :: Q)) :
    (listNext (some x)).run h = some (some y, h) ∧
      (listPrev (some y)).run h = some (some x, h) := by
  have hprev := run_listPrev_at (show IsList h list ((P ++ [x]) ++ y :: Q) by simpa using hl)
  rw [last_concat] at hprev
  exact ⟨run_listNext_at hl, hprev⟩

section Ordered

variable [DecidableEq α] {less : Ptr α → Ptr α → Option Bool} {lt : α → α → Bool}

theorem run_isSortedLoop {fuel : Nat} (hl : IsList h list (P ++ (x :: X ++ S)))
    (hless : Decides less lt (x :: X)) (hsorted : (x :: X).Pairwise (notAfter lt · ·))
    (hfuel : X.length < fuel) :
    (isSortedLoop less (first S (some list.tail)) fuel (some x)).run h = some (true, h) := by
  induction fuel generalizing P x X with
  | zero => exact absurd hfuel (Nat.not_lt_zero _)
  | succ fuel ih =>
      have hnext := run_listNext_at (show IsList h list (P ++ x :: (X ++ S)) from hl)
      rw [isSortedLoop, run_bind_of hnext]
      cases X with
      | nil => simp
      | cons y X =>
          have hl' : IsList h list ((P ++ [x]) ++ (y :: X ++ S)) := by simpa using hl
          have hne : first (y :: X ++ S) (some list.tail) ≠ first S (some list.tail) := fun heq =>
            List.cons_ne_nil _ _ (hl'.first_eq_first_iff.mp heq)
          have hxy : lt y x = false := by
            simpa [notAfter] using List.rel_of_pairwise_cons hsorted (List.mem_cons_self ..)
          have hcall : less (some y) (some x) = some false :=
            hxy ▸ hless y (by simp) x (by simp)
          have hprev := (run_listNext_listPrev (show IsList h list (P ++ x :: y :: (X ++ S)) from
            hl)).2
          have hrest := ih hl' (hless.mono fun z hz => by simp [hz])
            (List.pairwise_cons.mp hsorted).2 (by simpa using hfuel)
          rw [if_neg hne, List.cons_append, first_cons, run_bind_of hprev]
          simpa [hcall] using hrest

theorem run_isSorted {fuel : Nat} (hl : IsList h list (P ++ (X ++ S)))
    (hless : Decides less lt X) (hsorted : X.Pairwise (notAfter lt · ·))
    (hfuel : X.length ≤ fuel) :
    (isSorted less fuel (first (X ++ S) (some list.tail)) (first S (some list.tail))).run h =
      some (true, h) := by
  rw [isSorted]
  cases X with
  | nil => simp
  | cons x X =>
      rw [if_pos fun heq => List.cons_ne_nil _ _ (hl.first_eq_first_iff.mp heq)]
      exact run_isSortedLoop hl hless hsorted hfuel

theorem run_findEndOfRunLoop {fuel : Nat} (hl : IsList h list (P ++ x :: X))
    (hless : Decides less lt (x :: X)) (hfuel : X.length < fuel) :
    (findEndOfRunLoop less (listEnd list) fuel (some x)).run h =
      some (first (afterRun (notAfter lt) x X) (some list.tail), h) := by
  induction fuel generalizing P x X with
  | zero => exact absurd hfuel (Nat.not_lt_zero _)
  | succ fuel ih =>
      rw [findEndOfRunLoop, run_bind_of (run_listNext_at hl)]
      cases X with
      | nil => simp [listEnd, afterRun]
      | cons y X =>
          have hne : some y ≠ listEnd list := by
            simpa [listEnd] using hl.ne_tail (x := y) (by simp)
          have hcall : less (some y) (some x) = some (lt y x) := hless y (by simp) x (by simp)
          rw [first_cons, if_neg hne, run_bind_of (run_listNext_listPrev hl).2, afterRun]
          cases hyx : lt y x with
          | false =>
              have hrest := ih (show IsList h list ((P ++ [x]) ++ y :: X) by simpa using hl)
                (hless.mono fun z hz => by simp [List.mem_cons.mp hz]) (by simpa using hfuel)
              simpa [hcall, hyx, notAfter] using hrest
          | true => simp [hcall, hyx, notAfter]

theorem run_findEndOfRun {fuel : Nat} (hl : IsList h list (P ++ x :: X))
    (hless : Decides less lt (x :: X)) (hfuel : X.length < fuel) :
    (findEndOfRun less fuel (some x) (listEnd list)).run h =
      some (first (afterRun (notAfter lt) x X) (some list.tail), h) := by
  have hne : x ≠ list.tail := hl.ne_tail (by simp)
  simpa [findEndOfRun, hne, listEnd] using run_findEndOfRunLoop hl hless hfuel

omit [DecidableEq α] in
theorem row_perm {xs ys : List α} (hperm : xs.Perm ys) (list : CList α) :
    (list.row xs).Perm (list.row ys) :=
  (hperm.append_right _).cons _

/-- The splice of `inplace_merge`: `y`, behind the cursor at `X`, goes in front of it. -/
theorem run_moveBack (hl : IsList h list (P ++ (X ++ y :: Q))) :
    (listPrev (first Q (some list.tail))).run h = some (some y, h) ∧
      ∃ h', (listSplice (first (X ++ Q) (some list.tail)) (some y)
            (first Q (some list.tail))).run h = some ((), h') ∧
        IsList h' list (P ++ y :: (X ++ Q)) ∧
        h.SameOff (list.row (P ++ (X ++ y :: Q))) h' := by
  have hsplit : P ++ (X ++ y :: Q) = (P ++ X) ++ [y] ++ Q := by simp
  have hprev := run_listPrev_at (show IsList h list ((P ++ X ++ [y]) ++ Q) by simpa using hl)
  rw [last_concat] at hprev
  have hmove := run_listSplice_same (hsplit ▸ hl) List.head?_cons (List.append_assoc P X Q)
  rw [List.append_assoc P [y], List.singleton_append, ← hsplit] at hmove
  exact ⟨hprev, hmove⟩

theorem run_inplaceMergeLoop {fuel : Nat} (hl : IsList h list (P ++ (X ++ (Y ++ S))))
    (hless : Decides less lt (X ++ Y)) (hfuel : X.length + Y.length < fuel) :
    ∃ h', (inplaceMergeLoop less (first S (some list.tail)) fuel
          (first (X ++ (Y ++ S)) (some list.tail)) (first (Y ++ S) (some list.tail))).run h =
        some ((), h') ∧
      IsList h' list (P ++ (X.merge Y (notAfter lt) ++ S)) ∧
      h.SameOff (list.row (P ++ (X ++ (Y ++ S)))) h' := by
  induction fuel generalizing h P X Y with
  | zero => exact absurd hfuel (Nat.not_lt_zero _)
  | succ fuel ih =>
      have hX := hl.first_eq_first_iff
      have hY := (show IsList h list ((P ++ X) ++ (Y ++ S)) by simpa using hl).first_eq_first_iff
      rw [inplaceMergeLoop]
      rcases X with _ | ⟨x, X⟩
      · refine ⟨h, by simp, by simpa using hl, .refl _ h⟩
      rcases Y with _ | ⟨y, Y⟩
      · refine ⟨h, by simp, by simpa using hl, .refl _ h⟩
      have hcall : less (some y) (some x) = some (lt y x) := hless y (by simp) x (by simp)
      rw [if_pos ⟨fun heq => List.cons_ne_nil _ _ (hX.mp heq),
        fun heq => List.cons_ne_nil _ _ (hY.mp heq)⟩, List.cons_merge_cons]
      cases hyx : lt y x with
      | false =>
          -- `x` stays in front
          obtain ⟨h', hrun, hlist, hsame⟩ := ih
            (show IsList h list ((P ++ [x]) ++ (X ++ (y :: Y ++ S))) by simpa using hl)
            (hless.mono fun z hz => List.mem_cons_of_mem _ hz)
            (by simp only [List.length_cons] at hfuel ⊢; omega)
          have hnext := run_listNext_at (show IsList h list (P ++ x :: (X ++ (y :: Y ++ S))) from
            hl)
          refine ⟨h', ?_, by simpa [notAfter, hyx] using hlist, by simpa using hsame⟩
          simpa [hcall, hyx, hnext] using hrun
      | true =>
          -- `y` goes in front of `x`
          have hnext := run_listNext_at
            (show IsList h list ((P ++ x :: X) ++ y :: (Y ++ S)) by simpa using hl)
          obtain ⟨hprev, h₁, hmove, hlist₁, hsame₁⟩ := run_moveBack
            (show IsList h list (P ++ (x :: X ++ y :: (Y ++ S))) from hl)
          obtain ⟨h', hrun, hlist, hsame⟩ := ih
            (show IsList h₁ list ((P ++ [y]) ++ (x :: X ++ (Y ++ S))) by simpa using hlist₁)
            (hless.mono fun z hz => by
              simp only [List.mem_append, List.mem_cons] at hz ⊢
              tauto)
            (by simp only [List.length_cons] at hfuel ⊢; omega)
          refine ⟨h', ?_, by simpa [notAfter, hyx] using hlist, ?_⟩
          · simp only [first_append, first_cons] at hnext hprev hmove hrun
            simpa [hcall, hyx, hnext, hprev, hmove] using hrun
          · refine hsame₁.trans (hsame.mono fun z hz => ?_)
            simp only [CList.mem_row, List.mem_append, List.mem_cons] at hz ⊢
            tauto

theorem run_inplaceMerge {fuel : Nat} (hl : IsList h list (P ++ (X ++ (Y ++ S))))
    (hless : Decides less lt (X ++ Y)) (hX : X.Pairwise (notAfter lt · ·))
    (hY : Y.Pairwise (notAfter lt · ·)) (hfuel : X.length + Y.length < fuel) :
    ∃ h', (inplaceMerge less fuel (first (X ++ (Y ++ S)) (some list.tail))
          (first (Y ++ S) (some list.tail)) (first S (some list.tail))).run h = some ((), h') ∧
      IsList h' list (P ++ (X.merge Y (notAfter lt) ++ S)) ∧
      h.SameOff (list.row (P ++ (X ++ (Y ++ S)))) h' := by
  obtain ⟨a0, ha0⟩ := first_some (X ++ (Y ++ S)) list.tail
  obtain ⟨a1b0, ha1b0⟩ := first_some (Y ++ S) list.tail
  obtain ⟨b1, hb1⟩ := first_some S list.tail
  have hsortedX := run_isSorted hl (hless.mono fun z hz => List.mem_append_left _ hz) hX
    (show X.length ≤ fuel by omega)
  have hsortedY := run_isSorted
    (show IsList h list ((P ++ X) ++ (Y ++ S)) by simpa using hl)
    (hless.mono fun z hz => List.mem_append_right _ hz) hY (show Y.length ≤ fuel by omega)
  have hloop := run_inplaceMergeLoop hl hless hfuel
  rw [ha0, ha1b0] at hsortedX
  rw [ha1b0, hb1] at hsortedY
  rw [ha0, ha1b0, hb1] at hloop ⊢
  simpa [inplaceMerge, hsortedX, hsortedY] using hloop

variable [IsStrictWeakOrder α (fun a b => lt a b)]

/-- One pass rearranges the list and merges its runs two by two. -/
theorem run_listSortPass {fuel rounds : Nat} (hl : IsList h list (P ++ xs))
    (hless : Decides less lt xs) (hrounds : xs.length < rounds) (hfuel : xs.length < fuel)
    (cnt : Nat) :
    ∃ h' ys, (listSortPass less list fuel rounds (first xs (some list.tail)) cnt).run h =
        some (cnt + (runs (notAfter lt) xs + 1) / 2, h') ∧
      IsList h' list (P ++ ys) ∧ Rearranged (notAfter lt) xs ys ∧
      runs (notAfter lt) ys ≤ (runs (notAfter lt) xs + 1) / 2 ∧
      h.SameOff (list.row (P ++ xs)) h' := by
  induction rounds generalizing h P xs cnt with
  | zero => exact absurd hrounds (Nat.not_lt_zero _)
  | succ rounds ih =>
      rw [listSortPass]
      rcases xs with _ | ⟨x, X⟩
      · exact ⟨h, [], by simp [runs, listEnd], hl, .refl _, by simp [runs], .refl _ h⟩
      have hend : first (x :: X) (some list.tail) ≠ listEnd list := by
        simpa [listEnd] using hl.ne_tail (x := x) (by simp)
      have hsplit := run_append_afterRun (notAfter lt) x X
      have hrunX := pairwise_run (notAfter_trans lt) x X
      have hfind := run_findEndOfRun hl hless (show X.length < fuel by simp at hfuel; omega)
      rw [if_neg hend, runs_cons, first_cons]
      generalize hR : run (notAfter lt) x X = R at hsplit hrunX
      rcases hrest : afterRun (notAfter lt) x X with _ | ⟨y, Y⟩
      · -- the last run is alone
        rw [hrest] at hfind
        refine ⟨h, x :: X, ?_, hl, .refl _, ?_, .refl _ h⟩
        · rw [run_bind_of hfind]
          simp [runs, listEnd]
        · rw [runs_cons, hrest]
          simp [runs]
      rw [hrest] at hfind hsplit
      have hsplitY := run_append_afterRun (notAfter lt) y Y
      have hrunY := pairwise_run (notAfter_trans lt) y Y
      generalize hT : run (notAfter lt) y Y = T at hsplitY hrunY
      generalize hS : afterRun (notAfter lt) y Y = S at hsplitY
      -- the list in its pieces: two runs and the rest
      have hpieces : x :: X = (x :: R) ++ ((y :: T) ++ S) := by
        rw [List.cons_append, List.cons_append, hsplitY, hsplit]
      have hlength := congrArg List.length hpieces
      simp only [List.length_append] at hlength
      have hl₁ : IsList h list (P ++ ((x :: R) ++ ((y :: T) ++ S))) := hpieces ▸ hl
      have hless₁ : Decides less lt ((x :: R) ++ ((y :: T) ++ S)) := hpieces ▸ hless
      have hend' : some y ≠ listEnd list := by
        simpa [listEnd] using hl₁.ne_tail (x := y) (by simp)
      have hfind' := run_findEndOfRun
        (show IsList h list ((P ++ x :: R) ++ y :: Y) by simpa [← hsplitY] using hl₁)
        (hless₁.mono fun z hz => by
          rw [← hsplitY, ← List.cons_append] at hz
          exact List.mem_append_right _ hz)
        (show Y.length < fuel by
          have := congrArg List.length hsplitY
          simp only [List.length_append, List.length_cons] at this hlength hfuel
          omega)
      obtain ⟨h₁, hmerge, hlist₁, hsame₁⟩ := run_inplaceMerge hl₁
        (hless₁.mono fun z hz => by
          simp only [List.mem_append] at hz ⊢
          tauto)
        hrunX hrunY (show (x :: R).length + (y :: T).length < fuel by omega)
      have hmem (z : α) : z ∈ (x :: R).merge (y :: T) (notAfter lt) ↔
          z ∈ x :: R ∨ z ∈ y :: T := List.mem_merge
      generalize hM : (x :: R).merge (y :: T) (notAfter lt) = M at hlist₁ hmem
      obtain ⟨h', ys, hrun, hlist, hrearr, hruns, hsame⟩ := ih
        (show IsList h₁ list ((P ++ M) ++ S) by simpa using hlist₁)
        (hless₁.mono fun z hz => by simp [hz])
        (show S.length < rounds by simp only [List.length_cons] at hlength hrounds; omega)
        (show S.length < fuel by omega) (cnt + 1)
      have hcount : (runs (notAfter lt) (y :: Y) + 1 + 1) / 2 =
          1 + (runs (notAfter lt) S + 1) / 2 := by
        rw [runs_cons, hS]
        omega
      refine ⟨h', M ++ ys, ?_, by simpa using hlist, ?_, ?_, ?_⟩
      · simp only [first_append, first_cons] at hmerge hrun
        rw [run_bind_of hfind, first_cons, hcount, ← Nat.add_assoc, ← hrun]
        simp only [if_neg hend']
        rw [run_bind_of hfind', hS, run_bind_of hmerge]
      · rw [hpieces, ← List.append_assoc]
        exact (hM ▸ Rearranged.merge (notAfter_trans lt) hrunX).append hrearr
      · have hbound := runs_merge_append (notAfter_trans lt) (notAfter_total lt) hrunX hrunY ys
        rw [hM] at hbound
        omega
      · rw [hpieces]
        refine hsame₁.trans (hsame.mono fun z hz => ?_)
        simp only [CList.mem_row, List.mem_append, hmem] at hz ⊢
        tauto

theorem run_listSortLoop {fuel passes : Nat} (hl : IsList h list xs)
    (hless : Decides less lt xs) (hfuel : xs.length < fuel)
    (hpasses : runs (notAfter lt) xs < passes) :
    ∃ h' ys, (listSortLoop less list fuel passes).run h = some ((), h') ∧
      IsList h' list ys ∧ Rearranged (notAfter lt) xs ys ∧ ys.Pairwise (notAfter lt · ·) ∧
      h.SameOff (list.row xs) h' := by
  induction passes generalizing h xs with
  | zero => exact absurd hpasses (Nat.not_lt_zero _)
  | succ passes ih =>
      obtain ⟨h₁, ys, hrun, hlist, hrearr, hruns, hsame⟩ :=
        run_listSortPass (show IsList h list ([] ++ xs) from hl) hless hfuel hfuel 0
      rw [Nat.zero_add] at hrun
      rw [listSortLoop, run_bind_of (run_listBegin hl), run_bind_of hrun]
      by_cases hmore : (runs (notAfter lt) xs + 1) / 2 > 1
      · obtain ⟨h', zs, hrun', hlist', hrearr', hsorted, hsame'⟩ := ih
          (show IsList h₁ list ys from hlist)
          (hless.mono fun z hz => hrearr.perm.mem_iff.mp hz)
          (hrearr.perm.length_eq ▸ hfuel) (by omega)
        refine ⟨h', zs, ?_, hlist', hrearr.trans hrearr', hsorted, hsame.trans
          (hsame'.mono fun z hz => (row_perm hrearr.perm list).mem_iff.mp hz)⟩
        rw [if_pos hmore, hrun']
      · refine ⟨h₁, ys, by rw [if_neg hmore]; rfl, hlist, hrearr, ?_, hsame⟩
        exact (pairwise_iff_runs (notAfter_trans lt) ys).mpr (by omega)

/-- `list_sort` sorts, and keeps the order of elements that neither is less. -/
theorem run_listSort {fuel : Nat} (hl : IsList h list xs) (hless : Decides less lt xs)
    (hfuel : xs.length < fuel) :
    ∃ h' ys, (listSort less fuel list).run h = some ((), h') ∧
      IsList h' list ys ∧ Rearranged (notAfter lt) xs ys ∧ ys.Pairwise (notAfter lt · ·) ∧
      h.SameOff (list.row xs) h' := by
  have hruns := runs_le_length (notAfter lt) xs
  obtain ⟨h', ys, hrun, hlist, hrearr, hsorted, hsame⟩ :=
    run_listSortLoop hl hless hfuel (show runs (notAfter lt) xs < fuel by omega)
  have hlist' : IsList h' list ([] ++ (ys ++ [])) := by simpa using hlist
  have hcheck := run_isSorted hlist' (hless.mono fun z hz => hrearr.perm.mem_iff.mp hz) hsorted
    (show ys.length ≤ fuel by rw [hrearr.perm.length_eq]; omega)
  refine ⟨h', ys, ?_, hlist, hrearr, hsorted, hsame⟩
  rw [listSort, run_bind_of hrun, run_bind_of (run_listBegin hlist)]
  simp only [List.append_nil, first_nil] at hcheck
  rw [listEnd, run_bind_of hcheck]
  rfl

end Ordered

end SystemProgramming.Testlib
