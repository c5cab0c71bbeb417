import Mathlib.Data.List.Basic
import Mathlib.Data.List.TakeWhile
import Mathlib.Order.Defs.LinearOrder
import Mathlib.Order.Defs.Unbundled
import Mathlib.Order.Lattice

/-!
Sorting a list by its runs.

A run is a piece of the list in which no element is less than the one in front
of it. A natural merge sort finds two runs that stand side by side, merges
them, and repeats this until one run is left. Everything here is about a total
and transitive `le`; elements that are `le` both ways need not be equal, and a
rearrangement must keep their order.
-/

namespace SystemProgramming.Library

variable {α : Type*} (le : α → α → Bool)

/-! ### Runs -/

/-- How many runs the list is made of. -/
def runs : List α → Nat
  | [] => 0
  | [_] => 1
  | x :: y :: xs => runs (y :: xs) + if le x y then 0 else 1

/-- The rest of the run that begins with `x`. -/
def run (x : α) : List α → List α
  | [] => []
  | y :: xs => if le x y then y :: run y xs else []

/-- What stands behind the run that begins with `x`. -/
def afterRun (x : α) : List α → List α
  | [] => []
  | y :: xs => if le x y then afterRun y xs else y :: xs

theorem run_append_afterRun (x : α) (xs : List α) : run le x xs ++ afterRun le x xs = xs := by
  induction xs generalizing x with
  | nil => rfl
  | cons y xs ih =>
      rw [run, afterRun]
      split
      · rw [List.cons_append, ih]
      · rfl

theorem runs_cons (x : α) (xs : List α) : runs le (x :: xs) = runs le (afterRun le x xs) + 1 := by
  induction xs generalizing x with
  | nil => rfl
  | cons y xs ih =>
      rw [runs, afterRun]
      split
      · exact ih y
      · rfl

theorem runs_eq_zero {xs : List α} : runs le xs = 0 ↔ xs = [] := by
  cases xs with
  | nil => simp [runs]
  | cons x xs => simp [runs_cons]

theorem runs_append (xs ys : List α) : runs le (xs ++ ys) ≤ runs le xs + runs le ys := by
  induction xs using runs.induct with
  | case1 => simp [runs]
  | case2 x =>
      cases ys with
      | nil => simp [runs]
      | cons y ys =>
          rw [List.singleton_append, runs, runs]
          split <;> omega
  | case3 x y xs ih =>
      rw [List.cons_append, List.cons_append, runs, runs]
      rw [List.cons_append] at ih
      omega

theorem runs_le_length (xs : List α) : runs le xs ≤ xs.length := by
  induction xs using runs.induct with
  | case1 => simp [runs]
  | case2 x => simp [runs]
  | case3 x y xs ih =>
      rw [runs, List.length_cons]
      split <;> omega

variable {le} (htrans : ∀ a b c, le a b → le b c → le a c)

include htrans in
/-- The run that begins with `x` is sorted. -/
theorem pairwise_run (x : α) (xs : List α) : (x :: run le x xs).Pairwise (le · ·) := by
  induction xs generalizing x with
  | nil => simp [run]
  | cons y xs ih =>
      rw [run]
      split
      case isTrue hxy =>
          refine List.pairwise_cons.mpr ⟨fun z hz => ?_, ih y⟩
          rcases List.mem_cons.mp hz with rfl | hz
          · exact hxy
          · exact htrans _ _ _ hxy (List.rel_of_pairwise_cons (ih y) hz)
      case isFalse => simp

include htrans in
/-- A list is sorted exactly if it is a single run. -/
theorem pairwise_iff_runs (xs : List α) : xs.Pairwise (le · ·) ↔ runs le xs ≤ 1 := by
  cases xs with
  | nil => simp [runs]
  | cons x xs =>
      have hsplit := run_append_afterRun le x xs
      have hempty : runs le (x :: xs) ≤ 1 ↔ afterRun le x xs = [] := by
        rw [runs_cons, ← runs_eq_zero le]
        omega
      rw [hempty]
      constructor
      · intro hsorted
        clear hsplit hempty
        induction xs generalizing x with
        | nil => rfl
        | cons y xs ih =>
            rw [afterRun, if_pos (List.rel_of_pairwise_cons hsorted (by simp))]
            exact ih y (List.pairwise_cons.mp hsorted).2
      · intro hrest
        rw [hrest, List.append_nil] at hsplit
        exact hsplit ▸ pairwise_run htrans x xs

/-! ### Strict weak orders -/

section StrictWeak

variable (lt : α → α → Bool)

/-- `x` may stand in front of `y`. -/
def notAfter (x y : α) : Bool := !lt y x

variable [IsStrictWeakOrder α (fun a b => lt a b)]

theorem lt_asymm_of {a b : α} (hab : lt a b) : lt b a = false :=
  Bool.eq_false_iff.mpr fun hba => asymm (r := fun a b => (lt a b : Prop)) hab hba

theorem notAfter_total (a b : α) : notAfter lt a b || notAfter lt b a := by
  cases hab : lt a b with
  | false => simp [notAfter, hab]
  | true => simp [notAfter, lt_asymm_of lt hab]

theorem notAfter_trans (a b c : α) (hab : notAfter lt a b) (hbc : notAfter lt b c) :
    notAfter lt a c := by
  simp only [notAfter, Bool.not_eq_eq_eq_not, Bool.not_true, Bool.eq_false_iff, ne_eq] at hab hbc ⊢
  intro hca
  have htrans {x y z : α} (hxy : lt x y) (hyz : lt y z) : lt x z :=
    trans_of (fun a b => (lt a b : Prop)) hxy hyz
  by_cases hab' : lt a b
  · exact hbc (htrans hca hab')
  · by_cases hbc' : lt b c
    · exact hab (htrans hbc' hca)
    · exact (@IsStrictWeakOrder.incomp_trans α (fun a b => lt a b) _ a b c ⟨hab', hab⟩
        ⟨hbc', hbc⟩).2 hca

end StrictWeak

/-- Elements are compared by their keys. -/
def byKey {β : Type*} [LinearOrder β] (key : α → β) (a b : α) : Bool := key a < key b

instance {β : Type*} [LinearOrder β] (key : α → β) :
    IsStrictWeakOrder α (fun a b => byKey key a b) where
  irrefl a := by simp [byKey]
  trans a b c hab hbc := by
    simp only [byKey, decide_eq_true_iff] at hab hbc ⊢
    exact lt_trans hab hbc
  incomp_trans a b c hab hbc := by
    simp only [byKey, decide_eq_true_iff, not_lt] at hab hbc ⊢
    exact ⟨le_trans hbc.1 hab.1, le_trans hab.2 hbc.2⟩

/-! ### Stable rearrangements -/

/-- `ys` has the elements of `xs`, and those of equal rank in the same order. -/
structure Rearranged (le : α → α → Bool) (xs ys : List α) : Prop where
  perm : ys.Perm xs
  stable : ∀ a, ys.filter (fun b => le a b && le b a) = xs.filter (fun b => le a b && le b a)

theorem Rearranged.refl (xs : List α) : Rearranged le xs xs := ⟨.refl _, fun _ => rfl⟩

theorem Rearranged.trans {xs ys zs : List α} (hxy : Rearranged le xs ys)
    (hyz : Rearranged le ys zs) : Rearranged le xs zs :=
  ⟨hyz.perm.trans hxy.perm, fun a => (hyz.stable a).trans (hxy.stable a)⟩

theorem Rearranged.append {xs xs' ys ys' : List α} (hx : Rearranged le xs xs')
    (hy : Rearranged le ys ys') : Rearranged le (xs ++ ys) (xs' ++ ys') :=
  ⟨hx.perm.append hy.perm, fun a => by rw [List.filter_append, List.filter_append, hx.stable,
    hy.stable]⟩

include htrans in
/-- Merging two sorted lists is a rearrangement of what they are in a row. -/
theorem Rearranged.merge {xs ys : List α} (hxs : xs.Pairwise (le · ·)) :
    Rearranged le (xs ++ ys) (xs.merge ys le) := by
  refine ⟨List.merge_perm_append le, fun a => ?_⟩
  induction xs generalizing ys with
  | nil => simp
  | cons x xs ihx =>
      induction ys with
      | nil => simp
      | cons y ys ihy =>
          rw [List.cons_merge_cons]
          split
          case isTrue =>
              rw [List.filter_cons, ihx (List.pairwise_cons.mp hxs).2, List.cons_append,
                List.filter_cons]
          case isFalse hxy =>
              rw [List.filter_cons, ihy, List.filter_append, List.filter_append,
                List.filter_cons (x := y)]
              -- an element of the rank of `y` behind `x` would put `x` in front of `y`
              split
              case isTrue hay =>
                  have hnone : (x :: xs).filter (fun b => le a b && le b a) = [] := by
                    refine List.filter_eq_nil_iff.mpr fun b hb hab => hxy ?_
                    simp only [Bool.and_eq_true] at hay hab
                    have hby := htrans _ _ _ hab.2 hay.1
                    rcases List.mem_cons.mp hb with rfl | hb
                    · exact hby
                    · exact htrans _ _ _ (List.rel_of_pairwise_cons hxs hb) hby
                  rw [hnone]
                  rfl
              case isFalse => rfl

/-- One merge turns two runs that stand side by side into one. -/
theorem runs_merge_append (htrans : ∀ a b c, le a b → le b c → le a c)
    (htotal : ∀ a b, le a b || le b a) {xs ys : List α} (hxs : xs.Pairwise (le · ·))
    (hys : ys.Pairwise (le · ·)) (zs : List α) :
    runs le (xs.merge ys le ++ zs) ≤ 1 + runs le zs := by
  have hmerge := (pairwise_iff_runs htrans _).mp (List.pairwise_merge htrans htotal xs ys hxs hys)
  have happend := runs_append le (xs.merge ys le) zs
  omega

/-! ### Stable sorting

There is one way only to sort a list and keep the order of the elements of equal rank. -/

section Sorting

variable {xs ys zs : List α}

theorem Rearranged.symm (h : Rearranged le xs ys) : Rearranged le ys xs :=
  ⟨h.perm.symm, fun a => (h.stable a).symm⟩

theorem Rearranged.eq_of_pairwise (hrefl : ∀ a, le a a) (h : Rearranged le ys zs)
    (hys : ys.Pairwise (le · ·)) (hzs : zs.Pairwise (le · ·)) : ys = zs := by
  induction ys generalizing zs with
  | nil => exact (List.perm_nil.mp h.perm).symm
  | cons y ys ih =>
      cases zs with
      | nil => exact absurd (List.nil_perm.mp h.perm) (List.cons_ne_nil _ _)
      | cons z zs =>
          -- the first elements have the same rank, so they are the first of that rank
          have hyz : le y z := by
            rcases List.mem_cons.mp (h.perm.mem_iff.mp (List.mem_cons_self ..)) with rfl | hz
            · exact hrefl z
            · exact List.rel_of_pairwise_cons hys hz
          have hzy : le z y := by
            rcases List.mem_cons.mp (h.perm.mem_iff.mpr (List.mem_cons_self ..)) with rfl | hy
            · exact hrefl y
            · exact List.rel_of_pairwise_cons hzs hy
          have hfirst := h.stable y
          rw [List.filter_cons_of_pos (by simp [hyz, hzy]),
            List.filter_cons_of_pos (by simp [hrefl])] at hfirst
          obtain rfl := (List.cons.inj hfirst).1
          have hrest : Rearranged le ys zs := by
            refine ⟨h.perm.cons_inv, fun a => ?_⟩
            have hclass := h.stable a
            rw [List.filter_cons, List.filter_cons] at hclass
            split at hclass
            · exact (List.cons.inj hclass).2
            · exact hclass
          rw [ih hrest (List.pairwise_cons.mp hys).2 (List.pairwise_cons.mp hzs).2]

/-- `e` goes in front of the first element that is not `le` to it. -/
def place (le : α → α → Bool) (xs : List α) (e : α) : List α :=
  xs.takeWhile (le · e) ++ e :: xs.dropWhile (le · e)

theorem place_perm (xs : List α) (e : α) : (place le xs e).Perm (xs ++ [e]) := by
  have hmid : (place le xs e).Perm (e :: (xs.takeWhile (le · e) ++ xs.dropWhile (le · e))) :=
    List.perm_middle
  rw [List.takeWhile_append_dropWhile] at hmid
  exact hmid.trans (List.perm_append_singleton e xs).symm

include htrans in
theorem not_le_of_mem_dropWhile (hxs : xs.Pairwise (le · ·)) {e x : α}
    (hx : x ∈ xs.dropWhile (le · e)) : ¬ le x e := by
  have hsorted := hxs.sublist (List.dropWhile_sublist (le · e))
  cases hrest : xs.dropWhile (le · e) with
  | nil => simp [hrest] at hx
  | cons z zs =>
      have hz : ¬ le z e := by
        have hhead := List.head_dropWhile_not (le · e) (l := xs) (by simp [hrest])
        simpa [hrest] using hhead
      rw [hrest] at hx hsorted
      rcases List.mem_cons.mp hx with rfl | hx
      · exact hz
      · exact fun hxe => hz (htrans _ _ _ (List.rel_of_pairwise_cons hsorted hx) hxe)

include htrans in
theorem rearranged_place (hxs : xs.Pairwise (le · ·)) (e : α) :
    Rearranged le (xs ++ [e]) (place le xs e) := by
  refine ⟨place_perm xs e, fun a => ?_⟩
  have hsplit : xs.filter (fun b => le a b && le b a) =
      (xs.takeWhile (le · e)).filter (fun b => le a b && le b a) ++
        (xs.dropWhile (le · e)).filter (fun b => le a b && le b a) := by
    rw [← List.filter_append, List.takeWhile_append_dropWhile]
  rw [place, List.filter_append, List.filter_append, hsplit, List.append_assoc, List.filter_cons]
  congr 1
  split
  case isTrue hae =>
      -- what is behind `e` is of another rank
      have hnone : (xs.dropWhile (le · e)).filter (fun b => le a b && le b a) = [] := by
        refine List.filter_eq_nil_iff.mpr fun b hb hab => ?_
        simp only [Bool.and_eq_true] at hae hab
        exact not_le_of_mem_dropWhile htrans hxs hb (htrans _ _ _ hab.2 hae.1)
      simp [hnone, hae]
  case isFalse hae => simp [hae]

include htrans in
theorem pairwise_place (htotal : ∀ a b, le a b || le b a) (hxs : xs.Pairwise (le · ·)) (e : α) :
    (place le xs e).Pairwise (le · ·) := by
  have hle (x : α) (hx : x ∈ xs.takeWhile (le · e)) : le x e :=
    List.mem_takeWhile_imp (p := (le · e)) hx
  have hge (x : α) (hx : x ∈ xs.dropWhile (le · e)) : le e x := by
    have hnot := not_le_of_mem_dropWhile htrans hxs hx
    simpa [hnot] using htotal e x
  refine List.pairwise_append.mpr ⟨hxs.sublist (List.takeWhile_sublist _),
    List.pairwise_cons.mpr ⟨hge, hxs.sublist (List.dropWhile_sublist _)⟩, fun x hx y hy => ?_⟩
  rcases List.mem_cons.mp hy with rfl | hy
  · exact hle x hx
  · exact htrans _ _ _ (hle x hx) (hge y hy)

include htrans in
/-- Placed one by one, the elements are sorted, and those of equal rank stay in order. -/
theorem rearranged_placeEach (htotal : ∀ a b, le a b || le b a) (hxs : xs.Pairwise (le · ·))
    (es : List α) :
    Rearranged le (xs ++ es) (es.foldl (place le) xs) ∧
      (es.foldl (place le) xs).Pairwise (le · ·) := by
  induction es generalizing xs with
  | nil => exact ⟨by simpa using .refl xs, hxs⟩
  | cons e es ih =>
      obtain ⟨hrearr, hsorted⟩ := ih (pairwise_place htrans htotal hxs e)
      have hfirst := (rearranged_place htrans hxs e).append (.refl es)
      rw [List.append_assoc, List.singleton_append] at hfirst
      exact ⟨hfirst.trans hrearr, hsorted⟩

end Sorting

end SystemProgramming.Library
