import Mathlib.Data.List.Basic
import Mathlib.Data.List.Pairwise

/-!
Sets of elements that hold at most one element of each class of a relation
`eqv`: what a container that looks its elements up with `eqv` stands for.
-/

namespace SystemProgramming.Library

variable {ε : Type*} {eqv : ε → ε → Bool}

structure ClassSet (eqv : ε → ε → Bool) where
  elems : List ε
  distinct : elems.Pairwise fun x y => eqv x y = false

namespace ClassSet

/-! ### Operations -/

def empty : ClassSet eqv := ⟨[], List.Pairwise.nil⟩

def find (s : ClassSet eqv) (e : ε) : Option ε := s.elems.find? (eqv e)

/-- Takes out the element that is equal to `e`. -/
def erase (s : ClassSet eqv) (e : ε) : ClassSet eqv :=
  ⟨s.elems.filter fun x => !eqv e x, s.distinct.filter _⟩

/-- Puts `e` in, in the place of the element equal to it. -/
def replace (s : ClassSet eqv) (e : ε) : ClassSet eqv where
  elems := e :: (s.erase e).elems
  distinct := List.pairwise_cons.mpr ⟨fun x hx => by
    simpa using (List.mem_filter.mp hx).2, (s.erase e).distinct⟩

/-- Puts `e` in unless an element is equal to it. -/
def insert (s : ClassSet eqv) (e : ε) : ClassSet eqv :=
  if (s.find e).isSome then s else s.replace e

variable {s : ClassSet eqv} {e x y : ε}

theorem mem_of_find (hx : s.find e = some x) : x ∈ s.elems := List.mem_of_find?_eq_some hx

theorem eqv_of_find (hx : s.find e = some x) : eqv e x = true := List.find?_some hx

theorem eqv_of_find_none (hnone : s.find e = none) (hx : x ∈ s.elems) : eqv e x = false := by
  simpa using List.find?_eq_none.mp hnone x hx

theorem erase_of_find_none (hnone : s.find e = none) : (s.erase e).elems = s.elems :=
  List.filter_eq_self.mpr fun x hx => by simp [eqv_of_find_none hnone hx]

theorem insert_of_find_none (hnone : s.find e = none) : (s.insert e).elems = e :: s.elems := by
  rw [insert, hnone]
  exact congrArg _ (erase_of_find_none hnone)

theorem insert_of_find (hx : s.find e = some x) : s.insert e = s := by
  rw [insert, hx]
  rfl

theorem length_insert_le (s : ClassSet eqv) (e : ε) :
    (s.insert e).elems.length ≤ s.elems.length + 1 := by
  cases hfind : s.find e with
  | none => exact Nat.le_of_eq (congrArg List.length (insert_of_find_none hfind))
  | some x =>
      rw [insert_of_find hfind]
      omega

theorem length_erase_le (s : ClassSet eqv) (e : ε) : (s.erase e).elems.length ≤ s.elems.length :=
  List.length_filter_le ..

theorem length_replace_le (s : ClassSet eqv) (e : ε) :
    (s.replace e).elems.length ≤ s.elems.length + 1 := Nat.succ_le_succ (s.length_erase_le e)

/-! ### Equivalences -/

section Equivalence

variable (heqv : Equivalence fun x y => eqv x y = true)

include heqv

theorem eq_of_eqv (hx : x ∈ s.elems) (hy : y ∈ s.elems) (hxy : eqv x y = true) : x = y := by
  by_contra hne
  have : Std.Symm fun a b => eqv a b = false := ⟨fun a b hab => by
    rw [← Bool.not_eq_true] at hab ⊢
    exact fun hba => hab (heqv.symm hba)⟩
  exact Bool.noConfusion ((s.distinct.forall hx hy hne).symm.trans hxy)

/-- Looking in a part of the set is enough, if the elements equal to `e` are all there. -/
theorem find_eq_of_mem_iff {part : List ε}
    (hpart : ∀ x, eqv e x = true → (x ∈ part ↔ x ∈ s.elems)) :
    part.find? (eqv e) = s.find e := by
  cases hfind : s.find e with
  | none =>
      refine List.find?_eq_none.mpr fun x hx htrue => ?_
      exact Bool.noConfusion
        ((eqv_of_find_none hfind ((hpart x htrue).mp hx)).symm.trans htrue)
  | some x =>
      have hx := eqv_of_find hfind
      cases hpart' : part.find? (eqv e) with
      | none =>
          exact absurd hx (List.find?_eq_none.mp hpart' x ((hpart x hx).mpr (mem_of_find hfind)))
      | some y =>
          have hy := List.find?_some hpart'
          have hmem := (hpart y hy).mp (List.mem_of_find?_eq_some hpart')
          rw [eq_of_eqv heqv hmem (mem_of_find hfind) (heqv.trans (heqv.symm hy) hx)]

/-- Only one element is taken out. -/
theorem erase_of_find [DecidableEq ε] (hx : s.find e = some x) :
    (s.erase e).elems = s.elems.erase x := by
  have hnodup : s.elems.Nodup := s.distinct.imp fun hfalse heq => by
    subst heq
    rw [heqv.refl] at hfalse
    exact Bool.noConfusion hfalse
  rw [hnodup.erase_eq_filter]
  refine List.filter_congr fun y hy => ?_
  cases htest : eqv e y with
  | true =>
      have heq := eq_of_eqv heqv hy (mem_of_find hx)
        (heqv.trans (heqv.symm htest) (eqv_of_find hx))
      simp [heq]
  | false =>
      have hne : y ≠ x := by
        rintro rfl
        exact Bool.noConfusion (htest.symm.trans (eqv_of_find hx))
      simp [hne]

end Equivalence

end ClassSet

end SystemProgramming.Library
