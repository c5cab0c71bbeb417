import Mathlib.Algebra.BigOperators.Fin
import Mathlib.Algebra.Order.BigOperators.Group.Finset
import Mathlib.Data.List.Sort
import SystemProgramming.Testlib.ListCommands

/-!
The list commands on plain sequences of integers, one for each slot: what a
user expects of them, without memory. `ok` says whether `malloc` finds memory.
-/

namespace SystemProgramming.Testlib

/-- The element at an index, if it is in range. -/
def elemAt {α : Type} (xs : List α) (idx : Int) : Option α :=
  if idx < 0 then none else xs[idx.toNat]?

theorem elemAt_eq_some {α : Type} {xs : List α} {idx : Int} {x : α}
    (hx : elemAt xs idx = some x) : ∃ ys zs, xs = ys ++ x :: zs ∧ idx = ys.length := by
  rw [elemAt] at hx
  split at hx
  case isTrue => cases hx
  case isFalse hneg =>
      obtain ⟨hlt, hget⟩ := List.getElem?_eq_some_iff.mp hx
      have hdrop := List.drop_eq_getElem_cons hlt
      rw [hget] at hdrop
      exact ⟨xs.take idx.toNat, xs.drop (idx.toNat + 1), by rw [← hdrop, List.take_append_drop],
        by rw [List.length_take]; omega⟩

theorem elemAt_eq_none {α : Type} {xs : List α} {idx : Int} (hx : elemAt xs idx = none) :
    idx < 0 ∨ xs.length ≤ idx.toNat := by
  rw [elemAt] at hx
  split at hx
  case isTrue hneg => exact .inl hneg
  case isFalse => exact .inr (List.getElem?_eq_none_iff.mp hx)

theorem elemAt_map {α β : Type} (f : α → β) (xs : List α) (idx : Int) :
    elemAt (xs.map f) idx = (elemAt xs idx).map f := by
  rw [elemAt, elemAt]
  split <;> simp

theorem isSome_elemAt {α : Type} (xs : List α) (idx : Int) :
    (elemAt xs idx).isSome = decide (0 ≤ idx ∧ idx < xs.length) := by
  rw [elemAt]
  split
  case isTrue hneg => simp [show ¬ 0 ≤ idx by omega]
  case isFalse hneg =>
      rw [Bool.eq_iff_iff, decide_eq_true_iff, Option.isSome_iff_ne_none, ne_eq,
        List.getElem?_eq_none_iff]
      omega

/-- Equal neighbours but the first, and what is left of the sequence. -/
def dedup : List Int → List Int × List Int
  | [] => ([], [])
  | [x] => ([x], [])
  | x :: y :: xs =>
      let (kept, removed) := dedup (y :: xs)
      if x = y then (kept, y :: removed) else (x :: kept, removed)

/-- The sequences with their names, and what was printed. -/
structure Reference where
  lists : Fin MAX_DS → Option (String × List Int)
  out : String

namespace Reference

def initial : Reference := ⟨fun _ => none, ""⟩

def find (r : Reference) (name : String) : Option (Fin MAX_DS) :=
  (List.finRange MAX_DS).find? fun i => (r.lists i).any fun l => l.1 = name

def values (r : Reference) (slot : Fin MAX_DS) : List Int := (r.lists slot).elim [] Prod.snd

/-- Replaces the sequence of a slot. -/
def set (r : Reference) (slot : Fin MAX_DS) (xs : List Int) : Reference :=
  { r with lists := Function.update r.lists slot ((r.lists slot).map fun l => (l.1, xs)) }

section Set

variable {r : Reference} {i k : Fin MAX_DS}

theorem values_set_self (hi : (r.lists i).isSome) (xs : List Int) :
    (r.set i xs).values i = xs := by
  obtain ⟨l, hl⟩ := Option.isSome_iff_exists.mp hi
  simp [values, set, hl]

@[simp] theorem values_set_of_ne (hki : k ≠ i) (xs : List Int) :
    (r.set i xs).values k = r.values k := by
  simp [values, set, hki]

@[simp] theorem set_set (r : Reference) (i : Fin MAX_DS) (xs ys : List Int) :
    (r.set i xs).set i ys = r.set i ys := by
  simp [set, Function.comp_def]

@[simp] theorem set_values (r : Reference) (i : Fin MAX_DS) : r.set i (r.values i) = r := by
  obtain ⟨lists, out⟩ := r
  have hsame : Function.update lists i ((lists i).map fun l => (l.1, (lists i).elim [] Prod.snd)) =
      lists := by
    refine Function.update_eq_self_iff.mpr ?_
    cases lists i <;> rfl
  simp [set, values, hsame]

@[simp] theorem map_fst_set (r : Reference) (i k : Fin MAX_DS) (xs : List Int) :
    ((r.set i xs).lists k).map Prod.fst = (r.lists k).map Prod.fst := by
  by_cases hki : k = i
  · subst hki
    cases hk : r.lists k <;> simp [set, hk]
  · simp [set, hki]

@[simp] theorem isSome_lists_set (r : Reference) (i k : Fin MAX_DS) (xs : List Int) :
    ((r.set i xs).lists k).isSome = (r.lists k).isSome := by
  rw [← Option.isSome_map (f := Prod.fst), map_fst_set, Option.isSome_map]

end Set

def print (r : Reference) (text : String) : Reference := { r with out := r.out ++ text }

def printValue (r : Reference) (value : Option Int) : Reference :=
  value.elim r fun v => r.print (toString v ++ "\n")

/-- Moves the range `[first, last)` of a slot in front of a position of another or of the
same one, where the position counts the elements that are moved away. -/
def splice (r : Reference) (slot source : Fin MAX_DS) (before first last : Nat) : Reference :=
  let xs := r.values source
  let moved := (xs.take last).drop first
  let rest := xs.take first ++ xs.drop last
  if slot = source then
    let place := if before ≤ first then before else before - (last - first)
    r.set slot (rest.take place ++ moved ++ rest.drop place)
  else
    let target := r.values slot
    (r.set source rest).set slot (target.take before ++ moved ++ target.drop before)

theorem isSome_of_find {r : Reference} {name : String} {i : Fin MAX_DS}
    (hi : r.find name = some i) : (r.lists i).isSome := by
  have hany := List.find?_some hi
  cases hl : r.lists i with
  | none => simp [hl] at hany
  | some l => rfl

theorem splice_empty (r : Reference) (slot source : Fin MAX_DS) (before n : Nat) :
    r.splice slot source before n n = r := by
  have hmoved : ((r.values source).take n).drop n = [] := by simp
  rw [splice]
  simp only [hmoved, List.append_nil, List.take_append_drop, set_values]
  split
  case isTrue heq => rw [heq, set_values]
  case isFalse => rfl

def listCommand (r : Reference) (ok : Bool) (slot : Fin MAX_DS) (c : ListCommand) : Reference :=
  let xs := r.values slot
  match c with
  | .pushFront value => if ok then r.set slot (value :: xs) else r
  | .pushBack value => if ok then r.set slot (xs ++ [value]) else r
  | .popFront => r.set slot xs.tail
  | .popBack => r.set slot xs.dropLast
  | .front => r.printValue xs.head?
  | .back => r.printValue xs.getLast?
  | .empty => r.print (if xs.isEmpty then "true\n" else "false\n")
  | .size => r.print (toString xs.length ++ "\n")
  | .insert idx value =>
      if ok ∧ 0 ≤ idx ∧ idx ≤ xs.length then
        r.set slot (xs.take idx.toNat ++ value :: xs.drop idx.toNat)
      else r
  | .insertOrdered value =>
      if ok then r.set slot (xs.takeWhile (· ≤ value) ++ value :: xs.dropWhile (· ≤ value))
      else r
  | .remove idx => if 0 ≤ idx then r.set slot (xs.eraseIdx idx.toNat) else r
  | .reverse => r.set slot xs.reverse
  | .sort => r.set slot (xs.insertionSort (· ≤ ·))
  | .splice before source first last =>
      match r.find source with
      | none => r
      | some src =>
          if (0 ≤ before ∧ before ≤ xs.length) ∧
              (0 ≤ first ∧ first < (r.values src).length) ∧
              (0 ≤ last ∧ last ≤ (r.values src).length) then
            r.splice slot src before.toNat first.toNat last.toNat
          else r
  | .unique duplicates =>
      let (kept, removed) := dedup xs
      match duplicates.bind r.find with
      | none => r.set slot kept
      | some dups => (r.set slot kept).set dups (r.values dups ++ removed)
  | .max => r.printValue xs.max?
  | .min => r.printValue xs.min?
  | .swap a b =>
      match elemAt xs a, elemAt xs b with
      | some x, some y => r.set slot ((xs.set a.toNat y).set b.toNat x)
      | _, _ => r

def command (r : Reference) (ok : Bool) (c : Command) : Reference :=
  match c with
  | .create name =>
      match (List.finRange MAX_DS).find? fun i => (r.lists i).isNone with
      | none => r
      | some slot => { r with lists := Function.update r.lists slot (some (copyName name, [])) }
  | .delete name =>
      match r.find name with
      | none => r
      | some slot => { r with lists := Function.update r.lists slot none }
  | .dumpdata name =>
      match r.find name with
      | none => r
      | some slot => r.print (String.intercalate " " ((r.values slot).map toString) ++ "\n")
  | .list name c =>
      match r.find name with
      | none => r
      | some slot => r.listCommand ok slot c

/-- One line of a run. -/
def line (r : Reference) (tokens : List String) (memory : Malloc) : Reference :=
  (Testlib.command tokens).elim r (r.command memory.isSome)

/-- A whole run. -/
def interpret (r : Reference) : List (List String × Malloc) → Reference
  | [] => r
  | (tokens, memory) :: lines => (r.line tokens memory).interpret lines

/-- A range to splice does not end before it begins, and does not go into itself; the
duplicates do not go back to the list they are from. -/
def Legal (r : Reference) (c : Command) : Prop :=
  match c with
  | .list name (.splice before source first last) =>
      first ≤ last ∧ ∀ slot, r.find name = some slot → r.find source = some slot →
        ¬ (first ≤ before ∧ before < last)
  | .list name (.unique (some duplicates)) =>
      ∀ slot, r.find name = some slot → r.find duplicates ≠ some slot
  | _ => True

/-- Every command of the run is legal where it comes. -/
def LegalRun (r : Reference) : List (List String × Malloc) → Prop
  | [] => True
  | (tokens, memory) :: lines =>
      (∀ c ∈ Testlib.command tokens, r.Legal c) ∧ (r.line tokens memory).LegalRun lines

instance (r : Reference) (c : Command) : Decidable (r.Legal c) :=
  match c with
  | .list name (.splice before source first last) =>
      inferInstanceAs (Decidable (first ≤ last ∧ ∀ slot, r.find name = some slot →
        r.find source = some slot → ¬ (first ≤ before ∧ before < last)))
  | .list name (.unique (some duplicates)) =>
      inferInstanceAs (Decidable (∀ slot, r.find name = some slot →
        r.find duplicates ≠ some slot))
  | .create _ | .delete _ | .dumpdata _ | .list _ (.pushFront _) | .list _ (.pushBack _)
  | .list _ .popFront | .list _ .popBack | .list _ .front | .list _ .back | .list _ .empty
  | .list _ .size | .list _ (.insert _ _) | .list _ (.insertOrdered _) | .list _ (.remove _)
  | .list _ .reverse | .list _ .sort | .list _ (.unique none) | .list _ .max | .list _ .min
  | .list _ (.swap _ _) => .isTrue trivial

instance decidableLegalRun (r : Reference) (lines : List (List String × Malloc)) :
    Decidable (r.LegalRun lines) :=
  match lines with
  | [] => .isTrue trivial
  | (tokens, memory) :: lines =>
      have := decidableLegalRun (r.line tokens memory) lines
      inferInstanceAs (Decidable ((∀ c ∈ Testlib.command tokens, r.Legal c) ∧
        (r.line tokens memory).LegalRun lines))

/-! ### How long the sequences get -/

/-- The length of all sequences together. -/
def size (r : Reference) : Nat := ∑ i, (r.values i).length

theorem size_initial : initial.size = 0 := by simp [size, values, initial]

theorem length_values_le (r : Reference) (i : Fin MAX_DS) : (r.values i).length ≤ r.size :=
  Finset.single_le_sum (f := fun i => (r.values i).length) (fun _ _ => Nat.zero_le _)
    (Finset.mem_univ i)

/-- Replacing a sequence replaces its length. -/
theorem size_set_eq {r : Reference} {i : Fin MAX_DS} (hi : (r.lists i).isSome) (xs : List Int) :
    (r.set i xs).size + (r.values i).length = r.size + xs.length := by
  have hsplit (r : Reference) :
      r.size = (r.values i).length + ∑ k ∈ Finset.univ.erase i, (r.values k).length :=
    (Finset.add_sum_erase _ (fun k => (r.values k).length) (Finset.mem_univ i)).symm
  have hother : ∑ k ∈ Finset.univ.erase i, ((r.set i xs).values k).length =
      ∑ k ∈ Finset.univ.erase i, (r.values k).length :=
    Finset.sum_congr rfl fun k hk => by rw [values_set_of_ne (Finset.ne_of_mem_erase hk)]
  rw [hsplit, hsplit r, hother, values_set_self hi]
  omega

theorem size_set (r : Reference) (i : Fin MAX_DS) (xs : List Int) :
    (r.set i xs).size + (r.values i).length ≤ r.size + xs.length := by
  cases hl : r.lists i with
  | none =>
      have hsame : r.set i xs = r := by
        obtain ⟨lists, out⟩ := r
        have hl' : lists i = none := hl
        simp [set, hl']
      rw [hsame]
      simp [values, hl]
  | some l => exact (size_set_eq (by simp [hl]) xs).le

theorem length_dedup (xs : List Int) :
    (dedup xs).1.length + (dedup xs).2.length = xs.length := by
  fun_induction dedup xs with
  | case1 => rfl
  | case2 => rfl
  | case3 xs y kept removed hrest ih =>
      simp only [hrest, List.length_cons] at ih ⊢
      omega
  | case4 x y xs kept removed hrest hne ih =>
      simp only [hrest, List.length_cons] at ih ⊢
      omega

/-- Items that are moved from one sequence to another are not lost. -/
theorem size_splice {r : Reference} {slot source : Fin MAX_DS} (hslot : (r.lists slot).isSome)
    (hsource : (r.lists source).isSome) (before : Nat) {first last : Nat} (hrange : first ≤ last) :
    (r.splice slot source before first last).size = r.size := by
  simp only [splice]
  split
  case isTrue heq =>
      subst heq
      refine Nat.add_right_cancel ((size_set_eq hslot _).trans ?_)
      simp only [List.length_append, List.length_take, List.length_drop]
      omega
  case isFalse hne =>
      have hset := size_set_eq hsource ((r.values source).take first ++ (r.values source).drop last)
      have hset' := size_set_eq (r := r.set source
        ((r.values source).take first ++ (r.values source).drop last))
        (i := slot) (by simpa using hslot)
        ((r.values slot).take before ++ ((r.values source).take last).drop first ++
          (r.values slot).drop before)
      rw [values_set_of_ne hne] at hset'
      simp only [List.length_append, List.length_take, List.length_drop] at hset hset'
      omega

theorem size_listCommand (r : Reference) (ok : Bool) {name : String} {i : Fin MAX_DS}
    (hname : r.find name = some i) {c : ListCommand} (hlegal : r.Legal (.list name c)) :
    (r.listCommand ok i c).size ≤ r.size + 1 := by
  have hset (xs : List Int) (hxs : xs.length ≤ (r.values i).length + 1) :
      (r.set i xs).size ≤ r.size + 1 := by
    have hsize := r.size_set i xs
    omega
  have hprint (value : Option Int) : (r.printValue value).size ≤ r.size + 1 := by
    cases value <;> exact Nat.le_succ _
  cases c with
  | pushFront value | pushBack value =>
      rw [listCommand]
      split
      · exact hset _ (by simp)
      · exact Nat.le_succ _
  | popFront | popBack | reverse | sort =>
      exact hset _ (by simp only [List.length_tail, List.length_dropLast, List.length_reverse,
        List.length_insertionSort]; omega)
  | front | back | max | min => exact hprint _
  | empty | size => exact Nat.le_succ _
  | insert idx value =>
      rw [listCommand]
      split
      · exact hset _ (by simp only [List.length_append, List.length_take, List.length_cons,
          List.length_drop]; omega)
      · exact Nat.le_succ _
  | insertOrdered value =>
      rw [listCommand]
      split
      · have hsplit := congrArg List.length (List.takeWhile_append_dropWhile
          (p := fun x => decide (x ≤ value)) (l := r.values i))
        rw [List.length_append] at hsplit
        exact hset _ (by rw [List.length_append, List.length_cons]; omega)
      · exact Nat.le_succ _
  | remove idx =>
      rw [listCommand]
      split
      · exact hset _ (Nat.le_succ_of_le (List.length_eraseIdx_le _ _))
      · exact Nat.le_succ _
  | splice before source first last =>
      have hle : first ≤ last := hlegal.1
      rw [listCommand]
      split
      · exact Nat.le_succ _
      · rename_i hsource
        split
        · exact (size_splice (isSome_of_find hname) (isSome_of_find hsource) _
            (by omega)).le.trans (Nat.le_succ _)
        · exact Nat.le_succ _
  | unique duplicates =>
      -- what one list loses the other one gets, if there is another
      have hlength := length_dedup (r.values i)
      have hkept := r.size_set i (dedup (r.values i)).1
      simp only [listCommand]
      cases hdups : duplicates.bind r.find with
      | none =>
          refine hset _ ?_
          omega
      | some dups =>
          have hne : dups ≠ i := by
            obtain ⟨other, rfl, hother⟩ := Option.bind_eq_some_iff.mp hdups
            exact fun heq => hlegal i hname (heq ▸ hother)
          have happend := size_set (r.set i (dedup (r.values i)).1) dups
            (r.values dups ++ (dedup (r.values i)).2)
          rw [values_set_of_ne hne, List.length_append] at happend
          simp only
          omega
  | swap a b =>
      rw [listCommand]
      split
      · exact hset _ (by simp)
      · exact Nat.le_succ _

/-- A slot without elements adds nothing. -/
theorem size_update_le (r : Reference) (slot : Fin MAX_DS) (l : Option (String × List Int))
    (hl : l.elim [] Prod.snd = []) :
    size { r with lists := Function.update r.lists slot l } ≤ r.size := by
  refine Finset.sum_le_sum fun k _ => ?_
  by_cases hk : k = slot
  · subst hk
    simp [values, hl]
  · simp [values, hk]

/-- A command adds one element at most. -/
theorem size_command (r : Reference) (ok : Bool) {c : Command} (hlegal : r.Legal c) :
    (r.command ok c).size ≤ r.size + 1 := by
  cases c with
  | create name =>
      rw [command]
      split
      · exact Nat.le_succ _
      · exact Nat.le_succ_of_le (r.size_update_le _ _ rfl)
  | delete name =>
      rw [command]
      split
      · exact Nat.le_succ _
      · exact Nat.le_succ_of_le (r.size_update_le _ _ rfl)
  | dumpdata name =>
      rw [command]
      split <;> exact Nat.le_succ _
  | list name c =>
      rw [command]
      split
      case h_1 => exact Nat.le_succ _
      case h_2 slot hfind => exact r.size_listCommand ok hfind hlegal

end Reference

end SystemProgramming.Testlib
