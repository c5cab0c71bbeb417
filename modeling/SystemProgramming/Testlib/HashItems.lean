import SystemProgramming.Testlib.HashCommands
import SystemProgramming.Testlib.HashIteration
import SystemProgramming.Testlib.HashOperations

/-!
The items of a hash table. `Owns s a rows S extra` says that the table holds
the items `S`, and that the allocated items are these and `extra`. A new item
is extra until the table has it, and one that the table gives back is extra
until it is freed.
-/

namespace SystemProgramming.Testlib

open SystemProgramming.Library

variable {s : HashInterp} {a : Nat} {rows : Nat × Nat → List HashItem} {S extra : List HashItem}
  {values : Nat → Option Int} {e x : HashItem} {n fuel : Nat} {v : Int}

def Allocated (values : Nat → Option Int) : HashItem → Prop
  | .item n => (values n).isSome = true
  | .temp _ => False

structure HashInterp.Owns (s : HashInterp) (a : Nat) (rows : Nat × Nat → List HashItem)
    (S extra : List HashItem) : Prop where
  holds : Holds (Allocated s.values) s.hash a rows S
  allocated : ∀ e, Allocated s.values e ↔ e ∈ S ∨ e ∈ extra
  apart : ∀ e ∈ extra, e ∉ S
  brk : ∀ n, s.brk ≤ n → s.values n = none

theorem Allocated.exists (he : Allocated values e) : ∃ n v, e = .item n ∧ values n = some v := by
  cases e with
  | item n => exact ⟨n, _, rfl, (Option.some_get he).symm⟩
  | temp v => exact he.elim

theorem allocated_update_of_ne {o : Option Int} (hx : x ≠ .item n) :
    Allocated (Function.update values n o) x ↔ Allocated values x := by
  cases x with
  | item m =>
      rw [Allocated, Allocated, Function.update_of_ne]
      simpa using hx
  | temp w => exact Iff.rfl

theorem allocated_update_self {o : Option Int} :
    Allocated (Function.update values n o) (.item n) ↔ o.isSome = true := by
  rw [Allocated, Function.update_self]

/-! ### Allocation -/

namespace HashInterp.Owns

theorem fresh (ho : s.Owns a rows S extra) (asked : Nat) : s.values (s.fresh asked) = none := by
  rw [HashInterp.fresh]
  split
  next hnone => exact Option.isNone_iff_eq_none.mp hnone
  next => exact ho.brk _ (Nat.le_refl _)

theorem run_makeHashItem (ho : s.Owns a rows S []) (asked : Nat)
    (garbage : Link (HashAddr HashItem)) (v : Int) :
    ∃ s', (makeHashItem (some (asked, garbage)) v).run s =
        some (some (.item (s.fresh asked)), s') ∧
      s'.Owns a rows S [.item (s.fresh asked)] ∧
      s'.values = Function.update s.values (s.fresh asked) (some v) ∧ s'.out = s.out ∧
      s'.hash.bucketCnt = s.hash.bucketCnt := by
  have hnot : HashItem.item (s.fresh asked) ∉ S := fun hmem => by
    have halloc := (ho.allocated _).mpr (.inl hmem)
    rw [Allocated, ho.fresh asked] at halloc
    exact Bool.noConfusion halloc
  refine ⟨_, rfl, ⟨ho.holds.setElem hnot (fun x hx hne => (allocated_update_of_ne hne).mp hx)
    fun _ => rfl, fun x => ?_, by simpa using hnot, fun m hm => ?_⟩, rfl, rfl, rfl⟩
  · by_cases hx : x = .item (s.fresh asked)
    · subst hx
      simp [allocated_update_self]
    · rw [allocated_update_of_ne hx, ho.allocated x]
      simp [hx]
  · have hmax : max s.brk (s.fresh asked + 1) ≤ m := hm
    exact (Function.update_of_ne (by omega) ..).trans (ho.brk m (by omega))

theorem run_freeHashItem (ho : s.Owns a rows S (.item n :: extra)) (hn : .item n ∉ extra) :
    ∃ s', (freeHashItem (.item n)).run s = some ((), s') ∧ s'.Owns a rows S extra ∧
      s'.values = Function.update s.values n none ∧ s'.out = s.out ∧
      s'.hash.bucketCnt = s.hash.bucketCnt := by
  have halloc : (s.values n).isSome = true := (ho.allocated (.item n)).mpr (.inr (by simp))
  have hnot : .item n ∉ S := ho.apart _ List.mem_cons_self
  refine ⟨_, if_pos halloc, ⟨ho.holds.setElem hnot
    (fun x hx hne => (allocated_update_of_ne hne).mp hx)
    fun hx => absurd (allocated_update_self.mp hx) (by simp), fun x => ?_,
    fun x hx => ho.apart x (List.mem_cons_of_mem _ hx), fun m hm => ?_⟩, rfl, rfl, rfl⟩
  · by_cases hx : x = .item n
    · subst hx
      simp [allocated_update_self, hnot, hn]
    · rw [allocated_update_of_ne hx, ho.allocated x]
      simp [hx]
  · by_cases hmn : m = n
    · subst hmn
      exact Function.update_self ..
    · exact (Function.update_of_ne hmn ..).trans (ho.brk m hm)

/-- After a function of `hash.c` the items are with the table or extra as before. -/
theorem onTable {h' : Hash HashItem} {a' : Nat} {rows' : Nat × Nat → List HashItem}
    {S' extra' : List HashItem} (ho : s.Owns a rows S extra)
    (hh' : Holds (Allocated s.values) h' a' rows' S') (hperm : (S ++ extra).Perm (S' ++ extra'))
    (hextra : extra.Nodup) : ({ s with hash := h' } : HashInterp).Owns a' rows' S' extra' := by
  have hnodup : (S ++ extra).Nodup := List.nodup_append.mpr ⟨ho.holds.nodup, hextra,
    fun x hx y hy heq => ho.apart y hy (heq ▸ hx)⟩
  refine ⟨hh', fun x => ?_, fun x hx hx' => ?_, ho.brk⟩
  · rw [← List.mem_append, ← hperm.mem_iff, List.mem_append]
    exact ho.allocated x
  · exact (List.nodup_append.mp (hperm.nodup_iff.mp hnodup)).2.2 x hx' x hx rfl

end HashInterp.Owns

/-! ### Loops over the items -/

/-- The items of the list, which are all there are, are freed one after the other. What does
not depend on their memory holds of the table afterwards. -/
theorem run_forM_freeHashItem {I : Hash HashItem → Prop}
    (hI : ∀ h n, I h → I { h with links := Function.update h.links (.elem (.item n)) none })
    (items : List HashItem) (hs : I s.hash) (hnodup : items.Nodup)
    (halloc : ∀ e, Allocated s.values e ↔ e ∈ items) :
    ∃ s', (items.forM freeHashItem).run s = some ((), s') ∧ I s'.hash ∧
      (∀ n, s'.values n = none) ∧ s'.out = s.out := by
  rw [List.forM_eq_forM]
  induction items generalizing s with
  | nil =>
      refine ⟨s, rfl, hs, fun n => ?_, rfl⟩
      by_contra hne
      exact List.not_mem_nil ((halloc (.item n)).mp (Option.isSome_iff_ne_none.mpr hne))
  | cons e items ih =>
      obtain ⟨n, v, rfl, hv⟩ := ((halloc e).mpr List.mem_cons_self).exists
      obtain ⟨hnot, hnodup⟩ := List.nodup_cons.mp hnodup
      have hfree : (freeHashItem (.item n)).run s = some ((), { s with
          hash := { s.hash with links := Function.update s.hash.links (.elem (.item n)) none }
          values := Function.update s.values n none }) := if_pos (by rw [hv]; rfl)
      obtain ⟨s', hrun, hs', hnone, hout⟩ := ih (s := { s with
          hash := { s.hash with links := Function.update s.hash.links (.elem (.item n)) none }
          values := Function.update s.values n none })
        (hI _ n hs) hnodup fun x => by
          by_cases hx : x = .item n
          · subst hx
            simp [allocated_update_self, hnot]
          · rw [allocated_update_of_ne hx, halloc x]
            simp [hx]
      refine ⟨s', ?_, hs', hnone, hout⟩
      rw [List.forM_cons, run_bind_of hfree]
      exact hrun

/-- What an action makes of the values. -/
def HashAction.onValues (action : HashAction) (items : List HashItem) (values : Nat → Option Int)
    (n : Nat) : Option Int :=
  if .item n ∈ items then (values n).bind action.value else values n

theorem run_forM_hashAction {action : HashAction} {items : List HashItem} (hnodup : items.Nodup)
    (hfits : ∀ e ∈ items, ∃ n v w, e = .item n ∧ s.values n = some v ∧ action.value v = some w) :
    (items.forM (hashAction action)).run s =
      some ((), { s with values := action.onValues items s.values }) := by
  rw [List.forM_eq_forM]
  induction items generalizing s with
  | nil =>
      have hvalues : action.onValues [] s.values = s.values := by
        funext n
        simp [HashAction.onValues]
      rw [hvalues]
      rfl
  | cons e items ih =>
      obtain ⟨n, v, w, rfl, hv, hw⟩ := hfits e List.mem_cons_self
      obtain ⟨hnot, hnodup⟩ := List.nodup_cons.mp hnodup
      have hact : (hashAction action (.item n)).run s =
          some ((), { s with values := Function.update s.values n (some w) }) := by
        change (s.values n).bind _ = _
        rw [hv]
        change (action.value v).bind _ = _
        rw [hw]
        rfl
      have hrest := ih (s := { s with values := Function.update s.values n (some w) }) hnodup
        fun x hx => by
          obtain ⟨m, u, w', rfl, hu, hw'⟩ := hfits x (List.mem_cons_of_mem _ hx)
          refine ⟨m, u, w', rfl, ?_, hw'⟩
          refine (Function.update_of_ne ?_ ..).trans hu
          rintro rfl
          exact hnot hx
      rw [List.forM_cons, run_bind_of hact, hrest]
      have hvalues : action.onValues items (Function.update s.values n (some w)) =
          action.onValues (.item n :: items) s.values := by
        funext m
        by_cases hmn : m = n
        · subst hmn
          simp [HashAction.onValues, hnot, hv, hw]
        · simp [HashAction.onValues, hmn]
      rw [hvalues]

end SystemProgramming.Testlib
