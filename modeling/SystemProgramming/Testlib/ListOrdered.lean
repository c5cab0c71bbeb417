import SystemProgramming.Testlib.ListSort

/-!
The other functions of `list.c` that compare elements: `list_insert_ordered`,
`list_unique`, `list_max` and `list_min`. What they compute is written down as
functions on plain lists, for any `lt`.
-/

namespace SystemProgramming.Testlib

open SystemProgramming.Library

variable {α : Type}

/-! ### On plain lists -/

section Plain

variable (lt : α → α → Bool)

/-- What stands in front of the first element greater than `e`. -/
def upTo (e : α) (xs : List α) : List α := xs.takeWhile fun x => !lt e x

/-- The first element greater than `e` and what is behind it. -/
def above (e : α) (xs : List α) : List α := xs.dropWhile fun x => !lt e x

/-- What `list_unique` leaves behind `x`, and what it removes. -/
def unique (x : α) : List α → List α × List α
  | [] => ([], [])
  | y :: ys =>
      if !lt x y && !lt y x then
        let (kept, removed) := unique x ys
        (kept, y :: removed)
      else
        let (kept, removed) := unique y ys
        (y :: kept, removed)

/-- The first maximum of `x :: xs`. -/
def maximum (x : α) (xs : List α) : α := xs.foldl (fun best e => if lt best e then e else best) x

/-- The first minimum of `x :: xs`. -/
def minimum (x : α) (xs : List α) : α := maximum (fun a b => lt b a) x xs

variable {lt}

theorem unique_perm (x : α) (xs : List α) :
    ((unique lt x xs).1 ++ (unique lt x xs).2).Perm xs := by
  induction xs generalizing x with
  | nil => exact .refl _
  | cons y ys ih =>
      rw [unique]
      split
      · exact List.perm_middle.trans ((ih x).cons y)
      · exact (ih y).cons y

theorem unique_map {β : Type} (f : β → α) (x : β) (xs : List β) :
    unique lt (f x) (xs.map f) =
      ((unique (fun a b => lt (f a) (f b)) x xs).1.map f,
        (unique (fun a b => lt (f a) (f b)) x xs).2.map f) := by
  induction xs generalizing x with
  | nil => rfl
  | cons y ys ih =>
      rw [List.map_cons, unique, unique, ih x, ih y]
      split <;> rfl

theorem maximum_map {β : Type} (f : β → α) (x : β) (xs : List β) :
    maximum lt (f x) (xs.map f) = f (maximum (fun a b => lt (f a) (f b)) x xs) := by
  induction xs generalizing x with
  | nil => rfl
  | cons y ys ih =>
      rw [maximum, maximum, List.map_cons, List.foldl_cons, List.foldl_cons, ← maximum, ← maximum,
        ← ih]
      split <;> rfl

theorem maximum_mem (x : α) (xs : List α) : maximum lt x xs ∈ x :: xs := by
  induction xs generalizing x with
  | nil => exact List.mem_singleton_self x
  | cons y ys ih =>
      rw [maximum, List.foldl_cons]
      split
      · exact List.mem_cons_of_mem _ (ih y)
      · have hmem := ih x
        rw [List.mem_cons] at hmem ⊢
        exact hmem.imp_right (List.mem_cons_of_mem _)

end Plain

/-! ### On lists in memory -/

section Ordered

variable [DecidableEq α] {h : Heap α} {list : CList α} {xs P Q : List α} {x e : α}
  {less : Ptr α → Ptr α → Option Bool} {lt : α → α → Bool}

theorem run_listInsertOrderedLoop {fuel : Nat} (hl : IsList h list (P ++ xs))
    (hless : Decides less lt (e :: xs)) (hfuel : xs.length < fuel) :
    (listInsertOrderedLoop less list (some e) fuel (first xs (some list.tail))).run h =
      some (first (above lt e xs) (some list.tail), h) := by
  induction fuel generalizing P xs with
  | zero => exact absurd hfuel (Nat.not_lt_zero _)
  | succ fuel ih =>
      rw [listInsertOrderedLoop]
      cases xs with
      | nil => simp [listEnd, above]
      | cons x xs =>
          have hne : some x ≠ listEnd list := by
            simpa [listEnd] using hl.ne_tail (x := x) (by simp)
          have hcall : less (some e) (some x) = some (lt e x) := hless e (by simp) x (by simp)
          rw [first_cons, if_neg hne]
          cases hex : lt e x with
          | true => simp [hcall, hex, above]
          | false =>
              have hrest := ih (show IsList h list ((P ++ [x]) ++ xs) by simpa using hl)
                (hless.mono fun z hz => by
                  simp only [List.mem_cons] at hz ⊢
                  tauto)
                (by simpa using hfuel)
              have habove : above lt e (x :: xs) = above lt e xs := by simp [above, hex]
              rw [habove]
              simpa [hcall, hex, run_listNext_at hl] using hrest

theorem run_listInsertOrdered {fuel : Nat} (hl : IsList h list xs)
    (hless : Decides less lt (e :: xs)) (he : (h e).isSome = true) (hnot : e ∉ list.row xs)
    (hfuel : xs.length < fuel) :
    ∃ h', (listInsertOrdered less fuel list (some e)).run h = some ((), h') ∧
      IsList h' list (upTo lt e xs ++ e :: above lt e xs) ∧ h.SameOff (e :: list.row xs) h' := by
  have hsplit : upTo lt e xs ++ above lt e xs = xs := List.takeWhile_append_dropWhile
  have hloop := run_listInsertOrderedLoop (show IsList h list ([] ++ xs) from hl) hless hfuel
  obtain ⟨h', hrun, hlist, hsame⟩ := run_listInsert_at (hsplit.symm ▸ hl) he (hsplit.symm ▸ hnot)
  refine ⟨h', ?_, hlist, hsplit ▸ hsame⟩
  simp [listInsertOrdered, run_listBegin hl, hloop, hrun]

/-- The cells of the list for the duplicates, when there is one. -/
def dupRow (dups : Option (CList α × List α)) : List α := dups.elim [] fun d => d.1.row d.2

/-- `list_unique` keeps the first of equal neighbours and appends the others, in their
order, to the second list. -/
theorem run_listUniqueLoop {dups : Option (CList α × List α)} {fuel : Nat}
    (hl : IsList h list (P ++ x :: Q)) (hless : Decides less lt (x :: Q))
    (hdups : ∀ d ∈ dups, IsList h d.1 d.2 ∧ ∀ z ∈ list.row (P ++ x :: Q), z ∉ d.1.row d.2)
    (hfuel : Q.length < fuel) :
    ∃ h', (listUniqueLoop less list (dups.map Prod.fst) fuel (some x)).run h = some ((), h') ∧
      IsList h' list (P ++ x :: (unique lt x Q).1) ∧
      (∀ d ∈ dups, IsList h' d.1 (d.2 ++ (unique lt x Q).2)) ∧
      h.SameOff (list.row (P ++ x :: Q) ++ dupRow dups) h' := by
  induction fuel generalizing h P x Q dups with
  | zero => exact absurd hfuel (Nat.not_lt_zero _)
  | succ fuel ih =>
      rw [listUniqueLoop, run_bind_of (run_listNext_at hl)]
      cases Q with
      | nil => exact ⟨h, by simp [listEnd], hl, by simpa [unique] using fun d hd => (hdups d hd).1,
          .refl _ h⟩
      | cons y Q =>
          have hne : some y ≠ listEnd list := by
            simpa [listEnd] using hl.ne_tail (x := y) (by simp)
          have hxy : less (some x) (some y) = some (lt x y) := hless x (by simp) y (by simp)
          have hyx : less (some y) (some x) = some (lt y x) := hless y (by simp) x (by simp)
          have hl' : IsList h list ((P ++ [x]) ++ y :: Q) := by simpa using hl
          rw [first_cons, if_neg hne, unique]
          by_cases hequal : lt x y = false ∧ lt y x = false
          · -- `y` goes to the duplicates
            have hsub : Decides less lt (x :: Q) := hless.mono fun z hz => by
              simp only [List.mem_cons] at hz ⊢
              tauto
            obtain ⟨h₁, hremove, hlist₁, hsame₁, hnot⟩ := run_listRemove_at hl'
            have hrow (z : α) : z ∈ list.row (P ++ x :: y :: Q) ↔
                z = y ∨ z ∈ list.row ((P ++ [x]) ++ Q) := by
              simp only [CList.mem_row, List.mem_append, List.mem_cons, List.not_mem_nil, or_false]
              tauto
            rw [List.append_assoc, List.singleton_append] at hlist₁ hnot hsame₁ hrow
            rw [if_pos (by simpa using hequal)]
            cases dups with
            | none =>
                have hnone : ∀ d ∈ (none : Option (CList α × List α)), IsList h₁ d.1 d.2 ∧
                    ∀ z ∈ list.row (P ++ x :: Q), z ∉ d.1.row d.2 := by simp
                obtain ⟨h', hrun, hlist, _, hsame⟩ := ih hlist₁ hsub hnone (by simpa using hfuel)
                refine ⟨h', by simpa [hxy, hyx, hequal, hremove] using hrun, hlist, by simp, ?_⟩
                exact (hsame₁.trans (by simpa [dupRow] using hsame)).mono fun z hz =>
                  List.mem_append_left _ ((hrow z).mpr (.inr hz))
            | some d =>
                obtain ⟨D, zs⟩ := d
                obtain ⟨hD, hdisj⟩ := hdups _ rfl
                simp only [hrow] at hdisj
                have hy : (h₁ y).isSome = true := by
                  rw [hsame₁ y hnot]
                  exact hl.seg.isSome ((hrow y).mpr (.inl rfl))
                obtain ⟨h₂, hpush, hD₂, hsame₂⟩ := run_listPushBack
                  (hD.sameOff hsame₁ fun z hz hmem => hdisj z (.inr hmem) hz) hy
                  (hdisj y (.inl rfl))
                have hlist₂ := hlist₁.sameOff hsame₂ fun z hz hmem =>
                  (List.mem_cons.mp hmem).elim (fun heq => hnot (heq ▸ hz)) (hdisj z (.inr hz))
                have hdisj₂ : ∀ z ∈ list.row (P ++ x :: Q), z ∉ D.row (zs ++ [y]) := by
                  intro z hz hmem
                  have hzD := hdisj z (.inr hz)
                  have hzy : z ≠ y := fun heq => hnot (heq ▸ hz)
                  simp only [CList.mem_row, List.mem_append, List.mem_singleton] at hmem hzD
                  tauto
                have hsome : ∀ d ∈ some (D, zs ++ [y]), IsList h₂ d.1 d.2 ∧
                    ∀ z ∈ list.row (P ++ x :: Q), z ∉ d.1.row d.2 := fun d hd => by
                  obtain rfl := Option.mem_some_iff.mp hd
                  exact ⟨hD₂, hdisj₂⟩
                obtain ⟨h', hrun, hlist, hlists, hsame⟩ := ih hlist₂ hsub hsome
                  (by simpa using hfuel)
                refine ⟨h', by simpa [hxy, hyx, hequal, hremove, hpush] using hrun, hlist, ?_, ?_⟩
                · intro d hd
                  obtain rfl := Option.mem_some_iff.mp hd
                  simpa using hlists _ rfl
                · refine ((hsame₁.mono fun z hz => ?_).trans (hsame₂.mono fun z hz => ?_)).trans
                    (hsame.mono fun z hz => ?_)
                  · exact List.mem_append_left _ ((hrow z).mpr (.inr hz))
                  · refine (List.mem_cons.mp hz).elim (fun heq => ?_) (List.mem_append_right _)
                    exact List.mem_append_left _ ((hrow z).mpr (.inl heq))
                  · simp only [dupRow, Option.elim, List.mem_append, hrow, CList.mem_row,
                      List.mem_singleton] at hz ⊢
                    tauto
          · rw [if_neg (by simpa using hequal)]
            obtain ⟨h', hrun, hlist, hlists, hsame⟩ := ih hl'
              (hless.mono fun z hz => List.mem_cons_of_mem _ hz)
              (fun d hd => by simpa using hdups d hd) (by simpa using hfuel)
            refine ⟨h', ?_, by simpa using hlist, hlists, by simpa using hsame⟩
            simpa [hxy, hyx, hequal] using hrun

theorem run_listUnique {dups : Option (CList α × List α)} {fuel : Nat}
    (hl : IsList h list (x :: xs)) (hless : Decides less lt (x :: xs))
    (hdups : ∀ d ∈ dups, IsList h d.1 d.2 ∧ ∀ z ∈ list.row (x :: xs), z ∉ d.1.row d.2)
    (hfuel : xs.length < fuel) :
    ∃ h', (listUnique less fuel list (dups.map Prod.fst)).run h = some ((), h') ∧
      IsList h' list (x :: (unique lt x xs).1) ∧
      (∀ d ∈ dups, IsList h' d.1 (d.2 ++ (unique lt x xs).2)) ∧
      h.SameOff (list.row (x :: xs) ++ dupRow dups) h' := by
  have hloop := run_listUniqueLoop (show IsList h list ([] ++ x :: xs) from hl) hless hdups hfuel
  simpa [listUnique, run_listEmpty hl, run_listBegin hl] using hloop

theorem run_listUnique_nil (hl : IsList h list []) (fuel : Nat) (duplicates : Option (CList α)) :
    (listUnique less fuel list duplicates).run h = some ((), h) := by
  simp [listUnique, run_listEmpty hl]

theorem run_listExtremeLoop {fuel : Nat} (hl : IsList h list (P ++ xs))
    (hless : Decides less lt (x :: xs)) (hfuel : xs.length < fuel) :
    (listExtremeLoop less list fuel (some x) (first xs (some list.tail))).run h =
      some (some (maximum lt x xs), h) := by
  induction fuel generalizing P xs x with
  | zero => exact absurd hfuel (Nat.not_lt_zero _)
  | succ fuel ih =>
      rw [listExtremeLoop]
      cases xs with
      | nil => simp [listEnd, maximum]
      | cons y xs =>
          have hne : some y ≠ listEnd list := by
            simpa [listEnd] using hl.ne_tail (x := y) (by simp)
          have hcall : less (some x) (some y) = some (lt x y) := hless x (by simp) y (by simp)
          have hrest (b : α) (hb : b ∈ x :: y :: xs) := ih (x := b)
            (show IsList h list ((P ++ [y]) ++ xs) by simpa using hl)
            (hless.mono fun z hz => (List.mem_cons.mp hz).elim (fun heq => heq ▸ hb)
              fun hz => by simp [hz])
            (by simpa using hfuel)
          rw [first_cons, if_neg hne, maximum, List.foldl_cons, ← maximum]
          cases hxy : lt x y with
          | true => simpa [hcall, hxy, run_listNext_at hl] using hrest y (by simp)
          | false => simpa [hcall, hxy, run_listNext_at hl] using hrest x (by simp)

theorem run_listMax {fuel : Nat} (hl : IsList h list (x :: xs))
    (hless : Decides less lt (x :: xs)) (hfuel : xs.length < fuel) :
    (listMax less fuel list).run h = some (some (maximum lt x xs), h) := by
  have hl' : IsList h list ([] ++ x :: xs) := hl
  have hne : x ≠ list.tail := hl.ne_tail (by simp)
  have hloop := run_listExtremeLoop (show IsList h list ([x] ++ xs) from hl) hless hfuel
  simp [listMax, run_listBegin hl, listEnd, hne, run_listNext_at hl', hloop]

theorem run_listMin {fuel : Nat} (hl : IsList h list (x :: xs))
    (hless : Decides less lt (x :: xs)) (hfuel : xs.length < fuel) :
    (listMin less fuel list).run h = some (some (minimum lt x xs), h) := by
  have hl' : IsList h list ([] ++ x :: xs) := hl
  have hne : x ≠ list.tail := hl.ne_tail (by simp)
  have hless' : Decides (fun a b => less b a) (fun a b => lt b a) (x :: xs) :=
    fun y hy z hz => hless z hz y hy
  have hloop := run_listExtremeLoop (show IsList h list ([x] ++ xs) from hl) hless' hfuel
  simp [listMin, minimum, run_listBegin hl, listEnd, hne, run_listNext_at hl', hloop]

end Ordered

end SystemProgramming.Testlib
