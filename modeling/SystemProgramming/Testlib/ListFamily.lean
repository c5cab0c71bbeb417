import SystemProgramming.Testlib.ListSpec

/-!
Several lists in one memory. `Family h list I xs` says that the lists with an
index in `I` are well formed and share no cell; a change of one of them leaves
the others as they are.
-/

namespace SystemProgramming.Testlib

open SystemProgramming.Library

variable {α ι : Type} {h h' : Heap α} {list : ι → CList α} {I : ι → Prop} {xs : ι → List α}
  {i : ι}

structure Family (h : Heap α) (list : ι → CList α) (I : ι → Prop) (xs : ι → List α) : Prop where
  isList : ∀ i, I i → IsList h (list i) (xs i)
  disjoint : ∀ i j, I i → I j → i ≠ j → ∀ x ∈ (list i).row (xs i), x ∉ (list j).row (xs j)

/-- An address in none of the lists. -/
def Outside (list : ι → CList α) (I : ι → Prop) (xs : ι → List α) (x : α) : Prop :=
  ∀ i, I i → x ∉ (list i).row (xs i)

/-- The lists are made of the links of their own cells. -/
theorem Family.agree (hf : Family h list I xs)
    (hsame : ∀ i, I i → ∀ x ∈ (list i).row (xs i), h' x = h x) : Family h' list I xs :=
  ⟨fun i hi => ⟨(hf.isList i hi).seg.congr (hsame i hi), (hf.isList i hi).nodup⟩, hf.disjoint⟩

/-- The lists are untouched by writes elsewhere. -/
theorem Family.frame {S : List α} (hf : Family h list I xs) (hsame : h.SameOff S h')
    (hS : ∀ x ∈ S, Outside list I xs x) : Family h' list I xs :=
  hf.agree fun i hi x hx => hsame x fun hmem => hS x hmem i hi hx

theorem Family.mono {J : ι → Prop} (hf : Family h list I xs) (hJ : ∀ i, J i → I i) :
    Family h list J xs :=
  ⟨fun i hi => hf.isList i (hJ i hi), fun i j hi hj => hf.disjoint i j (hJ i hi) (hJ j hj)⟩

theorem Family.congr {ys : ι → List α} (hf : Family h list I xs) (hys : ∀ i, I i → ys i = xs i) :
    Family h list I ys := by
  refine ⟨fun i hi => ?_, fun i j hi hj => ?_⟩
  · rw [hys i hi]
    exact hf.isList i hi
  · rw [hys i hi, hys j hj]
    exact hf.disjoint i j hi hj

/-- A list of other cells joins the family. -/
theorem Family.extend (hf : Family h list I xs) (hlist : IsList h' (list i) (xs i))
    (hsame : h.SameOff ((list i).row (xs i)) h')
    (hout : ∀ x ∈ (list i).row (xs i), Outside list I xs x) :
    Family h' list (fun j => I j ∨ j = i) xs := by
  have hf' := hf.frame hsame hout
  refine ⟨fun j hj => ?_, fun a b ha hb hab x hxa hxb => ?_⟩
  · rcases hj with hj | rfl
    · exact hf'.isList j hj
    · exact hlist
  · rcases ha with ha | rfl
    · rcases hb with hb | rfl
      · exact hf.disjoint a b ha hb hab x hxa hxb
      · exact hout x hxb a ha hxa
    · exact hb.elim (fun hb => hout x hxa b hb hxb) fun hb => hab hb.symm

/-- Cells stay allocated when those that were written are. -/
theorem isSome_of_sameOff {S : List α} (hsame : h.SameOff S h')
    (hS : ∀ x ∈ S, (h' x).isSome = true) {x : α} (hx : (h x).isSome = true) :
    (h' x).isSome = true := by
  by_cases hmem : x ∈ S
  · exact hS x hmem
  · rw [hsame x hmem]
    exact hx

variable [DecidableEq ι]

/-- One list changes, and may take up cells that were in none. -/
theorem Family.change {ys E : List α} (hf : Family h list I xs) (hi : I i)
    (hlist : IsList h' (list i) ys) (hsame : h.SameOff (E ++ (list i).row (xs i)) h')
    (hE : ∀ x ∈ E, Outside list I xs x) (hys : ∀ y ∈ ys, y ∈ xs i ∨ y ∈ E) :
    Family h' list I (Function.update xs i ys) := by
  have hnew (j : ι) (hj : I j) (hji : j ≠ i) (x : α) (hx : x ∈ (list i).row ys) :
      x ∉ (list j).row (xs j) := by
    have hold : x ∈ (list i).row (xs i) ∨ x ∈ E := by
      rw [CList.mem_row] at hx ⊢
      rcases hx with hx | hx | hx
      · exact .inl (.inl hx)
      · exact (hys x hx).imp_left fun h => .inr (.inl h)
      · exact .inl (.inr (.inr hx))
    exact hold.elim (hf.disjoint i j hi hj (Ne.symm hji) x) fun hx => hE x hx j hj
  refine ⟨fun j hj => ?_, fun a b ha hb hab x hxa hxb => ?_⟩
  · by_cases hji : j = i
    · subst hji
      rwa [Function.update_self]
    · rw [Function.update_of_ne hji]
      refine (hf.isList j hj).sameOff hsame fun x hx hmem => ?_
      exact (List.mem_append.mp hmem).elim (fun hxE => hE x hxE j hj hx)
        (hf.disjoint j i hj hi hji x hx)
  · by_cases hai : a = i
    · subst hai
      rw [Function.update_self] at hxa
      rw [Function.update_of_ne (Ne.symm hab)] at hxb
      exact hnew b hb (Ne.symm hab) x hxa hxb
    · rw [Function.update_of_ne hai] at hxa
      by_cases hbi : b = i
      · subst hbi
        rw [Function.update_self] at hxb
        exact hnew a ha hai x hxb hxa
      · rw [Function.update_of_ne hbi] at hxb
        exact hf.disjoint a b ha hb hab x hxa hxb

theorem Outside.change {x : α} {ys : List α} (hx : Outside list I xs x)
    (hys : x ∉ (list i).row ys) : Outside list I (Function.update xs i ys) x := by
  intro j hj
  by_cases hji : j = i
  · subst hji
    rwa [Function.update_self]
  · rw [Function.update_of_ne hji]
    exact hx j hj

variable [DecidableEq α]

theorem Family.run_remove {A zs : List α} {z : α} (hf : Family h list I xs) (hi : I i)
    (hxs : xs i = A ++ z :: zs) :
    ∃ h', (listRemove (some z)).run h = some (first zs (some (list i).tail), h') ∧
      Family h' list I (Function.update xs i (A ++ zs)) ∧
      Outside list I (Function.update xs i (A ++ zs)) z ∧
      h.SameOff ((list i).row (A ++ zs)) h' := by
  obtain ⟨h', hrun, hlist, hsame, hnot⟩ := run_listRemove_at (hxs ▸ hf.isList i hi)
  have hsub (x : α) (hx : x ∈ A ++ zs) : x ∈ xs i := by
    rw [hxs]
    simp only [List.mem_append, List.mem_cons] at hx ⊢
    tauto
  have hchange := hf.change (E := []) hi hlist (hsame.mono fun x hx => by
    rw [CList.mem_row] at hx
    exact CList.mem_row.mpr (hx.imp_right (Or.imp_left (hsub x)))) (by simp)
    fun x hx => .inl (hsub x hx)
  refine ⟨h', hrun, hchange, fun j hj => ?_, hsame⟩
  by_cases hji : j = i
  · subst hji
    rwa [Function.update_self]
  · rw [Function.update_of_ne hji]
    exact hf.disjoint i j hi hj (Ne.symm hji) z (CList.mem_row.mpr (.inr (.inl (by simp [hxs]))))

theorem Family.run_popFront {zs : List α} {z : α} (hf : Family h list I xs) (hi : I i)
    (hxs : xs i = z :: zs) :
    ∃ h', (listPopFront (list i)).run h = some (some z, h') ∧
      Family h' list I (Function.update xs i zs) ∧ Outside list I (Function.update xs i zs) z ∧
      h.SameOff ((list i).row zs) h' := by
  obtain ⟨h', hrun, hf', hout, hsame⟩ := hf.run_remove (A := []) hi hxs
  refine ⟨h', ?_, hf', hout, hsame⟩
  rw [listPopFront, run_bind_of (run_listFront (hxs ▸ hf.isList i hi)), run_bind_of hrun]
  rfl

/-- A list of the family is made empty; its elements are then in none. -/
theorem Family.run_listInit (hf : Family h list I xs) (hi : I i) :
    ∃ h', (listInit (list i)).run h = some ((), h') ∧
      Family h' list I (Function.update xs i []) ∧ h.SameOff ((list i).row []) h' := by
  have hseg := (hf.isList i hi).seg
  have hnodup := (hf.isList i hi).nodup
  have hne : (list i).head ≠ (list i).tail := by
    rw [CList.row, List.cons_append, List.nodup_cons] at hnodup
    exact fun heq => hnodup.1 (heq ▸ List.mem_append_right _ (List.mem_singleton_self _))
  obtain ⟨h', hrun, hlist, hsame⟩ := Testlib.run_listInit
    (hseg.isSome (CList.mem_row.mpr (.inl rfl)))
    (hseg.isSome (CList.mem_row.mpr (.inr (.inr rfl)))) hne
  refine ⟨h', hrun, hf.change (E := []) hi hlist (hsame.mono fun x hx => ?_) (by simp) (by simp),
    hsame⟩
  rw [CList.mem_row] at hx
  exact CList.mem_row.mpr (hx.imp_right (Or.imp_left fun hnil => absurd hnil List.not_mem_nil))

theorem Family.run_pushFront {e : α} (hf : Family h list I xs) (hi : I i)
    (he : (h e).isSome = true) (hnot : Outside list I xs e) :
    ∃ h', (listPushFront (list i) (some e)).run h = some ((), h') ∧
      Family h' list I (Function.update xs i (e :: xs i)) ∧
      h.SameOff (e :: (list i).row (xs i)) h' := by
  obtain ⟨h', hrun, hlist, hsame⟩ := run_listPushFront (hf.isList i hi) he (hnot i hi)
  refine ⟨h', hrun, hf.change (E := [e]) hi hlist hsame ?_ ?_, hsame⟩
  · rintro x hx
    obtain rfl := List.mem_singleton.mp hx
    exact hnot
  · intro y hy
    rw [List.mem_singleton]
    exact (List.mem_cons.mp hy).symm

end SystemProgramming.Testlib
