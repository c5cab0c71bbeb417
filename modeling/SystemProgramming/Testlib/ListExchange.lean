import Mathlib.Logic.Equiv.Basic
import SystemProgramming.Testlib.ListFamily
import SystemProgramming.Testlib.ListReorder

/-!
`list_swap` in a memory with several lists. Two elements exchange their places,
be they one element, neighbours, or elements of two lists: every list is the
image of the old one under the transposition of the two. The links of the lists
are all there is to their memory, so that a second call undoes the first.
-/

namespace SystemProgramming.Testlib

open SystemProgramming.Library

variable {α ι : Type} [DecidableEq α] {h h' : Heap α} {list : ι → CList α} {I : ι → Prop}
  {xs : ι → List α} {i j : ι} {a b : α}

/-! ### Transpositions of lists -/

theorem map_swap_of_notMem {ys : List α} (ha : a ∉ ys) (hb : b ∉ ys) :
    ys.map (Equiv.swap a b) = ys := by
  have hfix : ys.map (Equiv.swap a b) = ys.map id := List.map_congr_left fun x hx =>
    Equiv.swap_apply_of_ne_of_ne (fun heq => ha (heq ▸ hx)) fun heq => hb (heq ▸ hx)
  rw [hfix, List.map_id]

theorem map_swap_swap (ys : List α) :
    (ys.map (Equiv.swap a b)).map (Equiv.swap a b) = ys := by
  have hid : Equiv.swap a b ∘ Equiv.swap a b = id := by
    ext x
    simp
  rw [List.map_map, hid, List.map_id]

theorem mem_map_swap {ys : List α} {x : α} (hx : x ∈ ys.map (Equiv.swap a b)) :
    x = a ∨ x = b ∨ x ∈ ys := by
  obtain ⟨y, hy, rfl⟩ := List.mem_map.mp hx
  rcases eq_or_ne y a with rfl | hya
  · exact .inr (.inl (Equiv.swap_apply_left ..))
  · rcases eq_or_ne y b with rfl | hyb
    · exact .inl (Equiv.swap_apply_right ..)
    · rw [Equiv.swap_apply_of_ne_of_ne hya hyb]
      exact .inr (.inr hy)

/-- One of the two stands in the list. -/
theorem map_swap_left {A B : List α} (hnodup : (A ++ a :: B).Nodup) (hb : b ∉ A ++ B) :
    (A ++ a :: B).map (Equiv.swap a b) = A ++ b :: B := by
  rw [List.nodup_middle, List.nodup_cons] at hnodup
  rw [List.mem_append, not_or] at hb
  have ha := hnodup.1
  rw [List.mem_append, not_or] at ha
  rw [List.map_append, List.map_cons, Equiv.swap_apply_left, map_swap_of_notMem ha.1 hb.1,
    map_swap_of_notMem ha.2 hb.2]

/-- Both stand in the list. -/
theorem map_swap_both {P M N : List α} (hnodup : (P ++ a :: (M ++ b :: N)).Nodup) :
    (P ++ a :: (M ++ b :: N)).map (Equiv.swap a b) = P ++ b :: (M ++ a :: N) := by
  simp only [List.nodup_append, List.nodup_cons, List.mem_append, List.mem_cons, not_or]
    at hnodup
  obtain ⟨_, ⟨⟨haM, _, haN⟩, _, ⟨hbN, _⟩, hdM⟩, hdP⟩ := hnodup
  have haP : a ∉ P := fun hmem => hdP a hmem a (.inl rfl) rfl
  have hbP : b ∉ P := fun hmem => hdP b hmem b (.inr (.inr (.inl rfl))) rfl
  have hbM : b ∉ M := fun hmem => hdM b hmem b (.inl rfl) rfl
  rw [List.map_append, List.map_cons, List.map_append, List.map_cons, Equiv.swap_apply_left,
    Equiv.swap_apply_right, map_swap_of_notMem haP hbP, map_swap_of_notMem haM hbM,
    map_swap_of_notMem haN hbN]

/-! ### The lists of a family -/

/-- The sentinels stay where they are. -/
theorem row_map_swap {l : CList α} {ys : List α} (ha : a ≠ l.head ∧ a ≠ l.tail)
    (hb : b ≠ l.head ∧ b ≠ l.tail) :
    l.row (ys.map (Equiv.swap a b)) = (l.row ys).map (Equiv.swap a b) := by
  simp [CList.row, Equiv.swap_apply_of_ne_of_ne, ha.1.symm, ha.2.symm, hb.1.symm, hb.2.symm]

omit [DecidableEq α] in
/-- An element of a list is no sentinel. -/
theorem Family.ne_sentinel (hf : Family h list I xs) (hi : I i) (ha : a ∈ xs i) {k : ι}
    (hk : I k) : a ≠ (list k).head ∧ a ≠ (list k).tail := by
  have hrow : a ∈ (list i).row (xs i) := CList.mem_row.mpr (.inr (.inl ha))
  rcases eq_or_ne i k with rfl | hne
  · exact ⟨(hf.isList i hi).ne_head ha, (hf.isList i hi).ne_tail ha⟩
  · have hnot := hf.disjoint i k hi hk hne a hrow
    rw [CList.mem_row, not_or, not_or] at hnot
    exact ⟨hnot.1, hnot.2.2⟩

theorem Family.row_map_swap (hf : Family h list I xs) (hi : I i) (hj : I j) (ha : a ∈ xs i)
    (hb : b ∈ xs j) {k : ι} (hk : I k) :
    (list k).row ((xs k).map (Equiv.swap a b)) = ((list k).row (xs k)).map (Equiv.swap a b) :=
  Testlib.row_map_swap (hf.ne_sentinel hi ha hk) (hf.ne_sentinel hj hb hk)

/-- The lists of the two elements have exchanged them; the other lists have neither. -/
theorem Family.exchange (hf : Family h list I xs) (hi : I i) (hj : I j) (ha : a ∈ xs i)
    (hb : b ∈ xs j) (hli : IsList h' (list i) ((xs i).map (Equiv.swap a b)))
    (hlj : IsList h' (list j) ((xs j).map (Equiv.swap a b)))
    (hsame : h.SameOff ((list i).row (xs i) ++ (list j).row (xs j)) h') :
    Family h' list I fun k => (xs k).map (Equiv.swap a b) := by
  refine ⟨fun k hk => ?_, fun k l hk hl hkl x hxk hxl => ?_⟩
  · rcases eq_or_ne k i with rfl | hki
    · exact hli
    · rcases eq_or_ne k j with rfl | hkj
      · exact hlj
      · have hnot (c : α) (m : ι) (hm : I m) (hc : c ∈ xs m) (hkm : k ≠ m) : c ∉ xs k := fun hck =>
          hf.disjoint k m hk hm hkm c (CList.mem_row.mpr (.inr (.inl hck)))
            (CList.mem_row.mpr (.inr (.inl hc)))
        rw [map_swap_of_notMem (hnot a i hi ha hki) (hnot b j hj hb hkj)]
        refine (hf.isList k hk).sameOff hsame fun x hx hmem => ?_
        rcases List.mem_append.mp hmem with hmem | hmem
        · exact hf.disjoint k i hk hi hki x hx hmem
        · exact hf.disjoint k j hk hj hkj x hx hmem
  · rw [hf.row_map_swap hi hj ha hb hk] at hxk
    rw [hf.row_map_swap hi hj ha hb hl] at hxl
    obtain ⟨y, hy, rfl⟩ := List.mem_map.mp hxk
    obtain ⟨z, hz, hzy⟩ := List.mem_map.mp hxl
    exact hf.disjoint k l hk hl hkl y hy ((Equiv.swap a b).injective hzy ▸ hz)

theorem Family.run_listSwap (hf : Family h list I xs) (hi : I i) (hj : I j) (ha : a ∈ xs i)
    (hb : b ∈ xs j) (fuel : Nat) :
    ∃ h', (listSwap (fuel + 2) (some a) (some b)).run h = some ((), h') ∧
      Family h' list I (fun k => (xs k).map (Equiv.swap a b)) ∧
      h.SameOff ((list i).row (xs i) ++ (list j).row (xs j)) h' := by
  have hli := hf.isList i hi
  have hlj := hf.isList j hj
  rcases eq_or_ne a b with rfl | hab
  · obtain ⟨P, N, hxs⟩ := List.append_of_mem ha
    have hid (ys : List α) : ys.map (Equiv.swap a a) = ys := by simp
    simp only [hid]
    exact ⟨h, run_listSwap_self (hxs ▸ hli) _, hf, .refl _ h⟩
  rcases eq_or_ne i j with rfl | hij
  · -- in one list, in one order or the other
    obtain ⟨A, B, hA⟩ := List.append_of_mem ha
    have hbAB : b ∈ A ∨ b ∈ B := by
      rw [hA, List.mem_append, List.mem_cons] at hb
      exact hb.imp_right fun hb => hb.resolve_left (Ne.symm hab)
    have hnodup := hli.nodup_elems
    rcases hbAB with hbA | hbB
    · obtain ⟨P, M, rfl⟩ := List.append_of_mem hbA
      have hxs : xs i = P ++ b :: (M ++ a :: B) := by simpa using hA
      rw [hxs] at hli hnodup
      obtain ⟨h', _, hrun, hlist, hsame⟩ := Testlib.run_listSwap hli fuel
      rw [← map_swap_both hnodup, Equiv.swap_comm, ← hxs] at hlist
      rw [← hxs] at hsame
      have hsame' := hsame.mono fun x hx => List.mem_append_left ((list i).row (xs i)) hx
      exact ⟨h', hrun, hf.exchange hi hi ha hb hlist hlist hsame', hsame'⟩
    · obtain ⟨M, N, rfl⟩ := List.append_of_mem hbB
      rw [hA] at hli hnodup
      obtain ⟨h', hrun, _, hlist, hsame⟩ := Testlib.run_listSwap hli fuel
      rw [← map_swap_both hnodup, ← hA] at hlist
      rw [← hA] at hsame
      have hsame' := hsame.mono fun x hx => List.mem_append_left ((list i).row (xs i)) hx
      exact ⟨h', hrun, hf.exchange hi hi ha hb hlist hlist hsame', hsame'⟩
  · obtain ⟨A, B, hA⟩ := List.append_of_mem ha
    obtain ⟨C, D, hC⟩ := List.append_of_mem hb
    have hdisj := hf.disjoint i j hi hj hij
    have hsub (X Y : List α) (c x : α) (hx : x ∈ X ++ Y) : x ∈ X ++ c :: Y :=
      (List.sublist_cons_self c Y).append_left X |>.subset hx
    have hbA (hmem : b ∈ A ++ B) : False :=
      hdisj b (CList.mem_row.mpr (.inr (.inl (hA ▸ hsub A B a b hmem))))
        (CList.mem_row.mpr (.inr (.inl hb)))
    have haC (hmem : a ∈ C ++ D) : False :=
      hdisj a (CList.mem_row.mpr (.inr (.inl ha)))
        (CList.mem_row.mpr (.inr (.inl (hC ▸ hsub C D b a hmem))))
    have hnodupA := hli.nodup_elems
    have hnodupC := hlj.nodup_elems
    rw [hA] at hli hdisj hnodupA
    rw [hC] at hlj hdisj hnodupC
    obtain ⟨h', hrun, hli', hlj', hsame⟩ := run_listSwap_other hli hlj hdisj (fuel + 1)
    rw [← hA, ← hC] at hsame
    refine ⟨h', hrun, hf.exchange hi hj ha hb ?_ ?_ hsame, hsame⟩
    · rwa [hA, map_swap_left hnodupA hbA]
    · rwa [hC, Equiv.swap_comm, map_swap_left hnodupC haC]

/-- `list_swap` exchanges the places of any two elements of the lists, and moves nothing else;
called again, it restores the memory. -/
theorem listSwap_exchanges (hf : Family h list I xs) (hi : I i) (hj : I j) (ha : a ∈ xs i)
    (hb : b ∈ xs j) (fuel : Nat) :
    ∃ h', (listSwap (fuel + 2) (some a) (some b)).run h = some ((), h') ∧
      Family h' list I (fun k => (xs k).map (Equiv.swap a b)) ∧
      h.SameOff ((list i).row (xs i) ++ (list j).row (xs j)) h' ∧
      (listSwap (fuel + 2) (some a) (some b)).run h' = some ((), h) := by
  obtain ⟨h', hrun, hf', hsame⟩ := hf.run_listSwap hi hj ha hb fuel
  refine ⟨h', hrun, hf', hsame, ?_⟩
  have ha' : a ∈ (xs j).map (Equiv.swap a b) := List.mem_map.mpr ⟨b, hb, Equiv.swap_apply_right ..⟩
  have hb' : b ∈ (xs i).map (Equiv.swap a b) := List.mem_map.mpr ⟨a, ha, Equiv.swap_apply_left ..⟩
  obtain ⟨h₂, hrun₂, hf₂, hsame₂⟩ := hf'.run_listSwap hj hi ha' hb' fuel
  simp only [map_swap_swap] at hf₂
  -- both runs write the two rows only, and these hold the old elements again
  have hrows (k : ι) (hk : k = i ∨ k = j) (x : α)
      (hx : x ∈ (list k).row ((xs k).map (Equiv.swap a b))) :
      x ∈ (list i).row (xs i) ++ (list j).row (xs j) := by
    have hmem : x = (list k).head ∨ (x = a ∨ x = b ∨ x ∈ xs k) ∨ x = (list k).tail :=
      (CList.mem_row.mp hx).imp_right (Or.imp_left mem_map_swap)
    rw [List.mem_append, CList.mem_row, CList.mem_row]
    rcases hk with rfl | rfl
    · rcases hmem with h | (rfl | rfl | h) | h <;> tauto
    · rcases hmem with h | (rfl | rfl | h) | h <;> tauto
  have hheap : h₂ = h := by
    funext x
    by_cases hxi : x ∈ (list i).row (xs i)
    · exact (hf.isList i hi).seg.agree (hf₂.isList i hi).seg x hxi
    · by_cases hxj : x ∈ (list j).row (xs j)
      · exact (hf.isList j hj).seg.agree (hf₂.isList j hj).seg x hxj
      · have hx : x ∉ (list i).row (xs i) ++ (list j).row (xs j) := by
          rw [List.mem_append]
          tauto
        rw [hsame₂ x fun hmem => ?_, hsame x hx]
        rcases List.mem_append.mp hmem with hmem | hmem
        · exact hx (hrows j (.inr rfl) x hmem)
        · exact hx (hrows i (.inl rfl) x hmem)
  rw [hrun₂, hheap]

/-- An element and the neighbour of its neighbour, in the first of two lists. -/
theorem listSwap_exchanges_oneApart :
    ∃ h', (listSwap 2 (some 2) (some 4)).run
        (memoryOf [(⟨0, 1⟩, [2, 3, 4]), (⟨10, 11⟩, [12])]) = some ((), h') ∧
      Family h' (fun k : Bool => if k then ⟨0, 1⟩ else ⟨10, 11⟩) (fun _ => True)
        (fun k => (if k then [2, 3, 4] else [12]).map (Equiv.swap 2 4)) ∧
      (memoryOf [(⟨0, 1⟩, [2, 3, 4]), (⟨10, 11⟩, [12])]).SameOff
        (CList.row ⟨0, 1⟩ [2, 3, 4] ++ CList.row ⟨0, 1⟩ [2, 3, 4]) h' ∧
      (listSwap 2 (some 2) (some 4)).run h' =
        some ((), memoryOf [(⟨0, 1⟩, [2, 3, 4]), (⟨10, 11⟩, [12])]) := by
  have hlists := isList_memoryOf (show (List.flatMap (fun l : CList Nat × List Nat => l.1.row l.2)
    [(⟨0, 1⟩, [2, 3, 4]), (⟨10, 11⟩, [12])]).Nodup by decide)
  have hf : Family (memoryOf [(⟨0, 1⟩, [2, 3, 4]), (⟨10, 11⟩, [12])])
      (fun k : Bool => if k then ⟨0, 1⟩ else ⟨10, 11⟩) (fun _ => True)
      (fun k => if k then [2, 3, 4] else [12]) := by
    refine ⟨fun k _ => ?_, by decide⟩
    cases k with
    | false => exact hlists (⟨10, 11⟩, [12]) (by simp)
    | true => exact hlists (⟨0, 1⟩, [2, 3, 4]) (by simp)
  exact listSwap_exchanges (i := true) (j := true) hf trivial trivial (by decide) (by decide) 0

end SystemProgramming.Testlib
