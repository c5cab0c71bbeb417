import Mathlib.Data.List.Basic
import Mathlib.Data.List.TakeWhile

/-!
A list cut into pieces by a scan. The scan has a state, which `next` carries from
one element to the next, and `cuts` says for which elements it ends a piece; such
an element is in no piece.

A scan without a state is the splitting of a list at a predicate; its nonempty
pieces are the tokens of the list.
-/

namespace SystemProgramming.Library

variable {σ α : Type*}

section Scan

variable (next : σ → α → σ) (cuts : σ → α → Bool)

/-- The pieces of a list that is scanned from the state `q` on. -/
def pieces : σ → List α → List (List α)
  | _, [] => [[]]
  | q, a :: l =>
      if cuts q a then [] :: pieces (next q a) l
      else (pieces (next q a) l).modifyHead (a :: ·)

end Scan

variable {next : σ → α → σ} {cuts : σ → α → Bool} {q : σ} {l t : List α} {a : α}

theorem pieces_ne_nil : pieces next cuts q l ≠ [] := by
  induction l generalizing q with
  | nil => exact List.cons_ne_nil _ _
  | cons a l ih =>
      rw [pieces]
      split
      · exact List.cons_ne_nil _ _
      · simpa using ih

/-- There is a last piece. -/
theorem exists_pieces_concat (next : σ → α → σ) (cuts : σ → α → Bool) (q : σ) (l : List α) :
    ∃ init last, pieces next cuts q l = init ++ [last] :=
  ⟨_, _, (List.dropLast_append_getLast pieces_ne_nil).symm⟩

/-- There is a first piece. -/
theorem exists_pieces_cons (next : σ → α → σ) (cuts : σ → α → Bool) (q : σ) (l : List α) :
    ∃ first rest, pieces next cuts q l = first :: rest :=
  List.exists_cons_of_ne_nil pieces_ne_nil

/-- **Two lists in a row.** The last piece of the first and the first one of the second become
one piece. -/
theorem pieces_append {init rest : List (List α)} {last first : List α}
    (hl : pieces next cuts q l = init ++ [last])
    (ht : pieces next cuts (l.foldl next q) t = first :: rest) :
    pieces next cuts q (l ++ t) = init ++ (last ++ first) :: rest := by
  induction l generalizing q init last with
  | nil =>
      have hconcat : [] ++ [[]] = init ++ [last] := hl
      obtain ⟨rfl, rfl⟩ := List.append_singleton_inj.mp hconcat
      exact ht
  | cons a l ih =>
      rw [pieces] at hl
      rw [List.cons_append, pieces]
      split at hl
      · next hcut =>
          rw [if_pos hcut]
          -- the piece that ends here is not the last one
          cases init with
          | nil => exact absurd (List.cons.inj hl).2 pieces_ne_nil
          | cons piece init =>
              obtain ⟨rfl, hrest⟩ := List.cons.inj hl
              rw [ih hrest ht]
              rfl
      · next hcut =>
          rw [if_neg hcut]
          obtain ⟨init', last', hl'⟩ := exists_pieces_concat next cuts (next q a) l
          rw [ih hl' ht]
          rw [hl'] at hl
          cases init' with
          | nil =>
              have hconcat : [] ++ [a :: last'] = init ++ [last] := hl
              obtain ⟨rfl, rfl⟩ := List.append_singleton_inj.mp hconcat
              rfl
          | cons piece init' =>
              have hconcat : ((a :: piece) :: init') ++ [last'] = init ++ [last] := hl
              obtain ⟨rfl, rfl⟩ := List.append_singleton_inj.mp hconcat
              rfl

/-- The list ends with its last piece, which is the whole list if it is the only one. -/
theorem suffix_of_pieces {init : List (List α)} {last : List α}
    (hl : pieces next cuts q l = init ++ [last]) : last <:+ l ∧ (init = [] → last = l) := by
  induction l generalizing q init last with
  | nil =>
      have hconcat : [] ++ [[]] = init ++ [last] := hl
      obtain ⟨-, rfl⟩ := List.append_singleton_inj.mp hconcat
      exact ⟨List.suffix_refl _, fun _ => rfl⟩
  | cons a l ih =>
      obtain ⟨init', last', hl'⟩ := exists_pieces_concat next cuts (next q a) l
      obtain ⟨hsuffix, hwhole⟩ := ih hl'
      have hlonger := hsuffix.trans (List.suffix_cons a l)
      rw [pieces, hl'] at hl
      split at hl
      · have hconcat : ([] :: init') ++ [last'] = init ++ [last] := hl
        obtain ⟨rfl, rfl⟩ := List.append_singleton_inj.mp hconcat
        exact ⟨hlonger, nofun⟩
      · cases init' with
        | nil =>
            have hconcat : [] ++ [a :: last'] = init ++ [last] := hl
            obtain ⟨-, rfl⟩ := List.append_singleton_inj.mp hconcat
            rw [hwhole rfl]
            exact ⟨List.suffix_refl _, fun _ => rfl⟩
        | cons piece init' =>
            have hconcat : ((a :: piece) :: init') ++ [last'] = init ++ [last] := hl
            obtain ⟨rfl, rfl⟩ := List.append_singleton_inj.mp hconcat
            exact ⟨hlonger, nofun⟩

/-- Elements at which no scan cuts make one piece. -/
theorem pieces_of_not_cuts (h : ∀ a ∈ l, ∀ q, cuts q a = false) :
    pieces next cuts q l = [l] := by
  induction l generalizing q with
  | nil => rfl
  | cons a l ih =>
      rw [pieces, h a List.mem_cons_self, if_neg Bool.false_ne_true,
        ih fun b hb => h b (List.mem_cons_of_mem a hb)]
      rfl

theorem mem_of_mem_pieces {piece : List α} (hpiece : piece ∈ pieces next cuts q l)
    (ha : a ∈ piece) : a ∈ l := by
  induction l generalizing q piece with
  | nil => rw [List.mem_singleton.mp hpiece] at ha; nomatch ha
  | cons b l ih =>
      rw [pieces] at hpiece
      split at hpiece
      · rcases List.mem_cons.mp hpiece with rfl | hpiece
        · nomatch ha
        · exact List.mem_cons_of_mem b (ih hpiece ha)
      · obtain ⟨first, rest, hpieces⟩ := exists_pieces_cons next cuts (next q b) l
        have hsub {piece : List α} (hmem : piece ∈ first :: rest) (ha : a ∈ piece) : a ∈ b :: l :=
          List.mem_cons_of_mem b (ih (hpieces ▸ hmem) ha)
        rw [hpieces, List.modifyHead_cons] at hpiece
        rcases List.mem_cons.mp hpiece with rfl | hpiece
        · rcases List.mem_cons.mp ha with rfl | ha
          · exact List.mem_cons_self
          · exact hsub List.mem_cons_self ha
        · exact hsub (List.mem_cons_of_mem first hpiece) ha

/-- An element at which the scan does not cut is in some piece. -/
theorem mem_pieces_append (hcut : cuts (l.foldl next q) a = false) (t : List α) :
    ∃ piece ∈ pieces next cuts q (l ++ a :: t), a ∈ piece := by
  obtain ⟨init, last, hl⟩ := exists_pieces_concat next cuts q l
  obtain ⟨first, rest, ht⟩ := exists_pieces_cons next cuts (next (l.foldl next q) a) t
  have hat : pieces next cuts (l.foldl next q) (a :: t) = (a :: first) :: rest := by
    rw [pieces, hcut, if_neg Bool.false_ne_true, ht]
    rfl
  rw [pieces_append hl hat]
  exact ⟨last ++ a :: first, by simp, by simp⟩

theorem exists_mem_pieces (ha : a ∈ l) (hcuts : ∀ q, cuts q a = false) :
    ∃ piece ∈ pieces next cuts q l, a ∈ piece := by
  obtain ⟨front, back, rfl⟩ := List.append_of_mem ha
  exact mem_pieces_append (hcuts _) back

/-! ### Tokens -/

/-- The nonempty pieces of a list between the elements that satisfy `p`. -/
def tokens (p : α → Bool) (l : List α) : List (List α) :=
  (l.splitOnP p).filter fun piece => !piece.isEmpty

variable {p : α → Bool}

theorem tokens_cons_of_pos (ha : p a = true) (l : List α) : tokens p (a :: l) = tokens p l := by
  rw [tokens, List.splitOnP_cons_eq_if_modifyHead, if_pos ha]
  rfl

theorem tokens_dropWhile (p : α → Bool) (l : List α) : tokens p (l.dropWhile p) = tokens p l := by
  induction l with
  | nil => rfl
  | cons a l ih =>
      by_cases ha : p a = true
      · rw [List.dropWhile_cons_of_pos ha, ih, tokens_cons_of_pos ha]
      · rw [List.dropWhile_cons_of_neg ha]

theorem tokens_of_nil (hdrop : l.dropWhile p = []) : tokens p l = [] := by
  rw [← tokens_dropWhile, hdrop, tokens, List.splitOnP_nil]
  rfl

theorem tokens_append {w : List α} (hne : w ≠ []) (hclean : ∀ b ∈ w, p b = false) :
    tokens p w = [w] ∧ ∀ b rest, p b = true → tokens p (w ++ b :: rest) = w :: tokens p rest := by
  have hkeep (rest : List (List α)) : (w :: rest).filter (fun piece => !piece.isEmpty) =
      w :: rest.filter fun piece => !piece.isEmpty := by
    rw [List.filter_cons, if_pos (by simpa using hne)]
  refine ⟨?_, fun b rest hb => ?_⟩
  · rw [tokens, List.splitOnP_eq_singleton hclean, hkeep]
    rfl
  · rw [tokens, List.splitOnP_append_cons_of_forall_mem hclean b hb, hkeep]
    rfl

/-- **The first token** and what stands behind the element that ends it. -/
theorem tokens_of_cons (hdrop : l.dropWhile p = a :: t) :
    tokens p l = (a :: t).takeWhile (fun b => !p b) ::
      tokens p (((a :: t).dropWhile fun b => !p b).drop 1) := by
  have ha : p a = false := by
    have hhead := List.head_dropWhile_not p (hdrop ▸ List.cons_ne_nil a t)
    simpa only [hdrop, List.head_cons] using hhead
  have hne : (a :: t).takeWhile (fun b => !p b) ≠ [] := by simp [ha]
  have hclean : ∀ b ∈ (a :: t).takeWhile (fun b => !p b), p b = false := fun b hb => by
    simpa using List.mem_takeWhile_imp hb
  obtain ⟨hlast, hmore⟩ := tokens_append hne hclean
  have hwhole := List.takeWhile_append_dropWhile (p := fun b => !p b) (l := a :: t)
  rw [← tokens_dropWhile, hdrop]
  cases hrest : (a :: t).dropWhile fun b => !p b with
  | nil =>
      rw [hrest, List.append_nil] at hwhole
      rw [List.drop_nil, tokens_of_nil (l := []) rfl, ← hlast, hwhole]
  | cons b rest =>
      have hb : p b = true := by
        have hhead := List.head_dropWhile_not (fun b => !p b) (hrest ▸ List.cons_ne_nil b rest)
        simpa [hrest] using hhead
      rw [hrest] at hwhole
      rw [List.drop_one, List.tail_cons, ← hmore b rest hb, hwhole]

/-- The tokens have all elements but those between them. -/
theorem flatten_tokens (p : α → Bool) (l : List α) :
    (tokens p l).flatten = l.filter fun a => !p a := by
  have hkept (pieces : List (List α)) :
      (pieces.filter fun piece => !piece.isEmpty).flatten = pieces.flatten := by
    induction pieces with
    | nil => rfl
    | cons piece pieces ih =>
        cases piece with
        | nil => simpa using ih
        | cons a piece => simpa using ih
  rw [tokens, hkept]
  induction l with
  | nil => rfl
  | cons a l ih =>
      rw [List.splitOnP_cons_eq_if_modifyHead, List.filter_cons]
      split
      · next ha => simpa [ha] using ih
      · next ha =>
          obtain ⟨first, rest, hsplit⟩ := List.exists_cons_of_ne_nil (List.splitOnP_ne_nil p l)
          rw [hsplit, List.flatten_cons] at ih
          rw [hsplit, List.modifyHead_cons, List.flatten_cons, List.cons_append, ih, if_pos]
          simpa using ha

end SystemProgramming.Library
