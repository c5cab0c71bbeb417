import SystemProgramming.Testlib.ListSpec

/-!
`list_splice` on positions it is not meant for: a target inside of the range,
and a range whose end is in front of its start. The six writes turn three links
of a list; which of the pieces stay on the way from head to tail depends on the
order of the three places.
-/

namespace SystemProgramming.Testlib

open SystemProgramming.Library Heap

variable {α : Type} {h : Heap α} {p q r n : Option α} {P X Y S : List α} {a b c d f l : α}

/-- What is in the middle is not at the ends. -/
theorem notMem_ends {x : α} (hnodup : (P ++ X ++ S).Nodup) (hx : x ∈ X) : x ∉ P ++ S := by
  intro hmem
  have hsplit := (perm_middle P X S).nodup_iff.mp hnodup
  exact (List.nodup_append.mp hsplit).2.2 x hx x hmem rfl

theorem nodup_ends (hnodup : (P ++ X ++ S).Nodup) : (P ++ S).Nodup :=
  (List.nodup_append.mp ((perm_middle P X S).nodup_iff.mp hnodup)).2.1

variable [DecidableEq α]

/-! ### The links after the writes -/

/-- The link from `a` to `c` is on the way; the other two are not. -/
theorem Seg.spliceLinks_cut (hP : Seg h p P q) (hS : Seg h r S n) (hnodup : (P ++ S).Nodup)
    (ha : P.getLast? = some a) (hc : S.head? = some c) (hf : f ∉ P ++ S) (hl : l ∉ P ++ S)
    (hd : d ∉ P ++ S) (hb : b ∉ P ++ S) : Seg (spliceLinks h a f l c d b) p (P ++ S) n := by
  refine hP.bridge hS hnodup ha hc fun x hx => ?_
  have hne (y : α) (hy : y ∉ P ++ S) : x ≠ y := fun heq => hy (heq ▸ hx)
  rw [spliceLinks, setPrev_of_ne _ _ (hne b hb), setNext_of_ne _ _ (hne d hd),
    setNext_of_ne _ _ (hne l hl), setPrev_of_ne _ _ (hne f hf)]

/-- The link from `l` to `b` is on the way. When `b` is `f`, its other link is written first. -/
theorem Seg.spliceLinks_end (hP : Seg h p P q) (hS : Seg h r S n) (hnodup : (P ++ S).Nodup)
    (hl : P.getLast? = some l) (hb : S.head? = some b) (ha : a ∉ P ++ S) (hc : c ∉ P ++ S)
    (hd : d ∉ P ++ S) (hf : f ∈ P ++ S → f = b) :
    Seg (spliceLinks h a f l c d b) p (P ++ S) n := by
  refine hP.bridge hS hnodup hl hb fun x hx => ?_
  have hne (y : α) (hy : y ∉ P ++ S) : x ≠ y := fun heq => hy (heq ▸ hx)
  rcases eq_or_ne x f with rfl | hxf
  · obtain rfl := hf hx
    simp [spliceLinks, setPrev_apply, setNext_apply, hne a ha, hne d hd, Function.comp_def]
  · simp [spliceLinks, setPrev_apply, setNext_apply, hne a ha, hne c hc, hne d hd, hxf,
      Function.comp_def]

/-- The link from `d` to `f` is on the way. -/
theorem Seg.spliceLinks_start (hP : Seg h p P q) (hS : Seg h r S n) (hnodup : (P ++ S).Nodup)
    (hd : P.getLast? = some d) (hf : S.head? = some f) (ha : a ∉ P ++ S) (hl : l ∉ P ++ S)
    (hc : c ∉ P ++ S) (hb : b ∉ P ++ S) : Seg (spliceLinks h a f l c d b) p (P ++ S) n := by
  refine hP.bridge hS hnodup hd hf fun x hx => ?_
  have hne (y : α) (hy : y ∉ P ++ S) : x ≠ y := fun heq => hy (heq ▸ hx)
  simp [spliceLinks, setPrev_apply, setNext_apply, hne a ha, hne l hl, hne c hc, hne b hb,
    Function.comp_def]

/-- All three links are on the way: the pieces in the middle change places. -/
theorem Seg.spliceLinks_exchange (hseg : Seg h p (P ++ X ++ Y ++ S) n)
    (hnodup : (P ++ X ++ Y ++ S).Nodup) (hl : P.getLast? = some l) (hc : X.head? = some c)
    (hd : X.getLast? = some d) (hb : Y.head? = some b) (ha : Y.getLast? = some a)
    (hf : S.head? = some f) : Seg (spliceLinks h a f l c d b) p (P ++ Y ++ X ++ S) n := by
  simp only [seg_append, last_append, last_of_getLast hl, last_of_getLast hd, last_of_getLast ha,
    first_of_head hc, first_of_head hb, first_of_head hf] at hseg ⊢
  obtain ⟨⟨⟨hP, hX⟩, hY⟩, hS⟩ := hseg
  have hlP := List.mem_of_getLast? hl
  have hcX := List.mem_of_head? hc
  have hdX := List.mem_of_getLast? hd
  have hbY := List.mem_of_head? hb
  have haY := List.mem_of_getLast? ha
  have hfS := List.mem_of_head? hf
  simp only [List.nodup_append, List.mem_append] at hnodup
  obtain ⟨⟨⟨hnP, hnX, hPX⟩, hnY, hPXY⟩, hnS, hPXYS⟩ := hnodup
  -- in each piece the writes at its two ends matter
  refine ⟨⟨⟨?_, ?_⟩, ?_⟩, ?_⟩
  · exact (((((hP.setNext (by grind)).setPrev (by grind)).setPrev (by grind)).setNext_last hnP
      hl).setNext (by grind)).setPrev (by grind)
  · exact (((((hY.setNext_last hnY ha).setPrev (by grind)).setPrev (by grind)).setNext
      (by grind)).setNext (by grind)).setPrev_head hnY hb
  · exact (((((hX.setNext (by grind)).setPrev_head hnX hc).setPrev (by grind)).setNext
      (by grind)).setNext_last hnX hd).setPrev (by grind)
  · exact (((((hS.setNext (by grind)).setPrev (by grind)).setPrev_head hnS hf).setNext
      (by grind)).setNext (by grind)).setPrev (by grind)

/-- Links that are put back where they were. -/
theorem spliceLinks_same {x y t : Option α} {w : Option α} (hf : h f = some ⟨some a, x⟩)
    (hl : h l = some ⟨y, some c⟩) (hc : h c = some ⟨some l, t⟩) (ha : h a = some ⟨w, some f⟩) :
    spliceLinks h a f l c a c = h := by
  ext z : 1
  simp only [spliceLinks, setPrev_apply, setNext_apply, Option.map_map, Function.comp_def]
  cases hz : h z with
  | none => rfl
  | some k =>
      obtain ⟨u, v⟩ := k
      rw [Option.map_some, Option.some.injEq, Link.mk.injEq]
      grind

theorem prev_of_ne {t : Option α} (hb : h b = some ⟨some d, t⟩) (hbc : b ≠ c) :
    (((h.setNext a (some c)).setPrev c (some a)) b).map Link.prev = some (some d) := by
  simp [setNext_apply, hb, hbc]

/-! ### Ranges and targets -/

section Positions

variable {list source : CList α} {xs A M N B C D ys zs : List α}

omit [DecidableEq α] in
/-- The links on both sides of a place. -/
theorem IsList.cursor (hl : IsList h list (ys ++ zs)) (ha : last (some list.head) ys = some a)
    (hb : first zs (some list.tail) = some b) :
    (∃ t, h b = some ⟨some a, t⟩) ∧ ∃ t, h a = some ⟨t, some b⟩ := by
  constructor
  · cases zs with
    | nil =>
        rw [first_nil, Option.some.injEq] at hb
        have htail := hl.tail_links
        rw [List.append_nil, ha, hb] at htail
        exact ⟨_, htail⟩
    | cons z zs =>
        rw [first_cons, Option.some.injEq] at hb
        subst hb
        exact ⟨_, ha ▸ hl.links⟩
  · rcases List.eq_nil_or_concat ys with rfl | ⟨ys, y, rfl⟩
    · rw [last_nil, Option.some.injEq] at ha
      have hhead := hl.head_links
      rw [List.nil_append, ha, hb] at hhead
      exact ⟨_, hhead⟩
    · rw [List.concat_eq_append, last_concat, Option.some.injEq] at ha
      rw [List.concat_eq_append, List.append_assoc, List.singleton_append] at hl
      have hlinks := hl.links
      rw [ha, hb] at hlinks
      exact ⟨_, hlinks⟩

omit [DecidableEq α] in
/-- An element behind a place has something behind it. -/
theorem IsList.links_head (hl : IsList h list (ys ++ zs)) (ha : last (some list.head) ys = some a)
    (hf : zs.head? = some f) : ∃ x, h f = some ⟨some a, some x⟩ := by
  obtain ⟨zs, rfl⟩ := List.head?_eq_some_iff.mp hf
  obtain ⟨x, hx⟩ := first_some zs list.tail
  exact ⟨x, by rw [hl.links, ha, hx]⟩

omit [DecidableEq α] in
/-- An element in front of a place has something in front of it. -/
theorem IsList.links_last (hl : IsList h list (ys ++ zs)) (hy : ys.getLast? = some l)
    (hc : first zs (some list.tail) = some c) : ∃ x, h l = some ⟨some x, some c⟩ := by
  obtain ⟨ys, rfl⟩ := List.getLast?_eq_some_iff.mp hy
  obtain ⟨x, hx⟩ := last_some list.head ys
  rw [List.append_assoc, List.singleton_append] at hl
  exact ⟨x, by rw [hl.links, hx, hc]⟩

/-- A range that ends at `c` in front of its start `f`. -/
theorem run_listSplice_reversed (hl : IsList h source (A ++ M ++ B)) (hA : A.getLast? = some l)
    (hc : M.head? = some c) (ha : M.getLast? = some a) (hf : B.head? = some f) {x : α}
    {t : Option α} (hb : h b = some ⟨some x, t⟩) (hd : (h d).isSome = true)
    (hdb : (((h.setNext a (some c)).setPrev c (some a)) b).map Link.prev = some (some d)) :
    (listSplice (some b) (some f) (some c)).run h = some ((), spliceLinks h a f l c d b) := by
  have hnodup := hl.nodup_elems
  have hlA := List.mem_of_getLast? hA
  have hcM := List.mem_of_head? hc
  have haM := List.mem_of_getLast? ha
  have hfB := List.mem_of_head? hf
  simp only [List.nodup_append, List.mem_append] at hnodup
  obtain ⟨⟨_, _, hAM⟩, _, hAMB⟩ := hnodup
  have hfirst : first (M ++ B) (some source.tail) = some c := by
    rw [first_append, first_of_head hc]
  obtain ⟨z, hz⟩ := hl.links_head (by rw [last_append, last_of_getLast ha]) hf
  rw [List.append_assoc] at hl
  obtain ⟨y, hy⟩ := hl.links_last hA hfirst
  obtain ⟨⟨t, ht⟩, _⟩ := hl.cursor (last_of_getLast hA _) hfirst
  have hsome : (h a).isSome = true := by
    refine hl.seg.isSome ?_
    rw [CList.mem_row]
    exact .inr (.inl (by simp [haM]))
  refine run_listSplice_writes hz hy ht hb hsome hd ?_ ?_ ?_ hdb
  · exact (hAMB c (.inr hcM) f hfB).symm
  · exact (hAMB a (.inr haM) f hfB).symm
  · exact hAM l hlA a haM

omit [DecidableEq α] in
theorem row_around (list : CList α) (A M N B : List α) : list.row (A ++ M ++ N ++ B) =
    (list.head :: A) ++ (M ++ N) ++ (B ++ [list.tail]) := by simp [CList.row]

/-- The target is in front of the reversed range: what is between the target and the start
of the range is lost. -/
theorem run_listSplice_reversed_before (hl : IsList h list (A ++ M ++ N ++ B))
    (hb : M.head? = some b) (hc : N.head? = some c) (hf : B.head? = some f) :
    ∃ h', (listSplice (some b) (some f) (some c)).run h = some ((), h') ∧
      IsList h' list (A ++ B) := by
  obtain ⟨l, hM⟩ := exists_getLast hb
  obtain ⟨a, hN⟩ := exists_getLast hc
  obtain ⟨d, hd⟩ := last_some list.head A
  have hrow := row_around list A M N B
  have hnodup := hrow ▸ hl.nodup
  have hout (x : α) (hx : x ∈ M ++ N) := notMem_ends hnodup hx
  have hcursor : IsList h list (A ++ (M ++ N ++ B)) := by simpa using hl
  obtain ⟨⟨t, ht⟩, u, hu⟩ := hcursor.cursor hd
    (show first (M ++ N ++ B) _ = some b by simp [first_of_head hb])
  have hbc : b ≠ c := by
    have hMN := (List.nodup_append.mp (List.nodup_append.mp hl.nodup_elems).1).2.2
    exact hMN b (by simp [List.mem_of_head? hb]) c (List.mem_of_head? hc)
  have hAM : (A ++ M).getLast? = some l := by simp [hM]
  refine ⟨_, run_listSplice_reversed hl hAM hc hN hf ht (by rw [hu]; rfl) (prev_of_ne ht hbc), ?_,
    list.row_append A B ▸ nodup_ends hnodup⟩
  have hseg := hrow ▸ hl.seg
  rw [seg_append, seg_append] at hseg
  rw [list.row_append]
  refine Seg.spliceLinks_start hseg.1.1 hseg.2 (nodup_ends hnodup) ((getLast?_head _ _).trans hd)
    (by simp [hf]) (hout a ?_) (hout l ?_) (hout c ?_) (hout b ?_)
  · exact List.mem_append_right M (List.mem_of_getLast? hN)
  · exact List.mem_append_left N (List.mem_of_getLast? hM)
  · exact List.mem_append_right M (List.mem_of_head? hc)
  · exact List.mem_append_left N (List.mem_of_head? hb)

/-- The target is inside of the reversed range: the two parts of the range change places. -/
theorem run_listSplice_reversed_inside (hl : IsList h list (A ++ M ++ N ++ B))
    (hA : A.getLast? = some l) (hc : M.head? = some c) (hb : N.head? = some b)
    (hf : B.head? = some f) :
    ∃ h', (listSplice (some b) (some f) (some c)).run h = some ((), h') ∧
      IsList h' list (A ++ N ++ M ++ B) := by
  obtain ⟨d, hM⟩ := exists_getLast hc
  obtain ⟨a, hN⟩ := exists_getLast hb
  have hrow : list.row (A ++ M ++ N ++ B) =
      (list.head :: A) ++ M ++ N ++ (B ++ [list.tail]) := by simp [CList.row]
  have hrow' : list.row (A ++ N ++ M ++ B) =
      (list.head :: A) ++ N ++ M ++ (B ++ [list.tail]) := by simp [CList.row]
  have hcursor : IsList h list (A ++ M ++ (N ++ B)) := by simpa using hl
  obtain ⟨⟨t, ht⟩, u, hu⟩ := hcursor.cursor
    (show last _ (A ++ M) = some d by simp [last_of_getLast hM])
    (show first (N ++ B) _ = some b by simp [first_of_head hb])
  have hbc : b ≠ c := by
    have hMN := (List.nodup_append.mp (List.nodup_append.mp hl.nodup_elems).1).2.2
    exact (hMN c (by simp [List.mem_of_head? hc]) b (List.mem_of_head? hb)).symm
  have hMN : (M ++ N).head? = some c ∧ (M ++ N).getLast? = some a := by simp [hc, hN]
  have hrun := run_listSplice_reversed (show IsList h list (A ++ (M ++ N) ++ B) by simpa using hl)
    hA hMN.1 hMN.2 hf ht (by rw [hu]; rfl) (prev_of_ne ht hbc)
  have hperm : (list.row (A ++ N ++ M ++ B)).Perm (list.row (A ++ M ++ N ++ B)) := by
    simp only [CList.row, List.cons_append, List.append_assoc]
    exact (List.Perm.append_left A (List.perm_append_comm_assoc N M _)).cons _
  refine ⟨_, hrun, ?_, hperm.nodup_iff.mpr hl.nodup⟩
  rw [hrow']
  exact Seg.spliceLinks_exchange (hrow ▸ hl.seg) (hrow ▸ hl.nodup)
    ((getLast?_head _ _).trans (last_of_getLast hA _)) hc hM hb hN (by simp [hf])

/-- The target is at the end of the reversed range: nothing changes. -/
theorem run_listSplice_reversed_end (hl : IsList h list (A ++ M ++ B)) (hA : A.getLast? = some l)
    (hc : M.head? = some c) (hf : B.head? = some f) :
    (listSplice (some c) (some f) (some c)).run h = some ((), h) := by
  obtain ⟨a, hM⟩ := exists_getLast hc
  have hcursor : IsList h list (A ++ (M ++ B)) := by simpa using hl
  obtain ⟨⟨t, ht⟩, u, hu⟩ := hcursor.cursor (last_of_getLast hA _)
    (show first (M ++ B) _ = some c by simp [first_of_head hc])
  obtain ⟨⟨v, hv⟩, w, hw⟩ := hl.cursor
    (show last _ (A ++ M) = some a by simp [last_of_getLast hM]) (first_of_head hf _)
  rw [run_listSplice_reversed hl hA hc hM hf ht (by rw [hw]; rfl)
    (by simp [setNext_apply, ht]), spliceLinks_same hv hu ht hw]

/-- The target is behind the reversed range: what is between the end of the range and the
target is lost. -/
theorem run_listSplice_reversed_behind (hl : IsList h list (A ++ M ++ N ++ B))
    (hA : A.getLast? = some l) (hc : M.head? = some c) (hf : (N ++ B).head? = some f) :
    ∃ h', (listSplice (first B (some list.tail)) (some f) (some c)).run h = some ((), h') ∧
      IsList h' list (A ++ B) := by
  obtain ⟨a, hM⟩ := exists_getLast hc
  obtain ⟨b, hb⟩ := first_some B list.tail
  obtain ⟨d, hd⟩ : ∃ d, (M ++ N).getLast? = some d := exists_getLast (show _ = some c by simp [hc])
  have hrow := row_around list A M N B
  have hnodup := hrow ▸ hl.nodup
  have hout (x : α) (hx : x ∈ M ++ N) := notMem_ends hnodup hx
  have hlast : last (some list.head) (A ++ M ++ N) = some d := by
    rw [List.append_assoc, last_append, last_of_getLast hd]
  obtain ⟨⟨t, ht⟩, u, hu⟩ := hl.cursor hlast hb
  have hbS := (head?_tail list.tail B).trans hb
  have hbc : b ≠ c := by
    rintro rfl
    exact hout b (by simp [List.mem_of_head? hc])
      (List.mem_append_right _ (List.mem_of_head? hbS))
  refine ⟨_, hb ▸ run_listSplice_reversed
    (show IsList h list (A ++ M ++ (N ++ B)) by simpa using hl) hA hc hM hf ht (by rw [hu]; rfl)
    (prev_of_ne ht hbc), ?_, list.row_append A B ▸ nodup_ends hnodup⟩
  have hseg := hrow ▸ hl.seg
  rw [seg_append, seg_append] at hseg
  rw [list.row_append]
  refine Seg.spliceLinks_end hseg.1.1 hseg.2 (nodup_ends hnodup)
    ((getLast?_head _ _).trans (last_of_getLast hA _)) hbS (hout a ?_) (hout c ?_) (hout d ?_)
    fun hmem => ?_
  · exact List.mem_append_left N (List.mem_of_getLast? hM)
  · exact List.mem_append_left N (List.mem_of_head? hc)
  · exact List.mem_of_getLast? hd
  · -- the start of the range is still on the way only as the target
    cases N with
    | nil => exact Option.some.inj ((first_of_head hf _).symm.trans hb)
    | cons y N =>
        obtain rfl : y = f := Option.some.inj hf
        exact absurd hmem (hout y (by simp))

/-- The target is inside of the range: the range is lost. -/
theorem run_listSplice_inside (hl : IsList h list (A ++ M ++ N ++ B)) (hf : M.head? = some f)
    (hb : N.head? = some b) :
    ∃ h', (listSplice (some b) (some f) (first B (some list.tail))).run h = some ((), h') ∧
      IsList h' list (A ++ B) := by
  obtain ⟨d, hM⟩ := exists_getLast hf
  obtain ⟨l, hN⟩ := exists_getLast hb
  obtain ⟨a, ha⟩ := last_some list.head A
  obtain ⟨c, hc⟩ := first_some B list.tail
  have hrow := row_around list A M N B
  have hnodup := hrow ▸ hl.nodup
  have hout (x : α) (hx : x ∈ M ++ N) := notMem_ends hnodup hx
  have hfM : f ∈ M ++ N := List.mem_append_left N (List.mem_of_head? hf)
  have hlN : l ∈ M ++ N := List.mem_append_right M (List.mem_of_getLast? hN)
  have hdM : d ∈ M ++ N := List.mem_append_left N (List.mem_of_getLast? hM)
  have hbN : b ∈ M ++ N := List.mem_append_right M (List.mem_of_head? hb)
  have haP := (getLast?_head list.head A).trans ha
  have hcS := (head?_tail list.tail B).trans hc
  have hne (x y : α) (hx : x ∈ M ++ N) (hy : y ∈ (list.head :: A) ++ (B ++ [list.tail])) : x ≠ y :=
    fun heq => hout x hx (heq ▸ hy)
  have haR := List.mem_append_left (B ++ [list.tail]) (List.mem_of_getLast? haP)
  have hcR := List.mem_append_right (list.head :: A) (List.mem_of_head? hcS)
  -- the links read on the way
  obtain ⟨x, hx⟩ := IsList.links_head (show IsList h list (A ++ (M ++ N ++ B)) by simpa using hl)
    ha (show _ = some f by simp [hf])
  obtain ⟨y, hy⟩ := hl.links_last (show (A ++ M ++ N).getLast? = some l by simp [hN]) hc
  obtain ⟨⟨t, ht⟩, _⟩ := hl.cursor
    (show last _ (A ++ M ++ N) = some l by simp [last_of_getLast hN]) hc
  obtain ⟨⟨w, hw⟩, u, hu⟩ := IsList.cursor
    (show IsList h list (A ++ M ++ (N ++ B)) by simpa using hl)
    (show last _ (A ++ M) = some d by simp [last_of_getLast hM])
    (show first (N ++ B) _ = some b by simp [first_of_head hb])
  have hseg := hrow ▸ hl.seg
  rw [seg_append, seg_append] at hseg
  have hsome := (show Seg h none _ _ from hseg.1.1).isSome (List.mem_of_getLast? haP)
  refine ⟨_, hc ▸ run_listSplice_writes hx hy ht hw hsome (by rw [hu]; rfl) (hne f c hfM hcR)
    (hne f a hfM haR) (hne l a hlN haR) (prev_of_ne hw (hne b c hbN hcR)), ?_,
    list.row_append A B ▸ nodup_ends hnodup⟩
  rw [list.row_append]
  exact Seg.spliceLinks_cut hseg.1.1 hseg.2 (nodup_ends hnodup) haP hcS (hout f hfM) (hout l hlN)
    (hout d hdM) (hout b hbN)

/-- The target is the start of the range: no way leads from head to tail any more. -/
theorem run_listSplice_atStart (hl : IsList h list (A ++ M ++ B)) (hf : M.head? = some f) :
    ∃ h', (listSplice (some f) (some f) (first B (some list.tail))).run h = some ((), h') ∧
      ∀ ys, ¬ IsList h' list ys := by
  obtain ⟨l, hM⟩ := exists_getLast hf
  obtain ⟨a, ha⟩ := last_some list.head A
  obtain ⟨c, hc⟩ := first_some B list.tail
  have hrow : list.row (A ++ M ++ B) = (list.head :: A) ++ M ++ (B ++ [list.tail]) := by
    simp [CList.row]
  have hnodup := hrow ▸ hl.nodup
  have hfM := List.mem_of_head? hf
  have hlM := List.mem_of_getLast? hM
  have haP := (getLast?_head list.head A).trans ha
  have hcS := (head?_tail list.tail B).trans hc
  have hne (x y : α) (hx : x ∈ M) (hy : y ∈ (list.head :: A) ++ (B ++ [list.tail])) : x ≠ y :=
    fun heq => notMem_ends hnodup hx (heq ▸ hy)
  have haR := List.mem_append_left (B ++ [list.tail]) (List.mem_of_getLast? haP)
  have hcR := List.mem_append_right (list.head :: A) (List.mem_of_head? hcS)
  have hca : c ≠ a := by
    have hends := (List.nodup_append.mp (nodup_ends hnodup)).2.2
    exact (hends a (List.mem_of_getLast? haP) c (List.mem_of_head? hcS)).symm
  obtain ⟨x, hx⟩ := IsList.links_head (show IsList h list (A ++ (M ++ B)) by simpa using hl) ha
    (show _ = some f by simp [hf])
  obtain ⟨y, hy⟩ := hl.links_last (show (A ++ M).getLast? = some l by simp [hM]) hc
  obtain ⟨⟨t, ht⟩, _⟩ := hl.cursor (show last _ (A ++ M) = some l by simp [last_of_getLast hM]) hc
  have hseg := hrow ▸ hl.seg
  rw [seg_append, seg_append] at hseg
  have hP : Seg h none (list.head :: A) _ := hseg.1.1
  have hsome := hP.isSome (List.mem_of_getLast? haP)
  refine ⟨spliceLinks h a f l c a f, hc ▸ run_listSplice_writes hx hy ht hx hsome hsome
    (hne f c hfM hcR) (hne f a hfM haR) (hne l a hlM haR) (prev_of_ne hx (hne f c hfM hcR)),
    fun ys hys => ?_⟩
  -- the way from the head still leads to `f`, but `f` is linked back to `l`
  have hnP : (list.head :: A).Nodup :=
    (List.nodup_append.mp (nodup_ends hnodup)).1
  have hnot (z : α) (hz : z ∈ M) : z ∉ list.head :: A := fun hmem =>
    hne z z hz (List.mem_append_left _ hmem) rfl
  have hcP : c ∉ list.head :: A := fun hmem =>
    (List.nodup_append.mp (nodup_ends hnodup)).2.2 c hmem c (List.mem_of_head? hcS) rfl
  have hP' : Seg (spliceLinks h a f l c a f) none (list.head :: A) (some f) :=
    (((((hP.setNext_last hnP haP).setPrev hcP).setPrev (hnot f hfM)).setNext
      (hnot l hlM)).setNext_last hnP haP).setPrev (hnot f hfM)
  have hrow' : Seg (spliceLinks h a f l c a f) none (list.head :: (ys ++ [list.tail])) none :=
    hys.seg
  obtain ⟨zs, hzs, hfirst⟩ := hP'.goes_on hrow'
  cases zs with
  | nil => cases hfirst
  | cons z zs =>
      obtain rfl : z = f := Option.some.inj hfirst
      rw [hzs, ← List.cons_append] at hrow'
      have hback := hrow'.get
      rw [last_of_getLast haP, spliceLinks, setPrev_self] at hback
      obtain ⟨k, _, hk⟩ := Option.map_eq_some_iff.mp hback
      exact hne l a hlM haR (Option.some.inj (Link.mk.inj hk).1)

/-- The range is reversed and the target is in another list: the way from the head of the
source ends at the tail of the target. -/
theorem run_listSplice_reversed_other (hsource : IsList h source (A ++ M ++ B))
    (hl : IsList h list (C ++ D))
    (hdisj : ∀ x ∈ source.row (A ++ M ++ B), x ∉ list.row (C ++ D)) (hA : A.getLast? = some l)
    (hc : M.head? = some c) (hf : B.head? = some f) :
    ∃ h', (listSplice (first D (some list.tail)) (some f) (some c)).run h = some ((), h') ∧
      ∀ ys, ¬ IsList h' source ys := by
  obtain ⟨a, hM⟩ := exists_getLast hc
  obtain ⟨d, hd⟩ := last_some list.head C
  obtain ⟨b, hb⟩ := first_some D list.tail
  have hrow : source.row (A ++ M ++ B) = (source.head :: A) ++ (M ++ B) ++ [source.tail] := by
    simp [CList.row]
  have hin (x : α) (hx : x ∈ M ++ B) : x ∈ source.row (A ++ M ++ B) := by
    rw [hrow]
    exact List.mem_append_left _ (List.mem_append_right _ hx)
  have hnodup := hrow ▸ hsource.nodup
  have hcM : c ∈ M ++ B := List.mem_append_left B (List.mem_of_head? hc)
  have haM : a ∈ M ++ B := List.mem_append_left B (List.mem_of_getLast? hM)
  have hfB : f ∈ M ++ B := List.mem_append_right M (List.mem_of_head? hf)
  have hdP := (getLast?_head list.head C).trans hd
  have hbS := (head?_tail list.tail D).trans hb
  have hbrow : b ∈ list.row (C ++ D) := by
    rw [list.row_append]
    exact List.mem_append_right _ (List.mem_of_head? hbS)
  obtain ⟨⟨t, ht⟩, u, hu⟩ := hl.cursor hd hb
  have hbc : b ≠ c := by
    rintro rfl
    exact hdisj b (hin b hcM) hbrow
  refine ⟨_, hb ▸ run_listSplice_reversed hsource hA hc hM hf ht (by rw [hu]; rfl)
    (prev_of_ne ht hbc), fun ys hys => ?_⟩
  -- the way from the head of the source
  have hP := hrow ▸ hsource.seg
  have hS := list.row_append C D ▸ hl.seg
  rw [seg_append, seg_append] at hP
  rw [seg_append] at hS
  have hnP := (List.nodup_append.mp (List.nodup_append.mp hnodup).1)
  have hPsub (x : α) (hx : x ∈ source.head :: A) : x ∈ source.row (A ++ M ++ B) := by
    rw [hrow]
    exact List.mem_append_left _ (List.mem_append_left _ hx)
  have hSsub (x : α) (hx : x ∈ D ++ [list.tail]) : x ∈ list.row (C ++ D) := by
    rw [list.row_append]
    exact List.mem_append_right _ hx
  have hout (x : α) (hx : x ∈ M ++ B) : x ∉ (source.head :: A) ++ (D ++ [list.tail]) := by
    intro hmem
    rcases List.mem_append.mp hmem with hmem | hmem
    · exact hnP.2.2 x hmem x hx rfl
    · exact hdisj x (hin x hx) (hSsub x hmem)
  have hdout : d ∉ (source.head :: A) ++ (D ++ [list.tail]) := by
    have hsplit := list.row_append C D ▸ hl.nodup
    intro hmem
    rcases List.mem_append.mp hmem with hmem | hmem
    · refine hdisj d (hPsub d hmem) ?_
      rw [list.row_append]
      exact List.mem_append_left _ (List.mem_of_getLast? hdP)
    · exact (List.nodup_append.mp hsplit).2.2 d (List.mem_of_getLast? hdP) d hmem rfl
  have hnew : ((source.head :: A) ++ (D ++ [list.tail])).Nodup := by
    have hsplit := list.row_append C D ▸ hl.nodup
    exact List.nodup_append.mpr ⟨hnP.1, (List.nodup_append.mp hsplit).2.1,
      fun x hx y hy heq => hdisj x (hPsub x hx) (heq ▸ hSsub y hy)⟩
  have hway := Seg.spliceLinks_end hP.1.1 hS.2 hnew
    ((getLast?_head source.head A).trans (last_of_getLast hA _)) hbS (hout a haM) (hout c hcM)
    hdout fun hmem => absurd hmem (hout f hfB)
  have hends := Seg.unique (show Seg _ none (source.head :: (A ++ (D ++ [list.tail]))) none
    from hway) (show Seg _ none (source.head :: (ys ++ [source.tail])) none from hys.seg)
  have htails : some source.tail = some list.tail := by
    have hlast := congrArg List.getLast? hends
    simpa using hlast
  refine hdisj source.tail (CList.mem_row.mpr (.inr (.inr rfl))) ?_
  rw [Option.some.inj htails]
  exact CList.mem_row.mpr (.inr (.inr rfl))

/-- The range ends in front of the first element: an `ASSERT` fails. -/
theorem run_listSplice_reversed_head (hsource : IsList h source (M ++ B))
    (hl : IsList h list (C ++ D)) (hc : M.head? = some c) (hf : B.head? = some f) :
    (listSplice (first D (some list.tail)) (some f) (some c)).run h = none := by
  obtain ⟨d, hd⟩ := last_some list.head C
  obtain ⟨b, hb⟩ := first_some D list.tail
  obtain ⟨a, hM⟩ := exists_getLast hc
  obtain ⟨⟨t, ht⟩, _⟩ := hl.cursor hd hb
  obtain ⟨⟨u, hu⟩, _⟩ := IsList.cursor (show IsList h source ([] ++ (M ++ B)) from hsource)
    (last_nil _) (show first (M ++ B) _ = some c by simp [first_of_head hc])
  obtain ⟨x, hx⟩ := hsource.links_head (show last _ M = some a from last_of_getLast hM _) hf
  have hfc : f ≠ c := by
    have hMB := (List.nodup_append.mp hsource.nodup_elems).2.2
    exact (hMB c (List.mem_of_head? hc) f (List.mem_of_head? hf)).symm
  have hassert : (t.isSome || t.isNone) = true := by cases t <;> rfl
  have hinterior : (isInterior (some b)).run h = some (t.isSome, h) := by simp [ht]
  have htail : (isTail (some b)).run h = some (t.isNone, h) := by simp [ht]
  have htrue : (ASSERT (t.isSome || t.isNone) : Prog α Unit).run h = some ((), h) := by
    rw [hassert, run_assert_true]
  have hfirst : (isInterior (some f)).run h = some (true, h) := by simp [hx]
  -- the element in front of `c` is the head
  have hhead : (isInterior (some source.head)).run h = some (false, h) := by
    simp [hsource.head_links]
  have hne : ¬ some f = some c := fun heq => hfc (Option.some.inj heq)
  rw [hb, listSplice, run_bind_of hinterior, run_bind_of htail, run_bind_of htrue, if_neg hne,
    run_bind_of (run_listPrev hu), run_bind_of hfirst, run_bind_of run_assert_true,
    run_bind_of hhead]
  rfl

end Positions

end SystemProgramming.Testlib
