import SystemProgramming.Testlib.ListSpec

/-!
`list_swap` and `list_reverse`, which put the elements of a list in another
order by writing all the links around them.
-/

namespace SystemProgramming.Testlib

open SystemProgramming.Library

variable {α : Type} [DecidableEq α]

/-! ### Exchanging two elements -/

section Swap

variable {h : Heap α} {p n : Option α} {P M N : List α} {a b pa na pb nb : α}

/-- What `list_swap` writes for two elements that are not neighbours. -/
def swapApart (h : Heap α) (a b pa na pb nb : α) : Heap α :=
  (((((((h.setNext pa (some b)).setPrev na (some b)).setNext pb (some a)).setPrev nb
    (some a)).setPrev a (some pb)).setNext a (some nb)).setPrev b (some pa)).setNext b (some na)

/-- What `list_swap` writes for an element `a` with `b` right behind it. -/
def swapNeighbours (h : Heap α) (a b pa nb : α) : Heap α :=
  (((((h.setNext pa (some b)).setPrev b (some pa)).setNext b (some a)).setPrev a
    (some b)).setNext a (some nb)).setPrev nb (some a)

theorem Seg.swapApart (hseg : Seg h p (P ++ a :: (M ++ b :: N)) n)
    (hnodup : (P ++ a :: (M ++ b :: N)).Nodup) (hpa : P.getLast? = some pa)
    (hna : M.head? = some na) (hpb : M.getLast? = some pb) (hnb : N.head? = some nb) :
    Seg (Testlib.swapApart h a b pa na pb nb) p (P ++ b :: (M ++ a :: N)) n := by
  have hpaP : pa ∈ P := List.mem_of_getLast? hpa
  have hnaM : na ∈ M := List.mem_of_head? hna
  have hpbM : pb ∈ M := List.mem_of_getLast? hpb
  have hnbN : nb ∈ N := List.mem_of_head? hnb
  simp only [List.nodup_append, List.nodup_cons, List.mem_append, List.mem_cons, not_or] at hnodup
  obtain ⟨hnP, ⟨⟨haM, hab, haN⟩, hnM, ⟨hbN, hnN⟩, hdM⟩, hdP⟩ := hnodup
  have haP : a ∉ P := fun hmem => hdP a hmem a (.inl rfl) rfl
  have hbP : b ∉ P := fun hmem => hdP b hmem b (.inr (.inr (.inl rfl))) rfl
  have hbM : b ∉ M := fun hmem => hdM b hmem b (.inl rfl) rfl
  have hPM (x : α) (hx : x ∈ P) : x ∉ M := fun hmem => hdP x hx x (.inr (.inl hmem)) rfl
  have hPN (x : α) (hx : x ∈ P) : x ∉ N := fun hmem => hdP x hx x (.inr (.inr (.inr hmem))) rfl
  have hMN (x : α) (hx : x ∈ M) : x ∉ N := fun hmem => hdM x hx x (.inr hmem) rfl
  rw [seg_append, seg_cons, seg_append, seg_cons] at hseg
  simp only [first_cons, first_append, last_of_getLast hpa, last_of_getLast hpb,
    first_of_head hna, first_of_head hnb] at hseg
  obtain ⟨hP, ha, hM, hb, hN⟩ := hseg
  rw [seg_append, seg_cons, seg_append, seg_cons]
  simp only [first_cons, first_append, last_of_getLast hpa, last_of_getLast hpb,
    first_of_head hna, first_of_head hnb]
  have hne (x y : α) (S : List α) (hx : x ∈ S) (hy : y ∉ S) : y ≠ x := fun heq => hy (heq ▸ hx)
  refine ⟨?_, ?_, ?_, ?_, ?_⟩
  · exact (((((((hP.setNext_last hnP hpa).setPrev fun hmem => hPM na hmem hnaM).setNext
      fun hmem => hPM pb hmem hpbM).setPrev fun hmem => hPN nb hmem hnbN).setPrev haP).setNext
      haP).setPrev hbP).setNext hbP
  · simp [Testlib.swapApart, hb, Ne.symm hab, hne pa b P hpaP hbP, hne na b M hnaM hbM,
      hne pb b M hpbM hbM, hne nb b N hnbN hbN]
  · exact (((((((hM.setNext (hPM pa hpaP)).setPrev_head hnM hna).setNext_last hnM hpb).setPrev
      fun hmem => hMN nb hmem hnbN).setPrev haM).setNext haM).setPrev hbM).setNext hbM
  · simp [Testlib.swapApart, ha, hab, hne pa a P hpaP haP, hne na a M hnaM haM,
      hne pb a M hpbM haM, hne nb a N hnbN haN]
  · exact (((((((hN.setNext (hPN pa hpaP)).setPrev (hMN na hnaM)).setNext
      (hMN pb hpbM)).setPrev_head hnN hnb).setPrev haN).setNext haN).setPrev hbN).setNext hbN

theorem Seg.swapNeighbours (hseg : Seg h p (P ++ a :: b :: N) n)
    (hnodup : (P ++ a :: b :: N).Nodup) (hpa : P.getLast? = some pa) (hnb : N.head? = some nb) :
    Seg (Testlib.swapNeighbours h a b pa nb) p (P ++ b :: a :: N) n := by
  have hpaP : pa ∈ P := List.mem_of_getLast? hpa
  have hnbN : nb ∈ N := List.mem_of_head? hnb
  simp only [List.nodup_append, List.nodup_cons, List.mem_cons, not_or] at hnodup
  obtain ⟨hnP, ⟨⟨hab, haN⟩, hbN, hnN⟩, hdP⟩ := hnodup
  have haP : a ∉ P := fun hmem => hdP a hmem a (.inl rfl) rfl
  have hbP : b ∉ P := fun hmem => hdP b hmem b (.inr (.inl rfl)) rfl
  have hPN (x : α) (hx : x ∈ P) : x ∉ N := fun hmem => hdP x hx x (.inr (.inr hmem)) rfl
  have hne (x y : α) (S : List α) (hx : x ∈ S) (hy : y ∉ S) : y ≠ x := fun heq => hy (heq ▸ hx)
  rw [seg_append, seg_cons, seg_cons] at hseg
  simp only [first_cons, last_of_getLast hpa, first_of_head hnb] at hseg
  obtain ⟨hP, ha, hb, hN⟩ := hseg
  rw [seg_append, seg_cons, seg_cons]
  simp only [first_cons, last_of_getLast hpa, first_of_head hnb]
  refine ⟨?_, ?_, ?_, ?_⟩
  · exact (((((hP.setNext_last hnP hpa).setPrev hbP).setNext hbP).setPrev haP).setNext
      haP).setPrev fun hmem => hPN nb hmem hnbN
  · simp [Testlib.swapNeighbours, hb, Ne.symm hab, hne pa b P hpaP hbP, hne nb b N hnbN hbN]
  · simp [Testlib.swapNeighbours, ha, hab, hne pa a P hpaP haP, hne nb a N hnbN haN]
  · exact (((((hN.setNext (hPN pa hpaP)).setPrev hbN).setNext hbN).setPrev haN).setNext
      haN).setPrev_head hnN hnb

/-- In a list without `b`, what `list_swap` writes puts `b` in the place of `a`. -/
theorem Seg.swapOut {A B : List α} (hseg : Seg h p (A ++ a :: B) n)
    (hnodup : (A ++ a :: B).Nodup) (hpa : A.getLast? = some pa) (hna : B.head? = some na)
    (hb : (h b).isSome = true) (hbout : b ∉ A ++ a :: B) (hpbout : pb ∉ A ++ a :: B)
    (hnbout : nb ∉ A ++ a :: B) :
    Seg (Testlib.swapApart h a b pa na pb nb) p (A ++ b :: B) n := by
  have hpaA : pa ∈ A := List.mem_of_getLast? hpa
  have hnaB : na ∈ B := List.mem_of_head? hna
  simp only [List.nodup_append, List.nodup_cons, List.mem_cons] at hnodup
  obtain ⟨hnA, ⟨haB, hnB⟩, hdA⟩ := hnodup
  have haA : a ∉ A := fun hmem => hdA a hmem a (.inl rfl) rfl
  have hAB (x : α) (hx : x ∈ A) : x ∉ B := fun hmem => hdA x hx x (.inr hmem) rfl
  simp only [List.mem_append, List.mem_cons, not_or] at hbout hpbout hnbout
  obtain ⟨hbA, hba, hbB⟩ := hbout
  obtain ⟨hpbA, _, hpbB⟩ := hpbout
  obtain ⟨hnbA, _, hnbB⟩ := hnbout
  rw [seg_append, seg_cons] at hseg
  simp only [first_cons, last_of_getLast hpa, first_of_head hna] at hseg
  obtain ⟨hA, ha, hB⟩ := hseg
  rw [seg_append, seg_cons]
  simp only [first_cons, last_of_getLast hpa, first_of_head hna]
  refine ⟨?_, ?_, ?_⟩
  · exact (((((((hA.setNext_last hnA hpa).setPrev fun hmem => hAB na hmem hnaB).setNext
      hpbA).setPrev hnbA).setPrev haA).setNext haA).setPrev hbA).setNext hbA
  · obtain ⟨l, hl⟩ := Option.isSome_iff_exists.mp (show (((((((h.setNext pa (some b)).setPrev na
      (some b)).setNext pb (some a)).setPrev nb (some a)).setPrev a (some pb)).setNext a
      (some nb)) b).isSome = true by simpa using hb)
    simp [Testlib.swapApart, hl]
  · exact (((((((hB.setNext (hAB pa hpaA)).setPrev_head hnB hna).setNext hpbB).setPrev
      hnbB).setPrev haB).setNext haB).setPrev hbB).setNext hbB

/-- The order of the arguments does not matter. -/
theorem swapApart_comm (hab : a ≠ b) (hp : pa ≠ pb) (hn : na ≠ nb) :
    Testlib.swapApart h b a pb nb pa na = Testlib.swapApart h a b pa na pb nb := by
  simp only [Testlib.swapApart, Heap.setNext_setPrev]
  rw [Heap.setPrev_comm h _ hn, Heap.setPrev_comm _ _ hab, Heap.setNext_comm _ _ hp,
    Heap.setNext_comm _ _ hab]

theorem run_listSwap_apart (ha : h a = some ⟨some pa, some na⟩)
    (hb : h b = some ⟨some pb, some nb⟩) (hab : a ≠ b) (hna : na ≠ b) (hnb : nb ≠ a)
    (halloc : ∀ x ∈ [pa, na, pb, nb], (h x).isSome = true) (fuel : Nat) :
    (listSwap (fuel + 1) (some a) (some b)).run h =
      some ((), Testlib.swapApart h a b pa na pb nb) := by
  simp only [List.forall_mem_cons] at halloc
  simp [listSwap, Testlib.swapApart, ha, hb, hab, hna, hnb, halloc]

theorem run_listSwap_neighbours (ha : h a = some ⟨some pa, some b⟩)
    (hb : h b = some ⟨some a, some nb⟩) (hab : a ≠ b)
    (halloc : ∀ x ∈ [pa, nb], (h x).isSome = true) (fuel : Nat) :
    (listSwap (fuel + 1) (some a) (some b)).run h =
      some ((), Testlib.swapNeighbours h a b pa nb) := by
  simp only [List.forall_mem_cons] at halloc
  simp [listSwap, Testlib.swapNeighbours, ha, hb, hab, halloc]

/-- The recursive call of `list_swap`. -/
theorem run_listSwap_recurse (ha : h a = some ⟨some pa, some b⟩)
    (hb : h b = some ⟨some a, some nb⟩) (hab : a ≠ b) (hnb : nb ≠ a) (fuel : Nat) :
    (listSwap (fuel + 1) (some b) (some a)).run h = (listSwap fuel (some a) (some b)).run h := by
  simp [listSwap, ha, hb, Ne.symm hab, hnb]

end Swap

section Lists

variable {h : Heap α} {list : CList α} {xs P M N : List α} {a b : α}

theorem run_listSwap_self (hl : IsList h list (P ++ a :: N)) (fuel : Nat) :
    (listSwap (fuel + 1) (some a) (some a)).run h = some ((), h) := by
  obtain ⟨pa, hpa⟩ := last_some list.head P
  obtain ⟨na, hna⟩ := first_some N list.tail
  have hlinks := hl.links
  rw [hpa, hna] at hlinks
  simp [listSwap, hlinks]

/-- `list_swap` exchanges two elements of a list, in whatever order it is given them. -/
theorem run_listSwap (hl : IsList h list (P ++ a :: (M ++ b :: N))) (fuel : Nat) :
    ∃ h', (listSwap (fuel + 2) (some a) (some b)).run h = some ((), h') ∧
      (listSwap (fuel + 2) (some b) (some a)).run h = some ((), h') ∧
      IsList h' list (P ++ b :: (M ++ a :: N)) ∧
      h.SameOff (list.row (P ++ a :: (M ++ b :: N))) h' := by
  obtain ⟨pa, hpa⟩ := last_some list.head P
  obtain ⟨nb, hnb⟩ := first_some N list.tail
  have hpa' := (getLast?_head list.head P).trans hpa
  have hnb' := (head?_tail list.tail N).trans hnb
  have hrow (x y : α) : list.row (P ++ x :: (M ++ y :: N)) =
      (list.head :: P) ++ x :: (M ++ y :: (N ++ [list.tail])) := by
    simp [CList.row]
  have hseg := hrow a b ▸ hl.seg
  have hnodup := hrow a b ▸ hl.nodup
  have hperm : (P ++ b :: (M ++ a :: N)).Perm (P ++ a :: (M ++ b :: N)) := by
    refine List.Perm.append_left P ?_
    have hmid : (b :: (M ++ a :: N)).Perm (b :: a :: (M ++ N)) := (List.perm_middle).cons b
    exact hmid.trans ((List.Perm.swap a b _).trans ((List.perm_middle.symm).cons a))
  have hnodup' : (list.row (P ++ b :: (M ++ a :: N))).Nodup :=
    (((hperm.append_right _).cons _).nodup_iff).mpr hl.nodup
  have hpaR : pa ∈ list.row (P ++ a :: (M ++ b :: N)) := by
    rw [hrow]
    exact List.mem_append_left _ (List.mem_of_getLast? hpa')
  have hnbN := List.mem_of_head? hnb'
  have hnbR : nb ∈ list.row (P ++ a :: (M ++ b :: N)) := by
    rw [hrow]
    simp only [List.mem_append, List.mem_cons] at hnbN ⊢
    tauto
  have haR : a ∈ list.row (P ++ a :: (M ++ b :: N)) := by simp [CList.mem_row]
  have hbR : b ∈ list.row (P ++ a :: (M ++ b :: N)) := by simp [CList.mem_row]
  have hla := hl.links
  rw [hpa] at hla
  have hsplit := hnodup
  simp only [List.nodup_append, List.nodup_cons, List.mem_append (s := M), List.mem_cons (b := b),
    not_or] at hsplit
  obtain ⟨_, ⟨⟨haM, hab, haN⟩, _, ⟨_, _⟩, hdM⟩, hdP⟩ := hsplit
  have hnba : nb ≠ a := fun heq => haN (heq ▸ hnbN)
  -- neighbours share a link, so that other links are written for them
  cases M with
  | nil =>
      have hlb : h b = some ⟨some a, some nb⟩ := by
        have hl' : IsList h list ((P ++ [a]) ++ b :: N) := by simpa using hl
        simpa [hnb] using hl'.links
      have hrun := run_listSwap_neighbours hla hlb hab
        (by simp [hl.seg.isSome hpaR, hl.seg.isSome hnbR])
      refine ⟨_, hrun (fuel + 1), ?_, ⟨hrow b a ▸ Seg.swapNeighbours hseg hnodup hpa' hnb',
        hnodup'⟩, ?_⟩
      -- given the other way round, the call is made again with its arguments exchanged
      · rw [run_listSwap_recurse hla hlb hab hnba, hrun fuel]
      · exact (((((Heap.SameOff.setNext h hpaR _).trans (.setPrev _ hbR _)).trans
          (.setNext _ hbR _)).trans (.setPrev _ haR _)).trans (.setNext _ haR _)).trans
          (.setPrev _ hnbR _)
  | cons na M =>
      obtain ⟨pb, hpb⟩ := last_some na M
      have hpb' := (getLast?_head na M).trans hpb
      have hlb : h b = some ⟨some pb, some nb⟩ := by
        have hl' : IsList h list ((P ++ a :: na :: M) ++ b :: N) := by simpa using hl
        simpa [hnb, hpb] using hl'.links
      have hpbM := List.mem_of_getLast? hpb'
      have hnaR : na ∈ list.row (P ++ a :: (na :: M ++ b :: N)) := by simp [CList.mem_row]
      have hpbR : pb ∈ list.row (P ++ a :: (na :: M ++ b :: N)) := by
        rw [hrow]
        simp only [List.mem_append, List.mem_cons] at hpbM ⊢
        tauto
      have hnab : na ≠ b := hdM na (by simp) b (.inl rfl)
      have hnanb : na ≠ nb := hdM na (by simp) nb (.inr hnbN)
      have hpapb : pa ≠ pb := hdP pa (List.mem_of_getLast? hpa') pb
        (List.mem_cons_of_mem _ (List.mem_append_left _ hpbM))
      have halloc := fun x hx => hl.seg.isSome (a := x) hx
      have hrun := run_listSwap_apart hla hlb hab hnab hnba
        (by simp [halloc pa hpaR, halloc na hnaR, halloc pb hpbR, halloc nb hnbR])
      have hrun' := run_listSwap_apart hlb hla (Ne.symm hab) hnba hnab
        (by simp [halloc pa hpaR, halloc na hnaR, halloc pb hpbR, halloc nb hnbR])
      -- the other way round the same links are written in another order
      rw [swapApart_comm hab hpapb hnanb] at hrun'
      refine ⟨_, hrun (fuel + 1), hrun' (fuel + 1),
        ⟨hrow b a ▸ Seg.swapApart hseg hnodup hpa' rfl hpb' hnb', hnodup'⟩, ?_⟩
      exact (((((((Heap.SameOff.setNext h hpaR _).trans (.setPrev _ hnaR _)).trans
        (.setNext _ hpbR _)).trans (.setPrev _ hnbR _)).trans (.setPrev _ haR _)).trans
        (.setNext _ haR _)).trans (.setPrev _ hbR _)).trans (.setNext _ hbR _)

/-- The half of an exchange between two lists that one of them sees. -/
theorem IsList.swapOut {A B : List α} {pa na pb nb : α} (hl : IsList h list (A ++ a :: B))
    (hpa : last (some list.head) A = some pa) (hna : first B (some list.tail) = some na)
    (hb : (h b).isSome = true) (hbout : b ∉ list.row (A ++ a :: B))
    (hpbout : pb ∉ list.row (A ++ a :: B)) (hnbout : nb ∉ list.row (A ++ a :: B)) :
    IsList (swapApart h a b pa na pb nb) list (A ++ b :: B) := by
  have hrow (z : α) : list.row (A ++ z :: B) = (list.head :: A) ++ z :: (B ++ [list.tail]) :=
    list.row_append A (z :: B)
  have hseg := hl.seg
  have hnodup := hl.nodup
  rw [hrow] at hseg hnodup hbout hpbout hnbout
  refine ⟨?_, ?_⟩
  · rw [hrow]
    exact Seg.swapOut hseg hnodup ((getLast?_head _ _).trans hpa) ((head?_tail _ _).trans hna)
      hb hbout hpbout hnbout
  · rw [hrow, List.nodup_middle, List.nodup_cons]
    rw [List.nodup_middle, List.nodup_cons] at hnodup
    refine ⟨fun hmem => hbout ?_, hnodup.2⟩
    simp only [List.mem_append, List.mem_cons] at hmem ⊢
    tauto

/-- `list_swap` exchanges an element of a list with one of another list. -/
theorem run_listSwap_other {other : CList α} {A B C D : List α}
    (hl : IsList h list (A ++ a :: B)) (ho : IsList h other (C ++ b :: D))
    (hdisj : ∀ x ∈ list.row (A ++ a :: B), x ∉ other.row (C ++ b :: D)) (fuel : Nat) :
    ∃ h', (listSwap (fuel + 1) (some a) (some b)).run h = some ((), h') ∧
      IsList h' list (A ++ b :: B) ∧ IsList h' other (C ++ a :: D) ∧
      h.SameOff (list.row (A ++ a :: B) ++ other.row (C ++ b :: D)) h' := by
  obtain ⟨pa, hpa⟩ := last_some list.head A
  obtain ⟨na, hna⟩ := first_some B list.tail
  obtain ⟨pb, hpb⟩ := last_some other.head C
  obtain ⟨nb, hnb⟩ := first_some D other.tail
  have hmem (k : CList α) {X Y : List α} {z p n : α} (hp : last (some k.head) X = some p)
      (hn : first Y (some k.tail) = some n) :
      z ∈ k.row (X ++ z :: Y) ∧ p ∈ k.row (X ++ z :: Y) ∧ n ∈ k.row (X ++ z :: Y) := by
    have hp' := List.mem_of_getLast? ((getLast?_head k.head X).trans hp)
    have hn' := List.mem_of_head? ((head?_tail k.tail Y).trans hn)
    rw [k.row_append, List.cons_append]
    refine ⟨by simp, List.mem_append_left _ hp', ?_⟩
    exact List.mem_append_right (k.head :: X) (List.mem_cons_of_mem z hn')
  obtain ⟨haR, hpaR, hnaR⟩ := hmem list hpa hna (z := a)
  obtain ⟨hbR, hpbR, hnbR⟩ := hmem other hpb hnb (z := b)
  have hdisj' (x : α) (hx : x ∈ other.row (C ++ b :: D)) : x ∉ list.row (A ++ a :: B) :=
    fun hmem => hdisj x hmem hx
  have hla := hl.links
  have hlb := ho.links
  rw [hpa, hna] at hla
  rw [hpb, hnb] at hlb
  have hab : a ≠ b := fun heq => hdisj a haR (heq ▸ hbR)
  have hp : pa ≠ pb := fun heq => hdisj pa hpaR (heq ▸ hpbR)
  have hn : na ≠ nb := fun heq => hdisj na hnaR (heq ▸ hnbR)
  have halloc := fun x hx => hl.seg.isSome (a := x) hx
  have halloc' := fun x hx => ho.seg.isSome (a := x) hx
  refine ⟨_, run_listSwap_apart hla hlb hab (fun heq => hdisj na hnaR (heq ▸ hbR))
    (fun heq => hdisj a haR (heq ▸ hnbR)) ?_ fuel, ?_, ?_, ?_⟩
  · simp [halloc pa hpaR, halloc na hnaR, halloc' pb hpbR, halloc' nb hnbR]
  · exact hl.swapOut hpa hna (halloc' b hbR) (hdisj' b hbR) (hdisj' pb hpbR) (hdisj' nb hnbR)
  · rw [← swapApart_comm hab hp hn]
    exact ho.swapOut hpb hnb (halloc a haR) (hdisj a haR) (hdisj pa hpaR) (hdisj na hnaR)
  · have hleft (x : α) (hx : x ∈ list.row (A ++ a :: B)) :=
      List.mem_append_left (other.row (C ++ b :: D)) hx
    have hright (x : α) (hx : x ∈ other.row (C ++ b :: D)) :=
      List.mem_append_right (list.row (A ++ a :: B)) hx
    exact (((((((Heap.SameOff.setNext h (hleft pa hpaR) _).trans
      (.setPrev _ (hleft na hnaR) _)).trans (.setNext _ (hright pb hpbR) _)).trans
      (.setPrev _ (hright nb hnbR) _)).trans (.setPrev _ (hleft a haR) _)).trans
      (.setNext _ (hleft a haR) _)).trans (.setPrev _ (hright b hbR) _)).trans
      (.setNext _ (hright b hbR) _)

end Lists

/-! ### Reversal -/

section Reverse

variable {h : Heap α} {list : CList α} {xs ys zs : List α}

/-- The heap in which the links of the elements `ys` are swapped. -/
def swapOn (h : Heap α) (ys : List α) : Heap α :=
  fun x => if x ∈ ys then (h x).map Link.swap else h x

theorem run_swapLinks {z : α} (hz : z ∉ ys) {l : Link α} (hl : h z = some l) :
    (swapLinks (some z)).run (swapOn h ys) = some ((), swapOn h (ys ++ [z])) := by
  have hz' : swapOn h ys z = some l := by simp [swapOn, hz, hl]
  have hheap : ((swapOn h ys).setPrev z l.next).setNext z l.prev = swapOn h (ys ++ [z]) := by
    funext x
    by_cases hx : x = z
    · subst hx
      simp [swapOn, hz, hl, Link.swap]
    · simp [swapOn, hx]
  simp [swapLinks, hz', hheap]

theorem run_listReverseLoop {fuel : Nat} (hl : IsList h list (ys ++ zs))
    (hfuel : zs.length < fuel) :
    (listReverseLoop list fuel (first zs (some list.tail))).run (swapOn h ys) =
      some ((), swapOn h (ys ++ zs)) := by
  induction fuel generalizing ys zs with
  | zero => exact absurd hfuel (Nat.not_lt_zero _)
  | succ fuel ih =>
      rw [listReverseLoop]
      cases zs with
      | nil => simp [listEnd]
      | cons z zs =>
          have hne : first (z :: zs) (some list.tail) ≠ listEnd list := fun heq =>
            List.cons_ne_nil _ _ (hl.first_eq_tail_iff.mp heq)
          have hz : z ∉ ys := fun hmem =>
            (List.nodup_append.mp hl.nodup_elems).2.2 z hmem z (by simp) rfl
          have hprev : (getPrev (some z)).run (swapOn h (ys ++ [z])) =
              some (first zs (some list.tail), swapOn h (ys ++ [z])) := by
            simp [swapOn, hl.links, Link.swap]
          rw [if_neg hne, first_cons, run_bind_of (run_swapLinks hz hl.links),
            run_bind_of hprev]
          have hrest := ih (show IsList h list ((ys ++ [z]) ++ zs) by simpa using hl)
            (by simpa using hfuel)
          simpa using hrest

theorem swapOn_nil (h : Heap α) : swapOn h [] = h := by
  funext x
  simp [swapOn]

theorem sameOff_swapOn (h : Heap α) (list : CList α) (xs : List α) :
    h.SameOff (list.row xs) (swapOn h xs) := fun _ hx =>
  if_neg fun hmem => hx (list.mem_row.mpr (.inr (.inl hmem)))

/-- Behind the loop the elements are turned round, and the sentinels are not. -/
theorem IsList.run_listReverseEnds (hl : IsList h list xs) {f l : α}
    (hfirst : xs.head? = some f) (hlast : xs.getLast? = some l) :
    ∃ h', (listReverseEnds list).run (swapOn h xs) = some ((), h') ∧ IsList h' list xs.reverse ∧
      (swapOn h xs).SameOff (list.row xs) h' := by
  have hfx : f ∈ xs := List.mem_of_head? hfirst
  have hlx : l ∈ xs := List.mem_of_getLast? hlast
  have hheadx : list.head ∉ xs := fun hmem => hl.ne_head hmem rfl
  have htailx : list.tail ∉ xs := fun hmem => hl.ne_tail hmem rfl
  have hht := hl.head_ne_tail
  have hseg := hl.seg
  rw [CList.row, List.cons_append, seg_cons, seg_append] at hseg
  simp only [first_append, first_cons, first_of_head hfirst, last_of_getLast hlast] at hseg
  obtain ⟨hhead, hmid, htail, _⟩ := hseg
  have hswap : Seg (swapOn h xs) (some list.tail) xs.reverse (some list.head) :=
    hmid.swap fun x hx => by simp [swapOn, hx]
  have hhead₁ : swapOn h xs list.head = some ⟨none, some f⟩ := by simp [swapOn, hheadx, hhead]
  have htail₁ : swapOn h xs list.tail = some ⟨some l, none⟩ := by simpa [swapOn, htailx] using htail
  obtain ⟨ql, hl₁⟩ : ∃ q, swapOn h xs l = some ⟨some list.tail, q⟩ := by
    obtain ⟨t, ht⟩ := List.getLast?_eq_some_iff.mp hlast
    rw [ht, List.reverse_append, List.reverse_singleton, List.singleton_append] at hswap
    exact ⟨_, ht ▸ hswap.1⟩
  obtain ⟨qf, hf₁⟩ : ∃ q, swapOn h xs f = some ⟨q, some list.head⟩ := by
    obtain ⟨t, ht⟩ := List.head?_eq_some_iff.mp hfirst
    rw [ht, List.reverse_cons, seg_append] at hswap
    exact ⟨_, ht ▸ hswap.2.1⟩
  have hlhead := hl.ne_head hlx
  have hltail := hl.ne_tail hlx
  have hfhead := hl.ne_head hfx
  have hftail := hl.ne_tail hfx
  obtain ⟨hlast', hfirst'⟩ : xs.reverse.getLast? = some f ∧ xs.reverse.head? = some l := by
    simp [hfirst, hlast]
  have hnodup' : xs.reverse.Nodup := List.nodup_reverse.mpr hl.nodup_elems
  refine ⟨((((swapOn h xs).setNext list.head (some l)).setPrev list.tail (some f)).setPrev l
    (some list.head)).setNext f (some list.tail), ?_, ⟨?_, ?_⟩, ?_⟩
  · simp [listReverseEnds, hhead₁, htail₁, hl₁, hf₁, hlhead, hltail, hfhead, hftail, hht,
      Ne.symm hht]
  · rw [CList.row, List.cons_append, seg_cons, seg_append]
    simp only [first_append, first_cons, first_of_head hfirst', last_of_getLast hlast']
    refine ⟨?_, ?_, ?_, trivial⟩
    · simp [hhead₁, Ne.symm hlhead, Ne.symm hfhead, hht]
    · exact (((hswap.setNext (by simpa using hheadx)).setPrev (by simpa using
        htailx)).setPrev_head hnodup' hfirst').setNext_last hnodup' hlast'
    · simp [htail₁, Ne.symm hltail, Ne.symm hftail, Ne.symm hht]
  · exact ((((List.reverse_perm xs).append_right _).cons _).nodup_iff).mpr hl.nodup
  · have hmem (x : α) (hx : x ∈ xs) : x ∈ list.row xs := CList.mem_row.mpr (.inr (.inl hx))
    exact (((Heap.SameOff.setNext _ (CList.mem_row.mpr (.inl rfl)) _).trans
      (.setPrev _ (CList.mem_row.mpr (.inr (.inr rfl))) _)).trans
      (.setPrev _ (hmem l hlx) _)).trans (.setNext _ (hmem f hfx) _)

theorem run_listReverse (hl : IsList h list xs) {fuel : Nat} (hfuel : xs.length < fuel) :
    ∃ h', (listReverse fuel list).run h = some ((), h') ∧ IsList h' list xs.reverse ∧
      h.SameOff (list.row xs) h' := by
  rw [listReverse, run_bind_of (run_listEmpty hl)]
  rcases List.eq_nil_or_concat' xs with rfl | ⟨rest, l, hconcat⟩
  · exact ⟨h, rfl, hl, .refl _ h⟩
  · have hne : xs ≠ [] := by simp [hconcat]
    have hlast : xs.getLast? = some l := by simp [hconcat]
    obtain ⟨f, hfirst⟩ := Option.ne_none_iff_exists'.mp (mt List.head?_eq_none_iff.mp hne)
    have hloop := run_listReverseLoop (show IsList h list ([] ++ xs) from hl) hfuel
    rw [swapOn_nil, List.nil_append] at hloop
    obtain ⟨h', hends, hl', hsame⟩ := hl.run_listReverseEnds hfirst hlast
    refine ⟨h', ?_, hl', (sameOff_swapOn h list xs).trans hsame⟩
    simp only [List.isEmpty_eq_false_iff.mpr hne, Bool.not_false, if_true]
    rw [run_bind_of (run_listBegin hl), run_bind_of hloop]
    exact hends

end Reverse

end SystemProgramming.Testlib
