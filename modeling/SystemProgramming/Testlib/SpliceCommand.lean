import SystemProgramming.Testlib.ListInterpreter
import SystemProgramming.Testlib.ListSplice

/-!
The command `list_splice`, for all positions. It checks each of the three
positions by itself; whether it moves the range, or leaves the lists as they
are, or breaks them depends on how the positions lie to one another.
-/

namespace SystemProgramming.Testlib

open SystemProgramming.Library

/-! ### What the command should do -/

section Moved

variable {α : Type}

/-- The range `[fst, lst)` of a sequence moves in front of a place of the same sequence. -/
def MovedWithin (xs : List α) (before fst lst : Int) (xs' : List α) : Prop :=
  ∃ A S B C D, xs = A ++ S ++ B ∧ fst = A.length ∧ lst = (A ++ S).length ∧ A ++ B = C ++ D ∧
    (before = C.length ∧ before ≤ fst ∨ before = (C ++ S).length ∧ lst ≤ before) ∧
    xs' = C ++ S ++ D

/-- The range `[fst, lst)` of `ys` moves in front of a place of `xs`. -/
def MovedTo (xs ys : List α) (before fst lst : Int) (xs' ys' : List α) : Prop :=
  ∃ A S B C D, ys = A ++ S ++ B ∧ fst = A.length ∧ lst = (A ++ S).length ∧ xs = C ++ D ∧
    before = C.length ∧ xs' = C ++ S ++ D ∧ ys' = A ++ B

end Moved

/-- The list is well formed; the range was moved or nothing was; no item came or went. -/
def OutcomeWithin (h : Heap Addr) (i : Fin MAX_DS) (xs : List Nat) (before fst lst : Int) : Prop :=
  ∃ xs', IsList h (listAt i) (xs'.map .item) ∧
    (xs' = xs ∨ MovedWithin xs before fst lst xs') ∧ xs'.Perm xs

/-- The same for two lists. -/
def OutcomeBetween (h : Heap Addr) (i j : Fin MAX_DS) (xs ys : List Nat)
    (before fst lst : Int) : Prop :=
  ∃ xs' ys', IsList h (listAt i) (xs'.map .item) ∧ IsList h (listAt j) (ys'.map .item) ∧
    (xs' = xs ∧ ys' = ys ∨ MovedTo xs ys before fst lst xs' ys') ∧ (xs' ++ ys').Perm (xs ++ ys)

def SpliceOutcome (h : Heap Addr) (items : Fin MAX_DS → List Nat) (i j : Fin MAX_DS)
    (before fst lst : Int) : Prop :=
  if i = j then OutcomeWithin h i (items i) before fst lst
  else OutcomeBetween h i j (items i) (items j) before fst lst

/-- The positions that the command takes as they are. -/
def InRange (n m : Nat) (before fst lst : Int) : Prop :=
  (0 ≤ before ∧ before ≤ n) ∧ (0 ≤ fst ∧ fst < m) ∧ 0 ≤ lst ∧ lst ≤ m

instance (n m : Nat) (before fst lst : Int) : Decidable (InRange n m before fst lst) :=
  inferInstanceAs (Decidable (_ ∧ _))

/-- How the positions have to lie when they are all in range: the range is empty, or in order
with the target not in it, or, within one list, reversed with the target at its end. -/
def SpliceOrder (same : Bool) (before fst lst : Int) : Prop :=
  fst = lst ∨ fst < lst ∧ ¬ (same = true ∧ fst ≤ before ∧ before < lst) ∨
    same = true ∧ 0 < lst ∧ lst < fst ∧ before = lst

instance (same : Bool) (before fst lst : Int) : Decidable (SpliceOrder same before fst lst) :=
  inferInstanceAs (Decidable (_ ∨ _))

/-! ### One list -/

section Within

variable {h : Heap Addr} {i : Fin MAX_DS} {xs Z : List Nat} {b f l : Nat}

theorem IsList.unique {α : Type} {h : Heap α} {list : CList α} {xs ys : List α}
    (hxs : IsList h list xs) (hys : IsList h list ys) : xs = ys := by
  have hrows := Seg.unique (show Seg h none (list.head :: (ys ++ [list.tail])) none from hys.seg)
    (show Seg h none (list.head :: (xs ++ [list.tail])) none from hxs.seg)
  exact List.append_cancel_right hrows

/-- Cuts a sequence at two places. -/
theorem exists_cut₂ {α : Type} (xs : List α) {p q : Nat} (hpq : p ≤ q) (hq : q ≤ xs.length) :
    ∃ A M B, xs = A ++ M ++ B ∧ A.length = p ∧ (A ++ M).length = q := by
  refine ⟨xs.take p, (xs.take q).drop p, xs.drop q, split_range xs hpq, ?_, ?_⟩
  all_goals
    simp only [List.length_append, List.length_take, List.length_drop]
    omega

/-- Cuts a sequence at three places. -/
theorem exists_cut {α : Type} (xs : List α) {p q t : Nat} (hpq : p ≤ q) (hqt : q ≤ t)
    (ht : t ≤ xs.length) : ∃ A M N B, xs = A ++ M ++ N ++ B ∧ A.length = p ∧
      (A ++ M).length = q ∧ (A ++ M ++ N).length = t := by
  obtain ⟨A, M, C, rfl, rfl, rfl⟩ := exists_cut₂ xs hpq (Nat.le_trans hqt ht)
  obtain ⟨N, B, rfl, hN⟩ : ∃ N B, C = N ++ B ∧ (A ++ M ++ N).length = t := by
    refine ⟨C.take (t - (A ++ M).length), C.drop (t - (A ++ M).length),
      (List.take_append_drop ..).symm, ?_⟩
    simp only [List.length_append, List.length_take] at hqt ht ⊢
    omega
  exact ⟨A, M, N, B, by simp, rfl, rfl, hN⟩

theorem exists_cons {α : Type} {xs ys : List α} (hlt : xs.length < (xs ++ ys).length) :
    ∃ y zs, ys = y :: zs := by
  refine List.exists_cons_of_ne_nil ?_
  rintro rfl
  simp at hlt

theorem exists_last {α : Type} {xs : List α} (hlt : 0 < xs.length) : ∃ y, xs.getLast? = some y :=
  ⟨_, List.getLast?_eq_some_getLast (List.ne_nil_of_length_pos hlt)⟩

/-- A call of `list_splice` as the command makes it. -/
def spliceAt (i j : Fin MAX_DS) (xs ys : List Nat) (before fst lst : Nat) : Prog Addr Unit :=
  listSplice (first ((xs.drop before).map .item) (some (.tail i)))
    ((ys[fst]?).map .item) (first ((ys.drop lst).map .item) (some (.tail j)))

theorem OutcomeWithin.of_isList {before fst lst : Int} (hlist : IsList h (listAt i) (Z.map .item))
    (ho : OutcomeWithin h i xs before fst lst) :
    (Z = xs ∨ MovedWithin xs before fst lst Z) ∧ Z.Perm xs := by
  obtain ⟨xs', hlist', hmoved, hperm⟩ := ho
  have hsame : Z = xs' :=
    List.map_injective_iff.mpr (fun _ _ => Addr.item.inj) (hlist.unique hlist')
  rw [hsame]
  exact ⟨hmoved, hperm⟩

/-- The call and what it should do. -/
def SplicesWithin (h : Heap Addr) (i : Fin MAX_DS) (xs : List Nat) (b f l : Nat) : Prop :=
  ∃ h', (spliceAt i i xs xs b f l).run h = some ((), h') ∧ OutcomeWithin h' i xs b f l

theorem SplicesWithin.of_run {h' : Heap Addr} (hs : SplicesWithin h i xs b f l)
    (hrun : (spliceAt i i xs xs b f l).run h = some ((), h'))
    (hlist : IsList h' (listAt i) (Z.map .item)) :
    (Z = xs ∨ MovedWithin xs b f l Z) ∧ Z.Perm xs := by
  obtain ⟨h'', hrun', ho⟩ := hs
  obtain rfl : h' = h'' := congrArg Prod.snd (Option.some.inj (hrun.symm.trans hrun'))
  exact ho.of_isList hlist

theorem not_splicesWithin {h' : Heap Addr} (hrun : (spliceAt i i xs xs b f l).run h = some ((), h'))
    (hlist : IsList h' (listAt i) (Z.map .item)) (hlength : Z.length ≠ xs.length) :
    ¬ SplicesWithin h i xs b f l :=
  fun hs => hlength (hs.of_run hrun hlist).2.length_eq

/-- The call in terms of what is in front of the places and behind them. -/
theorem spliceAt_eq {j : Fin MAX_DS} {ys A B C D E G : List Nat} (hx : xs = C ++ D)
    (hb : C.length = b) (hy : ys = A ++ B) (hf : A.length = f) (hy' : ys = E ++ G)
    (hl : E.length = l) :
    spliceAt i j xs ys b f l = listSplice (first (D.map .item) (some (listAt i).tail))
      ((B.map Addr.item).head?) (first (G.map .item) (some (listAt j).tail)) := by
  subst hx hb hf hl
  have hget : ys[A.length]? = B.head? := by
    rw [hy, List.getElem?_append_right (Nat.le_refl _), Nat.sub_self, List.head?_eq_getElem?]
  rw [spliceAt, hget, List.drop_left, hy', List.drop_left, List.head?_map]
  rfl

/-- The range goes to the front. -/
theorem splicesWithin_before (hl : IsList h (listAt i) (xs.map .item)) (hbf : b < f) (hfl : f < l)
    (hlx : l ≤ xs.length) : SplicesWithin h i xs b f l := by
  obtain ⟨C, M, S, B, rfl, rfl, rfl, rfl⟩ := exists_cut xs (Nat.le_of_lt hbf) (Nat.le_of_lt hfl) hlx
  obtain ⟨m, M, rfl⟩ := exists_cons hbf
  obtain ⟨x, S, rfl⟩ := exists_cons hfl
  obtain ⟨h', hrun, hlist, _⟩ := run_listSplice_same (A := (C ++ m :: M).map Addr.item)
    (s := (x :: S).map Addr.item) (B := B.map Addr.item) (C := C.map Addr.item)
    (D := (m :: M ++ B).map Addr.item) (by simpa using hl) rfl (by simp)
  refine ⟨h', ?_, C ++ (x :: S) ++ (m :: M ++ B), by simpa using hlist, .inr ?_, ?_⟩
  · rw [spliceAt_eq (D := m :: M ++ (x :: S) ++ B) (by simp) rfl (B := x :: S ++ B) (by simp) rfl
      (G := B) rfl rfl]
    simpa using hrun
  · exact ⟨C ++ m :: M, x :: S, B, C, m :: M ++ B, rfl, rfl, rfl, by simp, .inl
      ⟨rfl, Int.ofNat_le.mpr (Nat.le_of_lt hbf)⟩, rfl⟩
  · simpa using List.Perm.append_left C (List.perm_append_comm_assoc (x :: S) (m :: M) B)

/-- The range goes to the back. -/
theorem splicesWithin_behind (hl : IsList h (listAt i) (xs.map .item)) (hfl : f < l) (hlb : l ≤ b)
    (hbx : b ≤ xs.length) : SplicesWithin h i xs b f l := by
  obtain ⟨A, S, M, D, rfl, rfl, rfl, rfl⟩ := exists_cut xs (Nat.le_of_lt hfl) hlb hbx
  obtain ⟨x, S, rfl⟩ := exists_cons hfl
  obtain ⟨h', hrun, hlist, _⟩ := run_listSplice_same (A := A.map Addr.item)
    (s := (x :: S).map Addr.item) (B := (M ++ D).map Addr.item) (C := (A ++ M).map Addr.item)
    (D := D.map Addr.item) (by simpa using hl) rfl (by simp)
  refine ⟨h', ?_, A ++ M ++ (x :: S) ++ D, by simpa using hlist, .inr ?_, ?_⟩
  · rw [spliceAt_eq (D := D) rfl rfl (B := x :: S ++ M ++ D) (by simp) rfl (G := M ++ D) (by simp)
      rfl]
    simpa using hrun
  · exact ⟨A, x :: S, M ++ D, A ++ M, D, by simp, rfl, rfl, by simp, .inr
      ⟨by simp only [List.length_append]; omega, Int.ofNat_le.mpr hlb⟩, rfl⟩
  · simpa using List.Perm.append_left A (List.perm_append_comm_assoc M (x :: S) D)

/-- The target is the start of the range. -/
theorem not_splicesWithin_atStart (hl : IsList h (listAt i) (xs.map .item)) (hfl : f < l)
    (hlx : l ≤ xs.length) : ¬ SplicesWithin h i xs f f l := by
  obtain ⟨A, M, B, rfl, rfl, rfl⟩ := exists_cut₂ xs (Nat.le_of_lt hfl) hlx
  obtain ⟨m, M, rfl⟩ := exists_cons hfl
  obtain ⟨h', hrun, hbroken⟩ := run_listSplice_atStart (A := A.map Addr.item)
    (M := (m :: M).map Addr.item) (B := B.map Addr.item) (by simpa using hl) rfl
  rintro ⟨h'', hrun', ys, hlist, _⟩
  rw [spliceAt_eq (D := m :: M ++ B) (by simp) rfl (B := m :: M ++ B) (by simp) rfl
    (G := B) rfl rfl] at hrun'
  have heq := hrun.symm.trans hrun'
  obtain rfl : h' = h'' := congrArg Prod.snd (Option.some.inj heq)
  exact hbroken _ hlist

/-- The target is inside of the range. -/
theorem not_splicesWithin_inside (hl : IsList h (listAt i) (xs.map .item)) (hfb : f < b)
    (hbl : b < l) (hlx : l ≤ xs.length) : ¬ SplicesWithin h i xs b f l := by
  obtain ⟨A, M, N, B, rfl, rfl, rfl, rfl⟩ := exists_cut xs (Nat.le_of_lt hfb) (Nat.le_of_lt hbl) hlx
  obtain ⟨m, M, rfl⟩ := exists_cons hfb
  obtain ⟨n, N, rfl⟩ := exists_cons hbl
  obtain ⟨h', hrun, hlist⟩ := run_listSplice_inside (A := A.map Addr.item)
    (M := (m :: M).map Addr.item) (N := (n :: N).map Addr.item) (B := B.map Addr.item)
    (by simpa using hl) rfl rfl
  refine not_splicesWithin (Z := A ++ B) ?_ (by simpa using hlist)
    (by simp only [List.length_append, List.length_cons]; omega)
  rw [spliceAt_eq (D := n :: N ++ B) (by simp) rfl (B := m :: M ++ (n :: N) ++ B) (by simp) rfl
    (G := B) rfl rfl]
  simpa using hrun

/-- The range is reversed and its end is the target: nothing is written that was not there. -/
theorem run_spliceAt_reversed_end (hl : IsList h (listAt i) (xs.map .item)) (hl0 : 0 < l)
    (hlf : l < f) (hfx : f < xs.length) : (spliceAt i i xs xs l f l).run h = some ((), h) := by
  obtain ⟨A, M, B, rfl, rfl, rfl⟩ := exists_cut₂ xs (Nat.le_of_lt hlf) (Nat.le_of_lt hfx)
  obtain ⟨m, M, rfl⟩ := exists_cons hlf
  obtain ⟨x, B, rfl⟩ := exists_cons hfx
  obtain ⟨y, hy⟩ := exists_last hl0
  have hrun := run_listSplice_reversed_end (A := A.map Addr.item) (M := (m :: M).map Addr.item)
    (B := (x :: B).map Addr.item) (l := .item y) (by simpa using hl) (by simp [hy]) rfl rfl
  rw [spliceAt_eq (D := m :: M ++ x :: B) (by simp) rfl (B := x :: B) rfl rfl
    (G := m :: M ++ x :: B) (by simp) rfl]
  simpa using hrun

theorem splicesWithin_reversed_end (hl : IsList h (listAt i) (xs.map .item)) (hl0 : 0 < l)
    (hlf : l < f) (hfx : f < xs.length) : SplicesWithin h i xs l f l :=
  ⟨h, run_spliceAt_reversed_end hl hl0 hlf hfx, _, hl, .inl rfl, .refl _⟩

/-- The range is reversed and the target is in front of it. -/
theorem not_splicesWithin_reversed_before (hl : IsList h (listAt i) (xs.map .item)) (hbl : b < l)
    (hlf : l < f) (hfx : f < xs.length) : ¬ SplicesWithin h i xs b f l := by
  obtain ⟨A, M, N, B, rfl, rfl, rfl, rfl⟩ :=
    exists_cut xs (Nat.le_of_lt hbl) (Nat.le_of_lt hlf) (Nat.le_of_lt hfx)
  obtain ⟨m, M, rfl⟩ := exists_cons hbl
  obtain ⟨n, N, rfl⟩ := exists_cons hlf
  obtain ⟨x, B, rfl⟩ := exists_cons hfx
  obtain ⟨h', hrun, hlist⟩ := run_listSplice_reversed_before (A := A.map Addr.item)
    (M := (m :: M).map Addr.item) (N := (n :: N).map Addr.item) (B := (x :: B).map Addr.item)
    (by simpa using hl) rfl rfl rfl
  refine not_splicesWithin (Z := A ++ x :: B) ?_ (by simpa using hlist)
    (by simp only [List.length_append, List.length_cons]; omega)
  rw [spliceAt_eq (D := m :: M ++ (n :: N) ++ x :: B) (by simp) rfl (B := x :: B) rfl rfl
    (G := n :: N ++ x :: B) (by simp) rfl]
  simpa using hrun

/-- The range is reversed and the target is behind it or at its start. -/
theorem not_splicesWithin_reversed_behind (hl : IsList h (listAt i) (xs.map .item)) (hl0 : 0 < l)
    (hlf : l < f) (hfx : f < xs.length) (hfb : f ≤ b) (hbx : b ≤ xs.length) :
    ¬ SplicesWithin h i xs b f l := by
  obtain ⟨A, M, N, B, rfl, rfl, rfl, rfl⟩ := exists_cut xs (Nat.le_of_lt hlf) hfb hbx
  obtain ⟨m, M, rfl⟩ := exists_cons hlf
  obtain ⟨x, R, hR⟩ := exists_cons (show (A ++ m :: M).length < (A ++ m :: M ++ (N ++ B)).length by
    simpa using hfx)
  obtain ⟨y, hy⟩ := exists_last hl0
  obtain ⟨h', hrun, hlist⟩ := run_listSplice_reversed_behind (A := A.map Addr.item)
    (M := (m :: M).map Addr.item) (N := N.map Addr.item) (B := B.map Addr.item) (l := .item y)
    (f := .item x) (by simpa using hl) (by simp [hy]) rfl (by rw [← List.map_append, hR]; rfl)
  refine not_splicesWithin (Z := A ++ B) ?_ (by simpa using hlist)
    (by simp only [List.length_append, List.length_cons]; omega)
  rw [spliceAt_eq (D := B) rfl rfl (B := N ++ B) (by simp) rfl (G := m :: M ++ N ++ B) (by simp)
    rfl, hR]
  simpa using hrun

/-- The range is reversed and the target is inside of it: the list is well formed, but it is
another one. -/
theorem not_splicesWithin_reversed_inside (hl : IsList h (listAt i) (xs.map .item)) (hl0 : 0 < l)
    (hlb : l < b) (hbf : b < f) (hfx : f < xs.length) : ¬ SplicesWithin h i xs b f l := by
  obtain ⟨A, M, N, B, rfl, rfl, rfl, rfl⟩ :=
    exists_cut xs (Nat.le_of_lt hlb) (Nat.le_of_lt hbf) (Nat.le_of_lt hfx)
  obtain ⟨m, M, rfl⟩ := exists_cons hlb
  obtain ⟨n, N, rfl⟩ := exists_cons hbf
  obtain ⟨x, B, rfl⟩ := exists_cons hfx
  obtain ⟨y, hy⟩ := exists_last hl0
  obtain ⟨h', hrun, hlist⟩ := run_listSplice_reversed_inside (A := A.map Addr.item)
    (M := (m :: M).map Addr.item) (N := (n :: N).map Addr.item) (B := (x :: B).map Addr.item)
    (l := .item y) (by simpa using hl) (by simp [hy]) rfl rfl rfl
  intro hs
  have hrun' : (spliceAt i i (A ++ m :: M ++ n :: N ++ x :: B) (A ++ m :: M ++ n :: N ++ x :: B)
      (A ++ m :: M).length (A ++ m :: M ++ n :: N).length A.length).run h = some ((), h') := by
    rw [spliceAt_eq (D := n :: N ++ x :: B) (by simp) rfl (B := x :: B) rfl rfl
      (G := m :: M ++ (n :: N) ++ x :: B) (by simp) rfl]
    simpa using hrun
  obtain ⟨hsame | ⟨_, S, _, _, _, _, hfst, hlst, _⟩, _⟩ :=
    hs.of_run (Z := A ++ n :: N ++ m :: M ++ x :: B) hrun' (by simpa using hlist)
  · -- the second part does not start like the third
    have hnodup := hl.nodup_elems.of_map
    simp only [List.append_assoc, List.cons_append, List.append_cancel_left_eq,
      List.cons.injEq] at hsame hnodup
    obtain ⟨rfl, _⟩ := hsame
    simp [List.nodup_append] at hnodup
  · -- a range that moves is not reversed
    rw [List.length_append] at hlst
    omega

/-- An empty range. -/
theorem run_spliceAt_empty {j : Fin MAX_DS} {ys : List Nat}
    (hl : IsList h (listAt i) (xs.map .item)) (hf : f < ys.length) :
    (spliceAt i j xs ys b f f).run h = some ((), h) := by
  rw [← List.take_append_drop b xs, List.map_append] at hl
  have hrun := run_listSplice_empty hl (some (.item ys[f]))
  rw [spliceAt, List.drop_eq_getElem_cons hf, List.getElem?_eq_getElem hf]
  exact hrun

/-- A reversed range that ends in front of the first element. -/
theorem run_spliceAt_head {j : Fin MAX_DS} {ys : List Nat}
    (hl : IsList h (listAt i) (xs.map .item)) (hl' : IsList h (listAt j) (ys.map .item))
    (hf0 : 0 < f) (hf : f < ys.length) : (spliceAt i j xs ys b f 0).run h = none := by
  obtain ⟨_, M, B, rfl, hA, rfl⟩ := exists_cut₂ ys (Nat.zero_le f) (Nat.le_of_lt hf)
  obtain rfl := List.length_eq_zero_iff.mp hA
  obtain ⟨m, M, rfl⟩ := List.exists_cons_of_length_pos (show 0 < M.length from hf0)
  obtain ⟨x, B, rfl⟩ := exists_cons hf
  rw [← List.take_append_drop b xs, List.map_append] at hl
  have hrun := run_listSplice_reversed_head (M := (m :: M).map Addr.item)
    (B := (x :: B).map Addr.item) (by simpa using hl') hl rfl rfl
  rw [spliceAt, List.getElem?_append_right (Nat.le_refl _), Nat.sub_self]
  exact hrun

/-- **One list named twice.** -/
theorem splicesWithin_iff (hl : IsList h (listAt i) (xs.map .item)) (hb : b ≤ xs.length)
    (hf : f < xs.length) (hlx : l ≤ xs.length) :
    SplicesWithin h i xs b f l ↔ SpliceOrder true b f l := by
  have horder : SpliceOrder true b f l ↔
      f = l ∨ f < l ∧ ¬ (f ≤ b ∧ b < l) ∨ 0 < l ∧ l < f ∧ b = l := by
    simp only [SpliceOrder, true_and]
    omega
  rw [horder]
  rcases Nat.lt_trichotomy f l with hfl | rfl | hlf
  · rcases Nat.lt_trichotomy b f with hbf | rfl | hfb
    · exact iff_of_true (splicesWithin_before hl hbf hfl hlx) (by omega)
    · exact iff_of_false (not_splicesWithin_atStart hl hfl hlx) (by omega)
    · rcases Nat.lt_or_ge b l with hbl | hlb
      · exact iff_of_false (not_splicesWithin_inside hl hfb hbl hlx) (by omega)
      · exact iff_of_true (splicesWithin_behind hl hfl hlb hb) (by omega)
  · exact iff_of_true ⟨h, run_spliceAt_empty hl hf, xs, hl, .inl rfl, .refl _⟩ (.inl rfl)
  · rcases Nat.eq_zero_or_pos l with rfl | hl0
    · refine iff_of_false (fun ⟨h', hrun, _⟩ => ?_) (by omega)
      rw [run_spliceAt_head hl hl hlf hf] at hrun
      cases hrun
    · rcases Nat.lt_trichotomy b l with hbl | rfl | hlb
      · exact iff_of_false (not_splicesWithin_reversed_before hl hbl hlf hf) (by omega)
      · exact iff_of_true (splicesWithin_reversed_end hl hl0 hlf hf) (by omega)
      · refine iff_of_false ?_ (by omega)
        rcases Nat.lt_or_ge b f with hbf | hfb
        · exact not_splicesWithin_reversed_inside hl hl0 hlb hbf hf
        · exact not_splicesWithin_reversed_behind hl hl0 hlf hf hfb hb

end Within

/-! ### Two lists -/

section Between

variable {h : Heap Addr} {i j : Fin MAX_DS} {xs ys : List Nat} {b f l : Nat}

def SplicesBetween (h : Heap Addr) (i j : Fin MAX_DS) (xs ys : List Nat) (b f l : Nat) : Prop :=
  ∃ h', (spliceAt i j xs ys b f l).run h = some ((), h') ∧ OutcomeBetween h' i j xs ys b f l

/-- **Two lists.** -/
theorem splicesBetween_iff (hl : IsList h (listAt i) (xs.map .item))
    (hl' : IsList h (listAt j) (ys.map .item))
    (hdisj : ∀ x ∈ (listAt j).row (ys.map .item), x ∉ (listAt i).row (xs.map .item))
    (hb : b ≤ xs.length) (hf : f < ys.length) (hly : l ≤ ys.length) :
    SplicesBetween h i j xs ys b f l ↔ SpliceOrder false b f l := by
  obtain ⟨C, D, rfl, rfl⟩ : ∃ C D, xs = C ++ D ∧ C.length = b :=
    ⟨_, _, (List.take_append_drop b xs).symm, List.length_take_of_le hb⟩
  rcases Nat.lt_trichotomy f l with hfl | rfl | hlf
  · refine iff_of_true ?_ (.inr (.inl ⟨by omega, by simp⟩))
    obtain ⟨A, S, B, rfl, rfl, rfl⟩ := exists_cut₂ ys (Nat.le_of_lt hfl) hly
    obtain ⟨x, S, rfl⟩ := exists_cons hfl
    simp only [List.map_append] at hl hl' hdisj
    obtain ⟨h', hrun, hsource, hlist, _⟩ := run_listSplice_other hl' hl hdisj
      (show _ = some (Addr.item x) from rfl)
    refine ⟨h', ?_, C ++ (x :: S) ++ D, A ++ B, by simpa using hlist, by simpa using hsource,
      .inr ⟨A, x :: S, B, C, D, rfl, rfl, rfl, rfl, rfl, rfl, rfl⟩, ?_⟩
    · rw [spliceAt_eq (D := D) rfl rfl (B := x :: S ++ B) (by simp) rfl (G := B) rfl rfl]
      exact hrun
    · refine List.perm_iff_count.mpr fun m => ?_
      simp only [List.count_append]
      omega
  · exact iff_of_true ⟨h, run_spliceAt_empty hl hf, _, _, hl, hl', .inl ⟨rfl, rfl⟩, .refl _⟩
      (.inl rfl)
  · refine iff_of_false ?_ (by rw [SpliceOrder]; simp; omega)
    rintro ⟨h', hrun, _, ys', _, hsource, _⟩
    -- a reversed range that starts at the head fails, any other breaks the list it is from
    rcases Nat.eq_zero_or_pos l with rfl | hl0
    · rw [run_spliceAt_head hl hl' hlf hf] at hrun
      cases hrun
    · obtain ⟨A, M, B, rfl, rfl, rfl⟩ := exists_cut₂ ys (Nat.le_of_lt hlf) (Nat.le_of_lt hf)
      obtain ⟨m, M, rfl⟩ := exists_cons hlf
      obtain ⟨x, B, rfl⟩ := exists_cons hf
      obtain ⟨y, hy⟩ := exists_last hl0
      simp only [List.map_append] at hl hl' hdisj
      obtain ⟨h'', hrun', hbroken⟩ := run_listSplice_reversed_other hl' hl hdisj
        (show _ = some (Addr.item y) by simp [hy]) (show _ = some (Addr.item m) from rfl)
        (show _ = some (Addr.item x) from rfl)
      rw [spliceAt_eq (D := D) rfl rfl (B := x :: B) rfl rfl (G := m :: M ++ x :: B) (by simp) rfl]
        at hrun
      obtain rfl : h'' = h' := congrArg Prod.snd (Option.some.inj (hrun'.symm.trans hrun))
      exact hbroken _ hsource

end Between

/-! ### Running the command -/

variable {s : Interp} {r : Reference} {items : Fin MAX_DS → List Nat} {i j : Fin MAX_DS}
  {fuel : Nat} {memory : Malloc} {before fst lst : Int} {source : String}

/-- The command reads its three places and calls `list_splice` when there are such places. -/
theorem run_spliceCommand (hs : Represents s r items) (hi : (r.lists i).isSome)
    (hsource : r.find source = some j) (hfuel : ∀ k, (items k).length < fuel) :
    (doListCommand fuel memory i (.splice before source fst lst)).run s =
      if InRange (items i).length (items j).length before fst lst then
        (onLinks (listSplice (first (((items i).drop before.toNat).map .item) (some (.tail i)))
          ((elemAt (items j) fst).map .item)
          (first (((items j).drop lst.toNat).map .item) (some (.tail j))))).run s
      else some ((), s) := by
  have hj := Reference.isSome_of_find hsource
  have hlen (k : Fin MAX_DS) : (r.values k).length < fuel := by
    rw [length_values hs]
    exact hfuel k
  have hstart : (get : Cmd Interp).run s = some (s, s) := rfl
  rw [doListCommand, run_bind_of hstart, findList_eq hs, hsource]
  simp only []
  rw [run_bind_of (run_posAt hs hi (hlen i) before), run_bind_of (run_elemAt hs hj (hlen j) fst),
    run_bind_of (run_posAt hs hj (hlen j) lst)]
  have hpos (P : Prop) [Decidable P] (xs : List Addr) (t : Addr) :
      (if P then first xs (some t) else none).isSome = decide P := by
    obtain ⟨b, hb⟩ := first_some xs t
    split <;> simp_all
  simp only [hpos, Option.isSome_map, isSome_elemAt, length_values hs, Bool.and_eq_true,
    decide_eq_true_iff]
  by_cases hrange : InRange (items i).length (items j).length before fst lst
  · obtain ⟨hbefore, hfst, hlst⟩ := hrange
    rw [if_pos hbefore, if_pos hlst, if_pos (show InRange _ _ _ _ _ from ⟨hbefore, hfst, hlst⟩),
      if_pos ⟨⟨hbefore, hfst⟩, hlst⟩]
  · rw [if_neg hrange, if_neg fun hall => hrange ⟨hall.1.1, hall.1.2, hall.2⟩]
    rfl

/-- In range the command is its call of `list_splice`. -/
theorem run_spliceCommand_inRange (hs : Represents s r items) (hi : (r.lists i).isSome)
    (hsource : r.find source = some j) (hfuel : ∀ k, (items k).length < fuel) {b f l : Nat}
    (hrange : InRange (items i).length (items j).length b f l) :
    (doListCommand fuel memory i (.splice b source f l)).run s =
      (onLinks (spliceAt i j (items i) (items j) b f l)).run s := by
  have hget : elemAt (items j) f = (items j)[f]? := by
    rw [elemAt, if_neg (by omega), Int.toNat_natCast]
  rw [run_spliceCommand hs hi hsource hfuel, if_pos hrange, hget, Int.toNat_natCast,
    Int.toNat_natCast]
  rfl

/-- In range the command does what its call of `list_splice` does. -/
theorem spliceCommand_iff_spliceAt (hs : Represents s r items) {name : String}
    (hname : r.find name = some i) (hsource : r.find source = some j)
    (hfuel : ∀ k, (items k).length < fuel) (memory : Malloc) {b f l : Nat}
    (hrange : InRange (items i).length (items j).length b f l) :
    (∃ s', (doCommand fuel memory (.list name (.splice b source f l))).run s = some ((), s') ∧
        SpliceOutcome s'.links items i j b f l) ↔
      ∃ h', (spliceAt i j (items i) (items j) b f l).run s.links = some ((), h') ∧
        SpliceOutcome h' items i j b f l := by
  have hstart : (get : Cmd Interp).run s = some (s, s) := rfl
  rw [doCommand, run_bind_of hstart, findList_eq hs, hname]
  simp only [run_spliceCommand_inRange hs (Reference.isSome_of_find hname) hsource hfuel hrange]
  constructor
  · rintro ⟨s', hrun, ho⟩
    obtain ⟨⟨_, h'⟩, hrun', heq⟩ := Option.map_eq_some_iff.mp hrun
    obtain rfl : _ = s' := congrArg Prod.snd heq
    exact ⟨h', hrun', ho⟩
  · rintro ⟨h', hrun, ho⟩
    exact ⟨_, run_onLinks hrun, ho⟩

/-- **The positions `list_splice` is right for.** The command leaves both lists well formed
with all their items, and moves the range or nothing, exactly when some position is out of
range or the positions lie in the right order. -/
theorem spliceCommand_iff (hs : Represents s r items) {name : String} (hname : r.find name = some i)
    (hsource : r.find source = some j) (hfuel : ∀ k, (items k).length < fuel) (memory : Malloc)
    (before fst lst : Int) :
    (∃ s', (doCommand fuel memory (.list name (.splice before source fst lst))).run s =
        some ((), s') ∧ SpliceOutcome s'.links items i j before fst lst) ↔
      (InRange (items i).length (items j).length before fst lst →
        SpliceOrder (i = j) before fst lst) := by
  have hi := Reference.isSome_of_find hname
  have hj := Reference.isSome_of_find hsource
  by_cases hrange : InRange (items i).length (items j).length before fst lst
  · have hrange' := hrange
    obtain ⟨⟨hb0, hb⟩, ⟨hf0, hf⟩, hl0, hl⟩ := hrange'
    obtain ⟨b, rfl⟩ := Int.eq_ofNat_of_zero_le hb0
    obtain ⟨f, rfl⟩ := Int.eq_ofNat_of_zero_le hf0
    obtain ⟨l, rfl⟩ := Int.eq_ofNat_of_zero_le hl0
    rw [forall_prop_of_true hrange]
    refine (spliceCommand_iff_spliceAt hs hname hsource hfuel memory hrange).trans ?_
    simp only [SpliceOutcome]
    rcases eq_or_ne i j with rfl | hij
    · simpa [SplicesWithin] using splicesWithin_iff (hs.lists i hi) (Int.ofNat_le.mp hb)
        (Int.ofNat_lt.mp hf) (Int.ofNat_le.mp hl)
    · simpa [hij, SplicesBetween] using splicesBetween_iff (hs.lists i hi) (hs.lists j hj)
        (fun x => hs.disjoint hij.symm) (Int.ofNat_le.mp hb) (Int.ofNat_lt.mp hf)
        (Int.ofNat_le.mp hl)
  · have hstart : (get : Cmd Interp).run s = some (s, s) := rfl
    rw [doCommand, run_bind_of hstart, findList_eq hs, hname]
    simp only [run_spliceCommand hs hi hsource hfuel]
    rw [if_neg hrange]
    refine iff_of_true ⟨s, rfl, ?_⟩ fun h => absurd h hrange
    rw [SpliceOutcome]
    split
    · exact ⟨items i, hs.lists i hi, .inl rfl, .refl _⟩
    · exact ⟨items i, items j, hs.lists i hi, hs.lists j hj, .inl ⟨rfl, rfl⟩, .refl _⟩

/-- A list of two items. -/
def pairRun : List (List String × Malloc) :=
  [(["create", "list", "L"], none), (["list_push_back", "L", "1"], some (0, ⟨none, none⟩)),
    (["list_push_back", "L", "2"], some (0, ⟨none, none⟩))]

def slot0 : Fin MAX_DS := ⟨0, by decide⟩

theorem exists_pairRun : ∃ s items, (interpret 10 pairRun).run .initial = some ((), s) ∧
    Represents s (Reference.initial.interpret pairRun) items ∧
    (items slot0).length = 2 ∧ ∀ k, (items k).length < 10 := by
  obtain ⟨s, items, hrun, hs⟩ := run_interpret represents_initial pairRun
    (by decide +kernel) (show _ ≤ 10 by decide +kernel)
  have hlength (k : Fin MAX_DS) := length_values hs k
  refine ⟨s, items, hrun, hs, ?_, fun k => ?_⟩
  · rw [← hlength]
    decide +kernel
  · rw [← hlength]
    revert k
    decide +kernel

theorem spliceCommand_iff_pairRun : ∃ s items,
    (interpret 10 pairRun).run .initial = some ((), s) ∧
    ∃ s', (doCommand 10 none (.list "L" (.splice 0 "L" 1 2))).run s = some ((), s') ∧
      SpliceOutcome s'.links items slot0 slot0 0 1 2 := by
  obtain ⟨s, items, hrun, hs, _, hfuel⟩ := exists_pairRun
  exact ⟨s, items, hrun, (spliceCommand_iff hs (by decide +kernel) (by decide +kernel) hfuel none
    0 1 2).mpr fun _ => by decide⟩

/-- The range in front of its own start: the list becomes a cycle. -/
theorem spliceCommand_cycle : ∃ s items, (interpret 10 pairRun).run .initial = some ((), s) ∧
    Represents s (Reference.initial.interpret pairRun) items ∧
    ¬ ∃ s', (doCommand 10 none (.list "L" (.splice 0 "L" 0 1))).run s = some ((), s') ∧
      SpliceOutcome s'.links items slot0 slot0 0 0 1 := by
  obtain ⟨s, items, hrun, hs, hlength, hfuel⟩ := exists_pairRun
  have hname : (Reference.initial.interpret pairRun).find "L" = some slot0 := by decide +kernel
  refine ⟨s, items, hrun, hs, ?_⟩
  have hiff := spliceCommand_iff_spliceAt hs hname hname hfuel none (b := 0) (f := 0) (l := 1)
    (by rw [hlength]; decide)
  refine hiff.not.mpr ?_
  exact not_splicesWithin_atStart (hs.lists slot0 (Reference.isSome_of_find hname)) (by decide)
    (by rw [hlength]; decide)

end SystemProgramming.Testlib
