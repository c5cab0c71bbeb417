import SystemProgramming.Testlib.SpliceCommand

/-!
The command `list_unique` with any second list, in particular with the first
one again. Then the loop appends what it removes to the list that it goes
through, and the question is whether the cursor ever reaches the end. On plain
sequences the answer is `Settles`: each time around, the loop leaves the last
value and the values that were equal to the one in front of them, so it comes
to an end unless at some time nothing but copies of one value is left. Without
a second list the loop ends, but what it takes off is in no list any more; so
all items are kept only where there is nothing to take off.
-/

namespace SystemProgramming.Testlib

open SystemProgramming.Library

/-! ### Going around -/

/-- What is left in front of the cursor after one time around. -/
def turn (xs : List Int) : List Int := xs.getLast?.toList ++ (dedup xs).2

/-- Two or more copies of one value, and nothing else. -/
def Copies (xs : List Int) : Prop := 2 ≤ xs.length ∧ ∀ x ∈ xs, ∀ y ∈ xs, x = y

instance (xs : List Int) : Decidable (Copies xs) := inferInstanceAs (Decidable (_ ∧ _))

/-- Going around never leaves copies of one value only. -/
def Settles (xs : List Int) : Prop := ∀ k, ¬ Copies (turn^[k] xs)

theorem dedup_eq_nil_iff (xs : List Int) : (dedup xs).2 = [] ↔ xs.IsChain (· ≠ ·) := by
  fun_induction dedup xs with
  | case1 => simp
  | case2 => simp
  | case3 x xs kept removed hrest ih => simp
  | case4 x y xs kept removed hrest hne ih =>
      rw [hrest] at ih
      simpa [hne] using ih

/-- The loop of `list_unique` that appends to its own list, on plain sequences: `P` is behind
the cursor `x` and the rest in front of it. -/
def spin {α : Type} (lt : α → α → Bool) : Nat → List α → α → List α → Option (List α)
  | 0, _, _, _ => none
  | _ + 1, P, x, [] => some (P ++ [x])
  | fuel + 1, P, x, y :: Q =>
      if !lt x y && !lt y x then spin lt fuel P x (Q ++ [y]) else spin lt fuel (P ++ [x]) y Q

section Spin

variable {α β : Type} {lt : α → α → Bool}

theorem spin_perm {fuel : Nat} {P Q zs : List α} {x : α} (hspin : spin lt fuel P x Q = some zs) :
    zs.Perm (P ++ x :: Q) := by
  induction fuel generalizing P x Q with
  | zero => nomatch hspin
  | succ fuel ih =>
      cases Q with
      | nil =>
          rw [spin, Option.some.injEq] at hspin
          exact hspin ▸ .refl _
      | cons y Q =>
          rw [spin] at hspin
          split at hspin
          · exact (ih hspin).trans (((List.perm_append_singleton y Q).cons x).append_left P)
          · simpa using ih hspin

theorem spin_map (f : β → α) (fuel : Nat) (P : List β) (x : β) (Q : List β) :
    spin lt fuel (P.map f) (f x) (Q.map f) =
      (spin (fun a b => lt (f a) (f b)) fuel P x Q).map (List.map f) := by
  induction fuel generalizing P x Q with
  | zero => rfl
  | succ fuel ih =>
      cases Q with
      | nil => simp [spin]
      | cons y Q =>
          have hkeep := ih P x (Q ++ [y])
          have hgo := ih (P ++ [x]) y Q
          rw [List.map_append, List.map_singleton] at hkeep hgo
          rw [List.map_cons, spin, spin, hkeep, hgo]
          split <;> rfl

/-- More rounds change nothing once the loop has ended. -/
theorem spin_mono {fuel : Nat} {P Q zs : List α} {x : α} (hspin : spin lt fuel P x Q = some zs)
    (k : Nat) : spin lt (fuel + k) P x Q = some zs := by
  induction fuel generalizing P x Q with
  | zero => nomatch hspin
  | succ fuel ih =>
      rw [Nat.add_right_comm]
      cases Q with
      | nil => exact hspin
      | cons y Q =>
          simp only [spin] at hspin ⊢
          split at hspin
          · next hequal => exact (if_pos hequal).trans (ih hspin)
          · next hdiffer => exact (if_neg hdiffer).trans (ih hspin)

end Spin

/-! ### When it ends -/

section Ends

variable {P Q D : List Int} {x : Int} {fuel : Nat}

def below (a b : Int) : Bool := decide (a < b)

theorem spin_below (fuel : Nat) (P : List Int) (x y : Int) (Q : List Int) :
    spin below (fuel + 1) P x (y :: Q) =
      if x = y then spin below fuel P x (Q ++ [y]) else spin below fuel (P ++ [x]) y Q := by
  have hequal : (!below x y && !below y x) = true ↔ x = y := by
    simp only [below, Bool.and_eq_true, Bool.not_eq_true', decide_eq_false_iff_not]
    omega
  rw [spin]
  exact if_congr hequal rfl rfl

theorem dedup_removed (x y : Int) (Q : List Int) :
    (dedup (x :: y :: Q)).2 = if x = y then y :: (dedup (y :: Q)).2 else (dedup (y :: Q)).2 := by
  rw [dedup]
  generalize dedup (y :: Q) = parts
  by_cases hxy : x = y <;> simp [hxy]

/-- One time around: the cursor stops at the last value, with what it moved in front of it. -/
theorem exists_spin_turn (P : List Int) (x : Int) (Q D : List Int) : ∃ P', ∀ fuel,
    spin below (fuel + Q.length) P x (Q ++ D) =
      spin below fuel P' ((x :: Q).getLast (List.cons_ne_nil x Q))
        (D ++ (dedup (x :: Q)).2) := by
  induction Q generalizing P x D with
  | nil => exact ⟨P, fun fuel => by simp [dedup]⟩
  | cons y Q ih =>
      rcases eq_or_ne x y with rfl | hxy
      · obtain ⟨P', hturn⟩ := ih P x (D ++ [x])
        refine ⟨P', fun fuel => ?_⟩
        rw [dedup_removed, if_pos rfl, List.length_cons, ← Nat.add_assoc, List.cons_append,
          spin_below, if_pos rfl, List.append_assoc, hturn]
        simp
      · obtain ⟨P', hturn⟩ := ih (P ++ [x]) y D
        refine ⟨P', fun fuel => ?_⟩
        rw [dedup_removed, if_neg hxy, List.length_cons, ← Nat.add_assoc, List.cons_append,
          spin_below, if_neg hxy, hturn]
        simp

/-- With nothing but copies of its value in front of it, the cursor never moves. -/
theorem spin_copies (fuel : Nat) (P : List Int) (hQ : Q ≠ []) (hsame : ∀ y ∈ Q, x = y) :
    spin below fuel P x Q = none := by
  induction fuel generalizing Q with
  | zero => rfl
  | succ fuel ih =>
      cases Q with
      | nil => exact absurd rfl hQ
      | cons y Q =>
          rw [spin_below, if_pos (hsame y List.mem_cons_self)]
          apply ih
          · simp
          · intro z hz
            refine hsame z ?_
            simpa [or_comm] using hz

/-- Otherwise something is left behind, and there is less to go around. -/
theorem length_dedup_lt (x : Int) (Q : List Int) :
    (dedup (x :: Q)).2.length ≤ Q.length ∧
      ((dedup (x :: Q)).2.length = Q.length → ∀ y ∈ Q, x = y) := by
  induction Q generalizing x with
  | nil => simp [dedup]
  | cons y Q ih =>
      obtain ⟨hle, hall⟩ := ih y
      rw [dedup_removed]
      split
      · next hxy =>
          refine ⟨by simpa using hle, fun hlength z hz => ?_⟩
          rcases List.mem_cons.mp hz with rfl | hz
          · exact hxy
          · exact hxy.trans (hall (by simpa using hlength) z hz)
      · rw [List.length_cons]
        exact ⟨by omega, fun hlength => by omega⟩

theorem turn_cons (x : Int) (Q : List Int) :
    turn (x :: Q) = (x :: Q).getLast (List.cons_ne_nil x Q) :: (dedup (x :: Q)).2 := by
  rw [turn, List.getLast?_eq_some_getLast (List.cons_ne_nil x Q)]
  rfl

theorem settles_iff (xs : List Int) : Settles xs ↔ ¬ Copies xs ∧ Settles (turn xs) := by
  constructor
  · exact fun hs => ⟨hs 0, fun k => hs (k + 1)⟩
  · rintro ⟨hfirst, hrest⟩ k
    cases k with
    | zero => exact hfirst
    | succ k => exact hrest k

theorem settles_singleton (x : Int) : Settles [x] := by
  intro k
  have hfix : turn^[k] [x] = [x] := Function.iterate_fixed rfl k
  rw [hfix]
  exact fun hcopies => absurd hcopies.1 (by simp)

/-- **The loop ends exactly when going around settles.** -/
theorem exists_spin_iff (P : List Int) (x : Int) (Q : List Int) :
    (∃ fuel, (spin below fuel P x Q).isSome) ↔ Settles (x :: Q) := by
  induction hlength : Q.length using Nat.strong_induction_on generalizing P x Q with
  | _ n ih =>
      cases Q with
      | nil => exact iff_of_true ⟨1, rfl⟩ (settles_singleton x)
      | cons y Q =>
          rw [settles_iff]
          obtain ⟨hle, hall⟩ := length_dedup_lt x (y :: Q)
          rcases hle.lt_or_eq with hlt | heq
          · -- something stays behind the cursor, and the rest goes on as before
            obtain ⟨P', hturn⟩ := exists_spin_turn P x (y :: Q) []
            simp only [List.append_nil, List.nil_append] at hturn
            have hrest := ih _ (hlength ▸ hlt) P' ((x :: y :: Q).getLast (List.cons_ne_nil _ _))
              _ rfl
            rw [← turn_cons] at hrest
            rw [← hrest]
            constructor
            · rintro ⟨fuel, hsome⟩
              obtain ⟨zs, hzs⟩ := Option.isSome_iff_exists.mp hsome
              refine ⟨fun hcopies => ?_, fuel, ?_⟩
              · rw [spin_copies fuel P (List.cons_ne_nil y Q) fun z hz =>
                  hcopies.2 x List.mem_cons_self z (List.mem_cons_of_mem _ hz)] at hzs
                nomatch hzs
              · rw [← hturn, spin_mono hzs]
                rfl
            · rintro ⟨_, fuel, hsome⟩
              exact ⟨_, (congrArg Option.isSome (hturn fuel)).trans hsome⟩
          · -- every value is a copy of the cursor's
            have hsame := hall heq
            refine iff_of_false ?_ fun hs => hs.1 ⟨by simp, ?_⟩
            · rintro ⟨fuel, hsome⟩
              rw [spin_copies fuel P (List.cons_ne_nil y Q) hsame] at hsome
              nomatch hsome
            · have hx : ∀ z ∈ x :: y :: Q, x = z := by
                intro z hz
                rcases List.mem_cons.mp hz with rfl | hz
                · rfl
                · exact hsame z hz
              exact fun z hz w hw => (hx z hz).symm.trans (hx w hw)

end Ends

/-! ### In memory -/

section InMemory

variable {α : Type} [DecidableEq α] {h : Heap α} {list : CList α} {P Q : List α} {x : α}
  {less : Ptr α → Ptr α → Option Bool} {lt : α → α → Bool}

/-- A round moves the item behind the cursor to the end of its own list. -/
theorem run_moveToBack {y : α} (hl : IsList h list (P ++ x :: y :: Q)) :
    ∃ h₁ h₂, (listRemove (some y)).run h = some (first Q (some list.tail), h₁) ∧
      (listPushBack list (some y)).run h₁ = some ((), h₂) ∧
      IsList h₂ list (P ++ x :: (Q ++ [y])) ∧ h.SameOff (list.row (P ++ x :: y :: Q)) h₂ := by
  have hl' : IsList h list ((P ++ [x]) ++ y :: Q) := by simpa using hl
  obtain ⟨h₁, hremove, hlist₁, hsame, hnot⟩ := run_listRemove_at hl'
  have hy : (h₁ y).isSome = true := by
    rw [hsame y hnot]
    exact hl.seg.isSome (by simp [CList.mem_row])
  obtain ⟨h₂, hpush, hlist₂, hsame₂⟩ := run_listPushBack hlist₁ hy hnot
  refine ⟨h₁, h₂, hremove, hpush, by simpa using hlist₂, (hsame.mono ?_).trans (hsame₂.mono ?_)⟩
  all_goals
    intro z hz
    simp only [CList.mem_row, List.mem_append, List.mem_cons, List.not_mem_nil, or_false] at hz ⊢
    tauto

/-- The loop of `list_unique` that appends to its own list does what `spin` does. -/
theorem run_listUniqueLoop_self (fuel : Nat) (hl : IsList h list (P ++ x :: Q))
    (hless : Decides less lt (x :: Q)) :
    (listUniqueLoop less list (some list) fuel (some x)).run h = none ∧
        spin lt fuel P x Q = none ∨
      ∃ h' zs, (listUniqueLoop less list (some list) fuel (some x)).run h = some ((), h') ∧
        spin lt fuel P x Q = some zs ∧ IsList h' list zs ∧
        h.SameOff (list.row (P ++ x :: Q)) h' := by
  induction fuel generalizing h P x Q with
  | zero => exact .inl ⟨rfl, rfl⟩
  | succ fuel ih =>
      rw [listUniqueLoop, run_bind_of (run_listNext_at hl)]
      cases Q with
      | nil => exact .inr ⟨h, P ++ [x], by simp [listEnd], rfl, hl, .refl _ h⟩
      | cons y Q =>
          have hne : some y ≠ listEnd list := by
            simpa [listEnd] using hl.ne_tail (x := y) (by simp)
          have hxy : less (some x) (some y) = some (lt x y) := hless x (by simp) y (by simp)
          have hyx : less (some y) (some x) = some (lt y x) := hless y (by simp) x (by simp)
          rw [first_cons, if_neg hne]
          simp only [spin]
          split
          · next hequal =>
              obtain ⟨h₁, h₂, hremove, hpush, hlist, hmoved⟩ := run_moveToBack hl
              have hequal' : lt x y = false ∧ lt y x = false := by simpa using hequal
              have hrest := ih hlist (hless.mono fun z hz => by
                simpa [or_comm, or_left_comm] using hz)
              have hrow (z : α) (hz : z ∈ list.row (P ++ x :: (Q ++ [y]))) :
                  z ∈ list.row (P ++ x :: y :: Q) := by
                simpa [CList.mem_row, or_comm, or_left_comm] using hz
              rcases hrest with ⟨hrun, hnone⟩ | ⟨h', zs, hrun, hsome, hlist', hsame⟩
              · exact .inl ⟨by simpa [hxy, hyx, hequal', hremove, hpush] using hrun, hnone⟩
              · exact .inr ⟨h', zs, by simpa [hxy, hyx, hequal', hremove, hpush] using hrun, hsome,
                  hlist', hmoved.trans (hsame.mono hrow)⟩
          · next hdiffer =>
              have hrest := ih (show IsList h list ((P ++ [x]) ++ y :: Q) by simpa using hl)
                (hless.mono fun z hz => List.mem_cons_of_mem _ hz)
              have hdiffer' : ¬ (lt x y = false ∧ lt y x = false) := by simpa using hdiffer
              simpa [hxy, hyx, hdiffer'] using hrest

theorem run_bind_mono {β γ σ : Type} {m : StateT σ Option β} {f g : β → StateT σ Option γ} {s : σ}
    {r : γ × σ} (hrun : (m >>= f).run s = some r)
    (hfg : ∀ b t, (f b).run t = some r → (g b).run t = some r) : (m >>= g).run s = some r := by
  obtain ⟨b, t, hm, hf⟩ := exists_of_run_bind hrun
  rw [run_bind_of hm]
  exact hfg b t hf

/-- More rounds change nothing once the loop has ended, whatever the second list is. -/
theorem run_listUniqueLoop_mono {duplicates : Option (CList α)} {fuel : Nat} {e : Ptr α}
    {h' : Heap α}
    (hrun : (listUniqueLoop less list duplicates fuel e).run h = some ((), h')) (k : Nat) :
    (listUniqueLoop less list duplicates (fuel + k) e).run h = some ((), h') := by
  induction fuel generalizing h e with
  | zero => cases hrun
  | succ fuel ih =>
      rw [Nat.add_right_comm]
      rw [listUniqueLoop] at hrun ⊢
      refine run_bind_mono hrun fun next h₁ hrun => ?_
      split at hrun
      · next hend => rwa [if_pos hend]
      · next hend =>
          rw [if_neg hend]
          refine run_bind_mono hrun fun before h₂ hrun => ?_
          refine run_bind_mono hrun fun after h₃ hrun => ?_
          split at hrun
          · next hequal =>
              rw [if_pos hequal]
              refine run_bind_mono hrun fun _ h₄ hrun => ?_
              cases duplicates with
              | none => exact ih hrun
              | some list' => exact run_bind_mono hrun fun _ h₅ hrun => ih hrun
          · next hdiffer =>
              rw [if_neg hdiffer]
              exact ih hrun

theorem run_listUnique_mono {duplicates : Option (CList α)} {fuel : Nat} {h' : Heap α}
    (hrun : (listUnique less fuel list duplicates).run h = some ((), h')) (k : Nat) :
    (listUnique less (fuel + k) list duplicates).run h = some ((), h') := by
  rw [listUnique] at hrun ⊢
  refine run_bind_mono hrun fun empty h₁ hrun => ?_
  split at hrun
  · next hempty => rwa [if_pos hempty]
  · next hitems =>
      rw [if_neg hitems]
      exact run_bind_mono hrun fun e h₂ hrun => run_listUniqueLoop_mono hrun k

end InMemory

/-! ### The command -/

section Command

variable {s : Interp} {r : Reference} {items : Fin MAX_DS → List Nat} {i : Fin MAX_DS}

/-- What the command leaves: well-formed lists with all the items of before. -/
def UniqueOutcome (s : Interp) (items : Fin MAX_DS → List Nat) (i : Fin MAX_DS) :
    Option (Fin MAX_DS) → Prop
  | none => ∃ xs : List Nat, IsList s.links (listAt i) (xs.map .item) ∧ xs.Perm (items i)
  | some j =>
      if i = j then ∃ xs : List Nat, IsList s.links (listAt i) (xs.map .item) ∧ xs.Perm (items i)
      else ∃ xs ys : List Nat, IsList s.links (listAt i) (xs.map .item) ∧
        IsList s.links (listAt j) (ys.map .item) ∧ (xs ++ ys).Perm (items i ++ items j)

/-- The call of the command, where the list takes its own duplicates. -/
theorem run_listUnique_self (hs : Represents s r items) (hi : (r.lists i).isSome) (fuel : Nat)
    (hitems : items i ≠ []) :
    (listUnique (listItemLess s.values) fuel (listAt i) (some (listAt i))).run s.links = none ∧
        (∃ x Q, r.values i = x :: Q ∧ spin below fuel [] x Q = none) ∨
      ∃ h', ∃ xs : List Nat,
        (listUnique (listItemLess s.values) fuel (listAt i) (some (listAt i))).run s.links =
          some ((), h') ∧
        IsList h' (listAt i) (xs.map .item) ∧ xs.Perm (items i) ∧
        s.links.SameOff (rowOf items i) h' ∧
        ∃ x Q, r.values i = x :: Q ∧ (spin below fuel [] x Q).isSome := by
  obtain ⟨n, ns, hns⟩ := List.exists_cons_of_ne_nil hitems
  have hl := hs.lists i hi
  rw [hns, List.map_cons] at hl
  have hless : Decides (listItemLess s.values) (itemLt s.values) (.item n :: ns.map Addr.item) :=
    decides_listItemLess (show ∀ m ∈ n :: ns, (s.values m).isSome from
      fun m hm => hs.isSome_values (hns ▸ hm))
  have hvalues : r.values i = s.val n :: ns.map s.val := by rw [hs.values_eq, hns, List.map_cons]
  -- the loop compares values only
  have hspin := @spin_map _ _ below (fun a => (entryValue s.values (some a)).getD 0) fuel []
    (.item n) (ns.map .item)
  rw [List.map_map] at hspin
  have hcall : (listUnique (listItemLess s.values) fuel (listAt i) (some (listAt i))).run s.links =
      (listUniqueLoop (listItemLess s.values) (listAt i) (some (listAt i)) fuel
        (some (.item n))).run s.links := by
    simp [listUnique, run_listEmpty hl, run_listBegin hl]
  rw [hcall]
  rcases run_listUniqueLoop_self fuel (show IsList s.links (listAt i) ([] ++ _) from hl) hless with
    ⟨hrun, hnone⟩ | ⟨h', zs, hrun, hsome, hlist, hsame⟩
  · exact .inl ⟨hrun, _, _, hvalues, hspin.trans (congrArg _ hnone)⟩
  · obtain ⟨xs, rfl, hperm⟩ :=
      exists_items (show zs.Perm ((n :: ns).map .item) from spin_perm hsome)
    have hrow : rowOf items i = (listAt i).row (.item n :: ns.map .item) := by
      rw [rowOf, hns, List.map_cons]
    refine .inr ⟨h', xs, hrun, hlist, hns ▸ hperm, hrow ▸ hsame, _, _, hvalues, ?_⟩
    exact (congrArg Option.isSome (hspin.trans (congrArg _ hsome))).trans rfl

/-- The command on a list and again on that list ends when its values settle. -/
theorem exists_run_listUnique_self_iff (hs : Represents s r items) (hi : (r.lists i).isSome) :
    (∃ fuel h', ∃ xs : List Nat,
        (listUnique (listItemLess s.values) fuel (listAt i) (some (listAt i))).run s.links =
          some ((), h') ∧ IsList h' (listAt i) (xs.map .item) ∧ xs.Perm (items i)) ↔
      Settles (r.values i) := by
  cases hns : items i with
  | nil =>
      have hl := hs.lists i hi
      have hvalues : r.values i = [] := by rw [hs.values_eq, hns]; rfl
      rw [hns] at hl
      refine iff_of_true ⟨0, s.links, [], run_listUnique_nil hl 0 _, hl, .refl _⟩ fun k => ?_
      rw [hvalues, Function.iterate_fixed rfl k]
      exact fun hcopies => absurd hcopies.1 (by simp)
  | cons n ns =>
      have hne : items i ≠ [] := hns ▸ List.cons_ne_nil n ns
      constructor
      · rintro ⟨fuel, h', xs, hrun, -, -⟩
        rcases run_listUnique_self hs hi fuel hne with
          ⟨hnone, -⟩ | ⟨_, _, -, -, -, -, x, Q, hxQ, hsome⟩
        · exact absurd (hrun.symm.trans hnone) (Option.some_ne_none _)
        · rw [hxQ]
          exact (exists_spin_iff [] x Q).mp ⟨fuel, hsome⟩
      · intro hsettles
        obtain ⟨x, Q, hxQ⟩ : ∃ x Q, r.values i = x :: Q := by
          rw [hs.values_eq, hns]
          exact ⟨_, _, rfl⟩
        obtain ⟨fuel, hsome⟩ := (exists_spin_iff [] x Q).mpr (hxQ ▸ hsettles)
        rcases run_listUnique_self hs hi fuel hne with
          ⟨-, y, R, hyR, hnone⟩ | ⟨h', xs, hrun, hlist, hperm, -⟩
        · obtain ⟨rfl, rfl⟩ := List.cons.inj (hxQ.symm.trans hyR)
          rw [hnone] at hsome
          nomatch hsome
        · exact ⟨fuel, h', xs, hrun, hlist, hns ▸ hperm⟩

/-- The command without a second list keeps all items when there are no equal neighbours. -/
theorem exists_run_listUnique_alone_iff (hs : Represents s r items) (hi : (r.lists i).isSome) :
    (∃ fuel h', ∃ xs : List Nat,
        (listUnique (listItemLess s.values) fuel (listAt i) none).run s.links = some ((), h') ∧
          IsList h' (listAt i) (xs.map .item) ∧ xs.Perm (items i)) ↔
      (r.values i).IsChain (· ≠ ·) := by
  obtain ⟨h₁, kept, removed, hrun₁, hdedup, hperm, hlist₁, -⟩ :=
    run_unique hs (hs.lists i hi) (Nat.lt_add_one _) none (Option.some_ne_none i).symm (by simp)
  rw [Option.map_none] at hrun₁
  rw [← dedup_eq_nil_iff, hs.values_eq, hdedup, List.map_eq_nil_iff]
  constructor
  · rintro ⟨fuel, h', xs, hrun, hlist, hxs⟩
    -- the list is the same with any number of rounds that is enough
    have hmore := run_listUnique_mono hrun ((items i).length + 1)
    rw [Nat.add_comm, run_listUnique_mono hrun₁ fuel] at hmore
    obtain rfl : h₁ = h' := congrArg Prod.snd (Option.some.inj hmore)
    have hsame := congrArg List.length (hlist₁.unique hlist)
    have hlength := (hperm.trans hxs.symm).length_eq
    rw [List.length_map, List.length_map] at hsame
    rw [List.length_append] at hlength
    exact List.eq_nil_of_length_eq_zero (by omega)
  · rintro rfl
    exact ⟨_, h₁, kept, hrun₁, hlist₁, by simpa using hperm⟩

/-- The command is its call of `list_unique`. -/
theorem run_doUnique (hs : Represents s r items) (fuel : Nat) (memory : Malloc) (i : Fin MAX_DS)
    (duplicates : Option String) :
    (doListCommand fuel memory i (.unique duplicates)).run s =
      ((listUnique (listItemLess s.values) fuel (listAt i)
        ((duplicates.bind r.find).map listAt)).run s.links).map
          fun result => (result.1, { s with links := result.2 }) := by
  have hstart : (get : Cmd Interp).run s = some (s, s) := rfl
  have hfind : duplicates.bind (findList s.lists) = duplicates.bind r.find :=
    congrArg duplicates.bind (funext (findList_eq hs))
  simp only [doListCommand]
  rw [run_bind_of hstart, hfind]
  rfl

theorem run_uniqueCommand (hs : Represents s r items) {name : String}
    (hname : r.find name = some i) (fuel : Nat) (memory : Malloc) (duplicates : Option String) :
    (doCommand fuel memory (.list name (.unique duplicates))).run s =
      ((listUnique (listItemLess s.values) fuel (listAt i)
        ((duplicates.bind r.find).map listAt)).run s.links).map
          fun result => (result.1, { s with links := result.2 }) := by
  have hstart : (get : Cmd Interp).run s = some (s, s) := rfl
  rw [doCommand, run_bind_of hstart, findList_eq hs, hname]
  exact run_doUnique hs fuel memory i duplicates

/-- The outcome in terms of the call. -/
theorem exists_uniqueCommand_iff (hs : Represents s r items) {name : String}
    (hname : r.find name = some i) (memory : Malloc) (duplicates : Option String) :
    (∃ fuel s', (doCommand fuel memory (.list name (.unique duplicates))).run s = some ((), s') ∧
        UniqueOutcome s' items i (duplicates.bind r.find)) ↔
      ∃ fuel h', (listUnique (listItemLess s.values) fuel (listAt i)
          ((duplicates.bind r.find).map listAt)).run s.links = some ((), h') ∧
        UniqueOutcome { s with links := h' } items i (duplicates.bind r.find) := by
  simp only [run_uniqueCommand hs hname]
  refine exists_congr fun fuel => ?_
  constructor
  · rintro ⟨s', hrun, ho⟩
    obtain ⟨⟨_, h'⟩, hrun', heq⟩ := Option.map_eq_some_iff.mp hrun
    obtain rfl : _ = s' := congrArg Prod.snd heq
    exact ⟨h', hrun', ho⟩
  · rintro ⟨h', hrun, ho⟩
    exact ⟨_, Option.map_eq_some_iff.mpr ⟨_, hrun, rfl⟩, ho⟩

/-- **What `list_unique` needs.** It ends, with all the items in well-formed lists, exactly when
the second list is another one, or it is the first one and its values settle, or there is no
second list and no value equals the one in front of it. -/
theorem uniqueCommand_iff (hs : Represents s r items) {name : String}
    (hname : r.find name = some i) (memory : Malloc) (duplicates : Option String) :
    (∃ fuel s', (doCommand fuel memory (.list name (.unique duplicates))).run s = some ((), s') ∧
        UniqueOutcome s' items i (duplicates.bind r.find)) ↔
      (duplicates.bind r.find = some i → Settles (r.values i)) ∧
        (duplicates.bind r.find = none → (r.values i).IsChain (· ≠ ·)) := by
  have hi := Reference.isSome_of_find hname
  rw [exists_uniqueCommand_iff hs hname]
  have hused : ∀ j ∈ duplicates.bind r.find, (r.lists j).isSome := by
    intro j hj
    obtain ⟨other, _, hother⟩ := Option.bind_eq_some_iff.mp hj
    exact Reference.isSome_of_find hother
  generalize duplicates.bind r.find = slot at hused
  cases slot with
  | none =>
      rw [forall_prop_of_true rfl, ← exists_run_listUnique_alone_iff hs hi]
      simp [UniqueOutcome]
  | some j =>
      rcases eq_or_ne i j with rfl | hij
      · rw [forall_prop_of_true rfl, ← exists_run_listUnique_self_iff hs hi]
        simp [UniqueOutcome]
      · have hne : some j ≠ some i := fun heq => hij (Option.some.inj heq).symm
        obtain ⟨h', kept, removed, hrun, -, hperm, hlist, hlists, -⟩ :=
          run_unique hs (hs.lists i hi) (Nat.lt_add_one _) (some j) hne hused
        refine iff_of_true ⟨_, h', hrun, ?_⟩ ⟨fun heq => absurd heq hne, by simp⟩
        rw [UniqueOutcome, if_neg hij]
        refine ⟨kept, items j ++ removed, hlist, hlists j rfl, List.perm_iff_count.mpr fun m => ?_⟩
        have hcount := List.perm_iff_count.mp hperm m
        simp only [List.count_append] at hcount ⊢
        omega

/-- A list of two equal values. -/
def twinRun : List (List String × Malloc) :=
  [(["create", "list", "L"], none), (["list_push_back", "L", "1"], some (0, ⟨none, none⟩)),
    (["list_push_back", "L", "1"], some (0, ⟨none, none⟩))]

/-- The same with another value behind them. -/
def twinAndOtherRun : List (List String × Malloc) :=
  twinRun ++ [(["list_push_back", "L", "2"], some (0, ⟨none, none⟩))]

theorem uniqueCommand_iff_twinAndOtherRun : ∃ s items,
    (interpret 10 twinAndOtherRun).run .initial = some ((), s) ∧
    ∃ fuel s', (doCommand fuel none (.list "L" (.unique (some "L")))).run s = some ((), s') ∧
      UniqueOutcome s' items ⟨0, by decide⟩
        ((some "L").bind (Reference.initial.interpret twinAndOtherRun).find) := by
  obtain ⟨s, items, hrun, hs⟩ := run_interpret represents_initial twinAndOtherRun
    (by decide +kernel) (show _ ≤ 10 by decide +kernel)
  refine ⟨s, items, hrun,
    (uniqueCommand_iff hs (by decide +kernel) none (some "L")).mpr ⟨fun _ => ?_, ?_⟩⟩
  · have hvalues :
        (Reference.initial.interpret twinAndOtherRun).values ⟨0, by decide⟩ = [1, 1, 2] := by
      decide +kernel
    rw [hvalues]
    exact (settles_iff _).mpr ⟨by decide, (settles_iff _).mpr ⟨by decide, settles_singleton 1⟩⟩
  · exact fun hnone => absurd hnone (by decide +kernel)

/-- Equal values only: the command on the list and again on the list never ends. -/
theorem uniqueCommand_never_ends : ∃ s items, (interpret 10 twinRun).run .initial = some ((), s) ∧
    Represents s (Reference.initial.interpret twinRun) items ∧
    ∀ fuel, (doCommand fuel none (.list "L" (.unique (some "L")))).run s = none := by
  obtain ⟨s, items, hrun, hs⟩ := run_interpret represents_initial twinRun
    (by decide +kernel) (show _ ≤ 10 by decide +kernel)
  refine ⟨s, items, hrun, hs, fun fuel => ?_⟩
  have hname : (Reference.initial.interpret twinRun).find "L" = some ⟨0, by decide⟩ := by
    decide +kernel
  have hvalues : (Reference.initial.interpret twinRun).values ⟨0, by decide⟩ = [1, 1] := by
    decide +kernel
  have hitems : items ⟨0, by decide⟩ ≠ [] := by
    intro hempty
    rw [hs.values_eq, hempty] at hvalues
    nomatch hvalues
  rw [run_uniqueCommand hs hname, Option.bind_some, hname]
  rcases run_listUnique_self hs (Reference.isSome_of_find hname) fuel hitems with
    ⟨hnone, -⟩ | ⟨_, _, -, -, -, -, x, Q, hxQ, hsome⟩
  · exact congrArg _ hnone
  · obtain ⟨rfl, rfl⟩ := List.cons.inj (hvalues.symm.trans hxQ)
    rw [spin_copies fuel [] (by simp) (by simp)] at hsome
    nomatch hsome

end Command

end SystemProgramming.Testlib
