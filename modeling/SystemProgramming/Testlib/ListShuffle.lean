import Mathlib.Data.List.GetD
import Mathlib.Data.Set.Function
import SystemProgramming.Testlib.ListRefinement

/-!
`list_shuffle`. In round `i` the element in place `i` changes places with one
from there on; what stands in front of it is not touched again. So each round
fixes one place for good, and the draws can be read off the order they give:
every order of the elements comes from exactly one sequence of draws.
-/

namespace SystemProgramming.Testlib

open SystemProgramming.Library

variable {α : Type}

/-! ### The function -/

/-- The loop of `list_shuffle`; `rand i` is what `rand` returns in round `i`. -/
def listShuffleLoop [DecidableEq α] (list : CList α) (rand : Nat → Nat) (size : Nat) :
    Nat → Nat → Prog α Unit
  | 0, _ => failure
  | fuel + 1, i =>
      if i < size then do
        let j := i + rand i % (size - i)
        let elemI ← advance i (← listBegin list)
        let elemJ ← advance j (← listBegin list)
        listSwap 2 elemI elemJ
        listShuffleLoop list rand size fuel (i + 1)
      else pure ()

def listShuffle [DecidableEq α] (fuel : Nat) (list : CList α) (rand : Nat → Nat) :
    Prog α Unit := do
  let size ← listSize fuel list
  if size ≤ 1 then return
  listShuffleLoop list rand size fuel 0

/-! ### On plain lists -/

/-- A sequence of draws: in round `i` one of the places from `i` on. -/
@[ext]
structure Draws (n : Nat) where
  j : Fin n → Nat
  le (i : Fin n) : i ≤ j i
  lt (i : Fin n) : j i < n

/-- The draws `list_shuffle` makes. -/
def Draws.drawn (rand : Nat → Nat) (n : Nat) : Draws n where
  j i := i + rand i % (n - i)
  le i := Nat.le_add_right ..
  lt i := by
    have hmod := Nat.mod_lt (rand i) (Nat.sub_pos_of_lt i.isLt)
    omega

/-- What `list_shuffle` makes of the elements `zs` from place `i` on, when round `t` draws the
place `j t`. -/
def shuffled (j : Nat → Nat) (i : Nat) : List α → List α
  | [] => []
  | z :: zs =>
      let k := j i - i
      (z :: zs).getD k z :: shuffled j (i + 1) ((z :: zs).set k z).tail
  termination_by zs => zs.length
  decreasing_by simp

/-- The place drawn in round `t`. -/
def Draws.place {n : Nat} (d : Draws n) (t : Nat) : Nat := if ht : t < n then d.j ⟨t, ht⟩ else t

/-- The order that a sequence of draws gives. -/
def Draws.order {n : Nat} (d : Draws n) (xs : List α) : List α := shuffled d.place 0 xs

section Plain

variable {j j' : Nat → Nat} {i n : Nat} {z b : α} {zs M N : List α}

/-- An element behind the first, with what is in front of it and behind it. -/
theorem exists_split {k : Nat} (hk : k < zs.length) :
    ∃ M b N, zs = M ++ b :: N ∧ M.length = k := by
  refine ⟨zs.take k, zs[k], zs.drop (k + 1), ?_, List.length_take_of_le hk.le⟩
  rw [← List.drop_eq_getElem_cons hk, List.take_append_drop]

/-- A round keeps the elements. -/
theorem round_perm {k : Nat} (hk : k < (z :: zs).length) :
    ((z :: zs).getD k z :: ((z :: zs).set k z).tail).Perm (z :: zs) := by
  cases k with
  | zero => exact .refl _
  | succ k =>
      obtain ⟨M, b, N, rfl, rfl⟩ := exists_split (Nat.lt_of_succ_lt_succ hk)
      have hswap : (b :: (M ++ z :: N)).Perm (z :: (M ++ b :: N)) :=
        ((List.perm_middle.cons b).trans (.swap z b _)).trans (List.perm_middle.symm.cons z)
      simpa using hswap

/-- The draws of the rounds from `i` on stay below `n`. -/
def Within (j : Nat → Nat) (i n : Nat) : Prop := ∀ t, i ≤ t → t < n → t ≤ j t ∧ j t < n

theorem Within.next (hj : Within j i n) : Within j (i + 1) n :=
  fun t ht => hj t (Nat.le_of_succ_le ht)

theorem Within.lt (hj : Within j i n) (hn : i + (z :: zs).length = n) :
    j i - i < (z :: zs).length := by
  rw [List.length_cons] at hn ⊢
  obtain ⟨hle, hlt⟩ := hj i le_rfl (by omega)
  omega

theorem length_tail_set (hn : i + (z :: zs).length = n) (k : Nat) :
    i + 1 + ((z :: zs).set k z).tail.length = n := by
  rw [List.length_tail, List.length_set, ← hn, List.length_cons]
  omega

theorem shuffled_perm (hj : Within j i n) (hn : i + zs.length = n) :
    (shuffled j i zs).Perm zs := by
  induction i, zs using shuffled.induct j with
  | case1 i => rw [shuffled]
  | case2 i z zs k ih =>
      rw [shuffled]
      exact ((ih hj.next (length_tail_set hn k)).cons _).trans (round_perm (hj.lt hn))

/-- Only the draws of the rounds to come matter. -/
theorem shuffled_congr (hj : ∀ t, i ≤ t → t < i + zs.length → j t = j' t) :
    shuffled j i zs = shuffled j' i zs := by
  induction i, zs using shuffled.induct j with
  | case1 i => rw [shuffled, shuffled]
  | case2 i z zs k ih =>
      have hi : j i = j' i := hj i le_rfl (by simp)
      rw [length_tail_set rfl k] at ih
      rw [shuffled, shuffled, ← hi, ih fun t hit htn => hj t (Nat.le_of_succ_le hit) htn]

/-- The draws can be read off the order. -/
theorem shuffled_injective (hnodup : zs.Nodup) (hj : Within j i n) (hj' : Within j' i n)
    (hn : i + zs.length = n) (heq : shuffled j i zs = shuffled j' i zs) :
    ∀ t, i ≤ t → t < n → j t = j' t := by
  induction hlen : zs.length generalizing i zs with
  | zero => exact fun t hit htn => by omega
  | succ len ih =>
      obtain ⟨z, zs, rfl⟩ := List.exists_cons_of_length_eq_add_one hlen
      have hk := hj.lt hn
      have hk' := hj'.lt hn
      rw [shuffled, shuffled] at heq
      obtain ⟨hhead, htail⟩ := List.cons.inj heq
      -- the elements are distinct, so the one in front tells where it came from
      rw [List.getD_eq_getElem _ _ hk, List.getD_eq_getElem _ _ hk',
        hnodup.getElem_inj_iff] at hhead
      rw [← hhead] at htail
      have hrest := ih ((round_perm hk).nodup_iff.mpr hnodup).of_cons hj.next hj'.next
        (length_tail_set hn _) htail (by simpa using hlen)
      intro t hit htn
      rcases hit.eq_or_lt with rfl | hit
      · have hle := (hj i le_rfl htn).1
        have hle' := (hj' i le_rfl htn).1
        omega
      · exact hrest t hit htn

/-- Every order can be drawn. -/
theorem exists_shuffled {ys : List α} (hperm : ys.Perm zs) (i : Nat) :
    ∃ j, Within j i (i + zs.length) ∧ shuffled j i zs = ys := by
  induction ys generalizing i zs with
  | nil =>
      obtain rfl := List.nil_perm.mp hperm
      exact ⟨id, fun t hit htn => by simp at htn; omega, by rw [shuffled]⟩
  | cons y ys ih =>
      obtain ⟨k, hk, rfl⟩ := List.getElem_of_mem (hperm.mem_iff.mp List.mem_cons_self)
      obtain ⟨z, zs, rfl⟩ := List.exists_cons_of_ne_nil 
        (List.ne_nil_of_length_pos (Nat.zero_lt_of_lt hk))
      have hround := round_perm hk
      rw [List.getD_eq_getElem _ _ hk] at hround
      obtain ⟨j, hj, hys⟩ := ih (hperm.trans hround.symm).cons_inv (i + 1)
      rw [length_tail_set rfl k] at hj
      refine ⟨Function.update j i (i + k), fun t hit htn => ?_, ?_⟩
      · rcases hit.eq_or_lt with rfl | hit
        · rw [Function.update_self]
          omega
        · rw [Function.update_of_ne (by omega)]
          exact hj t hit htn
      · have hlater :
            shuffled (Function.update j i (i + k)) (i + 1) ((z :: zs).set k z).tail = ys := by
          rw [← hys]
          exact shuffled_congr fun t hit _ => Function.update_of_ne (by omega) ..
        rw [shuffled, Function.update_self, Nat.add_sub_cancel_left, hlater,
          List.getD_eq_getElem _ _ hk]

theorem Draws.within (d : Draws n) : Within d.place 0 n := fun t _ ht => by
  rw [Draws.place, dif_pos ht]
  exact ⟨d.le ⟨t, ht⟩, d.lt ⟨t, ht⟩⟩

theorem Draws.order_perm (d : Draws n) (hn : zs.length = n) : (d.order zs).Perm zs :=
  shuffled_perm d.within ((Nat.zero_add _).trans hn)

/-- Each order is that of one sequence of draws. -/
theorem bijOn_order (hnodup : zs.Nodup) (hn : zs.length = n) :
    Set.BijOn (fun d : Draws n => d.order zs) Set.univ {ys | ys.Perm zs} := by
  refine ⟨fun d _ => d.order_perm hn, fun d _ d' _ heq => ?_, fun ys hys => ?_⟩
  · have hplace := shuffled_injective hnodup d.within d'.within ((Nat.zero_add _).trans hn) heq
    ext i
    simpa [Draws.place] using hplace i (Nat.zero_le _) i.isLt
  · obtain ⟨j, hj, rfl⟩ := exists_shuffled (show ys.Perm zs from hys) 0
    rw [Nat.zero_add, hn] at hj
    refine ⟨⟨fun i => j i, fun i => (hj i (Nat.zero_le _) i.isLt).1,
      fun i => (hj i (Nat.zero_le _) i.isLt).2⟩, Set.mem_univ _, ?_⟩
    exact shuffled_congr fun t _ ht => dif_pos (by omega)

/-- `rand` may come out so that a given sequence is drawn. -/
theorem exists_drawn (d : Draws n) : ∃ rand, Draws.drawn rand n = d := by
  refine ⟨fun t => d.place t - t, ?_⟩
  ext i
  have hle := d.le i
  have hlt := d.lt i
  have hplace : d.place i = d.j i := dif_pos i.isLt
  have hmod : (d.j i - i) % (n - i) = d.j i - i := Nat.mod_eq_of_lt (by omega)
  change i + (d.place i - i) % (n - i) = d.j i
  rw [hplace, hmod]
  omega

end Plain

/-! ### On lists in memory -/

section Memory

variable [DecidableEq α] {h : Heap α} {list : CList α} {xs P zs : List α} {z : α} {fuel i n : Nat}
  {rand : Nat → Nat}

omit [DecidableEq α] in
/-- The walk to an element. -/
theorem run_walk (hl : IsList h list xs) {m : Nat} (hm : m < xs.length) :
    (advance m (first xs (some list.tail))).run h = some (xs[m]?, h) := by
  rw [run_advance (show IsList h list ([] ++ xs) from hl) hm.le, first_drop _ _ _ hm]

/-- The exchange at the end of a round. -/
theorem run_exchange (hl : IsList h list (P ++ z :: zs)) {k : Nat} (hk : k < (z :: zs).length) :
    ∃ h', (listSwap 2 (some z) (z :: zs)[k]?).run h = some ((), h') ∧
      IsList h' list (P ++ (z :: zs).getD k z :: ((z :: zs).set k z).tail) ∧
      h.SameOff (list.row (P ++ z :: zs)) h' := by
  cases k with
  | zero => exact ⟨h, run_listSwap_self hl 1, hl, .refl _ h⟩
  | succ k =>
      obtain ⟨M, b, N, rfl, rfl⟩ := exists_split (Nat.lt_of_succ_lt_succ hk)
      obtain ⟨h', hrun, _, hlist, hsame⟩ := run_listSwap hl 0
      exact ⟨h', by simpa using hrun, by simpa using hlist, hsame⟩

theorem run_listShuffleLoop (hl : IsList h list (P ++ zs)) (hP : P.length = i)
    (hn : i + zs.length = n) (hfuel : zs.length < fuel) :
    ∃ h', (listShuffleLoop list rand n fuel i).run h = some ((), h') ∧
      IsList h' list (P ++ shuffled (fun t => t + rand t % (n - t)) i zs) ∧
      h.SameOff (list.row (P ++ zs)) h' := by
  induction fuel generalizing h P zs i with
  | zero => exact absurd hfuel (Nat.not_lt_zero _)
  | succ fuel ih =>
      rw [listShuffleLoop]
      cases zs with
      | nil =>
          rw [if_neg (by simp at hn; omega), shuffled]
          exact ⟨h, rfl, hl, .refl _ h⟩
      | cons z zs =>
          rw [List.length_cons] at hn hfuel
          have hk : rand i % (n - i) < (z :: zs).length := by
            rw [List.length_cons, ← hn, Nat.add_sub_cancel_left]
            exact Nat.mod_lt _ (Nat.succ_pos _)
          obtain ⟨h₁, hswap, hl₁, hsame₁⟩ := run_exchange hl hk
          have hbegin := run_listBegin hl
          have hwalkI := run_walk hl (show P.length < _ by simp)
          have hwalkJ := run_walk hl (show P.length + rand i % (n - i) < _ by
            rw [List.length_append]
            omega)
          rw [List.getElem?_append_right le_rfl, Nat.sub_self, List.getElem?_cons_zero, hP]
            at hwalkI
          rw [List.getElem?_append_right (Nat.le_add_right ..), Nat.add_sub_cancel_left, hP]
            at hwalkJ
          -- position `i` is finished, and the first of the rest stands where the drawn one stood
          have hmoved : i + 1 + ((z :: zs).set (rand i % (n - i)) z).tail.length = _ :=
            length_tail_set rfl _
          obtain ⟨h', hrun, hlist, hsame⟩ := ih
            (show IsList h₁ list ((P ++ [(z :: zs).getD (rand i % (n - i)) z]) ++
              ((z :: zs).set (rand i % (n - i)) z).tail) by simpa using hl₁)
            (show _ = i + 1 by simp [hP]) (by simp at hmoved ⊢; omega)
            (by simp at hmoved ⊢; omega)
          refine ⟨h', ?_, ?_, hsame₁.trans (hsame.mono fun x hx => ?_)⟩
          · rw [if_pos (show i < n by omega), run_bind_of hbegin, run_bind_of hwalkI,
              run_bind_of hbegin, run_bind_of hwalkJ, run_bind_of hswap]
            exact hrun
          · rw [shuffled, Nat.add_sub_cancel_left]
            simpa using hlist
          · refine (row_perm ?_ list).mem_iff.mp hx
            rw [List.append_assoc, List.singleton_append]
            exact (round_perm hk).append_left P

theorem run_listShuffle (hl : IsList h list xs) (hfuel : xs.length < fuel) (rand : Nat → Nat) :
    ∃ h', (listShuffle fuel list rand).run h = some ((), h') ∧
      IsList h' list ((Draws.drawn rand xs.length).order xs) ∧ h.SameOff (list.row xs) h' := by
  have horder : (Draws.drawn rand xs.length).order xs =
      shuffled (fun t => t + rand t % (xs.length - t)) 0 xs :=
    shuffled_congr fun t _ ht => dif_pos (by simpa using ht)
  rw [listShuffle, run_bind_of (run_listSize hl hfuel), horder]
  by_cases hshort : xs.length ≤ 1
  · -- nothing is drawn, and there is nothing to choose from
    have hself : shuffled (fun t => t + rand t % (xs.length - t)) 0 xs = xs := by
      rw [← horder]
      have hperm := (Draws.drawn rand xs.length).order_perm rfl
      match xs, hshort, hperm with
      | [], _, hperm => exact List.perm_nil.mp hperm
      | [x], _, hperm => exact List.perm_singleton.mp hperm
    refine ⟨h, by simp [hshort], ?_, .refl _ h⟩
    rw [hself]
    exact hl
  · obtain ⟨h', hrun, hlist, hsame⟩ := run_listShuffleLoop
      (show IsList h list ([] ++ xs) from hl) rfl (Nat.zero_add _) hfuel
    exact ⟨h', by simpa [hshort] using hrun, hlist, hsame⟩

/-- `list_shuffle` puts the elements in the order of its draws; it can make every sequence of
draws, and each order of the elements is that of exactly one. -/
theorem listShuffle_bijective (hl : IsList h list xs) (hfuel : xs.length < fuel) :
    (∀ rand, ∃ h', (listShuffle fuel list rand).run h = some ((), h') ∧
      IsList h' list ((Draws.drawn rand xs.length).order xs) ∧ h.SameOff (list.row xs) h') ∧
    (∀ d : Draws xs.length, ∃ rand, Draws.drawn rand xs.length = d) ∧
    Set.BijOn (fun d : Draws xs.length => d.order xs) Set.univ {ys | ys.Perm xs} := by
  exact ⟨run_listShuffle hl hfuel, exists_drawn, bijOn_order hl.nodup_elems rfl⟩

theorem listShuffle_bijective_threeNodes :
    (∀ rand, ∃ h', (listShuffle 4 ⟨0, 1⟩ rand).run (memoryOf [(⟨0, 1⟩, [2, 3, 4])]) =
        some ((), h') ∧
      IsList h' ⟨0, 1⟩ ((Draws.drawn rand 3).order [2, 3, 4]) ∧
      (memoryOf [(⟨0, 1⟩, [2, 3, 4])]).SameOff (CList.row ⟨0, 1⟩ [2, 3, 4]) h') ∧
    (∀ d : Draws 3, ∃ rand, Draws.drawn rand 3 = d) ∧
    Set.BijOn (fun d : Draws 3 => d.order [2, 3, 4]) Set.univ {ys | ys.Perm [2, 3, 4]} :=
  listShuffle_bijective (isList_memoryOf (by decide) _ (List.mem_singleton_self _))
    (show 3 < 4 by decide)

end Memory

end SystemProgramming.Testlib
