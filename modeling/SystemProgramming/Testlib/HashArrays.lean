import SystemProgramming.Testlib.HashSpec

/-!
The functions of `hash.c` that go through a whole array of buckets: `rehash`,
which moves the elements one by one to another array, `hash_clear` and
`hash_init`.
-/

namespace SystemProgramming.Testlib

open SystemProgramming.Library

variable {ε : Type} {h : Hash ε} {links : Heap (HashAddr ε)} {I : Nat × Nat → Prop}
  {rows : Nat × Nat → List ε} {a b i n : Nat} {S : List ε} {e : ε} {L : ε → Prop}
  {fuel : Nat}

/-! ### The number of buckets -/

theorem isPowerOf2_iff {x : Nat} (hx : x ≠ 0) : isPowerOf2 x = true ↔ x = 2 ^ x.log2 := by
  rw [← and_pred_eq_zero_iff hx, isPowerOf2, Bool.and_eq_true, decide_eq_true_iff,
    decide_eq_true_iff]
  exact and_iff_right hx

/-- Only the highest bit is left. -/
theorem powerOf2Loop_eq {x : Nat} (hx : x ≠ 0) (hfuel : x ≤ fuel) :
    powerOf2Loop fuel x = some (2 ^ x.log2) := by
  induction fuel generalizing x with
  | zero => omega
  | succ fuel ih =>
      rw [powerOf2Loop]
      by_cases hpow : x = 2 ^ x.log2
      · rw [if_pos ((isPowerOf2_iff hx).mpr hpow), ← hpow]
      · rw [if_neg fun htrue => hpow ((isPowerOf2_iff hx).mp htrue)]
        have hge : 2 ^ x.log2 ≤ turnOffLeast1bit x := two_pow_log2_le_and hx hpow
        have hle : turnOffLeast1bit x ≤ x - 1 := Nat.and_le_right
        have hpos := Nat.two_pow_pos x.log2
        rw [ih (by omega) (by omega), log2_eq_of_le hge (by omega)]

/-- The number of buckets `rehash` aims at: the largest power of two up to half the number
of elements, or four. -/
def idealBucketCnt (elemCnt : Nat) : Nat := 2 ^ (max 4 (elemCnt / 2)).log2

theorem idealBucketCnt_power (elemCnt : Nat) : ∃ k, 2 ≤ k ∧ idealBucketCnt elemCnt = 2 ^ k :=
  ⟨_, (Nat.le_log2 (by omega)).mpr (Nat.le_max_left 4 _), rfl⟩

theorem idealBucketCnt_le (elemCnt : Nat) : idealBucketCnt elemCnt ≤ max 4 (elemCnt / 2) :=
  Nat.log2_self_le (by omega)

theorem newBucketCnt_eq {elemCnt : Nat} (hfuel : elemCnt + 4 ≤ fuel) :
    newBucketCnt fuel elemCnt = some (idealBucketCnt elemCnt) := by
  have hmax : (if elemCnt / 2 < 4 then 4 else elemCnt / 2) = max 4 (elemCnt / 2) := by
    split <;> omega
  rw [newBucketCnt, hmax]
  exact powerOf2Loop_eq (by omega) (by omega)

/-! ### The memory of an array -/

/-- The new array is another one, and the old buckets are as they were. -/
theorem Chains.run_mallocBuckets (hc : Chains L h.links I rows)
    (hI : ∀ p, I p → h.buckets = some p.1) (asked : Nat)
    (garbage : HashAddr ε → Link (HashAddr ε)) (cnt : Nat) :
    ∃ b links', (mallocBuckets (some (asked, garbage)) cnt).run h =
        some (some b, { h with links := links' }) ∧ h.buckets ≠ some b ∧ Chains L links' I rows ∧
      ∀ i < cnt, (links' (.head b i)).isSome = true ∧ (links' (.tail b i)).isSome = true := by
  refine ⟨if h.buckets = some asked then asked + 1 else asked, _, rfl, ?_, ⟨?_, hc.elems⟩, ?_⟩
  · split
    next heq =>
      rw [heq]
      simp
    next hne => exact hne
  · refine hc.family.agree fun p hp x hx => ?_
    have hold := hI p hp
    have hother : p.1 ≠ if h.buckets = some asked then asked + 1 else asked := by
      rw [hold]
      split
      next heq =>
        have := Option.some.inj heq
        omega
      next hne => exact fun heq => hne (congrArg some heq)
    rcases CList.mem_row.mp hx with rfl | hx | rfl
    · exact if_neg fun hmem => hother hmem.1
    · obtain ⟨e, _, rfl⟩ := List.mem_map.mp hx
      rfl
    · exact if_neg fun hmem => hother hmem.1
  · intro i hi
    simp [hi]

/-- The buckets of the other arrays stay. -/
theorem Chains.run_freeBuckets (hc : Chains L h.links I rows) (hI : ∀ p, I p → p.1 ≠ a)
    (halloc : (h.links (.head a 0)).isSome = true) :
    ∃ links', (freeBuckets a).run h = some ((), { h with links := links' }) ∧
      Chains L links' I rows := by
  refine ⟨_, if_pos halloc, hc.family.agree fun p hp x hx => ?_, hc.elems⟩
  rcases CList.mem_row.mp hx with rfl | hx | rfl
  · exact if_neg (hI p hp)
  · obtain ⟨e, _, rfl⟩ := List.mem_map.mp hx
    rfl
  · exact if_neg (hI p hp)

/-! ### Moving the elements -/

section Moving

variable (L : ε → Prop) (hash : ε → UInt32)

/-- The table in the middle of `rehash`: the array `b` is installed, and elements are left
in the `n` buckets of `a`. -/
structure Moving (h : Hash ε) (a n b : Nat) (rows : Nat × Nat → List ε)
    (S : List ε) : Prop where
  buckets : h.buckets = some b
  other : b ≠ a
  power : ∃ k, 2 ≤ k ∧ h.bucketCnt = 2 ^ k
  chains : Chains L h.links (fun p => p.1 = a ∧ p.2 < n ∨ p.1 = b ∧ p.2 < h.bucketCnt) rows
  perm : (pool (fun i => rows (a, i)) n ++ pool (fun i => rows (b, i)) h.bucketCnt).Perm S
  placed : Placed hash h.bucketCnt b rows
  count : h.elemCnt = S.length

variable {L hash}

theorem Moving.length_le (hm : Moving L hash h a n b rows S) (hi : i < n) :
    (rows (a, i)).length ≤ S.length := by
  have hremove := (pool_update (fun i => rows (a, i)) hi []).length_eq
  have htotal := hm.perm.length_eq
  simp only [List.nil_append, List.length_append] at hremove htotal
  omega

variable [DecidableEq ε]

/-- The first element of an old bucket goes to its new one. -/
theorem Moving.move {xs : List ε} (hm : Moving L hash h a n b rows S) (hi : i < n)
    (hxs : rows (a, i) = e :: xs) :
    ∃ links₁ links' rows', (onBuckets (listRemove (some (.elem e)))).run h =
        some (first (xs.map .elem) (some (bucketAt a i).tail), { h with links := links₁ }) ∧
      (onBuckets (listPushFront (bucketAt b (bucketIdx hash h.bucketCnt e))
        (some (.elem e)))).run { h with links := links₁ } = some ((), { h with links := links' }) ∧
      Moving L hash { h with links := links' } a n b rows' S ∧ rows' (a, i) = xs ∧
      ∀ j, j ≠ i → rows' (a, j) = rows (a, j) := by
  have hidx := bucketIdx_lt hash hm.power e
  have hab := hm.other
  obtain ⟨links₁, hrun₁, hc₁, halloc, hnot⟩ :=
    hm.chains.run_remove (A := []) (.inl ⟨rfl, hi⟩) hxs
  obtain ⟨links', hrun, hc'⟩ := Chains.run_pushFront (h := { h with links := links₁ }) hc₁
    (a := b) (i := bucketIdx hash h.bucketCnt e) (.inr ⟨rfl, hidx⟩) halloc hnot
  have hother : (b, bucketIdx hash h.bucketCnt e) ≠ (a, i) := fun heq => hab (congrArg Prod.fst heq)
  rw [List.nil_append, Function.update_of_ne hother] at hc'
  refine ⟨links₁, links', _, hrun₁, hrun, ⟨hm.buckets, hab, hm.power, hc', ?_, ?_, hm.count⟩, ?_,
    fun j hj => ?_⟩
  · have hremove := pool_remove (fun j => rows (a, j)) hi (A := []) hxs
    have hinsert := pool_insert (fun j => rows (b, j)) hidx e
    rw [update_right _ (Ne.symm hab), update_left, update_left, update_right _ hab]
    exact ((hinsert.append_left _).trans List.perm_middle).trans
      ((hremove.symm.append_right _).trans hm.perm)
  · intro j hj x hx
    by_cases hji : j = bucketIdx hash h.bucketCnt e
    · subst hji
      rw [Function.update_self] at hx
      rcases List.mem_cons.mp hx with rfl | hx
      · rfl
      · exact hm.placed _ hj x hx
    · rw [Function.update_of_ne (by simpa using hji), Function.update_of_ne (by simp [hab])] at hx
      exact hm.placed j hj x hx
  · rw [Function.update_of_ne (Ne.symm hother), Function.update_self]
  · rw [Function.update_of_ne (by simp [Ne.symm hab]), Function.update_of_ne (by simpa using hj)]

theorem Moving.run_moveBucketLoop {xs : List ε} (hm : Moving L hash h a n b rows S) (hi : i < n)
    (hxs : rows (a, i) = xs) (hfuel : xs.length < fuel) :
    ∃ links' rows', (moveBucketLoop hash (bucketAt a i) fuel
        (first (xs.map .elem) (some (bucketAt a i).tail))).run h =
        some ((), { h with links := links' }) ∧
      Moving L hash { h with links := links' } a n b rows' S ∧ rows' (a, i) = [] ∧
      ∀ j, j ≠ i → rows' (a, j) = rows (a, j) := by
  induction xs generalizing h rows fuel with
  | nil =>
      obtain ⟨fuel, rfl⟩ := Nat.exists_eq_add_one_of_ne_zero (Nat.ne_of_gt hfuel)
      exact ⟨h.links, rows, by simp [moveBucketLoop, listEnd], hm, hxs, fun _ _ => rfl⟩
  | cons e xs ih =>
      obtain ⟨fuel, rfl⟩ :=
        Nat.exists_eq_add_one_of_ne_zero (Nat.ne_of_gt (Nat.zero_lt_of_lt hfuel))
      have hl : IsList h.links (bucketAt a i) ([] ++ .elem e :: xs.map .elem) := by
        have hlist := hm.chains.isList (.inl ⟨rfl, hi⟩)
        rwa [hxs] at hlist
      have hne : some (HashAddr.elem e) ≠ listEnd (bucketAt a i) := by
        simpa [listEnd] using hl.ne_tail (x := .elem e) (by simp)
      obtain ⟨links₁, links₂, rows₁, hremove, hpush, hm₁, hrow, hsame₁⟩ := hm.move hi hxs
      obtain ⟨links', rows', hrun, hm', hempty, hsame⟩ :=
        ih hm₁ hrow (Nat.lt_of_succ_lt_succ hfuel)
      refine ⟨links', rows', ?_, hm', hempty, fun j hj => (hsame j hj).trans (hsame₁ j hj)⟩
      rw [List.map_cons, first_cons, moveBucketLoop, if_neg hne,
        run_bind_of (run_findBucket hm.buckets e), run_bind_of (run_onBuckets (run_listNext_at hl)),
        run_bind_of hremove, run_bind_of hpush]
      exact hrun

/-- The loop of `rehash` over the first old buckets. -/
theorem Moving.run_moveLoop {k : Nat} (hm : Moving L hash h a n b rows S) (hk : k ≤ n)
    (hfuel : S.length < fuel) :
    ∃ links' rows', ((List.range k).forM fun i => do
        moveBucketLoop hash (bucketAt a i) fuel (← onBuckets (listBegin (bucketAt a i)))).run h =
        some ((), { h with links := links' }) ∧
      Moving L hash { h with links := links' } a n b rows' S ∧ ∀ j < k, rows' (a, j) = [] := by
  induction k with
  | zero => exact ⟨h.links, rows, rfl, hm, fun j hj => absurd hj (Nat.not_lt_zero j)⟩
  | succ k ih =>
      obtain ⟨links₁, rows₁, hrun₁, hm₁, hempty₁⟩ := ih (Nat.le_of_succ_le hk)
      obtain ⟨links', rows', hrun, hm', hempty, hsame⟩ :=
        hm₁.run_moveBucketLoop hk rfl (Nat.lt_of_le_of_lt (hm₁.length_le hk) hfuel)
      have hbegin := run_listBegin (hm₁.chains.isList (.inl ⟨rfl, hk⟩))
      refine ⟨links', rows', run_forM_succ hrun₁ ?_, hm', fun j hj => ?_⟩
      · rw [run_bind_of (run_onBuckets hbegin)]
        exact hrun
      · by_cases hjk : j = k
        · rw [hjk, hempty]
        · rw [hsame j hjk, hempty₁ j (by omega)]

/-- The new array is made, installed and filled, and the old one is given back. -/
theorem WellFormed.run_install {m : Nat} (hw : WellFormed L h a rows S) (hfuel : S.length < fuel)
    (hash : ε → UInt32) (hpower : ∃ k, 2 ≤ k ∧ m = 2 ^ k) (hab : b ≠ a)
    (halloc : ∀ i < m, (h.links (.head b i)).isSome = true ∧ (h.links (.tail b i)).isSome = true) :
    ∃ h' rows', (do
        (List.range m).forM fun i => onBuckets (listInit (bucketAt b i))
        modify fun h => { h with buckets := some b, bucketCnt := m }
        (List.range h.bucketCnt).forM fun i => do
          moveBucketLoop hash (bucketAt a i) fuel (← onBuckets (listBegin (bucketAt a i)))
        freeBuckets a : HashProg ε Unit).run h = some ((), h') ∧
      Holds L h' b rows' S ∧ h'.bucketCnt = m ∧ Placed hash h'.bucketCnt b rows' := by
  -- nothing is in the new array yet
  have hc := hw.chains.congr (fun p => if p.1 = a then rows p else []) fun p hp => if_pos hp.1
  obtain ⟨links₁, hrun₁, hc₁, _⟩ := hc.run_initLoop (fun i hi => hab hi.1)
    (fun i => if_neg hab) halloc
  have hm : Moving L hash { h with links := links₁, buckets := some b, bucketCnt := m } a
      h.bucketCnt b (fun p => if p.1 = a then rows p else []) S := by
    refine ⟨rfl, hab, hpower, hc₁, ?_, fun i _ e he => ?_, hw.count⟩
    · simpa [hab, pool_eq_nil] using hw.perm
    · simp [hab] at he
  obtain ⟨links₂, rows', hrun₂, hm₂, hempty⟩ := hm.run_moveLoop (Nat.le_refl _) hfuel
  obtain ⟨links', hfree, hc'⟩ := Chains.run_freeBuckets (a := a)
    (h := { h with links := links₂, buckets := some b, bucketCnt := m })
    (hm₂.chains.mono (J := fun p => p.1 = b ∧ p.2 < m) fun p hp => .inr hp)
    (fun p hp => hp.1 ▸ hab)
    (hm₂.chains.isSome_head (.inl ⟨rfl, hw.pos⟩))
  refine ⟨{ h with links := links', buckets := some b, bucketCnt := m }, rows', ?_,
    ⟨rfl, hpower, hc', ?_, hw.count⟩, rfl, hm₂.placed⟩
  · rw [run_bind_of hrun₁, run_bind_of (t := { h with
      links := links₁, buckets := some b, bucketCnt := m }) rfl, run_bind_of hrun₂]
    exact hfree
  · have hperm := hm₂.perm
    rw [pool_eq_nil hempty] at hperm
    exact hperm

/-- `rehash` keeps what the table holds. It leaves the table alone, or places every
element. -/
theorem WellFormed.run_rehash (hw : WellFormed L h a rows S) (hfuel : S.length + 4 ≤ fuel)
    (hash : ε → UInt32) (memory : MallocArray ε) :
    ∃ h' a' rows', (rehash hash fuel memory).run h = some ((), h') ∧ WellFormed L h' a' rows' S ∧
      (h' = h ∧ a' = a ∧ rows' = rows ∧ (memory = none ∨ h.bucketCnt = idealBucketCnt S.length) ∨
        h'.bucketCnt = idealBucketCnt S.length ∧ Placed hash h'.bucketCnt a' rows') := by
  have hlift : (liftM (newBucketCnt fuel h.elemCnt) : HashProg ε Nat).run h =
      some (idealBucketCnt S.length, h) := by
    rw [hw.count, newBucketCnt_eq hfuel]
    rfl
  rw [rehash, run_bind_of (run_getBuckets hw.buckets), run_bind_of (t := h) rfl,
    run_bind_of (t := h) rfl, run_bind_of hlift]
  by_cases hsame : idealBucketCnt S.length = h.bucketCnt
  · rw [if_pos hsame]
    exact ⟨h, a, rows, rfl, hw, .inl ⟨rfl, rfl, rfl, .inr hsame.symm⟩⟩
  rw [if_neg hsame]
  cases memory with
  | none => exact ⟨h, a, rows, rfl, hw, .inl ⟨rfl, rfl, rfl, .inl rfl⟩⟩
  | some memory =>
      obtain ⟨b, links₁, hmalloc, hother, hc₁, halloc⟩ := hw.chains.run_mallocBuckets
        (fun p hp => hw.buckets.trans (congrArg some hp.1.symm)) memory.1 memory.2
        (idealBucketCnt S.length)
      obtain ⟨h', rows', hrun, hh', hcnt, hplaced⟩ := WellFormed.run_install
        (h := { h with links := links₁ }) ⟨hw.buckets, hw.pos, hc₁, hw.perm, hw.count⟩
        (show _ < fuel by omega) hash (idealBucketCnt_power _)
        (fun heq => hother (hw.buckets.trans (congrArg some heq.symm))) halloc
      rw [run_bind_of hmalloc]
      exact ⟨h', b, rows', hrun, hh'.wellFormed, .inr ⟨hcnt, hplaced⟩⟩

theorem Holds.run_rehash (hh : Holds L h a rows S) (hfuel : S.length + 4 ≤ fuel)
    (hash : ε → UInt32) (memory : MallocArray ε) :
    ∃ h' a' rows', (rehash hash fuel memory).run h = some ((), h') ∧ Holds L h' a' rows' S ∧
      (h' = h ∧ a' = a ∧ rows' = rows ∨
        h'.bucketCnt = idealBucketCnt S.length ∧ Placed hash h'.bucketCnt a' rows') := by
  obtain ⟨h', a', rows', hrun, hw', hor⟩ := hh.wellFormed.run_rehash hfuel hash memory
  refine ⟨h', a', rows', hrun, ?_⟩
  rcases hor with ⟨rfl, rfl, rfl, _⟩ | ⟨hcnt, hplaced⟩
  · exact ⟨hh, .inl ⟨rfl, rfl, rfl⟩⟩
  · exact ⟨hw'.holds (hcnt ▸ idealBucketCnt_power S.length), .inr ⟨hcnt, hplaced⟩⟩

end Moving

/-! ### The size of the table -/

theorem lt_four_mul_idealBucketCnt (elemCnt : Nat) : elemCnt < 4 * idealBucketCnt elemCnt := by
  have hlt := Nat.lt_log2_self (n := max 4 (elemCnt / 2))
  rw [Nat.pow_succ, ← idealBucketCnt] at hlt
  omega

/-- **The size `rehash` gives a table** when it gets the memory it asks for. -/
theorem rehash_sizing [DecidableEq ε] (hw : WellFormed L h a rows S)
    (hfuel : h.elemCnt + 4 ≤ fuel) (hash : ε → UInt32) (asked : Nat)
    (garbage : HashAddr ε → Link (HashAddr ε)) :
    ∃ h' a' rows', (rehash hash fuel (some (asked, garbage))).run h = some ((), h') ∧
      IsGreatest {p | (∃ k, p = 2 ^ k) ∧ p ≤ max 4 (h.elemCnt / 2)} h'.bucketCnt ∧
      4 ≤ h'.bucketCnt ∧ h.elemCnt < 4 * h'.bucketCnt ∧
      WellFormed L h' a' rows' S ∧ h'.elemCnt = h.elemCnt ∧
      ∀ e, bucketIdx hash h'.bucketCnt e < h'.bucketCnt := by
  rw [hw.count] at hfuel ⊢
  obtain ⟨h', a', rows', hrun, hw', hor⟩ := hw.run_rehash hfuel hash (some (asked, garbage))
  have hcnt : h'.bucketCnt = idealBucketCnt S.length := by
    rcases hor with ⟨rfl, _, _, hnone | hideal⟩ | ⟨hideal, _⟩
    · cases hnone
    · exact hideal
    · exact hideal
  have hpower := idealBucketCnt_power S.length
  have hh' := hw'.holds (hcnt ▸ hpower)
  refine ⟨h', a', rows', hrun, ?_, hh'.four_le, ?_, hw', hw'.count, bucketIdx_lt hash hh'.power⟩
  · rw [hcnt]
    exact isGreatest_two_pow_log2 (by omega)
  · rw [hcnt]
    exact lt_four_mul_idealBucketCnt S.length

/-- Ten elements in three buckets. -/
def fullRows : List (List Nat) := [[3, 1, 4], [], [15, 9, 2, 6, 5, 35, 8]]

theorem rehash_sizing_fullRows :
    ∃ h' a' rows', (rehash UInt32.ofNat 14 (some (0, fun _ => ⟨none, none⟩))).run
        (.ofRows fullRows) = some ((), h') ∧
      IsGreatest {p | (∃ k, p = 2 ^ k) ∧ p ≤ max 4 (10 / 2)} h'.bucketCnt ∧
      4 ≤ h'.bucketCnt ∧ 10 < 4 * h'.bucketCnt ∧
      WellFormed (fun _ => True) h' a' rows' fullRows.flatten ∧ h'.elemCnt = 10 ∧
      ∀ e, bucketIdx UInt32.ofNat h'.bucketCnt e < h'.bucketCnt :=
  rehash_sizing (wellFormed_ofRows (by decide) (by decide)) (by decide) UInt32.ofNat 0
    (fun _ => ⟨none, none⟩)

/-! ### Clearing -/

section Clearing

variable [DecidableEq ε] (destructor : Option (ε → Option (Link (HashAddr ε))))

theorem Chains.run_clearBucketLoop {xs : List ε} {destructor : ε → Option (Link (HashAddr ε))}
    (hc : Chains L h.links I rows) (hi : I (a, i)) (hxs : rows (a, i) = xs)
    (hL : ∀ e ∈ xs, L e → (destructor e).isSome = true) (hfuel : xs.length < fuel) :
    ∃ links', (clearBucketLoop destructor (bucketAt a i) fuel).run h =
        some (xs, { h with links := links' }) ∧
      Chains L links' I (Function.update rows (a, i) []) := by
  induction xs generalizing h rows fuel with
  | nil =>
      obtain ⟨fuel, rfl⟩ := Nat.exists_eq_add_one_of_ne_zero (Nat.ne_of_gt hfuel)
      refine ⟨h.links, ?_, ?_⟩
      · rw [clearBucketLoop, run_bind_of (hc.run_listEmpty hi), hxs]
        rfl
      · rw [← hxs, Function.update_eq_self]
        exact hc
  | cons e xs ih =>
      obtain ⟨fuel, rfl⟩ :=
        Nat.exists_eq_add_one_of_ne_zero (Nat.ne_of_gt (Nat.zero_lt_of_lt hfuel))
      obtain ⟨links₁, hpop, hc₁, he⟩ := hc.run_popFront hi hxs
      obtain ⟨links', hrun, hc'⟩ := ih
        (h := { h with links := Function.update links₁ (.elem e) (destructor e) })
        (hc₁.setElem he (fun _ hx _ => hx) (hL e List.mem_cons_self)) (Function.update_self ..)
        (fun x hx => hL x (List.mem_cons_of_mem e hx)) (Nat.lt_of_succ_lt_succ hfuel)
      rw [Function.update_idem] at hc'
      refine ⟨links', ?_, hc'⟩
      rw [clearBucketLoop, run_bind_of (hc.run_listEmpty hi), hxs, List.isEmpty_cons,
        Bool.not_false, if_pos rfl, run_bind_of hpop]
      refine (run_bind_of (t := { h with
        links := Function.update links₁ (.elem e) (destructor e) }) rfl).trans ?_
      rw [run_bind_of hrun]
      rfl

/-- The elements of `xs` the destructor is called for. -/
def destructed (destructor : Option (ε → Option (Link (HashAddr ε)))) (xs : List ε) : List ε :=
  if destructor.isSome then xs else []

/-- A round of `hash_clear`. -/
theorem Chains.run_clearBucket (hc : Chains L h.links I rows) (hi : I (a, i))
    (hL : ∀ d, destructor = some d → ∀ e ∈ rows (a, i), L e → (d e).isSome = true)
    (hfuel : (rows (a, i)).length < fuel) :
    ∃ links', (do
        let calls ← match destructor with
          | none => pure []
          | some destructor => clearBucketLoop destructor (bucketAt a i) fuel
        onBuckets (listInit (bucketAt a i))
        return calls : HashProg ε (List ε)).run h =
        some (destructed destructor (rows (a, i)), { h with links := links' }) ∧
      Chains L links' I (Function.update rows (a, i) []) := by
  cases destructor with
  | none =>
      obtain ⟨links', hrun, hc'⟩ := hc.run_listInit hi
      refine ⟨links', ?_, hc'⟩
      rw [run_bind_of (t := h) rfl, run_bind_of hrun]
      rfl
  | some destructor =>
      obtain ⟨links₁, hrun₁, hc₁⟩ := hc.run_clearBucketLoop hi rfl (hL destructor rfl) hfuel
      obtain ⟨links', hrun, hc'⟩ := Chains.run_listInit (h := { h with links := links₁ }) hc₁ hi
      rw [Function.update_idem] at hc'
      refine ⟨links', ?_, hc'⟩
      rw [run_bind_of hrun₁, run_bind_of hrun]
      rfl

theorem Chains.run_clearLoop {k : Nat} (hc : Chains L h.links I rows) (hI : ∀ j < k, I (a, j))
    (hL : ∀ d, destructor = some d → ∀ j < k, ∀ e ∈ rows (a, j), L e → (d e).isSome = true)
    (hfuel : ∀ j < k, (rows (a, j)).length < fuel) :
    ∃ links' rows', ((List.range k).mapM fun i => do
        let calls ← match destructor with
          | none => pure []
          | some destructor => clearBucketLoop destructor (bucketAt a i) fuel
        onBuckets (listInit (bucketAt a i))
        return calls : HashProg ε (List (List ε))).run h =
        some ((List.range k).map fun j => destructed destructor (rows (a, j)),
          { h with links := links' }) ∧
      Chains L links' I rows' ∧ ∀ j, rows' (a, j) = if j < k then [] else rows (a, j) := by
  induction k with
  | zero => exact ⟨h.links, rows, rfl, hc, fun j => rfl⟩
  | succ k ih =>
      have hlt := Nat.lt_succ_self k
      obtain ⟨links₁, rows₁, hrun₁, hc₁, hrows⟩ :=
        ih (fun j hj => hI j (Nat.lt_succ_of_lt hj))
          (fun d hd j hj => hL d hd j (Nat.lt_succ_of_lt hj))
          fun j hj => hfuel j (Nat.lt_succ_of_lt hj)
      have hrow : rows₁ (a, k) = rows (a, k) := by rw [hrows, if_neg (Nat.lt_irrefl k)]
      obtain ⟨links', hrun, hc'⟩ := Chains.run_clearBucket (h := { h with links := links₁ })
        destructor hc₁ (hI k hlt) (hrow ▸ fun d hd => hL d hd k hlt)
        (hrow ▸ hfuel k hlt)
      rw [hrow] at hrun
      refine ⟨links', _, ?_, hc', fun j => ?_⟩
      · rw [run_mapM_succ hrun₁ hrun, List.range_succ, List.map_append]
        rfl
      · by_cases hjk : j = k
        · rw [hjk, Function.update_self, if_pos hlt]
        · rw [Function.update_of_ne (by simpa using hjk), hrows]
          exact if_congr (by omega) rfl rfl

/-- The table is empty, and the destructor was called for every element. -/
theorem Holds.run_hashClear (hh : Holds L h a rows S)
    (hL : ∀ d, destructor = some d → ∀ e ∈ S, L e → (d e).isSome = true)
    (hfuel : S.length < fuel) :
    ∃ h' rows', (hashClear fuel destructor).run h =
        some (destructed destructor (pool (fun i => rows (a, i)) h.bucketCnt), h') ∧
      Holds L h' a rows' [] ∧ h'.bucketCnt = h.bucketCnt := by
  obtain ⟨links', rows', hrun, hc, hrows⟩ := hh.chains.run_clearLoop (k := h.bucketCnt)
    destructor (fun j hj => ⟨rfl, hj⟩)
    (fun d hd j hj e he => hL d hd e (hh.mem.mpr ⟨j, hj, he⟩))
    (fun j hj => Nat.lt_of_le_of_lt (hh.length_le hj) hfuel)
  refine ⟨{ h with links := links', elemCnt := 0 }, rows', ?_,
    ⟨hh.buckets, hh.power, hc, ?_, rfl⟩, rfl⟩
  · have hcalls :
        ((List.range h.bucketCnt).map fun j => destructed destructor (rows (a, j))).flatten =
          destructed destructor (pool (fun i => rows (a, i)) h.bucketCnt) := by
      cases destructor with
      | none => simp [destructed]
      | some d => simp [destructed, pool, List.flatMap_def]
    rw [hashClear, run_bind_of (run_getBuckets hh.buckets), run_bind_of (t := h) rfl, ← hcalls]
    exact run_bind_of hrun
  · rw [pool_eq_nil fun j hj => (hrows j).trans (if_pos hj)]

/-- A table that `hash_init` makes is empty. -/
theorem run_hashInit (fuel : Nat) (helems : ∀ e, L e → (h.links (.elem e)).isSome = true)
    (asked : Nat) (garbage : HashAddr ε → Link (HashAddr ε)) :
    ∃ h' a rows, (hashInit fuel (some (asked, garbage))).run h = some (true, h') ∧
      Holds L h' a rows ([] : List ε) ∧ h'.bucketCnt = 4 := by
  have hc : Chains L h.links (fun _ => False) (fun _ => []) :=
    ⟨⟨fun _ hp => hp.elim, fun _ _ hp => hp.elim⟩, helems⟩
  obtain ⟨b, links₁, hmalloc, _, hc₁, halloc⟩ := Chains.run_mallocBuckets
    (h := { h with elemCnt := 0, bucketCnt := 4, buckets := none }) hc (fun _ hp => hp.elim)
    asked garbage 4
  obtain ⟨links', hrun, hc, _⟩ := Chains.run_initLoop (a := b) (n := 4)
    (h := { h with links := links₁, elemCnt := 0, bucketCnt := 4, buckets := some b }) hc₁
    (fun _ => id) (fun _ => rfl) halloc
  refine ⟨{ h with links := links', elemCnt := 0, bucketCnt := 4, buckets := some b }, b,
    fun _ => [], ?_, ⟨rfl, ⟨2, Nat.le_refl 2, rfl⟩, hc.mono fun _ hp => .inr hp, .refl _, rfl⟩, rfl⟩
  have hclear : (hashClear fuel none).run
      { h with links := links₁, elemCnt := 0, bucketCnt := 4, buckets := some b } =
      some ([], { h with links := links', elemCnt := 0, bucketCnt := 4, buckets := some b }) := by
    rw [hashClear, run_bind_of (run_getBuckets (a := b) rfl), run_bind_of (t := { h with
      links := links₁, elemCnt := 0, bucketCnt := 4, buckets := some b }) rfl]
    exact run_bind_of (run_mapM_of_forM [] hrun)
  rw [hashInit, run_bind_of (t := { h with elemCnt := 0, bucketCnt := 4, buckets := none }) rfl,
    run_bind_of hmalloc, run_bind_of (t := { h with
      links := links₁, elemCnt := 0, bucketCnt := 4, buckets := some b }) rfl,
    Option.isSome_some, if_pos rfl, run_bind_of hclear]
  rfl

end Clearing

end SystemProgramming.Testlib
