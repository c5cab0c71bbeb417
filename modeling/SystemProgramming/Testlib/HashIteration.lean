import SystemProgramming.Testlib.HashArrays

/-!
Going through a well-formed table. `hash_apply` and the iterator meet the
elements bucket by bucket, in the order of each bucket, and every one once.
-/

namespace SystemProgramming.Testlib

open SystemProgramming.Library

variable {ε : Type} {h : Hash ε} {links : Heap (HashAddr ε)} {rows rows' : Nat × Nat → List ε}
  {a a' i : Nat} {S S' : List ε} {L L' : ε → Prop} {fuel : Nat} [DecidableEq ε]

/-! ### `hash_apply` -/

theorem run_applyBucketLoop {bucket : CList (HashAddr ε)} {A B : List ε}
    (hl : IsList links bucket ((A ++ B).map .elem)) (hfuel : B.length < fuel) :
    (applyBucketLoop bucket fuel (first (B.map .elem) (some bucket.tail))).run links =
      some (B, links) := by
  induction fuel generalizing A B with
  | zero => exact absurd hfuel (Nat.not_lt_zero _)
  | succ fuel ih =>
      cases B with
      | nil =>
          rw [applyBucketLoop.eq_def]
          simp [listEnd]
      | cons x B =>
          have hne : some (HashAddr.elem x) ≠ listEnd bucket := by
            simpa [listEnd] using hl.ne_tail (x := .elem x) (by simp)
          have hnext := run_listNext_at
            (show IsList links bucket (A.map .elem ++ .elem x :: B.map .elem) by simpa using hl)
          have hrest := ih (show IsList links bucket (((A ++ [x]) ++ B).map .elem) by
            simpa using hl) (by simpa using hfuel)
          rw [List.map_cons, first_cons, applyBucketLoop, if_neg hne, run_bind_of hnext,
            run_bind_of hrest]
          rfl

theorem WellFormed.run_applyBucket (hw : WellFormed L h a rows S) (hi : i < h.bucketCnt)
    (hfuel : S.length < fuel) :
    (onBuckets (do
      applyBucketLoop (bucketAt a i) fuel (← listBegin (bucketAt a i)))).run h =
      some (rows (a, i), h) := by
  have hl : IsList h.links (bucketAt a i) (([] ++ rows (a, i)).map .elem) :=
    hw.chains.isList ⟨rfl, hi⟩
  refine run_onBuckets ?_
  rw [run_bind_of (run_listBegin hl)]
  exact run_applyBucketLoop hl (Nat.lt_of_le_of_lt (hw.length_le hi) hfuel)

theorem WellFormed.run_hashApply (hw : WellFormed L h a rows S) (hfuel : S.length < fuel) :
    (hashApply fuel).run h = some (pool (fun i => rows (a, i)) h.bucketCnt, h) := by
  have hloop (n : Nat) (hn : n ≤ h.bucketCnt) : ((List.range n).mapM fun i => onBuckets do
      applyBucketLoop (bucketAt a i) fuel (← listBegin (bucketAt a i))).run h =
      some ((List.range n).map fun i => rows (a, i), h) := by
    induction n with
    | zero => rfl
    | succ n ih =>
        rw [run_mapM_succ (ih (Nat.le_of_succ_le hn)) (hw.run_applyBucket hn hfuel),
          List.range_succ, List.map_append]
        rfl
  rw [hashApply, run_bind_of (run_getBuckets hw.buckets), run_bind_of (t := h) rfl,
    run_bind_of (hloop _ (Nat.le_refl _)), pool, List.flatMap_def]
  rfl

/-- What the buckets hold is a function of the memory. -/
theorem Holds.rows_eq (hh : Holds L h a rows S) (hh' : Holds L' h a' rows' S')
    (hi : i < h.bucketCnt) : rows' (a', i) = rows (a, i) := by
  obtain rfl : a = a' := Option.some.inj (hh.buckets.symm.trans hh'.buckets)
  have hrun := hh.wellFormed.run_applyBucket hi
    (show S.length < max S.length S'.length + 1 by omega)
  have hrun' := hh'.wellFormed.run_applyBucket hi
    (show S'.length < max S.length S'.length + 1 by omega)
  exact (Prod.mk.inj (Option.some.inj (hrun'.symm.trans hrun))).1

/-! ### The iterator -/

/-- The iterator stands in front of the elements `rest`. -/
def HashIterator.At (h : Hash ε) (a : Nat) (rows : Nat × Nat → List ε) (it : HashIterator ε)
    (rest : List ε) : Prop :=
  ∃ A B, it.bucket < h.bucketCnt ∧ rows (a, it.bucket) = A ++ B ∧
    it.elem = last (some (.head a it.bucket)) (A.map .elem) ∧
    rest = B ++ poolFrom (fun j => rows (a, j)) (it.bucket + 1) h.bucketCnt

/-- What `hash_next` leaves: the next element and the iterator behind it, or null. -/
def HashIterator.Next (h : Hash ε) (a : Nat) (rows : Nat × Nat → List ε) (it : HashIterator ε) :
    List ε → Prop
  | [] => it.elem = none
  | x :: rest => it.elem = some (.elem x) ∧ it.At h a rows rest

omit [DecidableEq ε] in
theorem WellFormed.run_hashFirst (hw : WellFormed L h a rows S) :
    ∃ it, hashFirst.run h = some (it, h) ∧
      it.At h a rows (pool (fun i => rows (a, i)) h.bucketCnt) := by
  refine ⟨⟨0, some (bucketAt a 0).head⟩, ?_, [], rows (a, 0), hw.pos, rfl, rfl, ?_⟩
  · rw [hashFirst, run_bind_of (run_getBuckets hw.buckets)]
    rfl
  · rw [← poolFrom_zero, poolFrom_of_lt _ hw.pos]

theorem WellFormed.run_hashNextLoop {A B : List ε} (hw : WellFormed L h a rows S)
    (hi : i < h.bucketCnt) (hAB : rows (a, i) = A ++ B) (hfuel : h.bucketCnt - i < fuel) :
    ∃ it, (hashNextLoop fuel ⟨i, first (B.map .elem) (some (bucketAt a i).tail)⟩).run h =
        some (it, h) ∧
      it.Next h a rows (B ++ poolFrom (fun j => rows (a, j)) (i + 1) h.bucketCnt) := by
  induction fuel generalizing i A B with
  | zero => exact absurd hfuel (Nat.not_lt_zero _)
  | succ fuel ih =>
      rw [hashNextLoop, run_bind_of (run_getBuckets hw.buckets)]
      cases B with
      | nil =>
          have htail : first (([] : List ε).map .elem) (some (bucketAt a i).tail) =
            listEnd (bucketAt a i) := rfl
          dsimp only
          rw [if_pos htail, run_bind_of (t := h) rfl]
          by_cases hlast : i + 1 ≥ h.bucketCnt
          · rw [if_pos hlast]
            refine ⟨_, rfl, ?_⟩
            rw [List.nil_append, poolFrom_of_le _ hlast]
            rfl
          · have hi' : i + 1 < h.bucketCnt := Nat.lt_of_not_ge hlast
            have hbegin := run_onBuckets (run_listBegin (hw.chains.isList ⟨rfl, hi'⟩))
            rw [if_neg hlast, run_bind_of hbegin, List.nil_append, poolFrom_of_lt _ hi']
            exact ih hi' (List.nil_append _).symm (by omega)
      | cons x B =>
          have hl := hw.chains.isList ⟨rfl, hi⟩
          have hne : first ((x :: B).map .elem) (some (bucketAt a i).tail) ≠
              listEnd (bucketAt a i) := by
            simpa [listEnd] using hl.ne_tail (x := .elem x) (by simp [hAB])
          dsimp only
          rw [if_neg hne]
          refine ⟨_, rfl, rfl, A ++ [x], B, hi, by simp [hAB], ?_, rfl⟩
          rw [List.map_append, List.map_singleton, last_concat]
          rfl

theorem WellFormed.run_hashNext {it : HashIterator ε} {rest : List ε} (hw : WellFormed L h a rows S)
    (hit : it.At h a rows rest) (hfuel : h.bucketCnt < fuel) :
    ∃ it', (hashNext fuel it).run h = some (it', h) ∧ it'.Next h a rows rest := by
  obtain ⟨A, B, hi, hAB, helem, rfl⟩ := hit
  have hl : IsList h.links (bucketAt a it.bucket) (A.map .elem ++ B.map .elem) := by
    rw [← List.map_append, ← hAB]
    exact hw.chains.isList ⟨rfl, hi⟩
  have hnext := run_onBuckets (run_listNext_last hl)
  obtain ⟨it', hrun, hit'⟩ := hw.run_hashNextLoop hi hAB (show _ ≤ fuel by omega)
  refine ⟨it', ?_, hit'⟩
  rw [hashNext, helem]
  exact (run_bind_of hnext).trans hrun

/-- The elements that successive calls of `hash_next` return in front of the null pointer,
when `calls` of them are enough. -/
def hashRest (fuel : Nat) : Nat → HashIterator ε → HashProg ε (List ε)
  | 0, _ => failure
  | calls + 1, i => do
      let i ← hashNext fuel i
      match i.elem with
      | none => return []
      | some (.elem e) => return e :: (← hashRest fuel calls i)
      | some _ => failure

/-- `hash_first` and the calls of `hash_next` behind it. -/
def hashIterate (fuel calls : Nat) : HashProg ε (List ε) := do
  hashRest fuel calls (← hashFirst)

theorem WellFormed.run_hashRest {it : HashIterator ε} {rest : List ε} {calls : Nat}
    (hw : WellFormed L h a rows S) (hit : it.At h a rows rest) (hcalls : rest.length < calls)
    (hfuel : h.bucketCnt < fuel) : (hashRest fuel calls it).run h = some (rest, h) := by
  induction rest generalizing it calls with
  | nil =>
      obtain ⟨calls, rfl⟩ := Nat.exists_eq_add_one_of_ne_zero (Nat.ne_of_gt hcalls)
      obtain ⟨it', hrun, hnext⟩ := hw.run_hashNext hit hfuel
      rw [hashRest, run_bind_of hrun, show it'.elem = none from hnext]
      rfl
  | cons e rest ih =>
      obtain ⟨calls, rfl⟩ :=
        Nat.exists_eq_add_one_of_ne_zero (Nat.ne_of_gt (Nat.zero_lt_of_lt hcalls))
      obtain ⟨it', hrun, helem, hit'⟩ := hw.run_hashNext hit hfuel
      have hrest := ih hit' (Nat.lt_of_succ_lt_succ hcalls)
      rw [hashRest, run_bind_of hrun, helem]
      dsimp only
      rw [run_bind_of hrest]
      rfl

theorem WellFormed.run_hashIterate {calls : Nat} (hw : WellFormed L h a rows S)
    (hcalls : h.elemCnt < calls) (hfuel : h.bucketCnt < fuel) :
    (hashIterate fuel calls).run h = some (pool (fun i => rows (a, i)) h.bucketCnt, h) := by
  obtain ⟨it, hrun, hit⟩ := hw.run_hashFirst
  rw [hashIterate, run_bind_of hrun]
  refine hw.run_hashRest hit ?_ hfuel
  rwa [hw.perm.length_eq, ← hw.count]

/-! ### What is read -/

/-- The table when nothing is allocated but the elements and the buckets below `bucket_cnt`. -/
def Hash.onlyBuckets (h : Hash ε) (a : Nat) : Hash ε :=
  { h with links := fun x => match x with
      | .head b i => if b = a ∧ i < h.bucketCnt then h.links x else none
      | .tail b i => if b = a ∧ i < h.bucketCnt then h.links x else none
      | .elem _ => h.links x }

omit [DecidableEq ε] in
theorem WellFormed.onlyBuckets (hw : WellFormed L h a rows S) :
    WellFormed L (h.onlyBuckets a) a rows S := by
  refine ⟨hw.buckets, hw.pos, ⟨hw.chains.family.agree ?_, hw.chains.elems⟩, hw.perm, hw.count⟩
  rintro ⟨_, i⟩ ⟨rfl, hi⟩ x hx
  rcases CList.mem_row.mp hx with rfl | hx | rfl
  · exact if_pos ⟨rfl, hi⟩
  · obtain ⟨e, _, rfl⟩ := List.mem_map.mp hx
    rfl
  · exact if_pos ⟨rfl, hi⟩

/-- **Iteration.** The calls of `hash_next` return the elements bucket by bucket, each once,
and then null, which is the call `elem_cnt + 1`; `hash_apply` meets them in the same order.
The iterator gets by with the buckets there are: it does the same when there is no memory
behind them. -/
theorem hash_iteration_exact {calls : Nat} (hw : WellFormed L h a rows S)
    (hcalls : h.elemCnt < calls) (hfuel : max h.elemCnt h.bucketCnt < fuel) :
    (hashIterate fuel calls).run h = some (pool (fun i => rows (a, i)) h.bucketCnt, h) ∧
      (hashIterate fuel calls).run (h.onlyBuckets a) =
        some (pool (fun i => rows (a, i)) h.bucketCnt, h.onlyBuckets a) ∧
      (hashApply fuel).run h = some (pool (fun i => rows (a, i)) h.bucketCnt, h) ∧
      (pool (fun i => rows (a, i)) h.bucketCnt).Perm S ∧
      (pool (fun i => rows (a, i)) h.bucketCnt).Nodup ∧
      (pool (fun i => rows (a, i)) h.bucketCnt).length = h.elemCnt := by
  have hcnt := hw.count
  refine ⟨hw.run_hashIterate hcalls (by omega),
    hw.onlyBuckets.run_hashIterate hcalls (show h.bucketCnt < fuel by omega),
    hw.run_hashApply (by omega), hw.perm, hw.perm.nodup_iff.mpr hw.nodup, ?_⟩
  rw [hw.perm.length_eq, hcnt]

/-- Five buckets, of which the first, the third and the last are empty. -/
def gapRows : List (List Nat) := [[], [7, 3], [], [5], []]

theorem hash_iteration_exact_gapRows :
    (hashIterate 6 4).run (.ofRows gapRows) = some ([7, 3, 5], .ofRows gapRows) ∧
      (hashIterate 6 4).run ((Hash.ofRows gapRows).onlyBuckets 0) =
        some ([7, 3, 5], (Hash.ofRows gapRows).onlyBuckets 0) ∧
      (hashApply 6).run (.ofRows gapRows) = some ([7, 3, 5], .ofRows gapRows) ∧
      [7, 3, 5].Perm gapRows.flatten ∧ [7, 3, 5].Nodup ∧ [7, 3, 5].length = 3 :=
  hash_iteration_exact (L := fun _ => True)
    (wellFormed_ofRows (by decide) (by decide)) (by decide) (by decide)

end SystemProgramming.Testlib
