import SystemProgramming.Library.Buckets
import SystemProgramming.Testlib.Hash
import SystemProgramming.Testlib.ListFamily

/-!
What the functions of `hash.c` do to a well-formed table, whatever elements
its buckets hold. `Holds L h a rows S` says that the buckets in the array `a`
hold the elements `rows`, and together the elements `S`, and that the memory
of the elements `L` is allocated. Whether an element is in the bucket of its
hash is a property of its own, `Placed`; `rehash` either leaves the table
alone or establishes it.
-/

namespace SystemProgramming.Testlib

open SystemProgramming.Library

/-! ### Loops -/

/-- The last round of `for (i = 0; i < n + 1; i++)`. -/
theorem run_forM_succ {σ : Type} {f : Nat → StateT σ Option PUnit} {n : Nat} {s s₁ s' : σ}
    (hrun₁ : ((List.range n).forM f).run s = some ((), s₁)) (hrun : (f n).run s₁ = some ((), s')) :
    ((List.range (n + 1)).forM f).run s = some ((), s') := by
  rw [List.forM_eq_forM] at hrun₁ ⊢
  rw [List.range_succ, List.forM_append, run_bind_of hrun₁, List.forM_cons, run_bind_of hrun]
  rfl

/-- A loop with a result that does not matter. -/
theorem run_mapM_of_forM {σ β : Type} {f : Nat → StateT σ Option PUnit} {l : List Nat}
    {s s' : σ} (c : β) (hrun : (l.forM f).run s = some ((), s')) :
    (l.mapM fun i => do
      f i
      return c).run s = some (l.map fun _ => c, s') := by
  rw [List.forM_eq_forM] at hrun
  induction l generalizing s with
  | nil =>
      cases hrun
      rfl
  | cons i l ih =>
      rw [List.forM_cons, StateT.run_bind] at hrun
      obtain ⟨⟨_, s₁⟩, hi, hl⟩ := Option.bind_eq_some_iff.mp hrun
      have hround : (do
          f i
          return c : StateT σ Option β).run s = some (c, s₁) := by
        rw [run_bind_of hi]
        rfl
      rw [List.mapM_cons, run_bind_of hround, run_bind_of (ih hl)]
      rfl

theorem run_mapM_succ {σ β : Type} {f : Nat → StateT σ Option β} {n : Nat} {s s₁ s' : σ}
    {xs : List β} {x : β} (hrun₁ : ((List.range n).mapM f).run s = some (xs, s₁))
    (hrun : (f n).run s₁ = some (x, s')) :
    ((List.range (n + 1)).mapM f).run s = some (xs ++ [x], s') := by
  have hlast : ([n].mapM f).run s₁ = some ([x], s') := by
    rw [List.mapM_cons, run_bind_of hrun]
    rfl
  rw [List.range_succ, List.mapM_append, run_bind_of hrun₁, run_bind_of hlast]
  rfl

variable {ε β : Type} {h : Hash ε} {links : Heap (HashAddr ε)} {I : Nat × Nat → Prop}
  {rows : Nat × Nat → List ε} {a b i n : Nat} {S : List ε} {e : ε} {L : ε → Prop}

theorem run_onBuckets {prog : Prog (HashAddr ε) β} {x : β} {links' : Heap (HashAddr ε)}
    (hrun : prog.run h.links = some (x, links')) :
    (onBuckets prog).run h = some (x, { h with links := links' }) := by
  change Option.map _ (prog.run h.links) = _
  rw [hrun]
  rfl

/-! ### Chains -/

/-- The bucket `p.2` of the array `p.1`. -/
def chain (p : Nat × Nat) : CList (HashAddr ε) := bucketAt p.1 p.2

def nodes (rows : Nat × Nat → List ε) (p : Nat × Nat) : List (HashAddr ε) := (rows p).map .elem

/-- The buckets with an index in `I` hold the elements `rows`; the elements `L` are
allocated. -/
structure Chains (L : ε → Prop) (links : Heap (HashAddr ε)) (I : Nat × Nat → Prop)
    (rows : Nat × Nat → List ε) : Prop where
  family : Family links chain I (nodes rows)
  elems : ∀ e, L e → (links (.elem e)).isSome = true

theorem Chains.isList (hc : Chains L links I rows) (hi : I (a, i)) :
    IsList links (bucketAt a i) ((rows (a, i)).map .elem) := hc.family.isList (a, i) hi

theorem Chains.isSome_head (hc : Chains L links I rows) (hi : I (a, i)) :
    (links (.head a i)).isSome = true :=
  (hc.isList hi).seg.isSome (CList.mem_row.mpr (.inl rfl))

theorem nodes_update (rows : Nat × Nat → List ε) (p : Nat × Nat) (xs : List ε) :
    nodes (Function.update rows p xs) = Function.update (nodes rows) p (xs.map .elem) := by
  funext q
  by_cases hq : q = p
  · subst hq
    simp [nodes]
  · simp [nodes, hq]

theorem outside_elem : Outside chain I (nodes rows) (.elem e) ↔ ∀ p, I p → e ∉ rows p := by
  simp [Outside, CList.mem_row, chain, bucketAt, nodes]

/-- The sentinels of a bucket belong to no other one. -/
theorem outside_row_nil (hI : ¬ I (a, i)) {x : HashAddr ε} (hx : x ∈ (bucketAt a i).row []) :
    Outside chain I (nodes rows) x := by
  rintro ⟨b, j⟩ hj hmem
  simp only [CList.mem_row, bucketAt, List.not_mem_nil, false_or] at hx
  simp only [CList.mem_row, chain, bucketAt, nodes, List.mem_map] at hmem
  rcases hx with rfl | rfl <;> simp at hmem <;> exact hI (hmem.1 ▸ hmem.2 ▸ hj)

theorem Chains.mono {J : Nat × Nat → Prop} (hc : Chains L links I rows) (hJ : ∀ p, J p → I p) :
    Chains L links J rows := ⟨hc.family.mono hJ, hc.elems⟩

theorem Chains.congr (hc : Chains L links I rows) (rows' : Nat × Nat → List ε)
    (hrows : ∀ p, I p → rows' p = rows p) : Chains L links I rows' :=
  ⟨hc.family.congr fun p hp => congrArg _ (hrows p hp), hc.elems⟩

theorem Chains.notMem (hc : Chains L links I rows) {p q : Nat × Nat} (hp : I p) (hq : I q)
    (hpq : p ≠ q) (he : e ∈ rows p) : e ∉ rows q := fun he' => by
  refine hc.family.disjoint p q hp hq hpq (.elem e) ?_ ?_ <;>
    simpa [CList.mem_row, chain, bucketAt, nodes]

theorem Chains.nodup (hc : Chains L links I rows) {p : Nat × Nat} (hp : I p) : (rows p).Nodup :=
  (hc.family.isList p hp).nodup_elems.of_map _

theorem update_left (rows : Nat × Nat → List ε) (a i : Nat) (xs : List ε) :
    (fun j => Function.update rows (a, i) xs (a, j)) =
      Function.update (fun j => rows (a, j)) i xs := by
  funext j
  by_cases hj : j = i
  · subst hj
    simp
  · simp [hj]

theorem update_right (rows : Nat × Nat → List ε) (hab : b ≠ a) (xs : List ε) :
    (fun j => Function.update rows (a, i) xs (b, j)) = fun j => rows (b, j) := by
  funext j
  simp [hab]

section Steps

variable [DecidableEq ε]

/-- An element that is in no bucket goes to the front of one. -/
theorem Chains.run_pushFront (hc : Chains L h.links I rows) (hi : I (a, i))
    (halloc : (h.links (.elem e)).isSome = true) (he : ∀ p, I p → e ∉ rows p) :
    ∃ links', (onBuckets (listPushFront (bucketAt a i) (some (.elem e)))).run h =
        some ((), { h with links := links' }) ∧
      Chains L links' I (Function.update rows (a, i) (e :: rows (a, i))) := by
  obtain ⟨links', hrun, hfamily, hsame⟩ :=
    hc.family.run_pushFront hi halloc (outside_elem.mpr he)
  refine ⟨links', run_onBuckets hrun, ?_, fun x hx => ?_⟩
  · rw [nodes_update]
    exact hfamily
  · refine isSome_of_sameOff hsame (fun y hy => ?_) (hc.elems x hx)
    have hlist := hfamily.isList (a, i) hi
    rw [Function.update_self] at hlist
    refine hlist.seg.isSome ?_
    simp only [List.mem_cons, CList.mem_row] at hy ⊢
    tauto

/-- An element leaves its bucket. -/
theorem Chains.run_remove {A B : List ε} (hc : Chains L h.links I rows) (hi : I (a, i))
    (hAB : rows (a, i) = A ++ e :: B) :
    ∃ links', (onBuckets (listRemove (some (.elem e)))).run h =
        some (first (B.map .elem) (some (bucketAt a i).tail), { h with links := links' }) ∧
      Chains L links' I (Function.update rows (a, i) (A ++ B)) ∧
      (links' (.elem e)).isSome = true ∧ ∀ p, I p → e ∉ Function.update rows (a, i) (A ++ B) p := by
  have hnodes : nodes rows (a, i) = A.map .elem ++ .elem e :: B.map .elem := by
    simp [nodes, hAB]
  obtain ⟨links', hrun, hfamily, hout, hsame⟩ := hc.family.run_remove hi hnodes
  have hlist := hfamily.isList (a, i) hi
  have hself := hout (a, i) hi
  rw [Function.update_self] at hlist hself
  rw [← List.map_append, ← nodes_update] at hfamily hout
  refine ⟨links', run_onBuckets hrun, ⟨hfamily, fun x hx => ?_⟩, ?_, outside_elem.mp hout⟩
  · exact isSome_of_sameOff hsame (fun y hy => hlist.seg.isSome hy) (hc.elems x hx)
  · rw [hsame _ hself]
    have hold := (hc.family.isList (a, i) hi).seg
    exact hold.isSome (CList.mem_row.mpr (.inr (.inl (by simp [hnodes]))))

theorem Chains.run_listEmpty (hc : Chains L h.links I rows) (hi : I (a, i)) :
    (onBuckets (listEmpty (bucketAt a i))).run h = some ((rows (a, i)).isEmpty, h) := by
  rw [← List.isEmpty_map (f := HashAddr.elem)]
  exact run_onBuckets (Testlib.run_listEmpty (hc.isList hi))

/-- The first element of a bucket leaves it. -/
theorem Chains.run_popFront {xs : List ε} (hc : Chains L h.links I rows) (hi : I (a, i))
    (hxs : rows (a, i) = e :: xs) :
    ∃ links', (onBuckets (listPopFront (bucketAt a i))).run h =
        some (some (.elem e), { h with links := links' }) ∧
      Chains L links' I (Function.update rows (a, i) xs) ∧
      ∀ p, I p → e ∉ Function.update rows (a, i) xs p := by
  have hnodes : nodes rows (a, i) = .elem e :: xs.map .elem := by simp [nodes, hxs]
  obtain ⟨links', hrun, hfamily, hout, hsame⟩ := hc.family.run_popFront hi hnodes
  rw [← nodes_update] at hfamily hout
  refine ⟨links', run_onBuckets hrun, ⟨hfamily, fun x hx => ?_⟩, outside_elem.mp hout⟩
  refine isSome_of_sameOff hsame (fun y hy => ?_) (hc.elems x hx)
  have hlist := hfamily.isList (a, i) hi
  rw [nodes_update, Function.update_self] at hlist
  exact hlist.seg.isSome hy

/-- A bucket is emptied; its elements are then in none. -/
theorem Chains.run_listInit (hc : Chains L h.links I rows) (hi : I (a, i)) :
    ∃ links', (onBuckets (listInit (bucketAt a i))).run h =
        some ((), { h with links := links' }) ∧
      Chains L links' I (Function.update rows (a, i) []) := by
  obtain ⟨links', hrun, hfamily, hsame⟩ := hc.family.run_listInit hi
  refine ⟨links', run_onBuckets hrun, ?_, fun x hx => ?_⟩
  · rw [nodes_update]
    exact hfamily
  · rw [hsame _ (by simp [CList.row, chain, bucketAt])]
    exact hc.elems x hx

/-- The memory of an element that is in no bucket is the caller's. -/
theorem Chains.setElem {L' : ε → Prop} {l : Option (Link (HashAddr ε))}
    (hc : Chains L links I rows) (he : ∀ p, I p → e ∉ rows p)
    (hL : ∀ x, L' x → x ≠ e → L x) (hl : L' e → l.isSome = true) :
    Chains L' (Function.update links (.elem e) l) I rows := by
  refine ⟨hc.family.agree fun p hp x hx => Function.update_of_ne ?_ .., fun x hx => ?_⟩
  · rintro rfl
    exact outside_elem.mpr he p hp hx
  · by_cases hxe : x = e
    · rw [hxe, Function.update_self]
      exact hl (hxe ▸ hx)
    · rw [Function.update_of_ne (by simpa using hxe)]
      exact hc.elems x (hL x hx hxe)

/-! ### Making buckets -/

/-- `list_init` makes a bucket of two allocated cells. -/
theorem Chains.run_newBucket (hc : Chains L h.links I rows) (hi : ¬ I (a, i))
    (hrows : rows (a, i) = [])
    (hhead : (h.links (.head a i)).isSome = true) (htail : (h.links (.tail a i)).isSome = true) :
    ∃ links', (onBuckets (listInit (bucketAt a i))).run h =
        some ((), { h with links := links' }) ∧
      Chains L links' (fun p => I p ∨ p = (a, i)) rows ∧
      h.links.SameOff ((bucketAt a i).row []) links' := by
  obtain ⟨links', hrun, hlist, hsame⟩ := Testlib.run_listInit
    (show (h.links (bucketAt a i).head).isSome = true from hhead) htail (by simp [bucketAt])
  have hnodes : nodes rows (a, i) = [] := by simp [nodes, hrows]
  have hout : ∀ x ∈ (chain (a, i)).row (nodes rows (a, i)), Outside chain I (nodes rows) x := by
    rw [hnodes]
    exact fun x hx => outside_row_nil hi hx
  refine ⟨links', run_onBuckets hrun, ⟨?_, fun x hx => ?_⟩, hsame⟩
  · exact hc.family.extend (by rw [hnodes]; exact hlist) (by rw [hnodes]; exact hsame) hout
  · rw [hsame _ (by simp [CList.row, bucketAt])]
    exact hc.elems x hx

/-- The loop that makes all the buckets of an array. -/
theorem Chains.run_initLoop (hc : Chains L h.links I rows) (hI : ∀ i, ¬ I (a, i))
    (hrows : ∀ i, rows (a, i) = [])
    (halloc : ∀ i < n, (h.links (.head a i)).isSome = true ∧ (h.links (.tail a i)).isSome = true) :
    ∃ links', ((List.range n).forM fun i => onBuckets (listInit (bucketAt a i))).run h =
        some ((), { h with links := links' }) ∧
      Chains L links' (fun p => I p ∨ p.1 = a ∧ p.2 < n) rows ∧
      ∀ x, (∀ i < n, x ∉ (bucketAt a i).row []) → links' x = h.links x := by
  induction n with
  | zero => exact ⟨h.links, rfl, hc.mono fun p hp => hp.elim id fun hlt =>
      absurd hlt.2 (Nat.not_lt_zero _), fun _ _ => rfl⟩
  | succ n ih =>
      obtain ⟨links₁, hrun₁, hc₁, hframe₁⟩ := ih fun i hi => halloc i (Nat.lt_succ_of_lt hi)
      have hoff (x : HashAddr ε) (hx : x = .head a n ∨ x = .tail a n) (i : Nat) (hi : i < n) :
          x ∉ (bucketAt a i).row [] := by
        have hne : n ≠ i := by omega
        rcases hx with rfl | rfl <;> simp [CList.row, bucketAt, hne]
      obtain ⟨hhead, htail⟩ := halloc n (Nat.lt_succ_self n)
      rw [← hframe₁ _ (hoff _ (.inl rfl))] at hhead
      rw [← hframe₁ _ (hoff _ (.inr rfl))] at htail
      obtain ⟨links', hrun, hc', hsame⟩ := Chains.run_newBucket
        (h := { h with links := links₁ }) hc₁
        (fun hmem => hmem.elim (hI n) fun hlt => Nat.lt_irrefl n hlt.2) (hrows n) hhead htail
      refine ⟨links', run_forM_succ hrun₁ hrun, hc'.mono fun p hp => ?_, fun x hx => ?_⟩
      · obtain ⟨b, k⟩ := p
        rcases hp with hp | ⟨rfl, hk⟩
        · exact .inl (.inl hp)
        · rcases Nat.lt_succ_iff_lt_or_eq.mp hk with hk | rfl
          · exact .inl (.inr ⟨rfl, hk⟩)
          · exact .inr rfl
      · rw [hsame x (hx n (Nat.lt_succ_self n))]
        exact hframe₁ x fun i hi => hx i (Nat.lt_succ_of_lt hi)

end Steps

/-! ### Tables -/

/-- A table with any number of buckets but none. They are disjoint lists, and `elem_cnt` is
the number of their elements. -/
structure WellFormed (L : ε → Prop) (h : Hash ε) (a : Nat) (rows : Nat × Nat → List ε)
    (S : List ε) : Prop where
  buckets : h.buckets = some a
  pos : 0 < h.bucketCnt
  chains : Chains L h.links (fun p => p.1 = a ∧ p.2 < h.bucketCnt) rows
  perm : (pool (fun i => rows (a, i)) h.bucketCnt).Perm S
  count : h.elemCnt = S.length

structure Holds (L : ε → Prop) (h : Hash ε) (a : Nat) (rows : Nat × Nat → List ε)
    (S : List ε) : Prop where
  buckets : h.buckets = some a
  power : ∃ k, 2 ≤ k ∧ h.bucketCnt = 2 ^ k
  chains : Chains L h.links (fun p => p.1 = a ∧ p.2 < h.bucketCnt) rows
  perm : (pool (fun i => rows (a, i)) h.bucketCnt).Perm S
  count : h.elemCnt = S.length

/-- Every element is in the bucket of its hash. -/
def Placed (hash : ε → UInt32) (bucketCnt a : Nat) (rows : Nat × Nat → List ε) : Prop :=
  ∀ i < bucketCnt, ∀ e ∈ rows (a, i), bucketIdx hash bucketCnt e = i

theorem bucketIdx_lt (hash : ε → UInt32) {cnt : Nat} (hpower : ∃ k, 2 ≤ k ∧ cnt = 2 ^ k) (e : ε) :
    bucketIdx hash cnt e < cnt := by
  obtain ⟨k, _, rfl⟩ := hpower
  rw [bucketIdx, Nat.and_two_pow_sub_one_eq_mod]
  exact Nat.mod_lt _ (Nat.two_pow_pos k)

theorem WellFormed.mem (hw : WellFormed L h a rows S) :
    e ∈ S ↔ ∃ i < h.bucketCnt, e ∈ rows (a, i) := by
  rw [← hw.perm.mem_iff, mem_pool]

theorem WellFormed.length_le (hw : WellFormed L h a rows S) (hi : i < h.bucketCnt) :
    (rows (a, i)).length ≤ S.length := by
  have hremove := (pool_update (fun i => rows (a, i)) hi []).length_eq
  simp only [List.nil_append, List.length_append] at hremove
  rw [← hw.perm.length_eq]
  omega

theorem WellFormed.nodup (hw : WellFormed L h a rows S) : S.Nodup := by
  rw [← hw.perm.nodup_iff, pool, List.nodup_flatMap]
  refine ⟨fun i hi => hw.chains.nodup ⟨rfl, List.mem_range.mp hi⟩, ?_⟩
  refine List.nodup_range.pairwise_of_forall_ne fun i hi j hj hij x hxi => ?_
  exact hw.chains.notMem ⟨rfl, List.mem_range.mp hi⟩ ⟨rfl, List.mem_range.mp hj⟩
    (by simpa using hij) hxi

theorem Holds.four_le (hh : Holds L h a rows S) : 4 ≤ h.bucketCnt := by
  obtain ⟨k, hk, hcnt⟩ := hh.power
  rw [hcnt]
  exact Nat.pow_le_pow_right (Nat.zero_lt_two) hk

theorem Holds.wellFormed (hh : Holds L h a rows S) : WellFormed L h a rows S :=
  ⟨hh.buckets, Nat.zero_lt_of_lt hh.four_le, hh.chains, hh.perm, hh.count⟩

theorem WellFormed.holds (hw : WellFormed L h a rows S)
    (hpower : ∃ k, 2 ≤ k ∧ h.bucketCnt = 2 ^ k) : Holds L h a rows S :=
  ⟨hw.buckets, hpower, hw.chains, hw.perm, hw.count⟩

theorem Holds.mem (hh : Holds L h a rows S) : e ∈ S ↔ ∃ i < h.bucketCnt, e ∈ rows (a, i) :=
  hh.wellFormed.mem

theorem Holds.length_le (hh : Holds L h a rows S) (hi : i < h.bucketCnt) :
    (rows (a, i)).length ≤ S.length := hh.wellFormed.length_le hi

theorem Holds.nodup (hh : Holds L h a rows S) : S.Nodup := hh.wellFormed.nodup

theorem Holds.weaken {L' : ε → Prop} (hh : Holds L h a rows S) (hL : ∀ e, L' e → L e) :
    Holds L' h a rows S :=
  ⟨hh.buckets, hh.power, ⟨hh.chains.family, fun e he => hh.chains.elems e (hL e he)⟩, hh.perm,
    hh.count⟩

/-- `Chains.setElem`, for a whole table. -/
theorem Holds.setElem [DecidableEq ε] {L' : ε → Prop} {l : Option (Link (HashAddr ε))}
    (hh : Holds L h a rows S) (he : e ∉ S) (hL : ∀ x, L' x → x ≠ e → L x)
    (hl : L' e → l.isSome = true) :
    Holds L' { h with links := Function.update h.links (.elem e) l } a rows S := by
  refine ⟨hh.buckets, hh.power, hh.chains.setElem ?_ hL hl, hh.perm, hh.count⟩
  rintro ⟨_, j⟩ ⟨rfl, hj⟩ hmem
  exact he (hh.mem.mpr ⟨j, hj, hmem⟩)

section Shapes

variable [DecidableEq ε]

/-- The buckets of an array with the given elements. -/
def bucketCells (rows : List (List ε)) : List (CList (HashAddr ε) × List (HashAddr ε)) :=
  rows.mapIdx fun i xs => (bucketAt 0 i, xs.map .elem)

/-- A table whose buckets hold the given elements. -/
def Hash.ofRows (rows : List (List ε)) : Hash ε :=
  ⟨rows.flatten.length, rows.length, some 0, memoryOf (bucketCells rows)⟩

/-- A table may have any number of buckets, and they may hold anything. -/
theorem wellFormed_ofRows {rows : List (List ε)} (hne : rows ≠ [])
    (hnodup : ((bucketCells rows).flatMap fun l => l.1.row l.2).Nodup) :
    WellFormed L (.ofRows rows) 0 (fun p => rows.getD p.2 []) rows.flatten := by
  have hcell (i : Nat) (hi : i < rows.length) :
      (bucketCells rows)[i]? = some (bucketAt 0 i, (rows.getD i []).map .elem) := by
    simp [bucketCells, hi]
  refine ⟨rfl, List.length_pos_iff.mpr hne, ⟨⟨?_, ?_⟩, fun e _ => ?_⟩, ?_, rfl⟩
  · rintro ⟨_, i⟩ ⟨rfl, hi⟩
    exact isList_memoryOf hnodup _ (List.mem_of_getElem? (hcell i hi))
  · have hdisj := List.pairwise_iff_getElem.mp (List.nodup_flatMap.mp hnodup).2
    have hlt {i j : Nat} (hij : i < j) (hj : j < rows.length) {x : HashAddr ε}
        (hxi : x ∈ (bucketAt 0 i).row ((rows.getD i []).map .elem)) :
        x ∉ (bucketAt 0 j).row ((rows.getD j []).map .elem) := by
      obtain ⟨hi', hgeti⟩ := List.getElem?_eq_some_iff.mp (hcell i (Nat.lt_trans hij hj))
      obtain ⟨hj', hgetj⟩ := List.getElem?_eq_some_iff.mp (hcell j hj)
      have hpair := hdisj i j hi' hj' hij
      rw [hgeti, hgetj] at hpair
      exact fun hxj => hpair hxi hxj
    rintro ⟨_, i⟩ ⟨_, j⟩ ⟨rfl, hi⟩ ⟨rfl, hj⟩ hij x hxi hxj
    rcases Nat.lt_or_gt_of_ne (fun heq => hij (congrArg _ heq) : i ≠ j) with hlt' | hlt'
    · exact hlt hlt' hj hxi hxj
    · exact hlt hlt' hi hxj hxi
  · exact isSome_memoryOf _ _
  · have hall : (List.range rows.length).map (fun i => rows.getD i []) = rows := by
      refine List.ext_getElem (by simp) fun i hi hi' => ?_
      simp [hi']
    show (List.flatMap _ _).Perm _
    rw [List.flatMap_def]
    exact .of_eq (congrArg _ hall)

end Shapes

section Search

variable {hash : ε → UInt32} {less : ε → ε → Bool}

/-- Neither is less. -/
def same (less : ε → ε → Bool) (e x : ε) : Bool := !less x e && !less e x

theorem run_getBuckets (hbuckets : h.buckets = some a) : getBuckets.run h = some (a, h) := by
  change Option.map _ h.buckets = _
  rw [hbuckets]
  rfl

theorem run_findBucket (hbuckets : h.buckets = some a) (e : ε) :
    (findBucket hash e).run h = some (bucketAt a (bucketIdx hash h.bucketCnt e), h) := by
  rw [findBucket, run_bind_of (run_getBuckets hbuckets)]
  rfl

variable [DecidableEq ε]

theorem run_findElemLoop {bucket : CList (HashAddr ε)} {A B : List ε} {fuel : Nat}
    (hl : IsList links bucket ((A ++ B).map .elem)) (hfuel : B.length < fuel) :
    (findElemLoop less bucket e fuel (first (B.map .elem) (some bucket.tail))).run links =
      some (B.find? (same less e), links) := by
  induction fuel generalizing A B with
  | zero => exact absurd hfuel (Nat.not_lt_zero _)
  | succ fuel ih =>
      cases B with
      | nil =>
          rw [findElemLoop.eq_def]
          simp [listEnd]
      | cons x B =>
          have hne : some (HashAddr.elem x) ≠ listEnd bucket := by
            simpa [listEnd] using hl.ne_tail (x := .elem x) (by simp)
          rw [List.map_cons, first_cons, findElemLoop, if_neg hne, List.find?_cons]
          cases hsame : same less e x with
          | true =>
              have htest : (!less x e && !less e x) = true := hsame
              simp [htest]
          | false =>
              have htest : ¬ (!less x e && !less e x) = true := by simpa [same] using hsame
              have hnext := run_listNext_at
                (show IsList links bucket (A.map .elem ++ .elem x :: B.map .elem) by simpa using hl)
              have hrest := ih (show IsList links bucket (((A ++ [x]) ++ B).map .elem) by
                simpa using hl) (by simpa using hfuel)
              simp only [if_neg htest]
              rw [run_bind_of hnext]
              exact hrest

theorem run_findElem {fuel : Nat} (hh : Holds L h a rows S) (hi : i < h.bucketCnt)
    (hfuel : S.length < fuel) (e : ε) :
    (findElem less fuel (bucketAt a i) e).run h =
      some ((rows (a, i)).find? (same less e), h) := by
  have hl : IsList h.links (bucketAt a i) (([] ++ rows (a, i)).map .elem) :=
    hh.chains.isList ⟨rfl, hi⟩
  refine run_onBuckets ?_
  rw [run_bind_of (run_listBegin hl)]
  exact run_findElemLoop hl (Nat.lt_of_le_of_lt (hh.length_le hi) hfuel)

/-- The element goes to a bucket, and is counted. -/
theorem run_insertElem (hh : Holds L h a rows S) (hi : i < h.bucketCnt) (hL : L e) (he : e ∉ S) :
    ∃ links', (insertElem (bucketAt a i) e).run h =
        some ((), { h with links := links', elemCnt := h.elemCnt + 1 }) ∧
      Holds L { h with links := links', elemCnt := h.elemCnt + 1 } a
        (Function.update rows (a, i) (e :: rows (a, i))) (e :: S) := by
  obtain ⟨links', hrun, hc⟩ := Chains.run_pushFront
    (h := { h with elemCnt := h.elemCnt + 1 }) hh.chains ⟨rfl, hi⟩ (hh.chains.elems e hL) (by
      rintro ⟨_, j⟩ ⟨rfl, hj⟩ hmem
      exact he (hh.mem.mpr ⟨j, hj, hmem⟩))
  refine ⟨links', hrun, hh.buckets, hh.power, hc, ?_, ?_⟩
  · rw [update_left]
    exact (pool_insert _ hi e).trans (hh.perm.cons e)
  · rw [List.length_cons, ← hh.count]

/-- The element leaves its bucket, and is not counted any more. -/
theorem run_removeElem {A B : List ε} (hh : Holds L h a rows S) (hi : i < h.bucketCnt)
    (hAB : rows (a, i) = A ++ e :: B) :
    ∃ links', (removeElem e).run h =
        some ((), { h with links := links', elemCnt := h.elemCnt - 1 }) ∧
      Holds L { h with links := links', elemCnt := h.elemCnt - 1 } a
        (Function.update rows (a, i) (A ++ B)) (S.erase e) := by
  have he : e ∈ S := hh.mem.mpr ⟨i, hi, by simp [hAB]⟩
  obtain ⟨links', hrun, hc, _, _⟩ := Chains.run_remove
    (h := { h with elemCnt := h.elemCnt - 1 }) hh.chains ⟨rfl, hi⟩ hAB
  refine ⟨links', ?_, hh.buckets, hh.power, hc, ?_, ?_⟩
  · rw [removeElem, run_bind_of (t := { h with elemCnt := h.elemCnt - 1 }) rfl, run_bind_of hrun]
    rfl
  · rw [update_left]
    have hperm := ((pool_remove _ hi hAB).symm.trans hh.perm).erase e
    rwa [List.erase_cons_head] at hperm
  · rw [List.length_erase_of_mem he, ← hh.count]

end Search

end SystemProgramming.Testlib
