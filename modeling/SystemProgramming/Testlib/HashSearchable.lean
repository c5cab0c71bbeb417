import SystemProgramming.Testlib.HashItems

/-!
The commands on a hash table. No command fails, whatever is in which bucket.
A table is searchable when no two items have the same value and every item is
in the bucket of its value; all commands but `hash_apply` keep it so.
-/

namespace SystemProgramming.Testlib

open SystemProgramming.Library

variable {s : HashInterp} {a : Nat} {rows : Nat × Nat → List HashItem} {S : List HashItem}
  {values values' : Nat → Option Int} {e x : HashItem} {n cnt fuel : Nat} {v : Int}
  {memory : HashMalloc}

/-- The table has all the items; `n` bounds their number and the number of the buckets. -/
structure HashInterp.Table (s : HashInterp) (a : Nat) (rows : Nat × Nat → List HashItem)
    (S : List HashItem) (n : Nat) : Prop where
  owns : s.Owns a rows S []
  length_le : S.length ≤ n
  bucketCnt_le : s.hash.bucketCnt ≤ n

/-- No two items have the same value. -/
def Unique (values : Nat → Option Int) : Prop :=
  ∀ n m v, values n = some v → values m = some v → n = m

structure HashInterp.Good (s : HashInterp) (a : Nat) (rows : Nat × Nat → List HashItem) :
    Prop where
  placed : Placed (hashFunc s.values) s.hash.bucketCnt a rows
  unique : Unique s.values

/-! ### Searching by value -/

theorem same_hashLess :
    same (hashLess values) e x = true ↔ itemValue values e = itemValue values x := by
  simp only [same, hashLess, Bool.and_eq_true, Bool.not_eq_true', decide_eq_false_iff_not]
  omega

theorem Placed.congr {hash hash' : HashItem → UInt32} (hplaced : Placed hash cnt a rows)
    (heq : ∀ i < cnt, ∀ e ∈ rows (a, i), hash' e = hash e) : Placed hash' cnt a rows := by
  intro i hi e he
  rw [bucketIdx, heq i hi e he]
  exact hplaced i hi e he

theorem itemValue_ne {L : HashItem → Prop} {h : Hash HashItem}
    (hh : Holds L h a rows S) (hplaced : Placed (hashFunc values) h.bucketCnt a rows)
    (hnone : lookup (hashFunc values) (hashLess values) h.bucketCnt a rows e = none)
    (hx : x ∈ S) : itemValue values e ≠ itemValue values x := by
  intro heq
  obtain ⟨i, hi, hmem⟩ := hh.mem.mp hx
  have hidx : bucketIdx (hashFunc values) h.bucketCnt e = i := by
    rw [← hplaced i hi x hmem, bucketIdx, bucketIdx, hashFunc, hashFunc, heq]
  rw [lookup, hidx] at hnone
  exact List.find?_eq_none.mp hnone x hmem (same_hashLess.mpr heq)

theorem lookup_found {L : HashItem → Prop} {h : Hash HashItem} (hh : Holds L h a rows S)
    (hfound : lookup (hashFunc values) (hashLess values) h.bucketCnt a rows e = some x) :
    x ∈ S ∧ itemValue values e = itemValue values x :=
  ⟨hh.mem.mpr ⟨_, bucketIdx_lt _ hh.power e, List.mem_of_find?_eq_some hfound⟩,
    same_hashLess.mp (List.find?_some hfound)⟩

@[simp] theorem itemValue_update_self {o : Option Int} :
    itemValue (Function.update values n o) (.item n) = o.getD 0 := by
  rw [itemValue, Function.update_self]

theorem itemValue_update_of_ne {o : Option Int} (hx : x ≠ .item n) :
    itemValue (Function.update values n o) x = itemValue values x := by
  cases x with
  | item m =>
      rw [itemValue, itemValue, Function.update_of_ne]
      simpa using hx
  | temp w => rfl

theorem itemValue_of_some (hv : values n = some v) : itemValue values (.item n) = v := by
  rw [itemValue, hv]
  rfl

theorem Unique.insert (hu : Unique values) (hne : ∀ m, values m ≠ some v) :
    Unique (Function.update values n (some v)) := by
  intro m k w hm hk
  by_cases hmn : m = n <;> by_cases hkn : k = n
  · rw [hmn, hkn]
  · rw [hmn, Function.update_self] at hm
    rw [Function.update_of_ne hkn, ← hm] at hk
    exact absurd hk (hne k)
  · rw [hkn, Function.update_self] at hk
    rw [Function.update_of_ne hmn, ← hk] at hm
    exact absurd hm (hne m)
  · rw [Function.update_of_ne hmn] at hm
    rw [Function.update_of_ne hkn] at hk
    exact hu m k w hm hk

theorem Unique.remove (hu : Unique values) : Unique (Function.update values n none) := by
  intro m k w hm hk
  by_cases hmn : m = n
  · rw [hmn, Function.update_self] at hm
    cases hm
  · by_cases hkn : k = n
    · rw [hkn, Function.update_self] at hk
      cases hk
    · rw [Function.update_of_ne hmn] at hm
      rw [Function.update_of_ne hkn] at hk
      exact hu m k w hm hk

/-- The value of an item that is in no row does not matter. -/
theorem Placed.update {L : HashItem → Prop} {h : Hash HashItem} {o : Option Int}
    (hplaced : Placed (hashFunc values) h.bucketCnt a rows) (hh : Holds L h a rows S)
    (hn : .item n ∉ S) : Placed (hashFunc (Function.update values n o)) h.bucketCnt a rows := by
  refine hplaced.congr fun i hi x hx => ?_
  rw [hashFunc, itemValue_update_of_ne, hashFunc]
  rintro rfl
  exact hn (hh.mem.mpr ⟨i, hi, hx⟩)

theorem run_withValues {β : Type} {y : β} {h' : Hash HashItem}
    {prog : (HashItem → UInt32) → (HashItem → HashItem → Bool) → HashProg HashItem β}
    (hrun : (prog (hashFunc s.values) (hashLess s.values)).run s.hash = some (y, h')) :
    (withValues prog).run s = some (y, { s with hash := h' }) := by
  change Option.map _ _ = _
  rw [hrun]
  rfl

theorem run_onTable {β : Type} {y : β} {h' : Hash HashItem} {prog : HashProg HashItem β}
    (hrun : prog.run s.hash = some (y, h')) :
    (onTable prog).run s = some (y, { s with hash := h' }) := by
  change Option.map _ _ = _
  rw [hrun]
  rfl

/-! ### Commands -/

/-- The command succeeds, and keeps what is searchable so. -/
def KeepsGood (cmd : HashCmd Unit) (s : HashInterp) (a : Nat) (rows : Nat × Nat → List HashItem)
    (n : Nat) : Prop :=
  ∃ s' a' rows' S', cmd.run s = some ((), s') ∧ s'.Table a' rows' S' n ∧
    (s.Good a rows → s'.Good a' rows')

namespace HashInterp.Table

theorem mono {m : Nat} (ht : s.Table a rows S n) (hnm : n ≤ m) : s.Table a rows S m :=
  ⟨ht.owns, Nat.le_trans ht.length_le hnm, Nat.le_trans ht.bucketCnt_le hnm⟩

theorem keepsGood_pure (ht : s.Table a rows S n) : KeepsGood (pure ()) s a rows (n + 1) :=
  ⟨s, a, rows, S, rfl, ht.mono (Nat.le_succ n), id⟩

/-- Searching finds nothing only if no item has the value. -/
theorem values_ne (ht : s.Table a rows S n) (hgood : s.Good a rows) {values' : Nat → Option Int}
    {k : Nat} (hk : s.values k = none)
    (hvalues : values' = Function.update s.values k (some v))
    (hnone : lookup (hashFunc values') (hashLess values') s.hash.bucketCnt a rows (.item k) = none)
    (m : Nat) : s.values m ≠ some v := by
  intro hm
  have hnot : HashItem.item k ∉ S := fun hmem => by
    have halloc := (ht.owns.allocated _).mpr (.inl hmem)
    rw [Allocated, hk] at halloc
    exact Bool.noConfusion halloc
  have hmem : HashItem.item m ∈ S := by
    have hor := (ht.owns.allocated (.item m)).mp (by rw [Allocated, hm]; rfl)
    simpa using hor
  have hmk : HashItem.item m ≠ .item k := by
    rintro heq
    exact hnot (heq ▸ hmem)
  subst hvalues
  refine itemValue_ne ht.owns.holds (hgood.placed.update ht.owns.holds hnot) hnone hmem ?_
  rw [itemValue_update_self, itemValue_update_of_ne hmk, itemValue_of_some hm]
  rfl

theorem bucketCnt_le_of_keeps (ht : s.Table a rows S n) {hash : HashItem → UInt32}
    {h h' : Hash HashItem} {a' : Nat} {rows' : Nat × Nat → List HashItem}
    (hcnt : h.bucketCnt = s.hash.bucketCnt)
    (hkeeps : Keeps hash h a rows h' a' rows' (S.length + 1)) : h'.bucketCnt ≤ n + 1 := by
  have hle := hkeeps.bucketCnt_le
  have hold := ht.bucketCnt_le
  have hlength := ht.length_le
  omega

end HashInterp.Table

/-- Of an item that is in no bucket only the memory is left. -/
theorem HashInterp.Owns.run_freeLast {m : Nat} (ho : s.Owns a rows S [.item m])
    (hlength : S.length ≤ n) (hcnt : s.hash.bucketCnt ≤ n) :
    ∃ s', (freeHashItem (.item m)).run s = some ((), s') ∧ s'.Table a rows S n ∧
      s'.values = Function.update s.values m none ∧
      (Placed (hashFunc s.values) s.hash.bucketCnt a rows → Unique s'.values →
        s'.Good a rows) := by
  obtain ⟨s', hfree, ho', hvalues, _, hcnt'⟩ := ho.run_freeHashItem List.not_mem_nil
  refine ⟨s', hfree, ⟨ho', hlength, hcnt' ▸ hcnt⟩, hvalues, fun hplaced hunique => ⟨?_, hunique⟩⟩
  rw [hvalues, hcnt']
  exact hplaced.update ho.holds (ho.apart _ List.mem_cons_self)

/-- `s₁` is `s` with a new item `k`, which is in no bucket yet. -/
structure HashInterp.Made (s s₁ : HashInterp) (a : Nat) (rows : Nat × Nat → List HashItem)
    (S : List HashItem) (k : Nat) (v : Int) : Prop where
  owns : s₁.Owns a rows S [.item k]
  fresh : s.values k = none
  values : s₁.values = Function.update s.values k (some v)
  bucketCnt : s₁.hash.bucketCnt = s.hash.bucketCnt

namespace HashInterp.Made

variable {s₁ : HashInterp} {k a' : Nat} {h' : Hash HashItem}
  {rows' : Nat × Nat → List HashItem}

theorem apart (hm : s.Made s₁ a rows S k v) : .item k ∉ S := hm.owns.apart _ List.mem_cons_self

theorem allocated (hm : s.Made s₁ a rows S k v) : Allocated s₁.values (.item k) :=
  (hm.owns.allocated _).mpr (.inr List.mem_cons_self)

theorem placed (hm : s.Made s₁ a rows S k v) (ht : s.Table a rows S n)
    (hkeeps : Keeps (hashFunc s₁.values) s₁.hash a rows h' a' rows' (S.length + 1))
    (hgood : s.Good a rows) : Placed (hashFunc s₁.values) h'.bucketCnt a' rows' := by
  refine hkeeps.placed ?_
  rw [hm.values, hm.bucketCnt]
  exact hgood.placed.update ht.owns.holds hm.apart

/-- The new item is put into its bucket, because nothing there has its value. -/
theorem joined (hm : s.Made s₁ a rows S k v) (ht : s.Table a rows S n)
    (hh' : Holds (Allocated s₁.values) h' a' rows' (.item k :: S))
    (hkeeps : Keeps (hashFunc s₁.values) s₁.hash a rows h' a' rows' (S.length + 1))
    (hnone : lookup (hashFunc s₁.values) (hashLess s₁.values) s₁.hash.bucketCnt a rows (.item k) =
      none) :
    ({ s₁ with hash := h' } : HashInterp).Table a' rows' (.item k :: S) (n + 1) ∧
      (s.Good a rows → ({ s₁ with hash := h' } : HashInterp).Good a' rows') := by
  have hperm : (S ++ [HashItem.item k]).Perm (HashItem.item k :: S ++ []) := by
    rw [List.append_nil]
    exact List.perm_append_singleton ..
  refine ⟨⟨hm.owns.onTable hh' hperm (List.nodup_singleton _), Nat.succ_le_succ ht.length_le,
    ht.bucketCnt_le_of_keeps hm.bucketCnt hkeeps⟩, fun hgood => ⟨hm.placed ht hkeeps hgood, ?_⟩⟩
  change Unique s₁.values
  rw [hm.values]
  refine hgood.unique.insert (ht.values_ne hgood hm.fresh hm.values ?_)
  rw [← hm.bucketCnt]
  exact hnone

end HashInterp.Made

namespace HashInterp.Table

theorem exists_made (ht : s.Table a rows S n) (asked : Nat) (garbage : Link (HashAddr HashItem))
    (v : Int) : ∃ s₁, (makeHashItem (some (asked, garbage)) v).run s =
      some (some (.item (s.fresh asked)), s₁) ∧ s.Made s₁ a rows S (s.fresh asked) v := by
  obtain ⟨s₁, hmake, ho, hvalues, _, hcnt⟩ := ht.owns.run_makeHashItem asked garbage v
  exact ⟨s₁, hmake, ho, ht.owns.fresh asked, hvalues, hcnt⟩

theorem run_insert (ht : s.Table a rows S n) (hfuel : n + 5 ≤ fuel) (v : Int) :
    KeepsGood (doHashCommand fuel memory (.insert v)) s a rows (n + 1) := by
  obtain ⟨item, buckets⟩ := memory
  cases item with
  | none => exact ht.keepsGood_pure
  | some item =>
      obtain ⟨asked, garbage⟩ := item
      obtain ⟨s₁, hmake, hm⟩ := ht.exists_made asked garbage v
      have hlength := ht.length_le
      obtain ⟨h', a', rows', hrun, hh', hkeeps⟩ := hm.owns.holds.run_hashInsert
        (show _ ≤ fuel by omega) (hashFunc s₁.values) (hashLess s₁.values) buckets hm.allocated
        fun _ => hm.apart
      have hop : (withValues fun hash less => hashInsert hash less fuel buckets
          (.item (s.fresh asked))).run s₁ = some (_, { s₁ with hash := h' }) := run_withValues hrun
      cases hfound : lookup (hashFunc s₁.values) (hashLess s₁.values) s₁.hash.bucketCnt a rows
          (.item (s.fresh asked)) with
      | none =>
          rw [hfound] at hop hh'
          obtain ⟨ht', hgood⟩ := hm.joined ht hh' hkeeps hfound
          refine ⟨_, a', rows', _, ?_, ht', hgood⟩
          refine (run_bind_of hmake).trans ((run_bind_of hop).trans ?_)
          rfl
      | some x =>
          rw [hfound] at hop hh'
          have ho' := hm.owns.onTable hh' (.refl _) (List.nodup_singleton _)
          obtain ⟨s', hfree, ht', hvalues, hgood⟩ := ho'.run_freeLast
            (Nat.le_succ_of_le hlength) (ht.bucketCnt_le_of_keeps hm.bucketCnt hkeeps)
          have hsame : s'.values = s.values := by
            rw [hvalues, hm.values, Function.update_idem, ← hm.fresh, Function.update_eq_self]
          exact ⟨s', a', rows', _, (run_bind_of hmake).trans ((run_bind_of hop).trans hfree), ht',
            fun hs => hgood (hm.placed ht hkeeps hs) (hsame ▸ hs.unique)⟩

theorem run_replace (ht : s.Table a rows S n) (hfuel : n + 5 ≤ fuel) (v : Int) :
    KeepsGood (doHashCommand fuel memory (.replace v)) s a rows (n + 1) := by
  obtain ⟨item, buckets⟩ := memory
  cases item with
  | none => exact ht.keepsGood_pure
  | some item =>
      obtain ⟨asked, garbage⟩ := item
      obtain ⟨s₁, hmake, hm⟩ := ht.exists_made asked garbage v
      have hlength := ht.length_le
      obtain ⟨h', a', rows', hrun, hh', hkeeps⟩ := hm.owns.holds.run_hashReplace
        (show _ ≤ fuel by omega) (hashFunc s₁.values) (hashLess s₁.values) buckets hm.allocated
        fun hmem => hm.apart (mem_of_mem_without hmem)
      have hop : (withValues fun hash less => hashReplace hash less fuel buckets
          (.item (s.fresh asked))).run s₁ = some (_, { s₁ with hash := h' }) := run_withValues hrun
      cases hfound : lookup (hashFunc s₁.values) (hashLess s₁.values) s₁.hash.bucketCnt a rows
          (.item (s.fresh asked)) with
      | none =>
          rw [hfound] at hop hh'
          obtain ⟨ht', hgood⟩ := hm.joined ht hh' hkeeps hfound
          exact ⟨_, a', rows', _, (run_bind_of hmake).trans (run_bind_of hop), ht', hgood⟩
      | some x =>
          rw [hfound] at hop hh'
          obtain ⟨hx, heq⟩ := lookup_found hm.owns.holds hfound
          obtain ⟨m, w, rfl, hw⟩ := ((hm.owns.allocated x).mpr (.inl hx)).exists
          have hne : m ≠ s.fresh asked := fun hmk => hm.apart (hmk ▸ hx)
          have hperm : (S ++ [HashItem.item (s.fresh asked)]).Perm
              (HashItem.item (s.fresh asked) :: S.erase (.item m) ++ [.item m]) := by
            refine (List.perm_append_singleton ..).trans (List.Perm.cons _ ?_)
            exact (List.perm_cons_erase hx).trans (List.perm_append_singleton ..).symm
          have hle : (HashItem.item (s.fresh asked) :: S.erase (.item m)).length ≤ n + 1 :=
            Nat.succ_le_succ (Nat.le_trans List.length_erase_le hlength)
          have ho' := hm.owns.onTable hh' hperm (List.nodup_singleton _)
          obtain ⟨s', hfree, ht', hvalues, hgood⟩ := ho'.run_freeLast hle
            (ht.bucketCnt_le_of_keeps hm.bucketCnt hkeeps)
          refine ⟨s', a', rows', _, (run_bind_of hmake).trans ((run_bind_of hop).trans hfree), ht',
            fun hs => hgood (hm.placed ht hkeeps hs) ?_⟩
          -- the item that is freed is the one that had the value
          rw [hm.values, Function.update_of_ne hne] at hw
          rw [hm.values, itemValue_update_self, itemValue_update_of_ne (by simpa using hne),
            itemValue_of_some hw] at heq
          obtain rfl : v = w := heq
          have hvalues' : s'.values =
              Function.update (Function.update s.values m none) (s.fresh asked) (some v) := by
            rw [hvalues, hm.values, Function.update_comm hne.symm]
          rw [hvalues']
          refine hs.unique.remove.insert fun j hj => ?_
          by_cases hjm : j = m
          · rw [hjm, Function.update_self] at hj
            cases hj
          · rw [Function.update_of_ne hjm] at hj
            exact hjm (hs.unique j m _ hj hw)

theorem run_delete (ht : s.Table a rows S n) (hfuel : n + 5 ≤ fuel) (v : Int) :
    KeepsGood (doHashCommand fuel memory (.delete v)) s a rows (n + 1) := by
  have hlength := ht.length_le
  obtain ⟨h', a', rows', hrun, hh', hkeeps⟩ := ht.owns.holds.run_hashDelete
    (show _ ≤ fuel by omega) (hashFunc s.values) (hashLess s.values) memory.buckets (.temp v)
  have hbound := ht.bucketCnt_le_of_keeps rfl hkeeps
  have hop : (withValues fun hash less => hashDelete hash less fuel memory.buckets
      (.temp v)).run s = some (_, { s with hash := h' }) := run_withValues hrun
  cases hfound : lookup (hashFunc s.values) (hashLess s.values) s.hash.bucketCnt a rows
      (.temp v) with
  | none =>
      rw [hfound] at hop hh'
      refine ⟨_, a', rows', S, run_bind_of hop, ⟨ht.owns.onTable hh' (.refl _) List.nodup_nil,
        Nat.le_succ_of_le hlength, hbound⟩, fun hgood => ⟨hkeeps.placed hgood.placed, hgood.unique⟩⟩
  | some x =>
      rw [hfound] at hop hh'
      obtain ⟨hx, _⟩ := lookup_found ht.owns.holds hfound
      obtain ⟨m, w, rfl, hw⟩ := ((ht.owns.allocated x).mpr (.inl hx)).exists
      have hperm : (S ++ []).Perm (S.erase (HashItem.item m) ++ [HashItem.item m]) := by
        rw [List.append_nil]
        exact (List.perm_cons_erase hx).trans (List.perm_append_singleton ..).symm
      have hle : (S.erase (HashItem.item m)).length ≤ n + 1 :=
        Nat.le_succ_of_le (Nat.le_trans List.length_erase_le hlength)
      have ho' := ht.owns.onTable hh' hperm List.nodup_nil
      obtain ⟨s', hfree, ht', hvalues, hgood⟩ := ho'.run_freeLast hle hbound
      refine ⟨s', a', rows', _, (run_bind_of hop).trans hfree, ht',
        fun hs => hgood (hkeeps.placed hs.placed) ?_⟩
      rw [hvalues]
      exact hs.unique.remove

theorem setOut (ht : s.Table a rows S n) (out : String) :
    ({ s with out := out } : HashInterp).Table a rows S n :=
  ⟨⟨ht.owns.holds, ht.owns.allocated, ht.owns.apart, ht.owns.brk⟩, ht.length_le, ht.bucketCnt_le⟩

theorem keepsGood_print (ht : s.Table a rows S n) {cmd : HashCmd Unit} {out : String}
    (hrun : cmd.run s = some ((), { s with out := out })) : KeepsGood cmd s a rows (n + 1) :=
  ⟨_, a, rows, S, hrun, (ht.setOut out).mono (Nat.le_succ n), fun hgood =>
    ⟨hgood.placed, hgood.unique⟩⟩

/-- What `hash_find` prints, wherever the items are, has the value asked for; and in a
searchable table it finds the value of every item. -/
theorem run_find (ht : s.Table a rows S n) (hfuel : n < fuel) (memory : HashMalloc) (v : Int) :
    ∃ text, (doHashCommand fuel memory (.find v)).run s =
        some ((), { s with out := s.out ++ text }) ∧
      (s.Good a rows →
        text = if v ∈ S.map (itemValue s.values) then toString v ++ "\n" else "") := by
  have hfind : (withValues fun hash less => hashFind hash less fuel (.temp v)).run s =
      some (_, { s with hash := s.hash }) :=
    run_withValues (ht.owns.holds.run_hashFind (Nat.lt_of_le_of_lt ht.length_le hfuel) _)
  cases hfound : lookup (hashFunc s.values) (hashLess s.values) s.hash.bucketCnt a rows
      (.temp v) with
  | none =>
      rw [hfound] at hfind
      refine ⟨"", (run_bind_of hfind).trans ?_, fun hgood => ?_⟩
      · rw [String.append_empty]
        rfl
      · rw [if_neg]
        intro hmem
        obtain ⟨x, hx, hxv⟩ := List.mem_map.mp hmem
        exact itemValue_ne ht.owns.holds hgood.placed hfound hx hxv.symm
  | some x =>
      rw [hfound] at hfind
      obtain ⟨hx, heq⟩ := lookup_found ht.owns.holds hfound
      obtain ⟨m, w, rfl, hw⟩ := ((ht.owns.allocated x).mpr (.inl hx)).exists
      rw [itemValue_of_some hw] at heq
      obtain rfl : v = w := heq
      have hget : (getItemValue (.item m)).run s = some (v, s) := by
        change Option.map _ (s.values m) = _
        rw [hw]
        rfl
      refine ⟨toString v ++ "\n", (run_bind_of hfind).trans (run_bind_of hget), fun _ => ?_⟩
      rw [if_pos]
      exact List.mem_map.mpr ⟨_, hx, itemValue_of_some hw⟩

theorem run_clear (ht : s.Table a rows S n) (hfuel : n < fuel) :
    KeepsGood (doHashCommand fuel memory .clear) s a rows (n + 1) := by
  -- the destructor leaves no item allocated
  obtain ⟨h', rows', hrun, hh', hcnt⟩ := (ht.owns.holds.weaken fun _ => False.elim).run_hashClear
    (some fun _ => none) (fun _ _ _ _ => False.elim)
    (Nat.lt_of_le_of_lt ht.length_le hfuel)
  have hperm := ht.owns.holds.perm
  obtain ⟨s', hfree, ⟨hh'', hcnt'⟩, hnone, _⟩ := run_forM_freeHashItem (s := { s with hash := h' })
    (I := fun h => Holds (fun _ => False) h a rows' [] ∧ h.bucketCnt = h'.bucketCnt)
    (fun _ _ hh => ⟨hh.1.setElem List.not_mem_nil (fun _ hx _ => hx) False.elim, hh.2⟩)
    (pool (fun i => rows (a, i)) s.hash.bucketCnt) ⟨hh', rfl⟩
    (hperm.nodup_iff.mpr ht.owns.holds.nodup) fun e => by
      rw [hperm.mem_iff]
      simpa using ht.owns.allocated e
  have hfalse (e : HashItem) : ¬ Allocated s'.values e := by
    intro he
    obtain ⟨m, w, _, hw⟩ := he.exists
    rw [hnone m] at hw
    cases hw
  refine ⟨s', a, rows', [], (run_bind_of (run_onTable hrun)).trans hfree,
    ⟨⟨hh''.weaken hfalse, fun e => ?_, by simp, fun m _ => hnone m⟩, Nat.zero_le _, ?_⟩,
    fun _ => ⟨fun i hi x hx => ?_, fun m k w hm => ?_⟩⟩
  · simp [hfalse e]
  · rw [hcnt', hcnt]
    exact Nat.le_succ_of_le ht.bucketCnt_le
  · exact absurd (hh''.mem.mpr ⟨i, hi, hx⟩) List.not_mem_nil
  · rw [hnone m] at hm
    cases hm

end HashInterp.Table

/-! ### `hash_apply` -/

/-- The values of the items, in the order of their addresses. -/
def HashInterp.stored (s : HashInterp) : List Int := (List.range s.brk).filterMap s.values

theorem HashInterp.Table.mem_stored (ht : s.Table a rows S n) :
    v ∈ s.stored ↔ ∃ m, s.values m = some v := by
  rw [HashInterp.stored, List.mem_filterMap]
  refine ⟨fun ⟨m, _, hm⟩ => ⟨m, hm⟩, fun ⟨m, hm⟩ => ⟨m, List.mem_range.mpr ?_, hm⟩⟩
  by_contra hle
  rw [ht.owns.brk m (Nat.le_of_not_lt hle)] at hm
  cases hm

/-- No product of the action overflows. -/
def HashInterp.Fits (s : HashInterp) (action : HashAction) : Prop :=
  ∀ v ∈ s.stored, (action.value v).isSome = true

/-- The action keeps the values apart, and each in the bucket it is in. -/
def HashInterp.Compatible (s : HashInterp) (action : HashAction) : Prop :=
  (∀ v ∈ s.stored, ∀ w ∈ s.stored, action.value v = action.value w → v = w) ∧
    ∀ v ∈ s.stored, (action.value v).map (bucketIdx hashInt s.hash.bucketCnt) =
      some (bucketIdx hashInt s.hash.bucketCnt v)

instance (s : HashInterp) (action : HashAction) : Decidable (s.Fits action) :=
  inferInstanceAs (Decidable (∀ _ ∈ _, _))

instance (s : HashInterp) (action : HashAction) : Decidable (s.Compatible action) :=
  inferInstanceAs (Decidable (_ ∧ _))

theorem bucketIdx_item {m : Nat} (hv : values m = some v) :
    bucketIdx (hashFunc values) cnt (.item m) = bucketIdx hashInt cnt v := by
  rw [bucketIdx, hashFunc, itemValue_of_some hv]
  rfl

/-- Searchable behind the action is searchable by the values it has made. -/
theorem HashInterp.Table.good_apply_iff {action : HashAction} (ht : s.Table a rows S n)
    (hfits : s.Fits action) (hgood : s.Good a rows) :
    ({ s with values := fun m => (s.values m).bind action.value } : HashInterp).Good a rows ↔
      s.Compatible action := by
  constructor
  -- every item still is in the bucket of its value
  · intro hgood'
    refine ⟨fun v hv w hw hvw => ?_, fun v hv => ?_⟩
    · obtain ⟨m, hm⟩ := ht.mem_stored.mp hv
      obtain ⟨k, hk⟩ := ht.mem_stored.mp hw
      obtain ⟨u, hu⟩ := Option.isSome_iff_exists.mp (hfits v hv)
      have hmk := hgood'.unique m k u (by simp [hm, hu]) (by simp [hk, ← hvw, hu])
      rw [hmk, hk] at hm
      exact (Option.some.inj hm).symm
    · obtain ⟨m, hm⟩ := ht.mem_stored.mp hv
      obtain ⟨u, hu⟩ := Option.isSome_iff_exists.mp (hfits v hv)
      have hmem := (ht.owns.allocated (.item m)).mp (by rw [Allocated, hm]; rfl)
      obtain ⟨i, hi, hmem⟩ := ht.owns.holds.mem.mp (by simpa using hmem)
      have hold := hgood.placed i hi _ hmem
      have hnew := hgood'.placed i hi _ hmem
      rw [bucketIdx_item hm] at hold
      rw [bucketIdx_item (show (s.values m).bind action.value = some u by simp [hm, hu])] at hnew
      rw [hu, Option.map_some, hold]
      exact congrArg some hnew
  -- bucket by bucket and value by value
  · intro hc
    refine ⟨fun i hi e he => ?_, fun m k u hm hk => ?_⟩
    · obtain ⟨m, v, rfl, hv⟩ :=
        ((ht.owns.allocated e).mpr (.inl (ht.owns.holds.mem.mpr ⟨i, hi, he⟩))).exists
      obtain ⟨u, hu⟩ := Option.isSome_iff_exists.mp (hfits v (ht.mem_stored.mpr ⟨m, hv⟩))
      have hold := hgood.placed i hi _ he
      have hsame := hc.2 v (ht.mem_stored.mpr ⟨m, hv⟩)
      rw [bucketIdx_item hv] at hold
      rw [hu, Option.map_some, hold] at hsame
      rw [bucketIdx_item (show (s.values m).bind action.value = some u by simp [hv, hu])]
      exact Option.some.inj hsame
    · obtain ⟨v, hv, hvu⟩ := Option.bind_eq_some_iff.mp hm
      obtain ⟨w, hw, hwu⟩ := Option.bind_eq_some_iff.mp hk
      have hvw := hc.1 v (ht.mem_stored.mpr ⟨m, hv⟩) w (ht.mem_stored.mpr ⟨k, hw⟩)
        (hvu.trans hwu.symm)
      exact hgood.unique m k v hv (hvw ▸ hw)

/-- The values change, the items and their places do not. -/
theorem HashInterp.Table.run_apply {action : HashAction} (ht : s.Table a rows S n)
    (hfuel : n < fuel) (memory : HashMalloc) (hfits : s.Fits action) :
    ∃ s', (doHashCommand fuel memory (.apply (some action))).run s = some ((), s') ∧
      s'.Table a rows S n ∧ (s.Good a rows → (s'.Good a rows ↔ s.Compatible action)) := by
  have hperm := ht.owns.holds.perm
  have hitems : ∀ e ∈ pool (fun i => rows (a, i)) s.hash.bucketCnt,
      ∃ m v w, e = .item m ∧ s.values m = some v ∧ action.value v = some w := by
    intro e he
    obtain ⟨m, v, rfl, hv⟩ := ((ht.owns.allocated e).mpr (.inl (hperm.mem_iff.mp he))).exists
    exact ⟨m, v, _, rfl, hv, (Option.some_get (hfits v (ht.mem_stored.mpr ⟨m, hv⟩))).symm⟩
  have hact := run_forM_hashAction (s := { s with hash := s.hash })
    (hperm.nodup_iff.mpr ht.owns.holds.nodup) hitems
  have hvalues : action.onValues (pool (fun i => rows (a, i)) s.hash.bucketCnt) s.values =
      fun m => (s.values m).bind action.value := by
    funext m
    rw [HashAction.onValues]
    split
    next => rfl
    next hnot =>
      cases hm : s.values m with
      | none => rfl
      | some v =>
          have hmem := (ht.owns.allocated (.item m)).mp (by rw [Allocated, hm]; rfl)
          exact absurd (hperm.mem_iff.mpr (by simpa using hmem)) hnot
  rw [hvalues] at hact
  have hiff (e : HashItem) :
      Allocated (fun m => (s.values m).bind action.value) e ↔ Allocated s.values e := by
    cases e with
    | temp w => exact Iff.rfl
    | item m =>
        cases hm : s.values m with
        | none => simp [Allocated, hm]
        | some v => simp [Allocated, hm, hfits v (ht.mem_stored.mpr ⟨m, hm⟩)]
  refine ⟨_, (run_bind_of (run_onTable (ht.owns.holds.wellFormed.run_hashApply
    (Nat.lt_of_le_of_lt ht.length_le hfuel)))).trans hact, ?_, ht.good_apply_iff hfits⟩
  refine ⟨⟨ht.owns.holds.weaken fun e => (hiff e).mp, fun e => ?_, ht.owns.apart, fun m hm => ?_⟩,
    ht.length_le, ht.bucketCnt_le⟩
  · exact (hiff e).trans (ht.owns.allocated e)
  · change (s.values m).bind _ = none
    rw [ht.owns.brk m hm]
    rfl

/-! ### `dumpdata` -/

/-- What the loop prints for the items that are left. -/
def dumpRest (values : Nat → Option Int) (rest : List HashItem) : String :=
  String.join (rest.map fun x => " " ++ toString (itemValue values x))

theorem HashInterp.Table.run_dumpHashLoop_cons (ht : s.Table a rows S n) (hfuel : n < fuel)
    {it : HashIterator HashItem} {rest : List HashItem} (hit : it.At s.hash a rows (x :: rest))
    (hx : x ∈ S) (rounds : Nat) (atFirst : Bool) :
    ∃ it', (dumpHashLoop fuel (rounds + 1) it atFirst).run s =
        (dumpHashLoop fuel rounds it' false).run { s with
          out := s.out ++ (if atFirst then "" else " ") ++ toString (itemValue s.values x) } ∧
      it'.At s.hash a rows rest := by
  obtain ⟨it', hnext, helem, hit'⟩ :=
    ht.owns.holds.wellFormed.run_hashNext hit (Nat.lt_of_le_of_lt ht.bucketCnt_le hfuel)
  obtain ⟨m, v, rfl, hv⟩ := ((ht.owns.allocated x).mpr (.inl hx)).exists
  have hget (out : String) : (getItemValue (.item m)).run { s with out := out } =
      some (v, { s with out := out }) := by
    change Option.map _ (s.values m) = _
    rw [hv]
    rfl
  refine ⟨it', ?_, hit'⟩
  have hprint (text out : String) : (hashPrintf text).run { s with out := out } =
      some ((), { s with out := out ++ text }) := rfl
  rw [dumpHashLoop, run_bind_of (run_onTable hnext), helem, itemValue_of_some hv]
  cases atFirst with
  | true =>
      simp only [Bool.not_true, Bool.false_eq_true, if_false, if_true, String.append_empty]
      rw [run_bind_of (hget s.out), run_bind_of (hprint _ s.out)]
  | false =>
      simp only [Bool.not_false, Bool.false_eq_true, if_false, if_true]
      rw [run_bind_of (hprint " " s.out), run_bind_of (hget _), run_bind_of (hprint _ _)]

theorem HashInterp.Table.run_dumpHashLoop_nil (ht : s.Table a rows S n) (hfuel : n < fuel)
    {it : HashIterator HashItem} (hit : it.At s.hash a rows []) (rounds : Nat) (atFirst : Bool) :
    (dumpHashLoop fuel (rounds + 1) it atFirst).run s = some ((), s) := by
  obtain ⟨it', hnext, helem⟩ :=
    ht.owns.holds.wellFormed.run_hashNext hit (Nat.lt_of_le_of_lt ht.bucketCnt_le hfuel)
  have helem : it'.elem = none := helem
  rw [dumpHashLoop, run_bind_of (run_onTable hnext), helem]
  rfl

theorem HashInterp.Table.run_dumpHashLoop (ht : s.Table a rows S n) (hfuel : n < fuel)
    {it : HashIterator HashItem} {rest : List HashItem} (hit : it.At s.hash a rows rest)
    (hrest : ∀ x ∈ rest, x ∈ S) {rounds : Nat} (hrounds : rest.length < rounds) :
    (dumpHashLoop fuel rounds it false).run s =
      some ((), { s with out := s.out ++ dumpRest s.values rest }) := by
  induction rest generalizing s it rounds with
  | nil =>
      obtain ⟨rounds, rfl⟩ := Nat.exists_eq_add_one_of_ne_zero (Nat.ne_of_gt hrounds)
      rw [ht.run_dumpHashLoop_nil hfuel hit]
      simp [dumpRest]
  | cons x rest ih =>
      obtain ⟨rounds, rfl⟩ :=
        Nat.exists_eq_add_one_of_ne_zero (Nat.ne_of_gt (Nat.zero_lt_of_lt hrounds))
      obtain ⟨it', hrun, hit'⟩ :=
        ht.run_dumpHashLoop_cons hfuel hit (hrest x List.mem_cons_self) rounds false
      have hloop := ih (ht.setOut (s.out ++ " " ++ toString (itemValue s.values x))) hit'
        (fun y hy => hrest y (List.mem_cons_of_mem x hy)) (Nat.lt_of_succ_lt_succ hrounds)
      refine hrun.trans (hloop.trans ?_)
      simp [dumpRest, String.append_assoc]

/-- `dumpdata` prints the value of every item once. -/
theorem HashInterp.Table.run_dumpHash (ht : s.Table a rows S n) (hfuel : n < fuel) :
    ∃ vs : List Int, (dumpHash fuel).run s = some ((), { s with
        out := s.out ++ (String.intercalate " " (vs.map toString) ++ "\n") }) ∧
      vs.Perm (S.map (itemValue s.values)) := by
  obtain ⟨it, hfirst, hit⟩ := ht.owns.holds.wellFormed.run_hashFirst
  have hperm := ht.owns.holds.perm
  refine ⟨(pool (fun i => rows (a, i)) s.hash.bucketCnt).map (itemValue s.values), ?_,
    hperm.map _⟩
  have hlength := hperm.length_eq
  have hmem (x : HashItem) := (hperm.mem_iff (a := x)).mp
  obtain ⟨fuel, rfl⟩ := Nat.exists_eq_add_one_of_ne_zero (Nat.ne_of_gt (Nat.zero_lt_of_lt hfuel))
  have hlt : S.length < fuel + 1 := Nat.lt_of_le_of_lt ht.length_le hfuel
  refine (run_bind_of (run_onTable hfirst)).trans ?_
  generalize pool (fun i => rows (a, i)) s.hash.bucketCnt = items at hit hlength hmem ⊢
  cases items with
  | nil =>
      rw [run_bind_of (ht.run_dumpHashLoop_nil hfuel hit fuel true)]
      rfl
  | cons x rest =>
      obtain ⟨it', hrun, hit'⟩ :=
        ht.run_dumpHashLoop_cons hfuel hit (hmem x List.mem_cons_self) fuel true
      rw [List.length_cons] at hlength
      have hloop := (ht.setOut (s.out ++ toString (itemValue s.values x))).run_dumpHashLoop hfuel
        hit' (fun y hy => hmem y (List.mem_cons_of_mem x hy)) (show rest.length < fuel by omega)
      rw [run_bind_of ((hrun.trans (by simp)).trans hloop)]
      simp [dumpRest, CLib.intercalate_cons, String.append_assoc, hashPrintf, Function.comp_def]

end SystemProgramming.Testlib
