import Mathlib.Data.Finset.Image
import SystemProgramming.Testlib.KeptObjects

/-!
The hash commands on a finite set of integers. `HashCommand.leaves` and
`HashCommand.prints` say what a user expects of a command, without buckets,
items and hashes; `HashInterp.Table.exists_doHashCommand` says that a searchable
table does that.
-/

namespace SystemProgramming.Testlib

open SystemProgramming.Library

/-! ### The set -/

/-- The set after a command; `ok` says whether `malloc` finds memory for an item. -/
def HashCommand.leaves (ok : Bool) (V : Finset Int) : HashCommand → Finset Int
  | insert value | replace value => if ok then Insert.insert value V else V
  | delete value => V.erase value
  | clear => ∅
  | apply (some action) => V.image fun v => (action.value v).getD v
  | apply none | find _ | size | empty => V

def HashCommand.prints (V : Finset Int) : HashCommand → String
  | find value => if value ∈ V then toString value ++ "\n" else ""
  | size => toString V.card ++ "\n"
  | empty => if V = ∅ then "true\n" else "false\n"
  | insert _ | replace _ | delete _ | clear | apply _ => ""

/-- The values of a table are those of the set. -/
def HashInterp.Stores (s : HashInterp) (V : Finset Int) : Prop :=
  ∀ v, v ∈ V ↔ ∃ m, s.values m = some v

variable {s s' : HashInterp} {a : Nat} {rows : Nat × Nat → List HashItem} {S : List HashItem}
  {n fuel k : Nat} {v : Int} {V : Finset Int} {memory : HashMalloc} {action : HashAction}

/-! ### Values of items -/

theorem HashInterp.Stores.congr (h : s.Stores V) (hvalues : s'.values = s.values) :
    s'.Stores V := by
  intro v
  rw [h v, hvalues]

theorem HashInterp.Stores.of_update (h : s.Stores V) (hk : s.values k = none)
    (hvalues : s'.values = Function.update s.values k (some v)) : s'.Stores (insert v V) := by
  intro w
  rw [Finset.mem_insert, h w, hvalues]
  constructor
  · rintro (rfl | ⟨m, hm⟩)
    · exact ⟨k, Function.update_self ..⟩
    · refine ⟨m, (Function.update_of_ne ?_ ..).trans hm⟩
      rintro rfl
      cases hk.symm.trans hm
  · rintro ⟨m, hm⟩
    rcases eq_or_ne m k with rfl | hmk
    · rw [Function.update_self] at hm
      exact .inl (Option.some.inj hm).symm
    · rw [Function.update_of_ne hmk] at hm
      exact .inr ⟨m, hm⟩

/-- The only item with a value is freed. -/
theorem HashInterp.Stores.of_remove (h : s.Stores V) (hunique : Unique s.values)
    (hk : s.values k = some v) (hvalues : s'.values = Function.update s.values k none) :
    s'.Stores (V.erase v) := by
  intro w
  rw [Finset.mem_erase, h w, hvalues]
  constructor
  · rintro ⟨hne, m, hm⟩
    refine ⟨m, (Function.update_of_ne ?_ ..).trans hm⟩
    rintro rfl
    exact hne (Option.some.inj (hm.symm.trans hk))
  · rintro ⟨m, hm⟩
    rcases eq_or_ne m k with rfl | hmk
    · rw [Function.update_self] at hm
      cases hm
    · rw [Function.update_of_ne hmk] at hm
      refine ⟨?_, m, hm⟩
      rintro rfl
      exact hmk (hunique m k w hm hk)

theorem HashInterp.Table.mem_iff (ht : s.Table a rows S n) (h : s.Stores V) :
    v ∈ V ↔ v ∈ S.map (itemValue s.values) := by
  rw [h v, List.mem_map]
  constructor
  · rintro ⟨m, hm⟩
    have hmem := (ht.owns.allocated (.item m)).mp (by rw [Allocated, hm]; rfl)
    exact ⟨.item m, by simpa using hmem, itemValue_of_some hm⟩
  · rintro ⟨x, hx, rfl⟩
    obtain ⟨m, w, rfl, hw⟩ := ((ht.owns.allocated x).mpr (.inl hx)).exists
    exact ⟨m, by rw [itemValue_of_some hw, hw]⟩

/-- In a searchable table the items are as many as the values. -/
theorem HashInterp.Table.nodup_values (ht : s.Table a rows S n) (hunique : Unique s.values) :
    (S.map (itemValue s.values)).Nodup := by
  refine List.Nodup.map_on ?_ ht.owns.holds.nodup
  intro x hx y hy heq
  obtain ⟨m, u, rfl, hu⟩ := ((ht.owns.allocated x).mpr (.inl hx)).exists
  obtain ⟨k, w, rfl, hw⟩ := ((ht.owns.allocated y).mpr (.inl hy)).exists
  rw [itemValue_of_some hu, itemValue_of_some hw] at heq
  rw [hunique m k u hu (heq ▸ hw)]

theorem HashInterp.Table.toFinset_values (ht : s.Table a rows S n) (h : s.Stores V) :
    (S.map (itemValue s.values)).toFinset = V := by
  ext v
  rw [List.mem_toFinset, ht.mem_iff h]

theorem HashInterp.Table.card_eq (ht : s.Table a rows S n) (hunique : Unique s.values)
    (h : s.Stores V) : V.card = s.hash.elemCnt := by
  rw [← ht.toFinset_values h, List.toFinset_card_of_nodup (ht.nodup_values hunique),
    List.length_map, ht.owns.holds.count]

/-! ### One command -/

theorem of_freeHashItem (hrun : (freeHashItem (.item k)).run s = some ((), s')) :
    s'.values = Function.update s.values k none ∧ s'.out = s.out := by
  change (if (s.values k).isSome = true then _ else _) = _ at hrun
  split at hrun
  · cases hrun
    exact ⟨rfl, rfl⟩
  · cases hrun

/-- Without a value that is there already, an item that is made and freed again leaves nothing. -/
theorem update_update_none (hk : s.values k = none) :
    Function.update (Function.update s.values k (some v)) k none = s.values := by
  rw [Function.update_idem, ← hk, Function.update_eq_self]

/-- What a search for the value of an item finds. -/
theorem HashInterp.Made.found {s₁ : HashInterp} (hm : s.Made s₁ a rows S k v) {x : HashItem}
    (hfound : lookup (hashFunc s₁.values) (hashLess s₁.values) s₁.hash.bucketCnt a rows
      (.item k) = some x) : ∃ m, x = .item m ∧ m ≠ k ∧ s.values m = some v := by
  obtain ⟨hx, heq⟩ := lookup_found hm.owns.holds hfound
  obtain ⟨m, w, rfl, hw⟩ := ((hm.owns.allocated x).mpr (.inl hx)).exists
  have hne : m ≠ k := fun hmk => hm.apart (hmk ▸ hx)
  rw [hm.values, Function.update_of_ne hne] at hw
  rw [hm.values, itemValue_update_self, itemValue_update_of_ne (by simpa using hne),
    itemValue_of_some hw] at heq
  exact ⟨m, rfl, hne, hw.trans (congrArg some heq.symm)⟩

theorem HashInterp.Table.stores_insert (ht : s.Table a rows S n) (hfuel : n + 5 ≤ fuel)
    (h : s.Stores V) (hrun : (doHashCommand fuel memory (.insert v)).run s = some ((), s')) :
    s'.Stores (if memory.item.isSome then insert v V else V) ∧ s'.out = s.out := by
  obtain ⟨item, buckets⟩ := memory
  cases item with
  | none =>
      cases hrun
      exact ⟨h, rfl⟩
  | some item =>
      obtain ⟨asked, garbage⟩ := item
      obtain ⟨s₁, hmake, ho, hvalues, hout, hcnt⟩ := ht.owns.run_makeHashItem asked garbage v
      have hm : s.Made s₁ a rows S (s.fresh asked) v := ⟨ho, ht.owns.fresh asked, hvalues, hcnt⟩
      have hlength := ht.length_le
      obtain ⟨h', a', rows', hins, -⟩ := ho.holds.run_hashInsert (show _ ≤ fuel by omega)
        (hashFunc s₁.values) (hashLess s₁.values) buckets hm.allocated fun _ => hm.apart
      rw [doHashCommand, run_bind_of hmake] at hrun
      have hop : (withValues fun hash less => hashInsert hash less fuel buckets
          (.item (s.fresh asked))).run s₁ = some (_, { s₁ with hash := h' }) := run_withValues hins
      replace hrun := (run_bind_of hop).symm.trans hrun
      cases hfound : lookup (hashFunc s₁.values) (hashLess s₁.values) s₁.hash.bucketCnt a rows
          (.item (s.fresh asked)) with
      | none =>
          rw [hfound] at hrun
          cases hrun
          exact ⟨h.of_update hm.fresh hvalues, hout⟩
      | some x =>
          rw [hfound] at hrun
          obtain ⟨m, rfl, hne, hw⟩ := hm.found hfound
          obtain ⟨hfree, hout'⟩ := of_freeHashItem hrun
          refine ⟨?_, hout'.trans hout⟩
          -- the value is there, and the item is given back
          have hmem : insert v V = V := Finset.insert_eq_self.mpr ((h v).mpr ⟨m, hw⟩)
          rw [Option.isSome_some, if_pos rfl, hmem]
          refine h.congr (hfree.trans ?_)
          change Function.update s₁.values _ none = _
          rw [hvalues, update_update_none hm.fresh]

theorem HashInterp.Table.stores_replace (ht : s.Table a rows S n) (hfuel : n + 5 ≤ fuel)
    (hunique : Unique s.values) (h : s.Stores V)
    (hrun : (doHashCommand fuel memory (.replace v)).run s = some ((), s')) :
    s'.Stores (if memory.item.isSome then insert v V else V) ∧ s'.out = s.out := by
  obtain ⟨item, buckets⟩ := memory
  cases item with
  | none =>
      cases hrun
      exact ⟨h, rfl⟩
  | some item =>
      obtain ⟨asked, garbage⟩ := item
      obtain ⟨s₁, hmake, ho, hvalues, hout, hcnt⟩ := ht.owns.run_makeHashItem asked garbage v
      have hm : s.Made s₁ a rows S (s.fresh asked) v := ⟨ho, ht.owns.fresh asked, hvalues, hcnt⟩
      have hlength := ht.length_le
      obtain ⟨h', a', rows', hins, -⟩ := ho.holds.run_hashReplace (show _ ≤ fuel by omega)
        (hashFunc s₁.values) (hashLess s₁.values) buckets hm.allocated
        fun hmem => hm.apart (mem_of_mem_without hmem)
      rw [doHashCommand, run_bind_of hmake] at hrun
      have hop : (withValues fun hash less => hashReplace hash less fuel buckets
          (.item (s.fresh asked))).run s₁ = some (_, { s₁ with hash := h' }) := run_withValues hins
      replace hrun := (run_bind_of hop).symm.trans hrun
      rw [Option.isSome_some, if_pos rfl]
      cases hfound : lookup (hashFunc s₁.values) (hashLess s₁.values) s₁.hash.bucketCnt a rows
          (.item (s.fresh asked)) with
      | none =>
          rw [hfound] at hrun
          cases hrun
          exact ⟨h.of_update hm.fresh hvalues, hout⟩
      | some x =>
          rw [hfound] at hrun
          obtain ⟨m, rfl, hne, hw⟩ := hm.found hfound
          obtain ⟨hfree, hout'⟩ := of_freeHashItem hrun
          refine ⟨?_, hout'.trans hout⟩
          -- the old item goes, the new one has its value
          have hold : HashInterp.Stores { s with values := Function.update s.values m none }
              (V.erase v) := h.of_remove hunique hw rfl
          have hnew : s'.Stores (insert v (V.erase v)) := by
            refine hold.of_update (k := s.fresh asked)
              ((Function.update_of_ne hne.symm ..).trans hm.fresh) (hfree.trans ?_)
            change Function.update s₁.values _ none = _
            rw [hvalues, Function.update_comm hne.symm]
          have hv : v ∈ V := (h v).mpr ⟨m, hw⟩
          rw [Finset.insert_erase hv] at hnew
          rwa [Finset.insert_eq_self.mpr hv]

theorem HashInterp.Table.stores_delete (ht : s.Table a rows S n) (hfuel : n + 5 ≤ fuel)
    (hgood : s.Good a rows) (h : s.Stores V)
    (hrun : (doHashCommand fuel memory (.delete v)).run s = some ((), s')) :
    s'.Stores (V.erase v) ∧ s'.out = s.out := by
  have hlength := ht.length_le
  obtain ⟨h', a', rows', hdel, -⟩ := ht.owns.holds.run_hashDelete (show _ ≤ fuel by omega)
    (hashFunc s.values) (hashLess s.values) memory.buckets (.temp v)
  have hop : (withValues fun hash less => hashDelete hash less fuel memory.buckets
      (.temp v)).run s = some (_, { s with hash := h' }) := run_withValues hdel
  rw [doHashCommand, run_bind_of hop] at hrun
  cases hfound : lookup (hashFunc s.values) (hashLess s.values) s.hash.bucketCnt a rows
      (.temp v) with
  | none =>
      rw [hfound] at hrun
      cases hrun
      have hnot : v ∉ V := fun hv => by
        obtain ⟨x, hx, hxv⟩ := List.mem_map.mp ((ht.mem_iff h).mp hv)
        exact itemValue_ne ht.owns.holds hgood.placed hfound hx hxv.symm
      rw [Finset.erase_eq_of_notMem hnot]
      exact ⟨h.congr rfl, rfl⟩
  | some x =>
      rw [hfound] at hrun
      obtain ⟨hx, heq⟩ := lookup_found ht.owns.holds hfound
      obtain ⟨m, w, rfl, hw⟩ := ((ht.owns.allocated x).mpr (.inl hx)).exists
      rw [itemValue_of_some hw] at heq
      obtain rfl : v = w := heq
      obtain ⟨hfree, hout⟩ := of_freeHashItem hrun
      exact ⟨h.of_remove hgood.unique hw hfree, hout⟩

theorem HashInterp.Table.stores_clear (ht : s.Table a rows S n) (hfuel : n < fuel)
    (hrun : (doHashCommand fuel memory .clear).run s = some ((), s')) :
    s'.Stores ∅ ∧ s'.out = s.out := by
  have hlength : S.length < fuel := Nat.lt_of_le_of_lt ht.length_le hfuel
  obtain ⟨h', rows', hclear, -, -⟩ := (ht.owns.holds.weaken fun _ => False.elim).run_hashClear
    (some fun _ => none) (fun _ _ _ _ => False.elim) hlength
  rw [doHashCommand, run_bind_of (run_onTable hclear)] at hrun
  have hperm := ht.owns.holds.perm
  obtain ⟨t, hfree, -, hnone, hout⟩ := run_forM_freeHashItem (s := { s with hash := h' })
    (I := fun _ => True) (fun _ _ _ => trivial) (pool (fun i => rows (a, i)) s.hash.bucketCnt)
    trivial (hperm.nodup_iff.mpr ht.owns.holds.nodup) fun e => by
      rw [hperm.mem_iff]
      simpa using ht.owns.allocated e
  obtain rfl := congrArg Prod.snd (Option.some.inj (hfree.symm.trans hrun))
  refine ⟨fun v => ?_, hout⟩
  simp [hnone]

theorem HashInterp.Table.stores_apply (ht : s.Table a rows S n) (hfuel : n < fuel)
    (h : s.Stores V) (hfits : s.Fits action)
    (hrun : (doHashCommand fuel memory (.apply (some action))).run s = some ((), s')) :
    s'.Stores (V.image fun v => (action.value v).getD v) ∧ s'.out = s.out := by
  have hperm := ht.owns.holds.perm
  have hvalue (v : Int) (hv : v ∈ V) : action.value v = some ((action.value v).getD v) := by
    obtain ⟨w, hw⟩ := Option.isSome_iff_exists.mp (hfits v (ht.mem_stored.mpr ((h v).mp hv)))
    rw [hw, Option.getD_some]
  have happly := run_onTable (ht.owns.holds.wellFormed.run_hashApply
    (Nat.lt_of_le_of_lt ht.length_le hfuel))
  rw [doHashCommand, run_bind_of happly] at hrun
  have hitems : ∀ e ∈ pool (fun i => rows (a, i)) s.hash.bucketCnt,
      ∃ m v w, e = .item m ∧ s.values m = some v ∧ action.value v = some w := by
    intro e he
    obtain ⟨m, v, rfl, hv⟩ := ((ht.owns.allocated e).mpr (.inl (hperm.mem_iff.mp he))).exists
    exact ⟨m, v, _, rfl, hv, hvalue v ((h v).mpr ⟨m, hv⟩)⟩
  have hact := run_forM_hashAction (s := { s with hash := s.hash })
    (hperm.nodup_iff.mpr ht.owns.holds.nodup) hitems
  obtain rfl := congrArg Prod.snd (Option.some.inj (hact.symm.trans hrun))
  have hitem (m : Nat) (v : Int) (hm : s.values m = some v) :
      HashItem.item m ∈ pool (fun i => rows (a, i)) s.hash.bucketCnt := by
    have hmem := (ht.owns.allocated (.item m)).mp (by rw [Allocated, hm]; rfl)
    exact hperm.mem_iff.mpr (by simpa using hmem)
  refine ⟨fun w => ?_, rfl⟩
  simp only [Finset.mem_image, HashAction.onValues]
  constructor
  · rintro ⟨v, hv, rfl⟩
    obtain ⟨m, hm⟩ := (h v).mp hv
    refine ⟨m, ?_⟩
    rw [if_pos (hitem m v hm), hm, Option.bind_some]
    exact hvalue v hv
  · rintro ⟨m, hm⟩
    split at hm
    · obtain ⟨v, hv, hw⟩ := Option.bind_eq_some_iff.mp hm
      refine ⟨v, (h v).mpr ⟨m, hv⟩, ?_⟩
      rw [hw, Option.getD_some]
    · exact absurd (hitem m w hm) ‹_›

/-- **A searchable table does what the set does**, and stays searchable if the action that it
applies is compatible with its values. -/
theorem HashInterp.Table.exists_doHashCommand (ht : s.Table a rows S n) (hfuel : n + 5 ≤ fuel)
    (hgood : s.Good a rows) (h : s.Stores V) (memory : HashMalloc) {c : HashCommand}
    (hfits : ∀ action, c = .apply (some action) → s.Fits action ∧ s.Compatible action) :
    ∃ s', (doHashCommand fuel memory c).run s = some ((), s') ∧ s'.Searchable ∧
      s'.Stores (c.leaves memory.item.isSome V) ∧ s'.out = s.out ++ c.prints V := by
  have hlt : n < fuel := by omega
  have hkeeps (hcmd : KeepsGood (doHashCommand fuel memory c) s a rows (n + 1))
      (hstores : ∀ s', (doHashCommand fuel memory c).run s = some ((), s') →
        s'.Stores (c.leaves memory.item.isSome V) ∧ s'.out = s.out ++ c.prints V) :
      ∃ s', (doHashCommand fuel memory c).run s = some ((), s') ∧ s'.Searchable ∧
        s'.Stores (c.leaves memory.item.isSome V) ∧ s'.out = s.out ++ c.prints V := by
    obtain ⟨s', a', rows', S', hrun, ht', hgood'⟩ := hcmd
    exact ⟨s', hrun, ht'.searchable_iff.mpr (hgood' hgood), hstores s' hrun⟩
  have hprints {t : String} (hrun : (doHashCommand fuel memory c).run s =
      some ((), { s with out := s.out ++ t })) (htext : t = c.prints V)
      (hsame : c.leaves memory.item.isSome V = V) :
      ∃ s', (doHashCommand fuel memory c).run s = some ((), s') ∧ s'.Searchable ∧
        s'.Stores (c.leaves memory.item.isSome V) ∧ s'.out = s.out ++ c.prints V := by
    refine ⟨_, hrun, (ht.setOut _).searchable_iff.mpr ⟨hgood.placed, hgood.unique⟩, ?_, ?_⟩
    · rw [hsame]
      exact h.congr rfl
    · rw [htext]
  have hsilent (s' : HashInterp) (hout : s'.out = s.out) : s'.out = s.out ++ "" := by
    rw [hout, String.append_empty]
  cases c with
  | insert v =>
      refine hkeeps (ht.run_insert hfuel v) fun s' hrun => ?_
      obtain ⟨hstores, hout⟩ := ht.stores_insert hfuel h hrun
      exact ⟨hstores, hsilent s' hout⟩
  | replace v =>
      refine hkeeps (ht.run_replace hfuel v) fun s' hrun => ?_
      obtain ⟨hstores, hout⟩ := ht.stores_replace hfuel hgood.unique h hrun
      exact ⟨hstores, hsilent s' hout⟩
  | delete v =>
      refine hkeeps (ht.run_delete hfuel v) fun s' hrun => ?_
      obtain ⟨hstores, hout⟩ := ht.stores_delete hfuel hgood h hrun
      exact ⟨hstores, hsilent s' hout⟩
  | clear =>
      refine hkeeps (ht.run_clear hlt) fun s' hrun => ?_
      obtain ⟨hstores, hout⟩ := ht.stores_clear hlt hrun
      exact ⟨hstores, hsilent s' hout⟩
  | find v =>
      obtain ⟨text, hrun, htext⟩ := ht.run_find hlt memory v
      refine hprints hrun ?_ rfl
      rw [htext hgood, HashCommand.prints]
      simp only [ht.mem_iff h]
  | size =>
      refine hprints (t := toString s.hash.elemCnt ++ "\n") rfl ?_ rfl
      rw [HashCommand.prints, ht.card_eq hgood.unique h]
  | empty =>
      refine hprints (t := if decide (s.hash.elemCnt = 0) then "true\n" else "false\n") rfl ?_ rfl
      rw [HashCommand.prints, ← ht.card_eq hgood.unique h]
      simp only [decide_eq_true_eq, Finset.card_eq_zero]
  | apply action =>
      cases action with
      | none =>
          refine hprints (t := "") ?_ rfl rfl
          rw [String.append_empty]
          rfl
      | some action =>
          obtain ⟨hfits, hcompatible⟩ := hfits action rfl
          obtain ⟨s', hrun, ht', hgood'⟩ := ht.run_apply hlt memory hfits
          obtain ⟨hstores, hout⟩ := ht.stores_apply hlt h hfits hrun
          exact ⟨s', hrun, ht'.searchable_iff.mpr ((hgood' hgood).mpr hcompatible), hstores,
            hsilent s' hout⟩

/-- `dumpdata` prints the set in some order. -/
theorem HashInterp.Table.exists_dumpHash (ht : s.Table a rows S n) (hfuel : n < fuel)
    (hunique : Unique s.values) (h : s.Stores V) :
    ∃ vs : List Int, vs.Nodup ∧ vs.toFinset = V ∧ (dumpHash fuel).run s = some ((), { s with
      out := s.out ++ (String.intercalate " " (vs.map toString) ++ "\n") }) := by
  obtain ⟨vs, hdump, hperm⟩ := ht.run_dumpHash hfuel
  refine ⟨vs, hperm.nodup_iff.mpr (ht.nodup_values hunique), ?_, hdump⟩
  rw [List.toFinset_eq_of_perm _ _ hperm, ht.toFinset_values h]

end SystemProgramming.Testlib
