import SystemProgramming.Testlib.HashArrays

/-!
What `hash_insert`, `hash_replace`, `hash_find` and `hash_delete` do to a
well-formed table whose elements may be in any bucket. Each looks in one
bucket only, and `Placed` survives them all.
-/

namespace SystemProgramming.Testlib

open SystemProgramming.Library

variable {ε : Type} {h : Hash ε} {rows : Nat × Nat → List ε} {a i n : Nat} {S A B : List ε}
  {e : ε} {L : ε → Prop} {hash : ε → UInt32} {less : ε → ε → Bool} {fuel : Nat}

/-- The element that a search finds. -/
def lookup (hash : ε → UInt32) (less : ε → ε → Bool) (bucketCnt a : Nat)
    (rows : Nat × Nat → List ε) (e : ε) : Option ε :=
  (rows (a, bucketIdx hash bucketCnt e)).find? (same less e)

/-- Where an element that was found is. -/
theorem lookup_eq_some {x : ε} (hx : lookup hash less n a rows e = some x) :
    ∃ A B, rows (a, bucketIdx hash n e) = A ++ x :: B :=
  List.append_of_mem (List.mem_of_find?_eq_some hx)

/-! ### Placement -/

theorem Placed.insert (hkeeps : Placed hash n a rows) :
    Placed hash n a (Function.update rows (a, bucketIdx hash n e)
      (e :: rows (a, bucketIdx hash n e))) := by
  intro j hj x hx
  by_cases hji : j = bucketIdx hash n e
  · subst hji
    rw [Function.update_self] at hx
    rcases List.mem_cons.mp hx with rfl | hx
    · rfl
    · exact hkeeps _ hj x hx
  · rw [Function.update_of_ne (by simpa using hji)] at hx
    exact hkeeps j hj x hx

theorem Placed.remove (hkeeps : Placed hash n a rows) (hAB : rows (a, i) = A ++ e :: B) :
    Placed hash n a (Function.update rows (a, i) (A ++ B)) := by
  intro j hj x hx
  by_cases hji : j = i
  · subst hji
    rw [Function.update_self] at hx
    refine hkeeps _ hj x ?_
    rw [hAB]
    simp only [List.mem_append, List.mem_cons] at hx ⊢
    tauto
  · rw [Function.update_of_ne (by simpa using hji)] at hx
    exact hkeeps j hj x hx

/-! ### Operations -/

variable [DecidableEq ε]

/-- The elements when the one that was found is taken out. -/
def without (S : List ε) : Option ε → List ε
  | none => S
  | some x => S.erase x

theorem mem_of_mem_without {found : Option ε} (he : e ∈ without S found) : e ∈ S := by
  cases found with
  | none => exact he
  | some x => exact List.mem_of_mem_erase he

/-- From the table `h` to `h'`, which holds `n` elements, the placement is kept, and the
buckets do not become more than they were or than the elements. -/
structure Keeps (hash : ε → UInt32) (h : Hash ε) (a : Nat) (rows : Nat × Nat → List ε)
    (h' : Hash ε) (a' : Nat) (rows' : Nat × Nat → List ε) (n : Nat) : Prop where
  placed : Placed hash h.bucketCnt a rows → Placed hash h'.bucketCnt a' rows'
  bucketCnt_le : h'.bucketCnt ≤ max h.bucketCnt n

omit [DecidableEq ε] in
/-- A change of the rows in front of `rehash`. -/
theorem Keeps.step {h₁ h' : Hash ε} {a' m : Nat} {rows₁ rows' : Nat × Nat → List ε}
    (hkeeps : Keeps hash h₁ a rows₁ h' a' rows' m) (hcnt : h₁.bucketCnt = h.bucketCnt)
    (hplaced : Placed hash h.bucketCnt a rows → Placed hash h.bucketCnt a rows₁) (hmn : m ≤ n) :
    Keeps hash h a rows h' a' rows' n := by
  have hle := hkeeps.bucketCnt_le
  refine ⟨fun hp => hkeeps.placed ?_, by omega⟩
  rw [hcnt]
  exact hplaced hp

theorem Holds.run_rehash_keeps (hh : Holds L h a rows S) (hfuel : S.length + 4 ≤ fuel)
    (hash : ε → UInt32) (memory : MallocArray ε) :
    ∃ h' a' rows', (rehash hash fuel memory).run h = some ((), h') ∧ Holds L h' a' rows' S ∧
      Keeps hash h a rows h' a' rows' S.length := by
  obtain ⟨h', a', rows', hrun, hh', hor⟩ := hh.run_rehash hfuel hash memory
  refine ⟨h', a', rows', hrun, hh', ?_⟩
  rcases hor with ⟨rfl, rfl, rfl⟩ | ⟨hcnt, hplaced⟩
  · exact ⟨id, Nat.le_max_left _ _⟩
  · refine ⟨fun _ => hplaced, ?_⟩
    have hideal := idealBucketCnt_le S.length
    have hmin := hh.four_le
    omega

theorem Holds.run_search (hh : Holds L h a rows S) (hfuel : S.length < fuel) (e : ε) :
    (findElem less fuel (bucketAt a (bucketIdx hash h.bucketCnt e)) e).run h =
      some (lookup hash less h.bucketCnt a rows e, h) :=
  run_findElem hh (bucketIdx_lt hash hh.power e) hfuel e

theorem Holds.run_hashFind (hh : Holds L h a rows S) (hfuel : S.length < fuel) (e : ε) :
    (hashFind hash less fuel e).run h = some (lookup hash less h.bucketCnt a rows e, h) := by
  rw [hashFind, run_bind_of (run_findBucket hh.buckets e)]
  exact hh.run_search hfuel e

theorem Holds.run_hashInsert (hh : Holds L h a rows S) (hfuel : S.length + 5 ≤ fuel)
    (hash : ε → UInt32) (less : ε → ε → Bool) (memory : MallocArray ε) (hL : L e)
    (hnew : lookup hash less h.bucketCnt a rows e = none → e ∉ S) :
    ∃ h' a' rows', (hashInsert hash less fuel memory e).run h =
        some (lookup hash less h.bucketCnt a rows e, h') ∧
      Holds L h' a' rows' (if (lookup hash less h.bucketCnt a rows e).isNone then e :: S else S) ∧
      Keeps hash h a rows h' a' rows' (S.length + 1) := by
  have hidx := bucketIdx_lt hash hh.power e
  have hlt : S.length < fuel := by omega
  rw [hashInsert, run_bind_of (run_findBucket hh.buckets e), run_bind_of (hh.run_search hlt e)]
  cases hold : lookup hash less h.bucketCnt a rows e with
  | none =>
      obtain ⟨links₁, hinsert, hh₁⟩ := run_insertElem hh hidx hL (hnew hold)
      obtain ⟨h', a', rows', hrun, hh', hkeeps⟩ :=
        hh₁.run_rehash_keeps (by simpa using hfuel) hash memory
      refine ⟨h', a', rows', ?_, hh', hkeeps.step rfl Placed.insert (Nat.le_refl _)⟩
      rw [Option.isNone_none, if_pos rfl, run_bind_of hinsert, run_bind_of hrun]
      rfl
  | some x =>
      have hless : S.length + 4 ≤ fuel := by omega
      obtain ⟨h', a', rows', hrun, hh', hkeeps⟩ := hh.run_rehash_keeps hless hash memory
      refine ⟨h', a', rows', ?_, hh', hkeeps.step rfl id (Nat.le_succ _)⟩
      change (rehash hash fuel memory >>= fun _ => pure (some x)).run h = _
      rw [run_bind_of hrun]
      rfl

theorem Holds.run_hashReplace (hh : Holds L h a rows S) (hfuel : S.length + 5 ≤ fuel)
    (hash : ε → UInt32) (less : ε → ε → Bool) (memory : MallocArray ε) (hL : L e)
    (hnew : e ∉ without S (lookup hash less h.bucketCnt a rows e)) :
    ∃ h' a' rows', (hashReplace hash less fuel memory e).run h =
        some (lookup hash less h.bucketCnt a rows e, h') ∧
      Holds L h' a' rows' (e :: without S (lookup hash less h.bucketCnt a rows e)) ∧
      Keeps hash h a rows h' a' rows' (S.length + 1) := by
  have hidx := bucketIdx_lt hash hh.power e
  have hlt : S.length < fuel := by omega
  rw [hashReplace, run_bind_of (run_findBucket hh.buckets e), run_bind_of (hh.run_search hlt e)]
  cases hold : lookup hash less h.bucketCnt a rows e with
  | none =>
      rw [hold] at hnew
      obtain ⟨links₁, hinsert, hh₁⟩ := run_insertElem hh hidx hL hnew
      obtain ⟨h', a', rows', hrun, hh', hkeeps⟩ :=
        hh₁.run_rehash_keeps (by simpa using hfuel) hash memory
      refine ⟨h', a', rows', ?_, hh', hkeeps.step rfl Placed.insert (Nat.le_refl _)⟩
      refine (run_bind_of hinsert).trans ?_
      rw [run_bind_of hrun]
      rfl
  | some x =>
      rw [hold] at hnew
      obtain ⟨A, B, hAB⟩ := lookup_eq_some hold
      obtain ⟨links₁, hremove, hh₁⟩ := run_removeElem hh hidx hAB
      obtain ⟨links₂, hinsert, hh₂⟩ := run_insertElem hh₁ hidx hL hnew
      have hle : (e :: S.erase x).length ≤ S.length + 1 := Nat.succ_le_succ List.length_erase_le
      obtain ⟨h', a', rows', hrun, hh', hkeeps⟩ :=
        hh₂.run_rehash_keeps (show _ ≤ fuel by omega) hash memory
      refine ⟨h', a', rows', ?_, hh', hkeeps.step rfl (fun hp => (hp.remove hAB).insert) hle⟩
      refine (run_bind_of hremove).trans ((run_bind_of hinsert).trans ?_)
      rw [run_bind_of hrun]
      rfl

theorem Holds.run_hashDelete (hh : Holds L h a rows S) (hfuel : S.length + 5 ≤ fuel)
    (hash : ε → UInt32) (less : ε → ε → Bool) (memory : MallocArray ε) (e : ε) :
    ∃ h' a' rows', (hashDelete hash less fuel memory e).run h =
        some (lookup hash less h.bucketCnt a rows e, h') ∧
      Holds L h' a' rows' (without S (lookup hash less h.bucketCnt a rows e)) ∧
      Keeps hash h a rows h' a' rows' (S.length + 1) := by
  have hidx := bucketIdx_lt hash hh.power e
  have hlt : S.length < fuel := by omega
  rw [hashDelete, run_bind_of (run_findBucket hh.buckets e), run_bind_of (hh.run_search hlt e)]
  cases hold : lookup hash less h.bucketCnt a rows e with
  | none => exact ⟨h, a, rows, rfl, hh, ⟨id, Nat.le_max_left _ _⟩⟩
  | some x =>
      obtain ⟨A, B, hAB⟩ := lookup_eq_some hold
      obtain ⟨links₁, hremove, hh₁⟩ := run_removeElem hh hidx hAB
      have hle : (S.erase x).length ≤ S.length + 1 := Nat.le_succ_of_le List.length_erase_le
      obtain ⟨h', a', rows', hrun, hh', hkeeps⟩ :=
        hh₁.run_rehash_keeps (show _ ≤ fuel by omega) hash memory
      refine ⟨h', a', rows', ?_, hh', hkeeps.step rfl (fun hp => hp.remove hAB) hle⟩
      refine (run_bind_of hremove).trans ?_
      rw [run_bind_of hrun]
      rfl

end SystemProgramming.Testlib
