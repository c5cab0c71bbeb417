import SystemProgramming.Library.ClassSet
import SystemProgramming.Testlib.HashOperations

/-!
The hash table as a set of elements no two of which are equal. Whatever
allocations fail in `rehash`, a sequence of calls returns what it returns for
the set, and leaves a table that holds the elements of the set, each in the
bucket of its hash.
-/

namespace SystemProgramming.Testlib

open SystemProgramming.Library

/-- The functions of a caller. `less` orders the elements, and elements neither of which
is less have the same hash. -/
structure HashFunctions (ε : Type) where
  hash : ε → UInt32
  less : ε → ε → Bool
  order : IsStrictWeakOrder ε fun x y => less x y = true
  hash_eq : ∀ x y, same less x y = true → hash x = hash y

variable {ε : Type} {f : HashFunctions ε} {h : Hash ε} {rows : Nat × Nat → List ε} {a : Nat}
  {e : ε} {s : ClassSet (same f.less)} {L : ε → Prop} {fuel : Nat}

theorem HashFunctions.equivalence (f : HashFunctions ε) :
    Equivalence fun x y => same f.less x y = true := by
  have := f.order
  have hsame (x y : ε) : same f.less x y = true ↔ ¬ f.less y x = true ∧ ¬ f.less x y = true := by
    simp [same]
  refine ⟨fun x => ?_, fun {x y} hxy => ?_, fun {x y z} hxy hyz => ?_⟩
  · have hirrefl := irrefl_of (fun x y => f.less x y = true) x
    exact (hsame x x).mpr ⟨hirrefl, hirrefl⟩
  · exact (hsame y x).mpr ((hsame x y).mp hxy).symm
  · rw [hsame] at hxy hyz ⊢
    exact (f.order.incomp_trans x y z hxy.symm hyz.symm).symm

/-! ### Calls -/

/-- A call, with the outcome of the allocation in `rehash`, or with the destructor: with the
links the memory of an element has when it comes to the table again. -/
inductive HashOp (ε : Type)
  | insert (memory : MallocArray ε) (new : ε)
  | replace (memory : MallocArray ε) (new : ε)
  | find (e : ε)
  | delete (memory : MallocArray ε) (e : ε)
  | clear (destructor : Option (ε → Link (HashAddr ε)))

def HashOp.reference : HashOp ε → ClassSet (same f.less) → Option ε × ClassSet (same f.less)
  | .insert _ new, s => (s.find new, s.insert new)
  | .replace _ new, s => (s.find new, s.replace new)
  | .find e, s => (s.find e, s)
  | .delete _ e, s => (s.find e, s.erase e)
  | .clear _, _ => (none, .empty)

/-- What the calls return for the set, and the set after them. -/
def referenceCalls :
    List (HashOp ε) → ClassSet (same f.less) → List (Option ε) × ClassSet (same f.less)
  | [], s => ([], s)
  | op :: ops, s =>
      let (result, s') := op.reference s
      let (results, s'') := referenceCalls ops s'
      (result :: results, s'')

variable [DecidableEq ε]

def HashOp.call (f : HashFunctions ε) (fuel : Nat) : HashOp ε → HashProg ε (Option ε)
  | .insert memory new => hashInsert f.hash f.less fuel memory new
  | .replace memory new => hashReplace f.hash f.less fuel memory new
  | .find e => hashFind f.hash f.less fuel e
  | .delete memory e => hashDelete f.hash f.less fuel memory e
  | .clear destructor => do
      let _ ← hashClear fuel (destructor.map fun d e => some (d e))
      return none

def hashCalls (f : HashFunctions ε) (fuel : Nat) : List (HashOp ε) → HashProg ε (List (Option ε))
  | [] => pure []
  | op :: ops => do
      let result ← op.call f fuel
      return result :: (← hashCalls f fuel ops)

/-! ### Simulation -/

/-- The buckets are disjoint lists that hold the elements of the set, each in the bucket of
its hash; their number is a power of two and at least four, and `elem_cnt` is right. -/
def Hash.Represents (f : HashFunctions ε) (h : Hash ε) (s : ClassSet (same f.less)) : Prop :=
  ∃ a rows, Holds (fun _ => True) h a rows s.elems ∧ Placed f.hash h.bucketCnt a rows

omit [DecidableEq ε] in
/-- The bucket of its hash is the right place to look for an element. -/
theorem Holds.lookup_eq_find (hh : Holds L h a rows s.elems)
    (hplaced : Placed f.hash h.bucketCnt a rows) (e : ε) :
    lookup f.hash f.less h.bucketCnt a rows e = s.find e := by
  refine ClassSet.find_eq_of_mem_iff f.equivalence fun x hx => ?_
  rw [hh.mem]
  constructor
  · exact fun hmem => ⟨_, bucketIdx_lt f.hash hh.power e, hmem⟩
  · rintro ⟨i, hi, hmem⟩
    have hidx : bucketIdx f.hash h.bucketCnt e = i := by
      rw [← hplaced i hi x hmem, bucketIdx, bucketIdx, f.hash_eq e x hx]
    rwa [hidx]

theorem ClassSet.without_find (s : ClassSet (same f.less)) (e : ε) :
    without s.elems (s.find e) = (s.erase e).elems := by
  cases hfind : s.find e with
  | none => exact (ClassSet.erase_of_find_none hfind).symm
  | some x => exact (ClassSet.erase_of_find f.equivalence hfind).symm

theorem HashOp.simulates (hr : h.Represents f s) (hfuel : s.elems.length + 5 ≤ fuel)
    (op : HashOp ε) :
    ∃ h', (op.call f fuel).run h = some ((op.reference s).1, h') ∧
      h'.Represents f (op.reference s).2 := by
  obtain ⟨a, rows, hh, hplaced⟩ := hr
  have hlookup := hh.lookup_eq_find hplaced
  cases op with
  | insert memory new =>
      have hnew : lookup f.hash f.less h.bucketCnt a rows new = none → new ∉ s.elems := by
        intro hnone hmem
        -- an element would be found, being equal to itself
        rw [hlookup] at hnone
        exact Bool.noConfusion ((ClassSet.eqv_of_find_none hnone hmem).symm.trans
          (f.equivalence.refl new))
      obtain ⟨h', a', rows', hrun, hh', hkeeps⟩ :=
        hh.run_hashInsert hfuel f.hash f.less memory trivial hnew
      rw [hlookup] at hrun hh'
      refine ⟨h', hrun, a', rows', ?_, hkeeps.placed hplaced⟩
      cases hfind : s.find new with
      | none =>
          rw [hfind] at hh'
          rw [HashOp.reference, ClassSet.insert_of_find_none hfind]
          exact hh'
      | some x =>
          rw [hfind] at hh'
          rw [HashOp.reference, ClassSet.insert_of_find hfind]
          exact hh'
  | replace memory new =>
      have hnew : new ∉ without s.elems (lookup f.hash f.less h.bucketCnt a rows new) := by
        rw [hlookup, ClassSet.without_find]
        intro hmem
        have hfalse := (List.mem_filter.mp hmem).2
        rw [f.equivalence.refl new] at hfalse
        exact Bool.noConfusion hfalse
      obtain ⟨h', a', rows', hrun, hh', hkeeps⟩ :=
        hh.run_hashReplace hfuel f.hash f.less memory trivial hnew
      rw [hlookup] at hrun hh'
      rw [ClassSet.without_find] at hh'
      exact ⟨h', hrun, a', rows', hh', hkeeps.placed hplaced⟩
  | find e =>
      refine ⟨h, ?_, a, rows, hh, hplaced⟩
      rw [HashOp.call, hh.run_hashFind (by omega) e, hlookup]
      rfl
  | delete memory e =>
      obtain ⟨h', a', rows', hrun, hh', hkeeps⟩ :=
        hh.run_hashDelete hfuel f.hash f.less memory e
      rw [hlookup] at hrun hh'
      rw [ClassSet.without_find] at hh'
      exact ⟨h', hrun, a', rows', hh', hkeeps.placed hplaced⟩
  | clear destructor =>
      have hmem (d : ε → Option (Link (HashAddr ε)))
          (hd : destructor.map (fun d e => some (d e)) = some d) :
          ∀ e ∈ s.elems, True → (d e).isSome = true := by
        obtain ⟨d', _, rfl⟩ := Option.map_eq_some_iff.mp hd
        exact fun _ _ _ => rfl
      obtain ⟨h', rows', hrun, hh', _⟩ := hh.run_hashClear _ hmem (show _ < fuel by omega)
      refine ⟨h', ?_, a, rows', hh', fun i hi x hx => ?_⟩
      · rw [HashOp.call, run_bind_of hrun]
        rfl
      · exact absurd (hh'.mem.mpr ⟨i, hi, hx⟩) List.not_mem_nil

omit [DecidableEq ε] in
theorem HashOp.length_reference_le (op : HashOp ε) (s : ClassSet (same f.less)) :
    (op.reference s).2.elems.length ≤ s.elems.length + 1 := by
  cases op with
  | insert memory new => exact s.length_insert_le new
  | replace memory new => exact s.length_replace_le new
  | find e => exact Nat.le_succ _
  | delete memory e => exact Nat.le_succ_of_le (s.length_erase_le e)
  | clear destructor => exact Nat.zero_le _

theorem run_hashCalls (hr : h.Represents f s) (ops : List (HashOp ε))
    (hfuel : s.elems.length + ops.length + 5 ≤ fuel) :
    ∃ h', (hashCalls f fuel ops).run h = some ((referenceCalls ops s).1, h') ∧
      h'.Represents f (referenceCalls ops s).2 := by
  induction ops generalizing h s with
  | nil => exact ⟨h, rfl, hr⟩
  | cons op ops ih =>
      have hlength := op.length_reference_le s
      rw [List.length_cons] at hfuel
      obtain ⟨h₁, hrun₁, hr₁⟩ := op.simulates hr (show _ ≤ fuel by omega)
      obtain ⟨h', hrun, hr'⟩ := ih hr₁ (by omega)
      refine ⟨h', ?_, hr'⟩
      rw [hashCalls, run_bind_of hrun₁, run_bind_of hrun]
      rfl

/-- **The table refines the set.** After a successful `hash_init` no sequence of calls
fails, whatever happens to the allocations in `rehash`; every call returns what it returns
for the set, and the table holds the elements of the set. -/
theorem hash_refines_set (f : HashFunctions ε) (h : Hash ε)
    (helems : ∀ e, (h.links (.elem e)).isSome = true) (asked : Nat)
    (garbage : HashAddr ε → Link (HashAddr ε)) (ops : List (HashOp ε))
    (hfuel : ops.length + 5 ≤ fuel) :
    ∃ h₀ h', (hashInit fuel (some (asked, garbage))).run h = some (true, h₀) ∧
      (hashCalls f fuel ops).run h₀ =
        some ((referenceCalls ops (.empty : ClassSet (same f.less))).1, h') ∧
      h'.Represents f (referenceCalls ops .empty).2 := by
  obtain ⟨h₀, a, rows, hinit, hh, _⟩ :=
    run_hashInit fuel (L := fun _ => True) (fun e _ => helems e) asked garbage
  have hr : h₀.Represents f .empty := ⟨a, rows, hh, fun i hi x hx =>
    absurd (hh.mem.mpr ⟨i, hi, hx⟩) List.not_mem_nil⟩
  obtain ⟨h', hrun, hr'⟩ := run_hashCalls hr ops (show _ ≤ fuel by
    rw [ClassSet.empty, List.length_nil]
    omega)
  exact ⟨h₀, h', hinit, hrun, hr'⟩

theorem less_key_order : IsStrictWeakOrder (Int × Nat) fun x y => decide (x.1 < y.1) = true := by
  simp only [decide_eq_true_eq]
  exact
    { irrefl := fun x => Int.lt_irrefl x.1
      trans := fun x y z => Int.lt_trans
      incomp_trans := fun x y z hxy hyz => by omega }

theorem hash_key_eq (x y : Int × Nat)
    (hxy : same (fun x y : Int × Nat => decide (x.1 < y.1)) x y = true) :
    UInt32.ofNat x.1.toNat = UInt32.ofNat y.1.toNat := by
  simp only [same, Bool.and_eq_true, Bool.not_eq_true', decide_eq_false_iff_not] at hxy
  rw [show x.1 = y.1 by omega]

/-- Keys with a number to tell the elements of a key apart. -/
def keyFunctions : HashFunctions (Int × Nat) where
  hash e := UInt32.ofNat e.1.toNat
  less x y := x.1 < y.1
  order := less_key_order
  hash_eq := hash_key_eq

theorem hash_refines_set_keyFunctions :
    ∃ h₀ h', (hashInit 20 (some (0, fun _ => ⟨none, none⟩))).run
        ⟨0, 0, none, fun _ => some ⟨none, none⟩⟩ = some (true, h₀) ∧
      (hashCalls keyFunctions 20
        [.insert none (3, 0), .insert none (3, 1), .replace (some (1, fun _ => ⟨none, none⟩)) (3, 2),
          .find (3, 9), .delete none (4, 0), .delete none (3, 3), .find (3, 9), .clear none]).run h₀ =
        some ([none, some (3, 0), some (3, 0), some (3, 2), none, some (3, 2), none, none], h') ∧
      h'.Represents keyFunctions .empty :=
  hash_refines_set keyFunctions ⟨0, 0, none, fun _ => some ⟨none, none⟩⟩ (fun _ => rfl) 0
    (fun _ => ⟨none, none⟩)
    [.insert none (3, 0), .insert none (3, 1), .replace (some (1, fun _ => ⟨none, none⟩)) (3, 2),
      .find (3, 9), .delete none (4, 0), .delete none (3, 3), .find (3, 9), .clear none] (by decide)

end SystemProgramming.Testlib
