import SystemProgramming.Library.Triples
import SystemProgramming.Testlib.Effects

/-!
The arrays of buckets that are in use. The functions of `list.c` write links of
allocated elements only, so that a table has all its arrays from `hash_init` and
`rehash`. `rehash` has two of them for a while; before and after it, and in
between all commands, the array that the table points to is the only one.
-/

namespace SystemProgramming.Testlib

open SystemProgramming.Library

/-! ### `list.c` -/

section Lists

variable {α β : Type} {D : α → Bool}

/-- The elements that are allocated are those of `D`. -/
def Over (D : α → Bool) (h : Heap α) : Prop := ∀ x, (h x).isSome = D x

theorem preserves_read {prog : Prog α β} (p : Ptr α) (field : Link α → β)
    (hprog : ∀ h, prog.run h = (p.bind h).map fun l => (field l, h)) :
    Preserves (Over D) prog := by
  intro h b h' hh hrun
  rw [hprog] at hrun
  obtain ⟨l, _, heq⟩ := Option.map_eq_some_iff.mp hrun
  cases heq
  exact hh

theorem preserves_getPrev (p : Ptr α) : Preserves (Over D) (getPrev p) :=
  preserves_read p Link.prev fun _ => rfl

theorem preserves_getNext (p : Ptr α) : Preserves (Over D) (getNext p) :=
  preserves_read p Link.next fun _ => rfl

theorem preserves_ASSERT (condition : Bool) : Preserves (Over D) (ASSERT condition) :=
  .ite (.skip _) .failure

/-- A test of the two links of an element. -/
theorem preserves_links (p : Ptr α) (test : Ptr α → Ptr α → Bool) :
    Preserves (Over D) (do return test (← getPrev p) (← getNext p)) :=
  (preserves_getPrev p).bind fun _ => (preserves_getNext p).bind fun _ => .skip _

theorem preserves_isHead (elem : Ptr α) : Preserves (Over D) (isHead elem) := by
  cases elem with
  | none => exact .skip _
  | some a => exact preserves_links (some a) fun prev next => prev.isNone && next.isSome

theorem preserves_isInterior (elem : Ptr α) : Preserves (Over D) (isInterior elem) := by
  cases elem with
  | none => exact .skip _
  | some a => exact preserves_links (some a) fun prev next => prev.isSome && next.isSome

theorem preserves_isTail (elem : Ptr α) : Preserves (Over D) (isTail elem) := by
  cases elem with
  | none => exact .skip _
  | some a => exact preserves_links (some a) fun prev next => prev.isSome && next.isNone

theorem preserves_listBegin (list : CList α) : Preserves (Over D) (listBegin list) :=
  preserves_getNext _

theorem preserves_listNext (elem : Ptr α) : Preserves (Over D) (listNext elem) := by
  refine (preserves_isHead _).bind fun _ => (preserves_isInterior _).bind fun _ => ?_
  exact (preserves_ASSERT _).bind fun _ => preserves_getNext _

variable [DecidableEq α]

theorem preserves_setPrev (p v : Ptr α) : Preserves (Over D) (setPrev p v) := by
  intro h b h' hh hrun
  obtain ⟨a, _, hwrite⟩ := Option.bind_eq_some_iff.mp hrun
  obtain ⟨l, _, heq⟩ := Option.map_eq_some_iff.mp hwrite
  cases heq
  exact fun x => (Heap.isSome_setPrev h v).trans (hh x)

theorem preserves_setNext (p v : Ptr α) : Preserves (Over D) (setNext p v) := by
  intro h b h' hh hrun
  obtain ⟨a, _, hwrite⟩ := Option.bind_eq_some_iff.mp hrun
  obtain ⟨l, _, heq⟩ := Option.map_eq_some_iff.mp hwrite
  cases heq
  exact fun x => (Heap.isSome_setNext h v).trans (hh x)

theorem preserves_listInit (list : CList α) : Preserves (Over D) (listInit list) := by
  refine (preserves_setPrev _ _).bind fun _ => (preserves_setNext _ _).bind fun _ => ?_
  exact (preserves_setPrev _ _).bind fun _ => preserves_setNext _ _

theorem preserves_listInsert (before elem : Ptr α) :
    Preserves (Over D) (listInsert before elem) := by
  refine (preserves_isInterior _).bind fun _ => (preserves_isTail _).bind fun _ => ?_
  refine (preserves_ASSERT _).bind fun _ => (preserves_ASSERT _).bind fun _ => ?_
  refine (preserves_getPrev _).bind fun _ => (preserves_setPrev _ _).bind fun _ => ?_
  refine (preserves_setNext _ _).bind fun _ => (preserves_getPrev _).bind fun _ => ?_
  exact (preserves_setNext _ _).bind fun _ => preserves_setPrev _ _

theorem preserves_listPushFront (list : CList α) (elem : Ptr α) :
    Preserves (Over D) (listPushFront list elem) :=
  (preserves_listBegin _).bind fun _ => preserves_listInsert _ _

theorem preserves_listRemove (elem : Ptr α) : Preserves (Over D) (listRemove elem) := by
  refine (preserves_isInterior _).bind fun _ => (preserves_ASSERT _).bind fun _ => ?_
  refine (preserves_getPrev _).bind fun _ => (preserves_getNext _).bind fun _ => ?_
  refine (preserves_setNext _ _).bind fun _ => (preserves_getNext _).bind fun _ => ?_
  refine (preserves_getPrev _).bind fun _ => (preserves_setPrev _ _).bind fun _ => ?_
  exact preserves_getNext _

theorem preserves_listEmpty (list : CList α) : Preserves (Over D) (listEmpty list) :=
  (preserves_listBegin _).bind fun _ => .skip _

theorem preserves_listPopFront (list : CList α) : Preserves (Over D) (listPopFront list) := by
  refine Triple.bind ?_ fun front => (preserves_listRemove _).bind fun _ => .skip _
  refine (preserves_listEmpty _).bind fun _ => (preserves_ASSERT _).bind fun _ => ?_
  exact preserves_getNext _

end Lists

/-! ### Arrays -/

section Arrays

variable {ε β : Type} {A : Nat → Prop} {buckets : Option Nat} {h h' : Hash ε}

/-- A sentinel of the array is allocated. -/
def LiveArray (links : Heap (HashAddr ε)) (b : Nat) : Prop :=
  ∃ i, (links (.head b i)).isSome = true ∨ (links (.tail b i)).isSome = true

/-- The table points to `buckets`, and the arrays in use are in `A`. -/
structure ArraysIn (A : Nat → Prop) (buckets : Option Nat) (h : Hash ε) : Prop where
  installed : h.buckets = buckets
  live : ∀ b, LiveArray h.links b → A b

/-- The array of the table is the only one in use. -/
def Hash.Tidy (h : Hash ε) : Prop := ∀ b, LiveArray h.links b → h.buckets = some b

/-- No array is in use. -/
def Hash.NoArrays (h : Hash ε) : Prop := ∀ b, ¬ LiveArray h.links b

theorem LiveArray.congr {links links' : Heap (HashAddr ε)} {b : Nat} (hlive : LiveArray links' b)
    (hhead : ∀ b i, (links' (.head b i)).isSome = (links (.head b i)).isSome)
    (htail : ∀ b i, (links' (.tail b i)).isSome = (links (.tail b i)).isSome) :
    LiveArray links b := by
  obtain ⟨i, hi⟩ := hlive
  rw [hhead, htail] at hi
  exact ⟨i, hi⟩

theorem Hash.Tidy.arraysIn (h' : h.Tidy) : ArraysIn (fun b => h.buckets = some b) h.buckets h :=
  ⟨rfl, h'⟩

theorem ArraysIn.tidy (hh : ArraysIn A buckets h) (hA : ∀ b, A b → buckets = some b) : h.Tidy :=
  fun b hb => hh.installed.trans (hA b (hh.live b hb))

theorem ArraysIn.mono {A' : Nat → Prop} (hh : ArraysIn A buckets h) (hA : ∀ b, A b → A' b) :
    ArraysIn A' buckets h := ⟨hh.installed, fun b hb => hA b (hh.live b hb)⟩

/-- What preserves any set of arrays leaves a tidy table tidy. -/
theorem preserves_tidy {prog : HashProg ε β}
    (hprog : ∀ A buckets, Preserves (ArraysIn A buckets) prog) :
    Preserves Hash.Tidy prog := fun h _ _ hh hrun =>
  (hprog _ _ h _ _ hh.arraysIn hrun).tidy fun _ => id

theorem preserves_onBuckets {prog : Prog (HashAddr ε) β} (hprog : ∀ D, Preserves (Over D) prog) :
    Preserves (ArraysIn A buckets) (onBuckets prog) := by
  intro h b h' hh hrun
  obtain ⟨⟨_, links'⟩, hprog', heq⟩ := Option.map_eq_some_iff.mp hrun
  cases heq
  have hsame := hprog (fun x => (h.links x).isSome) h.links _ _ (fun _ => rfl) hprog'
  exact ⟨hh.installed, fun b hb => hh.live b (hb.congr (fun _ _ => hsame _) fun _ _ => hsame _)⟩

theorem preserves_getBuckets : Preserves (ArraysIn A buckets) (getBuckets : HashProg ε Nat) := by
  intro h b h' hh hrun
  obtain ⟨_, _, heq⟩ := Option.map_eq_some_iff.mp hrun
  cases heq
  exact hh

/-- The arrays are known when the table is looked at. -/
theorem triple_getBuckets :
    Triple Hash.Tidy (getBuckets : HashProg ε Nat) fun old => ArraysIn (· = old) (some old) := by
  intro h old h' hh hrun
  obtain ⟨_, hbuckets, heq⟩ := Option.map_eq_some_iff.mp hrun
  cases heq
  exact ⟨hbuckets, fun b hb => Option.some.inj ((hh b hb).symm.trans hbuckets)⟩

/-- The number of elements changes, and nothing else. -/
theorem preserves_setCnt (f : Nat → Nat) :
    Preserves (ArraysIn A buckets) (modify fun h : Hash ε => { h with elemCnt := f h.elemCnt }) :=
  .modify fun _ hh => ⟨hh.installed, hh.live⟩

/-- An array is given back. -/
theorem triple_freeBuckets (a : Nat) : Triple (ArraysIn A buckets) (freeBuckets a : HashProg ε Unit)
    fun _ => ArraysIn (fun b => A b ∧ b ≠ a) buckets := by
  intro h _ h' hh hrun
  obtain ⟨_, hfree⟩ := Option.ite_none_right_eq_some.mp hrun
  cases hfree
  refine ⟨hh.installed, fun b ⟨i, hi⟩ => ?_⟩
  rcases eq_or_ne b a with rfl | hne
  · simp at hi
  · simp only [if_neg hne] at hi
    exact ⟨hh.live b ⟨i, hi⟩, hne⟩

/-- An array is added. -/
theorem triple_mallocBuckets (memory : MallocArray ε) (cnt : Nat) :
    Triple (ArraysIn A buckets) (mallocBuckets memory cnt)
      fun new => ArraysIn (fun b => A b ∨ new = some b) buckets := by
  intro h _ h' hh hrun
  cases memory with
  | none =>
      cases hrun
      exact hh.mono fun _ => .inl
  | some memory =>
      cases hrun
      refine ⟨hh.installed, fun b ⟨i, hi⟩ => ?_⟩
      rcases eq_or_ne (if h.buckets = some memory.1 then memory.1 + 1 else memory.1) b with
        heq | hne
      · exact .inr (congrArg some heq)
      · simp only [Ne.symm hne, false_and, if_false] at hi
        exact .inl (hh.live b ⟨i, hi⟩)

/-- The table is made to point to another array. -/
theorem triple_install {f : Hash ε → Hash ε} (new : Option Nat)
    (hf : ∀ h, (f h).buckets = new ∧ (f h).links = h.links) :
    Triple (ArraysIn A buckets) (modify f : HashProg ε PUnit) fun _ => ArraysIn A new :=
  .modify fun h hh => ⟨(hf h).1, fun b hb => hh.live b ((hf h).2 ▸ hb)⟩

/-! ### `hash.c` -/

variable {hash : ε → UInt32} {less : ε → ε → Bool} {fuel : Nat}

theorem preserves_findBucket (e : ε) : Preserves (ArraysIn A buckets) (findBucket hash e) :=
  preserves_getBuckets.bind fun _ => .get fun _ => .skip _

variable [DecidableEq ε]

theorem preserves_clearBucketLoop (destructor : ε → Option (Link (HashAddr ε)))
    (bucket : CList (HashAddr ε)) (fuel : Nat) :
    Preserves (ArraysIn A buckets) (clearBucketLoop destructor bucket fuel) := by
  induction fuel with
  | zero => exact .failure
  | succ fuel ih =>
      refine (preserves_onBuckets fun _ => preserves_listEmpty _).bind fun empty =>
        .ite ?_ (.skip _)
      refine (preserves_onBuckets fun _ => preserves_listPopFront _).bind fun front => ?_
      split
      · refine Triple.bind (.modify fun h hh => ⟨hh.installed, fun b hb => hh.live b ?_⟩) fun _ =>
          ih.bind fun _ => .skip _
        exact hb.congr (fun _ _ => by simp) fun _ _ => by simp
      · exact .failure

theorem preserves_hashClear (fuel : Nat) (destructor : Option (ε → Option (Link (HashAddr ε)))) :
    Preserves (ArraysIn A buckets) (hashClear fuel destructor) := by
  refine preserves_getBuckets.bind fun a => .get fun h => ?_
  refine Triple.bind (.mapM (fun i => ?_) _) fun _ =>
    (preserves_setCnt fun _ => 0).bind fun _ => .skip _
  have hinit (calls : List ε) : Preserves (ArraysIn A buckets) (do
      onBuckets (listInit (bucketAt a i))
      return calls : HashProg ε (List ε)) :=
    (preserves_onBuckets fun _ => preserves_listInit _).bind fun _ => .skip _
  cases destructor with
  | none => exact (Triple.skip _).bind hinit
  | some destructor => exact (preserves_clearBucketLoop _ _ _).bind hinit

theorem preserves_findElemLoop {D : HashAddr ε → Bool} (bucket : CList (HashAddr ε)) (e : ε)
    (fuel : Nat) (i : Ptr (HashAddr ε)) :
    Preserves (Over D) (findElemLoop less bucket e fuel i) := by
  induction fuel generalizing i with
  | zero => exact .failure
  | succ fuel ih =>
      rw [findElemLoop.eq_def]
      refine .ite (.skip _) ?_
      split
      · exact .ite (.skip _) ((preserves_listNext _).bind fun _ => ih _)
      · exact .failure

theorem preserves_findElem (bucket : CList (HashAddr ε)) (e : ε) :
    Preserves (ArraysIn A buckets) (findElem less fuel bucket e) :=
  preserves_onBuckets fun _ => (preserves_listBegin _).bind fun _ => preserves_findElemLoop _ _ _ _

theorem preserves_insertElem (bucket : CList (HashAddr ε)) (e : ε) :
    Preserves (ArraysIn A buckets) (insertElem bucket e) :=
  (preserves_setCnt (· + 1)).bind fun _ => preserves_onBuckets fun _ => preserves_listPushFront _ _

theorem preserves_removeElem (e : ε) : Preserves (ArraysIn A buckets) (removeElem e) :=
  (preserves_setCnt (· - 1)).bind fun _ =>
    (preserves_onBuckets fun _ => preserves_listRemove _).bind fun _ => .skip _

theorem preserves_moveBucketLoop (oldBucket : CList (HashAddr ε)) (fuel : Nat)
    (elem : Ptr (HashAddr ε)) :
    Preserves (ArraysIn A buckets) (moveBucketLoop hash oldBucket fuel elem) := by
  induction fuel generalizing elem with
  | zero => exact .failure
  | succ fuel ih =>
      rw [moveBucketLoop.eq_def]
      refine .ite (.skip _) ?_
      split
      · refine (preserves_findBucket _).bind fun _ => ?_
        refine (preserves_onBuckets fun _ => preserves_listNext _).bind fun _ => ?_
        refine (preserves_onBuckets fun _ => preserves_listRemove _).bind fun _ => ?_
        exact (preserves_onBuckets fun _ => preserves_listPushFront _ _).bind fun _ => ih _
      · exact .failure

/-- `rehash` gives the old array back when the new one is filled. -/
theorem preserves_rehash (memory : MallocArray ε) :
    Preserves Hash.Tidy (rehash hash fuel memory) := by
  refine triple_getBuckets.bind fun old => .get fun h => .get fun h' => ?_
  have hone (s : Hash ε) (hs : ArraysIn (· = old) (some old) s) : s.Tidy :=
    hs.tidy fun b hb => congrArg some hb.symm
  refine (Triple.lift _).bind fun cnt => .ite (.pure hone) ?_
  refine (triple_mallocBuckets memory cnt).bind fun new => ?_
  cases new with
  | none => exact .pure fun s hs => hone s (hs.mono fun b hb => hb.elim id nofun)
  | some new =>
      refine Triple.bind (.forM (fun _ => preserves_onBuckets fun _ => preserves_listInit _) _)
        fun _ => Triple.bind (triple_install (some new) fun _ => ⟨rfl, rfl⟩) fun _ => ?_
      refine Triple.bind (.forM (fun i => ?_) _) fun _ => ?_
      · exact (preserves_onBuckets fun _ => preserves_listBegin _).bind fun _ =>
          preserves_moveBucketLoop _ _ _
      · refine (triple_freeBuckets old).conseq (fun _ => id) fun _ s hs => hs.tidy fun b hb => ?_
        exact hb.1.resolve_left hb.2

theorem preserves_hashInsert (memory : MallocArray ε) (e : ε) :
    Preserves Hash.Tidy (hashInsert hash less fuel memory e) := by
  refine (preserves_tidy fun _ _ => preserves_findBucket _).bind fun bucket => ?_
  refine (preserves_tidy fun _ _ => preserves_findElem _ _).bind fun old => ?_
  have hrehash : Preserves Hash.Tidy (do
      rehash hash fuel memory
      return old) := (preserves_rehash memory).bind fun _ => .skip _
  exact .ite ((preserves_tidy fun _ _ => preserves_insertElem _ _).bind fun _ => hrehash) hrehash

theorem preserves_hashReplace (memory : MallocArray ε) (e : ε) :
    Preserves Hash.Tidy (hashReplace hash less fuel memory e) := by
  refine (preserves_tidy fun _ _ => preserves_findBucket _).bind fun bucket => ?_
  refine (preserves_tidy fun _ _ => preserves_findElem _ _).bind fun old => ?_
  have hinsert : Preserves Hash.Tidy (do
      insertElem bucket e
      rehash hash fuel memory
      return old) :=
    (preserves_tidy fun _ _ => preserves_insertElem _ _).bind fun _ =>
      (preserves_rehash memory).bind fun _ => .skip _
  cases old with
  | none => exact hinsert
  | some old => exact (preserves_tidy fun _ _ => preserves_removeElem _).bind fun _ => hinsert

theorem preserves_hashFind (e : ε) :
    Preserves (ArraysIn A buckets) (hashFind hash less fuel e) :=
  (preserves_findBucket _).bind fun _ => preserves_findElem _ _

theorem preserves_hashDelete (memory : MallocArray ε) (e : ε) :
    Preserves Hash.Tidy (hashDelete hash less fuel memory e) := by
  refine (preserves_tidy fun _ _ => preserves_findBucket _).bind fun bucket => ?_
  refine (preserves_tidy fun _ _ => preserves_findElem _ _).bind fun found => ?_
  cases found with
  | none => exact .skip _
  | some found =>
      exact (preserves_tidy fun _ _ => preserves_removeElem _).bind fun _ =>
        (preserves_rehash memory).bind fun _ => .skip _

theorem preserves_applyBucketLoop {D : HashAddr ε → Bool} (bucket : CList (HashAddr ε))
    (fuel : Nat) (elem : Ptr (HashAddr ε)) :
    Preserves (Over D) (applyBucketLoop bucket fuel elem) := by
  induction fuel generalizing elem with
  | zero => exact .failure
  | succ fuel ih =>
      rw [applyBucketLoop.eq_def]
      refine .ite (.skip _) ?_
      split
      · exact (preserves_listNext _).bind fun _ => (ih _).bind fun _ => .skip _
      · exact .failure

theorem preserves_hashApply (fuel : Nat) :
    Preserves (ArraysIn A buckets) (hashApply fuel : HashProg ε (List ε)) := by
  refine preserves_getBuckets.bind fun _ => .get fun _ => Triple.bind (.mapM (fun _ => ?_) _)
    fun _ => .skip _
  exact preserves_onBuckets fun _ => (preserves_listBegin _).bind fun _ =>
    preserves_applyBucketLoop _ _ _

theorem preserves_hashNextLoop (fuel : Nat) (it : HashIterator ε) :
    Preserves (ArraysIn A buckets) (hashNextLoop fuel it) := by
  induction fuel generalizing it with
  | zero => exact .failure
  | succ fuel ih =>
      refine preserves_getBuckets.bind fun _ => .ite (.get fun _ => .ite (.skip _) ?_) (.skip _)
      exact (preserves_onBuckets fun _ => preserves_listBegin _).bind fun _ => ih _

theorem preserves_hashNext (fuel : Nat) (it : HashIterator ε) :
    Preserves (ArraysIn A buckets) (hashNext fuel it) :=
  (preserves_onBuckets fun _ => preserves_listNext _).bind fun _ => preserves_hashNextLoop _ _

/-- A new table has the array that it asks for. -/
theorem triple_hashInit (memory : MallocArray ε) :
    Triple Hash.NoArrays (hashInit fuel memory) fun _ => Hash.Tidy := by
  have hnone : Triple Hash.NoArrays
      (modify fun h : Hash ε => { h with elemCnt := 0, bucketCnt := 4, buckets := none })
      fun _ => ArraysIn (fun _ => False) none := .modify fun h hh => ⟨rfl, hh⟩
  refine hnone.bind fun _ => (triple_mallocBuckets memory 4).bind fun new => ?_
  refine Triple.bind (triple_install new fun _ => ⟨rfl, rfl⟩) fun _ => ?_
  have htidy (h : Hash ε) (hh : ArraysIn (fun b => False ∨ new = some b) new h) : h.Tidy :=
    hh.tidy fun b hb => hb.resolve_left id
  exact .ite ((preserves_hashClear fuel none).bind fun _ => .pure htidy) (.pure htidy)

/-- A table that is destroyed gives its array back. -/
theorem triple_hashDestroy (destructor : Option (ε → Option (Link (HashAddr ε)))) :
    Triple Hash.Tidy (hashDestroy fuel destructor) fun _ => Hash.NoArrays := by
  have hnone {h : Hash ε} (hh : h.Tidy) (hbuckets : h.buckets = none) (calls : List ε) :
      Triple (fun t => t = h) (pure calls : HashProg ε (List ε)) fun _ => Hash.NoArrays := by
    refine .pure fun t heq b hb => ?_
    rw [heq] at hb
    cases (hh b hb).symm.trans hbuckets
  have hsome {h : Hash ε} {a : Nat} (hh : h.Tidy) (hbuckets : h.buckets = some a)
      (calls : List ε) : Triple (fun t => t = h) (freeBuckets a >>= fun _ => pure calls)
        fun _ => Hash.NoArrays := by
    have harrays := hbuckets ▸ hh.arraysIn
    refine Triple.bind (.conseq (triple_freeBuckets a) (fun t heq => heq ▸ harrays)
      fun _ _ => id) fun _ => .pure fun t ht b hb => ?_
    obtain ⟨heq, hne⟩ := ht.live b hb
    exact hne (Option.some.inj heq).symm
  cases destructor with
  | none =>
      refine (Triple.skip _).bind fun calls => .look fun h hh => ?_
      cases hbuckets : h.buckets with
      | none => exact hnone hh hbuckets calls
      | some a => exact hsome hh hbuckets calls
  | some destructor =>
      refine (preserves_tidy fun _ _ => preserves_hashClear _ _).bind fun calls =>
        .look fun h hh => ?_
      cases hbuckets : h.buckets with
      | none => exact hnone hh hbuckets calls
      | some a => exact hsome hh hbuckets calls

end Arrays

/-! ### The commands of a table -/

section Commands

variable {β : Type} {I : Hash HashItem → Prop} {J : β → Hash HashItem → Prop} {fuel : Nat}

theorem triple_onTable {prog : HashProg HashItem β} (hprog : Triple I prog J) :
    Triple (fun s : HashInterp => I s.hash) (onTable prog) fun b s => J b s.hash := by
  intro s b s' hs hrun
  obtain ⟨⟨_, hash⟩, hprog', heq⟩ := Option.map_eq_some_iff.mp hrun
  cases heq
  exact hprog _ _ _ hs hprog'

theorem triple_withValues
    {prog : (HashItem → UInt32) → (HashItem → HashItem → Bool) → HashProg HashItem β}
    (hprog : ∀ hash less, Triple I (prog hash less) J) :
    Triple (fun s : HashInterp => I s.hash) (withValues prog) fun b s => J b s.hash :=
  .get fun _ => triple_onTable (hprog _ _)

/-- The links of an element are not those of an array. -/
theorem liveArray_update_elem {links : Heap (HashAddr HashItem)} {e : HashItem}
    {l : Option (Link (HashAddr HashItem))} {b : Nat} :
    LiveArray (Function.update links (.elem e) l) b ↔ LiveArray links b := by
  simp [LiveArray]

theorem preserves_makeHashItem (memory : Option (Nat × Link (HashAddr HashItem))) (value : Int) :
    Preserves (fun s : HashInterp => s.hash.Tidy) (makeHashItem memory value) := by
  intro s _ s' hs hrun
  cases memory with
  | none =>
      cases hrun
      exact hs
  | some memory =>
      cases hrun
      exact fun b hb => hs b (liveArray_update_elem.mp hb)

theorem preserves_freeHashItem (P : Hash HashItem → Prop) (hP : ∀ h e,
      P h → P { h with links := Function.update h.links (.elem e) none }) (e : HashItem) :
    Preserves (fun s : HashInterp => P s.hash) (freeHashItem e) := by
  intro s _ s' hs hrun
  cases e with
  | temp value => cases hrun
  | item n =>
      obtain ⟨_, heq⟩ := Option.ite_none_right_eq_some.mp hrun
      cases heq
      exact hP _ _ hs

theorem tidy_freeHashItem (e : HashItem) :
    Preserves (fun s : HashInterp => s.hash.Tidy) (freeHashItem e) :=
  preserves_freeHashItem _ (fun _ _ hh b hb => hh b (liveArray_update_elem.mp hb)) e

theorem preserves_hashAction (action : HashAction) (e : HashItem) :
    Preserves (fun s : HashInterp => I s.hash) (hashAction action e) := by
  intro s _ s' hs hrun
  cases e with
  | temp value => cases hrun
  | item n =>
      obtain ⟨_, _, hrest⟩ := Option.bind_eq_some_iff.mp hrun
      obtain ⟨_, _, heq⟩ := Option.bind_eq_some_iff.mp hrest
      cases heq
      exact hs

theorem preserves_hashPrintf (text : String) :
    Preserves (fun s : HashInterp => I s.hash) (hashPrintf text) := .modify fun _ => id

theorem preserves_getItemValue (e : HashItem) :
    Preserves (fun s : HashInterp => I s.hash) (getItemValue e) := by
  cases e with
  | temp value => exact .skip _
  | item n =>
      intro s _ s' hs hrun
      obtain ⟨_, _, heq⟩ := Option.map_eq_some_iff.mp hrun
      cases heq
      exact hs

theorem preserves_dumpHashLoop (fuel rounds : Nat) (it : HashIterator HashItem) (first : Bool) :
    Preserves (fun s : HashInterp => s.hash.Tidy) (dumpHashLoop fuel rounds it first) := by
  induction rounds generalizing it first with
  | zero => exact .failure
  | succ rounds ih =>
      refine (triple_onTable (preserves_tidy fun _ _ => preserves_hashNext _ _)).bind fun it => ?_
      dsimp only
      split
      · exact .skip _
      · refine Triple.ite ((preserves_hashPrintf _).bind fun _ => ?_) ?_ <;>
          exact (preserves_getItemValue _).bind fun _ =>
            (preserves_hashPrintf _).bind fun _ => ih _ _
      · exact .failure

theorem preserves_dumpHash (fuel : Nat) :
    Preserves (fun s : HashInterp => s.hash.Tidy) (dumpHash fuel) := by
  refine (triple_onTable (J := fun _ => Hash.Tidy) (preserves_tidy fun _ _ => ?_)).bind fun _ =>
    (preserves_dumpHashLoop _ _ _ _).bind fun _ => preserves_hashPrintf _
  exact preserves_getBuckets.bind fun _ => .skip _

theorem triple_clearTable (fuel : Nat) : Triple (fun s : HashInterp => s.hash.Tidy)
    (clearTable fuel) fun _ s => s.hash.NoArrays := by
  refine (triple_onTable (triple_hashDestroy _)).bind fun items => .forM (fun e => ?_) _
  exact preserves_freeHashItem _ (fun _ _ hh b hb => hh b (liveArray_update_elem.mp hb)) e

theorem triple_createHashObject (memory : MallocArray HashItem) :
    Triple (fun s : HashInterp => s.hash.NoArrays) (createHashObject fuel memory)
      fun _ s => s.hash.Tidy :=
  (triple_onTable (triple_hashInit memory)).bind fun _ => .skip _

theorem preserves_doHashCommand (memory : HashMalloc) (c : HashCommand) :
    Preserves (fun s : HashInterp => s.hash.Tidy) (doHashCommand fuel memory c) := by
  cases c with
  | insert value =>
      refine (preserves_makeHashItem _ _).bind fun item => ?_
      cases item with
      | none => exact .skip _
      | some item =>
          refine (triple_withValues fun _ _ => preserves_hashInsert _ _).bind fun old => ?_
          exact .ite (tidy_freeHashItem _) (.skip _)
  | replace value =>
      refine (preserves_makeHashItem _ _).bind fun item => ?_
      cases item with
      | none => exact .skip _
      | some item =>
          refine (triple_withValues fun _ _ => preserves_hashReplace _ _).bind fun old => ?_
          cases old with
          | none => exact .skip _
          | some old => exact tidy_freeHashItem _
  | delete value =>
      refine (triple_withValues fun _ _ => preserves_hashDelete _ _).bind fun found => ?_
      cases found with
      | none => exact .skip _
      | some found => exact tidy_freeHashItem _
  | find value =>
      refine (triple_withValues fun _ _ => preserves_tidy fun _ _ =>
        preserves_hashFind _).bind fun found => ?_
      cases found with
      | none => exact .skip _
      | some found => exact (preserves_getItemValue _).bind fun _ => preserves_hashPrintf _
  | size => exact (triple_onTable (.get fun _ => .skip _)).bind fun _ => preserves_hashPrintf _
  | empty => exact (triple_onTable (.get fun _ => .skip _)).bind fun _ => preserves_hashPrintf _
  | clear =>
      refine (triple_onTable (preserves_tidy fun _ _ => preserves_hashClear _ _)).bind
        fun items => ?_
      exact .forM tidy_freeHashItem _
  | apply action =>
      cases action with
      | none => exact .skip _
      | some action =>
          refine (triple_onTable (preserves_tidy fun _ _ => preserves_hashApply _)).bind
            fun items => ?_
          exact .forM (preserves_hashAction action) _

end Commands

end SystemProgramming.Testlib
