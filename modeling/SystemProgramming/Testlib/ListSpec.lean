import SystemProgramming.Testlib.List

/-!
What the functions of `list.c` do to a well-formed list. `IsList h list xs`
says that the list holds the elements `xs`; every function has one lemma that
runs it from such a state, and a change of a list touches the cells of that
list and of the elements given only.
-/

namespace SystemProgramming.Testlib

open SystemProgramming.Library

variable {α β : Type}

namespace CList

/-- The addresses of a list with the elements `xs`, the two sentinels included. -/
def row (list : CList α) (xs : List α) : List α := list.head :: xs ++ [list.tail]

end CList

/-- A well-formed list: its elements are distinct and linked both ways between the
sentinels, whose outer links are null. -/
structure IsList (h : Heap α) (list : CList α) (xs : List α) : Prop where
  seg : Seg h none (list.row xs) none
  nodup : (list.row xs).Nodup

/-- A memory with the given lists. Every other address is an element in none of them. -/
def memoryOf [DecidableEq α] : List (CList α × List α) → Heap α
  | [], _ => some ⟨none, none⟩
  | (list, xs) :: rest, x => (linked none none (list.row xs) x).or (memoryOf rest x)

theorem isList_memoryOf [DecidableEq α] {lists : List (CList α × List α)}
    (hnodup : (lists.flatMap fun l => l.1.row l.2).Nodup) :
    ∀ l ∈ lists, IsList (memoryOf lists) l.1 l.2 := by
  induction lists with
  | nil => simp
  | cons l lists ih =>
      obtain ⟨hrow, hrest, hdisj⟩ := List.nodup_append.mp (List.flatMap_cons ▸ hnodup)
      intro k hk
      rcases List.mem_cons.mp hk with rfl | hk
      · have hseg := seg_linked none none hrow
        refine ⟨hseg.congr fun x hx => ?_, hrow⟩
        obtain ⟨link, hlink⟩ := Option.isSome_iff_exists.mp (hseg.isSome hx)
        rw [memoryOf, hlink, Option.some_or]
      · have hl := ih hrest k hk
        refine ⟨hl.seg.congr fun x hx => ?_, hl.nodup⟩
        have hnot : x ∉ l.1.row l.2 := fun hmem =>
          hdisj x hmem x (List.mem_flatMap.mpr ⟨k, hk, hx⟩) rfl
        rw [memoryOf, linked_of_notMem _ _ hnot, Option.none_or]

theorem isSome_memoryOf [DecidableEq α] (lists : List (CList α × List α)) (x : α) :
    (memoryOf lists x).isSome = true := by
  induction lists with
  | nil => rfl
  | cons l lists ih => simp [memoryOf, ih]

/-! ### Running a program -/

section Run

variable {h : Heap α} {a : α}

theorem run_bind_of {σ γ : Type} {m : StateT σ Option β} {f : β → StateT σ Option γ} {b : β}
    {s t : σ} (hm : m.run s = some (b, t)) : (m >>= f).run s = (f b).run t := by
  rw [StateT.run_bind, hm]
  rfl

theorem exists_of_run_bind {σ γ : Type} {m : StateT σ Option β} {f : β → StateT σ Option γ}
    {s : σ} {r : γ × σ} (hrun : (m >>= f).run s = some r) :
    ∃ b t, m.run s = some (b, t) ∧ (f b).run t = some r := by
  rw [StateT.run_bind] at hrun
  obtain ⟨⟨b, t⟩, hm, hf⟩ := Option.bind_eq_some_iff.mp hrun
  exact ⟨b, t, hm, hf⟩

@[simp] theorem run_getPrev : (getPrev (some a)).run h = (h a).map fun l => (l.prev, h) := rfl

@[simp] theorem run_getNext : (getNext (some a)).run h = (h a).map fun l => (l.next, h) := rfl

@[simp] theorem run_assert_true : (ASSERT true : Prog α Unit).run h = some ((), h) := rfl

@[simp] theorem run_call (result : Option β) :
    (call result : Prog α β).run h = result.map fun b => (b, h) := rfl

@[simp] theorem run_isHead :
    (isHead (some a)).run h = (h a).map fun l => (l.prev.isNone && l.next.isSome, h) := by
  cases ha : h a <;> simp [isHead, ha]

@[simp] theorem run_isInterior :
    (isInterior (some a)).run h = (h a).map fun l => (l.prev.isSome && l.next.isSome, h) := by
  cases ha : h a <;> simp [isInterior, ha]

@[simp] theorem run_isTail :
    (isTail (some a)).run h = (h a).map fun l => (l.prev.isSome && l.next.isNone, h) := by
  cases ha : h a <;> simp [isTail, ha]

theorem run_listNext {p : Option α} {n : α} (ha : h a = some ⟨p, some n⟩) :
    (listNext (some a)).run h = some (some n, h) := by
  cases p <;> simp [listNext, ha]

theorem run_listPrev {p : α} {n : Option α} (ha : h a = some ⟨some p, n⟩) :
    (listPrev (some a)).run h = some (some p, h) := by
  cases n <;> simp [listPrev, ha]

variable [DecidableEq α]

@[simp] theorem run_setPrev (v : Ptr α) (ha : (h a).isSome = true) :
    (setPrev (some a) v).run h = some ((), h.setPrev a v) := by
  obtain ⟨l, hl⟩ := Option.isSome_iff_exists.mp ha
  change (h a).map (fun _ => ((), h.setPrev a v)) = _
  rw [hl, Option.map_some]

@[simp] theorem run_setNext (v : Ptr α) (ha : (h a).isSome = true) :
    (setNext (some a) v).run h = some ((), h.setNext a v) := by
  obtain ⟨l, hl⟩ := Option.isSome_iff_exists.mp ha
  change (h a).map (fun _ => ((), h.setNext a v)) = _
  rw [hl, Option.map_some]

end Run

/-! ### Insertion and removal -/

section Surgery

variable [DecidableEq α] {h : Heap α} {p n : Option α} {A s B : List α} {a b c e f l : α}

theorem run_listInsert (hseg : Seg h p (A ++ B) n) (hnodup : (A ++ [e] ++ B).Nodup)
    (ha : A.getLast? = some a) (hb : B.head? = some b) (he : (h e).isSome = true) :
    ∃ h', (listInsert (some b) (some e)).run h = some ((), h') ∧
      Seg h' p (A ++ [e] ++ B) n ∧ h.SameOff (A ++ [e] ++ B) h' := by
  obtain ⟨le, hle⟩ := Option.isSome_iff_exists.mp he
  have haA : a ∈ A := List.mem_of_getLast? ha
  have hbB : b ∈ B := List.mem_of_head? hb
  obtain ⟨B', rfl⟩ : ∃ B', B = b :: B' := List.head?_eq_some_iff.mp hb
  have hlb : h b = some ⟨some a, first B' n⟩ := last_of_getLast ha p ▸ hseg.get
  obtain ⟨la, hla⟩ := Option.isSome_iff_exists.mp (hseg.isSome (List.mem_append_left _ haA))
  obtain ⟨hnAe, _, hdB⟩ := List.nodup_append.mp hnodup
  have hbe : b ≠ e := fun heq => hdB e (by simp) b hbB heq.symm
  have hae : a ≠ e := fun heq => (List.nodup_append.mp hnAe).2.2 a haA e (by simp) heq
  have hba : b ≠ a := fun heq => hdB a (by simp [haA]) b hbB heq.symm
  have hes : Seg h le.prev [e] le.next := ⟨hle, trivial⟩
  refine ⟨_, ?_, hseg.relink hes hnodup ha hb rfl rfl, ?_⟩
  · cases hn : first B' n <;>
      simp [listInsert, hlb, hle, hla, hn, hbe, hae, hba]
  · exact (((Heap.SameOff.setPrev h (by simp) _).trans (Heap.SameOff.setNext _ (by simp) _)).trans
      (Heap.SameOff.setNext _ (by simp [haA]) _)).trans (Heap.SameOff.setPrev _ (by simp) _)

theorem run_listRemove (hseg : Seg h p (A ++ [e] ++ B) n) (hnodup : (A ++ [e] ++ B).Nodup)
    (ha : A.getLast? = some a) (hb : B.head? = some b) :
    ∃ h', (listRemove (some e)).run h = some (some b, h') ∧ Seg h' p (A ++ B) n ∧
      h.SameOff (A ++ B) h' := by
  have haA : a ∈ A := List.mem_of_getLast? ha
  have hbB : b ∈ B := List.mem_of_head? hb
  have hle : h e = some ⟨some a, some b⟩ := by
    have hget : h e = some ⟨last p A, first B n⟩ := by
      rw [List.append_assoc] at hseg
      exact hseg.get
    rw [hget, last_of_getLast ha, first_of_head hb]
  obtain ⟨la, hla⟩ := Option.isSome_iff_exists.mp (hseg.isSome (a := a) (by simp [haA]))
  obtain ⟨lb, hlb⟩ := Option.isSome_iff_exists.mp (hseg.isSome (a := b) (by simp [hbB]))
  obtain ⟨hnAe, _, hdB⟩ := List.nodup_append.mp hnodup
  have hbe : e ≠ b := fun heq => hdB e (by simp) b hbB heq
  have hae : e ≠ a := fun heq => (List.nodup_append.mp hnAe).2.2 a haA e (by simp) heq.symm
  have hba : b ≠ a := fun heq => hdB a (by simp [haA]) b hbB heq.symm
  refine ⟨_, ?_, (hseg.unlink hnodup ha hb).1, ?_⟩
  · simp [listRemove, hle, hla, hlb, hbe, hae, hba]
  · exact (Heap.SameOff.setNext h (by simp [haA]) _).trans
      (Heap.SameOff.setPrev _ (by simp [hbB]) _)

/-- The writes of `list_splice`: the link from `a` to `f` becomes one to `c`, the one from
`l` to `c` one to `b`, and the one from `d` to `b` one to `f`. -/
def spliceLinks (h : Heap α) (a f l c d b : α) : Heap α :=
  (((((h.setNext a (some c)).setPrev c (some a)).setPrev f (some d)).setNext l
    (some b)).setNext d (some f)).setPrev b (some l)

/-- A range that is not empty; `d` is in front of `b` once the range is out. -/
theorem run_listSplice_writes {x y u : α} {t w : Option α} (hf : h f = some ⟨some a, some x⟩)
    (hl : h l = some ⟨some y, some c⟩) (hc : h c = some ⟨some l, t⟩)
    (hb : h b = some ⟨some u, w⟩) (ha : (h a).isSome = true) (hd : (h d).isSome = true)
    (hfc : f ≠ c) (hfa : f ≠ a) (hla : l ≠ a)
    (hdb : (((h.setNext a (some c)).setPrev c (some a)) b).map Link.prev = some (some d)) :
    (listSplice (some b) (some f) (some c)).run h = some ((), spliceLinks h a f l c d b) := by
  have hassert : (w.isSome || w.isNone) = true := by cases w <;> rfl
  have hf₁ : (((h.setNext a (some c)).setPrev c (some a)) f).isSome = true := by simp [hf]
  have hl₁ : (((h.setNext a (some c)).setPrev c (some a)) l).isSome = true := by simp [hl]
  have hd₁ : (((h.setNext a (some c)).setPrev c (some a)) d).isSome = true := by simpa using hd
  obtain ⟨k, hk, hkd⟩ := Option.map_eq_some_iff.mp hdb
  -- `b` may be the first or the last of the range
  have hb₂ : ∃ k', ((((h.setNext a (some c)).setPrev c (some a)).setPrev f (some d)).setNext l
      (some b)) b = some k' ∧ k'.prev = some d := by
    generalize (h.setNext a (some c)).setPrev c (some a) = h₁ at hk
    by_cases hbl : b = l <;> by_cases hbf : b = f <;> simp_all
  obtain ⟨k', hk', hkd'⟩ := hb₂
  generalize hh₁ : (h.setNext a (some c)).setPrev c (some a) = h₁ at *
  simp [listSplice, spliceLinks, hb, hassert, hfc, run_listPrev hc, hf, hl, hc, hfa, hla,
    hh₁, hf₁, hl₁, hd₁, hk, hkd, hk', hkd', ha]

/-- `list_splice` takes the segment `s` out of its row and puts it in front of `b`. The
row of `b` is read after the removal, when it may be the same one. -/
theorem run_listSplice {C D : List α} {q m : Option α} {d : α}
    (hseg : Seg h p (A ++ s ++ B) n) (hnodup : (A ++ s ++ B).Nodup)
    (ha : A.getLast? = some a) (hc : B.head? = some c) (hf : s.head? = some f)
    (hl : s.getLast? = some l)
    (htarget : Seg ((h.setNext a (some c)).setPrev c (some a)) q (C ++ D) m)
    (hnodup' : (C ++ s ++ D).Nodup) (hd : C.getLast? = some d) (hb : D.head? = some b) :
    ∃ h', (listSplice (some b) (some f) (some c)).run h = some ((), h') ∧
      Seg h' q (C ++ s ++ D) m ∧
      Heap.SameOff (C ++ s ++ D) ((h.setNext a (some c)).setPrev c (some a)) h' := by
  obtain ⟨hnAs, _, hdB⟩ := List.nodup_append.mp hnodup
  have haA : a ∈ A := List.mem_of_getLast? ha
  have hcB : c ∈ B := List.mem_of_head? hc
  have hfs : f ∈ s := List.mem_of_head? hf
  have hls : l ∈ s := List.mem_of_getLast? hl
  have hdC : d ∈ C := List.mem_of_getLast? hd
  have hbD : b ∈ D := List.mem_of_head? hb
  have hfc : f ≠ c := fun heq => hdB f (by simp [hfs]) c hcB heq
  have hfa : f ≠ a := fun heq => (List.nodup_append.mp hnAs).2.2 a haA f hfs heq.symm
  have hla : l ≠ a := fun heq => (List.nodup_append.mp hnAs).2.2 a haA l hls heq.symm
  -- the links read on the way
  have hsegs := (seg_append _ _ _ _ _).mp hseg
  have hs := ((seg_append _ _ _ _ _).mp hsegs.1).2
  rw [last_of_getLast ha, first_of_head hc] at hs
  obtain ⟨nf, hlf⟩ : ∃ nf, h f = some ⟨some a, some nf⟩ := by
    obtain ⟨t, rfl⟩ := List.head?_eq_some_iff.mp hf
    cases t with
    | nil => exact ⟨c, hs.1⟩
    | cons x t => exact ⟨x, hs.1⟩
  obtain ⟨pl, hll⟩ : ∃ pl, h l = some ⟨some pl, some c⟩ := by
    obtain ⟨t, rfl⟩ := List.getLast?_eq_some_iff.mp hl
    have hget : h l = some ⟨last (some a) t, some c⟩ := ((seg_append _ _ _ _ _).mp hs).2.1
    cases ht : t.getLast? with
    | none => exact ⟨a, by rw [hget, last, ht]; rfl⟩
    | some x => exact ⟨x, by rw [hget, last_of_getLast ht]⟩
  obtain ⟨B', hB⟩ := List.head?_eq_some_iff.mp hc
  have hlC : h c = some ⟨some l, first B' n⟩ := by
    rw [hB] at hseg
    rw [hseg.get, last_append, last_of_getLast hl]
  obtain ⟨la, hlA⟩ := Option.isSome_iff_exists.mp (hseg.isSome (a := a) (by simp [haA]))
  obtain ⟨D', hD⟩ := List.head?_eq_some_iff.mp hb
  have hlb : ((h.setNext a (some c)).setPrev c (some a)) b = some ⟨some d, first D' m⟩ := by
    rw [hD] at htarget
    rw [htarget.get, last_of_getLast hd]
  obtain ⟨pb, nb, hlb'⟩ : ∃ pb nb, h b = some ⟨some pb, nb⟩ := by
    by_cases hbc : b = c
    · exact ⟨l, _, hbc ▸ hlC⟩
    · rw [Heap.setPrev_of_ne _ _ hbc] at hlb
      by_cases hba : b = a
      · subst hba
        rw [Heap.setNext_self, hlA, Option.map_some] at hlb
        exact ⟨d, la.next, by rw [hlA, ← (Link.mk.inj (Option.some.inj hlb)).1]⟩
      · exact ⟨d, _, by rw [← hlb, Heap.setNext_of_ne _ _ hba]⟩
  have hfl : Seg ((h.setNext a (some c)).setPrev c (some a)) (some a) s (some c) :=
    (hseg.unlink hnodup ha hc).2
  have hsome : (h d).isSome = true := by
    have hd₁ := htarget.isSome (a := d) (by simp [hdC])
    simpa using hd₁
  refine ⟨_, run_listSplice_writes hlf hll hlC hlb' (by rw [hlA]; rfl) hsome hfc hfa hla
    (by rw [hlb]; rfl), htarget.relink hfl hnodup' hd hb hf hl, ?_⟩
  exact (((Heap.SameOff.setPrev _ (by simp [hfs]) _).trans
    (Heap.SameOff.setNext _ (by simp [hls]) _)).trans
    (Heap.SameOff.setNext _ (by simp [hdC]) _)).trans
    (Heap.SameOff.setPrev _ (by simp [hbD]) _)

end Surgery

/-! ### Cursors

A place in a list is a way to write its elements as `ys ++ zs`; the pointer
there is the first of `zs`, or the tail. -/

section Cursors

variable {h : Heap α} {list : CList α} {xs ys zs : List α} {z : α}

theorem first_some (zs : List α) (t : α) : ∃ b, first zs (some t) = some b := by
  cases zs with
  | nil => exact ⟨t, rfl⟩
  | cons z zs => exact ⟨z, rfl⟩

theorem last_some (t : α) (ys : List α) : ∃ a, last (some t) ys = some a := by
  unfold last
  cases ys.getLast? with
  | none => exact ⟨t, rfl⟩
  | some y => exact ⟨y, rfl⟩

theorem exists_getLast {x : α} (hx : xs.head? = some x) : ∃ y, xs.getLast? = some y := by
  obtain ⟨xs, rfl⟩ := List.head?_eq_some_iff.mp hx
  exact ⟨_, List.getLast?_eq_some_getLast (List.cons_ne_nil x xs)⟩

theorem CList.row_append (list : CList α) (ys zs : List α) :
    list.row (ys ++ zs) = (list.head :: ys) ++ (zs ++ [list.tail]) := by
  simp [row]

theorem CList.mem_row {list : CList α} {x : α} :
    x ∈ list.row xs ↔ x = list.head ∨ x ∈ xs ∨ x = list.tail := by
  simp [row]

theorem head?_tail (t : α) (zs : List α) : (zs ++ [t]).head? = first zs (some t) := by
  cases zs <;> rfl

theorem getLast?_head (t : α) (ys : List α) : (t :: ys).getLast? = last (some t) ys := by
  rw [List.getLast?_cons, last]
  cases ys.getLast? <;> rfl

/-- The tail is not an element. -/
theorem IsList.ne_tail (hl : IsList h list xs) {x : α} (hx : x ∈ xs) : x ≠ list.tail := by
  have hnodup := hl.nodup
  rw [CList.row, List.cons_append, List.nodup_cons] at hnodup
  exact fun heq => (List.nodup_append.mp hnodup.2).2.2 x hx list.tail (by simp) heq

theorem IsList.ne_head (hl : IsList h list xs) {x : α} (hx : x ∈ xs) : x ≠ list.head := by
  have hnodup := hl.nodup
  rw [CList.row, List.cons_append, List.nodup_cons] at hnodup
  exact fun heq => hnodup.1 (heq ▸ List.mem_append_left _ hx)

theorem IsList.head_ne_tail (hl : IsList h list xs) : list.head ≠ list.tail := by
  have hnodup := hl.nodup
  rw [CList.row, List.cons_append, List.nodup_cons] at hnodup
  exact fun heq => hnodup.1 (heq ▸ List.mem_append_right _ (List.mem_singleton_self _))

theorem IsList.nodup_elems (hl : IsList h list xs) : xs.Nodup := by
  have hnodup := hl.nodup
  rw [CList.row, List.cons_append, List.nodup_cons] at hnodup
  exact (List.nodup_append.mp hnodup.2).1

/-- A cursor stands at the tail only behind the last element. -/
theorem IsList.first_eq_tail_iff (hl : IsList h list (ys ++ zs)) :
    first zs (some list.tail) = listEnd list ↔ zs = [] := by
  cases zs with
  | nil => simp [listEnd]
  | cons z zs => simpa [listEnd] using hl.ne_tail (x := z) (by simp)

theorem IsList.head_links (hl : IsList h list xs) :
    h list.head = some ⟨none, first xs (some list.tail)⟩ := by
  have hseg := hl.seg
  rw [CList.row, List.cons_append] at hseg
  simpa using hseg.1

theorem IsList.tail_links (hl : IsList h list xs) :
    h list.tail = some ⟨last (some list.head) xs, none⟩ := by
  have hseg := hl.seg
  rw [CList.row] at hseg
  simpa using hseg.get

theorem IsList.links (hl : IsList h list (ys ++ z :: zs)) :
    h z = some ⟨last (some list.head) ys, first zs (some list.tail)⟩ := by
  have hseg : Seg h none ((list.head :: ys) ++ z :: (zs ++ [list.tail])) none :=
    list.row_append ys (z :: zs) ▸ hl.seg
  simpa using hseg.get

/-- Lists whose cells lie elsewhere do not change. -/
theorem IsList.sameOff {h' : Heap α} {S : List α} (hl : IsList h list xs)
    (hsame : h.SameOff S h') (hdisj : ∀ x ∈ list.row xs, x ∉ S) : IsList h' list xs :=
  ⟨hl.seg.sameOff hsame hdisj, hl.nodup⟩

theorem run_listNext_at (hl : IsList h list (ys ++ z :: zs)) :
    (listNext (some z)).run h = some (first zs (some list.tail), h) := by
  obtain ⟨b, hb⟩ := first_some zs list.tail
  rw [hb]
  exact run_listNext (hb ▸ hl.links)

theorem run_listPrev_at (hl : IsList h list (ys ++ zs)) :
    (listPrev (first zs (some list.tail))).run h = some (last (some list.head) ys, h) := by
  obtain ⟨a, ha⟩ := last_some list.head ys
  rw [ha]
  cases zs with
  | nil =>
      have htail := hl.tail_links
      rw [List.append_nil, ha] at htail
      exact run_listPrev htail
  | cons z zs => exact run_listPrev (ha ▸ hl.links)

/-- A cursor that stands in front of `zs`, at the head or at an element. -/
theorem run_listNext_last (hl : IsList h list (ys ++ zs)) :
    (listNext (last (some list.head) ys)).run h = some (first zs (some list.tail), h) := by
  rcases List.eq_nil_or_concat ys with rfl | ⟨ys, y, rfl⟩
  · obtain ⟨b, hb⟩ := first_some zs list.tail
    rw [hb]
    exact run_listNext (hb ▸ hl.head_links)
  · rw [List.concat_eq_append, last_concat]
    exact run_listNext_at (show IsList h list (ys ++ y :: zs) by simpa using hl)

theorem run_listBegin (hl : IsList h list xs) :
    (listBegin list).run h = some (first xs (some list.tail), h) := by
  simp [listBegin, hl.head_links]

variable [DecidableEq α]

theorem run_listEmpty (hl : IsList h list xs) :
    (listEmpty list).run h = some (xs.isEmpty, h) := by
  rw [listEmpty, run_bind_of (run_listBegin hl)]
  cases xs with
  | nil => simp [listEnd]
  | cons x xs => simpa [listEnd] using hl.ne_tail (x := x) (by simp)

theorem run_listFront (hl : IsList h list (z :: zs)) :
    (listFront list).run h = some (some z, h) := by
  rw [listFront, run_bind_of (run_listEmpty hl)]
  simp [hl.head_links]

theorem run_listBack (hl : IsList h list (ys ++ [z])) :
    (listBack list).run h = some (some z, h) := by
  have hempty : (ys ++ [z]).isEmpty = false := by cases ys <;> rfl
  rw [listBack, run_bind_of (run_listEmpty hl), hempty]
  simp [hl.tail_links]

theorem run_listSize (hl : IsList h list xs) {fuel : Nat} (hfuel : xs.length < fuel) :
    (listSize fuel list).run h = some (xs.length, h) := by
  have hloop (fuel : Nat) : ∀ ys zs cnt, IsList h list (ys ++ zs) → zs.length < fuel →
      (listSizeLoop list fuel (first zs (some list.tail)) cnt).run h =
        some (cnt + zs.length, h) := by
    induction fuel with
    | zero => exact fun _ _ _ _ hlen => absurd hlen (Nat.not_lt_zero _)
    | succ fuel ih =>
        intro ys zs cnt hl hlen
        rw [listSizeLoop]
        cases zs with
        | nil => simp [listEnd]
        | cons z zs =>
            have hne : first (z :: zs) (some list.tail) ≠ listEnd list := fun heq =>
              List.cons_ne_nil _ _ (hl.first_eq_tail_iff.mp heq)
            rw [if_neg hne, first_cons, run_bind_of (run_listNext_at hl)]
            have hrest := ih (ys ++ [z]) zs (cnt + 1) (by simpa using hl)
              (by simpa using hlen)
            rw [hrest, List.length_cons]
            congr 2
            omega
  rw [listSize, run_bind_of (run_listBegin hl), hloop fuel [] xs 0 hl hfuel, Nat.zero_add]

/-! ### Changing a list -/

theorem run_listInit (hhead : (h list.head).isSome = true) (htail : (h list.tail).isSome = true)
    (hne : list.head ≠ list.tail) :
    ∃ h', (listInit list).run h = some ((), h') ∧ IsList h' list [] ∧
      h.SameOff (list.row []) h' := by
  obtain ⟨lh, hlh⟩ := Option.isSome_iff_exists.mp hhead
  obtain ⟨lt, hlt⟩ := Option.isSome_iff_exists.mp htail
  refine ⟨(((h.setPrev list.head none).setNext list.head (some list.tail)).setPrev list.tail
    (some list.head)).setNext list.tail none, ?_, ⟨?_, ?_⟩, ?_⟩
  · simp [listInit, hhead, htail]
  · simp [CList.row, hlh, hlt, hne, Ne.symm hne]
  · simpa [CList.row] using hne
  · exact (((Heap.SameOff.setPrev h (by simp [CList.row]) _).trans
      (.setNext _ (by simp [CList.row]) _)).trans (.setPrev _ (by simp [CList.row]) _)).trans
      (.setNext _ (by simp [CList.row]) _)

theorem run_listInsert_at (hl : IsList h list (ys ++ zs)) {e : α}
    (he : (h e).isSome = true) (hnot : e ∉ list.row (ys ++ zs)) :
    ∃ h', (listInsert (first zs (some list.tail)) (some e)).run h = some ((), h') ∧
      IsList h' list (ys ++ e :: zs) ∧ h.SameOff (e :: list.row (ys ++ zs)) h' := by
  obtain ⟨a, ha⟩ := last_some list.head ys
  obtain ⟨b, hb⟩ := first_some zs list.tail
  have hnodup : ((list.head :: ys) ++ [e] ++ (zs ++ [list.tail])).Nodup := by
    rw [List.append_assoc, List.singleton_append, List.nodup_middle, ← list.row_append]
    exact List.nodup_cons.mpr ⟨hnot, hl.nodup⟩
  obtain ⟨h', hrun, hseg, hsame⟩ := run_listInsert (list.row_append ys zs ▸ hl.seg) hnodup
    ((getLast?_head _ _).trans ha) ((head?_tail _ _).trans hb) he
  have hrow : list.row (ys ++ e :: zs) = (list.head :: ys) ++ [e] ++ (zs ++ [list.tail]) := by
    simp [CList.row]
  refine ⟨h', hb ▸ hrun, ⟨hrow ▸ hseg, hrow ▸ hnodup⟩, hsame.mono fun x hx => ?_⟩
  simp only [List.mem_cons, CList.mem_row, List.mem_append, List.cons_append] at hx ⊢
  tauto

theorem run_listRemove_at (hl : IsList h list (ys ++ z :: zs)) :
    ∃ h', (listRemove (some z)).run h = some (first zs (some list.tail), h') ∧
      IsList h' list (ys ++ zs) ∧ h.SameOff (list.row (ys ++ zs)) h' ∧
      z ∉ list.row (ys ++ zs) := by
  obtain ⟨a, ha⟩ := last_some list.head ys
  obtain ⟨b, hb⟩ := first_some zs list.tail
  have hrow : list.row (ys ++ z :: zs) = (list.head :: ys) ++ [z] ++ (zs ++ [list.tail]) := by
    simp [CList.row]
  have hnodup := hrow ▸ hl.nodup
  obtain ⟨h', hrun, hseg, hsame⟩ := run_listRemove (hrow ▸ hl.seg) hnodup
    ((getLast?_head _ _).trans ha) ((head?_tail _ _).trans hb)
  rw [← list.row_append] at hseg hsame
  rw [List.append_assoc, List.singleton_append, List.nodup_middle, ← list.row_append,
    List.nodup_cons] at hnodup
  exact ⟨h', hb ▸ hrun, ⟨hseg, hnodup.2⟩, hsame, hnodup.1⟩

theorem run_listPushFront (hl : IsList h list xs) {e : α} (he : (h e).isSome = true)
    (hnot : e ∉ list.row xs) :
    ∃ h', (listPushFront list (some e)).run h = some ((), h') ∧
      IsList h' list (e :: xs) ∧ h.SameOff (e :: list.row xs) h' := by
  rw [listPushFront, run_bind_of (run_listBegin hl)]
  exact run_listInsert_at (show IsList h list ([] ++ xs) from hl) he hnot

theorem run_listPushBack (hl : IsList h list xs) {e : α} (he : (h e).isSome = true)
    (hnot : e ∉ list.row xs) :
    ∃ h', (listPushBack list (some e)).run h = some ((), h') ∧
      IsList h' list (xs ++ [e]) ∧ h.SameOff (e :: list.row xs) h' := by
  have hl' : IsList h list (xs ++ []) := (List.append_nil xs).symm ▸ hl
  rw [← List.append_nil xs] at hnot
  obtain ⟨h', hrun, hlist, hsame⟩ := run_listInsert_at hl' he hnot
  rw [List.append_nil] at hsame
  exact ⟨h', hrun, hlist, hsame⟩

theorem run_listPopFront (hl : IsList h list (z :: zs)) :
    ∃ h', (listPopFront list).run h = some (some z, h') ∧ IsList h' list zs ∧
      h.SameOff (list.row zs) h' ∧ z ∉ list.row zs := by
  obtain ⟨h', hrun, hlist, hsame, hnot⟩ :=
    run_listRemove_at (show IsList h list ([] ++ z :: zs) from hl)
  refine ⟨h', ?_, hlist, hsame, hnot⟩
  rw [listPopFront, run_bind_of (run_listFront hl), run_bind_of hrun]
  rfl

theorem run_listPopBack (hl : IsList h list (ys ++ [z])) :
    ∃ h', (listPopBack list).run h = some (some z, h') ∧ IsList h' list ys ∧
      h.SameOff (list.row ys) h' ∧ z ∉ list.row ys := by
  obtain ⟨h', hrun, hlist, hsame, hnot⟩ := run_listRemove_at hl
  rw [List.append_nil] at hlist hsame hnot
  refine ⟨h', ?_, hlist, hsame, hnot⟩
  rw [listPopBack, run_bind_of (run_listBack hl), run_bind_of hrun]
  rfl

/-! ### Splicing -/

omit [DecidableEq α] in
theorem perm_middle (X s Y : List α) : (X ++ s ++ Y).Perm (s ++ (X ++ Y)) := by
  rw [List.append_assoc]
  exact List.perm_append_comm_assoc X s Y

/-- A range of a list moves to another place of the same list. -/
theorem run_listSplice_same {A s B C D : List α} {f : α} (hl : IsList h list (A ++ s ++ B))
    (hf : s.head? = some f) (hCD : A ++ B = C ++ D) :
    ∃ h', (listSplice (first D (some list.tail)) (some f) (first B (some list.tail))).run h =
        some ((), h') ∧
      IsList h' list (C ++ s ++ D) ∧ h.SameOff (list.row (A ++ s ++ B)) h' := by
  obtain ⟨l, hlast⟩ := exists_getLast hf
  obtain ⟨a, ha⟩ := last_some list.head A
  obtain ⟨c, hc⟩ := first_some B list.tail
  obtain ⟨d, hd⟩ := last_some list.head C
  obtain ⟨b, hb⟩ := first_some D list.tail
  have hrow : list.row (A ++ s ++ B) = (list.head :: A) ++ s ++ (B ++ [list.tail]) := by
    simp [CList.row]
  have hrow' : list.row (C ++ s ++ D) = (list.head :: C) ++ s ++ (D ++ [list.tail]) := by
    simp [CList.row]
  have hperm : (list.row (C ++ s ++ D)).Perm (list.row (A ++ s ++ B)) := by
    have hmid := (perm_middle C s D).trans (hCD ▸ (perm_middle A s B).symm)
    simp only [CList.row, List.cons_append]
    exact (hmid.append_right _).cons _
  have hnodup' := hperm.nodup_iff.mpr hl.nodup
  have hrest := ((hrow ▸ hl.seg).unlink (hrow ▸ hl.nodup) ((getLast?_head _ _).trans ha)
    ((head?_tail _ _).trans hc)).1
  -- without the range both ways of cutting the list are the same list
  rw [← list.row_append, hCD, list.row_append] at hrest
  obtain ⟨h', hrun, hseg, hsame⟩ := run_listSplice (hrow ▸ hl.seg) (hrow ▸ hl.nodup)
    ((getLast?_head _ _).trans ha) ((head?_tail _ _).trans hc) hf hlast hrest
    (hrow' ▸ hnodup') ((getLast?_head _ _).trans hd) ((head?_tail _ _).trans hb)
  refine ⟨h', hb ▸ hc ▸ hrun, ⟨hrow' ▸ hseg, hnodup'⟩, ?_⟩
  have haA : a ∈ list.row (A ++ s ++ B) := by
    rw [hrow]
    have := List.mem_of_getLast? ((getLast?_head list.head A).trans ha)
    exact List.mem_append_left _ (List.mem_append_left _ this)
  have hcB : c ∈ list.row (A ++ s ++ B) := by
    rw [hrow]
    exact List.mem_append_right _ (List.mem_of_head? ((head?_tail list.tail B).trans hc))
  have hunlink : h.SameOff (list.row (A ++ s ++ B))
      ((h.setNext a (some c)).setPrev c (some a)) :=
    (Heap.SameOff.setNext h haA _).trans (Heap.SameOff.setPrev _ hcB _)
  exact hunlink.trans (hsame.mono fun x hx => hperm.mem_iff.mp (hrow' ▸ hx))

/-- A range of a list moves to another list. -/
theorem run_listSplice_other {source : CList α} {A s B C D : List α} {f : α}
    (hsource : IsList h source (A ++ s ++ B)) (hl : IsList h list (C ++ D))
    (hdisj : ∀ x ∈ source.row (A ++ s ++ B), x ∉ list.row (C ++ D))
    (hf : s.head? = some f) :
    ∃ h', (listSplice (first D (some list.tail)) (some f) (first B (some source.tail))).run h =
        some ((), h') ∧
      IsList h' source (A ++ B) ∧ IsList h' list (C ++ s ++ D) ∧
      h.SameOff (source.row (A ++ s ++ B) ++ list.row (C ++ D)) h' := by
  obtain ⟨l, hlast⟩ := exists_getLast hf
  obtain ⟨a, ha⟩ := last_some source.head A
  obtain ⟨c, hc⟩ := first_some B source.tail
  obtain ⟨d, hd⟩ := last_some list.head C
  obtain ⟨b, hb⟩ := first_some D list.tail
  have hrow : source.row (A ++ s ++ B) = (source.head :: A) ++ s ++ (B ++ [source.tail]) := by
    simp [CList.row]
  have hrow' : list.row (C ++ s ++ D) = (list.head :: C) ++ s ++ (D ++ [list.tail]) := by
    simp [CList.row]
  have ha' := (getLast?_head source.head A).trans ha
  have hc' := (head?_tail source.tail B).trans hc
  have hnodup := hrow ▸ hsource.nodup
  have hs (x : α) (hx : x ∈ s) : x ∈ source.row (A ++ s ++ B) ∧ x ∉ source.row (A ++ B) := by
    have hsplit := (perm_middle _ _ _).nodup_iff.mp hnodup
    rw [List.nodup_append, ← source.row_append] at hsplit
    exact ⟨by simp [CList.mem_row, hx], fun hmem => hsplit.2.2 x hx x hmem rfl⟩
  have hAB (x : α) (hx : x ∈ source.row (A ++ B)) : x ∈ source.row (A ++ s ++ B) := by
    simp only [CList.mem_row, List.mem_append] at hx ⊢
    tauto
  have hnodup' : (list.row (C ++ s ++ D)).Nodup := by
    rw [hrow', (perm_middle _ _ _).nodup_iff, ← list.row_append, List.nodup_append]
    refine ⟨(List.nodup_append.mp (List.nodup_append.mp hnodup).1).2.1, hl.nodup, ?_⟩
    exact fun x hx y hy hxy => hdisj x (hs x hx).1 (hxy ▸ hy)
  have haA : a ∈ source.row (A ++ s ++ B) := by
    rw [hrow]
    exact List.mem_append_left _ (List.mem_append_left _ (List.mem_of_getLast? ha'))
  have hcB : c ∈ source.row (A ++ s ++ B) := by
    rw [hrow]
    exact List.mem_append_right _ (List.mem_of_head? hc')
  -- the range is taken out, which the target does not notice
  have hunlink : h.SameOff (source.row (A ++ s ++ B))
      ((h.setNext a (some c)).setPrev c (some a)) :=
    (Heap.SameOff.setNext h haA _).trans (Heap.SameOff.setPrev _ hcB _)
  have hrest := ((hrow ▸ hsource.seg).unlink hnodup ha' hc').1
  rw [← source.row_append] at hrest
  have htarget := hl.seg.sameOff hunlink fun x hx hmem => hdisj x hmem hx
  obtain ⟨h', hrun, hseg, hsame⟩ := run_listSplice (hrow ▸ hsource.seg) hnodup ha' hc' hf hlast
    (list.row_append C D ▸ htarget) (hrow' ▸ hnodup') ((getLast?_head _ _).trans hd)
    ((head?_tail _ _).trans hb)
  rw [← hrow'] at hseg hsame
  have hmem' (x : α) (hx : x ∈ list.row (C ++ s ++ D)) : x ∈ s ∨ x ∈ list.row (C ++ D) := by
    simp only [CList.mem_row, List.mem_append] at hx ⊢
    tauto
  refine ⟨h', hb ▸ hc ▸ hrun, ⟨hrest.sameOff hsame fun x hx hmem => ?_, ?_⟩, ⟨hseg, hnodup'⟩, ?_⟩
  · exact (hmem' x hmem).elim (fun hxs => (hs x hxs).2 hx) (hdisj x (hAB x hx))
  · have hsplit := (perm_middle _ _ _).nodup_iff.mp hnodup
    exact source.row_append A B ▸ (List.nodup_append.mp hsplit).2.1
  · refine (hunlink.mono fun x hx => List.mem_append_left _ hx).trans
      (hsame.mono fun x hx => ?_)
    exact List.mem_append.mpr ((hmem' x hx).imp_left fun hxs => (hs x hxs).1)

/-- An empty range leaves everything in place. -/
theorem run_listSplice_empty {C D : List α} (hl : IsList h list (C ++ D)) (p : Ptr α) :
    (listSplice (first D (some list.tail)) p p).run h = some ((), h) := by
  obtain ⟨d, hd⟩ := last_some list.head C
  cases D with
  | nil =>
      have htail := hl.tail_links
      rw [List.append_nil, hd] at htail
      simp [listSplice, htail]
  | cons z D =>
      obtain ⟨n, hn⟩ := first_some D list.tail
      have hlinks := hl.links
      rw [hd, hn] at hlinks
      simp [listSplice, hlinks]

end Cursors

end SystemProgramming.Testlib
