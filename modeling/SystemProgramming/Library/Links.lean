import Mathlib.Data.List.Basic
import Mathlib.Data.List.Nodup
import Mathlib.Logic.Function.Basic

/-!
Doubly linked segments in a heap of links.

`Seg h p xs n` says that the addresses `xs` are linked one after the other in
the heap `h`, with `p` in front of the first and `n` behind the last. It fixes
both links of every address, so that a segment is a function of the links of
its own addresses and survives every write elsewhere.

A list is taken apart with `seg_append`, its ends are set with
`Seg.setPrev_head` and `Seg.setNext_last`, and the two operations all pointer
surgery is made of are `Seg.unlink` and `Seg.relink`.
-/

namespace SystemProgramming.Library

variable {α : Type*}

/-- The two links of an element; `none` is the null pointer. -/
structure Link (α : Type*) where
  prev : Option α
  next : Option α

def Link.swap (l : Link α) : Link α := ⟨l.next, l.prev⟩

/-- What the memory holds at each address; `none` where nothing is allocated. -/
abbrev Heap (α : Type*) := α → Option (Link α)

/-! ### The ends of a list of addresses -/

/-- The first address of `xs`, or what stands behind it. -/
def first (xs : List α) (n : Option α) : Option α := xs.head?.or n

/-- The last address of `xs`, or what stands in front of it. -/
def last (p : Option α) (xs : List α) : Option α := xs.getLast?.or p

@[simp] theorem first_nil (n : Option α) : first [] n = n := rfl

@[simp] theorem first_cons (x : α) (xs : List α) (n : Option α) :
    first (x :: xs) n = some x := rfl

@[simp] theorem last_nil (p : Option α) : last p [] = p := rfl

@[simp] theorem last_concat (p : Option α) (xs : List α) (x : α) :
    last p (xs ++ [x]) = some x := by
  simp [last]

@[simp] theorem first_append (xs ys : List α) (n : Option α) :
    first (xs ++ ys) n = first xs (first ys n) := by
  cases xs <;> rfl

@[simp] theorem last_append (p : Option α) (xs ys : List α) :
    last p (xs ++ ys) = last (last p xs) ys := by
  simp [last, List.getLast?_append, Option.or_assoc]

@[simp] theorem last_cons (p : Option α) (x : α) (xs : List α) :
    last p (x :: xs) = last (some x) xs := by
  rw [← List.singleton_append, last_append]
  rfl

theorem first_of_head {xs : List α} {x : α} (h : xs.head? = some x) (n : Option α) :
    first xs n = some x := by
  simp [first, h]

theorem last_of_getLast {xs : List α} {x : α} (h : xs.getLast? = some x) (p : Option α) :
    last p xs = some x := by
  simp [last, h]

/-! ### Segments -/

/-- The addresses `xs` are linked in the heap, from `p` to `n`. -/
def Seg (h : Heap α) : Option α → List α → Option α → Prop
  | _, [], _ => True
  | p, x :: xs, n => h x = some ⟨p, first xs n⟩ ∧ Seg h (some x) xs n

@[simp] theorem seg_nil (h : Heap α) (p n : Option α) : Seg h p [] n := trivial

@[simp] theorem seg_cons (h : Heap α) (p n : Option α) (x : α) (xs : List α) :
    Seg h p (x :: xs) n ↔ h x = some ⟨p, first xs n⟩ ∧ Seg h (some x) xs n := Iff.rfl

theorem seg_append (h : Heap α) (p n : Option α) (xs ys : List α) :
    Seg h p (xs ++ ys) n ↔ Seg h p xs (first ys n) ∧ Seg h (last p xs) ys n := by
  induction xs generalizing p with
  | nil => simp
  | cons x xs ih => simp [ih, and_assoc]

/-- A segment depends on the links of its own addresses. -/
theorem Seg.congr {h h' : Heap α} {p n : Option α} {xs : List α} (hseg : Seg h p xs n)
    (hsame : ∀ x ∈ xs, h' x = h x) : Seg h' p xs n := by
  induction xs generalizing p with
  | nil => trivial
  | cons x xs ih =>
      exact ⟨(hsame x (by simp)).trans hseg.1, ih hseg.2 fun y hy => hsame y (by simp [hy])⟩

theorem Seg.get {h : Heap α} {p n : Option α} {xs ys : List α} {a : α}
    (hseg : Seg h p (xs ++ a :: ys) n) : h a = some ⟨last p xs, first ys n⟩ :=
  ((seg_append _ _ _ _ _).mp hseg).2.1

theorem Seg.isSome {h : Heap α} {p n : Option α} {xs : List α} (hseg : Seg h p xs n) {a : α}
    (ha : a ∈ xs) : (h a).isSome = true := by
  obtain ⟨ys, zs, rfl⟩ := List.append_of_mem ha
  rw [hseg.get]
  rfl

/-- A segment whose links are all swapped runs the other way. -/
theorem Seg.swap {h h' : Heap α} {p n : Option α} {xs : List α} (hseg : Seg h p xs n)
    (hswap : ∀ x ∈ xs, h' x = (h x).map Link.swap) : Seg h' n xs.reverse p := by
  induction xs generalizing p with
  | nil => trivial
  | cons x xs ih =>
      have hx : h' x = some ⟨first xs n, p⟩ := by
        rw [hswap x (by simp), hseg.1]
        rfl
      rw [List.reverse_cons, seg_append]
      refine ⟨ih hseg.2 fun y hy => hswap y (by simp [hy]), ?_, trivial⟩
      rw [hx, first_nil]
      have hlast : last n xs.reverse = first xs n := by simp [last, first]
      rw [hlast]

/-- Two segments of the same addresses are made of the same links. -/
theorem Seg.agree {h h' : Heap α} {p n : Option α} {xs : List α} (hseg : Seg h p xs n)
    (hseg' : Seg h' p xs n) : ∀ x ∈ xs, h' x = h x := by
  intro x hx
  obtain ⟨ys, zs, rfl⟩ := List.append_of_mem hx
  rw [hseg.get, hseg'.get]

/-- The heaps agree outside of `S`. -/
def Heap.SameOff (S : List α) (h h' : Heap α) : Prop := ∀ x ∉ S, h' x = h x

theorem Heap.SameOff.refl (S : List α) (h : Heap α) : Heap.SameOff S h h := fun _ _ => rfl

theorem Heap.SameOff.trans {S : List α} {h₁ h₂ h₃ : Heap α} (h12 : Heap.SameOff S h₁ h₂)
    (h23 : Heap.SameOff S h₂ h₃) : Heap.SameOff S h₁ h₃ :=
  fun x hx => (h23 x hx).trans (h12 x hx)

theorem Heap.SameOff.mono {S T : List α} {h₁ h₂ : Heap α} (hsame : Heap.SameOff S h₁ h₂)
    (hST : ∀ x ∈ S, x ∈ T) : Heap.SameOff T h₁ h₂ :=
  fun x hx => hsame x fun hS => hx (hST x hS)

theorem Seg.sameOff {h h' : Heap α} {p n : Option α} {xs S : List α} (hseg : Seg h p xs n)
    (hsame : Heap.SameOff S h h') (hdisj : ∀ x ∈ xs, x ∉ S) : Seg h' p xs n :=
  hseg.congr fun x hx => hsame x (hdisj x hx)

/-- Nothing but the segment tells two heaps apart. -/
theorem Heap.SameOff.eq_of_seg {h h₁ h₂ : Heap α} {p n : Option α} {xs : List α}
    (h₁off : h.SameOff xs h₁) (h₂off : h.SameOff xs h₂) (hseg₁ : Seg h₁ p xs n)
    (hseg₂ : Seg h₂ p xs n) : h₁ = h₂ := by
  funext x
  by_cases hx : x ∈ xs
  · exact hseg₂.agree hseg₁ x hx
  · rw [h₁off x hx, h₂off x hx]

/-! ### Following the links -/

section Following

variable {h : Heap α} {p q n : Option α} {xs ys : List α} {x : α}

/-- A segment from `x` starts every longer one from `x`. -/
theorem Seg.goes_on (hxs : Seg h p (x :: xs) n) (hys : Seg h q (x :: ys) none) :
    ∃ zs, ys = xs ++ zs ∧ first zs none = n := by
  have hfirst : first xs n = first ys none :=
    (Link.mk.inj (Option.some.inj (hxs.1.symm.trans hys.1))).2
  induction xs generalizing p q x ys with
  | nil => exact ⟨ys, rfl, hfirst.symm⟩
  | cons z xs ih =>
      cases ys with
      | nil => cases hfirst
      | cons y ys =>
          obtain rfl := Option.some.inj hfirst
          obtain ⟨zs, rfl, hzs⟩ := ih hxs.2 hys.2
            (Link.mk.inj (Option.some.inj (hxs.2.1.symm.trans hys.2.1))).2
          exact ⟨zs, rfl, hzs⟩

/-- Where a list starts decides what it is. -/
theorem Seg.unique (hxs : Seg h p (x :: xs) none) (hys : Seg h q (x :: ys) none) : ys = xs := by
  obtain ⟨zs, rfl, hzs⟩ := hxs.goes_on hys
  cases zs with
  | nil => exact List.append_nil xs
  | cons z zs => cases hzs

end Following

/-! ### Heaps made of one segment -/

section Linked

variable [DecidableEq α]

/-- The heap in which `xs` are linked one after the other, and nothing else is allocated. -/
def linked (n : Option α) : Option α → List α → Heap α
  | _, [] => fun _ => none
  | p, x :: xs => Function.update (linked n (some x) xs) x (some ⟨p, first xs n⟩)

theorem linked_of_notMem (p n : Option α) {xs : List α} {x : α} (hx : x ∉ xs) :
    linked n p xs x = none := by
  induction xs generalizing p with
  | nil => rfl
  | cons y xs ih =>
      obtain ⟨hne, hxs⟩ := List.ne_and_not_mem_of_not_mem_cons hx
      rw [linked, Function.update_of_ne hne, ih _ hxs]

theorem seg_linked (p n : Option α) {xs : List α} (hnodup : xs.Nodup) :
    Seg (linked n p xs) p xs n := by
  induction xs generalizing p with
  | nil => trivial
  | cons x xs ih =>
      rw [List.nodup_cons] at hnodup
      refine ⟨Function.update_self .., (ih (some x) hnodup.2).congr fun y hy => ?_⟩
      have hne : y ≠ x := fun heq => hnodup.1 (heq ▸ hy)
      exact Function.update_of_ne hne ..

end Linked

/-! ### Writes -/

section Writes

variable [DecidableEq α]

namespace Heap

def setPrev (h : Heap α) (a : α) (p : Option α) : Heap α :=
  Function.update h a ((h a).map fun l => { l with prev := p })

def setNext (h : Heap α) (a : α) (n : Option α) : Heap α :=
  Function.update h a ((h a).map fun l => { l with next := n })

variable (h : Heap α) (a b : α) (v : Option α)

@[simp] theorem setPrev_self : h.setPrev a v a = (h a).map fun l => { l with prev := v } :=
  Function.update_self ..

@[simp] theorem setNext_self : h.setNext a v a = (h a).map fun l => { l with next := v } :=
  Function.update_self ..

theorem setPrev_apply :
    h.setPrev a v b = (h b).map fun l => ⟨if b = a then v else l.prev, l.next⟩ := by
  by_cases hb : b = a
  · subst hb
    simp
  · rw [setPrev, Function.update_of_ne hb]
    simp [hb]

theorem setNext_apply :
    h.setNext a v b = (h b).map fun l => ⟨l.prev, if b = a then v else l.next⟩ := by
  by_cases hb : b = a
  · subst hb
    simp
  · rw [setNext, Function.update_of_ne hb]
    simp [hb]

variable {a b}

@[simp] theorem setPrev_of_ne (hne : b ≠ a) : h.setPrev a v b = h b :=
  Function.update_of_ne hne ..

@[simp] theorem setNext_of_ne (hne : b ≠ a) : h.setNext a v b = h b :=
  Function.update_of_ne hne ..

@[simp] theorem isSome_setPrev : (h.setPrev a v b).isSome = (h b).isSome := by
  by_cases hb : b = a
  · subst hb
    simp
  · simp [hb]

@[simp] theorem isSome_setNext : (h.setNext a v b).isSome = (h b).isSome := by
  by_cases hb : b = a
  · subst hb
    simp
  · simp [hb]

/-- Writes to different fields commute, and so do writes to different addresses. -/
theorem setNext_setPrev (u : Option α) :
    (h.setNext a u).setPrev b v = (h.setPrev b v).setNext a u := by
  funext x
  by_cases hxa : x = a <;> by_cases hxb : x = b
  · subst hxa hxb
    cases hx : h x <;> simp [hx]
  · simp [hxa, hxa ▸ hxb]
  · simp [hxb, hxb ▸ hxa]
  · simp [hxa, hxb]

theorem setPrev_comm (hne : a ≠ b) (u : Option α) :
    (h.setPrev a u).setPrev b v = (h.setPrev b v).setPrev a u := by
  funext x
  by_cases hxa : x = a <;> by_cases hxb : x = b
  · exact absurd (hxa.symm.trans hxb) hne
  · simp [hxa, hne]
  · simp [hxb, Ne.symm hne]
  · simp [hxa, hxb]

theorem setNext_comm (hne : a ≠ b) (u : Option α) :
    (h.setNext a u).setNext b v = (h.setNext b v).setNext a u := by
  funext x
  by_cases hxa : x = a <;> by_cases hxb : x = b
  · exact absurd (hxa.symm.trans hxb) hne
  · simp [hxa, hne]
  · simp [hxb, Ne.symm hne]
  · simp [hxa, hxb]

theorem SameOff.setPrev {S : List α} (h : Heap α) {a : α} (ha : a ∈ S) (v : Option α) :
    SameOff S h (h.setPrev a v) :=
  fun _ hx => setPrev_of_ne h v fun heq => hx (heq ▸ ha)

theorem SameOff.setNext {S : List α} (h : Heap α) {a : α} (ha : a ∈ S) (v : Option α) :
    SameOff S h (h.setNext a v) :=
  fun _ hx => setNext_of_ne h v fun heq => hx (heq ▸ ha)

end Heap

open Heap

variable {h : Heap α} {p n v : Option α} {xs : List α} {a : α}

theorem Seg.setPrev (hseg : Seg h p xs n) (ha : a ∉ xs) : Seg (h.setPrev a v) p xs n :=
  hseg.congr fun _ hx => setPrev_of_ne h v fun heq => ha (heq ▸ hx)

theorem Seg.setNext (hseg : Seg h p xs n) (ha : a ∉ xs) : Seg (h.setNext a v) p xs n :=
  hseg.congr fun _ hx => setNext_of_ne h v fun heq => ha (heq ▸ hx)

theorem Seg.setPrev_head (hseg : Seg h p xs n) (hnodup : xs.Nodup)
    (ha : xs.head? = some a) : Seg (h.setPrev a v) v xs n := by
  cases xs with
  | nil => trivial
  | cons x xs =>
      obtain rfl : x = a := Option.some.inj ha
      refine ⟨?_, hseg.2.setPrev (List.nodup_cons.mp hnodup).1⟩
      rw [setPrev_self, hseg.1]
      rfl

theorem Seg.setNext_last (hseg : Seg h p xs n) (hnodup : xs.Nodup)
    (ha : xs.getLast? = some a) : Seg (h.setNext a v) p xs v := by
  obtain ⟨ys, rfl⟩ := List.getLast?_eq_some_iff.mp ha
  rw [seg_append] at hseg ⊢
  have hnot : a ∉ ys := fun hmem =>
    (List.nodup_append.mp hnodup).2.2 a hmem a (List.mem_singleton_self a) rfl
  refine ⟨hseg.1.setNext hnot, ?_, trivial⟩
  rw [setNext_self, hseg.2.1]
  rfl

/-! ### Surgery -/

/-- A link between the last of `A` and the first of `B` joins two segments. -/
theorem Seg.bridge {h' : Heap α} {A B : List α} {q r : Option α} {b : α} (hA : Seg h p A q)
    (hB : Seg h r B n) (hnodup : (A ++ B).Nodup) (ha : A.getLast? = some a)
    (hb : B.head? = some b)
    (hcells : ∀ x ∈ A ++ B, h' x = ((h.setNext a (some b)).setPrev b (some a)) x) :
    Seg h' p (A ++ B) n := by
  obtain ⟨hnA, hnB, hAB⟩ := List.nodup_append.mp hnodup
  have haB : a ∉ B := fun hmem => hAB a (List.mem_of_getLast? ha) a hmem rfl
  have hbA : b ∉ A := fun hmem => hAB b hmem b (List.mem_of_head? hb) rfl
  refine Seg.congr ?_ hcells
  rw [seg_append, last_of_getLast ha, first_of_head hb]
  exact ⟨(hA.setNext_last hnA ha).setPrev hbA, (hB.setNext haB).setPrev_head hnB hb⟩

/-- The middle of a list is taken out; it stays linked in itself. -/
theorem Seg.unlink {A s B : List α} {c : α} (hseg : Seg h p (A ++ s ++ B) n)
    (hnodup : (A ++ s ++ B).Nodup) (ha : A.getLast? = some a) (hc : B.head? = some c) :
    Seg ((h.setNext a (some c)).setPrev c (some a)) p (A ++ B) n ∧
      Seg ((h.setNext a (some c)).setPrev c (some a)) (some a) s (some c) := by
  obtain ⟨hnAs, hnB, hdB⟩ := List.nodup_append.mp hnodup
  obtain ⟨hnA, hns, hds⟩ := List.nodup_append.mp hnAs
  have haA : a ∈ A := List.mem_of_getLast? ha
  have hcB : c ∈ B := List.mem_of_head? hc
  rw [seg_append, seg_append, last_append, last_of_getLast ha, first_of_head hc] at hseg
  obtain ⟨⟨hA, hs⟩, hB⟩ := hseg
  have hcA : c ∉ A := fun hmem => hdB c (by simp [hmem]) c hcB rfl
  have hcs : c ∉ s := fun hmem => hdB c (by simp [hmem]) c hcB rfl
  have has : a ∉ s := fun hmem => hds a haA a hmem rfl
  have haB : a ∉ B := fun hmem => hdB a (by simp [haA]) a hmem rfl
  refine ⟨?_, (hs.setNext has).setPrev hcs⟩
  rw [seg_append, last_of_getLast ha, first_of_head hc]
  exact ⟨(hA.setNext_last hnA ha).setPrev hcA, (hB.setNext haB).setPrev_head hnB hc⟩

/-- A linked segment `s` is put between two parts of a list. -/
theorem Seg.relink {A s B : List α} {q m : Option α} {b f l : α}
    (hAB : Seg h p (A ++ B) n) (hs : Seg h q s m) (hnodup : (A ++ s ++ B).Nodup)
    (ha : A.getLast? = some a) (hb : B.head? = some b) (hf : s.head? = some f)
    (hl : s.getLast? = some l) :
    Seg ((((h.setPrev f (some a)).setNext l (some b)).setNext a (some f)).setPrev b (some l))
      p (A ++ s ++ B) n := by
  obtain ⟨hnAs, hnB, hdB⟩ := List.nodup_append.mp hnodup
  obtain ⟨hnA, hns, hds⟩ := List.nodup_append.mp hnAs
  have haA : a ∈ A := List.mem_of_getLast? ha
  have hbB : b ∈ B := List.mem_of_head? hb
  have hfs : f ∈ s := List.mem_of_head? hf
  have hls : l ∈ s := List.mem_of_getLast? hl
  have hnotA (x : α) (hx : x ∈ s ∨ x ∈ B) : x ∉ A := fun hmem =>
    hx.elim (fun hx => hds x hmem x hx rfl) fun hx => hdB x (by simp [hmem]) x hx rfl
  have hnots (x : α) (hx : x ∈ A ∨ x ∈ B) : x ∉ s := fun hmem =>
    hx.elim (fun hx => hds x hx x hmem rfl) fun hx => hdB x (by simp [hmem]) x hx rfl
  have hnotB (x : α) (hx : x ∈ A ∨ x ∈ s) : x ∉ B := fun hmem =>
    hdB x (by simpa using hx) x hmem rfl
  rw [seg_append, last_of_getLast ha, first_of_head hb] at hAB
  obtain ⟨hA, hB⟩ := hAB
  rw [seg_append, seg_append, last_append, last_of_getLast ha, last_of_getLast hl,
    first_of_head hb, first_of_head hf]
  refine ⟨⟨?_, ?_⟩, ?_⟩
  · exact (((hA.setPrev (hnotA f (.inl hfs))).setNext (hnotA l (.inl hls))).setNext_last hnA
      ha).setPrev (hnotA b (.inr hbB))
  · exact (((hs.setPrev_head hns hf).setNext_last hns hl).setNext
      (hnots a (.inl haA))).setPrev (hnots b (.inr hbB))
  · exact (((hB.setPrev (hnotB f (.inr hfs))).setNext (hnotB l (.inr hls))).setNext
      (hnotB a (.inl haA))).setPrev_head hnB hb

end Writes

end SystemProgramming.Library
