import Mathlib.Logic.Basic

/-!
Programs that stop with a fault. A program is a value of `Except ε α`; it avoids
a fault if it does not stop with that one, whether it returns or stops with
another. The rules follow the program: its parts avoid the fault, and a loop
does if an invariant of its state lets every round do.

Where only the result matters, `Except.toOption` forgets which fault it was.
-/

namespace SystemProgramming.Library

universe u v

variable {ε : Type u} {α β : Type v}

/-! ### Results -/

theorem bind_eq_ok {x : Except ε α} {f : α → Except ε β} {b : β} :
    (x >>= f) = .ok b ↔ ∃ a, x = .ok a ∧ f a = .ok b := by
  cases x with
  | error e => exact ⟨fun h => (nomatch h), fun ⟨_, h, _⟩ => (nomatch h)⟩
  | ok a => exact ⟨fun h => ⟨a, rfl, h⟩, fun ⟨_, ha, hb⟩ => Except.ok.inj ha ▸ hb⟩

@[simp] theorem toOption_ok (a : α) : (Except.ok a : Except ε α).toOption = some a := rfl

@[simp] theorem toOption_error (e : ε) : (Except.error e : Except ε α).toOption = none := rfl

@[simp] theorem toOption_pure (a : α) : (pure a : Except ε α).toOption = some a := rfl

@[simp] theorem toOption_bind (x : Except ε α) (f : α → Except ε β) :
    (x >>= f).toOption = x.toOption.bind fun a => (f a).toOption := by
  cases x <;> rfl

theorem toOption_eq_some {x : Except ε α} {a : α} : x.toOption = some a ↔ x = .ok a := by
  cases x <;> simp [Except.toOption]

theorem exists_ok_of_toOption {x : Except ε α} {y : Option α} {P : α → Prop}
    (hxy : x.toOption = y) (hy : ∃ a, y = some a ∧ P a) : ∃ a, x = .ok a ∧ P a := by
  obtain ⟨a, ha, hP⟩ := hy
  exact ⟨a, toOption_eq_some.mp (hxy.trans ha), hP⟩

theorem toOption_foldlM (f : β → α → Except ε β) (as : List α) (b : β) :
    (as.foldlM f b).toOption = as.foldlM (fun b a => (f b a).toOption) b := by
  induction as generalizing b with
  | nil => rfl
  | cons a as ih =>
      rw [List.foldlM_cons, List.foldlM_cons, toOption_bind]
      simp only [ih]
      rfl

/-! ### Avoiding a fault -/

/-- The program does not stop with the fault `e`. -/
def Avoids (e : ε) (x : Except ε α) : Prop := x ≠ .error e

theorem avoids_ok (e : ε) (a : α) : Avoids e (.ok a : Except ε α) := nofun

theorem avoids_pure (e : ε) (a : α) : Avoids e (pure a : Except ε α) := nofun

theorem Avoids.bind {e : ε} {x : Except ε α} {f : α → Except ε β} (hx : Avoids e x)
    (hf : ∀ a, x = .ok a → Avoids e (f a)) : Avoids e (x >>= f) := by
  cases x with
  | error e' => exact fun h => hx (by cases h; rfl)
  | ok a => exact hf a rfl

theorem Avoids.map {e : ε} {x : Except ε α} (hx : Avoids e x) (f : α → β) :
    Avoids e (f <$> x) := by
  cases x with
  | error e' => exact fun h => hx (by cases h; rfl)
  | ok a => exact nofun

theorem avoids_mapM {e : ε} {f : α → Except ε β} {as : List α}
    (hf : ∀ a ∈ as, Avoids e (f a)) : Avoids e (as.mapM f) := by
  induction as with
  | nil => exact avoids_pure e []
  | cons a as ih =>
      rw [List.mapM_cons]
      obtain ⟨ha, has⟩ := List.forall_mem_cons.mp hf
      exact ha.bind fun _ _ => (ih has).bind fun _ _ => avoids_pure e _

/-- The rounds of a loop keep an invariant of its state. -/
theorem avoids_foldlM {e : ε} {f : β → α → Except ε β} {I : β → Prop} {as : List α} {b : β}
    (hround : ∀ b, ∀ a ∈ as, I b → Avoids e (f b a))
    (hkeep : ∀ b a b', I b → f b a = .ok b' → I b') (hb : I b) : Avoids e (as.foldlM f b) := by
  induction as generalizing b with
  | nil => exact avoids_pure e b
  | cons a as ih =>
      rw [List.foldlM_cons]
      refine (hround b a (.head _) hb).bind fun b' hb' => ?_
      exact ih (fun b a ha => hround b a (.tail _ ha)) (hkeep b a b' hb hb')

/-- A loop that returns has gone through all its rounds. -/
theorem foldlM_rounds {f : β → α → Except ε β} {I : β → Prop} {as : List α} {b b' : β}
    (hkeep : ∀ b a b', I b → f b a = .ok b' → I b') (hb : I b) (hrun : as.foldlM f b = .ok b') :
    I b' ∧ ∀ a ∈ as, ∃ c c', I c ∧ f c a = .ok c' := by
  induction as generalizing b with
  | nil =>
      obtain rfl := Except.ok.inj hrun
      exact ⟨hb, by simp⟩
  | cons a as ih =>
      rw [List.foldlM_cons] at hrun
      obtain ⟨c, hc, hrest⟩ := bind_eq_ok.mp hrun
      obtain ⟨hb', hrounds⟩ := ih (hkeep b a c hb hc) hrest
      exact ⟨hb', List.forall_mem_cons.mpr ⟨⟨b, c, hb, hc⟩, hrounds⟩⟩

/-! ### Programs with a state -/

section State

variable {σ : Type v} {m : StateT σ (Except ε) α} {f : α → StateT σ (Except ε) β} {s t : σ}

theorem run_bind_of_ok {a : α} (hm : m.run s = .ok (a, t)) : (m >>= f).run s = (f a).run t := by
  rw [StateT.run_bind, hm]
  rfl

theorem run_bind_of_error {e : ε} (hm : m.run s = .error e) : (m >>= f).run s = .error e := by
  rw [StateT.run_bind, hm]
  rfl

end State

end SystemProgramming.Library
