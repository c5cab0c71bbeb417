import Mathlib.Logic.Basic

/-!
Partial correctness of programs with a state that may stop. `Triple I m J` says
that if `I` holds before `m`, and `m` comes to an end, then `J` holds of its
result and of the state it leaves; whether it comes to an end is not asked. The
rules follow the program, so that what a long program leaves alone is read off
its text: `Preserves I m` is the triple of an `I` that `m` does not break.
-/

namespace SystemProgramming.Library

universe u

variable {σ α β : Type u} {I I' : σ → Prop} {m m' : StateT σ Option α} {J J' : α → σ → Prop}
  {f : α → StateT σ Option β} {K : β → σ → Prop}

def Triple (I : σ → Prop) (m : StateT σ Option α) (J : α → σ → Prop) : Prop :=
  ∀ s a s', I s → m.run s = some (a, s') → J a s'

abbrev Preserves (I : σ → Prop) (m : StateT σ Option α) : Prop := Triple I m fun _ => I

namespace Triple

theorem pure {a : α} (h : ∀ s, I s → J a s) : Triple I (Pure.pure a : StateT σ Option α) J := by
  intro s b s' hs hrun
  cases hrun
  exact h s hs

theorem skip (a : α) : Preserves I (Pure.pure a : StateT σ Option α) := .pure fun _ => id

theorem failure : Triple I (Alternative.failure : StateT σ Option α) J := nofun

theorem bind (hm : Triple I m J) (hf : ∀ a, Triple (J a) (f a) K) : Triple I (m >>= f) K := by
  intro s b s' hs hrun
  rw [StateT.run_bind] at hrun
  obtain ⟨⟨a, t⟩, hstart, hrest⟩ := Option.bind_eq_some_iff.mp hrun
  exact hf a t b s' (hm s a t hs hstart) hrest

/-- The first part looks at the state, and the rest knows what it saw. -/
theorem look {f : σ → StateT σ Option β} (hf : ∀ s, I s → Triple (· = s) (f s) K) :
    Triple I (MonadState.get >>= f) K :=
  fun s b s' hs hrun => hf s hs s b s' rfl hrun

theorem get {f : σ → StateT σ Option β} (hf : ∀ s, Triple I (f s) K) :
    Triple I (MonadState.get >>= f) K :=
  fun s b s' hs hrun => hf s s b s' hs hrun

theorem modify {f : σ → σ} (hf : ∀ s, I s → I' (f s)) :
    Triple I (modify f : StateT σ Option PUnit) fun _ => I' := by
  intro s a s' hs hrun
  cases hrun
  exact hf s hs

theorem lift (x : Option α) : Preserves I (liftM x : StateT σ Option α) := by
  intro s a s' hs hrun
  cases x with
  | none => cases hrun
  | some b =>
      cases hrun
      exact hs

theorem ite {c : Prop} [Decidable c] (ht : Triple I m J) (hf : Triple I m' J) :
    Triple I (if c then m else m') J := by
  split
  · exact ht
  · exact hf

theorem conseq (hm : Triple I m J) (hI : ∀ s, I' s → I s) (hJ : ∀ a s, J a s → J' a s) :
    Triple I' m J' :=
  fun s a s' hs hrun => hJ a s' (hm s a s' (hI s hs) hrun)

theorem forM {ι : Type} {f : ι → StateT σ Option PUnit} (hf : ∀ i, Preserves I (f i))
    (l : List ι) : Preserves I (l.forM f) := by
  rw [List.forM_eq_forM]
  induction l with
  | nil => exact .skip _
  | cons i l ih =>
      rw [List.forM_cons]
      exact (hf i).bind fun _ => ih

theorem mapM {ι : Type u} {f : ι → StateT σ Option α} (hf : ∀ i, Preserves I (f i))
    (l : List ι) : Preserves I (l.mapM f) := by
  induction l with
  | nil => exact .skip _
  | cons i l ih =>
      rw [List.mapM_cons]
      exact (hf i).bind fun _ => ih.bind fun _ => .skip _

end Triple

end SystemProgramming.Library
