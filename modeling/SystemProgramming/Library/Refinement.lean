import SystemProgramming.Library.Runs

/-!
Runs of a specification. The machine is a function of its labels; what it is
compared with is a relation, so that the specification may leave something
open. `RunsTo A ls t t'` says that `t'` is one of the outcomes of `ls` from `t`.

`exec_refines` is the rule of forward simulation: where each legal step of the
machine is matched by a step of the specification, a legal run of the machine
ends, and matches a run of the specification.
-/

namespace SystemProgramming.Library

variable {σ τ ℓ : Type*}

/-- The runs of a specification whose steps are given by a relation. -/
inductive RunsTo (A : τ → ℓ → τ → Prop) : List ℓ → τ → τ → Prop
  | nil (t : τ) : RunsTo A [] t t
  | cons {l : ℓ} {ls : List ℓ} {t u v : τ} : A t l u → RunsTo A ls u v → RunsTo A (l :: ls) t v

section Rules

variable {step : σ → ℓ → Option σ} {L : σ → ℓ → Prop} {A : τ → ℓ → τ → Prop}
  {R : Nat → σ → τ → Prop} {ls ls' : List ℓ} {s s' : σ} {t t' : τ} {n : Nat}

theorem exec_append (step : σ → ℓ → Option σ) (ls ls' : List ℓ) (s : σ) :
    exec step (ls ++ ls') s = (exec step ls s).bind (exec step ls') := by
  induction ls generalizing s with
  | nil => rfl
  | cons l ls ih =>
      rw [List.cons_append, exec_cons, exec_cons, Option.bind_assoc]
      exact congrArg _ (funext ih)

/-- **The rule of forward simulation.** The relation may count the steps that are left. -/
theorem exec_refines
    (hstep : ∀ k s t l, R (k + 1) s t → L s l →
      ∃ s' t', step s l = some s' ∧ A t l t' ∧ R k s' t')
    (hR : R (n + ls.length) s t) (hlegal : StepsMeet step L ls s) :
    ∃ s' t', exec step ls s = some s' ∧ RunsTo A ls t t' ∧ R n s' t' := by
  induction ls generalizing s t with
  | nil => exact ⟨s, t, rfl, .nil t, hR⟩
  | cons l ls ih =>
      obtain ⟨s₁, t₁, hs₁, hA, hR₁⟩ := hstep _ s t l hR hlegal.1
      obtain ⟨s', t', hexec, hruns, hR'⟩ := ih hR₁ (hlegal.2 s₁ hs₁)
      refine ⟨s', t', ?_, .cons hA hruns, hR'⟩
      rw [exec_cons, hs₁]
      exact hexec

/-- What every step of the specification keeps. -/
theorem RunsTo.invariant {I : τ → Prop} (h : RunsTo A ls t t') (h0 : I t)
    (hstep : ∀ t l t', I t → A t l t' → I t') : I t' := by
  induction h with
  | nil => exact h0
  | cons hA _ ih => exact ih (hstep _ _ _ h0 hA)

/-- A run whose steps are legal has legal prefixes. -/
theorem StepsMeet.of_isPrefix {G : σ → ℓ → Prop} {done : List ℓ} (h : StepsMeet step G ls s)
    (hdone : done <+: ls) : StepsMeet step G done s := by
  induction ls generalizing s done with
  | nil =>
      rw [List.prefix_nil.mp hdone]
      trivial
  | cons l ls ih =>
      cases done with
      | nil => trivial
      | cons l' done =>
          obtain ⟨rfl, hdone'⟩ := List.cons_prefix_cons.mp hdone
          exact ⟨h.1, fun s' hs' => ih (h.2 s' hs') hdone'⟩

/-- What is left of a legal run is legal. -/
theorem StepsMeet.of_append {G : σ → ℓ → Prop} (h : StepsMeet step G (ls ++ ls') s)
    (hexec : exec step ls s = some s') : StepsMeet step G ls' s' := by
  induction ls generalizing s with
  | nil =>
      obtain rfl := Option.some.inj hexec
      exact h
  | cons l ls ih =>
      obtain ⟨u, hu, hrest⟩ := Option.bind_eq_some_iff.mp hexec
      exact ih (h.2 u hu) hrest

end Rules

end SystemProgramming.Library
