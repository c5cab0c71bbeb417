import Mathlib.Logic.Relation

/-!
Runs of a machine given by a partial step function on labels.

A label carries every choice the environment makes, so that the machine is a
function of its labels and a run can be evaluated. `Reachable step G init s`
says that `s` is reached from `init` by steps each of which meets the guard
`G`; the guard is where an assumption on the environment is stated, one step
at a time. The two rules that matter are `Reachable.invariant`, which turns a
step lemma into a fact about every run, and `Reachable.of_exec`, which turns
an evaluated run into a reachable state.
-/

namespace SystemProgramming.Library

variable {σ ℓ : Type*}

/-- Executes the labels in order; `none` as soon as one of them is not
enabled. -/
def exec (step : σ → ℓ → Option σ) : List ℓ → σ → Option σ
  | [], s => some s
  | l :: ls, s => (step s l).bind (exec step ls)

@[simp] theorem exec_nil (step : σ → ℓ → Option σ) (s : σ) :
    exec step [] s = some s := rfl

@[simp] theorem exec_cons (step : σ → ℓ → Option σ) (l : ℓ) (ls : List ℓ) (s : σ) :
    exec step (l :: ls) s = (step s l).bind (exec step ls) := rfl

/-- One step of the machine by a label that meets the guard. -/
def GuardedStep (step : σ → ℓ → Option σ) (G : σ → ℓ → Prop) (s s' : σ) : Prop :=
  ∃ l, G s l ∧ step s l = some s'

/-- The states of the runs from `init` whose steps all meet the guard. -/
def Reachable (step : σ → ℓ → Option σ) (G : σ → ℓ → Prop) (init s : σ) : Prop :=
  Relation.ReflTransGen (GuardedStep step G) init s

/-- The guard that lets every step through. -/
def anyStep : σ → ℓ → Prop := fun _ _ => True

instance (s : σ) (l : ℓ) : Decidable (anyStep s l) := .isTrue trivial

namespace Reachable

variable {step : σ → ℓ → Option σ} {G H : σ → ℓ → Prop} {init s s' : σ}

theorem refl : Reachable step G init init := Relation.ReflTransGen.refl

theorem tail {l : ℓ} (h : Reachable step G init s) (hG : G s l)
    (hs : step s l = some s') : Reachable step G init s' :=
  Relation.ReflTransGen.tail h ⟨l, hG, hs⟩

/-- **The invariant rule.** What holds initially and is preserved by every
step that meets the guard holds in every state a guarded run reaches. -/
theorem invariant {I : σ → Prop} (h : Reachable step G init s) (h0 : I init)
    (hstep : ∀ s l s', I s → G s l → step s l = some s' → I s') : I s := by
  induction h with
  | refl => exact h0
  | tail _ hlast ih =>
      obtain ⟨l, hG, hs⟩ := hlast
      exact hstep _ l _ ih hG hs

/-- A stronger guard leaves fewer runs. -/
theorem mono (h : Reachable step G init s) (hGH : ∀ s l, G s l → H s l) :
    Reachable step H init s :=
  Relation.ReflTransGen.mono (fun _ _ ⟨l, hG, hs⟩ => ⟨l, hGH _ l hG, hs⟩) _ _ h

end Reachable

/-- The machine that refuses the steps that do not meet the guard. -/
def restrict (step : σ → ℓ → Option σ) (G : σ → ℓ → Prop) [∀ s l, Decidable (G s l)]
    (s : σ) (l : ℓ) : Option σ :=
  if G s l then step s l else none

/-- An evaluated run of the restricted machine reaches its last state. -/
theorem Reachable.of_exec {step : σ → ℓ → Option σ} {G : σ → ℓ → Prop}
    [∀ s l, Decidable (G s l)] {init s : σ} {ls : List ℓ}
    (h : exec (restrict step G) ls init = some s) : Reachable step G init s := by
  suffices H : ∀ ls m, Reachable step G init m → exec (restrict step G) ls m = some s →
      Reachable step G init s from H ls init .refl h
  clear h ls
  intro ls
  induction ls with
  | nil =>
      intro m hm h
      rw [exec_nil, Option.some.injEq] at h
      exact h ▸ hm
  | cons l ls ih =>
      intro m hm h
      rw [exec_cons, Option.bind_eq_some_iff] at h
      obtain ⟨m', hstep, hrest⟩ := h
      unfold restrict at hstep
      split at hstep
      · rename_i hG
        exact ih m' (hm.tail hG hstep) hrest
      · exact absurd hstep (by simp)

/-- **The rule of a bounded run.** Where every counted step takes at least one from `left`,
and the others add nothing to it, a run has no more of them than there is to take. -/
theorem countP_le_of_exec {step : σ → ℓ → Option σ} {I : σ → Prop} {left : σ → Nat}
    {counted : ℓ → Bool}
    (hstep : ∀ s l s', I s → step s l = some s' →
      I s' ∧ left s' + (if counted l then 1 else 0) ≤ left s)
    {ls : List ℓ} {s s' : σ} (hI : I s) (h : exec step ls s = some s') :
    ls.countP counted + left s' ≤ left s := by
  induction ls generalizing s with
  | nil =>
      cases h
      have hnil : ([] : List ℓ).countP counted = 0 := List.countP_nil
      omega
  | cons l ls ih =>
      rw [exec_cons, Option.bind_eq_some_iff] at h
      obtain ⟨t, ht, hrest⟩ := h
      obtain ⟨hIt, hfirst⟩ := hstep s l t hI ht
      have hlater := ih hIt hrest
      rw [List.countP_cons]
      omega

/-- The same where every step is counted. -/
theorem length_le_of_exec {step : σ → ℓ → Option σ} {I : σ → Prop} {left : σ → Nat}
    (hstep : ∀ s l s', I s → step s l = some s' → I s' ∧ left s' < left s)
    {ls : List ℓ} {s s' : σ} (hI : I s) (h : exec step ls s = some s') :
    ls.length + left s' ≤ left s := by
  rw [← List.countP_true]
  exact countP_le_of_exec hstep hI h

/-- **The rule of a machine that comes to rest.** Where every step takes something from
`left`, a state in which no step is left can be reached. -/
theorem exists_stuck {step : σ → ℓ → Option σ} {I : σ → Prop} {left : σ → Nat}
    (hstep : ∀ s l s', I s → step s l = some s' → I s' ∧ left s' < left s)
    {s : σ} (hI : I s) :
    ∃ ls s', exec step ls s = some s' ∧ I s' ∧ ∀ l, step s' l = none := by
  induction hleft : left s using Nat.strongRecOn generalizing s with
  | ind n ih =>
      by_cases hstuck : ∀ l, step s l = none
      · exact ⟨[], s, rfl, hI, hstuck⟩
      · obtain ⟨l, hl⟩ := Classical.not_forall.mp hstuck
        obtain ⟨t, ht⟩ := Option.ne_none_iff_exists'.mp hl
        obtain ⟨hIt, hlt⟩ := hstep s l t hI ht
        obtain ⟨ls, s', hexec, hrest⟩ := ih _ (hleft ▸ hlt) hIt rfl
        exact ⟨l :: ls, s', by rw [exec_cons, ht]; exact hexec, hrest⟩

/-! ### Runs whose labels are given -/

section Given

variable {step : σ → ℓ → Option σ} {G L : σ → ℓ → Prop} {P Q : σ → Prop} {s : σ} {ls : List ℓ}

/-- Every step of the run meets the guard. -/
def StepsMeet (step : σ → ℓ → Option σ) (G : σ → ℓ → Prop) : List ℓ → σ → Prop
  | [], _ => True
  | l :: ls, s => G s l ∧ ∀ s' ∈ step s l, StepsMeet step G ls s'

/-- `P` holds in every state of the run. -/
def StatesMeet (step : σ → ℓ → Option σ) (P : σ → Prop) : List ℓ → σ → Prop
  | [], s => P s
  | l :: ls, s => P s ∧ ∀ s' ∈ step s l, StatesMeet step P ls s'

instance StepsMeet.decide [∀ s l, Decidable (G s l)] :
    ∀ (ls : List ℓ) (s : σ), Decidable (StepsMeet step G ls s)
  | [], _ => .isTrue trivial
  | _ :: ls, _ =>
      have (s' : σ) : Decidable (StepsMeet step G ls s') := StepsMeet.decide ls s'
      inferInstanceAs (Decidable (_ ∧ _))

/-- **The rule of a run.** The invariant may count the steps that are left. A legal step
from it succeeds and keeps it, and keeps `P` if and only if it meets the guard: then the
run succeeds, and `P` holds in all its states if and only if all its steps meet the guard. -/
theorem exec_of_steps {I : Nat → σ → Prop}
    (hstep : ∀ k s l, I (k + 1) s → L s l →
      ∃ s', step s l = some s' ∧ I k s' ∧ (P s → (P s' ↔ G s l)))
    (hI : I ls.length s) (hP : P s) (hlegal : StepsMeet step L ls s) :
    (∃ s', exec step ls s = some s') ∧
      (StatesMeet step P ls s ↔ StepsMeet step G ls s) := by
  suffices H : (∃ s', exec step ls s = some s') ∧
      (P s → (StatesMeet step P ls s ↔ StepsMeet step G ls s)) from ⟨H.1, H.2 hP⟩
  clear hP
  induction ls generalizing s with
  | nil => exact ⟨⟨s, rfl⟩, fun hP => ⟨fun _ => trivial, fun _ => hP⟩⟩
  | cons l ls ih =>
      obtain ⟨s', hs', hI', hiff⟩ := hstep _ s l hI hlegal.1
      obtain ⟨⟨t, ht⟩, hrest⟩ := ih hI' (hlegal.2 s' hs')
      refine ⟨⟨t, by rw [exec_cons, hs']; exact ht⟩, fun hP => ?_⟩
      have hstates : StatesMeet step P (l :: ls) s ↔ P s ∧ StatesMeet step P ls s' := by
        simp [StatesMeet, hs']
      have hsteps : StepsMeet step G (l :: ls) s ↔ G s l ∧ StepsMeet step G ls s' := by
        simp [StepsMeet, hs']
      have hhead : StatesMeet step P ls s' → P s' := by
        cases ls with
        | nil => exact id
        | cons _ _ => exact And.left
      rw [hstates, hsteps]
      refine ⟨fun ⟨_, hstates'⟩ => ?_, fun ⟨hG, hsteps'⟩ => ?_⟩
      · have hP' := hhead hstates'
        exact ⟨(hiff hP).mp hP', (hrest hP').mp hstates'⟩
      · have hP' := (hiff hP).mpr hG
        exact ⟨hP, (hrest hP').mpr hsteps'⟩

/-- What holds in every state of a run holds in the last one. -/
theorem StatesMeet.last {s' : σ} (h : StatesMeet step P ls s) (hexec : exec step ls s = some s') :
    P s' := by
  induction ls generalizing s with
  | nil =>
      cases hexec
      exact h
  | cons l ls ih =>
      rw [exec_cons, Option.bind_eq_some_iff] at hexec
      obtain ⟨t, ht, hrest⟩ := hexec
      exact ih (h.2 t ht) hrest

theorem StepsMeet.of_forall (h : ∀ s, ∀ l ∈ ls, G s l) : StepsMeet step G ls s := by
  induction ls generalizing s with
  | nil => trivial
  | cons l ls ih =>
      exact ⟨h s l List.mem_cons_self,
        fun _ _ => ih fun s l hl => h s l (List.mem_cons_of_mem _ hl)⟩

/-- What the invariant implies holds in every state of a legal run, as long as it goes on. -/
theorem StatesMeet.of_preserved {I : Nat → σ → Prop}
    (hstep : ∀ k s l s', I (k + 1) s → L s l → step s l = some s' → I k s')
    (hQ : ∀ k s, I k s → Q s) (hI : I ls.length s) (hlegal : StepsMeet step L ls s) :
    StatesMeet step Q ls s := by
  induction ls generalizing s with
  | nil => exact hQ _ s hI
  | cons l ls ih =>
      exact ⟨hQ _ s hI, fun s' hs' => ih (hstep _ s l s' hI hlegal.1 hs') (hlegal.2 s' hs')⟩

/-- The same where the steps of legal runs are known to succeed. -/
theorem StatesMeet.of_invariant {I : Nat → σ → Prop}
    (hstep : ∀ k s l, I (k + 1) s → L s l → ∃ s', step s l = some s' ∧ I k s')
    (hQ : ∀ k s, I k s → Q s) (hI : I ls.length s) (hlegal : StepsMeet step L ls s) :
    StatesMeet step Q ls s := by
  refine StatesMeet.of_preserved (fun k s l s' hI hl hs' => ?_) hQ hI hlegal
  obtain ⟨t, ht, hI'⟩ := hstep k s l hI hl
  obtain rfl : t = s' := Option.some.inj (ht.symm.trans hs')
  exact hI'

/-- What the invariant implies holds of every step of a legal run. -/
theorem StepsMeet.of_preserved {I : Nat → σ → Prop}
    (hstep : ∀ k s l s', I (k + 1) s → L s l → step s l = some s' → I k s')
    (hG : ∀ k s l, I (k + 1) s → L s l → G s l) (hI : I ls.length s)
    (hlegal : StepsMeet step L ls s) : StepsMeet step G ls s := by
  induction ls generalizing s with
  | nil => trivial
  | cons l ls ih =>
      exact ⟨hG _ s l hI hlegal.1,
        fun s' hs' => ih (hstep _ s l s' hI hlegal.1 hs') (hlegal.2 s' hs')⟩

end Given

end SystemProgramming.Library
