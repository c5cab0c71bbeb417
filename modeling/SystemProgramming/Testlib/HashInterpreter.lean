import SystemProgramming.Library.Runs
import SystemProgramming.Testlib.HashSearchable

/-!
Runs of the interpreter on a hash table. `hash_apply` writes new values into
items that stay where they are, so a run keeps the table searchable exactly as
long as the actions it applies are compatible with the values stored.
-/

namespace SystemProgramming.Testlib

open SystemProgramming.Library

variable {s : HashInterp} {a : Nat} {rows : Nat × Nat → List HashItem} {S : List HashItem}
  {n fuel : Nat}

/-- No two items have the same value, and every item is in the bucket of its value. -/
def HashInterp.Searchable (s : HashInterp) : Prop :=
  ∃ a rows S, s.Owns a rows S [] ∧ s.Good a rows

/-- `hash_find` finds exactly the values that `dumpdata` prints. -/
def HashInterp.FindsDumped (fuel : Nat) (s : HashInterp) : Prop :=
  ∃ vs : List Int,
    (dumpHash fuel).run s = some ((), { s with
      out := s.out ++ (String.intercalate " " (vs.map toString) ++ "\n") }) ∧
    ∀ v memory, (doHashCommand fuel memory (.find v)).run s = some ((), { s with
      out := s.out ++ if v ∈ vs then toString v ++ "\n" else "" })

theorem HashInterp.Table.searchable_iff (ht : s.Table a rows S n) :
    s.Searchable ↔ s.Good a rows := by
  refine ⟨fun ⟨a', rows', S', ho, hgood⟩ => ⟨fun i hi e he => ?_, hgood.unique⟩, fun hgood =>
    ⟨a, rows, S, ht.owns, hgood⟩⟩
  refine hgood.placed i hi e ?_
  rw [ht.owns.holds.rows_eq ho.holds hi]
  exact he

theorem HashInterp.Table.findsDumped (ht : s.Table a rows S n) (hfuel : n < fuel)
    (hs : s.Searchable) : s.FindsDumped fuel := by
  obtain ⟨vs, hdump, hperm⟩ := ht.run_dumpHash hfuel
  refine ⟨vs, hdump, fun v memory => ?_⟩
  obtain ⟨text, hfind, htext⟩ := ht.run_find hfuel memory v
  rw [hfind, htext (ht.searchable_iff.mp hs)]
  simp only [hperm.mem_iff]

/-! ### Lines -/

/-- What a line asks for, with what `malloc` does for it. -/
abbrev HashLine := List String × HashMalloc

/-- A line of input. -/
def hashStep (fuel : Nat) (s : HashInterp) (line : HashLine) : Option HashInterp :=
  ((doHashLine fuel line.1 line.2).run s).map Prod.snd

/-- The action that a line applies. -/
def appliedAction (line : HashLine) : Option HashAction :=
  match line.1 with
  | token :: _ :: args =>
      match hashCommand token args with
      | some (.apply action) => action
      | _ => none
  | _ => none

/-- The product of no item overflows in the line. -/
def HashInterp.LineFits (s : HashInterp) (line : HashLine) : Prop :=
  ∀ action ∈ appliedAction line, s.Fits action

/-- The line applies no action, or one that keeps the values apart and in their buckets. -/
def HashInterp.LineCompatible (s : HashInterp) (line : HashLine) : Prop :=
  ∀ action ∈ appliedAction line, s.Compatible action

instance (s : HashInterp) (line : HashLine) : Decidable (s.LineFits line) :=
  inferInstanceAs (Decidable (∀ _ ∈ _, _))

instance (s : HashInterp) (line : HashLine) : Decidable (s.LineCompatible line) :=
  inferInstanceAs (Decidable (∀ _ ∈ _, _))

/-- Every command keeps a table, and all but an incompatible `hash_apply` keep it searchable. -/
theorem HashInterp.Table.run_doHashCommand (ht : s.Table a rows S n) (hfuel : n + 5 ≤ fuel)
    (memory : HashMalloc) (c : HashCommand) (hc : ∀ action, c ≠ .apply (some action)) :
    KeepsGood (doHashCommand fuel memory c) s a rows (n + 1) := by
  cases c with
  | insert v => exact ht.run_insert hfuel v
  | replace v => exact ht.run_replace hfuel v
  | delete v => exact ht.run_delete hfuel v
  | find v =>
      obtain ⟨text, hfind, _⟩ := ht.run_find (show n < fuel by omega) memory v
      exact ht.keepsGood_print hfind
  | size => exact ht.keepsGood_print rfl
  | empty => exact ht.keepsGood_print rfl
  | clear => exact ht.run_clear (by omega)
  | apply action =>
      cases action with
      | none => exact ht.keepsGood_pure
      | some action => exact absurd rfl (hc action)

theorem HashInterp.Table.hashStep (ht : s.Table a rows S n) (hfuel : n + 5 ≤ fuel)
    (line : HashLine) (hfits : s.LineFits line) :
    ∃ s' a' rows' S', hashStep fuel s line = some s' ∧ s'.Table a' rows' S' (n + 1) ∧
      (s.Searchable → (s'.Searchable ↔ s.LineCompatible line)) := by
  have hkeeps {cmd : HashCmd Unit} (hline : doHashLine fuel line.1 line.2 = cmd)
      (happlied : appliedAction line = none) (hcmd : KeepsGood cmd s a rows (n + 1)) :
      ∃ s' a' rows' S', Testlib.hashStep fuel s line = some s' ∧ s'.Table a' rows' S' (n + 1) ∧
        (s.Searchable → (s'.Searchable ↔ s.LineCompatible line)) := by
    obtain ⟨s', a', rows', S', hrun, ht', hgood⟩ := hcmd
    refine ⟨s', a', rows', S', ?_, ht', fun hs => ⟨fun _ => ?_, fun _ => ?_⟩⟩
    · rw [Testlib.hashStep, hline, hrun]
      rfl
    · rw [HashInterp.LineCompatible, happlied]
      exact fun _ hnone => by cases hnone
    · exact ht'.searchable_iff.mpr (hgood (ht.searchable_iff.mp hs))
  obtain ⟨tokens, memory⟩ := line
  rcases tokens with _ | ⟨token, _ | ⟨name, args⟩⟩
  · exact hkeeps rfl rfl ht.keepsGood_pure
  · exact hkeeps rfl rfl ht.keepsGood_pure
  cases hcommand : hashCommand token args with
  | none =>
      have hline : doHashLine fuel (token :: name :: args) memory = pure () := by
        simp only [doHashLine, hcommand]
      refine hkeeps hline ?_ ht.keepsGood_pure
      simp only [appliedAction, hcommand]
  | some c =>
      have hline : doHashLine fuel (token :: name :: args) memory =
          doHashCommand fuel memory c := by
        simp only [doHashLine, hcommand]
      -- only `hash_apply` changes values where they stand
      by_cases hc : ∃ action, c = .apply (some action)
      · obtain ⟨action, rfl⟩ := hc
        have happlied : appliedAction (token :: name :: args, memory) = some action := by
          simp only [appliedAction, hcommand]
        obtain ⟨s', hrun, ht', hgood⟩ :=
          ht.run_apply (show n < fuel by omega) memory (hfits action happlied)
        refine ⟨s', a, rows, S, ?_, ht'.mono (Nat.le_succ n), fun hs => ?_⟩
        · rw [Testlib.hashStep, hline, hrun]
          rfl
        · rw [ht'.searchable_iff, hgood (ht.searchable_iff.mp hs), LineCompatible, happlied]
          simp
      · have hnot (action : HashAction) : c ≠ .apply (some action) :=
          fun heq => hc ⟨action, heq⟩
        refine hkeeps hline ?_ (ht.run_doHashCommand hfuel memory c hnot)
        simp only [appliedAction, hcommand]
        cases c with
        | apply action =>
            cases action with
            | none => rfl
            | some action => exact absurd rfl (hnot action)
        | _ => rfl

/-- The fuel is enough for `k` more lines, each of which adds at most one item and at most one
to the number of buckets. -/
def HashInterp.Lasts (s : HashInterp) (fuel k : Nat) : Prop :=
  ∃ a rows S n, s.Table a rows S n ∧ n + k + 5 ≤ fuel

theorem HashInterp.Lasts.hashStep {k : Nat} {line : HashLine} (hs : s.Lasts fuel (k + 1))
    (hfits : s.LineFits line) : ∃ s', hashStep fuel s line = some s' ∧ s'.Lasts fuel k ∧
      (s.Searchable → (s'.Searchable ↔ s.LineCompatible line)) := by
  obtain ⟨a, rows, S, n, ht, hn⟩ := hs
  obtain ⟨s', a', rows', S', hrun, ht', hiff⟩ := ht.hashStep (show _ ≤ fuel by omega) line hfits
  exact ⟨s', hrun, ⟨a', rows', S', n + 1, ht', by omega⟩, hiff⟩

/-- Where there are no items, `create` makes an empty table. -/
theorem run_createHashObject (hnone : ∀ m, s.values m = none) (fuel asked : Nat)
    (garbage : HashAddr HashItem → Link (HashAddr HashItem)) :
    ∃ s' a rows, (createHashObject fuel (some (asked, garbage))).run s = some ((), s') ∧
      s'.Table a rows [] 4 ∧ s'.Searchable := by
  have hnot (e : HashItem) : ¬ Allocated s.values e := by
    intro he
    obtain ⟨m, w, _, hw⟩ := he.exists
    rw [hnone m] at hw
    cases hw
  obtain ⟨h', a, rows, hrun, hh, hcnt⟩ := run_hashInit fuel
    (h := s.hash) (L := Allocated s.values) (fun e he => absurd he (hnot e)) asked garbage
  have ht : ({ s with hash := h' } : HashInterp).Table a rows [] 4 :=
    ⟨⟨hh, fun e => by simpa using hnot e, by simp, fun m _ => hnone m⟩, Nat.zero_le 4,
      Nat.le_of_eq hcnt⟩
  refine ⟨_, a, rows, run_bind_of (run_onTable hrun), ht, ht.searchable_iff.mpr
    ⟨fun i hi x hx => ?_, fun m k v hm => ?_⟩⟩
  · exact absurd (hh.mem.mpr ⟨i, hi, hx⟩) List.not_mem_nil
  · exact absurd ((hnone m).symm.trans hm) (Option.some_ne_none v).symm

/-- **Searchable runs.** No command of a run without overflow fails. All its states are
searchable if and only if every `hash_apply` takes different values to different ones and
leaves each in its bucket; and a searchable state finds exactly what it dumps. -/
theorem hash_searchable_iff (fuel asked : Nat)
    (garbage : HashAddr HashItem → Link (HashAddr HashItem)) (lines : List HashLine)
    (hfuel : lines.length + 9 ≤ fuel) :
    ∃ s₀, (createHashObject fuel (some (asked, garbage))).run .initial = some ((), s₀) ∧
      (StepsMeet (hashStep fuel) HashInterp.LineFits lines s₀ →
        (∃ s, exec (hashStep fuel) lines s₀ = some s) ∧
        (StatesMeet (hashStep fuel) HashInterp.Searchable lines s₀ ↔
          StepsMeet (hashStep fuel) HashInterp.LineCompatible lines s₀) ∧
        StatesMeet (hashStep fuel) (fun s => s.Searchable → s.FindsDumped fuel) lines s₀) := by
  obtain ⟨s₀, a, rows, hcreate, ht, hs⟩ :=
    run_createHashObject (s := .initial) (fun _ => rfl) fuel asked garbage
  have hI : s₀.Lasts fuel lines.length := ⟨a, rows, [], 4, ht, by omega⟩
  refine ⟨s₀, hcreate, fun hlegal => ?_⟩
  obtain ⟨hexec, hiff⟩ := exec_of_steps (I := fun k s => s.Lasts fuel k)
    (fun _ _ _ => HashInterp.Lasts.hashStep) hI hs hlegal
  refine ⟨hexec, hiff, StatesMeet.of_invariant (I := fun k s => s.Lasts fuel k)
    (fun k s line hI hfits => ?_) ?_ hI hlegal⟩
  · obtain ⟨s', hrun, hI', _⟩ := hI.hashStep hfits
    exact ⟨s', hrun, hI'⟩
  · rintro k s ⟨a, rows, S, n, ht, hn⟩ hs
    exact ht.findsDumped (by omega) hs

/-! ### Runs on fixed lines -/

/-- A line for which `malloc` gives an item, and no array to `rehash`. -/
def plainLine (tokens : List String) : HashLine := (tokens, ⟨some (0, ⟨none, none⟩), none⟩)

theorem hash_searchable_iff_square :
    ∃ s₀, (createHashObject 12 (some (0, fun _ => ⟨none, none⟩))).run .initial = some ((), s₀) ∧
      (∃ s, exec (hashStep 12) [plainLine ["hash_insert", "h", "1"],
        plainLine ["hash_insert", "h", "0"], plainLine ["hash_apply", "h", "square"]] s₀ = some s) ∧
      StatesMeet (hashStep 12) (fun s => s.Searchable) [plainLine ["hash_insert", "h", "1"],
        plainLine ["hash_insert", "h", "0"], plainLine ["hash_apply", "h", "square"]] s₀ := by
  obtain ⟨s₀, hcreate, hrun⟩ := hash_searchable_iff 12 0 (fun _ => ⟨none, none⟩)
    [plainLine ["hash_insert", "h", "1"], plainLine ["hash_insert", "h", "0"],
      plainLine ["hash_apply", "h", "square"]] (by decide)
  have hmeet : ∀ r ∈ (createHashObject 12 (some (0, fun _ => ⟨none, none⟩))).run .initial,
      StepsMeet (hashStep 12) HashInterp.LineFits [plainLine ["hash_insert", "h", "1"],
        plainLine ["hash_insert", "h", "0"], plainLine ["hash_apply", "h", "square"]] r.2 ∧
      StepsMeet (hashStep 12) HashInterp.LineCompatible [plainLine ["hash_insert", "h", "1"],
        plainLine ["hash_insert", "h", "0"], plainLine ["hash_apply", "h", "square"]] r.2 := by
    decide +kernel
  obtain ⟨hfits, hcompatible⟩ := hmeet _ hcreate
  obtain ⟨hexec, hiff, _⟩ := hrun hfits
  exact ⟨s₀, hcreate, hexec, hiff.mpr hcompatible⟩

/-- The squares of 2 and -2 stay in the buckets of 2 and -2: the table holds 4 twice, and
does not find it. -/
theorem hash_apply_loses_values :
    ∃ s₀ s, (createHashObject 12 (some (0, fun _ => ⟨none, none⟩))).run .initial =
        some ((), s₀) ∧
      StepsMeet (hashStep 12) HashInterp.LineFits [plainLine ["hash_insert", "h", "2"],
        plainLine ["hash_insert", "h", "-2"], plainLine ["hash_apply", "h", "square"]] s₀ ∧
      exec (hashStep 12) [plainLine ["hash_insert", "h", "2"],
        plainLine ["hash_insert", "h", "-2"], plainLine ["hash_apply", "h", "square"]] s₀ =
        some s ∧
      ¬ s.Searchable ∧
      ((dumpHash 12).run s).map (·.2.out) = some "4 4\n" ∧
      ((doHashCommand 12 ⟨none, none⟩ (.find 4)).run s).map (·.2.out) = some "" := by
  have hrun : ∀ r ∈ (createHashObject 12 (some (0, fun _ => ⟨none, none⟩))).run .initial,
      StepsMeet (hashStep 12) HashInterp.LineFits [plainLine ["hash_insert", "h", "2"],
        plainLine ["hash_insert", "h", "-2"], plainLine ["hash_apply", "h", "square"]] r.2 ∧
      ∃ s ∈ exec (hashStep 12) [plainLine ["hash_insert", "h", "2"],
        plainLine ["hash_insert", "h", "-2"], plainLine ["hash_apply", "h", "square"]] r.2,
        (s.values 0 = some 4 ∧ s.values 1 = some 4) ∧
        ((dumpHash 12).run s).map (·.2.out) = some "4 4\n" ∧
        ((doHashCommand 12 ⟨none, none⟩ (.find 4)).run s).map (·.2.out) = some "" := by
    decide +kernel
  obtain ⟨s₀, _, _, hcreate, _⟩ :=
    run_createHashObject (s := .initial) (fun _ => rfl) 12 0 fun _ => ⟨none, none⟩
  obtain ⟨hfits, s, hexec, ⟨h0, h1⟩, hdump, hfind⟩ := hrun _ hcreate
  refine ⟨s₀, s, hcreate, hfits, hexec, ?_, hdump, hfind⟩
  rintro ⟨_, _, _, _, hgood⟩
  exact absurd (hgood.unique 0 1 4 h0 h1) (by decide)

end SystemProgramming.Testlib
