import SystemProgramming.Phase2.ForkFailure

/-!
The runs of a pipeline some of whose forks fail: they end, none gets stuck, and when the
shell returns every process that was there is gone. The commands of a child that was
not forked are not run; the others have the descriptors they always have.
-/

namespace SystemProgramming.Phase2

open SystemProgramming.CLib SystemProgramming.MyShell SystemProgramming.Library

/-! ### Runs -/

section Runs

variable {exec : List CString → Bool} {own : FdTable} {cmds : List CString} {p : Process}
  {pr : Proc} {procs : Process → Option Proc} {failed : List (Process × Nat)} {f f' : Faulty}
  {move : FaultyMove} {d i k : Nat}

theorem Forest.left_fork (h : Forest exec own cmds procs failed) (hp : procs p = some pr)
    (q : Process) : left (fork procs p pr q) ≤ left (procs q) := by
  rw [fork_apply]
  split
  · exact Nat.le_refl _
  · next k child hchild =>
      split
      · next hq =>
          rw [hq, (kid_eq_absent.mp (h.kid_fork hp hchild)).2, left, left]
          obtain ⟨-, -, rfl⟩ | ⟨-, -, rfl⟩ := Proc.child_cases hchild <;> dsimp only <;> decide
      · exact Nat.le_refl _

theorem Forest.movesLeft_step (h : Forest exec own cmds f.world.procs f.failed)
    (hstep : f.step exec move = some f') :
    movesLeft cmds.length f'.world.procs < movesLeft cmds.length f.world.procs := by
  obtain ⟨p, pr, hp, hlt, hle⟩ : ∃ p pr, f.world.procs p = some pr ∧
      left (f'.world.procs p) < left (f.world.procs p) ∧
      ∀ q, left (f'.world.procs q) ≤ left (f.world.procs q) := by
    obtain ⟨made, w', -, hmade, rfl⟩ | ⟨p, pr, k, child, calls, pr', -, hp, -, hnext, rfl⟩ :=
      Faulty.step_cases hstep
    · obtain ⟨p, pr, hp, ⟨calls, pr', -, hnext, rfl⟩ | ⟨k, point, child, -, hpoint, -, -, rfl⟩ |
        ⟨point, -, hpoint, -, rfl⟩ | ⟨-, hpoint, rfl⟩⟩ := World.step_cases hmade
      · exact ⟨p, pr, hp, left_update hp ((h.sound p pr hp).goes hnext).left_lt (h.left_fork hp)⟩
      · refine ⟨p, pr, hp, left_update hp (Point.left_afterWait hpoint) fun q => ?_⟩
        rw [Function.update_apply]
        split
        · exact Nat.zero_le _
        · exact Nat.le_refl _
      · exact ⟨p, pr, hp, left_update hp (Point.left_afterWait hpoint) fun q => Nat.le_refl _⟩
      · refine ⟨p, pr, hp, left_update hp ?_ fun q => Nat.le_refl _⟩
        rw [hpoint]
        exact Nat.zero_lt_one
    · exact ⟨p, pr, hp,
        left_update hp ((h.sound p pr hp).goes hnext).left_lt fun q => Nat.le_refl _⟩
  exact movesLeft_lt hle hlt (h.sound p pr hp).member

theorem noChildren_or (procs : Process → Option Proc) (p : Process) :
    noChildren procs p = true ∨ ∃ k child, procs (p ++ [k]) = some child ∧
      child.point ≠ .reaped ∧ (k = 0 ∨ k = 1) := by
  by_contra hnot
  obtain ⟨hall, hnone⟩ := not_or.mp hnot
  refine hall (List.all_eq_true.mpr fun k hk => ?_)
  cases hchild : procs (p ++ [k]) with
  | none => rfl
  | some child =>
      rw [Option.all_some, decide_eq_true_eq]
      by_contra hreaped
      exact hnone ⟨k, child, hchild, hreaped, by simpa using hk⟩

/-- **No run gets stuck** before the shell returns, also when no `fork` fails from there on.
The induction is on the commands behind number `d`. -/
theorem Forest.can_move {w : World} (h : Forest exec own cmds w.procs failed)
    (hp : w.procs (spine d) = some pr) (hended : pr.point.ended = false)
    (hreturned : pr.point = .returned → d ≠ 0) : ∃ move, (w.step exec move).isSome := by
  induction hn : cmds.length - d generalizing d pr with
  | zero =>
      obtain ⟨e, he, hspine⟩ | ⟨e, -, hleaf⟩ := (h.sound _ pr hp).member
      · rw [spine_inj] at hspine
        omega
      · exact absurd hleaf.symm (leaf_ne_spine e d)
  | succ n ih =>
      have hsound := h.sound _ pr hp
      cases hwait : pr.point.afterWait with
      | none =>
          exact hsound.can_move hp hended hwait fun hat heq =>
            hreturned hat ((List.replicate_eq_nil_iff 1).mp heq)
      | some point =>
          obtain hnone | ⟨k, child, hchild, hreaped, hk⟩ := noChildren_or w.procs (spine d)
          · exact ⟨.wait (spine d) none, by simp [World.step, hp, hwait, hnone]⟩
          by_cases hzombie : child.point = .zombie
          · exact ⟨.wait (spine d) (some k), by simp [World.step, hp, hwait, hchild, hzombie]⟩
          have hchildEnded : child.point.ended = false := by
            cases hat : child.point with
            | zombie => exact absurd hat hzombie
            | reaped => exact absurd hat hreaped
            | _ => rfl
          obtain rfl | rfl := hk
          · have hleaf := h.sound (leaf d) child hchild
            refine hleaf.can_move hchild hchildEnded ?_ fun _ => ?_
            · by_contra hsome
              obtain ⟨point', hpoint'⟩ := Option.ne_none_iff_exists'.mp hsome
              exact leaf_ne_spine _ _ (hleaf.eq_spine_of_wait hpoint')
            · exact List.append_ne_nil_of_right_ne_nil _ (List.cons_ne_nil _ _)
          · rw [spine_append] at hchild
            exact ih hchild hchildEnded (fun _ => d.succ_ne_zero) (by omega)

/-! ### What is left -/

theorem Kid.gone.not_present {k : Kid} (h : k.gone) : k ≠ .present := (Kid.gone_iff.mp h).2

/-- A child of a call of `run_pipe` that is over is gone, if it was ever there. -/
theorem Forest.kid_reaped (h : Forest exec own cmds procs failed) (hp : procs p = some pr)
    (hpoint : pr.point = .returned ∨ pr.point = .reaped) {child : Proc}
    (hchild : procs (p ++ [k]) = some child) (hk : k = 0 ∨ k = 1) : child.point = .reaped := by
  have hbrood := h.brood p
  rw [hp] at hbrood
  have hnot : kid failed procs p k ≠ .present := by
    obtain hat | hat := hpoint
    · simp only [Brood, hat] at hbrood
      obtain rfl | rfl := hk
      · exact hbrood.1.not_present
      · exact hbrood.2.not_present
    · simp only [Brood, hat] at hbrood
      split at hbrood
      · obtain rfl | rfl := hk <;> simp [hbrood]
      · obtain rfl | rfl := hk
        · exact hbrood.1.not_present
        · exact hbrood.2.not_present
  have hfailed : (p, k) ∉ failed := by
    intro hmem
    rw [h.lost p k hmem] at hchild
    cases hchild
  by_contra hreaped
  rw [kid, if_neg hfailed, hchild, life_present hreaped] at hnot
  exact hnot rfl

/-- Nobody is there whose parent never was. -/
theorem Forest.parent (h : Forest exec own cmds procs failed) {child : Proc}
    (hchild : procs (p ++ [k]) = some child) (hk : k = 0 ∨ k = 1) : ∃ pr, procs p = some pr := by
  by_contra hnone
  have hbrood := h.brood p
  rw [Option.eq_none_iff_forall_ne_some.mpr fun pr hp => hnone ⟨pr, hp⟩] at hbrood
  have habsent : procs (p ++ [k]) = none := by
    obtain rfl | rfl := hk
    · exact (kid_eq_absent.mp hbrood.1).2
    · exact (kid_eq_absent.mp hbrood.2).2
  rw [habsent] at hchild
  cases hchild

/-- A process that has called `run_pipe` and is there when the shell returns. -/
theorem Forest.over (h : Forest exec own cmds f.world.procs f.failed)
    (hreturned : f.world.Returned) (hp : f.world.procs (spine d) = some pr) :
    pr.point = .returned ∨ pr.point = .reaped := by
  induction d generalizing pr with
  | zero =>
      obtain ⟨shell, hshell, hpoint⟩ := hreturned
      exact .inl (Option.some.inj (hshell.symm.trans hp) ▸ hpoint)
  | succ d ih =>
      rw [← spine_append] at hp
      obtain ⟨parent, hparent⟩ := h.parent hp (.inr rfl)
      exact .inr (h.kid_reaped hparent (ih hparent) hp (.inr rfl))

/-- When the shell returns all the others are gone. -/
theorem Forest.reaped (h : Forest exec own cmds f.world.procs f.failed)
    (hreturned : f.world.Returned) (hp : f.world.procs p = some pr) (hne : p ≠ []) :
    pr.point = .reaped := by
  have hkid {d k : Nat} (hk : k = 0 ∨ k = 1) (hp : f.world.procs (spine d ++ [k]) = some pr) :
      pr.point = .reaped := by
    obtain ⟨parent, hparent⟩ := h.parent hp hk
    exact h.kid_reaped hparent (h.over hreturned hparent) hp hk
  obtain ⟨d, -, rfl⟩ | ⟨d, -, rfl⟩ := (h.sound p pr hp).member
  · obtain _ | d := d
    · exact absurd rfl hne
    · rw [← spine_append] at hp
      exact hkid (.inr rfl) hp
  · exact hkid (.inl rfl) hp

end Runs

/-- The first `fork` fails, and `wc` reads from a pipe nobody writes to. -/
example : ((Library.exec (Faulty.step fun _ => true)
    ([.made (.call []), .forkFails []] ++ List.replicate 3 (.made (.call [])) ++
      List.replicate 5 (.made (.call [1])) ++
      [.made (.ends [1]), .made (.wait [] (some 1)), .made (.wait [] none)])
    (.start [some (.inherited 0), some (.inherited 1), some (.inherited 2)]
      ["ls ".toList, " wc".toList])).bind fun f => (f.world.procs []).map Proc.point) =
    some .returned := by
  decide +kernel

end SystemProgramming.Phase2
