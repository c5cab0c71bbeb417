import SystemProgramming.Phase2.Descriptors

/-!
What holds in every state of every run of `run_pipe`, in whatever order its
processes make their calls: a process and its two children go together, and so
the shell returns when the whole pipeline is gone.
-/

namespace SystemProgramming.Phase2

open SystemProgramming.CLib SystemProgramming.MyShell SystemProgramming.Library

/-! ### A process and its children -/

inductive Life
  | absent
  | present
  | collected
  deriving DecidableEq

def life : Option Proc → Life
  | none => .absent
  | some pr => if pr.point = .reaped then .collected else .present

theorem life_present {pr : Proc} (h : pr.point ≠ .reaped) : life (some pr) = .present :=
  if_neg h

theorem life_eq_absent {o : Option Proc} : life o = .absent ↔ o = none := by
  cases o with
  | none => exact iff_of_true rfl rfl
  | some pr =>
      rw [life]
      split <;> simp

theorem life_eq_present {o : Option Proc} :
    life o = .present ↔ ∃ pr, o = some pr ∧ pr.point ≠ .reaped := by
  cases o with
  | none => simp [life]
  | some pr => by_cases h : pr.point = .reaped <;> simp [life, h]

theorem life_eq_collected {o : Option Proc} :
    life o = .collected ↔ ∃ pr, o = some pr ∧ pr.point = .reaped := by
  cases o with
  | none => simp [life]
  | some pr => by_cases h : pr.point = .reaped <;> simp [life, h]

/-- The children of the process that calls `run_pipe` for the commands of `n` from number `d`
on, by where it stands. -/
def Kids (n d : Nat) (left right : Life) : Option Point → Prop
  | some .forkRight => left = .present ∧ right = .absent
  | some .closeRead | some .closeWrite | some .waitFirst => left = .present ∧ right = .present
  | some .waitSecond =>
      (left = .present ∧ right = .collected) ∨ (left = .collected ∧ right = .present)
  | some .returned => left = .collected ∧ right = .collected
  | some .zombie | some .reaped =>
      if d + 1 = n then left = .absent ∧ right = .absent
      else left = .collected ∧ right = .collected
  | none | some .enter | some .forkLeft | some (.setUp _ _) | some (.stage _) | some .program =>
      left = .absent ∧ right = .absent

/-- The points a process can go to by a call of its own. -/
inductive Point.Goes : Point → Point → Prop
  | pipe : Goes .enter .forkLeft
  | single (calls : List Call) (h : calls.length ≤ 3) : Goes .enter (.stage calls)
  | forkLeft : Goes .forkLeft .forkRight
  | forkRight : Goes .forkRight .closeRead
  | closeRead : Goes .closeRead .closeWrite
  | closeWrite : Goes .closeWrite .waitFirst
  | returned : Goes .returned .zombie
  | dup2 (side : Side) : Goes (.setUp side .dup2) (.setUp side .closeRead)
  | childRead (side : Side) : Goes (.setUp side .closeRead) (.setUp side .closeWrite)
  | first (calls : List Call) (h : calls.length ≤ 3) :
      Goes (.setUp .left .closeWrite) (.stage calls)
  | others : Goes (.setUp .right .closeWrite) .enter
  | call (call : Call) (calls : List Call) : Goes (.stage (call :: calls)) (.stage calls)
  | execvp (call : Call) (calls : List Call) : Goes (.stage (call :: calls)) .program
  | exit (call : Call) (calls : List Call) : Goes (.stage (call :: calls)) .zombie

theorem length_runStage (exec : List CString → Bool) (cmd : CString) :
    (runStage exec cmd).length ≤ 3 := by
  have hexecvp (argv : List CString) : (execvpOrExit exec argv 0).length ≤ 3 := by
    rw [execvpOrExit]
    split <;> simp
  rw [runStage]
  cases parseline cmd with
  | nil => simp
  | cons file args =>
      by_cases hcd : file = ['c', 'd']
      · simp only [builtinCommand, if_pos hcd]
        cases args <;> simp
      by_cases hexit : file = ['e', 'x', 'i', 't']
      · simp only [builtinCommand, if_neg hcd, if_pos hexit]
        simp
      · simp only [builtinCommand, if_neg hcd, if_neg hexit, List.nil_append]
        exact hexecvp _

section Own

variable {exec : List CString → Bool} {own : FdTable} {cmds : List CString} {p : Process}
  {pr pr' : Proc} {calls : List Call} {d : Nat} {left right : Life}

theorem Proc.Sound.goes (h : pr.Sound exec own cmds p)
    (hnext : pr.next exec p = some (calls, pr')) : pr.point.Goes pr'.point := by
  cases next_branch hnext with
  | nothing hpoint hcmds =>
      obtain ⟨-, hpos, -, -⟩ := h.entered hpoint
      rw [hcmds] at hpos
      cases hpos
  | single cmd hpoint hcmds => exact hpoint ▸ .single _ (length_runStage exec _)
  | pipe cmd cmd' rest hpoint hcmds => exact hpoint ▸ .pipe
  | forkLeft hpoint => exact hpoint ▸ .forkLeft
  | forkRight hpoint => exact hpoint ▸ .forkRight
  | closeRead hpoint => exact hpoint ▸ .closeRead
  | closeWrite hpoint => exact hpoint ▸ .closeWrite
  | returned hpoint hp => exact hpoint ▸ .returned
  | dupWrite hpoint => exact hpoint ▸ .dup2 .left
  | dupRead hpoint => exact hpoint ▸ .dup2 .right
  | childRead side hpoint => exact hpoint ▸ .childRead side
  | first hpoint => exact hpoint ▸ .first _ (length_runStage exec _)
  | others hpoint => exact hpoint ▸ .others
  | execvp argv todo hpoint =>
      rw [hpoint]
      dsimp only
      split
      · exact .execvp _ todo
      · exact .call _ todo
  | exit status todo hpoint => exact hpoint ▸ .exit _ todo
  | call call todo hpoint hexecvp hexit => exact hpoint ▸ .call call todo

/-- The last command runs in the process that `run_pipe` is called in. -/
theorem Proc.Sound.last_of_ran (h : pr.Sound exec own cmds (spine d)) (hran : pr.ran.isSome) :
    d + 1 = cmds.length := by
  have hplace := h.place
  rw [Proc.place, if_pos hran, commandProcess] at hplace
  split at hplace
  · next hlast => rwa [spine_inj.mp hplace]
  · exact absurd hplace.symm (leaf_ne_spine _ _)

/-- A process that is behind its call of `run_pipe` was not the last one. -/
theorem Proc.Sound.not_last (h : pr.Sound exec own cmds (spine d))
    (hpoint : pr.point = .returned) : d + 1 ≠ cmds.length := by
  have hran := h.ran_eq_none (by rw [hpoint]; rfl) (by rw [hpoint]; rfl)
  have hmore := h.two_le hran (by rw [hpoint]; simp)
  have hplace := h.place
  rw [Proc.place, hran, hpoint] at hplace
  rw [spine_inj.mp hplace]
  omega

/-- A call other than `fork` leaves the children as they are. -/
theorem Proc.Sound.kids_next (h : pr.Sound exec own cmds (spine d))
    (hnext : pr.next exec (spine d) = some (calls, pr')) (hchild : pr.child = none)
    (hkids : Kids cmds.length d left right (some pr.point)) :
    Kids cmds.length d left right (some pr'.point) := by
  have hgoes := h.goes hnext
  have hran := h.ran
  have hreturned := h.not_last
  rw [Proc.child] at hchild
  generalize pr.point = point at hgoes hkids hchild hran hreturned
  generalize pr'.point = point' at hgoes
  cases hgoes with
  | forkLeft | forkRight => cases hchild
  | returned =>
      rw [Kids, if_neg (hreturned rfl)]
      exact hkids
  | exit =>
      rw [Kids, if_pos (h.last_of_ran (hran rfl))]
      exact hkids
  | _ => exact hkids

end Own

/-! ### The whole tree -/

/-- What holds of the processes of a pipeline together. -/
structure Tree (exec : List CString → Bool) (own : FdTable) (cmds : List CString)
    (procs : Process → Option Proc) : Prop where
  sound : ∀ p pr, procs p = some pr → pr.Sound exec own cmds p
  kids : ∀ d, Kids cmds.length d (life (procs (leaf d))) (life (procs (spine (d + 1))))
    ((procs (spine d)).map Proc.point)

section Steps

variable {exec : List CString → Bool} {own : FdTable} {cmds : List CString} {p : Process}
  {pr pr' : Proc} {procs : Process → Option Proc} {d k : Nat} {calls : List Call}

theorem Tree.start (own : FdTable) (hcmds : cmds ≠ []) :
    Tree exec own cmds (World.start own cmds).procs where
  sound p pr h := by
    simp only [World.start, Option.ite_none_right_eq_some, Option.some.injEq] at h
    obtain ⟨rfl, rfl⟩ := h
    exact
      { place := rfl
        rest := rfl
        least := List.length_pos_of_ne_nil hcmds
        fits := fun m => by rw [inheritedFile, if_neg (by simp)]
        ran := fun _ => rfl
        stage := fun st hst => by cases hst
        finishes := fun calls hcalls => by cases hcalls }
  kids d := by
    have hleaf : leaf d ≠ [] := List.append_ne_nil_of_right_ne_nil _ (List.cons_ne_nil _ _)
    have hspine : spine (d + 1) ≠ [] := List.cons_ne_nil _ _
    simp only [World.start, if_neg hleaf, if_neg hspine]
    split <;> exact ⟨rfl, rfl⟩

/-- One process changes, and stays there. -/
theorem Tree.update (h : Tree exec own cmds procs) (hp : procs p = some pr)
    (hs : pr'.Sound exec own cmds p) (hlife : life (some pr') = life (some pr))
    (hkids : ∀ d left right, p = spine d → Kids cmds.length d left right (some pr.point) →
      Kids cmds.length d left right (some pr'.point)) :
    Tree exec own cmds (Function.update procs p (some pr')) where
  sound q qr hq := by
    rw [Function.update_apply] at hq
    split at hq
    · next heq => exact Option.some.inj hq ▸ heq ▸ hs
    · exact h.sound q qr hq
  kids d := by
    have hlives (q : Process) :
        life (Function.update procs p (some pr') q) = life (procs q) := by
      rw [Function.update_apply]
      split
      · next heq => rw [heq, hp, hlife]
      · rfl
    have hkid := h.kids d
    rw [hlives, hlives, Function.update_apply]
    split
    · next heq =>
        rw [heq, hp] at hkid
        exact hkids d _ _ heq.symm hkid
    · exact hkid

/-- A process and its left child change. -/
theorem Tree.update_left (h : Tree exec own cmds procs) (hp : procs (spine d) = some pr)
    {child : Proc} (hs : pr'.Sound exec own cmds (spine d))
    (hc : child.Sound exec own cmds (leaf d)) (hlife : life (some pr') = life (some pr))
    (hkids : Kids cmds.length d (life (some child)) (life (procs (spine (d + 1))))
      (some pr'.point)) :
    Tree exec own cmds
      (Function.update (Function.update procs (leaf d) (some child)) (spine d) (some pr')) where
  sound q qr hq := by
    rw [Function.update_apply, Function.update_apply] at hq
    split at hq
    · next heq => exact Option.some.inj hq ▸ heq ▸ hs
    · split at hq
      · next heq => exact Option.some.inj hq ▸ heq ▸ hc
      · exact h.sound q qr hq
  kids e := by
    have hkid := h.kids e
    simp only [Function.update_apply, leaf_ne_spine, (leaf_ne_spine _ _).symm, leaf_inj,
      spine_inj, if_false]
    by_cases he : e = d
    · subst he
      rw [if_pos rfl, if_pos rfl, if_neg (by omega)]
      exact hkids
    · rw [if_neg he, if_neg he]
      split
      · next heq =>
          rw [heq, hp] at hkid
          rw [hlife]
          exact hkid
      · exact hkid

/-- A process and its right child change. -/
theorem Tree.update_right (h : Tree exec own cmds procs) (hp : procs (spine d) = some pr)
    {child : Proc} (hs : pr'.Sound exec own cmds (spine d))
    (hc : child.Sound exec own cmds (spine (d + 1))) (hlife : life (some pr') = life (some pr))
    (hkids : Kids cmds.length d (life (procs (leaf d))) (life (some child)) (some pr'.point))
    (hchild : ∀ left right, Kids cmds.length (d + 1) left right
      ((procs (spine (d + 1))).map Proc.point) →
        Kids cmds.length (d + 1) left right (some child.point)) :
    Tree exec own cmds
      (Function.update (Function.update procs (spine (d + 1)) (some child)) (spine d)
        (some pr')) where
  sound q qr hq := by
    rw [Function.update_apply, Function.update_apply] at hq
    split at hq
    · next heq => exact Option.some.inj hq ▸ heq ▸ hs
    · split at hq
      · next heq => exact Option.some.inj hq ▸ heq ▸ hc
      · exact h.sound q qr hq
  kids e := by
    have hkid := h.kids e
    simp only [Function.update_apply, leaf_ne_spine, spine_inj, if_false, Nat.add_right_cancel_iff]
    by_cases he : e = d
    · subst he
      rw [if_pos rfl, if_pos rfl, if_neg (by omega)]
      exact hkids
    · rw [if_neg he, if_neg he]
      by_cases hright : e = d + 1
      · subst hright
        rw [if_pos rfl, if_neg (by omega)]
        exact hchild _ _ hkid
      · rw [if_neg hright]
        split
        · next heq =>
            rw [heq, hp] at hkid
            rw [hlife]
            exact hkid
        · exact hkid

/-- A process calls `run_pipe` and goes on in it where it is. -/
theorem Proc.Sound.eq_spine (h : pr.Sound exec own cmds p) (hended : pr.point.ended = false)
    (hcommand : pr.point.inCommand = false) (hsetUp : ∀ side point, pr.point ≠ .setUp side point) :
    p = spine pr.i := by
  rw [h.place, Proc.place, h.ran_eq_none hended hcommand]
  split
  · next hran => cases hran
  · split
    · next hpoint => exact absurd hpoint (hsetUp _ _)
    · next hpoint => exact absurd hpoint (hsetUp _ _)
    · rfl

theorem Proc.Sound.member (h : pr.Sound exec own cmds p) : Member cmds.length p := by
  have hleast := h.least
  have hone : 1 ≤ pr.least := by
    rw [Proc.least]
    split <;> decide
  have hplace := h.place
  rw [Proc.place] at hplace
  split at hplace
  · rw [commandProcess] at hplace
    split at hplace
    · exact .inl ⟨pr.i, by omega, hplace⟩
    · exact .inr ⟨pr.i, by omega, hplace⟩
  · next hran =>
      have hran := Option.not_isSome_iff_eq_none.mp hran
      split at hplace
      · next hpoint => exact .inr ⟨pr.i, h.two_le hran (by rw [hpoint]; simp), hplace⟩
      · next hpoint => exact .inl ⟨pr.i + 1, h.two_le hran (by rw [hpoint]; simp), hplace⟩
      · exact .inl ⟨pr.i, by omega, hplace⟩

theorem Proc.Sound.eq_spine_of_child (h : pr.Sound exec own cmds p) {child : Proc}
    (hchild : pr.child = some (k, child)) : p = spine pr.i ∧ pr.i + 1 < cmds.length := by
  obtain ⟨hat, -, -⟩ | ⟨hat, -, -⟩ := Proc.child_cases hchild <;>
    exact ⟨h.eq_spine (by rw [hat]; rfl) (by rw [hat]; rfl) (by rw [hat]; simp),
      h.two_le (h.ran_eq_none (by rw [hat]; rfl) (by rw [hat]; rfl)) (by rw [hat]; simp)⟩

/-- Nobody has been at the place of a child that is forked. -/
theorem Tree.child_absent (h : Tree exec own cmds procs) (hp : procs p = some pr)
    {child : Proc} (hchild : pr.child = some (k, child)) : procs (p ++ [k]) = none := by
  have hspine := ((h.sound p pr hp).eq_spine_of_child hchild).1
  have hkid := h.kids pr.i
  rw [← hspine, hp, Option.map_some] at hkid
  obtain ⟨hpoint, rfl, -⟩ | ⟨hpoint, rfl, -⟩ := Proc.child_cases hchild
  · rw [hpoint] at hkid
    rw [hspine]
    exact life_eq_absent.mp hkid.1
  · rw [hpoint] at hkid
    rw [hspine, spine_append]
    exact life_eq_absent.mp hkid.2

theorem Tree.step_call (hopen : ∀ m ≤ 1, own.get m ≠ none) (h : Tree exec own cmds procs)
    (hp : procs p = some pr) (hnext : pr.next exec p = some (calls, pr')) :
    Tree exec own cmds (Function.update (fork procs p pr) p (some pr')) := by
  have hsound := h.sound p pr hp
  have hs := hsound.next hopen hnext
  have hgoes := hsound.goes hnext
  have hlife : life (some pr') = life (some pr) := by
    rw [life, life]
    generalize pr.point = point at hgoes ⊢
    generalize pr'.point = point' at hgoes ⊢
    cases hgoes <;> rfl
  cases hchild : pr.child with
  | none =>
      rw [fork, hchild]
      refine h.update hp hs hlife ?_
      rintro d left right rfl hkids
      exact hsound.kids_next hnext hchild hkids
  | some forked =>
      obtain ⟨k, child⟩ := forked
      have hc := hsound.child hchild
      rw [fork, hchild]
      obtain ⟨rfl, -⟩ := hsound.eq_spine_of_child hchild
      obtain ⟨hpoint, rfl, rfl⟩ | ⟨hpoint, rfl, rfl⟩ := Proc.child_cases hchild
      · have hpoint' : pr'.point = .forkRight := by
          rw [hpoint] at hgoes
          generalize pr'.point = point' at hgoes ⊢
          cases hgoes
          rfl
        have hkid := h.kids pr.i
        rw [hp, Option.map_some, hpoint] at hkid
        refine h.update_left hp hs hc hlife ?_
        rw [hpoint', hkid.2, life_present (by simp)]
        exact ⟨rfl, rfl⟩
      · have hpoint' : pr'.point = .closeRead := by
          rw [hpoint] at hgoes
          generalize pr'.point = point' at hgoes ⊢
          cases hgoes
          rfl
        have hkid := h.kids pr.i
        rw [hp, Option.map_some, hpoint] at hkid
        rw [spine_append] at hc
        dsimp only
        rw [spine_append]
        refine h.update_right hp hs hc hlife ?_ fun left right hright => ?_
        · rw [hpoint', hkid.1, life_present (by simp)]
          exact ⟨rfl, rfl⟩
        · rw [life_eq_absent.mp hkid.2] at hright
          exact hright

/-- A child that is there is the left one or the right one. -/
theorem Proc.Sound.of_append {child : Proc} (h : child.Sound exec own cmds (spine d ++ [k])) :
    k = 0 ∨ k = 1 := by
  obtain ⟨e, -, he⟩ | ⟨e, -, he⟩ := h.member
  · right
    have hmem : k ∈ spine e := he ▸ List.mem_append_right _ List.mem_cons_self
    exact List.eq_of_mem_replicate hmem
  · exact .inl (List.cons.inj (List.append_inj' he rfl).2).1

theorem Point.afterWait_cases {point point' : Point} (h : point.afterWait = some point') :
    (point = .waitFirst ∧ point' = .waitSecond) ∨ (point = .waitSecond ∧ point' = .returned) := by
  cases point with
  | waitFirst => exact .inl ⟨rfl, (Option.some.inj h).symm⟩
  | waitSecond => exact .inr ⟨rfl, (Option.some.inj h).symm⟩
  | _ => cases h

theorem Proc.Sound.eq_spine_of_wait (h : pr.Sound exec own cmds p) {point : Point}
    (hpoint : pr.point.afterWait = some point) : p = spine pr.i := by
  obtain ⟨hat, -⟩ | ⟨hat, -⟩ := Point.afterWait_cases hpoint <;>
    exact h.eq_spine (by rw [hat]; rfl) (by rw [hat]; rfl) (by rw [hat]; simp)

theorem Tree.step_wait (h : Tree exec own cmds procs) (hp : procs p = some pr) {point : Point}
    (hpoint : pr.point.afterWait = some point) {child : Proc}
    (hchild : procs (p ++ [k]) = some child) (hzombie : child.point = .zombie) :
    Tree exec own cmds
      (Function.update (Function.update procs (p ++ [k]) (some { child with point := .reaped }))
        p (some { pr with point := point })) := by
  have hsound := h.sound p pr hp
  have hs := hsound.afterWait hpoint
  have hc := (h.sound _ child hchild).reaped hzombie
  have hspine := hsound.eq_spine_of_wait hpoint
  have hlife : life (some { pr with point := point }) = life (some pr) := by
    obtain ⟨hat, rfl⟩ | ⟨hat, rfl⟩ := Point.afterWait_cases hpoint <;> rw [life, life, hat] <;> rfl
  have hpresent : life (some child) = .present := life_present (by rw [hzombie]; simp)
  have hp' := hp
  have hkid := h.kids pr.i
  rw [hspine] at hs hc hchild hp' ⊢
  rw [hp', Option.map_some] at hkid
  obtain rfl | rfl := hc.of_append
  · rw [show procs (leaf pr.i) = some child from hchild, hpresent] at hkid
    refine h.update_left hp' hs hc hlife ?_
    obtain ⟨hat, rfl⟩ | ⟨hat, rfl⟩ := Point.afterWait_cases hpoint <;> rw [hat] at hkid
    · exact .inr ⟨rfl, hkid.2⟩
    · obtain ⟨-, hright⟩ | ⟨hleft, -⟩ := hkid
      · exact ⟨rfl, hright⟩
      · cases hleft
  · rw [spine_append] at hc hchild ⊢
    rw [hchild, hpresent] at hkid
    refine h.update_right hp' hs hc hlife ?_ fun left right hright => ?_
    · obtain ⟨hat, rfl⟩ | ⟨hat, rfl⟩ := Point.afterWait_cases hpoint <;> rw [hat] at hkid
      · exact .inl ⟨hkid.1, rfl⟩
      · obtain ⟨-, hright⟩ | ⟨hleft, -⟩ := hkid
        · cases hright
        · exact ⟨hleft, rfl⟩
    · rw [hchild, Option.map_some, hzombie] at hright
      exact hright

/-- A process that waits has a child to wait for. -/
theorem Tree.exists_child (h : Tree exec own cmds procs) (hp : procs p = some pr)
    {point : Point} (hpoint : pr.point.afterWait = some point) : ∃ k child,
      procs (p ++ [k]) = some child ∧ child.point ≠ .reaped ∧ (k = 0 ∨ k = 1) := by
  have hspine := (h.sound p pr hp).eq_spine_of_wait hpoint
  have hkid := h.kids pr.i
  rw [← hspine, hp, Option.map_some] at hkid
  have hpresent : life (procs (leaf pr.i)) = .present ∨
      life (procs (spine (pr.i + 1))) = .present := by
    obtain ⟨hat, -⟩ | ⟨hat, -⟩ := Point.afterWait_cases hpoint <;> rw [hat] at hkid
    · exact .inl hkid.1
    · exact hkid.imp And.left And.right
  obtain hleft | hright := hpresent
  · obtain ⟨child, hchild, hreaped⟩ := life_eq_present.mp hleft
    exact ⟨0, child, hspine ▸ hchild, hreaped, .inl rfl⟩
  · obtain ⟨child, hchild, hreaped⟩ := life_eq_present.mp hright
    rw [← spine_append, ← hspine] at hchild
    exact ⟨1, child, hchild, hreaped, .inr rfl⟩

theorem Tree.not_noChildren (h : Tree exec own cmds procs) (hp : procs p = some pr)
    {point : Point} (hpoint : pr.point.afterWait = some point) : ¬noChildren procs p = true := by
  intro hnone
  obtain ⟨k, child, hchild, hreaped, hk⟩ := h.exists_child hp hpoint
  have hall := List.all_eq_true.mp hnone k (by obtain rfl | rfl := hk <;> decide)
  rw [hchild, Option.all_some] at hall
  exact hreaped (of_decide_eq_true hall)

theorem Tree.step_ends (h : Tree exec own cmds procs) (hp : procs p = some pr)
    (hpoint : pr.point = .program) :
    Tree exec own cmds (Function.update procs p (some pr.exits)) := by
  have hsound := h.sound p pr hp
  have hran : pr.ran.isSome := by rw [hsound.ran (by rw [hpoint]; rfl), hpoint]; rfl
  refine h.update hp (hsound.exits (.inl hran)) ?_ ?_
  · rw [life, life, hpoint]
    rfl
  · rintro d left right rfl hkids
    rw [hpoint] at hkids
    rw [Proc.exits, Kids, if_pos (hsound.last_of_ran hran)]
    exact hkids

/-- **Every step keeps the tree.** -/
theorem Tree.step (hopen : ∀ m ≤ 1, own.get m ≠ none) {w w' : World}
    (h : Tree exec own cmds w.procs) {move : Move} (hstep : w.step exec move = some w') :
    Tree exec own cmds w'.procs := by
  obtain ⟨p, pr, hp, ⟨calls, pr', -, hnext, rfl⟩ | ⟨k, point, child, -, hpoint, hchild, hzombie,
    rfl⟩ | ⟨point, -, hpoint, hnone, rfl⟩ | ⟨-, hpoint, rfl⟩⟩ := World.step_cases hstep
  · exact h.step_call hopen hp hnext
  · exact h.step_wait hp hpoint hchild hzombie
  · exact absurd hnone (h.not_noChildren hp hpoint)
  · exact h.step_ends hp hpoint

end Steps

end SystemProgramming.Phase2
