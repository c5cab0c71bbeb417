import SystemProgramming.Phase2.PipelineRuns

/-!
Pipelines in which `fork` may fail. `run_pipe` only asks whether `Fork` returns 0, so
a process whose `fork` fails goes on as if it had the child: it closes the pipe and
calls `waitpid` twice. That costs the commands the child would have run, and no other
process of the pipeline takes notice.
-/

namespace SystemProgramming.Phase2

open SystemProgramming.CLib SystemProgramming.MyShell SystemProgramming.Library

/-! ### Steps -/

/-- The processes there have been, and the forks that have failed, each by the process that
called it and the number the child would have had. -/
structure Faulty where
  world : World
  failed : List (Process × Nat)

inductive FaultyMove
  | made (move : Move)
  /-- The `fork` that process `p` calls next fails. -/
  | forkFails (p : Process)
  deriving DecidableEq

def Faulty.start (own : FdTable) (cmds : List CString) : Faulty where
  world := World.start own cmds
  failed := []

def Faulty.step (exec : List CString → Bool) (f : Faulty) : FaultyMove → Option Faulty
  | .made move => (f.world.step exec move).map fun w => { f with world := w }
  | .forkFails p => do
      let pr ← f.world.procs p
      let (k, _) ← pr.child
      let (calls, pr') ← pr.next exec p
      some
        { world :=
            { procs := Function.update f.world.procs p (some pr')
              trace := f.world.trace ++ own p (calls ++ [.message]) }
          failed := (p, k) :: f.failed }

/-! ### Children -/

/-- What has become of a child of `run_pipe`. -/
inductive Kid
  /-- It has not been forked yet, or never is. -/
  | absent
  | failed
  | present
  | collected
  deriving DecidableEq

def kid (failed : List (Process × Nat)) (procs : Process → Option Proc) (p : Process) (k : Nat) :
    Kid :=
  if (p, k) ∈ failed then .failed
  else
    match life (procs (p ++ [k])) with
    | .absent => .absent
    | .present => .present
    | .collected => .collected

def Kid.gone : Kid → Prop
  | .failed | .collected => True
  | .absent | .present => False

theorem Kid.gone_iff {k : Kid} : k.gone ↔ k ≠ .absent ∧ k ≠ .present := by
  cases k <;> simp [Kid.gone]

/-- The children of a process, by where it stands. -/
def Brood (left right : Kid) : Option Proc → Prop
  | none => left = .absent ∧ right = .absent
  | some pr =>
      match pr.point with
      | .forkRight => left ≠ .absent ∧ right = .absent
      | .closeRead | .closeWrite | .waitFirst => left ≠ .absent ∧ right ≠ .absent
      | .waitSecond =>
          left ≠ .absent ∧ right ≠ .absent ∧ ¬(left = .present ∧ right = .present)
      | .returned => left.gone ∧ right.gone
      | .zombie | .reaped =>
          if pr.ran.isSome then left = .absent ∧ right = .absent else left.gone ∧ right.gone
      | .enter | .forkLeft | .setUp _ _ | .stage _ | .program => left = .absent ∧ right = .absent

/-- What holds of the processes of a pipeline together, whichever forks have failed. -/
structure Forest (exec : List CString → Bool) (own : FdTable) (cmds : List CString)
    (procs : Process → Option Proc) (failed : List (Process × Nat)) : Prop where
  sound : ∀ p pr, procs p = some pr → pr.Sound exec own cmds p
  brood : ∀ p, Brood (kid failed procs p 0) (kid failed procs p 1) (procs p)
  lost : ∀ p k, (p, k) ∈ failed → procs (p ++ [k]) = none

section Steps

variable {exec : List CString → Bool} {own : FdTable} {cmds : List CString} {p q : Process}
  {pr pr' : Proc} {procs procs' : Process → Option Proc} {failed failed' : List (Process × Nat)}
  {calls : List Call} {j k : Nat} {left right : Kid}

theorem kid_eq_absent :
    kid failed procs p k = .absent ↔ (p, k) ∉ failed ∧ procs (p ++ [k]) = none := by
  rw [kid, ← life_eq_absent]
  split
  · next hfailed => simp [hfailed]
  · next hfailed => cases life (procs (p ++ [k])) <;> simp [hfailed]

theorem kid_congr (hfailed : (p, k) ∈ failed' ↔ (p, k) ∈ failed)
    (hlife : life (procs' (p ++ [k])) = life (procs (p ++ [k]))) :
    kid failed' procs' p k = kid failed procs p k := by
  rw [kid, kid, hlife]
  simp only [hfailed]

theorem Forest.start (own : FdTable) (hcmds : cmds ≠ []) :
    Forest exec own cmds (World.start own cmds).procs [] where
  sound := (Tree.start own hcmds).sound
  brood p := by
    have hkid (k : Nat) : kid [] (World.start own cmds).procs p k = .absent := by
      rw [kid_eq_absent]
      exact ⟨List.not_mem_nil, if_neg (List.append_ne_nil_of_right_ne_nil _ (List.cons_ne_nil _ _))⟩
    rw [hkid, hkid, World.start]
    dsimp only
    split <;> exact ⟨rfl, rfl⟩
  lost p k hmem := by cases hmem

/-- A process changes and stays there, with one of its children or without. -/
theorem Forest.update (h : Forest exec own cmds procs failed) (hp : procs p = some pr)
    (hs : pr'.Sound exec own cmds p) (hlife : life (some pr') = life (some pr))
    (child : Option Proc) (hc : ∀ c ∈ child, c.Sound exec own cmds (p ++ [k]))
    (hchild : ∀ left right, Brood left right (procs (p ++ [k])) → Brood left right child)
    (hprocs' : procs' = Function.update (Function.update procs (p ++ [k]) child) p (some pr'))
    (hfailed : ∀ q j, q ≠ p → ((q, j) ∈ failed' ↔ (q, j) ∈ failed))
    (hlost : ∀ j, (p, j) ∈ failed' → procs' (p ++ [j]) = none)
    (hbrood : Brood (kid failed' procs' p 0) (kid failed' procs' p 1) (some pr')) :
    Forest exec own cmds procs' failed' := by
  have hne (q : Process) (j : Nat) : q ++ [j] ≠ q := by simp
  have hself : procs' p = some pr' := by rw [hprocs', Function.update_self]
  have hchildAt : procs' (p ++ [k]) = child := by
    rw [hprocs', Function.update_of_ne (hne p k), Function.update_self]
  have hother {q : Process} (hqp : q ≠ p) (hqk : q ≠ p ++ [k]) : procs' q = procs q := by
    rw [hprocs', Function.update_of_ne hqp, Function.update_of_ne hqk]
  -- of the children of another process only `p` itself may have changed
  have hkid {q : Process} (hqp : q ≠ p) (j : Nat) :
      kid failed' procs' q j = kid failed procs q j := by
    refine kid_congr (hfailed q j hqp) ?_
    by_cases hjp : q ++ [j] = p
    · rw [hjp, hself, hp, hlife]
    · rw [hother hjp fun heq => hqp (List.append_inj_left' heq rfl)]
  constructor
  case sound =>
    intro q qr hq
    by_cases hqp : q = p
    · subst hqp
      exact Option.some.inj (hself.symm.trans hq) ▸ hs
    by_cases hqk : q = p ++ [k]
    · subst hqk
      exact hc qr (hchildAt.symm.trans hq)
    · exact h.sound q qr (hother hqp hqk ▸ hq)
  case brood =>
    intro q
    by_cases hqp : q = p
    · rw [hqp, hself]
      exact hbrood
    rw [hkid hqp, hkid hqp]
    by_cases hqk : q = p ++ [k]
    · rw [hqk, hchildAt]
      exact hchild _ _ (h.brood _)
    · rw [hother hqp hqk]
      exact h.brood q
  case lost =>
    intro q j hmem
    by_cases hqp : q = p
    · exact hqp ▸ hlost j (hqp ▸ hmem)
    have hnone := h.lost q j ((hfailed q j hqp).mp hmem)
    have hjp : q ++ [j] ≠ p := by
      intro heq
      rw [heq, hp] at hnone
      cases hnone
    rw [hother hjp fun heq => hqp (List.append_inj_left' heq rfl), hnone]

/-- A process changes, and its children stay what they are. -/
theorem Forest.update_self (h : Forest exec own cmds procs failed) (hp : procs p = some pr)
    (hs : pr'.Sound exec own cmds p) (hlife : life (some pr') = life (some pr))
    (hbrood : ∀ left right, Brood left right (some pr) → left = kid failed procs p 0 →
      right = kid failed procs p 1 → Brood left right (some pr')) :
    Forest exec own cmds (Function.update procs p (some pr')) failed := by
  have hkid (j : Nat) :
      kid failed (Function.update procs p (some pr')) p j = kid failed procs p j := by
    refine kid_congr Iff.rfl ?_
    rw [Function.update_of_ne (by simp)]
  refine h.update (k := 0) hp hs hlife _ (h.sound (p ++ [0])) (fun _ _ => id) ?_
    (fun _ _ _ => Iff.rfl) (fun j hmem => ?_) ?_
  · rw [Function.update_eq_self]
  · rw [Function.update_of_ne (by simp)]
    exact h.lost p j hmem
  · rw [hkid, hkid]
    exact hbrood _ _ (hp ▸ h.brood p) rfl rfl

/-- A call other than `fork` leaves the children as they are. -/
theorem Proc.Sound.brood_next (h : pr.Sound exec own cmds p)
    (hnext : pr.next exec p = some (calls, pr')) (hchild : pr.child = none)
    (hbrood : Brood left right (some pr)) : Brood left right (some pr') := by
  rw [Proc.child] at hchild
  cases next_branch hnext with
  | forkLeft hpoint | forkRight hpoint =>
      rw [hpoint] at hchild
      cases hchild
  | returned hpoint hp =>
      have hran := h.ran_eq_none (by rw [hpoint]; rfl) (by rw [hpoint]; rfl)
      simp only [Brood, hpoint] at hbrood
      simpa [Brood, Proc.exits, hran] using hbrood
  | exit status todo hpoint =>
      have hran := h.isSome_ran hpoint
      simp only [Brood, hpoint] at hbrood
      simpa [Brood, Proc.exits, hran] using hbrood
  | execvp argv todo hpoint =>
      simp only [Brood, hpoint] at hbrood
      cases hexec : exec argv <;> simpa [Brood, hexec] using hbrood
  | nothing hpoint hcmds =>
      obtain ⟨-, hpos, -, -⟩ := h.entered hpoint
      rw [hcmds] at hpos
      cases hpos
  | single cmd hpoint hcmds => simpa [Brood, hpoint, Proc.toStage] using hbrood
  | first hpoint => simpa [Brood, hpoint, Proc.toStage] using hbrood
  | pipe _ _ _ hpoint _ | closeRead hpoint | closeWrite hpoint | dupWrite hpoint
  | dupRead hpoint | childRead _ hpoint | others hpoint | call _ _ hpoint _ _ =>
      simpa only [Brood, hpoint] using hbrood

/-- Behind a call of `fork`, failed or not, the child is not one that is still to come. -/
theorem brood_fork (kids kids' : Nat → Kid) {child : Proc}
    (hnext : pr.next exec p = some (calls, pr')) (hchild : pr.child = some (k, child))
    (hbrood : Brood (kids 0) (kids 1) (some pr)) (hk : kids' k ≠ .absent)
    (hothers : ∀ j, j ≠ k → kids' j = kids j) : Brood (kids' 0) (kids' 1) (some pr') := by
  obtain ⟨hpoint, rfl, -⟩ | ⟨hpoint, rfl, -⟩ := Proc.child_cases hchild
  · obtain rfl : pr' = { pr with point := .forkRight } := by simp_all [Proc.next]
    simp only [Brood, hpoint] at hbrood
    exact ⟨hk, (hothers 1 (by decide)).trans hbrood.2⟩
  · obtain rfl : pr' = { pr with point := .closeRead } := by simp_all [Proc.next]
    simp only [Brood, hpoint] at hbrood
    exact ⟨hothers 0 (by decide) ▸ hbrood.1, hk⟩

/-- Behind a call of `waitpid` one child less is there, unless there was none. -/
theorem brood_wait {left' right' : Kid} {point : Point} (hpoint : pr.point.afterWait = some point)
    (hbrood : Brood left right (some pr))
    (habsent : (left ≠ .absent → left' ≠ .absent) ∧ (right ≠ .absent → right' ≠ .absent))
    (hone : ¬(left' = .present ∧ right' = .present))
    (hnone : ¬(left = .present ∧ right = .present) → left' ≠ .present ∧ right' ≠ .present) :
    Brood left' right' (some { pr with point := point }) := by
  obtain ⟨hat, rfl⟩ | ⟨hat, rfl⟩ := Point.afterWait_cases hpoint
  · simp only [Brood, hat] at hbrood
    exact ⟨habsent.1 hbrood.1, habsent.2 hbrood.2, hone⟩
  · simp only [Brood, hat] at hbrood
    have hgone := hnone hbrood.2.2
    exact ⟨Kid.gone_iff.mpr ⟨habsent.1 hbrood.1, hgone.1⟩,
      Kid.gone_iff.mpr ⟨habsent.2 hbrood.2.1, hgone.2⟩⟩

theorem Proc.Sound.life_next (h : pr.Sound exec own cmds p)
    (hnext : pr.next exec p = some (calls, pr')) : life (some pr') = life (some pr) := by
  have hgoes := h.goes hnext
  rw [life, life]
  generalize pr.point = point at hgoes ⊢
  generalize pr'.point = point' at hgoes ⊢
  cases hgoes <;> rfl

theorem Forest.kid_fork (h : Forest exec own cmds procs failed) (hp : procs p = some pr)
    {child : Proc} (hchild : pr.child = some (k, child)) : kid failed procs p k = .absent := by
  have hbrood := h.brood p
  rw [hp] at hbrood
  obtain ⟨hpoint, rfl, -⟩ | ⟨hpoint, rfl, -⟩ := Proc.child_cases hchild
  · simp only [Brood, hpoint] at hbrood
    exact hbrood.1
  · simp only [Brood, hpoint] at hbrood
    exact hbrood.2

theorem Forest.step_call (hopen : ∀ m ≤ 1, own.get m ≠ none)
    (h : Forest exec own cmds procs failed) (hp : procs p = some pr)
    (hnext : pr.next exec p = some (calls, pr')) :
    Forest exec own cmds (Function.update (fork procs p pr) p (some pr')) failed := by
  have hsound := h.sound p pr hp
  have hs := hsound.next hopen hnext
  have hlife := hsound.life_next hnext
  cases hchild : pr.child with
  | none =>
      rw [fork, hchild]
      exact h.update_self hp hs hlife fun _ _ hbrood _ _ => hsound.brood_next hnext hchild hbrood
  | some forked =>
      obtain ⟨k, child⟩ := forked
      obtain ⟨hnot, hnone⟩ := kid_eq_absent.mp (h.kid_fork hp hchild)
      have hsetUp : ∃ side, child.point = .setUp side .dup2 := by
        obtain ⟨-, -, rfl⟩ | ⟨-, -, rfl⟩ := Proc.child_cases hchild
        · exact ⟨.left, rfl⟩
        · exact ⟨.right, rfl⟩
      obtain ⟨side, hside⟩ := hsetUp
      rw [fork, hchild]
      dsimp only
      have hbrood := h.brood p
      rw [hp] at hbrood
      have hat (j : Nat) (hj : j ≠ k) : Function.update (Function.update procs (p ++ [k])
          (some child)) p (some pr') (p ++ [j]) = procs (p ++ [j]) := by
        rw [Function.update_of_ne (by simp), Function.update_of_ne (by simpa using hj)]
      refine h.update (k := k) hp hs hlife (some child) ?_ ?_ rfl (fun _ _ _ => Iff.rfl) ?_
        (brood_fork (kid failed procs p) (kid failed _ p) hnext hchild hbrood ?_ ?_)
      · rintro c hc
        exact Option.some.inj hc ▸ hsound.child hchild
      · intro left right hkids
        rw [hnone] at hkids
        simpa only [Brood, hside] using hkids
      · intro j hmem
        rw [hat j (fun heq => hnot (heq ▸ hmem))]
        exact h.lost p j hmem
      · rw [Ne, kid_eq_absent, Function.update_of_ne (by simp), Function.update_self]
        simp
      · exact fun j hj => kid_congr Iff.rfl (by rw [hat j hj])

/-- The process goes on without the child. -/
theorem Forest.step_forkFails (hopen : ∀ m ≤ 1, own.get m ≠ none)
    (h : Forest exec own cmds procs failed) (hp : procs p = some pr) {child : Proc}
    (hchild : pr.child = some (k, child)) (hnext : pr.next exec p = some (calls, pr')) :
    Forest exec own cmds (Function.update procs p (some pr')) ((p, k) :: failed) := by
  have hsound := h.sound p pr hp
  have hnone := (kid_eq_absent.mp (h.kid_fork hp hchild)).2
  have hat (j : Nat) : Function.update procs p (some pr') (p ++ [j]) = procs (p ++ [j]) :=
    Function.update_of_ne (by simp) _ _
  have hbrood := h.brood p
  rw [hp] at hbrood
  refine h.update (k := k) hp (hsound.next hopen hnext) (hsound.life_next hnext) _
    (h.sound (p ++ [k])) (fun _ _ => id) ?_ ?_ ?_
    (brood_fork (kid failed procs p) (kid ((p, k) :: failed) _ p) hnext hchild
      hbrood ?_ ?_)
  · rw [Function.update_eq_self]
  · intro q j hq
    simp [hq]
  · intro j hmem
    rw [hat]
    rcases List.mem_cons.mp hmem with heq | hmem
    · exact (Prod.mk.inj heq).2 ▸ hnone
    · exact h.lost p j hmem
  · simp [kid]
  · exact fun j hj => kid_congr (by simp [hj]) (by rw [hat])

theorem Forest.step_wait (h : Forest exec own cmds procs failed) (hp : procs p = some pr)
    {point : Point} (hpoint : pr.point.afterWait = some point) {child : Proc}
    (hchild : procs (p ++ [k]) = some child) (hzombie : child.point = .zombie) :
    Forest exec own cmds
      (Function.update (Function.update procs (p ++ [k]) (some { child with point := .reaped }))
        p (some { pr with point := point })) failed := by
  have hsound := h.sound p pr hp
  have hc := (h.sound _ child hchild).reaped hzombie
  have hlife : life (some { pr with point := point }) = life (some pr) := by
    obtain ⟨hat, rfl⟩ | ⟨hat, rfl⟩ := Point.afterWait_cases hpoint <;> rw [life, life, hat] <;> rfl
  have hk : k = 0 ∨ k = 1 := by
    rw [hsound.eq_spine_of_wait hpoint] at hc
    exact hc.of_append
  have hnot : (p, k) ∉ failed := by
    intro hmem
    rw [h.lost p k hmem] at hchild
    cases hchild
  have hbrood := h.brood p
  rw [hp] at hbrood
  have hpresent : kid failed procs p k = .present := by
    rw [kid, if_neg hnot, hchild, life_present (by rw [hzombie]; simp)]
  generalize hprocs' : Function.update (Function.update procs (p ++ [k])
    (some { child with point := .reaped })) p (some { pr with point := point }) = procs'
  have hself : procs' (p ++ [k]) = some { child with point := .reaped } := by
    rw [← hprocs', Function.update_of_ne (by simp), Function.update_self]
  have hat (j : Nat) (hj : j ≠ k) : procs' (p ++ [j]) = procs (p ++ [j]) := by
    rw [← hprocs', Function.update_of_ne (by simp), Function.update_of_ne (by simpa using hj)]
  have hcollected : kid failed procs' p k = .collected := by
    rw [kid, if_neg hnot, hself]
    rfl
  have hothers (j : Nat) (hj : j ≠ k) : kid failed procs' p j = kid failed procs p j :=
    kid_congr Iff.rfl (by rw [hat j hj])
  refine h.update hp (hsound.afterWait hpoint) hlife _ (fun c hmem => Option.some.inj hmem ▸ hc) ?_
    hprocs'.symm (fun _ _ _ => Iff.rfl) ?_ (brood_wait hpoint hbrood ?_ ?_ ?_)
  · intro left right hkids
    rw [hchild] at hkids
    simpa only [Brood, hzombie] using hkids
  · intro j hmem
    rw [hat j fun heq => hnot (heq ▸ hmem)]
    exact h.lost p j hmem
  all_goals
    obtain rfl | rfl := hk
    · simp [hcollected, hothers 1 (by decide), hpresent]
    · simp [hcollected, hothers 0 (by decide), hpresent]

/-- `waitpid` finds no child that is still there. -/
theorem kid_ne_present (failed : List (Process × Nat)) (hnone : noChildren procs p = true)
    (hk : k < 2) :
    kid failed procs p k ≠ .present := by
  have hmem : k ∈ [0, 1] := by
    simp only [List.mem_cons, List.not_mem_nil]
    omega
  have hall := List.all_eq_true.mp hnone k hmem
  rw [kid]
  split
  · exact Kid.noConfusion
  · cases hchild : procs (p ++ [k]) with
    | none => exact Kid.noConfusion
    | some child =>
        rw [hchild, Option.all_some] at hall
        rw [life, if_pos (of_decide_eq_true hall)]
        exact Kid.noConfusion

theorem Forest.step_waitNone (h : Forest exec own cmds procs failed) (hp : procs p = some pr)
    {point : Point} (hpoint : pr.point.afterWait = some point)
    (hnone : noChildren procs p = true) :
    Forest exec own cmds (Function.update procs p (some { pr with point := point })) failed := by
  refine h.update_self hp ((h.sound p pr hp).afterWait hpoint) ?_ ?_
  · obtain ⟨hat, rfl⟩ | ⟨hat, rfl⟩ := Point.afterWait_cases hpoint <;> rw [life, life, hat] <;> rfl
  · rintro left right hbrood rfl rfl
    have hleft := kid_ne_present failed hnone Nat.two_pos
    have hright := kid_ne_present failed hnone Nat.one_lt_two
    exact brood_wait hpoint hbrood ⟨id, id⟩ (fun hboth => hleft hboth.1) fun _ => ⟨hleft, hright⟩

theorem Forest.step_ends (h : Forest exec own cmds procs failed) (hp : procs p = some pr)
    (hpoint : pr.point = .program) :
    Forest exec own cmds (Function.update procs p (some pr.exits)) failed := by
  have hsound := h.sound p pr hp
  have hran : pr.ran.isSome := by rw [hsound.ran (by rw [hpoint]; rfl), hpoint]; rfl
  refine h.update_self hp (hsound.exits (.inl hran)) ?_ fun left right hbrood _ _ => ?_
  · rw [life, life, hpoint]
    rfl
  · simp only [Brood, hpoint] at hbrood
    simpa [Brood, Proc.exits, hran] using hbrood

theorem Faulty.step_cases {f f' : Faulty} {move : FaultyMove} (h : f.step exec move = some f') :
    (∃ made w', move = .made made ∧ f.world.step exec made = some w' ∧ f' = ⟨w', f.failed⟩) ∨
    (∃ p pr k child calls pr', move = .forkFails p ∧ f.world.procs p = some pr ∧
      pr.child = some (k, child) ∧ pr.next exec p = some (calls, pr') ∧
      f' = ⟨⟨Function.update f.world.procs p (some pr'),
        f.world.trace ++ Phase2.own p (calls ++ [.message])⟩, (p, k) :: f.failed⟩) := by
  cases move with
  | made made =>
      obtain ⟨w', hstep, rfl⟩ := Option.map_eq_some_iff.mp h
      exact .inl ⟨made, w', rfl, hstep, rfl⟩
  | forkFails p =>
      simp only [Faulty.step, Option.bind_eq_bind, Option.bind_eq_some_iff, Option.some.injEq] at h
      obtain ⟨pr, hp, ⟨k, child⟩, hchild, ⟨calls, pr'⟩, hnext, rfl⟩ := h
      exact .inr ⟨p, pr, k, child, calls, pr', rfl, hp, hchild, hnext, rfl⟩

/-- **Every step keeps the forest.** -/
theorem Forest.step (hopen : ∀ m ≤ 1, own.get m ≠ none) {f f' : Faulty}
    (h : Forest exec own cmds f.world.procs f.failed) {move : FaultyMove}
    (hstep : f.step exec move = some f') : Forest exec own cmds f'.world.procs f'.failed := by
  obtain ⟨made, w', -, hmade, rfl⟩ | ⟨p, pr, k, child, calls, pr', -, hp, hchild, hnext, rfl⟩ :=
    Faulty.step_cases hstep
  · obtain ⟨p, pr, hp, ⟨calls, pr', -, hnext, rfl⟩ | ⟨k, point, child, -, hpoint, hchild, hzombie,
      rfl⟩ | ⟨point, -, hpoint, hnone, rfl⟩ | ⟨-, hpoint, rfl⟩⟩ := World.step_cases hmade
    · exact h.step_call hopen hp hnext
    · exact h.step_wait hp hpoint hchild hzombie
    · exact h.step_waitNone hp hpoint hnone
    · exact h.step_ends hp hpoint
  · exact h.step_forkFails hopen hp hchild hnext

/-! ### The shell -/

theorem Proc.Sound.shell_next (h : pr.Sound exec own cmds []) (hcmds : 2 ≤ cmds.length)
    (hnext : pr.next exec [] = some (calls, pr')) :
    pr'.point.ended = false := by
  cases next_branch hnext with
  | returned _ hp => exact absurd rfl hp
  | exit _ _ hpoint =>
      have hran := h.isSome_ran hpoint
      rw [h.shell_ran hcmds] at hran
      cases hran
  | execvp => dsimp only; split <;> rfl
  | _ => rfl

theorem alive_update {trace : Trace} (halive : ∃ pr, procs [] = some pr ∧ pr.point.ended = false)
    (hself : p = [] → pr'.point.ended = false) :
    World.Alive ⟨Function.update procs p (some pr'), trace⟩ := by
  obtain ⟨shell, hshell, hended⟩ := halive
  by_cases hp : p = []
  · subst hp
    exact ⟨pr', Function.update_self [] (some pr') procs, hself rfl⟩
  · exact ⟨shell, (Function.update_of_ne (Ne.symm hp) _ _).trans hshell, hended⟩

theorem Forest.alive_step {f f' : Faulty} (h : Forest exec own cmds f.world.procs f.failed)
    (hcmds : 2 ≤ cmds.length) (halive : f.world.Alive) {move : FaultyMove}
    (hstep : f.step exec move = some f') : f'.world.Alive := by
  have hnext {p : Process} {pr pr' : Proc} {calls : List Call} (hp : f.world.procs p = some pr)
      (hnext : pr.next exec p = some (calls, pr')) (hself : p = []) :
      pr'.point.ended = false := by
    subst hself
    exact (h.sound [] pr hp).shell_next hcmds hnext
  have hwait {pr : Proc} {point : Point} (hpoint : pr.point.afterWait = some point) :
      ({ pr with point := point } : Proc).point.ended = false := by
    obtain ⟨-, rfl⟩ | ⟨-, rfl⟩ := Point.afterWait_cases hpoint <;> rfl
  obtain ⟨made, w', -, hmade, rfl⟩ | ⟨p, pr, k, child, calls, pr', -, hp, hchild, hcall, rfl⟩ :=
    Faulty.step_cases hstep
  · obtain ⟨p, pr, hp, ⟨calls, pr', -, hcall, rfl⟩ | ⟨k, point, child, -, hpoint, hchild, hzombie,
      rfl⟩ | ⟨point, -, hpoint, hnone, rfl⟩ | ⟨-, hpoint, rfl⟩⟩ := World.step_cases hmade
    · refine alive_update ?_ (hnext hp hcall)
      obtain ⟨shell, hshell, hended⟩ := halive
      refine ⟨shell, ?_, hended⟩
      rw [fork_apply]
      split
      · exact hshell
      · rw [if_neg (by simp), hshell]
    · refine alive_update ?_ fun _ => hwait hpoint
      obtain ⟨shell, hshell, hended⟩ := halive
      exact ⟨shell, (Function.update_of_ne (by simp) _ _).trans hshell, hended⟩
    · exact alive_update halive fun _ => hwait hpoint
    · refine alive_update halive fun hself => ?_
      subst hself
      have hran : pr.ran.isSome := by
        rw [(h.sound [] pr hp).ran (by rw [hpoint]; rfl), hpoint]
        rfl
      rw [(h.sound [] pr hp).shell_ran hcmds] at hran
      cases hran
  · exact alive_update halive (hnext hp hcall)

end Steps

end SystemProgramming.Phase2
