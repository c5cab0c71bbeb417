import SystemProgramming.Phase2.PipelineRuns

/-!
The calls of a pipeline. Each process makes the calls that `runPipe` lists for
it, one after the other, so a run makes those of the list and no others; only
the order in which different processes make theirs is open.
-/

namespace SystemProgramming.Phase2

open SystemProgramming.CLib SystemProgramming.MyShell SystemProgramming.Library

/-! ### The calls of one process -/

section Calls

variable {exec : List CString → Bool} {own : FdTable} {cmds : List CString} {p q : Process}
  {pr pr' : Proc} {calls : List Call} {d e : Nat}

/-- The calls behind those of `run_pipe`. -/
def afterPipe (p : Process) : List Call := if p = [] then [] else [.exit 0]

/-- What process `p` calls from the point on where it calls `run_pipe`. -/
def pipeCalls (exec : List CString → Bool) (p : Process) : List CString → List Call
  | [] => afterPipe p
  | [cmd] => runStage exec cmd
  | _ :: _ :: _ =>
      [.pipe, .fork, .fork, .close .read, .close .write, .waitpid, .waitpid] ++ afterPipe p

/-- The calls that are still to come. -/
def Proc.toCome (exec : List CString → Bool) (p : Process) (pr : Proc) : List Call :=
  match pr.point with
  | .enter => pipeCalls exec p pr.cmds
  | .forkLeft =>
      [.fork, .fork, .close .read, .close .write, .waitpid, .waitpid] ++ afterPipe p
  | .forkRight => [.fork, .close .read, .close .write, .waitpid, .waitpid] ++ afterPipe p
  | .closeRead => [.close .read, .close .write, .waitpid, .waitpid] ++ afterPipe p
  | .closeWrite => [.close .write, .waitpid, .waitpid] ++ afterPipe p
  | .waitFirst => [.waitpid, .waitpid] ++ afterPipe p
  | .waitSecond => [.waitpid] ++ afterPipe p
  | .returned => afterPipe p
  | .setUp .left .dup2 =>
      [.dup2 .write 1, .close .read, .close .write] ++ runStage exec (pr.cmds.headD [])
  | .setUp .left .closeRead =>
      [.close .read, .close .write] ++ runStage exec (pr.cmds.headD [])
  | .setUp .left .closeWrite => [.close .write] ++ runStage exec (pr.cmds.headD [])
  | .setUp .right .dup2 =>
      [.dup2 .read 0, .close .read, .close .write] ++ pipeCalls exec p pr.cmds.tail
  | .setUp .right .closeRead => [.close .read, .close .write] ++ pipeCalls exec p pr.cmds.tail
  | .setUp .right .closeWrite => [.close .write] ++ pipeCalls exec p pr.cmds.tail
  | .stage calls => calls
  | .program | .zombie | .reaped => []

/-- A process makes the calls that are to come, one at a time. -/
theorem Proc.Sound.toCome_next (h : pr.Sound exec own cmds p)
    (hnext : pr.next exec p = some (calls, pr')) :
    calls ++ pr'.toCome exec p = pr.toCome exec p := by
  cases next_branch hnext with
  | nothing hpoint hcmds | pipe _ _ _ hpoint hcmds =>
      simp [Proc.toCome, hpoint, hcmds, pipeCalls]
  | single cmd hpoint hcmds => simp [Proc.toCome, Proc.toStage, hpoint, hcmds, pipeCalls]
  | forkLeft hpoint | forkRight hpoint | closeRead hpoint | closeWrite hpoint =>
      simp [Proc.toCome, hpoint]
  | dupWrite hpoint | dupRead hpoint | others hpoint => simp [Proc.toCome, hpoint]
  | returned hpoint hp => simp [Proc.toCome, Proc.exits, hpoint, afterPipe, hp]
  | childRead side hpoint => cases side <;> simp [Proc.toCome, hpoint]
  | first hpoint => simp [Proc.toCome, Proc.toStage, hpoint]
  | execvp argv todo hpoint =>
      have hfinishes := h.finishes _ hpoint
      rw [Finishes] at hfinishes
      split at hfinishes
      · next hexec => simp [Proc.toCome, hpoint, hexec, hfinishes]
      · next hexec => simp [Proc.toCome, hpoint, hexec]
  | exit status todo hpoint =>
      have hfinishes := h.finishes _ hpoint
      rw [Finishes] at hfinishes
      simp [Proc.toCome, Proc.exits, hpoint, hfinishes]
  | call call todo hpoint hexecvp hexit => simp [Proc.toCome, hpoint]

/-! ### The calls of `runPipe` -/

/-- A process that is not below `p` has no part in a pipeline that `p` runs. -/
theorem callsOf_runPipe_of_not_below (h : ¬p <+: q) : callsOf q (runPipe exec p cmds) = [] :=
  callsOf_eq_nil fun _ hmem => h (prefix_of_mem_runPipe hmem)

theorem append_not_prefix_self (p : Process) (k : Nat) : ¬p ++ [k] <+: p := by
  intro hle
  have hlength := hle.length_le
  rw [List.length_append, List.length_singleton] at hlength
  omega

/-- The process that `run_pipe` is called in. -/
theorem callsOf_self (exec : List CString → Bool) (p : Process) (hcmds : cmds ≠ []) :
    callsOf p (runPipe exec p cmds) ++ (if cmds.tail = [] then [] else afterPipe p) =
      pipeCalls exec p cmds := by
  match cmds, hcmds with
  | [cmd], _ => simp [runPipe, pipeCalls]
  | cmd :: next :: cmds, _ =>
      have hleft : p ≠ p ++ [0] := by simp
      have hright : p ≠ p ++ [1] := by simp
      simp [runPipe, pipeCalls, callsOf_own hleft, callsOf_own hright,
        callsOf_runPipe_of_not_below (append_not_prefix_self p 1)]

/-- The other processes. -/
theorem callsOf_runPipe_cons {cmd next : CString} (hq : q ≠ spine d) :
    callsOf q (runPipe exec (spine d) (cmd :: next :: cmds)) =
      callsOf q (Phase2.own (leaf d)
        ([.dup2 .write 1, .close .read, .close .write] ++ runStage exec cmd)) ++
      callsOf q (Phase2.own (spine (d + 1)) [.dup2 .read 0, .close .read, .close .write]) ++
      callsOf q (runPipe exec (spine (d + 1)) (next :: cmds)) ++
      callsOf q (Phase2.own (spine (d + 1)) (if cmds = [] then [] else [.exit 0])) := by
  simp only [runPipe, callsOf_append, callsOf_own hq, spine_append, List.nil_append,
    List.append_nil]
  rfl

theorem callsOf_spine_succ (exec : List CString → Bool) (hd : d ≤ e) (he : e + 1 < d + cmds.length) :
    callsOf (spine (e + 1)) (runPipe exec (spine d) cmds) =
      [.dup2 .read 0, .close .read, .close .write] ++
        pipeCalls exec (spine (e + 1)) (cmds.drop (e + 1 - d)) := by
  have hleaf (c : Nat) : spine (e + 1) ≠ leaf c := (leaf_ne_spine _ _).symm
  induction cmds generalizing d with
  | nil =>
      rw [List.length_nil] at he
      omega
  | cons cmd cmds ih =>
      cases cmds with
      | nil =>
          rw [List.length_singleton] at he
          omega
      | cons next cmds =>
          have hspine : spine (e + 1) ≠ spine d := by
            rw [Ne, spine_inj]
            omega
          rw [callsOf_runPipe_cons hspine, callsOf_own (hleaf d), List.nil_append]
          obtain rfl | hlt := Nat.eq_or_lt_of_le hd
          · have hself := callsOf_self exec (spine (d + 1)) (List.cons_ne_nil next cmds)
            have hne : spine (d + 1) ≠ [] := List.cons_ne_nil _ _
            rw [List.tail_cons, afterPipe, if_neg hne] at hself
            rw [callsOf_own_self, callsOf_own_self, List.append_assoc, hself,
              Nat.add_sub_cancel_left, List.drop_one, List.tail_cons]
          · have hright : spine (e + 1) ≠ spine (d + 1) := by
              rw [Ne, spine_inj]
              omega
            rw [List.length_cons] at he
            rw [callsOf_own hright, callsOf_own hright, List.nil_append, List.append_nil,
              ih hlt (by omega), show e + 1 - d = e + 1 - (d + 1) + 1 by omega,
              List.drop_succ_cons]

theorem callsOf_leaf (exec : List CString → Bool) (hd : d ≤ e) (he : e + 1 < d + cmds.length) :
    callsOf (leaf e) (runPipe exec (spine d) cmds) =
      [.dup2 .write 1, .close .read, .close .write] ++
        runStage exec ((cmds.drop (e - d)).headD []) := by
  induction cmds generalizing d with
  | nil =>
      rw [List.length_nil] at he
      omega
  | cons cmd cmds ih =>
      cases cmds with
      | nil =>
          rw [List.length_singleton] at he
          omega
      | cons next cmds =>
          rw [callsOf_runPipe_cons (leaf_ne_spine e d), callsOf_own (leaf_ne_spine e (d + 1)),
            callsOf_own (leaf_ne_spine e (d + 1)), List.append_nil, List.append_nil]
          obtain rfl | hlt := Nat.eq_or_lt_of_le hd
          · have hbelow : ¬spine (d + 1) <+: leaf d := by
              intro hle
              have hlength : (spine (d + 1)).length = (leaf d).length := by
                simp [spine, leaf]
              exact leaf_ne_spine d (d + 1) (hle.eq_of_length hlength).symm
            rw [callsOf_own_self, callsOf_runPipe_of_not_below hbelow, List.append_nil,
              Nat.sub_self, List.drop_zero, List.headD_cons]
          · have hne : leaf e ≠ leaf d := by
              rw [Ne, leaf_inj]
              omega
            rw [List.length_cons] at he
            rw [callsOf_own hne, List.nil_append, ih hlt (by omega),
              show e - d = e - (d + 1) + 1 by omega, List.drop_succ_cons]

/-- Nobody else takes part in a pipeline. -/
theorem member_of_mem {call : Call} (hmem : (q, call) ∈ runPipe exec (spine d) cmds) :
    Member (d + cmds.length) q := by
  induction cmds generalizing d with
  | nil => cases hmem
  | cons cmd cmds ih =>
      cases cmds with
      | nil =>
          rw [runPipe, mem_own] at hmem
          exact .inl ⟨d, Nat.lt_succ_self d, hmem.1.symm⟩
      | cons next cmds =>
          have hlen : (cmd :: next :: cmds).length = (next :: cmds).length + 1 := rfl
          have hpos : 0 < (next :: cmds).length := Nat.succ_pos _
          have hself : ∃ e < d + (cmd :: next :: cmds).length, spine d = spine e :=
            ⟨d, by omega, rfl⟩
          have hright : ∃ e < d + (cmd :: next :: cmds).length, spine (d + 1) = spine e :=
            ⟨d + 1, by omega, rfl⟩
          simp only [runPipe, List.mem_append, mem_own, spine_append] at hmem
          rcases hmem with (((((⟨rfl, -⟩ | ⟨rfl, -⟩) | ⟨rfl, -⟩) | ⟨rfl, -⟩) | hmem) | ⟨rfl, -⟩) |
            ⟨rfl, -⟩
          · exact .inl hself
          · exact .inr ⟨d, by omega, rfl⟩
          · exact .inl hself
          · exact .inl hright
          · obtain ⟨e, he, rfl⟩ | ⟨e, he, rfl⟩ := ih hmem
            · exact .inl ⟨e, by omega, rfl⟩
            · exact .inr ⟨e, by omega, rfl⟩
          · exact .inl hright
          · exact .inl hself

end Calls

/-! ### The calls of a run -/

section Runs

variable {exec : List CString → Bool} {own : FdTable} {cmds : List CString} {p : Process}
  {pr : Proc} {procs : Process → Option Proc} {w w' : World} {move : Move}

/-- The calls of process `p` that are still to come, also when it is still to be forked. -/
def callsToCome (exec : List CString → Bool) (cmds : List CString)
    (procs : Process → Option Proc) (p : Process) : List Call :=
  match procs p with
  | none => callsOf p (runPipe exec [] cmds)
  | some pr => pr.toCome exec p

/-- The processes have made the first of the calls that `runPipe` lists, each its own. -/
def OnList (exec : List CString → Bool) (cmds : List CString) (w : World) : Prop :=
  ∀ p, callsOf p w.trace ++ callsToCome exec cmds w.procs p = callsOf p (runPipe exec [] cmds)

theorem OnList.start (hcmds : cmds ≠ []) : OnList exec cmds (World.start own cmds) := by
  intro p
  change [] ++ callsToCome exec cmds (World.start own cmds).procs p = _
  rw [List.nil_append, callsToCome, World.start]
  dsimp only
  by_cases hp : p = []
  · have hself := callsOf_self exec [] hcmds
    rw [afterPipe, if_pos rfl, ite_self, List.append_nil] at hself
    rw [if_pos hp, hp, hself]
    rfl
  · rw [if_neg hp]

/-- A child is to make the calls that are listed for it. -/
theorem Proc.Sound.toCome_child (h : pr.Sound exec own cmds p) {k : Nat} {child : Proc}
    (hchild : pr.child = some (k, child)) :
    child.toCome exec (p ++ [k]) = callsOf (p ++ [k]) (runPipe exec [] cmds) := by
  obtain ⟨rfl, hi⟩ := h.eq_spine_of_child hchild
  rw [← Nat.zero_add cmds.length] at hi
  obtain ⟨hpoint, rfl, rfl⟩ | ⟨hpoint, rfl, rfl⟩ := Proc.child_cases hchild
  · have hlist := callsOf_leaf exec (Nat.zero_le pr.i) hi
    rw [Nat.sub_zero, ← h.rest] at hlist
    exact hlist.symm
  · have hlist := callsOf_spine_succ exec (Nat.zero_le pr.i) hi
    rw [Nat.sub_zero, ← List.tail_drop, ← h.rest] at hlist
    rw [spine_append]
    exact hlist.symm

theorem callsToCome_some (hp : procs p = some pr) :
    callsToCome exec cmds procs p = pr.toCome exec p := by
  rw [callsToCome, hp]

/-- Process `p` makes calls of its list. -/
theorem OnList.update (hon : OnList exec cmds w) (hp : w.procs p = some pr) {pr' : Proc}
    {calls : List Call} (hself : calls ++ pr'.toCome exec p = pr.toCome exec p)
    (hothers : ∀ q, q ≠ p → callsToCome exec cmds procs q = callsToCome exec cmds w.procs q) :
    OnList exec cmds
      ⟨Function.update procs p (some pr'), w.trace ++ Phase2.own p calls⟩ := by
  intro q
  rw [← hon q, callsOf_append]
  by_cases hq : q = p
  · rw [hq, callsOf_own_self, List.append_assoc, callsToCome_some (Function.update_self _ _ _),
      hself, callsToCome_some hp]
  · rw [callsOf_own hq, List.append_nil, ← hothers q hq, callsToCome, callsToCome]
    dsimp only
    rw [Function.update_of_ne hq]

theorem OnList.step (hon : OnList exec cmds w) (h : Tree exec own cmds w.procs)
    (hstep : w.step exec move = some w') : OnList exec cmds w' := by
  obtain ⟨p, pr, hp, ⟨calls, pr', -, hnext, rfl⟩ | ⟨k, point, child, -, hpoint, hchild, hzombie,
    rfl⟩ | ⟨point, -, hpoint, hnone, rfl⟩ | ⟨-, hpoint, rfl⟩⟩ := World.step_cases hstep
  · refine hon.update hp ((h.sound p pr hp).toCome_next hnext) fun q _ => ?_
    rw [callsToCome, fork_apply]
    cases hchild : pr.child with
    | none => rfl
    | some forked =>
        obtain ⟨k, child⟩ := forked
        by_cases hq : q = p ++ [k]
        · rw [callsToCome, hq, h.child_absent hp hchild]
          dsimp only
          rw [if_pos rfl]
          exact (h.sound p pr hp).toCome_child hchild
        · dsimp only
          rw [if_neg hq]
          rfl
  · refine hon.update hp ?_ fun q _ => ?_
    · obtain ⟨hat, rfl⟩ | ⟨hat, rfl⟩ := Point.afterWait_cases hpoint <;>
        simp [Proc.toCome, hat]
    · rw [callsToCome, Function.update_apply]
      by_cases hq : q = p ++ [k]
      · rw [if_pos hq, hq, callsToCome_some hchild]
        simp [Proc.toCome, hzombie]
      · rw [if_neg hq]
        rfl
  · exact absurd hnone (h.not_noChildren hp hpoint)
  · have hon' : OnList exec cmds
        ⟨Function.update w.procs p (some pr.exits), w.trace ++ Phase2.own p []⟩ :=
      hon.update hp (by simp [Proc.toCome, Proc.exits, hpoint]) fun q _ => rfl
    rwa [show Phase2.own p [] = [] from rfl, List.append_nil] at hon'

/-- When the shell returns there is nothing left on the lists. -/
theorem Tree.callsToCome_eq_nil (h : Tree exec own cmds w.procs) (hreturned : w.Returned)
    (p : Process) : callsToCome exec cmds w.procs p = [] := by
  cases hp : w.procs p with
  | some pr =>
      rw [callsToCome_some hp]
      by_cases hne : p = []
      · obtain ⟨shell, hshell, hpoint⟩ := hreturned
        obtain rfl : pr = shell := Option.some.inj (hp.symm.trans (hne ▸ hshell))
        simp [Proc.toCome, hpoint, afterPipe, hne]
      · simp [Proc.toCome, h.reaped hreturned hp hne]
  | none =>
      rw [callsToCome, hp]
      refine callsOf_eq_nil fun call hmem => ?_
      have hmember := member_of_mem (d := 0) hmem
      rw [Nat.zero_add] at hmember
      have hne : p ≠ [] := by
        rintro rfl
        obtain ⟨shell, hshell, -⟩ := hreturned
        cases hp.symm.trans hshell
      obtain ⟨pr, hpr, -⟩ := h.collected_of_returned hreturned hmember hne
      cases hp.symm.trans hpr

/-- Every state of a run. -/
theorem onList_of_reachable (hopen : ∀ m ≤ 2, own.get m ≠ none) (hcmds : cmds ≠ [])
    (hw : Reachable (World.step exec) anyStep (World.start own cmds) w) :
    Tree exec own cmds w.procs ∧ OnList exec cmds w := by
  refine hw.invariant (I := fun w => Tree exec own cmds w.procs ∧ OnList exec cmds w)
    ⟨Tree.start own hcmds, OnList.start hcmds⟩ ?_
  intro w move w' ⟨h, hon⟩ _ hstep
  exact ⟨h.step (fun m hm => hopen m (by omega)) hstep, hon.step h hstep⟩

theorem Tree.callsOf_trace (h : Tree exec own cmds w.procs) (hon : OnList exec cmds w)
    (hreturned : w.Returned) (p : Process) :
    callsOf p w.trace = callsOf p (runPipe exec [] cmds) := by
  rw [← hon p, h.callsToCome_eq_nil hreturned p, List.append_nil]

/-- **What a pipeline calls.** When the shell returns, each process has made the calls that
`runPipe` lists for it, and nothing else has been called. -/
theorem trace_of_returned (hopen : ∀ m ≤ 2, own.get m ≠ none) (hcmds : cmds ≠ [])
    (hw : Reachable (World.step exec) anyStep (World.start own cmds) w)
    (hreturned : w.Returned) :
    w.trace.Perm (runPipe exec [] cmds) ∧
      ∀ p, callsOf p w.trace = callsOf p (runPipe exec [] cmds) := by
  obtain ⟨h, hon⟩ := onList_of_reachable hopen hcmds hw
  refine ⟨List.perm_iff_count.mpr ?_, h.callsOf_trace hon hreturned⟩
  rintro ⟨p, call⟩
  rw [← count_callsOf, ← count_callsOf, h.callsOf_trace hon hreturned p]

/-- A run of a pipeline of two programs in which the second one ends first. -/
def lastEndsFirst : List Move :=
  List.replicate 5 (.call []) ++ List.replicate 4 (.call [0]) ++ List.replicate 5 (.call [1]) ++
    [.ends [1], .wait [] (some 1), .ends [0], .wait [] (some 0)]

theorem returned_iff : w.Returned ↔ (w.procs []).map Proc.point = some .returned := by
  rw [World.Returned, Option.map_eq_some_iff]

instance (w : World) : Decidable w.Returned := decidable_of_iff _ returned_iff.symm

theorem trace_of_returned_lastEndsFirst :
    let own : FdTable := [some (.inherited 0), some (.inherited 1), some (.inherited 2)]
    let cmds := ["ls ".toList, " wc\n".toList]
    let w := (Library.exec (restrict (World.step fun _ => true) anyStep) lastEndsFirst
      (World.start own cmds)).get (by decide +kernel)
    w.trace.Perm (runPipe (fun _ => true) [] cmds) ∧
      ∀ p, callsOf p w.trace = callsOf p (runPipe (fun _ => true) [] cmds) :=
  trace_of_returned (by decide) (by decide) (.of_exec (Option.some_get _).symm) (by decide +kernel)

end Runs

end SystemProgramming.Phase2
