import Mathlib.Data.List.Basic

/-!
What the phase 3 shell sees of the kernel: its descriptor table and its
children. Only the kernel changes these; the shell asks for the changes by
system calls.
-/

namespace SystemProgramming.MyShell

/-! ### Descriptors -/

/-- What a descriptor stands for: one the shell was started with, or an end of
the pipe made for stage `i`. -/
inductive File
  | inherited (n : Nat)
  | pipeRead (i : Nat)
  | pipeWrite (i : Nat)
  deriving DecidableEq, Repr

def File.isPipe : File → Bool
  | .inherited _ => false
  | .pipeRead _ | .pipeWrite _ => true

/-- A descriptor table; the entry at position `n` is descriptor `n`. -/
abbrev FdTable := List (Option File)

namespace FdTable

def get (t : FdTable) (n : Nat) : Option File := t[n]?.join

/-- The lowest descriptor that is not open. -/
def firstFree (t : FdTable) : Nat := t.findIdx Option.isNone

/-- Makes descriptor `n` stand for a file, whatever it stood for before. -/
def install (t : FdTable) (n : Nat) (f : File) : FdTable :=
  (t ++ List.replicate (n + 1 - t.length) none).set n (some f)

/-- `pipe (fd)`: both ends get the lowest free descriptors, the read end first. -/
def pipe (t : FdTable) (i : Nat) : (Int × Int) × FdTable :=
  let t₁ := t.install t.firstFree (.pipeRead i)
  ((t.firstFree, t₁.firstFree), t₁.install t₁.firstFree (.pipeWrite i))

/-- `close (fd)`, which does nothing for a descriptor that is not open. -/
def close (t : FdTable) (fd : Int) : FdTable :=
  if fd < 0 then t else t.set fd.toNat none

/-- `dup2 (fd, n)`. -/
def dup2 (t : FdTable) (fd : Int) (n : Nat) : FdTable :=
  if fd < 0 then t
  else match t.get fd.toNat with
    | none => t
    | some f => t.install n f

@[simp] theorem get_install (t : FdTable) (n m : Nat) (f : File) :
    (t.install n f).get m = if m = n then some f else t.get m := by
  unfold get install
  by_cases hm : m = n
  · subst hm
    have hlen : m < (t ++ List.replicate (m + 1 - t.length) none).length := by simp; omega
    rw [if_pos rfl, List.getElem?_set_self hlen]
    rfl
  · rw [if_neg hm, List.getElem?_set_ne (Ne.symm hm)]
    by_cases hlen : m < t.length
    · rw [List.getElem?_append_left hlen]
    · rw [List.getElem?_append_right (by omega), List.getElem?_replicate,
        List.getElem?_eq_none (l := t) (by omega)]
      split <;> rfl

@[simp] theorem get_close (t : FdTable) (fd : Int) (m : Nat) :
    (t.close fd).get m = if (m : Int) = fd then none else t.get m := by
  unfold close get
  by_cases hneg : fd < 0
  · rw [if_pos hneg, if_neg (by omega)]
  rw [if_neg hneg]
  by_cases hm : (m : Int) = fd
  · subst hm
    rw [if_pos rfl, Int.toNat_natCast, List.getElem?_set]
    by_cases hlen : m < t.length <;> simp [hlen]
  · rw [if_neg hm, List.getElem?_set_ne (by omega)]

/-- The descriptor the kernel picks is not open. -/
theorem get_firstFree (t : FdTable) : t.get t.firstFree = none := by
  unfold get firstFree
  by_cases h : t.findIdx Option.isNone < t.length
  · have hnone := List.findIdx_getElem (w := h)
    rw [List.getElem?_eq_getElem h, Option.isNone_iff_eq_none.mp hnone]
    rfl
  · rw [List.getElem?_eq_none (by omega)]
    rfl

/-- `pipe` opens two descriptors that were free and leaves the others alone. -/
theorem pipe_spec (t : FdTable) (i : Nat) :
    ∃ r w : Nat, r ≠ w ∧ t.get r = none ∧ t.get w = none ∧ (t.pipe i).1 = (↑r, ↑w) ∧
      ∀ m, (t.pipe i).2.get m =
        if m = w then some (.pipeWrite i) else if m = r then some (.pipeRead i)
        else t.get m := by
  let t₁ := t.install t.firstFree (.pipeRead i)
  have hfree : t₁.get t₁.firstFree = none := get_firstFree t₁
  rw [get_install] at hfree
  have hne : t.firstFree ≠ t₁.firstFree := by
    intro h
    rw [if_pos h.symm] at hfree
    simp at hfree
  rw [if_neg (Ne.symm hne)] at hfree
  refine ⟨t.firstFree, t₁.firstFree, hne, get_firstFree t, hfree, rfl, fun m => ?_⟩
  change (t₁.install t₁.firstFree (.pipeWrite i)).get m = _
  rw [get_install, get_install]

end FdTable

/-! ### Children -/

/-- A status `waitpid` reports. The macros `WIFEXITED`, `WIFSIGNALED`,
`WIFSTOPPED` and `WIFCONTINUED` tell four kinds apart. -/
inductive Status | stopped | continued | exited | signaled
  deriving DecidableEq, Repr

/-- `WIFSIGNALED (status) || WIFEXITED (status)`. -/
def Status.terminated : Status → Bool
  | .exited | .signaled => true
  | .stopped | .continued => false

inductive ProcState | running | stopped | zombie
  deriving DecidableEq, Repr

/-- The process ids `fork` returns to a parent. -/
abbrev Pid := {pid : Int // 0 < pid}

instance (n : Nat) : OfNat Pid (n + 1) := ⟨(n + 1 : Nat), by omega⟩

/-- A child that has not been reaped. `pgrp` is its process group, 0 for the
shell's own; `report` is the last change of its state that `waitpid` has not
returned yet. -/
structure Child where
  pid : Pid
  pgrp : Int
  state : ProcState := .running
  report : Option Status := none
  deriving DecidableEq

/-- The group of a process after `setpgid (pid, pgid)`, which the kernel refuses
for a negative group. -/
def groupOf (pgid : Int) : Int := if 0 < pgid then pgid else 0

/-- The state a change of status leads to, if the process can make it. -/
def ProcState.change : ProcState → Status → Option ProcState
  | .running, .stopped => some .stopped
  | .running, .exited => some .zombie
  | .running, .signaled => some .zombie
  | .stopped, .continued => some .running
  | .stopped, .signaled => some .zombie
  | _, _ => none

/-- A change of state replaces a report that has not been collected. -/
def Child.change (c : Child) (status : Status) : Option Child :=
  (c.state.change status).map fun state => { c with state := state, report := some status }

end SystemProgramming.MyShell
