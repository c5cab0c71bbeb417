import SystemProgramming.Library.Links

/-!
`list.c`, over any type of addresses. A program works on the links in memory;
it ends in `none` when an `ASSERT` fails, when it follows a pointer that is
null or does not point to an allocated element, or when a loop is out of
rounds. `fuel` bounds the rounds of the loops and stands for nothing in the
source.
-/

namespace SystemProgramming.Testlib

open SystemProgramming.Library

variable {α β : Type}

/-- A `struct list_elem *`. -/
abbrev Ptr (α : Type) := Option α

abbrev Prog (α β : Type) := StateT (Heap α) Option β

/-- `struct list`, by the addresses of its two elements. -/
structure CList (α : Type) where
  head : α
  tail : α
  deriving DecidableEq

def ASSERT (condition : Bool) : Prog α Unit := if condition then pure () else failure

/-- A call of a function that leaves the links alone. -/
def call (result : Option β) : Prog α β := fun h => result.map fun b => (b, h)

def getPrev (p : Ptr α) : Prog α (Ptr α) := fun h => (p.bind h).map fun l => (l.prev, h)

def getNext (p : Ptr α) : Prog α (Ptr α) := fun h => (p.bind h).map fun l => (l.next, h)

variable [DecidableEq α]

def setPrev (p v : Ptr α) : Prog α Unit := fun h =>
  p.bind fun a => (h a).map fun _ => ((), h.setPrev a v)

def setNext (p v : Ptr α) : Prog α Unit := fun h =>
  p.bind fun a => (h a).map fun _ => ((), h.setNext a v)

/-! ### Single elements -/

def isHead (elem : Ptr α) : Prog α Bool :=
  match elem with
  | none => pure false
  | some _ => return (← getPrev elem).isNone && (← getNext elem).isSome

def isInterior (elem : Ptr α) : Prog α Bool :=
  match elem with
  | none => pure false
  | some _ => return (← getPrev elem).isSome && (← getNext elem).isSome

def isTail (elem : Ptr α) : Prog α Bool :=
  match elem with
  | none => pure false
  | some _ => return (← getPrev elem).isSome && (← getNext elem).isNone

def listInit (list : CList α) : Prog α Unit := do
  setPrev (some list.head) none
  setNext (some list.head) (some list.tail)
  setPrev (some list.tail) (some list.head)
  setNext (some list.tail) none

def listBegin (list : CList α) : Prog α (Ptr α) := getNext (some list.head)

def listNext (elem : Ptr α) : Prog α (Ptr α) := do
  ASSERT ((← isHead elem) || (← isInterior elem))
  getNext elem

def listEnd (list : CList α) : Ptr α := some list.tail

def listPrev (elem : Ptr α) : Prog α (Ptr α) := do
  ASSERT ((← isInterior elem) || (← isTail elem))
  getPrev elem

def listInsert (before elem : Ptr α) : Prog α Unit := do
  ASSERT ((← isInterior before) || (← isTail before))
  ASSERT elem.isSome
  setPrev elem (← getPrev before)
  setNext elem before
  setNext (← getPrev before) elem
  setPrev before elem

def listSplice (before first last : Ptr α) : Prog α Unit := do
  ASSERT ((← isInterior before) || (← isTail before))
  if first = last then return
  let last ← listPrev last
  ASSERT (← isInterior first)
  ASSERT (← isInterior last)
  setNext (← getPrev first) (← getNext last)
  setPrev (← getNext last) (← getPrev first)
  setPrev first (← getPrev before)
  setNext last before
  setNext (← getPrev before) first
  setPrev before last

def listPushFront (list : CList α) (elem : Ptr α) : Prog α Unit := do
  listInsert (← listBegin list) elem

def listPushBack (list : CList α) (elem : Ptr α) : Prog α Unit :=
  listInsert (listEnd list) elem

def listRemove (elem : Ptr α) : Prog α (Ptr α) := do
  ASSERT (← isInterior elem)
  setNext (← getPrev elem) (← getNext elem)
  setPrev (← getNext elem) (← getPrev elem)
  getNext elem

def listEmpty (list : CList α) : Prog α Bool := do
  return (← listBegin list) = listEnd list

def listFront (list : CList α) : Prog α (Ptr α) := do
  ASSERT !(← listEmpty list)
  getNext (some list.head)

def listBack (list : CList α) : Prog α (Ptr α) := do
  ASSERT !(← listEmpty list)
  getPrev (some list.tail)

def listPopFront (list : CList α) : Prog α (Ptr α) := do
  let front ← listFront list
  let _ ← listRemove front
  return front

def listPopBack (list : CList α) : Prog α (Ptr α) := do
  let back ← listBack list
  let _ ← listRemove back
  return back

/-! ### Whole lists -/

def listSizeLoop (list : CList α) : Nat → Ptr α → Nat → Prog α Nat
  | 0, _, _ => failure
  | fuel + 1, e, cnt =>
      if e = listEnd list then pure cnt
      else do listSizeLoop list fuel (← listNext e) (cnt + 1)

def listSize (fuel : Nat) (list : CList α) : Prog α Nat := do
  listSizeLoop list fuel (← listBegin list) 0

/-- `swap (&e->prev, &e->next)`. -/
def swapLinks (e : Ptr α) : Prog α Unit := do
  let t ← getPrev e
  setPrev e (← getNext e)
  setNext e t

def listReverseLoop (list : CList α) : Nat → Ptr α → Prog α Unit
  | 0, _ => failure
  | fuel + 1, e =>
      if e = listEnd list then pure ()
      else do
        swapLinks e
        listReverseLoop list fuel (← getPrev e)

/-- The two calls of `swap` behind the loop of `list_reverse`. -/
def listReverseEnds (list : CList α) : Prog α Unit := do
  let t ← getNext (some list.head)
  setNext (some list.head) (← getPrev (some list.tail))
  setPrev (some list.tail) t
  let front ← getNext (some list.head)
  let back ← getPrev (some list.tail)
  let t ← getPrev front
  setPrev front (← getNext back)
  setNext back t

def listReverse (fuel : Nat) (list : CList α) : Prog α Unit := do
  if !(← listEmpty list) then
    listReverseLoop list fuel (← listBegin list)
    listReverseEnds list

section Ordered

-- a `list_less_func` with its auxiliary data
variable (less : Ptr α → Ptr α → Option Bool)

def isSortedLoop (b : Ptr α) : Nat → Ptr α → Prog α Bool
  | 0, _ => failure
  | fuel + 1, a => do
      let a ← listNext a
      if a = b then return true
      if ← call (less a (← listPrev a)) then return false
      isSortedLoop b fuel a

def isSorted (fuel : Nat) (a b : Ptr α) : Prog α Bool :=
  if a ≠ b then isSortedLoop less b fuel a else pure true

def findEndOfRunLoop (b : Ptr α) : Nat → Ptr α → Prog α (Ptr α)
  | 0, _ => failure
  | fuel + 1, a => do
      let a ← listNext a
      if a = b then return a
      if ← call (less a (← listPrev a)) then return a
      findEndOfRunLoop b fuel a

def findEndOfRun (fuel : Nat) (a b : Ptr α) : Prog α (Ptr α) := do
  ASSERT a.isSome
  ASSERT b.isSome
  ASSERT (a ≠ b)
  findEndOfRunLoop less b fuel a

def inplaceMergeLoop (b1 : Ptr α) : Nat → Ptr α → Ptr α → Prog α Unit
  | 0, _, _ => failure
  | fuel + 1, a0, a1b0 =>
      if a0 ≠ a1b0 ∧ a1b0 ≠ b1 then do
        if !(← call (less a1b0 a0)) then
          inplaceMergeLoop b1 fuel (← listNext a0) a1b0
        else
          let a1b0 ← listNext a1b0
          listSplice a0 (← listPrev a1b0) a1b0
          inplaceMergeLoop b1 fuel a0 a1b0
      else pure ()

def inplaceMerge (fuel : Nat) (a0 a1b0 b1 : Ptr α) : Prog α Unit := do
  ASSERT a0.isSome
  ASSERT a1b0.isSome
  ASSERT b1.isSome
  ASSERT (← isSorted less fuel a0 a1b0)
  ASSERT (← isSorted less fuel a1b0 b1)
  inplaceMergeLoop less b1 fuel a0 a1b0

/-- One pass of `list_sort` from `a0` on; the result is `output_run_cnt`. `fuel` bounds
the rounds of the loops inside. -/
def listSortPass (list : CList α) (fuel : Nat) : Nat → Ptr α → Nat → Prog α Nat
  | 0, _, _ => failure
  | rounds + 1, a0, outputRunCnt =>
      if a0 = listEnd list then pure outputRunCnt
      else do
        let outputRunCnt := outputRunCnt + 1
        let a1b0 ← findEndOfRun less fuel a0 (listEnd list)
        if a1b0 = listEnd list then return outputRunCnt
        let b1 ← findEndOfRun less fuel a1b0 (listEnd list)
        inplaceMerge less fuel a0 a1b0 b1
        listSortPass list fuel rounds b1 outputRunCnt

def listSortLoop (list : CList α) (fuel : Nat) : Nat → Prog α Unit
  | 0 => failure
  | passes + 1 => do
      let outputRunCnt ← listSortPass less list fuel fuel (← listBegin list) 0
      if outputRunCnt > 1 then listSortLoop list fuel passes

def listSort (fuel : Nat) (list : CList α) : Prog α Unit := do
  listSortLoop less list fuel fuel
  ASSERT (← isSorted less fuel (← listBegin list) (listEnd list))

def listInsertOrderedLoop (list : CList α) (elem : Ptr α) : Nat → Ptr α → Prog α (Ptr α)
  | 0, _ => failure
  | fuel + 1, e =>
      if e = listEnd list then pure e
      else do
        if ← call (less elem e) then return e
        listInsertOrderedLoop list elem fuel (← listNext e)

def listInsertOrdered (fuel : Nat) (list : CList α) (elem : Ptr α) : Prog α Unit := do
  ASSERT elem.isSome
  let e ← listInsertOrderedLoop less list elem fuel (← listBegin list)
  listInsert e elem

def listUniqueLoop (list : CList α) (duplicates : Option (CList α)) :
    Nat → Ptr α → Prog α Unit
  | 0, _ => failure
  | fuel + 1, elem => do
      let next ← listNext elem
      if next = listEnd list then return
      if !(← call (less elem next)) && !(← call (less next elem)) then
        let _ ← listRemove next
        match duplicates with
        | none => pure ()
        | some duplicates => listPushBack duplicates next
        listUniqueLoop list duplicates fuel elem
      else listUniqueLoop list duplicates fuel next

def listUnique (fuel : Nat) (list : CList α) (duplicates : Option (CList α)) :
    Prog α Unit := do
  if ← listEmpty list then return
  listUniqueLoop less list duplicates fuel (← listBegin list)

/-- The loop of `list_max` and, with the arguments of `less` exchanged, of `list_min`. -/
def listExtremeLoop (list : CList α) : Nat → Ptr α → Ptr α → Prog α (Ptr α)
  | 0, _, _ => failure
  | fuel + 1, best, e =>
      if e = listEnd list then pure best
      else do
        let best := if ← call (less best e) then e else best
        listExtremeLoop list fuel best (← listNext e)

def listMax (fuel : Nat) (list : CList α) : Prog α (Ptr α) := do
  let max ← listBegin list
  if max ≠ listEnd list then listExtremeLoop less list fuel max (← listNext max)
  else return max

def listMin (fuel : Nat) (list : CList α) : Prog α (Ptr α) := do
  let min ← listBegin list
  if min ≠ listEnd list then
    listExtremeLoop (fun a b => less b a) list fuel min (← listNext min)
  else return min

end Ordered

/-- `list_swap`, with `fuel` a bound on its recursion. -/
def listSwap : Nat → Ptr α → Ptr α → Prog α Unit
  | 0, _, _ => failure
  | fuel + 1, a, b => do
      ASSERT ((← isInterior a) && (← isInterior b))
      if a = b then return
      if (← getNext a) = b then
        let prevA ← getPrev a
        let nextB ← getNext b
        setNext prevA b
        setPrev b prevA
        setNext b a
        setPrev a b
        setNext a nextB
        setPrev nextB a
      else if (← getNext b) = a then listSwap fuel b a
      else
        let prevA ← getPrev a
        let nextA ← getNext a
        let prevB ← getPrev b
        let nextB ← getNext b
        setNext prevA b
        setPrev nextA b
        setNext prevB a
        setPrev nextB a
        setPrev a prevB
        setNext a nextB
        setPrev b prevA
        setNext b nextA

end SystemProgramming.Testlib
