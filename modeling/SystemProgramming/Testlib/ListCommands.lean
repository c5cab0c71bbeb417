import SystemProgramming.CLib
import SystemProgramming.Testlib.List

/-!
The interpreter of `main.c`, as far as it works on lists: `create list`,
`delete`, `dumpdata` and the commands of `do_list_command` except
`list_shuffle`. Hash tables and bitmaps are kept in tables of their own, which
none of these commands fills; so `find_object` is `find_list` here.

A command comes with what `malloc` does for it.
-/

namespace SystemProgramming.Testlib

open SystemProgramming.CLib SystemProgramming.Library

def MAX_DS : Nat := 10

def NAME_LEN : Nat := 32

/-- An element: one of the sentinels in `lists`, or the one in a `struct list_item`. -/
inductive Addr
  | head (slot : Fin MAX_DS)
  | tail (slot : Fin MAX_DS)
  | item (n : Nat)
  deriving DecidableEq

/-- `lists[slot].list`. -/
def listAt (slot : Fin MAX_DS) : CList Addr := ⟨.head slot, .tail slot⟩

/-- The rest of a `struct list_obj`. -/
structure ListObj where
  name : String
  used : Bool

structure Interp where
  links : Heap Addr
  /-- The `value` of every allocated item. -/
  values : Nat → Option Int
  lists : Fin MAX_DS → ListObj
  /-- No item from here on was ever allocated. -/
  brk : Nat
  out : String

/-- The program before its first command. -/
def Interp.initial : Interp where
  links
    | .item _ => none
    | _ => some ⟨none, none⟩
  values _ := none
  lists _ := ⟨"", false⟩
  brk := 0
  out := ""

/-- The outcome of `malloc`: null, or an address with the links that happen to be there. -/
abbrev Malloc := Option (Nat × Link Addr)

abbrev Cmd := StateT Interp Option

/-! ### Memory and output -/

/-- Runs a function of `list.c`. -/
def onLinks {β : Type} (prog : Prog Addr β) : Cmd β := fun s =>
  (prog.run s.links).map fun (b, links) => (b, { s with links })

def printf (text : String) : Cmd Unit := modify fun s => { s with out := s.out ++ text }

/-- The item `malloc` returns: the one asked for if it is free, else one never used. -/
def Interp.fresh (s : Interp) (n : Nat) : Nat := if (s.values n).isNone then n else s.brk

def makeListItem (memory : Malloc) (value : Int) : Cmd (Ptr Addr) :=
  match memory with
  | none => pure none
  | some (asked, garbage) => fun s =>
      let n := s.fresh asked
      some (some (.item n), { s with
        links := Function.update s.links (.item n) (some garbage)
        values := Function.update s.values n (some value)
        brk := max s.brk (n + 1) })

/-- `free (list_entry (e, struct list_item, elem))`. -/
def freeItem (e : Ptr Addr) : Cmd Unit :=
  match e with
  | none => pure ()
  | some (.item n) => fun s =>
      if (s.values n).isSome then
        some ((), { s with
          links := Function.update s.links (.item n) none
          values := Function.update s.values n none })
      else none
  | some _ => failure

/-- `list_entry (e, struct list_item, elem)->value`. -/
def entryValue (values : Nat → Option Int) (e : Ptr Addr) : Option Int :=
  match e with
  | some (.item n) => values n
  | _ => none

def getValue (e : Ptr Addr) : Cmd Int := fun s => (entryValue s.values e).map (·, s)

def listItemLess (values : Nat → Option Int) (a b : Ptr Addr) : Option Bool := do
  return (← entryValue values a) < (← entryValue values b)

/-- Runs a function of `list.c` that compares elements with `list_item_less`. -/
def withLess {β : Type} (prog : (Ptr Addr → Ptr Addr → Option Bool) → Prog Addr β) : Cmd β :=
  do onLinks (prog (listItemLess (← get).values))

def printBool (value : Bool) : Cmd Unit := printf (if value then "true\n" else "false\n")

def printValue (e : Ptr Addr) : Cmd Unit := do printf (toString (← getValue e) ++ "\n")

/-! ### The table of the lists -/

/-- `snprintf (dst, NAME_LEN, "%s", src)`. -/
def copyName (src : String) : String := String.ofList (src.toList.take (NAME_LEN - 1))

def findList (lists : Fin MAX_DS → ListObj) (name : String) : Option (Fin MAX_DS) :=
  (List.finRange MAX_DS).find? fun i => (lists i).used && (lists i).name = name

def findEmptyListSlot (lists : Fin MAX_DS → ListObj) : Option (Fin MAX_DS) :=
  (List.finRange MAX_DS).find? fun i => !(lists i).used

def setObj (slot : Fin MAX_DS) (obj : ListObj) : Cmd Unit :=
  modify fun s => { s with lists := Function.update s.lists slot obj }

def createListObject (name : String) : Cmd Unit := do
  match findEmptyListSlot (← get).lists with
  | none => pure ()
  | some slot =>
      setObj slot ⟨copyName name, true⟩
      onLinks (listInit (listAt slot))

def destroyListLoop (slot : Fin MAX_DS) : Nat → Cmd Unit
  | 0 => failure
  | fuel + 1 => do
      if !(← onLinks (listEmpty (listAt slot))) then
        freeItem (← onLinks (listPopFront (listAt slot)))
        destroyListLoop slot fuel

def destroyList (fuel : Nat) (slot : Fin MAX_DS) : Cmd Unit := do
  destroyListLoop slot fuel
  modify fun s => { s with
    lists := Function.update s.lists slot { s.lists slot with used := false } }

def dumpListLoop (slot : Fin MAX_DS) : Nat → Ptr Addr → Bool → Cmd Unit
  | 0, _, _ => failure
  | fuel + 1, e, first =>
      if e = listEnd (listAt slot) then pure ()
      else do
        if !first then printf " "
        printf (toString (← getValue e))
        dumpListLoop slot fuel (← onLinks (listNext e)) false

def dumpList (fuel : Nat) (slot : Fin MAX_DS) : Cmd Unit := do
  dumpListLoop slot fuel (← onLinks (listBegin (listAt slot))) true
  printf "\n"

/-! ### Positions -/

section Positions

variable {α : Type} [DecidableEq α]

/-- The loop of `list_elem_at`. -/
def advance : Nat → Ptr α → Prog α (Ptr α)
  | 0, e => pure e
  | idx + 1, e => do advance idx (← listNext e)

def listElemAt (fuel : Nat) (list : CList α) (idx : Int) : Prog α (Ptr α) := do
  let e ← listBegin list
  if idx < 0 then return none
  if idx.toNat ≥ (← listSize fuel list) then return none
  advance idx.toNat e

def listPosAt (fuel : Nat) (list : CList α) (idx : Int) : Prog α (Ptr α) := do
  if idx < 0 then return none
  if idx.toNat > (← listSize fuel list) then return none
  if idx.toNat = (← listSize fuel list) then return listEnd list
  listElemAt fuel list idx

end Positions

/-! ### Commands -/

/-- The branches of `do_list_command`, with their arguments. -/
inductive ListCommand
  | pushFront (value : Int)
  | pushBack (value : Int)
  | popFront
  | popBack
  | front
  | back
  | empty
  | size
  | insert (idx value : Int)
  | insertOrdered (value : Int)
  | remove (idx : Int)
  | reverse
  | sort
  | splice (before : Int) (source : String) (first last : Int)
  | unique (duplicates : Option String)
  | max
  | min
  | swap (a b : Int)
  deriving DecidableEq

inductive Command
  | create (name : String)
  | delete (name : String)
  | dumpdata (name : String)
  | list (name : String) (command : ListCommand)
  deriving DecidableEq

def number (token : String) : Int := atoi token.toList

/-- The branch `do_list_command` takes for `tokens[0]` and the tokens from `tokens[2]` on. -/
def listCommand (token : String) (args : List String) : Option ListCommand :=
  match token, args with
  | "list_push_front", value :: _ => some (.pushFront (number value))
  | "list_push_back", value :: _ => some (.pushBack (number value))
  | "list_pop_front", _ => some .popFront
  | "list_pop_back", _ => some .popBack
  | "list_front", _ => some .front
  | "list_back", _ => some .back
  | "list_empty", _ => some .empty
  | "list_size", _ => some .size
  | "list_insert", idx :: value :: _ => some (.insert (number idx) (number value))
  | "list_insert_ordered", value :: _ => some (.insertOrdered (number value))
  | "list_remove", idx :: _ => some (.remove (number idx))
  | "list_reverse", _ => some .reverse
  | "list_sort", _ => some .sort
  | "list_splice", before :: source :: first :: last :: _ =>
      some (.splice (number before) source (number first) (number last))
  | "list_unique", args => some (.unique args.head?)
  | "list_max", _ => some .max
  | "list_min", _ => some .min
  | "list_swap", a :: b :: _ => some (.swap (number a) (number b))
  | _, _ => none

/-- The command on a line of tokens; a line with too few of them has none. -/
def command (tokens : List String) : Option Command :=
  match tokens with
  | "create" :: "list" :: name :: _ => some (.create name)
  | "create" :: _ => none
  | "delete" :: name :: _ => some (.delete name)
  | "dumpdata" :: name :: _ => some (.dumpdata name)
  | token :: name :: args => (listCommand token args).map (.list name)
  | _ => none

def doListCommand (fuel : Nat) (memory : Malloc) (slot : Fin MAX_DS) (c : ListCommand) :
    Cmd Unit :=
  let list := listAt slot
  match c with
  | .pushFront value => do
      let item ← makeListItem memory value
      if item.isSome then onLinks (listPushFront list item)
  | .pushBack value => do
      let item ← makeListItem memory value
      if item.isSome then onLinks (listPushBack list item)
  | .popFront => do
      if !(← onLinks (listEmpty list)) then freeItem (← onLinks (listPopFront list))
  | .popBack => do
      if !(← onLinks (listEmpty list)) then freeItem (← onLinks (listPopBack list))
  | .front => do
      if !(← onLinks (listEmpty list)) then printValue (← onLinks (listFront list))
  | .back => do
      if !(← onLinks (listEmpty list)) then printValue (← onLinks (listBack list))
  | .empty => do printBool (← onLinks (listEmpty list))
  | .size => do printf (toString (← onLinks (listSize fuel list)) ++ "\n")
  | .insert idx value => do
      let pos ← onLinks (listPosAt fuel list idx)
      let item ← makeListItem memory value
      if item.isSome && pos.isSome then onLinks (listInsert pos item)
      else freeItem item
  | .insertOrdered value => do
      let item ← makeListItem memory value
      if item.isSome then withLess fun less => listInsertOrdered less fuel list item
  | .remove idx => do
      let e ← onLinks (listElemAt fuel list idx)
      if e.isSome then
        let _ ← onLinks (listRemove e)
        freeItem e
  | .reverse => onLinks (listReverse fuel list)
  | .sort => withLess fun less => listSort less fuel list
  | .splice before source first last => do
      match findList (← get).lists source with
      | none => pure ()
      | some src =>
          let before ← onLinks (listPosAt fuel list before)
          let first ← onLinks (listElemAt fuel (listAt src) first)
          let last ← onLinks (listPosAt fuel (listAt src) last)
          if before.isSome && first.isSome && last.isSome then
            onLinks (listSplice before first last)
  | .unique duplicates => do
      let lists := (← get).lists
      let duplicates := (duplicates.bind (findList lists)).map listAt
      withLess fun less => listUnique less fuel list duplicates
  | .max => do
      if !(← onLinks (listEmpty list)) then
        printValue (← withLess fun less => listMax less fuel list)
  | .min => do
      if !(← onLinks (listEmpty list)) then
        printValue (← withLess fun less => listMin less fuel list)
  | .swap a b => do
      let a ← onLinks (listElemAt fuel list a)
      let b ← onLinks (listElemAt fuel list b)
      if a.isSome && b.isSome then onLinks (listSwap fuel a b)

def doCommand (fuel : Nat) (memory : Malloc) (c : Command) : Cmd Unit :=
  match c with
  | .create name => createListObject name
  | .delete name => do
      match findList (← get).lists name with
      | none => pure ()
      | some slot => destroyList fuel slot
  | .dumpdata name => do
      match findList (← get).lists name with
      | none => pure ()
      | some slot => dumpList fuel slot
  | .list name c => do
      match findList (← get).lists name with
      | none => pure ()
      | some slot => doListCommand fuel memory slot c

def doLine (fuel : Nat) (tokens : List String) (memory : Malloc) : Cmd Unit :=
  match command tokens with
  | none => pure ()
  | some c => doCommand fuel memory c

/-- The lines of a run, each with what `malloc` does for it. -/
def interpret (fuel : Nat) : List (List String × Malloc) → Cmd Unit
  | [] => pure ()
  | (tokens, memory) :: lines => do
      doLine fuel tokens memory
      interpret fuel lines

end SystemProgramming.Testlib
