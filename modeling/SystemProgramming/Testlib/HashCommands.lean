import SystemProgramming.CLib
import SystemProgramming.Testlib.Hash

/-!
The interpreter of `main.c` on one hash table: `create hashtable`, the
commands of `do_hash_command` and `dumpdata`. The names are left out: every
command is one that names the table.

A command comes with what `malloc` does for it: for a new item, and for the
array that `rehash` asks for.
-/

namespace SystemProgramming.Testlib

open SystemProgramming.CLib SystemProgramming.Library

/-- A `struct hash_item`: an allocated one, or the local variable `temp`. -/
inductive HashItem
  | item (n : Nat)
  | temp (value : Int)
  deriving DecidableEq

structure HashInterp where
  hash : Hash HashItem
  /-- The `value` of every allocated item. -/
  values : Nat → Option Int
  /-- No item from here on was ever allocated. -/
  brk : Nat
  out : String

/-- The program before its first command. -/
def HashInterp.initial : HashInterp where
  hash := ⟨0, 0, none, fun _ => none⟩
  values _ := none
  brk := 0
  out := ""

/-- The outcomes of `malloc`: null, or what is asked for with the links that happen to be
there. -/
structure HashMalloc where
  item : Option (Nat × Link (HashAddr HashItem))
  buckets : MallocArray HashItem

abbrev HashCmd := StateT HashInterp Option

/-! ### Items -/

/-- Runs a function of `hash.c`. -/
def onTable {β : Type} (prog : HashProg HashItem β) : HashCmd β := fun s =>
  (prog.run s.hash).map fun (b, hash) => (b, { s with hash := hash })

/-- The item `malloc` returns: the one asked for if it is free, else one never used. -/
def HashInterp.fresh (s : HashInterp) (n : Nat) : Nat := if (s.values n).isNone then n else s.brk

def makeHashItem (memory : Option (Nat × Link (HashAddr HashItem))) (value : Int) :
    HashCmd (Option HashItem) :=
  match memory with
  | none => pure none
  | some (asked, garbage) => fun s =>
      let n := s.fresh asked
      some (some (.item n), { s with
        hash := { s.hash with
          links := Function.update s.hash.links (.elem (.item n)) (some garbage) }
        values := Function.update s.values n (some value)
        brk := max s.brk (n + 1) })

/-- `free (hash_entry (e, struct hash_item, elem))`. -/
def freeHashItem (e : HashItem) : HashCmd Unit :=
  match e with
  | .item n => fun s =>
      if (s.values n).isSome then
        some ((), { s with
          hash := { s.hash with links := Function.update s.hash.links (.elem (.item n)) none }
          values := Function.update s.values n none })
      else none
  | .temp _ => failure

/-- `hash_entry (e, struct hash_item, elem)->value`, as far as the item is allocated. -/
def itemValue (values : Nat → Option Int) (e : HashItem) : Int :=
  match e with
  | .item n => (values n).getD 0
  | .temp value => value

def hashFunc (values : Nat → Option Int) (e : HashItem) : UInt32 := hashInt (itemValue values e)

def hashLess (values : Nat → Option Int) (a b : HashItem) : Bool :=
  itemValue values a < itemValue values b

/-- Runs a function of `hash.c` that calls `hash_func` and `hash_less`. -/
def withValues {β : Type}
    (prog : (HashItem → UInt32) → (HashItem → HashItem → Bool) → HashProg HashItem β) :
    HashCmd β := do
  let values := (← get).values
  onTable (prog (hashFunc values) (hashLess values))

/-! ### Actions -/

/-- A product of `int`s, which is not defined when it overflows. -/
def mulInt (a b : Int) : Option Int :=
  if -2 ^ 31 ≤ a * b ∧ a * b < 2 ^ 31 then some (a * b) else none

/-- `hash_action_square` and `hash_action_triple`. -/
inductive HashAction
  | square
  | triple
  deriving DecidableEq

/-- What the action makes of a value. -/
def HashAction.value (action : HashAction) (v : Int) : Option Int :=
  match action with
  | .square => mulInt v v
  | .triple => do mulInt (← mulInt v v) v

def hashAction (action : HashAction) (e : HashItem) : HashCmd Unit :=
  match e with
  | .item n => fun s => do
      let value ← action.value (← s.values n)
      return ((), { s with values := Function.update s.values n (some value) })
  | .temp _ => failure

/-! ### Output -/

def hashPrintf (text : String) : HashCmd Unit := modify fun s => { s with out := s.out ++ text }

def getItemValue (e : HashItem) : HashCmd Int :=
  match e with
  | .item n => fun s => (s.values n).map (·, s)
  | .temp value => pure value

def dumpHashLoop (fuel : Nat) : Nat → HashIterator HashItem → Bool → HashCmd Unit
  | 0, _, _ => failure
  | rounds + 1, it, first => do
      let it ← onTable (hashNext fuel it)
      match it.elem with
      | none => pure ()
      | some (.elem e) =>
          if !first then hashPrintf " "
          hashPrintf (toString (← getItemValue e))
          dumpHashLoop fuel rounds it false
      | some _ => failure

def dumpHash (fuel : Nat) : HashCmd Unit := do
  dumpHashLoop fuel fuel (← onTable hashFirst) true
  hashPrintf "\n"

/-! ### Commands -/

/-- `create_hash_object`, which does not look at what `hash_init` returns. -/
def createHashObject (fuel : Nat) (memory : MallocArray HashItem) : HashCmd Unit := do
  let _ ← onTable (hashInit fuel memory)

/-- The branches of `do_hash_command`, with their arguments. -/
inductive HashCommand
  | insert (value : Int)
  | replace (value : Int)
  | delete (value : Int)
  | find (value : Int)
  | size
  | empty
  | clear
  | apply (action : Option HashAction)
  deriving DecidableEq

def hashActionNamed (token : String) : Option HashAction :=
  match token with
  | "square" => some .square
  | "triple" => some .triple
  | _ => none

/-- The branch for `tokens[0]` and the tokens from `tokens[2]` on. -/
def hashCommand (token : String) (args : List String) : Option HashCommand :=
  match token, args with
  | "hash_insert", value :: _ => some (.insert (atoi value.toList))
  | "hash_replace", value :: _ => some (.replace (atoi value.toList))
  | "hash_delete", value :: _ => some (.delete (atoi value.toList))
  | "hash_find", value :: _ => some (.find (atoi value.toList))
  | "hash_size", _ => some .size
  | "hash_empty", _ => some .empty
  | "hash_clear", _ => some .clear
  | "hash_apply", action :: _ => some (.apply (hashActionNamed action))
  | _, _ => none

def doHashCommand (fuel : Nat) (memory : HashMalloc) (c : HashCommand) : HashCmd Unit :=
  match c with
  | .insert value => do
      match ← makeHashItem memory.item value with
      | none => pure ()
      | some item =>
          let old ← withValues fun hash less => hashInsert hash less fuel memory.buckets item
          if old.isSome then freeHashItem item
  | .replace value => do
      match ← makeHashItem memory.item value with
      | none => pure ()
      | some item =>
          match ← withValues fun hash less => hashReplace hash less fuel memory.buckets item with
          | none => pure ()
          | some old => freeHashItem old
  | .delete value => do
      match ← withValues fun hash less =>
        hashDelete hash less fuel memory.buckets (.temp value) with
      | none => pure ()
      | some found => freeHashItem found
  | .find value => do
      match ← withValues fun hash less => hashFind hash less fuel (.temp value) with
      | none => pure ()
      | some found => hashPrintf (toString (← getItemValue found) ++ "\n")
  | .size => do hashPrintf (toString (← onTable hashSize) ++ "\n")
  | .empty => do hashPrintf (if ← onTable hashEmpty then "true\n" else "false\n")
  | .clear => do
      -- `hash_destructor` frees each of them
      let items ← onTable (hashClear fuel (some fun _ => none))
      items.forM freeHashItem
  | .apply none => pure ()
  | .apply (some action) => do
      let items ← onTable (hashApply fuel)
      items.forM (hashAction action)

/-- A line of tokens, the second of which names the table. -/
def doHashLine (fuel : Nat) (tokens : List String) (memory : HashMalloc) : HashCmd Unit :=
  match tokens with
  | token :: _ :: args =>
      match hashCommand token args with
      | none => pure ()
      | some c => doHashCommand fuel memory c
  | _ => pure ()

end SystemProgramming.Testlib
