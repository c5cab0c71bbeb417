import SystemProgramming.Library.Runs
import SystemProgramming.Testlib.BitmapCommands
import SystemProgramming.Testlib.HashCommands
import SystemProgramming.Testlib.ListCommands
import SystemProgramming.Testlib.ListShuffle

/-!
The whole interpreter of `main.c`: the tables of the three kinds, `create`,
`delete` and `dumpdata`, which look for a name in all of them, and the commands
of the kinds.

A command works on one hash table or one bitmap at a time, and `malloc` never
returns memory in use. So each hash table and each bitmap has a memory of its
own here; the lists share one, for `list_splice` and `list_unique` move items
from one to another.

A line comes with what `malloc` and `rand` do for it. A failed `ASSERT`, an
access to memory that is not there and a loop that runs on end in `none`.
-/

namespace SystemProgramming.Testlib

open SystemProgramming.CLib SystemProgramming.Library

/-! ### State -/

/-- A slot of `hashes` or `bitmaps`. -/
structure DsObj (β : Type) where
  name : String
  used : Bool
  obj : β

/-- `bitmaps[i].bitmap` and its memory. -/
structure BitmapSlot where
  memory : BitmapMemory
  bitmap : Option Nat

/-- The variables of `main.c`, and what was printed. -/
structure Store where
  /-- With all output so far. -/
  lists : Interp
  hashes : Fin MAX_DS → DsObj HashInterp
  bitmaps : Fin MAX_DS → DsObj BitmapSlot

/-- The program before its first command. -/
def Store.initial : Store where
  lists := .initial
  hashes _ := ⟨"", false, .initial⟩
  bitmaps _ := ⟨"", false, .empty, none⟩

/-- What the C library does for a line. -/
structure Outcomes where
  listItem : Malloc
  hash : HashMalloc
  bitmap : BitmapMalloc
  rand : Nat → Nat

abbrev Line := List String × Outcomes

abbrev MainProg := StateT Store Option

def onLists {β : Type} (cmd : Cmd β) : MainProg β := fun s =>
  (cmd.run s.lists).map fun (b, lists) => (b, { s with lists := lists })

/-- Runs a command on `hashes[idx].hash`. -/
def onHash {β : Type} (idx : Fin MAX_DS) (cmd : HashCmd β) : MainProg β := fun s =>
  (cmd.run { (s.hashes idx).obj with out := s.lists.out }).map fun (b, obj) => (b, { s with
    lists := { s.lists with out := obj.out }
    hashes := Function.update s.hashes idx { s.hashes idx with obj := obj } })

/-- Runs a function of `bitmap.c` on the memory of `bitmaps[idx].bitmap`. -/
def onBitmap {β : Type} (idx : Fin MAX_DS) (prog : BitmapProg β) : MainProg β := fun s =>
  (prog.run (s.bitmaps idx).obj.memory).toOption.map fun (b, memory) => (b, { s with
    bitmaps := Function.update s.bitmaps idx
      { s.bitmaps idx with obj := { (s.bitmaps idx).obj with memory := memory } } })

def setHash (idx : Fin MAX_DS) (f : DsObj HashInterp → DsObj HashInterp) : MainProg Unit :=
  modify fun s => { s with hashes := Function.update s.hashes idx (f (s.hashes idx)) }

def setBitmap (idx : Fin MAX_DS) (f : DsObj BitmapSlot → DsObj BitmapSlot) : MainProg Unit :=
  modify fun s => { s with bitmaps := Function.update s.bitmaps idx (f (s.bitmaps idx)) }

/-! ### Names -/

section Names

variable {β : Type} (objs : Fin MAX_DS → DsObj β)

/-- A function that `DEFINE_FIND_USED_FUNC` defines. -/
def findUsed (name : String) : Option (Fin MAX_DS) :=
  (List.finRange MAX_DS).find? fun i => (objs i).used && (objs i).name = name

/-- A function that `DEFINE_FIND_EMPTY_FUNC` defines. -/
def findEmpty : Option (Fin MAX_DS) := (List.finRange MAX_DS).find? fun i => !(objs i).used

end Names

def findHash (s : Store) (name : String) : Option (Fin MAX_DS) := findUsed s.hashes name

def findBitmap (s : Store) (name : String) : Option (Fin MAX_DS) := findUsed s.bitmaps name

def findEmptyHashSlot (s : Store) : Option (Fin MAX_DS) := findEmpty s.hashes

def findEmptyBitmapSlot (s : Store) : Option (Fin MAX_DS) := findEmpty s.bitmaps

/-- `enum ds_kind`, without `DS_NONE`. -/
inductive DsKind
  | list
  | hash
  | bitmap
  deriving DecidableEq

def findObject (s : Store) (name : String) : Option (DsKind × Fin MAX_DS) :=
  match findList s.lists.lists name with
  | some i => some (.list, i)
  | none =>
      match findHash s name with
      | some i => some (.hash, i)
      | none => (findBitmap s name).map fun i => (.bitmap, i)

/-! ### Destruction and dumps -/

/-- `hash_destroy`, with the elements the destructor is called for. -/
def hashDestroy {ε : Type} [DecidableEq ε] (fuel : Nat)
    (destructor : Option (ε → Option (Link (HashAddr ε)))) : HashProg ε (List ε) := do
  let calls ← match destructor with
    | none => pure []
    | some destructor => hashClear fuel (some destructor)
  match (← get).buckets with
  | none => pure ()
  | some buckets => freeBuckets buckets
  return calls

def dumpBitmapLoop (bitmap : Option Nat) : Nat → Nat → BitmapProg String
  | 0, _ => pure ""
  | rounds + 1, i => do
      let bit ← readBitmap bitmap fun b => Checked.test b i
      return (if bit then "1" else "0") ++ (← dumpBitmapLoop bitmap rounds (i + 1))

/-- What `dump_bitmap` prints. -/
def dumpBitmap (bitmap : Option Nat) : BitmapProg String := do
  return (← dumpBitmapLoop bitmap (← bitmapSize bitmap) 0) ++ "\n"

namespace Main

def destroyHash (fuel : Nat) (idx : Fin MAX_DS) : MainProg Unit := do
  onHash idx do
    -- `hash_destructor` frees each of them
    let items ← onTable (hashDestroy fuel (some fun _ => none))
    items.forM freeHashItem
  setHash idx fun obj => { obj with used := false }

def destroyBitmap (idx : Fin MAX_DS) : MainProg Unit := do
  onBitmap idx (bitmapDestroy ((← get).bitmaps idx).obj.bitmap)
  setBitmap idx fun obj => { obj with used := false }

/-! ### Creation -/

/-- `hash_init` is called when the slot is in use already. -/
def createHashObject (fuel : Nat) (memory : MallocArray HashItem) (name : String) :
    MainProg Unit := do
  match findEmptyHashSlot (← get) with
  | none => pure ()
  | some idx =>
      setHash idx fun obj => { obj with used := true, name := copyName name }
      onHash idx (Testlib.createHashObject fuel memory)

def createBitmapObject (memory : BitmapMalloc) (name : String) (bitCnt : Int) :
    MainProg Unit := do
  match findEmptyBitmapSlot (← get) with
  | none => pure ()
  | some idx =>
      let bitmap ← onBitmap idx (bitmapCreate memory (sizeTOfInt bitCnt))
      setBitmap idx fun obj => { obj with obj := { obj.obj with bitmap := bitmap } }
      if bitmap.isSome then
        setBitmap idx fun obj => { obj with used := true, name := copyName name }

def doCreate (fuel : Nat) (o : Outcomes) (tokens : List String) : MainProg Unit :=
  match tokens with
  | _ :: "list" :: name :: _ => onLists (createListObject name)
  | _ :: "hashtable" :: name :: _ => createHashObject fuel o.hash.buckets name
  | _ :: "bitmap" :: name :: bitCnt :: _ => createBitmapObject o.bitmap name (number bitCnt)
  | _ => pure ()

def doDelete (fuel : Nat) (name : String) : MainProg Unit := do
  match findObject (← get) name with
  | some (.list, i) => onLists (destroyList fuel i)
  | some (.hash, i) => destroyHash fuel i
  | some (.bitmap, i) => destroyBitmap i
  | none => pure ()

def doDumpdata (fuel : Nat) (name : String) : MainProg Unit := do
  match findObject (← get) name with
  | some (.list, i) => onLists (dumpList fuel i)
  | some (.hash, i) => onHash i (dumpHash fuel)
  | some (.bitmap, i) => onLists (printf (← onBitmap i (dumpBitmap ((← get).bitmaps i).obj.bitmap)))
  | none => pure ()

/-! ### Commands -/

def doListCommand (fuel : Nat) (o : Outcomes) (tokens : List String) : MainProg Unit :=
  match tokens with
  | token :: name :: args => do
      match findList (← get).lists.lists name with
      | none => pure ()
      | some i =>
          if token = "list_shuffle" then
            onLists (onLinks (listShuffle fuel (listAt i) o.rand))
          else
            match listCommand token args with
            | none => pure ()
            | some c => onLists (Testlib.doListCommand fuel o.listItem i c)
  | _ => pure ()

def doHashCommand (fuel : Nat) (o : Outcomes) (tokens : List String) : MainProg Unit :=
  match tokens with
  | token :: name :: args => do
      match findHash (← get) name with
      | none => pure ()
      | some i =>
          match hashCommand token args with
          | none => pure ()
          | some c => onHash i (Testlib.doHashCommand fuel o.hash c)
  | _ => pure ()

def doBitmapCommand (o : Outcomes) (tokens : List String) : MainProg Unit :=
  match tokens with
  | token :: name :: args => do
      match findBitmap (← get) name with
      | none => pure ()
      | some i =>
          match bitmapCommand token args with
          | none => pure ()
          | some c =>
              let bitmap := ((← get).bitmaps i).obj.bitmap
              let (text, bitmap) ← onBitmap i (Testlib.doBitmapCommand o.bitmap bitmap c)
              setBitmap i fun obj => { obj with obj := { obj.obj with bitmap := bitmap } }
              onLists (printf text)
  | _ => pure ()

/-- `!strncmp (token, prefix, strlen (prefix))`. -/
def startsWith (start token : String) : Bool := start.toList.isPrefixOf token.toList

/-- A line of input with its tokens, other than `quit`. -/
def doLine (fuel : Nat) (o : Outcomes) (tokens : List String) : MainProg Unit :=
  match tokens with
  | [] => pure ()
  | "create" :: _ => doCreate fuel o tokens
  | "delete" :: name :: _ => doDelete fuel name
  | "dumpdata" :: name :: _ => doDumpdata fuel name
  | token :: _ =>
      if startsWith "list_" token then doListCommand fuel o tokens
      else if startsWith "hash_" token then doHashCommand fuel o tokens
      else if startsWith "bitmap_" token then doBitmapCommand o tokens
      else pure ()

def cleanupAllObjects (fuel : Nat) : MainProg Unit :=
  (List.finRange MAX_DS).forM fun i => do
    if ((← get).lists.lists i).used then onLists (destroyList fuel i)
    if ((← get).hashes i).used then destroyHash fuel i
    if ((← get).bitmaps i).used then destroyBitmap i

/-- One round of the loop of `main`. -/
def step (fuel : Nat) (s : Store) (line : Line) : Option Store :=
  ((doLine fuel line.2 line.1).run s).map Prod.snd

/-- The state at the end of the program for the lines of the input. -/
def main (fuel : Nat) (lines : List Line) : Option Store :=
  (exec (step fuel) (lines.takeWhile fun line => line.1.head? ≠ some "quit") .initial).bind
    fun s => ((cleanupAllObjects fuel).run s).map Prod.snd

end Main

end SystemProgramming.Testlib
