import SystemProgramming.Testlib.BitmapValues
import SystemProgramming.Testlib.HashValues

/-!
What a user of the interpreter sees: sequences, sets and sequences of bits,
each with a name, and the output. `Objects.DoLine` says what a line of input may
do with them. It leaves two things open, the order in which a set is dumped and
the order that `list_shuffle` leaves.
-/

namespace SystemProgramming.Testlib

open SystemProgramming.CLib SystemProgramming.Library

/-! ### Tables -/

section Entries

variable {β : Type} (entries : Fin MAX_DS → Option (String × β))

def findEntry (name : String) : Option (Fin MAX_DS) :=
  (List.finRange MAX_DS).find? fun i => (entries i).any fun e => e.1 = name

def freeEntry : Option (Fin MAX_DS) := (List.finRange MAX_DS).find? fun i => (entries i).isNone

/-- Replaces what is in a slot, but not its name. -/
def setEntry (slot : Fin MAX_DS) (x : β) : Fin MAX_DS → Option (String × β) :=
  Function.update entries slot ((entries slot).map fun e => (e.1, x))

end Entries

structure Objects where
  /-- With all output so far. -/
  lists : Reference
  tables : Fin MAX_DS → Option (String × Finset Int)
  bitmaps : Fin MAX_DS → Option (String × List Bool)

namespace Objects

def initial : Objects := ⟨.initial, fun _ => none, fun _ => none⟩

def set (t : Objects) (slot : Fin MAX_DS) : Finset Int := (t.tables slot).elim ∅ Prod.snd

def bits (t : Objects) (slot : Fin MAX_DS) : List Bool := (t.bitmaps slot).elim [] Prod.snd

def print (t : Objects) (text : String) : Objects := { t with lists := t.lists.print text }

/-- The kinds share their names; a list hides a table, and a table a bitmap. -/
def find (t : Objects) (name : String) : Option (DsKind × Fin MAX_DS) :=
  match t.lists.find name with
  | some i => some (.list, i)
  | none =>
      match findEntry t.tables name with
      | some i => some (.hash, i)
      | none => (findEntry t.bitmaps name).map fun i => (.bitmap, i)

/-! ### Lines -/

/-- The bits of a new bitmap are off, where instructions reach them. -/
def create (t : Objects) (memory : BitmapMalloc) (tokens : List String) : Objects :=
  match tokens with
  | _ :: "list" :: name :: _ => { t with lists := t.lists.command true (.create name) }
  | _ :: "hashtable" :: name :: _ =>
      match freeEntry t.tables with
      | none => t
      | some i => { t with tables := Function.update t.tables i (some (copyName name, ∅)) }
  | _ :: "bitmap" :: name :: bitCnt :: _ =>
      match freeEntry t.bitmaps with
      | none => t
      | some i =>
          let size := sizeTOfInt (number bitCnt)
          if memory.Enough size then
            { t with bitmaps :=
                Function.update t.bitmaps i (some (copyName name, memory.extended size [])) }
          else t
  | _ => t

/-- Gives up a slot. -/
def remove (t : Objects) (kind : DsKind) (slot : Fin MAX_DS) : Objects :=
  match kind with
  | .list => { t with lists := { t.lists with lists := Function.update t.lists.lists slot none } }
  | .hash => { t with tables := Function.update t.tables slot none }
  | .bitmap => { t with bitmaps := Function.update t.bitmaps slot none }

def delete (t : Objects) (name : String) : Objects :=
  (t.find name).elim t fun found => t.remove found.1 found.2

/-- A line of numbers. -/
def numbersText (xs : List Int) : String := String.intercalate " " (xs.map toString) ++ "\n"

/-- A set is dumped in some order, each element once. -/
def DoDumpdata (t : Objects) (name : String) (t' : Objects) : Prop :=
  match t.find name with
  | some (.list, i) => t' = t.print (numbersText (t.lists.values i))
  | some (.hash, i) =>
      ∃ xs : List Int, xs.Nodup ∧ xs.toFinset = t.set i ∧ t' = t.print (numbersText xs)
  | some (.bitmap, i) => t' = t.print (BitmapMemory.bitsText (t.bits i))
  | none => t' = t

def DoListCommand (t : Objects) (o : Outcomes) (tokens : List String) (t' : Objects) : Prop :=
  match tokens with
  | token :: name :: args =>
      match t.lists.find name with
      | none => t' = t
      | some i =>
          if token = "list_shuffle" then
            ∃ xs : List Int, xs.Perm (t.lists.values i) ∧ t' = { t with lists := t.lists.set i xs }
          else
            match listCommand token args with
            | none => t' = t
            | some c => t' = { t with lists := t.lists.listCommand o.listItem.isSome i c }
  | _ => t' = t

def DoHashCommand (t : Objects) (o : Outcomes) (tokens : List String) (t' : Objects) : Prop :=
  match tokens with
  | token :: name :: args =>
      match findEntry t.tables name with
      | none => t' = t
      | some i =>
          match hashCommand token args with
          | none => t' = t
          | some c =>
              let tables := setEntry t.tables i (c.leaves o.hash.item.isSome (t.set i))
              t' = print { t with tables := tables } (c.prints (t.set i))
  | _ => t' = t

def DoBitmapCommand (t : Objects) (o : Outcomes) (tokens : List String) (t' : Objects) : Prop :=
  match tokens with
  | token :: name :: args =>
      match findEntry t.bitmaps name with
      | none => t' = t
      | some i =>
          match bitmapCommand token args with
          | none => t' = t
          | some c =>
              let bitmaps := setEntry t.bitmaps i (c.leaves o.bitmap (t.bits i))
              ∃ text, c.Prints (t.bits i) text ∧ t' = print { t with bitmaps := bitmaps } text
  | _ => t' = t

/-- What a line of input may do. -/
def DoLine (t : Objects) (line : Line) (t' : Objects) : Prop :=
  match line.1 with
  | [] => t' = t
  | "create" :: args => t' = t.create line.2.bitmap ("create" :: args)
  | "delete" :: name :: _ => t' = t.delete name
  | "dumpdata" :: name :: _ => t.DoDumpdata name t'
  | token :: args =>
      if Main.startsWith "list_" token then t.DoListCommand line.2 (token :: args) t'
      else if Main.startsWith "hash_" token then t.DoHashCommand line.2 (token :: args) t'
      else if Main.startsWith "bitmap_" token then t.DoBitmapCommand line.2 (token :: args) t'
      else t' = t

end Objects

/-! ### The objects of the program -/

/-- A slot is as an entry says. -/
def DsObj.Matches {β γ : Type} (P : β → γ → Prop) (obj : DsObj β) :
    Option (String × γ) → Prop
  | none => obj.used = false
  | some (name, x) => obj.used = true ∧ obj.name = name ∧ P obj.obj x

/-- The table is searchable, and has the values of the set. -/
def HashInterp.Shows (s : HashInterp) (V : Finset Int) : Prop := s.Searchable ∧ s.Stores V

def BitmapSlot.Shows (b : BitmapSlot) (bits : List Bool) : Prop := b.memory.Shows b.bitmap bits

/-- The program has the objects that a user sees. -/
structure Store.Shows (s : Store) (t : Objects) : Prop where
  lists : ∃ items, Represents s.lists t.lists items
  tables : ∀ i, (s.hashes i).Matches HashInterp.Shows (t.tables i)
  bitmaps : ∀ i, (s.bitmaps i).Matches BitmapSlot.Shows (t.bitmaps i)

/-- A legal line. `hash_apply`, too, leaves a table in which its values can be found. -/
structure LineSound (s : Store) (line : Line) : Prop extends LineLegal s line where
  compatible : ∀ token name args action, line.1 = token :: name :: args →
    hashCommand token args = some (.apply (some action)) →
      ∀ i, findHash s name = some i → (s.hashes i).obj.Compatible action

/-! ### Slots -/

section Slots

variable {β γ : Type} {P : β → γ → Prop} {objs : Fin MAX_DS → DsObj β}
  {entries : Fin MAX_DS → Option (String × γ)} {i : Fin MAX_DS} {name : String}

theorem findUsed_eq (h : ∀ i, (objs i).Matches P (entries i)) (name : String) :
    findUsed objs name = findEntry entries name := by
  rw [findUsed, findEntry]
  congr 1
  funext i
  have hi := h i
  cases he : entries i with
  | none =>
      rw [he] at hi
      simp [show (objs i).used = false from hi]
  | some e =>
      rw [he] at hi
      obtain ⟨hused, hname, -⟩ := hi
      simp [hused, hname]

theorem findEmpty_eq (h : ∀ i, (objs i).Matches P (entries i)) :
    findEmpty objs = freeEntry entries := by
  rw [findEmpty, freeEntry]
  congr 1
  funext i
  have hi := h i
  cases he : entries i with
  | none =>
      rw [he] at hi
      simp [show (objs i).used = false from hi]
  | some e =>
      rw [he] at hi
      simp [hi.1]

theorem DsObj.Matches.of_unused {obj : DsObj β} (hused : obj.used = false) :
    obj.Matches P none := hused

/-- A slot in use has an entry. -/
theorem DsObj.Matches.of_used {obj : DsObj β} {entry : Option (String × γ)}
    (h : obj.Matches P entry) (hused : obj.used = true) :
    ∃ x, entry = some (obj.name, x) ∧ P obj.obj x := by
  cases entry with
  | none => exact absurd ((show obj.used = false from h).symm.trans hused) Bool.false_ne_true
  | some e =>
      obtain ⟨name, x⟩ := e
      obtain ⟨-, rfl, hP⟩ := h
      exact ⟨x, rfl, hP⟩

theorem matches_update (h : ∀ i, (objs i).Matches P (entries i)) {slot : Fin MAX_DS}
    {obj : DsObj β} {entry : Option (String × γ)} (hslot : obj.Matches P entry) (i : Fin MAX_DS) :
    (Function.update objs slot obj i).Matches P (Function.update entries slot entry i) := by
  rcases eq_or_ne i slot with rfl | hi
  · rw [Function.update_self, Function.update_self]
    exact hslot
  · rw [Function.update_of_ne hi, Function.update_of_ne hi]
    exact h i

end Slots

end SystemProgramming.Testlib
