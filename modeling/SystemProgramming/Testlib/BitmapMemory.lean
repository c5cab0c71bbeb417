import Mathlib.Algebra.Group.Int.Defs
import SystemProgramming.Testlib.BitmapFaults
import SystemProgramming.Testlib.BitmapQueries

/-!
The functions of `bitmap.c` that allocate: `bitmap_create`, `bitmap_destroy` and
`bitmap_expand`. A block of memory is known by the number of the call of
`malloc` that returned it, and no number is given twice; so a block is freed
at most once, and what is freed stays freed.

`malloc` may return null, for no bytes too; what it returns otherwise holds
whatever was there.
-/

namespace SystemProgramming.Testlib

open SystemProgramming.Library

/-! ### Memory -/

/-- A `struct bitmap`. -/
structure BitmapCell where
  bitCnt : Nat
  bits : Option Nat

/-- The blocks that are allocated and not freed. -/
structure BitmapMemory where
  cells : Nat → Option BitmapCell
  arrays : Nat → Option (List ElemType)
  /-- The number of the next block. -/
  brk : Nat
  unused : ∀ q, brk ≤ q → cells q = none ∧ arrays q = none

/-- Why a program on this memory stops, or its result. -/
abbrev BitmapProg := StateT BitmapMemory (Except Fault)

/-- The outcome of the two calls of `malloc` in `bitmap_create`: null, or a block with what
happens to be there. -/
structure BitmapMalloc where
  cell : Option BitmapCell
  bits : Option (Nat → ElemType)

namespace BitmapMemory

def empty : BitmapMemory := ⟨fun _ => none, fun _ => none, 0, fun _ _ => ⟨rfl, rfl⟩⟩

def withCell (s : BitmapMemory) (q : Nat) (hq : q < s.brk) (cell : Option BitmapCell) :
    BitmapMemory where
  cells := Function.update s.cells q cell
  arrays := s.arrays
  brk := s.brk
  unused r hr := by
    rw [Function.update_of_ne (by omega)]
    exact s.unused r hr

def withArray (s : BitmapMemory) (a : Nat) (ha : a < s.brk) (bits : Option (List ElemType)) :
    BitmapMemory where
  cells := s.cells
  arrays := Function.update s.arrays a bits
  brk := s.brk
  unused r hr := by
    rw [Function.update_of_ne (by omega)]
    exact s.unused r hr

/-- One more block. -/
def grow (s : BitmapMemory) : BitmapMemory where
  cells := s.cells
  arrays := s.arrays
  brk := s.brk + 1
  unused r hr := s.unused r (Nat.le_of_succ_le hr)

theorem lt_brk_of_cell {s : BitmapMemory} {q : Nat} {cell : BitmapCell}
    (h : s.cells q = some cell) : q < s.brk := by
  by_contra hle
  rw [(s.unused q (Nat.le_of_not_lt hle)).1] at h
  cases h

theorem lt_brk_of_array {s : BitmapMemory} {a : Nat} {bits : List ElemType}
    (h : s.arrays a = some bits) : a < s.brk := by
  by_contra hle
  rw [(s.unused a (Nat.le_of_not_lt hle)).2] at h
  cases h

end BitmapMemory

/-! ### Access -/

def mallocCell (memory : Option BitmapCell) : BitmapProg (Option Nat) :=
  match memory with
  | none => pure none
  | some garbage => fun s =>
      .ok (some s.brk, s.grow.withCell s.brk (Nat.lt_succ_self _) (some garbage))

/-- `malloc (byte_cnt (bit_cnt))`. -/
def mallocBits (memory : Option (Nat → ElemType)) (bitCnt : Nat) : BitmapProg (Option Nat) :=
  match memory with
  | none => pure none
  | some content => fun s =>
      .ok (some s.brk, s.grow.withArray s.brk (Nat.lt_succ_self _)
        (some ((List.range (elemCnt bitCnt)).map content)))

/-- `*b`. -/
def getCell (b : Option Nat) : BitmapProg BitmapCell := fun s =>
  match b.bind s.cells with
  | some cell => .ok (cell, s)
  | none => .error .access

def setCell (b : Option Nat) (cell : BitmapCell) : BitmapProg Unit := fun s =>
  match b with
  | none => .error .access
  | some q =>
      match h : s.cells q with
      | none => .error .access
      | some _ => .ok ((), s.withCell q (BitmapMemory.lt_brk_of_cell h) (some cell))

/-- The elements `bits` points to, none if it is null. -/
def getBits (bits : Option Nat) : BitmapProg (List ElemType) := fun s =>
  match bits with
  | none => .ok ([], s)
  | some a =>
      match s.arrays a with
      | none => .error .access
      | some bits => .ok (bits, s)

def setBits (a : Option Nat) (bits : List ElemType) : BitmapProg Unit := fun s =>
  match a with
  | none => .ok ((), s)
  | some a =>
      match h : s.arrays a with
      | none => .error .access
      | some _ => .ok ((), s.withArray a (BitmapMemory.lt_brk_of_array h) (some bits))

/-- `free (b)`. -/
def freeCell (b : Option Nat) : BitmapProg Unit := fun s =>
  match b with
  | none => .ok ((), s)
  | some q =>
      match h : s.cells q with
      | none => .error .access
      | some _ => .ok ((), s.withCell q (BitmapMemory.lt_brk_of_cell h) none)

/-- `free (b->bits)`. -/
def freeBits (bits : Option Nat) : BitmapProg Unit := fun s =>
  match bits with
  | none => .ok ((), s)
  | some a =>
      match h : s.arrays a with
      | none => .error .access
      | some _ => .ok ((), s.withArray a (BitmapMemory.lt_brk_of_array h) none)

/-- Runs a function that reads a bitmap. -/
def readBitmap {β : Type} (b : Option Nat) (f : Bitmap → Except Fault β) : BitmapProg β := do
  let cell ← getCell b
  let bits ← getBits cell.bits
  liftM (f ⟨cell.bitCnt, bits⟩)

/-- Runs a function that changes the bits of a bitmap. -/
def changeBitmap {β : Type} (b : Option Nat) (f : Bitmap → Except Fault (β × Bitmap)) :
    BitmapProg β := do
  let cell ← getCell b
  let bits ← getBits cell.bits
  let (result, b') ← liftM (f ⟨cell.bitCnt, bits⟩)
  setBits cell.bits b'.bits
  return result

/-- The same for a function without a result. -/
def updateBitmap (b : Option Nat) (f : Bitmap → Except Fault Bitmap) : BitmapProg Unit :=
  changeBitmap b fun b => do return ((), ← f b)

/-! ### Allocation -/

/-- Conversion of an `int` to `size_t`. -/
def sizeTOfInt (v : Int) : Nat := (v % 2 ^ 64).toNat

def bitmapSize (b : Option Nat) : BitmapProg Nat := do return (← getCell b).bitCnt

def bitmapCreate (memory : BitmapMalloc) (bitCnt : Nat) : BitmapProg (Option Nat) := do
  let b ← mallocCell memory.cell
  if b.isSome then
    let bits ← mallocBits memory.bits bitCnt
    setCell b ⟨bitCnt, bits⟩
    if bits.isSome || bitCnt = 0 then
      updateBitmap b fun b => Checked.setAll b false
      return b
    freeCell b
  return none

def bitmapDestroy (b : Option Nat) : BitmapProg Unit := do
  if b.isSome then
    freeBits (← getCell b).bits
    freeCell b

/-- The loop of `bitmap_expand` with `old_size - i` rounds to go. -/
def expandLoop (bitmap new : Option Nat) : Nat → Nat → BitmapProg Unit
  | 0, _ => pure ()
  | rounds + 1, i => do
      let value ← readBitmap bitmap fun b => Checked.test b i
      updateBitmap new fun b => Checked.set b i value
      expandLoop bitmap new rounds (i + 1)

def bitmapExpand (memory : BitmapMalloc) (bitmap : Option Nat) (size : Int) :
    BitmapProg (Option Nat) := do
  let oldSize ← bitmapSize bitmap
  let newSize := sizeT (oldSize + sizeTOfInt size)
  let new ← bitmapCreate memory newSize
  if new.isNone then return none
  expandLoop bitmap new oldSize 0
  bitmapDestroy bitmap
  return new

/-! ### Stored bitmaps -/

namespace BitmapMemory

/-- The elements `bits` points to. -/
def elems (s : BitmapMemory) (bits : Option Nat) : Option (List ElemType) :=
  match bits with
  | none => some []
  | some a => s.arrays a

/-- The bitmap `b` is at `p`, its elements are at `a`. -/
structure Stored (s : BitmapMemory) (p : Nat) (a : Option Nat) (b : Bitmap) : Prop where
  cell : s.cells p = some ⟨b.bitCnt, a⟩
  bits : s.elems a = some b.bits

/-- Nothing but the elements at `a` differs. -/
structure SameBut (a : Option Nat) (s s' : BitmapMemory) : Prop where
  cells : s'.cells = s.cells
  arrays : ∀ r, some r ≠ a → s'.arrays r = s.arrays r

/-- No element of the one is an element of the other. -/
def Apart (a c : Option Nat) : Prop := ∀ r, a = some r → c ≠ some r

variable {s s' : BitmapMemory} {p : Nat} {a c : Option Nat} {b b' : Bitmap}

theorem SameBut.refl (a : Option Nat) (s : BitmapMemory) : SameBut a s s := ⟨rfl, fun _ _ => rfl⟩

theorem SameBut.trans {s₁ s₂ s₃ : BitmapMemory} (h12 : SameBut a s₁ s₂) (h23 : SameBut a s₂ s₃) :
    SameBut a s₁ s₃ :=
  ⟨h23.cells.trans h12.cells, fun r hr => (h23.arrays r hr).trans (h12.arrays r hr)⟩

theorem Stored.frame (hb : Stored s p a b) (hsame : SameBut c s s') (hapart : Apart a c) :
    Stored s' p a b := by
  refine ⟨by rw [hsame.cells, hb.cell], ?_⟩
  cases a with
  | none => exact hb.bits
  | some r => exact (hsame.arrays r fun h => hapart r rfl h.symm).trans hb.bits

theorem Stored.congr (hb : Stored s p a b) (hcells : s'.cells = s.cells)
    (harrays : s'.arrays = s.arrays) : Stored s' p a b := by
  refine ⟨by rw [hcells, hb.cell], ?_⟩
  have hbits := hb.bits
  unfold elems at hbits ⊢
  rwa [harrays]

/-! ### Calls on a stored bitmap -/

theorem Stored.run_getCell (hb : Stored s p a b) :
    (getCell (some p)).run s = .ok (⟨b.bitCnt, a⟩, s) := by
  simp only [StateT.run, getCell, Option.bind_some, hb.cell]

theorem Stored.run_bitmapSize (hb : Stored s p a b) :
    (bitmapSize (some p)).run s = .ok (b.bitCnt, s) := by
  rw [bitmapSize, run_bind_of_ok hb.run_getCell]
  rfl

theorem Stored.run_getBits (hb : Stored s p a b) : (getBits a).run s = .ok (b.bits, s) := by
  have hbits := hb.bits
  cases a with
  | none =>
      obtain hnil : [] = b.bits := Option.some.inj hbits
      rw [← hnil]
      rfl
  | some r =>
      have harray : s.arrays r = some b.bits := hbits
      simp only [StateT.run, getBits, harray]

theorem Stored.run_read {β : Type} {f : Bitmap → Except Fault β} {result : β}
    (hb : Stored s p a b) (hf : f b = .ok result) :
    (readBitmap (some p) f).run s = .ok (result, s) := by
  rw [readBitmap, run_bind_of_ok hb.run_getCell, run_bind_of_ok hb.run_getBits, hf]
  rfl

theorem Stored.run_read_error {β : Type} {f : Bitmap → Except Fault β} {fault : Fault}
    (hb : Stored s p a b) (hf : f b = .error fault) :
    (readBitmap (some p) f).run s = .error fault := by
  rw [readBitmap, run_bind_of_ok hb.run_getCell, run_bind_of_ok hb.run_getBits, hf]
  rfl

theorem Stored.run_setBits (hb : Stored s p a b) (hcnt : b'.bitCnt = b.bitCnt)
    (hlen : b'.bits.length = b.bits.length) :
    ∃ s', (setBits a b'.bits).run s = .ok ((), s') ∧ Stored s' p a b' ∧ SameBut a s s' ∧
      s'.brk = s.brk := by
  have hbits := hb.bits
  cases a with
  | none =>
      obtain hnil : [] = b.bits := Option.some.inj hbits
      have hnil' : b'.bits = [] := List.length_eq_zero_iff.mp (by rw [hlen, ← hnil]; rfl)
      refine ⟨s, rfl, ⟨by rw [hb.cell, hcnt], ?_⟩, .refl _ _, rfl⟩
      rw [hnil']
      rfl
  | some r =>
      have harray : s.arrays r = some b.bits := hbits
      refine ⟨s.withArray r (lt_brk_of_array harray) (some b'.bits), ?_, ⟨?_, ?_⟩, ⟨rfl, ?_⟩, rfl⟩
      · simp only [StateT.run, setBits]
        split
        · simp_all
        · rfl
      · rw [hcnt]
        exact hb.cell
      · exact Function.update_self ..
      · intro r' hr'
        exact Function.update_of_ne (fun h => hr' (congrArg some h)) ..

theorem Stored.run_change {β : Type} {f : Bitmap → Except Fault (β × Bitmap)} {result : β}
    (hb : Stored s p a b) (hf : f b = .ok (result, b')) (hcnt : b'.bitCnt = b.bitCnt)
    (hlen : b'.bits.length = b.bits.length) :
    ∃ s', (changeBitmap (some p) f).run s = .ok (result, s') ∧ Stored s' p a b' ∧
      SameBut a s s' ∧ s'.brk = s.brk := by
  obtain ⟨s', hset, hrest⟩ := hb.run_setBits hcnt hlen
  refine ⟨s', ?_, hrest⟩
  rw [changeBitmap, run_bind_of_ok hb.run_getCell, run_bind_of_ok hb.run_getBits]
  rw [run_bind_of_ok (a := (result, b')) (t := s) (by rw [hf]; rfl), run_bind_of_ok hset]
  rfl

theorem Stored.run_change_error {β : Type} {f : Bitmap → Except Fault (β × Bitmap)}
    {fault : Fault} (hb : Stored s p a b) (hf : f b = .error fault) :
    (changeBitmap (some p) f).run s = .error fault := by
  rw [changeBitmap, run_bind_of_ok hb.run_getCell, run_bind_of_ok hb.run_getBits, hf]
  rfl

theorem Stored.run_update (hb : Stored s p a b) {f : Bitmap → Except Fault Bitmap}
    (hf : f b = .ok b') (hcnt : b'.bitCnt = b.bitCnt) (hlen : b'.bits.length = b.bits.length) :
    ∃ s', (updateBitmap (some p) f).run s = .ok ((), s') ∧ Stored s' p a b' ∧
      SameBut a s s' ∧ s'.brk = s.brk :=
  hb.run_change (bind_eq_ok.mpr ⟨b', hf, rfl⟩) hcnt hlen

theorem Stored.run_update_error {f : Bitmap → Except Fault Bitmap} {fault : Fault}
    (hb : Stored s p a b) (hf : f b = .error fault) :
    (updateBitmap (some p) f).run s = .error fault :=
  hb.run_change_error (by rw [hf]; rfl)

end BitmapMemory

end SystemProgramming.Testlib
