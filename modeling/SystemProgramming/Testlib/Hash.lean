import Mathlib.Algebra.Group.Int.Defs
import Mathlib.Algebra.Group.Nat.Defs
import SystemProgramming.Library.Mixing
import SystemProgramming.Testlib.List

/-!
`hash.c`, over any type `ε` of elements, with the functions of the caller
(`hash` and `less`, with their auxiliary data) as parameters. The memory of an
element belongs to the caller; the arrays of buckets are the table's own.
`fuel` bounds the rounds of the loops, as in `list.c`.
-/

namespace SystemProgramming.Testlib

open SystemProgramming.Library

/-- A `struct list_elem`: a sentinel of a bucket in an array, or the one in an element. -/
inductive HashAddr (ε : Type)
  | head (buckets i : Nat)
  | tail (buckets i : Nat)
  | elem (e : ε)
  deriving DecidableEq

/-- A `struct hash` and the memory; `buckets` is null after a failed allocation. -/
structure Hash (ε : Type) where
  elemCnt : Nat
  bucketCnt : Nat
  buckets : Option Nat
  links : Heap (HashAddr ε)

abbrev HashProg (ε β : Type) := StateT (Hash ε) Option β

/-- The outcome of `malloc` for an array: null, or an array with what happens to be there. -/
abbrev MallocArray (ε : Type) := Option (Nat × (HashAddr ε → Link (HashAddr ε)))

variable {ε β : Type}

/-- `&buckets[i]`. -/
def bucketAt (buckets i : Nat) : CList (HashAddr ε) := ⟨.head buckets i, .tail buckets i⟩

/-- Runs a function of `list.c`. -/
def onBuckets (prog : Prog (HashAddr ε) β) : HashProg ε β := fun h =>
  (prog.run h.links).map fun (b, links) => (b, { h with links := links })

/-- `malloc (sizeof *buckets * cnt)`. Only one array is in use when it is called. -/
def mallocBuckets (memory : MallocArray ε) (cnt : Nat) : HashProg ε (Option Nat) :=
  match memory with
  | none => pure none
  | some (asked, garbage) => fun h =>
      let buckets := if h.buckets = some asked then asked + 1 else asked
      some (some buckets, { h with
        links := fun x => match x with
          | .head b i => if b = buckets ∧ i < cnt then some (garbage x) else h.links x
          | .tail b i => if b = buckets ∧ i < cnt then some (garbage x) else h.links x
          | .elem _ => h.links x })

/-- `free (buckets)`, of an array in use; each has at least four buckets. -/
def freeBuckets (buckets : Nat) : HashProg ε Unit := fun h =>
  if (h.links (.head buckets 0)).isSome then
    some ((), { h with
      links := fun x => match x with
        | .head b _ => if b = buckets then none else h.links x
        | .tail b _ => if b = buckets then none else h.links x
        | .elem _ => h.links x })
  else none

def getBuckets : HashProg ε Nat := fun h => h.buckets.map (·, h)

variable [DecidableEq ε]

/-! ### Life cycle -/

/-- The loop of `hash_clear` over a bucket, with the elements the destructor is called for.
What a call leaves in the memory of its element is up to the caller, nothing if it is freed. -/
def clearBucketLoop (destructor : ε → Option (Link (HashAddr ε))) (bucket : CList (HashAddr ε)) :
    Nat → HashProg ε (List ε)
  | 0 => failure
  | fuel + 1 => do
      if !(← onBuckets (listEmpty bucket)) then
        match ← onBuckets (listPopFront bucket) with
        | some (.elem e) =>
            modify fun h => { h with links := Function.update h.links (.elem e) (destructor e) }
            return e :: (← clearBucketLoop destructor bucket fuel)
        | _ => failure
      else return []

/-- Returns the elements the destructor is called for. -/
def hashClear (fuel : Nat) (destructor : Option (ε → Option (Link (HashAddr ε)))) :
    HashProg ε (List ε) := do
  let buckets ← getBuckets
  let calls ← (List.range (← get).bucketCnt).mapM fun i => do
    let calls ← match destructor with
      | none => pure []
      | some destructor => clearBucketLoop destructor (bucketAt buckets i) fuel
    onBuckets (listInit (bucketAt buckets i))
    return calls
  modify fun h => { h with elemCnt := 0 }
  return calls.flatten

def hashInit (fuel : Nat) (memory : MallocArray ε) : HashProg ε Bool := do
  modify fun h => { h with elemCnt := 0, bucketCnt := 4, buckets := none }
  let buckets ← mallocBuckets memory 4
  modify fun h => { h with buckets := buckets }
  if buckets.isSome then
    let _ ← hashClear fuel none
    return true
  else return false

/-! ### Buckets -/

section Search

-- a `hash_hash_func` and a `hash_less_func` with their auxiliary data
variable (hash : ε → UInt32) (less : ε → ε → Bool)

/-- `bucket_idx` of `find_bucket`. -/
def bucketIdx (bucketCnt : Nat) (e : ε) : Nat := (hash e).toNat &&& (bucketCnt - 1)

def findBucket (e : ε) : HashProg ε (CList (HashAddr ε)) := do
  let buckets ← getBuckets
  return bucketAt buckets (bucketIdx hash (← get).bucketCnt e)

def findElemLoop (bucket : CList (HashAddr ε)) (e : ε) :
    Nat → Ptr (HashAddr ε) → Prog (HashAddr ε) (Option ε)
  | 0, _ => failure
  | fuel + 1, i =>
      if i = listEnd bucket then pure none
      else match i with
        | some (.elem hi) =>
            if !less hi e && !less e hi then pure (some hi)
            else do findElemLoop bucket e fuel (← listNext i)
        | _ => failure

def findElem (fuel : Nat) (bucket : CList (HashAddr ε)) (e : ε) : HashProg ε (Option ε) :=
  onBuckets do findElemLoop less bucket e fuel (← listBegin bucket)

/-! ### Rehashing -/

def turnOffLeast1bit (x : Nat) : Nat := x &&& (x - 1)

def isPowerOf2 (x : Nat) : Bool := x ≠ 0 && turnOffLeast1bit x = 0

/-- `while (!is_power_of_2 (new_bucket_cnt))`. -/
def powerOf2Loop : Nat → Nat → Option Nat
  | 0, _ => none
  | fuel + 1, cnt => if isPowerOf2 cnt then some cnt else powerOf2Loop fuel (turnOffLeast1bit cnt)

/-- The number of buckets `rehash` calculates. -/
def newBucketCnt (fuel elemCnt : Nat) : Option Nat :=
  let cnt := elemCnt / 2
  powerOf2Loop fuel (if cnt < 4 then 4 else cnt)

/-- The loop of `rehash` over an old bucket. -/
def moveBucketLoop (oldBucket : CList (HashAddr ε)) : Nat → Ptr (HashAddr ε) → HashProg ε Unit
  | 0, _ => failure
  | fuel + 1, elem =>
      if elem = listEnd oldBucket then pure ()
      else match elem with
        | some (.elem e) => do
            let newBucket ← findBucket hash e
            let next ← onBuckets (listNext elem)
            let _ ← onBuckets (listRemove elem)
            onBuckets (listPushFront newBucket elem)
            moveBucketLoop oldBucket fuel next
        | _ => failure

def rehash (fuel : Nat) (memory : MallocArray ε) : HashProg ε Unit := do
  let oldBuckets ← getBuckets
  let oldBucketCnt := (← get).bucketCnt
  let newBucketCnt ← liftM (newBucketCnt fuel (← get).elemCnt)
  if newBucketCnt = oldBucketCnt then return
  match ← mallocBuckets memory newBucketCnt with
  | none => return
  | some newBuckets =>
      (List.range newBucketCnt).forM fun i => onBuckets (listInit (bucketAt newBuckets i))
      modify fun h => { h with buckets := some newBuckets, bucketCnt := newBucketCnt }
      (List.range oldBucketCnt).forM fun i => do
        moveBucketLoop hash (bucketAt oldBuckets i) fuel
          (← onBuckets (listBegin (bucketAt oldBuckets i)))
      freeBuckets oldBuckets

/-! ### Search, insertion, deletion -/

def insertElem (bucket : CList (HashAddr ε)) (e : ε) : HashProg ε Unit := do
  modify fun h => { h with elemCnt := h.elemCnt + 1 }
  onBuckets (listPushFront bucket (some (.elem e)))

def removeElem (e : ε) : HashProg ε Unit := do
  modify fun h => { h with elemCnt := h.elemCnt - 1 }
  let _ ← onBuckets (listRemove (some (.elem e)))

def hashInsert (fuel : Nat) (memory : MallocArray ε) (new : ε) : HashProg ε (Option ε) := do
  let bucket ← findBucket hash new
  let old ← findElem less fuel bucket new
  if old.isNone then insertElem bucket new
  rehash hash fuel memory
  return old

def hashReplace (fuel : Nat) (memory : MallocArray ε) (new : ε) : HashProg ε (Option ε) := do
  let bucket ← findBucket hash new
  let old ← findElem less fuel bucket new
  match old with
  | none => pure ()
  | some old => removeElem old
  insertElem bucket new
  rehash hash fuel memory
  return old

def hashFind (fuel : Nat) (e : ε) : HashProg ε (Option ε) := do
  findElem less fuel (← findBucket hash e) e

def hashDelete (fuel : Nat) (memory : MallocArray ε) (e : ε) : HashProg ε (Option ε) := do
  let found ← findElem less fuel (← findBucket hash e) e
  match found with
  | none => pure ()
  | some found =>
      removeElem found
      rehash hash fuel memory
  return found

end Search

/-! ### Iteration -/

/-- The loop of `hash_apply` over a bucket. -/
def applyBucketLoop (bucket : CList (HashAddr ε)) :
    Nat → Ptr (HashAddr ε) → Prog (HashAddr ε) (List ε)
  | 0, _ => failure
  | fuel + 1, elem =>
      if elem = listEnd bucket then pure []
      else match elem with
        | some (.elem e) => do
            let next ← listNext elem
            return e :: (← applyBucketLoop bucket fuel next)
        | _ => failure

/-- The elements `hash_apply` calls its action for, in order. The action of the caller
changes its own data only. -/
def hashApply (fuel : Nat) : HashProg ε (List ε) := do
  let buckets ← getBuckets
  let calls ← (List.range (← get).bucketCnt).mapM fun i => onBuckets do
    applyBucketLoop (bucketAt buckets i) fuel (← listBegin (bucketAt buckets i))
  return calls.flatten

/-- A `struct hash_iterator`, with the index of its bucket. -/
structure HashIterator (ε : Type) where
  bucket : Nat
  elem : Ptr (HashAddr ε)

def hashFirst : HashProg ε (HashIterator ε) := do
  return ⟨0, some (bucketAt (← getBuckets) 0).head⟩

def hashNextLoop : Nat → HashIterator ε → HashProg ε (HashIterator ε)
  | 0, _ => failure
  | fuel + 1, i => do
      let buckets ← getBuckets
      if i.elem = listEnd (bucketAt buckets i.bucket) then
        let bucket := i.bucket + 1
        if bucket ≥ (← get).bucketCnt then return ⟨bucket, none⟩
        else hashNextLoop fuel ⟨bucket, ← onBuckets (listBegin (bucketAt buckets bucket))⟩
      else return i

/-- The iterator after the step; its element is what `hash_next` returns. -/
def hashNext (fuel : Nat) (i : HashIterator ε) : HashProg ε (HashIterator ε) := do
  hashNextLoop fuel { i with elem := ← onBuckets (listNext i.elem) }

/-! ### Size and hash functions -/

def hashSize : HashProg ε Nat := do return (← get).elemCnt

def hashEmpty : HashProg ε Bool := do return (← get).elemCnt = 0

def FNV_32_PRIME : UInt32 := 16777619

def FNV_32_BASIS : UInt32 := 2166136261

def hashBytes (buf : List UInt8) : UInt32 :=
  buf.foldl (fun hash byte => (hash * FNV_32_PRIME) ^^^ byte.toUInt32) FNV_32_BASIS

/-- The bytes of an `int` in memory, the lowest first. -/
def intBytes (i : Int) : List UInt8 :=
  let word := (i % 2 ^ 32).toNat
  [word, word / 2 ^ 8, word / 2 ^ 16, word / 2 ^ 24].map UInt8.ofNat

def hashInt (i : Int) : UInt32 := hashBytes (intBytes i)

def hashInt2 (i : Int32) : UInt32 :=
  let x := i.toUInt32
  let x := ((x >>> 16) ^^^ x) * 157
  let x := ((x >>> 16) ^^^ x) * 211
  (x >>> 16) ^^^ x

theorem toBitVec_hashInt2 (i : Int32) : (hashInt2 i).toBitVec =
    xorShift 16 (xorShift 16 (xorShift 16 i.toBitVec * 157#32) * 211#32) := rfl

/-- **`hash_int_2` never collides**: it is a bijection of 32-bit words. -/
theorem hashInt2_bijective : Function.Bijective hashInt2 := by
  have hshift : Function.Bijective (xorShift (w := 32) 16) :=
    (xorShift_involutive (by decide)).bijective
  -- 157 and 211 are odd, so each has an inverse modulo 2^32
  have hfirst : Function.Bijective fun x => x * 157#32 :=
    mul_bijective (d := 738624949#32) (by decide)
  have hsecond : Function.Bijective fun x => x * 211#32 :=
    mul_bijective (d := 1852331867#32) (by decide)
  have hwords := hshift.comp (hsecond.comp (hshift.comp (hfirst.comp hshift)))
  constructor
  · intro i j hij
    have heq := hwords.injective (congrArg UInt32.toBitVec hij)
    exact Int32.toBitVec_inj.mp heq
  · intro h
    obtain ⟨x, hx⟩ := hwords.surjective h.toBitVec
    exact ⟨⟨⟨x⟩⟩, UInt32.toBitVec_inj.mp hx⟩

end SystemProgramming.Testlib
