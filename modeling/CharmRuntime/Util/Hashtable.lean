import CharmRuntime.Lib.Outcome
import CharmRuntime.Lib.Probe

/-!
# Util.Hashtable

`CkHashtable`: a hash table with linear probing that grows to the next prime of a fixed
list, and its iterator. Keys and objects are of any type; the hash and compare functions
that the source takes as pointers are a `KeyFns`.

`put` returns a pointer to the object's storage, into which the caller stores the object:
here the object is an argument. The load factor is an exact rational below one, where
the source has a `float`. The length of a table and the size of its storage,
`layout.entrySize()*len` bytes, are `int`s: a table that is too long for either is an
abort.
-/

namespace CharmRuntime.Util

open Lib

/-- `CkHashFunction` and `CkHashCompare`. -/
structure KeyFns (K : Type) where
  hash : K → Nat
  compare : K → K → Bool

/-- `compare` is an equivalence and `hash` respects it. -/
structure KeyFns.Lawful {K : Type} (F : KeyFns K) : Prop where
  refl : ∀ a, F.compare a a = true
  symm : ∀ a b, F.compare a b = true → F.compare b a = true
  trans : ∀ a b c, F.compare a b = true → F.compare b c = true → F.compare a c = true
  hash_eq : ∀ a b, F.compare a b = true → F.hash a = F.hash b

/-- `loadFactor`, strictly between zero and one. -/
structure LoadFactor where
  num : Nat
  den : Nat
  pos : 0 < num
  lt : num < den

/-- What ends a call. -/
inductive HashAbort
  /-- `CmiAbort("  No spot found!\n")`. -/
  | noSpot
  /-- The length of the table or the size of its storage does not fit an `int`. -/
  | tooLong
  /-- A loop that goes on forever. -/
  | diverges
  deriving Repr, DecidableEq

/-- The source's list of table lengths. -/
def doublingPrimes : List Nat :=
  [3, 7, 17, 37, 73, 157, 307, 617, 1217, 2417, 4817, 9677, 20117, 40177, 80177, 160117, 320107,
   640007, 1280107, 2560171, 5120117, 10000079, 20000077, 40000217, 80000111, 160000177, 320000171,
   640000171, 1280000017, 2560000217, 4200000071]

/-- The first of them above `x`. -/
def primeLargerThan (x : Nat) : Nat := (doublingPrimes.find? (fun p => x < p)).getD 0

/-- Table lengths are positive `int`s. -/
def maxLen : Nat := 2 ^ 31

/-- `CkHashtable`; of `layout` only the size of an entry matters. -/
structure CkHashtable (K V : Type) where
  entrySize : Nat
  len : Nat
  table : Nat → Option (K × V)
  nObj : Nat
  resizeAt : Nat
  loadFactor : LoadFactor

namespace CkHashtable

variable {K V : Type} (F : KeyFns K)

/-- The length and the size in bytes of `newLen` slots are `int`s. -/
abbrev Fits (t : CkHashtable K V) (newLen : Nat) : Prop :=
  newLen < maxLen ∧ t.entrySize * newLen < maxLen

/-- The table with `newLen` empty slots. -/
def cleared (t : CkHashtable K V) (newLen : Nat) : CkHashtable K V :=
  { t with
    len := newLen
    resizeAt := newLen * t.loadFactor.num / t.loadFactor.den
    table := fun _ => none }

/-- `buildTable(newLen)`. -/
def buildTable (t : CkHashtable K V) (newLen : Nat) : Except HashAbort (CkHashtable K V) :=
  if t.Fits newLen then .ok (t.cleared newLen) else .error .tooLong

/-- The constructor. -/
def create (entrySize initLen : Nat) (loadFactor : LoadFactor) :
    Except HashAbort (CkHashtable K V) :=
  buildTable
    { entrySize, len := 0, table := fun _ => none, nObj := 0, resizeAt := 0, loadFactor } initLen

/-- The loop that `findKey` and `findEntry` share. -/
def search (t : CkHashtable K V) (key : K) : Scan :=
  let start := F.hash key % t.len
  scan t.len t.table (fun e => F.compare key e.1) start t.len start

/-- `findKey(key)`: the slot of the key, if it is there. -/
def findKey (t : CkHashtable K V) (key : K) : Option Nat :=
  match search F t key with
  | .found i => some i
  | .empty _ => none
  | .full => none

/-- `findEntry(key)`: the slot of the key, or an empty one for it. -/
def findEntry (t : CkHashtable K V) (key : K) : Except HashAbort Nat :=
  match search F t key with
  | .found i => .ok i
  | .empty i => .ok i
  | .full => .error .noSpot

/-- The loop of `rehash`: the old slots from `i` on go to the new table. -/
def rehashLoop (old : Nat → Option (K × V)) :
    Nat → Nat → CkHashtable K V → Except HashAbort (CkHashtable K V)
  | 0, _, t => .ok t
  | todo + 1, i, t =>
    match old i with
    | none => rehashLoop old todo (i + 1) t
    | some e => do
        let dest ← findEntry F t e.1
        rehashLoop old todo (i + 1) { t with table := Function.update t.table dest (some e) }

/-- `rehash(newLen)`. -/
def rehash (t : CkHashtable K V) (newLen : Nat) : Except HashAbort (CkHashtable K V) := do
  let u ← t.buildTable newLen
  rehashLoop F t.table t.len 0 u

/-- The growth at the start of `put`, if there is one, fits. -/
def Grows (t : CkHashtable K V) : Prop :=
  t.resizeAt ≤ t.nObj → t.Fits (primeLargerThan t.len)

/-- The growth at the start of `put`. -/
def grow (t : CkHashtable K V) : Except HashAbort (CkHashtable K V) :=
  if t.nObj ≥ t.resizeAt then rehash F t (primeLargerThan t.len) else .ok t

/-- The rest of `put(key, &existing)`, and the caller's store of `obj`. -/
def fill (t : CkHashtable K V) (key : K) (obj : V) :
    Except HashAbort (CkHashtable K V × Bool) := do
  let ent ← findEntry F t key
  match t.table ent with
  | none =>
    return ({ t with nObj := t.nObj + 1
                     table := Function.update t.table ent (some (key, obj)) }, false)
  | some e =>
    return ({ t with table := Function.update t.table ent (some (e.1, obj)) }, true)

/-- `put(key, &existing)`: the table and `existing`. -/
def put (t : CkHashtable K V) (key : K) (obj : V) :
    Except HashAbort (CkHashtable K V × Bool) := do
  let t ← grow F t
  fill F t key obj

/-- `get(key)`. -/
def get (t : CkHashtable K V) (key : K) : Option V :=
  match findKey F t key with
  | none => none
  | some i => (t.table i).map Prod.snd

/-- `CkHashtableT::get(key)`, which has no check for the way around: `none` while it is
still searching. -/
def getT (t : CkHashtable K V) (fuel : Nat) (key : K) : Option (Option V) :=
  match scanOn t.len t.table (fun e => F.compare key e.1) fuel (F.hash key % t.len) with
  | none => none
  | some (.found i) => some ((t.table i).map Prod.snd)
  | some (.empty _) => some none
  | some .full => some none

/-- The loop of `remove` that puts the entries behind slot `i` again. -/
def removeLoop : Nat → Nat → CkHashtable K V → Except HashAbort (CkHashtable K V)
  | 0, _, _ => .error .diverges
  | fuel + 1, i, t =>
    let i := incSlot t.len i
    match t.table i with
    | none => .ok t
    | some e => do
        let dest ← findEntry F t e.1
        if i ≠ dest then
          removeLoop fuel i
            { t with table := Function.update (Function.update t.table dest (some e)) i none }
        else removeLoop fuel i t

/-- `remove(key)`: the number of keys removed. The loop gets as many rounds as there are
slots. -/
def remove (t : CkHashtable K V) (key : K) : Except HashAbort (CkHashtable K V × Nat) :=
  match findKey F t key with
  | none => .ok (t, 0)
  | some doomed => do
      let t ← removeLoop F t.len doomed
        { t with nObj := t.nObj - 1, table := Function.update t.table doomed none }
      return (t, 1)

/-- `empty()`. -/
def empty (t : CkHashtable K V) : CkHashtable K V :=
  { t with table := fun _ => none, nObj := 0 }

/-- `numObjects()`. -/
def numObjects (t : CkHashtable K V) : Nat := t.nObj

/-! ### Iterators -/

/-- The loop of `CkHashtableIterator::next`: the next entry from slot `curNo` on, and the
new `curNo`. -/
def nextLoop (t : CkHashtable K V) : Nat → Nat → Option ((K × V) × Nat)
  | 0, _ => none
  | todo + 1, curNo =>
    match t.table curNo with
    | some e => some (e, curNo + 1)
    | none => nextLoop t todo (curNo + 1)

/-- `CkHashtableIterator::next`. -/
def next (t : CkHashtable K V) (curNo : Nat) : Option ((K × V) × Nat) :=
  t.nextLoop (t.len - curNo) curNo

/-- `while (NULL != it->next()) ...` from slot `curNo` on: what the iterator visits. -/
def visitFrom (t : CkHashtable K V) : Nat → Nat → List (K × V)
  | 0, _ => []
  | fuel + 1, curNo =>
    match t.next curNo with
    | none => []
    | some (e, curNo) => e :: visitFrom t fuel curNo

/-- What a new iterator visits. -/
def visit (t : CkHashtable K V) : List (K × V) := t.visitFrom (t.len + 1) 0

end CkHashtable

end CharmRuntime.Util
