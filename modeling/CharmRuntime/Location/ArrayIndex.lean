import Mathlib.Data.Nat.Size
import CharmRuntime.Lib.Outcome

/-!
# Location.ArrayIndex

**Array indices** (`ck-core/ckarrayindex.h`, `ck-core/ckarray.h`) and the packing of an index
into an object id by `FixedArrayIndexCompressor`.

`CkArrayIndexBase` holds the index in a union of three ints and six shorts; the model keeps
the shorts and reads an int as two of them, the lower half first. An int that is read past
the end of the union comes from the memory behind the object, which is a parameter
(`beyond`).
-/

namespace CharmRuntime.Location

/-- `CK_ARRAYINDEX_MAXLEN`. -/
def ckArrayIndexMaxLen : Nat := 3

/-- `CkArrayIndex`. -/
structure CkArrayIndex where
  nInts : Nat
  dimension : Nat
  indexShorts : List (BitVec 16)
  deriving DecidableEq, Repr

/-- The two shorts an `int` overlays. -/
def shortsOf (x : BitVec 32) : List (BitVec 16) := [x.extractLsb' 0 16, x.extractLsb' 16 16]

namespace CkArrayIndex

/-- `init` of the indices of ints. -/
def init (num dims : Nat) (x y z : BitVec 32) : CkArrayIndex :=
  { nInts := num, dimension := dims, indexShorts := shortsOf x ++ shortsOf y ++ shortsOf z }

/-- `init` of the indices of shorts. -/
def initShorts (num dims : Nat) (u v w x y z : BitVec 16) : CkArrayIndex :=
  { nInts := num, dimension := dims, indexShorts := [u, v, w, x, y, z] }

/-- `CkArrayIndex1D`. -/
def index1D (i0 : BitVec 32) : CkArrayIndex := init 1 1 i0 0 0

/-- `CkArrayIndex2D`. -/
def index2D (i0 i1 : BitVec 32) : CkArrayIndex := init 2 2 i0 i1 0

/-- `CkArrayIndex3D`. -/
def index3D (i0 i1 i2 : BitVec 32) : CkArrayIndex := init 3 3 i0 i1 i2

/-- `CkArrayIndex4D`. -/
def index4D (i0 i1 i2 i3 : BitVec 16) : CkArrayIndex := initShorts 2 4 i0 i1 i2 i3 0 0

/-- `CkArrayIndex5D`. -/
def index5D (i0 i1 i2 i3 i4 : BitVec 16) : CkArrayIndex := initShorts 3 5 i0 i1 i2 i3 i4 0

/-- `CkArrayIndex6D`. -/
def index6D (i0 i1 i2 i3 i4 i5 : BitVec 16) : CkArrayIndex := initShorts 3 6 i0 i1 i2 i3 i4 i5

/-- An index built by one of the constructors. -/
inductive Standard : CkArrayIndex → Prop
  | d1 (i0 : BitVec 32) : Standard (index1D i0)
  | d2 (i0 i1 : BitVec 32) : Standard (index2D i0 i1)
  | d3 (i0 i1 i2 : BitVec 32) : Standard (index3D i0 i1 i2)
  | d4 (i0 i1 i2 i3 : BitVec 16) : Standard (index4D i0 i1 i2 i3)
  | d5 (i0 i1 i2 i3 i4 : BitVec 16) : Standard (index5D i0 i1 i2 i3 i4)
  | d6 (i0 i1 i2 i3 i4 i5 : BitVec 16) : Standard (index6D i0 i1 i2 i3 i4 i5)

/-- `indexShorts[i]`, as an `int`. -/
def short (a : CkArrayIndex) (i : Nat) : BitVec 32 := (a.indexShorts.getD i 0).signExtend 32

/-- `index[i]`; from the fourth on it is read from the memory behind the object. -/
def index (beyond : Nat → BitVec 32) (a : CkArrayIndex) (i : Nat) : BitVec 32 :=
  if i < ckArrayIndexMaxLen then a.indexShorts.getD (2 * i + 1) 0 ++ a.indexShorts.getD (2 * i) 0
  else beyond (i - ckArrayIndexMaxLen)

/-- The components of an index, as its constructor got them. -/
def component (a : CkArrayIndex) (i : Nat) : Int :=
  if a.dimension > 3 then (a.short i).toInt else (a.index (fun _ => 0) i).toInt

end CkArrayIndex

/-! ### The compressor -/

/-- The ways a routine does not return. -/
inductive Fault
  /-- `CkAssert` or `CmiAssert`. -/
  | assertion
  /-- `bound++` exceeds the largest `int`. -/
  | overflow
  deriving DecidableEq, Repr

/-- Set all bits below the highest one. -/
def smear (bound : BitVec 32) : BitVec 32 :=
  let bound := bound ||| bound.sshiftRight 1
  let bound := bound ||| bound.sshiftRight 2
  let bound := bound ||| bound.sshiftRight 4
  let bound := bound ||| bound.sshiftRight 8
  bound ||| bound.sshiftRight 16

/-- `while (bound >>= 1) ++result`, at most `fuel` rounds. -/
def countShifts : Nat → BitVec 32 → Nat
  | 0, _ => 0
  | fuel + 1, bound =>
    let bound := bound.sshiftRight 1
    if bound = 0 then 0 else countShifts fuel bound + 1

/-- `bitCount`. A positive `int` is shifted out after 31 rounds. -/
def bitCount (bound : BitVec 32) : Except Fault Nat :=
  if ¬ 0 < bound.toInt then .error .assertion
  else
    let bound := smear (bound - 1)
    if bound = BitVec.intMax 32 then .error .overflow else .ok (countShifts 31 (bound + 1))

/-- `while (bound >>= 1) ++result` until it ends, if that takes at most `fuel` rounds. -/
def shiftRounds : Nat → BitVec 32 → Option Nat
  | 0, _ => none
  | fuel + 1, bound =>
    let bound := bound.sshiftRight 1
    if bound = 0 then some 0 else (shiftRounds fuel bound).map (· + 1)

/-- `bitCount` of a positive bound, where `bound++` wraps. -/
def bitCountWrapping (fuel : Nat) (bound : BitVec 32) :
    Option Nat := shiftRounds fuel (smear (bound - 1) + 1)

open CkArrayIndex

/-- The bound of dimension `i` as `make` reads it. -/
def boundRead (beyond : Nat → BitVec 32) (bounds : CkArrayIndex) (i : Nat) : BitVec 32 :=
  if bounds.nInts ≤ 3 then bounds.index beyond i else bounds.short i

/-- `make`: the widths `bitsPerDim` of a compressor, or `none` for `NULL`. -/
def make (beyond : Nat → BitVec 32) (bounds : CkArrayIndex) : Except Fault (Option (List Nat)) :=
  if bounds.nInts = 0 then .ok none
  else do
    let bits ← (List.range bounds.dimension).mapM fun i => bitCount (boundRead beyond bounds i)
    if bits.sum > 48 then .ok none else .ok (some bits)

/-- One round of the loop in `compress`. -/
def packDim (eid : BitVec 64) (numBits : Nat) (thisDim : BitVec 32) : Except Fault (BitVec 64) :=
  if thisDim.toNat < ((1 : BitVec 64) <<< numBits).toNat then
    .ok ((eid <<< numBits) ||| thisDim.setWidth 64)
  else .error .assertion

/-- The component that `compress` reads. -/
def dimRead (idx : CkArrayIndex) (i : Nat) : BitVec 32 :=
  if idx.dimension > 3 then idx.short i else idx.index (fun _ => 0) i

/-- The element id that `compress` computes. -/
def elementId (bitsPerDim : List Nat) (idx : CkArrayIndex) : Except Fault (BitVec 64) :=
  if idx.dimension = bitsPerDim.length then
    (List.range idx.dimension).foldlM
      (fun eid i => packDim eid (bitsPerDim.getD i 0) (dimRead idx i)) 0
  else .error .assertion

/-- `ObjID(gid, eid)`. -/
def objID (gid : BitVec 32) (eid : BitVec 64) : Except Fault (BitVec 64) :=
  if (gid.signExtend 64).toNat ≤ 2 ^ 13 - 1 ∧ eid.toNat ≤ 2 ^ 48 - 1 then
    .ok ((gid.signExtend 64 <<< 48) ||| eid)
  else .error .assertion

/-- `compress`. -/
def compress (bitsPerDim : List Nat) (gid : BitVec 32) (idx : CkArrayIndex) :
    Except Fault (BitVec 64) :=
  elementId bitsPerDim idx >>= objID gid

end CharmRuntime.Location
