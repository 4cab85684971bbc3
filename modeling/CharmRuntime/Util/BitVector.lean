import CharmRuntime.Lib.Outcome
import CharmRuntime.Lib.WordBits

/-!
# Util.BitVector

`CkBitVector`: a string of bits in an array of 32-bit words. Bit `0` is the least
significant one; the most significant bit sits in the highest bit of the first word,
and the words behind the last bit of the string are padding.

`prio_t` is `Nat` here, reduced modulo `2 ^ 32` where the source's arithmetic may wrap.
The null pointer is the empty array: it is null exactly when the vector has no bits.
A shift of a word by 32 or more is undefined in the source and is the error
`undefinedShift` here.
-/

namespace CharmRuntime.Util

open Lib

abbrev Word := BitVec 32

/-- `CkBitVector`. -/
structure CkBitVector where
  usedBits : Nat
  data : List Word
  deriving Repr, DecidableEq

/-- Why an operation does not return. -/
inductive BitAbort
  /-- "User asked for a bit vector too large for the number of choices specified!" -/
  | valueTooLarge
  /-- "CkBitVector Union operands must be of the same length!" and its siblings. -/
  | differentLength
  /-- A word shifted by its width or more: undefined behaviour. -/
  | undefinedShift
  deriving Repr, DecidableEq

/-- `chunkBits()`. -/
def chunkBits : Nat := 32

/-- `chunks(n)`: the words that hold `n` bits. -/
def chunks (n : Nat) : Nat := (n + (chunkBits - 1)) % 2 ^ 32 / chunkBits

/-- `x << n` on a word. -/
def shl (x : Word) (n : Nat) : Except BitAbort Word :=
  if n < chunkBits then .ok (x <<< n) else .error .undefinedShift

/-- `x >> n` on a word. -/
def shr (x : Word) (n : Nat) : Except BitAbort Word :=
  if n < chunkBits then .ok (x >>> n) else .error .undefinedShift

namespace CkBitVector

/-- `CkBitVector()`, and what `wipeData()` leaves. -/
def empty : CkBitVector := ⟨0, []⟩

/-- `CkBitVector(bits)`. -/
def ofSize (bits : Nat) : CkBitVector := ⟨bits, List.replicate (chunks bits) 0#32⟩

/-- The loop of `ilog2(val)` from `log` on; `1u << 32` is undefined. -/
def ilog2Loop (val : Nat) : Nat → Nat → Except BitAbort Nat
  | 0, _ => .error .undefinedShift
  | todo + 1, log => if val > 2 ^ log then ilog2Loop val todo (log + 1) else .ok log

/-- `ilog2(val)`. -/
def ilog2 (val : Nat) : Except BitAbort Nat :=
  if val ≠ 0 then ilog2Loop val chunkBits 0 else .ok 0

/-- `CkBitVector(value, choices)`. -/
def ofChoice (value choices : Nat) : Except BitAbort CkBitVector :=
  if value ≥ choices then .error .valueTooLarge
  else do
    let usedBits ← ilog2 choices
    if usedBits ≠ 0 then
      let x ← shl (BitVec.ofNat 32 value) (chunkBits - usedBits)
      return ⟨usedBits, [x]⟩
    else return ⟨0, []⟩

/-- `Length()`. -/
def length (v : CkBitVector) : Nat := v.usedBits

/-- `offset(bit)`: the word that holds a bit. -/
def offset (v : CkBitVector) (bit : Nat) : Nat := chunks (v.usedBits - bit) - 1

/-- `mask(bit)`: the place of a bit in its word. -/
def mask (v : CkBitVector) (bit : Nat) : Word :=
  1#32 <<< ((chunkBits - v.usedBits % chunkBits + bit % chunkBits) % chunkBits)

/-- `Test(bit)`. -/
def test (v : CkBitVector) (bit : Nat) : Bool :=
  if (bit + 1) % 2 ^ 32 > v.usedBits then false
  else decide (v.data.getD (v.offset bit) 0#32 &&& v.mask bit ≠ 0#32)

/-- `Zero()`. -/
def zero (v : CkBitVector) : CkBitVector := { v with data := v.data.map (fun _ => 0#32) }

/-- `Invert()`. -/
def invert (v : CkBitVector) : CkBitVector :=
  if v.data = [] then v
  else
    let data := v.data.map (~~~ ·)
    if v.usedBits % chunkBits ≠ 0 then
      let i := chunks v.usedBits - 1
      let x := data.getD i 0#32 &&& (BitVec.allOnes 32 <<< (chunkBits - v.usedBits % chunkBits))
      { v with data := data.set i x }
    else { v with data := data }

/-- The body of the loop of `ShiftUp` at word `i`. -/
def shiftUpWord (n whole rem i : Nat) (data : List Word) : Except BitAbort (List Word) :=
  if i + whole < n then do
    let x ← shl (data.getD (i + whole) 0#32) rem
    let data := data.set i x
    if i + whole + 1 < n then
      let y ← shr (data.getD (i + whole + 1) 0#32) (chunkBits - rem)
      return data.set i (data.getD i 0#32 ||| y)
    else return data
  else return data.set i 0#32

/-- The loop of `ShiftUp`: `todo` words from word `i` on. -/
def shiftUpLoop (n whole rem : Nat) : Nat → Nat → List Word → Except BitAbort (List Word)
  | 0, _, data => .ok data
  | todo + 1, i, data => do
      let data ← shiftUpWord n whole rem i data
      shiftUpLoop n whole rem todo (i + 1) data

/-- `ShiftUp(bits)`. -/
def shiftUp (v : CkBitVector) (bits : Nat) : Except BitAbort CkBitVector :=
  if v.data = [] ∨ bits = 0 then .ok v
  else do
    let n := chunks v.usedBits
    let data ← shiftUpLoop n (bits / chunkBits) (bits % chunkBits) n 0 v.data
    return { v with data := data }

/-- The body of the loop of `ShiftDown` at word `i`. -/
def shiftDownWord (n whole rem i : Nat) (data : List Word) : Except BitAbort (List Word) :=
  if whole ≤ i then do
    let x ← shr (data.getD (i - whole) 0#32) rem
    let data := data.set i x
    -- `i-whole-1 < chunks(usedBits)` compares as unsigned: `-1` is not below
    if ((i : Int) - whole - 1) % 2 ^ 32 < n then
      let y ← shl (data.getD (i - whole - 1) 0#32) (chunkBits - rem)
      return data.set i (data.getD i 0#32 ||| y)
    else return data
  else return data.set i 0#32

/-- The loop of `ShiftDown`: the words below the given one, from the last down. -/
def shiftDownLoop (n whole rem : Nat) : Nat → List Word → Except BitAbort (List Word)
  | 0, data => .ok data
  | i + 1, data => do
      let data ← shiftDownWord n whole rem i data
      shiftDownLoop n whole rem i data

/-- `ShiftDown(bits)`. -/
def shiftDown (v : CkBitVector) (bits : Nat) : Except BitAbort CkBitVector :=
  if v.data = [] ∨ bits = 0 then .ok v
  else do
    let n := chunks v.usedBits
    let data ← shiftDownLoop n (bits / chunkBits) (bits % chunkBits) n v.data
    return { v with data := data }

/-- `Resize(bits)`: growth moves the bits down to where they were, shrinking moves the
wanted ones to the front. -/
def resize (v : CkBitVector) (bits : Nat) : Except BitAbort CkBitVector :=
  if bits = v.usedBits then .ok v
  else if v.data = [] then .ok ⟨bits, List.replicate (chunks bits) 0#32⟩
  else if bits = 0 then .ok empty
  else if bits > v.usedBits then
    let data := v.data.take (chunks v.usedBits) ++
      List.replicate (chunks bits - chunks v.usedBits) 0#32
    shiftDown ⟨bits, data⟩ (bits - v.usedBits)
  else do
    let v' ← shiftUp v (v.usedBits - bits)
    return ⟨bits, v'.data.take (chunks bits)⟩

/-- `Clear(bit)`. -/
def clear (v : CkBitVector) (bit : Nat) : Except BitAbort CkBitVector :=
  if (bit + 1) % 2 ^ 32 > v.usedBits then v.resize ((bit + 1) % 2 ^ 32)
  else
    let x := v.data.getD (v.offset bit) 0#32 &&& ~~~ (v.mask bit)
    .ok { v with data := v.data.set (v.offset bit) x }

/-- `Set(bit)`. -/
def set (v : CkBitVector) (bit : Nat) : Except BitAbort CkBitVector := do
  let v ← if (bit + 1) % 2 ^ 32 > v.usedBits then v.resize ((bit + 1) % 2 ^ 32) else .ok v
  let x := v.data.getD (v.offset bit) 0#32 ||| v.mask bit
  return { v with data := v.data.set (v.offset bit) x }

/-- The common shape of `Union`, `Intersection` and `Difference`. -/
def combine (op : Word → Word → Word) (v b : CkBitVector) : Except BitAbort CkBitVector :=
  if v.usedBits ≠ b.usedBits then .error .differentLength
  else if v.data = [] ∨ b.data = [] then .ok v
  else .ok { v with data := List.zipWith op v.data b.data }

/-- `Union(b)`. -/
def union (v b : CkBitVector) : Except BitAbort CkBitVector := combine (· ||| ·) v b

/-- `Intersection(b)`. -/
def intersection (v b : CkBitVector) : Except BitAbort CkBitVector := combine (· &&& ·) v b

/-- `Difference(b)`. -/
def difference (v b : CkBitVector) : Except BitAbort CkBitVector :=
  combine (fun x y => x &&& ~~~ y) v b

/-- `Concat(b)`. -/
def concat (v b : CkBitVector) : Except BitAbort CkBitVector :=
  if v.data = [] then .ok b
  else do
    let total := (v.usedBits + b.usedBits) % 2 ^ 32
    let tmp ← b.resize total
    let v ← v.resize total
    let v ← v.shiftUp b.usedBits
    v.union tmp

/-- The loop of `Compare(b)`: the first pair of words that differ, else `result`. -/
def compareLoop : List Word → List Word → Int → Int
  | x :: xs, y :: ys, result => if x > y then 1 else if x < y then -1 else compareLoop xs ys result
  | _, _, result => result

/-- `Compare(b)`: the words that both have, then the lengths. -/
def compare (v b : CkBitVector) : Int :=
  if v.usedBits > b.usedBits then
    compareLoop (v.data.take (chunks b.usedBits)) (b.data.take (chunks b.usedBits)) 1
  else if v.usedBits < b.usedBits then
    compareLoop (v.data.take (chunks v.usedBits)) (b.data.take (chunks v.usedBits)) (-1)
  else compareLoop (v.data.take (chunks v.usedBits)) (b.data.take (chunks v.usedBits)) 0

end CkBitVector

end CharmRuntime.Util
