import CharmRuntime.Lib.MemVal
import CharmRuntime.Lib.Outcome
import Mathlib.Data.BitVec

/-!
# Util.CkSequence

`CkSequence<int>`: **a set of non-negative integers that is compacted**. The elements are inserted
as bits; `Compact` turns the bits into sub-sequences, strided ones for three or more elements with
equal distances, and random ones, that are bits again, for what is between. Behind that the sequence
is iterated over, and packed and unpacked.

Reading behind the end of a bit vector is a fault. So is an allocation that fails: `max_+1`
overflows for the largest `int`, and then a negative number of bytes is asked for.
-/

namespace CharmRuntime.Util

open Lib

inductive SequenceFault
  | outOfRange
  | noMemory
  /-- What is unpacked is not what was packed. -/
  | badStream
deriving DecidableEq

/-- A number as an `int`. -/
def wrap32 (x : Int) : Int := (BitVec.ofInt 32 x).toInt

abbrev CharVector := List (BitVec 8)

/-- `IsSet(a, ind)`. -/
def isSet (a : CharVector) (ind : Nat) : Except SequenceFault Bool :=
  match a[ind / 8]? with
  | some b => .ok (b &&& (1#8 <<< (ind % 8)) ≠ 0)
  | none => .error .outOfRange

/-- `Set(a, ind)`. -/
def setBit (a : CharVector) (ind : Nat) : Except SequenceFault CharVector :=
  match a[ind / 8]? with
  | some b => .ok (a.set (ind / 8) (b ||| (1#8 <<< (ind % 8))))
  | none => .error .outOfRange

/-- The bytes of a bit vector, `(max_+1)/CHAR_SIZE + 1`, if they can be allocated. -/
def numBytes (max : Nat) : Except SequenceFault Nat :=
  let n := (wrap32 (max + 1)).tdiv 8 + 1
  if n < 0 then .error .noMemory else .ok n.toNat

/-! ### The sub-sequences and their iterators -/

structure RandomSequence where
  /-- `num_elements_`, which not every constructor sets. -/
  num_elements : List MemVal
  start : Nat
  min : Nat
  max : Nat
  bit_vector : CharVector

structure StridedSequence where
  start_element : Int
  stride : Int
  last_element : Int

inductive SequenceInternal
  | random (s : RandomSequence)
  | strided (s : StridedSequence)

inductive IteratorInternal
  | bitVector (bit_vector : CharVector) (start index max : Nat)
  | strided (element stride : Int)

/-- The loop of `BitVectorIterator` over bits that are not set. -/
def skipUnset (bit_vector : CharVector) (max index : Nat) : Except SequenceFault Nat :=
  if index < max + 1 then do
    if ← isSet bit_vector index then return index
    skipUnset bit_vector max (index + 1)
  else .ok index
termination_by max + 1 - index

namespace IteratorInternal

def newBitVector (bit_vector : CharVector) (start index max : Nat) :
    Except SequenceFault IteratorInternal := do
  return .bitVector bit_vector start (← skipUnset bit_vector max index) max

/-- `operator*`. -/
def deref : IteratorInternal → Int
  | .bitVector _ start index _ => (start + index : Nat)
  | .strided element _ => element

/-- `operator++`. -/
def next : IteratorInternal → Except SequenceFault IteratorInternal
  | .bitVector bit_vector start index max => newBitVector bit_vector start (index + 1) max
  | .strided element stride => .ok (.strided (wrap32 (element + stride)) stride)

/-- `operator==` of two iterators of one sequence. -/
def isEq : IteratorInternal → IteratorInternal → Bool
  | .bitVector _ _ index _, .bitVector _ _ index' _ => index = index'
  | .strided element _, .strided element' _ => element = element'
  | _, _ => false

end IteratorInternal

/-- The constructor of `RandomSequence` from some bits of a vector: whole bytes of it. -/
def RandomSequence.new (bit_vector : CharVector) (start last : Nat) :
    Except SequenceFault RandomSequence := do
  let min := start % 8
  let max := min + (last - start)
  let n ← numBytes max
  if bit_vector.length < start / 8 + n then throw .outOfRange
  return ⟨List.replicate 4 .blank, start - min, min, max, (bit_vector.drop (start / 8)).take n⟩

namespace SequenceInternal

def begin : SequenceInternal → Except SequenceFault IteratorInternal
  | .random s => IteratorInternal.newBitVector s.bit_vector s.start s.min s.max
  | .strided s => .ok (.strided s.start_element s.stride)

def last : SequenceInternal → Except SequenceFault IteratorInternal
  | .random s => IteratorInternal.newBitVector s.bit_vector s.start (s.max + 1) s.max
  | .strided s => .ok (.strided (wrap32 (s.last_element + s.stride)) 0)

end SequenceInternal

/-! ### The sequence -/

structure CkSequence where
  min : Nat
  max : Nat
  num_elements : Nat
  compact : Bool
  bit_vector : CharVector
  subsequence_list : List SequenceInternal

namespace CkSequence

/-- The constructor from a range of elements. -/
def new (elements : List Nat) : Except SequenceFault CkSequence :=
  match elements with
  | [] => .ok ⟨0, 0, 0, false, [], []⟩
  | first :: _ => do
      let max := elements.foldl (fun max it => if max < it then it else max) 0
      let min := elements.foldl (fun min it => if it < min then it else min) first
      let bit_vector := List.replicate (← numBytes max) 0#8
      return ⟨min, max, elements.length, false, ← elements.foldlM setBit bit_vector, []⟩

/-- The variables of `Compact`. -/
structure CompactState where
  seq_begin_ele : Nat
  prev_ele : Nat
  prev_prev_ele : Nat
  prev_prev_prev_ele : Nat
  end_stride : Nat
  start_random : Nat
  stride : Int
  is_strided : Bool
  subsequence_list : List SequenceInternal

/-- `CreateStridedSequence`. -/
def CompactState.strided (st : CompactState) : SequenceInternal :=
  .strided ⟨st.seq_begin_ele, st.stride, st.end_stride⟩

/-- What the loop of `Compact` does with an element. -/
def compactStep (bit_vector : CharVector) (st : CompactState) (i : Nat) :
    Except SequenceFault CompactState := do
  let tmp_stride : Int := (i : Int) - st.prev_ele
  if tmp_stride = st.stride then
    let st ←
      if !st.is_strided ∧ st.seq_begin_ele ≠ st.prev_prev_ele then do
        let random ← RandomSequence.new bit_vector st.seq_begin_ele st.prev_prev_prev_ele
        pure { st with
          subsequence_list := st.subsequence_list ++ [.random random]
          seq_begin_ele := st.prev_prev_ele }
      else pure st
    return { st with
      is_strided := true
      end_stride := i
      prev_prev_prev_ele := st.prev_prev_ele
      prev_prev_ele := st.prev_ele
      stride := tmp_stride
      prev_ele := i }
  else
    let (st, tmp_stride) :=
      if st.is_strided then
        ({ st with
          subsequence_list := st.subsequence_list ++ [st.strided]
          seq_begin_ele := i
          prev_prev_prev_ele := i
          prev_prev_ele := i }, -1)
      else (st, tmp_stride)
    return { st with
      start_random := i
      is_strided := false
      prev_prev_prev_ele := st.prev_prev_ele
      prev_prev_ele := st.prev_ele
      stride := tmp_stride
      prev_ele := i }

/-- The loop of `Compact` from `i` on. -/
def compactLoop (bit_vector : CharVector) (max i : Nat) (st : CompactState) :
    Except SequenceFault CompactState :=
  if i ≤ max then do
    if ← isSet bit_vector i then
      compactLoop bit_vector max (i + 1) (← compactStep bit_vector st i)
    else compactLoop bit_vector max (i + 1) st
  else .ok st
termination_by max + 1 - i

/-- `DoneInserting`, that is `Compact`. -/
def doneInserting (s : CkSequence) : Except SequenceFault CkSequence := do
  let m := s.min
  let st ← compactLoop s.bit_vector s.max (m + 1) ⟨m, m, m, m, m, m, -1, false, s.subsequence_list⟩
  let last ←
    if st.is_strided then pure st.strided
    else
      SequenceInternal.random <$>
        RandomSequence.new s.bit_vector st.seq_begin_ele st.start_random
  return { s with
    compact := true
    bit_vector := []
    subsequence_list := st.subsequence_list ++ [last] }

/-! ### Iteration -/

/-- `CkSequenceIterator` of a compact sequence: where it is, the end of that sub-sequence, and the
ones behind it. -/
abbrev Iterator := Option (IteratorInternal × IteratorInternal × List SequenceInternal)

/-- The iterator at the begin of some sub-sequences. -/
def atBegin : List SequenceInternal → Except SequenceFault Iterator
  | [] => .ok none
  | s :: rest => do return some (← s.begin, ← s.last, rest)

/-- `operator++`. -/
def advance (it it_end : IteratorInternal) (rest : List SequenceInternal) :
    Except SequenceFault Iterator := do
  let it ← it.next
  if it.isEq it_end then atBegin rest else return some (it, it_end, rest)

/-- What an iterator yields up to the end. -/
inductive Yields : Iterator → List Int → Prop
  | done : Yields none []
  | next {it it_end : IteratorInternal} {rest : List SequenceInternal} {i : Iterator}
  {l : List Int} :
      advance it it_end rest = .ok i → Yields i l → Yields (some (it, it_end, rest)) (it.deref :: l)

/-- What a compact sequence yields from `begin()` to `end()`. -/
def Iterates (s : CkSequence) (l : List Int) : Prop :=
  s.compact = true ∧ ∃ i, atBegin s.subsequence_list = .ok i ∧ Yields i l

/-! ### Packing -/

/-- `PUParray` of a bit vector. -/
def packBits (bit_vector : CharVector) (max : Nat) : Except SequenceFault (List MemVal) := do
  let n ← numBytes max
  if bit_vector.length < n then throw .outOfRange
  return (bit_vector.take n).map fun b => .byte ⟨b⟩

def packInt (x : Int) : List MemVal := MemVal.encodeInt 4 x

/-- The type of a sub-sequence and its `pup`. -/
def packInternal : SequenceInternal → Except SequenceFault (List MemVal)
  | .random s => do
      return packInt 0 ++ s.num_elements ++ packInt s.start ++ packInt s.min ++ packInt s.max ++
        (← packBits s.bit_vector s.max)
  | .strided s =>
    .ok (packInt 1 ++ packInt s.start_element ++ packInt s.stride ++ packInt s.last_element)

/-- `pup` to a stream. -/
def pack (s : CkSequence) : Except SequenceFault (List MemVal) := do
  let bits ← if s.compact then pure [] else packBits s.bit_vector s.max
  let subsequences ← s.subsequence_list.mapM packInternal
  return packInt s.min ++ packInt s.max ++ packInt s.num_elements ++
    MemVal.encodeInt 1 (if s.compact then 1 else 0) ++
    bits ++ packInt s.subsequence_list.length ++ subsequences.flatten

/-- Bytes from a stream, and the rest of it. -/
def unpackBytes (n : Nat) (stream : List MemVal) :
    Except SequenceFault (List MemVal × List MemVal) :=
  if stream.length < n then .error .badStream else .ok (stream.take n, stream.drop n)

def unpackNum (n : Nat) (stream : List MemVal) : Except SequenceFault (Int × List MemVal) := do
  let (bytes, stream) ← unpackBytes n stream
  match MemVal.decodeInt n bytes with
  | some x => return (x, stream)
  | none => throw .badStream

def unpackInt (stream : List MemVal) : Except SequenceFault (Int × List MemVal) :=
  unpackNum 4 stream

def unpackByte : MemVal → Except SequenceFault (BitVec 8)
  | .byte b => .ok b.toBitVec
  | _ => .error .badStream

def unpackBits (max : Nat) (stream : List MemVal) :
    Except SequenceFault (CharVector × List MemVal) := do
  let n ← numBytes max
  let (bytes, stream) ← unpackBytes n stream
  return (← bytes.mapM unpackByte, stream)

def unpackInternal (stream : List MemVal) :
    Except SequenceFault (SequenceInternal × List MemVal) := do
  let (type, stream) ← unpackInt stream
  if type = 1 then
    let (start_element, stream) ← unpackInt stream
    let (stride, stream) ← unpackInt stream
    let (last_element, stream) ← unpackInt stream
    return (.strided ⟨start_element, stride, last_element⟩, stream)
  else
    let (num_elements, stream) ← unpackBytes 4 stream
    let (start, stream) ← unpackInt stream
    let (min, stream) ← unpackInt stream
    let (max, stream) ← unpackInt stream
    let (bit_vector, stream) ← unpackBits max.toNat stream
    return (.random ⟨num_elements, start.toNat, min.toNat, max.toNat, bit_vector⟩, stream)

def unpackInternals : Nat → List MemVal → Except SequenceFault (List SequenceInternal × List MemVal)
  | 0, stream => .ok ([], stream)
  | size + 1, stream => do
      let (s, stream) ← unpackInternal stream
      let (rest, stream) ← unpackInternals size stream
      return (s :: rest, stream)

/-- `pup` from a stream into a sequence that has no sub-sequences. -/
def unpack (stream : List MemVal) : Except SequenceFault CkSequence := do
  let (min, stream) ← unpackInt stream
  let (max, stream) ← unpackInt stream
  let (num_elements, stream) ← unpackInt stream
  let (compact, stream) ← unpackNum 1 stream
  let (bit_vector, stream) ← if compact = 0 then unpackBits max.toNat stream else pure ([], stream)
  let (size, stream) ← unpackInt stream
  let (subsequence_list, _) ← unpackInternals size.toNat stream
  return ⟨min.toNat, max.toNat, num_elements.toNat, compact ≠ 0, bit_vector, subsequence_list⟩

end CkSequence

end CharmRuntime.Util
