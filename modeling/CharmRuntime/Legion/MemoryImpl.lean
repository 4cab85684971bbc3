import CharmRuntime.Lib.Ranges
import CharmRuntime.Lib.Transition
import Mathlib.Data.BitVec

/-!
# Legion.MemoryImpl

`Memory::Impl`: **allocation in a memory by its free blocks**, a map from their offsets to their
lengths.

Sizes are a `size_t`, offsets and lengths an `off_t`. A size that is used is converted to the latter
each time (`toOff`); between the conversions it stands here without the overflow of a `size_t`,
which they would not see.
-/

namespace CharmRuntime.Legion

open Lib CharmRuntime.Lib.OrderedMap

/-- The conversion to `off_t`. -/
def toOff (x : Int) : Int := (BitVec.ofInt 64 x).toInt

/-- "make bad offsets really obvious (+1 PB)" -/
def zeroSizeInstanceOffset : Int := 1 <<< 50

structure MemoryImpl where
  size : Nat
  alignment : Nat
  free_blocks : OrderedMap Int Int

inductive MemoryFault
  /-- `assert((size_t)offset == this->size + ZERO_SIZE_INSTANCE_OFFSET)`. -/
  | zeroSizeOffset
  /-- `assert((offset + (off_t)size) <= after->first)`. -/
  | overlapAfter
  /-- `assert((before->first + before->second) <= offset)`. -/
  | overlapBefore
deriving DecidableEq

namespace MemoryImpl

/-- A memory is one free block. -/
def new (size alignment : Nat) : MemoryImpl where
  size := size
  alignment := alignment
  free_blocks := [(0, toOff size)]

/-- The padding of a size to the alignment. -/
def pad (m : MemoryImpl) (size : Nat) : Int :=
  if 0 < m.alignment then
    let leftover := toOff (size % m.alignment : Nat)
    if 0 < leftover then size + (m.alignment - leftover) else size
  else size

/-- The loop of `alloc_bytes_local`, which looks at the blocks behind one before it looks at this.
-/
def allocBlock (size : Int) : OrderedMap Int Int → Option (Int × OrderedMap Int Int)
  | [] => none
  | it :: behind =>
    match allocBlock size behind with
    | some (retval, behind) => some (retval, it :: behind)
    | none =>
      if it.2 = toOff size then some (it.1, behind)
      else if toOff size < it.2 then
        let leftover := toOff (it.2 - size)
        some (it.1 + leftover, (it.1, leftover) :: behind)
      else none

def allocBytesLocal (m : MemoryImpl) (size : Nat) : Int × MemoryImpl :=
  if size = 0 then (toOff (m.size + zeroSizeInstanceOffset), m)
  else
    match allocBlock (m.pad size) m.free_blocks with
    | some (retval, free_blocks) => (retval, { m with free_blocks := free_blocks })
    | none => (-1, m)

/-- "merge the ranges by eating the "after"" -/
def eatAfter (offset size : Int) (after : Int × Int) (free_blocks : OrderedMap Int Int) :
    Int × OrderedMap Int Int :=
  if offset + toOff size = after.1 then (size + after.2, erase after.1 free_blocks) else
    (size, free_blocks)

/-- "if we're adjacent with the before, grow it instead of adding a new range" -/
def growBefore (offset size : Int) (before : Int × Int) (free_blocks : OrderedMap Int Int) :
    OrderedMap Int Int :=
  if before.1 + before.2 = offset then upsert before.1
    (fun _ => toOff (before.2 + size)) free_blocks
  else upsert offset (fun _ => toOff size) free_blocks

def freeBytesLocal (m : MemoryImpl) (offset : Int) (size : Nat) :
    Except MemoryFault MemoryImpl := do
  if size = 0 then
    if BitVec.ofInt 64 offset = BitVec.ofInt 64 (m.size + zeroSizeInstanceOffset) then return m
    else throw .zeroSizeOffset
  let size := m.pad size
  match lowerBound offset m.free_blocks, lastBefore offset m.free_blocks with
  | some after, none =>
    if after.1 < offset + toOff size then throw .overlapAfter
    let (size, free_blocks) := eatAfter offset size after m.free_blocks
    return { m with free_blocks := upsert offset (fun _ => toOff size) free_blocks }
  | some after, some before =>
    if after.1 < offset + toOff size then throw .overlapAfter
    let (size, free_blocks) := eatAfter offset size after m.free_blocks
    if offset < before.1 + before.2 then throw .overlapBefore
    return { m with free_blocks := growBefore offset size before free_blocks }
  | none, some before =>
    if offset < before.1 + before.2 then throw .overlapBefore
    return { m with free_blocks := growBefore offset size before m.free_blocks }
  | none, none => return { m with free_blocks := upsert offset (fun _ => toOff size) m.free_blocks }

end MemoryImpl

/-- A memory, with the allocations that are live: their offsets, and the sizes that they were
requested with. -/
structure MemoryState where
  mem : MemoryImpl
  live : List (Int × Nat)

namespace MemoryState

def init (size alignment : Nat) : MemoryState where
  mem := .new size alignment
  live := []

inductive MemoryCall
  | alloc (size : Nat)
  | free (offset : Int) (size : Nat)

/-- An allocation that returns -1 is none. -/
def alloc (s : MemoryState) (size : Nat) : MemoryState where
  mem := (s.mem.allocBytesLocal size).2
  live := if (s.mem.allocBytesLocal size).1 =
    -1 then s.live else ((s.mem.allocBytesLocal size).1, size) :: s.live

inductive Step : MemoryState → MemoryCall → MemoryState → Prop
  | alloc {s : MemoryState} {size : Nat} : size < 2 ^ 64 → Step s (.alloc size) (s.alloc size)
  | free {s : MemoryState} {mem : MemoryImpl} {offset : Int} {size : Nat} :
      (offset, size) ∈ s.live →
      s.mem.freeBytesLocal offset size = .ok mem →
      Step s (.free offset size) ⟨mem, s.live.erase (offset, size)⟩

def memory (size alignment : Nat) : Transition MemoryState MemoryCall where
  init s := s = init size alignment
  step := Step

/-! ### What it is for -/

/-- A size rounded up to the alignment. -/
def rounded (alignment size : Nat) :
    Nat := (size + (max 1 alignment - 1)) / max 1 alignment * max 1 alignment

/-- The byte of an allocation. -/
def Takes (alignment : Nat) (a : Int × Nat) (b : Int) :
    Prop := a.1 ≤ b ∧ b < a.1 + rounded alignment a.2

/-- A byte of the memory that is in no live allocation. -/
def FreeByte (s : MemoryState) (b : Int) : Prop :=
  0 ≤ b ∧ b < s.mem.size ∧ ∀ a ∈ s.live, ¬ Takes s.mem.alignment a b

/-- A run of free bytes that is long enough for a size. -/
def FreeRun (s : MemoryState) (size : Nat) (offset : Int) : Prop :=
  ∀ b, offset ≤ b → b < offset + rounded s.mem.alignment size → s.FreeByte b

/-- An allocation takes the highest range that is entirely free: the upper end of the highest run
that is long enough. -/
def AllocatesHighest (s : MemoryState) (size : Nat) : Prop :=
  ((s.mem.allocBytesLocal size).1 = -1 ↔ ¬ ∃ offset, s.FreeRun size offset) ∧
  ((s.mem.allocBytesLocal size).1 ≠ -1 →
    (s.mem.alignment = 0 ∨ (s.mem.alignment : Int) ∣ (s.mem.allocBytesLocal size).1) ∧
    s.FreeRun size (s.mem.allocBytesLocal size).1 ∧
    ∀ offset, s.FreeRun size offset → offset ≤ (s.mem.allocBytesLocal size).1)

/-- The size is an `off_t`, or no block is as long as what it is converted to. -/
def Converts (s : MemoryState) (size : Nat) : Prop :=
  rounded s.mem.alignment size < 2 ^ 63 ∨ ∀ e ∈ s.mem.free_blocks, e.2 < toOff (s.mem.pad size)

/-- The free blocks are the runs of free bytes, allocations and frees do what they should, and those
of no bytes nothing. -/
structure Refines (s : MemoryState) : Prop where
  separated : Ranges.Separated s.mem.free_blocks
  covers : ∀ b, Ranges.Covers s.mem.free_blocks b ↔ s.FreeByte b
  allocates : ∀ size, 0 < size → size < 2 ^ 64 → s.Converts size → s.AllocatesHighest size
  frees : ∀ a ∈ s.live, ∃ mem, s.mem.freeBytesLocal a.1 a.2 = .ok mem
  zero : (s.mem.allocBytesLocal 0).2 = s.mem ∧
    s.mem.freeBytesLocal (s.mem.allocBytesLocal 0).1 0 = .ok s.mem

end MemoryState

end CharmRuntime.Legion
