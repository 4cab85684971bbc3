import CharmRuntime.Lib.AddrSpace
import CharmRuntime.Lib.Transition
import CharmRuntime.Isomalloc.Blocks

/-!
# Isomalloc.BlockList

**Lists of isomalloc'd blocks** and their migration (`conv-core/isomalloc.c`, without
the memory pool, on a 64-bit machine).

A block is mapped at the address of its first slot; a header of 16 bytes there holds
the slot and the length, and the block's pointer is behind the header. The blocks of
a list are linked in a circle through the two words at their pointers. An aligned
block may be moved inside its slots, with a copy of its header
(`_isomallocAlign`). Packing goes by the header, unpacking by the slot alone.

`int` and `size_t` sizes are exact numbers: calls are made with sizes below `2^31`
(`Call.Ok`).
-/

namespace CharmRuntime.Isomalloc

open Lib

/-- Where the slots are: multiples of the page size. -/
structure Layout where
  isomallocStart : Int
  slotsize : Int
  slotsize_pos : 0 < slotsize
  start_page : (64 : Int) ∣ isomallocStart
  slotsize_page : (64 : Int) ∣ slotsize

namespace Layout

/-- `slot2addr`. -/
def slot2addr (L : Layout) (slot : Int) : Int := L.isomallocStart + L.slotsize * slot

/-- `length2slots`; a header has 16 bytes. -/
def length2slots (L : Layout) (nBytes : Int) : Int := (16 + nBytes + L.slotsize - 1) / L.slotsize

end Layout

/-- The memory and the slot set of a processor. -/
structure PeHeap where
  mem : AddrSpace
  myss : Blocks

/-- What `get_slots` may return: the start of a block with enough slots. -/
def GetSlots (myss : Blocks) (n s : Int) : Prop := ∃ b ∈ myss, b.startslot = s ∧ n ≤ b.nslots

/-- `block2pointer`. -/
def block2pointer (blk : Int) : Int := blk + 16

/-- `pointer2block`. -/
def pointer2block (ptr : Int) : Int := ptr - 16

/-! ### Allocation -/

section

variable (L : Layout)

/-- `CmiIsomalloc`; `s` is what `get_slots` returns. -/
def isomalloc (s size : Int) (h : PeHeap) : Option (Int × PeHeap) := do
  let n := L.length2slots size
  let myss ← (h.myss.grabSlots s n).toOption
  let blk := L.slot2addr s
  let mem := h.mem.map blk (L.slotsize * n)
  let mem ← mem.store8 blk s
  let mem ← mem.store8 (blk + 8) size
  some (block2pointer blk, { mem, myss })

/-- `CmiIsomallocFree`. The slots are the caller's own, so `all_slotOP` is the local
operation. -/
def isomallocFree (ptr : Int) (h : PeHeap) : Option PeHeap := do
  let s ← h.mem.load8 (pointer2block ptr)
  let length ← h.mem.load8 (pointer2block ptr + 8)
  let n := L.length2slots length
  some { mem := h.mem.unmap (L.slot2addr s) (L.slotsize * n), myss := h.myss.freeSlots s n }

/-- `while (a < align) a <<= 1`. -/
def doubleUpTo : Nat → Nat → Nat → Nat
  | 0, a, _ => a
  | fuel + 1, a, align => if a < align then doubleUpTo fuel (2 * a) align else a

/-- The alignment `_isomallocAlign` works with: at least 16 and a power of 2. -/
def effectiveAlign (align : Nat) : Nat :=
  let align := if align < 16 then 16 else align
  if align &&& (align - 1) ≠ 0 then doubleUpTo align 32 align else align

/-- `_isomallocAlign`. -/
def isomallocAlign (s : Int) (align : Nat) (size reserved : Int) (h : PeHeap) :
    Option (Int × PeHeap) := do
  let align : Int := effectiveAlign align
  let (ptr, h) ← isomalloc L s (size + reserved + align) h
  let ptr2align := ptr + reserved
  if ptr2align % align ≠ 0 then do
    let savedblk ← h.mem.readBytes (pointer2block ptr) 16
    let ptr := (ptr2align + align - 1) / align * align - reserved
    let mem ← h.mem.writeBytes (pointer2block ptr) savedblk
    some (ptr, { h with mem })
  else some (ptr, h)

/-! ### The list -/

/-- Link node `n` in behind `l`: `prev` is the first word of a node, `next` the
second. -/
def linkBlock (l n : Int) (mem : AddrSpace) : Option AddrSpace := do
  let mem ← mem.store8 n l
  let next ← mem.load8 (l + 8)
  let mem ← mem.store8 (n + 8) next
  let next ← mem.load8 (l + 8)
  let mem ← mem.store8 next n
  mem.store8 (l + 8) n

/-- `CmiIsomallocBlockListNew`. -/
def blockListNew (s : Int) (h : PeHeap) : Option (Int × PeHeap) := do
  let (ret, h) ← isomalloc L s 16 h
  let mem ← h.mem.store8 (ret + 8) ret
  let mem ← mem.store8 ret ret
  some (ret, { h with mem })

/-- `CmiIsomallocBlockListMalloc`; the result is the user's address. -/
def blockListMalloc (s l : Int) (nBytes : Nat) (h : PeHeap) : Option (Int × PeHeap) := do
  let (n, h) ← isomalloc L s (16 + nBytes) h
  let mem ← linkBlock l n h.mem
  some (n + 16, { h with mem })

/-- `CmiIsomallocBlockListMallocAlign`. -/
def blockListMallocAlign (s l : Int) (align nBytes : Nat) (h : PeHeap) : Option (Int × PeHeap) := do
  let (n, h) ← isomallocAlign L s align nBytes 16 h
  let mem ← linkBlock l n h.mem
  some (n + 16, { h with mem })

/-- `CmiIsomallocBlockListFree`. -/
def blockListFree (block : Int) (h : PeHeap) : Option PeHeap := do
  let n := block - 16
  let prev ← h.mem.load8 n
  let next ← h.mem.load8 (n + 8)
  let mem ← h.mem.store8 (prev + 8) next
  let next ← mem.load8 (n + 8)
  let prev ← mem.load8 n
  let mem ← mem.store8 next prev
  isomallocFree L n { h with mem }

/-! ### Migration -/

/-- What was read or written for a block: its slots and the address ranges. -/
structure Access where
  slot : Int
  nslots : Int
  ranges : List (Int × Int)

/-- The accesses stay inside the slots of the block. -/
def Access.Inside (a : Access) : Prop :=
  ∀ r ∈ a.ranges, L.slot2addr a.slot ≤ r.1 ∧ r.2 ≤ L.slot2addr (a.slot + a.nslots)

/-- `CmiIsomallocPup`, packing and deleting: the bytes, the accesses, the memory. -/
def pupPack (ptr : Int) (mem : AddrSpace) : Option (List MemVal × Access × AddrSpace) := do
  let s ← mem.load8 (pointer2block ptr)
  let length ← mem.load8 (pointer2block ptr + 8)
  let n := L.length2slots length
  let bytes ← mem.readBytes ptr length.toNat
  some (MemVal.encodeInt 8 s ++ (MemVal.encodeInt 8 length ++ bytes),
    { slot := s, nslots := n, ranges := [(pointer2block ptr, ptr), (ptr, ptr + length)] },
    mem.unmap (L.slot2addr s) (L.slotsize * n))

/-- `CmiIsomallocPup`, unpacking: the pointer, the accesses, the memory and the rest of
the bytes. -/
def pupUnpack (stream : List MemVal) (mem : AddrSpace) :
    Option (Int × Access × AddrSpace × List MemVal) := do
  let s ← MemVal.decodeInt 8 (stream.take 8)
  let length ← MemVal.decodeInt 8 ((stream.drop 8).take 8)
  let n := L.length2slots length
  let blk := L.slot2addr s
  let mem := mem.map blk (L.slotsize * n)
  let mem ← mem.store8 blk s
  let mem ← mem.store8 (blk + 8) length
  let ptr := block2pointer blk
  let bytes := (stream.drop 16).take length.toNat
  if bytes.length = length.toNat then do
    let mem ← mem.writeBytes ptr bytes
    some (ptr, { slot := s, nslots := n, ranges := [(blk, ptr), (ptr, ptr + length)] }, mem,
      (stream.drop 16).drop length.toNat)
  else none

/-- Count the blocks from `cur` on, up to `start`; `fuel` bounds the trip. -/
def countBlocks (mem : AddrSpace) (start : Int) : Nat → Int → Nat → Option Nat
  | 0, _, _ => none
  | fuel + 1, cur, nBlocks =>
    if cur = start then some nBlocks
    else do
      let next ← mem.load8 (cur + 8)
      countBlocks mem start fuel next (nBlocks + 1)

/-- The loop of `CmiIsomallocBlockListPup`, packing `nBlocks` blocks from `cur` on. The
link is read before the block goes. -/
def packBlocks : Nat → Int → AddrSpace → Option (List MemVal × List Access × AddrSpace)
  | 0, _, mem => some ([], [], mem)
  | nBlocks + 1, cur, mem => do
      let next ← mem.load8 (cur + 8)
      let (bytes, access, mem) ← pupPack L cur mem
      let (rest, accesses, mem) ← packBlocks nBlocks next mem
      some (bytes ++ rest,
        { access with ranges := (cur + 8, cur + 16) :: access.ranges } :: accesses, mem)

/-- The loop of `CmiIsomallocBlockListPup`, unpacking: the pointers of the blocks. -/
def unpackBlocks : Nat → List MemVal → AddrSpace → Option (List Int × List Access × AddrSpace)
  | 0, _, mem => some ([], [], mem)
  | nBlocks + 1, stream, mem => do
      let (ptr, access, mem, rest) ← pupUnpack L stream mem
      let (ptrs, accesses, mem) ← unpackBlocks nBlocks rest mem
      some (ptr :: ptrs, access :: accesses, mem)

/-- `CmiIsomallocBlockListPup`, packing and deleting the list at `start`. -/
def blockListPack (fuel : Nat) (start : Int) (mem : AddrSpace) :
    Option (List MemVal × List Access × AddrSpace) := do
  let first ← mem.load8 (start + 8)
  let nBlocks ← countBlocks mem start fuel first 1
  let (bytes, accesses, mem) ← packBlocks L nBlocks start mem
  some (MemVal.encodeInt 4 nBlocks ++ bytes, accesses, mem)

/-- `CmiIsomallocBlockListPup`, unpacking; the list is at the first pointer. -/
def blockListUnpack (stream : List MemVal) (mem : AddrSpace) :
    Option (List Int × List Access × AddrSpace) := do
  let nBlocks ← MemVal.decodeInt 4 (stream.take 4)
  unpackBlocks L nBlocks.toNat (stream.drop 4) mem

end

/-! ### Runs -/

/-- A block of the list, with what its allocation asked for: `align` only for an
aligned one. -/
structure Live where
  ptr : Int
  slot : Int
  length : Int
  nBytes : Nat
  align : Option Nat
  deriving DecidableEq, Repr

/-- A processor with a block list at `lp`. `live` records the blocks in the order of
the list; the program does not read it. -/
structure ListState where
  heap : PeHeap
  lp : Int
  live : List Live

/-- What the owner of the list does; a write puts bytes into the user part of a
block. -/
inductive Call
  | malloc (nBytes : Nat)
  | mallocAlign (align nBytes : Nat)
  | free (block : Int)
  | write (block : Int) (offset : Nat) (bytes : List MemVal)

/-- Sizes fit an `int`. -/
def Call.Ok : Call → Prop
  | .malloc nBytes => 16 + nBytes < 2 ^ 31
  | .mallocAlign align nBytes => nBytes + 16 + effectiveAlign align < 2 ^ 31
  | .free _ => True
  | .write _ _ _ => True

/-- Put a new block behind the first one. -/
def insertLive (live : List Live) (b : Live) : List Live :=
  match live with
  | [] => [b]
  | h :: r => h :: b :: r

/-- One call. A block is freed or written to by its user's address, which is that of a
block other than the first. -/
def ListStep (L : Layout) (st : ListState) (c : Call) (st' : ListState) : Prop :=
  match c with
  | .malloc nBytes => ∃ s user heap, GetSlots st.heap.myss (L.length2slots (16 + nBytes)) s ∧
      blockListMalloc L s st.lp nBytes st.heap = some (user, heap) ∧
      st' = { st with
        heap
        live := insertLive st.live
          { ptr := user - 16, slot := s, length := 16 + nBytes, nBytes, align := none } }
  | .mallocAlign align nBytes => ∃ s user heap,
      GetSlots st.heap.myss (L.length2slots (nBytes + 16 + effectiveAlign align)) s ∧
      blockListMallocAlign L s st.lp align nBytes st.heap = some (user, heap) ∧
      st' = { st with
        heap
        live := insertLive st.live { ptr := user - 16, slot := s
                                     length := nBytes + 16 + effectiveAlign align, nBytes
                                     align := some align } }
  | .free block => ∃ b heap, b ∈ st.live.tail ∧ block = b.ptr + 16 ∧
      blockListFree L block st.heap = some heap ∧
      st' = { st with heap, live := st.live.erase b }
  | .write block offset bytes => ∃ b mem, b ∈ st.live.tail ∧ block = b.ptr + 16 ∧
      offset + bytes.length ≤ b.nBytes ∧ st.heap.mem.writeBytes (block + offset) bytes = some mem ∧
      st' = { st with heap := { st.heap with mem } }

/-- A list as it is built: a new one, then any calls. -/
def listSystem (L : Layout) : Transition ListState Call where
  init st := ∃ s ret heap0, heap0.myss.Coalesced ∧ GetSlots heap0.myss (L.length2slots 16) s ∧
    blockListNew L s heap0 = some (ret, st.heap) ∧ st.lp = ret ∧
    st.live = [{ ptr := ret, slot := s, length := 16, nBytes := 0, align := none }]
  step st c st' := c.Ok ∧ ListStep L st c st'

/-- **The round trip**: packing succeeds, unpacking anywhere puts every block back at its
pointer with its links and user bytes, and all accesses stay inside the slots. -/
def RoundTrip (L : Layout) (st : ListState) : Prop :=
  ∃ fuel stream accesses mem, blockListPack L fuel st.lp st.heap.mem =
  some (stream, accesses, mem) ∧
    (∀ a ∈ accesses, a.Inside L) ∧
    ∀ dest : AddrSpace, ∃ ptrs accesses' dest',
      blockListUnpack L stream dest = some (ptrs, accesses', dest') ∧
      (∀ a ∈ accesses', a.Inside L) ∧
      ptrs.head? = some st.lp ∧ ptrs = st.live.map Live.ptr ∧
      ∀ b ∈ st.live, (dest'.readBytes b.ptr (16 + b.nBytes)).isSome ∧
        dest'.readBytes b.ptr (16 + b.nBytes) = st.heap.mem.readBytes b.ptr (16 + b.nBytes)

end CharmRuntime.Isomalloc
