import CharmRuntime.Lib.Transition

/-!
# Mempool.Pool

The memory pool of `mempool.c`. Memory comes in blocks; a block is cut into slots whose sizes
are powers of two (`cutOffPoints`). Every slot begins with a header.

Memory is modelled at the level of headers: `slots` is the header at each place and `blocks`
the block header at each place. Places are offsets from `mptr`, as in the source, and `0` is
the null offset; the block header at offset `0` is the one inside of `mempool_type`.

The sizes of the headers are those of a 64-bit build in which `mempool_type` ends with a lock.
`newblockfn` is outside of this file: what it returns is part of the call
(`MempoolEvent.malloc`).
-/

namespace CharmRuntime.Mempool

open Lib Function

def cutOffNum : Nat := 25

def cutOffPoints : List Nat :=
  [64, 128, 256, 512, 1024, 2048, 4096, 8192, 16384, 32768,
   65536, 131072, 262144, 524288, 1048576, 2097152, 4194304,
   8388608, 16777216, 33554432, 67108864, 134217728, 268435456,
   536870912, 1073741824]

/-- `cutOffPoints[i]`. -/
def cutOff (i : Nat) : Nat := cutOffPoints.getD i 0

def whichPow2 (size : Nat) : Nat := cutOffPoints.findIdx (size ≤ ·)

def sizeofUsedHeader : Nat := 32
def sizeofSlotHeader : Nat := 48
def sizeofBlockHeader : Nat := 256
def sizeofMempoolType : Nat := 304

structure SlotHeader where
  blockPtr : Int
  size : Nat
  /-- `status` is 1. -/
  free : Bool
  gprev : Int
  gnext : Int
  prev : Int
  next : Int

structure BlockHeader where
  size : Nat
  used : Nat
  blockPrev : Int
  blockNext : Int
  freelists : Nat → Int

structure MempoolType where
  slots : Int → SlotHeader
  blocks : Int → BlockHeader
  blockTail : Int
  limit : Nat
  size : Nat

inductive MempoolFault
  /-- `CmiAbort`. -/
  | abort
  /-- `cutOffPoints` is read behind its end. -/
  | outOfBounds
  /-- A slot header that was never set is written to. -/
  | uninitialised
  /-- `2*bestfit_size` is no `int`. -/
  | overflow
  /-- A list does not end. -/
  | endless
deriving DecidableEq, Repr

/-! ### Single fields -/

abbrev Slots := Int → SlotHeader

def Slots.setGnext (s : Slots) (a v : Int) : Slots := update s a { s a with gnext := v }
def Slots.setGprev (s : Slots) (a v : Int) : Slots := update s a { s a with gprev := v }
def Slots.setNext (s : Slots) (a v : Int) : Slots := update s a { s a with next := v }
def Slots.setPrev (s : Slots) (a v : Int) : Slots := update s a { s a with prev := v }

/-- `block->freelists[i] = a`. -/
def BlockHeader.setList (b : BlockHeader) (i : Nat) (a : Int) : BlockHeader :=
  { b with freelists := update b.freelists i a }

/-! ### New blocks -/

/-- The first loop of `fillblock`, for `i` from below its first argument down to 0. -/
def fillLists : Nat → Int → Nat → (Nat → Int) → (Nat → Int)
  | 0, _, _, freelists => freelists
  | i + 1, loc, left, freelists =>
    if cutOff i ≤ left then
      fillLists i (loc + cutOff i) (left - cutOff i) (update freelists i loc)
    else fillLists i loc left freelists

/-- The second loop of `fillblock`: the headers, and the last of them. -/
def fillSlots (block : Int) (freelists : Nat → Int) (power : Nat) : Nat → Int → Slots → Slots × Int
  | 0, prev, slots => (slots, prev)
  | i + 1, prev, slots =>
    if freelists i ≠ 0 then
      let head := freelists i
      let header : SlotHeader :=
        { blockPtr := block, size := i, free := true, gprev := prev
          gnext := (slots head).gnext, prev := 0, next := 0 }
      let slots : Slots := update slots head header
      let slots := if i ≠ power then slots.setGnext prev head else slots
      fillSlots block freelists power i head slots
    else fillSlots block freelists power i prev slots

/-- `fillblock`. `rounds` is `power + 1`. A `pool_size` below the size of the header gives a
`left` that wraps around. -/
def fillblock (pool : MempoolType) (block : Int) (poolSize : Nat) (expansion : Bool) :
    Except MempoolFault MempoolType :=
  let header := if expansion then sizeofBlockHeader else sizeofMempoolType
  let left := poolSize - header
  let loc := block + header
  let power := whichPow2 left
  if poolSize < header ∨ power = cutOffNum then .error .outOfBounds
  else
    let rounds := if left < cutOff power then power else power + 1
    if rounds = 0 then .error .uninitialised
    else
      let freelists := fillLists rounds loc left fun _ => 0
      let (slots, head) := fillSlots block freelists (rounds - 1) rounds 0 pool.slots
      .ok { pool with
            slots := slots.setGnext head 0
            blocks := update pool.blocks block
              { pool.blocks block with freelists := freelists } }

/-- `mempool_init`. `slots` and `blocks` are what the memory has before. -/
def mempoolInit (slots : Slots) (blocks : Int → BlockHeader) (poolSize limit : Nat) :
    Except MempoolFault MempoolType :=
  let pool : MempoolType :=
    { slots := slots
      blocks := update blocks 0
        { blocks 0 with size := poolSize, used := 0, blockPrev := 0, blockNext := 0 }
      blockTail := 0
      limit := limit
      size := poolSize }
  fillblock pool 0 poolSize false

/-! ### Splitting a slot -/

/-- The first loop of `checkblock`, `n` rounds from `i` on. -/
def splitLists : Nat → Nat → Int → (Nat → Int) → (Nat → Int)
  | 0, _, _, freelists => freelists
  | n + 1, i, loc, freelists =>
    let loc := loc + cutOff (i - 1)
    splitLists n (i + 1) loc (update freelists i loc)

/-- The second loop of `checkblock`, `n` rounds from `i` on: the headers, and `head` and
`prev` as they are left. -/
def splitSlots (current : Int) (power : Nat) : Nat → Nat → Int → Int → Slots → Slots × Int × Int
  | 0, _, head, prev, slots => (slots, head, prev)
  | n + 1, i, head, prev, slots =>
    let head := if i ≠ power then head + cutOff (i - 1) else head
    let header : SlotHeader :=
      { blockPtr := current, size := i, free := true, gprev := prev
        gnext := (slots head).gnext, prev := 0, next := 0 }
    let slots : Slots := update slots head header
    let slots := slots.setGnext prev head
    let prev := if i ≠ power then prev + cutOff (i - 1) else prev + cutOff i
    splitSlots current power n (i + 1) head prev slots

/-- A slot of class `powiter` is broken into one of each smaller class down to `power`, and
another one of class `power`. -/
def splitSlot (pool : MempoolType) (current : Int) (power powiter : Nat) : MempoolType :=
  let block := pool.blocks current
  let headMove := block.freelists powiter
  let gnext := (pool.slots headMove).gnext
  let loc := headMove
  let freelists := update block.freelists powiter (pool.slots headMove).next
  let freelists := update freelists power loc
  let freelists := splitLists (powiter - (power + 1)) (power + 1) (loc + cutOff power) freelists
  let prev := freelists power
  let slots : Slots := update pool.slots headMove
    { pool.slots headMove with size := power, next := prev + cutOff power }
  let (slots, head, prev) :=
    splitSlots current power (powiter - power) power (headMove + cutOff power) prev slots
  let slots := slots.setPrev (headMove + cutOff power) (freelists power)
  let slots := slots.setGnext head gnext
  let slots := if gnext ≠ 0 then slots.setGprev gnext prev else slots
  let slots := if freelists powiter ≠ 0 then slots.setPrev (freelists powiter) 0 else slots
  { pool with
    slots := slots
    blocks := update pool.blocks current { block with freelists := freelists } }

/-- The loop of `checkblock` over larger classes, `n` rounds from `powiter` on. -/
def splitFrom (current : Int) (power : Nat) : Nat → Nat → MempoolType → MempoolType
  | 0, _, pool => pool
  | n + 1, powiter, pool =>
    if (pool.blocks current).freelists powiter ≠ 0 then splitSlot pool current power powiter
    else splitFrom current power n (powiter + 1) pool

/-- `checkblock`: whether the block has a free slot of this class now. -/
def checkblock (pool : MempoolType) (current : Int) (power : Nat) : MempoolType × Bool :=
  let pool :=
    if (pool.blocks current).freelists power ≠ 0 then pool
    else splitFrom current power (cutOffNum - (power + 1)) (power + 1) pool
  (pool, (pool.blocks current).freelists power ≠ 0)

/-! ### Giving blocks back -/

/-- The loop of `removeblocks`, and the blocks that `freeblockfn` is called with. -/
def removeLoop (tail : Int) : Nat → Int → Int → MempoolType →
    Except MempoolFault (MempoolType × List Int)
  | 0, _, _, _ => .error .endless
  | fuel + 1, prev, current, pool =>
    if current = 0 then .ok (pool, [])
    else
      let tofree := pool.blocks current
      let next := tofree.blockNext
      if tofree.used ≤ 0 then do
        let blocks := update pool.blocks prev
          { pool.blocks prev with blockNext := tofree.blockNext }
        let blocks :=
          if next ≠ 0 then
            update blocks next { blocks next with blockPrev := tofree.blockPrev }
          else blocks
        let pool : MempoolType :=
          { pool with
            blocks := blocks
            blockTail := if tail = current then tofree.blockPrev else pool.blockTail
            size := pool.size - tofree.size }
        if pool.size < pool.limit then .ok (pool, [current])
        else do
          let (pool, given) ← removeLoop tail fuel prev next pool
          .ok (pool, current :: given)
      else removeLoop tail fuel current next pool

/-- `removeblocks`. Every block has at least one byte, so that `size` bounds their number. -/
def removeblocks (pool : MempoolType) : Except MempoolFault (MempoolType × List Int) :=
  removeLoop pool.blockTail (pool.size + 1) 0 (pool.blocks 0).blockNext pool

/-! ### Allocation -/

/-- The block that can serve a request. -/
def findBlock (power : Nat) : Nat → Int → MempoolType →
    Except MempoolFault (MempoolType × Option Int)
  | 0, _, _ => .error .endless
  | fuel + 1, current, pool =>
    let (pool, found) := checkblock pool current power
    if found then .ok (pool, some current)
    else
      let next := (pool.blocks current).blockNext
      if next = 0 then .ok (pool, none) else findBlock power fuel next pool

/-- The last part of `mempool_malloc`: the first free slot of the class is taken. -/
def takeSlot (pool : MempoolType) (current : Int) (power : Nat) : MempoolType × Int :=
  let block := pool.blocks current
  let headFree := block.freelists power
  let slots : Slots := update pool.slots headFree { pool.slots headFree with free := false }
  let headNext := (slots headFree).next
  let block := block.setList power headNext
  let slots := if headNext ≠ 0 then slots.setPrev headNext 0 else slots
  let slots : Slots := update slots headFree { slots headFree with blockPtr := current }
  let block := { block with used := block.used + power }
  ({ pool with slots := slots, blocks := update pool.blocks current block },
    headFree + sizeofUsedHeader)

/-- What `mempool_malloc` leaves, the blocks it gives back, the one it gets, and the pointer it
returns. -/
structure Allocated where
  pool : MempoolType
  given : List Int
  added : Option (Int × Nat)
  ptr : Option Int

/-- The size that `newblockfn` is asked for. -/
def expandSize (power : Nat) : Nat := 2 * cutOff power + sizeofBlockHeader

/-- Before the pool is expanded. -/
def beforeExpansion (pool : MempoolType) : Except MempoolFault (MempoolType × List Int) :=
  if pool.limit < pool.size ∧ 0 < pool.limit then removeblocks pool else .ok (pool, [])

/-- A new block at the end of the list. -/
def appendBlock (pool : MempoolType) (current : Int) (size : Nat) : MempoolType :=
  let tail := pool.blockTail
  let blocks := update pool.blocks tail { pool.blocks tail with blockNext := current }
  { pool with
    size := pool.size + size
    blockTail := current
    blocks := update blocks current
      { blocks current with blockPrev := tail, used := 0, size := size, blockNext := 0 } }

/-- `mempool_malloc(mptr, size, 1)`. `answer` is what `newblockfn` returns if it is called:
a block and its size, or NULL. -/
def mempoolMalloc (pool : MempoolType) (size : Nat) (answer : Option (Int × Nat)) :
    Except MempoolFault Allocated :=
  let power := whichPow2 (size + sizeofUsedHeader)
  if power = cutOffNum then .error .abort
  else do
    let (pool, found) ← findBlock power (pool.size + 1) 0 pool
    match found with
    | some current =>
      let (pool, ptr) := takeSlot pool current power
      .ok { pool := pool, given := [], added := none, ptr := some ptr }
    | none => do
        let (pool, given) ← beforeExpansion pool
        if 2 ^ 31 ≤ 2 * cutOff power then .error .overflow
        else
          match answer with
          | none => .ok { pool := pool, given := given, added := none, ptr := none }
          | some (current, expandSize) => do
              let pool ← fillblock (appendBlock pool current expandSize) current expandSize true
              let (pool, found) := checkblock pool current power
              if found then
                let (pool, ptr) := takeSlot pool current power
                .ok { pool := pool, given := given, added := answer, ptr := some ptr }
              else .ok { pool := pool, given := given, added := answer, ptr := none }

/-! ### Freeing -/

/-- The free slots before `current`: their size, and the first of them. -/
def freeBefore (slots : Slots) : Nat → Int → Nat → Int → Except MempoolFault (Nat × Int)
  | 0, _, _, _ => .error .endless
  | fuel + 1, current, size, first =>
    if (slots current).free then
      let size := size + cutOff (slots current).size
      if (slots current).gprev = 0 then .ok (size, current)
      else freeBefore slots fuel (slots current).gprev size current
    else .ok (size, first)

/-- The free slots from `current` on: their size, and the slot behind them. -/
def freeBehind (slots : Slots) : Nat → Int → Nat → Except MempoolFault (Nat × Int)
  | 0, _, _ => .error .endless
  | fuel + 1, current, size =>
    if (slots current).free then
      let size := size + cutOff (slots current).size
      if (slots current).gnext = 0 then .ok (size, 0)
      else freeBehind slots fuel (slots current).gnext size
    else .ok (size, current)

/-- A slot leaves its free list. -/
def unlinkSlot (pool : MempoolType) (block current : Int) : MempoolType :=
  let power := (pool.slots current).size
  let prev := (pool.slots current).prev
  let next := (pool.slots current).next
  let slots := if prev ≠ 0 then Slots.setNext pool.slots prev next else pool.slots
  let blocks :=
    if prev ≠ 0 then pool.blocks
    else update pool.blocks block ((pool.blocks block).setList power next)
  let slots := if next ≠ 0 then slots.setPrev next prev else slots
  { pool with slots := slots, blocks := blocks }

/-- The slots from `current` to before `usedNext` leave their free lists. -/
def unlinkRun (block toFree usedNext : Int) : Nat → Int → MempoolType →
    Except MempoolFault MempoolType
  | 0, _, _ => .error .endless
  | fuel + 1, current, pool =>
    if current = usedNext then .ok pool
    else
      let pool := if current ≠ toFree then unlinkSlot pool block current else pool
      unlinkRun block toFree usedNext fuel (pool.slots current).gnext pool

/-- The new free slots, for `i` from below its second argument down to 0. -/
def mergeSlots (block : Int) (power : Nat) : Nat → Int → Nat → Int → MempoolType →
    MempoolType × Int
  | 0, _, _, current, pool => (pool, current)
  | i + 1, loc, left, current, pool =>
    if cutOff i ≤ left then
      let old := pool.slots loc
      let head := (pool.blocks block).freelists i
      let header : SlotHeader :=
        { blockPtr := block, size := i, free := true
          gprev := if i ≠ power then current else old.gprev
          gnext := loc + cutOff i, prev := 0, next := head }
      let slots : Slots := update pool.slots loc header
      let slots := if head ≠ 0 then slots.setPrev head loc else slots
      let pool : MempoolType :=
        { pool with
          slots := slots
          blocks := update pool.blocks block ((pool.blocks block).setList i loc) }
      mergeSlots block power i (loc + cutOff i) (left - cutOff i) loc pool
    else mergeSlots block power i loc left current pool

/-- `mempool_free`. The slots of a block are at most as many as its bytes. -/
def mempoolFree (pool : MempoolType) (ptr : Int) : Except MempoolFault MempoolType := do
  let toFree := ptr - sizeofUsedHeader
  let slots : Slots := update pool.slots toFree { pool.slots toFree with free := true }
  let block := (slots toFree).blockPtr
  let header := pool.blocks block
  let pool : MempoolType :=
    { pool with
      slots := slots
      blocks := update pool.blocks block
        { header with used := header.used - (slots toFree).size } }
  let fuel := header.size + 1
  let (size, first) ← freeBefore slots fuel toFree 0 toFree
  let (size, usedNext) ← freeBehind slots fuel toFree (size - cutOff (slots toFree).size)
  let pool ← unlinkRun block toFree usedNext fuel first pool
  let power := whichPow2 size
  if power = cutOffNum then .error .outOfBounds
  else
    let rounds := if size < cutOff power then power else power + 1
    if rounds = 0 then .error .uninitialised
    else
      let (pool, current) := mergeSlots block (rounds - 1) rounds first size first pool
      let slots :=
        if usedNext ≠ 0 then Slots.setGprev pool.slots usedNext current
        else Slots.setGnext pool.slots current 0
      .ok { pool with slots := slots }

/-! ### Calls -/

/-- An allocation that has not been freed: the pointer, and the size that was asked for. -/
structure Allocation where
  ptr : Int
  size : Nat
deriving DecidableEq

/-- The pool, the blocks it has got and not given back, the allocations, and a record of the
calls of `freeblockfn` with the allocations in the block that were not freed. -/
structure MempoolWorld where
  pool : MempoolType
  owned : List (Int × Nat)
  live : List Allocation
  given : List (Int × List Allocation)

/-- A call of `mempool_malloc`, a call of `mempool_free` with allocation `k`, or a write to its
memory by the owner of allocation `k`. -/
inductive MempoolEvent
  | malloc (size : Nat) (answer : Option (Int × Nat))
  | free (k : Nat)
  | write (k : Nat) (slots : Slots)

/-- The allocation lies in the block. -/
def Allocation.inBlock (block : Int) (size : Nat) (a : Allocation) : Bool :=
  block ≤ a.ptr ∧ a.ptr < block + size

/-- Two blocks do not overlap. -/
def Apart (b c : Int × Nat) : Prop := b.1 + b.2 ≤ c.1 ∨ c.1 + c.2 ≤ b.1

/-- Only the fields of headers that lie inside of an allocation change. -/
def WritesInside (a : Allocation) (slots slots' : Slots) : Prop :=
  ∀ x,
    (x + sizeofUsedHeader ≤ a.ptr ∨ a.ptr + a.size ≤ x →
      (slots' x).blockPtr = (slots x).blockPtr ∧ (slots' x).size = (slots x).size ∧
      (slots' x).free = (slots x).free ∧ (slots' x).gprev = (slots x).gprev ∧
      (slots' x).gnext = (slots x).gnext) ∧
    (x + sizeofSlotHeader ≤ a.ptr ∨ a.ptr + a.size ≤ x + sizeofUsedHeader →
      (slots' x).prev = (slots x).prev ∧ (slots' x).next = (slots x).next)

namespace MempoolWorld

/-- `newblockfn` returns NULL or a block at least as large as asked, of which at most 2^30 bytes
are usable. -/
def Enabled (w : MempoolWorld) : MempoolEvent → Prop
  | .malloc size answer => ∀ block ∈ answer,
      expandSize (whichPow2 (size + sizeofUsedHeader)) ≤ block.2 ∧
      block.2 ≤ sizeofBlockHeader + 2 ^ 30
  | .free k => k < w.live.length
  | .write k slots => ∃ a, w.live[k]? = some a ∧ WritesInside a w.pool.slots slots

def next (w : MempoolWorld) : MempoolEvent → Except MempoolFault MempoolWorld
  | .malloc size answer => do
      let r ← mempoolMalloc w.pool size answer
      let given := r.given.map fun b => (b, w.live.filter (·.inBlock b (w.pool.blocks b).size))
      .ok { pool := r.pool
            owned := w.owned.filter (·.1 ∉ r.given) ++ r.added.toList
            live := r.ptr.toList.map (fun ptr => { ptr := ptr, size := size }) ++ w.live
            given := w.given ++ given }
  | .free k =>
    match w.live[k]? with
    | none => .ok w
    | some a => do
        let pool ← mempoolFree w.pool a.ptr
        .ok { w with pool := pool, live := w.live.eraseIdx k }
  | .write _ slots => .ok { w with pool := { w.pool with slots := slots } }

end MempoolWorld

/-- The runs of a pool that begins with a block of `poolSize` bytes. The blocks that it has at a
time do not overlap. -/
def mempoolSystem (poolSize limit : Nat) : Transition MempoolWorld MempoolEvent where
  init w := ∃ slots blocks pool, mempoolInit slots blocks poolSize limit = .ok pool ∧
    w = { pool := pool, owned := [(0, poolSize)], live := [], given := [] }
  step w e w' := w.Enabled e ∧ w.next e = .ok w' ∧ w'.owned.Pairwise Apart

end CharmRuntime.Mempool
