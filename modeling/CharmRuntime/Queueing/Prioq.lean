import CharmRuntime.Lib.BinHeap
import CharmRuntime.Lib.HashChain
import CharmRuntime.Queueing.Deq

/-!
# Queueing.Prioq

The **priority queue** `prioq_struct` of the scheduler queue
(`conv-core/queueing.C`, without `FASTQ`).

A bucket holds the messages of one priority in a ring buffer. The buckets are in
a binary heap and, for the lookup by priority, in a chained hash table. Buckets
are numbered in the order of their allocation; the fields of a bucket are kept
field by field (`pri`, `data`, and the hash links in `links`). The sizes of the heap
and of the table and the counters are unbounded here: below 2 ^ 30 messages, which is
what one ring buffer can hold, no `int` of them overflows.
-/

namespace CharmRuntime.Queueing

open Lib

/-- An `unsigned int`. -/
abbrev Word := BitVec 32

/-- `prio_struct`. `bits` and `ints` are `unsigned short`. -/
structure Prio where
  bits : Nat
  ints : Nat
  data : List Word
  deriving DecidableEq, Repr

/-- The words a comparison looks at. -/
def Prio.words (p : Prio) : List Word := p.data.take p.ints

/-- The loop of `CqsPrioGT`. -/
def prioGTWords : List Word → List Word → Bool
  | [], _ => false
  | _ :: _, [] => true
  | val1 :: data1, val2 :: data2 =>
    if val1 < val2 then false else if val2 < val1 then true else prioGTWords data1 data2

/-- `CqsPrioGT`. -/
def prioGT (prio1 prio2 : Prio) : Bool := prioGTWords prio1.words prio2.words

/-- `PRIOQ_TABSIZE`. -/
def prioqTabSize : Nat := 1017

/-- The hash value before it is reduced to a table index. -/
def hashval (priobits : Nat) (priodata : List Word) : Nat :=
  (priodata.foldl (fun h w => h ^^^ w) (BitVec.ofNat 32 priobits) &&& 0x7FFFFFFF#32).toNat

/-- `prioq_struct`. -/
structure Prioq (α : Type) where
  heapSize : Nat
  heapNext : Nat
  heap : Nat → Nat
  links : Links
  hashKeySize : Nat
  hashEntrySize : Nat
  pri : Nat → Prio
  data : Nat → Deq α
  /-- The number the next allocated bucket gets. -/
  nextElt : Nat

namespace Prioq

variable {α : Type}

/-- `CqsPrioqInit`. -/
def init : Prioq α :=
  { heapSize := 100, heapNext := 1, heap := fun _ => 0
    links := { tab := fun _ => none, next := fun _ => none, handle := fun _ => .slot 0 }
    hashKeySize := prioqTabSize, hashEntrySize := 0
    pri := fun _ => { bits := 0, ints := 0, data := [] }, data := fun _ => Deq.init, nextElt := 0 }

/-- The comparison of two buckets. -/
def gt (pq : Prioq α) (pe1 pe2 : Nat) : Bool := prioGT (pq.pri pe1) (pq.pri pe2)

/-- `CqsPrioqExpand`: the elements are copied, so only the size changes. -/
def expand (pq : Prioq α) : Prioq α := { pq with heapSize := pq.heapSize * 2 }

/-- The hash of a bucket, from its stored priority. -/
def hashOf (pq : Prioq α) (pe : Nat) : Nat := hashval (pq.pri pe).bits (pq.pri pe).words

/-- `CqsPrioqRehash`. -/
def rehash (pq : Prioq α) : Prioq α :=
  let newHsize := pq.hashKeySize * 2
  { pq with
    links := pq.links.rehash (fun pe => pq.hashOf pe % newHsize) pq.hashEntrySize pq.hashKeySize
    hashKeySize := newHsize }

/-- The scan of one hash chain for a priority, from bucket `cur` on. -/
def scan (pq : Prioq α) (priobits : Nat) (priodata : List Word) : Nat → Option Nat → Option Nat
  | 0, _ => none
  | _ + 1, none => none
  | fuel + 1, some pe =>
    if priobits = (pq.pri pe).bits ∧ (pq.pri pe).data.take priodata.length = priodata then some pe
    else pq.scan priobits priodata fuel (pq.links.next pe)

/-- The priority stored in a new bucket; `bits` and `ints` are cut to 16 bits. -/
def newPrio (priobits : Nat) (prioptr : List Word) : Prio :=
  let prioints := (priobits + 31) / 32
  { bits := priobits % 2 ^ 16, ints := prioints % 2 ^ 16, data := prioptr.take prioints }

/-- The chain `CqsPrioqGetDeq` scans: always by `PRIOQ_TABSIZE`. -/
def lookupIndex (priobits : Nat) (prioptr : List Word) : Nat :=
  hashval priobits (prioptr.take ((priobits + 31) / 32)) % prioqTabSize

/-- The first part of `CqsPrioqGetDeq`: scan for the priority. A chain has at most
`hashEntrySize` buckets. -/
def lookup (pq : Prioq α) (priobits : Nat) (prioptr : List Word) : Option Nat :=
  pq.scan priobits (prioptr.take ((priobits + 31) / 32)) pq.hashEntrySize
    (pq.links.tab (lookupIndex priobits prioptr))

/-- A new bucket in the hash table, which may be doubled. -/
def hashBucket (pq : Prioq α) (priobits : Nat) (prioptr : List Word) : Prioq α :=
  let pe := pq.nextElt
  let pq := { pq with
    nextElt := pq.nextElt + 1
    pri := Function.update pq.pri pe (newPrio priobits prioptr)
    data := Function.update pq.data pe Deq.init
    links := pq.links.pushFront pe (lookupIndex priobits prioptr)
    hashEntrySize := pq.hashEntrySize + 1 }
  if pq.hashEntrySize > 2 * pq.hashKeySize then pq.rehash else pq

/-- Bucket `pe` into the heap. -/
def heapBucket (pq : Prioq α) (pe : Nat) : Prioq α :=
  let heappos := pq.heapNext
  let pq := { pq with heapNext := pq.heapNext + 1 }
  let pq := if heappos = pq.heapSize then pq.expand else pq
  { pq with heap := siftUp pq.gt pe heappos pq.heap heappos }

/-- `CqsPrioqGetDeq`: the bucket of a priority, found or created. -/
def getDeq (pq : Prioq α) (priobits : Nat) (prioptr : List Word) : Nat × Prioq α :=
  match pq.lookup priobits prioptr with
  | some pe => (pe, pq)
  | none => (pq.nextElt, (pq.hashBucket priobits prioptr).heapBucket pq.nextElt)

/-- `CqsPrioqGetDeq` followed by an enqueue into the bucket. -/
def enqueue (pq : Prioq α) (enq : Deq α → Option α → Option (Deq α)) (priobits : Nat)
    (prioptr : List Word) (msg : Option α) : Option (Prioq α) :=
  let (pe, pq) := pq.getDeq priobits prioptr
  (enq (pq.data pe) msg).map fun d => { pq with data := Function.update pq.data pe d }

/-- `CqsPrioqDequeue`. -/
def dequeue (pq : Prioq α) : Option α × Prioq α :=
  if pq.heapNext = 1 then (none, pq)
  else
    let pe := pq.heap 1
    let (msg, d) := (pq.data pe).dequeue
    let pq := { pq with data := Function.update pq.data pe d }
    if d.head = d.tail then
      let heapNext := pq.heapNext - 1
      (msg, { pq with
        links := pq.links.unlink pe
        hashEntrySize := pq.hashEntrySize - 1
        heapNext
        heap := siftDown pq.gt heapNext (pq.heap heapNext) heapNext pq.heap 1 })
    else (msg, pq)

/-- `CqsEnumeratePrioq`: the buckets in heap order, each from head to tail. -/
def enumerate (pq : Prioq α) : List (Option α) :=
  (List.range' 1 (pq.heapNext - 1)).flatMap (fun i => (pq.data (pq.heap i)).enumerate)

end Prioq

end CharmRuntime.Queueing
