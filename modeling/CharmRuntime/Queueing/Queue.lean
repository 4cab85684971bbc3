import CharmRuntime.Queueing.Prioq

/-!
# Queueing.Queue

The **scheduler queue** `Queue_struct` (`conv-core/queueing.C`, without `FASTQ`
and without the STL queue): a ring buffer for messages of priority zero between
two priority queues.

The strategy decides where a message goes. Integer priorities are biased by
`2^31` (or `2^63`), so that the unsigned comparison of words orders them as
signed numbers; a long priority also has its two words put in the order high,
low on either kind of machine.
-/

namespace CharmRuntime.Queueing

/-- The `CQS_QUEUEING_*` strategies. -/
inductive Strategy
  | fifo
  | lifo
  | ififo
  | ilifo
  | bfifo
  | blifo
  | lfifo
  | llifo
  deriving DecidableEq, Repr

/-- The assertion of the `LFIFO` case, and a ring buffer whose new size is no `int`. -/
inductive CqsAbort
  | priobitsNotLong
  | newsizeOverflow
  deriving DecidableEq, Repr

/-- `Queue_struct`. -/
structure Queue (α : Type) where
  length : Nat
  maxlen : Nat
  zeroprio : Deq α
  negprioq : Prioq α
  posprioq : Prioq α

/-- The biased integer priority: `prioptr[0] + (1U << 31)`. -/
def iprio (prioptr : List Word) : Word := prioptr.headD 0#32 + 0x80000000#32

/-- A 64-bit integer in memory, word by word. -/
def longWords (littleEndian : Bool) (v : BitVec 64) : List Word :=
  if littleEndian then [v.extractLsb' 0 32, v.extractLsb' 32 32]
  else [v.extractLsb' 32 32, v.extractLsb' 0 32]

/-- The 64-bit integer at `prioptr`. -/
def longAt (littleEndian : Bool) (prioptr : List Word) : BitVec 64 :=
  if littleEndian then prioptr.getD 1 0#32 ++ prioptr.getD 0 0#32
  else prioptr.getD 0 0#32 ++ prioptr.getD 1 0#32

/-- `lprio0`: the biased long priority. -/
def lprio0 (littleEndian : Bool) (prioptr : List Word) : BitVec 64 :=
  longAt littleEndian prioptr + 0x8000000000000000#64

/-- `lprio`: with its words swapped on a little-endian machine. -/
def lprio (littleEndian : Bool) (prioptr : List Word) : BitVec 64 :=
  let v := lprio0 littleEndian prioptr
  if littleEndian then
    ((longWords littleEndian v).getD 0 0#32).setWidth 64 <<< 32 |||
      ((longWords littleEndian v).getD 1 0#32).setWidth 64
  else v

namespace Queue

variable {α : Type}

/-- `CqsCreate`. -/
def create : Queue α :=
  { length := 0, maxlen := 0, zeroprio := Deq.init, negprioq := Prioq.init, posprioq := Prioq.init }

/-- `q->length++; if (q->length>q->maxlen) q->maxlen=q->length;` -/
def countUp (q : Queue α) : Queue α :=
  { q with length := q.length + 1, maxlen := max q.maxlen (q.length + 1) }

/-- What an enqueue has done, and the count. -/
def counted : Option (Queue α) → Except CqsAbort (Queue α)
  | some q => .ok q.countUp
  | none => .error .newsizeOverflow

/-- Enqueue into the ring buffer. -/
def enqueueZero (q : Queue α) (enq : Deq α → Option α → Option (Deq α)) (data : α) :
    Option (Queue α) :=
  (enq q.zeroprio (some data)).map fun d => { q with zeroprio := d }

/-- Enqueue into one of the priority queues: `posprioq` if `pos`. -/
def enqueuePrio (q : Queue α) (pos : Bool) (enq : Deq α → Option α → Option (Deq α))
    (priobits : Nat) (prioptr : List Word) (data : α) : Option (Queue α) :=
  if pos then
    (q.posprioq.enqueue enq priobits prioptr (some data)).map fun pq => { q with posprioq := pq }
  else (q.negprioq.enqueue enq priobits prioptr (some data)).map fun pq => { q with negprioq := pq }

/-- The cases `IFIFO` and `ILIFO`. -/
def enqueueInt (q : Queue α) (enq : Deq α → Option α → Option (Deq α)) (prioptr : List Word)
    (data : α) : Option (Queue α) :=
  q.enqueuePrio (iprio prioptr).msb enq 32 [iprio prioptr] data

/-- The cases `BFIFO` and `BLIFO`. -/
def enqueueBits (q : Queue α) (enq : Deq α → Option α → Option (Deq α)) (priobits : Nat)
    (prioptr : List Word) (data : α) : Option (Queue α) :=
  q.enqueuePrio (priobits != 0 && (prioptr.headD 0#32).msb) enq priobits prioptr data

/-- The cases `LFIFO` and `LLIFO`, apart from the assertion of the first. -/
def enqueueLong (littleEndian : Bool) (q : Queue α) (enq : Deq α → Option α → Option (Deq α))
    (priobits : Nat) (prioptr : List Word) (data : α) : Option (Queue α) :=
  q.enqueuePrio (lprio0 littleEndian prioptr).msb enq priobits
    (longWords littleEndian (lprio littleEndian prioptr)) data

/-- `CqsEnqueueGeneral`. -/
def enqueueGeneral (littleEndian : Bool) (q : Queue α) (data : α) (strategy : Strategy)
    (priobits : Nat) (prioptr : List Word) : Except CqsAbort (Queue α) :=
  match strategy with
  | .fifo => counted (q.enqueueZero Deq.enqueueFifo data)
  | .lifo => counted (q.enqueueZero Deq.enqueueLifo data)
  | .ififo => counted (q.enqueueInt Deq.enqueueFifo prioptr data)
  | .ilifo => counted (q.enqueueInt Deq.enqueueLifo prioptr data)
  | .bfifo => counted (q.enqueueBits Deq.enqueueFifo priobits prioptr data)
  | .blifo => counted (q.enqueueBits Deq.enqueueLifo priobits prioptr data)
  | .lfifo =>
    if priobits ≠ 64 then .error .priobitsNotLong
    else counted (enqueueLong littleEndian q Deq.enqueueFifo priobits prioptr data)
  | .llifo => counted (enqueueLong littleEndian q Deq.enqueueLifo priobits prioptr data)

/-- `CqsEnqueueFifo`, and `CqsEnqueue`. -/
def enqueueFifo (q : Queue α) (data : α) : Except CqsAbort (Queue α) :=
  counted (q.enqueueZero Deq.enqueueFifo data)

/-- `CqsEnqueueLifo`. -/
def enqueueLifo (q : Queue α) (data : α) : Except CqsAbort (Queue α) :=
  counted (q.enqueueZero Deq.enqueueLifo data)

/-- `CqsDequeue`. -/
def dequeue (q : Queue α) : Option α × Queue α :=
  if q.length = 0 then (none, q)
  else if q.negprioq.heapNext > 1 then
    (q.negprioq.dequeue.1, { q with negprioq := q.negprioq.dequeue.2, length := q.length - 1 })
  else if q.zeroprio.head ≠ q.zeroprio.tail then
    (q.zeroprio.dequeue.1, { q with zeroprio := q.zeroprio.dequeue.2, length := q.length - 1 })
  else if q.posprioq.heapNext > 1 then
    (q.posprioq.dequeue.1, { q with posprioq := q.posprioq.dequeue.2, length := q.length - 1 })
  else (none, q)

/-- `CqsEnumerateQueue`. -/
def enumerate (q : Queue α) : List (Option α) :=
  q.negprioq.enumerate ++ q.zeroprio.enumerate ++ q.posprioq.enumerate

end Queue

end CharmRuntime.Queueing
