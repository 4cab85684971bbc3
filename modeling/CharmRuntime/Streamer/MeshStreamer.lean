import CharmRuntime.Lib.Outcome
import CharmRuntime.Streamer.MeshRouter

/-!
# Streamer.MeshStreamer

`MeshStreamer` with a `SimpleMeshRouter`: **items in buffers**. Each PE has a buffer for every
coordinate of every dimension. An item is put into the buffer that its route leads to; a buffer is
sent when it is full, when it is the largest one and too many items are buffered, or when it is
flushed. What comes along the last dimension of its routes is at its destination; everything else is
put into the next buffer.

The streamers of all PEs and the messages on their way are one state, and a routine of PE `p`
changes the streamer of `p` and appends to the messages. What a client does with the items that are
at their destination is not part of it, but `receiveAlongRoute` hands them out in order. Broadcasts,
which a `SimpleMeshRouter` has not, are left out.
-/

namespace CharmRuntime.Streamer

open Lib

/-- A `MeshStreamerMessage`, with the PE it was sent from. -/
structure Message (ι : Type) where
  srcPe : Nat
  msgType : Nat
  /-- `dataItems`, each with its entry of `destinationPes`, of which a personalized message has
  none. -/
  entries : List (ι × Nat)
  /-- `none` is -1. -/
  finalMsgCount : Option Nat

structure MeshStreamer (ι : Type) where
  /-- The message of a dimension and a coordinate, which is `NULL` if there are no entries. -/
  dataBuffers : Nat × Nat → List (ι × Nat)
  numDataItemsBuffered : Int
  hasSentRecently : Bool
  cntMsgSent : Nat × Nat → Nat

/-- What the constructor and `init` are given. -/
structure StreamerConfig where
  topology : Topology
  bufferSize : Nat
  bufferSize_pos : 0 < bufferSize
  maxNumDataItemsBuffered : Int
  useStagedCompletion : Bool

namespace MeshStreamer

variable {ι : Type}

/-- An item is put into a buffer. -/
def addEntry (st : MeshStreamer ι) (slot : Nat × Nat) (e : ι × Nat) : MeshStreamer ι :=
  { st with
    dataBuffers := Function.update st.dataBuffers slot (st.dataBuffers slot ++ [e])
    numDataItemsBuffered := st.numDataItemsBuffered + 1 }

/-- What sending a buffer leaves. -/
def clear (cfg : StreamerConfig) (st : MeshStreamer ι) (slot : Nat × Nat) : MeshStreamer ι :=
  { st with
    dataBuffers := Function.update st.dataBuffers slot []
    numDataItemsBuffered := st.numDataItemsBuffered - (st.dataBuffers slot).length
    cntMsgSent :=
      if cfg.useStagedCompletion then Function.update st.cntMsgSent slot
        (st.cntMsgSent slot + 1) else st.cntMsgSent }

end MeshStreamer

/-- The streamers of all PEs, and the messages on their way to a PE. -/
structure MeshState (ι : Type) where
  pes : Nat → MeshStreamer ι
  net : List (Nat × Message ι)

inductive StreamFault
  /-- No such buffer. -/
  | outOfRange
  /-- `CkAssert`. -/
  | assertion
  /-- `CkAbort`. -/
  | abort
  deriving DecidableEq

namespace MeshState

variable {ι : Type} (cfg : StreamerConfig)

def new : MeshState ι where
  pes _ := { dataBuffers := fun _ => [], numDataItemsBuffered := 0, hasSentRecently := false,
             cntMsgSent := fun _ => 0 }
  net := []

/-- The streamer of a PE is replaced. -/
def setPe (s : MeshState ι) (p : Nat) (st : MeshStreamer ι) :
    MeshState ι := { s with pes := Function.update s.pes p st }

/-- The message of this number is taken. -/
def take (s : MeshState ι) (k : Nat) : MeshState ι := { s with net := s.net.eraseIdx k }

def setSent (s : MeshState ι) (p : Nat) (b : Bool) :
    MeshState ι := s.setPe p { s.pes p with hasSentRecently := b }

/-- An item is put into a buffer. -/
def addEntry (s : MeshState ι) (p : Nat) (slot : Nat × Nat) (e : ι × Nat) : MeshState ι :=
  s.setPe p ((s.pes p).addEntry slot e)

/-- A buffer is sent; with `sendMsgCounts` it says how many were, if this is counted. -/
def sendBuffer (s : MeshState ι) (p : Nat) (slot : Nat × Nat) (destinationPe : Int)
    (sendMsgCounts : Bool) : MeshState ι :=
  let st := (s.pes p).clear cfg slot
  let msg : Message ι :=
    { srcPe := p
      msgType := slot.1
      entries := (s.pes p).dataBuffers slot
      finalMsgCount :=
        if cfg.useStagedCompletion && sendMsgCounts then some (st.cntMsgSent slot) else none }
  { pes := Function.update s.pes p st
    net := s.net ++ [(destinationPe.toNat, msg)] }

/-- The largest buffer of a dimension, with its size, which is 0 if all are empty. -/
def largest (s : MeshState ι) (p d : Nat) : Nat × Nat :=
  (List.range (cfg.topology.size d)).foldl (fun best j =>
    let numDataItems := ((s.pes p).dataBuffers (d, j)).length
    if best.1 < numDataItems then (numDataItems, j) else best) (0, 0)

def sendLargestBuffer (s : MeshState ι) (p : Nat) : MeshState ι :=
  (List.range cfg.topology.numDimensions).foldl (fun s d =>
    let (maxSize, flushIndex) := s.largest cfg p d
    if 0 < maxSize then s.sendBuffer cfg p (d, flushIndex)
      (nextPeAlongRoute cfg.topology p d flushIndex) false
    else s) s

/-- The body of the loop of `flushDimension`. -/
def flushBuffer (s : MeshState ι) (p d j : Nat) (sendMsgCounts : Bool) : MeshState ι :=
  if isBufferInUse cfg.topology p d j && ((s.pes p).dataBuffers (d, j) ≠ [] || sendMsgCounts) then
    s.sendBuffer cfg p (d, j) (nextPeAlongRoute cfg.topology p d j) sendMsgCounts
  else s

def flushDimension (s : MeshState ι) (p d : Nat) (sendMsgCounts : Bool) : MeshState ι :=
  (List.range (cfg.topology.size d)).foldl (fun s j => s.flushBuffer cfg p d j sendMsgCounts) s

def flushToIntermediateDestinations (s : MeshState ι) (p : Nat) : MeshState ι :=
  (List.range cfg.topology.numDimensions).foldl (fun s d => s.flushDimension cfg p d false) s

def flushIfIdle (s : MeshState ι) (p : Nat) (isPeriodicFlushEnabled : Bool) :
    Except StreamFault (MeshState ι) :=
  if isPeriodicFlushEnabled = false ∨ (s.pes p).hasSentRecently = false then
    let s := if (s.pes p).numDataItemsBuffered ≠ 0 then s.flushToIntermediateDestinations
      cfg p else s
    if (s.pes p).numDataItemsBuffered = 0 then .ok (s.setSent p false) else .error .assertion
  else .ok (s.setSent p false)

/-- `storeMessage`. Without a route the dimension is `routeNotFound`, which is -1. -/
def storeMessage (s : MeshState ι) (p destinationPe : Nat) (route : Option Route) (item : ι) :
    Except StreamFault (MeshState ι) :=
  match route with
  | none => .error .outOfRange
  | some r =>
    if r.dimension < cfg.topology.numDimensions ∧
      r.dimensionIndex < cfg.topology.size r.dimension then
      let slot := (r.dimension, r.dimensionIndex)
      let s := s.addEntry p slot (item, destinationPe)
      if ((s.pes p).dataBuffers slot).length = cfg.bufferSize then
        .ok ((s.sendBuffer cfg p slot r.destinationPe false).setSent p true)
      else if (s.pes p).numDataItemsBuffered = cfg.maxNumDataItemsBuffered then
        .ok ((s.sendLargestBuffer cfg p).setSent p true)
      else .ok s
    else .error .outOfRange

/-- `insertData` for another PE. -/
def insertData (s : MeshState ι) (p destinationPe : Nat) (item : ι) :
    Except StreamFault (MeshState ι) :=
  s.storeMessage cfg p destinationPe (determineInitialRoute cfg.topology p destinationPe) item

/-- The loop of `receiveAlongRoute`, with `lastDestinationPe`, the route to it and what was
delivered so far. -/
def receiveLoop (p msgType : Nat) :
    List (ι × Nat) → Option Nat → Option Route → MeshState ι → List ι →
    Except StreamFault (MeshState ι × List ι)
  | [], _, _, s, delivered => .ok (s, delivered)
  | (item, destinationPe) :: entries, lastDestinationPe, route, s, delivered =>
    if destinationPe = p then receiveLoop p msgType entries (some destinationPe) route s
      (delivered ++ [item])
    else
      let route :=
        if some destinationPe ≠ lastDestinationPe then determineRoute cfg.topology p destinationPe
          msgType else route
      match s.storeMessage cfg p destinationPe route item with
      | .error e => .error e
      | .ok s => receiveLoop p msgType entries (some destinationPe) route s delivered

/-- `receiveAlongRoute` on `p`, and the items that are delivered there. -/
def receiveAlongRoute (s : MeshState ι) (p : Nat) (msg : Message ι) :
    Except StreamFault (MeshState ι × List ι) :=
  receiveLoop cfg p msg.msgType msg.entries none none s []

end MeshState

end CharmRuntime.Streamer
