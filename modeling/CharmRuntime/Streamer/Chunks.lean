import CharmRuntime.Lib.MemVal
import CharmRuntime.Lib.Transition

/-!
# Streamer.Chunks

`GroupChunkMeshStreamer`: arrays that are sent in chunks of `CHUNK_SIZE` bytes and put
together again at their destination.

The sender copies full chunks of the array in one loop and packs the extra data behind the
end of the array in another. The receiver fills one buffer for each source, and puts a buffer
aside when a chunk of another array from the same source comes in between.

`CHUNK_SIZE` and `sizeof(dtype)` are parameters. `int` and `short` are written out where the
source computes sizes; `numChunks` is the exact ceiling, and buffer numbers do not wrap. A
`memcpy` that leaves its buffer and an allocation of a negative size are a `ChunkFault`.
-/

namespace CharmRuntime.Streamer

open Lib

inductive ChunkFault
  /-- A `memcpy` outside of a buffer. -/
  | outOfBounds
  | badAlloc
  /-- The sender's loop does not end. -/
  | endless
deriving DecidableEq, Repr

/-- Conversion to `int`. -/
def toInt (x : Int) : Int := x.bmod (2 ^ 32)

/-- Conversion to `short`. -/
def toShort (x : Int) : Int := x.bmod (2 ^ 16)

/-- `memcpy(dst + dstOff, src + srcOff, len)`. -/
def memcpy (dst : List MemVal) (dstOff : Int) (src : List MemVal) (srcOff len : Int) :
    Except ChunkFault (List MemVal) :=
  if 0 ≤ dstOff ∧ 0 ≤ srcOff ∧ 0 ≤ len ∧ dstOff + len ≤ dst.length ∧ srcOff + len ≤ src.length then
    .ok (dst.take dstOff.toNat ++ (src.drop srcOff.toNat).take len.toNat ++
      dst.drop (dstOff.toNat + len.toNat))
  else .error .outOfBounds

structure ChunkDataItem (P : Type) where
  chunkSize : Int
  bufferNumber : Nat
  sourcePe : P
  chunkNumber : Nat
  numChunks : Int
  numItems : Nat
  rawData : List MemVal

variable {P : Type}

/-! ### The sender -/

/-- The loop over full chunks: where it stops, the chunk as it leaves it, and what it sends. -/
def fullChunks (cs : Nat) (inputData : List MemVal) (arraySizeInBytes : Int) :
    Nat → Int → ChunkDataItem P → Except ChunkFault (Int × ChunkDataItem P × List (ChunkDataItem P))
  | 0, _, _ => .error .endless
  | fuel + 1, offset, chunk =>
    if offset < toInt (arraySizeInBytes - cs) then do
      let rawData ← memcpy chunk.rawData 0 inputData offset cs
      let chunk := { chunk with rawData := rawData }
      let (offset, last, sent) ← fullChunks cs inputData arraySizeInBytes fuel (toInt (offset + cs))
        { chunk with chunkNumber := chunk.chunkNumber + 1 }
      .ok (offset, last, chunk :: sent)
    else .ok (offset, chunk, [])

/-- The loop that packs the extra data. -/
def extraChunks (cs : Nat) (extraData : List MemVal) (totalSizeInBytes : Int) :
    Nat → (offset tempOffset remainingToSend extraOffset : Int) → ChunkDataItem P →
      Except ChunkFault (List (ChunkDataItem P))
  | 0, _, _, _, _, _ => .error .endless
  | fuel + 1, offset, tempOffset, remainingToSend, extraOffset, chunk => do
      let chunkSize := toShort (min (tempOffset + remainingToSend) cs)
      let rawData ← memcpy chunk.rawData tempOffset extraData extraOffset (chunkSize - tempOffset)
      let chunk := { chunk with chunkSize := chunkSize, rawData := rawData }
      let offset := toInt (offset + cs)
      if offset < totalSizeInBytes then do
        let sent ← extraChunks cs extraData totalSizeInBytes fuel offset 0
          (remainingToSend - (chunkSize - tempOffset)) (extraOffset + (chunkSize - tempOffset))
          { chunk with chunkNumber := chunk.chunkNumber + 1 }
        .ok (chunk :: sent)
      else .ok [chunk]

/-- `GroupChunkMeshStreamer::insertData`: the chunks that it inserts. Every round of a loop
but the last advances by `CHUNK_SIZE`, so that there are at most as many rounds as bytes, and
one more. -/
def insertData (cs sizeofDtype : Nat) (bufferNumber : Nat) (myIndex : P) (dataArray : List UInt8)
    (numElements : Nat) (extraData : List UInt8) : Except ChunkFault (List (ChunkDataItem P)) := do
  let inputData := dataArray.map MemVal.byte
  let extra := extraData.map MemVal.byte
  let rounds := dataArray.length + extraData.length + 1
  let arraySizeInBytes := toInt (numElements * sizeofDtype)
  let totalSizeInBytes := toInt (arraySizeInBytes + extraData.length)
  let chunk : ChunkDataItem P :=
    { bufferNumber := bufferNumber
      sourcePe := myIndex
      chunkNumber := 0
      chunkSize := toShort cs
      numChunks := (totalSizeInBytes + cs - 1) / cs
      numItems := numElements
      rawData := List.replicate cs MemVal.blank }
  let (offset, chunk, full) ← fullChunks cs inputData arraySizeInBytes rounds 0 chunk
  let chunkSize := toShort (arraySizeInBytes - offset)
  let rawData ← memcpy (List.replicate cs (MemVal.byte 0)) 0 inputData offset chunkSize
  let rest ← extraChunks cs extra totalSizeInBytes rounds offset chunkSize extraData.length 0
    { chunk with chunkSize := chunkSize, rawData := rawData }
  .ok (full ++ rest)

/-! ### The receiver -/

structure ChunkReceiveBuffer where
  bufferNumber : Nat
  receivedChunks : Nat
  buffer : Option (List MemVal)

structure ChunkOutOfOrderBuffer (P : Type) where
  bufferNumber : Nat
  receivedChunks : Nat
  sourcePe : P
  buffer : List MemVal

structure ChunkReceiver (P : Type) where
  lastReceived : P → ChunkReceiveBuffer
  outOfOrderBuffers : List (ChunkOutOfOrderBuffer P)

/-- The arguments of `receiveArray`. -/
structure ReceivedArray (P : Type) where
  buffer : List MemVal
  numItems : Nat
  sourcePe : P

/-- `new char[numChunks * CHUNK_SIZE]`. -/
def newBuffer (cs : Nat) (numChunks : Int) : Except ChunkFault (List MemVal) :=
  if toInt (numChunks * cs) < 0 then .error .badAlloc
  else .ok (List.replicate (toInt (numChunks * cs)).toNat MemVal.blank)

variable [DecidableEq P]

/-- `ChunkOutOfOrderBuffer::operator==`. -/
def ChunkOutOfOrderBuffer.matches (b : ChunkOutOfOrderBuffer P) (chunk : ChunkDataItem P) : Bool :=
  chunk.bufferNumber = b.bufferNumber ∧ chunk.sourcePe = b.sourcePe

/-- The buffer of the chunk's array becomes the last one of its source: it is taken from
`stored`, or is a new one. -/
def resumeBuffer (cs : Nat) (chunk : ChunkDataItem P) (stored : List (ChunkOutOfOrderBuffer P))
    (s : ChunkReceiver P) : Except ChunkFault (ChunkReceiver P) :=
  match stored.find? (·.matches chunk) with
  | none => do
      let buffer ← newBuffer cs chunk.numChunks
      let last : ChunkReceiveBuffer :=
        { bufferNumber := chunk.bufferNumber, receivedChunks := 0, buffer := some buffer }
      .ok { lastReceived := Function.update s.lastReceived chunk.sourcePe last
            outOfOrderBuffers := stored }
  | some b =>
    let last : ChunkReceiveBuffer :=
      { bufferNumber := chunk.bufferNumber, receivedChunks := b.receivedChunks
        buffer := some b.buffer }
    .ok { lastReceived := Function.update s.lastReceived chunk.sourcePe last
          outOfOrderBuffers := stored.eraseP (·.matches chunk) }

/-- The first part of `processChunk`: the last buffer of the chunk's source becomes the one
of its array. -/
def selectBuffer (cs : Nat) (chunk : ChunkDataItem P) (s : ChunkReceiver P) :
    Except ChunkFault (ChunkReceiver P) :=
  let last := s.lastReceived chunk.sourcePe
  match last.buffer with
  | none => resumeBuffer cs chunk s.outOfOrderBuffers s
  | some buffer =>
    if last.bufferNumber ≠ chunk.bufferNumber then
      let aside : ChunkOutOfOrderBuffer P :=
        { bufferNumber := last.bufferNumber, receivedChunks := last.receivedChunks
          sourcePe := chunk.sourcePe, buffer := buffer }
      resumeBuffer cs chunk (aside :: s.outOfOrderBuffers) s
    else .ok s

/-- `processChunk`, and the call of `receiveArray` it makes. -/
def processChunk (cs : Nat) (chunk : ChunkDataItem P) (s : ChunkReceiver P) :
    Except ChunkFault (ChunkReceiver P × Option (ReceivedArray P)) := do
  let s ← selectBuffer cs chunk s
  let last := s.lastReceived chunk.sourcePe
  let buffer ← memcpy (last.buffer.getD []) (chunk.chunkNumber * cs) chunk.rawData 0 chunk.chunkSize
  if (last.receivedChunks + 1 : Int) = chunk.numChunks then
    let last : ChunkReceiveBuffer := { last with receivedChunks := 0, buffer := none }
    let received : ReceivedArray P :=
      { buffer := buffer, numItems := chunk.numItems, sourcePe := chunk.sourcePe }
    .ok ({ s with lastReceived := Function.update s.lastReceived chunk.sourcePe last },
    some received)
  else
    let last : ChunkReceiveBuffer :=
      { last with receivedChunks := last.receivedChunks + 1, buffer := some buffer }
    .ok ({ s with lastReceived := Function.update s.lastReceived chunk.sourcePe last }, none)

/-! ### All processors -/

/-- An array on its way: who sent it, to whom, and as which buffer. -/
structure ArrayKey (P : Type) where
  source : P
  destination : P
  bufferNumber : Nat
deriving DecidableEq

/-- A call of `insertData`. -/
structure InsertCall (P : Type) where
  key : ArrayKey P
  dataArray : List UInt8
  numElements : Nat
  extraData : List UInt8

/-- The senders' buffer numbers, the receivers, the chunks on their way, and a record of the
calls of `insertData` and of `receiveArray`. -/
structure ChunkWorld (P : Type) where
  currentBufferNumbers : P → P → Nat
  receiver : P → ChunkReceiver P
  net : List (P × ChunkDataItem P)
  calls : List (InsertCall P)
  received : List (ArrayKey P × ReceivedArray P)

/-- A call of `insertData` on `source`, or the arrival of chunk `k`. -/
inductive ChunkEvent (P : Type)
  | insert (source destination : P) (dataArray : List UInt8) (numElements : Nat)
      (extraData : List UInt8)
  | deliver (k : Nat)

/-- The array that a chunk on its way to `destination` is part of. -/
def ChunkDataItem.key (destination : P) (chunk : ChunkDataItem P) : ArrayKey P :=
  { source := chunk.sourcePe, destination := destination, bufferNumber := chunk.bufferNumber }

namespace ChunkWorld

def initial : ChunkWorld P where
  currentBufferNumbers := fun _ _ => 0
  receiver := fun _ =>
    { lastReceived := fun _ => { bufferNumber := 0, receivedChunks := 0, buffer := none }
      outOfOrderBuffers := [] }
  net := []
  calls := []
  received := []

/-- The array has `numElements` elements, and there is something to send. -/
def Enabled (sizeofDtype : Nat) (w : ChunkWorld P) : ChunkEvent P → Prop
  | .insert _ _ dataArray numElements extraData =>
    dataArray.length = numElements * sizeofDtype ∧ 0 < dataArray.length + extraData.length
  | .deliver k => k < w.net.length

instance (sizeofDtype : Nat) (w : ChunkWorld P) (e : ChunkEvent P) :
    Decidable (w.Enabled sizeofDtype e) :=
  match e with
  | .insert _ _ dataArray numElements extraData =>
    inferInstanceAs (Decidable (dataArray.length = numElements * sizeofDtype ∧
      0 < dataArray.length + extraData.length))
  | .deliver k => inferInstanceAs (Decidable (k < w.net.length))

/-- One event. -/
def next (cs sizeofDtype : Nat) (w : ChunkWorld P) :
    ChunkEvent P → Except ChunkFault (ChunkWorld P)
  | .insert source destination dataArray numElements extraData => do
      let bufferNumber := w.currentBufferNumbers source destination
      let chunks ← insertData cs sizeofDtype bufferNumber source dataArray numElements extraData
      let call : InsertCall P :=
        { key := { source := source, destination := destination, bufferNumber := bufferNumber }
          dataArray := dataArray, numElements := numElements, extraData := extraData }
      .ok { w with
            currentBufferNumbers := Function.update w.currentBufferNumbers source
              (Function.update (w.currentBufferNumbers source) destination (bufferNumber + 1))
            net := w.net ++ chunks.map (destination, ·)
            calls := w.calls ++ [call] }
  | .deliver k =>
    match w.net[k]? with
    | none => .ok w
    | some (destination, chunk) => do
        let (receiver, received) ← processChunk cs chunk (w.receiver destination)
        .ok { w with
              receiver := Function.update w.receiver destination receiver
              net := w.net.eraseIdx k
              received := w.received ++ received.toList.map (chunk.key destination, ·) }

end ChunkWorld

/-- The runs with chunks of `cs` bytes. -/
def chunkSystem (cs sizeofDtype : Nat) : Transition (ChunkWorld P) (ChunkEvent P) where
  init w := w = .initial
  step w e w' := w.Enabled sizeofDtype e ∧ w.next cs sizeofDtype e = .ok w'

end CharmRuntime.Streamer
