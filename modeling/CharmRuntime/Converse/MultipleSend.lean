import CharmRuntime.Converse.Block
import CharmRuntime.Lib.Transition
import Mathlib.Algebra.BigOperators.Group.Finset.Basic

/-!
# Converse.MultipleSend

Several messages sent as one (`CmiMultipleSend`), and the reference counts that keep the bundle
alive until the last of them is freed (`CmiReference`, `CmiFree`).

Every message has a `CmiChunkHeader` in front of it with its size and its reference count. The
sender puts such a header and padding around each message of the bundle; the receiver's
handler fills a negative number into the count of each sub-message, the way back to the start
of the bundle, and raises the count of the bundle.

A block is modelled from its own chunk header on, and a pointer into it is an index; `c` is
`sizeof(CmiChunkHeader)`, so that the block's message starts at index `c`. `CmiSyncVectorSend`
is taken to deliver its pieces one after the other in a block with reference count one.
-/

namespace CharmRuntime.Converse

open Lib

/-- `sizeof(CmiChunkHeader)`: two `int`s, padded to `ALIGN_BYTES`. -/
def chunkSize (is64Bit : Bool) : Nat := if is64Bit then 16 else 8

/-- `roundUpSize`. -/
def roundUpSize (s : Nat) : Nat := (s + 8 - 1) / 8 * 8

/-- `paddingSize`. -/
def paddingSize (s : Nat) : Nat := roundUpSize s - s

/-- A `CmiChunkHeader`. -/
def chunkHead (c : Nat) (size ref : Int) : List MemVal :=
  MemVal.encodeInt 4 size ++ MemVal.encodeInt 4 ref ++ List.replicate (c - 8) MemVal.blank

/-! ### The sender -/

/-- `sizeof(CmiMultipleSendHeader)`: the header, `nMessages` and an aligned `double`. -/
def multipleHeaderSize (hdr : Nat) : Nat := (fieldOff hdr + 4 + 7) / 8 * 8 + 8

/-- A `CmiMultipleSendHeader`. -/
def multipleHeader (hdr nMessages : Nat) : List MemVal :=
  List.replicate (fieldOff hdr) MemVal.blank ++ MemVal.encodeInt 4 nMessages ++
    List.replicate (multipleHeaderSize hdr - (fieldOff hdr + 4)) MemVal.blank

/-- The three pieces for one message: its chunk header, its bytes, and bytes of `pad = 0`. -/
def messagePieces (c : Nat) (msg : List UInt8) : List (List MemVal) :=
  [chunkHead c (roundUpSize msg.length) 0, msg.map MemVal.byte,
    List.replicate (paddingSize msg.length) (MemVal.byte 0)]

/-- `CmiSyncVectorSend`: the block that arrives. -/
def syncVectorSend (c : Nat) (pieces : List (List MemVal)) : Except BlockAbort (List MemVal) :=
  if pieces.flatten.length > maxInt then .error .badAlloc
  else .ok (chunkHead c pieces.flatten.length 1 ++ pieces.flatten)

/-- `CmiMultipleSend`. -/
def multipleSend (c hdr : Nat) (msgs : List (List UInt8)) : Except BlockAbort (List MemVal) :=
  syncVectorSend c (multipleHeader hdr msgs.length :: msgs.flatMap (messagePieces c))

/-! ### Reference counts -/

/-- A block, and how often it was released. -/
structure BlockState where
  mem : List MemVal
  released : Nat

/-- `REFFIELD(p)`. -/
def refField (c : Nat) (mem : List MemVal) (p : Nat) : Except BlockAbort Int :=
  if p < c then .error .overrun else readInt mem (p - c + 4)

/-- The loop of `CmiAllocFindEnclosing`. -/
def findEnclosing (c : Nat) (mem : List MemVal) : Nat → Nat → Except BlockAbort Nat
  | 0, _ => .error .overrun
  | fuel + 1, p => do
      let refCount ← refField c mem p
      if refCount < 0 then findEnclosing c mem fuel (p + refCount).toNat else .ok p

/-- `CmiAllocFindEnclosing`. Every jump goes down, so that there are at most `p` of them. -/
def allocFindEnclosing (c : Nat) (mem : List MemVal) (p : Nat) : Except BlockAbort Nat :=
  findEnclosing c mem (p + 1) p

/-- `CmiReference`. -/
def cmiReference (c : Nat) (s : BlockState) (p : Nat) : Except BlockAbort BlockState :=
  if s.released ≠ 0 then .error .useAfterFree
  else do
    let parent ← allocFindEnclosing c s.mem p
    let refCount ← refField c s.mem parent
    if refCount ≥ maxInt then .error .overflow
    else do
      let mem ← writeInt s.mem (parent - c + 4) (refCount + 1)
      return { s with mem := mem }

/-- `CmiFree`. -/
def cmiFree (c : Nat) (s : BlockState) (p : Nat) : Except BlockAbort BlockState :=
  if s.released ≠ 0 then .error .useAfterFree
  else do
    let parent ← allocFindEnclosing c s.mem p
    let refCount ← refField c s.mem parent
    if refCount = 0 then .error .duplicateFree
    else do
      let mem ← writeInt s.mem (parent - c + 4) (refCount - 1)
      return { mem := mem, released := if refCount - 1 = 0 then s.released + 1 else s.released }

/-! ### The receiver -/

/-- The loop of `CmiMultiMsgHandler`: `pos` is the chunk header of the next message, `queue` the
messages enqueued so far, each with its size. -/
def multiMsgLoop (c : Nat) : Nat → Nat → BlockState → List (Nat × Int) →
    Except BlockAbort (BlockState × List (Nat × Int))
  | 0, _, s, queue => .ok (s, queue)
  | len + 1, pos, s, queue => do
      let msg := pos + c
      let msgSize ← readInt s.mem pos
      -- the way back to the start of the bundle
      let mem ← writeInt s.mem (pos + 4) ((c : Int) - msg)
      let s ← cmiReference c { s with mem := mem } msg
      multiMsgLoop c len (pos + c + msgSize.toNat) s (queue ++ [(msg, msgSize)])

/-- `CmiMultiMsgHandler`: the block afterwards and the messages enqueued. -/
def multiMsgHandler (c hdr : Nat) (s : BlockState) :
    Except BlockAbort (BlockState × List (Nat × Int)) := do
  let len ← readInt s.mem (c + fieldOff hdr)
  let res ← multiMsgLoop c len.toNat (c + multipleHeaderSize hdr) s []
  let s ← cmiFree c res.1 c
  return (s, res.2)

/-- The receiver after the handler: the block, and the references held to each sub-message. -/
structure Receiver where
  block : BlockState
  held : Nat → Nat

/-- `CmiReference` or `CmiFree` of sub-message `i`. -/
inductive RecvEvent
  | reference (i : Nat)
  | free (i : Nat)

/-- All references held to `n` sub-messages. -/
def totalHeld (held : Nat → Nat) (n : Nat) : Nat := ∑ i ∈ Finset.range n, held i

namespace Receiver

/-- A reference is given back once, and none is taken when no other is left. -/
def Allowed (n : Nat) (r : Receiver) : RecvEvent → Prop
  | .reference i => i < n ∧ 0 < totalHeld r.held n
  | .free i => i < n ∧ 0 < r.held i

/-- One call, where `queue` are the sub-messages. -/
def next (c : Nat) (queue : List (Nat × Int)) (r : Receiver) :
    RecvEvent → Except BlockAbort Receiver
  | .reference i => do
      let block ← cmiReference c r.block (queue.getD i (0, 0)).1
      return { block := block, held := Function.update r.held i (r.held i + 1) }
  | .free i => do
      let block ← cmiFree c r.block (queue.getD i (0, 0)).1
      return { block := block, held := Function.update r.held i (r.held i - 1) }

end Receiver

/-- The receiver as a transition system: at the start one reference is held to each
sub-message. -/
def recvSystem (c : Nat) (block : BlockState) (queue : List (Nat × Int)) :
    Transition Receiver RecvEvent where
  init r := r = { block := block, held := fun i => if i < queue.length then 1 else 0 }
  step r e r' := r.Allowed queue.length e ∧ r.next c queue e = .ok r'

end CharmRuntime.Converse
