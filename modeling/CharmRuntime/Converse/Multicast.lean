import CharmRuntime.Converse.Block
import CharmRuntime.Lib.Transition

/-!
# Converse.Multicast

Multicast to a group of processors (`CmiEstablishGroup`, `CmiSyncMulticastFn`).

A group definition is broadcast to all processors, each of which keeps it in a hash table. A
multicast message travels down an implicit binary tree of the positions of the group inside
a carrier (`struct MultiMsg` followed by as many bytes as the message has). The carrier is
a block of bytes here: the fields of the structure are stored in and read from its bytes,
and the message's bytes are copied as the code copies them.

`hdr` is `CmiMsgHeaderSizeBytes`, a constant of the machine layer. A length that does not fit
in an `int` and an `int` that overflows end the program.
-/

namespace CharmRuntime.Converse

open Lib

/-- `CmiGroup`. -/
structure Group where
  pe : Nat
  id : Nat
  deriving Repr, DecidableEq

/-- `struct GroupDef`, with `npes` as the length of `pes`. -/
structure GroupDef where
  group : Group
  pes : List Nat
  deriving Repr, DecidableEq

/-! ### The group table -/

/-- `GROUPTAB_SIZE`. -/
def groupTabSize : Nat := 101

/-- The bucket of a group. -/
def groupBucket (g : Group) : Nat := (g.id ^^^ g.pe) % groupTabSize

/-- `CmiGroupTable` of one processor: the chain of each bucket. -/
abbrev GroupTable : Type := Nat → List GroupDef

/-- `CmiGroupHandler`: the definition goes to the front of its bucket. -/
def groupHandler (d : GroupDef) (table : GroupTable) : GroupTable :=
  Function.update table (groupBucket d.group) (d :: table (groupBucket d.group))

/-- `CmiLookupGroup`: `none` where the source sets `*pes = 0`. -/
def lookupGroup (g : Group) (table : GroupTable) : Option (List Nat) :=
  ((table (groupBucket g)).find? (·.group = g)).map GroupDef.pes

/-! ### Carriers -/

/-- `sizeof(struct MultiMsg)`. -/
def multiSize (hdr : Nat) : Nat := fieldOff hdr + 16

/-- `sizeof(struct GroupDef)`: a union of `core` and a pointer, the group, `npes` and one
`int`. -/
def groupDefSize (hdr : Nat) : Nat := (hdr + 7) / 8 * 8 + 16

/-- What travels between processors; the constructor is the handler of the message. -/
inductive Packet
  /-- A group definition, for `CmiGroupHandler`. -/
  | group (d : GroupDef)
  /-- A carrier, for `CmiMulticastHandler`. -/
  | multi (buf : List MemVal)
  /-- A message of the user. -/
  | user (bytes : List MemVal)
  deriving DecidableEq

/-- `CmiSyncSend` of the first `len` bytes of a carrier. -/
def sendCarrier (dst : Nat) (len : Nat) (buf : List MemVal) : Except BlockAbort (Nat × Packet) :=
  match MemVal.slice buf 0 len with
  | none => .error .overrun
  | some bs => .ok (dst, .multi bs)

/-- The part for one child in `CmiMulticastDeliver`: the carrier is changed in place before it
is sent. -/
def forwardTo (hdr nlen : Nat) (pes : List Nat) (child : Nat) (buf : List MemVal) :
    Except BlockAbort (List MemVal × List (Nat × Packet)) :=
  match pes[child]? with
  | none => .ok (buf, [])
  | some dst => do
      let buf ← writeInt buf (fieldOff hdr + 8) child
      let m ← sendCarrier dst nlen buf
      return (buf, [m])

/-- The bytes of the message put back in order at the start of the block. -/
def restoreBytes (size olen : Nat) (buf : List MemVal) : Except BlockAbort (List MemVal) :=
  if olen < size then memcpyWithin buf 0 size olen else memcpyWithin buf 0 olen size

/-- The restored message, sent to the processor itself. -/
def deliverLocally (hdr olen me : Nat) (buf : List MemVal) :
    Except BlockAbort (Nat × Packet) := do
  let buf ← restoreBytes (multiSize hdr) olen buf
  match MemVal.slice buf 0 olen with
  | none => .error .overrun
  | some bytes => .ok (me, .user bytes)

/-- `CmiMulticastDeliver` on processor `me`: the messages it sends. -/
def multicastDeliver (hdr me : Nat) (table : GroupTable) (buf : List MemVal) :
    Except BlockAbort (List (Nat × Packet)) := do
  let olen ← readInt buf (fieldOff hdr + 12)
  let nlen := olen.toNat + multiSize hdr
  let pe ← readInt buf (fieldOff hdr)
  let id ← readInt buf (fieldOff hdr + 4)
  match lookupGroup { pe := pe.toNat, id := id.toNat } table with
  | none => do
      -- the definition has not come yet: back to the end of the queue
      let m ← sendCarrier me nlen buf
      return [m]
  | some [] => return []
  | some (first :: rest) => do
      let pos ← readInt buf (fieldOff hdr + 8)
      if pos = -1 then do
        let buf ← writeInt buf (fieldOff hdr + 8) 0
        let m ← sendCarrier first nlen buf
        return [m]
      else if 2 * (pos + 1) > maxInt then .error .overflow
      else do
        let child1 := (2 * (pos + 1)).toNat
        let (buf, out1) ← forwardTo hdr nlen (first :: rest) child1 buf
        let (buf, out2) ← forwardTo hdr nlen (first :: rest) (child1 - 1) buf
        let m ← deliverLocally hdr olen.toNat me buf
        return out1 ++ out2 ++ [m]

/-- The message's bytes copied behind the structure; the first `size` bytes of a message that
is not shorter go to the end. -/
def storeBytes (size : Nat) (msg buf : List MemVal) : Except BlockAbort (List MemVal) :=
  if msg.length < size then writeBytes buf size msg
  else do
    let buf ← writeBytes buf size (msg.drop size)
    writeBytes buf msg.length (msg.take size)

/-- The carrier that `CmiSyncMulticastFn` makes: a new block, the message's bytes, then the
fields. -/
def makeCarrier (hdr : Nat) (grp : Group) (msg : List MemVal) : Except BlockAbort (List MemVal) :=
  let len := msg.length
  if len + multiSize hdr > maxInt then .error .badAlloc
  else do
    let buf ← storeBytes (multiSize hdr) msg (List.replicate (len + multiSize hdr) MemVal.blank)
    let buf ← writeInt buf (fieldOff hdr) grp.pe
    let buf ← writeInt buf (fieldOff hdr + 4) grp.id
    let buf ← writeInt buf (fieldOff hdr + 12) len
    writeInt buf (fieldOff hdr + 8) (-1)

/-- `CmiSyncMulticastFn` on processor `me`. -/
def syncMulticast (hdr me : Nat) (table : GroupTable) (grp : Group) (msg : List MemVal) :
    Except BlockAbort (List (Nat × Packet)) := do
  let buf ← makeCarrier hdr grp msg
  multicastDeliver hdr me table buf

/-- `CmiEstablishGroup` on processor `me`, up to the broadcast; `counter` is
`CmiGroupCounter`. -/
def establishGroup (hdr me counter : Nat) (pes : List Nat) : Except BlockAbort GroupDef :=
  -- `CmiGroupCounter++`
  if counter ≥ maxInt then .error .overflow
  else if groupDefSize hdr + 4 * pes.length > maxInt then .error .badAlloc
  else .ok { group := { pe := me, id := counter }, pes := pes }

/-! ### The machine -/

/-- The processors, the network, the messages delivered to the user, and a record of the
groups established and the multicasts made. -/
structure MultiWorld where
  counter : Nat → Nat
  table : Nat → GroupTable
  net : List (Nat × Packet)
  delivered : List (Nat × List MemVal)
  groups : List GroupDef
  calls : List (GroupDef × List UInt8)

/-- A group is established on `p`, a message is multicast on `p`, or packet `k` arrives. -/
inductive MultiEvent
  | establish (p : Nat) (pes : List Nat)
  | multicast (p : Nat) (d : GroupDef) (msg : List UInt8)
  | arrive (k : Nat)

namespace MultiWorld

def initial : MultiWorld where
  counter := fun _ => 0
  table := fun _ _ => []
  net := []
  delivered := []
  groups := []
  calls := []

/-- The group is one that was established, and the message has a header. -/
def Allowed (hdr : Nat) (w : MultiWorld) : MultiEvent → Prop
  | .establish _ _ => True
  | .multicast _ d msg => d ∈ w.groups ∧ hdr ≤ msg.length
  | .arrive k => k < w.net.length

instance (hdr : Nat) (w : MultiWorld) (e : MultiEvent) : Decidable (w.Allowed hdr e) :=
  match e with
  | .establish _ _ => inferInstanceAs (Decidable True)
  | .multicast _ d msg => inferInstanceAs (Decidable (d ∈ w.groups ∧ hdr ≤ msg.length))
  | .arrive k => inferInstanceAs (Decidable (k < w.net.length))

/-- One event on a machine of `n` processors. -/
def next (hdr n : Nat) (w : MultiWorld) : MultiEvent → Except BlockAbort MultiWorld
  | .establish p pes =>
    match establishGroup hdr p (w.counter p) pes with
    | .error e => .error e
    | .ok d => .ok { w with
                     counter := Function.update w.counter p (w.counter p + 1)
                     net := w.net ++ (List.range n).map fun q => (q, .group d)
                     groups := w.groups ++ [d] }
  | .multicast p d msg =>
    match syncMulticast hdr p (w.table p) d.group (msg.map MemVal.byte) with
    | .error e => .error e
    | .ok out => .ok { w with net := w.net ++ out, calls := w.calls ++ [(d, msg)] }
  | .arrive k =>
    match w.net[k]? with
    | none => .ok w
    | some (p, .group d) => .ok { w with
                                  net := w.net.eraseIdx k
                                  table := Function.update w.table p (groupHandler d (w.table p)) }
    | some (p, .multi buf) =>
      match multicastDeliver hdr p (w.table p) buf with
      | .error e => .error e
      | .ok out => .ok { w with net := w.net.eraseIdx k ++ out }
    | some (p, .user bytes) => .ok { w with
                                     net := w.net.eraseIdx k
                                     delivered := w.delivered ++ [(p, bytes)] }

/-- A list of events, each of which has to be allowed and to succeed. -/
def run (hdr n : Nat) (w : MultiWorld) : List MultiEvent → Option MultiWorld
  | [] => some w
  | e :: es =>
    if w.Allowed hdr e then
      match w.next hdr n e with
      | .error _ => none
      | .ok w' => w'.run hdr n es
    else none

end MultiWorld

/-- The machine as a transition system. -/
def multicastSystem (hdr n : Nat) : Transition MultiWorld MultiEvent where
  init w := w = .initial
  step w e w' := w.Allowed hdr e ∧ w.next hdr n e = .ok w'

theorem reachable_of_run {hdr n : Nat} {w w' : MultiWorld} {es : List MultiEvent}
    (h : (multicastSystem hdr n).Reachable w) (hrun : w.run hdr n es = some w') :
    (multicastSystem hdr n).Reachable w' := by
  induction es generalizing w with
  | nil => exact Option.some.inj hrun ▸ h
  | cons e es ih =>
    unfold MultiWorld.run at hrun
    split at hrun
    · rename_i he
      split at hrun
      · exact absurd hrun (by simp)
      · rename_i w1 hw1
        exact ih (h.step ⟨he, hw1⟩) hrun
    · exact absurd hrun (by simp)

end CharmRuntime.Converse
