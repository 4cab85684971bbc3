import CharmRuntime.Lib.Transition
import Mathlib.Data.List.Basic

/-!
# Legion.Metadata

`MetadataBase` of the low-level runtime: the copies of an object's metadata that
other nodes keep. A node asks the owner once and is given an event for the
response; the owner remembers in `remote_copies` who has a copy. When the object
is cleaned up, the owner tells these nodes to drop their copies and waits for
their acknowledgements.

The invalidation may arrive before the response it makes obsolete; `STATE_INVALIDATE`
is entered then. `handle_response` has no case for this state.

The metadata itself is left out. A `GenEventImpl *` is the number of the event.
A failed assertion is a `MetadataFault`.
-/

namespace CharmRuntime.Legion.Metadata

open Lib

/-- The assertions, each under what it excludes. -/
inductive MetadataFault
  /-- A request at an owner that is not valid. -/
  | ownerNotValid
  /-- A request from a node that has a copy. -/
  | requestedTwice
  /-- A response in another state than `STATE_REQUESTED`. -/
  | unexpectedResponse
  /-- The owner asks itself. -/
  | requestFromSelf
  /-- `STATE_REQUESTED` without an event. -/
  | noValidEvent
  /-- "requesting metadata we've been told is invalid!" -/
  | requestInvalidated
  /-- "requesting metadata in CLEANUP state!" -/
  | requestInCleanup
  /-- `initiate_cleanup` in another state than `STATE_VALID`. -/
  | cleanupNotValid
  /-- An invalidation in another state than `STATE_VALID` and `STATE_REQUESTED`. -/
  | unexpectedInvalidate
  /-- An acknowledgement from a node without a copy. -/
  | ackWithoutCopy
deriving DecidableEq, Repr

/-- `MetadataBase::State`. -/
inductive State
  | invalid
  | valid
  | requested
  | invalidate
  | cleanup
deriving DecidableEq, Repr

/-- `MetadataBase` on one node. -/
structure MetadataBase (N : Type) where
  state : State := .invalid
  validEvent : Option Nat := none
  remoteCopies : List N := []

/-- The four messages, with the node that is not the owner. -/
inductive Msg (N : Type)
  | request (node : N)
  | response (node : N)
  | invalidate (node : N)
  | ack (node : N)
deriving DecidableEq

/-- The node a message goes to or comes from. -/
def Msg.node {N : Type} : Msg N → N
  | request p | response p | invalidate p | ack p => p

variable {N : Type}

namespace MetadataBase

/-- `handle_request`. -/
def handleRequest [DecidableEq N] (m : MetadataBase N) (requestor : N) :
    Except MetadataFault (MetadataBase N) :=
  if m.state ≠ .valid then .error .ownerNotValid
  else if requestor ∈ m.remoteCopies then .error .requestedTwice
  else .ok { m with remoteCopies := requestor :: m.remoteCopies }

/-- `handle_response`: the event to trigger is the second component. -/
def handleResponse (m : MetadataBase N) : Except MetadataFault (MetadataBase N × Option Nat) :=
  match m.state with
  | .requested => .ok ({ m with validEvent := none, state := .valid }, m.validEvent)
  | _ => .error .unexpectedResponse

/-- `request_data` on node `me`, where `fresh` is the next event of `create_genevent`: the
event that is returned, and whether a request is sent. -/
def requestData [DecidableEq N] (m : MetadataBase N) (owner me : N) (fresh : Nat) :
    Except MetadataFault (MetadataBase N × Option Nat × Bool) :=
  if m.state = .valid then .ok (m, none, false)
  else if owner = me then .error .requestFromSelf
  else
    match m.state with
    | .valid => .ok (m, none, false)
    | .invalid => .ok ({ m with state := .requested, validEvent := some fresh }, some fresh, true)
    | .requested =>
      match m.validEvent with
      | none => .error .noValidEvent
      | some e => .ok (m, some e, false)
    | .invalidate => .error .requestInvalidated
    | .cleanup => .error .requestInCleanup

/-- `initiate_cleanup`: the nodes to which invalidations are sent. -/
def initiateCleanup (m : MetadataBase N) : Except MetadataFault (MetadataBase N × List N) :=
  if m.state ≠ .valid then .error .cleanupNotValid
  else if m.remoteCopies = [] then .ok ({ m with state := .invalid }, [])
  else .ok ({ m with state := .cleanup }, m.remoteCopies)

/-- `handle_invalidate`. -/
def handleInvalidate (m : MetadataBase N) : Except MetadataFault (MetadataBase N) :=
  match m.state with
  | .valid => .ok { m with state := .invalid }
  | .requested => .ok { m with state := .invalidate }
  | _ => .error .unexpectedInvalidate

/-- `handle_inval_ack`. -/
def handleInvalAck [DecidableEq N] (m : MetadataBase N) (sender : N) :
    Except MetadataFault (MetadataBase N) :=
  if sender ∉ m.remoteCopies then .error .ackWithoutCopy
  else .ok { m with remoteCopies := m.remoteCopies.erase sender }

end MetadataBase

/-! ### All nodes -/

/-- The nodes and the messages on their way. The last fields are the history: the
next event, the events returned by `request_data`, those triggered, the nodes that have
handled their response and their invalidation, those that have asked, and whether the
cleanup was initiated. -/
structure World (N : Type) where
  node : N → MetadataBase N
  net : List (Msg N)
  nextEvent : Nat
  returned : List (N × Nat)
  triggered : List Nat
  responded : List N
  invalidated : List N
  asked : List N
  cleaned : Bool

inductive Event (N : Type)
  | requestData (p : N)
  | initiateCleanup
  | deliver (k : Nat)

variable [DecidableEq N]

namespace World

def setNode (w : World N) (p : N) (m : MetadataBase N) : World N :=
  { w with node := Function.update w.node p m }

/-- A message arrives. -/
def receive (owner : N) (w : World N) : Msg N → Except MetadataFault (World N)
  | .request p => do
      let m ← (w.node owner).handleRequest p
      return { w.setNode owner m with net := w.net ++ [.response p] }
  | .response p => do
      let (m, toTrigger) ← (w.node p).handleResponse
      return { w.setNode p m with
               triggered := w.triggered ++ toTrigger.toList
               responded := p :: w.responded }
  | .invalidate p => do
      let m ← (w.node p).handleInvalidate
      return { w.setNode p m with
               net := w.net ++ [.ack p]
               invalidated := p :: w.invalidated }
  | .ack p => do
      let m ← (w.node owner).handleInvalAck p
      return w.setNode owner m

def next (owner : N) (w : World N) : Event N → Except MetadataFault (World N)
  | .requestData p => do
      let (m, e, issueRequest) ← (w.node p).requestData owner p w.nextEvent
      return { w.setNode p m with
               net := if issueRequest then w.net ++ [.request p] else w.net
               nextEvent := w.nextEvent + 1
               returned := w.returned ++ e.toList.map fun e => (p, e)
               asked := p :: w.asked }
  | .initiateCleanup => do
      let (m, invalsToSend) ← (w.node owner).initiateCleanup
      return { w.setNode owner m with
               net := w.net ++ invalsToSend.map .invalidate
               cleaned := true }
  | .deliver k =>
    match w.net[k]? with
    | none => return w
    | some msg => { w with net := w.net.eraseIdx k }.receive owner msg

/-- The other nodes ask; the cleanup is initiated once, when all requests have reached the
owner, and afterwards only nodes that have asked before ask again. -/
def Enabled (owner : N) (w : World N) : Event N → Prop
  | .requestData p => p ≠ owner ∧ (w.cleaned = true → p ∈ w.asked)
  | .initiateCleanup => w.cleaned = false ∧ ∀ p, .request p ∉ w.net
  | .deliver _ => True

/-- The owner is valid, no other node has a copy. -/
def fresh (owner : N) : World N where
  node p := if p = owner then { state := .valid } else {}
  net := []
  nextEvent := 0
  returned := []
  triggered := []
  responded := []
  invalidated := []
  asked := []
  cleaned := false

end World

def system (owner : N) : Transition (World N) (Event N) where
  init w := w = World.fresh owner
  step w e w' := w.Enabled owner e ∧ w.next owner e = .ok w'

/-- The steps that do not run into a missing case: an invalidation is handled after the
response, and no node asks again once its copy was invalidated. -/
def InOrder (w : World N) : Event N → Prop
  | .requestData p => w.cleaned = true → (w.node p).state ≠ .invalid
  | .initiateCleanup => True
  | .deliver k => ∀ p, w.net[k]? = some (.invalidate p) → (w.node p).state ≠ .requested

end CharmRuntime.Legion.Metadata
