import CharmRuntime.Lib.Transition
import CharmRuntime.Streamer.MeshStreamer

/-!
# Streamer.ArrayMesh

`ArrayMeshStreamer`: **items for the elements of an array**, over the streamers of all PEs. An item
is sent to the PE where its element was last known to be. If the element is not there any more, the
item waits in `misdeliveredItems`, and the first one that waits asks the home PE where to go. The
home PE answers twice: the PE with the items sends them on (`resendMisdeliveredItems`), and the PE
where the first of them came from is told too.

The location manager is not part of it: what `lastKnown` answers is part of an action, so that
`updateLocation` has nothing to change here. Messages come in any order, and elements leave and
arrive at any time. An array index is none that stands for a broadcast (`TRAM_BROADCAST`), which the
router has not.
-/

namespace CharmRuntime.Streamer

open Lib

structure ArrayDataItem (κ ι : Type) where
  arrayIndex : κ
  sourcePe : Nat
  dataItem : ι
  deriving DecidableEq

/-- Messages between the streamers that are no items. -/
inductive LocationMsg (κ : Type)
  | processLocationRequest (arrayId : κ) (deliveredToPe sourcePe : Nat)
  | resendMisdeliveredItems (arrayId : κ) (destinationPe : Nat)
  | updateLocationAtSource (arrayId : κ) (destinationPe : Nat)

structure ArrayMesh (κ ι : Type) where
  streams : MeshState (ArrayDataItem κ ι)
  /-- The messages about locations, each with the PE that it goes to. -/
  locNet : List (Nat × LocationMsg κ)
  /-- `misdeliveredItems` of each PE. -/
  misdeliveredItems : Nat → κ → List (ArrayDataItem κ ι)
  /-- Where an element is, unless it is between two PEs. -/
  owner : κ → Option Nat
  /-- The PEs that an element has been on. -/
  held : κ → List Nat
  /-- All items that were inserted. -/
  inserted : List (ArrayDataItem κ ι)
  /-- The items that were processed, each with the PE of the element that did it. -/
  processed : List (Nat × ArrayDataItem κ ι)

structure ArrayConfig (κ : Type) extends StreamerConfig where
  homePe : κ → Nat

namespace ArrayMesh

variable {κ ι : Type} [DecidableEq κ] (cfg : ArrayConfig κ)

def new (owner : κ → Option Nat) : ArrayMesh κ ι where
  streams := MeshState.new
  locNet := []
  misdeliveredItems _ _ := []
  owner := owner
  held arrayId := (owner arrayId).toList
  inserted := []
  processed := []

def setMisdelivered (s : ArrayMesh κ ι) (p : Nat) (arrayId : κ) (items : List (ArrayDataItem κ ι)) :
    ArrayMesh κ ι :=
  { s with
    misdeliveredItems :=
      Function.update s.misdeliveredItems p (Function.update (s.misdeliveredItems p) arrayId items)
        }

def send (s : ArrayMesh κ ι) (p : Nat) (m : LocationMsg κ) :
    ArrayMesh κ ι := { s with locNet := s.locNet ++ [(p, m)] }

/-- `localDeliver`. With staged completion it aborts if the element is not there. -/
def localDeliver (s : ArrayMesh κ ι) (p : Nat) (item : ArrayDataItem κ ι) :
    Except StreamFault (ArrayMesh κ ι) :=
  if s.owner item.arrayIndex = some p then .ok { s with processed := s.processed ++ [(p, item)] }
  else if cfg.useStagedCompletion then .error .abort
  else
    let items := s.misdeliveredItems p item.arrayIndex ++ [item]
    let s := s.setMisdelivered p item.arrayIndex items
    if items.length = 1 then
      .ok (s.send (cfg.homePe item.arrayIndex)
        (.processLocationRequest item.arrayIndex p item.sourcePe))
    else .ok s

/-- The loop of `receiveAtDestination`. -/
def deliverAll (p : Nat) :
    List (ArrayDataItem κ ι) → ArrayMesh κ ι → Except StreamFault (ArrayMesh κ ι)
  | [], s => .ok s
  | item :: items, s =>
    match s.localDeliver cfg p item with
    | .error e => .error e
    | .ok s => deliverAll p items s

/-- `insertData`, where `lastKnown` is what the location manager answers. -/
def insertData (s : ArrayMesh κ ι) (p : Nat) (dataItem : ι) (arrayIndex : κ) (lastKnown : Nat) :
    Except StreamFault (ArrayMesh κ ι) :=
  let item : ArrayDataItem κ ι := { arrayIndex := arrayIndex, sourcePe := p, dataItem := dataItem }
  let s := { s with inserted := s.inserted ++ [item] }
  if lastKnown = p then s.localDeliver cfg p item
  else
    match s.streams.insertData cfg.toStreamerConfig p lastKnown item with
    | .error e => .error e
    | .ok streams => .ok { s with streams := streams }

/-- A message with items comes to `p`: at its destination if it is personalized, on its way if it is
not. -/
def receive (s : ArrayMesh κ ι) (p : Nat) (msg : Message (ArrayDataItem κ ι)) :
    Except StreamFault (ArrayMesh κ ι) :=
  if isMessagePersonalized msg.msgType then s.deliverAll cfg p (msg.entries.map Prod.fst)
  else
    match s.streams.receiveAlongRoute cfg.toStreamerConfig p msg with
    | .error e => .error e
    | .ok (streams, delivered) => deliverAll cfg p delivered { s with streams := streams }

/-- `processLocationRequest` on the home PE, where `lastKnown` is what its location manager answers.
-/
def processLocationRequest (s : ArrayMesh κ ι) (arrayId : κ)
    (deliveredToPe sourcePe lastKnown : Nat) : ArrayMesh κ ι :=
  (s.send deliveredToPe (.resendMisdeliveredItems arrayId lastKnown)).send sourcePe
    (.updateLocationAtSource arrayId sourcePe)

/-- The loop of `resendMisdeliveredItems`. -/
def resendLoop (p destinationPe : Nat) (route : Option Route) :
    List (ArrayDataItem κ ι) → MeshState (ArrayDataItem κ ι) →
    Except StreamFault (MeshState (ArrayDataItem κ ι))
  | [], s => .ok s
  | item :: items, s =>
    match s.storeMessage cfg.toStreamerConfig p destinationPe route item with
    | .error e => .error e
    | .ok s => resendLoop p destinationPe route items s

def resendMisdeliveredItems (s : ArrayMesh κ ι) (p : Nat) (arrayId : κ) (destinationPe : Nat) :
    Except StreamFault (ArrayMesh κ ι) :=
  let bufferedItems := s.misdeliveredItems p arrayId
  let destinationRoute := determineInitialRoute cfg.topology p destinationPe
  match resendLoop cfg p destinationPe destinationRoute bufferedItems s.streams with
  | .error e => .error e
  | .ok streams => .ok (setMisdelivered { s with streams := streams } p arrayId [])

/-- A message about locations comes to `p`; a request is answered by `lastKnown`. -/
def locate (s : ArrayMesh κ ι) (p lastKnown : Nat) :
    LocationMsg κ → Except StreamFault (ArrayMesh κ ι)
  | .processLocationRequest arrayId deliveredToPe sourcePe =>
    .ok (s.processLocationRequest arrayId deliveredToPe sourcePe lastKnown)
  | .resendMisdeliveredItems arrayId destinationPe =>
    s.resendMisdeliveredItems cfg p arrayId destinationPe
  | .updateLocationAtSource _ _ => .ok s

end ArrayMesh

/-! ### Runs -/

inductive ArrayAction (κ ι : Type)
  | insertData (p : Nat) (dataItem : ι) (arrayIndex : κ) (lastKnown : Nat)
  /-- The message of this number with items comes. -/
  | receive (k : Nat)
  /-- The message of this number about locations comes. -/
  | locate (k lastKnown : Nat)
  | flushIfIdle (p : Nat)
  /-- An element leaves its PE. -/
  | depart (arrayIndex : κ)
  | arrive (arrayIndex : κ) (p : Nat)

section

variable {κ ι : Type} [DecidableEq κ] (cfg : ArrayConfig κ)

namespace ArrayMesh

/-- What an action does, if it can happen. `lastKnown` is a PE, on the home PE one that has held the
element. -/
def step (s : ArrayMesh κ ι) : ArrayAction κ ι → Option (Except StreamFault (ArrayMesh κ ι))
  | .insertData p dataItem arrayIndex lastKnown =>
    if p < cfg.topology.numMembers ∧
      lastKnown < cfg.topology.numMembers then some
        (s.insertData cfg p dataItem arrayIndex lastKnown)
    else none
  | .receive k =>
    match s.streams.net[k]? with
    | some (p, msg) => some (receive cfg { s with streams := s.streams.take k } p msg)
    | none => none
  | .locate k lastKnown =>
    match s.locNet[k]? with
    | some (p, msg) =>
      match msg with
      | .processLocationRequest arrayId _ _ =>
        if lastKnown ∈ s.held arrayId then some
          (locate cfg { s with locNet := s.locNet.eraseIdx k } p lastKnown msg)
        else none
      | _ => some (locate cfg { s with locNet := s.locNet.eraseIdx k } p lastKnown msg)
    | none => none
  | .flushIfIdle p =>
    if p < cfg.topology.numMembers then
      some
        (match s.streams.flushIfIdle cfg.toStreamerConfig p true with
        | .error e => .error e
        | .ok streams => .ok { s with streams := streams })
    else none
  | .depart arrayIndex =>
    if s.owner arrayIndex = none then none else some
      (.ok { s with owner := Function.update s.owner arrayIndex none })
  | .arrive arrayIndex p =>
    if s.owner arrayIndex = none ∧ p < cfg.topology.numMembers then
      some
        (.ok
          { s with
            owner := Function.update s.owner arrayIndex (some p)
            held := Function.update s.held arrayIndex (p :: s.held arrayIndex) })
    else none

end ArrayMesh

/-- All PEs; a run that has failed goes no further. Elements are on PEs from the start, or arrive
later. -/
def arraySystem : Transition (Except StreamFault (ArrayMesh κ ι)) (ArrayAction κ ι) where
  init r := ∃ owner, (∀ e p, owner e = some p → p < cfg.topology.numMembers) ∧
    r = .ok (ArrayMesh.new owner)
  step r a r' := ∃ s, r = .ok s ∧ s.step cfg a = some r'

end

end CharmRuntime.Streamer
