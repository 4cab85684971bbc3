import CharmRuntime.Lib.InFlight
import CharmRuntime.Lib.Transition

/-!
# Location.LocMgr

**The location manager** (`CkLocMgr` in `ck-core/cklocation.C`) for one array index: the record each
PE has for the element, the messages between the managers, and those for the element.

The element is in one array, is created by one `addElement` and is never destroyed. The managers of
all PEs are registered, and messages are of the kind that waits for an element that is not there.
A handler is a function on the `World`: it changes the record of its own PE and posts messages. Any
posted message may be the next to arrive.

Two things are not in the code and no function reads them: the *stays* of the element are numbered,
each location notice carries the number of the stay it is about, and a manager remembers the last
stay on its PE.
-/

namespace CharmRuntime.Location

open Lib

/-! ## Data -/

/-- `CkDeliver_t`. -/
inductive CkDeliver
  | queue
  | inline
  deriving DecidableEq, Repr

/-- `CkArrayMessage`. -/
structure ArrayMessage (P M : Type) where
  id : M
  srcPe : P
  hops : UInt8

/-- `CkLocRec` by its `RecType`. -/
inductive LocRec (P M : Type)
  | localRec
  | remoteRec (onPe : P) (lastAccess : Nat) (stay : Nat)
  | bufferingRec (buffer : List (ArrayMessage P M)) (lastAccess : Nat)

/-- A message to a PE: for the element, or an entry method of its manager. -/
inductive Packet (P M : Type)
  | deliver (msg : ArrayMessage P M)
  | updateLocation (nowOnPe : P) (stay : Nat)
  | immigrate (stay : Nat)

/-- `CkLocMgr`: what `hash` has for the index, `nSprings`, and the last stay. -/
structure LocMgr (P M : Type) where
  record : Option (LocRec P M)
  nSprings : Nat
  hosted : Nat

/-- All managers, the messages on their way, those that were sent and executed, those that a
destructor deleted, and the text of the first `CkAbort`. -/
structure World (P M : Type) where
  mgr : P → LocMgr P M
  net : List (P × Packet P M)
  sent : List M
  executed : List M
  abandoned : List M
  created : Bool
  aborted : Option String

variable {P M : Type}

namespace LocRec

def isLocal : LocRec P M → Bool
  | .localRec => true
  | _ => false

/-- The messages in the buffer. -/
def buffered : LocRec P M → List M
  | .bufferingRec buffer _ => buffer.map (·.id)
  | _ => []

/-- `isStale`. -/
def isStale (nSprings lastAccess : Nat) : Bool := decide (nSprings - lastAccess > 3)

/-- `isObsolete`. -/
def isObsolete (isHome : Bool) (nSprings : Nat) : LocRec P M → Bool
  | .localRec => false
  | .remoteRec _ lastAccess _ => if isHome then false else isStale nSprings lastAccess
  | .bufferingRec _ _ => false

end LocRec

/-! ## The code -/

namespace World

variable [DecidableEq P] (home : P)

/-- No PE knows of the element. -/
def new : World P M where
  mgr _ := { record := none, nSprings := 0, hosted := 0 }
  net := []
  sent := []
  executed := []
  abandoned := []
  created := false
  aborted := none

/-- `hash.put` and `hash.remove`. -/
def setRecord (w : World P M) (me : P) (record : Option (LocRec P M)) : World P M :=
  { w with mgr := Function.update w.mgr me { w.mgr me with record } }

/-- A message is sent to a PE: an entry method of `thisProxy`, or `CkArrayManagerDeliver`. -/
def post (w : World P M) (pe : P) (packet : Packet P M) :
    World P M := { w with net := w.net ++ [(pe, packet)] }

/-- The message at place `k` arrives. -/
def take (w : World P M) (k : Nat) : World P M := { w with net := w.net.eraseIdx k }

def abort (w : World P M) (text : String) :
    World P M := { w with aborted := w.aborted.or (some text) }

/-! ### Messaging -/

/-- `multiHop`. -/
def multiHop (w : World P M) (me : P) (msg : ArrayMessage P M) : World P M :=
  if msg.srcPe = me then w else w.post msg.srcPe (.updateLocation me (w.mgr me).hosted)

/-- `deliverUnknown`. -/
def deliverUnknown (w : World P M) (me : P) (msg : ArrayMessage P M) : World P M :=
  if home ≠ me then w.post home (.deliver { msg with hops := msg.hops + 1 })
  else w.setRecord me (some (.bufferingRec [msg] (w.mgr me).nSprings))

/-- `CkLocMgr::deliver`, with the `deliver` of each kind of record. -/
def deliver (w : World P M) (me : P) (msg : ArrayMessage P M) (type : CkDeliver) : World P M :=
  match (w.mgr me).record with
  | some .localRec =>
    match type with
    | .queue => w.post me (.deliver msg)
    | .inline =>
      let w := if msg.hops > 1 then w.multiHop me msg else w
      { w with executed := w.executed ++ [msg.id] }
  | some (.remoteRec onPe _ stay) =>
    (w.setRecord me (some (.remoteRec onPe (w.mgr me).nSprings stay))).post onPe
      (.deliver { msg with hops := msg.hops + 1 })
  | some (.bufferingRec buffer lastAccess) =>
    w.setRecord me (some (.bufferingRec (buffer ++ [msg]) lastAccess))
  | none => w.deliverUnknown home me msg

/-! ### Records -/

/-- `beenReplaced`, and the record after it. -/
def beenReplaced (w : World P M) (me : P) : LocRec P M → World P M × LocRec P M
  | .bufferingRec buffer lastAccess =>
    (buffer.foldl (fun w msg => w.deliver home me msg .queue) w, .bufferingRec [] lastAccess)
  | old => (w, old)

/-- `delete` of a record: a local one leaves the table (`reclaim`), with the messages of a buffer
they are gone. -/
def delete (w : World P M) (me : P) : LocRec P M → World P M
  | .localRec => w.setRecord me none
  | .remoteRec _ _ _ => w
  | .bufferingRec buffer _ => { w with abandoned := w.abandoned ++ buffer.map (·.id) }

/-- `insertRec`. -/
def insertRec (w : World P M) (me : P) (rec : LocRec P M) : World P M :=
  match (w.mgr me).record with
  | none => w.setRecord me (some rec)
  | some old =>
    let w := w.setRecord me (some rec)
    if old.isLocal && rec.isLocal then w.abort "Duplicate array index used"
    else
      let (w, old) := w.beenReplaced home me old
      w.delete me old

/-- `insertRemote`, with the constructor of `CkLocRec_remote`. -/
def insertRemote (w : World P M) (me nowOnPe : P) (stay : Nat) : World P M :=
  if nowOnPe = me then w.abort "ERROR!  'remote' array element on this Pe!\n"
  else w.insertRec home me (.remoteRec nowOnPe (w.mgr me).nSprings stay)

/-- `inform`, and `updateLocation`. -/
def inform (w : World P M) (me nowOnPe : P) (stay : Nat) : World P M :=
  if nowOnPe = me then w
  else
    match (w.mgr me).record with
    | some .localRec => w
    | _ => w.insertRemote home me nowOnPe stay

/-- `informHome`. -/
def informHome (w : World P M) (me nowOnPe : P) (stay : Nat) : World P M :=
  if home ≠ me ∧ home ≠ nowOnPe then w.post home (.updateLocation nowOnPe stay) else w

/-- The number of the stay that begins. -/
def setHosted (w : World P M) (me : P) (stay : Nat) : World P M :=
  { w with mgr := Function.update w.mgr me { w.mgr me with hosted := stay } }

/-- `createLocal`. -/
def createLocal (w : World P M) (me : P) (stay : Nat) (notifyHome : Bool) : World P M :=
  let w := (w.setHosted me stay).insertRec home me .localRec
  if notifyHome then w.informHome home me me stay else w

/-- `addElement`, with `addElementToRec`. -/
def addElement (w : World P M) (me : P) : World P M :=
  match (w.mgr me).record with
  | some .localRec => w.abort "Cannot insert array element twice!"
  | _ => { w.createLocal home me 1 true with created := true }

/-- `emigrate`. -/
def emigrate (w : World P M) (me toPe : P) : World P M :=
  if toPe = me then w
  else
    let stay := (w.mgr me).hosted + 1
    let w := (w.post toPe (.immigrate stay)).delete me .localRec
    (w.inform home me toPe stay).informHome home me toPe stay

/-- `immigrate`. -/
def immigrate (w : World P M) (me : P) (stay : Nat) : World P M := w.createLocal home me stay false

/-- `nSprings++`. -/
def nextSpring (w : World P M) (me : P) : World P M :=
  { w with mgr := Function.update w.mgr me { w.mgr me with nSprings := (w.mgr me).nSprings + 1 } }

/-- `springCleaning`. -/
def springCleaning (w : World P M) (me : P) : World P M :=
  let w := w.nextSpring me
  match (w.mgr me).record with
  | some rec =>
    if rec.isObsolete (decide (home = me)) (w.mgr me).nSprings then (w.setRecord me none).delete
      me rec else w
  | none => w

end World

/-! ## Runs -/

/-- What happens next; `recv k` is the arrival of the message at place `k`. -/
inductive Event (P M : Type)
  | addElement (pe : P)
  | send (pe : P) (id : M) (type : CkDeliver)
  | recv (k : Nat)
  | emigrate (pe toPe : P)
  | springCleaning (pe : P)

open World in
/-- A step. -/
inductive Step [DecidableEq P] (home : P) : World P M → Event P M → World P M → Prop
  | addElement (w : World P M) (pe : P) :
      w.aborted = none → w.created = false → Step home w (.addElement pe) (w.addElement home pe)
  | send (w : World P M) (pe : P) (id : M) (type : CkDeliver) :
      w.aborted = none → id ∉ w.sent →
      Step home w (.send pe id type)
        ({ w with sent := w.sent ++ [id] }.deliver home pe { id, srcPe := pe, hops := 0 } type)
  | deliver (w : World P M) (k : Nat) (pe : P) (msg : ArrayMessage P M) :
      w.aborted = none → w.net[k]? = some (pe, .deliver msg) →
      Step home w (.recv k) ((w.take k).deliver home pe msg .inline)
  | updateLocation (w : World P M) (k : Nat) (pe nowOnPe : P) (stay : Nat) :
      w.aborted = none → w.net[k]? = some (pe, .updateLocation nowOnPe stay) →
      Step home w (.recv k) ((w.take k).inform home pe nowOnPe stay)
  | immigrate (w : World P M) (k : Nat) (pe : P) (stay : Nat) :
      w.aborted = none → w.net[k]? = some (pe, .immigrate stay) →
      Step home w (.recv k) ((w.take k).immigrate home pe stay)
  | emigrate (w : World P M) (pe toPe : P) :
      w.aborted = none → (w.mgr pe).record = some .localRec →
      Step home w (.emigrate pe toPe) (w.emigrate home pe toPe)
  | springCleaning (w : World P M) (pe : P) :
      w.aborted = none → Step home w (.springCleaning pe) (w.springCleaning home pe)

/-- The managers of one index. -/
def locationSystem (P M : Type) [DecidableEq P] (home : P) :
    Transition (World P M) (Event P M) where
  init w := w = .new
  step := Step home

end CharmRuntime.Location
