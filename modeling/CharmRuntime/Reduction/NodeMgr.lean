import CharmRuntime.Lib.Outcome
import CharmRuntime.Lib.Transition
import CharmRuntime.Reduction.Msg

/-!
# Reduction.NodeMgr

The **node reduction manager** `CkNodeReductionMgr` (`ck-core/ckreduction.C`), the
branch of one node, without evacuation (`blocked` stays false and `updateTree`
does nothing).

A manager runs one reduction at a time. Messages for later reductions wait in
three queues: early local contributions, early remote ones and early
late-migrant ones. When a reduction completes, `finishReduction` advances
`redNo` and replays the queues; a replayed message may complete the next
reduction, so the routine re-enters itself.

The re-entrance is modelled by a fuel argument. The handlers pass the number of
waiting messages plus two, which is always enough (`finishReduction_fuel`): a
nested completion consumes a waiting message.
-/

namespace CharmRuntime.Reduction

open Lib

/-- The ways a handler does not return. -/
inductive NodeAbort
  | startOutOfOrder
  | restartFinished
  | excessRemote
  | lateRemote
  | noClient
  /-- The reducer function itself failed. -/
  | reducerFault
  /-- The model's recursion bound was hit; never happens, see `finishReduction_fuel`. -/
  | outOfFuel
  deriving DecidableEq, Repr

/-- The texts given to `CkAbort`. -/
def NodeAbort.text : NodeAbort → String
  | startOutOfOrder => "Can't start reductions out of order!\n"
  | restartFinished => "Can't restart reduction that's already finished!\n"
  | excessRemote => "Nodegrp Excess remote reduction message received!\n"
  | lateRemote => "Recv'd late remote contribution!\n"
  | noClient =>
    "No reduction client!\nYou must register a client with either SetReductionClient or during contribute.\n"
  | reducerFault => ""
  | outOfFuel => ""

/-- The data members of `CkNodeReductionMgr`. `delivered` and `sentUp` record
what went to the client and to the parent. -/
structure NodeMgr (δ : Type) where
  redNo : Nat
  inProgress : Bool
  creating : Bool
  startRequested : Bool
  lcount : Nat
  nContrib : Nat
  nRemote : Nat
  msgs : List (CkReductionMsg δ)
  futureMsgs : List (CkReductionMsg δ)
  futureRemoteMsgs : List (CkReductionMsg δ)
  futureLateMigrantMsgs : List (CkReductionMsg δ)
  storedCallback : CkCallback
  hasParent : Bool
  /-- `treeKids()`. -/
  numKids : Nat
  additionalGCount : Int
  delivered : List (CkReductionMsg δ)
  sentUp : List (CkReductionMsg δ)
  deriving DecidableEq

namespace NodeMgr

variable {δ : Type}

/-- The constructor, on a node with the given place in the tree. -/
def new (hasParent : Bool) (numKids : Nat) (storedCallback : CkCallback) : NodeMgr δ :=
  { redNo := 0, inProgress := false, creating := false, startRequested := false, lcount := 1,
    nContrib := 0, nRemote := 0, msgs := [], futureMsgs := [], futureRemoteMsgs := [],
    futureLateMigrantMsgs := [], storedCallback, hasParent, numKids, additionalGCount := 0,
    delivered := [], sentUp := [] }

/-- `startReduction`. The requests it sends to kids and local groups do not
change the manager and are left out. -/
def startReduction (s : NodeMgr δ) (number : Nat) : Except NodeAbort (NodeMgr δ) :=
  if number > s.redNo then .error .startOutOfOrder
  else if number < s.redNo then .error .restartFinished
  else if s.inProgress then .ok s
  else if s.creating then .ok { s with startRequested := true }
  else .ok { s with inProgress := true }

/-- Pass the final result to the client, at the root. -/
def deliver (s : NodeMgr δ) (result : CkReductionMsg δ) : Except NodeAbort (NodeMgr δ) :=
  let result := { result with gcount := result.gcount + s.additionalGCount }
  if result.callback.isSome ∨ s.storedCallback.isSome then
    .ok { s with delivered := s.delivered ++ [result] }
  else .error .noClient

/-- Move on to the next reduction number. -/
def nextReduction (s : NodeMgr δ) : NodeMgr δ :=
  { s with
    redNo := s.redNo + 1, inProgress := false, startRequested := false, nRemote :=
      0, nContrib := 0 }

/-- The last loop of `finishReduction`: early late-migrant messages for the new
reduction go to `msgs`, the others back to their queue. -/
def moveLateMigrants (s : NodeMgr δ) : NodeMgr δ :=
  { s with
    msgs := s.msgs ++ s.futureLateMigrantMsgs.filter (fun m => m.redNo = s.redNo)
    futureLateMigrantMsgs := s.futureLateMigrantMsgs.filter (fun m => ¬ m.redNo = s.redNo) }

/-- `doAddContribution`, given the routine to call when a message was added. -/
def doAddContribution (finish : NodeMgr δ → Except NodeAbort (NodeMgr δ)) (s : NodeMgr δ)
    (m : CkReductionMsg δ) : Except NodeAbort (NodeMgr δ) :=
  if m.redNo > s.redNo then .ok { s with futureMsgs := s.futureMsgs ++ [m] }
  else do
    let s ← s.startReduction m.redNo
    finish { s with msgs := s.msgs ++ [m], nContrib := s.nContrib + 1 }

/-- `doRecvMsg`, likewise. -/
def doRecvMsg (finish : NodeMgr δ → Except NodeAbort (NodeMgr δ)) (s : NodeMgr δ)
    (m : CkReductionMsg δ) : Except NodeAbort (NodeMgr δ) :=
  if m.redNo = s.redNo then do
    let s ← s.startReduction m.redNo
    finish { s with msgs := s.msgs ++ [m], nRemote := s.nRemote + 1 }
  else if m.redNo > s.redNo then .ok { s with futureRemoteMsgs := s.futureRemoteMsgs ++ [m] }
  else .error .lateRemote

/-- `futureMsgs.deq()`. -/
def deqLocal (s : NodeMgr δ) : Option (CkReductionMsg δ × NodeMgr δ) :=
  match s.futureMsgs with
  | [] => none
  | m :: rest => some (m, { s with futureMsgs := rest })

/-- `futureRemoteMsgs.deq()`. -/
def deqRemote (s : NodeMgr δ) : Option (CkReductionMsg δ × NodeMgr δ) :=
  match s.futureRemoteMsgs with
  | [] => none
  | m :: rest => some (m, { s with futureRemoteMsgs := rest })

/-- A replay loop: `n` times, dequeue a message and, unless a nested call has
emptied the queue meanwhile, handle it. -/
def replay (deq : NodeMgr δ → Option (CkReductionMsg δ × NodeMgr δ))
    (handle : NodeMgr δ → CkReductionMsg δ → Except NodeAbort (NodeMgr δ)) :
    Nat → NodeMgr δ → Except NodeAbort (NodeMgr δ)
  | 0, s => .ok s
  | n + 1, s =>
    match deq s with
    | none => replay deq handle n s
    | some (m, s) => handle s m >>= replay deq handle n

section

variable [Inhabited δ] (env : ReductionEnv δ)

/-- Hand the reduced message on: up the tree, or at the root to the client. At
the root `none` means that migrants' contributions are still missing and the
message went back to the queue. -/
def handOn (s : NodeMgr δ) (result : CkReductionMsg δ) :
    Except NodeAbort (NodeMgr δ × Bool) :=
  if s.hasParent then
    .ok ({ s with
      sentUp := s.sentUp ++ [{ result with gcount := result.gcount + s.additionalGCount }] }, true)
  else if result.migratableContributor ∧
      result.gcount + s.additionalGCount ≠ result.sourceFlag then
    .ok ({ s with msgs := s.msgs ++ [result] }, false)
  else do
    let s ← s.deliver result
    .ok (s, true)

/-- `finishReduction`. -/
def finishReduction : Nat → NodeMgr δ → Except NodeAbort (NodeMgr δ)
  | 0, _ => .error .outOfFuel
  | fuel + 1, s =>
    if !s.inProgress || s.creating then .ok s
    else if s.nContrib < s.lcount then .ok s
    else if s.nRemote < s.numKids then .ok s
    else if s.nRemote > s.numKids then .error .excessRemote
    else
      match nodeReduceMessages env s.redNo s.msgs with
      | none => .error .reducerFault
      | some result => do
          let (s, done) ← handOn { s with msgs := [] } result
          if !done then .ok s
          else do
            let s := s.nextReduction
            let s ← replay deqLocal (doAddContribution (finishReduction fuel))
              s.futureMsgs.length s
            let s ← replay deqRemote (doRecvMsg (finishReduction fuel))
              s.futureRemoteMsgs.length s
            .ok s.moveLateMigrants

/-- Enough fuel for every nested completion. -/
def fuelFor (s : NodeMgr δ) : Nat := s.futureMsgs.length + s.futureRemoteMsgs.length + 2

/-- The entry method `addContribution`. -/
def addContribution (s : NodeMgr δ) (m : CkReductionMsg δ) : Except NodeAbort (NodeMgr δ) :=
  doAddContribution (finishReduction env s.fuelFor) s m

/-- The entry method `RecvMsg`. -/
def recvMsg (s : NodeMgr δ) (m : CkReductionMsg δ) : Except NodeAbort (NodeMgr δ) :=
  doRecvMsg (finishReduction env s.fuelFor) s m

/-- The entry method `LateMigrantMsg`. -/
def lateMigrantMsg (s : NodeMgr δ) (m : CkReductionMsg δ) : Except NodeAbort (NodeMgr δ) :=
  if m.redNo > s.redNo then
    .ok { s with futureLateMigrantMsgs := s.futureLateMigrantMsgs ++ [m] }
  else finishReduction env s.fuelFor { s with msgs := s.msgs ++ [m] }

/-- The messages a manager handles. -/
inductive Event (δ : Type)
  | contribution (m : CkReductionMsg δ)
  | remote (m : CkReductionMsg δ)
  | lateMigrant (m : CkReductionMsg δ)

/-- The message of an event. -/
def Event.msg : Event δ → CkReductionMsg δ
  | .contribution m | .remote m | .lateMigrant m => m

/-- Handle one event. -/
def handle (s : NodeMgr δ) : Event δ → Except NodeAbort (NodeMgr δ)
  | .contribution m => s.addContribution env m
  | .remote m => s.recvMsg env m
  | .lateMigrant m => s.lateMigrantMsg env m

/-- The root's manager as a transition system: any order of messages, each for a
reduction that is not finished yet, as long as the handlers return. -/
def rootSystem (numKids : Nat) (storedCallback : CkCallback) :
    Transition (NodeMgr δ) (Event δ) where
  init s := s = new false numKids storedCallback
  step s e s' := s.redNo ≤ e.msg.redNo ∧ s.handle env e = .ok s'

end

end NodeMgr

end CharmRuntime.Reduction
