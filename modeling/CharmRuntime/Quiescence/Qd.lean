import Mathlib.Algebra.BigOperators.Group.Finset.Basic
import CharmRuntime.Lib.SpanTree
import CharmRuntime.Lib.Transition

/-!
# Quiescence.Qd

**Quiescence detection** (`ck-core/qd.C`, `ck-core/qd.h`).

PE 0, the root of a spanning tree, asks the tree twice. In the first wave every
PE reports how many application messages it created and processed and marks its
processed count; the reports are summed on the way up. If the sums agree, a
second wave asks whether any PE processed a message since its mark. If none did,
PE 0 runs the stored callbacks, otherwise it starts over.

The handlers are pure functions from the state of one PE and a message to the
new state and the messages sent. `System` puts all PEs together with the
messages in flight; a step is one handler on one PE, a call of `CkStartQD`, or a
piece of application work, in any order. The counters are unbounded integers.
-/

namespace CharmRuntime.Quiescence

open Lib

/-! ### Messages and the state of one PE -/

/-- `QdMsg`. The union holds `created` and `processed` in phase 1 and `dirty`, in
the place of `created`, in phase 2. -/
structure QdMsg where
  phase : Nat
  word0 : Int
  word1 : Int
  cb : Nat
  deriving DecidableEq, Repr

namespace QdMsg

def setPhase (m : QdMsg) (p : Nat) : QdMsg := { m with phase := p }
def getCreated (m : QdMsg) : Int := m.word0
def setCreated (m : QdMsg) (c : Int) : QdMsg := { m with word0 := c }
def getProcessed (m : QdMsg) : Int := m.word1
def setProcessed (m : QdMsg) (p : Int) : QdMsg := { m with word1 := p }
def getDirty (m : QdMsg) : Bool := m.word0 != 0
def setDirty (m : QdMsg) (d : Bool) : QdMsg := { m with word0 := if d then 1 else 0 }

end QdMsg

/-- `QdState`. A callback is the number of the `CkStartQD` call that registered
it; the children and the parent are in the tree. -/
structure QdState where
  stage : Nat
  oProcessed : Int
  mCreated : Int
  mProcessed : Int
  cCreated : Int
  cProcessed : Int
  cDirty : Bool
  nReported : Nat
  callbacks : List Nat
  deriving DecidableEq, Repr

namespace QdState

/-- The constructor. -/
def new : QdState :=
  { stage := 0, oProcessed := 0, mCreated := 0, mProcessed := 0, cCreated := 0, cProcessed := 0,
    cDirty := false, nReported := 0, callbacks := [] }

def create (s : QdState) : QdState := { s with mCreated := s.mCreated + 1 }
def process (s : QdState) : QdState := { s with mProcessed := s.mProcessed + 1 }
def enq (s : QdState) (cb : Nat) : QdState := { s with callbacks := s.callbacks ++ [cb] }
def subtreeCreate (s : QdState) (c : Int) : QdState := { s with cCreated := s.cCreated + c }
def subtreeProcess (s : QdState) (p : Int) : QdState := { s with cProcessed := s.cProcessed + p }
def subtreeSetDirty (s : QdState) (d : Bool) : QdState := { s with cDirty := s.cDirty || d }
def reported (s : QdState) : QdState := { s with nReported := s.nReported + 1 }
def setStage (s : QdState) (p : Nat) : QdState := { s with stage := p }
def markProcessed (s : QdState) : QdState := { s with oProcessed := s.mProcessed }

def reset (s : QdState) : QdState :=
  { s with nReported := 0, cCreated := 0, cProcessed := 0, cDirty := false }

def isDirty (s : QdState) : Bool := decide (s.oProcessed < s.mProcessed) || s.cDirty
def allReported (s : QdState) (nChildren : Nat) : Bool := s.nReported == nChildren + 1

end QdState

/-! ### The handlers -/

/-- The assertions and the abort of the handlers. -/
inductive QdAbort
  | assertStage
  | assertNotRoot
  | internalError
  deriving DecidableEq, Repr

/-- What a handler does: the new state, the messages sent, the callback stored
and the callbacks run, if it gets to running them. -/
structure Outcome (P : Type) where
  state : QdState
  sends : List (P × QdMsg)
  stored : List Nat
  fired : List (List Nat)

section

variable {P : Type} [DecidableEq P] (T : SpanTree P) (me : P)

/-- `propagate`: a copy to every child. -/
def propagate (msg : QdMsg) : List (P × QdMsg) := (T.children me).map (fun c => (c, msg))

/-- `_bcastQD1`: ask the children for their counters, report the own ones to
itself, mark the processed count. -/
def bcastQD1 (state : QdState) (msg : QdMsg) : Outcome P :=
  let report := ((msg.setPhase 1).setCreated state.mCreated).setProcessed state.mProcessed
  { state := (state.markProcessed.reset).setStage 1
    sends := propagate T me (msg.setPhase 0) ++ [(me, report)]
    stored := []
    fired := [] }

/-- `_bcastQD2`: ask the children whether they are dirty, report to itself. -/
def bcastQD2 (state : QdState) (msg : QdMsg) : Outcome P :=
  { state := (state.reset).setStage 2
    sends := propagate T me (msg.setPhase 1) ++ [(me, (msg.setPhase 2).setDirty state.isDirty)]
    stored := []
    fired := [] }

/-- A handler that only changes the state and drops the message. -/
def quiet (state : QdState) : Outcome P := { state, sends := [], stored := [], fired := [] }

/-- Report to the parent and leave the wave. -/
def reportUp (state : QdState) (msg : QdMsg) : Outcome P :=
  { state := (state.reset).setStage 0, sends := [(T.parent me, msg)], stored := [], fired := [] }

/-- `_handlePhase0`. -/
def handlePhase0 (state : QdState) (msg : QdMsg) : Except QdAbort (Outcome P) :=
  if ¬ (me = T.root ∨ state.stage = 0) then .error .assertStage
  else
    let stored := if me = T.root then [msg.cb] else []
    let state := if me = T.root then state.enq msg.cb else state
    if state.stage = 0 then .ok { bcastQD1 T me state msg with stored }
    else .ok { state, sends := [], stored, fired := [] }

/-- `_handlePhase1`. -/
def handlePhase1 (state : QdState) (msg : QdMsg) : Except QdAbort (Outcome P) :=
  match state.stage with
  | 0 => if me = T.root then .error .assertNotRoot else .ok (bcastQD2 T me state msg)
  | 1 =>
    let state := ((state.subtreeCreate msg.getCreated).subtreeProcess msg.getProcessed).reported
    if state.allReported (T.children me).length then
      if me = T.root then
        if state.cCreated = state.cProcessed then .ok (bcastQD2 T me state msg)
        else .ok (bcastQD1 T me state msg)
      else
        .ok (reportUp T me state
          ((msg.setCreated state.cCreated).setProcessed state.cProcessed))
    else .ok (quiet state)
  | _ => .error .internalError

/-- `_handlePhase2`. -/
def handlePhase2 (state : QdState) (msg : QdMsg) : Except QdAbort (Outcome P) :=
  if state.stage ≠ 2 then .error .assertStage
  else
    let state := (state.subtreeSetDirty msg.getDirty).reported
    if state.allReported (T.children me).length then
      if me = T.root then
        if state.isDirty then .ok (bcastQD1 T me state msg)
        else
          -- the loop that dequeues and sends every stored callback
          .ok { state := ({ state with callbacks := [] }.reset).setStage 0
                sends := []
                stored := []
                fired := [state.callbacks] }
      else
        .ok (reportUp T me state (msg.setDirty state.isDirty))
    else .ok (quiet state)

/-- `_callWhenIdle`. -/
def callWhenIdle (state : QdState) (msg : QdMsg) : Except QdAbort (Outcome P) :=
  match msg.phase with
  | 0 => handlePhase0 T me state msg
  | 1 => handlePhase1 T me state msg
  | 2 => handlePhase2 T me state msg
  | _ => .error .internalError

end

/-! ### The whole machine -/

/-- All PEs and all messages in flight. `busy` PEs are inside the handler of an
application message. `stored` and `fired` record the callbacks PE 0 stored, and
ran, run by run. -/
structure System (P : Type) where
  pe : P → QdState
  busy : P → Bool
  net : Multiset (P × QdMsg)
  app : Multiset P
  nextCb : Nat
  stored : List Nat
  fired : List (List Nat)

/-- What can happen next. -/
inductive Event (P : Type)
  /-- A call of `CkStartQD`; the words of the union are not initialised. -/
  | startQD (word0 word1 : Int)
  /-- An idle PE handles a detection message. -/
  | deliver (p : P) (m : QdMsg)
  /-- An idle PE starts to handle an application message. -/
  | appBegin (p : P)
  /-- The handler of an application message on `p` sends one to `dest`. -/
  | appSend (p dest : P)
  /-- The handler of an application message returns. -/
  | appEnd (p : P)

section

variable {P : Type} [DecidableEq P] (T : SpanTree P)

/-- Install the outcome of a handler on `p`. -/
def System.install (s : System P) (p : P) (rest : Multiset (P × QdMsg)) (o : Outcome P) :
    System P :=
  { s with
    pe := Function.update s.pe p o.state
    net := rest + (o.sends : Multiset (P × QdMsg))
    stored := s.stored ++ o.stored
    fired := s.fired ++ o.fired }

/-- The next state, if the event can happen. -/
def System.next (s : System P) : Event P → Option (System P)
  | .startQD word0 word1 =>
    some { s with
      net := (T.root, { phase := 0, word0, word1, cb := s.nextCb }) ::ₘ s.net
      nextCb := s.nextCb + 1 }
  | .deliver p m =>
    if (p, m) ∈ s.net ∧ s.busy p = false then
      match callWhenIdle T p (s.pe p) m with
      | .ok o => some (s.install p (s.net.erase (p, m)) o)
      | .error _ => none
    else none
  | .appBegin p =>
    if p ∈ s.app ∧ s.busy p = false then
      some { s with
        pe := Function.update s.pe p (s.pe p).process
        busy := Function.update s.busy p true
        app := s.app.erase p }
    else none
  | .appSend p dest =>
    if s.busy p then
      some { s with pe := Function.update s.pe p (s.pe p).create, app := dest ::ₘ s.app }
    else none
  | .appEnd p => if s.busy p then some { s with busy := Function.update s.busy p false } else none

/-- Before the run every PE may have sent application messages. -/
def System.Initial [Fintype P] (s : System P) : Prop :=
  (∀ p, s.pe p = { QdState.new with mCreated := (s.pe p).mCreated }) ∧
    ∑ p, (s.pe p).mCreated = (s.app.card : Int) ∧
    (∀ p, s.busy p = false) ∧ s.net = 0 ∧ s.nextCb = 0 ∧ s.stored = [] ∧ s.fired = []

/-- The machine as a transition system. -/
def qdSystem [Fintype P] : Transition (System P) (Event P) where
  init := System.Initial
  step s e s' := s.next T e = some s'

end

end CharmRuntime.Quiescence
