import CharmRuntime.Converse.Reduce
import CharmRuntime.Lib.SpanTree
import CharmRuntime.Lib.Transition
import Mathlib.Data.Fintype.Basic

/-!
# Converse.ReduceWorld

The machine that runs the tree reductions: every processor with its table of reduction
structures, and the messages on their way to a parent. An event is a local call
(`CmiReduce` or `CmiReduceID`) or the arrival of any one of the messages; messages may
overtake each other and the local calls.

Beside the machine's state the world keeps a record of each reduction (`ReduceRound`): who
has called and with what, and who has sent its part. A round is *current* at its table
index from its first local call until the destination handler runs, and is then moved to
`finished` together with what the handler got. The code never reads these records; only the
condition that there is at most one reduction at a table index does (`Allowed`).
-/

namespace CharmRuntime.Converse

open Lib

/-- The record of one reduction. -/
structure ReduceRound (N : Nat) (δ : Type) where
  id : Nat
  calls : Fin N → Option (ReduceArgs δ)
  sent : List (Fin N)

/-- A run of the destination handler. -/
structure Delivery (δ : Type) where
  destination : Nat
  redID : Nat
  data : δ

structure ReduceWorld (N : Nat) (δ : Type) where
  pe : Fin N → ReduceTable δ
  net : List (Fin N × ReduceMsg δ)
  current : Nat → Option (ReduceRound N δ)
  finished : List (ReduceRound N δ × Delivery δ)
  /-- Runs of the destination handler when no reduction is current at the index. -/
  stray : List (Delivery δ)

/-- A local call of processor `p`, or the arrival of message `k` of the network. -/
inductive ReduceEvent (N : Nat) (δ : Type)
  | reduce (p : Fin N) (a : ReduceArgs δ)
  | reduceID (p : Fin N) (a : ReduceArgs δ) (id : UInt16)
  | arrive (k : Nat)

variable {N : Nat} {δ : Type}

namespace ReduceRound

/-- A reduction that nobody has called yet. -/
def start (id : Nat) : ReduceRound N δ := { id := id, calls := fun _ => none, sent := [] }

def call (r : ReduceRound N δ) (p : Fin N) (a : ReduceArgs δ) : ReduceRound N δ :=
  { r with calls := Function.update r.calls p (some a) }

def send (r : ReduceRound N δ) (p : Fin N) : ReduceRound N δ := { r with sent := p :: r.sent }

end ReduceRound

/-- The processor of a number. -/
def peOf (n : Int) : Except ReduceAbort (Fin N) :=
  if h : 0 ≤ n ∧ n < N then .ok ⟨n.toNat, by omega⟩ else .error .noSuchPe

/-- `CmiSpanTreeParent`. -/
def spanTreeParent (T : SpanTree (Fin N)) (p : Fin N) : Int :=
  if p = T.root then -1 else (T.parent p).val

/-- `CmiNumSpanTreeChildren`. -/
def numSpanTreeChildren (T : SpanTree (Fin N)) (p : Fin N) : Nat := (T.children p).length

namespace ReduceWorld

/-- Nothing has happened. -/
def initial : ReduceWorld N δ where
  pe := fun _ => { info := fun _ => none, seqIDGlobal := 0 }
  net := []
  current := fun _ => none
  finished := []
  stray := []

/-- The reduction that a call with number `id` belongs to. -/
def round (w : ReduceWorld N δ) (id : Nat) : ReduceRound N δ :=
  (w.current (reduceIndex id)).getD (.start id)

/-- Note the local call of `p`. -/
def noteCall (w : ReduceWorld N δ) (p : Fin N) (a : ReduceArgs δ) (id : Nat) :
    ReduceWorld N δ :=
  { w with current := Function.update w.current (reduceIndex id) (some ((w.round id).call p a)) }

/-- The new table of `p`, and what it sends or delivers. -/
def emit (w : ReduceWorld N δ) (p : Fin N) (res : ReduceTable δ × Option (ReduceOut δ)) :
    Except ReduceAbort (ReduceWorld N δ) :=
  let w := { w with pe := Function.update w.pe p res.1 }
  match res.2 with
  | none => .ok w
  | some (.send parent msg) =>
    match peOf parent with
    | .error e => .error e
    | .ok q =>
      let i := reduceIndex msg.redID
      .ok { w with
            net := w.net ++ [(q, msg)]
            current := Function.update w.current i ((w.current i).map (·.send p)) }
  | some (.deliver destination id data) =>
    let i := reduceIndex id
    let d : Delivery δ := { destination := destination, redID := id, data := data }
    match w.current i with
    | none => .ok { w with stray := w.stray ++ [d] }
    | some r => .ok { w with
                      current := Function.update w.current i none
                      finished := w.finished ++ [(r.send p, d)] }

/-- The processor may call with number `id`: no other reduction is under way at the table
index, and `p` has not called in this one. -/
def MayCall (w : ReduceWorld N δ) (p : Fin N) (id : Nat) : Prop :=
  ∀ r, w.current (reduceIndex id) = some r → r.id = id ∧ r.calls p = none

/-- Every processor calls once in each reduction, and at most one reduction is under way at
each table index. -/
def Allowed (w : ReduceWorld N δ) : ReduceEvent N δ → Prop
  | .reduce p _ => w.MayCall p (w.pe p).seqIDGlobal
  | .reduceID p _ id => w.MayCall p id.toNat
  | .arrive k => k < w.net.length

/-- One event. -/
def next (T : SpanTree (Fin N)) (w : ReduceWorld N δ) :
    ReduceEvent N δ → Except ReduceAbort (ReduceWorld N δ)
  | .reduce p a =>
    match Converse.reduce (numSpanTreeChildren T p) (spanTreeParent T p) a (w.pe p) with
    | .error e => .error e
    | .ok res => (w.noteCall p a (w.pe p).seqIDGlobal).emit p res
  | .reduceID p a id =>
    match Converse.reduceID (numSpanTreeChildren T p) (spanTreeParent T p) a id.toNat (w.pe p) with
    | .error e => .error e
    | .ok res => (w.noteCall p a id.toNat).emit p res
  | .arrive k =>
    match w.net[k]? with
    | none => .ok w
    | some (p, msg) =>
      match handleReductionMessage msg (w.pe p) with
      | .error e => .error e
      | .ok res => { w with net := w.net.eraseIdx k }.emit p res

end ReduceWorld

/-- The machine as a transition system. -/
def reduceSystem (T : SpanTree (Fin N)) : Transition (ReduceWorld N δ) (ReduceEvent N δ) where
  init w := w = .initial
  step w e w' := w.Allowed e ∧ w.next T e = .ok w'

end CharmRuntime.Converse
