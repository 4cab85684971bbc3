import CharmRuntime.Lib.Transition
import Mathlib.Algebra.Order.Group.Multiset

/-!
# Legion.GenEvent

`GenEventImpl` of the low-level runtime: an event that is used again and again, one
generation after the other. One node owns the event; another node subscribes to the
generation it waits for, and the owner tells it when this generation, or a later one, has
triggered. A trigger may start on any node, which then tells the owner.

A node that hears of generation `g` knows that all generations before it have triggered
(`check_for_catchup`); the waiters are kept without their generation.

Generations are of type `unsigned` and are natural numbers below `2 ^ 32` here, with the wrap
of `generation + 1` and `e.gen - 1` written out. `EventWaiter *` is an arbitrary type `ι`. A
trigger with a precondition is a trigger at the time of the precondition
(`DeferredEventTrigger`). A failed assertion is an `EventFault`.
-/

namespace CharmRuntime.Legion.GenEvent

open Lib

/-- The assertions, each under what it excludes. -/
inductive EventFault
  /-- The owner has to catch up. -/
  | localCatchup
  /-- A waiter for a generation after the next one. -/
  | staleVersion
  /-- A subscription to a generation after the next one. -/
  | beyondNext
deriving DecidableEq, Repr

/-- `GenEventImpl` on one node. -/
structure GenEventImpl (N ι : Type) where
  owner : N
  generation : Nat
  genSubscribed : Nat
  remoteWaiters : List N
  localWaiters : List ι

/-- `EventSubscribeMessage` and `EventTriggerMessage`. -/
inductive EventMsg (N : Type)
  | subscribe (node : N) (gen previousSubscribeGen : Nat)
  | trigger (node : N) (gen : Nat)
deriving DecidableEq

/-- What a call does: the new state, the messages, the waiters it notifies, and whether it
puts the event on the free list. -/
structure EventEffect (N ι : Type) where
  impl : GenEventImpl N ι
  sends : List (N × EventMsg N)
  woken : List ι
  freed : Bool

variable {N ι : Type}

/-- A call that does nothing. -/
def EventEffect.none (s : GenEventImpl N ι) : EventEffect N ι :=
  { impl := s, sends := [], woken := [], freed := false }

/-- One call after the other; `next` has started from the state of `e`. -/
def EventEffect.andThen (e next : EventEffect N ι) : EventEffect N ι :=
  { impl := next.impl
    sends := e.sends ++ next.sends
    woken := e.woken ++ next.woken
    freed := e.freed || next.freed }

/-- `generation + 1`. -/
def succGen (gen : Nat) : Nat := (gen + 1) % 2 ^ 32

/-- `gen - 1`. -/
def predGen (gen : Nat) : Nat := (gen + (2 ^ 32 - 1)) % 2 ^ 32

section Calls

variable [DecidableEq N]

/-- `check_for_catchup` on node `me`. -/
def checkForCatchup (me : N) (impliedTriggerGen : Nat) (s : GenEventImpl N ι) :
    Except EventFault (EventEffect N ι) :=
  if impliedTriggerGen ≤ s.generation then .ok (.none s)
  else if s.owner = me then .error .localCatchup
  else
    .ok { impl := { s with generation := impliedTriggerGen, localWaiters := [] }
          sends := []
          woken := s.localWaiters
          freed := false }

/-- `add_waiter` on node `me`. -/
def addWaiter (me : N) (neededGen : Nat) (waiter : ι) (s : GenEventImpl N ι) :
    Except EventFault (EventEffect N ι) :=
  if s.generation < neededGen then
    if neededGen ≠ succGen s.generation then .error .staleVersion
    else if s.owner ≠ me ∧ s.genSubscribed < neededGen then
      .ok { impl := { s with genSubscribed := neededGen,
                             localWaiters := s.localWaiters ++ [waiter] }
            sends := [(s.owner, .subscribe me neededGen 0)]
            woken := []
            freed := false }
    else .ok (.none { s with localWaiters := s.localWaiters ++ [waiter] })
  else .ok { impl := s, sends := [], woken := [waiter], freed := false }

/-- `trigger` on node `me`. -/
def trigger (me : N) (genTriggered : Nat) (triggerNode : N) (s : GenEventImpl N ι) :
    EventEffect N ι :=
  if genTriggered ≤ s.generation then .none s
  else if s.owner = me then
    { impl := { s with generation := genTriggered, localWaiters := [], remoteWaiters := [] }
      sends := s.remoteWaiters.map fun node => (node, .trigger triggerNode genTriggered)
      woken := s.localWaiters
      freed := true }
  else
    { impl := { s with generation := genTriggered, localWaiters := [] }
      sends := if triggerNode = me then [(s.owner, .trigger triggerNode genTriggered)] else []
      woken := s.localWaiters
      freed := false }

/-- `handle_event_subscribe`, once it has found the event. -/
def handleEventSubscribe (me node : N) (gen previousSubscribeGen : Nat) (s : GenEventImpl N ι) :
    Except EventFault (EventEffect N ι) :=
  if gen ≤ s.generation then
    .ok { EventEffect.none s with sends := [(node, .trigger me s.generation)] }
  else
    let notice :=
      if previousSubscribeGen < s.generation then [(node, .trigger me s.generation)] else []
    if ¬ gen ≤ succGen s.generation then .error .beyondNext
    else
      .ok { EventEffect.none { s with remoteWaiters := s.remoteWaiters.insert node } with
            sends := notice }

/-- The handler of a message; `get_genevent_impl` comes first. -/
def handle (me : N) (msg : EventMsg N) (s : GenEventImpl N ι) :
    Except EventFault (EventEffect N ι) :=
  match msg with
  | .subscribe node gen previousSubscribeGen => do
      let e ← checkForCatchup me (predGen gen) s
      let next ← handleEventSubscribe me node gen previousSubscribeGen e.impl
      return e.andThen next
  | .trigger node gen => do
      let e ← checkForCatchup me (predGen gen) s
      return e.andThen (trigger me gen node e.impl)

end Calls

/-! ### The nodes and the network -/

/-- All nodes, the messages in flight, how often the event is on the owner's free list, and the
callers' records: the generations created, those whose trigger was issued, how often
each was put on the free list, the generations that each node knows, and the waiters added
and notified on each node. A waiter is recorded with its generation. -/
structure World (N ι : Type) where
  impl : N → GenEventImpl N (Nat × ι)
  net : List (N × EventMsg N)
  free : Nat
  created : List Nat
  issued : List Nat
  freed : Nat → Nat
  known : N → List Nat
  added : N → Multiset (Nat × ι)
  woken : N → Multiset (Nat × ι)

/-- A call on node `p`, or the arrival of message `k` of the network. -/
inductive GenEventEvent (N ι : Type)
  /-- `create_genevent` and `current_event` on the owner. -/
  | create
  /-- Node `p` hears of generation `gen`. -/
  | learn (p : N) (gen : Nat)
  | addWaiter (p : N) (gen : Nat) (waiter : ι)
  | trigger (p : N) (gen : Nat)
  | deliver (k : Nat)

namespace World

variable [DecidableEq N]

/-- What a call on node `p` does; `freeGen` is the generation that the free list is told of. -/
def commit (w : World N ι) (p : N) (freeGen : Nat) (e : EventEffect N (Nat × ι)) : World N ι :=
  { w with
    impl := Function.update w.impl p e.impl
    net := w.net ++ e.sends
    free := if e.freed then w.free + 1 else w.free
    freed := if e.freed then Function.update w.freed freeGen (w.freed freeGen + 1) else w.freed
    woken := Function.update w.woken p (w.woken p + ↑e.woken) }

/-- A node hears of generations that were created, waits for those it has heard of, and
triggers one that no node has triggered. -/
def Enabled (w : World N ι) : GenEventEvent N ι → Prop
  | .create => 0 < w.free
  | .learn _ gen => gen ∈ w.created
  | .addWaiter p gen _ => gen ∈ w.known p
  | .trigger p gen => gen ∈ w.known p ∧ gen ∉ w.issued
  | .deliver k => k < w.net.length

def know (w : World N ι) (p : N) (gen : Nat) : World N ι :=
  { w with known := Function.update w.known p (gen :: w.known p) }

/-- One event. -/
def next (owner : N) (w : World N ι) : GenEventEvent N ι → Except EventFault (World N ι)
  | .create =>
    let gen := succGen (w.impl owner).generation
    .ok ({ w with free := w.free - 1, created := gen :: w.created }.know owner gen)
  | .learn p gen => do
      let e ← checkForCatchup p (predGen gen) (w.impl p)
      return (w.know p gen).commit p gen e
  | .addWaiter p gen waiter => do
      let e ← GenEvent.addWaiter p gen (gen, waiter) (w.impl p)
      return { w with added := Function.update w.added p ((gen, waiter) ::ₘ w.added p) }.commit p
        gen e
  | .trigger p gen =>
    .ok ({ w with issued := gen :: w.issued }.commit p gen (GenEvent.trigger p gen p (w.impl p)))
  | .deliver k =>
    match w.net[k]? with
    | none => return w
    | some (p, msg) => do
        let e ← handle p msg (w.impl p)
        return { w with net := w.net.eraseIdx k }.commit p e.impl.generation e

/-- `init` on every node; the event is on the owner's free list. -/
def initial (owner : N) : World N ι where
  impl _ :=
    { owner := owner
      generation := 0
      genSubscribed := 0
      remoteWaiters := []
      localWaiters := [] }
  net := []
  free := 1
  created := []
  issued := []
  freed _ := 0
  known _ := []
  added _ := 0
  woken _ := 0

end World

variable [DecidableEq N]

/-- The runs of an event. -/
def system (owner : N) : Transition (World N ι) (GenEventEvent N ι) where
  init w := w = .initial owner
  step w e w' := w.Enabled e ∧ w.next owner e = .ok w'

/-- The generation counter does not wrap. -/
def NoWrap (owner : N) (w : World N ι) : GenEventEvent N ι → Prop
  | .create => (w.impl owner).generation + 1 < 2 ^ 32
  | _ => True

/-- What an event guarantees. -/
structure Safe (owner : N) (w : World N ι) : Prop where
  /-- Every waiter waits or has been notified, once. -/
  notified_once : ∀ p, w.added p = ↑(w.impl p).localWaiters + w.woken p
  /-- A waiter is notified after the trigger of its generation was issued. -/
  never_early : ∀ p, ∀ x ∈ w.woken p, x.1 ∈ w.issued
  /-- No node is ahead of the triggers issued. -/
  behind : ∀ p, 0 < (w.impl p).generation → (w.impl p).generation ∈ w.issued
  /-- The event is put on the free list once for each generation that the owner has reached. -/
  freed_once : ∀ gen, w.freed gen = if 0 < gen ∧ gen ≤ (w.impl owner).generation then 1 else 0
  /-- No assertion fails. -/
  no_fault : ∀ e, w.Enabled e → ∃ w', w.next owner e = .ok w'
  /-- When nothing is in flight, nobody waits for a generation that the owner has reached. -/
  quiet : w.net = [] → ∀ p, ∀ x ∈ (w.impl p).localWaiters, (w.impl owner).generation < x.1

end CharmRuntime.Legion.GenEvent
