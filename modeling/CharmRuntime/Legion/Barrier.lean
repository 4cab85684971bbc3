import CharmRuntime.Lib.OrderedMap
import CharmRuntime.Lib.Transition
import Mathlib.Data.List.FinRange

/-!
# Legion.Barrier

`BarrierImpl` of the low-level runtime, for a barrier without a reduction whose arrivals
have timestamp 0. One node owns the barrier and counts its arrivals; the other nodes
subscribe to a generation and are told, in ranges `previous_gen → trigger_gen`, which
generations have triggered. Ranges that arrive too early are held.

Generations are of type `unsigned` and are natural numbers below `2 ^ 32` here, with the wrap
of `generation + 1` written out; counts and deltas are 32-bit words. The sum `unguarded_delta`,
of type `int`, is taken to wrap. `EventWaiter *` is an arbitrary type `ι`. A failed assertion is a
`BarrierFault`.
-/

namespace CharmRuntime.Legion.Barrier

open Lib Function

/-- The assertions, each under what it excludes. -/
inductive BarrierFault
  /-- `generation` has reached `free_generation`. -/
  | freed
  /-- `base_arrival_count` is zero. -/
  | noArrivals
  /-- An arrival for a generation that has triggered. -/
  | lateArrival
  /-- A subscription from an earlier lifetime of the barrier. -/
  | oldSubscription
  /-- A subscription on record for a generation that has triggered. -/
  | staleSubscription
  /-- A waiter for a generation that the node has not subscribed to. -/
  | notSubscribed
deriving DecidableEq, Repr

/-- `BarrierImpl::Generation`. -/
structure Generation (ι : Type) where
  unguardedDelta : BitVec 32
  localWaiters : List ι

/-- `BarrierImpl` on one node. -/
structure BarrierImpl (n : Nat) (ι : Type) where
  owner : Fin n
  generation : Nat
  genSubscribed : Nat
  firstGeneration : Nat
  freeGeneration : Nat
  generations : OrderedMap Nat (Generation ι)
  remoteSubscribeGens : Fin n → Option Nat
  remoteTriggerGens : Fin n → Option Nat
  heldTriggers : OrderedMap Nat Nat
  baseArrivalCount : BitVec 32

/-- `BarrierAdjustMessage`, `BarrierSubscribeMessage` and `BarrierTriggerMessage`. -/
inductive BarrierMsg (n : Nat)
  | adjust (barrierGen : Nat) (delta : BitVec 32)
  | subscribe (node : Fin n) (subscribeGen : Nat)
  | trigger (triggerGen previousGen : Nat)
deriving DecidableEq

/-- What a call does: the new state, the messages, and the waiters it wakes. -/
structure BarrierEffect (n : Nat) (ι : Type) where
  impl : BarrierImpl n ι
  sends : List (Fin n × BarrierMsg n)
  woken : List ι

variable {n : Nat} {ι : Type}

/-- `new Generation`. -/
def Generation.new : Generation ι := { unguardedDelta := 0, localWaiters := [] }

/-- `handle_adjustment` with timestamp 0. -/
def Generation.handleAdjustment (g : Generation ι) (delta : BitVec 32) : Generation ι :=
  { g with unguardedDelta := g.unguardedDelta + delta }

/-- `local_waiters.push_back`. -/
def Generation.addWaiter (g : Generation ι) (waiter : ι) : Generation ι :=
  { g with localWaiters := g.localWaiters ++ [waiter] }

/-- The generations from the next one on that have all their arrivals: the last of them,
the entries that stay, and the waiters of those that go. -/
def triggerReady (base : BitVec 32) (generation : Nat) :
    OrderedMap Nat (Generation ι) → Nat × OrderedMap Nat (Generation ι) × List ι
  | [] => (generation, [], [])
  | (gen, g) :: rest =>
    if gen = (generation + 1) % 2 ^ 32 ∧ base + g.unguardedDelta = 0 then
      let (last, stay, woken) := triggerReady base gen rest
      (last, stay, g.localWaiters ++ woken)
    else (generation, (gen, g) :: rest, [])

/-- What a node was last told. -/
def BarrierImpl.told (s : BarrierImpl n ι) (p : Fin n) : Nat :=
  (s.remoteTriggerGens p).getD s.firstGeneration

/-- The trigger that a subscriber is sent, once `generation` has been reached. -/
def notification (s : BarrierImpl n ι) (generation : Nat) (p : Fin n) :
    Option (Fin n × BarrierMsg n) :=
  match s.remoteSubscribeGens p with
  | none => none
  | some gen => some (p, .trigger (min gen generation) (s.told p))

/-- The loop over `remote_subscribe_gens`: subscriptions that are fulfilled go, and the
owner remembers what it has told. -/
def notifySubscribers (s : BarrierImpl n ι) : BarrierImpl n ι × List (Fin n × BarrierMsg n) :=
  ({ s with
     remoteSubscribeGens := fun p =>
       match s.remoteSubscribeGens p with
       | none => none
       | some gen => if gen ≤ s.generation then none else some gen
     remoteTriggerGens := fun p =>
       match s.remoteSubscribeGens p with
       | none => s.remoteTriggerGens p
       | some gen => some (min gen s.generation) },
    (List.finRange n).filterMap (notification s s.generation))

/-- `adjust_arrival` on node `me`. -/
def adjustArrival (me : Fin n) (barrierGen : Nat) (delta : BitVec 32) (s : BarrierImpl n ι) :
    Except BarrierFault (BarrierEffect n ι) :=
  if s.owner ≠ me then
    .ok { impl := s, sends := [(s.owner, .adjust barrierGen delta)], woken := [] }
  else if ¬ s.generation < s.freeGeneration then .error .freed
  else if s.baseArrivalCount = 0 then .error .noArrivals
  else if ¬ s.generation < barrierGen then .error .lateArrival
  else
    let adjusted := s.generations.upsert barrierGen fun g =>
      (g.getD .new).handleAdjustment delta
    if barrierGen = (s.generation + 1) % 2 ^ 32 then
      let (generation, stay, woken) := triggerReady s.baseArrivalCount s.generation adjusted
      let s := { s with generation := generation, generations := stay }
      if barrierGen ≤ s.generation then
        let (s, sends) := notifySubscribers s
        .ok { impl := s, sends := sends, woken := woken }
      else .ok { impl := s, sends := [], woken := woken }
    else .ok { impl := { s with generations := adjusted }, sends := [], woken := [] }

/-- `has_triggered` on node `me`. -/
def hasTriggered (me : Fin n) (neededGen : Nat) (s : BarrierImpl n ι) :
    Bool × BarrierEffect n ι :=
  if neededGen ≤ s.generation then (true, { impl := s, sends := [], woken := [] })
  else if s.owner ≠ me ∧ s.genSubscribed < neededGen then
    (false, { impl := { s with genSubscribed := neededGen }
              sends := [(s.owner, .subscribe me neededGen)]
              woken := [] })
  else (false, { impl := s, sends := [], woken := [] })

/-- `add_waiter` on node `me`. -/
def addWaiter (me : Fin n) (neededGen : Nat) (waiter : ι) (s : BarrierImpl n ι) :
    Except BarrierFault (BarrierEffect n ι) :=
  if s.generation < neededGen then
    let waiting := s.generations.upsert neededGen fun g => (g.getD .new).addWaiter waiter
    if ¬ (s.owner = me ∨ neededGen ≤ s.genSubscribed) then .error .notSubscribed
    else .ok { impl := { s with generations := waiting }, sends := [], woken := [] }
  else .ok { impl := s, sends := [], woken := [waiter] }

/-- The second half of `BarrierSubscribeMessage::handle_request`: the immediate trigger. -/
def catchUp (node : Fin n) (s : BarrierImpl n ι) : BarrierEffect n ι :=
  if s.firstGeneration < s.generation ∧
      (s.remoteTriggerGens node = none ∨ s.told node < s.generation) then
    { impl :=
        { s with remoteTriggerGens := update s.remoteTriggerGens node (some s.generation) }
      sends := [(node, .trigger s.generation (s.told node))]
      woken := [] }
  else { impl := s, sends := [], woken := [] }

/-- `BarrierSubscribeMessage::handle_request`. -/
def handleSubscribe (node : Fin n) (subscribeGen : Nat) (s : BarrierImpl n ι) :
    Except BarrierFault (BarrierEffect n ι) :=
  if ¬ s.firstGeneration < subscribeGen then .error .oldSubscription
  else
    match s.remoteSubscribeGens node with
    | some gen =>
      if ¬ s.generation < gen then .error .staleSubscription
      else if subscribeGen ≤ gen then .ok { impl := s, sends := [], woken := [] }
      else
        .ok (catchUp node
          { s with
            remoteSubscribeGens :=
              update s.remoteSubscribeGens node (some subscribeGen) })
    | none =>
      if s.generation < subscribeGen then
        .ok (catchUp node
          { s with
            remoteSubscribeGens :=
              update s.remoteSubscribeGens node (some subscribeGen) })
      else .ok (catchUp node s)

/-- The held triggers that continue the range up to `triggerGen`. -/
def absorb (triggerGen : Nat) : OrderedMap Nat Nat → Nat × OrderedMap Nat Nat
  | [] => (triggerGen, [])
  | (previous, gen) :: rest =>
    if previous ≠ triggerGen then (triggerGen, (previous, gen) :: rest) else absorb gen rest

/-- The waiters of the generations up to `triggerGen`, and the entries after it. -/
def wakeUpTo (triggerGen : Nat) :
    OrderedMap Nat (Generation ι) → OrderedMap Nat (Generation ι) × List ι
  | [] => ([], [])
  | (gen, g) :: rest =>
    if triggerGen < gen then ((gen, g) :: rest, [])
    else
      let (stay, woken) := wakeUpTo triggerGen rest
      (stay, g.localWaiters ++ woken)

/-- `BarrierTriggerMessage::handle_request`. -/
def handleTrigger (triggerGen previousGen : Nat) (s : BarrierImpl n ι) : BarrierEffect n ι :=
  if previousGen = s.generation then
    let (triggerGen, held) := absorb triggerGen s.heldTriggers
    let (stay, woken) := wakeUpTo triggerGen s.generations
    { impl := { s with generation := triggerGen, heldTriggers := held, generations := stay }
      sends := []
      woken := woken }
  else
    { impl := { s with heldTriggers := s.heldTriggers.upsert previousGen fun _ => triggerGen }
      sends := []
      woken := [] }

/-- The handler of a message. -/
def handle (me : Fin n) (msg : BarrierMsg n) (s : BarrierImpl n ι) :
    Except BarrierFault (BarrierEffect n ι) :=
  match msg with
  | .adjust barrierGen delta => adjustArrival me barrierGen delta s
  | .subscribe node subscribeGen => handleSubscribe node subscribeGen s
  | .trigger triggerGen previousGen => .ok (handleTrigger triggerGen previousGen s)

/-! ### The nodes and the network -/

/-- All nodes, the messages in flight, and the callers' records: the arrivals made and the
arrivals that the owner has handled for each generation, the generations that each node has
asked about, and the waiters added and woken on each node. A waiter is recorded with the
generation it waits for. -/
structure World (n : Nat) (ι : Type) where
  impl : Fin n → BarrierImpl n (Nat × ι)
  net : List (Fin n × BarrierMsg n)
  arrived : Nat → Nat
  handled : Nat → Nat
  asked : Fin n → List Nat
  added : Fin n → Multiset (Nat × ι)
  woken : Fin n → Multiset (Nat × ι)

/-- A call on node `p`, or the arrival of message `k` of the network. -/
inductive BarrierEvent (n : Nat) (ι : Type)
  /-- `count` arrivals for generation `gen` at once. -/
  | arrive (p : Fin n) (gen count : Nat)
  | hasTriggered (p : Fin n) (gen : Nat)
  | addWaiter (p : Fin n) (gen : Nat) (waiter : ι)
  | deliver (k : Nat)

namespace World

/-- The new state of node `p`, its messages, and the waiters it has woken. -/
def commit (w : World n ι) (p : Fin n) (e : BarrierEffect n (Nat × ι)) : World n ι :=
  { w with
    impl := update w.impl p e.impl
    net := w.net ++ e.sends
    woken := update w.woken p (w.woken p + ↑e.woken) }

/-- The owner handles the arrivals of an adjustment. -/
def noteHandled (w : World n ι) (p : Fin n) (gen : Nat) (delta : BitVec 32) : World n ι :=
  if (w.impl p).owner = p then
    { w with handled := update w.handled gen (w.handled gen + (-delta).toNat) }
  else w

/-- The record of a message's delivery. -/
def noteDelivery (w : World n ι) (p : Fin n) : BarrierMsg n → World n ι
  | .adjust gen delta => w.noteHandled p gen delta
  | _ => w

/-- At most `expected` arrivals are made for each generation, and a waiter is added after
the node has asked whether its generation has triggered. -/
def Enabled (expected : Nat) (w : World n ι) : BarrierEvent n ι → Prop
  | .arrive _ gen count =>
    0 < gen ∧ gen < 2 ^ 32 ∧ 0 < count ∧ w.arrived gen + count ≤ expected
  | .hasTriggered _ gen => gen < 2 ^ 32
  | .addWaiter p gen _ => gen ∈ w.asked p
  | .deliver k => k < w.net.length

/-- One event. -/
def next (w : World n ι) : BarrierEvent n ι → Except BarrierFault (World n ι)
  | .arrive p gen count =>
    let delta := -BitVec.ofNat 32 count
    match adjustArrival p gen delta (w.impl p) with
    | .error e => .error e
    | .ok eff =>
      let w := { w with arrived := update w.arrived gen (w.arrived gen + count) }
      .ok ((w.noteHandled p gen delta).commit p eff)
  | .hasTriggered p gen =>
    let w' := { w with asked := update w.asked p (gen :: w.asked p) }
    .ok (w'.commit p (Barrier.hasTriggered p gen (w.impl p)).2)
  | .addWaiter p gen waiter =>
    match Barrier.addWaiter p gen (gen, waiter) (w.impl p) with
    | .error e => .error e
    | .ok eff =>
      let w := { w with added := update w.added p ((gen, waiter) ::ₘ w.added p) }
      .ok (w.commit p eff)
  | .deliver k =>
    match w.net[k]? with
    | none => .ok w
    | some (p, msg) =>
      match handle p msg (w.impl p) with
      | .error e => .error e
      | .ok eff =>
        .ok (({ w with net := w.net.eraseIdx k }.noteDelivery p msg).commit p eff)

/-- `init` on every node, and `create_barrier` on the owner. -/
def initial (owner : Fin n) (expected : Nat) : World n ι where
  impl := fun p =>
    { owner := owner
      generation := 0
      genSubscribed := 0
      firstGeneration := 0
      freeGeneration := if p = owner then 2 ^ 32 - 1 else 0
      generations := []
      remoteSubscribeGens := fun _ => none
      remoteTriggerGens := fun _ => none
      heldTriggers := []
      baseArrivalCount := if p = owner then BitVec.ofNat 32 expected else 0 }
  net := []
  arrived := fun _ => 0
  handled := fun _ => 0
  asked := fun _ => []
  added := fun _ => 0
  woken := fun _ => 0

end World

/-- The runs of a barrier with `expected` arrivals. -/
def system (owner : Fin n) (expected : Nat) : Transition (World n ι) (BarrierEvent n ι) where
  init w := w = .initial owner expected
  step w e w' := w.Enabled expected e ∧ w.next e = .ok w'

end CharmRuntime.Legion.Barrier
