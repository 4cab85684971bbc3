import Mathlib.Data.List.Rotate
import CharmRuntime.Lib.Transition

/-!
# Arrays.Broadcaster

**Broadcasts to array elements that migrate** (`CkArrayBroadcaster` and
`CkArray::recvBroadcast` in `ck-core/ckarray.C`).

A serializer orders the broadcasts; every PE receives them in this order, counts them and
stashes them. An element carries the number of the last broadcast it was given. Where it
arrives, `bringUpToDate` looks up what it missed by position: the stash is rotated by what the
element needs not, and then once more by every broadcast that is given to it.

The steps are as fine as the code can be interleaved: an element may create others, and may
leave, while it executes a broadcast, and the loop that gave it the broadcast goes on when it
returns. If it leaves with broadcasts of the loop left, `bringUpToDate` returns at once, and the
stash stays rotated (`Ok` says that this does not happen).
-/

namespace CharmRuntime.Arrays

open Lib

/-! ## The code of one PE -/

/-- `CkArrayBroadcaster`, with `stableLocations` and `broadcastViaScheduler` false. -/
structure Broadcaster (M : Type) where
  bcastNo : Nat
  oldBcastNo : Nat
  oldBcasts : List M

/-- Where an element is: at home on a PE, or on its way to one. -/
inductive Place (P : Type)
  | resident (pe : P)
  | flight (pe : P)
  deriving DecidableEq, Repr

/-- An element and its `elBcastNo`, with its number when it was created and what it was given since.
-/
structure Element (P M : Type) where
  place : Place P
  elBcastNo : Nat
  born : Nat
  given : List M

variable {P E M : Type}

namespace Broadcaster

/-- The constructor. -/
def new : Broadcaster M := { bcastNo := 0, oldBcastNo := 0, oldBcasts := [] }

/-- `incoming`. -/
def incoming (b : Broadcaster M) (msg : M) : Broadcaster M :=
  { b with bcastNo := b.bcastNo + 1, oldBcasts := b.oldBcasts ++ [msg] }

/-- `deliver`, up to the call of the entry method: no value if the element has the broadcast
already. -/
def deliver (b : Broadcaster M) (bcast : M) (el : Element P M) : Option (Element P M) :=
  if el.elBcastNo ≥ b.bcastNo then none
  else some { el with elBcastNo := el.elBcastNo + 1, given := el.given ++ [bcast] }

/-- The first loop of `bringUpToDate`: `oldBcasts.enq(oldBcasts.deq())` from `length()-1` down to
`nDeliver`. -/
def skipOld (b : Broadcaster M) (nDeliver : Nat) : Broadcaster M :=
  { b with oldBcasts := b.oldBcasts.rotate (b.oldBcasts.length - nDeliver) }

@[simp] theorem incoming_bcastNo (b : Broadcaster M) (msg : M) :
    (b.incoming msg).bcastNo = b.bcastNo + 1 := rfl

@[simp] theorem skipOld_bcastNo (b : Broadcaster M) (nDeliver : Nat) :
    (b.skipOld nDeliver).bcastNo = b.bcastNo := rfl

/-- The number of broadcasts that `springCleaning` deletes. -/
def nDelete (b : Broadcaster M) : Nat := b.oldBcasts.length - (b.bcastNo - b.oldBcastNo)

/-- `springCleaning`. -/
def springCleaning (b : Broadcaster M) : Broadcaster M :=
  { b with oldBcasts := b.oldBcasts.drop b.nDelete, oldBcastNo := b.bcastNo }

@[simp] theorem springCleaning_bcastNo (b : Broadcaster M) :
    b.springCleaning.bcastNo = b.bcastNo := rfl

end Broadcaster

/-- The loop a PE is in: none, that of `recvBroadcast` over the elements `todo`, or the second one
of `bringUpToDate` with its variable `i`. -/
inductive Running (E M : Type)
  | idle
  | recvBroadcast (msg : M) (todo : List E)
  | bringUpToDate (el : E) (i : Nat)

/-- A PE: its broadcaster, the broadcasts it received, its loop, and the element whose entry method
the loop called. -/
structure Pe (E M : Type) where
  broadcaster : Broadcaster M
  received : Nat
  running : Running E M
  executing : Option E

/-- Code runs that is not the loop's own. -/
def Pe.Open (p : Pe E M) : Prop := p.running = .idle ∨ p.executing ≠ none

/-- The loop of `bringUpToDate` behind the iteration `i`. -/
def afterIteration (el : E) : Nat → Running E M
  | 0 => .idle
  | i + 1 => .bringUpToDate el i

/-- The loop when an entry method has returned; `survived` is what it returned. -/
def Running.next (r : Running E M) (survived : Bool) : Running E M :=
  match r with
  | .idle => .idle
  | .recvBroadcast msg todo => .recvBroadcast msg todo
  | .bringUpToDate el i => if survived then afterIteration el i else .idle

/-! ## All PEs -/

/-- The broadcasts in the serializer's order, the PEs, and the elements that were created. -/
structure World (P E M : Type) where
  sent : List M
  pe : P → Pe E M
  elem : E → Option (Element P M)

namespace World

variable [DecidableEq P] [DecidableEq E]

/-- No broadcasts and no elements. -/
def new : World P E M where
  sent := []
  pe _ := { broadcaster := .new, received := 0, running := .idle, executing := none }
  elem _ := none

def setPe (w : World P E M) (p : P) (x : Pe E M) :
    World P E M := { w with pe := Function.update w.pe p x }

def setElem (w : World P E M) (el : E) (x : Element P M) : World P E M :=
  { w with elem := Function.update w.elem el (some x) }

variable (w : World P E M)

@[simp] theorem setPe_sent (p : P) (x : Pe E M) : (w.setPe p x).sent = w.sent := rfl

@[simp] theorem setPe_elem (p : P) (x : Pe E M) : (w.setPe p x).elem = w.elem := rfl

@[simp] theorem setPe_pe (p : P) (x : Pe E M) : (w.setPe p x).pe p = x := Function.update_self ..

theorem setPe_pe_of_ne {p q : P} (hq : q ≠ p) (x : Pe E M) : (w.setPe p x).pe q = w.pe q :=
  Function.update_of_ne hq ..

@[simp] theorem setElem_sent (el : E) (x : Element P M) : (w.setElem el x).sent = w.sent := rfl

@[simp] theorem setElem_pe (el : E) (x : Element P M) : (w.setElem el x).pe = w.pe := rfl

@[simp] theorem setElem_elem (el : E) (x : Element P M) : (w.setElem el x).elem el = some x :=
  Function.update_self ..

theorem setElem_elem_of_ne {el e : E} (he : e ≠ el) (x : Element P M) :
    (w.setElem el x).elem e = w.elem e :=
  Function.update_of_ne he ..

/-- The element is at home on the PE. -/
def Resident (w : World P E M) (el : E) (p : P) :
    Prop := ∃ x, w.elem el = some x ∧ x.place = .resident p

/-- No element lacks a broadcast that a cleaning of PE `p` discards. -/
def CleanAllowed (w : World P E M) (p : P) : Prop :=
  ∀ el x, w.elem el = some x →
    (w.pe p).broadcaster.bcastNo ≤ x.elBcastNo +
    ((w.pe p).broadcaster.oldBcasts.length - (w.pe p).broadcaster.nDelete)

end World

/-- What happens next. -/
inductive Event (P E M : Type)
  | broadcast (msg : M)
  | recv (p : P)
  | visit (p : P)
  | bring (p : P)
  | finish (p : P)
  | create (p : P) (el : E) (place : Place P)
  | leave (el : E) (p : P)
  | arrive (el : E)
  | clean (p : P)

open World in
/-- A step. -/
inductive Step [DecidableEq P] [DecidableEq E] : World P E M → Event P E M → World P E M → Prop
  /-- The serializer sends a broadcast. -/
  | broadcast (w : World P E M) (msg : M) :
      Step w (.broadcast msg) { w with sent := w.sent ++ [msg] }
  /-- `recvBroadcast` up to its loop, over the local elements. -/
  | recv (w : World P E M) (p : P) (msg : M) (todo : List E) :
      (w.pe p).running = .idle → w.sent[(w.pe p).received]? = some msg →
      (∀ el, el ∈ todo ↔ w.Resident el p) →
      Step w (.recv p) (w.setPe p { w.pe p with
        broadcaster := (w.pe p).broadcaster.incoming msg, received := (w.pe p).received + 1
        running := .recvBroadcast msg todo })
  /-- The loop of `recvBroadcast` gives the broadcast to the next element. -/
  | visit (w : World P E M) (p : P) (msg : M) (el : E) (todo : List E) (x x' : Element P M) :
      (w.pe p).running = .recvBroadcast msg (el :: todo) → (w.pe p).executing = none →
      w.elem el = some x → x.place = .resident p → (w.pe p).broadcaster.deliver msg x = some x' →
      Step w (.visit p)
        ((w.setPe p
          { w.pe p with running := .recvBroadcast msg todo, executing := some el }).setElem el x')
  /-- The next element has the broadcast already. -/
  | skip (w : World P E M) (p : P) (msg : M) (el : E) (todo : List E) (x : Element P M) :
      (w.pe p).running = .recvBroadcast msg (el :: todo) → (w.pe p).executing = none →
      w.elem el = some x → x.place = .resident p → (w.pe p).broadcaster.deliver msg x = none →
      Step w (.visit p) (w.setPe p { w.pe p with running := .recvBroadcast msg todo })
  /-- The next element has left. -/
  | gone (w : World P E M) (p : P) (msg : M) (el : E) (todo : List E) :
      (w.pe p).running = .recvBroadcast msg (el :: todo) → (w.pe p).executing = none →
      ¬ w.Resident el p →
      Step w (.visit p) (w.setPe p { w.pe p with running := .recvBroadcast msg todo })
  /-- The loop of `recvBroadcast` is over. -/
  | done (w : World P E M) (p : P) (msg : M) :
      (w.pe p).running = .recvBroadcast msg [] → (w.pe p).executing = none →
      Step w (.visit p) (w.setPe p { w.pe p with running := .idle })
  /-- An iteration of `bringUpToDate`. -/
  | bring (w : World P E M) (p : P) (el : E) (i : Nat) (msg : M) (oldBcasts : List M)
  (x x' : Element P M) :
      (w.pe p).running = .bringUpToDate el i → (w.pe p).executing = none →
      (w.pe p).broadcaster.oldBcasts = msg :: oldBcasts → w.elem el = some x →
      (w.pe p).broadcaster.deliver msg x = some x' →
      Step w (.bring p) ((w.setPe p { w.pe p with
        broadcaster := { (w.pe p).broadcaster with oldBcasts := oldBcasts ++ [msg] }
        executing := some el }).setElem el x')
  /-- An iteration of `bringUpToDate` in which `deliver` returns false at once. -/
  | bringSkip (w : World P E M) (p : P) (el : E) (i : Nat) (msg : M) (oldBcasts : List M)
  (x : Element P M) :
      (w.pe p).running = .bringUpToDate el i → (w.pe p).executing = none →
      (w.pe p).broadcaster.oldBcasts = msg :: oldBcasts → w.elem el = some x →
      (w.pe p).broadcaster.deliver msg x = none →
      Step w (.bring p) (w.setPe p { w.pe p with
        broadcaster := { (w.pe p).broadcaster with oldBcasts := oldBcasts ++ [msg] }, running :=
          .idle })
  /-- `msg == NULL`: nothing is stashed. -/
  | bringNull (w : World P E M) (p : P) (el : E) (i : Nat) :
      (w.pe p).running = .bringUpToDate el i → (w.pe p).executing = none →
      (w.pe p).broadcaster.oldBcasts = [] →
      Step w (.bring p) (w.setPe p { w.pe p with running := afterIteration el i })
  /-- The entry method returns: true, -/
  | finish (w : World P E M) (p : P) (el : E) :
      (w.pe p).executing = some el → w.Resident el p →
      Step w (.finish p)
      (w.setPe p { w.pe p with running := (w.pe p).running.next true, executing := none })
  /-- or false if the element has left. -/
  | finishGone (w : World P E M) (p : P) (el : E) :
      (w.pe p).executing = some el → ¬ w.Resident el p →
      Step w (.finish p)
      (w.setPe p { w.pe p with running := (w.pe p).running.next false, executing := none })
  /-- An element is created by PE `p`, which stamps it with its number: for a PE, or on `p` itself.
  -/
  | create (w : World P E M) (p : P) (el : E) (place : Place P) :
      (w.pe p).Open → w.elem el = none → (∀ q, place = .resident q → q = p) →
      Step w (.create p el place) (w.setElem el
        { place, elBcastNo := (w.pe p).broadcaster.bcastNo, born := (w.pe
          p).broadcaster.bcastNo, given := [] })
  /-- An element leaves for another PE. -/
  | leave (w : World P E M) (el : E) (x : Element P M) (p q : P) :
      w.elem el = some x → x.place = .resident p → (w.pe p).Open →
      Step w (.leave el q) (w.setElem el { x with place := .flight q })
  /-- An element arrives that missed nothing, -/
  | arrive (w : World P E M) (el : E) (x : Element P M) (p : P) :
      w.elem el = some x → x.place = .flight p → (w.pe p).running = .idle →
      (w.pe p).broadcaster.bcastNo ≤ x.elBcastNo →
      Step w (.arrive el) (w.setElem el { x with place := .resident p })
  /-- or that is to be brought up to date. -/
  | arriveBehind (w : World P E M) (el : E) (x : Element P M) (p : P) :
      w.elem el = some x → x.place = .flight p → (w.pe p).running = .idle →
      x.elBcastNo < (w.pe p).broadcaster.bcastNo →
      Step w (.arrive el) ((w.setPe p { w.pe p with
        broadcaster := (w.pe p).broadcaster.skipOld ((w.pe p).broadcaster.bcastNo - x.elBcastNo)
        running := .bringUpToDate el ((w.pe p).broadcaster.bcastNo - x.elBcastNo - 1) }).setElem el
          { x with place := .resident p })
  /-- A cleaning. -/
  | clean (w : World P E M) (p : P) :
      (w.pe p).running = .idle → w.CleanAllowed p →
      Step w (.clean p)
      (w.setPe p { w.pe p with broadcaster := (w.pe p).broadcaster.springCleaning })

/-- The broadcasts of an array. -/
def broadcastSystem (P E M : Type) [DecidableEq P] [DecidableEq E] :
    Transition (World P E M) (Event P E M) where
  init w := w = .new
  step := Step

/-- **The steps that go well**: no element leaves while it is brought up to date and more broadcasts
are to follow, and none arrives where a broadcast it lacks was discarded. -/
def Ok (w : World P E M) : Event P E M → Prop
  | .leave el _ =>
    ∀ x p i, w.elem el = some x → x.place = .resident p → (w.pe p).running = .bringUpToDate el i →
    i = 0
  | .arrive el => ∀ x p, w.elem el = some x → x.place = .flight p →
      (w.pe p).broadcaster.bcastNo ≤ x.elBcastNo + (w.pe p).broadcaster.oldBcasts.length
  | _ => True

end CharmRuntime.Arrays
