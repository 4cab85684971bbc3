import CharmRuntime.Lib.QueueMap
import CharmRuntime.Lib.Transition
import Mathlib.Data.Finset.Card
import Mathlib.Data.List.FinRange

/-!
# Legion.Reservation

`Reservation::Impl` of the low-level runtime: one reservation, with its state on each of
`n` nodes. A node that does not own the reservation asks the node it believes to be the
owner; a stale owner passes the request on; the owner grants the reservation when nobody
holds it, and otherwise notes the node in `remote_waiter_mask`. A grant carries the
ownership, the nodes still waiting and the protected data.

`count` is offset by `ZERO_COUNT` and is an `unsigned` of 32 bits. A failed assertion is a
`Fault`. `GenEventImpl *` is an arbitrary type `ι`.
-/

namespace CharmRuntime.Legion.Reservation

open Lib

/-- `MODE_EXCL`. -/
def modeExcl : BitVec 32 := 0

/-- `ZERO_COUNT`. -/
def zeroCount : BitVec 32 := 0x11223344

/-- The assertions, each under what it excludes. -/
inductive Fault
  /-- `in_use` is false on the home node. -/
  | deleted
  /-- An idle owner has a remote waiter. -/
  | remoteWaiterLeft
  | grantToOwner
  | grantNotRequested
  | grantLength
  | grantNoLocalWaiter
  /-- A sharer of another node's reservation is in the exclusive mode. -/
  | exclusiveSharer
  /-- The list of sharers that is woken leaves `count` at `ZERO_COUNT` or below. -/
  | noSharers
  /-- The front of an empty queue. -/
  | emptyQueue
  /-- `release` with `count` at `ZERO_COUNT` or below. -/
  | notHeld
  | wokeNobody
  /-- `handle_lock_release` is `assert(0)`. -/
  | lockRelease
deriving DecidableEq, Repr

structure LockRequestArgs (n : Nat) where
  node : Fin n
  mode : BitVec 32
deriving DecidableEq

/-- `LockGrantArgs` and the payload: the number of waiters, the waiters, the data. -/
structure LockGrant (n : Nat) where
  mode : BitVec 32
  waiterCount : Nat
  waiters : List (Fin n)
  data : List UInt8
deriving DecidableEq

inductive LockMsg (n : Nat)
  | request (args : LockRequestArgs n)
  | grant (args : LockGrant n)
  | release (node : Fin n)
deriving DecidableEq

/-- `Reservation::Impl` on one node. -/
structure Impl (n : Nat) (ι : Type) where
  owner : Fin n
  count : BitVec 32
  mode : BitVec 32
  inUse : Bool
  remoteWaiterMask : Finset (Fin n)
  remoteSharerMask : Finset (Fin n)
  localWaiters : QueueMap (BitVec 32) ι
  requested : Bool
  localData : List UInt8
  localDataSize : Nat

/-- What a call does: the new state, the messages, and the events it triggers. -/
structure Effect (n : Nat) (ι : Type) where
  impl : Impl n ι
  sends : List (Fin n × LockMsg n)
  woken : List ι

variable {n : Nat} {ι : Type}

/-- `sizeof(int)`. -/
def sizeofInt : Nat := 4

/-- The length of a grant's payload. -/
def LockGrant.datalen (args : LockGrant n) : Nat :=
  (args.waiters.length + 1) * sizeofInt + args.data.length

/-- The grant that gives the reservation away, exclusively, with the waiters of `mask`
packed in ascending order. -/
def packGrant (mask : Finset (Fin n)) (data : List UInt8) : LockGrant n where
  mode := 0
  waiterCount := mask.card
  waiters := (List.finRange n).filter (· ∈ mask)
  data := data

/-- `handle_lock_request` on node `me`. -/
def handleLockRequest (home me : Fin n) (args : LockRequestArgs n) (s : Impl n ι) :
    Except Fault (Effect n ι) :=
  if s.owner ≠ me then .ok { impl := s, sends := [(s.owner, .request args)], woken := [] }
  else if me = home ∧ s.inUse = false then .error .deleted
  else if s.count = zeroCount ∧ s.remoteSharerMask = ∅ then
    if s.remoteWaiterMask ≠ ∅ then .error .remoteWaiterLeft
    else
      .ok { impl := { s with owner := args.node }
            sends := [(args.node, .grant (packGrant s.remoteWaiterMask s.localData))]
            woken := [] }
  else
    .ok { impl := { s with remoteWaiterMask := insert args.node s.remoteWaiterMask }
          sends := [], woken := [] }

/-- `select_local_waiters`: the events to trigger, or nothing when nobody waits. -/
def selectLocalWaiters (s : Impl n ι) : Except Fault (Impl n ι × Option (List ι)) :=
  match s.localWaiters with
  | [] => .ok (s, none)
  | (mode, queue) :: rest =>
    match s.localWaiters.find modeExcl with
    | some [] => .error .emptyQueue
    | some (front :: others) =>
      let waiters :=
        if others = [] then s.localWaiters.erase modeExcl
        else s.localWaiters.replace modeExcl others
      .ok ({ s with localWaiters := waiters, mode := modeExcl, count := zeroCount + 1 },
        some [front])
    | none =>
      let count := zeroCount + BitVec.ofNat 32 queue.length
      if ¬ zeroCount < count then .error .noSharers
      else .ok ({ s with mode := mode, count := count, localWaiters := rest }, some queue)

/-- `handle_lock_grant` on node `me`. -/
def handleLockGrant (me : Fin n) (args : LockGrant n) (s : Impl n ι) :
    Except Fault (Effect n ι) :=
  if s.owner = me then .error .grantToOwner
  else if s.requested = false then .error .grantNotRequested
  else if args.datalen ≠ (args.waiterCount + 1) * sizeofInt + s.localDataSize then
    .error .grantLength
  else
    let granted : Impl n ι :=
      { s with
        remoteWaiterMask := (args.waiters.take args.waiterCount).toFinset
        localData := if 0 < s.localDataSize then args.data else s.localData
        owner := if args.mode = 0 then me else s.owner
        mode := args.mode
        requested := false }
    match selectLocalWaiters granted with
    | .error e => .error e
    | .ok (_, none) => .error .grantNoLocalWaiter
    | .ok (s', some toWake) => .ok { impl := s', sends := [], woken := toWake }

/-- `acquire` on node `me`; `afterLock` is the event that tells the caller. -/
def acquire (home me : Fin n) (newMode : BitVec 32) (exclusive : Bool) (afterLock : ι)
    (s : Impl n ι) : Except Fault (Effect n ι) :=
  let newMode := if exclusive then modeExcl else newMode
  let waiting := s.localWaiters.push newMode afterLock
  if me = home ∧ s.inUse = false then .error .deleted
  else if s.owner = me then
    if s.count = zeroCount ∨ (s.mode = newMode ∧ s.mode ≠ modeExcl) then
      .ok { impl := { s with mode := newMode, count := s.count + 1 }
            sends := [], woken := [afterLock] }
    else .ok { impl := { s with localWaiters := waiting }, sends := [], woken := [] }
  else if zeroCount < s.count ∧ s.mode = newMode then
    if s.mode = modeExcl then .error .exclusiveSharer
    else .ok { impl := { s with count := s.count + 1 }, sends := [], woken := [afterLock] }
  else if s.requested then
    .ok { impl := { s with localWaiters := waiting }, sends := [], woken := [] }
  else
    .ok { impl := { s with localWaiters := waiting, requested := true }
          sends := [(s.owner, .request { node := me, mode := newMode })], woken := [] }

/-- `release` on node `me`. -/
def release (me : Fin n) (s : Impl n ι) : Except Fault (Effect n ι) :=
  if ¬ zeroCount < s.count then .error .notHeld
  else
    let s := { s with count := s.count - 1 }
    if zeroCount < s.count then .ok { impl := s, sends := [], woken := [] }
    else if s.owner ≠ me then
      if s.mode = modeExcl then .error .exclusiveSharer
      else .ok { impl := { s with mode := 0 }, sends := [(s.owner, .release me)], woken := [] }
    else
      match selectLocalWaiters s with
      | .error e => .error e
      | .ok (s, some toWake) =>
        if toWake = [] then .error .wokeNobody
        else .ok { impl := s, sends := [], woken := toWake }
      | .ok (s, none) =>
        -- the loop from 0 up to the first node of the mask; none means that it is empty
        match (List.finRange n).find? (· ∈ s.remoteWaiterMask) with
        | none => .ok { impl := s, sends := [], woken := [] }
        | some newOwner =>
          let mask := s.remoteWaiterMask.erase newOwner
          .ok { impl := { s with owner := newOwner, remoteWaiterMask := ∅ }
                sends := [(newOwner, .grant (packGrant mask s.localData))]
                woken := [] }

/-! ### The nodes and the network -/

/-- All nodes, the messages in flight, and what the callers know: who holds the
reservation on each node and in which mode, which acquires have not been released
(`opened`), and the bytes that the last writing holder left. -/
structure World (n : Nat) (ι : Type) where
  impl : Fin n → Impl n ι
  net : List (Fin n × LockMsg n)
  holders : Fin n → Multiset (BitVec 32 × ι)
  opened : Fin n → Multiset (BitVec 32 × ι)
  left : List UInt8

/-- A call on node `p`, a write of a holder to the protected data, or the arrival of
message `k` of the network. -/
inductive LockEvent (n : Nat) (ι : Type)
  | acquire (p : Fin n) (newMode : BitVec 32) (exclusive : Bool) (afterLock : ι)
  | release (p : Fin n) (holder : BitVec 32 × ι)
  | write (p : Fin n) (data : List UInt8)
  | deliver (k : Nat)

namespace World

/-- The new state of node `p`, its messages, and its new holders. -/
def commit (w : World n ι) (p : Fin n) (e : Effect n ι) : World n ι :=
  { w with
    impl := Function.update w.impl p e.impl
    net := w.net ++ e.sends
    holders := Function.update w.holders p
      (w.holders p + QueueMap.tagged e.impl.mode e.woken) }

/-- The handler of a message. -/
def handle (home p : Fin n) (msg : LockMsg n) (s : Impl n ι) : Except Fault (Effect n ι) :=
  match msg with
  | .request args => handleLockRequest home p args s
  | .grant args => handleLockGrant p args s
  | .release _ => .error .lockRelease

variable [DecidableEq ι]

/-- `p`'s acquire is on record. -/
def noteAcquire (w : World n ι) (p : Fin n) (mode : BitVec 32) (afterLock : ι) : World n ι :=
  { w with opened := Function.update w.opened p ((mode, afterLock) ::ₘ w.opened p) }

/-- `p`'s holder is no longer one. -/
def noteRelease (w : World n ι) (p : Fin n) (holder : BitVec 32 × ι) : World n ι :=
  { w with
    holders := Function.update w.holders p ((w.holders p).erase holder)
    opened := Function.update w.opened p ((w.opened p).erase holder) }

/-- Only holders release and write, and a write keeps the size. -/
def Enabled (w : World n ι) : LockEvent n ι → Prop
  | .acquire _ _ _ _ => True
  | .release p holder => holder ∈ w.holders p
  | .write p data => w.holders p ≠ 0 ∧ data.length = (w.impl p).localDataSize
  | .deliver k => k < w.net.length

/-- One event. -/
def next (home : Fin n) (w : World n ι) : LockEvent n ι → Except Fault (World n ι)
  | .acquire p newMode exclusive afterLock =>
    match acquire home p newMode exclusive afterLock (w.impl p) with
    | .error e => .error e
    | .ok eff =>
      .ok ((w.noteAcquire p (if exclusive then modeExcl else newMode) afterLock).commit p eff)
  | .release p holder =>
    match Reservation.release p (w.impl p) with
    | .error e => .error e
    | .ok eff => .ok ((w.noteRelease p holder).commit p eff)
  | .write p data =>
    .ok { w with
          impl := Function.update w.impl p { w.impl p with localData := data }
          left := data }
  | .deliver k =>
    match w.net[k]? with
    | none => .ok w
    | some (p, msg) =>
      match handle home p msg (w.impl p) with
      | .error e => .error e
      | .ok eff => .ok ({ w with net := w.net.eraseIdx k }.commit p eff)

/-- `init` on every node with the home node as owner, and `in_use` set on the home node. The
data of the other nodes is whatever is there. -/
structure Initial (home : Fin n) (size : Nat) (w : World n ι) : Prop where
  impl : ∀ p, ∃ data inUse, data.length = size ∧ (p = home → inUse = true) ∧
    w.impl p = { owner := home, count := zeroCount, mode := 0, inUse := inUse,
                 remoteWaiterMask := ∅, remoteSharerMask := ∅, localWaiters := [],
                 requested := false, localData := data, localDataSize := size }
  net : w.net = []
  holders : ∀ p, w.holders p = 0
  opened : ∀ p, w.opened p = 0
  left : w.left = (w.impl home).localData

end World

/-- The runs of a reservation with `size` bytes of data. -/
def system [DecidableEq ι] (home : Fin n) (size : Nat) :
    Transition (World n ι) (LockEvent n ι) where
  init := World.Initial home size
  step w e w' := w.Enabled e ∧ w.next home e = .ok w'

end CharmRuntime.Legion.Reservation
