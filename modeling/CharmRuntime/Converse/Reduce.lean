import Mathlib.Tactic.Ring
import Mathlib.Data.List.Basic

/-!
# Converse.Reduce

Converse tree reductions: the table of reduction structures of one processor
(`_reduce_info`), the local calls (`CmiReduce`, `CmiReduceID`, `CmiListReduce`,
`CmiListReduceStruct`) and the handler of the children's messages
(`CmiHandleReductionMessage`).

A structure is made by whichever comes first, the local call or a child's message.
Until the local call its `numChildren` is the number of slots it was allocated
with; from then on it is the number of children to wait for. Both this field and
the argument of `CmiGetReductionCreate` are `short int`, so every number that goes
through them is reduced by `toShort`.

A message is a value of an arbitrary type `δ`; what the user's functions do with it
is a parameter (`ReduceOps`).
-/

namespace CharmRuntime.Converse

/-- A value stored in a `short int`. -/
def toShort (n : Int) : Int := Int.bmod n 65536

/-- What ends the program in this component. -/
inductive ReduceAbort
  /-- `CmiAbort("Too many simultaneous reductions")`. -/
  | tooMany
  /-- A failed `CmiAssert`. -/
  | assertion
  /-- `malloc` with a negative number of slots. -/
  | badAlloc
  /-- A write to `remoteData` at an index that is not below the slots allocated. -/
  | overrun
  /-- A merge that reads a slot nobody wrote. -/
  | unset
  /-- A message to a processor that does not exist. -/
  | noSuchPe
  deriving Repr, DecidableEq

/-- `ops`: what the user passed with the local call. The first argument of `mergeFn`
is `*size`, which it may change. -/
structure ReduceOps (δ : Type) where
  destination : Nat
  mergeFn : Int → δ → List δ → Int × δ
  pupFn : Option (δ → Int × δ)

/-- The fields that the local call fills in. -/
structure LocalPart (δ : Type) where
  localData : δ
  localSize : Int
  parent : Int
  ops : ReduceOps δ

/-- `CmiReduction`. `localContributed` holds the fields that are set together with the
source's flag; the length of `remoteData` is the number of slots allocated. -/
structure CmiReduction (δ : Type) where
  seqID : Nat
  numRemoteReceived : Int
  numChildren : Int
  localContributed : Option (LocalPart δ)
  remoteData : List (Option δ)

/-- `_reduce_info_size`: the logarithm of the size of the table. -/
def reduceInfoSize : Nat := 4

/-- `id & ~((~0u)<<_reduce_info_size)`. -/
def reduceIndex (id : Nat) : Nat := id % 2 ^ reduceInfoSize

/-- `CmiReductionID_multiplier`. -/
def reductionIDMultiplier : Nat := 3

/-- `_reduce_info` and `_reduce_seqID_global` of one processor. -/
structure ReduceTable (δ : Type) where
  info : Nat → Option (CmiReduction δ)
  seqIDGlobal : Nat

/-- A message that carries a partial result (`CmiGetRedID`, its size and its data). -/
structure ReduceMsg (δ : Type) where
  redID : Nat
  size : Int
  data : δ

/-- What `CmiSendReduce` does with a complete reduction. -/
inductive ReduceOut (δ : Type)
  /-- `CmiSyncSendAndFree` to the parent. -/
  | send (parent : Int) (msg : ReduceMsg δ)
  /-- A call of the destination handler. -/
  | deliver (destination : Nat) (redID : Nat) (data : δ)

variable {δ : Type}

namespace ReduceTable

/-- `_reduce_info[index] = red`. -/
def store (t : ReduceTable δ) (red : CmiReduction δ) : ReduceTable δ :=
  { t with info := Function.update t.info (reduceIndex red.seqID) (some red) }

/-- `CmiClearReduction`. -/
def clearReduction (t : ReduceTable δ) (id : Nat) : ReduceTable δ :=
  { t with info := Function.update t.info (reduceIndex id) none }

end ReduceTable

/-- The `malloc` of a structure with room for `numChildren` messages; `old` are the
slots that the `memcpy` brings along. -/
def mallocReduction (id : Nat) (numChildren : Int) (received : Int) (old : List (Option δ)) :
    Except ReduceAbort (CmiReduction δ) :=
  let n := if numChildren = 0 then 4 else numChildren
  if n < 0 then .error .badAlloc
  else .ok { seqID := id, numRemoteReceived := received, numChildren := n,
             localContributed := none,
             remoteData := old ++ List.replicate (n.toNat - old.length) none }

/-- `CmiGetReductionCreate`: the structure that the table entry holds afterwards. -/
def getReductionCreate (id : Nat) (numChildren : Int) (t : ReduceTable δ) :
    Except ReduceAbort (CmiReduction δ) :=
  match t.info (reduceIndex id) with
  | none => mallocReduction id numChildren 0 []
  | some red =>
    if red.seqID ≠ id then .error .tooMany
    else if red.numChildren < numChildren then
      if red.localContributed.isSome then .error .assertion
      -- the copy takes `red->numChildren` slots along
      else mallocReduction id numChildren red.numRemoteReceived
        (red.remoteData.take red.numChildren.toNat)
    else .ok red

/-- `CmiGetReduction`. -/
def getReduction (id : Nat) (t : ReduceTable δ) : Except ReduceAbort (CmiReduction δ) :=
  getReductionCreate id 0 t

/-- The first `n` slots of `remoteData`, as the merge function gets them. -/
def readRemote : Nat → List (Option δ) → Except ReduceAbort (List δ)
  | 0, _ => .ok []
  | _ + 1, [] => .error .unset
  | _ + 1, none :: _ => .error .unset
  | n + 1, some d :: rest => do
      let ds ← readRemote n rest
      return d :: ds

/-- `remoteData[numRemoteReceived++] = msg`. -/
def CmiReduction.pushRemote (red : CmiReduction δ) (data : δ) :
    Except ReduceAbort (CmiReduction δ) :=
  if 0 ≤ red.numRemoteReceived ∧ red.numRemoteReceived < red.remoteData.length then
    .ok { red with
          remoteData := red.remoteData.set red.numRemoteReceived.toNat (some data)
          numRemoteReceived := toShort (red.numRemoteReceived + 1) }
  else .error .overrun

/-- The merged size and data of a complete structure. -/
def LocalPart.merge (c : LocalPart δ) (remote : List δ) : Int × δ :=
  if remote = [] then (c.localSize, c.localData)
  else c.ops.mergeFn c.localSize c.localData remote

/-- `CmiSendReduce`: nothing while the local call or a child is missing; else merge, send
to the parent or call the destination, and clear the table entry. -/
def sendReduce (red : CmiReduction δ) (t : ReduceTable δ) :
    Except ReduceAbort (ReduceTable δ × Option (ReduceOut δ)) :=
  match red.localContributed with
  | none => .ok (t.store red, none)
  | some c =>
    if red.numChildren ≠ red.numRemoteReceived then .ok (t.store red, none)
    else do
      let remote ← readRemote red.numChildren.toNat red.remoteData
      let merged := c.merge remote
      let out :=
        if c.parent ≠ -1 then
          -- a structure is packed for the way; a message is sent as it is
          let packed := match c.ops.pupFn with
            | none => merged
            | some pup => pup merged.2
          ReduceOut.send c.parent { redID := red.seqID, size := packed.1, data := packed.2 }
        else ReduceOut.deliver c.ops.destination red.seqID merged.2
      return (t.clearReduction red.seqID, some out)

/-- The part that all local calls share: assert that this is the first one, fill in the
structure and try to send. -/
def contribute (red : CmiReduction δ) (numChildren : Int) (c : LocalPart δ) (t : ReduceTable δ) :
    Except ReduceAbort (ReduceTable δ × Option (ReduceOut δ)) :=
  if red.localContributed.isSome then .error .assertion
  else sendReduce { red with localContributed := some c, numChildren := numChildren } t

/-- The arguments of a local call that are not about the tree. -/
structure ReduceArgs (δ : Type) where
  data : δ
  size : Int
  ops : ReduceOps δ

/-- `CmiGlobalReduce`, over the machine tree: `span` children and parent `parent`. -/
def globalReduce (span : Nat) (parent : Int) (a : ReduceArgs δ) (red : CmiReduction δ)
    (t : ReduceTable δ) : Except ReduceAbort (ReduceTable δ × Option (ReduceOut δ)) :=
  contribute red (toShort span)
    { localData := a.data, localSize := a.size, parent := parent,
      ops := { a.ops with pupFn := none } } t

/-- `CmiReduceID`. -/
def reduceID (span : Nat) (parent : Int) (a : ReduceArgs δ) (id : Nat) (t : ReduceTable δ) :
    Except ReduceAbort (ReduceTable δ × Option (ReduceOut δ)) := do
  let red ← getReductionCreate id (toShort span) t
  globalReduce span parent a red t

/-- The next number of `_reduce_seqID_global` in `CmiGetNextReduction`. -/
def nextSeqID (id : Nat) : Nat :=
  if id > 0xFFF0 then 0 else (id + reductionIDMultiplier) % 65536

/-- `CmiReduce`. -/
def reduce (span : Nat) (parent : Int) (a : ReduceArgs δ) (t : ReduceTable δ) :
    Except ReduceAbort (ReduceTable δ × Option (ReduceOut δ)) :=
  reduceID span parent a t.seqIDGlobal { t with seqIDGlobal := nextSeqID t.seqIDGlobal }

/-! ### Reductions over a list of processors -/

/-- The loop that looks for the calling processor: `npes` if it is not in the list. -/
def listPos (pes : List Nat) (me : Nat) : Nat := pes.idxOf me

/-- `numChildren` of position `myPos`, clipped to `0 .. 4` after it was stored in the
`short int` field. -/
def listNumChildren (npes myPos : Nat) : Int :=
  let n := toShort ((npes : Int) - myPos * 4 - 1)
  let n := if n > 4 then 4 else n
  if n < 0 then 0 else n

/-- `parent` in `CmiListReduce`. -/
def listParent (pes : List Nat) (myPos : Nat) : Int :=
  if myPos = 0 then -1 else pes.getD ((myPos - 1) / 4) 0

/-- `parent` in `CmiListReduceStruct`. -/
def listStructParent (myPos : Nat) : Int :=
  let parent := ((myPos : Int) - 1) / 4
  if myPos = 0 then -1 else parent

/-- `CmiListReduce` on processor `me`; `span` is `CmiNumSpanTreeChildren(me)`. -/
def listReduce (span : Nat) (pes : List Nat) (me : Nat) (a : ReduceArgs δ) (id : Nat)
    (t : ReduceTable δ) : Except ReduceAbort (ReduceTable δ × Option (ReduceOut δ)) := do
  let red ← getReductionCreate id (toShort span) t
  let myPos := listPos pes me
  if ¬ myPos < pes.length then .error .assertion
  else
    contribute red (listNumChildren pes.length myPos)
      { localData := a.data, localSize := a.size, parent := listParent pes myPos,
        ops := { a.ops with pupFn := none } } t

/-- `CmiHandleReductionMessage`. -/
def handleReductionMessage (msg : ReduceMsg δ) (t : ReduceTable δ) :
    Except ReduceAbort (ReduceTable δ × Option (ReduceOut δ)) := do
  let red ← getReduction msg.redID t
  let red ←
    if red.numRemoteReceived = red.numChildren then
      getReductionCreate msg.redID (toShort (red.numChildren + 4)) (t.store red)
    else pure red
  let red ← red.pushRemote msg.data
  sendReduce red t

end CharmRuntime.Converse
