import CharmRuntime.Zht.Novoht
import CharmRuntime.Zht.Zpack

/-!
# Zht.HtWorker

The **ZHT server and its client**: `HTWorker::run` and the calls of `ZHTClient`.

A call is sent as the text of a `ZPack`. The reply is a status of three characters and, after it,
the record of the key. `insert` stores the text of the whole request as the record; `append` hands
the request to the table in the encoding of protobuf (`serialize`). A request and a reply are read
from a `char` buffer, so that they end at the first NUL; otherwise they arrive as they were sent.

For an empty value the client sets `valnull` and sends a word in its place. `compareSwap` looks at
the words only, and sets the new one in the record without the flag.
-/

namespace CharmRuntime.Zht

open Lib
open CharmRuntime.Matrix (Text numToStr strToNum)

/-! ### Constants -/

namespace Const

def zscOpcLookup : Text := "001".toList
def zscOpcRemove : Text := "002".toList
def zscOpcInsert : Text := "003".toList
def zscOpcAppend : Text := "004".toList
def zscOpcCmpswp : Text := "005".toList
def zscOpcStchgcb : Text := "006".toList
def zscRecEmptykey : Text := "-01".toList
def zscRecSrvexp : Text := "-04".toList
def zscRecNonexistkey : Text := "-92".toList
def zscRecUopc : Text := "-98".toList
def zscRecSucc : Text := "000".toList
def zsiRecCltfail : Int := -2

/-- `atoi` of what a status prints as. -/
def toInt (ele : Text) : Int := strToNum 32 ele

end Const

open CharmRuntime.Zht.Const

/-! ### Protobuf -/

/-- Groups of 7 bits from the lowest on, with the high bit set in all but the last. -/
def varint (n : Nat) : Text :=
  if n < 128 then [Char.ofNat n] else Char.ofNat (n % 128 + 128) :: varint (n / 128)

/-- A field of type `bytes`. -/
def bytesField (tag : Nat) (o : Option Text) : Text :=
  match o with
  | none => []
  | some t => Char.ofNat tag :: (varint t.length ++ t)

/-- A field of type `bool` or `int32`, which is extended to 64 bits. -/
def numField (tag : Nat) (o : Option Int) : Text :=
  match o with
  | none => []
  | some n => Char.ofNat tag :: varint (n % 2 ^ 64).toNat

/-- `SerializeAsString`. -/
def Zpack.serialize (z : Zpack) : Text :=
  bytesField 10 z.opcode ++ bytesField 18 z.key ++ bytesField 26 z.val ++ bytesField 34 z.newval ++
    bytesField 42 z.lease ++ numField 48 (z.valnull.map fun b => if b then 1 else 0) ++
    numField 56 (z.newvalnull.map fun b => if b then 1 else 0) ++ numField 64 z.replicanum

/-! ### The server -/

structure HtWorker where
  pmap : Novoht
  instantSwap : Bool

namespace HtWorker

/-- After a change of the table. -/
def answer (w : HtWorker) (change : Int × Novoht) : Text × HtWorker :=
  if change.1 ≠ 0 then (zscRecNonexistkey, { w with pmap := change.2 })
  else (zscRecSucc, { w with pmap := if w.instantSwap then change.2.writeFileFG.2 else change.2 })

def insertShared (w : HtWorker) (z : Zpack) : Text × HtWorker :=
  let key := z.key.getD []
  if key = [] then (zscRecEmptykey, w) else w.answer (w.pmap.put key (zpackToStr z))

def lookupShared (w : HtWorker) (z : Zpack) : Text :=
  let key := z.key.getD []
  if key = [] then zscRecEmptykey
  else
    match w.pmap.get key with
    | none => zscRecNonexistkey ++ "Empty".toList
    | some val => zscRecSucc ++ val

def appendShared (w : HtWorker) (z : Zpack) : Text × HtWorker :=
  let key := z.key.getD []
  if key = [] then (zscRecEmptykey, w) else w.answer (w.pmap.append key z.serialize)

def removeShared (w : HtWorker) (z : Zpack) : Text × HtWorker :=
  let key := z.key.getD []
  if key = [] then (zscRecEmptykey, w) else w.answer (w.pmap.remove key)

def eraseStatusCode (val : Text) : Text := val.drop 3

def compareSwapInternal (w : HtWorker) (z : Zpack) : Text × HtWorker :=
  let lzpack := strToZpack (eraseStatusCode (w.lookupShared z))
  if z.val.getD [] = lzpack.val.getD [] then w.insertShared
    { lzpack with val := some (z.newval.getD []) }
  else (zscRecSrvexp, w)

def compareSwap (w : HtWorker) (z : Zpack) : Text × HtWorker :=
  if z.key.getD [] = [] then (zscRecEmptykey, w)
  else
    let (result, w) := w.compareSwapInternal z
    (result ++ eraseStatusCode (w.lookupShared z), w)

/-- The reply to a state change callback is sent later, by a thread that is left out. -/
def run (w : HtWorker) (buf : Text) : Text × HtWorker :=
  let zpack := strToZpack (cstr buf)
  let opcode := zpack.opcode.getD []
  if opcode = zscOpcLookup then (w.lookupShared zpack, w)
  else if opcode = zscOpcInsert then w.insertShared zpack
  else if opcode = zscOpcAppend then w.appendShared zpack
  else if opcode = zscOpcCmpswp then w.compareSwap zpack
  else if opcode = zscOpcRemove then w.removeShared zpack
  else if opcode = zscOpcStchgcb then ([], w)
  else (zscRecUopc, w)

end HtWorker

/-! ### The client -/

namespace ZhtClient

/-- What a call sends. -/
def request (opcode key val val2 : Text) (lease : Int) : Zpack where
  opcode := some opcode
  key := some key
  val := some (if val = [] then ['^'] else val)
  newval := some (if val2 = [] then ['?'] else val2)
  lease := some (numToStr lease)
  valnull := some (val = [])
  newvalnull := some (val2 = [])
  replicanum := some 3

local instance lawfulText : LawfulBEq Text := inferInstance

/-- The status, and what is left in `result`. -/
def commonOpInternal (w : HtWorker) (opcode key val val2 result : Text) (lease : Int) :
    (Text × Text) × HtWorker :=
  if key = [] then ((zscRecEmptykey, result), w)
  else
    let (reply, w) := w.run (zpackToStr (request opcode key val val2 lease))
    let srecv := cstr reply
    if srecv = [] then ((zscRecSrvexp, result), w) else ((srecv.take 3, srecv.drop 3), w)

def commonOp (w : HtWorker) (opcode key val val2 result : Text) (lease : Int) :
    (Int × Text) × HtWorker :=
  if opcode ∈ [zscOpcLookup, zscOpcRemove, zscOpcInsert, zscOpcAppend, zscOpcCmpswp,
    zscOpcStchgcb] then
    let ((sstatus, result), w) := commonOpInternal w opcode key val val2 result lease
    ((if sstatus = [] then zsiRecCltfail else toInt sstatus, result), w)
  else ((toInt zscRecUopc, result), w)

def extractValue (returnStr : Text) : Text :=
  let zpack := strToZpack returnStr
  if zpack.valnull.getD false then [] else zpack.val.getD []

/-- The status and the value; `result` was empty. -/
def lookup (w : HtWorker) (key : Text) : (Int × Text) × HtWorker :=
  let ((rc, result), w) := commonOp w zscOpcLookup key [] [] [] 1
  ((rc, extractValue result), w)

def remove (w : HtWorker) (key : Text) : Int × HtWorker :=
  let ((rc, _), w) := commonOp w zscOpcRemove key [] [] [] 1
  (rc, w)

def insert (w : HtWorker) (key val : Text) : Int × HtWorker :=
  let ((rc, _), w) := commonOp w zscOpcInsert key val [] [] 1
  (rc, w)

def append (w : HtWorker) (key val : Text) : Int × HtWorker :=
  let ((rc, _), w) := commonOp w zscOpcAppend key val [] [] 1
  (rc, w)

def compareSwap (w : HtWorker) (key seenVal newVal : Text) : (Int × Text) × HtWorker :=
  let ((rc, result), w) := commonOp w zscOpcCmpswp key seenVal newVal [] 1
  ((rc, extractValue result), w)

end ZhtClient

end CharmRuntime.Zht
