import CharmRuntime.Lib.MemVal

/-!
# Converse.Block

Blocks of memory that hold a message: `int` fields at fixed offsets and bytes that are copied
around them. Whatever leaves a block, or the range of an `int`, ends the program
(`BlockAbort`).
-/

namespace CharmRuntime.Converse

open Lib

/-- What ends the program when a block is used. -/
inductive BlockAbort
  /-- `CmiAlloc` with a length that is no `int`. -/
  | badAlloc
  /-- A read or write outside of a block. -/
  | overrun
  /-- `memcpy` of ranges that overlap. -/
  | overlap
  /-- An `int` was read from bytes that do not hold one. -/
  | unset
  /-- An `int` overflows. -/
  | overflow
  /-- `CmiAbort("CmiFree reference count was zero-- is this a duplicate free?")`. -/
  | duplicateFree
  /-- A use of a block that was released. -/
  | useAfterFree
  deriving Repr, DecidableEq

/-- The largest `int`. -/
def maxInt : Nat := 2147483647

/-- The offset of the first `int` after a message header of `hdr` bytes: it is aligned to four
bytes. -/
def fieldOff (hdr : Nat) : Nat := (hdr + 3) / 4 * 4

/-- An `int` field of a block. -/
def readInt (buf : List MemVal) (off : Nat) : Except BlockAbort Int :=
  match MemVal.slice buf off 4 with
  | none => .error .overrun
  | some bs =>
    match MemVal.decodeInt 4 bs with
    | none => .error .unset
    | some v => .ok v

/-- Bytes copied into a block. -/
def writeBytes (buf : List MemVal) (off : Nat) (bs : List MemVal) :
    Except BlockAbort (List MemVal) :=
  match MemVal.writeAt buf off bs with
  | none => .error .overrun
  | some buf => .ok buf

def writeInt (buf : List MemVal) (off : Nat) (v : Int) : Except BlockAbort (List MemVal) :=
  writeBytes buf off (MemVal.encodeInt 4 v)

/-- `memcpy` inside of a block. -/
def memcpyWithin (buf : List MemVal) (dst src n : Nat) : Except BlockAbort (List MemVal) :=
  match MemVal.slice buf src n with
  | none => .error .overrun
  | some bs => if dst + n ≤ src ∨ src + n ≤ dst then writeBytes buf dst bs else .error .overlap

/-! ### Reading and writing in the middle of a block -/

variable {pre : List MemVal} {off n : Nat}

theorem readInt_append (h : pre.length = off) (v : Int) (rest : List MemVal) :
    readInt (pre ++ MemVal.encodeInt 4 v ++ rest) off = .ok v := by
  have hslice := MemVal.slice_append pre (MemVal.encodeInt 4 v) rest
  rw [MemVal.length_encodeInt, h] at hslice
  unfold readInt
  rw [hslice]
  dsimp only
  rw [MemVal.decodeInt_encodeInt (by decide)]

theorem writeBytes_append {old bs : List MemVal} (h : pre.length = off)
    (hold : old.length = bs.length) (rest : List MemVal) :
    writeBytes (pre ++ old ++ rest) off bs = .ok (pre ++ bs ++ rest) := by
  unfold writeBytes
  rw [← h, MemVal.writeAt_append pre old rest bs hold]

theorem writeInt_append {old : List MemVal} (h : pre.length = off)
    (hold : old.length = 4) (v : Int) (rest : List MemVal) :
    writeInt (pre ++ old ++ rest) off v = .ok (pre ++ MemVal.encodeInt 4 v ++ rest) :=
  writeBytes_append h (by rw [hold, MemVal.length_encodeInt]) rest

theorem slice_front (h : pre.length = n) (rest : List MemVal) :
    MemVal.slice (pre ++ rest) 0 n = some pre := by
  have hslice := MemVal.slice_append [] pre rest
  rwa [h] at hslice

theorem readInt_right {rest : List MemVal} (h : pre.length = n) (off : Nat) :
    readInt (pre ++ rest) (n + off) = readInt rest off := by
  unfold readInt
  rw [← h, MemVal.slice_right]

theorem writeInt_right {rest rest' : List MemVal} {v : Int} (h : pre.length = n)
    (hw : writeInt rest off v = .ok rest') :
    writeInt (pre ++ rest) (n + off) v = .ok (pre ++ rest') := by
  unfold writeInt writeBytes at hw ⊢
  rw [← h, MemVal.writeAt_right]
  cases hat : MemVal.writeAt rest off (MemVal.encodeInt 4 v) with
  | none =>
    rw [hat] at hw
    exact absurd hw (by simp)
  | some buf =>
    rw [hat] at hw
    obtain rfl := Except.ok.inj hw
    rfl

end CharmRuntime.Converse
