import Mathlib.Tactic.Ring
import Mathlib.Data.List.Basic

/-!
# Lib.MemVal

Byte-addressed buffers holding **symbolic bytes**.

C code in the runtime overlays structures on raw buffers: an `int` or a pointer
is stored into some bytes and read back through another pointer, next to user
bytes that are only ever copied. A buffer is modelled as a list of `MemVal`s. A
stored integer of `n` bytes becomes `n` *fragments* of that integer, so its
value is never truncated and reading it back needs no arithmetic; bytes nobody
wrote stay `blank`.
-/

namespace CharmRuntime.Lib

open List

/-- One byte of memory: never written, a plain byte, or the `k`-th byte of a
stored integer `v`. -/
inductive MemVal
  | blank
  | byte (b : UInt8)
  | frag (v : Int) (k : Nat)
  deriving DecidableEq, Repr

namespace MemVal

/-- The `n` bytes of an integer field holding `v`. -/
def encodeInt (n : Nat) (v : Int) : List MemVal := (List.range n).map (frag v)

/-- The little-endian value of plain bytes; `none` as soon as one is not plain. -/
def plainValue : List MemVal → Option Nat
  | [] => some 0
  | byte b :: rest => (plainValue rest).map (fun hi => b.toNat + 256 * hi)
  | _ :: _ => none

/-- Two's-complement reading of an `n`-byte unsigned value. -/
def signed (n : Nat) (v : Nat) : Int :=
  if v < 2 ^ (8 * n - 1) then (v : Int) else (v : Int) - 2 ^ (8 * n)

/-- Read an `n`-byte integer: either all its fragments are there in order, or
the bytes are plain and are read as a little-endian two's-complement number.
`none` stands for reading bytes that do not hold an integer. -/
def decodeInt (n : Nat) (bs : List MemVal) : Option Int :=
  match bs with
  | frag v 0 :: _ => if bs = encodeInt n v then some v else none
  | _ => if bs.length = n then (plainValue bs).map (signed n) else none

@[simp] theorem length_encodeInt (n : Nat) (v : Int) : (encodeInt n v).length = n := by
  simp [encodeInt]

/-- An integer field reads back what was stored in it. -/
@[simp] theorem decodeInt_encodeInt {n : Nat} (hn : 0 < n) (v : Int) :
    decodeInt n (encodeInt n v) = some v := by
  obtain ⟨k, rfl⟩ : ∃ k, n = k + 1 := ⟨n - 1, by omega⟩
  have hcons : encodeInt (k + 1) v = frag v 0 :: (range k).map (frag v ∘ Nat.succ) := by
    simp [encodeInt, range_succ_eq_map]
  rw [hcons]
  simp only [decodeInt]
  rw [if_pos hcons.symm]

/-- The bytes `[off, off + n)` of a buffer, when it has them. -/
def slice (buf : List MemVal) (off n : Nat) : Option (List MemVal) :=
  if off + n ≤ buf.length then some ((buf.drop off).take n) else none

/-- Overwrite the bytes from `off` on with `bs`, when they fit. -/
def writeAt (buf : List MemVal) (off : Nat) (bs : List MemVal) : Option (List MemVal) :=
  if off + bs.length ≤ buf.length then
    some (buf.take off ++ bs ++ buf.drop (off + bs.length))
  else none

/-- Writing at the start of the unwritten rest of a buffer. -/
theorem writeAt_append (pre old rest bs : List MemVal) (h : old.length = bs.length) :
    writeAt (pre ++ old ++ rest) pre.length bs = some (pre ++ bs ++ rest) := by
  unfold writeAt
  simp [← h]

/-- Reading the middle of a buffer. -/
theorem slice_append (pre mid rest : List MemVal) :
    slice (pre ++ mid ++ rest) pre.length mid.length = some mid := by
  unfold slice
  simp

/-- Reading behind the first part of a buffer. -/
theorem slice_right (pre rest : List MemVal) (off n : Nat) :
    slice (pre ++ rest) (pre.length + off) n = slice rest off n := by
  have hdrop : (pre ++ rest).drop (pre.length + off) = rest.drop off := by
    rw [← drop_drop, drop_left]
  unfold slice
  rw [hdrop, length_append]
  by_cases h : off + n ≤ rest.length
  · rw [if_pos h, if_pos (by omega)]
  · rw [if_neg h, if_neg (by omega)]

/-- Writing behind the first part of a buffer. -/
theorem writeAt_right (pre rest bs : List MemVal) (off : Nat) :
    writeAt (pre ++ rest) (pre.length + off) bs = (writeAt rest off bs).map (pre ++ ·) := by
  have hdrop : (pre ++ rest).drop (pre.length + off + bs.length) = rest.drop (off + bs.length) := by
    rw [Nat.add_assoc, ← drop_drop, drop_left]
  have htake : (pre ++ rest).take (pre.length + off) = pre ++ rest.take off :=
    take_length_add_append off
  unfold writeAt
  rw [hdrop, htake, length_append]
  by_cases h : off + bs.length ≤ rest.length
  · rw [if_pos h, if_pos (by omega), append_assoc, append_assoc, append_assoc]
    rfl
  · rw [if_neg h, if_neg (by omega)]
    rfl

end MemVal

end CharmRuntime.Lib
