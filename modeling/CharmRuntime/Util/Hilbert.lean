import Mathlib.Data.Nat.Log
import Mathlib.Data.Nat.Size
import CharmRuntime.Lib.GrayCode

/-!
# Util.Hilbert

The functions of `hilbert.C`: **numbers along a Hilbert curve and points** in any dimension.

A number is cut into chunks of `dim` bits, one for each level. The Gray code of a chunk, rotated and
shifted so that it leads from the `start` to the `end` corner of its cube, says in which part of the
cube the curve is; that part has corners of its own. The chunks are numbers of places that the bits
of the coordinates have, one chunk for each place.

Numbers are without overflow, and `pow` and the quotients of logarithms that are rounded up are
exact.
-/

namespace CharmRuntime.Util.Hilbert

open Nat

def grayEncode (i : Nat) : Nat := i ^^^ (i / 2)

theorem size_xor_shift_lt {n sh : Nat} (h : ¬ n >>> sh ≤ 1) :
    (n ^^^ n >>> sh).size - sh * 2 < n.size - sh := by
  rw [shiftRight_eq_div_pow] at *
  obtain rfl | hpos := Nat.eq_zero_or_pos sh
  · rw [Nat.div_one] at *
    have hsize : 0 < n.size := size_pos.mpr (by omega)
    rw [Nat.xor_self, size_zero]
    omega
  · have hle : n / 2 ^ sh ≤ n := div_le_self n _
    have hsize : (n ^^^ n / 2 ^ sh).size ≤ n.size :=
      size_le.mpr (xor_lt_two_pow (lt_size_self n) (lt_of_le_of_lt hle (lt_size_self n)))
    have hlt : sh < n.size := by
      refine lt_size.mpr ?_
      by_contra hnot
      rw [div_eq_of_lt (Nat.lt_of_not_le hnot)] at h
      exact h (zero_le 1)
    omega

/-- The loop of `gray_decode`. -/
def grayDecodeLoop (n sh : Nat) : Nat :=
  let div := n >>> sh
  if div ≤ 1 then n ^^^ div else grayDecodeLoop (n ^^^ div) (sh * 2)
termination_by n.size - sh
decreasing_by exact size_xor_shift_lt ‹_›

def grayDecode (n : Nat) : Nat := grayDecodeLoop n 1

/-- `initial_start_end`; the remainder may be negative. -/
def initialStartEnd (nChunks dim : Nat) : Nat × Nat :=
  let mod_val := (-(nChunks : Int) - 1).tmod dim
  (0, 2 ^ (if mod_val < 0 then mod_val + dim else mod_val).toNat)

def packIndex (chunks : List Nat) (dim : Nat) :
    Nat := chunks.foldl (fun val chunk => val * 2 ^ dim + chunk) 0

/-- `transpose_bits`: the last bits of all sources are the last number. -/
def transposeBits (srcs : List Nat) : Nat → List Nat
  | 0 => []
  | nDests + 1 =>
    transposeBits (srcs.map (· / 2)) nDests ++ [srcs.foldl (fun dest src => dest * 2 + src % 2) 0]

def packCoords (coord_chunks : List Nat) (dim : Nat) : List Nat := transposeBits coord_chunks dim

def unpackCoords (coords : List Nat) : List Nat :=
  let biggest := coords.foldl (fun biggest coord => if biggest < coord then coord else biggest) 0
  let nChunks := max 1 (Nat.clog 2 (biggest + 1))
  transposeBits coords nChunks

/-- The loop of `unpack_index`, the last chunk first. -/
def chunksOf (p : Nat) : Nat → Nat → List Nat
  | 0, _ => []
  | nChunks + 1, i => chunksOf p nChunks (i / p) ++ [i % p]

def unpackIndex (i dim : Nat) : List Nat :=
  let p := 2 ^ dim
  let nChunks := max 1 (Nat.clog p (i + 1))
  chunksOf p nChunks i

def grayEncodeTravel (start last mask i : Nat) : Nat :=
  let travel_bit := start ^^^ last
  let modulus := mask + 1
  let g := grayEncode i * (travel_bit * 2)
  ((g ||| g / modulus) &&& mask) ^^^ start

def grayDecodeTravel (start last mask i : Nat) : Nat :=
  let travel_bit := start ^^^ last
  let modulus := mask + 1
  let rg := (i ^^^ start) * (modulus / (travel_bit * 2))
  grayDecode ((rg ||| rg / modulus) &&& mask)

/-- `child_start_end`, with `(i-1)&~1`, that is the even number, for an `int`. -/
def childStartEnd (parent_start parent_end mask i : Nat) : Nat × Nat :=
  let start_i := (max 0 ((i : Int) - 1 - ((i : Int) - 1) % 2)).toNat
  let end_i := min mask ((i + 1) ||| 1)
  (grayEncodeTravel parent_start parent_end mask start_i,
  grayEncodeTravel parent_start parent_end mask end_i)

/-- The loop of `int_to_Hilbert`. -/
def encodeChunks (mask : Nat) : Nat × Nat → List Nat → List Nat
  | _, [] => []
  | (start, last), i :: index_chunks =>
    grayEncodeTravel start last mask i :: encodeChunks mask (childStartEnd start last mask i)
      index_chunks

def intToHilbert (i dim : Nat) : List Nat :=
  let index_chunks := unpackIndex i dim
  let mask := 2 ^ dim - 1
  packCoords (encodeChunks mask (initialStartEnd index_chunks.length dim) index_chunks) dim

/-- The loop of `Hilbert_to_int`. -/
def decodeChunks (mask : Nat) : Nat × Nat → List Nat → List Nat
  | _, [] => []
  | (start, last), coord_chunk :: coord_chunks =>
    let i := grayDecodeTravel start last mask coord_chunk
    i :: decodeChunks mask (childStartEnd start last mask i) coord_chunks

def hilbertToInt (coords : List Nat) (dim : Nat) : Nat :=
  let coord_chunks := unpackCoords coords
  let mask := 2 ^ dim - 1
  packIndex (decodeChunks mask (initialStartEnd coord_chunks.length dim) coord_chunks) dim

end CharmRuntime.Util.Hilbert
