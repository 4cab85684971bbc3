import Mathlib.Tactic.Ring

/-!
# Lib.BitString

Bit strings of any length as functions of the bit number, bit `0` the least
significant one. The bits beyond the length are `false`, which is part of the
structure, so that two strings are equal when they have the same length and the same
bits below it.
-/

namespace CharmRuntime.Lib

/-- A string of `len` bits. -/
structure BitString where
  len : Nat
  bit : Nat → Bool
  out : ∀ i, len ≤ i → bit i = false

namespace BitString

theorem eq_of_bits {s t : BitString} (hlen : s.len = t.len) (h : ∀ i < s.len, s.bit i = t.bit i) :
    s = t := by
  have hbit : s.bit = t.bit := by
    funext i
    by_cases hi : i < s.len
    · exact h i hi
    · rw [s.out i (Nat.le_of_not_lt hi), t.out i (hlen ▸ Nat.le_of_not_lt hi)]
  cases s with
  | mk ls bs os =>
    cases t with
    | mk lt bt ot =>
      cases hlen
      cases hbit
      rfl

/-- A function of the bit number, cut off at `n`. -/
def below (n : Nat) (f : Nat → Bool) : BitString where
  len := n
  bit i := if i < n then f i else false
  out _ hi := if_neg (Nat.not_lt.mpr hi)

@[simp] theorem len_below (n : Nat) (f : Nat → Bool) : (below n f).len = n := rfl

@[simp] theorem bit_below (n : Nat) (f : Nat → Bool) (i : Nat) :
    (below n f).bit i = if i < n then f i else false := rfl

/-- `n` zero bits. -/
def zeros (n : Nat) : BitString := below n (fun _ => false)

/-- The lowest `n` bits of a number. -/
def ofNat (n value : Nat) : BitString := below n value.testBit

/-- Keep the bits below both lengths; new bits are `0`. -/
def resize (s : BitString) (n : Nat) : BitString := below n s.bit

/-- Bit `i` moves to `i + k`; the lowest bits become `0`. -/
def shiftUp (s : BitString) (k : Nat) : BitString :=
  below s.len (fun i => if k ≤ i then s.bit (i - k) else false)

/-- Bit `i` moves to `i - k`; the highest bits become `0`. -/
def shiftDown (s : BitString) (k : Nat) : BitString := below s.len (fun i => s.bit (i + k))

/-- `s` as the most significant bits, followed by `t`. -/
def concat (s t : BitString) : BitString :=
  below (s.len + t.len) (fun i => if i < t.len then t.bit i else s.bit (i - t.len))

/-- Write bit `i`, growing first if it is not there. -/
def write (s : BitString) (i : Nat) (x : Bool) : BitString :=
  below (max s.len (i + 1)) (fun j => if j = i then x else s.bit j)

/-- All bits inverted. -/
def invert (s : BitString) : BitString := below s.len (fun i => !s.bit i)

/-- Two strings bit by bit. -/
def combine (op : Bool → Bool → Bool) (s t : BitString) : BitString :=
  below s.len (fun i => op (s.bit i) (t.bit i))

end BitString

end CharmRuntime.Lib
