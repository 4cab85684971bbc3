import Mathlib.Data.Nat.Bitwise

/-!
# Lib.ByteOrder

**Integers of several bytes**, big- or little-endian, signed (two's complement) or unsigned.

A number is stored by the bytes of its pattern, and read back from them if it fits
(`decode_encode`). `ofBytes_append` is the rule for putting a pattern together byte by byte.
-/

namespace CharmRuntime.Lib

inductive ByteOrder
  | big
  | little
  deriving DecidableEq, Repr

namespace ByteOrder

/-- The `n` lowest bytes of a number, the lowest first. -/
def toBytes : Nat → Nat → List UInt8
  | 0, _ => []
  | n + 1, p => UInt8.ofNat (p % 256) :: toBytes n (p / 256)

/-- The number with these bytes, the lowest first. -/
def ofBytes : List UInt8 → Nat
  | [] => 0
  | b :: bs => b.toNat + 256 * ofBytes bs

/-- Bytes that stand lowest first, in the order of memory, and back. -/
def arrange (o : ByteOrder) (bs : List UInt8) : List UInt8 :=
  match o with
  | big => bs.reverse
  | little => bs

/-- The number with this pattern of `n` bytes. -/
def valueOf (signed : Bool) (n p : Nat) :
    Int := if signed ∧ 2 ^ (8 * n) ≤ 2 * p then (p : Int) - 2 ^ (8 * n) else p

/-- The numbers of `n` bytes. -/
def Fits (signed : Bool) (n : Nat) (v : Int) : Prop :=
  if signed then -2 ^ (8 * n) ≤ 2 * v ∧ 2 * v < 2 ^ (8 * n) else 0 ≤ v ∧ v < 2 ^ (8 * n)

instance (signed : Bool) (n : Nat) (v : Int) : Decidable (Fits signed n v) := by
  unfold Fits
  infer_instance

/-- The pattern of a number. -/
def patternOf (n : Nat) (v : Int) : Nat := (v % 2 ^ (8 * n)).toNat

/-- A number as it is stored in `n` bytes. -/
def encode (o : ByteOrder) (n : Nat) (v : Int) : List UInt8 := o.arrange (toBytes n (patternOf n v))

/-- The number that is stored in some bytes. -/
def decode (o : ByteOrder) (signed : Bool) (bs : List UInt8) :
    Int := valueOf signed bs.length (ofBytes (o.arrange bs))

/-! ### Bytes -/

variable (o : ByteOrder) (bs : List UInt8) {n : Nat} {v : Int} {signed : Bool}

@[simp] theorem length_toBytes (n p : Nat) : (toBytes n p).length = n := by
  induction n generalizing p with
  | zero => rfl
  | succ n ih => rw [toBytes, List.length_cons, ih]

@[simp] theorem length_arrange : (o.arrange bs).length = bs.length := by
  cases o with
  | big => exact List.length_reverse
  | little => rfl

@[simp] theorem length_encode (n : Nat) (v : Int) : (o.encode n v).length = n := by
  rw [encode, length_arrange, length_toBytes]

@[simp] theorem arrange_arrange : o.arrange (o.arrange bs) = bs := by
  cases o with
  | big => exact List.reverse_reverse bs
  | little => rfl

theorem two_pow_eight_mul_succ (n : Nat) : 2 ^ (8 * (n + 1)) = 256 * 2 ^ (8 * n) := by
  rw [Nat.mul_succ, Nat.pow_add, mul_comm]

theorem ofBytes_lt : ofBytes bs < 2 ^ (8 * bs.length) := by
  induction bs with
  | nil => exact Nat.one_pos
  | cons b bs ih =>
    have hb := b.toNat_lt
    rw [ofBytes, List.length_cons, two_pow_eight_mul_succ]
    omega

/-- **The pattern is read back.** -/
theorem ofBytes_toBytes {p : Nat} (h : p < 2 ^ (8 * n)) : ofBytes (toBytes n p) = p := by
  induction n generalizing p with
  | zero => exact (Nat.lt_one_iff.mp h).symm
  | succ n ih =>
    rw [two_pow_eight_mul_succ] at h
    have hrest := ih (Nat.div_lt_of_lt_mul h)
    have hbyte : (UInt8.ofNat (p % 256)).toNat = p % 256 :=
      UInt8.toNat_ofNat_of_lt' (Nat.mod_lt p (by decide))
    rw [toBytes, ofBytes, hrest, hbyte, Nat.mod_add_div]

/-- One more byte on top. -/
theorem ofBytes_append (b : UInt8) :
    ofBytes (bs ++ [b]) = ofBytes bs + b.toNat * 2 ^ (8 * bs.length) := by
  induction bs with
  | nil => simp [ofBytes]
  | cons c bs ih =>
    rw [List.cons_append, ofBytes, ih, ofBytes, List.length_cons, two_pow_eight_mul_succ,
      mul_add, ← add_assoc, mul_left_comm]

/-! ### Numbers -/

theorem patternOf_lt (n : Nat) (v : Int) : patternOf n v < 2 ^ (8 * n) := by
  have hpos : (0 : Int) < 2 ^ (8 * n) := Int.pow_pos (by decide)
  have hlt := Int.emod_lt_of_pos v hpos
  exact (Int.toNat_lt (Int.emod_nonneg v (Int.ne_of_gt hpos))).mpr (by exact_mod_cast hlt)

/-- The pattern of a number that is not negative. -/
theorem patternOf_of_nonneg (h0 : 0 ≤ v) (h : v < 2 ^ (8 * n)) : (patternOf n v : Int) = v := by
  rw [patternOf, Int.emod_eq_of_lt h0 h, Int.toNat_of_nonneg h0]

/-- The pattern of a negative number. -/
theorem patternOf_of_neg (h0 : v < 0) (h : -2 ^ (8 * n) ≤ v) :
    (patternOf n v : Int) = v + 2 ^ (8 * n) := by
  have hmod : v % 2 ^ (8 * n) = v + 2 ^ (8 * n) := by
    rw [← Int.add_emod_right]
    exact Int.emod_eq_of_lt (by omega) (by omega)
  rw [patternOf, hmod, Int.toNat_of_nonneg (by omega)]

/-- The pattern gives the number back. -/
theorem valueOf_patternOf (h : Fits signed n v) : valueOf signed n (patternOf n v) = v := by
  unfold valueOf
  cases signed with
  | false =>
    exact patternOf_of_nonneg h.1 h.2
  | true =>
    have hlow : -2 ^ (8 * n) ≤ 2 * v := h.1
    have hhigh : 2 * v < 2 ^ (8 * n) := h.2
    by_cases h0 : 0 ≤ v
    · have hp := patternOf_of_nonneg (n := n) h0 (by omega)
      rw [if_neg, hp]
      rintro ⟨-, hle⟩
      have hle' : (2 : Int) ^ (8 * n) ≤ 2 * (patternOf n v) := by exact_mod_cast hle
      omega
    · have hp := patternOf_of_neg (n := n) (Int.not_le.mp h0) (by omega)
      rw [if_pos]
      · omega
      · refine ⟨rfl, ?_⟩
        have hle' : (2 : Int) ^ (8 * n) ≤ 2 * (patternOf n v) := by omega
        exact_mod_cast hle'

/-- What is stored in the bytes of a pattern. -/
theorem decode_arrange (signed : Bool) {p : Nat} (h : p < 2 ^ (8 * n)) :
    o.decode signed (o.arrange (toBytes n p)) = valueOf signed n p := by
  rw [decode, length_arrange, length_toBytes, arrange_arrange, ofBytes_toBytes h]

/-- **A number that fits is read back.** -/
theorem decode_encode (h : Fits signed n v) : o.decode signed (o.encode n v) = v := by
  rw [encode, decode_arrange o signed (patternOf_lt n v), valueOf_patternOf h]

/-- Reversed bytes are those of the other order. -/
theorem encode_reverse {o o' : ByteOrder} (h : o ≠ o') (n : Nat) (v : Int) :
    (o.encode n v).reverse = o'.encode n v := by
  cases o with
  | big =>
    cases o' with
    | big => exact absurd rfl h
    | little => exact List.reverse_reverse _
  | little =>
    cases o' with
    | big => rfl
    | little => exact absurd rfl h

end ByteOrder

end CharmRuntime.Lib
