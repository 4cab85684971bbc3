import Mathlib.Algebra.Order.Group.Int
import Mathlib.Algebra.Order.Ring.Rat
import Mathlib.Data.BitVec

/-!
# Lib.CInt

**Arithmetic of an `int`** of 32 bits. A result that is not an `int` is an overflow, after
which nothing is defined, so that it is no value here (`checkedInt`). A conversion keeps the
low bits (`castInt`), and is not noticed for what is an `int`.

The results of **`float` arithmetic** are rounded: `FloatRounding` says what is known of that,
for any rounding mode.
-/

namespace CharmRuntime.Lib

/-- The values of an `int`. -/
def IsInt (x : Int) : Prop := -2 ^ 31 ≤ x ∧ x < 2 ^ 31

instance (x : Int) : Decidable (IsInt x) := inferInstanceAs (Decidable (_ ∧ _))

/-- What an operation on `int`s gives. -/
def checkedInt (x : Int) : Option Int := if IsInt x then some x else none

/-- The conversion of a wider number. -/
def castInt (x : Int) : Int := (BitVec.ofInt 32 x).toInt

variable {x y : Int}

theorem checkedInt_eq_some : checkedInt x = some y ↔ IsInt x ∧ x = y := by
  rw [checkedInt, Option.ite_none_right_eq_some, Option.some_inj]

theorem checkedInt_of_isInt (h : IsInt x) : checkedInt x = some x := if_pos h

theorem checkedInt_eq_none : checkedInt x = none ↔ ¬ IsInt x := by
  rw [checkedInt, ite_eq_right_iff]
  exact forall_congr' fun _ => iff_false_intro (Option.some_ne_none x)

/-- Between 0 and an `int` there are only `int`s. -/
theorem IsInt.of_le (h : IsInt y) (h0 : 0 ≤ x) (hle : x ≤ y) : IsInt x := by
  unfold IsInt at *
  omega

theorem castInt_of_isInt (h : IsInt x) : castInt x = x := by
  unfold IsInt at h
  rw [castInt, BitVec.toInt_ofInt]
  exact Int.bmod_eq_of_le (by omega) (by omega)

theorem isInt_castInt (x : Int) : IsInt (castInt x) :=
  ⟨BitVec.le_toInt _, BitVec.toInt_lt⟩

/-- Two numbers have the same low bits. -/
theorem ofInt_eq_ofInt_iff {w : Nat} :
    BitVec.ofInt w x = BitVec.ofInt w y ↔ (2 ^ w : Int) ∣ x - y := by
  have hpow : ((2 ^ w : Nat) : Int) ≠ 0 := Int.natCast_ne_zero.mpr (Nat.two_pow_pos w).ne'
  rw [← BitVec.toNat_inj, BitVec.toNat_ofInt, BitVec.toNat_ofInt, ← Int.ofNat_inj,
    Int.toNat_of_nonneg (Int.emod_nonneg x hpow), Int.toNat_of_nonneg (Int.emod_nonneg y hpow),
    Int.emod_eq_emod_iff_emod_sub_eq_zero, ← Int.dvd_iff_emod_eq_zero, Nat.cast_pow, Nat.cast_ofNat]

/-- How results are rounded to a `float`: in order, and not at all where they are integers of
up to 24 bits. -/
structure FloatRounding where
  round : Rat → Rat
  mono : ∀ x y, x ≤ y → round x ≤ round y
  natCast : ∀ n : Nat, n ≤ 2 ^ 24 → round n = n

/-- Nothing is rounded. -/
def FloatRounding.exact : FloatRounding where
  round x := x
  mono _ _ h := h
  natCast _ _ := rfl

/-- What is less after rounding was less before. -/
theorem FloatRounding.lt_of_round_lt (fl : FloatRounding) {x y : Rat}
    (h : fl.round x < fl.round y) :
    x < y := by
  by_contra hle
  exact absurd (fl.mono y x (not_lt.mp hle)) (not_le.mpr h)

end CharmRuntime.Lib
