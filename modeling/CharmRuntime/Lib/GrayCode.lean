import Mathlib.Algebra.Order.Group.Nat
import Mathlib.Data.Nat.Bitwise

/-!
# Lib.GrayCode

**Gray codes** of numbers, and **rotation** of words of `n` bits.

Both are linear for exclusive or, so what two codes differ in is the code of what the numbers differ
in: one bit, if that is a number of ones (`gray_ones`). A rotation carries one bit to one bit
(`rotl_two_pow`).
-/

namespace CharmRuntime.Lib

open Nat

/-- The reflected Gray code. -/
def gray (i : Nat) : Nat := i ^^^ (i / 2)

theorem testBit_gray (i j : Nat) : (gray i).testBit j = (i.testBit j ^^ i.testBit (j + 1)) := by
  unfold gray
  rw [testBit_xor, show i / 2 = i / 2 ^ 1 from rfl, testBit_div_two_pow]

theorem gray_xor (i j : Nat) : gray (i ^^^ j) = gray i ^^^ gray j := by
  unfold gray
  rw [xor_div_two, Nat.xor_assoc, Nat.xor_assoc, xor_left_comm j]

@[simp] theorem gray_zero : gray 0 = 0 := rfl

theorem gray_lt {i n : Nat} (h : i < 2 ^ n) : gray i < 2 ^ n :=
  xor_lt_two_pow h (lt_of_le_of_lt (div_le_self i 2) h)

/-- All ones up to a bit: the code has that bit. -/
theorem gray_ones (c : Nat) : gray (2 ^ (c + 1) - 1) = 2 ^ c := by
  refine eq_of_testBit_eq fun j => ?_
  rw [testBit_gray, testBit_two_pow_sub_one]
  by_cases hj : c = j
  · simp [hj]
  · have hiff : j < c + 1 ↔ j + 1 < c + 1 := by omega
    simp [hj, hiff]

/-- An exclusive or, from the halves and the last bits. -/
theorem xor_eq_of_halves {a b x : Nat} (hdiv : a / 2 ^^^ b / 2 = x) (hmod : a % 2 ≠ b % 2) :
    a ^^^ b = 2 * x + 1 := by
  have hhalf : (a ^^^ b) / 2 = x := xor_div_two.trans hdiv
  have hlast : (a ^^^ b) % 2 = 1 := xor_mod_two_eq_one.mpr (by omega)
  omega

/-- A number and the next one differ in ones up to a bit. -/
theorem xor_succ (m : Nat) : ∃ c, m ^^^ (m + 1) = 2 ^ (c + 1) - 1 := by
  induction m using Nat.strong_induction_on with
  | _ m ih =>
    obtain heven | hodd := mod_two_eq_zero_or_one m
    · refine ⟨0, ?_⟩
      rw [xor_eq_of_halves (by rw [show (m + 1) / 2 = m / 2 by omega, Nat.xor_self]) (by omega)]
      rfl
    · obtain ⟨c, hc⟩ := ih (m / 2) (by omega)
      refine ⟨c + 1, ?_⟩
      rw [xor_eq_of_halves (by rw [show (m + 1) / 2 = m / 2 + 1 by omega, hc]) (by omega)]
      have hpos := Nat.two_pow_pos (c + 1)
      omega

/-- The codes of `2m`, `2m + 1`, `2m + 2` and `2m + 3` are the corners of a square. -/
theorem gray_square (m : Nat) :
    ∃ c, gray (2 * m) ^^^ gray (2 * m + 1) = 1 ∧ gray (2 * m + 2) ^^^ gray (2 * m + 3) = 1 ∧
    gray (2 * m + 1) ^^^ gray (2 * m + 2) = 2 ^ (c + 1) ∧ gray (2 * m) ^^^ gray (2 * m + 3) =
    2 ^ (c + 1) := by
  obtain ⟨c, hc⟩ := xor_succ m
  have hpair (k : Nat) : gray (2 * k) ^^^ gray (2 * k + 1) = 1 := by
    rw [← gray_xor,
      xor_eq_of_halves (by rw [show (2 * k + 1) / 2 = 2 * k / 2 by omega, Nat.xor_self]) (by omega)]
    rfl
  have hdouble : 2 * (2 ^ (c + 1) - 1) + 1 = 2 ^ (c + 1 + 1) - 1 := by
    have hpos := Nat.two_pow_pos (c + 1)
    omega
  refine ⟨c, hpair m, hpair (m + 1), ?_, ?_⟩
  · rw [← gray_xor, xor_eq_of_halves
      (by rw [show (2 * m + 1) / 2 = m by omega, show (2 * m + 2) / 2 = m + 1 by omega, hc])
        (by omega), hdouble, gray_ones]
  · rw [← gray_xor, xor_eq_of_halves
      (by rw [show 2 * m / 2 = m by omega, show (2 * m + 3) / 2 = m + 1 by omega, hc]) (by omega),
      hdouble, gray_ones]

/-- Two codes that differ in one bit differ in no other one. -/
theorem testBit_of_xor {a b c j : Nat} (h : a ^^^ b = 2 ^ c) :
    a.testBit j = (decide (c = j) ^^ b.testBit j) := by
  have hbit := congrArg (fun x => x.testBit j) h
  simp only [testBit_xor, testBit_two_pow] at hbit
  rw [← hbit, Bool.xor_assoc, Bool.xor_self, Bool.xor_false]

/-! ### Rotation -/

/-- The last `n` bits rotated to the left by `r` places. -/
def rotl (n r x : Nat) : Nat := (x * 2 ^ r ||| x * 2 ^ r / 2 ^ n) &&& (2 ^ n - 1)

variable {n r x y : Nat}

theorem rotl_lt (n r x : Nat) : rotl n r x < 2 ^ n := by
  unfold rotl
  rw [and_two_pow_sub_one_eq_mod]
  exact mod_lt _ (Nat.two_pow_pos n)

theorem testBit_rotl (hx : x < 2 ^ n) (hr : r ≤ n) (j : Nat) :
    (rotl n r x).testBit j =
    (decide (j < n) && if r ≤ j then x.testBit (j - r) else x.testBit (j + n - r)) := by
  unfold rotl
  rw [testBit_and, testBit_or, testBit_div_two_pow, testBit_mul_two_pow, testBit_mul_two_pow,
    Bool.and_comm]
  have hle : r ≤ j + n := by omega
  by_cases hj : r ≤ j
  · have hout : x.testBit (j + n - r) = false :=
      testBit_lt_two_pow (lt_of_lt_of_le hx (Nat.pow_le_pow_right (by decide) (by omega)))
    simp [hout]
  · simp [hj, hle]

theorem rotl_xor (hx : x < 2 ^ n) (hy : y < 2 ^ n) (hr : r ≤ n) :
    rotl n r (x ^^^ y) = rotl n r x ^^^ rotl n r y := by
  refine eq_of_testBit_eq fun j => ?_
  rw [testBit_xor, testBit_rotl (xor_lt_two_pow hx hy) hr, testBit_rotl hx hr, testBit_rotl hy hr]
  by_cases hj : j < n
  · by_cases hle : r ≤ j <;> simp [hj, hle]
  · simp [hj]

@[simp] theorem rotl_zero (n r : Nat) : rotl n r 0 = 0 := by
  unfold rotl
  rw [zero_mul, Nat.zero_div, Nat.or_self, zero_and]

theorem add_mod_of_le {c : Nat} (hc : c < n) (hr : r ≤ n) :
    (c + r) % n = if c + r < n then c + r else c + r - n := by
  split
  · exact mod_eq_of_lt ‹_›
  · rw [mod_eq_sub_mod (by omega), mod_eq_of_lt (by omega)]

/-- Where a bit goes. -/
theorem testBit_rotl_mod {c : Nat} (hx : x < 2 ^ n) (hr : r ≤ n) (hc : c < n) :
    (rotl n r x).testBit ((c + r) % n) = x.testBit c := by
  rw [testBit_rotl hx hr, add_mod_of_le hc hr]
  split
  · rw [if_pos (le_add_left r c), Nat.add_sub_cancel, decide_eq_true ‹_›, Bool.true_and]
  · rw [if_neg (by omega), show c + r - n + n - r = c by omega, decide_eq_true (by omega),
      Bool.true_and]

/-- A rotation carries one bit to one bit. -/
theorem rotl_two_pow {c : Nat} (hc : c < n) (hr : r ≤ n) :
    rotl n r (2 ^ c) = 2 ^ ((c + r) % n) := by
  have hlt : 2 ^ c < 2 ^ n := Nat.pow_lt_pow_right (by decide) hc
  refine eq_of_testBit_eq fun j => ?_
  rw [testBit_rotl hlt hr, add_mod_of_le hc hr]
  grind

/-- Two rotations that add up to the whole word. -/
theorem rotl_rotl (hx : x < 2 ^ n) (hr : r ≤ n) : rotl n (n - r) (rotl n r x) = x := by
  refine eq_of_testBit_eq fun j => ?_
  rw [testBit_rotl (rotl_lt n r x) (sub_le n r), testBit_rotl hx hr, testBit_rotl hx hr]
  obtain hj | hj := lt_or_ge j n
  · by_cases hle : n - r ≤ j
    · rw [if_pos hle, if_neg (by omega), show j - (n - r) + n - r = j by omega]
      simp [hj, show j - (n - r) < n by omega]
    · rw [if_neg hle, if_pos (by omega), show j + n - (n - r) - r = j by omega]
      simp [hj, show j + n - (n - r) < n by omega]
  · rw [decide_eq_false (Nat.not_lt_of_le hj)]
    exact (testBit_lt_two_pow (lt_of_lt_of_le hx (Nat.pow_le_pow_right (by decide) hj))).symm

end CharmRuntime.Lib
