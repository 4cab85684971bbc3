import Mathlib.Algebra.BigOperators.Group.List.Basic
import Mathlib.Tactic.Ring

/-!
# Lib.MixedRadix

**Numbers in a mixed radix**: with the sizes `s₀, s₁, …` a number below their product has digits `d₀
< s₀, d₁ < s₁, …`, the last of which varies fastest. `block sizes i` is how many numbers agree on
the first `i` digits.

A number is determined by its digits (`digits_ext`), and one digit may be replaced without a change
of the others (`digit_setDigit`).
-/

namespace CharmRuntime.Lib.MixedRadix

open List Nat

/-- The numbers that agree on their first `i` digits. -/
def block (sizes : List Nat) (i : Nat) : Nat := (sizes.drop i).prod

/-- The digit `i` of `n`. -/
def digit (sizes : List Nat) (i n : Nat) : Nat := n % block sizes i / block sizes (i + 1)

/-- `n` with `j` for its digit `i`. -/
def setDigit (sizes : List Nat) (i j n : Nat) : Nat :=
  n - digit sizes i n * block sizes (i + 1) + j * block sizes (i + 1)

variable {sizes : List Nat} {i j n m : Nat}

theorem block_zero : block sizes 0 = sizes.prod := rfl

theorem block_length : block sizes sizes.length = 1 := by rw [block, drop_length, prod_nil]

theorem block_eq (h : i < sizes.length) : block sizes i = sizes[i] * block sizes (i + 1) := by
  rw [block, drop_eq_getElem_cons h, prod_cons, block]

theorem block_dvd (sizes : List Nat) (h : i ≤ j) : block sizes j ∣ block sizes i := by
  obtain ⟨k, rfl⟩ := Nat.exists_eq_add_of_le h
  induction k with
  | zero => exact dvd_rfl
  | succ k ih =>
    refine dvd_trans ?_ (ih (le_add_right i k))
    by_cases hk : i + k < sizes.length
    · rw [block_eq hk]
      exact Dvd.intro_left _ rfl
    · have hend : sizes.length ≤ i + k := Nat.le_of_not_lt hk
      have hnext : sizes.length ≤ i + (k + 1) := le_succ_of_le hend
      rw [block, block, drop_eq_nil_of_le hend, drop_eq_nil_of_le hnext]

theorem prod_pos_of_forall (hpos : ∀ s ∈ sizes, 0 < s) : 0 < sizes.prod := by
  induction sizes with
  | nil => exact one_pos
  | cons s sizes ih =>
    exact mul_pos (hpos s mem_cons_self) (ih fun t ht => hpos t (mem_cons_of_mem s ht))

theorem block_pos (hpos : ∀ s ∈ sizes, 0 < s) : 0 < block sizes i :=
  prod_pos_of_forall fun s hs => hpos s (mem_of_mem_drop hs)

theorem digit_eq (h : i < sizes.length) : digit sizes i n = n / block sizes (i + 1) % sizes[i] := by
  rw [digit, block_eq h, mul_comm, mod_mul_right_div_self]

theorem digit_lt (hpos : ∀ s ∈ sizes, 0 < s) (h : i < sizes.length) :
    digit sizes i n < sizes[i] := by
  rw [digit_eq h]
  exact mod_lt _ (hpos _ (getElem_mem h))

/-- Digits say nothing about what is above the product of the sizes. -/
theorem digit_mod_prod (sizes : List Nat) (i n : Nat) :
    digit sizes i (n % sizes.prod) = digit sizes i n := by
  have hdvd : block sizes i ∣ sizes.prod := block_dvd sizes (zero_le i)
  rw [digit, digit, mod_mod_of_dvd n hdvd]

/-- The first digits are those of the quotient. -/
theorem digit_congr_div {e : Nat} (he : e < i) (h : n / block sizes i = m / block sizes i)
    (hi : e < sizes.length) :
    digit sizes e n = digit sizes e m := by
  obtain ⟨k, hk⟩ := block_dvd sizes (succ_le_of_lt he)
  rw [digit_eq hi, digit_eq hi, hk, ← Nat.div_div_eq_div_mul, ← Nat.div_div_eq_div_mul, h]

/-- The last digits are those of the remainder. -/
theorem digit_congr_mod {e : Nat} (he : i < e)
    (h : n % block sizes (i + 1) = m % block sizes (i + 1)) :
    digit sizes e n = digit sizes e m := by
  have hdvd := block_dvd sizes (succ_le_of_lt he)
  rw [digit, digit, ← mod_mod_of_dvd n hdvd, ← mod_mod_of_dvd m hdvd, h]

/-- **A number is determined by its digits.** -/
theorem digits_ext (hn : n < sizes.prod) (hm : m < sizes.prod)
    (h : ∀ i, i < sizes.length → digit sizes i n = digit sizes i m) : n = m := by
  have hdiv : ∀ i, i ≤ sizes.length → n / block sizes i = m / block sizes i := by
    intro i
    induction i with
    | zero =>
      intro _
      rw [block_zero, div_eq_of_lt hn, div_eq_of_lt hm]
    | succ i ih =>
      intro hi
      have hblock := block_eq (lt_of_succ_le hi)
      have hdigit := h i (lt_of_succ_le hi)
      have hquot := ih (le_of_succ_le hi)
      rw [digit_eq (lt_of_succ_le hi), digit_eq (lt_of_succ_le hi)] at hdigit
      rw [hblock, mul_comm, ← Nat.div_div_eq_div_mul, ← Nat.div_div_eq_div_mul] at hquot
      rw [← div_add_mod (n / block sizes (i + 1)) sizes[i], hquot, hdigit, div_add_mod]
  have hlast := hdiv sizes.length (le_refl _)
  rwa [block_length, Nat.div_one, Nat.div_one] at hlast

/-- The parts of a number around its digit `i`. -/
theorem eq_add_digit (sizes : List Nat) (n i : Nat) :
    n = n / block sizes i * block sizes i + digit sizes i n * block sizes (i + 1) +
    n % block sizes i % block sizes (i + 1) := by
  have hlow := div_add_mod (n % block sizes i) (block sizes (i + 1))
  have hall := div_add_mod n (block sizes i)
  rw [digit, add_assoc, mul_comm (_ / block sizes (i + 1)), hlow, mul_comm, hall]

theorem setDigit_eq (i j n : Nat) : setDigit sizes i j n =
      n / block sizes i * block sizes i +
      (j * block sizes (i + 1) + n % block sizes i % block sizes (i + 1)) := by
  have hn := eq_add_digit sizes n i
  rw [setDigit]
  omega

theorem setDigit_mod (n : Nat) :
    setDigit sizes i j n % block sizes (i + 1) = n % block sizes (i + 1) := by
  obtain ⟨k, hk⟩ := block_dvd sizes (le_succ i)
  have hsplit : setDigit sizes i j n =
      n % block sizes i % block sizes (i + 1) + block sizes (i + 1) *
      (n / block sizes i * k + j) := by
    have hhigh :
      n / block sizes i * block sizes i = n / block sizes i * (block sizes (i + 1) * k) := by
        rw [← hk]
    rw [setDigit_eq, hhigh]
    ring
  rw [hsplit, add_mul_mod_self_left, mod_mod, mod_mod_of_dvd _ (Dvd.intro k hk.symm)]

section

variable (hpos : ∀ s ∈ sizes, 0 < s) (hi : i < sizes.length) (hj : j < sizes[i])

include hpos hi hj

theorem setDigit_low_lt (n : Nat) :
    j * block sizes (i + 1) + n % block sizes i % block sizes (i + 1) < block sizes i := by
  have hrem : n % block sizes i % block sizes (i + 1) < block sizes (i + 1) :=
    mod_lt _ (block_pos hpos)
  calc j * block sizes (i + 1) + n % block sizes i % block sizes (i + 1)
      < j * block sizes (i + 1) + block sizes (i + 1) := Nat.add_lt_add_left hrem _
    _ = (j + 1) * block sizes (i + 1) := (succ_mul _ _).symm
    _ ≤ sizes[i] * block sizes (i + 1) := mul_le_mul_right _ hj
    _ = block sizes i := (block_eq hi).symm

theorem setDigit_div (n : Nat) : setDigit sizes i j n / block sizes i = n / block sizes i := by
  rw [setDigit_eq, mul_comm, mul_add_div (block_pos hpos),
    div_eq_of_lt (setDigit_low_lt hpos hi hj n), add_zero]

theorem setDigit_lt (hn : n < sizes.prod) : setDigit sizes i j n < sizes.prod := by
  obtain ⟨k, hk⟩ := block_dvd sizes (zero_le i)
  rw [block_zero] at hk
  rw [hk, mul_comm, ← div_lt_iff_lt_mul (block_pos hpos), setDigit_div hpos hi hj,
    div_lt_iff_lt_mul (block_pos hpos), mul_comm, ← hk]
  exact hn

/-- **One digit is replaced.** -/
theorem digit_setDigit {e : Nat} (he : e < sizes.length) (n : Nat) :
    digit sizes e (setDigit sizes i j n) = if e = i then j else digit sizes e n := by
  by_cases hei : e = i
  · subst hei
    have hlow := setDigit_low_lt hpos hi hj n
    rw [if_pos rfl, digit, setDigit_eq, mul_comm (n / _), mul_add_mod, mod_eq_of_lt hlow,
      mul_comm j, mul_add_div (block_pos hpos), div_eq_of_lt (mod_lt _ (block_pos hpos)), add_zero]
  · rw [if_neg hei]
    cases lt_or_gt_of_ne hei with
    | inl hlt => exact digit_congr_div hlt (setDigit_div hpos hi hj n) he
    | inr hgt => exact digit_congr_mod hgt (setDigit_mod n)

end

end CharmRuntime.Lib.MixedRadix
