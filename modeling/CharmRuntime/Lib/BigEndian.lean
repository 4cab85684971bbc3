import Mathlib.Algebra.Order.Group.Nat
import Mathlib.Data.List.Induction

/-!
# Lib.BigEndian

**Numbers as a given number of digits**, the highest one first. `value` and `digits` are inverse to
each other on the numbers and the digits that fit (`value_digits`, `digits_value`).
-/

namespace CharmRuntime.Lib.BigEndian

open List

/-- The number with some digits. -/
def value (p : Nat) (l : List Nat) : Nat := l.foldl (fun v d => v * p + d) 0

/-- The last `n` digits of a number. -/
def digits (p : Nat) : Nat → Nat → List Nat
  | 0, _ => []
  | n + 1, i => digits p n (i / p) ++ [i % p]

variable {p n i : Nat} {l : List Nat}

@[simp] theorem length_digits (p n i : Nat) : (digits p n i).length = n := by
  induction n generalizing i with
  | zero => rfl
  | succ n ih => rw [digits, length_append, ih, length_singleton]

theorem mem_digits_lt (hp : 0 < p) : ∀ d ∈ digits p n i, d < p := by
  induction n generalizing i with
  | zero => exact fun d hd => absurd hd not_mem_nil
  | succ n ih =>
    rw [digits, forall_mem_append]
    exact ⟨ih, forall_mem_singleton.mpr (Nat.mod_lt i hp)⟩

@[simp] theorem value_append_singleton (p : Nat) (l : List Nat) (d : Nat) :
    value p (l ++ [d]) = value p l * p + d := by
  unfold value
  rw [foldl_append, foldl_cons, foldl_nil]

theorem value_digits (h : i < p ^ n) : value p (digits p n i) = i := by
  induction n generalizing i with
  | zero => exact (Nat.lt_one_iff.mp h).symm
  | succ n ih =>
    rw [digits, value_append_singleton, ih (Nat.div_lt_of_lt_mul (by rwa [mul_comm])), mul_comm,
      Nat.div_add_mod]

theorem digits_value (h : ∀ d ∈ l, d < p) : digits p l.length (value p l) = l := by
  induction l using reverseRecOn with
  | nil => rfl
  | append_singleton l d ih =>
    obtain ⟨hl, hd⟩ := forall_mem_append.mp h
    have hd := forall_mem_singleton.mp hd
    have hp : 0 < p := by omega
    rw [length_append, length_singleton, value_append_singleton, digits, mul_comm,
      Nat.mul_add_div hp, Nat.div_eq_of_lt hd, add_zero, ih hl, Nat.mul_add_mod,
      Nat.mod_eq_of_lt hd]

theorem value_lt (h : ∀ d ∈ l, d < p) : value p l < p ^ l.length := by
  induction l using reverseRecOn with
  | nil => exact one_pos
  | append_singleton l d ih =>
    obtain ⟨hl, hd⟩ := forall_mem_append.mp h
    have hd := forall_mem_singleton.mp hd
    have hlt := ih hl
    rw [value_append_singleton, length_append, length_singleton]
    calc value p l * p + d < (value p l + 1) * p := by rw [Nat.succ_mul]; omega
      _ ≤ p ^ l.length * p := Nat.mul_le_mul_right p hlt

theorem value_append (p : Nat) (l l' : List Nat) :
    value p (l ++ l') = value p l * p ^ l'.length + value p l' := by
  induction l' using reverseRecOn with
  | nil => rw [append_nil, length_nil, pow_zero, mul_one]; rfl
  | append_singleton l' d ih =>
    rw [← append_assoc, value_append_singleton, value_append_singleton, ih, length_append,
      length_singleton, pow_succ, Nat.add_mul, mul_assoc, add_assoc]

theorem value_cons (p d : Nat) (l : List Nat) :
    value p (d :: l) = d * p ^ l.length + value p l := by
  have happend := value_append p [d] l
  rw [singleton_append] at happend
  rw [happend]
  simp [value]

/-- The digits one by one. -/
theorem digits_eq_map (p n i : Nat) :
    digits p n i = (List.range n).map fun j => i / p ^ (n - 1 - j) % p := by
  induction n generalizing i with
  | zero => rfl
  | succ n ih =>
    rw [digits, ih, range_succ, map_append, map_singleton]
    refine congrArg₂ _ (map_congr_left fun j hj => ?_) ?_
    · have hlt := mem_range.mp hj
      rw [Nat.div_div_eq_div_mul, ← Nat.pow_succ', show (n - 1 - j).succ = n + 1 - 1 - j by omega]
    · rw [Nat.add_sub_cancel, Nat.sub_self, pow_zero, Nat.div_one]

/-- A digit of the number with some digits. -/
theorem value_div_mod (h : ∀ d ∈ l, d < p) {k : Nat} (hk : k < l.length) :
    value p l / p ^ (l.length - 1 - k) % p = l[k] := by
  have hget := congrArg (fun l => l[k]?) (digits_value h)
  simp only [digits_eq_map, getElem?_map, getElem?_range hk, getElem?_eq_getElem hk] at hget
  exact Option.some.inj hget

/-- The highest digit. -/
theorem digits_succ (h : i < p ^ (n + 1)) :
    digits p (n + 1) i = i / p ^ n :: digits p n (i % p ^ n) := by
  have hp : 0 < p := by
    obtain rfl | hp := eq_zero_or_pos p
    · omega
    · exact hp
  have hlow : i % p ^ n < p ^ n := Nat.mod_lt i (Nat.pow_pos hp)
  have hall : ∀ d ∈ i / p ^ n :: digits p n (i % p ^ n), d < p :=
    forall_mem_cons.mpr ⟨Nat.div_lt_of_lt_mul (by rwa [← pow_succ]), mem_digits_lt hp⟩
  have hdigits := digits_value hall
  rwa [value_cons, value_digits hlow, length_cons, length_digits, Nat.div_add_mod'] at hdigits

theorem digits_zero (p n : Nat) : digits p n 0 = List.replicate n 0 := by
  induction n with
  | zero => rfl
  | succ n ih => rw [digits, Nat.zero_div, ih, Nat.zero_mod, replicate_succ']

theorem digits_last (hp : 0 < p) (n : Nat) : digits p n (p ^ n - 1) = List.replicate n (p - 1) := by
  induction n with
  | zero => rfl
  | succ n ih =>
    have hpos := Nat.pow_pos (n := n) hp
    have hsplit : p ^ (n + 1) - 1 = p * (p ^ n - 1) + (p - 1) := by
      rw [pow_succ, mul_comm, Nat.mul_sub]
      have hle := Nat.le_mul_of_pos_right p hpos
      omega
    rw [digits, hsplit, Nat.mul_add_div hp, Nat.div_eq_of_lt (by omega), add_zero, ih,
      Nat.mul_add_mod, Nat.mod_eq_of_lt (by omega), replicate_succ']

end CharmRuntime.Lib.BigEndian
