import Mathlib.Algebra.Order.Floor.Div
import Mathlib.Algebra.Order.Ring.Nat

/-!
# Lib.EvenSplit

**Splitting `n` things over `p` parts**, as evenly as it goes and in order: the first `n % p` parts
have one more than the others. `part` is where a thing is and `offsetInPart` is its place there,
computed without a search.

A thing is at an offset of a part, and at no other one (`exists_eq_start_add`, `part_start_add`). So
a part has as many things as its size says (`countP_part`), which is the quotient rounded down or up
(`share_partSize`), and the parts are in the order of the things (`part_mono`).
-/

namespace CharmRuntime.Lib.EvenSplit

open List Nat

/-- How many things are in the parts with one more. -/
def firstSet (n p : Nat) : Nat := n % p * (n / p + 1)

/-- The part of the thing `i`. -/
def part (n p i : Nat) : Nat :=
  if i < firstSet n p then i / (n / p + 1) else n % p + (i - firstSet n p) / (n / p)

/-- The place of the thing `i` in its part. -/
def offsetInPart (n p i : Nat) : Nat :=
  if i < firstSet n p then i % (n / p + 1) else (i - firstSet n p) % (n / p)

/-- How many things are in the part `k`. -/
def partSize (n p k : Nat) : Nat := if k < n % p then n / p + 1 else n / p

/-- How many things are before the part `k`. -/
def start (n p k : Nat) : Nat :=
  if k < n % p then k * (n / p + 1) else firstSet n p + (k - n % p) * (n / p)

/-- A share of `n` things for one of `p`: the quotient, rounded down or up. -/
def Share (n p k : Nat) : Prop := k = n / p ∨ k = n ⌈/⌉ p

variable {n p i j k : Nat}

/-! ### Parts and offsets -/

theorem partSize_of_lt (h : k < n % p) : partSize n p k = n / p + 1 := if_pos h

theorem partSize_of_le (h : n % p ≤ k) : partSize n p k = n / p := if_neg (not_lt.mpr h)

theorem start_of_lt (h : k < n % p) : start n p k = k * (n / p + 1) := if_pos h

theorem start_of_le (h : n % p ≤ k) : start n p k = firstSet n p + (k - n % p) * (n / p) :=
  if_neg (not_lt.mpr h)

theorem start_succ (n p k : Nat) : start n p (k + 1) = start n p k + partSize n p k := by
  obtain hlt | heq | hgt := lt_trichotomy (k + 1) (n % p)
  · rw [start_of_lt hlt, start_of_lt (lt_of_succ_lt hlt), partSize_of_lt (lt_of_succ_lt hlt),
      succ_mul]
  · have hk : k < n % p := heq ▸ lt_succ_self k
    rw [start_of_le (le_of_eq heq.symm), start_of_lt hk, partSize_of_lt hk, firstSet, ← heq,
      Nat.sub_self, zero_mul, add_zero, succ_mul]
  · have hk : n % p ≤ k := le_of_lt_succ hgt
    rw [start_of_le (le_of_lt hgt), start_of_le hk, partSize_of_le hk, succ_sub hk,
      succ_mul, add_assoc]

theorem start_mono (h : j ≤ k) : start n p j ≤ start n p k := by
  induction h with
  | refl => exact le_refl _
  | step _ ih => exact ih.trans (start_succ n p _ ▸ le_add_right _ _)

/-- The last part ends with the last thing. -/
theorem start_self (hp : 0 < p) (n : Nat) : start n p p = n := by
  have hdiv := div_add_mod n p
  have hle : n % p ≤ p := le_of_lt (mod_lt n hp)
  rw [start_of_le hle, firstSet, mul_succ, add_right_comm, ← add_mul, add_sub_of_le hle, hdiv]

/-- Things behind the first parts are in parts that are not empty. -/
theorem div_pos_of_firstSet_le (hi : i < n) (h : firstSet n p ≤ i) : 0 < n / p := by
  refine pos_of_ne_zero fun hzero => ?_
  have hdiv := div_add_mod n p
  rw [firstSet, hzero, zero_add] at h
  rw [hzero, mul_zero] at hdiv
  omega

theorem start_le_of_le (h : n % p ≤ k) : firstSet n p ≤ start n p k :=
  start_of_le h ▸ le_add_right _ _

theorem start_add_lt_firstSet (hk : k < n % p) (hj : j < partSize n p k) :
    start n p k + j < firstSet n p := by
  have hnext := start_mono (n := n) (p := p) (succ_le_of_lt hk)
  rw [start_succ, start_of_le (le_refl _), Nat.sub_self, zero_mul] at hnext
  omega

/-- **What is at an offset of a part.** -/
theorem part_start_add (hj : j < partSize n p k) :
    part n p (start n p k + j) = k ∧ offsetInPart n p (start n p k + j) = j := by
  by_cases hk : k < n % p
  · have hlt := start_add_lt_firstSet hk hj
    rw [partSize_of_lt hk] at hj
    rw [part, offsetInPart, if_pos hlt, if_pos hlt, start_of_lt hk, mul_comm,
      mul_add_div (succ_pos _), mul_add_mod, div_eq_of_lt hj, mod_eq_of_lt hj]
    exact ⟨rfl, rfl⟩
  · have hk := not_lt.mp hk
    rw [partSize_of_le hk] at hj
    have hge : ¬ start n p k + j < firstSet n p :=
      not_lt.mpr ((start_le_of_le hk).trans (le_add_right _ _))
    have hsub : start n p k + j - firstSet n p = n / p * (k - n % p) + j := by
      rw [start_of_le hk, add_assoc, Nat.add_sub_cancel_left, mul_comm]
    rw [part, offsetInPart, if_neg hge, if_neg hge, hsub, mul_add_div (zero_lt_of_lt hj),
      mul_add_mod, div_eq_of_lt hj, mod_eq_of_lt hj, add_zero, add_sub_of_le hk]
    exact ⟨rfl, rfl⟩

/-- **A thing is at an offset of a part.** -/
theorem exists_eq_start_add (hp : 0 < p) (hi : i < n) :
    ∃ k < p, ∃ j < partSize n p k, i = start n p k + j := by
  have hstep : ∀ m, i < start n p m → ∃ k < m, ∃ j < partSize n p k, i = start n p k + j := by
    intro m
    induction m with
    | zero =>
      intro hlt
      have hzero : start n p 0 = 0 := by simp [start, firstSet]
      omega
    | succ m ih =>
      intro hlt
      rw [start_succ] at hlt
      by_cases hm : i < start n p m
      · obtain ⟨k, hk, hrest⟩ := ih hm
        exact ⟨k, lt_succ_of_lt hk, hrest⟩
      · exact ⟨m, lt_succ_self m, i - start n p m, by omega, by omega⟩
  exact hstep p (by rwa [start_self hp n])

theorem part_lt (hp : 0 < p) (hi : i < n) : part n p i < p := by
  obtain ⟨k, hk, j, hj, rfl⟩ := exists_eq_start_add hp hi
  rwa [(part_start_add hj).1]

theorem offsetInPart_lt (hp : 0 < p) (hi : i < n) :
    offsetInPart n p i < partSize n p (part n p i) := by
  obtain ⟨k, -, j, hj, rfl⟩ := exists_eq_start_add hp hi
  rwa [(part_start_add hj).1, (part_start_add hj).2]

/-- The parts, and the offsets in a part, are in the order of the things. -/
theorem part_offset_mono (hp : 0 < p) (h : i ≤ j) (hj : j < n) :
    part n p i < part n p j ∨ part n p i = part n p j ∧
    offsetInPart n p i ≤ offsetInPart n p j := by
  obtain ⟨k, -, a, ha, rfl⟩ := exists_eq_start_add hp (h.trans_lt hj)
  obtain ⟨l, -, b, hb, rfl⟩ := exists_eq_start_add hp hj
  rw [(part_start_add ha).1, (part_start_add ha).2, (part_start_add hb).1, (part_start_add hb).2]
  obtain hlt | rfl | hgt := lt_trichotomy k l
  · exact .inl hlt
  · exact .inr ⟨rfl, le_of_add_le_add_left h⟩
  · have hnext := start_mono (n := n) (p := p) (succ_le_of_lt hgt)
    rw [start_succ] at hnext
    omega

theorem part_mono (hp : 0 < p) (h : i ≤ j) (hj : j < n) : part n p i ≤ part n p j :=
  (part_offset_mono hp h hj).elim le_of_lt fun heq => le_of_eq heq.1

/-! ### Counting -/

/-- **The things of a part are its offsets.** -/
theorem countP_part (hk : k < p) (q : Nat → Bool) :
    (range n).countP (fun i => decide (part n p i = k) && q (offsetInPart n p i)) =
    (range (partSize n p k)).countP q := by
  have hp := zero_lt_of_lt hk
  have hnext : start n p (k + 1) ≤ n := (start_mono (succ_le_of_lt hk)).trans_eq (start_self hp n)
  obtain ⟨rest, hrest⟩ := Nat.exists_eq_add_of_le hnext
  have hrange : range n = (range (start n p k) ++ (range (partSize n p k)).map (start n p k + ·)) ++
        (range rest).map (start n p (k + 1) + ·) := by
    rw [← range_add, ← start_succ, ← range_add, ← hrest]
  -- before and behind the part there are the things of other parts
  have hbefore :
    (range (start n p k)).countP (fun i => decide (part n p i = k) && q (offsetInPart n p i)) =
    0 := by
    refine countP_eq_zero.mpr fun i hi hpart => ?_
    have hlt := mem_range.mp hi
    rw [start_succ] at hnext
    obtain ⟨l, -, j, hj, rfl⟩ := exists_eq_start_add hp (show i < n by omega)
    rw [(part_start_add hj).1] at hpart
    simp only [Bool.and_eq_true, decide_eq_true_eq] at hpart
    rw [hpart.1] at hlt
    omega
  have hbehind : ((range rest).map (start n p (k + 1) + ·)).countP
      (fun i => decide (part n p i = k) && q (offsetInPart n p i)) = 0 := by
    refine countP_eq_zero.mpr fun i hi hpart => ?_
    obtain ⟨r, hr, rfl⟩ := mem_map.mp hi
    have hlt := mem_range.mp hr
    obtain ⟨l, -, j, hj, heq⟩ := exists_eq_start_add hp (show start n p (k + 1) + r < n by omega)
    rw [heq, (part_start_add hj).1] at hpart
    simp only [Bool.and_eq_true, decide_eq_true_eq] at hpart
    rw [hpart.1] at heq hj
    rw [start_succ] at heq
    omega
  rw [hrange, countP_append, countP_append, hbefore, hbehind, zero_add, countP_map]
  refine countP_congr fun j hj => ?_
  have hat := part_start_add (mem_range.mp hj)
  simp only [Function.comp_apply, hat.1, hat.2, decide_true, Bool.true_and]

theorem countP_part_eq (hk : k < p) :
    (range n).countP (fun i => decide (part n p i = k)) = partSize n p k := by
  have hcount := countP_part (n := n) hk fun _ => true
  simp only [Bool.and_true] at hcount
  rw [hcount, countP_true, length_range]

/-- All parts together. -/
theorem sum_partSize (hp : 0 < p) (n : Nat) : ((range p).map (partSize n p)).sum = n := by
  have hsum : ∀ m, ((range m).map (partSize n p)).sum = start n p m := by
    intro m
    induction m with
    | zero => simp [start, firstSet]
    | succ m ih =>
      rw [range_succ, map_append, sum_append, ih, start_succ]
      rfl
  rw [hsum, start_self hp]

/-! ### Shares -/

theorem share_partSize (hk : k < p) : Share n p (partSize n p k) := by
  by_cases hlt : k < n % p
  · right
    have hp := zero_lt_of_lt hk
    have hdiv := div_add_mod n p
    have hmod := mod_lt n hp
    have hceil : n + p - 1 = p * (n / p + 1) + (n % p - 1) := by
      rw [mul_add_one]
      omega
    have hzero : (n % p - 1) / p = 0 := div_eq_of_lt (by omega)
    rw [partSize_of_lt hlt, ceilDiv_eq_add_pred_div, hceil, mul_add_div hp, hzero]
  · exact .inl (partSize_of_le (not_lt.mp hlt))

/-! ### Rows -/

/-- The rows of a table, one behind the other. -/
theorem flatMap_range_row (a b : Nat) :
    (range a).flatMap (fun i => (range b).map fun j => i * b + j) = range (a * b) := by
  induction a with
  | zero => simp
  | succ a ih => rw [range_succ, flatMap_append, ih, flatMap_singleton, succ_mul, range_add]

end CharmRuntime.Lib.EvenSplit
