import Mathlib.Algebra.BigOperators.Group.Finset.Piecewise
import Mathlib.Tactic.Ring

/-!
# Lib.Sum

Sums over all processors of a quantity that one step changes at one processor
only.
-/

namespace CharmRuntime.Lib

open Function Finset

variable {P : Type} [DecidableEq P] [Fintype P]

/-- Two functions that differ at `p` only have sums that differ by as much. -/
theorem sum_eq_add_of_ne {f g : P → Int} (p : P) (h : ∀ i, i ≠ p → f i = g i) :
    ∑ i, f i = ∑ i, g i + (f p - g p) := by
  have herase : ∑ i ∈ univ.erase p, f i = ∑ i ∈ univ.erase p, g i :=
    sum_congr rfl fun i hi => h i (ne_of_mem_erase hi)
  rw [← add_sum_erase univ f (mem_univ p), ← add_sum_erase univ g (mem_univ p), herase]
  ring

/-- A sum with one nonzero term. -/
theorem sum_eq_of_ne {f : P → Int} (p : P) (h : ∀ i, i ≠ p → f i = 0) : ∑ i, f i = f p := by
  rw [sum_eq_add_of_ne p h]
  simp

/-- What is added at one processor is added to the sum. -/
theorem sum_update_add {M : Type} [AddCommMonoid M] (f : P → M) (p : P) (x : M) :
    ∑ i, update f p (x + f p) i = x + ∑ i, f i := by
  have hf : ∑ i, f i = f p + ∑ i ∈ univ \ {p}, f i := by
    rw [← sum_update_of_mem (mem_univ p) f (f p), update_eq_self]
  rw [sum_update_of_mem (mem_univ p), hf, add_assoc]

/-- What is taken from one processor is missing in the sum. -/
theorem add_sum_update_zero {M : Type} [AddCommMonoid M] (f : P → M) (p : P) :
    f p + ∑ i, update f p 0 i = ∑ i, f i := by
  rw [sum_update_of_mem (mem_univ p), zero_add, ← sum_update_of_mem (mem_univ p) f (f p),
    update_eq_self]

omit [Fintype P] in
/-- A summand is replaced. -/
theorem sum_update_replace {σ M : Type} [AddCommMonoid M] {s : Finset P} {p : P} (hp : p ∈ s)
    (F : σ → M) (pe : P → σ) (state : σ) :
    ∑ i ∈ s, F (update pe p state i) + F (pe p) = ∑ i ∈ s, F (pe i) + F state := by
  have hrest : ∑ i ∈ s.erase p, F (update pe p state i) = ∑ i ∈ s.erase p, F (pe i) :=
    sum_congr rfl fun i hi => by rw [update_of_ne (ne_of_mem_erase hi)]
  rw [← add_sum_erase s _ hp, ← add_sum_erase s (fun i => F (pe i)) hp, update_self, hrest]
  ac_rfl

omit [Fintype P] in
/-- A field that an update at `p` keeps is kept everywhere. -/
theorem apply_update_eq {σ α : Type} {f : σ → α} {pe : P → σ} {p : P} {state : σ}
    (h : f state = f (pe p)) (i : P) : f (update pe p state i) = f (pe i) := by
  by_cases hi : i = p
  · subst hi
    rw [update_self, h]
  · rw [update_of_ne hi]

end CharmRuntime.Lib
