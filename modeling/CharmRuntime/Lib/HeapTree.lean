import Mathlib.Data.List.Count
import Mathlib.Data.List.Nodup
import Mathlib.Data.List.Perm.Basic
import Mathlib.Data.List.Range

/-!
# Lib.HeapTree

The implicit binary tree on the positions `0 .. n - 1`: the children of `j` are `2 j + 1` and
`2 j + 2`. `heapTree n j` lists the positions at and below `j`; below `0` every position
appears once (`heapTree_zero_perm`).
-/

namespace CharmRuntime.Lib

open List

/-- The positions at and below `j`. -/
def heapTree (n j : Nat) : List Nat :=
  if j < n then j :: (heapTree n (2 * j + 1) ++ heapTree n (2 * j + 2)) else []
termination_by n - j

theorem heapTree_of_lt {n j : Nat} (h : j < n) :
    heapTree n j = j :: (heapTree n (2 * j + 1) ++ heapTree n (2 * j + 2)) := by
  rw [heapTree, if_pos h]

theorem heapTree_of_le {n j : Nat} (h : n ≤ j) : heapTree n j = [] := by
  rw [heapTree, if_neg (not_lt.mpr h)]

theorem mem_heapTree {n j i : Nat} (h : i ∈ heapTree n j) : j ≤ i ∧ i < n := by
  induction j using heapTree.induct n with
  | case1 j hj ih1 ih2 =>
    rw [heapTree_of_lt hj, mem_cons, mem_append] at h
    obtain rfl | h | h := h
    · exact ⟨le_refl _, hj⟩
    · have := ih1 h
      omega
    · have := ih2 h
      omega
  | case2 j hj =>
    rw [heapTree_of_le (not_lt.mp hj)] at h
    exact absurd h (by simp)

theorem count_heapTree_of_lt {n j i : Nat} (h : i < j) : (heapTree n j).count i = 0 :=
  count_eq_zero.mpr fun hm => absurd (mem_heapTree hm).1 (by omega)

theorem count_heapTree_self {n j : Nat} (h : j < n) : (heapTree n j).count j = 1 := by
  rw [heapTree_of_lt h, count_cons_self, count_append,
    count_heapTree_of_lt (by omega), count_heapTree_of_lt (by omega)]

/-- A position is below `j` when its parent is. -/
theorem count_heapTree_parent {n j i : Nat} (hi : i < n) (h0 : 0 < i) (hij : i ≠ j) :
    (heapTree n j).count i = (heapTree n j).count ((i - 1) / 2) := by
  induction j using heapTree.induct n with
  | case1 j hj ih1 ih2 =>
    -- in the subtree of a child that `i` is not the root of, `i` goes with its parent
    have hchild : ∀ c, c = 2 * j + 1 ∨ c = 2 * j + 2 → (i ≠ c →
        (heapTree n c).count i = (heapTree n c).count ((i - 1) / 2)) →
          (heapTree n c).count i = (heapTree n c).count ((i - 1) / 2) + if i = c then 1 else 0 := by
      intro c hc ih
      by_cases hic : i = c
      · rw [if_pos hic, ← hic, count_heapTree_self hi, count_heapTree_of_lt (by omega)]
      · rw [if_neg hic, ih hic, Nat.add_zero]
    rw [heapTree_of_lt hj, count_cons, count_cons, count_append, count_append,
      hchild _ (.inl rfl) ih1, hchild _ (.inr rfl) ih2]
    simp only [beq_iff_eq, symm hij, if_false]
    by_cases hp : j = (i - 1) / 2
    · rw [if_pos hp]
      by_cases hl : i = 2 * j + 1
      · rw [if_pos hl, if_neg (by omega)]
        omega
      · rw [if_neg hl, if_pos (by omega)]
        omega
    · rw [if_neg hp, if_neg (by omega), if_neg (by omega)]
      omega
  | case2 j hj =>
    rw [heapTree_of_le (not_lt.mp hj)]
    rfl

/-- Every position is below the root once. -/
theorem count_heapTree_zero {n i : Nat} (hi : i < n) : (heapTree n 0).count i = 1 := by
  induction i using Nat.strongRecOn with
  | ind i ih =>
    by_cases h0 : i = 0
    · rw [h0]
      exact count_heapTree_self (by omega)
    · rw [count_heapTree_parent hi (by omega) h0]
      exact ih _ (by omega) (by omega)

theorem heapTree_zero_perm (n : Nat) : (heapTree n 0).Perm (List.range n) := by
  rw [perm_iff_count]
  intro i
  by_cases hi : i < n
  · rw [count_heapTree_zero hi, count_eq_one_of_mem nodup_range (mem_range.mpr hi)]
  · rw [count_eq_zero.mpr fun hm => hi (mem_heapTree hm).2, count_eq_zero.mpr fun hm =>
      hi (mem_range.mp hm)]

end CharmRuntime.Lib
