import Mathlib.Tactic.Ring

/-!
# Lib.Chunks

**Cutting a list into pieces of one length**, the last of which may be shorter. `chunkCount` pieces
are what it takes (`chunkCount_le_iff`), and together they are the list (`flatMap_chunk`).
-/

namespace CharmRuntime.Lib

variable {α : Type} {k n : Nat} {l : List α}

/-- The piece number `i`. -/
def chunk (k : Nat) (l : List α) (i : Nat) : List α := (l.drop (i * k)).take k

/-- How many pieces there are. -/
def chunkCount (k n : Nat) : Nat := if n % k ≠ 0 then n / k + 1 else n / k

theorem length_chunk_le (i : Nat) : (chunk k l i).length ≤ k := List.length_take_le ..

theorem chunkCount_le_iff (hk : 0 < k) {c : Nat} : chunkCount k n ≤ c ↔ n ≤ c * k := by
  have hdiv := Nat.div_add_mod' n k
  rw [chunkCount]
  split
  · next hmod =>
      rw [Nat.succ_le_iff, Nat.div_lt_iff_lt_mul hk]
      refine ⟨Nat.le_of_lt, fun hle => Nat.lt_of_le_of_ne hle ?_⟩
      rintro rfl
      exact hmod (Nat.mul_mod_left c k)
  · next hmod =>
      have hmul : n / k * k = n := by omega
      constructor
      · intro hle
        rw [← hmul]
        exact Nat.mul_le_mul_right k hle
      · intro hle
        exact Nat.div_le_of_le_mul (Nat.mul_comm c k ▸ hle)

theorem le_chunkCount_mul (hk : 0 < k) (n : Nat) : n ≤ chunkCount k n * k :=
  (chunkCount_le_iff hk).mp (Nat.le_refl _)

theorem lt_chunkCount_iff (hk : 0 < k) {c : Nat} : c < chunkCount k n ↔ c * k < n := by
  rw [← Nat.not_le, chunkCount_le_iff hk, Nat.not_le]

/-- All pieces but the last one are full. -/
theorem length_chunk_of_lt (hk : 0 < k) {i : Nat} (hi : i + 1 < chunkCount k l.length) :
    (chunk k l i).length = k := by
  have hlt := (lt_chunkCount_iff hk).mp hi
  rw [Nat.succ_mul] at hlt
  rw [chunk, List.length_take, List.length_drop]
  omega

/-- The first pieces. -/
theorem flatMap_chunk_range (c : Nat) : (List.range c).flatMap (chunk k l) = l.take (c * k) := by
  induction c with
  | zero => simp
  | succ c ih =>
    rw [List.range_succ, List.flatMap_append, ih, List.flatMap_singleton, chunk, Nat.succ_mul,
      List.take_add]

/-- **The pieces are the list.** -/
theorem flatMap_chunk (hk : 0 < k) :
    (List.range (chunkCount k l.length)).flatMap (chunk k l) = l := by
  rw [flatMap_chunk_range, List.take_of_length_le (le_chunkCount_mul hk _)]

end CharmRuntime.Lib
