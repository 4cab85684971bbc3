import Mathlib.Data.List.Basic
import Mathlib.Data.Nat.ModEq

/-!
# Lib.RingBuffer

**Ring buffers**: a list in `n` slots that go round, from slot `first` on.
-/

namespace CharmRuntime.Lib.RingBuffer

open Function List Nat

variable {α : Type} {n first first' len i j : Nat} {slots : Nat → α}

/-- What `len` slots from `first` on hold. -/
def contents (n : Nat) (slots : Nat → α) (first len : Nat) : List α :=
  (List.range len).map fun i => slots ((first + i) % n)

@[simp] theorem length_contents : (contents n slots first len).length = len := by
  simp [contents]

theorem getElem?_contents (hi : i < len) :
    (contents n slots first len)[i]? = some (slots ((first + i) % n)) := by
  rw [contents, getElem?_map, getElem?_range hi]
  rfl

/-- The slots are different ones, once around. -/
theorem slot_inj (hi : i < n) (hj : j < n) (h : (first + i) % n = (first + j) % n) : i = j := by
  have hmod : i % n = j % n := ModEq.add_left_cancel' first h
  rwa [mod_eq_of_lt hi, mod_eq_of_lt hj] at hmod

theorem contents_congr {n' : Nat} {slots' : Nat → α}
    (h : ∀ i < len, slots ((first + i) % n) = slots' ((first' + i) % n')) :
    contents n slots first len = contents n' slots' first' len :=
  map_congr_left fun i hi => h i (mem_range.mp hi)

theorem contents_mod : contents n slots (first % n) len = contents n slots first len :=
  contents_congr fun i _ => by rw [mod_add_mod]

theorem contents_succ :
    contents n slots first (len + 1) = slots (first % n) :: contents n slots (first + 1) len := by
  rw [contents, range_succ_eq_map, map_cons, map_map]
  refine congrArg _ (map_congr_left fun i _ => ?_)
  rw [comp_apply, add_right_comm, add_assoc]

/-- **Append**: the slot behind the last one is written. -/
theorem contents_append (h : len < n) (x : α) :
    contents n (update slots ((first + len) % n) x) first (len + 1) =
    contents n slots first len ++ [x] := by
  have hold :
    ∀ i ∈ range len, update slots ((first + len) % n) x ((first + i) % n) =
    slots ((first + i) % n) := by
    intro i hi
    have hlt := mem_range.mp hi
    exact update_of_ne (fun heq => Nat.ne_of_lt hlt (slot_inj (hlt.trans h) h heq)) _ _
  rw [contents, range_succ, map_append, map_congr_left hold, map_singleton, update_self]
  rfl

/-- **Prepend**: the slot before the first one is written. -/
theorem contents_prepend (h : len < n) (hfirst : first' < n) (hnext : (first' + 1) % n = first % n)
    (x : α) :
    contents n (update slots first' x) first' (len + 1) = x :: contents n slots first len := by
  have hmod :
    contents n (update slots first' x) (first' + 1) len =
    contents n (update slots first' x) first len := by
    rw [← contents_mod, hnext, contents_mod]
  rw [contents_succ, mod_eq_of_lt hfirst, update_self, hmod]
  refine congrArg _ (contents_congr fun i hi => update_of_ne (fun heq => ?_) _ _)
  have hslot : (first' + (i + 1)) % n = (first' + 0) % n := by
    rw [add_left_comm, add_comm i, ← mod_add_mod, hnext, mod_add_mod, heq, add_zero,
      mod_eq_of_lt hfirst]
  exact absurd (slot_inj (lt_of_le_of_lt hi h) (zero_lt_of_lt h) hslot) (succ_ne_zero i)

/-- **Unrolling**: the slots from `first` to the end, and then those before it, are copied to the
beginning. -/
theorem contents_unroll {n' : Nat} {slots' : Nat → α} (hfirst : first < n) (hlen : len ≤ n)
    (hn : n ≤ n')
    (hcopy : ∀ i < n, slots' i = if i < n - first then slots (first + i) else slots
      (i - (n - first))) :
    contents n' slots' 0 len = contents n slots first len := by
  refine contents_congr fun i hi => ?_
  rw [zero_add, mod_eq_of_lt (by omega), hcopy i (by omega)]
  split_ifs with h
  · rw [mod_eq_of_lt (by omega)]
  · rw [mod_eq_sub_mod (by omega), mod_eq_of_lt (by omega)]
    congr 1
    omega

end CharmRuntime.Lib.RingBuffer
