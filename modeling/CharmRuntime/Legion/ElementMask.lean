import Mathlib.Algebra.Order.Group.Nat
import Mathlib.Data.BitVec

/-!
# Legion.ElementMask

`ElementMask`: **a set of elements as bits** in words of 64, with the positions of the first and of
the last element that were enabled, as far as the calls keep track of them. `find_disabled` looks
for a run of elements that are not in the set. Elements are counted from 0 (`first_element`), and
the words are in memory (`raw_data`).
-/

namespace CharmRuntime.Legion

open List Bool

structure ElementMask where
  num_elements : Nat
  /-- `impl->bits`. -/
  bits : Nat → BitVec 64
  first_enabled_elmt : Int
  last_enabled_elmt : Int

namespace ElementMask

def new (num_elements : Nat) : ElementMask where
  num_elements := num_elements
  bits _ := 0
  first_enabled_elmt := -1
  last_enabled_elmt := -1

/-- The bit of a position. -/
def isSet (m : ElementMask) (pos : Nat) : Bool := (m.bits (pos >>> 6) >>> (pos &&& 0x3f) &&& 1) = 1

def setBit (m : ElementMask) (pos : Nat) : ElementMask :=
  { m with bits := Function.update m.bits (pos >>> 6) (m.bits (pos >>> 6) |||
    (1#64 <<< (pos &&& 0x3f))) }

def clearBit (m : ElementMask) (pos : Nat) : ElementMask :=
  { m with bits := Function.update m.bits (pos >>> 6) (m.bits (pos >>> 6) &&&
    ~~~(1#64 <<< (pos &&& 0x3f))) }

def enable (m : ElementMask) (start count : Nat) : ElementMask :=
  let m := (List.range count).foldl (fun m i => m.setBit (start + i)) m
  { m with
    first_enabled_elmt :=
      if m.first_enabled_elmt < 0 ∨
        start < m.first_enabled_elmt then start else m.first_enabled_elmt
    last_enabled_elmt :=
      if m.last_enabled_elmt < 0 ∨ m.last_enabled_elmt < start + count - 1 then start + count -
        1 else m.last_enabled_elmt }

def disable (m : ElementMask) (start count : Nat) : ElementMask :=
  let m := (List.range count).foldl (fun m i => m.clearBit (start + i)) m
  { m with
    first_enabled_elmt := if (start : Int) = m.first_enabled_elmt then m.first_enabled_elmt +
      1 else m.first_enabled_elmt }

/-- The inner loop of `find_disabled`: the start of a run of `count`, or where the run breaks. -/
def scanRun (m : ElementMask) (count pos run : Nat) : Nat ⊕ Nat :=
  if m.isSet pos then .inr pos
  else if count ≤ run + 1 then .inl (pos + 1 - (run + 1))
  else scanRun m count (pos + 1) (run + 1)
termination_by count - run

variable (m : ElementMask) {count pos : Nat}

theorem le_of_scanRun {run pos' : Nat} (h : m.scanRun count pos run = .inr pos') : pos ≤ pos' := by
  fun_induction m.scanRun count pos run with
  | case1 => exact le_of_eq (Sum.inr.inj h)
  | case2 => cases h
  | case3 _ _ _ _ ih => exact Nat.le_of_succ_le (ih h)

/-- The outer loop of `find_disabled`. -/
def findFrom (m : ElementMask) (count pos : Nat) : Option Nat :=
  if pos + count ≤ m.num_elements then
    match h : m.scanRun count pos 0 with
    | .inl start => some start
    | .inr pos' => findFrom m count (pos' + 1)
  else none
termination_by m.num_elements + 1 - pos
decreasing_by
  have hle := m.le_of_scanRun h
  omega

/-- `find_disabled(count)`, where `none` is -1. -/
def findDisabled (m : ElementMask) (count : Nat) : Option Nat :=
  m.findFrom count (if 0 < m.first_enabled_elmt then m.first_enabled_elmt.toNat else 0)

/-! ### Bits -/

theorem shift_six (pos : Nat) : pos >>> 6 = pos / 64 := Nat.shiftRight_eq_div_pow pos 6

theorem and_ones_six (pos : Nat) : pos &&& 0x3f = pos % 64 := Nat.and_two_pow_sub_one_eq_mod pos 6

/-- The bit of a position, in words of 64. -/
def lsbAt (word : Nat → BitVec 64) (pos : Nat) : Bool := (word (pos / 64)).getLsbD (pos % 64)

theorem isSet_eq (pos : Nat) : m.isSet pos = lsbAt m.bits pos := by
  have hbit (x : BitVec 64) (t : Nat) : decide ((x >>> t &&& 1) = 1) = x.getLsbD t := by
    rw [Bool.eq_iff_iff, decide_eq_true_iff]
    constructor
    · intro h
      have hzero := congrArg (fun y => y.getLsbD 0) h
      simpa using hzero
    · intro h
      ext s -
      obtain rfl | hpos := eq_zero_or_pos s
      · simpa using h
      · simp [ne_of_gt hpos]
  unfold isSet
  rw [shift_six, and_ones_six]
  exact hbit _ _

theorem getLsbD_single {t s : Nat} (ht : t < 64) : (1#64 <<< t).getLsbD s = decide (s = t) := by
  by_cases h : s = t
  · simp [h, ht]
  · grind

theorem eq_of_div_mod {j : Nat} (hdiv : j / 64 = pos / 64) (hmod : j % 64 = pos % 64) :
    j = pos := by
  omega

@[simp] theorem isSet_setBit (pos j : Nat) :
    (m.setBit pos).isSet j = (decide (j = pos) || m.isSet j) := by
  rw [isSet_eq, isSet_eq]
  unfold setBit lsbAt
  dsimp only
  rw [shift_six, and_ones_six]
  by_cases hdiv : j / 64 = pos / 64
  · rw [hdiv, Function.update_self, BitVec.getLsbD_or, getLsbD_single (Nat.mod_lt _ (by decide))]
    by_cases hj : j = pos
    · simp [hj]
    · have hmod : j % 64 ≠ pos % 64 := fun h => hj (eq_of_div_mod hdiv h)
      simp [hj, hmod]
  · have hj : j ≠ pos := fun h => hdiv (congrArg (· / 64) h)
    rw [Function.update_of_ne hdiv]
    simp [hj]

@[simp] theorem isSet_clearBit (pos j : Nat) :
    (m.clearBit pos).isSet j = (!decide (j = pos) && m.isSet j) := by
  rw [isSet_eq, isSet_eq]
  unfold clearBit lsbAt
  dsimp only
  rw [shift_six, and_ones_six]
  by_cases hdiv : j / 64 = pos / 64
  · have hlt : j % 64 < 64 := Nat.mod_lt _ (by decide)
    rw [hdiv, Function.update_self, BitVec.getLsbD_and, BitVec.getLsbD_not,
      getLsbD_single (Nat.mod_lt _ (by decide))]
    by_cases hj : j = pos
    · simp [hj]
    · have hmod : j % 64 ≠ pos % 64 := fun h => hj (eq_of_div_mod hdiv h)
      simp [hj, hmod, hlt]
  · have hj : j ≠ pos := fun h => hdiv (congrArg (· / 64) h)
    rw [Function.update_of_ne hdiv]
    simp [hj]

@[simp] theorem isSet_new (n j : Nat) : (new n).isSet j = false := by
  rw [isSet_eq]
  exact BitVec.getLsbD_zero

/-! ### `enable` and `disable` -/

@[simp] theorem enable_num_elements (start count : Nat) :
    (m.enable start count).num_elements = m.num_elements := by
  unfold enable
  induction count with
  | zero => rfl
  | succ count ih => rw [range_succ, foldl_append]; exact ih

@[simp] theorem disable_num_elements (start count : Nat) :
    (m.disable start count).num_elements = m.num_elements := by
  unfold disable
  induction count with
  | zero => rfl
  | succ count ih => rw [range_succ, foldl_append]; exact ih

@[simp] theorem isSet_enable (start count j : Nat) :
    (m.enable start count).isSet j = (decide (start ≤ j ∧ j < start + count) || m.isSet j) := by
  change ((range count).foldl (fun m i => m.setBit (start + i)) m).isSet j = _
  induction count with
  | zero =>
    have hnone : ¬ (start ≤ j ∧ j < start + 0) := by omega
    rw [decide_eq_false hnone, Bool.false_or, range_zero, foldl_nil]
  | succ count ih =>
    rw [range_succ, foldl_append, foldl_cons, foldl_nil, isSet_setBit, ih, ← Bool.or_assoc]
    congr 1
    rw [Bool.eq_iff_iff]
    simp only [or_eq_true, decide_eq_true_iff]
    omega

@[simp] theorem isSet_disable (start count j : Nat) :
    (m.disable start count).isSet j = (!decide (start ≤ j ∧ j < start + count) && m.isSet j) := by
  change ((range count).foldl (fun m i => m.clearBit (start + i)) m).isSet j = _
  induction count with
  | zero =>
    have hnone : ¬ (start ≤ j ∧ j < start + 0) := by omega
    rw [decide_eq_false hnone, Bool.not_false, Bool.true_and, range_zero, foldl_nil]
  | succ count ih =>
    rw [range_succ, foldl_append, foldl_cons, foldl_nil, isSet_clearBit, ih, ← Bool.and_assoc]
    congr 1
    rw [Bool.eq_iff_iff]
    simp only [and_eq_true, not_eq_true', decide_eq_false_iff_not]
    omega

/-- The masks that calls within range build. -/
inductive Built (n : Nat) : ElementMask → Prop
  | new : Built n (new n)
  | enable {m : ElementMask} (start count : Nat) :
      Built n m → start < n → start + count ≤ n → Built n (m.enable start count)
  | disable {m : ElementMask} (start count : Nat) :
      Built n m → start < n → start + count ≤ n → Built n (m.disable start count)

theorem Built.num_elements {n : Nat} {m : ElementMask} (h : Built n m) : m.num_elements = n := by
  induction h with
  | new => rfl
  | enable _ _ _ _ _ ih => rw [enable_num_elements, ih]
  | disable _ _ _ _ _ ih => rw [disable_num_elements, ih]

theorem Built.isSet_of_le {n : Nat} {m : ElementMask} (h : Built n m) {j : Nat} (hj : n ≤ j) :
    m.isSet j = false := by
  induction h with
  | new => exact isSet_new n j
  | enable start count _ _ hle ih =>
    have hout : ¬ (start ≤ j ∧ j < start + count) := by omega
    rw [isSet_enable, ih, decide_eq_false hout, Bool.or_false]
  | disable _ _ _ _ _ ih => rw [isSet_disable, ih, Bool.and_false]

/-! ### `find_disabled` -/

theorem scanRun_inl {run start : Nat} (hpos : run ≤ pos)
    (h : m.scanRun count pos run = .inl start) :
    start + run = pos ∧ ∀ j, pos ≤ j → j < start + count → m.isSet j = false := by
  fun_induction m.scanRun count pos run with
  | case1 => cases h
  | case2 pos run hclear hcount =>
    obtain rfl := Sum.inl.inj h
    refine ⟨by omega, fun j hle hlt => ?_⟩
    obtain rfl : j = pos := by omega
    exact eq_false_of_not_eq_true hclear
  | case3 pos run hclear hcount ih =>
    obtain ⟨hstart, hrest⟩ := ih (by omega) h
    refine ⟨by omega, fun j hle hlt => ?_⟩
    obtain rfl | hne := eq_or_lt_of_le hle
    exacts [eq_false_of_not_eq_true hclear, hrest j hne hlt]

theorem scanRun_inr {run pos' : Nat} (hrun : run < count)
    (h : m.scanRun count pos run = .inr pos') : m.isSet pos' = true ∧ pos' + run < pos + count := by
  fun_induction m.scanRun count pos run with
  | case1 pos run hset =>
    obtain rfl := Sum.inr.inj h
    exact ⟨hset, by omega⟩
  | case2 => cases h
  | case3 pos run hclear hcount ih =>
    obtain ⟨hset, hlt⟩ := ih (by omega) h
    exact ⟨hset, by omega⟩

theorem findFrom_some {start : Nat} (h : m.findFrom count pos = some start) :
    pos ≤ start ∧ start + count ≤ m.num_elements ∧ ∀ j, start ≤ j → j < start + count →
    m.isSet j = false := by
  fun_induction m.findFrom count pos with
  | case1 pos hle start' hscan =>
    obtain rfl := Option.some.inj h
    obtain ⟨heq, hclear⟩ := m.scanRun_inl (Nat.zero_le pos) hscan
    obtain rfl : start' = pos := heq
    exact ⟨le_refl _, hle, hclear⟩
  | case2 pos hle pos' hscan ih =>
    have hpos := m.le_of_scanRun hscan
    obtain ⟨hstart, hrest⟩ := ih h
    exact ⟨by omega, hrest⟩
  | case3 => cases h

theorem findFrom_none (hcount : 1 ≤ count) (h : m.findFrom count pos = none) {p : Nat}
    (hp : pos ≤ p) (hle : p + count ≤ m.num_elements) :
    ∃ j, p ≤ j ∧ j < p + count ∧ m.isSet j = true := by
  fun_induction m.findFrom count pos with
  | case1 => cases h
  | case2 pos _ pos' hscan ih =>
    obtain ⟨hset, hlt⟩ := m.scanRun_inr hcount hscan
    -- A run that begins at or before the element that breaks this one has that element.
    obtain hbehind | hover := lt_or_ge pos' p
    · exact ih h hbehind
    · exact ⟨pos', hover, by omega, hset⟩
  | case3 pos hshort => omega

end ElementMask

end CharmRuntime.Legion
