import CharmRuntime.Util.BitVectorSound

/-!
# Util.BitCompare

`CkBitVector::Compare` and the six operators made from it. `Compare` goes over the
words that both vectors have, as unsigned numbers, and falls back on the lengths; with
zero padding this is the lexicographic order of the bit strings from the most
significant bit down, a proper prefix being smaller (`compare_cases`).

Of the operators two are the wrong way round: `<=` is "equal or greater" and `>=` is
"equal or less", so that they agree with `Compare` on equal vectors only.
-/

namespace CharmRuntime.Util

open Lib List

namespace CkBitVector

/-- `operator==`. -/
def opEq (v b : CkBitVector) : Bool := decide (v.compare b = 0)

/-- `operator!=`. -/
def opNe (v b : CkBitVector) : Bool := !(v.opEq b)

/-- `operator<`. -/
def opLt (v b : CkBitVector) : Bool := decide (v.compare b = -1)

/-- `operator>`. -/
def opGt (v b : CkBitVector) : Bool := decide (v.compare b = 1)

/-- `operator<=`. -/
def opLe (v b : CkBitVector) : Bool := v.opEq b || v.opGt b

/-- `operator>=`. -/
def opGe (v b : CkBitVector) : Bool := v.opEq b || v.opLt b

/-- The bit string from the most significant bit down. -/
def bits (v : CkBitVector) : List Bool :=
  (List.range v.length).map (fun j => v.test (v.length - 1 - j))

/-! ### The loop -/

theorem compareLoop_cases : ∀ (xs ys : List Word) (r : Int), xs.length = ys.length →
    (∃ i < xs.length, (∀ k < i, xs.getD k 0#32 = ys.getD k 0#32) ∧
      xs.getD i 0#32 < ys.getD i 0#32 ∧ compareLoop xs ys r = -1) ∨
    (∃ i < xs.length, (∀ k < i, ys.getD k 0#32 = xs.getD k 0#32) ∧
      ys.getD i 0#32 < xs.getD i 0#32 ∧ compareLoop xs ys r = 1) ∨
    ((∀ k < xs.length, xs.getD k 0#32 = ys.getD k 0#32) ∧ compareLoop xs ys r = r) := by
  intro xs
  induction xs with
  | nil =>
    intro ys r _
    exact .inr (.inr ⟨fun k hk => absurd hk (Nat.not_lt_zero k), rfl⟩)
  | cons x xs ih =>
    intro ys r hlen
    cases ys with
    | nil => simp at hlen
    | cons y ys =>
      have hlen' : xs.length = ys.length := by simpa using hlen
      by_cases hgt : x > y
      · exact .inr (.inl ⟨0, Nat.succ_pos _, fun k hk => absurd hk (Nat.not_lt_zero k), hgt,
          by rw [compareLoop, if_pos hgt]⟩)
      by_cases hlt : x < y
      · exact .inl ⟨0, Nat.succ_pos _, fun k hk => absurd hk (Nat.not_lt_zero k), hlt,
          by rw [compareLoop, if_neg hgt, if_pos hlt]⟩
      have hxy : x = y := BitVec.le_antisymm (BitVec.not_lt.mp hgt) (BitVec.not_lt.mp hlt)
      have hloop : compareLoop (x :: xs) (y :: ys) r = compareLoop xs ys r := by
        rw [compareLoop, if_neg hgt, if_neg hlt]
      rw [hloop]
      -- the rest decides, one word further on
      rcases ih ys r hlen' with ⟨i, hi, heq, h⟩ | ⟨i, hi, heq, h⟩ | ⟨heq, h⟩
      · refine .inl ⟨i + 1, Nat.succ_lt_succ hi, fun k hk => ?_, h⟩
        cases k with
        | zero => exact hxy
        | succ k => exact heq k (Nat.lt_of_succ_lt_succ hk)
      · refine .inr (.inl ⟨i + 1, Nat.succ_lt_succ hi, fun k hk => ?_, h⟩)
        cases k with
        | zero => exact hxy.symm
        | succ k => exact heq k (Nat.lt_of_succ_lt_succ hk)
      · refine .inr (.inr ⟨fun k hk => ?_, h⟩)
        cases k with
        | zero => exact hxy
        | succ k => exact heq k (Nat.lt_of_succ_lt_succ hk)

/-! ### The order of the bit strings -/

section Order

variable {v b c : CkBitVector}

theorem Wf.bits_eq (h : v.Wf) : v.bits = (List.range v.usedBits).map (bitAt v.data) := by
  apply map_congr_left
  intro j hj
  have hj' : j < v.usedBits := mem_range.mp hj
  unfold length
  rw [test_eq h.bound (by omega)]
  congr 1
  omega

/-- A first difference in the array puts the strings in order, also when it lies in the
padding of the shorter one. -/
theorem bits_lt_of_before (h : v.Wf) (hb : b.Wf) {n : Nat}
    (hbefore : Before (bitAt v.data) (bitAt b.data) n) : v.bits < b.bits := by
  obtain ⟨t, -, hsame, hv, hbt⟩ := hbefore
  have htb : t < b.usedBits := by
    by_contra hge
    rw [hb.padding t (Nat.le_of_not_lt hge)] at hbt
    exact absurd hbt Bool.false_ne_true
  rw [h.bits_eq, hb.bits_eq, list_lt_iff]
  by_cases htv : t < v.usedBits
  · exact .inr ⟨t, by omega, hsame, hv, hbt⟩
  · exact .inl ⟨fun s hs => hsame s (by omega), by omega⟩

theorem bits_lt_of_agree (h : v.Wf) (hb : b.Wf) (hlt : v.usedBits < b.usedBits)
    (heq : ∀ s < v.usedBits, bitAt v.data s = bitAt b.data s) : v.bits < b.bits := by
  rw [h.bits_eq, hb.bits_eq, list_lt_iff]
  exact .inl ⟨heq, hlt⟩

theorem bits_eq_of_agree (h : v.Wf) (hb : b.Wf) (hlen : v.usedBits = b.usedBits)
    (heq : ∀ s < v.usedBits, bitAt v.data s = bitAt b.data s) : v.bits = b.bits := by
  rw [h.bits_eq, hb.bits_eq, hlen]
  apply map_congr_left
  intro s hs
  exact heq s (hlen ▸ mem_range.mp hs)

/-- The three ways out of the loop over the words below `m`, read as orders of the
strings. -/
theorem compareLoop_bits (h : v.Wf) (hb : b.Wf) {m : Nat} (hmv : m ≤ v.data.length)
    (hmb : m ≤ b.data.length) (r : Int) :
    (v.bits < b.bits ∧ compareLoop (v.data.take m) (b.data.take m) r = -1) ∨
    (b.bits < v.bits ∧ compareLoop (v.data.take m) (b.data.take m) r = 1) ∨
    ((∀ s < 32 * m, bitAt v.data s = bitAt b.data s) ∧
      compareLoop (v.data.take m) (b.data.take m) r = r) := by
  have hlv : (v.data.take m).length = m := by rw [length_take]; omega
  have hlb : (b.data.take m).length = m := by rw [length_take]; omega
  have hgv : ∀ k < m, (v.data.take m).getD k 0#32 = v.data.getD k 0#32 := by
    intro k hk
    rw [getD_eq_getElem?_getD, getElem?_take_of_lt hk, ← getD_eq_getElem?_getD]
  have hgb : ∀ k < m, (b.data.take m).getD k 0#32 = b.data.getD k 0#32 := by
    intro k hk
    rw [getD_eq_getElem?_getD, getElem?_take_of_lt hk, ← getD_eq_getElem?_getD]
  rcases compareLoop_cases (v.data.take m) (b.data.take m) r (hlv.trans hlb.symm) with
    ⟨i, hi, heq, hlt, hres⟩ | ⟨i, hi, heq, hlt, hres⟩ | ⟨heq, hres⟩
  · rw [hlv] at hi
    rw [hgv i hi, hgb i hi] at hlt
    refine .inl ⟨bits_lt_of_before h hb (before_words hi (fun k hk => ?_) hlt), hres⟩
    rw [← hgv k (by omega), ← hgb k (by omega), heq k hk]
  · rw [hlv] at hi
    rw [hgv i hi, hgb i hi] at hlt
    refine .inr (.inl ⟨bits_lt_of_before hb h (before_words hi (fun k hk => ?_) hlt), hres⟩)
    rw [← hgv k (by omega), ← hgb k (by omega), heq k hk]
  · refine .inr (.inr ⟨fun s hs => agree_words (fun k hk => ?_) hs, hres⟩)
    rw [← hgv k hk, ← hgb k hk, heq k (hlv.symm ▸ hk)]

/-- **`Compare` is the lexicographic comparison.** -/
theorem compare_cases (h : v.Wf) (hb : b.Wf) :
    (v.bits < b.bits ∧ v.compare b = -1) ∨ (b.bits < v.bits ∧ v.compare b = 1) ∨
      (v.bits = b.bits ∧ v.compare b = 0) := by
  have hcv := chunks_eq h.bound
  have hcb := chunks_eq hb.bound
  have hsv := h.size
  have hsb := hb.size
  unfold compare
  by_cases hgt : v.usedBits > b.usedBits
  · rw [if_pos hgt]
    rcases compareLoop_bits h hb (m := chunks b.usedBits) (by omega) (by omega) 1 with
      hlt | hlt | ⟨heq, hres⟩
    · exact .inl hlt
    · exact .inr (.inl hlt)
    · exact .inr (.inl ⟨bits_lt_of_agree hb h hgt (fun s hs => (heq s (by omega)).symm), hres⟩)
  by_cases hlt : v.usedBits < b.usedBits
  · rw [if_neg hgt, if_pos hlt]
    rcases compareLoop_bits h hb (m := chunks v.usedBits) (by omega) (by omega) (-1) with
      hless | hless | ⟨heq, hres⟩
    · exact .inl hless
    · exact .inr (.inl hless)
    · exact .inl ⟨bits_lt_of_agree h hb hlt (fun s hs => heq s (by omega)), hres⟩
  · have hlen : v.usedBits = b.usedBits := by omega
    rw [if_neg hgt, if_neg hlt]
    rcases compareLoop_bits h hb (m := chunks v.usedBits) (by omega) (by omega) 0 with
      hless | hless | ⟨heq, hres⟩
    · exact .inl hless
    · exact .inr (.inl hless)
    · exact .inr (.inr ⟨bits_eq_of_agree h hb hlen (fun s hs => heq s (by omega)), hres⟩)

end Order

/-! ### The operators -/

/-- `Compare` is the lexicographic comparison on these two vectors. -/
structure Lexicographic (v b : CkBitVector) : Prop where
  lt : v.compare b = -1 ↔ v.bits < b.bits
  gt : v.compare b = 1 ↔ b.bits < v.bits
  eq : v.compare b = 0 ↔ v.bits = b.bits

/-- `Compare` orders these vectors totally. -/
structure OrderLaws (a b c : CkBitVector) : Prop where
  refl : a.compare a = 0
  antisymm : a.compare b ≤ 0 → b.compare a ≤ 0 → a.bits = b.bits
  trans : a.compare b ≤ 0 → b.compare c ≤ 0 → a.compare c ≤ 0
  total : a.compare b ≤ 0 ∨ b.compare a ≤ 0

/-- The six operators agree with `Compare` on these two vectors. -/
structure OperatorsAgree (a b : CkBitVector) : Prop where
  lt : a.opLt b = true ↔ a.compare b = -1
  gt : a.opGt b = true ↔ a.compare b = 1
  eq : a.opEq b = true ↔ a.compare b = 0
  ne : a.opNe b = true ↔ a.compare b ≠ 0
  le : a.opLe b = true ↔ (a.opLt b = true ∨ a.opEq b = true)
  ge : a.opGe b = true ↔ (a.opGt b = true ∨ a.opEq b = true)

section Operators

variable {a b c : CkBitVector}

theorem lexicographic_of_wf (ha : a.Wf) (hb : b.Wf) : Lexicographic a b := by
  rcases compare_cases ha hb with ⟨hlt, h⟩ | ⟨hlt, h⟩ | ⟨heq, h⟩
  · refine ⟨by simp [h, hlt], ?_, ?_⟩
    · simp [h, le_of_lt hlt]
    · simp [h, hlt.ne]
  · refine ⟨?_, by simp [h, hlt], ?_⟩
    · simp [h, le_of_lt hlt]
    · simp [h, hlt.ne']
  · refine ⟨?_, ?_, by simp [h, heq]⟩
    · simp [h, heq]
    · simp [h, heq]

theorem compare_le_zero_iff (ha : a.Wf) (hb : b.Wf) : a.compare b ≤ 0 ↔ a.bits ≤ b.bits := by
  rcases compare_cases ha hb with ⟨hlt, h⟩ | ⟨hlt, h⟩ | ⟨heq, h⟩
  · simp [h, le_of_lt hlt]
  · simp [h, hlt]
  · simp [h, heq]

theorem orderLaws_of_wf (ha : a.Wf) (hb : b.Wf) (hc : c.Wf) : OrderLaws a b c := by
  refine ⟨(lexicographic_of_wf ha ha).eq.mpr rfl, ?_, ?_, ?_⟩
  · rw [compare_le_zero_iff ha hb, compare_le_zero_iff hb ha]
    exact le_antisymm
  · rw [compare_le_zero_iff ha hb, compare_le_zero_iff hb hc, compare_le_zero_iff ha hc]
    exact le_trans
  · rw [compare_le_zero_iff ha hb, compare_le_zero_iff hb ha]
    exact le_total _ _

/-- The operators agree with `Compare` exactly where it is zero. -/
theorem operatorsAgree_iff_compare (ha : a.Wf) (hb : b.Wf) :
    OperatorsAgree a b ↔ a.compare b = 0 := by
  constructor
  · intro h
    have hle := h.le
    simp only [opLe, opLt, opGt, opEq, Bool.or_eq_true] at hle
    rcases compare_cases ha hb with ⟨-, hc⟩ | ⟨-, hc⟩ | ⟨-, hc⟩
    · rw [hc] at hle
      exact absurd (hle.mpr (.inl rfl)) (by decide)
    · rw [hc] at hle
      exact absurd (hle.mp (.inr rfl)) (by decide)
    · exact hc
  · intro h
    refine ⟨?_, ?_, ?_, ?_, ?_, ?_⟩
    all_goals simp [opLe, opGe, opLt, opGt, opEq, opNe, h]

/-- **`Compare` is the lexicographic total order, and the operators agree with it exactly
on equal vectors.** -/
theorem operators_agree_iff (a b c : CkBitVector) (ha : a.Wf) (hb : b.Wf) (hc : c.Wf) :
    Lexicographic a b ∧ OrderLaws a b c ∧ (OperatorsAgree a b ↔ a.bits = b.bits) := by
  refine ⟨lexicographic_of_wf ha hb, orderLaws_of_wf ha hb hc, ?_⟩
  rw [operatorsAgree_iff_compare ha hb, (lexicographic_of_wf ha hb).eq]

end Operators

/-- The string `10`, the string `100`, and 34 ones. -/
theorem operators_agree_iff_strings :
    Lexicographic ⟨2, [0x80000000#32]⟩ ⟨3, [0x80000000#32]⟩ ∧
      OrderLaws ⟨2, [0x80000000#32]⟩ ⟨3, [0x80000000#32]⟩ ⟨34, [0xFFFFFFFF#32, 0xC0000000#32]⟩ ∧
      ¬ OperatorsAgree ⟨2, [0x80000000#32]⟩ ⟨3, [0x80000000#32]⟩ ∧
      OperatorsAgree ⟨34, [0xFFFFFFFF#32, 0xC0000000#32]⟩ ⟨34, [0xFFFFFFFF#32, 0xC0000000#32]⟩ := by
  have hten : CkBitVector.Wf ⟨2, [0x80000000#32]⟩ := by
    obtain ⟨v, hset, hv, -⟩ :=
      set_spec (i := 1) (ofSize_wf (show 2 < sizeLimit by decide)).1 (by decide) (by decide)
    cases hset
    exact hv
  have hhundred : CkBitVector.Wf ⟨3, [0x80000000#32]⟩ := by
    obtain ⟨v, hset, hv, -⟩ :=
      set_spec (i := 2) (ofSize_wf (show 3 < sizeLimit by decide)).1 (by decide) (by decide)
    cases hset
    exact hv
  have hones : CkBitVector.Wf ⟨34, [0xFFFFFFFF#32, 0xC0000000#32]⟩ :=
    (invert_spec (ofSize_wf (show 34 < sizeLimit by decide)).1).1
  obtain ⟨hlex, hlaws, hagree⟩ := operators_agree_iff _ _ _ hten hhundred hones
  exact ⟨hlex, hlaws, fun h => absurd (congrArg List.length (hagree.mp h)) (by decide),
    (operators_agree_iff _ _ _ hones hones hten).2.2.mpr rfl⟩

/-- The string `0` is less than the string `1`, but `0 <= 1` is false. -/
theorem le_is_ge :
    ofChoice 1 2 = .ok ⟨1, [0x80000000#32]⟩ ∧
      (ofSize 1).compare ⟨1, [0x80000000#32]⟩ = -1 ∧
      (ofSize 1).opLe ⟨1, [0x80000000#32]⟩ = false ∧
      ¬ OperatorsAgree (ofSize 1) ⟨1, [0x80000000#32]⟩ := by
  refine ⟨by rfl, by decide, by decide, ?_⟩
  intro h
  exact absurd (h.le.mpr (.inl (by decide))) (by decide)

end CkBitVector

end CharmRuntime.Util
