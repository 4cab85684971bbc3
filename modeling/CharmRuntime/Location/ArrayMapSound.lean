import CharmRuntime.Location.ArrayMap

/-!
# Location.ArrayMapSound

**The initial elements of an array over the PEs.** The loops of `populateInitial` go through the
indices of the array in the order of their flattened numbers (`map_rowMajor_indices`), and the map
places an element by this number. So all that is counted over the indices is counted over the
numbers, and there the splits are even (`mapped_evenly`).
-/

namespace CharmRuntime.Location

open Lib CharmRuntime.Lib.EvenSplit CkArrayIndex List BitVec Int
open Except (ok)

/-- The number of elements. -/
def CkArrayIndex.size (n : CkArrayIndex) : Int := ((List.range n.dimension).map n.component).prod

/-- The number of an index, row by row. -/
def rowMajor (n idx : CkArrayIndex) : Int :=
  (List.range n.dimension).foldl (fun flat k => flat * n.component k + idx.component k) 0

/-- The sizes of an array of one to three dimensions. -/
structure Sizes (n : CkArrayIndex) : Prop where
  standard : Standard n
  dimension_le : n.dimension ≤ 3
  nonneg : ∀ k < n.dimension, 0 ≤ n.component k
  size_lt : n.size < 2 ^ 31

/-! ### Sizes and indices as numbers -/

section

variable {num dims : Nat} {x y z : BitVec 32}

@[simp] theorem data_init_zero : (init num dims x y z).data 0 = x.toInt := by
  rw [data, index_init_zero]

@[simp] theorem data_init_one : (init num dims x y z).data 1 = y.toInt := by
  rw [data, index_init_one]

@[simp] theorem data_init_two : (init num dims x y z).data 2 = z.toInt := by
  rw [data, index_init_two]

end

variable {a : Nat} {x : BitVec 32} {n : CkArrayIndex} {size : Nat}

theorem toInt_ofNat (h : a < 2 ^ 31) : (BitVec.ofNat 32 a).toInt = a := by
  rw [toInt_eq_toNat_of_lt]
  · rw [toNat_ofNat, Nat.mod_eq_of_lt (by omega)]
  · rw [toNat_ofNat]
    omega

/-- An `int` that is not negative. -/
theorem exists_eq_ofNat (h : 0 ≤ x.toInt) : ∃ a, a < 2 ^ 31 ∧ x = BitVec.ofNat 32 a := by
  have hcast := toNat_eq_of_toInt_nonneg h
  have hlt := toInt_lt (x := x)
  refine ⟨x.toNat, ?_, (ofNat_toNat 32 x).symm ▸ by simp⟩
  omega

/-- Sizes as numbers, and the number of elements. -/
inductive Shape : CkArrayIndex → Nat → Prop
  | d1 {a : Nat} : a < 2 ^ 31 → Shape (index1D (BitVec.ofNat 32 a)) a
  | d2 {a b : Nat} :
      a < 2 ^ 31 → b < 2 ^ 31 → Shape (index2D (BitVec.ofNat 32 a) (BitVec.ofNat 32 b)) (a * b)
  | d3 {a b c : Nat} : a < 2 ^ 31 → b < 2 ^ 31 → c < 2 ^ 31 →
      Shape (index3D (BitVec.ofNat 32 a) (BitVec.ofNat 32 b) (BitVec.ofNat 32 c)) (a * b * c)

theorem CkArrayIndex.Standard.shape (hstandard : Standard n) (hdim : n.dimension ≤ 3)
    (hnonneg : ∀ k < n.dimension, 0 ≤ n.component k) : ∃ size, Shape n size ∧ n.size = size := by
  cases hstandard with
  | d1 i0 =>
    have h0 : 0 ≤ i0.toInt := by simpa [component, index1D] using hnonneg 0 (by simp [index1D])
    obtain ⟨a, ha, rfl⟩ := exists_eq_ofNat h0
    exact ⟨a, .d1 ha, by simp [size, component, index1D, toInt_ofNat ha]⟩
  | d2 i0 i1 =>
    have h0 : 0 ≤ i0.toInt := by simpa [component, index2D] using hnonneg 0 (by simp [index2D])
    have h1 : 0 ≤ i1.toInt := by simpa [component, index2D] using hnonneg 1 (by simp [index2D])
    obtain ⟨a, ha, rfl⟩ := exists_eq_ofNat h0
    obtain ⟨b, hb, rfl⟩ := exists_eq_ofNat h1
    exact ⟨a * b,
      .d2 ha hb, by simp [size, component, index2D, toInt_ofNat ha, toInt_ofNat hb, range_succ]⟩
  | d3 i0 i1 i2 =>
    have h0 : 0 ≤ i0.toInt := by simpa [component, index3D] using hnonneg 0 (by simp [index3D])
    have h1 : 0 ≤ i1.toInt := by simpa [component, index3D] using hnonneg 1 (by simp [index3D])
    have h2 : 0 ≤ i2.toInt := by simpa [component, index3D] using hnonneg 2 (by simp [index3D])
    obtain ⟨a, ha, rfl⟩ := exists_eq_ofNat h0
    obtain ⟨b, hb, rfl⟩ := exists_eq_ofNat h1
    obtain ⟨c, hc, rfl⟩ := exists_eq_ofNat h2
    exact ⟨a * b * c, .d3 ha hb hc,
      by simp [size, component, index3D, toInt_ofNat ha, toInt_ofNat hb, toInt_ofNat hc,
      range_succ, mul_assoc]⟩
  | d4 | d5 | d6 => exact absurd hdim (by simp [initShorts])

theorem exists_lt_of_lt (h : 0 ≤ x.toInt) (hlt : x.toInt < a) :
    ∃ i, i < a ∧ x = BitVec.ofNat 32 i := by
  obtain ⟨i, hi, rfl⟩ := exists_eq_ofNat h
  exact ⟨i, ofNat_lt.mp (toInt_ofNat hi ▸ hlt), rfl⟩

/-! ### The indices of an array -/

/-- The indices that the loops go through, in order. -/
def indices (n : CkArrayIndex) : List CkArrayIndex :=
  (List.range (n.data 0).toNat).flatMap fun i1 =>
    if n.dimension = 1 then [index1D (BitVec.ofNat 32 i1)]
    else (List.range (n.data 1).toNat).flatMap fun i2 =>
      if n.dimension = 2 then [index2D (BitVec.ofNat 32 i1) (BitVec.ofNat 32 i2)]
      else (List.range (n.data 2).toNat).flatMap fun i3 =>
        [index3D (BitVec.ofNat 32 i1) (BitVec.ofNat 32 i2) (BitVec.ofNat 32 i3)]

section

variable {a b c : Nat}

theorem indices_d1 (ha : a < 2 ^ 31) :
    indices (index1D (BitVec.ofNat 32 a)) = (List.range a).map fun i =>
    index1D (BitVec.ofNat 32 i) := by
  simp [indices, index1D, toInt_ofNat ha, map_eq_flatMap]

theorem indices_d2 (ha : a < 2 ^ 31) (hb : b < 2 ^ 31) :
    indices (index2D (BitVec.ofNat 32 a) (BitVec.ofNat 32 b)) =
      (List.range a).flatMap fun i => (List.range b).map fun j => index2D (BitVec.ofNat 32 i)
        (BitVec.ofNat 32 j) := by
  simp [indices, index2D, toInt_ofNat ha, toInt_ofNat hb, map_eq_flatMap]

theorem indices_d3 (ha : a < 2 ^ 31) (hb : b < 2 ^ 31) (hc : c < 2 ^ 31) :
    indices (index3D (BitVec.ofNat 32 a) (BitVec.ofNat 32 b) (BitVec.ofNat 32 c)) =
      (List.range a).flatMap fun i => (List.range b).flatMap fun j => (List.range c).map fun k =>
        index3D (BitVec.ofNat 32 i) (BitVec.ofNat 32 j) (BitVec.ofNat 32 k) := by
  simp [indices, index3D, toInt_ofNat ha, toInt_ofNat hb, toInt_ofNat hc, map_eq_flatMap]

variable {i : Nat} {n : CkArrayIndex} {size : Nat}

theorem rowMajor_d1 (hi : i < 2 ^ 31) (n : BitVec 32) :
    rowMajor (index1D n) (index1D (BitVec.ofNat 32 i)) = i := by
  simp [rowMajor, component, index1D, toInt_ofNat hi]

theorem rowMajor_d2 {j : Nat} (hi : i < 2 ^ 31) (hj : j < 2 ^ 31) (hb : b < 2 ^ 31)
    (n : BitVec 32) :
    rowMajor (index2D n (BitVec.ofNat 32 b)) (index2D (BitVec.ofNat 32 i) (BitVec.ofNat 32 j)) =
    (i * b + j : Nat) := by
  simp [rowMajor, component, index2D, toInt_ofNat hi, toInt_ofNat hj, toInt_ofNat hb, range_succ]

theorem rowMajor_d3 {j k : Nat} (hi : i < 2 ^ 31) (hj : j < 2 ^ 31) (hk : k < 2 ^ 31)
    (hb : b < 2 ^ 31) (hc : c < 2 ^ 31)
    (n : BitVec 32) :
    rowMajor (index3D n (BitVec.ofNat 32 b) (BitVec.ofNat 32 c))
      (index3D (BitVec.ofNat 32 i) (BitVec.ofNat 32 j) (BitVec.ofNat 32 k)) =
      ((i * b + j) * c + k : Nat) := by
  simp [rowMajor, component, index3D, toInt_ofNat hi, toInt_ofNat hj, toInt_ofNat hk,
    toInt_ofNat hb, toInt_ofNat hc, range_succ]

/-- **The loops go through the numbers in order.** -/
theorem map_rowMajor_indices (h : Shape n size) :
    (indices n).map (rowMajor n) = (List.range size).map Nat.cast := by
  cases h with
  | d1 ha =>
    rw [indices_d1 ha, map_map]
    refine map_congr_left fun i hi => ?_
    exact rowMajor_d1 ((mem_range.mp hi).trans ha) _
  | @d2 a b ha hb =>
    rw [indices_d2 ha hb, ← flatMap_range_row, map_flatMap, map_flatMap]
    refine flatMap_congr fun i hi => ?_
    rw [map_map, map_map]
    refine map_congr_left fun j hj => ?_
    exact rowMajor_d2 ((mem_range.mp hi).trans ha) ((mem_range.mp hj).trans hb) hb _
  | @d3 a b c ha hb hc =>
    rw [indices_d3 ha hb hc, ← flatMap_range_row, ← flatMap_range_row, map_flatMap, flatMap_assoc,
      map_flatMap]
    refine flatMap_congr fun i hi => ?_
    rw [map_flatMap, flatMap_map, map_flatMap]
    refine flatMap_congr fun j hj => ?_
    rw [map_map, map_map]
    refine map_congr_left fun k hk => ?_
    exact rowMajor_d3 ((mem_range.mp hi).trans ha) ((mem_range.mp hj).trans hb)
      ((mem_range.mp hk).trans hc)
      hb hc _

theorem nodup_indices (h : Shape n size) : (indices n).Nodup := by
  refine Nodup.of_map (rowMajor n) ?_
  rw [map_rowMajor_indices h]
  exact nodup_range.map ofNat_injective

theorem inBounds_d1 (ha : a < 2 ^ 31) (hi : i < a) :
    InBounds (index1D (BitVec.ofNat 32 a)) (index1D (BitVec.ofNat 32 i)) := by
  have hi' := hi.trans ha
  refine ⟨.d1 _, rfl, fun k hk => ?_, fun k hk => ?_⟩ <;> obtain rfl := Nat.lt_one_iff.mp hk
  · simp [component, index1D, toInt_ofNat hi']
  · simp [component, index1D, toInt_ofNat hi', toInt_ofNat ha, hi]

theorem inBounds_d2 {j : Nat} (ha : a < 2 ^ 31) (hb : b < 2 ^ 31) (hi : i < a) (hj : j < b) :
    InBounds (index2D (BitVec.ofNat 32 a) (BitVec.ofNat 32 b))
      (index2D (BitVec.ofNat 32 i) (BitVec.ofNat 32 j)) := by
  have hi' := hi.trans ha
  have hj' := hj.trans hb
  refine ⟨.d2 _ _, rfl, fun k hk => ?_, fun k hk => ?_⟩ <;> replace hk :
    k < 2 := hk <;> interval_cases k
  · simp [component, index2D, toInt_ofNat hi']
  · simp [component, index2D, toInt_ofNat hj']
  · simp [component, index2D, toInt_ofNat hi', toInt_ofNat ha, hi]
  · simp [component, index2D, toInt_ofNat hj', toInt_ofNat hb, hj]

theorem inBounds_d3 {j l : Nat} (ha : a < 2 ^ 31) (hb : b < 2 ^ 31) (hc : c < 2 ^ 31) (hi : i < a)
    (hj : j < b)
    (hl : l < c) :
    InBounds (index3D (BitVec.ofNat 32 a) (BitVec.ofNat 32 b) (BitVec.ofNat 32 c))
      (index3D (BitVec.ofNat 32 i) (BitVec.ofNat 32 j) (BitVec.ofNat 32 l)) := by
  have hi' := hi.trans ha
  have hj' := hj.trans hb
  have hl' := hl.trans hc
  refine ⟨.d3 _ _ _, rfl, fun k hk => ?_, fun k hk => ?_⟩ <;> replace hk :
    k < 3 := hk <;> interval_cases k
  · simp [component, index3D, toInt_ofNat hi']
  · simp [component, index3D, toInt_ofNat hj']
  · simp [component, index3D, toInt_ofNat hl']
  · simp [component, index3D, toInt_ofNat hi', toInt_ofNat ha, hi]
  · simp [component, index3D, toInt_ofNat hj', toInt_ofNat hb, hj]
  · simp [component, index3D, toInt_ofNat hl', toInt_ofNat hc, hl]

/-- **The indices in bounds.** -/
theorem mem_indices_iff (h : Shape n size) {idx : CkArrayIndex} :
    idx ∈ indices n ↔ InBounds n idx := by
  cases h with
  | d1 ha =>
    rw [indices_d1 ha, mem_map]
    constructor
    · rintro ⟨i, hi, rfl⟩
      exact inBounds_d1 ha (mem_range.mp hi)
    · rintro ⟨hstandard, hdim, hnonneg, hlt⟩
      cases hstandard with
      | d1 x =>
        obtain ⟨i, hi, rfl⟩ :=
          exists_lt_of_lt (by simpa [component, index1D] using hnonneg 0 (by simp [index1D]))
          (by simpa [component, index1D, toInt_ofNat ha] using hlt 0 (by simp [index1D]))
        exact ⟨i, mem_range.mpr hi, rfl⟩
      | _ => exact absurd hdim (by simp [initShorts])
  | d2 ha hb =>
    rw [indices_d2 ha hb, mem_flatMap]
    constructor
    · rintro ⟨i, hi, hidx⟩
      obtain ⟨j, hj, rfl⟩ := mem_map.mp hidx
      exact inBounds_d2 ha hb (mem_range.mp hi) (mem_range.mp hj)
    · rintro ⟨hstandard, hdim, hnonneg, hlt⟩
      cases hstandard with
      | d2 x y =>
        obtain ⟨i, hi, rfl⟩ :=
          exists_lt_of_lt (by simpa [component, index2D] using hnonneg 0 (by simp [index2D]))
          (by simpa [component, index2D, toInt_ofNat ha] using hlt 0 (by simp [index2D]))
        obtain ⟨j, hj, rfl⟩ :=
          exists_lt_of_lt (by simpa [component, index2D] using hnonneg 1 (by simp [index2D]))
          (by simpa [component, index2D, toInt_ofNat hb] using hlt 1 (by simp [index2D]))
        exact ⟨i, mem_range.mpr hi, mem_map.mpr ⟨j, mem_range.mpr hj, rfl⟩⟩
      | _ => exact absurd hdim (by simp [initShorts])
  | d3 ha hb hc =>
    rw [indices_d3 ha hb hc, mem_flatMap]
    constructor
    · rintro ⟨i, hi, hidx⟩
      obtain ⟨j, hj, hidx⟩ := mem_flatMap.mp hidx
      obtain ⟨l, hl, rfl⟩ := mem_map.mp hidx
      exact inBounds_d3 ha hb hc (mem_range.mp hi) (mem_range.mp hj) (mem_range.mp hl)
    · rintro ⟨hstandard, hdim, hnonneg, hlt⟩
      cases hstandard with
      | d3 x y z =>
        obtain ⟨i, hi, rfl⟩ :=
          exists_lt_of_lt (by simpa [component, index3D] using hnonneg 0 (by simp [index3D]))
          (by simpa [component, index3D, toInt_ofNat ha] using hlt 0 (by simp [index3D]))
        obtain ⟨j, hj, rfl⟩ :=
          exists_lt_of_lt (by simpa [component, index3D] using hnonneg 1 (by simp [index3D]))
          (by simpa [component, index3D, toInt_ofNat hb] using hlt 1 (by simp [index3D]))
        obtain ⟨l, hl, rfl⟩ :=
          exists_lt_of_lt (by simpa [component, index3D] using hnonneg 2 (by simp [index3D]))
          (by simpa [component, index3D, toInt_ofNat hc] using hlt 2 (by simp [index3D]))
        exact ⟨i, mem_range.mpr hi,
          mem_flatMap.mpr ⟨j, mem_range.mpr hj, mem_map.mpr ⟨l, mem_range.mpr hl, rfl⟩⟩⟩
      | _ => exact absurd hdim (by simp [initShorts])

end

/-! ### The loops -/

section

variable {condition : CkArrayIndex → Except MapFault Bool} {f : CkArrayIndex → Bool}
  {n : CkArrayIndex}

theorem insertIf_eq {idx : CkArrayIndex} (h : condition idx = .ok (f idx)) :
    insertIf condition idx = .ok ([idx].filter f) := by
  rw [insertIf, h]
  cases hf : f idx
  · rw [filter_cons_of_neg (by simp [hf])]
    rfl
  · rw [filter_cons_of_pos hf]
    rfl

theorem mapM_flatten {g : Nat → Except MapFault (List CkArrayIndex)}
    {rows : Nat → List CkArrayIndex} {k : Nat}
    (h : ∀ idx ∈ (List.range k).flatMap rows, condition idx = .ok (f idx))
    (hg : ∀ i, (∀ idx ∈ rows i, condition idx = .ok (f idx)) → g i = .ok ((rows i).filter f)) :
    (do return (← (List.range k).mapM g).flatten) =
    ok (((List.range k).flatMap rows).filter f) := by
  have hround : ∀ i ∈ List.range k, g i = .ok ((rows i).filter f) :=
    fun i hi => hg i fun idx hidx => h idx (mem_flatMap.mpr ⟨i, hi, hidx⟩)
  rw [mapM_eq_ok hround, filter_flatMap]
  rfl

/-- **What the loops insert**, when the condition is known for all indices. -/
theorem populate_eq (hdim : n.dimension = 1 ∨ n.dimension = 2 ∨ n.dimension = 3)
    (h : ∀ idx ∈ indices n, condition idx = .ok (f idx)) :
    populate condition n = .ok ((indices n).filter f) := by
  refine mapM_flatten h fun i hplane => ?_
  by_cases h1 : n.dimension = 1
  · rw [if_pos h1] at hplane ⊢
    rw [if_pos h1]
    exact insertIf_eq (hplane _ (mem_singleton_self _))
  · rw [if_neg h1] at hplane ⊢
    rw [if_neg h1]
    refine mapM_flatten hplane fun j hrow => ?_
    by_cases h2 : n.dimension = 2
    · rw [if_pos h2] at hrow ⊢
      rw [if_pos h2]
      exact insertIf_eq (hrow _ (mem_singleton_self _))
    · have h3 : n.dimension = 3 := (hdim.resolve_left h1).resolve_left h2
      rw [if_neg h2] at hrow ⊢
      rw [if_neg h2, if_pos h3]
      exact mapM_flatten hrow fun l helement => insertIf_eq (helement _ (mem_singleton_self _))

end

/-! ### What the map computes of sizes and indices -/

theorem toInt_natCast (h : a < 2 ^ 31) : toInt a = a := bmod_eq_of_le (by omega) (by omega)

theorem toInt_toInt_mul (x y : Int) : toInt (toInt x * y) = toInt (x * y) := bmod_mul_bmod

theorem computed_of_numChares {m : Machine} (hints : n.nInts ≠ 0)
    (h : (arrayMapInfo m n).numChares = size) : Computed m (arrayMapInfo m n) size where
  nInts := hints
  numChares := h
  remChares := by
    change (arrayMapInfo m n).numChares.tmod m.numPes = _
    rw [h, ofNat_tmod]
  binSizeFloor := by
    change (arrayMapInfo m n).numChares / m.numPes = _
    rw [h, natCast_ediv]
  numFirstSet := by
    change (arrayMapInfo m n).numChares.tmod m.numPes *
      ((arrayMapInfo m n).numChares / m.numPes + 1) = _
    rw [h, ← ofNat_tmod, ← natCast_ediv, firstSet, natCast_mul, natCast_add_one]
  nRemChares := by
    change (arrayMapInfo m n).numChares.tmod m.numNodes = _
    rw [h, ofNat_tmod]
  nBinSizeFloor := by
    change (arrayMapInfo m n).numChares.tdiv m.numNodes = _
    rw [h, ofNat_tdiv]
  nNumFirstSet := by
    change (arrayMapInfo m n).numChares.tmod m.numNodes *
      ((arrayMapInfo m n).numChares.tdiv m.numNodes + 1) = _
    rw [h, ← ofNat_tmod, ← ofNat_tdiv, firstSet, natCast_mul, natCast_add_one]

theorem Shape.computed (h : Shape n size) (hsize : size < 2 ^ 31) (m : Machine) :
    Computed m (arrayMapInfo m n) size := by
  cases h with
  | d1 ha =>
    refine computed_of_numChares (Nat.succ_ne_zero _) ?_
    change (index1D _).data 0 = _
    rw [index1D, data_init_zero, toInt_ofNat ha]
  | d2 ha hb =>
    refine computed_of_numChares (Nat.succ_ne_zero _) ?_
    change toInt ((index2D _ _).data 0 * (index2D _ _).data 1) = _
    rw [index2D, data_init_zero, data_init_one, toInt_ofNat ha, toInt_ofNat hb, ← natCast_mul,
      toInt_natCast hsize]
  | d3 ha hb hc =>
    refine computed_of_numChares (Nat.succ_ne_zero _) ?_
    change toInt (toInt ((index3D _ _ _).data 0 * (index3D _ _ _).data 1) *
      (index3D _ _ _).data 2) = _
    -- the product of two sizes may be too large if the third one is zero
    rw [index3D, data_init_zero, data_init_one, data_init_two, toInt_ofNat ha, toInt_ofNat hb,
      toInt_ofNat hc, toInt_toInt_mul, ← natCast_mul, ← natCast_mul, toInt_natCast hsize]

theorem row_lt {b i j : Nat} (hi : i < a) (hj : j < b) : i * b + j < a * b := by
  have hnext := Nat.mul_le_mul_right b (Nat.succ_le_of_lt hi)
  rw [Nat.succ_mul] at hnext
  omega

theorem Shape.flatten (h : Shape n size) (hsize : size < 2 ^ 31) {idx : CkArrayIndex}
    (hidx : idx ∈ indices n) : flatten n idx = .ok (rowMajor n idx) := by
  cases h with
  | d1 ha =>
    rw [indices_d1 ha] at hidx
    obtain ⟨i, hi, rfl⟩ := mem_map.mp hidx
    have hi := (mem_range.mp hi).trans ha
    change ok ((index1D _).data 0) = _
    rw [rowMajor_d1 hi, index1D, data_init_zero, toInt_ofNat hi]
  | d2 ha hb =>
    rw [indices_d2 ha hb] at hidx
    obtain ⟨i, hi, hidx⟩ := mem_flatMap.mp hidx
    obtain ⟨j, hj, rfl⟩ := mem_map.mp hidx
    have hlt := (row_lt (mem_range.mp hi) (mem_range.mp hj)).trans hsize
    have hi := (mem_range.mp hi).trans ha
    have hj := (mem_range.mp hj).trans hb
    change ok (toInt ((index2D _ _).data 0 * (index2D _ _).data 1 + (index2D _ _).data 1)) = _
    rw [rowMajor_d2 hi hj hb, index2D, index2D, data_init_zero, data_init_one, data_init_one,
      toInt_ofNat hi, toInt_ofNat hj, toInt_ofNat hb, ← natCast_mul, ← natCast_add,
      toInt_natCast hlt]
  | @d3 a b c ha hb hc =>
    rw [indices_d3 ha hb hc] at hidx
    obtain ⟨i, hi, hidx⟩ := mem_flatMap.mp hidx
    obtain ⟨j, hj, hidx⟩ := mem_flatMap.mp hidx
    obtain ⟨l, hl, rfl⟩ := mem_map.mp hidx
    have hrow := row_lt (mem_range.mp hi) (mem_range.mp hj)
    have hlt := (row_lt hrow (mem_range.mp hl)).trans hsize
    have hrow' : i * b + j < 2 ^ 31 :=
      (Nat.le_add_right _ _).trans_lt
        ((Nat.add_le_add_right (Nat.le_mul_of_pos_right _ (Nat.zero_lt_of_lt (mem_range.mp hl)))
          l).trans_lt hlt)
    have hi := (mem_range.mp hi).trans ha
    have hj := (mem_range.mp hj).trans hb
    have hl := (mem_range.mp hl).trans hc
    change ok (toInt
      (toInt ((index3D _ _ _).data 0 * (index3D _ _ _).data 1 + (index3D _ _ _).data 1) *
      (index3D _ _ _).data 2 + (index3D _ _ _).data 2)) = _
    rw [rowMajor_d3 hi hj hl hb hc, index3D, index3D, data_init_zero, data_init_one, data_init_one,
      data_init_two, data_init_two, toInt_ofNat hi, toInt_ofNat hj, toInt_ofNat hl, toInt_ofNat hb,
      toInt_ofNat hc, ← natCast_mul, ← natCast_add, toInt_natCast hrow', ← natCast_mul,
      ← natCast_add, toInt_natCast hlt]

/-! ### The elements of a PE -/

section

variable {m : Machine} {n : CkArrayIndex} {size : Nat}

variable {idx : CkArrayIndex}

theorem Shape.exists_rowMajor (h : Shape n size) (hidx : idx ∈ indices n) :
    ∃ i : Nat, i < size ∧ rowMajor n idx = i := by
  have hmem := mem_map_of_mem (f := rowMajor n) hidx
  rw [map_rowMajor_indices h] at hmem
  obtain ⟨i, hi, heq⟩ := mem_map.mp hmem
  exact ⟨i, mem_range.mp hi, heq.symm⟩

/-- **The PE of an index.** -/
theorem Shape.procNum (h : Shape n size) (hsize : size < 2 ^ 31) (hidx : idx ∈ indices n)
    (myPe : Nat) :
    procNum m myPe (arrayMapInfo m n) idx = .ok (m.place size (rowMajor n idx).toNat : Nat) := by
  obtain ⟨i, hi, heq⟩ := h.exists_rowMajor hidx
  have hflat := h.flatten hsize hidx
  rw [heq] at hflat ⊢
  exact procNum_eq (h.computed hsize m) hflat hi myPe

/-- The elements that the map has on a PE. -/
def elementsOn (m : Machine) (n : CkArrayIndex) (pe : Nat) : List CkArrayIndex :=
  (indices n).filter fun idx => decide (m.place n.size.toNat (rowMajor n idx).toNat = pe)

theorem Shape.dimension (h : Shape n size) :
    n.dimension = 1 ∨ n.dimension = 2 ∨ n.dimension = 3 := by
  cases h with
  | d1 => exact .inl rfl
  | d2 => exact .inr (.inl rfl)
  | d3 => exact .inr (.inr rfl)

theorem Shape.populateInitial (h : Shape n size) (heq : n.size = size) (hsize : size < 2 ^ 31)
    (pe : Nat) :
    populateInitial m (arrayMapInfo m n) n pe = .ok (elementsOn m n pe) := by
  rw [Location.populateInitial, if_neg (show n.nInts ≠ 0 from (h.computed hsize m).nInts),
    elementsOn, heq, toNat_natCast]
  refine populate_eq h.dimension fun idx hidx => ?_
  rw [h.procNum hsize hidx]
  simp only [bind, Except.bind, pure, Except.pure, natCast_inj]

theorem Shape.length_elementsOn (h : Shape n size) (heq : n.size = size) (pe : Nat) :
    (elementsOn m n pe).length = (List.range size).countP fun i =>
    decide (m.place size i = pe) := by
  have hmap :=
    congrArg (countP fun x : Int => decide (m.place size x.toNat = pe)) (map_rowMajor_indices h)
  rw [countP_map, countP_map] at hmap
  rw [elementsOn, heq, ← countP_eq_length_filter]
  exact hmap

theorem Shape.mem_elementsOn_iff (h : Shape n size) (heq : n.size = size) {pe : Nat} :
    idx ∈ elementsOn m n pe ↔ InBounds n idx ∧ m.place size (rowMajor n idx).toNat = pe := by
  rw [elementsOn, heq, toNat_natCast, mem_filter, mem_indices_iff h, decide_eq_true_eq]

end

/-! ### The initial elements -/

/-- How many elements a node has. -/
def onNode (m : Machine) (on : Nat → List CkArrayIndex) (node : Nat) : Nat :=
  ((List.range m.nodeSize).map fun rank => (on (node * m.nodeSize + rank)).length).sum

/-- What the PEs insert: each index once, and even shares of them. -/
structure SpreadEvenly (m : Machine) (n : CkArrayIndex) (on : Nat → List CkArrayIndex) : Prop where
  populated : ∀ pe < m.numPes, populateInitial m (arrayMapInfo m n) n pe = .ok (on pe)
  nodup : ∀ pe < m.numPes, (on pe).Nodup
  inBounds : ∀ pe < m.numPes, ∀ idx ∈ on pe, InBounds n idx
  unique : ∀ idx, InBounds n idx → ∃! pe, pe < m.numPes ∧ idx ∈ on pe
  pes : m.useNodeBlkMapping = false → ∀ pe < m.numPes, Share n.size.toNat m.numPes (on pe).length
  nodes : m.useNodeBlkMapping = true →
    ∀ node < m.numNodes, Share n.size.toNat m.numNodes (onNode m on node) ∧
    ∀ rank < m.nodeSize, Share (onNode m on node) m.nodeSize (on (node * m.nodeSize + rank)).length

/-- The map has each index in bounds on a PE, in the order of the indices, and the elements are
spread evenly. -/
structure MappedEvenly (m : Machine) (n : CkArrayIndex) : Prop where
  placed : ∀ idx, InBounds n idx → ∀ myPe, ∃ pe : Nat, pe < m.numPes ∧
    procNum m myPe (arrayMapInfo m n) idx = .ok pe
  ordered : ∀ idx idx', InBounds n idx → InBounds n idx' → rowMajor n idx ≤ rowMajor n idx' →
    ∀ myPe pe pe',
    procNum m myPe (arrayMapInfo m n) idx = .ok pe → procNum m myPe (arrayMapInfo m n) idx' =
    .ok pe' → pe ≤ pe'
  spread : ∃ on, SpreadEvenly m n on

section

variable {m : Machine} {n : CkArrayIndex} {size : Nat}

theorem Shape.length_node (h : Shape n size) (heq : n.size = size)
    (hmap : m.useNodeBlkMapping = true) {node rank : Nat}
    (hnode : node < m.numNodes) (hrank : rank < m.nodeSize) :
    (elementsOn m n (node * m.nodeSize + rank)).length = partSize (partSize size m.numNodes node)
      m.nodeSize rank := by
  rw [h.length_elementsOn heq, Machine.countP_place_node hmap hnode hrank]

theorem Shape.onNode_eq (h : Shape n size) (heq : n.size = size) (hmap : m.useNodeBlkMapping = true)
    {node : Nat}
    (hnode : node < m.numNodes) :
    onNode m (elementsOn m n) node = partSize size m.numNodes node := by
  rw [onNode, map_congr_left fun rank hrank => h.length_node heq hmap hnode (mem_range.mp hrank),
    sum_partSize m.nodeSize_pos]

theorem Shape.spread (h : Shape n size) (heq : n.size = size) (hsize : size < 2 ^ 31) :
    SpreadEvenly m n (elementsOn m n) where
  populated := fun pe _ => h.populateInitial heq hsize pe
  nodup := fun _ _ => (nodup_indices h).filter _
  inBounds := fun _ _ _ hidx => ((h.mem_elementsOn_iff heq).mp hidx).1
  unique := by
    intro idx hidx
    obtain ⟨i, hi, hrow⟩ := h.exists_rowMajor ((mem_indices_iff h).mpr hidx)
    refine ⟨m.place size (rowMajor n idx).toNat, ⟨?_, (h.mem_elementsOn_iff heq).mpr ⟨hidx, rfl⟩⟩,
      ?_⟩
    · rw [hrow]
      exact Machine.place_lt hi
    · rintro pe ⟨-, hpe⟩
      exact ((h.mem_elementsOn_iff heq).mp hpe).2.symm
  pes := by
    intro hmap pe hpe
    rw [heq, h.length_elementsOn heq, Machine.countP_place hmap hpe]
    exact share_partSize hpe
  nodes := by
    intro hmap node hnode
    rw [heq, h.onNode_eq heq hmap hnode]
    refine ⟨share_partSize hnode, fun rank hrank => ?_⟩
    rw [h.length_node heq hmap hnode hrank]
    exact share_partSize hrank

end

/-- **The initial elements are mapped evenly.** -/
theorem mapped_evenly (m : Machine) {n : CkArrayIndex} (h : Sizes n) : MappedEvenly m n := by
  obtain ⟨size, hshape, heq⟩ := h.standard.shape h.dimension_le h.nonneg
  have hsize : size < 2 ^ 31 := by
    have hlt := heq ▸ h.size_lt
    omega
  refine ⟨fun idx hidx myPe => ?_, fun idx idx' hidx hidx' hle myPe pe pe' hpe hpe' => ?_,
    ⟨_, hshape.spread heq hsize⟩⟩
  · have hmem := (mem_indices_iff hshape).mpr hidx
    obtain ⟨i, hi, hrow⟩ := hshape.exists_rowMajor hmem
    refine ⟨_, ?_, hshape.procNum hsize hmem myPe⟩
    rw [hrow]
    exact Machine.place_lt hi
  · have hmem := (mem_indices_iff hshape).mpr hidx
    have hmem' := (mem_indices_iff hshape).mpr hidx'
    obtain ⟨i, hi, hrow⟩ := hshape.exists_rowMajor hmem
    obtain ⟨j, hj, hrow'⟩ := hshape.exists_rowMajor hmem'
    rw [hshape.procNum hsize hmem, hrow] at hpe
    rw [hshape.procNum hsize hmem', hrow'] at hpe'
    rw [hrow, hrow', ofNat_le] at hle
    rw [← ok.inj hpe, ← ok.inj hpe', ofNat_le]
    exact Machine.place_mono hle hj

/-- Seven elements on two nodes of two PEs. -/
theorem mapped_evenly_seven :
    MappedEvenly { numNodes := 2, nodeSize := 2, useNodeBlkMapping := true,
                   startedEvac := fun _ => false, pos := by decide }
      (index1D 7) :=
  mapped_evenly _ ⟨.d1 7, by decide, by decide, by decide⟩

end CharmRuntime.Location
