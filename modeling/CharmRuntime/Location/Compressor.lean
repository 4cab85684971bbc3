import Mathlib.Tactic.IntervalCases
import CharmRuntime.Lib.BitFields
import CharmRuntime.Location.ArrayIndex

/-!
# Location.Compressor

When `FixedArrayIndexCompressor` is **injective**.

`compress` reads the components of an index of four or more dimensions as shorts, by the
dimension; `make` reads the bounds as ints whenever `nInts` is at most three, and that is so
for every standard index. For four and more dimensions the widths are thus taken from pairs
of bounds and from the memory behind the index. The packing is right exactly if each width
still happens to be large enough, or no compressor is made at all (`compressesInjectively_iff`).
-/

namespace CharmRuntime.Location

open Lib CkArrayIndex List BitVec Nat
open Except (ok)

/-! ### The width of a bound -/

/-- In `s` a bit is set if one of the `k` bits of `b` from there on is. -/
def Spread (k : Nat) (b s : BitVec 32) : Prop :=
  ∀ i, s.getLsbD i = true ↔ ∃ j, i ≤ j ∧ j < i + k ∧ b.getLsbD j = true

variable {b bound : BitVec 32} {n i : Nat} {eid : BitVec 64} {bounds : CkArrayIndex}
  {beyond : Nat → BitVec 32}

theorem Spread.double {k : Nat} {s : BitVec 32} (h : Spread k b s) :
    Spread (k + k) b (s ||| s >>> k) := by
  intro i
  rw [getLsbD_or, getLsbD_ushiftRight, Bool.or_eq_true, h i, h (k + i)]
  constructor
  · rintro (⟨j, h1, h2, hj⟩ | ⟨j, h1, h2, hj⟩)
    · exact ⟨j, h1, by omega, hj⟩
    · exact ⟨j, by omega, by omega, hj⟩
  · rintro ⟨j, h1, h2, hj⟩
    by_cases hlt : j < i + k
    · exact .inl ⟨j, h1, hlt, hj⟩
    · exact .inr ⟨j, by omega, by omega, hj⟩

theorem sshiftRight_of_nonneg (h : b.msb = false) (n : Nat) :
    b.sshiftRight n = b >>> n := sshiftRight_eq_of_msb_false h

theorem msb_or_shift (h : b.msb = false) (n : Nat) : (b ||| b >>> n).msb = false := by
  rw [msb_or, msb_ushiftRight, h, Bool.and_false, Bool.or_false]

theorem smear_spread (h : b.msb = false) : Spread 32 b (smear b) := by
  have h0 : Spread 1 b b := fun i =>
    ⟨fun hi => ⟨i, le_rfl, by omega, hi⟩, fun ⟨j, h1, h2, hj⟩ => by
      obtain rfl : j = i := by omega
      exact hj⟩
  have m1 := msb_or_shift h 1
  have m2 := msb_or_shift m1 2
  have m4 := msb_or_shift m2 4
  have m8 := msb_or_shift m4 8
  have h32 := h0.double.double.double.double.double
  simp only [smear, sshiftRight_of_nonneg h, sshiftRight_of_nonneg m1, sshiftRight_of_nonneg m2,
    sshiftRight_of_nonneg m4, sshiftRight_of_nonneg m8]
  exact h32

/-- Some bit from `i` on is set in every number from `2 ^ i` on. -/
theorem exists_testBit_iff : (∃ j, i ≤ j ∧ n.testBit j = true) ↔ i < n.size := by
  rw [lt_size]
  constructor
  · rintro ⟨j, hij, hj⟩
    exact (Nat.pow_le_pow_right (by omega) hij).trans (ge_two_pow_of_testBit hj)
  · intro h
    obtain ⟨j, hij, hj⟩ := exists_ge_and_testBit_of_ge_two_pow h
    exact ⟨j, hij, hj⟩

theorem smear_toNat (h : b.msb = false) : (smear b).toNat = 2 ^ b.toNat.size - 1 := by
  refine eq_of_testBit_eq ?_
  intro i
  rw [testBit_two_pow_sub_one, ← getLsbD, Bool.eq_iff_iff, smear_spread h i,
    decide_eq_true_iff, ← exists_testBit_iff]
  constructor
  · rintro ⟨j, hij, -, hj⟩
    exact ⟨j, hij, hj⟩
  · rintro ⟨j, hij, hj⟩
    refine ⟨j, hij, ?_, hj⟩
    have : j < 32 := lt_of_getLsbD hj
    omega

theorem shiftRounds_two_pow {fuel : Nat} (hn : n ≤ 30) (hf : n < fuel) (hb : b.toNat = 2 ^ n) :
    shiftRounds fuel b = some n := by
  induction n generalizing fuel b with
  | zero =>
    obtain ⟨fuel, rfl⟩ := exists_eq_succ_of_ne_zero (pos_iff_ne_zero.mp hf)
    obtain rfl : b = 1 := eq_of_toNat_eq hb
    rfl
  | succ n ih =>
    obtain ⟨fuel, rfl⟩ := exists_eq_succ_of_ne_zero (pos_iff_ne_zero.mp (zero_lt_of_lt hf))
    have hlt : 2 ^ (n + 1) ≤ 2 ^ 30 := Nat.pow_le_pow_right (by omega) hn
    have hmsb : b.msb = false := by
      rw [msb_eq_false_iff_two_mul_lt]
      omega
    have hshift : (b.sshiftRight 1).toNat = 2 ^ n := by
      rw [sshiftRight_of_nonneg hmsb, toNat_ushiftRight, shiftRight_eq_div_pow]
      omega
    have hne : b.sshiftRight 1 ≠ 0 := by
      intro h0
      rw [h0] at hshift
      exact Nat.ne_of_lt (Nat.two_pow_pos n) hshift
    rw [shiftRounds, if_neg hne, ih (by omega) (by omega) hshift]
    rfl

theorem countShifts_of_shiftRounds {fuel : Nat} (h : shiftRounds fuel b = some n) :
    countShifts fuel b = n := by
  induction fuel generalizing b n with
  | zero => cases h
  | succ fuel ih =>
    rw [shiftRounds] at h
    rw [countShifts]
    split_ifs at h ⊢ with h0
    · exact Option.some.inj h
    · obtain ⟨m, hm, rfl⟩ := Option.map_eq_some_iff.mp h
      rw [ih hm]

theorem shiftRounds_of_msb (h : b.msb = true) (fuel : Nat) : shiftRounds fuel b = none := by
  induction fuel generalizing b with
  | zero => rfl
  | succ fuel ih =>
    have hmsb : (b.sshiftRight 1).msb = true := by rw [msb_sshiftRight, h]
    rw [shiftRounds, if_neg, ih hmsb]
    · rfl
    · rintro h0
      rw [h0] at hmsb
      exact absurd hmsb (by decide)

/-- The bits for the numbers below `bound`. -/
def widthOf (bound : Int) : Nat := (bound.toNat - 1).size

theorem le_two_pow_widthOf (bound : Int) : bound ≤ 2 ^ widthOf bound := by
  have h : bound.toNat - 1 < 2 ^ widthOf bound := lt_size_self _
  have hcast : ((2 ^ widthOf bound : Nat) : Int) = 2 ^ widthOf bound := by rfl
  omega

/-- A bound up to `2 ^ 30` is rounded up to the power of two, a larger one to one that is no `int`.
-/
theorem smear_sub_one (hpos : 0 < bound.toInt) : (widthOf bound.toInt ≤ 30 ↔ bound.toInt ≤ 2 ^ 30) ∧
    (bound.toInt ≤ 2 ^ 30 → (smear (bound - 1) + 1).toNat = 2 ^ widthOf bound.toInt) ∧
    (smear (bound - 1) = intMax 32 ↔ ¬ bound.toInt ≤ 2 ^ 30) := by
  have hnat : bound.toInt = bound.toNat := by
    rw [toInt_eq_toNat_cond] at hpos ⊢
    split at hpos
    · rw [if_pos ‹_›]
    · omega
  have hsub : (bound - 1).toNat = bound.toNat - 1 := by
    rw [toNat_sub_of_le (by exact succ_le_of_lt (by omega))]
    rfl
  have hlt31 : bound.toNat < 2 ^ 31 := by
    rw [toInt_eq_toNat_cond] at hnat
    split at hnat <;> omega
  have hmsb : (bound - 1).msb = false := by
    rw [msb_eq_false_iff_two_mul_lt]
    omega
  have hw : widthOf bound.toInt = (bound.toNat - 1).size := by
    rw [widthOf, hnat, Int.toNat_natCast]
  have hsmear : (smear (bound - 1)).toNat = 2 ^ widthOf bound.toInt - 1 := by
    rw [smear_toNat hmsb, hsub, hw]
  have hw31 : widthOf bound.toInt ≤ 31 := by
    rw [hw, size_le]
    omega
  have hiff : widthOf bound.toInt ≤ 30 ↔ bound.toInt ≤ 2 ^ 30 := by
    rw [hw, size_le, hnat]
    omega
  have hp := Nat.two_pow_pos (widthOf bound.toInt)
  refine ⟨hiff, fun hle => ?_, ?_⟩
  · have hpow : 2 ^ widthOf bound.toInt ≤ 2 ^ 30 := Nat.pow_le_pow_right (by omega) (hiff.mpr hle)
    have hone : (1 : BitVec 32).toNat = 1 := rfl
    rw [toNat_add, hsmear]
    omega
  · rw [← hiff, ← toNat_inj, hsmear, toNat_intMax]
    constructor
    · intro _ hle
      have hpow : 2 ^ widthOf bound.toInt ≤ 2 ^ 30 := Nat.pow_le_pow_right (by omega) hle
      omega
    · intro _
      rw [show widthOf bound.toInt = 31 by omega]

/-- **`bitCount`** succeeds on the bounds up to `2 ^ 30`. -/
theorem bitCount_eq (bound : BitVec 32) :
    (0 < bound.toInt ∧ bound.toInt ≤ 2 ^ 30 → bitCount bound = .ok (widthOf bound.toInt)) ∧
    (¬ (0 < bound.toInt ∧ bound.toInt ≤ 2 ^ 30) → ∃ e, bitCount bound = .error e) := by
  by_cases hpos : 0 < bound.toInt
  swap
  · refine ⟨fun h => absurd h.1 hpos, fun _ => ⟨.assertion, ?_⟩⟩
    rw [bitCount, if_pos hpos]
  obtain ⟨hiff, hadd, hmax⟩ := smear_sub_one hpos
  rw [bitCount, if_neg (not_not.mpr hpos)]
  constructor
  · rintro ⟨-, hle⟩
    have h30 := hiff.mpr hle
    rw [if_neg fun heq => hmax.mp heq hle, countShifts_of_shiftRounds
      (shiftRounds_two_pow h30 (by omega) (hadd hle))]
  · intro hnot
    exact ⟨.overflow, if_pos (hmax.mpr fun hle => hnot ⟨hpos, hle⟩)⟩

theorem isLeast_widthOf (h : 0 < bound.toInt) :
    IsLeast {r : Nat | bound.toInt ≤ 2 ^ r} (widthOf bound.toInt) := by
  refine ⟨le_two_pow_widthOf _, fun r hr => size_le.mpr ?_⟩
  have hr : bound.toInt ≤ (2 ^ r : Nat) := by exact_mod_cast hr
  omega

/-- **`bitCount` ends** exactly if the power of two is an `int`, and then it is right. -/
theorem bitCountWrapping_iff (bound : BitVec 32) (hpos : 0 < bound.toInt) :
    (∃ fuel r, bitCountWrapping fuel bound = some r ∧ IsLeast {r : Nat | bound.toInt ≤ 2 ^ r} r) ↔
      bound.toInt ≤ 2 ^ 30 := by
  obtain ⟨hiff, hadd, hmax⟩ := smear_sub_one hpos
  constructor
  · rintro ⟨fuel, r, hr, -⟩
    by_contra hlarge
    rw [bitCountWrapping, hmax.mpr hlarge, shiftRounds_of_msb (by decide)] at hr
    cases hr
  · intro hle
    exact ⟨_, _, shiftRounds_two_pow (hiff.mpr hle) (lt_succ_self _) (hadd hle),
      isLeast_widthOf hpos⟩

theorem bitCountWrapping_1000 :
    (∃ fuel r, bitCountWrapping fuel 1000 = some r ∧
    IsLeast {r : Nat | (1000 : BitVec 32).toInt ≤ 2 ^ r} r) ↔
      (1000 : BitVec 32).toInt ≤ 2 ^ 30 :=
  bitCountWrapping_iff 1000 (by decide)

/-- The bound 2 ^ 30 + 1 is rounded up to the smallest `int`, which is shifted on and on. -/
theorem not_bitCountWrapping : ¬ ∀ bound : BitVec 32, 0 < bound.toInt →
    ∃ fuel r, bitCountWrapping fuel bound = some r ∧ IsLeast {r : Nat | bound.toInt ≤ 2 ^ r} r := by
  intro hends
  obtain ⟨fuel, r, hr, -⟩ := hends 1073741825 (by decide)
  rw [bitCountWrapping, show smear (1073741825 - 1) + 1 = intMin 32 by decide,
    shiftRounds_of_msb (by decide)] at hr
  cases hr

/-! ### Reading an index -/

theorem append_shortsOf (x : BitVec 32) : x.extractLsb' 16 16 ++ x.extractLsb' 0 16 = x := by
  rw [extractLsb'_append_extractLsb'_eq_extractLsb' (by decide)]
  exact extractLsb'_eq_self

namespace CkArrayIndex

variable (beyond : Nat → BitVec 32) (num dims : Nat) (x y z : BitVec 32)

@[simp] theorem dimension_init : (init num dims x y z).dimension = dims := rfl

@[simp] theorem index_init_zero : (init num dims x y z).index beyond 0 = x := append_shortsOf x

@[simp] theorem index_init_one : (init num dims x y z).index beyond 1 = y := append_shortsOf y

@[simp] theorem index_init_two : (init num dims x y z).index beyond 2 = z := append_shortsOf z

end CkArrayIndex

namespace CkArrayIndex

@[simp] theorem dimension_index1D (i0 : BitVec 32) : (index1D i0).dimension = 1 := rfl

@[simp] theorem dimension_index2D (i0 i1 : BitVec 32) : (index2D i0 i1).dimension = 2 := rfl

@[simp] theorem dimension_index3D (i0 i1 i2 : BitVec 32) : (index3D i0 i1 i2).dimension = 3 := rfl

@[simp] theorem dimension_index4D (i0 i1 i2 i3 : BitVec 16) :
    (index4D i0 i1 i2 i3).dimension = 4 := rfl

@[simp] theorem dimension_index5D (i0 i1 i2 i3 i4 : BitVec 16) :
    (index5D i0 i1 i2 i3 i4).dimension = 5 := rfl

@[simp] theorem dimension_index6D (i0 i1 i2 i3 i4 i5 : BitVec 16) :
    (index6D i0 i1 i2 i3 i4 i5).dimension = 6 := rfl

end CkArrayIndex

theorem signExtend_inj {x y : BitVec 16} (h : x.signExtend 32 = y.signExtend 32) : x = y := by
  refine eq_of_toInt_eq ?_
  rw [← toInt_signExtend_of_le (v := 32) (by decide), h, toInt_signExtend_of_le (by decide)]

theorem dimRead_toInt (idx : CkArrayIndex) (i : Nat) : (dimRead idx i).toInt = idx.component i := by
  unfold dimRead component
  split <;> rfl

/-- What `compress` reads determines a standard index. -/
theorem CkArrayIndex.Standard.ext {a b : CkArrayIndex} (ha : Standard a) (hb : Standard b)
    (hd : a.dimension = b.dimension) (h : ∀ i < a.dimension, dimRead a i = dimRead b i) :
    a = b := by
  cases ha with
  | d1 i0 =>
    cases hb with
    | d1 j0 =>
      have h0 : i0 = j0 := by simpa [dimRead, index1D] using h 0 (by simp)
      rw [h0]
    | _ => exact absurd hd (by simp)
  | d2 i0 i1 =>
    cases hb with
    | d2 j0 j1 =>
      have h0 : i0 = j0 := by simpa [dimRead, index2D] using h 0 (by simp)
      have h1 : i1 = j1 := by simpa [dimRead, index2D] using h 1 (by simp)
      rw [h0, h1]
    | _ => exact absurd hd (by simp)
  | d3 i0 i1 i2 =>
    cases hb with
    | d3 j0 j1 j2 =>
      have h0 : i0 = j0 := by simpa [dimRead, index3D] using h 0 (by simp)
      have h1 : i1 = j1 := by simpa [dimRead, index3D] using h 1 (by simp)
      have h2 : i2 = j2 := by simpa [dimRead, index3D] using h 2 (by simp)
      rw [h0, h1, h2]
    | _ => exact absurd hd (by simp)
  | d4 i0 i1 i2 i3 =>
    cases hb with
    | d4 j0 j1 j2 j3 =>
      obtain rfl : i0 = j0 := signExtend_inj (h 0 (by simp))
      obtain rfl : i1 = j1 := signExtend_inj (h 1 (by simp))
      obtain rfl : i2 = j2 := signExtend_inj (h 2 (by simp))
      obtain rfl : i3 = j3 := signExtend_inj (h 3 (by simp))
      rfl
    | _ => exact absurd hd (by simp)
  | d5 i0 i1 i2 i3 i4 =>
    cases hb with
    | d5 j0 j1 j2 j3 j4 =>
      obtain rfl : i0 = j0 := signExtend_inj (h 0 (by simp))
      obtain rfl : i1 = j1 := signExtend_inj (h 1 (by simp))
      obtain rfl : i2 = j2 := signExtend_inj (h 2 (by simp))
      obtain rfl : i3 = j3 := signExtend_inj (h 3 (by simp))
      obtain rfl : i4 = j4 := signExtend_inj (h 4 (by simp))
      rfl
    | _ => exact absurd hd (by simp)
  | d6 i0 i1 i2 i3 i4 i5 =>
    cases hb with
    | d6 j0 j1 j2 j3 j4 j5 =>
      obtain rfl : i0 = j0 := signExtend_inj (h 0 (by simp))
      obtain rfl : i1 = j1 := signExtend_inj (h 1 (by simp))
      obtain rfl : i2 = j2 := signExtend_inj (h 2 (by simp))
      obtain rfl : i3 = j3 := signExtend_inj (h 3 (by simp))
      obtain rfl : i4 = j4 := signExtend_inj (h 4 (by simp))
      obtain rfl : i5 = j5 := signExtend_inj (h 5 (by simp))
      rfl
    | _ => exact absurd hd (by simp)

/-! ### The packed fields -/

theorem toNat_one_shiftLeft (h : n < 64) : ((1 : BitVec 64) <<< n).toNat = 2 ^ n := by
  have hlt : 2 ^ n < 2 ^ 64 := Nat.pow_lt_pow_right (by omega) h
  rw [toNat_shiftLeft, Nat.shiftLeft_eq]
  exact (Nat.one_mul _).symm ▸ mod_eq_of_lt hlt

theorem packDim_eq {numBits : Nat} {value : BitVec 32} (heid : eid.toNat < 2 ^ n)
    (hn : n + numBits ≤ 48) (hv : value.toNat < 2 ^ numBits) :
    ∃ eid', packDim eid numBits value = .ok eid' ∧ eid'.toNat = eid.toNat * 2 ^ numBits +
    value.toNat := by
  refine ⟨_, if_pos (by rwa [toNat_one_shiftLeft (by omega)]), ?_⟩
  have hlt : eid.toNat * 2 ^ numBits < 2 ^ 64 := by
    calc eid.toNat * 2 ^ numBits < 2 ^ n * 2 ^ numBits :=
          mul_lt_mul_of_pos_right heid (Nat.two_pow_pos _)
      _ = 2 ^ (n + numBits) := (pow_add 2 n numBits).symm
      _ ≤ 2 ^ 64 := Nat.pow_le_pow_right (by omega) (by omega)
  rw [toNat_or, toNat_shiftLeft, Nat.shiftLeft_eq, mod_eq_of_lt hlt,
    toNat_setWidth, mod_eq_of_lt (by omega), mul_comm, ← two_pow_add_eq_or_of_lt hv]

theorem packDim_error {numBits : Nat} {value : BitVec 32} (hn : numBits ≤ 48)
    (hv : ¬ value.toNat < 2 ^ numBits) : packDim eid numBits value = .error .assertion :=
  if_neg (by rwa [toNat_one_shiftLeft (by omega)])

/-- The fields that the loop appends. -/
def fieldsOf (bits : Nat → Nat) (value : Nat → BitVec 32) (l : List Nat) : List (Nat × Nat) :=
  l.map fun i => (bits i, (value i).toNat)

theorem fieldsWidth_fieldsOf (bits : Nat → Nat) (value : Nat → BitVec 32) (l : List Nat) :
    fieldsWidth (fieldsOf bits value l) = (l.map bits).sum := by
  rw [fieldsWidth, fieldsOf, map_map]
  rfl

/-- **The loop of `compress`** packs the fields if all of them fit, and fails if not. -/
theorem foldlM_packDim (bits : Nat → Nat) (value : Nat → BitVec 32) (l : List Nat)
    (heid : eid.toNat < 2 ^ n) (hn : n + (l.map bits).sum ≤ 48) :
    (FieldsFit (fieldsOf bits value l) → ∃ eid',
      l.foldlM (fun eid i => packDim eid (bits i) (value i)) eid = .ok eid' ∧
      eid'.toNat = packFields eid.toNat (fieldsOf bits value l)) ∧
    (¬ FieldsFit (fieldsOf bits value l) →
      l.foldlM (fun eid i => packDim eid (bits i) (value i)) eid = .error .assertion) := by
  induction l generalizing eid n with
  | nil => exact ⟨fun _ => ⟨eid, rfl, rfl⟩, fun h => absurd (by simp [FieldsFit, fieldsOf]) h⟩
  | cons i l ih =>
    rw [map_cons, sum_cons] at hn
    rw [foldlM_cons]
    by_cases hv : (value i).toNat < 2 ^ bits i
    · obtain ⟨eid', heq, hval⟩ := packDim_eq heid (show n + bits i ≤ 48 by omega) hv
      have hlt : eid'.toNat < 2 ^ (n + bits i) := by
        have hfit : FieldsFit [(bits i, (value i).toNat)] := by simpa [FieldsFit] using hv
        have h := packFields_lt hfit heid
        rw [hval]
        exact h
      obtain ⟨h1, h2⟩ := ih hlt (by omega)
      have hiff : FieldsFit (fieldsOf bits value (i :: l)) ↔ FieldsFit (fieldsOf bits value l) := by
        rw [fieldsOf, map_cons, FieldsFit, forall_mem_cons]
        exact ⟨fun h => h.2, fun h => ⟨hv, h⟩⟩
      rw [heq]
      refine ⟨fun hfit => ?_, fun hfit => h2 (fun h => hfit (hiff.mpr h))⟩
      obtain ⟨r, hr, hrv⟩ := h1 (hiff.mp hfit)
      refine ⟨r, hr, ?_⟩
      rw [hrv, hval]
      rfl
    · rw [packDim_error (by omega) hv]
      refine ⟨fun hfit => absurd (hfit (bits i, (value i).toNat) ?_) hv, fun _ => rfl⟩
      exact mem_cons_self

/-! ### The widths that `make` finds -/

/-- A routine that succeeds on the elements with `P` succeeds on the lists of them. -/
theorem mapM_eq_ok_iff {α : Type} {P : α → Prop} {f : α → Except Fault Nat} {g : α → Nat}
    (hok : ∀ a, P a → f a = .ok (g a)) (herr : ∀ a, ¬ P a → ∃ e, f a = .error e) {l : List α}
    {bits : List Nat} : l.mapM f = .ok bits ↔ bits = l.map g ∧ ∀ a ∈ l, P a := by
  induction l generalizing bits with
  | nil =>
    exact ⟨fun h => ⟨(ok.inj h).symm, by simp⟩, fun h => by rw [h.1]; rfl⟩
  | cons a l ih =>
    rw [mapM_cons, bind_eq_ok, forall_mem_cons]
    constructor
    · rintro ⟨b, hb, h⟩
      obtain ⟨bs, hbs, h⟩ := bind_eq_ok.mp h
      obtain ⟨rfl, hl⟩ := ih.mp hbs
      by_cases ha : P a
      · obtain rfl := ok.inj ((hok a ha).symm.trans hb)
        exact ⟨(ok.inj h).symm, ha, hl⟩
      · obtain ⟨e, he⟩ := herr a ha
        exact absurd (he.symm.trans hb) (by simp)
    · rintro ⟨rfl, ha, hl⟩
      exact ⟨g a, hok a ha, bind_eq_ok.mpr ⟨l.map g, ih.mpr ⟨rfl, hl⟩, rfl⟩⟩

theorem CkArrayIndex.Standard.nInts (h : Standard bounds) :
    bounds.nInts ≠ 0 ∧ bounds.nInts ≤ 3 := by
  cases h <;>
    exact ⟨by simp [index1D, index2D, index3D, index4D, index5D, index6D, init, initShorts],
    by simp [index1D, index2D, index3D, index4D, index5D, index6D, init, initShorts]⟩

/-- The widths of all dimensions. -/
def widths (beyond : Nat → BitVec 32) (bounds : CkArrayIndex) : List Nat :=
  (List.range bounds.dimension).map fun i => widthOf (bounds.index beyond i).toInt

/-- `make` returns a compressor with the widths of the ints it reads, if these are in range and
the sum is at most 48. -/
theorem make_eq_some_iff (h : Standard bounds) {bits : List Nat} :
    make beyond bounds = .ok (some bits) ↔ bits = widths beyond bounds ∧ bits.sum ≤ 48 ∧
      ∀ i < bounds.dimension, 0 < (bounds.index beyond i).toInt ∧ (bounds.index beyond i).toInt ≤
      2 ^ 30 := by
  have hread : ∀ i, boundRead beyond bounds i = bounds.index beyond i := fun i => if_pos h.nInts.2
  have hmap : ∀ bs, (range bounds.dimension).mapM (fun i => bitCount (boundRead beyond bounds i)) =
      .ok bs ↔ bs = widths beyond bounds ∧ ∀ i ∈ range bounds.dimension,
        0 < (bounds.index beyond i).toInt ∧ (bounds.index beyond i).toInt ≤ 2 ^ 30 := by
    intro bs
    refine mapM_eq_ok_iff ?_ ?_
    · intro i hi
      rw [hread]
      exact (bitCount_eq _).1 hi
    · intro i hi
      rw [hread]
      exact (bitCount_eq _).2 hi
  simp only [mem_range] at hmap
  rw [make, if_neg h.nInts.1, bind_eq_ok]
  constructor
  · rintro ⟨bs, hbs, hret⟩
    obtain ⟨hw, hrange⟩ := (hmap bs).mp hbs
    split at hret
    · exact absurd hret (by simp)
    · next hsum =>
        obtain rfl := Option.some.inj (ok.inj hret)
        exact ⟨hw, by omega, hrange⟩
  · rintro ⟨hw, hsum, hrange⟩
    exact ⟨bits, (hmap bits).mpr ⟨hw, hrange⟩, if_neg (by omega)⟩

/-! ### When the compressor is injective -/

/-- An index of the array with these bounds. -/
structure InBounds (bounds idx : CkArrayIndex) : Prop where
  standard : Standard idx
  dimension : idx.dimension = bounds.dimension
  nonneg : ∀ i < bounds.dimension, 0 ≤ idx.component i
  lt : ∀ i < bounds.dimension, idx.component i < bounds.component i

/-- If `make` returns a compressor, it maps the indices of the array to distinct ids of at most
48 bits. -/
def CompressesInjectively (beyond : Nat → BitVec 32) (bounds : CkArrayIndex) : Prop :=
  ∀ bits, make beyond bounds = .ok (some bits) →
    (∀ idx, InBounds bounds idx → ∃ eid, elementId bits idx = .ok eid ∧ eid.toNat < 2 ^ 48) ∧
    ∀ gid idx₁ idx₂ id, InBounds bounds idx₁ → InBounds bounds idx₂ →
      compress bits gid idx₁ = .ok id → compress bits gid idx₂ = .ok id → idx₁ = idx₂

/-- The bounds have at most three dimensions, or no compressor is made from the ints that
`make` finds in their place, or each of these ints is as wide as the bound itself. -/
def WidthsFit (beyond : Nat → BitVec 32) (bounds : CkArrayIndex) : Prop :=
  bounds.dimension ≤ 3 ∨
  (∃ i < bounds.dimension, (bounds.index beyond i).toInt ≤ 0 ∨
  2 ^ 30 < (bounds.index beyond i).toInt) ∨
  48 < (widths beyond bounds).sum ∨
  ∀ i < bounds.dimension, bounds.component i ≤ 2 ^ widthOf (bounds.index beyond i).toInt

theorem component_eq_index {a : CkArrayIndex} (h : a.dimension ≤ 3) (beyond : Nat → BitVec 32)
    (hi : i < a.dimension) : a.component i = (a.index beyond i).toInt := by
  rw [component, if_neg (by omega), index, index,
    if_pos (show i < ckArrayIndexMaxLen by unfold ckArrayIndexMaxLen; omega),
    if_pos (show i < ckArrayIndexMaxLen by unfold ckArrayIndexMaxLen; omega)]

theorem getD_widths (hi : i < bounds.dimension) :
    (widths beyond bounds).getD i 0 = widthOf (bounds.index beyond i).toInt := by
  rw [widths, getD_eq_getElem?_getD, getElem?_map, getElem?_range hi]
  rfl

theorem toNat_eq_of_toInt_nonneg {x : BitVec 32} (h : 0 ≤ x.toInt) : (x.toNat : Int) = x.toInt := by
  rw [toInt_eq_toNat_cond] at h ⊢
  split
  · rfl
  · next hlt =>
      omega

section

variable {beyond : Nat → BitVec 32} {bounds : CkArrayIndex}

/-- The fields that `compress` packs. -/
def fields (beyond : Nat → BitVec 32) (bounds idx : CkArrayIndex) : List (Nat × Nat) :=
  fieldsOf (fun i => (widths beyond bounds).getD i 0) (dimRead idx) (List.range bounds.dimension)

theorem map_fst_fields (idx : CkArrayIndex) :
    (fields beyond bounds idx).map Prod.fst = widths beyond bounds := by
  rw [fields, fieldsOf, map_map]
  refine map_congr_left ?_
  intro i hi
  exact getD_widths (mem_range.mp hi)

theorem fieldsFit_iff (idx : CkArrayIndex) : FieldsFit (fields beyond bounds idx) ↔
    ∀ i < bounds.dimension, (dimRead idx i).toNat < 2 ^ widthOf (bounds.index beyond i).toInt := by
  unfold FieldsFit fields fieldsOf
  rw [forall_mem_map]
  constructor
  · intro h i hi
    have hf := h i (mem_range.mpr hi)
    simp only [getD_widths hi] at hf
    exact hf
  · intro h i hi
    have hi' := mem_range.mp hi
    simp only [getD_widths hi']
    exact h i hi'

theorem elementId_spec (hsum : (widths beyond bounds).sum ≤ 48) {idx : CkArrayIndex}
    (hd : idx.dimension = bounds.dimension) :
    (FieldsFit (fields beyond bounds idx) → ∃ eid, elementId (widths beyond bounds) idx = .ok eid ∧
      eid.toNat = packFields 0 (fields beyond bounds idx)) ∧
    (¬ FieldsFit (fields beyond bounds idx) → elementId (widths beyond bounds) idx =
    .error .assertion) := by
  have hlen : idx.dimension = (widths beyond bounds).length := by
    rw [hd, widths, length_map, length_range]
  have hbits :
    ((range bounds.dimension).map fun i => (widths beyond bounds).getD i 0).sum ≤ 48 := by
    rwa [← fieldsWidth_fieldsOf _ (dimRead idx), fieldsWidth, ← fields, map_fst_fields]
  rw [elementId, if_pos hlen, hd]
  exact foldlM_packDim _ (dimRead idx) _ (show (0 : BitVec 64).toNat < 2 ^ 0 by decide)
    (by rwa [zero_add])

theorem objID_inj {gid : BitVec 32} {e e' id : BitVec 64} (h : objID gid e = .ok id)
    (h' : objID gid e' = .ok id) : e = e' := by
  unfold objID at h h'
  split at h
  swap
  · exact absurd h (by simp)
  next hle =>
    split at h'
    swap
    · exact absurd h' (by simp)
    next hle' =>
      have heq : (gid.signExtend 64 <<< 48) ||| e = (gid.signExtend 64 <<< 48) ||| e' :=
        (ok.inj h).trans (ok.inj h').symm
      have hshift : (gid.signExtend 64 <<< 48).toNat = 2 ^ 48 * (gid.signExtend 64).toNat := by
        rw [toNat_shiftLeft, Nat.shiftLeft_eq, mul_comm]
        exact mod_eq_of_lt (by omega)
      have hnat := congrArg BitVec.toNat heq
      rw [toNat_or, toNat_or, hshift, ← two_pow_add_eq_or_of_lt (by omega),
        ← two_pow_add_eq_or_of_lt (by omega)] at hnat
      exact eq_of_toNat_eq (by omega)

theorem compressesInjectively_of_fit (hb : Standard bounds)
    (h : ∀ i < bounds.dimension, bounds.component i ≤ 2 ^ widthOf (bounds.index beyond i).toInt) :
    CompressesInjectively beyond bounds := by
  intro _ hmake
  obtain ⟨rfl, hsum, -⟩ := (make_eq_some_iff hb).mp hmake
  have hcomp : ∀ {idx}, InBounds bounds idx → ∀ i < bounds.dimension,
      ((dimRead idx i).toNat) = idx.component i := by
    intro idx hidx i hi
    rw [toNat_eq_of_toInt_nonneg (by rw [dimRead_toInt]; exact hidx.nonneg i hi), dimRead_toInt]
  have hfit : ∀ idx, InBounds bounds idx → FieldsFit (fields beyond bounds idx) := by
    intro idx hidx
    rw [fieldsFit_iff]
    intro i hi
    have h1 := hcomp hidx i hi
    have h2 := hidx.lt i hi
    have h3 := h i hi
    have hcast : ((2 ^ widthOf (bounds.index beyond i).toInt : Nat) : Int) =
        2 ^ widthOf (bounds.index beyond i).toInt := by rfl
    omega
  refine ⟨?_, ?_⟩
  · intro idx hidx
    obtain ⟨eid, heid, hval⟩ := (elementId_spec hsum hidx.dimension).1 (hfit idx hidx)
    refine ⟨eid, heid, ?_⟩
    have hlt := packFields_lt (hfit idx hidx) (show 0 < 2 ^ 0 by decide)
    rw [fieldsWidth, map_fst_fields] at hlt
    rw [hval]
    exact hlt.trans_le (Nat.pow_le_pow_right (by omega) (by omega))
  · intro _ idx₁ idx₂ id h₁ h₂ hc1 hc2
    obtain ⟨e1, he1, ho1⟩ := bind_eq_ok.mp hc1
    obtain ⟨e2, he2, ho2⟩ := bind_eq_ok.mp hc2
    obtain rfl := objID_inj ho1 ho2
    obtain ⟨e, he, hv1⟩ := (elementId_spec hsum h₁.dimension).1 (hfit idx₁ h₁)
    obtain ⟨e', he', hv2⟩ := (elementId_spec hsum h₂.dimension).1 (hfit idx₂ h₂)
    obtain rfl := ok.inj (he1.symm.trans he)
    obtain rfl := ok.inj (he2.symm.trans he')
    obtain ⟨-, hfields⟩ := packFields_inj (hfit idx₁ h₁) (hfit idx₂ h₂)
      ((map_fst_fields idx₁).trans (map_fst_fields idx₂).symm) (hv1.symm.trans hv2)
    refine h₁.standard.ext h₂.standard (h₁.dimension.trans h₂.dimension.symm) ?_
    intro i hi
    rw [h₁.dimension] at hi
    have hget := congrArg (·[i]?) hfields
    simp only [fields, fieldsOf, getElem?_map, getElem?_range hi, Option.map_some,
      Option.some.injEq, Prod.mk.injEq, true_and] at hget
    exact eq_of_toNat_eq hget

theorem toInt_sub_one {x : BitVec 16} (h : 0 < x.toInt) : (x - 1).toInt = x.toInt - 1 := by
  have hlt := toInt_lt (x := x)
  rw [toInt_sub, show (1 : BitVec 16).toInt = 1 from rfl]
  exact Int.bmod_eq_of_le (by omega) (by omega)

theorem exists_last (hb : Standard bounds) (hdim : 3 < bounds.dimension)
    (hpos : ∀ i < bounds.dimension, 0 < bounds.component i) :
    ∃ idx, InBounds bounds idx ∧ ∀ i < bounds.dimension, idx.component i =
    bounds.component i - 1 := by
  suffices h : ∃ idx, Standard idx ∧ idx.dimension = bounds.dimension ∧
      ∀ i < bounds.dimension, idx.component i = bounds.component i - 1 by
    obtain ⟨idx, hs, hd, hc⟩ := h
    refine ⟨idx, ⟨hs, hd, ?_, ?_⟩, hc⟩
    · intro i hi
      have := hpos i hi
      rw [hc i hi]
      omega
    · intro i hi
      rw [hc i hi]
      omega
  have hshort : ∀ (a : CkArrayIndex) (i : Nat), 3 < a.dimension →
      a.component i = (a.indexShorts.getD i 0).toInt := by
    intro a i ha
    rw [component, if_pos ha, short, toInt_signExtend_of_le (by decide)]
  cases hb with
  | d4 i0 i1 i2 i3 =>
    refine ⟨index4D (i0 - 1) (i1 - 1) (i2 - 1) (i3 - 1), .d4 _ _ _ _, rfl, ?_⟩
    intro i hi
    have hp := hpos i hi
    rw [hshort _ _ (by simp)] at hp
    rw [hshort _ _ (by simp), hshort _ _ (by simp)]
    simp only [dimension_index4D] at hi
    interval_cases i <;> exact toInt_sub_one hp
  | d5 i0 i1 i2 i3 i4 =>
    refine ⟨index5D (i0 - 1) (i1 - 1) (i2 - 1) (i3 - 1) (i4 - 1), .d5 _ _ _ _ _, rfl, ?_⟩
    intro i hi
    have hp := hpos i hi
    rw [hshort _ _ (by simp)] at hp
    rw [hshort _ _ (by simp), hshort _ _ (by simp)]
    simp only [dimension_index5D] at hi
    interval_cases i <;> exact toInt_sub_one hp
  | d6 i0 i1 i2 i3 i4 i5 =>
    refine ⟨index6D (i0 - 1) (i1 - 1) (i2 - 1) (i3 - 1) (i4 - 1) (i5 - 1), .d6 _ _ _ _ _ _, rfl, ?_⟩
    intro i hi
    have hp := hpos i hi
    rw [hshort _ _ (by simp)] at hp
    rw [hshort _ _ (by simp), hshort _ _ (by simp)]
    simp only [dimension_index6D] at hi
    interval_cases i <;> exact toInt_sub_one hp
  | _ => exact absurd hdim (by simp)

end

/-- **The compressor is injective exactly if the widths fit.** -/
theorem compressesInjectively_iff {beyond : Nat → BitVec 32} {bounds : CkArrayIndex}
    (hb : Standard bounds) (hpos : ∀ i < bounds.dimension, 0 < bounds.component i) :
    CompressesInjectively beyond bounds ↔ WidthsFit beyond bounds := by
  constructor
  · intro hinj
    by_contra hnot
    unfold WidthsFit at hnot
    push Not at hnot
    obtain ⟨hdim, hrange, hsum, i, hi, hlt⟩ := hnot
    have hmake : make beyond bounds = .ok (some (widths beyond bounds)) :=
      (make_eq_some_iff hb).mpr ⟨rfl, hsum, hrange⟩
    -- the last index of the array does not fit the field of dimension `i`
    obtain ⟨idx, hidx, hcomp⟩ := exists_last hb hdim hpos
    obtain ⟨eid, heid, -⟩ := (hinj _ hmake).1 idx hidx
    have hfit : ¬ FieldsFit (fields beyond bounds idx) := by
      rw [fieldsFit_iff]
      intro h
      have hread := h i hi
      have hval := toNat_eq_of_toInt_nonneg
        (by rw [dimRead_toInt]; exact hidx.nonneg i hi)
      rw [dimRead_toInt, hcomp i hi] at hval
      have hcast : ((2 ^ widthOf (bounds.index beyond i).toInt : Nat) : Int) =
          2 ^ widthOf (bounds.index beyond i).toInt := by rfl
      omega
    rw [(elementId_spec hsum hidx.dimension).2 hfit] at heid
    exact absurd heid (by simp)
  · rintro (hdim | ⟨i, hi, hout⟩ | hsum | hfit)
    · refine compressesInjectively_of_fit hb ?_
      intro i hi
      rw [component_eq_index hdim beyond hi]
      exact le_two_pow_widthOf _
    · intro bits hmake
      have hin := ((make_eq_some_iff hb).mp hmake).2.2 i hi
      omega
    · intro bits hmake
      obtain ⟨rfl, hle, -⟩ := (make_eq_some_iff hb).mp hmake
      omega
    · exact compressesInjectively_of_fit hb hfit

/-- An array of 300 by 4000 elements. -/
theorem compressesInjectively_300_4000 :
    CompressesInjectively (fun _ => 0) (index2D 300 4000) ↔
      WidthsFit (fun _ => 0) (index2D 300 4000) := by
  refine compressesInjectively_iff (.d2 300 4000) ?_
  intro i hi
  simp only [dimension_index2D] at hi
  interval_cases i <;> decide

/-- Two elements in each of five dimensions, and ones in the memory behind: the fourth component
gets no bit. -/
theorem not_compressesInjectively_two :
    ¬ CompressesInjectively (fun _ => 1) (index5D 2 2 2 2 2) := by
  intro h
  have hmake : make (fun _ => 1) (index5D 2 2 2 2 2) = .ok (some [18, 18, 1, 0, 0]) := by decide
  have hin : InBounds (index5D 2 2 2 2 2) (index5D 0 0 0 1 0) :=
    ⟨.d5 _ _ _ _ _, rfl, by decide, by decide⟩
  obtain ⟨eid, heid, -⟩ := (h _ hmake).1 _ hin
  have herr : elementId [18, 18, 1, 0, 0] (index5D 0 0 0 1 0) = .error .assertion := by decide
  rw [herr] at heid
  exact absurd heid (by simp)

end CharmRuntime.Location
