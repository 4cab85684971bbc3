import Mathlib.Data.Fintype.EquivFin
import CharmRuntime.Lib.BigEndian
import CharmRuntime.Util.Hilbert

/-!
# Util.HilbertSound

**The functions of the Hilbert curve are inverse to each other.** A level permutes the parts of a
cube (`decode_encode`, `encode_decode`), as long as the corners differ in one place (`Corners`),
which those of the parts do again (`Corners.child`). The number of levels is the same for a number
and for its point, because the first chunk of either is 0 only if that of the other is.
-/

namespace CharmRuntime.Util.Hilbert

open Lib CharmRuntime.Lib.BigEndian List Nat

/-! ### Gray codes -/

theorem xor_window (i sh : Nat) :
    (i ^^^ i >>> sh) >>> sh = i >>> sh ^^^ i >>> (sh * 2) ∧
    (i ^^^ i >>> sh) ^^^ (i ^^^ i >>> sh) >>> sh = i ^^^ i >>> (sh * 2) := by
  have hdiv : (i ^^^ i >>> sh) >>> sh = i >>> sh ^^^ i >>> (sh * 2) := by
    rw [shiftRight_xor_distrib, ← shiftRight_add, mul_two]
  exact ⟨hdiv, by rw [hdiv, Nat.xor_assoc, xor_xor_cancel_left]⟩

theorem le_one_of_xor_shift {a sh : Nat} (hsh : 1 ≤ sh) (h : a ^^^ a >>> sh ≤ 1) : a ≤ 1 := by
  by_contra hgt
  have hsize : 1 < a.size := lt_size.mpr (by omega)
  have htop : a.testBit (a.size - 1) = true := by
    obtain ⟨j, hj, hbit⟩ :=
      exists_ge_and_testBit_of_ge_two_pow (lt_size.mp (show a.size - 1 < a.size by omega))
    have hlt := lt_size.mpr (ge_two_pow_of_testBit hbit)
    rwa [show a.size - 1 = j by omega]
  have hshift : (a >>> sh).testBit (a.size - 1) = false := by
    rw [testBit_shiftRight]
    exact testBit_lt_two_pow
      (lt_of_lt_of_le (lt_size_self a) (Nat.pow_le_pow_right (by decide) (by omega)))
  have hbit : (a ^^^ a >>> sh).testBit (a.size - 1) = true := by rw [testBit_xor, htop, hshift]; rfl
  have hge := ge_two_pow_of_testBit hbit
  have hpow : 2 ^ 1 ≤ 2 ^ (a.size - 1) := Nat.pow_le_pow_right (by decide) (by omega)
  omega

theorem grayDecodeLoop_eq {i n sh : Nat} (hsh : 1 ≤ sh) (hn : n = i ^^^ i >>> sh) :
    grayDecodeLoop n sh = i := by
  fun_induction grayDecodeLoop n sh with
  | case1 n sh div hle =>
    obtain ⟨hdiv, hnext⟩ := xor_window i sh
    rw [← hn] at hdiv hnext
    -- The window is as wide as the number.
    have hsmall : i >>> sh ≤ 1 := by
      refine le_one_of_xor_shift hsh ?_
      rw [← shiftRight_add, ← mul_two, ← hdiv]
      exact hle
    have hzero : i >>> (sh * 2) = 0 := by
      rw [mul_two, shiftRight_add, shiftRight_eq_div_pow _ sh]
      refine div_eq_of_lt (lt_of_le_of_lt hsmall ?_)
      exact Nat.one_lt_two_pow (by omega)
    rw [hnext, hzero, xor_zero]
  | case2 n sh div hgt ih =>
    obtain ⟨-, hnext⟩ := xor_window i sh
    rw [← hn] at hnext
    exact ih (by omega) hnext

/-- `gray_encode` is the reflected Gray code. -/
theorem grayEncode_eq_gray : grayEncode = gray := rfl

theorem gray_decode_gray (i : Nat) : grayDecode (gray i) = i := grayDecodeLoop_eq (le_refl 1) rfl

theorem exists_gray {n x : Nat} (hx : x < 2 ^ n) : ∃ i < 2 ^ n, gray i = x := by
  have hinj :
    Function.Injective fun i : Fin (2 ^ n) => (⟨gray i, gray_lt i.isLt⟩ : Fin (2 ^ n)) := by
    intro i j hij
    have hcode : gray i = gray j := congrArg Fin.val hij
    refine Fin.ext ?_
    rw [← gray_decode_gray i, hcode, gray_decode_gray]
  obtain ⟨i, hi⟩ := Finite.surjective_of_injective hinj ⟨x, hx⟩
  exact ⟨i, i.isLt, congrArg Fin.val hi⟩

/-! ### A level -/

/-- Corners that differ in the place `t`. -/
structure Corners (dim : Nat) (c : Nat × Nat) (t : Nat) : Prop where
  lt : c.1 < 2 ^ dim
  place : t < dim
  xor : c.1 ^^^ c.2 = 2 ^ t

variable {dim t i : Nat} {c : Nat × Nat}

theorem mask_succ (dim : Nat) : 2 ^ dim - 1 + 1 = 2 ^ dim := Nat.sub_add_cancel Nat.one_le_two_pow

theorem encode_eq (h : Corners dim c t) (i : Nat) :
    grayEncodeTravel c.1 c.2 (2 ^ dim - 1) i = rotl dim (t + 1) (gray i) ^^^ c.1 := by
  unfold grayEncodeTravel rotl
  dsimp only
  rw [grayEncode_eq_gray, h.xor, mask_succ, pow_succ]

theorem decode_eq (h : Corners dim c t) (x : Nat) :
    grayDecodeTravel c.1 c.2 (2 ^ dim - 1) x =
    grayDecode (rotl dim (dim - (t + 1)) (x ^^^ c.1)) := by
  unfold grayDecodeTravel rotl
  dsimp only
  rw [h.xor, ← pow_succ, mask_succ, Nat.pow_div h.place (by decide)]

theorem encode_lt (h : Corners dim c t) (i : Nat) :
    grayEncodeTravel c.1 c.2 (2 ^ dim - 1) i < 2 ^ dim := by
  rw [encode_eq h]
  exact xor_lt_two_pow (rotl_lt _ _ _) h.lt

/-- **A level is undone.** -/
theorem decode_encode (h : Corners dim c t) (hi : i < 2 ^ dim) :
    grayDecodeTravel c.1 c.2 (2 ^ dim - 1) (grayEncodeTravel c.1 c.2 (2 ^ dim - 1) i) = i := by
  rw [decode_eq h, encode_eq h, xor_xor_cancel_right, rotl_rotl (gray_lt hi) h.place,
    gray_decode_gray]

theorem encode_decode (h : Corners dim c t) {x : Nat} (hx : x < 2 ^ dim) :
    grayEncodeTravel c.1 c.2 (2 ^ dim - 1) (grayDecodeTravel c.1 c.2 (2 ^ dim - 1) x) = x ∧
      grayDecodeTravel c.1 c.2 (2 ^ dim - 1) x < 2 ^ dim := by
  obtain ⟨i, hi, hcode⟩ := exists_gray (rotl_lt dim (dim - (t + 1)) (x ^^^ c.1))
  have hrot := rotl_rotl (xor_lt_two_pow hx h.lt) (sub_le dim (t + 1))
  rw [Nat.sub_sub_self h.place] at hrot
  rw [decode_eq h, ← hcode, gray_decode_gray, encode_eq h, hcode, hrot, xor_xor_cancel_right]
  exact ⟨rfl, hi⟩

theorem encode_xor (h : Corners dim c t) {a b k : Nat} (ha : a < 2 ^ dim) (hb : b < 2 ^ dim)
    (hab : gray a ^^^ gray b = 2 ^ k) :
    k < dim ∧ grayEncodeTravel c.1 c.2 (2 ^ dim - 1) a ^^^ grayEncodeTravel c.1 c.2
      (2 ^ dim - 1) b =
      2 ^ ((k + (t + 1)) % dim) := by
  have hk : k < dim := by
    have hlt := xor_lt_two_pow (gray_lt ha) (gray_lt hb)
    rw [hab] at hlt
    exact (Nat.pow_lt_pow_iff_right (by decide)).mp hlt
  refine ⟨hk, ?_⟩
  rw [encode_eq h, encode_eq h, Nat.xor_comm (rotl dim (t + 1) (gray b)), ← Nat.xor_assoc,
    xor_xor_cancel_right, ← rotl_xor (gray_lt ha) (gray_lt hb) h.place, hab,
    rotl_two_pow hk h.place]

/-! ### The parts of a part -/

/-- The part whose corner is the `start` of the part `i`. -/
def startPart (i : Nat) : Nat := (max 0 ((i : Int) - 1 - ((i : Int) - 1) % 2)).toNat

/-- The part whose corner is the `end` of the part `i`. -/
def endPart (mask i : Nat) : Nat := min mask ((i + 1) ||| 1)

theorem child_eq (c : Nat × Nat) (mask i : Nat) : childStartEnd c.1 c.2 mask i =
    (grayEncodeTravel c.1 c.2 mask (startPart i), grayEncodeTravel c.1 c.2 mask (endPart mask i)) :=
    rfl

theorem startPart_zero : startPart 0 = 0 := rfl

theorem startPart_odd (m : Nat) : startPart (2 * m + 1) = 2 * m := by
  unfold startPart
  omega

theorem startPart_even (m : Nat) : startPart (2 * m + 2) = 2 * m := by
  unfold startPart
  omega

theorem or_one_even (m : Nat) : 2 * m ||| 1 = 2 * m + 1 :=
  (two_pow_add_eq_or_of_lt (i := 1) (by decide) m).symm

theorem or_one_odd (m : Nat) : 2 * m + 1 ||| 1 = 2 * m + 1 := by
  rw [← or_one_even, Nat.or_assoc, Nat.or_self]

theorem endPart_even {mask m : Nat} (h : 2 * m + 1 ≤ mask) : endPart mask (2 * m) = 2 * m + 1 := by
  unfold endPart
  rw [or_one_odd, min_eq_right h]

theorem endPart_odd {mask m : Nat} (h : 2 * m + 3 ≤ mask) :
    endPart mask (2 * m + 1) = 2 * m + 3 := by
  unfold endPart
  rw [show 2 * m + 1 + 1 = 2 * (m + 1) by omega, or_one_even]
  exact min_eq_right h

theorem endPart_mask (mask : Nat) : endPart mask mask = mask := by
  exact min_eq_left ((le_succ mask).trans left_le_or)

theorem exists_parts (hdim : 0 < dim) : ∃ h, 2 ^ dim = 2 * h ∧ 0 < h :=
  ⟨2 ^ (dim - 1), by rw [← pow_succ', succ_eq_add_one, Nat.sub_add_cancel hdim], Nat.two_pow_pos _⟩

theorem exists_corner (hdim : 0 < dim) (hi : i < 2 ^ dim) :
    ∃ k, startPart i < 2 ^ dim ∧ endPart (2 ^ dim - 1) i < 2 ^ dim ∧
    gray (startPart i) ^^^ gray (endPart (2 ^ dim - 1) i) = 2 ^ k := by
  obtain ⟨h, hpow, -⟩ := exists_parts hdim
  obtain ⟨m, rfl | rfl⟩ := even_or_odd' i
  · obtain rfl | ⟨m, rfl⟩ : m = 0 ∨ ∃ m', m = m' + 1 := by
      cases m with
      | zero => exact .inl rfl
      | succ m => exact .inr ⟨m, rfl⟩
    · refine ⟨0, ?_⟩
      rw [endPart_even (by omega), startPart_zero]
      exact ⟨by omega, by omega, rfl⟩
    · obtain ⟨k, -, -, -, hsquare⟩ := gray_square m
      refine ⟨k + 1, ?_⟩
      rw [endPart_even (by omega), show 2 * (m + 1) = 2 * m + 2 from rfl, startPart_even]
      exact ⟨by omega, by omega, hsquare⟩
  · obtain ⟨k, hpair, -, -, hsquare⟩ := gray_square m
    rw [startPart_odd]
    by_cases hlast : 2 * m + 3 ≤ 2 ^ dim - 1
    · rw [endPart_odd hlast]
      exact ⟨k + 1, by omega, by omega, hsquare⟩
    · have hmask : 2 ^ dim - 1 = 2 * m + 1 := by omega
      rw [hmask, endPart_mask]
      exact ⟨0, by omega, by omega, hpair⟩

/-- **The corners of a part differ in one place.** -/
theorem Corners.child (h : Corners dim c t) (hdim : 0 < dim) (hi : i < 2 ^ dim) :
    ∃ t', Corners dim (childStartEnd c.1 c.2 (2 ^ dim - 1) i) t' := by
  obtain ⟨k, hstart, hlast, hcode⟩ := exists_corner hdim hi
  exact ⟨_, encode_lt h _, mod_lt _ hdim, (encode_xor h hstart hlast hcode).2⟩

/-! ### The levels -/

@[simp] theorem length_encodeChunks (mask : Nat) (c : Nat × Nat) (l : List Nat) :
    (encodeChunks mask c l).length = l.length := by
  induction l generalizing c with
  | nil => rfl
  | cons i l ih => rw [encodeChunks, length_cons, ih, length_cons]

@[simp] theorem length_decodeChunks (mask : Nat) (c : Nat × Nat) (l : List Nat) :
    (decodeChunks mask c l).length = l.length := by
  induction l generalizing c with
  | nil => rfl
  | cons x l ih => rw [decodeChunks, length_cons, ih, length_cons]

theorem encodeChunks_lt (hdim : 0 < dim) {l : List Nat} (hl : ∀ i ∈ l, i < 2 ^ dim)
    (h : Corners dim c t) :
    ∀ x ∈ encodeChunks (2 ^ dim - 1) c l, x < 2 ^ dim := by
  induction l generalizing c t with
  | nil => exact fun x hx => absurd hx not_mem_nil
  | cons i l ih =>
    obtain ⟨hi, hl⟩ := forall_mem_cons.mp hl
    obtain ⟨t', hchild⟩ := h.child hdim hi
    exact forall_mem_cons.mpr ⟨encode_lt h i, ih hl hchild⟩

theorem decodeChunks_encodeChunks (hdim : 0 < dim) {l : List Nat} (hl : ∀ i ∈ l, i < 2 ^ dim)
    (h : Corners dim c t) :
    decodeChunks (2 ^ dim - 1) c (encodeChunks (2 ^ dim - 1) c l) = l := by
  induction l generalizing c t with
  | nil => rfl
  | cons i l ih =>
    obtain ⟨hi, hl⟩ := forall_mem_cons.mp hl
    obtain ⟨t', hchild⟩ := h.child hdim hi
    rw [encodeChunks, decodeChunks, decode_encode h hi, ih hl hchild]

theorem encodeChunks_decodeChunks (hdim : 0 < dim) {l : List Nat} (hl : ∀ x ∈ l, x < 2 ^ dim)
    (h : Corners dim c t) :
    encodeChunks (2 ^ dim - 1) c (decodeChunks (2 ^ dim - 1) c l) = l ∧
      ∀ i ∈ decodeChunks (2 ^ dim - 1) c l, i < 2 ^ dim := by
  induction l generalizing c t with
  | nil => exact ⟨rfl, fun i hi => absurd hi not_mem_nil⟩
  | cons x l ih =>
    obtain ⟨hx, hl⟩ := forall_mem_cons.mp hl
    obtain ⟨hencode, hlt⟩ := encode_decode h hx
    obtain ⟨t', hchild⟩ := h.child hdim hlt
    obtain ⟨hrest, hall⟩ := ih hl hchild
    rw [decodeChunks, encodeChunks, hencode, hrest]
    exact ⟨rfl, forall_mem_cons.mpr ⟨hlt, hall⟩⟩

theorem initial_eq (hdim : 0 < dim) (nChunks : Nat) :
    initialStartEnd nChunks dim = (0, 2 ^ ((-(nChunks : Int) - 1) % dim).toNat) := by
  have hpos : (0 : Int) < dim := by omega
  have hlt := Int.emod_lt_of_pos (-nChunks - 1) hpos
  have hfix :
    (if (-(nChunks : Int) - 1).tmod dim < 0 then (-(nChunks : Int) - 1).tmod dim +
    dim else (-(nChunks : Int) - 1).tmod dim) =
      (-nChunks - 1) % dim := by
    rw [Int.tmod_eq_emod]
    by_cases hdvd : 0 ≤ -(nChunks : Int) - 1 ∨ (dim : Int) ∣ -nChunks - 1
    · rw [if_pos hdvd]
      omega
    · rw [if_neg hdvd]
      omega
  unfold initialStartEnd
  dsimp only
  rw [hfix]

theorem corners_initial (hdim : 0 < dim) (nChunks : Nat) :
    Corners dim (initialStartEnd nChunks dim) ((-(nChunks : Int) - 1) % dim).toNat := by
  have hlt := Int.emod_lt_of_pos (-nChunks - 1) (show (0 : Int) < dim by omega)
  rw [initial_eq hdim]
  exact ⟨Nat.two_pow_pos dim, by omega, Nat.zero_xor _⟩

/-! ### Places of bits -/

theorem transpose_eq (srcs : List Nat) (nDests : Nat) : transposeBits srcs nDests =
    (range nDests).map fun j => value 2 (srcs.map fun src => src / 2 ^ (nDests - 1 - j) % 2) := by
  induction nDests generalizing srcs with
  | zero => rfl
  | succ n ih =>
    rw [transposeBits, ih, range_succ, map_append, map_singleton]
    refine congrArg₂ _ (map_congr_left fun j hj => ?_) ?_
    · have hlt := mem_range.mp hj
      rw [map_map]
      refine congrArg (value 2) (map_congr_left fun src _ => ?_)
      change src / 2 / 2 ^ (n - 1 - j) % 2 = _
      rw [Nat.div_div_eq_div_mul, ← pow_succ', show (n - 1 - j).succ = n + 1 - 1 - j by omega]
    · unfold value
      rw [foldl_map]
      simp

@[simp] theorem length_transpose (srcs : List Nat) (nDests : Nat) :
    (transposeBits srcs nDests).length = nDests := by
  rw [transpose_eq, length_map, length_range]

theorem transpose_lt (srcs : List Nat) (nDests : Nat) :
    ∀ x ∈ transposeBits srcs nDests, x < 2 ^ srcs.length := by
  intro x hx
  rw [transpose_eq] at hx
  obtain ⟨j, -, rfl⟩ := mem_map.mp hx
  have hlt := value_lt (l := srcs.map fun src => src / 2 ^ (nDests - 1 - j) % 2)
    (forall_mem_map.mpr fun src _ => mod_lt _ (by decide))
  rwa [length_map] at hlt

/-- **Places that are exchanged twice.** -/
theorem transpose_transpose {srcs : List Nat} {nDests : Nat} (h : ∀ src ∈ srcs, src < 2 ^ nDests) :
    transposeBits (transposeBits srcs nDests) srcs.length = srcs := by
  refine ext_getElem (length_transpose _ _) fun k hk hk' => ?_
  have hbits (j : Nat) : ∀ d ∈ srcs.map fun src => src / 2 ^ (nDests - 1 - j) % 2, d < 2 :=
    forall_mem_map.mpr fun src _ => mod_lt _ (by decide)
  have hplace (j : Nat) :
    value 2 (srcs.map fun src => src / 2 ^ (nDests - 1 - j) % 2) / 2 ^ (srcs.length - 1 - k) % 2 =
      srcs[k] / 2 ^ (nDests - 1 - j) % 2 := by
    have hget := value_div_mod (hbits j) (by rwa [length_map])
    simp only [length_map, getElem_map] at hget
    exact hget
  rw [getElem_of_eq (transpose_eq _ _) _, getElem_map, getElem_range, transpose_eq srcs, map_map]
  have hdigits := value_digits (h srcs[k] (getElem_mem hk'))
  rw [digits_eq_map] at hdigits
  refine Eq.trans (congrArg (value 2) (map_congr_left fun j _ => ?_)) hdigits
  exact hplace j

end CharmRuntime.Util.Hilbert
