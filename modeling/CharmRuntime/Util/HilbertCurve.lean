import CharmRuntime.Util.HilbertSound

/-!
# Util.HilbertCurve

**The Hilbert curve.** The functions of `hilbert.C` find the number of levels in a number or in a
point. A level more than needed changes nothing (`curve_succ`), because the first part of the cube
has the corners that a level less starts with; so both functions may be read with any number of
levels that is enough (`int_to_Hilbert_eq`, `Hilbert_to_int_eq`). Where the curve leaves a part it
enters the next one at the side of the corner that it left (`exists_seam`), and below that level it
stays in corners (`encodeChunks_succ`).
-/

namespace CharmRuntime.Util.Hilbert

open Lib CharmRuntime.Lib.BigEndian List Nat Bool

/-- The point of a number, by `n` levels. -/
def curve (dim n i : Nat) : List Nat :=
  transposeBits
    (encodeChunks (2 ^ dim - 1) (initialStartEnd n dim) (BigEndian.digits (2 ^ dim) n i)) dim

/-- The number of a point, by `n` levels. -/
def curveInv (dim n : Nat) (x : List Nat) : Nat :=
  value (2 ^ dim) (decodeChunks (2 ^ dim - 1) (initialStartEnd n dim) (transposeBits x n))

/-- Points of the cube with sides of `2 ^ n`. -/
def Cube (dim n : Nat) : Set (List Nat) := {x | x.length = dim ∧ ∀ a ∈ x, a < 2 ^ n}

/-- `y` is `x` but for one coordinate, which is one more or one less. -/
def UnitStep (x y : List Nat) :
    Prop := ∃ j a b, x[j]? = some a ∧ y = x.set j b ∧ (b = a + 1 ∨ a = b + 1)

variable {dim n i : Nat} {x : List Nat}

/-! ### Levels that are enough -/

theorem curve_mem (dim n i : Nat) : curve dim n i ∈ Cube dim n := by
  refine ⟨length_transpose _ _, fun a ha => ?_⟩
  have hlt := transpose_lt _ _ a ha
  rwa [length_encodeChunks, BigEndian.length_digits] at hlt

/-- **The curve, there and back.** -/
theorem curveInv_curve (hdim : 0 < dim) (hi : i < (2 ^ dim) ^ n) :
    curveInv dim n (curve dim n i) = i := by
  have hcorners := corners_initial hdim n
  have hdigits : ∀ d ∈ BigEndian.digits (2 ^ dim) n i, d < 2 ^ dim :=
    mem_digits_lt (Nat.two_pow_pos dim)
  have htranspose := transpose_transpose (encodeChunks_lt hdim hdigits hcorners)
  rw [length_encodeChunks, BigEndian.length_digits] at htranspose
  unfold curveInv curve
  rw [htranspose, decodeChunks_encodeChunks hdim hdigits hcorners, value_digits hi]

/-- **The curve, back and there.** -/
theorem curve_curveInv (hdim : 0 < dim) (hx : x ∈ Cube dim n) :
    curve dim n (curveInv dim n x) = x ∧ curveInv dim n x < (2 ^ dim) ^ n := by
  obtain ⟨hlength, hlt⟩ := hx
  have hchunks : ∀ y ∈ transposeBits x n, y < 2 ^ dim := by
    rw [← hlength]
    exact transpose_lt x n
  obtain ⟨hencode, hdigits⟩ := encodeChunks_decodeChunks hdim hchunks (corners_initial hdim n)
  have hvalue := digits_value hdigits
  have hbound := value_lt hdigits
  rw [length_decodeChunks, length_transpose] at hvalue hbound
  unfold curve curveInv
  rw [hvalue, hencode, ← hlength]
  exact ⟨transpose_transpose hlt, hlength ▸ hbound⟩

variable {c : Nat × Nat} {t : Nat}

theorem encode_zero (h : Corners dim c t) : grayEncodeTravel c.1 c.2 (2 ^ dim - 1) 0 = c.1 := by
  rw [encode_eq h, gray_zero, rotl_zero, zero_xor]

theorem child_initial (hdim : 0 < dim) (n : Nat) :
    childStartEnd (initialStartEnd (n + 1) dim).1 (initialStartEnd (n + 1) dim).2 (2 ^ dim - 1) 0 =
    initialStartEnd n dim := by
  have hcorners := corners_initial hdim (n + 1)
  obtain ⟨h, hpow, hpos⟩ := exists_parts hdim
  have hmod :
    (((-((n + 1 : Nat) : Int) - 1) % dim).toNat + 1) % dim = ((-(n : Int) - 1) % dim).toNat := by
    have hnonneg := Int.emod_nonneg (-n - 1) (show (dim : Int) ≠ 0 by omega)
    refine Int.ofNat.inj ?_
    change (((((-((n + 1) : Int) - 1) % dim).toNat + 1) % dim : Nat) : Int) =
      (((-(n : Int) - 1) % dim).toNat)
    rw [Int.toNat_of_nonneg hnonneg, Int.natCast_mod, Int.natCast_add,
      Int.toNat_of_nonneg (Int.emod_nonneg _ (show (dim : Int) ≠ 0 by omega)), Int.emod_add_emod]
    congr 1
    omega
  rw [child_eq, startPart_zero, encode_zero hcorners, show endPart (2 ^ dim - 1) 0 =
    1 from endPart_even (m := 0) (by omega), encode_eq hcorners, show gray 1 = 2 ^ 0 from rfl,
    rotl_two_pow hdim hcorners.place, initial_eq hdim n, zero_add, hmod]
  exact congrArg _ (Nat.xor_zero _)

theorem transpose_zero_cons (l : List Nat) (nDests : Nat) :
    transposeBits (0 :: l) nDests = transposeBits l nDests := by
  rw [transpose_eq, transpose_eq]
  refine map_congr_left fun j _ => ?_
  rw [map_cons, Nat.zero_div, zero_mod, value_cons, zero_mul, zero_add]

/-- **A level more** than a number needs changes nothing. -/
theorem curve_succ (hdim : 0 < dim) (hi : i < (2 ^ dim) ^ n) :
    curve dim (n + 1) i = curve dim n i := by
  have hpow : i < (2 ^ dim) ^ (n + 1) :=
    lt_of_lt_of_le hi (Nat.pow_le_pow_right (Nat.two_pow_pos dim) (le_succ n))
  have hcorners := corners_initial hdim (n + 1)
  have hstart : (initialStartEnd (n + 1) dim).1 = 0 := rfl
  unfold curve
  rw [digits_succ hpow, div_eq_of_lt hi, mod_eq_of_lt hi, encodeChunks, encode_zero hcorners,
    child_initial hdim, hstart, transpose_zero_cons]

theorem curve_eq (hdim : 0 < dim) (hi : i < (2 ^ dim) ^ n) {m : Nat} (hle : n ≤ m) :
    curve dim m i = curve dim n i := by
  induction m, hle using le_induction with
  | base => rfl
  | succ m hle ih =>
    rw [curve_succ hdim (lt_of_lt_of_le hi (Nat.pow_le_pow_right (Nat.two_pow_pos dim) hle)), ih]

theorem curveInv_eq (hdim : 0 < dim) (hx : x ∈ Cube dim n) {m : Nat} (hle : n ≤ m) :
    curveInv dim m x = curveInv dim n x := by
  obtain ⟨hcurve, hlt⟩ := curve_curveInv hdim hx
  have hpow := lt_of_lt_of_le hlt (Nat.pow_le_pow_right (Nat.two_pow_pos dim) hle)
  have hback := curveInv_curve hdim hpow
  rwa [curve_eq hdim hlt hle, hcurve] at hback

theorem chunksOf_eq (p n i : Nat) : chunksOf p n i = BigEndian.digits p n i := by
  induction n generalizing i with
  | zero => rfl
  | succ n ih => rw [chunksOf, BigEndian.digits, ih]

/-- `int_to_Hilbert` with any number of levels that is enough. -/
theorem int_to_Hilbert_eq (hdim : 0 < dim) (hn : 1 ≤ n) (hi : i < (2 ^ dim) ^ n) :
    intToHilbert i dim = curve dim n i := by
  have hbase : 1 < 2 ^ dim := Nat.one_lt_two_pow (pos_iff_ne_zero.mp hdim)
  have hle : max 1 (clog (2 ^ dim) (i + 1)) ≤ n := max_le hn (clog_le_of_le_pow hi)
  have hlt : i < (2 ^ dim) ^ max 1 (clog (2 ^ dim) (i + 1)) :=
    lt_of_lt_of_le (le_pow_clog hbase (i + 1))
      (Nat.pow_le_pow_right (Nat.two_pow_pos dim) (le_max_right _ _))
  rw [curve_eq hdim hlt hle]
  unfold intToHilbert unpackIndex packCoords curve
  simp only [chunksOf_eq, BigEndian.length_digits]

theorem foldl_biggest (x : List Nat) (b : Nat) :
    b ≤ x.foldl (fun biggest coord => if biggest < coord then coord else biggest) b ∧
      (∀ a ∈ x, a ≤ x.foldl (fun biggest coord => if biggest < coord then coord else biggest) b) ∧
      ∀ m, b < m → (∀ a ∈ x, a < m) →
      x.foldl (fun biggest coord => if biggest < coord then coord else biggest) b < m := by
  induction x generalizing b with
  | nil => exact ⟨le_refl b, fun a ha => absurd ha not_mem_nil, fun m hb _ => hb⟩
  | cons c x ih =>
    obtain ⟨hle, hall, hlt⟩ := ih (if b < c then c else b)
    have hboth : b ≤ (if b < c then c else b) ∧ c ≤ (if b < c then c else b) := by
      split <;> omega
    refine ⟨hboth.1.trans hle, forall_mem_cons.mpr ⟨hboth.2.trans hle, hall⟩, fun m hb hm => ?_⟩
    · obtain ⟨hc, hx⟩ := forall_mem_cons.mp hm
      refine hlt m ?_ hx
      split
      · exact hc
      · exact hb

/-- `Hilbert_to_int` with any number of levels that is enough. -/
theorem Hilbert_to_int_eq (hdim : 0 < dim) (hn : 1 ≤ n) (hx : x ∈ Cube dim n) :
    hilbertToInt x dim = curveInv dim n x := by
  obtain ⟨hlength, hx⟩ := hx
  obtain ⟨-, hall, hlt⟩ := foldl_biggest x 0
  have hbig := hlt _ (Nat.two_pow_pos n) hx
  unfold hilbertToInt unpackCoords
  dsimp only
  generalize x.foldl (fun biggest coord => if biggest < coord then coord else biggest) 0 =
    biggest at hall hbig ⊢
  have hle : max 1 (clog 2 (biggest + 1)) ≤ n := max_le hn (clog_le_of_le_pow hbig)
  have hmem : x ∈ Cube dim (max 1 (clog 2 (biggest + 1))) := by
    refine ⟨hlength, fun a ha => ?_⟩
    have hclog : biggest + 1 ≤ 2 ^ clog 2 (biggest + 1) := le_pow_clog (by decide) _
    have hpow := Nat.pow_le_pow_right (n := 2) (by decide) (le_max_right 1 (clog 2 (biggest + 1)))
    have ha := hall a ha
    omega
  rw [curveInv_eq hdim hmem hle, length_transpose]
  rfl

/-! ### The functions are inverse to each other -/

theorem exists_levels (hdim : 0 < dim) (i : Nat) : ∃ n, 1 ≤ n ∧ i < (2 ^ dim) ^ n := by
  have hbase : 1 < 2 ^ dim := Nat.one_lt_two_pow (pos_iff_ne_zero.mp hdim)
  exact ⟨i + 1, succ_pos i, (lt_succ_self i).trans (Nat.lt_pow_self hbase)⟩

theorem exists_cube (hx : x.length = dim) : ∃ n, 1 ≤ n ∧ x ∈ Cube dim n := by
  obtain ⟨-, hall, -⟩ := foldl_biggest x 0
  refine ⟨x.foldl (fun biggest coord => if biggest < coord then coord else biggest) 0 + 1,
    succ_pos _, hx, fun a ha => ?_⟩
  exact lt_of_lt_of_le (lt_succ_of_le (hall a ha)) (Nat.lt_two_pow_self).le

theorem Hilbert_to_int_int_to_Hilbert (hdim : 0 < dim) (i : Nat) :
    hilbertToInt (intToHilbert i dim) dim = i := by
  obtain ⟨n, hn, hi⟩ := exists_levels hdim i
  rw [int_to_Hilbert_eq hdim hn hi, Hilbert_to_int_eq hdim hn (curve_mem dim n i),
    curveInv_curve hdim hi]

theorem int_to_Hilbert_Hilbert_to_int (hdim : 0 < dim) (hx : x.length = dim) :
    intToHilbert (hilbertToInt x dim) dim = x := by
  obtain ⟨n, hn, hmem⟩ := exists_cube hx
  obtain ⟨hcurve, hlt⟩ := curve_curveInv hdim hmem
  rw [Hilbert_to_int_eq hdim hn hmem, int_to_Hilbert_eq hdim hn hlt, hcurve]

theorem int_to_Hilbert_bijOn (hdim : 0 < dim) {k : Nat} (hk : 1 ≤ k) :
    Set.BijOn (fun i => intToHilbert i dim) {i | i < 2 ^ (dim * k)} (Cube dim k) := by
  rw [pow_mul]
  refine Set.InvOn.bijOn (show Set.InvOn (fun x => hilbertToInt x dim) _ _ _ from ⟨?_, ?_⟩) ?_ ?_
  · exact fun i _ => Hilbert_to_int_int_to_Hilbert hdim i
  · exact fun x hx => int_to_Hilbert_Hilbert_to_int hdim hx.1
  · intro i hi
    change intToHilbert i dim ∈ Cube dim k
    rw [int_to_Hilbert_eq hdim hk hi]
    exact curve_mem dim k i
  · intro x hx
    change hilbertToInt x dim < (2 ^ dim) ^ k
    rw [Hilbert_to_int_eq hdim hk hx]
    exact (curve_curveInv hdim hx).2

/-! ### Unit steps -/

theorem encode_mask (h : Corners dim c t) :
    grayEncodeTravel c.1 c.2 (2 ^ dim - 1) (2 ^ dim - 1) = c.2 := by
  have hplace := h.place
  have hones := gray_ones (dim - 1)
  rw [Nat.sub_add_cancel (by omega)] at hones
  rw [encode_eq h, hones, rotl_two_pow (by omega) hplace, show dim - 1 + (t + 1) = t + dim by omega,
    add_mod_right, mod_eq_of_lt hplace, ← h.xor, Nat.xor_comm c.1, xor_xor_cancel_right]

/-- The first number stays at the `start` corner. -/
theorem encodeChunks_zero (h : Corners dim c t) (n : Nat) :
    encodeChunks (2 ^ dim - 1) c (replicate n 0) = replicate n c.1 := by
  induction n generalizing c t with
  | zero => rfl
  | succ n ih =>
    have hpos := Nat.two_pow_pos dim
    obtain ⟨t', hchild⟩ := h.child (zero_lt_of_lt h.place) hpos
    rw [replicate_succ, encodeChunks, ih hchild, child_eq, startPart_zero,
      encode_zero h, ← replicate_succ]

/-- The last number stays at the `end` corner. -/
theorem encodeChunks_mask (h : Corners dim c t) (n : Nat) :
    encodeChunks (2 ^ dim - 1) c (replicate n (2 ^ dim - 1)) = replicate n c.2 := by
  induction n generalizing c t with
  | zero => rfl
  | succ n ih =>
    have hpos := Nat.two_pow_pos dim
    obtain ⟨t', hchild⟩ := h.child (zero_lt_of_lt h.place) (sub_lt hpos one_pos)
    rw [replicate_succ, encodeChunks, ih hchild, child_eq, endPart_mask,
      encode_mask h, ← replicate_succ]

/-- **The seam of two parts**: the `end` of one and the `start` of the next differ where the parts
do. -/
theorem exists_seam {d : Nat} (h : d + 1 < 2 ^ dim) :
    ∃ k, endPart (2 ^ dim - 1) d < 2 ^ dim ∧ startPart (d + 1) < 2 ^ dim ∧
    gray d ^^^ gray (d + 1) = 2 ^ k ∧ gray (endPart (2 ^ dim - 1) d) ^^^ gray (startPart (d + 1)) =
    2 ^ k ∧
    (gray (endPart (2 ^ dim - 1) d)).testBit k = !(gray d).testBit k := by
  obtain ⟨m, rfl | rfl⟩ := even_or_odd' d
  · obtain ⟨k, hpair, -⟩ := gray_square m
    have hbit := testBit_of_xor (j := 0) (hpair.trans (pow_zero 2).symm)
    rw [endPart_even (by omega), startPart_odd]
    refine ⟨0, by omega, by omega, hpair, (Nat.xor_comm _ _).trans hpair, ?_⟩
    rw [hbit, decide_eq_true rfl, true_xor, Bool.not_not]
  · obtain ⟨h', hpow, -⟩ := exists_parts (show 0 < dim from pos_of_ne_zero (by rintro rfl; omega))
    obtain ⟨k, -, hpair, hnext, hsquare⟩ := gray_square m
    have hbit := testBit_of_xor (j := k + 1) hnext
    have hsame := testBit_of_xor (j := k + 1) (hpair.trans (pow_zero 2).symm)
    rw [decide_eq_true rfl, true_xor] at hbit
    rw [decide_eq_false (succ_ne_zero k).symm, false_xor] at hsame
    rw [endPart_odd (by omega), startPart_even]
    refine ⟨k + 1, by omega, by omega, hnext, (Nat.xor_comm _ _).trans hsquare, ?_⟩
    rw [← hsame, hbit, Bool.not_not]

theorem encode_testBit {k a b : Nat} (h : Corners dim c t) (ha : a < 2 ^ dim) (hb : b < 2 ^ dim)
    (hk : k < dim)
    (hbit : (gray a).testBit k = !(gray b).testBit k) :
    (grayEncodeTravel c.1 c.2 (2 ^ dim - 1) a).testBit ((k + (t + 1)) % dim) =
      !(grayEncodeTravel c.1 c.2 (2 ^ dim - 1) b).testBit ((k + (t + 1)) % dim) := by
  rw [encode_eq h, encode_eq h, testBit_xor, testBit_xor, testBit_rotl_mod (gray_lt ha) h.place hk,
    testBit_rotl_mod (gray_lt hb) h.place hk, hbit, Bool.not_xor]

/-- **A step of the curve, level by level**: up to a level nothing changes, there one place does,
and below it the parts stay in corners on both sides of that place. -/
theorem encodeChunks_succ (h : Corners dim c t) {n i : Nat} (hi : i + 1 < (2 ^ dim) ^ n) :
    ∃ q x y b m, b < dim ∧ y.testBit b = !x.testBit b ∧
      encodeChunks (2 ^ dim - 1) c (BigEndian.digits (2 ^ dim) n i) = q ++ x :: replicate m y ∧
      encodeChunks (2 ^ dim - 1) c (BigEndian.digits (2 ^ dim) n (i + 1)) = q ++ (x ^^^ 2 ^ b) ::
      replicate m (y ^^^ 2 ^ b) := by
  have hdim : 0 < dim := zero_lt_of_lt h.place
  induction n generalizing c t i with
  | zero =>
    rw [pow_zero] at hi
    omega
  | succ n ih =>
    have hpos : 0 < (2 ^ dim) ^ n := Nat.pow_pos (Nat.two_pow_pos dim)
    have hsplit := div_add_mod i ((2 ^ dim) ^ n)
    have hlow := mod_lt i hpos
    have hhigh : i / (2 ^ dim) ^ n < 2 ^ dim := Nat.div_lt_of_lt_mul (by exact lt_of_succ_lt hi)
    rw [digits_succ (lt_of_succ_lt hi), digits_succ hi]
    generalize i / (2 ^ dim) ^ n = d at hsplit hhigh ⊢
    generalize i % (2 ^ dim) ^ n = r at hsplit hlow ⊢
    by_cases hr : r + 1 < (2 ^ dim) ^ n
    · -- The parts of this level are the same.
      obtain ⟨hdiv, hmod⟩ : (i + 1) / (2 ^ dim) ^ n = d ∧ (i + 1) % (2 ^ dim) ^ n = r + 1 := by
        rw [← hsplit, add_assoc, mul_add_div hpos, mul_add_mod, div_eq_of_lt hr, mod_eq_of_lt hr]
        exact ⟨add_zero d, rfl⟩
      obtain ⟨t', hchild⟩ := h.child hdim hhigh
      obtain ⟨q, x, y, b, m, hb, hbit, hfirst, hnext⟩ := ih hchild hr
      refine ⟨grayEncodeTravel c.1 c.2 (2 ^ dim - 1) d :: q, x, y, b, m, hb, hbit, ?_, ?_⟩
      · rw [encodeChunks, hfirst, cons_append]
      · rw [hdiv, hmod, encodeChunks, hnext, cons_append]
    · have hr' : r + 1 = (2 ^ dim) ^ n := by omega
      obtain ⟨hdiv, hmod⟩ : (i + 1) / (2 ^ dim) ^ n = d + 1 ∧ (i + 1) % (2 ^ dim) ^ n = 0 := by
        rw [← hsplit, add_assoc, hr', ← mul_succ]
        exact ⟨Nat.mul_div_cancel_left _ hpos, mul_mod_right _ _⟩
      have hd : d + 1 < 2 ^ dim := by
        rw [← hdiv]
        exact Nat.div_lt_of_lt_mul (by rwa [← pow_succ])
      obtain ⟨k, hend, hstart, hparts, hseam, hbit⟩ := exists_seam hd
      obtain ⟨hk, hx⟩ := encode_xor h hhigh hd hparts
      obtain ⟨-, hy⟩ := encode_xor h hend hstart hseam
      have hnext := congrArg (grayEncodeTravel c.1 c.2 (2 ^ dim - 1) d ^^^ ·) hx
      have hbelow :=
        congrArg (grayEncodeTravel c.1 c.2 (2 ^ dim - 1) (endPart (2 ^ dim - 1) d) ^^^ ·) hy
      simp only [xor_xor_cancel_left] at hnext hbelow
      obtain ⟨t1, hchild1⟩ := h.child hdim hhigh
      obtain ⟨t2, hchild2⟩ := h.child hdim hd
      have hlast : r = (2 ^ dim) ^ n - 1 := by omega
      refine ⟨[], grayEncodeTravel c.1 c.2 (2 ^ dim - 1) d, grayEncodeTravel c.1 c.2 (2 ^ dim - 1)
        (endPart (2 ^ dim - 1) d), (k + (t + 1)) % dim, n, mod_lt _ hdim,
        encode_testBit h hend hhigh hk hbit, ?_, ?_⟩
      · rw [encodeChunks, hlast, digits_last (Nat.two_pow_pos dim), encodeChunks_mask hchild1]
        rfl
      · rw [hdiv, hmod, encodeChunks, BigEndian.digits_zero,
          encodeChunks_zero hchild2, ← hnext, ← hbelow]
        rfl

/-- The bits of a coordinate. -/
def bitsAt (e : Nat) (srcs : List Nat) : List Nat := srcs.map fun src => (src.testBit e).toNat

theorem transpose_eq_bits (srcs : List Nat) (nDests : Nat) :
    transposeBits srcs nDests = (range nDests).map fun j =>
    value 2 (bitsAt (nDests - 1 - j) srcs) := by
  rw [transpose_eq]
  refine map_congr_left fun j _ => congrArg (value 2) (map_congr_left fun src _ => ?_)
  exact (toNat_testBit src _).symm

theorem value_zeros (m : Nat) : value 2 (replicate m 0) = 0 := by
  rw [← BigEndian.digits_zero 2 m]
  exact value_digits (Nat.two_pow_pos m)

theorem value_ones (m : Nat) : value 2 (replicate m 1) + 1 = 2 ^ m := by
  have hvalue := value_digits (sub_lt (Nat.two_pow_pos m) one_pos)
  rw [digits_last (by decide) m] at hvalue
  rw [hvalue, Nat.sub_add_cancel Nat.one_le_two_pow]

theorem value_turned (l : List Nat) (bit : Bool) (m : Nat) :
    value 2 (l ++ (!bit).toNat :: replicate m bit.toNat) =
    value 2 (l ++ bit.toNat :: replicate m (!bit).toNat) + 1 ∨
      value 2 (l ++ bit.toNat :: replicate m (!bit).toNat) =
      value 2 (l ++ (!bit).toNat :: List.replicate m bit.toNat) + 1 := by
  have hones := value_ones m
  rw [value_append, value_append, value_cons, value_cons]
  simp only [length_cons, length_replicate]
  cases bit with
  | false =>
    simp only [Bool.not_false, toNat_true, toNat_false, value_zeros]
    omega
  | true =>
    simp only [Bool.not_true, toNat_true, toNat_false, value_zeros]
    omega

theorem bitsAt_seam (e : Nat) (q : List Nat) (x y m : Nat) :
    bitsAt e (q ++ x :: replicate m y) = bitsAt e q ++ (x.testBit e).toNat ::
    replicate m (y.testBit e).toNat := by
  unfold bitsAt
  rw [map_append, map_cons, map_replicate]

theorem unitStep_transpose {q : List Nat} {x y b m : Nat} (hb : b < dim)
    (hbit : y.testBit b = !x.testBit b) :
    UnitStep (transposeBits (q ++ x :: replicate m y) dim)
      (transposeBits (q ++ (x ^^^ 2 ^ b) :: replicate m (y ^^^ 2 ^ b)) dim) := by
  have hturn (z e : Nat) :
    (z ^^^ 2 ^ b).testBit e = if b = e then !z.testBit e else z.testBit e := by
    split <;> simp [*]
  rw [transpose_eq_bits, transpose_eq_bits]
  refine ⟨dim - 1 - b, value 2 (bitsAt b (q ++ x :: replicate m y)),
    value 2 (bitsAt b (q ++ (x ^^^ 2 ^ b) :: replicate m (y ^^^ 2 ^ b))), ?_, ?_, ?_⟩
  · rw [getElem?_map, getElem?_range (by omega), Option.map_some, show dim - 1 -
      (dim - 1 - b) = b by omega]
  · refine ext_getElem (by simp) fun k hk _ => ?_
    have hk : k < dim := by simpa using hk
    rw [getElem_set]
    simp only [getElem_map, getElem_range]
    split
    · subst k
      rw [show dim - 1 - (dim - 1 - b) = b by omega]
    · have hne : b ≠ dim - 1 - k := by omega
      rw [bitsAt_seam, bitsAt_seam, hturn, hturn, if_neg hne, if_neg hne]
  · rw [bitsAt_seam, bitsAt_seam, hturn, hturn, if_pos rfl, if_pos rfl, hbit, Bool.not_not]
    exact value_turned _ _ m

theorem int_to_Hilbert_step (hdim : 0 < dim) (i : Nat) :
    UnitStep (intToHilbert i dim) (intToHilbert (i + 1) dim) := by
  obtain ⟨n, hn, hi⟩ := exists_levels hdim (i + 1)
  obtain ⟨q, x, y, b, m, hb, hbit, hfirst, hnext⟩ := encodeChunks_succ (corners_initial hdim n) hi
  rw [int_to_Hilbert_eq hdim hn (lt_of_succ_lt hi), int_to_Hilbert_eq hdim hn hi]
  unfold curve
  rw [hfirst, hnext]
  exact unitStep_transpose hb hbit

/-! ### One dimension -/

theorem encodeChunks_line {l : List Nat} (h : ∀ d ∈ l, d < 2) : encodeChunks 1 (0, 1) l = l := by
  induction l with
  | nil => rfl
  | cons d l ih =>
    obtain ⟨hd, hl⟩ := forall_mem_cons.mp h
    have hpart : grayEncodeTravel 0 1 1 d = d ∧ childStartEnd 0 1 1 d = (0, 1) := by
      obtain rfl | rfl : d = 0 ∨ d = 1 := by omega
      · decide
      · decide
    rw [encodeChunks, hpart.1, hpart.2, ih hl]

theorem Hilbert_to_int_line (a : Nat) : hilbertToInt [a] 1 = a := by
  obtain ⟨n, hn, ha⟩ := exists_levels one_pos a
  have hdigits : ∀ d ∈ BigEndian.digits 2 n a, d < 2 := mem_digits_lt (by decide)
  have hcurve : intToHilbert a 1 = [a] := by
    rw [int_to_Hilbert_eq Nat.one_pos hn ha]
    unfold curve
    rw [initial_eq one_pos, Int.natCast_one, Int.emod_one, show (0 : Int).toNat = 0 from rfl,
      pow_zero, pow_one, encodeChunks_line hdigits, transpose_eq_bits]
    simp only [range_one, map_singleton]
    have hbits : bitsAt 0 (BigEndian.digits 2 n a) = BigEndian.digits 2 n a := by
      refine (map_congr_left fun d hd => ?_).trans (map_id _)
      have hd := hdigits d hd
      obtain rfl | rfl : d = 0 ∨ d = 1 := by omega
      · decide
      · decide
    rw [hbits, value_digits (show a < 2 ^ n from ha)]
  have hback := Hilbert_to_int_int_to_Hilbert one_pos a
  rwa [hcurve] at hback

/-! ### The curve -/

/-- **The Hilbert curve**: cubes are filled, steps are unit steps, and the two functions are inverse
to each other. -/
theorem hilbert_curve (hdim : 0 < dim) :
    (∀ k, 1 ≤ k → Set.BijOn (fun i => intToHilbert i dim) {i | i < 2 ^ (dim * k)} (Cube dim k)) ∧
      (∀ i, UnitStep (intToHilbert i dim) (intToHilbert (i + 1) dim)) ∧
      (∀ i, hilbertToInt (intToHilbert i dim) dim = i) ∧
      ∀ x : List Nat, x.length = dim → intToHilbert (hilbertToInt x dim) dim = x :=
  ⟨fun _ hk => int_to_Hilbert_bijOn hdim hk, int_to_Hilbert_step hdim,
  Hilbert_to_int_int_to_Hilbert hdim,
    fun _ hx => int_to_Hilbert_Hilbert_to_int hdim hx⟩

theorem hilbert_curve_plane : 0 < 2 ∧ hilbertToInt (intToHilbert 11 2) 2 = 11 ∧
    UnitStep (intToHilbert 3 2) (intToHilbert 4 2) :=
  ⟨by decide, (hilbert_curve (by decide)).2.2.1 11, (hilbert_curve (by decide)).2.1 3⟩

end CharmRuntime.Util.Hilbert
