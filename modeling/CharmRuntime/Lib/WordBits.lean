import Mathlib.Data.List.Lex
import Mathlib.Data.Nat.Bitwise
import Mathlib.Tactic.Ring

/-!
# Lib.WordBits

An array of machine words read as one string of bits, the highest bit of the first
word first. `bitAt ws j` is the bit at place `j` of the string, `false` beyond the
end. The lemmas say what the usual word-by-word loops do to it:

* a shift by `q` whole words and `r` bits moves every place by `q * w + r`
  (`bitAt_shiftUp`, `bitAt_shiftDown`);
* a word-by-word operation acts bit by bit (`bitAt_zipWith`, `bitAt_set`);
* comparing word by word, as unsigned numbers, compares the strings at the first
  place where they differ (`Before`, `before_words`).
-/

namespace CharmRuntime.Lib

open List Nat

variable {w : Nat}

/-- The bit at place `j`, counted from the highest bit of the first word. -/
def bitAt (ws : List (BitVec w)) (j : Nat) : Bool :=
  (ws.getD (j / w) 0#w).getMsbD (j % w)

variable (ws : List (BitVec w)) {j : Nat} {xs ys : List (BitVec w)}

/-- The bits of one word. -/
theorem bitAt_word (i : Nat) {t : Nat} (ht : t < w) :
    bitAt ws (w * i + t) = (ws.getD i 0#w).getMsbD t := by
  have hw : 0 < w := zero_lt_of_lt ht
  unfold bitAt
  rw [mul_add_div hw, div_eq_of_lt ht, mul_add_mod, mod_eq_of_lt ht, add_zero]

/-- Beyond the array there is nothing. -/
theorem bitAt_of_le (hw : 0 < w) {ws : List (BitVec w)} (h : w * ws.length ≤ j) :
    bitAt ws j = false := by
  have hle : ws.length ≤ j / w := (le_div_iff_mul_le hw).mpr (by rwa [mul_comm])
  unfold bitAt
  rw [getD_eq_default _ _ hle]
  simp

/-- A place as a word and a place in it. -/
theorem exists_place (hw : 0 < w) (j : Nat) : ∃ i t, t < w ∧ j = w * i + t :=
  ⟨j / w, j % w, mod_lt _ hw, (div_add_mod j w).symm⟩

@[simp] theorem bitAt_replicate (n j : Nat) : bitAt (replicate n 0#w) j = false := by
  unfold bitAt
  simp

/-- Zero words at the end add nothing. -/
theorem bitAt_append_zeros (n j : Nat) : bitAt (ws ++ replicate n 0#w) j = bitAt ws j := by
  unfold bitAt
  by_cases h : j / w < ws.length
  · rw [getD_append _ _ _ _ h]
  · have hle : ws.length ≤ j / w := Nat.le_of_not_lt h
    rw [getD_append_right _ _ _ _ hle, getD_eq_default _ _ hle, getD_eq_getElem?_getD,
      getElem?_replicate]
    split <;> rfl

/-- Cutting the array off keeps the bits before the cut. -/
theorem bitAt_take {n : Nat} (hj : j < w * n) : bitAt (ws.take n) j = bitAt ws j := by
  have hlt : j / w < n := Nat.div_lt_of_lt_mul hj
  unfold bitAt
  rw [getD_eq_getElem?_getD, getD_eq_getElem?_getD, getElem?_take_of_lt hlt]

/-! ### Word-by-word operations -/

theorem getD_set_self {ws : List (BitVec w)} {i : Nat} (hi : i < ws.length) (x : BitVec w) :
    (ws.set i x).getD i 0#w = x := by
  rw [getD_eq_getElem _ _ (by rw [length_set]; exact hi), getElem_set_self]

theorem getD_set_ne {i k : Nat} (h : i ≠ k) (ws : List (BitVec w)) (x : BitVec w) :
    (ws.set i x).getD k 0#w = ws.getD k 0#w := by
  rw [getD_eq_getElem?_getD, getElem?_set_ne h, ← getD_eq_getElem?_getD]

/-- A pointwise operation on two arrays. -/
theorem bitAt_zipWith (op : BitVec w → BitVec w → BitVec w) (bop : Bool → Bool → Bool)
    (hop : ∀ x y t, t < w → (op x y).getMsbD t = bop (x.getMsbD t) (y.getMsbD t))
    (hlen : xs.length = ys.length) (hj : j < w * xs.length) :
    bitAt (zipWith op xs ys) j = bop (bitAt xs j) (bitAt ys j) := by
  have hlt : j / w < xs.length := Nat.div_lt_of_lt_mul hj
  have hw : 0 < w := Nat.pos_of_mul_pos_right (zero_lt_of_lt hj)
  unfold bitAt
  rw [getD_eq_getElem _ _ (by rw [length_zipWith, ← hlen, min_self]; exact hlt),
    getElem_zipWith, hop _ _ _ (mod_lt _ hw), getD_eq_getElem _ _ hlt,
    getD_eq_getElem _ _ (hlen ▸ hlt)]

/-- A pointwise operation on one array. -/
theorem bitAt_map (op : BitVec w → BitVec w) (bop : Bool → Bool)
    (hop : ∀ x t, t < w → (op x).getMsbD t = bop (x.getMsbD t)) (hj : j < w * xs.length) :
    bitAt (xs.map op) j = bop (bitAt xs j) := by
  have hlt : j / w < xs.length := Nat.div_lt_of_lt_mul hj
  have hw : 0 < w := Nat.pos_of_mul_pos_right (zero_lt_of_lt hj)
  unfold bitAt
  rw [getD_eq_getElem _ _ (by rw [length_map]; exact hlt), getElem_map,
    hop _ _ (mod_lt _ hw), getD_eq_getElem _ _ hlt]

/-- Writing one word. -/
theorem bitAt_set (i : Nat) (x : BitVec w) (hi : i < ws.length) (j : Nat) :
    bitAt (ws.set i x) j = if j / w = i then x.getMsbD (j % w) else bitAt ws j := by
  unfold bitAt
  rw [getD_eq_getElem?_getD, getD_eq_getElem?_getD, getElem?_set]
  by_cases h : j / w = i
  · rw [if_pos h, if_pos h.symm, if_pos hi]
    rfl
  · rw [if_neg h, if_neg (Ne.symm h)]

/-! ### Shifts -/

/-- A word of the array moved towards the front by `q` words and `r` bits. -/
def upWord (ws : List (BitVec w)) (q r i : Nat) : BitVec w :=
  (ws.getD (i + q) 0#w <<< r) ||| (ws.getD (i + q + 1) 0#w >>> (w - r))

/-- A word of the array moved towards the end by `q` words and `r` bits. -/
def downWord (ws : List (BitVec w)) (q r i : Nat) : BitVec w :=
  if q ≤ i then
    (ws.getD (i - q) 0#w >>> r) ||| (if q + 1 ≤ i then ws.getD (i - q - 1) 0#w <<< (w - r) else 0#w)
  else 0#w

theorem getMsbD_upWord {q r i t : Nat} (ht : t < w) (hr : r < w) :
    (upWord ws q r i).getMsbD t = bitAt ws (w * i + t + (w * q + r)) := by
  unfold upWord
  rw [BitVec.getMsbD_or, BitVec.getMsbD_shiftLeft]
  by_cases h : t + r < w
  · rw [show w * i + t + (w * q + r) = w * (i + q) + (t + r) by ring, bitAt_word _ _ h]
    simp [show t < w - r by omega]
  · rw [show w * i + t + (w * q + r) = w * (i + q + 1) + (t + r - w) by
        rw [mul_add, mul_add]; omega,
      bitAt_word _ _ (by omega), BitVec.getMsbD_of_ge _ _ (by omega)]
    simp [ht, show ¬ t < w - r by omega, show t - (w - r) = t + r - w by omega]

theorem getMsbD_downWord {q r i t : Nat} (ht : t < w) (hr : r < w) : (downWord ws q r i).getMsbD t =
      if w * q + r ≤ w * i + t then bitAt ws (w * i + t - (w * q + r)) else false := by
  unfold downWord
  by_cases hq : q ≤ i
  · obtain ⟨d, rfl⟩ := Nat.exists_eq_add_of_le hq
    rw [if_pos hq, BitVec.getMsbD_or, BitVec.getMsbD_ushiftRight]
    by_cases h : r ≤ t
    · -- the bit comes from the word `q` places before
      have hsub : w * (q + d) + t - (w * q + r) = w * d + (t - r) := by
        rw [mul_add]
        omega
      have hle : w * q + r ≤ w * (q + d) + t := by
        rw [mul_add]
        omega
      rw [hsub, bitAt_word _ _ (by omega)]
      split
      · rw [BitVec.getMsbD_shiftLeft, BitVec.getMsbD_of_ge _ (t + (w - r)) (by omega)]
        simp [ht, show ¬ t < r by omega]
      · simp [ht, show ¬ t < r by omega]
    · -- it comes from the word before that one, if there is one
      cases d with
      | zero =>
        simp [show t < r by omega]
      | succ d =>
        have hsub : w * (q + (d + 1)) + t - (w * q + r) = w * d + (t + (w - r)) := by
          rw [mul_add, mul_add]
          omega
        rw [if_pos (by omega), if_pos (by omega), hsub, bitAt_word _ _ (by omega)]
        simp [show t < r by omega]
  · have hlt : w * (i + 1) ≤ w * q := mul_le_mul_left w (by omega)
    rw [mul_add] at hlt
    rw [if_neg hq, if_neg (by omega)]
    simp

/-- The string after a shift towards the front. -/
theorem bitAt_shiftUp {ws ws' : List (BitVec w)} {q r : Nat} (hr : r < w)
    (hlen : ws'.length = ws.length) (h : ∀ i < ws.length, ws'.getD i 0#w = upWord ws q r i)
    (j : Nat) : bitAt ws' j = bitAt ws (j + (w * q + r)) := by
  have hw : 0 < w := zero_lt_of_lt hr
  obtain ⟨i, t, ht, rfl⟩ := exists_place hw j
  by_cases hi : i < ws.length
  · rw [bitAt_word _ _ ht, h i hi, getMsbD_upWord ws ht hr]
  · have hle : w * ws.length ≤ w * i := mul_le_mul_left w (by omega)
    rw [bitAt_of_le hw (by rw [hlen]; omega), bitAt_of_le hw (by omega)]

/-- The string after a shift towards the end. -/
theorem bitAt_shiftDown {ws ws' : List (BitVec w)} {q r : Nat} (hr : r < w)
    (h : ∀ i < ws.length, ws'.getD i 0#w = downWord ws q r i) (hj : j < w * ws.length) :
    bitAt ws' j = if w * q + r ≤ j then bitAt ws (j - (w * q + r)) else false := by
  have hw : 0 < w := zero_lt_of_lt hr
  obtain ⟨i, t, ht, rfl⟩ := exists_place hw j
  have hi : i < ws.length := by
    by_contra hge
    have := mul_le_mul_left w (Nat.le_of_not_lt hge)
    omega
  rw [bitAt_word _ _ ht, h i hi, getMsbD_downWord ws ht hr]

/-! ### Lexicographic comparison -/

/-- `f` comes before `g`: at the first of the places below `n` where they differ, `f`
has the `0`. -/
def Before (f g : Nat → Bool) (n : Nat) : Prop :=
  ∃ t < n, (∀ s < t, f s = g s) ∧ f t = false ∧ g t = true

/-- Two strings agree below `n`, or one comes before the other. -/
theorem agree_or_before (f g : Nat → Bool) (n : Nat) :
    (∀ s < n, f s = g s) ∨ Before f g n ∨ Before g f n := by
  induction n with
  | zero => exact .inl fun s hs => absurd hs (not_lt_zero s)
  | succ n ih =>
    rcases ih with heq | ⟨t, ht, h⟩ | ⟨t, ht, h⟩
    · cases hf : f n with
      | false =>
        cases hg : g n with
        | false =>
          refine .inl fun s hs => ?_
          rcases Nat.lt_succ_iff_lt_or_eq.mp hs with hs | rfl
          · exact heq s hs
          · rw [hf, hg]
        | true => exact .inr (.inl ⟨n, lt_succ_self n, heq, hf, hg⟩)
      | true =>
        cases hg : g n with
        | false =>
          exact .inr (.inr ⟨n, lt_succ_self n, fun s hs => (heq s hs).symm, hg, hf⟩)
        | true =>
          refine .inl fun s hs => ?_
          rcases Nat.lt_succ_iff_lt_or_eq.mp hs with hs | rfl
          · exact heq s hs
          · rw [hf, hg]
    · exact .inr (.inl ⟨t, lt_succ_of_lt ht, h⟩)
    · exact .inr (.inr ⟨t, lt_succ_of_lt ht, h⟩)

/-- The first difference of two words decides their order as unsigned numbers. -/
theorem lt_of_before {x y : BitVec w} (h : Before x.getMsbD y.getMsbD w) : x < y := by
  obtain ⟨t, ht, heq, hx, hy⟩ := h
  apply lt_of_testBit (w - 1 - t)
  · rw [BitVec.testBit_toNat, BitVec.getLsbD_eq_getMsbD]
    simp [show w - 1 - (w - 1 - t) = t by omega, hx]
  · rw [BitVec.testBit_toNat, BitVec.getLsbD_eq_getMsbD]
    simp [show w - 1 - (w - 1 - t) = t by omega, hy, show w - 1 - t < w by omega]
  · intro j hj
    rw [BitVec.testBit_toNat, BitVec.testBit_toNat, BitVec.getLsbD_eq_getMsbD,
      BitVec.getLsbD_eq_getMsbD]
    by_cases hjw : j < w
    · rw [heq (w - 1 - j) (by omega)]
    · simp [hjw]

theorem before_of_lt {x y : BitVec w} (h : x < y) : Before x.getMsbD y.getMsbD w := by
  rcases agree_or_before x.getMsbD y.getMsbD w with heq | hb | hb
  · have hxy : x = y := BitVec.eq_of_getMsbD_eq heq
    exact absurd (hxy ▸ h) (BitVec.lt_irrefl y)
  · exact hb
  · exact absurd (lt_of_before hb) (BitVec.lt_asymm h)

/-- The first pair of words that differ decides the order of the strings. -/
theorem before_words {n i : Nat} (hi : i < n)
    (heq : ∀ k < i, xs.getD k 0#w = ys.getD k 0#w) (hlt : xs.getD i 0#w < ys.getD i 0#w) :
    Before (bitAt xs) (bitAt ys) (w * n) := by
  obtain ⟨t, ht, hsame, hx, hy⟩ := before_of_lt hlt
  have hle : w * (i + 1) ≤ w * n := mul_le_mul_left w hi
  rw [mul_add] at hle
  refine ⟨w * i + t, by omega, ?_, ?_, ?_⟩
  · intro s hs
    obtain ⟨k, u, hu, rfl⟩ := exists_place (zero_lt_of_lt ht) s
    rw [bitAt_word _ _ hu, bitAt_word _ _ hu]
    by_cases hk : k < i
    · rw [heq k hk]
    · have hki : k = i := by
        by_contra hne
        have := mul_le_mul_left w (show i + 1 ≤ k by omega)
        rw [mul_add] at this
        omega
      subst hki
      exact hsame u (by omega)
  · rw [bitAt_word _ _ ht, hx]
  · rw [bitAt_word _ _ ht, hy]

/-- Words that agree give strings that agree. -/
theorem agree_words {n : Nat} (heq : ∀ k < n, xs.getD k 0#w = ys.getD k 0#w) {s : Nat}
    (hs : s < w * n) :
    bitAt xs s = bitAt ys s := by
  unfold bitAt
  rw [heq _ (Nat.div_lt_of_lt_mul hs)]

/-- The order of two lists of bits: the first difference, else the length. -/
theorem list_lt_iff (f g : Nat → Bool) (m n : Nat) : (range m).map f < (range n).map g ↔
      ((∀ s < m, f s = g s) ∧ m < n) ∨ Before f g (min m n) := by
  rw [List.lt_iff_exists]
  simp only [length_map, length_range, getElem_map, getElem_range]
  constructor
  · rintro (⟨heq, hlt⟩ | ⟨i, hm, hn, hsame, hlt⟩)
    · refine .inl ⟨fun s hs => ?_, hlt⟩
      have := congrArg (fun l : List Bool => l[s]?) heq
      simpa [hs, lt_trans hs hlt] using this
    · exact .inr ⟨i, by omega, hsame, by revert hlt; cases f i <;> cases g i <;> decide,
        by revert hlt; cases f i <;> cases g i <;> decide⟩
  · rintro (⟨heq, hlt⟩ | ⟨t, ht, hsame, hf, hg⟩)
    · refine .inl ⟨?_, hlt⟩
      apply ext_getElem
      · simp
        omega
      · intro s h1 _
        simp only [length_map, length_range] at h1
        simp [heq s h1]
    · exact .inr ⟨t, by omega, by omega, hsame, by rw [hf, hg]; decide⟩

end CharmRuntime.Lib
