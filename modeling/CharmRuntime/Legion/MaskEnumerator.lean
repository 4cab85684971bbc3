import CharmRuntime.Legion.ElementMask
import CharmRuntime.Lib.Runs

/-!
# Legion.MaskEnumerator

`ElementMask::Enumerator`: **the runs of enabled or of disabled elements**, from a start position
on.

Both loops of `get_next` that skip words are `skip`: words of zeros, and, with the words inverted,
words of ones. They see a mask as whole words, so the unused bits of its last word count as disabled
elements: a mask that ends with an enabled one has a run of length 0 behind it (`enumerates_iff`).
The word behind the last one begins at a position that is no `int` if the mask is that long, and is
read then.
-/

namespace CharmRuntime.Legion.ElementMask

open Lib BitVec Nat Bool

inductive MaskFault
  /-- A word behind the last one is read. -/
  | outside
deriving DecidableEq

/-- `idx << 6`, an `int`. -/
def wordStart (idx : Nat) : Int := (BitVec.ofNat 32 (idx <<< 6)).toInt

def numWords (num_elements : Nat) : Nat := (num_elements + 63) >>> 6

/-- A loop that skips words without bits, unless there are no more. -/
def skip (num_elements : Nat) (word : Nat → BitVec 64) (idx : Nat) (bits : BitVec 64) :
    Except MaskFault (Option (Nat × BitVec 64)) :=
  if bits ≠ 0 then .ok (some (idx, bits))
  else if num_elements ≤ wordStart (idx + 1) then .ok none
  else if numWords num_elements ≤ idx + 1 then .error .outside
  else skip num_elements word (idx + 1) (word (idx + 1))
termination_by numWords num_elements - idx

/-- A word with the bits of the elements that are looked for. -/
def word (m : ElementMask) (polarity : Bool) (idx : Nat) : BitVec 64 :=
  if polarity then m.bits idx else ~~~m.bits idx

/-- `get_next` at a position: the next position, and the position and the length of a run unless the
result is false. -/
def getNext (m : ElementMask) (polarity : Bool) (pos : Nat) :
    Except MaskFault (Nat × Option (Nat × Int)) := do
  if m.num_elements ≤ pos then return (pos, none)
  let idx := pos >>> 6
  let bits := m.word polarity idx
  let bits := if pos &&& 0x3f ≠ 0 then bits &&& ~~~((1#64 <<< (pos &&& 0x3f)) - 1#64) else bits
  match ← skip m.num_elements (m.word polarity) idx bits with
  | none => return (m.num_elements, none)
  | some (idx, bits) =>
    let extra := bits.ctz.toNat
    let position := idx <<< 6 + extra
    let bits := if extra ≠ 0 then bits ||| ((1#64 <<< extra) - 1#64) else bits
    match ← skip m.num_elements (fun idx => ~~~m.word polarity idx) idx (~~~bits) with
    | none => return (m.num_elements, some (position, (m.num_elements : Int) - position))
    | some (idx, bits) =>
      let pos := min (idx <<< 6 + bits.ctz.toNat) m.num_elements
      return (pos, some (position, (pos : Int) - position))

/-- `peek_next`, which puts the position back. -/
def peekNext (m : ElementMask) (polarity : Bool) (pos : Nat) :
    Except MaskFault (Nat × Option (Nat × Int)) := do
  let old_pos := pos
  let (_, ret) ← m.getNext polarity pos
  return (old_pos, ret)

/-! ### Words -/

variable {idx n : Nat} {word : Nat → BitVec 64} {pos : Nat}

theorem wordStart_of_lt (h : idx * 64 < 2 ^ 31) : wordStart idx = (idx * 64 : Nat) := by
  have hlt : 2 * (idx * 2 ^ 6) < 2 ^ 32 := by omega
  unfold wordStart
  rw [Nat.shiftLeft_eq, toInt_eq_toNat_of_lt]
  · rw [toNat_ofNat, mod_eq_of_lt (by omega)]
  · rw [toNat_ofNat, mod_eq_of_lt (by omega)]
    exact hlt

theorem wordStart_of_eq (h : idx * 64 = 2 ^ 31) : wordStart idx = -2 ^ 31 := by
  obtain rfl : idx = 2 ^ 25 := by omega
  decide

theorem numWords_eq (n : Nat) : numWords n = (n + 63) / 64 := shiftRight_eq_div_pow (n + 63) 6

theorem getLsbD_ones {t : Nat} (ht : t < 64) (s : Nat) :
    ((1#64 <<< t) - 1#64).getLsbD s = decide (s < t) := by
  have hpow : 2 ^ t < 2 ^ 64 := Nat.pow_lt_pow_right (by decide) ht
  have hone : 1 ≤ 2 ^ t := Nat.one_le_two_pow
  have htoNat : ((1#64 <<< t) - 1#64).toNat = 2 ^ t - 1 := by
    rw [toNat_sub, toNat_shiftLeft, toNat_ofNat]
    omega
  rw [← testBit_toNat, htoNat, testBit_two_pow_sub_one]

/-! ### What a loop that skips words finds -/

/-- The words from `idx` on, with the first one as it is held. -/
def held (word : Nat → BitVec 64) (idx : Nat) (bits : BitVec 64) (k : Nat) : BitVec 64 :=
  if k = idx then bits else word k

/-- If the words up to the last one have no bits, it is the end of the mask only if that is an
`int`. -/
theorem wordStart_numWords (hn : n < 2 ^ 31) (hidx : idx < numWords n)
    (hend : n ≤ wordStart (idx + 1)) :
    idx + 1 = numWords n ∧ numWords n * 64 < 2 ^ 31 := by
  have hwords := numWords_eq n
  obtain hlt | hge := lt_or_ge ((idx + 1) * 64) (2 ^ 31)
  · rw [wordStart_of_lt hlt] at hend
    omega
  · rw [wordStart_of_eq (by omega)] at hend
    omega

theorem wordStart_outside (hn : n < 2 ^ 31) (hidx : idx < numWords n)
    (hend : ¬ (n : Int) ≤ wordStart (idx + 1))
    (hout : numWords n ≤ idx + 1) : idx + 1 = numWords n ∧ numWords n * 64 = 2 ^ 31 := by
  have hwords := numWords_eq n
  obtain hlt | hge := lt_or_ge ((idx + 1) * 64) (2 ^ 31)
  · rw [wordStart_of_lt hlt] at hend
    omega
  · omega

/-- What the loop over the words ends with. -/
def SkipsTo (n : Nat) (word : Nat → BitVec 64) (idx : Nat) :
    Except MaskFault (Option (Nat × BitVec 64)) → Prop
  | .ok (some (i, b)) =>
    idx ≤ i ∧ i < numWords n ∧ b ≠ 0 ∧ b = word i ∧ ∀ k, idx ≤ k → k < i → word k = 0
  | .ok none => numWords n * 64 < 2 ^ 31 ∧ ∀ k, idx ≤ k → k < numWords n → word k = 0
  | .error _ => numWords n * 64 = 2 ^ 31 ∧ ∀ k, idx ≤ k → k < numWords n → word k = 0

theorem SkipsTo.of_succ {x : Except MaskFault (Option (Nat × BitVec 64))}
    (h : SkipsTo n (held word (idx + 1) (word (idx + 1))) (idx + 1) x) :
    SkipsTo n (held word idx 0) idx x := by
  have hheld : held word (idx + 1) (word (idx + 1)) = word := by
    funext k
    unfold held
    split <;> simp_all
  rw [hheld] at h
  have hzero : ∀ k, idx ≤ k → (idx + 1 ≤ k → word k = 0) → held word idx 0 k = 0 := by
    intro k hle hk
    unfold held
    split
    · rfl
    · exact hk (by omega)
  have hother : ∀ k, idx + 1 ≤ k → held word idx 0 k = word k := fun k hle => if_neg (by omega)
  match x, h with
  | .ok (some (i, b)), ⟨hle, hlt, hb, heq, hbefore⟩ =>
    exact ⟨by omega, hlt, hb, heq.trans (hother i hle).symm, fun k hk hki => hzero k hk fun hk =>
      hbefore k hk hki⟩
  | .ok none, ⟨hend, hbefore⟩ => exact ⟨hend, fun k hk hkn => hzero k hk fun hk => hbefore k hk hkn⟩
  | .error _, ⟨hend, hbefore⟩ => exact ⟨hend, fun k hk hkn => hzero k hk fun hk => hbefore k hk hkn⟩

theorem skip_words (hn : n < 2 ^ 31) (word : Nat → BitVec 64) (idx : Nat) (bits : BitVec 64)
    (hidx : idx < numWords n) : SkipsTo n (held word idx bits) idx (skip n word idx bits) := by
  -- At the last word, there is nothing between it and the end.
  have hlast : ∀ idx : Nat, idx + 1 = numWords n → ∀ k, idx ≤ k → k < numWords n →
    held word idx 0 k = 0 :=
    fun idx heq k hle hlt => if_pos (by omega)
  fun_induction skip n word idx bits with
  | case1 idx bits hbits =>
    exact ⟨le_refl _, hidx, hbits, (if_pos rfl).symm, fun k hle hlt => by omega⟩
  | case2 idx bits hbits hend =>
    obtain ⟨heq, hlt⟩ := wordStart_numWords hn hidx hend
    rw [not_not.mp hbits]
    exact ⟨hlt, hlast idx heq⟩
  | case3 idx bits hbits hend hout =>
    obtain ⟨heq, hmax⟩ := wordStart_outside hn hidx hend hout
    rw [not_not.mp hbits]
    exact ⟨hmax, hlast idx heq⟩
  | case4 idx bits hbits hend hin ih =>
    rw [not_not.mp hbits]
    exact (ih (by omega)).of_succ

/-- The first position from a word on that has a bit, up to the end of the words. -/
def FindsBit (n : Nat) (f : Nat → Bool) (lo : Nat) : Except MaskFault (Option Nat) → Prop
  | .ok (some p) => p < numWords n * 64 ∧ First f lo p
  | .ok none => numWords n * 64 < 2 ^ 31 ∧ ∀ j, lo ≤ j → j < numWords n * 64 → f j = false
  | .error _ => numWords n * 64 = 2 ^ 31 ∧ ∀ j, lo ≤ j → j < numWords n * 64 → f j = false

/-- The position that a word with its place among the words gives. -/
def bitPos (x : Nat × BitVec 64) : Nat := x.1 * 64 + x.2.ctz.toNat

theorem lsbAt_of_zero {j : Nat} (h : word (j / 64) = 0) : lsbAt word j = false := by
  unfold lsbAt
  rw [h]
  exact getLsbD_zero

theorem ctz_lt {b : BitVec 64} (hb : b ≠ 0) :
    b.ctz.toNat < 64 := lt_def.mp (ctz_lt_iff_ne_zero.mpr hb)

theorem first_bitPos {i : Nat} (hle : idx ≤ i) (hb : word i ≠ 0)
    (hbefore : ∀ k, idx ≤ k → k < i → word k = 0) :
    First (lsbAt word) (idx * 64) (bitPos (i, word i)) := by
  have hctz := ctz_lt hb
  have hdiv : bitPos (i, word i) / 64 = i := by
    change (i * 64 + (word i).ctz.toNat) / 64 = i
    omega
  have hmod : bitPos (i, word i) % 64 = (word i).ctz.toNat := by
    change (i * 64 + (word i).ctz.toNat) % 64 = _
    omega
  refine ⟨by omega, ?_, ?_⟩
  · unfold lsbAt
    rw [hdiv, hmod]
    exact getLsbD_true_ctz_of_ne_zero hb
  · intro j _ _
    obtain heq | hne := eq_or_lt_of_le (show j / 64 ≤ i by omega)
    · unfold lsbAt
      rw [heq]
      exact getLsbD_false_of_lt_ctz (by omega)
    · exact lsbAt_of_zero (hbefore _ (by omega) hne)

theorem skip_bits (hn : n < 2 ^ 31) (word : Nat → BitVec 64) (idx : Nat) (bits : BitVec 64)
    (hidx : idx < numWords n) :
    FindsBit n (lsbAt (held word idx bits)) (idx * 64)
      ((skip n word idx bits).map (Option.map bitPos)) := by
  have hskip := skip_words hn word idx bits hidx
  match h : skip n word idx bits with
  | .ok (some (i, b)) =>
    rw [h] at hskip
    obtain ⟨hle, hlt, hb, heq, hbefore⟩ := hskip
    have hctz := ctz_lt hb
    refine ⟨?_, ?_⟩
    · change i * 64 + b.ctz.toNat < _
      omega
    · rw [heq]
      exact first_bitPos hle (heq ▸ hb) hbefore
  | .ok none =>
    rw [h] at hskip
    exact ⟨hskip.1, fun j hle hlt => lsbAt_of_zero (hskip.2 _ (by omega) (by omega))⟩
  | .error _ =>
    rw [h] at hskip
    exact ⟨hskip.1, fun j hle hlt => lsbAt_of_zero (hskip.2 _ (by omega) (by omega))⟩

/-! ### `get_next` -/

/-- The elements that are looked for. -/
def selects (m : ElementMask) (polarity : Bool) (j : Nat) : Bool := m.isSet j == polarity

theorem lsbAt_word (m : ElementMask) (polarity : Bool) (j : Nat) :
    lsbAt (m.word polarity) j = m.selects polarity j := by
  unfold selects
  rw [isSet_eq]
  unfold lsbAt word
  cases polarity with
  | true => simp
  | false => simp [mod_lt j (show 0 < 64 by decide)]

theorem lsbAt_clear (word : Nat → BitVec 64) {j : Nat} (hj : pos / 64 * 64 ≤ j) :
    lsbAt (held word (pos / 64)
      (if pos % 64 ≠ 0 then word (pos / 64) &&& ~~~((1#64 <<< (pos % 64)) - 1#64)
      else word (pos / 64))) j = (decide (pos ≤ j) && lsbAt word j) := by
  have hlt : j % 64 < 64 := mod_lt j (by decide)
  unfold lsbAt held
  by_cases hdiv : j / 64 = pos / 64
  · have hiff : pos ≤ j ↔ ¬ j % 64 < pos % 64 := by omega
    rw [if_pos hdiv, hdiv]
    split
    · rw [getLsbD_and, getLsbD_not, getLsbD_ones (mod_lt pos (by decide)), Bool.and_comm]
      simp only [hiff, decide_not, hlt, decide_true, Bool.true_and]
    · rw [decide_eq_true (show pos ≤ j by omega), Bool.true_and]
  · rw [if_neg hdiv, decide_eq_true (show pos ≤ j by omega), Bool.true_and]

/-- With the first word that has bits inverted from its first one on, and the words behind it too,
what is looked for are the positions without bits. -/
theorem lsbAt_invert (word : Nat → BitVec 64) {i t j : Nat} (b : BitVec 64) (ht : t < 64)
    (hb : ∀ s, t ≤ s → b.getLsbD s = (word i).getLsbD s) (hj : i * 64 ≤ j) :
    lsbAt (held (fun k => ~~~word k) i (~~~(if t ≠ 0 then b ||| ((1#64 <<< t) - 1#64) else b))) j =
      (decide (i * 64 + t ≤ j) && !lsbAt word j) := by
  have hlt : j % 64 < 64 := mod_lt j (by decide)
  unfold lsbAt held
  by_cases hdiv : j / 64 = i
  · have hiff : i * 64 + t ≤ j ↔ t ≤ j % 64 := by omega
    rw [if_pos hdiv, getLsbD_not, decide_eq_true hlt, Bool.true_and, hdiv]
    by_cases hle : t ≤ j % 64
    · rw [decide_eq_true (hiff.mpr hle), Bool.true_and, ← hb _ hle]
      split
      · rw [getLsbD_or, getLsbD_ones ht, decide_eq_false (by omega), Bool.or_false]
      · rfl
    · rw [decide_eq_false (mt hiff.mp hle), Bool.false_and,
        if_pos (show t ≠ 0 by omega), getLsbD_or, getLsbD_ones ht, decide_eq_true (by omega),
        Bool.or_true, Bool.not_true]
  · rw [if_neg hdiv, getLsbD_not, decide_eq_true hlt, decide_eq_true (show i * 64 + t ≤ j by omega),
      Bool.true_and]

/-- What a call returns. -/
inductive Next (n : Nat) (f : Nat → Bool) (pos : Nat) :
    Except MaskFault (Nat × Option (Nat × Int)) → Prop
  | none : (∀ j, pos ≤ j → j < numWords n * 64 → f j = false) → numWords n * 64 < 2 ^ 31 →
  Next n f pos (.ok (n, none))
  | toEnd {p : Nat} :
      First f pos p → p < numWords n * 64 → (∀ j, p ≤ j → j < numWords n * 64 → f j = true) →
      numWords n * 64 < 2 ^ 31 → Next n f pos (.ok (n, some (p, (n : Int) - p)))
  | run {p e : Nat} : First f pos p → First (fun j => !f j) p e → e < numWords n * 64 →
      Next n f pos (.ok (min e n, some (p, (min e n : Nat) - (p : Int))))
  | noneOutside : (∀ j, pos ≤ j → j < numWords n * 64 → f j = false) → numWords n * 64 = 2 ^ 31 →
      Next n f pos (.error .outside)
  | endOutside {p : Nat} :
      First f pos p → p < numWords n * 64 → (∀ j, p ≤ j → j < numWords n * 64 → f j = true) →
      numWords n * 64 = 2 ^ 31 → Next n f pos (.error .outside)

/-- The word at the end of the first loop has the bits of the mask from its first bit on. -/
theorem getLsbD_of_first {v : Nat → BitVec 64} {i : Nat} {t : Nat}
    (hv : ∀ j, pos / 64 * 64 ≤ j → lsbAt v j = (decide (pos ≤ j) && lsbAt word j))
    (hpos : pos ≤ i * 64 + t)
    (s : Nat) (hts : t ≤ s) : (v i).getLsbD s = (word i).getLsbD s := by
  obtain hlt | hge := lt_or_ge s 64
  · have hj := hv (i * 64 + s) (by omega)
    unfold lsbAt at hj
    rw [decide_eq_true (show pos ≤ i * 64 + s by omega), show (i * 64 + s) / 64 = i by omega,
      show (i * 64 + s) % 64 = s by omega] at hj
    exact hj
  · rw [getLsbD_of_ge _ _ hge, getLsbD_of_ge _ _ hge]

/-- `get_next` finds the next selected element and the end of its run. -/
theorem getNext_next (m : ElementMask) (hn : m.num_elements < 2 ^ 31) (polarity : Bool)
    (hpos : pos < m.num_elements) :
    Next m.num_elements (m.selects polarity) pos (m.getNext polarity pos) := by
  have hwords := numWords_eq m.num_elements
  have hsel := lsbAt_word m polarity
  have hclear := fun j (hj : pos / 64 * 64 ≤ j) => lsbAt_clear (m.word polarity) hj
  unfold getNext
  rw [if_neg (Nat.not_le_of_lt hpos)]
  simp only [shift_six, and_ones_six]
  generalize (if pos % 64 ≠ 0 then m.word polarity (pos / 64) &&& ~~~((1#64 <<< (pos % 64)) - 1#64)
    else m.word polarity (pos / 64)) = bits at hclear ⊢
  have hword := skip_words hn (m.word polarity) (pos / 64) bits (by omega)
  have hbit := skip_bits hn (m.word polarity) (pos / 64) bits (by omega)
  have hnone {j : Nat} (hle : pos ≤ j)
    (h : lsbAt (held (m.word polarity) (pos / 64) bits) j = false) :
      m.selects polarity j = false := by
    rwa [hclear j (by omega), decide_eq_true hle, hsel] at h
  match hskip : skip m.num_elements (m.word polarity) (pos / 64) bits with
  | .ok none =>
    rw [hskip] at hbit
    exact .none (fun j hle hlt => hnone hle (hbit.2 j (by omega) hlt)) hbit.1
  | .error .outside =>
    rw [hskip] at hbit
    exact .noneOutside (fun j hle hlt => hnone hle (hbit.2 j (by omega) hlt)) hbit.1
  | .ok (some (i, b)) =>
    rw [hskip] at hbit hword
    obtain ⟨hi, hiw, hb, heq, -⟩ := hword
    obtain ⟨hpw, hfirst⟩ := hbit
    have hp : bitPos (i, b) = i <<< 6 + b.ctz.toNat := by rw [Nat.shiftLeft_eq]; rfl
    have ht := ctz_lt hb
    -- The first one of the bits that count is a position behind the start.
    have hle : pos ≤ bitPos (i, b) := by
      have hholds := hfirst.holds
      rw [hclear _ hfirst.le, and_eq_true, decide_eq_true_iff] at hholds
      exact hholds.1
    have hfirst : First (m.selects polarity) pos (bitPos (i, b)) := by
      refine ⟨hle, ?_, fun j hj hlt => hnone hj (hfirst.before j (by omega) hlt)⟩
      have hholds := hfirst.holds
      rwa [hclear _ hfirst.le, decide_eq_true hle, hsel] at hholds
    have hinvert (j : Nat) (hj : i * 64 ≤ j) := lsbAt_invert (m.word polarity) b ht
      (fun s hts => by rw [heq]; exact getLsbD_of_first hclear hle s hts) hj
    dsimp only [bind, Except.bind]
    rw [← hp]
    generalize (if b.ctz.toNat ≠ 0 then b ||| ((1#64 <<< b.ctz.toNat) - 1#64) else b) =
      bits' at hinvert ⊢
    have hbit := skip_bits hn (fun idx => ~~~m.word polarity idx) i (~~~bits') hiw
    have hall {j : Nat} (hle : bitPos (i, b) ≤ j)
        (h : lsbAt (held (fun k => ~~~m.word polarity k) i (~~~bits')) j = false) :
        m.selects polarity j = true := by
      rwa [hinvert j ((le_add_right _ _).trans hle),
        decide_eq_true (show i * 64 + b.ctz.toNat ≤ j from hle), Bool.true_and, hsel,
        not_eq_false'] at h
    match hturn : skip m.num_elements (fun idx => ~~~m.word polarity idx) i (~~~bits') with
    | .ok none =>
      rw [hturn] at hbit
      exact .toEnd hfirst hpw
        (fun j hle hlt => hall hle (hbit.2 j ((le_add_right _ _).trans hle) hlt)) hbit.1
    | .error .outside =>
      rw [hturn] at hbit
      exact .endOutside hfirst hpw
        (fun j hle hlt => hall hle (hbit.2 j ((le_add_right _ _).trans hle) hlt)) hbit.1
    | .ok (some (i', b')) =>
      rw [hturn] at hbit
      obtain ⟨hew, hturn⟩ := hbit
      have he : bitPos (i', b') = i' <<< 6 + b'.ctz.toNat := by rw [Nat.shiftLeft_eq]; rfl
      have hholds := hturn.holds
      rw [hinvert _ hturn.le, and_eq_true, decide_eq_true_iff, hsel] at hholds
      dsimp only
      rw [← he]
      exact .run hfirst ⟨hholds.1, hholds.2, fun j hj hlt => by
        rw [hall hj (hturn.before j ((le_add_right _ _).trans hj) hlt)]
        rfl⟩ hew

theorem getNext_of_le (m : ElementMask) (polarity : Bool) (h : m.num_elements ≤ pos) :
    m.getNext polarity pos = .ok (pos, none) := by
  unfold getNext
  rw [if_pos h]
  rfl

/-! ### The runs that are yielded -/

/-- The positions and lengths that calls of `get_next` return, until one returns false. -/
inductive Yields (m : ElementMask) (polarity : Bool) : Nat → List (Nat × Int) → Prop
  | done {pos pos' : Nat} : m.getNext polarity pos = .ok (pos', none) → Yields m polarity pos []
  | next {pos pos' : Nat} {r : Nat × Int} {l : List (Nat × Int)} :
      m.getNext polarity pos = .ok (pos', some r) →
      Yields m polarity pos' l → Yields m polarity pos (r :: l)

/-- The calls return the maximal runs from `start` on in increasing order, and a peek is a call that
stays. -/
def Enumerates (m : ElementMask) (polarity : Bool) (start : Nat) : Prop :=
  (∃ l, Yields m polarity start l ∧ (l.Pairwise fun x y => (x.1 : Int) + x.2 < y.1) ∧
    ∀ p len, (p, len) ∈ l ↔ ∃ e, IsRun (m.selects polarity) start m.num_elements p e ∧
    len = (e : Int) - p) ∧
  ∀ pos, m.peekNext polarity pos = (m.getNext polarity pos).map fun r => (pos, r.2)

/-- The unused bits of the last word do no harm, and the position behind it is an `int` if it is
needed. -/
def Closed (m : ElementMask) (polarity : Bool) : Prop :=
  if polarity then m.num_elements ≤ 2 ^ 31 - 64 ∨ m.isSet (m.num_elements - 1) = true
  else m.num_elements ≤ 2 ^ 31 - 64 ∧ (64 ∣ m.num_elements ∨ m.isSet (m.num_elements - 1) = false)

instance (m : ElementMask) (polarity : Bool) : Decidable (m.Closed polarity) := by
  unfold Closed
  infer_instance

/-- A run with its length. -/
def lengthOf (x : Nat × Nat) : Nat × Int := (x.1, (x.2 : Int) - x.1)

section Closed

variable {m : ElementMask} {polarity : Bool} {pos p : Nat}

theorem Closed.lt_of_first (hclear : ∀ j, m.num_elements ≤ j → m.isSet j = false)
    (h : m.Closed polarity)
    (hpos : pos < m.num_elements) (hfirst : First (m.selects polarity) pos p)
    (hp : p < numWords m.num_elements * 64) :
    p < m.num_elements := by
  have hwords := numWords_eq m.num_elements
  by_contra hge
  have hholds := hfirst.holds
  unfold selects at hholds
  rw [hclear p (Nat.le_of_not_lt hge)] at hholds
  cases polarity with
  | true => cases hholds
  | false =>
    obtain hmul | hlast := h.2
    · omega
    · have hbefore := hfirst.before (m.num_elements - 1) (by omega) (by omega)
      unfold selects at hbefore
      rw [hlast] at hbefore
      cases hbefore

theorem Closed.getNext_ne (hn : m.num_elements < 2 ^ 31)
    (hclear : ∀ j, m.num_elements ≤ j → m.isSet j = false)
    (h : m.Closed polarity) (hpos : pos < m.num_elements) {e : MaskFault} :
    m.getNext polarity pos ≠ .error e := by
  have hwords := numWords_eq m.num_elements
  intro herror
  have hnext := m.getNext_next hn polarity hpos
  rw [herror] at hnext
  have hset (hmax : numWords m.num_elements * 64 = 2 ^ 31) :
    polarity = true ∧ m.isSet (m.num_elements - 1) = true := by
    cases polarity with
    | true => exact ⟨rfl, h.resolve_left (by omega)⟩
    | false => exact absurd h.1 (by omega)
  cases hnext with
  | noneOutside hnone hmax =>
    obtain ⟨rfl, hlast⟩ := hset hmax
    have hfalse := hnone (m.num_elements - 1) (by omega) (by omega)
    unfold selects at hfalse
    rw [hlast] at hfalse
    cases hfalse
  | @endOutside p hfirst hp hall hmax =>
    have hlt := h.lt_of_first hclear hpos hfirst hp
    obtain ⟨rfl, -⟩ := hset hmax
    have htrue := hall m.num_elements (le_of_lt hlt) (by omega)
    unfold selects at htrue
    rw [hclear _ (le_refl _)] at htrue
    cases htrue

theorem Closed.exists_yields (hn : m.num_elements < 2 ^ 31)
    (hclear : ∀ j, m.num_elements ≤ j → m.isSet j = false)
    (h : m.num_elements ≤ pos ∨ m.Closed polarity) :
    ∃ l, Yields m polarity pos (l.map lengthOf) ∧
    Finds (m.selects polarity) m.num_elements pos l := by
  have hwords := numWords_eq m.num_elements
  induction hk : m.num_elements - pos using Nat.strong_induction_on generalizing pos with
  | _ k ih =>
    obtain hge | hpos := lt_or_ge pos m.num_elements |>.symm
    · exact ⟨[], .done (m.getNext_of_le polarity hge), .done fun j hle hlt => by omega⟩
    · have hclosed := h.resolve_left (Nat.not_le_of_lt hpos)
      have hnext := m.getNext_next hn polarity hpos
      match hret : m.getNext polarity pos with
      | .error e => exact absurd hret (hclosed.getNext_ne hn hclear hpos)
      | .ok (pos', none) =>
        rw [hret] at hnext
        cases hnext with
        | none hnone _ => exact ⟨[], .done hret, .done fun j hle hlt => hnone j hle (by omega)⟩
      | .ok (pos', some r) =>
        rw [hret] at hnext
        -- Whatever ends the run, the next call begins at its end.
        have hrun : ∃ p, r = lengthOf (p, pos') ∧ First (m.selects polarity) pos p ∧ p < pos' ∧
          pos' ≤ m.num_elements ∧
            (∀ i, p ≤ i → i < pos' → m.selects polarity i = true) ∧
            (pos' = m.num_elements ∨ m.selects polarity pos' = false) := by
          cases hnext with
          | @toEnd p hfirst hp hall _ =>
            exact ⟨p, rfl, hfirst, hclosed.lt_of_first hclear hpos hfirst hp, le_refl _,
              fun i hle hlt => hall i hle (by omega), .inl rfl⟩
          | @run p e hfirst hturn he =>
            have hlt : p < e := by
              refine lt_of_le_of_ne hturn.le fun heq => ?_
              have hholds := hturn.holds
              rw [← heq, hfirst.holds] at hholds
              cases hholds
            have hp := hclosed.lt_of_first hclear hpos hfirst (hlt.trans he)
            refine ⟨p, rfl, hfirst, Nat.lt_min.mpr ⟨hlt, hp⟩, min_le_right _ _,
              fun i hle hi => ?_, ?_⟩
            · simpa using hturn.before i hle (hi.trans_le (min_le_left _ _))
            · obtain hle | hlt := le_total m.num_elements e
              · exact .inl (min_eq_right hle)
              · rw [min_eq_left hlt]
                exact .inr (by simpa using hturn.holds)
        obtain ⟨p, rfl, hfirst, hlt, hle, hall, hright⟩ := hrun
        have hpp := hfirst.le
        obtain ⟨l, hyields, hfinds⟩ := ih (m.num_elements - pos') (by omega) (.inr hclosed) rfl
        exact ⟨(p, pos') :: l, .next hret hyields, .found hfirst.le hfirst.before hlt hle hall
          hright hfinds⟩

theorem selects_of_le (hclear : ∀ j, m.num_elements ≤ j → m.isSet j = false) {j : Nat}
    (hj : m.num_elements ≤ j) :
    m.selects polarity j = !polarity := by
  unfold selects
  rw [hclear j hj]
  cases polarity <;> rfl

theorem selects_of_not_closed (h : ¬ m.Closed polarity) (hle : m.num_elements ≤ 2 ^ 31 - 64) :
    polarity = false ∧ ¬ 64 ∣ m.num_elements ∧ m.selects polarity (m.num_elements - 1) = false := by
  cases polarity with
  | true => exact absurd (.inl hle) h
  | false =>
    obtain ⟨hmul, hlast⟩ := not_or.mp fun hor => h ⟨hle, hor⟩
    refine ⟨rfl, hmul, ?_⟩
    unfold selects
    simpa using hlast

theorem mem_of_not_closed (hn : m.num_elements < 2 ^ 31)
    (hclear : ∀ j, m.num_elements ≤ j → m.isSet j = false)
    (h : ¬ m.Closed polarity) (hpos : pos < m.num_elements) {l : List (Nat × Int)}
    (hl : Yields m polarity pos l) :
    (m.num_elements, 0) ∈ l := by
  have hwords := numWords_eq m.num_elements
  have hsel {j : Nat} (hj : m.num_elements ≤ j) : m.selects polarity j = !polarity :=
    selects_of_le hclear hj
  induction hl with
  | @done pos pos' hret =>
    have hnext := m.getNext_next hn polarity hpos
    rw [hret] at hnext
    cases hnext with
    | none hnone hmax =>
      obtain ⟨rfl, hmul, -⟩ := selects_of_not_closed h (by omega)
      exact absurd ((hsel (le_refl _)).symm.trans (hnone m.num_elements (by omega) (by omega)))
        (by decide)
  | @next pos pos' r l hret _ ih =>
    obtain hlt | hge := lt_or_ge pos' m.num_elements
    · exact List.mem_cons_of_mem _ (ih hlt)
    have hnext := m.getNext_next hn polarity hpos
    rw [hret] at hnext
    cases hnext with
    | @toEnd p hfirst hp hall hmax =>
      obtain ⟨rfl, hmul, hlast⟩ := selects_of_not_closed h (by omega)
      have hle : m.num_elements ≤ p := by
        by_contra hlt
        exact absurd (hlast.symm.trans (hall (m.num_elements - 1) (by omega) (by omega)))
          (by decide)
      have hge : p ≤ m.num_elements := by
        by_contra hlt
        exact absurd ((hsel (le_refl _)).symm.trans
          (hfirst.before m.num_elements (by omega) (by omega))) (by decide)
      rw [le_antisymm hge hle, sub_self]
      exact List.mem_cons_self
    | @run p e hfirst hturn he =>
      have hen : m.num_elements ≤ e := (Nat.le_min.mp hge).1
      have hpol : polarity = true := by simpa [hsel hen] using hturn.holds
      subst hpol
      have hlast : m.isSet (m.num_elements - 1) = false :=
        eq_false_of_not_eq_true fun hset => h (.inr hset)
      have hlt : p < m.num_elements := by
        by_contra hle
        exact absurd ((hsel (Nat.le_of_not_lt hle)).symm.trans hfirst.holds) (by decide)
      have hfalse := hturn.before (m.num_elements - 1) (by omega) (by omega)
      unfold selects at hfalse
      rw [hlast] at hfalse
      cases hfalse

theorem not_enumerates (hn : m.num_elements < 2 ^ 31)
    (hclear : ∀ j, m.num_elements ≤ j → m.isSet j = false)
    (h : ¬ m.Closed polarity) (hpos : pos < m.num_elements) : ¬ m.Enumerates polarity pos := by
  rintro ⟨⟨l, hl, -, hruns⟩, -⟩
  obtain ⟨e, hrun, -⟩ := (hruns _ _).mp (mem_of_not_closed hn hclear h hpos hl)
  exact absurd (hrun.lt.trans_le hrun.le_hi) (lt_irrefl _)

theorem enumerates_of_closed (hn : m.num_elements < 2 ^ 31)
    (hclear : ∀ j, m.num_elements ≤ j → m.isSet j = false)
    (h : m.num_elements ≤ pos ∨ m.Closed polarity) : m.Enumerates polarity pos := by
  obtain ⟨l, hyields, hfinds⟩ := Closed.exists_yields hn hclear h
  refine ⟨⟨l.map lengthOf, hyields, ?_, fun p len => ?_⟩, fun pos => ?_⟩
  · refine List.pairwise_map.mpr (hfinds.sorted.imp fun {x y} hlt => ?_)
    change (x.1 : Int) + (x.2 - x.1) < y.1
    omega
  · rw [List.mem_map]
    constructor
    · rintro ⟨⟨p', e⟩, hmem, heq⟩
      obtain ⟨rfl, rfl⟩ := Prod.mk.inj heq
      exact ⟨e, (hfinds.mem_iff p' e).mp hmem, rfl⟩
    · rintro ⟨e, hrun, rfl⟩
      exact ⟨(p, e), (hfinds.mem_iff p e).mpr hrun, rfl⟩
  · unfold peekNext
    cases m.getNext polarity pos <;> rfl

end Closed

/-- **The runs that are enumerated are the maximal ones exactly if the end of the mask closes
them**, or is not reached. -/
theorem enumerates_iff {n : Nat} (hint : n < 2 ^ 31) {m : ElementMask} (hm : Built n m)
    (polarity : Bool)
    (start : Nat) : m.Enumerates polarity start ↔ n ≤ start ∨ m.Closed polarity := by
  obtain rfl := hm.num_elements
  have hclear : ∀ j, m.num_elements ≤ j → m.isSet j = false := fun j hj => hm.isSet_of_le hj
  constructor
  · intro henum
    by_contra hnot
    obtain ⟨hlt, hclosed⟩ := not_or.mp hnot
    exact not_enumerates hint hclear hclosed (Nat.lt_of_not_le hlt) henum
  · exact enumerates_of_closed hint hclear

theorem enumerates_two : ((new 64).enable 62 2).Enumerates false 0 :=
  (enumerates_iff (by decide) (.enable 62 2 .new (by decide) (by decide)) false 0).mpr
    (.inr (by decide))

/-- One element, enabled: the unused bits behind it are a run of disabled elements. -/
theorem not_enumerates_one :
    Built 1 ((new 1).enable 0 1) ∧ ¬ ((new 1).enable 0 1).Enumerates false 0 :=
  ⟨.enable 0 1 .new (by decide) (by decide),
    not_enumerates (by decide)
      (fun j hj => (Built.enable 0 1 .new (by decide) (by decide)).isSet_of_le hj) (by decide)
      (by decide)⟩

end CharmRuntime.Legion.ElementMask
