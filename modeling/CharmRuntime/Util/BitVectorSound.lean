import CharmRuntime.Lib.BitString
import CharmRuntime.Util.BitVector
import Mathlib.Data.Nat.Log

/-!
# Util.BitVectorSound

What each operation of `CkBitVector` does to the string of bits it stands for.

`view` reads a vector through `Length()` and `Test()`. `Wf` is the invariant: the
array has the words that the length needs, and the places behind the last bit hold
zeros. Bit `i` sits at place `usedBits - 1 - i` of the array (`test_eq`), so every
operation is first described by what it does to the places (`bitAt`) and then read
back through `view`.

Two operations go wrong. Moving by a multiple of 32 shifts a neighbouring word by 32,
which is undefined (`ShiftUndefined`); and `ShiftDown` moves the bits that it drops
into the padding (`DropsIntoPadding`).
-/

namespace CharmRuntime.Util

open Lib List Nat Except
open BitVec (getMsbD_and getMsbD_eq_getLsbD getMsbD_not getMsbD_or getMsbD_shiftLeft ofNat)

/-- Sizes and shift amounts are below this: `Length()` is an `int`. -/
def sizeLimit : Nat := 2 ^ 31

theorem chunks_eq {n : Nat} (h : n < sizeLimit) : chunks n = (n + 31) / 32 := by
  unfold chunks chunkBits
  unfold sizeLimit at h
  omega

namespace CkBitVector

/-- The vector as a bit string. -/
def view (v : CkBitVector) : BitString := BitString.below v.length v.test

/-- The invariant of a vector. -/
structure Wf (v : CkBitVector) : Prop where
  size : v.data.length = chunks v.usedBits
  bound : v.usedBits < sizeLimit
  padding : ∀ j, v.usedBits ≤ j → bitAt v.data j = false

/-! ### Where a bit is -/

theorem and_one_shiftLeft (x : Word) {s : Nat} (hs : s < 32) :
    decide (x &&& (1#32 <<< s) ≠ 0#32) = x.getLsbD s := by
  by_cases h : x.getLsbD s = true
  · rw [h, decide_eq_true_eq]
    intro h0
    have hbit := congrArg (fun y : Word => y.getLsbD s) h0
    rw [BitVec.getLsbD_and, h] at hbit
    simp [hs] at hbit
  · rw [Bool.not_eq_true] at h
    rw [h, decide_eq_false_iff_not, not_not]
    apply BitVec.eq_of_getLsbD_eq
    intro i hi
    by_cases his : i = s
    · subst his
      simp [h]
    · by_cases hlt : i < s
      · simp [hlt]
      · simp [hi, show i - s ≠ 0 by omega]

section Place

variable {v : CkBitVector} {bit : Nat}

theorem offset_eq (hb : v.usedBits < sizeLimit) (h : bit < v.usedBits) :
    v.offset bit = (v.usedBits - 1 - bit) / 32 := by
  unfold offset
  rw [chunks_eq (by omega)]
  omega

theorem mask_eq (h : bit < v.usedBits) :
    v.mask bit = 1#32 <<< (31 - (v.usedBits - 1 - bit) % 32) := by
  unfold mask chunkBits
  congr 1
  omega

/-- Bit `i` sits at place `usedBits - 1 - i`. -/
theorem test_eq (hb : v.usedBits < sizeLimit) (h : bit < v.usedBits) :
    v.test bit = bitAt v.data (v.usedBits - 1 - bit) := by
  unfold test bitAt
  rw [if_neg (by omega), offset_eq hb h, mask_eq h]
  rw [and_one_shiftLeft _ (by omega), getMsbD_eq_getLsbD]
  simp [mod_lt]

theorem view_bit (hb : v.usedBits < sizeLimit) (i : Nat) :
    v.view.bit i = if i < v.usedBits then bitAt v.data (v.usedBits - 1 - i) else false := by
  unfold view length
  rw [BitString.bit_below]
  split
  · rename_i h
    exact test_eq hb h
  · rfl

@[simp] theorem view_len : v.view.len = v.usedBits := rfl

theorem view_eq_below {n : Nat} {f : Nat → Bool} (hb : v.usedBits < sizeLimit)
    (hlen : v.usedBits = n) (h : ∀ i < n, bitAt v.data (n - 1 - i) = f i) :
    v.view = BitString.below n f := by
  subst hlen
  apply BitString.eq_of_bits view_len
  intro i hi
  rw [view_len] at hi
  rw [view_bit hb, if_pos hi, BitString.bit_below, if_pos hi]
  exact h i hi

theorem Wf.data_eq_nil_iff (h : v.Wf) : v.data = [] ↔ v.usedBits = 0 := by
  rw [← length_eq_zero_iff, h.size, chunks_eq h.bound]
  omega

theorem Wf.room (h : v.Wf) : v.usedBits ≤ 32 * v.data.length := by
  rw [h.size, chunks_eq h.bound]
  omega

end Place

/-! ### The loops of the shifts -/

/-- A shift of `k` meets a neighbouring word while `k` is a multiple of the word
width. -/
def ShiftUndefined (n k : Nat) : Prop := k ≠ 0 ∧ k % 32 = 0 ∧ k + 32 < n

instance (n k : Nat) : Decidable (ShiftUndefined n k) := inferInstanceAs (Decidable (_ ∧ _))

section Loops

variable {n whole rem : Nat}

variable {i : Nat} {data old : List Word}

/-- Without a neighbour to shift by 32, one round writes the word of the shifted
array. -/
theorem shiftUpWord_eq (hrem : rem < 32) (hlen : data.length = n)
    (hi : i < n) (hok : rem = 0 → ¬ i + whole + 1 < n) :
    shiftUpWord n whole rem i data = .ok (data.set i (upWord data whole rem i)) := by
  unfold shiftUpWord upWord
  by_cases hw : i + whole < n
  · rw [if_pos hw]
    simp only [shl, chunkBits, hrem]
    by_cases hn : i + whole + 1 < n
    · have hne : i ≠ i + whole + 1 := by omega
      simp only [bind, Except.bind, pure, Except.pure, if_pos hn, shr, chunkBits,
        show 32 - rem < 32 by omega, if_true, getD_set_self (show i < data.length by omega),
        getD_set_ne hne, set_set]
    · have hout : data.getD (i + whole + 1) 0#32 = 0#32 :=
        getD_eq_default _ _ (by omega)
      simp only [Except.bind, pure, Except.pure, if_neg hn, hout]
      simp
  · rw [if_neg hw, getD_eq_default _ 0#32 (by omega : data.length ≤ i + whole),
      getD_eq_default _ 0#32 (by omega : data.length ≤ i + whole + 1)]
    simp [pure, Except.pure]

/-- **The loop of `ShiftUp`.** Words that were not reached yet still hold what they held
before, so every word is computed from the old array. -/
theorem shiftUpLoop_eq (hrem : rem < 32) (hok : rem = 0 → ¬ whole + 1 < n) :
    ∀ (todo i : Nat) (data : List Word), i + todo = n →
    data.length = n → (∀ k, i ≤ k → data.getD k 0#32 = old.getD k 0#32) →
    (∀ k < i, data.getD k 0#32 = upWord old whole rem k) →
    ∃ data', shiftUpLoop n whole rem todo i data = .ok data' ∧ data'.length = n ∧
      ∀ k < n, data'.getD k 0#32 = upWord old whole rem k := by
  intro todo
  induction todo with
  | zero =>
    intro i data hi hlen _ hdone
    exact ⟨data, rfl, hlen, fun k hk => hdone k (by omega)⟩
  | succ todo ih =>
    intro i data hi hlen hrest hdone
    have hword : upWord data whole rem i = upWord old whole rem i := by
      have h1 := hrest (i + whole) (by omega)
      have h2 := hrest (i + whole + 1) (by omega)
      unfold upWord
      rw [h1, h2]
    rw [shiftUpLoop, shiftUpWord_eq hrem hlen (by omega) (fun h0 hlt => hok h0 (by omega)), hword]
    apply ih (i + 1)
    · omega
    · rw [length_set, hlen]
    · intro k hk
      rw [getD_set_ne (by omega), hrest k (by omega)]
    · intro k hk
      by_cases hki : k = i
      · subst hki
        rw [getD_set_self (by omega)]
      · rw [getD_set_ne (symm hki), hdone k (by omega)]

theorem unsigned_lt_iff (hn : n < 2 ^ 32) (hi : i < n) (hw : whole ≤ i) :
    ((i : Int) - whole - 1) % 2 ^ 32 < n ↔ whole + 1 ≤ i := by
  constructor
  · intro h
    omega
  · intro h
    omega

theorem shiftDownWord_eq (hn : n < 2 ^ 32) (hrem : rem < 32)
    (hlen : data.length = n) (hi : i < n) (hok : rem = 0 → ¬ whole + 1 ≤ i) :
    shiftDownWord n whole rem i data = .ok (data.set i (downWord data whole rem i)) := by
  unfold shiftDownWord downWord
  by_cases hw : whole ≤ i
  · rw [if_pos hw, if_pos hw]
    simp only [shr, chunkBits, hrem, if_true, unsigned_lt_iff hn hi hw]
    by_cases hnext : whole + 1 ≤ i
    · have hne : i ≠ i - whole - 1 := by omega
      simp only [bind, Except.bind, pure, Except.pure, if_pos hnext, shl, chunkBits,
        show 32 - rem < 32 by omega, if_true, getD_set_self (show i < data.length by omega),
        getD_set_ne hne, set_set]
    · simp only [bind, Except.bind, pure, Except.pure, if_neg hnext, BitVec.or_zero]
  · rw [if_neg hw, if_neg hw]
    rfl

/-- **The loop of `ShiftDown`.** It goes from the last word down, so the words that are
still to be read hold what they held before. -/
theorem shiftDownLoop_eq (hn : n < 2 ^ 32) (hrem : rem < 32) (hok : rem = 0 → ¬ whole + 1 < n)
    : ∀ (i : Nat) (data : List Word), i ≤ n →
    data.length = n → (∀ k < i, data.getD k 0#32 = old.getD k 0#32) →
    (∀ k, i ≤ k → k < n → data.getD k 0#32 = downWord old whole rem k) →
    ∃ data', shiftDownLoop n whole rem i data = .ok data' ∧ data'.length = n ∧
      ∀ k < n, data'.getD k 0#32 = downWord old whole rem k := by
  intro i
  induction i with
  | zero =>
    intro data _ hlen _ hdone
    exact ⟨data, rfl, hlen, fun k hk => hdone k (zero_le k) hk⟩
  | succ i ih =>
    intro data hi hlen hrest hdone
    have hword : downWord data whole rem i = downWord old whole rem i := by
      unfold downWord
      by_cases hw : whole ≤ i
      · rw [if_pos hw, if_pos hw, hrest (i - whole) (by omega), hrest (i - whole - 1) (by omega)]
      · rw [if_neg hw, if_neg hw]
    rw [shiftDownLoop, shiftDownWord_eq hn hrem hlen (by omega) (fun h0 hlt => hok h0 (by omega)),
      hword]
    apply ih
    · omega
    · rw [length_set, hlen]
    · intro k hk
      rw [getD_set_ne (by omega), hrest k (by omega)]
    · intro k hk hkn
      by_cases hki : k = i
      · subst hki
        rw [getD_set_self (by omega)]
      · rw [getD_set_ne (symm hki), hdone k (by omega) hkn]

/-- With a neighbour and no bits left over, the first round of `ShiftUp` shifts by 32. -/
theorem shiftUpLoop_undefined (h : whole + 1 < n) (data : List Word) (todo : Nat) :
    shiftUpLoop n whole 0 (todo + 1) 0 data = .error .undefinedShift := by
  have hw : 0 + whole < n := by omega
  have hnext : 0 + whole + 1 < n := by omega
  simp only [shiftUpLoop, shiftUpWord, if_pos hw, if_pos hnext, shl, shr, chunkBits, bind,
    Except.bind, lt_irrefl, if_false, zero_lt_succ, if_true]

theorem shiftDownLoop_undefined (hn : n < 2 ^ 32) (h : whole + 1 < n) (data : List Word) :
    shiftDownLoop n whole 0 n data = .error .undefinedShift := by
  obtain ⟨m, rfl⟩ : ∃ m, n = m + 1 := ⟨n - 1, by omega⟩
  have hw : whole ≤ m := by omega
  have hnext : whole + 1 ≤ m := by omega
  simp only [shiftDownLoop, shiftDownWord, if_pos hw, unsigned_lt_iff hn (lt_succ_self m) hw,
    if_pos hnext, shl, shr, chunkBits, bind, Except.bind, lt_irrefl, if_false,
    zero_lt_succ, if_true]

end Loops

/-! ### Shifts -/

section Shifts

variable {v : CkBitVector} {k : Nat}

theorem shiftUndefined_iff {n : Nat} (hn : n < sizeLimit) (hk : k ≠ 0) :
    ShiftUndefined n k ↔ k % 32 = 0 ∧ k / 32 + 1 < chunks n := by
  rw [chunks_eq hn]
  unfold ShiftUndefined
  constructor
  · intro h
    omega
  · intro h
    omega

theorem chunks_lt {n : Nat} (hn : n < sizeLimit) : chunks n < 2 ^ 32 := by
  rw [chunks_eq hn]
  unfold sizeLimit at hn
  omega

theorem place_eq (k : Nat) : 32 * (k / 32) + k % 32 = k := div_add_mod k 32

/-- **`ShiftUp` on the places**: every place takes the bit `k` places behind it. -/
theorem shiftUp_places (hsize : v.data.length = chunks v.usedBits) (hb : v.usedBits < sizeLimit)
    (hok : ¬ ShiftUndefined v.usedBits k) :
    ∃ v', v.shiftUp k = .ok v' ∧ v'.usedBits = v.usedBits ∧ v'.data.length = v.data.length ∧
      ∀ j, bitAt v'.data j = bitAt v.data (j + k) := by
  unfold shiftUp
  by_cases hnil : v.data = []
  · refine ⟨v, by rw [if_pos (.inl hnil)], rfl, rfl, fun j => ?_⟩
    rw [hnil, bitAt_of_le (by omega) (by simp), bitAt_of_le (by omega) (by simp)]
  by_cases hk : k = 0
  · exact ⟨v, by rw [if_pos (.inr hk)], rfl, rfl, fun j => by rw [hk, add_zero]⟩
  rw [shiftUndefined_iff hb hk] at hok
  obtain ⟨data, heq, hlen, hdata⟩ :=
    shiftUpLoop_eq (mod_lt k (by omega)) (fun h0 h1 => hok ⟨h0, h1⟩) _ 0 v.data
      (zero_add _) hsize (fun _ _ => rfl) (fun i hi => absurd hi (not_lt_zero i))
  refine ⟨⟨v.usedBits, data⟩, ?_, rfl, hlen.trans hsize.symm, fun j => ?_⟩
  · rw [if_neg (by simp [hnil, hk])]
    simp only [chunkBits, heq]
    rfl
  · rw [bitAt_shiftUp (mod_lt k (by omega)) (hlen.trans hsize.symm) (by rwa [hsize]), place_eq]

/-- **`ShiftDown` on the places**: every place takes the bit `k` places before it. -/
theorem shiftDown_places (hsize : v.data.length = chunks v.usedBits) (hb : v.usedBits < sizeLimit)
    (hok : ¬ ShiftUndefined v.usedBits k) :
    ∃ v', v.shiftDown k = .ok v' ∧ v'.usedBits = v.usedBits ∧ v'.data.length = v.data.length ∧
      ∀ j < 32 * v.data.length, bitAt v'.data j = if k ≤
      j then bitAt v.data (j - k) else false := by
  unfold shiftDown
  by_cases hnil : v.data = []
  · refine ⟨v, by rw [if_pos (.inl hnil)], rfl, rfl, fun j hj => ?_⟩
    simp [hnil] at hj
  by_cases hk : k = 0
  · exact ⟨v, by rw [if_pos (.inr hk)], rfl, rfl, fun j _ => by simp [hk]⟩
  rw [shiftUndefined_iff hb hk] at hok
  obtain ⟨data, heq, hlen, hdata⟩ :=
    shiftDownLoop_eq (chunks_lt hb) (mod_lt k (by omega)) (fun h0 h1 => hok ⟨h0, h1⟩) _ v.data
      (le_refl _) hsize (fun _ _ => rfl) (fun i hi hin => absurd hin (not_lt.mpr hi))
  refine ⟨⟨v.usedBits, data⟩, ?_, rfl, hlen.trans hsize.symm, fun j hj => ?_⟩
  · rw [if_neg (by simp [hnil, hk])]
    simp only [chunkBits, heq]
    rfl
  · rw [bitAt_shiftDown (mod_lt k (by omega)) (by rwa [hsize]) hj, place_eq]

theorem shiftUp_undefined (h : v.Wf) (hu : ShiftUndefined v.usedBits k) :
    v.shiftUp k = .error .undefinedShift := by
  have hk : k ≠ 0 := hu.1
  have hne : ¬ (v.data = [] ∨ k = 0) := by
    rw [h.data_eq_nil_iff]
    have := hu.2.2
    omega
  rw [shiftUndefined_iff h.bound hk] at hu
  obtain ⟨n, hn⟩ : ∃ n, chunks v.usedBits = n + 1 := ⟨chunks v.usedBits - 1, by omega⟩
  unfold shiftUp
  rw [if_neg hne]
  simp only [chunkBits, hu.1]
  rw [hn, shiftUpLoop_undefined (hn ▸ hu.2)]
  rfl

theorem shiftDown_undefined (h : v.Wf) (hu : ShiftUndefined v.usedBits k) :
    v.shiftDown k = .error .undefinedShift := by
  have hk : k ≠ 0 := hu.1
  have hne : ¬ (v.data = [] ∨ k = 0) := by
    rw [h.data_eq_nil_iff]
    have := hu.2.2
    omega
  rw [shiftUndefined_iff h.bound hk] at hu
  unfold shiftDown
  rw [if_neg hne]
  simp only [chunkBits, hu.1]
  rw [shiftDownLoop_undefined (chunks_lt h.bound) hu.2]
  rfl

/-- **`ShiftUp`**, when it is defined. -/
theorem shiftUp_spec (h : v.Wf) (hok : ¬ ShiftUndefined v.usedBits k) :
    ∃ v', v.shiftUp k = .ok v' ∧ v'.Wf ∧ v'.view = v.view.shiftUp k := by
  obtain ⟨v', heq, hused, hlen, hbits⟩ := shiftUp_places h.size h.bound hok
  have hwf : v'.Wf := by
    refine ⟨by rw [hlen, h.size, hused], hused ▸ h.bound, fun j hj => ?_⟩
    rw [hbits, h.padding _ (by omega)]
  refine ⟨v', heq, hwf, view_eq_below hwf.bound hused ?_⟩
  intro i hi
  rw [view_len] at hi ⊢
  rw [hbits]
  by_cases hki : k ≤ i
  · rw [if_pos hki, view_bit h.bound, if_pos (by omega)]
    congr 1
    omega
  · rw [if_neg hki, h.padding _ (by omega)]

/-- Some bit that `ShiftDown` drops lands in the padding of the last word. -/
def DropsIntoPadding (v : CkBitVector) (k : Nat) : Prop :=
  ∃ i < v.length, i < k ∧ k + v.length ≤ i + 32 * chunks v.length ∧ v.test i = true

instance (v : CkBitVector) (k : Nat) : Decidable (DropsIntoPadding v k) :=
  inferInstanceAs (Decidable (∃ i, i < v.length ∧ _))

/-- **`ShiftDown`**, when it is defined: the bits are right, and the padding is zero
exactly if no bit was dropped into it. -/
theorem shiftDown_spec (h : v.Wf) (hok : ¬ ShiftUndefined v.usedBits k) :
    ∃ v', v.shiftDown k = .ok v' ∧ v'.view = v.view.shiftDown k ∧
    (v'.Wf ↔ ¬ DropsIntoPadding v k) := by
  obtain ⟨v', heq, hused, hlen, hbits⟩ := shiftDown_places h.size h.bound hok
  have hroom := h.room
  refine ⟨v', heq, view_eq_below (hused ▸ h.bound) hused ?_, ?_⟩
  · intro i hi
    rw [view_len] at hi ⊢
    rw [hbits _ (by omega), view_bit h.bound]
    by_cases hki : i + k < v.usedBits
    · rw [if_pos hki, if_pos (by omega)]
      congr 1
      omega
    · rw [if_neg hki, if_neg (by omega)]
  · constructor
    · rintro hwf ⟨i, hi, hik, hin, htest⟩
      have hi' : i < v.usedBits := hi
      have hj : v.usedBits - 1 - i + k < 32 * v.data.length := by
        rw [h.size]
        unfold length at hin
        omega
      have hpad := hwf.padding (v.usedBits - 1 - i + k) (by omega)
      rw [hbits _ hj, if_pos (by omega), Nat.add_sub_cancel, ← test_eq h.bound hi', htest] at hpad
      exact Bool.true_eq_false_eq_False hpad
    · intro hdrop
      refine ⟨by rw [hlen, h.size, hused], hused ▸ h.bound, fun j hj => ?_⟩
      by_cases hj' : j < 32 * v.data.length
      · rw [hbits j hj']
        split
        · by_cases hlt : j - k < v.usedBits
          · by_contra htrue
            rw [Bool.not_eq_false] at htrue
            refine hdrop ⟨v.usedBits - 1 - (j - k), ?_, ?_, ?_, ?_⟩
            · unfold length
              omega
            · omega
            · rw [h.size] at hj'
              unfold length
              omega
            · rw [test_eq h.bound (by omega), ← htrue]
              congr 1
              omega
          · exact h.padding _ (by omega)
        · rfl
      · exact bitAt_of_le (by omega) (by omega)

end Shifts

/-! ### Sizes -/

section Sizes

variable {v : CkBitVector}

theorem empty_wf : empty.Wf := by
  refine ⟨rfl, by decide, fun j _ => ?_⟩
  exact bitAt_of_le (by omega) (zero_le j)

variable {n : Nat}

/-- `CkBitVector(bits)`. -/
theorem ofSize_wf (hn : n < sizeLimit) : (ofSize n).Wf ∧ (ofSize n).view = BitString.zeros n := by
  refine ⟨⟨length_replicate, hn, fun j _ => bitAt_replicate _ j⟩, ?_⟩
  exact view_eq_below hn rfl (fun i _ => bitAt_replicate _ _)

/-- A size change of a multiple of 32 that leaves more than one word. -/
def ResizeUndefined (old new : Nat) : Prop := old ≠ new ∧ old % 32 = new % 32 ∧ 32 < min old new

instance (old new : Nat) : Decidable (ResizeUndefined old new) :=
  inferInstanceAs (Decidable (_ ∧ _))

/-- The growing half of `Resize`. -/
theorem grow_spec (h : v.Wf) (hn : n < sizeLimit) (hlt : v.usedBits < n)
    (hpos : 0 < v.usedBits) (hok : ¬ ResizeUndefined v.usedBits n) :
    ∃ v', v.resize n = .ok v' ∧ v'.Wf ∧ v'.view = v.view.resize n := by
  have hne : v.data ≠ [] := by
    rw [ne_eq, h.data_eq_nil_iff]
    omega
  have hc1 := chunks_eq hn
  have hc2 := chunks_eq h.bound
  -- the old words, then zeros
  generalize hw : (⟨n, v.data.take (chunks v.usedBits) ++
    replicate (chunks n - chunks v.usedBits) 0#32⟩ : CkBitVector) = big
  have hbig : big.data = v.data ++ replicate (chunks n - chunks v.usedBits) 0#32 := by
    rw [← hw, ← h.size, take_length]
  have hused : big.usedBits = n := by rw [← hw]
  have hsize : big.data.length = chunks big.usedBits := by
    rw [hbig, hused, length_append, length_replicate, h.size]
    omega
  have hshift : ¬ ShiftUndefined big.usedBits (n - v.usedBits) := by
    unfold ResizeUndefined at hok
    unfold ShiftUndefined
    omega
  obtain ⟨v', heq, hused', hlen', hbits⟩ := shiftDown_places hsize (hused ▸ hn) hshift
  have hplace : ∀ j, bitAt big.data j = bitAt v.data j := by
    intro j
    rw [hbig, bitAt_append_zeros]
  have hroom : n ≤ 32 * big.data.length := by
    rw [hsize, hused]
    omega
  have hv' : v'.usedBits = n := hused'.trans hused
  have hwf : v'.Wf := by
    refine ⟨by rw [hlen', hsize, hused'], hv' ▸ hn, fun j hj => ?_⟩
    by_cases hj' : j < 32 * big.data.length
    · rw [hbits j hj', if_pos (by omega), hplace, h.padding _ (by omega)]
    · exact bitAt_of_le (by omega) (by omega)
  refine ⟨v', ?_, hwf, view_eq_below hwf.bound hv' ?_⟩
  · unfold resize
    rw [if_neg (by omega), if_neg hne, if_neg (by omega), if_pos hlt]
    dsimp only
    rw [hw, heq]
  · intro i hi
    rw [hbits _ (by omega), view_bit h.bound, hplace]
    by_cases hiv : i < v.usedBits
    · rw [if_pos hiv, if_pos (by omega)]
      congr 1
      omega
    · rw [if_neg hiv, if_neg (by omega)]

theorem shrink_spec (h : v.Wf) (hlt : n < v.usedBits) (hpos : 0 < n)
    (hok : ¬ ResizeUndefined v.usedBits n) :
    ∃ v', v.resize n = .ok v' ∧ v'.Wf ∧ v'.view = v.view.resize n := by
  have hne : v.data ≠ [] := by
    rw [ne_eq, h.data_eq_nil_iff]
    omega
  have hn : n < sizeLimit := lt_trans hlt h.bound
  have hc1 := chunks_eq hn
  have hc2 := chunks_eq h.bound
  have hshift : ¬ ShiftUndefined v.usedBits (v.usedBits - n) := by
    unfold ResizeUndefined at hok
    unfold ShiftUndefined
    omega
  obtain ⟨u, heq, -, hlen, hbits⟩ := shiftUp_places h.size h.bound hshift
  have hlen' : (u.data.take (chunks n)).length = chunks n := by
    rw [length_take, hlen, h.size]
    omega
  have hwf : (⟨n, u.data.take (chunks n)⟩ : CkBitVector).Wf := by
    refine ⟨hlen', hn, fun j hj => ?_⟩
    have hj' : n ≤ j := hj
    by_cases hlast : j < 32 * chunks n
    · rw [bitAt_take _ hlast, hbits, h.padding _ (by omega)]
    · exact bitAt_of_le (by omega) (by rw [hlen']; omega)
  refine ⟨_, ?_, hwf, view_eq_below hwf.bound rfl ?_⟩
  · unfold resize
    rw [if_neg (by omega), if_neg hne, if_neg (by omega), if_neg (by omega), heq]
    rfl
  · intro i hi
    have hlast : n - 1 - i < 32 * chunks n := by omega
    rw [bitAt_take _ hlast, hbits, view_bit h.bound, if_pos (by omega)]
    congr 1
    omega

/-- **`Resize`**, when it is defined. -/
theorem resize_spec (h : v.Wf) (hn : n < sizeLimit) (hok : ¬ ResizeUndefined v.usedBits n) :
    ∃ v', v.resize n = .ok v' ∧ v'.Wf ∧ v'.view = v.view.resize n := by
  by_cases heq : n = v.usedBits
  · refine ⟨v, by rw [resize, if_pos heq], h, view_eq_below h.bound heq.symm ?_⟩
    intro i hi
    rw [view_bit h.bound, if_pos (by omega), heq]
  by_cases hpos : 0 < v.usedBits
  · rcases lt_or_gt_of_ne heq with hlt | hgt
    · by_cases h0 : n = 0
      · refine ⟨empty, ?_, empty_wf, ?_⟩
        · have hne : v.data ≠ [] := by
            rw [ne_eq, h.data_eq_nil_iff]
            omega
          rw [resize, if_neg heq, if_neg hne, if_pos h0]
        · subst h0
          exact BitString.eq_of_bits rfl (fun i hi => absurd hi (not_lt_zero i))
      · exact shrink_spec h hlt (pos_of_ne_zero h0) hok
    · exact grow_spec h hn hgt hpos hok
  · have hnil : v.data = [] := h.data_eq_nil_iff.mpr (by omega)
    refine ⟨ofSize n, by rw [resize, if_neg heq, if_pos hnil]; rfl, (ofSize_wf hn).1, ?_⟩
    rw [(ofSize_wf hn).2]
    refine BitString.eq_of_bits rfl (fun i hi => ?_)
    simp only [BitString.zeros, BitString.resize, BitString.bit_below, view_bit h.bound,
      show ¬ i < v.usedBits by omega, if_false]

theorem resize_undefined (h : v.Wf) (hn : n < sizeLimit)
    (hu : ResizeUndefined v.usedBits n) : v.resize n = .error .undefinedShift := by
  have hmin : 32 < min v.usedBits n := hu.2.2
  have hne : v.data ≠ [] := by
    rw [ne_eq, h.data_eq_nil_iff]
    omega
  have hc1 := chunks_eq hn
  have hc2 := chunks_eq h.bound
  unfold resize
  rw [if_neg (symm hu.1), if_neg hne, if_neg (by omega)]
  by_cases hlt : n > v.usedBits
  · rw [if_pos hlt]
    apply shiftDown_undefined
    · refine ⟨?_, hn, fun j hj => ?_⟩
      · dsimp only
        rw [length_append, length_take, length_replicate, h.size]
        omega
      · have hj' : n ≤ j := hj
        rw [bitAt_append_zeros, ← h.size, take_length, h.padding _ (by omega)]
    · unfold ResizeUndefined at hu
      unfold ShiftUndefined
      dsimp only
      omega
  · rw [if_neg hlt, shiftUp_undefined h]
    · rfl
    · unfold ResizeUndefined at hu
      unfold ShiftUndefined
      omega

end Sizes

/-! ### Single bits -/

section Bits

variable {v : CkBitVector}

variable {i : Nat}

/-- Writing the word of bit `i`, when that changes this bit only. -/
theorem write_spec (h : v.Wf) (hi : i < v.usedBits) {x : Word} {b : Bool}
    (hx : ∀ t < 32, x.getMsbD t =
      if t = (v.usedBits - 1 - i) % 32 then b else (v.data.getD (v.offset i) 0#32).getMsbD t) :
    let v' : CkBitVector := ⟨v.usedBits, v.data.set (v.offset i) x⟩
    v'.Wf ∧ v'.view = v.view.write i b := by
  have hoff := offset_eq h.bound hi
  have hlt : v.offset i < v.data.length := by
    have := h.room
    omega
  have hplace : ∀ j, bitAt (v.data.set (v.offset i) x) j =
      if j = v.usedBits - 1 - i then b else bitAt v.data j := by
    intro j
    rw [bitAt_set _ _ _ hlt]
    by_cases hj : j / 32 = v.offset i
    · rw [if_pos hj, hx _ (mod_lt j (by omega))]
      by_cases hmod : j % 32 = (v.usedBits - 1 - i) % 32
      · rw [if_pos hmod, if_pos (by omega)]
      · rw [if_neg hmod, if_neg (fun heq => hmod (by rw [heq])), ← hj]
        rfl
    · rw [if_neg hj, if_neg (by intro heq; exact hj (by rw [heq, hoff]))]
  intro v'
  have hwf : v'.Wf := by
    refine ⟨by rw [length_set, h.size], h.bound, fun j hj => ?_⟩
    have hj' : v.usedBits ≤ j := hj
    rw [hplace, if_neg (by omega), h.padding j hj']
  refine ⟨hwf, view_eq_below h.bound ?_ ?_⟩
  · rw [view_len]
    show v.usedBits = _
    omega
  · intro k hk
    rw [view_len] at hk ⊢
    rw [hplace, view_bit h.bound]
    by_cases hki : k = i
    · rw [if_pos hki, if_pos (by omega)]
    · rw [if_neg hki, if_neg (by omega), if_pos (by omega)]
      congr 1
      omega

theorem getMsbD_mask (hi : i < v.usedBits) {t : Nat} (ht : t < 32) :
    (v.mask i).getMsbD t = decide (t = (v.usedBits - 1 - i) % 32) := by
  rw [mask_eq hi, getMsbD_shiftLeft]
  have hm : (v.usedBits - 1 - i) % 32 < 32 := mod_lt _ (by omega)
  generalize (v.usedBits - 1 - i) % 32 = m at hm
  rw [getMsbD_eq_getLsbD]
  by_cases htm : t = m
  · subst htm
    simp [show t + (31 - t) = 31 by omega]
  · by_cases hlt : t + (31 - m) < 32
    · simp [hlt, htm, show 31 - (t + (31 - m)) ≠ 0 by omega]
    · simp [hlt, htm]

/-- The vector that `Set` and `Clear` work on: grown if the bit was not there. -/
theorem grown_spec (h : v.Wf) (hi : i + 1 < sizeLimit) (hge : v.usedBits ≤ i)
    (hok : ¬ ResizeUndefined v.usedBits (i + 1)) :
    ∃ u, v.resize (i + 1) = .ok u ∧ u.Wf ∧ u.usedBits = i + 1 ∧ ∀ b, u.view.write i b =
      v.view.write i b := by
  obtain ⟨u, heq, hwf, hview⟩ := resize_spec h hi hok
  have hused : u.usedBits = i + 1 := by
    have := congrArg BitString.len hview
    exact this
  refine ⟨u, heq, hwf, hused, fun b => ?_⟩
  rw [hview]
  refine BitString.eq_of_bits ?_ (fun k hk => ?_)
  · show max (i + 1) (i + 1) = max v.usedBits (i + 1)
    omega
  · have hk' : k < max (i + 1) (i + 1) := hk
    simp only [BitString.write, BitString.resize, BitString.bit_below, BitString.len_below,
      view_len, show k < max (i + 1) (i + 1) by omega, show k < max v.usedBits (i + 1) by omega,
      if_true, show k < i + 1 by omega]

theorem succ_mod (hi : i + 1 < sizeLimit) : (i + 1) % 2 ^ 32 = i + 1 := by
  unfold sizeLimit at hi
  omega

/-- **`Set`**, when it is defined. -/
theorem set_spec (h : v.Wf) (hi : i + 1 < sizeLimit)
    (hok : v.usedBits ≤ i → ¬ ResizeUndefined v.usedBits (i + 1)) :
    ∃ v', v.set i = .ok v' ∧ v'.Wf ∧ v'.view = v.view.write i true := by
  have hwrite : ∀ u : CkBitVector, u.Wf → i < u.usedBits →
      let u' : CkBitVector :=
        ⟨u.usedBits, u.data.set (u.offset i) (u.data.getD (u.offset i) 0#32 ||| u.mask i)⟩
      u'.Wf ∧ u'.view = u.view.write i true := by
    intro u hu hiu
    apply write_spec hu hiu
    intro t ht
    rw [getMsbD_or, getMsbD_mask hiu ht]
    split
    · simp [*]
    · simp [*]
  unfold set
  rw [succ_mod hi]
  by_cases hge : v.usedBits ≤ i
  · obtain ⟨u, heq, hwf, hused, hview⟩ := grown_spec h hi hge (hok hge)
    have hw := hwrite u hwf (by omega)
    rw [hview] at hw
    exact ⟨_, by rw [if_pos (by omega), heq]; rfl, hw⟩
  · exact ⟨_, by rw [if_neg (by omega)]; rfl, hwrite v h (by omega)⟩

/-- **`Clear`**, when it is defined. -/
theorem clear_spec (h : v.Wf) (hi : i + 1 < sizeLimit)
    (hok : v.usedBits ≤ i → ¬ ResizeUndefined v.usedBits (i + 1)) :
    ∃ v', v.clear i = .ok v' ∧ v'.Wf ∧ v'.view = v.view.write i false := by
  unfold clear
  rw [succ_mod hi]
  by_cases hge : v.usedBits ≤ i
  · obtain ⟨u, heq, hwf, hview⟩ := resize_spec h hi (hok hge)
    refine ⟨u, by rw [if_pos (by omega), heq], hwf, ?_⟩
    rw [hview]
    refine BitString.eq_of_bits ?_ (fun k hk => ?_)
    · show i + 1 = max v.usedBits (i + 1)
      omega
    · have hk' : k < i + 1 := hk
      simp only [BitString.write, BitString.resize, BitString.bit_below, view_len, hk', if_true,
        show k < max v.usedBits (i + 1) by omega]
      split
      · rw [view_bit h.bound, if_neg (by omega)]
      · rfl
  · refine ⟨_, by rw [if_neg (by omega)], write_spec h (by omega) ?_⟩
    intro t ht
    rw [getMsbD_and, getMsbD_not, getMsbD_mask (by omega) ht]
    split
    · simp [*]
    · simp [*]

theorem set_undefined (h : v.Wf) (hi : i + 1 < sizeLimit) (hge : v.usedBits ≤ i)
    (hu : ResizeUndefined v.usedBits (i + 1)) : v.set i = .error .undefinedShift := by
  unfold set
  rw [succ_mod hi, if_pos (by omega), resize_undefined h hi hu]
  rfl

theorem clear_undefined (h : v.Wf) (hi : i + 1 < sizeLimit) (hge : v.usedBits ≤ i)
    (hu : ResizeUndefined v.usedBits (i + 1)) : v.clear i = .error .undefinedShift := by
  unfold clear
  rw [succ_mod hi, if_pos (by omega), resize_undefined h hi hu]

end Bits

/-! ### Whole words -/

section Words

variable {v b : CkBitVector}

/-- **`Zero`**. -/
theorem zero_spec (h : v.Wf) : v.zero.Wf ∧ v.zero.view = BitString.zeros v.usedBits := by
  have hdata : v.zero.data = replicate v.data.length 0#32 := map_const'
  refine ⟨⟨?_, h.bound, fun j _ => ?_⟩, view_eq_below h.bound rfl (fun i _ => ?_)⟩
  · rw [hdata, length_replicate, h.size]
    rfl
  · rw [hdata, bitAt_replicate]
  · rw [hdata, bitAt_replicate]

/-- The last word keeps its first `r` bits. -/
theorem getMsbD_lastMask {r t : Nat} (hr : r ≤ 32) (ht : t < 32) :
    (BitVec.allOnes 32 <<< (32 - r)).getMsbD t = decide (t < r) := by
  rw [getMsbD_shiftLeft, getMsbD_eq_getLsbD, BitVec.getLsbD_allOnes]
  by_cases h : t < r
  · simp [h]
    omega
  · simp [h, show ¬ t + (32 - r) < 32 by omega]

/-- **`Invert`** masks the padding of the last word. -/
theorem invert_spec (h : v.Wf) : v.invert.Wf ∧ v.invert.view = v.view.invert := by
  have hplaces : v.invert.usedBits = v.usedBits ∧ v.invert.data.length = v.data.length ∧
      ∀ j < 32 * v.data.length, bitAt v.invert.data j =
        if j < v.usedBits then !bitAt v.data j else false := by
    have hc := chunks_eq h.bound
    have hsize := h.size
    have hmap : ∀ j < 32 * v.data.length, bitAt (v.data.map (~~~ ·)) j = !bitAt v.data j := by
      intro j hj
      apply bitAt_map _ _ _ hj
      intro x t ht
      simp [ht]
    unfold invert
    split
    · rename_i hnil
      refine ⟨rfl, rfl, fun j hj => ?_⟩
      simp [hnil] at hj
    · split
      · rename_i hmod
        rw [show chunkBits = 32 from rfl] at hmod ⊢
        refine ⟨rfl, by simp, fun j hj => ?_⟩
        have hlast : chunks v.usedBits - 1 < (v.data.map (~~~ ·)).length := by
          rw [length_map]
          omega
        rw [bitAt_set _ _ _ hlast]
        by_cases hj' : j / 32 = chunks v.usedBits - 1
        · have hword := hmap j hj
          unfold bitAt at hword
          rw [hj'] at hword
          rw [if_pos hj', getMsbD_and, hword,
            getMsbD_lastMask (le_of_lt (mod_lt _ (by omega))) (mod_lt _ (by omega))]
          unfold bitAt
          by_cases hlt : j < v.usedBits
          · rw [if_pos hlt, hj', decide_eq_true (by omega), Bool.and_true]
          · rw [if_neg hlt, decide_eq_false (by omega), Bool.and_false]
        · rw [if_neg hj', hmap j hj, if_pos (by omega)]
      · rename_i hmod
        rw [show chunkBits = 32 from rfl] at hmod
        refine ⟨rfl, by simp, fun j hj => ?_⟩
        rw [hmap j hj, if_pos (by omega)]
  obtain ⟨hused, hlen, hbits⟩ := hplaces
  have hroom := h.room
  have hwf : v.invert.Wf := by
    refine ⟨by rw [hlen, h.size, hused], hused ▸ h.bound, fun j hj => ?_⟩
    by_cases hj' : j < 32 * v.data.length
    · rw [hbits j hj', if_neg (by omega)]
    · exact bitAt_of_le (by omega) (by omega)
  refine ⟨hwf, view_eq_below hwf.bound hused (fun i hi => ?_)⟩
  rw [view_len] at hi ⊢
  rw [hbits _ (by omega), if_pos (by omega), view_bit h.bound, if_pos hi]

/-- **`Union`, `Intersection` and `Difference`** on vectors of one length. -/
theorem combine_spec (op : Word → Word → Word) (bop : Bool → Bool → Bool)
    (hop : ∀ x y t, t < 32 → (op x y).getMsbD t = bop (x.getMsbD t) (y.getMsbD t))
    (hzero : bop false false = false) (h : v.Wf) (hb : b.Wf) (hlen : v.usedBits = b.usedBits) :
    ∃ v', combine op v b = .ok v' ∧ v'.Wf ∧ v'.view = v.view.combine bop b.view := by
  have hsame : v.data.length = b.data.length := by rw [h.size, hb.size, hlen]
  unfold combine
  rw [if_neg (not_not.mpr hlen)]
  by_cases hnil : v.data = [] ∨ b.data = []
  · have h0 : v.usedBits = 0 := by
      rw [h.data_eq_nil_iff, hb.data_eq_nil_iff] at hnil
      omega
    refine ⟨v, by rw [if_pos hnil], h, view_eq_below h.bound rfl (fun i hi => ?_)⟩
    rw [view_len] at hi
    omega
  · have hroom := h.room
    have hz : (zipWith op v.data b.data).length = v.data.length := by
      rw [length_zipWith, ← hsame, min_self]
    have hbits : ∀ j < 32 * v.data.length, bitAt (zipWith op v.data b.data) j =
        bop (bitAt v.data j) (bitAt b.data j) := fun j hj => bitAt_zipWith op bop hop hsame hj
    have hwf : (⟨v.usedBits, zipWith op v.data b.data⟩ : CkBitVector).Wf := by
      refine ⟨by rw [hz, h.size], h.bound, fun j hj => ?_⟩
      have hj' : v.usedBits ≤ j := hj
      by_cases hlt : j < 32 * v.data.length
      · rw [hbits j hlt, h.padding j hj', hb.padding j (hlen ▸ hj'), hzero]
      · exact bitAt_of_le (by omega) (by rw [hz]; omega)
    refine ⟨_, by rw [if_neg hnil], hwf, view_eq_below h.bound rfl (fun i hi => ?_)⟩
    rw [view_len] at hi ⊢
    rw [hbits _ (by omega), view_bit h.bound, view_bit hb.bound, if_pos hi,
      if_pos (hlen ▸ hi), hlen]

theorem combine_abort (op : Word → Word → Word) (hlen : v.usedBits ≠ b.usedBits) :
    combine op v b = .error .differentLength := by
  unfold combine
  rw [if_pos hlen]

theorem union_spec (h : v.Wf) (hb : b.Wf) (hlen : v.usedBits = b.usedBits) :
    ∃ v', v.union b = .ok v' ∧ v'.Wf ∧ v'.view = v.view.combine (· || ·) b.view :=
  combine_spec _ _ (fun _ _ _ _ => getMsbD_or) rfl h hb hlen

theorem intersection_spec (h : v.Wf) (hb : b.Wf) (hlen : v.usedBits = b.usedBits) :
    ∃ v', v.intersection b = .ok v' ∧ v'.Wf ∧ v'.view = v.view.combine (· && ·) b.view :=
  combine_spec _ _ (fun _ _ _ _ => getMsbD_and) rfl h hb hlen

theorem difference_spec (h : v.Wf) (hb : b.Wf) (hlen : v.usedBits = b.usedBits) :
    ∃ v', v.difference b = .ok v' ∧ v'.Wf ∧
    v'.view = v.view.combine (fun x y => x && !y) b.view := by
  refine combine_spec _ _ (fun x y t ht => ?_) rfl h hb hlen
  rw [getMsbD_and, getMsbD_not, decide_eq_true ht, Bool.true_and]

/-! ### Concatenation -/

/-- Growing either operand of `Concat` shifts a word by 32. -/
def ConcatUndefined (m n : Nat) : Prop :=
  (0 < m ∧ m % 32 = 0 ∧ 32 < n) ∨ (0 < n ∧ n % 32 = 0 ∧ 32 < m)

instance (m n : Nat) : Decidable (ConcatUndefined m n) := inferInstanceAs (Decidable (_ ∨ _))

/-- **`Concat`**, when it is defined. -/
theorem concat_spec (h : v.Wf) (hb : b.Wf) (hlt : v.usedBits + b.usedBits < sizeLimit)
    (hok : ¬ ConcatUndefined v.usedBits b.usedBits) :
    ∃ v', v.concat b = .ok v' ∧ v'.Wf ∧ v'.view = v.view.concat b.view := by
  have hmod : (v.usedBits + b.usedBits) % 2 ^ 32 = v.usedBits + b.usedBits := by
    unfold sizeLimit at hlt
    omega
  unfold ConcatUndefined at hok
  unfold concat
  by_cases hnil : v.data = []
  · have h0 : v.usedBits = 0 := h.data_eq_nil_iff.mp hnil
    refine ⟨b, by rw [if_pos hnil], hb, view_eq_below hb.bound ?_ (fun i hi => ?_)⟩
    · rw [view_len, view_len, h0, zero_add]
    · rw [view_len, view_len] at hi ⊢
      rw [if_pos (by omega), view_bit hb.bound, if_pos (by omega), h0, zero_add]
  · obtain ⟨tmp, heq1, hwf1, hview1⟩ := resize_spec hb hlt (by unfold ResizeUndefined; omega)
    obtain ⟨u, heq2, hwf2, hview2⟩ := resize_spec h hlt (by unfold ResizeUndefined; omega)
    have hu : u.usedBits = v.usedBits + b.usedBits := congrArg BitString.len hview2
    have ht : tmp.usedBits = v.usedBits + b.usedBits := congrArg BitString.len hview1
    obtain ⟨u', heq3, hwf3, hview3⟩ :=
      shiftUp_spec (k := b.usedBits) hwf2 (by unfold ShiftUndefined; omega)
    have hu' : u'.usedBits = v.usedBits + b.usedBits := (congrArg BitString.len hview3).trans hu
    obtain ⟨v', heq4, hwf4, hview4⟩ := union_spec hwf3 hwf1 (hu'.trans ht.symm)
    refine ⟨v', ?_, hwf4, ?_⟩
    · rw [if_neg hnil]
      simp only [hmod, heq1, heq2, bind, Except.bind, heq3, heq4]
    · rw [hview4, hview3, hview2, hview1]
      refine BitString.eq_of_bits rfl (fun i hi => ?_)
      have hi' : i < v.usedBits + b.usedBits := hi
      simp only [BitString.combine, BitString.shiftUp, BitString.resize, BitString.concat,
        BitString.bit_below, BitString.len_below, view_len, hi']
      -- the low bits come from `b`, the others from the receiver
      by_cases hib : i < b.usedBits
      · simp only [hib, show ¬ b.usedBits ≤ i by omega, if_true, if_false, Bool.false_or]
      · simp only [hib, show b.usedBits ≤ i by omega,
          show i - b.usedBits < v.usedBits + b.usedBits by omega, if_true, if_false,
          view_bit hb.bound, Bool.or_false]

theorem concat_undefined (h : v.Wf) (hb : b.Wf) (hlt : v.usedBits + b.usedBits < sizeLimit)
    (hu : ConcatUndefined v.usedBits b.usedBits) : v.concat b = .error .undefinedShift := by
  have hmod : (v.usedBits + b.usedBits) % 2 ^ 32 = v.usedBits + b.usedBits := by
    unfold sizeLimit at hlt
    omega
  unfold ConcatUndefined at hu
  have hnil : v.data ≠ [] := by
    rw [ne_eq, h.data_eq_nil_iff]
    omega
  unfold concat
  rw [if_neg hnil]
  simp only [hmod]
  by_cases h1 : ResizeUndefined b.usedBits (v.usedBits + b.usedBits)
  · rw [resize_undefined hb hlt h1]
    rfl
  · obtain ⟨tmp, heq1, -⟩ := resize_spec hb hlt h1
    rw [heq1]
    simp only [bind, Except.bind]
    rw [resize_undefined h hlt]
    unfold ResizeUndefined at h1 ⊢
    omega

end Words

/-! ### A value out of a number of choices -/

section Choice

variable {val : Nat}

theorem ilog2Loop_eq {log : Nat} (hlow : ∀ k < log, 2 ^ k < val) :
    ∀ (todo i : Nat), i + todo = 32 → i ≤ log → log < 32 → val ≤ 2 ^ log →
      ilog2Loop val todo i = .ok log := by
  intro todo
  induction todo with
  | zero =>
    intro i hi hle hlt _
    omega
  | succ todo ih =>
    intro i hi hle hlt hval
    unfold ilog2Loop
    by_cases heq : i = log
    · subst heq
      rw [if_neg (by omega)]
    · rw [if_pos (hlow i (by omega))]
      exact ih (i + 1) (by omega) (by omega) hlt hval

theorem ilog2Loop_undefined (hval : 2 ^ 31 < val) :
    ∀ (todo i : Nat), i + todo = 32 → ilog2Loop val todo i = .error .undefinedShift := by
  intro todo
  induction todo with
  | zero =>
    intro i _
    rfl
  | succ todo ih =>
    intro i hi
    have hpow : 2 ^ i ≤ 2 ^ 31 := Nat.pow_le_pow_right (by omega) (by omega)
    unfold ilog2Loop
    rw [if_pos (by omega)]
    exact ih (i + 1) (by omega)

/-- `ilog2` is the rounded-up logarithm, up to `2 ^ 31`. -/
theorem ilog2_eq (hpos : 0 < val) (hval : val ≤ 2 ^ 31) : ilog2 val = .ok (clog 2 val) := by
  have hle : clog 2 val ≤ 31 := (clog_le_iff_le_pow (by omega)).mpr hval
  unfold ilog2
  rw [if_pos (by omega)]
  refine ilog2Loop_eq (fun k hk => ?_) _ 0 rfl (zero_le _) (by omega) (le_pow_clog (by omega) val)
  exact (lt_clog_iff_pow_lt (by omega)).mp hk

theorem ilog2_undefined (hval : 2 ^ 31 < val) : ilog2 val = .error .undefinedShift := by
  unfold ilog2
  rw [if_pos (by omega)]
  exact ilog2Loop_undefined hval _ 0 rfl

/-- **`CkBitVector(value, choices)`**, for at most `2 ^ 31` choices. -/
theorem ofChoice_spec {value choices : Nat} (hlt : value < choices) (hc : choices ≤ 2 ^ 31) :
    ∃ v, ofChoice value choices = .ok v ∧ v.Wf ∧
    v.view = BitString.ofNat (clog 2 choices) value := by
  have hle : clog 2 choices ≤ 31 := (clog_le_iff_le_pow (by omega)).mpr hc
  have hpow : value < 2 ^ clog 2 choices :=
    lt_of_lt_of_le hlt (le_pow_clog (by omega) choices)
  unfold ofChoice
  rw [if_neg (by omega), ilog2_eq (by omega) hc]
  generalize clog 2 choices = n at hle hpow
  by_cases hn : n = 0
  · subst hn
    exact ⟨empty, rfl, empty_wf, BitString.eq_of_bits rfl (fun i hi => absurd hi (not_lt_zero i))⟩
  · have hplace : ∀ j, bitAt [ofNat 32 value <<< (32 - n)] j =
        if j < n then value.testBit (n - 1 - j) else false := by
      intro j
      by_cases hj : j < 32
      · have hw := bitAt_word [ofNat 32 value <<< (32 - n)] 0 hj
        rw [Nat.zero_add] at hw
        rw [hw, getD_cons_zero, getMsbD_shiftLeft, getMsbD_eq_getLsbD, BitVec.getLsbD_ofNat]
        by_cases hjn : j < n
        · simp [hjn, show j + (32 - n) < 32 by omega,
            show 32 - 1 - (j + (32 - n)) = n - 1 - j by omega]
          omega
        · simp [hjn, show ¬ j + (32 - n) < 32 by omega]
      · rw [bitAt_of_le (by omega) (by simpa using hj), if_neg (by omega)]
    have hb : n < sizeLimit := by
      unfold sizeLimit
      omega
    have hwf : (⟨n, [ofNat 32 value <<< (32 - n)]⟩ : CkBitVector).Wf := by
      refine ⟨?_, hb, fun j hj => ?_⟩
      · show 1 = chunks n
        rw [chunks_eq hb]
        omega
      · have hj' : n ≤ j := hj
        rw [hplace, if_neg (by omega)]
    refine ⟨_, ?_, hwf, view_eq_below hb rfl (fun i hi => ?_)⟩
    · simp only [bind, Except.bind, pure, Except.pure, if_pos hn, shl, chunkBits,
        show 32 - n < 32 by omega, if_true]
    · rw [hplace, if_pos (by omega)]
      congr 1
      omega

theorem ofChoice_undefined {value choices : Nat} (hlt : value < choices)
    (hc : 2 ^ 31 < choices) : ofChoice value choices = .error .undefinedShift := by
  unfold ofChoice
  rw [if_neg (by omega), ilog2_undefined hc]
  rfl

end Choice

end CkBitVector

end CharmRuntime.Util
