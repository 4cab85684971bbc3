import Mathlib.Data.List.GetD
import CharmRuntime.Lib.Runs
import CharmRuntime.Util.CkSequence

/-!
# Util.CkSequenceIterate

What the iterators of a `CkSequence` yield, and the bits that its constructor sets.
-/

namespace CharmRuntime.Util

open Lib List

/-! ### Bits -/

/-- The bit of an index. -/
def hasBit (a : CharVector) (ind : Nat) : Bool := (a.getD (ind / 8) 0).getLsbD (ind % 8)

variable {a : CharVector} {max : Nat} {bit_vector : CharVector} {f : Nat → Bool}
  {subs : List SequenceInternal} {ls : List (List Int)}

theorem isSet_ok {ind : Nat} (h : ind / 8 < a.length) : isSet a ind = .ok (hasBit a ind) := by
  have hlt : ind % 8 < 8 := Nat.mod_lt _ (by decide)
  unfold isSet hasBit
  rw [getElem?_eq_getElem h, getD_eq_getElem _ _ h]
  dsimp only
  rw [← BitVec.twoPow_eq, BitVec.and_twoPow]
  split
  · rename_i hset
    rw [hset]
    have hne : BitVec.twoPow 8 (ind % 8) ≠ 0 := by
      intro hzero
      have hbit := congrArg (fun x => x.getLsbD (ind % 8)) hzero
      simp [hlt] at hbit
    rw [decide_eq_true hne]
  · rename_i hset
    rw [Bool.eq_false_of_not_eq_true hset]
    rfl

theorem setBit_ok {ind : Nat} (h : ind / 8 < a.length) :
    ∃ a', setBit a ind = .ok a' ∧ a'.length = a.length ∧
    ∀ j, hasBit a' j = (decide (j = ind) || hasBit a j) := by
  have hlt : ind % 8 < 8 := Nat.mod_lt _ (by decide)
  unfold setBit
  rw [getElem?_eq_getElem h]
  refine ⟨_, rfl, length_set, fun j => ?_⟩
  unfold hasBit
  by_cases hdiv : ind / 8 = j / 8
  · rw [← hdiv, getD_eq_getElem _ _ (by rwa [length_set]), getElem_set_self, getD_eq_getElem _ _ h,
      BitVec.getLsbD_or, ← BitVec.twoPow_eq, BitVec.getLsbD_twoPow]
    by_cases hj : j = ind
    · simp [hj, hlt]
    · have hmod : ind % 8 ≠ j % 8 := by omega
      simp [hj, hmod]
  · have hj : j ≠ ind := fun h => hdiv (congrArg (· / 8) h).symm
    rw [getD_eq_getElem?_getD, getElem?_set_ne hdiv, decide_eq_false hj, Bool.false_or,
      ← getD_eq_getElem?_getD]

theorem setBits_ok {l : List Nat} (h : ∀ x ∈ l, x / 8 < a.length) :
    ∃ a', l.foldlM setBit a = .ok a' ∧ a'.length = a.length ∧
    ∀ j, hasBit a' j = (decide (j ∈ l) || hasBit a j) := by
  induction l generalizing a with
  | nil => exact ⟨a, rfl, rfl, fun j => by simp⟩
  | cons x l ih =>
    obtain ⟨hx, hl⟩ := forall_mem_cons.mp h
    obtain ⟨a', hset, hlength, hbits⟩ := setBit_ok hx
    obtain ⟨a'', hrest, hlength', hbits'⟩ := ih (by rwa [hlength])
    refine ⟨a'', ?_, hlength'.trans hlength, fun j => ?_⟩
    · rw [foldlM_cons, hset]
      exact hrest
    · rw [hbits', hbits, ← Bool.or_assoc]
      congr 1
      rw [Bool.eq_iff_iff]
      simp only [Bool.or_eq_true, decide_eq_true_iff, mem_cons]
      exact or_comm

theorem wrap32_of_lt {x : Int} (h0 : -2 ^ 31 ≤ x) (h : x < 2 ^ 31) : wrap32 x = x := by
  unfold wrap32
  rw [BitVec.toInt_ofInt]
  exact Int.bmod_eq_of_le (by omega) (by omega)

theorem wrap32_of_ge {x : Int} (h : 2 ^ 31 ≤ x) (hmax : x < 2 ^ 32) : wrap32 x = x - 2 ^ 32 := by
  unfold wrap32
  rw [BitVec.toInt_ofInt, ← Int.sub_bmod_right x (2 ^ 32)]
  exact Int.bmod_eq_of_le (by omega) (by omega)

theorem numBytes_ok (h : max + 1 < 2 ^ 31) : numBytes max = .ok ((max + 1) / 8 + 1) := by
  unfold numBytes
  rw [wrap32_of_lt (by omega) (by omega)]
  congr 1

/-! ### Bit vectors -/

/-- A bit vector has the bits of `f`, up to `max`. -/
structure Reads (bit_vector : CharVector) (max : Nat) (f : Nat → Bool) : Prop where
  length : (max + 1) / 8 < bit_vector.length
  bits : ∀ x ≤ max, hasBit bit_vector x = f x

theorem Reads.isSet (h : Reads bit_vector max f) {x : Nat} (hx : x ≤ max) :
    isSet bit_vector x = .ok (f x) := by
  have hlength := h.length
  rw [isSet_ok (by omega), h.bits x hx]

theorem skipUnset_ok {index : Nat} (h : Reads bit_vector max f) (hindex : index ≤ max + 1) :
    ∃ j, skipUnset bit_vector max index = .ok j ∧ index ≤ j ∧ j ≤ max + 1 ∧
    (∀ x, index ≤ x → x < j → f x = false) ∧
      (j ≤ max → f j = true) := by
  induction hk : max + 1 - index generalizing index with
  | zero =>
    refine ⟨index, ?_, le_refl _, hindex, fun x hle hlt => by omega, fun hle => by omega⟩
    rw [skipUnset, if_neg (by omega)]
  | succ k ih =>
    rw [skipUnset, if_pos (by omega), h.isSet (by omega)]
    cases hf : f index with
    | true => exact ⟨index, rfl, le_refl _, hindex, fun x hle hlt => by omega, fun _ => hf⟩
    | false =>
      obtain ⟨j, hret, hle, hmax, hnone, hj⟩ := ih (show index + 1 ≤ max + 1 by omega) (by omega)
      refine ⟨j, hret, by omega, hmax, fun x hx hlt => ?_, hj⟩
      obtain rfl | hne := eq_or_lt_of_le hx
      exacts [hf, hnone x hne hlt]

/-! ### Sub-sequences -/

/-- What an iterator of a sub-sequence yields, before another one of it. -/
inductive Runs (it_end : IteratorInternal) : IteratorInternal → List Int → Prop
  | last {it it' : IteratorInternal} :
      it.next = .ok it' → it'.isEq it_end = true → Runs it_end it [it.deref]
  | next {it it' : IteratorInternal} {l : List Int} :
      it.next = .ok it' → it'.isEq it_end = false → Runs it_end it' l →
      Runs it_end it (it.deref :: l)

/-- A sub-sequence as the constructors make it. -/
def Made : SequenceInternal → Prop
  | .random s =>
    s.num_elements.length = 4 ∧ s.max + 1 < 2 ^ 31 ∧ s.bit_vector.length = (s.max + 1) / 8 + 1
  | .strided _ => True

/-- What a sub-sequence holds. -/
structure Holds (s : SequenceInternal) (l : List Int) : Prop where
  runs : ∃ it it_end, s.begin = .ok it ∧ s.last = .ok it_end ∧ Runs it_end it l
  made : Made s

theorem Runs.yields {it it_end : IteratorInternal} {l l' : List Int} {rest : List SequenceInternal}
    {i : CkSequence.Iterator} (h : Runs it_end it l) (hrest : CkSequence.atBegin rest = .ok i)
    (hyields : CkSequence.Yields i l') :
    CkSequence.Yields (some (it, it_end, rest)) (l ++ l') := by
  induction h with
  | last hnext heq =>
    refine .next ?_ hyields
    unfold CkSequence.advance
    rw [hnext, ← hrest]
    exact if_pos heq
  | next hnext hne _ ih =>
    refine .next ?_ ih
    unfold CkSequence.advance
    rw [hnext]
    exact if_neg (by rw [hne]; decide)

theorem yields_of_holds (h : List.Forall₂ Holds subs ls) :
    ∃ i, CkSequence.atBegin subs = .ok i ∧ CkSequence.Yields i ls.flatten := by
  induction h with
  | nil => exact ⟨none, rfl, .done⟩
  | @cons s l subs ls hs _ ih =>
    obtain ⟨i, hbegin, hyields⟩ := ih
    obtain ⟨it, it_end, hit, hend, hruns⟩ := hs.runs
    refine ⟨some (it, it_end, subs), ?_, hruns.yields hbegin hyields⟩
    simp only [CkSequence.atBegin, hit, hend]
    rfl

theorem made_of_holds (h : List.Forall₂ Holds subs ls) : ∀ s ∈ subs, Made s := by
  induction h with
  | nil => exact fun s hs => absurd hs not_mem_nil
  | cons hs _ ih => exact forall_mem_cons.mpr ⟨hs.made, ih⟩

theorem runs_bitVector {index : Nat} (h : Reads bit_vector max f) (start : Nat)
    (hindex : index ≤ max) (hf : f index = true) :
    Runs (.bitVector bit_vector start (max + 1) max) (.bitVector bit_vector start index max)
      ((positions f index (max + 1)).map fun x => ((start + x : Nat) : Int)) := by
  induction hk : max - index using Nat.strong_induction_on generalizing index with
  | _ k ih =>
    obtain ⟨j, hskip, hle, hmax, hnone, hj⟩ := skipUnset_ok h (show index + 1 ≤ max + 1 by omega)
    have hnext :
      (IteratorInternal.bitVector bit_vector start index max).next =
      .ok (.bitVector bit_vector start j max) := by
      change IteratorInternal.newBitVector bit_vector start (index + 1) max = _
      unfold IteratorInternal.newBitVector
      rw [hskip]
      rfl
    have hgap : positions f (index + 1) (max + 1) = positions f j (max + 1) := by
      rw [← positions_append hle hmax, positions_of_none hnone, nil_append]
    rw [positions_cons hf (by omega), hgap]
    obtain rfl | hlt := eq_or_lt_of_le hmax
    · rw [positions_of_none fun x hx hx' => by omega]
      exact .last hnext (decide_eq_true rfl)
    · refine .next hnext (decide_eq_false (by omega))
        (ih (max - j) (by omega) (by omega) (hj (by omega)) rfl)

def toInts (l : List Nat) : List Int := l.map fun x : Nat => (x : Int)

theorem toInts_append (l l' : List Nat) : toInts (l ++ l') = toInts l ++ toInts l' := map_append

/-- **A random sub-sequence** holds what the bit vector has between its bounds. -/
theorem random_holds {first last : Nat} (h : Reads bit_vector max f)
    (hmax : max + 1 < 2 ^ 31) (hle : first ≤ last) (hlast : last ≤ max) (hf : f first = true) :
    ∃ r, RandomSequence.new bit_vector first last = .ok r ∧
      Holds (.random r) (toInts (positions f first (last + 1))) := by
  have hlength := h.length
  obtain ⟨copy, hdef⟩ : ∃ copy : CharVector,
    (bit_vector.drop (first / 8)).take ((first % 8 + (last - first) + 1) / 8 + 1) = copy := ⟨_, rfl⟩
  -- The copy begins with the byte of the first element.
  have hcopy : Reads copy (first % 8 + (last - first)) fun x => f (first - first % 8 + x) := by
    subst hdef
    refine ⟨?_, fun x hx => ?_⟩
    · rw [length_take, length_drop]
      omega
    · rw [← h.bits _ (by omega)]
      unfold hasBit
      rw [show (first - first % 8 + x) / 8 = first / 8 + x / 8 by omega,
        show (first - first % 8 + x) % 8 = x % 8 by omega, getD_eq_getElem?_getD,
        getElem?_take_of_lt (by omega), getElem?_drop, ← getD_eq_getElem?_getD]
  have hbegin : f (first - first % 8 + first % 8) = true := by
    rw [Nat.sub_add_cancel (Nat.mod_le _ _)]
    exact hf
  obtain ⟨j, hskip, hj, -, hnone, -⟩ :=
    skipUnset_ok hcopy (show first % 8 ≤ first % 8 + (last - first) + 1 by omega)
  obtain rfl : first % 8 = j := by
    refine (eq_or_lt_of_le hj).resolve_right fun hlt => ?_
    rw [hnone _ (le_refl _) hlt] at hbegin
    cases hbegin
  obtain ⟨j, hskip', hj', hmax', -⟩ := skipUnset_ok hcopy (le_refl (first % 8 + (last - first) + 1))
  obtain rfl : first % 8 + (last - first) + 1 = j := le_antisymm hj' hmax'
  refine ⟨⟨replicate 4 .blank, first - first % 8, first % 8, first % 8 + (last - first), copy⟩, ?_,
    ⟨.bitVector copy (first - first % 8) (first % 8) (first % 8 + (last - first)),
      .bitVector copy (first - first % 8) (first % 8 + (last - first) + 1)
        (first % 8 + (last - first)), ?_, ?_, ?_⟩,
    length_replicate, ?_, ?_⟩
  · unfold RandomSequence.new
    dsimp only
    rw [numBytes_ok (by omega), ← hdef]
    exact if_neg (by omega)
  · change IteratorInternal.newBitVector _ _ _ _ = _
    unfold IteratorInternal.newBitVector
    rw [hskip]
    rfl
  · change IteratorInternal.newBitVector _ _ _ _ = _
    unfold IteratorInternal.newBitVector
    rw [hskip']
    rfl
  · have hruns := runs_bitVector hcopy (first - first % 8) (Nat.le_add_right _ _) hbegin
    have hlist : (positions f first (last + 1)) =
        (positions (fun x => f (first - first % 8 + x)) (first % 8)
          (first % 8 + (last - first) + 1)).map
          (first - first % 8 + ·) := by
      refine positions_eq (pairwise_map.mpr ((positions_sorted _ _ _).imp fun hlt => by omega))
        fun x => ?_
      rw [mem_map]
      constructor
      · rintro ⟨y, hy, rfl⟩
        obtain ⟨hle, hlt, hfy⟩ := mem_positions.mp hy
        exact ⟨by omega, by omega, hfy⟩
      · rintro ⟨hle, hlt, hfx⟩
        refine ⟨x - (first - first % 8), mem_positions.mpr ⟨by omega, by omega, ?_⟩, by omega⟩
        rwa [show first - first % 8 + (x - (first - first % 8)) = x by omega]
    rw [hlist]
    unfold toInts
    rw [map_map]
    exact hruns
  · change first % 8 + (last - first) + 1 < 2 ^ 31
    omega
  · change copy.length = (first % 8 + (last - first) + 1) / 8 + 1
    rw [← hdef, length_take, length_drop]
    omega

/-- **A strided sub-sequence** holds the elements with its distances. -/
theorem strided_holds {start d n : Nat} (hd : 0 < d) (hmax : start + n * d < 2 ^ 31) :
    Holds (.strided ⟨start, d, (start + n * d : Nat)⟩)
      (toInts ((List.range (n + 1)).map fun k => start + k * d)) := by
  refine ⟨⟨_, _, rfl, rfl, ?_⟩, trivial⟩
  -- From the element k on.
  have hruns : ∀ m k, k + m = n → Runs (.strided (wrap32 ((start + n * d) + d)) 0)
      (.strided (start + k * d : Nat) d)
        (toInts ((range' k (m + 1)).map fun k => start + k * d)) := by
    intro m
    induction m with
    | zero =>
      rintro k rfl
      exact .last rfl (decide_eq_true rfl)
    | succ m ih =>
      intro k _
      have hle : (k + 1) * d ≤ n * d := Nat.mul_le_mul_right d (by omega)
      have hsucc : (k + 1) * d = k * d + d := Nat.succ_mul k d
      have hnext : (IteratorInternal.strided (start + k * d) d).next =
          .ok (.strided (start + (k + 1) * d : Nat) d) := by
        change Except.ok (IteratorInternal.strided (wrap32 _) _) = _
        rw [wrap32_of_lt (by omega) (by omega)]
        congr 2
        omega
      refine .next hnext (decide_eq_false ?_) (ih (k + 1) (by omega))
      -- The end is behind the last element, or it is negative.
      obtain hlt | hge := lt_or_ge (start + n * d + d) (2 ^ 31)
      · rw [wrap32_of_lt (by omega) (by omega)]
        omega
      · rw [wrap32_of_ge (by omega) (by omega)]
        omega
  rw [range_eq_range']
  have hall := hruns n 0 (zero_add n)
  rwa [zero_mul] at hall

end CharmRuntime.Util
