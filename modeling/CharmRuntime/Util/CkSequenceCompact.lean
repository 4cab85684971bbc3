import CharmRuntime.Util.CkSequenceIterate

/-!
# Util.CkSequenceCompact

**Compaction keeps the elements.** What is before the current sub-sequence is held by those that are
made (`Scanned.emitted`); of the current one the variables of the loop know the last three elements
(`Loose`), or it is an arithmetic progression (`Strides`).
-/

namespace CharmRuntime.Util.CkSequence

open Lib List

variable {f : Nat → Bool}

/-- `b` is the next element behind `a`. -/
structure Follows (f : Nat → Bool) (a b : Nat) : Prop where
  lt : a < b
  first : f a = true
  next : f b = true
  between : ∀ x, a < x → x < b → f x = false

theorem Follows.positions {a b : Nat} (h : Follows f a b) {lo : Nat} (hlo : lo ≤ a) :
    positions f lo b = positions f lo (a + 1) := by
  rw [← positions_append (show lo ≤ a + 1 by omega) (show a + 1 ≤ b from h.lt),
    positions_of_none fun x hle hlt => h.between x hle hlt, append_nil]

/-- Elements without equal distances between the last three. -/
structure Loose (f : Nat → Bool) (st : CompactState) : Prop where
  start_random : st.start_random = st.prev_ele
  known : (st.seq_begin_ele = st.prev_ele ∧ st.stride = -1) ∨
    (st.seq_begin_ele ≤ st.prev_prev_ele ∧ Follows f st.prev_prev_ele st.prev_ele ∧
      st.stride = (st.prev_ele : Int) - st.prev_prev_ele ∧
      (st.seq_begin_ele < st.prev_prev_ele →
        st.seq_begin_ele ≤ st.prev_prev_prev_ele ∧
        Follows f st.prev_prev_prev_ele st.prev_prev_ele))

/-- The elements `first`, `first + d` and so on are those up to the n-th. -/
structure Progression (f : Nat → Bool) (first d n : Nat) : Prop where
  pos : 0 < d
  mem : ∀ x, first ≤ x → x ≤ first + n * d → (f x = true ↔ ∃ k ≤ n, x = first + k * d)

/-- Elements with equal distances. -/
structure Strides (f : Nat → Bool) (st : CompactState) : Prop where
  end_stride : st.end_stride = st.prev_ele
  progression : ∃ d n : Nat, st.stride = d ∧ st.prev_ele = st.seq_begin_ele + n * d ∧
    Progression f st.seq_begin_ele d n

/-- What the loop knows when the elements before `i` are scanned. -/
structure Scanned (f : Nat → Bool) (i : Nat) (st : CompactState) : Prop where
  first : f st.seq_begin_ele = true
  le : st.seq_begin_ele ≤ st.prev_ele
  prev : f st.prev_ele = true
  lt : st.prev_ele < i
  between : ∀ x, st.prev_ele < x → x < i → f x = false
  emitted :
    ∃ ls, List.Forall₂ Holds st.subsequence_list ls ∧
    ls.flatten = toInts (positions f 0 st.seq_begin_ele)
  shape : if st.is_strided then Strides f st else Loose f st

theorem emit {subs : List SequenceInternal} {s : SequenceInternal} {a b : Nat}
    (h : ∃ ls, List.Forall₂ Holds subs ls ∧ ls.flatten = toInts (positions f 0 a)) (hab : a ≤ b)
    (hs : Holds s (toInts (positions f a b))) :
    ∃ ls, List.Forall₂ Holds (subs ++ [s]) ls ∧ ls.flatten = toInts (positions f 0 b) := by
  obtain ⟨ls, hls, hflat⟩ := h
  refine ⟨ls ++ [toInts (positions f a b)], rel_append hls (.cons hs .nil), ?_⟩
  rw [flatten_append, hflat, flatten_singleton, ← toInts_append,
    positions_append (Nat.zero_le a) hab]

theorem Progression.positions {first d n : Nat} (h : Progression f first d n) :
    positions f first (first + n * d + 1) = (List.range (n + 1)).map fun k => first + k * d := by
  refine positions_eq ?_ fun x => ?_
  · refine pairwise_map.mpr (pairwise_lt_range.imp fun {k k'} hlt => ?_)
    have hmul := Nat.mul_lt_mul_of_pos_right hlt h.pos
    omega
  · rw [mem_map]
    constructor
    · rintro ⟨k, hk, rfl⟩
      have hle := Nat.mul_le_mul_right d (Nat.le_of_lt_succ (mem_range.mp hk))
      exact ⟨by omega, by omega, (h.mem _ (by omega) (by omega)).mpr
        ⟨k, Nat.le_of_lt_succ (mem_range.mp hk), rfl⟩⟩
    · rintro ⟨hle, hlt, hfx⟩
      obtain ⟨k, hk, rfl⟩ := (h.mem x hle (by omega)).mp hfx
      exact ⟨k, mem_range.mpr (Nat.lt_succ_of_le hk), rfl⟩

theorem Progression.succ {first d n : Nat} (h : Progression f first d n)
    (hfollows : Follows f (first + n * d) (first + (n + 1) * d)) :
    Progression f first d (n + 1) := by
  refine ⟨h.pos, fun x hle hlt => ?_⟩
  constructor
  · intro hfx
    obtain hin | hout := lt_or_ge (first + n * d) x
    · obtain heq | hlt' := eq_or_lt_of_le hlt
      · exact ⟨n + 1, le_refl _, heq⟩
      · rw [hfollows.between x hin hlt'] at hfx
        cases hfx
    · obtain ⟨k, hk, heq⟩ := (h.mem x hle hout).mp hfx
      exact ⟨k, by omega, heq⟩
  · rintro ⟨k, hk, rfl⟩
    obtain rfl | hlt' := eq_or_lt_of_le hk
    · exact hfollows.next
    · have hmul := Nat.mul_le_mul_right d (Nat.le_of_lt_succ hlt')
      exact (h.mem _ (by omega) (by omega)).mpr ⟨k, Nat.le_of_lt_succ hlt', rfl⟩

theorem progression_two {a b c d : Nat} (h : Follows f a b) (h' : Follows f b c) (hab : b = a + d)
    (hbc : c = b + d) :
    Progression f a d 2 := by
  have hpos : 0 < d := by
    have hlt := h.lt
    omega
  have hzero : Progression f a d 0 := by
    refine ⟨hpos, fun x hle hlt => ?_⟩
    obtain rfl : a = x := by omega
    exact iff_of_true h.first ⟨0, le_refl 0, by omega⟩
  have hone : Progression f a d 1 := by
    refine hzero.succ ?_
    rw [zero_mul, zero_add, one_mul, ← hab]
    exact h
  refine hone.succ ?_
  rw [one_mul, ← hab, show a + (1 + 1) * d = c by omega]
  exact h'

/-! ### The loop -/

section Loop

variable {bit_vector : CharVector} {max i : Nat} {st : CompactState}
  (hreads : Reads bit_vector max f) (hmax : max + 1 < 2 ^ 31)

theorem Scanned.follows (h : Scanned f i st) (hi : f i = true) : Follows f st.prev_ele i :=
  ⟨h.lt, h.prev, hi, h.between⟩

theorem between_succ {x : Nat} (hlt : i < x) (hx : x < i + 1) : f x = false := by omega

theorem Scanned.stride {first d n : Nat} {subs : List SequenceInternal} (hi : f i = true)
    (hfirst : f first = true)
    (hemitted : ∃ ls, List.Forall₂ Holds subs ls ∧ ls.flatten = toInts (positions f 0 first))
    (hprogression : Progression f first d n) (heq : i = first + n * d) :
    Scanned f (i + 1) { st with
      subsequence_list := subs, seq_begin_ele := first, is_strided := true, end_stride := i,
      prev_prev_prev_ele := st.prev_prev_ele, prev_prev_ele := st.prev_ele, stride :=
        d, prev_ele := i } :=
  ⟨hfirst, by rw [heq]; exact Nat.le_add_right _ _, hi, Nat.lt_succ_self i, fun x hlt hx =>
  between_succ hlt hx, hemitted,
    ⟨rfl, d, n, rfl, heq, hprogression⟩⟩

theorem holds_strides (hmax : st.prev_ele < 2 ^ 31) (h : Strides f st) :
    Holds st.strided (toInts (positions f st.seq_begin_ele (st.prev_ele + 1))) := by
  obtain ⟨hend, d, n, hstride, hprev, hprogression⟩ := h
  have hholds := strided_holds hprogression.pos (show st.seq_begin_ele + n * d < 2 ^ 31 by omega)
  rw [hprev, hprogression.positions]
  unfold CompactState.strided
  rw [hstride, hend, hprev]
  exact hholds

include hreads hmax

/-- One more selected element. -/
theorem compactStep_scanned (h : Scanned f i st) (hle : i ≤ max) (hi : f i = true) :
    ∃ st', compactStep bit_vector st i = .ok st' ∧ Scanned f (i + 1) st' := by
  have hfollows := h.follows hi
  have hlt := h.lt
  have hshape := h.shape
  unfold compactStep
  by_cases htmp : (i : Int) - st.prev_ele = st.stride
  · rw [if_pos htmp]
    cases hstrided : st.is_strided with
    | true =>
      rw [hstrided] at hshape
      obtain ⟨-, d, n, hstride, hprev, hprogression⟩ := hshape
      have heq : i = st.seq_begin_ele + (n + 1) * d := by
        rw [Nat.succ_mul]
        omega
      refine ⟨_, rfl, ?_⟩
      rw [htmp, hstride]
      refine Scanned.stride hi h.first h.emitted (hprogression.succ ?_) heq
      rw [← hprev, ← heq]
      exact hfollows
    | false =>
      rw [hstrided] at hshape
      obtain ⟨-, ⟨-, hnone⟩ | ⟨hpp, hfollows', hstride, hppp⟩⟩ := hshape
      · omega
      · obtain ⟨d, hd⟩ : ∃ d : Nat, st.stride = d :=
          ⟨st.prev_ele - st.prev_prev_ele, by have := hfollows'.lt; omega⟩
        have hprogression := progression_two hfollows' hfollows (d := d) (by omega) (by omega)
        have heq : i = st.prev_prev_ele + 2 * d := by omega
        by_cases hbegin : st.seq_begin_ele = st.prev_prev_ele
        · rw [if_neg fun hne => hne.2 hbegin]
          refine ⟨_, rfl, ?_⟩
          rw [htmp, hd]
          rw [← hbegin] at hprogression heq
          exact Scanned.stride hi h.first h.emitted hprogression heq
        · obtain ⟨hppp, hfollows''⟩ := hppp (by omega)
          have hlt'' := hfollows''.lt
          obtain ⟨random, hnew, hholds⟩ := random_holds hreads hmax hppp (by omega) h.first
          rw [if_pos ⟨rfl, hbegin⟩, hnew]
          refine ⟨_, rfl, ?_⟩
          rw [htmp, hd]
          refine Scanned.stride hi hfollows'.first (emit h.emitted hpp ?_) hprogression heq
          rw [hfollows''.positions hppp]
          exact hholds
  · rw [if_neg htmp]
    cases hstrided : st.is_strided with
    | true =>
      rw [hstrided] at hshape
      refine ⟨_, rfl, hi, le_refl _, hi, Nat.lt_succ_self i, fun x hlt hx => between_succ hlt hx,
        ?_, rfl, .inl ⟨rfl, rfl⟩⟩
      have hholds := holds_strides (by omega) hshape
      rw [← hfollows.positions h.le] at hholds
      exact emit h.emitted (h.le.trans hlt.le) hholds
    | false =>
      rw [hstrided] at hshape
      obtain ⟨-, hknown⟩ := hshape
      refine ⟨_, rfl, h.first, h.le.trans hlt.le, hi, Nat.lt_succ_self i, fun x hlt hx =>
        between_succ hlt hx, h.emitted, rfl, .inr ⟨h.le, hfollows, rfl, fun hbegin => ?_⟩⟩
      obtain ⟨heq, -⟩ | ⟨hpp, hfollows', -⟩ := hknown
      · exact absurd heq (ne_of_lt hbegin)
      · exact ⟨hpp, hfollows'⟩

/-- **The scan keeps what the loop knows.** -/
theorem compactLoop_scanned (h : Scanned f i st) (hle : i ≤ max + 1) :
    ∃ st', compactLoop bit_vector max i st = .ok st' ∧ Scanned f (max + 1) st' := by
  induction hk : max + 1 - i generalizing i st with
  | zero =>
    obtain rfl : i = max + 1 := by omega
    refine ⟨st, ?_, h⟩
    rw [compactLoop, if_neg (by omega)]
  | succ k ih =>
    rw [compactLoop, if_pos (by omega), hreads.isSet (by omega)]
    cases hi : f i with
    | true =>
      obtain ⟨st', hstep, hscanned⟩ := compactStep_scanned hreads hmax h (by omega) hi
      obtain ⟨st'', hloop, hscanned'⟩ := ih hscanned (by omega) (by omega)
      refine ⟨st'', ?_, hscanned'⟩
      rw [hstep]
      exact hloop
    | false =>
      refine ih ⟨h.first, h.le, h.prev, h.lt.trans (Nat.lt_succ_self i), fun x hlt hx => ?_,
        h.emitted, h.shape⟩
        (by omega) (by omega)
      obtain rfl | hne := eq_or_lt_of_le (Nat.le_of_lt_succ hx)
      exacts [hi, h.between x hlt hne]

end Loop

/-! ### Compaction -/

theorem scanned_begin {min : Nat} (hmin : f min = true) (hbelow : ∀ x < min, f x = false) :
    Scanned f (min + 1) ⟨min, min, min, min, min, min, -1, false, []⟩ := by
  refine ⟨hmin, le_refl _, hmin, Nat.lt_succ_self _, fun x hlt hx => between_succ hlt hx,
    ⟨[], .nil, ?_⟩, rfl, .inl ⟨rfl, rfl⟩⟩
  rw [positions_of_none fun x _ hx => hbelow x hx]
  rfl

/-- **A compacted sequence yields the elements.** -/
theorem doneInserting_holds {s : CkSequence} (hreads : Reads s.bit_vector s.max f)
    (hmax : s.max + 1 < 2 ^ 31)
    (hsubs : s.subsequence_list = []) (hle : s.min ≤ s.max) (hmin : f s.min = true)
    (hbelow : ∀ x < s.min, f x = false)
    (hlast : f s.max = true) :
    ∃ subs ls, s.doneInserting =
      .ok ⟨s.min, s.max, s.num_elements, true, [], subs⟩ ∧ List.Forall₂ Holds subs ls ∧
      ls.flatten = toInts (positions f 0 (s.max + 1)) := by
  obtain ⟨st, hloop, hscanned⟩ :=
    compactLoop_scanned hreads hmax (scanned_begin hmin hbelow) (by omega)
  have hprev : st.prev_ele = s.max := by
    refine (eq_or_lt_of_le (Nat.le_of_lt_succ hscanned.lt)).resolve_right fun hlt => ?_
    rw [hscanned.between s.max hlt (Nat.lt_succ_self _)] at hlast
    cases hlast
  have hshape := hscanned.shape
  have hbegin := hscanned.le
  rw [hprev] at hbegin
  have hdone : s.doneInserting = (do
      let last ←
        if st.is_strided then pure st.strided
        else
          SequenceInternal.random <$>
            RandomSequence.new s.bit_vector st.seq_begin_ele st.start_random
      return ⟨s.min, s.max, s.num_elements, true, [], st.subsequence_list ++ [last]⟩) := by
    unfold doneInserting
    dsimp only
    rw [hsubs, hloop]
    rfl
  cases hstrided : st.is_strided with
  | true =>
    rw [hstrided] at hshape hdone
    obtain ⟨ls, hls, hflat⟩ := emit hscanned.emitted (hbegin.trans (Nat.le_succ _))
      (hprev ▸ holds_strides (by omega) hshape)
    exact ⟨_, ls, hdone, hls, hflat⟩
  | false =>
    rw [hstrided] at hshape hdone
    obtain ⟨random, hnew, hholds⟩ := random_holds hreads hmax hbegin (le_refl _) hscanned.first
    obtain ⟨ls, hls, hflat⟩ := emit hscanned.emitted (hbegin.trans (Nat.le_succ _)) hholds
    have hstart : st.start_random = s.max := hshape.start_random.trans hprev
    rw [hstart, hnew] at hdone
    exact ⟨_, ls, hdone, hls, hflat⟩

end CharmRuntime.Util.CkSequence
