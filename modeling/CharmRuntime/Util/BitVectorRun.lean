import CharmRuntime.Lib.Transition
import CharmRuntime.Util.BitVectorSound

/-!
# Util.BitVectorRun

Programs over `CkBitVector`s: a store of vectors and the public operations on them, in
any order. `MeetsSpec` says what one operation is for, on the bit strings that the
vectors stand for; `StepOk` is the condition under which the code does it.

The invariant of the whole store is that every vector is well formed, in particular
that its padding is zero. A run keeps it as long as every step meets `StepOk`, and the
first step that does not breaks its specification.
-/

namespace CharmRuntime.Util

open Lib

/-- The vectors of a program, by name. -/
abbrev BitStore := Nat → CkBitVector

/-- The constructors and the public operations; the first name is the one that
changes. -/
inductive BitOp
  | create (x : Nat)
  | sized (x bits : Nat)
  | choice (x value choices : Nat)
  /-- The copy constructor, and unpacking what another vector packed. -/
  | copy (x y : Nat)
  | assign (x y : Nat)
  | zero (x : Nat)
  | invert (x : Nat)
  | clear (x bit : Nat)
  | set (x bit : Nat)
  | shiftUp (x bits : Nat)
  | shiftDown (x bits : Nat)
  | resize (x bits : Nat)
  | union (x y : Nat)
  | intersection (x y : Nat)
  | difference (x y : Nat)
  | concat (x y : Nat)
  deriving Repr, DecidableEq

namespace BitOp

open CkBitVector

/-- The vector that changes. -/
def target : BitOp → Nat
  | create x | sized x _ | choice x _ _ | copy x _ | assign x _ | zero x | invert x
  | clear x _ | set x _ | shiftUp x _ | shiftDown x _ | resize x _
  | union x _ | intersection x _ | difference x _ | concat x _ => x

/-- Its new value. -/
def result (s : BitStore) : BitOp → Except BitAbort CkBitVector
  | create _ => .ok CkBitVector.empty
  | sized _ bits => .ok (CkBitVector.ofSize bits)
  | choice _ value choices => CkBitVector.ofChoice value choices
  | copy _ y => .ok (s y)
  -- `operator=` wipes the left side first
  | assign x y => .ok (if x = y then CkBitVector.empty else s y)
  | zero x => .ok (s x).zero
  | invert x => .ok (s x).invert
  | clear x bit => (s x).clear bit
  | set x bit => (s x).set bit
  | shiftUp x bits => (s x).shiftUp bits
  | shiftDown x bits => (s x).shiftDown bits
  | resize x bits => (s x).resize bits
  | union x y => (s x).union (s y)
  | intersection x y => (s x).intersection (s y)
  | difference x y => (s x).difference (s y)
  | concat x y => (s x).concat (s y)

/-- The calls that end in `CkAbort` by design. -/
def Aborts (s : BitStore) : BitOp → Prop
  | choice _ value choices => choices ≤ value
  | union x y | intersection x y | difference x y => (s x).length ≠ (s y).length
  | _ => False

/-- The bits that the operation is to produce. -/
def Bits (s : BitStore) (t : BitString) : BitOp → Prop
  | create _ => t = BitString.zeros 0
  | sized _ bits => t = BitString.zeros bits
  | choice _ value choices => t = BitString.ofNat (Nat.clog 2 choices) value
  | copy _ y => t = (s y).view
  -- nothing is said about `x = x`
  | assign x y => x ≠ y → t = (s y).view
  | zero x => t = BitString.zeros (s x).length
  | invert x => t = (s x).view.invert
  | clear x bit => t = (s x).view.write bit false
  | set x bit => t = (s x).view.write bit true
  | shiftUp x bits => t = (s x).view.shiftUp bits
  | shiftDown x bits => t = (s x).view.shiftDown bits
  | resize x bits => t = (s x).view.resize bits
  | union x y => t = (s x).view.combine (· || ·) (s y).view
  | intersection x y => t = (s x).view.combine (· && ·) (s y).view
  | difference x y => t = (s x).view.combine (fun a b => a && !b) (s y).view
  | concat x y => t = (s x).view.concat (s y).view

/-- The operation aborts by design, or its result has the right bits and zero
padding. -/
def MeetsSpec (s : BitStore) (op : BitOp) : Prop :=
  match op.result s with
  | .ok v => ¬ op.Aborts s ∧ op.Bits s v.view ∧ v.Wf
  | .error .undefinedShift => False
  | .error _ => op.Aborts s

/-- Sizes and shift amounts are below `2 ^ 31`, the other arguments fit a `prio_t`. -/
def InRange (s : BitStore) : BitOp → Prop
  | sized _ bits | resize _ bits | shiftUp _ bits | shiftDown _ bits => bits < sizeLimit
  | clear _ bit | set _ bit => bit + 1 < sizeLimit
  | choice _ value choices => value < 2 ^ 32 ∧ choices < 2 ^ 32
  | concat x y => (s x).length + (s y).length < sizeLimit
  | _ => True

/-- The condition under which the code does what the operation is for. -/
def StepOk (s : BitStore) : BitOp → Prop
  | choice _ value choices => value < choices → choices ≤ 2 ^ 31
  | clear x bit | set x bit => (s x).length ≤ bit → ¬ ResizeUndefined (s x).length (bit + 1)
  | shiftUp x bits => ¬ ShiftUndefined (s x).length bits
  | shiftDown x bits =>
    ¬ ShiftUndefined (s x).length bits ∧ ¬ DropsIntoPadding (s x) bits
  | resize x bits => ¬ ResizeUndefined (s x).length bits
  | concat x y => ¬ ConcatUndefined (s x).length (s y).length
  | _ => True

instance (s : BitStore) : (op : BitOp) → Decidable (op.InRange s)
  | sized _ _ | resize _ _ | shiftUp _ _ | shiftDown _ _ | clear _ _ | set _ _ | concat _ _ =>
    inferInstanceAs (Decidable (_ < _))
  | choice _ _ _ => inferInstanceAs (Decidable (_ ∧ _))
  | create _ | copy _ _ | assign _ _ | zero _ | invert _ | union _ _ | intersection _ _
  | difference _ _ => inferInstanceAs (Decidable True)

instance (s : BitStore) : (op : BitOp) → Decidable (op.StepOk s)
  | choice _ _ _ | clear _ _ | set _ _ => inferInstanceAs (Decidable (_ → _))
  | shiftUp _ _ | resize _ _ | concat _ _ => inferInstanceAs (Decidable (¬ _))
  | shiftDown _ _ => inferInstanceAs (Decidable (_ ∧ _))
  | create _ | sized _ _ | copy _ _ | assign _ _ | zero _ | invert _ | union _ _
  | intersection _ _ | difference _ _ => inferInstanceAs (Decidable True)

end BitOp

/-- Programs that start without vectors. -/
def bitSystem : Transition BitStore BitOp where
  init s := s = fun _ => CkBitVector.empty
  step s op s' := ∃ v, op.result s = .ok v ∧ s' = Function.update s op.target v

/-! ### One step -/

section Step

open CkBitVector

variable {s : BitStore} {op : BitOp}

theorem meetsSpec_of_ok {v : CkBitVector} (h : op.result s = .ok v) :
    op.MeetsSpec s ↔ ¬ op.Aborts s ∧ op.Bits s v.view ∧ v.Wf := by
  unfold BitOp.MeetsSpec
  rw [h]

theorem not_meetsSpec_of_undefined (h : op.result s = .error .undefinedShift) :
    ¬ op.MeetsSpec s := by
  unfold BitOp.MeetsSpec
  rw [h]
  exact id

/-- An operation that is defined under `P` and undefined otherwise. -/
theorem meetsSpec_iff_of {P : Prop} (habort : ¬ op.Aborts s)
    (hok : P → ∃ v, op.result s = .ok v ∧ v.Wf ∧ op.Bits s v.view)
    (hbad : ¬ P → op.result s = .error .undefinedShift) : op.MeetsSpec s ↔ P := by
  by_cases hP : P
  · obtain ⟨v, heq, hwf, hbits⟩ := hok hP
    rw [meetsSpec_of_ok heq]
    exact ⟨fun _ => hP, fun _ => ⟨habort, hbits, hwf⟩⟩
  · exact ⟨fun h => absurd h (not_meetsSpec_of_undefined (hbad hP)), fun h => absurd h hP⟩

theorem meetsSpec_combine {x y : Nat} (f : Word → Word → Word)
    (hres : op.result s = combine f (s x) (s y))
    (habort : op.Aborts s ↔ (s x).length ≠ (s y).length)
    (hok : (s x).usedBits = (s y).usedBits →
      ∃ v, combine f (s x) (s y) = .ok v ∧ v.Wf ∧ op.Bits s v.view) : op.MeetsSpec s := by
  by_cases hlen : (s x).usedBits = (s y).usedBits
  · obtain ⟨v, heq, hwf, hbits⟩ := hok hlen
    rw [meetsSpec_of_ok (hres.trans heq)]
    exact ⟨fun h => habort.mp h hlen, hbits, hwf⟩
  · unfold BitOp.MeetsSpec
    rw [hres, combine_abort f hlen]
    exact habort.mpr hlen

/-- **One operation on well-formed vectors.** It does what it is for exactly when its
condition holds. -/
theorem meetsSpec_iff (hs : ∀ x, (s x).Wf) (hrange : op.InRange s) :
    op.MeetsSpec s ↔ op.StepOk s := by
  cases op with
  | create x =>
    exact ⟨fun _ => trivial, fun _ => ⟨id, BitString.eq_of_bits rfl
      (fun i hi => absurd hi (Nat.not_lt_zero i)), empty_wf⟩⟩
  | sized x bits =>
    exact ⟨fun _ => trivial, fun _ => ⟨id, (ofSize_wf hrange).2, (ofSize_wf hrange).1⟩⟩
  | choice x value choices =>
    by_cases hlt : value < choices
    · have hiff : BitOp.StepOk s (.choice x value choices) ↔ choices ≤ 2 ^ 31 :=
        ⟨fun h => h hlt, fun h _ => h⟩
      rw [hiff]
      exact meetsSpec_iff_of (not_le.mpr hlt) (ofChoice_spec hlt)
        (fun h => ofChoice_undefined hlt (Nat.lt_of_not_le h))
    · have hres : BitOp.result s (.choice x value choices) = .error .valueTooLarge := by
        show ofChoice value choices = _
        rw [ofChoice, if_pos (Nat.le_of_not_lt hlt)]
      unfold BitOp.MeetsSpec
      rw [hres]
      exact ⟨fun _ h => absurd h hlt, fun _ => Nat.le_of_not_lt hlt⟩
  | copy x y =>
    exact ⟨fun _ => trivial, fun _ => ⟨id, rfl, hs y⟩⟩
  | assign x y =>
    refine ⟨fun _ => trivial, fun _ => ⟨id, fun hne => ?_, ?_⟩⟩
    · rw [if_neg hne]
    · split
      · exact empty_wf
      · exact hs y
  | zero x =>
    exact ⟨fun _ => trivial, fun _ => ⟨id, (zero_spec (hs x)).2, (zero_spec (hs x)).1⟩⟩
  | invert x =>
    exact ⟨fun _ => trivial, fun _ => ⟨id, (invert_spec (hs x)).2, (invert_spec (hs x)).1⟩⟩
  | clear x bit =>
    apply meetsSpec_iff_of id (clear_spec (hs x) hrange)
    intro h
    obtain ⟨hge, hu⟩ := Classical.not_imp.mp h
    exact clear_undefined (hs x) hrange hge (not_not.mp hu)
  | set x bit =>
    apply meetsSpec_iff_of id (set_spec (hs x) hrange)
    intro h
    obtain ⟨hge, hu⟩ := Classical.not_imp.mp h
    exact set_undefined (hs x) hrange hge (not_not.mp hu)
  | shiftUp x bits =>
    exact meetsSpec_iff_of id (shiftUp_spec (hs x))
      (fun h => shiftUp_undefined (hs x) (not_not.mp h))
  | shiftDown x bits =>
    by_cases hu : ShiftUndefined (s x).usedBits bits
    · exact ⟨fun h => absurd h (not_meetsSpec_of_undefined (shiftDown_undefined (hs x) hu)),
        fun h => absurd hu h.1⟩
    · obtain ⟨v, heq, hview, hwf⟩ := shiftDown_spec (hs x) hu
      have hres : BitOp.result s (.shiftDown x bits) = .ok v := heq
      rw [meetsSpec_of_ok hres]
      exact ⟨fun h => ⟨hu, hwf.mp h.2.2⟩, fun h => ⟨id, hview, hwf.mpr h.2⟩⟩
  | resize x bits =>
    exact meetsSpec_iff_of id (resize_spec (hs x) hrange)
      (fun h => resize_undefined (hs x) hrange (not_not.mp h))
  | union x y =>
    exact ⟨fun _ => trivial, fun _ => meetsSpec_combine _ rfl Iff.rfl (union_spec (hs x) (hs y))⟩
  | intersection x y =>
    exact ⟨fun _ => trivial, fun _ => meetsSpec_combine _ rfl Iff.rfl
      (intersection_spec (hs x) (hs y))⟩
  | difference x y =>
    exact ⟨fun _ => trivial, fun _ => meetsSpec_combine _ rfl Iff.rfl
      (difference_spec (hs x) (hs y))⟩
  | concat x y =>
    exact meetsSpec_iff_of id (concat_spec (hs x) (hs y) hrange)
      (fun h => concat_undefined (hs x) (hs y) hrange (not_not.mp h))

end Step

/-! ### Whole runs -/

theorem runs_wf {s : BitStore}
    (h : bitSystem.RunsWith (fun s op => op.InRange s ∧ op.StepOk s) s) : ∀ x, (s x).Wf := by
  refine Transition.RunsWith.invariant (I := fun s => ∀ x, (s x).Wf) ?_ ?_ h
  · intro s hs x
    rw [hs]
    exact CkBitVector.empty_wf
  · intro s op _ hs hok hstep x
    obtain ⟨v, heq, rfl⟩ := hstep
    have hv := (meetsSpec_of_ok heq).mp ((meetsSpec_iff hs hok.1).mpr hok.2)
    by_cases hx : x = op.target
    · subst hx
      rw [Function.update_self]
      exact hv.2.2
    · rw [Function.update_of_ne hx]
      exact hs x

/-- **Bit vectors are bit strings, as long as no step shifts a word by its width or drops
a bit into the padding.** In every run whose steps meet the condition every vector has
zero padding, and whatever operation comes next does what it is for if and only if it
meets the condition too. -/
theorem bitVector_runs {s : BitStore}
    (h : bitSystem.RunsWith (fun s op => op.InRange s ∧ op.StepOk s) s) :
    (∀ x, (s x).Wf) ∧ ∀ op : BitOp, op.InRange s → (op.MeetsSpec s ↔ op.StepOk s) :=
  ⟨runs_wf h, fun _ hrange => meetsSpec_iff (runs_wf h) hrange⟩

/-- Setting bit 40 of a new vector and shifting it up by 20. -/
theorem bitVector_runs_forty :
    ∃ s v, bitSystem.RunsWith (fun s op => op.InRange s ∧ op.StepOk s) s ∧
      (BitOp.shiftUp 0 20).result s = .ok v ∧ (BitOp.shiftUp 0 20).MeetsSpec s := by
  have h0 : bitSystem.RunsWith (fun s op => op.InRange s ∧ op.StepOk s)
      (fun _ => CkBitVector.empty) := .init rfl
  have h1 := Transition.RunsWith.step (e := BitOp.set 0 40) h0 (by decide)
    ⟨_, rfl, rfl⟩
  exact ⟨_, _, h1, rfl, ((bitVector_runs h1).2 (.shiftUp 0 20) (by decide)).mpr (by decide)⟩

/-- `ShiftUp(32)` on 96 bits shifts the neighbouring words by 32; and the bit that
`ShiftDown(1)` drops from one bit comes back with `ShiftUp(1)`. -/
theorem shift_fails :
    (∃ s, bitSystem.RunsWith (fun s op => op.InRange s) s ∧
      BitOp.InRange s (.shiftUp 0 32) ∧ ¬ BitOp.MeetsSpec s (.shiftUp 0 32)) ∧
    ∃ s s' v, bitSystem.RunsWith (fun s op => op.InRange s) s ∧ (s 0).length = 1 ∧
      bitSystem.step s (.shiftDown 0 1) s' ∧ ¬ BitOp.MeetsSpec s (.shiftDown 0 1) ∧
      BitOp.result s' (.shiftUp 0 1) = .ok v ∧ v.test 0 = true := by
  have h0 : bitSystem.RunsWith (fun s op => op.InRange s) (fun _ => CkBitVector.empty) := .init rfl
  have h1 := Transition.RunsWith.step (e := BitOp.sized 0 96) h0 (by decide) ⟨_, rfl, rfl⟩
  have h2 := Transition.RunsWith.step (e := BitOp.set 0 0) h0 (by decide) ⟨_, rfl, rfl⟩
  refine ⟨⟨_, h1, by decide, not_meetsSpec_of_undefined rfl⟩, _, _, _, h2, rfl, ⟨_, rfl, rfl⟩, ?_,
    rfl, by decide⟩
  intro hspec
  -- the dropped bit is at place 1 of a vector of one bit
  have hwf := ((meetsSpec_of_ok rfl).mp hspec).2.2
  exact absurd (hwf.padding 1 (by decide)) (by decide)

end CharmRuntime.Util
