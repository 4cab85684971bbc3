import CharmRuntime.Converse.Reduce
import Mathlib.Data.List.Count
import Mathlib.Data.List.GetD
import Mathlib.Data.List.Nodup

/-!
# Converse.ListTree

The two trees that the list reductions build over a list of processors. Both are
meant to be the tree of width four on the positions of the list, and both compute
the number of children in the same way; `CmiListReduce` looks the parent's position
up in the list, `CmiListReduceStruct` takes the position itself for the processor.

`sameTree_iff` says for which lists the two agree and the child counts are right:
exactly when every processor that has a child sits at its own number, and the list
is short enough for the `short int` that the count goes through.
-/

namespace CharmRuntime.Converse

open List

/-- The parent that `CmiListReduce` computes on `me`. -/
def parentOn (pes : List Nat) (me : Nat) : Int := listParent pes (listPos pes me)

/-- The parent that `CmiListReduceStruct` computes on `me`. -/
def structParentOn (pes : List Nat) (me : Nat) : Int := listStructParent (listPos pes me)

/-- The number of children that both compute on `me`. -/
def numChildrenOn (pes : List Nat) (me : Nat) : Int :=
  listNumChildren pes.length (listPos pes me)

/-- Data of `me` climbs to `dst` along `parent`. -/
inductive FlowsTo (parent : Nat → Int) (dst : Nat) : Nat → Prop
  | here : FlowsTo parent dst dst
  | up {me q : Nat} : parent me = q → FlowsTo parent dst q → FlowsTo parent dst me

/-- `parent` and `numChildren` describe one tree over the list, rooted at its first
processor. -/
structure ListTree (pes : List Nat) (parent : Nat → Int) : Prop where
  root : ∀ me ∈ pes, (parent me = -1 ↔ pes.head? = some me)
  up : ∀ me ∈ pes, pes.head? ≠ some me →
    ∃ q ∈ pes, parent me = q ∧ listPos pes q < listPos pes me
  kids : ∀ me ∈ pes, (pes.countP (parent · = me) : Int) = numChildrenOn pes me
  flows : ∀ me ∈ pes, ∀ r, pes.head? = some r → FlowsTo parent r me

/-- The two list reductions use the same, consistent tree. -/
structure SameTree (pes : List Nat) : Prop where
  agree : ∀ me ∈ pes, structParentOn pes me = parentOn pes me
  list : ListTree pes (parentOn pes)
  struct : ListTree pes (structParentOn pes)

/-! ### Positions -/

section Positions

variable {pes : List Nat}

theorem listPos_lt {me : Nat} (h : me ∈ pes) : listPos pes me < pes.length :=
  idxOf_lt_length_iff.mpr h

theorem listPos_getD (hnd : pes.Nodup) {i : Nat} (h : i < pes.length) :
    listPos pes (pes.getD i 0) = i := by
  rw [getD_eq_getElem _ _ h]
  exact Nodup.idxOf_getElem hnd i h

theorem getD_listPos {me : Nat} (h : me ∈ pes) : pes.getD (listPos pes me) 0 = me := by
  rw [getD_eq_getElem _ _ (listPos_lt h)]
  exact getElem_idxOf (listPos_lt h)

theorem getD_mem {i : Nat} (h : i < pes.length) : pes.getD i 0 ∈ pes := by
  rw [getD_eq_getElem _ _ h]
  exact getElem_mem h

theorem head?_eq_iff {me : Nat} (hnd : pes.Nodup) (h : me ∈ pes) :
    pes.head? = some me ↔ listPos pes me = 0 := by
  cases pes with
  | nil => simp at h
  | cons p rest =>
    simp only [head?_cons, Option.some.injEq, listPos]
    constructor
    · intro hp
      rw [hp]
      exact idxOf_cons_self
    · intro hpos
      by_contra hne
      rw [idxOf_cons_ne _ hne] at hpos
      exact absurd hpos (Nat.succ_ne_zero _)

theorem map_getD_range (l : List Nat) : (List.range l.length).map (l.getD · 0) = l := by
  apply ext_getElem (by simp)
  intro i _ h2
  simp [h2]

end Positions

/-! ### Counting children -/

/-- The positions below `n` whose parent position is `j`. -/
theorem countP_parentPos (n j : Nat) :
    (List.range n).countP (fun i => decide (i ≠ 0 ∧ (i - 1) / 4 = j)) =
    min 4 (n - (4 * j + 1)) := by
  induction n with
  | zero => simp
  | succ n ih =>
    rw [range_succ, countP_append, ih, countP_singleton]
    by_cases h : n ≠ 0 ∧ (n - 1) / 4 = j
    · rw [decide_eq_true h, if_pos rfl]
      omega
    · rw [decide_eq_false h, if_neg Bool.false_ne_true]
      omega

theorem countP_members (pes : List Nat) (P : Nat → Bool) :
    pes.countP P = (List.range pes.length).countP (fun i => P (pes.getD i 0)) := by
  conv_lhs => rw [← map_getD_range pes]
  rw [countP_map]
  rfl

/-- The members that `CmiListReduce` puts below `me`. -/
theorem countP_parentOn {pes : List Nat} (hnd : pes.Nodup) {me : Nat} (h : me ∈ pes) :
    pes.countP (parentOn pes · = me) = min 4 (pes.length - (4 * listPos pes me + 1)) := by
  rw [countP_members, ← countP_parentPos]
  apply countP_congr
  intro i hi
  have hi' : i < pes.length := mem_range.mp hi
  simp only [parentOn, listPos_getD hnd hi', decide_eq_true_eq]
  by_cases h0 : i = 0
  · simp [h0, listParent]
  · have hlt : (i - 1) / 4 < pes.length := by omega
    simp only [listParent, h0, if_false, ne_eq, not_false_iff, true_and, Int.natCast_inj]
    constructor
    · intro heq
      rw [← heq, listPos_getD hnd hlt]
    · intro heq
      rw [heq, getD_listPos h]

/-! ### The child count in sixteen bits -/

/-- The lists on which the child count never leaves the range of a `short int`. -/
def maxListLength : Nat := 10923

theorem toShort_eq {n : Int} (hlo : -32768 ≤ n) (hhi : n < 32768) : toShort n = n := by
  unfold toShort
  rw [Int.bmod_def]
  omega

theorem listNumChildren_eq {n j : Nat} (hn : n ≤ maxListLength) (hj : j < n) :
    listNumChildren n j = (min 4 (n - (4 * j + 1)) : Nat) := by
  unfold maxListLength at hn
  unfold listNumChildren
  rw [toShort_eq (by omega) (by omega)]
  dsimp only
  omega

theorem exists_wrong_count {n : Nat} (hn : maxListLength < n) :
    ∃ j, j < n ∧ listNumChildren n j ≠ (min 4 (n - (4 * j + 1)) : Nat) := by
  unfold maxListLength at hn
  -- the first position whose number falls below the range: it comes out positive
  refine ⟨(n + 32768 + 3) / 4, by omega, ?_⟩
  unfold listNumChildren toShort
  rw [Int.bmod_def]
  dsimp only
  omega

/-! ### When the two agree -/

/-- The processors with children sit at their own numbers, and the list is short. -/
def ParentsInPlace (pes : List Nat) : Prop :=
  pes.length ≤ maxListLength ∧ ∀ i, 4 * i + 1 < pes.length → pes.getD i 0 = i

instance (pes : List Nat) : Decidable (ParentsInPlace pes) :=
  decidable_of_iff (pes.length ≤ maxListLength ∧
      ∀ i < pes.length, 4 * i + 1 < pes.length → pes.getD i 0 = i) (by
    constructor
    · intro h
      exact ⟨h.1, fun i hi => h.2 i (by omega) hi⟩
    · intro h
      exact ⟨h.1, fun i _ hi => h.2 i hi⟩)

theorem flowsTo_of_up {pes : List Nat} {parent : Nat → Int} (hup : ∀ me ∈ pes, pes.head? ≠ some me →
      ∃ q ∈ pes, parent me = q ∧ listPos pes q < listPos pes me)
    {r : Nat} (hr : pes.head? = some r) {me : Nat} (hme : me ∈ pes) : FlowsTo parent r me := by
  induction hn : listPos pes me using Nat.strongRecOn generalizing me with
  | ind n ih =>
    by_cases hroot : pes.head? = some me
    · rw [hroot, Option.some.injEq] at hr
      exact hr ▸ .here
    · obtain ⟨q, hq, hpar, hlt⟩ := hup me hme hroot
      exact .up hpar (ih _ (hn ▸ hlt) hq rfl)

/-- The tree of `CmiListReduce` on a short list. -/
theorem parentOn_listTree {pes : List Nat} (hnd : pes.Nodup) (hlen : pes.length ≤ maxListLength) :
    ListTree pes (parentOn pes) := by
  have hup : ∀ me ∈ pes, pes.head? ≠ some me →
      ∃ q ∈ pes, parentOn pes me = q ∧ listPos pes q < listPos pes me := by
    intro me hme hne
    rw [ne_eq, head?_eq_iff hnd hme] at hne
    have hlt := listPos_lt hme
    have hq : (listPos pes me - 1) / 4 < pes.length := by omega
    refine ⟨_, getD_mem hq, ?_, ?_⟩
    · simp only [parentOn, listParent, hne, if_false]
    · rw [listPos_getD hnd hq]
      omega
  refine ⟨?_, hup, ?_, ?_⟩
  · intro me hme
    rw [head?_eq_iff hnd hme]
    unfold parentOn listParent
    split
    · simp [*]
    · constructor
      · intro h
        omega
      · intro h
        contradiction
  · intro me hme
    rw [countP_parentOn hnd hme, numChildrenOn, listNumChildren_eq hlen (listPos_lt hme)]
  · intro me hme r hr
    exact flowsTo_of_up hup hr hme

theorem structParentOn_eq_iff {pes : List Nat} (hnd : pes.Nodup) :
    (∀ me ∈ pes, structParentOn pes me = parentOn pes me) ↔
      ∀ i, 4 * i + 1 < pes.length → pes.getD i 0 = i := by
  constructor
  · intro h i hi
    have := h _ (getD_mem hi)
    simp only [structParentOn, parentOn, listPos_getD hnd hi, listStructParent, listParent,
      if_false] at this
    rw [show (4 * i + 1 - 1) / 4 = i by omega] at this
    omega
  · intro h me hme
    have hlt := listPos_lt hme
    unfold structParentOn parentOn listStructParent listParent
    split
    · rfl
    · rw [h ((listPos pes me - 1) / 4) (by omega)]
      dsimp only
      omega

/-- **When the two list reductions use one tree.** Exactly on the lists of at most
`maxListLength` processors in which every processor with a child sits at its own
number. -/
theorem sameTree_iff (pes : List Nat) (hnd : pes.Nodup) :
    SameTree pes ↔ ParentsInPlace pes := by
  constructor
  · intro h
    refine ⟨?_, (structParentOn_eq_iff hnd).mp h.agree⟩
    by_contra hlen
    obtain ⟨j, hj, hne⟩ := exists_wrong_count (Nat.lt_of_not_le hlen)
    have hk := h.list.kids _ (getD_mem hj)
    rw [countP_parentOn hnd (getD_mem hj), numChildrenOn, listPos_getD hnd hj] at hk
    exact hne hk.symm
  · intro h
    have hagree := (structParentOn_eq_iff hnd).mpr h.2
    have hlist := parentOn_listTree hnd h.1
    have hup : ∀ me ∈ pes, pes.head? ≠ some me →
        ∃ q ∈ pes, structParentOn pes me = q ∧ listPos pes q < listPos pes me := by
      intro me hme hne
      rw [hagree me hme]
      exact hlist.up me hme hne
    refine ⟨hagree, hlist, ⟨?_, hup, ?_, ?_⟩⟩
    · intro me hme
      rw [hagree me hme]
      exact hlist.root me hme
    · intro me hme
      rw [← hlist.kids me hme]
      congr 1
      apply countP_congr
      intro q hq
      rw [hagree q hq]
    · intro me hme r hr
      exact flowsTo_of_up hup hr hme

/-- On a list in its natural order the two agree. -/
theorem sameTree_iff_natural :
    [0, 1, 2].Nodup ∧ SameTree [0, 1, 2] :=
  ⟨by decide, (sameTree_iff [0, 1, 2] (by decide)).mpr (by decide)⟩

/-- On the list `1, 0` processor `0` sends its structure to itself: it is at position
`1`, whose parent is position `0`. -/
theorem swapped_list_differs :
    structParentOn [1, 0] 0 = 0 ∧ parentOn [1, 0] 0 = 1 ∧ ¬ SameTree [1, 0] := by
  refine ⟨by decide, by decide, ?_⟩
  intro h
  exact absurd (h.agree 0 (by decide)) (by decide)

end CharmRuntime.Converse
