import Mathlib.Algebra.Order.Group.Nat
import Mathlib.Data.List.Basic
import Mathlib.Data.List.Pairwise

/-!
# Lib.Runs

**Maximal runs** of the positions between two bounds at which a predicate holds. `Finds` is a search
for them from the left, one after the other; what it finds is all of them, in order
(`Finds.mem_iff`, `Finds.sorted`). `positions` is the list of the positions themselves.
-/

namespace CharmRuntime.Lib

open List

/-- A maximal run, with its end behind it. -/
structure IsRun (f : Nat → Bool) (lo hi p e : Nat) : Prop where
  lo_le : lo ≤ p
  lt : p < e
  le_hi : e ≤ hi
  holds : ∀ i, p ≤ i → i < e → f i = true
  left : p = lo ∨ f (p - 1) = false
  right : e = hi ∨ f e = false

/-- The runs from `lo` on are found in order. -/
inductive Finds (f : Nat → Bool) (hi : Nat) : Nat → List (Nat × Nat) → Prop
  | done {lo : Nat} : (∀ i, lo ≤ i → i < hi → f i = false) → Finds f hi lo []
  | found {lo p e : Nat} {l : List (Nat × Nat)} :
      lo ≤ p → (∀ i, lo ≤ i → i < p → f i = false) → p < e → e ≤ hi →
      (∀ i, p ≤ i → i < e → f i = true) → e = hi ∨ f e = false → Finds f hi e l →
      Finds f hi lo ((p, e) :: l)

/-- `p` is the first position from `lo` on at which `f` holds. -/
structure First (f : Nat → Bool) (lo p : Nat) : Prop where
  le : lo ≤ p
  holds : f p = true
  before : ∀ j, lo ≤ j → j < p → f j = false

variable {f : Nat → Bool} {lo hi p e p' e' : Nat} {l : List (Nat × Nat)}

/-- Behind a run the next one begins behind a gap. -/
theorem Finds.gap (h : Finds f hi lo l) {x : Nat × Nat} (hx : x ∈ l)
    (hlo : lo = hi ∨ f lo = false) : lo < x.1 := by
  induction h with
  | done _ => exact absurd hx not_mem_nil
  | @found lo p e l hle _ hlt hhi hholds _ _ ih =>
    have hp : lo < p := by
      refine lt_of_le_of_ne hle fun heq => ?_
      obtain rfl | hgap := hlo
      · omega
      · rw [heq, hholds p (le_refl p) hlt] at hgap
        cases hgap
    obtain rfl | hx := mem_cons.mp hx
    · exact hp
    · have hnext := ih hx ‹_›
      omega

theorem Finds.sorted (h : Finds f hi lo l) : l.Pairwise fun x y => x.2 < y.1 := by
  induction h with
  | done _ => exact Pairwise.nil
  | found _ _ _ _ _ hright hrest ih => exact pairwise_cons.mpr ⟨fun x hx => hrest.gap hx hright, ih⟩

/-- A run that begins with a bound of the search is one of the wider search if the bound follows a
gap. -/
theorem IsRun.of_gap {lo' : Nat} (h : IsRun f lo hi p e) (hlo : lo' ≤ lo) (hgap : lo < p) :
    IsRun f lo' hi p e :=
  ⟨hlo.trans h.lo_le, h.lt, h.le_hi, h.holds, .inr (h.left.resolve_left hgap.ne'), h.right⟩

/-- **What is found is all runs.** -/
theorem Finds.mem_iff (h : Finds f hi lo l) (p' e' : Nat) : (p', e') ∈ l ↔ IsRun f lo hi p' e' := by
  induction h with
  | done hnone =>
    refine iff_of_false not_mem_nil fun hrun => ?_
    have hfalse := hnone p' hrun.lo_le (hrun.lt.trans_le hrun.le_hi)
    rw [hrun.holds p' (le_refl p') hrun.lt] at hfalse
    cases hfalse
  | @found lo p e l hle hbefore hlt hhi hholds hright hrest ih =>
    have hfirst : IsRun f lo hi p e := by
      refine ⟨hle, hlt, hhi, hholds, ?_, hright⟩
      obtain heq | hlo := eq_or_lt_of_le hle
      exacts [.inl heq.symm, .inr (hbefore (p - 1) (by omega) (by omega))]
    rw [mem_cons, ih]
    constructor
    · rintro (heq | hrun)
      · cases heq
        exact hfirst
      · exact hrun.of_gap (hle.trans hlt.le) (hrest.gap ((ih).mpr hrun) hright)
    · intro hrun
      -- It begins where the first one does, or behind its end.
      obtain hcase | hcase | hcase := lt_trichotomy p' p
      · have hfalse := hbefore p' hrun.lo_le hcase
        rw [hrun.holds p' (le_refl p') hrun.lt] at hfalse
        cases hfalse
      · left
        subst hcase
        have he : e' = e := by
          obtain hlt' | heq | hgt := lt_trichotomy e' e
          · obtain hend | hgap := hrun.right
            · omega
            · rw [hholds e' hrun.lt.le hlt'] at hgap
              cases hgap
          · exact heq
          · obtain hend | hgap := hright
            · have hle' := hrun.le_hi
              omega
            · rw [hrun.holds e hlt.le hgt] at hgap
              cases hgap
        rw [he]
      · right
        have hbehind : e ≤ p' := by
          by_contra hinside
          obtain heq | hgap := hrun.left
          · omega
          · rw [hholds (p' - 1) (by omega) (by omega)] at hgap
            cases hgap
        refine ⟨hbehind, hrun.lt, hrun.le_hi, hrun.holds, ?_, hrun.right⟩
        obtain heq | hgap := hrun.left
        · omega
        · exact .inr hgap

/-! ### The positions -/

/-- The positions between two bounds at which a predicate holds, in order. -/
def positions (f : Nat → Bool) (lo hi : Nat) : List Nat := (List.range' lo (hi - lo)).filter f

variable {mid x : Nat}

theorem mem_positions : x ∈ positions f lo hi ↔ lo ≤ x ∧ x < hi ∧ f x = true := by
  unfold positions
  rw [mem_filter, mem_range'_1, and_assoc]
  refine and_congr_right fun hle => and_congr_left fun _ => ?_
  omega

theorem positions_sorted (f : Nat → Bool) (lo hi : Nat) : (positions f lo hi).Pairwise (· < ·) :=
  Pairwise.filter f (pairwise_lt_range' 1)

theorem positions_append (hlo : lo ≤ mid) (hhi : mid ≤ hi) :
    positions f lo mid ++ positions f mid hi = positions f lo hi := by
  unfold positions
  rw [← filter_append, show mid = lo + (mid - lo) by omega, Nat.add_sub_cancel_left,
    range'_append_1]
  congr 2
  omega

theorem positions_of_none (h : ∀ x, lo ≤ x → x < hi → f x = false) : positions f lo hi = [] := by
  refine eq_nil_iff_forall_not_mem.mpr fun x hx => ?_
  obtain ⟨hle, hlt, hf⟩ := mem_positions.mp hx
  rw [h x hle hlt] at hf
  cases hf

theorem positions_cons (hf : f lo = true) (h : lo < hi) :
    positions f lo hi = lo :: positions f (lo + 1) hi := by
  unfold positions
  rw [show hi - lo = (hi - (lo + 1)) + 1 by omega, range'_succ, filter_cons_of_pos hf]

/-- Positions are told by what is in them. -/
theorem positions_eq {l : List Nat} (hl : l.Pairwise (· < ·))
    (hmem : ∀ x, x ∈ l ↔ lo ≤ x ∧ x < hi ∧ f x = true) :
    positions f lo hi = l := by
  have hperm : (positions f lo hi).Perm l :=
    (perm_ext_iff_of_nodup ((positions_sorted f lo hi).imp ne_of_lt) (hl.imp ne_of_lt)).mpr fun x =>
      mem_positions.trans (hmem x).symm
  exact hperm.eq_of_pairwise (fun a b _ _ hab hba => absurd (lt_trans hab hba) (lt_irrefl a))
    (positions_sorted f lo hi) hl

end CharmRuntime.Lib
