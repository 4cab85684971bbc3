import Mathlib.Algebra.Order.Group.Multiset

/-!
# Lib.Spans

Ranges that fit together: `Spans a b m` says that the ranges of `m`, in some order, lead
from `a` to `b` without a gap and without an overlap. A range may be appended at the end
(`snoc`), and the range that starts at `a` may be taken off (`of_head`); where no range
starts at `a` there is none (`eq_zero`).
-/

namespace CharmRuntime.Lib

open Multiset

/-- The ranges `m` lead from `a` to `b`. -/
inductive Spans : Nat → Nat → Multiset (Nat × Nat) → Prop
  | nil (a : Nat) : Spans a a 0
  | cons {a b c : Nat} {m : Multiset (Nat × Nat)} : a < b → Spans b c m → Spans a c ((a, b) ::ₘ m)

namespace Spans

variable {a b c : Nat} {m : Multiset (Nat × Nat)}

theorem le (h : Spans a b m) : a ≤ b := by
  induction h with
  | nil a => exact le_rfl
  | cons hlt _ ih => exact hlt.le.trans ih

/-- One more range at the end. -/
theorem snoc (h : Spans a b m) (hlt : b < c) : Spans a c ((b, c) ::ₘ m) := by
  induction h with
  | nil a => exact .cons hlt (.nil c)
  | cons hab _ ih =>
    rw [cons_swap]
    exact .cons hab (ih hlt)

theorem mem (h : Spans a b m) {r : Nat × Nat} (hr : r ∈ m) : a ≤ r.1 ∧ r.1 < r.2 := by
  induction h with
  | nil a => exact absurd hr (notMem_zero r)
  | cons hlt _ ih =>
    obtain rfl | hr := mem_cons.mp hr
    · exact ⟨le_rfl, hlt⟩
    · exact ⟨hlt.le.trans (ih hr).1, (ih hr).2⟩

/-- No two ranges start at the same place. -/
theorem nodup (h : Spans a b m) : (m.map Prod.fst).Nodup := by
  induction h with
  | nil a => simp
  | cons hlt hrest ih =>
    rw [map_cons, nodup_cons]
    refine ⟨fun hmem => ?_, ih⟩
    obtain ⟨r, hr, hra⟩ := mem_map.mp hmem
    have hle := (hrest.mem hr).1
    rw [hra] at hle
    exact not_le.mpr hlt hle

/-- Taking off the first range. -/
theorem of_head (h : Spans a b ((a, c) ::ₘ m)) : Spans c b m := by
  generalize hm : (a, c) ::ₘ m = m' at h
  cases h with
  | nil _ => exact absurd hm (by simp)
  | @cons _ x _ rest hlt hrest =>
    obtain ⟨hx, rfl⟩ | ⟨-, cs, -, hcs⟩ := cons_eq_cons.mp hm
    · obtain rfl : c = x := congrArg Prod.snd hx
      exact hrest
    · -- another range that starts at `a` would start before `x`
      have hmem : (a, c) ∈ rest := by
        rw [hcs]
        exact mem_cons_self _ _
      exact absurd (hrest.mem hmem).1 (not_le.mpr hlt)

/-- Where no range starts at `a`, there is no range. -/
theorem eq_zero (h : Spans a b m) (hm : ∀ r ∈ m, a < r.1) : a = b ∧ m = 0 := by
  cases h with
  | nil _ => exact ⟨rfl, rfl⟩
  | cons hlt hrest => exact absurd (hm _ (mem_cons_self _ _)) (lt_irrefl _)

end Spans

end CharmRuntime.Lib
