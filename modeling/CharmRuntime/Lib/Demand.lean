import Mathlib.Data.List.Count
import Mathlib.Data.List.Perm.Basic

/-!
# Lib.Demand

Demands and what is there to meet them. A list of keys is met by as many different elements of a
list, one with each key, if and only if no key is demanded more often than there are elements with
it (`exists_pick`, `count_le_of_pick`).
-/

namespace CharmRuntime.Lib

variable {α κ : Type} [DecidableEq α] [BEq κ] [LawfulBEq κ] {key : α → κ} {demands : List κ}
  {stock : List α}

/-- The demands are met, and what is left. -/
theorem exists_pick (h : ∀ k, demands.count k ≤ (stock.map key).count k) :
    ∃ picked rest, stock.Perm (picked ++ rest) ∧ picked.map key = demands := by
  induction demands generalizing stock with
  | nil => exact ⟨[], stock, .refl _, rfl⟩
  | cons k demands ih =>
    have hk : k ∈ stock.map key := by
      refine List.count_pos_iff.mp (Nat.lt_of_lt_of_le ?_ (h k))
      rw [List.count_cons_self]
      exact Nat.succ_pos _
    obtain ⟨a, ha, rfl⟩ := List.mem_map.mp hk
    have hperm := List.perm_cons_erase ha
    have hrest : ∀ k', demands.count k' ≤ ((stock.erase a).map key).count k' := by
      intro k'
      have hle := h k'
      rw [(hperm.map key).count_eq, List.map_cons, List.count_cons, List.count_cons] at hle
      exact Nat.le_of_add_le_add_right hle
    obtain ⟨picked, rest, hsplit, hkeys⟩ := ih hrest
    exact ⟨a :: picked, rest, hperm.trans (hsplit.cons a), congrArg (key a :: ·) hkeys⟩

/-- What is picked is there as often as it is demanded. -/
theorem count_le_of_pick {picked : List α} (h : picked.Subperm stock)
    (hkeys : picked.map key = demands) (k : κ) :
    demands.count k ≤ (stock.map key).count k := by
  subst hkeys
  obtain ⟨chosen, hperm, hsub⟩ := h
  rw [← (hperm.map key).count_eq]
  exact (hsub.map key).count_le k

end CharmRuntime.Lib
