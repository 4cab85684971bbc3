import Mathlib.Data.List.Count
import Mathlib.Data.List.FinRange

/-!
# Lib.SpanTree

Rooted trees over a set of processors, given as the runtime gives them: a parent
and a list of children for each node. The well-formedness is part of the
structure, so that only trees can be built.

`SpanTree.induction` goes from the root down, which is how a fact that each node
inherits from its parent reaches every node.
-/

namespace CharmRuntime.Lib

/-- A tree with root `root`; the parent of the root is not used. -/
structure SpanTree (P : Type) where
  root : P
  parent : P → P
  children : P → List P
  nodup_children : ∀ p, (children p).Nodup
  mem_children : ∀ p c, c ∈ children p ↔ c ≠ root ∧ parent c = p
  depth : P → Nat
  depth_parent : ∀ c, c ≠ root → depth (parent c) < depth c

namespace SpanTree

variable {P : Type} (T : SpanTree P)

theorem mem_children_parent {c : P} (h : c ≠ T.root) : c ∈ T.children (T.parent c) :=
  (T.mem_children _ c).mpr ⟨h, rfl⟩

theorem ne_root_of_mem {p c : P} (h : c ∈ T.children p) : c ≠ T.root :=
  ((T.mem_children p c).mp h).1

theorem parent_of_mem {p c : P} (h : c ∈ T.children p) : T.parent c = p :=
  ((T.mem_children p c).mp h).2

/-- No node is its own parent. -/
theorem parent_ne {c : P} (h : c ≠ T.root) : T.parent c ≠ c := by
  intro heq
  have := T.depth_parent c h
  rw [heq] at this
  exact lt_irrefl _ this

theorem self_not_mem (p : P) : p ∉ T.children p := fun h =>
  T.parent_ne (T.ne_root_of_mem h) (T.parent_of_mem h)

/-- Induction from the root down. -/
theorem induction {Q : P → Prop} (hroot : Q T.root)
    (hstep : ∀ c, c ≠ T.root → Q (T.parent c) → Q c) : ∀ p, Q p := by
  suffices h : ∀ n p, T.depth p = n → Q p from fun p => h _ p rfl
  intro n
  induction n using Nat.strongRecOn with
  | ind n ih =>
    intro p hp
    by_cases hr : p = T.root
    · exact hr ▸ hroot
    · exact hstep p hr (ih _ (hp ▸ T.depth_parent p hr) _ rfl)

/-- The tree of `n` leaves under the root `0`. -/
def star (n : Nat) : SpanTree (Fin (n + 1)) where
  root := 0
  parent := fun _ => 0
  children p := if p = 0 then (List.finRange n).map Fin.succ else []
  nodup_children p := by
    split
    · exact (List.nodup_finRange n).map (Fin.succ_injective n)
    · exact List.nodup_nil
  mem_children p c := by
    by_cases hp : p = 0
    · subst hp
      simp [Fin.exists_succ_eq]
    · simp [hp, Ne.symm hp]
  depth p := if p = 0 then 0 else 1
  depth_parent c hc := by simp [hc]

end SpanTree

end CharmRuntime.Lib
