import Mathlib.Algebra.Order.Group.Multiset

/-!
# Lib.Gathered

Partial results of a computation that combines the contributions of several parties
step by step. `Gathered node ps ds` says that the values `ds` were combined from the
contributions of `ps`, each of which went into one of the values, and once. What party `p`
makes of the values that reached it is `node p`, if it has contributed.

`Gathered.combine` is the step of a party that replaces the values it holds by one of its
own; it rests on `Gathered.split`, which takes the contributions apart along the values.
-/

namespace CharmRuntime.Lib

open Multiset

variable {P δ : Type}

/-- The values `ds` hold the contributions of `ps`. -/
inductive Gathered (node : P → Option (List δ → δ)) : Multiset P → Multiset δ → Prop
  | zero : Gathered node 0 0
  | node {p : P} {f : List δ → δ} {ps qs : Multiset P} {ds : List δ} {es : Multiset δ} :
      node p = some f → Gathered node ps (ds : Multiset δ) → Gathered node qs es →
        Gathered node (p ::ₘ (ps + qs)) (f ds ::ₘ es)

namespace Gathered

variable {node node' : P → Option (List δ → δ)}

/-- Contributions of others do not matter. -/
theorem mono (hle : ∀ p f, node p = some f → node' p = some f) {ps : Multiset P} {ds : Multiset δ}
    (h : Gathered node ps ds) : Gathered node' ps ds := by
  induction h with
  | zero => exact .zero
  | node hp _ _ ih1 ih2 => exact .node (hle _ _ hp) ih1 ih2

/-- Each value has contributions of its own. -/
theorem split {ps : Multiset P} {ds es : Multiset δ} (h : Gathered node ps (ds + es)) :
    ∃ qs rs, ps = qs + rs ∧ Gathered node qs ds ∧ Gathered node rs es := by
  generalize hm : ds + es = m at h
  induction h generalizing ds es with
  | zero =>
    obtain rfl : ds = 0 := le_zero.mp (hm ▸ le_add_right ds es)
    obtain rfl : es = 0 := by rw [← hm, zero_add]
    exact ⟨0, 0, rfl, .zero, .zero⟩
  | @node p f ps qs ds0 es0 hp hds _ _ ih =>
    have hmem : f ds0 ∈ ds + es := hm ▸ mem_cons_self _ _
    cases mem_add.mp hmem with
    | inl hd =>
      obtain ⟨ds', rfl⟩ := exists_cons_of_mem hd
      rw [cons_add, cons_inj_right] at hm
      obtain ⟨qs', rs', rfl, hq, hr⟩ := ih hm
      refine ⟨p ::ₘ (ps + qs'), rs', ?_, .node hp hds hq, hr⟩
      rw [cons_add, add_assoc]
    | inr he =>
      obtain ⟨es', rfl⟩ := exists_cons_of_mem he
      rw [add_cons, cons_inj_right] at hm
      obtain ⟨qs', rs', rfl, hq, hr⟩ := ih hm
      refine ⟨qs', p ::ₘ (ps + rs'), ?_, hq, .node hp hds hr⟩
      rw [add_cons, add_left_comm]

/-- Party `p` puts its own contribution in and keeps one value for those it held. -/
theorem combine {p : P} {f : List δ → δ} {ps : Multiset P} {ds : List δ} {es : Multiset δ}
    (hp : node p = some f) (h : Gathered node ps (ds + es)) :
    Gathered node (p ::ₘ ps) (f ds ::ₘ es) := by
  obtain ⟨qs, rs, rfl, hq, hr⟩ := h.split
  exact .node hp hq hr

end Gathered

end CharmRuntime.Lib
