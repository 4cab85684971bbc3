import Mathlib.Tactic.Ring

/-!
# Lib.Outcome

Inversion of computations that may abort. A handler that calls `CkAbort` is an
`Except` computation; these lemmas peel a successful one apart without unfolding
the monad.
-/

namespace CharmRuntime.Lib

universe u v

variable {ε : Type u} {α β : Type v} {x : Except ε α} {f : α → Except ε β} {l : List α}

@[simp] theorem ok_bind (a : α) (f : α → Except ε β) : Except.ok a >>= f = f a := rfl

/-- A successful sequence is a successful first part followed by a successful
second one. -/
theorem bind_eq_ok {b : β} : x >>= f = .ok b ↔ ∃ a, x = .ok a ∧ f a = .ok b := by
  cases x with
  | error e => simp [bind, Except.bind]
  | ok a => simp [Except.bind]

/-- A sequence fails because its first part does, or its second one after it. -/
theorem bind_eq_error {e : ε} :
    x >>= f = .error e ↔ x = .error e ∨ ∃ a, x = .ok a ∧ f a = .error e := by
  cases x with
  | error e' => simp [bind, Except.bind]
  | ok a => simp [Except.bind]

/-- A list of successful computations succeeds. -/
theorem mapM_ok (h : ∀ a ∈ l, ∃ b, f a = .ok b) : ∃ bs, l.mapM f = .ok bs := by
  induction l with
  | nil => exact ⟨[], rfl⟩
  | cons a l ih =>
    obtain ⟨b, hb⟩ := h a List.mem_cons_self
    obtain ⟨bs, hbs⟩ := ih fun c hc => h c (List.mem_cons_of_mem a hc)
    refine ⟨b :: bs, ?_⟩
    rw [List.mapM_cons]
    exact bind_eq_ok.mpr ⟨b, hb, bind_eq_ok.mpr ⟨bs, hbs, rfl⟩⟩

/-- The results of computations that are known to succeed. -/
theorem mapM_eq_ok {g : α → β} (h : ∀ a ∈ l, f a = .ok (g a)) : l.mapM f = .ok (l.map g) := by
  induction l with
  | nil => rfl
  | cons a l ih =>
    rw [List.mapM_cons]
    have hl := ih fun b hb => h b (List.mem_cons_of_mem a hb)
    exact bind_eq_ok.mpr ⟨g a, h a List.mem_cons_self, bind_eq_ok.mpr ⟨l.map g, hl, rfl⟩⟩

end CharmRuntime.Lib
