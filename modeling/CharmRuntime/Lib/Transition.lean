import Mathlib.Tactic.Ring

/-!
# Lib.Transition

Labelled transition systems and the **invariant rule**: a property of the
initial states that every step preserves holds of every reachable state.

A component whose handlers may be called in any order is a system whose labels
are the calls. `Reachable.invariant` is the plain rule; `RunsWith` restricts the
steps to those whose source state and label meet a side condition, which is how
a property that only some runs have is stated; `restrict` does the same for the
system. `Trace` keeps the labels of a run; `Trace.simulate` carries a run over to a
more abstract system with the same labels.
-/

namespace CharmRuntime.Lib

universe u v

/-- A labelled transition system. -/
structure Transition (σ : Type u) (ε : Type v) where
  init : σ → Prop
  step : σ → ε → σ → Prop

namespace Transition

variable {σ : Type u} {ε : Type v} (T : Transition σ ε)

/-- The states reached by runs all of whose steps `s --e--> s'` satisfy `ok s e`. -/
inductive RunsWith (ok : σ → ε → Prop) : σ → Prop
  | init {s : σ} : T.init s → RunsWith ok s
  | step {s s' : σ} {e : ε} : RunsWith ok s → ok s e → T.step s e s' → RunsWith ok s'

/-- The states reached by any run. -/
def Reachable : σ → Prop := T.RunsWith (fun _ _ => True)

/-- The system with only the steps that satisfy `ok`. -/
def restrict (ok : σ → ε → Prop) : Transition σ ε where
  init := T.init
  step s e s' := ok s e ∧ T.step s e s'

variable {T}

/-- The invariant rule for restricted runs. -/
theorem RunsWith.invariant {ok : σ → ε → Prop} {I : σ → Prop} (hinit : ∀ s, T.init s → I s)
    (hstep : ∀ s e s', I s → ok s e → T.step s e s' → I s') {s : σ} (h : T.RunsWith ok s) :
    I s := by
  induction h with
  | init h0 => exact hinit _ h0
  | step _ hok hs ih => exact hstep _ _ _ ih hok hs

theorem Reachable.init {s : σ} (h : T.init s) : T.Reachable s := RunsWith.init h

theorem Reachable.step {s s' : σ} {e : ε} (h : T.Reachable s) (hs : T.step s e s') :
    T.Reachable s' :=
  RunsWith.step h trivial hs

/-- Restricted runs are runs. -/
theorem RunsWith.reachable {ok : σ → ε → Prop} {s : σ} (h : T.RunsWith ok s) : T.Reachable s := by
  induction h with
  | init h0 => exact .init h0
  | step _ _ hs ih => exact ih.step hs

/-- The invariant rule. -/
theorem Reachable.invariant {I : σ → Prop} (hinit : ∀ s, T.init s → I s)
    (hstep : ∀ s e s', I s → T.step s e s' → I s') {s : σ} (h : T.Reachable s) : I s :=
  RunsWith.invariant hinit (fun s e s' hI _ hs => hstep s e s' hI hs) h

/-! ### Traces and simulation -/

variable (T) in
/-- The runs with their labels, in order. -/
inductive Trace : List ε → σ → Prop
  | init {s : σ} : T.init s → Trace [] s
  | step {l : List ε} {s s' : σ} {e : ε} : Trace l s → T.step s e s' → Trace (l ++ [e]) s'

theorem Trace.reachable {l : List ε} {s : σ} (h : T.Trace l s) : T.Reachable s := by
  induction h with
  | init h0 => exact .init h0
  | step _ hs ih => exact ih.step hs

theorem Trace.of_nil {s : σ} (h : T.Trace [] s) : T.init s := by
  generalize hl : [] = l at h
  cases h with
  | init h0 => exact h0
  | step _ _ => exact absurd hl (by simp)

/-- The last step of a trace. -/
theorem Trace.of_append {l : List ε} {e : ε} {s' : σ} (h : T.Trace (l ++ [e]) s') :
    ∃ s, T.Trace l s ∧ T.step s e s' := by
  generalize hl : l ++ [e] = l' at h
  cases h with
  | init _ => exact absurd hl (by simp)
  | step ht hs =>
    obtain ⟨rfl, he⟩ := List.append_inj' hl rfl
    obtain rfl := List.singleton_inj.mp he
    exact ⟨_, ht, hs⟩

/-- **Simulation.** If the abstract system can follow every step, it has every
trace. -/
theorem Trace.simulate {τ : Type*} {A : Transition τ ε} {R : σ → τ → Prop}
    (hinit : ∀ s, T.init s → ∃ a, A.init a ∧ R s a)
    (hstep : ∀ s e s' a, R s a → T.step s e s' → ∃ a', A.step a e a' ∧ R s' a') {l : List ε} {s : σ}
    (h : T.Trace l s) : ∃ a, A.Trace l a ∧ R s a := by
  induction h with
  | init h0 =>
    obtain ⟨a, ha, hr⟩ := hinit _ h0
    exact ⟨a, .init ha, hr⟩
  | step _ hs ih =>
    obtain ⟨a, ha, hr⟩ := ih
    obtain ⟨a', hs', hr'⟩ := hstep _ _ _ a hr hs
    exact ⟨a', .step ha hs', hr'⟩

end Transition

end CharmRuntime.Lib
