import Mathlib.Data.List.Nodup
import Mathlib.Data.List.Perm.Basic

/-!
# Lib.Flow

Tasks with dependencies that flow through a system: every task is submitted,
waits, becomes ready once all its parents have been executed, and is executed.

A `Flow` only knows the stage of every task and the order of the executions. Its
steps move tasks around within a stage or on to the next one. `Sound.step` is
what every such system has in common: no task is lost or doubled, none is
executed twice, and none before its parents.
-/

namespace CharmRuntime.Lib

open List

universe u

inductive Stage where
  | waiting
  | ready
  | done
  deriving DecidableEq

/-- Where every task stands, the tasks submitted, and those executed in order. -/
structure Flow (α : Type u) where
  tokens : List (Stage × α)
  submitted : List α
  executed : List α

namespace Flow

variable {α : Type u}

/-- The steps of a flow. -/
inductive Step (parent : α → α → Prop) (f : Flow α) : Flow α → Prop
  | submit {l : List α} {tokens : List (Stage × α)} (hnew : (f.submitted ++ l).Nodup)
      (h : tokens.Perm (l.map (Stage.waiting, ·) ++ f.tokens)) :
      Step parent f { f with tokens, submitted := f.submitted ++ l }
  | move {tokens : List (Stage × α)} (h : tokens.Perm f.tokens) : Step parent f { f with tokens }
  | ready {t : α} {tokens : List (Stage × α)}
  (h : ((.waiting, t) :: tokens).Perm ((.ready, t) :: f.tokens))
      (hparents : ∀ p, parent p t → p ∈ f.executed) : Step parent f { f with tokens }
  | execute {t : α} {tokens : List (Stage × α)}
  (h : ((.ready, t) :: tokens).Perm ((.done, t) :: f.tokens)) :
      Step parent f { f with tokens, executed := f.executed ++ [t] }

/-- No task is lost or doubled, none executed twice or early. -/
structure Sound (parent : α → α → Prop) (f : Flow α) : Prop where
  places : (f.tokens.map (·.2)).Perm f.submitted
  nodup : f.submitted.Nodup
  executed : ((f.tokens.filter (·.1 = .done)).map (·.2)).Perm f.executed
  ready : ∀ t, (.ready, t) ∈ f.tokens → ∀ p, parent p t → p ∈ f.executed
  ordered : ∀ l₁ t l₂, f.executed = l₁ ++ t :: l₂ → ∀ p, parent p t → p ∈ l₁

variable {parent : α → α → Prop} {f f' : Flow α}

theorem Sound.executed_nodup (h : Sound parent f) : f.executed.Nodup := by
  have hall : (f.tokens.map (·.2)).Nodup := h.places.nodup_iff.mpr h.nodup
  refine h.executed.nodup_iff.mp (hall.sublist ?_)
  exact Sublist.map _ filter_sublist

theorem Sound.empty :
    Sound parent ({ tokens := [], submitted := [], executed := [] } : Flow α) := by
  refine ⟨Perm.refl _, nodup_nil, Perm.refl _, fun t ht => absurd ht not_mem_nil, ?_⟩
  intro _ t _ h
  exact absurd h.symm (by simp)

/-- The last of a list, or one of those before it. -/
theorem append_singleton_split {l l₁ l₂ : List α} {t u : α} (h : l ++ [u] = l₁ ++ t :: l₂) :
    (l = l₁ ∧ u = t) ∨ ∃ l2', l = l₁ ++ t :: l2' := by
  obtain rfl | ⟨l2', v, rfl⟩ := l₂.eq_nil_or_concat
  · obtain ⟨hl, hu⟩ := append_inj' h rfl
    exact .inl ⟨hl, singleton_inj.mp hu⟩
  · rw [concat_eq_append, ← cons_append, ← append_assoc] at h
    exact .inr ⟨l2', (append_inj' h rfl).1⟩

/-- A member that is replaced by another one. -/
theorem exists_rest {a b : α} {l l' : List α} (h : (a :: l').Perm (b :: l)) (hne : a ≠ b) :
    ∃ rest, l.Perm (a :: rest) ∧ l'.Perm (b :: rest) := by
  obtain ⟨l₁, l₂, rfl⟩ :=
    append_of_mem ((mem_cons.mp (h.mem_iff.mp mem_cons_self)).resolve_left hne)
  refine ⟨l₁ ++ l₂, perm_middle, ?_⟩
  refine Perm.cons_inv (h.trans ?_)
  exact (Perm.cons b perm_middle).trans (Perm.swap a b _)

/-- **Every step keeps the flow sound.** -/
theorem Sound.step (h : Sound parent f) (hstep : Step parent f f') : Sound parent f' := by
  cases hstep with
  | @submit l tokens hnew hperm =>
    have hids : (l.map (Stage.waiting, ·)).map (·.2) = l := by
      rw [map_map]
      exact map_id' l
    have hdone : (l.map (Stage.waiting, ·)).filter (fun x => decide (x.1 = Stage.done)) = [] := by
      rw [filter_eq_nil_iff]
      rintro ⟨stage, t⟩ hx
      obtain ⟨u, -, heq⟩ := mem_map.mp hx
      obtain rfl := (Prod.mk.inj heq).1
      simp
    refine ⟨?_, hnew, ?_, ?_, h.ordered⟩
    · refine (hperm.map _).trans ?_
      rw [map_append, hids]
      exact (Perm.append_left _ h.places).trans perm_append_comm
    · refine ((hperm.filter _).map _).trans ?_
      rw [filter_append, hdone]
      exact h.executed
    · intro t ht p hp
      refine h.ready t ?_ p hp
      have hmem := hperm.mem_iff.mp ht
      simpa using hmem
  | move hperm =>
    refine ⟨(hperm.map _).trans h.places, h.nodup, ((hperm.filter _).map _).trans h.executed,
      ?_, h.ordered⟩
    exact fun t ht => h.ready t (hperm.mem_iff.mp ht)
  | ready hstep hparents =>
    obtain ⟨rest, hold, hperm⟩ := exists_rest hstep (by simp)
    refine ⟨?_, h.nodup, ?_, ?_, h.ordered⟩
    · refine (hperm.map _).trans (trans ?_ h.places)
      simpa using (hold.map (·.2)).symm
    · refine ((hperm.filter _).map _).trans (trans ?_ h.executed)
      simpa using ((hold.filter fun x => decide (x.1 = Stage.done)).map (·.2)).symm
    · intro t ht p hp
      obtain heq | ht := mem_cons.mp (hperm.mem_iff.mp ht)
      · obtain rfl := (Prod.mk.inj heq).2
        exact hparents p hp
      · exact h.ready t (hold.mem_iff.mpr (mem_cons_of_mem _ ht)) p hp
  | @execute t tokens hstep =>
    obtain ⟨rest, hold, hperm⟩ := exists_rest hstep (by simp)
    refine ⟨?_, h.nodup, ?_, ?_, ?_⟩
    · refine (hperm.map _).trans (trans ?_ h.places)
      simpa using (hold.map (·.2)).symm
    · refine ((hperm.filter _).map _).trans ?_
      have hrest :
        ((rest.filter fun x => decide (x.1 = Stage.done)).map (·.2)).Perm f.executed := by
        refine trans ?_ h.executed
        simpa using ((hold.filter fun x => decide (x.1 = Stage.done)).map (·.2)).symm
      exact (Perm.cons t hrest).trans (perm_append_singleton t _).symm
    · intro u hu p hp
      obtain heq | hu := mem_cons.mp (hperm.mem_iff.mp hu)
      · exact absurd (Prod.mk.inj heq).1 (by decide)
      · exact mem_append_left _ (h.ready u (hold.mem_iff.mpr (mem_cons_of_mem _ hu)) p hp)
    · intro l₁ u _ heq p hp
      obtain ⟨rfl, rfl⟩ | ⟨l2', hl⟩ := append_singleton_split heq
      · exact h.ready _ (hold.mem_iff.mpr mem_cons_self) p hp
      · exact h.ordered l₁ u l2' hl p hp

end Flow

end CharmRuntime.Lib
