import CharmRuntime.Lib.Digits
import CharmRuntime.Matrix.Store

/-!
# Matrix.TaskId

The **names of the tasks** of a MATRIX client. A task is named by the index of its client and
its number, one behind the other, in the messages (`init_task`) as in the records of ZHT
(`insert_taskinfo_to_zht`), and nothing stands between the two numbers.

Both numbers are not negative and fit their types, so that they are natural numbers here.
-/

namespace CharmRuntime.Matrix

open Lib

/-- `ss << get_index() << i`. -/
def taskId (index i : Nat) : Text := numToStr index ++ numToStr i

/-! ### Which names are the same -/

/-- The name of a task is the one of another task exactly if one of the indices is the other one
with the first digits of the number that follows it. -/
theorem taskId_inj_iff (c₁ i₁ c₂ i₂ : Nat) :
    (taskId c₁ i₁ = taskId c₂ i₂ → c₁ = c₂ ∧ i₁ = i₂) ↔ ¬ Shifted c₁ i₁ c₂ i₂ ∧
    ¬ Shifted c₂ i₂ c₁ i₁ :=
  append_toDigits_inj_iff

/-- The names of the tasks of several clients are all different exactly for at most 11 clients, or
at most 10 tasks of each. -/
theorem taskIds_unique_iff (clients tasks : Nat) :
    (∀ c₁ < clients, ∀ i₁ < tasks, ∀ c₂ < clients, ∀ i₂ < tasks, taskId c₁ i₁ = taskId c₂ i₂ →
    c₁ = c₂ ∧ i₁ = i₂) ↔
      clients ≤ 11 ∨ tasks ≤ 10 := by
  have hlarge : ∀ {a b c d : Nat}, Shifted a b c d → 11 ≤ c ∧ 10 ≤ b := by
    rintro a b c d ⟨q, hq, ha, rfl, rfl⟩
    have hten : ∀ n, 10 ≤ 10 ^ numDigits n := fun n => Nat.le_self_pow (numDigits_pos n).ne' 10
    have hc := mul_le_mul ha (hten q)
    have hb := mul_le_mul hq (hten d)
    omega
  constructor
  · intro h
    by_contra hnot
    have hsame : taskId 1 10 = taskId 11 0 := rfl
    have heq := (h 1 (by omega) 10 (by omega) 11 (by omega) 0 (by omega) hsame).1
    omega
  · intro _ c₁ _ i₁ _ c₂ _ i₂ _
    refine (taskId_inj_iff c₁ i₁ c₂ i₂).mpr ⟨fun hshift => ?_, fun hshift => ?_⟩
    · have hbounds := hlarge hshift
      omega
    · have hbounds := hlarge hshift
      omega

/-- **The names of the tasks** tell them apart unless digits may be shifted from a number to the
index of another client; in terms of how many there are, with 12 clients and 11 tasks there are two
of one name. -/
theorem names_unique_iff (c₁ i₁ c₂ i₂ clients tasks : Nat) :
    ((taskId c₁ i₁ = taskId c₂ i₂ → c₁ = c₂ ∧ i₁ = i₂) ↔ ¬ Shifted c₁ i₁ c₂ i₂ ∧
    ¬ Shifted c₂ i₂ c₁ i₁) ∧
    ((∀ c₁ < clients, ∀ i₁ < tasks, ∀ c₂ < clients, ∀ i₂ < tasks,
        taskId c₁ i₁ = taskId c₂ i₂ → c₁ = c₂ ∧ i₁ = i₂) ↔ clients ≤ 11 ∨ tasks ≤ 10) :=
  ⟨taskId_inj_iff c₁ i₁ c₂ i₂, taskIds_unique_iff clients tasks⟩

theorem not_taskId_inj : ¬ (taskId 1 11 = taskId 11 1 → 1 = 11 ∧ 11 = 1) := by
  decide

end CharmRuntime.Matrix
