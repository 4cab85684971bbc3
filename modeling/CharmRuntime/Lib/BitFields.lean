import Mathlib.Tactic.Ring

/-!
# Lib.BitFields

Numbers packed into one, field by field: each field is a value with the number of bits it
gets, and the first field ends up at the top. With every value below its width the packed
number fits the sum of the widths and gives all values back.
-/

namespace CharmRuntime.Lib

open List

/-- Append the fields to a number. -/
def packFields (acc : Nat) : List (Nat × Nat) → Nat
  | [] => acc
  | (bits, value) :: fields => packFields (acc * 2 ^ bits + value) fields

/-- Every value fits its field. -/
def FieldsFit (fields : List (Nat × Nat)) : Prop := ∀ f ∈ fields, f.2 < 2 ^ f.1

/-- The bits of all fields. -/
def fieldsWidth (fields : List (Nat × Nat)) : Nat := (fields.map Prod.fst).sum

theorem packFields_lt {fields : List (Nat × Nat)} (h : FieldsFit fields) {acc n : Nat}
    (hacc : acc < 2 ^ n) : packFields acc fields < 2 ^ (n + fieldsWidth fields) := by
  induction fields generalizing acc n with
  | nil => exact hacc
  | cons f fields ih =>
    obtain ⟨bits, value⟩ := f
    have hv : value < 2 ^ bits := h _ mem_cons_self
    have hstep : acc * 2 ^ bits + value < 2 ^ (n + bits) := by
      calc acc * 2 ^ bits + value < (acc + 1) * 2 ^ bits := by rw [Nat.succ_mul]; omega
        _ ≤ 2 ^ n * 2 ^ bits := Nat.mul_le_mul_right _ hacc
        _ = 2 ^ (n + bits) := (pow_add 2 n bits).symm
    have hrest := ih (fun f hf => h f (mem_cons_of_mem _ hf)) hstep
    rw [fieldsWidth, map_cons, sum_cons, ← add_assoc]
    exact hrest

/-- **Fields of the same widths are told apart.** -/
theorem packFields_inj {fields fields' : List (Nat × Nat)} (h : FieldsFit fields)
    (h' : FieldsFit fields') (hbits : fields.map Prod.fst = fields'.map Prod.fst) {acc acc' : Nat}
    (heq : packFields acc fields = packFields acc' fields') : acc = acc' ∧ fields = fields' := by
  induction fields generalizing fields' acc acc' with
  | nil =>
    cases fields' with
    | nil => exact ⟨heq, rfl⟩
    | cons f' fields' => exact absurd hbits (by simp)
  | cons f fields ih =>
    cases fields' with
    | nil => exact absurd hbits (by simp)
    | cons f' fields' =>
      obtain ⟨bits, value⟩ := f
      obtain ⟨bits', value'⟩ := f'
      rw [map_cons, map_cons, cons.injEq] at hbits
      obtain ⟨rfl, hbits⟩ := hbits
      have hv : value < 2 ^ bits := h _ mem_cons_self
      have hv' : value' < 2 ^ bits := h' _ mem_cons_self
      obtain ⟨hacc, rfl⟩ := ih (fun f hf => h f (mem_cons_of_mem _ hf))
        (fun f hf => h' f (mem_cons_of_mem _ hf)) hbits heq
      have hdiv : acc = acc' := by
        have hd := congrArg (· / 2 ^ bits) hacc
        simp only [mul_comm _ (2 ^ bits), Nat.mul_add_div (Nat.two_pow_pos bits),
          Nat.div_eq_of_lt hv, Nat.div_eq_of_lt hv'] at hd
        exact hd
      subst hdiv
      have hval : value = value' := add_left_cancel hacc
      rw [hval]
      exact ⟨rfl, rfl⟩

end CharmRuntime.Lib
