import CharmRuntime.Legion.ElementMask
import CharmRuntime.Lib.Transition

/-!
# Legion.SubspaceAllocator

`IndexSpaceAllocator::Impl` on a **chain of index spaces**. `reserve_elements` and `free_elements`
walk up to the root, and the mask that they change at each space is that of the space they began
with, so that the ancestors keep what they had (`subspaces_iff`).

All masks are owned by this node, so that no assertion about the owner fails.
-/

namespace CharmRuntime.Legion.SubspaceAllocator

open Lib List

/-- The masks of the spaces. The parent of a space is the next one, and that of the last one is
`NO_SPACE`. -/
abbrev Masks := List ElementMask

/-- The loop, which is at `impl`. -/
def walk (f : ElementMask → ElementMask) (is_impl impl : Nat) (masks : Masks) : Masks :=
  let masks := masks.modify is_impl f
  if impl + 1 < masks.length then walk f is_impl (impl + 1) masks else masks
termination_by masks.length - impl
decreasing_by
  rw [length_modify] at *
  omega

def reserveElements (masks : Masks) (is_impl ptr count : Nat) : Masks :=
  walk (·.enable ptr count) is_impl is_impl masks

def freeElements (masks : Masks) (is_impl ptr count : Nat) : Masks :=
  walk (·.disable ptr count) is_impl is_impl masks

/-- The start of the elements, with `none` for `assert(start >= 0)`. -/
def allocElements (masks : Masks) (is_impl count : Nat) : Option (Nat × Masks) := do
  let mask ← masks[is_impl]?
  let start ← mask.findDisabled count
  some (start, reserveElements masks is_impl start count)

def isSet (masks : Masks) (k j : Nat) : Bool := masks[k]?.elim false (·.isSet j)

/-- What a call does with the elements from `ptr` on. -/
structure Update where
  is_impl : Nat
  ptr : Nat
  count : Nat
  enabled : Bool

def Update.Range (u : Update) (j : Nat) : Prop := u.ptr ≤ j ∧ j < u.ptr + u.count

instance (u : Update) (j : Nat) : Decidable (u.Range j) := inferInstanceAs (Decidable (_ ∧ _))

/-- The calls, with the elements that are allocated, reserved or freed. -/
inductive Step (n : Nat) (masks : Masks) : Update → Masks → Prop
  | alloc {i count start : Nat} {masks' : Masks} : i < masks.length →
      allocElements masks i count = some (start, masks') →
      Step n masks ⟨i, start, count, true⟩ masks'
  | reserve {i ptr count : Nat} : i < masks.length → ptr + count ≤ n →
      Step n masks ⟨i, ptr, count, true⟩ (reserveElements masks i ptr count)
  | free {i ptr count : Nat} :
      i < masks.length → (∀ j, ptr ≤ j → j < ptr + count → isSet masks i j = true) →
      Step n masks ⟨i, ptr, count, false⟩ (freeElements masks i ptr count)

/-- Each mask is contained in that of the parent. -/
def Contained (masks : Masks) : Prop :=
  ∀ k j, k + 1 < masks.length → isSet masks k j = true → isSet masks (k + 1) j = true

def allocators (n : Nat) : Transition Masks Update where
  init masks := (∀ mask ∈ masks, mask.num_elements = n) ∧ Contained masks
  step := Step n

/-- The elements are updated in the space and in every ancestor, and nothing else is. -/
def Updated (masks : Masks) (u : Update) (masks' : Masks) : Prop :=
  ∀ k j, k < masks.length → isSet masks' k j = if u.is_impl ≤ k ∧
  u.Range j then u.enabled else isSet masks k j

/-- The ancestors have the elements as they are to be, and if they are freed no space below has one.
-/
def Agrees (masks : Masks) (u : Update) : Prop :=
  ∀ k j, k < masks.length → u.is_impl < k ∨ k < u.is_impl ∧ u.enabled = false → u.Range j →
  isSet masks k j = u.enabled

/-! ### What a call does -/

theorem length_walk (f : ElementMask → ElementMask) (i impl : Nat) (masks : Masks) :
    (walk f i impl masks).length = masks.length := by
  fun_induction walk f i impl masks with
  | case1 _ _ masks' _ ih => rw [ih, length_modify]
  | case2 => rw [length_modify]

variable {f : ElementMask → ElementMask} {masks : Masks} {n : Nat} {masks' : Masks} {u : Update}

theorem isSet_modify {i k : Nat} (j : Nat) :
    isSet (masks.modify i f) k j = if i = k then masks[k]?.elim false fun m =>
    (f m).isSet j else isSet masks k j := by
  rw [isSet, isSet, getElem?_modify]
  by_cases hik : i = k
  · cases masks[k]? <;> simp [hik]
  · cases masks[k]? <;> simp [hik]

/-- **Only the mask of the space itself is updated**, as often as the loop runs. -/
theorem isSet_walk {p : Nat → Prop} [DecidablePred p] {b : Bool}
    (hf : ∀ m j, (f m).isSet j = if p j then b else m.isSet j) {i : Nat} (impl : Nat)
    (hi : i < masks.length)
    (k j : Nat) : isSet (walk f i impl masks) k j = if k = i ∧ p j then b else isSet masks k j := by
  have hone (masks : Masks) (hi : i < masks.length) :
      isSet (masks.modify i f) k j = if k = i ∧ p j then b else isSet masks k j := by
    rw [isSet_modify]
    by_cases hik : i = k
    · subst hik
      simp only [isSet, getElem?_eq_getElem hi, Option.elim_some, hf, true_and, if_true]
    · rw [if_neg hik, if_neg fun h => hik h.1.symm]
  fun_induction walk f i impl masks with
  | case1 _ masks _ _ ih =>
    rw [ih (by rwa [length_modify]), hone masks hi]
    split <;> rfl
  | case2 => exact hone _ hi

theorem Step.isSet_eq (h : Step n masks u masks') :
    u.is_impl < masks.length ∧ masks'.length = masks.length ∧
      ∀ k j, isSet masks' k j = if k = u.is_impl ∧
      u.Range j then u.enabled else isSet masks k j := by
  have henable {i ptr count : Nat} (hi : i < masks.length) (k j : Nat) :
      isSet (reserveElements masks i ptr count) k j =
        if k = i ∧ Update.Range ⟨i, ptr, count, true⟩ j then true else isSet masks k j :=
    isSet_walk (fun m j => by
      by_cases hj : ptr ≤ j ∧ j < ptr + count <;> simp [hj, Update.Range]) i hi k j
  cases h with
  | @alloc i count start _ hi hret =>
    obtain ⟨mask, -, hret⟩ := Option.bind_eq_some_iff.mp hret
    obtain ⟨_, -, hret⟩ := Option.bind_eq_some_iff.mp hret
    obtain ⟨rfl, rfl⟩ := Prod.mk.inj (Option.some.inj hret)
    exact ⟨hi, length_walk _ _ _ _, henable hi⟩
  | reserve hi _ => exact ⟨hi, length_walk _ _ _ _, henable hi⟩
  | @free i ptr count hi _ =>
    refine ⟨hi, length_walk _ _ _ _, isSet_walk (fun m j => ?_) i hi⟩
    by_cases hj : ptr ≤ j ∧ j < ptr + count <;> simp [hj, Update.Range]

/-! ### Containment -/

theorem Contained.isSet_of_le (h : Contained masks) {k k' j : Nat} (hle : k ≤ k')
    (hk : k' < masks.length)
    (hset : isSet masks k j = true) : isSet masks k' j = true := by
  induction hle with
  | refl => exact hset
  | step _ ih => exact h _ j hk (ih (Nat.lt_of_succ_lt hk))

theorem Step.contained (h : Step n masks u masks') (hc : Contained masks)
    (hu : Agrees masks u) : Contained masks' := by
  obtain ⟨-, hlen, hset⟩ := h.isSet_eq
  intro k j hk hkj
  rw [hlen] at hk
  rw [hset] at hkj ⊢
  split
  · next hnext =>
      obtain ⟨hnext, hj⟩ := hnext
      cases he : u.enabled with
      | true => rfl
      | false =>
        rw [if_neg (by omega), hu k j (by omega) (.inr ⟨by omega, he⟩) hj, he] at hkj
        exact hkj
  · split at hkj
    · next hself =>
        obtain ⟨rfl, hj⟩ := hself
        rw [hu _ j hk (.inl (Nat.lt_succ_self _)) hj, hkj]
    · exact hc k j hk hkj

theorem Step.meets_iff (h : Step n masks u masks') (hc : Contained masks) :
    Contained masks' ∧ Updated masks u masks' ↔ Agrees masks u := by
  obtain ⟨hi, hlen, hset⟩ := h.isSet_eq
  constructor
  · rintro ⟨hc', hup⟩ k j hk hside hj
    have hne : k ≠ u.is_impl := by omega
    have hkeep : isSet masks' k j = isSet masks k j := by rw [hset, if_neg fun h => hne h.1]
    obtain habove | ⟨hbelow, he⟩ := hside
    · rw [← hkeep, hup k j hk, if_pos ⟨le_of_lt habove, hj⟩]
    · -- A space below may keep no element that the space loses.
      rw [he, ← hkeep]
      refine Bool.eq_false_iff.mpr fun hkj => ?_
      have hself := hc'.isSet_of_le (le_of_lt hbelow) (hlen ▸ hi) hkj
      rw [hset, if_pos ⟨rfl, hj⟩, he] at hself
      cases hself
  · refine fun hu => ⟨h.contained hc hu, fun k j hk => ?_⟩
    rw [hset]
    by_cases hj : u.Range j
    · obtain hlt | rfl | hgt := lt_trichotomy k u.is_impl
      · rw [if_neg (by omega), if_neg (by omega)]
      · rw [if_pos ⟨rfl, hj⟩, if_pos ⟨le_rfl, hj⟩]
      · rw [if_neg (by omega), if_pos ⟨le_of_lt hgt, hj⟩, hu k j hk (.inl hgt) hj]
    · rw [if_neg fun h => hj h.2, if_neg fun h => hj h.2]

/-- **In a run of calls whose ancestors have the elements as they are to be**, and no space below an
element that is freed, the masks stay contained in those of the parents, and a call is then right
exactly if it is one of these. -/
theorem subspaces_iff {n : Nat} {masks : Masks} (h : (allocators n).RunsWith Agrees masks) :
    Contained masks ∧
      ∀ u masks', Step n masks u masks' →
      (Contained masks' ∧ Updated masks u masks' ↔ Agrees masks u) := by
  have hc : Contained masks :=
    h.invariant (fun _ (hinit : (allocators n).init _) => hinit.2)
      fun _ _ _ hc hu hstep => hstep.contained hc hu
  exact ⟨hc, fun u masks' hstep => hstep.meets_iff hc⟩

/-- An element of the parent is reserved in the child. -/
theorem subspaces_iff_two :
    Contained (reserveElements [.new 1, (ElementMask.new 1).enable 0 1] 0 0 1) ∧
      ∀ u masks', Step 1 (reserveElements [.new 1, (ElementMask.new 1).enable 0 1] 0 0 1) u masks' →
        (Contained masks' ∧
        Updated (reserveElements [.new 1, (ElementMask.new 1).enable 0 1] 0 0 1) u masks' ↔
          Agrees (reserveElements [.new 1, (ElementMask.new 1).enable 0 1] 0 0 1) u) := by
  have hinit : (allocators 1).init [.new 1, (ElementMask.new 1).enable 0 1] := by
    refine ⟨forall_mem_cons.mpr ⟨rfl, forall_mem_singleton.mpr rfl⟩, fun k j hk hset => ?_⟩
    obtain rfl : k = 0 := Nat.lt_one_iff.mp (Nat.lt_of_succ_lt_succ hk)
    exact absurd hset (by simp [isSet])
  refine subspaces_iff
    (.step (.init hinit) (fun k j hk hside hj => ?_) (Step.reserve (by decide) le_rfl))
  obtain ⟨rfl, rfl⟩ : k = 1 ∧ j = 0 := by
    simp [Update.Range] at hk hside hj
    omega
  rfl

/-- An element is reserved in the child only. -/
theorem not_subspaces : ¬ ∀ (n : Nat) (masks : Masks), (allocators n).Reachable masks →
    ∀ u masks', Step n masks u masks' → Contained masks' ∧ Updated masks u masks' := by
  intro hclaim
  have hinit : (allocators 1).init [.new 1, .new 1] := by
    refine ⟨forall_mem_cons.mpr ⟨rfl, forall_mem_singleton.mpr rfl⟩, fun k j hk hset => ?_⟩
    obtain rfl : k = 0 := Nat.lt_one_iff.mp (Nat.lt_of_succ_lt_succ hk)
    exact absurd hset (by simp [isSet])
  obtain ⟨-, hup⟩ := hclaim 1 _ (.init hinit) ⟨0, 0, 1, true⟩ _ (.reserve (by decide) le_rfl)
  exact absurd (hup 1 0 (by decide)) (by decide +kernel)

end CharmRuntime.Legion.SubspaceAllocator
