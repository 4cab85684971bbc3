import CharmRuntime.Legion.ElementMask
import CharmRuntime.Lib.Transition

/-!
# Legion.IndexSpaceAllocator

`IndexSpaceAllocator::Impl` on an index space without a parent: **elements are allocated where its
mask has none enabled**, reserved where the caller says, and freed.

The mask looks for a run from the first position on at which an element may be enabled, as far as it
knows. For `find_enabled` nothing is before that, but for `find_disabled`, which starts there too,
everything before it is free.
-/

namespace CharmRuntime.Legion

open Lib

/-- An index space, with the elements that are in use. -/
structure AllocState where
  valid_mask : ElementMask
  used : Nat → Bool

namespace AllocState

def init (n : Nat) : AllocState where
  valid_mask := .new n
  used _ := false

/-- `reserve_elements`. -/
def reserveElements (s : AllocState) (ptr count : Nat) : AllocState where
  valid_mask := s.valid_mask.enable ptr count
  used j := decide (ptr ≤ j ∧ j < ptr + count) || s.used j

/-- `free_elements`. -/
def freeElements (s : AllocState) (ptr count : Nat) : AllocState where
  valid_mask := s.valid_mask.disable ptr count
  used j := !decide (ptr ≤ j ∧ j < ptr + count) && s.used j

inductive AllocFault
  /-- `assert(start >= 0)`. -/
  | noStart
deriving DecidableEq

/-- `alloc_elements`: the start of the elements, and the state with them. -/
def allocElements (s : AllocState) (count : Nat) : Except AllocFault (Nat × AllocState) :=
  match s.valid_mask.findDisabled count with
  | none => .error .noStart
  | some start => .ok (start, s.reserveElements start count)

/-- `count` elements from `p` on, none of which is in use. -/
def Free (n : Nat) (s : AllocState) (p count : Nat) :
    Prop := p + count ≤ n ∧ ∀ j, p ≤ j → j < p + count → s.used j = false

inductive AllocCall
  | alloc (count : Nat)
  | reserve (ptr count : Nat)
  | free (ptr count : Nat)

/-- The calls, with counts that are not 0 and in range. -/
inductive Step (n : Nat) : AllocState → AllocCall → AllocState → Prop
  | alloc {s s' : AllocState} {count start : Nat} :
      1 ≤ count → count ≤ n → s.allocElements count = .ok (start, s') →
      Step n s (.alloc count) s'
  | reserve {s : AllocState} {ptr count : Nat} : 1 ≤ count → s.Free n ptr count →
      Step n s (.reserve ptr count) (s.reserveElements ptr count)
  | free {s : AllocState} {ptr count : Nat} : 1 ≤ count → ptr + count ≤ n →
      (∀ j, ptr ≤ j → j < ptr + count → s.used j = true) →
      Step n s (.free ptr count) (s.freeElements ptr count)

def allocator (n : Nat) : Transition AllocState AllocCall where
  init s := s = init n
  step := Step n

/-! ### The mask and the elements in use -/

/-- The mask has the elements that are in use. -/
structure Ok (n : Nat) (s : AllocState) : Prop where
  num_elements : s.valid_mask.num_elements = n
  isSet : ∀ j, s.valid_mask.isSet j = s.used j

variable {n : Nat} {s : AllocState} {count : Nat}

theorem Ok.reserveElements (h : s.Ok n) (ptr count : Nat) : (s.reserveElements ptr count).Ok n :=
  ⟨(s.valid_mask.enable_num_elements ptr count).trans h.num_elements, fun j => by
    change (s.valid_mask.enable ptr count).isSet j = _
    rw [ElementMask.isSet_enable, h.isSet j]
    rfl⟩

theorem Ok.freeElements (h : s.Ok n) (ptr count : Nat) : (s.freeElements ptr count).Ok n :=
  ⟨(s.valid_mask.disable_num_elements ptr count).trans h.num_elements, fun j => by
    change (s.valid_mask.disable ptr count).isSet j = _
    rw [ElementMask.isSet_disable, h.isSet j]
    rfl⟩

theorem alloc_elements_ok {s' : AllocState} {start : Nat}
    (h : s.allocElements count = .ok (start, s')) :
    s.valid_mask.findDisabled count = some start ∧ s' = s.reserveElements start count := by
  unfold allocElements at h
  split at h
  · cases h
  · obtain ⟨rfl, rfl⟩ := Prod.mk.inj (Except.ok.inj h)
    exact ⟨‹_›, rfl⟩

theorem alloc_elements_error :
    s.allocElements count = .error .noStart ↔ s.valid_mask.findDisabled count = none := by
  unfold allocElements
  cases s.valid_mask.findDisabled count with
  | none => exact iff_of_true rfl rfl
  | some start => exact iff_of_false (fun h => nomatch h) (fun h => nomatch h)

theorem Step.ok {s' : AllocState} {c : AllocCall} (h : Step n s c s') (hs : s.Ok n) : s'.Ok n := by
  cases h with
  | alloc _ _ hret =>
    obtain ⟨-, rfl⟩ := alloc_elements_ok hret
    exact hs.reserveElements _ _
  | reserve _ _ => exact hs.reserveElements _ _
  | free _ _ _ => exact hs.freeElements _ _

theorem ok_of_reachable (h : (allocator n).Reachable s) : s.Ok n :=
  h.invariant (fun s hs => by
      obtain rfl : s = init n := hs
      exact ⟨rfl, ElementMask.isSet_new n⟩)
    fun s c s' hs (hstep : Step n s c s') => hstep.ok hs

/-! ### Allocation -/

/-- What is allocated is free, and there is something to allocate if enough elements in a row are
free. -/
def Allocates (n : Nat) (s : AllocState) (count : Nat) : Prop :=
  (∀ start s', s.allocElements count = .ok (start, s') → s.Free n start count) ∧
  ((∃ p, s.Free n p count) → s.allocElements count ≠ .error .noStart)

/-- The position at which the search begins. -/
def searchStart (s : AllocState) : Nat :=
  if 0 < s.valid_mask.first_enabled_elmt then s.valid_mask.first_enabled_elmt.toNat else 0

theorem searchStart_le (s : AllocState) (p : Nat) :
    s.searchStart ≤ p ↔ s.valid_mask.first_enabled_elmt ≤ p := by
  unfold searchStart
  split <;> omega

theorem Ok.free_of_find (h : s.Ok n) {start : Nat}
    (hfind : s.valid_mask.findDisabled count = some start) :
    s.Free n start count ∧ s.valid_mask.first_enabled_elmt ≤ start := by
  obtain ⟨hle, hend, hclear⟩ := ElementMask.findFrom_some _ hfind
  exact ⟨⟨h.num_elements ▸ hend, fun j hj hlt => h.isSet j ▸ hclear j hj hlt⟩,
    (s.searchStart_le start).mp hle⟩

theorem Ok.not_free_of_find (h : s.Ok n) (hcount : 1 ≤ count)
    (hfind : s.valid_mask.findDisabled count = none) {p : Nat}
    (hp : s.valid_mask.first_enabled_elmt ≤ p) :
    ¬ s.Free n p count := by
  rintro ⟨hle, hfree⟩
  obtain ⟨j, hj, hlt, hset⟩ :=
    ElementMask.findFrom_none _ hcount hfind ((s.searchStart_le p).mpr hp)
      (h.num_elements.symm ▸ hle)
  rw [h.isSet j, hfree j hj hlt] at hset
  cases hset

theorem Ok.allocates (h : s.Ok n) (hcount : 1 ≤ count) :
    s.Allocates n count ↔
    ((∃ p, s.Free n p count) → ∃ p : Nat, s.valid_mask.first_enabled_elmt ≤ p ∧
    s.Free n p count) := by
  constructor
  · rintro ⟨-, hstart⟩ hfree
    have hfound := mt alloc_elements_error.mpr (hstart hfree)
    obtain ⟨start, hfind⟩ := Option.ne_none_iff_exists'.mp hfound
    obtain ⟨hfree', hle⟩ := h.free_of_find hfind
    exact ⟨start, hle, hfree'⟩
  · intro hcond
    refine ⟨fun start s' hret => (h.free_of_find (alloc_elements_ok hret).1).1,
      fun hfree herror => ?_⟩
    obtain ⟨p, hp, hfree'⟩ := hcond hfree
    exact h.not_free_of_find hcount (alloc_elements_error.mp herror) hp hfree'

/-- **Free elements are found exactly if enough of them in a row are free behind the first position
at which the mask knows of an element**, or nowhere. -/
theorem allocates_iff {n : Nat} {s : AllocState} (hs : (allocator n).Reachable s) {count : Nat}
    (hcount : 1 ≤ count) :
    s.Allocates n count ↔
      ((∃ p, s.Free n p count) → ∃ p : Nat, s.valid_mask.first_enabled_elmt ≤ p ∧
      s.Free n p count) :=
  (ok_of_reachable hs).allocates hcount

/-- Elements 1 and 2 of four are reserved, and 1 is freed again. -/
def oneFreed : AllocState := (((init 4).reserveElements 0 1).reserveElements 1 2).freeElements 1 1

/-- Element 0 is allocated before the reservation, so that 1 and 3 are what can be found. -/
theorem oneFreed_reachable : (allocator 4).Reachable oneFreed := by
  have hfind : (init 4).valid_mask.findDisabled 1 = some 0 := by
    rw [ElementMask.findDisabled, ElementMask.findFrom, ElementMask.scanRun]
    simp [init, ElementMask.new, ElementMask.isSet]
  have hret : (init 4).allocElements 1 = .ok (0, (init 4).reserveElements 0 1) := by
    rw [allocElements, hfind]
  have halloc : Step 4 (init 4) (.alloc 1) ((init 4).reserveElements 0 1) :=
    Step.alloc (le_refl 1) (by decide) hret
  have hreserve :
    Step 4 ((init 4).reserveElements 0 1) (.reserve 1 2)
      (((init 4).reserveElements 0 1).reserveElements 1 2) :=
    Step.reserve (by decide) ⟨by decide, fun j hle hlt => by
      obtain rfl | rfl : j = 1 ∨ j = 2 := by omega
      all_goals rfl⟩
  refine .step (.step (.step (.init rfl) halloc) hreserve)
    (Step.free (le_refl 1) (by decide) fun j hle hlt => ?_)
  obtain rfl : j = 1 := by omega
  rfl

theorem allocates_freed : oneFreed.Allocates 4 1 := by
  refine (allocates_iff oneFreed_reachable (le_refl 1)).mpr fun _ =>
    ⟨1, by decide, by decide, fun j hle hlt => ?_⟩
  obtain rfl : j = 1 := by omega
  rfl

/-- An element that is used and freed again is not found. -/
theorem not_allocates :
    (allocator 1).Reachable (((init 1).reserveElements 0 1).freeElements 0 1) ∧
      ¬ (((init 1).reserveElements 0 1).freeElements 0 1).Allocates 1 1 := by
  have hreserve : (allocator 1).Reachable ((init 1).reserveElements 0 1) :=
    .step (.init rfl) (Step.reserve (le_refl 1) ⟨by decide, fun _ _ _ => rfl⟩)
  have hfree : (allocator 1).Reachable (((init 1).reserveElements 0 1).freeElements 0 1) :=
    .step hreserve (Step.free (le_refl 1) (by decide) fun j _ hlt => by
      obtain rfl : j = 0 := Nat.lt_one_iff.mp hlt
      rfl)
  refine ⟨hfree, fun halloc => ?_⟩
  obtain ⟨p, hp, hle, -⟩ := ((ok_of_reachable hfree).allocates (le_refl 1)).mp halloc
    ⟨0, by decide, fun j _ hlt => by
      obtain rfl : j = 0 := Nat.lt_one_iff.mp hlt
      rfl⟩
  have hfirst :
    (((init 1).reserveElements 0 1).freeElements 0 1).valid_mask.first_enabled_elmt = 1 := by decide
  omega

end AllocState

end CharmRuntime.Legion
