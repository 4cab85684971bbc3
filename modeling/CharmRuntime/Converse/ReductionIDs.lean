import CharmRuntime.Converse.Reduce
import CharmRuntime.Lib.Transition

/-!
# Converse.ReductionIDs

The **identifiers of Converse reductions** (`conv-core/convcore.c`): three counters of
16 bits that advance by three, one for each class, from `0`, `1` and `2`.

`CmiGetNextReduction` sets its counter back before it wraps. The other two wrap, and
`2^16` is not a multiple of three: after the wrap they hand out identifiers of the
other classes. `classes_iff` counts the calls that a run may have.
-/

namespace CharmRuntime.Converse

open Lib List

/-- `CmiReductionID_globalOffset`. -/
def globalOffset : Nat := 0

/-- `CmiReductionID_requestOffset`. -/
def requestOffset : Nat := 1

/-- `CmiReductionID_dynamicOffset`. -/
def dynamicOffset : Nat := 2

/-- The counters of a processor, `_reduce_seqID_request` and `_reduce_seqID_dynamic`,
beside its table, which has `_reduce_seqID_global`. -/
structure ReductionIDs (δ : Type) where
  table : ReduceTable δ
  seqIDRequest : Nat
  seqIDDynamic : Nat

/-- The abort of a call on another processor than zero. -/
inductive DynamicAbort
  | notOnPeZero
  deriving Repr, DecidableEq

namespace ReductionIDs

variable {δ : Type}

/-- `CmiReductionsInit`. -/
def init : ReductionIDs δ :=
  { table := { info := fun _ => none, seqIDGlobal := globalOffset }
    seqIDRequest := requestOffset
    seqIDDynamic := dynamicOffset }

/-- `CmiGetNextReduction`. -/
def getNextReduction (numChildren : Int) (s : ReductionIDs δ) :
    Except ReduceAbort (CmiReduction δ × ReductionIDs δ) := do
  let id := s.table.seqIDGlobal
  let table := { s.table with seqIDGlobal := nextSeqID id }
  let red ← getReductionCreate id numChildren table
  .ok (red, { s with table := table.store red })

/-- `+= CmiReductionID_multiplier` on a `CmiUInt2`. -/
def addMultiplier (id : Nat) : Nat := (id + reductionIDMultiplier) % 65536

/-- `CmiGetGlobalReduction`. -/
def getGlobalReduction (s : ReductionIDs δ) : Nat × ReductionIDs δ :=
  (addMultiplier s.seqIDRequest, { s with seqIDRequest := addMultiplier s.seqIDRequest })

/-- `CmiGetDynamicReduction`. -/
def getDynamicReduction (myPe : Nat) (s : ReductionIDs δ) :
    Except DynamicAbort (Nat × ReductionIDs δ) :=
  if myPe ≠ 0 then .error .notOnPeZero
  else .ok (addMultiplier s.seqIDDynamic, { s with seqIDDynamic := addMultiplier s.seqIDDynamic })

end ReductionIDs

/-! ### Runs -/

/-- A call with the identifier that it handed out. In between, structures are cleared
from the table, and messages of children put some there. -/
inductive IDCall (δ : Type)
  | next (numChildren : Int) (id : Nat)
  | global (id : Nat)
  | dynamic (id : Nat)
  | clear (id : Nat)
  | store (red : CmiReduction δ)

/-- The calls on processor `myPe`. -/
def idSystem (δ : Type) (myPe : Nat) : Transition (ReductionIDs δ) (IDCall δ) where
  init s := s = ReductionIDs.init
  step s c s' :=
    match c with
    | .next numChildren id => ∃ red, s.getNextReduction numChildren = .ok (red, s') ∧ red.seqID = id
    | .global id => s.getGlobalReduction = (id, s')
    | .dynamic id => s.getDynamicReduction myPe = .ok (id, s')
    | .clear id => s' = { s with table := s.table.clearReduction id }
    | .store red => s' = { s with table := s.table.store red }

namespace IDCall

variable {δ : Type}

/-- The class of a call, and the identifier. -/
def handed : IDCall δ → Option (Nat × Nat)
  | .next _ id => some (globalOffset, id)
  | .global id => some (requestOffset, id)
  | .dynamic id => some (dynamicOffset, id)
  | .clear _ => none
  | .store _ => none

/-- How many identifiers of a class were handed out. -/
def number (offset : Nat) (l : List (IDCall δ)) : Nat := (l.filterMap handed).countP (·.1 = offset)

end IDCall

/-- Every identifier has the remainder of its class, and those of different classes differ. -/
structure Classes {δ : Type} (l : List (IDCall δ)) : Prop where
  remainder : ∀ p ∈ l.filterMap IDCall.handed, p.2 % 3 = p.1
  differ : ∀ p ∈ l.filterMap IDCall.handed, ∀ p' ∈ l.filterMap IDCall.handed, p.1 ≠ p'.1 →
    p.2 ≠ p'.2

/-! ### The counters -/

namespace IDCall

variable {δ : Type}

/-- The `k`-th number of a counter that wraps. -/
def advanced (offset k : Nat) : Nat := (offset + 3 * k) % 65536

theorem addMultiplier_advanced (offset k : Nat) :
    ReductionIDs.addMultiplier (advanced offset k) = advanced offset (k + 1) := by
  rw [ReductionIDs.addMultiplier, advanced, Nat.mod_add_mod]
  rfl

/-- A counter that wraps, and what it handed out in a run. -/
structure Counted (l : List (IDCall δ)) (offset counter : Nat) : Prop where
  counter : counter = advanced offset (number offset l)
  handed : ∀ id, (offset, id) ∈ l.filterMap handed ↔ ∃ k, 1 ≤ k ∧ k ≤ number offset l ∧
    id = advanced offset k

variable {l : List (IDCall δ)} {offset counter : Nat} {c : IDCall δ}

theorem Counted.nil (hoffset : offset < 65536) : Counted ([] : List (IDCall δ)) offset offset where
  counter := (Nat.mod_eq_of_lt hoffset).symm
  handed id := by
    simp only [filterMap_nil, not_mem_nil, false_iff, not_exists]
    intro k ⟨hpos, hk, _⟩
    exact absurd (Nat.lt_of_lt_of_le hpos hk) (Nat.lt_irrefl 0)

theorem filterMap_concat (l : List (IDCall δ)) (c : IDCall δ) :
    (l ++ [c]).filterMap handed = l.filterMap handed ++ c.handed.toList := by
  cases h : c.handed with
  | none => simp [h]
  | some p => simp [h]

theorem Counted.other (h : Counted l offset counter) (hc : ∀ p ∈ c.handed, p.1 ≠ offset) :
    Counted (l ++ [c]) offset counter := by
  have hnumber : number offset (l ++ [c]) = number offset l := by
    rw [number, filterMap_concat, countP_append]
    cases hcls : c.handed with
    | none => rfl
    | some p => simp [number, hc p hcls]
  constructor
  · rw [hnumber]
    exact h.counter
  · intro id
    rw [hnumber, filterMap_concat, mem_append, ← h.handed id]
    refine or_iff_left fun hmem => ?_
    exact hc _ (Option.mem_toList.mp hmem) rfl

theorem Counted.own (h : Counted l offset counter)
    (hc : c.handed = some (offset, ReductionIDs.addMultiplier counter)) :
    Counted (l ++ [c]) offset (ReductionIDs.addMultiplier counter) := by
  have hnumber : number offset (l ++ [c]) = number offset l + 1 := by
    rw [number, filterMap_concat, hc]
    simp [number]
  have hnext : ReductionIDs.addMultiplier counter = advanced offset (number offset l + 1) := by
    rw [h.counter]
    exact addMultiplier_advanced offset _
  constructor
  · rw [hnumber]
    exact hnext
  · intro id
    rw [hnumber, filterMap_concat, mem_append, h.handed id, hc, hnext]
    simp only [Option.toList_some, mem_singleton, Prod.mk.injEq, true_and]
    constructor
    · intro hid
      cases hid with
      | inl hold =>
        obtain ⟨k, hpos, hk, hid⟩ := hold
        exact ⟨k, hpos, Nat.le_succ_of_le hk, hid⟩
      | inr hnew => exact ⟨_, Nat.succ_pos _, Nat.le_refl _, hnew⟩
    · intro ⟨k, hpos, hk, hid⟩
      cases Nat.lt_or_eq_of_le hk with
      | inl hlt => exact .inl ⟨k, hpos, Nat.le_of_lt_succ hlt, hid⟩
      | inr heq => exact .inr (heq ▸ hid)

theorem Counted.remainder_iff (h : Counted l offset counter) (hoffset : offset = 1 ∨ offset = 2) :
    (∀ id, (offset, id) ∈ l.filterMap IDCall.handed → id % 3 = offset) ↔
    number offset l ≤ 21844 := by
  constructor
  · intro hall
    by_contra hlt
    -- the first number behind the wrap is `offset - 1`
    have hwrap := hall _ ((h.handed _).mpr ⟨21845, by decide, by omega, rfl⟩)
    cases hoffset with
    | inl hone =>
      subst hone
      exact absurd hwrap (by decide)
    | inr htwo =>
      subst htwo
      exact absurd hwrap (by decide)
  · intro _ id hid
    obtain ⟨k, -, hk, rfl⟩ := (h.handed id).mp hid
    have hlt : offset + 3 * k < 65536 := by omega
    rw [advanced, Nat.mod_eq_of_lt hlt]
    omega

end IDCall

/-! ### Runs -/

variable {δ : Type} {myPe : Nat}

variable {numChildren : Int} {red : CmiReduction δ} {s s' : ReductionIDs δ} {l : List (IDCall δ)}
  {c : IDCall δ}

theorem getReductionCreate_seqID {id : Nat} {t : ReduceTable δ}
    (h : getReductionCreate id numChildren t = .ok red) : red.seqID = id := by
  have hmalloc : ∀ {n received : Int} {old : List (Option δ)} {red : CmiReduction δ},
      mallocReduction id n received old = .ok red → red.seqID = id := by
    intro n received old red hred
    unfold mallocReduction at hred
    generalize (if n = 0 then 4 else n) = slots at hred
    by_cases hneg : slots < 0
    · rw [if_pos hneg] at hred
      cases hred
    · rw [if_neg hneg] at hred
      cases hred
      rfl
  unfold getReductionCreate at h
  split at h
  · exact hmalloc h
  · split at h
    · cases h
    · next hid =>
        split at h
        · split at h
          · cases h
          · exact hmalloc h
        · cases h
          exact not_not.mp hid

theorem getNextReduction_spec (h : s.getNextReduction numChildren = .ok (red, s')) :
    red.seqID = s.table.seqIDGlobal ∧ s'.table.seqIDGlobal = nextSeqID s.table.seqIDGlobal ∧
      s'.seqIDRequest = s.seqIDRequest ∧ s'.seqIDDynamic = s.seqIDDynamic := by
  simp only [ReductionIDs.getNextReduction, bind, Except.bind] at h
  split at h
  · cases h
  · next hred =>
      cases h
      exact ⟨getReductionCreate_seqID hred, rfl, rfl, rfl⟩

/-- What the counters are after the calls of a run. -/
structure Counters (l : List (IDCall δ)) (s : ReductionIDs δ) : Prop where
  global : s.table.seqIDGlobal % 3 = 0
  next : ∀ id, (globalOffset, id) ∈ l.filterMap IDCall.handed → id % 3 = 0
  request : IDCall.Counted l requestOffset s.seqIDRequest
  dynamic : IDCall.Counted l dynamicOffset s.seqIDDynamic
  offset : ∀ p ∈ l.filterMap IDCall.handed, p.1 = globalOffset ∨ p.1 = requestOffset ∨
    p.1 = dynamicOffset

theorem nextSeqID_mod {id : Nat} (h : id % 3 = 0) : nextSeqID id % 3 = 0 := by
  unfold nextSeqID reductionIDMultiplier
  split
  · rfl
  · next hle =>
      have hlt : id + 3 < 65536 := by omega
      rw [Nat.mod_eq_of_lt hlt]
      omega

theorem counters_init : Counters ([] : List (IDCall δ)) ReductionIDs.init where
  global := rfl
  next := by simp
  request := .nil (by decide)
  dynamic := .nil (by decide)
  offset := by simp

theorem offsets_ne : globalOffset ≠ requestOffset ∧ globalOffset ≠ dynamicOffset ∧
    requestOffset ≠ dynamicOffset := by
  decide

theorem Counters.quiet (h : Counters l s)
    (hc : c.handed = none) (hglobal : s'.table.seqIDGlobal = s.table.seqIDGlobal)
    (hrequest : s'.seqIDRequest = s.seqIDRequest) (hdynamic : s'.seqIDDynamic = s.seqIDDynamic) :
    Counters (l ++ [c]) s' := by
  have hsame : (l ++ [c]).filterMap IDCall.handed = l.filterMap IDCall.handed := by
    rw [IDCall.filterMap_concat, hc]
    exact append_nil _
  have hnone : ∀ {offset : Nat}, ∀ p ∈ c.handed, p.1 ≠ offset := fun p hp => by
    rw [hc] at hp
    cases hp
  constructor
  · rw [hglobal]
    exact h.global
  · rw [hsame]
    exact h.next
  · rw [hrequest]
    exact h.request.other hnone
  · rw [hdynamic]
    exact h.dynamic.other hnone
  · rw [hsame]
    exact h.offset

/-- A call advances the counter of its own class. -/
theorem Counters.step (h : Counters l s) (hs : (idSystem δ myPe).step s c s') :
    Counters (l ++ [c]) s' := by
  have hoffset : ∀ {p : Nat × Nat}, c.handed = some p → p.1 = globalOffset ∨ p.1 = requestOffset ∨
    p.1 = dynamicOffset →
      ∀ q ∈ (l ++ [c]).filterMap IDCall.handed, q.1 = globalOffset ∨ q.1 = requestOffset ∨
      q.1 = dynamicOffset := by
    intro p hc hp q hq
    rw [IDCall.filterMap_concat, hc, mem_append] at hq
    cases hq with
    | inl hold => exact h.offset q hold
    | inr hnew => exact mem_singleton.mp hnew ▸ hp
  have hnext : ∀ {p : Nat × Nat}, c.handed = some p → p.1 ≠ globalOffset →
      ∀ id, (globalOffset, id) ∈ (l ++ [c]).filterMap IDCall.handed → id % 3 = 0 := by
    intro p hc hp id hid
    rw [IDCall.filterMap_concat, hc, mem_append] at hid
    cases hid with
    | inl hold => exact h.next id hold
    | inr hnew => exact absurd (congrArg Prod.fst (mem_singleton.mp hnew)).symm hp
  cases c with
  | next numChildren id =>
    obtain ⟨red, hred, hid⟩ := hs
    obtain ⟨hseq, hglobal, hrequest, hdynamic⟩ := getNextReduction_spec hred
    have hmod : id % 3 = 0 := by
      rw [← hid, hseq]
      exact h.global
    refine ⟨?_, ?_, ?_, ?_, hoffset rfl (.inl rfl)⟩
    · rw [hglobal]
      exact nextSeqID_mod h.global
    · intro id' hid'
      rw [IDCall.filterMap_concat, mem_append] at hid'
      cases hid' with
      | inl hold => exact h.next id' hold
      | inr hnew =>
        obtain rfl : id' = id := congrArg Prod.snd (mem_singleton.mp hnew)
        exact hmod
    · rw [hrequest]
      exact h.request.other fun p hp => by cases hp; exact offsets_ne.1
    · rw [hdynamic]
      exact h.dynamic.other fun p hp => by cases hp; exact offsets_ne.2.1
  | global id =>
    cases hs
    refine ⟨h.global, hnext rfl offsets_ne.1.symm, h.request.own rfl, ?_,
      hoffset rfl (.inr (.inl rfl))⟩
    exact h.dynamic.other fun p hp => by cases hp; exact offsets_ne.2.2
  | dynamic id =>
    change s.getDynamicReduction myPe = .ok (id, s') at hs
    unfold ReductionIDs.getDynamicReduction at hs
    split at hs
    · cases hs
    · cases hs
      refine ⟨h.global, hnext rfl offsets_ne.2.1.symm, ?_, h.dynamic.own rfl,
        hoffset rfl (.inr (.inr rfl))⟩
      exact h.request.other fun p hp => by cases hp; exact offsets_ne.2.2.symm
  | clear id =>
    cases hs
    exact h.quiet rfl rfl rfl rfl
  | store red =>
    cases hs
    exact h.quiet rfl rfl rfl rfl

theorem counters_of_trace (h : (idSystem δ myPe).Trace l s) :
    Counters l s := by
  induction h with
  | init h0 =>
    cases h0
    exact counters_init
  | step _ hs ih => exact ih.step hs

/-- **The classes stay apart** if and only if a run has at most 21844 calls of
`CmiGetGlobalReduction` and at most 21844 of `CmiGetDynamicReduction`. -/
theorem classes_iff {l : List (IDCall δ)} {s : ReductionIDs δ} (h : (idSystem δ myPe).Trace l s) :
    Classes l ↔ IDCall.number requestOffset l ≤ 21844 ∧ IDCall.number dynamicOffset l ≤ 21844 := by
  have hcounters := counters_of_trace h
  rw [← hcounters.request.remainder_iff (.inl rfl), ← hcounters.dynamic.remainder_iff (.inr rfl)]
  constructor
  · intro hcls
    exact ⟨fun id hid => hcls.remainder _ hid, fun id hid => hcls.remainder _ hid⟩
  · intro ⟨hrequest, hdynamic⟩
    have hrem : ∀ p ∈ l.filterMap IDCall.handed, p.2 % 3 = p.1 := by
      intro p hp
      obtain ⟨offset, id⟩ := p
      obtain rfl | rfl | rfl := hcounters.offset _ hp
      · exact hcounters.next id hp
      · exact hrequest id hp
      · exact hdynamic id hp
    refine ⟨hrem, fun p hp p' hp' hne heq => hne ?_⟩
    rw [← hrem p hp, ← hrem p' hp', heq]

/-- One call of each class. -/
def threeCalls : List (IDCall Unit) := [.next 0 0, .global 4, .dynamic 5]

theorem classes_threeCalls : Classes threeCalls := by
  have hnext : (idSystem Unit 0).Trace [IDCall.next 0 0] _ := .step (.init rfl) ⟨_, rfl, rfl⟩
  have hglobal : (idSystem Unit 0).Trace [IDCall.next 0 0, IDCall.global 4] _ :=
    .step hnext rfl
  have hdynamic : (idSystem Unit 0).Trace threeCalls _ :=
    .step hglobal rfl
  exact (classes_iff hdynamic).mpr (by decide)

/-- `k` calls of `CmiGetGlobalReduction`. -/
def globalCalls (k : Nat) : List (IDCall Unit) :=
  (List.range k).map fun j => .global (IDCall.advanced requestOffset (j + 1))

theorem globalCalls_trace (k : Nat) :
    ∃ s, (idSystem Unit 0).Trace (globalCalls k) s ∧
    s.seqIDRequest = IDCall.advanced requestOffset k := by
  induction k with
  | zero => exact ⟨_, .init rfl, rfl⟩
  | succ k ih =>
    obtain ⟨s, htrace, hrequest⟩ := ih
    have hcall :
      globalCalls (k + 1) = globalCalls k ++
      [.global (ReductionIDs.addMultiplier s.seqIDRequest)] := by
      rw [globalCalls, range_succ, map_append, hrequest, IDCall.addMultiplier_advanced]
      rfl
    rw [hcall]
    refine ⟨_, .step htrace rfl, ?_⟩
    rw [← IDCall.addMultiplier_advanced, ← hrequest]

/-- The 21845th identifier of `CmiGetGlobalReduction` is `0`, the first of `CmiGetNextReduction`. -/
theorem not_classes_globalCalls :
    ∃ s, (idSystem Unit 0).Trace (globalCalls 21845) s ∧ .global 0 ∈ globalCalls 21845 ∧
    ¬ Classes (globalCalls 21845) := by
  obtain ⟨s, htrace, -⟩ := globalCalls_trace 21845
  have hmem : .global 0 ∈ globalCalls 21845 := mem_map.mpr ⟨21844, mem_range.mpr (by decide), rfl⟩
  refine ⟨s, htrace, hmem, fun hcls => ?_⟩
  have hrem := hcls.remainder (requestOffset, 0) (mem_filterMap.mpr ⟨_, hmem, rfl⟩)
  exact absurd hrem (by decide)

end CharmRuntime.Converse
