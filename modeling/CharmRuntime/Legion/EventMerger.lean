import Mathlib.Algebra.Order.Group.Multiset
import CharmRuntime.Lib.Transition

/-!
# Legion.EventMerger

`GenEventImpl::merge_events` and the `EventMerger` that it leaves behind (`lowlevel.cc`): **an event
that triggers when all inputs have**. The merger counts the calls of `event_triggered` that it waits
for, one for each input that it was added to as a waiter and one of `merge_events` itself; the call
that is the last one triggers the event, and its caller deletes the merger.

An input may trigger at any time, also between the check and the registration; then `add_waiter`
makes the call. Whoever triggers an input takes its waiters over and calls them later, so calls are
in progress on several threads. Each step of the threads is one access to the counter, the lists of
waiters or the merger.

`none` is `NO_EVENT`. Other waiters than the merger are left out.
-/

namespace CharmRuntime.Legion.EventMerger

open Lib List Option Multiset

/-- A call of `event_triggered`, with what its caller does next. -/
inductive Call
  /-- Before the decrement. `check_for_catchup` is a caller that does not look at the result. -/
  | entered (deletes : Bool)
  /-- The decrement was the last one, and `trigger_current` is next. -/
  | last (deletes : Bool)
  /-- The result was true, and the caller deletes the merger. -/
  | nuke
deriving DecidableEq, Repr

/-- Where `merge_events` is. -/
inductive Pc (ε : Type)
  | scanning (rest : List (Option ε)) (waitCount : Nat) (firstWait : Option ε)
  | adding (rest : List (Option ε))
  /-- In `add_event`, before the increment. -/
  | counting (e : ε) (rest : List (Option ε))
  /-- Before `add_waiter`. -/
  | enqueuing (e : ε) (rest : List (Option ε))
  /-- In a call that `add_waiter` makes. -/
  | calling (c : Call) (rest : List (Option ε))
  | arming (c : Call)
  /-- An input, or `NO_EVENT`, was returned. -/
  | returned (e : Option ε)
  /-- The event of the merger was returned. -/
  | merged
deriving DecidableEq

/-- The inputs of `merge_events`, as they are scanned and as they are added. -/
structure Inputs (ε : Type) where
  isSet : Bool
  scan : List (Option ε)
  adds : List (Option ε)
  perm : scan.Perm adds

variable {ε : Type}

/-- `merge_events(wait_for)`. -/
def Inputs.ofSet (wait_for : List (Option ε)) : Inputs ε :=
  { isSet := true, scan := wait_for, adds := wait_for, perm := .refl _ }

/-- `merge_events(ev1, ev2, ev3, ev4, ev5, ev6)`. -/
def Inputs.ofEvents (ev1 ev2 ev3 ev4 ev5 ev6 : Option ε) : Inputs ε :=
  { isSet := false
    scan := [ev6, ev5, ev4, ev3, ev2, ev1]
    adds := [ev1, ev2, ev3, ev4, ev5, ev6]
    perm := reverse_perm [ev1, ev2, ev3, ev4, ev5, ev6] }

/-- `waiting` has an event as often as the merger is in its list of waiters, and `finished` counts
the calls of `trigger_current`. -/
structure MergeWorld (ε : Type) where
  pc : Pc ε
  triggered : ε → Bool
  waiting : Multiset ε
  calls : Multiset Call
  countNeeded : Int
  finished : Nat
  deleted : Nat

namespace MergeWorld

def hasTriggered (w : MergeWorld ε) : Option ε → Bool
  | none => true
  | some e => w.triggered e

/-- A step of a call, and the call afterwards. -/
def callStep (w : MergeWorld ε) : Call → MergeWorld ε × Option Call
  | .entered deletes =>
    ({ w with countNeeded := w.countNeeded - 1 }, if w.countNeeded =
    1 then some (.last deletes) else none)
  | .last deletes => ({ w with finished := w.finished + 1 }, if deletes then some .nuke else none)
  | .nuke => ({ w with deleted := w.deleted + 1 }, none)

/-- What `merge_events` does after the scan. -/
def scanned (inp : Inputs ε) (w : MergeWorld ε) (waitCount : Nat) (firstWait : Option ε) :
    MergeWorld ε :=
  if waitCount = 0 then { w with pc := .returned none }
  else if waitCount = 1 then { w with pc := .returned firstWait }
  else { w with pc := .adding inp.adds, countNeeded := 1 }

/-- A step of `merge_events`. -/
def mergeStep (inp : Inputs ε) (w : MergeWorld ε) : Option (MergeWorld ε) :=
  match w.pc with
  | .scanning [] waitCount firstWait => some (w.scanned inp waitCount firstWait)
  | .scanning (e :: rest) waitCount firstWait =>
    if inp.isSet ∧ 2 ≤ waitCount then some (w.scanned inp waitCount firstWait)
    else if w.hasTriggered e then some { w with pc := .scanning rest waitCount firstWait }
    else some { w with pc := .scanning rest (waitCount + 1) (if inp.isSet ∧
      waitCount ≠ 0 then firstWait else e) }
  | .adding [] => some { w with pc := .arming (.entered true) }
  | .adding (none :: rest) => some { w with pc := .adding rest }
  | .adding (some e :: rest) =>
    some { w with pc := if w.triggered e then .adding rest else .counting e rest }
  | .counting e rest => some { w with countNeeded := w.countNeeded + 1, pc := .enqueuing e rest }
  | .enqueuing e rest =>
    if w.triggered e then some { w with pc := .calling (.entered true) rest }
    else some { w with waiting := e ::ₘ w.waiting, pc := .adding rest }
  | .calling c rest =>
    let (w, next) := w.callStep c
    some { w with pc := next.elim (.adding rest) (.calling · rest) }
  | .arming c =>
    let (w, next) := w.callStep c
    some { w with pc := next.elim .merged .arming }
  | .returned _ => none
  | .merged => none

/-- An input triggers: its waiters are taken over by a thread that calls them. -/
def trigger [DecidableEq ε] (w : MergeWorld ε) (e : ε) (deletes : Bool) : MergeWorld ε :=
  { w with
    triggered := Function.update w.triggered e true
    waiting := w.waiting.filter (· ≠ e)
    calls := w.calls + Multiset.replicate (w.waiting.count e) (.entered deletes) }

/-- A step of a call by another thread. -/
def call (w : MergeWorld ε) (c : Call) : MergeWorld ε :=
  let (w, next) := w.callStep c
  { w with calls := w.calls.erase c + next.elim 0 ({·}) }

/-- The start of `merge_events`, with some inputs triggered. -/
def initial (inp : Inputs ε) (triggered : ε → Bool) : MergeWorld ε where
  pc := .scanning inp.scan 0 none
  triggered := triggered
  waiting := 0
  calls := 0
  countNeeded := 0
  finished := 0
  deleted := 0

end MergeWorld

/-- The steps of all threads. -/
inductive MergeEvent (ε : Type)
  | merge
  | trigger (e : ε) (deletes : Bool)
  | call (c : Call)

/-- The runs of one `merge_events`. -/
def merging [DecidableEq ε] (inp : Inputs ε) : Transition (MergeWorld ε) (MergeEvent ε) where
  init w := ∃ triggered, w = .initial inp triggered
  step w a w' :=
    match a with
    | .merge => w.mergeStep inp = some w'
    | .trigger e deletes => w.triggered e = false ∧ w' = w.trigger e deletes
    | .call c => c ∈ w.calls ∧ w' = w.call c

/-! ### What is outstanding -/

/-- The merger has been made. -/
def Pc.hasMerger : Pc ε → Bool
  | .scanning _ _ _ | .returned _ => false
  | _ => true

/-- The calls that `merge_events` is still to make, as far as they are counted. -/
def Pc.owed : Pc ε → Nat
  | .adding _ | .counting _ _ | .calling _ _ => 1
  | .enqueuing _ _ => 2
  | _ => 0

/-- The call that `merge_events` is in. -/
def Pc.ownCall : Pc ε → Multiset Call
  | .calling c _ | .arming c => {c}
  | _ => 0

def Call.isEntered : Call → Bool
  | .entered _ => true
  | _ => false

def Call.isLast : Call → Bool
  | .last _ => true
  | _ => false

namespace MergeWorld

/-- The calls in progress. -/
def allCalls (w : MergeWorld ε) : Multiset Call := w.pc.ownCall + w.calls

/-- The calls that have not been made or have not come to the decrement: those of the waiters, of
the threads and of `merge_events`. -/
def outstanding (w : MergeWorld ε) :
    Nat := w.pc.owed + w.waiting.card + w.allCalls.countP (·.isEntered)

/-- The calls that are about to trigger the event. -/
def triggering (w : MergeWorld ε) : Nat := w.allCalls.countP (·.isLast)

end MergeWorld

/-- **What merging guarantees.** -/
structure MergesExactly (inp : Inputs ε) (w : MergeWorld ε) : Prop where
  /-- With at most one input found not triggered, what is returned has triggered iff all inputs
  have. -/
  early : ∀ r, w.pc = .returned r →
    (w.hasTriggered r = true ↔ ∀ x ∈ inp.adds, w.hasTriggered x = true)
  counted : w.countNeeded = w.outstanding
  nonneg : 0 ≤ w.countNeeded
  /-- The event has been triggered, or is being triggered, once, iff nothing is outstanding. -/
  once : w.finished + w.triggering = if w.pc.hasMerger = true ∧ w.outstanding = 0 then 1 else 0
  never_early : 0 < w.finished → ∀ x ∈ inp.adds, w.hasTriggered x = true
  /-- When all threads are done and all inputs have triggered, the event has. -/
  fires : w.pc = .merged → w.calls = 0 → (∀ x ∈ inp.adds, w.hasTriggered x = true) → w.finished = 1
  deleted_once : w.deleted ≤ 1
  /-- After the last decrement only the call that made it has the merger, and no call has once it is
  deleted. -/
  unused : w.pc.hasMerger = true → w.countNeeded = 0 →
    w.outstanding = 0 ∧ w.allCalls.card ≤ 1 ∧ (0 < w.deleted → w.allCalls = 0)
  /-- Before, it is not deleted. -/
  kept : 0 < w.countNeeded → w.deleted = 0

/-! ### The counter -/

variable (deletes : Bool) {calls : Multiset Call}

@[simp] theorem isEntered_entered : (Call.entered deletes).isEntered = true := rfl
@[simp] theorem isEntered_last : (Call.last deletes).isEntered = false := rfl
@[simp] theorem isEntered_nuke : Call.nuke.isEntered = false := rfl
@[simp] theorem isLast_entered : (Call.entered deletes).isLast = false := rfl
@[simp] theorem isLast_last : (Call.last deletes).isLast = true := rfl
@[simp] theorem isLast_nuke : Call.nuke.isLast = false := rfl

/-- The counter and the calls, with `owed` and `waiting` calls that have not been made. -/
structure Tally (owed waiting : Nat) (calls : Multiset Call) (count : Int)
    (finished deleted : Nat) : Prop where
  counted : count = (owed + waiting + calls.countP (·.isEntered) : Nat)
  once : finished + calls.countP (·.isLast) = 1 ∧ count = 0 ∨ finished + calls.countP (·.isLast) =
    0 ∧ 0 < count
  nuked : deleted + calls.count .nuke ≤ finished

theorem countP_call (p : Call → Bool) (c : Call) (calls : Multiset Call) :
    (c ::ₘ calls).countP (fun c => p c) = calls.countP (fun c => p c) + (p c).toNat := by
  rw [Multiset.countP_cons]
  cases p c <;> rfl

theorem Tally.enter {owed waiting : Nat} {count : Int} {finished deleted : Nat}
    (h : Tally (owed + 1) waiting calls count finished deleted) (deletes : Bool) :
    Tally owed waiting (.entered deletes ::ₘ calls) count finished deleted := by
  obtain ⟨hcounted, honce, hnuked⟩ := h
  refine ⟨?_, ?_, ?_⟩
  · rw [countP_call, isEntered_entered, Bool.toNat_true]
    omega
  · rwa [countP_call, isLast_entered]
  · rwa [Multiset.count_cons_of_ne (by simp)]

/-- **A step of a call**: the last decrement makes it the one that triggers the event. -/
theorem Tally.callStep {w : MergeWorld ε} {owed waiting : Nat} {c : Call}
    (h : Tally owed waiting (c ::ₘ calls) w.countNeeded w.finished w.deleted) :
    Tally owed waiting ((w.callStep c).2.elim 0 ({·}) + calls) (w.callStep c).1.countNeeded
      (w.callStep c).1.finished
      (w.callStep c).1.deleted := by
  obtain ⟨hcounted, honce, hnuked⟩ := h
  rw [countP_call] at hcounted honce
  rw [Multiset.count_cons] at hnuked
  unfold MergeWorld.callStep
  cases c with
  | entered deletes =>
    simp only [isEntered_entered, isLast_entered, Bool.toNat_true, Bool.toNat_false, reduceCtorEq,
      if_false] at hcounted honce hnuked
    dsimp only
    by_cases hone : w.countNeeded = 1
    · rw [if_pos hone, elim_some, singleton_add]
      refine ⟨?_, ?_, ?_⟩
      · rw [countP_call, isEntered_last, Bool.toNat_false]
        omega
      · rw [countP_call, isLast_last, Bool.toNat_true]
        omega
      · rw [Multiset.count_cons_of_ne (by simp)]
        omega
    · rw [if_neg hone, elim_none, zero_add]
      exact ⟨by omega, by omega, by omega⟩
  | last deletes =>
    simp only [isEntered_last, isLast_last, Bool.toNat_true, Bool.toNat_false, reduceCtorEq,
      if_false, false_and, or_false] at hcounted honce hnuked
    dsimp only
    cases deletes with
    | true =>
      rw [if_pos rfl, elim_some, singleton_add]
      refine ⟨?_, ?_, ?_⟩
      · rwa [countP_call, isEntered_nuke, Bool.toNat_false]
      · rw [countP_call, isLast_nuke, Bool.toNat_false]
        omega
      · rw [Multiset.count_cons_self]
        omega
    | false =>
      rw [if_neg Bool.false_ne_true, elim_none, zero_add]
      exact ⟨hcounted, by omega, by omega⟩
  | nuke =>
    simp only [isLast_nuke, Bool.toNat_false, if_true] at hcounted honce hnuked
    dsimp only
    rw [elim_none, zero_add]
    exact ⟨hcounted, honce, by omega⟩

/-! ### The invariant -/

/-- What `merge_events` has still to look at, or to add. -/
def Pc.Covers : Pc ε → Option ε → Prop
  | .scanning rest waitCount firstWait, x =>
    x ∈ rest ∨ (waitCount = 1 ∧ x = firstWait) ∨ 2 ≤ waitCount
  | .adding rest, x | .calling _ rest, x => x ∈ rest
  | .counting e rest, x | .enqueuing e rest, x => x = some e ∨ x ∈ rest
  | .returned e, x => x = e
  | .arming _, _ | .merged, _ => False

/-- What `merge_events` remembers are inputs. -/
def Pc.Remembers (inp : Inputs ε) : Pc ε → Prop
  | .scanning rest waitCount firstWait =>
    (∀ x ∈ rest, x ∈ inp.adds) ∧ (waitCount = 1 → firstWait ∈ inp.adds)
  | .adding rest | .calling _ rest => ∀ x ∈ rest, x ∈ inp.adds
  | .counting e rest | .enqueuing e rest => some e ∈ inp.adds ∧ ∀ x ∈ rest, x ∈ inp.adds
  | .returned e => e = none ∨ e ∈ inp.adds
  | .arming _ | .merged => True

structure MergeInv (inp : Inputs ε) (w : MergeWorld ε) : Prop where
  tally : w.pc.hasMerger = true →
    Tally w.pc.owed w.waiting.card w.allCalls w.countNeeded w.finished w.deleted
  idle : w.pc.hasMerger = false → w.waiting = 0 ∧ w.calls = 0 ∧ w.countNeeded = 0 ∧ w.finished = 0 ∧
    w.deleted = 0
  waits : ∀ e ∈ w.waiting, some e ∈ inp.adds ∧ w.triggered e = false
  inputs : ∀ x ∈ inp.adds, w.hasTriggered x = true ∨ (∃ e ∈ w.waiting, x = some e) ∨ w.pc.Covers x
  remembers : w.pc.Remembers inp

namespace MergeInv

variable {inp : Inputs ε} {w w' : MergeWorld ε}

theorem initial (inp : Inputs ε) (triggered : ε → Bool) :
    MergeInv inp (.initial inp triggered) where
  tally h := absurd h Bool.false_ne_true
  idle _ := ⟨rfl, rfl, rfl, rfl, rfl⟩
  waits e he := absurd he (notMem_zero e)
  inputs x hx := .inr (.inr (.inl (inp.perm.mem_iff.mpr hx)))
  remembers := ⟨fun x hx => inp.perm.mem_iff.mp hx, fun h => absurd h (by decide)⟩

theorem triggered_of_outstanding (h : MergeInv inp w) (hmerger : w.pc.hasMerger = true)
    (hzero : w.outstanding = 0) :
    ∀ x ∈ inp.adds, w.hasTriggered x = true := by
  have hsum : w.pc.owed + w.waiting.card + w.allCalls.countP (·.isEntered) = 0 := hzero
  intro x hx
  obtain hx | ⟨e, he, -⟩ | hcovers := h.inputs x hx
  · exact hx
  · exact absurd (card_pos_iff_exists_mem.mpr ⟨e, he⟩) (by omega)
  · have howed : w.pc.owed = 0 := by omega
    generalize w.pc = pc at hmerger howed hcovers
    cases pc with
    | arming _ | merged => exact absurd hcovers id
    | scanning _ _ _ | returned _ => cases hmerger
    | adding _ | counting _ _ | enqueuing _ _ | calling _ _ => cases howed

theorem card_calls (calls : Multiset Call) :
    calls.card = calls.countP (·.isEntered) + calls.countP (·.isLast) + calls.count .nuke := by
  induction calls using Multiset.induction_on with
  | empty => rfl
  | cons c calls ih =>
    rw [card_cons, Multiset.countP_cons, Multiset.countP_cons, Multiset.count_cons]
    cases c <;> simp <;> omega

theorem returned (h : MergeInv inp w) {r : Option ε} (hr : w.pc = .returned r) :
    w.hasTriggered r = true ↔ ∀ x ∈ inp.adds, w.hasTriggered x = true := by
  have hinputs := h.inputs
  have hremembers := h.remembers
  obtain ⟨hwaiting, -⟩ := h.idle (by rw [hr]; rfl)
  rw [hr] at hinputs hremembers
  constructor
  · intro htriggered x hx
    obtain hx | ⟨e, he, -⟩ | rfl := hinputs x hx
    · exact hx
    · rw [hwaiting] at he
      exact absurd he (notMem_zero e)
    · exact htriggered
  · intro hall
    obtain rfl | hmem := hremembers
    · rfl
    · exact hall r hmem

theorem merges (h : MergeInv inp w) : MergesExactly inp w := by
  have hcard := card_calls w.allCalls
  cases hmerger : w.pc.hasMerger with
  | false =>
    -- without a merger there is nothing to count
    obtain ⟨hwaiting, hcalls, hcount, hfinished, hdeleted⟩ := h.idle hmerger
    have hpc : w.pc.owed = 0 ∧ w.pc.ownCall = 0 := by
      generalize w.pc = pc at hmerger
      cases pc <;> first | exact ⟨rfl, rfl⟩ | cases hmerger
    have hall : w.allCalls = 0 := by
      unfold MergeWorld.allCalls
      rw [hpc.2, hcalls, add_zero]
    refine
      { early := fun r hr => h.returned hr, counted := ?_, nonneg := hcount.ge, once := ?_,
        never_early := fun hpos => by omega,
        fires := fun hmerged => ?_, deleted_once := by
          omega, unused := fun htrue => ?_, kept := fun hpos => by omega }
    · unfold MergeWorld.outstanding
      rw [hcount, hpc.1, hwaiting, hall]
      rfl
    · unfold MergeWorld.triggering
      rw [if_neg (by rw [hmerger]; simp), hall, hfinished]
      rfl
    · rw [hmerged] at hmerger
      cases hmerger
    · rw [hmerger] at htrue
      cases htrue
  | true =>
    obtain ⟨hcounted, honce, hnuked⟩ := h.tally hmerger
    have hcounted : w.countNeeded = w.outstanding := hcounted
    have htriggering : w.triggering = w.allCalls.countP (·.isLast) := rfl
    have honce' :
      w.finished + w.triggering = if w.pc.hasMerger = true ∧ w.outstanding = 0 then 1 else 0 := by
      by_cases hzero : w.outstanding = 0
      · rw [if_pos ⟨hmerger, hzero⟩]
        omega
      · rw [if_neg fun h => hzero h.2]
        omega
    refine
      { early := fun r hr => h.returned hr, counted := hcounted, nonneg := by omega, once := honce',
        never_early := fun hpos => ?_,
        fires := fun hpc hcalls hall => ?_, deleted_once := by
          omega, unused := fun _ hzero => ?_, kept := fun hpos => ?_ }
    · exact h.triggered_of_outstanding hmerger (by omega)
    · have hwaiting : w.waiting = 0 := by
        refine eq_zero_of_forall_notMem fun e he => ?_
        obtain ⟨hmem, hfalse⟩ := h.waits e he
        exact Bool.false_ne_true (hfalse.symm.trans (hall _ hmem))
      have hnone : w.allCalls = 0 := by
        unfold MergeWorld.allCalls
        rw [hpc, hcalls]
        rfl
      have hzero : w.outstanding = 0 := by
        unfold MergeWorld.outstanding
        rw [hnone, hwaiting, hpc]
        rfl
      rw [hnone] at honce
      simp only [countP_zero] at honce
      omega
    · exact ⟨by omega, by omega, fun hpos => card_eq_zero.mp (by omega)⟩
    · omega

/-! ### The steps -/

theorem hasTriggered_callStep (w : MergeWorld ε) (c : Call) :
    (w.callStep c).1.triggered = w.triggered ∧ (w.callStep c).1.waiting = w.waiting ∧
    (w.callStep c).1.calls = w.calls ∧
      (w.callStep c).1.pc = w.pc := by
  cases c <;> exact ⟨rfl, rfl, rfl, rfl⟩

theorem call (h : MergeInv inp w) {c : Call} (hc : c ∈ w.calls) : MergeInv inp (w.call c) := by
  obtain ⟨rest, hrest⟩ := exists_cons_of_mem hc
  obtain ⟨htriggered, hwaiting, hcalls, hpc⟩ := hasTriggered_callStep w c
  have hmerger : w.pc.hasMerger = true := by
    by_contra hnone
    obtain ⟨-, hempty, -⟩ := h.idle (Bool.eq_false_iff.mpr hnone)
    rw [hempty] at hc
    exact notMem_zero c hc
  have htally := h.tally hmerger
  unfold MergeWorld.allCalls at htally
  rw [hrest, add_cons] at htally
  have hstep := htally.callStep
  unfold MergeWorld.call
  dsimp only
  refine ⟨fun _ => ?_, fun hnone => ?_, ?_, ?_, ?_⟩
  · unfold MergeWorld.allCalls
    rw [hpc, hwaiting, hcalls, hrest, Multiset.erase_cons_head, add_comm rest, ← add_assoc,
      add_comm w.pc.ownCall, add_assoc]
    exact hstep
  · rw [hpc, hmerger] at hnone
    cases hnone
  · rw [htriggered, hwaiting]
    exact h.waits
  · intro x hx
    have hx := h.inputs x hx
    rw [hwaiting, hpc]
    cases x with
    | none => exact .inl rfl
    | some e => simpa only [MergeWorld.hasTriggered, htriggered] using hx
  · rw [hpc]
    exact h.remembers

theorem trigger [DecidableEq ε] (h : MergeInv inp w) (e : ε) (deletes : Bool) :
    MergeInv inp (w.trigger e deletes) where
  tally hmerger := by
    obtain ⟨hcounted, honce, hnuked⟩ := h.tally hmerger
    have hsplit := congrArg card (filter_add_not (· ≠ e) w.waiting)
    have hcount : (w.waiting.filter fun e' => ¬ e' ≠ e).card = w.waiting.count e := by
      rw [count_eq_card_filter_eq]
      simp only [not_not, eq_comm]
    rw [card_add] at hsplit
    have hcalls :
      (w.trigger e deletes).allCalls = w.allCalls + Multiset.replicate (w.waiting.count e)
        (.entered deletes) :=
      (add_assoc _ _ _).symm
    have hadded (p : Call → Bool) : (w.trigger e deletes).allCalls.countP (fun c => p c) =
        w.allCalls.countP (fun c => p c) + if p (.entered deletes) then w.waiting.count
          e else 0 := by
      rw [hcalls, countP_add, ← coe_replicate, coe_countP, countP_replicate]
      simp
    refine ⟨?_, ?_, ?_⟩
    · rw [hadded, isEntered_entered, if_pos rfl]
      change w.countNeeded = (w.pc.owed + (w.waiting.filter (· ≠ e)).card + _ : Nat)
      omega
    · rw [hadded, isLast_entered]
      exact honce
    · rw [hcalls, count_add, Multiset.count_replicate]
      exact hnuked
  idle hmerger := by
    obtain ⟨hwaiting, hcalls, hrest⟩ := h.idle hmerger
    refine ⟨?_, ?_, hrest⟩
    · change w.waiting.filter _ = 0
      rw [hwaiting, filter_zero]
    · change w.calls + Multiset.replicate (w.waiting.count e) _ = 0
      rw [hwaiting, hcalls, count_zero, Multiset.replicate_zero, add_zero]
  waits e' he' := by
    obtain ⟨hmem, hne⟩ := mem_filter.mp he'
    refine ⟨(h.waits e' hmem).1, ?_⟩
    change Function.update w.triggered e true e' = false
    rw [Function.update_of_ne hne]
    exact (h.waits e' hmem).2
  inputs x hx := by
    have hmono (x : Option ε) (hx : w.hasTriggered x = true) :
      (w.trigger e deletes).hasTriggered x = true := by
      cases x with
      | none => rfl
      | some e' =>
        change Function.update w.triggered e true e' = true
        rw [Function.update_apply]
        split
        · rfl
        · exact hx
    obtain hx | ⟨e', he', rfl⟩ | hcovers := h.inputs x hx
    · exact .inl (hmono x hx)
    · by_cases heq : e' = e
      · subst heq
        exact .inl (show Function.update w.triggered e' true e' =
          true from Function.update_self _ _ _)
      · exact .inr (.inl ⟨e', mem_filter.mpr ⟨he', heq⟩, rfl⟩)
    · exact .inr (.inr hcovers)
  remembers := h.remembers

variable {pc : Pc ε}

/-- What a step within `merge_events` keeps if it moves on to `pc` and does nothing to the merger.
-/
theorem of_pc (h : MergeInv inp w) (hmerger : pc.hasMerger = w.pc.hasMerger)
    (howed : pc.owed = w.pc.owed)
    (hown : pc.ownCall = w.pc.ownCall)
    (hcovers : ∀ x ∈ inp.adds, w.pc.Covers x → w.hasTriggered x = true ∨ pc.Covers x)
    (hremembers : pc.Remembers inp) :
    MergeInv inp { w with pc } where
  tally htrue := by
    have htally := h.tally (hmerger ▸ htrue)
    unfold MergeWorld.allCalls at htally ⊢
    rwa [howed, hown]
  idle hnone := h.idle (hmerger ▸ hnone)
  waits := h.waits
  inputs x hx := by
    obtain htriggered | hwaits | hold := h.inputs x hx
    · exact .inl htriggered
    · exact .inr (.inl hwaits)
    · exact (hcovers x hx hold).imp id .inr
  remembers := hremembers

theorem entering (h : MergeInv inp w) {old : Pc ε} (hold : w.pc = old)
    (hpc : pc.hasMerger = old.hasMerger ∧ old.owed = pc.owed + 1 ∧
      pc.ownCall = .entered true ::ₘ old.ownCall)
    (hinputs : ∀ x ∈ inp.adds, w.hasTriggered x = true ∨ (∃ e ∈ w.waiting, x = some e) ∨
      pc.Covers x)
    (hremembers : pc.Remembers inp) : MergeInv inp { w with pc } where
  tally htrue := by
    have htally := h.tally (by rwa [hold, ← hpc.1])
    unfold MergeWorld.allCalls at htally ⊢
    rw [hold, hpc.2.1] at htally
    rw [hpc.2.2, cons_add]
    exact htally.enter true
  idle hnone := h.idle (by rwa [hold, ← hpc.1])
  waits := h.waits
  inputs := hinputs
  remembers := hremembers

/-- A step of a call that `merge_events` is in. -/
theorem ownCall (h : MergeInv inp w) {c : Call} {next : Call → Pc ε} (hown : w.pc.ownCall = {c})
    (hmerger : w.pc.hasMerger = true)
    (hpc : pc.hasMerger = true ∧ pc.owed = w.pc.owed ∧ pc.ownCall = 0)
    (hnext : ∀ c, (next c).hasMerger = true ∧ (next c).owed = w.pc.owed ∧ (next c).ownCall = {c})
    (hcovers : ∀ x, w.pc.Covers x → pc.Covers x ∧ ∀ c, (next c).Covers x)
    (hremembers : pc.Remembers inp ∧ ∀ c, (next c).Remembers inp) :
    MergeInv inp { (w.callStep c).1 with pc := (w.callStep c).2.elim pc next } := by
  obtain ⟨htriggered, hwaiting, hcalls, -⟩ := hasTriggered_callStep w c
  have htally := h.tally hmerger
  unfold MergeWorld.allCalls at htally
  rw [hown] at htally
  have hstep := htally.callStep
  have hthere : ∀ next' : Option Call, (next'.elim pc next).hasMerger = true ∧
    (next'.elim pc next).owed = w.pc.owed ∧
      (next'.elim pc next).ownCall = next'.elim 0 ({·}) ∧
      (∀ x, w.pc.Covers x → (next'.elim pc next).Covers x) ∧
      (next'.elim pc next).Remembers inp
    | none => ⟨hpc.1, hpc.2.1, hpc.2.2, fun x hx => (hcovers x hx).1, hremembers.1⟩
    | some c =>
      ⟨(hnext c).1, (hnext c).2.1, (hnext c).2.2, fun x hx => (hcovers x hx).2 c, hremembers.2 c⟩
  obtain ⟨hmerger', howed, hown', hcovers', hremembers'⟩ := hthere (w.callStep c).2
  refine ⟨fun _ => ?_, fun hnone => ?_, ?_, fun x hx => ?_, hremembers'⟩
  · unfold MergeWorld.allCalls
    rw [howed, hown', hwaiting, hcalls]
    exact hstep
  · rw [hmerger'] at hnone
    cases hnone
  · rw [hwaiting, htriggered]
    exact h.waits
  · rw [hwaiting]
    obtain hx | hwaits | hold := h.inputs x hx
    · refine .inl ?_
      cases x with
      | none => rfl
      | some e => exact (congrFun htriggered e).trans hx
    · exact .inr (.inl hwaits)
    · exact .inr (.inr (hcovers' x hold))

theorem scanned (h : MergeInv inp w) {rest : List (Option ε)} {waitCount : Nat}
    {firstWait : Option ε}
    (hpc : w.pc = .scanning rest waitCount firstWait) (hrest : rest = [] ∨ 2 ≤ waitCount) :
    MergeInv inp (w.scanned inp waitCount firstWait) := by
  have hremembers := h.remembers
  obtain ⟨hwaiting, hcalls, -, hfinished, hdeleted⟩ := h.idle (by rw [hpc]; rfl)
  rw [hpc] at hremembers
  unfold MergeWorld.scanned
  by_cases hzero : waitCount = 0
  · rw [if_pos hzero]
    refine h.of_pc (by rw [hpc]; rfl) (by rw [hpc]; rfl) (by rw [hpc]; rfl)
      (fun x _ hx => ?_) (.inl rfl)
    rw [hpc] at hx
    obtain hx | ⟨hone, -⟩ | htwo := hx
    · obtain rfl | htwo := hrest
      · exact absurd hx not_mem_nil
      · omega
    · omega
    · omega
  · rw [if_neg hzero]
    by_cases hone : waitCount = 1
    · rw [if_pos hone]
      refine h.of_pc (by rw [hpc]; rfl) (by rw [hpc]; rfl) (by rw [hpc]; rfl) (fun x _ hx => ?_)
        (.inr (hremembers.2 hone))
      rw [hpc] at hx
      obtain hx | ⟨-, rfl⟩ | htwo := hx
      · obtain rfl | htwo := hrest
        · exact absurd hx not_mem_nil
        · omega
      · exact .inr rfl
      · omega
    · rw [if_neg hone]
      refine ⟨fun _ => ?_, fun hnone => ?_, h.waits, fun x hx => .inr (.inr hx), fun x hx => hx⟩
      · rw [hwaiting, hcalls, hfinished, hdeleted]
        exact ⟨rfl, .inr ⟨rfl, one_pos⟩, le_refl 0⟩
      · cases hnone

/-- **A step of `merge_events` keeps the invariant.** -/
theorem mergeStep (h : MergeInv inp w) (hstep : w.mergeStep inp = some w') : MergeInv inp w' := by
  have hremembers := h.remembers
  have hinputs := h.inputs
  unfold MergeWorld.mergeStep at hstep
  split at hstep
  · next waitCount firstWait hpc =>
      obtain rfl := some.inj hstep
      exact h.scanned hpc (.inl rfl)
  · next e rest waitCount firstWait hpc =>
      rw [hpc] at hremembers
      obtain ⟨hscan, hfirst⟩ := hremembers
      obtain ⟨he, hscan⟩ := forall_mem_cons.mp hscan
      split at hstep
      · next htwo =>
          obtain rfl := some.inj hstep
          exact h.scanned hpc (.inr htwo.2)
      · next hnot =>
          split at hstep
          · next htriggered =>
              obtain rfl := some.inj hstep
              refine h.of_pc (by rw [hpc]; rfl) (by rw [hpc]; rfl) (by rw [hpc]; rfl)
                (fun x _ hx => ?_) ⟨hscan, hfirst⟩
              rw [hpc] at hx
              obtain hx | hx := hx
              · obtain rfl | hx := mem_cons.mp hx
                · exact .inl htriggered
                · exact .inr (.inl hx)
              · exact .inr (.inr hx)
          · obtain rfl := some.inj hstep
            refine h.of_pc (by rw [hpc]; rfl) (by rw [hpc]; rfl) (by rw [hpc]; rfl)
              (fun x _ hx => ?_) ⟨hscan, fun hone => ?_⟩
            · rw [hpc] at hx
              obtain hx | ⟨hone, -⟩ | htwo := hx
              · obtain rfl | hx := mem_cons.mp hx
                · obtain rfl | hpos := Nat.eq_zero_or_pos waitCount
                  · exact .inr (.inr (.inl ⟨rfl, by rw [if_neg (by simp)]⟩))
                  · exact .inr (.inr (.inr (by omega)))
                · exact .inr (.inl hx)
              · exact .inr (.inr (.inr (by omega)))
              · exact .inr (.inr (.inr (by omega)))
            · rw [if_neg (by omega)]
              exact he
  · next hpc =>
      rw [hpc] at hinputs
      obtain rfl := some.inj hstep
      exact h.entering hpc ⟨rfl, rfl, rfl⟩
        (fun x hx => (hinputs x hx).imp id (Or.imp id fun hmem => absurd hmem not_mem_nil)) trivial
  · next rest hpc =>
      rw [hpc] at hremembers
      obtain rfl := some.inj hstep
      refine h.of_pc (by rw [hpc]; rfl) (by rw [hpc]; rfl) (by rw [hpc]; rfl) (fun x _ hx => ?_)
        (forall_mem_cons.mp hremembers).2
      rw [hpc] at hx
      obtain rfl | hx := mem_cons.mp hx
      · exact .inl rfl
      · exact .inr hx
  · next e rest hpc =>
      rw [hpc] at hremembers
      obtain ⟨he, hrest⟩ := forall_mem_cons.mp hremembers
      obtain rfl := some.inj hstep
      split
      · next htriggered =>
          refine h.of_pc (by rw [hpc]; rfl) (by rw [hpc]; rfl) (by rw [hpc]; rfl)
            (fun x _ hx => ?_) hrest
          rw [hpc] at hx
          obtain rfl | hx := mem_cons.mp hx
          · exact .inl htriggered
          · exact .inr hx
      · refine h.of_pc (by rw [hpc]; rfl) (by rw [hpc]; rfl) (by rw [hpc]; rfl)
          (fun x _ hx => ?_) ⟨he, hrest⟩
        rw [hpc] at hx
        exact .inr (mem_cons.mp hx)
  · next e rest hpc =>
      rw [hpc] at hinputs hremembers
      obtain ⟨hcounted, honce, hnuked⟩ := h.tally (by rw [hpc]; rfl)
      obtain rfl := some.inj hstep
      have howed : w.pc.owed = 1 := by rw [hpc]; rfl
      have hcalls :
        (MergeWorld.allCalls { w with countNeeded := w.countNeeded + 1, pc := .enqueuing e rest }) =
        w.allCalls := by
        unfold MergeWorld.allCalls
        rw [hpc]
        rfl
      refine ⟨fun _ => ?_, (fun hnone => by cases hnone), h.waits, hinputs, hremembers⟩
      rw [hcalls]
      refine ⟨?_, ?_, hnuked⟩
      · change w.countNeeded + 1 = (2 + w.waiting.card + _ : Nat)
        omega
      · exact .inr ⟨show w.finished + w.allCalls.countP (·.isLast) = 0 by omega, show 0 <
          w.countNeeded + 1 by omega⟩
  · next e rest hpc =>
      rw [hpc] at hinputs hremembers
      obtain ⟨he, hrest⟩ := hremembers
      split at hstep
      · next htriggered =>
          obtain rfl := some.inj hstep
          refine h.entering hpc ⟨rfl, rfl, rfl⟩ (fun x hx => ?_) hrest
          obtain hx | hwaits | rfl | hx := hinputs x hx
          · exact .inl hx
          · exact .inr (.inl hwaits)
          · exact .inl htriggered
          · exact .inr (.inr hx)
      · next hfalse =>
          obtain rfl := some.inj hstep
          obtain ⟨hcounted, honce, hnuked⟩ := h.tally (by rw [hpc]; rfl)
          refine ⟨fun _ => ?_, (fun hnone => by cases hnone), ?_, fun x hx => ?_, hrest⟩
          · unfold MergeWorld.allCalls at *
            rw [hpc] at hcounted honce hnuked
            refine ⟨?_, honce, hnuked⟩
            rw [card_cons, hcounted]
            rw [add_comm w.waiting.card 1, ← add_assoc]
            rfl
          · exact forall_mem_cons.mpr ⟨⟨he, Bool.eq_false_iff.mpr hfalse⟩, h.waits⟩
          · obtain hx | ⟨e', he', rfl⟩ | rfl | hx := hinputs x hx
            · exact .inl hx
            · exact .inr (.inl ⟨e', mem_cons_of_mem he', rfl⟩)
            · exact .inr (.inl ⟨e, mem_cons_self e _, rfl⟩)
            · exact .inr (.inr hx)
  · next c rest hpc =>
      rw [hpc] at hremembers
      obtain rfl := some.inj hstep
      exact h.ownCall (by rw [hpc]; rfl) (by rw [hpc]; rfl) (by rw [hpc]; exact ⟨rfl, rfl, rfl⟩)
        (by rw [hpc]; exact fun _ => ⟨rfl, rfl, rfl⟩)
          (by rw [hpc]; exact fun _ hx => ⟨hx, fun _ => hx⟩)
        ⟨hremembers, fun _ => hremembers⟩
  · next c hpc =>
      obtain rfl := some.inj hstep
      exact h.ownCall (by rw [hpc]; rfl) (by rw [hpc]; rfl) (by rw [hpc]; exact ⟨rfl, rfl, rfl⟩)
        (by rw [hpc]; exact fun _ => ⟨rfl, rfl, rfl⟩) (by rw [hpc]; exact fun _ hx => absurd hx id)
          ⟨trivial, fun _ => trivial⟩
  · cases hstep
  · cases hstep

end MergeInv

/-- **Merged events trigger exactly when all inputs have**, in every run of `merge_events` and the
triggers. -/
theorem merges_exactly [DecidableEq ε] (inp : Inputs ε) {w : MergeWorld ε}
    (h : (merging inp).Reachable w) : MergesExactly inp w :=
  (h.invariant (I := MergeInv inp)
    (fun w hw => by
      obtain ⟨triggered, rfl⟩ := hw
      exact .initial inp triggered)
    fun w a w' hw hstep => by
      cases a with
      | merge => exact hw.mergeStep hstep
      | trigger e deletes =>
        obtain ⟨-, rfl⟩ := hstep
        exact hw.trigger e deletes
      | call c =>
        obtain ⟨hc, rfl⟩ := hstep
        exact hw.call hc).merges

theorem reachable_merge_iterate [DecidableEq ε] {inp : Inputs ε} {w w' : MergeWorld ε} (n : Nat)
    (h : (merging inp).Reachable w)
    (hrun : (· >>= MergeWorld.mergeStep inp)^[n] (some w) = some w') :
    (merging inp).Reachable w' := by
  induction n generalizing w' with
  | zero => exact some.inj hrun ▸ h
  | succ n ih =>
    rw [Function.iterate_succ_apply'] at hrun
    obtain ⟨v, hv, hstep⟩ := bind_eq_some_iff.mp hrun
    exact (ih hv).step (e := .merge) hstep

/-- Two of six events have not triggered. One of them does between the check and the registration,
so that `add_waiter` makes the call; the other one does after the return, and the thread that
triggers it makes the last call and deletes the merger. -/
theorem merges_exactly_two : ∃ w : MergeWorld Nat,
    MergesExactly (.ofEvents (some 1) (some 2) none (some 3) none none) w ∧
      w.pc = .merged ∧ w.calls = 0 ∧ w.finished = 1 ∧ w.deleted = 1 := by
  let inp : Inputs Nat := .ofEvents (some 1) (some 2) none (some 3) none none
  let checked : MergeWorld Nat := { MergeWorld.initial inp fun e => e = 3 with
    pc := .counting 1 [some 2, none, some 3, none, none], countNeeded := 1 }
  let merged :
    MergeWorld Nat :=
      { checked.trigger 1 true with pc := .merged, waiting := {2}, countNeeded := 1 }
  let taken := merged.trigger 2 true
  have hchecked : (merging inp).Reachable checked :=
    reachable_merge_iterate 8 (.init ⟨fun e => e = 3, rfl⟩) rfl
  have htriggered : (merging inp).Reachable (checked.trigger 1 true) :=
    hchecked.step (e := .trigger 1 true) ⟨rfl, rfl⟩
  have hmerged : (merging inp).Reachable merged := reachable_merge_iterate 12 htriggered rfl
  have htaken : (merging inp).Reachable taken := hmerged.step (e := .trigger 2 true) ⟨rfl, rfl⟩
  have hcall {w : MergeWorld Nat} {c : Call} (h : (merging inp).Reachable w) (hc : c ∈ w.calls) :
      (merging inp).Reachable (w.call c) := h.step (e := .call c) ⟨hc, rfl⟩
  have hcalled :=
    hcall (c := .nuke)
      (hcall (c := .last true) (hcall (c := .entered true) htaken (by decide)) (by decide))
    (by decide)
  exact ⟨_, merges_exactly inp hcalled, rfl, rfl, rfl, rfl⟩

/-- A set of events of which one has not triggered: it is returned. -/
example : ((· >>= MergeWorld.mergeStep (.ofSet [some 1, some 2]))^[3]
    (some (.initial (.ofSet [some 1, some 2]) fun e => e = 1))).map (·.pc) =
    some (.returned (some 2)) := rfl

end CharmRuntime.Legion.EventMerger
