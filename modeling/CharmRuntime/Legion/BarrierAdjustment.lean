import CharmRuntime.Lib.OrderedMap
import Mathlib.Algebra.BigOperators.Group.List.Basic
import Mathlib.Data.BitVec
import Mathlib.Data.List.TakeWhile

/-!
# Legion.BarrierAdjustment

`BarrierImpl::Generation::handle_adjustment` of the low-level runtime, with timestamps. An
increase of the arrival count carries the time of its node; an arrival carries the time
of the increase it has to wait for. Per node only the timestamp of the increase handled
last is kept, and an arrival with a later one is pending.

`last_ts` is not set when a `PerNodeUpdates` is allocated: `garbage` is what the memory
holds. A timestamp is a natural number here, with the node in the bits from
`BARRIER_TIMESTAMP_NODEID_SHIFT` on. Deltas are 32-bit words.
-/

namespace CharmRuntime.Legion.BarrierAdjustment

open Lib List

/-- `BARRIER_TIMESTAMP_NODEID_SHIFT`. -/
def nodeidShift : Nat := 48

/-- The node of a timestamp. -/
def nodeOf (ts : Nat) : Nat := ts >>> nodeidShift

/-- `PerNodeUpdates`. -/
structure PerNodeUpdates where
  lastTs : Nat
  pending : OrderedMap Nat (BitVec 32)

/-- `BarrierImpl::Generation`, without its waiters. -/
structure Generation where
  unguardedDelta : BitVec 32
  pernode : OrderedMap Nat PerNodeUpdates

/-- The arrivals that a call adds to `unguarded_delta`, as it logs them. -/
abbrev Applied := List (Nat × BitVec 32)

/-- The deltas that are pending. -/
def PerNodeUpdates.held (pn : PerNodeUpdates) : BitVec 32 := (pn.pending.map (·.2)).sum

namespace Generation

/-- The constructor. -/
def new : Generation where
  unguardedDelta := 0
  pernode := []

/-- The updates of a node, freshly allocated if there are none. -/
def updates (garbage : Nat → Nat) (node : Nat) (g : Generation) : PerNodeUpdates :=
  (g.pernode.find node).getD { lastTs := garbage node, pending := [] }

/-- `handle_adjustment`. -/
def handleAdjustment (garbage : Nat → Nat) (ts : Nat) (delta : BitVec 32) (g : Generation) :
    Generation × Applied :=
  if ts = 0 then ({ g with unguardedDelta := g.unguardedDelta + delta }, [])
  else
    let node := nodeOf ts
    let pn := g.updates garbage node
    if 0 < delta.toInt then
      let now := pn.pending.takeWhile (·.1 ≤ ts)
      let later := pn.pending.dropWhile (·.1 ≤ ts)
      ({ unguardedDelta := g.unguardedDelta + delta + (now.map (·.2)).sum
         pernode := g.pernode.upsert node fun _ => { lastTs := ts, pending := later } }, now)
    else if ts ≤ pn.lastTs then
      ({ unguardedDelta := g.unguardedDelta + delta
         pernode := g.pernode.upsert node fun _ => pn }, [(ts, delta)])
    else
      ({ g with
         pernode := g.pernode.upsert node fun _ =>
           { pn with pending := pn.pending.upsert ts fun d => d.getD 0 + delta } }, [])

end Generation

/-- A call of `handle_adjustment`. -/
structure Adjustment where
  ts : Nat
  delta : BitVec 32
deriving DecidableEq, Repr

/-- An increase; an arrival otherwise. -/
def Adjustment.Increase (a : Adjustment) : Prop := 0 < a.delta.toInt

instance (a : Adjustment) : Decidable a.Increase := inferInstanceAs (Decidable (0 < a.delta.toInt))

/-- The increase that an arrival with timestamp `ts` waits for. -/
def Adjustment.IncreaseOf (ts : Nat) (a : Adjustment) : Prop := a.Increase ∧ a.ts = ts

instance (ts : Nat) (a : Adjustment) : Decidable (a.IncreaseOf ts) :=
  inferInstanceAs (Decidable (_ ∧ _))

/-- An increase of the node of `ts` that is not before `ts`: it releases the arrivals that
wait for `ts`. -/
def Adjustment.Releases (ts : Nat) (a : Adjustment) :
    Prop := a.Increase ∧ nodeOf a.ts = nodeOf ts ∧ ts ≤ a.ts

instance (ts : Nat) (a : Adjustment) : Decidable (a.Releases ts) :=
  inferInstanceAs (Decidable (_ ∧ _ ∧ _))

/-- One call, with the arrivals applied so far. -/
def handle (garbage : Nat → Nat) (s : Generation × Applied) (a : Adjustment) :
    Generation × Applied :=
  let (g, now) := s.1.handleAdjustment garbage a.ts a.delta
  (g, s.2 ++ now)

/-- The adjustments of one generation, in the order in which they are handed over. -/
def run (garbage : Nat → Nat) (as : List Adjustment) : Generation × Applied :=
  as.foldl (handle garbage) (.new, [])

/-- What `last_ts` holds for a node after these adjustments: the timestamp of its last
increase, and before the first one what was in memory. -/
def remembered (garbage : Nat → Nat) (node : Nat) (as : List Adjustment) : Nat :=
  as.foldl (fun last a => if a.Increase ∧ nodeOf a.ts = node then a.ts else last) (garbage node)

/-! ### The property and its condition -/

/-- The increases among the adjustments handled. -/
def increases (handled : List Adjustment) :
    BitVec 32 := ((handled.filter fun a => a.Increase).map (·.delta)).sum

/-- At every moment `unguarded_delta` consists of the increases handled and of arrivals whose
increase is one of them. -/
def NoneEarly (garbage : Nat → Nat) (as : List Adjustment) : Prop :=
  ∀ handled, handled <+: as →
    (run garbage handled).1.unguardedDelta = increases handled +
    ((run garbage handled).2.map (·.2)).sum ∧
      ∀ x ∈ (run garbage handled).2, ∃ b ∈ handled, b.IncreaseOf x.1

/-- At the end everything has been added, and nothing is pending. -/
def Settled (garbage : Nat → Nat) (as : List Adjustment) : Prop :=
  (run garbage as).1.unguardedDelta = (as.map (·.delta)).sum ∧
    ∀ e ∈ (run garbage as).1.pernode, e.2.pending = []

/-- The orders that one timestamp per node can cope with. -/
structure InTime (garbage : Nat → Nat) (as : List Adjustment) : Prop where
  /-- An arrival handed over before its increase finds a smaller timestamp, and no increase of
  the node in between has a larger one. -/
  before : ∀ xs a ys, as = xs ++ a :: ys → ¬ a.Increase → (∀ b ∈ xs, ¬ b.IncreaseOf a.ts) →
    remembered garbage (nodeOf a.ts) xs < a.ts ∧
      ∀ b ∈ ys.takeWhile (fun b => ¬ b.IncreaseOf a.ts), ¬ b.Releases a.ts
  /-- An arrival handed over after its increase does not find a smaller timestamp, or a later
  increase releases it. -/
  after : ∀ xs a ys, as = xs ++ a :: ys → ¬ a.Increase → (∃ b ∈ xs, b.IncreaseOf a.ts) →
    a.ts ≤ remembered garbage (nodeOf a.ts) xs ∨ ∃ b ∈ ys, b.Releases a.ts

/-! ### What a run has applied and what it has deferred -/

section Runs

variable {garbage : Nat → Nat} {xs : List Adjustment} {x : Adjustment} {t : Nat}

theorem run_concat : run garbage (xs ++ [x]) = handle garbage (run garbage xs) x := by
  simp only [run, foldl_append, foldl_cons, foldl_nil]

theorem remembered_concat {node : Nat} : remembered garbage node (xs ++ [x]) =
    if x.Increase ∧ nodeOf x.ts = node then x.ts else remembered garbage node xs := by
  simp only [remembered, foldl_append, foldl_cons, foldl_nil]

theorem sum_delta_concat : ((xs ++ [x]).map (·.delta)).sum = (xs.map (·.delta)).sum + x.delta := by
  simp

/-- An arrival with timestamp `t` that found a smaller timestamp and was not released. -/
def Deferred (garbage : Nat → Nat) (xs : List Adjustment) (t : Nat) : Prop :=
  ∃ us a vs, xs = us ++ a :: vs ∧ ¬ a.Increase ∧ a.ts = t ∧ remembered garbage (nodeOf t) us < t ∧
    ∀ b ∈ vs, ¬ b.Releases t

/-- An arrival with timestamp `t` that did not, or was. -/
def Counted (garbage : Nat → Nat) (xs : List Adjustment) (t : Nat) : Prop :=
  ∃ us a vs, xs = us ++ a :: vs ∧ ¬ a.Increase ∧ a.ts = t ∧
    (t ≤ remembered garbage (nodeOf t) us ∨ ∃ b ∈ vs, b.Releases t)

theorem split_concat {us vs : List Adjustment} {a : Adjustment} (h : xs ++ [x] = us ++ a :: vs) :
    (us = xs ∧ a = x ∧ vs = []) ∨ ∃ vs', vs = vs' ++ [x] ∧ xs = us ++ a :: vs' := by
  obtain rfl | ⟨vs', b, rfl⟩ := vs.eq_nil_or_concat
  · obtain ⟨rfl, hx⟩ := append_inj' h rfl
    exact .inl ⟨rfl, (head_eq_of_cons_eq hx).symm, rfl⟩
  · rw [concat_eq_append, ← cons_append, ← append_assoc] at h
    obtain ⟨rfl, hx⟩ := append_inj' h rfl
    exact .inr ⟨vs', by rw [concat_eq_append, head_eq_of_cons_eq hx], rfl⟩

theorem deferred_concat : Deferred garbage (xs ++ [x]) t ↔
    (¬ x.Increase ∧ x.ts = t ∧ remembered garbage (nodeOf t) xs < t) ∨
      (Deferred garbage xs t ∧ ¬ x.Releases t) := by
  constructor
  · rintro ⟨us, a, vs, h, ha, hts, hlast, hnone⟩
    obtain ⟨rfl, rfl, rfl⟩ | ⟨vs, rfl, rfl⟩ := split_concat h
    · exact .inl ⟨ha, hts, hlast⟩
    · refine .inr ⟨⟨us, a, vs, rfl, ha, hts, hlast, fun b hb => hnone b (mem_append_left _ hb)⟩, ?_⟩
      exact hnone x (mem_append_right _ (mem_singleton_self x))
  · rintro (⟨hx, hts, hlast⟩ | ⟨⟨us, a, vs, rfl, ha, hts, hlast, hnone⟩, hx⟩)
    · exact ⟨xs, x, [], rfl, hx, hts, hlast, fun b hb => absurd hb not_mem_nil⟩
    · refine ⟨us, a, vs ++ [x], by simp, ha, hts, hlast, fun b hb => ?_⟩
      obtain hb | hb := mem_append.mp hb
      · exact hnone b hb
      · rwa [mem_singleton.mp hb]

theorem counted_concat : Counted garbage (xs ++ [x]) t ↔
    (¬ x.Increase ∧ x.ts = t ∧ t ≤ remembered garbage (nodeOf t) xs) ∨ Counted garbage xs t ∨
      (Deferred garbage xs t ∧ x.Releases t) := by
  constructor
  · rintro ⟨us, a, vs, h, ha, hts, hreleased⟩
    obtain ⟨rfl, rfl, rfl⟩ | ⟨vs, rfl, rfl⟩ := split_concat h
    · exact .inl ⟨ha, hts, hreleased.resolve_right fun ⟨b, hb, _⟩ => absurd hb not_mem_nil⟩
    · refine .inr ?_
      by_cases hbefore : t ≤ remembered garbage (nodeOf t) us ∨ ∃ b ∈ vs, b.Releases t
      · exact .inl ⟨us, a, vs, rfl, ha, hts, hbefore⟩
      · have hbefore' := not_or.mp hbefore
        have hnone : ∀ b ∈ vs, ¬ b.Releases t := fun b hb hr => hbefore'.2 ⟨b, hb, hr⟩
        obtain hlast | ⟨b, hb, hr⟩ := hreleased
        · exact absurd hlast hbefore'.1
        · refine .inr ⟨⟨us, a, vs, rfl, ha, hts, Nat.lt_of_not_le hbefore'.1, hnone⟩, ?_⟩
          obtain hb | hb := mem_append.mp hb
          · exact absurd hr (hnone b hb)
          · rwa [← mem_singleton.mp hb]
  · rintro (⟨hx, hts, hlast⟩ | ⟨us, a, vs, rfl, ha, hts,
      hreleased⟩ | ⟨⟨us, a, vs, rfl, ha, hts, -, -⟩, hx⟩)
    · exact ⟨xs, x, [], rfl, hx, hts, .inl hlast⟩
    · refine ⟨us, a, vs ++ [x], by simp, ha, hts, hreleased.imp_right ?_⟩
      rintro ⟨b, hb, hr⟩
      exact ⟨b, mem_append_left _ hb, hr⟩
    · exact ⟨us, a, vs ++ [x], by simp, ha, hts,
        .inr ⟨x, mem_append_right _ (mem_singleton_self x), hx⟩⟩

/-- What the state says about the adjustments handed over. -/
structure Tracks (garbage : Nat → Nat) (xs : List Adjustment) (s : Generation × Applied) :
    Prop where
  nodes : s.1.pernode.Ascending
  times : ∀ node, (s.1.updates garbage node).pending.Ascending
  home : ∀ node, ∀ d ∈ (s.1.updates garbage node).pending, nodeOf d.1 = node
  lastTs : ∀ node, (s.1.updates garbage node).lastTs = remembered garbage node xs
  pending : ∀ t, (∃ d ∈ (s.1.updates garbage (nodeOf t)).pending, d.1 = t) ↔ Deferred garbage xs t
  applied : ∀ t, (∃ d ∈ s.2, d.1 = t) ↔ Counted garbage xs t
  balance : s.1.unguardedDelta + (s.1.pernode.map fun e => e.2.held).sum = (xs.map (·.delta)).sum

namespace Tracks

variable {s : Generation × Applied}

theorem new : Tracks garbage [] (.new, []) where
  nodes := Pairwise.nil
  times _ := Pairwise.nil
  home _ _ hd := absurd hd not_mem_nil
  lastTs _ := rfl
  pending t := by
    constructor
    · rintro ⟨d, hd, -⟩
      exact absurd hd not_mem_nil
    · rintro ⟨us, a, vs, h, -⟩
      exact absurd h.symm (by simp)
  applied t := by
    constructor
    · rintro ⟨d, hd, -⟩
      exact absurd hd not_mem_nil
    · rintro ⟨us, a, vs, h, -⟩
      exact absurd h.symm (by simp)
  balance := rfl

theorem updates_store (h : s.1.pernode.Ascending) (delta : BitVec 32) (node k : Nat)
    (pn : PerNodeUpdates) :
    Generation.updates garbage k
      { unguardedDelta := delta, pernode := OrderedMap.upsert node (fun _ => pn) s.1.pernode } =
      if k = node then pn else s.1.updates garbage k := by
  unfold Generation.updates
  rw [OrderedMap.find_upsert h]
  split <;> rfl

theorem held_store (garbage : Nat → Nat) (h : s.1.pernode.Ascending) (node : Nat)
    (pn : PerNodeUpdates) :
    ((s.1.pernode.upsert node fun _ => pn).map fun e => e.2.held).sum +
    (s.1.updates garbage node).held =
      (s.1.pernode.map fun e => e.2.held).sum + pn.held := by
  have hheld :
    (s.1.updates garbage node).held = (s.1.pernode.find node).elim 0 PerNodeUpdates.held := by
    unfold Generation.updates
    cases s.1.pernode.find node <;> rfl
  rw [hheld]
  exact OrderedMap.sum_upsert PerNodeUpdates.held h

theorem held_later {pn : PerNodeUpdates} {ts : Nat} {delta : BitVec 32} (h : pn.pending.Ascending) :
    PerNodeUpdates.held { pn with pending := pn.pending.upsert ts fun d => d.getD 0 + delta } =
    pn.held + delta := by
  have hsum :
    (map (·.2) (pn.pending.upsert ts fun d => d.getD 0 + delta)).sum +
    (pn.pending.find ts).elim 0 id =
      (pn.pending.map (·.2)).sum + ((pn.pending.find ts).getD 0 + delta) :=
      OrderedMap.sum_upsert id h
  have helim : (pn.pending.find ts).elim 0 id = (pn.pending.find ts).getD 0 := by
    cases pn.pending.find ts <;> rfl
  rw [helim, add_comm ((pn.pending.find ts).getD 0) delta, ← add_assoc] at hsum
  exact add_right_cancel hsum

/-- An adjustment that raises the count. -/
theorem increase (h : Tracks garbage xs s) (hts : x.ts ≠ 0) (hx : x.Increase) :
    Tracks garbage (xs ++ [x]) (handle garbage s x) := by
  have hhandle : handle garbage s x =
      ({ unguardedDelta := s.1.unguardedDelta + x.delta +
           (((s.1.updates garbage (nodeOf x.ts)).pending.takeWhile (·.1 ≤ x.ts)).map (·.2)).sum
         pernode := s.1.pernode.upsert (nodeOf x.ts) fun _ =>
           { lastTs := x.ts
             pending := (s.1.updates garbage (nodeOf x.ts)).pending.dropWhile (·.1 ≤ x.ts) } },
       s.2 ++ (s.1.updates garbage (nodeOf x.ts)).pending.takeWhile (·.1 ≤ x.ts)) := by
    simp only [handle, Generation.handleAdjustment, if_neg hts,
      if_pos (show 0 < x.delta.toInt from hx)]
  have htimes := h.times (nodeOf x.ts)
  rw [hhandle]
  refine ⟨h.nodes.upsert, fun node => ?_, fun node => ?_, fun node => ?_, fun t => ?_,
    fun t => ?_, ?_⟩
  · simp only [updates_store h.nodes]
    split
    exacts [htimes.dropWhile, h.times node]
  · simp only [updates_store h.nodes]
    split
    · rename_i hnode
      intro d hd
      rw [hnode]
      exact h.home _ d (htimes.mem_dropWhile.mp hd).1
    · exact h.home node
  · simp only [updates_store h.nodes, remembered_concat, hx, true_and, eq_comm (a := node)]
    split
    exacts [rfl, h.lastTs node]
  · rw [deferred_concat, ← h.pending t, updates_store h.nodes]
    simp only [hx, not_true_eq_false, false_and, false_or, Adjustment.Releases, true_and]
    split
    · rename_i hnode
      rw [hnode]
      constructor
      · rintro ⟨d, hd, rfl⟩
        obtain ⟨hd, hlt⟩ := htimes.mem_dropWhile.mp hd
        exact ⟨⟨d, hd, rfl⟩, fun hr => absurd hr.2 (Nat.not_le_of_lt hlt)⟩
      · rintro ⟨⟨d, hd, rfl⟩, hr⟩
        exact ⟨d, htimes.mem_dropWhile.mpr ⟨hd, Nat.lt_of_not_le fun hle => hr ⟨rfl, hle⟩⟩, rfl⟩
    · rename_i hnode
      refine ⟨fun hd => ⟨hd, fun hr => hnode hr.1.symm⟩, And.left⟩
  · rw [counted_concat, ← h.applied t, ← h.pending t]
    simp only [hx, not_true_eq_false, false_and, false_or, Adjustment.Releases,
      true_and, mem_append]
    constructor
    · rintro ⟨d, hd | hd, rfl⟩
      · exact .inl ⟨d, hd, rfl⟩
      · obtain ⟨hd, hle⟩ := htimes.mem_takeWhile.mp hd
        have hnode := h.home _ d hd
        rw [hnode]
        exact .inr ⟨⟨d, hd, rfl⟩, rfl, hle⟩
    · rintro (⟨d, hd, rfl⟩ | ⟨⟨d, hd, rfl⟩, hnode, hle⟩)
      · exact ⟨d, .inl hd, rfl⟩
      · rw [← hnode] at hd
        exact ⟨d, .inr (htimes.mem_takeWhile.mpr ⟨hd, hle⟩), rfl⟩
  · have hstore := held_store garbage h.nodes (nodeOf x.ts)
      { lastTs := x.ts, pending := (s.1.updates garbage (nodeOf x.ts)).pending.dropWhile (·.1 ≤
      x.ts) }
    have hsplit : (s.1.updates garbage (nodeOf x.ts)).held =
        (((s.1.updates garbage (nodeOf x.ts)).pending.takeWhile (·.1 ≤ x.ts)).map (·.2)).sum +
          (((s.1.updates garbage (nodeOf x.ts)).pending.dropWhile (·.1 ≤ x.ts)).map (·.2)).sum := by
      rw [← sum_append, ← map_append, takeWhile_append_dropWhile]
      rfl
    rw [hsplit, ← add_assoc] at hstore
    rw [sum_delta_concat, ← h.balance, ← add_right_cancel hstore]
    dsimp only
    ac_rfl

theorem arrive_now (h : Tracks garbage xs s) (hts : x.ts ≠ 0) (hx : ¬ x.Increase)
    (hlast : x.ts ≤ remembered garbage (nodeOf x.ts) xs) :
    Tracks garbage (xs ++ [x]) (handle garbage s x) := by
  have hlast' : x.ts ≤ (s.1.updates garbage (nodeOf x.ts)).lastTs := (h.lastTs _).symm ▸ hlast
  have hhandle : handle garbage s x =
      ({ unguardedDelta := s.1.unguardedDelta + x.delta
         pernode := s.1.pernode.upsert (nodeOf x.ts) fun _ => s.1.updates garbage (nodeOf x.ts) },
       s.2 ++ [(x.ts, x.delta)]) := by
    simp only [handle, Generation.handleAdjustment, if_neg hts,
      if_neg (show ¬ 0 < x.delta.toInt from hx), if_pos hlast']
  have hupdates :
    ∀ k, Generation.updates garbage k (handle garbage s x).1 = s.1.updates garbage k := by
    intro k
    rw [hhandle, updates_store h.nodes]
    split
    · rename_i hk
      rw [hk]
    · rfl
  have hrelease : ∀ t, ¬ x.Releases t := fun t hr => hx hr.1
  refine ⟨?_, fun node => ?_, fun node => ?_, fun node => ?_, fun t => ?_, fun t => ?_, ?_⟩
  · rw [hhandle]
    exact h.nodes.upsert
  · rw [hupdates]
    exact h.times node
  · rw [hupdates]
    exact h.home node
  · rw [hupdates, remembered_concat, if_neg fun hi => hx hi.1]
    exact h.lastTs node
  · rw [hupdates, h.pending t, deferred_concat]
    refine ⟨fun hd => .inr ⟨hd, hrelease t⟩, ?_⟩
    rintro (⟨-, rfl, hlt⟩ | ⟨hd, -⟩)
    exacts [absurd hlast (Nat.not_le_of_lt hlt), hd]
  · rw [counted_concat, ← h.applied t, hhandle]
    constructor
    · rintro ⟨d, hd, rfl⟩
      obtain hd | hd := mem_append.mp hd
      · exact .inr (.inl ⟨d, hd, rfl⟩)
      · rw [mem_singleton.mp hd]
        exact .inl ⟨hx, rfl, hlast⟩
    · rintro (⟨-, rfl, -⟩ | ⟨d, hd, rfl⟩ | ⟨-, hr⟩)
      · exact ⟨_, mem_append_right _ (mem_singleton_self _), rfl⟩
      · exact ⟨d, mem_append_left _ hd, rfl⟩
      · exact absurd hr (hrelease t)
  · have hstore := held_store garbage h.nodes (nodeOf x.ts) (s.1.updates garbage (nodeOf x.ts))
    rw [hhandle, sum_delta_concat, ← h.balance, ← add_right_cancel hstore]
    dsimp only
    ac_rfl

/-- An arrival that is newer than what is remembered of its node. -/
theorem arrive_later (h : Tracks garbage xs s) (hts : x.ts ≠ 0) (hx : ¬ x.Increase)
    (hlast : remembered garbage (nodeOf x.ts) xs < x.ts) :
    Tracks garbage (xs ++ [x]) (handle garbage s x) := by
  have hlast' : ¬ x.ts ≤ (s.1.updates garbage (nodeOf x.ts)).lastTs := by
    rw [h.lastTs]
    exact Nat.not_le_of_lt hlast
  have hhandle : handle garbage s x =
      ({ unguardedDelta := s.1.unguardedDelta
         pernode := s.1.pernode.upsert (nodeOf x.ts) fun _ =>
           { lastTs := (s.1.updates garbage (nodeOf x.ts)).lastTs
             pending := (s.1.updates garbage (nodeOf x.ts)).pending.upsert x.ts fun d => d.getD 0 +
               x.delta } }, s.2) := by
    simp only [handle, Generation.handleAdjustment, if_neg hts,
      if_neg (show ¬ 0 < x.delta.toInt from hx), if_neg hlast', append_nil]
  have htimes := h.times (nodeOf x.ts)
  have hrelease : ∀ t, ¬ x.Releases t := fun t hr => hx hr.1
  rw [hhandle]
  refine ⟨h.nodes.upsert, fun node => ?_, fun node => ?_, fun node => ?_, fun t => ?_,
    fun t => ?_, ?_⟩
  · simp only [updates_store h.nodes]
    split
    exacts [htimes.upsert, h.times node]
  · simp only [updates_store h.nodes]
    split
    · rename_i hnode
      intro d hd
      obtain rfl | ⟨hd, -⟩ := (OrderedMap.mem_upsert htimes).mp hd
      · exact hnode.symm
      · rw [hnode]
        exact h.home _ d hd
    · exact h.home node
  · have hnot : ¬ (x.Increase ∧ nodeOf x.ts = node) := fun hi => hx hi.1
    rw [remembered_concat, updates_store h.nodes, ← h.lastTs node]
    split
    · rename_i hnode
      rw [hnode]
    · rfl
  · rw [deferred_concat, ← h.pending t, updates_store h.nodes]
    split
    · rename_i hnode
      constructor
      · rintro ⟨d, hd, rfl⟩
        obtain rfl | ⟨hd, -⟩ := (OrderedMap.mem_upsert htimes).mp hd
        · exact .inl ⟨hx, rfl, hlast⟩
        · exact .inr ⟨⟨d, hnode ▸ hd, rfl⟩, hrelease _⟩
      · rintro (⟨-, rfl, -⟩ | ⟨⟨d, hd, rfl⟩, -⟩)
        · exact ⟨_, (OrderedMap.mem_upsert htimes).mpr (.inl rfl), rfl⟩
        · by_cases hd' : d.1 = x.ts
          · exact ⟨_, (OrderedMap.mem_upsert htimes).mpr (.inl rfl), hd'.symm⟩
          · exact ⟨d, (OrderedMap.mem_upsert htimes).mpr (.inr ⟨hnode ▸ hd, hd'⟩), rfl⟩
    · rename_i hnode
      refine ⟨fun hd => .inr ⟨hd, hrelease t⟩, ?_⟩
      rintro (⟨-, rfl, -⟩ | ⟨hd, -⟩)
      exacts [absurd rfl hnode, hd]
  · rw [counted_concat, ← h.applied t]
    refine ⟨fun hd => .inr (.inl hd), ?_⟩
    rintro (⟨-, rfl, hle⟩ | hd | ⟨-, hr⟩)
    exacts [absurd hle (Nat.not_le_of_lt hlast), hd, absurd hr (hrelease t)]
  · have hstore := held_store garbage h.nodes (nodeOf x.ts)
      { lastTs := (s.1.updates garbage (nodeOf x.ts)).lastTs
        pending := (s.1.updates garbage (nodeOf x.ts)).pending.upsert x.ts fun d =>
          d.getD 0 + x.delta }
    rw [held_later htimes, add_comm _ x.delta, ← add_assoc] at hstore
    rw [sum_delta_concat, ← h.balance]
    rw [add_right_cancel hstore, ← add_assoc]

theorem handle (h : Tracks garbage xs s) (hts : x.ts ≠ 0) :
    Tracks garbage (xs ++ [x]) (BarrierAdjustment.handle garbage s x) := by
  by_cases hx : x.Increase
  · exact h.increase hts hx
  · obtain hlast | hlast := lt_or_ge (remembered garbage (nodeOf x.ts) xs) x.ts
    · exact h.arrive_later hts hx hlast
    · exact h.arrive_now hts hx hlast

end Tracks

theorem run_tracks (hts : ∀ a ∈ xs, a.ts ≠ 0) : Tracks garbage xs (run garbage xs) := by
  induction xs using reverseRecOn with
  | nil => exact .new
  | append_singleton xs x ih =>
    rw [run_concat]
    exact (ih fun a ha => hts a (mem_append_left _ ha)).handle
      (hts x (mem_append_right _ (mem_singleton_self x)))

theorem increases_concat :
    increases (xs ++ [x]) = increases xs + if x.Increase then x.delta else 0 := by
  unfold increases
  split <;> rename_i hx <;> simp [hx]

/-- `unguarded_delta` consists of the increases handled and of the arrivals applied. -/
theorem unguardedDelta_eq (hts : ∀ a ∈ xs, a.ts ≠ 0) :
    (run garbage xs).1.unguardedDelta = increases xs + ((run garbage xs).2.map (·.2)).sum := by
  induction xs using reverseRecOn with
  | nil => rfl
  | append_singleton xs x ih =>
    have hts' : x.ts ≠ 0 := hts x (mem_append_right _ (mem_singleton_self x))
    have ih' := ih fun a ha => hts a (mem_append_left _ ha)
    rw [run_concat, increases_concat]
    simp only [handle, Generation.handleAdjustment, if_neg hts']
    by_cases hx : 0 < x.delta.toInt
    · simp only [if_pos hx, if_pos (show x.Increase from hx), ih', map_append, sum_append]
      ac_rfl
    · simp only [if_neg hx, if_neg (show ¬ x.Increase from hx)]
      split
      · simp only [ih', map_append, sum_append, map_cons, sum_cons, add_zero]
        ac_rfl
      · simp only [ih', append_nil, add_zero]

theorem Tracks.no_pending_iff {s : Generation × Applied} (h : Tracks garbage xs s) :
    (∀ e ∈ s.1.pernode, e.2.pending = []) ↔ ∀ t, ¬ Deferred garbage xs t := by
  constructor
  · intro hnone t hdeferred
    obtain ⟨d, hd, -⟩ := (h.pending t).mpr hdeferred
    unfold Generation.updates at hd
    cases hfind : s.1.pernode.find (nodeOf t) with
    | none =>
      rw [hfind] at hd
      exact absurd hd not_mem_nil
    | some pn =>
      rw [hfind, Option.getD_some, hnone _ (OrderedMap.mem_of_find hfind)] at hd
      exact absurd hd not_mem_nil
  · intro hnone e he
    refine eq_nil_iff_forall_not_mem.mpr fun d hd => ?_
    have hupdates : s.1.updates garbage e.1 = e.2 := by
      unfold Generation.updates
      rw [(OrderedMap.find_eq_some_iff h.nodes).mpr he, Option.getD_some]
    have hhome : nodeOf d.1 = e.1 := h.home e.1 d (hupdates.symm ▸ hd)
    refine hnone d.1 ((h.pending d.1).mp ⟨d, ?_, rfl⟩)
    rw [hhome, hupdates]
    exact hd

end Runs

/-! ### The theorem -/

section Orders

variable {garbage : Nat → Nat} {as : List Adjustment}

/-- The orders in which no arrival is counted too early and none is deferred at the end. -/
theorem inTime_of_counted
    (hcounted : ∀ handled, handled <+: as → ∀ t, Counted garbage handled t →
      ∃ b ∈ handled, b.IncreaseOf t)
    (hdeferred : ∀ t, ¬ Deferred garbage as t) : InTime garbage as := by
  refine ⟨fun xs a ys h ha hnone => ⟨?_, fun b hb hr => ?_⟩, fun xs a ys h ha _ => ?_⟩
  · -- otherwise the arrival is counted when it is handed over
    by_contra hlast
    have hpre : xs ++ [a] <+: as := ⟨ys, by rw [h]; simp⟩
    obtain ⟨b, hb, hinc⟩ :=
      hcounted _ hpre a.ts ⟨xs, a, [], rfl, ha, rfl, .inl (Nat.le_of_not_lt hlast)⟩
    obtain hb | hb := mem_append.mp hb
    · exact hnone b hb hinc
    · rw [mem_singleton.mp hb] at hinc
      exact ha hinc.1
  · -- otherwise it is counted when `b` is handed over
    have hbefore : ∀ c ∈ ys.takeWhile (fun c => ¬ c.IncreaseOf a.ts), ¬ c.IncreaseOf a.ts :=
      fun c hc => by simpa using mem_takeWhile_imp hc
    obtain ⟨us, vs, hsplit⟩ := append_of_mem hb
    have hpre : xs ++ a :: (us ++ [b]) <+: as := by
      refine ⟨vs ++ ys.dropWhile (fun c => ¬ c.IncreaseOf a.ts), ?_⟩
      calc xs ++ a :: (us ++ [b]) ++ (vs ++ ys.dropWhile (fun c => ¬ c.IncreaseOf a.ts))
          = xs ++ a :: (us ++ b :: vs ++ ys.dropWhile (fun c => ¬ c.IncreaseOf a.ts)) := by simp
        _ = as := by rw [← hsplit, takeWhile_append_dropWhile, h]
    have hmem : b ∈ us ++ [b] := mem_append_right _ (mem_singleton_self b)
    obtain ⟨c, hc, hinc⟩ :=
      hcounted _ hpre a.ts ⟨xs, a, us ++ [b], rfl, ha, rfl, .inr ⟨b, hmem, hr⟩⟩
    obtain hc | hc := mem_append.mp hc
    · exact hnone c hc hinc
    · obtain rfl | hc := mem_cons.mp hc
      · exact ha hinc.1
      · refine hbefore c ?_ hinc
        rw [hsplit]
        obtain hc | hc := mem_append.mp hc
        · exact mem_append_left _ hc
        · rw [mem_singleton.mp hc]
          exact mem_append_right _ mem_cons_self
  · by_contra hlate
    obtain ⟨hlast, hnone⟩ := not_or.mp hlate
    exact hdeferred a.ts ⟨xs, a, ys, h, ha, rfl, Nat.lt_of_not_le hlast, fun b hb hr =>
      hnone ⟨b, hb, hr⟩⟩

theorem InTime.counted (h : InTime garbage as) {handled : List Adjustment}
    (hpre : handled <+: as) {t : Nat}
    (hcounted : Counted garbage handled t) : ∃ b ∈ handled, b.IncreaseOf t := by
  obtain ⟨us, a, vs, rfl, ha, rfl, hreleased⟩ := hcounted
  obtain ⟨rest, rfl⟩ := hpre
  rw [append_assoc] at h
  by_cases hbefore : ∃ b ∈ us, b.IncreaseOf a.ts
  · obtain ⟨b, hb, hinc⟩ := hbefore
    exact ⟨b, mem_append_left _ hb, hinc⟩
  · have hnone : ∀ b ∈ us, ¬ b.IncreaseOf a.ts := fun b hb hinc => hbefore ⟨b, hb, hinc⟩
    obtain ⟨hlast, hbetween⟩ := h.before us a (vs ++ rest) rfl ha hnone
    obtain hle | ⟨b, hb, hr⟩ := hreleased
    · exact absurd hle (Nat.not_le_of_lt hlast)
    · -- the increase is handed over before `b` releases the arrival
      by_contra hnever
      have hvs : ∀ c ∈ vs, decide (¬ c.IncreaseOf a.ts) = true := fun c hc =>
        decide_eq_true fun hinc => hnever ⟨c, mem_append_right _ (mem_cons_of_mem _ hc), hinc⟩
      refine hbetween b ?_ hr
      rw [takeWhile_append_of_pos hvs]
      exact mem_append_left _ hb

theorem InTime.not_deferred (h : InTime garbage as)
    (hincrease : ∀ a ∈ as, ¬ a.Increase → ∃ b ∈ as, b.IncreaseOf a.ts) (t : Nat) :
    ¬ Deferred garbage as t := by
  rintro ⟨us, a, vs, rfl, ha, rfl, hlast, hnone⟩
  by_cases hbefore : ∃ b ∈ us, b.IncreaseOf a.ts
  · obtain hle | ⟨b, hb, hr⟩ := h.after us a vs rfl ha hbefore
    · exact absurd hle (Nat.not_le_of_lt hlast)
    · exact hnone b hb hr
  · obtain ⟨b, hb, hinc⟩ := hincrease a (mem_append_right _ mem_cons_self) ha
    obtain hb | hb := mem_append.mp hb
    · exact hbefore ⟨b, hb, hinc⟩
    · obtain rfl | hb := mem_cons.mp hb
      · exact ha hinc.1
      · refine hnone b hb ⟨hinc.1, ?_, le_of_eq hinc.2.symm⟩
        rw [hinc.2]

/-- **One timestamp per node is enough exactly for the orders in time.** The adjustments of a
generation, each arrival with the timestamp of an increase among them, never count an
arrival before its increase and are all counted at the end, if and only if each arrival
before its increase finds a smaller timestamp and is not released by another increase,
and each arrival after its increase is not left behind by a smaller timestamp. -/
theorem guarded_iff_inTime (hts : ∀ a ∈ as, a.ts ≠ 0)
    (hincrease : ∀ a ∈ as, ¬ a.Increase → ∃ b ∈ as, b.IncreaseOf a.ts) :
    NoneEarly garbage as ∧ Settled garbage as ↔ InTime garbage as := by
  have hhandled : ∀ {handled}, handled <+: as → ∀ a ∈ handled, a.ts ≠ 0 :=
    fun hpre a ha => hts a (hpre.subset ha)
  have htracks : Tracks garbage as (run garbage as) := run_tracks hts
  constructor
  · rintro ⟨hearly, -, hpending⟩
    refine inTime_of_counted (fun handled hpre t hcounted => ?_)
      (htracks.no_pending_iff.mp hpending)
    obtain ⟨d, hd, rfl⟩ := ((run_tracks (hhandled hpre)).applied t).mpr hcounted
    exact (hearly handled hpre).2 d hd
  · intro h
    refine ⟨fun handled hpre => ⟨unguardedDelta_eq (hhandled hpre), fun d hd => ?_⟩, ?_⟩
    · exact h.counted hpre (((run_tracks (hhandled hpre)).applied d.1).mp ⟨d, hd, rfl⟩)
    · have hpending := htracks.no_pending_iff.mpr (h.not_deferred hincrease)
      refine ⟨?_, hpending⟩
      have hheld : ((run garbage as).1.pernode.map fun e => e.2.held).sum = 0 := by
        refine sum_eq_zero fun d hd => ?_
        obtain ⟨e, he, rfl⟩ := mem_map.mp hd
        simp only [PerNodeUpdates.held, hpending e he, map_nil, sum_nil]
      rw [← htracks.balance, hheld, add_zero]

/-- The arrival for the second increase comes first, the one for the first increase last. -/
theorem guarded_iff_inTime_two : InTime (fun _ => 0) [⟨2, -1⟩, ⟨1, 1⟩, ⟨2, 1⟩, ⟨1, -1⟩] := by
  refine (guarded_iff_inTime (by decide) (by decide)).mp ⟨fun handled hpre => ?_, ?_⟩
  · revert handled
    simp only [← mem_inits]
    decide
  · unfold Settled
    decide

/-- **A later increase overtakes an earlier one.** The arrival that waits for the earlier one
is counted before it, and one that waits for the later one stays pending. -/
theorem overtaken_increase : ¬ NoneEarly (fun _ => 0) [⟨2, 1⟩, ⟨1, -1⟩, ⟨1, 1⟩, ⟨2, -1⟩] ∧
    ¬ Settled (fun _ => 0) [⟨2, 1⟩, ⟨1, -1⟩, ⟨1, 1⟩, ⟨2, -1⟩] := by
  refine ⟨fun h => ?_, fun h => ?_⟩
  · have hearly := (h [⟨2, 1⟩, ⟨1, -1⟩] ⟨[⟨1, 1⟩, ⟨2, -1⟩], rfl⟩).2
    revert hearly
    decide
  · revert h
    unfold Settled
    decide

end Orders

end CharmRuntime.Legion.BarrierAdjustment
