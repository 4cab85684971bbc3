import CharmRuntime.Legion.Barrier
import CharmRuntime.Lib.InFlight
import CharmRuntime.Lib.Spans
import Mathlib.Data.BitVec

/-!
# Legion.BarrierSteps

What each call does to the state it works on, in three parts:

* `Waiters`: the entries of `generations` and the waiters in them, on any node;
* `Counts`: the owner's arrival counts;
* `Follows`: how far a node lags behind the owner. The ranges that were sent to it and
  have not been applied, in flight or held, lead from its generation to the generation it
  was last told (`Spans`).
-/

namespace CharmRuntime.Legion.Barrier

open Lib Function List
open Multiset (add_cons coe_add coe_nil cons_add cons_coe mem_add mem_coe mem_map)
open BitVec (ofNat toNat toNat_ofNat)

variable {n : Nat} {ι : Type}

/-! ### Entries that are taken from the front -/

/-- The entries `gone`, up to generation `upTo`, are taken from the front of `m`, and their
waiters are `woken`. -/
structure Drained (m : OrderedMap Nat (Generation ι)) (upTo : Nat)
    (gone stay : OrderedMap Nat (Generation ι)) (woken : List ι) : Prop where
  split : m = gone ++ stay
  woken_eq : woken = gone.flatMap (·.2.localWaiters)
  gone_le : ∀ e ∈ gone, e.1 ≤ upTo
  stay_gt : ∀ e ∈ stay, upTo < e.1

variable {m : OrderedMap Nat (Generation ι)} {s s₁ s' : BarrierImpl n ι} {node : Fin n}

/-- The loop in `adjust_arrival`: it stops at the first generation that lacks arrivals. -/
theorem triggerReady_spec (base : BitVec 32) {generation : Nat}
    (hasc : m.Ascending) (hkeys : ∀ e ∈ m, generation < e.1 ∧ e.1 < 2 ^ 32) :
    ∃ gone, Drained m (triggerReady base generation m).1 gone (triggerReady base generation m).2.1
        (triggerReady base generation m).2.2 ∧
      generation ≤ (triggerReady base generation m).1 ∧
      (∀ e ∈ gone, base + e.2.unguardedDelta = 0) ∧
      (∀ gen, generation < gen → gen ≤ (triggerReady base generation m).1 → ∃ e ∈ gone, e.1 = gen) ∧
      (∀ e ∈ (triggerReady base generation m).2.1, e.1 = (triggerReady base generation m).1 + 1 →
        base + e.2.unguardedDelta ≠ 0) := by
  induction m generalizing generation with
  | nil =>
    refine ⟨[], ⟨rfl, rfl, by simp, by simp [triggerReady]⟩, le_rfl, by simp,
      ?_, by simp [triggerReady]⟩
    intro gen hlt hle
    exact absurd hle (not_le.mpr hlt)
  | cons e rest ih =>
    obtain ⟨hgt, hrest⟩ := pairwise_cons.mp hasc
    obtain ⟨⟨hlow, hhigh⟩, hkeys'⟩ := forall_mem_cons.mp hkeys
    obtain ⟨gen, g⟩ := e
    have hmod : (generation + 1) % 2 ^ 32 = generation + 1 :=
      Nat.mod_eq_of_lt (lt_of_le_of_lt hlow hhigh)
    by_cases hready : gen = (generation + 1) % 2 ^ 32 ∧ base + g.unguardedDelta = 0
    · have heq : triggerReady base generation ((gen, g) :: rest) = ((triggerReady base gen rest).1,
          (triggerReady base gen rest).2.1,
          g.localWaiters ++ (triggerReady base gen rest).2.2) := by
        rw [triggerReady, if_pos hready]
      have hafter : ∀ e ∈ rest, gen < e.1 ∧ e.1 < 2 ^ 32 := fun e he => ⟨hgt e he, (hkeys' e he).2⟩
      obtain ⟨gone, hd, hle, hzero, hall, hstop⟩ := ih hrest hafter
      rw [heq]
      refine ⟨(gen, g) :: gone, ⟨?_, ?_, ?_, hd.stay_gt⟩, ?_, ?_, ?_, hstop⟩
      · rw [cons_append, ← hd.split]
      · rw [flatMap_cons, ← hd.woken_eq]
      · exact forall_mem_cons.mpr ⟨hle, hd.gone_le⟩
      · omega
      · exact forall_mem_cons.mpr ⟨hready.2, hzero⟩
      · intro gen' hlt hle'
        by_cases hsame : gen' = gen
        · exact ⟨(gen, g), mem_cons_self .., hsame.symm⟩
        · obtain ⟨e, he, hegen⟩ := hall gen' (by omega) hle'
          exact ⟨e, mem_cons_of_mem _ he, hegen⟩
    · have heq : triggerReady base generation ((gen, g) :: rest) =
        (generation, (gen, g) :: rest, []) := by
        rw [triggerReady, if_neg hready]
      rw [heq]
      refine ⟨[], ⟨rfl, rfl, by simp, fun e he => (hkeys e he).1⟩, le_rfl, by simp, ?_, ?_⟩
      · intro gen' hlt hle
        exact absurd hle (not_le.mpr hlt)
      · intro e he hnext hzero
        obtain rfl | he := mem_cons.mp he
        · exact hready ⟨hnext.trans hmod.symm, hzero⟩
        · have hlater := hgt e he
          omega

theorem wakeUpTo_spec (upTo : Nat) (hasc : m.Ascending) :
    ∃ gone, Drained m upTo gone (wakeUpTo upTo m).1 (wakeUpTo upTo m).2 := by
  induction m with
  | nil => exact ⟨[], rfl, rfl, by simp, by simp [wakeUpTo]⟩
  | cons e rest ih =>
    obtain ⟨hgt, hrest⟩ := pairwise_cons.mp hasc
    obtain ⟨gen, g⟩ := e
    by_cases hlater : upTo < gen
    · have heq : wakeUpTo upTo ((gen, g) :: rest) = ((gen, g) :: rest, []) := by
        rw [wakeUpTo, if_pos hlater]
      rw [heq]
      refine ⟨[], rfl, rfl, by simp, forall_mem_cons.mpr ⟨hlater, fun e he => ?_⟩⟩
      exact hlater.trans (hgt e he)
    · have heq : wakeUpTo upTo ((gen, g) :: rest)
          = ((wakeUpTo upTo rest).1, g.localWaiters ++ (wakeUpTo upTo rest).2) := by
        rw [wakeUpTo, if_neg hlater]
      obtain ⟨gone, hd⟩ := ih hrest
      rw [heq]
      refine ⟨(gen, g) :: gone, ?_, ?_, ?_, hd.stay_gt⟩
      · rw [cons_append, ← hd.split]
      · rw [flatMap_cons, ← hd.woken_eq]
      · exact forall_mem_cons.mpr ⟨not_lt.mp hlater, hd.gone_le⟩

/-- The loop over the held triggers: the ranges still fit, and the next one is not held. -/
theorem absorb_spec {triggerGen last : Nat} {held : OrderedMap Nat Nat}
    {fly : Multiset (Nat × Nat)} (hasc : held.Ascending)
    (hspans : Spans triggerGen last (↑held + fly)) :
    Spans (absorb triggerGen held).1 last (↑(absorb triggerGen held).2 + fly) ∧
      triggerGen ≤ (absorb triggerGen held).1 ∧ (absorb triggerGen held).2.Ascending ∧
      ∀ e ∈ (absorb triggerGen held).2, (absorb triggerGen held).1 < e.1 := by
  induction held generalizing triggerGen with
  | nil => exact ⟨hspans, le_rfl, Pairwise.nil, by simp [absorb]⟩
  | cons e rest ih =>
    obtain ⟨hgt, hrest⟩ := pairwise_cons.mp hasc
    obtain ⟨previous, gen⟩ := e
    rw [← cons_coe, cons_add] at hspans
    by_cases hnext : previous = triggerGen
    · subst hnext
      have hle := (hspans.mem (Multiset.mem_cons_self _ _)).2
      obtain ⟨hs, hle', ha, hg⟩ := ih hrest hspans.of_head
      have heq : absorb previous ((previous, gen) :: rest) = absorb gen rest := by
        rw [absorb, if_neg (not_not_intro rfl)]
      rw [heq]
      exact ⟨hs, hle.le.trans hle', ha, hg⟩
    · have heq : absorb triggerGen ((previous, gen) :: rest) =
        (triggerGen, (previous, gen) :: rest) := by
        rw [absorb, if_pos hnext]
      have hlt : triggerGen < previous :=
        lt_of_le_of_ne (hspans.mem (Multiset.mem_cons_self _ _)).1 (symm hnext)
      rw [heq, ← cons_coe, cons_add]
      refine ⟨hspans, le_rfl, hasc, forall_mem_cons.mpr ⟨hlt, fun e he => ?_⟩⟩
      exact hlt.trans (hgt e he)

/-! ### Waiters -/

/-- Those who wait on a node. -/
def waiting (s : BarrierImpl n ι) : Multiset ι :=
  OrderedMap.total (fun g => (g.localWaiters : Multiset ι)) s.generations

/-- The waiters `added` wait or are `woken`, and those who wait do so for generations that
have not come. -/
structure Waiters (s : BarrierImpl n (Nat × ι)) (added woken : Multiset (Nat × ι)) : Prop where
  ascending : s.generations.Ascending
  keys : ∀ e ∈ s.generations, s.generation < e.1 ∧ e.1 < 2 ^ 32
  tags : ∀ e ∈ s.generations, ∀ x ∈ e.2.localWaiters, x.1 = e.1
  added_eq : added = waiting s + woken
  reached : ∀ x ∈ woken, x.1 ≤ s.generation

section Waiters

variable {s : BarrierImpl n (Nat × ι)} {added woken : Multiset (Nat × ι)}

theorem total_flatMap (m : OrderedMap Nat (Generation ι)) :
    OrderedMap.total (fun g => (g.localWaiters : Multiset ι)) m =
    ↑(m.flatMap (·.2.localWaiters)) := by
  induction m with
  | nil => rfl
  | cons e rest ih =>
    rw [OrderedMap.total_cons, ih, flatMap_cons, coe_add]

variable {x : Nat × ι} {s' : BarrierImpl n (Nat × ι)}

theorem Waiters.lt_of_mem (h : Waiters s added woken) (hx : x ∈ waiting s) :
    ∃ e ∈ s.generations, x.1 = e.1 := by
  rw [waiting, total_flatMap] at hx
  obtain ⟨e, he, hxe⟩ := mem_flatMap.mp (mem_coe.mp hx)
  exact ⟨e, he, h.tags e he x hxe⟩

/-- The node reaches generation `upTo`, and wakes those who waited for it. -/
theorem Waiters.drain (h : Waiters s added woken) {upTo : Nat}
    {gone stay : OrderedMap Nat (Generation (Nat × ι))} {toWake : List (Nat × ι)}
    (hd : Drained s.generations upTo gone stay toWake) (hle : s.generation ≤ upTo)
    (hgen : s'.generation = upTo) (hstay : s'.generations = stay) :
    Waiters s' added (woken + ↑toWake) := by
  have hmem : ∀ e ∈ stay, e ∈ s.generations := fun e he => by
    rw [hd.split]
    exact mem_append_right gone he
  refine ⟨?_, ?_, ?_, ?_, ?_⟩
  · have hasc := h.ascending
    rw [hd.split] at hasc
    rw [hstay]
    exact (pairwise_append.mp hasc).2.1
  · rw [hstay, hgen]
    exact fun e he => ⟨hd.stay_gt e he, (h.keys e (hmem e he)).2⟩
  · rw [hstay]
    exact fun e he => h.tags e (hmem e he)
  · rw [h.added_eq, waiting, waiting, hstay, total_flatMap, total_flatMap, hd.split,
      flatMap_append, ← hd.woken_eq]
    ac_rfl
  · rw [hgen]
    intro x hx
    obtain hx | hx := mem_add.mp hx
    · exact (h.reached x hx).trans hle
    · rw [hd.woken_eq] at hx
      obtain ⟨e, he, hxe⟩ := mem_flatMap.mp (mem_coe.mp hx)
      have hin : e ∈ s.generations := by
        rw [hd.split]
        exact mem_append_left stay he
      rw [h.tags e hin x hxe]
      exact hd.gone_le e he

/-- An entry that is changed or made, with `x` more waiters. -/
theorem Waiters.upsert (h : Waiters s added woken) {gen : Nat}
    {f : Option (Generation (Nat × ι)) → Generation (Nat × ι)} {x : List (Nat × ι)}
    (hgen : s.generation < gen ∧ gen < 2 ^ 32)
    (hf : ∀ g, (f g).localWaiters = (g.getD .new).localWaiters ++ x)
    (hx : ∀ y ∈ x, y.1 = gen) (hsame : s'.generation = s.generation)
    (hgens : s'.generations = s.generations.upsert gen f) :
    Waiters s' (↑x + added) woken := by
  refine ⟨?_, ?_, ?_, ?_, ?_⟩
  · rw [hgens]
    exact h.ascending.upsert
  · rw [hgens, hsame]
    intro e he
    obtain rfl | ⟨he, -⟩ := (OrderedMap.mem_upsert h.ascending).mp he
    · exact hgen
    · exact h.keys e he
  · rw [hgens]
    intro e he
    obtain rfl | ⟨he, -⟩ := (OrderedMap.mem_upsert h.ascending).mp he
    · intro y hy
      rw [hf] at hy
      obtain hy | hy := mem_append.mp hy
      · cases hfind : OrderedMap.find gen s.generations with
        | none =>
          rw [hfind] at hy
          exact absurd hy not_mem_nil
        | some g =>
          rw [hfind] at hy
          exact h.tags (gen, g) (OrderedMap.mem_of_find hfind) y hy
      · exact hx y hy
    · exact h.tags e he
  · rw [waiting, hgens, OrderedMap.total_upsert, h.added_eq, waiting, add_assoc]
    · rw [hf]
      exact congrArg _ (nil_append x)
    · intro g
      rw [hf, add_comm]
      rfl
  · rw [hsame]
    exact h.reached

theorem Waiters.wakeNow (h : Waiters s added woken) (hx : x.1 ≤ s.generation) :
    Waiters s (x ::ₘ added) (woken + ↑[x]) :=
  { h with
    added_eq := by
      rw [h.added_eq, Multiset.coe_singleton, ← Multiset.singleton_add]
      ac_rfl
    reached := by
      intro y hy
      obtain hy | hy := mem_add.mp hy
      · exact h.reached y hy
      · obtain rfl := mem_singleton.mp (mem_coe.mp hy)
        exact hx }

/-- The state after a waiter is put on record. -/
def waitFor (gen : Nat) (waiter : ι) (s : BarrierImpl n ι) : BarrierImpl n ι :=
  { s with
    generations := s.generations.upsert gen fun g => (g.getD .new).addWaiter waiter }

/-- `add_waiter`, for a generation that the node has subscribed to if it is not the owner. -/
theorem addWaiter_ok {me : Fin n} {gen : Nat} (waiter : ι) (h : Waiters s added woken)
    (hgen : gen < 2 ^ 32)
    (hsub : s.generation < gen → s.owner = me ∨ gen ≤ s.genSubscribed) :
    ∃ e, addWaiter me gen (gen, waiter) s = .ok e ∧
      Waiters e.impl ((gen, waiter) ::ₘ added) (woken + ↑e.woken) ∧ e.sends = [] ∧
      ((s.generation < gen ∧ e.impl = waitFor gen (gen, waiter) s) ∨ e.impl = s) := by
  unfold addWaiter
  by_cases hlt : s.generation < gen
  · rw [if_pos hlt, if_neg (not_not_intro (hsub hlt))]
    refine ⟨_, rfl, ?_, rfl, .inl ⟨hlt, rfl⟩⟩
    have hup : Waiters (waitFor gen (gen, waiter) s) (↑[(gen, waiter)] + added) woken :=
      h.upsert (f := fun g => (g.getD .new).addWaiter (gen, waiter)) ⟨hlt, hgen⟩ (fun _ => rfl)
        (fun y hy => by rw [mem_singleton.mp hy]) rfl rfl
    rw [coe_nil, add_zero]
    exact hup
  · rw [if_neg hlt]
    exact ⟨_, rfl, h.wakeNow (not_lt.mp hlt), rfl, .inr rfl⟩

end Waiters

/-! ### The owner's counts -/

/-- The owner has triggered the generations that have all their arrivals, up to the first
that lacks some. -/
structure Counts (expected : Nat) (s : BarrierImpl n ι) (handled : Nat → Nat) : Prop where
  first : s.firstGeneration = 0
  free : s.freeGeneration = 2 ^ 32 - 1
  base : s.baseArrivalCount = BitVec.ofNat 32 expected
  deltas : ∀ e ∈ s.generations, e.2.unguardedDelta = -BitVec.ofNat 32 (handled e.1)
  absent : ∀ gen, s.generation < gen → (∀ e ∈ s.generations, e.1 ≠ gen) → handled gen = 0
  limit : ∀ gen, handled gen ≤ expected
  done : ∀ gen, 0 < gen → gen ≤ s.generation → handled gen = expected
  lacking : handled (s.generation + 1) < expected

theorem add_neg_eq_zero {expected k : Nat} (hexp : expected < 2 ^ 32) (hk : k ≤ expected) :
    ofNat 32 expected + -ofNat 32 k = 0 ↔ k = expected := by
  constructor
  · intro hsum
    have heq : ofNat 32 expected = ofNat 32 k := by
      rw [← sub_eq_zero, sub_eq_add_neg]
      exact hsum
    have hnat := congrArg toNat heq
    rw [toNat_ofNat, toNat_ofNat, Nat.mod_eq_of_lt hexp,
      Nat.mod_eq_of_lt (hk.trans_lt hexp)] at hnat
    exact hnat.symm
  · rintro rfl
    exact add_neg_cancel _

section Counts

variable {expected : Nat} {s : BarrierImpl n ι} {handled : Nat → Nat}

/-- The entries after `count` arrivals for `gen`. -/
theorem Counts.deltas_upsert (h : Counts expected s handled) (hasc : s.generations.Ascending)
    {gen count : Nat} (hgen : s.generation < gen) {e : Nat × Generation ι}
    (he : e ∈ s.generations.upsert gen fun g =>
      (g.getD .new).handleAdjustment (-ofNat 32 count)) :
    e.2.unguardedDelta = -ofNat 32 (update handled gen (handled gen + count) e.1) := by
  obtain rfl | ⟨he, hne⟩ := (OrderedMap.mem_upsert hasc).mp he
  · have hold :
      ((OrderedMap.find gen s.generations).getD .new).unguardedDelta = -ofNat 32 (handled gen) := by
      cases hfind : OrderedMap.find gen s.generations with
      | some g => exact h.deltas (gen, g) (OrderedMap.mem_of_find hfind)
      | none =>
        have habsent : ∀ e ∈ s.generations, e.1 ≠ gen := fun e he heq =>
          OrderedMap.find_ne_none he (heq ▸ hfind)
        rw [h.absent gen hgen habsent]
        rfl
    simp only [update_self]
    rw [Generation.handleAdjustment, hold, BitVec.ofNat_add, neg_add]
  · rw [update_of_ne hne]
    exact h.deltas e he

theorem Counts.waitFor (h : Counts expected s handled) (hasc : s.generations.Ascending) {gen : Nat}
    (hlt : s.generation < gen) (waiter : ι) : Counts expected (waitFor gen waiter s) handled := by
  refine { h with deltas := fun e he => ?_, absent := fun g hg hnone => ?_ }
  · obtain rfl | ⟨he, -⟩ := (OrderedMap.mem_upsert hasc).mp he
    · cases hfind : OrderedMap.find gen s.generations with
      | some g => exact h.deltas (gen, g) (OrderedMap.mem_of_find hfind)
      | none =>
        have habsent : ∀ e ∈ s.generations, e.1 ≠ gen := fun e he heq =>
          OrderedMap.find_ne_none he (heq ▸ hfind)
        rw [h.absent gen hlt habsent]
        rfl
    · exact h.deltas e he
  · refine h.absent g hg fun e he heq => ?_
    by_cases hkey : e.1 = gen
    · exact hnone _ ((OrderedMap.mem_upsert hasc).mpr (.inl rfl)) (hkey.symm.trans heq)
    · exact hnone e ((OrderedMap.mem_upsert hasc).mpr (.inr ⟨he, hkey⟩)) heq

end Counts

/-! ### How a node follows the owner -/

/-- The range of a trigger for node `p`. -/
def rangeFor (p : Fin n) : Fin n × BarrierMsg n → Option (Nat × Nat)
  | (q, .trigger triggerGen previousGen) => if q = p then some (previousGen, triggerGen) else none
  | _ => none

/-- The ranges on their way to node `p`. -/
def flying (p : Fin n) (net : List (Fin n × BarrierMsg n)) : Multiset (Nat × Nat) :=
  ↑(net.filterMap (rangeFor p))

/-- A node in state `s`. The owner has reached `gen`, has the node's subscription `sub` on
record and has told it `told`; `asks` are the subscriptions on their way to the owner, `fly`
the ranges on their way to the node. -/
structure Follows (gen : Nat) (sub : Option Nat) (told : Nat) (asks : Nat → Prop)
    (fly : Multiset (Nat × Nat)) (s : BarrierImpl n ι) : Prop where
  spans : Spans s.generation told (↑s.heldTriggers + fly)
  told_le : told ≤ gen
  ascending : s.heldTriggers.Ascending
  held_gt : ∀ e ∈ s.heldTriggers, s.generation < e.1
  sub_gt : ∀ t, sub = some t → gen < t ∧ told = gen
  /-- The latest subscription is on its way, on record, or fulfilled. -/
  subscribed : asks s.genSubscribed ∨ (∃ t, sub = some t ∧ s.genSubscribed ≤ t) ∨
    s.genSubscribed ≤ told

namespace Follows

variable {gen gen' told : Nat} {sub : Option Nat} {asks asks' : Nat → Prop}
  {fly : Multiset (Nat × Nat)} {s : BarrierImpl n ι}

/-- The owner reaches `gen'` and tells a subscriber. -/
theorem notify {t : Nat} (h : Follows gen (some t) told asks fly s) (hlt : gen < gen') :
    Follows gen' (if t ≤ gen' then none else some t) (min t gen') asks
      ((told, min t gen') ::ₘ fly) s := by
  obtain ⟨hsub, htold⟩ := h.sub_gt t rfl
  have hmore : told < min t gen' := by
    rw [htold]
    exact lt_min hsub hlt
  refine ⟨?_, min_le_right _ _, h.ascending, h.held_gt, ?_, ?_⟩
  · rw [add_cons]
    exact h.spans.snoc hmore
  · intro t' ht'
    split at ht'
    · cases ht'
    · rename_i hle
      obtain rfl := Option.some.inj ht'
      exact ⟨not_le.mp hle, min_eq_right (not_le.mp hle).le⟩
  · obtain hasks | ⟨t', ht', hle⟩ | hle := h.subscribed
    · exact .inl hasks
    · obtain rfl := Option.some.inj ht'
      by_cases hfull : t ≤ gen'
      · exact .inr (.inr (hle.trans_eq (min_eq_left hfull).symm))
      · exact .inr (.inl ⟨t, if_neg hfull, hle⟩)
    · exact .inr (.inr (hle.trans hmore.le))

/-- The owner reaches `gen'`, and the node has not subscribed. -/
theorem advance (h : Follows gen none told asks fly s) (hle : gen ≤ gen') :
    Follows gen' none told asks fly s :=
  { h with
    told_le := h.told_le.trans hle
    sub_gt := fun t ht => by cases ht }

theorem asks_mono (h : Follows gen sub told asks fly s) (hasks : ∀ g, asks g → asks' g) :
    Follows gen sub told asks' fly s :=
  { h with
    subscribed := by
      obtain hask | hrest := h.subscribed
      · exact .inl (hasks _ hask)
      · exact .inr hrest }

/-- A subscription to `g` arrives that an earlier one covers. -/
theorem covered {t g : Nat} (h : Follows gen (some t) told asks fly s) (hg : g ≤ t)
    (hasks : ∀ x, asks x → asks' x ∨ x = g) : Follows gen (some t) told asks' fly s :=
  { h with
    subscribed := by
      obtain hask | hrest := h.subscribed
      · obtain hask' | rfl := hasks _ hask
        · exact .inl hask'
        · exact .inr (.inl ⟨t, rfl, hg⟩)
      · exact .inr hrest }

/-- A subscription to `g` arrives, is put on record if it lies ahead, and the node is told
of what has already triggered. -/
theorem catchUp {g : Nat} {sub' : Option Nat} (h : Follows gen sub told asks fly s)
    (hasks : ∀ x, asks x → asks' x ∨ x = g) (hold : ∀ t, sub = some t → t < g)
    (hsub' : sub' = if gen < g then some g else none) :
    Follows gen sub' gen asks' (if told < gen then (told, gen) ::ₘ fly else fly) s := by
  have hcover : ∀ x, x ≤ g → (∃ t, sub' = some t ∧ x ≤ t) ∨ x ≤ gen := by
    intro x hx
    by_cases hahead : gen < g
    · exact .inl ⟨g, by rw [hsub', if_pos hahead], hx⟩
    · exact .inr (hx.trans (not_lt.mp hahead))
  refine ⟨?_, le_rfl, h.ascending, h.held_gt, ?_, ?_⟩
  · split
    · rename_i hlt
      rw [add_cons]
      exact h.spans.snoc hlt
    · rename_i hge
      have htold : told = gen := le_antisymm h.told_le (not_lt.mp hge)
      rw [← htold]
      exact h.spans
  · intro t ht
    rw [hsub'] at ht
    split at ht
    · rename_i hahead
      obtain rfl := Option.some.inj ht
      exact ⟨hahead, rfl⟩
    · cases ht
  · obtain hask | ⟨t, ht, hle⟩ | hle := h.subscribed
    · obtain hask' | hx := hasks _ hask
      · exact .inl hask'
      · exact .inr (hcover _ hx.le)
    · exact .inr (hcover _ (hle.trans (hold t ht).le))
    · exact .inr (.inr (hle.trans h.told_le))

theorem trigger {triggerGen previousGen : Nat}
    (h : Follows gen sub told asks ((previousGen, triggerGen) ::ₘ fly) s) :
    Follows gen sub told asks fly (handleTrigger triggerGen previousGen s).impl ∧
      s.generation ≤ (handleTrigger triggerGen previousGen s).impl.generation := by
  have hspans := h.spans
  rw [add_cons] at hspans
  unfold handleTrigger
  by_cases hnext : previousGen = s.generation
  · subst hnext
    have hlt := (hspans.mem (Multiset.mem_cons_self _ _)).2
    obtain ⟨hs, hle, hasc, hgt⟩ := absorb_spec h.ascending hspans.of_head
    rw [if_pos rfl]
    exact ⟨⟨hs, h.told_le, hasc, hgt, h.sub_gt, h.subscribed⟩, hlt.le.trans hle⟩
  · rw [if_neg hnext]
    have hnew : ∀ e ∈ s.heldTriggers, e.1 ≠ previousGen := by
      have hnodup := hspans.nodup
      rw [Multiset.map_cons, Multiset.nodup_cons] at hnodup
      intro e he heq
      refine hnodup.1 (mem_map.mpr ⟨e, ?_, heq⟩)
      exact mem_add.mpr (.inl (mem_coe.mpr he))
    have hperm : (↑(s.heldTriggers.upsert previousGen fun _ => triggerGen))
        = (previousGen, triggerGen) ::ₘ ↑s.heldTriggers :=
      Multiset.coe_eq_coe.mpr (OrderedMap.upsert_perm hnew)
    have hlt : s.generation < previousGen :=
      lt_of_le_of_ne (hspans.mem (Multiset.mem_cons_self _ _)).1 (symm hnext)
    refine ⟨⟨?_, h.told_le, h.ascending.upsert, ?_, h.sub_gt, h.subscribed⟩, le_rfl⟩
    · rw [hperm, cons_add]
      exact hspans
    · intro e he
      obtain rfl | ⟨he, -⟩ := (OrderedMap.mem_upsert h.ascending).mp he
      · exact hlt
      · exact h.held_gt e he

end Follows

theorem Waiters.trigger {s : BarrierImpl n (Nat × ι)} {added woken : Multiset (Nat × ι)}
    (h : Waiters s added woken) {triggerGen previousGen : Nat}
    (hle : s.generation ≤ (handleTrigger triggerGen previousGen s).impl.generation) :
    Waiters (handleTrigger triggerGen previousGen s).impl added
      (woken + ↑(handleTrigger triggerGen previousGen s).woken) := by
  unfold handleTrigger at hle ⊢
  by_cases hnext : previousGen = s.generation
  · rw [if_pos hnext] at hle ⊢
    obtain ⟨gone, hd⟩ := wakeUpTo_spec (absorb triggerGen s.heldTriggers).1 h.ascending
    exact h.drain hd hle rfl rfl
  · rw [if_neg hnext, coe_nil, add_zero]
    exact { h with }

theorem handleTrigger_frame (hasc : s.generations.Ascending) (triggerGen previousGen : Nat) :
    (handleTrigger triggerGen previousGen s).impl.owner = s.owner ∧
      (handleTrigger triggerGen previousGen s).impl.genSubscribed = s.genSubscribed ∧
      (handleTrigger triggerGen previousGen s).sends = [] ∧
      ∀ e ∈ (handleTrigger triggerGen previousGen s).impl.generations, e ∈ s.generations := by
  unfold handleTrigger
  by_cases hnext : previousGen = s.generation
  · rw [if_pos hnext]
    refine ⟨rfl, rfl, rfl, fun e he => ?_⟩
    obtain ⟨gone, hd⟩ := wakeUpTo_spec (absorb triggerGen s.heldTriggers).1 hasc
    rw [hd.split]
    exact mem_append_right gone he
  · rw [if_neg hnext]
    exact ⟨rfl, rfl, rfl, fun e he => he⟩

/-! ### What the owner does -/

theorem flying_nil (p : Fin n) : flying p [] = 0 := rfl

theorem flying_notifications (s : BarrierImpl n ι) (p : Fin n) : flying p (notifySubscribers s).2 =
      match s.remoteSubscribeGens p with
      | none => 0
      | some t => {(s.told p, min t s.generation)} := by
  have hother : ∀ q, q ≠ p → (notification s s.generation q).bind (rangeFor p) = none := by
    intro q hq
    cases hsub : s.remoteSubscribeGens q with
    | none => simp [notification, hsub]
    | some t => simp [notification, hsub, rangeFor, hq]
  rw [flying, notifySubscribers, filterMap_filterMap,
    filterMap_eq_toList (nodup_finRange n) (mem_finRange p) hother]
  cases hsub : s.remoteSubscribeGens p with
  | none => simp [notification, hsub]
  | some t => simp [notification, hsub, rangeFor]

/-- The owner's step from `s` keeps every node following it. -/
def Leads (s : BarrierImpl n ι) (e : BarrierEffect n ι) : Prop :=
  ∀ (p : Fin n) (asks : Nat → Prop) (fly : Multiset (Nat × Nat)) (st : BarrierImpl n ι),
    Follows s.generation (s.remoteSubscribeGens p) (s.told p) asks fly st →
      Follows e.impl.generation (e.impl.remoteSubscribeGens p) (e.impl.told p) asks
        (flying p e.sends + fly) st

/-- The owner sends triggers to subscribers only, and makes nobody a subscriber. -/
structure ToSubscribers (s : BarrierImpl n ι) (e : BarrierEffect n ι) : Prop where
  sends : ∀ packet ∈ e.sends, s.remoteSubscribeGens packet.1 ≠ none ∧
    ∃ triggerGen previousGen, packet.2 = .trigger triggerGen previousGen
  subs : ∀ p, s.remoteSubscribeGens p = none → e.impl.remoteSubscribeGens p = none

theorem leads_notifySubscribers (hlt : s.generation < s₁.generation)
    (hsubs : s₁.remoteSubscribeGens = s.remoteSubscribeGens)
    (htrigger : s₁.remoteTriggerGens = s.remoteTriggerGens)
    (hfirst : s₁.firstGeneration = s.firstGeneration) (woken : List ι) :
    Leads s { impl := (notifySubscribers s₁).1, sends := (notifySubscribers s₁).2,
              woken := woken } := by
  intro p _ fly st hfollows
  have htold : s₁.told p = s.told p := by rw [BarrierImpl.told, htrigger, hfirst, BarrierImpl.told]
  simp only [flying_notifications]
  cases hsub : s.remoteSubscribeGens p with
  | none =>
    rw [hsub] at hfollows
    have hsub1 : s₁.remoteSubscribeGens p = none := by rw [hsubs, hsub]
    have htold' : (notifySubscribers s₁).1.told p = s.told p := by
      simp [notifySubscribers, BarrierImpl.told, hsub1, htrigger, hfirst]
    have hsub' : (notifySubscribers s₁).1.remoteSubscribeGens p = none := by
      simp [notifySubscribers, hsub1]
    rw [hsub', htold', hsub1, zero_add]
    exact hfollows.advance hlt.le
  | some t =>
    rw [hsub] at hfollows
    have hsub1 : s₁.remoteSubscribeGens p = some t := by rw [hsubs, hsub]
    have htold' : (notifySubscribers s₁).1.told p = min t s₁.generation := by
      simp [notifySubscribers, BarrierImpl.told, hsub1]
    have hsub' : (notifySubscribers s₁).1.remoteSubscribeGens p
        = if t ≤ s₁.generation then none else some t := by
      simp [notifySubscribers, hsub1]
    rw [hsub', htold', hsub1, htold]
    exact hfollows.notify hlt

theorem toSubscribers_notifySubscribers
    (hsubs : s₁.remoteSubscribeGens = s.remoteSubscribeGens) (woken : List ι) :
    ToSubscribers s
      { impl := (notifySubscribers s₁).1, sends := (notifySubscribers s₁).2, woken := woken } where
  sends := by
    intro packet hpacket
    obtain ⟨q, -, hq⟩ := mem_filterMap.mp hpacket
    cases hsub : s₁.remoteSubscribeGens q with
    | none => simp [notification, hsub] at hq
    | some t =>
      simp only [notification, hsub, Option.some.injEq] at hq
      subst hq
      refine ⟨?_, _, _, rfl⟩
      rw [← hsubs, hsub]
      exact Option.some_ne_none t
  subs := by
    intro p hp
    have hsub : s₁.remoteSubscribeGens p = none := by rw [hsubs, hp]
    simp [notifySubscribers, hsub]

theorem leads_of_same (hgen : s'.generation = s.generation)
    (hsubs : s'.remoteSubscribeGens = s.remoteSubscribeGens)
    (htrigger : s'.remoteTriggerGens = s.remoteTriggerGens)
    (hfirst : s'.firstGeneration = s.firstGeneration) (woken : List ι) :
    Leads s { impl := s', sends := [], woken := woken } := by
  intro p _ fly st hfollows
  have htold : s'.told p = s.told p := by rw [BarrierImpl.told, htrigger, hfirst, BarrierImpl.told]
  simp only [flying_nil, zero_add, hgen, hsubs, htold]
  exact hfollows

theorem toSubscribers_of_same (hsubs : s'.remoteSubscribeGens = s.remoteSubscribeGens)
    (woken : List ι) :
    ToSubscribers s { impl := s', sends := [], woken := woken } where
  sends := fun _ hp => absurd hp not_mem_nil
  subs := fun p hp => by simp only [hsubs, hp]

/-- What a step of the owner keeps. -/
structure OwnerStep (expected : Nat) (s : BarrierImpl n (Nat × ι)) (handled : Nat → Nat)
    (added woken : Multiset (Nat × ι)) (e : BarrierEffect n (Nat × ι)) : Prop where
  counts : Counts expected e.impl handled
  waiters : Waiters e.impl added (woken + ↑e.woken)
  owner : e.impl.owner = s.owner
  held : e.impl.heldTriggers = s.heldTriggers
  mono : s.generation ≤ e.impl.generation
  leads : Leads s e
  subscribers : ToSubscribers s e

section Adjust

variable {expected gen count : Nat} {s : BarrierImpl n (Nat × ι)} {handled : Nat → Nat}
  {added woken : Multiset (Nat × ι)} {me : Fin n}

theorem Counts.lt_of_lacking (h : Counts expected s handled) (hpos : 0 < gen) (hcount : 0 < count)
    (hlim : handled gen + count ≤ expected) : s.generation < gen := by
  by_contra hle
  have hdone := h.done gen hpos (not_lt.mp hle)
  omega

/-- The counts after `count` arrivals for `gen`, once the owner has taken the entries `gone`
and stopped at `upTo`. -/
theorem Counts.drain (h : Counts expected s handled) (hasc : s.generations.Ascending)
    (hexp : 0 < expected ∧ expected < 2 ^ 32) (hlt : s.generation < gen)
    (hlim : handled gen + count ≤ expected) {upTo : Nat}
    {gone stay : OrderedMap Nat (Generation (Nat × ι))} {toWake : List (Nat × ι)}
    (hd : Drained (s.generations.upsert gen fun g =>
      (g.getD .new).handleAdjustment (-ofNat 32 count)) upTo gone stay toWake)
    (hle : s.generation ≤ upTo)
    (hzero : ∀ e ∈ gone, s.baseArrivalCount + e.2.unguardedDelta = 0)
    (hall : ∀ g, s.generation < g → g ≤ upTo → ∃ e ∈ gone, e.1 = g)
    (hstop : ∀ e ∈ stay, e.1 = upTo + 1 → s.baseArrivalCount + e.2.unguardedDelta ≠ 0)
    {s' : BarrierImpl n (Nat × ι)} (hgen' : s'.generation = upTo) (hstay : s'.generations = stay)
    (hfirst : s'.firstGeneration = s.firstGeneration)
    (hfree : s'.freeGeneration = s.freeGeneration)
    (hbase : s'.baseArrivalCount = s.baseArrivalCount) :
    Counts expected s' (update handled gen (handled gen + count)) := by
  have hdeltas : ∀ e ∈ gone ++ stay, e.2.unguardedDelta
      = -ofNat 32 (update handled gen (handled gen + count) e.1) := fun e he =>
    h.deltas_upsert hasc hlt (hd.split ▸ he)
  have hlimit : ∀ g, update handled gen (handled gen + count) g ≤ expected := by
    intro g
    by_cases hg : g = gen
    · subst hg
      rw [update_self]
      exact hlim
    · rw [update_of_ne hg]
      exact h.limit g
  have hready : ∀ e ∈ gone ++ stay, s.baseArrivalCount + e.2.unguardedDelta = 0 ↔
      update handled gen (handled gen + count) e.1 = expected := fun e he => by
    rw [hdeltas e he, h.base]
    exact add_neg_eq_zero hexp.2 (hlimit e.1)
  have habsent :
    ∀ g, upTo < g → (∀ e ∈ stay, e.1 ≠ g) → update handled gen (handled gen + count) g = 0 := by
    intro g hg hstay
    -- the entry of `gen` is in `stay` or goes with the others
    have hnone : ∀ e ∈ gone ++ stay, e.1 ≠ g := fun e he => by
      obtain he | he := mem_append.mp he
      · exact ne_of_lt ((hd.gone_le e he).trans_lt hg)
      · exact hstay e he
    rw [← hd.split] at hnone
    have hne : g ≠ gen := fun heq =>
      hnone _ ((OrderedMap.mem_upsert hasc).mpr (.inl rfl)) heq.symm
    rw [update_of_ne hne]
    refine h.absent g (hle.trans_lt hg) fun e he heq => ?_
    exact hnone e ((OrderedMap.mem_upsert hasc).mpr (.inr ⟨he, heq ▸ hne⟩)) heq
  refine ⟨hfirst.trans h.first, hfree.trans h.free, hbase.trans h.base, ?_, ?_, hlimit, ?_, ?_⟩
  · rw [hstay]
    exact fun e he => hdeltas e (mem_append_right gone he)
  · rw [hgen', hstay]
    exact habsent
  · rw [hgen']
    intro g hpos hg
    by_cases hold : g ≤ s.generation
    · rw [update_of_ne (ne_of_lt (hold.trans_lt hlt))]
      exact h.done g hpos hold
    · obtain ⟨e, he, rfl⟩ := hall g (not_le.mp hold) hg
      exact (hready e (mem_append_left stay he)).mp (hzero e he)
  · rw [hgen']
    refine lt_of_le_of_ne (hlimit _) fun heq => ?_
    by_cases hentry : ∃ e ∈ stay, e.1 = upTo + 1
    · obtain ⟨e, he, hkey⟩ := hentry
      rw [← hkey] at heq
      exact hstop e he hkey ((hready e (mem_append_right gone he)).mpr heq)
    · rw [habsent (upTo + 1) (Nat.lt_succ_self upTo) fun e he hkey => hentry ⟨e, he, hkey⟩] at heq
      omega

/-- `adjust_arrival` on the owner, for arrivals that were still to come. -/
theorem adjustArrival_owner (h : Counts expected s handled) (hw : Waiters s added woken)
    (howner : s.owner = me) (hexp : 0 < expected ∧ expected < 2 ^ 32)
    (hgen : 0 < gen ∧ gen < 2 ^ 32) (hcount : 0 < count) (hlim : handled gen + count ≤ expected) :
    ∃ e, adjustArrival me gen (-ofNat 32 count) s = .ok e ∧
      OwnerStep expected s (update handled gen (handled gen + count)) added woken e := by
  have hlt := h.lt_of_lacking hgen.1 hcount hlim
  have hfree : s.generation < s.freeGeneration := by
    rw [h.free]
    omega
  have hbase : s.baseArrivalCount ≠ 0 := by
    rw [h.base]
    intro hz
    have hnat := congrArg toNat hz
    rw [toNat_ofNat, Nat.mod_eq_of_lt hexp.2] at hnat
    exact absurd hnat (ne_of_gt hexp.1)
  unfold adjustArrival
  rw [if_neg (not_not_intro howner), if_neg (not_not_intro hfree), if_neg hbase,
    if_neg (not_not_intro hlt)]
  extract_lets adjusted
  have hmod : (s.generation + 1) % 2 ^ 32 = s.generation + 1 := Nat.mod_eq_of_lt (by omega)
  have hadded : Waiters { s with generations := adjusted } added woken := by
    have hup : Waiters { s with generations := adjusted } (↑([] : List (Nat × ι)) + added) woken :=
      hw.upsert (f := fun g => (g.getD .new).handleAdjustment (-ofNat 32 count))
        ⟨hlt, hgen.2⟩ (fun g => (append_nil _).symm) (by simp) rfl rfl
    rwa [coe_nil, zero_add] at hup
  rw [hmod]
  by_cases hnext : gen = s.generation + 1
  · rw [if_pos hnext]
    obtain ⟨gone, hd, hle, hzero, hall, hstop⟩ :=
      triggerReady_spec s.baseArrivalCount hadded.ascending hadded.keys
    generalize htrig :
      triggerReady s.baseArrivalCount s.generation adjusted = r at hd hle hall hstop
    obtain ⟨last, stay, toWake⟩ := r
    simp only at hd hle hall hstop ⊢
    have hcounts : ∀ {s' : BarrierImpl n (Nat × ι)}, s'.generation = last → s'.generations = stay →
        s'.firstGeneration = s.firstGeneration → s'.freeGeneration = s.freeGeneration →
        s'.baseArrivalCount = s.baseArrivalCount →
        Counts expected s' (update handled gen (handled gen + count)) :=
      h.drain hw.ascending hexp hlt hlim hd hle hzero hall hstop
    by_cases hreached : gen ≤ last
    · rw [if_pos hreached]
      refine ⟨_, rfl, hcounts rfl rfl rfl rfl rfl, hadded.drain hd hle rfl rfl, rfl, rfl,
        hle, ?_, ?_⟩
      · refine leads_notifySubscribers ?_ ?_ ?_ ?_ toWake
        · exact hlt.trans_le hreached
        all_goals rfl
      · refine toSubscribers_notifySubscribers ?_ toWake
        rfl
    · rw [if_neg hreached]
      have hstill : last = s.generation := by omega
      refine ⟨_, rfl, hcounts rfl rfl rfl rfl rfl, hadded.drain hd hle rfl rfl, rfl, rfl,
        hle, ?_, ?_⟩
      · refine leads_of_same ?_ ?_ ?_ ?_ toWake
        · exact hstill
        all_goals rfl
      · refine toSubscribers_of_same ?_ toWake
        rfl
  · rw [if_neg hnext]
    have hd : Drained adjusted s.generation [] adjusted [] :=
      ⟨rfl, rfl, by simp, fun e he => (hadded.keys e he).1⟩
    have hstop :
      ∀ e ∈ adjusted, e.1 = s.generation + 1 → s.baseArrivalCount + e.2.unguardedDelta ≠ 0 := by
      intro e he hkey hsum
      obtain rfl | ⟨he, -⟩ := (OrderedMap.mem_upsert hw.ascending).mp he
      · exact hnext hkey
      · rw [h.base, h.deltas e he, add_neg_eq_zero hexp.2 (h.limit _), hkey] at hsum
        exact absurd hsum (ne_of_lt h.lacking)
    refine ⟨_, rfl, ?_, ?_, rfl, rfl, le_rfl, leads_of_same ?_ ?_ ?_ ?_ [],
      toSubscribers_of_same ?_ []⟩
    · refine h.drain hw.ascending hexp hlt hlim hd le_rfl (by simp) ?_ hstop rfl rfl rfl rfl rfl
      intro g hg hle
      exact absurd hle (not_le.mpr hg)
    · rw [coe_nil, add_zero]
      exact hadded
    all_goals rfl

end Adjust

/-! ### Subscriptions -/

/-- The owner's state apart from its records of the subscribers. -/
structure SameCounts (s s' : BarrierImpl n ι) : Prop where
  owner : s'.owner = s.owner
  held : s'.heldTriggers = s.heldTriggers
  generation : s'.generation = s.generation
  first : s'.firstGeneration = s.firstGeneration
  free : s'.freeGeneration = s.freeGeneration
  generations : s'.generations = s.generations
  base : s'.baseArrivalCount = s.baseArrivalCount

theorem Counts.of_same {expected : Nat} {handled : Nat → Nat}
    (h : Counts expected s handled) (hs : SameCounts s s') : Counts expected s' handled := by
  refine ⟨hs.first.trans h.first, hs.free.trans h.free, hs.base.trans h.base, ?_, ?_,
    h.limit, ?_, ?_⟩
  · rw [hs.generations]
    exact h.deltas
  · rw [hs.generation, hs.generations]
    exact h.absent
  · rw [hs.generation]
    exact h.done
  · rw [hs.generation]
    exact h.lacking

theorem Waiters.of_same {s s' : BarrierImpl n (Nat × ι)} {added woken : Multiset (Nat × ι)}
    (h : Waiters s added woken) (hgen : s'.generation = s.generation)
    (hgens : s'.generations = s.generations) : Waiters s' added woken := by
  refine ⟨?_, ?_, ?_, ?_, ?_⟩
  · rw [hgens]
    exact h.ascending
  · rw [hgen, hgens]
    exact h.keys
  · rw [hgens]
    exact h.tags
  · rw [h.added_eq, waiting, waiting, hgens]
  · rw [hgen]
    exact h.reached

/-- The owner handles a subscription of `node` to `g`. -/
structure Subscribed (node : Fin n) (g : Nat) (s : BarrierImpl n ι) (e : BarrierEffect n ι) :
    Prop where
  same : SameCounts s e.impl
  woken : e.woken = []
  others : ∀ p, p ≠ node → e.impl.remoteSubscribeGens p = s.remoteSubscribeGens p ∧
    e.impl.told p = s.told p ∧ flying p e.sends = 0
  follows : ∀ (asks asks' : Nat → Prop) (fly : Multiset (Nat × Nat)) (st : BarrierImpl n ι),
    Follows s.generation (s.remoteSubscribeGens node) (s.told node) asks fly st →
    (∀ x, asks x → asks' x ∨ x = g) →
      Follows e.impl.generation (e.impl.remoteSubscribeGens node) (e.impl.told node) asks'
        (flying node e.sends + fly) st
  sends : ∀ packet ∈ e.sends, packet.1 = node ∧
    ∃ triggerGen previousGen, packet.2 = .trigger triggerGen previousGen

theorem catchUp_spec (hfirst : s.firstGeneration = 0) (htold : s.told node ≤ s.generation) :
    SameCounts s (catchUp node s).impl ∧ (catchUp node s).woken = [] ∧
      (catchUp node s).impl.remoteSubscribeGens = s.remoteSubscribeGens ∧
      (∀ p, p ≠ node → (catchUp node s).impl.told p = s.told p ∧
      flying p (catchUp node s).sends = 0) ∧
      (catchUp node s).impl.told node = s.generation ∧
      flying node (catchUp node s).sends
        = (if s.told node < s.generation then {(s.told node, s.generation)} else 0) ∧
      ∀ packet ∈ (catchUp node s).sends, packet.1 = node ∧
        ∃ triggerGen previousGen, packet.2 = .trigger triggerGen previousGen := by
  have hiff : (s.firstGeneration < s.generation ∧
      (s.remoteTriggerGens node = none ∨ s.told node < s.generation)) ↔
      s.told node < s.generation := by
    rw [hfirst]
    constructor
    · rintro ⟨hpos, hnone | hlt⟩
      · rw [BarrierImpl.told, hnone, hfirst]
        exact hpos
      · exact hlt
    · exact fun hlt => ⟨Nat.zero_lt_of_lt hlt, .inr hlt⟩
  unfold catchUp
  by_cases hlt : s.told node < s.generation
  · rw [if_pos (hiff.mpr hlt), if_pos hlt]
    refine ⟨⟨rfl, rfl, rfl, rfl, rfl, rfl, rfl⟩, rfl, rfl, fun p hp => ⟨?_, ?_⟩, ?_, ?_, ?_⟩
    · simp [BarrierImpl.told, update_of_ne hp]
    · simp [flying, rangeFor, symm hp]
    · simp [BarrierImpl.told]
    · simp [flying, rangeFor]
    · simp
  · rw [if_neg (fun h => hlt (hiff.mp h)), if_neg hlt]
    refine ⟨⟨rfl, rfl, rfl, rfl, rfl, rfl, rfl⟩, rfl, rfl, fun p hp => ⟨rfl, rfl⟩, ?_, rfl, by simp⟩
    exact le_antisymm htold (not_lt.mp hlt)

theorem subscribed_catchUp {g : Nat} (hfirst : s.firstGeneration = 0)
    (htold : s.told node ≤ s.generation)
    (hold : ∀ t, s.remoteSubscribeGens node = some t → t < g) (hsame : SameCounts s s₁)
    (htrigger : s₁.remoteTriggerGens = s.remoteTriggerGens)
    (hothers : ∀ p, p ≠ node → s₁.remoteSubscribeGens p = s.remoteSubscribeGens p)
    (hsub : s₁.remoteSubscribeGens node = if s.generation < g then some g else none) :
    Subscribed node g s (catchUp node s₁) := by
  have htold1 : ∀ p, s₁.told p = s.told p := fun p => by
    rw [BarrierImpl.told, htrigger, hsame.first, BarrierImpl.told]
  have hle1 : s₁.told node ≤ s₁.generation := by
    rw [htold1, hsame.generation]
    exact htold
  obtain ⟨hcs, hwoken, hsubs, hrest, hnode, hfly, hsends⟩ :=
    catchUp_spec (hsame.first.trans hfirst) hle1
  refine ⟨⟨hcs.owner.trans hsame.owner, hcs.held.trans hsame.held,
    hcs.generation.trans hsame.generation, hcs.first.trans hsame.first, hcs.free.trans hsame.free,
    hcs.generations.trans hsame.generations, hcs.base.trans hsame.base⟩, hwoken, ?_, ?_, hsends⟩
  · intro p hp
    exact ⟨by rw [hsubs, hothers p hp], (hrest p hp).1.trans (htold1 p), (hrest p hp).2⟩
  · intro asks _ fly st hfollows hasks
    have hcatch := hfollows.catchUp hasks hold hsub
    rw [hsubs, hnode, hcs.generation, hfly, htold1, hsame.generation]
    by_cases hlt : s.told node < s.generation
    · rw [if_pos hlt] at hcatch ⊢
      exact hcatch
    · rw [if_neg hlt] at hcatch ⊢
      rw [zero_add]
      exact hcatch

/-- `BarrierSubscribeMessage::handle_request` on the owner. -/
theorem handleSubscribe_owner {g : Nat}
    (hfirst : s.firstGeneration = 0) (hg : 0 < g) (htold : s.told node ≤ s.generation)
    (hsub : ∀ t, s.remoteSubscribeGens node = some t → s.generation < t) :
    ∃ e, handleSubscribe node g s = .ok e ∧ Subscribed node g s e := by
  unfold handleSubscribe
  have hlifetime : s.firstGeneration < g := by
    rw [hfirst]
    exact hg
  rw [if_neg (not_not_intro hlifetime)]
  have hsame :
    SameCounts s { s with remoteSubscribeGens := update s.remoteSubscribeGens node (some g) } :=
    ⟨rfl, rfl, rfl, rfl, rfl, rfl, rfl⟩
  cases hrec : s.remoteSubscribeGens node with
  | some t =>
    have hlt := hsub t hrec
    simp only [not_not_intro hlt]
    by_cases hcovered : g ≤ t
    · rw [if_pos hcovered]
      refine ⟨_, rfl, ⟨rfl, rfl, rfl, rfl, rfl, rfl, rfl⟩, rfl, fun p _ => ⟨rfl, rfl, rfl⟩,
        ?_, by simp⟩
      intro asks _ fly st hfollows hasks
      rw [flying_nil, zero_add]
      rw [hrec] at hfollows ⊢
      exact hfollows.covered hcovered hasks
    · rw [if_neg hcovered]
      have hahead : s.generation < g := hlt.trans (not_le.mp hcovered)
      refine ⟨_, rfl, subscribed_catchUp hfirst htold ?_ hsame rfl ?_ ?_⟩
      · intro t' ht'
        rw [hrec] at ht'
        obtain rfl := Option.some.inj ht'
        exact not_le.mp hcovered
      · exact fun p hp => update_of_ne hp _ _
      · rw [if_pos hahead]
        exact update_self ..
  | none =>
    have hold : ∀ t, s.remoteSubscribeGens node = some t → t < g := fun t ht => by
      rw [hrec] at ht
      cases ht
    by_cases hahead : s.generation < g
    · simp only [if_pos hahead]
      refine ⟨_, rfl, subscribed_catchUp hfirst htold hold hsame rfl ?_ ?_⟩
      · exact fun p hp => update_of_ne hp _ _
      · rw [if_pos hahead]
        exact update_self ..
    · simp only [if_neg hahead]
      refine ⟨_, rfl, subscribed_catchUp hfirst htold hold ⟨rfl, rfl, rfl, rfl, rfl, rfl, rfl⟩ rfl
        (fun p _ => rfl) ?_⟩
      rw [if_neg hahead, hrec]

end CharmRuntime.Legion.Barrier
