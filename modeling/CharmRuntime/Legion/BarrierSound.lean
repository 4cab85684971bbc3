import CharmRuntime.Legion.BarrierSteps
import Mathlib.Algebra.BigOperators.Group.List.Basic

/-!
# Legion.BarrierSound

**Barrier phases trigger in order, and every waiter is woken once.** The invariant of all
nodes and messages (`BarrierInv`) puts the parts of `BarrierSteps` together: the owner's
counts are those of the arrivals that it has handled, and every other node follows the
owner.
-/

namespace CharmRuntime.Legion.Barrier

open Lib Function List

variable {n : Nat} {ι : Type}

/-! ### The invariant -/

/-- A message that the code sends: arrivals and subscriptions go to the owner, triggers go
to the others. -/
def PacketOk (o : Fin n) : Fin n × BarrierMsg n → Prop
  | (q, .adjust gen delta) => q = o ∧ (0 < gen ∧ gen < 2 ^ 32) ∧ 0 < (-delta).toNat
  | (q, .subscribe node gen) => q = o ∧ node ≠ o ∧ 0 < gen
  | (q, .trigger _ _) => q ≠ o

/-- The arrivals for `gen` that a message carries. -/
def arrivalsIn (gen : Nat) : Fin n × BarrierMsg n → Nat
  | (_, .adjust gen' delta) => if gen' = gen then (-delta).toNat else 0
  | _ => 0

/-- The arrivals for `gen` on their way to the owner. -/
def pending (gen : Nat) (net : List (Fin n × BarrierMsg n)) : Nat :=
  (net.map (arrivalsIn gen)).sum

structure BarrierInv (o : Fin n) (expected : Nat) (w : World n ι) : Prop where
  owner : ∀ p, (w.impl p).owner = o
  counts : Counts expected (w.impl o) w.handled
  waiters : ∀ p, Waiters (w.impl p) (w.added p) (w.woken p)
  follows : ∀ p, p ≠ o →
    Follows (w.impl o).generation ((w.impl o).remoteSubscribeGens p) ((w.impl o).told p)
      (fun gen => (o, .subscribe p gen) ∈ w.net) (flying p w.net) (w.impl p)
  asked_lt : ∀ p, ∀ gen ∈ w.asked p, gen < 2 ^ 32
  asked : ∀ p, p ≠ o → ∀ gen ∈ w.asked p,
    gen ≤ (w.impl p).generation ∨ gen ≤ (w.impl p).genSubscribed
  /-- A node waits for generations that it has subscribed to. -/
  entries : ∀ p, p ≠ o → ∀ e ∈ (w.impl p).generations, e.1 ≤ (w.impl p).genSubscribed
  packets : ∀ packet ∈ w.net, PacketOk o packet
  arrivals : ∀ gen, w.arrived gen = w.handled gen + pending gen w.net
  arrived_le : ∀ gen, w.arrived gen ≤ expected
  unsubscribed : (w.impl o).remoteSubscribeGens o = none
  owner_held : (w.impl o).heldTriggers = []

/-! ### Messages in flight -/

theorem flying_append (p : Fin n) (net sends : List (Fin n × BarrierMsg n)) :
    flying p (net ++ sends) = flying p net + flying p sends := by
  simp [flying]

theorem pending_append (gen : Nat) (net sends : List (Fin n × BarrierMsg n)) :
    pending gen (net ++ sends) = pending gen net + pending gen sends := by
  simp [pending]

variable {net : List (Fin n × BarrierMsg n)} {k : Nat} {packet : Fin n × BarrierMsg n}
  {expected : Nat}

theorem flying_eraseIdx (h : net[k]? = some packet) (p : Fin n) :
    flying p net = ↑(rangeFor p packet).toList + flying p (net.eraseIdx k) := by
  have hperm := (perm_eraseIdx h).filterMap (rangeFor p)
  rw [flying, Multiset.coe_eq_coe.mpr hperm, filterMap_cons]
  cases rangeFor p packet with
  | none => simp [flying]
  | some r => simp [flying]

theorem pending_eraseIdx (h : net[k]? = some packet) (gen : Nat) :
    pending gen net = arrivalsIn gen packet + pending gen (net.eraseIdx k) := by
  have hperm := ((perm_eraseIdx h).map (arrivalsIn gen)).sum_eq
  exact hperm

theorem mem_eraseIdx_of_ne {other : Fin n × BarrierMsg n} (h : net[k]? = some packet)
    (hne : other ≠ packet)
    (hmem : other ∈ net) : other ∈ net.eraseIdx k := by
  obtain rfl | hrest := mem_cons.mp ((perm_eraseIdx h).mem_iff.mp hmem)
  · exact absurd rfl hne
  · exact hrest

theorem pending_of_triggers {sends : List (Fin n × BarrierMsg n)} (gen : Nat)
    (h : ∀ packet ∈ sends, ∃ triggerGen previousGen, packet.2 = .trigger triggerGen previousGen) :
    pending gen sends = 0 := by
  refine sum_eq_zero fun x hx => ?_
  obtain ⟨⟨q, msg⟩, hpacket, rfl⟩ := mem_map.mp hx
  obtain ⟨_, _, hmsg⟩ := h _ hpacket
  subst hmsg
  rfl

/-! ### A step of the owner -/

section Steps

variable {o : Fin n} {expected : Nat} {w : World n ι}

variable {added' : Multiset (Nat × ι)} {net' : List (Fin n × BarrierMsg n)}
  {e : BarrierEffect n (Nat × ι)} {gen : Nat} {p : Fin n} {k : Nat}

/-- A step of the owner that adds the waiters `added'` and handles arrivals; `net'` is what
is in flight before it sends. -/
theorem ownerStep_inv (h : BarrierInv o expected w) {handled' arrived' : Nat → Nat}
    (hs : OwnerStep expected (w.impl o) handled' added' (w.woken o) e)
    (hflying : ∀ p, flying p net' = flying p w.net)
    (hasks : ∀ p gen, (o, .subscribe p gen) ∈ w.net → (o, .subscribe p gen) ∈ net')
    (hpackets : ∀ packet ∈ net', packet ∈ w.net)
    (harrivals : ∀ gen, arrived' gen = handled' gen + pending gen net')
    (hle : ∀ gen, arrived' gen ≤ expected) :
    BarrierInv o expected (World.commit { w with
          net := net'
          arrived := arrived'
          handled := handled'
          added := update w.added o added' } o e) := by
  refine ⟨?_, ?_, ?_, ?_, h.asked_lt, ?_, ?_, ?_, ?_, hle, ?_, ?_⟩
  · intro p
    by_cases hp : p = o
    · subst hp
      simp only [World.commit, update_self]
      exact hs.owner.trans (h.owner p)
    · simp only [World.commit, update_of_ne hp]
      exact h.owner p
  · simp only [World.commit, update_self]
    exact hs.counts
  · intro p
    by_cases hp : p = o
    · subst hp
      simp only [World.commit, update_self]
      exact hs.waiters
    · simp only [World.commit, update_of_ne hp]
      exact h.waiters p
  · intro p hp
    simp only [World.commit, update_self, update_of_ne hp, flying_append, hflying,
      add_comm (flying p w.net)]
    refine (hs.leads p _ _ _ (h.follows p hp)).asks_mono fun gen hgen => ?_
    exact mem_append_left _ (hasks p gen hgen)
  · intro p hp
    simp only [World.commit, update_of_ne hp]
    exact h.asked p hp
  · intro p hp
    simp only [World.commit, update_of_ne hp]
    exact h.entries p hp
  · intro packet hpacket
    obtain hold | hnew := mem_append.mp hpacket
    · exact h.packets packet (hpackets packet hold)
    · obtain ⟨hsub, triggerGen, previousGen, hmsg⟩ := hs.subscribers.sends packet hnew
      obtain ⟨q, msg⟩ := packet
      subst hmsg
      exact fun hq => hsub (hq ▸ h.unsubscribed)
  · intro gen
    simp only [World.commit, pending_append]
    rw [pending_of_triggers gen fun packet hp => (hs.subscribers.sends packet hp).2]
    exact harrivals gen
  · simp only [World.commit, update_self]
    exact hs.subscribers.subs o h.unsubscribed
  · simp only [World.commit, update_self]
    exact hs.held.trans h.owner_held

/-- A step of another node. `net'` is what is in flight before it sends. -/
theorem nodeStep_inv (h : BarrierInv o expected w) (hp : p ≠ o)
    {asked' : List Nat} (howner : e.impl.owner = o)
    (hwaiters : Waiters e.impl added' (w.woken p + ↑e.woken))
    (hfollows : Follows (w.impl o).generation ((w.impl o).remoteSubscribeGens p)
      ((w.impl o).told p) (fun gen => (o, .subscribe p gen) ∈ net' ++ e.sends) (flying p net')
      e.impl)
    (hasked_lt : ∀ gen ∈ asked', gen < 2 ^ 32)
    (hasked : ∀ gen ∈ asked', gen ≤ e.impl.generation ∨ gen ≤ e.impl.genSubscribed)
    (hentries : ∀ entry ∈ e.impl.generations, entry.1 ≤ e.impl.genSubscribed)
    (hflying : ∀ q, q ≠ p → flying q net' = flying q w.net)
    (hasks : ∀ q gen, (o, .subscribe q gen) ∈ w.net → (o, .subscribe q gen) ∈ net')
    (hpackets : ∀ packet ∈ net', packet ∈ w.net)
    (hpending : ∀ gen, pending gen net' = pending gen w.net)
    (hsends : e.sends = [] ∨ ∃ gen, 0 < gen ∧ e.sends = [(o, .subscribe p gen)]) :
    BarrierInv o expected (World.commit { w with
          net := net'
          asked := update w.asked p asked'
          added := update w.added p added' } p e) := by
  have hsame : ∀ {q}, q = p ∨ q ≠ p := fun {q} => em (q = p)
  have hnofly : ∀ q, flying q e.sends = 0 := by
    intro q
    obtain hnil | ⟨gen, -, hone⟩ := hsends
    · rw [hnil]
      rfl
    · rw [hone]
      rfl
  have hnopending : ∀ gen, pending gen e.sends = 0 := by
    intro gen
    obtain hnil | ⟨g, -, hone⟩ := hsends
    · rw [hnil]
      rfl
    · rw [hone]
      rfl
  refine ⟨?_, ?_, ?_, ?_, ?_, ?_, ?_, ?_, ?_, h.arrived_le, ?_, ?_⟩
  · intro q
    obtain rfl | hq := hsame (q := q)
    · simp only [World.commit, update_self]
      exact howner
    · simp only [World.commit, update_of_ne hq]
      exact h.owner q
  · simp only [World.commit, update_of_ne (symm hp)]
    exact h.counts
  · intro q
    obtain rfl | hq := hsame (q := q)
    · simp only [World.commit, update_self]
      exact hwaiters
    · simp only [World.commit, update_of_ne hq]
      exact h.waiters q
  · intro q hqo
    simp only [World.commit, update_of_ne (symm hp), flying_append, hnofly, add_zero]
    obtain rfl | hq := hsame (q := q)
    · simp only [update_self]
      exact hfollows
    · simp only [update_of_ne hq, hflying q hq]
      refine (h.follows q hqo).asks_mono fun gen hgen => ?_
      exact mem_append_left _ (hasks q gen hgen)
  · intro q
    obtain rfl | hq := hsame (q := q)
    · simp only [World.commit, update_self]
      exact hasked_lt
    · simp only [World.commit, update_of_ne hq]
      exact h.asked_lt q
  · intro q hqo
    obtain rfl | hq := hsame (q := q)
    · simp only [World.commit, update_self]
      exact hasked
    · simp only [World.commit, update_of_ne hq]
      exact h.asked q hqo
  · intro q hqo
    obtain rfl | hq := hsame (q := q)
    · simp only [World.commit, update_self]
      exact hentries
    · simp only [World.commit, update_of_ne hq]
      exact h.entries q hqo
  · intro packet hpacket
    obtain hold | hnew := mem_append.mp hpacket
    · exact h.packets packet (hpackets packet hold)
    · obtain hnil | ⟨gen, hgen, hone⟩ := hsends
      · rw [hnil] at hnew
        exact absurd hnew not_mem_nil
      · rw [hone] at hnew
        obtain rfl := mem_singleton.mp hnew
        exact ⟨rfl, hp, hgen⟩
  · intro gen
    simp only [World.commit, pending_append, hnopending, hpending]
    exact h.arrivals gen
  · simp only [World.commit, update_of_ne (symm hp)]
    exact h.unsubscribed
  · simp only [World.commit, update_of_ne (symm hp)]
    exact h.owner_held

/-! ### The events -/

/-- No node's generation decreases. -/
def World.Behind (w w' : World n ι) : Prop :=
  ∀ p, (w.impl p).generation ≤ (w'.impl p).generation

theorem behind_commit {w1 : World n ι} (himpl : w1.impl = w.impl)
    (hle : (w.impl p).generation ≤ e.impl.generation) :
    w.Behind (w1.commit p e) := by
  intro q
  by_cases hq : q = p
  · subst hq
    simp only [World.commit, update_self]
    exact hle
  · simp only [World.commit, update_of_ne hq, himpl]
    exact le_rfl

theorem neg_ofNat_toNat_neg (delta : BitVec 32) : -BitVec.ofNat 32 (-delta).toNat = delta := by
  rw [BitVec.ofNat_toNat, BitVec.setWidth_eq, neg_neg]

theorem toNat_neg_neg_ofNat {count : Nat} (h : count < 2 ^ 32) :
    (- -BitVec.ofNat 32 count).toNat = count := by
  rw [neg_neg, BitVec.toNat_ofNat, Nat.mod_eq_of_lt h]

theorem BarrierInv.sent (h : BarrierInv o expected w) (packet : Fin n × BarrierMsg n)
    (arrived' : Nat → Nat) (hpacket : PacketOk o packet) (hrange : ∀ q, rangeFor q packet = none)
    (harrivals : ∀ gen, arrived' gen = w.arrived gen + arrivalsIn gen packet)
    (hle : ∀ gen, arrived' gen ≤ expected) :
    BarrierInv o expected { w with net := w.net ++ [packet], arrived := arrived' } :=
  { h with
    follows := by
      intro q hq
      have hfly : flying q [packet] = 0 := by simp [flying, hrange q]
      simp only [flying_append, hfly, add_zero]
      exact (h.follows q hq).asks_mono fun gen hgen => mem_append_left _ hgen
    packets := by
      intro packet' hmem
      obtain hold | hnew := mem_append.mp hmem
      · exact h.packets packet' hold
      · obtain rfl := mem_singleton.mp hnew
        exact hpacket
    arrivals := by
      intro gen
      simp only [pending_append, harrivals gen, h.arrivals gen]
      simp [pending, add_assoc]
    arrived_le := hle }

theorem BarrierInv.arrive (h : BarrierInv o expected w) (hexp : 0 < expected ∧ expected < 2 ^ 32)
    {count : Nat} (he : w.Enabled expected (.arrive p gen count)) :
    ∃ w', w.next (.arrive p gen count) = .ok w' ∧ BarrierInv o expected w' ∧ w.Behind w' := by
  obtain ⟨hpos, hlt, hcount, hlim⟩ := he
  have hcount_lt : count < 2 ^ 32 := by omega
  have hhandled : w.handled gen + count ≤ expected := by
    have := h.arrivals gen
    omega
  have harrived : ∀ g, update w.arrived gen (w.arrived gen + count) g ≤ expected := by
    intro g
    by_cases hg : g = gen
    · subst hg
      rw [update_self]
      exact hlim
    · rw [update_of_ne hg]
      exact h.arrived_le g
  have hbooks : ∀ g, update w.arrived gen (w.arrived gen + count) g
      = w.arrived g + if g = gen then count else 0 := by
    intro g
    by_cases hg : g = gen
    · subst hg
      rw [update_self, if_pos rfl]
    · rw [update_of_ne hg, if_neg hg, add_zero]
  by_cases hp : p = o
  · subst hp
    obtain ⟨e, heff, hs⟩ := adjustArrival_owner h.counts (h.waiters p) (h.owner p) hexp ⟨hpos, hlt⟩
      hcount hhandled
    have hinv := ownerStep_inv h hs (fun _ => rfl) (fun _ _ hmem => hmem) (fun _ hmem => hmem)
      (fun g => ?_) harrived
    · rw [update_eq_self] at hinv
      refine ⟨_, ?_, hinv, behind_commit rfl hs.mono⟩
      simp only [World.next, heff, World.noteHandled, h.owner p, if_true,
        toNat_neg_neg_ofNat hcount_lt]
    · rw [hbooks, h.arrivals g]
      by_cases hg : g = gen
      · subst hg
        rw [update_self, if_pos rfl]
        omega
      · rw [update_of_ne hg, if_neg hg, add_zero]
  · have howner : (w.impl p).owner ≠ p := fun heq => hp (heq.symm.trans (h.owner p))
    let packet : Fin n × BarrierMsg n := (o, .adjust gen (-BitVec.ofNat 32 count))
    refine ⟨_, ?_, h.sent packet (update w.arrived gen (w.arrived gen + count)) ?_ ?_ ?_
      harrived, fun _ => le_rfl⟩
    · have heff : adjustArrival p gen (-BitVec.ofNat 32 count) (w.impl p)
          = .ok { impl := w.impl p, sends := [packet], woken := [] } := by
        rw [adjustArrival, if_pos howner, h.owner p]
      simp only [World.next, heff, World.noteHandled, if_neg howner, World.commit,
        update_eq_self, Multiset.coe_nil, add_zero]
    · refine ⟨rfl, ⟨hpos, hlt⟩, ?_⟩
      rw [toNat_neg_neg_ofNat hcount_lt]
      exact hcount
    · exact fun q => rfl
    · intro g
      rw [hbooks, arrivalsIn, toNat_neg_neg_ofNat hcount_lt]
      simp only [eq_comm]

/-- A query does not fail, and subscribes at most. -/
theorem BarrierInv.hasTriggered (h : BarrierInv o expected w) (he : gen < 2 ^ 32) :
    ∃ w', w.next (.hasTriggered p gen) = .ok w' ∧ BarrierInv o expected w' ∧ w.Behind w' := by
  have hmono :
    (w.impl p).generation ≤ (Barrier.hasTriggered p gen (w.impl p)).2.impl.generation := by
    unfold Barrier.hasTriggered
    split
    · exact le_rfl
    · split <;> exact le_rfl
  refine ⟨_, rfl, ?_, behind_commit rfl hmono⟩
  have hasked_lt : ∀ g ∈ gen :: w.asked p, g < 2 ^ 32 :=
    forall_mem_cons.mpr ⟨he, h.asked_lt p⟩
  by_cases hp : p = o
  · subst hp
    have heff :
      (hasTriggered p gen (w.impl p)).2 = { impl := w.impl p, sends := [], woken := [] } := by
      unfold hasTriggered
      rw [h.owner p]
      simp only [ne_eq, false_and]
      split <;> rfl
    simp only [heff, World.commit, update_eq_self, append_nil, Multiset.coe_nil, add_zero]
    refine { h with asked_lt := fun q => ?_, asked := fun q hq => ?_ }
    · by_cases hq : q = p
      · subst hq
        simp only [update_self]
        exact hasked_lt
      · simp only [update_of_ne hq]
        exact h.asked_lt q
    · simp only [update_of_ne hq]
      exact h.asked q hq
  · have howner : (w.impl p).owner ≠ p := fun heq => hp (heq.symm.trans (h.owner p))
    have hstep : ∀ {e : BarrierEffect n (Nat × ι)} {subscribed : Nat},
        e.impl = { w.impl p with genSubscribed := subscribed } → e.woken = [] →
        (gen ≤ (w.impl p).generation ∨ gen ≤ subscribed) → (w.impl p).genSubscribed ≤ subscribed →
        ((subscribed = (w.impl p).genSubscribed ∧ e.sends = []) ∨
          (0 < subscribed ∧ e.sends = [(o, .subscribe p subscribed)])) →
        BarrierInv o expected
          (World.commit { w with asked := update w.asked p (gen :: w.asked p) } p e) := by
      intro e subscribed himpl hwoken hgen hmore hsends
      rw [← update_eq_self p w.added]
      refine nodeStep_inv h hp ?_ ?_ ?_ hasked_lt ?_ ?_ (fun _ _ => rfl) (fun _ _ hmem => hmem)
        (fun _ hmem => hmem) (fun _ => rfl) ?_
      · rw [himpl]
        exact h.owner p
      · rw [hwoken, Multiset.coe_nil, add_zero, himpl]
        exact (h.waiters p).of_same rfl rfl
      · rw [himpl]
        have hfollows := (h.follows p hp).asks_mono fun g hg => mem_append_left e.sends hg
        obtain ⟨hsame, -⟩ | ⟨-, hnew⟩ := hsends
        · rw [hsame]
          exact hfollows
        · refine { hfollows with subscribed := .inl ?_ }
          rw [hnew]
          exact mem_append_right _ (mem_singleton_self _)
      · rw [himpl]
        refine forall_mem_cons.mpr ⟨hgen, fun g hg => ?_⟩
        exact (h.asked p hp g hg).imp_right fun hle => hle.trans hmore
      · rw [himpl]
        exact fun entry hentry => (h.entries p hp entry hentry).trans hmore
      · obtain ⟨-, hnil⟩ | ⟨hpos, hnew⟩ := hsends
        · exact .inl hnil
        · exact .inr ⟨subscribed, hpos, hnew⟩
    unfold Barrier.hasTriggered
    by_cases hreached : gen ≤ (w.impl p).generation
    · simp only [if_pos hreached]
      exact hstep rfl rfl (.inl hreached) le_rfl (.inl ⟨rfl, rfl⟩)
    · simp only [if_neg hreached]
      by_cases hnew : (w.impl p).genSubscribed < gen
      · simp only [if_pos (And.intro howner hnew)]
        refine hstep rfl rfl (.inr le_rfl) hnew.le (.inr ⟨Nat.zero_lt_of_lt hnew, ?_⟩)
        rw [h.owner p]
      · simp only [if_neg fun hsub : (w.impl p).owner ≠ p ∧ _ => hnew hsub.2]
        exact hstep rfl rfl (.inr (not_lt.mp hnew)) le_rfl (.inl ⟨rfl, rfl⟩)

theorem BarrierInv.addWaiter (h : BarrierInv o expected w) {waiter : ι} (he : gen ∈ w.asked p) :
    ∃ w', w.next (.addWaiter p gen waiter) = .ok w' ∧ BarrierInv o expected w' ∧ w.Behind w' := by
  have hsub :
    (w.impl p).generation < gen → (w.impl p).owner = p ∨ gen ≤ (w.impl p).genSubscribed := by
    intro hlt
    by_cases hp : p = o
    · exact .inl ((h.owner p).trans hp.symm)
    · exact .inr ((h.asked p hp gen he).resolve_left (not_le.mpr hlt))
  obtain ⟨e, heff, hwaiters, hsends, himpl⟩ :=
    addWaiter_ok waiter (h.waiters p) (h.asked_lt p gen he) hsub
  obtain ⟨s', sends, toWake⟩ := e
  subst hsends
  refine ⟨World.commit { w with added := update w.added p ((gen, waiter) ::ₘ w.added p) } p
    { impl := s', sends := [], woken := toWake }, by simp only [World.next, heff], ?_,
    behind_commit rfl ?_⟩
  rotate_left
  · obtain ⟨-, rfl⟩ | rfl := himpl <;> exact le_rfl
  by_cases hp : p = o
  · subst hp
    have hs : OwnerStep expected (w.impl p) w.handled ((gen, waiter) ::ₘ w.added p) (w.woken p)
        { impl := s', sends := [], woken := toWake } := by
      obtain ⟨hlt, rfl⟩ | rfl := himpl
      · refine ⟨h.counts.waitFor (h.waiters p).ascending hlt _, hwaiters, rfl, rfl, le_rfl,
          leads_of_same ?_ ?_ ?_ ?_ toWake, toSubscribers_of_same ?_ toWake⟩
        all_goals rfl
      · exact ⟨h.counts, hwaiters, rfl, rfl, le_rfl, leads_of_same rfl rfl rfl rfl toWake,
          toSubscribers_of_same rfl toWake⟩
    exact ownerStep_inv h hs (fun _ => rfl) (fun _ _ hmem => hmem) (fun _ hmem => hmem) h.arrivals
      h.arrived_le
  · rw [← update_eq_self p w.asked]
    refine nodeStep_inv h hp ?_ hwaiters ?_ (h.asked_lt p) ?_ ?_ (fun _ _ => rfl)
      (fun _ _ hmem => hmem) (fun _ hmem => hmem) (fun _ => rfl) (.inl rfl)
    · obtain ⟨-, rfl⟩ | rfl := himpl
      · exact h.owner p
      · exact h.owner p
    · rw [append_nil]
      obtain ⟨-, rfl⟩ | rfl := himpl
      · exact { h.follows p hp with }
      · exact h.follows p hp
    · obtain ⟨-, rfl⟩ | rfl := himpl
      · exact h.asked p hp
      · exact h.asked p hp
    · obtain ⟨hlt, rfl⟩ | rfl := himpl
      · intro entry hentry
        obtain rfl | ⟨hentry, -⟩ := (OrderedMap.mem_upsert (h.waiters p).ascending).mp hentry
        · exact (h.asked p hp gen he).resolve_left (not_le.mpr hlt)
        · exact h.entries p hp entry hentry
      · exact h.entries p hp

theorem BarrierInv.deliverAdjust (h : BarrierInv o expected w)
    (hexp : 0 < expected ∧ expected < 2 ^ 32) {delta : BitVec 32}
    (hk : w.net[k]? = some (p, .adjust gen delta)) :
    ∃ w', w.next (.deliver k) = .ok w' ∧ BarrierInv o expected w' ∧ w.Behind w' := by
  obtain ⟨rfl, hgen, hcount⟩ := h.packets _ (mem_of_getElem? hk)
  have hpending := pending_eraseIdx hk
  have hhandled : w.handled gen + (-delta).toNat ≤ expected := by
    have harrivals := h.arrivals gen
    rw [hpending gen, arrivalsIn, if_pos rfl] at harrivals
    have hle := h.arrived_le gen
    omega
  obtain ⟨e, heff, hs⟩ :=
    adjustArrival_owner h.counts (h.waiters p) (h.owner p) hexp hgen hcount hhandled
  rw [neg_ofNat_toNat_neg] at heff
  refine ⟨World.commit { w with
      net := w.net.eraseIdx k
      handled := update w.handled gen (w.handled gen + (-delta).toNat) } p e, ?_, ?_,
        behind_commit rfl hs.mono⟩
  · simp only [World.next, hk, handle, heff, World.noteDelivery, World.noteHandled,
      h.owner p, if_true]
  · rw [← update_eq_self p w.added]
    refine ownerStep_inv h hs (fun q => ?_) (fun q g hmem => mem_eraseIdx_of_ne hk (by simp) hmem)
      (fun packet hmem => mem_of_mem_eraseIdx hmem) (fun g => ?_) h.arrived_le
    · rw [flying_eraseIdx hk q]
      exact (zero_add _).symm
    · rw [h.arrivals g, hpending g, arrivalsIn]
      by_cases hg : g = gen
      · subst hg
        rw [update_self, if_pos rfl, add_assoc]
      · rw [update_of_ne hg, if_neg (Ne.symm hg), zero_add]

/-- The owner handles a subscription. -/
theorem BarrierInv.deliverSubscribe (h : BarrierInv o expected w) {node : Fin n}
    (hk : w.net[k]? = some (p, .subscribe node gen)) :
    ∃ w', w.next (.deliver k) = .ok w' ∧ BarrierInv o expected w' ∧ w.Behind w' := by
  obtain ⟨rfl, hnode, hgen⟩ := h.packets _ (mem_of_getElem? hk)
  have hfollows := h.follows node hnode
  obtain ⟨e, heff, hs⟩ := handleSubscribe_owner h.counts.first hgen hfollows.told_le
    fun t ht => (hfollows.sub_gt t ht).1
  refine ⟨World.commit { w with net := w.net.eraseIdx k } p e, ?_, ?_,
    behind_commit rfl hs.same.generation.ge⟩
  · simp only [World.next, hk, handle, heff, World.noteDelivery]
  have hfly : ∀ q, flying q w.net = flying q (w.net.eraseIdx k) := fun q => by
    rw [flying_eraseIdx hk q]
    exact zero_add _
  have hnopending : ∀ g, pending g e.sends = 0 := fun g =>
    pending_of_triggers g fun packet hp => (hs.sends packet hp).2
  refine ⟨?_, ?_, ?_, ?_, h.asked_lt, ?_, ?_, ?_, ?_, h.arrived_le, ?_, ?_⟩
  · intro q
    by_cases hq : q = p
    · subst hq
      simp only [World.commit, update_self]
      exact hs.same.owner.trans (h.owner q)
    · simp only [World.commit, update_of_ne hq]
      exact h.owner q
  · simp only [World.commit, update_self]
    exact h.counts.of_same hs.same
  · intro q
    by_cases hq : q = p
    · subst hq
      simp only [World.commit, update_self, hs.woken, Multiset.coe_nil, add_zero]
      exact (h.waiters q).of_same hs.same.generation hs.same.generations
    · simp only [World.commit, update_of_ne hq]
      exact h.waiters q
  · intro q hq
    simp only [World.commit, update_self, update_of_ne hq, flying_append, ← hfly,
      add_comm (flying q w.net)]
    by_cases hqn : q = node
    · subst hqn
      refine hs.follows _ _ _ _ hfollows fun x hx => ?_
      by_cases hxg : x = gen
      · exact .inr hxg
      · refine .inl (mem_append_left _ (mem_eraseIdx_of_ne hk ?_ hx))
        simp [hxg]
    · obtain ⟨hsub, htold, hnofly⟩ := hs.others q hqn
      rw [hsub, htold, hnofly, hs.same.generation]
      refine (h.follows q hq).asks_mono fun x hx => ?_
      refine mem_append_left _ (mem_eraseIdx_of_ne hk ?_ hx)
      simp [hqn]
  · intro q hq
    simp only [World.commit, update_of_ne hq]
    exact h.asked q hq
  · intro q hq
    simp only [World.commit, update_of_ne hq]
    exact h.entries q hq
  · intro packet hpacket
    obtain hold | hnew := mem_append.mp hpacket
    · exact h.packets packet (mem_of_mem_eraseIdx hold)
    · obtain ⟨hdest, triggerGen, previousGen, hmsg⟩ := hs.sends packet hnew
      obtain ⟨q, msg⟩ := packet
      subst hmsg hdest
      exact hnode
  · intro g
    simp only [World.commit, pending_append, hnopending, add_zero]
    rw [h.arrivals g, pending_eraseIdx hk g]
    exact congrArg _ (zero_add _)
  · simp only [World.commit, update_self]
    rw [(hs.others p (symm hnode)).1]
    exact h.unsubscribed
  · simp only [World.commit, update_self]
    exact hs.same.held.trans h.owner_held

theorem BarrierInv.deliverTrigger (h : BarrierInv o expected w)
    {triggerGen previousGen : Nat} (hk : w.net[k]? = some (p, .trigger triggerGen previousGen)) :
    ∃ w', w.next (.deliver k) = .ok w' ∧ BarrierInv o expected w' ∧ w.Behind w' := by
  have hp : p ≠ o := h.packets _ (mem_of_getElem? hk)
  have hfollows := h.follows p hp
  have hrange : rangeFor p (p, BarrierMsg.trigger triggerGen previousGen)
      = some (previousGen, triggerGen) := if_pos rfl
  rw [flying_eraseIdx hk p, hrange, Option.toList_some, Multiset.coe_singleton,
    Multiset.singleton_add] at hfollows
  obtain ⟨hafter, hle⟩ := hfollows.trigger
  obtain ⟨howner, hgens, hsends, hentries⟩ :=
    handleTrigger_frame (h.waiters p).ascending triggerGen previousGen
  refine ⟨World.commit { w with net := w.net.eraseIdx k } p
    (handleTrigger triggerGen previousGen (w.impl p)), ?_, ?_, behind_commit rfl hle⟩
  · simp only [World.next, hk, handle, World.noteDelivery]
  rw [← update_eq_self p w.asked, ← update_eq_self p w.added]
  refine nodeStep_inv h hp (howner.trans (h.owner p)) ((h.waiters p).trigger hle) ?_ (h.asked_lt p)
    ?_ ?_ (fun q hq => ?_) (fun q g hmem => mem_eraseIdx_of_ne hk (by simp) hmem)
    (fun packet hmem => mem_of_mem_eraseIdx hmem) (fun g => ?_) (.inl hsends)
  · refine hafter.asks_mono fun g hg => ?_
    exact mem_append_left _ (mem_eraseIdx_of_ne hk (by simp) hg)
  · intro g hg
    rw [hgens]
    exact (h.asked p hp g hg).imp_left fun hg' => hg'.trans hle
  · intro entry hentry
    rw [hgens]
    exact h.entries p hp entry (hentries entry hentry)
  · have hnone : rangeFor q (p, BarrierMsg.trigger triggerGen previousGen) = none :=
      if_neg (symm hq)
    rw [flying_eraseIdx hk q, hnone]
    exact (zero_add _).symm
  · rw [pending_eraseIdx hk g]
    exact (zero_add _).symm

/-- Every event that may happen keeps the invariant; in particular no assertion fails. -/
theorem BarrierInv.next (h : BarrierInv o expected w) (hexp : 0 < expected ∧ expected < 2 ^ 32)
    {e : BarrierEvent n ι} (he : w.Enabled expected e) :
    ∃ w', w.next e = .ok w' ∧ BarrierInv o expected w' ∧ w.Behind w' := by
  cases e with
  | arrive p gen count => exact h.arrive hexp he
  | hasTriggered p gen => exact h.hasTriggered he
  | addWaiter p gen waiter => exact h.addWaiter he
  | deliver k =>
    obtain ⟨⟨p, msg⟩, hk⟩ : ∃ packet, w.net[k]? = some packet :=
      ⟨_, getElem?_eq_getElem he⟩
    cases msg with
    | adjust gen delta => exact h.deliverAdjust hexp hk
    | subscribe node gen => exact h.deliverSubscribe hk
    | trigger triggerGen previousGen => exact h.deliverTrigger hk

end Steps

/-! ### Runs -/

theorem initial_inv (o : Fin n) (hexp : 0 < expected) :
    BarrierInv o expected (World.initial (ι := ι) o expected) where
  owner := fun _ => rfl
  counts :=
    { first := rfl
      free := if_pos rfl
      base := if_pos rfl
      deltas := fun _ he => absurd he not_mem_nil
      absent := fun _ _ _ => rfl
      limit := fun _ => Nat.zero_le _
      done := fun _ hpos hle => absurd hle (not_le.mpr hpos)
      lacking := hexp }
  waiters := fun _ =>
    { ascending := Pairwise.nil
      keys := fun _ he => absurd he not_mem_nil
      tags := fun _ he => absurd he not_mem_nil
      added_eq := rfl
      reached := fun _ hx => absurd hx (Multiset.notMem_zero _) }
  follows := fun _ _ =>
    { spans := Spans.nil 0
      told_le := le_rfl
      ascending := Pairwise.nil
      held_gt := fun _ he => absurd he not_mem_nil
      sub_gt := fun _ ht => by cases ht
      subscribed := .inr (.inr le_rfl) }
  asked_lt := fun _ _ hg => absurd hg not_mem_nil
  asked := fun _ _ _ hg => absurd hg not_mem_nil
  entries := fun _ _ _ he => absurd he not_mem_nil
  packets := fun _ hp => absurd hp not_mem_nil
  arrivals := fun _ => rfl
  arrived_le := fun _ => Nat.zero_le _
  unsubscribed := rfl
  owner_held := rfl

theorem reachable_inv {o : Fin n} (hexp : 0 < expected ∧ expected < 2 ^ 32)
    {w : World n ι} (h : (system (ι := ι) o expected).Reachable w) : BarrierInv o expected w := by
  refine h.invariant (fun w h0 => ?_) fun w e w' hinv hstep => ?_
  · obtain rfl : w = .initial o expected := h0
    exact initial_inv o hexp.1
  · obtain ⟨he, hnext⟩ := hstep
    obtain ⟨w1, hnext1, hinv1, -⟩ := hinv.next hexp he
    rw [hnext1] at hnext
    cases hnext
    exact hinv1

/-! ### What the runs have -/

/-- What a barrier guarantees. -/
structure Safe (o : Fin n) (expected : Nat) (w : World n ι) : Prop where
  /-- The owner has reached a generation exactly if all arrivals up to it are handled. -/
  advance : ∀ gen, 0 < gen → (gen ≤ (w.impl o).generation ↔
    ∀ g, 0 < g → g ≤ gen → w.handled g = expected)
  behind : ∀ p, (w.impl p).generation ≤ (w.impl o).generation
  never_decreases : ∀ e w', w.Enabled expected e → w.next e = .ok w' →
    ∀ p, (w.impl p).generation ≤ (w'.impl p).generation
  /-- Every waiter waits or has been woken, once. -/
  woken_once : ∀ p, w.added p = waiting (w.impl p) + w.woken p
  woken_reached : ∀ p, ∀ x ∈ w.woken p, x.1 ≤ (w.impl o).generation
  /-- No assertion fails. -/
  no_fault : ∀ e, w.Enabled expected e → ∃ w', w.next e = .ok w'
  /-- When nothing is in flight, nobody waits for a generation that the owner has reached. -/
  quiet : w.net = [] → ∀ p, ∀ x ∈ waiting (w.impl p), (w.impl o).generation < x.1
  /-- When nothing is in flight, no held trigger is left. -/
  quiet_held : w.net = [] → ∀ p, ∀ e ∈ (w.impl p).heldTriggers, (w.impl p).generation < e.1

namespace BarrierInv

variable {o : Fin n} {expected : Nat} {w : World n ι} (h : BarrierInv o expected w)
include h

theorem advance {gen : Nat} : gen ≤ (w.impl o).generation ↔
    ∀ g, 0 < g → g ≤ gen → w.handled g = expected := by
  constructor
  · exact fun hle g hg hgen => h.counts.done g hg (hgen.trans hle)
  · intro hall
    by_contra hlater
    have hnext := hall ((w.impl o).generation + 1) (Nat.succ_pos _) (not_le.mp hlater)
    exact absurd hnext (ne_of_lt h.counts.lacking)

theorem behind (p : Fin n) : (w.impl p).generation ≤ (w.impl o).generation := by
  by_cases hp : p = o
  · rw [hp]
  · exact (h.follows p hp).spans.le.trans (h.follows p hp).told_le

theorem held_gt (p : Fin n) : ∀ e ∈ (w.impl p).heldTriggers, (w.impl p).generation < e.1 := by
  by_cases hp : p = o
  · subst hp
    rw [h.owner_held]
    exact fun e he => absurd he not_mem_nil
  · exact (h.follows p hp).held_gt

theorem quiet (hnet : w.net = []) (p : Fin n) {x : Nat × ι} (hx : x ∈ waiting (w.impl p)) :
    (w.impl o).generation < x.1 := by
  obtain ⟨e, he, hxe⟩ := (h.waiters p).lt_of_mem hx
  have hlater := ((h.waiters p).keys e he).1
  rw [hxe]
  by_cases hp : p = o
  · subst hp
    exact hlater
  · have hfollows := h.follows p hp
    have hentry := h.entries p hp e he
    have hspans := hfollows.spans
    rw [hnet, flying_nil, add_zero] at hspans
    obtain ⟨htold, -⟩ := hspans.eq_zero hfollows.held_gt
    obtain hask | ⟨t, ht, -⟩ | hle := hfollows.subscribed
    · rw [hnet] at hask
      exact absurd hask not_mem_nil
    · rw [← (hfollows.sub_gt t ht).2, ← htold]
      exact hlater
    · omega

end BarrierInv

/-- **Barrier phases trigger in order, and every waiter is woken once.** -/
theorem barrier_safe {o : Fin n} {expected : Nat} (hexp : 0 < expected ∧ expected < 2 ^ 32)
    {w : World n ι} (hrun : (system (ι := ι) o expected).Reachable w) : Safe o expected w := by
  have h := reachable_inv hexp hrun
  exact
    { advance := fun gen _ => h.advance
      behind := h.behind
      never_decreases := fun e w' he hnext => by
        obtain ⟨w1, hnext1, -, hbehind⟩ := h.next hexp he
        rw [hnext1] at hnext
        cases hnext
        exact hbehind
      woken_once := fun p => (h.waiters p).added_eq
      woken_reached := fun p x hx => ((h.waiters p).reached x hx).trans (h.behind p)
      no_fault := fun e he => by
        obtain ⟨w', hnext, -⟩ := h.next hexp he
        exact ⟨w', hnext⟩
      quiet := fun hnet p x hx => h.quiet hnet p hx
      quiet_held := fun _ p => h.held_gt p }

/-- Node 1 waits for generation 1 of a barrier of node 0 with one arrival, and is woken. -/
theorem barrier_safe_remote_waiter : ∃ w : World 2 Unit,
    (system 0 1).Reachable w ∧ w.woken 1 = {(1, ())} ∧ Safe 0 1 w := by
  have start : (system (ι := Unit) (0 : Fin 2) 1).Reachable (World.initial 0 1) := .init rfl
  have hgen : 1 < 2 ^ 32 := by decide
  have asked := start.step (e := BarrierEvent.hasTriggered 1 1) ⟨hgen, rfl⟩
  have waits := asked.step (e := BarrierEvent.addWaiter 1 1 ()) ⟨mem_singleton_self 1, rfl⟩
  have subscribed := waits.step (e := BarrierEvent.deliver 0) ⟨zero_lt_one, rfl⟩
  have arrived := subscribed.step (e := BarrierEvent.arrive 0 1 1)
    ⟨⟨zero_lt_one, hgen, zero_lt_one, le_rfl⟩, rfl⟩
  have woken := arrived.step (e := BarrierEvent.deliver 0) ⟨zero_lt_one, rfl⟩
  exact ⟨_, woken, rfl, barrier_safe (by decide) woken⟩

end CharmRuntime.Legion.Barrier
