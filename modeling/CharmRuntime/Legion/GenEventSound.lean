import CharmRuntime.Legion.GenEvent
import CharmRuntime.Lib.InFlight

/-!
# Legion.GenEventSound

**Every waiter of an event is notified once, and not before its trigger.** The owner's
ledger (`Ledger`) says which generations exist, which have triggered, and that the event is
on the free list exactly between two of them. Every node (`Follows`) is at a generation whose
trigger was issued, its waiters wait for the next one, and on another node than the owner
a subscription for it is on its way, on record, or answered.

All this holds as long as the generation counter does not wrap. After `2 ^ 32 - 1` generations
the next one is generation 0, which counts as triggered from the start.
-/

namespace CharmRuntime.Legion.GenEvent

open Lib Function List Nat
open Multiset (coe_nil mem_add mem_coe singleton_add)

variable {N ι : Type}

/-! ### Generation numbers -/

theorem succGen_of_lt {gen : Nat} (h : gen + 1 < 2 ^ 32) : succGen gen = gen + 1 := mod_eq_of_lt h

theorem predGen_of_pos {gen : Nat} (hpos : 0 < gen) (h : gen < 2 ^ 32) : predGen gen = gen - 1 := by
  have hsum : gen + (2 ^ 32 - 1) = gen - 1 + 2 ^ 32 := by omega
  unfold predGen
  rw [hsum, add_mod_right, mod_eq_of_lt (lt_of_le_of_lt (sub_le gen 1) h)]

/-! ### The ledger of the owner -/

/-- Generations are created one after the other, a new one only after the one before has
reached the owner. -/
structure Ledger (generation free : Nat) (created issued : List Nat) (freed : Nat → Nat) :
    Prop where
  free_le : free ≤ 1
  created_le : ∀ gen ∈ created, 0 < gen ∧ gen + free ≤ generation + 1 ∧ gen < 2 ^ 32
  issued_created : ∀ gen ∈ issued, gen ∈ created
  done : ∀ gen, 0 < gen → gen ≤ generation → gen ∈ issued
  freed_eq : ∀ gen, freed gen = if 0 < gen ∧ gen ≤ generation then 1 else 0

namespace Ledger

variable {generation free : Nat} {created issued : List Nat} {freed : Nat → Nat}

theorem closed (h : Ledger generation free created issued freed) {top : Nat} (htop : top ∈ issued) :
    ∀ gen, 0 < gen → gen ≤ top → gen ∈ issued := by
  intro gen hpos hle
  obtain ⟨-, hcreated, -⟩ := h.created_le top (h.issued_created top htop)
  obtain rfl | hlt := eq_or_lt_of_le hle
  · exact htop
  · exact h.done gen hpos (by omega)

theorem implied (h : Ledger generation free created issued freed) {gen : Nat}
    (hgen : gen ∈ created) :
    predGen gen = gen - 1 ∧ gen - 1 ≤ generation := by
  obtain ⟨hpos, hle, hlt⟩ := h.created_le gen hgen
  exact ⟨predGen_of_pos hpos hlt, by omega⟩

theorem create (h : Ledger generation free created issued freed) (hfree : 0 < free)
    (hwrap : generation + 1 < 2 ^ 32) :
    Ledger generation (free - 1) ((generation + 1) :: created) issued freed where
  free_le := le_trans (sub_le free 1) h.free_le
  created_le gen hgen := by
    have hle := h.free_le
    obtain rfl | hgen := mem_cons.mp hgen
    · exact ⟨succ_pos _, by omega, hwrap⟩
    · obtain ⟨hpos, hle, hlt⟩ := h.created_le gen hgen
      exact ⟨hpos, by omega, hlt⟩
  issued_created gen hgen := mem_cons_of_mem _ (h.issued_created gen hgen)
  done := h.done
  freed_eq := h.freed_eq

theorem issue (h : Ledger generation free created issued freed) {gen : Nat} (hgen : gen ∈ created) :
    Ledger generation free created (gen :: issued) freed where
  free_le := h.free_le
  created_le := h.created_le
  issued_created g hg := by
    obtain rfl | hg := mem_cons.mp hg
    exacts [hgen, h.issued_created g hg]
  done g hpos hle := mem_cons_of_mem _ (h.done g hpos hle)
  freed_eq := h.freed_eq

theorem reach (h : Ledger generation free created issued freed) (hnext : generation + 1 ∈ issued) :
    Ledger (generation + 1) (free + 1) created issued
      (update freed (generation + 1) (freed (generation + 1) + 1)) where
  free_le := by
    obtain ⟨-, hfree, -⟩ := h.created_le _ (h.issued_created _ hnext)
    omega
  created_le gen hgen := by
    obtain ⟨hpos, hle, hlt⟩ := h.created_le gen hgen
    exact ⟨hpos, by omega, hlt⟩
  issued_created := h.issued_created
  done := h.closed hnext
  freed_eq gen := by
    by_cases hgen : gen = generation + 1
    · subst hgen
      rw [update_self, h.freed_eq, if_neg (by omega), if_pos (by omega)]
    · rw [update_of_ne hgen, h.freed_eq]
      exact if_congr (by omega) rfl rfl

end Ledger

/-! ### One node -/

/-- What makes sure that node `p`, at `generation`, hears of the next one: its subscription is on
its way, the owner has it on record, or a trigger is on its way. -/
def Awaited (o p : N) (ownerGen generation : Nat) (recorded : List N)
    (net : List (N × EventMsg N)) : Prop :=
  (o, .subscribe p (generation + 1) 0) ∈ net ∨ (p ∈ recorded ∧ generation = ownerGen) ∨
    ∃ node gen, generation < gen ∧ (p, .trigger node gen) ∈ net

/-- Messages are added, and a trigger that tells node `p` nothing new goes. -/
theorem Awaited.keep {o p q : N} {ownerGen generation : Nat} {recorded : List N}
    {net net' : List (N × EventMsg N)}
    (h : Awaited o q ownerGen generation recorded net)
    (hkeep : ∀ packet ∈ net, packet ∈ net' ∨
      ∃ node gen, packet = (p, .trigger node gen) ∧ (q = p → gen ≤ generation)) :
    Awaited o q ownerGen generation recorded net' := by
  obtain hsub | hrec | ⟨node, gen, hlt, htrigger⟩ := h
  · refine .inl ((hkeep _ hsub).resolve_right ?_)
    rintro ⟨node, gen, heq, -⟩
    cases heq
  · exact .inr (.inl hrec)
  · refine .inr (.inr ⟨node, gen, hlt, (hkeep _ htrigger).resolve_right ?_⟩)
    rintro ⟨node', gen', heq, hle⟩
    cases heq
    exact absurd hlt (not_lt.mpr (hle rfl))

/-- Node `p` under owner `o`. -/
structure Follows (o p : N) (created issued : List Nat) (awaited : Prop) (known : List Nat)
    (s : GenEventImpl N (Nat × ι)) (added woken : Multiset (Nat × ι)) : Prop where
  owner : s.owner = o
  behind : 0 < s.generation → s.generation ∈ issued
  known_le : ∀ gen ∈ known, gen ∈ created ∧ gen ≤ s.generation + 1
  added_eq : added = ↑s.localWaiters + woken
  /-- The waiters wait for the next generation. -/
  next : ∀ x ∈ s.localWaiters, x.1 = s.generation + 1
  woken_issued : ∀ x ∈ woken, x.1 ∈ issued
  subscribed_le : s.genSubscribed ≤ s.generation + 1
  subscribed : p ≠ o → s.localWaiters ≠ [] → s.generation < s.genSubscribed
  awaits : p ≠ o → s.generation < s.genSubscribed → awaited

namespace Follows

variable {o p : N} {created issued : List Nat} {awaited : Prop} {known : List Nat}
  {s : GenEventImpl N (Nat × ι)} {added woken : Multiset (Nat × ι)}

variable {awaited' : Prop} {gen : Nat}

theorem mono (h : Follows o p created issued awaited known s added woken)
    {created' issued' : List Nat}
    (hcreated : ∀ gen ∈ created, gen ∈ created') (hissued : ∀ gen ∈ issued, gen ∈ issued')
    (hawaited : p ≠ o → awaited → awaited') :
    Follows o p created' issued' awaited' known s added woken where
  owner := h.owner
  behind hpos := hissued _ (h.behind hpos)
  known_le gen hgen := ⟨hcreated gen (h.known_le gen hgen).1, (h.known_le gen hgen).2⟩
  added_eq := h.added_eq
  next := h.next
  woken_issued x hx := hissued _ (h.woken_issued x hx)
  subscribed_le := h.subscribed_le
  subscribed := h.subscribed
  awaits hp hlt := hawaited hp (h.awaits hp hlt)

theorem learn (h : Follows o p created issued awaited known s added woken) (hgen : gen ∈ created)
    (hle : gen ≤ s.generation + 1) :
    Follows o p created issued awaited (gen :: known) s added woken :=
  { h with
    known_le := by
      intro g hg
      obtain rfl | hg := mem_cons.mp hg
      exacts [⟨hgen, hle⟩, h.known_le g hg] }

/-- The node goes to a later generation and notifies everybody who waits. No subscription is
open then. -/
theorem raise (h : Follows o p created issued awaited known s added woken)
    {remote : List N} (hlt : s.generation < gen) (hclosed : ∀ g, 0 < g → g ≤ gen → g ∈ issued) :
    Follows o p created issued awaited' known
      { s with generation := gen, localWaiters := [], remoteWaiters := remote } added
        (woken + ↑s.localWaiters) where
  owner := h.owner
  behind hpos := hclosed gen hpos (le_refl gen)
  known_le g hg := ⟨(h.known_le g hg).1, le_trans (h.known_le g hg).2 (succ_le_succ (le_of_lt hlt))⟩
  added_eq := by
    rw [h.added_eq, coe_nil, zero_add, add_comm]
  next x hx := absurd hx not_mem_nil
  woken_issued x hx := by
    obtain hx | hx := mem_add.mp hx
    · exact h.woken_issued x hx
    · rw [h.next x (mem_coe.mp hx)]
      exact hclosed _ (succ_pos _) hlt
  subscribed_le := le_trans h.subscribed_le (succ_le_succ (le_of_lt hlt))
  subscribed _ hne := absurd rfl hne
  awaits _ hsub := absurd hsub (not_lt.mpr (le_trans h.subscribed_le hlt))

theorem addWaiter [DecidableEq N] {ownerGen : Nat} {recorded : List N} {net : List (N × EventMsg N)}
    (h : Follows o p created issued (Awaited o p ownerGen s.generation recorded net) known s
      added woken)
    (hcreated : ∀ gen ∈ created, 0 < gen ∧ gen < 2 ^ 32)
    (hclosed : ∀ gen, 0 < gen → gen ≤ s.generation → gen ∈ issued) (hgen : gen ∈ known) (x : ι) :
    ∃ e, GenEvent.addWaiter p gen (gen, x) s = .ok e ∧
      Follows o p created issued (Awaited o p ownerGen s.generation recorded (net ++ e.sends))
        known e.impl
        ((gen, x) ::ₘ added) (woken + ↑e.woken) ∧
      e.impl.generation = s.generation ∧ e.impl.remoteWaiters = s.remoteWaiters ∧ e.freed = false ∧
      ∀ packet ∈ e.sends, packet = (o, .subscribe p gen 0) := by
  obtain ⟨hmem, hle⟩ := h.known_le gen hgen
  obtain ⟨hpos, hlt⟩ := hcreated gen hmem
  unfold GenEvent.addWaiter
  by_cases hready : s.generation < gen
  · have heq : gen = s.generation + 1 := by omega
    have hsucc : succGen s.generation = gen := by rw [succGen_of_lt (heq ▸ hlt), heq]
    have hadded : (gen, x) ::ₘ added = ↑(s.localWaiters ++ [(gen, x)]) + woken := by
      rw [h.added_eq, ← singleton_add]
      ac_rfl
    have hnext : ∀ y ∈ s.localWaiters ++ [(gen, x)], y.1 = s.generation + 1 := by
      intro y hy
      obtain hy | hy := mem_append.mp hy
      · exact h.next y hy
      · rw [mem_singleton.mp hy]
        exact heq
    rw [if_pos hready, if_neg (not_not.mpr hsucc.symm)]
    by_cases hsub : s.owner ≠ p ∧ s.genSubscribed < gen
    · rw [if_pos hsub]
      refine ⟨_, rfl, ?_, rfl, rfl, rfl, fun packet hpacket => ?_⟩
      · refine ⟨h.owner, h.behind, h.known_le, ?_, hnext, ?_, le_of_eq heq, fun _ _ => hready,
          fun _ _ => ?_⟩
        · rw [coe_nil, add_zero]
          exact hadded
        · rw [coe_nil, add_zero]
          exact h.woken_issued
        · left
          rw [h.owner, heq]
          exact mem_append_right _ (mem_singleton_self _)
      · rw [mem_singleton.mp hpacket, h.owner]
    · rw [if_neg hsub]
      have hsubscribed : p ≠ o → s.generation < s.genSubscribed := by
        intro hp
        by_contra hnot
        exact hsub ⟨h.owner ▸ symm hp, by omega⟩
      refine ⟨_, rfl, ?_, rfl, rfl, rfl, fun packet hpacket => absurd hpacket not_mem_nil⟩
      refine ⟨h.owner, h.behind, h.known_le, ?_, hnext, ?_, h.subscribed_le, fun hp _ =>
        hsubscribed hp, fun hp _ => ?_⟩
      · simp only [EventEffect.none, coe_nil, add_zero]
        exact hadded
      · simp only [EventEffect.none, coe_nil, add_zero]
        exact h.woken_issued
      · simp only [EventEffect.none, append_nil]
        exact h.awaits hp (hsubscribed hp)
  · rw [if_neg hready]
    refine ⟨_, rfl, ?_, rfl, rfl, rfl, fun packet hpacket => absurd hpacket not_mem_nil⟩
    simp only [append_nil]
    refine { h with added_eq := ?_, woken_issued := ?_ }
    · rw [h.added_eq, ← singleton_add]
      ac_rfl
    · intro y hy
      obtain hy | hy := mem_add.mp hy
      · exact h.woken_issued y hy
      · rw [mem_singleton.mp (mem_coe.mp hy)]
        exact hclosed gen hpos (Nat.le_of_not_lt hready)

end Follows

/-! ### What a trigger does -/

section Trigger

/-- On the owner. -/
def reached (node : N) (s : GenEventImpl N (Nat × ι)) : EventEffect N (Nat × ι) :=
  { impl := { s with generation := s.generation + 1, localWaiters := [], remoteWaiters := [] }
    sends := s.remoteWaiters.map fun q => (q, .trigger node (s.generation + 1))
    woken := s.localWaiters
    freed := true }

variable [DecidableEq N] {p node : N} {gen : Nat} {s : GenEventImpl N (Nat × ι)}

/-- On another node. -/
def raised (p : N) (gen : Nat) (node : N) (s : GenEventImpl N (Nat × ι)) :
    EventEffect N (Nat × ι) :=
  { impl := { s with generation := gen, localWaiters := [] }
    sends := if node = p then [(s.owner, .trigger node gen)] else []
    woken := s.localWaiters
    freed := false }

theorem trigger_owner (howner : s.owner = p) (hgen : gen = s.generation + 1) :
    trigger p gen node s = reached node s := by
  subst hgen
  unfold trigger
  rw [if_neg (not_le.mpr (lt_succ_self _)), if_pos howner]
  rfl

theorem trigger_other (howner : s.owner ≠ p) (hlt : s.generation < gen) :
    trigger p gen node s = raised p gen node s := by
  unfold trigger
  rw [if_neg (not_le.mpr hlt), if_neg howner]
  rfl

theorem handle_trigger {e : EventEffect N (Nat × ι)}
    (h : checkForCatchup p (predGen gen) s = .ok e) :
    handle p (.trigger node gen) s = .ok (e.andThen (trigger p gen node e.impl)) := by
  simp only [handle, h]
  rfl

theorem checkForCatchup_none (hpred : predGen gen = gen - 1) (hcaught : gen - 1 ≤ s.generation) :
    checkForCatchup p (predGen gen) s = .ok (.none s) := by
  unfold checkForCatchup
  rw [hpred, if_pos hcaught]

theorem handle_trigger_stale (hpred : predGen gen = gen - 1) (hle : gen ≤ s.generation) :
    handle p (.trigger node gen) s = .ok (.none s) := by
  have htrigger : trigger p gen node s = .none s := if_pos hle
  rw [handle_trigger (checkForCatchup_none hpred (le_trans (sub_le gen 1) hle)),
    EventEffect.none, htrigger]
  rfl

theorem handle_trigger_owner (howner : s.owner = p) (hpred : predGen gen = gen - 1)
    (hgen : gen = s.generation + 1) :
    handle p (.trigger node gen) s = .ok (reached node s) := by
  have hcaught : gen - 1 ≤ s.generation := sub_le_of_le_add (le_of_eq hgen)
  rw [handle_trigger (checkForCatchup_none hpred hcaught), EventEffect.none,
    trigger_owner howner hgen]
  rfl

theorem handle_trigger_other (howner : s.owner ≠ p) (hpred : predGen gen = gen - 1)
    (hlt : s.generation < gen) :
    handle p (.trigger node gen) s = .ok (raised p gen node s) := by
  by_cases hcaught : gen - 1 ≤ s.generation
  · rw [handle_trigger (checkForCatchup_none hpred hcaught), EventEffect.none,
      trigger_other howner hlt]
    rfl
  · have hcatchup : checkForCatchup p (predGen gen) s =
        .ok { impl := { s with generation := gen - 1, localWaiters := [] }
              sends := []
              woken := s.localWaiters
              freed := false } := by
      unfold checkForCatchup
      rw [hpred, if_neg hcaught, if_neg howner]
    have hlt' : gen - 1 < gen := sub_lt (lt_of_le_of_lt (zero_le _) hlt) zero_lt_one
    have htrigger :
      trigger p gen node { s with generation := gen - 1, localWaiters := ([] : List (Nat × ι)) } =
        raised p gen node { s with generation := gen - 1, localWaiters := [] } :=
        trigger_other howner hlt'
    rw [handle_trigger hcatchup, htrigger]
    simp only [raised, EventEffect.andThen, nil_append, append_nil, Bool.or_self]

end Trigger

/-! ### All nodes -/

/-- A message that the code sends. Only the owner can hear of a trigger before it has reached the
owner. -/
def PacketOk (o : N) (ownerGen : Nat) (created issued : List Nat) : N × EventMsg N → Prop
  | (q, .subscribe _ gen _) => q = o ∧ gen ∈ created
  | (q, .trigger _ gen) => gen ∈ issued ∧ (q ≠ o → gen ≤ ownerGen)

def World.Awaits (o : N) (w : World N ι) (p : N) : Prop :=
  Awaited o p (w.impl o).generation (w.impl p).generation (w.impl o).remoteWaiters w.net

structure EventInv (o : N) (w : World N ι) : Prop where
  ledger : Ledger (w.impl o).generation w.free w.created w.issued w.freed
  follows : ∀ p, Follows o p w.created w.issued (w.Awaits o p) (w.known p) (w.impl p) (w.added p)
    (w.woken p)
  packets : ∀ packet ∈ w.net, PacketOk o (w.impl o).generation w.created w.issued packet

theorem PacketOk.mono {o : N} {ownerGen ownerGen' : Nat} {created issued issued' : List Nat}
    {packet : N × EventMsg N}
    (h : PacketOk o ownerGen created issued packet) (hgen : ownerGen ≤ ownerGen')
    (hissued : ∀ gen ∈ issued, gen ∈ issued') : PacketOk o ownerGen' created issued' packet := by
  obtain ⟨q, msg⟩ := packet
  cases msg with
  | subscribe node gen previous => exact h
  | trigger node gen => exact ⟨hissued gen h.1, fun hq => le_trans (h.2 hq) hgen⟩

/-- What happens on node `p` before a call takes effect: the callers' records change, and messages
to `p` arrive. -/
structure Prepared (p : N) (w w₁ : World N ι) : Prop where
  impl : w₁.impl = w.impl
  free : w₁.free = w.free
  freed : w₁.freed = w.freed
  created : w₁.created = w.created
  woken : w₁.woken = w.woken
  issued : ∀ gen ∈ w.issued, gen ∈ w₁.issued
  known : ∀ q, q ≠ p → w₁.known q = w.known q
  added : ∀ q, q ≠ p → w₁.added q = w.added q

namespace EventInv

variable [DecidableEq N] {o p : N} {w w₁ : World N ι} {e : EventEffect N (Nat × ι)} {freeGen : Nat}

theorem commit_other (h : EventInv o w) (hp : p ≠ o) (hw : Prepared p w w₁)
    (hfreed : e.freed = false)
    (hledger : Ledger (w.impl o).generation w.free w.created w₁.issued w.freed)
    (hnet : ∀ packet ∈ w.net, packet ∈ w₁.net ∨ ∃ node gen, packet = (p, .trigger node gen))
    (hpackets : ∀ packet ∈ w₁.net ++ e.sends, PacketOk o (w.impl o).generation w.created
      w₁.issued packet)
    (hnode : Follows o p w.created w₁.issued
      (Awaited o p (w.impl o).generation e.impl.generation (w.impl o).remoteWaiters
        (w₁.net ++ e.sends))
      (w₁.known p) e.impl (w₁.added p) (w.woken p + ↑e.woken)) :
    EventInv o (w₁.commit p freeGen e) := by
  have howner : (w₁.commit p freeGen e).impl o = w.impl o := by
    simp only [World.commit, update_of_ne (symm hp), hw.impl]
  refine ⟨?_, fun q => ?_, ?_⟩
  · rw [howner]
    simp only [World.commit, hfreed, hw.free, hw.freed, hw.created]
    exact hledger
  · unfold World.Awaits
    rw [howner]
    by_cases hq : q = p
    · subst hq
      simp only [World.commit, update_self, hw.created, hw.woken]
      exact hnode
    · simp only [World.commit, update_of_ne hq, hw.impl, hw.created, hw.woken, hw.known q hq,
        hw.added q hq]
      refine (h.follows q).mono (fun _ hg => hg) hw.issued fun _ hawaits => ?_
      -- the message that has arrived was not for `q`
      refine hawaits.keep (p := p) fun packet hpacket => (hnet packet hpacket).imp
        (mem_append_left _) ?_
      rintro ⟨node, gen, rfl⟩
      exact ⟨node, gen, rfl, fun hqp => absurd hqp hq⟩
  · rw [howner]
    simp only [World.commit, hw.created]
    exact hpackets

theorem commit_owner (h : EventInv o w) (hw : Prepared o w w₁)
    (hledger : Ledger e.impl.generation (if e.freed then w.free + 1 else w.free) w.created w₁.issued
      (if e.freed then update w.freed freeGen (w.freed freeGen + 1) else w.freed))
    (hawaits : ∀ q, q ≠ o → w.Awaits o q →
      Awaited o q e.impl.generation (w.impl q).generation e.impl.remoteWaiters (w₁.net ++ e.sends))
    (hpackets : ∀ packet ∈ w₁.net ++ e.sends, PacketOk o e.impl.generation w.created
      w₁.issued packet)
    (hnode : ∀ awaited, Follows o o w.created w₁.issued awaited (w₁.known o) e.impl (w₁.added o)
      (w.woken o + ↑e.woken)) :
    EventInv o (w₁.commit o freeGen e) := by
  have howner : (w₁.commit o freeGen e).impl o = e.impl := by simp only [World.commit, update_self]
  refine ⟨?_, fun q => ?_, ?_⟩
  · rw [howner]
    simp only [World.commit, hw.free, hw.freed, hw.created]
    exact hledger
  · unfold World.Awaits
    rw [howner]
    by_cases hq : q = o
    · subst hq
      simp only [World.commit, update_self, hw.created, hw.woken]
      exact hnode _
    · simp only [World.commit, update_of_ne hq, hw.impl, hw.created, hw.woken, hw.known q hq,
        hw.added q hq]
      exact (h.follows q).mono (fun _ hg => hg) hw.issued fun hqo hq' => hawaits q hqo hq'
  · rw [howner]
    simp only [World.commit, hw.created]
    exact hpackets

theorem commit_none (h : EventInv o w) (hw : Prepared p w w₁) (hissued : w₁.issued = w.issued)
    (hadded : w₁.added p = w.added p)
    (hknown : ∀ gen ∈ w₁.known p, gen ∈ w.created ∧ gen ≤ (w.impl p).generation + 1)
    (hnet : ∀ packet ∈ w₁.net, packet ∈ w.net)
    (hkeep : ∀ packet ∈ w.net, packet ∈ w₁.net ∨
      ∃ node gen, packet = (p, .trigger node gen) ∧ gen ≤ (w.impl p).generation) :
    EventInv o (w₁.commit p freeGen (.none (w.impl p))) := by
  have hnode : ∀ {awaited : Prop}, (p ≠ o → w.Awaits o p → awaited) →
      Follows o p w.created w₁.issued awaited (w₁.known p) (w.impl p) (w₁.added p)
        (w.woken p + ↑([] : List (Nat × ι))) := by
    intro awaited hawaited
    rw [hissued, hadded, coe_nil, add_zero]
    exact { (h.follows p).mono (fun _ hg => hg) (fun _ hg => hg) hawaited with known_le := hknown }
  have hpackets :
    ∀ packet ∈ w₁.net ++ [], PacketOk o (w.impl o).generation w.created w₁.issued packet := by
    intro packet hpacket
    rw [append_nil] at hpacket
    rw [hissued]
    exact h.packets packet (hnet packet hpacket)
  have hawaits : ∀ q, w.Awaits o q →
      Awaited o q (w.impl o).generation (w.impl q).generation (w.impl o).remoteWaiters
        (w₁.net ++ []) := by
    intro q hq
    refine hq.keep (p := p) fun packet hpacket => (hkeep packet hpacket).imp (mem_append_left _) ?_
    rintro ⟨node, gen, rfl, hle⟩
    exact ⟨node, gen, rfl, fun hqp => hqp ▸ hle⟩
  by_cases hp : p = o
  · subst hp
    exact h.commit_owner hw (hissued.symm ▸ h.ledger) (fun q _ => hawaits q) hpackets fun awaited =>
      hnode fun hne => absurd rfl hne
  · refine h.commit_other hp hw rfl (hissued.symm ▸ h.ledger) (fun packet hpacket => ?_) hpackets
      (hnode fun _ => hawaits p)
    refine (hkeep packet hpacket).imp_right ?_
    rintro ⟨node, gen, rfl, -⟩
    exact ⟨node, gen, rfl⟩

/-! ### Calls -/

theorem create (h : EventInv o w) (hfree : 0 < w.free)
    (hwrap : (w.impl o).generation + 1 < 2 ^ 32) :
    ∃ w', w.next o .create = .ok w' ∧ EventInv o w' := by
  have hledger := h.ledger.create hfree hwrap
  refine ⟨_, rfl, ?_, fun p => ?_, fun packet hpacket => ?_⟩
  · simp only [succGen_of_lt hwrap]
    exact hledger
  · have hmono := (h.follows p).mono (fun _ hg => mem_cons_of_mem ((w.impl o).generation + 1) hg)
      (fun _ hg => hg) (fun _ ha => ha)
    simp only [World.know, succGen_of_lt hwrap]
    by_cases hp : p = o
    · subst hp
      rw [update_self]
      exact hmono.learn mem_cons_self (le_refl _)
    · rw [update_of_ne hp]
      exact hmono
  · have hok := h.packets packet hpacket
    obtain ⟨q, msg⟩ := packet
    cases msg with
    | subscribe node gen previous => exact ⟨hok.1, mem_cons_of_mem _ hok.2⟩
    | trigger node gen => exact hok

variable {gen : Nat} {node : N} {k : Nat}

theorem learn (h : EventInv o w) (hgen : gen ∈ w.created) :
    ∃ w', w.next o (.learn p gen) = .ok w' ∧ EventInv o w' := by
  obtain ⟨hpred, hle⟩ := h.ledger.implied hgen
  have hw : Prepared p w (w.know p gen) :=
    ⟨rfl, rfl, rfl, rfl, rfl, fun _ hg => hg, fun q hq => update_of_ne hq _ _, fun _ _ => rfl⟩
  have hnode := h.follows p
  by_cases hcaught : gen - 1 ≤ (w.impl p).generation
  · refine ⟨(w.know p gen).commit p gen (.none (w.impl p)), ?_, ?_⟩
    · simp only [World.next, checkForCatchup, hpred, if_pos hcaught]
      rfl
    · refine h.commit_none hw rfl rfl ?_ (fun _ hpacket => hpacket) fun _ hpacket => .inl hpacket
      simp only [World.know, update_self]
      exact (hnode.learn hgen (le_add_of_sub_le hcaught)).known_le
  · have hp : p ≠ o := fun hp => hcaught (hp ▸ hle)
    refine ⟨(w.know p gen).commit p gen
      { impl := { w.impl p with generation := gen - 1, localWaiters := [] }
        sends := []
        woken := (w.impl p).localWaiters
        freed := false }, ?_, ?_⟩
    · simp only [World.next, checkForCatchup, hpred, if_neg hcaught, hnode.owner, if_neg (symm hp)]
      rfl
    · refine h.commit_other hp hw rfl h.ledger (fun packet hpacket => .inl hpacket)
        (fun packet hpacket => ?_) ?_
      · rw [append_nil] at hpacket
        exact h.packets packet hpacket
      · simp only [World.know, update_self]
        exact (hnode.raise (Nat.lt_of_not_le hcaught)
          fun g hpos hg => h.ledger.done g hpos (le_trans hg hle)).learn hgen
            (le_add_of_sub_le (le_refl _))

theorem addWaiter (h : EventInv o w) (hgen : gen ∈ w.known p) (x : ι) :
    ∃ w', w.next o (.addWaiter p gen x) = .ok w' ∧ EventInv o w' := by
  have hclosed : ∀ g, 0 < g → g ≤ (w.impl p).generation → g ∈ w.issued := fun g hpos hle =>
    h.ledger.closed ((h.follows p).behind (lt_of_lt_of_le hpos hle)) g hpos hle
  have hcreated : ∀ g ∈ w.created, 0 < g ∧ g < 2 ^ 32 := fun g hg =>
    ⟨(h.ledger.created_le g hg).1, (h.ledger.created_le g hg).2.2⟩
  obtain ⟨e, he, hnode, hgeneration, hremote, hfreed, hsends⟩ :=
    (h.follows p).addWaiter hcreated hclosed hgen x
  have hw : Prepared p w { w with added := update w.added p ((gen, x) ::ₘ w.added p) } :=
    ⟨rfl, rfl, rfl, rfl, rfl, fun _ hg => hg, fun _ _ => rfl, fun q hq => update_of_ne hq _ _⟩
  have hpackets :
    ∀ packet ∈ w.net ++ e.sends, PacketOk o (w.impl o).generation w.created w.issued packet := by
    intro packet hpacket
    obtain hpacket | hpacket := mem_append.mp hpacket
    · exact h.packets packet hpacket
    · rw [hsends packet hpacket]
      exact ⟨rfl, ((h.follows p).known_le gen hgen).1⟩
  refine ⟨_, by simp only [World.next, he]; rfl, ?_⟩
  by_cases hp : p = o
  · subst hp
    refine h.commit_owner hw ?_ (fun q _ hawaits => ?_) (hgeneration.symm ▸ hpackets) fun awaited =>
      ?_
    · rw [hfreed, hgeneration]
      exact h.ledger
    · rw [hgeneration, hremote]
      exact hawaits.keep (p := p) fun packet hpacket => .inl (mem_append_left _ hpacket)
    · simp only [update_self]
      exact hnode.mono (fun _ hg => hg) (fun _ hg => hg) fun hne => absurd rfl hne
  · refine h.commit_other hp hw hfreed h.ledger (fun packet hpacket => .inl hpacket) hpackets ?_
    rw [hgeneration]
    simp only [update_self]
    exact hnode

theorem reach (h : EventInv o w) (hw : Prepared o w w₁)
    (hledger : Ledger (w.impl o).generation w.free w.created w₁.issued w.freed)
    (hnext : (w.impl o).generation + 1 ∈ w₁.issued) (hknown : w₁.known o = w.known o)
    (hadded : w₁.added o = w.added o)
    (hnet : ∀ packet ∈ w₁.net, packet ∈ w.net)
    (hkeep : ∀ packet ∈ w.net, packet ∈ w₁.net ∨ ∃ node gen, packet = (o, .trigger node gen)) :
    EventInv o (w₁.commit o ((w.impl o).generation + 1) (reached node (w.impl o))) := by
  have hledger' := hledger.reach hnext
  refine h.commit_owner hw hledger' (fun q hq hawaits => ?_) (fun packet hpacket => ?_)
    fun awaited => ?_
  · by_cases hrec : q ∈ (w.impl o).remoteWaiters ∧ (w.impl q).generation = (w.impl o).generation
    · refine .inr (.inr ⟨node, (w.impl o).generation + 1, ?_, ?_⟩)
      · rw [hrec.2]
        exact lt_succ_self _
      · exact mem_append_right _ (mem_map_of_mem hrec.1)
    · -- neither the subscription nor the trigger of `q` is what has arrived
      have hstay : ∀ packet ∈ w.net, (∀ node gen, packet ≠ (o, .trigger node gen)) →
          packet ∈ w₁.net ++ (reached node (w.impl o)).sends := by
        intro packet hpacket hne
        refine mem_append_left _ ((hkeep packet hpacket).resolve_right ?_)
        rintro ⟨node, gen, rfl⟩
        exact hne node gen rfl
      obtain hsub | hrec' | ⟨node', gen, hlt, htrigger⟩ := hawaits
      · exact .inl (hstay _ hsub fun node gen heq => by cases heq)
      · exact absurd hrec' hrec
      · exact .inr (.inr
          ⟨node', gen, hlt, hstay _ htrigger fun node gen heq => hq (Prod.mk.inj heq).1⟩)
  · obtain hpacket | hpacket := mem_append.mp hpacket
    · exact (h.packets packet (hnet packet hpacket)).mono (le_succ _) hw.issued
    · obtain ⟨q, -, rfl⟩ := mem_map.mp hpacket
      exact ⟨hnext, fun _ => le_refl _⟩
  · rw [hknown, hadded]
    have hnode := (h.follows o).mono (fun _ hg => hg) hw.issued fun _ hawaits => hawaits
    exact hnode.raise (lt_succ_self _) (hledger.closed hnext)

theorem trigger (h : EventInv o w) (hgen : gen ∈ w.known p) (hnew : gen ∉ w.issued) :
    ∃ w', w.next o (.trigger p gen) = .ok w' ∧ EventInv o w' := by
  obtain ⟨hcreated, hle⟩ := (h.follows p).known_le gen hgen
  obtain ⟨hpos, -, -⟩ := h.ledger.created_le gen hcreated
  have hlt : ¬ gen ≤ (w.impl p).generation := fun hle =>
    hnew (h.ledger.closed ((h.follows p).behind (lt_of_lt_of_le hpos hle)) gen hpos hle)
  have hgen' : gen = (w.impl p).generation + 1 := by omega
  have hledger := h.ledger.issue hcreated
  have hw : Prepared p w { w with issued := gen :: w.issued } :=
    ⟨rfl, rfl, rfl, rfl, rfl, fun _ hg => mem_cons_of_mem _ hg, fun _ _ => rfl, fun _ _ => rfl⟩
  refine ⟨_, rfl, ?_⟩
  by_cases hp : p = o
  · subst hp
    rw [trigger_owner (h.follows p).owner hgen', hgen']
    rw [hgen'] at hw hledger
    exact h.reach hw hledger mem_cons_self rfl rfl (fun _ hpacket => hpacket) fun _ hpacket =>
      .inl hpacket
  · rw [trigger_other ((h.follows p).owner ▸ symm hp) (Nat.lt_of_not_le hlt)]
    refine h.commit_other hp hw rfl hledger (fun _ hpacket => .inl hpacket)
      (fun packet hpacket => ?_) ?_
    · obtain hpacket | hpacket := mem_append.mp hpacket
      · exact (h.packets packet hpacket).mono (le_refl _) fun _ hg => mem_cons_of_mem _ hg
      · rw [raised, if_pos rfl, (h.follows p).owner] at hpacket
        rw [mem_singleton.mp hpacket]
        exact ⟨mem_cons_self, fun hne => absurd rfl hne⟩
    · have hnode := (h.follows p).mono (fun _ hg => hg) hw.issued fun _ hawaits => hawaits
      exact hnode.raise (Nat.lt_of_not_le hlt) (hledger.closed mem_cons_self)

theorem deliver_trigger (h : EventInv o w) (hk : w.net[k]? = some (p, .trigger node gen)) :
    ∃ w', w.next o (.deliver k) = .ok w' ∧ EventInv o w' := by
  obtain ⟨hissued, -⟩ := h.packets _ (mem_of_getElem? hk)
  obtain ⟨hpred, hcaught⟩ := h.ledger.implied (h.ledger.issued_created gen hissued)
  have hw : Prepared p w { w with net := w.net.eraseIdx k } :=
    ⟨rfl, rfl, rfl, rfl, rfl, fun _ hg => hg, fun _ _ => rfl, fun _ _ => rfl⟩
  have hnet : ∀ packet ∈ w.net.eraseIdx k, packet ∈ w.net :=
    fun packet hpacket => mem_of_mem_eraseIdx hpacket
  have hkeep : ∀ packet ∈ w.net, packet ∈ w.net.eraseIdx k ∨ packet = (p, .trigger node gen) :=
    fun packet hpacket =>
    (mem_cons.mp ((perm_eraseIdx hk).mem_iff.mp hpacket)).symm
  by_cases hstale : gen ≤ (w.impl p).generation
  · refine ⟨_, by simp only [World.next, hk, handle_trigger_stale hpred hstale]; rfl, ?_⟩
    refine h.commit_none hw rfl rfl (h.follows p).known_le hnet fun packet hpacket => ?_
    exact (hkeep packet hpacket).imp_right fun heq => ⟨node, gen, heq, hstale⟩
  · by_cases hp : p = o
    · subst hp
      have hgen : gen = (w.impl p).generation + 1 := by omega
      have hhandled := @handle_trigger_owner N ι _ p node gen _ (h.follows p).owner hpred hgen
      refine ⟨_, by simp only [World.next, hk, hhandled]; rfl, ?_⟩
      exact h.reach hw h.ledger (hgen ▸ hissued) rfl rfl hnet fun packet hpacket =>
        (hkeep packet hpacket).imp_right fun heq => ⟨node, gen, heq⟩
    · have howner := (h.follows p).owner
      refine ⟨_, by
        simp only [World.next, hk, handle_trigger_other (howner ▸ Ne.symm hp) hpred
          (Nat.lt_of_not_le hstale)]; rfl, ?_⟩
      refine h.commit_other hp hw rfl h.ledger (fun packet hpacket => ?_)
        (fun packet hpacket => ?_) ?_
      · exact (hkeep packet hpacket).imp_right fun heq => ⟨node, gen, heq⟩
      · obtain hpacket | hpacket := mem_append.mp hpacket
        · exact h.packets packet (hnet packet hpacket)
        · unfold raised at hpacket
          split at hpacket
          · rw [mem_singleton.mp hpacket, howner]
            exact ⟨hissued, fun hne => absurd rfl hne⟩
          · exact absurd hpacket not_mem_nil
      · exact (h.follows p).raise (Nat.lt_of_not_le hstale) (h.ledger.closed hissued)

/-- A subscription of `node` to `gen` arrives: the owner puts it on record or answers it. -/
theorem commit_answer (h : EventInv o w) {previous : Nat} {recorded : List N}
    {sends : List (N × EventMsg N)} (hk : w.net[k]? = some (o, .subscribe node gen previous))
    (hrecorded : ∀ q ∈ (w.impl o).remoteWaiters, q ∈ recorded)
    (hsends : ∀ packet ∈ sends, packet = (node, .trigger o (w.impl o).generation) ∧
      0 < (w.impl o).generation)
    (hanswer : (w.impl node).generation + 1 = gen →
      Awaited o node (w.impl o).generation (w.impl node).generation recorded
        (w.net.eraseIdx k ++ sends)) :
    EventInv o (World.commit { w with net := w.net.eraseIdx k } o freeGen
      { impl := { w.impl o with remoteWaiters := recorded }, sends := sends, woken := [],
        freed := false }) := by
  have hw : Prepared o w { w with net := w.net.eraseIdx k } :=
    ⟨rfl, rfl, rfl, rfl, rfl, fun _ hg => hg, fun _ _ => rfl, fun _ _ => rfl⟩
  have hkeep :
    ∀ packet ∈ w.net, packet ∈ w.net.eraseIdx k ∨ packet = (o, .subscribe node gen previous) :=
    fun packet hpacket => (mem_cons.mp ((perm_eraseIdx hk).mem_iff.mp hpacket)).symm
  refine h.commit_owner hw h.ledger (fun q _ hawaits => ?_) (fun packet hpacket => ?_)
    fun awaited => ?_
  · obtain hsub | hrec | ⟨node', gen', hlt, htrigger⟩ := hawaits
    · obtain hsub | heq := hkeep _ hsub
      · exact .inl (mem_append_left _ hsub)
      · cases heq
        exact hanswer rfl
    · exact .inr (.inl ⟨hrecorded q hrec.1, hrec.2⟩)
    · obtain htrigger | heq := hkeep _ htrigger
      · exact .inr (.inr ⟨node', gen', hlt, mem_append_left _ htrigger⟩)
      · cases heq
  · obtain hpacket | hpacket := mem_append.mp hpacket
    · exact h.packets packet (mem_of_mem_eraseIdx hpacket)
    · obtain ⟨rfl, hpos⟩ := hsends packet hpacket
      exact ⟨h.ledger.done _ hpos (le_refl _), fun _ => le_refl _⟩
  · have hnode := h.follows o
    refine ⟨hnode.owner, hnode.behind, hnode.known_le, ?_, hnode.next, ?_, hnode.subscribed_le,
      fun hne => absurd rfl hne, fun hne => absurd rfl hne⟩
    · rw [coe_nil, add_zero]
      exact hnode.added_eq
    · rw [coe_nil, add_zero]
      exact hnode.woken_issued

theorem deliver_subscribe (h : EventInv o w) {previous : Nat}
    (hk : w.net[k]? = some (p, .subscribe node gen previous)) :
    ∃ w', w.next o (.deliver k) = .ok w' ∧ EventInv o w' := by
  obtain ⟨rfl, hcreated⟩ := h.packets _ (mem_of_getElem? hk)
  obtain ⟨hpred, hcaught⟩ := h.ledger.implied hcreated
  obtain ⟨hpos, -, hlt⟩ := h.ledger.created_le gen hcreated
  have hhandle : ∀ {e}, handleEventSubscribe p node gen previous (w.impl p) = .ok e →
      handle p (.subscribe node gen previous) (w.impl p) =
      .ok ((EventEffect.none (w.impl p)).andThen e) := by
    intro e he
    simp only [handle, checkForCatchup_none hpred hcaught]
    simp only [bind, Except.bind, EventEffect.none, he]
    rfl
  by_cases hdone : gen ≤ (w.impl p).generation
  · have he : handleEventSubscribe p node gen previous (w.impl p) =
        .ok { EventEffect.none (w.impl
          p) with sends := [(node, .trigger p (w.impl p).generation)] } := if_pos hdone
    refine ⟨_, by simp only [World.next, hk, hhandle he]; rfl, ?_⟩
    refine h.commit_answer hk (fun _ hq => hq) (fun packet hpacket => ?_) fun hnext => ?_
    · exact ⟨mem_singleton.mp hpacket, lt_of_lt_of_le hpos hdone⟩
    · refine .inr (.inr ⟨p, (w.impl p).generation, ?_, mem_append_right _ (mem_singleton_self _)⟩)
      exact lt_of_lt_of_le (lt_of_succ_le (le_of_eq hnext)) hdone
  · have hgen : gen = (w.impl p).generation + 1 := by omega
    have hsucc : gen ≤ succGen (w.impl p).generation := by rw [succGen_of_lt (hgen ▸ hlt), hgen]
    have he : handleEventSubscribe p node gen previous (w.impl p) =
        .ok { EventEffect.none { w.impl p with
                remoteWaiters := (w.impl p).remoteWaiters.insert node } with
              sends := if previous < (w.impl p).generation then
                [(node, .trigger p (w.impl p).generation)] else [] } := by
      unfold handleEventSubscribe
      rw [if_neg hdone]
      exact if_neg (not_not.mpr hsucc)
    refine ⟨_, by simp only [World.next, hk, hhandle he]; rfl, ?_⟩
    refine h.commit_answer hk (fun q hq => mem_insert_of_mem hq) (fun packet hpacket => ?_)
      fun hnext => ?_
    · split at hpacket
      · rename_i hprevious
        exact ⟨mem_singleton.mp hpacket, lt_of_le_of_lt (zero_le _) hprevious⟩
      · exact absurd hpacket not_mem_nil
    · exact .inr (.inl ⟨mem_insert_self, by omega⟩)

/-- **Every step succeeds and keeps the invariant.** -/
theorem step (h : EventInv o w) {e : GenEventEvent N ι} (henabled : w.Enabled e)
    (hwrap : NoWrap o w e) :
    ∃ w', w.next o e = .ok w' ∧ EventInv o w' := by
  cases e with
  | create => exact h.create henabled hwrap
  | learn p gen => exact h.learn henabled
  | addWaiter p gen x => exact h.addWaiter henabled x
  | trigger p gen => exact h.trigger henabled.1 henabled.2
  | deliver k =>
    obtain ⟨⟨p, msg⟩, hk⟩ : ∃ packet, w.net[k]? = some packet := ⟨_, getElem?_eq_getElem henabled⟩
    cases msg with
    | subscribe node gen previous => exact h.deliver_subscribe hk
    | trigger node gen => exact h.deliver_trigger hk

omit [DecidableEq N] in
theorem initial (o : N) : EventInv o (World.initial o : World N ι) where
  ledger :=
    { free_le := Nat.le_refl 1
      created_le := fun _ hg => absurd hg not_mem_nil
      issued_created := fun _ hg => absurd hg not_mem_nil
      done := fun _ hpos hle => absurd hpos (Nat.not_lt.mpr hle)
      freed_eq := fun _ => (if_neg fun hg => absurd hg.1 (Nat.not_lt.mpr hg.2)).symm }
  follows _ :=
    { owner := rfl
      behind := fun hpos => absurd hpos (Nat.lt_irrefl 0)
      known_le := fun _ hg => absurd hg not_mem_nil
      added_eq := rfl
      next := fun _ hx => absurd hx not_mem_nil
      woken_issued := fun _ hx => absurd hx (Multiset.notMem_zero _)
      subscribed_le := Nat.zero_le _
      subscribed := fun _ hne => absurd rfl hne
      awaits := fun _ hlt => absurd hlt (Nat.lt_irrefl 0) }
  packets _ hpacket := absurd hpacket not_mem_nil

theorem quiet (h : EventInv o w) (hnet : w.net = []) (p : N) {x : Nat × ι}
    (hx : x ∈ (w.impl p).localWaiters) :
    (w.impl o).generation < x.1 := by
  rw [(h.follows p).next x hx]
  by_cases hp : p = o
  · rw [hp]
    exact lt_succ_self _
  · have hsubscribed := (h.follows p).subscribed hp (ne_nil_of_mem hx)
    obtain hsub | ⟨-, hgen⟩ | ⟨_, _, -, htrigger⟩ := (h.follows p).awaits hp hsubscribed
    · rw [hnet] at hsub
      exact absurd hsub not_mem_nil
    · rw [hgen]
      exact lt_succ_self _
    · rw [hnet] at htrigger
      exact absurd htrigger not_mem_nil

end EventInv

/-! ### Runs -/

variable [DecidableEq N]

/-- **Events notify every waiter once and not too early.** In every state of a run in which the
generation counter does not wrap. -/
theorem event_safe {o : N} {w : World N ι} (hrun : (system o).RunsWith (NoWrap o) w) :
    Safe o w := by
  have h : EventInv o w := by
    refine hrun.invariant ?_ ?_
    · rintro w rfl
      exact .initial o
    · rintro w e w' h hwrap ⟨henabled, hnext⟩
      obtain ⟨w'', hnext', h'⟩ := h.step henabled hwrap
      obtain rfl := Except.ok.inj (hnext'.symm.trans hnext)
      exact h'
  refine ⟨fun p => (h.follows p).added_eq, fun p => (h.follows p).woken_issued, fun p =>
    (h.follows p).behind, h.ledger.freed_eq, fun e henabled => ?_,
    fun hnet p x hx => h.quiet hnet p hx⟩
  cases e with
  | create => exact ⟨_, rfl⟩
  | learn p gen => exact (h.learn henabled).imp fun _ hnext => hnext.1
  | addWaiter p gen x => exact (h.addWaiter henabled x).imp fun _ hnext => hnext.1
  | trigger p gen => exact ⟨_, rfl⟩
  | deliver k => exact (h.step henabled trivial).imp fun _ hnext => hnext.1

/-- A node subscribes, the owner triggers, and the node's waiter is notified. -/
theorem event_safe_remote_waiter : ∃ w : World (Fin 2) Unit,
    (system 0).RunsWith (NoWrap 0) w ∧ w.woken 1 = {(1, ())} ∧ Safe 0 w := by
  have start : (system 0).RunsWith (NoWrap 0) (World.initial 0 : World (Fin 2) Unit) := .init rfl
  have hwrap : 0 + 1 < 2 ^ 32 := by decide
  have created := start.step (e := GenEventEvent.create) hwrap ⟨zero_lt_one, rfl⟩
  have learned := created.step (e := GenEventEvent.learn 1 1) trivial ⟨mem_singleton_self 1, rfl⟩
  have waits :=
    learned.step (e := GenEventEvent.addWaiter 1 1 ()) trivial ⟨mem_singleton_self 1, rfl⟩
  have subscribed := waits.step (e := GenEventEvent.deliver 0) trivial ⟨zero_lt_one, rfl⟩
  have triggered := subscribed.step (e := GenEventEvent.trigger 0 1) trivial
    ⟨⟨mem_singleton_self 1, not_mem_nil⟩, rfl⟩
  have woken := triggered.step (e := GenEventEvent.deliver 0) trivial ⟨zero_lt_one, rfl⟩
  exact ⟨_, woken, rfl, event_safe woken⟩

/-! ### After the last generation -/

/-- Every generation number can be reached, by creating and triggering the ones before. -/
theorem exists_generation (o : N) (k : Nat) (hk : k < 2 ^ 32) : ∃ w : World N ι,
    (system o).Reachable w ∧ EventInv o w ∧ (w.impl o).generation = k ∧ w.free = 1 := by
  induction k with
  | zero => exact ⟨.initial o, .init rfl, .initial o, rfl, rfl⟩
  | succ k ih =>
    obtain ⟨w, hrun, h, hgen, hfree⟩ := ih (lt_of_succ_lt hk)
    have hwrap : (w.impl o).generation + 1 < 2 ^ 32 := by rw [hgen]; exact hk
    have hpos : 0 < w.free := hfree ▸ zero_lt_one
    obtain ⟨w₁, hnext1, h1⟩ := h.create hpos hwrap
    have hrun1 := hrun.step (e := GenEventEvent.create) ⟨hpos, hnext1⟩
    obtain rfl := Except.ok.inj hnext1
    have hknown : (w.impl o).generation + 1 ∈ (World.know { w with
        free := w.free - 1
        created := succGen (w.impl o).generation :: w.created } o
          (succGen (w.impl o).generation)).known o := by
      simp only [World.know, update_self, succGen_of_lt hwrap]
      exact mem_cons_self
    have hnew : (w.impl o).generation + 1 ∉ w.issued := by
      intro hissued
      have hle := (h.ledger.created_le _ (h.ledger.issued_created _ hissued)).2.1
      omega
    obtain ⟨w2, hnext2, h2⟩ := h1.trigger hknown hnew
    have hrun2 :=
      hrun1.step (e := GenEventEvent.trigger o ((w.impl o).generation + 1)) ⟨⟨hknown, hnew⟩, hnext2⟩
    obtain rfl := Except.ok.inj hnext2
    have htrigger : trigger o ((w.impl o).generation + 1) o (w.impl o) = reached o (w.impl o) :=
      trigger_owner (h.follows o).owner rfl
    refine ⟨_, hrun2, h2, ?_, ?_⟩
    · simp only [World.commit, World.know, update_self, htrigger]
      exact congrArg succ hgen
    · simp only [World.know, htrigger, hfree]
      rfl

/-- **The generation after the last.** It has number 0; a waiter for it is notified although it was
not triggered. -/
theorem wrapped_waiter_early : ∃ w : World Unit Unit,
    (system ()).Reachable w ∧ 0 ∈ w.created ∧ (0, ()) ∈ w.woken () ∧ 0 ∉ w.issued := by
  obtain ⟨w, hrun, h, hgen, hfree⟩ := exists_generation (ι := Unit) () (2 ^ 32 - 1) (by decide)
  have hzero : 0 ∉ w.issued := fun hissued =>
    absurd (h.ledger.created_le 0 (h.ledger.issued_created 0 hissued)).1 (lt_irrefl 0)
  have hsucc : succGen (w.impl ()).generation = 0 := by
    rw [hgen]
    decide
  have hrun1 :=
    hrun.step (e := GenEventEvent.create) ⟨show 0 < w.free from hfree ▸ zero_lt_one, rfl⟩
  rw [hsucc] at hrun1
  have hrun2 := hrun1.step (e := GenEventEvent.addWaiter () 0 ()) ⟨mem_cons_self, rfl⟩
  exact ⟨_, hrun2, mem_cons_self, mem_add.mpr (.inr (mem_singleton_self _)), hzero⟩

end CharmRuntime.Legion.GenEvent
