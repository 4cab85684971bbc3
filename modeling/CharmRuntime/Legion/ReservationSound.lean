import CharmRuntime.Legion.ReservationSteps
import CharmRuntime.Lib.InFlight
import CharmRuntime.Lib.Sum
import Mathlib.Algebra.Order.BigOperators.Group.Finset

/-!
# Legion.ReservationSound

**Reservations exclude each other and lose no waiter.** In every run in which no node has
more acquires outstanding than `count` can tell apart, the title to the reservation is at
one node or in one grant, and the claim of every node that has asked for it is in exactly
one place (`LockInv.total`). From these two sums the handlers' assertions follow: a grant finds
nobody an owner and its target waiting, a request finds its node in no mask.

With more acquires than that `count` wraps around and `release` fails its assertion
(`release_fails_after_wrap`).
-/

namespace CharmRuntime.Legion.Reservation

open Lib Function List Finset

variable {n : Nat} {ι : Type}

/-! ### The invariant -/

structure LockInv (home : Fin n) (size : Nat) (w : World n ι) : Prop where
  nodes : ∀ p, NodeOk home p size (w.impl p) (w.holders p) (w.opened p)
  data : ∀ p, (w.impl p).owner = p → (w.impl p).localData = w.left
  left_size : w.left.length = size
  packets : ∀ packet ∈ w.net, PacketOk w.left packet.2
  total : ∀ t, ∑ p, balance p (w.impl p) t + carriedBy w.net t = one (t = none)

theorem sum_one_nonneg {P : Fin n → Prop} [DecidablePred P] : 0 ≤ ∑ q, one (P q) :=
  sum_nonneg fun q _ => one_nonneg (P q)

theorem sum_one_eq_zero {P : Fin n → Prop} [DecidablePred P] (h : ∑ q, one (P q) ≤ 0) (q : Fin n) :
    ¬ P q := by
  intro hq
  have hle := single_le_sum (fun q _ => one_nonneg (P q))
    (mem_univ q)
  simp only [one_true hq] at hle
  omega

theorem one_le (P : Prop) [Decidable P] : one P ≤ 1 := by
  unfold one
  split <;> omega

theorem of_one_pos {P : Prop} [Decidable P] (h : 0 < one P) : P := by
  by_contra hP
  rw [one_false hP] at h
  omega

theorem carried_nonneg (packet : Fin n × LockMsg n) (t : Option (Fin n)) :
    0 ≤ carried packet t := by
  unfold carried
  split
  · split <;> decide
  · split
    · exact one_nonneg _
    · exact add_nonneg (one_nonneg _) (one_nonneg _)
    · exact le_rfl

theorem carriedBy_nonneg (net : List (Fin n × LockMsg n)) (t : Option (Fin n)) :
    0 ≤ carriedBy net t := by
  refine sum_nonneg fun x hx => ?_
  obtain ⟨packet, -, rfl⟩ := mem_map.mp hx
  exact carried_nonneg packet t

theorem carriedBy_append (net sends : List (Fin n × LockMsg n)) (t : Option (Fin n)) :
    carriedBy (net ++ sends) t = carriedBy net t + carriedBy sends t := by
  simp [carriedBy]

theorem carriedBy_eraseIdx {net : List (Fin n × LockMsg n)} {k : Nat} {packet : Fin n × LockMsg n}
    (h : net[k]? = some packet) (t : Option (Fin n)) :
    carriedBy net t = carried packet t + carriedBy (net.eraseIdx k) t := by
  have hperm := ((perm_eraseIdx h).map (carried · t)).sum_eq
  exact hperm

namespace LockInv

variable {home : Fin n} {size : Nat} {w : World n ι}

/-- The claims of `p` are in the masks and on the network, and there is one if `p` has
asked. -/
theorem claims (h : LockInv home size w) (p : Fin n) :
    ∑ q, one (p ∈ (w.impl q).remoteWaiterMask) + carriedBy w.net (some p)
      = one ((w.impl p).requested = true) := by
  have htotal := h.total (some p)
  simp only [balance, sum_sub_distrib] at htotal
  have howed : ∑ q, one (p = q ∧ (w.impl q).requested = true)
      = one ((w.impl p).requested = true) := by
    rw [sum_eq_of_ne p (fun q hq => one_false fun hp => hq hp.1.symm)]
    exact one_congr (and_iff_right rfl)
  rw [one_false (Option.some_ne_none p)] at htotal
  omega

theorem titles (h : LockInv home size w) :
    ∑ q, one ((w.impl q).owner = q) + carriedBy w.net none = 1 := by
  have htotal := h.total none
  exact htotal

theorem request (h : LockInv home size w) {k : Nat} {q : Fin n} {args : LockRequestArgs n}
    (hk : w.net[k]? = some (q, .request args)) :
    (w.impl args.node).requested = true ∧
      ∀ p, args.node ∉ (w.impl p).remoteWaiterMask := by
  have hclaims := h.claims args.node
  rw [carriedBy_eraseIdx hk, carried_request, one_true rfl] at hclaims
  have hrest := carriedBy_nonneg (w.net.eraseIdx k) (some args.node)
  have hmasks := sum_one_nonneg (P := fun q => args.node ∈ (w.impl q).remoteWaiterMask)
  have hle := one_le ((w.impl args.node).requested = true)
  refine ⟨of_one_pos (by omega), fun p => ?_⟩
  exact sum_one_eq_zero (P := fun q => args.node ∈ (w.impl q).remoteWaiterMask) (by omega) p

theorem grant (h : LockInv home size w) {k : Nat} {p : Fin n} {args : LockGrant n}
    (hk : w.net[k]? = some (p, .grant args)) :
    (w.impl p).requested = true ∧ ∀ q, (w.impl q).owner ≠ q := by
  have hclaims := h.claims p
  have htitles := h.titles
  rw [carriedBy_eraseIdx hk, carried_grant, one_true rfl] at hclaims
  rw [carriedBy_eraseIdx hk, carried_grant_none] at htitles
  have hrest := carriedBy_nonneg (w.net.eraseIdx k)
  have hmasks := sum_one_nonneg (P := fun q => p ∈ (w.impl q).remoteWaiterMask)
  have hwaiters := one_nonneg (p ∈ args.waiters)
  have hrest1 := hrest (some p)
  have hrest2 := hrest none
  refine ⟨of_one_pos (by omega), fun q => ?_⟩
  exact sum_one_eq_zero (P := fun q => (w.impl q).owner = q) (by omega) q

theorem owner_unique (h : LockInv home size w) {p q : Fin n} (hp : (w.impl p).owner = p)
    (hq : (w.impl q).owner = q) : p = q := by
  by_contra hne
  have htitles := h.titles
  have hrest := carriedBy_nonneg w.net none
  have hpair := add_le_sum (f := fun q => one ((w.impl q).owner = q))
    (fun q _ => one_nonneg _) (mem_univ p) (mem_univ q) hne
  simp only [one_true hp, one_true hq] at hpair
  omega

theorem notMem_of_not_requested (h : LockInv home size w) {p : Fin n}
    (hreq : (w.impl p).requested = false) (q : Fin n) : p ∉ (w.impl q).remoteWaiterMask := by
  have hclaims := h.claims p
  rw [one_false (by simp [hreq])] at hclaims
  have hrest := carriedBy_nonneg w.net (some p)
  exact sum_one_eq_zero (P := fun q => p ∈ (w.impl q).remoteWaiterMask) (by omega) q

end LockInv

/-! ### One call -/

/-- What a call leaves behind, when `taken` was taken from the network before it. -/
theorem commit_inv {home : Fin n} {size : Nat} {w : World n ι} {p : Fin n}
    {taken : Option (Fin n) → Int} {e : Effect n ι}
    (hc : Conserving home p size w.left taken (w.impl p) (w.holders p) (w.opened p) e)
    (hnodes : ∀ q, q ≠ p → NodeOk home q size (w.impl q) (w.holders q) (w.opened q))
    (hdata : ∀ q, (w.impl q).owner = q → (w.impl q).localData = w.left)
    (hleft : w.left.length = size) (hpackets : ∀ packet ∈ w.net, PacketOk w.left packet.2)
    (htotal : ∀ t,
      ∑ q, balance q (w.impl q) t + (taken t + carriedBy w.net t) = one (t = none)) :
    LockInv home size (w.commit p e) where
  nodes := by
    intro q
    by_cases hq : q = p
    · subst hq
      simp only [World.commit, update_self]
      exact hc.node
    · simp only [World.commit, update_of_ne hq]
      exact hnodes q hq
  data := by
    intro q howner
    by_cases hq : q = p
    · subst hq
      simp only [World.commit, update_self] at howner ⊢
      exact hc.data howner
    · simp only [World.commit, update_of_ne hq] at howner ⊢
      exact hdata q howner
  left_size := hleft
  packets := by
    intro packet hpacket
    obtain hold | hnew := mem_append.mp hpacket
    · exact hpackets packet hold
    · exact hc.packets packet hnew
  total := by
    intro t
    have hsum : ∑ q, balance q (update w.impl p e.impl q) t
        = ∑ q, balance q (w.impl q) t + (balance p e.impl t - balance p (w.impl p) t) := by
      rw [sum_eq_add_of_ne p]
      · rw [update_self]
      · intro q hq
        rw [update_of_ne hq]
    have hbalance := hc.balance t
    have htotal := htotal t
    simp only [World.commit, carriedBy_append]
    omega

/-! ### Runs -/

namespace World

/-- The counter has room for one more acquire. -/
def Room (w : World n ι) : LockEvent n ι → Prop
  | .acquire p _ _ _ => (w.opened p).card < maxHolders
  | _ => True

end World

theorem initial_inv {home : Fin n} {size : Nat} {w : World n ι} (h : w.Initial home size) :
    LockInv home size w where
  nodes := by
    intro p
    obtain ⟨data, inUse, hlen, huse, hp⟩ := h.impl p
    rw [h.holders, h.opened, hp]
    exact
      { count := countOf_zero.symm
        opened_eq := rfl
        limit := Nat.zero_le _
        full := fun _ he => absurd he not_mem_nil
        sharers := rfl
        inUse := huse
        localDataSize := rfl
        localData := hlen
        modes := fun _ he => absurd he (Multiset.notMem_zero _)
        excl := fun _ => Nat.zero_le _
        away := fun _ => ⟨rfl, rfl, by simp⟩
        here := fun _ => ⟨rfl, fun _ => ⟨rfl, rfl⟩⟩ }
  data := by
    intro p howner
    obtain ⟨data, inUse, -, -, hp⟩ := h.impl p
    rw [hp] at howner
    rw [h.left, ← howner]
  left_size := by
    obtain ⟨data, inUse, hlen, -, hp⟩ := h.impl home
    rw [h.left, hp]
    exact hlen
  packets := by
    intro packet hpacket
    rw [h.net] at hpacket
    exact absurd hpacket not_mem_nil
  total := by
    intro t
    rw [h.net, carriedBy_nil, add_zero]
    cases t with
    | none =>
      have howner : ∀ p, balance p (w.impl p) none = one (home = p) := fun p => by
        obtain ⟨data, inUse, -, -, hp⟩ := h.impl p
        rw [hp]
        rfl
      simp only [howner]
      rw [sum_eq_of_ne home fun p hp => one_false hp.symm]
      exact (one_true rfl).trans (one_true trivial).symm
    | some q =>
      refine Finset.sum_eq_zero fun p _ => ?_
      obtain ⟨data, inUse, -, -, hp⟩ := h.impl p
      rw [hp]
      simp [balance]

section Run

variable {home : Fin n} {size : Nat} {w : World n ι}

/-- A write of the owner's holder. No grant is in flight, so no message has the old bytes. -/
theorem LockInv.write (h : LockInv home size w) {p : Fin n} {data : List UInt8}
    (howner : (w.impl p).owner = p) (hlen : data.length = (w.impl p).localDataSize) :
    LockInv home size
      { w with
        impl := update w.impl p { w.impl p with localData := data }
        left := data } := by
  have hsize : data.length = size := hlen.trans (h.nodes p).localDataSize
  have hsame : ∀ q t, balance q (update w.impl p { w.impl p with localData := data } q) t
      = balance q (w.impl q) t := by
    intro q t
    by_cases hq : q = p
    · subst hq
      rw [update_self]
      exact balance_congr rfl rfl rfl t
    · rw [update_of_ne hq]
  refine ⟨fun q => ?_, fun q hq' => ?_, hsize, fun packet hpacket => ?_, fun t => ?_⟩
  · by_cases hq : q = p
    · subst hq
      simp only [update_self]
      exact { h.nodes q with localData := hsize }
    · simp only [update_of_ne hq]
      exact h.nodes q
  · by_cases hq : q = p
    · subst hq
      simp only [update_self]
    · simp only [update_of_ne hq] at hq' ⊢
      exact absurd (h.owner_unique hq' howner) hq
  · have hok := h.packets packet hpacket
    obtain ⟨q, msg⟩ := packet
    cases msg with
    | request args => trivial
    | grant args =>
      obtain ⟨k, hk⟩ := mem_iff_getElem?.mp hpacket
      exact absurd howner ((h.grant hk).2 p)
    | release node => exact hok.elim
  · simp only [hsame]
    exact h.total t

variable [DecidableEq ι]

/-- Every call that the counter has room for keeps the invariant; in particular none
fails. -/
theorem LockInv.next (h : LockInv home size w) {e : LockEvent n ι} (he : w.Enabled e)
    (hroom : w.Room e) : ∃ w', w.next home e = .ok w' ∧ LockInv home size w' := by
  cases e with
  | acquire p newMode exclusive afterLock =>
    obtain ⟨eff, heff, hc⟩ :=
      acquire_ok newMode exclusive afterLock (h.nodes p) (h.data p) hroom
    let mode := if exclusive then modeExcl else newMode
    rw [← update_self p ((mode, afterLock) ::ₘ w.opened p) w.opened] at hc
    have hnext : w.next home (.acquire p newMode exclusive afterLock)
        = .ok ((w.noteAcquire p mode afterLock).commit p eff) := by
      simp only [World.next, heff, mode]
    refine ⟨_, hnext, commit_inv hc
      (fun q hq => ?_) h.data h.left_size h.packets (fun t => ?_)⟩
    · simp only [World.noteAcquire, update_of_ne hq]
      exact h.nodes q
    · rw [nothing, zero_add]
      exact h.total t
  | release p holder =>
    have howner : (w.impl p).owner = p := by
      by_contra hne
      have hholder : holder ∈ w.holders p := he
      rw [((h.nodes p).away hne).1] at hholder
      exact Multiset.notMem_zero _ hholder
    have hself := h.notMem_of_not_requested ((h.nodes p).here howner).1 p
    obtain ⟨eff, heff, hc⟩ := release_ok (h.nodes p) (h.data p) he hself
    rw [← update_self p ((w.holders p).erase holder) w.holders,
      ← update_self p ((w.opened p).erase holder) w.opened] at hc
    refine ⟨_, by simp only [World.next, heff], commit_inv (w := w.noteRelease p holder) hc
      (fun q hq => ?_) h.data h.left_size h.packets (fun t => ?_)⟩
    · simp only [World.noteRelease, update_of_ne hq]
      exact h.nodes q
    · rw [nothing, zero_add]
      exact h.total t
  | write p data =>
    obtain ⟨hholders, hlen⟩ := he
    have howner : (w.impl p).owner = p := by
      by_contra hne
      exact hholders ((h.nodes p).away hne).1
    exact ⟨_, rfl, h.write howner hlen⟩
  | deliver k =>
    obtain ⟨⟨p, msg⟩, hk⟩ : ∃ packet, w.net[k]? = some packet :=
      ⟨_, getElem?_eq_getElem he⟩
    have hmsg : PacketOk w.left msg := h.packets (p, msg) (mem_of_getElem? hk)
    have hhandle : ∃ eff, World.handle home p msg (w.impl p) = .ok eff ∧
        Conserving home p size w.left (carried (p, msg)) (w.impl p) (w.holders p) (w.opened p)
          eff := by
      cases msg with
      | request args =>
        obtain ⟨hreq, hmask⟩ := h.request hk
        exact handleLockRequest_ok (h.nodes p) (h.data p) (fun hp => hp ▸ hreq) (hmask p)
      | grant args =>
        obtain ⟨hreq, howner⟩ := h.grant hk
        exact handleLockGrant_ok (h.nodes p) (howner p) hreq h.left_size hmsg
      | release node => exact hmsg.elim
    obtain ⟨eff, heff, hc⟩ := hhandle
    refine ⟨_, by simp only [World.next, hk, heff],
      commit_inv (w := { w with net := w.net.eraseIdx k }) hc (fun q _ => h.nodes q) h.data
      h.left_size (fun packet hp => h.packets packet (mem_of_mem_eraseIdx hp)) (fun t => ?_)⟩
    rw [← carriedBy_eraseIdx hk]
    exact h.total t

theorem runs_inv (h : (system (ι := ι) home size).RunsWith World.Room w) : LockInv home size w := by
  refine h.invariant (fun w h0 => initial_inv (w := w) h0) fun w e w' hinv hroom hstep => ?_
  obtain ⟨he, hnext⟩ := hstep
  obtain ⟨w1, hnext1, hinv1⟩ := hinv.next he hroom
  rw [hnext1] at hnext
  cases hnext
  exact hinv1

end Run

/-! ### What the runs have -/

namespace World

/-- The grants in flight. -/
def grants (w : World n ι) : Nat :=
  w.net.countP fun packet =>
    match packet.2 with
    | .grant _ => true
    | _ => false

theorem carriedBy_none (net : List (Fin n × LockMsg n)) :
    carriedBy net none = net.countP fun packet =>
      match packet.2 with
      | .grant _ => true
      | _ => false := by
  induction net with
  | nil => rfl
  | cons packet rest ih =>
    obtain ⟨q, msg⟩ := packet
    rw [carriedBy_cons, ih]
    cases msg <;> simp [carried, add_comm]

variable [DecidableEq ι]

/-- What a reservation guarantees. -/
structure Safe (home : Fin n) (w : World n ι) : Prop where
  /-- One node is the owner and no grant is in flight, or nobody is and one grant is. -/
  ownership :
    ((∃ p, (w.impl p).owner = p ∧ ∀ q, (w.impl q).owner = q → q = p) ∧ w.grants = 0) ∨
      ((∀ p, (w.impl p).owner ≠ p) ∧ w.grants = 1)
  one_node : ∀ p q, w.holders p ≠ 0 → w.holders q ≠ 0 → p = q
  /-- A single exclusive holder, or holders of one shared mode. -/
  one_mode : ∀ p, (∃ i, w.holders p = {(modeExcl, i)}) ∨
    ∃ mode, mode ≠ modeExcl ∧ ∀ h ∈ w.holders p, h.1 = mode
  /-- A holder sees the bytes that the last writing holder left. -/
  data : ∀ p, w.holders p ≠ 0 → (w.impl p).localData = w.left
  /-- An acquire that is not released holds the reservation or waits for it. -/
  opened : ∀ p, w.opened p = w.holders p + (w.impl p).localWaiters.items
  /-- When nothing is in flight and nobody holds, nobody waits. -/
  quiet : w.net = [] → (∀ p, w.holders p = 0) → ∀ p, (w.impl p).localWaiters = [] ∧
    (w.impl p).requested = false ∧ (w.impl p).remoteWaiterMask = ∅
  /-- No assertion fails. -/
  no_fault : ∀ e, w.Enabled e → w.Room e → ∃ w', w.next home e = .ok w'

end World

namespace LockInv

variable {home : Fin n} {size : Nat} {w : World n ι} (h : LockInv home size w)
include h

theorem ownership : ((∃ p, (w.impl p).owner = p ∧ ∀ q, (w.impl q).owner = q → q = p) ∧
    w.grants = 0) ∨ ((∀ p, (w.impl p).owner ≠ p) ∧ w.grants = 1) := by
  have htitles := h.titles
  rw [World.carriedBy_none] at htitles
  by_cases howner : ∃ p, (w.impl p).owner = p
  · obtain ⟨p, hp⟩ := howner
    refine .inl ⟨⟨p, hp, fun q hq => h.owner_unique hq hp⟩, ?_⟩
    by_contra hgrants
    have hpos : 0 < w.grants := pos_of_ne_zero hgrants
    refine sum_one_eq_zero (P := fun q => (w.impl q).owner = q) ?_ p hp
    unfold World.grants at hpos
    omega
  · have hnone : ∀ p, (w.impl p).owner ≠ p := fun p hp => howner ⟨p, hp⟩
    refine .inr ⟨hnone, ?_⟩
    rw [sum_eq_zero fun p _ => one_false (hnone p)] at htitles
    unfold World.grants
    omega

theorem owner_of_holders {p : Fin n} (hp : w.holders p ≠ 0) : (w.impl p).owner = p := by
  by_contra hne
  exact hp ((h.nodes p).away hne).1

theorem one_mode (p : Fin n) : (∃ i, w.holders p = {(modeExcl, i)}) ∨
    ∃ mode, mode ≠ modeExcl ∧ ∀ e ∈ w.holders p, e.1 = mode := by
  have hp := h.nodes p
  by_cases hmode : (w.impl p).mode = modeExcl
  · by_cases hzero : w.holders p = 0
    · refine .inr ⟨1, by decide, fun e he => ?_⟩
      rw [hzero] at he
      exact absurd he (Multiset.notMem_zero e)
    · have hcard : (w.holders p).card = 1 := by
        have hle := hp.excl hmode
        have hpos := Multiset.card_pos.mpr hzero
        omega
      obtain ⟨⟨mode, i⟩, he⟩ := Multiset.card_eq_one.mp hcard
      have hm : mode = (w.impl p).mode := hp.modes (mode, i) (by simp [he])
      exact .inl ⟨i, by rw [he, hm, hmode]⟩
  · exact .inr ⟨_, hmode, hp.modes⟩

theorem quiet (hnet : w.net = []) (hfree : ∀ p, w.holders p = 0) (p : Fin n) :
    (w.impl p).localWaiters = [] ∧ (w.impl p).requested = false ∧
      (w.impl p).remoteWaiterMask = ∅ := by
  have hmask : ∀ q, (w.impl q).remoteWaiterMask = ∅ := by
    intro q
    by_cases howner : (w.impl q).owner = q
    · exact (((h.nodes q).here howner).2 (hfree q)).1
    · exact ((h.nodes q).away howner).2.1
  have hreq : (w.impl p).requested = false := by
    have hclaims := h.claims p
    rw [hnet, carriedBy_nil, sum_eq_zero (fun q _ => one_false (by simp [hmask q]))] at hclaims
    by_contra hreq
    rw [one_true (Bool.eq_true_of_not_eq_false hreq)] at hclaims
    omega
  refine ⟨?_, hreq, hmask p⟩
  by_cases howner : (w.impl p).owner = p
  · exact (((h.nodes p).here howner).2 (hfree p)).2
  · have hwait := ((h.nodes p).away howner).2.2
    by_contra hne
    rw [hwait.mpr hne] at hreq
    cases hreq

end LockInv

/-- An initial state, in which all nodes have the same data. -/
def World.fresh (home : Fin n) (data : List UInt8) : World n ι where
  impl := fun _ =>
    { owner := home, count := zeroCount, mode := 0, inUse := true, remoteWaiterMask := ∅,
      remoteSharerMask := ∅, localWaiters := [], requested := false, localData := data,
      localDataSize := data.length }
  net := []
  holders := fun _ => 0
  opened := fun _ => 0
  left := data

theorem World.fresh_initial (home : Fin n) (data : List UInt8) :
    (World.fresh (ι := ι) home data).Initial home data.length where
  impl := fun _ => ⟨data, true, rfl, fun _ => rfl, rfl⟩
  net := rfl
  holders := fun _ => rfl
  opened := fun _ => rfl
  left := rfl

/-- **Mutual exclusion, and no lost waiter.** In every run in which the counters have room
for the acquires. -/
theorem reservation_safe [DecidableEq ι] {home : Fin n} {size : Nat} {w : World n ι}
    (hrun : (system (ι := ι) home size).RunsWith World.Room w) : w.Safe home := by
  have h := runs_inv hrun
  exact
    { ownership := h.ownership
      one_node := fun p q hp hq => h.owner_unique (h.owner_of_holders hp) (h.owner_of_holders hq)
      one_mode := h.one_mode
      data := fun p hp => h.data p (h.owner_of_holders hp)
      opened := fun p => (h.nodes p).opened_eq
      quiet := h.quiet
      no_fault := fun e he hroom => by
        obtain ⟨w', hnext, -⟩ := h.next he hroom
        exact ⟨w', hnext⟩ }

/-- Node 1 asks the home node 0 for the reservation and is granted it. -/
theorem reservation_safe_handover : ∃ w : World 2 Unit,
    (system 0 1).RunsWith World.Room w ∧ w.holders 1 = {(modeExcl, ())} ∧ w.Safe 0 := by
  have start : (system 0 1).RunsWith World.Room (World.fresh (ι := Unit) (0 : Fin 2) [7]) :=
    .init (World.fresh_initial 0 [7])
  have hroom : 0 < maxHolders := by decide
  have asked := start.step (e := LockEvent.acquire 1 0 true ()) hroom ⟨trivial, rfl⟩
  have granted := asked.step (e := LockEvent.deliver 0) trivial ⟨zero_lt_one, rfl⟩
  have held := granted.step (e := LockEvent.deliver 0) trivial ⟨zero_lt_one, rfl⟩
  exact ⟨_, held, rfl, reservation_safe held⟩

/-! ### When the counter wraps around -/

/-- One node with `k` holders in mode 1. -/
def sharers (k : Nat) : World 1 Unit where
  impl := fun _ =>
    { owner := 0, count := countOf k, mode := if k = 0 then 0 else 1, inUse := true,
      remoteWaiterMask := ∅, remoteSharerMask := ∅, localWaiters := [], requested := false,
      localData := [], localDataSize := 0 }
  net := []
  holders := fun _ => Multiset.replicate k (1, ())
  opened := fun _ => Multiset.replicate k (1, ())
  left := []

theorem update_fin_one {α : Type} (f : Fin 1 → α) (x : α) :
    update f 0 x = fun _ => x := by
  funext p
  rw [Subsingleton.elim p 0, update_self]

theorem sharers_next (k : Nat) :
    (sharers k).next 0 (.acquire 0 1 false ()) = .ok (sharers (k + 1)) := by
  have hgrant : countOf k = zeroCount ∨
      ((if k = 0 then 0 else 1 : BitVec 32) = 1 ∧
        (if k = 0 then 0 else 1) ≠ modeExcl) := by
    by_cases hk : k = 0
    · subst hk
      exact .inl countOf_zero
    · rw [if_neg hk]
      exact .inr ⟨rfl, by decide⟩
  have hacquire : acquire 0 0 1 false () ((sharers k).impl 0)
      = .ok { impl := (sharers (k + 1)).impl 0, sends := [], woken := [()] } := by
    have himpl : (sharers (k + 1)).impl 0
        = { (sharers k).impl 0 with mode := 1, count := ((sharers k).impl 0).count + 1 } := by
      simp [sharers, ← countOf_succ]
    rw [himpl]
    exact if_pos hgrant
  have hmode : ((sharers (k + 1)).impl 0).mode = 1 := rfl
  have hholders : (sharers k).holders 0 + QueueMap.tagged 1 [()] = (sharers (k + 1)).holders 0 := by
    rw [QueueMap.tagged_cons, QueueMap.tagged_nil, Multiset.add_cons, add_zero]
    rfl
  simp only [World.next, hacquire, World.commit, World.noteAcquire, update_fin_one, hmode, hholders]
  rfl

theorem sharers_reachable (k : Nat) : (system (ι := Unit) (0 : Fin 1) 0).Reachable (sharers k) := by
  induction k with
  | zero =>
    have hinit : (sharers 0).Initial 0 0 := World.fresh_initial 0 []
    exact .init hinit
  | succ k ih => exact ih.step (e := LockEvent.acquire 0 1 false ()) ⟨trivial, sharers_next k⟩

/-- With one shared holder more than the counter has room for, a release fails. -/
theorem release_fails_after_wrap : ∃ w : World 1 Unit,
    (system 0 0).Reachable w ∧ w.Enabled (.release 0 (1, ())) ∧
      w.next 0 (.release 0 (1, ())) = .error .notHeld := by
  refine ⟨sharers (maxHolders + 1), sharers_reachable _, ?_, ?_⟩
  · have hmem : ((1 : BitVec 32), ()) ∈ replicate (maxHolders + 1) (1, ()) :=
      mem_replicate.mpr ⟨Nat.succ_ne_zero _, rfl⟩
    exact hmem
  · have hcount : ¬ zeroCount < countOf (maxHolders + 1) := by decide
    have hrelease : release 0 ((sharers (maxHolders + 1)).impl 0) = .error .notHeld :=
      if_pos hcount
    simp only [World.next, hrelease]

end CharmRuntime.Legion.Reservation
