import CharmRuntime.Legion.Reservation

/-!
# Legion.ReservationSteps

What each call does on its own node. `NodeOk` is the invariant of one node; `balance` is
the node's part of two conserved quantities: the title to the reservation (`none`), and for
every node `p` the claim of `p` (`some p`), which stands for `p`'s one outstanding request
wherever it is: in a message, in a mask, or in the waiters of a grant. `Conserving` says
that a call keeps the node's invariant and passes on exactly what it took.
-/

namespace CharmRuntime.Legion.Reservation

open Lib List
open Multiset (add_cons card card_add card_eq_zero mem_add)

variable {n : Nat} {ι : Type}

/-! ### The counter -/

/-- The most acquires of one node that `count` can tell apart: from `ZERO_COUNT` up to the
largest `unsigned`. -/
def maxHolders : Nat := 2 ^ 32 - 1 - 0x11223344

/-- The counter with `k` holders. -/
def countOf (k : Nat) : BitVec 32 := zeroCount + BitVec.ofNat 32 k

theorem toNat_countOf {k : Nat} (h : k ≤ maxHolders) : (countOf k).toNat = 0x11223344 + k := by
  have hzero : zeroCount.toNat = 0x11223344 := by decide
  unfold maxHolders at h
  rw [countOf, BitVec.toNat_add, BitVec.toNat_ofNat]
  omega

theorem countOf_zero : countOf 0 = zeroCount := by decide

theorem countOf_succ (k : Nat) : countOf k + 1 = countOf (k + 1) := by
  simp only [countOf, BitVec.ofNat_add, BitVec.add_assoc, BitVec.ofNat_eq_ofNat]

theorem countOf_pred (k : Nat) : countOf (k + 1) - 1 = countOf k := by
  rw [← countOf_succ, BitVec.add_sub_cancel]

theorem countOf_eq_zero {k : Nat} (h : k ≤ maxHolders) : countOf k = zeroCount ↔ k = 0 := by
  rw [← countOf_zero, ← BitVec.toNat_inj, toNat_countOf h, toNat_countOf (Nat.zero_le _)]
  omega

theorem zero_lt_countOf {k : Nat} (h : k ≤ maxHolders) : zeroCount < countOf k ↔ 0 < k := by
  rw [← countOf_zero, BitVec.lt_def, toNat_countOf h, toNat_countOf (Nat.zero_le _)]
  omega

/-! ### Choosing local waiters -/

/-- The state after the waiters `toWake` were chosen in mode `mode`. -/
def woke (s : Impl n ι) (mode : BitVec 32) (toWake : List ι)
    (waiters : QueueMap (BitVec 32) ι) : Impl n ι :=
  { s with mode := mode, count := countOf toWake.length, localWaiters := waiters }

/-- `toWake` are local waiters of one mode, one alone if it is the exclusive one, and
`waiters` are the others. -/
structure Chosen (s : Impl n ι) (mode : BitVec 32) (toWake : List ι)
    (waiters : QueueMap (BitVec 32) ι) : Prop where
  ne_nil : toWake ≠ []
  full : waiters.Full
  items : s.localWaiters.items = QueueMap.tagged mode toWake + waiters.items
  excl : mode = modeExcl → toWake.length = 1

theorem selectLocalWaiters_nil {s : Impl n ι} (h : s.localWaiters = []) :
    selectLocalWaiters s = .ok (s, none) := by
  simp only [selectLocalWaiters, h]

theorem selectLocalWaiters_some {s : Impl n ι} (hfull : s.localWaiters.Full)
    (hmax : s.localWaiters.items.card ≤ maxHolders) (hne : s.localWaiters ≠ []) :
    ∃ mode toWake waiters, Chosen s mode toWake waiters ∧
      selectLocalWaiters s = .ok (woke s mode toWake waiters, some toWake) := by
  obtain ⟨⟨mode, queue⟩, rest, hw⟩ := exists_cons_of_ne_nil hne
  simp only [selectLocalWaiters]
  rw [hw]
  rw [hw] at hfull hmax
  cases hfind : QueueMap.find modeExcl ((mode, queue) :: rest) with
  | some excl =>
    cases excl with
    | nil => exact absurd rfl (hfull.find_ne_nil hfind)
    | cons front others =>
      have hitems := QueueMap.items_erase hfind
      by_cases hothers : others = []
      · subst hothers
        refine ⟨modeExcl, [front], QueueMap.erase modeExcl ((mode, queue) :: rest),
          ⟨cons_ne_nil _ _, hfull.erase, ?_, fun _ => rfl⟩, ?_⟩
        · rw [hw]
          exact hitems
        · rfl
      · refine ⟨modeExcl, [front], QueueMap.replace modeExcl others ((mode, queue) :: rest),
          ⟨cons_ne_nil _ _, hfull.replace hothers, ?_, fun _ => rfl⟩, ?_⟩
        · rw [hw, QueueMap.items_replace hfind, hitems]
          simp
        · simp only [if_neg hothers]
          rfl
  | none =>
    have hqueue : queue ≠ [] := hfull (mode, queue) (mem_cons_self ..)
    have hlen : queue.length ≤ maxHolders := by
      rw [QueueMap.items_cons, card_add, QueueMap.card_tagged] at hmax
      omega
    have hpos : zeroCount < countOf queue.length :=
      (zero_lt_countOf hlen).mpr (length_pos_iff.mpr hqueue)
    refine ⟨mode, queue, rest, ⟨hqueue, ?_, ?_, ?_⟩, ?_⟩
    · exact fun e he => hfull e (mem_cons_of_mem _ he)
    · rw [hw, QueueMap.items_cons]
    · intro hmode
      subst hmode
      simp [QueueMap.find] at hfind
    · exact if_neg (not_not_intro hpos)

/-! ### The invariant of one node -/

/-- `hs` hold the reservation on node `me`, `opened` have acquired and not yet released. -/
structure NodeOk (home me : Fin n) (size : Nat) (s : Impl n ι)
    (hs opened : Multiset (BitVec 32 × ι)) : Prop where
  count : s.count = countOf hs.card
  opened_eq : opened = hs + s.localWaiters.items
  limit : opened.card ≤ maxHolders
  full : s.localWaiters.Full
  sharers : s.remoteSharerMask = ∅
  inUse : me = home → s.inUse = true
  localDataSize : s.localDataSize = size
  localData : s.localData.length = size
  modes : ∀ h ∈ hs, h.1 = s.mode
  excl : s.mode = modeExcl → hs.card ≤ 1
  /-- A node that is not the owner has no holder and no remote waiter, and has asked for
  the reservation if somebody waits for it. -/
  away : s.owner ≠ me →
    hs = 0 ∧ s.remoteWaiterMask = ∅ ∧ (s.requested = true ↔ s.localWaiters ≠ [])
  /-- The owner has asked for nothing, and nobody waits while nobody holds. -/
  here : s.owner = me →
    s.requested = false ∧ (hs = 0 → s.remoteWaiterMask = ∅ ∧ s.localWaiters = [])

namespace NodeOk

variable {home me : Fin n} {size : Nat} {s : Impl n ι} {hs opened : Multiset (BitVec 32 × ι)}

theorem holders_le (h : NodeOk home me size s hs opened) : hs.card ≤ maxHolders := by
  have := h.limit
  rw [h.opened_eq, card_add] at this
  omega

theorem waiters_le (h : NodeOk home me size s hs opened) :
    s.localWaiters.items.card ≤ maxHolders := by
  have := h.limit
  rw [h.opened_eq, card_add] at this
  omega

theorem not_deleted (h : NodeOk home me size s hs opened) : ¬ (me = home ∧ s.inUse = false) := by
  rintro ⟨hme, huse⟩
  rw [h.inUse hme] at huse
  cases huse

theorem count_eq_zero (h : NodeOk home me size s hs opened) : s.count = zeroCount ↔ hs = 0 := by
  rw [h.count, countOf_eq_zero h.holders_le, card_eq_zero]

theorem zero_lt_count (h : NodeOk home me size s hs opened) :
    zeroCount < s.count ↔ 0 < hs.card := by
  rw [h.count, zero_lt_countOf h.holders_le]

end NodeOk

/-! ### What is conserved -/

/-- One if `P` holds. -/
def one (P : Prop) [Decidable P] : Int := if P then 1 else 0

@[simp] theorem one_true {P : Prop} [Decidable P] (h : P) : one P = 1 := if_pos h

@[simp] theorem one_false {P : Prop} [Decidable P] (h : ¬ P) : one P = 0 := if_neg h

theorem one_nonneg (P : Prop) [Decidable P] : 0 ≤ one P := by
  unfold one
  split <;> omega

theorem one_congr {P Q : Prop} [Decidable P] [Decidable Q] (h : P ↔ Q) : one P = one Q := by
  simp only [h]

theorem one_mem_insert {p q : Fin n} {mask : Finset (Fin n)} (h : q ∉ mask) :
    one (p ∈ insert q mask) = one (p = q) + one (p ∈ mask) := by
  by_cases hp : p = q
  · subst hp
    rw [one_true (Finset.mem_insert_self p mask), one_true rfl, one_false h, add_zero]
  · rw [one_congr (Finset.mem_insert.trans (or_iff_right hp)), one_false hp, zero_add]

/-- Node `me`'s part: the title to the reservation, and the claims in its mask less the
claim it has itself put out. -/
def balance (me : Fin n) (s : Impl n ι) : Option (Fin n) → Int
  | none => one (s.owner = me)
  | some p => one (p ∈ s.remoteWaiterMask) - one (p = me ∧ s.requested = true)

theorem balance_congr {me : Fin n} {s s' : Impl n ι} (howner : s'.owner = s.owner)
    (hmask : s'.remoteWaiterMask = s.remoteWaiterMask) (hreq : s'.requested = s.requested)
    (t : Option (Fin n)) : balance me s' t = balance me s t := by
  cases t with
  | none => exact one_congr (by rw [howner])
  | some p =>
    have hclaims : one (p ∈ s'.remoteWaiterMask) = one (p ∈ s.remoteWaiterMask) :=
      one_congr (by rw [hmask])
    have howed : one (p = me ∧ s'.requested = true) = one (p = me ∧ s.requested = true) :=
      one_congr (by rw [hreq])
    simp only [balance, hclaims, howed]

/-- A message's part. -/
def carried (packet : Fin n × LockMsg n) : Option (Fin n) → Int
  | none =>
    match packet.2 with
    | .grant _ => 1
    | _ => 0
  | some p =>
    match packet.2 with
    | .request args => one (p = args.node)
    | .grant args => one (p = packet.1) + one (p ∈ args.waiters)
    | .release _ => 0

theorem carried_request (q p : Fin n) (args : LockRequestArgs n) :
    carried (q, .request args) (some p) = one (p = args.node) := rfl

theorem carried_grant (q p : Fin n) (args : LockGrant n) :
    carried (q, .grant args) (some p) = one (p = q) + one (p ∈ args.waiters) := rfl

theorem carried_grant_none (q : Fin n) (args : LockGrant n) :
    carried (q, .grant args) none = 1 := rfl

/-- The messages' part. -/
def carriedBy (net : List (Fin n × LockMsg n)) (t : Option (Fin n)) : Int :=
  (net.map (carried · t)).sum

@[simp] theorem carriedBy_nil (t : Option (Fin n)) : carriedBy [] t = 0 := rfl

@[simp] theorem carriedBy_cons (packet : Fin n × LockMsg n) (net : List (Fin n × LockMsg n))
    (t : Option (Fin n)) : carriedBy (packet :: net) t = carried packet t + carriedBy net t := rfl

/-- A message that the code sends: a grant gives the reservation exclusively and carries
the bytes last left by a holder. -/
def PacketOk (left : List UInt8) : LockMsg n → Prop
  | .request _ => True
  | .grant args => args.mode = 0 ∧ args.waiterCount = args.waiters.length ∧ args.data = left
  | .release _ => False

theorem packGrant_ok (mask : Finset (Fin n)) (data : List UInt8) :
    PacketOk data (.grant (packGrant mask data)) := by
  refine ⟨rfl, ?_, rfl⟩
  change mask.card = ((finRange n).filter (· ∈ mask)).length
  rw [← toFinset_card_of_nodup ((nodup_finRange n).filter _)]
  congr 1
  ext p
  simp

theorem carried_packGrant {mask : Finset (Fin n)} {data : List UInt8} {p q : Fin n} :
    carried (q, .grant (packGrant mask data)) (some p) = one (p = q) + one (p ∈ mask) := by
  have hmem : p ∈ (packGrant mask data).waiters ↔ p ∈ mask := by simp [packGrant]
  rw [carried_grant, one_congr hmem]

/-- A call on node `me` in state `s` with holders `hs`, which leaves the holders `hs'`
besides those it wakes: it takes the part `taken` from the network. -/
structure Conserving (home me : Fin n) (size : Nat) (left : List UInt8)
    (taken : Option (Fin n) → Int) (s : Impl n ι) (hs' opened' : Multiset (BitVec 32 × ι))
    (e : Effect n ι) : Prop where
  node : NodeOk home me size e.impl (hs' + QueueMap.tagged e.impl.mode e.woken) opened'
  balance : ∀ t, balance me e.impl t + carriedBy e.sends t = balance me s t + taken t
  data : e.impl.owner = me → e.impl.localData = left
  packets : ∀ packet ∈ e.sends, PacketOk left packet.2

/-! ### The calls -/

section Calls

variable {home me : Fin n} {size : Nat} {left : List UInt8} {s : Impl n ι}
  {hs opened : Multiset (BitVec 32 × ι)}

/-- Nothing is taken from the network. -/
def nothing : Option (Fin n) → Int := fun _ => 0

/-- `handle_lock_request`, when the node is not already in the mask. -/
theorem handleLockRequest_ok {args : LockRequestArgs n} {q : Fin n}
    (h : NodeOk home me size s hs opened) (hdata : s.owner = me → s.localData = left)
    (hnode : args.node = me → s.requested = true) (hmask : args.node ∉ s.remoteWaiterMask) :
    ∃ e, handleLockRequest home me args s = .ok e ∧
      Conserving home me size left (carried (q, .request args)) s hs opened e := by
  unfold handleLockRequest
  by_cases howner : s.owner = me
  · rw [if_neg (not_not_intro howner), if_neg h.not_deleted]
    by_cases hidle : s.count = zeroCount ∧ s.remoteSharerMask = ∅
    · -- an idle owner gives the reservation to the node that asked for it
      have hhs : hs = 0 := h.count_eq_zero.mp hidle.1
      obtain ⟨hreq, hempty⟩ := h.here howner
      obtain ⟨hmask0, hwait⟩ := hempty hhs
      have hother : args.node ≠ me := by
        intro hme
        rw [hnode hme] at hreq
        cases hreq
      rw [if_pos hidle, if_neg (not_not_intro hmask0)]
      refine ⟨_, rfl, ?_, ?_, fun hme => absurd hme hother, ?_⟩
      · rw [QueueMap.tagged_nil, add_zero]
        exact { h with
          away := fun _ => ⟨hhs, hmask0, by simp [hreq, hwait]⟩
          here := fun hme => absurd hme hother }
      · intro t
        cases t with
        | none => simp [balance, carried, howner, hother]
        | some p =>
          rw [carriedBy_cons, carried_packGrant, carried]
          simp [balance, hmask0]
      · intro packet hpacket
        obtain rfl := mem_singleton.mp hpacket
        rw [← hdata howner]
        exact packGrant_ok _ _
    · have hhs : hs ≠ 0 := fun hz => hidle ⟨h.count_eq_zero.mpr hz, h.sharers⟩
      rw [if_neg hidle]
      refine ⟨_, rfl, ?_, ?_, hdata, by simp⟩
      · rw [QueueMap.tagged_nil, add_zero]
        exact { h with
          away := fun hne => absurd howner hne
          here := fun _ => ⟨(h.here howner).1, fun hz => absurd hz hhs⟩ }
      · intro t
        cases t with
        | none => simp [balance, carried]
        | some p =>
          rw [carriedBy_nil, carried]
          simp only [balance, one_mem_insert hmask]
          ring
  · rw [if_pos howner]
    refine ⟨_, rfl, ?_, ?_, hdata, by simp [PacketOk]⟩
    · rw [QueueMap.tagged_nil, add_zero]
      exact h
    · intro t
      cases t with
      | none => simp [carried]
      | some p => simp [carried]

/-- The owner's state after it has chosen from those who wait: they hold the reservation. -/
theorem Chosen.nodeOk {mode : BitVec 32} {toWake : List ι} {waiters : QueueMap (BitVec 32) ι}
    (hc : Chosen s mode toWake waiters) (hopened : opened = s.localWaiters.items)
    (hlimit : opened.card ≤ maxHolders) (hsharers : s.remoteSharerMask = ∅)
    (huse : me = home → s.inUse = true) (hdatasize : s.localDataSize = size)
    (hlength : s.localData.length = size) (howner : s.owner = me) (hreq : s.requested = false) :
    NodeOk home me size (woke s mode toWake waiters) (QueueMap.tagged mode toWake) opened where
  count := by rw [QueueMap.card_tagged, woke]
  opened_eq := hopened.trans hc.items
  limit := hlimit
  full := hc.full
  sharers := hsharers
  inUse := huse
  localDataSize := hdatasize
  localData := hlength
  modes := fun _ hh => QueueMap.mem_tagged hh
  excl := fun hmode => by rw [QueueMap.card_tagged, hc.excl hmode]
  away := fun hne => absurd howner hne
  here := fun _ => ⟨hreq, fun hz => absurd (QueueMap.tagged_eq_zero hz) hc.ne_nil⟩

/-- `handle_lock_grant`, on a node that asked and is not the owner. -/
theorem handleLockGrant_ok {args : LockGrant n} (h : NodeOk home me size s hs opened)
    (howner : s.owner ≠ me) (hreq : s.requested = true) (hsize : left.length = size)
    (hargs : PacketOk left (.grant args)) :
    ∃ e, handleLockGrant me args s = .ok e ∧
      Conserving home me size left (carried (me, .grant args)) s hs opened e := by
  obtain ⟨hmode, hcount, hdata⟩ := hargs
  obtain ⟨hhs, hmask, hwait⟩ := h.away howner
  have hlen : args.datalen = (args.waiterCount + 1) * sizeofInt + s.localDataSize := by
    rw [LockGrant.datalen, hcount, hdata, hsize, h.localDataSize]
  unfold handleLockGrant
  rw [if_neg howner, hreq, if_neg (not_not_intro hlen)]
  extract_lets granted
  have hopened : opened = granted.localWaiters.items := by rw [h.opened_eq, hhs, zero_add]
  have hbytes : granted.localData = left := by
    change (if 0 < s.localDataSize then args.data else s.localData) = left
    split
    · exact hdata
    · rename_i hzero
      have hnil : ∀ {l : List UInt8}, l.length = size → l = [] := fun hl => by
        rw [h.localDataSize] at hzero
        exact length_eq_zero_iff.mp (by omega)
      rw [hnil h.localData, hnil hsize]
  have hmine : granted.owner = me := if_pos hmode
  obtain ⟨mode, toWake, waiters, hc, hselect⟩ := selectLocalWaiters_some (s := granted) h.full
    h.waiters_le (hwait.mp hreq)
  rw [hselect]
  refine ⟨_, rfl, ?_, ?_, fun _ => hbytes, by simp⟩
  · rw [hhs]
    exact hc.nodeOk hopened h.limit h.sharers h.inUse h.localDataSize (hbytes ▸ hsize) hmine rfl
  · intro t
    cases t with
    | none => simp [balance, carried, howner, woke, hmine]
    | some p =>
      rw [carried]
      simp [balance, woke, granted, hmask, hreq, hcount]

/-- `acquire`, while the counter has room for one more. -/
theorem acquire_ok (newMode : BitVec 32) (exclusive : Bool) (afterLock : ι)
    (h : NodeOk home me size s hs opened) (hdata : s.owner = me → s.localData = left)
    (hroom : opened.card < maxHolders) :
    ∃ e, acquire home me newMode exclusive afterLock s = .ok e ∧
    Conserving home me size left nothing s hs
        ((if exclusive then modeExcl else newMode, afterLock) ::ₘ opened) e := by
  unfold acquire
  extract_lets mode waiting
  have hlimit : ((mode, afterLock) ::ₘ opened).card ≤ maxHolders := by
    rw [Multiset.card_cons]
    exact hroom
  have hwaiting : (mode, afterLock) ::ₘ opened = hs + waiting.items := by
    rw [QueueMap.items_push, h.opened_eq, add_cons]
  have hne : waiting ≠ [] := QueueMap.push_ne_nil
  rw [if_neg h.not_deleted]
  by_cases howner : s.owner = me
  · rw [if_pos howner]
    by_cases hgrant : s.count = zeroCount ∨ (s.mode = mode ∧ s.mode ≠ modeExcl)
    · rw [if_pos hgrant]
      have hmodes : ∀ e ∈ hs, e.1 = mode := by
        intro e he
        obtain hzero | ⟨hmode, -⟩ := hgrant
        · rw [h.count_eq_zero.mp hzero] at he
          exact absurd he (Multiset.notMem_zero e)
        · rw [h.modes e he, hmode]
      have hexcl : mode = modeExcl → hs = 0 := by
        intro hexcl
        obtain hzero | ⟨hmode, hshared⟩ := hgrant
        · exact h.count_eq_zero.mp hzero
        · exact absurd (hmode.trans hexcl) hshared
      refine ⟨_, rfl, ?_, fun t => ?_, hdata, by simp⟩
      · exact { h with
          count := by
            rw [h.count, countOf_succ, card_add]
            rfl
          opened_eq := by
            rw [h.opened_eq, QueueMap.tagged_cons, QueueMap.tagged_nil, add_cons, add_zero,
              Multiset.cons_add]
          limit := hlimit
          modes := by
            intro e he
            obtain he | he := mem_add.mp he
            · exact hmodes e he
            · exact QueueMap.mem_tagged he
          excl := by
            intro hm
            rw [hexcl hm, zero_add]
            rfl
          away := fun hn => absurd howner hn
          here := fun _ => ⟨(h.here howner).1, fun hz => by
            have hcard := congrArg card hz
            simp at hcard⟩ }
      · cases t <;> simp [balance, nothing]
    · rw [if_neg hgrant]
      have hhs : hs ≠ 0 := fun hz => hgrant (.inl (h.count_eq_zero.mpr hz))
      refine ⟨_, rfl, ?_, fun t => ?_, hdata, by simp⟩
      · rw [QueueMap.tagged_nil, add_zero]
        exact { h with
          opened_eq := hwaiting
          limit := hlimit
          full := h.full.push
          away := fun hn => absurd howner hn
          here := fun _ => ⟨(h.here howner).1, fun hz => absurd hz hhs⟩ }
      · cases t <;> simp [balance, nothing]
  · obtain ⟨hhs, hmask, hwait⟩ := h.away howner
    have hcount : ¬ zeroCount < s.count := by
      rw [h.zero_lt_count, hhs]
      exact lt_irrefl 0
    rw [if_neg howner, if_neg (fun hsharing => hcount hsharing.1)]
    by_cases hreq : s.requested = true
    · rw [if_pos hreq]
      refine ⟨_, rfl, ?_, fun t => ?_, hdata, by simp⟩
      · rw [QueueMap.tagged_nil, add_zero]
        exact { h with
          opened_eq := hwaiting
          limit := hlimit
          full := h.full.push
          away := fun _ => ⟨hhs, hmask, iff_of_true hreq hne⟩
          here := fun hme => absurd hme howner }
      · cases t <;> simp [balance, nothing]
    · rw [if_neg hreq]
      refine ⟨_, rfl, ?_, fun t => ?_, hdata, by simp [PacketOk]⟩
      · rw [QueueMap.tagged_nil, add_zero]
        exact { h with
          opened_eq := hwaiting
          limit := hlimit
          full := h.full.push
          away := fun _ => ⟨hhs, hmask, iff_of_true rfl hne⟩
          here := fun hme => absurd hme howner }
      · cases t with
        | none => simp [balance, carried, nothing]
        | some p => simp [balance, carried, nothing, hreq]

variable [DecidableEq ι]

/-- `release`, by a holder. -/
theorem release_ok {holder : BitVec 32 × ι}
    (h : NodeOk home me size s hs opened) (hdata : s.owner = me → s.localData = left)
    (hholder : holder ∈ hs) (hself : me ∉ s.remoteWaiterMask) :
    ∃ e, release me s = .ok e ∧
      Conserving home me size left nothing s (hs.erase holder) (opened.erase holder) e := by
  have hcard : hs.card = (hs.erase holder).card + 1 := (Multiset.card_erase_add_one hholder).symm
  have hne : hs ≠ 0 := fun hz => by simp [hz] at hholder
  have howner : s.owner = me := by
    by_contra hn
    exact hne (h.away hn).1
  have hopened : opened.erase holder = hs.erase holder + s.localWaiters.items := by
    rw [h.opened_eq, Multiset.erase_add_left_pos _ hholder]
  have hlimit : (opened.erase holder).card ≤ maxHolders :=
    (Multiset.card_le_card (Multiset.erase_le holder opened)).trans h.limit
  have hcount : s.count - 1 = countOf (hs.erase holder).card := by
    rw [h.count, hcard, countOf_pred]
  have hle : (hs.erase holder).card ≤ maxHolders := by
    have := h.holders_le
    omega
  unfold release
  rw [if_neg (not_not_intro (h.zero_lt_count.mpr (by omega)))]
  extract_lets s1
  have hcount1 : zeroCount < s1.count ↔ 0 < (hs.erase holder).card := by
    rw [← zero_lt_countOf hle, ← hcount]
  by_cases hmore : zeroCount < s1.count
  · -- there are other holders
    rw [if_pos hmore]
    refine ⟨_, rfl, ?_, fun t => ?_, hdata, by simp⟩
    · rw [QueueMap.tagged_nil, add_zero]
      exact { h with
        count := hcount
        opened_eq := hopened
        limit := hlimit
        modes := fun e he => h.modes e (Multiset.mem_of_mem_erase he)
        excl := fun hm => by
          have := h.excl hm
          omega
        away := fun hn => absurd howner hn
        here := fun _ => ⟨(h.here howner).1, fun hz => by
          have hpos := hcount1.mp hmore
          rw [hz] at hpos
          exact absurd hpos (lt_irrefl 0)⟩ }
    · cases t <;> simp [balance, nothing, s1]
  · have hlast : hs.erase holder = 0 := by
      rw [hcount1] at hmore
      exact card_eq_zero.mp (by omega)
    rw [if_neg hmore, if_neg (not_not_intro howner)]
    rw [hlast, zero_add] at hopened
    by_cases hwait : s.localWaiters = []
    · rw [selectLocalWaiters_nil (s := s1) hwait]
      simp only
      have hidle :
        ∀ owner : Fin n, NodeOk home me size { s1 with owner := owner, remoteWaiterMask := ∅ } 0
            (opened.erase holder) := fun owner =>
        { h with
          count := by
            rw [hlast] at hcount
            exact hcount
          opened_eq := by rw [hopened, zero_add]
          limit := hlimit
          modes := fun e he => absurd he (Multiset.notMem_zero e)
          excl := fun _ => Nat.zero_le _
          away := fun _ => ⟨rfl, rfl, by simp [s1, (h.here howner).1, hwait]⟩
          here := fun _ => ⟨(h.here howner).1, fun _ => ⟨rfl, hwait⟩⟩ }
      cases hfind : (finRange n).find? (fun p => decide (p ∈ s1.remoteWaiterMask)) with
      | none =>
        have hmask : s1.remoteWaiterMask = ∅ := by
          have hall := find?_eq_none.mp hfind
          refine Finset.eq_empty_of_forall_notMem fun p hp => ?_
          exact absurd (decide_eq_true hp) (hall p (mem_finRange p))
        refine ⟨_, rfl, ?_, fun t => ?_, hdata, by simp⟩
        · have hnode := hidle s1.owner
          rw [hlast, QueueMap.tagged_nil]
          rw [← hmask] at hnode
          exact hnode
        · cases t <;> simp [balance, nothing, s1]
      | some newOwner =>
        have hmem : newOwner ∈ s.remoteWaiterMask := by
          simpa using find?_some hfind
        have hother : newOwner ≠ me := fun hn => hself (hn ▸ hmem)
        refine ⟨_, rfl, ?_, fun t => ?_, fun hn => absurd hn hother, ?_⟩
        · rw [hlast, QueueMap.tagged_nil]
          exact hidle newOwner
        · cases t with
          | none => simp [balance, carried, nothing, howner, hother]
          | some p =>
            rw [carriedBy_cons, carried_packGrant, ← one_mem_insert (Finset.notMem_erase _ _),
              Finset.insert_erase hmem]
            simp [balance, nothing, s1]
            ring
        · intro packet hpacket
          obtain rfl := mem_singleton.mp hpacket
          rw [← hdata howner]
          exact packGrant_ok _ _
    · obtain ⟨mode, toWake, waiters, hc, hselect⟩ := selectLocalWaiters_some (s := s1) h.full
        h.waiters_le hwait
      rw [hselect]
      simp only [if_neg hc.ne_nil]
      refine ⟨_, rfl, ?_, fun t => ?_, hdata, by simp⟩
      · rw [hlast]
        exact hc.nodeOk hopened hlimit h.sharers h.inUse h.localDataSize h.localData howner
          (h.here howner).1
      · exact congrArg (· + 0) (balance_congr rfl rfl rfl t)

end Calls

end CharmRuntime.Legion.Reservation
