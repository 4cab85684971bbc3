import CharmRuntime.Lib.Transition
import CharmRuntime.Queueing.PrioqSound
import CharmRuntime.Queueing.Queue

/-!
# Queueing.QueueSound

**The scheduler queue refines a multiset of messages** with sides and
priorities: an enqueue adds one, a dequeue takes one that no other one precedes.

The abstract machine `prioMultiset` says what the queue is for; the refinement
(`queue_refines`) is a simulation, so every sequence of calls with its results
is one the abstract machine has too. What the encodings mean is in
`precedes_int_iff` and `precedes_long_iff`: signed order.
-/

namespace CharmRuntime.Queueing

open Lib Multiset BitVec

/-! ### The encodings -/

theorem prioGTWords_singleton (a b : Word) : prioGTWords [a] [b] = decide (b < a) := by
  rw [prioGTWords]
  by_cases h1 : a < b
  · have h2 : ¬ b < a := BitVec.not_lt.mpr (BitVec.le_of_lt h1)
    simp [h1, h2]
  · by_cases h2 : b < a <;> simp [h1, prioGTWords]

theorem bias_lt_iff {w : Nat} (hw : 0 < w) (x y : BitVec w) :
    x + BitVec.ofNat w (2 ^ (w - 1)) < y + BitVec.ofNat w (2 ^ (w - 1)) ↔ x.toInt < y.toInt := by
  have hpow : 2 ^ w = 2 * 2 ^ (w - 1) := by
    rw [← pow_succ']
    congr 1
    omega
  have hx := x.isLt
  have hy := y.isLt
  rw [lt_def, toNat_add, toNat_add, toNat_ofNat, toInt_eq_toNat_cond,
    toInt_eq_toNat_cond]
  generalize 2 ^ (w - 1) = c at hpow
  rw [hpow] at hx hy ⊢
  rw [Nat.mod_eq_of_lt (show c < 2 * c by omega)]
  have hmod : ∀ n : Nat, n < 2 * c → (n + c) % (2 * c) = if n < c then n + c else n - c := by
    intro n _
    split
    · exact Nat.mod_eq_of_lt (by omega)
    · rw [Nat.mod_eq_sub_mod (by omega), Nat.mod_eq_of_lt (by omega)]
      omega
  rw [hmod _ hx, hmod _ hy]
  split <;> split <;> split <;> split <;> omega

theorem prioGT_iprio (a b : Word) :
    prioGT (Prioq.askedPrio 32 [a]) (Prioq.askedPrio 32 [b]) = true ↔ b < a := by
  have hgt : prioGT (Prioq.askedPrio 32 [a]) (Prioq.askedPrio 32 [b]) = prioGTWords [a] [b] := rfl
  rw [hgt, prioGTWords_singleton, decide_eq_true_eq]

/-- The two words of a 64-bit number, high word first. -/
def highLow (v : BitVec 64) : List Word := [v.extractLsb' 32 32, v.extractLsb' 0 32]

theorem longWords_lprio (littleEndian : Bool) (prioptr : List Word) :
    longWords littleEndian (lprio littleEndian prioptr) =
    highLow (lprio0 littleEndian prioptr) := by
  cases littleEndian with
  | false => rfl
  | true =>
    unfold lprio
    generalize lprio0 true prioptr = v
    have hlow : ∀ a b : Word,
        (a.setWidth 64 <<< 32 ||| b.setWidth 64).extractLsb' 0 32 = b := by
      intro a b
      ext i hi
      have hi' : i < 64 := by omega
      simp [getElem_extractLsb', hi, hi']
    have hhigh : ∀ a b : Word,
        (a.setWidth 64 <<< 32 ||| b.setWidth 64 : BitVec 64).extractLsb' 32 32 = a := by
      intro a b
      ext i hi
      have hi' : 32 + i < 64 := by omega
      simp [hi, hi']
    simp only [if_true, longWords, hlow, hhigh]
    rfl

theorem prioGTWords_highLow (v w : BitVec 64) :
    prioGTWords (highLow v) (highLow w) = true ↔ w < v := by
  have hsplit : ∀ u : BitVec 64, u.toNat =
      (u.extractLsb' 32 32).toNat * 2 ^ 32 + (u.extractLsb' 0 32).toNat := by
    intro u
    simp only [extractLsb'_toNat]
    omega
  have hv := hsplit v
  have hw := hsplit w
  unfold highLow
  rw [prioGTWords, prioGTWords_singleton]
  split
  · next hlt =>
      rw [lt_def] at hlt
      simp only [Bool.false_eq_true, false_iff, lt_def]
      omega
  · next hge =>
      rw [lt_def] at hge
      split
      · next hgt =>
          rw [lt_def] at hgt
          simp only [true_iff, lt_def]
          omega
      · next hle =>
          rw [lt_def] at hle
          simp only [decide_eq_true_eq, lt_def]
          omega

theorem prioGT_lprio (littleEndian : Bool) (x y : List Word) :
    prioGT (Prioq.askedPrio 64 (longWords littleEndian (lprio littleEndian x)))
      (Prioq.askedPrio 64 (longWords littleEndian (lprio littleEndian y))) = true ↔
      lprio0 littleEndian y < lprio0 littleEndian x := by
  rw [longWords_lprio, longWords_lprio]
  have hgt : prioGT (Prioq.askedPrio 64 (highLow (lprio0 littleEndian x)))
      (Prioq.askedPrio 64 (highLow (lprio0 littleEndian y))) =
      prioGTWords (highLow (lprio0 littleEndian x)) (highLow (lprio0 littleEndian y)) := rfl
  rw [hgt, prioGTWords_highLow]

/-! ### The abstract machine -/

/-- The part of the queue a message is in. -/
inductive Side
  | neg
  | zero
  | pos
  deriving DecidableEq, Repr

/-- The order in which `CqsDequeue` looks at the parts. -/
def Side.rank : Side → Nat
  | .neg => 0
  | .zero => 1
  | .pos => 2

/-- A queued message. -/
structure Entry (α : Type) where
  side : Side
  prio : Prio
  msg : α

/-- `e` is to be delivered strictly before `e'`. -/
def Entry.Precedes {α : Type} (e e' : Entry α) : Prop :=
  e.side.rank < e'.side.rank ∨ e.side = e'.side ∧ prioGT e'.prio e.prio = true

/-- The priority queue for a leading bit. -/
def sideOf (pos : Bool) : Side := if pos then .pos else .neg

/-- What a call of `CqsEnqueueGeneral` adds. -/
def entryOf {α : Type} (littleEndian : Bool) (data : α) (strategy : Strategy) (priobits : Nat)
    (prioptr : List Word) : Entry α :=
  match strategy with
  | .fifo | .lifo => { side := .zero, prio := Prioq.askedPrio 0 [], msg := data }
  | .ififo | .ilifo =>
    { side := sideOf (iprio prioptr).msb, prio := Prioq.askedPrio 32 [iprio prioptr], msg := data }
  | .bfifo | .blifo =>
    { side := sideOf (priobits != 0 && (prioptr.headD 0#32).msb)
      prio := Prioq.askedPrio priobits prioptr, msg := data }
  | .lfifo | .llifo =>
    { side := sideOf (lprio0 littleEndian prioptr).msb
      prio := Prioq.askedPrio priobits (longWords littleEndian (lprio littleEndian prioptr))
      msg := data }

theorem sideOf_msb_lt_iff {w : Nat} (a b : BitVec w) :
    ((sideOf a.msb).rank < (sideOf b.msb).rank ∨ sideOf a.msb = sideOf b.msb ∧ a < b) ↔ a < b := by
  have hmsb : ∀ v : BitVec w, v.msb = true ↔ 2 ^ (w - 1) ≤ v.toNat := by
    intro v
    rw [msb_eq_decide, decide_eq_true_eq]
  have ha := hmsb a
  have hb := hmsb b
  rw [lt_def]
  cases hma : a.msb with
  | false =>
    cases hmb : b.msb with
    | false => simp
    | true =>
      have hlt : a.toNat < b.toNat := by
        rw [hma] at ha
        have hnot := mt ha.mpr (by decide)
        have hle := hb.mp hmb
        omega
      simp [sideOf, Side.rank, hlt]
  | true =>
    cases hmb : b.msb with
    | false =>
      have hge : ¬ a.toNat < b.toNat := by
        rw [hmb] at hb
        have hnot := mt hb.mpr (by decide)
        have hle := ha.mp hma
        omega
      simp [sideOf, Side.rank]
      omega
    | true => simp

variable {α : Type} {littleEndian : Bool} {strategy : Strategy} {priobits : Nat}
  {prioptr : List Word} {M s : Multiset (Entry α)} {pq : Prioq α}
  {enq : Deq α → Option α → Option (Deq α)} {d d' : Deq α} {q q' : Queue α} {pq' : Prioq α}

/-- **Integer priorities** are delivered in the order of signed 32-bit numbers. -/
theorem precedes_int_iff {data data' : α} {strategy' : Strategy}
    (hs : strategy = .ififo ∨ strategy = .ilifo) (hs' : strategy' = .ififo ∨ strategy' = .ilifo)
    (priobits priobits' : Nat) (x y : List Word) :
    (entryOf littleEndian data strategy priobits x).Precedes
        (entryOf littleEndian data' strategy' priobits' y) ↔
      (x.headD 0#32).toInt < (y.headD 0#32).toInt := by
  have hentry : ∀ {s : Strategy} {b : Nat} {d : α} {p : List Word}, s = .ififo ∨ s = .ilifo →
      entryOf littleEndian d s b p =
        { side := sideOf (iprio p).msb, prio := Prioq.askedPrio 32 [iprio p], msg := d } := by
    rintro s b d p (rfl | rfl) <;> rfl
  rw [hentry hs, hentry hs', Entry.Precedes, prioGT_iprio, sideOf_msb_lt_iff]
  exact bias_lt_iff (by decide) _ _

/-- **Long priorities** are delivered in the order of signed 64-bit numbers. -/
theorem precedes_long_iff {data data' : α}
    {strategy' : Strategy} (hs : strategy = .lfifo ∨ strategy = .llifo)
    (hs' : strategy' = .lfifo ∨ strategy' = .llifo) (x y : List Word) :
    (entryOf littleEndian data strategy 64 x).Precedes (entryOf littleEndian data' strategy' 64 y) ↔
      (longAt littleEndian x).toInt < (longAt littleEndian y).toInt := by
  have hentry : ∀ {s : Strategy} {d : α} {p : List Word}, s = .lfifo ∨ s = .llifo →
      entryOf littleEndian d s 64 p =
        { side := sideOf (lprio0 littleEndian p).msb
          prio := Prioq.askedPrio 64 (longWords littleEndian (lprio littleEndian p)), msg :=
            d } := by
    rintro s d p (rfl | rfl) <;> rfl
  rw [hentry hs, hentry hs', Entry.Precedes, prioGT_lprio, sideOf_msb_lt_iff]
  exact bias_lt_iff (by decide) _ _

/-- The arguments the strategies expect: all words of the priority are there, at
most 65535 bits of them, and a long priority has 64 (`LLIFO` only does not check
it). -/
def CallOk (strategy : Strategy) (priobits : Nat) (prioptr : List Word) : Prop :=
  match strategy with
  | .fifo | .lifo => True
  | .ififo | .ilifo => 1 ≤ prioptr.length
  | .bfifo | .blifo => priobits < 2 ^ 16 ∧ (priobits + 31) / 32 ≤ prioptr.length
  | .lfifo => priobits = 64 ∧ 2 ≤ prioptr.length
  | .llifo => priobits ≤ 64 ∧ 2 ≤ prioptr.length

instance (strategy : Strategy) (priobits : Nat) (prioptr : List Word) :
    Decidable (CallOk strategy priobits prioptr) :=
  match strategy with
  | .fifo | .lifo => inferInstanceAs (Decidable True)
  | .ififo | .ilifo => inferInstanceAs (Decidable (1 ≤ prioptr.length))
  | .bfifo | .blifo =>
    inferInstanceAs (Decidable (priobits < 2 ^ 16 ∧ (priobits + 31) / 32 ≤ prioptr.length))
  | .lfifo => inferInstanceAs (Decidable (priobits = 64 ∧ 2 ≤ prioptr.length))
  | .llifo => inferInstanceAs (Decidable (priobits ≤ 64 ∧ 2 ≤ prioptr.length))

/-- The bits and words a strategy hands to the priority queue. -/
def callPrio (littleEndian : Bool) (strategy : Strategy) (priobits : Nat) (prioptr : List Word) :
    Nat × List Word :=
  match strategy with
  | .fifo | .lifo => (0, [])
  | .ififo | .ilifo => (32, [iprio prioptr])
  | .bfifo | .blifo => (priobits, prioptr)
  | .lfifo | .llifo => (priobits, longWords littleEndian (lprio littleEndian prioptr))

theorem CallOk.argsOk (h : CallOk strategy priobits prioptr) (littleEndian : Bool) :
    Prioq.ArgsOk (callPrio littleEndian strategy priobits prioptr).1
      (callPrio littleEndian strategy priobits prioptr).2 := by
  have hzero : Prioq.ArgsOk 0 [] := ⟨by decide, by decide⟩
  have hint : Prioq.ArgsOk 32 [iprio prioptr] := ⟨by decide, le_refl 1⟩
  have hlong : priobits ≤ 64 →
      Prioq.ArgsOk priobits (longWords littleEndian (lprio littleEndian prioptr)) := by
    intro _
    refine ⟨by omega, ?_⟩
    rw [longWords_lprio]
    show (priobits + 31) / 32 ≤ 2
    omega
  cases strategy with
  | fifo => exact hzero
  | lifo => exact hzero
  | ififo => exact hint
  | ilifo => exact hint
  | bfifo => exact ⟨h.1, h.2⟩
  | blifo => exact ⟨h.1, h.2⟩
  | lfifo => exact hlong h.1.le
  | llifo => exact hlong h.1

/-- The calls, a dequeue with its result. -/
inductive Event (α : Type)
  | general (data : α) (strategy : Strategy) (priobits : Nat) (prioptr : List Word)
  | fifo (data : α)
  | lifo (data : α)
  | dequeue (result : Option α)

/-- The queue as a system. -/
def queueSystem (α : Type) (littleEndian : Bool) : Transition (Queue α) (Event α) where
  init q := q = Queue.create
  step q e q' :=
    match e with
    | .general data strategy priobits prioptr =>
      Queue.enqueueGeneral littleEndian q data strategy priobits prioptr = .ok q'
    | .fifo data => q.enqueueFifo data = .ok q'
    | .lifo data => q.enqueueLifo data = .ok q'
    | .dequeue result => q.dequeue = (result, q')

/-- The calls with proper arguments. -/
def Event.Ok {α : Type} : Event α → Prop
  | .general _ strategy priobits prioptr => CallOk strategy priobits prioptr
  | .fifo _ => True
  | .lifo _ => True
  | .dequeue _ => True

/-- The queue with proper arguments only. -/
def properQueue (α : Type) (littleEndian : Bool) : Transition (Queue α) (Event α) :=
  (queueSystem α littleEndian).restrict (fun _ e => e.Ok)

/-- **What the queue is for**: a multiset of messages. `CqsDequeue` takes one that
no other one precedes, and only an empty queue has none. -/
def prioMultiset (α : Type) (littleEndian : Bool) : Transition (Multiset (Entry α)) (Event α) where
  init M := M = 0
  step M e M' :=
    match e with
    | .general data strategy priobits prioptr =>
      M' = entryOf littleEndian data strategy priobits prioptr ::ₘ M
    | .fifo data => M' = entryOf littleEndian data .fifo 0 [] ::ₘ M
    | .lifo data => M' = entryOf littleEndian data .lifo 0 [] ::ₘ M
    | .dequeue none => M = 0 ∧ M' = 0
    | .dequeue (some m) => ∃ e : Entry α, m = e.msg ∧ M = e ::ₘ M' ∧ ∀ e' ∈ M, ¬ e'.Precedes e

/-- The message an event adds. -/
def Event.added {α : Type} : Event α → Multiset α
  | .general data _ _ _ => {data}
  | .fifo data => {data}
  | .lifo data => {data}
  | .dequeue _ => 0

/-- The message an event takes. -/
def Event.taken {α : Type} : Event α → Multiset α
  | .general _ _ _ _ => 0
  | .fifo _ => 0
  | .lifo _ => 0
  | .dequeue none => 0
  | .dequeue (some m) => {m}

/-- All messages enqueued in a run. -/
def enqueuedOf {α : Type} (l : List (Event α)) : Multiset α := (l.map Event.added).sum

/-- All messages dequeued in a run. -/
def dequeuedOf {α : Type} (l : List (Event α)) : Multiset α := (l.map Event.taken).sum

variable {l : List (Event α)}

theorem prioMultiset_step_conserves {M' : Multiset (Entry α)} {e : Event α}
    (h : (prioMultiset α littleEndian).step M e M') :
    M'.map Entry.msg + e.taken = M.map Entry.msg + e.added := by
  have hcons : ∀ (e : Entry α) (M : Multiset (Entry α)),
      (e ::ₘ M).map Entry.msg = M.map Entry.msg + {e.msg} := by
    intro e M
    rw [map_cons, ← singleton_add, add_comm]
  cases e with
  | general data strategy priobits prioptr =>
    obtain rfl : M' = _ := h
    have hmsg : (entryOf littleEndian data strategy priobits prioptr).msg = data := by
      cases strategy <;> rfl
    rw [hcons, hmsg]
    exact add_zero _
  | fifo data =>
    obtain rfl : M' = _ := h
    rw [hcons]
    exact add_zero _
  | lifo data =>
    obtain rfl : M' = _ := h
    rw [hcons]
    exact add_zero _
  | dequeue result =>
    cases result with
    | none =>
      obtain ⟨rfl, rfl⟩ : M = 0 ∧ M' = 0 := h
      rfl
    | some m =>
      obtain ⟨e, rfl, rfl, -⟩ := h
      rw [hcons]
      exact (add_zero _).symm

/-- **Conservation** over a run. -/
theorem prioMultiset_conserves (h : (prioMultiset α littleEndian).Trace l M) :
    enqueuedOf l = dequeuedOf l + M.map Entry.msg := by
  induction h with
  | init h0 =>
    obtain rfl : _ = 0 := h0
    rfl
  | @step l M M' e _ hs ih =>
    have hstep := prioMultiset_step_conserves hs
    have hadd : enqueuedOf (l ++ [e]) = enqueuedOf l + e.added := by
      simp [enqueuedOf]
    have htake : dequeuedOf (l ++ [e]) = dequeuedOf l + e.taken := by
      simp [dequeuedOf]
    rw [hadd, htake, ih, add_assoc, ← hstep, add_assoc, add_comm e.taken]

/-! ### The simulation relation -/

theorem exists_cons_of_map_eq {β γ : Type} {f : β → γ} {s : Multiset β} {b : γ} {t : Multiset γ}
    (h : s.map f = b ::ₘ t) : ∃ a s', s = a ::ₘ s' ∧ f a = b ∧ s'.map f = t := by
  classical
  obtain ⟨a, ha, hb, ht⟩ := (map_eq_cons f s t b).mpr h
  exact ⟨a, s.erase a, (cons_erase ha).symm, hb, ht⟩

/-- What a priority queue records of an entry. -/
def Entry.key (e : Entry α) : Prio × Option α := (e.prio, some e.msg)

/-- The priority queue holds the entries `s`. -/
structure HoldsPrio (pq : Prioq α) (s : Multiset (Entry α)) : Prop where
  inv : ∃ chains, pq.Inv chains
  full : pq.Full
  entries : pq.entries = s.map Entry.key

/-- The ring buffer holds the entries `s`. -/
structure HoldsZero (d : Deq α) (s : Multiset (Entry α)) : Prop where
  wf : d.Wf
  content : (d.content : Multiset (Option α)) = s.map (fun e => some e.msg)

theorem holdsPrio_init : HoldsPrio (Prioq.init : Prioq α) 0 := by
  refine ⟨⟨_, Prioq.init_inv⟩, ?_, ?_⟩
  · intro e he
    exact absurd he (notMem_zero e)
  · rfl

theorem HoldsPrio.heapNext_eq_one_iff (h : HoldsPrio pq s) :
    pq.heapNext = 1 ↔ s = 0 := by
  obtain ⟨chains, hinv⟩ := h.inv
  rw [← hinv.elts_eq_zero_iff]
  constructor
  · intro hz
    have hentries := h.entries
    rw [Prioq.entries, hz, zero_bind] at hentries
    exact map_eq_zero.mp hentries.symm
  · rintro rfl
    by_contra hne
    obtain ⟨e, he⟩ := exists_mem_of_ne_zero hne
    obtain ⟨m, hm⟩ := List.exists_mem_of_ne_nil _ (h.full e he)
    have hmem := Prioq.mem_entries.mpr ⟨e, he, rfl, hm⟩
    rw [h.entries] at hmem
    exact notMem_zero _ hmem

theorem HoldsPrio.enqueue (h : HoldsPrio pq s) (henq : Prioq.EnqOk enq)
    (hargs : Prioq.ArgsOk priobits prioptr) {e : Entry α}
    (he : e.prio = Prioq.askedPrio priobits prioptr)
    (hres : pq.enqueue enq priobits prioptr (some e.msg) = some pq') : HoldsPrio pq' (e ::ₘ s) := by
  obtain ⟨chains, hinv⟩ := h.inv
  obtain ⟨hinv', hfull, hentries⟩ := Prioq.enqueue_entries hinv h.full hargs henq hres
  refine ⟨hinv', hfull, ?_⟩
  rw [hentries, h.entries, map_cons, Entry.key, he]

theorem HoldsPrio.enqueue_room (h : HoldsPrio pq s) (henq : Prioq.EnqOk enq)
    (hargs : Prioq.ArgsOk priobits prioptr) (hroom : s.card + 1 < 2 ^ 30) (msg : Option α) :
    ∃ pq', pq.enqueue enq priobits prioptr msg = some pq' := by
  obtain ⟨chains, hinv⟩ := h.inv
  refine Prioq.enqueue_room hinv hargs henq (fun pe hpe => ?_) msg
  have hle := Prioq.length_le_card_entries hpe
  rw [h.entries, card_map] at hle
  omega

theorem HoldsPrio.dequeue (h : HoldsPrio pq s) (hne : pq.heapNext ≠ 1) :
    ∃ e s', s = e ::ₘ s' ∧ pq.dequeue.1 = some e.msg ∧ HoldsPrio pq.dequeue.2 s' ∧
      ∀ e' ∈ s, prioGT e.prio e'.prio = false := by
  obtain ⟨chains, hinv⟩ := h.inv
  obtain ⟨hinv', hfull, p, hsplit, hleast⟩ := Prioq.dequeue_entries hinv h.full hne
  have hmap := h.entries.symm.trans hsplit
  obtain ⟨e, s', hs, hkey, hrest⟩ := exists_cons_of_map_eq hmap
  obtain ⟨hp, hm⟩ := Prod.mk.inj hkey
  refine ⟨e, s', hs, hm.symm, ⟨hinv', hfull, hrest.symm⟩, ?_⟩
  intro e' he'
  have hmem : e'.key ∈ pq.entries := by
    rw [h.entries]
    exact mem_map_of_mem Entry.key he'
  have hgt := hleast _ hmem
  rw [← hp] at hgt
  exact hgt

theorem HoldsPrio.enumerate (h : HoldsPrio pq s) :
    (pq.enumerate : Multiset (Option α)) = s.map (fun e => some e.msg) := by
  obtain ⟨chains, hinv⟩ := h.inv
  rw [Prioq.enumerate_entries hinv, h.entries, map_map]
  rfl

theorem HoldsZero.enqueue (h : HoldsZero d s) (henq : Prioq.EnqOk enq) {e : Entry α}
    (hres : enq d (some e.msg) = some d') : HoldsZero d' (e ::ₘ s) := by
  obtain ⟨hwf, hcontent⟩ := henq.added h.wf hres
  exact ⟨hwf, by rw [hcontent, h.content, map_cons]⟩

theorem HoldsZero.length (h : HoldsZero d s) : d.length = s.card := by
  rw [← Deq.length_content, ← coe_card, h.content, card_map]

theorem HoldsZero.head_eq_tail_iff (h : HoldsZero d s) :
    d.head = d.tail ↔ s = 0 := by
  rw [← Deq.content_eq_nil_iff h.wf]
  constructor
  · intro hnil
    have hcontent := h.content
    rw [hnil] at hcontent
    exact map_eq_zero.mp hcontent.symm
  · rintro rfl
    exact coe_eq_zero _ |>.mp h.content

theorem HoldsZero.dequeue (h : HoldsZero d s) (hne : d.head ≠ d.tail) :
    ∃ e s', s = e ::ₘ s' ∧ d.dequeue.1 = some e.msg ∧ HoldsZero d.dequeue.2 s' := by
  have hcons : d.content ≠ [] := fun hnil => hne ((Deq.content_eq_nil_iff h.wf).mp hnil)
  obtain ⟨m, rest, hc⟩ := List.exists_cons_of_ne_nil hcons
  obtain ⟨hm, hwf, hrest⟩ := Deq.dequeue_cons h.wf hc
  have hmap := h.content
  rw [hc, ← cons_coe] at hmap
  obtain ⟨e, s', hs, he, hrest'⟩ := exists_cons_of_map_eq hmap.symm
  refine ⟨e, s', hs, ?_, ⟨hwf, ?_⟩⟩
  · rw [hm]
    exact he.symm
  · rw [hrest]
    exact hrest'.symm

/-- **The simulation relation**: the parts of the queue hold the parts of `M`. -/
structure Rep (q : Queue α) (n z p : Multiset (Entry α)) : Prop where
  neg : HoldsPrio q.negprioq n
  zero : HoldsZero q.zeroprio z
  pos : HoldsPrio q.posprioq p
  neg_side : ∀ e ∈ n, e.side = .neg
  zero_side : ∀ e ∈ z, e.side = .zero ∧ e.prio = Prioq.askedPrio 0 []
  pos_side : ∀ e ∈ p, e.side = .pos
  length : q.length = (n + z + p).card

/-- The relation with the parts put together. -/
def Simulates (q : Queue α) (M : Multiset (Entry α)) : Prop := ∃ n z p, Rep q n z p ∧ M = n + z + p

theorem simulates_create : Simulates (Queue.create : Queue α) 0 :=
  ⟨0, 0, 0, ⟨holdsPrio_init, ⟨Deq.init_wf, rfl⟩, holdsPrio_init, by simp, by simp, by simp, rfl⟩,
  rfl⟩

theorem Simulates.length (h : Simulates q M) :
    q.length = M.card := by
  obtain ⟨n, z, p, hrep, rfl⟩ := h
  exact hrep.length

/-- **Enumeration** lists the queued messages. -/
theorem Simulates.enumerate (h : Simulates q M) :
    (q.enumerate : Multiset (Option α)) = M.map (fun e => some e.msg) := by
  obtain ⟨n, z, p, hrep, rfl⟩ := h
  rw [Queue.enumerate, ← coe_add, ← coe_add, hrep.neg.enumerate,
    Deq.enumerate_eq hrep.zero.wf, hrep.zero.content, hrep.pos.enumerate, map_add,
    map_add]

theorem Simulates.enqueueZero (h : Simulates q M) (henq : Prioq.EnqOk enq) {data : α}
    (hres : q.enqueueZero enq data = some q') :
    Simulates q'.countUp ({ side := .zero, prio := Prioq.askedPrio 0 [], msg := data } ::ₘ M) := by
  obtain ⟨n, z, p, hrep, rfl⟩ := h
  obtain ⟨d, hd, rfl⟩ := Option.map_eq_some_iff.mp hres
  set e : Entry α := { side := .zero, prio := Prioq.askedPrio 0 [], msg := data }
  refine ⟨n, e ::ₘ z, p, ⟨hrep.neg, hrep.zero.enqueue (e := e) henq hd, hrep.pos, hrep.neg_side, ?_,
    hrep.pos_side, ?_⟩, ?_⟩
  · intro e' he'
    rcases mem_cons.mp he' with rfl | he'
    · exact ⟨rfl, rfl⟩
    · exact hrep.zero_side e' he'
  · simp [Queue.countUp, hrep.length]
  · rw [add_cons, cons_add]

theorem Simulates.enqueuePrio (h : Simulates q M) {pos : Bool} (henq : Prioq.EnqOk enq)
    (hargs : Prioq.ArgsOk priobits prioptr) {data : α}
    (hres : q.enqueuePrio pos enq priobits prioptr data = some q') :
    Simulates q'.countUp
      ({ side := sideOf pos, prio := Prioq.askedPrio priobits prioptr, msg := data } ::ₘ M) := by
  obtain ⟨n, z, p, hrep, rfl⟩ := h
  set e : Entry α := { side := sideOf pos, prio := Prioq.askedPrio priobits prioptr, msg := data }
    with he
  cases pos with
  | false =>
    obtain ⟨pq, hpq, rfl⟩ := Option.map_eq_some_iff.mp hres
    refine ⟨e ::ₘ n, z, p, ⟨?_, hrep.zero, hrep.pos, ?_, hrep.zero_side, hrep.pos_side, ?_⟩, ?_⟩
    · exact hrep.neg.enqueue (e := e) henq hargs rfl hpq
    · intro e' he'
      rcases mem_cons.mp he' with rfl | he'
      · rfl
      · exact hrep.neg_side e' he'
    · simp [Queue.countUp, hrep.length]
    · rw [cons_add, cons_add]
  | true =>
    obtain ⟨pq, hpq, rfl⟩ := Option.map_eq_some_iff.mp hres
    refine ⟨n, z, e ::ₘ p, ⟨hrep.neg, hrep.zero, ?_, hrep.neg_side, hrep.zero_side, ?_, ?_⟩, ?_⟩
    · exact hrep.pos.enqueue (e := e) henq hargs rfl hpq
    · intro e' he'
      rcases mem_cons.mp he' with rfl | he'
      · rfl
      · exact hrep.pos_side e' he'
    · simp [Queue.countUp, hrep.length]
    · rw [add_cons]

theorem Simulates.enqueueZero_room (h : Simulates q M) (henq : Prioq.EnqOk enq)
    (hroom : M.card + 1 < 2 ^ 30) (data : α) : ∃ q', q.enqueueZero enq data = some q' := by
  obtain ⟨n, z, p, hrep, rfl⟩ := h
  rw [card_add, card_add] at hroom
  have hlength := hrep.zero.length
  obtain ⟨d, hd⟩ := henq.room (some data) hrep.zero.wf (by omega)
  exact ⟨_, Option.map_eq_some_iff.mpr ⟨d, hd, rfl⟩⟩

theorem Simulates.enqueuePrio_room (h : Simulates q M) (pos : Bool) (henq : Prioq.EnqOk enq)
    (hargs : Prioq.ArgsOk priobits prioptr) (hroom : M.card + 1 < 2 ^ 30) (data : α) :
    ∃ q', q.enqueuePrio pos enq priobits prioptr data = some q' := by
  obtain ⟨n, z, p, hrep, rfl⟩ := h
  rw [card_add, card_add] at hroom
  cases pos with
  | false =>
    obtain ⟨pq, hpq⟩ := hrep.neg.enqueue_room henq hargs (by omega) (some data)
    exact ⟨_, Option.map_eq_some_iff.mpr ⟨pq, hpq, rfl⟩⟩
  | true =>
    obtain ⟨pq, hpq⟩ := hrep.pos.enqueue_room henq hargs (by omega) (some data)
    exact ⟨_, Option.map_eq_some_iff.mpr ⟨pq, hpq, rfl⟩⟩

theorem counted_eq_ok {o : Option (Queue α)} (h : Queue.counted o = .ok q') :
    ∃ q, o = some q ∧ q' = q.countUp := by
  cases o with
  | none => cases h
  | some q => exact ⟨q, rfl, (Except.ok.inj h).symm⟩

/-- **`CqsEnqueueGeneral`** adds one message. -/
theorem Simulates.enqueueGeneral (h : Simulates q M) {data : α}
    (hok : CallOk strategy priobits prioptr)
    (hres : Queue.enqueueGeneral littleEndian q data strategy priobits prioptr = .ok q') :
    Simulates q' (entryOf littleEndian data strategy priobits prioptr ::ₘ M) := by
  have hargs := hok.argsOk littleEndian
  have hzero : ∀ {enq : Deq α → Option α → Option (Deq α)}, Prioq.EnqOk enq →
      Queue.counted (q.enqueueZero enq data) = .ok q' →
      Simulates q' ({ side := .zero, prio := Prioq.askedPrio 0 [], msg := data } ::ₘ M) := by
    intro enq henq hres
    obtain ⟨q1, hq1, rfl⟩ := counted_eq_ok hres
    exact h.enqueueZero henq hq1
  have hprio : ∀ {enq : Deq α → Option α → Option (Deq α)} {pos : Bool} {bits : Nat}
      {words : List Word}, Prioq.EnqOk enq → Prioq.ArgsOk bits words →
      Queue.counted (q.enqueuePrio pos enq bits words data) = .ok q' →
      Simulates q'
        ({ side := sideOf pos, prio := Prioq.askedPrio bits words, msg := data } ::ₘ M) := by
    intro enq pos bits words henq hargs hres
    obtain ⟨q1, hq1, rfl⟩ := counted_eq_ok hres
    exact h.enqueuePrio henq hargs hq1
  cases strategy with
  | fifo => exact hzero Prioq.enqOk_fifo hres
  | lifo => exact hzero Prioq.enqOk_lifo hres
  | ififo => exact hprio Prioq.enqOk_fifo hargs hres
  | ilifo => exact hprio Prioq.enqOk_lifo hargs hres
  | bfifo => exact hprio Prioq.enqOk_fifo hargs hres
  | blifo => exact hprio Prioq.enqOk_lifo hargs hres
  | lfifo =>
    obtain ⟨hbits, -⟩ : priobits = 64 ∧ 2 ≤ prioptr.length := hok
    rw [Queue.enqueueGeneral, if_neg (not_not.mpr hbits)] at hres
    exact hprio Prioq.enqOk_fifo hargs hres
  | llifo => exact hprio Prioq.enqOk_lifo hargs hres

/-- **`CqsEnqueueGeneral`** returns, if there are not too many messages. -/
theorem Simulates.enqueueGeneral_room (littleEndian : Bool) (h : Simulates q M)
    (hroom : M.card + 1 < 2 ^ 30) (data : α) (hok : CallOk strategy priobits prioptr) :
    ∃ q', Queue.enqueueGeneral littleEndian q data strategy priobits prioptr = .ok q' := by
  have hargs := hok.argsOk littleEndian
  have hzero : ∀ {enq : Deq α → Option α → Option (Deq α)}, Prioq.EnqOk enq →
      ∃ q', Queue.counted (q.enqueueZero enq data) = .ok q' := by
    intro enq henq
    obtain ⟨q1, hq1⟩ := h.enqueueZero_room henq hroom data
    exact ⟨q1.countUp, congrArg Queue.counted hq1⟩
  have hprio : ∀ {enq : Deq α → Option α → Option (Deq α)} (pos : Bool) {bits : Nat}
      {words : List Word}, Prioq.EnqOk enq → Prioq.ArgsOk bits words →
      ∃ q', Queue.counted (q.enqueuePrio pos enq bits words data) = .ok q' := by
    intro enq pos bits words henq hargs
    obtain ⟨q1, hq1⟩ := h.enqueuePrio_room pos henq hargs hroom data
    exact ⟨q1.countUp, congrArg Queue.counted hq1⟩
  cases strategy with
  | fifo => exact hzero Prioq.enqOk_fifo
  | lifo => exact hzero Prioq.enqOk_lifo
  | ififo => exact hprio _ Prioq.enqOk_fifo hargs
  | ilifo => exact hprio _ Prioq.enqOk_lifo hargs
  | bfifo => exact hprio _ Prioq.enqOk_fifo hargs
  | blifo => exact hprio _ Prioq.enqOk_lifo hargs
  | lfifo =>
    obtain ⟨hbits, -⟩ : priobits = 64 ∧ 2 ≤ prioptr.length := hok
    rw [Queue.enqueueGeneral, if_neg (not_not.mpr hbits)]
    exact hprio _ Prioq.enqOk_fifo hargs
  | llifo => exact hprio _ Prioq.enqOk_lifo hargs

/-- **`CqsDequeue`** takes a message that none precedes; it returns 0 only for an
empty queue. -/
theorem Simulates.dequeue (littleEndian : Bool) (h : Simulates q M) :
    ∃ M', (prioMultiset α littleEndian).step M (.dequeue q.dequeue.1) M' ∧
      Simulates q.dequeue.2 M' := by
  have hsim := h
  obtain ⟨n, z, p, hrep, rfl⟩ := h
  unfold Queue.dequeue
  by_cases hlen : q.length = 0
  · have hzero : n + z + p = 0 := card_eq_zero.mp (hrep.length ▸ hlen)
    rw [if_pos hlen]
    exact ⟨0, ⟨hzero, rfl⟩, hzero ▸ hsim⟩
  rw [if_neg hlen]
  have hpos : ∀ {pq : Prioq α} {s : Multiset (Entry α)}, HoldsPrio pq s →
      (pq.heapNext > 1 ↔ pq.heapNext ≠ 1) := by
    intro pq s hh
    obtain ⟨chains, hinv⟩ := hh.inv
    have := hinv.heapNext_pos
    omega
  by_cases hneg : q.negprioq.heapNext > 1
  · rw [if_pos hneg]
    obtain ⟨e, n', rfl, hm, hhold, hleast⟩ := hrep.neg.dequeue ((hpos hrep.neg).mp hneg)
    rw [hm]
    have hside : e.side = .neg := hrep.neg_side e (mem_cons_self e n')
    refine ⟨n' + z + p, ⟨e, rfl, by rw [cons_add, cons_add], ?_⟩,
      n', z, p, ⟨hhold, hrep.zero, hrep.pos, fun e' he' => hrep.neg_side e' (mem_cons_of_mem he'),
      hrep.zero_side, hrep.pos_side, ?_⟩, rfl⟩
    · intro e' he' hprec
      rcases hprec with hlt | ⟨hsame, hgt⟩
      · rw [hside] at hlt
        exact absurd hlt (Nat.not_lt_zero _)
      · -- the same side, so the same heap
        rcases mem_add.mp he' with he' | he'
        · rcases mem_add.mp he' with he' | he'
          · rw [hleast e' he'] at hgt
            exact absurd hgt (by decide)
          · rw [hside, (hrep.zero_side e' he').1] at hsame
            exact absurd hsame (by decide)
        · rw [hside, hrep.pos_side e' he'] at hsame
          exact absurd hsame (by decide)
    · have hl := hrep.length
      simp only [card_add, card_cons] at hl ⊢
      omega
  rw [if_neg hneg]
  obtain rfl : n = 0 := by
    have hone : ¬ q.negprioq.heapNext ≠ 1 := fun hne => hneg ((hpos hrep.neg).mpr hne)
    exact hrep.neg.heapNext_eq_one_iff.mp (not_not.mp hone)
  by_cases hzero : q.zeroprio.head ≠ q.zeroprio.tail
  · rw [if_pos hzero]
    obtain ⟨e, z', rfl, hm, hhold⟩ := hrep.zero.dequeue hzero
    rw [hm]
    obtain ⟨hside, hprio⟩ := hrep.zero_side e (mem_cons_self e z')
    refine ⟨0 + z' + p, ⟨e, rfl, by rw [add_cons, cons_add], ?_⟩,
      0, z', p, ⟨hrep.neg, hhold, hrep.pos, hrep.neg_side,
      fun e' he' => hrep.zero_side e' (mem_cons_of_mem he'), hrep.pos_side, ?_⟩, rfl⟩
    · intro e' he' hprec
      rw [zero_add] at he'
      rcases mem_add.mp he' with he' | he'
      · obtain ⟨hside', -⟩ := hrep.zero_side e' he'
        simp [Entry.Precedes, hside, hside', hprio, prioGT, Prioq.askedPrio, Prio.words,
          prioGTWords] at hprec
      · have hside' := hrep.pos_side e' he'
        simp [Entry.Precedes, hside, hside', Side.rank] at hprec
    · have hl := hrep.length
      simp only [card_add, card_cons] at hl ⊢
      omega
  rw [if_neg hzero]
  obtain rfl : z = 0 := hrep.zero.head_eq_tail_iff.mp (not_not.mp hzero)
  by_cases hposq : q.posprioq.heapNext > 1
  · rw [if_pos hposq]
    obtain ⟨e, p', rfl, hm, hhold, hleast⟩ := hrep.pos.dequeue ((hpos hrep.pos).mp hposq)
    rw [hm]
    have hside : e.side = .pos := hrep.pos_side e (mem_cons_self e p')
    refine ⟨0 + 0 + p', ⟨e, rfl, by rw [add_cons], ?_⟩,
      0, 0, p', ⟨hrep.neg, hrep.zero, hhold, hrep.neg_side, hrep.zero_side,
      fun e' he' => hrep.pos_side e' (mem_cons_of_mem he'), ?_⟩, rfl⟩
    · intro e' he' hprec
      rw [zero_add, zero_add] at he'
      have hside' := hrep.pos_side e' he'
      simp [Entry.Precedes, hside, hside', hleast e' he'] at hprec
    · have hl := hrep.length
      simp only [card_add, card_cons] at hl ⊢
      omega
  · -- all three parts are empty, but the length is not 0
    exfalso
    have hone : ¬ q.posprioq.heapNext ≠ 1 := fun hne => hposq ((hpos hrep.pos).mpr hne)
    have hp : p = 0 := hrep.pos.heapNext_eq_one_iff.mp (not_not.mp hone)
    rw [hp] at hrep
    exact hlen hrep.length

/-! ### Whole runs -/

/-- `n` calls of `CqsDequeue`, with their results. -/
def Queue.drain : Nat → Queue α → List (Option α) × Queue α
  | 0, q => ([], q)
  | n + 1, q => (q.dequeue.1 :: (Queue.drain n q.dequeue.2).1, (Queue.drain n q.dequeue.2).2)

theorem Simulates.drain : ∀ {n : Nat} {q : Queue α} {M : Multiset (Entry α)}, Simulates q M →
    M.card = n → Simulates (q.drain n).2 0 ∧
      ((q.drain n).1 : Multiset (Option α)) = M.map (fun e => some e.msg) := by
  intro n
  induction n with
  | zero =>
    intro q M h hcard
    obtain rfl := card_eq_zero.mp hcard
    exact ⟨h, rfl⟩
  | succ n ih =>
    intro q M h hcard
    obtain ⟨M', hstep, hsim⟩ := h.dequeue true
    cases hres : q.dequeue.1 with
    | none =>
      rw [hres] at hstep
      rw [hstep.1] at hcard
      exact absurd hcard (by simp)
    | some m =>
      rw [hres] at hstep
      obtain ⟨e, rfl, rfl, -⟩ := hstep
      rw [card_cons, add_right_cancel_iff] at hcard
      obtain ⟨hend, hdrained⟩ := ih hsim hcard
      refine ⟨hend, ?_⟩
      rw [Queue.drain, hres, map_cons, ← hdrained, cons_coe]

theorem properQueue_simulate (h : (properQueue α littleEndian).Trace l q) :
    ∃ M, (prioMultiset α littleEndian).Trace l M ∧ Simulates q M := by
  refine h.simulate ?_ ?_
  · rintro q rfl
    exact ⟨0, rfl, simulates_create⟩
  · rintro q e q' M hsim ⟨hok, hstep⟩
    cases e with
    | general data strategy priobits prioptr => exact ⟨_, rfl, hsim.enqueueGeneral hok hstep⟩
    | fifo data =>
      obtain ⟨q1, hq1, rfl⟩ := counted_eq_ok hstep
      exact ⟨_, rfl, hsim.enqueueZero Prioq.enqOk_fifo hq1⟩
    | lifo data =>
      obtain ⟨q1, hq1, rfl⟩ := counted_eq_ok hstep
      exact ⟨_, rfl, hsim.enqueueZero Prioq.enqOk_lifo hq1⟩
    | dequeue result =>
      have heq : q.dequeue = (result, q') := hstep
      obtain ⟨M', hstep', hsim'⟩ := hsim.dequeue littleEndian
      rw [heq] at hstep' hsim'
      exact ⟨M', hstep', hsim'⟩

/-- A call that leaves fewer than 2 ^ 30 messages in the queue returns. -/
theorem Simulates.step (littleEndian : Bool) (h : Simulates q M) {e : Event α}
    (hroom : M.card + e.added.card < 2 ^ 30) (hok : e.Ok)
    (he : ∀ result, e = .dequeue result → result = q.dequeue.1) :
    ∃ q', (queueSystem α littleEndian).step q e q' := by
  have hzero : ∀ {enq : Deq α → Option α → Option (Deq α)} (data : α), Prioq.EnqOk enq →
      M.card + 1 < 2 ^ 30 → ∃ q', Queue.counted (q.enqueueZero enq data) = .ok q' := by
    intro enq data henq hroom
    obtain ⟨q1, hq1⟩ := h.enqueueZero_room henq hroom data
    exact ⟨q1.countUp, congrArg Queue.counted hq1⟩
  cases e with
  | general data strategy priobits prioptr =>
    exact h.enqueueGeneral_room littleEndian hroom data hok
  | fifo data => exact hzero data Prioq.enqOk_fifo hroom
  | lifo data => exact hzero data Prioq.enqOk_lifo hroom
  | dequeue result => exact ⟨q.dequeue.2, Prod.ext (he result rfl).symm rfl⟩

/-- **The scheduler queue delivers in priority order and loses nothing.** Every
sequence of calls with its results is one of the abstract machine; the length and
the enumeration are those of its multiset; draining returns what was enqueued and
not yet dequeued; a call that leaves fewer than 2 ^ 30 messages returns; and the order
of integer (long) priorities is the order of signed 32-bit (64-bit) numbers. -/
theorem queue_refines {l : List (Event α)} {q : Queue α}
    (h : (properQueue α littleEndian).Trace l q) :
    (∃ M, (prioMultiset α littleEndian).Trace l M ∧ q.length = M.card ∧
      (q.enumerate : Multiset (Option α)) = M.map (fun e => some e.msg)) ∧
    ((q.drain q.length).2.length = 0 ∧ (enqueuedOf l).map some =
      (dequeuedOf l).map some + ((q.drain q.length).1 : Multiset (Option α))) ∧
    (∀ e : Event α, e.Ok → (∀ result, e = .dequeue result → result = q.dequeue.1) →
      q.length + e.added.card < 2 ^ 30 → ∃ q', (properQueue α littleEndian).step q e q') ∧
    (∀ (data data' : α) (strategy strategy' : Strategy) (priobits priobits' : Nat)
      (x y : List Word), strategy = .ififo ∨ strategy = .ilifo → strategy' = .ififo ∨
      strategy' = .ilifo →
        ((entryOf littleEndian data strategy priobits x).Precedes
            (entryOf littleEndian data' strategy' priobits' y) ↔
          (x.headD 0#32).toInt < (y.headD 0#32).toInt)) ∧
    (∀ (data data' : α) (strategy strategy' : Strategy) (x y : List Word),
      strategy = .lfifo ∨ strategy = .llifo → strategy' = .lfifo ∨ strategy' = .llifo →
        ((entryOf littleEndian data strategy 64 x).Precedes
            (entryOf littleEndian data' strategy' 64 y) ↔
          (longAt littleEndian x).toInt < (longAt littleEndian y).toInt)) := by
  obtain ⟨M, htrace, hsim⟩ := properQueue_simulate h
  obtain ⟨hend, hdrained⟩ := hsim.drain hsim.length.symm
  refine ⟨⟨M, htrace, hsim.length, hsim.enumerate⟩, ⟨hend.length, ?_⟩, ?_, ?_, ?_⟩
  · rw [hdrained, prioMultiset_conserves htrace, map_add, map_map]
    rfl
  · intro e hok he hroom
    rw [hsim.length] at hroom
    obtain ⟨q', hstep⟩ := hsim.step littleEndian hroom hok he
    exact ⟨q', hok, hstep⟩
  · intro data data' strategy strategy' priobits priobits' x y hs hs'
    exact precedes_int_iff hs hs' priobits priobits' x y
  · intro data data' strategy strategy' x y hs hs'
    exact precedes_long_iff hs hs' x y

/-- The calls of a small run: a positive, a negative and a zero priority. -/
def mixedCalls : List (Event Nat) :=
  [.general 7 .ififo 32 [5#32], .general 8 .llifo 64 [0#32, 0xFFFFFFFF#32], .fifo 9,
    .dequeue (some 8)]

theorem queue_refines_mixedCalls :
    ∃ q, (properQueue Nat true).Trace mixedCalls q ∧ q.length = 2 ∧
      q.enumerate = [some 9, some 7] ∧
      ∃ M, (prioMultiset Nat true).Trace mixedCalls M ∧ M.card = 2 := by
  have htrace : ∃ q, (properQueue Nat true).Trace mixedCalls q ∧ q.length = 2 ∧
      q.enumerate = [some 9, some 7] := by
    have h0 : (properQueue Nat true).Trace [] Queue.create := .init rfl
    have hok1 : CallOk .ififo 32 [5#32] := by decide
    have h1 := h0.step (e := Event.general 7 .ififo 32 [5#32]) ⟨hok1, rfl⟩
    have hok2 : CallOk .llifo 64 [0#32, 0xFFFFFFFF#32] := by decide
    have h2 := h1.step (e := Event.general 8 .llifo 64 [0#32, 0xFFFFFFFF#32]) ⟨hok2, rfl⟩
    have h3 := h2.step (e := Event.fifo 9) ⟨trivial, rfl⟩
    have h4 := h3.step (e := Event.dequeue (some 8)) ⟨trivial, Prod.ext rfl rfl⟩
    exact ⟨_, h4, rfl, rfl⟩
  obtain ⟨q, htrace, hlen, henum⟩ := htrace
  obtain ⟨⟨M, habs, hcard, -⟩, -⟩ := queue_refines htrace
  exact ⟨q, htrace, hlen, henum, M, habs, hcard ▸ hlen⟩

/-- Messages of priority zero, as many as the ring buffer can hold. -/
theorem fifoRun : ∀ {n : Nat}, n < 2 ^ 30 → ∃ q d,
    (properQueue Nat true).Trace (List.replicate n (.fifo 0)) q ∧ q.zeroprio = d ∧
      Deq.run (List.replicate n (.enqueueFifo 0)) = some d := by
  intro n
  induction n with
  | zero => exact fun _ => ⟨Queue.create, Deq.init, .init rfl, rfl, rfl⟩
  | succ n ih =>
    intro hn
    obtain ⟨q, d, htrace, hzero, hrun⟩ := ih (by omega)
    obtain ⟨d', hrun', -⟩ := Deq.run_holds (Deq.bounded_replicate hn (.enqueueFifo 0))
    have hcall := hrun'
    rw [List.replicate_succ', Deq.run_concat, hrun, Option.bind_some] at hcall
    obtain ⟨⟨r, d1⟩, hd1, rfl⟩ := Option.map_eq_some_iff.mp hcall
    obtain ⟨d2, hd2, hd12⟩ := Option.map_eq_some_iff.mp hd1
    obtain rfl := (Prod.mk.inj hd12).2
    have hstep : q.enqueueFifo 0 = .ok ({ q with zeroprio := d2 } : Queue Nat).countUp := by
      rw [Queue.enqueueFifo, Queue.enqueueZero, hzero, hd2]
      rfl
    refine ⟨({ q with zeroprio := d2 } : Queue Nat).countUp, d2, ?_, rfl, hrun'⟩
    rw [List.replicate_succ']
    exact htrace.step ⟨trivial, hstep⟩

/-- One message more, and the new size of the ring buffer is no `int`. -/
theorem not_queue_refines : ∃ l q, (properQueue Nat true).Trace l q ∧
    q.enqueueFifo 0 = .error .newsizeOverflow ∧
    ¬ ∃ q', (properQueue Nat true).step q (.fifo 0) q' := by
  obtain ⟨n, hn⟩ : ∃ n, n + 1 = 2 ^ 30 := ⟨2 ^ 30 - 1, rfl⟩
  obtain ⟨q, d, htrace, hzero, hrun⟩ := fifoRun (n := n) (by omega)
  obtain ⟨d', hrun', hnone⟩ := Deq.run_replicate_eq_none hn 0
  obtain rfl := Option.some.inj (hrun.symm.trans hrun')
  have hfull : q.enqueueFifo 0 = .error .newsizeOverflow := by
    rw [Queue.enqueueFifo, Queue.enqueueZero, hzero, hnone]
    rfl
  refine ⟨_, q, htrace, hfull, ?_⟩
  rintro ⟨q', -, hstep⟩
  have hok : q.enqueueFifo 0 = .ok q' := hstep
  rw [hfull] at hok
  cases hok

end CharmRuntime.Queueing
