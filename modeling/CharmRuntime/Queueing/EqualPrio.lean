import CharmRuntime.Queueing.QueueSound

/-!
# Queueing.EqualPrio

**Messages of one priority as one double-ended list.**

The abstract machine `lanes` has a list for each side and priority: a FIFO enqueue
appends, a LIFO enqueue prepends, a dequeue takes the front of one list. The queue
refines it as long as `CqsPrioqGetDeq` finds the bucket of a priority that has one
(`Findable`). That is so until the hash table is doubled: `CqsPrioqRehash` hangs the
buckets on the chains of the larger table, but the lookup still goes by
`PRIOQ_TABSIZE`. With 2035 priorities a bucket gets lost and a second one made for
its priority (`rehash_splits_priority`).
-/

namespace CharmRuntime.Queueing

open Lib Function List
open Except (ok)

/-! ### One priority queue -/

namespace Prioq

variable {α : Type}

/-- No two buckets of the heap have the same priority. -/
def NoDup (pq : Prioq α) : Prop := (pq.elts.map pq.pri).Nodup

/-- A bucket with the asked priority, if there is one, hangs on the chain the lookup
scans. -/
def Findable (pq : Prioq α) (priobits : Nat) (prioptr : List Word) : Prop :=
  ∀ pe ∈ pq.elts, pq.pri pe = askedPrio priobits prioptr →
    pq.links.On (lookupIndex priobits prioptr) pe

/-- The ring buffer operation of a strategy. -/
def enqOf (lifo : Bool) : Deq α → Option α → Option (Deq α) :=
  if lifo then Deq.enqueueLifo else Deq.enqueueFifo

/-- The same on a list. -/
def put (lifo : Bool) (m : α) (l : List α) : List α := if lifo then m :: l else l ++ [m]

theorem enqOf_ok (lifo : Bool) : EnqOk (enqOf (α := α) lifo) := by
  cases lifo with
  | false => exact enqOk_fifo
  | true => exact enqOk_lifo

theorem content_enqOf (lifo : Bool) {d d' : Deq α} (hd : d.Wf) {l : List α}
    (hl : d.content = l.map some) {m : α} (hres : enqOf lifo d (some m) = some d') :
    d'.content = (put lifo m l).map some := by
  cases lifo with
  | false =>
    have hres : d.enqueueFifo (some m) = some d' := hres
    obtain ⟨-, hnone⟩ | ⟨-, e, he, -, hcontent⟩ := Deq.enqueueFifo_spec hd (some m)
    · rw [hnone] at hres
      cases hres
    · obtain rfl := Option.some.inj (he.symm.trans hres)
      rw [hcontent, hl, put, if_neg Bool.false_ne_true, map_append]
      rfl
  | true =>
    have hres : d.enqueueLifo (some m) = some d' := hres
    obtain ⟨-, hnone⟩ | ⟨-, e, he, -, hcontent⟩ := Deq.enqueueLifo_spec hd (some m)
    · rw [hnone] at hres
      cases hres
    · obtain rfl := Option.some.inj (he.symm.trans hres)
      rw [hcontent, hl, put, if_pos rfl, map_cons]

/-- The buckets are the lists of `lane`. -/
structure Lanes (pq : Prioq α) (lane : Prio → List α) : Prop where
  noDup : pq.NoDup
  content : ∀ e ∈ pq.elts, (pq.data e).content = (lane (pq.pri e)).map some
  empty : ∀ p, (∀ e ∈ pq.elts, pq.pri e ≠ p) → lane p = []

section

variable {pq : Prioq α} {chains : Nat → List Nat} {priobits : Nat} {prioptr : List Word}
  {lane : Prio → List α} {pq' : Prioq α}

theorem NoDup.inj (h : pq.NoDup) {e e' : Nat} (he : e ∈ pq.elts) (he' : e' ∈ pq.elts)
    (hpri : pq.pri e = pq.pri e') : e = e' :=
  Multiset.inj_on_of_nodup_map h e he e' he' hpri

theorem findable_iff (h : pq.Inv chains) : pq.Findable priobits prioptr ↔
    ∀ pe ∈ pq.elts, pq.pri pe = askedPrio priobits prioptr →
    pe ∈ chains (lookupIndex priobits prioptr) := by
  constructor
  · intro hf pe hpe hpri
    exact (h.table.ok.on_iff (lookupIndex_lt h) pe).mp (hf pe hpe hpri)
  · intro hf pe hpe hpri
    exact (h.table.ok.on_iff (lookupIndex_lt h) pe).mpr (hf pe hpe hpri)

theorem findable_of_hashKeySize (h : pq.Inv chains) (hsize : pq.hashKeySize = prioqTabSize) :
    pq.Findable priobits prioptr := by
  rw [findable_iff h]
  intro pe hpe hpri
  obtain ⟨i, hi, hmem⟩ := (h.table.listed pe).mpr hpe
  have hplace := h.table.place i pe hi hmem
  rw [hsize, or_self] at hplace
  have hindex : lookupIndex priobits prioptr = i := by
    rw [hplace, hashOf, (h.prio pe hpe).words_eq, hpri]
    rfl
  rwa [hindex]

theorem enqueue_noDup_iff (h : pq.Inv chains) (hnd : pq.NoDup) (hargs : ArgsOk priobits prioptr)
    {enq : Deq α → Option α → Option (Deq α)} (henq : EnqOk enq) {msg : Option α}
    (hres : pq.enqueue enq priobits prioptr msg = some pq') :
    pq'.NoDup ↔ pq.Findable priobits prioptr := by
  obtain ⟨-, -, hcase⟩ := enqueue_cases h hargs henq hres
  rw [findable_iff h]
  rcases hcase with ⟨pe, d, hchain, hmem, hpri, -, heq⟩ | ⟨d, hnone, hnew, -, helts, hpri, -⟩
  · rw [heq]
    refine ⟨fun _ pe' hpe' hpri' => ?_, fun _ => hnd⟩
    rwa [hnd.inj hpe' hmem (hpri'.trans hpri.symm)]
  · have hold : ∀ e ∈ pq.elts, e ≠ pq.nextElt := fun e he heq => hnew (heq ▸ he)
    constructor
    · intro hnd' pe hpe hpri'
      refine absurd ?_ (hold pe hpe)
      refine hnd'.inj (helts ▸ Multiset.mem_cons_of_mem hpe) (helts ▸ Multiset.mem_cons_self _ _) ?_
      rw [hpri, update_self, update_of_ne (hold pe hpe), hpri']
    · intro hfind
      have hfresh : ∀ e ∈ pq.elts, pq.pri e ≠ askedPrio priobits prioptr :=
        fun e he hpe => hnone e (hfind e he hpe) hpe
      rw [NoDup, helts, hpri, Multiset.map_cons, update_self]
      have hmap :
        pq.elts.map (update pq.pri pq.nextElt (askedPrio priobits prioptr)) = pq.elts.map pq.pri :=
        Multiset.map_congr rfl fun e he => update_of_ne (hold e he) _ _
      rw [hmap, Multiset.nodup_cons]
      refine ⟨?_, hnd⟩
      intro hmem
      obtain ⟨e, he, heq⟩ := mem_map.mp hmem
      exact hfresh e he heq

/-- **Enqueue**: the message joins the list of its priority. -/
theorem Lanes.enqueue (hl : pq.Lanes lane) (h : pq.Inv chains) (hargs : ArgsOk priobits prioptr)
    (hfind : pq.Findable priobits prioptr) {lifo : Bool} {m : α}
    (hres : pq.enqueue (enqOf lifo) priobits prioptr (some m) = some pq') :
    pq'.Lanes (update lane (askedPrio priobits prioptr)
      (put lifo m (lane (askedPrio priobits prioptr)))) := by
  obtain ⟨-, -, hcase⟩ := enqueue_cases h hargs (enqOf_ok lifo) hres
  rcases hcase with ⟨pe, d, -, hmem, hpri, hd, heq⟩ | ⟨d, hnone, hnew, hd, helts, hpri, hdata, -⟩
  · rw [heq]
    refine ⟨hl.noDup, ?_, ?_⟩
    · intro e he
      by_cases hep : e = pe
      · subst hep
        dsimp only
        rw [update_self, hpri, update_self]
        refine content_enqOf lifo (h.deq e hmem) ?_ hd
        rw [← hpri]
        exact hl.content e hmem
      · dsimp only
        have hne : pq.pri e ≠ askedPrio priobits prioptr :=
          fun heq' => hep (hl.noDup.inj he hmem (heq'.trans hpri.symm))
        rw [update_of_ne hep, update_of_ne hne]
        exact hl.content e he
    · intro p hp
      have hne : p ≠ askedPrio priobits prioptr := fun heq' => hp pe hmem (hpri.trans heq'.symm)
      rw [update_of_ne hne]
      exact hl.empty p hp
  · -- the lookup has seen all candidates, so there was no bucket
    have hfresh : ∀ e ∈ pq.elts, pq.pri e ≠ askedPrio priobits prioptr :=
      fun e he hpe => hnone e ((findable_iff h).mp hfind e he hpe) hpe
    have hold : ∀ e ∈ pq.elts, e ≠ pq.nextElt := fun e he heq => hnew (heq ▸ he)
    refine ⟨?_, ?_, ?_⟩
    · exact (enqueue_noDup_iff h hl.noDup hargs (enqOf_ok lifo) hres).mpr hfind
    · intro e he
      rw [helts] at he
      rw [hpri, hdata]
      rcases mem_cons.mp he with rfl | he
      · rw [update_self, update_self, update_self, hl.empty _ hfresh]
        exact content_enqOf lifo Deq.init_wf rfl hd
      · rw [update_of_ne (hold e he), update_of_ne (hold e he), update_of_ne (hfresh e he)]
        exact hl.content e he
    · intro p hp
      rw [helts, hpri] at hp
      have hne : p ≠ askedPrio priobits prioptr := by
        intro heq
        refine hp pq.nextElt (Multiset.mem_cons_self _ _) ?_
        rw [update_self, heq]
      rw [update_of_ne hne]
      refine hl.empty p ?_
      intro e he
      have hpe := hp e (Multiset.mem_cons_of_mem he)
      rwa [update_of_ne (hold e he)] at hpe

/-- **Dequeue**: the front of one list. -/
theorem Lanes.dequeue (hl : pq.Lanes lane) (h : pq.Inv chains) (hfull : pq.Full)
    (hne : pq.heapNext ≠ 1) :
    ∃ p m rest, lane p = m :: rest ∧ pq.dequeue.1 = some m ∧
    pq.dequeue.2.Lanes (update lane p rest) := by
  obtain ⟨pe, m, rest, d, hmem, -, hcontent, -, hrest, hm, hpri, hdata, -, -, -, hcase⟩ :=
    dequeue_cases h hfull hne
  have hlane := hl.content pe hmem
  rw [hcontent] at hlane
  obtain ⟨m', rest', hsplit, rfl, rfl⟩ := map_eq_cons_iff.mp hlane.symm
  have hsub : ∀ e ∈ pq.dequeue.2.elts, e ∈ pq.elts := by
    intro e he
    rcases hcase with ⟨-, helts⟩ | ⟨-, helts⟩
    · rw [helts]
      exact Multiset.mem_cons_of_mem he
    · rwa [← helts]
  refine ⟨pq.pri pe, m', rest', hsplit, hm, ?_, ?_, ?_⟩
  · have hnd := hl.noDup
    rw [NoDup, hpri]
    rcases hcase with ⟨-, helts⟩ | ⟨-, helts⟩
    · rw [NoDup, helts] at hnd
      exact (nodup_cons.mp hnd).2
    · rw [helts]
      exact hnd
  · intro e he
    rw [hpri, hdata]
    by_cases hep : e = pe
    · rw [hep, update_self, update_self, hrest]
    · have hpe : pq.pri e ≠ pq.pri pe := fun heq => hep (hl.noDup.inj (hsub e he) hmem heq)
      rw [update_of_ne hep, update_of_ne hpe]
      exact hl.content e (hsub e he)
  · intro p hp
    rw [hpri] at hp
    by_cases hpp : p = pq.pri pe
    · -- the bucket is gone, so its list is empty
      subst hpp
      rw [update_self]
      rcases hcase with ⟨hnil, -⟩ | ⟨-, helts⟩
      · exact map_eq_nil_iff.mp hnil
      · exact absurd rfl (hp pe (helts ▸ hmem))
    · rw [update_of_ne hpp]
      refine hl.empty p ?_
      intro e he heq
      rcases hcase with ⟨-, helts⟩ | ⟨-, helts⟩
      · rw [helts] at he
        rcases mem_cons.mp he with rfl | he
        · exact hpp heq.symm
        · exact hp e he heq
      · exact hp e (helts ▸ he) heq

end

theorem init_lanes : (init : Prioq α).Lanes (fun _ => []) := by
  refine ⟨?_, ?_, fun _ _ => rfl⟩
  · exact Multiset.nodup_zero
  · intro e he
    exact absurd he (Multiset.notMem_zero e)

end Prioq

/-! ### The lists of a queue -/

variable {α : Type} {littleEndian : Bool}

/-- The strategies that put a message in front. -/
def Strategy.isLifo : Strategy → Bool
  | .fifo | .ififo | .bfifo | .lfifo => false
  | .lifo | .ilifo | .blifo | .llifo => true

/-- Replace one list. -/
def setLane (L : Side → Prio → List α) (side : Side) (p : Prio) (l : List α) :
    Side → Prio → List α :=
  update L side (update (L side) p l)

/-- Put the message of an entry into its list. -/
def putEntry (L : Side → Prio → List α) (lifo : Bool) (e : Entry α) : Side → Prio → List α :=
  setLane L e.side e.prio (Prioq.put lifo e.msg (L e.side e.prio))

/-- **The abstract machine**: a double-ended list for each side and priority. -/
def lanes (α : Type) (littleEndian : Bool) : Transition (Side → Prio → List α) (Event α) where
  init L := L = fun _ _ => []
  step L e L' :=
    match e with
    | .general data strategy priobits prioptr =>
      L' = putEntry L strategy.isLifo (entryOf littleEndian data strategy priobits prioptr)
    | .fifo data => L' = putEntry L false (entryOf littleEndian data .fifo 0 [])
    | .lifo data => L' = putEntry L true (entryOf littleEndian data .lifo 0 [])
    | .dequeue none => L' = L
    | .dequeue (some m) => ∃ side p rest, L side p = m :: rest ∧ L' = setLane L side p rest

/-- The queue shows the lists `L`. -/
structure Shows (q : Queue α) (L : Side → Prio → List α) : Prop where
  neg : q.negprioq.Lanes (L .neg)
  zero : q.zeroprio.content = (L .zero (Prioq.askedPrio 0 [])).map some
  pos : q.posprioq.Lanes (L .pos)

/-- The priority queue for a leading bit. -/
def Queue.prioqOf (q : Queue α) (pos : Bool) : Prioq α := if pos then q.posprioq else q.negprioq

/-- The lookup of an enqueue finds the bucket if there is one. -/
def FindsBucket (littleEndian : Bool) (q : Queue α) : Event α → Prop
  | .general _ strategy priobits prioptr =>
    match strategy with
    | .fifo | .lifo => True
    | .ififo | .ilifo => (q.prioqOf (iprio prioptr).msb).Findable 32 [iprio prioptr]
    | .bfifo | .blifo =>
      (q.prioqOf (priobits != 0 && (prioptr.headD 0#32).msb)).Findable priobits prioptr
    | .lfifo | .llifo => (q.prioqOf (lprio0 littleEndian prioptr).msb).Findable priobits
        (longWords littleEndian (lprio littleEndian prioptr))
  | .fifo _ => True
  | .lifo _ => True
  | .dequeue _ => True

/-- The queue, with proper arguments, as long as no lookup misses a bucket. -/
def findingQueue (α : Type) (littleEndian : Bool) : Transition (Queue α) (Event α) :=
  (queueSystem α littleEndian).restrict (fun q e => e.Ok ∧ FindsBucket littleEndian q e)

/-- The simulation relation. -/
structure ShowsInv (q : Queue α) (L : Side → Prio → List α) : Prop where
  lists : Shows q L
  negInv : ∃ chains, q.negprioq.Inv chains
  negFull : q.negprioq.Full
  zeroWf : q.zeroprio.Wf
  posInv : ∃ chains, q.posprioq.Inv chains
  posFull : q.posprioq.Full

theorem ShowsInv.create : ShowsInv (Queue.create : Queue α) (fun _ _ => []) :=
  ⟨⟨Prioq.init_lanes, rfl, Prioq.init_lanes⟩, holdsPrio_init.inv, holdsPrio_init.full, Deq.init_wf,
    holdsPrio_init.inv, holdsPrio_init.full⟩

variable {q q' : Queue α} {L : Side → Prio → List α} {priobits : Nat}
  {prioptr : List Word} {data : α}
  {strategy : Strategy}

theorem ShowsInv.enqueueZero (h : ShowsInv q L) {lifo : Bool} {data : α}
    (hres : q.enqueueZero (Prioq.enqOf lifo) data = some q') : ShowsInv q'.countUp
      (putEntry L lifo { side := .zero, prio := Prioq.askedPrio 0 [], msg := data }) := by
  obtain ⟨d, hd, rfl⟩ := Option.map_eq_some_iff.mp hres
  refine ⟨⟨h.lists.neg, ?_, h.lists.pos⟩, h.negInv, h.negFull,
    ((Prioq.enqOf_ok lifo).added h.zeroWf hd).1, h.posInv, h.posFull⟩
  show d.content = _
  rw [Prioq.content_enqOf lifo h.zeroWf h.lists.zero hd]
  simp [putEntry, setLane]

theorem ShowsInv.enqueuePrio (h : ShowsInv q L) {pos lifo : Bool}
    (hargs : Prioq.ArgsOk priobits prioptr) (hfind : (q.prioqOf pos).Findable priobits prioptr)
    {data : α} (hres : q.enqueuePrio pos (Prioq.enqOf lifo) priobits prioptr data = some q') :
    ShowsInv q'.countUp (putEntry L lifo
      { side := sideOf pos, prio := Prioq.askedPrio priobits prioptr, msg := data }) := by
  have hok : Prioq.EnqOk (Prioq.enqOf (α := α) lifo) := Prioq.enqOf_ok lifo
  cases pos with
  | false =>
    obtain ⟨pq, hpq, rfl⟩ := Option.map_eq_some_iff.mp hres
    obtain ⟨chains, hinv⟩ := h.negInv
    obtain ⟨hinv', hfull', -⟩ := Prioq.enqueue_entries hinv h.negFull hargs hok hpq
    have hl := h.lists.neg.enqueue hinv hargs hfind hpq
    exact ⟨⟨hl, h.lists.zero, h.lists.pos⟩, hinv', hfull', h.zeroWf, h.posInv, h.posFull⟩
  | true =>
    obtain ⟨pq, hpq, rfl⟩ := Option.map_eq_some_iff.mp hres
    obtain ⟨chains, hinv⟩ := h.posInv
    obtain ⟨hinv', hfull', -⟩ := Prioq.enqueue_entries hinv h.posFull hargs hok hpq
    have hl := h.lists.pos.enqueue hinv hargs hfind hpq
    exact ⟨⟨h.lists.neg, h.lists.zero, hl⟩, h.negInv, h.negFull, h.zeroWf, hinv', hfull'⟩

/-- What `CqsEnqueueGeneral` does, strategy by strategy. -/
theorem enqueueGeneral_cases (hok : CallOk strategy priobits prioptr)
    (heq : Queue.enqueueGeneral littleEndian q data strategy priobits prioptr = .ok q') :
    (∃ q1, q.enqueueZero (Prioq.enqOf strategy.isLifo) data = some q1 ∧ q' = q1.countUp ∧
        entryOf littleEndian data strategy priobits prioptr =
          { side := .zero, prio := Prioq.askedPrio 0 [], msg := data } ∧
        FindsBucket littleEndian q (.general data strategy priobits prioptr)) ∨
      ∃ pos bits words q1, Prioq.ArgsOk bits words ∧
        q.enqueuePrio pos (Prioq.enqOf strategy.isLifo) bits words data = some q1 ∧
        q' = q1.countUp ∧ entryOf littleEndian data strategy priobits prioptr =
          { side := sideOf pos, prio := Prioq.askedPrio bits words, msg := data } ∧
        (FindsBucket littleEndian q (.general data strategy priobits prioptr) ↔
          (q.prioqOf pos).Findable bits words) := by
  have hargs := hok.argsOk littleEndian
  cases strategy with
  | fifo | lifo =>
    obtain ⟨q1, hq1, rfl⟩ := counted_eq_ok heq
    exact .inl ⟨q1, hq1, rfl, rfl, trivial⟩
  | ififo | ilifo | bfifo | blifo | llifo =>
    obtain ⟨q1, hq1, rfl⟩ := counted_eq_ok heq
    exact .inr ⟨_, _, _, q1, hargs, hq1, rfl, rfl, Iff.rfl⟩
  | lfifo =>
    obtain ⟨hbits, -⟩ : priobits = 64 ∧ 2 ≤ prioptr.length := hok
    rw [Queue.enqueueGeneral, if_neg (not_not.mpr hbits)] at heq
    obtain ⟨q1, hq1, rfl⟩ := counted_eq_ok heq
    exact .inr ⟨_, _, _, q1, hargs, hq1, rfl, rfl, Iff.rfl⟩

theorem ShowsInv.enqueueGeneral (h : ShowsInv q L) (hok : CallOk strategy priobits prioptr)
    (hfind : FindsBucket littleEndian q (.general data strategy priobits prioptr))
    (heq : Queue.enqueueGeneral littleEndian q data strategy priobits prioptr = .ok q') :
    ShowsInv q'
      (putEntry L strategy.isLifo (entryOf littleEndian data strategy priobits prioptr)) := by
  rcases enqueueGeneral_cases hok heq with
    ⟨q1, hq1, rfl, hentry, -⟩ | ⟨pos, bits, words, q1, hargs, hq1, rfl, hentry, hiff⟩
  · rw [hentry]
    exact h.enqueueZero hq1
  · rw [hentry]
    exact h.enqueuePrio hargs (hiff.mp hfind) hq1

/-- The two heaps have one bucket for each priority. -/
def Queue.NoDup (q : Queue α) : Prop := q.negprioq.NoDup ∧ q.posprioq.NoDup

theorem ShowsInv.noDup (h : ShowsInv q L) : q.NoDup :=
  ⟨h.lists.neg.noDup, h.lists.pos.noDup⟩

theorem ShowsInv.findsBucket_of_noDup (h : ShowsInv q L) (hok : CallOk strategy priobits prioptr)
    (heq : Queue.enqueueGeneral littleEndian q data strategy priobits prioptr = .ok q')
    (hnd : q'.NoDup) : FindsBucket littleEndian q (.general data strategy priobits prioptr) := by
  rcases enqueueGeneral_cases hok heq with
    ⟨q1, -, -, -, hfind⟩ | ⟨pos, bits, words, q1, hargs, hq1, rfl, -, hiff⟩
  · exact hfind
  · rw [hiff]
    cases pos with
    | false =>
      obtain ⟨pq, hpq, rfl⟩ := Option.map_eq_some_iff.mp hq1
      obtain ⟨chains, hinv⟩ := h.negInv
      exact (Prioq.enqueue_noDup_iff hinv h.lists.neg.noDup hargs (Prioq.enqOf_ok _) hpq).mp hnd.1
    | true =>
      obtain ⟨pq, hpq, rfl⟩ := Option.map_eq_some_iff.mp hq1
      obtain ⟨chains, hinv⟩ := h.posInv
      exact (Prioq.enqueue_noDup_iff hinv h.lists.pos.noDup hargs (Prioq.enqOf_ok _) hpq).mp hnd.2

theorem ShowsInv.dequeue (littleEndian : Bool) (h : ShowsInv q L) :
    ∃ L', (lanes α littleEndian).step L (.dequeue q.dequeue.1) L' ∧ ShowsInv q.dequeue.2 L' := by
  unfold Queue.dequeue
  by_cases hlen : q.length = 0
  · rw [if_pos hlen]
    exact ⟨L, rfl, h⟩
  rw [if_neg hlen]
  -- the three queues are asked in their order
  by_cases hneg : q.negprioq.heapNext > 1
  · rw [if_pos hneg]
    obtain ⟨chains, hinv⟩ := h.negInv
    obtain ⟨hinv', hfull', -⟩ := Prioq.dequeue_entries hinv h.negFull (by omega)
    obtain ⟨p, m, rest, hlane, hm, hl⟩ := h.lists.neg.dequeue hinv h.negFull (by omega)
    rw [hm]
    exact ⟨_, ⟨.neg, p, rest, hlane, rfl⟩, ⟨hl, h.lists.zero, h.lists.pos⟩, hinv', hfull', h.zeroWf,
      h.posInv, h.posFull⟩
  rw [if_neg hneg]
  by_cases hzero : q.zeroprio.head ≠ q.zeroprio.tail
  · rw [if_pos hzero]
    have hcons : q.zeroprio.content ≠ [] :=
      fun hnil => hzero ((Deq.content_eq_nil_iff h.zeroWf).mp hnil)
    obtain ⟨m, rest, hc⟩ := exists_cons_of_ne_nil hcons
    obtain ⟨hm, hwf, hrest⟩ := Deq.dequeue_cons h.zeroWf hc
    have hlane := h.lists.zero
    rw [hc] at hlane
    obtain ⟨m', rest', hsplit, rfl, rfl⟩ := map_eq_cons_iff.mp hlane.symm
    rw [hm]
    refine ⟨_, ⟨.zero, Prioq.askedPrio 0 [], rest', hsplit, rfl⟩, ⟨h.lists.neg, ?_, h.lists.pos⟩,
      h.negInv, h.negFull, hwf, h.posInv, h.posFull⟩
    simp [setLane, hrest]
  rw [if_neg hzero]
  by_cases hposq : q.posprioq.heapNext > 1
  · rw [if_pos hposq]
    obtain ⟨chains, hinv⟩ := h.posInv
    obtain ⟨hinv', hfull', -⟩ := Prioq.dequeue_entries hinv h.posFull (by omega)
    obtain ⟨p, m, rest, hlane, hm, hl⟩ := h.lists.pos.dequeue hinv h.posFull (by omega)
    rw [hm]
    exact ⟨_, ⟨.pos, p, rest, hlane, rfl⟩, ⟨h.lists.neg, h.lists.zero, hl⟩, h.negInv, h.negFull,
      h.zeroWf, hinv', hfull'⟩
  · rw [if_neg hposq]
    exact ⟨L, rfl, h⟩

theorem findingQueue_simulate {l : List (Event α)} (h : (findingQueue α littleEndian).Trace l q) :
    ∃ L, (lanes α littleEndian).Trace l L ∧ ShowsInv q L := by
  refine h.simulate ?_ ?_
  · rintro q rfl
    exact ⟨_, rfl, ShowsInv.create⟩
  · rintro q e q' L hrep ⟨⟨hok, hfind⟩, hstep⟩
    cases e with
    | general data strategy priobits prioptr => exact ⟨_, rfl, hrep.enqueueGeneral hok hfind hstep⟩
    | fifo data =>
      obtain ⟨q1, hq1, rfl⟩ := counted_eq_ok hstep
      have hfifo : q.enqueueZero (Prioq.enqOf false) data = some q1 := hq1
      exact ⟨_, rfl, hrep.enqueueZero hfifo⟩
    | lifo data =>
      obtain ⟨q1, hq1, rfl⟩ := counted_eq_ok hstep
      have hlifo : q.enqueueZero (Prioq.enqOf true) data = some q1 := hq1
      exact ⟨_, rfl, hrep.enqueueZero hlifo⟩
    | dequeue result =>
      have heq : q.dequeue = (result, q') := hstep
      obtain ⟨L', hstep', hrep'⟩ := hrep.dequeue littleEndian
      rw [heq] at hstep' hrep'
      exact ⟨L', hstep', hrep'⟩

/-- **Equal priorities keep their order** in every run in which no lookup misses a
bucket; the next call leaves one bucket for each priority only if it does not miss one
either; and it returns if it leaves fewer than 2 ^ 30 messages. -/
theorem equal_priorities_one_list {l : List (Event α)} {q : Queue α}
    (h : (findingQueue α littleEndian).Trace l q) :
    (q.NoDup ∧ ∃ L, (lanes α littleEndian).Trace l L ∧ Shows q L) ∧
      (∀ e q', e.Ok → (queueSystem α littleEndian).step q e q' →
        (q'.NoDup ↔ FindsBucket littleEndian q e)) ∧
      ∀ e : Event α, e.Ok → (∀ result, e = .dequeue result → result = q.dequeue.1) →
        q.length + e.added.card < 2 ^ 30 → ∃ q', (queueSystem α littleEndian).step q e q' := by
  obtain ⟨L, htrace, hrep⟩ := findingQueue_simulate h
  refine ⟨⟨hrep.noDup, L, htrace, hrep.lists⟩, fun e q' hok hstep => ?_, fun e hok he hroom => ?_⟩
  · constructor
    · intro hnd
      cases e with
      | general data strategy priobits prioptr => exact hrep.findsBucket_of_noDup hok hstep hnd
      | fifo data => exact trivial
      | lifo data => exact trivial
      | dequeue result => exact trivial
    · intro hfind
      obtain ⟨L', -, hrep'⟩ := findingQueue_simulate (h.step ⟨⟨hok, hfind⟩, hstep⟩)
      exact hrep'.noDup
  · have hproper : ∃ q1, (properQueue α littleEndian).Trace l q1 ∧ q = q1 := by
      refine h.simulate (A := properQueue α littleEndian) (R := Eq) ?_ ?_
      · exact fun q hq => ⟨q, hq, rfl⟩
      · rintro q e q' _ rfl ⟨⟨hok, -⟩, hstep⟩
        exact ⟨q', ⟨hok, hstep⟩, rfl⟩
    obtain ⟨q1, hproper, rfl⟩ := hproper
    obtain ⟨M, -, hsim⟩ := properQueue_simulate hproper
    exact hsim.step littleEndian (hsim.length ▸ hroom) hok he

/-- Two messages of priority 5, the second in front. -/
def sameCalls : List (Event Nat) :=
  [.general 7 .ififo 32 [5#32], .general 8 .ilifo 32 [5#32], .dequeue (some 8)]

theorem equal_priorities_one_list_sameCalls :
    ∃ q, (findingQueue Nat true).Trace sameCalls q ∧ q.enumerate = [some 7] ∧
      ∃ L, (lanes Nat true).Trace sameCalls L ∧ Shows q L := by
  have htrace : ∃ q, (findingQueue Nat true).Trace sameCalls q ∧ q.enumerate = [some 7] := by
    have hok : ∀ {s : Strategy}, s = .ififo ∨ s = .ilifo → CallOk s 32 [5#32] := by
      rintro s (rfl | rfl) <;> decide
    have hfind : ∀ {pq : Prioq Nat} {chains : Nat → List Nat}, pq.Inv chains →
        pq.hashKeySize = prioqTabSize → pq.Findable 32 [iprio [5#32]] :=
      fun hinv hsize => Prioq.findable_of_hashKeySize hinv hsize
    have h0 : (findingQueue Nat true).Trace [] Queue.create := .init rfl
    have h1 := h0.step (e := Event.general 7 .ififo 32 [5#32])
      ⟨⟨hok (.inl rfl), hfind Prioq.init_inv rfl⟩, rfl⟩
    obtain ⟨L, -, hrep⟩ := findingQueue_simulate h1
    obtain ⟨chains, hinv⟩ := hrep.posInv
    have h2 := h1.step (e := Event.general 8 .ilifo 32 [5#32])
      ⟨⟨hok (.inr rfl), hfind hinv rfl⟩, rfl⟩
    have h3 := h2.step (e := Event.dequeue (some 8)) ⟨⟨trivial, trivial⟩, Prod.ext rfl rfl⟩
    exact ⟨_, h3, rfl⟩
  obtain ⟨q, htrace, henum⟩ := htrace
  obtain ⟨⟨-, L, hlanes, hshows⟩, -⟩ := equal_priorities_one_list htrace
  exact ⟨q, htrace, henum, L, hlanes, hshows⟩

/-! ### The lost bucket -/

namespace Prioq

variable {α : Type} {pq pq' : Prioq α} {chains : Nat → List Nat} {priobits : Nat}
  {prioptr : List Word} {enq : Deq α → Option α → Option (Deq α)} {msg : Option α} {k : Nat}

theorem enqueue_rehash_place (h : pq.Inv chains)
    (hargs : ArgsOk priobits prioptr) (henq : EnqOk enq)
    (hres : pq.enqueue enq priobits prioptr msg = some pq')
    (hfresh : ∀ e ∈ pq.elts, pq.pri e ≠ askedPrio priobits prioptr)
    (hgrow : 2 * pq.hashKeySize < pq.hashEntrySize + 1) {i pe : Nat} (hi : i < pq.hashKeySize * 2)
    (hon : pq'.links.On i pe) : pq'.hashOf pe % (pq.hashKeySize * 2) = i := by
  obtain ⟨chains', -, hcase⟩ := enqueue_cases h hargs henq hres
  rcases hcase with ⟨pe', d, -, hmem, hpri, -⟩ | ⟨d, -, hnew, -, -, hpri, -, hlinks, -⟩
  · exact absurd hpri (hfresh pe' hmem)
  · have hindex : lookupIndex priobits prioptr =
        hashval (newPrio priobits prioptr).bits (newPrio priobits prioptr).words %
          prioqTabSize := by
      rw [newPrio_eq hargs, (askedPrio_ok hargs).words_eq]
      rfl
    have htable := h.table.insert hnew (newPrio priobits prioptr) hindex Deq.init (pq.nextElt + 1)
    obtain ⟨chains'', hok, hplace⟩ := htable.rehash
    unfold hashBucket at hlinks
    rw [if_pos hgrow] at hlinks
    rw [hlinks, hok.ok.on_iff hi, hplace] at hon
    rw [← hon.2]
    simp only [hashOf, hpri, newPrio_eq hargs]

theorem enqueue_hashKeySize (h : pq.Inv chains)
    (hargs : ArgsOk priobits prioptr) (henq : EnqOk enq)
    (hres : pq.enqueue enq priobits prioptr msg = some pq')
    (hroom : pq.hashEntrySize + 1 ≤ 2 * pq.hashKeySize) : pq'.hashKeySize = pq.hashKeySize := by
  obtain ⟨-, -, hcase⟩ := enqueue_cases h hargs henq hres
  rcases hcase with ⟨pe, d, -, -, -, -, heq⟩ | ⟨d, -, -, -, -, -, -, -, hkey⟩
  · rw [heq]
  · rw [hkey]
    unfold hashBucket
    rw [if_neg (not_lt.mpr hroom)]

/-- The biased priorities of the fixed run. -/
def runWord (k : Nat) : Word := iprio [BitVec.ofNat 32 (1024 + k)]

theorem toNat_runWord (hk : k ≤ 2035) : (runWord k).toNat = 1024 + k + 2147483648 := by
  have hlow : (BitVec.ofNat 32 (1024 + k)).toNat = 1024 + k := by
    exact Nat.mod_eq_of_lt (by omega)
  have hbias : (0x80000000#32 : Word).toNat = 2147483648 := by decide
  have hsum : runWord k = BitVec.ofNat 32 (1024 + k) + 0x80000000#32 := rfl
  rw [hsum, BitVec.toNat_add, hlow]
  exact Nat.mod_eq_of_lt (by omega)

theorem runWord_inj {j : Nat} (hj : j ≤ 2035) (hk : k ≤ 2035)
    (h : askedPrio 32 [runWord j] = askedPrio 32 [runWord k]) : j = k := by
  have hword : runWord j = runWord k := by
    simpa [askedPrio] using h
  have hnat := congrArg BitVec.toNat hword
  rw [toNat_runWord hj, toNat_runWord hk] at hnat
  omega

/-- The priority queue after the first `k` enqueues. -/
def fill : Nat → Option (Prioq Nat)
  | 0 => some init
  | k + 1 => (fill k).bind fun pq => pq.enqueue (enqOf false) 32 [runWord k] (some k)

/-- The invariant of these enqueues, before the last of them doubles the table. -/
structure Filled (k : Nat) (pq : Prioq Nat) : Prop where
  inv : ∃ chains, pq.Inv chains
  full : pq.Full
  entries : pq.entries.card = k
  noDup : pq.NoDup
  card : pq.elts.card = k
  pri : ∀ e ∈ pq.elts, ∃ j, j < k ∧ pq.pri e = askedPrio 32 [runWord j]
  first : 1 ≤ k → ∃ e ∈ pq.elts, pq.pri e = askedPrio 32 [runWord 0]

theorem runArgs (k : Nat) : ArgsOk 32 [runWord k] := ⟨by decide, le_refl 1⟩

theorem Filled.fresh {pq : Prioq Nat} (h : Filled k pq) (hk : k ≤ 2035) :
    ∀ e ∈ pq.elts, pq.pri e ≠ askedPrio 32 [runWord k] := by
  intro e he heq
  obtain ⟨j, hj, hpri⟩ := h.pri e he
  have hjk := runWord_inj (by omega) hk (hpri.symm.trans heq)
  omega

theorem Filled.room {pq : Prioq Nat} (h : Filled k pq) (hk : k ≤ 2035) (j : Nat)
    (msg : Option Nat) :
    ∃ pq', pq.enqueue (enqOf false) 32 [runWord j] msg = some pq' := by
  obtain ⟨chains, hinv⟩ := h.inv
  refine enqueue_room hinv (runArgs j) (enqOf_ok false) (fun pe hpe => ?_) msg
  have hle := length_le_card_entries hpe
  rw [h.entries] at hle
  omega

theorem Filled.succ {pq pq' : Prioq Nat} (h : Filled k pq) (hk : k ≤ 2035)
    (hres : pq.enqueue (enqOf false) 32 [runWord k] (some k) = some pq') : Filled (k + 1) pq' := by
  obtain ⟨chains, hinv⟩ := h.inv
  obtain ⟨chains', hinv', hcase⟩ := enqueue_cases hinv (runArgs k) (enqOf_ok false) hres
  obtain ⟨-, hfull, hentries⟩ := enqueue_entries hinv h.full (runArgs k) (enqOf_ok false) hres
  have hcount : pq'.entries.card = k + 1 := by rw [hentries, Multiset.card_cons, h.entries]
  have hnd : pq'.NoDup := by
    rw [enqueue_noDup_iff hinv h.noDup (runArgs k) (enqOf_ok false) hres]
    intro e he hpri
    exact absurd hpri (h.fresh hk e he)
  rcases hcase with ⟨pe, d, -, hmem, hpri, -⟩ | ⟨d, -, hnew, -, helts, hpri, -⟩
  · exact absurd hpri (h.fresh hk pe hmem)
  · have hold : ∀ e ∈ pq.elts, e ≠ pq.nextElt := fun e he heq => hnew (heq ▸ he)
    refine ⟨⟨chains', hinv'⟩, hfull, hcount, hnd, ?_, ?_, ?_⟩
    · rw [helts, Multiset.card_cons, h.card]
    · intro e he
      rw [helts] at he
      rw [hpri]
      rcases mem_cons.mp he with rfl | he
      · exact ⟨k, Nat.lt_succ_self k, update_self _ _ _⟩
      · obtain ⟨j, hj, hpe⟩ := h.pri e he
        exact ⟨j, by omega, by rw [update_of_ne (hold e he), hpe]⟩
    · intro _
      rw [helts, hpri]
      by_cases hzero : k = 0
      · subst hzero
        exact ⟨pq.nextElt, Multiset.mem_cons_self _ _, update_self _ _ _⟩
      · obtain ⟨e, he, hpe⟩ := h.first (by omega)
        exact ⟨e, Multiset.mem_cons_of_mem he, by rw [update_of_ne (hold e he), hpe]⟩

theorem fill_filled : ∀ {k : Nat}, k ≤ 2036 → ∃ pq, fill k = some pq ∧ Filled k pq := by
  intro k
  induction k with
  | zero =>
    intro _
    refine ⟨init, rfl, ⟨_, init_inv⟩, ?_, rfl, init_lanes.noDup, ?_, ?_, fun h =>
      absurd h (by decide)⟩
    · exact fun e he => absurd he (Multiset.notMem_zero e)
    · show (init : Prioq Nat).elts.card = 0
      rfl
    · intro e he
      exact absurd he (Multiset.notMem_zero e)
  | succ k ih =>
    intro _
    obtain ⟨pq, hpq, hfilled⟩ := ih (by omega)
    obtain ⟨pq', hres⟩ := hfilled.room (by omega) k (some k)
    exact ⟨pq', by rw [fill, hpq]; exact hres, hfilled.succ (by omega) hres⟩

theorem fill_hashKeySize : ∀ {k : Nat} {pq : Prioq Nat}, k ≤ 2034 → fill k = some pq →
    pq.hashKeySize = prioqTabSize := by
  intro k
  induction k with
  | zero =>
    intro pq _ hpq
    obtain rfl := Option.some.inj hpq
    rfl
  | succ k ih =>
    intro pq' _ hpq'
    obtain ⟨pq, hpq, hfilled⟩ := fill_filled (k := k) (by omega)
    rw [fill, hpq] at hpq'
    obtain ⟨chains, hinv⟩ := hfilled.inv
    have hcount : pq.hashEntrySize = k := hinv.table.count.trans hfilled.card
    have hsize := ih (by omega) hpq
    rw [enqueue_hashKeySize hinv (runArgs k) (enqOf_ok false) hpq', hsize]
    rw [hcount, hsize]
    show k + 1 ≤ 2 * 1017
    omega

/-- **The bucket of the first priority is lost**: it hangs on chain 1056, the lookup
scans chain 39. -/
theorem fill_not_findable {pq' : Prioq Nat} (hpq' : fill 2035 = some pq') :
    ¬ pq'.Findable 32 [runWord 0] := by
  intro hfind
  obtain ⟨pq, hpq, hfilled⟩ := fill_filled (k := 2034) (by omega)
  have hres : pq.enqueue (enqOf false) 32 [runWord 2034] (some 2034) = some pq' := by
    rw [fill, hpq] at hpq'
    exact hpq'
  obtain ⟨e, he, hpri⟩ := (hfilled.succ (by omega) hres).first (by omega)
  obtain ⟨chains, hinv⟩ := hfilled.inv
  have hsize : pq.hashKeySize = 1017 := fill_hashKeySize (by omega) hpq
  have hcount : pq.hashEntrySize = 2034 := hinv.table.count.trans hfilled.card
  have hplace := enqueue_rehash_place hinv (runArgs 2034) (enqOf_ok false) hres
    (hfilled.fresh (by omega)) (by omega) (by rw [hsize]; decide) (hfind e he hpri)
  have hhash : pq'.hashOf e = 1056 := by
    rw [hashOf, hpri]
    decide
  rw [hsize, hhash] at hplace
  exact absurd hplace (by decide)

theorem lookup_eq_none (h : pq.Inv chains) (hnd : pq.NoDup) (hargs : ArgsOk priobits prioptr)
    (hfind : ¬ pq.Findable priobits prioptr) : pq.lookup priobits prioptr = none := by
  cases hl : pq.lookup priobits prioptr with
  | none => rfl
  | some pe =>
    rw [lookup_eq h hargs] at hl
    have hchain := mem_of_find?_eq_some hl
    have hpri : pq.pri pe = askedPrio priobits prioptr := by
      simpa using find?_some hl
    have hmem : pe ∈ pq.elts := (h.table.listed pe).mp ⟨_, lookupIndex_lt h, hchain⟩
    refine absurd ?_ hfind
    rw [findable_iff h]
    intro pe' hpe' hpri'
    rwa [hnd.inj hpe' hmem (hpri'.trans hpri.symm)]

theorem heapBucket_heap (pq : Prioq α) (pe : Nat) :
    (pq.heapBucket pe).heap = siftUp pq.gt pe pq.heapNext pq.heap pq.heapNext ∧
      (pq.heapBucket pe).heapNext = pq.heapNext + 1 := by
  unfold heapBucket
  dsimp only
  split
  · exact ⟨rfl, rfl⟩
  · exact ⟨rfl, rfl⟩

/-- A new bucket of a priority that is not greater than any comes first, before older
ones of the same priority too. -/
theorem enqueue_first (h : pq.Inv chains)
    (hargs : ArgsOk priobits prioptr) (hl : pq.lookup priobits prioptr = none)
    (hleast : ∀ e ∈ pq.elts, prioGT (askedPrio priobits prioptr) (pq.pri e) = false) {d : Deq α}
    (hd : enq Deq.init msg = some d) (hres : pq.enqueue enq priobits prioptr msg = some pq') :
    pq'.dequeue.1 = d.dequeue.1 := by
  obtain ⟨hheap, hnext, -, -, hpri, hdata⟩ := hashBucket_frame pq priobits prioptr
  obtain ⟨pq2, -, hadd, -, -, -, hdata', -⟩ := addBucket_spec h hargs
  obtain ⟨hheap', hnext'⟩ := heapBucket_heap (pq.hashBucket priobits prioptr) pq.nextElt
  have hpos := h.heapNext_pos
  have hnew : pq.nextElt ∉ pq.elts := fun hmem => lt_irrefl _ (h.fresh _ hmem)
  rw [← hadd] at hdata'
  set pq1 := (pq.hashBucket priobits prioptr).heapBucket pq.nextElt with hpq1
  have hd' : enq (pq1.data pq.nextElt) msg = some d := by rw [hdata', update_self, hd]
  have heq : pq' = { pq1 with data := update pq1.data pq.nextElt d } := by
    simp only [enqueue, getDeq, hl, ← hpq1, hd', Option.map_some] at hres
    exact (Option.some.inj hres).symm
  have htop : pq1.heap 1 = pq.nextElt := by
    rw [hheap', hnext, hheap]
    refine siftUp_one _ _ _ (by omega) hpos ?_
    intro i hi hlt
    have hmem : pq.heap i ∈ pq.elts := mem_heapContent.mpr ⟨i, hi, hlt, rfl⟩
    have hne : pq.heap i ≠ pq.nextElt := fun heq' => hnew (heq' ▸ hmem)
    simp only [gt, hpri, update_self, update_of_ne hne]
    rw [newPrio_eq hargs]
    exact hleast _ hmem
  rw [heq, dequeue_fst]
  · dsimp only
    rw [htop, update_self]
  · show pq1.heapNext ≠ 1
    omega

/-- **After the second enqueue of the first priority** there are two buckets of it. -/
theorem split_spec {pq : Prioq Nat} (hpq : fill 2035 = some pq) :
    ∃ pq', pq.enqueue (enqOf false) 32 [runWord 0] (some 5000) = some pq' ∧ ¬ pq'.NoDup ∧
      (∃ chains, pq'.Inv chains) ∧ pq'.dequeue.1 = some 5000 := by
  obtain ⟨pq1, hpq1, hfilled⟩ := fill_filled (k := 2035) (by omega)
  obtain rfl := Option.some.inj (hpq.symm.trans hpq1)
  obtain ⟨chains, hinv⟩ := hfilled.inv
  obtain ⟨pq', hres⟩ := hfilled.room (by omega) 0 (some 5000)
  obtain ⟨chains', hinv', -⟩ := enqueue_cases hinv (runArgs 0) (enqOf_ok false) hres
  refine ⟨pq', hres, ?_, ⟨chains', hinv'⟩, ?_⟩
  · rw [enqueue_noDup_iff hinv hfilled.noDup (runArgs 0) (enqOf_ok false) hres]
    exact fill_not_findable hpq
  · have hl := lookup_eq_none hinv hfilled.noDup (runArgs 0) (fill_not_findable hpq)
    rw [enqueue_first hinv (runArgs 0) hl (fun e he => ?_) rfl hres]
    · rfl
    · obtain ⟨j, hj, hpri⟩ := hfilled.pri e he
      rw [hpri, Bool.eq_false_iff]
      intro hgt
      rw [prioGT_iprio, BitVec.lt_def, toNat_runWord (by omega), toNat_runWord (by omega)] at hgt
      omega

end Prioq

/-- An enqueue of message `m` with integer priority `1024 + k`. -/
def runCall (m k : Nat) : Event Nat := .general m .ififo 32 [BitVec.ofNat 32 (1024 + k)]

/-- `k` enqueues with different priorities. -/
def runCalls (k : Nat) : List (Event Nat) := (List.range k).map (fun j => runCall j j)

theorem runCalls_succ (k : Nat) : runCalls (k + 1) = runCalls k ++ [runCall k k] := by
  simp [runCalls, range_succ]

theorem runCall_ok (m k : Nat) : (runCall m k).Ok := le_refl 1

theorem msb_runWord {k : Nat} (hk : k ≤ 2035) :
    (iprio [BitVec.ofNat 32 (1024 + k)]).msb = true := by
  rw [BitVec.msb_eq_decide, decide_eq_true_eq]
  have hnat := Prioq.toNat_runWord hk
  rw [Prioq.runWord] at hnat
  show 2147483648 ≤ _
  omega

/-- Only `posprioq` is in use. -/
structure OnlyPos (q : Queue Nat) (pq : Prioq Nat) (k : Nat) : Prop where
  pos : q.posprioq = pq
  neg : q.negprioq = Prioq.init
  zero : q.zeroprio = Deq.init
  length : q.length = k

theorem OnlyPos.runCall {q : Queue Nat} {pq pq' : Prioq Nat} {n : Nat}
    (h : OnlyPos q pq n) {m k : Nat}
    (hk : k ≤ 2035)
    (hres : pq.enqueue (Prioq.enqOf false) 32 [Prioq.runWord k] (some m) = some pq') :
    ∃ q', (queueSystem Nat true).step q (runCall m k) q' ∧ OnlyPos q' pq' (n + 1) := by
  have henq : q.enqueueInt Deq.enqueueFifo [BitVec.ofNat 32 (1024 + k)] m =
      some { q with posprioq := pq' } := by
    rw [Queue.enqueueInt, msb_runWord hk, Queue.enqueuePrio, if_pos rfl, h.pos]
    exact congrArg (Option.map _) hres
  exact ⟨_, congrArg Queue.counted henq, rfl, h.neg, h.zero, congrArg (· + 1) h.length⟩

theorem runCalls_trace : ∀ {k : Nat}, k ≤ 2035 → ∃ q pq,
    (properQueue Nat true).Trace (runCalls k) q ∧ Prioq.fill k = some pq ∧ OnlyPos q pq k := by
  intro k
  induction k with
  | zero =>
    intro _
    exact ⟨Queue.create, Prioq.init, .init rfl, rfl, rfl, rfl, rfl, rfl⟩
  | succ k ih =>
    intro _
    obtain ⟨q, pq, htrace, hpq, hq⟩ := ih (by omega)
    obtain ⟨pq1, hpq1, hfilled⟩ := Prioq.fill_filled (k := k) (by omega)
    obtain rfl := Option.some.inj (hpq.symm.trans hpq1)
    obtain ⟨pq', hres⟩ := hfilled.room (by omega) k (some k)
    obtain ⟨q', hstep, hq'⟩ := hq.runCall (by omega) hres
    rw [runCalls_succ]
    exact ⟨q', pq', htrace.step ⟨runCall_ok k k, hstep⟩, by rw [Prioq.fill, hpq]; exact hres, hq'⟩

theorem lanes_runCalls : ∀ {k : Nat} {L : Side → Prio → List Nat}, k ≤ 2035 →
    (lanes Nat true).Trace (runCalls k) L → (∀ side p, ∀ m ∈ L side p, m < k) ∧
      (1 ≤ k → ∃ rest, L .pos (Prioq.askedPrio 32 [Prioq.runWord 0]) = 0 :: rest) := by
  intro k
  induction k with
  | zero =>
    intro L _ h
    obtain rfl : L = _ := h.of_nil
    exact ⟨fun _ _ m hm => absurd hm (by simp), fun h => absurd h (by decide)⟩
  | succ k ih =>
    intro L _ h
    rw [runCalls_succ] at h
    obtain ⟨L0, htrace, hstep⟩ := h.of_append
    obtain ⟨hlt, hfront⟩ := ih (by omega) htrace
    have hside : sideOf (iprio [BitVec.ofNat 32 (1024 + k)]).msb = .pos := by
      rw [msb_runWord (by omega)]
      rfl
    have hL : L = setLane L0 .pos (Prioq.askedPrio 32 [Prioq.runWord k])
        (L0 .pos (Prioq.askedPrio 32 [Prioq.runWord k]) ++ [k]) := by
      rw [← hside]
      exact hstep
    refine ⟨?_, ?_⟩
    · intro side p m hm
      by_cases hs : side = .pos
      · subst hs
        by_cases hp : p = Prioq.askedPrio 32 [Prioq.runWord k]
        · subst hp
          rw [hL, setLane, update_self, update_self] at hm
          rcases mem_append.mp hm with hm | hm
          · have := hlt _ _ m hm
            omega
          · have := mem_singleton.mp hm
            omega
        · rw [hL, setLane, update_self, update_of_ne hp] at hm
          have := hlt _ _ m hm
          omega
      · rw [hL, setLane, update_of_ne hs] at hm
        have := hlt _ _ m hm
        omega
    · intro _
      rw [hL, setLane, update_self]
      by_cases hzero : k = 0
      · subst hzero
        have hnil : L0 .pos (Prioq.askedPrio 32 [Prioq.runWord 0]) = [] :=
          eq_nil_iff_forall_not_mem.mpr fun m hm => Nat.not_lt_zero m (hlt _ _ m hm)
        exact ⟨[], by rw [hnil]; rfl⟩
      · have hp : Prioq.askedPrio 32 [Prioq.runWord 0] ≠ Prioq.askedPrio 32 [Prioq.runWord k] :=
          fun heq => hzero (Prioq.runWord_inj (by omega) (by omega) heq).symm
        rw [update_of_ne hp]
        exact hfront (by omega)

/-- The failing run: 2035 priorities, then the first of them again. -/
def splitCalls : List (Event Nat) := runCalls 2035 ++ [runCall 5000 0]

/-- **A second bucket for one priority.** Message 0 and message 5000 are enqueued FIFO
with priority 1024; message 5000 is in a bucket of its own and is dequeued first,
which the double-ended lists do not allow. -/
theorem rehash_splits_priority :
    ∃ q q', (properQueue Nat true).Trace splitCalls q ∧ ¬ q.NoDup ∧ q.dequeue = (some 5000, q') ∧
      ¬ ∃ L, (lanes Nat true).Trace (splitCalls ++ [.dequeue (some 5000)]) L := by
  obtain ⟨q0, pq0, htrace, hfill, hq0⟩ := runCalls_trace (le_refl 2035)
  obtain ⟨split, hres, hsplit, ⟨chains, hinv⟩, hdequeue⟩ := Prioq.split_spec hfill
  obtain ⟨q, hstep, hq⟩ := hq0.runCall (Nat.zero_le 2035) hres
  have hpos : q.posprioq = split := hq.pos
  refine ⟨q, q.dequeue.2, htrace.step ⟨runCall_ok 5000 0, hstep⟩, ?_, ?_, ?_⟩
  · intro hnd
    have hnd' := hnd.2
    rw [hpos] at hnd'
    exact hsplit hnd'
  · have hne : split.heapNext ≠ 1 := by
      intro hone
      have hnone : split.dequeue.1 = none := by
        unfold Prioq.dequeue
        rw [if_pos hone]
      rw [hdequeue] at hnone
      exact absurd hnone (by decide)
    have hone := hinv.heapNext_pos
    have hlen : ¬ q.length = 0 := by
      rw [hq.length]
      exact Nat.succ_ne_zero _
    have hneg : ¬ q.negprioq.heapNext > 1 := by
      rw [hq.neg]
      decide
    have hzero : ¬ q.zeroprio.head ≠ q.zeroprio.tail := by
      rw [hq.zero]
      decide
    have hgt : q.posprioq.heapNext > 1 := by
      rw [hpos]
      omega
    refine Prod.ext ?_ rfl
    unfold Queue.dequeue
    rw [if_neg hlen, if_neg hneg, if_neg hzero, if_pos hgt]
    dsimp only
    rw [hpos]
    exact hdequeue
  · rintro ⟨L, h⟩
    obtain ⟨L2, h2, hdeq⟩ := h.of_append
    obtain ⟨L1, h1, henq⟩ := h2.of_append
    obtain ⟨hlt, hfront⟩ := lanes_runCalls (le_refl 2035) h1
    obtain ⟨rest, hrest⟩ := hfront (by omega)
    have hL2 : L2 = setLane L1 .pos (Prioq.askedPrio 32 [Prioq.runWord 0])
        (L1 .pos (Prioq.askedPrio 32 [Prioq.runWord 0]) ++ [5000]) := henq
    obtain ⟨side, p, rest', hlane, -⟩ := hdeq
    rw [hL2, setLane] at hlane
    by_cases hs : side = .pos
    · subst hs
      rw [update_self] at hlane
      by_cases hp : p = Prioq.askedPrio 32 [Prioq.runWord 0]
      · subst hp
        rw [hrest] at hlane
        exact absurd (cons.inj hlane).1 (by decide)
      · rw [update_of_ne hp] at hlane
        have := hlt .pos p 5000 (hlane ▸ mem_cons_self)
        omega
    · rw [update_of_ne hs] at hlane
      have := hlt side p 5000 (hlane ▸ mem_cons_self)
      omega

end CharmRuntime.Queueing
