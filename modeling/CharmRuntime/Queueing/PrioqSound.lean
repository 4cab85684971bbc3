import Mathlib.Data.List.Find
import CharmRuntime.Queueing.Prioq

/-!
# Queueing.PrioqSound

**The priority queue is a multiset of messages with priorities**, from which
`dequeue` takes one of least priority.

The two structures over the buckets are kept apart: `Table` is about the hash
table, the rest of `Inv` about the heap. The table may be wrong about where a
bucket is to be looked for (a rehashed bucket hangs on the chain of the larger
table, the lookup goes by the initial size, see `Queueing.EqualPrio`); nothing
here depends on it.
-/

namespace CharmRuntime.Queueing

open Lib Function List
open Multiset (card_cons coe_add cons_add cons_bind mem_coe)

/-! ### The order of priorities -/

theorem prioGTWords_asymm :
    ∀ {a b : List Word}, prioGTWords a b = true → prioGTWords b a = false := by
  intro a
  induction a with
  | nil =>
    intro b h
    simp [prioGTWords] at h
  | cons x a ih =>
    intro b h
    cases b with
    | nil => rfl
    | cons y b =>
      rw [prioGTWords] at h ⊢
      by_cases hlt : x < y
      · simp [hlt] at h
      · rw [if_neg hlt] at h
        by_cases hgt : y < x
        · simp [hgt]
        · rw [if_neg hgt] at h
          rw [if_neg hgt, if_neg hlt]
          exact ih h

theorem prioGTWords_trans : ∀ {a b c : List Word}, prioGTWords a b = false →
    prioGTWords b c = false → prioGTWords a c = false := by
  intro a
  induction a with
  | nil => intro b c _ _; rfl
  | cons x a ih =>
    intro b c hab hbc
    cases b with
    | nil => simp [prioGTWords] at hab
    | cons y b =>
      cases c with
      | nil => simp [prioGTWords] at hbc
      | cons z c =>
        rw [prioGTWords] at hab hbc ⊢
        rcases BitVec.lt_trichotomy x y with hxy | hxy | hxy
        · -- the first word decides already
          have hyz : y ≤ z := by
            by_cases hzy : z < y
            · have hnot : ¬ y < z := BitVec.not_lt.mpr (BitVec.le_of_lt hzy)
              simp [hnot, hzy] at hbc
            · exact BitVec.not_lt.mp hzy
          have hxz : x < z := Nat.lt_of_lt_of_le hxy hyz
          rw [if_pos hxz]
        · subst hxy
          rw [if_neg (BitVec.lt_irrefl x), if_neg (BitVec.lt_irrefl x)] at hab
          by_cases hxz : x < z
          · rw [if_pos hxz]
          · rw [if_neg hxz] at hbc ⊢
            by_cases hzx : z < x
            · simp [hzx] at hbc
            · rw [if_neg hzx] at hbc ⊢
              exact ih hab hbc
        · have hnot : ¬ x < y := BitVec.not_lt.mpr (BitVec.le_of_lt hxy)
          simp [hnot, hxy] at hab

theorem prioGT_strictWeak : StrictWeak prioGT where
  asymm h := prioGTWords_asymm h
  trans h h' := prioGTWords_trans h h'

namespace Prioq

variable {α : Type}

theorem gt_strictWeak (pq : Prioq α) : StrictWeak pq.gt where
  asymm h := prioGT_strictWeak.asymm h
  trans h h' := prioGT_strictWeak.trans h h'

/-! ### The hash table -/

/-- The buckets in the heap. -/
def elts (pq : Prioq α) : Multiset Nat := heapContent pq.heap pq.heapNext

/-- The chains of the hash table hold the buckets `elts`, each where the lookup
looks for it or where the last rehash put it. -/
structure Table (pq : Prioq α) (elts : Multiset Nat) (chains : Nat → List Nat) : Prop where
  ok : pq.links.TableOk pq.hashKeySize chains
  listed : ∀ e, (∃ i, i < pq.hashKeySize ∧ e ∈ chains i) ↔ e ∈ elts
  place : ∀ i e, i < pq.hashKeySize → e ∈ chains i →
    i = pq.hashOf e % prioqTabSize ∨ i = pq.hashOf e % pq.hashKeySize
  keySize : prioqTabSize ≤ pq.hashKeySize
  count : pq.hashEntrySize = elts.card

variable {pq : Prioq α} {elts : Multiset Nat} {chains : Nat → List Nat} {priobits pe : Nat}
  {prioptr : List Word} {p : Prio}

theorem Table.length_le (h : pq.Table elts chains) {i : Nat} (hi : i < pq.hashKeySize) :
    (chains i).length ≤ pq.hashEntrySize := by
  have hle : ((chains i) : Multiset Nat) ≤ elts := by
    rw [Multiset.le_iff_subset (Multiset.coe_nodup.mpr (h.ok.nodup i hi))]
    intro e he
    exact (h.listed e).mp ⟨i, hi, mem_coe.mp he⟩
  rw [h.count]
  simpa using Multiset.card_le_card hle

theorem scan_eq {priodata : List Word} : ∀ {fuel : Nat} {l : List Nat}
    {cur : Option Nat}, pq.links.IsPath cur l → l.length ≤ fuel →
    pq.scan priobits priodata fuel cur = l.find? (fun pe => decide (priobits = (pq.pri pe).bits ∧
      (pq.pri pe).data.take priodata.length = priodata)) := by
  intro fuel
  induction fuel with
  | zero =>
    intro l cur _ hlen
    have hnil : l = [] := length_eq_zero_iff.mp (Nat.le_zero.mp hlen)
    rw [hnil]
    rfl
  | succ fuel ih =>
    intro l cur hp hlen
    cases l with
    | nil =>
      obtain rfl : cur = none := hp
      rfl
    | cons e l =>
      obtain ⟨rfl, hp⟩ := hp
      rw [scan]
      split
      · next hc => simp [hc]
      · next hc =>
          rw [ih hp (Nat.le_of_succ_le_succ hlen)]
          simp [hc]

/-- A new bucket goes to the front of its chain. -/
theorem Table.insert (h : pq.Table elts chains) (hpe : pe ∉ elts) (pri : Prio) {index : Nat}
    (hindex : index = hashval pri.bits pri.words % prioqTabSize) (d : Deq α) (k : Nat) :
    ({ pq with
      nextElt := k
      pri := update pq.pri pe pri
      data := update pq.data pe d
      links := pq.links.pushFront pe index
      hashEntrySize := pq.hashEntrySize + 1 } : Prioq α).Table (pe ::ₘ elts)
        (update chains index (pe :: chains index)) := by
  have hlt : index < pq.hashKeySize := by
    rw [hindex]
    exact lt_of_lt_of_le (Nat.mod_lt _ (by decide)) h.keySize
  have hnew : ∀ j, j < pq.hashKeySize → pe ∉ chains j :=
    fun j hj hmem => hpe ((h.listed pe).mp ⟨j, hj, hmem⟩)
  refine ⟨h.ok.pushFront hlt hnew, ?_, ?_, h.keySize, ?_⟩
  · intro e
    rw [Multiset.mem_cons, ← h.listed e]
    constructor
    · rintro ⟨i, hi, he⟩
      by_cases hii : i = index
      · subst hii
        rw [update_self] at he
        rcases mem_cons.mp he with rfl | he
        · exact .inl rfl
        · exact .inr ⟨i, hi, he⟩
      · rw [update_of_ne hii] at he
        exact .inr ⟨i, hi, he⟩
    · rintro (rfl | ⟨i, hi, he⟩)
      · exact ⟨index, hlt, by rw [update_self]; exact mem_cons_self⟩
      · refine ⟨i, hi, ?_⟩
        by_cases hii : i = index
        · subst hii
          rw [update_self]
          exact mem_cons_of_mem pe he
        · rwa [update_of_ne hii]
  · intro i e hi he
    by_cases hee : e = pe
    · subst hee
      left
      have hii : i = index := by
        by_contra hne
        rw [update_of_ne hne] at he
        exact hnew i hi he
      simp only [hashOf, update_self]
      rw [hii, hindex]
    · have hmem : e ∈ chains i := by
        by_cases hii : i = index
        · subst hii
          rw [update_self] at he
          rcases mem_cons.mp he with he | he
          · exact absurd he hee
          · exact he
        · rwa [update_of_ne hii] at he
      have hplace := h.place i e hi hmem
      simpa only [hashOf, update_of_ne hee] using hplace
  · rw [card_cons, ← h.count]

theorem Table.rehash (h : pq.Table elts chains) : ∃ chains', pq.rehash.Table elts chains' ∧
      ∀ i e, e ∈ chains' i ↔ e ∈ elts ∧ pq.hashOf e % (pq.hashKeySize * 2) = i := by
  have hpos : 0 < pq.hashKeySize := lt_of_lt_of_le (by decide) h.keySize
  obtain ⟨chains', hok, hmem⟩ :=
    Links.rehash_spec (fun pe => pq.hashOf pe % (pq.hashKeySize * 2)) h.ok
    (fun i e _ _ => Nat.mod_lt _ (by omega)) (fun i hi => h.length_le hi)
  have hmem' : ∀ i e, e ∈ chains' i ↔ e ∈ elts ∧ pq.hashOf e % (pq.hashKeySize * 2) = i := by
    intro i e
    rw [hmem i e, h.listed e]
  refine ⟨chains', ⟨hok, ?_, ?_, ?_, h.count⟩, hmem'⟩
  · intro e
    constructor
    · rintro ⟨i, -, he⟩
      exact ((hmem' i e).mp he).1
    · intro he
      exact ⟨_, Nat.mod_lt _ (by simp only [Prioq.rehash]; omega), (hmem' _ e).mpr ⟨he, rfl⟩⟩
  · intro i e _ he
    exact .inr ((hmem' i e).mp he).2.symm
  · have := h.keySize
    simp only [Prioq.rehash]
    omega

theorem Table.unlink (h : pq.Table (pe ::ₘ elts) chains) (hnd : (pe ::ₘ elts).Nodup)
    (data : Nat → Deq α)
    (heapNext : Nat) (heap : Nat → Nat) :
    ∃ chains', ({ pq with
      data, links := pq.links.unlink pe, hashEntrySize := pq.hashEntrySize - 1, heapNext, heap } :
        Prioq α).Table elts chains' ∧ ∀ i e, e ∈ chains' i → e ∈ chains i := by
  obtain ⟨i, hi, hpe⟩ := (h.listed pe).mpr (Multiset.mem_cons_self pe elts)
  have hnotin : pe ∉ elts := (Multiset.nodup_cons.mp hnd).1
  have hmem : ∀ j e, e ∈ update chains i ((chains i).erase pe) j → e ∈ chains j := by
    intro j e he
    by_cases hji : j = i
    · subst hji
      rw [update_self] at he
      exact mem_of_mem_erase he
    · rwa [update_of_ne hji] at he
  refine ⟨_, ⟨h.ok.unlink hi hpe, ?_, ?_, h.keySize, ?_⟩, hmem⟩
  · intro e
    constructor
    · rintro ⟨j, hj, he⟩
      have hcons := (h.listed e).mp ⟨j, hj, hmem j e he⟩
      rcases Multiset.mem_cons.mp hcons with rfl | hcons
      · -- `pe` is on no chain any more
        exfalso
        have hji : j = i := h.ok.disjoint j i e hj hi (hmem j e he) hpe
        subst hji
        rw [update_self] at he
        exact (Nodup.not_mem_erase (h.ok.nodup j hj)) he
      · exact hcons
    · intro he
      obtain ⟨j, hj, hej⟩ := (h.listed e).mpr (Multiset.mem_cons_of_mem he)
      refine ⟨j, hj, ?_⟩
      by_cases hji : j = i
      · subst hji
        rw [update_self]
        exact (mem_erase_of_ne (fun heq : e = pe => hnotin (heq ▸ he))).mpr hej
      · rwa [update_of_ne hji]
  · intro j e hj he
    exact h.place j e hj (hmem j e he)
  · have := h.count
    rw [card_cons] at this
    simp only [this]
    omega

/-! ### The invariant -/

/-- A priority that fits its `unsigned short` fields. -/
structure PrioOk (p : Prio) : Prop where
  bits_lt : p.bits < 2 ^ 16
  ints_eq : p.ints = (p.bits + 31) / 32
  length_data : p.data.length = p.ints

/-- The arguments of an enqueue: at most 65535 bits, all of them there. -/
structure ArgsOk (priobits : Nat) (prioptr : List Word) : Prop where
  bits_lt : priobits < 2 ^ 16
  words_le : (priobits + 31) / 32 ≤ prioptr.length

/-- The priority an enqueue asks for. -/
def askedPrio (priobits : Nat) (prioptr : List Word) : Prio :=
  { bits := priobits, ints := (priobits + 31) / 32, data := prioptr.take ((priobits + 31) / 32) }

theorem askedPrio_ok (h : ArgsOk priobits prioptr) : PrioOk (askedPrio priobits prioptr) :=
  ⟨h.bits_lt, rfl, by simp [askedPrio, h.words_le]⟩

theorem PrioOk.words_eq (h : PrioOk p) : p.words = p.data := by
  rw [Prio.words, take_of_length_le (by rw [h.length_data])]

theorem newPrio_eq (h : ArgsOk priobits prioptr) :
    newPrio priobits prioptr = askedPrio priobits prioptr := by
  have h1 := h.bits_lt
  simp only [newPrio, askedPrio, Prio.mk.injEq, and_true]
  exact ⟨Nat.mod_eq_of_lt h1, Nat.mod_eq_of_lt (by omega)⟩

theorem scan_test_iff (hp : PrioOk p) (h : ArgsOk priobits prioptr) :
    (priobits = p.bits ∧ p.data.take (prioptr.take ((priobits + 31) / 32)).length =
      prioptr.take ((priobits + 31) / 32)) ↔ p = askedPrio priobits prioptr := by
  have hlen : (prioptr.take ((priobits + 31) / 32)).length = (priobits + 31) / 32 := by
    simp [h.words_le]
  rw [hlen]
  constructor
  · rintro ⟨hb, hd⟩
    have hi := hp.ints_eq
    rw [← hb] at hi
    rw [take_of_length_le (by rw [hp.length_data, hi])] at hd
    cases p
    simp only [askedPrio, Prio.mk.injEq]
    exact ⟨hb.symm, hi, hd⟩
  · rintro rfl
    refine ⟨rfl, ?_⟩
    simp [askedPrio]

/-- **The invariant of a priority queue** with hash chains `chains`. -/
structure Inv (pq : Prioq α) (chains : Nat → List Nat) : Prop where
  heapNext_pos : 1 ≤ pq.heapNext
  heap_fits : pq.heapNext ≤ pq.heapSize
  order : HeapOrd pq.gt pq.heap pq.heapNext
  nodup : pq.elts.Nodup
  table : pq.Table pq.elts chains
  fresh : ∀ e ∈ pq.elts, e < pq.nextElt
  prio : ∀ e ∈ pq.elts, PrioOk (pq.pri e)
  deq : ∀ e ∈ pq.elts, (pq.data e).Wf

theorem init_inv : (init : Prioq α).Inv (fun _ => []) := by
  have hnil : (init : Prioq α).elts = 0 := heapContent_one _
  refine ⟨le_refl 1, by simp [init], fun i h2 hi => ?_, by exact Multiset.nodup_zero,
    ⟨⟨?_, ?_, ?_⟩, ?_, ?_, le_refl _, ?_⟩, ?_, ?_, ?_⟩
  · have : i < 1 := hi
    omega
  · intro i _
    exact rfl
  · intro i _
    exact nodup_nil
  · intro i j e _ _ he
    exact absurd he (by simp)
  · intro e
    rw [hnil]
    simp
  · intro i e _ he
    exact absurd he (by simp)
  · rfl
  · rw [hnil]
    simp
  · rw [hnil]
    simp
  · rw [hnil]
    simp

section

variable {pq : Prioq α} {chains : Nat → List Nat} {priobits : Nat} {prioptr : List Word}

theorem lookupIndex_lt (h : pq.Inv chains) : lookupIndex priobits prioptr < pq.hashKeySize :=
  lt_of_lt_of_le (Nat.mod_lt _ (by decide)) h.table.keySize

theorem lookup_eq (h : pq.Inv chains) (hargs : ArgsOk priobits prioptr) :
    pq.lookup priobits prioptr = (chains (lookupIndex priobits prioptr)).find?
      (fun pe => decide (pq.pri pe = askedPrio priobits prioptr)) := by
  have hlt : lookupIndex priobits prioptr < pq.hashKeySize := lookupIndex_lt h
  have hpath := (h.table.ok.chain _ hlt).isPath
  refine (scan_eq hpath (h.table.length_le hlt)).trans ?_
  apply find?_congr
  intro pe hpe
  have hmem : pe ∈ pq.elts := (h.table.listed pe).mp ⟨_, hlt, hpe⟩
  simp only [scan_test_iff (h.prio pe hmem) hargs]

theorem hashBucket_frame (pq : Prioq α) (priobits : Nat) (prioptr : List Word) :
    (pq.hashBucket priobits prioptr).heap = pq.heap ∧
      (pq.hashBucket priobits prioptr).heapNext = pq.heapNext ∧
      (pq.hashBucket priobits prioptr).heapSize = pq.heapSize ∧
      (pq.hashBucket priobits prioptr).nextElt = pq.nextElt + 1 ∧
      (pq.hashBucket priobits prioptr).pri = update pq.pri pq.nextElt (newPrio priobits prioptr) ∧
      (pq.hashBucket priobits prioptr).data = update pq.data pq.nextElt Deq.init := by
  unfold hashBucket
  dsimp only
  split
  all_goals exact ⟨rfl, rfl, rfl, rfl, rfl, rfl⟩

theorem hashBucket_table (h : pq.Inv chains) (hargs : ArgsOk priobits prioptr) :
    ∃ chains', (pq.hashBucket priobits prioptr).Table (pq.nextElt ::ₘ pq.elts) chains' := by
  have hnew : pq.nextElt ∉ pq.elts := fun hmem => lt_irrefl _ (h.fresh _ hmem)
  have hindex : lookupIndex priobits prioptr =
      hashval (newPrio priobits prioptr).bits (newPrio priobits prioptr).words % prioqTabSize := by
    rw [newPrio_eq hargs, (askedPrio_ok hargs).words_eq]
    rfl
  have htable := h.table.insert hnew (newPrio priobits prioptr) hindex Deq.init (pq.nextElt + 1)
  unfold hashBucket
  dsimp only
  split
  · obtain ⟨chains', hok, -⟩ := htable.rehash
    exact ⟨chains', hok⟩
  · exact ⟨_, htable⟩

theorem HeapOrd.congr_gt {gt gt' : Nat → Nat → Bool} {heap : Nat → Nat} {n : Nat}
    (h : HeapOrd gt heap n) (heq : ∀ a ∈ heapContent heap n, ∀ b ∈ heapContent heap n,
      gt' a b = gt a b) : HeapOrd gt' heap n := by
  intro i h2 hi
  rw [heq _ (mem_heapContent.mpr ⟨i / 2, by omega, by omega, rfl⟩) _
    (mem_heapContent.mpr ⟨i, by omega, hi, rfl⟩)]
  exact h i h2 hi

/-- **A bucket is created.** -/
theorem addBucket_spec (h : pq.Inv chains) (hargs : ArgsOk priobits prioptr) :
    ∃ pq' chains', (pq.hashBucket priobits prioptr).heapBucket pq.nextElt = pq' ∧
      pq'.Inv chains' ∧ pq'.elts = pq.nextElt ::ₘ pq.elts ∧
      pq'.pri = update pq.pri pq.nextElt (askedPrio priobits prioptr) ∧
      pq'.data = update pq.data pq.nextElt Deq.init ∧
      pq'.links = (pq.hashBucket priobits prioptr).links ∧
      pq'.hashKeySize = (pq.hashBucket priobits prioptr).hashKeySize := by
  have hnew : pq.nextElt ∉ pq.elts := fun hmem => lt_irrefl _ (h.fresh _ hmem)
  obtain ⟨chains', htable⟩ := hashBucket_table h hargs
  obtain ⟨hheap, hnext, hsize, helt, hpri, hdata⟩ := hashBucket_frame pq priobits prioptr
  rw [newPrio_eq hargs] at hpri
  set pq1 := pq.hashBucket priobits prioptr
  have hord : HeapOrd pq1.gt pq1.heap pq1.heapNext := by
    rw [hheap, hnext]
    refine HeapOrd.congr_gt h.order ?_
    intro a ha b hb
    have hae : a ≠ pq.nextElt := fun he => hnew (he ▸ ha)
    have hbe : b ≠ pq.nextElt := fun he => hnew (he ▸ hb)
    simp only [gt, hpri, update_of_ne hae, update_of_ne hbe]
  have hpos : 1 ≤ pq1.heapNext := by
    rw [hnext]
    exact h.heapNext_pos
  obtain ⟨hord', hcontent⟩ := siftUp_insert pq1.gt_strictWeak hpos hord pq.nextElt
  have hbucket : pq1.heapBucket pq.nextElt = { pq1 with
      heapNext := pq1.heapNext + 1
      heapSize := if pq1.heapNext = pq1.heapSize then pq1.heapSize * 2 else pq1.heapSize
      heap := siftUp pq1.gt pq.nextElt pq1.heapNext pq1.heap pq1.heapNext } := by
    unfold heapBucket
    dsimp only
    split
    · rfl
    · rfl
  have helts : (pq1.heapBucket pq.nextElt).elts = pq.nextElt ::ₘ pq.elts := by
    rw [hbucket, elts, elts]
    rw [hcontent, hheap, hnext]
  refine ⟨_, chains', rfl, ⟨?_, ?_, ?_, ?_, ?_, ?_, ?_, ?_⟩, helts, ?_, ?_, ?_, ?_⟩
  · rw [hbucket]
    simp
  · rw [hbucket]
    have hfits := h.heap_fits
    dsimp only
    split <;> omega
  · rw [hbucket]
    exact hord'
  · rw [helts]
    exact nodup_cons.mpr ⟨hnew, h.nodup⟩
  · rw [helts, hbucket]
    exact ⟨htable.ok, htable.listed, htable.place, htable.keySize, htable.count⟩
  · rw [helts, hbucket]
    dsimp only
    intro e he
    rcases mem_cons.mp he with rfl | he
    · omega
    · have := h.fresh e he
      omega
  · rw [helts, hbucket]
    rw [hpri]
    intro e he
    rcases mem_cons.mp he with rfl | he
    · rw [update_self]
      exact askedPrio_ok hargs
    · rw [update_of_ne (fun heq : e = pq.nextElt => hnew (heq ▸ he))]
      exact h.prio e he
  · rw [helts, hbucket]
    rw [hdata]
    intro e he
    rcases mem_cons.mp he with rfl | he
    · rw [update_self]
      exact Deq.init_wf
    · rw [update_of_ne (fun heq : e = pq.nextElt => hnew (heq ▸ he))]
      exact h.deq e he
  · rw [hbucket]
    exact hpri
  · rw [hbucket]
    exact hdata
  · rw [hbucket]
  · rw [hbucket]

end

/-! ### Enqueue and dequeue -/

/-- What an enqueue operation of the ring buffer does, order aside. -/
structure EnqOk (enq : Deq α → Option α → Option (Deq α)) : Prop where
  added : ∀ {d d' msg}, d.Wf → enq d msg = some d' → d'.Wf ∧
    (d'.content : Multiset (Option α)) = msg ::ₘ (d.content : Multiset (Option α))
  room : ∀ {d} msg, d.Wf → d.length + 1 < 2 ^ 30 → ∃ d', enq d msg = some d'

theorem enqOk_fifo : EnqOk (Deq.enqueueFifo (α := α)) where
  added := by
    intro d d' msg h hsome
    obtain ⟨-, hnone⟩ | ⟨-, e, he, hwf, hcontent⟩ := Deq.enqueueFifo_spec h msg
    · rw [hnone] at hsome
      cases hsome
    · obtain rfl := Option.some.inj (he.symm.trans hsome)
      refine ⟨hwf, ?_⟩
      rw [hcontent, ← coe_add, add_comm, Multiset.coe_singleton, Multiset.singleton_add]
  room := by
    intro d msg h hroom
    obtain ⟨hfull, -⟩ | ⟨-, e, he, -⟩ := Deq.enqueueFifo_spec h msg
    · exact absurd hfull hroom.ne
    · exact ⟨e, he⟩

theorem enqOk_lifo : EnqOk (Deq.enqueueLifo (α := α)) where
  added := by
    intro d d' msg h hsome
    obtain ⟨-, hnone⟩ | ⟨-, e, he, hwf, hcontent⟩ := Deq.enqueueLifo_spec h msg
    · rw [hnone] at hsome
      cases hsome
    · obtain rfl := Option.some.inj (he.symm.trans hsome)
      exact ⟨hwf, by rw [hcontent, Multiset.cons_coe]⟩
  room := by
    intro d msg h hroom
    obtain ⟨hfull, -⟩ | ⟨-, e, he, -⟩ := Deq.enqueueLifo_spec h msg
    · exact absurd hfull hroom.ne
    · exact ⟨e, he⟩

/-- Between calls every bucket holds a message. -/
def Full (pq : Prioq α) : Prop := ∀ e ∈ pq.elts, (pq.data e).content ≠ []

theorem Inv.setData (h : pq.Inv chains) {d : Deq α} (hd : d.Wf) :
    ({ pq with data := update pq.data pe d } : Prioq α).Inv chains := by
  refine ⟨h.heapNext_pos, h.heap_fits, h.order, h.nodup,
    ⟨h.table.ok, h.table.listed, h.table.place, h.table.keySize, h.table.count⟩,
    h.fresh, h.prio, ?_⟩
  intro e he
  by_cases hep : e = pe
  · subst hep
    dsimp only
    rw [update_self]
    exact hd
  · dsimp only
    rw [update_of_ne hep]
    exact h.deq e he

section

variable {pq : Prioq α} {chains : Nat → List Nat} {priobits : Nat} {prioptr : List Word}
  {enq : Deq α → Option α → Option (Deq α)} {pq' : Prioq α} {msg : Option α}

/-- **Enqueue**: into the bucket the lookup finds, or into a new one. -/
theorem enqueue_cases (h : pq.Inv chains) (hargs : ArgsOk priobits prioptr) (henq : EnqOk enq)
    (hres : pq.enqueue enq priobits prioptr msg = some pq') :
    ∃ chains', pq'.Inv chains' ∧
      ((∃ pe d, pe ∈ chains (lookupIndex priobits prioptr) ∧ pe ∈ pq.elts ∧
          pq.pri pe = askedPrio priobits prioptr ∧ enq (pq.data pe) msg = some d ∧
          pq' = { pq with data := update pq.data pe d }) ∨
        ∃ d, (∀ pe ∈ chains (lookupIndex priobits prioptr), pq.pri pe ≠
        askedPrio priobits prioptr) ∧
          pq.nextElt ∉ pq.elts ∧ enq Deq.init msg = some d ∧
          pq'.elts = pq.nextElt ::ₘ pq.elts ∧
          pq'.pri = update pq.pri pq.nextElt (askedPrio priobits prioptr) ∧
          pq'.data = update pq.data pq.nextElt d ∧
          pq'.links = (pq.hashBucket priobits prioptr).links ∧
          pq'.hashKeySize = (pq.hashBucket priobits prioptr).hashKeySize) := by
  have hlookup := lookup_eq h hargs
  cases hl : pq.lookup priobits prioptr with
  | some pe =>
    rw [hl] at hlookup
    have hmem := mem_of_find?_eq_some hlookup.symm
    have hpri := find?_some hlookup.symm
    have helt : pe ∈ pq.elts := (h.table.listed pe).mp ⟨_, lookupIndex_lt h, hmem⟩
    simp only [enqueue, getDeq, hl] at hres
    obtain ⟨d, hd, rfl⟩ := Option.map_eq_some_iff.mp hres
    exact ⟨chains, h.setData (henq.added (h.deq pe helt) hd).1,
      .inl ⟨pe, d, hmem, helt, by simpa using hpri, hd, rfl⟩⟩
  | none =>
    rw [hl] at hlookup
    have hnone := find?_eq_none.mp hlookup.symm
    obtain ⟨pq1, chains', hadd, hinv, helts, hpri, hdata, hlinks, hkey⟩ := addBucket_spec h hargs
    simp only [enqueue, getDeq, hl, hadd] at hres
    obtain ⟨d, hd, rfl⟩ := Option.map_eq_some_iff.mp hres
    rw [hdata, update_self] at hd
    refine ⟨chains', hinv.setData (henq.added Deq.init_wf hd).1,
      .inr ⟨d, ?_, ?_, hd, helts, hpri, ?_, hlinks, hkey⟩⟩
    · intro pe hpe
      simpa using hnone pe hpe
    · exact fun hmem => lt_irrefl _ (h.fresh _ hmem)
    · dsimp only
      rw [hdata, update_idem]

/-- An enqueue has a result if no bucket is too large. -/
theorem enqueue_room (h : pq.Inv chains) (hargs : ArgsOk priobits prioptr) (henq : EnqOk enq)
    (hroom : ∀ pe ∈ pq.elts, (pq.data pe).length + 1 < 2 ^ 30) (msg : Option α) :
    ∃ pq', pq.enqueue enq priobits prioptr msg = some pq' := by
  have hlookup := lookup_eq h hargs
  cases hl : pq.lookup priobits prioptr with
  | some pe =>
    rw [hl] at hlookup
    have helt : pe ∈ pq.elts :=
      (h.table.listed pe).mp ⟨_, lookupIndex_lt h, mem_of_find?_eq_some hlookup.symm⟩
    obtain ⟨d, hd⟩ := henq.room msg (h.deq pe helt) (hroom pe helt)
    exact ⟨_, by simp only [enqueue, getDeq, hl, hd, Option.map_some]; rfl⟩
  | none =>
    obtain ⟨pq1, -, hadd, -, -, -, hdata, -⟩ := addBucket_spec h hargs
    obtain ⟨d, hd⟩ := henq.room msg Deq.init_wf (show 0 + 1 < 2 ^ 30 by decide)
    have hd' : enq (pq1.data pq.nextElt) msg = some d := by rw [hdata, update_self, hd]
    exact ⟨_, by simp only [enqueue, getDeq, hl, hadd, hd', Option.map_some]; rfl⟩

theorem Inv.elts_eq_zero_iff (h : pq.Inv chains) : pq.elts = 0 ↔ pq.heapNext = 1 := by
  have hpos := h.heapNext_pos
  rw [← Multiset.card_eq_zero, elts, card_heapContent]
  omega

theorem dequeue_fst (h : pq.heapNext ≠ 1) : pq.dequeue.1 = (pq.data (pq.heap 1)).dequeue.1 := by
  unfold dequeue
  rw [if_neg h]
  dsimp only
  split
  · rfl
  · rfl

theorem dequeue_data (h : pq.heapNext ≠ 1) :
    pq.dequeue.2.data = update pq.data (pq.heap 1) (pq.data (pq.heap 1)).dequeue.2 := by
  unfold dequeue
  rw [if_neg h]
  dsimp only
  split
  · rfl
  · rfl

/-- **Dequeue**: the front message of a bucket of least priority; an emptied
bucket goes. -/
theorem dequeue_cases (h : pq.Inv chains) (hfull : pq.Full) (hne : pq.heapNext ≠ 1) :
    ∃ pe m rest d, pe ∈ pq.elts ∧ (∀ e ∈ pq.elts, pq.gt pe e = false) ∧
      (pq.data pe).content = m :: rest ∧ d.Wf ∧ d.content = rest ∧ pq.dequeue.1 = m ∧
      pq.dequeue.2.pri = pq.pri ∧ pq.dequeue.2.data = update pq.data pe d ∧
      ∃ chains', pq.dequeue.2.Inv chains' ∧ (∀ i e, e ∈ chains' i → e ∈ chains i) ∧
        (rest = [] ∧ pq.elts = pe ::ₘ pq.dequeue.2.elts ∨ rest ≠ [] ∧
        pq.dequeue.2.elts = pq.elts) := by
  have hpos := h.heapNext_pos
  set pe := pq.heap 1
  have hmem : pe ∈ pq.elts := mem_heapContent.mpr ⟨1, le_refl 1, by omega, rfl⟩
  have hleast : ∀ e ∈ pq.elts, pq.gt pe e = false := by
    intro e he
    obtain ⟨i, h1, h2, rfl⟩ := mem_heapContent.mp he
    exact h.order.first_le pq.gt_strictWeak i h1 h2
  obtain ⟨m, rest, hcontent⟩ := exists_cons_of_ne_nil (hfull pe hmem)
  obtain ⟨hm, hwf, hrest⟩ := Deq.dequeue_cons (h.deq pe hmem) hcontent
  set d := (pq.data pe).dequeue.2
  refine ⟨pe, m, rest, d, hmem, hleast, hcontent, hwf, hrest, ?_⟩
  by_cases hempty : d.head = d.tail
  · have hnil : rest = [] := by
      rw [← hrest]
      exact (Deq.content_eq_nil_iff hwf).mpr hempty
    have hdeq : pq.dequeue = (m, { pq with
        data := update pq.data pe d
        links := pq.links.unlink pe
        hashEntrySize := pq.hashEntrySize - 1
        heapNext := pq.heapNext - 1
        heap := siftDown pq.gt (pq.heapNext - 1) (pq.heap (pq.heapNext - 1)) (pq.heapNext - 1)
          pq.heap 1 }) := by
      unfold dequeue
      rw [if_neg hne]
      dsimp only
      rw [if_pos hempty, hm]
      rfl
    have hsucc : pq.heapNext - 1 + 1 = pq.heapNext := by omega
    have hord := h.order
    rw [← hsucc] at hord
    obtain ⟨hord', hsplit⟩ := siftDown_remove pq.gt_strictWeak (by omega) hord
    have helts : pq.elts = pe ::ₘ pq.dequeue.2.elts := by
      rw [hdeq]
      exact hsplit
    have hnd := h.nodup
    rw [helts] at hnd
    have htable := h.table
    rw [helts] at htable
    obtain ⟨chains', htable', hsub⟩ := htable.unlink hnd (update pq.data pe d)
      (pq.heapNext - 1) (siftDown pq.gt (pq.heapNext - 1) (pq.heap (pq.heapNext - 1))
        (pq.heapNext - 1) pq.heap 1)
    have hle : ∀ e ∈ pq.dequeue.2.elts, e ∈ pq.elts := by
      intro e he
      rw [helts]
      exact Multiset.mem_cons_of_mem he
    refine ⟨by rw [hdeq], by rw [hdeq], by rw [hdeq], chains', ⟨?_, ?_, ?_, ?_, ?_, ?_, ?_, ?_⟩,
      hsub, .inl ⟨hnil, helts⟩⟩
    · rw [hdeq]
      dsimp only
      omega
    · have hfits := h.heap_fits
      rw [hdeq]
      dsimp only
      omega
    · rw [hdeq]
      exact hord'
    · exact (nodup_cons.mp hnd).2
    · rw [hdeq] at htable' ⊢
      exact htable'
    · intro e he
      have hlt := h.fresh e (hle e he)
      rw [hdeq]
      exact hlt
    · intro e he
      have hok := h.prio e (hle e he)
      rw [hdeq]
      exact hok
    · intro e he
      have hep : e ≠ pe := fun heq => (nodup_cons.mp hnd).1 (heq ▸ he)
      have hok := h.deq e (hle e he)
      rw [hdeq]
      dsimp only
      rw [update_of_ne hep]
      exact hok
  · have hcons : rest ≠ [] := by
      rw [← hrest]
      exact fun hnil => hempty ((Deq.content_eq_nil_iff hwf).mp hnil)
    have hdeq : pq.dequeue = (m, { pq with data := update pq.data pe d }) := by
      unfold dequeue
      rw [if_neg hne]
      dsimp only
      rw [if_neg hempty, hm]
    refine ⟨by rw [hdeq], by rw [hdeq], by rw [hdeq], chains, ?_, fun _ _ he => he,
      .inr ⟨hcons, by rw [hdeq]; rfl⟩⟩
    rw [hdeq]
    exact h.setData hwf

end

/-! ### The multiset of messages -/

/-- The messages of a bucket with their priority. -/
def bucketEntries (pq : Prioq α) (e : Nat) : Multiset (Prio × Option α) :=
  ((pq.data e).content : Multiset (Option α)).map (fun m => (pq.pri e, m))

/-- All messages of the queue with their priorities. -/
def entries (pq : Prioq α) : Multiset (Prio × Option α) := pq.elts.bind pq.bucketEntries

theorem entries_congr {pq' : Prioq α} {s : Multiset Nat}
    (h : ∀ e ∈ s, pq'.pri e = pq.pri e ∧ pq'.data e = pq.data e) :
    s.bind pq'.bucketEntries = s.bind pq.bucketEntries := by
  apply Multiset.bind_congr
  intro e he
  obtain ⟨h1, h2⟩ := h e he
  simp only [bucketEntries, h1, h2]

theorem mem_entries {m : Option α} :
    (p, m) ∈ pq.entries ↔ ∃ e ∈ pq.elts, pq.pri e = p ∧ m ∈ (pq.data e).content := by
  simp only [entries, Multiset.mem_bind, bucketEntries, Multiset.mem_map, Prod.mk.injEq]
  constructor
  · rintro ⟨e, he, m', hm, hp, rfl⟩
    exact ⟨e, he, hp, hm⟩
  · rintro ⟨e, he, hp, hm⟩
    exact ⟨e, he, m, hm, hp, rfl⟩

section

variable {pq : Prioq α} {chains : Nat → List Nat} {priobits : Nat} {prioptr : List Word}
  {enq : Deq α → Option α → Option (Deq α)} {pq' : Prioq α} {msg : Option α}

/-- **Enqueue adds one message.** -/
theorem enqueue_entries (h : pq.Inv chains) (hfull : pq.Full) (hargs : ArgsOk priobits prioptr)
    (henq : EnqOk enq) (hres : pq.enqueue enq priobits prioptr msg = some pq') :
    (∃ chains', pq'.Inv chains') ∧ pq'.Full ∧
      pq'.entries = (askedPrio priobits prioptr, msg) ::ₘ pq.entries := by
  obtain ⟨chains', hinv, hcase⟩ := enqueue_cases h hargs henq hres
  refine ⟨⟨chains', hinv⟩, ?_⟩
  have hne : ∀ {d d' : Deq α}, d.Wf → enq d msg = some d' → d'.content ≠ [] := by
    intro d d' hd hd' hnil
    have hc := (henq.added hd hd').2
    rw [hnil] at hc
    exact Multiset.cons_ne_zero hc.symm
  rcases hcase with ⟨pe, d, -, hmem, hpri, hd, heq⟩ | ⟨d, -, hnew, hd, helts, hpri, hdata, -⟩
  · have helts : pq'.elts = pq.elts := by
      rw [heq]
      rfl
    refine ⟨?_, ?_⟩
    · intro e he
      rw [helts] at he
      rw [heq]
      dsimp only
      by_cases hep : e = pe
      · rw [hep, update_self]
        exact hne (h.deq pe hmem) hd
      · rw [update_of_ne hep]
        exact hfull e he
    · -- only the bucket `pe` has changed
      obtain ⟨t, ht⟩ := Multiset.exists_cons_of_mem hmem
      have hnd := h.nodup
      rw [ht] at hnd
      have hpt : pe ∉ t := (Multiset.nodup_cons.mp hnd).1
      have hsame : ∀ e ∈ t, pq'.pri e = pq.pri e ∧
          pq'.data e = pq.data e := by
        intro e he
        have hep : e ≠ pe := fun heq' => hpt (heq' ▸ he)
        rw [heq]
        exact ⟨rfl, update_of_ne hep _ _⟩
      have hb : pq'.bucketEntries pe =
          (askedPrio priobits prioptr, msg) ::ₘ pq.bucketEntries pe := by
        rw [heq]
        simp only [bucketEntries, update_self]
        rw [(henq.added (h.deq pe hmem) hd).2, Multiset.map_cons, hpri]
      rw [entries, helts, entries, ht, cons_bind, cons_bind, entries_congr hsame, hb, cons_add]
  · refine ⟨?_, ?_⟩
    · intro e he
      rw [helts] at he
      rw [hdata]
      rcases mem_cons.mp he with rfl | he
      · rw [update_self]
        exact hne Deq.init_wf hd
      · rw [update_of_ne (fun heq' : e = pq.nextElt => hnew (heq' ▸ he))]
        exact hfull e he
    · have hsame : ∀ e ∈ pq.elts, pq'.pri e = pq.pri e ∧
          pq'.data e = pq.data e := by
        intro e he
        have hep : e ≠ pq.nextElt := fun heq' => hnew (heq' ▸ he)
        rw [hpri, hdata]
        exact ⟨update_of_ne hep _ _, update_of_ne hep _ _⟩
      have hb : pq'.bucketEntries pq.nextElt =
          {(askedPrio priobits prioptr, msg)} := by
        simp only [bucketEntries, hdata, hpri, update_self]
        rw [(henq.added Deq.init_wf hd).2, Deq.content_init]
        rfl
      rw [entries, helts, entries, cons_bind, entries_congr hsame, hb, Multiset.singleton_add]

/-- No bucket has more than all messages. -/
theorem length_le_card_entries {pe : Nat} (hpe : pe ∈ pq.elts) :
    (pq.data pe).length ≤ pq.entries.card := by
  obtain ⟨t, ht⟩ := Multiset.exists_cons_of_mem hpe
  have hbucket : (pq.bucketEntries pe).card = (pq.data pe).length := by
    rw [bucketEntries, Multiset.card_map, Multiset.coe_card, Deq.length_content]
  rw [entries, ht, cons_bind, Multiset.card_add, hbucket]
  exact Nat.le_add_right _ _

/-- **Dequeue takes one message of least priority.** -/
theorem dequeue_entries (h : pq.Inv chains) (hfull : pq.Full) (hne : pq.heapNext ≠ 1) :
    (∃ chains', pq.dequeue.2.Inv chains') ∧ pq.dequeue.2.Full ∧
      ∃ p, pq.entries = (p, pq.dequeue.1) ::ₘ pq.dequeue.2.entries ∧
        ∀ q ∈ pq.entries, prioGT p q.1 = false := by
  obtain ⟨pe, m, rest, d, hmem, hleast, hcontent, -, hrest, hm, hpri, hdata, chains', hinv, -,
    hcase⟩ := dequeue_cases h hfull hne
  obtain ⟨t, ht⟩ := Multiset.exists_cons_of_mem hmem
  have hnd := h.nodup
  rw [ht] at hnd
  have hpt : pe ∉ t := (Multiset.nodup_cons.mp hnd).1
  have hsame : ∀ e ∈ t, pq.dequeue.2.pri e = pq.pri e ∧ pq.dequeue.2.data e = pq.data e := by
    intro e he
    have hep : e ≠ pe := fun heq => hpt (heq ▸ he)
    rw [hpri, hdata]
    exact ⟨rfl, update_of_ne hep _ _⟩
  have hbucket : pq.bucketEntries pe = (pq.pri pe, m) ::ₘ pq.dequeue.2.bucketEntries pe := by
    simp only [bucketEntries, hcontent, hdata, update_self, hrest, hpri]
    rfl
  refine ⟨⟨chains', hinv⟩, ?_, pq.pri pe, ?_, ?_⟩
  · intro e he
    rw [hdata]
    rcases hcase with ⟨-, helts⟩ | ⟨hcons, helts⟩
    · have hnd' := h.nodup
      rw [helts] at hnd'
      have hep : e ≠ pe := fun heq => (nodup_cons.mp hnd').1 (heq ▸ he)
      rw [update_of_ne hep]
      refine hfull e ?_
      rw [helts]
      exact Multiset.mem_cons_of_mem he
    · rw [helts] at he
      by_cases hep : e = pe
      · rw [hep, update_self, hrest]
        exact hcons
      · rw [update_of_ne hep]
        exact hfull e he
  · rw [hm, entries, ht, cons_bind, hbucket, ← entries_congr hsame, cons_add]
    rcases hcase with ⟨hnil, helts⟩ | ⟨-, helts⟩
    · have htt : t = pq.dequeue.2.elts := by
        rw [ht] at helts
        exact (Multiset.cons_inj_right pe).mp helts
      have hzero : pq.dequeue.2.bucketEntries pe = 0 := by
        simp only [bucketEntries, hdata, update_self, hrest, hnil]
        rfl
      rw [hzero, zero_add, entries, htt]
    · rw [entries, helts, ht, cons_bind]
  · rintro ⟨p, m'⟩ hq
    obtain ⟨e, he, rfl, -⟩ := mem_entries.mp hq
    exact hleast e he

/-- **Enumeration** lists the messages. -/
theorem enumerate_entries (h : pq.Inv chains) :
    (pq.enumerate : Multiset (Option α)) = pq.entries.map Prod.snd := by
  have hwalk : ∀ i ∈ range' 1 (pq.heapNext - 1),
      (pq.data (pq.heap i)).enumerate = (pq.data (pq.heap i)).content := by
    intro i hi
    obtain ⟨h1, h2⟩ := mem_range'_1.mp hi
    exact Deq.enumerate_eq (h.deq _ (mem_heapContent.mpr ⟨i, h1, by omega, rfl⟩))
  rw [enumerate, flatMap_congr hwalk, entries, elts, heapContent, Multiset.map_bind,
    Multiset.bind_map, ← Multiset.coe_bind]
  apply Multiset.bind_congr
  intro i _
  simp [bucketEntries]

end

end Prioq

end CharmRuntime.Queueing
