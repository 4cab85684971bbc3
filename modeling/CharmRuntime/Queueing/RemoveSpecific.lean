import CharmRuntime.Queueing.QueueSound

/-!
# Queueing.RemoveSpecific

**Blanking an entry** of the scheduler queue (`CqsRemoveSpecific` in
`conv-core/queueing.C`): the entry becomes a null pointer, and the queue keeps its size.

The three parts are searched in the order in which they are served. In the ring of
priority zero the store is commented out: `CqsRemoveSpecificDeq` reports the entry as
replaced and leaves it. `removeSpecific_iff` says when the call does what it is for.

Dequeuing never looks at a message, so a queue and its blanked copy are dequeued in
lockstep (`Queue.Blanked`).
-/

namespace CharmRuntime.Queueing

open Lib Function List
open Multiset (card card_add card_eq_zero mem_coe)

variable {α : Type}

/-! ### The ring buffer -/

namespace Deq

/-- `*head = NULL` for a slot. -/
def blank (d : Deq α) (pos : Nat) : Deq α := { d with vec := update d.vec pos none }

/-- The loop over the slots from `pos` on, for at most `fuel` slots: the first one with the message.
-/
def search [DecidableEq α] (d : Deq α) (msgPtr : Option α) : Nat → Nat → Option Nat
  | 0, _ => none
  | fuel + 1, pos =>
    if pos = d.tail then none
    else if d.vec pos = msgPtr then some pos
    else d.search msgPtr fuel (if pos + 1 = d.size then 0 else pos + 1)

/-- `CqsRemoveSpecificDeq`: `*head = NULL` is commented out. -/
def removeSpecific [DecidableEq α] (d : Deq α) (msgPtr : Option α) : Nat × Deq α :=
  match d.search msgPtr d.size d.head with
  | some _ => (1, d)
  | none => (0, d)

end Deq

/-! ### The priority queue -/

namespace Prioq

/-- The loop of `CqsRemoveSpecificPrioq` over `n` buckets from place `i` of the heap on. -/
def removeLoop [DecidableEq α] (pq : Prioq α) (msgPtr : Option α) : Nat → Nat → Nat × Prioq α
  | 0, _ => (0, pq)
  | n + 1, i =>
    let pe := pq.heap i
    match (pq.data pe).search msgPtr (pq.data pe).size (pq.data pe).head with
    | some pos => (1, { pq with data := update pq.data pe ((pq.data pe).blank pos) })
    | none => pq.removeLoop msgPtr n (i + 1)

/-- `CqsRemoveSpecificPrioq`. -/
def removeSpecific [DecidableEq α] (pq : Prioq α) (msgPtr : Option α) : Nat × Prioq α :=
  pq.removeLoop msgPtr (pq.heapNext - 1) 1

end Prioq

/-- `CqsRemoveSpecific`. -/
def Queue.removeSpecific [DecidableEq α] (q : Queue α) (msgPtr : Option α) : Queue α :=
  let (found, negprioq) := q.negprioq.removeSpecific msgPtr
  let q := { q with negprioq }
  if found = 0 then
    let (found, zeroprio) := q.zeroprio.removeSpecific msgPtr
    let q := { q with zeroprio }
    if found = 0 then { q with posprioq := (q.posprioq.removeSpecific msgPtr).2 } else q
  else q

/-- All messages, in the order in which `CqsDequeue` returns them. -/
def Queue.drained (q : Queue α) : List (Option α) := (q.drain q.length).1

/-- **What the call is for**: of a queued entry one occurrence is blanked, and nothing else is done.
-/
structure Queue.RemovesOne [DecidableEq α] (q : Queue α) (msgPtr : Option α) : Prop where
  length : (q.removeSpecific msgPtr).length = q.length
  queued : msgPtr ∈ q.enumerate → ∃ pre post, q.drained = pre ++ msgPtr :: post ∧
    (q.removeSpecific msgPtr).drained = pre ++ none :: post
  absent : msgPtr ∉ q.enumerate → q.removeSpecific msgPtr = q

/-! ### Searching the ring -/

namespace Deq

variable {d : Deq α} {msgPtr : Option α}

theorem slot_zero (h : d.Wf) : d.slot 0 = d.head := if_pos h.head_lt

theorem slot_length (h : d.Wf) : d.slot d.length = d.tail := by
  have h1 := h.head_lt
  have h2 := h.tail_lt
  unfold length slot
  split <;> split <;> omega

theorem slot_succ (h : d.Wf) {i : Nat} (hi : i < d.length) :
    (if d.slot i + 1 = d.size then 0 else d.slot i + 1) = d.slot (i + 1) := by
  have h1 := h.head_lt
  have hlen := h.length_lt
  unfold slot
  split <;> split <;> split <;> omega

theorem slot_inj (h : d.Wf) {i j : Nat} (hi : i ≤ d.length) (hj : j ≤ d.length)
    (heq : d.slot i = d.slot j) : i = j := by
  have hlen := h.length_lt
  unfold slot at heq
  split at heq <;> split at heq <;> omega

theorem search_cases [DecidableEq α] (h : d.Wf) (msgPtr : Option α) {fuel i : Nat}
    (hi : i ≤ d.length) (hfuel : d.length < i + fuel) :
    (∃ k, k < d.length ∧ d.search msgPtr fuel (d.slot i) = some (d.slot k) ∧
    d.vec (d.slot k) = msgPtr) ∨
      (d.search msgPtr fuel (d.slot i) = none ∧ ∀ k, i ≤ k → k < d.length →
      d.vec (d.slot k) ≠ msgPtr) := by
  induction fuel generalizing i with
  | zero => exact absurd hfuel (not_lt.mpr hi)
  | succ fuel ih =>
    rw [search]
    by_cases hend : d.slot i = d.tail
    · rw [if_pos hend]
      have hlast : i = d.length := slot_inj h hi (le_refl _) (hend.trans (slot_length h).symm)
      exact .inr ⟨rfl, fun k hk hlt => absurd hlt (not_lt.mpr (hlast ▸ hk))⟩
    · have hlt : i < d.length := by
        refine lt_of_le_of_ne hi fun heq => hend ?_
        rw [heq, slot_length h]
      rw [if_neg hend]
      by_cases hfound : d.vec (d.slot i) = msgPtr
      · rw [if_pos hfound]
        exact .inl ⟨i, hlt, rfl, hfound⟩
      · rw [if_neg hfound, slot_succ h hlt]
        refine (ih hlt (by omega)).imp_right fun ⟨hnone, hrest⟩ => ⟨hnone, fun k hk hklt => ?_⟩
        cases lt_or_eq_of_le hk with
        | inl hgt => exact hrest k hgt hklt
        | inr heq => exact heq ▸ hfound

theorem content_blank (h : d.Wf) {k : Nat} (hk : k < d.length) :
    (d.blank (d.slot k)).content = d.content.set k none := by
  have hlen : (d.blank (d.slot k)).length = d.length := rfl
  refine ext_getElem (by simp [content, hlen]) fun i hi hi' => ?_
  have hlt : i < d.length := by simpa [length_content, hlen] using hi
  simp only [content, hlen, getElem_map, getElem_range, getElem_set]
  by_cases hik : k = i
  · rw [if_pos hik, hik]
    exact update_self ..
  · rw [if_neg hik]
    refine update_of_ne (fun heq => hik ?_) ..
    exact (slot_inj h (le_of_lt hlt) (le_of_lt hk) heq).symm

/-- One message of a list becomes a null pointer. -/
def OneBlanked (msgPtr : Option α) (l l' : List (Option α)) : Prop :=
  ∃ pre post, l = pre ++ msgPtr :: post ∧ l' = pre ++ none :: post

/-- **The search of a ring**: the slot found holds the message, or none does. -/
theorem search_spec [DecidableEq α] (h : d.Wf) (msgPtr : Option α) :
    (∃ pos, d.search msgPtr d.size d.head = some pos ∧
    OneBlanked msgPtr d.content (d.blank pos).content) ∨
      (d.search msgPtr d.size d.head = none ∧ msgPtr ∉ d.content) := by
  have hcases :=
    search_cases h msgPtr (Nat.zero_le d.length) (lt_of_lt_of_eq h.length_lt (zero_add _).symm)
  rw [slot_zero h] at hcases
  cases hcases with
  | inl hfound =>
    obtain ⟨k, hk, hsearch, hvec⟩ := hfound
    have hkc : k < d.content.length := by rwa [length_content]
    have hget : d.content[k] = msgPtr := by
      simp only [content, getElem_map, getElem_range]
      exact hvec
    refine .inl ⟨_, hsearch, d.content.take k, d.content.drop (k + 1), ?_, ?_⟩
    · rw [← hget, ← drop_eq_getElem_cons hkc, take_append_drop]
    · rw [content_blank h hk, set_eq_take_append_cons_drop, if_pos hkc]
  | inr habsent =>
    obtain ⟨hnone, hall⟩ := habsent
    refine .inr ⟨hnone, fun hmem => ?_⟩
    obtain ⟨k, hk, hvec⟩ := mem_map.mp hmem
    exact hall k (Nat.zero_le k) (mem_range.mp hk) hvec

/-! ### Lockstep -/

/-- The same slots are used. -/
structure SameShape (d d' : Deq α) : Prop where
  size : d'.size = d.size
  head : d'.head = d.head
  tail : d'.tail = d.tail

theorem SameShape.refl (d : Deq α) : SameShape d d := ⟨rfl, rfl, rfl⟩

variable {d' : Deq α}

theorem SameShape.wf (h : SameShape d d') (hd : d.Wf) : d'.Wf := by
  refine ⟨?_, ?_, ?_⟩
  · rw [h.head, h.size]
    exact hd.head_lt
  · rw [h.tail, h.size]
    exact hd.tail_lt
  · rw [h.size]
    exact hd.size

theorem SameShape.dequeue (h : SameShape d d') : SameShape d.dequeue.2 d'.dequeue.2 := by
  unfold Deq.dequeue
  rw [h.head, h.tail, h.size]
  by_cases hempty : d.head = d.tail
  · rw [if_pos hempty, if_pos hempty]
    exact h
  · rw [if_neg hempty, if_neg hempty]
    exact ⟨rfl, rfl, rfl⟩

theorem SameShape.dequeue_same (h : SameShape d d') (hd : d.Wf) (hne : d.content ≠ [])
    (hc : d'.content = d.content) :
    d'.dequeue.1 = d.dequeue.1 ∧ d'.dequeue.2.content = d.dequeue.2.content := by
  obtain ⟨m, rest, hcons⟩ := exists_cons_of_ne_nil hne
  obtain ⟨hm, -, hrest⟩ := dequeue_cons hd hcons
  obtain ⟨hm', -, hrest'⟩ := dequeue_cons (h.wf hd) (hc.trans hcons)
  exact ⟨hm'.trans hm.symm, hrest'.trans hrest.symm⟩

theorem SameShape.dequeue_blanked (h : SameShape d d') (hd : d.Wf)
    (hc : OneBlanked msgPtr d.content d'.content) :
    (d.dequeue.1 = msgPtr ∧ d'.dequeue.1 = none ∧ d'.dequeue.2.content = d.dequeue.2.content) ∨
      (d'.dequeue.1 = d.dequeue.1 ∧
      OneBlanked msgPtr d.dequeue.2.content d'.dequeue.2.content) := by
  obtain ⟨pre, post, hpre, hpre'⟩ := hc
  cases pre with
  | nil =>
    obtain ⟨hm, -, hrest⟩ := dequeue_cons hd hpre
    obtain ⟨hm', -, hrest'⟩ := dequeue_cons (h.wf hd) hpre'
    exact .inl ⟨hm, hm', hrest'.trans hrest.symm⟩
  | cons m pre =>
    obtain ⟨hm, -, hrest⟩ := dequeue_cons hd hpre
    obtain ⟨hm', -, hrest'⟩ := dequeue_cons (h.wf hd) hpre'
    exact .inr ⟨hm'.trans hm.symm, pre, post, hrest, hrest'⟩

end Deq

namespace Prioq

variable {pq pq' : Prioq α} {msgPtr : Option α}

/-- The same buckets in the same places, with rings of the same shape. -/
structure Alike (pq pq' : Prioq α) : Prop where
  same : pq' = { pq with data := pq'.data }
  shape : ∀ e, Deq.SameShape (pq.data e) (pq'.data e)

/-- The messages are the same. -/
def SameContent (pq pq' : Prioq α) :
    Prop := ∀ e ∈ pq.elts, (pq'.data e).content = (pq.data e).content

/-- The messages are the same except for one, which is blanked. -/
def Blanked (msgPtr : Option α) (pq pq' : Prioq α) : Prop :=
  ∃ pe ∈ pq.elts, Deq.OneBlanked msgPtr (pq.data pe).content (pq'.data pe).content ∧
    ∀ e ∈ pq.elts, e ≠ pe → (pq'.data e).content = (pq.data e).content

theorem Alike.refl (pq : Prioq α) : Alike pq pq := ⟨rfl, fun _ => .refl _⟩

theorem Alike.heapNext (h : Alike pq pq') : pq'.heapNext = pq.heapNext := by rw [h.same]

theorem Alike.dequeue (h : Alike pq pq') (hne : pq.heapNext ≠ 1) :
    Alike pq.dequeue.2 pq'.dequeue.2 := by
  obtain ⟨hsame, hshape⟩ := h
  generalize pq'.data = data' at hsame hshape
  subst hsame
  have hdeq := (hshape (pq.heap 1)).dequeue
  constructor
  · unfold dequeue
    rw [if_neg hne]
    dsimp only
    rw [hdeq.head, hdeq.tail]
    split
    · rfl
    · rfl
  · intro e
    have hdata : { pq with data := data' }.dequeue.2.data =
        update data' (pq.heap 1) (data' (pq.heap 1)).dequeue.2 := dequeue_data hne
    rw [dequeue_data hne, hdata]
    by_cases he : e = pq.heap 1
    · rw [he, update_self, update_self]
      exact hdeq
    · rw [update_of_ne he, update_of_ne he]
      exact hshape e

theorem Alike.heap (h : Alike pq pq') : pq'.heap = pq.heap := by rw [h.same]

section

variable {chains : Nat → List Nat}

theorem heap_one_mem (h : pq.Inv chains) (hne : pq.heapNext ≠ 1) : pq.heap 1 ∈ pq.elts := by
  have hpos := h.heapNext_pos
  exact mem_heapContent.mpr ⟨1, le_refl 1, by omega, rfl⟩

theorem mem_elts_dequeue (h : pq.Inv chains) (hfull : pq.Full) (hne : pq.heapNext ≠ 1) :
    (∀ e ∈ pq.dequeue.2.elts, e ∈ pq.elts) ∧
      ∀ e ∈ pq.elts, (pq.dequeue.2.data e).content ≠ [] → e ∈ pq.dequeue.2.elts := by
  obtain ⟨pe, m, rest, d, -, -, -, -, hrest, -, -, hdata, -, -, -, hcase⟩ :=
    dequeue_cases h hfull hne
  obtain ⟨hnil, helts⟩ | ⟨-, helts⟩ := hcase
  · constructor
    · intro e he
      rw [helts]
      exact Multiset.mem_cons_of_mem he
    · intro e he hcontent
      rw [helts] at he
      cases mem_cons.mp he with
      | inl heq =>
        rw [heq, hdata, update_self, hrest] at hcontent
        exact absurd hnil hcontent
      | inr hrest => exact hrest
  · rw [helts]
    exact ⟨fun _ he => he, fun _ he _ => he⟩

theorem Alike.dequeue_same (h : Alike pq pq') (hinv : pq.Inv chains) (hfull : pq.Full)
    (hne : pq.heapNext ≠ 1)
    (hc : SameContent pq pq') :
    pq'.dequeue.1 = pq.dequeue.1 ∧ SameContent pq.dequeue.2 pq'.dequeue.2 := by
  have hne' : pq'.heapNext ≠ 1 := h.heapNext ▸ hne
  have hfirst := heap_one_mem hinv hne
  obtain ⟨hm, hrest⟩ :=
    (h.shape (pq.heap 1)).dequeue_same (hinv.deq _ hfirst) (hfull _ hfirst) (hc _ hfirst)
  rw [dequeue_fst hne, dequeue_fst hne', h.heap]
  refine ⟨hm, fun e he => ?_⟩
  rw [dequeue_data hne, dequeue_data hne', h.heap]
  by_cases heq : e = pq.heap 1
  · rw [heq, update_self, update_self]
    exact hrest
  · rw [update_of_ne heq, update_of_ne heq]
    exact hc e ((mem_elts_dequeue hinv hfull hne).1 e he)

/-- With one entry blanked, the queues give the same until it comes out. -/
theorem Alike.dequeue_blanked (h : Alike pq pq') (hinv : pq.Inv chains) (hfull : pq.Full)
    (hne : pq.heapNext ≠ 1)
    (hb : Blanked msgPtr pq pq') :
    (pq.dequeue.1 = msgPtr ∧ pq'.dequeue.1 = none ∧ SameContent pq.dequeue.2 pq'.dequeue.2) ∨
      (pq'.dequeue.1 = pq.dequeue.1 ∧ Blanked msgPtr pq.dequeue.2 pq'.dequeue.2) := by
  have hne' : pq'.heapNext ≠ 1 := h.heapNext ▸ hne
  have hfirst := heap_one_mem hinv hne
  obtain ⟨hsub, hstays⟩ := mem_elts_dequeue hinv hfull hne
  obtain ⟨pe, hpe, hone, hothers⟩ := hb
  rw [dequeue_fst hne, dequeue_fst hne', h.heap]
  -- the buckets off the first one are as they were
  have hdata :
    ∀ e, e ≠ pq.heap 1 → pq.dequeue.2.data e = pq.data e ∧ pq'.dequeue.2.data e = pq'.data e := by
    intro e he
    rw [dequeue_data hne, dequeue_data hne', h.heap]
    exact ⟨update_of_ne he .., update_of_ne he ..⟩
  have hhead : pq.dequeue.2.data (pq.heap 1) = (pq.data (pq.heap 1)).dequeue.2 ∧
      pq'.dequeue.2.data (pq.heap 1) = (pq'.data (pq.heap 1)).dequeue.2 := by
    rw [dequeue_data hne, dequeue_data hne', h.heap]
    exact ⟨update_self .., update_self ..⟩
  by_cases hpf : pe = pq.heap 1
  · subst hpf
    obtain ⟨hm, hm', hrest⟩ | ⟨hm, hrest⟩ :=
      (h.shape (pq.heap 1)).dequeue_blanked (hinv.deq _ hfirst) hone
    · refine .inl ⟨hm, hm', fun e he => ?_⟩
      by_cases heq : e = pq.heap 1
      · rw [heq, hhead.1, hhead.2]
        exact hrest
      · rw [(hdata e heq).1, (hdata e heq).2]
        exact hothers e (hsub e he) heq
    · refine .inr ⟨hm, pq.heap 1, hstays _ hfirst ?_, ?_, fun e he heq => ?_⟩
      · obtain ⟨pre, post, hpre, -⟩ := hrest
        rw [hhead.1, hpre]
        exact append_ne_nil_of_right_ne_nil pre (cons_ne_nil _ _)
      · rw [hhead.1, hhead.2]
        exact hrest
      · rw [(hdata e heq).1, (hdata e heq).2]
        exact hothers e (hsub e he) heq
  · have hcfirst := hothers _ hfirst (symm hpf)
    obtain ⟨hm, hrest⟩ :=
      (h.shape (pq.heap 1)).dequeue_same (hinv.deq _ hfirst) (hfull _ hfirst) hcfirst
    refine .inr ⟨hm, pe, hstays pe hpe ?_, ?_, fun e he heq => ?_⟩
    · rw [(hdata pe hpf).1]
      exact hfull pe hpe
    · rw [(hdata pe hpf).1, (hdata pe hpf).2]
      exact hone
    · by_cases hef : e = pq.heap 1
      · rw [hef, hhead.1, hhead.2]
        exact hrest
      · rw [(hdata e hef).1, (hdata e hef).2]
        exact hothers e (hsub e he) heq

end

/-! ### The search of the buckets -/

theorem mem_enumerate {chains : Nat → List Nat} (h : pq.Inv chains) (m : Option α) :
    m ∈ pq.enumerate ↔ ∃ e ∈ pq.elts, m ∈ (pq.data e).content := by
  rw [← mem_coe, enumerate_entries h, Multiset.mem_map]
  constructor
  · intro ⟨p, hp, hm⟩
    obtain ⟨e, he, -, hmem⟩ := mem_entries.mp hp
    exact ⟨e, he, hm ▸ hmem⟩
  · intro ⟨e, he, hm⟩
    exact ⟨(pq.pri e, m), mem_entries.mpr ⟨e, he, rfl, hm⟩, rfl⟩

theorem removeLoop_cases [DecidableEq α] {chains : Nat → List Nat} (h : pq.Inv chains)
    (msgPtr : Option α) {n i : Nat}
    (hi : 1 ≤ i) (hn : i + n ≤ pq.heapNext) :
    (∃ pq', pq.removeLoop msgPtr n i = (1, pq') ∧ Alike pq pq' ∧ Blanked msgPtr pq pq') ∨
      (pq.removeLoop msgPtr n i = (0, pq) ∧ ∀ j, i ≤ j → j < i + n →
      msgPtr ∉ (pq.data (pq.heap j)).content) := by
  induction n generalizing i with
  | zero => exact .inr ⟨rfl, fun j hj hlt => absurd hlt (not_lt.mpr hj)⟩
  | succ n ih =>
    have hmem : pq.heap i ∈ pq.elts := mem_heapContent.mpr ⟨i, hi, by omega, rfl⟩
    rw [removeLoop]
    obtain ⟨pos, hpos, hone⟩ | ⟨hnone, habsent⟩ := Deq.search_spec (h.deq _ hmem) msgPtr
    · refine .inl ⟨{ pq with data := update pq.data (pq.heap i) ((pq.data (pq.heap i)).blank pos) },
        ?_, ⟨rfl, fun e => ?_⟩, pq.heap i, hmem, ?_, fun e _ he => ?_⟩
      · rw [hpos]
      · dsimp only
        by_cases he : e = pq.heap i
        · rw [he, update_self]
          exact ⟨rfl, rfl, rfl⟩
        · rw [update_of_ne he]
          exact .refl _
      · dsimp only
        rw [update_self]
        exact hone
      · dsimp only
        rw [update_of_ne he]
    · rw [hnone]
      refine (ih (Nat.le_succ_of_le hi) (by omega)).imp_right fun ⟨hloop, hrest⟩ =>
        ⟨hloop, fun j hj hlt => ?_⟩
      cases lt_or_eq_of_le hj with
      | inl hgt => exact hrest j hgt (by omega)
      | inr heq => exact heq ▸ habsent

/-- **`CqsRemoveSpecificPrioq`**: one message is blanked, or the message is not there. -/
theorem removeSpecific_cases [DecidableEq α] {chains : Nat → List Nat} (h : pq.Inv chains)
    (msgPtr : Option α) :
    (∃ pq', pq.removeSpecific msgPtr = (1, pq') ∧ Alike pq pq' ∧ Blanked msgPtr pq pq' ∧
    msgPtr ∈ pq.enumerate) ∨
      (pq.removeSpecific msgPtr = (0, pq) ∧ msgPtr ∉ pq.enumerate) := by
  have hpos := h.heapNext_pos
  obtain ⟨pq', hloop, halike, hb⟩ | ⟨hloop, habsent⟩ :=
    removeLoop_cases h msgPtr (le_refl 1) (n := pq.heapNext - 1) (by omega)
  · refine .inl ⟨pq', hloop, halike, hb, (mem_enumerate h msgPtr).mpr ?_⟩
    obtain ⟨pe, hpe, ⟨pre, post, hpre, -⟩, -⟩ := hb
    refine ⟨pe, hpe, ?_⟩
    rw [hpre]
    exact mem_append_right pre mem_cons_self
  · refine .inr ⟨hloop, fun hmem => ?_⟩
    obtain ⟨e, he, hm⟩ := (mem_enumerate h msgPtr).mp hmem
    obtain ⟨j, h1, h2, rfl⟩ := mem_heapContent.mp he
    exact habsent j h1 (by omega) hm

end Prioq

/-! ### Queues in lockstep -/

namespace Queue

variable {q q' : Queue α} {msgPtr : Option α} {M : Multiset (Entry α)}

/-- The same parts with the same buckets; the ring of priority zero is the same. -/
structure Alike (q q' : Queue α) : Prop where
  length : q'.length = q.length
  neg : Prioq.Alike q.negprioq q'.negprioq
  zero : q'.zeroprio = q.zeroprio
  pos : Prioq.Alike q.posprioq q'.posprioq

/-- Both hold the same messages. -/
structure Same (q q' : Queue α) : Prop where
  alike : Alike q q'
  neg : Prioq.SameContent q.negprioq q'.negprioq
  pos : Prioq.SameContent q.posprioq q'.posprioq

/-- One message of a priority queue is blanked in the second. -/
structure Blanked (msgPtr : Option α) (q q' : Queue α) : Prop where
  alike : Alike q q'
  one : (Prioq.Blanked msgPtr q.negprioq q'.negprioq ∧ Prioq.SameContent q.posprioq q'.posprioq) ∨
    (Prioq.SameContent q.negprioq q'.negprioq ∧ Prioq.Blanked msgPtr q.posprioq q'.posprioq)

/-- Both calls of `CqsDequeue` take the same branch. -/
theorem Alike.dequeue_branches (h : Alike q q') :
    (q.negprioq.heapNext ≠ 1 ∧
    q.dequeue =
    (q.negprioq.dequeue.1, { q with negprioq := q.negprioq.dequeue.2, length := q.length - 1 }) ∧
        q'.dequeue =
        (q'.negprioq.dequeue.1,
        { q' with negprioq := q'.negprioq.dequeue.2, length := q'.length - 1 })) ∨
      (q.dequeue =
      (q.zeroprio.dequeue.1, { q with zeroprio := q.zeroprio.dequeue.2, length := q.length - 1 }) ∧
        q'.dequeue =
        (q'.zeroprio.dequeue.1,
        { q' with zeroprio := q'.zeroprio.dequeue.2, length := q'.length - 1 })) ∨
      (q.posprioq.heapNext ≠ 1 ∧
      q.dequeue =
      (q.posprioq.dequeue.1, { q with posprioq := q.posprioq.dequeue.2, length := q.length - 1 }) ∧
        q'.dequeue =
        (q'.posprioq.dequeue.1,
        { q' with posprioq := q'.posprioq.dequeue.2, length := q'.length - 1 })) ∨
      (q.dequeue = (none, q) ∧ q'.dequeue = (none, q')) := by
  unfold dequeue
  rw [h.length, h.neg.heapNext, h.pos.heapNext, h.zero]
  by_cases hlen : q.length = 0
  · rw [if_pos hlen, if_pos hlen]
    exact .inr (.inr (.inr ⟨rfl, rfl⟩))
  rw [if_neg hlen, if_neg hlen]
  by_cases hneg : q.negprioq.heapNext > 1
  · rw [if_pos hneg, if_pos hneg]
    exact .inl ⟨ne_of_gt hneg, rfl, rfl⟩
  rw [if_neg hneg, if_neg hneg]
  by_cases hzero : q.zeroprio.head ≠ q.zeroprio.tail
  · rw [if_pos hzero, if_pos hzero]
    exact .inr (.inl ⟨rfl, rfl⟩)
  rw [if_neg hzero, if_neg hzero]
  by_cases hpos : q.posprioq.heapNext > 1
  · rw [if_pos hpos, if_pos hpos]
    exact .inr (.inr (.inl ⟨ne_of_gt hpos, rfl, rfl⟩))
  · rw [if_neg hpos, if_neg hpos]
    exact .inr (.inr (.inr ⟨rfl, rfl⟩))

theorem inv_of_simulates (h : Simulates q M) :
    ((∃ chains, q.negprioq.Inv chains) ∧ q.negprioq.Full) ∧ (∃ chains, q.posprioq.Inv chains) ∧
    q.posprioq.Full := by
  obtain ⟨n, z, p, hrep, -⟩ := h
  exact ⟨⟨hrep.neg.inv, hrep.neg.full⟩, hrep.pos.inv, hrep.pos.full⟩

theorem Same.dequeue (h : Same q q') (hsim : Simulates q M) :
    q'.dequeue.1 = q.dequeue.1 ∧ Same q.dequeue.2 q'.dequeue.2 := by
  obtain ⟨⟨⟨_, hneg⟩, hnegFull⟩, ⟨_, hpos⟩, hposFull⟩ := inv_of_simulates hsim
  obtain ⟨halike, hsameNeg, hsamePos⟩ := h
  obtain ⟨hne, hq, hq'⟩ | ⟨hq, hq'⟩ | ⟨hne, hq, hq'⟩ | ⟨hq, hq'⟩ := halike.dequeue_branches
  · obtain ⟨hm, hnext⟩ := halike.neg.dequeue_same hneg hnegFull hne hsameNeg
    rw [hq, hq']
    exact ⟨hm, ⟨congrArg (· - 1) halike.length, halike.neg.dequeue hne, halike.zero, halike.pos⟩,
      hnext, hsamePos⟩
  · rw [hq, hq', halike.zero]
    exact ⟨rfl, ⟨congrArg (· - 1) halike.length, halike.neg, rfl, halike.pos⟩, hsameNeg, hsamePos⟩
  · obtain ⟨hm, hnext⟩ := halike.pos.dequeue_same hpos hposFull hne hsamePos
    rw [hq, hq']
    exact ⟨hm, ⟨congrArg (· - 1) halike.length, halike.neg, halike.zero, halike.pos.dequeue hne⟩,
      hsameNeg, hnext⟩
  · rw [hq, hq']
    exact ⟨rfl, halike, hsameNeg, hsamePos⟩

theorem Blanked.dequeue (h : Blanked msgPtr q q') (hsim : Simulates q M) :
    (q.dequeue.1 = msgPtr ∧ q'.dequeue.1 = none ∧ Same q.dequeue.2 q'.dequeue.2) ∨
      (q'.dequeue.1 = q.dequeue.1 ∧ Blanked msgPtr q.dequeue.2 q'.dequeue.2) := by
  obtain ⟨⟨⟨_, hneg⟩, hnegFull⟩, ⟨_, hpos⟩, hposFull⟩ := inv_of_simulates hsim
  obtain ⟨halike, hone⟩ := h
  obtain ⟨hne, hq, hq'⟩ | ⟨hq, hq'⟩ | ⟨hne, hq, hq'⟩ | ⟨hq, hq'⟩ := halike.dequeue_branches
  · have hnext : Alike { q with negprioq := q.negprioq.dequeue.2, length := q.length - 1 }
        { q' with negprioq := q'.negprioq.dequeue.2, length := q'.length - 1 } :=
      ⟨congrArg (· - 1) halike.length, halike.neg.dequeue hne, halike.zero, halike.pos⟩
    rw [hq, hq']
    cases hone with
    | inl hone =>
      obtain ⟨hm, hm', hsame⟩ | ⟨hm, hblank⟩ := halike.neg.dequeue_blanked hneg hnegFull hne hone.1
      · exact .inl ⟨hm, hm', hnext, hsame, hone.2⟩
      · exact .inr ⟨hm, hnext, .inl ⟨hblank, hone.2⟩⟩
    | inr hone =>
      obtain ⟨hm, hsame⟩ := halike.neg.dequeue_same hneg hnegFull hne hone.1
      exact .inr ⟨hm, hnext, .inr ⟨hsame, hone.2⟩⟩
  · rw [hq, hq', halike.zero]
    exact .inr ⟨rfl, ⟨congrArg (· - 1) halike.length, halike.neg, rfl, halike.pos⟩, hone⟩
  · have hnext : Alike { q with posprioq := q.posprioq.dequeue.2, length := q.length - 1 }
        { q' with posprioq := q'.posprioq.dequeue.2, length := q'.length - 1 } :=
      ⟨congrArg (· - 1) halike.length, halike.neg, halike.zero, halike.pos.dequeue hne⟩
    rw [hq, hq']
    cases hone with
    | inl hone =>
      obtain ⟨hm, hsame⟩ := halike.pos.dequeue_same hpos hposFull hne hone.2
      exact .inr ⟨hm, hnext, .inl ⟨hone.1, hsame⟩⟩
    | inr hone =>
      obtain ⟨hm, hm', hsame⟩ | ⟨hm, hblank⟩ := halike.pos.dequeue_blanked hpos hposFull hne hone.2
      · exact .inl ⟨hm, hm', hnext, hone.1, hsame⟩
      · exact .inr ⟨hm, hnext, .inr ⟨hone.1, hblank⟩⟩
  · rw [hq, hq']
    exact .inr ⟨rfl, halike, hone⟩

theorem Same.drain (h : Same q q') (hsim : Simulates q M) (n : Nat) :
    (q'.drain n).1 = (q.drain n).1 := by
  induction n generalizing q q' M with
  | zero => rfl
  | succ n ih =>
    obtain ⟨hm, hnext⟩ := h.dequeue hsim
    obtain ⟨M', -, hsim'⟩ := hsim.dequeue true
    rw [drain, drain, hm, ih hnext hsim']

theorem Blanked.ne_zero (h : Blanked msgPtr q q') (hsim : Simulates q M) : M ≠ 0 := by
  intro hzero
  obtain ⟨n, z, p, hrep, hM⟩ := hsim
  have hcard := congrArg card hM
  rw [hzero, Multiset.card_zero, card_add, card_add] at hcard
  have hn : n = 0 := card_eq_zero.mp (by omega)
  have hp : p = 0 := card_eq_zero.mp (by omega)
  have hempty : ∀ {pq : Prioq α} {s : Multiset (Entry α)}, HoldsPrio pq s → s = 0 →
    ∀ e, e ∉ pq.elts := by
    intro pq s hold hs e he
    obtain ⟨chains, hinv⟩ := hold.inv
    rw [hinv.elts_eq_zero_iff.mpr (hold.heapNext_eq_one_iff.mpr hs)] at he
    exact Multiset.notMem_zero e he
  obtain ⟨⟨pe, hpe, -⟩, -⟩ | ⟨-, pe, hpe, -⟩ := h.one
  · exact hempty hrep.neg hn pe hpe
  · exact hempty hrep.pos hp pe hpe

/-- **Draining a queue and its blanked copy**: one null pointer instead of the message. -/
theorem Blanked.drain (h : Blanked msgPtr q q') (hsim : Simulates q M) {n : Nat} (hn : M.card = n) :
    Deq.OneBlanked msgPtr (q.drain n).1 (q'.drain n).1 := by
  induction n generalizing q q' M with
  | zero => exact absurd (card_eq_zero.mp hn) (h.ne_zero hsim)
  | succ n ih =>
    obtain ⟨M', hstep, hsim'⟩ := hsim.dequeue true
    have hcard : M'.card = n := by
      cases hres : q.dequeue.1 with
      | none =>
        rw [hres] at hstep
        exact absurd hstep.1 (h.ne_zero hsim)
      | some m =>
        rw [hres] at hstep
        obtain ⟨e, -, hM, -⟩ := hstep
        rw [hM, Multiset.card_cons] at hn
        exact add_right_cancel hn
    rw [drain, drain]
    obtain ⟨hm, hm', hsame⟩ | ⟨hm, hblank⟩ := h.dequeue hsim
    · rw [hm, hm', hsame.drain hsim']
      exact ⟨[], _, rfl, rfl⟩
    · obtain ⟨pre, post, hpre, hpre'⟩ := ih hblank hsim' hcard
      rw [hm, hpre, hpre']
      exact ⟨_ :: pre, post, rfl, rfl⟩

/-- **`CqsRemoveSpecific`** of a queue that a run leads to: the entry is blanked in a priority
queue, or it is in the ring of priority zero and stays, or it is nowhere. -/
theorem removeSpecific_cases [DecidableEq α] (hsim : Simulates q M) (msgPtr : Option α) :
    (Blanked msgPtr q (q.removeSpecific msgPtr) ∧ msgPtr ∈ q.enumerate ∧
        (msgPtr ∈ q.zeroprio.enumerate → msgPtr ∈ q.negprioq.enumerate)) ∨
      (q.removeSpecific msgPtr = q ∧ msgPtr ∈ q.zeroprio.enumerate ∧
      msgPtr ∉ q.negprioq.enumerate) ∨
      (q.removeSpecific msgPtr = q ∧ msgPtr ∉ q.enumerate) := by
  obtain ⟨⟨⟨_, hneg⟩, -⟩, ⟨_, hpos⟩, -⟩ := inv_of_simulates hsim
  have hzero : q.zeroprio.Wf := by
    obtain ⟨n, z, p, hrep, -⟩ := hsim
    exact hrep.zero.wf
  have hmem :
    msgPtr ∈ q.enumerate ↔ (msgPtr ∈ q.negprioq.enumerate ∨ msgPtr ∈ q.zeroprio.enumerate) ∨
    msgPtr ∈ q.posprioq.enumerate := by
    rw [enumerate, mem_append, mem_append]
  rw [hmem]
  unfold removeSpecific
  obtain ⟨pq', hremove, halike, hb, hin⟩ | ⟨hremove, hnotNeg⟩ :=
    Prioq.removeSpecific_cases hneg msgPtr
  · rw [hremove]
    refine .inl ⟨⟨⟨rfl, halike, rfl, .refl _⟩, .inl ⟨hb, fun _ _ => rfl⟩⟩, .inl (.inl hin),
      fun _ => hin⟩
  rw [hremove]
  dsimp only
  rw [Deq.removeSpecific]
  rw [Deq.enumerate_eq hzero]
  obtain ⟨pos, hsearch, pre, post, hpre, -⟩ | ⟨hsearch, hnotZero⟩ := Deq.search_spec hzero msgPtr
  · rw [hsearch]
    refine .inr (.inl ⟨rfl, ?_, hnotNeg⟩)
    rw [hpre]
    exact mem_append_right pre mem_cons_self
  rw [hsearch]
  obtain ⟨pq', hremove', halike, hb, hin⟩ | ⟨hremove', hnotPos⟩ :=
    Prioq.removeSpecific_cases hpos msgPtr
  · rw [hremove']
    exact .inl ⟨⟨⟨rfl, .refl _, rfl, halike⟩, .inr ⟨fun _ _ => rfl, hb⟩⟩, .inr hin, fun h =>
      absurd h hnotZero⟩
  · rw [hremove']
    refine .inr (.inr ⟨rfl, fun h => ?_⟩)
    obtain (h | h) | h := h
    · exact hnotNeg h
    · exact hnotZero h
    · exact hnotPos h

theorem none_notMem_drained (hsim : Simulates q M) : none ∉ q.drained := by
  intro hmem
  have hdrained := (hsim.drain hsim.length.symm).2
  rw [← mem_coe, drained, hdrained, Multiset.mem_map] at hmem
  obtain ⟨e, -, hnone⟩ := hmem
  cases hnone

end Queue

/-- **An entry is blanked as it should be** if and only if it is not one of priority zero alone:
either it is not in the ring of priority zero, or it is also among the negative priorities. -/
theorem removeSpecific_iff [DecidableEq α] {littleEndian : Bool} {l : List (Event α)} {q : Queue α}
    (h : (properQueue α littleEndian).Trace l q) (msgPtr : Option α) :
    q.RemovesOne msgPtr ↔ (msgPtr ∈ q.zeroprio.enumerate → msgPtr ∈ q.negprioq.enumerate) := by
  obtain ⟨M, -, hsim⟩ := properQueue_simulate h
  obtain ⟨hblank, hqueued, hcond⟩ | ⟨hsame, hzero, hneg⟩ | ⟨hsame, habsent⟩ :=
    Queue.removeSpecific_cases hsim msgPtr
  · refine ⟨fun _ => hcond, fun _ => ⟨hblank.alike.length, fun _ => ?_, fun h => absurd hqueued h⟩⟩
    rw [Queue.drained, Queue.drained, hblank.alike.length]
    exact hblank.drain hsim hsim.length.symm
  · refine ⟨fun hremoves => ?_, fun hcond => absurd (hcond hzero) hneg⟩
    -- the entry is reported as replaced, but nothing has changed
    have hmem : msgPtr ∈ q.enumerate := mem_append_left _ (mem_append_right _ hzero)
    obtain ⟨pre, post, -, hdrained⟩ := hremoves.queued hmem
    rw [hsame] at hdrained
    refine absurd ?_ (Queue.none_notMem_drained hsim)
    rw [hdrained]
    exact mem_append_right pre mem_cons_self
  · have hzero : msgPtr ∉ q.zeroprio.enumerate := fun hz =>
      habsent (mem_append_left _ (mem_append_right _ hz))
    refine ⟨fun _ hz => absurd hz hzero, fun _ =>
      ⟨by rw [hsame], fun hmem => absurd hmem habsent, fun _ => hsame⟩⟩

/-- A positive and a negative priority, and the message of the first. -/
theorem removeSpecific_two :
    ∃ q, (properQueue Nat true).Trace
      [.general 7 .ififo 32 [5#32], .general 8 .llifo 64 [0#32, 0xFFFFFFFF#32]] q ∧
      q.RemovesOne (some 7) := by
  have h0 : (properQueue Nat true).Trace [] Queue.create := .init rfl
  have hok1 : CallOk .ififo 32 [5#32] := by decide
  have h1 := h0.step (e := Event.general 7 .ififo 32 [5#32]) ⟨hok1, rfl⟩
  have hok2 : CallOk .llifo 64 [0#32, 0xFFFFFFFF#32] := by decide
  have h2 := h1.step (e := Event.general 8 .llifo 64 [0#32, 0xFFFFFFFF#32]) ⟨hok2, rfl⟩
  refine ⟨_, h2, (removeSpecific_iff h2 (some 7)).mpr fun hzero => ?_⟩
  cases hzero

/-- A message of priority zero stays. -/
theorem not_removeSpecific_zero :
    ∃ q, (properQueue Nat true).Trace [.fifo 9] q ∧ some 9 ∈ q.enumerate ∧
    ¬ q.RemovesOne (some 9) := by
  have hqueue : ∃ q : Queue Nat, Queue.create.enqueueFifo 9 = .ok q ∧ some 9 ∈ q.enumerate ∧
      none ∉ (q.removeSpecific (some 9)).drained := ⟨_, rfl, by decide, by decide⟩
  obtain ⟨q, hstep, hmem, hnone⟩ := hqueue
  have h0 : (properQueue Nat true).Trace [] Queue.create := .init rfl
  refine ⟨q, h0.step (e := Event.fifo 9) ⟨trivial, hstep⟩, hmem, fun hremoves => ?_⟩
  obtain ⟨pre, post, -, hdrained⟩ := hremoves.queued hmem
  refine hnone ?_
  rw [hdrained]
  exact mem_append_right pre mem_cons_self

end CharmRuntime.Queueing
