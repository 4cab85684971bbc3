import Mathlib.Data.List.Nodup
import Mathlib.Data.List.Perm.Basic
import CharmRuntime.Lib.Transition

/-!
# Queueing.MsgQ

The **message queue `msgQ`** (`conv-core/msgq.h`, not randomized): one double-ended bucket of
messages for each priority that was ever used, and a heap of the priorities whose bucket has
messages.

The standard containers do what their documentation says. A bucket is known by its position in
`buckets`, its address: an `unordered_map` never moves a mapped value, and no bucket is ever
erased. The heap `prioQ` is the list of its pairs, and `top` is the one that the others do not
precede.

The queue refines a **stable priority deque** (`msgQ_refines`): a list of messages with their
priorities, in which an enqueue adds at one of the ends and a dequeue takes the first message of
the smallest priority.
-/

namespace CharmRuntime.Queueing

open Lib List
open Prod (fst mk snd)

/-! ### The queue -/

/-- The ways a call is undefined. -/
inductive MsgQFault
  /-- `prioQ.top()` of an empty heap. -/
  | emptyHeap
  /-- `bkt.front()` of an empty bucket. -/
  | emptyBucket
  deriving DecidableEq, Repr

/-- `msgQ<P>`. -/
structure MsgQ (P M : Type) where
  qSize : Nat
  buckets : List (List M)
  /-- The map, in the order in which the priorities came up. -/
  msgbuckets : List (P × Nat)
  prioQ : List (P × Nat)

namespace MsgQ

variable {P M : Type} [LinearOrder P]

/-- `msgQ()`. -/
def new : MsgQ P M := { qSize := 0, buckets := [], msgbuckets := [], prioQ := [] }

/-- The bucket at an address. -/
def bucket (q : MsgQ P M) (handle : Nat) : List M := q.buckets.getD handle []

/-- The address of the bucket of a priority. -/
def find (q : MsgQ P M) (prio : P) : Option Nat := (q.msgbuckets.find? (·.1 = prio)).map (·.2)

/-- `msgbuckets[prio]`: the bucket, which is created if there is none. -/
def getBucket (q : MsgQ P M) (prio : P) : MsgQ P M × Nat :=
  match q.find prio with
  | some handle => (q, handle)
  | none =>
    ({ q with
        buckets := q.buckets ++ [[]]
        msgbuckets := q.msgbuckets ++ [(prio, q.buckets.length)] },
      q.buckets.length)

/-- The order of pairs of a priority and an address. -/
def pairLt (a b : P × Nat) : Bool := a.1 < b.1 || (!(b.1 < a.1) && a.2 < b.2)

/-- `top()` of the heap. -/
def top : List (P × Nat) → Option (P × Nat)
  | [] => none
  | a :: l => some (l.foldl (fun least b => if pairLt b least then b else least) a)

/-- `enq`. -/
def enq (q : MsgQ P M) (msg : M) (prio : P) (isFifo : Bool) : MsgQ P M :=
  let (q, handle) := q.getBucket prio
  let bkt := q.bucket handle
  let q := if bkt.isEmpty then { q with prioQ := (prio, handle) :: q.prioQ } else q
  { q with
    buckets := q.buckets.set handle (if isFifo then bkt ++ [msg] else msg :: bkt)
    qSize := q.qSize + 1 }

/-- `deq`; `none` is `NULL`. -/
def deq (q : MsgQ P M) : Except MsgQFault (Option M × MsgQ P M) :=
  if q.qSize = 0 then .ok (none, q)
  else
    match top q.prioQ with
    | none => .error .emptyHeap
    | some t =>
      match q.bucket t.2 with
      | [] => .error .emptyBucket
      | msg :: rest =>
        .ok (some msg,
          { q with
            buckets := q.buckets.set t.2 rest
            prioQ := if rest.isEmpty then q.prioQ.erase t else q.prioQ
            qSize := q.qSize - 1 })

/-- The loops of `enumerate` over some buckets, with `slots` places left. -/
def copyBuckets : Nat → List (List M) → List M
  | _, [] => []
  | slots, bkt :: bkts =>
    if slots = 0 then [] else bkt.take slots ++ copyBuckets (slots - bkt.length) bkts

/-- `enumerate`, which goes through the map in some order. -/
def enumerate (q : MsgQ P M) (order : List (P × Nat)) (slots : Nat) : List M :=
  copyBuckets slots (order.map fun e => q.bucket e.2)

end MsgQ

/-! ### Runs -/

/-- A call with its result. -/
inductive MsgQCall (P M : Type)
  | enq (msg : M) (prio : P) (isFifo : Bool)
  | deq (result : Option M)

section

variable (P M : Type) [LinearOrder P]

/-- The calls of a program. -/
def msgQ : Transition (MsgQ P M) (MsgQCall P M) where
  init q := q = .new
  step q call q' :=
    match call with
    | .enq msg prio isFifo => q' = q.enq msg prio isFifo
    | .deq result => q.deq = .ok (result, q')

/-- What the queue is for: messages with priorities, in order. -/
def stablePriorityDeque : Transition (List (P × M)) (MsgQCall P M) where
  init s := s = []
  step s call s' :=
    match call with
    | .enq msg prio isFifo => s' = if isFifo then s ++ [(prio, msg)] else (prio, msg) :: s
    | .deq none => s = [] ∧ s' = s
    | .deq (some msg) => ∃ prio s₁ s₂, s = s₁ ++ (prio, msg) :: s₂ ∧ (∀ e ∈ s₁, prio < e.1) ∧
        (∀ e ∈ s₂, prio ≤ e.1) ∧ s' = s₁ ++ s₂

end

namespace MsgQ

variable {P M : Type} [LinearOrder P]

/-! ### The heap -/

theorem le_of_not_pairLt {a b : P × Nat} (h : pairLt b a = false) : a.1 ≤ b.1 := by
  unfold pairLt at h
  rw [Bool.or_eq_false_iff, decide_eq_false_iff_not] at h
  exact not_lt.mp h.1

theorem le_of_pairLt {a b : P × Nat} (h : pairLt b a = true) : b.1 ≤ a.1 := by
  unfold pairLt at h
  rw [Bool.or_eq_true, decide_eq_true_eq, Bool.and_eq_true, Bool.not_eq_true',
    decide_eq_false_iff_not] at h
  rcases h with h | h
  · exact le_of_lt h
  · exact not_lt.mp h.1

theorem foldl_least (l : List (P × Nat)) (a : P × Nat) :
    l.foldl (fun least b => if pairLt b least then b else least) a ∈ a :: l ∧
      ∀ e ∈ a :: l, (l.foldl (fun least b => if pairLt b least then b else least) a).1 ≤ e.1 := by
  induction l generalizing a with
  | nil => simp
  | cons b l ih =>
    rw [foldl_cons]
    cases hlt : pairLt b a with
    | true =>
      obtain ⟨hmem, hle⟩ := ih b
      refine ⟨mem_cons_of_mem a hmem, ?_⟩
      intro e he
      rcases mem_cons.mp he with rfl | he
      · exact le_trans (hle b mem_cons_self) (le_of_pairLt hlt)
      · exact hle e he
    | false =>
      obtain ⟨hmem, hle⟩ := ih a
      refine ⟨?_, ?_⟩
      · rcases mem_cons.mp hmem with heq | hmem
        · exact mem_cons.mpr (.inl heq)
        · exact mem_cons_of_mem a (mem_cons_of_mem b hmem)
      · intro e he
        rcases mem_cons.mp he with rfl | he
        · exact hle e mem_cons_self
        rcases mem_cons.mp he with rfl | he
        · exact le_trans (hle a mem_cons_self) (le_of_not_pairLt hlt)
        · exact hle e (mem_cons_of_mem a he)

/-- **`top`** is a pair of the smallest priority. -/
theorem top_spec {l : List (P × Nat)} (h : l ≠ []) :
    ∃ t, top l = some t ∧ t ∈ l ∧ ∀ e ∈ l, t.1 ≤ e.1 := by
  cases l with
  | nil => exact absurd rfl h
  | cons a l => exact ⟨_, rfl, foldl_least l a⟩

/-! ### The map -/

theorem find_eq_some_iff {q : MsgQ P M} (hkeys : (q.msgbuckets.map fst).Nodup) {prio : P}
    {handle : Nat} : q.find prio = some handle ↔ (prio, handle) ∈ q.msgbuckets := by
  unfold find
  rw [Option.map_eq_some_iff]
  constructor
  · rintro ⟨e, he, rfl⟩
    have hprio := find?_some he
    rw [decide_eq_true_eq] at hprio
    rw [← hprio]
    exact mem_of_find?_eq_some he
  · intro hmem
    cases hf : q.msgbuckets.find? (·.1 = prio) with
    | none =>
      have := find?_eq_none.mp hf _ hmem
      simp at this
    | some e =>
      have hprio := find?_some hf
      rw [decide_eq_true_eq] at hprio
      have he := inj_on_of_nodup_map hkeys (mem_of_find?_eq_some hf) hmem hprio
      exact ⟨e, rfl, by rw [he]⟩

theorem find_eq_none_iff {q : MsgQ P M} {prio : P} :
    q.find prio = none ↔ prio ∉ q.msgbuckets.map fst := by
  unfold find
  rw [Option.map_eq_none_iff, find?_eq_none]
  constructor
  · intro h hmem
    obtain ⟨e, he, rfl⟩ := mem_map.mp hmem
    exact h e he (by simp)
  · intro h e he hp
    rw [decide_eq_true_eq] at hp
    exact h (hp ▸ mem_map_of_mem he)

/-- The messages of one priority, in order. -/
def ofPrio (s : List (P × M)) (prio : P) : List M := (s.filter (·.1 = prio)).map Prod.snd

/-- The queue holds the messages `s`. -/
structure Holds (q : MsgQ P M) (s : List (P × M)) : Prop where
  size : q.qSize = s.length
  keys : (q.msgbuckets.map Prod.fst).Nodup
  handles : (q.msgbuckets.map Prod.snd).Nodup
  valid : ∀ e ∈ q.msgbuckets, e.2 < q.buckets.length
  known : ∀ e ∈ s, e.1 ∈ q.msgbuckets.map Prod.fst
  bucket : ∀ e ∈ q.msgbuckets, q.bucket e.2 = ofPrio s e.1
  heap : ∀ e, e ∈ q.prioQ ↔ e ∈ q.msgbuckets ∧ q.bucket e.2 ≠ []
  nodup : q.prioQ.Nodup

theorem holds_new : Holds (new : MsgQ P M) [] :=
  ⟨rfl, by simp [new], by simp [new], by simp [new], by simp, by simp [new], by simp [new],
    by simp [new]⟩

variable {q : MsgQ P M} {s : List (P × M)}

theorem ofPrio_eq_nil_iff {prio : P} : ofPrio s prio = [] ↔ ∀ e ∈ s, e.1 ≠ prio := by
  rw [ofPrio, map_eq_nil_iff]
  simp

/-- The bucket of a priority is there after `msgbuckets[prio]`. -/
theorem getBucket_holds (h : Holds q s) (prio : P) :
    Holds (q.getBucket prio).1 s ∧
    (prio, (q.getBucket prio).2) ∈ (q.getBucket prio).1.msgbuckets := by
  unfold getBucket
  cases hfind : q.find prio with
  | some handle => exact ⟨h, (find_eq_some_iff h.keys).mp hfind⟩
  | none =>
    have hnew : prio ∉ q.msgbuckets.map fst := find_eq_none_iff.mp hfind
    have hold : ∀ e ∈ q.msgbuckets, (q.buckets ++ [[]]).getD e.2 [] = q.bucket e.2 := by
      intro e he
      rw [getD_eq_getElem?_getD, getElem?_append_left (h.valid e he)]
      rfl
    have hlast : (q.buckets ++ [[]]).getD q.buckets.length [] = [] := by
      rw [getD_eq_getElem?_getD, getElem?_append_right (le_refl _), Nat.sub_self]
      rfl
    have hempty : ofPrio s prio = [] :=
      ofPrio_eq_nil_iff.mpr (fun e he heq => hnew (heq ▸ h.known e he))
    refine ⟨⟨h.size, ?_, ?_, ?_, ?_, ?_, ?_, h.nodup⟩, by simp⟩
    · rw [map_append]
      exact nodup_append.mpr ⟨h.keys, nodup_singleton prio, by
        intro a ha b hb hab
        rw [hab, mem_singleton.mp hb] at ha
        exact hnew ha⟩
    · rw [map_append]
      refine nodup_append.mpr ⟨h.handles, nodup_singleton _, ?_⟩
      intro a ha b hb hab
      obtain ⟨e, he, rfl⟩ := mem_map.mp ha
      have := h.valid e he
      rw [hab, mem_singleton.mp hb] at this
      exact lt_irrefl _ this
    · intro e he
      rw [length_append]
      rcases mem_append.mp he with he | he
      · exact Nat.lt_succ_of_lt (h.valid e he)
      · rw [mem_singleton.mp he]
        exact Nat.lt_succ_self _
    · intro e he
      rw [map_append]
      exact mem_append_left _ (h.known e he)
    · intro e he
      rcases mem_append.mp he with he | he
      · exact (hold e he).trans (h.bucket e he)
      · rw [mem_singleton.mp he]
        exact hlast.trans hempty.symm
    · intro e
      rw [h.heap e]
      constructor
      · rintro ⟨he, hne⟩
        exact ⟨mem_append_left _ he, by rw [bucket, hold e he]; exact hne⟩
      · rintro ⟨he, hne⟩
        rcases mem_append.mp he with he | he
        · exact ⟨he, by rw [← hold e he]; exact hne⟩
        · rw [mem_singleton.mp he] at hne
          exact absurd hlast hne

theorem getD_set (h : Holds q s) {t : P × Nat} (ht : t ∈ q.msgbuckets) (l : List M) {e : P × Nat}
    (he : e ∈ q.msgbuckets) :
    (q.buckets.set t.2 l).getD e.2 [] = if e.1 = t.1 then l else q.bucket e.2 := by
  have hiff : t.2 = e.2 ↔ e.1 = t.1 := by
    constructor
    · intro heq
      rw [inj_on_of_nodup_map h.handles ht he heq]
    · intro heq
      rw [inj_on_of_nodup_map h.keys he ht heq]
  rw [getD_eq_getElem?_getD, getElem?_set, bucket, getD_eq_getElem?_getD]
  by_cases heq : e.1 = t.1
  · rw [if_pos (hiff.mpr heq), if_pos (h.valid t ht), if_pos heq]
    rfl
  · rw [if_neg (fun h' => heq (hiff.mp h')), if_neg heq]

theorem ofPrio_append (s s' : List (P × M)) (prio : P) :
    ofPrio (s ++ s') prio = ofPrio s prio ++ ofPrio s' prio := by
  rw [ofPrio, filter_append, map_append]
  rfl

theorem ofPrio_cons (prio prio' : P) (msg : M) (s : List (P × M)) :
    ofPrio ((prio', msg) :: s) prio = if prio = prio' then msg ::
    ofPrio s prio else ofPrio s prio := by
  unfold ofPrio
  by_cases h : prio = prio'
  · rw [if_pos h, filter_cons_of_pos (by simpa using h.symm), map_cons]
  · rw [if_neg h, filter_cons_of_neg (by simpa using Ne.symm h)]

/-- The list after an enqueue. -/
def added (s : List (P × M)) (msg : M) (prio : P) (isFifo : Bool) : List (P × M) :=
  if isFifo then s ++ [(prio, msg)] else (prio, msg) :: s

theorem ofPrio_added (msg : M) (prio prio' : P) (isFifo : Bool) :
    ofPrio (added s msg prio isFifo) prio' = if prio' = prio then
      (if isFifo then ofPrio s prio ++ [msg] else msg :: ofPrio s prio) else ofPrio s prio' := by
  have hone : ofPrio [(prio, msg)] prio' = if prio' = prio then [msg] else [] := by
    rw [ofPrio_cons]
    rfl
  cases isFifo with
  | true =>
    rw [added, if_pos rfl, ofPrio_append, hone]
    by_cases h : prio' = prio
    · simp [h]
    · simp [h]
  | false =>
    rw [added, if_neg (by simp), ofPrio_cons]
    by_cases h : prio' = prio
    · simp [h]
    · simp [h]

omit [LinearOrder P] in
theorem mem_added {msg : M} {prio : P} {isFifo : Bool} {e : P × M} :
    e ∈ added s msg prio isFifo ↔ e = (prio, msg) ∨ e ∈ s := by
  cases isFifo with
  | true => simp [added, or_comm]
  | false => simp [added]

omit [LinearOrder P] in
theorem length_added (msg : M) (prio : P) (isFifo : Bool) :
    (added s msg prio isFifo).length = s.length + 1 := by
  cases isFifo <;> simp [added]

theorem Holds.set (h : Holds q s) {t : P × Nat} (ht : t ∈ q.msgbuckets) {l : List M}
    {s' : List (P × M)} {heap : List (P × Nat)} {n : Nat} (hsize : n = s'.length)
    (hknown : ∀ e ∈ s', e.1 ∈ q.msgbuckets.map fst)
    (hl : ∀ prio, ofPrio s' prio = if prio = t.1 then l else ofPrio s prio)
    (hheap : ∀ e, e ∈ heap ↔ if e = t then l ≠ [] else e ∈ q.prioQ) (hnodup : heap.Nodup) :
    Holds { q with buckets := q.buckets.set t.2 l, prioQ := heap, qSize := n } s' := by
  refine ⟨hsize, h.keys, h.handles, ?_, hknown, ?_, ?_, hnodup⟩
  · intro e he
    rw [length_set]
    exact h.valid e he
  · intro e he
    rw [MsgQ.bucket, getD_set h ht l he, hl, h.bucket e he]
  · intro e
    rw [hheap e]
    by_cases het : e = t
    · subst het
      rw [if_pos rfl, MsgQ.bucket, getD_set h ht l ht, if_pos rfl]
      exact ⟨fun hne => ⟨ht, hne⟩, fun hne => hne.2⟩
    · rw [if_neg het, h.heap e]
      refine and_congr_right ?_
      intro he
      have hne : e.1 ≠ t.1 := fun heq => het (inj_on_of_nodup_map h.keys he ht heq)
      rw [MsgQ.bucket, MsgQ.bucket, getD_set h ht l he, if_neg hne]
      rfl

/-- **`enq` adds the message** at the end it is told. -/
theorem enq_holds (h : Holds q s) (msg : M) (prio : P) (isFifo : Bool) :
    Holds (q.enq msg prio isFifo) (added s msg prio isFifo) := by
  obtain ⟨h, hmem⟩ := getBucket_holds h prio
  unfold enq
  rcases hget : q.getBucket prio with ⟨q', handle⟩
  rw [hget] at h hmem
  have hbkt : q'.bucket handle = ofPrio s prio := h.bucket _ hmem
  have hne : (if isFifo then q'.bucket handle ++ [msg] else msg :: q'.bucket handle) ≠ [] := by
    cases isFifo <;> simp
  have hstep : ∀ heap : List (P × Nat), (∀ e, e ∈ heap ↔ e = (prio, handle) ∨ e ∈ q'.prioQ) →
      heap.Nodup → Holds { q' with
        buckets := q'.buckets.set handle
          (if isFifo then q'.bucket handle ++ [msg] else msg :: q'.bucket handle)
        prioQ := heap
        qSize := q'.qSize + 1 } (added s msg prio isFifo) := by
    intro heap hheap hnodup
    refine Holds.set h hmem ?_ ?_ ?_ ?_ hnodup
    · rw [length_added, h.size]
    · intro e he
      rcases mem_added.mp he with rfl | he
      · exact mem_map_of_mem hmem
      · exact h.known e he
    · intro _
      rw [ofPrio_added, hbkt]
    · intro e
      rw [hheap e]
      by_cases heq : e = (prio, handle)
      · rw [if_pos heq]
        exact ⟨fun _ => hne, fun _ => .inl heq⟩
      · rw [if_neg heq]
        exact ⟨fun h' => h'.resolve_left heq, .inr⟩
  dsimp only
  cases hempty : (q'.bucket handle).isEmpty with
  | true =>
    refine hstep _ (fun e => mem_cons) (nodup_cons.mpr ⟨?_, h.nodup⟩)
    intro hin
    exact ((h.heap _).mp hin).2 (isEmpty_iff.mp hempty)
  | false =>
    refine hstep _ (fun e => ⟨.inr, ?_⟩) h.nodup
    rintro (rfl | he)
    · refine (h.heap _).mpr ⟨hmem, ?_⟩
      intro hnil
      rw [bucket] at hnil
      rw [bucket, hnil] at hempty
      exact absurd hempty (by simp)
    · exact he

theorem ofPrio_eq_cons {prio : P} {msg : M} {rest : List M} (h : ofPrio s prio = msg :: rest) :
    ∃ s₁ s₂, s = s₁ ++ (prio, msg) :: s₂ ∧ (∀ e ∈ s₁, e.1 ≠ prio) ∧ ofPrio s₂ prio = rest := by
  obtain ⟨⟨prio', msg'⟩, l, hfilter, rfl, rfl⟩ := map_eq_cons_iff.mp h
  obtain ⟨s₁, s₂, rfl, hs1, hprio, rfl⟩ := filter_eq_cons_iff.mp hfilter
  simp only [decide_eq_true_eq] at hprio hs1
  subst hprio
  exact ⟨s₁, s₂, rfl, hs1, rfl⟩

/-- **`deq` takes the first message of the smallest priority.** -/
theorem deq_holds (h : Holds q s) : (s = [] ∧ q.deq = .ok (none, q)) ∨
    ∃ prio msg s₁ s₂ q', s = s₁ ++ (prio, msg) :: s₂ ∧ (∀ e ∈ s₁, prio < e.1) ∧
    (∀ e ∈ s₂, prio ≤ e.1) ∧
      q.deq = .ok (some msg, q') ∧ Holds q' (s₁ ++ s₂) := by
  unfold deq
  cases s with
  | nil => exact .inl ⟨rfl, if_pos h.size⟩
  | cons x xs =>
    right
    have hsize : q.qSize ≠ 0 := by
      rw [h.size]
      exact Nat.succ_ne_zero _
    -- every message's priority is in the heap
    have hin : ∀ e ∈ x :: xs, ∃ handle, (e.1, handle) ∈ q.prioQ := by
      intro e he
      obtain ⟨k, hk, hkey⟩ := mem_map.mp (h.known e he)
      refine ⟨k.2, (h.heap _).mpr ⟨hkey ▸ hk, ?_⟩⟩
      rw [h.bucket k hk, hkey]
      intro hnil
      exact ofPrio_eq_nil_iff.mp hnil e he rfl
    obtain ⟨handle, hhandle⟩ := hin x mem_cons_self
    obtain ⟨t, htop, htmem, hmin⟩ := top_spec (ne_nil_of_mem hhandle)
    obtain ⟨hmap, hne⟩ := (h.heap t).mp htmem
    rw [if_neg hsize, htop]
    dsimp only
    cases hb : q.bucket t.2 with
    | nil => exact absurd hb hne
    | cons msg rest =>
      have hof : ofPrio (x :: xs) t.1 = msg :: rest := by rw [← h.bucket t hmap, hb]
      obtain ⟨s₁, s₂, hs, hs1, hs2⟩ := ofPrio_eq_cons hof
      have hle : ∀ e ∈ x :: xs, t.1 ≤ e.1 := by
        intro e he
        obtain ⟨k, hk⟩ := hin e he
        exact hmin _ hk
      refine ⟨t.1, msg, s₁, s₂, _, hs, ?_, ?_, rfl, ?_⟩
      · intro e he
        exact lt_of_le_of_ne (hle e (by rw [hs]; exact mem_append_left _ he)) (hs1 e he).symm
      · intro e he
        exact hle e (by rw [hs]; exact mem_append_right _ (mem_cons_of_mem _ he))
      refine Holds.set h hmap ?_ ?_ ?_ ?_ ?_
      · rw [h.size, hs]
        simp
      · intro e he
        refine h.known e ?_
        rw [hs]
        rcases mem_append.mp he with he | he
        · exact mem_append_left _ he
        · exact mem_append_right _ (mem_cons_of_mem _ he)
      · intro prio
        rw [hs, ofPrio_append, ofPrio_append, ofPrio_cons]
        by_cases hp : prio = t.1
        · subst hp
          rw [if_pos rfl, ofPrio_eq_nil_iff.mpr hs1, hs2, nil_append]
        · rw [if_neg hp, if_neg hp]
      · intro e
        cases rest with
        | nil =>
          rw [isEmpty_nil, if_pos rfl, h.nodup.mem_erase_iff]
          by_cases het : e = t
          · simp [het]
          · simp [het]
        | cons m' rest =>
          by_cases het : e = t
          · simp [het, htmem]
          · simp [het]
      · split
        · exact h.nodup.erase t
        · exact h.nodup

/-! ### Enumeration -/

omit [LinearOrder P] in
theorem copyBuckets_eq (bkts : List (List M)) (slots : Nat) :
    copyBuckets slots bkts = bkts.flatten.take slots := by
  induction bkts generalizing slots with
  | nil => simp [copyBuckets]
  | cons bkt bkts ih =>
    rw [copyBuckets, flatten_cons, take_append, ih]
    split
    · next h => simp [h]
    · rfl

theorem perm_flatMap_ofPrio {keys : List P} (hkeys : keys.Nodup) (hs : ∀ e ∈ s, e.1 ∈ keys) :
    (keys.flatMap (ofPrio s)).Perm (s.map snd) := by
  induction keys generalizing s with
  | nil =>
    cases s with
    | nil => exact .nil
    | cons e s => exact absurd (hs e mem_cons_self) (by simp)
  | cons k keys ih =>
    obtain ⟨hk, hkeys⟩ := nodup_cons.mp hkeys
    -- the messages of other priorities are all in the later buckets
    have hrest := ih hkeys (s := s.filter (fun e => !decide (e.1 = k))) (by
      intro e he
      obtain ⟨he, hne⟩ := mem_filter.mp he
      exact (mem_cons.mp (hs e he)).resolve_left (by simpa using hne))
    have hsame : ∀ k' ∈ keys, ofPrio s k' = ofPrio (s.filter (fun e => !decide (e.1 = k))) k' := by
      intro k' hk'
      rw [ofPrio, ofPrio, filter_filter]
      congr 1
      refine filter_congr ?_
      intro e _
      by_cases heq : e.1 = k'
      · have hne : k' ≠ k := fun h => hk (h ▸ hk')
        simp [heq, hne]
      · simp [heq]
    have hsplit := (filter_append_perm (fun e : P × M => decide (e.1 = k)) s).map snd
    rw [map_append] at hsplit
    rw [flatMap_cons]
    refine Perm.trans (Perm.append_left _ ?_) hsplit
    rw [flatMap_congr hsame]
    exact hrest

theorem flatMap_bucket_perm (h : Holds q s) {order : List (P × Nat)}
    (horder : order.Perm q.msgbuckets) :
    (order.flatMap fun e => q.bucket e.2).Perm (s.map snd) := by
  have hkeys := perm_flatMap_ofPrio h.keys h.known
  rw [flatMap_map] at hkeys
  refine (horder.flatMap_right _).trans ?_
  rwa [flatMap_congr h.bucket]

/-- **`enumerate`** over as many slots as there are messages yields each of them. -/
theorem enumerate_perm (h : Holds q s) {order : List (P × Nat)} (horder : order.Perm q.msgbuckets) :
    (q.enumerate order q.qSize).Perm (s.map snd) := by
  have hperm := flatMap_bucket_perm h horder
  have hlen : (order.flatMap fun e => q.bucket e.2).length = q.qSize := by
    rw [hperm.length_eq, length_map, h.size]
  rw [enumerate, copyBuckets_eq, ← flatMap_def, ← hlen, take_length]
  exact hperm

/-! ### Refinement -/

theorem filter_prioQ (h : Holds q s) (prio : P) : q.prioQ.filter (·.1 = prio) =
    match q.find prio with
    | none => []
    | some handle => if q.bucket handle = [] then [] else [(prio, handle)] := by
  have hunique : ∀ e ∈ q.prioQ.filter (·.1 = prio), q.find prio = some e.2 ∧ q.bucket e.2 ≠ [] ∧
      e = (prio, e.2) := by
    intro e he
    obtain ⟨he, hp⟩ := mem_filter.mp he
    rw [decide_eq_true_eq] at hp
    obtain ⟨hmem, hne⟩ := (h.heap e).mp he
    exact ⟨(find_eq_some_iff h.keys).mpr (hp ▸ hmem), hne, by rw [← hp]⟩
  have hnodup : (q.prioQ.filter (·.1 = prio)).Nodup := h.nodup.filter _
  cases hl : q.prioQ.filter (·.1 = prio) with
  | nil =>
    cases hf : q.find prio with
    | none => rfl
    | some handle =>
      have hmem := (find_eq_some_iff h.keys).mp hf
      refine (if_pos ?_).symm
      by_contra hne
      have hin : (prio, handle) ∈ q.prioQ.filter (·.1 = prio) :=
        mem_filter.mpr ⟨(h.heap _).mpr ⟨hmem, hne⟩, by simp⟩
      rw [hl] at hin
      exact absurd hin (by simp)
  | cons e l =>
    rw [hl] at hunique hnodup
    obtain ⟨hfind, hne, he⟩ := hunique e mem_cons_self
    have hnil : l = [] := by
      cases l with
      | nil => rfl
      | cons e' l =>
        obtain ⟨hfind', -, he'⟩ := hunique e' (by simp)
        have hhandle : e.2 = e'.2 := Option.some.inj (hfind.symm.trans hfind')
        have heq : e = e' := by rw [he, he', hhandle]
        exact absurd heq (by simp at hnodup; exact hnodup.1.1)
    rw [hfind, hnil]
    dsimp only
    rw [if_neg hne, ← he]

end MsgQ

/-- **`msgQ` refines a stable priority deque.** For every sequence of calls with their results
there is a run of the deque, and the list `s` it ends in is what the queue holds: each
priority is in the heap once with the address of its bucket if the bucket has messages and not
at all otherwise, the size is the number of messages, the next `deq` returns, and `enumerate`
yields every message once. -/
theorem msgQ_refines {P M : Type} [LinearOrder P] {l : List (MsgQCall P M)} {q : MsgQ P M}
    (h : (msgQ P M).Trace l q) :
    ∃ s, (stablePriorityDeque P M).Trace l s ∧ q.qSize = s.length ∧
      (∀ prio, q.prioQ.filter (·.1 = prio) =
        match q.find prio with
        | none => []
        | some handle => if q.bucket handle = [] then [] else [(prio, handle)]) ∧
      (∀ prio handle, q.find prio = some handle →
        q.bucket handle = (s.filter (·.1 = prio)).map Prod.snd) ∧
      (∀ e ∈ s, q.find e.1 ≠ none) ∧
      (∃ result q', q.deq = .ok (result, q') ∧ (result = none ↔ s = [])) ∧
      ∀ order, order.Perm q.msgbuckets → (q.enumerate order q.qSize).Perm (s.map Prod.snd) := by
  obtain ⟨s, htrace, hs⟩ := h.simulate (A := stablePriorityDeque P M)
    (fun q hq => ⟨[], rfl, by rw [hq]; exact MsgQ.holds_new⟩) (by
      intro q call q' s hs hstep
      cases call with
      | enq msg prio isFifo =>
        obtain rfl : q' = q.enq msg prio isFifo := hstep
        exact ⟨_, rfl, MsgQ.enq_holds hs msg prio isFifo⟩
      | deq result =>
        rcases MsgQ.deq_holds hs with ⟨rfl, hdeq⟩ | ⟨prio, msg, s₁, s₂, q'', rfl, h₁,
          h₂, hdeq, hq''⟩
        · rw [hstep] at hdeq
          obtain ⟨rfl, rfl⟩ := mk.inj (Except.ok.inj hdeq)
          exact ⟨[], ⟨rfl, rfl⟩, hs⟩
        · rw [hstep] at hdeq
          obtain ⟨rfl, rfl⟩ := mk.inj (Except.ok.inj hdeq)
          exact ⟨s₁ ++ s₂, ⟨prio, s₁, s₂, rfl, h₁, h₂, rfl⟩, hq''⟩)
  refine ⟨s, htrace, hs.size, MsgQ.filter_prioQ hs, ?_, ?_, ?_, fun order => MsgQ.enumerate_perm hs⟩
  · intro prio handle hfind
    exact hs.bucket _ ((MsgQ.find_eq_some_iff hs.keys).mp hfind)
  · intro e he hnone
    exact MsgQ.find_eq_none_iff.mp hnone (hs.known e he)
  · rcases MsgQ.deq_holds hs with ⟨rfl, hdeq⟩ | ⟨prio, msg, s₁, s₂, q', rfl, -, -, hdeq, -⟩
    · exact ⟨none, q, hdeq, by simp⟩
    · exact ⟨some msg, q', hdeq, by simp⟩

/-- Two messages, the later one more urgent. -/
theorem msgQ_refines_two :
    ∃ q : MsgQ Nat Nat, (msgQ Nat Nat).Trace [.enq 7 1 true, .enq 8 0 false, .deq (some 8)] q ∧
      ∃ s, (stablePriorityDeque Nat Nat).Trace [.enq 7 1 true, .enq 8 0 false, .deq (some 8)] s ∧
        q.qSize = s.length := by
  have h1 : (msgQ Nat Nat).Trace [.enq 7 1 true] (MsgQ.new.enq 7 1 true) :=
    .step (.init rfl) rfl
  have h2 : (msgQ Nat Nat).Trace [.enq 7 1 true, .enq 8 0 false]
    ((MsgQ.new.enq 7 1 true).enq 8 0 false) :=
    .step h1 rfl
  have h3 : (msgQ Nat Nat).Trace [.enq 7 1 true, .enq 8 0 false, .deq (some 8)]
      { qSize := 1, buckets := [[7], []], msgbuckets := [(1, 0), (0, 1)], prioQ := [(1, 0)] } :=
    .step h2 rfl
  obtain ⟨s, hs, hsize, -⟩ := msgQ_refines h3
  exact ⟨_, h3, s, hs, hsize⟩

end CharmRuntime.Queueing
