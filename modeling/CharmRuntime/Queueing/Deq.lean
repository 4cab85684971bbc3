import CharmRuntime.Lib.RingBuffer
import Mathlib.Data.List.Induction

/-!
# Queueing.Deq

The **ring buffer** `deq_struct` of the scheduler queue (`conv-core/queueing.C`).

A `Deq` is a circular buffer of pointers that doubles when it would become full.
The pointers into it are indices from `bgn`; a null pointer is `none`, and so is
a slot that was never written. `content` is the abstract double-ended list; each
operation is described once by what it does to it.

The new size is an `int`, so that 2 ^ 30 slots cannot be doubled: an insertion that
fills them has no result.
-/

namespace CharmRuntime.Queueing

open Lib.RingBuffer Function List Nat

/-- `deq_struct`: the slots from `bgn` on, `end - bgn`, `head - bgn`, `tail - bgn`. -/
structure Deq (α : Type) where
  vec : Nat → Option α
  size : Nat
  head : Nat
  tail : Nat

namespace Deq

variable {α : Type}

/-- `CqsDeqInit`: the internal space of four slots. -/
def init : Deq α := { vec := fun _ => none, size := 4, head := 0, tail := 0 }

/-- Copy from `head` to the end, then the rest, into a vector of twice the size. -/
def doubled (d : Deq α) : Deq α :=
  let rsize := d.size - d.head
  let lsize := d.head
  { vec := fun i =>
      if i < rsize then d.vec (d.head + i)
      else if i < rsize + lsize then d.vec (i - rsize)
      else none
    size := d.size * 2
    head := 0
    tail := d.size }

/-- `CqsDeqExpand`, if `oldsize << 1` is an `int`. -/
def expand (d : Deq α) : Option (Deq α) := if d.size * 2 < 2 ^ 31 then some d.doubled else none

/-- `CqsDeqEnqueueFifo`. -/
def enqueueFifo (d : Deq α) (data : Option α) : Option (Deq α) :=
  let vec := update d.vec d.tail data
  let tail := if d.tail + 1 = d.size then 0 else d.tail + 1
  let d := { d with vec, tail }
  if tail = d.head then d.expand else some d

/-- `CqsDeqEnqueueLifo`. -/
def enqueueLifo (d : Deq α) (data : Option α) : Option (Deq α) :=
  let head := (if d.head = 0 then d.size else d.head) - 1
  let d := { d with vec := update d.vec head data, head }
  if head = d.tail then d.expand else some d

/-- `CqsDeqDequeue`. -/
def dequeue (d : Deq α) : Option α × Deq α :=
  if d.head = d.tail then (none, d)
  else (d.vec d.head, { d with head := if d.head + 1 = d.size then 0 else d.head + 1 })

/-- The loop of `CqsEnumerateDeq` from slot `pos` on, for at most `fuel` slots. -/
def walk (d : Deq α) : Nat → Nat → List (Option α)
  | 0, _ => []
  | fuel + 1, pos =>
    if pos = d.tail then []
    else d.vec pos :: d.walk fuel (if pos + 1 = d.size then 0 else pos + 1)

/-- `CqsEnumerateDeq`; the walk meets `tail` before it has gone round. -/
def enumerate (d : Deq α) : List (Option α) := d.walk d.size d.head

/-! ### The double-ended list -/

/-- Number of used slots. -/
def length (d : Deq α) :
    Nat := if d.head ≤ d.tail then d.tail - d.head else d.tail + d.size - d.head

/-- The slot `i` places after `head`. -/
def slot (d : Deq α) (i : Nat) :
    Nat := if d.head + i < d.size then d.head + i else d.head + i - d.size

/-- What the buffer holds, from `head` to `tail`. -/
def content (d : Deq α) : List (Option α) := (List.range d.length).map (fun i => d.vec (d.slot i))

/-- The indices are inside the buffer, which was doubled some times. -/
structure Wf (d : Deq α) : Prop where
  head_lt : d.head < d.size
  tail_lt : d.tail < d.size
  size : ∃ k ≤ 30, d.size = 2 ^ k

theorem init_wf : (init : Deq α).Wf := ⟨by simp [init], by simp [init], 2, by decide, rfl⟩

@[simp] theorem content_init : (init : Deq α).content = [] := rfl

theorem length_content (d : Deq α) : d.content.length = d.length := by
  simp [content]

variable {d : Deq α}

theorem Wf.length_lt (h : d.Wf) : d.length < d.size := by
  have h2 := h.tail_lt
  unfold length
  split <;> omega

theorem Wf.size_le (h : d.Wf) : d.size ≤ 2 ^ 30 := by
  obtain ⟨k, hk, hsize⟩ := h.size
  rw [hsize]
  exact Nat.pow_le_pow_right Nat.two_pos hk

theorem content_eq_nil_iff (h : d.Wf) : d.content = [] ↔ d.head = d.tail := by
  have h1 := h.head_lt
  rw [← length_eq_zero_iff, length_content]
  unfold length
  constructor
  · intro hz
    split at hz <;> omega
  · intro _
    rw [if_pos (by omega)]
    omega

theorem slot_eq_mod (hhead : d.head < d.size) {i : Nat} (hi : i ≤ d.size) :
    d.slot i = (d.head + i) % d.size := by
  unfold slot
  split_ifs with h
  · rw [mod_eq_of_lt h]
  · rw [mod_eq_sub_mod (by omega), mod_eq_of_lt (by omega)]

theorem map_slot (hhead : d.head < d.size) {len : Nat} (hlen : len ≤ d.size) :
    (range len).map (fun i => d.vec (d.slot i)) = contents d.size d.vec d.head len :=
  map_congr_left fun i hi => by rw [slot_eq_mod hhead ((mem_range.mp hi).le.trans hlen)]

theorem Wf.content_eq (h : d.Wf) : d.content = contents d.size d.vec d.head d.length :=
  map_slot h.head_lt h.length_lt.le

theorem Wf.tail_eq (h : d.Wf) : d.tail = (d.head + d.length) % d.size := by
  have h1 := h.head_lt
  have h2 := h.tail_lt
  rw [← slot_eq_mod h1 h.length_lt.le]
  unfold length slot
  split <;> split <;> omega

/-- The index behind `i`. -/
theorem next_eq_mod {i size : Nat} (hi : i < size) :
    (if i + 1 = size then 0 else i + 1) = (i + 1) % size := by
  split_ifs with h
  · rw [h, mod_self]
  · rw [mod_eq_of_lt (by omega)]

/-- Expanding a buffer whose `tail` has just met `head` keeps all `size` slots. -/
theorem content_doubled (hhead : d.head < d.size) :
    d.doubled.content = (range d.size).map (fun i => d.vec (d.slot i)) := by
  have hlength : d.doubled.length = d.size := by
    rw [length, doubled, if_pos (Nat.zero_le _), Nat.sub_zero]
  rw [content, hlength, map_slot (by simp only [doubled]; omega) (by simp only [doubled]; omega),
    map_slot hhead le_rfl]
  refine contents_unroll hhead le_rfl (Nat.le_mul_of_pos_right _ Nat.two_pos) fun i hi => ?_
  simp only [doubled]
  split_ifs with h₁ h₂
  · rfl
  · rfl
  · omega

/-- A buffer of fewer slots can be expanded. -/
theorem expand_cases (hhead : d.head < d.size) (hsize : ∃ k ≤ 30, d.size = 2 ^ k) :
    (d.size = 2 ^ 30 ∧ d.expand = none) ∨
      (d.size < 2 ^ 30 ∧ d.expand = some d.doubled ∧ d.doubled.Wf) := by
  obtain ⟨k, hk, hpow⟩ := hsize
  obtain rfl | hlt := hk.eq_or_lt
  · exact .inl ⟨hpow, if_neg (by rw [hpow]; decide)⟩
  · have hroom : d.size < 2 ^ 30 := by
      rw [hpow]
      exact Nat.pow_lt_pow_right (by decide) hlt
    refine .inr ⟨hroom, if_pos (by omega), ?_, ?_, k + 1, hlt, ?_⟩
    · simp only [doubled]
      omega
    · simp only [doubled]
      omega
    · rw [doubled, hpow, pow_succ]

/-- A buffer with one element more, which is expanded if it has become full. -/
theorem inserted (d' : Deq α) (h : d.Wf) (hsize : d'.size = d.size) (hhead : d'.head < d'.size)
    (htail : d'.tail < d'.size) (hlen : d'.tail = (d'.head + (d.length + 1)) % d.size) {full : Prop}
    [Decidable full] (hfull : full ↔ d'.tail = d'.head) :
    (d.length + 1 = 2 ^ 30 ∧ (if full then d'.expand else some d') = none) ∨
      (d.length + 1 < 2 ^ 30 ∧ ∃ e, (if full then d'.expand else some d') = some e ∧ e.Wf ∧
        e.content = contents d.size d'.vec d'.head (d.length + 1)) := by
  have hlt := h.length_lt
  have hmax := h.size_le
  have hpow := h.size
  rw [← hsize] at hpow
  have hcases : d.length + 1 = d.size ∧ d'.tail = d'.head ∨
      d.length + 1 < d.size ∧ d'.tail ≠ d'.head ∧ d'.length = d.length + 1 := by
    have hlen' : d'.length = if d'.head ≤ d'.tail then d'.tail - d'.head
        else d'.tail + d.size - d'.head := by rw [length, hsize]
    rw [hsize] at hhead htail
    rw [hlen', hlen]
    rcases lt_or_ge (d'.head + (d.length + 1)) d.size with hin | hout
    · rw [mod_eq_of_lt hin, if_pos (by omega)]
      omega
    · rw [mod_eq_sub_mod hout, mod_eq_of_lt (by omega)]
      split_ifs <;> omega
  rcases hcases with ⟨hroom, heq⟩ | ⟨hroom, hne, hlen'⟩
  · rw [if_pos (hfull.mpr heq)]
    obtain ⟨hbig, hnone⟩ | ⟨hsmall, hsome, hwf⟩ := expand_cases hhead hpow
    · exact .inl ⟨by omega, hnone⟩
    · refine .inr ⟨by omega, _, hsome, hwf, ?_⟩
      rw [content_doubled hhead, map_slot hhead le_rfl, hsize, hroom]
  · have hwf : d'.Wf := ⟨hhead, htail, hpow⟩
    rw [if_neg fun h => hne (hfull.mp h)]
    exact .inr ⟨by omega, d', rfl, hwf, by rw [hwf.content_eq, hsize, hlen']⟩

/-- **Append.** -/
theorem enqueueFifo_spec (h : d.Wf) (data : Option α) :
    (d.length + 1 = 2 ^ 30 ∧ d.enqueueFifo data = none) ∨ (d.length + 1 < 2 ^ 30 ∧
      ∃ e, d.enqueueFifo data = some e ∧ e.Wf ∧ e.content = d.content ++ [data]) := by
  have htail := h.tail_eq
  rw [h.content_eq, ← contents_append h.length_lt, ← htail]
  have hnext := next_eq_mod h.tail_lt
  refine inserted
    { d with vec := update d.vec d.tail data,
             tail := if d.tail + 1 = d.size then 0 else d.tail + 1 }
    h rfl h.head_lt ?_ ?_ Iff.rfl
  · exact hnext ▸ mod_lt _ (zero_lt_of_lt h.tail_lt)
  · rw [hnext, htail, mod_add_mod, add_assoc]

/-- **Prepend.** -/
theorem enqueueLifo_spec (h : d.Wf) (data : Option α) :
    (d.length + 1 = 2 ^ 30 ∧ d.enqueueLifo data = none) ∨ (d.length + 1 < 2 ^ 30 ∧
      ∃ e, d.enqueueLifo data = some e ∧ e.Wf ∧ e.content = data :: d.content) := by
  have hlt := h.head_lt
  obtain ⟨head, hhead⟩ : ∃ head, (if d.head = 0 then d.size else d.head) - 1 = head := ⟨_, rfl⟩
  have hnext : (head + 1) % d.size = d.head := by
    rw [← hhead]
    split_ifs with h0
    · rw [h0, Nat.sub_add_cancel (by omega), mod_self]
    · rw [Nat.sub_add_cancel (by omega), mod_eq_of_lt hlt]
  have hin : head < d.size := by
    rw [← hhead]
    split <;> omega
  have hdeq : d.enqueueLifo data =
      if head = d.tail then { d with vec := update d.vec head data, head }.expand
      else some { d with vec := update d.vec head data, head } := by
    rw [enqueueLifo, hhead]
  rw [h.content_eq, ← contents_prepend h.length_lt hin (hnext.trans (mod_eq_of_lt hlt).symm) data,
    hdeq]
  refine inserted { d with vec := update d.vec head data, head } h rfl hin h.tail_lt ?_ eq_comm
  rw [add_left_comm, add_comm d.length, ← mod_add_mod, hnext, ← h.tail_eq]

/-- **Pop from the front.** -/
theorem dequeue_cons (h : d.Wf) {m : Option α} {rest : List (Option α)}
    (hc : d.content = m :: rest) :
    d.dequeue.1 = m ∧ d.dequeue.2.Wf ∧ d.dequeue.2.content = rest := by
  have hlt := h.head_lt
  have hne : d.head ≠ d.tail := fun heq => by simp [(content_eq_nil_iff h).mpr heq] at hc
  have hnext := next_eq_mod hlt
  rw [dequeue, if_neg hne]
  have hwf : { d with head := if d.head + 1 = d.size then 0 else d.head + 1 }.Wf :=
    ⟨hnext ▸ mod_lt _ (zero_lt_of_lt hlt), h.tail_lt, h.size⟩
  have hlen :
    d.length = { d with head := if d.head + 1 = d.size then 0 else d.head + 1 }.length + 1 := by
    have htail := h.tail_lt
    unfold length
    dsimp only
    split_ifs <;> omega
  rw [h.content_eq, hlen, contents_succ, mod_eq_of_lt hlt] at hc
  obtain ⟨hm, hrest⟩ := cons.inj hc
  refine ⟨hm, hwf, ?_⟩
  rw [hwf.content_eq, ← hrest]
  rw [hnext, contents_mod]

theorem walk_eq (h : d.Wf) : ∀ n pos, pos < d.size → ({ d with head := pos } : Deq α).length < n →
      d.walk n pos = ({ d with head := pos } : Deq α).content := by
  intro n
  induction n with
  | zero => intro pos _ hn; exact absurd hn (not_lt_zero _)
  | succ n ih =>
    intro pos hpos hn
    have hwf : { d with head := pos }.Wf := ⟨hpos, h.tail_lt, h.size⟩
    rw [walk]
    by_cases heq : pos = d.tail
    · rw [if_pos heq, (content_eq_nil_iff hwf).mpr heq]
    · rw [if_neg heq]
      cases hc : { d with head := pos }.content with
      | nil => exact absurd ((content_eq_nil_iff hwf).mp hc) heq
      | cons m rest =>
        obtain ⟨hm, hwf', hrest⟩ := dequeue_cons hwf hc
        have hdeq : { d with head := pos }.dequeue =
            (d.vec pos, { d with head := if pos + 1 = d.size then 0 else pos + 1 }) := by
          unfold dequeue
          rw [if_neg heq]
        rw [hdeq] at hm hwf' hrest
        dsimp only at hm hwf' hrest
        have hlen := congrArg List.length hc
        rw [length_content, length_cons] at hlen
        have hlen' := congrArg List.length hrest
        rw [length_content] at hlen'
        have hnext : (if pos + 1 = d.size then 0 else pos + 1) < d.size := hwf'.head_lt
        rw [ih _ hnext (by omega), hm, hrest]

/-- **Enumeration** returns the list, in order. -/
theorem enumerate_eq (h : d.Wf) : d.enumerate = d.content :=
  walk_eq h d.size d.head h.head_lt h.length_lt

/-! ### Runs -/

variable {l : List α}

/-- A call. The data that it inserts is no null pointer. -/
inductive Call (α : Type)
  | enqueueFifo (data : α)
  | enqueueLifo (data : α)
  | dequeue

/-- What a call returns, and the deq after it. -/
def call (d : Deq α) : Call α → Option (Option α × Deq α)
  | .enqueueFifo data => (d.enqueueFifo (some data)).map (none, ·)
  | .enqueueLifo data => (d.enqueueLifo (some data)).map (none, ·)
  | .dequeue => some d.dequeue

/-- The call on a list. -/
def Call.onList (l : List α) : Call α → Option α × List α
  | .enqueueFifo data => (none, l ++ [data])
  | .enqueueLifo data => (none, data :: l)
  | .dequeue => (l.head?, l.tail)

def run (calls : List (Call α)) : Option (Deq α) :=
  calls.foldlM (fun d c => (d.call c).map Prod.snd) init

def listRun (calls : List (Call α)) : List α := calls.foldl (fun l c => (c.onList l).2) []

/-- The deq holds the list. -/
structure Holds (d : Deq α) (l : List α) : Prop where
  wf : d.Wf
  content : d.content = l.map some

theorem Holds.length (h : d.Holds l) : d.length = l.length := by
  rw [← length_content, h.content, length_map]

/-- A call has a result unless it fills the largest buffer. -/
theorem call_cases (h : d.Holds l) (c : Call α) :
    ((c.onList l).2.length = 2 ^ 30 ∧ d.call c = none) ∨ ((c.onList l).2.length < 2 ^ 30 ∧
      ∃ d', d.call c = some ((c.onList l).1, d') ∧ d'.Holds (c.onList l).2) := by
  have hlength := h.length
  cases c with
  | enqueueFifo data =>
    have hadded : (l ++ [data]).length = d.length + 1 := by rw [length_append, hlength]; rfl
    obtain ⟨hfull, hnone⟩ | ⟨hroom, d', hsome, hwf, hc⟩ := enqueueFifo_spec h.wf (some data)
    · exact .inl ⟨hadded.trans hfull, by rw [call, hnone]; rfl⟩
    · refine .inr ⟨hadded.trans_lt hroom, d', by rw [call, hsome]; rfl, hwf, ?_⟩
      rw [hc, h.content, Call.onList, map_append]
      rfl
  | enqueueLifo data =>
    have hadded : (data :: l).length = d.length + 1 := by rw [length_cons, hlength]
    obtain ⟨hfull, hnone⟩ | ⟨hroom, d', hsome, hwf, hc⟩ := enqueueLifo_spec h.wf (some data)
    · exact .inl ⟨hadded.trans hfull, by rw [call, hnone]; rfl⟩
    · refine .inr ⟨hadded.trans_lt hroom, d', by rw [call, hsome]; rfl, hwf, ?_⟩
      rw [hc, h.content]
      rfl
  | dequeue =>
    have hlt : l.tail.length < 2 ^ 30 := by
      have hmax := h.wf.length_lt.trans_le h.wf.size_le
      rw [length_tail]
      omega
    refine .inr ⟨hlt, ?_⟩
    cases l with
    | nil =>
      have hdeq : d.dequeue = (none, d) := if_pos ((content_eq_nil_iff h.wf).mp h.content)
      exact ⟨d, congrArg some hdeq, h⟩
    | cons x l =>
      obtain ⟨hm, hwf, hc⟩ := dequeue_cons h.wf h.content
      exact ⟨d.dequeue.2, congrArg some (Prod.ext hm rfl), hwf, hc⟩

theorem run_concat (calls : List (Call α)) (c : Call α) :
    run (calls ++ [c]) = (run calls).bind fun d => (d.call c).map Prod.snd := by
  rw [run, foldlM_append]
  refine congrArg (Option.bind _) (funext fun d => ?_)
  rw [foldlM_cons]
  cases (d.call c).map Prod.snd <;> rfl

theorem listRun_concat (calls : List (Call α)) (c : Call α) :
    listRun (calls ++ [c]) = (c.onList (listRun calls)).2 := by
  rw [listRun, foldl_concat]
  rfl

/-- Behind each of the calls there are fewer elements than slots can be. -/
def Bounded (calls : List (Call α)) : Prop :=
  ∀ done rest, calls = done ++ rest → (listRun done).length < 2 ^ 30

theorem run_holds {calls : List (Call α)} (h : Bounded calls) :
    ∃ d, run calls = some d ∧ d.Holds (listRun calls) := by
  induction calls using reverseRecOn with
  | nil => exact ⟨init, rfl, init_wf, rfl⟩
  | append_singleton calls c ih =>
    obtain ⟨d, hd, hholds⟩ :=
      ih fun done rest heq => h done (rest ++ [c]) (by rw [heq, append_assoc])
    have hlt := h (calls ++ [c]) [] (append_nil _).symm
    rw [listRun_concat] at hlt
    obtain ⟨hfull, -⟩ | ⟨-, d', hcall, hholds'⟩ := call_cases hholds c
    · exact absurd hfull hlt.ne
    · refine ⟨d', ?_, (listRun_concat calls c).symm ▸ hholds'⟩
      rw [run_concat, hd, Option.bind_some, hcall]
      rfl

/-- **The ring buffer is a double-ended list**, while there are fewer than 2 ^ 30 elements: after
any calls, for what the next one returns, when it is enumerated, and when it is expanded. -/
theorem deq_refines_list {calls : List (Call α)} (h : Bounded calls) :
    ∃ d, run calls = some d ∧ (d.head = d.tail ↔ listRun calls = []) ∧
      d.content = (listRun calls).map some ∧ d.enumerate = (listRun calls).map some ∧
      (∀ c, (c.onList (listRun calls)).2.length < 2 ^ 30 →
        ∃ d', d.call c = some ((c.onList (listRun calls)).1, d')) ∧
      ∀ d : Deq α, d.head < d.size → d.size < 2 ^ 30 → ∃ d', d.expand = some d' ∧
        d'.size = 2 * d.size ∧ d'.content = (List.range d.size).map fun i => d.vec (d.slot i) := by
  obtain ⟨d, hd, hholds⟩ := run_holds h
  refine ⟨d, hd, ?_, hholds.content, (enumerate_eq hholds.wf).trans hholds.content,
    fun c hlt => ?_, fun d hhead hsize => ?_⟩
  · rw [← content_eq_nil_iff hholds.wf, hholds.content, map_eq_nil_iff]
  · obtain ⟨hfull, -⟩ | ⟨-, d', hcall, -⟩ := call_cases hholds c
    · exact absurd hfull hlt.ne
    · exact ⟨d', hcall⟩
  · exact ⟨d.doubled, if_pos (by omega), mul_comm _ _, content_doubled hhead⟩

theorem length_listRun_le (calls : List (Call α)) : (listRun calls).length ≤ calls.length := by
  induction calls using reverseRecOn with
  | nil => exact le_refl 0
  | append_singleton calls c ih =>
    rw [listRun_concat, length_append, length_singleton]
    cases c with
    | enqueueFifo data =>
      rw [Call.onList, length_append, length_singleton]
      exact Nat.succ_le_succ ih
    | enqueueLifo data =>
      rw [Call.onList, length_cons]
      exact Nat.succ_le_succ ih
    | dequeue =>
      rw [Call.onList, length_tail]
      omega

/-- The tail wraps, and the head does so backwards and meets it. -/
theorem deq_refines_list_wrapCalls :
    ∃ d : Deq Nat, run [.enqueueFifo 1, .enqueueFifo 2, .enqueueFifo 3, .dequeue, .enqueueFifo 4,
      .enqueueLifo 5, .enqueueLifo 6] = some d ∧
      d.enumerate = [some 6, some 5, some 2, some 3, some 4] := by
  obtain ⟨d, hd, -, -, henum, -⟩ := @deq_refines_list Nat [.enqueueFifo 1, .enqueueFifo 2,
    .enqueueFifo 3, .dequeue, .enqueueFifo 4, .enqueueLifo 5, .enqueueLifo 6]
      fun done rest heq => by
      have hle := congrArg List.length heq
      rw [length_append] at hle
      have hdone := length_listRun_le done
      simp only [length_cons, length_nil] at hle
      omega
  exact ⟨d, hd, henum⟩

theorem listRun_replicate (n x : Nat) :
    listRun (replicate n (Call.enqueueFifo x)) = replicate n x := by
  induction n with
  | zero => rfl
  | succ n ih => rw [replicate_succ', listRun_concat, ih, Call.onList, replicate_succ']

theorem bounded_replicate {n : Nat} (hn : n < 2 ^ 30) (c : Call α) : Bounded (replicate n c) := by
  intro done rest heq
  have hle := congrArg List.length heq
  rw [length_append, length_replicate] at hle
  have hdone := length_listRun_le done
  omega

/-- The largest buffer is filled. -/
theorem run_replicate_eq_none {n : Nat} (hn : n + 1 = 2 ^ 30) (x : Nat) :
    ∃ d, run (replicate n (Call.enqueueFifo x)) = some d ∧ d.enqueueFifo (some x) = none := by
  have hlt : n < 2 ^ 30 := by omega
  obtain ⟨d, hd, hholds⟩ := run_holds (bounded_replicate hlt (Call.enqueueFifo x))
  refine ⟨d, hd, ?_⟩
  have hlength := hholds.length
  rw [listRun_replicate, length_replicate] at hlength
  obtain ⟨-, hnone⟩ | ⟨hroom, -⟩ := enqueueFifo_spec hholds.wf (some x)
  · exact hnone
  · omega

/-- 2 ^ 30 insertions. -/
theorem not_deq_refines_list : run (replicate (2 ^ 30) (Call.enqueueFifo 0)) = none := by
  obtain ⟨n, hn⟩ : ∃ n, n + 1 = 2 ^ 30 := ⟨2 ^ 30 - 1, rfl⟩
  obtain ⟨d, hd, hnone⟩ := run_replicate_eq_none hn 0
  rw [← hn, replicate_succ', run_concat, hd, Option.bind_some, call, hnone]
  rfl

end Deq

end CharmRuntime.Queueing
