import CharmRuntime.Converse.MultipleSend
import CharmRuntime.Lib.Outcome
import Mathlib.Algebra.BigOperators.Group.Finset.Piecewise
import Mathlib.Algebra.Order.BigOperators.Group.Finset
import Mathlib.Data.List.GetD

/-!
# Converse.MultipleSendSound

A bundle decodes to the messages sent, and is released once. The block is always its chunk
header followed by bytes (`rest`) that the reference counting leaves alone: `SubMessage` says
what these bytes hold for one message, among it the way back to the header. The count in the
header is the number of references held, in every state that the receiver can reach.
-/

namespace CharmRuntime.Converse

open Lib List Except
open Function (update)

/-! ### The chunk header of the block -/

section Header

variable {c : Nat} {size ref : Int} {rest : List MemVal}

theorem length_chunkHead (hc : 8 ≤ c) : (chunkHead c size ref).length = c := by
  unfold chunkHead
  rw [length_append, length_append, MemVal.length_encodeInt, MemVal.length_encodeInt,
    length_replicate]
  omega

theorem read_size (size ref : Int) (rest : List MemVal) :
    readInt (chunkHead c size ref ++ rest) 0 = .ok size := by
  have h := readInt_append length_nil size
    (MemVal.encodeInt 4 ref ++ replicate (c - 8) MemVal.blank ++ rest)
  unfold chunkHead
  simpa only [nil_append, append_assoc] using h

theorem read_ref (size ref : Int) (rest : List MemVal) :
    readInt (chunkHead c size ref ++ rest) 4 = .ok ref := by
  have h := readInt_append (MemVal.length_encodeInt 4 size) ref
    (replicate (c - 8) MemVal.blank ++ rest)
  unfold chunkHead
  simpa only [append_assoc] using h

theorem write_ref (size ref ref' : Int) (rest : List MemVal) :
    writeInt (chunkHead c size ref ++ rest) 4 ref' = .ok (chunkHead c size ref' ++ rest) := by
  have h := writeInt_append (MemVal.length_encodeInt 4 size) (MemVal.length_encodeInt 4 ref) ref'
    (replicate (c - 8) MemVal.blank ++ rest)
  unfold chunkHead
  simpa only [append_assoc] using h

end Header

/-! ### Sub-messages -/

/-- The bytes of a message, followed by its padding. -/
def padded (msg : List UInt8) : List MemVal :=
  msg.map MemVal.byte ++ List.replicate (paddingSize msg.length) (MemVal.byte 0)

theorem length_padded (msg : List UInt8) : (padded msg).length = roundUpSize msg.length := by
  unfold padded paddingSize roundUpSize
  rw [length_append, length_map, length_replicate]
  omega

/-- The bytes `rest` behind the block's header hold message `msg` at index `p` of the block,
with its size, and in front of it the way back. -/
structure SubMessage (c hdr : Nat) (rest : List MemVal) (msg : List UInt8) (q : Nat × Int) :
    Prop where
  start : 2 * c + multipleHeaderSize hdr ≤ q.1
  /-- The distance from the start of the bundle is a multiple of eight. -/
  aligned : 8 ∣ q.1 - c
  size : q.2 = roundUpSize msg.length
  bytes : MemVal.slice rest (q.1 - c) (roundUpSize msg.length) = some (padded msg)
  back : readInt rest (q.1 - 2 * c + 4) = .ok ((c : Int) - q.1)

section Counting

variable {c hdr : Nat} {size : Int} {ref : Nat} {rest : List MemVal} {msg : List UInt8}
  {q : Nat × Int}

theorem refField_block (size : Int) (ref : Int) (rest : List MemVal) :
    refField c (chunkHead c size ref ++ rest) c = .ok ref := by
  unfold refField
  rw [if_neg (lt_irrefl c), Nat.sub_self]
  exact read_ref size ref rest

theorem findEnclosing_block (fuel : Nat) :
    findEnclosing c (chunkHead c size ref ++ rest) (fuel + 1) c = .ok c := by
  have hn : ¬ (ref : Int) < 0 := by omega
  unfold findEnclosing
  rw [refField_block]
  simp only [bind, Except.bind]
  rw [if_neg hn]

theorem allocFindEnclosing_sub (hc : 8 ≤ c) (h : SubMessage c hdr rest msg q) :
    allocFindEnclosing c (chunkHead c size ref ++ rest) q.1 = .ok c := by
  have hstart := h.start
  have hback : refField c (chunkHead c size ref ++ rest) q.1 = .ok (c - q.1) := by
    unfold refField
    rw [if_neg (by omega), show q.1 - c + 4 = c + (q.1 - 2 * c + 4) by omega,
      readInt_right (length_chunkHead hc)]
    exact h.back
  have hlt : (c : Int) - q.1 < 0 := by omega
  have hdown : ((q.1 : Int) + (c - q.1)).toNat = c := by omega
  obtain ⟨fuel, hfuel⟩ : ∃ fuel, q.1 = fuel + 1 := ⟨q.1 - 1, by omega⟩
  unfold allocFindEnclosing findEnclosing
  rw [hback]
  simp only [bind, Except.bind]
  rw [if_pos hlt, hdown]
  rw [hfuel]
  exact findEnclosing_block fuel

/-- `CmiReference` of a sub-message counts in the block. -/
theorem cmiReference_sub (hc : 8 ≤ c) (h : SubMessage c hdr rest msg q) (hmax : ref < maxInt) :
    cmiReference c ⟨chunkHead c size ref ++ rest, 0⟩ q.1 =
      .ok ⟨chunkHead c size (ref + 1 : Nat) ++ rest, 0⟩ := by
  have hno : ¬ (ref : Int) ≥ maxInt := by omega
  unfold cmiReference
  simp only [bind, Except.bind, allocFindEnclosing_sub hc h, refField_block, hno,
    Nat.sub_self, write_ref]
  rfl

/-- A count that is as large as an `int` can be. -/
theorem cmiReference_full (hc : 8 ≤ c) (h : SubMessage c hdr rest msg q) (hmax : maxInt ≤ ref) :
    cmiReference c ⟨chunkHead c size ref ++ rest, 0⟩ q.1 = .error .overflow := by
  have hfull : (ref : Int) ≥ maxInt := by omega
  unfold cmiReference
  rw [if_neg (not_not.mpr rfl)]
  simp only [bind, Except.bind, allocFindEnclosing_sub hc h, refField_block, hfull, if_true]

/-- One `CmiFree` less to come; the last one releases the block. -/
theorem free_count {p : Nat}
    (hp : allocFindEnclosing c (chunkHead c size (ref + 1 : Nat) ++ rest) p = .ok c) :
    cmiFree c ⟨chunkHead c size (ref + 1 : Nat) ++ rest, 0⟩ p =
      .ok ⟨chunkHead c size ref ++ rest, if ref = 0 then 1 else 0⟩ := by
  have hpos : ¬ ((ref + 1 : Nat) : Int) = 0 := by omega
  have hsub : ((ref + 1 : Nat) : Int) - 1 = ref := by omega
  unfold cmiFree
  rw [if_neg (not_not.mpr rfl)]
  simp only [bind, Except.bind, hp, refField_block, hpos, if_false, Nat.sub_self, zero_add,
    hsub, write_ref]
  by_cases h0 : ref = 0
  · subst h0
    rfl
  · rw [if_neg h0, if_neg (by omega)]
    rfl

end Counting

/-! ### The handler -/

/-- The entries of a bundle as they are sent. -/
def rawEntries (c : Nat) : List (List UInt8) → List MemVal
  | [] => []
  | msg :: msgs => chunkHead c (roundUpSize msg.length) 0 ++ padded msg ++ rawEntries c msgs

/-- The entries from index `pos` of the block on, with the way back filled in. -/
def linkedEntries (c : Nat) : Nat → List (List UInt8) → List MemVal
  | _, [] => []
  | pos, msg :: msgs =>
    chunkHead c (roundUpSize msg.length) (-(pos : Int)) ++ padded msg ++
      linkedEntries c (pos + c + roundUpSize msg.length) msgs

/-- The messages that are enqueued for them. -/
def enqueued (c : Nat) : Nat → List (List UInt8) → List (Nat × Int)
  | _, [] => []
  | pos, msg :: msgs =>
    (pos + c, (roundUpSize msg.length : Int)) :: enqueued c (pos + c + roundUpSize msg.length) msgs

theorem flatten_messagePieces (c : Nat) (msgs : List (List UInt8)) :
    (msgs.flatMap (messagePieces c)).flatten = rawEntries c msgs := by
  induction msgs with
  | nil => rfl
  | cons msg msgs ih =>
    rw [flatMap_cons, flatten_append, ih]
    simp [messagePieces, rawEntries, padded]

section Handler

variable {c hdr : Nat}

/-- The bundle up to one entry, this entry, and what follows it: the entry is a sub-message. -/
theorem subMessage_entry (hc : 8 ≤ c) (h8 : 8 ∣ c) {pre : List MemVal}
    (hpre : multipleHeaderSize hdr ≤ pre.length) (hpre8 : 8 ∣ pre.length) (msg : List UInt8)
    (post : List MemVal) :
    SubMessage c hdr
      (pre ++ (chunkHead c (roundUpSize msg.length) (-((c + pre.length : Nat) : Int)) ++
      padded msg ++ post)) msg (c + pre.length + c, (roundUpSize msg.length : Int)) := by
  have hchunk : (chunkHead c (roundUpSize msg.length) (-(c + pre.length : Nat))).length = c :=
    length_chunkHead hc
  refine ⟨by omega, by omega, rfl, ?_, ?_⟩
  · have hslice := MemVal.slice_append
      (pre ++ chunkHead c (roundUpSize msg.length) (-(c + pre.length : Nat))) (padded msg) post
    rw [length_append, hchunk, length_padded] at hslice
    rw [show c + pre.length + c - c = pre.length + c by omega]
    simpa only [append_assoc] using hslice
  · rw [show c + pre.length + c - 2 * c + 4 = pre.length + 4 by omega, readInt_right rfl,
      append_assoc, read_ref]
    congr 1
    omega

theorem subMessages_linked (hc : 8 ≤ c) (h8 : 8 ∣ c) (msgs : List (List UInt8)) :
    ∀ pre : List MemVal, multipleHeaderSize hdr ≤ pre.length → 8 ∣ pre.length →
      Forall₂ (SubMessage c hdr (pre ++ linkedEntries c (c + pre.length) msgs)) msgs
        (enqueued c (c + pre.length) msgs) := by
  induction msgs with
  | nil => exact fun _ _ _ => .nil
  | cons msg msgs ih =>
    intro pre hpre hpre8
    refine .cons (subMessage_entry hc h8 hpre hpre8 msg _) ?_
    -- the rest of the bundle, behind this entry
    have hround : 8 ∣ roundUpSize msg.length := ⟨_, mul_comm _ 8⟩
    have hlen : (pre ++ (chunkHead c (roundUpSize msg.length) (-(c + pre.length : Nat)) ++
        padded msg)).length = pre.length + c + roundUpSize msg.length := by
      rw [length_append, length_append, length_chunkHead hc, length_padded]
      omega
    have hrest := ih (pre ++ (chunkHead c (roundUpSize msg.length)
      (-(c + pre.length : Nat)) ++ padded msg)) (by omega) (by omega)
    rw [hlen, append_assoc, show c + (pre.length + c + roundUpSize msg.length) =
      c + pre.length + c + roundUpSize msg.length by omega] at hrest
    exact hrest

/-- **The loop**: every entry is linked and enqueued, and counts in the block. -/
theorem multiMsgLoop_eq (hc : 8 ≤ c) (h8 : 8 ∣ c) (size : Int) (msgs : List (List UInt8)) :
    ∀ (pre : List MemVal) (n : Nat) (queue : List (Nat × Int)),
      multipleHeaderSize hdr ≤ pre.length → 8 ∣ pre.length → n + msgs.length ≤ maxInt →
        multiMsgLoop c msgs.length (c + pre.length)
            ⟨chunkHead c size n ++ (pre ++ rawEntries c msgs), 0⟩ queue =
          .ok (⟨chunkHead c size (n + msgs.length : Nat) ++
              (pre ++ linkedEntries c (c + pre.length) msgs), 0⟩,
            queue ++ enqueued c (c + pre.length) msgs) := by
  induction msgs with
  | nil =>
    intro pre n queue _ _ _
    unfold multiMsgLoop rawEntries linkedEntries enqueued
    rw [append_nil queue]
    rfl
  | cons msg msgs ih =>
    intro pre n queue hpre hpre8 hmax
    rw [length_cons] at hmax
    have hhead : (chunkHead c size n).length = c := length_chunkHead hc
    have hsize : readInt (chunkHead c size n ++ (pre ++ rawEntries c (msg :: msgs)))
        (c + pre.length) = .ok (roundUpSize msg.length) := by
      have hpos : readInt (pre ++ rawEntries c (msg :: msgs)) (pre.length + 0) =
          readInt (rawEntries c (msg :: msgs)) 0 := readInt_right rfl 0
      rw [add_zero] at hpos
      rw [readInt_right hhead, hpos]
      rw [rawEntries, append_assoc]
      exact read_size _ _ _
    have hlink : writeInt (chunkHead c size n ++ (pre ++ rawEntries c (msg :: msgs)))
        (c + pre.length + 4) (c - (c + pre.length + c : Nat)) =
          .ok (chunkHead c size n ++ (pre ++ (chunkHead c (roundUpSize msg.length)
            (-(c + pre.length : Nat)) ++ padded msg ++ rawEntries c msgs))) := by
      rw [add_assoc c]
      refine writeInt_right hhead (writeInt_right rfl ?_)
      rw [rawEntries, append_assoc, append_assoc,
        show c - (c + pre.length + c : Nat) = -((c + pre.length) : Int) by
          omega]
      exact write_ref _ _ _ _
    have hsub := subMessage_entry hc h8 hpre hpre8 msg (rawEntries c msgs)
    have href : cmiReference c ⟨chunkHead c size n ++ _, 0⟩ (c + pre.length + c) = _ :=
      cmiReference_sub hc hsub (show n < maxInt by omega)
    -- the rest of the bundle, behind this entry
    have hround : 8 ∣ roundUpSize msg.length := ⟨_, mul_comm _ 8⟩
    have hlen : (pre ++ (chunkHead c (roundUpSize msg.length) (-(c + pre.length : Nat)) ++
        padded msg)).length = pre.length + c + roundUpSize msg.length := by
      rw [length_append, length_append, length_chunkHead hc, length_padded]
      omega
    have hrest := ih (pre ++ (chunkHead c (roundUpSize msg.length)
      (-(c + pre.length : Nat)) ++ padded msg)) (n + 1)
        (queue ++ [(c + pre.length + c, (roundUpSize msg.length : Int))]) (by omega) (by omega)
        (by omega)
    rw [hlen, show c + (pre.length + c + roundUpSize msg.length) =
      c + pre.length + c + roundUpSize msg.length by omega,
      show n + 1 + msgs.length = n + (msgs.length + 1) by omega] at hrest
    simp only [append_assoc] at hrest
    rw [length_cons]
    unfold multiMsgLoop
    simp only [bind, Except.bind, hsize, hlink, href]
    rw [linkedEntries]
    simp only [append_assoc]
    exact hrest

theorem length_multipleHeader (hdr n : Nat) :
    (multipleHeader hdr n).length = multipleHeaderSize hdr := by
  unfold multipleHeader multipleHeaderSize
  rw [length_append, length_append, MemVal.length_encodeInt, length_replicate, length_replicate]
  omega

theorem length_rawEntries (hc : 8 ≤ c) (msgs : List (List UInt8)) :
    msgs.length ≤ (rawEntries c msgs).length := by
  induction msgs with
  | nil => exact Nat.zero_le _
  | cons msg msgs ih =>
    rw [rawEntries, length_append, length_append, length_chunkHead hc, length_cons]
    omega

/-- **The handler** on the bundle of `msgs`: the references of the sub-messages are left in the
count of the block, which is released at once when there is none. -/
theorem multiMsgHandler_eq (hc : 8 ≤ c) (h8 : 8 ∣ c) {msgs : List (List UInt8)}
    {block : List MemVal} (hsend : multipleSend c hdr msgs = .ok block) :
    ∃ size rest queue, multiMsgHandler c hdr ⟨block, 0⟩ =
        .ok (⟨chunkHead c size (msgs.length : Nat) ++ rest, if msgs.length = 0 then 1 else 0⟩,
        queue) ∧
      Forall₂ (SubMessage c hdr rest) msgs queue := by
  unfold multipleSend syncVectorSend at hsend
  rw [flatten_cons, flatten_messagePieces] at hsend
  split at hsend
  · exact absurd hsend (by simp)
  · rename_i hmax
    obtain rfl := ok.inj hsend
    have hlen := length_multipleHeader hdr msgs.length
    have h8' : 8 ∣ (multipleHeader hdr msgs.length).length := by
      rw [hlen]
      unfold multipleHeaderSize
      omega
    have hcount := length_rawEntries hc msgs
    have hfirst : 8 ≤ multipleHeaderSize hdr := by
      unfold multipleHeaderSize
      omega
    rw [length_append] at hmax
    generalize ((multipleHeader hdr msgs.length ++ rawEntries c msgs).length) = size
    have hread :
      readInt (chunkHead c size 1 ++ (multipleHeader hdr msgs.length ++ rawEntries c msgs))
        (c + fieldOff hdr) = .ok msgs.length := by
      rw [readInt_right (length_chunkHead hc)]
      unfold multipleHeader
      rw [append_assoc]
      exact readInt_append length_replicate _ _
    have hloop := multiMsgLoop_eq hc h8 size msgs (multipleHeader hdr msgs.length) 1 []
      (le_of_eq hlen.symm) h8' (by omega)
    rw [hlen, add_comm 1] at hloop
    have hlinked :=
      subMessages_linked hc h8 msgs (multipleHeader hdr msgs.length) (le_of_eq hlen.symm) h8'
    rw [hlen] at hlinked
    refine ⟨size, _, _, ?_, hlinked⟩
    unfold multiMsgHandler
    simp only [bind, Except.bind, hread, Int.toNat_natCast]
    rw [show (1 : Int) = (1 : Nat) from rfl, hloop]
    dsimp only
    rw [free_count (findEnclosing_block c)]
    rfl

end Handler

/-! ### The receiver -/

/-- Message `msg` was enqueued as `q`: at a multiple of eight bytes behind the bundle's start
and behind its header, with its bytes and only padding after them. -/
structure Enqueued (c hdr : Nat) (mem : List MemVal) (msg : List UInt8) (q : Nat × Int) : Prop where
  start : c + multipleHeaderSize hdr ≤ q.1
  aligned : 8 ∣ q.1 - c
  size : q.2 = roundUpSize msg.length
  bytes : MemVal.slice mem q.1 (roundUpSize msg.length) = some (padded msg)

variable {rest : List MemVal} {msg : List UInt8} {q : Nat × Int}

theorem SubMessage.enqueued {c hdr : Nat} {size ref : Int} (hc : 8 ≤ c)
    (h : SubMessage c hdr rest msg q) :
    Enqueued c hdr (chunkHead c size ref ++ rest) msg q := by
  have hstart := h.start
  refine ⟨by omega, h.aligned, h.size, ?_⟩
  have hslice := MemVal.slice_right (chunkHead c size ref) rest (q.1 - c) (roundUpSize msg.length)
  rw [length_chunkHead hc, show c + (q.1 - c) = q.1 by omega] at hslice
  rw [hslice]
  exact h.bytes

theorem totalHeld_update {n i : Nat} (hi : i < n) (held : Nat → Nat) (v : Nat) :
    totalHeld (update held i v) n + held i = totalHeld held n + v := by
  have hmem : i ∈ range n := mem_range.mpr hi
  have hold : ∑ j ∈ Finset.range n, held j = held i + ∑ j ∈ Finset.range n \ {i}, held j := by
    rw [← Finset.sum_update_of_mem hmem held (held i), Function.update_eq_self]
  unfold totalHeld
  rw [Finset.sum_update_of_mem hmem]
  omega

/-- The block whose count is the number of references held; it was released when none is
left. -/
def countedBlock (c : Nat) (size : Int) (rest : List MemVal) (n : Nat) : BlockState :=
  ⟨chunkHead c size n ++ rest, if n = 0 then 1 else 0⟩

/-- The block in every state of the receiver. -/
def Counted (c : Nat) (size : Int) (rest : List MemVal) (n : Nat) (r : Receiver) : Prop :=
  r.block = countedBlock c size rest (totalHeld r.held n)

section Receiving

variable {c hdr : Nat} {size : Int} {rest : List MemVal} {msgs : List (List UInt8)}
  {queue : List (Nat × Int)} {r : Receiver}

variable {i : Nat}

theorem subMessage_getD (h : Forall₂ (SubMessage c hdr rest) msgs queue) (hi : i < queue.length) :
    ∃ msg, SubMessage c hdr rest msg (queue.getD i (0, 0)) := by
  have hlen := h.length_eq
  refine ⟨msgs.getD i [], ?_⟩
  rw [getD_eq_getElem _ _ hi, getD_eq_getElem _ _ (by omega)]
  exact h.get (by omega) hi

/-- **A reference more.** -/
theorem reference_step (hc : 8 ≤ c) (h : Forall₂ (SubMessage c hdr rest) msgs queue)
    (hr : Counted c size rest queue.length r)
    (he : r.Allowed queue.length (.reference i)) (hmax : totalHeld r.held queue.length < maxInt) :
    ∃ r', r.next c queue (.reference i) = .ok r' ∧ Counted c size rest queue.length r' ∧
      r'.held = update r.held i (r.held i + 1) := by
  obtain ⟨hi, hpos⟩ := he
  obtain ⟨msg, hsub⟩ := subMessage_getD h hi
  have htotal := totalHeld_update hi r.held (r.held i + 1)
  have hnew : totalHeld (update r.held i (r.held i + 1)) queue.length =
      totalHeld r.held queue.length + 1 := by omega
  have hres : cmiReference c r.block (queue.getD i (0, 0)).1 =
      .ok (countedBlock c size rest (totalHeld r.held queue.length + 1)) := by
    rw [hr]
    unfold countedBlock
    rw [if_neg (by omega)]
    exact cmiReference_sub hc hsub hmax
  unfold Receiver.next
  simp only [hres]
  refine ⟨_, rfl, ?_, rfl⟩
  unfold Counted
  rw [hnew]

/-- **A reference less.** -/
theorem free_step (hc : 8 ≤ c) (h : Forall₂ (SubMessage c hdr rest) msgs queue)
    (hr : Counted c size rest queue.length r) (he : r.Allowed queue.length (.free i)) :
    ∃ r', r.next c queue (.free i) = .ok r' ∧ Counted c size rest queue.length r' := by
  obtain ⟨hi, hpos⟩ := he
  obtain ⟨msg, hsub⟩ := subMessage_getD h hi
  have htotal := totalHeld_update hi r.held (r.held i - 1)
  obtain ⟨n, hn⟩ : ∃ n, totalHeld r.held queue.length = n + 1 := by
    exact ⟨totalHeld r.held queue.length - 1, by omega⟩
  have hnew : totalHeld (update r.held i (r.held i - 1)) queue.length = n := by omega
  have hres : cmiFree c r.block (queue.getD i (0, 0)).1 = .ok (countedBlock c size rest n) := by
    rw [hr, hn]
    exact free_count (allocFindEnclosing_sub hc hsub)
  unfold Receiver.next
  simp only [hres]
  refine ⟨_, rfl, ?_⟩
  unfold Counted
  rw [hnew]

/-- No further reference once there are as many as an `int` can count. -/
theorem reference_full (hc : 8 ≤ c) (h : Forall₂ (SubMessage c hdr rest) msgs queue)
    (hr : Counted c size rest queue.length r) (hi : i < queue.length)
    (hmax : maxInt ≤ totalHeld r.held queue.length) :
    r.next c queue (.reference i) = .error .overflow := by
  obtain ⟨msg, hsub⟩ := subMessage_getD h hi
  have hres : cmiReference c r.block (queue.getD i (0, 0)).1 = .error .overflow := by
    have hpos : ¬ totalHeld r.held queue.length = 0 := by
      unfold maxInt at hmax
      omega
    rw [hr]
    unfold countedBlock
    rw [if_neg hpos]
    exact cmiReference_full hc hsub hmax
  unfold Receiver.next
  simp only [bind, Except.bind, hres]

theorem held_of_free {r' : Receiver} (h : r.next c queue (.free i) = .ok r') :
    r'.held = update r.held i (r.held i - 1) := by
  obtain ⟨block, -, hr'⟩ := bind_eq_ok.mp h
  obtain rfl := ok.inj hr'
  rfl

theorem recv_counted (hc : 8 ≤ c) (h : Forall₂ (SubMessage c hdr rest) msgs queue) {s : BlockState}
    (hs : s = countedBlock c size rest queue.length) (hr : (recvSystem c s queue).Reachable r) :
    Counted c size rest queue.length r := by
  refine hr.invariant ?_ ?_
  · rintro r rfl
    have hone :
      totalHeld (fun i => if i < queue.length then 1 else 0) queue.length = queue.length := by
      unfold totalHeld
      rw [Finset.sum_congr rfl fun i hi => if_pos (mem_range.mp hi)]
      simp
    unfold Counted
    rw [hone, hs]
  · rintro r e r' hinv ⟨he, hr'⟩
    cases e with
    | reference i =>
      by_cases hmax : totalHeld r.held queue.length < maxInt
      · obtain ⟨r'', hr'', hinv', -⟩ := reference_step hc h hinv he hmax
        rw [hr'] at hr''
        obtain rfl := ok.inj hr''
        exact hinv'
      · rw [reference_full hc h hinv he.1 (by omega)] at hr'
        exact absurd hr' (by simp)
    | free i =>
      obtain ⟨r'', hr'', hinv'⟩ := free_step hc h hinv he
      rw [hr'] at hr''
      obtain rfl := ok.inj hr''
      exact hinv'

end Receiving

theorem chunkSize_dvd (is64Bit : Bool) : 8 ≤ chunkSize is64Bit ∧ 8 ∣ chunkSize is64Bit := by
  cases is64Bit with
  | false => decide
  | true => decide

/-- **A bundle decodes to the messages sent and is released once.** For all messages whose
bundle is delivered, the handler enqueues them in their order. After any calls of
`CmiReference` and `CmiFree` on them, in which a reference is given back once and at most as
many are held as an `int` can count: the next such call succeeds; the block has been released
once if no reference is left, and else not; and as long as it has not, the sub-messages are as
they were sent. -/
theorem bundle_released_once (is64Bit : Bool) (hdr : Nat) (msgs : List (List UInt8))
    (block : List MemVal) (hsend : multipleSend (chunkSize is64Bit) hdr msgs = .ok block) :
    ∃ s queue, multiMsgHandler (chunkSize is64Bit) hdr ⟨block, 0⟩ = .ok (s, queue) ∧
      List.Forall₂ (Enqueued (chunkSize is64Bit) hdr s.mem) msgs queue ∧
      ∀ r, (recvSystem (chunkSize is64Bit) s queue).Reachable r →
        (∀ e, r.Allowed queue.length e →
          ((∃ i, e = .reference i) → totalHeld r.held queue.length < maxInt) →
            ∃ r', r.next (chunkSize is64Bit) queue e = .ok r') ∧
        r.block.released = (if totalHeld r.held queue.length = 0 then 1 else 0) ∧
        (r.block.released = 0 →
          List.Forall₂ (Enqueued (chunkSize is64Bit) hdr r.block.mem) msgs queue) := by
  obtain ⟨hc, h8⟩ := chunkSize_dvd is64Bit
  obtain ⟨size, rest, queue, hres, hsubs⟩ := multiMsgHandler_eq hc h8 hsend
  have hlen := hsubs.length_eq
  refine ⟨_, queue, hres, hsubs.imp fun _ _ h => h.enqueued hc, fun r hr => ?_⟩
  have hblock : ⟨chunkHead (chunkSize is64Bit) size msgs.length ++ rest,
      if msgs.length = 0 then 1 else 0⟩ =
        countedBlock (chunkSize is64Bit) size rest queue.length := by
    rw [hlen]
    rfl
  have hcounted := recv_counted hc hsubs hblock hr
  refine ⟨fun e he hmax => ?_, ?_, fun _ => ?_⟩
  · cases e with
    | reference i =>
      obtain ⟨r', hr', -, -⟩ := reference_step hc hsubs hcounted he (hmax ⟨i, rfl⟩)
      exact ⟨r', hr'⟩
    | free i =>
      obtain ⟨r', hr', -⟩ := free_step hc hsubs hcounted he
      exact ⟨r', hr'⟩
  · rw [hcounted]
    rfl
  · rw [hcounted]
    exact hsubs.imp fun _ _ h => h.enqueued hc

/-- Two messages of three bytes and of one: both are enqueued, and the block is released when
both are freed. -/
theorem bundle_released_once_two :
    ∃ block s queue r, multipleSend (chunkSize true) 24 [[1, 2, 3], [4]] = .ok block ∧
      multiMsgHandler (chunkSize true) 24 ⟨block, 0⟩ = .ok (s, queue) ∧
      List.Forall₂ (Enqueued (chunkSize true) 24 s.mem) [[1, 2, 3], [4]] queue ∧
      (recvSystem (chunkSize true) s queue).Reachable r ∧ r.block.released = 1 := by
  obtain ⟨block, hsend⟩ : ∃ block, multipleSend (chunkSize true) 24 [[1, 2, 3], [4]] = .ok block :=
    ⟨_, rfl⟩
  obtain ⟨s, queue, hres, hqueue, hall⟩ := bundle_released_once true 24 _ block hsend
  have hlen : queue.length = 2 := hqueue.length_eq.symm
  rw [hlen] at hall
  -- free the second message, then the first
  have h0 : (recvSystem (chunkSize true) s queue).Reachable
      ⟨s, fun i => if i < queue.length then 1 else 0⟩ := .init rfl
  have he0 : Receiver.Allowed 2 ⟨s, fun i => if i < queue.length then 1 else 0⟩ (.free 1) := by
    rw [hlen]
    exact ⟨by decide, zero_lt_one⟩
  obtain ⟨r1, hr1⟩ := (hall _ h0).1 _ he0 (by simp)
  have h1 := h0.step ⟨hlen ▸ he0, hr1⟩
  have hheld1 := held_of_free hr1
  rw [hlen] at hheld1
  have he1 : r1.Allowed 2 (.free 0) := by
    refine ⟨by decide, ?_⟩
    rw [hheld1]
    exact zero_lt_one
  obtain ⟨r2, hr2⟩ := (hall _ h1).1 _ he1 (by simp)
  have h2 := h1.step ⟨hlen ▸ he1, hr2⟩
  refine ⟨block, s, queue, r2, hsend, hres, hqueue, h2, ?_⟩
  rw [(hall _ h2).2.1, held_of_free hr2, hheld1]
  rfl

/-- Any number of references that an `int` can count may be held to one message. -/
theorem references_reachable {c hdr : Nat} (size : Int) (hc : 8 ≤ c)
    (h : SubMessage c hdr rest msg q) :
    ∀ k, k < maxInt → ∃ r, (recvSystem c (countedBlock c size rest 1) [q]).Reachable r ∧
      totalHeld r.held 1 = k + 1
  | 0, _ => ⟨_, .init rfl, rfl⟩
  | k + 1, hk => by
      obtain ⟨r, hr, htotal⟩ := references_reachable size hc h k (by omega)
      have hsubs : Forall₂ (SubMessage c hdr rest) [msg] [q] := .cons h .nil
      have hcounted := recv_counted hc hsubs rfl hr
      have hallowed : r.Allowed 1 (.reference 0) := ⟨zero_lt_one, by omega⟩
      obtain ⟨r', hr', -, hheld⟩ := reference_step hc hsubs hcounted hallowed
        (by rw [length_singleton]; omega)
      refine ⟨r', hr.step ⟨hallowed, hr'⟩, ?_⟩
      have hupdate := totalHeld_update zero_lt_one r.held (r.held 0 + 1)
      rw [hheld]
      omega

/-- A bundle of one message to which as many references are held as an `int` can count: one
more overflows the count. -/
theorem references_overflow :
    ∃ block s queue r, multipleSend (chunkSize true) 24 [[1, 2, 3]] = .ok block ∧
      multiMsgHandler (chunkSize true) 24 ⟨block, 0⟩ = .ok (s, queue) ∧
      (recvSystem (chunkSize true) s queue).Reachable r ∧
      r.Allowed queue.length (.reference 0) ∧
      r.next (chunkSize true) queue (.reference 0) = .error .overflow := by
  obtain ⟨hc, h8⟩ := chunkSize_dvd true
  obtain ⟨block, hsend⟩ : ∃ block, multipleSend (chunkSize true) 24 [[1, 2, 3]] = .ok block :=
    ⟨_, rfl⟩
  obtain ⟨size, rest, queue, hres, hsubs⟩ := multiMsgHandler_eq hc h8 hsend
  cases hsubs with
  | @cons _ q _ _ hsub hnil =>
    cases hnil with
    | nil =>
      obtain ⟨r, hr, htotal⟩ := references_reachable size hc hsub (maxInt - 1) (by decide)
      have hsubs : Forall₂ (SubMessage (chunkSize true) 24 rest) [[1, 2, 3]] [q] :=
        .cons hsub .nil
      have hcounted := recv_counted hc hsubs rfl hr
      have hfull : totalHeld r.held 1 = maxInt := by
        rw [htotal]
        decide
      refine ⟨block, _, [q], r, hsend, hres, hr, ⟨zero_lt_one, ?_⟩,
        reference_full hc hsubs hcounted zero_lt_one (le_of_eq hfull.symm)⟩
      rw [length_singleton, hfull]
      decide

end CharmRuntime.Converse
