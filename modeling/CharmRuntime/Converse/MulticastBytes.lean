import CharmRuntime.Converse.Multicast
import CharmRuntime.Lib.Outcome

/-!
# Converse.MulticastBytes

The bytes of a carrier. `carrier` is the block as the code keeps it: the message header and
padding, the four fields, and behind them the body. `makeCarrier` builds such a block, with
the message `stored` as its body; every hop finds the fields in it and changes `pos` only;
`deliverLocally` puts the message back together from any such block.
-/

namespace CharmRuntime.Converse

open Lib List

/-- A block with the given fields. -/
def carrier (head : List MemVal) (g : Group) (pos : Int) (body : List MemVal) : List MemVal :=
  head ++ MemVal.encodeInt 4 g.pe ++ MemVal.encodeInt 4 g.id ++ MemVal.encodeInt 4 pos ++
    MemVal.encodeInt 4 body.length ++ body

/-- How the bytes of a message are kept behind the structure. -/
def stored (size : Nat) (msg : List MemVal) : List MemVal :=
  if msg.length < size then msg else msg.drop size ++ msg.take size

theorem length_stored (size : Nat) (msg : List MemVal) : (stored size msg).length = msg.length := by
  unfold stored
  split
  · rfl
  · rw [length_append, length_drop, length_take]
    omega

/-! ### The fields of a carrier -/

section Fields

variable {hdr : Nat} {head body : List MemVal} {g : Group} {pos : Int}

theorem length_carrier (hhead : head.length = fieldOff hdr) :
    (carrier head g pos body).length = body.length + multiSize hdr := by
  unfold carrier multiSize
  simp only [length_append, MemVal.length_encodeInt]
  omega

theorem carrier_read_pe (hhead : head.length = fieldOff hdr) :
    readInt (carrier head g pos body) (fieldOff hdr) = .ok (g.pe : Int) := by
  have h := readInt_append hhead g.pe (MemVal.encodeInt 4 g.id ++ MemVal.encodeInt 4 pos ++
    MemVal.encodeInt 4 body.length ++ body)
  unfold carrier
  simpa only [append_assoc] using h

theorem carrier_read_id (hhead : head.length = fieldOff hdr) :
    readInt (carrier head g pos body) (fieldOff hdr + 4) = .ok (g.id : Int) := by
  have hpre : (head ++ MemVal.encodeInt 4 g.pe).length = fieldOff hdr + 4 := by
    rw [length_append, MemVal.length_encodeInt, hhead]
  have h := readInt_append hpre g.id
    (MemVal.encodeInt 4 pos ++ MemVal.encodeInt 4 body.length ++ body)
  unfold carrier
  simpa only [append_assoc] using h

theorem carrier_read_pos (hhead : head.length = fieldOff hdr) :
    readInt (carrier head g pos body) (fieldOff hdr + 8) = .ok pos := by
  have hpre : (head ++ MemVal.encodeInt 4 g.pe ++ MemVal.encodeInt 4 g.id).length =
      fieldOff hdr + 8 := by
    rw [length_append, length_append, MemVal.length_encodeInt, MemVal.length_encodeInt, hhead]
  have h := readInt_append hpre pos (MemVal.encodeInt 4 body.length ++ body)
  unfold carrier
  simpa only [append_assoc] using h

theorem carrier_read_len (hhead : head.length = fieldOff hdr) :
    readInt (carrier head g pos body) (fieldOff hdr + 12) = .ok (body.length : Int) := by
  have hpre : (head ++ MemVal.encodeInt 4 g.pe ++ MemVal.encodeInt 4 g.id ++
      MemVal.encodeInt 4 pos).length = fieldOff hdr + 12 := by
    simp only [length_append, MemVal.length_encodeInt, hhead]
  have h := readInt_append hpre body.length body
  unfold carrier
  simpa only [append_assoc] using h

theorem carrier_write_pos (hhead : head.length = fieldOff hdr) (pos' : Int) :
    writeInt (carrier head g pos body) (fieldOff hdr + 8) pos' =
    .ok (carrier head g pos' body) := by
  have hpre : (head ++ MemVal.encodeInt 4 g.pe ++ MemVal.encodeInt 4 g.id).length =
      fieldOff hdr + 8 := by
    simp only [length_append, MemVal.length_encodeInt, hhead]
  have h := writeInt_append hpre (MemVal.length_encodeInt 4 pos) pos'
    (MemVal.encodeInt 4 body.length ++ body)
  unfold carrier
  simpa only [append_assoc] using h

theorem sendCarrier_carrier (hhead : head.length = fieldOff hdr) (dst : Nat) :
    sendCarrier dst (body.length + multiSize hdr) (carrier head g pos body) =
      .ok (dst, .multi (carrier head g pos body)) := by
  have hlen : (carrier head g pos body).length = body.length + multiSize hdr := length_carrier hhead
  have h := slice_front hlen []
  rw [append_nil] at h
  unfold sendCarrier
  rw [h]

end Fields

/-! ### Making a carrier -/

theorem storeBytes_eq (size : Nat) (msg : List MemVal) :
    storeBytes size msg (List.replicate (msg.length + size) MemVal.blank) =
      .ok (List.replicate size MemVal.blank ++ stored size msg) := by
  unfold storeBytes stored
  by_cases h : msg.length < size
  · rw [if_pos h, if_pos h]
    have hsplit : replicate (msg.length + size) MemVal.blank =
        replicate size MemVal.blank ++ replicate msg.length MemVal.blank ++ [] := by
      rw [append_nil, replicate_append_replicate, Nat.add_comm]
    rw [hsplit, writeBytes_append length_replicate length_replicate, append_nil]
  · rw [if_neg h, if_neg h]
    have hsplit : replicate (msg.length + size) MemVal.blank =
        replicate size MemVal.blank ++ replicate (msg.drop size).length MemVal.blank ++
          replicate (msg.take size).length MemVal.blank := by
      rw [replicate_append_replicate, replicate_append_replicate, length_drop, length_take]
      congr 1
      omega
    have hpre : (replicate size MemVal.blank ++ msg.drop size).length = msg.length := by
      rw [length_append, length_replicate, length_drop]
      omega
    have hlast : writeBytes (replicate size MemVal.blank ++ msg.drop size ++
        replicate (msg.take size).length MemVal.blank ++ []) msg.length (msg.take size) =
          .ok (replicate size MemVal.blank ++ msg.drop size ++ msg.take size ++ []) :=
      writeBytes_append hpre length_replicate []
    rw [append_nil, append_nil, append_assoc _ _ (msg.take size)] at hlast
    rw [hsplit, writeBytes_append length_replicate length_replicate]
    exact hlast

/-- **A new carrier** has its position before the first and holds the message. -/
theorem makeCarrier_eq {hdr : Nat} {g : Group} {msg : List MemVal}
    (hlen : msg.length + multiSize hdr ≤ maxInt) :
    makeCarrier hdr g msg = .ok (carrier (List.replicate (fieldOff hdr) MemVal.blank) g (-1)
        (stored (multiSize hdr) msg)) := by
  -- the four fields are written one after the other into a block that is blank but for the body
  obtain ⟨body, hbody⟩ : ∃ body, stored (multiSize hdr) msg = body := ⟨_, rfl⟩
  obtain ⟨head, hhead⟩ : ∃ head, replicate (fieldOff hdr) MemVal.blank = head := ⟨_, rfl⟩
  obtain ⟨gap, hgap⟩ : ∃ gap, replicate 4 MemVal.blank = gap := ⟨_, rfl⟩
  have hheadlen : head.length = fieldOff hdr := by rw [← hhead, length_replicate]
  have hgaplen : gap.length = 4 := by rw [← hgap, length_replicate]
  have hlength : msg.length = body.length := by rw [← hbody, length_stored]
  have hblank : replicate (multiSize hdr) MemVal.blank = head ++ gap ++ gap ++ gap ++ gap := by
    rw [← hhead, ← hgap]
    simp only [replicate_append_replicate]
    rfl
  have hpe : writeInt (head ++ gap ++ gap ++ gap ++ gap ++ body) (fieldOff hdr) g.pe =
      .ok (head ++ MemVal.encodeInt 4 g.pe ++ gap ++ gap ++ gap ++ body) := by
    simpa only [append_assoc] using writeInt_append hheadlen hgaplen g.pe
      (gap ++ gap ++ gap ++ body)
  have hid : writeInt (head ++ MemVal.encodeInt 4 g.pe ++ gap ++ gap ++ gap ++ body)
    (fieldOff hdr + 4) g.id =
        .ok (head ++ MemVal.encodeInt 4 g.pe ++ MemVal.encodeInt 4 g.id ++ gap ++ gap ++ body) := by
    have hpre : (head ++ MemVal.encodeInt 4 g.pe).length = fieldOff hdr + 4 := by
      simp only [length_append, MemVal.length_encodeInt, hheadlen]
    simpa only [append_assoc] using writeInt_append hpre hgaplen g.id (gap ++ gap ++ body)
  have hlast : writeInt (head ++ MemVal.encodeInt 4 g.pe ++ MemVal.encodeInt 4 g.id ++ gap ++ gap ++
      body) (fieldOff hdr + 12) body.length =
        .ok (head ++ MemVal.encodeInt 4 g.pe ++ MemVal.encodeInt 4 g.id ++ gap ++
          MemVal.encodeInt 4 body.length ++ body) := by
    have hpre : (head ++ MemVal.encodeInt 4 g.pe ++ MemVal.encodeInt 4 g.id ++ gap).length =
        fieldOff hdr + 12 := by
      simp only [length_append, MemVal.length_encodeInt, hheadlen, hgaplen]
    simpa only [append_assoc] using writeInt_append hpre hgaplen body.length body
  have hpos : writeInt (head ++ MemVal.encodeInt 4 g.pe ++ MemVal.encodeInt 4 g.id ++ gap ++
      MemVal.encodeInt 4 body.length ++ body) (fieldOff hdr + 8) (-1) =
      .ok (carrier head g (-1) body) := by
    have hpre : (head ++ MemVal.encodeInt 4 g.pe ++ MemVal.encodeInt 4 g.id).length =
        fieldOff hdr + 8 := by
      simp only [length_append, MemVal.length_encodeInt, hheadlen]
    unfold carrier
    simpa only [append_assoc] using writeInt_append hpre hgaplen (-1)
      (MemVal.encodeInt 4 body.length ++ body)
  unfold makeCarrier
  rw [if_neg (by omega), storeBytes_eq, hbody, hblank, hhead, hlength]
  simp only [bind, Except.bind]
  rw [hpe]
  dsimp only
  rw [hid]
  dsimp only
  rw [hlast]
  dsimp only
  rw [hpos]

/-! ### Taking it apart -/

theorem restoreBytes_eq {size : Nat} {front msg : List MemVal} (hlen : front.length = size) :
    ∃ rest, restoreBytes size msg.length (front ++ stored size msg) = .ok (msg ++ rest) := by
  unfold restoreBytes stored memcpyWithin
  by_cases h : msg.length < size
  · have hslice := MemVal.slice_append front msg []
    rw [append_nil, hlen] at hslice
    have hsplit : front ++ msg = [] ++ front.take msg.length ++ (front.drop msg.length ++ msg) := by
      rw [nil_append, ← append_assoc, take_append_drop]
    have hold : (front.take msg.length).length = msg.length := by
      rw [length_take]
      omega
    rw [if_pos h, if_pos h, hslice]
    dsimp only
    rw [if_pos (by omega), hsplit]
    exact ⟨_, writeBytes_append length_nil hold _⟩
  · have hpre : (front ++ msg.drop size).length = msg.length := by
      rw [length_append, length_drop, hlen]
      omega
    have htake : (msg.take size).length = size := by
      rw [length_take]
      omega
    have hslice := MemVal.slice_append (front ++ msg.drop size) (msg.take size) []
    rw [append_nil, hpre, htake, append_assoc] at hslice
    have hwrite : writeBytes ([] ++ front ++ (msg.drop size ++ msg.take size)) 0 (msg.take size) =
        .ok ([] ++ msg.take size ++ (msg.drop size ++ msg.take size)) :=
      writeBytes_append rfl (by rw [hlen, htake]) _
    rw [if_neg h, if_neg h, hslice]
    dsimp only
    rw [nil_append, nil_append, ← append_assoc (msg.take size), take_append_drop] at hwrite
    rw [if_pos (by omega), hwrite]
    exact ⟨_, rfl⟩

/-- **Delivery**: from every carrier that holds a message, this message is restored. -/
theorem deliverLocally_eq {hdr : Nat} {head msg : List MemVal} {g : Group} {pos : Int}
    (hhead : head.length = fieldOff hdr) (me : Nat) :
    deliverLocally hdr msg.length me (carrier head g pos (stored (multiSize hdr) msg)) =
      .ok (me, .user msg) := by
  have hfront : (head ++ MemVal.encodeInt 4 g.pe ++ MemVal.encodeInt 4 g.id ++
      MemVal.encodeInt 4 pos ++ MemVal.encodeInt 4 (stored (multiSize hdr) msg).length).length =
        multiSize hdr := by
    simp only [length_append, hhead]
    rfl
  obtain ⟨rest, hrest⟩ : ∃ rest, restoreBytes (multiSize hdr) msg.length
      (carrier head g pos (stored (multiSize hdr) msg)) = .ok (msg ++ rest) :=
      restoreBytes_eq hfront
  unfold deliverLocally
  rw [hrest]
  simp only [bind, Except.bind]
  rw [slice_front rfl]

theorem forwardTo_eq {hdr : Nat} {head : List MemVal} (hhead : head.length = fieldOff hdr)
    (g : Group) (pos : Int) (body : List MemVal) (pes : List Nat) (child : Nat) :
    ∃ pos', forwardTo hdr (body.length + multiSize hdr) pes child (carrier head g pos body) =
      .ok (carrier head g pos' body,
        pes[child]?.toList.map fun dst => (dst, .multi (carrier head g child body))) := by
  unfold forwardTo
  cases hdst : pes[child]? with
  | none => exact ⟨pos, rfl⟩
  | some dst =>
    refine ⟨child, ?_⟩
    rw [carrier_write_pos hhead]
    simp only [bind, Except.bind]
    rw [sendCarrier_carrier hhead]
    rfl

/-! ### One hop -/

section Hop

variable {hdr me : Nat} {table : GroupTable} {head body : List MemVal} {g : Group} {pos : Int}

theorem deliver_unknown (hhead : head.length = fieldOff hdr) (h : lookupGroup g table = none) :
    multicastDeliver hdr me table (carrier head g pos body) =
      .ok [(me, .multi (carrier head g pos body))] := by
  unfold multicastDeliver
  simp only [bind, Except.bind, carrier_read_len hhead, carrier_read_pe hhead,
    carrier_read_id hhead, Int.toNat_natCast, h, sendCarrier_carrier hhead]
  rfl

theorem deliver_nobody (hhead : head.length = fieldOff hdr) (h : lookupGroup g table = some []) :
    multicastDeliver hdr me table (carrier head g pos body) = .ok [] := by
  unfold multicastDeliver
  simp only [bind, Except.bind, carrier_read_len hhead, carrier_read_pe hhead,
    carrier_read_id hhead, Int.toNat_natCast, h]
  rfl

theorem deliver_start {first : Nat} {rest : List Nat} (hhead : head.length = fieldOff hdr)
    (h : lookupGroup g table = some (first :: rest)) :
    multicastDeliver hdr me table (carrier head g (-1) body) =
      .ok [(first, .multi (carrier head g 0 body))] := by
  unfold multicastDeliver
  simp only [bind, Except.bind, carrier_read_len hhead, carrier_read_pe hhead,
    carrier_read_id hhead, carrier_read_pos hhead, Int.toNat_natCast, h, carrier_write_pos hhead,
    sendCarrier_carrier hhead]
  rfl

theorem deliver_at {msg : List MemVal} {pes : List Nat} {j : Nat}
    (hhead : head.length = fieldOff hdr) (h : lookupGroup g table = some pes)
    (hj : j < pes.length) (hmax : 2 * (j + 1) ≤ maxInt) :
    multicastDeliver hdr me table (carrier head g j (stored (multiSize hdr) msg)) =
      .ok ((pes[2 * j + 2]?.toList.map fun dst =>
          (dst, .multi (carrier head g (2 * j + 2 : Nat) (stored (multiSize hdr) msg)))) ++
        (pes[2 * j + 1]?.toList.map fun dst =>
          (dst, .multi (carrier head g (2 * j + 1 : Nat) (stored (multiSize hdr) msg)))) ++
        [(me, .user msg)]) := by
  obtain ⟨first, rest, rfl⟩ : ∃ first rest, pes = first :: rest := by
    cases pes with
    | nil => exact absurd hj (by simp)
    | cons first rest => exact ⟨first, rest, rfl⟩
  have hne : ¬ (j : Int) = -1 := by omega
  have hno : ¬ 2 * ((j : Int) + 1) > maxInt := by omega
  have hchild : (2 * ((j : Int) + 1)).toNat = 2 * j + 2 := by omega
  obtain ⟨pos1, h1⟩ := forwardTo_eq hhead g j (stored (multiSize hdr) msg)
    (first :: rest) (2 * j + 2)
  obtain ⟨pos2, h2⟩ := forwardTo_eq hhead g pos1 (stored (multiSize hdr) msg)
    (first :: rest) (2 * j + 1)
  rw [length_stored] at h1 h2
  unfold multicastDeliver
  simp only [bind, Except.bind, carrier_read_len hhead, carrier_read_pe hhead,
    carrier_read_id hhead, carrier_read_pos hhead, Int.toNat_natCast, h, hne, hno, hchild, h1,
    Nat.add_one_sub_one, h2, length_stored, deliverLocally_eq hhead]
  rfl

end Hop

end CharmRuntime.Converse
