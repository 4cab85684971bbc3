import CharmRuntime.Converse.Reduce
import CharmRuntime.Lib.Outcome

/-!
# Converse.ReduceSteps

What the local calls and the message handler do to one entry of the reduction table.
An entry is empty, *gathering* (made by a child's message, the local call is still to
come) or *waiting* (the local call was made, a child is missing); `Gathering` and
`Waiting` describe the structure with the data received so far. Every handler goes from
one of these to another, or sends and clears the entry.
-/

namespace CharmRuntime.Converse

open Lib List

variable {δ : Type}

/-- The largest `short int`. -/
def maxShort : Nat := 32767

theorem toShort_natCast {n : Nat} (h : n ≤ maxShort) : toShort n = n := by
  unfold maxShort at h
  unfold toShort
  rw [Int.bmod_def]
  omega

/-- The first slots hold what was received, the others nothing. -/
def slotsOf (ds : List δ) (slots : Nat) : List (Option δ) :=
  ds.map some ++ List.replicate (slots - ds.length) none

variable {ds : List δ} {slots : Nat}

theorem length_slotsOf (h : ds.length ≤ slots) : (slotsOf ds slots).length = slots := by
  unfold slotsOf
  rw [length_append, length_map, length_replicate]
  omega

theorem slotsOf_set (h : ds.length < slots) (d : δ) :
    (slotsOf ds slots).set ds.length (some d) = slotsOf (ds ++ [d]) slots := by
  unfold slotsOf
  obtain ⟨j, hj⟩ : ∃ j, slots - ds.length = j + 1 := ⟨slots - ds.length - 1, by omega⟩
  rw [hj, replicate_succ, length_append, length_singleton,
    show slots - (ds.length + 1) = j by omega]
  simp

theorem slotsOf_grow {n : Nat} (h : ds.length ≤ slots) (hn : slots ≤ n) :
    (slotsOf ds slots).take slots ++
      List.replicate (n - ((slotsOf ds slots).take slots).length) none = slotsOf ds n := by
  have hlen := length_slotsOf h
  rw [take_of_length_le (Nat.le_of_eq hlen), hlen]
  unfold slotsOf
  rw [append_assoc, replicate_append_replicate]
  congr 2
  omega

theorem readRemote_slotsOf (ds : List δ) (rest : List (Option δ)) :
    readRemote ds.length (ds.map some ++ rest) = .ok ds := by
  induction ds with
  | nil => rfl
  | cons d ds ih =>
    show (do
      let ds' ← readRemote ds.length (ds.map some ++ rest)
      return d :: ds') = _
    rw [ih]
    rfl

/-- Made by a child's message; the local call is still to come. -/
structure Gathering (red : CmiReduction δ) (id : Nat) (ds : List δ) (slots : Nat) : Prop where
  seqID : red.seqID = id
  noLocal : red.localContributed = none
  numChildren : red.numChildren = slots
  received : red.numRemoteReceived = ds.length
  cells : red.remoteData = slotsOf ds slots
  fits : ds.length ≤ slots

/-- The local call was made, and `k` messages are expected. -/
structure Waiting (red : CmiReduction δ) (id : Nat) (ds : List δ) (slots : Nat) (k : Nat)
    (c : LocalPart δ) : Prop where
  seqID : red.seqID = id
  hasLocal : red.localContributed = some c
  numChildren : red.numChildren = k
  received : red.numRemoteReceived = ds.length
  cells : red.remoteData = slotsOf ds slots
  fits : ds.length ≤ slots
  incomplete : ds.length ≠ k

/-- What a local call of a message reduction fills in. -/
def ReduceArgs.localPart (a : ReduceArgs δ) (parent : Int) : LocalPart δ :=
  { localData := a.data, localSize := a.size, parent := parent,
    ops := { a.ops with pupFn := none } }

/-- What a complete reduction sends or delivers. -/
def LocalPart.output (c : LocalPart δ) (id : Nat) (ds : List δ) : ReduceOut δ :=
  if c.parent ≠ -1 then
    let packed := match c.ops.pupFn with
      | none => c.merge ds
      | some pup => pup (c.merge ds).2
    .send c.parent { redID := id, size := packed.1, data := packed.2 }
  else .deliver c.ops.destination id (c.merge ds).2

/-- The call with `n` in a reduction that adds numbers. -/
def sumArgs (n : Nat) : ReduceArgs Nat where
  data := n
  size := 1
  ops := { destination := 0, mergeFn := fun size d ds => (size, d + ds.sum), pupFn := none }

/-! ### The table -/

section Table

variable {t : ReduceTable δ} {i : Nat}

variable {red : CmiReduction δ}

theorem info_store_self (h : reduceIndex red.seqID = i) : (t.store red).info i = some red := by
  unfold ReduceTable.store
  rw [h]
  exact Function.update_self _ _ _

theorem info_store_ne (h : reduceIndex red.seqID = i) {j : Nat}
    (hj : j ≠ i) : (t.store red).info j = t.info j := by
  unfold ReduceTable.store
  rw [h]
  exact Function.update_of_ne hj _ _

theorem info_clear_self {id : Nat} (h : reduceIndex id = i) :
    (t.clearReduction id).info i = none := by
  unfold ReduceTable.clearReduction
  rw [h]
  exact Function.update_self _ _ _

theorem info_clear_ne {id : Nat} (h : reduceIndex id = i) {j : Nat} (hj : j ≠ i) :
    (t.clearReduction id).info j = t.info j := by
  unfold ReduceTable.clearReduction
  rw [h]
  exact Function.update_of_ne hj _ _

end Table

/-! ### Making a structure -/

section Create

variable {t : ReduceTable δ} {id : Nat}

/-- `CmiGetReductionCreate` on an empty entry. -/
theorem create_none (h : t.info (reduceIndex id) = none) {n : Int} (hn : 0 ≤ n) :
    ∃ red, getReductionCreate id n t = .ok red ∧
    Gathering red id [] (if n = 0 then 4 else n.toNat) := by
  unfold getReductionCreate
  rw [h]
  unfold mallocReduction
  by_cases h0 : n = 0
  · subst h0
    exact ⟨_, rfl, rfl, rfl, rfl, rfl, rfl, Nat.zero_le _⟩
  · have hnn : ¬ n < 0 := by omega
    rw [if_neg h0, if_neg hnn, if_neg h0]
    refine ⟨_, rfl, rfl, rfl, (Int.toNat_of_nonneg hn).symm, rfl, ?_, Nat.zero_le _⟩
    simp [slotsOf]

variable {red : CmiReduction δ}

/-- `CmiGetReductionCreate` on a gathering one: it grows if it has too few slots. -/
theorem create_gathering {ds : List δ} {slots : Nat}
    (h : t.info (reduceIndex id) = some red) (hg : Gathering red id ds slots) (n : Int) :
    ∃ red', getReductionCreate id n t = .ok red' ∧ Gathering red' id ds (max slots n.toNat) := by
  unfold getReductionCreate
  rw [h]
  dsimp only
  rw [if_neg (by rw [hg.seqID]; exact not_not.mpr rfl), hg.numChildren]
  by_cases hlt : slots < n
  · have hnoLocal : ¬ red.localContributed.isSome = true := by simp [hg.noLocal]
    have hne : ¬ n = 0 := by omega
    have hnn : ¬ n < 0 := by omega
    have hfits := hg.fits
    have hmax : max slots n.toNat = n.toNat := by omega
    rw [if_pos hlt, if_neg hnoLocal, hmax]
    unfold mallocReduction
    rw [if_neg hne, if_neg hnn]
    refine ⟨_, rfl, rfl, rfl, ?_, hg.received, ?_, by omega⟩
    · show n = _
      omega
    · show _ = slotsOf ds n.toNat
      rw [hg.cells, Int.toNat_natCast, slotsOf_grow hfits (by omega)]
  · rw [if_neg hlt, show max slots n.toNat = slots by omega]
    exact ⟨red, rfl, hg⟩

/-- `CmiGetReduction` finds a structure of its own number as it is. -/
theorem getReduction_some (h : t.info (reduceIndex id) = some red)
    (hid : red.seqID = id) (hn : 0 ≤ red.numChildren) : getReduction id t = .ok red := by
  unfold getReduction getReductionCreate
  rw [h]
  dsimp only
  rw [if_neg (by rw [hid]; exact not_not.mpr rfl), if_neg (by omega)]

end Create

/-! ### Sending -/

section Send

variable {t : ReduceTable δ} {id : Nat} {red : CmiReduction δ} {ds : List δ} {slots : Nat}

theorem sendReduce_gathering (h : Gathering red id ds slots) :
    sendReduce red t = .ok (t.store red, none) := by
  unfold sendReduce
  rw [h.noLocal]

variable {c : LocalPart δ}

theorem sendReduce_complete (hid : red.seqID = id)
    (hlocal : red.localContributed = some c) (hk : red.numChildren = ds.length)
    (hr : red.numRemoteReceived = ds.length) (hcells : red.remoteData = slotsOf ds slots) :
    sendReduce red t = .ok (t.clearReduction id, some (c.output id ds)) := by
  unfold sendReduce
  rw [hlocal]
  dsimp only
  rw [hk, hr, if_neg (not_not.mpr rfl), hcells, Int.toNat_natCast]
  unfold slotsOf
  rw [readRemote_slotsOf, hid]
  rfl

theorem sendReduce_waiting {k : Nat} (h : Waiting red id ds slots k c) :
    sendReduce red t = .ok (t.store red, none) := by
  unfold sendReduce
  rw [h.hasLocal]
  dsimp only
  have hne := h.incomplete
  rw [if_pos (by rw [h.numChildren, h.received]; omega)]

/-- **The local call** on a gathering structure (or a new one): it sends if all children
have sent already, else it waits for them. -/
theorem contribute_spec (h : Gathering red id ds slots) (k : Nat) (c : LocalPart δ) :
    (k = ds.length ∧ contribute red k c t = .ok (t.clearReduction id, some (c.output id ds))) ∨
    (k ≠ ds.length ∧ ∃ red', contribute red k c t = .ok (t.store red', none) ∧
      Waiting red' id ds slots k c) := by
  have hnoLocal : ¬ red.localContributed.isSome = true := by simp [h.noLocal]
  unfold contribute
  rw [if_neg hnoLocal]
  by_cases hk : k = ds.length
  · exact .inl ⟨hk, sendReduce_complete h.seqID rfl (by rw [hk]) h.received h.cells⟩
  · have hw : Waiting { red with localContributed := some c, numChildren := k } id ds slots
        k c := ⟨h.seqID, rfl, rfl, h.received, h.cells, h.fits, symm hk⟩
    exact .inr ⟨hk, _, sendReduce_waiting hw, hw⟩

theorem pushRemote_eq (hr : red.numRemoteReceived = ds.length)
    (hcells : red.remoteData = slotsOf ds slots)
    (hlt : ds.length < slots) (hmax : ds.length < maxShort) (d : δ) :
    red.pushRemote d = .ok { red with
      remoteData := slotsOf (ds ++ [d]) slots
      numRemoteReceived := ((ds ++ [d]).length : Int) } := by
  unfold CmiReduction.pushRemote
  have hlen : red.remoteData.length = slots := by rw [hcells, length_slotsOf (Nat.le_of_lt hlt)]
  rw [if_pos (by omega), hr, hcells, Int.toNat_natCast, slotsOf_set hlt]
  have hsucc : toShort (ds.length + 1) = ((ds ++ [d]).length) := by
    rw [show (ds.length : Int) + 1 = (ds.length + 1 : Nat) by omega,
      toShort_natCast (by omega), length_append, length_singleton]
  rw [hsucc]

end Send

/-! ### Receiving -/

section Receive

variable {t : ReduceTable δ} {id : Nat} {red : CmiReduction δ} {ds : List δ} {slots : Nat}
  {msg : ReduceMsg δ}

/-- The slots after a message for a gathering structure: four more when there is none
left. -/
def slotsAfter (received slots : Nat) : Nat := if received = slots then slots + 4 else slots

theorem gathering_push (hg : Gathering red id ds slots) (hlt : ds.length < slots)
    (hmax : ds.length < maxShort) (d : δ) :
    ∃ red', red.pushRemote d = .ok red' ∧ Gathering red' id (ds ++ [d]) slots := by
  refine ⟨_, pushRemote_eq hg.received hg.cells hlt hmax d, hg.seqID, hg.noLocal, hg.numChildren,
    rfl, rfl, ?_⟩
  rw [length_append]
  exact hlt

theorem handle_eq {u red' : CmiReduction δ} (hget : getReduction msg.redID t = .ok red)
    (hroom : (if red.numRemoteReceived = red.numChildren then
        getReductionCreate msg.redID (toShort (red.numChildren + 4)) (t.store red)
      else .ok red) = .ok u) (hpush : u.pushRemote msg.data = .ok red') :
    handleReductionMessage msg t = sendReduce red' t := by
  unfold handleReductionMessage
  rw [hget]
  by_cases hfull : red.numRemoteReceived = red.numChildren
  · rw [if_pos hfull] at hroom
    simp only [bind, Except.bind, hfull, if_true]
    rw [hroom]
    dsimp only
    rw [hpush]
  · rw [if_neg hfull] at hroom
    obtain rfl := Except.ok.inj hroom
    simp only [bind, Except.bind, hfull, if_false, pure, Except.pure]
    rw [hpush]

theorem handle_none (hid : msg.redID = id) (h : t.info (reduceIndex id) = none) :
    ∃ red', handleReductionMessage msg t = .ok (t.store red', none) ∧
    Gathering red' id [msg.data] 4 := by
  subst hid
  obtain ⟨red, hred, hg⟩ := create_none h (Int.le_refl 0)
  obtain ⟨red', hpush, hg'⟩ :=
    gathering_push hg (show 0 < 4 by decide) (show 0 < maxShort by decide) msg.data
  have hne : ¬ red.numRemoteReceived = red.numChildren := by
    rw [hg.received, hg.numChildren, length_nil]
    decide
  refine ⟨red', ?_, hg'⟩
  rw [handle_eq hred (if_neg hne) hpush]
  exact sendReduce_gathering hg'

theorem handle_gathering (hid : msg.redID = id) (h : t.info (reduceIndex id) = some red)
    (hg : Gathering red id ds slots) (hmax : ds.length + 4 ≤ maxShort) :
    ∃ red', handleReductionMessage msg t = .ok (t.store red', none) ∧
      Gathering red' id (ds ++ [msg.data]) (slotsAfter ds.length slots) := by
  subst hid
  have hfits := hg.fits
  have hget : getReduction msg.redID t = .ok red := by
    refine getReduction_some h hg.seqID ?_
    rw [hg.numChildren]
    exact Int.natCast_nonneg _
  -- the structure that the message is written to
  obtain ⟨u, hu, hgu, hlt⟩ : ∃ u, (if red.numRemoteReceived = red.numChildren then
        getReductionCreate msg.redID (toShort (red.numChildren + 4)) (t.store red)
      else .ok red) = .ok u ∧ Gathering u msg.redID ds (slotsAfter ds.length slots) ∧
        ds.length < slotsAfter ds.length slots := by
    unfold slotsAfter
    by_cases hfull : ds.length = slots
    · have hentry : (t.store red).info (reduceIndex msg.redID) = some red :=
        info_store_self (by rw [hg.seqID])
      obtain ⟨u, hu, hgu⟩ := create_gathering hentry hg (slots + 4 : Nat)
      rw [Int.toNat_natCast, show max slots (slots + 4) = slots + 4 by omega] at hgu
      rw [if_pos hfull, if_pos (by rw [hg.received, hg.numChildren, hfull]), hg.numChildren,
        show (slots : Int) + 4 = (slots + 4 : Nat) by omega, toShort_natCast (by omega)]
      exact ⟨u, hu, hgu, by omega⟩
    · rw [if_neg hfull, if_neg (by rw [hg.received, hg.numChildren]; omega)]
      exact ⟨red, rfl, hg, by omega⟩
  obtain ⟨red', hpush, hg'⟩ := gathering_push hgu hlt (by omega) msg.data
  refine ⟨red', ?_, hg'⟩
  rw [handle_eq hget hu hpush]
  exact sendReduce_gathering hg'

theorem handle_waiting {k : Nat} {c : LocalPart δ} (hid : msg.redID = id)
    (h : t.info (reduceIndex id) = some red) (hw : Waiting red id ds slots k c)
    (hlt : ds.length < slots) (hmax : ds.length < maxShort) :
    (k = ds.length + 1 ∧ handleReductionMessage msg t =
      .ok (t.clearReduction id, some (c.output id (ds ++ [msg.data])))) ∨
    (k ≠ ds.length + 1 ∧ ∃ red', handleReductionMessage msg t = .ok (t.store red', none) ∧
      Waiting red' id (ds ++ [msg.data]) slots k c) := by
  subst hid
  have hlen : (ds ++ [msg.data]).length = ds.length + 1 := by
    rw [length_append, length_singleton]
  have hne : ¬ red.numRemoteReceived = red.numChildren := by
    have := hw.incomplete
    rw [hw.received, hw.numChildren]
    omega
  have hstep : handleReductionMessage msg t = sendReduce { red with
      remoteData := slotsOf (ds ++ [msg.data]) slots
      numRemoteReceived := ((ds ++ [msg.data]).length) } t := by
    refine handle_eq (getReduction_some h hw.seqID ?_) (if_neg hne)
      (pushRemote_eq hw.received hw.cells hlt hmax msg.data)
    rw [hw.numChildren]
    exact Int.natCast_nonneg _
  rw [hstep]
  by_cases hk : k = ds.length + 1
  · refine .inl ⟨hk, sendReduce_complete hw.seqID hw.hasLocal ?_ rfl rfl⟩
    show red.numChildren = _
    rw [hw.numChildren, hlen, hk]
  · have hw' : Waiting { red with
        remoteData := slotsOf (ds ++ [msg.data]) slots
        numRemoteReceived := ((ds ++ [msg.data]).length) } msg.redID (ds ++ [msg.data]) slots
        k c :=
      ⟨hw.seqID, hw.hasLocal, hw.numChildren, rfl, rfl, by omega, by omega⟩
    exact .inr ⟨hk, _, sendReduce_waiting hw', hw'⟩

end Receive

end CharmRuntime.Converse
