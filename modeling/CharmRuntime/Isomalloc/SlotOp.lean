import Mathlib.Data.Set.BooleanAlgebra
import Mathlib.Order.CompletePartialOrder
import CharmRuntime.Isomalloc.Blocks

/-!
# Isomalloc.SlotOp

**Slot operations across processors** (`conv-core/isomalloc.c`: `one_slotOP`,
`all_slotOP` and the two message handlers).

Processor `pe` owns the slots `[pe2slot pe, pe2slot (pe + 1))`. `all_slotOP` cuts a
range into the parts of its owners, works on its own part and sends a message for
each other part. `one_slotOP` gives every message the handler of `freeOP`, so a grab
of remote slots frees them (`acts_locally_iff`).
-/

namespace CharmRuntime.Isomalloc

open Function List

/-! ### The operations -/

/-- `slot2pe`. -/
def slot2pe (numslots slot : Int) : Int := slot.tdiv numslots

/-- `pe2slot`. -/
def pe2slot (numslots pe : Int) : Int := pe * numslots

/-- The registered message handlers `grab_remote` and `free_remote`. -/
inductive SlotHandler
  | grabRemote
  | freeRemote
  deriving DecidableEq, Repr

/-- `grabOP` and `freeOP`. -/
inductive SlotOp
  | grabOP
  | freeOP
  deriving DecidableEq, Repr

/-- `op->local`. -/
def SlotOp.localOp : SlotOp → Blocks → Int → Int → Except SlotAbort Blocks
  | .grabOP, ss, s, n => ss.grabSlots s n
  | .freeOP, ss, s, n => .ok (ss.freeSlots s n)

/-- `op.remote`. -/
def SlotOp.remote : SlotOp → SlotHandler
  | .grabOP => .grabRemote
  | .freeOP => .freeRemote

/-- `slotmsg`, with its destination and handler. -/
structure SlotMsg where
  dest : Int
  handler : SlotHandler
  pe : Int
  slot : Int
  nslots : Int
  deriving DecidableEq, Repr

/-- The slot sets `myss` of all processors and the messages sent so far. -/
structure Comm where
  myss : Int → Blocks
  sent : List SlotMsg

/-- The range shrunk to the slots of a processor: first slot and number of slots. -/
def shrink (numslots pe s n : Int) : Int × Int :=
  let ps := pe2slot numslots pe
  let pe' := pe2slot numslots (pe + 1)
  let e := s + n
  let s := if s < ps then ps else s
  let e := if e > pe' then pe' else e
  (s, e - s)

/-- `one_slotOP`, called on processor `me`. -/
def oneSlotOP (numslots me : Int) (op : SlotOp) (pe s n : Int) (c : Comm) : Except SlotAbort Comm :=
  let r := shrink numslots pe s n
  if pe = me then do
    let ss ← op.localOp (c.myss me) r.1 r.2
    pure { c with myss := update c.myss me ss }
  else
    pure { c with sent := c.sent ++
      [{ dest := pe, handler := SlotOp.freeOP.remote, pe := me, slot := r.1, nslots := r.2 }] }

/-- The loop of `all_slotOP` for `count` processors from `pe` on. -/
def slotOPLoop (numslots me : Int) (op : SlotOp) (s n : Int) :
    Nat → Int → Comm → Except SlotAbort Comm
  | 0, _, c => pure c
  | count + 1, pe, c => do
      let c ← oneSlotOP numslots me op pe s n c
      slotOPLoop numslots me op s n count (pe + 1) c

/-- `all_slotOP`. -/
def allSlotOP (numslots me : Int) (op : SlotOp) (s n : Int) (c : Comm) : Except SlotAbort Comm :=
  let spe := slot2pe numslots s
  let epe := slot2pe numslots (s + n - 1)
  slotOPLoop numslots me op s n (epe - spe + 1).toNat spe c

/-- `grab_remote` and `free_remote`. -/
def handleSlotMsg (m : SlotMsg) (myss : Int → Blocks) : Except SlotAbort (Int → Blocks) :=
  match m.handler with
  | .grabRemote => do
      let ss ← (myss m.dest).grabSlots m.slot m.nslots
      pure (update myss m.dest ss)
  | .freeRemote => pure (update myss m.dest ((myss m.dest).freeSlots m.slot m.nslots))

/-- The handlers of some messages, one after the other. -/
def handleSlotMsgs : List SlotMsg → (Int → Blocks) → Except SlotAbort (Int → Blocks)
  | [], myss => pure myss
  | m :: l, myss => do
      let myss ← handleSlotMsg m myss
      handleSlotMsgs l myss

/-! ### What the operations are for -/

/-- The part of the range that processor `pe` owns. -/
def ownPart (numslots pe s n : Int) : Set Int :=
  { x | (s ≤ x ∧ x < s + n) ∧ pe2slot numslots pe ≤ x ∧ x < pe2slot numslots (pe + 1) }

/-- A grab takes slots out of the free set, a free puts them into it. -/
def SlotOp.effect : SlotOp → Set Int → Set Int → Set Int
  | .grabOP, free, part => free \ part
  | .freeOP, free, part => free ∪ part

/-- For a grab the slots are free on their owner, for a free they are not. -/
def SlotOp.Pre : SlotOp → Set Int → Set Int → Prop
  | .grabOP, free, part => part ⊆ free
  | .freeOP, free, part => Disjoint part free

/-- Processor `pe` ends up as if it had done its part of the operation itself. -/
structure LocalEffect (numslots : Int) (op : SlotOp) (s n pe : Int) (before after : Blocks) :
    Prop where
  asIfLocal : if 0 < (shrink numslots pe s n).2 then
      op.localOp before (shrink numslots pe s n).1 (shrink numslots pe s n).2 = .ok after
    else after = before
  slots_eq : after.slots = op.effect before.slots (ownPart numslots pe s n)

/-- After `all_slotOP` on `me` and its messages, handled in any order, every processor
has done its part. -/
def ActsLocally (numPes numslots : Int) (op : SlotOp) (me s n : Int) (myss : Int → Blocks) : Prop :=
  ∃ c, allSlotOP numslots me op s n { myss, sent := [] } = .ok c ∧
    ∀ order, order.Perm c.sent → ∃ myss', handleSlotMsgs order c.myss = .ok myss' ∧
      ∀ pe, 0 ≤ pe → pe < numPes → LocalEffect numslots op s n pe (myss pe) (myss' pe)

/-! ### The ranges -/

section

variable {numslots pe s n : Int}

theorem pe2slot_succ (numslots pe : Int) :
    pe2slot numslots (pe + 1) = pe2slot numslots pe + numslots := by
  unfold pe2slot
  rw [Int.add_mul, Int.one_mul]

theorem mem_ownPart_iff {x : Int} : x ∈ ownPart numslots pe s n ↔ (shrink numslots pe s n).1 ≤ x ∧
        x < (shrink numslots pe s n).1 + (shrink numslots pe s n).2 := by
  simp only [ownPart, Set.mem_ofPred_eq, shrink]
  split <;> split <;> omega

theorem ownPart_eq : ownPart numslots pe s n = { x | (shrink numslots pe s n).1 ≤ x ∧
      x < (shrink numslots pe s n).1 + (shrink numslots pe s n).2 } := by
  ext x
  exact mem_ownPart_iff

theorem ownPart_eq_empty (h : ¬ 0 < (shrink numslots pe s n).2) : ownPart numslots pe s n = ∅ := by
  ext x
  rw [mem_ownPart_iff]
  simp only [Set.mem_empty_iff_false, iff_false]
  omega

theorem le_slot2pe_iff {x : Int} (hk : 1 ≤ numslots) (hx : 0 ≤ x) :
    pe ≤ slot2pe numslots x ↔ pe2slot numslots pe ≤ x := by
  unfold slot2pe pe2slot
  rw [Int.tdiv_eq_ediv_of_nonneg hx, Int.le_ediv_iff_mul_le (by omega)]

theorem slot2pe_le_iff {x : Int} (hk : 1 ≤ numslots) (hx : 0 ≤ x) :
    slot2pe numslots x ≤ pe ↔ x < pe2slot numslots (pe + 1) := by
  unfold slot2pe pe2slot
  rw [Int.tdiv_eq_ediv_of_nonneg hx, ← Int.lt_add_one_iff, Int.ediv_lt_iff_lt_mul (by omega)]

theorem shrink_pos_iff (hk : 1 ≤ numslots) (hs : 0 ≤ s) (hn : 1 ≤ n) :
    0 < (shrink numslots pe s n).2 ↔
      slot2pe numslots s ≤ pe ∧ pe ≤ slot2pe numslots (s + n - 1) := by
  rw [slot2pe_le_iff hk hs, le_slot2pe_iff hk (by omega)]
  have hsucc := pe2slot_succ numslots pe
  simp only [shrink]
  split <;> split <;> omega

theorem shrink_start_nonneg (hs : 0 ≤ s) : 0 ≤ (shrink numslots pe s n).1 := by
  simp only [shrink]
  split <;> omega

end

/-! ### One processor -/

section

variable {numslots s n : Int} {op : SlotOp}

theorem localOp_spec {pe : Int} {ss : Blocks} (hl : ss.Coalesced) (hs : 0 ≤ s)
    (hpos : 0 < (shrink numslots pe s n).2) (hpre : op.Pre ss.slots (ownPart numslots pe s n)) :
    ∃ ss', op.localOp ss (shrink numslots pe s n).1 (shrink numslots pe s n).2 = .ok ss' ∧
      LocalEffect numslots op s n pe ss ss' := by
  cases op with
  | grabOP =>
    have hfree : ∀ x, (shrink numslots pe s n).1 ≤ x →
        x < (shrink numslots pe s n).1 + (shrink numslots pe s n).2 → x ∈ ss.slots :=
      fun x h1 h2 => hpre (mem_ownPart_iff.mpr ⟨h1, h2⟩)
    obtain ⟨ss', heq, -, hslots⟩ := Blocks.grabSlots_spec hl hpos hfree
    refine ⟨ss', heq, ?_, ?_⟩
    · rw [if_pos hpos]
      exact heq
    · rw [hslots, ownPart_eq]
      rfl
  | freeOP =>
    have hused : ∀ x, (shrink numslots pe s n).1 ≤ x →
        x < (shrink numslots pe s n).1 + (shrink numslots pe s n).2 → x ∉ ss.slots :=
      fun x h1 h2 => Set.disjoint_left.mp hpre (mem_ownPart_iff.mpr ⟨h1, h2⟩)
    obtain ⟨-, hslots⟩ := Blocks.freeSlots_spec hl hpos (shrink_start_nonneg hs) hused
    refine ⟨_, rfl, ?_, ?_⟩
    · rw [if_pos hpos]
      rfl
    · rw [hslots, ownPart_eq]
      rfl

theorem localEffect_outside {pe : Int} (ss : Blocks) (h : ¬ 0 < (shrink numslots pe s n).2) :
    LocalEffect numslots op s n pe ss ss := by
  refine ⟨?_, ?_⟩
  · rw [if_neg h]
  · rw [ownPart_eq_empty h]
    cases op with
    | grabOP =>
      ext x
      simp [SlotOp.effect]
    | freeOP => simp [SlotOp.effect]

theorem not_localEffect_grab {pe : Int} {ss : Blocks} (hl : ss.Coalesced)
    (hpos : 0 < (shrink numslots pe s n).2)
    (hpre : SlotOp.grabOP.Pre ss.slots (ownPart numslots pe s n)) :
    ¬ LocalEffect numslots .grabOP s n pe ss
      (ss.freeSlots (shrink numslots pe s n).1 (shrink numslots pe s n).2) := by
  intro h
  have hfree : ∀ x, (shrink numslots pe s n).1 ≤ x →
      x < (shrink numslots pe s n).1 + (shrink numslots pe s n).2 → x ∈ ss.slots :=
    fun x h1 h2 => hpre (mem_ownPart_iff.mpr ⟨h1, h2⟩)
  refine Blocks.freeSlots_of_free hl hpos hfree ?_
  rw [h.slots_eq, ownPart_eq]
  rfl

end

/-! ### The messages -/

/-- The message for the part of processor `pe`. -/
def partMsg (numslots me s n pe : Int) : SlotMsg :=
  { dest := pe, handler := .freeRemote, pe := me, slot := (shrink numslots pe s n).1
    nslots := (shrink numslots pe s n).2 }

/-- The processors the loop visits. -/
def visited : Nat → Int → List Int
  | 0, _ => []
  | count + 1, pe => pe :: visited count (pe + 1)

theorem mem_visited {x : Int} : ∀ {count : Nat} {pe : Int},
    x ∈ visited count pe ↔ pe ≤ x ∧ x < pe + count := by
  intro count
  induction count with
  | zero =>
    intro pe
    simp only [visited, not_mem_nil, false_iff]
    omega
  | succ count ih =>
    intro pe
    rw [visited, mem_cons, ih]
    omega

theorem nodup_visited : ∀ {count : Nat} {pe : Int}, (visited count pe).Nodup := by
  intro count
  induction count with
  | zero => intro pe; exact nodup_nil
  | succ count ih =>
    intro pe
    rw [visited, nodup_cons]
    refine ⟨?_, ih⟩
    rw [mem_visited]
    omega

/-- **The loop of `all_slotOP`**: one message for each visited processor but the own
one, which does its part at once. -/
theorem slotOPLoop_spec {numslots me s n : Int} {op : SlotOp} :
    ∀ (count : Nat) (pe : Int) (c : Comm),
    (me ∈ visited count pe → ∃ ss, op.localOp (c.myss me) (shrink numslots me s n).1
      (shrink numslots me s n).2 = .ok ss) →
    ∃ c', slotOPLoop numslots me op s n count pe c = .ok c' ∧
      c'.sent = c.sent ++ ((visited count pe).filter (· ≠ me)).map (partMsg numslots me s n) ∧
      (∀ q, q ≠ me → c'.myss q = c.myss q) ∧
      (if me ∈ visited count pe then op.localOp (c.myss me) (shrink numslots me s n).1
        (shrink numslots me s n).2 = .ok (c'.myss me) else c'.myss me = c.myss me) := by
  intro count
  induction count with
  | zero =>
    intro pe c _
    exact ⟨c, rfl, by simp [visited], fun _ _ => rfl, by simp [visited]⟩
  | succ count ih =>
    intro pe c hlocal
    rw [slotOPLoop]
    by_cases hme : pe = me
    · -- the own part
      subst hme
      have hnot : pe ∉ visited count (pe + 1) := by
        rw [mem_visited]
        omega
      obtain ⟨ss, hss⟩ := hlocal (by exact mem_cons_self)
      have hone :
        oneSlotOP numslots pe op pe s n c = .ok { c with myss := update c.myss pe ss } := by
        unfold oneSlotOP
        rw [if_pos rfl, hss]
        rfl
      obtain ⟨c', heq, hsent, hothers, hown⟩ := ih (pe + 1)
        { c with myss := update c.myss pe ss } (fun h => absurd h hnot)
      rw [if_neg hnot] at hown
      refine ⟨c', ?_, ?_, ?_, ?_⟩
      · rw [hone]
        exact heq
      · rw [hsent, visited]
        simp
      · intro q hq
        rw [hothers q hq]
        exact update_of_ne hq _ _
      · rw [if_pos (by exact mem_cons_self), hown, hss]
        simp
    · have hone : oneSlotOP numslots me op pe s n c =
          .ok { c with sent := c.sent ++ [partMsg numslots me s n pe] } := by
        unfold oneSlotOP
        rw [if_neg hme]
        rfl
      have hiff : me ∈ visited (count + 1) pe ↔ me ∈ visited count (pe + 1) := by
        rw [visited, mem_cons]
        exact ⟨fun h => h.resolve_left (fun heq => hme heq.symm), .inr⟩
      obtain ⟨c', heq, hsent, hothers, hown⟩ := ih (pe + 1)
        { c with sent := c.sent ++ [partMsg numslots me s n pe] } (fun h => hlocal (hiff.mpr h))
      refine ⟨c', ?_, ?_, hothers, ?_⟩
      · rw [hone]
        exact heq
      · rw [hsent, visited]
        simp [hme]
      · simp only [hiff]
        exact hown

/-- **Messages to different processors** in any order: each frees its part. -/
theorem handleSlotMsgs_spec {f : Int → SlotMsg} (hdest : ∀ q, (f q).dest = q)
    (hfree : ∀ q, (f q).handler = .freeRemote) : ∀ (l : List Int) (myss : Int → Blocks), l.Nodup →
    ∃ myss', handleSlotMsgs (l.map f) myss = .ok myss' ∧
      ∀ q, myss' q = if q ∈ l then (myss q).freeSlots (f q).slot (f q).nslots else myss q := by
  intro l
  induction l with
  | nil =>
    intro myss _
    exact ⟨myss, rfl, by simp⟩
  | cons q l ih =>
    intro myss hnd
    obtain ⟨hq, hnd⟩ := nodup_cons.mp hnd
    have hone : handleSlotMsg (f q) myss =
        .ok (update myss q ((myss q).freeSlots (f q).slot (f q).nslots)) := by
      unfold handleSlotMsg
      rw [hfree q, hdest q]
      rfl
    obtain ⟨myss', heq, hres⟩ := ih (update myss q ((myss q).freeSlots (f q).slot (f q).nslots)) hnd
    refine ⟨myss', ?_, ?_⟩
    · rw [map_cons, handleSlotMsgs, hone]
      exact heq
    · intro r
      rw [hres r]
      by_cases hr : r = q
      · subst hr
        simp [hq]
      · simp [hr]

/-! ### Whole operations -/

section

variable {numPes numslots me s n : Int} {op : SlotOp} {myss : Int → Blocks}

/-- What `all_slotOP` and its messages make of the slot sets. -/
theorem allSlotOP_spec (hk : 1 ≤ numslots) (hs : 0 ≤ s) (hn : 1 ≤ n)
    (hl : (myss me).Coalesced) (hpre : op.Pre (myss me).slots (ownPart numslots me s n)) :
    ∃ c, allSlotOP numslots me op s n { myss, sent := [] } = .ok c ∧
      ∀ order, order.Perm c.sent → ∃ myss', handleSlotMsgs order c.myss = .ok myss' ∧
        LocalEffect numslots op s n me (myss me) (myss' me) ∧
        ∀ pe, pe ≠ me → myss' pe = if 0 < (shrink numslots pe s n).2 then
          (myss pe).freeSlots (shrink numslots pe s n).1 (shrink numslots pe s n).2 else
            myss pe := by
  set spe := slot2pe numslots s
  set count := (slot2pe numslots (s + n - 1) - spe + 1).toNat
  have hvisit : ∀ pe, pe ∈ visited count spe ↔ 0 < (shrink numslots pe s n).2 := by
    intro pe
    rw [mem_visited, shrink_pos_iff hk hs hn]
    omega
  have hlocal : me ∈ visited count spe → ∃ ss, op.localOp (myss me) (shrink numslots me s n).1
      (shrink numslots me s n).2 = .ok ss := by
    intro hme
    obtain ⟨ss, hss, -⟩ := localOp_spec hl hs ((hvisit me).mp hme) hpre
    exact ⟨ss, hss⟩
  obtain ⟨c, heq, hsent, hothers, hown⟩ := slotOPLoop_spec count spe { myss, sent := [] } hlocal
  refine ⟨c, heq, ?_⟩
  intro order hperm
  rw [hsent, nil_append] at hperm
  -- an order of the messages is an order of their destinations
  set dests := order.map SlotMsg.dest with hd
  have hdests : dests.Perm ((visited count spe).filter (· ≠ me)) := by
    have hmap := hperm.map SlotMsg.dest
    rw [map_map] at hmap
    exact hmap.trans (map_id _ ▸ Perm.refl _)
  have horder : order = dests.map (partMsg numslots me s n) := by
    have hid : ∀ m ∈ order, (partMsg numslots me s n ∘ SlotMsg.dest) m = id m := by
      intro m hm
      obtain ⟨q, -, rfl⟩ := mem_map.mp (hperm.mem_iff.mp hm)
      rfl
    rw [map_map, map_congr_left hid, map_id]
  rw [horder]
  have hnd : dests.Nodup := hdests.nodup_iff.mpr (nodup_visited.filter _)
  have hmem : ∀ q, q ∈ dests ↔ 0 < (shrink numslots q s n).2 ∧ q ≠ me := by
    intro q
    rw [hdests.mem_iff, mem_filter, hvisit]
    simp
  obtain ⟨myss', hhandle, hres⟩ := handleSlotMsgs_spec (f := partMsg numslots me s n)
    (fun _ => rfl) (fun _ => rfl) dests c.myss hnd
  refine ⟨myss', hhandle, ?_, ?_⟩
  · have hme : me ∉ dests := fun h => ((hmem me).mp h).2 rfl
    rw [hres me, if_neg hme]
    by_cases hpos : 0 < (shrink numslots me s n).2
    · rw [if_pos ((hvisit me).mpr hpos)] at hown
      obtain ⟨ss, hss, heff⟩ := localOp_spec hl hs hpos hpre
      obtain rfl : ss = c.myss me := Except.ok.inj (hss.symm.trans hown)
      exact heff
    · rw [if_neg (fun h => hpos ((hvisit me).mp h))] at hown
      rw [hown]
      exact localEffect_outside _ hpos
  · intro pe hne
    rw [hres pe, hothers pe hne]
    by_cases hpos : 0 < (shrink numslots pe s n).2
    · rw [if_pos ((hmem pe).mpr ⟨hpos, hne⟩), if_pos hpos]
      rfl
    · rw [if_neg (fun h => hpos ((hmem pe).mp h).1), if_neg hpos]

theorem actsLocally_of (hk : 1 ≤ numslots) (hs : 0 ≤ s) (hn : 1 ≤ n) (hme : 0 ≤ me)
    (hme' : me < numPes) (hl : ∀ pe, 0 ≤ pe → pe < numPes → (myss pe).Coalesced)
    (hpre : ∀ pe, 0 ≤ pe → pe < numPes → op.Pre (myss pe).slots (ownPart numslots pe s n))
    (hcond : op = .freeOP ∨ pe2slot numslots me ≤ s ∧ s + n ≤ pe2slot numslots (me + 1)) :
    ActsLocally numPes numslots op me s n myss := by
  obtain ⟨c, heq, hall⟩ := allSlotOP_spec hk hs hn (hl me hme hme') (hpre me hme hme')
  refine ⟨c, heq, ?_⟩
  intro order hperm
  obtain ⟨myss', hhandle, hown, hothers⟩ := hall order hperm
  refine ⟨myss', hhandle, ?_⟩
  intro pe h0 hlt
  by_cases hpe : pe = me
  · rw [hpe]
    exact hown
  · have hres := hothers pe hpe
    by_cases hpos : 0 < (shrink numslots pe s n).2
    · rw [if_pos hpos] at hres
      rcases hcond with rfl | ⟨h1, h2⟩
      · obtain ⟨ss, hss, heff⟩ := localOp_spec (hl pe h0 hlt) hs hpos (hpre pe h0 hlt)
        obtain rfl := Except.ok.inj hss
        rw [hres]
        exact heff
      · -- the range has no slot of another processor
        rw [shrink_pos_iff hk hs hn] at hpos
        have hle := (le_slot2pe_iff hk hs).mpr h1
        have hge := (slot2pe_le_iff hk (show 0 ≤ s + n - 1 by omega)).mpr
          (show s + n - 1 < pe2slot numslots (me + 1) by omega)
        exact absurd (by omega) hpe
    · rw [if_neg hpos] at hres
      rw [hres]
      exact localEffect_outside _ hpos

theorem exists_other_owner (hk : 1 ≤ numslots) (hs : 0 ≤ s) (hn : 1 ≤ n)
    (hrange : s + n ≤ pe2slot numslots numPes)
    (hout : ¬ (pe2slot numslots me ≤ s ∧ s + n ≤ pe2slot numslots (me + 1))) :
    ∃ pe, pe ≠ me ∧ 0 ≤ pe ∧ pe < numPes ∧ 0 < (shrink numslots pe s n).2 := by
  have hmono : slot2pe numslots s ≤ slot2pe numslots (s + n - 1) := by
    rw [le_slot2pe_iff hk (by omega)]
    have := (le_slot2pe_iff hk hs).mp (le_refl (slot2pe numslots s))
    omega
  have hnonneg : 0 ≤ slot2pe numslots s := by
    rw [le_slot2pe_iff hk hs, pe2slot, Int.zero_mul]
    exact hs
  have hbound : slot2pe numslots (s + n - 1) ≤ numPes - 1 := by
    rw [slot2pe_le_iff hk (by omega), Int.sub_add_cancel]
    omega
  by_cases hleft : pe2slot numslots me ≤ s
  · -- the owner of the last slot
    refine ⟨slot2pe numslots (s + n - 1), ?_, by omega, by omega, ?_⟩
    · intro heq
      have := (slot2pe_le_iff hk (by omega)).mp heq.le
      omega
    · rw [shrink_pos_iff hk hs hn]
      exact ⟨hmono, le_refl _⟩
  · -- the owner of the first slot
    refine ⟨slot2pe numslots s, ?_, hnonneg, by omega, ?_⟩
    · intro heq
      exact hleft ((le_slot2pe_iff hk hs).mp heq.ge)
    · rw [shrink_pos_iff hk hs hn]
      exact ⟨le_refl _, hmono⟩

theorem not_actsLocally_grab (hk : 1 ≤ numslots) (hs : 0 ≤ s) (hn : 1 ≤ n)
    (hrange : s + n ≤ pe2slot numslots numPes) (hme : 0 ≤ me) (hme' : me < numPes)
    (hl : ∀ pe, 0 ≤ pe → pe < numPes → (myss pe).Coalesced)
    (hpre : ∀ pe, 0 ≤ pe → pe < numPes →
      SlotOp.grabOP.Pre (myss pe).slots (ownPart numslots pe s n))
    (hout : ¬ (pe2slot numslots me ≤ s ∧ s + n ≤ pe2slot numslots (me + 1))) :
    ¬ ActsLocally numPes numslots .grabOP me s n myss := by
  obtain ⟨c, heq, hall⟩ := allSlotOP_spec hk hs hn (hl me hme hme') (hpre me hme hme')
  rintro ⟨c', heq', hacts⟩
  obtain rfl : c = c' := Except.ok.inj (heq.symm.trans heq')
  obtain ⟨myss1, hhandle, -, hothers⟩ := hall c.sent (Perm.refl _)
  obtain ⟨myss2, hhandle', heff⟩ := hacts c.sent (Perm.refl _)
  obtain rfl : myss1 = myss2 := Except.ok.inj (hhandle.symm.trans hhandle')
  obtain ⟨pe, hne, h0, hlt, hpos⟩ := exists_other_owner hk hs hn hrange hout
  have hres := hothers pe hne
  rw [if_pos hpos] at hres
  have hgrab := heff pe h0 hlt
  rw [hres] at hgrab
  exact not_localEffect_grab (hl pe h0 hlt) hpos (hpre pe h0 hlt) hgrab

/-- **Remote slot operations act like local ones** exactly if they are frees or do not
leave the calling processor. -/
theorem acts_locally_iff (hk : 1 ≤ numslots) (hs : 0 ≤ s) (hn : 1 ≤ n)
    (hrange : s + n ≤ pe2slot numslots numPes) (hme : 0 ≤ me) (hme' : me < numPes)
    (hl : ∀ pe, 0 ≤ pe → pe < numPes → (myss pe).Coalesced)
    (hpre : ∀ pe, 0 ≤ pe → pe < numPes → op.Pre (myss pe).slots (ownPart numslots pe s n)) :
    ActsLocally numPes numslots op me s n myss ↔
      op = .freeOP ∨ pe2slot numslots me ≤ s ∧ s + n ≤ pe2slot numslots (me + 1) := by
  refine ⟨?_, actsLocally_of hk hs hn hme hme' hl hpre⟩
  intro hacts
  cases op with
  | freeOP => exact .inl rfl
  | grabOP =>
    right
    by_contra hout
    exact not_actsLocally_grab hk hs hn hrange hme hme' hl hpre hout hacts

end

/-- Freeing all slots of two processors. -/
theorem acts_locally_iff_free_two : ActsLocally 2 1 .freeOP 0 0 2 (fun _ => []) := by
  refine (acts_locally_iff (by decide) (by decide) (by decide) (by decide) (by decide) (by decide)
    (fun _ _ _ => Blocks.coalesced_nil) ?_).mpr (.inl rfl)
  intro pe _ _
  refine Set.disjoint_left.mpr ?_
  rintro x - ⟨b, hb, -⟩
  exact absurd hb (by simp)

/-- **A remote grab frees.** Two processors with one slot each, all free; processor 0
grabs slot 1. Processor 1 ends up with two blocks for its slot. -/
theorem remote_grab_frees :
    (∃ c myss', allSlotOP 1 0 .grabOP 1 1 { myss := fun pe => Blocks.newSlotset pe 1, sent := [] } =
        .ok c ∧ handleSlotMsgs c.sent c.myss = .ok myss' ∧
        myss' 1 = [{ startslot := 1, nslots := 1 }, { startslot := 1, nslots := 1 }]) ∧
      ¬ ActsLocally 2 1 .grabOP 0 1 1 (fun pe => Blocks.newSlotset pe 1) := by
  refine ⟨⟨_, _, rfl, rfl, by decide⟩, ?_⟩
  have hone : ∀ pe x : Int, x ∈ Blocks.slots (Blocks.newSlotset pe 1) ↔ x = pe := by
    intro pe x
    rw [Blocks.newSlotset, Blocks.mem_slots_singleton, SlotBlock.Covers]
    dsimp only
    omega
  refine not_actsLocally_grab (by decide) (by decide) (by decide) (by decide)
    (by decide) (by decide)
    (fun pe h0 _ => Blocks.newSlotset_coalesced h0 (by decide)) ?_ (by decide)
  rintro pe - - x ⟨-, h1, h2⟩
  rw [hone]
  unfold pe2slot at h1 h2
  omega

end CharmRuntime.Isomalloc
