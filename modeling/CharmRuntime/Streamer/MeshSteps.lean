import Mathlib.Algebra.Order.BigOperators.Group.Finset
import CharmRuntime.Lib.InFlight
import CharmRuntime.Lib.Sum
import CharmRuntime.Streamer.MeshStreamer

/-!
# Streamer.MeshSteps

What the routines of `MeshStreamer` do. Every buffered item is on its way to its destination along
the dimension of its buffer (`Bound`), and behind the dimension of a message nothing differs any
more (`Arrived`); this is `MeshOk`.

All routines put items into buffers and send buffers. This module says what putting one item into a
buffer and sending one buffer keep and change; `Streamer.MeshMoves` makes the routines of them.
-/

namespace CharmRuntime.Streamer

open Lib Function List

/-! ### Items on their way -/

section

variable (t : Topology)

/-- A buffer. -/
structure IsSlot (slot : Nat × Nat) : Prop where
  dimension : slot.1 < t.numDimensions
  index : slot.2 < t.size slot.1

/-- An item for `dest` may be in this buffer of `p`. -/
structure Bound (p : Nat) (slot : Nat × Nat) (dest : Nat) : Prop where
  dest_lt : dest < t.numMembers
  dimension : slot.1 < t.numDimensions
  index : slot.2 = coord t slot.1 dest
  inUse : slot.2 ≠ coord t slot.1 p
  behind : ∀ i, slot.1 < i → i < t.numDimensions → coord t i dest = coord t i p

/-- An item for `dest` may come to `q` along the dimension `d`. -/
structure Arrived (q d dest : Nat) : Prop where
  dest_lt : dest < t.numMembers
  behind : ∀ i, d ≤ i → i < t.numDimensions → coord t i dest = coord t i q

/-- The PE that a buffer of `p` is sent to. -/
def target (p : Nat) (slot : Nat × Nat) : Nat := move t slot.1 slot.2 p

/-- A message that came from a buffer. -/
structure Sent {ι : Type} (x : Nat × Message ι) : Prop where
  srcPe : x.2.srcPe < t.numMembers
  slot : ∃ j, IsSlot t (x.2.msgType, j) ∧ j ≠ coord t x.2.msgType x.2.srcPe ∧
    x.1 = target t x.2.srcPe (x.2.msgType, j)
  entries : ∀ e ∈ x.2.entries, Arrived t x.1 x.2.msgType e.2

/-- All buffers. -/
def slots : Finset (Nat × Nat) :=
  (Finset.range t.numDimensions).biUnion fun d => (Finset.range (t.size d)).image (Prod.mk d)

end

variable {t : Topology} {p q : Nat} {slot : Nat × Nat}

theorem Bound.isSlot {dest : Nat} (h : Bound t p slot dest) : IsSlot t slot :=
  ⟨h.dimension, h.index ▸ coord_lt h.dimension dest⟩

theorem mem_slots : slot ∈ slots t ↔ IsSlot t slot := by
  obtain ⟨d, j⟩ := slot
  simp only [slots, Finset.mem_biUnion, Finset.mem_range, Finset.mem_image, Prod.mk.injEq]
  constructor
  · rintro ⟨d, hd, j, hj, rfl, rfl⟩
    exact ⟨hd, hj⟩
  · rintro ⟨hd, hj⟩
    exact ⟨d, hd, j, hj, rfl, rfl⟩

theorem target_lt (hp : p < t.numMembers) (h : IsSlot t slot) : target t p slot < t.numMembers :=
  move_lt h.dimension h.index hp

theorem Sent.lt {ι : Type} {x : Nat × Message ι} (h : Sent t x) : x.1 < t.numMembers := by
  obtain ⟨j, hslot, -, htarget⟩ := h.slot
  rw [htarget]
  exact target_lt h.srcPe hslot

theorem Sent.msgType_le {ι : Type} {x : Nat × Message ι} (h : Sent t x) :
    x.2.msgType ≤ t.numDimensions := by
  obtain ⟨j, hslot, -⟩ := h.slot
  exact le_of_lt hslot.dimension

theorem Bound.arrived {dest : Nat} (h : Bound t p slot dest) :
    Arrived t (target t p slot) slot.1 dest := by
  refine ⟨h.dest_lt, fun i hi hlt => ?_⟩
  rw [target, coord_move h.dimension h.isSlot.index hlt]
  split
  · next heq => rw [heq, h.index]
  · next hne => exact h.behind i (lt_of_le_of_ne hi (symm hne)) hlt

theorem Heads.bound {dest received : Nat} {r : Route} (h : Heads t p dest received r)
    (hdest : dest < t.numMembers)
    (hreceived : received ≤ t.numDimensions)
    (hbehind : ∀ i, received ≤ i → i < t.numDimensions → coord t i dest = coord t i p) :
    Bound t p (r.dimension, r.dimensionIndex) dest where
  dest_lt := hdest
  dimension := h.lt.trans_le hreceived
  index := h.dimensionIndex
  inUse := h.dimensionIndex ▸ h.ne
  behind := by
    intro i hi hlt
    obtain hbefore | hafter := lt_or_ge i received
    · exact h.behind i hi hbefore
    · exact hbehind i hafter hlt

/-! ### States in order -/

variable {ι : Type}

/-- What is counted over some items. -/
def weigh (w : ι × Nat → Nat) (l : List (ι × Nat)) : Nat := (l.map w).sum

/-- What is counted over the items in the buffers of a PE. -/
def hold (t : Topology) (w : ι × Nat → Nat) (st : MeshStreamer ι) :
    Nat := ∑ slot ∈ slots t, weigh w (st.dataBuffers slot)

/-- What is counted over all items that are buffered or on their way. -/
def load (t : Topology) (w : ι × Nat → Nat) (s : MeshState ι) : Nat :=
  ∑ p ∈ Finset.range t.numMembers, hold t w (s.pes p) + (s.net.map fun x => weigh w x.2.entries).sum

structure MeshOk (t : Topology) (s : MeshState ι) : Prop where
  buffers : ∀ p < t.numMembers, ∀ slot, ∀ e ∈ (s.pes p).dataBuffers slot, Bound t p slot e.2
  net : ∀ x ∈ s.net, Sent t x
  count : ∀ p < t.numMembers, (s.pes p).numDataItemsBuffered = hold t (fun _ => 1) (s.pes p)

theorem weigh_append (w : ι × Nat → Nat) (l l' : List (ι × Nat)) :
    weigh w (l ++ l') = weigh w l + weigh w l' := by
  rw [weigh, map_append, sum_append]
  rfl

theorem weigh_one (l : List (ι × Nat)) : weigh (fun _ => 1) l = l.length := by
  simp [weigh]

variable {cfg : StreamerConfig} {s s' : MeshState ι} {w : ι × Nat → Nat}

/-! ### An item is buffered, a buffer is sent -/

theorem pes_addEntry (s : MeshState ι) (e : ι × Nat) :
    (s.addEntry p slot e).pes = update s.pes p ((s.pes p).addEntry slot e) := rfl

theorem pes_sendBuffer (s : MeshState ι) (dest : Int) (final : Bool) :
    (s.sendBuffer cfg p slot dest final).pes = update s.pes p ((s.pes p).clear cfg slot) := rfl

theorem dataBuffers_addEntry (st : MeshStreamer ι) (e : ι × Nat) (slot' : Nat × Nat) :
    (st.addEntry slot e).dataBuffers slot' = if slot' = slot then st.dataBuffers slot ++
    [e] else st.dataBuffers slot' :=
  update_apply st.dataBuffers slot _ slot'

theorem dataBuffers_clear (st : MeshStreamer ι) (slot' : Nat × Nat) :
    (st.clear cfg slot).dataBuffers slot' = if slot' = slot then [] else st.dataBuffers slot' :=
  update_apply st.dataBuffers slot _ slot'

theorem hold_of_update (st st' : MeshStreamer ι) {l : List (ι × Nat)} (hslot : IsSlot t slot)
    (h : st'.dataBuffers = update st.dataBuffers slot l) (w : ι × Nat → Nat) :
    hold t w st' + weigh w (st.dataBuffers slot) = hold t w st + weigh w l := by
  rw [hold, h]
  exact sum_update_replace (mem_slots.mpr hslot) (weigh w) st.dataBuffers l

theorem hold_addEntry (hslot : IsSlot t slot) (w : ι × Nat → Nat) (st : MeshStreamer ι)
    (e : ι × Nat) :
    hold t w (st.addEntry slot e) = hold t w st + w e := by
  have hhold := hold_of_update st (st.addEntry slot e) hslot rfl w
  have hone : weigh w [e] = w e := by simp [weigh]
  rw [weigh_append] at hhold
  omega

theorem hold_clear (cfg : StreamerConfig) (hslot : IsSlot t slot) (w : ι × Nat → Nat)
    (st : MeshStreamer ι) :
    hold t w (st.clear cfg slot) + weigh w (st.dataBuffers slot) = hold t w st :=
  hold_of_update st (st.clear cfg slot) hslot rfl w

theorem load_of_update (s s' : MeshState ι) {st : MeshStreamer ι} {msgs : List (Nat × Message ι)}
    (hp : p < t.numMembers)
    (hpes : s'.pes = update s.pes p st) (hnet : s'.net = s.net ++ msgs) (w : ι × Nat → Nat) :
    load t w s' + hold t w (s.pes p) = load t w s + hold t w st +
    (msgs.map fun x => weigh w x.2.entries).sum := by
  have hsum := sum_update_replace (Finset.mem_range.mpr hp) (hold t w) s.pes st
  rw [load, load, hpes, hnet, map_append, sum_append]
  omega

theorem load_setSent (hp : p < t.numMembers) (w : ι × Nat → Nat) (b : Bool) :
    load t w (s.setSent p b) = load t w s := by
  have hload := load_of_update s (s.setSent p b) hp rfl (append_nil _).symm w
  exact add_right_cancel hload

theorem load_addEntry (hp : p < t.numMembers) (hslot : IsSlot t slot) (w : ι × Nat → Nat)
    (e : ι × Nat) :
    load t w (s.addEntry p slot e) = load t w s + w e := by
  have hload := load_of_update s (s.addEntry p slot e) hp rfl (append_nil _).symm w
  rw [hold_addEntry hslot, map_nil, sum_nil] at hload
  omega

theorem load_sendBuffer (hp : p < cfg.topology.numMembers) (hslot : IsSlot cfg.topology slot)
    (w : ι × Nat → Nat) (dest : Int)
    (final : Bool) :
    load cfg.topology w (s.sendBuffer cfg p slot dest final) = load cfg.topology w s := by
  have hload := load_of_update s (s.sendBuffer cfg p slot dest final) hp rfl rfl w
  have hclear := hold_clear cfg hslot w (s.pes p)
  change _ = _ + _ + weigh w ((s.pes p).dataBuffers slot) at hload
  omega

namespace MeshOk

theorem new : MeshOk t (MeshState.new : MeshState ι) where
  buffers _ _ _ _ he := absurd he not_mem_nil
  net _ hx := absurd hx not_mem_nil
  count _ _ := by simp [MeshState.new, hold, weigh]

theorem of_update {st : MeshStreamer ι} {msgs : List (Nat × Message ι)} (h : MeshOk t s)
    (hpes : s'.pes = update s.pes p st) (hnet : s'.net = s.net ++ msgs)
    (hbuffers : ∀ slot, ∀ e ∈ st.dataBuffers slot, Bound t p slot e.2)
    (hcount : st.numDataItemsBuffered = hold t (fun _ => 1) st) (hmsgs : ∀ x ∈ msgs, Sent t x) :
    MeshOk t s' where
  buffers q hq slot e he := by
    rw [hpes] at he
    by_cases hqp : q = p
    · subst hqp
      rw [update_self] at he
      exact hbuffers slot e he
    · rw [update_of_ne hqp] at he
      exact h.buffers q hq slot e he
  net x hx := by
    rw [hnet, mem_append] at hx
    exact hx.elim (h.net x) (hmsgs x)
  count q hq := by
    rw [hpes]
    by_cases hqp : q = p
    · subst hqp
      rw [update_self]
      exact hcount
    · rw [update_of_ne hqp]
      exact h.count q hq

theorem setSent (h : MeshOk t s) (hp : p < t.numMembers) (b : Bool) : MeshOk t (s.setSent p b) :=
  h.of_update rfl (append_nil _).symm (h.buffers p hp) (h.count p hp) fun _ hx =>
  absurd hx not_mem_nil

theorem addEntry {e : ι × Nat} (h : MeshOk t s) (hp : p < t.numMembers) (he : Bound t p slot e.2) :
    MeshOk t (s.addEntry p slot e) := by
  refine h.of_update rfl (append_nil _).symm ?_ ?_ fun _ hx => absurd hx not_mem_nil
  · intro slot' e' he'
    rw [dataBuffers_addEntry] at he'
    split at he'
    · next hslot =>
        rw [hslot]
        rw [mem_append, mem_singleton] at he'
        obtain he' | rfl := he'
        exacts [h.buffers p hp slot e' he', he]
    · exact h.buffers p hp slot' e' he'
  · rw [hold_addEntry he.isSlot, Int.natCast_add, ← h.count p hp]
    rfl

theorem inUse (h : MeshOk t s) (hp : p < t.numMembers) (hne : (s.pes p).dataBuffers slot ≠ []) :
    IsSlot t slot ∧ slot.2 ≠ coord t slot.1 p := by
  obtain ⟨e, he⟩ := exists_mem_of_ne_nil _ hne
  have hbound := h.buffers p hp slot e he
  exact ⟨hbound.isSlot, hbound.inUse⟩

theorem sendBuffer (h : MeshOk cfg.topology s) (hp : p < cfg.topology.numMembers)
    (hslot : IsSlot cfg.topology slot)
    (huse : slot.2 ≠ coord cfg.topology slot.1 p) (final : Bool) :
    MeshOk cfg.topology (s.sendBuffer cfg p slot (target cfg.topology p slot) final) := by
  refine h.of_update rfl rfl ?_ ?_ ?_
  · intro slot' e he
    rw [dataBuffers_clear] at he
    split at he
    · exact absurd he not_mem_nil
    · exact h.buffers p hp slot' e he
  · have hclear := hold_clear cfg hslot (fun _ => 1) (s.pes p)
    have hcount := h.count p hp
    rw [weigh_one] at hclear
    change (s.pes p).numDataItemsBuffered - _ = _
    omega
  · intro x hx
    obtain rfl := mem_singleton.mp hx
    exact
      { srcPe := hp
        slot := ⟨slot.2, hslot, huse, Int.toNat_natCast _⟩
        entries := fun e he => Int.toNat_natCast _ ▸ (h.buffers p hp slot e he).arrived }

theorem count_eq_zero (h : MeshOk t s) (hp : p < t.numMembers)
    (hbuffers : ∀ slot, (s.pes p).dataBuffers slot = []) :
    (s.pes p).numDataItemsBuffered = 0 := by
  rw [h.count p hp, hold, Finset.sum_eq_zero fun slot _ => by rw [hbuffers]; rfl]
  rfl

theorem take (h : MeshOk t s) (k : Nat) : MeshOk t (s.take k) where
  buffers := h.buffers
  net x hx := h.net x (mem_of_mem_eraseIdx hx)
  count := h.count

end MeshOk

theorem load_take {k : Nat} {x : Nat × Message ι} (hk : s.net[k]? = some x) (t : Topology)
    (w : ι × Nat → Nat) :
    load t w (s.take k) + weigh w x.2.entries = load t w s := by
  have hsum := ((perm_eraseIdx hk).map fun x => weigh w x.2.entries).sum_eq
  rw [map_cons, sum_cons] at hsum
  rw [load, load, hsum, add_assoc, add_comm (weigh w x.2.entries)]
  rfl

end CharmRuntime.Streamer
