import CharmRuntime.Streamer.MeshSteps

/-!
# Streamer.MeshMoves

**What the routines of `MeshStreamer` do to the buffers.** A routine puts items into buffers and
sends buffers that are not empty, in some order (`Moves`), and so keeps what both of these keep:
every item stays on its way (`Moves.ok`), and what is counted over the items grows by what is
counted over the new ones (`Moves.load`).

`storeMessage_moves`, `flushIfIdle_moves` and `receiveAlongRoute_moves` say it of the routines,
which also never fail. What was received along a dimension is put into buffers of the dimensions
before it only; this is what `lim` is for.
-/

namespace CharmRuntime.Streamer

open Lib List

variable {ι : Type}

/-- Steps of the PE `p` from a state, and the items they put into buffers, of dimensions before
`lim`. -/
inductive Moves (cfg : StreamerConfig) (p lim : Nat) (s : MeshState ι) :
    MeshState ι → List (ι × Nat) → Prop
  | refl : Moves cfg p lim s s []
  | add {s' : MeshState ι} {l : List (ι × Nat)} {slot : Nat × Nat} {e : ι × Nat} :
      Moves cfg p lim s s' l → Bound cfg.topology p slot e.2 → slot.1 < lim →
      Moves cfg p lim s (s'.addEntry p slot e) (l ++ [e])
  | send {s' : MeshState ι} {l : List (ι × Nat)} {slot : Nat × Nat} :
      Moves cfg p lim s s' l → IsSlot cfg.topology slot → (s'.pes p).dataBuffers slot ≠ [] →
        Moves cfg p lim s (s'.sendBuffer cfg p slot (target cfg.topology p slot) false) l
  | setSent {s' : MeshState ι} {l : List (ι × Nat)} {b : Bool} :
      Moves cfg p lim s s' l → Moves cfg p lim s (s'.setSent p b) l

variable {cfg : StreamerConfig} {p lim : Nat} {s s' s'' : MeshState ι} {l l' : List (ι × Nat)}

namespace Moves

theorem trans (h : Moves cfg p lim s s' l) (h' : Moves cfg p lim s' s'' l') :
    Moves cfg p lim s s'' (l ++ l') := by
  induction h' with
  | refl =>
    rw [append_nil]
    exact h
  | add _ hbound hlim ih =>
    rw [← append_assoc]
    exact ih.add hbound hlim
  | send _ hslot hne ih => exact ih.send hslot hne
  | setSent _ ih => exact ih.setSent

theorem foldl {α : Type} {f : MeshState ι → α → MeshState ι} {as : List α}
    (hf : ∀ s, ∀ a ∈ as, Moves cfg p lim s (f s a) [])
    (s : MeshState ι) : Moves cfg p lim s (as.foldl f s) [] := by
  induction as generalizing s with
  | nil => exact .refl
  | cons a as ih =>
    exact (hf s a mem_cons_self).trans (ih (fun s' b hb => hf s' b (mem_cons_of_mem a hb)) (f s a))

theorem ok (h : Moves cfg p lim s s' l) (hok : MeshOk cfg.topology s)
    (hp : p < cfg.topology.numMembers) :
    MeshOk cfg.topology s' := by
  induction h with
  | refl => exact hok
  | add _ hbound _ ih => exact ih.addEntry hp hbound
  | send _ hslot hne ih => exact ih.sendBuffer hp hslot (ih.inUse hp hne).2 false
  | setSent _ ih => exact ih.setSent hp _

/-- **No item is lost or put twice.** -/
theorem load (h : Moves cfg p lim s s' l) (hp : p < cfg.topology.numMembers) (w : ι × Nat → Nat) :
    load cfg.topology w s' = load cfg.topology w s + weigh w l := by
  induction h with
  | refl => rfl
  | add _ hbound _ ih =>
    rw [load_addEntry hp hbound.isSlot, ih, weigh_append, add_assoc]
    rfl
  | send _ hslot _ ih => rw [load_sendBuffer hp hslot, ih]
  | setSent _ ih => rw [load_setSent hp, ih]

end Moves

/-! ### Sending -/

/-- A buffer that is not empty is sent to the PE that `nextPeAlongRoute` finds. -/
theorem sendBuffer_moves (hp : p < cfg.topology.numMembers) {slot : Nat × Nat}
    (hslot : IsSlot cfg.topology slot)
    (hne : (s.pes p).dataBuffers slot ≠ []) :
    Moves cfg p lim s
      (s.sendBuffer cfg p slot (nextPeAlongRoute cfg.topology p slot.1 slot.2) false) [] := by
  rw [nextPeAlongRoute_eq hp hslot.dimension]
  exact Moves.refl.send hslot hne

theorem largest_spec (cfg : StreamerConfig) (s : MeshState ι) (p d : Nat) :
    (s.largest cfg p d).1 = 0 ∨ (s.largest cfg p d).2 < cfg.topology.size d ∧
      ((s.pes p).dataBuffers (d, (s.largest cfg p d).2)).length = (s.largest cfg p d).1 := by
  refine foldlRecOn (motive := fun best : Nat × Nat => best.1 = 0 ∨ best.2 < cfg.topology.size d ∧
      ((s.pes p).dataBuffers (d, best.2)).length = best.1)
    (range (cfg.topology.size d)) _ (.inl rfl) fun best hbest j hj => ?_
  dsimp only
  split
  · exact .inr ⟨mem_range.mp hj, rfl⟩
  · exact hbest

theorem sendLargestBuffer_moves (hp : p < cfg.topology.numMembers) (s : MeshState ι) :
    Moves cfg p lim s (s.sendLargestBuffer cfg p) [] := by
  refine Moves.foldl (fun s d hd => ?_) s
  have hspec := largest_spec cfg s p d
  cases hbest : s.largest cfg p d with
  | mk maxSize flushIndex =>
    rw [hbest] at hspec
    dsimp only at hspec ⊢
    split
    · next hpos =>
        obtain ⟨hj, hlength⟩ := hspec.resolve_left hpos.ne'
        exact sendBuffer_moves hp ⟨mem_range.mp hd, hj⟩ (ne_nil_of_length_pos (hlength ▸ hpos))
    · exact .refl

theorem flushBuffer_moves (hp : p < cfg.topology.numMembers) {d j : Nat}
    (hslot : IsSlot cfg.topology (d, j)) (s : MeshState ι) :
    Moves cfg p lim s (s.flushBuffer cfg p d j false) [] := by
  rw [MeshState.flushBuffer]
  split
  · next huse =>
      simp only [Bool.or_false, Bool.and_eq_true, decide_eq_true_eq] at huse
      exact sendBuffer_moves hp hslot huse.2
  · exact .refl

theorem flushDimension_moves (hp : p < cfg.topology.numMembers) {d : Nat}
    (hd : d < cfg.topology.numDimensions) (s : MeshState ι) :
    Moves cfg p lim s (s.flushDimension cfg p d false) [] :=
  Moves.foldl (fun s _ hj => flushBuffer_moves hp ⟨hd, mem_range.mp hj⟩ s) s

theorem flushToIntermediateDestinations_moves (hp : p < cfg.topology.numMembers) (s : MeshState ι) :
    Moves cfg p lim s (s.flushToIntermediateDestinations cfg p) [] :=
  Moves.foldl (fun s _ hd => flushDimension_moves hp (mem_range.mp hd) s) s

/-! ### Flushing leaves nothing -/

section

variable (hp : p < cfg.topology.numMembers)

include hp

theorem dataBuffers_flushBuffer {d : Nat} (hd : d < cfg.topology.numDimensions) (s : MeshState ι)
    (j : Nat) (b : Bool)
    (slot : Nat × Nat) :
    ((s.flushBuffer cfg p d j b).pes p).dataBuffers slot =
      if slot = (d, j) ∧ j ≠ coord cfg.topology d p then [] else (s.pes p).dataBuffers slot := by
  rw [MeshState.flushBuffer, isBufferInUse, myLocationIndex_eq hp hd]
  split
  · next hsent =>
      rw [Bool.and_eq_true, decide_eq_true_eq] at hsent
      rw [pes_sendBuffer, Function.update_self, dataBuffers_clear]
      simp only [hsent.1, ne_eq, not_false_eq_true, and_true]
  · next hkept =>
      split
      · next hslot =>
          simp only [hslot.2, ne_eq, not_false_eq_true, decide_true, Bool.true_and, Bool.or_eq_true,
            decide_eq_true_eq, not_or, not_not] at hkept
          rw [hslot.1]
          exact hkept.1
      · rfl

theorem dataBuffers_flushDimension {d : Nat} (hd : d < cfg.topology.numDimensions) (s : MeshState ι)
    (b : Bool) (slot : Nat × Nat) :
    ((s.flushDimension cfg p d b).pes p).dataBuffers slot =
      if slot.1 = d ∧ slot.2 < cfg.topology.size d ∧
        slot.2 ≠ coord cfg.topology d p then [] else (s.pes p).dataBuffers slot := by
  rw [MeshState.flushDimension]
  induction cfg.topology.size d with
  | zero => simp
  | succ n ih =>
    rw [range_succ, foldl_append, foldl_cons, foldl_nil, dataBuffers_flushBuffer hp hd]
    grind

theorem dataBuffers_flush {n : Nat} (hn : n ≤ cfg.topology.numDimensions) (s : MeshState ι)
    {slot : Nat × Nat} (hslot : slot.1 < n)
    (hindex : slot.2 < cfg.topology.size slot.1) (huse : slot.2 ≠ coord cfg.topology slot.1 p) :
    (((List.range n).foldl (fun s d => s.flushDimension cfg p d false) s).pes p).dataBuffers slot =
    [] := by
  induction n with
  | zero => exact absurd hslot (Nat.not_lt_zero _)
  | succ n ih =>
    rw [range_succ, foldl_append, foldl_cons, foldl_nil, dataBuffers_flushDimension hp hn]
    split
    · rfl
    · next hne =>
        refine ih (Nat.le_of_succ_le hn)
          (lt_of_le_of_ne (Nat.le_of_lt_succ hslot) fun heq => hne ?_)
        subst heq
        exact ⟨rfl, hindex, huse⟩

/-- **A flush leaves nothing**, so that the check in `flushIfIdle` does not fail. -/
theorem count_flushToIntermediateDestinations (hok : MeshOk cfg.topology s) :
    ((s.flushToIntermediateDestinations cfg p).pes p).numDataItemsBuffered = 0 := by
  have hmoves : Moves cfg p 0 s (s.flushToIntermediateDestinations cfg p) [] :=
    flushToIntermediateDestinations_moves hp s
  have hok' := hmoves.ok hok hp
  refine hok'.count_eq_zero hp fun slot => ?_
  by_contra hne
  obtain ⟨hslot, huse⟩ := hok'.inUse hp hne
  exact hne (dataBuffers_flush hp (le_refl _) s hslot.dimension hslot.index huse)

theorem flushIfIdle_moves (hok : MeshOk cfg.topology s) (isPeriodicFlushEnabled : Bool) :
    ∃ s', s.flushIfIdle cfg p isPeriodicFlushEnabled = .ok s' ∧ Moves cfg p lim s s' [] := by
  rw [MeshState.flushIfIdle]
  split
  · by_cases hcount : (s.pes p).numDataItemsBuffered = 0
    · simp only [hcount, ne_eq, not_true_eq_false, if_false]
      exact ⟨_, rfl, Moves.refl.setSent⟩
    · simp only [hcount, ne_eq, not_false_eq_true, if_true,
        count_flushToIntermediateDestinations hp hok]
      exact ⟨_, rfl, (flushToIntermediateDestinations_moves hp s).setSent⟩
  · exact ⟨_, rfl, Moves.refl.setSent⟩

end

/-! ### Storing -/

theorem storeMessage_moves (hp : p < cfg.topology.numMembers) {dest : Nat} {r : Route}
    (hbound : Bound cfg.topology p (r.dimension, r.dimensionIndex) dest) (hlim : r.dimension < lim)
    (hdest : r.destinationPe = (target cfg.topology p (r.dimension, r.dimensionIndex) : Nat))
    (s : MeshState ι) (item : ι) :
    ∃ s', s.storeMessage cfg p dest (some r) item = .ok s' ∧
    Moves cfg p lim s s' [(item, dest)] := by
  have hadd :
    Moves cfg p lim s (s.addEntry p (r.dimension, r.dimensionIndex) (item, dest)) [(item, dest)] :=
    Moves.refl.add hbound hlim
  have hne : ((s.addEntry p (r.dimension, r.dimensionIndex) (item, dest)).pes p).dataBuffers
    (r.dimension, r.dimensionIndex) ≠ [] := by
    rw [pes_addEntry, Function.update_self, dataBuffers_addEntry, if_pos rfl]
    exact append_ne_nil_of_right_ne_nil _ (cons_ne_nil _ _)
  rw [MeshState.storeMessage]
  dsimp only
  rw [if_pos ⟨hbound.isSlot.dimension, hbound.isSlot.index⟩, hdest]
  split
  · exact ⟨_, rfl, (hadd.send hbound.isSlot hne).setSent⟩
  · split
    · exact ⟨_, rfl, (hadd.trans (sendLargestBuffer_moves hp _)).setSent⟩
    · exact ⟨_, rfl, hadd⟩

theorem insertData_moves (hp : p < cfg.topology.numMembers) {dest : Nat}
    (hdest : dest < cfg.topology.numMembers) (hne : dest ≠ p)
    (s : MeshState ι) (item : ι) :
    ∃ s', s.insertData cfg p dest item = .ok s' ∧
    Moves cfg p cfg.topology.numDimensions s s' [(item, dest)] := by
  rw [MeshState.insertData]
  cases hroute : determineInitialRoute cfg.topology p dest with
  | none => exact absurd ((determineInitialRoute_eq_none_iff hp hdest).mp hroute) hne
  | some r =>
    have hheads := determineRoute_some hp (le_refl _) hroute
    exact storeMessage_moves hp
      (hheads.bound hdest (le_refl _) fun i hi hlt => absurd hlt (not_lt.mpr hi)) hheads.lt
      hheads.destinationPe s item

/-! ### Receiving -/

theorem determineRoute_of_arrived {received dest : Nat} (hp : p < cfg.topology.numMembers)
    (hreceived : received ≤ cfg.topology.numDimensions) (h : Arrived cfg.topology p received dest)
    (hne : dest ≠ p) :
    ∃ r, determineRoute cfg.topology p dest received = some r := by
  refine Option.ne_none_iff_exists'.mp fun hnone => hne (eq_of_coord h.dest_lt hp fun i hi => ?_)
  obtain hlt | hge := lt_or_ge i received
  · exact (determineRoute_eq_none_iff hp hreceived).mp hnone i hlt
  · exact h.behind i hge hi

theorem receiveLoop_moves {received : Nat} (hp : p < cfg.topology.numMembers)
    (hreceived : received ≤ cfg.topology.numDimensions)
    {entries : List (ι × Nat)} (hentries : ∀ e ∈ entries, Arrived cfg.topology p received e.2)
    {last : Option Nat}
    {route : Option Route}
    (hroute : ∀ d, last = some d → d ≠ p → route = determineRoute cfg.topology p d received)
    (s : MeshState ι) (delivered : List ι) :
    ∃ s', MeshState.receiveLoop cfg p received entries last route s delivered =
        .ok (s', delivered ++ (entries.filter fun e => e.2 = p).map Prod.fst) ∧
      Moves cfg p received s s' (entries.filter fun e => e.2 ≠ p) := by
  induction entries generalizing last route s delivered with
  | nil =>
    rw [filter_nil, map_nil, append_nil]
    exact ⟨s, rfl, .refl⟩
  | cons e entries ih =>
    obtain ⟨item, dest⟩ := e
    obtain ⟨harrived, hentries⟩ := forall_mem_cons.mp hentries
    rw [MeshState.receiveLoop]
    by_cases hdest : dest = p
    · have hkept :
        ∀ d, some dest = some d → d ≠ p → route = determineRoute cfg.topology p d received :=
        fun d hd hne => absurd ((Option.some.inj hd).symm.trans hdest) hne
      obtain ⟨s', hloop, hmoves⟩ := ih hentries hkept s (delivered ++ [item])
      rw [hloop]
      refine ⟨s', ?_, ?_⟩
      · simp [hdest]
      · simpa [hdest] using hmoves
    · have hnext :
        (if some dest ≠ last then determineRoute cfg.topology p dest received else route) =
          determineRoute cfg.topology p dest received := by
        split
        · rfl
        · next heq => exact hroute dest (not_not.mp heq).symm hdest
      obtain ⟨r, hr⟩ := determineRoute_of_arrived hp hreceived harrived hdest
      have hheads := determineRoute_some hp hreceived hr
      obtain ⟨s1, hstore, hmoves1⟩ := storeMessage_moves hp
        (hheads.bound harrived.dest_lt hreceived harrived.behind) hheads.lt
          hheads.destinationPe s item
      have hlast :
        ∀ d, some dest = some d → d ≠ p → some r = determineRoute cfg.topology p d received := by
        rintro d ⟨⟩ -
        exact hr.symm
      obtain ⟨s', hloop, hmoves⟩ := ih hentries hlast s1 delivered
      rw [hnext, hr]
      dsimp only
      rw [hstore]
      dsimp only
      rw [hloop]
      refine ⟨s', ?_, ?_⟩
      · simp [hdest]
      · simpa [hdest] using hmoves1.trans hmoves

theorem receiveAlongRoute_moves {msg : Message ι} (hp : p < cfg.topology.numMembers)
    (hreceived : msg.msgType ≤ cfg.topology.numDimensions)
    (hentries : ∀ e ∈ msg.entries, Arrived cfg.topology p msg.msgType e.2)
    (s : MeshState ι) :
    ∃ s', s.receiveAlongRoute cfg p msg =
    .ok (s', (msg.entries.filter fun e => e.2 = p).map Prod.fst) ∧
      Moves cfg p msg.msgType s s' (msg.entries.filter fun e => e.2 ≠ p) := by
  obtain ⟨s', hloop, hmoves⟩ := receiveLoop_moves hp hreceived hentries
    (fun d hd _ => absurd hd.symm (Option.some_ne_none d)) s []
  exact ⟨s', hloop, hmoves⟩

end CharmRuntime.Streamer
