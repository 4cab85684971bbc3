import CharmRuntime.Converse.ReduceSound

/-!
# Converse.ReduceBound

The bound on the children of one processor is needed. Below a root with more than
`maxChildren` leaves let all leaves send before the root calls. The root gathers their data
and adds slots in fours; the number of slots after `maxChildren` of them is no `short int`
any more, the structure is not made larger, and the next message is written behind its end.
-/

namespace CharmRuntime.Converse

open Lib Function List

variable {n : Nat} {δ : Type}

theorem handle_full {t : ReduceTable δ} {red : CmiReduction δ} {msg : ReduceMsg δ} {ds : List δ}
    (h : t.info (reduceIndex msg.redID) = some red) (hg : Gathering red msg.redID ds ds.length)
    (hmax : toShort ((ds.length : Int) + 4) ≤ ds.length) :
    handleReductionMessage msg t = .error .overrun := by
  have hn : 0 ≤ red.numChildren := by
    rw [hg.numChildren]
    exact Int.natCast_nonneg _
  have hstored : (t.store red).info (reduceIndex msg.redID) = some red :=
    info_store_self (by rw [hg.seqID])
  have hsame : getReductionCreate msg.redID (toShort (red.numChildren + 4)) (t.store red) =
      .ok red := by
    unfold getReductionCreate
    rw [hstored]
    dsimp only
    rw [if_neg (not_not.mpr hg.seqID), hg.numChildren, if_neg (by omega)]
  have hpush : red.pushRemote msg.data = .error .overrun := by
    unfold CmiReduction.pushRemote
    rw [hg.received, hg.cells, length_slotsOf (le_refl _), if_neg (by omega)]
  unfold handleReductionMessage
  rw [getReduction_some h hg.seqID hn]
  simp only [bind, Except.bind, hg.received, hg.numChildren, if_true] at hsame ⊢
  rw [hsame]
  dsimp only
  rw [hpush]

/-- The first `k` leaves have called reduction `0` and have sent. -/
structure LeavesSent (k : Nat) (w : ReduceWorld (n + 1) δ) : Prop where
  empty : ∀ p, (w.pe p).info 0 = none
  net : w.net.length = k
  toRoot : ∀ m ∈ w.net, m.1 = 0 ∧ m.2.redID = 0
  calls : ∀ r, w.current 0 = some r → r.id = 0 ∧ ∀ p : Fin (n + 1), k < p.val → r.calls p = none

/-- The root has received `k` of the messages of its leaves. -/
structure RootGathers (k : Nat) (w : ReduceWorld (n + 1) δ) : Prop where
  net : w.net.length + k = n
  toRoot : ∀ m ∈ w.net, m.1 = 0 ∧ m.2.redID = 0
  entry : ∃ red ds, (w.pe 0).info 0 = some red ∧ Gathering red 0 ds (4 * ((k + 3) / 4)) ∧
    ds.length = k

variable {k : Nat} {w : ReduceWorld (n + 1) δ}

theorem LeavesSent.round (h : LeavesSent k w) :
    (w.round 0).id = 0 ∧ ∀ p : Fin (n + 1), k < p.val → (w.round 0).calls p = none := by
  unfold ReduceWorld.round
  cases hcur : w.current (reduceIndex 0) with
  | none => exact ⟨rfl, fun _ _ => rfl⟩
  | some r => exact h.calls r hcur

/-- One more leaf of the star sends its part. -/
theorem LeavesSent.step (h : LeavesSent k w) (hk : k < n) (a : ReduceArgs δ) :
    ∃ e w', w.Allowed e ∧ w.next (.star n) e = .ok w' ∧ LeavesSent (k + 1) w' := by
  let p : Fin (n + 1) := ⟨k + 1, by omega⟩
  have hspan : numSpanTreeChildren (.star n) p = 0 := by
    rfl
  have hempty : (w.pe p).info (reduceIndex 0) = none := h.empty p
  obtain ⟨red, hred, hg⟩ := create_none hempty (le_refl 0)
  have hsend :=
    (contribute_spec (t := w.pe p) hg 0 (a.localPart (spanTreeParent (.star n) p))).resolve_right
    fun hne => hne.1 rfl
  have hres : reduceID 0 (spanTreeParent (.star n) p) a 0 (w.pe p) = .ok ((w.pe p).clearReduction 0,
        some ((a.localPart (spanTreeParent (.star n) p)).output 0 [])) := by
    rw [← hsend.2]
    unfold reduceID globalReduce
    rw [show toShort (0 : Nat) = 0 from rfl, hred]
    rfl
  have hout : (a.localPart (spanTreeParent (.star n) p)).output 0 [] =
      .send ((0 : Fin (n + 1)).val) { redID := 0, size := a.size, data := a.data } := by
    rfl
  obtain ⟨hid, hcalls⟩ := h.round
  have hnext :
    w.next (.star n) (.reduceID p a 0) = (w.noteCall p a 0).emit p ((w.pe p).clearReduction 0,
        some (.send ((0 : Fin (n + 1)).val) { redID := 0, size := a.size, data := a.data })) := by
    unfold ReduceWorld.next
    dsimp only
    rw [hspan, show (0 : UInt16).toNat = 0 from rfl, hres, hout]
  unfold ReduceWorld.emit at hnext
  dsimp only at hnext
  rw [peOf_val] at hnext
  have hallowed : w.Allowed (.reduceID p a 0) := fun r hr =>
    ⟨(h.calls r hr).1, (h.calls r hr).2 p (Nat.lt_succ_self k)⟩
  refine ⟨_, _, hallowed, hnext, fun q => ?_, ?_, fun m hm => ?_, fun r hr => ?_⟩
  · by_cases hq : q = p
    · rw [hq]
      show (update w.pe p _ p).info 0 = none
      rw [update_self]
      exact info_clear_self rfl
    · show (update w.pe p _ q).info 0 = none
      rw [update_of_ne hq]
      exact h.empty q
  · show (w.net ++ [_]).length = k + 1
    rw [length_append, h.net, length_singleton]
  · cases mem_append.mp hm with
    | inl hm => exact h.toRoot m hm
    | inr hm =>
      rw [mem_singleton.mp hm]
      exact ⟨rfl, rfl⟩
  · obtain rfl : ((w.round 0).call p a).send p = r := Option.some.inj hr
    refine ⟨hid, fun q hq => ?_⟩
    have hqp : q ≠ p := fun heq => absurd hq (by rw [heq]; exact lt_irrefl _)
    show update (w.round 0).calls p (some a) q = none
    rw [update_of_ne hqp]
    exact hcalls q (Nat.lt_of_succ_lt hq)

theorem leaves_reachable (a : ReduceArgs δ) : ∀ k, k ≤ n →
      ∃ w : ReduceWorld (n + 1) δ, (reduceSystem (.star n)).Reachable w ∧ LeavesSent k w
  | 0, _ => ⟨.initial, .init rfl, fun _ => rfl, rfl, by simp [ReduceWorld.initial],
      by simp [ReduceWorld.initial]⟩
  | k + 1, hk => by
      obtain ⟨w, hw, h⟩ := leaves_reachable a k (by omega)
      obtain ⟨e, w', he, hw', h'⟩ := h.step hk a
      exact ⟨w', hw.step ⟨he, hw'⟩, h'⟩

theorem arrive_hold (hpos : 0 < w.net.length)
    (htoRoot : ∀ m ∈ w.net, m.1 = 0 ∧ m.2.redID = 0) {red : ReduceMsg δ → CmiReduction δ}
    (hkeep : ∀ msg : ReduceMsg δ, msg.redID = 0 →
      handleReductionMessage msg (w.pe 0) = .ok ((w.pe 0).store (red msg), none)) :
    ∃ e w' msg, w.Allowed e ∧ w.next (.star n) e = .ok w' ∧ w'.net.length + 1 = w.net.length ∧
      (∀ m ∈ w'.net, m.1 = 0 ∧ m.2.redID = 0) ∧ msg.redID = 0 ∧
      w'.pe 0 = (w.pe 0).store (red msg) := by
  have hmem := htoRoot w.net[0] (getElem_mem hpos)
  have hfirst : w.net[0]? = some w.net[0] := getElem?_eq_getElem hpos
  generalize w.net[0] = m at hmem hfirst
  obtain ⟨q, msg⟩ := m
  obtain ⟨rfl, hid⟩ := hmem
  have hnext : w.next (.star n) (.arrive 0) = .ok { w with
      net := w.net.eraseIdx 0
      pe := update w.pe 0 ((w.pe 0).store (red msg)) } := by
    unfold ReduceWorld.next
    dsimp only
    rw [hfirst]
    dsimp only
    rw [hkeep msg hid]
    rfl
  refine ⟨.arrive 0, _, msg, hpos, hnext, ?_, fun m hm => ?_, hid, ?_⟩
  · show (w.net.eraseIdx 0).length + 1 = w.net.length
    rw [length_eraseIdx_of_lt hpos]
    omega
  · exact htoRoot m (mem_of_mem_eraseIdx hm)
  · exact update_self 0 ((w.pe 0).store (red msg)) w.pe

theorem LeavesSent.arrive (h : LeavesSent n w) (hn : 0 < n) :
    ∃ e w', w.Allowed e ∧ w.next (.star n) e = .ok w' ∧ RootGathers 1 w' := by
  have hkeep : ∀ msg : ReduceMsg δ, ∃ red, msg.redID = 0 →
      handleReductionMessage msg (w.pe 0) = .ok ((w.pe 0).store red, none) ∧
        Gathering red 0 [msg.data] 4 := by
    intro msg
    by_cases hid : msg.redID = 0
    · obtain ⟨red, hred⟩ := handle_none hid (h.empty 0)
      exact ⟨red, fun _ => hred⟩
    · exact ⟨⟨0, 0, 0, none, []⟩, fun h => absurd h hid⟩
  choose red hred using hkeep
  obtain ⟨e, w', msg, he, hw', hlen, hto, hid, htable⟩ :=
    arrive_hold (by rw [h.net]; exact hn) h.toRoot fun msg hid => (hred msg hid).1
  refine ⟨e, w', he, hw', ?_, hto, red msg, [msg.data], ?_, (hred msg hid).2, rfl⟩
  · rw [hlen, h.net]
  · rw [htable]
    exact info_store_self (by rw [(hred msg hid).2.seqID]; rfl)

theorem RootGathers.step (h : RootGathers k w) (hk : k < n) (hmax : k + 4 ≤ maxShort) :
    ∃ e w', w.Allowed e ∧ w.next (.star n) e = .ok w' ∧ RootGathers (k + 1) w' := by
  obtain ⟨red0, ds, hinfo, hg, hlen⟩ := h.entry
  have hslots : slotsAfter ds.length (4 * ((k + 3) / 4)) = 4 * ((k + 1 + 3) / 4) := by
    unfold slotsAfter
    split
    · omega
    · omega
  have hkeep : ∀ msg : ReduceMsg δ, ∃ red, msg.redID = 0 →
      handleReductionMessage msg (w.pe 0) = .ok ((w.pe 0).store red, none) ∧
        Gathering red 0 (ds ++ [msg.data]) (4 * ((k + 1 + 3) / 4)) := by
    intro msg
    by_cases hid : msg.redID = 0
    · obtain ⟨red, hred⟩ := handle_gathering hid hinfo hg (by rw [hlen]; exact hmax)
      rw [hslots] at hred
      exact ⟨red, fun _ => hred⟩
    · exact ⟨⟨0, 0, 0, none, []⟩, fun h => absurd h hid⟩
  choose red hred using hkeep
  have hnet := h.net
  obtain ⟨e, w', msg, he, hw', hlen', hto, hid, htable⟩ :=
    arrive_hold (by omega) h.toRoot fun msg hid => (hred msg hid).1
  refine ⟨e, w', he, hw', by omega, hto, red msg, ds ++ [msg.data], ?_, (hred msg hid).2, ?_⟩
  · rw [htable]
    exact info_store_self (by rw [(hred msg hid).2.seqID]; rfl)
  · rw [length_append, hlen, length_singleton]

/-- The root may gather up to `maxChildren` messages. -/
theorem gathers_reachable (a : ReduceArgs δ) : ∀ k, k < n → k < maxChildren →
      ∃ w : ReduceWorld (n + 1) δ, (reduceSystem (.star n)).Reachable w ∧ RootGathers (k + 1) w
  | 0, hk, _ => by
      obtain ⟨w, hw, h⟩ := leaves_reachable a n (le_refl n)
      obtain ⟨e, w', he, hw', h'⟩ := h.arrive hk
      exact ⟨w', hw.step ⟨he, hw'⟩, h'⟩
  | k + 1, hk, hmax => by
      obtain ⟨w, hw, h⟩ := gathers_reachable a k (by omega) (by omega)
      unfold maxChildren at hmax
      obtain ⟨e, w', he, hw', h'⟩ := h.step hk (by unfold maxShort; omega)
      exact ⟨w', hw.step ⟨he, hw'⟩, h'⟩

/-- **Beyond the bound**: with more children a write is outside the slots. -/
theorem star_overrun (hn : maxChildren < n) (a : ReduceArgs δ) :
    ∃ (w : ReduceWorld (n + 1) δ) (e : _), (reduceSystem (.star n)).Reachable w ∧ w.Allowed e ∧
      w.next (.star n) e = .error .overrun := by
  obtain ⟨w, hw, h⟩ := gathers_reachable (n := n) a (maxChildren - 1)
    (by omega) (by unfold maxChildren; omega)
  have hpos : 0 < w.net.length := by
    have hnet := h.net
    unfold maxChildren at hn hnet
    omega
  refine ⟨w, .arrive 0, hw, hpos, ?_⟩
  obtain ⟨red, ds, hinfo, hg, hlen⟩ := h.entry
  have hmem := h.toRoot w.net[0] (getElem_mem hpos)
  have hfirst : w.net[0]? = some w.net[0] := getElem?_eq_getElem hpos
  generalize w.net[0] = m at hmem hfirst
  obtain ⟨q, msg⟩ := m
  obtain ⟨rfl, hid⟩ := hmem
  have hslots : 4 * ((maxChildren - 1 + 1 + 3) / 4) = ds.length := hlen.symm
  rw [hslots, ← hid] at hg
  have herror : handleReductionMessage msg (w.pe 0) = .error .overrun := by
    refine handle_full (by rw [hid]; exact hinfo) hg ?_
    rw [hlen]
    decide
  unfold ReduceWorld.next
  dsimp only
  rw [hfirst]
  dsimp only
  rw [herror]

/-- The smallest tree beyond the bound. -/
theorem star_32765_overrun :
    ¬ ∀ w : ReduceWorld 32766 Unit, (reduceSystem (.star 32765)).Reachable w →
      ∀ e, w.Allowed e → ∃ w', w.next (.star 32765) e = .ok w' := by
  intro hall
  obtain ⟨w, e, hw, he, herror⟩ := star_overrun (n := 32765) (by decide)
    ⟨(), 0, 0, fun size d _ => (size, d), none⟩
  obtain ⟨w', hw'⟩ := hall w hw e he
  rw [herror] at hw'
  exact absurd hw' (by simp)

end CharmRuntime.Converse
