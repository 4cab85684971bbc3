import Mathlib.Data.Fintype.Basic
import Mathlib.Tactic.Abel
import CharmRuntime.Lib.Sum
import CharmRuntime.Location.LocMgrSteps

/-!
# Location.LocMgrMessages

**Messages to an element that migrates are neither lost nor doubled, and the element exists once**
(`one_place`), in every run.

The messages on their way, in the buffers and executed are counted together (`World.total`). A
delivery adds its message to them, whatever record it meets (`gains_deliver`); a record that is
replaced takes its buffer out of them, and the deliveries of its messages put them back
(`gains_insertRec`).
-/

namespace CharmRuntime.Location

open Lib World Multiset

variable {P M : Type}

/-! ## Where the messages are -/

/-- The message for the element in a packet. -/
def Packet.message : P × Packet P M → Option M
  | (_, .deliver msg) => some msg.id
  | _ => none

/-- The messages on their way to a PE, or in its queue. -/
def World.inFlight (w : World P M) : List M := w.net.filterMap Packet.message

def LocRec.held : Option (LocRec P M) → List M
  | some r => r.buffered
  | none => []

/-- The messages in the buffer of a PE. -/
def World.buffered (w : World P M) (p : P) : List M := LocRec.held (w.mgr p).record

variable [Fintype P]

/-- All messages, wherever they are. -/
def World.total (w : World P M) : Multiset M :=
  (w.inFlight : Multiset M) + ∑ p, (w.buffered p : Multiset M) + (w.executed : Multiset M)

/-- `w'` has the messages of `w` and these. -/
structure Gains (w w' : World P M) (ms : Multiset M) : Prop where
  total : w'.total = w.total + ms
  sent : w'.sent = w.sent

namespace Gains

variable {w w' w'' : World P M} {ms ms' : Multiset M}

theorem refl (w : World P M) : Gains w w 0 := ⟨(add_zero _).symm, rfl⟩

theorem trans (h : Gains w w' ms) (h' : Gains w' w'' ms') : Gains w w'' (ms + ms') where
  total := by rw [h'.total, h.total, add_assoc]
  sent := h'.sent.trans h.sent

theorem back (h : Gains w' w ms) (h' : Gains w' w'' (ms + ms')) : Gains w w'' ms' where
  total := by rw [h'.total, h.total, add_assoc]
  sent := h'.sent.trans h.sent.symm

end Gains

variable [DecidableEq P] {home : P} {w w' : World P M}

omit [DecidableEq P] in
theorem gains_post_deliver (w : World P M) (p : P) (msg : ArrayMessage P M) :
    Gains w (w.post p (.deliver msg)) {msg.id} where
  total := by
    have hflight : (w.post p (.deliver msg)).inFlight = w.inFlight ++ [msg.id] := by
      simp [World.inFlight, World.post, Packet.message]
    rw [World.total, hflight, ← coe_add]
    show _ + ({msg.id} : Multiset M) + _ + _ = (w.inFlight : Multiset M) + _ + _ + _
    abel
  sent := rfl

omit [DecidableEq P] in
theorem gains_post (w : World P M) (p : P) (packet : Packet P M)
    (hpacket : Packet.message (p, packet) = none) :
    Gains w (w.post p packet) 0 where
  total := by
    have hflight : (w.post p packet).inFlight = w.inFlight := by
      simp [World.inFlight, World.post, hpacket]
    rw [World.total, hflight, add_zero]
    rfl
  sent := rfl

omit [Fintype P] in
theorem buffered_setRecord (w : World P M) (me : P) (r : Option (LocRec P M)) :
    (fun p => ((w.setRecord me r).buffered p : Multiset M)) =
      Function.update (fun p => (w.buffered p : Multiset M)) me (LocRec.held r : Multiset M) := by
  funext p
  by_cases hp : p = me
  · subst hp
    simp [World.buffered, setRecord]
  · simp [World.buffered, setRecord, hp]

variable {r : Option (LocRec P M)} {me : P}

/-- **A record is taken away**, with its messages. -/
theorem gains_setRecord_nil (w : World P M) (me : P) (hr : LocRec.held r = []) :
    Gains (w.setRecord me r) w (w.buffered me) where
  total := by
    have hsum := add_sum_update_zero (fun p => (w.buffered p : Multiset M)) me
    have hbuffered := buffered_setRecord w me r
    rw [hr] at hbuffered
    rw [total, total, hbuffered, ← hsum]
    show _ + ((w.buffered me : Multiset M) + _) + _ = w.inFlight + ∑ p,
      Function.update _ me 0 p + _ + _
    abel
  sent := rfl

theorem gains_setRecord_snoc (w : World P M) (me : P) {id : M}
    (hr : LocRec.held r = w.buffered me ++ [id]) : Gains w (w.setRecord me r) {id} where
  total := by
    have hsum := sum_update_add (fun p => (w.buffered p : Multiset M)) me {id}
    have hheld : (LocRec.held r : Multiset M) = {id} + (w.buffered me) := by
      rw [hr, add_comm]
      rfl
    have hbuffered := buffered_setRecord w me r
    rw [hheld] at hbuffered
    rw [total, total, hbuffered, hsum]
    show (w.inFlight : Multiset M) + _ + _ = _
    abel
  sent := rfl

/-! ## Deliveries -/

theorem gains_setRecord_same (w : World P M) (me : P) (hr : LocRec.held r = [])
    (hold : w.buffered me = []) : Gains w (w.setRecord me r) 0 := by
  have hback := gains_setRecord_nil w me hr
  rw [hold] at hback
  exact hback.back (.refl _)

omit [DecidableEq P] in
theorem gains_execute (w : World P M) (id : M) :
    Gains w { w with executed := w.executed ++ [id] } {id} where
  total := by
    rw [World.total, ← coe_add, ← add_assoc]
    rfl
  sent := rfl

/-- **A delivery adds its message**, whatever record it meets. -/
theorem gains_deliver (home : P) (w : World P M) (me : P) (msg : ArrayMessage P M)
    (type : CkDeliver) :
    Gains w (w.deliver home me msg type) {msg.id} := by
  have hheld : w.buffered me = LocRec.held (w.mgr me).record := rfl
  unfold deliver
  split
  next hrec =>
    cases type with
    | queue => exact gains_post_deliver w me msg
    | inline =>
      have hmulti : Gains w (if msg.hops > 1 then w.multiHop me msg else w) 0 := by
        split
        next =>
          unfold multiHop
          split
          next => exact .refl w
          next => exact gains_post w _ _ rfl
        next => exact .refl w
      have hexecuted := hmulti.trans (gains_execute _ msg.id)
      rwa [zero_add] at hexecuted
  next onPe lastAccess stay hrec =>
    have hnil : w.buffered me = [] := by rw [hheld, hrec]; rfl
    have hset :=
      gains_setRecord_same w me (r := some (.remoteRec onPe (w.mgr me).nSprings stay)) rfl hnil
    have hpost := hset.trans (gains_post_deliver _ onPe { msg with hops := msg.hops + 1 })
    rwa [zero_add] at hpost
  next buffer lastAccess hrec =>
    refine gains_setRecord_snoc w me ?_
    rw [hheld, hrec]
    simp [LocRec.held, LocRec.buffered]
  next hrec =>
    unfold deliverUnknown
    split
    next => exact gains_post_deliver w home { msg with hops := msg.hops + 1 }
    next =>
      refine gains_setRecord_snoc w me ?_
      rw [hheld, hrec]
      simp [LocRec.held, LocRec.buffered]

theorem gains_foldl (home : P) (w : World P M) (me : P) (buffer : List (ArrayMessage P M)) :
    Gains w (buffer.foldl (fun w msg => w.deliver home me msg .queue) w)
      (buffer.map (·.id) : List M) := by
  induction buffer generalizing w with
  | nil => exact .refl w
  | cons msg buffer ih => exact (gains_deliver home w me msg .queue).trans (ih _)

/-- **A record is replaced**: the messages of its buffer stay. -/
theorem gains_insertRec (home : P) (hold : w.route me ≠ .here) {r : LocRec P M}
    (hr : r.buffered = []) :
    Gains w (w.insertRec home me r) 0 := by
  have hheld : w.buffered me = LocRec.held (w.mgr me).record := rfl
  have hout := gains_setRecord_nil w me (r := some r) hr
  unfold insertRec
  split
  next hrec => exact gains_setRecord_same w me hr (by rw [hheld, hrec]; rfl)
  next old hrec =>
    rw [hheld, hrec] at hout
    cases old with
    | localRec => exact absurd (route_eq_here.mpr hrec) hold
    | remoteRec onPe lastAccess stay => exact hout.back (.refl _)
    | bufferingRec buffer lastAccess =>
      have hback := gains_foldl home (w.setRecord me (some r)) me buffer
      have hsame :
        Gains w (buffer.foldl (fun w msg => w.deliver home me msg .queue) (w.setRecord me (some r)))
          0 :=
        hout.back (by rw [add_zero]; exact hback)
      simpa [LocRec.isLocal, beenReplaced, delete] using hsame

/-! ## The other steps -/

theorem gains_inform (home : P) (me nowOnPe : P) (stay : Nat) :
    Gains w (w.inform home me nowOnPe stay) 0 := by
  by_cases hignored : nowOnPe = me ∨ w.route me = .here
  · rw [inform_ignored hignored]
    exact .refl w
  · obtain ⟨hne, hold⟩ := not_or.mp hignored
    unfold inform insertRemote
    rw [if_neg hne, if_neg hne]
    split
    next => exact .refl w
    next => exact gains_insertRec home hold rfl

theorem gains_informHome (home : P) (w : World P M) (me nowOnPe : P) (stay : Nat) :
    Gains w (w.informHome home me nowOnPe stay) 0 := by
  unfold informHome
  split
  next => exact gains_post w home _ rfl
  next => exact .refl w

theorem gains_createLocal (home : P) (hold : w.route me ≠ .here) (stay : Nat) :
    Gains w (w.createLocal home me stay false) 0 := by
  have hset : Gains w (w.setHosted me stay) 0 := by
    refine ⟨?_, rfl⟩
    have hbuffered : (w.setHosted me stay).buffered = w.buffered := by
      funext p
      by_cases hp : p = me
      · subst hp
        simp [buffered, setHosted]
      · simp [buffered, setHosted, hp]
    rw [total, hbuffered, add_zero]
    rfl
  have hrec := hset.trans (gains_insertRec home (by simpa using hold) (r := .localRec) rfl)
  rwa [add_zero] at hrec

theorem gains_addElement (hold : w.route me ≠ .here) : Gains w (w.addElement home me) 0 := by
  unfold addElement
  split
  next hrec => exact absurd (route_eq_here.mpr hrec) hold
  next =>
    have hlocal := (gains_createLocal home hold 1).trans (gains_informHome home _ me me 1)
    exact ⟨hlocal.total, hlocal.sent⟩

theorem gains_emigrate (hrec : (w.mgr me).record = some .localRec) (toPe : P) :
    Gains w (w.emigrate home me toPe) 0 := by
  unfold emigrate
  split
  next => exact .refl w
  next =>
    have hnil : (w.post toPe (.immigrate ((w.mgr me).hosted + 1))).buffered me = [] := by
      show LocRec.held (w.mgr me).record = []
      rw [hrec]
      rfl
    have hpost := gains_post w toPe (.immigrate ((w.mgr me).hosted + 1)) rfl
    have hdelete := hpost.trans (gains_setRecord_same _ me (r := none) rfl hnil)
    have hinform := hdelete.trans (gains_inform home me toPe ((w.mgr me).hosted + 1))
    have hhome := hinform.trans (gains_informHome home _ me toPe ((w.mgr me).hosted + 1))
    exact hhome

theorem gains_springCleaning (w : World P M) (me : P) : Gains w (w.springCleaning home me) 0 := by
  have hspring : Gains w (w.nextSpring me) 0 := by
    refine ⟨?_, rfl⟩
    have hbuffered : (w.nextSpring me).buffered = w.buffered := by
      funext p
      exact congrArg LocRec.held (nextSpring_record w me p)
    rw [total, hbuffered, add_zero]
    rfl
  unfold springCleaning
  simp only
  split
  next rec hrec =>
    cases rec with
    | localRec => exact hspring
    | bufferingRec buffer lastAccess => exact hspring
    | remoteRec onPe lastAccess stay =>
      split
      next =>
        have hnil : (w.nextSpring me).buffered me = [] := by
          show LocRec.held ((w.nextSpring me).mgr me).record = []
          rw [hrec]
          rfl
        have hset := hspring.trans (gains_setRecord_same _ me (r := none) rfl hnil)
        exact hset
      next => exact hspring
  next => exact hspring

omit [DecidableEq P] in
theorem gains_take {k : Nat} {pe : P} {msg : ArrayMessage P M}
    (hnet : w.net[k]? = some (pe, .deliver msg)) :
    Gains (w.take k) w {msg.id} where
  total := by
    obtain ⟨l1, l2, hflight, herase⟩ := filterMap_eraseIdx_some hnet (f := Packet.message)
      (b := msg.id) rfl
    have hold : w.inFlight = l1 ++ msg.id :: l2 := hflight
    have hnew : (w.take k).inFlight = l1 ++ l2 := herase
    have hperm : (w.inFlight : Multiset M) = {msg.id} + ((w.take k).inFlight : Multiset M) := by
      rw [hold, hnew, singleton_add, cons_coe, coe_eq_coe]
      exact List.perm_middle
    rw [World.total, hperm, World.total]
    show _ = (((w.take k).inFlight : Multiset M) + ∑ p, (w.buffered p : Multiset M) +
      (w.executed : Multiset M)) + {msg.id}
    abel
  sent := rfl

omit [DecidableEq P] in
theorem gains_take_none {k : Nat} {x : P × Packet P M} (hnet : w.net[k]? = some x)
    (hx : Packet.message x = none) :
    Gains w (w.take k) 0 where
  total := by
    have hflight : (w.take k).inFlight = w.inFlight := filterMap_eraseIdx_none hnet hx
    rw [World.total, hflight, add_zero]
    rfl
  sent := rfl

/-! ## Whole runs -/

/-- Every message that was sent is in one place. -/
structure Conserved (w : World P M) : Prop where
  total : w.total = (w.sent : Multiset M)
  nodup : w.sent.Nodup

omit [DecidableEq P] in
theorem Conserved.of_gains (h : Conserved w) (hgains : Gains w w' 0) : Conserved w' where
  total := by rw [hgains.total, hgains.sent, add_zero, h.total]
  nodup := hgains.sent.symm ▸ h.nodup

theorem Conserved.step {e : Event P M} (h : Conserved w) (ht : Tracked home (fun _ _ => True) w)
    (hs : Step home w e w') :
    Conserved w' := by
  cases hs with
  | addElement pe _ hcreated =>
    refine h.of_gains (gains_addElement ?_)
    -- before its creation the element is nowhere
    have hunknown :=
      (ht.onePlace.resolve_right fun hold => by simp [routes, hcreated] at hold).2.2.2 pe
    exact fun hhere => by cases hunknown.1.symm.trans hhere
  | send pe id type _ hnew =>
    have hgains :=
      gains_deliver home { w with sent := w.sent ++ [id] } pe { id, srcPe := pe, hops := 0 } type
    refine ⟨?_, ?_⟩
    · rw [hgains.total, hgains.sent]
      exact congrArg (· + {id}) h.total
    · rw [hgains.sent, List.nodup_append]
      refine ⟨h.nodup, nodup_singleton id, fun a ha b hb => ?_⟩
      rw [List.mem_singleton] at hb
      exact fun hab => hnew (hb ▸ hab ▸ ha)
  | deliver k pe msg _ hnet =>
    refine h.of_gains ((gains_take hnet).back ?_)
    exact gains_deliver home (w.take k) pe msg .inline
  | updateLocation k pe nowOnPe stay _ hnet =>
    have hgains := (gains_take_none hnet rfl).trans (gains_inform home pe nowOnPe stay)
    exact h.of_gains (by rwa [add_zero] at hgains)
  | immigrate k pe stay _ hnet =>
    have hpe : (w.take k).route pe ≠ .here := by
      obtain ⟨l1, l2, hmoving, -⟩ := filterMap_eraseIdx_some hnet (f := Packet.element) rfl
      exact (ht.onePlace.placed_of_moving hmoving).2.2.2.1
    have hgains := (gains_take_none hnet rfl).trans (gains_createLocal home hpe stay)
    exact h.of_gains (by rwa [add_zero] at hgains)
  | emigrate pe toPe _ hrec => exact h.of_gains (gains_emigrate hrec toPe)
  | springCleaning pe _ => exact h.of_gains (gains_springCleaning w pe)

omit [DecidableEq P] in
theorem conserved_new : Conserved (World.new : World P M) where
  total := by simp [World.total, World.inFlight, World.buffered, World.new, LocRec.held]
  nodup := List.nodup_nil

theorem tracked_of_reachable (h : (locationSystem P M home).Reachable w) :
    Tracked home (fun _ _ => True) w ∧ Conserved w := by
  refine h.invariant (I := fun w => Tracked home (fun _ _ => True) w ∧ Conserved w)
    (fun w hinit => ?_) fun w e w' hinv hs => ?_
  · subst hinit
    exact ⟨tracked_new _, conserved_new⟩
  · exact ⟨hinv.1.stepTo (fun _ _ _ => trivial) hs fun _ _ _ _ _ _ _ _ => trivial,
      hinv.2.step hinv.1 hs⟩

/-- **The element is in one place and so is every message.** No `CkAbort` is reached, no buffer is
deleted with messages in it; once it was created the element has one local record, or is in one
`immigrate` message; and every message that was sent is on its way once, in one buffer, or was
executed once. -/
theorem one_place [DecidableEq M] (h : (locationSystem P M home).Reachable w) :
    w.aborted = none ∧ w.abandoned = [] ∧
    (w.created = true →
      (∃ p, (∀ q, (w.mgr q).record = some .localRec ↔ q = p) ∧ w.migrating = []) ∨
      ((∀ q, (w.mgr q).record ≠ some .localRec) ∧ ∃ p stay, w.migrating = [(p, stay)])) ∧
    ∀ m, w.inFlight.count m + ∑ p, (w.buffered p).count m + w.executed.count m =
    if m ∈ w.sent then 1 else 0 := by
  obtain ⟨ht, hc⟩ := tracked_of_reachable h
  refine ⟨ht.aborted, ht.abandoned, fun hcreated => ?_, fun m => ?_⟩
  · obtain ⟨p, n, hp⟩ :=
      (ht.onePlace.resolve_left fun hnew => by simp [World.routes, hcreated] at hnew).2
    have helse : ∀ q, q ≠ p → (w.mgr q).record ≠ some .localRec := fun q hq hrec =>
      (hp.elsewhere q hq).1 (route_eq_here.mpr hrec)
    cases hp.place with
    | inl hhere =>
      refine .inl
        ⟨p, fun q => ⟨fun hrec => not_not.mp fun hq => helse q hq hrec, fun hq => ?_⟩, hhere.2.2⟩
      rw [hq]
      exact route_eq_here.mp hhere.1
    | inr hmoving =>
      refine .inr ⟨fun q hrec => ?_, p, n, hmoving.2.2⟩
      by_cases hq : q = p
      · subst hq
        exact hmoving.1 (route_eq_here.mpr hrec)
      · exact helse q hq hrec
  · have hcount := congrArg (count m) hc.total
    rw [total, count_add, count_add, count_sum'] at hcount
    simp only [coe_count] at hcount
    rw [hcount]
    exact hc.nodup.count

/-- A message for an element that is not there waits in the buffer of the home PE 0 until PE 1 has
created it. -/
theorem one_place_late : ∃ w : World (Fin 2) Nat, w.executed = [7] ∧ w.aborted = none ∧
    w.inFlight.count 7 + ∑ p, (w.buffered p).count 7 + w.executed.count 7 = 1 := by
  have h0 : (locationSystem (Fin 2) Nat 0).Reachable new := .init rfl
  have h1 := runsWith_step h0 trivial (Step.send _ 1 7 .queue rfl List.not_mem_nil)
  have h2 := runsWith_step h1 trivial (Step.deliver _ 0 0 (.mk 7 1 1) rfl rfl)
  have h3 := runsWith_step h2 trivial (Step.addElement _ 1 rfl rfl)
  have h4 := runsWith_step h3 trivial (Step.updateLocation _ 0 0 1 1 rfl rfl)
  have h5 := runsWith_step h4 trivial (Step.deliver _ 0 1 (.mk 7 1 2) rfl rfl)
  obtain ⟨haborted, -, -, hcount⟩ := one_place h5
  exact ⟨_, rfl, haborted, hcount 7⟩

end CharmRuntime.Location
