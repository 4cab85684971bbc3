import CharmRuntime.Lib.Forwarding
import CharmRuntime.Location.LocMgr

/-!
# Location.LocMgrSteps

What the code of the location manager does to the **routes**: where a record leads, which
location notices are on their way, and where the element is.

A message that is delivered changes none of them (`Moved`), apart from the notice that a message of
many hops causes; so a record that is replaced, with all the messages that it held, changes the one
route (`moved_insertRec`).
-/

namespace CharmRuntime.Location

open Lib

variable {P M : Type}

/-! ## Views -/

/-- Where a record leads. -/
def LocRec.route : Option (LocRec P M) → Route P
  | some .localRec => .here
  | some (.remoteRec onPe _ stay) => .remote onPe stay
  | _ => .unknown

/-- The notice in a message: its PE, and the location with the number of its stay. -/
def Packet.notice : P × Packet P M → Option (P × P × Nat)
  | (pe, .updateLocation nowOnPe stay) => some (pe, nowOnPe, stay)
  | _ => none

/-- The element in a message. -/
def Packet.element : P × Packet P M → Option (P × Nat)
  | (pe, .immigrate stay) => some (pe, stay)
  | _ => none

namespace World

def route (w : World P M) (p : P) : Route P := LocRec.route (w.mgr p).record

def hosted (w : World P M) (p : P) : Nat := (w.mgr p).hosted

def notices (w : World P M) : List (P × P × Nat) := w.net.filterMap Packet.notice

def migrating (w : World P M) : List (P × Nat) := w.net.filterMap Packet.element

/-- The PE holds messages back. -/
def Buffering (w : World P M) (p : P) :
    Prop := ∃ buffer lastAccess, (w.mgr p).record = some (.bufferingRec buffer lastAccess)

/-- What the managers know of the element. -/
def routes (w : World P M) : Forwarding P where
  route := w.route
  hosted := w.hosted
  moving := w.migrating
  notices := w.notices
  created := w.created

variable {w : World P M} {r : Option (LocRec P M)}

theorem route_eq_here {p : P} : w.route p = .here ↔ (w.mgr p).record = some .localRec := by
  unfold route
  rcases (w.mgr p).record with _ | _ | _ | _ <;> simp [LocRec.route]

variable [DecidableEq P]

@[simp] theorem route_setRecord (w : World P M) (me : P) (r : Option (LocRec P M)) :
    (w.setRecord me r).route = Function.update w.route me (LocRec.route r) := by
  funext p
  by_cases hp : p = me
  · subst hp
    simp [route, setRecord]
  · simp [route, setRecord, hp]

@[simp] theorem hosted_setRecord (w : World P M) (me : P) (r : Option (LocRec P M)) :
    (w.setRecord me r).hosted = w.hosted := by
  funext p
  by_cases hp : p = me
  · subst hp
    simp [hosted, setRecord]
  · simp [hosted, setRecord, hp]

theorem routes_setRecord (w : World P M) (me : P) (r : Option (LocRec P M)) :
    (w.setRecord me r).routes =
    { w.routes with route := Function.update w.routes.route me (LocRec.route r) } := by
  rw [routes, route_setRecord, hosted_setRecord]
  rfl

@[simp] theorem route_setHosted (w : World P M) (me : P) (stay : Nat) :
    (w.setHosted me stay).route = w.route := by
  funext p
  by_cases hp : p = me
  · subst hp
    simp [route, setHosted]
  · simp [route, setHosted, hp]

@[simp] theorem hosted_setHosted (w : World P M) (me : P) (stay : Nat) :
    (w.setHosted me stay).hosted = Function.update w.hosted me stay := by
  funext p
  by_cases hp : p = me
  · subst hp
    simp [hosted, setHosted]
  · simp [hosted, setHosted, hp]

theorem buffering_setRecord {me p : P} (h : (w.setRecord me r).Buffering p) :
    w.Buffering p ∨ p = me ∧ ∃ buffer lastAccess, r = some (.bufferingRec buffer lastAccess) := by
  obtain ⟨buffer, lastAccess, h⟩ := h
  by_cases hp : p = me
  · subst hp
    exact .inr ⟨rfl, buffer, lastAccess, by simpa [setRecord] using h⟩
  · exact .inl ⟨buffer, lastAccess, by simpa [setRecord, hp] using h⟩

theorem buffering_of_setRecord {me p : P}
    (hr : ∀ buffer lastAccess, r ≠ some (.bufferingRec buffer lastAccess))
    (h : (w.setRecord me r).Buffering p) :
    w.Buffering p := by
  refine (buffering_setRecord h).resolve_right fun hnew => ?_
  obtain ⟨-, buffer, lastAccess, heq⟩ := hnew
  exact hr buffer lastAccess heq

end World

/-! ## Messages that are delivered -/

open World

/-- Nothing but messages for the element has moved from `w` to `w'`. -/
structure Moved (home : P) (w w' : World P M) : Prop where
  route : w'.route = w.route
  hosted : w'.hosted = w.hosted
  migrating : w'.migrating = w.migrating
  notices : w'.notices = w.notices
  buffering : ∀ p, w'.Buffering p → w.Buffering p ∨ p = home
  created : w'.created = w.created
  aborted : w'.aborted = w.aborted
  abandoned : w'.abandoned = w.abandoned
  sent : w'.sent = w.sent

namespace Moved

variable {home : P} {w w' w'' : World P M}

theorem refl (home : P) (w : World P M) : Moved home w w where
  route := rfl
  hosted := rfl
  migrating := rfl
  notices := rfl
  buffering _ hb := .inl hb
  created := rfl
  aborted := rfl
  abandoned := rfl
  sent := rfl

theorem trans (h : Moved home w w') (h' : Moved home w' w'') : Moved home w w'' where
  route := h'.route.trans h.route
  hosted := h'.hosted.trans h.hosted
  migrating := h'.migrating.trans h.migrating
  notices := h'.notices.trans h.notices
  buffering p hb := by
    cases h'.buffering p hb with
    | inl hold => exact h.buffering p hold
    | inr hhome => exact .inr hhome
  created := h'.created.trans h.created
  aborted := h'.aborted.trans h.aborted
  abandoned := h'.abandoned.trans h.abandoned
  sent := h'.sent.trans h.sent

end Moved

variable [DecidableEq P] {home : P}

omit [DecidableEq P] in
theorem moved_post (w : World P M) (p : P) (msg : ArrayMessage P M) :
    Moved home w (w.post p (.deliver msg)) where
  route := rfl
  hosted := rfl
  migrating := by simp [post, migrating, Packet.element]
  notices := by simp [post, World.notices, Packet.notice]
  buffering _ hb := .inl hb
  created := rfl
  aborted := rfl
  abandoned := rfl
  sent := rfl

variable {w : World P M} {me nowOnPe : P} {k : Nat} {pe : P} {stay : Nat} {e : Event P M}

theorem moved_setRecord {r : Option (LocRec P M)} (hroute : LocRec.route r = w.route me)
    (hbuffering : ∀ buffer lastAccess, r = some (.bufferingRec buffer lastAccess) → w.Buffering me ∨
      me = home) :
    Moved home w (w.setRecord me r) where
  route := by rw [route_setRecord, hroute, Function.update_eq_self]
  hosted := hosted_setRecord w me r
  migrating := rfl
  notices := rfl
  buffering p hb := by
    cases buffering_setRecord hb with
    | inl hold => exact .inl hold
    | inr hnew =>
      obtain ⟨rfl, buffer, lastAccess, hr⟩ := hnew
      exact hbuffering buffer lastAccess hr
  created := rfl
  aborted := rfl
  abandoned := rfl
  sent := rfl

theorem moved_deliver_of_ne (hne : w.route me ≠ .here) (msg : ArrayMessage P M) (type : CkDeliver) :
    Moved home w (w.deliver home me msg type) := by
  have hroute : w.route me = LocRec.route (w.mgr me).record := rfl
  unfold deliver
  split
  next hrec => exact absurd (route_eq_here.mpr hrec) hne
  next onPe lastAccess stay hrec =>
    refine (moved_setRecord ?_ fun _ _ hr => by cases hr).trans (moved_post _ onPe _)
    rw [hroute, hrec]
    rfl
  next buffer lastAccess hrec =>
    refine moved_setRecord ?_ fun _ _ _ => .inl ⟨buffer, lastAccess, hrec⟩
    rw [hroute, hrec]
    rfl
  next hrec =>
    unfold deliverUnknown
    split
    next => exact moved_post w home _
    next hhome =>
      refine moved_setRecord ?_ fun _ _ _ => .inr (not_not.mp hhome).symm
      rw [hroute, hrec]
      rfl

theorem moved_deliver_queue (w : World P M) (me : P) (msg : ArrayMessage P M) :
    Moved home w (w.deliver home me msg .queue) := by
  by_cases hhere : w.route me = .here
  · rw [deliver, route_eq_here.mp hhere]
    exact moved_post w me msg
  · exact moved_deliver_of_ne hhere msg .queue

omit [DecidableEq P] in
theorem moved_execute (w : World P M) (id : M) :
    Moved home w { w with executed := w.executed ++ [id] } :=
  ⟨rfl, rfl, rfl, rfl, fun _ hb => .inl hb, rfl, rfl, rfl, rfl⟩

theorem moved_deliver (home : P) (w : World P M) (me : P) (msg : ArrayMessage P M)
    (type : CkDeliver) :
    Moved home w (w.deliver home me msg type) ∨
      w.route me = .here ∧ Moved home (w.post msg.srcPe (.updateLocation me (w.hosted me)))
        (w.deliver home me msg type) := by
  by_cases hhere : w.route me = .here
  · cases type with
    | queue => exact .inl (moved_deliver_queue w me msg)
    | inline =>
      rw [deliver, route_eq_here.mp hhere]
      by_cases hmulti : msg.hops > 1 ∧ msg.srcPe ≠ me
      · refine .inr ⟨hhere, ?_⟩
        simp only [hmulti.1, multiHop, hmulti.2]
        exact moved_execute _ msg.id
      · have hsame : (if msg.hops > 1 then w.multiHop me msg else w) = w := by
          by_cases hhops : msg.hops > 1
          · have hself : msg.srcPe = me := not_not.mp fun hne => hmulti ⟨hhops, hne⟩
            simp [multiHop, hself]
          · simp [hhops]
        simp only [hsame]
        exact .inl (moved_execute w msg.id)
  · exact .inl (moved_deliver_of_ne hhere msg type)

theorem moved_foldl (home : P) (w : World P M) (me : P) (buffer : List (ArrayMessage P M)) :
    Moved home w (buffer.foldl (fun w msg => w.deliver home me msg .queue) w) := by
  induction buffer generalizing w with
  | nil => exact .refl home w
  | cons msg buffer ih => exact (moved_deliver_queue w me msg).trans (ih _)

/-! ## Records that are replaced -/

/-- **A record is replaced**: the messages that the old one held go on. -/
theorem moved_insertRec (home : P) (hold : w.route me ≠ .here) (r : LocRec P M) :
    Moved home (w.setRecord me (some r)) (w.insertRec home me r) := by
  unfold insertRec
  split
  next => exact .refl home _
  next old hrec =>
    cases old with
    | localRec => exact absurd (route_eq_here.mpr hrec) hold
    | remoteRec onPe lastAccess stay => exact .refl home _
    | bufferingRec buffer lastAccess =>
      have hmoved := moved_foldl home (w.setRecord me (some r)) me buffer
      simpa [LocRec.isLocal, beenReplaced, delete] using hmoved

theorem inform_ignored (h : nowOnPe = me ∨ w.route me = .here) (stay : Nat) :
    w.inform home me nowOnPe stay = w := by
  unfold inform
  cases h with
  | inl hself => rw [if_pos hself]
  | inr hhere =>
    rw [route_eq_here.mp hhere]
    exact ite_self w

/-- **A manager is informed.** -/
theorem moved_inform (home : P) (hne : nowOnPe ≠ me) (hold : w.route me ≠ .here) (stay : Nat) :
    Moved home (w.setRecord me (some (.remoteRec nowOnPe (w.mgr me).nSprings stay)))
      (w.inform home me nowOnPe stay) := by
  have hinsert := moved_insertRec home hold (.remoteRec nowOnPe (w.mgr me).nSprings stay)
  unfold inform insertRemote
  rw [if_neg hne, if_neg hne]
  split
  next hrec => exact absurd (route_eq_here.mpr hrec) hold
  next => exact hinsert

/-! ## Steps of the routes -/

/-- The managers have come to know of the element by such steps; nothing went wrong, and only the
home PE holds messages back. -/
structure Tracked (home : P) (ok : Forwarding P → Forwarding.Move P → Prop) (w : World P M) :
    Prop where
  routes : (Forwarding.system home).RunsWith ok w.routes
  aborted : w.aborted = none
  abandoned : w.abandoned = []
  buffering : ∀ p, w.Buffering p → p = home

variable {ok : Forwarding P → Forwarding.Move P → Prop} {w w' : World P M}

omit [DecidableEq P] in
theorem Moved.routes (h : Moved home w w') : w'.routes = w.routes := by
  rw [World.routes, World.routes, h.route, h.hosted, h.migrating, h.notices, h.created]

theorem Moved.tracked (h : Moved home w w') (ht : Tracked home ok w) : Tracked home ok w' where
  routes := h.routes ▸ ht.routes
  aborted := h.aborted.trans ht.aborted
  abandoned := h.abandoned.trans ht.abandoned
  buffering p hb := (h.buffering p hb).elim (ht.buffering p) id

theorem tracked_new (ok : Forwarding P → Forwarding.Move P → Prop) :
    Tracked home ok (World.new : World P M) where
  routes := .init rfl
  aborted := rfl
  abandoned := rfl
  buffering p hb := by
    obtain ⟨_, _, hrec⟩ := hb
    cases hrec

theorem Tracked.onePlace (h : Tracked home ok w) : w.routes.OnePlace :=
  Forwarding.onePlace_of_runsWith h.routes

theorem Tracked.step (h : Tracked home ok w) {e : Forwarding.Move P} (hok : ok w.routes e)
    (hs : Forwarding.Step home w.routes e w'.routes) (haborted : w'.aborted = w.aborted)
    (habandoned : w'.abandoned = w.abandoned)
    (hbuffering : ∀ p, w'.Buffering p → w.Buffering p ∨ p = home) :
    Tracked home ok w' where
  routes := h.routes.step hok hs
  aborted := haborted.trans h.aborted
  abandoned := habandoned.trans h.abandoned
  buffering p hb := (hbuffering p hb).elim (h.buffering p) id

/-- Only what a manager may learn is restricted. -/
def LearnOnly (ok : Forwarding P → Forwarding.Move P → Prop) :
    Prop := ∀ s e, (∀ p q stay, e ≠ .learn p q stay) → ok s e

/-- **A message is delivered.** -/
theorem Tracked.deliver (h : Tracked home ok w) (hok : LearnOnly ok) (me : P)
    (msg : ArrayMessage P M) (type : CkDeliver) :
    Tracked home ok (w.deliver home me msg type) := by
  cases moved_deliver home w me msg type with
  | inl hmoved => exact hmoved.tracked h
  | inr htold =>
    refine htold.2.tracked
      (h.step (hok _ (.tell msg.srcPe me) (by simp)) ?_ rfl rfl fun _ hb => .inl hb)
    have hroutes : (w.post msg.srcPe (.updateLocation me (w.hosted me))).routes =
        { w.routes with notices := w.routes.notices ++ [(msg.srcPe, me, w.routes.hosted me)] } := by
      simp [World.routes, post, notices, migrating, Packet.notice, Packet.element]
      exact ⟨rfl, rfl⟩
    rw [hroutes]
    exact .tell w.routes msg.srcPe me htold.1

omit [DecidableEq P] in
theorem moved_take {msg : ArrayMessage P M} (hnet : w.net[k]? = some (pe, .deliver msg)) :
    Moved home w (w.take k) where
  route := rfl
  hosted := rfl
  migrating := filterMap_eraseIdx_none hnet (f := Packet.element) rfl
  notices := filterMap_eraseIdx_none hnet (f := Packet.notice) rfl
  buffering _ hb := .inl hb
  created := rfl
  aborted := rfl
  abandoned := rfl
  sent := rfl

/-- **A location notice arrives.** -/
theorem Tracked.inform (h : Tracked home ok w) (hok : LearnOnly ok)
    (hnet : w.net[k]? = some (pe, .updateLocation nowOnPe stay))
    (hlearn : nowOnPe ≠ pe → w.route pe ≠ .here → ok w.routes (.learn pe nowOnPe stay)) :
    Tracked home ok ((w.take k).inform home pe nowOnPe stay) := by
  obtain ⟨l1, l2, hnotices, herase⟩ := filterMap_eraseIdx_some hnet (f := Packet.notice) rfl
  have hmigrating : (w.take k).migrating = w.migrating := filterMap_eraseIdx_none hnet rfl
  have hroutes : (w.take k).routes = { w.routes with notices := l1 ++ l2 } := by
    rw [World.routes, hmigrating, notices, take, herase]
    rfl
  by_cases hignored : nowOnPe = pe ∨ w.route pe = .here
  · rw [inform_ignored (w := w.take k) hignored]
    refine h.step (e := .ignore pe nowOnPe stay) (hok _ _ (by simp)) ?_ rfl rfl fun _ hb => .inl hb
    rw [hroutes]
    exact .ignore w.routes pe nowOnPe stay l1 l2 hnotices hignored
  · obtain ⟨hne, hpe⟩ := not_or.mp hignored
    refine (moved_inform home (w := w.take k) hne hpe stay).tracked
      (h.step (hlearn hne hpe) ?_ rfl rfl fun p hb => ?_)
    · rw [routes_setRecord, hroutes]
      exact .learn w.routes pe nowOnPe stay l1 l2 hnotices hne hpe
    · exact .inl (buffering_of_setRecord (by simp) hb)

theorem routes_informHome (home : P) (w : World P M) (me nowOnPe : P) (stay : Nat) :
    (w.informHome home me nowOnPe stay).routes =
      { w.routes with notices := w.routes.notices ++ Forwarding.told home me nowOnPe stay } := by
  unfold informHome Forwarding.told
  split
  next =>
    simp [routes, post, notices, migrating, Packet.notice, Packet.element]
    exact ⟨rfl, rfl⟩
  next => simp

theorem informHome_fields (home : P) (w : World P M) (me nowOnPe : P) (stay : Nat) :
    (w.informHome home me nowOnPe stay).mgr = w.mgr ∧
    (w.informHome home me nowOnPe stay).aborted = w.aborted ∧
      (w.informHome home me nowOnPe stay).abandoned = w.abandoned := by
  unfold informHome
  split
  next => exact ⟨rfl, rfl, rfl⟩
  next => exact ⟨rfl, rfl, rfl⟩

theorem moved_createLocal (home : P) (hold : w.route me ≠ .here) (stay : Nat) :
    Moved home ((w.setHosted me stay).setRecord me (some .localRec))
      (w.createLocal home me stay false) :=
  moved_insertRec home (by simpa using hold) .localRec

theorem routes_settle (w : World P M) (me : P) (stay : Nat) :
    ((w.setHosted me stay).setRecord me (some .localRec)).routes =
    w.routes.settle me stay w.migrating := by
  rw [routes, route_setRecord, hosted_setRecord, route_setHosted, hosted_setHosted]
  rfl

theorem not_buffering_settle {p : P}
    (hb : ((w.setHosted me stay).setRecord me (some .localRec)).Buffering p) : w.Buffering p := by
  obtain ⟨buffer, lastAccess, hrec⟩ := buffering_of_setRecord (by simp) hb
  refine ⟨buffer, lastAccess, ?_⟩
  by_cases hp : p = me
  · subst hp
    simpa [setHosted] using hrec
  · simpa [setHosted, hp] using hrec

/-- **The element arrives.** -/
theorem Tracked.immigrate (h : Tracked home ok w) (hok : LearnOnly ok)
    (hnet : w.net[k]? = some (pe, .immigrate stay)) :
    Tracked home ok ((w.take k).immigrate home pe stay) := by
  obtain ⟨l1, l2, hmoving, herase⟩ := filterMap_eraseIdx_some hnet (f := Packet.element) rfl
  have hnotices : (w.take k).notices = w.notices := filterMap_eraseIdx_none hnet rfl
  have hpe : w.route pe ≠ .here := (h.onePlace.placed_of_moving hmoving).2.2.2.1
  refine (moved_createLocal home (w := w.take k) hpe stay).tracked
    (h.step (e := .arrive pe) (hok _ _ (by simp)) ?_ rfl rfl fun _ hb =>
    .inl (not_buffering_settle hb))
  have hroutes :
    (w.take k).routes.settle pe stay (w.take k).migrating = w.routes.settle pe stay (l1 ++ l2) := by
    rw [World.routes, hnotices, migrating, take, herase]
    rfl
  rw [routes_settle, hroutes]
  exact .arrive w.routes pe stay l1 l2 hmoving

/-- **The element is created.** -/
theorem Tracked.addElement (h : Tracked home ok w) (hok : LearnOnly ok)
    (hcreated : w.created = false) :
    Tracked home ok (w.addElement home pe) := by
  have hunknown :=
    (h.onePlace.resolve_right fun hold => by simp [World.routes, hcreated] at hold).2.2.2 pe
  have hpe : w.route pe ≠ .here := by
    intro hhere
    cases hunknown.1.symm.trans hhere
  have hmoved := moved_createLocal home hpe 1
  obtain ⟨hmgr, haborted, habandoned⟩ :=
    informHome_fields home (w.createLocal home pe 1 false) pe pe 1
  have hadd :
    w.addElement home pe =
    { (w.createLocal home pe 1 false).informHome home pe pe 1 with created := true } := by
    unfold World.addElement
    split
    next hrec => exact absurd (route_eq_here.mpr hrec) hpe
    next => rfl
  rw [hadd]
  refine h.step (e := .create pe) (hok _ _ (by simp)) ?_ (haborted.trans hmoved.aborted)
    (habandoned.trans hmoved.abandoned)
    fun p hb => ?_
  · have hroutes :
      World.routes
        { (w.createLocal home pe 1 false).informHome home pe pe 1 with created := true } =
        { w.routes.settle pe 1 w.routes.moving with
          notices := w.routes.notices ++ Forwarding.told home pe pe 1, created := true } := by
      have htold := routes_informHome home (w.createLocal home pe 1 false) pe pe 1
      rw [hmoved.routes, routes_settle] at htold
      exact congrArg (fun s : Forwarding P => { s with created := true }) htold
    rw [hroutes]
    exact .create w.routes pe hcreated
  · have hb' : (w.createLocal home pe 1 false).Buffering p := by
      obtain ⟨buffer, lastAccess, hrec⟩ := hb
      exact ⟨buffer, lastAccess, hmgr ▸ hrec⟩
    exact (hmoved.buffering p hb').imp_left not_buffering_settle

/-- **The element leaves.** -/
theorem Tracked.emigrate (h : Tracked home ok w) (hok : LearnOnly ok) {toPe : P}
    (hpe : w.route pe = .here) :
    Tracked home ok (w.emigrate home pe toPe) := by
  unfold World.emigrate
  by_cases hne : toPe = pe
  · rw [if_pos hne]
    exact h
  · rw [if_neg hne]
    have hmoved :=
      moved_inform home
        (w := (w.post toPe (.immigrate ((w.mgr pe).hosted + 1))).delete pe .localRec)
      hne (by simp [delete, LocRec.route]) ((w.mgr pe).hosted + 1)
    obtain ⟨hmgr, haborted, habandoned⟩ := informHome_fields home
      (((w.post toPe (.immigrate ((w.mgr pe).hosted + 1))).delete pe .localRec).inform home pe toPe
        ((w.mgr pe).hosted + 1))
      pe toPe ((w.mgr pe).hosted + 1)
    refine h.step (e := .leave pe toPe) (hok _ _ (by simp)) ?_ (haborted.trans hmoved.aborted)
      (habandoned.trans hmoved.abandoned) fun p hb => ?_
    · have hpost : (w.post toPe (.immigrate ((w.mgr pe).hosted + 1))).routes =
          { w.routes with moving := w.routes.moving ++ [(toPe, w.routes.hosted pe + 1)] } := by
        simp [World.routes, post, notices, migrating, Packet.notice]
        exact ⟨rfl, rfl, rfl⟩
      rw [routes_informHome, hmoved.routes, routes_setRecord, delete, routes_setRecord, hpost]
      simp only [Function.update_idem]
      exact .leave w.routes pe toPe hpe hne
    · have hb' := hmoved.buffering p (by
        obtain ⟨buffer, lastAccess, hrec⟩ := hb
        exact ⟨buffer, lastAccess, hmgr ▸ hrec⟩)
      exact hb'.imp_left fun hset => buffering_of_setRecord (by simp)
        (buffering_of_setRecord (by simp) hset)

theorem nextSpring_record (w : World P M) (me p : P) :
    ((w.nextSpring me).mgr p).record = (w.mgr p).record := by
  by_cases hp : p = me
  · subst hp
    simp [nextSpring]
  · simp [nextSpring, hp]

theorem moved_nextSpring (w : World P M) (me : P) : Moved home w (w.nextSpring me) where
  route := funext fun p => congrArg LocRec.route (nextSpring_record w me p)
  hosted := by
    funext p
    by_cases hp : p = me
    · subst hp
      simp [hosted, nextSpring]
    · simp [hosted, nextSpring, hp]
  migrating := rfl
  notices := rfl
  buffering p hb := by
    obtain ⟨buffer, lastAccess, hrec⟩ := hb
    exact .inl ⟨buffer, lastAccess, nextSpring_record w me p ▸ hrec⟩
  created := rfl
  aborted := rfl
  abandoned := rfl
  sent := rfl

/-- **A cleaning**: a PE other than the home PE may forget where the element was. -/
theorem Tracked.springCleaning (h : Tracked home ok w) (hok : LearnOnly ok) (pe : P) :
    Tracked home ok (w.springCleaning home pe) := by
  have hspring := (moved_nextSpring w pe).tracked h
  unfold World.springCleaning
  simp only
  split
  next rec hrec =>
    cases rec with
    | localRec => exact hspring
    | bufferingRec buffer lastAccess => exact hspring
    | remoteRec onPe lastAccess stay =>
      split
      next hobsolete =>
        have hhome : pe ≠ home := by
          intro heq
          simp [LocRec.isObsolete, heq] at hobsolete
        refine hspring.step (e := .forget pe) (hok _ _ (by simp)) ?_ rfl rfl fun p hb => ?_
        · have hroute : (w.nextSpring pe).routes.route pe = .remote onPe stay :=
            congrArg LocRec.route hrec
          rw [delete, routes_setRecord]
          exact .forget _ pe onPe stay hhome hroute
        · exact .inl (buffering_of_setRecord (by simp) hb)
      next => exact hspring
  next => exact hspring

/-- **Every step** of the managers is one of the routes. -/
theorem Tracked.stepTo (h : Tracked home ok w) (hok : LearnOnly ok) (hs : Step home w e w')
    (hlearn : ∀ k pe nowOnPe stay, e = .recv k →
      w.net[k]? = some (pe, .updateLocation nowOnPe stay) → nowOnPe ≠ pe →
      w.route pe ≠ .here → ok w.routes (.learn pe nowOnPe stay)) : Tracked home ok w' := by
  cases hs with
  | addElement pe _ hcreated => exact h.addElement hok hcreated
  | send pe id type _ _ =>
    have hsent : Tracked home ok { w with sent := w.sent ++ [id] } :=
      ⟨h.routes, h.aborted, h.abandoned, h.buffering⟩
    exact hsent.deliver hok pe _ type
  | deliver k pe msg _ hnet => exact ((moved_take hnet).tracked h).deliver hok pe msg .inline
  | updateLocation k pe nowOnPe stay _ hnet =>
    exact h.inform hok hnet (hlearn k pe nowOnPe stay rfl hnet)
  | immigrate k pe stay _ hnet => exact h.immigrate hok hnet
  | emigrate pe toPe _ hpe => exact h.emigrate hok (route_eq_here.mpr hpe)
  | springCleaning pe _ => exact h.springCleaning hok pe

theorem runsWith_step {good : World P M → Event P M → Prop}
    (h : (locationSystem P M home).RunsWith good w)
    (hgood : good w e) (hs : Step home w e w') : (locationSystem P M home).RunsWith good w' :=
  h.step hgood hs

end CharmRuntime.Location
