import CharmRuntime.Legion.Metadata
import CharmRuntime.Lib.InFlight
import CharmRuntime.Lib.Outcome
import Mathlib.Data.List.Count
import Mathlib.Data.List.Nodup

/-!
# Legion.MetadataSound

The metadata protocol works when no invalidation overtakes a response.

Each node other than the owner goes through the phases of `Phase` once: it has not
asked, its request is on its way, its response is, it is valid, its acknowledgement is on
its way, it is done. A phase fixes the state of the node, whether the owner counts it
among the copies, and which messages about it are on their way (`Standing`). Every step
takes one node to its next phase, and the cleanup adds the invalidations of all copies.
-/

namespace CharmRuntime.Legion.Metadata

open Lib Function List

variable {N : Type} [DecidableEq N]

/-! ### Phases -/

/-- What concerns one node: its state, whether it waits on an event, whether the owner has
it among its copies, its messages, and what it has handled. -/
@[ext]
structure Standing where
  state : State
  waits : Bool
  copy : Bool
  requests : Nat
  responses : Nat
  invalidations : Nat
  acks : Nat
  responded : Bool
  invalidated : Bool

def World.standing (owner : N) (w : World N) (p : N) : Standing where
  state := (w.node p).state
  waits := (w.node p).validEvent.isSome
  copy := p ∈ (w.node owner).remoteCopies
  requests := w.net.count (.request p)
  responses := w.net.count (.response p)
  invalidations := w.net.count (.invalidate p)
  acks := w.net.count (.ack p)
  responded := p ∈ w.responded
  invalidated := p ∈ w.invalidated

/-- The way of a node. -/
inductive Phase (cleaned : Bool) : Standing → Prop
  | fresh : Phase cleaned ⟨.invalid, false, false, 0, 0, 0, 0, false, false⟩
  | requesting (h : cleaned = false) :
      Phase cleaned ⟨.requested, true, false, 1, 0, 0, 0, false, false⟩
  | answered : Phase cleaned ⟨.requested, true, true, 0, 1, cleaned.toNat, 0, false, false⟩
  | valid : Phase cleaned ⟨.valid, false, true, 0, 0, cleaned.toNat, 0, true, false⟩
  | acked (h : cleaned = true) : Phase cleaned ⟨.invalid, false, true, 0, 0, 0, 1, true, true⟩
  | gone (h : cleaned = true) : Phase cleaned ⟨.invalid, false, false, 0, 0, 0, 0, true, true⟩

/-- What holds in every state of a run in order. -/
structure Tracked (owner : N) (w : World N) : Prop where
  phase : ∀ p, p ≠ owner → Phase w.cleaned (w.standing owner p)
  nodup : (w.node owner).remoteCopies.Nodup
  others : ∀ p ∈ (w.node owner).remoteCopies, p ≠ owner
  net : ∀ m ∈ w.net, m.node ≠ owner
  ownerValid : w.cleaned = false → (w.node owner).state = .valid
  returned :
    ∀ x ∈ w.returned, x.1 ≠ owner ∧ (x.2 ∈ w.triggered ∨ (w.node x.1).validEvent = some x.2)

namespace Phase

variable {c : Bool} {st : Standing}

theorem of_request (h : Phase c st) (hr : 0 < st.requests) :
    c = false ∧ st = ⟨.requested, true, false, 1, 0, 0, 0, false, false⟩ := by
  cases h with
  | requesting hc => exact ⟨hc, rfl⟩
  | _ => exact absurd hr (Nat.lt_irrefl 0)

theorem of_response (h : Phase c st) (hr : 0 < st.responses) :
    st = ⟨.requested, true, true, 0, 1, c.toNat, 0, false, false⟩ := by
  cases h with
  | answered => rfl
  | _ => exact absurd hr (Nat.lt_irrefl 0)

theorem of_invalidate (h : Phase c st) (hr : 0 < st.invalidations)
    (hstate : st.state ≠ .requested) :
    c = true ∧ st = ⟨.valid, false, true, 0, 0, 1, 0, true, false⟩ := by
  cases h with
  | valid =>
    cases c with
    | true => exact ⟨rfl, rfl⟩
    | false => exact absurd hr (Nat.lt_irrefl 0)
  | answered => exact absurd rfl hstate
  | _ => exact absurd hr (Nat.lt_irrefl 0)

theorem of_ack (h : Phase c st) (hr : 0 < st.acks) :
    c = true ∧ st = ⟨.invalid, false, true, 0, 0, 0, 1, true, true⟩ := by
  cases h with
  | acked hc => exact ⟨hc, rfl⟩
  | _ => exact absurd hr (Nat.lt_irrefl 0)

end Phase

/-! ### Messages -/

variable {net : List (Msg N)} {k : Nat} {m : Msg N}

theorem count_deliver (h : net[k]? = some m) (x : Msg N) :
    net.count x = (net.eraseIdx k).count x + if m = x then 1 else 0 := by
  rw [(perm_eraseIdx h).count_eq]
  by_cases hx : m = x
  · simp [hx]
  · simp [hx]

theorem count_pos_of_getElem? (h : net[k]? = some m) : 0 < net.count m :=
  count_pos_iff.mpr (mem_of_getElem? h)

/-- A step that does not concern the node `q`. -/
theorem standing_other {owner : N} {w w' : World N} {q : N} (hnode : w'.node q = w.node q)
    (hcopy : q ∈ (w'.node owner).remoteCopies ↔ q ∈ (w.node owner).remoteCopies)
    (hnet : ∀ m : Msg N, m.node = q → w'.net.count m = w.net.count m)
    (hresponded : q ∈ w'.responded ↔ q ∈ w.responded)
    (hinvalidated : q ∈ w'.invalidated ↔ q ∈ w.invalidated) :
    w'.standing owner q = w.standing owner q := by
  ext
  · simp only [World.standing, hnode]
  · simp only [World.standing, hnode]
  · simp only [World.standing, hcopy]
  · exact hnet _ rfl
  · exact hnet _ rfl
  · exact hnet _ rfl
  · exact hnet _ rfl
  · simp only [World.standing, hresponded]
  · simp only [World.standing, hinvalidated]

/-- A message about `p` is taken and one about `p` is added. -/
theorem count_other (h : net[k]? = some m) {q : N} (hq : q ≠ m.node)
    (l : List (Msg N)) (hl : ∀ x ∈ l, x.node = m.node) (x : Msg N) (hx : x.node = q) :
    (net.eraseIdx k ++ l).count x = net.count x := by
  have hne : m ≠ x := by
    rintro rfl
    exact hq hx.symm
  have hzero : l.count x = 0 := by
    refine count_eq_zero.mpr fun hmem => hq ?_
    rw [← hx, hl x hmem]
  rw [count_deliver h x, count_append, hzero, if_neg hne]

omit [DecidableEq N] in
theorem mem_deliver {owner : N} (hnet : ∀ m ∈ net, m.node ≠ owner)
    {l : List (Msg N)} (hl : ∀ x ∈ l, x.node ≠ owner) :
    ∀ x ∈ net.eraseIdx k ++ l, x.node ≠ owner := by
  intro x hx
  obtain hx | hx := mem_append.mp hx
  · exact hnet x (mem_of_mem_eraseIdx hx)
  · exact hl x hx

namespace Tracked

variable {owner : N} {w : World N}

variable {p : N} {k : Nat}

/-- A step that concerns the node `p`: the phase of every other node stays. -/
theorem phases (h : Tracked owner w) {w' : World N} (hp : Phase w.cleaned (w'.standing owner p))
    (hother : ∀ q, q ≠ owner → q ≠ p → w'.standing owner q = w.standing owner q) :
    ∀ q, q ≠ owner → Phase w.cleaned (w'.standing owner q) := by
  intro q hq
  by_cases hqp : q = p
  · rw [hqp]
    exact hp
  · rw [hother q hq hqp]
    exact h.phase q hq

theorem deliver_request (h : Tracked owner w) (hk : w.net[k]? = some (.request p)) :
    ∃ w', w.next owner (.deliver k) = .ok w' ∧ Tracked owner w' := by
  have hp : p ≠ owner := h.net _ (mem_of_getElem? hk)
  obtain ⟨hc, hst⟩ := (h.phase p hp).of_request (count_pos_of_getElem? hk)
  simp only [Standing.ext_iff, World.standing, decide_eq_false_iff_not, count_deliver hk,
    reduceCtorEq, if_true, if_false, Nat.add_eq_right] at hst
  obtain ⟨hstate, hwaits, hcopy, hreq, hresp, hinv, hack, hresponded, hinvalidated⟩ := hst
  let m : MetadataBase N := { w.node owner with remoteCopies := p :: (w.node owner).remoteCopies }
  have hnode : ∀ q, q ≠ owner → update w.node owner m q = w.node q := fun q hq =>
    update_of_ne hq _ _
  refine ⟨{ w.setNode owner m with net := w.net.eraseIdx k ++ [.response p] }, ?_,
    h.phases (p := p) ?_ ?_, ?_, ?_, ?_, ?_, ?_⟩
  · simp only [World.next, hk]
    refine bind_eq_ok.mpr ⟨m, ?_, rfl⟩
    rw [MetadataBase.handleRequest, if_neg (not_not_intro (h.ownerValid hc)), if_neg hcopy]
  · have hnew :
      World.standing owner { w.setNode owner m with net := w.net.eraseIdx k ++ [.response p] } p =
        ⟨.requested, true, true, 0, 1, w.cleaned.toNat, 0, false, false⟩ := by
      simp [World.standing, World.setNode, hnode p hp, hstate, hwaits, m, hreq, hresp, hinv, hack,
        hc, hresponded, hinvalidated]
    rw [hnew]
    exact .answered
  · intro q hq hqp
    refine standing_other (hnode q hq) ?_ (count_other hk hqp _ (by simp [Msg.node]))
      Iff.rfl Iff.rfl
    simp [World.setNode, m, hqp]
  · simp only [World.setNode, update_self]
    exact nodup_cons.mpr ⟨hcopy, h.nodup⟩
  · simp only [World.setNode, update_self, m, mem_cons]
    rintro q (rfl | hq)
    · exact hp
    · exact h.others q hq
  · exact mem_deliver h.net (by simpa [Msg.node] using hp)
  · intro hc'
    simp only [World.setNode, update_self]
    exact h.ownerValid hc'
  · intro x hx
    obtain ⟨hx', hx⟩ := h.returned x hx
    simp only [World.setNode, hnode x.1 hx']
    exact ⟨hx', hx⟩

theorem deliver_response (h : Tracked owner w) (hk : w.net[k]? = some (.response p)) :
    ∃ w', w.next owner (.deliver k) = .ok w' ∧ Tracked owner w' := by
  have hp : p ≠ owner := h.net _ (mem_of_getElem? hk)
  have hst := (h.phase p hp).of_response (count_pos_of_getElem? hk)
  simp only [Standing.ext_iff, World.standing, decide_eq_false_iff_not, count_deliver hk,
    reduceCtorEq, if_true, if_false, Nat.add_zero, Nat.add_eq_right] at hst
  obtain ⟨hstate, -, hcopy, hreq, hresp, hinv, hack, -, hinvalidated⟩ := hst
  let m : MetadataBase N := { w.node p with validEvent := none, state := .valid }
  have hnode : ∀ q, q ≠ p → update w.node p m q = w.node q := fun q hq => update_of_ne hq _ _
  refine ⟨{ w.setNode p m with
      net := w.net.eraseIdx k
      triggered := w.triggered ++ (w.node p).validEvent.toList
      responded := p :: w.responded }, ?_, h.phases (p := p) ?_ ?_, ?_, ?_, ?_, ?_, ?_⟩
  · simp only [World.next, hk]
    refine bind_eq_ok.mpr ⟨(m, (w.node p).validEvent), ?_, rfl⟩
    simp only [MetadataBase.handleResponse, hstate]
    rfl
  · have hnew : World.standing owner { w.setNode p m with
        net := w.net.eraseIdx k
        triggered := w.triggered ++ (w.node p).validEvent.toList
        responded := p :: w.responded } p =
          ⟨.valid, false, true, 0, 0, w.cleaned.toNat, 0, true, false⟩ := by
      simp [World.standing, World.setNode, hnode owner (symm hp), m, hcopy, hreq, hresp, hinv, hack,
        hinvalidated]
    rw [hnew]
    exact .valid
  · intro q hq hqp
    refine standing_other (hnode q hqp) ?_ ?_ ?_ Iff.rfl
    · simp only [World.setNode, hnode owner (symm hp)]
    · simpa using count_other hk hqp [] (by simp)
    · simp [hqp]
  · simp only [World.setNode, hnode owner (symm hp)]
    exact h.nodup
  · simp only [World.setNode, hnode owner (symm hp)]
    exact h.others
  · exact fun x hx => h.net x (mem_of_mem_eraseIdx hx)
  · simp only [World.setNode, hnode owner (symm hp)]
    exact h.ownerValid
  · intro x hx
    obtain ⟨hx', hx⟩ := h.returned x hx
    refine ⟨hx', ?_⟩
    simp only [World.setNode, mem_append]
    by_cases hxp : x.1 = p
    · rw [hxp] at hx
      refine .inl (hx.imp_right fun hx => ?_)
      rw [hx]
      exact mem_singleton.mpr rfl
    · rw [hnode x.1 hxp]
      exact hx.imp_left .inl

theorem deliver_invalidate (h : Tracked owner w) (hk : w.net[k]? = some (.invalidate p))
    (horder : (w.node p).state ≠ .requested) :
    ∃ w', w.next owner (.deliver k) = .ok w' ∧ Tracked owner w' := by
  have hp : p ≠ owner := h.net _ (mem_of_getElem? hk)
  obtain ⟨hc, hst⟩ := (h.phase p hp).of_invalidate (count_pos_of_getElem? hk) horder
  simp only [Standing.ext_iff, World.standing, decide_eq_false_iff_not, decide_eq_true_eq,
    count_deliver hk, reduceCtorEq, if_true, if_false, Nat.add_zero, Nat.add_eq_right] at hst
  obtain ⟨hstate, hwaits, hcopy, hreq, hresp, hinv, hack, hresponded, -⟩ := hst
  let m : MetadataBase N := { w.node p with state := .invalid }
  have hnode : ∀ q, q ≠ p → update w.node p m q = w.node q := fun q hq => update_of_ne hq _ _
  refine ⟨{ w.setNode p m with
      net := w.net.eraseIdx k ++ [.ack p]
      invalidated := p :: w.invalidated }, ?_, h.phases (p := p) ?_ ?_, ?_, ?_, ?_, ?_, ?_⟩
  · simp only [World.next, hk]
    refine bind_eq_ok.mpr ⟨m, ?_, rfl⟩
    simp only [MetadataBase.handleInvalidate, hstate]
    rfl
  · have hnew : World.standing owner { w.setNode p m with
        net := w.net.eraseIdx k ++ [.ack p]
        invalidated := p :: w.invalidated } p =
          ⟨.invalid, false, true, 0, 0, 0, 1, true, true⟩ := by
      simp [World.standing, World.setNode, hnode owner (symm hp), m, hwaits, hcopy, hreq,
        hresp, hinv, hack, hresponded]
    rw [hnew]
    exact .acked hc
  · intro q hq hqp
    refine standing_other (hnode q hqp) ?_ (count_other hk hqp _ (by simp [Msg.node])) Iff.rfl ?_
    · simp only [World.setNode, hnode owner (symm hp)]
    · simp [hqp]
  · simp only [World.setNode, hnode owner (symm hp)]
    exact h.nodup
  · simp only [World.setNode, hnode owner (symm hp)]
    exact h.others
  · exact mem_deliver h.net (by simpa [Msg.node] using hp)
  · simp only [World.setNode, hnode owner (symm hp)]
    exact h.ownerValid
  · intro x hx
    obtain ⟨hx', hx⟩ := h.returned x hx
    refine ⟨hx', ?_⟩
    simp only [World.setNode]
    by_cases hxp : x.1 = p
    · rw [hxp] at hx ⊢
      rw [update_self]
      exact hx
    · rw [hnode x.1 hxp]
      exact hx

theorem deliver_ack (h : Tracked owner w) (hk : w.net[k]? = some (.ack p)) :
    ∃ w', w.next owner (.deliver k) = .ok w' ∧ Tracked owner w' := by
  have hp : p ≠ owner := h.net _ (mem_of_getElem? hk)
  obtain ⟨hc, hst⟩ := (h.phase p hp).of_ack (count_pos_of_getElem? hk)
  simp only [Standing.ext_iff, World.standing, decide_eq_true_eq, count_deliver hk, reduceCtorEq,
    if_true, if_false, Nat.add_eq_right] at hst
  obtain ⟨hstate, hwaits, hcopy, hreq, hresp, hinv, hack, hresponded, hinvalidated⟩ := hst
  let m : MetadataBase N :=
    { w.node owner with remoteCopies := (w.node owner).remoteCopies.erase p }
  have hnode : ∀ q, q ≠ owner → update w.node owner m q = w.node q := fun q hq =>
    update_of_ne hq _ _
  refine ⟨{ w.setNode owner m with net := w.net.eraseIdx k }, ?_, h.phases (p := p) ?_ ?_, ?_,
    ?_, ?_, ?_, ?_⟩
  · simp only [World.next, hk]
    refine bind_eq_ok.mpr ⟨m, ?_, rfl⟩
    rw [MetadataBase.handleInvalAck, if_neg (not_not_intro hcopy)]
  · have hnew : World.standing owner { w.setNode owner m with net := w.net.eraseIdx k } p =
        ⟨.invalid, false, false, 0, 0, 0, 0, true, true⟩ := by
      simp [World.standing, World.setNode, hnode p hp, hstate, hwaits, m, hreq, hresp, hinv,
        hack, hresponded, hinvalidated, h.nodup.mem_erase_iff]
    rw [hnew]
    exact .gone hc
  · intro q hq hqp
    refine standing_other (hnode q hq) ?_ ?_ Iff.rfl Iff.rfl
    · simp [World.setNode, m, hqp]
    · simpa using count_other hk hqp [] (by simp)
  · simp only [World.setNode, update_self]
    exact h.nodup.erase p
  · simp only [World.setNode, update_self]
    exact fun q hq => h.others q (mem_of_mem_erase hq)
  · exact fun x hx => h.net x (mem_of_mem_eraseIdx hx)
  · intro hc'
    simp only [World.setNode, update_self]
    exact h.ownerValid hc'
  · intro x hx
    obtain ⟨hx', hx⟩ := h.returned x hx
    simp only [World.setNode, hnode x.1 hx']
    exact ⟨hx', hx⟩

/-- `request_data` on a node that has asked already. -/
theorem request_again (h : Tracked owner w) {e : Option Nat}
    (hdata : (w.node p).requestData owner p w.nextEvent = .ok (w.node p, e, false)) (hp : p ≠ owner)
    (he : ∀ e' ∈ e, (w.node p).validEvent = some e') :
    ∃ w', w.next owner (.requestData p) = .ok w' ∧ Tracked owner w' := by
  refine ⟨{ w with
      nextEvent := w.nextEvent + 1
      returned := w.returned ++ e.toList.map fun e => (p, e)
      asked := p :: w.asked }, ?_, h.phase, h.nodup, h.others, h.net, h.ownerValid, ?_⟩
  · refine bind_eq_ok.mpr ⟨_, hdata, ?_⟩
    simp only [World.setNode, update_eq_self]
    rfl
  · intro x hx
    obtain hx | hx := mem_append.mp hx
    · exact h.returned x hx
    · obtain ⟨e', he', rfl⟩ := mem_map.mp hx
      exact ⟨hp, .inr (he e' (Option.mem_toList.mp he'))⟩

/-- The first `request_data` of a node. -/
theorem request_first (h : Tracked owner w) (hp : p ≠ owner) (hc : w.cleaned = false)
    (hst : w.standing owner p = ⟨.invalid, false, false, 0, 0, 0, 0, false, false⟩) :
    ∃ w', w.next owner (.requestData p) = .ok w' ∧ Tracked owner w' := by
  simp only [Standing.ext_iff, World.standing, decide_eq_false_iff_not] at hst
  obtain ⟨hstate, hwaits, hcopy, hreq, hresp, hinv, hack, hresponded, hinvalidated⟩ := hst
  let m : MetadataBase N := { w.node p with state := .requested, validEvent := some w.nextEvent }
  have hnode : ∀ q, q ≠ p → update w.node p m q = w.node q := fun q hq => update_of_ne hq _ _
  refine ⟨{ w.setNode p m with
      net := w.net ++ [.request p]
      nextEvent := w.nextEvent + 1
      returned := w.returned ++ [(p, w.nextEvent)]
      asked := p :: w.asked }, ?_, h.phases (p := p) ?_ ?_, ?_, ?_, ?_, ?_, ?_⟩
  · refine bind_eq_ok.mpr ⟨(m, some w.nextEvent, true), ?_, rfl⟩
    simp only [MetadataBase.requestData, hstate, symm hp, reduceCtorEq]
    rfl
  · have hnew : World.standing owner { w.setNode p m with
        net := w.net ++ [.request p]
        nextEvent := w.nextEvent + 1
        returned := w.returned ++ [(p, w.nextEvent)]
        asked := p :: w.asked } p = ⟨.requested, true, false, 1, 0, 0, 0, false, false⟩ := by
      simp [World.standing, World.setNode, hnode owner (symm hp), m, hcopy, hreq, hresp, hinv,
        hack, hresponded, hinvalidated]
    rw [hnew]
    exact .requesting hc
  · intro q hq hqp
    refine standing_other (hnode q hqp) ?_ (fun x hx => ?_) Iff.rfl Iff.rfl
    · simp only [World.setNode, hnode owner (symm hp)]
    · have hzero : [Msg.request p].count x = 0 := by
        refine count_eq_zero.mpr fun hmem => hqp ?_
        rw [← hx, mem_singleton.mp hmem]
        rfl
      rw [count_append, hzero, Nat.add_zero]
  · simp only [World.setNode, hnode owner (symm hp)]
    exact h.nodup
  · simp only [World.setNode, hnode owner (symm hp)]
    exact h.others
  · intro x hx
    obtain hx | hx := mem_append.mp hx
    · exact h.net x hx
    · rw [mem_singleton.mp hx]
      exact hp
  · simp only [World.setNode, hnode owner (symm hp)]
    exact h.ownerValid
  · intro x hx
    simp only [World.setNode]
    obtain hx | hx := mem_append.mp hx
    · obtain ⟨hx', hx⟩ := h.returned x hx
      refine ⟨hx', ?_⟩
      by_cases hxp : x.1 = p
      · rw [hxp] at hx
        refine .inl (hx.resolve_right fun hsome => ?_)
        rw [hsome] at hwaits
        cases hwaits
      · rw [hnode x.1 hxp]
        exact hx
    · rw [mem_singleton.mp hx]
      exact ⟨hp, .inr (by rw [update_self])⟩

theorem requestData (h : Tracked owner w) (hp : p ≠ owner)
    (horder : w.cleaned = true → (w.node p).state ≠ .invalid) :
    ∃ w', w.next owner (.requestData p) = .ok w' ∧ Tracked owner w' := by
  have hwait : (w.node p).state = .requested → (w.node p).validEvent.isSome = true →
      ∃ w', w.next owner (.requestData p) = .ok w' ∧ Tracked owner w' := by
    intro hstate hwaits
    obtain ⟨e, he⟩ := Option.isSome_iff_exists.mp hwaits
    refine h.request_again (e := some e) ?_ hp fun e' he' => ?_
    · simp only [MetadataBase.requestData, hstate, symm hp, he, reduceCtorEq, if_false]
    · cases he'
      exact he
  have hphase := h.phase p hp
  generalize hst : w.standing owner p = st at hphase
  cases hphase with
  | fresh =>
    have hstate : (w.node p).state = .invalid := congrArg Standing.state hst
    refine h.request_first hp ?_ hst
    cases hc : w.cleaned with
    | false => rfl
    | true => exact absurd hstate (horder hc)
  | requesting hc => exact hwait (congrArg Standing.state hst) (congrArg Standing.waits hst)
  | answered => exact hwait (congrArg Standing.state hst) (congrArg Standing.waits hst)
  | valid =>
    have hstate : (w.node p).state = .valid := congrArg Standing.state hst
    refine h.request_again (e := none) ?_ hp nofun
    simp only [MetadataBase.requestData, hstate, if_true]
  | acked hc => exact absurd (congrArg Standing.state hst) (horder hc)
  | gone hc => exact absurd (congrArg Standing.state hst) (horder hc)

theorem count_invalidate (l : List N) (x : Msg N) : (l.map Msg.invalidate).count x = match x with
      | .invalidate p => l.count p
      | _ => 0 := by
  cases x with
  | invalidate p => exact count_map_of_injective _ _ (fun _ _ h => Msg.invalidate.inj h) _
  | _ => exact count_eq_zero.mpr (by simp)

/-- The owner may clean up once, while no request is under way. -/
theorem initiateCleanup (h : Tracked owner w) (hc : w.cleaned = false)
    (hreq : ∀ p, .request p ∉ w.net) :
    ∃ w', w.next owner .initiateCleanup = .ok w' ∧ Tracked owner w' := by
  let m : MetadataBase N :=
    { w.node owner with state := if (w.node owner).remoteCopies = [] then .invalid else .cleanup }
  have hnode : ∀ q, q ≠ owner → update w.node owner m q = w.node q := fun q hq =>
    update_of_ne hq _ _
  refine ⟨{ w.setNode owner m with
      net := w.net ++ (w.node owner).remoteCopies.map .invalidate
      cleaned := true }, ?_, ?_, ?_, ?_, ?_, nofun, ?_⟩
  · refine bind_eq_ok.mpr ⟨(m, (w.node owner).remoteCopies), ?_, rfl⟩
    rw [MetadataBase.initiateCleanup, if_neg (not_not_intro (h.ownerValid hc))]
    by_cases hnil : (w.node owner).remoteCopies = []
    · simp only [m, hnil, if_true]
    · simp only [m, hnil, if_false]
  · intro p hp
    have hnew : World.standing owner { w.setNode owner m with
        net := w.net ++ (w.node owner).remoteCopies.map .invalidate
        cleaned := true } p =
        { w.standing owner p with
          invalidations :=
            (w.standing owner p).invalidations + (w.node owner).remoteCopies.count p } := by
      refine Standing.ext ?_ ?_ ?_ ?_ ?_ ?_ ?_ rfl rfl
      all_goals simp [World.standing, World.setNode, hnode p hp, m, count_invalidate]
    have hphase := h.phase p hp
    have hcopy : (w.standing owner p).copy = decide (p ∈ (w.node owner).remoteCopies) := rfl
    have hrequests : (w.standing owner p).requests = 0 := count_eq_zero.mpr (hreq p)
    rw [hnew]
    generalize w.standing owner p = st at hphase hcopy hrequests
    cases hphase with
    | fresh =>
      have hzero := count_eq_zero.mpr (of_decide_eq_false hcopy.symm)
      rw [hzero]
      exact .fresh
    | requesting _ => exact absurd hrequests (by simp)
    | answered =>
      have hone := count_eq_one_of_mem h.nodup (of_decide_eq_true hcopy.symm)
      rw [hone, hc]
      exact .answered
    | valid =>
      have hone := count_eq_one_of_mem h.nodup (of_decide_eq_true hcopy.symm)
      rw [hone, hc]
      exact .valid
    | acked hc' => exact absurd hc' (by simp [hc])
    | gone hc' => exact absurd hc' (by simp [hc])
  · simp only [World.setNode, update_self]
    exact h.nodup
  · simp only [World.setNode, update_self]
    exact h.others
  · intro x hx
    obtain hx | hx := mem_append.mp hx
    · exact h.net x hx
    · obtain ⟨q, hq, rfl⟩ := mem_map.mp hx
      exact h.others q hq
  · intro x hx
    obtain ⟨hx', hx⟩ := h.returned x hx
    simp only [World.setNode, hnode x.1 hx']
    exact ⟨hx', hx⟩

/-- **Every step in order succeeds and keeps the phases.** -/
theorem step (h : Tracked owner w) {e : Event N} (henabled : w.Enabled owner e)
    (horder : InOrder w e) :
    ∃ w', w.next owner e = .ok w' ∧ Tracked owner w' := by
  cases e with
  | requestData p => exact h.requestData henabled.1 horder
  | initiateCleanup => exact h.initiateCleanup henabled.1 henabled.2
  | deliver k =>
    cases hk : w.net[k]? with
    | none => exact ⟨w, by simp only [World.next, hk]; rfl, h⟩
    | some msg =>
      cases msg with
      | request p => exact h.deliver_request hk
      | response p => exact h.deliver_response hk
      | invalidate p => exact h.deliver_invalidate hk (horder p hk)
      | ack p => exact h.deliver_ack hk

theorem fresh (owner : N) : Tracked owner (World.fresh owner) := by
  have howner : (World.fresh owner).node owner = { state := .valid } := if_pos rfl
  refine ⟨fun p hp => ?_, ?_, ?_, fun m hm => absurd hm not_mem_nil, fun _ => by rw [howner],
    fun x hx => absurd hx not_mem_nil⟩
  · have hst : (World.fresh owner).standing owner p =
      ⟨.invalid, false, false, 0, 0, 0, 0, false, false⟩ := by
      simp [World.standing, World.fresh, hp]
    rw [hst]
    exact .fresh
  · rw [howner]
    exact nodup_nil
  · rw [howner]
    exact fun p hp => absurd hp not_mem_nil

end Tracked

/-! ### Runs -/

variable {owner : N} {w : World N}

/-- **The protocol in order.** In every state of a run in which no invalidation overtakes a
response and no invalidated node asks again: the next such step fails no assertion; a node
that has handled its response has all its events triggered; one that has handled its
response and its invalidation is not valid; and when all messages have been handled after
the cleanup, no copies are left. -/
theorem metadata_in_order (hrun : (system owner).RunsWith InOrder w) :
    (∀ e, w.Enabled owner e → InOrder w e → ∃ w', w.next owner e = .ok w') ∧
      (∀ x ∈ w.returned, x.1 ∈ w.responded → x.2 ∈ w.triggered) ∧
      (∀ p, p ≠ owner → p ∈ w.responded → p ∈ w.invalidated → (w.node p).state ≠ .valid) ∧
      (w.cleaned = true → w.net = [] → (w.node owner).remoteCopies = []) := by
  have h : Tracked owner w := by
    refine hrun.invariant ?_ ?_
    · rintro w rfl
      exact .fresh owner
    · rintro w e w' h horder ⟨henabled, hnext⟩
      obtain ⟨w'', hnext', h'⟩ := h.step henabled horder
      obtain rfl := Except.ok.inj (hnext'.symm.trans hnext)
      exact h'
  refine ⟨fun e henabled horder => ?_, fun x hx hresponded => ?_,
    fun p hp hresponded hinvalidated => ?_, fun hc hnet => ?_⟩
  · obtain ⟨w', hnext, -⟩ := h.step henabled horder
    exact ⟨w', hnext⟩
  · obtain ⟨hp, hx⟩ := h.returned x hx
    refine hx.resolve_right fun hwaits => ?_
    have hphase := h.phase x.1 hp
    have hresponded' : (w.standing owner x.1).responded = true := decide_eq_true hresponded
    have hwaits' : (w.standing owner x.1).waits = true := Option.isSome_iff_exists.mpr ⟨_, hwaits⟩
    generalize w.standing owner x.1 = st at hphase hresponded' hwaits'
    cases hphase <;> simp at hresponded' hwaits'
  · intro hstate
    have hphase := h.phase p hp
    have hstate' : (w.standing owner p).state = .valid := hstate
    have hinvalidated' : (w.standing owner p).invalidated = true := decide_eq_true hinvalidated
    generalize w.standing owner p = st at hphase hstate' hinvalidated'
    cases hphase <;> simp at hstate' hinvalidated'
  · refine eq_nil_iff_forall_not_mem.mpr fun p hp => ?_
    have hphase := h.phase p (h.others p hp)
    have hcopy : (w.standing owner p).copy = true := decide_eq_true hp
    have hresponses : (w.standing owner p).responses = 0 := by simp [World.standing, hnet]
    have hinvalidations : (w.standing owner p).invalidations = 0 := by simp [World.standing, hnet]
    have hacks : (w.standing owner p).acks = 0 := by simp [World.standing, hnet]
    rw [hc] at hphase
    generalize w.standing owner p = st at hphase hcopy hresponses hinvalidations hacks
    cases hphase <;> simp at hcopy hresponses hinvalidations hacks

instance {n : Nat} (w : World (Fin n)) : (e : Event (Fin n)) → Decidable (InOrder w e)
  | .requestData p => inferInstanceAs (Decidable (w.cleaned = true → (w.node p).state ≠ .invalid))
  | .initiateCleanup => inferInstanceAs (Decidable True)
  | .deliver k =>
    inferInstanceAs
      (Decidable (∀ p, w.net[k]? = some (.invalidate p) → (w.node p).state ≠ .requested))

/-- One node asks, is answered, and drops its copy after the cleanup. -/
theorem metadata_in_order_one :
    ∃ w : World (Fin 2), (system 0).RunsWith InOrder w ∧ w.returned = [(1, 0)] ∧ w.triggered = [0] ∧
      (w.node 0).remoteCopies = [] := by
  have hfresh : (system (0 : Fin 2)).RunsWith InOrder (World.fresh 0) := .init rfl
  have hasked := hfresh.step (e := Event.requestData 1) (by decide) ⟨⟨by decide, nofun⟩, rfl⟩
  have hanswered := hasked.step (e := Event.deliver 0) (by decide) ⟨trivial, rfl⟩
  have hvalid := hanswered.step (e := Event.deliver 0) (by decide) ⟨trivial, rfl⟩
  have hcleaned := hvalid.step (e := Event.initiateCleanup) (by decide) ⟨⟨rfl, by decide⟩, rfl⟩
  have hinvalid := hcleaned.step (e := Event.deliver 0) (by decide) ⟨trivial, rfl⟩
  have hgone := hinvalid.step (e := Event.deliver 0) (by decide) ⟨trivial, rfl⟩
  exact ⟨_, hgone, rfl, rfl, (metadata_in_order hgone).2.2.2 rfl rfl⟩

/-- **An invalidation that overtakes the response.** The node enters `STATE_INVALIDATE`; its
response then fails the assertion of `handle_response`, and the event that was returned is
not triggered. -/
theorem response_after_invalidate :
    ∃ w : World (Fin 2), (system 0).Reachable w ∧ w.net[0]? = some (.response 1) ∧
    w.returned = [(1, 0)] ∧
      w.triggered = [] ∧ w.next 0 (.deliver 0) = .error .unexpectedResponse := by
  have hfresh : (system (0 : Fin 2)).Reachable (World.fresh 0) := .init rfl
  have hasked := hfresh.step (e := Event.requestData 1) ⟨⟨by decide, nofun⟩, rfl⟩
  have hanswered := hasked.step (e := Event.deliver 0) ⟨trivial, rfl⟩
  have hcleaned := hanswered.step (e := Event.initiateCleanup) ⟨⟨rfl, by decide⟩, rfl⟩
  have hinvalid := hcleaned.step (e := Event.deliver 1) ⟨trivial, rfl⟩
  exact ⟨_, hinvalid, rfl, rfl, rfl, rfl⟩

end CharmRuntime.Legion.Metadata
