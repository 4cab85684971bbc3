import CharmRuntime.Location.LocMgrSteps

/-!
# Location.LocMgrRouting

**Following the records leads to the element**, when it is on a PE and no location notice is on its
way, in every run in which no manager is informed of a location that is out of date there
(`records_lead_to_element`).

The managers keep whichever notice came last. A notice that the element has overtaken on its way may
close a cycle: the home PE has seen it leave, and is then told of the PE it had come from
(`not_records_lead_to_element`).
-/

namespace CharmRuntime.Location

open Lib World

variable {P M : Type} [DecidableEq P] {home : P} {w w' : World P M}

/-- Where a message for the element goes from a PE: along its record, to the home PE without one. -/
def World.next (home : P) (w : World P M) (p : P) : P :=
  match (w.mgr p).record with
  | some .localRec => p
  | some (.remoteRec onPe _ _) => onPe
  | some (.bufferingRec _ _) => p
  | none => home

/-- **A notice is not out of date**: the element has not been on the PE since the stay it is about,
and the home PE does not know of a later one. -/
def World.UpToDate (home : P) (w : World P M) (pe : P) (stay : Nat) : Prop :=
  (w.mgr pe).hosted < stay ∧
    (pe = home → ∀ onPe lastAccess s, (w.mgr pe).record = some (.remoteRec onPe lastAccess s) →
    s ≤ stay)

/-- The steps in which no record is replaced because of a notice that is out of date. -/
def Ok (home : P) (w : World P M) : Event P M → Prop
  | .recv k =>
    ∀ pe nowOnPe stay, w.net[k]? = some (pe, .updateLocation nowOnPe stay) → nowOnPe ≠ pe →
      (w.mgr pe).record ≠ some .localRec → w.UpToDate home pe stay
  | _ => True

omit [DecidableEq P] in
theorem learnOnly_ok (home : P) : LearnOnly (Forwarding.Ok home) := by
  intro s e he
  cases e with
  | learn p q stay => exact absurd rfl (he p q stay)
  | _ => trivial

omit [DecidableEq P] in
theorem World.UpToDate.learnable {pe : P} {stay : Nat} (h : w.UpToDate home pe stay) :
    w.routes.Learnable home pe stay := by
  refine ⟨h.1, fun hhome q m hroute => ?_⟩
  have hrec : ∃ lastAccess, (w.mgr pe).record = some (.remoteRec q lastAccess m) := by
    have hroute' : LocRec.route (w.mgr pe).record = .remote q m := hroute
    revert hroute'
    cases (w.mgr pe).record with
    | none => simp [LocRec.route]
    | some r =>
      cases r with
      | remoteRec onPe lastAccess s =>
        intro heq
        cases heq
        exact ⟨lastAccess, rfl⟩
      | localRec => simp [LocRec.route]
      | bufferingRec buffer lastAccess => simp [LocRec.route]
  obtain ⟨lastAccess, hrec⟩ := hrec
  exact h.2 hhome q lastAccess m hrec

theorem tracked_of_ok (h : (locationSystem P M home).RunsWith (Ok home) w) :
    Tracked home (Forwarding.Ok home) w := by
  refine h.invariant (fun w hinit => hinit ▸ tracked_new _) fun w e w' ht hok hs => ?_
  refine ht.stepTo (learnOnly_ok home) hs fun k pe nowOnPe stay he hnet hne hpe => ?_
  subst he
  exact (hok pe nowOnPe stay hnet hne fun hrec => hpe (route_eq_here.mpr hrec)).learnable

/-- Where the element is on a PE and its home PE knows, a message goes along the routes. -/
theorem next_eq (h : Tracked home (Forwarding.Ok home) w) {p : P} (hp : w.route p = .here)
    (hn : w.notices = []) :
    w.next home = w.routes.next home := by
  funext q
  have hinv := Forwarding.inv_of_runsWith h.routes
  have hroute : w.routes.route q = LocRec.route (w.mgr q).record := rfl
  unfold next Forwarding.next
  rw [hroute]
  cases hrec : (w.mgr q).record with
  | none => rfl
  | some r =>
    cases r with
    | localRec => rfl
    | remoteRec onPe lastAccess stay => rfl
    | bufferingRec buffer lastAccess =>
      have hq := h.buffering q ⟨buffer, lastAccess, hrec⟩
      have hunknown : w.routes.route home = .unknown := by
        rw [← hq, hroute, hrec]
        rfl
      cases hinv.home_next hp hn with
      | inl hremote => cases hunknown.symm.trans hremote
      | inr heq =>
        subst heq
        cases hunknown.symm.trans hp

/-- **Following the records leads to the element**, from any PE and in finitely many steps. -/
theorem records_lead_to_element (h : (locationSystem P M home).RunsWith (Ok home) w) {p : P}
    (hp : (w.mgr p).record = some .localRec)
    (hn : ∀ pe nowOnPe stay, (pe, .updateLocation nowOnPe stay) ∉ w.net) (q : P) :
    ∃ k, (w.next home)^[k] q = p := by
  have ht := tracked_of_ok h
  have hnotices : w.notices = [] := by
    rw [notices, List.filterMap_eq_nil_iff]
    intro x hx
    obtain ⟨pe, packet⟩ := x
    cases packet with
    | deliver msg => rfl
    | updateLocation nowOnPe stay => exact absurd hx (hn pe nowOnPe stay)
    | immigrate stay => rfl
  rw [next_eq ht (route_eq_here.mpr hp) hnotices]
  exact (Forwarding.inv_of_runsWith ht.routes).reaches (route_eq_here.mpr hp) hnotices q

/-- PE 1 creates the element, which migrates to PE 2; the home PE 0 is told both times. PE 5 finds
it in two hops, and PE 1 in one. -/
theorem records_lead_to_element_migrated :
    ∃ w : World Nat Nat, (locationSystem Nat Nat 0).RunsWith (Ok 0) w ∧
    (w.mgr 2).record = some .localRec ∧ w.next 0 1 = 2 ∧ ∃ k, (w.next 0)^[k] 5 = 2 := by
  have h0 : (locationSystem Nat Nat 0).RunsWith (Ok 0) new := .init rfl
  have h1 := runsWith_step h0 (by trivial) (Step.addElement _ 1 rfl rfl)
  have h2 := runsWith_step h1 (e := .recv 0) (fun pe nowOnPe stay hnet _ _ => by
    cases hnet
    exact ⟨Nat.zero_lt_one, fun _ _ _ _ hrec => by cases hrec⟩)
      (Step.updateLocation _ 0 0 1 1 rfl rfl)
  have h3 := runsWith_step h2 (by trivial) (Step.emigrate _ 1 2 rfl rfl)
  have h4 := runsWith_step h3 (e := .recv 0) (fun pe nowOnPe stay hnet _ _ => by cases hnet)
    (Step.immigrate _ 0 2 2 rfl rfl)
  have h5 := runsWith_step h4 (e := .recv 0) (fun pe nowOnPe stay hnet _ _ => by
    cases hnet
    exact ⟨by decide, fun _ _ _ _ hrec => by cases hrec; decide⟩)
      (Step.updateLocation _ 0 0 2 2 rfl rfl)
  exact ⟨_, h5, rfl, rfl, records_lead_to_element h5 rfl (fun _ _ _ hmem => by cases hmem) 5⟩

omit [DecidableEq P] in
theorem iterate_cycle {f : P → P} {a b : P} (ha : f a = b) (hb : f b = a) (k : Nat) :
    f^[k] a = a ∨ f^[k] a = b := by
  induction k with
  | zero => exact .inl rfl
  | succ k ih =>
    rw [Function.iterate_succ_apply']
    cases ih with
    | inl heq => exact .inr (by rw [heq, ha])
    | inr heq => exact .inl (by rw [heq, hb])

/-- PE 1 creates the element; it migrates to the home PE 0 and on to PE 2, before PE 0 is told that
it is on PE 1. -/
theorem exists_cycle : ∃ w : World Nat Nat, (locationSystem Nat Nat 0).Reachable w ∧
    (w.mgr 2).record = some .localRec ∧
    w.net = [] ∧ w.next 0 0 = 1 ∧ w.next 0 1 = 0 := by
  have h0 : (locationSystem Nat Nat 0).Reachable new := .init rfl
  have h1 := runsWith_step h0 trivial (Step.addElement _ 1 rfl rfl)
  have h2 := runsWith_step h1 trivial (Step.emigrate _ 1 0 rfl rfl)
  have h3 := runsWith_step h2 trivial (Step.immigrate _ 1 0 2 rfl rfl)
  have h4 := runsWith_step h3 trivial (Step.emigrate _ 0 2 rfl rfl)
  have h5 := runsWith_step h4 trivial (Step.immigrate _ 1 2 3 rfl rfl)
  have h6 := runsWith_step h5 trivial (Step.updateLocation _ 0 0 1 1 rfl rfl)
  exact ⟨_, h6, rfl, rfl, rfl, rfl⟩

/-- **A notice that was overtaken closes a cycle.** -/
theorem not_records_lead_to_element :
    ¬ ∀ w : World Nat Nat, (locationSystem Nat Nat 0).Reachable w → ∀ p,
    (w.mgr p).record = some .localRec →
    (∀ pe nowOnPe stay, (pe, .updateLocation nowOnPe stay) ∉ w.net) →
      ∀ q, ∃ k, (w.next 0)^[k] q = p := by
  intro hclaim
  obtain ⟨w, hw, hlocal, hnet, h01, h10⟩ := exists_cycle
  obtain ⟨k, hk⟩ := hclaim w hw 2 hlocal (fun _ _ _ hmem => by simp [hnet] at hmem) 0
  cases iterate_cycle h01 h10 k with
  | inl heq => cases hk.symm.trans heq
  | inr heq => cases hk.symm.trans heq

end CharmRuntime.Location
