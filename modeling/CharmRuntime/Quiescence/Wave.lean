import Mathlib.Algebra.Order.BigOperators.Group.Finset
import CharmRuntime.Lib.Sum
import CharmRuntime.Quiescence.Qd

/-!
# Quiescence.Wave

**The two waves of quiescence detection.** The state of a wave is described by a
status for each PE (`Status`): not reached yet, asked, collecting reports, or
done. `WaveInv` says how stages, counters and messages in flight follow from the
statuses; only two things happen to them, a PE *opens* (asks its children) and a
PE *closes* (reports to its parent).

`Account` is about the first wave: the snapshots taken so far are all in the
sums or in reports in flight, so at the end the root has the whole sum.
-/

namespace CharmRuntime.Quiescence

open Lib Function List
open Multiset (coe_countP countP_add countP_pos mem_add mem_coe mem_cons_of_mem)

variable {P : Type} [DecidableEq P]

/-! ### Statuses -/

/-- Where a PE is in the current wave. -/
inductive Status
  | before
  | asked
  | collecting
  | after
  deriving DecidableEq

/-- How the statuses of a parent and its child fit together. -/
def Coherent : Status → Status → Prop
  | .before, c => c = .before
  | .asked, c => c = .before
  | .collecting, c => c ≠ .before
  | .after, c => c = .after

theorem Coherent.parent_collecting {a b : Status} (h : Coherent a b)
    (hb : b = .asked ∨ b = .collecting) : a = .collecting := by
  cases a <;> cases b <;> simp_all [Coherent]

/-- Requests of wave `k` in flight to `c`. -/
def requests (k : Nat) (c : P) (net : Multiset (P × QdMsg)) : Nat :=
  net.countP (fun q => q.1 = c ∧ q.2.phase + 1 = k)

/-- Reports of wave `k` in flight to `p`. -/
def reports (k : Nat) (p : P) (net : Multiset (P × QdMsg)) : Nat :=
  net.countP (fun q => q.1 = p ∧ q.2.phase = k)

/-- The children of `p` that have not reported yet. -/
def waiting (T : SpanTree P) (st : P → Status) (p : P) : Nat :=
  (T.children p).countP (fun c => st c ≠ .after)

section Counting

variable (k : Nat) (p : P) (net : Multiset (P × QdMsg)) (q : P × QdMsg)

@[simp] theorem requests_cons :
    requests k p (q ::ₘ net) = requests k p net + if q.1 = p ∧ q.2.phase + 1 = k then 1 else 0 := by
  unfold requests
  rw [Multiset.countP_cons]

@[simp] theorem reports_cons :
    reports k p (q ::ₘ net) = reports k p net + if q.1 = p ∧ q.2.phase = k then 1 else 0 := by
  unfold reports
  rw [Multiset.countP_cons]

@[simp] theorem requests_add (net' : Multiset (P × QdMsg)) :
    requests k p (net + net') = requests k p net + requests k p net' := by
  unfold requests
  rw [countP_add]

@[simp] theorem reports_add (net' : Multiset (P × QdMsg)) :
    reports k p (net + net') = reports k p net + reports k p net' := by
  unfold reports
  rw [countP_add]

end Counting

variable {net : Multiset (P × QdMsg)} {q : P × QdMsg}

theorem requests_pos {k : Nat} (h : q ∈ net) (hk : q.2.phase + 1 = k) : 0 < requests k q.1 net :=
  countP_pos.mpr ⟨q, h, rfl, hk⟩

theorem reports_pos {k : Nat} (h : q ∈ net) (hk : q.2.phase = k) : 0 < reports k q.1 net :=
  countP_pos.mpr ⟨q, h, rfl, hk⟩

theorem countP_propagate (T : SpanTree P) (p c : P) (m : QdMsg) (b : Prop) [Decidable b] :
    (propagate T p m).countP (fun q => q.1 = c ∧ b) = if c ∈ T.children p ∧ b then 1 else 0 := by
  unfold propagate
  rw [countP_map]
  by_cases hb : b
  · have hcount : countP ((fun q : P × QdMsg => decide (q.1 = c ∧ b)) ∘ fun c => (c, m))
        (T.children p) = (T.children p).count c := by
      apply countP_congr
      intro x _
      simp [hb]
    rw [hcount, Nodup.count (T.nodup_children p)]
    simp [hb]
  · simp [hb]

/-- The counters of a PE that is not collecting. -/
structure Cleared (s : QdState) : Prop where
  nReported : s.nReported = 0
  cCreated : s.cCreated = 0
  cProcessed : s.cProcessed = 0
  cDirty : s.cDirty = false

/-- What kinds of messages are in flight in wave `k`: calls of `CkStartQD`,
requests and reports. -/
def Shape (T : SpanTree P) (k : Nat) (q : P × QdMsg) : Prop :=
  (q.1 = T.root ∧ q.2.phase = 0) ∨ (q.1 ≠ T.root ∧ q.2.phase + 1 = k) ∨ (0 < k ∧ q.2.phase = k)

/-- **The wave invariant.** -/
structure WaveInv (T : SpanTree P) (k : Nat) (st : P → Status) (pe : P → QdState)
    (net : Multiset (P × QdMsg)) : Prop where
  wave : k ≤ 2
  root : st T.root = if k = 0 then .before else .collecting
  stage : ∀ p, (pe p).stage = if st p = .collecting then k else 0
  edge : ∀ c, c ≠ T.root → Coherent (st (T.parent c)) (st c)
  shape : ∀ q ∈ net, Shape T k q
  requests : ∀ c, c ≠ T.root → requests k c net = if st c = .asked then 1 else 0
  collecting : ∀ p, st p = .collecting →
    reports k p net + (pe p).nReported + waiting T st p = (T.children p).length + 1
  idle : ∀ p, st p ≠ .collecting → (0 < k → reports k p net = 0) ∧ Cleared (pe p)

/-- The moment at which `p`, asked in wave `k`, is about to open: its request is
consumed and its own state may be anything. -/
structure Opening (T : SpanTree P) (k : Nat) (st : P → Status) (p : P) (pe : P → QdState)
    (rest : Multiset (P × QdMsg)) : Prop where
  wave : k = 1 ∨ k = 2
  asked : st p = .asked
  root : p = T.root ∨ st T.root = .collecting
  stage : ∀ i, i ≠ p → (pe i).stage = if st i = .collecting then k else 0
  edge : ∀ c, c ≠ T.root → Coherent (st (T.parent c)) (st c)
  shape : ∀ q ∈ rest, Shape T k q
  requests : ∀ c, c ≠ T.root → requests k c rest = if st c = .asked ∧ c ≠ p then 1 else 0
  collecting : ∀ i, st i = .collecting →
    reports k i rest + (pe i).nReported + waiting T st i = (T.children i).length + 1
  idle : ∀ i, st i ≠ .collecting → reports k i rest = 0 ∧ (i ≠ p → Cleared (pe i))

/-- The statuses after `p` opened. -/
def openSt (T : SpanTree P) (st : P → Status) (p : P) : P → Status := fun i =>
  if i = p then .collecting else if i ∈ T.children p then .asked else st i

section Open

variable {T : SpanTree P} {k : Nat} {st : P → Status} {p : P} {pe : P → QdState}
  {rest : Multiset (P × QdMsg)}

theorem openSt_self : openSt T st p p = .collecting := by simp [openSt]

theorem openSt_child {c : P} (hc : c ∈ T.children p) : openSt T st p c = .asked := by
  have hne : c ≠ p := by
    rintro rfl
    exact T.self_not_mem c hc
  simp [openSt, hne, hc]

theorem openSt_other {i : P} (hi : i ≠ p) (hc : i ∉ T.children p) : openSt T st p i = st i := by
  simp [openSt, hi, hc]

theorem Opening.child_before (h : Opening T k st p pe rest) {c : P} (hc : c ∈ T.children p) :
    st c = .before := by
  have hedge := h.edge c (T.ne_root_of_mem hc)
  rw [T.parent_of_mem hc, h.asked] at hedge
  exact hedge

theorem Opening.edge_open (h : Opening T k st p pe rest) (c : P) (hc : c ≠ T.root) :
    Coherent (openSt T st p (T.parent c)) (openSt T st p c) := by
  have hedge := h.edge c hc
  by_cases hcp : T.parent c = p
  · -- a child of `p`: just asked
    have hmem : c ∈ T.children p := (T.mem_children p c).mpr ⟨hc, hcp⟩
    rw [hcp, openSt_self, openSt_child hmem]
    simp [Coherent]
  have hcmem : c ∉ T.children p := fun hm => hcp (T.parent_of_mem hm)
  by_cases hself : c = p
  · -- `p` itself: its parent collects
    subst hself
    have hpar := hedge.parent_collecting (.inl h.asked)
    have hnot : T.parent c ∉ T.children c := by
      intro hm
      rw [h.child_before hm] at hpar
      exact absurd hpar (by decide)
    rw [openSt_other (T.parent_ne hc) hnot, openSt_self, hpar]
    simp [Coherent]
  rw [openSt_other hself hcmem]
  by_cases hgrand : T.parent c ∈ T.children p
  · rw [h.child_before hgrand] at hedge
    rw [openSt_child hgrand]
    exact hedge
  · rw [openSt_other hcp hgrand]
    exact hedge

/-- Opening `p` changes nobody's number of missing children but its own. -/
theorem Opening.waiting_open (h : Opening T k st p pe rest) {i : P} (hi : i ≠ p) :
    waiting T (openSt T st p) i = waiting T st i := by
  apply countP_congr
  intro c hc
  have hcmem : c ∉ T.children p := fun hm =>
    hi ((T.parent_of_mem hc).symm.trans (T.parent_of_mem hm))
  by_cases hself : c = p
  · subst hself
    simp [openSt_self, h.asked]
  · rw [openSt_other hself hcmem]

theorem waiting_open_self : waiting T (openSt T st p) p = (T.children p).length := by
  unfold waiting
  rw [countP_eq_length]
  intro c hc
  simp [openSt_child hc]

theorem requests_open (c : P) (mreq mself : QdMsg) (hreq : mreq.phase + 1 = k)
    (hself : mself.phase = k) :
    requests k c ((propagate T p mreq ++ [(p, mself)] : List (P × QdMsg)) : Multiset (P × QdMsg)) =
      if c ∈ T.children p then 1 else 0 := by
  unfold requests
  rw [coe_countP, countP_append]
  have hprop : countP (fun q => decide (q.1 = c ∧ q.2.phase + 1 = k)) (propagate T p mreq) =
      countP (fun q => decide (q.1 = c ∧ True)) (propagate T p mreq) := by
    apply countP_congr
    intro q hq
    obtain ⟨x, -, rfl⟩ := mem_map.mp hq
    simp [hreq]
  rw [hprop, countP_propagate]
  have hne : ¬ mself.phase + 1 = k := by omega
  simp [hne]

theorem reports_open (i : P) (mreq mself : QdMsg) (hreq : mreq.phase + 1 = k)
    (hself : mself.phase = k) :
    reports k i ((propagate T p mreq ++ [(p, mself)] : List (P × QdMsg)) : Multiset (P × QdMsg)) =
      if i = p then 1 else 0 := by
  unfold reports
  rw [coe_countP, countP_append]
  have hprop : countP (fun q => decide (q.1 = i ∧ q.2.phase = k)) (propagate T p mreq) =
      countP (fun q => decide (q.1 = i ∧ False)) (propagate T p mreq) := by
    apply countP_congr
    intro q hq
    obtain ⟨x, -, rfl⟩ := mem_map.mp hq
    have hne : ¬ mreq.phase = k := by omega
    simp [hne]
  rw [hprop]
  by_cases hi : i = p
  · simp [hi, hself]
  · simp [hi, Ne.symm hi]

/-- **Opening.** -/
theorem Opening.open (h : Opening T k st p pe rest) {state : QdState} (hstage : state.stage = k)
    (hclear : Cleared state) {mreq mself : QdMsg} (hreq : mreq.phase + 1 = k)
    (hself : mself.phase = k) :
    WaveInv T k (openSt T st p) (update pe p state)
      (rest + ((propagate T p mreq ++ [(p, mself)] : List (P × QdMsg)) : Multiset
        (P × QdMsg))) where
  wave := by rcases h.wave with rfl | rfl <;> omega
  root := by
    have hk : k ≠ 0 := by rcases h.wave with rfl | rfl <;> decide
    rw [if_neg hk]
    rcases h.root with rfl | hroot
    · exact openSt_self
    · by_cases hp : T.root = p
      · rw [hp]; exact openSt_self
      · rw [openSt_other hp (fun hm => T.ne_root_of_mem hm rfl), hroot]
  stage i := by
    by_cases hi : i = p
    · subst hi
      simp [openSt_self, hstage]
    · rw [update_of_ne hi, h.stage i hi]
      by_cases hc : i ∈ T.children p
      · simp [openSt_child hc, h.child_before hc]
      · rw [openSt_other hi hc]
  edge := h.edge_open
  shape q hq := by
    have hk : 0 < k := by rcases h.wave with rfl | rfl <;> decide
    rcases mem_add.mp hq with hq | hq
    · exact h.shape q hq
    rcases mem_append.mp (mem_coe.mp hq) with hq | hq
    · obtain ⟨c, hc, rfl⟩ := mem_map.mp hq
      exact .inr (.inl ⟨T.ne_root_of_mem hc, hreq⟩)
    · rw [mem_singleton.mp hq]
      exact .inr (.inr ⟨hk, hself⟩)
  requests c hc := by
    rw [requests_add, h.requests c hc, requests_open c mreq mself hreq hself]
    by_cases hcp : c = p
    · subst hcp
      simp [openSt_self, T.self_not_mem]
    by_cases hmem : c ∈ T.children p
    · simp [openSt_child hmem, h.child_before hmem, hmem]
    · simp [openSt_other hcp hmem, hmem, hcp]
  collecting i hi := by
    rw [reports_add, reports_open i mreq mself hreq hself]
    by_cases hip : i = p
    · subst hip
      have hzero := (h.idle i (by rw [h.asked]; decide)).1
      rw [update_self, hclear.nReported, waiting_open_self, hzero]
      simp
      omega
    · have hst : st i = .collecting := by
        by_cases hmem : i ∈ T.children p
        · rw [openSt_child hmem] at hi
          exact absurd hi (by decide)
        · rwa [openSt_other hip hmem] at hi
      rw [update_of_ne hip, h.waiting_open hip, if_neg hip]
      exact h.collecting i hst
  idle i hi := by
    have hip : i ≠ p := by
      rintro rfl
      exact hi openSt_self
    have hst : st i ≠ .collecting := by
      by_cases hmem : i ∈ T.children p
      · rw [h.child_before hmem]; decide
      · rwa [openSt_other hip hmem] at hi
    obtain ⟨hrep, hcl⟩ := h.idle i hst
    rw [reports_add, reports_open i mreq mself hreq hself, hrep, if_neg hip, update_of_ne hip]
    exact ⟨fun _ => rfl, hcl hip⟩

end Open

/-! ### Reports -/

section Report

variable {T : SpanTree P} {k : Nat} {st : P → Status} {p : P} {m : QdMsg} {pe : P → QdState}
  {rest : Multiset (P × QdMsg)}

theorem WaveInv.asked_of_request (h : WaveInv T k st pe ((p, m) ::ₘ rest)) (hp : p ≠ T.root)
    (hm : m.phase + 1 = k) : st p = .asked := by
  have hreq := h.requests p hp
  rw [requests_cons, if_pos ⟨rfl, hm⟩] at hreq
  by_contra hne
  rw [if_neg hne] at hreq
  omega

theorem WaveInv.collecting_of_report (h : WaveInv T k st pe ((p, m) ::ₘ rest)) (hk : 0 < k)
    (hm : m.phase = k) : st p = .collecting := by
  by_contra hne
  have hrep := (h.idle p hne).1 hk
  rw [reports_cons, if_pos ⟨rfl, hm⟩] at hrep
  omega

theorem WaveInv.opening (h : WaveInv T k st pe ((p, m) ::ₘ rest)) (hp : p ≠ T.root)
    (hk : 0 < k) (hm : m.phase + 1 = k) : Opening T k st p pe rest := by
  have hst := h.asked_of_request hp hm
  have hne : ¬ m.phase = k := by omega
  have hrep : ∀ i, reports k i ((p, m) ::ₘ rest) = reports k i rest := by
    intro i
    rw [reports_cons, if_neg (fun hi => hne hi.2), add_zero]
  refine ⟨?_, hst, .inr ?_, fun i _ => h.stage i, h.edge,
    fun q hq => h.shape q (mem_cons_of_mem hq), ?_, ?_, ?_⟩
  · have := h.wave
    omega
  · rw [h.root, if_neg (by omega)]
  · intro c hc
    have hreq := h.requests c hc
    rw [requests_cons] at hreq
    by_cases hcp : c = p
    · subst hcp
      rw [if_pos ⟨rfl, hm⟩, if_pos hst] at hreq
      simpa using hreq
    · rw [if_neg (fun hi => hcp hi.1.symm)] at hreq
      simpa [hcp] using hreq
  · intro i hi
    rw [← hrep]
    exact h.collecting i hi
  · intro i hi
    obtain ⟨h1, h2⟩ := h.idle i hi
    rw [← hrep]
    exact ⟨h1 hk, fun _ => h2⟩

variable {pe : P → QdState} {state : QdState} {net : Multiset (P × QdMsg)}

theorem WaveInv.absorb (h : WaveInv T k st pe ((p, m) ::ₘ rest)) (hk : 0 < k) (hm : m.phase = k)
    (hstage : state.stage = (pe p).stage) (hrep : state.nReported = (pe p).nReported + 1) :
    WaveInv T k st (update pe p state) rest where
  wave := h.wave
  root := h.root
  stage i := by
    by_cases hi : i = p
    · subst hi
      rw [update_self, hstage, h.stage]
    · rw [update_of_ne hi, h.stage]
  edge := h.edge
  shape q hq := h.shape q (mem_cons_of_mem hq)
  requests c hc := by
    have hne : ¬ m.phase + 1 = k := by omega
    have hreq := h.requests c hc
    rwa [requests_cons, if_neg (fun hi => hne hi.2)] at hreq
  collecting i hi := by
    have hcol := h.collecting i hi
    rw [reports_cons] at hcol
    by_cases hip : i = p
    · subst hip
      rw [if_pos ⟨rfl, hm⟩] at hcol
      rw [update_self]
      omega
    · rw [if_neg (fun hc => hip hc.1.symm)] at hcol
      rwa [update_of_ne hip]
  idle i hi := by
    have hip : i ≠ p := fun he => hi (he ▸ h.collecting_of_report hk hm)
    obtain ⟨h1, h2⟩ := h.idle i hi
    rw [reports_cons, if_neg (fun hc => hip hc.1.symm)] at h1
    rw [update_of_ne hip]
    exact ⟨h1, h2⟩

/-- When the last report arrives, no child is missing and no other report is on
its way. -/
theorem WaveInv.last_report (h : WaveInv T k st pe ((p, m) ::ₘ rest)) (hk : 0 < k)
    (hm : m.phase = k) (hlast : (pe p).nReported = (T.children p).length) :
    reports k p rest = 0 ∧ ∀ c ∈ T.children p, st c = .after := by
  have hcol := h.collecting p (h.collecting_of_report hk hm)
  rw [reports_cons, if_pos ⟨rfl, hm⟩] at hcol
  have hwait : waiting T st p = 0 := by omega
  refine ⟨by omega, fun c hc => ?_⟩
  have hnot := countP_eq_zero.mp hwait c hc
  simpa using hnot

/-- **Closing.** The last report makes a PE report to its parent. -/
theorem WaveInv.close (h : WaveInv T k st pe ((p, m) ::ₘ rest)) (hp : p ≠ T.root) (hk : 0 < k)
    (hm : m.phase = k) (hlast : (pe p).nReported = (T.children p).length)
    (hstage : state.stage = 0) (hclear : Cleared state) {m' : QdMsg} (hm' : m'.phase = k) :
    WaveInv T k (update st p .after) (update pe p state)
      (rest + ([(T.parent p, m')] : List (P × QdMsg))) := by
  have hst := h.collecting_of_report hk hm
  obtain ⟨hzero, hkids⟩ := h.last_report hk hm hlast
  have hpar : st (T.parent p) = .collecting := (h.edge p hp).parent_collecting (.inr hst)
  have hne := T.parent_ne hp
  have hcoe : rest + ([(T.parent p, m')]) = (T.parent p, m') ::ₘ rest := by
    rw [Multiset.coe_singleton, add_comm, Multiset.singleton_add]
  have hrep : ∀ i, i ≠ p → reports k i ((p, m) ::ₘ rest) = reports k i rest := by
    intro i hi
    rw [reports_cons, if_neg (fun hc => hi hc.1.symm), add_zero]
  -- only the parent has one child less to wait for
  have hwait :
    ∀ i, waiting T st i = waiting T (update st p .after) i + if i = T.parent p then 1 else 0 := by
    intro i
    unfold waiting
    by_cases hi : i = T.parent p
    · subst hi
      obtain ⟨l1, l2, hl⟩ := append_of_mem (T.mem_children_parent hp)
      have hnd := T.nodup_children (T.parent p)
      rw [hl] at hnd ⊢
      have hmem : p ∉ l1 ∧ p ∉ l2 := by
        rw [nodup_append, nodup_cons] at hnd
        exact ⟨fun h1 => hnd.2.2 p h1 p (mem_cons_self) rfl, hnd.2.1.1⟩
      have hsame : ∀ l : List P, p ∉ l → l.countP (fun c => decide (st c ≠ .after)) =
          l.countP (fun c => decide (update st p .after c ≠ .after)) := by
        intro l hl
        apply countP_congr
        intro c hc
        rw [update_of_ne (fun he : c = p => hl (he ▸ hc))]
      simp only [countP_append, countP_cons, hsame l1 hmem.1, hsame l2 hmem.2, hst]
      simp
      omega
    · rw [if_neg hi]
      apply countP_congr
      intro c hc
      rw [update_of_ne (fun he => hi (by rw [← he, T.parent_of_mem hc]))]
  rw [hcoe]
  refine ⟨h.wave, ?_, ?_, ?_, ?_, ?_, ?_, ?_⟩
  · rw [update_of_ne (symm hp), h.root]
  · intro i
    by_cases hi : i = p
    · subst hi
      simp [hstage]
    · rw [update_of_ne hi, update_of_ne hi, h.stage]
  · intro c hc
    have hedge := h.edge c hc
    by_cases hcp : c = p
    · subst hcp
      rw [update_of_ne hne, hpar]
      simp [Coherent]
    · rw [update_of_ne hcp]
      by_cases hpp : T.parent c = p
      · have hmem : c ∈ T.children p := (T.mem_children p c).mpr ⟨hc, hpp⟩
        rw [hpp, update_self, hkids c hmem]
        rfl
      · rwa [update_of_ne hpp]
  · intro q hq
    rcases Multiset.mem_cons.mp hq with rfl | hq
    · exact .inr (.inr ⟨hk, hm'⟩)
    · exact h.shape q (mem_cons_of_mem hq)
  · intro c hc
    have hne1 : ¬ m.phase + 1 = k := by omega
    have hne2 : ¬ m'.phase + 1 = k := by omega
    have hreq := h.requests c hc
    rw [requests_cons, if_neg (fun hi => hne1 hi.2), add_zero] at hreq
    rw [requests_cons, if_neg (fun hi => hne2 hi.2), add_zero, hreq]
    by_cases hcp : c = p
    · subst hcp
      simp [hst]
    · rw [update_of_ne hcp]
  · intro i hi
    have hip : i ≠ p := by
      rintro rfl
      rw [update_self] at hi
      exact absurd hi (by decide)
    rw [update_of_ne hip] at hi
    have hcol := h.collecting i hi
    rw [hrep i hip, hwait i] at hcol
    rw [reports_cons, update_of_ne hip]
    by_cases hpi : i = T.parent p
    · rw [if_pos hpi] at hcol
      rw [if_pos ⟨hpi.symm, hm'⟩]
      omega
    · rw [if_neg hpi] at hcol
      rw [if_neg (fun hc => hpi hc.1.symm)]
      omega
  · intro i hi
    by_cases hip : i = p
    · subst hip
      rw [reports_cons, hzero, if_neg (fun hc => hne hc.1), update_self]
      exact ⟨fun _ => rfl, hclear⟩
    · rw [update_of_ne hip] at hi
      obtain ⟨h1, h2⟩ := h.idle i hi
      rw [hrep i hip] at h1
      have hpi : i ≠ T.parent p := fun he => hi (he ▸ hpar)
      rw [reports_cons, if_neg (fun hc => hpi hc.1.symm), update_of_ne hip]
      exact ⟨h1, h2⟩

/-- **The end of a wave.** When the root has all its reports, every other PE is
done and only calls of `CkStartQD` are in flight. -/
theorem WaveInv.wave_over (h : WaveInv T k st pe ((T.root, m) ::ₘ rest)) (hk : 0 < k)
    (hm : m.phase = k) (hlast : (pe T.root).nReported = (T.children T.root).length) :
    (∀ c, c ≠ T.root → st c = .after) ∧ ∀ q ∈ rest, q.1 = T.root ∧ q.2.phase = 0 := by
  obtain ⟨hzero, hkids⟩ := h.last_report hk hm hlast
  have hall : ∀ c, c ≠ T.root → st c = .after := by
    refine T.induction (fun hc => absurd rfl hc) ?_
    intro c hc ih _
    by_cases hpar : T.parent c = T.root
    · exact hkids c ((T.mem_children T.root c).mpr ⟨hc, hpar⟩)
    · have hedge := h.edge c hc
      rw [ih hpar] at hedge
      exact hedge
  refine ⟨hall, fun q hq => ?_⟩
  rcases h.shape q (mem_cons_of_mem hq) with hs | ⟨hne, hph⟩ | ⟨-, hph⟩
  · exact hs
  · have hreq := h.requests q.1 hne
    rw [hall q.1 hne, if_neg (by decide), requests_cons] at hreq
    have := requests_pos hq hph
    omega
  · have hpos := reports_pos hq hph
    by_cases hroot : q.1 = T.root
    · rw [hroot] at hpos
      omega
    · have hidle := (h.idle q.1 (by rw [hall q.1 hroot]; decide)).1 hk
      rw [reports_cons] at hidle
      omega

/-- With only calls of `CkStartQD` in flight and every other PE at rest, the root
may open a wave. -/
theorem opening_root (hk : k = 1 ∨ k = 2) (hrest : ∀ q ∈ rest, q.1 = T.root ∧ q.2.phase = 0)
    (hpe : ∀ i, i ≠ T.root → (pe i).stage = 0 ∧ Cleared (pe i)) :
    Opening T k (fun i => if i = T.root then .asked else .before) T.root pe rest := by
  have hreq : ∀ c, c ≠ T.root → requests k c rest = 0 := by
    intro c hc
    refine Multiset.countP_eq_zero.mpr fun q hq hcond => hc ?_
    rw [← hcond.1, (hrest q hq).1]
  have hrep : ∀ i, reports k i rest = 0 := by
    intro i
    refine Multiset.countP_eq_zero.mpr fun q hq hcond => ?_
    have := (hrest q hq).2
    rcases hk with rfl | rfl <;> omega
  refine ⟨hk, by simp, .inl rfl, ?_, ?_, fun q hq => .inl (hrest q hq), ?_, ?_, ?_⟩
  · intro i hi
    simp [hi, (hpe i hi).1]
  · intro c hc
    by_cases hp : T.parent c = T.root <;> simp [hc, hp, Coherent]
  · intro c hc
    simp [hreq c hc]
  · intro i hi
    by_cases hr : i = T.root <;> simp [hr] at hi
  · intro i _
    exact ⟨hrep i, fun hi => (hpe i hi).2⟩

/-- Two states that a wave cannot tell apart. -/
structure SameWave (a b : QdState) : Prop where
  stage : a.stage = b.stage
  nReported : a.nReported = b.nReported
  cCreated : a.cCreated = b.cCreated
  cProcessed : a.cProcessed = b.cProcessed
  cDirty : a.cDirty = b.cDirty

theorem SameWave.refl (a : QdState) : SameWave a a := ⟨rfl, rfl, rfl, rfl, rfl⟩

theorem sameWave_update {p : P}
    (h : SameWave state (pe p)) (i : P) : SameWave (update pe p state i) (pe i) := by
  by_cases hi : i = p
  · subst hi
    rwa [update_self]
  · rw [update_of_ne hi]
    exact SameWave.refl _

theorem WaveInv.congr {T : SpanTree P} {k : Nat} {st : P → Status} {pe' : P → QdState}
    (h : WaveInv T k st pe net) (hpe : ∀ i, SameWave (pe' i) (pe i)) :
    WaveInv T k st pe' net where
  wave := h.wave
  root := h.root
  stage p := (hpe p).stage.trans (h.stage p)
  edge := h.edge
  shape := h.shape
  requests := h.requests
  collecting p hp := by
    rw [(hpe p).nReported]
    exact h.collecting p hp
  idle p hp := by
    obtain ⟨h1, h2⟩ := h.idle p hp
    exact ⟨h1, (hpe p).nReported.trans h2.nReported, (hpe p).cCreated.trans h2.cCreated,
      (hpe p).cProcessed.trans h2.cProcessed, (hpe p).cDirty.trans h2.cDirty⟩

theorem WaveInv.before_of_zero (h : WaveInv T 0 st pe net) : ∀ i, st i = .before := by
  refine T.induction h.root ?_
  intro c hc ih
  have hedge := h.edge c hc
  rw [ih] at hedge
  exact hedge

theorem WaveInv.at_rest (h : WaveInv T 0 st pe net) :
    (∀ i, (pe i).stage = 0 ∧ Cleared (pe i)) ∧ ∀ q ∈ net, q.1 = T.root ∧ q.2.phase = 0 := by
  have hbefore := h.before_of_zero
  refine ⟨fun i => ?_, fun q hq => ?_⟩
  · have hne : st i ≠ .collecting := by rw [hbefore i]; decide
    refine ⟨?_, (h.idle i hne).2⟩
    rw [h.stage i, if_neg hne]
  · rcases h.shape q hq with hs | ⟨-, hph⟩ | ⟨hk, -⟩
    · exact hs
    · exact absurd hph (Nat.succ_ne_zero _)
    · exact absurd hk (lt_irrefl 0)

theorem WaveInv.asked_cleared
    (h : WaveInv T k st pe net) (hp : st p = .asked) : (pe p).stage = 0 ∧ Cleared (pe p) := by
  have hne : st p ≠ .collecting := by rw [hp]; decide
  refine ⟨?_, (h.idle p hne).2⟩
  rw [h.stage p, if_neg hne]

theorem openSt_root_ne_after (i : P) :
    openSt T (fun i => if i = T.root then .asked else .before) T.root i ≠ .after := by
  unfold openSt
  dsimp only
  split
  · decide
  split
  · decide
  · decide

end Report

/-! ### The first wave: where the snapshots are -/

section Account

variable [Fintype P]

/-- The PEs that have taken their snapshot in the current first wave. -/
def counted : Status → Bool
  | .before => false
  | .asked => false
  | .collecting => true
  | .after => true

/-- The sum of what the reports in flight carry. -/
def reportSum (f : QdMsg → Int) (net : Multiset (P × QdMsg)) : Int :=
  ((net.filter (fun q => q.2.phase = 1)).map (fun q => f q.2)).sum

/-- The snapshots `w` taken so far are all in the sums `c` or in reports in
flight. -/
def Account (w c : P → Int) (f : QdMsg → Int) (st : P → Status) (net : Multiset (P × QdMsg)) :
    Prop :=
  ∑ i, (if counted (st i) then w i else 0) = ∑ i, c i + reportSum f net

variable {f : QdMsg → Int} {q : P × QdMsg} {net : Multiset (P × QdMsg)} {st : P → Status}

omit [DecidableEq P] [Fintype P] in
theorem reportSum_cons (h : q.2.phase = 1) : reportSum f (q ::ₘ net) = f q.2 + reportSum f net := by
  simp [reportSum, h]

omit [DecidableEq P] [Fintype P] in
theorem reportSum_add (f : QdMsg → Int) (net net' : Multiset (P × QdMsg)) :
    reportSum f (net + net') = reportSum f net + reportSum f net' := by
  simp [reportSum]

omit [DecidableEq P] [Fintype P] in
theorem reportSum_eq_zero (h : ∀ q ∈ net, q.2.phase ≠ 1) : reportSum f net = 0 := by
  have hnil : net.filter (fun q => q.2.phase = 1) = 0 := by
    rw [Multiset.filter_eq_nil]
    exact h
  simp [reportSum, hnil]

omit [DecidableEq P] [Fintype P] in
theorem reportSum_singleton (q : P) {m : QdMsg} (h : m.phase = 1) :
    reportSum f (([(q, m)] : List (P × QdMsg)) : Multiset (P × QdMsg)) = f m := by
  rw [Multiset.coe_singleton, ← Multiset.cons_zero, reportSum_cons h]
  simp [reportSum]

omit [DecidableEq P] [Fintype P] in
theorem reportSum_open (f : QdMsg → Int) (T : SpanTree P) (p : P) {mreq mself : QdMsg}
    (hreq : mreq.phase ≠ 1) (hself : mself.phase = 1) :
    reportSum f ((propagate T p mreq ++ [(p, mself)] : List (P × QdMsg)) : Multiset (P × QdMsg)) =
      f mself := by
  rw [← Multiset.coe_add, reportSum_add, reportSum_eq_zero, reportSum_singleton p hself, zero_add]
  · intro q hq
    obtain ⟨c, -, rfl⟩ := mem_map.mp (Multiset.mem_coe.mp hq)
    exact hreq

variable {T : SpanTree P} {k : Nat} {st : P → Status} {p : P} {m : QdMsg} {pe : P → QdState}
  {rest : Multiset (P × QdMsg)} {w w' c c' : P → Int} {f : QdMsg → Int}

theorem Account.open (h : Account w c f st rest) (hop : Opening T k st p pe rest)
    (hw : ∀ i, i ≠ p → w' i = w i) (hc : ∀ i, c' i = c i) {mreq mself : QdMsg}
    (hreq : mreq.phase ≠ 1) (hself : mself.phase = 1) (hv : f mself = w' p) :
    Account w' c' f (openSt T st p)
      (rest + ((propagate T p mreq ++ [(p, mself)] : List (P × QdMsg)) : Multiset
        (P × QdMsg))) := by
  unfold Account at *
  have hleft : ∑ i, (if counted (openSt T st p i) then w' i else 0) =
      ∑ i, (if counted (st i) then w i else 0) + w' p := by
    rw [sum_eq_add_of_ne (g := fun i => if counted (st i) then w i else 0) p]
    · simp [openSt_self, hop.asked, counted]
    · intro i hi
      rw [hw i hi]
      by_cases hm : i ∈ T.children p
      · simp [openSt_child hm, hop.child_before hm, counted]
      · rw [openSt_other hi hm]
  rw [hleft, h, reportSum_add, reportSum_open f T p hreq hself, hv,
    Finset.sum_congr rfl (fun i _ => hc i)]
  ring

theorem Account.absorb (h : Account w c f st ((p, m) ::ₘ rest)) (hm : m.phase = 1)
    (hw : ∀ i, w' i = w i) (hc : ∀ i, i ≠ p → c' i = c i) (hv : c' p = c p + f m) :
    Account w' c' f st rest := by
  unfold Account at *
  rw [reportSum_cons hm] at h
  simp only [hw]
  rw [h, sum_eq_add_of_ne p hc, hv]
  ring

theorem Account.close (h : Account w c f st ((p, m) ::ₘ rest)) (hm : m.phase = 1)
    (hst : st p = .collecting) (hw : ∀ i, w' i = w i) (hc : ∀ i, i ≠ p → c' i = c i)
    (hzero : c' p = 0) {q : P} {m' : QdMsg} (hm' : m'.phase = 1) (hv : f m' = c p + f m) :
    Account w' c' f (update st p .after) (rest + ([(q, m')] : List (P × QdMsg))) := by
  unfold Account at *
  rw [reportSum_cons hm] at h
  have hcount : ∀ i, counted (update st p .after i) = counted (st i) := by
    intro i
    exact apply_update_eq (by rw [hst]; rfl) i
  simp only [hcount, hw]
  rw [h, reportSum_add, reportSum_singleton q hm', sum_eq_add_of_ne p hc, hv, hzero]
  ring

theorem Account.total (h : Account w c f st ((T.root, m) ::ₘ rest)) (hm : m.phase = 1)
    (hst : ∀ i, counted (st i)) (hc : ∀ i, i ≠ T.root → c i = 0)
    (hrest : ∀ q ∈ rest, q.2.phase ≠ 1) : ∑ i, w i = c T.root + f m := by
  unfold Account at h
  rw [reportSum_cons hm, reportSum_eq_zero hrest, sum_eq_of_ne T.root hc] at h
  simp only [hst, if_true] at h
  rw [h]
  ring

theorem account_root (hc : ∀ i, c i = 0) (hrest : ∀ q ∈ rest, q.2.phase ≠ 1) :
    Account w c f (fun i => if i = T.root then .asked else .before) rest := by
  unfold Account
  have hnone : ∀ i : P, counted (if i = T.root then Status.asked else .before) = false := by
    intro i
    split <;> rfl
  rw [reportSum_eq_zero hrest]
  simp [hnone, hc]

omit [DecidableEq P] in
theorem Account.congr {w w' c c' : P → Int} (h : Account w c f st net) (hw : ∀ i, w' i = w i)
    (hc : ∀ i, c' i = c i) : Account w' c' f st net := by
  obtain rfl : w' = w := funext hw
  obtain rfl : c' = c := funext hc
  exact h

omit [DecidableEq P] in
theorem Account.drop {w c : P → Int} {rest : Multiset (P × QdMsg)}
    (h : Account w c f st (q ::ₘ rest))
    (hq : q.2.phase ≠ 1) : Account w c f st rest := by
  unfold Account at *
  have hdrop : reportSum f (q ::ₘ rest) = reportSum f rest := by simp [reportSum, hq]
  rwa [hdrop] at h

end Account

end CharmRuntime.Quiescence
