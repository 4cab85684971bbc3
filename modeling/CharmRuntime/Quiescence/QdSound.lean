import CharmRuntime.Quiescence.Wave

/-!
# Quiescence.QdSound

**Safety of quiescence detection.** When PE 0 runs the stored callbacks, no
application message is in flight and no PE is handling one.

On top of the wave invariant, `Verdict` says that in the second wave the machine
is quiet already, or a PE is dirty and its dirtiness cannot get lost. It meets
the sums of the first wave where the second one starts: the sums agree there, so
if no PE worked since its snapshot, as many messages were processed as created.
-/

namespace CharmRuntime.Quiescence

open Lib Function List Option
open Multiset (coe_nil cons_erase mem_add mem_coe mem_cons mem_cons_of_mem)

variable {P : Type} [DecidableEq P]

/-! ### The invariant of the machine -/

/-- No application message in flight, nobody handling one. -/
def Quiet (s : System P) : Prop := s.app = 0 ∧ ∀ i, s.busy i = false

/-- Dirtiness on its way to the root. -/
def Flag (pe : P → QdState) (net : Multiset (P × QdMsg)) : Prop :=
  (∃ i, (pe i).cDirty = true) ∨ ∃ q ∈ net, q.2.phase = 2 ∧ q.2.getDirty = true

/-- In the second wave: all is quiet, or some PE worked since its mark and, if
it has reported, its report is not forgotten. -/
def Verdict (st : P → Status) (s : System P) : Prop :=
  Quiet s ∨ ∃ i, (s.pe i).oProcessed < (s.pe i).mProcessed ∧ (st i = .after → Flag s.pe s.net)

/-- The PEs whose snapshot belongs to the wave. -/
def Marked (k : Nat) (a : Status) : Prop := k = 2 ∨ k = 1 ∧ counted a = true

/-- The calls of `CkStartQD` with callback `id` in flight. -/
def starts (T : SpanTree P) (id : Nat) (net : Multiset (P × QdMsg)) : Nat :=
  net.countP (fun q => q.1 = T.root ∧ q.2.phase = 0 ∧ q.2.cb = id)

/-- Every callback is at one place: in flight, stored or run. -/
structure CbInv (T : SpanTree P) (s : System P) : Prop where
  stored : s.stored = s.fired.flatten ++ (s.pe T.root).callbacks
  once : ∀ id, starts T id s.net + s.stored.count id ≤ if id < s.nextCb then 1 else 0

/-- What holds of the application at all times. -/
structure AppInv [Fintype P] (s : System P) : Prop where
  conserved : ∑ i, (s.pe i).mCreated = ∑ i, (s.pe i).mProcessed + (s.app.card : Int)
  marks : ∀ i, (s.pe i).oProcessed ≤ (s.pe i).mProcessed

/-- A PE that has not worked since its snapshot has not created anything either. -/
def Snapshot (s : System P) (oCreated : P → Int) (i : P) : Prop :=
  (s.pe i).mProcessed = (s.pe i).oProcessed →
    (s.pe i).mCreated = oCreated i ∧ s.busy i = false

/-- **The invariant**, for wave `k`, statuses `st` and snapshots `oCreated` of
the created counts. -/
structure Inv [Fintype P] (T : SpanTree P) (k : Nat) (st : P → Status) (oCreated : P → Int)
    (s : System P) : Prop where
  wave : WaveInv T k st s.pe s.net
  created : k = 1 →
    Account oCreated (fun i => (s.pe i).cCreated) QdMsg.getCreated st s.net
  processed : k = 1 →
    Account (fun i => (s.pe i).oProcessed) (fun i => (s.pe i).cProcessed)
      QdMsg.getProcessed st s.net
  marked : ∀ i, Marked k (st i) → Snapshot s oCreated i
  verdict : k = 2 → Verdict st s
  app : AppInv s
  callbacks : CbInv T s

section Callbacks

variable {T : SpanTree P} {s : System P} {p : P} {m : QdMsg} {rest : Multiset (P × QdMsg)}

theorem starts_eq_zero {id : Nat} {net : Multiset (P × QdMsg)}
    (h : ∀ q ∈ net, ¬ (q.1 = T.root ∧ q.2.phase = 0)) : starts T id net = 0 :=
  Multiset.countP_eq_zero.mpr fun q hq hc => h q hq ⟨hc.1, hc.2.1⟩

theorem CbInv.keep (h : CbInv T s) (hnet : s.net = (p, m) ::ₘ rest) {o : Outcome P}
    (hstored : o.stored = []) (hfired : o.fired = [])
    (hcb : o.state.callbacks = (s.pe p).callbacks)
    (hsends : ∀ q ∈ o.sends, ¬ (q.1 = T.root ∧ q.2.phase = 0)) :
    CbInv T (s.install p rest o) := by
  refine ⟨?_, ?_⟩
  · have hroot := apply_update_eq hcb T.root
    simp only [System.install, hstored, hfired, append_nil, hroot, h.stored]
  · intro id
    have honce := h.once id
    rw [hnet] at honce
    have hle : starts T id rest ≤ starts T id ((p, m) ::ₘ rest) := by
      unfold starts
      rw [Multiset.countP_cons]
      omega
    have hzero : starts T id o.sends = 0 := starts_eq_zero hsends
    have hadd : starts T id (rest + o.sends) = starts T id rest := by
      unfold starts at hzero ⊢
      rw [Multiset.countP_add, hzero, add_zero]
    simp only [System.install, hstored, append_nil]
    omega

/-- The root stores the callback of a call of `CkStartQD`. -/
theorem CbInv.store (h : CbInv T s) (hnet : s.net = (T.root, m) ::ₘ rest) (hm : m.phase = 0)
    {o : Outcome P} (hstored : o.stored = [m.cb]) (hfired : o.fired = [])
    (hcb : o.state.callbacks = (s.pe T.root).callbacks ++ [m.cb])
    (hsends : ∀ q ∈ o.sends, ¬ (q.1 = T.root ∧ q.2.phase = 0)) :
    CbInv T (s.install T.root rest o) := by
  refine ⟨?_, ?_⟩
  · simp only [System.install, hstored, hfired, append_nil, update_self, hcb, h.stored,
      append_assoc]
  · intro id
    have honce := h.once id
    rw [hnet] at honce
    have hcons :
      starts T id ((T.root, m) ::ₘ rest) = starts T id rest + if m.cb = id then 1 else 0 := by
      unfold starts
      rw [Multiset.countP_cons]
      simp [hm]
    have hzero : starts T id o.sends = 0 := starts_eq_zero hsends
    have hadd : starts T id (rest + o.sends) = starts T id rest := by
      unfold starts at hzero ⊢
      rw [Multiset.countP_add, hzero, add_zero]
    have hcount :
      (s.stored ++ [m.cb]).count id = s.stored.count id + if m.cb = id then 1 else 0 := by
      rw [count_append, count_singleton]
      simp
    simp only [System.install, hstored, hadd]
    omega

end Callbacks

section Steps

variable [Fintype P] {T : SpanTree P} {k : Nat} {st : P → Status} {oCreated : P → Int}
  {s : System P} {p : P} {m : QdMsg} {rest : Multiset (P × QdMsg)}

theorem AppInv.install (h : AppInv s) {o : Outcome P}
    (hc : o.state.mCreated = (s.pe p).mCreated) (hp : o.state.mProcessed = (s.pe p).mProcessed)
    (ho : o.state.oProcessed ≤ o.state.mProcessed) : AppInv (s.install p rest o) := by
  refine ⟨?_, ?_⟩
  · have h1 := apply_update_eq hc
    have h2 := apply_update_eq hp
    simp only [System.install, h1, h2]
    exact h.conserved
  · intro i
    by_cases hi : i = p
    · subst hi
      simp only [System.install, update_self]
      exact ho
    · simp only [System.install, update_of_ne hi]
      exact h.marks i

omit [Fintype P] in
/-- The snapshot of another PE, and of the same one while its counters and mark
stay. -/
theorem Snapshot.install {i : P} (h : Snapshot s oCreated i) {o : Outcome P}
    (hc : o.state.mCreated = (s.pe p).mCreated) (hp : o.state.mProcessed = (s.pe p).mProcessed)
    (ho : i = p → o.state.oProcessed = (s.pe p).oProcessed) :
    Snapshot (s.install p rest o) oCreated i := by
  by_cases hi : i = p
  · subst hi
    unfold Snapshot
    simp only [System.install, update_self, hc, hp, ho rfl]
    exact h
  · unfold Snapshot
    simp only [System.install, update_of_ne hi]
    exact h

omit [DecidableEq P] [Fintype P] in
/-- The messages of an opening PE are not calls of `CkStartQD`. -/
theorem sends_open_ne_start {mreq mself : QdMsg} (hself : mself.phase ≠ 0) :
    ∀ q ∈ propagate T p mreq ++ [(p, mself)], ¬ (q.1 = T.root ∧ q.2.phase = 0) := by
  intro q hq hc
  rcases mem_append.mp hq with hq | hq
  · obtain ⟨c, hc', rfl⟩ := mem_map.mp hq
    exact T.ne_root_of_mem hc' hc.1
  · rw [mem_singleton.mp hq] at hc
    exact hself hc.2

/-- **A PE opens the first wave**: it takes its snapshot and marks. `state` is its
state when it does so. -/
theorem inv_bcastQD1 (hinv : AppInv s) (hop : Opening T 1 st p s.pe rest)
    (hbusy : s.busy p = false) {state : QdState} (hc : state.mCreated = (s.pe p).mCreated)
    (hp : state.mProcessed = (s.pe p).mProcessed)
    (hcreated : Account oCreated (fun i => if i = p then 0 else (s.pe i).cCreated)
      QdMsg.getCreated st rest)
    (hprocessed : Account (fun i => (s.pe i).oProcessed)
      (fun i => if i = p then 0 else (s.pe i).cProcessed) QdMsg.getProcessed st rest)
    (hmarked : ∀ i, counted (st i) = true → Snapshot s oCreated i)
    {o : Outcome P} (hstate : o.state = (state.markProcessed.reset).setStage 1)
    (hsends : o.sends = (bcastQD1 T p state m).sends)
    (hcb : CbInv T (s.install p rest o)) :
    Inv T 1 (openSt T st p) (update oCreated p (s.pe p).mCreated) (s.install p rest o) where
  wave := by
    simp only [System.install, hsends, hstate]
    exact hop.open rfl ⟨rfl, rfl, rfl, rfl⟩ rfl rfl
  created _ := by
    simp only [System.install, hsends, hstate]
    refine hcreated.open hop (fun i hi => update_of_ne hi _ _) ?_ (by simp [QdMsg.setPhase])
      rfl ?_
    · intro i
      by_cases hi : i = p
      · subst hi
        simp [QdState.setStage, QdState.reset]
      · simp [hi]
    · rw [update_self, ← hc]
      rfl
  processed _ := by
    simp only [System.install, hsends, hstate]
    refine hprocessed.open hop (fun i hi => by rw [update_of_ne hi]) ?_
      (by simp [QdMsg.setPhase]) rfl ?_
    · intro i
      by_cases hi : i = p
      · subst hi
        simp [QdState.setStage, QdState.reset]
      · simp [hi]
    · rw [update_self]
      rfl
  marked i hi := by
    by_cases hip : i = p
    · subst hip
      intro _
      simp only [System.install, update_self, hstate]
      exact ⟨hc, hbusy⟩
    · have hst : counted (st i) = true := by
        rcases hi with hi | ⟨-, hi⟩
        · exact absurd hi (by decide)
        by_cases hm : i ∈ T.children p
        · rw [openSt_child hm] at hi
          exact absurd hi (by decide)
        · rwa [openSt_other hip hm] at hi
      have hsnap := hmarked i hst
      unfold Snapshot at hsnap ⊢
      simp only [System.install, update_of_ne hip]
      exact hsnap
  verdict hk := absurd hk (by decide)
  app := hinv.install (by rw [hstate]; exact hc) (by rw [hstate]; exact hp)
    (by rw [hstate]; exact le_rfl)
  callbacks := hcb

/-- **A PE opens the second wave.** -/
theorem inv_bcastQD2 (hinv : AppInv s) (hcbs : CbInv T s) (hnet : s.net = (p, m) ::ₘ rest)
    (hop : Opening T 2 st p s.pe rest) {state : QdState}
    (hc : state.mCreated = (s.pe p).mCreated) (hp : state.mProcessed = (s.pe p).mProcessed)
    (ho : state.oProcessed = (s.pe p).oProcessed) (hcb : state.callbacks = (s.pe p).callbacks)
    (hmarked : ∀ i, Snapshot s oCreated i)
    (hverdict : Verdict (openSt T st p) (s.install p rest (bcastQD2 T p state m))) :
    Inv T 2 (openSt T st p) oCreated (s.install p rest (bcastQD2 T p state m)) where
  wave := hop.open rfl ⟨rfl, rfl, rfl, rfl⟩ rfl rfl
  created hk := absurd hk (by decide)
  processed hk := absurd hk (by decide)
  marked i _ := (hmarked i).install hc hp (fun _ => ho)
  verdict _ := hverdict
  app := hinv.install hc hp (by
    have hle := hinv.marks p
    rw [← hp, ← ho] at hle
    exact hle)
  callbacks := hcbs.keep hnet rfl rfl hcb (sends_open_ne_start (Nat.succ_ne_zero 1))

end Steps

/-! ### One detection message -/

omit [DecidableEq P] in
/-- Dirtiness stays visible if no sum forgets it and no report of it is
dropped. -/
theorem Flag.of_le {pe pe' : P → QdState} {net net' : Multiset (P × QdMsg)} (h : Flag pe net)
    (hpe : ∀ i, (pe i).cDirty = true → Flag pe' net')
    (hnet : ∀ q ∈ net, q.2.phase = 2 → q.2.getDirty = true → Flag pe' net') : Flag pe' net' := by
  rcases h with ⟨i, hi⟩ | ⟨q, hq, hph, hd⟩
  · exact hpe i hi
  · exact hnet q hq hph hd

section Install

variable {T : SpanTree P} {st st' : P → Status} {s : System P} {p : P} {m : QdMsg}
  {rest : Multiset (P × QdMsg)} {o : Outcome P}

/-- The dirtiness that is neither `p`'s nor that of the message stays where it is. -/
theorem Flag.install (h : Flag s.pe s.net) (hnet : s.net = (p, m) ::ₘ rest)
    (hpe : (s.pe p).cDirty = true → Flag (s.install p rest o).pe (s.install p rest o).net)
    (hm : m.phase = 2 → m.getDirty = true → Flag (s.install p rest o).pe (s.install p rest o).net) :
    Flag (s.install p rest o).pe (s.install p rest o).net := by
  refine h.of_le (fun j hj => ?_) fun q hq hph hd => ?_
  · by_cases hjp : j = p
    · exact hpe (hjp ▸ hj)
    · refine .inl ⟨j, ?_⟩
      simp only [System.install, update_of_ne hjp]
      exact hj
  · rw [hnet] at hq
    rcases mem_cons.mp hq with rfl | hq
    · exact hm hph hd
    · exact .inr ⟨q, mem_add.mpr (.inl hq), hph, hd⟩

/-- A PE that worked since its mark still has; only its report has to be seen to. -/
theorem Verdict.install (h : Verdict st s) (hp : o.state.mProcessed = (s.pe p).mProcessed)
    (ho : o.state.oProcessed = (s.pe p).oProcessed)
    (hflag : ∀ i, (s.pe i).oProcessed < (s.pe i).mProcessed → (st i = .after → Flag s.pe s.net) →
      st' i = .after → Flag (s.install p rest o).pe (s.install p rest o).net) :
    Verdict st' (s.install p rest o) := by
  rcases h with hquiet | ⟨i, hdirty, hold⟩
  · exact .inl hquiet
  refine .inr ⟨i, ?_, hflag i hdirty hold⟩
  have h1 := apply_update_eq ho i
  have h2 := apply_update_eq hp i
  simp only [System.install, h1, h2]
  exact hdirty

end Install

section Deliver

variable [Fintype P] {T : SpanTree P} {k : Nat} {st : P → Status} {oCreated : P → Int}
  {s : System P} {p : P} {m : QdMsg} {rest : Multiset (P × QdMsg)}

/-- What handling one detection message gives: the handler returns, the
invariant holds again, and callbacks are run only by the root and only when all
is quiet. -/
def Handled (T : SpanTree P) (s : System P) (p : P) (m : QdMsg) (rest : Multiset (P × QdMsg)) :
    Prop :=
  ∃ o, callWhenIdle T p (s.pe p) m = .ok o ∧
    (∃ k st oCreated, Inv T k st oCreated (s.install p rest o)) ∧
    (o.fired = [] ∨
      Quiet s ∧ p = T.root ∧ o.fired = [(s.pe T.root).callbacks] ∧ o.stored = [])

/-- A report finds the PE in its wave. -/
theorem Inv.of_report (h : Inv T k st oCreated s) (hnet : s.net = (p, m) ::ₘ rest) (hk : 0 < k)
    (hm : m.phase = k) : WaveInv T k st s.pe ((p, m) ::ₘ rest) ∧ st p = .collecting ∧
      (s.pe p).stage = k := by
  have hwave := h.wave
  rw [hnet] at hwave
  have hst := hwave.collecting_of_report hk hm
  exact ⟨hwave, hst, by rw [h.wave.stage, if_pos hst]⟩

/-- The last report of a wave leaves the other PEs at rest. -/
theorem Inv.wave_over (h : Inv T k st oCreated s) (hnet : s.net = (T.root, m) ::ₘ rest) (hk : 0 < k)
    (hm : m.phase = k) (hlast : (s.pe T.root).nReported = (T.children T.root).length) :
    (∀ i, i ≠ T.root → st i = .after) ∧ (∀ q ∈ rest, q.1 = T.root ∧ q.2.phase = 0) ∧
      ∀ i, i ≠ T.root → (s.pe i).stage = 0 ∧ Cleared (s.pe i) := by
  obtain ⟨hwave, -, -⟩ := h.of_report hnet hk hm
  obtain ⟨hafter, hrest⟩ := hwave.wave_over hk hm hlast
  refine ⟨hafter, hrest, fun i hi => ?_⟩
  have hnot : st i ≠ .collecting := by rw [hafter i hi]; decide
  refine ⟨?_, (h.wave.idle i hnot).2⟩
  rw [h.wave.stage i, if_neg hnot]

omit [DecidableEq P] [Fintype P] in
theorem phase_ne_one (hrest : ∀ q ∈ rest, q.1 = T.root ∧ q.2.phase = 0) :
    ∀ q ∈ rest, q.2.phase ≠ 1 := by
  intro q hq
  rw [(hrest q hq).2]
  decide

/-- **The root starts the first wave**, or starts it over: nothing of a wave is left. -/
theorem inv_root_bcastQD1 (happ : AppInv s) (hrest : ∀ q ∈ rest, q.1 = T.root ∧ q.2.phase = 0)
    (hpe : ∀ i, i ≠ T.root → (s.pe i).stage = 0 ∧ Cleared (s.pe i))
    (hbusy : s.busy T.root = false) {state : QdState} (hc : state.mCreated = (s.pe T.root).mCreated)
    (hp : state.mProcessed = (s.pe T.root).mProcessed) {o : Outcome P}
    (hstate : o.state = (state.markProcessed.reset).setStage 1)
    (hsends : o.sends = (bcastQD1 T T.root state m).sends)
    (hcb : CbInv T (s.install T.root rest o)) :
    ∃ k st oCreated, Inv T k st oCreated (s.install T.root rest o) := by
  have hop := opening_root (T := T) (.inl rfl) hrest hpe
  have hzero : ∀ (f : QdState → Int), (∀ i, i ≠ T.root → f (s.pe i) = 0) →
      ∀ i, (if i = T.root then 0 else f (s.pe i)) = 0 := by
    intro f hf i
    split
    · rfl
    · next hi => exact hf i hi
  have hne := phase_ne_one hrest
  refine ⟨1, _, _, inv_bcastQD1 happ hop hbusy hc hp
    (account_root (w := fun _ => 0) (hzero _ fun i hi => (hpe i hi).2.cCreated) hne)
    (account_root (hzero _ fun i hi => (hpe i hi).2.cProcessed) hne) ?_ hstate hsends hcb⟩
  intro i hi
  by_cases hr : i = T.root <;> simp [hr, counted] at hi

/-- The root gets a call of `CkStartQD` while it is idle: the first wave starts. -/
theorem Inv.start_idle (h : Inv T 0 st oCreated s) (hnet : s.net = (T.root, m) ::ₘ rest)
    (hm : m.phase = 0) (hbusy : s.busy T.root = false) : Handled T s T.root m rest := by
  obtain ⟨hpe, hq⟩ := h.wave.at_rest
  rw [hnet] at hq
  have hstage : (s.pe T.root).stage = 0 := (hpe T.root).1
  refine ⟨{ bcastQD1 T T.root ((s.pe T.root).enq m.cb) m with stored := [m.cb] }, ?_, ?_, .inl rfl⟩
  · simp [callWhenIdle, hm, handlePhase0, hstage, QdState.enq]
  · exact inv_root_bcastQD1 h.app (fun q hq' => hq q (mem_cons_of_mem hq')) (fun i _ => hpe i) hbusy
      (show ((s.pe T.root).enq m.cb).mCreated = _ from rfl) rfl rfl rfl
      (h.callbacks.store hnet hm rfl rfl rfl (sends_open_ne_start one_ne_zero))

/-- The root gets a call of `CkStartQD` during a detection: it only stores the
callback. -/
theorem Inv.start_busy (h : Inv T k st oCreated s) (hk : 0 < k)
    (hnet : s.net = (T.root, m) ::ₘ rest) (hm : m.phase = 0) : Handled T s T.root m rest := by
  have hroot : st T.root = .collecting := by rw [h.wave.root, if_neg (by omega)]
  have hstage : (s.pe T.root).stage = k := by rw [h.wave.stage, if_pos hroot]
  have hsame : ∀ i, SameWave (update s.pe T.root ((s.pe T.root).enq m.cb) i) (s.pe i) :=
    sameWave_update ⟨rfl, rfl, rfl, rfl, rfl⟩
  have hwave := h.wave
  rw [hnet] at hwave
  refine ⟨{ state := (s.pe T.root).enq m.cb, sends := [], stored := [m.cb], fired := [] }, ?_,
    ?_, .inl rfl⟩
  · have hne : (s.pe T.root).stage ≠ 0 := by omega
    simp [callWhenIdle, hm, handlePhase0, QdState.enq, hne]
  refine ⟨k, st, oCreated, ?_, ?_, ?_, ?_, ?_, ?_, ?_⟩
  · -- the wave does not see the call
    refine WaveInv.congr (?_ : WaveInv T k st s.pe (rest + 0)) hsame
    rw [add_zero]
    refine ⟨hwave.wave, hwave.root, hwave.stage, hwave.edge,
      fun q hq => hwave.shape q (mem_cons_of_mem hq), ?_, ?_, ?_⟩
    · intro c hc
      have hreq := hwave.requests c hc
      rwa [requests_cons, if_neg (fun hi => hc hi.1.symm), add_zero] at hreq
    · intro i hi
      have hcol := hwave.collecting i hi
      rwa [reports_cons, if_neg (fun hc => by have := hc.2; simp only [hm] at this; omega),
        add_zero] at hcol
    · intro i hi
      obtain ⟨h1, h2⟩ := hwave.idle i hi
      rw [reports_cons] at h1
      exact ⟨fun hk' => by have := h1 hk'; omega, h2⟩
  · intro hk1
    have hacc := h.created hk1
    rw [hnet] at hacc
    simp only [System.install, coe_nil, add_zero]
    exact (hacc.drop (by simp [hm])).congr (fun _ => rfl) (fun i => (hsame i).cCreated)
  · intro hk1
    have hacc := h.processed hk1
    rw [hnet] at hacc
    simp only [System.install, coe_nil, add_zero]
    exact (hacc.drop (by simp [hm])).congr (apply_update_eq rfl) (fun i => (hsame i).cProcessed)
  · intro i hi
    exact (h.marked i hi).install rfl rfl (fun _ => rfl)
  · intro hk2
    refine (h.verdict hk2).install rfl rfl fun i _ hold hi => (hold hi).install hnet ?_ ?_
    · exact fun hd => .inl ⟨T.root, (hsame T.root).cDirty.trans hd⟩
    · exact fun hph => absurd hph (by simp [hm])
  · exact h.app.install rfl rfl (h.app.marks T.root)
  · exact h.callbacks.store hnet hm rfl rfl rfl (by simp)

theorem Inv.request_first (h : Inv T 1 st oCreated s) (hnet : s.net = (p, m) ::ₘ rest)
    (hp : p ≠ T.root) (hm : m.phase = 0) (hbusy : s.busy p = false) : Handled T s p m rest := by
  have hwave := h.wave
  rw [hnet] at hwave
  have hop := hwave.opening hp one_pos (by omega)
  obtain ⟨hstage, hclear⟩ := hwave.asked_cleared hop.asked
  have hcreated := h.created rfl
  have hprocessed := h.processed rfl
  rw [hnet] at hcreated hprocessed
  refine ⟨bcastQD1 T p (s.pe p) m, ?_, ?_, .inl rfl⟩
  · simp [callWhenIdle, hm, handlePhase0, hstage, hp, bcastQD1]
  · refine ⟨1, _, _, inv_bcastQD1 h.app hop hbusy rfl rfl
      ((hcreated.drop (by simp [hm])).congr (fun _ => rfl) ?_)
      ((hprocessed.drop (by simp [hm])).congr (fun _ => rfl) ?_)
      (fun i hi => h.marked i (.inr ⟨rfl, hi⟩)) rfl rfl ?_⟩
    · intro i
      by_cases hi : i = p
      · simp [hi, hclear.cCreated]
      · simp [hi]
    · intro i
      by_cases hi : i = p
      · simp [hi, hclear.cProcessed]
      · simp [hi]
    · exact h.callbacks.keep hnet rfl rfl rfl (sends_open_ne_start one_ne_zero)

theorem Inv.request_second (h : Inv T 2 st oCreated s) (hnet : s.net = (p, m) ::ₘ rest)
    (hp : p ≠ T.root) (hm : m.phase = 1) : Handled T s p m rest := by
  have hwave := h.wave
  rw [hnet] at hwave
  have hop := hwave.opening hp two_pos (by omega)
  obtain ⟨hstage, hclear⟩ := hwave.asked_cleared hop.asked
  refine ⟨bcastQD2 T p (s.pe p) m, ?_, ?_, .inl rfl⟩
  · simp [callWhenIdle, hm, handlePhase1, hstage, hp]
  refine ⟨2, _, _, inv_bcastQD2 h.app h.callbacks hnet hop rfl rfl rfl rfl
    (fun i => h.marked i (.inl rfl)) ?_⟩
  refine (h.verdict rfl).install rfl rfl fun i _ hold hi => ?_
  -- the PE that opens holds no dirtiness of others
  have hip : i ≠ p := by
    rintro rfl
    rw [openSt_self] at hi
    exact absurd hi (by decide)
  have hst : st i = .after := by
    by_cases hmem : i ∈ T.children p
    · rw [openSt_child hmem] at hi
      exact absurd hi (by decide)
    · rwa [openSt_other hip hmem] at hi
  refine (hold hst).install hnet (fun hd => ?_) fun hph => absurd hph (by simp [hm])
  rw [hclear.cDirty] at hd
  exact absurd hd (by decide)

/-- The state of a PE after it counted a report of the first wave. -/
def addReport (state : QdState) (m : QdMsg) : QdState :=
  ((state.subtreeCreate m.getCreated).subtreeProcess m.getProcessed).reported

theorem allReported_addReport (state : QdState) (m : QdMsg) (n : Nat) :
    (addReport state m).allReported n = (state.nReported == n) := by
  simp [QdState.allReported, addReport, QdState.reported, QdState.subtreeProcess,
    QdState.subtreeCreate]

theorem Inv.report_first (h : Inv T 1 st oCreated s) (hnet : s.net = (p, m) ::ₘ rest)
    (hm : m.phase = 1) (hnot : (s.pe p).nReported ≠ (T.children p).length) :
    Handled T s p m rest := by
  obtain ⟨hwave, hst, hstage⟩ := h.of_report hnet one_pos hm
  have hcreated := h.created rfl
  have hprocessed := h.processed rfl
  rw [hnet] at hcreated hprocessed
  refine ⟨quiet (addReport (s.pe p) m), ?_, ?_, .inl rfl⟩
  · have hall : (addReport (s.pe p) m).allReported (T.children p).length = false :=
      (allReported_addReport ..).trans (beq_false_of_ne hnot)
    unfold addReport at hall ⊢
    simp only [callWhenIdle, hm, handlePhase1, hstage, hall]
    rfl
  refine ⟨1, st, oCreated, ?_, ?_, ?_, ?_, ?_, ?_, ?_⟩
  · simp only [System.install, quiet, coe_nil, add_zero]
    exact hwave.absorb one_pos hm rfl rfl
  · intro _
    simp only [System.install, quiet, coe_nil, add_zero]
    refine hcreated.absorb hm (fun _ => rfl) (fun i hi => by rw [update_of_ne hi]) ?_
    rw [update_self]
    rfl
  · intro _
    simp only [System.install, quiet, coe_nil, add_zero]
    refine hprocessed.absorb hm (apply_update_eq rfl) (fun i hi => by rw [update_of_ne hi]) ?_
    rw [update_self]
    rfl
  · intro i hi
    exact (h.marked i hi).install rfl rfl (fun _ => rfl)
  · intro hk
    exact absurd hk (by decide)
  · exact h.app.install rfl rfl (h.app.marks p)
  · exact h.callbacks.keep hnet rfl rfl rfl (by simp [quiet])

theorem Inv.last_first (h : Inv T 1 st oCreated s) (hnet : s.net = (p, m) ::ₘ rest)
    (hp : p ≠ T.root) (hm : m.phase = 1) (hlast : (s.pe p).nReported = (T.children p).length) :
    Handled T s p m rest := by
  obtain ⟨hwave, hst, hstage⟩ := h.of_report hnet one_pos hm
  have hcreated := h.created rfl
  have hprocessed := h.processed rfl
  rw [hnet] at hcreated hprocessed
  set state := addReport (s.pe p) m with hstate
  refine ⟨reportUp T p state ((m.setCreated state.cCreated).setProcessed state.cProcessed), ?_,
    ?_, .inl rfl⟩
  · have hall : state.allReported (T.children p).length = true :=
      (allReported_addReport ..).trans (beq_iff_eq.mpr hlast)
    unfold addReport at hstate
    simp only [callWhenIdle, hm, handlePhase1, hstage, ← hstate, hall, if_pos, if_neg hp]
  refine ⟨1, update st p .after, oCreated, ?_, ?_, ?_, ?_, ?_, ?_, ?_⟩
  · exact hwave.close hp one_pos hm hlast rfl ⟨rfl, rfl, rfl, rfl⟩ hm
  · intro _
    refine hcreated.close hm hst (fun _ => rfl) (fun i hi => ?_) ?_ hm rfl
    · simp only [System.install, update_of_ne hi]
    · simp only [System.install, update_self]
      rfl
  · intro _
    have hphase : ((m.setCreated state.cCreated).setProcessed state.cProcessed).phase = 1 := hm
    have hmark : ∀ i, (update s.pe p ((state.reset).setStage 0) i).oProcessed =
        (s.pe i).oProcessed := apply_update_eq rfl
    refine hprocessed.close hm hst hmark (fun i hi => ?_) ?_ hphase rfl
    · simp only [System.install, update_of_ne hi]
    · simp only [System.install, update_self]
      rfl
  · intro i hi
    refine (h.marked i ?_).install rfl rfl (fun _ => rfl)
    rcases hi with hi | ⟨h1, hi⟩
    · exact absurd hi (by decide)
    · refine .inr ⟨h1, ?_⟩
      rwa [apply_update_eq (f := counted) (by rw [hst]; rfl)] at hi
  · intro hk
    exact absurd hk (by decide)
  · exact h.app.install rfl rfl (h.app.marks p)
  · refine h.callbacks.keep hnet rfl rfl rfl ?_
    intro q hq hc
    rw [mem_singleton.mp hq] at hc
    exact absurd (hm.symm.trans hc.2) (by decide)

/-- **The end of the first wave.** Either the sums agree and the second wave
starts, or the first one starts over. -/
theorem Inv.root_first (h : Inv T 1 st oCreated s) (hnet : s.net = (T.root, m) ::ₘ rest)
    (hm : m.phase = 1) (hlast : (s.pe T.root).nReported = (T.children T.root).length)
    (hbusy : s.busy T.root = false) : Handled T s T.root m rest := by
  obtain ⟨hwave, hst, hstage⟩ := h.of_report hnet one_pos hm
  obtain ⟨hafter, hrest, hpe⟩ := h.wave_over hnet one_pos hm hlast
  have hne := phase_ne_one hrest
  have hcounted : ∀ i, counted (st i) = true := by
    intro i
    by_cases hi : i = T.root
    · rw [hi, hst]; rfl
    · rw [hafter i hi]; rfl
  set state := addReport (s.pe T.root) m with hstate
  have hall : state.allReported (T.children T.root).length = true :=
    (allReported_addReport ..).trans (beq_iff_eq.mpr hlast)
  have hcall : callWhenIdle T T.root (s.pe T.root) m =
      if state.cCreated = state.cProcessed then .ok (bcastQD2 T T.root state m)
      else .ok (bcastQD1 T T.root state m) := by
    unfold addReport at hstate
    simp only [callWhenIdle, hm, handlePhase1, hstage, ← hstate, hall, if_pos]
  by_cases heq : state.cCreated = state.cProcessed
  · rw [if_pos heq] at hcall
    have hop := opening_root (T := T) (k := 2) (.inr rfl) hrest hpe
    refine ⟨_, hcall, ⟨2, _, oCreated, inv_bcastQD2 h.app h.callbacks hnet hop rfl rfl rfl rfl
      (fun i => h.marked i (.inr ⟨rfl, hcounted i⟩)) ?_⟩, .inl rfl⟩
    -- the snapshots agree: if nobody worked since, nothing is in flight
    have hcreated := h.created rfl
    have hprocessed := h.processed rfl
    rw [hnet] at hcreated hprocessed
    have h1 := hcreated.total hm hcounted (fun i hi => (hpe i hi).2.cCreated) hne
    have h2 := hprocessed.total hm hcounted (fun i hi => (hpe i hi).2.cProcessed) hne
    have hsums : ∑ i, oCreated i = ∑ i, (s.pe i).oProcessed := by
      rw [h1, h2]
      exact heq
    by_cases hclean : ∀ i, (s.pe i).mProcessed = (s.pe i).oProcessed
    · have hsnap : ∀ i, (s.pe i).mCreated = oCreated i ∧ s.busy i = false :=
        fun i => h.marked i (.inr ⟨rfl, hcounted i⟩) (hclean i)
      have hcons := h.app.conserved
      rw [Finset.sum_congr rfl (fun i _ => (hsnap i).1),
        Finset.sum_congr rfl (fun i _ => hclean i), hsums] at hcons
      have hcard : s.app.card = 0 := by omega
      exact .inl ⟨Multiset.card_eq_zero.mp hcard, fun i => (hsnap i).2⟩
    · obtain ⟨i, hi⟩ := not_forall.mp hclean
      refine .inr ⟨i, ?_, fun hafter' => ?_⟩
      · have hle := h.app.marks i
        have hlt : (s.pe i).oProcessed < (s.pe i).mProcessed := lt_of_le_of_ne hle (symm hi)
        by_cases hir : i = T.root
        · subst hir
          simp only [System.install, update_self]
          exact hlt
        · simp only [System.install, update_of_ne hir]
          exact hlt
      · exact absurd hafter' (openSt_root_ne_after i)
  · rw [if_neg heq] at hcall
    exact ⟨_, hcall, inv_root_bcastQD1 h.app hrest hpe hbusy
      (show state.mCreated = _ from rfl) rfl rfl rfl
      (h.callbacks.keep hnet rfl rfl rfl (sends_open_ne_start one_ne_zero)), .inl rfl⟩

/-- The state of a PE after it counted a report of the second wave. -/
def addDirty (state : QdState) (m : QdMsg) : QdState :=
  (state.subtreeSetDirty m.getDirty).reported

theorem allReported_addDirty (state : QdState) (m : QdMsg) (n : Nat) :
    (addDirty state m).allReported n = (state.nReported == n) := by
  simp [QdState.allReported, addDirty, QdState.reported, QdState.subtreeSetDirty]

theorem cDirty_addDirty (state : QdState) (m : QdMsg) :
    (addDirty state m).cDirty = (state.cDirty || m.getDirty) := rfl

theorem Inv.report_second (h : Inv T 2 st oCreated s) (hnet : s.net = (p, m) ::ₘ rest)
    (hm : m.phase = 2) (hnot : (s.pe p).nReported ≠ (T.children p).length) :
    Handled T s p m rest := by
  obtain ⟨hwave, hst, hstage⟩ := h.of_report hnet two_pos hm
  refine ⟨quiet (addDirty (s.pe p) m), ?_, ?_, .inl rfl⟩
  · have hall : (addDirty (s.pe p) m).allReported (T.children p).length = false :=
      (allReported_addDirty ..).trans (beq_false_of_ne hnot)
    unfold addDirty at hall ⊢
    simp only [callWhenIdle, hm, handlePhase2, hstage, hall]
    rfl
  refine ⟨2, st, oCreated, ?_, ?_, ?_, ?_, ?_, ?_, ?_⟩
  · simp only [System.install, quiet, coe_nil, add_zero]
    exact hwave.absorb two_pos hm rfl rfl
  · intro hk
    exact absurd hk (by decide)
  · intro hk
    exact absurd hk (by decide)
  · intro i hi
    exact (h.marked i hi).install rfl rfl (fun _ => rfl)
  · intro _
    -- what is dirty is now in the state of `p`
    have hkept :
      (addDirty (s.pe p) m).cDirty = true → Flag (s.install p rest (quiet (addDirty (s.pe p) m))).pe
        (s.install p rest (quiet (addDirty (s.pe p) m))).net := by
      refine fun hd => .inl ⟨p, ?_⟩
      simp only [System.install, update_self]
      exact hd
    refine (h.verdict rfl).install rfl rfl fun i _ hold hi => (hold hi).install hnet ?_ ?_
    · exact fun hd => hkept (by rw [cDirty_addDirty, hd, Bool.true_or])
    · exact fun _ hd => hkept (by rw [cDirty_addDirty, hd, Bool.or_true])
  · exact h.app.install rfl rfl (h.app.marks p)
  · exact h.callbacks.keep hnet rfl rfl rfl (by simp [quiet])

theorem Inv.last_second (h : Inv T 2 st oCreated s) (hnet : s.net = (p, m) ::ₘ rest)
    (hp : p ≠ T.root) (hm : m.phase = 2) (hlast : (s.pe p).nReported = (T.children p).length) :
    Handled T s p m rest := by
  obtain ⟨hwave, hst, hstage⟩ := h.of_report hnet two_pos hm
  set state := addDirty (s.pe p) m with hstate
  refine ⟨reportUp T p state (m.setDirty state.isDirty), ?_, ?_, .inl rfl⟩
  · have hall : state.allReported (T.children p).length = true :=
      (allReported_addDirty ..).trans (beq_iff_eq.mpr hlast)
    unfold addDirty at hstate
    simp only [callWhenIdle, hm, handlePhase2, hstage, ← hstate, hall, if_pos, if_neg hp, ne_eq,
      not_true_eq_false, if_false]
  -- a dirty PE sends a dirty report
  have hsent : state.isDirty = true →
      Flag (s.install p rest (reportUp T p state (m.setDirty state.isDirty))).pe
        (s.install p rest (reportUp T p state (m.setDirty state.isDirty))).net := by
    intro hd
    refine .inr ⟨(T.parent p, m.setDirty state.isDirty), ?_, hm, ?_⟩
    · exact mem_add.mpr (.inr (mem_coe.mpr (mem_singleton.mpr rfl)))
    · simp [QdMsg.getDirty, QdMsg.setDirty, hd]
  refine ⟨2, update st p .after, oCreated, ?_, ?_, ?_, ?_, ?_, ?_, ?_⟩
  · exact hwave.close hp two_pos hm hlast rfl ⟨rfl, rfl, rfl, rfl⟩ hm
  · intro hk
    exact absurd hk (by decide)
  · intro hk
    exact absurd hk (by decide)
  · intro i _
    exact (h.marked i (.inl rfl)).install rfl rfl (fun _ => rfl)
  · intro _
    refine (h.verdict rfl).install rfl rfl fun i hdirty hold hi => ?_
    by_cases hip : i = p
    · subst hip
      apply hsent
      have hlt : state.oProcessed < state.mProcessed := hdirty
      simp [QdState.isDirty, hlt]
    · rw [update_of_ne hip] at hi
      refine (hold hi).install hnet (fun hd => hsent ?_) fun _ hd => hsent ?_
      · simp [QdState.isDirty, hstate, cDirty_addDirty, hd]
      · simp [QdState.isDirty, hstate, cDirty_addDirty, hd]
  · exact h.app.install rfl rfl (h.app.marks p)
  · refine h.callbacks.keep hnet rfl rfl rfl ?_
    intro q hq hc
    rw [mem_singleton.mp hq] at hc
    exact absurd (hm.symm.trans hc.2) (by decide)

/-- **The end of the second wave.** If the root is dirty it starts over;
otherwise all is quiet and it runs the callbacks. -/
theorem Inv.root_second (h : Inv T 2 st oCreated s) (hnet : s.net = (T.root, m) ::ₘ rest)
    (hm : m.phase = 2) (hlast : (s.pe T.root).nReported = (T.children T.root).length)
    (hbusy : s.busy T.root = false) : Handled T s T.root m rest := by
  obtain ⟨hwave, hst, hstage⟩ := h.of_report hnet two_pos hm
  obtain ⟨hafter, hrest, hpe⟩ := h.wave_over hnet two_pos hm hlast
  set state := addDirty (s.pe T.root) m with hstate
  have hall : state.allReported (T.children T.root).length = true :=
    (allReported_addDirty ..).trans (beq_iff_eq.mpr hlast)
  by_cases hdirty : state.isDirty = true
  · refine ⟨bcastQD1 T T.root state m, ?_, inv_root_bcastQD1 (m := m) h.app hrest hpe hbusy
      (show state.mCreated = _ from rfl) rfl rfl rfl
      (h.callbacks.keep hnet rfl rfl rfl (sends_open_ne_start one_ne_zero)), .inl rfl⟩
    unfold addDirty at hstate
    simp only [callWhenIdle, hm, handlePhase2, hstage, ← hstate, hall, if_pos, hdirty, ne_eq,
      not_true_eq_false, if_false]
  · have hfalse : state.isDirty = false := by simpa using hdirty
    obtain ⟨hmark, hclean⟩ : ¬ state.oProcessed < state.mProcessed ∧ state.cDirty = false := by
      simpa [QdState.isDirty] using hfalse
    have hparts : (s.pe T.root).cDirty = false ∧ m.getDirty = false := by
      simpa [hstate, addDirty, QdState.reported, QdState.subtreeSetDirty] using hclean
    -- a dirty PE would have been noticed
    have hquiet : Quiet s := by
      rcases h.verdict rfl with hquiet | ⟨i, hlt, hflag⟩
      · exact hquiet
      exfalso
      by_cases hi : i = T.root
      · subst hi
        exact hmark hlt
      rcases hflag (hafter i hi) with ⟨j, hj⟩ | ⟨q, hq, hph, hd⟩
      · by_cases hjr : j = T.root
        · rw [hjr, hparts.1] at hj
          exact absurd hj (by decide)
        · rw [(hpe j hjr).2.cDirty] at hj
          exact absurd hj (by decide)
      · rw [hnet] at hq
        rcases mem_cons.mp hq with rfl | hq
        · rw [hparts.2] at hd
          exact absurd hd (by decide)
        · rw [(hrest q hq).2] at hph
          exact absurd hph (by decide)
    refine ⟨{ state := ({ state with callbacks := [] }.reset).setStage 0, sends := [], stored := []
              fired := [state.callbacks] }, ?_, ?_, .inr ⟨hquiet, rfl, rfl, rfl⟩⟩
    · unfold addDirty at hstate
      simp only [callWhenIdle, hm, handlePhase2, hstage, ← hstate, hall, if_pos, hfalse, ne_eq,
        not_true_eq_false, if_false, Bool.false_eq_true]
    refine ⟨0, fun _ => .before, oCreated, ?_, ?_, ?_, ?_, ?_, ?_, ?_⟩
    · simp only [System.install, coe_nil, add_zero]
      have hclear : ∀ i, (update s.pe T.root
          (({ state with callbacks := [] }.reset).setStage 0) i).stage = 0 ∧
          Cleared (update s.pe T.root (({ state with callbacks := [] }.reset).setStage 0) i) := by
        intro i
        by_cases hi : i = T.root
        · subst hi
          rw [update_self]
          exact ⟨rfl, rfl, rfl, rfl, rfl⟩
        · rw [update_of_ne hi]
          exact hpe i hi
      refine ⟨by decide, rfl, fun i => (hclear i).1, fun _ _ => rfl,
        fun q hq => .inl (hrest q hq), ?_, ?_, ?_⟩
      · intro c hc
        refine Multiset.countP_eq_zero.mpr fun q hq hcond => hc ?_
        rw [← hcond.1, (hrest q hq).1]
      · intro i hi
        exact absurd hi (by decide)
      · intro i _
        exact ⟨fun h0 => absurd h0 (lt_irrefl 0), (hclear i).2⟩
    · intro hk
      exact absurd hk (by decide)
    · intro hk
      exact absurd hk (by decide)
    · intro i hi
      rcases hi with hi | ⟨hi, -⟩
      all_goals exact absurd hi (by decide)
    · intro hk
      exact absurd hk (by decide)
    · exact h.app.install rfl rfl (h.app.marks T.root)
    · refine ⟨?_, ?_⟩
      · simp only [System.install, flatten_append, flatten_cons, flatten_nil, h.callbacks.stored]
        simp [QdState.setStage, QdState.reset, hstate, addDirty, QdState.reported,
          QdState.subtreeSetDirty]
      · intro id
        have honce := h.callbacks.once id
        rw [hnet] at honce
        have hle : starts T id rest ≤ starts T id ((T.root, m) ::ₘ rest) := by
          unfold starts
          rw [Multiset.countP_cons]
          omega
        simp only [System.install, coe_nil, add_zero, append_nil]
        omega

/-- **One detection message.** -/
theorem Inv.deliver (h : Inv T k st oCreated s) (hnet : s.net = (p, m) ::ₘ rest)
    (hbusy : s.busy p = false) : Handled T s p m rest := by
  have hk := h.wave.wave
  have hmem : (p, m) ∈ s.net := by
    rw [hnet]
    exact Multiset.mem_cons_self _ _
  rcases h.wave.shape (p, m) hmem with ⟨hp, hm⟩ | ⟨hp, hm⟩ | ⟨hpos, hm⟩
  · obtain rfl : p = T.root := hp
    rcases eq_zero_or_pos k with rfl | hpos
    · exact h.start_idle hnet hm hbusy
    · exact h.start_busy hpos hnet hm
  · obtain rfl | rfl : k = 1 ∨ k = 2 := by
      omega
    · exact h.request_first hnet hp (Nat.succ.inj hm) hbusy
    · exact h.request_second hnet hp (Nat.succ.inj hm)
  · obtain rfl | rfl : k = 1 ∨ k = 2 := by omega
    · by_cases hlast : (s.pe p).nReported = (T.children p).length
      · by_cases hp : p = T.root
        · subst hp
          exact h.root_first hnet hm hlast hbusy
        · exact h.last_first hnet hp hm hlast
      · exact h.report_first hnet hm hlast
    · by_cases hlast : (s.pe p).nReported = (T.children p).length
      · by_cases hp : p = T.root
        · subst hp
          exact h.root_second hnet hm hlast hbusy
        · exact h.last_second hnet hp hm hlast
      · exact h.report_second hnet hm hlast

end Deliver

/-! ### Application work -/

section Application

variable [Fintype P] {T : SpanTree P} {k : Nat} {st : P → Status} {oCreated : P → Int}
  {s s' : System P} {p : P}

/-- Application work on `p` that is noticed: `p` was busy, or took a message, so
the machine is not quiet, and what `p`'s snapshot says about it is void. -/
theorem Inv.app_step (h : Inv T k st oCreated s) (state : QdState) {b : Bool} {app : Multiset P}
    (hsame : SameWave state (s.pe p)) (hcbs : state.callbacks = (s.pe p).callbacks)
    (hmark : state.oProcessed = (s.pe p).oProcessed) (hle : (s.pe p).mProcessed ≤ state.mProcessed)
    (hbal : state.mCreated - (s.pe p).mCreated + (s.app.card : Int) =
      state.mProcessed - (s.pe p).mProcessed + (app.card : Int))
    (hnot : ¬ Quiet s) (hsnap : Snapshot s oCreated p → state.mProcessed ≠ state.oProcessed)
    (hs' : s' = { s with
      pe := update s.pe p state, busy := update s.busy p b, app }) :
    Inv T k st oCreated s' := by
  have hwave : ∀ i, SameWave (update s.pe p state i) (s.pe i) := sameWave_update hsame
  have hmarks : ∀ i, (update s.pe p state i).oProcessed = (s.pe i).oProcessed :=
    apply_update_eq hmark
  have hproc : ∀ i, (s.pe i).mProcessed ≤ (update s.pe p state i).mProcessed := by
    intro i
    by_cases hi : i = p
    · subst hi
      rwa [update_self]
    · rw [update_of_ne hi]
  subst hs'
  refine ⟨h.wave.congr hwave, ?_, ?_, ?_, ?_, ⟨?_, ?_⟩, ?_, ?_⟩
  · intro hk
    exact (h.created hk).congr (fun _ => rfl) (fun i => (hwave i).cCreated)
  · intro hk
    exact (h.processed hk).congr hmarks (fun i => (hwave i).cProcessed)
  · intro i hi
    have hold := h.marked i hi
    unfold Snapshot
    by_cases hip : i = p
    · subst hip
      simp only [update_self]
      intro heq
      exact absurd heq (hsnap hold)
    · simp only [update_of_ne hip]
      exact hold
  · intro hk
    rcases h.verdict hk with hquiet | ⟨i, hlt, hflag⟩
    · exact absurd hquiet hnot
    refine .inr ⟨i, ?_, fun hi => ?_⟩
    · have h1 := hmarks i
      have h2 := hproc i
      dsimp only
      omega
    · refine (hflag hi).of_le ?_ ?_
      · intro j hj
        exact .inl ⟨j, (hwave j).cDirty.trans hj⟩
      · intro q hq hph hd
        exact .inr ⟨q, hq, hph, hd⟩
  · have hcons := h.app.conserved
    rw [sum_eq_add_of_ne (f := fun i => (update s.pe p state i).mCreated)
        p (fun i hi => by rw [update_of_ne hi]),
      sum_eq_add_of_ne (f := fun i => (update s.pe p state i).mProcessed)
        p (fun i hi => by rw [update_of_ne hi]), hcons]
    simp only [update_self]
    omega
  · intro i
    have h1 := hmarks i
    have h2 := hproc i
    have h3 := h.app.marks i
    dsimp only
    omega
  · have hroot := apply_update_eq (f := QdState.callbacks) hcbs T.root
    rw [hroot]
    exact h.callbacks.stored
  · exact h.callbacks.once

/-- Every event keeps the invariant, for some wave. -/
theorem Inv.next (h : Inv T k st oCreated s) {e : Event P} (hs : s.next T e = some s') :
    ∃ k st oCreated, Inv T k st oCreated s' := by
  cases e with
  | startQD word0 word1 =>
    obtain rfl := some.inj hs
    refine ⟨k, st, oCreated, ?_, ?_, ?_, h.marked, ?_, ⟨h.app.conserved, h.app.marks⟩,
      h.callbacks.stored, ?_⟩
    · refine ⟨h.wave.wave, h.wave.root, h.wave.stage, h.wave.edge, ?_, ?_, ?_, ?_⟩
      · intro q hq
        rcases mem_cons.mp hq with rfl | hq
        · exact .inl ⟨rfl, rfl⟩
        · exact h.wave.shape q hq
      · intro c hc
        rw [requests_cons, if_neg (fun hi => hc hi.1.symm)]
        exact h.wave.requests c hc
      · intro i hi
        -- a collecting PE is in a wave, whose reports are of phase one or two
        have hk : k ≠ 0 := by
          rintro rfl
          rw [h.wave.before_of_zero i] at hi
          exact absurd hi (by decide)
        rw [reports_cons, if_neg (fun hc => hk hc.2.symm)]
        exact h.wave.collecting i hi
      · intro i hi
        obtain ⟨h1, h2⟩ := h.wave.idle i hi
        refine ⟨fun hk => ?_, h2⟩
        rw [reports_cons, if_neg (fun hc => hk.ne hc.2), add_zero]
        exact h1 hk
    · intro hk
      have hacc := h.created hk
      unfold Account at hacc ⊢
      simpa [reportSum] using hacc
    · intro hk
      have hacc := h.processed hk
      unfold Account at hacc ⊢
      simpa [reportSum] using hacc
    · intro hk
      rcases h.verdict hk with hquiet | ⟨i, hlt, hflag⟩
      · exact .inl hquiet
      · refine .inr ⟨i, hlt, fun hi => (hflag hi).of_le (fun j hj => .inl ⟨j, hj⟩) ?_⟩
        intro q hq hph hd
        exact .inr ⟨q, mem_cons_of_mem hq, hph, hd⟩
    · intro id
      have honce := h.callbacks.once id
      have hcons : starts T id ((T.root, ⟨0, word0, word1, s.nextCb⟩) ::ₘ s.net) =
          starts T id s.net + if s.nextCb = id then 1 else 0 := by
        unfold starts
        rw [Multiset.countP_cons]
        simp
      simp only [hcons]
      -- the number is fresh: nothing has it yet
      by_cases hid : s.nextCb = id
      · subst hid
        rw [if_neg (lt_irrefl _)] at honce
        rw [if_pos rfl, if_pos (Nat.lt_succ_self _)]
        omega
      · rw [if_neg hid]
        by_cases hlt : id < s.nextCb
        · rw [if_pos hlt] at honce
          rw [if_pos (Nat.lt_succ_of_lt hlt)]
          omega
        · rw [if_neg hlt] at honce
          omega
  | deliver p m =>
    simp only [System.next] at hs
    split at hs
    · next hcond =>
        have hnet : s.net = (p, m) ::ₘ s.net.erase (p, m) := (cons_erase hcond.1).symm
        obtain ⟨o, hcall, hinv, -⟩ := h.deliver hnet hcond.2
        rw [hcall] at hs
        obtain rfl := some.inj hs
        exact hinv
    · exact absurd hs (by simp)
  | appBegin p =>
    simp only [System.next] at hs
    split at hs
    · next hcond =>
        have hmark := h.app.marks p
        refine ⟨k, st, oCreated, h.app_step (s.pe p).process ⟨rfl, rfl, rfl, rfl, rfl⟩ rfl
          rfl ?_ ?_ ?_ ?_ (some.inj hs).symm⟩
        · simp [QdState.process]
        · have hcard := Multiset.card_erase_add_one hcond.1
          simp only [QdState.process]
          omega
        · intro hquiet
          rw [hquiet.1] at hcond
          exact absurd hcond.1 (by simp)
        · intro _
          simp only [QdState.process]
          omega
    · exact absurd hs (by simp)
  | appSend p dest =>
    simp only [System.next] at hs
    split at hs
    · next hbusy =>
        have hs' : s' = { s with
            pe := update s.pe p (s.pe p).create
            busy := update s.busy p true
            app := dest ::ₘ s.app } := by
          rw [← some.inj hs]
          simp [← hbusy]
        refine ⟨k, st, oCreated, h.app_step (s.pe p).create ⟨rfl, rfl, rfl, rfl, rfl⟩ rfl
          rfl le_rfl ?_ ?_ ?_ hs'⟩
        · simp only [QdState.create, Multiset.card_cons]
          push_cast
          ring
        · intro hquiet
          rw [hquiet.2 p] at hbusy
          exact absurd hbusy (by decide)
        · intro hsnap heq
          rw [(hsnap heq).2] at hbusy
          exact absurd hbusy (by decide)
    · exact absurd hs (by simp)
  | appEnd p =>
    simp only [System.next] at hs
    split at hs
    · next hbusy =>
        have hs' : s' = { s with
            pe := update s.pe p (s.pe p)
            busy := update s.busy p false
            app := s.app } := by
          rw [← some.inj hs, update_eq_self]
        refine ⟨k, st, oCreated, h.app_step (s.pe p) (SameWave.refl _) rfl rfl le_rfl
          (by ring) ?_ ?_ hs'⟩
        · intro hquiet
          rw [hquiet.2 p] at hbusy
          exact absurd hbusy (by decide)
        · intro hsnap heq
          rw [(hsnap heq).2] at hbusy
          exact absurd hbusy (by decide)
    · exact absurd hs (by simp)

theorem inv_initial (h : s.Initial) : Inv T 0 (fun _ => .before) (fun _ => 0) s := by
  obtain ⟨hpe, hcons, -, hnet, -, hstored, hfired⟩ := h
  have hclear : ∀ i, (s.pe i).stage = 0 ∧ Cleared (s.pe i) := by
    intro i
    rw [hpe i]
    exact ⟨rfl, rfl, rfl, rfl, rfl⟩
  refine ⟨⟨by decide, rfl, fun i => (hclear i).1, fun _ _ => rfl, ?_, ?_, ?_, ?_⟩, ?_, ?_, ?_, ?_,
    ⟨?_, ?_⟩, ?_, ?_⟩
  · rw [hnet]
    intro q hq
    exact absurd hq (by simp)
  · rw [hnet]
    intro c _
    rfl
  · intro i hi
    exact absurd hi (by decide)
  · intro i _
    exact ⟨fun h0 => absurd h0 (lt_irrefl 0), (hclear i).2⟩
  · intro hk
    exact absurd hk (by decide)
  · intro hk
    exact absurd hk (by decide)
  · intro i hi
    rcases hi with hi | ⟨hi, -⟩
    · exact absurd hi (by decide)
    · exact absurd hi (by decide)
  · intro hk
    exact absurd hk (by decide)
  · have hzero : ∀ i, (s.pe i).mProcessed = 0 := by
      intro i
      rw [hpe i]
      rfl
    rw [hcons, Finset.sum_congr rfl (fun i _ => hzero i)]
    simp
  · intro i
    rw [hpe i]
    exact le_rfl
  · rw [hstored, hfired, hpe T.root]
    rfl
  · intro id
    rw [hnet, hstored]
    simp [starts]

theorem reachable_inv (h : (qdSystem T).Reachable s) : ∃ k st oCreated, Inv T k st oCreated s := by
  refine h.invariant (I := fun s => ∃ k st oCreated, Inv T k st oCreated s) ?_ ?_
  · intro s hs
    exact ⟨_, _, _, inv_initial hs⟩
  · rintro s e s' ⟨k, st, oCreated, hinv⟩ hs
    exact hinv.next hs

end Application

/-! ### Main results -/

variable [Fintype P] {T : SpanTree P} {s : System P}

/-- The handlers never run into an assertion or an abort. -/
theorem handlers_never_abort (h : (qdSystem T).Reachable s) {p : P} {m : QdMsg}
    (hmem : (p, m) ∈ s.net) (hbusy : s.busy p = false) :
    ∃ o, callWhenIdle T p (s.pe p) m = .ok o := by
  obtain ⟨k, st, oCreated, hinv⟩ := reachable_inv h
  obtain ⟨o, hcall, -⟩ := hinv.deliver (cons_erase hmem).symm hbusy
  exact ⟨o, hcall⟩

/-- **Safety of quiescence detection.** At every step at which PE 0 runs the
stored callbacks no application message is in flight and no PE is handling one,
and every callback stored so far and not run before is run; no callback is ever
run twice. -/
theorem callbacks_run_once_when_quiet (h : (qdSystem T).Reachable s) :
    s.fired.flatten.Nodup ∧
      ∀ e s', s.next T e = some s' → s'.fired ≠ s.fired →
        s.app = 0 ∧ (∀ p, s.busy p = false) ∧ s'.app = 0 ∧
          ∃ cbs, s'.fired = s.fired ++ [cbs] ∧ s'.stored = s.fired.flatten ++ cbs := by
  obtain ⟨k, st, oCreated, hinv⟩ := reachable_inv h
  refine ⟨?_, ?_⟩
  · rw [nodup_iff_count_le_one]
    intro id
    have honce := hinv.callbacks.once id
    rw [hinv.callbacks.stored, count_append] at honce
    have hle : (if id < s.nextCb then 1 else 0) ≤ 1 := by split <;> omega
    omega
  · intro e s' hs hne
    cases e with
    | startQD word0 word1 =>
      obtain rfl := some.inj hs
      exact absurd rfl hne
    | deliver p m =>
      simp only [System.next] at hs
      split at hs
      · next hcond =>
          have hnet : s.net = (p, m) ::ₘ s.net.erase (p, m) := (cons_erase hcond.1).symm
          obtain ⟨o, hcall, ⟨k', st', oC', hinv'⟩, hfired⟩ := hinv.deliver hnet hcond.2
          rw [hcall] at hs
          obtain rfl := some.inj hs
          rcases hfired with hnone | ⟨hquiet, rfl, hfired, hstored⟩
          · exact absurd (by simp [System.install, hnone]) hne
          · refine ⟨hquiet.1, hquiet.2, hquiet.1, (s.pe T.root).callbacks, ?_, ?_⟩
            · simp only [System.install, hfired]
            · simp only [System.install, hstored, append_nil]
              exact hinv.callbacks.stored
      · exact absurd hs (by simp)
    | appBegin | appSend | appEnd =>
      simp only [System.next] at hs
      split at hs
      · obtain rfl := some.inj hs
        exact absurd rfl hne
      · exact absurd hs (by simp)

/-! ### A detection on two PEs -/

local instance neZeroTwo : NeZero 2 := ⟨two_ne_zero⟩

/-- PE 0 with one child. -/
def pairTree : SpanTree (Fin 2) where
  root := 0
  parent _ := 0
  children p := if p = 0 then [1] else []
  nodup_children := by decide
  mem_children := by decide
  depth p := p
  depth_parent := by decide

/-- PE 0 has sent an application message to PE 1. -/
def pairStart : System (Fin 2) :=
  { pe := fun p => { QdState.new with mCreated := if p = 0 then 1 else 0 }
    busy := fun _ => false, net := 0, app := {1}, nextCb := 0, stored := [], fired := [] }

/-- The message is handled, then both waves run; one report is still to come. -/
def pairEvents : List (Event (Fin 2)) :=
  [.startQD 0 0, .appBegin 1, .appEnd 1, .deliver 0 ⟨0, 0, 0, 0⟩, .deliver 1 ⟨0, 0, 0, 0⟩,
    .deliver 1 ⟨1, 0, 1, 0⟩, .deliver 0 ⟨1, 1, 0, 0⟩, .deliver 0 ⟨1, 0, 1, 0⟩,
    .deliver 1 ⟨1, 0, 1, 0⟩, .deliver 1 ⟨2, 0, 1, 0⟩, .deliver 0 ⟨2, 0, 1, 0⟩]

/-- Events in order. -/
def System.run (T : SpanTree P) (s : System P) (es : List (Event P)) : Option (System P) :=
  es.foldlM (fun s e => s.next T e) s

theorem reachable_run {es : List (Event P)} {s' : System P} (h : (qdSystem T).Reachable s)
    (hrun : s.run T es = some s') : (qdSystem T).Reachable s' := by
  induction es generalizing s with
  | nil =>
    obtain rfl := some.inj hrun
    exact h
  | cons e es ih =>
    obtain ⟨s1, h1, h2⟩ := bind_eq_some_iff.mp hrun
    exact ih (h.step h1) h2

/-- PE 0 handles the request that starts a detection. -/
theorem pair_request_handled :
    ∃ s, pairStart.next pairTree (.startQD 0 0) = some s ∧
    ∃ o, callWhenIdle pairTree 0 (s.pe 0) ⟨0, 0, 0, 0⟩ = .ok o := by
  have hinit : (qdSystem pairTree).Reachable pairStart :=
    Transition.Reachable.init ⟨fun _ => rfl, rfl, fun _ => rfl, rfl, rfl, rfl, rfl⟩
  obtain ⟨s, hs⟩ : ∃ s, pairStart.next pairTree (.startQD 0 0) = some s := ⟨_, rfl⟩
  have hnet : (0, ⟨0, 0, 0, 0⟩) ∈ s.net ∧ s.busy 0 = false := by
    cases hs
    exact ⟨by simp [pairStart, pairTree], rfl⟩
  exact ⟨s, hs, handlers_never_abort (hinit.step hs) hnet.1 hnet.2⟩

/-- The last report of the second wave makes PE 0 run the callback, with nothing
in flight. -/
theorem pair_detection_quiet :
    ∃ s s', pairStart.run pairTree pairEvents = some s ∧
      s.next pairTree (.deliver 0 ⟨2, 0, 1, 0⟩) = some s' ∧ s'.fired = [[0]] ∧ s.app = 0 := by
  have hinit : (qdSystem pairTree).Reachable pairStart :=
    Transition.Reachable.init ⟨fun _ => rfl, rfl, fun _ => rfl, rfl, rfl, rfl, rfl⟩
  refine ⟨_, _, rfl, rfl, rfl, ?_⟩
  refine ((callbacks_run_once_when_quiet (reachable_run hinit
    (show pairStart.run pairTree pairEvents = some _ from rfl))).2
    (.deliver 0 ⟨2, 0, 1, 0⟩) _ rfl ?_).1
  decide

end CharmRuntime.Quiescence
