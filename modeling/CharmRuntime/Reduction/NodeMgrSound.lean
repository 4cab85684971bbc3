import Mathlib.Algebra.Order.BigOperators.Group.List
import CharmRuntime.Reduction.NodeMgr

/-!
# Reduction.NodeMgrSound

**Progress of the node manager.** A reduction is *stuck* when its root holds
every message it waits for and the source count balances the element count, but
no handler is left to notice it.

Everything rests on one description of `finishReduction` (`FinSpec`): what the
manager holds for a number `j` (its `view` at `j`) is untouched by completing
reductions before `j`, and a completed replay leaves the current reduction
*settled* unless an early late-migrant message was moved in last. So a stuck
state needs a later reduction that was complete in the early queues with a
late-migrant message among them (`EarlyComplete`); in runs that avoid this the
manager never gets stuck (`root_never_stuck`), and `stuck_run` shows that it does
otherwise.
-/

namespace CharmRuntime.Reduction

open Lib List

namespace NodeMgr

variable {δ : Type}

/-! ### The recursion bound -/

/-- The messages a nested completion can consume. -/
def pending (s : NodeMgr δ) : Nat := s.futureMsgs.length + s.futureRemoteMsgs.length

/-- The computation does not run out of fuel, and leaves at most `n` messages
waiting. -/
def Bounded (n : Nat) : Except NodeAbort (NodeMgr δ) → Prop
  | .ok s => pending s ≤ n
  | .error e => e ≠ .outOfFuel

variable {n : Nat} {x : Except NodeAbort (NodeMgr δ)}
  {deq : NodeMgr δ → Option (CkReductionMsg δ × NodeMgr δ)}
  {handle : NodeMgr δ → CkReductionMsg δ → Except NodeAbort (NodeMgr δ)} {s : NodeMgr δ}
  {m result : CkReductionMsg δ} {rest : List (CkReductionMsg δ)} {env : ReductionEnv δ}
  {s' base : NodeMgr δ} {fin : NodeMgr δ → Except NodeAbort (NodeMgr δ)}

theorem Bounded.bind {k : Nat} {f : NodeMgr δ → Except NodeAbort (NodeMgr δ)} (hx : Bounded n x)
    (hf : ∀ s, pending s ≤ n → Bounded k (f s)) : Bounded k (x >>= f) := by
  cases x with
  | error e => exact hx
  | ok s => exact hf s hx

theorem Bounded.mono {k : Nat} (hx : Bounded n x) (h : n ≤ k) : Bounded k x := by
  cases x with
  | error e => exact hx
  | ok s => exact le_trans hx h

theorem startReduction_bounded (s : NodeMgr δ) (number : Nat) :
    Bounded (pending s) (s.startReduction number) := by
  unfold startReduction
  split
  · simp [Bounded]
  split
  · simp [Bounded]
  split
  · exact le_rfl
  split
  · exact le_rfl
  · exact le_rfl

section

variable {finish : NodeMgr δ → Except NodeAbort (NodeMgr δ)} {n : Nat}
  (hfin : ∀ s, pending s ≤ n → Bounded n (finish s))
include hfin

variable {s : NodeMgr δ}

theorem doAddContribution_bounded (m : CkReductionMsg δ) (hs : pending s ≤ n) :
    Bounded (n + 1) (doAddContribution finish s m) := by
  unfold doAddContribution
  split
  · simp only [pending] at hs
    simp only [Bounded, pending, length_append, length_singleton]
    omega
  · refine (startReduction_bounded s m.redNo).bind fun s1 hs1 => ?_
    have hs2 : pending s1 ≤ n := hs1.trans hs
    refine Bounded.mono (hfin _ ?_) (Nat.le_succ n)
    exact hs2

theorem doRecvMsg_bounded (m : CkReductionMsg δ) (hs : pending s ≤ n) :
    Bounded (n + 1) (doRecvMsg finish s m) := by
  unfold doRecvMsg
  split
  · refine (startReduction_bounded s m.redNo).bind fun s1 hs1 => ?_
    have hs2 : pending s1 ≤ n := hs1.trans hs
    refine Bounded.mono (hfin _ ?_) (Nat.le_succ n)
    exact hs2
  split
  · simp only [pending] at hs
    simp only [Bounded, pending, length_append, length_singleton]
    omega
  · simp [Bounded]

end

theorem replay_bounded (h : ∀ s m s1, pending s ≤ n → deq s = some (m, s1) →
    Bounded n (handle s1 m)) :
    ∀ rounds s, pending s ≤ n → Bounded n (replay deq handle rounds s) := by
  intro rounds
  induction rounds with
  | zero => intro s hs; exact hs
  | succ rounds ih =>
    intro s hs
    rw [replay]
    cases hd : deq s with
    | none => exact ih s hs
    | some q =>
      obtain ⟨m, s1⟩ := q
      exact (h s m s1 hs hd).bind ih

theorem deqLocal_pending {s1 : NodeMgr δ} (h : deqLocal s = some (m, s1)) :
    pending s = pending s1 + 1 := by
  cases hq : s.futureMsgs with
  | nil => simp [deqLocal, hq] at h
  | cons m' rest =>
    simp only [deqLocal, hq, Option.some.injEq] at h
    obtain ⟨-, rfl⟩ := h
    simp only [pending, hq, length_cons]
    omega

theorem deqRemote_pending {s1 : NodeMgr δ} (h : deqRemote s = some (m, s1)) :
    pending s = pending s1 + 1 := by
  cases hq : s.futureRemoteMsgs with
  | nil => simp [deqRemote, hq] at h
  | cons m' rest =>
    simp only [deqRemote, hq, Option.some.injEq] at h
    obtain ⟨-, rfl⟩ := h
    simp only [pending, hq, length_cons]
    omega

theorem handOn_bounded {f : NodeMgr δ × Bool → Except NodeAbort (NodeMgr δ)}
    (hf : ∀ s' b, pending s' = pending s → Bounded n (f (s', b))) :
    Bounded n (handOn s result >>= f) := by
  unfold handOn
  split
  · exact hf _ _ rfl
  split
  · exact hf _ _ rfl
  · unfold deliver
    dsimp only
    split
    · exact hf _ _ rfl
    · simp [Bounded, bind, Except.bind]

/-- **Enough fuel.** More fuel than messages waiting is never used up. -/
theorem finishReduction_bounded [Inhabited δ] (env : ReductionEnv δ) (fuel : Nat) :
    ∀ n (s : NodeMgr δ), pending s ≤ n → n < fuel → Bounded n (finishReduction env fuel s) := by
  induction fuel with
  | zero => intro n s _ h; exact absurd h (Nat.not_lt_zero n)
  | succ fuel ih =>
    intro n s hs _
    rw [finishReduction]
    split
    · exact hs
    split
    · exact hs
    split
    · exact hs
    split
    · simp [Bounded]
    cases nodeReduceMessages env s.redNo s.msgs with
    | none => simp [Bounded]
    | some result =>
      refine handOn_bounded fun s1 done hs1 => ?_
      have hp1 : pending s1 ≤ n := hs1.trans_le hs
      dsimp only
      split
      · exact hp1
      · -- each round hands one message less to the nested call
        have hlocal : ∀ (t : NodeMgr δ) m t1, pending t ≤ n → deqLocal t = some (m, t1) →
            Bounded n (doAddContribution (finishReduction env fuel) t1 m) := by
          intro t m t1 ht hd
          have := deqLocal_pending hd
          obtain ⟨k, rfl⟩ : ∃ k, n = k + 1 := ⟨n - 1, by omega⟩
          exact doAddContribution_bounded (fun u hu => ih k u hu (by omega)) m (by omega)
        have hremote : ∀ (t : NodeMgr δ) m t1, pending t ≤ n → deqRemote t = some (m, t1) →
            Bounded n (doRecvMsg (finishReduction env fuel) t1 m) := by
          intro t m t1 ht hd
          have := deqRemote_pending hd
          obtain ⟨k, rfl⟩ : ∃ k, n = k + 1 := ⟨n - 1, by omega⟩
          exact doRecvMsg_bounded (fun u hu => ih k u hu (by omega)) m (by omega)
        refine (replay_bounded hlocal _ s1.nextReduction hp1).bind fun s2 hs2 => ?_
        refine (replay_bounded hremote _ _ hs2).bind fun s3 hs3 => ?_
        exact hs3

/-- **`finishReduction` ends**: each round takes waiting messages away. -/
theorem finishReduction_fuel [Inhabited δ] (env : ReductionEnv δ) (s : NodeMgr δ) (e : Event δ) :
    s.handle env e ≠ .error .outOfFuel := by
  have hfin : ∀ t : NodeMgr δ, pending t ≤ pending s →
      Bounded (pending s) (finishReduction env s.fuelFor t) := by
    intro t ht
    exact finishReduction_bounded env _ _ t ht (by unfold fuelFor pending; omega)
  have hne : ∀ {n : Nat} {x : Except NodeAbort (NodeMgr δ)}, Bounded n x →
    x ≠ .error .outOfFuel := by
    rintro n x hx rfl
    exact hx rfl
  cases e with
  | contribution m => exact hne (doAddContribution_bounded hfin m le_rfl)
  | remote m => exact hne (doRecvMsg_bounded hfin m le_rfl)
  | lateMigrant m =>
    change s.lateMigrantMsg env m ≠ _
    unfold lateMigrantMsg
    split
    · simp
    · exact hne (hfin _ le_rfl)

/-! ### What a manager holds for one reduction number -/

/-- Sum of `nSources` over messages. -/
def srcSum (l : List (CkReductionMsg δ)) : Int := (l.map (·.nSources)).sum

/-- Sum of `gcount` over messages. -/
def gcountSum (l : List (CkReductionMsg δ)) : Int := (l.map (·.gcount)).sum

@[simp] theorem srcSum_nil : srcSum ([] : List (CkReductionMsg δ)) = 0 := rfl
@[simp] theorem gcountSum_nil : gcountSum ([] : List (CkReductionMsg δ)) = 0 := rfl

@[simp] theorem srcSum_cons (m : CkReductionMsg δ) (l : List (CkReductionMsg δ)) :
    srcSum (m :: l) = m.nSources + srcSum l := by
  simp [srcSum]

@[simp] theorem gcountSum_cons (m : CkReductionMsg δ) (l : List (CkReductionMsg δ)) :
    gcountSum (m :: l) = m.gcount + gcountSum l := by
  simp [gcountSum]

@[simp] theorem srcSum_append (a b : List (CkReductionMsg δ)) :
    srcSum (a ++ b) = srcSum a + srcSum b := by
  simp [srcSum]

@[simp] theorem gcountSum_append (a b : List (CkReductionMsg δ)) :
    gcountSum (a ++ b) = gcountSum a + gcountSum b := by
  simp [gcountSum]

/-- The messages of a queue that are for reduction `j`. -/
def ofRedNo (j : Nat) (l : List (CkReductionMsg δ)) : List (CkReductionMsg δ) :=
  l.filter (fun m => m.redNo = j)

@[simp] theorem ofRedNo_nil (j : Nat) : ofRedNo j ([] : List (CkReductionMsg δ)) = [] := rfl

@[simp] theorem ofRedNo_append (j : Nat) (a b : List (CkReductionMsg δ)) :
    ofRedNo j (a ++ b) = ofRedNo j a ++ ofRedNo j b := by
  simp [ofRedNo]

theorem ofRedNo_cons_self {j : Nat} (h : m.redNo = j)
    (l : List (CkReductionMsg δ)) : ofRedNo j (m :: l) = m :: ofRedNo j l := by
  simp [ofRedNo, h]

theorem ofRedNo_cons_of_ne {j : Nat} (h : m.redNo ≠ j)
    (l : List (CkReductionMsg δ)) : ofRedNo j (m :: l) = ofRedNo j l := by
  simp [ofRedNo, h]

theorem ofRedNo_eq_nil_iff {j : Nat} {l : List (CkReductionMsg δ)} :
    ofRedNo j l = [] ↔ ∀ m ∈ l, m.redNo ≠ j := by
  simp [ofRedNo]

/-- All a manager holds for reduction `j`, wherever it waits: the numbers of
local and remote messages, and the two sums. -/
@[ext] structure View where
  locals : Nat
  remotes : Nat
  sources : Int
  elements : Int

/-- The view of a state at `j`. -/
def view (s : NodeMgr δ) (j : Nat) : View where
  locals := (if j = s.redNo then s.nContrib else 0) + (ofRedNo j s.futureMsgs).length
  remotes := (if j = s.redNo then s.nRemote else 0) + (ofRedNo j s.futureRemoteMsgs).length
  sources := (if j = s.redNo then srcSum s.msgs else 0) + srcSum (ofRedNo j s.futureMsgs) +
    srcSum (ofRedNo j s.futureRemoteMsgs) + srcSum (ofRedNo j s.futureLateMigrantMsgs)
  elements := (if j = s.redNo then gcountSum s.msgs else 0) + gcountSum (ofRedNo j s.futureMsgs) +
    gcountSum (ofRedNo j s.futureRemoteMsgs) + gcountSum (ofRedNo j s.futureLateMigrantMsgs)

theorem view_requeue_local (h : s.futureMsgs = m :: rest) (j : Nat) :
    view { s with futureMsgs := rest ++ [m] } j = view s j := by
  by_cases hm : m.redNo = j
  · ext <;> simp only [view, h, ofRedNo_append, ofRedNo_cons_self hm, ofRedNo_nil, length_append,
      length_cons, length_nil, srcSum_append, srcSum_cons, srcSum_nil, gcountSum_append,
      gcountSum_cons, gcountSum_nil] <;> ring
  · simp only [view, h, ofRedNo_append, ofRedNo_cons_of_ne hm, ofRedNo_nil, append_nil]

theorem view_requeue_remote (h : s.futureRemoteMsgs = m :: rest) (j : Nat) :
    view { s with futureRemoteMsgs := rest ++ [m] } j = view s j := by
  by_cases hm : m.redNo = j
  · ext <;> simp only [view, h, ofRedNo_append, ofRedNo_cons_self hm, ofRedNo_nil, length_append,
      length_cons, length_nil, srcSum_append, srcSum_cons, srcSum_nil, gcountSum_append,
      gcountSum_cons, gcountSum_nil] <;> ring
  · simp only [view, h, ofRedNo_append, ofRedNo_cons_of_ne hm, ofRedNo_nil, append_nil]

theorem view_count_local (h : s.futureMsgs = m :: rest) (hm : m.redNo = s.redNo)
    (b : Bool) (j : Nat) :
    view { s with
      inProgress := b, futureMsgs := rest, msgs := s.msgs ++ [m], nContrib := s.nContrib + 1 } j =
      view s j := by
  by_cases hj : j = s.redNo
  · subst hj
    ext <;> simp only [view, h, ofRedNo_cons_self hm, length_cons, srcSum_append,
      srcSum_cons, srcSum_nil, gcountSum_append, gcountSum_cons, gcountSum_nil, if_true] <;> ring
  · have hne : m.redNo ≠ j := by omega
    simp only [view, h, ofRedNo_cons_of_ne hne, if_neg hj]

theorem view_count_remote (h : s.futureRemoteMsgs = m :: rest) (hm : m.redNo = s.redNo)
    (b : Bool) (j : Nat) :
    view { s with
      inProgress := b, futureRemoteMsgs := rest, msgs := s.msgs ++ [m], nRemote :=
        s.nRemote + 1 } j =
      view s j := by
  by_cases hj : j = s.redNo
  · subst hj
    ext <;> simp only [view, h, ofRedNo_cons_self hm, length_cons, srcSum_append,
      srcSum_cons, srcSum_nil, gcountSum_append, gcountSum_cons, gcountSum_nil, if_true] <;> ring
  · have hne : m.redNo ≠ j := by omega
    simp only [view, h, ofRedNo_cons_of_ne hne, if_neg hj]

theorem view_nextReduction {j : Nat} (hj : s.redNo < j) (d : List (CkReductionMsg δ)) :
    view (nextReduction { s with msgs := [], delivered := d }) j = view s j := by
  have hne : j ≠ s.redNo := by omega
  by_cases hnext : j = s.redNo + 1 <;> simp [view, nextReduction, hne, hnext]

theorem view_moveLateMigrants (s : NodeMgr δ) (j : Nat) : view s.moveLateMigrants j = view s j := by
  by_cases hj : j = s.redNo
  · subst hj
    have hnone :
      ofRedNo s.redNo (s.futureLateMigrantMsgs.filter (fun m => ¬ m.redNo = s.redNo)) = [] := by
      simp [ofRedNo_eq_nil_iff]
    have hall : s.futureLateMigrantMsgs.filter (fun m => m.redNo = s.redNo) =
        ofRedNo s.redNo s.futureLateMigrantMsgs := rfl
    ext <;> simp only [view, moveLateMigrants, hnone, hall, if_true, srcSum_append, srcSum_nil,
      gcountSum_append, gcountSum_nil] <;> ring
  · have hsame : ofRedNo j (s.futureLateMigrantMsgs.filter (fun m => ¬ m.redNo = s.redNo)) =
        ofRedNo j s.futureLateMigrantMsgs := by
      unfold ofRedNo
      rw [filter_filter]
      apply filter_congr
      intro m _
      simp only [Bool.and_eq_left_iff_imp, decide_eq_true_eq, Bool.not_eq_true',
        decide_eq_false_iff_not]
      intro h1 h2
      exact hj (h1.symm.trans h2)
    unfold view moveLateMigrants
    simp only [hsame, if_neg hj]

theorem view_reenqueue
    (hsrc : result.nSources = srcSum s.msgs) (hg : result.gcount = gcountSum s.msgs) (j : Nat) :
    view { s with msgs := [result] } j = view s j := by
  simp [view, hsrc, hg]

/-! ### What one call of `finishReduction` does -/

theorem nodeReduceMessages_sums [Inhabited δ] {k : Nat} {msgs : List (CkReductionMsg δ)}
    (h : nodeReduceMessages env k msgs = some result) :
    result.sourceFlag = srcSum msgs ∧ result.nSources = srcSum msgs ∧
    result.gcount = gcountSum msgs := by
  obtain ⟨-, -, rfl⟩ := Option.map_eq_some_iff.mp h
  have hsrc : (collect env msgs).nSources = srcSum msgs := collect_nSources env msgs
  have hnonneg : 0 ≤ srcSum msgs :=
    sum_nonneg (by simpa using fun x _ => x.nSources_nonneg)
  refine ⟨hsrc, ?_, collect_gcount env msgs⟩
  simp only [CkReductionMsg.nSources, hsrc]
  rw [if_neg (by omega)]

/-- The current reduction is not one that only waits to be noticed. -/
def Settled (s : NodeMgr δ) : Prop :=
  ¬ (s.lcount ≤ s.nContrib ∧ s.numKids ≤ s.nRemote ∧
    srcSum s.msgs = gcountSum s.msgs + s.additionalGCount)

/-- What holds of a root manager at every call: it has at least one local
contributor, and counting a local message starts the reduction. -/
structure RootOk (s : NodeMgr δ) : Prop where
  isRoot : s.hasParent = false
  notCreating : s.creating = false
  lcount_pos : 0 < s.lcount
  started : 0 < s.nContrib → s.inProgress = true

/-- The fields no handler changes. -/
structure SameParams (s s' : NodeMgr δ) : Prop where
  lcount : s'.lcount = s.lcount
  numKids : s'.numKids = s.numKids
  additional : s'.additionalGCount = s.additionalGCount

theorem SameParams.trans {s'' : NodeMgr δ} (h : SameParams s s') (h' : SameParams s' s'') :
    SameParams s s'' :=
  ⟨h'.lcount.trans h.lcount, h'.numKids.trans h.numKids, h'.additional.trans h.additional⟩

/-- No message of the early queues is for the current reduction. -/
structure Early (s : NodeMgr δ) : Prop where
  locals : ∀ m ∈ s.futureMsgs, s.redNo < m.redNo
  remotes : ∀ m ∈ s.futureRemoteMsgs, s.redNo < m.redNo
  lates : ∀ m ∈ s.futureLateMigrantMsgs, m.redNo ≠ s.redNo

/-- Migrants apart, a view has all the messages its reduction waits for. -/
def Ready (s : NodeMgr δ) (v : View) : Prop := s.lcount ≤ v.locals ∧ s.numKids ≤ v.remotes

/-- The relation between the states before and after `finishReduction`. -/
structure FinSpec (s s' : NodeMgr δ) : Prop where
  root : RootOk s'
  params : SameParams s s'
  mono : s.redNo ≤ s'.redNo
  view_eq : ∀ j, s'.redNo ≤ j → view s' j = view s j
  lates : ∀ m ∈ s'.futureLateMigrantMsgs, m ∈ s.futureLateMigrantMsgs
  stay : s'.redNo = s.redNo → s'.futureMsgs = s.futureMsgs ∧
    s'.futureRemoteMsgs = s.futureRemoteMsgs ∧
    s'.futureLateMigrantMsgs = s.futureLateMigrantMsgs ∧ Settled s'
  advance : s.redNo < s'.redNo → s.lcount ≤ s.nContrib ∧ s.numKids ≤ s.nRemote ∧ Early s' ∧
    (Settled s' ∨ ∃ m ∈ s.futureLateMigrantMsgs, m.redNo = s'.redNo)
  between : ∀ k, s.redNo < k → k < s'.redNo → Ready s (view s k)

/-- The queue may be delivered: migrants' contributions are not missing, or not
waited for. -/
def Balanced [Inhabited δ] (env : ReductionEnv δ) (s : NodeMgr δ)
    (msgs : List (CkReductionMsg δ)) : Prop :=
  ∃ result, nodeReduceMessages env s.redNo msgs = some result ∧
    (result.migratableContributor → result.gcount + s.additionalGCount = result.sourceFlag)

/-- Inversion of `finishReduction` at the root: nothing to do yet, migrants
still missing, or the reduction is delivered and the queues are replayed. -/
theorem finishReduction_cases [Inhabited δ] {fuel : Nat}
    (hroot : RootOk s) (h : finishReduction env (fuel + 1) s = .ok s') :
    (s' = s ∧ Settled s) ∨
    (∃ result, s' = { s with msgs := [result] } ∧ result.nSources = srcSum s.msgs ∧
      result.gcount = gcountSum s.msgs ∧ Settled s') ∨
    (∃ d s1 s2, s.lcount ≤ s.nContrib ∧ s.numKids ≤ s.nRemote ∧ Balanced env s s.msgs ∧
      replay deqLocal (doAddContribution (finishReduction env fuel)) s.futureMsgs.length
        (nextReduction { s with msgs := [], delivered := d }) = .ok s1 ∧
      replay deqRemote (doRecvMsg (finishReduction env fuel)) s1.futureRemoteMsgs.length s1 =
        .ok s2 ∧ s' = s2.moveLateMigrants) := by
  rw [finishReduction] at h
  split at h
  · next hidle =>
      obtain rfl : s = s' := by simpa using h
      refine .inl ⟨rfl, fun hset => ?_⟩
      have hpos := hroot.lcount_pos
      have := hroot.started (by omega)
      simp [this, hroot.notCreating] at hidle
  split at h
  · next hlocal =>
      obtain rfl : s = s' := by simpa using h
      exact .inl ⟨rfl, fun hset => absurd hset.1 (by omega)⟩
  split at h
  · next hremote =>
      obtain rfl : s = s' := by simpa using h
      exact .inl ⟨rfl, fun hset => absurd hset.2.1 (by omega)⟩
  split at h
  · exact absurd h (by simp)
  · next hlocal hremote hexcess =>
      cases hred : nodeReduceMessages env s.redNo s.msgs with
      | none => rw [hred] at h; exact absurd h (by simp)
      | some result =>
        rw [hred] at h
        obtain ⟨hflag, hsrc, hg⟩ := nodeReduceMessages_sums hred
        obtain ⟨⟨s0, done⟩, hhand, h⟩ := bind_eq_ok.mp h
        dsimp only [handOn] at hhand
        rw [if_neg (by rw [hroot.isRoot]; decide)] at hhand
        split at hhand
        · -- the contributions do not balance: the message waits for migrants
          next hunbal =>
            obtain ⟨rfl, rfl⟩ := hhand
            obtain rfl : _ = s' := by simpa using h
            refine .inr (.inl ⟨result, rfl, hsrc, hg, fun hset => hunbal.2 ?_⟩)
            have := hset.2.2
            simp only [srcSum, gcountSum, map_cons, map_nil, sum_cons, sum_nil, add_zero] at this
            rw [hflag, ← hsrc]
            exact this.symm
        · next hbal =>
          obtain ⟨s0', hdel, hs0⟩ := bind_eq_ok.mp hhand
          obtain ⟨rfl, rfl⟩ := hs0
          unfold deliver at hdel
          dsimp only at hdel
          split at hdel
          · obtain rfl := Except.ok.inj hdel
            obtain ⟨s1, hloc, h⟩ := bind_eq_ok.mp h
            obtain ⟨s2, hrem, h⟩ := bind_eq_ok.mp h
            have hbal' : Balanced env s s.msgs :=
              ⟨result, hred, fun hm => not_not.mp fun hne => hbal ⟨hm, hne⟩⟩
            exact .inr (.inr
              ⟨_, s1, s2, by omega, by omega, hbal', hloc, hrem, (Except.ok.inj h).symm⟩)
          · exact absurd hdel (by simp)

/-! ### The replay loops -/

theorem replay_induction {P : Nat → NodeMgr δ → Prop}
    (hnone : ∀ n s, P (n + 1) s → deq s = none → P n s)
    (hsome : ∀ n s m s1 s2, P (n + 1) s → deq s = some (m, s1) → handle s1 m = .ok s2 → P n s2) :
    ∀ n s s', P n s → replay deq handle n s = .ok s' → P 0 s' := by
  intro n
  induction n with
  | zero =>
    intro s s' hP h
    obtain rfl : s = s' := by simpa [replay] using h
    exact hP
  | succ n ih =>
    intro s s' hP h
    rw [replay] at h
    cases hd : deq s with
    | none =>
      rw [hd] at h
      exact ih s s' (hnone n s hP hd) h
    | some q =>
      obtain ⟨m, s1⟩ := q
      rw [hd] at h
      obtain ⟨s2, hh, h⟩ := bind_eq_ok.mp h
      exact ih s2 s' (hsome n s m s1 s2 hP hd hh) h

/-- The invariant of both replay loops, relative to the state they start in. -/
structure LoopInv (base s : NodeMgr δ) : Prop where
  root : RootOk s
  params : SameParams base s
  mono : base.redNo ≤ s.redNo
  view_eq : ∀ j, s.redNo ≤ j → view s j = view base j
  lates : ∀ m ∈ s.futureLateMigrantMsgs, m ∈ base.futureLateMigrantMsgs
  settled : Settled s ∨ ∃ m ∈ base.futureLateMigrantMsgs, m.redNo = s.redNo
  moved : base.redNo < s.redNo → Early s
  between : ∀ k, base.redNo ≤ k → k < s.redNo → Ready base (view base k)

/-- Extending the loop invariant by a call of `finishReduction` from a state `t`
that differs from the loop state only in having one early message counted in. -/
theorem LoopInv.finish {t : NodeMgr δ} (hinv : LoopInv base s) (hfin : FinSpec t s')
    (hred : t.redNo = s.redNo) (hparams : SameParams s t)
    (hlates : t.futureLateMigrantMsgs = s.futureLateMigrantMsgs)
    (hview : ∀ j, s.redNo ≤ j → view t j = view s j)
    (hearly : Early s → Early t) : LoopInv base s' where
  root := hfin.root
  params := (hinv.params.trans hparams).trans hfin.params
  mono := hinv.mono.trans (hred ▸ hfin.mono)
  view_eq j hj := by
    have hsj : s.redNo ≤ j := hred ▸ hfin.mono.trans hj
    rw [hfin.view_eq j hj, hview j hsj, hinv.view_eq j hsj]
  lates m hm := hinv.lates m (hlates ▸ hfin.lates m hm)
  settled := by
    rcases lt_or_eq_of_le hfin.mono with hlt | heq
    · rcases (hfin.advance hlt).2.2.2 with hs | ⟨m, hm, hmj⟩
      · exact .inl hs
      · exact .inr ⟨m, hinv.lates m (hlates ▸ hm), hmj⟩
    · exact .inl (hfin.stay heq.symm).2.2.2
  moved hbase := by
    rcases lt_or_eq_of_le hfin.mono with hlt | heq
    · exact (hfin.advance hlt).2.2.1
    · obtain ⟨hl, hr, hlate, -⟩ := hfin.stay heq.symm
      have ht := hearly (hinv.moved (by omega))
      refine ⟨?_, ?_, ?_⟩
      · rw [hl, ← heq]; exact ht.locals
      · rw [hr, ← heq]; exact ht.remotes
      · rw [hlate, ← heq]; exact ht.lates
  between k hbase hk := by
    have hp := hinv.params.trans hparams
    have hready : ∀ v, Ready t v → Ready base v := by
      rintro v ⟨h1, h2⟩
      exact ⟨hp.lcount ▸ h1, hp.numKids ▸ h2⟩
    rcases lt_trichotomy k s.redNo with hlt | rfl | hlt
    · exact hinv.between k hbase hlt
    · -- the reduction the loop was at: its messages are counted in
      obtain ⟨h1, h2, -, -⟩ := hfin.advance (by omega)
      rw [← hinv.view_eq _ le_rfl, ← hview _ le_rfl]
      refine hready _ ⟨h1.trans ?_, h2.trans ?_⟩ <;> simp [view, hred]
    · rw [← hinv.view_eq k hlt.le, ← hview k hlt.le]
      exact hready _ (hfin.between k (by omega) hk)

theorem startReduction_present {s1 : NodeMgr δ} (hroot : RootOk s)
    (h : s.startReduction s.redNo = .ok s1) : s1 = { s with inProgress := true } := by
  unfold startReduction at h
  rw [if_neg (by omega), if_neg (by omega)] at h
  split at h
  · next hp =>
      obtain rfl : s = s1 := by simpa using h
      rw [← hp]
  · rw [if_neg (by rw [hroot.notCreating]; decide)] at h
    exact (Except.ok.inj h).symm

/-- Inversion of `doAddContribution`: the message waits, or it is for the
current reduction and is counted in. -/
theorem doAddContribution_cases {finish : NodeMgr δ → Except NodeAbort (NodeMgr δ)}
    (hroot : RootOk s) (h : doAddContribution finish s m = .ok s') :
    (s.redNo < m.redNo ∧ s' = { s with futureMsgs := s.futureMsgs ++ [m] }) ∨
    (m.redNo = s.redNo ∧ finish { s with
      inProgress := true, msgs := s.msgs ++ [m], nContrib := s.nContrib + 1 } = .ok s') := by
  unfold doAddContribution at h
  split at h
  · next hfut => exact .inl ⟨hfut, (Except.ok.inj h).symm⟩
  · next hfut =>
      obtain ⟨s1, hstart, h⟩ := bind_eq_ok.mp h
      by_cases hlt : m.redNo < s.redNo
      · unfold startReduction at hstart
        rw [if_neg (by omega), if_pos hlt] at hstart
        exact absurd hstart (by simp)
      · have heq : m.redNo = s.redNo := by omega
        rw [heq] at hstart
        obtain rfl := startReduction_present hroot hstart
        exact .inr ⟨heq, h⟩

/-- Inversion of `doRecvMsg`. -/
theorem doRecvMsg_cases {finish : NodeMgr δ → Except NodeAbort (NodeMgr δ)} (hroot : RootOk s)
    (h : doRecvMsg finish s m = .ok s') :
    (s.redNo < m.redNo ∧ s' = { s with futureRemoteMsgs := s.futureRemoteMsgs ++ [m] }) ∨
    (m.redNo = s.redNo ∧ finish { s with
      inProgress := true, msgs := s.msgs ++ [m], nRemote := s.nRemote + 1 } = .ok s') := by
  unfold doRecvMsg at h
  split at h
  · next heq =>
      obtain ⟨s1, hstart, h⟩ := bind_eq_ok.mp h
      rw [heq] at hstart
      obtain rfl := startReduction_present hroot hstart
      exact .inr ⟨heq, h⟩
  · split at h
    · next hfut => exact .inl ⟨hfut, (Except.ok.inj h).symm⟩
    · exact absurd h (by simp)

theorem LoopInv.local_round (hfin : ∀ t t', RootOk t → fin t = .ok t' → FinSpec t t')
    (hinv : LoopInv base s)
    (hq : s.futureMsgs = m :: rest)
    (h : doAddContribution fin { s with futureMsgs := rest } m = .ok s') :
    LoopInv base s' ∧ (Early s' ∨ (s'.redNo = s.redNo ∧ s'.futureRemoteMsgs = s.futureRemoteMsgs ∧
      (s'.futureMsgs = rest ∨ (s.redNo < m.redNo ∧ s'.futureMsgs = rest ++ [m])))) := by
  have hroot : RootOk { s with futureMsgs := rest } :=
    ⟨hinv.root.1, hinv.root.2, hinv.root.3, hinv.root.4⟩
  rcases doAddContribution_cases hroot h with ⟨hfut, rfl⟩ | ⟨hm, hf⟩
  · refine ⟨?_, .inr ⟨rfl, rfl, .inr ⟨hfut, rfl⟩⟩⟩
    refine ⟨⟨hinv.root.1, hinv.root.2, hinv.root.3, hinv.root.4⟩,
      ⟨hinv.params.1, hinv.params.2, hinv.params.3⟩, hinv.mono, ?_, hinv.lates, hinv.settled, ?_,
      hinv.between⟩
    · intro j hj
      exact (view_requeue_local hq j).trans (hinv.view_eq j hj)
    · intro hbase
      have he := hinv.moved hbase
      refine ⟨?_, he.remotes, he.lates⟩
      intro x hx
      rcases mem_append.mp hx with hx | hx
      · exact he.locals x (by rw [hq]; exact mem_cons_of_mem m hx)
      · rw [mem_singleton.mp hx]; exact hfut
  · have ht : RootOk { s with
        futureMsgs := rest, inProgress := true, msgs := s.msgs ++ [m]
        nContrib := s.nContrib + 1 } :=
      ⟨hinv.root.1, hinv.root.2, hinv.root.3, fun _ => rfl⟩
    have hspec := hfin _ _ ht hf
    refine ⟨hinv.finish hspec rfl ⟨rfl, rfl, rfl⟩ rfl (fun j _ => view_count_local hq hm true j) ?_,
      ?_⟩
    · intro he
      exact ⟨fun x hx => he.locals x (by rw [hq]; exact mem_cons_of_mem m hx), he.remotes, he.lates⟩
    · rcases lt_or_eq_of_le hspec.mono with hlt | heq
      · exact .inl (hspec.advance hlt).2.2.1
      · obtain ⟨hl, hr, -, -⟩ := hspec.stay heq.symm
        exact .inr ⟨heq.symm, hr, .inl hl⟩

theorem LoopInv.remote_round (hfin : ∀ t t', RootOk t → fin t = .ok t' → FinSpec t t')
    (hinv : LoopInv base s)
    (hq : s.futureRemoteMsgs = m :: rest)
    (h : doRecvMsg fin { s with futureRemoteMsgs := rest } m = .ok s') :
    LoopInv base s' ∧ (Early s' ∨ (s'.redNo = s.redNo ∧ s'.futureMsgs = s.futureMsgs ∧
      (s'.futureRemoteMsgs = rest ∨ (s.redNo < m.redNo ∧ s'.futureRemoteMsgs = rest ++ [m])))) := by
  have hroot : RootOk { s with futureRemoteMsgs := rest } := ⟨hinv.root.1, hinv.root.2,
    hinv.root.3, hinv.root.4⟩
  rcases doRecvMsg_cases hroot h with ⟨hfut, rfl⟩ | ⟨hm, hf⟩
  · refine ⟨?_, .inr ⟨rfl, rfl, .inr ⟨hfut, rfl⟩⟩⟩
    refine ⟨⟨hinv.root.1, hinv.root.2, hinv.root.3, hinv.root.4⟩,
      ⟨hinv.params.1, hinv.params.2, hinv.params.3⟩, hinv.mono, ?_, hinv.lates, hinv.settled, ?_,
      hinv.between⟩
    · intro j hj
      exact (view_requeue_remote hq j).trans (hinv.view_eq j hj)
    · intro hbase
      have he := hinv.moved hbase
      refine ⟨he.locals, ?_, he.lates⟩
      intro x hx
      rcases mem_append.mp hx with hx | hx
      · exact he.remotes x (by rw [hq]; exact mem_cons_of_mem m hx)
      · rw [mem_singleton.mp hx]; exact hfut
  · have ht : RootOk { s with
        futureRemoteMsgs := rest, inProgress := true, msgs := s.msgs ++ [m]
        nRemote := s.nRemote + 1 } :=
      ⟨hinv.root.1, hinv.root.2, hinv.root.3, fun _ => rfl⟩
    have hspec := hfin _ _ ht hf
    refine ⟨hinv.finish hspec rfl ⟨rfl, rfl, rfl⟩ rfl
      (fun j _ => view_count_remote hq hm true j) ?_, ?_⟩
    · intro he
      exact ⟨he.locals, fun x hx => he.remotes x (by rw [hq]; exact mem_cons_of_mem m hx), he.lates⟩
    · rcases lt_or_eq_of_le hspec.mono with hlt | heq
      · exact .inl (hspec.advance hlt).2.2.1
      · obtain ⟨hl, hr, -⟩ := hspec.stay heq.symm
        exact .inr ⟨heq.symm, hl, .inl hr⟩

/-- Going round a queue: what the loop has not visited yet shrinks, and what it
puts back is for a later reduction. -/
theorem drop_requeue {α : Type} {P : α → Prop} {m : α} {rest q' : List α}
    (h : ∀ x ∈ (m :: rest).drop (n + 1), P x) (hq : q' = rest ∨ (P m ∧ q' = rest ++ [m])) :
    ∀ x ∈ q'.drop n, P x := by
  rcases hq with rfl | ⟨hm, rfl⟩
  · exact h
  · intro x hx
    rw [drop_append] at hx
    rcases mem_append.mp hx with hx | hx
    · exact h x hx
    · rw [mem_singleton.mp (mem_of_mem_drop hx)]
      exact hm

theorem replay_local (hfin : ∀ t t', RootOk t → fin t = .ok t' → FinSpec t t')
    (hinv : LoopInv base base)
    (h : replay deqLocal (doAddContribution fin) base.futureMsgs.length base = .ok s') :
    LoopInv base s' ∧ ∀ m ∈ s'.futureMsgs, s'.redNo < m.redNo := by
  have hind := replay_induction
    (P := fun n s => LoopInv base s ∧ ∀ m ∈ s.futureMsgs.drop n, s.redNo < m.redNo) ?_ ?_
    base.futureMsgs.length base s' ⟨hinv, by simp⟩ h
  · simpa using hind
  · rintro n s ⟨hi, -⟩ hd
    refine ⟨hi, ?_⟩
    cases hq : s.futureMsgs with
    | nil => simp
    | cons m rest => simp [deqLocal, hq] at hd
  · rintro n s m s1 s2 ⟨hi, hdrop⟩ hd hh
    cases hq : s.futureMsgs with
    | nil => simp [deqLocal, hq] at hd
    | cons m' rest =>
      simp only [deqLocal, hq, Option.some.injEq] at hd
      obtain ⟨rfl, rfl⟩ := hd
      obtain ⟨hi', hcase⟩ := hi.local_round hfin hq hh
      refine ⟨hi', ?_⟩
      rcases hcase with he | ⟨hred, -, hlist⟩
      · exact fun x hx => he.locals x (mem_of_mem_drop hx)
      · rw [hq] at hdrop
        rw [hred]
        exact drop_requeue hdrop hlist

/-- The remote replay loop visits every early remote message and brings no
current local one back. -/
theorem replay_remote (hfin : ∀ t t', RootOk t → fin t = .ok t' → FinSpec t t')
    (hinv : LoopInv base s) (hloc : ∀ m ∈ s.futureMsgs, s.redNo < m.redNo)
    (h : replay deqRemote (doRecvMsg fin) s.futureRemoteMsgs.length s = .ok s') :
    LoopInv base s' ∧ (∀ m ∈ s'.futureMsgs, s'.redNo < m.redNo) ∧
      ∀ m ∈ s'.futureRemoteMsgs, s'.redNo < m.redNo := by
  have hind :=
    replay_induction (P := fun n t => LoopInv base t ∧ (∀ m ∈ t.futureMsgs, t.redNo < m.redNo) ∧
      ∀ m ∈ t.futureRemoteMsgs.drop n, t.redNo < m.redNo) ?_ ?_
    s.futureRemoteMsgs.length s s' ⟨hinv, hloc, by simp⟩ h
  · simpa using hind
  · rintro n t ⟨hi, hl, -⟩ hd
    refine ⟨hi, hl, ?_⟩
    cases hq : t.futureRemoteMsgs with
    | nil => simp
    | cons m rest => simp [deqRemote, hq] at hd
  · rintro n t m t1 t2 ⟨hi, hl, hdrop⟩ hd hh
    cases hq : t.futureRemoteMsgs with
    | nil => simp [deqRemote, hq] at hd
    | cons m' rest =>
      simp only [deqRemote, hq, Option.some.injEq] at hd
      obtain ⟨rfl, rfl⟩ := hd
      obtain ⟨hi', hcase⟩ := hi.remote_round hfin hq hh
      rcases hcase with he | ⟨hred, hlocal, hlist⟩
      · exact ⟨hi', he.locals, fun x hx => he.remotes x (mem_of_mem_drop hx)⟩
      · rw [hq] at hdrop
        refine ⟨hi', ?_, ?_⟩
        · rw [hlocal, hred]; exact hl
        · rw [hred]; exact drop_requeue hdrop hlist

/-- The late migrants' loop closes the invariant: unless it moved a message,
the current reduction is settled. -/
theorem LoopInv.moveLateMigrants (hinv : LoopInv base s)
    (hloc : ∀ m ∈ s.futureMsgs, s.redNo < m.redNo)
    (hrem : ∀ m ∈ s.futureRemoteMsgs, s.redNo < m.redNo) :
    LoopInv base s.moveLateMigrants ∧ Early s.moveLateMigrants := by
  have hearly : Early s.moveLateMigrants := by
    refine ⟨hloc, hrem, ?_⟩
    intro m hm
    have hne : ¬ m.redNo = s.redNo := by simpa using (mem_filter.mp hm).2
    exact hne
  refine ⟨⟨⟨hinv.root.1, hinv.root.2, hinv.root.3, hinv.root.4⟩,
    ⟨hinv.params.1, hinv.params.2, hinv.params.3⟩, hinv.mono, ?_, ?_, ?_, fun _ => hearly,
    hinv.between⟩, hearly⟩
  · intro j hj
    exact (view_moveLateMigrants s j).trans (hinv.view_eq j hj)
  · intro m hm
    exact hinv.lates m (mem_of_mem_filter hm)
  · by_cases hmoved : s.futureLateMigrantMsgs.filter (fun m => m.redNo = s.redNo) = []
    · rcases hinv.settled with hs | hlate
      · refine .inl ?_
        unfold Settled NodeMgr.moveLateMigrants
        rw [hmoved, append_nil]
        exact hs
      · exact .inr hlate
    · obtain ⟨m, rest, hm⟩ := exists_cons_of_ne_nil hmoved
      have hmem : m ∈ s.futureLateMigrantMsgs.filter (fun m => m.redNo = s.redNo) := by
        rw [hm]; simp
      obtain ⟨hm1, hm2⟩ := mem_filter.mp hmem
      have heq : m.redNo = s.redNo := by simpa using hm2
      exact .inr ⟨m, hinv.lates m hm1, heq⟩

/-- **The description of `finishReduction`**, by induction on the fuel. -/
theorem finishReduction_spec [Inhabited δ] (env : ReductionEnv δ) (fuel : Nat) :
    ∀ s s' : NodeMgr δ, RootOk s → finishReduction env fuel s = .ok s' → FinSpec s s' := by
  induction fuel with
  | zero => intro s s' _ h; simp [finishReduction] at h
  | succ fuel ih =>
    intro s s' hroot h
    rcases finishReduction_cases hroot h with ⟨rfl, hset⟩ | ⟨result, rfl, hsrc, hg, hset⟩ |
      ⟨d, s1, s2, hlocal, hremote, -, hloc, hrem, rfl⟩
    · exact ⟨hroot, ⟨rfl, rfl, rfl⟩, le_rfl, fun _ _ => rfl, fun _ hm => hm,
        fun _ => ⟨rfl, rfl, rfl, hset⟩, fun hlt => absurd hlt (lt_irrefl _),
        fun k h1 h2 => absurd (h1.trans h2) (lt_irrefl _)⟩
    · exact ⟨⟨hroot.1, hroot.2, hroot.3, hroot.4⟩, ⟨rfl, rfl, rfl⟩, le_rfl,
        fun j _ => view_reenqueue hsrc hg j, fun _ hm => hm,
        fun _ => ⟨rfl, rfl, rfl, hset⟩, fun hlt => absurd hlt (lt_irrefl _),
        fun k h1 h2 => absurd (h1.trans h2) (lt_irrefl _)⟩
    · have hpos := hroot.lcount_pos
      set base := nextReduction { s with msgs := [], delivered := d } with hbase
      have hinv : LoopInv base base := by
        refine ⟨⟨hroot.1, hroot.2, hroot.3, fun h0 => absurd h0 (by simp [hbase, nextReduction])⟩,
          ⟨rfl, rfl, rfl⟩, le_rfl, fun _ _ => rfl, fun _ hm => hm, .inl ?_,
          fun hlt => absurd hlt (lt_irrefl _), fun k h1 h2 => absurd h2 (by omega)⟩
        intro hset
        have h1 : s.lcount ≤ 0 := hset.1
        omega
      obtain ⟨hinv1, hl1⟩ := replay_local ih hinv hloc
      obtain ⟨hinv2, hl2, hr2⟩ := replay_remote ih hinv1 hl1 hrem
      obtain ⟨hinv3, hearly⟩ := hinv2.moveLateMigrants hl2 hr2
      have hadv : s.redNo < s2.moveLateMigrants.redNo := hinv3.mono
      refine ⟨hinv3.root, ⟨hinv3.params.1, hinv3.params.2, hinv3.params.3⟩, hadv.le, ?_,
        hinv3.lates, fun heq => absurd heq (by omega),
        fun _ => ⟨hlocal, hremote, hearly, hinv3.settled⟩, ?_⟩
      · intro j hj
        rw [hinv3.view_eq j hj, view_nextReduction (by omega)]
      · intro k hk1 hk2
        have hready := hinv3.between k hk1 hk2
        rw [view_nextReduction hk1] at hready
        exact hready

theorem finishReduction_balanced [Inhabited δ] {fuel : Nat}
    (hroot : RootOk s) (h : finishReduction env fuel s = .ok s')
    (hlt : s.redNo < s'.redNo) : Balanced env s s.msgs := by
  cases fuel with
  | zero => simp [finishReduction] at h
  | succ fuel =>
    rcases finishReduction_cases hroot h with ⟨rfl, -⟩ | ⟨result, rfl, -⟩ | ⟨d, -, -, -, -, hbal, -⟩
    · exact absurd hlt (lt_irrefl _)
    · exact absurd hlt (lt_irrefl _)
    · exact hbal

/-! ### Runs -/

/-- The messages held for the current reduction: the queue, and early
late-migrant messages that were not moved yet. -/
def held (s : NodeMgr δ) : List (CkReductionMsg δ) :=
  s.msgs ++ ofRedNo s.redNo s.futureLateMigrantMsgs

/-- Nothing is missing for the current reduction, yet it is not delivered. -/
def Stuck (s : NodeMgr δ) : Prop :=
  s.lcount ≤ s.nContrib ∧ s.numKids ≤ s.nRemote ∧
    srcSum (held s) = gcountSum (held s) + s.additionalGCount

/-- The messages that arrived early for reduction `j`. -/
def early (s : NodeMgr δ) (j : Nat) : List (CkReductionMsg δ) :=
  ofRedNo j s.futureMsgs ++ ofRedNo j s.futureRemoteMsgs ++ ofRedNo j s.futureLateMigrantMsgs

/-- Reduction `j` is complete in the early queues, a late-migrant message being
one of its messages. -/
def EarlyComplete (s : NodeMgr δ) (j : Nat) : Prop :=
  s.lcount ≤ (ofRedNo j s.futureMsgs).length ∧ s.numKids ≤ (ofRedNo j s.futureRemoteMsgs).length ∧
    ofRedNo j s.futureLateMigrantMsgs ≠ [] ∧
    srcSum (early s j) = gcountSum (early s j) + s.additionalGCount

/-- The event's message is the last one the current reduction waits for, so
handling it delivers the reduction. -/
def Completes [Inhabited δ] (env : ReductionEnv δ) (s : NodeMgr δ) (e : Event δ) : Prop :=
  e.msg.redNo = s.redNo ∧ Balanced env s (s.msgs ++ [e.msg]) ∧
    match e with
    | .contribution _ => s.lcount ≤ s.nContrib + 1 ∧ s.numKids ≤ s.nRemote
    | .remote _ => s.lcount ≤ s.nContrib ∧ s.numKids ≤ s.nRemote + 1
    | .lateMigrant _ => s.lcount ≤ s.nContrib ∧ s.numKids ≤ s.nRemote

/-- The early queues hold the local and remote messages of every reduction
between the current one and `j`, so that replaying them gets as far as `j`. -/
def ReadyUpTo (s : NodeMgr δ) (j : Nat) : Prop :=
  ∀ k, s.redNo < k → k < j →
    s.lcount ≤ (ofRedNo k s.futureMsgs).length ∧ s.numKids ≤ (ofRedNo k s.futureRemoteMsgs).length

/-- The step does not run into the unfinished replay: if it completes the
current reduction, no later one that the replay gets to is complete in the early
queues. -/
def StepOk [Inhabited δ] (env : ReductionEnv δ) (s : NodeMgr δ) (e : Event δ) : Prop :=
  Completes env s e → ∀ j, s.redNo < j → ReadyUpTo s j → ¬ EarlyComplete s j

/-- The invariant of the handlers. -/
structure Inv (s : NodeMgr δ) : Prop where
  root : RootOk s
  queues : Early s
  notStuck : ¬ Stuck s

/-- Between handlers nothing early is for the current reduction, so only `msgs`
is held for it. -/
theorem Early.held_eq (h : Early s) : held s = s.msgs := by
  rw [held, ofRedNo_eq_nil_iff.mpr h.lates, append_nil]

theorem Early.stuck_iff (h : Early s) : ¬ Stuck s ↔ Settled s := by
  unfold Stuck Settled
  rw [h.held_eq]

theorem Early.view_current (h : Early s) :
    view s s.redNo = ⟨s.nContrib, s.nRemote, srcSum s.msgs, gcountSum s.msgs⟩ := by
  have hl : ofRedNo s.redNo s.futureMsgs = [] :=
    ofRedNo_eq_nil_iff.mpr fun m hm => (h.locals m hm).ne'
  have hr : ofRedNo s.redNo s.futureRemoteMsgs = [] :=
    ofRedNo_eq_nil_iff.mpr fun m hm => (h.remotes m hm).ne'
  have hlate : ofRedNo s.redNo s.futureLateMigrantMsgs = [] := ofRedNo_eq_nil_iff.mpr h.lates
  simp [view, hl, hr, hlate]

theorem view_later {j : Nat} (hj : s.redNo < j) :
    view s j = ⟨(ofRedNo j s.futureMsgs).length, (ofRedNo j s.futureRemoteMsgs).length,
      srcSum (early s j), gcountSum (early s j)⟩ := by
  have hne : j ≠ s.redNo := hj.ne'
  simp only [view, if_neg hne, early, srcSum_append, gcountSum_append, View.mk.injEq]
  refine ⟨?_, ?_, ?_, ?_⟩ <;> ring

/-- **The step lemma.** From a state `t` that only counted the event's message
in, `finishReduction` restores the invariant unless a later reduction is
complete early. -/
theorem Inv.of_finish {t : NodeMgr δ} (hinv : Inv s) (hfin : FinSpec t s')
    (hred : t.redNo = s.redNo) (hparams : SameParams s t)
    (hl : t.futureMsgs = s.futureMsgs) (hr : t.futureRemoteMsgs = s.futureRemoteMsgs)
    (hlate : t.futureLateMigrantMsgs = s.futureLateMigrantMsgs)
    (hok : t.redNo < s'.redNo → t.lcount ≤ t.nContrib → t.numKids ≤ t.nRemote →
      ∀ j, s.redNo < j → ReadyUpTo s j → ¬ EarlyComplete s j) : Inv s' := by
  rcases lt_or_eq_of_le hfin.mono with hlt | heq
  · obtain ⟨hc1, hc2, hearly, hset⟩ := hfin.advance hlt
    refine ⟨hfin.root, hearly, ?_⟩
    rcases hset with hset | ⟨m, hm, hmj⟩
    · exact hearly.stuck_iff.mpr hset
    · -- a late migrant was moved last: a stuck state was complete early
      intro hstuck
      have hj : s.redNo < s'.redNo := hred ▸ hlt
      have hview : view s' s'.redNo = view s s'.redNo := by
        have hne : s'.redNo ≠ s.redNo := hj.ne'
        rw [hfin.view_eq _ le_rfl]
        simp [view, hred, hne, hl, hr, hlate]
      rw [hearly.view_current, view_later hj, View.mk.injEq] at hview
      obtain ⟨hv1, hv2, hv3, hv4⟩ := hview
      have hp := hparams.trans hfin.params
      obtain ⟨hs1, hs2, hs3⟩ := hstuck
      rw [hearly.held_eq, hv3, hv4] at hs3
      have hupto : ReadyUpTo s s'.redNo := by
        intro k hk1 hk2
        obtain ⟨h1, h2⟩ := hfin.between k (hred ▸ hk1) hk2
        have hne : k ≠ s.redNo := hk1.ne'
        simp only [view, hred, if_neg hne, hl, hr, hparams.lcount, hparams.numKids] at h1 h2
        exact ⟨by omega, by omega⟩
      refine hok hlt hc1 hc2 s'.redNo hj hupto ⟨?_, ?_, ?_, ?_⟩
      · rw [← hv1, ← hp.lcount]; exact hs1
      · rw [← hv2, ← hp.numKids]; exact hs2
      · exact fun hnil => ofRedNo_eq_nil_iff.mp hnil m (hlate ▸ hm) hmj
      · rw [hs3, hp.additional]
  · obtain ⟨hl', hr', hlate', hset⟩ := hfin.stay heq.symm
    have hq : Early s' := by
      have heq' : s'.redNo = s.redNo := heq.symm.trans hred
      refine ⟨?_, ?_, ?_⟩
      · rw [hl', hl, heq']; exact hinv.queues.locals
      · rw [hr', hr, heq']; exact hinv.queues.remotes
      · rw [hlate', hlate, heq']; exact hinv.queues.lates
    exact ⟨hfin.root, hq, hq.stuck_iff.mpr hset⟩

theorem Inv.of_queued (hinv : Inv s) (hroot : RootOk s')
    (hq : Early s') (hset : Settled s' ↔ Settled s) : Inv s' :=
  ⟨hroot, hq, hq.stuck_iff.mpr (hset.mpr (hinv.queues.stuck_iff.mp hinv.notStuck))⟩

/-- An event that meets `StepOk` keeps the invariant. -/
theorem handle_inv [Inhabited δ] {e : Event δ}
    (hinv : Inv s) (hok : StepOk env s e) (hnew : s.redNo ≤ e.msg.redNo)
    (h : s.handle env e = .ok s') : Inv s' := by
  have hroot := hinv.root
  have hq := hinv.queues
  cases e with
  | contribution m =>
    rcases doAddContribution_cases hroot h with ⟨hfut, rfl⟩ | ⟨hm, hf⟩
    · refine hinv.of_queued ⟨hroot.1, hroot.2, hroot.3, hroot.4⟩ ⟨?_, hq.remotes, hq.lates⟩ Iff.rfl
      intro x hx
      rcases mem_append.mp hx with hx | hx
      · exact hq.locals x hx
      · rw [mem_singleton.mp hx]; exact hfut
    · have ht : RootOk { s with
          inProgress := true, msgs := s.msgs ++ [m], nContrib := s.nContrib + 1 } :=
        ⟨hroot.1, hroot.2, hroot.3, fun _ => rfl⟩
      exact hinv.of_finish (finishReduction_spec env _ _ s' ht hf) rfl ⟨rfl, rfl, rfl⟩ rfl rfl rfl
        (fun hlt h1 h2 => hok ⟨hm, finishReduction_balanced ht hf hlt, h1, h2⟩)
  | remote m =>
    rcases doRecvMsg_cases hroot h with ⟨hfut, rfl⟩ | ⟨hm, hf⟩
    · refine hinv.of_queued ⟨hroot.1, hroot.2, hroot.3, hroot.4⟩ ⟨hq.locals, ?_, hq.lates⟩ Iff.rfl
      intro x hx
      rcases mem_append.mp hx with hx | hx
      · exact hq.remotes x hx
      · rw [mem_singleton.mp hx]; exact hfut
    · have ht : RootOk { s with
          inProgress := true, msgs := s.msgs ++ [m], nRemote := s.nRemote + 1 } :=
        ⟨hroot.1, hroot.2, hroot.3, fun _ => rfl⟩
      exact hinv.of_finish (finishReduction_spec env _ _ s' ht hf) rfl ⟨rfl, rfl, rfl⟩ rfl rfl rfl
        (fun hlt h1 h2 => hok ⟨hm, finishReduction_balanced ht hf hlt, h1, h2⟩)
  | lateMigrant m =>
    change s.lateMigrantMsg env m = .ok s' at h
    unfold lateMigrantMsg at h
    split at h
    · next hfut =>
        obtain rfl := Except.ok.inj h
        refine hinv.of_queued ⟨hroot.1, hroot.2, hroot.3, hroot.4⟩
          ⟨hq.locals, hq.remotes, ?_⟩ Iff.rfl
        intro x hx
        rcases mem_append.mp hx with hx | hx
        · exact hq.lates x hx
        · rw [mem_singleton.mp hx]; exact hfut.ne'
    · next hfut =>
        have hm : m.redNo = s.redNo := le_antisymm (by omega) hnew
        have ht : RootOk { s with msgs := s.msgs ++ [m] } :=
          ⟨hroot.1, hroot.2, hroot.3, hroot.4⟩
        exact hinv.of_finish (finishReduction_spec env _ _ s' ht h) rfl ⟨rfl, rfl, rfl⟩ rfl rfl
          rfl (fun hlt h1 h2 => hok ⟨hm, finishReduction_balanced ht h hlt, h1, h2⟩)

/-- **No stuck reduction.** In every run of the root's manager in which no step
completes a reduction while a later one, next in line, is complete in the early
queues with a late-migrant message, no state is stuck. -/
theorem root_never_stuck [Inhabited δ] (env : ReductionEnv δ) (numKids : Nat) (cb : CkCallback)
    {s : NodeMgr δ} (h : (rootSystem env numKids cb).RunsWith (StepOk env) s) : ¬ Stuck s := by
  have hinv : Inv s := by
    refine h.invariant ?_ ?_
    · rintro s rfl
      refine ⟨⟨rfl, rfl, one_pos, fun h0 => absurd h0 (by simp [new])⟩,
        ⟨by simp [new], by simp [new], by simp [new]⟩, ?_⟩
      rintro ⟨h1, -⟩
      simp [new] at h1
    · rintro s e s' hi hok ⟨hnew, hs⟩
      exact handle_inv hi hok hnew hs
  exact hinv.notStuck

/-! ### Two runs of a root without kids

The messages carry no data and a migratable contributor. -/

/-- An environment whose reducers keep the first message. -/
def firstEnv : ReductionEnv Unit :=
  { refnumBits := 16, reducerTable := fun _ l => l.head?, uninitMigratable := false }

/-- A message with the given source flag, element count and reduction number. -/
def unitMsg (sourceFlag gcount : Int) (redNo : Nat) : CkReductionMsg Unit :=
  { data := (), userFlag := 65535, callback := some 0, secondaryCallback := none,
    migratableContributor := true, sourceFlag, fromPE := 0, reducer := .nop, redNo, gcount }

/-- The root before its first message. -/
def unitRoot : NodeMgr Unit := new false 0 (some 1)

/-- A late migrant for reduction 1 comes first, then reduction 0 completes: the
migrant is moved in and reduction 1 waits for its local contribution. -/
theorem root_never_stuck_early_migrant :
    ∃ s1 s2, unitRoot.handle firstEnv (.lateMigrant (unitMsg (-1) 0 1)) = .ok s1 ∧
      s1.handle firstEnv (.contribution (unitMsg 1 1 0)) = .ok s2 ∧
      s2.redNo = 1 ∧ s2.msgs = [unitMsg (-1) 0 1] ∧ ¬ Stuck s2 := by
  refine ⟨{ unitRoot with futureLateMigrantMsgs := [unitMsg (-1) 0 1] },
    { unitRoot with
      redNo := 1, msgs := [unitMsg (-1) 0 1], delivered := [unitMsg 1 1 0] }, rfl, rfl,
        rfl, rfl, ?_⟩
  apply root_never_stuck firstEnv 0 (some 1)
  refine .step
    (e := .contribution (unitMsg 1 1 0))
    (.step (e := .lateMigrant (unitMsg (-1) 0 1)) (.init rfl) ?_ ⟨?_, rfl⟩) ?_
    ⟨?_, rfl⟩
  · exact fun h => absurd h.1 (by decide)
  · decide
  · intro _ j _ _ hearly
    exact absurd hearly.1 (by simp [unitRoot, new])
  · decide

/-- The slip: reduction 1 is complete in the early queues when reduction 0
completes. Its late migrant is moved in last, nobody looks again. -/
theorem stuck_run :
    ∃ s : NodeMgr Unit, (rootSystem firstEnv 0 (some 1)).Reachable s ∧ Stuck s := by
  refine ⟨{ unitRoot with
    redNo := 1, inProgress := true, nContrib := 1
    msgs := [unitMsg 1 2 1, unitMsg (-1) 0 1], delivered := [unitMsg 2 2 0] }, ?_,
    by decide, by decide, by decide⟩
  have hinit : (rootSystem firstEnv 0 (some 1)).Reachable unitRoot := .init rfl
  have h1 := hinit.step (e := .contribution (unitMsg 1 2 0)) ⟨by decide, rfl⟩
  have h2 := h1.step (e := .contribution (unitMsg 1 2 1)) ⟨by decide, rfl⟩
  have h3 := h2.step (e := .lateMigrant (unitMsg (-1) 0 1)) ⟨by decide, rfl⟩
  exact h3.step (e := .lateMigrant (unitMsg (-1) 0 0)) ⟨by decide, rfl⟩

end NodeMgr

end CharmRuntime.Reduction
