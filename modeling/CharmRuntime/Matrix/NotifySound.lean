import CharmRuntime.Lib.InFlight
import CharmRuntime.Matrix.Notify
import Mathlib.Data.List.Nodup

/-!
# Matrix.NotifySound

Notices are neither lost nor duplicated.

A run that is about to swap holds the record it saw and that record one notice
later; it swaps only when the record is still the one it saw. So each swap adds
exactly one notice to the record as it is, and the record of a child is always
its first record after the notices in the log (`Noted.stored`). `Run.next_cases`
says once what a step of a run can do.
-/

namespace CharmRuntime.Matrix.Notify

open Lib List Option

/-! ### One run -/

/-- The attempt of a run is the record it saw, one notice later. -/
def Run.Prepared (r : Run) : Prop :=
  ∀ c rest detail attempt, r.point = .swap c rest detail attempt →
    ∃ v, strToValue detail = .ok v ∧ attempt = valueToStr (v.notified r.parent)

/-- What a step of a run does: it swaps a record, or nothing that the others
see. -/
inductive Run.Does (recs : Records) (zht : Store) (r : Run) : Store × Option Text × Point → Prop
  | quiet {p : Point} (howed : { r with point := p }.owed recs = r.owed recs)
      (hprepared : { r with point := p }.Prepared) : Does recs zht r (zht, none, p)
  | swap {c : Text} {rest : List Text} {v : Value} (howed : r.owed recs = c :: rest)
      (hseen : strToValue (zht.lookup c) = .ok v) :
      Does recs zht r (zht.insert c (valueToStr (v.notified r.parent)), some c, .child rest)

theorem prepared_child (parent : Parent) (rest : List Text) :
    ({ parent, point := .child rest } : Run).Prepared := by
  rintro _ _ _ _ ⟨⟩

theorem Parent.attempt_eq {parent : Parent} {c : Text} {rest : List Text}
    {detail : Text} {v : Value}
    (hread : strToValue detail = .ok v) :
    parent.attempt c rest detail = .ok (.swap c rest detail (valueToStr (v.notified parent))) :=
  bind_eq_ok.mpr ⟨v, hread, rfl⟩

theorem prepared_attempt {parent : Parent} {detail : Text} {v : Value} (c : Text) (rest : List Text)
    (hread : strToValue detail = .ok v) :
    ({ parent, point := .swap c rest detail (valueToStr (v.notified parent)) } : Run).Prepared := by
  rintro _ _ _ _ ⟨⟩
  exact ⟨v, hread, rfl⟩

/-- **One step of a run.** It succeeds when the records of the task and of its
children can be read. -/
theorem Run.next_cases (recs : Records) {zht : Store} {r : Run} (hprepared : r.Prepared)
    (hread : ∀ c ∈ r.owed recs, ∃ v, strToValue (zht.lookup c) = .ok v)
    (hself : ∃ v, strToValue (zht.lookup r.parent.cqItem.taskId) = .ok v ∧
      some v.children = (recs r.parent.cqItem.taskId).map (·.children)) :
    ∃ out, r.next zht = .ok out ∧ r.Does recs zht out := by
  cases hpoint : r.point with
  | start =>
    obtain ⟨v, hv, hchildren⟩ := hself
    refine ⟨(zht, none, .child v.children), ?_, .quiet ?_ (prepared_child _ _)⟩
    · simp only [next, hpoint]
      exact bind_eq_ok.mpr ⟨v, hv, rfl⟩
    · simp only [owed, hpoint, ← hchildren, getD_some]
  | child rest =>
    cases rest with
    | nil =>
      refine ⟨(zht, none, .child []), ?_, .quiet ?_ (prepared_child _ _)⟩
      · simp only [next, hpoint]
        rfl
      · simp only [owed, hpoint]
    | cons c rest =>
      obtain ⟨v, hv⟩ := hread c (by simp [owed, hpoint])
      refine ⟨(zht, none, _), ?_, .quiet ?_ (prepared_attempt c rest hv)⟩
      · simp only [next, hpoint]
        exact bind_eq_ok.mpr ⟨_, Parent.attempt_eq hv, rfl⟩
      · simp only [owed, hpoint]
  | again c rest =>
    obtain ⟨v, hv⟩ := hread c (by simp [owed, hpoint])
    refine ⟨(zht, none, _), ?_, .quiet ?_ (prepared_attempt c rest hv)⟩
    · simp only [next, hpoint]
      exact bind_eq_ok.mpr ⟨_, Parent.attempt_eq hv, rfl⟩
    · simp only [owed, hpoint]
  | swap c rest detail attempt =>
    obtain ⟨v, hv, rfl⟩ := hprepared c rest detail attempt hpoint
    obtain ⟨hseen, hswap⟩ | ⟨-, hswap⟩ :=
      zht.compareSwap_cases c detail (valueToStr (v.notified r.parent))
    · have howed : r.owed recs = c :: rest := by
        simp only [owed, hpoint]
      refine ⟨_, ?_, .swap howed (hseen ▸ hv)⟩
      simp only [next, hpoint, hswap]
      rfl
    · by_cases hempty : zht.lookup c = []
      · refine ⟨(zht, none, .again c rest), ?_, .quiet ?_ ?_⟩
        · simp only [next, hpoint, hswap, if_pos hempty]
          rfl
        · simp only [owed, hpoint]
        · rintro _ _ _ _ ⟨⟩
      · obtain ⟨u, hu⟩ := hread c (by simp [owed, hpoint])
        refine ⟨(zht, none, _), ?_, .quiet ?_ (prepared_attempt c rest hu)⟩
        · simp only [next, hpoint, hswap, if_neg hempty]
          exact bind_eq_ok.mpr ⟨_, Parent.attempt_eq hu, rfl⟩
        · simp only [owed, hpoint]

/-! ### All runs -/

/-- The first records can be read, and a child has a record. -/
structure Records.Ok (recs : Records) : Prop where
  small : ∀ {key v}, recs key = some v → Small v
  children : ∀ {key v}, recs key = some v → ∀ c ∈ v.children, (recs c).isSome = true

/-- The records are the first records after the notices that were given. -/
structure Noted (recs : Records) (w : World) : Prop where
  stored : ∀ c v₀, recs c = some v₀ →
    w.zht.lookup c = valueToStr ((w.notifiers c).foldl Value.notified v₀)
  prepared : ∀ r ∈ w.runs, r.Prepared
  known : ∀ r ∈ w.runs, (recs r.parent.cqItem.taskId).isSome = true ∧
    ∀ c ∈ r.owed recs, (recs c).isSome = true
  runsOk : ∀ r ∈ w.runs, r.parent.Ok
  logOk : ∀ n ∈ w.log, n.2.Ok
  few : ∀ c, ((w.notices recs).filter (·.1 = c)).length ≤ 2 ^ 31

namespace Noted

variable {recs : Records} {w : World}

theorem notifiers_ok (h : Noted recs w) (c : Text) : ∀ p ∈ w.notifiers c, p.Ok := by
  intro p hp
  obtain ⟨n, hn, rfl⟩ := mem_map.mp hp
  exact h.logOk n (mem_of_mem_filter hn)

theorem notifiers_few (h : Noted recs w) (c : Text) : (w.notifiers c).length ≤ 2 ^ 31 := by
  have hfew := h.few c
  rw [World.notices, filter_append, length_append] at hfew
  rw [World.notifiers, length_map]
  omega

theorem read (h : Noted recs w) (hrecs : recs.Ok) {c : Text} {v₀ : Value} (hc : recs c = some v₀) :
    strToValue (w.zht.lookup c) = .ok ((w.notifiers c).foldl Value.notified v₀) := by
  rw [h.stored c v₀ hc]
  exact strToValue_valueToStr
    ((hrecs.small hc).wellFormed_foldl (h.notifiers_ok c) (h.notifiers_few c))

theorem children_eq (c : Text) (v₀ : Value) :
    ((w.notifiers c).foldl Value.notified v₀).children = v₀.children := by
  have hothers := congrArg Value.children (notified_foldl v₀ (w.notifiers c)).others
  exact hothers

theorem quiet (h : Noted recs w) {k : Nat} {r : Run} (hk : w.runs[k]? = some r) {p : Point}
    (howed : { r with point := p }.owed recs = r.owed recs)
    (hprepared : { r with point := p }.Prepared) :
    Noted recs { w with runs := w.runs.set k { r with point := p } } ∧
      World.notices recs { w with runs := w.runs.set k { r with point := p } } =
      w.notices recs := by
  obtain ⟨l1, l2, hruns, hset⟩ := set_split hk { r with point := p }
  have hr : r ∈ w.runs := mem_of_getElem? hk
  have hnotices :
    World.notices recs { w with runs := w.runs.set k { r with point := p } } = w.notices recs := by
    simp only [World.notices]
    rw [hset, hruns]
    simp only [flatMap_append, flatMap_cons, Run.owedNotices, howed]
  refine ⟨⟨h.stored, ?_, ?_, ?_, h.logOk, fun c => hnotices ▸ h.few c⟩, hnotices⟩
  · intro r' hr'
    obtain hr' | rfl := mem_or_eq_of_mem_set hr'
    · exact h.prepared r' hr'
    · exact hprepared
  · intro r' hr'
    obtain hr' | rfl := mem_or_eq_of_mem_set hr'
    · exact h.known r' hr'
    · exact ⟨(h.known r hr).1, fun c hc => (h.known r hr).2 c (howed ▸ hc)⟩
  · intro r' hr'
    obtain hr' | rfl := mem_or_eq_of_mem_set hr'
    · exact h.runsOk r' hr'
    · exact h.runsOk r hr

theorem notifiers_concat (zht : Store) (runs : List Run) (log : List Notice) (c c' : Text)
    (p : Parent) :
    World.notifiers { zht, runs, log := log ++ [(c, p)] } c' =
      (log.filter (·.1 = c')).map (·.2) ++ if c = c' then [p] else [] := by
  rw [World.notifiers, filter_append, map_append]
  by_cases hc : c = c'
  · rw [if_pos hc, filter_cons_of_pos (by simpa using hc)]
    rfl
  · rw [if_neg hc, filter_cons_of_neg (by simpa using hc)]
    rfl

theorem swap (h : Noted recs w) (hrecs : recs.Ok) {k : Nat} {r : Run}
    (hk : w.runs[k]? = some r) {c : Text}
    {rest : List Text} {v : Value} (howed : r.owed recs = c :: rest)
    (hseen : strToValue (w.zht.lookup c) = .ok v) :
    let w' : World :=
      { zht := w.zht.insert c (valueToStr (v.notified r.parent))
        runs := w.runs.set k { r with point := .child rest }
        log := w.log ++ [(c, r.parent)] }
    Noted recs w' ∧ (w'.notices recs).Perm (w.notices recs) := by
  intro w'
  obtain ⟨l1, l2, hruns, hset⟩ := set_split hk { r with point := .child rest }
  have hr : r ∈ w.runs := mem_of_getElem? hk
  -- the notice moves from what the run owes to the log
  have hnotices : (w'.notices recs).Perm (w.notices recs) := by
    simp only [w', World.notices]
    rw [hset, hruns]
    simp only [flatMap_append, flatMap_cons]
    have hr' : r.owedNotices recs = (c, r.parent) ::
      { r with point := .child rest }.owedNotices recs := by
      simp only [Run.owedNotices, howed]
      rfl
    rw [hr', append_assoc]
    refine Perm.append_left _ ?_
    rw [singleton_append]
    exact perm_middle.symm
  refine ⟨⟨?_, ?_, ?_, ?_, ?_, ?_⟩, hnotices⟩
  · intro c' v₀ hc'
    rw [notifiers_concat]
    by_cases hc : c = c'
    · subst hc
      have hv := h.read hrecs hc'
      rw [hseen] at hv
      obtain rfl := Except.ok.inj hv
      rw [if_pos rfl, foldl_append]
      exact Store.lookup_insert_self ..
    · rw [if_neg hc, append_nil]
      exact (Store.lookup_insert_of_ne _ _ (symm hc)).trans (h.stored c' v₀ hc')
  · intro r' hr'
    obtain hr' | rfl := mem_or_eq_of_mem_set hr'
    · exact h.prepared r' hr'
    · exact prepared_child _ _
  · intro r' hr'
    obtain hr' | rfl := mem_or_eq_of_mem_set hr'
    · exact h.known r' hr'
    · exact ⟨(h.known r hr).1, fun c' hc' => (h.known r hr).2 c' (howed ▸ mem_cons_of_mem c hc')⟩
  · intro r' hr'
    obtain hr' | rfl := mem_or_eq_of_mem_set hr'
    · exact h.runsOk r' hr'
    · exact h.runsOk r hr
  · intro n hn
    obtain hn | hn := mem_append.mp hn
    · exact h.logOk n hn
    · rw [mem_singleton.mp hn]
      exact h.runsOk r hr
  · intro c'
    rw [(hnotices.filter _).length_eq]
    exact h.few c'

theorem next (h : Noted recs w) (hrecs : recs.Ok) (k : Nat) :
    ∃ w', w.next k = .ok w' ∧ Noted recs w' ∧ (w'.notices recs).Perm (w.notices recs) ∧
    w.log <+: w'.log ∧
      w'.runs.map (·.parent) = w.runs.map (·.parent) := by
  cases hk : w.runs[k]? with
  | none => exact ⟨w, by simp only [World.next, hk], h, Perm.refl _, prefix_rfl, rfl⟩
  | some r =>
    have hr : r ∈ w.runs := mem_of_getElem? hk
    obtain ⟨hself, howed⟩ := h.known r hr
    obtain ⟨v₀, hv0⟩ := isSome_iff_exists.mp hself
    obtain ⟨⟨zht, swapped, point⟩, hnext, hdoes⟩ := Run.next_cases recs (h.prepared r hr)
      (fun c hc => by
        obtain ⟨v, hv⟩ := isSome_iff_exists.mp (howed c hc)
        exact ⟨_, h.read hrecs hv⟩)
      ⟨_, h.read hrecs hv0, by rw [children_eq, hv0]; rfl⟩
    have hstep : w.next k = .ok
        { zht
          runs := w.runs.set k { r with point }
          log := w.log ++ swapped.toList.map fun c => (c, r.parent) } := by
      simp only [World.next, hk]
      exact bind_eq_ok.mpr ⟨_, hnext, rfl⟩
    have hparents : (w.runs.set k { r with point }).map (·.parent) = w.runs.map (·.parent) := by
      obtain ⟨l1, l2, hruns, hset⟩ := set_split hk { r with point }
      rw [hset, hruns, map_append, map_append]
      rfl
    refine ⟨_, hstep, ?_⟩
    cases hdoes with
    | quiet hsame hprepared =>
      obtain ⟨hnoted, hnotices⟩ := h.quiet hk hsame hprepared
      simp only [toList_none, map_nil, append_nil]
      exact ⟨hnoted, Perm.of_eq hnotices, prefix_rfl, hparents⟩
    | swap howed hseen =>
      obtain ⟨hnoted, hnotices⟩ := h.swap hrecs hk howed hseen
      exact ⟨hnoted, hnotices, prefix_append _ _, hparents⟩

theorem spawn (h : Noted recs w) (hrecs : recs.Ok) {parent : Parent} (hok : parent.Ok)
    (hknown : (recs parent.cqItem.taskId).isSome = true)
    (hfew : ∀ c,
      ((World.notices recs { w with runs := w.runs ++ [{ parent }] }).filter (·.1 = c)).length ≤
      2 ^ 31) :
    Noted recs { w with runs := w.runs ++ [{ parent }] } := by
  have hmem : ∀ r ∈ w.runs ++ [({ parent } : Run)], r ∈ w.runs ∨ r = { parent } := by
    intro r hr
    exact (mem_append.mp hr).imp_right mem_singleton.mp
  refine ⟨h.stored, fun r hr => ?_, fun r hr => ?_, fun r hr => ?_, h.logOk, hfew⟩
  · obtain hr | rfl := hmem r hr
    · exact h.prepared r hr
    · rintro _ _ _ _ ⟨⟩
  · obtain hr | rfl := hmem r hr
    · exact h.known r hr
    · obtain ⟨v, hv⟩ := isSome_iff_exists.mp hknown
      refine ⟨hknown, fun c hc => ?_⟩
      simp only [Run.owed, hv, map_some] at hc
      exact hrecs.children hv c hc
  · obtain hr | rfl := hmem r hr
    · exact h.runsOk r hr
    · exact hok

end Noted

/-! ### A set of finished tasks -/

/-- A set of finished tasks whose children are to be notified. -/
structure Finished (recs : Records) (parents : List Parent) : Prop where
  records : recs.Ok
  parentsOk : ∀ p ∈ parents, p.Ok ∧ (recs p.cqItem.taskId).isSome = true
  /-- No task has 2³¹ parents. -/
  few : ∀ c, (((World.fresh recs parents).notices recs).filter (·.1 = c)).length ≤ 2 ^ 31

variable {recs : Records} {parents : List Parent} {w : World}

theorem Noted.fresh (h : Finished recs parents) : Noted recs (World.fresh recs parents) := by
  have hrun : ∀ r ∈ (World.fresh recs parents).runs, ∃ p ∈ parents, r = { parent := p } := by
    intro r hr
    obtain ⟨p, hp, rfl⟩ := mem_map.mp hr
    exact ⟨p, hp, rfl⟩
  refine ⟨?_, ?_, ?_, ?_, fun n hn => absurd hn not_mem_nil, h.few⟩
  · intro c _ hc
    simp only [World.fresh, Records.store, Store.lookup, hc, elim_some, World.notifiers, filter_nil,
      map_nil, foldl_nil]
  · intro r hr
    obtain ⟨p, -, rfl⟩ := hrun r hr
    rintro _ _ _ _ ⟨⟩
  · intro r hr
    obtain ⟨p, hp, rfl⟩ := hrun r hr
    obtain ⟨v, hv⟩ := isSome_iff_exists.mp (h.parentsOk p hp).2
    refine ⟨(h.parentsOk p hp).2, fun c hc => ?_⟩
    simp only [Run.owed, hv, map_some] at hc
    exact h.records.children hv c hc
  · intro r hr
    obtain ⟨p, hp, rfl⟩ := hrun r hr
    exact (h.parentsOk p hp).1

theorem Noted.reachable (h : Finished recs parents) (hrun : (system recs parents).Reachable w) :
    Noted recs w ∧ (w.notices recs).Perm ((World.fresh recs parents).notices recs) := by
  refine hrun.invariant (I := fun w => Noted recs w ∧
    (w.notices recs).Perm ((World.fresh recs parents).notices recs)) ?_ ?_
  · rintro w rfl
    exact ⟨.fresh h, Perm.refl _⟩
  · rintro w k w' ⟨hnoted, hperm⟩ hstep
    obtain ⟨w'', hnext, hnoted', hperm', -⟩ := hnoted.next h.records k
    obtain rfl := Except.ok.inj (hnext.symm.trans hstep)
    exact ⟨hnoted', hperm'.trans hperm⟩

theorem nodup_notices_fresh (hids : (parents.map (·.cqItem.taskId)).Nodup)
    (hchildren : ∀ key v, recs key = some v → v.children.Nodup) :
    ((World.fresh recs parents).notices recs).Nodup := by
  simp only [World.notices, World.fresh, flatMap_map]
  have hparents : parents.Nodup := Nodup.of_map _ hids
  refine nodup_flatMap.mpr ⟨fun p _ => ?_, ?_⟩
  · refine Nodup.map (fun c c' hc => (Prod.mk.inj hc).1) ?_
    simp only [Run.owed]
    cases hv : recs p.cqItem.taskId with
    | none => exact nodup_nil
    | some v => exact hchildren _ v hv
  · refine hparents.imp fun {p q} hpq n hn hn' => ?_
    obtain ⟨c, -, rfl⟩ := mem_map.mp hn
    obtain ⟨c', -, heq⟩ := mem_map.mp hn'
    exact hpq (Prod.mk.inj heq).2.symm

/-- **Notices are neither lost nor duplicated.** In every state of every
interleaving no run ends the process; the record of a child is its first record
after the notices of the runs that have swapped it, in the order of their swaps;
each run has notified some of its children and still owes exactly the others;
and when no task names a child twice, no run notifies a child twice. -/
theorem notices_kept (h : Finished recs parents) (hids : (parents.map (·.cqItem.taskId)).Nodup)
    (hrun : (system recs parents).Reachable w) :
    (∀ k, ∃ w', w.next k = .ok w') ∧
      (∀ c v₀, recs c = some v₀ → ∃ v, strToValue (w.zht.lookup c) = .ok v ∧
      Notified v₀ v (w.notifiers c)) ∧
      (w.notices recs).Perm ((World.fresh recs parents).notices recs) ∧
      ((∀ key v, recs key = some v → v.children.Nodup) → ∀ c, (w.notifiers c).Nodup) := by
  obtain ⟨hnoted, hperm⟩ := Noted.reachable h hrun
  refine ⟨fun k => ?_, fun c v₀ hc => ⟨_, hnoted.read h.records hc, notified_foldl v₀ _⟩, hperm,
    fun hchildren c => ?_⟩
  · obtain ⟨w', hnext, -⟩ := hnoted.next h.records k
    exact ⟨w', hnext⟩
  · have hnodup : (w.notices recs).Nodup := hperm.nodup_iff.mpr (nodup_notices_fresh hids hchildren)
    have hlog : (w.log.filter (·.1 = c)).Nodup := (nodup_append.mp hnodup).1.filter _
    refine Nodup.map_on (fun n hn m hm heq => ?_) hlog
    have hn' : n.1 = c := by simpa using (mem_filter.mp hn).2
    have hm' : m.1 = c := by simpa using (mem_filter.mp hm).2
    exact Prod.ext (hn'.trans hm'.symm) heq

/-- The state after some steps. -/
def World.after (w : World) (l : List Nat) : Except Exit World := l.foldlM World.next w

theorem reachable_after {l : List Nat} {w w' : World} (hrun : (system recs parents).Reachable w)
    (h : w.after l = .ok w') : (system recs parents).Reachable w' := by
  induction l generalizing w with
  | nil =>
    cases h
    exact hrun
  | cons k l ih =>
    obtain ⟨w1, hnext, hrest⟩ := bind_eq_ok.mp h
    exact ih (hrun.step hnext) hrest

/-- Two tasks with one child. -/
def twoParents : Records := fun key =>
  if key = ['c'] then some { id := ['c'], indegree := some 2 }
  else if key = ['a'] ∨ key = ['b'] then some { id := key, indegree := some 0, children := [['c']] }
  else none

/-- The runs of the two tasks, on two schedulers. -/
def twoRuns : List Parent :=
  [{ schedulerId := ['x'], cqItem := { taskId := ['a'], key := ['x', 'a'], dataSize := 5 } },
    { schedulerId := ['y'], cqItem := { taskId := ['b'], key := ['y', 'b'], dataSize := 7 } }]

theorem small_twoParents : ∀ {key v}, twoParents key = some v →
    Small v ∧ ∀ c ∈ v.children, (twoParents c).isSome = true := by
  intro key v hv
  have hcases : v = { id := ['c'], indegree := some 2 } ∨
      (key = ['a'] ∨ key = ['b']) ∧ v = { id := key, indegree := some 0, children := [['c']] } := by
    unfold twoParents at hv
    split at hv
    · exact .inl (some.inj hv).symm
    · split at hv
      · exact .inr ⟨‹_›, (some.inj hv).symm⟩
      · cases hv
  obtain rfl | ⟨rfl | rfl, rfl⟩ := hcases
  all_goals exact ⟨⟨by decide, by decide, by decide⟩, by decide⟩

theorem finished_twoRuns : Finished twoParents twoRuns where
  records := ⟨fun hv => (small_twoParents hv).1, fun hv => (small_twoParents hv).2⟩
  parentsOk := by
    intro p hp
    simp only [twoRuns, mem_cons, not_mem_nil, or_false] at hp
    obtain rfl | rfl := hp
    all_goals exact ⟨⟨by decide, by decide, by decide⟩, by decide⟩
  few c := by
    refine Nat.le_trans (length_filter_le _ _) ?_
    decide

/-- The two runs read the record of the child before either has swapped it, so the
swap of the second one fails first. -/
theorem notices_kept_twoRuns :
    ∃ w, (system twoParents twoRuns).Reachable w ∧ (w.notifiers ['c']).length = 2 ∧
      ∃ v, strToValue (w.zht.lookup ['c']) = .ok v ∧
        Notified { id := ['c'], indegree := some 2 } v (w.notifiers ['c']) := by
  have hafter : (((World.fresh twoParents twoRuns).after [0, 1, 0, 1, 0, 1, 1]).map
      fun w => (w.notifiers ['c']).length) = .ok 2 := by
    decide +kernel
  cases hw : (World.fresh twoParents twoRuns).after [0, 1, 0, 1, 0, 1, 1] with
  | error e =>
    rw [hw] at hafter
    cases hafter
  | ok w =>
    rw [hw] at hafter
    have hrun := reachable_after (.init rfl) hw
    have hkept := notices_kept finished_twoRuns (by decide) hrun
    exact ⟨w, hrun, Except.ok.inj hafter, hkept.2.1 ['c'] _ rfl⟩

end CharmRuntime.Matrix.Notify
