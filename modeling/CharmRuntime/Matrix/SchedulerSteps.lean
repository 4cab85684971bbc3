import CharmRuntime.Matrix.Scheduler
import Mathlib.Data.List.Flatten
import Mathlib.Data.List.Perm.Subperm

/-!
# Matrix.SchedulerSteps

When a task is ready, and what the threads of one scheduler do.

Each notice in the log stands for an edge of the task graph, and no edge gives
two notices; so a record whose indegree went down to 0 has had as many notices
as the task has parents, hence one from each (`parents_notified`).

`checkingReadyTask_cases` and `execATask_cases` say once what a step of a checking
and of an executing thread can do to the tasks of its scheduler.
-/

namespace CharmRuntime.Matrix.Scheduling

open Lib List
open CharmRuntime.Matrix.Notify (Records Noted)

/-! ### The task graph -/

/-- The children that the record of `p` names. -/
def childrenOf (recs : Records) (p : Text) : List Text := ((recs p).map (·.children)).getD []

/-- The edges from these tasks to their children, as pairs of a child and a
parent. -/
def edges (recs : Records) (tasks : List Text) : List (Text × Text) :=
  tasks.flatMap fun p => (childrenOf recs p).map fun c => (c, p)

/-- `p` is a parent of `t`. -/
def IsParent (recs : Records) (p t : Text) : Prop := t ∈ childrenOf recs p

/-- The tasks with their records: the in-degrees are right. -/
structure TaskGraph (recs : Records) (tasks : List Text) : Prop where
  nodup : tasks.Nodup
  known : ∀ t, (recs t).isSome = true ↔ t ∈ tasks
  clean : ∀ t ∈ tasks, Clean t
  records : recs.Ok
  indegree :
    ∀ t v, recs t = some v → v.indegree.getD 0 = ((edges recs tasks).filter (·.1 = t)).length

variable {recs : Records} {tasks : List Text}

theorem mem_edges {c p : Text} : (c, p) ∈ edges recs tasks ↔ p ∈ tasks ∧ IsParent recs p c := by
  simp only [edges, mem_flatMap, mem_map, Prod.mk.injEq]
  constructor
  · rintro ⟨q, hq, d, hd, rfl, rfl⟩
    exact ⟨hq, hd⟩
  · rintro ⟨hp, hc⟩
    exact ⟨p, hp, c, hc, rfl, rfl⟩

theorem TaskGraph.mem_of_isParent (g : TaskGraph recs tasks) {p t : Text} (h : IsParent recs p t) :
    p ∈ tasks := by
  refine (g.known p).mp ?_
  cases hp : recs p with
  | none =>
    rw [IsParent, childrenOf, hp] at h
    exact absurd h not_mem_nil
  | some v => rfl

theorem edges_subperm {ids : List Text} (hids : ids.Nodup) (hsub : ids ⊆ tasks) :
    List.Subperm (edges recs ids) (edges recs tasks) := by
  obtain ⟨l, hperm, hsublist⟩ := subperm_of_subset hids hsub
  exact ⟨edges recs l, hperm.flatMap_right _, hsublist.flatMap _⟩

theorem TaskGraph.few (g : TaskGraph recs tasks) (c : Text) :
    ((edges recs tasks).filter (·.1 = c)).length ≤ 2 ^ 31 := by
  cases hc : recs c with
  | some v =>
    have hlt := (g.records.small hc).indegree.2
    rw [g.indegree c v hc] at hlt
    omega
  | none =>
    have hnil : (edges recs tasks).filter (·.1 = c) = [] := by
      rw [filter_eq_nil_iff]
      rintro ⟨d, p⟩ hd hdc
      obtain rfl : d = c := by simpa using hdc
      obtain ⟨hp, hparent⟩ := mem_edges.mp hd
      obtain ⟨v, hv⟩ := Option.isSome_iff_exists.mp ((g.known p).mpr hp)
      rw [IsParent, childrenOf, hv] at hparent
      have hsome := g.records.children hv d hparent
      rw [hc] at hsome
      cases hsome
    rw [hnil]
    decide

/-! ### Notices and edges -/

/-- The edge a notice stands for. -/
def edge (n : Notify.Notice) : Text × Text := (n.1, n.2.cqItem.taskId)

/-- The tasks whose children are being or have been notified. -/
def notifying (w : Notify.World) : List Text := w.runs.map (·.parent.cqItem.taskId)

/-- The notices given or owed are the edges of the tasks that notify. -/
def Linked (recs : Records) (w : Notify.World) : Prop :=
  ((w.notices recs).map edge).Perm (edges recs (notifying w))

section Linked

variable {w : Notify.World}

/-- **A task whose indegree went down to 0 has been notified by all its parents.** -/
theorem parents_notified (g : TaskGraph recs tasks) (hnoted : Noted recs w)
    (hlinked : Linked recs w)
    (hnodup : (notifying w).Nodup) (hsub : notifying w ⊆ tasks) {t : Text} (ht : t ∈ tasks)
    {value : Value}
    (hread : strToValue (w.zht.lookup t) = .ok value) (hzero : value.indegree.getD 0 = 0) {p : Text}
    (hp : IsParent recs p t) : p ∈ notifying w := by
  obtain ⟨v, hv⟩ := Option.isSome_iff_exists.mp ((g.known t).mpr ht)
  rw [hnoted.read g.records hv] at hread
  obtain rfl := Except.ok.inj hread
  rw [(Notify.notified_foldl v _).indegree, g.indegree t v hv] at hzero
  have hlog :
    Subperm ((w.log.map edge).filter (·.1 = t)) ((edges recs tasks).filter (·.1 = t)) := by
    refine Subperm.filter _ ?_
    have hsublist : Subperm (w.log.map edge) ((w.notices recs).map edge) := by
      rw [Notify.World.notices, map_append]
      exact (sublist_append_left _ _).subperm
    exact (hsublist.trans hlinked.subperm).trans (edges_subperm hnodup hsub)
  have hlength : ((w.log.map edge).filter (·.1 = t)).length = (w.notifiers t).length := by
    rw [Notify.World.notifiers, length_map, filter_map, length_map]
    rfl
  have hperm := hlog.perm_of_length_le (by omega)
  have hmem : (t, p) ∈ (w.log.map edge).filter (·.1 = t) := by
    refine hperm.mem_iff.mpr (mem_filter.mpr ⟨mem_edges.mpr ⟨g.mem_of_isParent hp, hp⟩, by simp⟩)
  have hnotice : (t, p) ∈ (w.notices recs).map edge := by
    rw [Notify.World.notices, map_append]
    exact mem_append_left _ (mem_of_mem_filter hmem)
  exact (mem_edges.mp (hlinked.mem_iff.mp hnotice)).1

theorem Linked.few (g : TaskGraph recs tasks) (hlinked : Linked recs w)
    (hnodup : (notifying w).Nodup)
    (hsub : notifying w ⊆ tasks) (c : Text) :
    ((w.notices recs).filter (·.1 = c)).length ≤ 2 ^ 31 := by
  have hsubperm := (hlinked.subperm.trans (edges_subperm hnodup hsub)).filter (·.1 = c)
  have hle := hsubperm.length_le
  rw [filter_map, length_map] at hle
  exact Nat.le_trans hle (g.few c)

end Linked

end CharmRuntime.Matrix.Scheduling

/-! ### One scheduler -/

namespace CharmRuntime.Matrix.Scheduler

open Lib List

/-- What a scheduler and its threads hold can be told to the children later. -/
structure Fine (s : Scheduler) : Prop where
  id : Clean s.id
  peeked : ∀ tm, s.checker = .peeked tm → s.waitQueue.head? = some tm
  running : ∀ tm value, .running tm value ∈ s.executors → Clean tm.taskid ∧
    Fits 32 (value.outputsize.getD 0)
  executed : ∀ cqItem, .executed cqItem ∈ s.executors ∨ cqItem ∈ s.completeQueue →
    Clean cqItem.key ∧ Fits 32 cqItem.dataSize

variable {s : Scheduler}

theorem fine_fresh {id : Text} (h : Clean id) : ({ id } : Scheduler).Fine where
  id := h
  peeked _ := nofun
  running _ _ ht := absurd ht not_mem_nil
  executed _ ht := ht.elim (fun ht => absurd ht not_mem_nil) fun ht => absurd ht not_mem_nil

theorem Fine.of_eq (h : s.Fine) {s' : Scheduler} (hid : s'.id = s.id)
    (hexecutors : s'.executors = s.executors)
    (hcomplete : s'.completeQueue = s.completeQueue)
    (hpeeked : ∀ tm, s'.checker = .peeked tm → s'.waitQueue.head? = some tm) : s'.Fine where
  id := hid ▸ h.id
  peeked := hpeeked
  running := hexecutors ▸ h.running
  executed := hexecutors ▸ hcomplete ▸ h.executed

/-- Appending to the `waitQueue` keeps its front. -/
theorem Fine.peeked_append (h : s.Fine) (l : List TaskMsg) :
    ∀ tm, s.checker = .peeked tm → (s.waitQueue ++ l).head? = some tm := by
  intro tm hpeeked
  rw [head?_append, h.peeked tm hpeeked]
  rfl

theorem Fine.popped (h : s.Fine) (tm : TaskMsg) (localQueue wsQueue : List TaskMsg) :
    { s with localQueue, wsQueue, executors := s.executors ++ [Executor.popped tm] }.Fine where
  id := h.id
  peeked := h.peeked
  running tm' value ht := by
    obtain ht | ht := mem_append.mp ht
    · exact h.running tm' value ht
    · cases mem_singleton.mp ht
  executed cqItem ht := by
    refine h.executed cqItem (ht.imp_left fun ht => ?_)
    obtain ht | ht := mem_append.mp ht
    · exact ht
    · cases mem_singleton.mp ht

/-- The message of a checking thread, as a token. -/
def messageTokens (message : Option (Text × TaskMsg)) : List (Stage × Text) :=
  message.toList.map fun m => (.ready, m.2.taskid)

/-- What `task_ready_process` places is the task it was given. -/
theorem taskid_of_taskReadyProcess (config : Config) (id : Text) (localData : List Text)
    (value : Value)
    (tm : TaskMsg) :
    match taskReadyProcess config id localData value tm with
    | .wsQueue tm' => tm'.taskid = tm.taskid
    | .localQueue tm' => tm'.taskid = tm.taskid
    | .push _ tm' => tm'.taskid = tm.taskid := by
  unfold taskReadyProcess
  dsimp only
  split_ifs <;> rfl

/-- What a step of the checking thread does: it moves a task, or finds that one
is ready. -/
inductive Checks (zht : Store) (s : Scheduler) : Scheduler × Option (Text × TaskMsg) → Prop
  | move {s' : Scheduler} {message : Option (Text × TaskMsg)}
      (htokens : (s'.tokens ++ messageTokens message).Perm s.tokens) : Checks zht s (s', message)
  | ready {s' : Scheduler} {tm : TaskMsg} {value : Value} (hmem : (.waiting, tm.taskid) ∈ s.tokens)
      (hread : strToValue (zht.lookup tm.taskid) = .ok value) (hzero : value.indegree.getD 0 = 0)
      (htokens : ((.waiting, tm.taskid) :: s'.tokens).Perm ((.ready, tm.taskid) :: s.tokens)) :
      Checks zht s (s', none)

/-- **One step of the checking thread.** It succeeds when the records of the
waiting tasks can be read. -/
theorem checkingReadyTask_cases (config : Config) (zht : Store) (h : s.Fine)
    (hread : ∀ t, (.waiting, t) ∈ s.tokens → ∃ value, strToValue (zht.lookup t) = .ok value) :
    ∃ out, s.checkingReadyTask config zht = .ok out ∧ out.1.Fine ∧ s.Checks zht out := by
  cases hchecker : s.checker with
  | idle =>
    cases hqueue : s.waitQueue with
    | nil =>
      refine ⟨(s, none), ?_, h, .move ?_⟩
      · simp only [checkingReadyTask, hchecker, hqueue]
        rfl
      · simp [messageTokens]
    | cons tm rest =>
      refine ⟨({ s with checker := .peeked tm }, none), ?_, h.of_eq rfl rfl rfl ?_, .move ?_⟩
      · simp only [checkingReadyTask, hchecker, hqueue]
        rfl
      · rintro _ ⟨⟩
        simp only [hqueue, head?_cons]
      · simp [messageTokens, tokens, hchecker, Checker.tokens]
  | peeked tm =>
    have hhead := h.peeked tm hchecker
    obtain ⟨rest, hqueue⟩ : ∃ rest, s.waitQueue = tm :: rest := by
      cases hq : s.waitQueue with
      | nil =>
        rw [hq] at hhead
        cases hhead
      | cons u rest =>
        rw [hq] at hhead
        cases hhead
        exact ⟨rest, rfl⟩
    refine ⟨({ s with waitQueue := s.waitQueue.tail, checker := .checking tm }, none), ?_,
      h.of_eq rfl rfl rfl nofun, .move (perm_iff_count.mpr fun x => ?_)⟩
    · simp only [checkingReadyTask, hchecker]
      rfl
    · simp only [messageTokens, tokens, hchecker, hqueue, Checker.tokens, tail_cons, map_cons,
        Option.toList_none, map_nil, count_append, count_cons, count_nil]
      omega
  | checking tm =>
    have hmem : (Stage.waiting, tm.taskid) ∈ s.tokens := by
      simp [tokens, hchecker, Checker.tokens]
    obtain ⟨value, hvalue⟩ := hread tm.taskid hmem
    by_cases hzero : value.indegree.getD 0 = 0
    · refine ⟨({ s with checker := .ready tm value }, none), ?_, h.of_eq rfl rfl rfl nofun,
        .ready hmem hvalue hzero (perm_iff_count.mpr fun x => ?_)⟩
      · simp only [checkingReadyTask, hchecker]
        refine bind_eq_ok.mpr ⟨value, hvalue, ?_⟩
        rw [if_pos hzero]
        rfl
      · simp only [tokens, hchecker, Checker.tokens, count_append, count_cons]
        omega
    · refine ⟨({ s with checker := .unready tm }, none), ?_, h.of_eq rfl rfl rfl nofun, .move ?_⟩
      · simp only [checkingReadyTask, hchecker]
        refine bind_eq_ok.mpr ⟨value, hvalue, ?_⟩
        rw [if_neg hzero]
        rfl
      · simp [messageTokens, tokens, hchecker, Checker.tokens]
  | unready tm =>
    refine ⟨({ s with waitQueue := s.waitQueue ++ [tm], checker := .idle }, none), ?_,
      h.of_eq rfl rfl rfl nofun, .move (perm_iff_count.mpr fun x => ?_)⟩
    · simp only [checkingReadyTask, hchecker]
      rfl
    · simp only [messageTokens, tokens, hchecker, Checker.tokens, map_append, map_cons,
        Option.toList_none, map_nil, append_nil]
  | ready tm value =>
    have hid := taskid_of_taskReadyProcess config s.id s.localData value tm
    cases hplace : taskReadyProcess config s.id s.localData value tm with
    | wsQueue tm' =>
      rw [hplace] at hid
      refine ⟨({ s with checker := .toWs tm' }, none), ?_, h.of_eq rfl rfl rfl nofun, .move ?_⟩
      · simp only [checkingReadyTask, hchecker, hplace]
        rfl
      · simp [messageTokens, tokens, hchecker, Checker.tokens, hid]
    | localQueue tm' =>
      rw [hplace] at hid
      refine ⟨({ s with checker := .toLocal tm' }, none), ?_, h.of_eq rfl rfl rfl nofun, .move ?_⟩
      · simp only [checkingReadyTask, hchecker, hplace]
        rfl
      · simp [messageTokens, tokens, hchecker, Checker.tokens, hid]
    | push d tm' =>
      rw [hplace] at hid
      refine ⟨({ s with checker := .idle }, some (d, tm')), ?_, h.of_eq rfl rfl rfl nofun,
        .move (perm_iff_count.mpr fun x => ?_)⟩
      · simp only [checkingReadyTask, hchecker, hplace]
        rfl
      · simp only [messageTokens, tokens, hchecker, Checker.tokens, Option.toList_some, map_cons,
          map_nil, append_nil, count_append, hid]
        omega
  | toWs tm =>
    refine ⟨({ s with wsQueue := s.wsQueue ++ [tm], checker := .idle }, none), ?_,
      h.of_eq rfl rfl rfl nofun, .move (perm_iff_count.mpr fun x => ?_)⟩
    · simp only [checkingReadyTask, hchecker]
      rfl
    · simp only [messageTokens, tokens, hchecker, Checker.tokens, map_append, map_cons,
        Option.toList_none, map_nil, append_nil, count_append]
      omega
  | toLocal tm =>
    refine ⟨({ s with localQueue := s.localQueue ++ [tm], checker := .idle }, none), ?_,
      h.of_eq rfl rfl rfl nofun, .move (perm_iff_count.mpr fun x => ?_)⟩
    · simp only [checkingReadyTask, hchecker]
      rfl
    · simp only [messageTokens, tokens, hchecker, Checker.tokens, map_append, map_cons,
        Option.toList_none, map_nil, append_nil, count_append]
      omega

/-- **The next package of a batch.** Its tasks go from the batch to a queue. -/
theorem recvTask_cases (config : Config) (zht : Store) (h : s.Fine) (b : Batch)
    (hread : ∀ tm ∈ b.tasks, ∃ value, strToValue (zht.lookup tm.taskid) = .ok value) :
    ∃ s', s.recvTask config zht b = .ok s' ∧ s'.Fine ∧ ∀ x,
      s'.tokens.count x + { b with tasks := b.tasks.drop config.maxTaskPerPkg }.tokens.count x =
        s.tokens.count x + b.tokens.count x := by
  have htasks := take_append_drop config.maxTaskPerPkg b.tasks
  have hsplit :
    ∀ (stage : Stage) (x : Stage × Text), (b.tasks.map fun tm => (stage, tm.taskid)).count x =
      ((b.tasks.take config.maxTaskPerPkg).map fun tm => (stage, tm.taskid)).count x +
        ((b.tasks.drop config.maxTaskPerPkg).map fun tm => (stage, tm.taskid)).count x := by
    intro stage x
    rw [← count_append, ← map_append, htasks]
  cases hsender : b.sender with
  | client =>
    obtain ⟨vs, hvs⟩ := mapM_ok fun tm htm =>
      hread tm (mem_of_mem_take htm)
    refine ⟨{ s with waitQueue := s.waitQueue ++ b.tasks.take config.maxTaskPerPkg }, ?_,
      h.of_eq rfl rfl rfl (h.peeked_append _), fun x => ?_⟩
    · simp only [recvTask, hsender]
      exact bind_eq_ok.mpr ⟨vs, hvs, rfl⟩
    · have hx := hsplit .waiting x
      simp only [tokens, Batch.tokens, hsender, map_append, count_append]
      omega
  | scheduler =>
    refine ⟨{ s with wsQueue := s.wsQueue ++ b.tasks.take config.maxTaskPerPkg }, ?_,
      h.of_eq rfl rfl rfl h.peeked, fun x => ?_⟩
    · simp only [recvTask, hsender]
      rfl
    · have hx := hsplit .ready x
      simp only [tokens, Batch.tokens, hsender, map_append, count_append]
      omega

/-- What a step of an executing thread does: it moves a task, or runs its
command. -/
inductive Executes (s : Scheduler) : Scheduler × Option Text → Prop
  | move {s' : Scheduler} (htokens : s'.tokens.Perm s.tokens) : Executes s (s', none)
  | execute {s' : Scheduler} {t : Text}
      (htokens : ((.ready, t) :: s'.tokens).Perm ((.done, t) :: s.tokens)) : Executes s (s', some t)

theorem count_tokens_set {k : Nat} {ex : Executor} (hk : s.executors[k]? = some ex) (ex' : Executor)
    (localData : List Text) (x : Stage × Text) :
    { s with localData, executors := s.executors.set k ex' }.tokens.count x + [ex.token].count x =
      s.tokens.count x + [ex'.token].count x := by
  have hset := count_flatMap_set hk ex' (fun e => [e.token]) x
  rw [← map_eq_flatMap, ← map_eq_flatMap] at hset
  simp only [tokens, count_append]
  omega

theorem clean_append {t u : Text} (ht : Clean t) (hu : Clean u) : Clean (t ++ u) := by
  refine ⟨fun h => ht.1 (append_eq_nil_iff.mp h).1, fun h => ?_, fun h => ?_⟩
  · exact (mem_append.mp h).elim ht.2.1 hu.2.1
  · exact (mem_append.mp h).elim ht.2.2 hu.2.2

/-- **One step of an executing thread.** It succeeds when the records of the
ready tasks can be read. -/
theorem execATask_cases (zht : Store) (h : s.Fine) (k : Nat) (hread : ∀ t, (.ready, t) ∈ s.tokens →
      Clean t ∧ ∃ value, strToValue (zht.lookup t) = .ok value ∧
      Fits 32 (value.outputsize.getD 0)) :
    ∃ out, s.execATask zht k = .ok out ∧ out.1.Fine ∧ s.Executes out := by
  cases hk : s.executors[k]? with
  | none =>
    refine ⟨(s, none), ?_, h, .move (Perm.refl _)⟩
    simp only [execATask, hk]
    rfl
  | some ex =>
    have hmem : ex ∈ s.executors := mem_of_getElem? hk
    cases ex with
    | popped tm =>
      have htoken : (Stage.ready, tm.taskid) ∈ s.tokens := by
        have hm : Executor.token (.popped tm) ∈ s.executors.map Executor.token :=
          mem_map_of_mem hmem
        simp only [tokens, mem_append]
        exact .inl (.inr hm)
      obtain ⟨hclean, value, hvalue, hfits⟩ := hread tm.taskid htoken
      refine ⟨({ s with executors := s.executors.set k (.running tm value) }, none), ?_,
        ?_, .move ?_⟩
      · simp only [execATask, hk]
        exact bind_eq_ok.mpr ⟨value, hvalue, rfl⟩
      · refine ⟨h.id, h.peeked, fun tm' value' ht => ?_, fun cqItem ht => ?_⟩
        · obtain ht | ht := mem_or_eq_of_mem_set ht
          · exact h.running tm' value' ht
          · cases ht
            exact ⟨hclean, hfits⟩
        · refine h.executed cqItem (ht.imp_left fun ht => ?_)
          obtain ht | ht := mem_or_eq_of_mem_set ht
          · exact ht
          · cases ht
      · refine perm_iff_count.mpr fun x => ?_
        have hcount := count_tokens_set hk (.running tm value) s.localData x
        exact Nat.add_right_cancel hcount
    | running tm value =>
      obtain ⟨hclean, hfits⟩ := h.running tm value hmem
      let cqItem : CmpQueueItem :=
        { taskId := tm.taskid, key := s.id ++ tm.taskid, dataSize := value.outputsize.getD 0 }
      refine ⟨({ s with
          localData := cqItem.key :: s.localData
          executors := s.executors.set k (.executed cqItem) }, some tm.taskid), ?_, ?_, .execute ?_⟩
      · simp only [execATask, hk]
        rfl
      · refine ⟨h.id, h.peeked, fun tm' value' ht => ?_, fun cqItem ht => ?_⟩
        · obtain ht | ht := mem_or_eq_of_mem_set ht
          · exact h.running tm' value' ht
          · cases ht
        · obtain ht | ht := ht
          · obtain ht | ht := mem_or_eq_of_mem_set ht
            · exact h.executed cqItem (.inl ht)
            · cases ht
              exact ⟨clean_append h.id hclean, hfits⟩
          · exact h.executed cqItem (.inr ht)
      · refine perm_iff_count.mpr fun x => ?_
        have hcount := count_tokens_set hk (.executed cqItem) (cqItem.key :: s.localData) x
        have htaskId : cqItem.taskId = tm.taskid := rfl
        simp only [Executor.token, count_cons, htaskId] at hcount ⊢
        omega
    | executed cqItem =>
      obtain ⟨l1, l2, hexecutors, herase⟩ := eraseIdx_split hk
      refine ⟨({ s with
          completeQueue := s.completeQueue ++ [cqItem]
          executors := s.executors.eraseIdx k }, none), ?_, ?_, .move ?_⟩
      · simp only [execATask, hk]
        rfl
      · refine ⟨h.id, h.peeked, fun tm value ht => ?_, fun cqItem' ht => ?_⟩
        · exact h.running tm value (mem_of_mem_eraseIdx ht)
        · obtain ht | ht := ht
          · exact h.executed cqItem' (.inl (mem_of_mem_eraseIdx ht))
          · obtain ht | ht := mem_append.mp ht
            · exact h.executed cqItem' (.inr ht)
            · rw [mem_singleton.mp ht]
              exact h.executed cqItem (.inl hmem)
      · refine perm_iff_count.mpr fun x => ?_
        simp only [tokens]
        rw [herase, hexecutors]
        simp only [map_append, map_cons, map_nil, count_append, count_cons, count_nil,
          Executor.token]
        omega

end CharmRuntime.Matrix.Scheduler
