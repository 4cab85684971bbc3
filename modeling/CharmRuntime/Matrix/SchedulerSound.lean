import CharmRuntime.Matrix.SchedulerSteps

/-!
# Matrix.SchedulerSound

No task is lost, run twice or run early.

Every step of the schedulers is a step of the flow of the tasks (`Lib.Flow`):
most move a task from one place to another, the check that finds indegree 0
makes it ready, and running its command executes it. A task found ready has been
notified by all its parents, and only executed tasks notify.
-/

namespace CharmRuntime.Matrix.Scheduling

open Lib List
open CharmRuntime.Matrix.Notify (Records Noted)
open Option (any_eq_true toList_none)

/-- What holds in every state. -/
structure Kept (recs : Records) (tasks : List Text) (w : World) : Prop where
  noted : Noted recs w.notify
  linked : Linked recs w.notify
  fine : ∀ s ∈ w.schedulers, s.Fine
  known : ∀ t ∈ w.submitted, t ∈ tasks
  sound : w.flow.Sound (IsParent recs)

namespace Kept

variable {recs : Records} {tasks : List Text} {w : World}

/-! ### What the invariant says of the records -/

variable {t : Text} {i : Nat} {s : Scheduler} {x : Stage × Text} {s' : Scheduler}
  {rest : List TaskMsg} {tm : TaskMsg}

theorem mem_tasks (h : Kept recs tasks w) {stage : Stage} (ht : (stage, t) ∈ w.tokens) :
    t ∈ tasks := by
  have hmem : t ∈ w.tokens.map (·.2) := mem_map_of_mem ht
  exact h.known t (h.sound.places.mem_iff.mp hmem)

theorem notifying_sublist (w : World) : Sublist (notifying w.notify) (w.tokens.map (·.2)) := by
  simp only [World.tokens, map_append, map_map]
  exact sublist_append_right _ _

theorem notifying_nodup (hsound : w.flow.Sound (IsParent recs)) : (notifying w.notify).Nodup := by
  refine Nodup.sublist (notifying_sublist w) ?_
  exact hsound.places.nodup_iff.mpr hsound.nodup

theorem notifying_subset (hsound : w.flow.Sound (IsParent recs))
    (hknown : ∀ t ∈ w.submitted, t ∈ tasks) :
    notifying w.notify ⊆ tasks := by
  intro t ht
  exact hknown t (hsound.places.mem_iff.mp ((notifying_sublist w).subset ht))

theorem executed_of_notifying (h : Kept recs tasks w) (ht : t ∈ notifying w.notify) :
    t ∈ w.executed := by
  obtain ⟨r, hr, rfl⟩ := mem_map.mp ht
  refine h.sound.executed.mem_iff.mp (mem_map.mpr ⟨(.done, r.parent.cqItem.taskId), ?_, rfl⟩)
  refine mem_filter.mpr ⟨?_, by simp⟩
  exact mem_append_right _ (mem_map_of_mem hr)

theorem read (h : Kept recs tasks w) (g : TaskGraph recs tasks) (ht : t ∈ tasks) :
    ∃ value, strToValue (w.notify.zht.lookup t) = .ok value ∧
    Fits 32 (value.outputsize.getD 0) := by
  obtain ⟨v, hv⟩ := Option.isSome_iff_exists.mp ((g.known t).mpr ht)
  have hothers := congrArg Value.outputsize (Notify.notified_foldl v (w.notify.notifiers t)).others
  refine ⟨_, h.noted.read g.records hv, ?_⟩
  rw [hothers]
  cases hsize : v.outputsize with
  | none => decide
  | some n => exact (g.records.small hv).wellFormed.ints (some n) (by simp [hsize]) n rfl

theorem mem_scheduler (hs : w.schedulers[i]? = some s) (hx : x ∈ s.tokens) : x ∈ w.tokens := by
  have hmem : x ∈ w.schedulers.flatMap Scheduler.tokens :=
    mem_flatMap.mpr ⟨s, mem_of_getElem? hs, hx⟩
  simp only [World.tokens, mem_append]
  exact .inl (.inl (.inl hmem))

/-! ### Steps -/

theorem of_flow (h : Kept recs tasks w) {w' : World} (hnotify : w'.notify = w.notify)
    (hfine : ∀ s ∈ w'.schedulers, s.Fine) (hknown : ∀ t ∈ w'.submitted, t ∈ tasks)
    (hstep : w.flow.Step (IsParent recs) w'.flow) : Kept recs tasks w' :=
  ⟨hnotify ▸ h.noted, hnotify ▸ h.linked, hfine, hknown, h.sound.step hstep⟩

theorem fine_set (h : Kept recs tasks w) (hs' : s'.Fine) (i : Nat) :
    ∀ u ∈ w.schedulers.set i s', u.Fine := by
  intro u hu
  obtain hu | rfl := mem_or_eq_of_mem_set hu
  · exact h.fine u hu
  · exact hs'

theorem move (h : Kept recs tasks w) (hs : w.schedulers[i]? = some s)
    (hs' : s'.Fine) {pushes : List (Text × TaskMsg)} {batches : List Batch}
    (hcount : ∀ x, s'.tokens.count x + (pushes.map fun m => (Stage.ready, m.2.taskid)).count x +
      (batches.flatMap Batch.tokens).count x =
      s.tokens.count x + (w.pushes.map fun m => (Stage.ready, m.2.taskid)).count x +
        (w.batches.flatMap Batch.tokens).count x) :
    Kept recs tasks { w.setScheduler i s' with pushes, batches } := by
  refine h.of_flow rfl (h.fine_set hs' i) h.known (Flow.Step.move (perm_iff_count.mpr fun x => ?_))
  have hset := count_flatMap_set hs s' Scheduler.tokens x
  have hx := hcount x
  simp only [World.flow, World.tokens, World.setScheduler, count_append]
  omega

theorem move_scheduler (h : Kept recs tasks w) (hs : w.schedulers[i]? = some s)
    (hs' : s'.Fine) (hcount : ∀ x, s'.tokens.count x = s.tokens.count x) :
    Kept recs tasks (w.setScheduler i s') :=
  h.move hs hs' fun x => by rw [hcount x]

variable {config : Config}

theorem submit (h : Kept recs tasks w) (g : TaskGraph recs tasks) {l : List TaskMsg}
    (honce : SubmitsOnce recs w (.submit i l)) :
    ∃ w', w.next config (.submit i l) = .ok w' ∧ Kept recs tasks w' := by
  obtain ⟨hnodup, hrecs⟩ := honce
  refine ⟨_, rfl,
    h.of_flow rfl h.fine ?_ (Flow.Step.submit hnodup (perm_iff_count.mpr fun x => ?_))⟩
  · intro t ht
    obtain ht | ht := mem_append.mp ht
    · exact h.known t ht
    · obtain ⟨tm, htm, rfl⟩ := mem_map.mp ht
      exact (g.known _).mp (hrecs tm htm)
  · simp only [World.flow, World.tokens, flatMap_append, flatMap_cons, flatMap_nil, append_nil,
      Batch.tokens, map_map, count_append]
    have hcomp : ((fun t => (Stage.waiting, t)) ∘ fun tm : TaskMsg => tm.taskid) =
        fun tm : TaskMsg => (Stage.waiting, tm.taskid) := rfl
    rw [hcomp]
    omega

theorem mem_batch {k : Nat} {b : Batch} (hb : w.batches[k]? = some b) (hx : x ∈ b.tokens) :
    x ∈ w.tokens := by
  have hmem : x ∈ w.batches.flatMap Batch.tokens := mem_flatMap.mpr ⟨b, mem_of_getElem? hb, hx⟩
  simp only [World.tokens, mem_append]
  exact .inl (.inr hmem)

theorem recvBatch (h : Kept recs tasks w) (g : TaskGraph recs tasks) (k : Nat) :
    ∃ w', w.next config (.recvBatch k) = .ok w' ∧ Kept recs tasks w' := by
  cases hk : w.batches[k]? with
  | none => exact ⟨w, by simp only [World.next, hk]; rfl, h⟩
  | some b =>
    cases hs : w.schedulers[b.receiver]? with
    | none => exact ⟨w, by simp only [World.next, hk, hs]; rfl, h⟩
    | some s =>
      obtain ⟨s', hrecv, hfine, hcount⟩ := Scheduler.recvTask_cases config
        w.notify.zht (h.fine s (mem_of_getElem? hs)) b fun tm htm => by
          obtain ⟨value, hvalue, -⟩ := h.read g (h.mem_tasks (mem_batch hk (mem_map_of_mem htm)))
          exact ⟨value, hvalue⟩
      refine ⟨{ w.setScheduler b.receiver s' with
          batches := w.batches.set k { b with tasks := b.tasks.drop config.maxTaskPerPkg } }, ?_,
            ?_⟩
      · simp only [World.next, hk, hs]
        exact bind_eq_ok.mpr ⟨s', hrecv, rfl⟩
      · refine h.move hs hfine fun x => ?_
        have hbatch := count_flatMap_set hk
          { b with tasks := b.tasks.drop config.maxTaskPerPkg } Batch.tokens x
        have hx := hcount x
        simp only [World.setScheduler]
        omega

theorem check (h : Kept recs tasks w) (g : TaskGraph recs tasks) (i : Nat) :
    ∃ w', w.next config (.check i) = .ok w' ∧ Kept recs tasks w' := by
  cases hs : w.schedulers[i]? with
  | none => exact ⟨w, by simp only [World.next, hs]; rfl, h⟩
  | some s =>
    obtain ⟨⟨s', message⟩, hcheck, hfine, hdoes⟩ := Scheduler.checkingReadyTask_cases config
      w.notify.zht (h.fine s (mem_of_getElem? hs)) fun t ht => by
        obtain ⟨value, hvalue, -⟩ := h.read g (h.mem_tasks (mem_scheduler hs ht))
        exact ⟨value, hvalue⟩
    refine ⟨{ w.setScheduler i s' with pushes := w.pushes ++ message.toList }, ?_, ?_⟩
    · simp only [World.next, hs]
      exact bind_eq_ok.mpr ⟨_, hcheck, rfl⟩
    cases hdoes with
    | move htokens =>
      refine h.move hs hfine fun x => ?_
      have hx := htokens.count_eq x
      simp only [Scheduler.messageTokens, World.setScheduler, map_append, count_append] at hx ⊢
      omega
    | @ready _ tm value hmem hread hzero htokens =>
      have ht := h.mem_tasks (mem_scheduler hs hmem)
      refine h.of_flow rfl (h.fine_set hfine i) h.known
        (Flow.Step.ready (t := tm.taskid) (perm_iff_count.mpr fun x => ?_) fun p hp => ?_)
      · have hset := count_flatMap_set hs s' Scheduler.tokens x
        have hx := htokens.count_eq x
        simp only [World.flow, World.tokens, World.setScheduler, toList_none, append_nil,
          count_append, count_cons] at hx ⊢
        omega
      · exact h.executed_of_notifying
          (parents_notified g h.noted h.linked (notifying_nodup h.sound)
            (notifying_subset h.sound h.known) ht hread
            hzero hp)

theorem exec (h : Kept recs tasks w) (g : TaskGraph recs tasks) (i k : Nat) :
    ∃ w', w.next config (.exec i k) = .ok w' ∧ Kept recs tasks w' := by
  cases hs : w.schedulers[i]? with
  | none => exact ⟨w, by simp only [World.next, hs]; rfl, h⟩
  | some s =>
    obtain ⟨⟨s', run⟩, hexec, hfine, hdoes⟩ := Scheduler.execATask_cases
      w.notify.zht (h.fine s (mem_of_getElem? hs)) k fun t ht => by
        have hmem := h.mem_tasks (mem_scheduler hs ht)
        exact ⟨g.clean t hmem, h.read g hmem⟩
    refine ⟨{ w.setScheduler i s' with executed := w.executed ++ run.toList }, ?_, ?_⟩
    · simp only [World.next, hs]
      exact bind_eq_ok.mpr ⟨_, hexec, rfl⟩
    cases hdoes with
    | move htokens =>
      simp only [toList_none, append_nil]
      exact h.move_scheduler hs hfine fun x => htokens.count_eq x
    | @execute _ t htokens =>
      refine h.of_flow rfl (h.fine_set hfine i) h.known
        (Flow.Step.execute (perm_iff_count.mpr fun x => ?_))
      have hset := count_flatMap_set hs s' Scheduler.tokens x
      have hx := htokens.count_eq x
      simp only [World.flow, World.tokens, World.setScheduler, count_append, count_cons] at hx ⊢
      omega

theorem count_pops {queue taken : List TaskMsg} (hpops : Pops queue taken rest) (x : Stage × Text) :
    (queue.map fun tm => (Stage.ready, tm.taskid)).count x =
      (taken.map fun tm => (Stage.ready, tm.taskid)).count x +
      (rest.map fun tm => (Stage.ready, tm.taskid)).count x := by
  rw [(hpops.1.map fun tm : TaskMsg => (Stage.ready, tm.taskid)).count_eq, map_append, count_append]

theorem sendTask (h : Kept recs tasks w) {thief : Nat} {taskVec : List TaskMsg}
    (henabled : w.enabled (.sendTask i thief taskVec rest) = true) :
    ∃ w', w.next config (.sendTask i thief taskVec rest) = .ok w' ∧ Kept recs tasks w' := by
  obtain ⟨s, hs, hguard⟩ := (any_eq_true _ _).mp henabled
  obtain ⟨hpops, -⟩ := of_decide_eq_true hguard
  have hfine := h.fine s (mem_of_getElem? hs)
  have hfine' : { s with wsQueue := rest }.Fine := hfine.of_eq rfl rfl rfl hfine.peeked
  refine ⟨{ w.setScheduler i { s with wsQueue := rest } with
      batches := w.batches ++ [{ sender := .scheduler, receiver := thief, tasks := taskVec }] }, ?_,
        ?_⟩
  · simp only [World.next, hs]
    rfl
  · refine h.move hs hfine' fun x => ?_
    have hx := count_pops hpops x
    simp only [World.setScheduler, Scheduler.tokens, Batch.tokens, flatMap_append, flatMap_cons,
      flatMap_nil, append_nil, count_append]
    omega

theorem recvPushingTask (h : Kept recs tasks w) {k : Nat}
    (henabled : w.enabled (.recvPushingTask k i) = true) :
    ∃ w', w.next config (.recvPushingTask k i) = .ok w' ∧ Kept recs tasks w' := by
  obtain ⟨s, hs, hguard⟩ := (any_eq_true _ _).mp henabled
  obtain ⟨⟨d, tm⟩, hk, -⟩ := (any_eq_true _ _).mp hguard
  have hfine := h.fine s (mem_of_getElem? hs)
  have hfine' : { s with localQueue := s.localQueue ++ [tm] }.Fine :=
    hfine.of_eq rfl rfl rfl hfine.peeked
  refine ⟨{ w.setScheduler i { s with localQueue := s.localQueue ++ [tm] } with
            pushes := w.pushes.eraseIdx k },
    ?_, ?_⟩
  · simp only [World.next, hs, hk]
    rfl
  · refine h.move hs hfine' fun x => ?_
    have hx := ((perm_eraseIdx hk).map fun m => (Stage.ready, m.2.taskid)).count_eq x
    simp only [World.setScheduler, Scheduler.tokens, map_append, map_cons, map_nil,
      count_append, count_cons, count_nil] at hx ⊢
    omega

theorem monitor (h : Kept recs tasks w) {vecRemain vecMigrated : List TaskMsg}
    (henabled : w.enabled (.monitor i vecRemain vecMigrated) = true) :
    ∃ w', w.next config (.monitor i vecRemain vecMigrated) = .ok w' ∧ Kept recs tasks w' := by
  obtain ⟨s, hs, hguard⟩ := (any_eq_true _ _).mp henabled
  obtain ⟨hidle, -, -, hpops⟩ := of_decide_eq_true hguard
  have hfine := h.fine s (mem_of_getElem? hs)
  refine ⟨w.setScheduler i { s with localQueue := vecRemain, vecMigrated }, ?_,
    h.move_scheduler hs (hfine.of_eq rfl rfl rfl hfine.peeked) fun x => ?_⟩
  · simp only [World.next, hs]
    rfl
  · have hx := count_pops hpops x
    simp only [Scheduler.tokens, hidle, map_append, map_nil, count_append, count_nil] at hx ⊢
    omega

theorem migrate (h : Kept recs tasks w) (i : Nat) :
    ∃ w', w.next config (.migrate i) = .ok w' ∧ Kept recs tasks w' := by
  cases hs : w.schedulers[i]? with
  | none => exact ⟨w, by simp only [World.next, hs]; rfl, h⟩
  | some s =>
    have hfine := h.fine s (mem_of_getElem? hs)
    refine ⟨w.setScheduler i { s with wsQueue := s.wsQueue ++ s.vecMigrated, vecMigrated := [] },
      ?_, h.move_scheduler hs (hfine.of_eq rfl rfl rfl hfine.peeked) fun x => ?_⟩
    · simp only [World.next, hs]
      rfl
    · simp only [Scheduler.tokens, map_append, map_nil, count_append, count_nil]
      omega

theorem takeLocal (h : Kept recs tasks w) (henabled : w.enabled (.takeLocal i tm rest) = true) :
    ∃ w', w.next config (.takeLocal i tm rest) = .ok w' ∧ Kept recs tasks w' := by
  obtain ⟨s, hs, hguard⟩ := (any_eq_true _ _).mp henabled
  have hpops := of_decide_eq_true hguard
  refine ⟨w.setScheduler i { s with localQueue := rest, executors := s.executors ++ [.popped tm] },
    ?_, h.move_scheduler hs ((h.fine s (mem_of_getElem? hs)).popped tm rest s.wsQueue) fun x => ?_⟩
  · simp only [World.next, hs]
    rfl
  · have hx := count_pops hpops x
    simp only [Scheduler.tokens, Executor.token, map_append, map_cons, map_nil,
      count_append] at hx ⊢
    omega

theorem takeWs (h : Kept recs tasks w) (henabled : w.enabled (.takeWs i tm rest) = true) :
    ∃ w', w.next config (.takeWs i tm rest) = .ok w' ∧ Kept recs tasks w' := by
  obtain ⟨s, hs, hguard⟩ := (any_eq_true _ _).mp henabled
  have hpops := of_decide_eq_true hguard
  refine ⟨w.setScheduler i { s with wsQueue := rest, executors := s.executors ++ [.popped tm] }, ?_,
    h.move_scheduler hs ((h.fine s (mem_of_getElem? hs)).popped tm s.localQueue rest) fun x => ?_⟩
  · simp only [World.next, hs]
    rfl
  · have hx := count_pops hpops x
    simp only [Scheduler.tokens, Executor.token, map_append, map_cons, map_nil,
      count_append] at hx ⊢
    omega

theorem storeData (h : Kept recs tasks w) (i : Nat) (key : Text) :
    ∃ w', w.next config (.storeData i key) = .ok w' ∧ Kept recs tasks w' := by
  cases hs : w.schedulers[i]? with
  | none => exact ⟨w, by simp only [World.next, hs]; rfl, h⟩
  | some s =>
    have hfine := h.fine s (mem_of_getElem? hs)
    refine ⟨w.setScheduler i { s with localData := key :: s.localData }, ?_,
      h.move_scheduler hs (hfine.of_eq rfl rfl rfl hfine.peeked) fun x => rfl⟩
    simp only [World.next, hs]
    rfl

/-- A finished task begins to notify its children: it owes one notice for each of
its edges. -/
theorem complete (h : Kept recs tasks w) (g : TaskGraph recs tasks) (i : Nat) :
    ∃ w', w.next config (.complete i) = .ok w' ∧ Kept recs tasks w' := by
  cases hs : w.schedulers[i]? with
  | none => exact ⟨w, by simp only [World.next, hs]; rfl, h⟩
  | some s =>
    cases hqueue : s.completeQueue with
    | nil => exact ⟨w, by simp only [World.next, hs, hqueue]; rfl, h⟩
    | cons cqItem rest =>
      have hfine := h.fine s (mem_of_getElem? hs)
      have hfine' : { s with completeQueue := rest }.Fine := by
        refine ⟨hfine.id, hfine.peeked, hfine.running, fun item hitem => hfine.executed item ?_⟩
        exact hitem.imp_right fun hitem => hqueue ▸ mem_cons_of_mem _ hitem
      have htask : cqItem.taskId ∈ tasks := by
        refine h.mem_tasks (mem_scheduler hs (x := (Stage.done, cqItem.taskId)) ?_)
        have hm : cqItem ∈ s.completeQueue := hqueue ▸ mem_cons_self
        exact mem_append_right _ (mem_map_of_mem hm)
      let run : Notify.Run := { parent := { schedulerId := s.id, cqItem } }
      let nw : Notify.World := { w.notify with runs := w.notify.runs ++ [run] }
      let w' : World := { w.setScheduler i { s with completeQueue := rest } with notify := nw }
      have hsound : w'.flow.Sound (IsParent recs) := by
        refine h.sound.step (Flow.Step.move (perm_iff_count.mpr fun x => ?_))
        have hset := count_flatMap_set hs { s with completeQueue := rest } Scheduler.tokens x
        simp only [Scheduler.tokens, hqueue, map_cons, count_append, count_cons] at hset
        simp only [w', nw, run, World.flow, World.tokens, World.setScheduler, map_append, map_cons,
          map_nil, count_append, count_cons, count_nil]
        omega
      have hlinked : Linked recs nw := by
        have hnotices : (nw.notices recs).map edge =
            (w.notify.notices recs).map edge ++ (childrenOf recs cqItem.taskId).map fun c =>
            (c, cqItem.taskId) := by
          simp only [nw, Notify.World.notices, flatMap_append, flatMap_cons, flatMap_nil,
            append_nil, map_append, Notify.Run.owedNotices, map_map,
            append_assoc]
          rfl
        have hedges : edges recs (notifying nw) =
            edges recs (notifying w.notify) ++ (childrenOf recs cqItem.taskId).map fun c =>
            (c, cqItem.taskId) := by
          simp only [nw, run, notifying, edges, map_append, map_cons, map_nil, flatMap_append,
            flatMap_cons, flatMap_nil, append_nil]
        rw [Linked, hnotices, hedges]
        exact h.linked.append_right _
      have hnoted : Noted recs nw := by
        obtain ⟨hkey, hsize⟩ := hfine.executed cqItem (.inr (hqueue ▸ mem_cons_self))
        refine h.noted.spawn g.records ⟨hfine.id, hkey, hsize⟩ ((g.known _).mpr htask) ?_
        exact hlinked.few g (notifying_nodup hsound) (notifying_subset hsound h.known)
      refine ⟨w', ?_, hnoted, hlinked, h.fine_set hfine' i, h.known, hsound⟩
      simp only [World.next, hs, hqueue]
      rfl

theorem notify (h : Kept recs tasks w) (g : TaskGraph recs tasks) (k : Nat) :
    ∃ w', w.next config (.notify k) = .ok w' ∧ Kept recs tasks w' := by
  obtain ⟨nw, hnext, hnoted, hperm, -, hparents⟩ := h.noted.next g.records k
  refine ⟨{ w with notify := nw }, bind_eq_ok.mpr ⟨nw, hnext, rfl⟩, hnoted, ?_, h.fine, h.known, ?_⟩
  · have hids : notifying nw = notifying w.notify := by
      have hmap := congrArg (map (·.cqItem.taskId)) hparents
      rwa [map_map, map_map] at hmap
    rw [Linked, hids]
    exact (hperm.map edge).trans h.linked
  · have hruns : nw.runs.map (fun r => (Stage.done, r.parent.cqItem.taskId)) =
        w.notify.runs.map fun r => (Stage.done, r.parent.cqItem.taskId) := by
      have hmap := congrArg (map fun p => (Stage.done, p.cqItem.taskId)) hparents
      rwa [map_map, map_map] at hmap
    have hflow : World.flow { w with notify := nw } = w.flow := by
      simp only [World.flow, World.tokens, hruns]
    rw [hflow]
    exact h.sound

/-- **Every step succeeds and keeps the tasks.** -/
theorem step (h : Kept recs tasks w) (g : TaskGraph recs tasks) {e : Event}
    (henabled : w.enabled e = true)
    (honce : SubmitsOnce recs w e) : ∃ w', w.next config e = .ok w' ∧ Kept recs tasks w' := by
  cases e with
  | submit i l => exact h.submit g honce
  | recvBatch k => exact h.recvBatch g k
  | check i => exact h.check g i
  | sendTask i thief taskVec rest => exact h.sendTask henabled
  | recvPushingTask k i => exact h.recvPushingTask henabled
  | monitor i vecRemain vecMigrated => exact h.monitor henabled
  | migrate i => exact h.migrate i
  | takeLocal i tm rest => exact h.takeLocal henabled
  | takeWs i tm rest => exact h.takeWs henabled
  | exec i k => exact h.exec g i k
  | storeData i key => exact h.storeData i key
  | complete i => exact h.complete g i
  | notify k => exact h.notify g k

theorem fresh (g : TaskGraph recs tasks) {ids : List Text} (hids : ∀ id ∈ ids, Clean id) :
    Kept recs tasks (World.fresh recs ids) := by
  refine ⟨.fresh ⟨g.records, fun p hp => absurd hp not_mem_nil, fun c => Nat.zero_le _⟩,
    Perm.refl _, fun s hs => ?_, fun t ht => absurd ht not_mem_nil, ?_⟩
  · obtain ⟨id, hid, rfl⟩ := mem_map.mp hs
    exact Scheduler.fine_fresh (hids id hid)
  · have htokens : (World.fresh recs ids).tokens = [] := by
      have hnil : ∀ l : List Text, (l.map fun id => { id }).flatMap Scheduler.tokens = [] := by
        intro l
        rw [flatMap_eq_nil_iff]
        intro s hs
        obtain ⟨id, -, rfl⟩ := mem_map.mp hs
        rfl
      simp only [World.tokens, World.fresh, hnil]
      rfl
    have hflow :
      (World.fresh recs ids).flow = { tokens := [], submitted := [], executed := [] } := by
      simp only [World.flow, htokens]
      rfl
    rw [hflow]
    exact Flow.Sound.empty

end Kept

variable {recs : Records} {tasks : List Text} {config : Config} {ids : List Text} {w : World}

/-- **Tasks are neither lost nor run twice nor run early.** In every state of every
interleaving each submitted task is in exactly one place; no task has been
executed twice; each executed task was executed after all its parents; and no
step ends a process. -/
theorem tasks_kept (g : TaskGraph recs tasks) (hids : ∀ id ∈ ids, Clean id)
    (hrun : (system config recs ids).RunsWith (SubmitsOnce recs) w) :
    (w.tokens.map (·.2)).Perm w.submitted ∧ w.submitted.Nodup ∧ w.executed.Nodup ∧
      (∀ l₁ t l₂, w.executed = l₁ ++ t :: l₂ → ∀ p, IsParent recs p t → p ∈ l₁) ∧
      ∀ e, w.enabled e = true → SubmitsOnce recs w e → ∃ w', w.next config e = .ok w' := by
  have h : Kept recs tasks w := by
    refine hrun.invariant ?_ ?_
    · rintro w rfl
      exact .fresh g hids
    · rintro w e w' h honce ⟨henabled, hnext⟩
      obtain ⟨w'', hnext', h'⟩ := h.step g henabled honce
      obtain rfl := Except.ok.inj (hnext'.symm.trans hnext)
      exact h'
  refine ⟨h.sound.places, h.sound.nodup, h.sound.executed_nodup, h.sound.ordered,
    fun e henabled honce => ?_⟩
  obtain ⟨w', hnext, -⟩ := h.step g henabled honce
  exact ⟨w', hnext⟩

/-- The state after a list of events, when each may happen. -/
def World.after (config : Config) (recs : Records) : World → List Event → Except Exit (Option World)
  | w, [] => return some w
  | w, e :: l => do
      if w.enabled e ∧
        SubmitsOnce recs w e then (← w.next config e).after config recs l else return none

theorem runsWith_after {l : List Event} {w w' : World}
    (hrun : (system config recs ids).RunsWith (SubmitsOnce recs) w)
    (h : w.after config recs l = .ok (some w')) :
    (system config recs ids).RunsWith (SubmitsOnce recs) w' := by
  induction l generalizing w with
  | nil =>
    cases h
    exact hrun
  | cons e l ih =>
    rw [World.after] at h
    split at h
    · next hok =>
        obtain ⟨w1, hnext, hrest⟩ := bind_eq_ok.mp h
        exact ih (.step hrun hok.2 ⟨hok.1, hnext⟩) hrest
    · cases h

/-- A task with one child. -/
def parentAndChild : Records := fun key =>
  if key = ['a'] then some
    { id := ['a'], indegree := some 0, children := [['b']], outputsize := some 5 }
  else if key = ['b'] then some { id := ['b'], indegree := some 1 }
  else none

theorem taskGraph_parentAndChild : TaskGraph parentAndChild [['a'], ['b']] := by
  have hcases : ∀ {key v}, parentAndChild key = some v →
      key = ['a'] ∧
      v = { id := ['a'], indegree := some 0, children := [['b']], outputsize := some 5 } ∨
        key = ['b'] ∧ v = { id := ['b'], indegree := some 1 } := by
    intro key v hv
    unfold parentAndChild at hv
    split at hv
    · exact .inl ⟨‹_›, (Option.some.inj hv).symm⟩
    · split at hv
      · exact .inr ⟨‹_›, (Option.some.inj hv).symm⟩
      · cases hv
  refine ⟨by decide, fun t => ?_, by decide, ⟨fun hv => ?_, fun hv => ?_⟩, fun t v hv => ?_⟩
  · constructor
    · intro ht
      obtain ⟨v, hv⟩ := Option.isSome_iff_exists.mp ht
      obtain ⟨rfl, -⟩ | ⟨rfl, -⟩ := hcases hv
      · exact mem_cons_self
      · exact mem_cons_of_mem _ mem_cons_self
    · intro ht
      simp only [mem_cons, not_mem_nil, or_false] at ht
      obtain rfl | rfl := ht
      · rfl
      · rfl
  · obtain ⟨rfl, rfl⟩ | ⟨rfl, rfl⟩ := hcases hv
    all_goals exact ⟨by decide, by decide, by decide⟩
  · obtain ⟨rfl, rfl⟩ | ⟨rfl, rfl⟩ := hcases hv
    · decide
    · decide
  · obtain ⟨rfl, rfl⟩ | ⟨rfl, rfl⟩ := hcases hv
    · decide
    · decide

/-- The parent is checked, executed and notifies its child, and then the child is
checked and executed. -/
def parentThenChild : List Event :=
  [.submit 0 [{ taskid := ['a'] }, { taskid := ['b'] }], .recvBatch 0, .check 0, .check 0,
  .check 0, .check 0,
    .check 0, .takeWs 0 { taskid := ['a'] } [], .exec 0 0, .exec 0 0, .exec 0 0, .complete 0,
    .notify 0, .notify 0,
    .notify 0, .check 0, .check 0, .check 0, .check 0, .check 0,
    .takeWs 0 { taskid := ['b'], datalength := 5 } [], .exec 0 0, .exec 0 0]

theorem tasks_kept_parentAndChild :
    ∃ w, (system ⟨10, 4, true, false⟩ parentAndChild [['x']]).RunsWith
      (SubmitsOnce parentAndChild) w ∧
      w.executed = [['a'], ['b']] ∧ (w.tokens.map (·.2)).Perm w.submitted := by
  have hafter : (((World.fresh parentAndChild [['x']]).after ⟨10, 4, true, false⟩ parentAndChild
      parentThenChild).map fun w => w.map World.executed) = .ok (some [['a'], ['b']]) := by
    decide +kernel
  cases hw : (World.fresh parentAndChild [['x']]).after ⟨10, 4, true, false⟩ parentAndChild
    parentThenChild with
  | error e =>
    rw [hw] at hafter
    cases hafter
  | ok o =>
    rw [hw] at hafter
    obtain ⟨w, rfl, hexecuted⟩ := Option.map_eq_some_iff.mp (Except.ok.inj hafter)
    have hrun := runsWith_after (.init rfl) hw
    exact ⟨w, hrun, hexecuted, (tasks_kept taskGraph_parentAndChild (by decide) hrun).1⟩

end CharmRuntime.Matrix.Scheduling
