import CharmRuntime.Lib.InFlight
import CharmRuntime.Sparrow.Reservations

/-!
# Sparrow.LateBinding

Every task of a request is placed exactly once. `Job.Inv` accounts for the tasks, each of which is
returned or to be returned, and for the reservations, each of which is redeemed or outstanding, and
says that the placer is registered while there is something to return. A call keeps it
(`Inv.next`), whatever other calls wait for the lock.
-/

namespace CharmRuntime.Sparrow

open Lib ConstrainedTaskPlacer List

namespace Job

/-- `specs` are the tasks of the request and `grants` its reservations. -/
structure Inv (conf : SchedulerConf) (allowed : Allowed) (pinned specs : List TTaskLaunchSpec)
    (grants : List THostPort) (job : Job) (todo : List TTaskLaunchSpec) : Prop where
  placer : job.placer.Inv allowed pinned todo
  tasks : specs.Perm (job.returned.map (·.2) ++ todo)
  allowed : ∀ r ∈ job.returned, allowed r.2 r.1
  reservations : grants.Perm (job.redeemed ++ job.placer.outstandingReservations.tokens id)
  called_le : ∀ node, job.called.count node ≤ grants.count node
  held : ∀ node, job.redeemed.count node + job.waiting.count node ≤ job.called.count node
  held_registered : job.registered = true →
    ∀ node, job.redeemed.count node + job.waiting.count node = job.called.count node
  registered : job.registered = true ↔ todo ≠ []
  fresh : job.registered = true → job.placer.cancelled = false ∧ job.cancellations = []
  cancelled : job.registered = false → conf.useCancellation = true → job.placer.cancelled = true

variable {conf : SchedulerConf} {allowed : Allowed} {pinned specs todo : List TTaskLaunchSpec}
  {grants : List THostPort} {job : Job} {node : THostPort}

theorem Inv.submitted {placer : TaskPlacer} (h : placer.Inv allowed pinned todo)
    (htasks : specs.Perm todo)
    (hne : specs ≠ []) (hgrants : grants.Perm (placer.outstandingReservations.tokens id))
    (hcancelled : placer.cancelled = false) :
    Inv conf allowed pinned specs grants (submitted placer) todo where
  placer := h
  tasks := htasks
  allowed r hr := absurd hr not_mem_nil
  reservations := hgrants
  called_le node := Nat.zero_le _
  held node := le_rfl
  held_registered _ node := rfl
  registered := ⟨fun _ htodo => hne (by rw [htodo] at htasks; exact htasks.eq_nil), fun _ => rfl⟩
  fresh _ := ⟨hcancelled, rfl⟩
  cancelled h := by cases h

theorem Inv.getTask (h : Inv conf allowed pinned specs grants job todo)
    (hredeems : job.called.count node < grants.count node) :
    Inv conf allowed pinned specs grants (job.getTask node) todo where
  placer := h.placer
  tasks := h.tasks
  allowed := h.allowed
  reservations := h.reservations
  called_le node' := by
    have hle := h.called_le node'
    simp only [Job.getTask, count_append, count_singleton]
    split
    · next heq =>
        obtain rfl : node = node' := by simpa using heq
        exact hredeems
    · exact hle
  held node' := by
    have hheld := h.held node'
    simp only [Job.getTask]
    split
    · rw [count_append, count_append, ← add_assoc]
      exact Nat.add_le_add_right hheld _
    · rw [count_append]
      exact hheld.trans (Nat.le_add_right _ _)
  held_registered hregistered node' := by
    have hregistered : job.registered = true := hregistered
    simp only [Job.getTask, if_pos hregistered]
    rw [count_append, count_append, ← add_assoc, h.held_registered hregistered node']
  registered := h.registered
  fresh := h.fresh
  cancelled := h.cancelled

theorem Inv.outstanding_of_waiting (h : Inv conf allowed pinned specs grants job todo)
    (hnode : node ∈ job.waiting) :
    node ∈ job.placer.outstandingReservations.tokens id := by
  have hwaits : 0 < job.waiting.count node := count_pos_iff.mpr hnode
  have hheld := (h.held node).trans (h.called_le node)
  rw [h.reservations.count_eq, count_append] at hheld
  exact count_pos_iff.mp (by omega)

/-- The job behind `assignTask`, before the placer is looked at again. -/
def handed (job : Job) (k : Nat) (node : THostPort) (taskLaunchSpecs : List TTaskLaunchSpec)
    (placer : TaskPlacer) : Job :=
  { job with
    placer := placer
    waiting := job.waiting.eraseIdx k
    redeemed := job.redeemed ++ [node]
    returned := job.returned ++ taskLaunchSpecs.map (Prod.mk node) }

/-- What `assign` does to the tasks, the reservations and the waiting calls, whoever is registered.
-/
structure Moves (conf : SchedulerConf) (allowed : Allowed) (pinned specs : List TTaskLaunchSpec)
    (grants : List THostPort) (job job' : Job) (todo' : List TTaskLaunchSpec) : Prop where
  placer : job'.placer.Inv allowed pinned todo'
  tasks : specs.Perm (job'.returned.map (·.2) ++ todo')
  allowed : ∀ r ∈ job'.returned, allowed r.2 r.1
  reservations : grants.Perm (job'.redeemed ++ job'.placer.outstandingReservations.tokens id)
  called : job'.called = job.called
  held : ∀ node, job'.redeemed.count node + job'.waiting.count node = job.redeemed.count node +
    job.waiting.count node
  cancelled : job'.placer.cancelled = job.placer.cancelled

theorem Inv.handed (h : Inv conf allowed pinned specs grants job todo) {k : Nat}
    (hk : job.waiting[k]? = some node) :
    ∃ taskLaunchSpecs placer todo', job.placer.assignTask node = .ok (taskLaunchSpecs, placer) ∧
      taskLaunchSpecs.length ≤ 1 ∧ todo'.length ≤ todo.length ∧
      Moves conf allowed pinned specs grants job
        (job.handed k node taskLaunchSpecs placer) todo' := by
  have hnode := h.outstanding_of_waiting (mem_of_getElem? hk)
  obtain ⟨taskLaunchSpecs, placer, hassign, htokens, hcancelled, hhands⟩ :=
    TaskPlacer.assignTask_spec h.placer hnode
  have hreservations :
    grants.Perm ((job.redeemed ++ [node]) ++ placer.outstandingReservations.tokens id) := by
    rw [append_assoc]
    exact h.reservations.trans (htokens.append_left _)
  have hheld :
    ∀ node', (job.redeemed ++ [node]).count node' + (job.waiting.eraseIdx k).count node' =
      job.redeemed.count node' + job.waiting.count node' := by
    intro node'
    rw [(perm_eraseIdx hk).count_eq, count_cons, count_append, count_singleton]
    omega
  cases hhands with
  | nothing hinv =>
    refine ⟨[], placer, todo, hassign, Nat.zero_le _, le_rfl, hinv, ?_, ?_, hreservations, rfl,
      hheld, hcancelled⟩
    · simpa [Job.handed] using h.tasks
    · simpa [Job.handed] using h.allowed
  | @task spec todo' hallowed hperm hinv =>
    refine ⟨[spec], placer, todo', hassign, le_rfl, ?_, hinv, ?_, ?_, hreservations, rfl,
      hheld, hcancelled⟩
    · rw [hperm.length_eq]
      exact Nat.le_succ _
    · have htasks := h.tasks.trans (hperm.append_left _)
      simpa [Job.handed] using htasks
    · intro r hr
      obtain hr | hr := mem_append.mp hr
      · exact h.allowed r hr
      · obtain rfl := mem_singleton.mp hr
        exact hallowed

/-- The last task was returned by this call. -/
def Removes (conf : SchedulerConf) (grants : List THostPort) (job job' : Job) : Prop :=
  job.registered = true ∧ job'.registered = false ∧ job.cancellations = [] ∧
  job'.cancellations.Nodup ∧
    ∀ node, node ∈ job'.cancellations ↔ conf.useCancellation = true ∧
    job'.redeemed.count node < grants.count node

/-- What a call does to the registration: nothing, unless it returns the last task. -/
def Keeps (job job' : Job) :
    Prop := job'.registered = job.registered ∧ job'.cancellations = job.cancellations

variable {job' : Job} {todo' : List TTaskLaunchSpec}

theorem Inv.keep (h : Inv conf allowed pinned specs grants job todo)
    (hmoves : Moves conf allowed pinned specs grants job job' todo')
    (hkeeps : Keeps job job') (hle : todo'.length ≤ todo.length) (hne : todo' ≠ []) :
    Inv conf allowed pinned specs grants job' todo' := by
  obtain ⟨hregistered, hcancellations⟩ := hkeeps
  have hregistered' : job.registered = true := by
    refine h.registered.mpr fun htodo => hne (length_eq_zero_iff.mp ?_)
    rw [htodo] at hle
    exact Nat.le_zero.mp hle
  refine ⟨hmoves.placer, hmoves.tasks, hmoves.allowed, hmoves.reservations, ?_, ?_, ?_, ?_, ?_, ?_⟩
  · rw [hmoves.called]
    exact h.called_le
  · intro node
    rw [hmoves.held, hmoves.called]
    exact h.held node
  · intro _ node
    rw [hmoves.held, hmoves.called]
    exact h.held_registered hregistered' node
  · rw [hregistered]
    exact ⟨fun _ => hne, fun _ => hregistered'⟩
  · intro _
    rw [hmoves.cancelled, hcancellations]
    exact h.fresh hregistered'
  · intro hnot
    rw [hregistered, hregistered'] at hnot
    cases hnot

theorem Inv.done (h : Inv conf allowed pinned specs grants job todo)
    (hmoves : Moves conf allowed pinned specs grants job job' []) {placer : TaskPlacer}
    {cancellations : List THostPort}
    (hplacer : placer.Inv allowed pinned [])
    (houtstanding : placer.outstandingReservations = job'.placer.outstandingReservations)
    (hcancelled : conf.useCancellation = true → placer.cancelled = true) :
    Inv conf allowed pinned specs grants
      { job' with placer := placer, registered := false, cancellations := cancellations } [] := by
  refine ⟨hplacer, hmoves.tasks, hmoves.allowed, ?_, ?_, ?_, fun hnot => ?_, ?_, fun hnot => ?_,
    fun _ => hcancelled⟩
  · show grants.Perm (job'.redeemed ++ placer.outstandingReservations.tokens id)
    rw [houtstanding]
    exact hmoves.reservations
  · show ∀ node, job'.called.count node ≤ grants.count node
    rw [hmoves.called]
    exact h.called_le
  · intro node
    show job'.redeemed.count node + job'.waiting.count node ≤ job'.called.count node
    rw [hmoves.held, hmoves.called]
    exact h.held node
  · cases hnot
  · simp
  · cases hnot

/-- The node monitors with an outstanding reservation are those that have not redeemed all of
theirs. -/
theorem Moves.mem_keys (h : Moves conf allowed pinned specs grants job job' todo')
    (node : THostPort) :
    node ∈ job'.placer.outstandingReservations.keys ↔
    job'.redeemed.count node < grants.count node := by
  rw [h.placer.positive.mem_keys, h.reservations.count_eq, count_append]
  omega

theorem Inv.remove (h : Inv conf allowed pinned specs grants job todo)
    (hmoves : Moves conf allowed pinned specs grants job job' []) (hkeeps : Keeps job job') :
    Inv conf allowed pinned specs grants (job'.remove conf) [] ∧
      (Keeps job (job'.remove conf) ∨ Removes conf grants job (job'.remove conf)) := by
  obtain ⟨-, hcancellations⟩ := hkeeps
  cases huse : conf.useCancellation with
  | false =>
    have heq : job'.remove conf = { job' with registered := false } := by
      simp [Job.remove, huse]
    rw [heq]
    refine ⟨h.done hmoves hmoves.placer rfl fun hon => ?_, ?_⟩
    · rw [huse] at hon
      cases hon
    · cases hwas : job.registered with
      | false => exact .inl ⟨hwas.symm, hcancellations⟩
      | true =>
        have hnone : job'.cancellations = [] := hcancellations.trans (h.fresh hwas).2
        refine .inr ⟨hwas, rfl, (h.fresh hwas).2, ?_, fun node => ?_⟩
        · show job'.cancellations.Nodup
          rw [hnone]
          exact nodup_nil
        · show node ∈ job'.cancellations ↔ _
          rw [hnone, huse]
          simp
  | true =>
    cases hwas : job.registered with
    | false =>
      -- a call that was late: the cancellations went out with the last task
      have hcancelled : job'.placer.cancelled = true :=
        hmoves.cancelled.trans (h.cancelled hwas huse)
      have heq : job'.remove conf = { job' with registered := false } := by
        simp [Job.remove, TaskPlacer.getOutstandingNodeMonitorsForCancellation, hcancelled]
      rw [heq]
      exact ⟨h.done hmoves hmoves.placer rfl fun _ => hcancelled, .inl ⟨hwas.symm, hcancellations⟩⟩
    | true =>
      obtain ⟨hfresh, hnone⟩ := h.fresh hwas
      have heq : job'.remove conf = { job' with
            placer := job'.placer.setCancelled
            registered := false
            cancellations := job'.placer.outstandingReservations.keys } := by
        simp [Job.remove, huse, TaskPlacer.getOutstandingNodeMonitorsForCancellation,
          hmoves.cancelled, hfresh, hcancellations, hnone]
      rw [heq]
      refine ⟨h.done hmoves hmoves.placer.setCancelled
        TaskPlacer.setCancelled_outstandingReservations
        fun _ => TaskPlacer.setCancelled_cancelled,
          .inr ⟨hwas, rfl, hnone, AList.keys_nodup _, fun node => ?_⟩⟩
      refine (hmoves.mem_keys node).trans ?_
      rw [huse]
      simp

/-- **A call keeps the accounts.** It is not stopped by an assertion, and drops the placer if and
only if it returns the last task. -/
theorem Inv.assign (h : Inv conf allowed pinned specs grants job todo) {k : Nat}
    (hk : job.waiting[k]? = some node) :
    ∃ job' todo', { job with waiting := job.waiting.eraseIdx k }.assign conf node = .ok job' ∧
      Inv conf allowed pinned specs grants job' todo' ∧
      (Keeps job job' ∨ Removes conf grants job job') := by
  obtain ⟨taskLaunchSpecs, placer, todo', hassign, hone, hle, hmoves⟩ := h.handed hk
  have hkeeps : Keeps job (job.handed k node taskLaunchSpecs placer) := ⟨rfl, rfl⟩
  have heq : { job with waiting := job.waiting.eraseIdx k }.assign conf node =
      .ok (if placer.allTasksPlaced then (job.handed k node taskLaunchSpecs placer).remove conf
        else job.handed k node taskLaunchSpecs placer) := by
    simp only [Job.assign, hassign, if_neg (not_lt.mpr hone), Job.handed]
  rw [heq]
  have hplaced := TaskPlacer.Inv.allTasksPlaced hmoves.placer
  by_cases hdone : todo' = []
  · subst hdone
    have hall : placer.allTasksPlaced = true := hplaced.mpr rfl
    rw [if_pos hall]
    obtain ⟨hinv, heffect⟩ := h.remove hmoves hkeeps
    exact ⟨_, [], rfl, hinv, heffect⟩
  · have hnot : ¬ placer.allTasksPlaced = true := fun hall => hdone (hplaced.mp hall)
    rw [if_neg hnot]
    exact ⟨_, todo', rfl, h.keep hmoves hkeeps hle hdone, .inl hkeeps⟩

variable {requests : EnqueueRequests}

theorem Inv.next (h : Inv conf allowed pinned specs grants job todo)
    (hgrants : ∀ node, granted requests node = grants.count node)
    {e : JobEvent} (henabled : job.Enabled e) (hredeems : Redeems requests job e) :
    ∃ job' todo', job.next conf e = .ok job' ∧ Inv conf allowed pinned specs grants job' todo' ∧
      (Keeps job job' ∨ Removes conf grants job job') := by
  cases e with
  | getTask node =>
    have hcalled : job.called.count node < grants.count node := hgrants node ▸ hredeems
    exact ⟨job.getTask node, todo, rfl, h.getTask hcalled, .inl ⟨rfl, rfl⟩⟩
  | assign k =>
    obtain ⟨t, hk⟩ : ∃ t, job.waiting[k]? = some t := ⟨_, getElem?_eq_getElem henabled⟩
    obtain ⟨job', todo', hassign, hinv, heffect⟩ := h.assign hk
    refine ⟨job', todo', ?_, hinv, heffect⟩
    rw [Job.next]
    simp only [hk]
    exact hassign

/-! ### What a request sees -/

/-- The tasks that were returned, the placer and the cancellations of a request, in any state. -/
structure Placed (conf : SchedulerConf) (getByName : String → Option InetAddress)
    (request : TSchedulingRequest)
    (nodes : List InetSocketAddress) (requests : EnqueueRequests) (job : Job) : Prop where
  /-- No task is returned twice. -/
  nodup : (job.returned.map (·.2.taskId)).Nodup
  known : ∀ r ∈ job.returned, ∃ task ∈ request.tasks, r.2 = task.launchSpec
  /-- A constrained task is returned only to a node monitor that it prefers. -/
  preferred : ∀ r ∈ job.returned, MayRun getByName request nodes r.2 r.1
  /-- No assertion fails. -/
  no_fault : ∀ e, job.Enabled e → Redeems requests job e → ∃ job', job.next conf e = .ok job'
  /-- The placer is there until the last task is returned. -/
  registered : job.registered = true ↔ job.returned.length < request.tasks.length
  /-- A call that drops the placer cancels what is not redeemed, and no other call cancels anything.
  -/
  cancels : ∀ e job', job.Enabled e → Redeems requests job e → job.next conf e = .ok job' →
    (job'.registered = job.registered ∧ job'.cancellations = job.cancellations) ∨
      (job.registered = true ∧ job'.registered = false ∧ job.cancellations = [] ∧
      job'.cancellations.Nodup ∧
        ∀ node, node ∈ job'.cancellations ↔
          conf.useCancellation = true ∧ job'.redeemed.count node < granted requests node)
  /-- No task is stranded. -/
  complete : job.waiting = [] → (∀ node, job.called.count node = granted requests node) →
    (job.returned.map (·.2)).Perm (request.tasks.map (·.launchSpec))

variable {getByName : String → Option InetAddress} {request : TSchedulingRequest}
  {nodes : List InetSocketAddress}

theorem Inv.placed
    (h : Inv conf (MayRun getByName request nodes) pinned (request.tasks.map (·.launchSpec))
      grants job todo)
    (hids : (request.tasks.map (·.taskId)).Nodup)
    (hgrants : ∀ node, granted requests node = grants.count node) :
    job.Placed conf getByName request nodes requests where
  nodup := by
    have hids' : ((request.tasks.map (·.launchSpec)).map (·.taskId)).Nodup := by
      rw [map_map]
      exact hids
    rw [(h.tasks.map _).nodup_iff, map_append, map_map] at hids'
    exact (nodup_append.mp hids').1
  known r hr := by
    have hmem : r.2 ∈ request.tasks.map (·.launchSpec) :=
      h.tasks.mem_iff.mpr (mem_append_left _ (mem_map_of_mem hr))
    obtain ⟨task, htask, heq⟩ := mem_map.mp hmem
    exact ⟨task, htask, heq.symm⟩
  preferred := h.allowed
  no_fault e henabled hredeems := by
    obtain ⟨job', _, hnext, -⟩ := h.next hgrants henabled hredeems
    exact ⟨job', hnext⟩
  registered := by
    have hlength := h.tasks.length_eq
    rw [length_map, length_append, length_map] at hlength
    rw [h.registered, ← length_pos_iff]
    omega
  cancels e job' henabled hredeems hnext := by
    obtain ⟨job'', _, hnext', -, heffect⟩ := h.next hgrants henabled hredeems
    obtain rfl : job'' = job' := Except.ok.inj (hnext'.symm.trans hnext)
    refine heffect.imp_right fun hremoves => ?_
    simp only [hgrants]
    exact hremoves
  complete hwaiting hcalled := by
    have htodo : todo = [] := by
      by_contra hne
      -- the placer is registered, so that every call that was made has redeemed its reservation
      have hheld := h.held_registered (h.registered.mpr hne)
      refine hne (h.placer.todo_eq_nil (eq_nil_iff_forall_not_mem.mpr fun node hnode => ?_))
      have hcount := hheld node
      have hgranted := h.reservations.count_eq node
      have hpos := count_pos_iff.mpr hnode
      rw [hwaiting, count_nil, hcalled node, hgrants node] at hcount
      rw [count_append] at hgranted
      omega
    have htasks := h.tasks
    rw [htodo, append_nil] at htasks
    exact htasks.symm

end Job

/-! ### Submission -/

section Submission

variable {conf : SchedulerConf} {getByName : String → Option InetAddress} {shuffles : Shuffles}
  {requestId : String}
  {request : TSchedulingRequest} {nodes : List InetSocketAddress}

/-- Every constrained task prefers a known node monitor, and enough node monitors carry no
reservation of a constrained task. -/
structure Placeable (conf : SchedulerConf) (getByName : String → Option InetAddress)
    (shuffles : Shuffles)
    (requestId : String) (request : TSchedulingRequest) (nodes : List InetSocketAddress) :
    Prop where
  known : ∀ task ∈ request.tasks, task.Constrained → ∃ node ∈ nodes, Prefers getByName task node
  spare : reservationsToLaunch (conf.probeRatio request)
    (request.tasks.filter (¬ ·.Constrained)).length ≤
    (unusedNodeMonitors nodes
      (constrainedRequests getByName shuffles request requestId nodes conf.address
        (conf.probeRatio request)
        ⟨∅, ∅⟩).requests).length

variable (conf getByName shuffles requestId request nodes) in
/-- What `handleJobSubmission` leaves. -/
theorem handleJobSubmission_spec (hratio : 1 ≤ conf.probeRatio request) (hnodes : nodes ≠ [])
    (hnodup : nodes.Nodup)
    (htasks : request.tasks ≠ []) (hids : (request.tasks.map (·.taskId)).Nodup)
    (hplaceable : request.Constrained → Placeable conf getByName shuffles requestId request nodes) :
    ∃ requests placer pinned todo,
      handleJobSubmission conf getByName shuffles requestId request nodes = .ok (requests, placer) ∧
      Records requests placer.outstandingReservations ∧
      (¬ request.Constrained →
        (sent requests).length = reservationsToLaunch (conf.probeRatio request)
          request.tasks.length) ∧
      placer.cancelled = false ∧ todo.Perm (request.tasks.map (·.launchSpec)) ∧
      placer.Inv (MayRun getByName request nodes) pinned todo := by
  by_cases hconstrained : request.Constrained
  · obtain ⟨hknown, hspare⟩ := hplaceable hconstrained
    obtain ⟨requests, p, pinned, todo, heq, hrecords, hcancelled, hperm, hinv⟩ :=
      ConstrainedTaskPlacer.getEnqueueTaskReservationsRequests_spec hratio hnodup hids hknown hspare
    refine ⟨requests, .constrained p, pinned, todo, ?_, hrecords, fun hnot =>
      absurd hconstrained hnot, hcancelled, hperm, hinv⟩
    simp only [handleJobSubmission, if_pos hconstrained, heq]
  · have hallowed :
      ∀ spec ∈ request.tasks.map (·.launchSpec), ∀ node, MayRun getByName request nodes spec node :=
      fun _ _ _ task htask _ htc => absurd ⟨task, htask, htc⟩ hconstrained
    obtain ⟨requests, p, heq, hrecords, hlength, hcancelled, hinv⟩ :
        ∃ requests p,
        (UnconstrainedTaskPlacer.new requestId
          (conf.probeRatio request)).getEnqueueTaskReservationsRequests
          shuffles.nodeList request requestId nodes conf.address = .ok (requests, p) ∧ _ :=
      UnconstrainedTaskPlacer.getEnqueueTaskReservationsRequests_spec hratio hnodes hnodup
        htasks hallowed
    refine ⟨requests, .unconstrained p, [], _, ?_, hrecords, fun _ => hlength, hcancelled,
      .refl _, hinv⟩
    simp only [handleJobSubmission, if_neg hconstrained, heq]

/-- **Late binding.** For every order of calls in which no reservation is redeemed twice. -/
theorem late_binding (hratio : 1 ≤ conf.probeRatio request) (hnodes : nodes ≠ [])
    (hnodup : nodes.Nodup)
    (htasks : request.tasks ≠ []) (hids : (request.tasks.map (·.taskId)).Nodup)
    (hplaceable : request.Constrained → Placeable conf getByName shuffles requestId request nodes) :
    ∃ requests placer, handleJobSubmission conf getByName shuffles requestId request nodes =
    .ok (requests, placer) ∧
      (∀ addr, placer.outstandingReservations.lookup (socketAddressToThrift addr) =
        (requests.lookup addr).map (·.numTasks)) ∧
      (¬ request.Constrained →
        (requests.entries.map (·.2.numTasks)).sum = min ⌈conf.probeRatio request *
        request.tasks.length⌉₊ maxInt) ∧
      ∀ job, (jobSystem conf placer).RunsWith (Redeems requests) job →
        job.Placed conf getByName request nodes requests := by
  obtain ⟨requests, placer, pinned, todo, heq, hrecords, hlength, hcancelled, hperm, hinv⟩ :=
    handleJobSubmission_spec conf getByName shuffles requestId request nodes hratio hnodes hnodup
      htasks hids hplaceable
  refine ⟨requests, placer, heq, hrecords, fun hfree => ?_, fun job hjob => ?_⟩
  · rw [← HashMap.length_tokens]
    exact hlength hfree
  · have hrun :
      ∃ todo, job.Inv conf (MayRun getByName request nodes) pinned
        (request.tasks.map (·.launchSpec))
        (placer.outstandingReservations.tokens id) todo := by
      refine Transition.RunsWith.invariant
        (I := fun job => ∃ todo, job.Inv conf (MayRun getByName request nodes) pinned
        (request.tasks.map (·.launchSpec)) (placer.outstandingReservations.tokens id) todo)
        (fun job hinit => ?_) (fun job e job' hjob hredeems hstep => ?_) hjob
      · obtain rfl : job = Job.submitted placer := hinit
        exact ⟨todo, Job.Inv.submitted hinv hperm.symm (by simpa using htasks) (.refl _) hcancelled⟩
      · obtain ⟨todo, hinv⟩ := hjob
        obtain ⟨job'', todo', hnext, hinv', -⟩ := hinv.next hrecords.granted hstep.1 hredeems
        obtain rfl : job'' = job' := Except.ok.inj (hnext.symm.trans hstep.2)
        exact ⟨todo', hinv'⟩
    obtain ⟨todo, hjobInv⟩ := hrun
    exact hjobInv.placed hids hrecords.granted

end Submission

/-! ### Two requests -/

/-- Lists are left as they are. -/
def unshuffled : Shuffles where
  taskList := ⟨id, fun l => .refl l⟩
  preferences _ := ⟨id, fun l => .refl l⟩
  nodeList := ⟨id, fun l => .refl l⟩
  unusedNodeMonitors := ⟨id, fun l => .refl l⟩

def threeNodes : List InetSocketAddress :=
  [⟨⟨"10.0.0.1"⟩, 20502⟩, ⟨⟨"10.0.0.2"⟩, 20502⟩, ⟨⟨"10.0.0.3"⟩, 20502⟩]

def defaultConf : SchedulerConf := ⟨⟨"10.0.0.9", 20503⟩, 21 / 20, 2, true⟩

/-- A task that prefers the first node monitor and a task without preferences, and three
reservations for them. -/
def mixedRequest : TSchedulingRequest where
  app := "app"
  tasks := [⟨"0", some ⟨some ["10.0.0.1"]⟩, []⟩, ⟨"1", none, []⟩]
  user := ⟨"user", "group", 0⟩
  probeRatio := some (3 / 2)
  tasks_size := by decide

theorem late_binding_mixed :
    ∃ requests placer,
      handleJobSubmission defaultConf (fun host => some ⟨host⟩) unshuffled "r_0" mixedRequest
        threeNodes =
        .ok (requests, placer) ∧
      (∀ addr, placer.outstandingReservations.lookup (socketAddressToThrift addr) =
        (requests.lookup addr).map (·.numTasks)) ∧
      (¬ mixedRequest.Constrained → (requests.entries.map (·.2.numTasks)).sum =
        min ⌈defaultConf.probeRatio mixedRequest * mixedRequest.tasks.length⌉₊ maxInt) ∧
      ∀ job, (jobSystem defaultConf placer).RunsWith (Redeems requests) job →
        job.Placed defaultConf (fun host => some ⟨host⟩) mixedRequest threeNodes requests :=
  late_binding (by decide +kernel) (by decide) (by decide) (by decide) (by decide) fun _ =>
    { known := by
        intro task htask hconstrained
        simp only [mixedRequest, mem_cons, not_mem_nil, or_false] at htask
        obtain rfl | rfl := htask
        · exact ⟨⟨⟨"10.0.0.1"⟩, 20502⟩, by decide, "10.0.0.1", by decide, rfl⟩
        · exact absurd rfl hconstrained
      spare := by decide +kernel }

/-- One task, and a probe ratio of `2 ^ 31`. -/
def hugeRequest : TSchedulingRequest where
  app := "app"
  tasks := [⟨"0", none, []⟩]
  user := ⟨"user", "group", 0⟩
  probeRatio := some (2 ^ 31)
  tasks_size := by decide

/-- The number of reservations does not go beyond `int`. -/
theorem reservations_saturate :
    ∃ requests placer,
      handleJobSubmission defaultConf (fun host => some ⟨host⟩) unshuffled "r_0" hugeRequest
        threeNodes =
        .ok (requests, placer) ∧
      ¬ hugeRequest.Constrained ∧ (requests.entries.map (·.2.numTasks)).sum = 2147483647 ∧
      ⌈defaultConf.probeRatio hugeRequest * hugeRequest.tasks.length⌉₊ = 2147483648 := by
  have hfree : ¬ hugeRequest.Constrained := by decide
  obtain ⟨requests, placer, -, -, heq, -, hlength, -⟩ :=
    handleJobSubmission_spec defaultConf (fun host => some ⟨host⟩) unshuffled "r_0"
      hugeRequest threeNodes
      (by decide +kernel) (by decide) (by decide) (by decide) (by decide) fun h => absurd h hfree
  refine ⟨requests, placer, heq, hfree, ?_, by decide +kernel⟩
  rw [← HashMap.length_tokens]
  exact (hlength hfree).trans (by decide +kernel)

end CharmRuntime.Sparrow
