import CharmRuntime.Sparrow.RoundRobin

/-!
# Sparrow.Priority

`PriorityTaskScheduler`: a queue for each priority, and free slots go to the lowest value. Like
`RoundRobinTaskScheduler` it counts the queued reservations in `numQueuedReservations`, and
neither of them counts down when reservations are cancelled: the accounts of both are right in
runs whose cancellations find nothing (`queues_accounted`), and a cancellation that finds a
reservation breaks them.
-/

namespace CharmRuntime.Sparrow

open Lib

structure PriorityTaskScheduler where
  priorityQueues : OrderedMap Int (List TaskSpec)
  numQueuedReservations : Int
  maxActiveTasks : Int
  activeTasks : Int

namespace PriorityTaskScheduler

def new (maxActiveTasks : Int) : PriorityTaskScheduler where
  priorityQueues := []
  numQueuedReservations := 0
  maxActiveTasks := maxActiveTasks
  activeTasks := 0

def handleSubmitTaskReservation (s : PriorityTaskScheduler) (taskReservation : TaskSpec) :
    Except SchedulerFault (Handled PriorityTaskScheduler) :=
  let priority := taskReservation.priority
  let s :=
    { s with priorityQueues := OrderedMap.upsert priority (fun q => q.getD []) s.priorityQueues }
  if s.activeTasks < s.maxActiveTasks then
    if 0 < s.numQueuedReservations then .error .outstandingReservations
    else .ok { state := { s with activeTasks := s.activeTasks + 1 },
               runnable := some taskReservation }
  else
    .ok { state := { s with
            priorityQueues :=
              OrderedMap.upsert priority (fun q => q.getD [] ++ [taskReservation]) s.priorityQueues
            numQueuedReservations := s.numQueuedReservations + 1 }
          runnable := none
          result := s.numQueuedReservations + 1 }

/-- `numQueuedReservations` stays as it is. -/
def cancelTaskReservations (s : PriorityTaskScheduler) (requestId : StringObject) :
    PriorityTaskScheduler × List TaskSpec :=
  ({ s with priorityQueues := s.priorityQueues.map fun e =>
      (e.1, e.2.filter fun t => t.requestId.ref ≠ requestId.ref) },
    (OrderedMap.contents s.priorityQueues).filter fun t => t.requestId.ref = requestId.ref)

/-- The loop of `attemptTaskLaunch`: the first reservation of the lowest priority that has one. -/
def pollFirst : OrderedMap Int (List TaskSpec) → Option (TaskSpec × OrderedMap Int (List TaskSpec))
  | [] => none
  | (priority, nextTask :: queue) :: rest => some (nextTask, (priority, queue) :: rest)
  | (priority, []) :: rest => (pollFirst rest).map fun found => (found.1, (priority, []) :: found.2)

def attemptTaskLaunch (s : PriorityTaskScheduler)
    (lastExecutedRequestId lastExecutedTaskId : String) :
    Except SchedulerFault (Handled PriorityTaskScheduler) :=
  if s.numQueuedReservations ≠ 0 then
    match pollFirst s.priorityQueues with
    | some (nextTask, queues) =>
      .ok { state := { s with
              priorityQueues := queues, numQueuedReservations := s.numQueuedReservations - 1 }
            runnable := some { nextTask with
              previousRequestId := lastExecutedRequestId, previousTaskId := lastExecutedTaskId } }
    | none => .error .noQueuedTasks
  else .ok { state := { s with activeTasks := s.activeTasks - 1 }, runnable := none }

def handleTaskFinished (s : PriorityTaskScheduler) (requestId taskId : String) :
    Except SchedulerFault (Handled PriorityTaskScheduler) :=
  s.attemptTaskLaunch requestId taskId

def handleNoTaskForReservation (s : PriorityTaskScheduler) (taskSpec : TaskSpec) :
    Except SchedulerFault (Handled PriorityTaskScheduler) :=
  s.attemptTaskLaunch taskSpec.previousRequestId taskSpec.previousTaskId

def ops : SchedulerOps PriorityTaskScheduler where
  handleSubmitTaskReservation := handleSubmitTaskReservation
  cancelTaskReservations := cancelTaskReservations
  handleTaskFinished := handleTaskFinished
  handleNoTaskForReservation := handleNoTaskForReservation

/-! ### Laws -/

def queued (s : PriorityTaskScheduler) : List TaskSpec := OrderedMap.contents s.priorityQueues

/-- The counter is right. -/
structure Counted (max : Int) (s : PriorityTaskScheduler) : Prop where
  max_eq : s.maxActiveTasks = max
  count : s.numQueuedReservations = s.queued.length

/-- A cancellation that finds none of its reservations in the queues. -/
def view : SlotView PriorityTaskScheduler where
  queued := queued
  active s := s.activeTasks
  known _ _ := True
  allowed s id := ∀ t ∈ s.queued, t.requestId.ref ≠ id.ref

theorem pollFirst_none {m : OrderedMap Int (List TaskSpec)} (h : pollFirst m = none) :
    OrderedMap.contents m = [] := by
  induction m with
  | nil => rfl
  | cons e rest ih =>
    obtain ⟨k, q⟩ := e
    cases q with
    | nil =>
      rw [pollFirst, Option.map_eq_none_iff] at h
      rw [OrderedMap.contents_cons, ih h]
      rfl
    | cons t q => cases h

theorem pollFirst_some {m m' : OrderedMap Int (List TaskSpec)} {t : TaskSpec}
    (h : pollFirst m = some (t, m')) :
    OrderedMap.contents m = t :: OrderedMap.contents m' := by
  induction m generalizing m' with
  | nil => cases h
  | cons e rest ih =>
    obtain ⟨k, q⟩ := e
    cases q with
    | nil =>
      rw [pollFirst, Option.map_eq_some_iff] at h
      obtain ⟨⟨t', m''⟩, hrest, heq⟩ := h
      cases heq
      rw [OrderedMap.contents_cons, ih hrest]
      rfl
    | cons t' q =>
      cases h
      rfl

theorem attemptTaskLaunch_spec {max : Int} {s : PriorityTaskScheduler} (h : Counted max s)
    (requestId taskId : String) :
    ∃ r, s.attemptTaskLaunch requestId taskId = .ok r ∧ Counted max r.state ∧
      ((s.queued = [] ∧ r.runnable = none ∧ r.state.queued = [] ∧
      r.state.activeTasks = s.activeTasks - 1) ∨
        (∃ u u', r.runnable = some u' ∧ u'.obj = u.obj ∧ u'.user = u.user ∧
        s.queued.Perm (u :: r.state.queued) ∧
          r.state.activeTasks = s.activeTasks)) := by
  have hcount := h.count
  by_cases hnum : s.numQueuedReservations = 0
  · have hnil : s.queued = [] := List.length_eq_zero_iff.mp (by omega)
    refine ⟨{ state := { s with activeTasks := s.activeTasks - 1 }, runnable := none }, ?_,
      ⟨h.max_eq, h.count⟩, .inl ⟨hnil, rfl, hnil, rfl⟩⟩
    rw [attemptTaskLaunch, if_neg (not_not.mpr hnum)]
  · cases hpoll : pollFirst s.priorityQueues with
    | none =>
      have hnil : s.queued = [] := pollFirst_none hpoll
      rw [hnil] at hcount
      exact absurd hcount hnum
    | some found =>
      obtain ⟨t, queues⟩ := found
      have hqueue : s.queued = t :: OrderedMap.contents queues := pollFirst_some hpoll
      refine ⟨{ state := { s with priorityQueues := queues,
                                  numQueuedReservations := s.numQueuedReservations - 1 }
                runnable :=
                  some { t with previousRequestId := requestId, previousTaskId := taskId } }, ?_,
        ⟨h.max_eq, ?_⟩, .inr ⟨t, _, rfl, rfl, rfl, ?_, rfl⟩⟩
      · simp only [attemptTaskLaunch, if_pos hnum, hpoll]
      · rw [hqueue, List.length_cons] at hcount
        simp only [queued]
        omega
      · rw [hqueue]
        exact List.Perm.refl _

theorem cancel_none {s : PriorityTaskScheduler} {id : StringObject}
    (h : ∀ t ∈ s.queued, t.requestId.ref ≠ id.ref) : s.cancelTaskReservations id = (s, []) := by
  have hqueues : (s.priorityQueues.map fun e => (e.1, e.2.filter fun t => t.requestId.ref ≠ id.ref))
      = s.priorityQueues := OrderedMap.map_filter_eq_self fun t ht => decide_eq_true (h t ht)
  have hremoved :
    (OrderedMap.contents s.priorityQueues).filter (fun t => t.requestId.ref = id.ref) = [] := by
    rw [List.filter_eq_nil_iff]
    intro t ht
    rw [decide_eq_true_iff]
    exact h t ht
  rw [cancelTaskReservations, hqueues, hremoved]

theorem laws (max : Int) : SlotLaws ops max (Counted max) view where
  queued_known _ _ _ _ := trivial
  submit s t h hle hfull := by
    have htouch :
      (OrderedMap.contents
        (OrderedMap.upsert t.priority (fun q => q.getD []) s.priorityQueues)).Perm
        s.queued := OrderedMap.contents_touch
    have hcount := h.count
    have hmax := h.max_eq
    by_cases hlt : s.activeTasks < s.maxActiveTasks
    · have hlt' : s.activeTasks < max := by omega
      have hnil : s.queued = [] := hfull hlt'
      have hnum : ¬ 0 < s.numQueuedReservations := by
        rw [hnil, List.length_nil] at hcount
        omega
      refine ⟨{ state := { s with
          priorityQueues := OrderedMap.upsert t.priority (fun q => q.getD []) s.priorityQueues
          activeTasks := s.activeTasks + 1 }
                runnable := some t }, ?_, ⟨h.max_eq, ?_⟩, fun _ _ => trivial, trivial,
                  .inl ⟨hlt', rfl, htouch, rfl⟩⟩
      · simp only [ops, handleSubmitTaskReservation, if_pos hlt, if_neg hnum]
      · simp only [queued]
        rw [htouch.length_eq, hcount]
    · have heq : s.activeTasks = max := by
        have hle' : s.activeTasks ≤ max := hle
        omega
      have hpush : (OrderedMap.contents (OrderedMap.upsert t.priority (fun q => q.getD [] ++ [t])
          (OrderedMap.upsert t.priority (fun q => q.getD []) s.priorityQueues))).Perm
            (t :: s.queued) :=
        OrderedMap.contents_push.trans (htouch.cons t)
      refine ⟨{ state := { s with
          priorityQueues := OrderedMap.upsert t.priority (fun q => q.getD [] ++ [t])
            (OrderedMap.upsert t.priority (fun q => q.getD []) s.priorityQueues)
          numQueuedReservations := s.numQueuedReservations + 1 }
                runnable := none
                result := s.numQueuedReservations + 1 }, ?_, ⟨h.max_eq, ?_⟩, fun _ _ =>
                  trivial, trivial,
        .inr ⟨heq, rfl, hpush, rfl⟩⟩
      · simp only [ops, handleSubmitTaskReservation, if_neg hlt]
      · simp only [queued]
        rw [hpush.length_eq, List.length_cons, hcount]
        rfl
  cancel s id h hallowed := by
    have hnone : ops.cancelTaskReservations s id = (s, []) := cancel_none hallowed
    rw [hnone]
    exact ⟨h, fun _ _ => trivial, List.Perm.refl _, rfl⟩
  answer s t a h _ := by
    obtain ⟨requestId, taskId, heq⟩ :
      ∃ requestId taskId, ops.answer s t a = s.attemptTaskLaunch requestId taskId := by
      cases a with
      | finished requestId taskId => exact ⟨_, _, rfl⟩
      | noTask => exact ⟨_, _, rfl⟩
    obtain ⟨r, hrun, hcounted, hcase⟩ := attemptTaskLaunch_spec h requestId taskId
    exact ⟨r, heq.trans hrun, hcounted, fun _ _ => trivial, hcase⟩

end PriorityTaskScheduler

/-! ### Runs of both schedulers -/

/-- The counter of the queued reservations and the slots are right, and no call throws. -/
structure QueueAccounts {σ : Type} (ops : SchedulerOps σ) (max : Int) (num active : σ → Int)
    (queued : σ → List TaskSpec) (w : Monitor σ) : Prop where
  counted : num w.scheduler = (queued w.scheduler).length
  slots : active w.scheduler = w.runnableTaskQueue.length + w.taken.length
  bounds : 0 ≤ active w.scheduler ∧ active w.scheduler ≤ max
  full : active w.scheduler < max → queued w.scheduler = []
  no_exception : ∀ e, w.Enabled e → ∃ w', w.next ops e = .ok w'

theorem queueAccounts {σ : Type} {ops : SchedulerOps σ} {max : Int} {Inv : σ → Prop}
    {v : SlotView σ}
    {num : σ → Int} (laws : SlotLaws ops max Inv v)
    (hnum : ∀ s, Inv s → num s = (v.queued s).length)
    {w : Monitor σ} (h : Accounted max Inv v w) :
    QueueAccounts ops max num v.active v.queued w := by
  have hactive := h.active
  refine ⟨hnum _ h.inv, hactive, ⟨by omega, h.le⟩, h.full, fun e henabled => ?_⟩
  cases e with
  | submit user priority requestId =>
    obtain ⟨w', hnext, -⟩ := h.submit laws user priority requestId
    exact ⟨w', hnext⟩
  | cancel requestId => exact ⟨_, rfl⟩
  | getNextTask =>
    obtain ⟨w', hnext, -⟩ := h.getNextTask henabled
    exact ⟨w', hnext⟩
  | answer k a =>
    obtain ⟨w', hnext, -⟩ := h.answer laws henabled a
    exact ⟨w', hnext⟩

/-- What is right in a state of the round-robin scheduler. -/
def RoundRobinTaskScheduler.Accounts (max : Int) (w : Monitor RoundRobinTaskScheduler) : Prop :=
  QueueAccounts RoundRobinTaskScheduler.ops max (·.numQueuedReservations) (·.activeTasks)
    RoundRobinTaskScheduler.queued w

/-- What is right in a state of the priority scheduler. -/
def PriorityTaskScheduler.Accounts (max : Int) (w : Monitor PriorityTaskScheduler) : Prop :=
  QueueAccounts PriorityTaskScheduler.ops max (·.numQueuedReservations) (·.activeTasks)
    PriorityTaskScheduler.queued w

/-- The accounts of both schedulers, while cancellations find nothing in the queues. -/
theorem queues_accounted {max : Int} (hmax : 1 ≤ max) :
    (∀ w, (monitorSystem RoundRobinTaskScheduler.ops (.new max)).RunsWith
      RoundRobinTaskScheduler.view.Allows w →
      RoundRobinTaskScheduler.Accounts max w) ∧
    (∀ w, (monitorSystem PriorityTaskScheduler.ops (.new max)).RunsWith
      PriorityTaskScheduler.view.Allows w →
      PriorityTaskScheduler.Accounts max w) := by
  constructor
  · intro w hrun
    have hinit : RoundRobinTaskScheduler.Counted max (.new max) :=
      ⟨rfl, List.Pairwise.nil, fun u => by simp [RoundRobinTaskScheduler.new, OrderedMap.find],
        fun e he => absurd he List.not_mem_nil, rfl⟩
    exact queueAccounts (RoundRobinTaskScheduler.laws max) (fun s h => h.count)
      (runs_accounted (RoundRobinTaskScheduler.laws max) hinit rfl rfl (by omega) hrun)
  · intro w hrun
    exact queueAccounts (PriorityTaskScheduler.laws max) (fun s h => h.count)
      (runs_accounted (PriorityTaskScheduler.laws max) ⟨rfl, rfl⟩ rfl rfl (by omega) hrun)

/-- Two reservations for one slot, and the first of them is taken. -/
def twoReservations {σ : Type} (ops : SchedulerOps σ) (s : σ) : Monitor σ :=
  (((Monitor.fresh s).after ops (.submit "u" 0 ⟨0, "r"⟩)).after ops (.submit "u" 0 ⟨1, "s"⟩)).after
    ops .getNextTask

theorem twoReservations_runs {σ : Type} {ops : SchedulerOps σ} {s : σ}
    {ok : Monitor σ → MonitorEvent → Prop}
    (hsubmit : ∀ w user priority id, ok w (.submit user priority id))
    (hget : ∀ w, ok w .getNextTask)
    (hfirst : ((Monitor.fresh s).next ops (.submit "u" 0 ⟨0, "r"⟩)).isOk = true)
    (hsecond : (((Monitor.fresh s).after ops (.submit "u" 0 ⟨0, "r"⟩)).next ops
      (.submit "u" 0 ⟨1, "s"⟩)).isOk = true)
    (hqueue : (((Monitor.fresh s).after ops (.submit "u" 0 ⟨0, "r"⟩)).after ops
      (.submit "u" 0 ⟨1, "s"⟩)).runnableTaskQueue ≠ []) :
    (monitorSystem ops s).RunsWith ok (twoReservations ops s) := by
  have hone := runsWith_after (.init rfl) (hsubmit _ "u" 0 ⟨0, "r"⟩) trivial hfirst
  have htwo := runsWith_after hone (hsubmit _ "u" 0 ⟨1, "s"⟩) trivial hsecond
  refine runsWith_after htwo (hget _) hqueue ?_
  obtain ⟨t, rest, heq⟩ := List.exists_cons_of_ne_nil hqueue
  rw [Monitor.next, heq]
  rfl

/-- A cancellation that finds nothing, with a reservation in the queue. -/
theorem queues_accounted_one :
    (∃ w, (monitorSystem RoundRobinTaskScheduler.ops (.new 1)).RunsWith
      RoundRobinTaskScheduler.view.Allows w ∧
      w.scheduler.queued.length = 1 ∧ RoundRobinTaskScheduler.Accounts 1 w) ∧
    (∃ w, (monitorSystem PriorityTaskScheduler.ops (.new 1)).RunsWith
      PriorityTaskScheduler.view.Allows w ∧
      w.scheduler.queued.length = 1 ∧ PriorityTaskScheduler.Accounts 1 w) := by
  obtain ⟨hround, hpriority⟩ := queues_accounted (show 1 ≤ 1 by decide)
  constructor
  · have hrun := runsWith_after
      (twoReservations_runs (fun _ _ _ _ => trivial) (fun _ => trivial) (by decide +kernel)
        (by decide +kernel)
        (by decide +kernel))
      (show RoundRobinTaskScheduler.view.Allows
        (twoReservations RoundRobinTaskScheduler.ops (.new 1))
        (.cancel ⟨2, "s"⟩) from show ∀ t ∈ _, _ by decide +kernel) trivial (by decide +kernel)
    exact ⟨_, hrun, by decide +kernel, hround _ hrun⟩
  · have hrun := runsWith_after
      (twoReservations_runs (fun _ _ _ _ => trivial) (fun _ => trivial) (by decide +kernel)
        (by decide +kernel)
        (by decide +kernel))
      (show PriorityTaskScheduler.view.Allows (twoReservations PriorityTaskScheduler.ops (.new 1))
        (.cancel ⟨2, "s"⟩) from show ∀ t ∈ _, _ by decide +kernel) trivial (by decide +kernel)
    exact ⟨_, hrun, by decide +kernel, hpriority _ hrun⟩

/-- The queued reservation is cancelled: the counter stays at 1, and the answer for the other
one throws. -/
theorem cancellation_uncounted :
    (∃ w, (monitorSystem RoundRobinTaskScheduler.ops (.new 1)).Reachable w ∧
      w.scheduler.numQueuedReservations = 1 ∧ w.scheduler.queued = [] ∧
      w.Enabled (.answer 0 .noTask) ∧ w.next RoundRobinTaskScheduler.ops (.answer 0 .noTask) =
      .error .noQueuedTasks) ∧
    (∃ w, (monitorSystem PriorityTaskScheduler.ops (.new 1)).Reachable w ∧
      w.scheduler.numQueuedReservations = 1 ∧ w.scheduler.queued = [] ∧
      w.Enabled (.answer 0 .noTask) ∧ w.next PriorityTaskScheduler.ops (.answer 0 .noTask) =
      .error .noQueuedTasks) := by
  constructor
  · have htwo :
      (monitorSystem RoundRobinTaskScheduler.ops (.new 1)).Reachable (twoReservations _ _) :=
      twoReservations_runs (fun _ _ _ _ => trivial) (fun _ => trivial) (by decide +kernel)
        (by decide +kernel)
        (by decide +kernel)
    have hrun := runsWith_after htwo (e := .cancel ⟨1, "s"⟩) trivial trivial (by decide +kernel)
    exact ⟨_, hrun, by decide +kernel, by decide +kernel, show 0 < _ by decide +kernel, rfl⟩
  · have htwo :
      (monitorSystem PriorityTaskScheduler.ops (.new 1)).Reachable (twoReservations _ _) :=
      twoReservations_runs (fun _ _ _ _ => trivial) (fun _ => trivial) (by decide +kernel)
        (by decide +kernel)
        (by decide +kernel)
    have hrun := runsWith_after htwo (e := .cancel ⟨1, "s"⟩) trivial trivial (by decide +kernel)
    exact ⟨_, hrun, by decide +kernel, by decide +kernel, show 0 < _ by decide +kernel, rfl⟩

end CharmRuntime.Sparrow
