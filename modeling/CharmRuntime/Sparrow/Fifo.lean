import CharmRuntime.Sparrow.TaskScheduler

/-!
# Sparrow.Fifo

`FifoTaskScheduler`: one queue for all reservations. A slot that becomes free goes to the
reservation that waits longest, so that the reservations get their slots in the order in which
they were submitted.
-/

namespace CharmRuntime.Sparrow

open Lib List Except

structure FifoTaskScheduler where
  maxActiveTasks : Int
  activeTasks : Int
  taskReservations : List TaskSpec

namespace FifoTaskScheduler

def new (max : Int) : FifoTaskScheduler where
  maxActiveTasks := max
  activeTasks := 0
  taskReservations := []

def handleSubmitTaskReservation (s : FifoTaskScheduler) (taskReservation : TaskSpec) :
    Except SchedulerFault (Handled FifoTaskScheduler) :=
  if s.activeTasks < s.maxActiveTasks then
    if 0 < s.taskReservations.length then .error .outstandingReservations
    else .ok { state := { s with activeTasks := s.activeTasks + 1 },
               runnable := some taskReservation }
  else
    .ok { state := { s with taskReservations := s.taskReservations ++ [taskReservation] }
          runnable := none
          result := s.taskReservations.length }

def cancelTaskReservations (s : FifoTaskScheduler) (requestId : StringObject) :
    FifoTaskScheduler × List TaskSpec :=
  ({ s with
     taskReservations := s.taskReservations.filter fun t => t.requestId.ref ≠ requestId.ref },
    s.taskReservations.filter fun t => t.requestId.ref = requestId.ref)

def attemptTaskLaunch (s : FifoTaskScheduler) (lastExecutedRequestId lastExecutedTaskId : String) :
    Handled FifoTaskScheduler :=
  match s.taskReservations with
  | reservation :: rest =>
    { state := { s with taskReservations := rest }
      runnable := some { reservation with
        previousRequestId := lastExecutedRequestId, previousTaskId := lastExecutedTaskId } }
  | [] => { state := { s with activeTasks := s.activeTasks - 1 }, runnable := none }

def handleTaskFinished (s : FifoTaskScheduler) (requestId taskId : String) :
    Except SchedulerFault (Handled FifoTaskScheduler) :=
  .ok (s.attemptTaskLaunch requestId taskId)

def handleNoTaskForReservation (s : FifoTaskScheduler) (taskSpec : TaskSpec) :
    Except SchedulerFault (Handled FifoTaskScheduler) :=
  .ok (s.attemptTaskLaunch taskSpec.previousRequestId taskSpec.previousTaskId)

def ops : SchedulerOps FifoTaskScheduler where
  handleSubmitTaskReservation := handleSubmitTaskReservation
  cancelTaskReservations := cancelTaskReservations
  handleTaskFinished := handleTaskFinished
  handleNoTaskForReservation := handleNoTaskForReservation

/-- Any reservation may be cancelled. -/
def view : SlotView FifoTaskScheduler where
  queued s := s.taskReservations
  active s := s.activeTasks
  known _ _ := True
  allowed _ _ := True

theorem answer_eq (s : FifoTaskScheduler) (t : TaskSpec) (a : Answer) :
    ∃ requestId taskId, ops.answer s t a = .ok (s.attemptTaskLaunch requestId taskId) := by
  cases a with
  | finished requestId taskId => exact ⟨_, _, rfl⟩
  | noTask => exact ⟨_, _, rfl⟩

theorem laws (max : Int) : SlotLaws ops max (fun s => s.maxActiveTasks = max) view where
  queued_known _ _ _ _ := trivial
  submit s t hmax hle hfull := by
    by_cases hlt : s.activeTasks < s.maxActiveTasks
    · have hnil : s.taskReservations = [] := hfull (hmax ▸ hlt)
      refine ⟨{ state := { s with activeTasks := s.activeTasks + 1 }, runnable := some t }, ?_,
        hmax, fun _ _ => trivial, trivial, .inl ⟨hmax ▸ hlt, rfl, Perm.refl _, rfl⟩⟩
      simp only [ops, handleSubmitTaskReservation, if_pos hlt, hnil, length_nil,
        Nat.lt_irrefl, if_false]
    · have heq : s.activeTasks = max := Int.le_antisymm hle (by omega)
      refine ⟨{ state := { s with taskReservations := s.taskReservations ++ [t] }, runnable := none
                result := s.taskReservations.length }, ?_, hmax, fun _ _ => trivial, trivial,
        .inr ⟨heq, rfl, perm_append_singleton _ _, rfl⟩⟩
      simp only [ops, handleSubmitTaskReservation, if_neg hlt]
  cancel s id hmax _ := by
    refine ⟨hmax, fun _ _ => trivial, ?_, rfl⟩
    have hperm :=
      filter_append_perm (fun t : TaskSpec => decide (t.requestId.ref = id.ref)) s.taskReservations
    simp only [← decide_not] at hperm
    exact hperm.symm
  answer s t a hmax _ := by
    obtain ⟨requestId, taskId, hrun⟩ := answer_eq s t a
    refine ⟨_, hrun, ?_, fun _ _ => trivial, ?_⟩
    · cases hqueue : s.taskReservations with
      | nil =>
        simp only [attemptTaskLaunch, hqueue]
        exact hmax
      | cons u rest =>
        simp only [attemptTaskLaunch, hqueue]
        exact hmax
    · cases hqueue : s.taskReservations with
      | nil =>
        left
        simp only [attemptTaskLaunch, hqueue, view]
        exact ⟨trivial, trivial, trivial, trivial⟩
      | cons u rest =>
        right
        simp only [attemptTaskLaunch, hqueue, view]
        exact ⟨u, _, rfl, rfl, rfl, Perm.refl _, trivial⟩

/-! ### Order -/

/-- The reservations that have got a slot and those that wait for one, in the order of their
submission. -/
def InOrder (w : Monitor FifoTaskScheduler) : Prop :=
  (w.launched ++ w.scheduler.taskReservations.map (·.obj)).Sublist w.submitted

theorem inOrder_launch {w : Monitor FifoTaskScheduler} (h : InOrder w) (requestId taskId : String) :
    InOrder (w.handled (w.scheduler.attemptTaskLaunch requestId taskId)) := by
  unfold InOrder at h ⊢
  cases hqueue : w.scheduler.taskReservations with
  | nil =>
    simp only [Monitor.handled, attemptTaskLaunch, hqueue, Option.toList_none, map_nil,
      append_nil] at h ⊢
    exact h
  | cons u rest =>
    simp only [Monitor.handled, attemptTaskLaunch, hqueue, append_assoc] at h ⊢
    exact h

/-- Every event keeps the order of the reservations. -/
theorem inOrder_step {max : Int} {w w' : Monitor FifoTaskScheduler} {e : MonitorEvent}
    (hacc : Accounted max (fun s => s.maxActiveTasks = max) view w) (h : InOrder w)
    (hnext : w.next ops e = .ok w') :
    InOrder w' := by
  cases e with
  | submit user priority requestId =>
    obtain ⟨r, hrun, hw'⟩ := bind_eq_ok.mp hnext
    obtain rfl := ok.inj hw'
    have hmax := hacc.inv
    simp only [ops, handleSubmitTaskReservation] at hrun
    split at hrun
    · rename_i hlt
      have hnil : w.scheduler.taskReservations = [] := hacc.full (hmax ▸ hlt)
      simp only [hnil, Nat.lt_irrefl] at hrun
      obtain rfl := ok.inj hrun
      unfold InOrder at h ⊢
      simp only [Monitor.handled, hnil, map_nil, append_nil] at h ⊢
      exact h.append (Sublist.refl _)
    · obtain rfl := ok.inj hrun
      unfold InOrder at h ⊢
      simp only [Monitor.handled, Option.toList_none, map_nil, append_nil, map_append]
      rw [← append_assoc]
      exact h.append (Sublist.refl _)
  | cancel requestId =>
    obtain rfl := ok.inj hnext
    exact ((filter_sublist.map _).append_left w.launched).trans h
  | getNextTask =>
    cases hqueue : w.runnableTaskQueue with
    | nil =>
      simp only [Monitor.next, hqueue] at hnext
      obtain rfl := ok.inj hnext
      exact h
    | cons t rest =>
      simp only [Monitor.next, hqueue] at hnext
      obtain rfl := ok.inj hnext
      exact h
  | answer k a =>
    cases hget : w.taken[k]? with
    | none =>
      simp only [Monitor.next, hget] at hnext
      obtain rfl := ok.inj hnext
      exact h
    | some t =>
      simp only [Monitor.next, hget] at hnext
      obtain ⟨r, hrun, hw'⟩ := bind_eq_ok.mp hnext
      obtain rfl := ok.inj hw'
      obtain ⟨requestId, taskId, hlaunch⟩ := answer_eq w.scheduler t a
      obtain rfl := ok.inj (hlaunch.symm.trans hrun)
      exact inOrder_launch h requestId taskId

/-! ### Runs -/

/-- The slots are accounted for, every submitted reservation is in one place, and slots are
given in the order of submission. -/
structure Safe (max : Int) (w : Monitor FifoTaskScheduler) : Prop where
  active : w.scheduler.activeTasks = w.runnableTaskQueue.length + w.taken.length
  bounds : 0 ≤ w.scheduler.activeTasks ∧ w.scheduler.activeTasks ≤ max
  full : w.scheduler.activeTasks < max → w.scheduler.taskReservations = []
  /-- No exception is thrown. -/
  no_exception : ∀ e, w.Enabled e → ∃ w', w.next ops e = .ok w'
  once : w.submitted.Nodup
  places : w.submitted.Perm (w.scheduler.taskReservations.map (·.obj) ++ w.cancelled ++
    (w.runnableTaskQueue.map (·.obj) ++ w.taken.map (·.obj)) ++ w.answered)
  order : w.launched.Sublist w.submitted

theorem allows (w : Monitor FifoTaskScheduler) (e : MonitorEvent) : view.Allows w e := by
  cases e <;> exact trivial

/-- **The FIFO scheduler keeps its bound, loses no reservation and keeps their order.** -/
theorem fifo_accounts {max : Int} (hmax : 1 ≤ max) {w : Monitor FifoTaskScheduler}
    (hrun : (monitorSystem ops (new max)).Reachable w) : Safe max w := by
  have hboth : Accounted max (fun s => s.maxActiveTasks = max) view w ∧ InOrder w := by
    refine hrun.invariant (I := fun w => Accounted max (fun s => s.maxActiveTasks = max) view w ∧
      InOrder w) ?_ ?_
    · rintro w rfl
      exact ⟨runs_accounted (laws max) rfl rfl rfl (by omega) (.init rfl), Sublist.refl _⟩
    · rintro w e w' ⟨hacc, horder⟩ ⟨henabled, hnext⟩
      obtain ⟨w'', hnext', hacc'⟩ := hacc.step (laws max) (allows w e) henabled
      obtain rfl := ok.inj (hnext'.symm.trans hnext)
      exact ⟨hacc', inOrder_step hacc horder hnext⟩
  obtain ⟨hacc, horder⟩ := hboth
  have hactive : w.scheduler.activeTasks = w.runnableTaskQueue.length + w.taken.length :=
    hacc.active
  refine ⟨hactive, ⟨by omega, hacc.le⟩, hacc.full, fun e henabled => ?_, ?_, hacc.places, ?_⟩
  · obtain ⟨w', hnext, -⟩ := hacc.step (laws max) (allows w e) henabled
    exact ⟨w', hnext⟩
  · rw [hacc.objs]
    exact nodup_range
  · exact (sublist_append_left _ _).trans horder

/-- Two reservations for one slot; the second one waits. -/
theorem fifo_accounts_two :
    ∃ w, (monitorSystem ops (new 1)).Reachable w ∧ w.scheduler.taskReservations.length = 1 ∧
    Safe 1 w := by
  have hfirst : (monitorSystem ops (new 1)).Reachable _ :=
    .step (.init rfl) ⟨show Monitor.Enabled _ (.submit "u" 0 ⟨0, "r"⟩) from trivial, rfl⟩
  have hsecond : (monitorSystem ops (new 1)).Reachable _ :=
    hfirst.step ⟨show Monitor.Enabled _ (.submit "u" 0 ⟨0, "r"⟩) from trivial, rfl⟩
  exact ⟨_, hsecond, rfl, fifo_accounts (by decide) hsecond⟩

end FifoTaskScheduler

end CharmRuntime.Sparrow
