import CharmRuntime.Sparrow.Fifo
import CharmRuntime.Sparrow.Priority

/-!
# Sparrow.Cancellation

**Cancelling a request.** The three schedulers walk through their queues and take out the
reservations whose `requestId` is the argument (`CancelsByRef`). The comparison is `==`, that is of
objects, and the argument comes from an RPC: it is a new object, so that the walk takes out nothing,
whatever its characters are (`cancels_iff`).
-/

namespace CharmRuntime.Sparrow

open Lib List

section

variable {σ : Type}

/-- `requestId` is none of the objects in the queues. -/
def Fresh (queues : List (List TaskSpec)) (requestId : StringObject) : Prop :=
  ∀ q ∈ queues, ∀ t ∈ q, t.requestId.ref ≠ requestId.ref

/-- No reservation in the queues belongs to a request with these characters. -/
def Unnamed (queues : List (List TaskSpec)) (requestId : StringObject) : Prop :=
  ∀ q ∈ queues, ∀ t ∈ q, t.requestId.text ≠ requestId.text

/-- What the cancellation of a request is for. -/
structure CancelsRequest (ops : SchedulerOps σ) (queues : σ → List (List TaskSpec)) (w : Monitor σ)
    (requestId : StringObject) : Prop where
  /-- The reservations of the request leave their queues, and the others keep their order. -/
  kept : queues (w.after ops (.cancel requestId)).scheduler =
    (queues w.scheduler).map (List.filter fun t => t.requestId.text ≠ requestId.text)
  runnable : (w.after ops (.cancel requestId)).runnableTaskQueue = w.runnableTaskQueue
  /-- The number that is returned. -/
  returned : (ops.cancelTaskReservations w.scheduler requestId).2.length +
    (queues (w.after ops (.cancel requestId)).scheduler).flatten.length =
    (queues w.scheduler).flatten.length

/-- The walk through the queues. -/
def CancelsByRef (ops : SchedulerOps σ) (queues : σ → List (List TaskSpec)) : Prop :=
  ∀ s requestId, queues (ops.cancelTaskReservations s requestId).1 =
      (queues s).map (List.filter fun t => t.requestId.ref ≠ requestId.ref) ∧
    (ops.cancelTaskReservations s requestId).2 =
      (queues s).flatten.filter fun t => t.requestId.ref = requestId.ref

theorem map_filter_eq_self_iff {queues : List (List TaskSpec)} {p : TaskSpec → Bool} :
    queues.map (List.filter p) = queues ↔ ∀ q ∈ queues, ∀ t ∈ q, p t = true := by
  conv_lhs => rhs; rw [← map_id queues]
  rw [map_inj_left]
  exact forall₂_congr fun q _ => filter_eq_self

variable {ops : SchedulerOps σ} {queues : σ → List (List TaskSpec)} {requestId : StringObject}

theorem CancelsByRef.of_fresh (h : CancelsByRef ops queues) {s : σ}
    (hfresh : Fresh (queues s) requestId) :
    queues (ops.cancelTaskReservations s requestId).1 = queues s ∧
      (ops.cancelTaskReservations s requestId).2 = [] := by
  obtain ⟨hqueues, hcancelled⟩ := h s requestId
  constructor
  · rw [hqueues, map_filter_eq_self_iff]
    exact fun q hq t ht => decide_eq_true (hfresh q hq t ht)
  · rw [hcancelled, filter_eq_nil_iff]
    intro t ht
    obtain ⟨q, hq, ht⟩ := mem_flatten.mp ht
    simpa using hfresh q hq t ht

theorem cancelsRequest_iff (h : CancelsByRef ops queues)
    {w : Monitor σ} (hfresh : Fresh (queues w.scheduler) requestId) :
    CancelsRequest ops queues w requestId ↔ Unnamed (queues w.scheduler) requestId := by
  obtain ⟨hqueues, hcancelled⟩ := h.of_fresh hfresh
  have hafter :
    (w.after ops (.cancel requestId)).scheduler =
    (ops.cancelTaskReservations w.scheduler requestId).1 := rfl
  have hself :
    (queues w.scheduler).map (filter fun t => t.requestId.text ≠ requestId.text) =
    queues w.scheduler ↔
      Unnamed (queues w.scheduler) requestId := by
    rw [map_filter_eq_self_iff]
    simp only [decide_eq_true_iff, Unnamed]
  constructor
  · intro hcancels
    have heq := hcancels.kept
    rw [hafter, hqueues] at heq
    exact hself.mp heq.symm
  · intro hunnamed
    refine ⟨?_, rfl, ?_⟩
    · rw [hafter, hqueues, hself.mpr hunnamed]
    · rw [hafter, hqueues, hcancelled, length_nil, zero_add]

end

/-! ### The three schedulers -/

def FifoTaskScheduler.queues (s : FifoTaskScheduler) : List (List TaskSpec) := [s.taskReservations]

def RoundRobinTaskScheduler.queues (s : RoundRobinTaskScheduler) : List (List TaskSpec) :=
  s.userQueues.map (·.2)

def PriorityTaskScheduler.queues (s : PriorityTaskScheduler) : List (List TaskSpec) :=
  s.priorityQueues.map (·.2)

theorem FifoTaskScheduler.cancelsByRef : CancelsByRef ops queues := by
  intro s _
  refine ⟨rfl, ?_⟩
  rw [queues, flatten_singleton]
  rfl

theorem RoundRobinTaskScheduler.cancelsByRef : CancelsByRef ops queues := by
  intro s _
  refine ⟨?_, ?_⟩
  · simp only [queues, ops, cancelTaskReservations, map_map]
    rfl
  · rfl

theorem PriorityTaskScheduler.cancelsByRef : CancelsByRef ops queues := by
  intro s _
  refine ⟨?_, ?_⟩
  · simp only [queues, ops, cancelTaskReservations, map_map]
    rfl
  · rfl

/-- A cancellation that comes over an RPC does what it is for if there is nothing to do. -/
theorem cancels_iff (requestId : StringObject) :
    (∀ w : Monitor FifoTaskScheduler, Fresh w.scheduler.queues requestId →
      (CancelsRequest FifoTaskScheduler.ops FifoTaskScheduler.queues w requestId ↔
        Unnamed w.scheduler.queues requestId)) ∧
    (∀ w : Monitor RoundRobinTaskScheduler, Fresh w.scheduler.queues requestId →
      (CancelsRequest RoundRobinTaskScheduler.ops RoundRobinTaskScheduler.queues w requestId ↔
        Unnamed w.scheduler.queues requestId)) ∧
    (∀ w : Monitor PriorityTaskScheduler, Fresh w.scheduler.queues requestId →
      (CancelsRequest PriorityTaskScheduler.ops PriorityTaskScheduler.queues w requestId ↔
        Unnamed w.scheduler.queues requestId)) :=
  ⟨fun _ => cancelsRequest_iff FifoTaskScheduler.cancelsByRef,
    fun _ => cancelsRequest_iff RoundRobinTaskScheduler.cancelsByRef,
    fun _ => cancelsRequest_iff PriorityTaskScheduler.cancelsByRef⟩

/-- The request `s` has a reservation in the queue, the request `other` has none. -/
theorem cancels_other :
    (∃ w, (monitorSystem FifoTaskScheduler.ops (.new 1)).Reachable w ∧
    w.scheduler.queues.flatten.length = 1 ∧
      CancelsRequest FifoTaskScheduler.ops FifoTaskScheduler.queues w ⟨2, "other"⟩) ∧
    (∃ w, (monitorSystem RoundRobinTaskScheduler.ops (.new 1)).Reachable w ∧
    w.scheduler.queues.flatten.length = 1 ∧
      CancelsRequest RoundRobinTaskScheduler.ops RoundRobinTaskScheduler.queues w ⟨2, "other"⟩) ∧
    (∃ w, (monitorSystem PriorityTaskScheduler.ops (.new 1)).Reachable w ∧
    w.scheduler.queues.flatten.length = 1 ∧
      CancelsRequest PriorityTaskScheduler.ops PriorityTaskScheduler.queues w ⟨2, "other"⟩) := by
  obtain ⟨hfifo, hround, hpriority⟩ := cancels_iff ⟨2, "other"⟩
  refine ⟨⟨twoReservations FifoTaskScheduler.ops (.new 1), ?_, by decide +kernel, ?_⟩,
    ⟨twoReservations RoundRobinTaskScheduler.ops (.new 1), ?_, by decide +kernel, ?_⟩,
    ⟨twoReservations PriorityTaskScheduler.ops (.new 1), ?_, by decide +kernel, ?_⟩⟩
  · exact twoReservations_runs (fun _ _ _ _ => trivial) (fun _ => trivial) (by decide +kernel)
      (by decide +kernel)
      (by decide +kernel)
  · exact (hfifo _ (show ∀ q ∈ _, _ by decide +kernel)).mpr (show ∀ q ∈ _, _ by decide +kernel)
  · exact twoReservations_runs (fun _ _ _ _ => trivial) (fun _ => trivial) (by decide +kernel)
      (by decide +kernel)
      (by decide +kernel)
  · exact (hround _ (show ∀ q ∈ _, _ by decide +kernel)).mpr (show ∀ q ∈ _, _ by decide +kernel)
  · exact twoReservations_runs (fun _ _ _ _ => trivial) (fun _ => trivial) (by decide +kernel)
      (by decide +kernel)
      (by decide +kernel)
  · exact (hpriority _ (show ∀ q ∈ _, _ by decide +kernel)).mpr (show ∀ q ∈ _, _ by decide +kernel)

/-- The request `s` is cancelled by a new string with the same character, and its reservation stays.
-/
theorem not_cancelsRequest :
    ∃ w, (monitorSystem FifoTaskScheduler.ops (.new 1)).Reachable w ∧
    Fresh w.scheduler.queues ⟨2, "s"⟩ ∧
      ¬ CancelsRequest FifoTaskScheduler.ops FifoTaskScheduler.queues w ⟨2, "s"⟩ := by
  refine ⟨twoReservations FifoTaskScheduler.ops (.new 1), ?_, show ∀ q ∈ _, _ by decide +kernel,
    fun h => ?_⟩
  · exact twoReservations_runs (fun _ _ _ _ => trivial) (fun _ => trivial) (by decide +kernel)
      (by decide +kernel)
      (by decide +kernel)
  · exact absurd h.kept (by decide +kernel)

end CharmRuntime.Sparrow
