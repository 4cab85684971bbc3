import CharmRuntime.Lib.Transition
import CharmRuntime.Lib.InFlight
import CharmRuntime.Lib.Outcome

/-!
# Sparrow.TaskScheduler

The node monitor's side of Sparrow: `TaskScheduler` and what is around it. A scheduler has
slots for tasks. Reservations are submitted by schedulers elsewhere; one that gets a slot is put
into `runnableTaskQueue`, where `TaskLauncherService` takes it, and its slot is answered for once:
its task finishes, or there is no task for it.

`SchedulerOps` are the methods that the three task schedulers implement, and **`SlotLaws`** is
what they have in common. The accounting of slots follows from the laws alone (`runs_accounted`).

Java compares request ids with `==`, so that a string is modelled with its identity. Numbers of
reservations are unbounded: there are at most as many as objects fit into the heap.
-/

namespace CharmRuntime.Sparrow

open Lib List Option

/-- A `String` object: `==` compares `ref`. -/
structure StringObject where
  ref : Nat
  text : String
deriving DecidableEq, Repr

/-- A `TaskSpec` object; `obj` is its identity. -/
structure TaskSpec where
  obj : Nat
  user : String
  priority : Int
  requestId : StringObject
  previousRequestId : String
  previousTaskId : String
deriving DecidableEq, Repr

inductive SchedulerFault
  /-- "activeTasks should be less than maxActiveTasks only when no outstanding reservations." -/
  | outstandingReservations
  /-- "numQueuedReservations=... but no queued tasks found." -/
  | noQueuedTasks
  /-- A queue is missing in the map. -/
  | nullPointer
deriving DecidableEq, Repr

/-- What a method leaves, the reservation it makes runnable, and the number it returns. -/
structure Handled (σ : Type) where
  state : σ
  runnable : Option TaskSpec
  result : Int := 0

/-- The methods that a `TaskScheduler` implements. `cancelTaskReservations` yields the
reservations that it cancels; the source returns their number. -/
structure SchedulerOps (σ : Type) where
  handleSubmitTaskReservation : σ → TaskSpec → Except SchedulerFault (Handled σ)
  cancelTaskReservations : σ → StringObject → σ × List TaskSpec
  handleTaskFinished : σ → String → String → Except SchedulerFault (Handled σ)
  handleNoTaskForReservation : σ → TaskSpec → Except SchedulerFault (Handled σ)

/-- How a reservation's slot is answered for. -/
inductive Answer
  | finished (requestId taskId : String)
  | noTask

/-- The handler of an answer for the reservation `t`. -/
def SchedulerOps.answer {σ : Type} (ops : SchedulerOps σ) (s : σ) (t : TaskSpec) :
    Answer → Except SchedulerFault (Handled σ)
  | .finished requestId taskId => ops.handleTaskFinished s requestId taskId
  | .noTask => ops.handleNoTaskForReservation s t

/-! ### The node monitor -/

/-- The scheduler, the runnable reservations, those that `getNextTask` returned and that are not
answered for, and a record of the others. -/
structure Monitor (σ : Type) where
  scheduler : σ
  runnableTaskQueue : List TaskSpec
  taken : List TaskSpec
  submitted : List Nat
  launched : List Nat
  cancelled : List Nat
  answered : List Nat

inductive MonitorEvent
  | submit (user : String) (priority : Int) (requestId : StringObject)
  | cancel (requestId : StringObject)
  | getNextTask
  /-- The answer for member `k` of `taken`. -/
  | answer (k : Nat) (a : Answer)

namespace Monitor

variable {σ : Type}

/-- `new TaskSpec(request, appBackendAddress)`. -/
def newTask (w : Monitor σ) (user : String) (priority : Int) (requestId : StringObject) :
    TaskSpec where
  obj := w.submitted.length
  user := user
  priority := priority
  requestId := requestId
  previousRequestId := ""
  previousTaskId := ""

/-- `getNextTask` waits until there is a task. -/
def Enabled (w : Monitor σ) : MonitorEvent → Prop
  | .getNextTask => w.runnableTaskQueue ≠ []
  | .answer k _ => k < w.taken.length
  | _ => True

/-- `makeTaskRunnable`. -/
def handled (w : Monitor σ) (r : Handled σ) : Monitor σ :=
  { w with
    scheduler := r.state
    runnableTaskQueue := w.runnableTaskQueue ++ r.runnable.toList
    launched := w.launched ++ r.runnable.toList.map (·.obj) }

def next (ops : SchedulerOps σ) (w : Monitor σ) : MonitorEvent → Except SchedulerFault (Monitor σ)
  | .submit user priority requestId => do
      let r ← ops.handleSubmitTaskReservation w.scheduler (w.newTask user priority requestId)
      .ok { w.handled r with submitted := w.submitted ++ [w.submitted.length] }
  | .cancel requestId =>
    let (s, removed) := ops.cancelTaskReservations w.scheduler requestId
    .ok { w with scheduler := s, cancelled := w.cancelled ++ removed.map (·.obj) }
  | .getNextTask =>
    match w.runnableTaskQueue with
    | [] => .ok w
    | t :: rest => .ok { w with runnableTaskQueue := rest, taken := w.taken ++ [t] }
  | .answer k a =>
    match w.taken[k]? with
    | none => .ok w
    | some t => do
        let r ← ops.answer w.scheduler t a
        .ok { w.handled r with taken := w.taken.eraseIdx k, answered := w.answered ++ [t.obj] }

/-- Before any call. -/
def fresh (s : σ) : Monitor σ where
  scheduler := s
  runnableTaskQueue := []
  taken := []
  submitted := []
  launched := []
  cancelled := []
  answered := []

end Monitor

/-- The runs of a node monitor whose scheduler begins in state `s`. -/
def monitorSystem {σ : Type} (ops : SchedulerOps σ) (s : σ) :
    Transition (Monitor σ) MonitorEvent where
  init w := w = Monitor.fresh s
  step w e w' := w.Enabled e ∧ w.next ops e = .ok w'

/-- The state behind a call. -/
def Monitor.after {σ : Type} (ops : SchedulerOps σ) (w : Monitor σ) (e : MonitorEvent) :
    Monitor σ :=
  match w.next ops e with
  | .ok w' => w'
  | .error _ => w

theorem runsWith_after {σ : Type} {ops : SchedulerOps σ} {s : σ}
    {ok : Monitor σ → MonitorEvent → Prop}
    {w : Monitor σ} {e : MonitorEvent} (h : (monitorSystem ops s).RunsWith ok w) (hok : ok w e)
    (henabled : w.Enabled e) (hreturns : (w.next ops e).isOk = true) :
    (monitorSystem ops s).RunsWith ok (w.after ops e) := by
  refine .step h hok ⟨henabled, ?_⟩
  rw [Monitor.after]
  cases hnext : w.next ops e with
  | ok w' => rfl
  | error f =>
    rw [hnext] at hreturns
    cases hreturns

/-! ### What the schedulers have in common -/

section Laws

variable {σ : Type}

/-- How the queues and the slots of a scheduler are read. `known` are the users it has heard of,
and `allowed` says which cancellations are considered. -/
structure SlotView (σ : Type) where
  queued : σ → List TaskSpec
  active : σ → Int
  known : σ → String → Prop
  allowed : σ → StringObject → Prop

/-- A reservation is launched on a free slot, and queued if there is none. An answer passes the
slot to a queued reservation, or frees it if none is left. -/
structure SlotLaws (ops : SchedulerOps σ) (max : Int) (Inv : σ → Prop) (v : SlotView σ) : Prop where
  queued_known : ∀ s, Inv s → ∀ t ∈ v.queued s, v.known s t.user
  submit : ∀ s t, Inv s → v.active s ≤ max → (v.active s < max → v.queued s = []) →
    ∃ r, ops.handleSubmitTaskReservation s t = .ok r ∧ Inv r.state ∧
      (∀ u, v.known s u → v.known r.state u) ∧ v.known r.state t.user ∧
      ((v.active s < max ∧ r.runnable = some t ∧ (v.queued r.state).Perm (v.queued s) ∧
          v.active r.state = v.active s + 1) ∨
        (v.active s = max ∧ r.runnable = none ∧ (v.queued r.state).Perm (t :: v.queued s) ∧
          v.active r.state = v.active s))
  cancel : ∀ s id, Inv s → v.allowed s id →
    Inv (ops.cancelTaskReservations s id).1 ∧
      (∀ u, v.known s u → v.known (ops.cancelTaskReservations s id).1 u) ∧
      (v.queued s).Perm
        ((ops.cancelTaskReservations s id).2 ++ v.queued (ops.cancelTaskReservations s id).1) ∧
      v.active (ops.cancelTaskReservations s id).1 = v.active s
  answer : ∀ s t a, Inv s → v.known s t.user →
    ∃ r, ops.answer s t a = .ok r ∧ Inv r.state ∧ (∀ u, v.known s u → v.known r.state u) ∧
      ((v.queued s = [] ∧ r.runnable = none ∧ v.queued r.state = [] ∧
      v.active r.state = v.active s - 1) ∨
        (∃ u u', r.runnable = some u' ∧ u'.obj = u.obj ∧ u'.user = u.user ∧
          (v.queued s).Perm (u :: v.queued r.state) ∧ v.active r.state = v.active s))

/-- The slots are accounted for, and every reservation is in one place. -/
structure Accounted (max : Int) (Inv : σ → Prop) (v : SlotView σ) (w : Monitor σ) : Prop where
  inv : Inv w.scheduler
  known : ∀ t ∈ w.runnableTaskQueue ++ w.taken, v.known w.scheduler t.user
  active : v.active w.scheduler = w.runnableTaskQueue.length + w.taken.length
  le : v.active w.scheduler ≤ max
  full : v.active w.scheduler < max → v.queued w.scheduler = []
  objs : w.submitted = List.range w.submitted.length
  places : w.submitted.Perm ((v.queued w.scheduler).map (·.obj) ++ w.cancelled ++
    (w.runnableTaskQueue.map (·.obj) ++ w.taken.map (·.obj)) ++ w.answered)

/-- Only cancellations that are considered. -/
def SlotView.Allows (v : SlotView σ) (w : Monitor σ) : MonitorEvent → Prop
  | .cancel requestId => v.allowed w.scheduler requestId
  | _ => True

namespace Accounted

variable {ops : SchedulerOps σ} {max : Int} {Inv : σ → Prop} {v : SlotView σ} {w : Monitor σ}

theorem submit (h : Accounted max Inv v w) (laws : SlotLaws ops max Inv v) (user : String)
    (priority : Int)
    (requestId : StringObject) :
    ∃ w', w.next ops (.submit user priority requestId) = .ok w' ∧ Accounted max Inv v w' := by
  obtain ⟨r, hrun, hinv, hknown, hnew, hcase⟩ :=
    laws.submit w.scheduler (w.newTask user priority requestId) h.inv h.le h.full
  refine ⟨_, bind_eq_ok.mpr ⟨r, hrun, rfl⟩, ?_⟩
  have hobjs :
    w.submitted ++ [w.submitted.length] = range (w.submitted ++ [w.submitted.length]).length := by
    rw [length_append, length_singleton, range_succ, ← h.objs]
  have hplaces := fun x => h.places.count_eq x
  -- it runs at once where a slot is free, and waits where none is
  obtain ⟨hfree, hrunnable, hqueued, hactive⟩ | ⟨hfull, hrunnable, hqueued, hactive⟩ := hcase
  · refine ⟨hinv, ?_, ?_, ?_, ?_, hobjs, perm_iff_count.mpr fun x => ?_⟩
    · intro t ht
      simp only [Monitor.handled, hrunnable, toList_some, mem_append, mem_singleton] at ht
      obtain (ht | rfl) | ht := ht
      · exact hknown _ (h.known t (mem_append_left _ ht))
      · exact hnew
      · exact hknown _ (h.known t (mem_append_right _ ht))
    · have hsum := h.active
      simp only [Monitor.handled, hrunnable, toList_some, length_append, length_singleton]
      omega
    · simp only [Monitor.handled]
      omega
    · intro _
      have hnil := h.full hfree
      rw [hnil] at hqueued
      exact hqueued.eq_nil
    · have hx := hplaces x
      have hq := (hqueued.map (·.obj)).count_eq x
      simp only [Monitor.handled, hrunnable, toList_some, map_append, map_cons, map_nil,
        count_append] at hx ⊢
      have hobj : (w.newTask user priority requestId).obj = w.submitted.length := rfl
      rw [hobj]
      omega
  · refine ⟨hinv, ?_, ?_, ?_, ?_, hobjs, perm_iff_count.mpr fun x => ?_⟩
    · intro t ht
      simp only [Monitor.handled, hrunnable, toList_none, append_nil] at ht
      exact hknown _ (h.known t ht)
    · have hsum := h.active
      simp only [Monitor.handled, hrunnable, toList_none, append_nil]
      omega
    · simp only [Monitor.handled]
      omega
    · intro hlt
      simp only [Monitor.handled] at hlt
      omega
    · have hx := hplaces x
      have hq := (hqueued.map (·.obj)).count_eq x
      have hobj : (w.newTask user priority requestId).obj = w.submitted.length := rfl
      rw [map_cons, hobj, ← singleton_append, count_append] at hq
      simp only [Monitor.handled, hrunnable, toList_none, append_nil, count_append] at hx ⊢
      omega

theorem cancel (h : Accounted max Inv v w) (laws : SlotLaws ops max Inv v)
    {requestId : StringObject}
    (hallowed : v.allowed w.scheduler requestId) :
    ∃ w', w.next ops (.cancel requestId) = .ok w' ∧ Accounted max Inv v w' := by
  obtain ⟨hinv, hknown, hqueued, hactive⟩ := laws.cancel w.scheduler requestId h.inv hallowed
  refine ⟨{ w with
      scheduler := (ops.cancelTaskReservations w.scheduler requestId).1
      cancelled :=
        w.cancelled ++ (ops.cancelTaskReservations w.scheduler requestId).2.map (·.obj) },
    rfl, hinv, ?_, ?_, ?_, ?_, h.objs, perm_iff_count.mpr fun x => ?_⟩
  · exact fun t ht => hknown _ (h.known t ht)
  · exact hactive.trans h.active
  · rw [hactive]
    exact h.le
  · intro hlt
    have hnil := h.full (hactive ▸ hlt)
    rw [hnil] at hqueued
    exact (append_eq_nil_iff.mp hqueued.symm.eq_nil).2
  · have hx := h.places.count_eq x
    have hq := (hqueued.map (·.obj)).count_eq x
    simp only [map_append, count_append] at hx hq ⊢
    omega

theorem getNextTask (h : Accounted max Inv v w) (henabled : w.Enabled .getNextTask) :
    ∃ w', w.next ops .getNextTask = .ok w' ∧ Accounted max Inv v w' := by
  obtain ⟨t, rest, hqueue⟩ := exists_cons_of_ne_nil henabled
  refine ⟨{ w with runnableTaskQueue := rest, taken := w.taken ++ [t] }, ?_, h.inv, ?_, ?_, h.le,
    h.full, h.objs, perm_iff_count.mpr fun x => ?_⟩
  · simp only [Monitor.next, hqueue]
  · intro u hu
    refine h.known u ?_
    rw [hqueue]
    simp only [mem_append, mem_cons, not_mem_nil, or_false] at hu ⊢
    obtain hu | hu | hu := hu
    · exact .inl (.inr hu)
    · exact .inr hu
    · exact .inl (.inl hu)
  · have hsum := h.active
    rw [hqueue, length_cons] at hsum
    simp only [length_append, length_singleton]
    omega
  · have hx := h.places.count_eq x
    rw [hqueue] at hx
    simp only [map_append, map_cons, map_nil, count_append, count_cons, count_nil] at hx ⊢
    omega

theorem answer (h : Accounted max Inv v w) (laws : SlotLaws ops max Inv v) {k : Nat}
    (hk : k < w.taken.length)
    (a : Answer) : ∃ w', w.next ops (.answer k a) = .ok w' ∧ Accounted max Inv v w' := by
  have hget : w.taken[k]? = some w.taken[k] := getElem?_eq_getElem hk
  generalize w.taken[k] = t at hget
  have hperm := perm_eraseIdx hget
  have htaken : ∀ u ∈ w.taken.eraseIdx k, u ∈ w.taken :=
    fun u hu => hperm.symm.subset (mem_cons_of_mem _ hu)
  have ht : t ∈ w.taken := mem_of_getElem? hget
  obtain ⟨r, hrun, hinv, hknown, hcase⟩ :=
    laws.answer w.scheduler t a h.inv (h.known t (mem_append_right _ ht))
  have hlength := hperm.length_eq
  rw [length_cons] at hlength
  have hsum := h.active
  refine ⟨{ w.handled r with taken := w.taken.eraseIdx k, answered := w.answered ++ [t.obj] }, ?_,
    ?_⟩
  · rw [Monitor.next, hget]
    exact bind_eq_ok.mpr ⟨r, hrun, rfl⟩
  obtain ⟨hnil, hrunnable, hnil', hactive⟩ | ⟨u, u', hrunnable, hobj, huser, hqueued, hactive⟩ :=
    hcase
  · refine ⟨hinv, ?_, ?_, ?_, fun _ => hnil', h.objs, perm_iff_count.mpr fun x => ?_⟩
    · intro y hy
      simp only [Monitor.handled, hrunnable, toList_none, append_nil, mem_append] at hy
      refine hknown _ (h.known y (mem_append.mpr ?_))
      exact hy.imp id (htaken y)
    · simp only [Monitor.handled, hrunnable, toList_none, append_nil]
      omega
    · have hle := h.le
      simp only [Monitor.handled]
      omega
    · have hx := h.places.count_eq x
      have ht' := (hperm.map (·.obj)).count_eq x
      simp only [Monitor.handled, hrunnable, toList_none, append_nil, hnil, hnil', map_cons,
        count_append, count_cons, count_nil] at hx ht' ⊢
      omega
  · refine ⟨hinv, ?_, ?_, ?_, ?_, h.objs, perm_iff_count.mpr fun x => ?_⟩
    · intro y hy
      simp only [Monitor.handled, hrunnable, toList_some, mem_append, mem_singleton] at hy
      obtain (hy | rfl) | hy := hy
      · exact hknown _ (h.known y (mem_append_left _ hy))
      · rw [huser]
        exact hknown _ (laws.queued_known _ h.inv u (hqueued.symm.subset mem_cons_self))
      · exact hknown _ (h.known y (mem_append_right _ (htaken y hy)))
    · simp only [Monitor.handled, hrunnable, toList_some, length_append, length_singleton]
      omega
    · simp only [Monitor.handled]
      rw [hactive]
      exact h.le
    · intro hlt
      have hnil := h.full (hactive ▸ hlt)
      rw [hnil] at hqueued
      exact absurd hqueued.symm.eq_nil (cons_ne_nil _ _)
    · have hx := h.places.count_eq x
      have ht' := (hperm.map (·.obj)).count_eq x
      have hq := (hqueued.map (·.obj)).count_eq x
      simp only [Monitor.handled, hrunnable, toList_some, map_append, map_cons, map_nil, hobj,
        count_append, count_cons, count_nil] at hx ht' hq ⊢
      omega

theorem step (h : Accounted max Inv v w) (laws : SlotLaws ops max Inv v) {e : MonitorEvent}
    (hallows : v.Allows w e) (henabled : w.Enabled e) :
    ∃ w', w.next ops e = .ok w' ∧ Accounted max Inv v w' := by
  cases e with
  | submit user priority requestId => exact h.submit laws user priority requestId
  | cancel requestId => exact h.cancel laws hallows
  | getNextTask => exact h.getNextTask henabled
  | answer k a => exact h.answer laws henabled a

end Accounted

theorem runs_accounted {ops : SchedulerOps σ} {max : Int} {Inv : σ → Prop} {v : SlotView σ} {s : σ}
    (laws : SlotLaws ops max Inv v) (hinv : Inv s) (hqueued : v.queued s = [])
    (hactive : v.active s = 0)
    (hmax : 0 ≤ max) {w : Monitor σ} (hrun : (monitorSystem ops s).RunsWith v.Allows w) :
    Accounted max Inv v w := by
  refine hrun.invariant ?_ ?_
  · rintro w rfl
    refine ⟨hinv, fun t ht => absurd ht not_mem_nil, ?_, ?_, fun _ => hqueued, rfl, ?_⟩
    · exact hactive
    · simp only [Monitor.fresh]
      omega
    · simp only [Monitor.fresh, hqueued]
      exact Perm.refl _
  · rintro w e w' h hallows ⟨henabled, hnext⟩
    obtain ⟨w'', hnext', h'⟩ := h.step laws hallows henabled
    obtain rfl := Except.ok.inj (hnext'.symm.trans hnext)
    exact h'

end Laws

end CharmRuntime.Sparrow
