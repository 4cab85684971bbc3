import CharmRuntime.Sparrow.TaskScheduler
import CharmRuntime.Lib.OrderedMap
import Mathlib.Data.List.GetD
import Mathlib.Data.String.Basic

/-!
# Sparrow.RoundRobin

`RoundRobinTaskScheduler`: a queue for each user, and free slots go round the users. The map
`userQueues` is kept in key order here; the source never depends on its order.
-/

namespace CharmRuntime.Sparrow

open Lib List

structure RoundRobinTaskScheduler where
  userQueues : OrderedMap String (List TaskSpec)
  numQueuedReservations : Int
  maxActiveTasks : Int
  activeTasks : Int
  users : List String
  currentIndex : Nat

namespace RoundRobinTaskScheduler

def new (maxActiveTasks : Int) : RoundRobinTaskScheduler where
  userQueues := []
  numQueuedReservations := 0
  maxActiveTasks := maxActiveTasks
  activeTasks := 0
  users := []
  currentIndex := 0

/-- A user that submits for the first time. -/
def addUser (s : RoundRobinTaskScheduler) (user : String) : RoundRobinTaskScheduler :=
  if OrderedMap.find user s.userQueues = none then
    { s with
      users := s.users ++ [user]
      userQueues := OrderedMap.upsert user (fun q => q.getD []) s.userQueues }
  else s

def handleSubmitTaskReservation (s : RoundRobinTaskScheduler) (taskReservation : TaskSpec) :
    Except SchedulerFault (Handled RoundRobinTaskScheduler) :=
  let user := taskReservation.user
  let s := s.addUser user
  if s.activeTasks < s.maxActiveTasks then
    if 0 < s.numQueuedReservations then .error .outstandingReservations
    else
      .ok { state := { s with
              currentIndex := (s.users.idxOf user + 1) % s.users.length
              activeTasks := s.activeTasks + 1 }
            runnable := some taskReservation }
  else
    .ok { state := { s with
            userQueues :=
              OrderedMap.upsert user (fun q => q.getD [] ++ [taskReservation]) s.userQueues
            numQueuedReservations := s.numQueuedReservations + 1 }
          runnable := none
          result := s.numQueuedReservations + 1 }

/-- `numQueuedReservations` stays as it is. -/
def cancelTaskReservations (s : RoundRobinTaskScheduler) (requestId : StringObject) :
    RoundRobinTaskScheduler × List TaskSpec :=
  ({ s with userQueues := s.userQueues.map fun e =>
      (e.1, e.2.filter fun t => t.requestId.ref ≠ requestId.ref) },
    (OrderedMap.contents s.userQueues).filter fun t => t.requestId.ref = requestId.ref)

def attemptTaskLaunchForUser (s : RoundRobinTaskScheduler)
    (lastExecutedTaskRequestId lastExecutedTaskId user : String) :
    Except SchedulerFault (Option (RoundRobinTaskScheduler × TaskSpec)) :=
  match OrderedMap.find user s.userQueues with
  | none => .error .nullPointer
  | some [] => .ok none
  | some (nextTask :: considering) =>
    .ok (some
      ({ s with
        userQueues := OrderedMap.upsert user (fun _ => considering) s.userQueues
        numQueuedReservations := s.numQueuedReservations - 1 },
      { nextTask with
        previousRequestId := lastExecutedTaskRequestId, previousTaskId := lastExecutedTaskId }))

/-- The loop of `attemptTaskLaunch` over its first argument many offsets from `offset` on. -/
def launchLoop (s : RoundRobinTaskScheduler) (lastExecutedRequestId lastExecutedTaskId : String) :
    Nat → Nat → Except SchedulerFault (Handled RoundRobinTaskScheduler)
  | 0, _ => .error .noQueuedTasks
  | n + 1, offset => do
      let user := s.users.getD ((s.currentIndex + offset) % s.users.length) ""
      match ← s.attemptTaskLaunchForUser lastExecutedRequestId lastExecutedTaskId user with
      | some (s', task) =>
        .ok { state := { s' with currentIndex := (s.currentIndex + offset + 1) % s.users.length }
              runnable := some task }
      | none => s.launchLoop lastExecutedRequestId lastExecutedTaskId n (offset + 1)

def attemptTaskLaunch (s : RoundRobinTaskScheduler)
    (lastExecutedRequestId lastExecutedTaskId : String) :
    Except SchedulerFault (Handled RoundRobinTaskScheduler) :=
  if s.numQueuedReservations ≠ 0 then
    s.launchLoop lastExecutedRequestId lastExecutedTaskId s.users.length 0
  else .ok { state := { s with activeTasks := s.activeTasks - 1 }, runnable := none }

def handleTaskFinished (s : RoundRobinTaskScheduler) (requestId taskId : String) :
    Except SchedulerFault (Handled RoundRobinTaskScheduler) :=
  s.attemptTaskLaunch requestId taskId

def handleNoTaskForReservation (s : RoundRobinTaskScheduler) (taskSpec : TaskSpec) :
    Except SchedulerFault (Handled RoundRobinTaskScheduler) := do
  match ← s.attemptTaskLaunchForUser taskSpec.previousRequestId taskSpec.previousTaskId
    taskSpec.user with
  | some (s', task) => .ok { state := s', runnable := some task }
  | none => s.attemptTaskLaunch taskSpec.previousRequestId taskSpec.previousTaskId

def ops : SchedulerOps RoundRobinTaskScheduler where
  handleSubmitTaskReservation := handleSubmitTaskReservation
  cancelTaskReservations := cancelTaskReservations
  handleTaskFinished := handleTaskFinished
  handleNoTaskForReservation := handleNoTaskForReservation

/-! ### Laws -/

def queued (s : RoundRobinTaskScheduler) : List TaskSpec := OrderedMap.contents s.userQueues

/-- The counter is right, and the users are the keys of the map. -/
structure Counted (max : Int) (s : RoundRobinTaskScheduler) : Prop where
  max_eq : s.maxActiveTasks = max
  ascending : OrderedMap.Ascending s.userQueues
  users : ∀ u, u ∈ s.users ↔ OrderedMap.find u s.userQueues ≠ none
  owner : ∀ e ∈ s.userQueues, ∀ t ∈ e.2, t.user = e.1
  count : s.numQueuedReservations = s.queued.length

/-- A cancellation that finds none of its reservations in the queues. -/
def view : SlotView RoundRobinTaskScheduler where
  queued := queued
  active s := s.activeTasks
  known s u := u ∈ s.users
  allowed s id := ∀ t ∈ s.queued, t.requestId.ref ≠ id.ref

variable {max : Int} {s : RoundRobinTaskScheduler}

variable {user : String} {f : Option (List TaskSpec) → List TaskSpec} {t : TaskSpec}

theorem find_isSome_upsert {u : String} (h : Counted max s) :
    OrderedMap.find u (OrderedMap.upsert user f s.userQueues) ≠ none ↔ u = user ∨ u ∈ s.users := by
  rw [OrderedMap.find_upsert h.ascending, h.users]
  by_cases hu : u = user
  · simp [hu]
  · simp [hu]

theorem Counted.upsert (h : Counted max s) (hu : user ∈ s.users) {n : Int}
    (howner : ∀ t ∈ f (OrderedMap.find user s.userQueues), t.user = user)
    (hcount : n = (OrderedMap.contents (OrderedMap.upsert user f s.userQueues)).length) :
    Counted max { s with userQueues := OrderedMap.upsert user f s.userQueues,
                         numQueuedReservations := n } where
  max_eq := h.max_eq
  ascending := h.ascending.upsert
  users u := by
    rw [find_isSome_upsert h]
    exact ⟨.inr, fun hor => hor.elim (fun heq => heq ▸ hu) id⟩
  owner e he t ht := by
    obtain rfl | ⟨he, -⟩ := (OrderedMap.mem_upsert h.ascending).mp he
    · exact howner t ht
    · exact h.owner e he t ht
  count := hcount

theorem Counted.push (h : Counted max s) (ht : t.user ∈ s.users) : Counted max { s with
      userQueues := OrderedMap.upsert t.user (fun q => q.getD [] ++ [t]) s.userQueues
      numQueuedReservations := s.numQueuedReservations + 1 } := by
  have hpush :
    (OrderedMap.contents (OrderedMap.upsert t.user (fun q => q.getD [] ++ [t]) s.userQueues)).Perm
      (t :: s.queued) := OrderedMap.contents_push
  refine h.upsert ht (fun u hu => ?_) ?_
  · obtain hu | hu := mem_append.mp hu
    · cases hfind : OrderedMap.find t.user s.userQueues with
      | none =>
        rw [hfind] at hu
        exact absurd hu not_mem_nil
      | some q =>
        rw [hfind] at hu
        exact h.owner _ (OrderedMap.mem_of_find hfind) u hu
    · rw [mem_singleton.mp hu]
  · rw [hpush.length_eq, h.count]
    rfl

theorem addUser_spec (h : Counted max s) (user : String) :
    Counted max (s.addUser user) ∧ user ∈ (s.addUser user).users ∧
    (∀ u ∈ s.users, u ∈ (s.addUser user).users) ∧
      (s.addUser user).queued.Perm s.queued ∧ (s.addUser user).activeTasks = s.activeTasks := by
  by_cases hnone : OrderedMap.find user s.userQueues = none
  · rw [addUser, if_pos hnone]
    have hperm :
      (OrderedMap.contents (OrderedMap.upsert user (fun q => q.getD []) s.userQueues)).Perm
        s.queued :=
      OrderedMap.contents_touch
    refine ⟨⟨h.max_eq, h.ascending.upsert, fun u => ?_, fun e he t ht => ?_, ?_⟩, ?_, fun u hu =>
      ?_, hperm, rfl⟩
    · rw [find_isSome_upsert h, mem_append, mem_singleton]
      exact or_comm
    · obtain rfl | ⟨he, -⟩ := (OrderedMap.mem_upsert h.ascending).mp he
      · rw [hnone] at ht
        exact absurd ht not_mem_nil
      · exact h.owner e he t ht
    · rw [h.count]
      exact congrArg Int.ofNat hperm.length_eq.symm
    · exact mem_append_right _ (mem_singleton_self user)
    · exact mem_append_left _ hu
  · rw [addUser, if_neg hnone]
    exact ⟨h, (h.users user).mpr hnone, fun _ hu => hu, Perm.refl _, rfl⟩

/-- What `attemptTaskLaunchForUser` does for a user who is known. -/
theorem attemptTaskLaunchForUser_spec (h : Counted max s) (hu : user ∈ s.users)
    (requestId taskId : String) :
    (OrderedMap.find user s.userQueues = some [] ∧
      s.attemptTaskLaunchForUser requestId taskId user = .ok none) ∨
    ∃ s' u u', s.attemptTaskLaunchForUser requestId taskId user = .ok (some (s', u')) ∧
    Counted max s' ∧
      u'.obj = u.obj ∧ u'.user = u.user ∧ s.queued.Perm (u :: s'.queued) ∧ s'.users = s.users ∧
      s'.activeTasks = s.activeTasks := by
  obtain ⟨q, hq⟩ := Option.ne_none_iff_exists'.mp ((h.users user).mp hu)
  cases q with
  | nil =>
    left
    refine ⟨hq, ?_⟩
    simp only [attemptTaskLaunchForUser, hq]
  | cons t rest =>
    right
    have hperm : s.queued.Perm
        (t :: OrderedMap.contents (OrderedMap.upsert user (fun _ => rest) s.userQueues)) :=
      OrderedMap.contents_pop h.ascending hq
    have hlength := hperm.length_eq
    rw [length_cons] at hlength
    refine ⟨{ s with
        userQueues := OrderedMap.upsert user (fun _ => rest) s.userQueues
        numQueuedReservations := s.numQueuedReservations - 1 }, t,
      { t with previousRequestId := requestId, previousTaskId := taskId }, ?_, ?_, rfl, rfl,
      hperm, rfl, rfl⟩
    · simp only [attemptTaskLaunchForUser, hq]
    · refine h.upsert hu (fun u hmem => ?_) ?_
      · exact h.owner _ (OrderedMap.mem_of_find hq) u (mem_cons_of_mem _ hmem)
      · rw [h.count]
        omega

/-- What a launch leaves. -/
def Launched (max : Int) (s : RoundRobinTaskScheduler) (r : Handled RoundRobinTaskScheduler) :
    Prop :=
  Counted max r.state ∧ (∀ u ∈ s.users, u ∈ r.state.users) ∧
    ∃ u u', r.runnable = some u' ∧ u'.obj = u.obj ∧ u'.user = u.user ∧
    s.queued.Perm (u :: r.state.queued) ∧
      r.state.activeTasks = s.activeTasks

theorem launchLoop_spec (h : Counted max s) (requestId taskId : String) (n : Nat) :
    ∀ {offset i : Nat}, offset ≤ i → i < offset + n → s.users ≠ [] →
      OrderedMap.find (s.users.getD ((s.currentIndex + i) % s.users.length) "") s.userQueues ≠
      some [] →
      ∃ r, s.launchLoop requestId taskId n offset = .ok r ∧ Launched max s r := by
  induction n with
  | zero => intro offset i hlow hhigh; omega
  | succ n ih =>
    intro offset i hlow hhigh husers hfind
    have hpos : 0 < s.users.length := length_pos_of_ne_nil husers
    have hmem : s.users.getD ((s.currentIndex + offset) % s.users.length) "" ∈ s.users := by
      rw [getD_eq_getElem _ _ (Nat.mod_lt _ hpos)]
      exact getElem_mem _
    obtain ⟨hempty, hrun⟩ | ⟨s', u, u', hrun, hcounted, hobj, huser, hperm, hsame, hactive⟩ :=
      attemptTaskLaunchForUser_spec h hmem requestId taskId
    · have hne : i ≠ offset := by
        rintro rfl
        exact hfind hempty
      obtain ⟨r, hrest, hlaunched⟩ := ih (show offset + 1 ≤ i by omega) (by omega) husers hfind
      refine ⟨r, ?_, hlaunched⟩
      exact bind_eq_ok.mpr ⟨none, hrun, hrest⟩
    · refine ⟨{ state := { s' with currentIndex := (s.currentIndex + offset + 1) % s.users.length }
                runnable := some u' }, ?_, ?_, ?_, ?_⟩
      · exact bind_eq_ok.mpr ⟨some (s', u'), hrun, rfl⟩
      · exact ⟨hcounted.max_eq, hcounted.ascending, hcounted.users, hcounted.owner, hcounted.count⟩
      · intro u hu
        rw [hsame]
        exact hu
      · exact ⟨u, u', rfl, hobj, huser, hperm, hactive⟩

theorem exists_offset {n j : Nat} (hj : j < n) (c : Nat) : ∃ i < n, (c + i) % n = j := by
  have hc : c % n < n := Nat.mod_lt _ (by omega)
  by_cases hle : c % n ≤ j
  · refine ⟨j - c % n, by omega, ?_⟩
    rw [← Nat.mod_add_mod, Nat.add_sub_cancel' hle, Nat.mod_eq_of_lt hj]
  · refine ⟨j + n - c % n, by omega, ?_⟩
    rw [← Nat.mod_add_mod, show c % n + (j + n - c % n) = j + n by omega, Nat.add_mod_right,
      Nat.mod_eq_of_lt hj]

/-- `attemptTaskLaunch` launches a queued reservation, or frees the slot. -/
theorem attemptTaskLaunch_spec (h : Counted max s) (requestId taskId : String) :
    ∃ r, s.attemptTaskLaunch requestId taskId = .ok r ∧ (Launched max s r ∨
      (s.queued = [] ∧ Counted max r.state ∧ r.state.users = s.users ∧ r.runnable = none ∧
      r.state.queued = [] ∧
        r.state.activeTasks = s.activeTasks - 1)) := by
  have hcount := h.count
  by_cases hnum : s.numQueuedReservations = 0
  · have hnil : s.queued = [] := length_eq_zero_iff.mp (by omega)
    refine ⟨{ state := { s with activeTasks := s.activeTasks - 1 }, runnable := none }, ?_, .inr ?_⟩
    · rw [attemptTaskLaunch, if_neg (not_not.mpr hnum)]
    · exact ⟨hnil, ⟨h.max_eq, h.ascending, h.users, h.owner, h.count⟩, rfl, rfl, hnil, rfl⟩
  · have hne : s.queued ≠ [] := by
      intro hnil
      rw [hnil] at hcount
      exact hnum hcount
    obtain ⟨t, ht⟩ := exists_mem_of_ne_nil _ hne
    obtain ⟨e, he, ht⟩ := OrderedMap.mem_contents.mp ht
    have hfind : OrderedMap.find e.1 s.userQueues = some e.2 :=
      (OrderedMap.find_eq_some_iff h.ascending).mpr he
    have hmem : e.1 ∈ s.users := (h.users e.1).mpr (by rw [hfind]; exact Option.some_ne_none _)
    obtain ⟨j, hj, hget⟩ := getElem_of_mem hmem
    obtain ⟨i, hi, hij⟩ := exists_offset hj s.currentIndex
    obtain ⟨r, hrun, hlaunched⟩ :=
      launchLoop_spec h requestId taskId s.users.length (Nat.zero_le i) (by omega)
      (ne_nil_of_mem hmem) (by
        rw [hij, getD_eq_getElem _ _ hj, hget, hfind]
        intro heq
        rw [Option.some.inj heq] at ht
        exact absurd ht not_mem_nil)
    refine ⟨r, ?_, .inl hlaunched⟩
    rw [attemptTaskLaunch, if_pos hnum]
    exact hrun

theorem answer_spec (h : Counted max s) (ht : t.user ∈ s.users) (a : Answer) :
    ∃ r, ops.answer s t a = .ok r ∧ (Launched max s r ∨
      (s.queued = [] ∧ Counted max r.state ∧ r.state.users = s.users ∧ r.runnable = none ∧
      r.state.queued = [] ∧
        r.state.activeTasks = s.activeTasks - 1)) := by
  cases a with
  | finished requestId taskId => exact attemptTaskLaunch_spec h requestId taskId
  | noTask =>
    obtain ⟨-, hrun⟩ | ⟨s', u, u', hrun, hcounted, hobj, huser, hperm, hsame, hactive⟩ :=
      attemptTaskLaunchForUser_spec h ht t.previousRequestId t.previousTaskId
    · obtain ⟨r, hlaunch, hspec⟩ := attemptTaskLaunch_spec h t.previousRequestId t.previousTaskId
      exact ⟨r, bind_eq_ok.mpr ⟨none, hrun, hlaunch⟩, hspec⟩
    · refine ⟨{ state := s', runnable := some u' }, bind_eq_ok.mpr ⟨some (s', u'), hrun, rfl⟩,
        .inl ?_⟩
      exact ⟨hcounted, fun u hu => hsame ▸ hu, u, u', rfl, hobj, huser, hperm, hactive⟩

theorem cancel_none {id : StringObject} (h : ∀ t ∈ s.queued, t.requestId.ref ≠ id.ref) :
    s.cancelTaskReservations id = (s, []) := by
  have hqueues : (s.userQueues.map fun e => (e.1, e.2.filter fun t => t.requestId.ref ≠ id.ref))
      = s.userQueues := OrderedMap.map_filter_eq_self fun t ht => decide_eq_true (h t ht)
  have hremoved :
    (OrderedMap.contents s.userQueues).filter (fun t => t.requestId.ref = id.ref) = [] := by
    rw [filter_eq_nil_iff]
    intro t ht
    rw [decide_eq_true_iff]
    exact h t ht
  rw [cancelTaskReservations, hqueues, hremoved]

theorem laws (max : Int) : SlotLaws ops max (Counted max) view where
  queued_known s h t ht := by
    obtain ⟨e, he, ht⟩ := OrderedMap.mem_contents.mp ht
    have hfind := (OrderedMap.find_eq_some_iff h.ascending).mpr he
    rw [h.owner e he t ht]
    exact (h.users e.1).mpr (by rw [hfind]; exact Option.some_ne_none _)
  submit s t h hle hfull := by
    obtain ⟨hadd, hknown, husers, hperm, hactive⟩ := addUser_spec h t.user
    have hmax := hadd.max_eq
    by_cases hlt : (s.addUser t.user).activeTasks < (s.addUser t.user).maxActiveTasks
    · have hlt' : s.activeTasks < max := by omega
      have hnil : s.queued = [] := hfull hlt'
      have hnum : ¬ 0 < (s.addUser t.user).numQueuedReservations := by
        have hcount := hadd.count
        rw [hperm.length_eq, hnil, length_nil] at hcount
        omega
      refine ⟨{ state := { s.addUser t.user with
          currentIndex :=
            ((s.addUser t.user).users.idxOf t.user + 1) % (s.addUser t.user).users.length
          activeTasks := (s.addUser t.user).activeTasks + 1 }
                runnable := some t }, ?_, ?_, husers, hknown, .inl ⟨hlt', rfl, hperm, ?_⟩⟩
      · simp only [ops, handleSubmitTaskReservation, if_pos hlt, if_neg hnum]
      · exact ⟨hadd.max_eq, hadd.ascending, hadd.users, hadd.owner, hadd.count⟩
      · simp only [view]
        rw [hactive]
    · have heq : s.activeTasks = max := by
        have hle' : s.activeTasks ≤ max := hle
        omega
      have hpush : (OrderedMap.contents (OrderedMap.upsert t.user (fun q => q.getD [] ++ [t])
          (s.addUser t.user).userQueues)).Perm (t :: (s.addUser t.user).queued) :=
          OrderedMap.contents_push
      refine ⟨{ state := { s.addUser t.user with
          userQueues :=
            OrderedMap.upsert t.user (fun q => q.getD [] ++ [t]) (s.addUser t.user).userQueues
          numQueuedReservations := (s.addUser t.user).numQueuedReservations + 1 }
                runnable := none
                result := (s.addUser t.user).numQueuedReservations + 1 }, ?_, ?_, husers, hknown,
        .inr ⟨heq, rfl, hpush.trans (hperm.cons t), hactive⟩⟩
      · simp only [ops, handleSubmitTaskReservation, if_neg hlt]
      · exact hadd.push hknown
  cancel s id h hallowed := by
    have hnone : ops.cancelTaskReservations s id = (s, []) := cancel_none hallowed
    rw [hnone]
    exact ⟨h, fun _ hu => hu, Perm.refl _, rfl⟩
  answer s t a h hknown := by
    obtain ⟨r, hrun,
      ⟨hcounted, husers, hlaunch⟩ | ⟨hnil, hcounted, husers, hnone, hnil', hactive⟩⟩ :=
      answer_spec h hknown a
    · exact ⟨r, hrun, hcounted, husers, .inr hlaunch⟩
    · refine ⟨r, hrun, hcounted, fun u hu => ?_, .inl ⟨hnil, hnone, hnil', hactive⟩⟩
      simp only [view, husers]
      exact hu

end RoundRobinTaskScheduler

end CharmRuntime.Sparrow
