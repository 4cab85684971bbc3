import CharmRuntime.Sparrow.RoundRobin

/-!
# Sparrow.Fairness

**Free slots go round the users.** The calls of a `RoundRobinTaskScheduler` without cancellations,
in any order. `attemptTaskLaunch` scans the users from `currentIndex` on and leaves the index behind
the user it found, so that a user it has found comes after every user who still waits (`Passed`). A
new user is at the end of the list, which does not change who has been passed.

While a user waits, no other one is found twice (`Stretch.count_le_one`).
-/

namespace CharmRuntime.Sparrow

open Lib List Option
open Except (ok)

/-- A call of the scheduler. -/
inductive SchedulerCall
  | submit (taskReservation : TaskSpec)
  | finished (requestId taskId : String)
  | noTask (taskSpec : TaskSpec)

namespace RoundRobinTaskScheduler

def call (s : RoundRobinTaskScheduler) :
    SchedulerCall → Except SchedulerFault (Handled RoundRobinTaskScheduler)
  | .submit taskReservation => s.handleSubmitTaskReservation taskReservation
  | .finished requestId taskId => s.handleTaskFinished requestId taskId
  | .noTask taskSpec => s.handleNoTaskForReservation taskSpec

/-- What the scan of `attemptTaskLaunch` makes runnable. -/
def attempted (s : RoundRobinTaskScheduler) (requestId taskId : String) : Option TaskSpec :=
  match s.attemptTaskLaunch requestId taskId with
  | .ok r => r.runnable
  | .error _ => none

/-- The reservation that a call makes runnable by the scan over the users.
`handleNoTaskForReservation` scans if the user of its argument has nothing queued. -/
def scanned (s : RoundRobinTaskScheduler) : SchedulerCall → Option TaskSpec
  | .submit _ => none
  | .finished requestId taskId => s.attempted requestId taskId
  | .noTask t =>
    match s.attemptTaskLaunchForUser t.previousRequestId t.previousTaskId t.user with
    | .ok none => s.attempted t.previousRequestId t.previousTaskId
    | _ => none

/-- The queue of a user. -/
def queueOf (s : RoundRobinTaskScheduler) (u : String) :
    List TaskSpec := (OrderedMap.find u s.userQueues).getD []

/-- A part of a run, before each step of which `u` has a queued reservation; the list has the users
for whom the scan made a reservation runnable. -/
inductive Stretch (u : String) :
    RoundRobinTaskScheduler → List String → RoundRobinTaskScheduler → Prop
  | nil (s : RoundRobinTaskScheduler) : Stretch u s [] s
  | step {s s' : RoundRobinTaskScheduler} {l : List String} {c : SchedulerCall}
      {r : Handled RoundRobinTaskScheduler} :
      s.queueOf u ≠ [] → s.call c = .ok r → Stretch u r.state l s' →
      Stretch u s ((s.scanned c).toList.map (·.user) ++ l) s'

/-- The scheduler, the reservations that were submitted, and those that became runnable. -/
structure Log where
  scheduler : RoundRobinTaskScheduler
  submitted : List TaskSpec
  runnable : List TaskSpec

def submittedBy : SchedulerCall → List TaskSpec
  | .submit taskReservation => [taskReservation]
  | _ => []

/-- All runs without cancellations. -/
def callSystem (maxActiveTasks : Int) : Transition Log SchedulerCall where
  init w := w = ⟨new maxActiveTasks, [], []⟩
  step w c w' := ∃ r, w.scheduler.call c = .ok r ∧
    w' = ⟨r.state, w.submitted ++ submittedBy c, w.runnable ++ r.runnable.toList⟩

/-- The reservations of one user. -/
def Log.ofUser (u : String) (l : List TaskSpec) :
    List Nat := (l.filter fun t => t.user = u).map (·.obj)

/-! ### One launch -/

/-- The users are different, `currentIndex` is one of theirs, and reservations wait only if all
slots are taken. -/
structure Turns (max : Int) (s : RoundRobinTaskScheduler) : Prop where
  counted : Counted max s
  nodup : s.users.Nodup
  index : s.currentIndex = 0 ∨ s.currentIndex < s.users.length
  full : 0 < s.numQueuedReservations → max ≤ s.activeTasks

variable {max : Int} {s : RoundRobinTaskScheduler} {u v : String}

theorem mem_users_of_queueOf (h : Counted max s) (hu : s.queueOf u ≠ []) : u ∈ s.users := by
  rw [h.users]
  intro hnone
  rw [queueOf, hnone] at hu
  exact hu rfl

theorem mem_queued_of_queueOf {t : TaskSpec} (ht : t ∈ s.queueOf u) : t ∈ s.queued := by
  rw [queueOf] at ht
  cases hfind : OrderedMap.find u s.userQueues with
  | none =>
    rw [hfind] at ht
    exact absurd ht not_mem_nil
  | some q =>
    rw [hfind] at ht
    exact OrderedMap.mem_contents.mpr ⟨(u, q), OrderedMap.mem_of_find hfind, ht⟩

/-- What a launch for the user `v` does, apart from the index. -/
structure LaunchedFor (max : Int) (v : String) (s s' : RoundRobinTaskScheduler) (t t' : TaskSpec) :
    Prop where
  counted : Counted max s'
  mem : v ∈ s.users
  queue : s.queueOf v = t :: s'.queueOf v
  others : ∀ u, u ≠ v → s'.queueOf u = s.queueOf u
  users : s'.users = s.users
  active : s'.activeTasks = s.activeTasks
  count : s'.numQueuedReservations = s.numQueuedReservations - 1
  obj : t'.obj = t.obj
  user : t'.user = v

variable {requestId taskId : String} {r : Handled RoundRobinTaskScheduler} {c : SchedulerCall}
  {s' : RoundRobinTaskScheduler} {w : Log}

theorem launchForUser_cases (h : Counted max s)
    {o : Option (RoundRobinTaskScheduler × TaskSpec)}
    (hrun : s.attemptTaskLaunchForUser requestId taskId v = .ok o) :
    (o = none ∧ v ∈ s.users ∧ s.queueOf v = []) ∨
      ∃ s' t t', o = some (s', t') ∧ LaunchedFor max v s s' t t' ∧
      s'.currentIndex = s.currentIndex := by
  have hmem : v ∈ s.users := by
    rw [h.users]
    intro hnone
    rw [attemptTaskLaunchForUser, hnone] at hrun
    cases hrun
  obtain ⟨q, hq⟩ := ne_none_iff_exists'.mp ((h.users v).mp hmem)
  have hqueue : s.queueOf v = q := by rw [queueOf, hq, getD_some]
  cases q with
  | nil =>
    rw [attemptTaskLaunchForUser, hq] at hrun
    exact .inl ⟨(ok.inj hrun).symm, hmem, hqueue⟩
  | cons t rest =>
    rw [attemptTaskLaunchForUser, hq] at hrun
    have hpop := OrderedMap.contents_pop h.ascending hq
    refine .inr ⟨_, t, _, (ok.inj hrun).symm, ⟨?_, hmem, ?_, ?_, rfl, rfl, rfl, rfl, ?_⟩, rfl⟩
    · refine h.upsert hmem (fun u hu => ?_) ?_
      · exact h.owner _ (OrderedMap.mem_of_find hq) u (mem_cons_of_mem _ hu)
      · have hlength := hpop.length_eq
        rw [length_cons] at hlength
        rw [h.count, queued]
        omega
    · rw [hqueue, queueOf, OrderedMap.find_upsert h.ascending, if_pos rfl, getD_some]
    · intro u hu
      rw [queueOf, queueOf, OrderedMap.find_upsert h.ascending, if_neg hu]
    · exact h.owner _ (OrderedMap.mem_of_find hq) t mem_cons_self

/-! ### The scan -/

/-- How far the index is from the user. -/
def distance (s : RoundRobinTaskScheduler) (u : String) : Nat :=
  if s.currentIndex ≤ s.users.idxOf u then s.users.idxOf u - s.currentIndex
  else s.users.idxOf u + s.users.length - s.currentIndex

/-- The scan comes to `u` before it comes to `v` again. -/
def Passed (s : RoundRobinTaskScheduler) (u v : String) :
    Prop := v ∈ s.users ∧ s.distance u < s.distance v

theorem add_mod_of_lt {c i n : Nat} (hc : c < n) (hi : i ≤ n) :
    (c + i) % n = if c + i < n then c + i else c + i - n := by
  by_cases hlt : c + i < n
  · rw [if_pos hlt, Nat.mod_eq_of_lt hlt]
  · rw [if_neg hlt, Nat.mod_eq_sub_mod (Nat.le_of_not_lt hlt), Nat.mod_eq_of_lt (by omega)]

/-- The user at an offset from the index. -/
def userAt (s : RoundRobinTaskScheduler) (offset : Nat) : String :=
  s.users.getD ((s.currentIndex + offset) % s.users.length) ""

theorem userAt_distance (hc : s.currentIndex < s.users.length) (hu : u ∈ s.users) :
    s.userAt (s.distance u) = u ∧ s.distance u < s.users.length := by
  have hidx : s.users.idxOf u < s.users.length := idxOf_lt_length_of_mem hu
  have hlt : s.distance u < s.users.length := by
    rw [distance]
    split
    · omega
    · omega
  have hat : (s.currentIndex + s.distance u) % s.users.length = s.users.idxOf u := by
    rw [add_mod_of_lt hc (le_of_lt hlt), distance]
    split
    · rw [if_pos (by omega)]
      omega
    · rw [if_neg (by omega)]
      omega
  refine ⟨?_, hlt⟩
  rw [userAt, hat, getD_eq_getElem _ _ hidx, getElem_idxOf]

theorem distance_userAt (hnodup : s.users.Nodup) (hc : s.currentIndex < s.users.length) {i : Nat}
    (hi : i < s.users.length) : s.distance (s.userAt i) = i := by
  have hlt : (s.currentIndex + i) % s.users.length < s.users.length := Nat.mod_lt _ (by omega)
  have hidx : s.users.idxOf (s.userAt i) = (s.currentIndex + i) % s.users.length := by
    rw [userAt, getD_eq_getElem _ _ hlt, hnodup.idxOf_getElem]
  rw [distance, hidx, add_mod_of_lt hc (le_of_lt hi)]
  split
  · rw [if_pos (by omega)]
    omega
  · rw [if_neg (by omega)]
    omega

theorem launchLoop_found (h : Counted max s) (n : Nat) :
    ∀ {offset : Nat}, s.launchLoop requestId taskId n offset = .ok r →
      ∃ i t t', offset ≤ i ∧ i < offset + n ∧
      (∀ j, offset ≤ j → j < i → s.queueOf (s.userAt j) = []) ∧
        LaunchedFor max (s.userAt i) s r.state t t' ∧ r.runnable = some t' ∧
        r.state.currentIndex = (s.currentIndex + i + 1) % s.users.length := by
  induction n with
  | zero =>
    intro offset hrun
    cases hrun
  | succ n ih =>
    intro offset hrun
    obtain ⟨o, hlaunch, hrun⟩ := bind_eq_ok.mp hrun
    obtain ⟨rfl, -, hempty⟩ | ⟨s', t, t', rfl, hlaunched, -⟩ := launchForUser_cases h hlaunch
    · obtain ⟨i, t, t', hlow, hhigh, hfirst, hrest⟩ := ih hrun
      refine ⟨i, t, t', by omega, by omega, fun j hj hji => ?_, hrest⟩
      by_cases hj' : j = offset
      · rw [hj']
        exact hempty
      · exact hfirst j (by omega) hji
    · obtain rfl := ok.inj hrun
      refine ⟨offset, t, t', le_refl _, by omega, fun j hj hji => absurd hji (by omega),
        ?_, rfl, rfl⟩
      exact { hlaunched with counted := { hlaunched.counted with } }

/-- What a call does. -/
inductive Does (max : Int) (s : RoundRobinTaskScheduler) (r : Handled RoundRobinTaskScheduler) :
    SchedulerCall → Prop
  /-- A reservation gets a free slot at once. -/
  | direct {t : TaskSpec} : s.numQueuedReservations = 0 → r.runnable = some t →
      r.state = { s.addUser t.user with
        currentIndex :=
          ((s.addUser t.user).users.idxOf t.user + 1) % (s.addUser t.user).users.length
        activeTasks := s.activeTasks + 1 } → Does max s r (.submit t)
  /-- A reservation waits. -/
  | queued {t : TaskSpec} : max ≤ s.activeTasks → r.runnable = none →
      r.state = { s.addUser t.user with
        userQueues :=
          OrderedMap.upsert t.user (fun q => q.getD [] ++ [t]) (s.addUser t.user).userQueues
        numQueuedReservations := s.numQueuedReservations + 1 } → Does max s r (.submit t)
  /-- Nobody waits. -/
  | freed {c : SchedulerCall} :
      submittedBy c = [] → s.scanned c = none → s.numQueuedReservations = 0 →
      r.runnable = none → r.state = { s with activeTasks := s.activeTasks - 1 } → Does max s r c
  /-- The next reservation of the same user. -/
  | same {t₀ t t' : TaskSpec} :
      s.scanned (.noTask t₀) = none → LaunchedFor max t₀.user s r.state t t' →
      r.runnable = some t' → r.state.currentIndex = s.currentIndex → Does max s r (.noTask t₀)
  /-- The scan finds `v`. -/
  | scan {c : SchedulerCall} {v : String} {t t' : TaskSpec} :
      submittedBy c = [] → s.scanned c = some t' →
      LaunchedFor max v s r.state t t' → r.runnable = some t' → s.currentIndex < s.users.length →
      r.state.currentIndex = (s.users.idxOf v + 1) % s.users.length →
      (∀ u, s.queueOf u ≠ [] → s.distance v ≤ s.distance u) → Does max s r c

theorem addUser_fields (s : RoundRobinTaskScheduler) (user : String) :
    (s.addUser user).activeTasks = s.activeTasks ∧ (s.addUser user).maxActiveTasks =
    s.maxActiveTasks ∧
      (s.addUser user).numQueuedReservations = s.numQueuedReservations ∧
      (s.addUser user).currentIndex = s.currentIndex := by
  rw [addUser]
  split
  · exact ⟨rfl, rfl, rfl, rfl⟩
  · exact ⟨rfl, rfl, rfl, rfl⟩

/-- The scan of `attemptTaskLaunch`, for a call that consists of it. -/
theorem does_attempt (h : Turns max s) (hsub : submittedBy c = [])
    (hscan : s.scanned c = s.attempted requestId taskId)
    (hrun : s.attemptTaskLaunch requestId taskId = .ok r) :
    Does max s r c := by
  have hattempted : s.attempted requestId taskId = r.runnable := by rw [attempted, hrun]
  rw [attemptTaskLaunch] at hrun
  split at hrun
  · obtain ⟨i, t, t', -, hi, hfirst, hlaunched, hrunnable, hindex⟩ :=
      launchLoop_found h.counted _ hrun
    rw [zero_add] at hi
    have hc : s.currentIndex < s.users.length := by
      obtain hzero | hc := h.index
      · omega
      · exact hc
    have hlt : (s.currentIndex + i) % s.users.length < s.users.length := Nat.mod_lt _ (by omega)
    have hidx : s.users.idxOf (s.userAt i) = (s.currentIndex + i) % s.users.length := by
      rw [userAt, getD_eq_getElem _ _ hlt, h.nodup.idxOf_getElem]
    refine .scan hsub (hscan.trans (hattempted.trans hrunnable)) hlaunched hrunnable hc ?_
      fun u hu => ?_
    · rw [hindex, hidx, Nat.mod_add_mod]
    · obtain ⟨hat, -⟩ := userAt_distance hc (mem_users_of_queueOf h.counted hu)
      rw [distance_userAt h.nodup hc hi]
      by_contra hlt
      refine hu ?_
      rw [← hat]
      exact hfirst _ (Nat.zero_le _) (by omega)
  · rename_i hzero
    obtain rfl := ok.inj hrun
    exact .freed hsub (hscan.trans hattempted) (not_not.mp hzero) rfl rfl

theorem does (h : Turns max s) (hrun : s.call c = .ok r) :
    Does max s r c := by
  cases c with
  | submit t =>
    obtain ⟨hactive, hmax, hnum, -⟩ := addUser_fields s t.user
    have hmax' := h.counted.max_eq
    rw [call, handleSubmitTaskReservation] at hrun
    simp only [hactive, hnum] at hrun
    split at hrun
    · split at hrun
      · cases hrun
      · have hcount := h.counted.count
        obtain rfl := ok.inj hrun
        exact .direct (by omega) rfl (by simp only [hmax, hnum])
    · obtain rfl := ok.inj hrun
      exact .queued (by omega) rfl (by simp only [hmax, hactive])
  | finished requestId taskId => exact does_attempt h rfl rfl hrun
  | noTask t =>
    obtain ⟨o, hlaunch, hrun⟩ := bind_eq_ok.mp hrun
    obtain ⟨rfl, -⟩ | ⟨s', t', t'', rfl, hlaunched, hindex⟩ := launchForUser_cases h.counted hlaunch
    · refine does_attempt h rfl ?_ hrun
      rw [scanned, hlaunch]
    · obtain rfl := ok.inj hrun
      refine .same ?_ hlaunched rfl hindex
      rw [scanned, hlaunch]

/-! ### What a call keeps -/

theorem addUser_users (h : Counted max s) (user : String) :
    (s.addUser user).users = if user ∈ s.users then s.users else s.users ++ [user] := by
  rw [addUser]
  by_cases hnone : OrderedMap.find user s.userQueues = none
  · have hnot : user ∉ s.users := fun hmem => (h.users user).mp hmem hnone
    rw [if_pos hnone, if_neg hnot]
  · rw [if_neg hnone, if_pos ((h.users user).mpr hnone)]

theorem queueOf_addUser (h : Counted max s) (user u : String) :
    (s.addUser user).queueOf u = s.queueOf u := by
  rw [addUser]
  split
  · rw [queueOf, queueOf, OrderedMap.find_upsert h.ascending]
    by_cases hu : u = user
    · rw [if_pos hu, hu]
      rfl
    · rw [if_neg hu]
  · rfl

theorem nodup_addUser (h : Turns max s) (user : String) : (s.addUser user).users.Nodup := by
  rw [addUser_users h.counted]
  split
  · exact h.nodup
  · rename_i hnot
    rw [nodup_append_comm]
    exact nodup_cons.mpr ⟨hnot, h.nodup⟩

theorem index_addUser (h : Turns max s) (user : String) :
    (s.addUser user).currentIndex = 0 ∨ (s.addUser user).currentIndex <
    (s.addUser user).users.length := by
  obtain ⟨-, -, -, hindex⟩ := addUser_fields s user
  have hle : s.users.length ≤ (s.addUser user).users.length := by
    rw [addUser_users h.counted]
    split
    · exact le_refl _
    · rw [length_append]
      exact Nat.le_add_right _ _
  rw [hindex]
  exact h.index.imp_right fun hlt => lt_of_lt_of_le hlt hle

theorem Does.turns (h : Turns max s) (hdoes : Does max s r c) : Turns max r.state := by
  cases hdoes with
  | @direct t hnum hrunnable hstate =>
    obtain ⟨hadd, hmem, -, -, -⟩ := addUser_spec h.counted t.user
    obtain ⟨-, -, hsame, -⟩ := addUser_fields s t.user
    rw [hstate]
    refine ⟨{ hadd with }, nodup_addUser h t.user, .inr (Nat.mod_lt _ (length_pos_of_mem hmem)), ?_⟩
    intro hpos
    simp only [hsame, hnum, lt_irrefl] at hpos
  | @queued t hfull hrunnable hstate =>
    obtain ⟨hadd, hmem, -, -, -⟩ := addUser_spec h.counted t.user
    obtain ⟨hactive, -, hsame, -⟩ := addUser_fields s t.user
    rw [hstate, ← hsame]
    refine ⟨hadd.push hmem, nodup_addUser h t.user, index_addUser h t.user, fun _ => ?_⟩
    rw [hactive]
    exact hfull
  | freed hsub hscan hnum hrunnable hstate =>
    rw [hstate]
    refine ⟨{ h.counted with }, h.nodup, h.index, ?_⟩
    intro hpos
    simp only [hnum, lt_irrefl] at hpos
  | same hscan hlaunched hrunnable hindex =>
    refine ⟨hlaunched.counted, hlaunched.users ▸ h.nodup, ?_, fun hpos => ?_⟩
    · rw [hindex, hlaunched.users]
      exact h.index
    · rw [hlaunched.active]
      rw [hlaunched.count] at hpos
      exact h.full (by omega)
  | scan hsub hscan hlaunched hrunnable hc hindex hfirst =>
    refine ⟨hlaunched.counted, hlaunched.users ▸ h.nodup, ?_, fun hpos => ?_⟩
    · rw [hindex, hlaunched.users]
      exact .inr (Nat.mod_lt _ (by omega))
    · rw [hlaunched.active]
      rw [hlaunched.count] at hpos
      exact h.full (by omega)

theorem Passed.addUser (h : Turns max s) (hc : s.currentIndex < s.users.length) (hu : u ∈ s.users)
    {w : String}
    (hpassed : Passed s u w) (user : String)
    (husers : s'.users = (s.addUser user).users) (hindex : s'.currentIndex = s.currentIndex) :
    Passed s' u w := by
  obtain ⟨hw, hlt⟩ := hpassed
  rw [addUser_users h.counted] at husers
  by_cases hmem : user ∈ s.users
  · rw [if_pos hmem] at husers
    simp only [Passed, distance, husers, hindex]
    exact ⟨hw, hlt⟩
  · rw [if_neg hmem] at husers
    have hidxu : (s.users ++ [user]).idxOf u = s.users.idxOf u := idxOf_append_of_mem hu
    have hidxw : (s.users ++ [user]).idxOf w = s.users.idxOf w := idxOf_append_of_mem hw
    have hlenu := idxOf_lt_length_of_mem hu
    have hlenw := idxOf_lt_length_of_mem hw
    refine ⟨by rw [husers]; exact mem_append_left _ hw, ?_⟩
    simp only [distance, husers, hindex, hidxu, hidxw, length_append, length_singleton]
    simp only [distance] at hlt
    -- the distance of a user in front of the index grows by one, and the others come before them
    by_cases hcu : s.currentIndex ≤ s.users.idxOf u
    · rw [if_pos hcu] at hlt ⊢
      by_cases hcw : s.currentIndex ≤ s.users.idxOf w
      · rwa [if_pos hcw] at hlt ⊢
      · rw [if_neg hcw]
        omega
    · have hcw : ¬ s.currentIndex ≤ s.users.idxOf w := by
        intro hcw
        rw [if_neg hcu, if_pos hcw] at hlt
        omega
      rw [if_neg hcu, if_neg hcw] at hlt ⊢
      omega

theorem distance_behind (hc : s.currentIndex < s.users.length)
    (hv : v ∈ s.users) (hu : u ∈ s.users) (huv : u ≠ v) (husers : s'.users = s.users)
    (hindex : s'.currentIndex = (s.users.idxOf v + 1) % s.users.length) :
    s'.distance v + 1 = s.users.length ∧ s'.distance u + 1 < s.users.length ∧
      (s.distance v < s.distance u → s'.distance u + s.distance v + 1 = s.distance u) := by
  have hlenu := idxOf_lt_length_of_mem hu
  have hlenv := idxOf_lt_length_of_mem hv
  have hne : s.users.idxOf u ≠ s.users.idxOf v := fun heq => huv ((idxOf_inj hu).mp heq)
  have hmod : (s.users.idxOf v + 1) % s.users.length =
      if s.users.idxOf v + 1 < s.users.length then s.users.idxOf v + 1 else s.users.idxOf v + 1 -
        s.users.length :=
    add_mod_of_lt hlenv (by omega)
  rw [hmod] at hindex
  simp only [distance, husers]
  split at hindex
  · refine ⟨?_, ?_, ?_⟩
    · rw [if_neg (by omega)]
      omega
    · split
      · omega
      · omega
    · grind
  · refine ⟨?_, ?_, ?_⟩
    · rw [if_pos (by omega)]
      omega
    · rw [if_pos (by omega)]
      omega
    · grind

theorem queueOf_eq_nil (h : Counted max s) (hnum : s.numQueuedReservations = 0) (u : String) :
    s.queueOf u = [] := by
  have hcount := h.count
  rw [eq_nil_iff_forall_not_mem]
  intro t ht
  have hpos := length_pos_of_mem (mem_queued_of_queueOf ht)
  omega

/-- **What a call does to a user who waits**: whoever the scan finds is passed, and is not found
while they are. -/
theorem Does.passed (h : Turns max s) (hdoes : Does max s r c)
    (hu : s.queueOf u ≠ []) (hother : ∀ t ∈ s.scanned c, t.user ≠ u) :
    (∀ t ∈ s.scanned c, Passed r.state u t.user) ∧
      ∀ w, Passed s u w → Passed r.state u w ∧ ∀ t ∈ s.scanned c, t.user ≠ w := by
  have hmem := mem_users_of_queueOf h.counted hu
  cases hdoes with
  | direct hnum hrunnable hstate => exact absurd (queueOf_eq_nil h.counted hnum u) hu
  | @queued t hfull hrunnable hstate =>
    obtain ⟨-, -, -, hindex⟩ := addUser_fields s t.user
    have hc : s.currentIndex < s.users.length := by
      have hpos := length_pos_of_mem hmem
      obtain hzero | hc := h.index
      · omega
      · exact hc
    have hnone : ∀ t' : TaskSpec, t' ∉ s.scanned (.submit t) := fun t' ht' => by cases ht'
    refine ⟨fun t' ht' => absurd ht' (hnone t'), fun w hw =>
      ⟨?_, fun t' ht' => absurd ht' (hnone t')⟩⟩
    refine hw.addUser h hc hmem t.user ?_ ?_
    · rw [hstate]
    · rw [hstate]
      exact hindex
  | freed hsub hscan hnum hrunnable hstate => exact absurd (queueOf_eq_nil h.counted hnum u) hu
  | same hscan hlaunched hrunnable hindex =>
    rw [hscan]
    have hnone : ∀ t : TaskSpec, t ∉ none := fun t ht => by cases ht
    refine ⟨fun t ht => absurd ht (hnone t), fun w hw => ⟨?_, fun t ht => absurd ht (hnone t)⟩⟩
    simp only [Passed, distance, hlaunched.users, hindex]
    exact hw
  | @scan _ v t t' hsub hscan hlaunched hrunnable hc hindex hfirst =>
    rw [hscan] at hother ⊢
    have hv : t'.user = v := hlaunched.user
    have hvu : u ≠ v := fun heq => hother t' rfl (hv.trans heq.symm)
    obtain ⟨hlast, hless, hback⟩ := distance_behind hc hlaunched.mem hmem hvu hlaunched.users hindex
    have hle := hfirst u hu
    have hne : s.distance v ≠ s.distance u := by
      intro heq
      have hat := (userAt_distance hc hlaunched.mem).1
      rw [heq, (userAt_distance hc hmem).1] at hat
      exact hvu hat
    refine ⟨fun x hx => ?_, fun w hw => ?_⟩
    · obtain rfl := some.inj hx
      rw [hv]
      refine ⟨?_, by omega⟩
      rw [hlaunched.users]
      exact hlaunched.mem
    · obtain ⟨hwmem, hlt⟩ := hw
      have hwv : w ≠ v := by
        rintro rfl
        omega
      obtain ⟨-, -, hbackw⟩ := distance_behind hc hlaunched.mem hwmem hwv hlaunched.users hindex
      refine ⟨⟨?_, ?_⟩, fun x hx => ?_⟩
      · rw [hlaunched.users]
        exact hwmem
      · omega
      · obtain rfl := some.inj hx
        rw [hv]
        exact hwv.symm

/-! ### Stretches -/

namespace Stretch

variable {l l₁ l₂ : List String} {s' : RoundRobinTaskScheduler}

theorem turns (hs : Stretch u s l s') (h : Turns max s) : Turns max s' := by
  induction hs with
  | nil s => exact h
  | step hu hrun _ ih => exact ih ((does h hrun).turns h)

theorem split (hs : Stretch u s l s') : ∀ {l₁ l₂ : List String}, l = l₁ ++ l₂ →
    ∃ m, Stretch u s l₁ m ∧ Stretch u m l₂ s' := by
  induction hs with
  | nil s =>
    intro l₁ l₂ hl
    obtain ⟨rfl, rfl⟩ := append_eq_nil_iff.mp hl.symm
    exact ⟨s, .nil s, .nil s⟩
  | @step s s' l c r hu hrun hrest ih =>
    intro l₁ l₂ hl
    cases hscan : s.scanned c with
    | none =>
      rw [hscan, toList_none, map_nil] at hl
      obtain ⟨m, hfirst, hsecond⟩ := ih hl
      have hstep := step hu hrun hfirst
      rw [hscan, toList_none, map_nil] at hstep
      exact ⟨m, hstep, hsecond⟩
    | some t =>
      rw [hscan, toList_some, map_cons, map_nil, singleton_append] at hl
      cases l₁ with
      | nil =>
        have hstep := step hu hrun hrest
        rw [hscan, toList_some, map_cons, map_nil, singleton_append, hl] at hstep
        exact ⟨s, .nil s, hstep⟩
      | cons x l₁ =>
        obtain ⟨rfl, hrest'⟩ := cons.inj hl
        obtain ⟨m, hfirst, hsecond⟩ := ih hrest'
        have hstep := step hu hrun hfirst
        rw [hscan] at hstep
        exact ⟨m, hstep, hsecond⟩

/-- A user who has been passed is not found before `u` is. -/
theorem notMem (hs : Stretch u s l s') (h : Turns max s) (hu : u ∉ l) (hv : Passed s u v) :
    v ∉ l := by
  induction hs with
  | nil s => exact not_mem_nil
  | @step s s' l c r hqueue hrun hrest ih =>
    have hdoes := does h hrun
    rw [mem_append, not_or] at hu ⊢
    have hother : ∀ t ∈ s.scanned c, t.user ≠ u := fun t ht heq =>
      hu.1 (heq ▸ mem_map_of_mem (mem_toList.mpr ht))
    obtain ⟨hkept, hnot⟩ := (hdoes.passed h hqueue hother).2 v hv
    refine ⟨fun hmem => ?_, ih (hdoes.turns h) hu.2 hkept⟩
    obtain ⟨t, ht, rfl⟩ := mem_map.mp hmem
    exact hnot t (mem_toList.mp ht) rfl

/-- **Nobody is found twice before `u` is.** -/
theorem count_le_one (hs : Stretch u s l s') (h : Turns max s) (hu : u ∉ l) (v : String) :
    l.count v ≤ 1 := by
  induction hs with
  | nil s => exact Nat.zero_le _
  | @step s s' l c r hqueue hrun hrest ih =>
    have hdoes := does h hrun
    rw [mem_append, not_or] at hu
    have hother : ∀ t ∈ s.scanned c, t.user ≠ u := fun t ht heq =>
      hu.1 (heq ▸ mem_map_of_mem (mem_toList.mpr ht))
    have hpassed := (hdoes.passed h hqueue hother).1
    have hle := ih (hdoes.turns h) hu.2
    cases hscan : s.scanned c with
    | none => exact hle
    | some t =>
      rw [toList_some, map_cons, map_nil, singleton_append, count_cons]
      by_cases htv : t.user = v
      · subst htv
        have hnot := hrest.notMem (hdoes.turns h) hu.2 (hpassed t hscan)
        rw [count_eq_zero_of_not_mem hnot]
        split <;> omega
      · rw [if_neg (by simpa using htv)]
        exact hle

end Stretch

/-! ### Order -/

/-- The reservations of a user that are runnable, and those that wait, in the order of submission.
-/
def Ordered (w : Log) : Prop :=
  ∀ u, Log.ofUser u w.runnable ++ (w.scheduler.queueOf u).map (·.obj) = Log.ofUser u w.submitted

theorem Log.ofUser_append (u : String) (l l' : List TaskSpec) :
    ofUser u (l ++ l') = ofUser u l ++ ofUser u l' := by
  rw [ofUser, filter_append, map_append]
  rfl

theorem Log.ofUser_singleton (u : String) (t : TaskSpec) :
    ofUser u [t] = if t.user = u then [t.obj] else [] := by
  rw [ofUser]
  by_cases hu : t.user = u
  · simp [hu]
  · simp [hu]

theorem Ordered.launch (h : Ordered w) {t t' : TaskSpec}
    (hlaunched : LaunchedFor max v w.scheduler s' t t') :
    Ordered ⟨s', w.submitted, w.runnable ++ [t']⟩ := by
  intro u
  have hold := h u
  rw [Log.ofUser_append, Log.ofUser_singleton, hlaunched.user]
  by_cases hu : v = u
  · subst hu
    rw [hlaunched.queue] at hold
    rw [if_pos rfl, hlaunched.obj, append_assoc]
    exact hold
  · rw [if_neg hu, append_nil, hlaunched.others u (symm hu)]
    exact hold

theorem Ordered.step (h : Ordered w) (hturns : Turns max w.scheduler)
    (hdoes : Does max w.scheduler r c) :
    Ordered ⟨r.state, w.submitted ++ submittedBy c, w.runnable ++ r.runnable.toList⟩ := by
  cases hdoes with
  | @direct t hnum hrunnable hstate =>
    intro u
    have hold := h u
    have hqueue : r.state.queueOf u = w.scheduler.queueOf u := by
      rw [hstate]
      exact queueOf_addUser hturns.counted t.user u
    rw [hrunnable, hqueue, queueOf_eq_nil hturns.counted hnum u] at *
    rw [map_nil, append_nil] at *
    rw [submittedBy, toList_some, Log.ofUser_append, Log.ofUser_append, hold]
  | @queued t hfull hrunnable hstate =>
    intro u
    have hold := h u
    have hadd := (addUser_spec hturns.counted t.user).1
    have hsame := queueOf_addUser hturns.counted t.user
    have hqueue : r.state.queueOf u = w.scheduler.queueOf u ++ if t.user = u then [t] else [] := by
      rw [hstate, ← hsame u, queueOf, queueOf, OrderedMap.find_upsert hadd.ascending]
      by_cases hu : u = t.user
      · rw [if_pos hu, if_pos hu.symm, hu]
        rfl
      · rw [if_neg hu, if_neg (Ne.symm hu), append_nil]
    rw [hrunnable, hqueue, submittedBy, toList_none, append_nil, Log.ofUser_append,
      Log.ofUser_singleton, map_append, ← append_assoc, hold]
    split <;> rfl
  | freed hsub hscan hnum hrunnable hstate =>
    rw [hsub, hrunnable, hstate, toList_none, append_nil, append_nil]
    exact h
  | same hscan hlaunched hrunnable hindex =>
    rw [hrunnable, submittedBy, append_nil]
    · exact h.launch hlaunched
    · exact fun t heq => by cases heq
  | scan hsub hscan hlaunched hrunnable hc hindex hfirst =>
    rw [hsub, hrunnable, append_nil]
    exact h.launch hlaunched

/-! ### Runs -/

theorem turns_new (max : Int) : Turns max (new max) where
  counted := ⟨rfl, Pairwise.nil, fun u => by simp [new, OrderedMap.find], fun e he =>
    absurd he not_mem_nil, rfl⟩
  nodup := nodup_nil
  index := .inl rfl
  full hpos := absurd hpos (lt_irrefl 0)

theorem callSystem_inv (h : (callSystem max).Reachable w) : Turns max w.scheduler ∧ Ordered w := by
  refine h.invariant (I := fun w => Turns max w.scheduler ∧ Ordered w) ?_ ?_
  · rintro w rfl
    exact ⟨turns_new max, fun u => rfl⟩
  · rintro w c - ⟨hturns, hordered⟩ ⟨r, hrun, rfl⟩
    have hdoes := does hturns hrun
    exact ⟨hdoes.turns hturns, hordered.step hturns hdoes⟩

/-- What is fair in a state of a run. -/
structure Fair (w : Log) : Prop where
  /-- While `u` waits, nobody is found twice between two launches for `u` or before the first one.
  -/
  turn : ∀ u l s', Stretch u w.scheduler l s' → ∀ l₁ l₂ l₃, l = l₁ ++ (l₂ ++ l₃) → u ∉ l₂ →
    ∀ v, l₂.count v ≤ 1
  /-- A second reservation of the same user does not take another one's turn. -/
  same : ∀ t r, w.scheduler.call (.noTask t) = .ok r → w.scheduler.queueOf t.user ≠ [] →
    w.scheduler.scanned (.noTask t) = none ∧ r.state.users = w.scheduler.users ∧
      r.state.currentIndex = w.scheduler.currentIndex
  order : ∀ u, Log.ofUser u w.runnable <+: Log.ofUser u w.submitted

/-- **Users come in turn, and the requests of one user in their order.** -/
theorem round_robin_fair {w : Log} (h : (callSystem max).Reachable w) : Fair w := by
  obtain ⟨hturns, hordered⟩ := callSystem_inv h
  refine ⟨?_, ?_, fun u => ⟨_, hordered u⟩⟩
  · intro u l s' hs l₁ l₂ l₃ hl hu v
    obtain ⟨m, hfirst, hrest⟩ := hs.split hl
    obtain ⟨m', hsecond, -⟩ := hrest.split rfl
    exact hsecond.count_le_one (hfirst.turns hturns) hu v
  · intro t r hrun hqueue
    obtain ⟨o, hlaunch, hrun⟩ := bind_eq_ok.mp hrun
    obtain ⟨rfl, -, hempty⟩ | ⟨s', t', t'', rfl, hlaunched, hindex⟩ :=
      launchForUser_cases hturns.counted hlaunch
    · exact absurd hempty hqueue
    · obtain rfl := ok.inj hrun
      refine ⟨?_, hlaunched.users, hindex⟩
      rw [scanned, hlaunch]

/-- Two users wait for one slot. -/
theorem round_robin_fair_two :
    ∃ w, (callSystem 1).Reachable w ∧ w.scheduler.queueOf "u" ≠ [] ∧ w.scheduler.queueOf "v" ≠ [] ∧
    Fair w := by
  have hfirst : (callSystem 1).Reachable _ :=
    .step (.init rfl) (e := .submit ⟨0, "u", 0, ⟨0, "r"⟩, "", ""⟩) ⟨_, rfl, rfl⟩
  have hsecond : (callSystem 1).Reachable _ :=
    hfirst.step (e := .submit ⟨1, "u", 0, ⟨0, "r"⟩, "", ""⟩) ⟨_, rfl, rfl⟩
  have hthird : (callSystem 1).Reachable _ :=
    hsecond.step (e := .submit ⟨2, "v", 0, ⟨1, "s"⟩, "", ""⟩) ⟨_, rfl, rfl⟩
  exact ⟨_, hthird, by decide +kernel, by decide +kernel, round_robin_fair hthird⟩

end RoundRobinTaskScheduler

end CharmRuntime.Sparrow
