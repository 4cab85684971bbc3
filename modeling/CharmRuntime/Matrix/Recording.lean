import CharmRuntime.Lib.Sum
import CharmRuntime.Lib.Transition
import CharmRuntime.Matrix.Store
import Mathlib.Algebra.Order.BigOperators.Group.Finset

/-!
# Matrix.Recording

The **global completion counter**: `recording_stat` and the increments of
`exec_a_task`.

Every scheduler counts the tasks it has finished in `numTaskFin` and from time
to time adds what is new since the last time, `numTaskFin - prevNumTaskFin`, to
the number all schedulers share under `num tasks done`. The addition is a
compare-and-swap loop that is left early when the shared number has reached
`numAllTask`; then nothing has been added, but `prevNumTaskFin` is set all the
same. `numTaskFinMutex` is held over the whole addition, so `numTaskFin` does not
move meanwhile; between the first `lookup` and the lock everything may.

A state holds the store and the schedulers; each recording thread is at one of
the `Point`s between its atomic steps. The insertion of the scheduler's status
record, under the scheduler's own key, is left out: nothing here reads it.
-/

namespace CharmRuntime.Matrix

open Lib Function Finset

namespace Recording

/-- The key of the shared number. -/
def key : Text := "num tasks done".toList

/-- Where a thread stands in the loop of `recording_stat`, with the locals it
still needs. -/
inductive Point where
  /-- Before the `lookup` at the top of the loop. -/
  | top
  /-- Before `numTaskFinMutex.lock()`. -/
  | looked (numTaskDoneStr : Text) (numTaskDone : Int)
  /-- Before a `compare_swap`, with the mutex held. -/
  | swap (numTaskDoneStr numTaskDoneStrNew : Text)
  /-- Before the `lookup` that follows a failed swap with an empty answer. -/
  | again
  /-- After the swap loop, before `prevNumTaskFin` is set; `swapped` tells how the
  loop was left. -/
  | assign (swapped : Bool)
  /-- After the loop. -/
  | left
  deriving DecidableEq

namespace Point

/-- `numTaskFinMutex` is held. -/
def locked : Point → Bool
  | swap _ _ | again | assign _ => true
  | top | looked _ _ | left => false

end Point

/-- What `recording_stat` reads and writes of a `MatrixScheduler`. -/
structure Scheduler where
  numTaskFin : Int := 0
  prevNumTaskFin : Int := 0
  running : Bool := true
  point : Point := .top
  deriving DecidableEq

namespace Scheduler

/-- Add what is new to the number read, and try to swap it in. -/
def attempt (s : Scheduler) (numTaskDoneStr : Text) (numTaskDone : Int) : Scheduler :=
  { s with
    point := .swap numTaskDoneStr (numToStr (numTaskDone + (s.numTaskFin - s.prevNumTaskFin))) }

/-- The rest of a round of the swap loop, after a failed swap. -/
def retry (numAllTask : Nat) (s : Scheduler) (numTaskDoneStr : Text) : Scheduler :=
  let numTaskDone := strToNum 64 numTaskDoneStr
  if numTaskDone = numAllTask then { s with point := .assign false }
  else s.attempt numTaskDoneStr numTaskDone

/-- The next atomic step of the recording thread. -/
def record (numAllTask : Nat) (zht : Store) (s : Scheduler) : Store × Scheduler :=
  match s.point with
  | .top =>
    let numTaskDoneStr := zht.lookup key
    let numTaskDone := strToNum 64 numTaskDoneStr
    if numTaskDone = numAllTask then (zht, { s with running := false, point := .left })
    else (zht, { s with point := .looked numTaskDoneStr numTaskDone })
  | .looked numTaskDoneStr numTaskDone => (zht, s.attempt numTaskDoneStr numTaskDone)
  | .swap numTaskDoneStr numTaskDoneStrNew =>
    match zht.compareSwap key numTaskDoneStr numTaskDoneStrNew with
    | (zht', true, _) => (zht', { s with point := .assign true })
    | (zht', false, queryValue) =>
      if queryValue = [] then (zht', { s with point := .again })
      else (zht', s.retry numAllTask queryValue)
  | .again => (zht, s.retry numAllTask (zht.lookup key))
  | .assign _ => (zht, { s with prevNumTaskFin := s.numTaskFin, point := .top })
  | .left => (zht, s)

/-- The tasks the scheduler has added to the shared number: those up to
`prevNumTaskFin`, and between its swap and its assignment those up to
`numTaskFin`. -/
def added (s : Scheduler) : Int :=
  match s.point with
  | .assign true => s.numTaskFin
  | _ => s.prevNumTaskFin

end Scheduler

/-- The store, the schedulers, and for each scheduler by how much its swaps have
raised the shared number. -/
structure World (n : Nat) where
  zht : Store
  sched : Fin n → Scheduler
  contributed : Fin n → Int

inductive Event (n : Nat) where
  /-- `exec_a_task` counts a finished task. -/
  | finish (i : Fin n)
  /-- The recording thread moves on. -/
  | record (i : Fin n)

namespace World

variable {n : Nat}

/-- The number under `num tasks done`. -/
def counter (w : World n) : Int := strToNum 64 (w.zht.lookup key)

/-- The tasks finished on all schedulers. -/
def finished (w : World n) : Int := ∑ i, (w.sched i).numTaskFin

/-- After `regist`. -/
def fresh (n : Nat) : World n where
  zht := Store.insert (fun _ => []) key "0".toList
  sched _ := {}
  contributed _ := 0

def finish (w : World n) (i : Fin n) : World n :=
  { w with
    sched := update w.sched i { w.sched i with numTaskFin := (w.sched i).numTaskFin + 1 } }

def record (numAllTask : Nat) (w : World n) (i : Fin n) : World n :=
  let (zht, s) := (w.sched i).record numAllTask w.zht
  { zht
    sched := update w.sched i s
    contributed := update w.contributed i
      (w.contributed i + (strToNum 64 (zht.lookup key) - w.counter)) }

end World

/-- All interleavings: a task can be counted when the recording thread of its
scheduler does not hold the mutex. -/
def system (numAllTask n : Nat) : Transition (World n) (Event n) where
  init w := w = World.fresh n
  step w e w' :=
    match e with
    | .finish i => (w.sched i).point.locked = false ∧ w' = w.finish i
    | .record i => w' = w.record numAllTask i

/-- At most `numAllTask` tasks finish in total. -/
def AtMost (numAllTask : Nat) {n : Nat} (w : World n) : Event n → Prop
  | .finish _ => w.finished < numAllTask
  | .record _ => True

/-! ### One scheduler

What holds of the locals of a recording thread at each of its points. -/

namespace Scheduler

/-- What a recording thread knows of its own counters. -/
structure Steady (s : Scheduler) : Prop where
  nonneg : 0 ≤ s.prevNumTaskFin
  le : s.prevNumTaskFin ≤ s.numTaskFin
  looked : ∀ str done, s.point = .looked str done → done = strToNum 64 str
  swap : ∀ str new, s.point = .swap str new →
    new = numToStr (strToNum 64 str + (s.numTaskFin - s.prevNumTaskFin))
  /-- A loop left early had nothing to add. -/
  broke : s.point = .assign false → s.numTaskFin = s.prevNumTaskFin

variable {s : Scheduler} {numAllTask : Nat} {d : Int} {zht : Store}

theorem added_of_ne (h : s.point ≠ .assign true) : s.added = s.prevNumTaskFin := by
  unfold added
  split
  · exact absurd ‹_› h
  · rfl

theorem Steady.added_nonneg (h : s.Steady) : 0 ≤ s.added := by
  have hnonneg := h.nonneg
  have hle := h.le
  unfold added
  split
  · omega
  · exact hnonneg

theorem Steady.added_le (h : s.Steady) : s.added ≤ s.numTaskFin := by
  unfold added
  split
  · exact le_refl _
  · exact h.le

theorem Steady.finish (h : s.Steady) (hfree : s.point.locked = false) :
    { s with numTaskFin := s.numTaskFin + 1 }.Steady ∧
      { s with numTaskFin := s.numTaskFin + 1 }.added = s.added := by
  have hle := h.le
  refine ⟨⟨h.nonneg, ?_, h.looked, ?_, ?_⟩, ?_⟩
  · simp only
    omega
  · intro _ _ hpoint
    rw [hpoint] at hfree
    exact absurd hfree (by simp [Point.locked])
  · intro hpoint
    rw [hpoint] at hfree
    exact absurd hfree (by simp [Point.locked])
  · have hpoint : s.point ≠ .assign true := by
      intro hpoint
      rw [hpoint] at hfree
      exact absurd hfree (by simp [Point.locked])
    rw [added_of_ne hpoint]
    exact added_of_ne hpoint

/-- What a step of a recording thread does to its scheduler and to the shared
number, which was `d`. -/
structure Recorded (numAllTask : Nat) (d : Int) (s s' : Scheduler) (zht' : Store) : Prop where
  steady : s'.Steady
  numTaskFin : s'.numTaskFin = s.numTaskFin
  stored : zht'.lookup key = numToStr (d + (s'.added - s.added))
  added_le : s.added ≤ s'.added
  running : s'.running = false → s.running = false ∨ d = numAllTask

theorem Steady.recorded_of_quiet {s' : Scheduler}
    (hstored : zht.lookup key = numToStr d) (hsteady : s'.Steady)
    (hfin : s'.numTaskFin = s.numTaskFin)
    (hadded : s'.added = s.added)
    (hrunning : s'.running = false → s.running = false ∨ d = numAllTask) :
    Recorded numAllTask d s s' zht := by
  refine ⟨hsteady, hfin, ?_, le_of_eq hadded.symm, hrunning⟩
  rw [hadded, sub_self, add_zero]
  exact hstored

theorem Steady.attempt (h : s.Steady) (str : Text) : (s.attempt str (strToNum 64 str)).Steady := by
  refine ⟨h.nonneg, h.le, ?_, ?_, ?_⟩
  · intro _ _ hpoint
    cases hpoint
  · intro _ _ hpoint
    cases hpoint
    rfl
  · intro hpoint
    cases hpoint

theorem Steady.at_point (h : s.Steady) {p : Point} (running : Bool)
    (hp : p = .again ∨ p = .left ∨ p = .assign true ∨ p = .assign false ∧
      s.numTaskFin = s.prevNumTaskFin) :
    { s with running, point := p }.Steady := by
  refine ⟨h.nonneg, h.le, ?_, ?_, ?_⟩
  · rintro _ _ rfl
    simp at hp
  · rintro _ _ rfl
    simp at hp
  · rintro rfl
    simpa using hp

/-- A round of the swap loop after a failed swap. When the loop is left, all the
tasks have been counted, those of this scheduler among them. -/
theorem Steady.retry (h : s.Steady)
    (hd : Fits 64 d) (hstored : zht.lookup key = numToStr d) (hpoint : s.point ≠ .assign true)
    (hfull : d = numAllTask → s.numTaskFin = s.added) :
    Recorded numAllTask d s (s.retry numAllTask (zht.lookup key)) zht := by
  have hread : strToNum 64 (zht.lookup key) = d := by
    rw [hstored, strToNum_numToStr hd]
  by_cases hall : d = numAllTask
  · have heq : s.retry numAllTask (zht.lookup key) = { s with point := .assign false } := by
      simp only [Scheduler.retry, hread, if_pos hall]
    rw [heq]
    have hfin := hfull hall
    rw [added_of_ne hpoint] at hfin
    refine recorded_of_quiet hstored (h.at_point _ (.inr (.inr (.inr ⟨rfl, hfin⟩)))) rfl ?_ .inl
    rw [added_of_ne hpoint, added_of_ne (by simp)]
  · have heq : s.retry numAllTask (zht.lookup key) = s.attempt (zht.lookup key)
      (strToNum 64 (zht.lookup key)) := by
      simp only [Scheduler.retry, hread, if_neg hall]
    rw [heq]
    refine recorded_of_quiet hstored (h.attempt _) rfl ?_ .inl
    rw [added_of_ne hpoint]
    rfl

/-- **One step of a recording thread.** -/
theorem Steady.record (h : s.Steady) (hd : Fits 64 d) (hstored : zht.lookup key = numToStr d)
    (hfull : d = numAllTask → s.numTaskFin = s.added) :
    Recorded numAllTask d s (s.record numAllTask zht).2 (s.record numAllTask zht).1 := by
  have hread : strToNum 64 (zht.lookup key) = d := by
    rw [hstored, strToNum_numToStr hd]
  cases hpoint : s.point with
  | top =>
    have hadded : s.added = s.prevNumTaskFin := added_of_ne (by simp [hpoint])
    by_cases hall : d = numAllTask
    · simp only [Scheduler.record, hpoint, hread, if_pos hall]
      refine recorded_of_quiet hstored (h.at_point _ (.inr (.inl rfl))) rfl ?_ fun _ => .inr hall
      rw [hadded, added_of_ne (by simp)]
    · simp only [Scheduler.record, hpoint, hread, if_neg hall]
      refine recorded_of_quiet hstored ⟨h.nonneg, h.le, ?_, ?_, ?_⟩ rfl ?_ .inl
      · rintro _ _ ⟨⟩
        exact hread.symm
      · rintro _ _ ⟨⟩
      · rintro ⟨⟩
      · rw [hadded, added_of_ne (by simp)]
  | looked str done =>
    have hdone := h.looked str done hpoint
    subst hdone
    simp only [Scheduler.record, hpoint]
    refine recorded_of_quiet hstored (h.attempt _) rfl ?_ .inl
    rw [added_of_ne (by simp [Scheduler.attempt]), added_of_ne (by simp [hpoint])]
    rfl
  | swap str new =>
    have hnew := h.swap str new hpoint
    have hadded : s.added = s.prevNumTaskFin := added_of_ne (by simp [hpoint])
    obtain ⟨hseen, hswap⟩ | ⟨-, hswap⟩ := zht.compareSwap_cases key str new
    · simp only [Scheduler.record, hpoint, hswap]
      refine ⟨h.at_point _ (.inr (.inr (.inl rfl))), rfl, ?_, ?_, .inl⟩
      · rw [Store.lookup_insert_self, hnew, hseen, hread, hadded]
        rfl
      · rw [hadded]
        exact h.le
    · simp only [Scheduler.record, hpoint, hswap]
      by_cases hempty : zht.lookup key = []
      · rw [if_pos hempty]
        refine recorded_of_quiet hstored (h.at_point _ (.inl rfl)) rfl ?_ .inl
        rw [hadded, added_of_ne (by simp)]
      · rw [if_neg hempty]
        exact h.retry hd hstored (by simp [hpoint]) hfull
  | again =>
    simp only [Scheduler.record, hpoint]
    exact h.retry hd hstored (by simp [hpoint]) hfull
  | assign swapped =>
    have hadded : s.added = s.numTaskFin := by
      cases swapped with
      | true => simp only [added, hpoint]
      | false => rw [added_of_ne (by simp [hpoint]), h.broke hpoint]
    simp only [Scheduler.record, hpoint]
    refine recorded_of_quiet hstored ⟨le_trans h.nonneg h.le, le_refl _, ?_, ?_, ?_⟩ rfl ?_ .inl
    · rintro _ _ ⟨⟩
    · rintro _ _ ⟨⟩
    · rintro ⟨⟩
    · rw [hadded, added_of_ne (by simp)]
  | left =>
    simp only [Scheduler.record, hpoint]
    exact recorded_of_quiet hstored h rfl rfl .inl

end Scheduler

/-! ### All schedulers -/

variable {numAllTask n : Nat}

/-- The shared number is what the schedulers have added. -/
structure Counted (numAllTask : Nat) (w : World n) : Prop where
  steady : ∀ i, (w.sched i).Steady
  stored : w.zht.lookup key = numToStr (∑ i, (w.sched i).added)
  contributed : ∀ i, w.contributed i = (w.sched i).added
  finished_le : w.finished ≤ numAllTask
  running : ∀ i, (w.sched i).running = false → w.finished = numAllTask

namespace Counted

variable {w : World n}

theorem added_nonneg (h : Counted numAllTask w) : 0 ≤ ∑ i, (w.sched i).added :=
  sum_nonneg fun i _ => (h.steady i).added_nonneg

theorem added_le (h : Counted numAllTask w) : ∑ i, (w.sched i).added ≤ w.finished :=
  sum_le_sum fun i _ => (h.steady i).added_le

theorem fits (h : Counted numAllTask w) (hall : Fits 64 numAllTask) :
    Fits 64 (∑ i, (w.sched i).added) := by
  have hnonneg := h.added_nonneg
  have hle := h.added_le
  have hfinished := h.finished_le
  obtain ⟨-, hlt⟩ := hall
  constructor <;> omega

theorem counter_eq (h : Counted numAllTask w) (hall : Fits 64 numAllTask) :
    w.counter = ∑ i, (w.sched i).added := by
  rw [World.counter, h.stored, strToNum_numToStr (h.fits hall)]

/-- When the shared number has reached `numAllTask`, no scheduler has anything
left to add. -/
theorem numTaskFin_eq (h : Counted numAllTask w) (hall : ∑ i, (w.sched i).added = numAllTask)
    (i : Fin n) :
    (w.sched i).numTaskFin = (w.sched i).added := by
  have hle := h.added_le
  have hfinished := h.finished_le
  have heq : ∑ i, (w.sched i).added = ∑ i, (w.sched i).numTaskFin := by
    unfold World.finished at hle hfinished
    omega
  exact ((sum_eq_sum_iff_of_le fun j _ => (h.steady j).added_le).mp heq i (mem_univ i)).symm

theorem fresh (numAllTask n : Nat) : Counted numAllTask (World.fresh n) := by
  refine ⟨fun i => ⟨le_refl _, le_refl _, ?_, ?_, ?_⟩, ?_, fun _ => rfl, ?_, ?_⟩
  · rintro _ _ ⟨⟩
  · rintro _ _ ⟨⟩
  · rintro ⟨⟩
  · have hsum : ∑ i, ((World.fresh n).sched i).added = 0 := sum_eq_zero fun _ _ => rfl
    rw [hsum]
    exact Store.lookup_insert_self ..
  · have hsum : (World.fresh n).finished = 0 := sum_eq_zero fun _ _ => rfl
    rw [hsum]
    exact Int.natCast_nonneg _
  · rintro i ⟨⟩

theorem finish (h : Counted numAllTask w) {i : Fin n} (hfree : (w.sched i).point.locked = false)
    (hlt : w.finished < numAllTask) :
    Counted numAllTask (w.finish i) ∧ (w.finish i).counter = w.counter := by
  obtain ⟨hsteady, hadded⟩ := (h.steady i).finish hfree
  have hsame : ∀ j, ((w.finish i).sched j).added = (w.sched j).added :=
    apply_update_eq hadded
  have hfinished : (w.finish i).finished = w.finished + 1 := by
    rw [World.finished, sum_eq_add_of_ne (g := fun j => (w.sched j).numTaskFin) i]
    · simp only [World.finish, update_self, World.finished]
      omega
    · intro j hj
      simp only [World.finish, update_of_ne hj]
  refine ⟨⟨?_, ?_, ?_, ?_, ?_⟩, rfl⟩
  · intro j
    by_cases hj : j = i
    · subst hj
      simp only [World.finish, update_self]
      exact hsteady
    · simp only [World.finish, update_of_ne hj]
      exact h.steady j
  · rw [sum_congr rfl fun j _ => hsame j]
    exact h.stored
  · intro j
    rw [hsame j]
    exact h.contributed j
  · omega
  · intro j hrunning
    have hkeep : ((w.finish i).sched j).running = (w.sched j).running := by
      refine apply_update_eq ?_ j
      rfl
    have hall := h.running j (hkeep ▸ hrunning)
    omega

/-- A step of the recording thread keeps the counts, and the shared counter never falls. -/
theorem record (h : Counted numAllTask w) (hall : Fits 64 numAllTask) (i : Fin n) :
    Counted numAllTask (w.record numAllTask i) ∧ w.counter ≤ (w.record numAllTask i).counter := by
  obtain ⟨hsteady, hfin, hstored, hle, hrunning⟩ :=
    (h.steady i).record (h.fits hall) h.stored fun heq => h.numTaskFin_eq heq i
  have hcounter := h.counter_eq hall
  generalize hr : (w.sched i).record numAllTask w.zht = r at hsteady hfin hstored hle hrunning
  obtain ⟨zht, s⟩ := r
  simp only at hsteady hfin hstored hle hrunning
  have hw : w.record numAllTask i =
      { zht
        sched := update w.sched i s
        contributed := update w.contributed i
          (w.contributed i + (strToNum 64 (zht.lookup key) - w.counter)) } := by
    simp only [World.record, hr]
  rw [hw]
  have hsum : ∑ j, (update w.sched i s j).added =
      ∑ j, (w.sched j).added + (s.added - (w.sched i).added) := by
    rw [sum_eq_add_of_ne (g := fun j => (w.sched j).added) i]
    · rw [update_self]
    · intro j hj
      rw [update_of_ne hj]
  have hfinished : ∑ j, (update w.sched i s j).numTaskFin = w.finished :=
    sum_congr rfl fun j _ => apply_update_eq hfin j
  have hbound : ∀ j, (update w.sched i s j).Steady := by
    intro j
    by_cases hj : j = i
    · subst hj
      rw [update_self]
      exact hsteady
    · rw [update_of_ne hj]
      exact h.steady j
  have hread :
    strToNum 64 (zht.lookup key) = ∑ j, (w.sched j).added + (s.added - (w.sched i).added) := by
    rw [hstored]
    refine strToNum_numToStr ?_
    have hle' : ∑ j, (update w.sched i s j).added ≤
        ∑ j, (update w.sched i s j).numTaskFin :=
      sum_le_sum fun j _ => (hbound j).added_le
    have hfits := (h.fits hall).1
    have hlt := hall.2
    have hmax := h.finished_le
    constructor <;> omega
  refine ⟨⟨hbound, ?_, ?_, ?_, ?_⟩, ?_⟩
  · rw [hsum]
    exact hstored
  · intro j
    by_cases hj : j = i
    · subst hj
      have hcontributed := h.contributed j
      simp only [update_self]
      omega
    · simp only [update_of_ne hj]
      exact h.contributed j
  · exact hfinished.trans_le h.finished_le
  · intro j hj
    refine hfinished.trans ?_
    by_cases hji : j = i
    · subst hji
      simp only [update_self] at hj
      obtain hfalse | heq := hrunning hj
      · exact h.running j hfalse
      · have hle' := h.added_le
        have hmax := h.finished_le
        omega
    · simp only [update_of_ne hji] at hj
      exact h.running j hj
  · have : w.counter ≤ strToNum 64 (zht.lookup key) := by omega
    exact this

theorem step (h : Counted numAllTask w) (hall : Fits 64 numAllTask) {e : Event n} {w' : World n}
    (hok : AtMost numAllTask w e) (hstep : (system numAllTask n).step w e w') :
    Counted numAllTask w' ∧ w.counter ≤ w'.counter := by
  cases e with
  | finish i =>
    obtain ⟨hfree, rfl⟩ := hstep
    obtain ⟨h', heq⟩ := h.finish hfree hok
    exact ⟨h', le_of_eq heq.symm⟩
  | record i =>
    obtain rfl := hstep
    exact h.record hall i

end Counted

/-- **The counter counts each finished task once.** In every state of every run
the shared number is the sum of what the schedulers have added, and no step
lowers it; it is at most the number of tasks finished, and a scheduler has left
its loop only when all tasks have. -/
theorem counter_counts_once (hall : Fits 64 numAllTask) {w : World n}
    (hrun : (system numAllTask n).RunsWith (AtMost numAllTask) w) :
    w.counter = ∑ i, w.contributed i ∧ (∀ i, w.contributed i = (w.sched i).added) ∧
      (∀ e w', AtMost numAllTask w e → (system numAllTask n).step w e w' → w.counter ≤ w'.counter) ∧
      w.counter ≤ w.finished ∧ ∀ i, (w.sched i).running = false → w.finished = numAllTask := by
  have h : Counted numAllTask w := by
    refine hrun.invariant ?_ ?_
    · rintro w rfl
      exact .fresh numAllTask n
    · exact fun w e w' h hok hstep => (h.step hall hok hstep).1
  have hcounter := h.counter_eq hall
  refine ⟨?_, h.contributed, fun e w' hok hstep => (h.step hall hok hstep).2, ?_, h.running⟩
  · rw [hcounter]
    exact sum_congr rfl fun i _ => (h.contributed i).symm
  · rw [hcounter]
    exact h.added_le

/-- The state after a list of events, when each may happen. -/
def World.after (numAllTask : Nat) : World n → List (Event n) → Option (World n)
  | w, [] => some w
  | w, .finish i :: l =>
    if (w.sched i).point.locked = false ∧
      w.finished < numAllTask then (w.finish i).after numAllTask l else none
  | w, .record i :: l => (w.record numAllTask i).after numAllTask l

theorem runsWith_after {l : List (Event n)} {w w' : World n}
    (hrun : (system numAllTask n).RunsWith (AtMost numAllTask) w)
    (h : w.after numAllTask l = some w') :
    (system numAllTask n).RunsWith (AtMost numAllTask) w' := by
  induction l generalizing w with
  | nil =>
    cases h
    exact hrun
  | cons e l ih =>
    cases e with
    | finish i =>
      rw [World.after] at h
      split at h
      · next hok => exact ih (.step hrun (e := .finish i) hok.2 ⟨hok.1, rfl⟩) h
      · cases h
    | record i => exact ih (.step hrun (e := .record i) trivial rfl) h

/-- Two schedulers with a task each that meet in the swap loop: the swap of the
first one makes that of the second one fail. -/
def meeting : List (Event 2) :=
  [.finish 0, .finish 1, .record 0, .record 1, .record 0, .record 1, .record 0, .record 1,
  .record 1, .record 0,
    .record 0]

theorem counter_counts_once_meeting :
    ∃ w : World 2, (system 2 2).RunsWith (AtMost 2) w ∧ (w.sched 0).running = false ∧
    w.finished = 2 ∧
      w.counter = ∑ i, w.contributed i := by
  have hafter :
    (((World.fresh 2).after 2 meeting).map fun w => (w.sched 0).running) = some false := by
    decide +kernel
  obtain ⟨w, hw, hleft⟩ := Option.map_eq_some_iff.mp hafter
  have hrun := runsWith_after (.init rfl) hw
  have h := counter_counts_once (by decide) hrun
  exact ⟨w, hrun, hleft, h.2.2.2.2 0 hleft, h.1⟩

end Recording

end CharmRuntime.Matrix
