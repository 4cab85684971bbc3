import CharmRuntime.Lib.Outcome
import CharmRuntime.Lib.Transition
import CharmRuntime.Matrix.Value
import Mathlib.Data.List.Induction

/-!
# Matrix.Notify

Telling the children of a finished task: `notify_children`.

For every child the run reads the child's record, takes one off its indegree,
appends the scheduler, the name and the size of the parent's data, and tries to
swap the new record in; when another run was faster it starts again from the
record the swap reports. A run is at one of the `Point`s between its calls of
the store. `Run.next` is its next atomic step; it ends the process where
`str_to_value` does.

The states here hold the store and any number of runs. They also keep the swaps
that have succeeded, in order, as pairs of a child and the run that notified it:
this is what the records are compared with.
-/

namespace CharmRuntime.Matrix

open Lib List

/-- A finished task. -/
structure CmpQueueItem where
  taskId : Text
  key : Text
  dataSize : Int
  deriving DecidableEq

namespace Notify

/-- What a run of `notify_children` is called with, and the `get_id()` of the
scheduler it runs on. -/
structure Parent where
  schedulerId : Text
  cqItem : CmpQueueItem
  deriving DecidableEq

end Notify

/-- The record of a child, one parent later. -/
def Value.notified (childVal : Value) (parent : Notify.Parent) : Value :=
  { childVal with
    indegree := some (childVal.indegree.getD 0 - 1)
    parents := childVal.parents ++ [parent.schedulerId]
    datanamelist := childVal.datanamelist ++ [parent.cqItem.key]
    datasize := childVal.datasize ++ [parent.cqItem.dataSize]
    alldatasize := some (childVal.alldatasize.getD 0 + parent.cqItem.dataSize) }

namespace Notify

/-- Where a run stands, with the locals it still needs. -/
inductive Point where
  /-- Before the `lookup` of the task's own record. -/
  | start
  /-- At the top of the loop, with the children still to be notified. -/
  | child (rest : List Text)
  /-- Before a `compare_swap` of the record of `childTaskId`. -/
  | swap (childTaskId : Text) (rest : List Text) (childTaskDetail childTaskDetailAttempt : Text)
  /-- Before the `lookup` that follows a failed swap with an empty answer. -/
  | again (childTaskId : Text) (rest : List Text)
  deriving DecidableEq

structure Run where
  parent : Parent
  point : Point := .start
  deriving DecidableEq

/-- Edit the record that was read, and get ready to swap it in. -/
def Parent.attempt (parent : Parent) (childTaskId : Text) (rest : List Text)
    (childTaskDetail : Text) :
    Except Exit Point := do
  let childVal ← strToValue childTaskDetail
  return .swap childTaskId rest childTaskDetail (valueToStr (childVal.notified parent))

/-- The next atomic step: the store afterwards, the child whose record was
swapped, and where the run stands then. -/
def Run.next (zht : Store) (r : Run) : Except Exit (Store × Option Text × Point) :=
  match r.point with
  | .start => do
      let value ← strToValue (zht.lookup r.parent.cqItem.taskId)
      return (zht, none, .child value.children)
  | .child [] => return (zht, none, .child [])
  | .child (childTaskId :: rest) => do
      let p ← r.parent.attempt childTaskId rest (zht.lookup childTaskId)
      return (zht, none, p)
  | .swap childTaskId rest childTaskDetail childTaskDetailAttempt =>
    match zht.compareSwap childTaskId childTaskDetail childTaskDetailAttempt with
    | (zht', true, _) => return (zht', some childTaskId, .child rest)
    | (zht', false, queryValue) =>
      if queryValue = [] then return (zht', none, .again childTaskId rest)
      else do
        let p ← r.parent.attempt childTaskId rest queryValue
        return (zht', none, p)
  | .again childTaskId rest => do
      let p ← r.parent.attempt childTaskId rest (zht.lookup childTaskId)
      return (zht, none, p)

/-- A child and the run that notifies it. -/
abbrev Notice := Text × Parent

structure World where
  zht : Store
  runs : List Run
  /-- The swaps that have succeeded, in order. -/
  log : List Notice

namespace World

/-- The `k`-th run moves on. -/
def next (w : World) (k : Nat) : Except Exit World :=
  match w.runs[k]? with
  | none => .ok w
  | some r => do
      let (zht, swapped, point) ← r.next w.zht
      return { zht
               runs := w.runs.set k { r with point }
               log := w.log ++ swapped.toList.map fun c => (c, r.parent) }

end World

/-- The records in the store before any child is notified. -/
abbrev Records := Text → Option Value

/-- The store that holds these records. -/
def Records.store (recs : Records) : Store := fun key => (recs key).elim [] valueToStr

/-- The runs of a set of finished tasks, none of which has started. -/
def World.fresh (recs : Records) (parents : List Parent) : World where
  zht := recs.store
  runs := parents.map fun parent => { parent }
  log := []

def system (recs : Records) (parents : List Parent) : Transition World Nat where
  init w := w = World.fresh recs parents
  step w k w' := w.next k = .ok w'

/-! ### What is still to be notified -/

/-- The children of a run that have not been notified yet. -/
def Run.owed (recs : Records) (r : Run) : List Text :=
  match r.point with
  | .start => ((recs r.parent.cqItem.taskId).map (·.children)).getD []
  | .child rest => rest
  | .swap childTaskId rest _ _ => childTaskId :: rest
  | .again childTaskId rest => childTaskId :: rest

def Run.owedNotices (recs : Records) (r : Run) :
    List Notice := (r.owed recs).map fun c => (c, r.parent)

/-- All notices, those given and those owed. -/
def World.notices (recs : Records) (w : World) :
    List Notice := w.log ++ w.runs.flatMap (·.owedNotices recs)

/-- The runs that have notified `c`, in order. -/
def World.notifiers (w : World) (c : Text) : List Parent :=
  (w.log.filter (·.1 = c)).map (·.2)

/-! ### Records after some notices -/

/-- `v` is the record `v₀` after the notices of `ps`. -/
structure Notified (v₀ v : Value) (ps : List Parent) : Prop where
  indegree : v.indegree.getD 0 = v₀.indegree.getD 0 - ps.length
  parents : v.parents = v₀.parents ++ ps.map (·.schedulerId)
  datanamelist : v.datanamelist = v₀.datanamelist ++ ps.map (·.cqItem.key)
  datasize : v.datasize = v₀.datasize ++ ps.map (·.cqItem.dataSize)
  alldatasize : v.alldatasize.getD 0 = v₀.alldatasize.getD 0 + (ps.map (·.cqItem.dataSize)).sum
  others : { v with
    indegree := v₀.indegree
    parents := v₀.parents
    datanamelist := v₀.datanamelist
    datasize := v₀.datasize
    alldatasize := v₀.alldatasize } = v₀

theorem notified_foldl (v₀ : Value) (ps : List Parent) :
    Notified v₀ (ps.foldl Value.notified v₀) ps := by
  induction ps using reverseRecOn with
  | nil =>
    refine ⟨?_, ?_, ?_, ?_, ?_, rfl⟩
    all_goals simp
  | append_singleton ps p ih =>
    obtain ⟨hindegree, hparents, hname, hsize, hall, hothers⟩ := ih
    rw [foldl_append, foldl_cons, foldl_nil]
    refine ⟨?_, ?_, ?_, ?_, ?_, hothers⟩
    · simp only [Value.notified, Option.getD_some, length_append, length_singleton]
      omega
    · simp only [Value.notified, hparents, map_append, map_cons, map_nil, append_assoc]
    · simp only [Value.notified, hname, map_append, map_cons, map_nil, append_assoc]
    · simp only [Value.notified, hsize, map_append, map_cons, map_nil, append_assoc]
    · simp only [Value.notified, Option.getD_some, map_append, map_cons, map_nil,
        sum_append, sum_cons, sum_nil]
      omega

/-- Names that can stand in a record, and a size below 2³¹. -/
structure Parent.Ok (parent : Parent) : Prop where
  schedulerId : Clean parent.schedulerId
  key : Clean parent.cqItem.key
  dataSize : Fits 32 parent.cqItem.dataSize

/-- Records that can be read, with sizes below 2³¹. -/
structure Small (v : Value) : Prop where
  wellFormed : v.WellFormed
  indegree : Fits 32 (v.indegree.getD 0)
  alldatasize : Fits 32 (v.alldatasize.getD 0)

theorem sum_bounds {l : List Int} (h : ∀ n ∈ l, Fits 32 n) :
    -(2 ^ 31 * (l.length : Int)) ≤ l.sum ∧ l.sum ≤ 2 ^ 31 * (l.length : Int) := by
  induction l with
  | nil => simp
  | cons n l ih =>
    obtain ⟨hlow, hhigh⟩ := ih fun m hm => h m (mem_cons_of_mem n hm)
    obtain ⟨hn, hn'⟩ := h n mem_cons_self
    simp only [sum_cons, length_cons, Int.natCast_add]
    constructor <;> omega

theorem Small.wellFormed_foldl {v₀ : Value} (h : Small v₀) {ps : List Parent} (hps : ∀ p ∈ ps, p.Ok)
    (hfew : ps.length ≤ 2 ^ 31) : (ps.foldl Value.notified v₀).WellFormed := by
  have hn := notified_foldl v₀ ps
  generalize ps.foldl Value.notified v₀ = v at hn
  obtain ⟨hindegree, hparents, hname, hsize, hall, hothers⟩ := hn
  have hwf := h.wellFormed
  have hsizes : ∀ n ∈ ps.map (·.cqItem.dataSize), Fits 32 n := by
    intro n hn
    obtain ⟨p, hp, rfl⟩ := mem_map.mp hn
    exact (hps p hp).dataSize
  have hin : ∀ n, v.indegree = some n → Fits 64 n := by
    intro n hn
    obtain ⟨hlow, hhigh⟩ := h.indegree
    rw [hn, Option.getD_some] at hindegree
    constructor <;> omega
  have hall' : ∀ n, v.alldatasize = some n → Fits 64 n := by
    intro n hn
    obtain ⟨hlow, hhigh⟩ := h.alldatasize
    obtain ⟨hsum, hsum'⟩ := sum_bounds hsizes
    rw [length_map] at hsum hsum'
    rw [hn, Option.getD_some] at hall
    constructor <;> omega
  rw [← hothers] at hwf
  refine ⟨hwf.id, ?_, hwf.children, ?_, ?_, ?_, hwf.ints⟩
  · rw [hparents]
    intro t ht
    obtain ht | ht := mem_append.mp ht
    · exact h.wellFormed.parents t ht
    · obtain ⟨p, hp, rfl⟩ := mem_map.mp ht
      exact (hps p hp).schedulerId
  · rw [hname]
    intro t ht
    obtain ht | ht := mem_append.mp ht
    · exact h.wellFormed.datanamelist t ht
    · obtain ⟨p, hp, rfl⟩ := mem_map.mp ht
      exact (hps p hp).key
  · rw [hsize]
    intro n hn
    obtain hn | hn := mem_append.mp hn
    · exact h.wellFormed.datasize n hn
    · obtain ⟨hlow, hhigh⟩ := hsizes n hn
      constructor <;> omega
  · intro o ho
    obtain rfl | ho := mem_cons.mp ho
    · exact hin
    · obtain rfl | ho := mem_cons.mp ho
      · exact hall'
      · exact hwf.longs o (mem_cons_of_mem _ (mem_cons_of_mem _ ho))

end Notify

end CharmRuntime.Matrix
