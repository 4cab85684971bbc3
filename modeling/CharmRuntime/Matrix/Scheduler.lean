import CharmRuntime.Lib.Flow
import CharmRuntime.Matrix.NotifySound

/-!
# Matrix.Scheduler

The **schedulers and the tasks on their way**.

A task arrives from the client in the `waitQueue` of a scheduler. The thread of
`checking_ready_task` takes the tasks of this queue in turn; a task whose record
has indegree 0 goes to the `wsQueue`, to the `localQueue`, or as a message to
the scheduler that holds most of its data, any other back to the end of the
queue. `localQueue_monitor` moves tasks from a long `localQueue` to the `wsQueue`,
half of a `wsQueue` is sent to a scheduler that steals, the threads of
`executing_task` take tasks from both queues, run them and put them in the
`completeQueue`, and `checking_complete_task` takes them from there and notifies
their children.

A state holds the queues and what the threads of every scheduler hold, the
messages, and the runs of `notify_children`. Every mutex-protected section, every
queue call outside one and every call of the store is a step of its own. The two
priority queues are lists of which `Pops` says what may be taken first: tasks of
equal priority come out in any order. Times, counters of messages and the data
that tasks exchange are left out; of `localData`, which decides where a ready
task goes, the keys are kept, and the threads that fetch data may add any key at
any moment.
-/

namespace CharmRuntime.Matrix

open Lib

/-- The `TaskMsg` message. -/
structure TaskMsg where
  taskid : Text
  user : Text := []
  dir : Text := []
  cmd : Text := []
  datalength : Int := 0
  deriving DecidableEq

/-- What `task_ready_process` and `send_batch_tasks` read of the configuration;
the two flags are those of the build. -/
structure Config where
  dataSizeThreshold : Int
  maxTaskPerPkg : Nat
  /-- `DATA_CACHE`. -/
  cache : Bool
  /-- `ZHT_STORAGE`. -/
  zhtStorage : Bool

/-- `HighPriorityByDataSize`: `t` comes out after `u`. -/
def highPriorityByDataSize (t u : TaskMsg) : Bool := u.datalength < t.datalength

/-- `taken` are tops of the priority queue, in the order in which they come out,
and `rest` is what is left. -/
def Pops (queue taken rest : List TaskMsg) : Prop :=
  queue.Perm (taken ++ rest) ∧ taken.Pairwise (fun t u => highPriorityByDataSize t u = false) ∧
    ∀ t ∈ taken, ∀ u ∈ rest, highPriorityByDataSize t u = false

instance (queue taken rest : List TaskMsg) : Decidable (Pops queue taken rest) :=
  inferInstanceAs (Decidable (_ ∧ _))

/-- What `task_ready_process` does with a ready task: flag 0, 1 or 2. -/
inductive Placing where
  | wsQueue (tm : TaskMsg)
  | localQueue (tm : TaskMsg)
  | push (maxDataScheduler : Text) (tm : TaskMsg)
  deriving DecidableEq

/-- The largest piece of data: its size, its scheduler and its key. -/
def maxData (value : Value) : Int × Text × Text :=
  (List.range value.datasize.length).foldl
    (fun best i =>
      if value.datasize.getD i 0 > best.1 then
        (value.datasize.getD i 0, value.parents.getD i [], value.datanamelist.getD i [])
      else best)
    (-1000000, [], [])

/-- `task_ready_process` on the scheduler `id`. -/
def taskReadyProcess (config : Config) (id : Text) (localData : List Text) (value : Value)
    (tm : TaskMsg) :
    Placing :=
  let alldatasize := value.alldatasize.getD 0
  if config.zhtStorage then .wsQueue { tm with datalength := alldatasize }
  else if alldatasize ≤ config.dataSizeThreshold then .wsQueue { tm with datalength := alldatasize }
  else
    let (maxDataSize, maxDataScheduler, key) := maxData value
    let tm := { tm with datalength := maxDataSize }
    if maxDataScheduler = id then .localQueue tm
    else if config.cache ∧ key ∈ localData then .localQueue tm
    else .push maxDataScheduler tm

/-- The thread of `checking_ready_task`. -/
inductive Checker where
  | idle
  /-- Between `front()` and `pop_front()`. -/
  | peeked (tm : TaskMsg)
  /-- Before the `lookup` of `check_a_ready_task`. -/
  | checking (tm : TaskMsg)
  /-- Not ready: before `push_back`. -/
  | unready (tm : TaskMsg)
  /-- Ready, with the record that was read: in `task_ready_process`. -/
  | ready (tm : TaskMsg) (value : Value)
  /-- Before the push to the `wsQueue`. -/
  | toWs (tm : TaskMsg)
  /-- Before the push to the `localQueue`. -/
  | toLocal (tm : TaskMsg)
  deriving DecidableEq

/-- A thread of `executing_task` that has a task. -/
inductive Executor where
  /-- Before the `lookup` of `exec_a_task`. -/
  | popped (tm : TaskMsg)
  /-- Before the command is run. -/
  | running (tm : TaskMsg) (value : Value)
  /-- Before the push to the `completeQueue`. -/
  | executed (cqItem : CmpQueueItem)
  deriving DecidableEq

/-- A `MatrixScheduler` with what its threads hold. -/
structure Scheduler where
  id : Text
  waitQueue : List TaskMsg := []
  localQueue : List TaskMsg := []
  wsQueue : List TaskMsg := []
  completeQueue : List CmpQueueItem := []
  localData : List Text := []
  checker : Checker := .idle
  executors : List Executor := []
  /-- `vecMigrated`, between the two sections of `localQueue_monitor`. -/
  vecMigrated : List TaskMsg := []
  deriving DecidableEq

/-- Who sends a batch, and so which queue it goes to. -/
inductive Sender where
  | client
  | scheduler
  deriving DecidableEq

/-- The tasks of a `send_batch_tasks` that the receiver has not queued yet, in
the message or in its hands. -/
structure Batch where
  sender : Sender
  /-- The index of the receiver. -/
  receiver : Nat
  tasks : List TaskMsg
  deriving DecidableEq

namespace Scheduler

/-- A step of the thread of `checking_ready_task` on the scheduler `s`: the
scheduler afterwards, and the message it sends. -/
def checkingReadyTask (config : Config) (zht : Store) (s : Scheduler) :
    Except Exit (Scheduler × Option (Text × TaskMsg)) :=
  match s.checker with
  | .idle =>
    match s.waitQueue with
    | [] => return (s, none)
    | tm :: _ => return ({ s with checker := .peeked tm }, none)
  | .peeked tm => return ({ s with waitQueue := s.waitQueue.tail, checker := .checking tm }, none)
  | .checking tm => do
      let value ← strToValue (zht.lookup tm.taskid)
      if value.indegree.getD 0 = 0 then return ({ s with checker := .ready tm value }, none)
      else return ({ s with checker := .unready tm }, none)
  | .unready tm => return ({ s with waitQueue := s.waitQueue ++ [tm], checker := .idle }, none)
  | .ready tm value =>
    match taskReadyProcess config s.id s.localData value tm with
    | .wsQueue tm => return ({ s with checker := .toWs tm }, none)
    | .localQueue tm => return ({ s with checker := .toLocal tm }, none)
    | .push maxDataScheduler tm => return ({ s with checker := .idle }, some (maxDataScheduler, tm))
  | .toWs tm => return ({ s with wsQueue := s.wsQueue ++ [tm], checker := .idle }, none)
  | .toLocal tm => return ({ s with localQueue := s.localQueue ++ [tm], checker := .idle }, none)

/-- A step of `exec_a_task` in the `k`-th thread of the scheduler `s`: the scheduler
afterwards, and the task whose command was run. -/
def execATask (zht : Store) (s : Scheduler) (k : Nat) : Except Exit (Scheduler × Option Text) :=
  match s.executors[k]? with
  | none => return (s, none)
  | some (.popped tm) => do
      let value ← strToValue (zht.lookup tm.taskid)
      return ({ s with executors := s.executors.set k (.running tm value) }, none)
  | some (.running tm value) =>
    let key := s.id ++ tm.taskid
    let cqItem := { taskId := tm.taskid, key, dataSize := value.outputsize.getD 0 }
    return ({ s with
              localData := key :: s.localData
              executors := s.executors.set k (.executed cqItem) }, some tm.taskid)
  | some (.executed cqItem) =>
    return ({ s with
              completeQueue := s.completeQueue ++ [cqItem]
              executors := s.executors.eraseIdx k }, none)

/-- The next package of a batch is queued. `recv_task_from_client` reads the
records of the tasks first. -/
def recvTask (config : Config) (zht : Store) (s : Scheduler) (b : Batch) : Except Exit Scheduler :=
  let tmVec := b.tasks.take config.maxTaskPerPkg
  match b.sender with
  | .client => do
      let _ ← tmVec.mapM fun tm => strToValue (zht.lookup tm.taskid)
      return { s with waitQueue := s.waitQueue ++ tmVec }
  | .scheduler => return { s with wsQueue := s.wsQueue ++ tmVec }

end Scheduler

namespace Scheduling

structure World where
  notify : Notify.World
  schedulers : List Scheduler
  /-- "scheduler push task" messages, with their receivers. -/
  pushes : List (Text × TaskMsg)
  batches : List Batch
  /-- The tasks submitted so far. -/
  submitted : List Text
  /-- The tasks whose command was run, in order. -/
  executed : List Text

/-- The atomic steps. An index `i` is that of the scheduler that moves. -/
inductive Event where
  /-- The client sends tasks to a scheduler. -/
  | submit (i : Nat) (tasks : List TaskMsg)
  /-- `recv_task_from_client` or `recv_task_from_scheduler` queues the next package. -/
  | recvBatch (k : Nat)
  /-- `checking_ready_task`: the thread moves on. -/
  | check (i : Nat)
  /-- `send_task`: `taskVec` leaves the `wsQueue` for the scheduler `thief`. -/
  | sendTask (i thief : Nat) (taskVec rest : List TaskMsg)
  | recvPushingTask (k i : Nat)
  /-- The first section of `localQueue_monitor`. -/
  | monitor (i : Nat) (vecRemain vecMigrated : List TaskMsg)
  /-- The second section of `localQueue_monitor`. -/
  | migrate (i : Nat)
  /-- `executing_task` takes a task from the `localQueue`. -/
  | takeLocal (i : Nat) (tm : TaskMsg) (rest : List TaskMsg)
  /-- `executing_task` takes a task from the `wsQueue`. -/
  | takeWs (i : Nat) (tm : TaskMsg) (rest : List TaskMsg)
  /-- `exec_a_task`: the thread moves on. -/
  | exec (i k : Nat)
  /-- A thread stores a piece of data. -/
  | storeData (i : Nat) (key : Text)
  /-- `checking_complete_task` takes a task and calls `notify_children`. -/
  | complete (i : Nat)
  /-- A run of `notify_children` moves on. -/
  | notify (k : Nat)

namespace World

def setScheduler (w : World) (i : Nat) (s : Scheduler) : World :=
  { w with schedulers := w.schedulers.set i s }

/-- A step of the whole system. -/
def next (config : Config) (w : World) : Event → Except Exit World
  | .submit i tasks =>
    return { w with
             batches := w.batches ++ [{ sender := .client, receiver := i, tasks }]
             submitted := w.submitted ++ tasks.map (·.taskid) }
  | .recvBatch k =>
    match w.batches[k]? with
    | none => return w
    | some b =>
      match w.schedulers[b.receiver]? with
      | none => return w
      | some s => do
          let s' ← s.recvTask config w.notify.zht b
          return { w.setScheduler b.receiver s' with
                   batches := w.batches.set k { b with tasks := b.tasks.drop config.maxTaskPerPkg }
                     }
  | .check i =>
    match w.schedulers[i]? with
    | none => return w
    | some s => do
        let (s', message) ← s.checkingReadyTask config w.notify.zht
        return { w.setScheduler i s' with pushes := w.pushes ++ message.toList }
  | .sendTask i thief taskVec rest =>
    match w.schedulers[i]? with
    | none => return w
    | some s =>
      return { w.setScheduler i { s with wsQueue := rest } with
               batches := w.batches ++
                 [{ sender := .scheduler, receiver := thief, tasks := taskVec }] }
  | .recvPushingTask k i =>
    match w.schedulers[i]?, w.pushes[k]? with
    | some s, some (_, tm) =>
      return { w.setScheduler i { s with localQueue := s.localQueue ++ [tm] } with
               pushes := w.pushes.eraseIdx k }
    | _, _ => return w
  | .monitor i vecRemain vecMigrated =>
    match w.schedulers[i]? with
    | none => return w
    | some s => return w.setScheduler i { s with localQueue := vecRemain, vecMigrated }
  | .migrate i =>
    match w.schedulers[i]? with
    | none => return w
    | some s =>
      return w.setScheduler i { s with wsQueue := s.wsQueue ++ s.vecMigrated, vecMigrated := [] }
  | .takeLocal i tm rest =>
    match w.schedulers[i]? with
    | none => return w
    | some s =>
      return w.setScheduler i
        { s with localQueue := rest, executors := s.executors ++ [.popped tm] }
  | .takeWs i tm rest =>
    match w.schedulers[i]? with
    | none => return w
    | some s =>
      return w.setScheduler i { s with wsQueue := rest, executors := s.executors ++ [.popped tm] }
  | .exec i k =>
    match w.schedulers[i]? with
    | none => return w
    | some s => do
        let (s', run) ← s.execATask w.notify.zht k
        return { w.setScheduler i s' with executed := w.executed ++ run.toList }
  | .storeData i key =>
    match w.schedulers[i]? with
    | none => return w
    | some s => return w.setScheduler i { s with localData := key :: s.localData }
  | .complete i =>
    match w.schedulers[i]? with
    | none => return w
    | some s =>
      match s.completeQueue with
      | [] => return w
      | cqItem :: rest =>
        return { w.setScheduler i { s with completeQueue := rest } with
                 notify := { w.notify with
                             runs := w.notify.runs ++
                               [{ parent := { schedulerId := s.id, cqItem } }] } }
  | .notify k => do
      let notify ← w.notify.next k
      return { w with notify }

/-- When a step may happen: the queues hold what is taken from them, half of a
`wsQueue` is stolen, and a message is received by the scheduler it was sent to. -/
def enabled (w : World) : Event → Bool
  | .sendTask i _ taskVec rest =>
    w.schedulers[i]?.any fun s => Pops s.wsQueue taskVec rest ∧
    taskVec.length = s.wsQueue.length / 2
  | .recvPushingTask k i => w.schedulers[i]?.any fun s => w.pushes[k]?.any fun m => m.1 = s.id
  | .monitor i vecRemain vecMigrated =>
    w.schedulers[i]?.any fun s => s.vecMigrated = [] ∧ vecRemain ≠ [] ∧ vecMigrated ≠ [] ∧
      Pops s.localQueue (vecRemain ++ vecMigrated) []
  | .takeLocal i tm rest => w.schedulers[i]?.any fun s => Pops s.localQueue [tm] rest
  | .takeWs i tm rest => w.schedulers[i]?.any fun s => Pops s.wsQueue [tm] rest
  | _ => true

/-- Schedulers with these ids, before any task is submitted. -/
def fresh (recs : Notify.Records) (ids : List Text) : World where
  notify := Notify.World.fresh recs []
  schedulers := ids.map fun id => { id }
  pushes := []
  batches := []
  submitted := []
  executed := []

end World

/-- All interleavings. -/
def system (config : Config) (recs : Notify.Records) (ids : List Text) :
    Transition World Event where
  init w := w = World.fresh recs ids
  step w e w' := w.enabled e = true ∧ w.next config e = .ok w'

/-- The client submits tasks that have a record, each once. -/
def SubmitsOnce (recs : Notify.Records) (w : World) : Event → Prop
  | .submit _ tasks =>
    (w.submitted ++ tasks.map (·.taskid)).Nodup ∧ ∀ tm ∈ tasks, (recs tm.taskid).isSome = true
  | _ => True

instance (recs : Notify.Records) (w : World) (e : Event) : Decidable (SubmitsOnce recs w e) :=
  match e with
  | .submit _ _ => inferInstanceAs (Decidable (_ ∧ _))
  | .recvBatch _ | .check _ | .sendTask .. | .recvPushingTask .. | .monitor .. | .migrate
    _ | .takeLocal ..
  | .takeWs .. | .exec .. | .storeData .. | .complete _ | .notify _ => isTrue trivial

/-! ### Where the tasks are -/

end Scheduling

/-- The task a checking thread holds. -/
def Checker.tokens : Checker → List (Stage × Text)
  | idle | peeked _ => []
  | checking tm | unready tm => [(.waiting, tm.taskid)]
  | ready tm _ | toWs tm | toLocal tm => [(.ready, tm.taskid)]

/-- The task an executing thread holds. -/
def Executor.token : Executor → Stage × Text
  | popped tm | running tm _ => (.ready, tm.taskid)
  | executed cqItem => (.done, cqItem.taskId)

/-- The tasks in the queues of a scheduler and in the hands of its threads. -/
def Scheduler.tokens (s : Scheduler) : List (Stage × Text) :=
  s.waitQueue.map (fun tm => (.waiting, tm.taskid)) ++ s.checker.tokens ++
    s.localQueue.map (fun tm => (.ready, tm.taskid)) ++
    s.wsQueue.map (fun tm => (.ready, tm.taskid)) ++
    s.vecMigrated.map (fun tm => (.ready, tm.taskid)) ++ s.executors.map Executor.token ++
    s.completeQueue.map fun cqItem => (.done, cqItem.taskId)

/-- The tasks of a client wait, stolen ones are ready. -/
def Batch.tokens (b : Batch) : List (Stage × Text) :=
  let stage := match b.sender with
    | .client => Stage.waiting
    | .scheduler => Stage.ready
  b.tasks.map fun tm => (stage, tm.taskid)

namespace Scheduling

/-- All places: the schedulers, the messages, and the tasks whose children are
being or have been notified. -/
def World.tokens (w : World) : List (Stage × Text) :=
  w.schedulers.flatMap Scheduler.tokens ++ w.pushes.map (fun m => (.ready, m.2.taskid)) ++
    w.batches.flatMap Batch.tokens ++ w.notify.runs.map fun r => (.done, r.parent.cqItem.taskId)

/-- What the schedulers do with the tasks, seen as a flow. -/
def World.flow (w : World) : Flow Text where
  tokens := w.tokens
  submitted := w.submitted
  executed := w.executed

end Scheduling

end CharmRuntime.Matrix
