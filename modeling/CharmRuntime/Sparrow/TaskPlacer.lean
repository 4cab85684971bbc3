import Mathlib.Data.Rat.Floor
import Mathlib.Data.Finset.Insert
import CharmRuntime.Lib.CountMap
import CharmRuntime.Lib.Transition

/-!
# Sparrow.TaskPlacer

The scheduler's side of Sparrow: `UnconstrainedTaskPlacer`, `ConstrainedTaskPlacer` and what
`Scheduler` does with them. A request's reservations are enqueued at node monitors, more of them
than there are tasks; a node monitor that is ready redeems a reservation with `getTask`, and only
then a task is bound to it. When the last task is placed, the placer is dropped and the node
monitors that still hold reservations are told so.

`Collections.shuffle` is a `Shuffle`, any function that permutes. Probe ratios are rationals, not
negative ones. Lists fit into arrays, and a request comes in one Thrift frame, so that what is
counted here fits into an `int`; the cast of `Math.ceil` is the exception, as a probe ratio may be
any number.
-/

namespace CharmRuntime.Sparrow

open Lib

/-! ### Addresses and requests -/

/-- `java.net.InetAddress`, as the text that `getHostAddress` yields. -/
structure InetAddress where
  hostAddress : String
deriving DecidableEq, Repr

structure InetSocketAddress where
  address : InetAddress
  port : Nat
deriving DecidableEq, Repr

structure THostPort where
  host : String
  port : Nat
deriving DecidableEq, Repr

/-- `new THostPort(addr.getAddress().getHostAddress(), addr.getPort())`. -/
def socketAddressToThrift (addr : InetSocketAddress) :
    THostPort := ⟨addr.address.hostAddress, addr.port⟩

structure TUserGroupInfo where
  user : String
  group : String
  priority : Int
deriving DecidableEq, Repr

/-- Without the fields that are not supported. -/
structure TPlacementPreference where
  nodes : Option (List String)
deriving DecidableEq, Repr

structure TTaskSpec where
  taskId : String
  preference : Option TPlacementPreference
  message : List UInt8
deriving DecidableEq, Repr

structure TTaskLaunchSpec where
  taskId : String
  message : List UInt8
deriving DecidableEq, Repr

namespace TTaskSpec

/-- `new TTaskLaunchSpec(task.getTaskId(), task.bufferForMessage())`. -/
def launchSpec (task : TTaskSpec) : TTaskLaunchSpec := ⟨task.taskId, task.message⟩

/-- `task.preference.nodes`, nothing if one of them is null. -/
def preferredNodes (task : TTaskSpec) : List String := (task.preference.bind (·.nodes)).getD []

def Constrained (task : TTaskSpec) : Prop := task.preferredNodes ≠ []

instance (task : TTaskSpec) : Decidable task.Constrained :=
  inferInstanceAs (Decidable (task.preferredNodes ≠ []))

end TTaskSpec

/-- `Integer.MAX_VALUE`. -/
def maxInt : Nat := 2 ^ 31 - 1

structure TSchedulingRequest where
  app : String
  tasks : List TTaskSpec
  user : TUserGroupInfo
  probeRatio : Option ℚ
  tasks_size : tasks.length ≤ maxInt

/-- Some task of the request is constrained. -/
def TSchedulingRequest.Constrained (request : TSchedulingRequest) :
    Prop := ∃ task ∈ request.tasks, task.Constrained

instance (request : TSchedulingRequest) : Decidable request.Constrained :=
  inferInstanceAs (Decidable (∃ task ∈ request.tasks, task.Constrained))

structure TEnqueueTaskReservationsRequest where
  appId : String
  user : TUserGroupInfo
  requestId : String
  schedulerAddress : THostPort
  numTasks : Nat
deriving DecidableEq, Repr

abbrev EnqueueRequests := HashMap InetSocketAddress TEnqueueTaskReservationsRequest

/-- The request that a placer sends, up to the number of reservations. -/
def newRequest (request : TSchedulingRequest) (requestId : String) (schedulerAddress : THostPort)
    (numTasks : Nat) : TEnqueueTaskReservationsRequest :=
  ⟨request.app, request.user, requestId, schedulerAddress, numTasks⟩

/-- An outcome of `Collections.shuffle`. -/
structure Shuffle (α : Type) where
  apply : List α → List α
  perm : ∀ l, (apply l).Perm l

/-- `(int) Math.ceil(probeRatio * numTasks)`. The cast yields the nearest `int`. -/
def reservationsToLaunch (probeRatio : ℚ) (numTasks : Nat) :
    Nat := min ⌈probeRatio * numTasks⌉₊ maxInt

inductive PlacerFault
  /-- `reservationsToLaunch / 0`, an `ArithmeticException`. -/
  | noNodes
  /-- `assert outstandingReservations.containsKey(nodeMonitorAddress)`. -/
  | notReserved
  /-- `assert numRemainingTasks >= 0`. -/
  | noRemainingTasks
deriving DecidableEq, Repr

/-! ### Requests without constraints -/

structure UnconstrainedTaskPlacer where
  unlaunchedTasks : List TTaskLaunchSpec
  outstandingReservations : HashMap THostPort Nat
  cancelled : Bool
  requestId : String
  probeRatio : ℚ

namespace UnconstrainedTaskPlacer

def new (requestId : String) (probeRatio : ℚ) : UnconstrainedTaskPlacer where
  unlaunchedTasks := []
  outstandingReservations := ∅
  cancelled := false
  requestId := requestId
  probeRatio := probeRatio

/-- The loop over `nodeList`: the first `extra` nodes get one reservation more. -/
def reserve (send : Nat → TEnqueueTaskReservationsRequest) (numReservationsPerNode extra : Nat) :
    Nat → List InetSocketAddress → EnqueueRequests → HashMap THostPort Nat →
    EnqueueRequests × HashMap THostPort Nat
  | _, [], requests, outstanding => (requests, outstanding)
  | i, node :: rest, requests, outstanding =>
    let numReservations := if extra > i then numReservationsPerNode + 1 else numReservationsPerNode
    reserve send numReservationsPerNode extra (i + 1) rest
      (requests.insert node (send numReservations))
      (outstanding.insert (socketAddressToThrift node) numReservations)

def getEnqueueTaskReservationsRequests (p : UnconstrainedTaskPlacer)
    (shuffle : Shuffle InetSocketAddress)
    (request : TSchedulingRequest) (requestId : String) (nodes : List InetSocketAddress)
    (schedulerAddress : THostPort) :
    Except PlacerFault (EnqueueRequests × UnconstrainedTaskPlacer) :=
  let reservationsToLaunch := reservationsToLaunch p.probeRatio request.tasks.length
  let shuffled := shuffle.apply nodes
  let nodeList :=
    if reservationsToLaunch < shuffled.length then shuffled.take reservationsToLaunch else shuffled
  if nodeList.length < reservationsToLaunch ∧ nodeList.length = 0 then .error .noNodes
  else
    let numReservationsPerNode :=
      if nodeList.length < reservationsToLaunch then reservationsToLaunch / nodeList.length else 1
    let (requests, outstanding) :=
      reserve (newRequest request requestId schedulerAddress) numReservationsPerNode
        (reservationsToLaunch % nodeList.length) 0 nodeList ∅ p.outstandingReservations
    .ok (requests,
      { p with
        unlaunchedTasks := p.unlaunchedTasks ++ request.tasks.map (·.launchSpec)
        outstandingReservations := outstanding })

def assignTask (p : UnconstrainedTaskPlacer) (nodeMonitorAddress : THostPort) :
    List TTaskLaunchSpec × UnconstrainedTaskPlacer :=
  match p.outstandingReservations.lookup nodeMonitorAddress with
  | none => ([], p)
  | some numOutstandingReservations =>
    let p := { p with
      outstandingReservations :=
        p.outstandingReservations.takeOne nodeMonitorAddress numOutstandingReservations }
    match p.unlaunchedTasks with
    | [] => ([], p)
    | launchSpec :: rest => ([launchSpec], { p with unlaunchedTasks := rest })

def allTasksPlaced (p : UnconstrainedTaskPlacer) : Bool := p.unlaunchedTasks.isEmpty

end UnconstrainedTaskPlacer

/-! ### Requests with constraints -/

structure ConstrainedTaskPlacer where
  launchedConstrainedTasks : Finset TTaskLaunchSpec
  unlaunchedConstrainedTasks : HashMap THostPort (List TTaskLaunchSpec)
  outstandingReservations : HashMap THostPort Nat
  cancelled : Bool
  numRemainingTasks : Int
  probeRatio : ℚ
  requestId : String
  unlaunchedUnconstrainedTasks : List TTaskLaunchSpec

namespace ConstrainedTaskPlacer

def new (requestId : String) (probeRatio : ℚ) : ConstrainedTaskPlacer where
  launchedConstrainedTasks := ∅
  unlaunchedConstrainedTasks := ∅
  outstandingReservations := ∅
  cancelled := false
  numRemainingTasks := 0
  probeRatio := probeRatio
  requestId := requestId
  unlaunchedUnconstrainedTasks := []

/-- The node monitors by host. The last one at a host stays. -/
def addrToSocket (nodes : List InetSocketAddress) : HashMap InetAddress InetSocketAddress :=
  nodes.foldl (fun m node => m.insert node.address node) ∅

/-- `InetAddress.getByName` is `getByName`, `none` for a host that is not resolved. -/
def taskPreferencesToSocketList (getByName : String → Option InetAddress) (shuffle : Shuffle String)
    (task : TTaskSpec) (addrToSocket : HashMap InetAddress InetSocketAddress) :
    List InetSocketAddress :=
  (shuffle.apply task.preferredNodes).filterMap fun node =>
  (getByName node).bind addrToSocket.lookup

/-- The requests and the lists of tasks, while the constrained tasks are gone through. -/
structure Reserving where
  requests : EnqueueRequests
  unlaunched : HashMap THostPort (List TTaskLaunchSpec)

/-- One preferred node of a task. The task stands at the beginning of the node's list if a
reservation is made for it there, and else at the end. -/
def reserveAt (send : Nat → TEnqueueTaskReservationsRequest) (probeRatio : ℚ)
    (taskLaunchSpec : TTaskLaunchSpec)
    (s : Reserving × Nat) (addr : InetSocketAddress) : Reserving × Nat :=
  let (r, numEnqueuedNodes) := s
  let hostPort := socketAddressToThrift addr
  let tasks := (r.unlaunched.lookup hostPort).getD []
  if (numEnqueuedNodes : ℚ) < probeRatio then
    let request := match r.requests.lookup addr with
      | none => send 1
      | some request => { request with numTasks := request.numTasks + 1 }
    (⟨r.requests.insert addr request, r.unlaunched.insert hostPort (taskLaunchSpec :: tasks)⟩,
    numEnqueuedNodes + 1)
  else (⟨r.requests, r.unlaunched.insert hostPort (tasks ++ [taskLaunchSpec])⟩, numEnqueuedNodes)

/-- One constrained task. -/
def reserveTask (send : Nat → TEnqueueTaskReservationsRequest) (probeRatio : ℚ)
    (preferred : TTaskSpec → List InetSocketAddress) (r : Reserving) (task : TTaskSpec) :
    Reserving :=
  ((preferred task).foldl (reserveAt send probeRatio task.launchSpec) (r, 0)).1

/-- The loop over `taskList`, for the constrained tasks. -/
def reserveTasks (send : Nat → TEnqueueTaskReservationsRequest) (probeRatio : ℚ)
    (preferred : TTaskSpec → List InetSocketAddress) (taskList : List TTaskSpec) (r : Reserving) :
    Reserving :=
  (taskList.filter (·.Constrained)).foldl (reserveTask send probeRatio preferred) r

/-- The loop over `unusedNodeMonitors`, which ends when enough reservations are made. -/
def reserveUnused (send : Nat → TEnqueueTaskReservationsRequest) (reservationsToLaunch : Nat) :
    Nat → List InetSocketAddress → EnqueueRequests → EnqueueRequests
  | _, [], requests => requests
  | reservationsCreated, nodeMonitor :: rest, requests =>
    let requests := requests.insert nodeMonitor (send 1)
    if reservationsCreated + 1 ≥ reservationsToLaunch then requests
    else reserveUnused send reservationsToLaunch (reservationsCreated + 1) rest requests

/-- The node monitors without a request. -/
def unusedNodeMonitors (nodes : List InetSocketAddress) (requests : EnqueueRequests) :
    List InetSocketAddress :=
  nodes.filter fun nodeMonitor => requests.lookup nodeMonitor = none

def addRequestsForUnconstrainedTasks (send : Nat → TEnqueueTaskReservationsRequest) (probeRatio : ℚ)
    (shuffle : Shuffle InetSocketAddress) (numUnconstrained : Nat) (nodes : List InetSocketAddress)
    (requests : EnqueueRequests) : EnqueueRequests :=
  reserveUnused send (reservationsToLaunch probeRatio numUnconstrained) 0
    (shuffle.apply (unusedNodeMonitors nodes requests)) requests

def populateOutstandingReservations (requests : EnqueueRequests)
    (outstanding : HashMap THostPort Nat) :
    HashMap THostPort Nat :=
  requests.entries.foldl (fun m e => m.insert (socketAddressToThrift e.1) e.2.numTasks) outstanding

/-- The outcomes of the shuffles of one request. -/
structure Shuffles where
  taskList : Shuffle TTaskSpec
  preferences : TTaskSpec → Shuffle String
  nodeList : Shuffle InetSocketAddress
  unusedNodeMonitors : Shuffle InetSocketAddress

/-- What the constrained tasks reserve. -/
def constrainedRequests (getByName : String → Option InetAddress) (shuffles : Shuffles)
    (request : TSchedulingRequest) (requestId : String) (nodes : List InetSocketAddress)
    (schedulerAddress : THostPort) (probeRatio : ℚ) (r : Reserving) : Reserving :=
  reserveTasks (newRequest request requestId schedulerAddress) probeRatio
    (fun task => taskPreferencesToSocketList getByName (shuffles.preferences task) task
      (addrToSocket nodes))
    (shuffles.taskList.apply request.tasks) r

def getEnqueueTaskReservationsRequests (p : ConstrainedTaskPlacer)
    (getByName : String → Option InetAddress)
    (shuffles : Shuffles) (request : TSchedulingRequest) (requestId : String)
    (nodes : List InetSocketAddress)
    (schedulerAddress : THostPort) : EnqueueRequests × ConstrainedTaskPlacer :=
  let r := constrainedRequests getByName shuffles request requestId nodes schedulerAddress
    p.probeRatio
    ⟨∅, p.unlaunchedConstrainedTasks⟩
  let unconstrainedTasks := (shuffles.taskList.apply request.tasks).filter (¬ ·.Constrained)
  let requests :=
    if unconstrainedTasks.length > 0 then
      addRequestsForUnconstrainedTasks (newRequest request requestId schedulerAddress) p.probeRatio
        shuffles.unusedNodeMonitors unconstrainedTasks.length nodes r.requests
    else r.requests
  (requests,
    { p with
      numRemainingTasks := request.tasks.length
      unlaunchedConstrainedTasks := r.unlaunched
      unlaunchedUnconstrainedTasks :=
        p.unlaunchedUnconstrainedTasks ++ unconstrainedTasks.map (·.launchSpec)
      outstandingReservations :=
        populateOutstandingReservations requests p.outstandingReservations })

/-- The first task of a node's list that is not launched, and what is behind it. -/
def firstUnlaunched (launched : Finset TTaskLaunchSpec) :
    List TTaskLaunchSpec → Option TTaskLaunchSpec × List TTaskLaunchSpec
  | [] => (none, [])
  | currentSpec :: rest =>
    if currentSpec ∈ launched then firstUnlaunched launched rest else (some currentSpec, rest)

def getConstrainedTask (p : ConstrainedTaskPlacer) (nodeMonitorAddress : THostPort) :
    Option TTaskLaunchSpec × ConstrainedTaskPlacer :=
  match p.unlaunchedConstrainedTasks.lookup nodeMonitorAddress with
  | none => (none, p)
  | some taskSpecs =>
    let (taskSpec, rest) := firstUnlaunched p.launchedConstrainedTasks taskSpecs
    (taskSpec,
      { p with
        unlaunchedConstrainedTasks := p.unlaunchedConstrainedTasks.insert nodeMonitorAddress rest })

def getUnconstrainedTask (p : ConstrainedTaskPlacer) :
    List TTaskLaunchSpec × ConstrainedTaskPlacer :=
  match p.unlaunchedUnconstrainedTasks with
  | [] => ([], p)
  | spec :: rest => ([spec], { p with unlaunchedUnconstrainedTasks := rest })

def assignTask (p : ConstrainedTaskPlacer) (nodeMonitorAddress : THostPort) :
    Except PlacerFault (List TTaskLaunchSpec × ConstrainedTaskPlacer) :=
  match p.outstandingReservations.lookup nodeMonitorAddress with
  | none => .error .notReserved
  | some numOutstandingReservations =>
    let p := { p with
      outstandingReservations :=
        p.outstandingReservations.takeOne nodeMonitorAddress numOutstandingReservations }
    let (taskSpecs, p) := match getConstrainedTask p nodeMonitorAddress with
      | (some taskSpec, p) =>
        ([taskSpec],
        { p with launchedConstrainedTasks := insert taskSpec p.launchedConstrainedTasks })
      | (none, p) => getUnconstrainedTask p
    let p := { p with numRemainingTasks := p.numRemainingTasks - taskSpecs.length }
    if 0 ≤ p.numRemainingTasks then .ok (taskSpecs, p) else .error .noRemainingTasks

def allTasksPlaced (p : ConstrainedTaskPlacer) : Bool := p.numRemainingTasks = 0

end ConstrainedTaskPlacer

/-! ### The interface -/

inductive TaskPlacer
  | unconstrained (p : UnconstrainedTaskPlacer)
  | constrained (p : ConstrainedTaskPlacer)

namespace TaskPlacer

def outstandingReservations : TaskPlacer → HashMap THostPort Nat
  | .unconstrained p => p.outstandingReservations
  | .constrained p => p.outstandingReservations

def cancelled : TaskPlacer → Bool
  | .unconstrained p => p.cancelled
  | .constrained p => p.cancelled

def assignTask (nodeMonitorAddress : THostPort) :
    TaskPlacer → Except PlacerFault (List TTaskLaunchSpec × TaskPlacer)
  | .unconstrained p =>
    let (specs, p) := p.assignTask nodeMonitorAddress
    .ok (specs, .unconstrained p)
  | .constrained p =>
    match p.assignTask nodeMonitorAddress with
    | .ok (specs, p) => .ok (specs, .constrained p)
    | .error fault => .error fault

def allTasksPlaced : TaskPlacer → Bool
  | .unconstrained p => p.allTasksPlaced
  | .constrained p => p.allTasksPlaced

def setCancelled : TaskPlacer → TaskPlacer
  | .unconstrained p => .unconstrained { p with cancelled := true }
  | .constrained p => .constrained { p with cancelled := true }

/-- The same in both placers: the node monitors are returned to the first call only. -/
def getOutstandingNodeMonitorsForCancellation (p : TaskPlacer) : List THostPort × TaskPlacer :=
  if p.cancelled then ([], p) else (p.outstandingReservations.keys, p.setCancelled)

end TaskPlacer

/-! ### The scheduler -/

structure SchedulerConf where
  address : THostPort
  defaultProbeRatioUnconstrained : ℚ
  defaultProbeRatioConstrained : ℚ
  useCancellation : Bool

/-- The probe ratio of a request. -/
def SchedulerConf.probeRatio (conf : SchedulerConf) (request : TSchedulingRequest) : ℚ :=
  request.probeRatio.getD
    (if request.Constrained then conf.defaultProbeRatioConstrained else
      conf.defaultProbeRatioUnconstrained)

/-- The placer of a new request, and the requests that are sent to the node monitors. -/
def handleJobSubmission (conf : SchedulerConf) (getByName : String → Option InetAddress)
    (shuffles : ConstrainedTaskPlacer.Shuffles) (requestId : String) (request : TSchedulingRequest)
    (backends : List InetSocketAddress) : Except PlacerFault (EnqueueRequests × TaskPlacer) :=
  if request.Constrained then
    let (requests, p) :=
      (ConstrainedTaskPlacer.new requestId
        (conf.probeRatio request)).getEnqueueTaskReservationsRequests
      getByName shuffles request requestId backends conf.address
    .ok (requests, .constrained p)
  else
    match (UnconstrainedTaskPlacer.new requestId
      (conf.probeRatio request)).getEnqueueTaskReservationsRequests
        shuffles.nodeList request requestId backends conf.address with
    | .ok (requests, p) => .ok (requests, .unconstrained p)
    | .error fault => .error fault

/-- A request at the scheduler. `registered` says whether `requestTaskPlacers` has its placer;
`waiting` are the calls that found the placer there and that do not hold its lock yet;
`cancellations` is what went to the cancellation service. The others record the calls, those of
them that had the lock, and what they returned. -/
structure Job where
  placer : TaskPlacer
  registered : Bool
  waiting : List THostPort
  cancellations : List THostPort
  called : List THostPort
  redeemed : List THostPort
  returned : List (THostPort × TTaskLaunchSpec)

inductive JobEvent
  /-- A call of `getTask`, up to `synchronized`. -/
  | getTask (nodeMonitorAddress : THostPort)
  /-- Member `k` of `waiting` gets the lock and returns. -/
  | assign (k : Nat)

namespace Job

def submitted (placer : TaskPlacer) : Job where
  placer := placer
  registered := true
  waiting := []
  cancellations := []
  called := []
  redeemed := []
  returned := []

/-- `requestTaskPlacers.get(requestId)`. Without a placer the call returns no task at once. -/
def getTask (job : Job) (node : THostPort) : Job :=
  { job with
    waiting := if job.registered then job.waiting ++ [node] else job.waiting
    called := job.called ++ [node] }

/-- `requestTaskPlacers.remove(requestId)`, and the cancellations. -/
def remove (conf : SchedulerConf) (job : Job) : Job :=
  let (nodes, placer) :=
    if conf.useCancellation then job.placer.getOutstandingNodeMonitorsForCancellation else
      ([], job.placer)
  { job with placer := placer, registered := false, cancellations := job.cancellations ++ nodes }

/-- The body of `getTask`, under the placer's lock. -/
def assign (conf : SchedulerConf) (job : Job) (node : THostPort) : Except PlacerFault Job :=
  match job.placer.assignTask node with
  | .error fault => .error fault
  | .ok (taskLaunchSpecs, placer) =>
    let job := { job with placer := placer, redeemed := job.redeemed ++ [node] }
    if taskLaunchSpecs.length > 1 then .ok job
    else
      let job := { job with returned := job.returned ++ taskLaunchSpecs.map (Prod.mk node) }
      .ok (if job.placer.allTasksPlaced then job.remove conf else job)

def Enabled (job : Job) : JobEvent → Prop
  | .getTask _ => True
  | .assign k => k < job.waiting.length

def next (conf : SchedulerConf) (job : Job) : JobEvent → Except PlacerFault Job
  | .getTask node => .ok (job.getTask node)
  | .assign k =>
    match job.waiting[k]? with
    | none => .ok job
    | some node => { job with waiting := job.waiting.eraseIdx k }.assign conf node

end Job

/-- The calls for a request, in any order and from any threads. -/
def jobSystem (conf : SchedulerConf) (placer : TaskPlacer) : Transition Job JobEvent where
  init job := job = Job.submitted placer
  step job e job' := job.Enabled e ∧ job.next conf e = .ok job'

/-- The reservations that a node monitor was sent. -/
def granted (requests : EnqueueRequests) (node : THostPort) : Nat :=
  (requests.lookup ⟨⟨node.host⟩, node.port⟩).elim 0 (·.numTasks)

/-- Each reservation is redeemed at most once. -/
def Redeems (requests : EnqueueRequests) (job : Job) : JobEvent → Prop
  | .getTask node => job.called.count node < granted requests node
  | .assign _ => True

end CharmRuntime.Sparrow
