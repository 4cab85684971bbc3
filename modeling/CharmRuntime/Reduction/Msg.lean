import Mathlib.Tactic.Ring
import Mathlib.Data.List.Basic

/-!
# Reduction.Msg

Reduction messages and the two `reduceMessages` routines (`ck-core/ckreduction.h`,
`ck-core/ckreduction.C`).

A `CkReductionMsg` travels up the reduction tree. It carries either one raw
contribution or the reduced value of several, and the manager tells the two
apart by `sourceFlag` only. The payload type `δ` is a parameter: the managers
never look inside the data, only the reducer functions do, so the same
`reduceMessages` serves byte buffers (`Reduction.SetReducer`) and the
bookkeeping proofs about the managers.

`reduceMessages` is split as the source is: one pass over the queue that drops
placeholders and accumulates the counts (`collect`), then the choice between
passing a single message on and calling the reducer.
-/

namespace CharmRuntime.Reduction

/-- `CkReduction::reducerType`, in the order of the enumeration; `user n` stands
for the `n`-th reducer added with `addReducer`. -/
inductive ReducerType
  | invalid
  | nop
  | sumInt | sumLong | sumFloat | sumDouble
  | productInt | productLong | productFloat | productDouble
  | maxInt | maxLong | maxFloat | maxDouble
  | minInt | minLong | minFloat | minDouble
  | logicalAnd
  | logicalOr
  | bitvecAnd
  | bitvecOr
  | bitvecXor
  | random
  | concat
  | set
  | user (n : Nat)
  deriving DecidableEq, Repr

/-- A callback is only passed around; `none` is an invalid one. -/
abbrev CkCallback := Option Nat

/-- `CkReductionMsg`. `dataSize` is the size of `data` and is not stored twice. -/
structure CkReductionMsg (δ : Type) where
  data : δ
  /-- Stored in a `CMK_REFNUM_TYPE`, an unsigned type. -/
  userFlag : Nat
  callback : CkCallback
  secondaryCallback : CkCallback
  migratableContributor : Bool
  /-- `0`: placeholder; `-1`: a single contribution; `> 0`: a reduced one. -/
  sourceFlag : Int
  fromPE : Nat
  reducer : ReducerType
  redNo : Nat
  gcount : Int
  deriving DecidableEq, Repr

namespace CkReductionMsg

variable {δ : Type}

/-- `isFromUser`: the message came straight from a `contribute` call. -/
def isFromUser (m : CkReductionMsg δ) : Bool := m.sourceFlag == -1

/-- `nSources`: the number of contributions the message stands for. -/
def nSources (m : CkReductionMsg δ) : Int :=
  if m.sourceFlag < 0 then -m.sourceFlag else m.sourceFlag

theorem nSources_nonneg (m : CkReductionMsg δ) : 0 ≤ m.nSources := by
  unfold nSources
  split <;> omega

end CkReductionMsg

/-- What the managers are compiled and linked with: the width of
`CMK_REFNUM_TYPE`, the reducer table, and the value an uninitialised local
`isMigratableContributor` happens to hold. -/
structure ReductionEnv (δ : Type) where
  refnumBits : Nat
  reducerTable : ReducerType → List (CkReductionMsg δ) → Option (CkReductionMsg δ)
  uninitMigratable : Bool

section

variable {δ : Type} (env : ReductionEnv δ)

/-- Conversion of an `int` to `CMK_REFNUM_TYPE`. -/
def ReductionEnv.refnum (x : Int) : Nat := (x % 2 ^ env.refnumBits).toNat

/-- The comparison `userFlag != -1`. A type narrower than `int` is promoted to
`int` first, so there it never equals `-1`. -/
def ReductionEnv.userFlagSet (f : Nat) : Bool :=
  if env.refnumBits < 32 then (f : Int) != -1 else f != 2 ^ 32 - 1

/-- `CkReductionMsg::buildNew` without a buffer to reuse. -/
def ReductionEnv.buildNew (data : δ) (reducer : ReducerType) : CkReductionMsg δ :=
  { data, userFlag := env.refnum (-1), callback := none, secondaryCallback := none,
    migratableContributor := true, sourceFlag := -1000, fromPE := 0, reducer, redNo := 0,
    gcount := 0 }

/-- The locals of `reduceMessages` while it empties the queue. -/
structure Collected (δ : Type) where
  gcount : Int
  nSources : Int
  userFlag : Int
  callback : CkCallback
  secondaryCallback : CkCallback
  migratable : Bool
  r : ReducerType
  msgArr : List (CkReductionMsg δ)

/-- The locals as they are initialised. -/
def Collected.init : Collected δ :=
  { gcount := 0, nSources := 0, userFlag := -1, callback := none, secondaryCallback := none,
    migratable := env.uninitMigratable, r := .invalid, msgArr := [] }

/-- One round of the loop: a placeholder only adds its `gcount`; of the messages
with reducer `random` only the first is kept. -/
def collectMsg (c : Collected δ) (m : CkReductionMsg δ) : Collected δ :=
  if m.sourceFlag ≠ 0 then
    if c.msgArr = [] ∨ m.reducer ≠ .random then
      { gcount := c.gcount + m.gcount
        nSources := c.nSources + m.nSources
        userFlag := if env.userFlagSet m.userFlag then m.userFlag else c.userFlag
        callback := if m.callback.isSome then m.callback else c.callback
        secondaryCallback :=
          if m.secondaryCallback.isSome then m.secondaryCallback else c.secondaryCallback
        migratable := m.migratableContributor
        r := m.reducer
        msgArr := c.msgArr ++ [m] }
    else { c with gcount := c.gcount + m.gcount, nSources := c.nSources + m.nSources }
  else { c with gcount := c.gcount + m.gcount }

/-- The whole loop over the message queue. -/
def collect (msgs : List (CkReductionMsg δ)) : Collected δ :=
  msgs.foldl (collectMsg env) (Collected.init env)

/-- A message is real unless it is a placeholder. -/
def CkReductionMsg.isReal (m : CkReductionMsg δ) : Bool := m.sourceFlag != 0

variable {m : CkReductionMsg δ} (msgs : List (CkReductionMsg δ)) {r : ReducerType}

@[simp] theorem CkReductionMsg.isReal_iff : m.isReal = true ↔ m.sourceFlag ≠ 0 := by
  simp [isReal]

theorem CkReductionMsg.nSources_pos_of_isReal (h : m.sourceFlag ≠ 0) : 0 < m.nSources := by
  unfold nSources
  split <;> omega

theorem CkReductionMsg.nSources_of_placeholder (h : m.sourceFlag = 0) : m.nSources = 0 := by
  simp [nSources, h]

theorem collectMsg_gcount (c : Collected δ) (m : CkReductionMsg δ) :
    (collectMsg env c m).gcount = c.gcount + m.gcount := by
  unfold collectMsg
  split
  · split <;> rfl
  · rfl

theorem collectMsg_nSources (c : Collected δ) (m : CkReductionMsg δ) :
    (collectMsg env c m).nSources = c.nSources + m.nSources := by
  unfold collectMsg
  split
  · split <;> rfl
  · next h => rw [m.nSources_of_placeholder (by simpa using h), Int.add_zero]

theorem foldl_collectMsg_gcount (c : Collected δ) :
    (msgs.foldl (collectMsg env) c).gcount = c.gcount + (msgs.map (·.gcount)).sum := by
  induction msgs generalizing c with
  | nil => simp
  | cons m rest ih =>
    rw [List.foldl_cons, ih, collectMsg_gcount, List.map_cons, List.sum_cons, Int.add_assoc]

theorem foldl_collectMsg_nSources (c : Collected δ) :
    (msgs.foldl (collectMsg env) c).nSources = c.nSources + (msgs.map (·.nSources)).sum := by
  induction msgs generalizing c with
  | nil => simp
  | cons m rest ih =>
    rw [List.foldl_cons, ih, collectMsg_nSources, List.map_cons, List.sum_cons, Int.add_assoc]

/-- The reduced `gcount` is the sum over all messages, placeholders included. -/
theorem collect_gcount : (collect env msgs).gcount = (msgs.map (·.gcount)).sum := by
  rw [collect, foldl_collectMsg_gcount]
  simp [Collected.init]

theorem collect_nSources : (collect env msgs).nSources = (msgs.map (·.nSources)).sum := by
  rw [collect, foldl_collectMsg_nSources]
  simp [Collected.init]

/-- Among messages of one reducer `r`, not `random`, the array holds exactly the
real ones, in order. -/
theorem foldl_collectMsg_msgArr (hr : r ≠ .random) :
    ∀ (msgs : List (CkReductionMsg δ)) (c : Collected δ),
      (∀ m ∈ msgs, m.sourceFlag ≠ 0 → m.reducer = r) →
      (msgs.foldl (collectMsg env) c).msgArr = c.msgArr ++ msgs.filter (·.isReal) ∧
      (msgs.foldl (collectMsg env) c).r = if msgs.filter (·.isReal) = [] then c.r else r := by
  intro msgs
  induction msgs with
  | nil => intro c _; simp
  | cons m rest ih =>
    intro c hall
    rw [List.foldl_cons]
    obtain ⟨harr, hred⟩ := ih (collectMsg env c m) (fun m' hm' => hall m' (by simp [hm']))
    rw [harr, hred]
    by_cases hm : m.sourceFlag = 0
    · have hstep : collectMsg env c m = { c with gcount := c.gcount + m.gcount } := by
        simp [collectMsg, hm]
      rw [hstep]
      simp [hm]
    · have hmr : m.reducer = r := hall m (by simp) hm
      have hstep : (collectMsg env c m).msgArr = c.msgArr ++ [m] ∧ (collectMsg env c m).r = r := by
        simp [collectMsg, hm, hmr, hr]
      rw [hstep.1, hstep.2]
      simp [hm]

/-- `foldl_collectMsg_msgArr` for the whole loop. -/
theorem collect_msgArr (hr : r ≠ .random) {msgs : List (CkReductionMsg δ)}
    (hall : ∀ m ∈ msgs, m.sourceFlag ≠ 0 → m.reducer = r) :
    (collect env msgs).msgArr = msgs.filter (·.isReal) ∧
      (collect env msgs).r = if msgs.filter (·.isReal) = [] then .invalid else r := by
  obtain ⟨harr, hred⟩ := foldl_collectMsg_msgArr env hr msgs (Collected.init env) hall
  exact ⟨by rw [collect, harr]; rfl, by rw [collect, hred]; rfl⟩

/-- The arguments of the reducer call: a leading `random` message is replaced by
the last one of the array. -/
def reducerArgs (msgArr : List (CkReductionMsg δ)) : List (CkReductionMsg δ) :=
  match msgArr with
  | [] => []
  | m :: rest =>
    if m.reducer = .random then
      match rest.getLast? with
      | none => []
      | some last => last :: rest.dropLast
    else m :: rest

/-- Pass a lone message on or call the reducer. `keepSingle` says for which
reducers a lone message is passed on unchanged; the two managers differ there. -/
def combine [Inhabited δ] (keepSingle : ReducerType → Bool) (c : Collected δ) :
    Option (CkReductionMsg δ) :=
  match c.msgArr with
  | [] => some (env.buildNew default .invalid)
  | m :: rest =>
    if c.r = .invalid then some (env.buildNew default .invalid)
    else
      let ret :=
        if rest = [] ∧ keepSingle m.reducer then some m
        else env.reducerTable c.r (reducerArgs (m :: rest))
      ret.map (fun ret => { ret with reducer := c.r })

/-- `CkReductionMgr::reduceMessages` on PE `myPe` at reduction `redNo`. -/
def reduceMessages [Inhabited δ] (myPe redNo : Nat) (msgs : List (CkReductionMsg δ)) :
    Option (CkReductionMsg δ) :=
  let c := collect env msgs
  (combine env (fun r => r ≠ .set) c).map fun ret =>
    { ret with
      redNo := redNo
      gcount := c.gcount
      userFlag := env.refnum c.userFlag
      callback := c.callback
      sourceFlag := c.nSources
      migratableContributor := c.migratable
      fromPE := myPe }

/-- `CkNodeReductionMgr::reduceMessages` at reduction `redNo`. -/
def nodeReduceMessages [Inhabited δ] (redNo : Nat) (msgs : List (CkReductionMsg δ)) :
    Option (CkReductionMsg δ) :=
  let c := collect env msgs
  (combine env (fun _ => true) c).map fun ret =>
    { ret with
      redNo := redNo
      gcount := c.gcount
      userFlag := env.refnum c.userFlag
      callback := c.callback
      secondaryCallback := c.secondaryCallback
      sourceFlag := c.nSources
      migratableContributor := c.migratable }

end

end CharmRuntime.Reduction
