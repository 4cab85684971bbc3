import CharmRuntime.Matrix.Scheduler

/-!
# Matrix.Batch

**Tasks in packages.** A peer sends a list of tasks as one text: a message with their number, then
messages of at most `maxTaskPerPkg` tasks each. Every message is followed by `##` and the text ends
with `$`; the fields of a message are followed by `&&`, its tasks by `!!`, and the fields of a task
by `@@`. All of these are read with `tokenize`, which takes a separator for a set of characters and
leaves out what is empty.

Reading fails where the source does: `vector::at` and the access to a repeated field out of range,
and a task without any field. What a scheduler does with the tasks (its queues, the entries of their
times) is not part of this.
-/

namespace CharmRuntime.Matrix

open Lib List

structure MatrixMsg where
  msgtype : Text
  extrainfo : Option Text := none
  count : Option Int := none
  tasks : List Text := []
  deriving DecidableEq

inductive BatchFault where
  /-- `std::out_of_range`, or a repeated field beyond its size. -/
  | outOfRange
  /-- "have some problem", `exit(1)`. -/
  | emptyTask
  deriving DecidableEq

/-- `vec.at(i)`. -/
def at' {α : Type} (vec : List α) (i : Nat) : Except BatchFault α :=
  match vec[i]? with
  | some a => .ok a
  | none => .error .outOfRange

/-! ### Tasks -/

def TaskMsg.fields (taskMsg : TaskMsg) : List Text :=
  [taskMsg.taskid, taskMsg.user, taskMsg.dir, taskMsg.cmd, numToStr taskMsg.datalength]

/-- `taskmsg_to_str`. -/
def taskmsgToStr (taskMsg : TaskMsg) : Text := taskMsg.fields.flatMap (· ++ ['@', '@'])

/-- `str_to_taskmsg`. -/
def strToTaskmsg (str : Text) : Except BatchFault TaskMsg :=
  let vecStr := tokenize str ['@', '@']
  if vecStr.length = 0 then .error .emptyTask
  else .ok
    { taskid := vecStr.getD 0 []
      user := vecStr.getD 1 "kwang".toList
      dir := vecStr.getD 2 "/home/kwang/Documents".toList
      cmd := vecStr.getD 3 "hostname".toList
      datalength := (vecStr[4]?.map (strToNum 64)).getD 0 }

/-! ### Messages -/

/-- A `long` as an `int`. -/
def toInt (v : Int) : Int := v.bmod (2 ^ 32)

def MatrixMsg.fields (mm : MatrixMsg) : List Text :=
  [mm.msgtype,
    mm.extrainfo.getD "noextrainfo".toList,
    match mm.count with
      | some count => numToStr (toInt count)
      | none => "nocount".toList,
    if mm.tasks = [] then "notask".toList else mm.tasks.flatMap (· ++ ['!', '!'])]

/-- `mm_to_str`. -/
def mmToStr (mm : MatrixMsg) : Text := mm.fields.flatMap (· ++ ['&', '&'])

/-- `str_to_mm`. -/
def strToMm (str : Text) : Except BatchFault MatrixMsg := do
  let vec := tokenize str ['&', '&']
  let msgtype ← at' vec 0
  let extrainfo ← at' vec 1
  let count ← at' vec 2
  let tasks ← at' vec 3
  .ok
    { msgtype := msgtype
      extrainfo := if extrainfo = "noextrainfo".toList then none else some extrainfo
      count := if count = "nocount".toList then none else some (strToNum 32 count)
      tasks := if tasks = "notask".toList then [] else tokenize tasks ['!', '!'] }

/-! ### Sending -/

/-- `send_mul`, what it puts on the connection. -/
def sendMul (buf : Text) (end' : Bool) : Text := buf ++ ['#', '#'] ++ if end' then ['$'] else []

/-- The type of the messages of `peer`. -/
def batchType (peer : Text) : Text := peer ++ " send tasks".toList

/-- The loop of `send_batch_tasks`. -/
def sendPackages (peer : Text) (maxTaskPerPkg : Nat) (hmax : 0 < maxTaskPerPkg)
    (taskVec : List TaskMsg)
    (numTaskLeft numTaskBeenSent : Nat) : Except BatchFault Text :=
  if hleft : numTaskLeft = 0 then .ok []
  else do
    let end' := decide (numTaskLeft ≤ maxTaskPerPkg)
    let numTaskSendPerPkg := if numTaskLeft ≤ maxTaskPerPkg then numTaskLeft else maxTaskPerPkg
    let tasks ← (List.range numTaskSendPerPkg).mapM fun i => at' taskVec (i + numTaskBeenSent)
    let mmTask : MatrixMsg :=
      { msgtype := batchType peer, count := some numTaskSendPerPkg,
        tasks := tasks.map taskmsgToStr }
    let rest ← sendPackages peer maxTaskPerPkg hmax taskVec (numTaskLeft - numTaskSendPerPkg)
      (numTaskBeenSent + numTaskSendPerPkg)
    .ok (sendMul (mmToStr mmTask) end' ++ rest)
termination_by numTaskLeft
decreasing_by
  have hpos : 0 < if numTaskLeft ≤ maxTaskPerPkg then numTaskLeft else maxTaskPerPkg := by
    split
    · exact Nat.pos_of_ne_zero hleft
    · exact hmax
  exact Nat.sub_lt (Nat.pos_of_ne_zero hleft) hpos

/-- `send_batch_tasks`, what it puts on the connection. -/
def sendBatchTasks (taskVec : List TaskMsg) (peer : Text) (maxTaskPerPkg : Nat)
    (hmax : 0 < maxTaskPerPkg) :
    Except BatchFault Text :=
  let mmNumTask : MatrixMsg := { msgtype := batchType peer, count := some taskVec.length }
  if taskVec.length = 0 then .ok (sendMul (mmToStr mmNumTask) true)
  else do
    let rest ← sendPackages peer maxTaskPerPkg hmax taskVec taskVec.length 0
    .ok (sendMul (mmToStr mmNumTask) false ++ rest)

/-! ### Receiving -/

/-- One package. An absent count is 0. -/
def recvPackage (str : Text) : Except BatchFault (List TaskMsg) := do
  let mm ← strToMm str
  (List.range (mm.count.getD 0).toNat).mapM fun j => do
    let task ← at' mm.tasks j
    strToTaskmsg task

/-- What `recv_task_from_scheduler` and `recv_task_from_client` read out of the text: nothing if
there is one message only, and else the number that the first message announces, and the packages.
-/
def recvTasks (taskStr : Text) : Except BatchFault (Option (Int × List (List TaskMsg))) :=
  let taskStrLs := taskStr.dropLast
  let stealVec := tokenize taskStrLs ['#', '#']
  if stealVec.length = 1 then .ok none
  else do
    let first ← at' stealVec 0
    let mmNumTask ← strToMm first
    let packages ← (stealVec.drop 1).mapM recvPackage
    .ok (some (mmNumTask.count.getD 0, packages))

/-! ### Reading what was written -/

/-- A text that is not empty and has none of the characters. -/
def Free (chars t : Text) : Prop := t ≠ [] ∧ ∀ c ∈ t, c ∉ chars

instance (chars t : Text) : Decidable (Free chars t) :=
  @instDecidableAnd _ _ inferInstance (List.decidableBAll (fun c => c ∉ chars) t)

variable {chars : Text} {ts : List Text} {taskMsg : TaskMsg} {mm : MatrixMsg} {n : Nat}
  {tasks : List TaskMsg}

theorem Free.mono {chars' t : Text} (h : Free chars t) (hsub : chars' ⊆ chars) : Free chars' t :=
  ⟨h.1, fun c hc hmem => h.2 c hc (hsub hmem)⟩

theorem free_numToStr (hchars : ∀ c ∈ chars, c ≠ '-' ∧ c.isDigit = false) (v : Int) :
    Free chars (numToStr v) := by
  refine ⟨numToStr_ne_nil v, fun c hc hmem => ?_⟩
  obtain ⟨hminus, hdigit⟩ := hchars c hmem
  obtain hc | hc := mem_numToStr hc
  · exact hminus hc
  · rw [hdigit] at hc
    cases hc

theorem tokenize_flatMap {d : Char} (hts : ∀ t ∈ ts, Free [d] t) :
    tokenize (ts.flatMap (· ++ [d, d])) [d, d] = ts := by
  refine tokens_flatMap (fun t ht => ⟨(hts t ht).1, fun c hc => ?_⟩) (by simp)
  have hne : c ≠ d := fun heq => (hts t ht).2 c hc (heq ▸ mem_singleton_self d)
  simp [hne]

theorem free_flatMap {d : Char} (hne : ts ≠ []) (hd : d ∉ chars)
    (hts : ∀ t ∈ ts, ∀ c ∈ t, c ∉ chars) : Free chars (ts.flatMap (· ++ [d, d])) := by
  obtain ⟨t, rest, rfl⟩ := exists_cons_of_ne_nil hne
  refine ⟨by simp, fun c hc => ?_⟩
  obtain ⟨t', ht', hc⟩ := mem_flatMap.mp hc
  obtain hc | hc := mem_append.mp hc
  · exact hts t' ht' c hc
  · obtain rfl : c = d := by simpa using hc
    exact hd

/-! #### Tasks -/

/-- A task whose fields are not empty and free of the separators. -/
structure TaskMsg.Valid (taskMsg : TaskMsg) : Prop where
  texts : ∀ t ∈ [taskMsg.taskid, taskMsg.user, taskMsg.dir, taskMsg.cmd],
    Free ['@', '!', '&', '#', '$'] t
  datalength : Fits 64 taskMsg.datalength

instance (taskMsg : TaskMsg) : Decidable taskMsg.Valid :=
  decidable_of_iff
    ((∀ t ∈ [taskMsg.taskid, taskMsg.user, taskMsg.dir, taskMsg.cmd],
    Free ['@', '!', '&', '#', '$'] t) ∧
      Fits 64 taskMsg.datalength)
    ⟨fun ⟨htexts, hlength⟩ => ⟨htexts, hlength⟩, fun ⟨htexts, hlength⟩ => ⟨htexts, hlength⟩⟩

theorem TaskMsg.Valid.fields (h : taskMsg.Valid) :
    ∀ t ∈ taskMsg.fields, Free ['@', '!', '&', '#', '$'] t := by
  intro t ht
  simp only [TaskMsg.fields, mem_cons, not_mem_nil, or_false] at ht
  obtain rfl | rfl | rfl | rfl | rfl := ht
  iterate 4 exact h.texts _ (by simp)
  · exact free_numToStr (by simp) _

theorem TaskMsg.Valid.free (h : taskMsg.Valid) : Free ['!', '&', '#', '$'] (taskmsgToStr taskMsg) :=
  free_flatMap (cons_ne_nil _ _) (by decide) fun t ht c hc hmem =>
    (h.fields t ht).2 c hc (mem_cons_of_mem _ hmem)

theorem strToTaskmsg_taskmsgToStr (h : taskMsg.Valid) :
    strToTaskmsg (taskmsgToStr taskMsg) = .ok taskMsg := by
  have hvec : tokenize (taskmsgToStr taskMsg) ['@', '@'] = taskMsg.fields :=
    tokenize_flatMap fun t ht => (h.fields t ht).mono (by decide)
  have hnum : strToNum 64 (numToStr taskMsg.datalength) = taskMsg.datalength :=
    strToNum_numToStr h.datalength
  simp only [strToTaskmsg, hvec]
  simp [TaskMsg.fields, hnum]

/-! #### Messages -/

/-- A message that is read back: of tasks, or of a number only. -/
structure MatrixMsg.Valid (mm : MatrixMsg) : Prop where
  msgtype : Free ['&', '#'] mm.msgtype
  extrainfo : mm.extrainfo = none
  count : ∃ n, mm.count = some n ∧ Fits 32 n
  tasks : ∀ t ∈ mm.tasks, Free ['!', '&', '#', '$'] t

theorem toInt_of_fits {v : Int} (h : Fits 32 v) : toInt v = v :=
  Int.bmod_eq_of_le (by simpa using h.1) (by simpa using h.2)

theorem MatrixMsg.Valid.fields (h : mm.Valid) : ∀ t ∈ mm.fields, Free ['&', '#'] t := by
  intro t ht
  obtain ⟨n, hcount, -⟩ := h.count
  simp only [MatrixMsg.fields, h.extrainfo, hcount, mem_cons, not_mem_nil, or_false] at ht
  obtain rfl | rfl | rfl | rfl := ht
  · exact h.msgtype
  · exact (by decide +kernel)
  · exact free_numToStr (by simp) _
  · split
    · exact (by decide +kernel)
    · next hne =>
        refine free_flatMap hne (by decide) fun t ht c hc hmem => (h.tasks t ht).2 c hc ?_
        exact mem_cons_of_mem _ (mem_append_left ['$'] hmem)

theorem MatrixMsg.Valid.free (h : mm.Valid) : Free ['#'] (mmToStr mm) :=
  free_flatMap (cons_ne_nil _ _) (by decide) fun t ht c hc hmem =>
    (h.fields t ht).2 c hc (mem_cons_of_mem _ hmem)

theorem exclamation_mem_flatMap {l : List Text} (h : l ≠ []) :
    '!' ∈ l.flatMap (· ++ ['!', '!']) := by
  obtain ⟨t, ts, rfl⟩ := exists_cons_of_ne_nil h
  simp

theorem strToMm_mmToStr (h : mm.Valid) : strToMm (mmToStr mm) = .ok mm := by
  have hvec : tokenize (mmToStr mm) ['&', '&'] = mm.fields :=
    tokenize_flatMap fun t ht => (h.fields t ht).mono (by decide)
  obtain ⟨n, hcount, hfits⟩ := h.count
  have hnum : strToNum 32 (numToStr (toInt n)) = n := by
    rw [toInt_of_fits hfits]
    exact strToNum_numToStr hfits
  have hnocount : numToStr (toInt n) ≠ "nocount".toList := numToStr_ne_absent (by decide) _
  have htasks :
    (if (if mm.tasks = [] then "notask".toList else mm.tasks.flatMap (· ++ ['!', '!'])) =
    "notask".toList
      then [] else tokenize
        (if mm.tasks = [] then "notask".toList else mm.tasks.flatMap (· ++ ['!', '!']))
          ['!', '!']) =
      mm.tasks := by
    by_cases hnil : mm.tasks = []
    · rw [if_pos hnil, if_pos rfl, hnil]
    · have hne : mm.tasks.flatMap (· ++ ['!', '!']) ≠ "notask".toList := by
        intro heq
        exact absurd (heq ▸ exclamation_mem_flatMap hnil) (by decide)
      rw [if_neg hnil, if_neg hne]
      exact tokenize_flatMap fun t ht => (h.tasks t ht).mono (by decide)
  rw [strToMm]
  simp only [hvec]
  simp only [MatrixMsg.fields, h.extrainfo, hcount, at', getElem?_cons_zero, getElem?_cons_succ,
    Option.getD_none, bind, Except.bind]
  rw [htasks, if_neg hnocount, hnum, if_true, ← hcount, ← h.extrainfo]

/-! #### Packages -/

/-- `vec.at(i)` for all indices in a range. -/
theorem mapM_range_at {α β : Type} (f : α → Except BatchFault β) {vec : List α} {k : Nat}
    (h : k + n ≤ vec.length) :
    (List.range n).mapM (fun i => at' vec (i + k) >>= f) = ((vec.drop k).take n).mapM f := by
  induction n generalizing k with
  | zero => simp
  | succ n ih =>
    have hk : k < vec.length := by omega
    have hat : at' vec (0 + k) = .ok vec[k] := by simp [at', hk]
    have hnext : (range n).mapM (fun i => at' vec (i + (k + 1)) >>= f) = _ := ih (by omega)
    have hshift : ∀ i, at' vec (Nat.succ i + k) = at' vec (i + (k + 1)) := fun i => by
      rw [Nat.succ_add, Nat.add_succ]
    rw [range_succ_eq_map, mapM_cons, mapM_map, drop_eq_getElem_cons hk, take_succ_cons,
      mapM_cons, ← hnext, hat]
    simp only [Function.comp_def, hshift]
    rfl

theorem mapM_at {vec : List TaskMsg} {k : Nat} (h : k + n ≤ vec.length) :
    (List.range n).mapM (fun i => at' vec (i + k)) = .ok ((vec.drop k).take n) := by
  have hbind := mapM_range_at pure h
  simp only [bind_pure] at hbind
  rw [hbind]
  exact mapM_pure.trans (congrArg Except.ok (map_id _))

/-- The message of a package. -/
def packageMsg (peer : Text) (tasks : List TaskMsg) : MatrixMsg :=
  { msgtype := batchType peer, count := some tasks.length, tasks := tasks.map taskmsgToStr }

variable {peer : Text} {maxTaskPerPkg : Nat} {hmax : 0 < maxTaskPerPkg} {taskVec : List TaskMsg}

/-- The text of some packages. -/
def packagesText (peer : Text) (packages : List (List TaskMsg)) : Text :=
  packages.flatMap fun tasks => mmToStr (packageMsg peer tasks) ++ ['#', '#']

variable (peer hmax) in
/-- The tasks from `numTaskBeenSent` on are sent in packages, the last of which is followed by `$`.
-/
theorem sendPackages_spec {numTaskLeft numTaskBeenSent : Nat}
    (hsum : numTaskBeenSent + numTaskLeft = taskVec.length) :
    ∃ packages, sendPackages peer maxTaskPerPkg hmax taskVec numTaskLeft numTaskBeenSent =
        .ok (packagesText peer packages ++ if numTaskLeft = 0 then [] else ['$']) ∧
      packages.flatten = taskVec.drop numTaskBeenSent ∧
      ∀ tasks ∈ packages, tasks ≠ [] ∧ tasks.length ≤ maxTaskPerPkg := by
  induction numTaskLeft using Nat.strongRecOn generalizing numTaskBeenSent with
  | ind numTaskLeft ih =>
    rw [sendPackages]
    by_cases hleft : numTaskLeft = 0
    · refine ⟨[], ?_, ?_, fun tasks h => absurd h not_mem_nil⟩
      · rw [dif_pos hleft, if_pos hleft]
        rfl
      · rw [drop_eq_nil_of_le (by omega)]
        rfl
    · rw [dif_neg hleft, if_neg hleft]
      generalize hn : (if numTaskLeft ≤ maxTaskPerPkg then numTaskLeft else maxTaskPerPkg) = n
      have hnpos : 0 < n ∧ n ≤ maxTaskPerPkg ∧ n ≤ numTaskLeft := by
        subst hn
        split
        · next hle => exact ⟨Nat.pos_of_ne_zero hleft, hle, Nat.le_refl _⟩
        · next hlt => exact ⟨hmax, Nat.le_refl _, by omega⟩
      obtain ⟨hpos, hle, hleLeft⟩ := hnpos
      have hsum' : numTaskBeenSent + n + (numTaskLeft - n) = taskVec.length := by omega
      obtain ⟨packages, hrest, hflat, hsizes⟩ := ih (numTaskLeft - n) (by omega) hsum'
      have hbound : numTaskBeenSent + n ≤ taskVec.length := by omega
      have htasks := mapM_at hbound
      have hlength : ((taskVec.drop numTaskBeenSent).take n).length = n := by
        rw [length_take, length_drop]
        omega
      refine ⟨(taskVec.drop numTaskBeenSent).take n :: packages, ?_, ?_, ?_⟩
      · have hmsg : packageMsg peer ((taskVec.drop numTaskBeenSent).take n) =
            { msgtype := batchType peer, count := some n,
              tasks := ((taskVec.drop numTaskBeenSent).take n).map taskmsgToStr } := by
          rw [packageMsg, hlength]
        simp only [htasks, hrest, bind, Except.bind, packagesText, flatMap_cons, hmsg, sendMul]
        by_cases hend : numTaskLeft ≤ maxTaskPerPkg
        · -- the last package: nothing is left behind it
          obtain rfl : numTaskLeft = n := by rw [← hn, if_pos hend]
          have hnone : packages = [] := by
            rw [drop_eq_nil_of_le (by omega)] at hflat
            refine eq_nil_iff_forall_not_mem.mpr fun tasks hmem => (hsizes tasks hmem).1 ?_
            exact flatten_eq_nil_iff.mp hflat tasks hmem
          simp [hnone, hend]
        · have hmore : numTaskLeft - n ≠ 0 := by
            rw [if_neg hend] at hn
            omega
          simp [hend, hmore]
      · rw [flatten_cons, hflat, ← drop_drop]
        exact take_append_drop _ _
      · intro tasks hmem
        obtain rfl | hmem := mem_cons.mp hmem
        · refine ⟨fun hnil => ?_, Nat.le_trans (Nat.le_of_eq hlength) hle⟩
          rw [hnil] at hlength
          exact Nat.ne_of_lt hpos hlength
        · exact hsizes tasks hmem

theorem packageMsg_valid (hpeer : ∀ c ∈ peer, c ∉ ['&', '#']) (htasks : ∀ t ∈ tasks, t.Valid)
    (hlength : tasks.length < 2 ^ 31) : (packageMsg peer tasks).Valid where
  msgtype := by
    refine ⟨by simp [packageMsg, batchType], fun c hc => ?_⟩
    obtain hc | hc := mem_append.mp hc
    · exact hpeer c hc
    · exact (by decide +kernel : Free ['&', '#'] " send tasks".toList).2 c hc
  extrainfo := rfl
  count := ⟨tasks.length, rfl, by omega, by omega⟩
  tasks t ht := by
    obtain ⟨task, htask, rfl⟩ := mem_map.mp ht
    exact (htasks task htask).free

theorem recvPackage_packageMsg (hpeer : ∀ c ∈ peer, c ∉ ['&', '#'])
    (htasks : ∀ t ∈ tasks, t.Valid) (hlength : tasks.length < 2 ^ 31) :
    recvPackage (mmToStr (packageMsg peer tasks)) = .ok tasks := by
  have hrange :
    (range tasks.length).mapM (fun i => at' (tasks.map taskmsgToStr) (i + 0) >>= strToTaskmsg) =
    _ :=
    mapM_range_at strToTaskmsg (by simp)
  have hread : (tasks.map taskmsgToStr).mapM strToTaskmsg = .ok tasks := by
    rw [mapM_map]
    exact (mapM_eq_ok (g := id) fun t ht => strToTaskmsg_taskmsgToStr (htasks t ht)).trans
      (by rw [map_id])
  rw [drop_zero, take_of_length_le (by simp), hread] at hrange
  exact bind_eq_ok.mpr ⟨_, strToMm_mmToStr (packageMsg_valid hpeer htasks hlength), hrange⟩

/-! ### The whole batch -/

/-- The first message. -/
def numTaskMsg (peer : Text) (n : Nat) : MatrixMsg := { msgtype := batchType peer, count := some n }

theorem numTaskMsg_valid (hpeer : ∀ c ∈ peer, c ∉ ['&', '#']) (hn : n < 2 ^ 31) :
    (numTaskMsg peer n).Valid where
  msgtype := by
    have hvalid : (packageMsg peer []).Valid :=
      packageMsg_valid hpeer (fun _ h => absurd h not_mem_nil) (by decide)
    exact hvalid.msgtype
  extrainfo := rfl
  count := ⟨n, rfl, by omega, by omega⟩
  tasks t ht := absurd ht not_mem_nil

/-- The messages of a batch are split at `##`. -/
theorem tokenize_batch {packages : List (List TaskMsg)} (hpeer : ∀ c ∈ peer, c ∉ ['&', '#'])
    (hn : n < 2 ^ 31)
    (hvalid : ∀ tasks ∈ packages, (packageMsg peer tasks).Valid) :
    tokenize (mmToStr (numTaskMsg peer n) ++ ['#', '#'] ++ packagesText peer packages) ['#', '#'] =
      mmToStr (numTaskMsg peer n) :: packages.map fun tasks => mmToStr (packageMsg peer tasks) := by
  have htext : mmToStr (numTaskMsg peer n) ++ ['#', '#'] ++ packagesText peer packages =
      (mmToStr (numTaskMsg peer n) :: packages.map fun tasks =>
      mmToStr (packageMsg peer tasks)).flatMap (· ++ ['#', '#']) := by
    rw [flatMap_cons, flatMap_map]
    rfl
  rw [htext]
  refine tokenize_flatMap fun t ht => ?_
  obtain rfl | ht := mem_cons.mp ht
  · exact (numTaskMsg_valid hpeer hn).free
  · obtain ⟨tasks, hmem, rfl⟩ := mem_map.mp ht
    exact (hvalid tasks hmem).free

/-- **A batch is received as it was sent**, package by package. -/
theorem batch_received (hpeer : ∀ c ∈ peer, c ∉ ['&', '#']) (htasks : ∀ t ∈ taskVec, t.Valid)
    (hlength : taskVec.length < 2 ^ 31) :
    ∃ str, sendBatchTasks taskVec peer maxTaskPerPkg hmax = .ok str ∧
      ((taskVec = [] ∧ recvTasks str = .ok none) ∨
        (taskVec ≠ [] ∧ ∃ packages, recvTasks str = .ok (some (taskVec.length, packages)) ∧
          packages.flatten = taskVec ∧ ∀ tasks ∈ packages, tasks ≠ [] ∧
          tasks.length ≤ maxTaskPerPkg)) := by
  have hdrop : ∀ text : Text, (text ++ ['$']).dropLast = text := fun text => dropLast_concat
  by_cases hnil : taskVec.length = 0
  · refine ⟨sendMul (mmToStr (numTaskMsg peer taskVec.length)) true, ?_,
      .inl ⟨length_eq_zero_iff.mp hnil, ?_⟩⟩
    · rw [sendBatchTasks, if_pos hnil]
      rfl
    · have htokens :
        tokenize (mmToStr (numTaskMsg peer taskVec.length) ++ ['#', '#'] ++ packagesText peer [])
        ['#', '#'] = _ :=
        tokenize_batch hpeer hlength fun _ h => absurd h not_mem_nil
      rw [packagesText, flatMap_nil, append_nil] at htokens
      rw [recvTasks, sendMul, if_pos rfl, hdrop]
      simp only [htokens]
      rfl
  · obtain ⟨packages, hsend, hflat, hsizes⟩ :=
      sendPackages_spec peer hmax (Nat.zero_add taskVec.length)
    rw [drop_zero] at hflat
    have hmem : ∀ tasks ∈ packages, ∀ t ∈ tasks, t.Valid := fun tasks hp t ht =>
      htasks t (hflat ▸ mem_flatten_of_mem hp ht)
    have hshort : ∀ tasks ∈ packages, tasks.length < 2 ^ 31 := fun tasks hp =>
      Nat.lt_of_le_of_lt (hflat ▸ (sublist_flatten_of_mem hp).length_le) hlength
    have hne : taskVec ≠ [] := fun h => hnil (congrArg length h)
    have hbatch : sendBatchTasks taskVec peer maxTaskPerPkg hmax =
        .ok (mmToStr (numTaskMsg peer taskVec.length) ++ ['#', '#'] ++ packagesText peer packages ++
        ['$']) := by
      rw [sendBatchTasks]
      simp only [if_neg hnil, hsend, bind, Except.bind, sendMul, numTaskMsg,
        Bool.false_eq_true, if_false, append_nil, append_assoc]
    refine ⟨_, hbatch, .inr ⟨hne, packages, ?_, hflat, hsizes⟩⟩
    have htokens :=
      tokenize_batch hpeer hlength fun tasks hp => packageMsg_valid hpeer (hmem tasks hp)
        (hshort tasks hp)
    have hpackages : packages.length ≠ 0 := by
      intro hzero
      rw [length_eq_zero_iff.mp hzero] at hflat
      exact hne hflat.symm
    have hread :
      (packages.map fun tasks => mmToStr (packageMsg peer tasks)).mapM recvPackage =
      .ok packages := by
      rw [mapM_map]
      exact (mapM_eq_ok (g := id) fun tasks hp => recvPackage_packageMsg hpeer (hmem tasks hp)
        (hshort tasks hp)).trans
        (by rw [map_id])
    rw [recvTasks, hdrop]
    simp only [htokens, length_cons, length_map, drop_succ_cons]
    rw [if_neg (by omega)]
    refine bind_eq_ok.mpr
      ⟨_, rfl, bind_eq_ok.mpr ⟨_, strToMm_mmToStr (numTaskMsg_valid hpeer hlength), ?_⟩⟩
    exact bind_eq_ok.mpr ⟨packages, hread, rfl⟩

def threeTasks : List TaskMsg :=
  [⟨"1".toList, "u".toList, "d".toList, "ls".toList, 5⟩,
  ⟨"2".toList, "u".toList, "d".toList, "ls".toList, -1⟩,
    ⟨"3".toList, "u".toList, "d".toList, "ls".toList, 0⟩]

/-- Three tasks in packages of two. -/
theorem batch_received_three :
    ∃ str, sendBatchTasks threeTasks "n1".toList 2 (by decide) = .ok str ∧
      ((threeTasks = [] ∧ recvTasks str = .ok none) ∨
        (threeTasks ≠ [] ∧ ∃ packages, recvTasks str = .ok (some (threeTasks.length, packages)) ∧
          packages.flatten = threeTasks ∧ ∀ tasks ∈ packages, tasks ≠ [] ∧ tasks.length ≤ 2)) :=
  batch_received (by decide +kernel : Free ['&', '#'] "n1".toList).2 (by decide +kernel) (by decide)

end CharmRuntime.Matrix
