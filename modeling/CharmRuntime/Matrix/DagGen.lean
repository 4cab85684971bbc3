import CharmRuntime.Lib.OrderedMap
import Mathlib.Tactic.Ring

/-!
# Matrix.DagGen

The **task graphs** that a MATRIX client generates, `gen_dag_adjlist` and what is around it in
`util.cpp`. A graph is a map from each task to the tasks that wait for it.

Each generator inserts entries into an empty map, and all of them have different keys (`botEntries`,
`fanoutEntries`, ..), so that the map is known by the list of the entries (`Generated`). The numbers
fit a `long`, so that they are natural numbers here.
-/

namespace CharmRuntime.Matrix

open Lib List

/-- `adjList`. -/
abbrev AdjList := OrderedMap Nat (List Nat)

def genBotAdjlist (dagAdjList : AdjList) (numTask : Nat) : AdjList :=
  (List.range numTask).foldl (fun m i => OrderedMap.insertNew i [] m) dagAdjList

/-- The list of a task in `gen_fanout_adjlist`: the loop over `j` stops behind the last task. -/
def fanoutList (dagArg numTask i : Nat) : List Nat :=
  ((List.range' 1 dagArg).map fun j => i * dagArg + j).takeWhile (· < numTask)

def genFanoutAdjlist (dagAdjList : AdjList) (dagArg numTask : Nat) : AdjList :=
  (List.range numTask).foldl (fun m i => OrderedMap.insertNew i (fanoutList dagArg numTask i) m)
    dagAdjList

def genFaninAdjlist (dagAdjList : AdjList) (dagArg numTask : Nat) : AdjList :=
  let tmpAdjList := genFanoutAdjlist [] dagArg numTask
  let m := (List.range numTask).foldl (fun m i =>
    let reverseId := numTask - 1 - i
    let tmpList := (OrderedMap.find i tmpAdjList).getD []
    tmpList.reverse.foldl (fun m child => OrderedMap.insertNew (numTask - 1 - child) [reverseId] m)
      m) dagAdjList
  OrderedMap.insertNew (numTask - 1) [] m

/-- The list of a task in `gen_pipeline_adjlist`. -/
def pipelineList (dagArg numTask index : Nat) : List Nat :=
  let next := index + 1
  if next % dagArg ≠ 0 ∧ next < numTask then [next] else []

def genPipelineAdjlist (dagAdjList : AdjList) (dagArg numTask : Nat) : AdjList :=
  let numPipe := numTask / dagArg
  let m := (List.range numPipe).foldl (fun m i =>
    (List.range dagArg).foldl (fun m j =>
      let index := i * dagArg + j
      OrderedMap.insertNew index (pipelineList dagArg numTask index) m) m) dagAdjList
  -- the last pipeline may be shorter
  (List.range' (numPipe * dagArg) (numTask - numPipe * dagArg)).foldl (fun m index =>
    OrderedMap.insertNew index (pipelineList dagArg numTask index) m) m

def genDagAdjlist (dagAdjList : AdjList) (dagType : String) (dagArg numTask : Nat) : AdjList :=
  if dagType = "BOT" then genBotAdjlist dagAdjList numTask
  else if dagType = "FanOut" then genFanoutAdjlist dagAdjList dagArg numTask
  else if dagType = "FanIn" then genFaninAdjlist dagAdjList dagArg numTask
  else if dagType = "Pipeline" then genPipelineAdjlist dagAdjList dagArg numTask
  else dagAdjList

/-- `dagInDegree[child]++`. -/
def countParent (m : OrderedMap Nat Nat) (child : Nat) : OrderedMap Nat Nat :=
  OrderedMap.upsert child (fun o => o.getD 0 + 1) m

def genDagIndegree (dagAdjList : AdjList) (dagInDegree : OrderedMap Nat Nat) : OrderedMap Nat Nat :=
  let m := (List.range dagAdjList.length).foldl (fun m i => OrderedMap.upsert i (fun _ => 0) m)
    dagInDegree
  dagAdjList.foldl (fun m e => e.2.foldl countParent m) m

/-- `dagParentList.find(child)->second.push_back(index)`; there is no such entry if the child is no
task. -/
def pushParent (index : Nat) (m : AdjList) (child : Nat) : Option AdjList :=
  (OrderedMap.find child m).map fun parents => OrderedMap.upsert child
    (fun _ => parents ++ [index]) m

def genDagParents (dagAdjList dagParentList : AdjList) : Option AdjList :=
  let m := (List.range dagAdjList.length).foldl (fun m i => OrderedMap.insertNew i [] m)
    dagParentList
  dagAdjList.foldlM (fun m e => e.2.foldlM (pushParent e.1) m) m

/-! ### The entries of a graph -/

/-- The map has the entries of the list, whose keys are different. -/
structure Generated (l : List (Nat × List Nat)) (adj : AdjList) : Prop where
  nodup : (l.map (·.1)).Nodup
  eq : adj = OrderedMap.insertAll l []

def botEntries (numTask : Nat) : List (Nat × List Nat) := (List.range numTask).map fun i => (i, [])

def fanoutEntries (dagArg numTask : Nat) : List (Nat × List Nat) :=
  (List.range numTask).map fun i => (i, fanoutList dagArg numTask i)

/-- The entries in the list of the task `i`, turned round. -/
def flippedEntries (dagArg numTask i : Nat) : List (Nat × List Nat) :=
  (fanoutList dagArg numTask i).reverse.map fun child => (numTask - 1 - child, [numTask - 1 - i])

def faninEntries (dagArg numTask : Nat) : List (Nat × List Nat) :=
  (List.range numTask).flatMap (flippedEntries dagArg numTask) ++ [(numTask - 1, [])]

def pipelineEntries (dagArg numTask : Nat) : List (Nat × List Nat) :=
  (List.range numTask).map fun i => (i, pipelineList dagArg numTask i)

/-- There is an edge from `i` to `j`. -/
def Edge (adj : AdjList) (i j : Nat) : Prop := ∃ children, OrderedMap.find i adj = some children ∧
    j ∈ children

variable {l : List (Nat × List Nat)} {adj : AdjList} {dagArg numTask i j : Nat}

theorem Generated.ascending (h : Generated l adj) : OrderedMap.Ascending adj := by
  rw [h.eq]
  exact OrderedMap.Ascending.insertAll Pairwise.nil l

variable {children : List Nat} {n : Nat} {m : OrderedMap Nat Nat} {ps : Nat → List Nat}

theorem Generated.find_iff (h : Generated l adj) :
    OrderedMap.find i adj = some children ↔ (i, children) ∈ l := by
  rw [h.eq, OrderedMap.find_insertAll Pairwise.nil h.nodup fun e _ => rfl]
  exact or_iff_left (fun hnone => by cases hnone)

theorem Generated.edge_iff (h : Generated l adj) :
    Edge adj i j ↔ ∃ children, (i, children) ∈ l ∧ j ∈ children :=
  exists_congr fun _ => and_congr_left fun _ => h.find_iff

theorem Generated.keys (h : Generated l adj) (hkeys : ∀ i, i ∈ l.map (·.1) ↔ i < numTask) :
    adj.map (·.1) = List.range numTask := by
  refine OrderedMap.keys_eq h.ascending pairwise_lt_range fun i => ?_
  rw [mem_range, ← hkeys, mem_map]
  constructor
  · intro hne
    obtain ⟨children, hfind⟩ := Option.ne_none_iff_exists'.mp hne
    exact ⟨_, h.find_iff.mp hfind, rfl⟩
  · rintro ⟨e, he, rfl⟩
    rw [h.find_iff.mpr he]
    exact Option.some_ne_none _

/-! ### The four generators -/

theorem nodup_map_range (f : Nat → List Nat) (n : Nat) :
    (((List.range n).map fun i => (i, f i)).map (·.1)).Nodup := by
  rw [map_map]
  exact (map_id _).symm ▸ nodup_range

theorem mem_map_range {f : Nat → List Nat} :
    i ∈ ((List.range n).map fun i => (i, f i)).map (·.1) ↔ i < n := by
  rw [map_map]
  exact (map_id (range n)).symm ▸ mem_range

theorem generated_bot (numTask : Nat) :
    Generated (botEntries numTask) (genBotAdjlist [] numTask) where
  nodup := nodup_map_range _ _
  eq := by rw [genBotAdjlist, OrderedMap.insertAll, botEntries, foldl_map]

theorem generated_fanout (dagArg numTask : Nat) :
    Generated (fanoutEntries dagArg numTask) (genFanoutAdjlist [] dagArg numTask) where
  nodup := nodup_map_range _ _
  eq := by rw [genFanoutAdjlist, OrderedMap.insertAll, fanoutEntries, foldl_map]

theorem takeWhile_range' (n : Nat) (d : Nat) :
    ∀ k, (List.range' k d).takeWhile (· < n) = List.range' k (min d (n - k)) := by
  induction d with
  | zero =>
    intro k
    rfl
  | succ d ih =>
    intro k
    rw [range'_succ]
    by_cases hk : k < n
    · have hmin : min (d + 1) (n - k) = min d (n - (k + 1)) + 1 := by omega
      rw [takeWhile_cons_of_pos (by simpa using hk), ih, hmin, range'_succ]
    · have hmin : min (d + 1) (n - k) = 0 := by omega
      rw [takeWhile_cons_of_neg (by simpa using Nat.le_of_not_lt hk), hmin]
      rfl

theorem fanoutList_eq (dagArg numTask i : Nat) :
    fanoutList dagArg numTask i = List.range' (i * dagArg + 1)
      (min dagArg (numTask - (i * dagArg + 1))) := by
  have hmap : ((range' 1 dagArg).map fun j => i * dagArg + j) = range' (i * dagArg + 1) dagArg := by
    rw [map_add_range']
  rw [fanoutList, hmap, takeWhile_range']

theorem mem_fanoutList :
    j ∈ fanoutList dagArg numTask i ↔ i * dagArg < j ∧ j ≤ i * dagArg + dagArg ∧ j < numTask := by
  rw [fanoutList_eq, mem_range'_1]
  omega

theorem nodup_fanoutList (dagArg numTask i : Nat) : (fanoutList dagArg numTask i).Nodup := by
  rw [fanoutList_eq]
  exact nodup_range' ..

theorem length_fanoutList_le (dagArg numTask i : Nat) :
    (fanoutList dagArg numTask i).length ≤ dagArg := by
  rw [fanoutList_eq, length_range']
  exact min_le_left _ _

/-- The task that `j` waits for. -/
theorem mem_fanoutList_iff_parent (harg : 0 < dagArg) :
    j ∈ fanoutList dagArg numTask i ↔ i = (j - 1) / dagArg ∧ 0 < j ∧ j < numTask := by
  rw [mem_fanoutList]
  constructor
  · rintro ⟨hlow, hhigh, hj⟩
    refine ⟨?_, by omega, hj⟩
    symm
    rw [Nat.div_eq_iff harg]
    omega
  · rintro ⟨hi, hpos, hj⟩
    have hdiv := (Nat.div_eq_iff harg).mp hi.symm
    omega

theorem lt_of_mem_fanoutList (harg : 0 < dagArg) (h : j ∈ fanoutList dagArg numTask i) : i < j := by
  obtain ⟨hlow, -, -⟩ := mem_fanoutList.mp h
  exact lt_of_le_of_lt (Nat.le_mul_of_pos_right i harg) hlow

theorem mem_flippedKeys (harg : 0 < dagArg) {k : Nat} :
    k ∈ (flippedEntries dagArg numTask i).map (·.1) ↔
      k + 1 < numTask ∧ numTask - 1 - k ∈ fanoutList dagArg numTask i := by
  rw [flippedEntries, map_map, mem_map]
  constructor
  · rintro ⟨c, hc, rfl⟩
    rw [mem_reverse] at hc
    obtain ⟨-, hpos, hlt⟩ := (mem_fanoutList_iff_parent harg).mp hc
    have hback : numTask - 1 - (numTask - 1 - c) = c := by omega
    simp only [Function.comp_apply, hback]
    exact ⟨by omega, hc⟩
  · rintro ⟨hk, hmem⟩
    exact ⟨_, mem_reverse.mpr hmem, by simp only [Function.comp_apply]; omega⟩

theorem nodup_faninKeys (harg : 0 < dagArg) : ((faninEntries dagArg numTask).map (·.1)).Nodup := by
  rw [faninEntries, map_append, map_flatMap, map_singleton, nodup_append]
  refine ⟨nodup_flatMap.mpr ⟨fun i _ => ?_, ?_⟩, nodup_singleton _, ?_⟩
  · rw [flippedEntries, map_map]
    refine (nodup_reverse.mpr (nodup_fanoutList _ _ _)).map_on fun c hc c' hc' heq => ?_
    rw [mem_reverse, mem_fanoutList] at hc hc'
    simp only [Function.comp_apply] at heq
    omega
  · refine nodup_range.imp fun {i i'} hne => ?_
    intro k hk hk'
    obtain ⟨-, hmem⟩ := (mem_flippedKeys harg).mp hk
    obtain ⟨-, hmem'⟩ := (mem_flippedKeys harg).mp hk'
    exact hne (((mem_fanoutList_iff_parent harg).mp hmem).1.trans
      ((mem_fanoutList_iff_parent harg).mp hmem').1.symm)
  · intro k hk k' hk' heq
    obtain ⟨i, -, hmem⟩ := mem_flatMap.mp hk
    obtain ⟨hlt, -⟩ := (mem_flippedKeys harg).mp hmem
    rw [mem_singleton] at hk'
    omega

theorem find_genFanoutAdjlist (hi : i < numTask) :
    OrderedMap.find i (genFanoutAdjlist [] dagArg numTask) = some (fanoutList dagArg numTask i) :=
  (generated_fanout dagArg numTask).find_iff.mpr (mem_map.mpr ⟨i, mem_range.mpr hi, rfl⟩)

theorem generated_fanin (harg : 0 < dagArg) (numTask : Nat) :
    Generated (faninEntries dagArg numTask) (genFaninAdjlist [] dagArg numTask) where
  nodup := nodup_faninKeys harg
  eq := by
    have hloop : ∀ m : AdjList, (range numTask).foldl (fun m i =>
        ((OrderedMap.find i (genFanoutAdjlist [] dagArg numTask)).getD []).reverse.foldl
          (fun m child => OrderedMap.insertNew (numTask - 1 - child) [numTask - 1 - i] m) m) m =
        OrderedMap.insertAll ((range numTask).flatMap (flippedEntries dagArg numTask)) m := by
      intro m
      rw [OrderedMap.insertAll, foldl_flatMap]
      refine foldl_ext _ _ _ fun m i hi => ?_
      rw [find_genFanoutAdjlist (mem_range.mp hi), Option.getD_some, flippedEntries, foldl_map]
    rw [genFaninAdjlist, faninEntries, OrderedMap.insertAll, foldl_append]
    simp only [hloop]
    rfl

theorem range_pipelines (dagArg n : Nat) :
    List.range n = ((List.range (n / dagArg)).flatMap fun i => (List.range dagArg).map fun j => i *
    dagArg + j) ++
      List.range' (n / dagArg * dagArg) (n - n / dagArg * dagArg) := by
  have hblocks : ∀ m, ((range m).flatMap fun i => (range dagArg).map fun j => i * dagArg + j) =
      range (m * dagArg) := by
    intro m
    induction m with
    | zero => simp
    | succ m ih =>
      rw [range_succ, flatMap_append, ih, Nat.succ_mul, range_add]
      simp
  have hle : n / dagArg * dagArg ≤ n := Nat.div_mul_le_self n dagArg
  have happend := @range'_append_1 0 (n / dagArg * dagArg) (n - n / dagArg * dagArg)
  rw [zero_add, Nat.add_sub_cancel' hle] at happend
  rw [hblocks, range_eq_range', range_eq_range', happend]

theorem generated_pipeline (dagArg numTask : Nat) :
    Generated (pipelineEntries dagArg numTask) (genPipelineAdjlist [] dagArg numTask) where
  nodup := nodup_map_range _ _
  eq := by
    rw [pipelineEntries, range_pipelines dagArg numTask, map_append, map_flatMap,
      OrderedMap.insertAll, foldl_append, foldl_flatMap, genPipelineAdjlist]
    simp only [foldl_map, Function.comp_def]

/-! ### The edges -/

theorem not_edge_bot : ¬ Edge (genBotAdjlist [] numTask) i j := by
  rw [(generated_bot numTask).edge_iff]
  rintro ⟨children, hmem, hj⟩
  obtain ⟨x, -, heq⟩ := mem_map.mp hmem
  rw [← (Prod.mk.inj heq).2] at hj
  exact absurd hj not_mem_nil

theorem edge_fanout : Edge (genFanoutAdjlist [] dagArg numTask) i j ↔ i < numTask ∧
    j ∈ fanoutList dagArg numTask i := by
  rw [(generated_fanout dagArg numTask).edge_iff]
  constructor
  · rintro ⟨children, hmem, hj⟩
    obtain ⟨x, hx, heq⟩ := mem_map.mp hmem
    obtain ⟨rfl, rfl⟩ := Prod.mk.inj heq
    exact ⟨mem_range.mp hx, hj⟩
  · rintro ⟨hi, hj⟩
    exact ⟨_, mem_map.mpr ⟨i, mem_range.mpr hi, rfl⟩, hj⟩

theorem mem_faninEntries (harg : 0 < dagArg) : (i, children) ∈ faninEntries dagArg numTask ↔
      (i + 1 < numTask ∧ children = [numTask - 1 - (numTask - 1 - i - 1) / dagArg]) ∨
        (i = numTask - 1 ∧ children = []) := by
  rw [faninEntries, mem_append, mem_singleton, Prod.mk.injEq, mem_flatMap]
  refine or_congr_left ⟨?_, ?_⟩
  · rintro ⟨x, -, hmem⟩
    obtain ⟨c, hc, heq⟩ := mem_map.mp hmem
    obtain ⟨rfl, rfl⟩ := Prod.mk.inj heq
    obtain ⟨hx, hpos, hlt⟩ := (mem_fanoutList_iff_parent harg).mp (mem_reverse.mp hc)
    have hback : numTask - 1 - (numTask - 1 - c) = c := by omega
    rw [hback, ← hx]
    exact ⟨by omega, rfl⟩
  · rintro ⟨hi, rfl⟩
    have hparent : numTask - 1 - i ∈ fanoutList dagArg numTask ((numTask - 1 - i - 1) / dagArg) :=
      (mem_fanoutList_iff_parent harg).mpr ⟨rfl, by omega, by omega⟩
    have hlt := lt_of_mem_fanoutList harg hparent
    refine ⟨_, mem_range.mpr (by omega), mem_map.mpr ⟨_, mem_reverse.mpr hparent, ?_⟩⟩
    have hback : numTask - 1 - (numTask - 1 - i) = i := by omega
    rw [hback]

theorem edge_fanin (harg : 0 < dagArg) : Edge (genFaninAdjlist [] dagArg numTask) i j ↔
      i + 1 < numTask ∧ j = numTask - 1 - (numTask - 1 - i - 1) / dagArg := by
  rw [(generated_fanin harg numTask).edge_iff]
  constructor
  · rintro ⟨children, hmem, hj⟩
    obtain ⟨hi, rfl⟩ | ⟨-, rfl⟩ := (mem_faninEntries harg).mp hmem
    · exact ⟨hi, mem_singleton.mp hj⟩
    · exact absurd hj not_mem_nil
  · rintro ⟨hi, rfl⟩
    exact ⟨_, (mem_faninEntries harg).mpr (.inl ⟨hi, rfl⟩), mem_singleton_self _⟩

theorem mem_pipelineList : j ∈ pipelineList dagArg numTask i ↔ j = i + 1 ∧ (i + 1) % dagArg ≠ 0 ∧
    i + 1 < numTask := by
  rw [pipelineList]
  split
  · rename_i h
    rw [mem_singleton]
    exact ⟨fun hj => ⟨hj, h⟩, fun hj => hj.1⟩
  · rename_i h
    exact ⟨fun hj => absurd hj not_mem_nil, fun hj => absurd hj.2 h⟩

theorem same_group_iff (dagArg i : Nat) : i / dagArg = (i + 1) / dagArg ↔ (i + 1) % dagArg ≠ 0 := by
  rw [Nat.succ_div]
  split
  · rename_i h
    simp [Nat.mod_eq_zero_of_dvd h]
  · rename_i h
    simp only [add_zero, true_iff]
    exact fun hzero => h (Nat.dvd_of_mod_eq_zero hzero)

theorem edge_pipeline :
    Edge (genPipelineAdjlist [] dagArg numTask) i j ↔ j = i + 1 ∧ j < numTask ∧
    i / dagArg = j / dagArg := by
  rw [(generated_pipeline dagArg numTask).edge_iff]
  constructor
  · rintro ⟨children, hmem, hj⟩
    obtain ⟨x, -, heq⟩ := mem_map.mp hmem
    obtain ⟨rfl, rfl⟩ := Prod.mk.inj heq
    obtain ⟨rfl, hmod, hlt⟩ := mem_pipelineList.mp hj
    exact ⟨rfl, hlt, (same_group_iff dagArg x).mpr hmod⟩
  · rintro ⟨rfl, hlt, hgroup⟩
    refine ⟨_, mem_map.mpr ⟨i, mem_range.mpr (by omega), rfl⟩, mem_pipelineList.mpr ⟨rfl, ?_, hlt⟩⟩
    exact (same_group_iff dagArg i).mp hgroup

/-! ### In-degrees and parents -/

theorem find_countParents (h : OrderedMap.Ascending m) (cs : List Nat) {a : Nat}
    (hj : OrderedMap.find j m = some a) :
    OrderedMap.find j (cs.foldl countParent m) = some (a + cs.count j) := by
  induction cs generalizing m a with
  | nil => exact hj
  | cons c cs ih =>
    have hstep : OrderedMap.find j (countParent m c) = some (a + if c = j then 1 else 0) := by
      rw [countParent, OrderedMap.find_upsert h]
      by_cases hc : j = c
      · rw [if_pos hc, if_pos hc.symm, ← hc, hj, Option.getD_some]
      · rw [if_neg hc, if_neg (Ne.symm hc), hj, add_zero]
    have hrest := ih h.upsert hstep
    rw [count_cons]
    simp only [beq_iff_eq]
    rw [← add_assoc, add_right_comm]
    exact hrest

theorem find_zeros (h : OrderedMap.Ascending m) (is : List Nat) :
    OrderedMap.Ascending (is.foldl (fun m i => OrderedMap.upsert i (fun _ => 0) m) m) ∧
      (j ∈ is ∨ OrderedMap.find j m = some 0 →
        OrderedMap.find j (is.foldl (fun m i => OrderedMap.upsert i (fun _ => 0) m) m) =
        some 0) := by
  induction is generalizing m with
  | nil => exact ⟨h, fun hor => hor.elim (fun hmem => absurd hmem not_mem_nil) id⟩
  | cons i is ih =>
    obtain ⟨hasc, hfind⟩ := @ih (OrderedMap.upsert i (fun _ => 0) m) h.upsert
    refine ⟨hasc, fun hor => hfind ?_⟩
    rw [OrderedMap.find_upsert h]
    by_cases hi : j = i
    · rw [if_pos hi]
      exact .inr rfl
    · rw [if_neg hi]
      obtain hmem | hzero := hor
      · exact .inl ((mem_cons.mp hmem).resolve_left hi)
      · exact .inr hzero

theorem find_genDagIndegree (hj : j < adj.length) :
    OrderedMap.find j (genDagIndegree adj []) = some ((adj.flatMap (·.2)).count j) := by
  obtain ⟨hasc, hzero⟩ := @find_zeros j [] Pairwise.nil (range adj.length)
  rw [genDagIndegree, ← foldl_flatMap]
  have hcount := find_countParents hasc (adj.flatMap (·.2)) (hzero (.inl (mem_range.mpr hj)))
  rw [zero_add] at hcount
  exact hcount

/-- The lists of the tasks below `n`. -/
def Holds (n : Nat) (ps : Nat → List Nat) (m : AdjList) : Prop :=
  OrderedMap.Ascending m ∧ ∀ j < n, OrderedMap.find j m = some (ps j)

theorem holds_pushParents {m : AdjList} (h : Holds n ps m) {cs : List Nat}
    (hcs : ∀ c ∈ cs, c < n) (index : Nat) :
    ∃ m', cs.foldlM (pushParent index) m = some m' ∧
    Holds n (fun j => ps j ++ List.replicate (cs.count j) index) m' := by
  induction cs generalizing m ps with
  | nil => exact ⟨m, rfl, h.1, fun j hj => by simpa using h.2 j hj⟩
  | cons c cs ih =>
    obtain ⟨hc, hcs⟩ := forall_mem_cons.mp hcs
    have hpush :
      pushParent index m c = some (OrderedMap.upsert c (fun _ => ps c ++ [index]) m) := by
      rw [pushParent, h.2 c hc, Option.map_some]
    have hstep : Holds n (fun j => if j = c then ps j ++ [index] else ps j)
        (OrderedMap.upsert c (fun _ => ps c ++ [index]) m) := by
      refine ⟨h.1.upsert, fun j hj => ?_⟩
      rw [OrderedMap.find_upsert h.1]
      by_cases hjc : j = c
      · simp [hjc]
      · simp [hjc, h.2 j hj]
    obtain ⟨m', hrun, hm'⟩ := ih hstep hcs
    refine ⟨m', ?_, hm'.1, fun j hj => ?_⟩
    · rw [foldlM_cons, hpush]
      exact hrun
    · refine (hm'.2 j hj).trans (congrArg some ?_)
      by_cases hjc : j = c
      · simp [hjc, replicate_succ]
      · simp [hjc, Ne.symm hjc]

theorem holds_pushAll {m : AdjList} (h : Holds n ps m) {es : AdjList}
    (hes : ∀ e ∈ es, ∀ c ∈ e.2, c < n) :
    ∃ m', es.foldlM (fun m e => e.2.foldlM (pushParent e.1) m) m = some m' ∧
      Holds n (fun j => ps j ++ es.flatMap fun e => List.replicate (e.2.count j) e.1) m' := by
  induction es generalizing m ps with
  | nil => exact ⟨m, rfl, h.1, fun j hj => by simpa using h.2 j hj⟩
  | cons e es ih =>
    obtain ⟨he, hes⟩ := forall_mem_cons.mp hes
    obtain ⟨m1, hrun1, hm1⟩ := holds_pushParents h he e.1
    obtain ⟨m2, hrun2, hm2⟩ := ih hm1 hes
    refine ⟨m2, ?_, hm2.1, fun j hj => ?_⟩
    · rw [foldlM_cons, hrun1]
      exact hrun2
    · refine (hm2.2 j hj).trans (congrArg some ?_)
      simp only [flatMap_cons, append_assoc]

theorem holds_empty (n : Nat) :
    Holds n (fun _ => []) ((List.range n).foldl (fun m i => OrderedMap.insertNew i [] m) []) := by
  have hgen := generated_bot n
  refine ⟨hgen.ascending, fun j hj => ?_⟩
  exact hgen.find_iff.mpr (mem_map.mpr ⟨j, mem_range.mpr hj, rfl⟩)

theorem genDagParents_spec (hadj : ∀ e ∈ adj, ∀ c ∈ e.2, c < adj.length) :
    ∃ parents, genDagParents adj [] = some parents ∧ ∀ j < adj.length,
      OrderedMap.find j parents = some (adj.flatMap fun e => List.replicate (e.2.count j) e.1) := by
  obtain ⟨parents, hrun, hparents⟩ := holds_pushAll (holds_empty adj.length) hadj
  refine ⟨parents, hrun, fun j hj => ?_⟩
  exact (hparents.2 j hj).trans (congrArg some (nil_append _))

/-! ### Consistency -/

/-- What all graphs have in common. -/
structure Dag (numTask : Nat) (adj : AdjList) : Prop where
  keys : adj.map (·.1) = List.range numTask
  edge_lt : ∀ i j, Edge adj i j → i < j ∧ j < numTask
  acyclic : ∀ i, ¬ Relation.TransGen (Edge adj) i i
  once : ∀ i children, OrderedMap.find i adj = some children → children.Nodup
  /-- The parents that are listed are counted. -/
  counted : ∃ parents, genDagParents adj [] = some parents ∧ ∀ j < numTask, ∃ l,
    OrderedMap.find j parents = some l ∧ (∀ i, i ∈ l ↔ Edge adj i j) ∧
      OrderedMap.find j (genDagIndegree adj []) = some l.length

theorem Generated.dag (h : Generated l adj) (hkeys : ∀ i, i ∈ l.map (·.1) ↔ i < numTask)
    (hedge : ∀ i j, Edge adj i j → i < j ∧ j < numTask) (honce : ∀ e ∈ l, e.2.Nodup) :
    Dag numTask adj := by
  have hlength : adj.length = numTask := by
    have hmap := congrArg length (h.keys hkeys)
    rwa [length_map, length_range] at hmap
  have hmem : ∀ {i children}, (i, children) ∈ adj ↔ OrderedMap.find i adj = some children :=
    (OrderedMap.find_eq_some_iff h.ascending).symm
  have hlt : ∀ {i j}, Relation.TransGen (Edge adj) i j → i < j := by
    intro i j hpath
    induction hpath with
    | single hij => exact (hedge _ _ hij).1
    | tail _ hij ih => exact lt_trans ih (hedge _ _ hij).1
  refine ⟨h.keys hkeys, hedge, fun i hcycle => lt_irrefl i (hlt hcycle),
    fun i children hfind => honce _ (h.find_iff.mp hfind), ?_⟩
  obtain ⟨parents, hrun, hparents⟩ := @genDagParents_spec adj (by
    intro e he c hc
    rw [hlength]
    exact (hedge e.1 c ⟨e.2, hmem.mp he, hc⟩).2)
  refine ⟨parents, hrun, fun j hj => ⟨_, hparents j (hlength.symm ▸ hj), fun i => ?_, ?_⟩⟩
  · rw [mem_flatMap]
    constructor
    · rintro ⟨e, he, hi⟩
      obtain ⟨hcount, rfl⟩ := mem_replicate.mp hi
      exact ⟨e.2, hmem.mp he, count_pos_iff.mp (pos_of_ne_zero hcount)⟩
    · rintro ⟨children, hfind, hj⟩
      exact ⟨(i, children), hmem.mpr hfind,
        mem_replicate.mpr ⟨pos_iff_ne_zero.mp (count_pos_iff.mpr hj), rfl⟩⟩
  · rw [find_genDagIndegree (hlength.symm ▸ hj), length_flatMap, count_flatMap]
    simp only [length_replicate]
    rfl

theorem dag_bot (numTask : Nat) : Dag numTask (genBotAdjlist [] numTask) := by
  refine (generated_bot numTask).dag (fun i => mem_map_range)
    (fun i j h => absurd h not_edge_bot) ?_
  intro e he
  obtain ⟨i, -, rfl⟩ := mem_map.mp he
  exact nodup_nil

theorem dag_fanout (harg : 0 < dagArg) (numTask : Nat) :
    Dag numTask (genFanoutAdjlist [] dagArg numTask) := by
  refine (generated_fanout dagArg numTask).dag (fun i => mem_map_range) (fun i j h => ?_) ?_
  · obtain ⟨-, hmem⟩ := edge_fanout.mp h
    exact ⟨lt_of_mem_fanoutList harg hmem, (mem_fanoutList.mp hmem).2.2⟩
  · intro e he
    obtain ⟨i, -, rfl⟩ := mem_map.mp he
    exact nodup_fanoutList _ _ _

theorem dag_fanin (harg : 0 < dagArg) (htask : 0 < numTask) :
    Dag numTask (genFaninAdjlist [] dagArg numTask) := by
  refine (generated_fanin harg numTask).dag (fun i => ?_) (fun i j h => ?_) ?_
  · rw [mem_map]
    constructor
    · rintro ⟨e, he, rfl⟩
      obtain ⟨hi, -⟩ | ⟨hi, -⟩ := (mem_faninEntries harg).mp he
      · omega
      · omega
    · intro hi
      by_cases hlast : i + 1 < numTask
      · exact ⟨_, (mem_faninEntries harg).mpr (.inl ⟨hlast, rfl⟩), rfl⟩
      · exact ⟨(i, []), (mem_faninEntries harg).mpr (.inr ⟨by omega, rfl⟩), rfl⟩
  · obtain ⟨hi, rfl⟩ := (edge_fanin harg).mp h
    have hle := Nat.div_le_self (numTask - 1 - i - 1) dagArg
    generalize (numTask - 1 - i - 1) / dagArg = parent at hle ⊢
    omega
  · intro e he
    obtain ⟨-, heq⟩ | ⟨-, heq⟩ := (mem_faninEntries harg).mp he
    · rw [heq]
      exact nodup_singleton _
    · rw [heq]
      exact nodup_nil

theorem dag_pipeline (dagArg numTask : Nat) :
    Dag numTask (genPipelineAdjlist [] dagArg numTask) := by
  refine (generated_pipeline dagArg numTask).dag (fun i => mem_map_range) (fun i j h => ?_) ?_
  · obtain ⟨rfl, hlt, -⟩ := edge_pipeline.mp h
    exact ⟨Nat.lt_succ_self i, hlt⟩
  · intro e he
    obtain ⟨i, -, rfl⟩ := mem_map.mp he
    rw [pipelineList]
    split
    · exact nodup_singleton _
    · exact nodup_nil

theorem edge_fanin_iff_fanout (harg : 0 < dagArg) : Edge (genFaninAdjlist [] dagArg numTask) i j ↔
      i < numTask ∧ j < numTask ∧ Edge (genFanoutAdjlist [] dagArg numTask) (numTask - 1 - j)
        (numTask - 1 - i) := by
  rw [edge_fanin harg, edge_fanout, mem_fanoutList_iff_parent harg]
  have hle := Nat.div_le_self (numTask - 1 - i - 1) dagArg
  generalize (numTask - 1 - i - 1) / dagArg = parent at hle ⊢
  omega

/-- **The graphs are consistent.** -/
theorem dags_consistent (harg : 1 ≤ dagArg) (htask : 1 ≤ numTask) :
    (∀ dagType ∈ ["BOT", "FanOut", "FanIn", "Pipeline"],
    Dag numTask (genDagAdjlist [] dagType dagArg numTask)) ∧
    (∀ i j, ¬ Edge (genDagAdjlist [] "BOT" dagArg numTask) i j) ∧
    (∀ j, 0 < j → j < numTask → ∃! i, Edge (genDagAdjlist [] "FanOut" dagArg numTask) i j) ∧
    (∀ i children, OrderedMap.find i (genDagAdjlist [] "FanOut" dagArg numTask) = some children →
      children.length ≤ dagArg) ∧
    (∀ i j, Edge (genDagAdjlist [] "FanIn" dagArg numTask) i j ↔ i < numTask ∧ j < numTask ∧
      Edge (genDagAdjlist [] "FanOut" dagArg numTask) (numTask - 1 - j) (numTask - 1 - i)) ∧
    (∀ i j, Edge (genDagAdjlist [] "Pipeline" dagArg numTask) i j ↔
      j = i + 1 ∧ j < numTask ∧ i / dagArg = j / dagArg) := by
  have hfanin : genDagAdjlist [] "FanIn" dagArg numTask = genFaninAdjlist [] dagArg numTask := rfl
  refine ⟨?_, fun i j => not_edge_bot, fun j hpos hlt => ?_, fun i children hfind => ?_,
    fun i j => edge_fanin_iff_fanout harg, fun i j => edge_pipeline⟩
  · simp only [forall_mem_cons, hfanin]
    exact ⟨dag_bot numTask, dag_fanout harg numTask, dag_fanin harg htask,
      dag_pipeline dagArg numTask, fun t ht => absurd ht not_mem_nil⟩
  · have hmem : j ∈ fanoutList dagArg numTask ((j - 1) / dagArg) :=
      (mem_fanoutList_iff_parent harg).mpr ⟨rfl, hpos, hlt⟩
    refine ⟨(j - 1) / dagArg, edge_fanout.mpr ⟨?_, hmem⟩, fun i hi => ?_⟩
    · exact lt_trans (lt_of_mem_fanoutList harg hmem) hlt
    · exact ((mem_fanoutList_iff_parent harg).mp (edge_fanout.mp hi).2).1
  · have hentry := (generated_fanout dagArg numTask).find_iff.mp hfind
    obtain ⟨x, -, heq⟩ := mem_map.mp hentry
    rw [← (Prod.mk.inj heq).2]
    exact length_fanoutList_le _ _ _

/-- Seven tasks, and groups of three. -/
theorem dags_consistent_seven :
    Dag 7 (genDagAdjlist [] "FanIn" 3 7) ∧ Edge (genDagAdjlist [] "Pipeline" 3 7) 3 4 := by
  obtain ⟨hdag, -, -, -, -, hpipeline⟩ := @dags_consistent 3 7 (by decide) (by decide)
  exact ⟨hdag "FanIn" (by decide), (hpipeline 3 4).mpr (by decide)⟩

end CharmRuntime.Matrix
