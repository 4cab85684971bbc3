import Mathlib.Data.List.Perm.Basic
import Mathlib.Data.List.Sort
import CharmRuntime.Lib.Outcome

/-!
# Util.RecursiveBisect

`getRecursiveBisectionList`: **the nodes of a machine for partitions of given sizes**. Partitions
and nodes are split in two until there is one partition left; the nodes are sorted along the longest
dimension of the box that they fill before each split, so that a partition is compact.

The split point is found by adding partitions as long as that comes closer to half of the nodes. The
first partition always does, and the last one never does, so both sides have partitions, with as
many nodes as they need (`splitLoop_spec`). `nnodes + 1` is taken not to overflow.
-/

namespace CharmRuntime.Util

open Lib List Nat

/-- What the bisection works with: `CmiPartitionSize`, the coordinates of the nodes, and
`std::sort`. -/
structure Bisection where
  partitionSize : Nat → Nat
  coords : Nat → Nat → Int
  sort : (Nat → Nat → Bool) → List Nat → List Nat

/-- The nodes that a partition gets: a segment of the list. -/
structure Segment where
  part : Nat
  first : Nat
  last : Nat
deriving DecidableEq

namespace Bisection

variable (c : Bisection)

/-- The dimensions, the longest one first. The lengths carry the dimension in their low bits. -/
def sortdims (nodes : List Nat) : List Nat :=
  match nodes with
  | [] => []
  | first :: _ =>
    let tlens := (List.range 5).map fun i =>
      let tmin := (nodes.map fun node => c.coords node i).foldl min (c.coords first i)
      let tmax := (nodes.map fun node => c.coords node i).foldl max (c.coords first i)
      (tmax - tmin + 1) * 8 + (4 - i : Int)
    (tlens.mergeSort fun x y => x ≤ y).reverse.map fun tlen => (4 - tlen % 8).toNat

/-- `node_sortop_topo`. -/
def before (sortdims : List Nat) (node1 node2 : Nat) : Bool :=
  match sortdims.find? fun d => c.coords node1 d ≠ c.coords node2 d with
  | some d => c.coords node1 d < c.coords node2 d
  | none => node1 < node2

/-- `sortLongest` of the nodes between two positions. -/
def sortLongest (nodes : List Nat) (node_begin node_end : Nat) : List Nat :=
  if node_begin = node_end then nodes
  else
    let range := (nodes.take node_end).drop node_begin
    nodes.take node_begin ++ c.sort (c.before (c.sortdims range)) range ++ nodes.drop node_end

/-- The loop that finds the split point: it, and the number of nodes before it. -/
def splitLoop (nsplit : Int) (part_end p ncount part_split : Nat) : Nat × Nat :=
  if p < part_end then
    let ps := c.partitionSize p
    if ((ncount : Int) + ps - nsplit).natAbs < ((ncount : Int) - nsplit).natAbs then
      splitLoop nsplit part_end (p + 1) (ncount + ps) (p + 1)
    else (part_split, ncount)
  else (part_split, ncount)
termination_by part_end - p

theorem splitLoop_bound (nsplit : Int) (part_end ncount : Nat) {p part_split : Nat}
    (h : part_split = p) :
    p ≤ (c.splitLoop nsplit part_end p ncount part_split).1 ∧
      ((c.splitLoop nsplit part_end p ncount part_split).1 = p ∨
        (c.splitLoop nsplit part_end p ncount part_split).1 ≤ part_end) := by
  fun_induction c.splitLoop nsplit part_end p ncount part_split with
  | case1 p ncount part_split hlt _ _ ih =>
    omega
  | case2 p ncount part_split => exact ⟨le_of_eq h.symm, .inl h⟩
  | case3 p ncount part_split => exact ⟨le_of_eq h.symm, .inl h⟩

/-- `recursive_bisect`: the list of the nodes afterwards, and the segments that are handed out. -/
def recursiveBisect (part_begin part_end node_begin node_end : Nat) (nodes : List Nat) :
    Except String (List Nat × List Segment) :=
  if part_end - part_begin = 1 then
    if (c.partitionSize part_begin : Int) ≠ (node_end : Int) - node_begin then
      .error "partitioning algorithm size mismatch in recursive_bisect()"
    else .ok (c.sortLongest nodes node_begin node_end, [⟨part_begin, node_begin, node_end⟩])
  else
    let nnodes : Int := (node_end : Int) - node_begin
    let nsplit := (nnodes + 1).tdiv 2
    let split := c.splitLoop nsplit part_end part_begin 0 part_begin
    if _h : split.1 = part_begin ∨ split.1 = part_end then
      .error "partitioning algorithm failure in recursive_bisect()"
    else do
      let node_split := node_begin + split.2
      let nodes := c.sortLongest nodes node_begin node_end
      let (nodes, left) ← recursiveBisect part_begin split.1 node_begin node_split nodes
      let (nodes, right) ← recursiveBisect split.1 part_end node_split node_end nodes
      return (nodes, left ++ right)
termination_by part_end - part_begin
decreasing_by
  all_goals
    obtain ⟨hle, hend⟩ := c.splitLoop_bound nsplit part_end 0 (Eq.refl part_begin)
    obtain ⟨hfirst, hlast⟩ := not_or.mp _h
    simp only [split, nsplit, nnodes] at *
    omega

/-- `getRecursiveBisectionList`. -/
def getRecursiveBisectionList (numNodes numparts : Nat) : Except String (List Nat × List Segment) :=
  let procList := List.range numNodes
  if numparts < 2 then .ok (procList, []) else c.recursiveBisect 0 numparts 0 numNodes procList

/-! ### The split point -/

/-- The number of nodes before a partition. -/
def partStart (p : Nat) : Nat := ((List.range p).map c.partitionSize).sum

/-- The segment of a partition, if each has as many nodes as its size says. -/
def segment (p : Nat) : Segment := ⟨p, c.partStart p, c.partStart (p + 1)⟩

theorem partStart_succ (p : Nat) : c.partStart (p + 1) = c.partStart p + c.partitionSize p := by
  unfold partStart
  rw [range_succ, map_append, sum_append, map_singleton, sum_singleton]

theorem partStart_mono {p q : Nat} (h : p ≤ q) : c.partStart p ≤ c.partStart q := by
  induction q, h using le_induction with
  | base => exact le_refl _
  | succ q _ ih =>
    rw [c.partStart_succ]
    omega

/-- The partition `q` comes closer to `nsplit` nodes from `first` on. -/
def Closer (nsplit : Int) (first q : Nat) : Prop :=
  ((c.partStart (q + 1) : Int) - c.partStart first - nsplit).natAbs <
  ((c.partStart q : Int) - c.partStart first - nsplit).natAbs

theorem closer_iff {nsplit : Int} {first q ncount : Nat}
    (hcount : c.partStart first + ncount = c.partStart q) :
    c.Closer nsplit first q ↔
      ((ncount : Int) + c.partitionSize q - nsplit).natAbs < ((ncount : Int) - nsplit).natAbs := by
  unfold Closer
  rw [c.partStart_succ, ← hcount,
    show ((c.partStart first + ncount + c.partitionSize q : Nat) : Int) - c.partStart first =
    ncount + c.partitionSize q by omega, show ((c.partStart first + ncount : Nat) : Int) -
    c.partStart first = ncount by omega]

theorem splitLoop_spec (nsplit : Int) (first part_end : Nat) {p ncount part_split : Nat}
    (hsplit : part_split = p)
    (hcount : c.partStart first + ncount = c.partStart p) (hle : p ≤ part_end) :
    ∃ k, c.splitLoop nsplit part_end p ncount part_split = (k, c.partStart k - c.partStart first) ∧
    p ≤ k ∧ k ≤ part_end ∧
      (∀ q, p ≤ q → q < k → c.Closer nsplit first q) ∧
      (k = part_end ∨ ¬ c.Closer nsplit first k) := by
  have hsucc := c.partStart_succ
  fun_induction c.splitLoop nsplit part_end p ncount part_split with
  | case1 p ncount part_split hlt ps hcloser ih =>
    obtain ⟨k, hret, hpk, hk, hbefore, hend⟩ := ih rfl (by rw [hsucc]; omega) hlt
    refine ⟨k, hret, by omega, hk, fun q hpq hqk => ?_, hend⟩
    obtain rfl | hne := eq_or_lt_of_le hpq
    exacts [(c.closer_iff hcount).mpr hcloser, hbefore q hne hqk]
  | case2 p ncount part_split hlt ps hcloser =>
    refine ⟨p, by rw [hsplit, ← hcount, Nat.add_sub_cancel_left], le_refl _, hle,
      fun q hpq hqk => by omega, .inr fun h => hcloser ((c.closer_iff hcount).mp h)⟩
  | case3 p ncount part_split hge =>
    exact ⟨p, by rw [hsplit, ← hcount, Nat.add_sub_cancel_left], le_refl _, hle,
      fun q hpq hqk => by omega, .inl (by omega)⟩

variable {c} {part_begin part_end : Nat}

/-- **Both sides have partitions**: the first partition comes closer to half of the nodes, the last
one does not. -/
theorem splitLoop_between (hpos : ∀ p, part_begin ≤ p → p < part_end → 1 ≤ c.partitionSize p)
    (hlt : part_begin + 1 < part_end) :
    ∃ k, c.splitLoop (((c.partStart part_end : Int) - c.partStart part_begin + 1).tdiv 2) part_end
      part_begin 0 part_begin =
      (k, c.partStart k - c.partStart part_begin) ∧ part_begin < k ∧ k < part_end := by
  obtain ⟨k, hret, hle, hk, hbefore, hend⟩ :=
    c.splitLoop_spec (((c.partStart part_end : Int) - c.partStart part_begin + 1).tdiv 2)
      part_begin part_end
      rfl (Nat.add_zero _) (by omega)
  have hsucc := c.partStart_succ part_begin
  have hlast := c.partStart_succ (part_end - 1)
  have hmono := c.partStart_mono (show part_begin + 1 ≤ part_end - 1 by omega)
  have hposFirst := hpos part_begin (le_refl _) (by omega)
  have hposLast := hpos (part_end - 1) (by omega) (by omega)
  rw [Nat.sub_add_cancel (by omega)] at hlast
  rw [Int.tdiv_eq_ediv_of_nonneg (by omega)] at hret hbefore hend ⊢
  refine ⟨k, hret, lt_of_le_of_ne hle fun heq => ?_, lt_of_le_of_ne hk fun heq => ?_⟩
  · subst heq
    have hcloser := hend.resolve_left (by omega)
    unfold Closer at hcloser
    omega
  · subst heq
    have hcloser := hbefore (k - 1) (by omega) (by omega)
    unfold Closer at hcloser
    rw [Nat.sub_add_cancel (by omega)] at hcloser
    omega

/-! ### The bisection -/

theorem sortLongest_perm (hsort : ∀ lt l, (c.sort lt l).Perm l) (nodes : List Nat)
    {node_begin node_end : Nat}
    (hle : node_begin ≤ node_end) : (c.sortLongest nodes node_begin node_end).Perm nodes := by
  unfold sortLongest
  split
  · exact .refl _
  · have hsplit :
      nodes.take node_begin ++ (nodes.take node_end).drop node_begin ++
      nodes.drop node_end = nodes := by
      rw [show nodes.take node_begin = (nodes.take node_end).take node_begin by
        rw [take_take, min_eq_left hle], take_append_drop, take_append_drop]
    conv_rhs => rw [← hsplit]
    exact ((hsort _ _).append_left _).append_right _

/-- **A bisection hands out a segment for each of its partitions**, and permutes the nodes. -/
theorem recursive_bisect_ok (hsort : ∀ lt l, (c.sort lt l).Perm l)
    (hpos : ∀ p, part_begin ≤ p → p < part_end → 1 ≤ c.partitionSize p)
    (hlt : part_begin < part_end) (nodes : List Nat) :
    ∃ nodes', c.recursiveBisect part_begin part_end (c.partStart part_begin)
      (c.partStart part_end) nodes =
      .ok (nodes', (range' part_begin (part_end - part_begin)).map c.segment) ∧
      nodes'.Perm nodes := by
  induction hk :
    part_end - part_begin using Nat.strong_induction_on generalizing part_begin part_end nodes with
  | _ k ih =>
    have hsorted := sortLongest_perm hsort nodes (c.partStart_mono (le_of_lt hlt))
    rw [recursiveBisect]
    obtain hone | hmore := eq_or_lt_of_le (show 1 ≤ part_end - part_begin by omega)
    · obtain rfl : part_end = part_begin + 1 := by omega
      have hsucc := c.partStart_succ part_begin
      rw [if_pos hone.symm, if_neg (by omega), ← hk, ← hone]
      exact ⟨_, rfl, hsorted⟩
    · obtain ⟨split, hret, hfirst, hlast⟩ := splitLoop_between hpos (by omega)
      have hmono := c.partStart_mono (le_of_lt hfirst)
      rw [if_neg (by omega)]
      dsimp only
      rw [hret, dif_neg (by omega)]
      rw [Nat.add_sub_cancel' hmono]
      obtain ⟨left, hleft, hpermLeft⟩ :=
        ih (split - part_begin) (by omega) (fun p h h' => hpos p h (by omega)) hfirst
        (c.sortLongest nodes (c.partStart part_begin) (c.partStart part_end)) rfl
      obtain ⟨right, hright, hpermRight⟩ :=
        ih (part_end - split) (by omega) (fun p h h' => hpos p (by omega) h') hlast
        left rfl
      rw [hleft]
      refine ⟨right, ?_, hpermRight.trans (hpermLeft.trans hsorted)⟩
      change (do
        let (nodes, right) ← c.recursiveBisect split part_end (c.partStart split)
          (c.partStart part_end) left
        return (nodes, (range' part_begin (split - part_begin)).map c.segment ++ right)) = _
      rw [hright, show k = (split - part_begin) + (part_end - split) by omega, ← range'_append_1,
        map_append, Nat.add_sub_cancel' (le_of_lt hfirst)]
      rfl

/-! ### The segments -/

/-- Each partition gets one segment, which is as long as its size says; each place of the list is in
one of them. -/
structure HandsOut (numNodes numparts : Nat) (segments : List Segment) : Prop where
  parts : segments.map (·.part) = List.range numparts
  size : ∀ s ∈ segments, s.last = s.first + c.partitionSize s.part ∧ s.last ≤ numNodes
  place : ∀ i < numNodes, ∃! s, s ∈ segments ∧ s.first ≤ i ∧ i < s.last

theorem exists_segment (numparts : Nat) {i : Nat} (hi : i < c.partStart numparts) :
    ∃ p < numparts, c.partStart p ≤ i ∧ i < c.partStart (p + 1) := by
  induction numparts with
  | zero => exact absurd hi (not_lt_zero i)
  | succ p ih =>
    obtain hlt | hge := lt_or_ge i (c.partStart p)
    · obtain ⟨q, hq, hin⟩ := ih hlt
      exact ⟨q, hq.trans (lt_succ_self p), hin⟩
    · exact ⟨p, lt_succ_self p, hge, hi⟩

theorem handsOut_segments (numparts : Nat) :
    c.HandsOut (c.partStart numparts) numparts ((range numparts).map c.segment) := by
  refine ⟨?_, fun s hs => ?_, fun i hi => ?_⟩
  · rw [map_map]
    exact map_id _
  · obtain ⟨p, hp, rfl⟩ := mem_map.mp hs
    exact ⟨c.partStart_succ p, c.partStart_mono (mem_range.mp hp)⟩
  · obtain ⟨p, hp, hfirst, hlast⟩ := exists_segment numparts hi
    refine ⟨c.segment p, ⟨mem_map_of_mem (mem_range.mpr hp), hfirst, hlast⟩, ?_⟩
    rintro s ⟨hs, hfirst', hlast'⟩
    obtain ⟨q, -, rfl⟩ := mem_map.mp hs
    obtain hlt | rfl | hgt := lt_trichotomy q p
    · exact absurd hlast' (Nat.not_lt_of_le ((c.partStart_mono hlt).trans hfirst))
    · rfl
    · exact absurd hlast (Nat.not_lt_of_le ((c.partStart_mono hgt).trans hfirst'))

/-- **Every partition gets its own nodes**: no abort, a permutation of the nodes, and one segment
for each partition. -/
theorem handsOut_of_getRecursiveBisectionList (c : Bisection) (hsort : ∀ lt l, (c.sort lt l).Perm l)
    {numNodes numparts : Nat}
    (hparts : 2 ≤ numparts) (hpos : ∀ p < numparts, 1 ≤ c.partitionSize p)
    (hsum : ((List.range numparts).map c.partitionSize).sum = numNodes) :
    ∃ procList segments, c.getRecursiveBisectionList numNodes numparts = .ok (procList, segments) ∧
      procList.Perm (List.range numNodes) ∧ c.HandsOut numNodes numparts segments := by
  obtain rfl : c.partStart numparts = numNodes := hsum
  obtain ⟨procList, hret, hperm⟩ :=
    recursive_bisect_ok hsort (fun p _ hp => hpos p hp) (show 0 < numparts by omega)
    (range (c.partStart numparts))
  refine ⟨procList, (range numparts).map c.segment, ?_, hperm, handsOut_segments numparts⟩
  unfold getRecursiveBisectionList
  rw [if_neg (by omega)]
  rw [← range_eq_range'] at hret
  exact hret

/-- Three nodes in a row, for partitions of 2 and of 1 nodes. -/
def row : Bisection where
  partitionSize p := if p = 0 then 2 else 1
  coords node d := if d = 0 then node else 0
  sort lt l := l.mergeSort fun x y => !lt y x

theorem handsOut_row :
    ∃ procList segments, row.getRecursiveBisectionList 3 2 = .ok (procList, segments) ∧
    procList.Perm (List.range 3) ∧ row.HandsOut 3 2 segments :=
  handsOut_of_getRecursiveBisectionList row (fun _ l => l.mergeSort_perm _) (by decide)
    (by decide) (by decide)

end Bisection

end CharmRuntime.Util
