import Mathlib.Algebra.BigOperators.Group.List.Basic
import CharmRuntime.Lib.EvenSplit
import CharmRuntime.Location.Compressor

/-!
# Location.ArrayMap

The **default map of array elements to PEs** (`ck-core/cklocation.C`). `DefaultArrayMap` splits the
flattened indices over the PEs, or with `useNodeBlkMapping` over the nodes and then over the PEs of
a node, and `populateInitial` inserts on each PE the elements that the map has there.

Both splits are those of `Lib.EvenSplit`. A PE that has no element makes a divisor zero, but no
index gets there: `procNum_eq` is the result for every index in bounds.

Products are made `int`s. Nothing else here is larger than the number of elements or of PEs.
-/

namespace CharmRuntime.Location

open Lib CharmRuntime.Lib.EvenSplit CkArrayIndex Nat

/-- `data()[k]`. -/
def CkArrayIndex.data (a : CkArrayIndex) (k : Nat) : Int := (a.index (fun _ => 0) k).toInt

/-- `hash`. -/
def CkArrayIndex.hash (a : CkArrayIndex) : BitVec 32 :=
  (List.range (a.nInts - 1)).foldl (fun ret k =>
    let d := a.index (fun _ => 0) (k + 1)
    ret + (d.rotateLeft (10 + 11 * (k + 1)) + d.rotateLeft (9 + 7 * (k + 1))))
      (a.index (fun _ => 0) 0)

/-- The machine: all nodes have the same number of PEs. -/
structure Machine where
  /-- `CkNumNodes`. -/
  numNodes : Nat
  /-- `CkMyNodeSize`. -/
  nodeSize : Nat
  useNodeBlkMapping : Bool
  /-- `startedEvac` of each PE. -/
  startedEvac : Nat → Bool
  pos : 0 < numNodes * nodeSize

/-- `CkNumPes`. -/
def Machine.numPes (m : Machine) : Nat := m.numNodes * m.nodeSize

/-- `CkNodeFirst`. -/
def Machine.nodeFirst (m : Machine) (node : Int) : Int := node * m.nodeSize

/-- The ways the routines do not return. -/
inductive MapFault where
  | divByZero
  /-- `CkAbort("CkArrayIndex has more than 3 integers!")`. -/
  | tooManyInts
  /-- `CkAssert`. -/
  | assertion
  /-- No PE is left to try. -/
  | forever
  deriving DecidableEq, Repr

/-- `x / y`. -/
def cDiv (x y : Int) : Except MapFault Int := if y = 0 then .error .divByZero else .ok (x.tdiv y)

/-- `x % y`. -/
def cMod (x y : Int) : Except MapFault Int := if y = 0 then .error .divByZero else .ok (x.tmod y)

/-- A product or a sum as an `int`. -/
def toInt (x : Int) : Int := x.bmod (2 ^ 32)

/-! ### The map -/

/-- `RRMap::procNum`, called on `myPe`. All PEs are alive, and one that is being evacuated is left
out. -/
def rrProcNum (m : Machine) (myPe : Nat) (i : CkArrayIndex) : Except MapFault Int :=
  if i.nInts = 1 then do
    let ans ← cMod (i.data 0) m.numPes
    if ans = myPe ∧ m.startedEvac myPe then
      let next ← cMod (ans + 1) m.numPes
      if next = ans then .error .forever else return next
    else return ans
  else
    -- the hash code is unsigned
    cMod ((i.hash.toNat + 739) % 2 ^ 32 % 1280107 : Nat) m.numPes

/-- `arrayMapInfo`. -/
structure ArrayMapInfo where
  nelems : CkArrayIndex
  binSizeFloor : Int
  binSizeCeil : Int
  numChares : Int
  remChares : Int
  numFirstSet : Int
  nBinSizeFloor : Int
  nRemChares : Int
  nNumFirstSet : Int

/-- `compute_binsize`, where `numChares` is what was there before. The quotients are exact. -/
def computeBinsize (m : Machine) (nelems : CkArrayIndex) (numChares : Int) : ArrayMapInfo :=
  let numPes : Int := m.numPes
  let numNodes : Int := m.numNodes
  let numChares :=
    if nelems.nInts = 1 then nelems.data 0
    else if nelems.nInts = 2 then toInt (nelems.data 0 * nelems.data 1)
    else if nelems.nInts = 3 then toInt (toInt (nelems.data 0 * nelems.data 1) * nelems.data 2)
    else numChares
  { nelems := nelems
    numChares := numChares
    remChares := numChares.tmod numPes
    binSizeFloor := numChares / numPes
    binSizeCeil := -(-numChares / numPes)
    numFirstSet := numChares.tmod numPes * (numChares / numPes + 1)
    nRemChares := numChares.tmod numNodes
    nBinSizeFloor := numChares.tdiv numNodes
    nNumFirstSet := numChares.tmod numNodes * (numChares.tdiv numNodes + 1) }

/-- The constructor of `arrayMapInfo`, as `registerArray` calls it. -/
def arrayMapInfo (m : Machine) (n : CkArrayIndex) : ArrayMapInfo := computeBinsize m n 0

/-- `flati` in `procNum`. -/
def flatten (nelems i : CkArrayIndex) : Except MapFault Int :=
  if i.nInts = 1 then .ok (i.data 0)
  else if i.nInts = 2 then .ok (toInt (i.data 0 * nelems.data 1 + i.data 1))
  else if i.nInts = 3 then
    .ok (toInt (toInt (i.data 0 * nelems.data 1 + i.data 1) * nelems.data 2 + i.data 2))
  else .error .tooManyInts

/-- The number of elements of the node of an element, the node, and the element's place there. -/
def nodeOf (map : ArrayMapInfo) (flati : Int) : Except MapFault (Int × Int × Int) :=
  if flati < map.nNumFirstSet then do
    let numCharesOnNode := map.nBinSizeFloor + 1
    let startNodeID ← cDiv flati numCharesOnNode
    let offsetInNode ← cMod flati numCharesOnNode
    return (numCharesOnNode, startNodeID, offsetInNode)
  else do
    let numCharesOnNode := map.nBinSizeFloor
    let k ← cDiv (flati - map.nNumFirstSet) numCharesOnNode
    let offsetInNode ← cMod (flati - map.nNumFirstSet) numCharesOnNode
    return (numCharesOnNode, map.nRemChares + k, offsetInNode)

/-- `DefaultArrayMap::procNum`, called on `myPe`, for the array with this `arrayMapInfo`. -/
def procNum (m : Machine) (myPe : Nat) (map : ArrayMapInfo) (i : CkArrayIndex) :
    Except MapFault Int :=
  if map.nelems.nInts = 0 then rrProcNum m myPe i
  else do
    let flati ← flatten map.nelems i
    if m.useNodeBlkMapping then
      if flati < map.numChares then do
        let (numCharesOnNode, startNodeID, offsetInNode) ← nodeOf map flati
        let elemsPerPE ← cDiv numCharesOnNode m.nodeSize
        let remElems ← cMod numCharesOnNode m.nodeSize
        let firstSetPEs := remElems * (elemsPerPE + 1)
        if offsetInNode < firstSetPEs then
          let rank ← cDiv offsetInNode (elemsPerPE + 1)
          return m.nodeFirst startNodeID + rank
        else
          let rank ← cDiv (offsetInNode - firstSetPEs) elemsPerPE
          return m.nodeFirst startNodeID + remElems + rank
      else cMod flati m.numPes
    else if flati < map.numFirstSet then cDiv flati (map.binSizeFloor + 1)
    else if flati < map.numChares then do
      let k ← cDiv (flati - map.numFirstSet) map.binSizeFloor
      return map.remChares + k
    else cMod flati m.numPes

/-! ### The initial elements -/

/-- `insertInitial`, if the condition holds. -/
def insertIf (condition : CkArrayIndex → Except MapFault Bool) (idx : CkArrayIndex) :
    Except MapFault (List CkArrayIndex) := do
  return if ← condition idx then [idx] else []

/-- `CKARRAYMAP_POPULATE_INITIAL`: the indices that are inserted, in order. -/
def populate (condition : CkArrayIndex → Except MapFault Bool) (numElements : CkArrayIndex) :
    Except MapFault (List CkArrayIndex) := do
  let planes ← (List.range (numElements.data 0).toNat).mapM fun i1 =>
    if numElements.dimension = 1 then insertIf condition (index1D (BitVec.ofNat 32 i1))
    else do
      let rows ← (List.range (numElements.data 1).toNat).mapM fun i2 =>
        if numElements.dimension = 2 then insertIf condition
          (index2D (BitVec.ofNat 32 i1) (BitVec.ofNat 32 i2))
        else if numElements.dimension = 3 then do
          let elements ← (List.range (numElements.data 2).toNat).mapM fun i3 =>
            insertIf condition
              (index3D (BitVec.ofNat 32 i1) (BitVec.ofNat 32 i2) (BitVec.ofNat 32 i3))
          return elements.flatten
        else .error .assertion
      return rows.flatten
  return planes.flatten

/-- `CkArrayMap::populateInitial` on `thisPe`. -/
def populateInitial (m : Machine) (map : ArrayMapInfo) (numElements : CkArrayIndex) (thisPe : Nat) :
    Except MapFault (List CkArrayIndex) :=
  if numElements.nInts = 0 then .ok []
  else populate (fun idx => do return decide ((← procNum m thisPe map idx) = thisPe)) numElements

/-! ### Where an element is -/

section

variable {m : Machine} {n i j : Nat}

theorem Machine.numNodes_pos (m : Machine) : 0 < m.numNodes := Nat.pos_of_mul_pos_right m.pos

theorem Machine.nodeSize_pos (m : Machine) : 0 < m.nodeSize := Nat.pos_of_mul_pos_left m.pos

theorem Machine.pe_lt {node rank : Nat} (hnode : node < m.numNodes) (hrank : rank < m.nodeSize) :
    node * m.nodeSize + rank < m.numPes := by
  have hnext := mul_le_mul_right m.nodeSize (succ_le_of_lt hnode)
  rw [succ_mul] at hnext
  exact (Nat.add_lt_add_left hrank _).trans_le hnext

/-- The rank of an element in its node. -/
def Machine.rankOf (m : Machine) (n i : Nat) : Nat :=
  part (partSize n m.numNodes (part n m.numNodes i)) m.nodeSize (offsetInPart n m.numNodes i)

/-- The PE of the element number `i` of `n`. -/
def Machine.place (m : Machine) (n i : Nat) : Nat :=
  if m.useNodeBlkMapping then part n m.numNodes i * m.nodeSize + m.rankOf n i else part n m.numPes i

theorem Machine.rankOf_lt (hi : i < n) : m.rankOf n i < m.nodeSize :=
  part_lt m.nodeSize_pos (offsetInPart_lt m.numNodes_pos hi)

theorem Machine.place_lt (hi : i < n) : m.place n i < m.numPes := by
  rw [place]
  split
  · exact pe_lt (part_lt m.numNodes_pos hi) (rankOf_lt hi)
  · exact part_lt m.pos hi

theorem Machine.place_mono (h : i ≤ j) (hj : j < n) : m.place n i ≤ m.place n j := by
  rw [place, place]
  split
  · obtain hlt | ⟨heq, hle⟩ := part_offset_mono m.numNodes_pos h hj
    · have hrank := rankOf_lt (m := m) (h.trans_lt hj)
      have hnext := mul_le_mul_right m.nodeSize (succ_le_of_lt hlt)
      rw [succ_mul] at hnext
      omega
    · rw [rankOf, heq]
      exact Nat.add_le_add_left (part_mono m.nodeSize_pos hle (offsetInPart_lt m.numNodes_pos hj)) _
  · exact part_mono m.pos h hj

theorem Machine.countP_place (hmap : m.useNodeBlkMapping = false) {pe : Nat} (hpe : pe < m.numPes) :
    (List.range n).countP (fun i => decide (m.place n i = pe)) = partSize n m.numPes pe := by
  simp only [place, hmap, Bool.false_eq_true]
  exact countP_part_eq hpe

theorem Machine.countP_place_node (hmap : m.useNodeBlkMapping = true) {node rank : Nat}
    (hnode : node < m.numNodes)
    (hrank : rank < m.nodeSize) :
    (List.range n).countP (fun i => decide (m.place n i = node * m.nodeSize + rank)) =
      partSize (partSize n m.numNodes node) m.nodeSize rank := by
  rw [← countP_part_eq hrank, ← countP_part hnode fun k =>
    decide (part (partSize n m.numNodes node) m.nodeSize k = rank)]
  refine List.countP_congr fun i hi => ?_
  have hlt := rankOf_lt (m := m) (List.mem_range.mp hi)
  simp only [place, hmap, if_true, Bool.and_eq_true, decide_eq_true_eq]
  constructor
  · intro heq
    obtain ⟨hpart, hrest⟩ : part n m.numNodes i = node ∧ m.rankOf n i = rank := by
      have hdiv := congrArg (· / m.nodeSize) heq
      have hmod := congrArg (· % m.nodeSize) heq
      simp only [mul_comm _ m.nodeSize, mul_add_div m.nodeSize_pos, mul_add_mod, div_eq_of_lt hlt,
        div_eq_of_lt hrank, mod_eq_of_lt hlt, mod_eq_of_lt hrank] at hdiv hmod
      exact ⟨hdiv, hmod⟩
    rw [rankOf, hpart] at hrest
    exact ⟨hpart, hrest⟩
  · rintro ⟨hpart, hrest⟩
    rw [rankOf, hpart, hrest]

end

/-! ### What the map computes -/

theorem cDiv_natCast {x y : Nat} (hy : 0 < y) : cDiv x y = .ok ((x / y : Nat) : Int) :=
  if_neg (Int.natCast_ne_zero.mpr (ne_of_gt hy))

theorem cMod_natCast {x y : Nat} (hy : 0 < y) : cMod x y = .ok ((x % y : Nat) : Int) :=
  if_neg (Int.natCast_ne_zero.mpr (ne_of_gt hy))

/-- What is computed once for an array of `n` elements. -/
structure Computed (m : Machine) (map : ArrayMapInfo) (n : Nat) : Prop where
  nInts : map.nelems.nInts ≠ 0
  numChares : map.numChares = n
  remChares : map.remChares = (n % m.numPes : Nat)
  binSizeFloor : map.binSizeFloor = (n / m.numPes : Nat)
  numFirstSet : map.numFirstSet = (firstSet n m.numPes : Nat)
  nRemChares : map.nRemChares = (n % m.numNodes : Nat)
  nBinSizeFloor : map.nBinSizeFloor = (n / m.numNodes : Nat)
  nNumFirstSet : map.nNumFirstSet = (firstSet n m.numNodes : Nat)

section

variable {m : Machine} {map : ArrayMapInfo} {n p i : Nat}

theorem part_first (h : i < firstSet n p) :
    cDiv i ((n / p : Nat) + 1) = .ok (part n p i : Nat) := by
  rw [part, if_pos h]
  exact cDiv_natCast (succ_pos _)

theorem part_rest (hi : i < n) (h : firstSet n p ≤ i) :
    ∃ k : Nat, cDiv ((i : Int) - (firstSet n p : Nat)) (n / p : Nat) = .ok (k : Int) ∧
    part n p i = n % p + k := by
  refine ⟨(i - firstSet n p) / (n / p), ?_, if_neg (not_lt.mpr h)⟩
  rw [← Int.ofNat_sub h]
  exact cDiv_natCast (div_pos_of_firstSet_le hi h)

theorem nodeOf_eq (h : Computed m map n) (hi : i < n) :
    nodeOf map i =
    .ok (((partSize n m.numNodes (part n m.numNodes i) : Nat) : Int),
    ((part n m.numNodes i : Nat) : Int),
      ((offsetInPart n m.numNodes i : Nat) : Int)) := by
  rw [nodeOf, h.nNumFirstSet, h.nBinSizeFloor, h.nRemChares]
  by_cases hlt : i < firstSet n m.numNodes
  · have hmod : cMod i ((n / m.numNodes : Nat) + 1) = .ok (offsetInPart n m.numNodes i) := by
      rw [offsetInPart, if_pos hlt]
      exact cMod_natCast (succ_pos _)
    have hpart : part n m.numNodes i < n % m.numNodes := by
      rw [part, if_pos hlt]
      exact Nat.div_lt_of_lt_mul (Nat.mul_comm _ _ ▸ hlt)
    rw [if_pos (Int.ofNat_lt.mpr hlt)]
    dsimp only
    rw [part_first hlt, hmod, partSize_of_lt hpart]
    rfl
  · have hge := not_lt.mp hlt
    have hmod :
      cMod (i - (firstSet n m.numNodes)) (n / m.numNodes : Nat) =
      .ok (offsetInPart n m.numNodes i) := by
      rw [offsetInPart, if_neg hlt, ← Int.ofNat_sub hge]
      exact cMod_natCast (div_pos_of_firstSet_le hi hge)
    obtain ⟨k, hdiv, hpart⟩ := part_rest hi hge
    rw [if_neg (mt Int.ofNat_lt.mp hlt)]
    dsimp only
    rw [hdiv, hmod, partSize_of_le (hpart ▸ le_add_right _ _), hpart]
    rfl

/-- **The PE of an element in bounds.** -/
theorem procNum_eq (h : Computed m map n) {idx : CkArrayIndex}
    (hflat : flatten map.nelems idx = .ok (i : Int)) (hi : i < n)
    (myPe : Nat) : procNum m myPe map idx = .ok (m.place n i : Nat) := by
  rw [procNum, if_neg h.nInts, hflat, h.numChares]
  simp only [bind, Except.bind]
  rw [Machine.place]
  split
  · rw [if_pos (Int.ofNat_lt.mpr hi), nodeOf_eq h hi, Machine.rankOf]
    have hoffset := offsetInPart_lt m.numNodes_pos hi
    generalize partSize n m.numNodes (part n m.numNodes i) = size at hoffset ⊢
    generalize offsetInPart n m.numNodes i = place at hoffset ⊢
    dsimp only
    rw [cDiv_natCast m.nodeSize_pos, cMod_natCast m.nodeSize_pos]
    dsimp only
    have hfirst :
      ((size % m.nodeSize : Nat) : Int) * ((size / m.nodeSize : Nat) + 1) =
      (firstSet size m.nodeSize) := by
      rw [firstSet, Int.natCast_mul, Int.natCast_add_one]
    rw [hfirst]
    by_cases hlt : place < firstSet size m.nodeSize
    · rw [if_pos (Int.ofNat_lt.mpr hlt), part_first hlt]
      rfl
    · obtain ⟨k, hdiv, hpart⟩ := part_rest hoffset (not_lt.mp hlt)
      rw [if_neg (mt Int.ofNat_lt.mp hlt), hdiv, hpart, ← add_assoc]
      rfl
  · rw [h.numFirstSet, h.binSizeFloor, h.remChares]
    by_cases hlt : i < firstSet n m.numPes
    · rw [if_pos (Int.ofNat_lt.mpr hlt), part_first hlt]
    · obtain ⟨k, hdiv, hpart⟩ := part_rest hi (not_lt.mp hlt)
      rw [if_neg (mt Int.ofNat_lt.mp hlt), if_pos (Int.ofNat_lt.mpr hi), hdiv, hpart]
      rfl

end

end CharmRuntime.Location
