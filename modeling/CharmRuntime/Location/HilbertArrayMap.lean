import CharmRuntime.Location.ArrayMapSound
import CharmRuntime.Util.HilbertCurve

/-!
# Location.HilbertArrayMap

The **map of array elements along a Hilbert curve** (`ck-core/cklocation.C`). The elements of an
array of two or three dimensions are placed by their numbers on the curve, which `registerArray`
puts into a table, and blocks of as many numbers as a PE has elements go to the PEs in the order of
`procList`.

There is one table for all arrays, and the numbers of a box are not those from 0 on. So an element
may find another one's number, none, or one of a block without PE (`placed_iff_fits`).

Products and numbers are made `int`s.
-/

namespace CharmRuntime.Location

open Lib CharmRuntime.Util.Hilbert CkArrayIndex List Except Int

/-- The ways the routines do not return. -/
inductive HilbertFault where
  | map (fault : MapFault)
  /-- An access outside a table. -/
  | outOfBounds
  /-- A length that a vector cannot have. -/
  | length
  deriving DecidableEq, Repr

/-- `table[k]`. -/
def readAt {α : Type} (table : List α) (k : Int) : Except HilbertFault α :=
  if k < 0 then .error .outOfBounds else
    match table[k.toNat]? with
    | none => .error .outOfBounds
    | some x => .ok x

structure HilbertArrayMap where
  amaps : List ArrayMapInfo := []
  allpairs : List Int := []

namespace HilbertArrayMap

/-- `allpairs.resize(n)`. -/
def resize (allpairs : List Int) (n : Int) : Except HilbertFault (List Int) :=
  if n < 0 then .error .length else .ok
    (allpairs.take n.toNat ++ List.replicate (n.toNat - allpairs.length) 0)

/-- `allpairs[counter] = Hilbert_to_int(coords, dims); counter++`. -/
def setPair (dims : Nat) (s : List Int × Nat) (coords : List Nat) :
    Except HilbertFault (List Int × Nat) :=
  if s.2 < s.1.length then .ok (s.1.set s.2 (toInt (hilbertToInt coords dims)), s.2 + 1) else .error
    .outOfBounds

/-- The points that the loops go through in two dimensions. -/
def coords2 (nDim0 nDim1 : Int) : List (List Nat) :=
  (List.range nDim0.toNat).flatMap fun i => (List.range nDim1.toNat).map fun j => [i, j]

/-- Those in three dimensions. -/
def coords3 (nDim0 nDim1 nDim2 : Int) : List (List Nat) :=
  (List.range nDim0.toNat).flatMap fun i => (List.range nDim1.toNat).flatMap fun j =>
    (List.range nDim2.toNat).map fun k => [i, j, k]

def registerArray (m : Machine) (s : HilbertArrayMap) (i : CkArrayIndex) :
    Except HilbertFault (Nat × HilbertArrayMap) := do
  let idx := s.amaps.length
  let map := arrayMapInfo m i
  let amaps := s.amaps ++ [map]
  let nDim := map.nelems.data
  if i.nInts = 2 then
    let allpairs ← resize s.allpairs (toInt (nDim 0 * nDim 1))
    let (allpairs, _) ← (coords2 (nDim 0) (nDim 1)).foldlM (setPair 2) (allpairs, 0)
    return (idx, { amaps, allpairs })
  else if i.nInts = 3 then
    let allpairs ← resize s.allpairs (toInt (toInt (nDim 0 * nDim 1) * nDim 2))
    let (allpairs, _) ← (coords3 (nDim 0) (nDim 1) (nDim 2)).foldlM (setPair 3) (allpairs, 0)
    return (idx, { amaps, allpairs })
  else return (idx, { s with amaps })

/-- `flati` in `procNum`. -/
def flati (s : HilbertArrayMap) (map : ArrayMapInfo) (i : CkArrayIndex) : Except HilbertFault Int :=
  let nDim := map.nelems.data
  if i.nInts = 1 then .ok (i.data 0)
  else if i.nInts = 2 then readAt s.allpairs (toInt (i.data 0 * nDim 1 + i.data 1))
  else if i.nInts = 3 then
    readAt s.allpairs (toInt (toInt (i.data 0 * nDim 1) * nDim 2 + i.data 1 * nDim 2 + i.data 2))
  else .error (.map .tooManyInts)

/-- `procNum`, called on `myPe`. -/
def procNum (m : Machine) (procList : List Nat) (myPe : Nat) (s : HilbertArrayMap) (arrayHdl : Nat)
    (i : CkArrayIndex) :
    Except HilbertFault Int := do
  let map ← readAt s.amaps arrayHdl
  if map.nelems.nInts = 0 then (rrProcNum m myPe i).mapError .map
  else
    let flati ← s.flati map i
    let block ← (cDiv flati map.binSizeCeil).mapError .map
    let pe ← readAt procList block
    return pe

/-- The arrays registered one after the other. -/
def registerAll (m : Machine) (registered : List CkArrayIndex) :
    Except HilbertFault HilbertArrayMap :=
  registered.foldlM (fun s i => do return (← registerArray m s i).2) {}

end HilbertArrayMap

/-- The coordinates of an index. -/
def coordsOf (idx : CkArrayIndex) :
    List Nat := (List.range idx.nInts).map fun k => (idx.data k).toNat

/-- The number of an index on the curve of its dimension. -/
def hilbertNumber (idx : CkArrayIndex) : Nat := hilbertToInt (coordsOf idx) idx.nInts

/-- Sizes of an array of one to three dimensions. -/
structure Positive (n : CkArrayIndex) : Prop where
  standard : Standard n
  dimension_le : n.dimension ≤ 3
  pos : ∀ k < n.dimension, 0 < n.component k

/-- **What the map is for**: the number is that of the index, and all accesses, which end in a PE,
are in bounds. -/
structure Placed (m : Machine) (procList : List Nat) (s : HilbertArrayMap) (arrayHdl : Nat)
    (idx : CkArrayIndex) : Prop where
  number : ∃ map, readAt s.amaps arrayHdl = .ok map ∧
    s.flati map idx = .ok (hilbertNumber idx : Int)
  pe : ∀ myPe, ∃ pe : Nat, pe < m.numPes ∧ s.procNum m procList myPe arrayHdl idx = .ok (pe : Int)

/-- The array that the table is of. -/
def lastGrid (registered : List CkArrayIndex) : Option CkArrayIndex :=
  (registered.filter fun n => 1 < n.nInts).getLast?

/-- An index of one dimension; or the table's array has an index in the same place with the same
number as an `int`, and the block of that number has a PE. -/
def Fits (m : Machine) (registered : List CkArrayIndex) (n idx : CkArrayIndex) : Prop :=
  n.nInts = 1 ∨ ∃ last other, lastGrid registered = some last ∧
  (indices last)[(rowMajor n idx).toNat]? = some other ∧
    toInt (hilbertNumber other) = hilbertNumber idx ∧ (hilbertNumber idx : Int) < m.numPes *
    (arrayMapInfo m n).binSizeCeil

/-! ### What is registered -/

variable {m : Machine} {s s' : HilbertArrayMap} {n idx : CkArrayIndex} {size : Nat}

variable {l : List (List Nat)} {registered : List CkArrayIndex} {procList : List Nat}

/-- **A table that is written from the start on.** -/
theorem foldlM_setPair {dims : Nat} {v v' : List Int} {c c' : Nat}
    (h : l.foldlM (HilbertArrayMap.setPair dims) (v, c) = .ok (v', c')) :
    c + l.length ≤ max c v.length ∧
      v' = v.take c ++ l.map (fun coords => toInt (hilbertToInt coords dims)) ++
      v.drop (c + l.length) := by
  induction l generalizing v c with
  | nil =>
    obtain ⟨rfl, rfl⟩ := Prod.mk.inj (ok.inj h)
    exact ⟨le_max_left _ _, by simp⟩
  | cons coords l ih =>
    simp only [foldlM_cons, HilbertArrayMap.setPair] at h
    by_cases hc : c < v.length
    · rw [if_pos hc] at h
      obtain ⟨hle, rfl⟩ := ih h
      rw [length_set] at hle
      refine ⟨by rw [length_cons]; omega, ?_⟩
      rw [take_succ_eq_append_getElem (by rwa [length_set]), take_set_of_le (le_refl c),
        drop_set_of_lt (by omega)]
      simp [add_assoc, add_comm 1]
    · rw [if_neg hc] at h
      cases h

theorem toInt_lt (x : Int) : toInt x < 2 ^ 31 := bmod_lt (by decide)

theorem fill_ok {dims : Nat} {allpairs allpairs' v : List Int} {c : Nat}
    (hlength : l.length = size)
    (hresize : HilbertArrayMap.resize allpairs (toInt size) = .ok allpairs')
    (hfill : l.foldlM (HilbertArrayMap.setPair dims) (allpairs', 0) = .ok (v, c)) :
    size < 2 ^ 31 ∧ v = l.map fun coords => toInt (hilbertToInt coords dims) := by
  have hlt := toInt_lt size
  unfold HilbertArrayMap.resize at hresize
  split at hresize
  · cases hresize
  · obtain rfl := ok.inj hresize
    obtain ⟨hle, rfl⟩ := foldlM_setPair hfill
    have hresized :
      (allpairs.take (toInt size).toNat ++
      replicate ((toInt size).toNat - allpairs.length) 0).length =
        (toInt size).toNat := by
      rw [length_append, length_take, length_replicate]
      omega
    have hsize : size < 2 ^ 31 := by omega
    refine ⟨hsize, ?_⟩
    rw [toInt_natCast hsize] at hresized ⊢
    rw [take_zero, nil_append, drop_eq_nil_of_le (by omega), append_nil]

theorem map_coordsOf_indices (h : Shape n size) :
    (n.nInts = 2 → (indices n).map coordsOf = HilbertArrayMap.coords2 (n.data 0) (n.data 1)) ∧
      (n.nInts = 3 → (indices n).map coordsOf = HilbertArrayMap.coords3 (n.data 0) (n.data 1)
        (n.data 2)) := by
  cases h with
  | d1 ha =>
    exact ⟨fun h => absurd (show 1 = 2 from h) (by decide), fun h => absurd (show 1 = 3 from h)
      (by decide)⟩
  | d2 ha hb =>
    refine ⟨fun _ => ?_, fun h => absurd (show 2 = 3 from h) (by decide)⟩
    rw [indices_d2 ha hb, index2D, data_init_zero, data_init_one, toInt_ofNat ha, toInt_ofNat hb]
    simp only [map_flatMap, map_map]
    refine flatMap_congr fun i hi => map_congr_left fun j hj => ?_
    have hi := (mem_range.mp hi).trans ha
    have hj := (mem_range.mp hj).trans hb
    change [((index2D _ _).data 0).toNat, ((index2D _ _).data 1).toNat] = [i, j]
    rw [index2D, data_init_zero, data_init_one, toInt_ofNat hi, toInt_ofNat hj]
    rfl
  | d3 ha hb hc =>
    refine ⟨fun h => absurd (show 3 = 2 from h) (by decide), fun _ => ?_⟩
    rw [indices_d3 ha hb hc, index3D, data_init_zero, data_init_one, data_init_two, toInt_ofNat ha,
      toInt_ofNat hb, toInt_ofNat hc]
    simp only [map_flatMap, map_map]
    refine flatMap_congr fun i hi => flatMap_congr fun j hj => map_congr_left fun k hk => ?_
    have hi := (mem_range.mp hi).trans ha
    have hj := (mem_range.mp hj).trans hb
    have hk := (mem_range.mp hk).trans hc
    change [((index3D _ _ _).data 0).toNat, ((index3D _ _ _).data 1).toNat,
      ((index3D _ _ _).data 2).toNat] = [i, j, k]
    rw [index3D, data_init_zero, data_init_one, data_init_two, toInt_ofNat hi, toInt_ofNat hj,
      toInt_ofNat hk]
    rfl

/-- The table of an array. -/
def tableOf (n : CkArrayIndex) : List Int := (indices n).map fun idx => toInt (hilbertNumber idx)

theorem length_indices (h : Shape n size) : (indices n).length = size := by
  have hlength := congrArg length (map_rowMajor_indices h)
  rwa [length_map, length_map, length_range] at hlength

theorem nInts_of_mem_indices (h : Shape n size) (hidx : idx ∈ indices n) : idx.nInts = n.nInts := by
  obtain ⟨hstandard, hdim, -, -⟩ := (mem_indices_iff h).mp hidx
  cases h <;> cases hstandard <;> first | rfl | cases hdim

/-- **What `registerArray` does**, if it returns. -/
theorem registerArray_ok (h : Shape n size) {idx : Nat}
    (hreg : HilbertArrayMap.registerArray m s n = .ok (idx, s')) :
    idx = s.amaps.length ∧ s'.amaps = s.amaps ++ [arrayMapInfo m n] ∧
      ((n.nInts = 1 ∧ s'.allpairs = s.allpairs) ∨
      (1 < n.nInts ∧ size < 2 ^ 31 ∧ s'.allpairs = tableOf n)) := by
  have hcoords := map_coordsOf_indices h
  have hlength := length_indices h
  have htable (dims : Nat) (hdims : n.nInts = dims) :
      ((indices n).map coordsOf).map (fun coords => toInt (hilbertToInt coords dims)) =
      tableOf n := by
    rw [map_map]
    refine map_congr_left fun idx hidx => ?_
    have hnumber : hilbertNumber idx = hilbertToInt (coordsOf idx) dims := by
      rw [hilbertNumber, nInts_of_mem_indices h hidx, hdims]
    rw [Function.comp_apply, hnumber]
  have hsize : n.nInts = 1 ∨ (n.nInts = 2 ∧ n.data 0 * n.data 1 = size) ∨
      (n.nInts = 3 ∧ n.data 0 * n.data 1 * n.data 2 = size) := by
    cases h with
    | d1 ha => exact .inl rfl
    | d2 ha hb =>
      refine .inr (.inl ⟨rfl, ?_⟩)
      rw [index2D, data_init_zero, data_init_one, toInt_ofNat ha, toInt_ofNat hb, natCast_mul]
    | d3 ha hb hc =>
      refine .inr (.inr ⟨rfl, ?_⟩)
      rw [index3D, data_init_zero, data_init_one, data_init_two, toInt_ofNat ha, toInt_ofNat hb,
        toInt_ofNat hc, natCast_mul, natCast_mul]
  have hdata (k : Nat) : (arrayMapInfo m n).nelems.data k = n.data k := rfl
  unfold HilbertArrayMap.registerArray at hreg
  obtain hone | ⟨htwo, hprod⟩ | ⟨hthree, hprod⟩ := hsize
  · rw [if_neg (by omega), if_neg (by omega)] at hreg
    obtain ⟨rfl, rfl⟩ := Prod.mk.inj (ok.inj hreg)
    exact ⟨rfl, rfl, .inl ⟨hone, rfl⟩⟩
  · rw [if_pos htwo, hdata, hdata, hprod, ← hcoords.1 htwo] at hreg
    obtain ⟨allpairs, hresize, hreg⟩ := bind_eq_ok.mp hreg
    obtain ⟨⟨v, c⟩, hfill, hreg⟩ := bind_eq_ok.mp hreg
    obtain ⟨rfl, rfl⟩ := Prod.mk.inj (ok.inj hreg)
    obtain ⟨hlt, rfl⟩ := fill_ok (by rw [length_map, hlength]) hresize hfill
    exact ⟨rfl, rfl, .inr ⟨by omega, hlt, htable 2 htwo⟩⟩
  · rw [if_neg (by omega), if_pos hthree, hdata, hdata, hdata, toInt_toInt_mul,
      hprod, ← hcoords.2 hthree] at hreg
    obtain ⟨allpairs, hresize, hreg⟩ := bind_eq_ok.mp hreg
    obtain ⟨⟨v, c⟩, hfill, hreg⟩ := bind_eq_ok.mp hreg
    obtain ⟨rfl, rfl⟩ := Prod.mk.inj (ok.inj hreg)
    obtain ⟨hlt, rfl⟩ := fill_ok (by rw [length_map, hlength]) hresize hfill
    exact ⟨rfl, rfl, .inr ⟨by omega, hlt, htable 3 hthree⟩⟩

/-- What is known of the map behind some registrations. -/
structure Registered (m : Machine) (registered : List CkArrayIndex) (s : HilbertArrayMap) :
    Prop where
  amaps : s.amaps = registered.map (arrayMapInfo m)
  sizes : ∀ n ∈ registered, 1 < n.nInts → ∀ size, Shape n size → size < 2 ^ 31
  allpairs : s.allpairs = (lastGrid registered).elim [] tableOf

theorem Positive.shape (h : Positive n) : ∃ size, 0 < size ∧ Shape n size := by
  have hcomponent := h.pos
  obtain ⟨size, hshape, -⟩ := h.standard.shape h.dimension_le fun k hk => (h.pos k hk).le
  refine ⟨size, ?_, hshape⟩
  cases hshape with
  | d1 ha => simpa [component, index1D, toInt_ofNat ha] using hcomponent 0 (by simp [index1D])
  | d2 ha hb =>
    refine mul_pos ?_ ?_
    · simpa [component, index2D, toInt_ofNat ha] using hcomponent 0 (by simp [index2D])
    · simpa [component, index2D, toInt_ofNat hb] using hcomponent 1 (by simp [index2D])
  | d3 ha hb hc =>
    refine mul_pos (mul_pos ?_ ?_) ?_
    · simpa [component, index3D, toInt_ofNat ha] using hcomponent 0 (by simp [index3D])
    · simpa [component, index3D, toInt_ofNat hb] using hcomponent 1 (by simp [index3D])
    · simpa [component, index3D, toInt_ofNat hc] using hcomponent 2 (by simp [index3D])

theorem Shape.unique {size' : Nat} (h : Shape n size) (h' : Shape n size') : size' = size := by
  rw [← length_indices h, ← length_indices h']

theorem lastGrid_append (registered : List CkArrayIndex) (n : CkArrayIndex) :
    lastGrid (registered ++ [n]) = if 1 < n.nInts then some n else lastGrid registered := by
  unfold lastGrid
  by_cases h : 1 < n.nInts
  · simp [h]
  · simp [h]

theorem registerAll_ok (hpos : ∀ n ∈ registered, Positive n)
    (hreg : HilbertArrayMap.registerAll m registered = .ok s) : Registered m registered s := by
  induction registered using reverseRecOn generalizing s with
  | nil =>
    obtain rfl := ok.inj hreg
    exact ⟨rfl, fun n hn => absurd hn not_mem_nil, rfl⟩
  | append_singleton registered n ih =>
    unfold HilbertArrayMap.registerAll at hreg
    rw [foldlM_append, bind_eq_ok] at hreg
    obtain ⟨s1, hfirst, hlast⟩ := hreg
    obtain ⟨hpos, hn⟩ := forall_mem_append.mp hpos
    obtain ⟨size, -, hshape⟩ := (hn n (mem_singleton_self n)).shape
    have hregistered := ih hpos hfirst
    rw [foldlM_cons, bind_eq_ok] at hlast
    obtain ⟨s2, hlast, hret⟩ := hlast
    obtain rfl := ok.inj hret
    obtain ⟨⟨idx, s3⟩, hstep, hret⟩ := bind_eq_ok.mp hlast
    obtain rfl := ok.inj hret
    obtain ⟨-, hamaps, hcase⟩ := registerArray_ok hshape hstep
    refine ⟨?_,
      forall_mem_append.mpr
        ⟨hregistered.sizes, forall_mem_singleton.mpr fun hgrid size' hshape' => ?_⟩, ?_⟩
    · rw [hamaps, hregistered.amaps, map_append, map_singleton]
    · obtain ⟨hone, -⟩ | ⟨-, hlt, -⟩ := hcase
      · omega
      · rwa [hshape.unique hshape']
    · rw [lastGrid_append]
      obtain ⟨hone, htable⟩ | ⟨hgrid, -, htable⟩ := hcase
      · rw [if_neg (by omega), htable, hregistered.allpairs]
      · rw [if_pos hgrid, htable]
        rfl

/-! ### Where an index is looked up -/

theorem readAt_natCast {α : Type} {table : List α} {k : Nat} {x : α} :
    readAt table k = .ok x ↔ table[k]? = some x := by
  rw [readAt, toNat_natCast]
  cases table[k]? with
  | none => exact ⟨nofun, nofun⟩
  | some y => exact ⟨fun h => congrArg some (ok.inj h), fun h => congrArg ok (Option.some.inj h)⟩

theorem flati_grid (h : Shape n size) (hsize : size < 2 ^ 31) (hidx : idx ∈ indices n)
    (hgrid : 1 < n.nInts) :
    s.flati (arrayMapInfo m n) idx = readAt s.allpairs (rowMajor n idx) := by
  have hflat := h.flatten hsize hidx
  have hints := nInts_of_mem_indices h hidx
  have hdata (k : Nat) : (arrayMapInfo m n).nelems.data k = n.data k := rfl
  unfold flatten at hflat
  unfold HilbertArrayMap.flati
  rw [if_neg (by omega)] at hflat ⊢
  by_cases htwo : idx.nInts = 2
  · rw [if_pos htwo] at hflat ⊢
    rw [hdata, ok.inj hflat]
  · rw [if_neg htwo] at hflat ⊢
    by_cases hthree : idx.nInts = 3
    · rw [if_pos hthree] at hflat ⊢
      rw [← ok.inj hflat, hdata, hdata]
      have hadd (x y : Int) : toInt (toInt x + y) = toInt (x + y) := bmod_add_bmod
      rw [← hadd (toInt (_ + _) * _), toInt_toInt_mul, hadd, add_mul,
        add_assoc, ← hadd (toInt _ * _), toInt_toInt_mul, hadd, add_assoc]
    · rw [if_neg hthree] at hflat
      cases hflat

/-- **The block of a number has a PE** if it is one of the blocks of all PEs. -/
theorem procNum_iff (hperm : procList.Perm (range m.numPes)) {map : ArrayMapInfo} {arrayHdl x : Nat}
    (hmap : readAt s.amaps arrayHdl = .ok map) (hints : map.nelems.nInts ≠ 0)
    (hflati : s.flati map idx = .ok (x : Int))
    (hceil : 0 < map.binSizeCeil) :
    (∀ myPe, ∃ pe : Nat, pe < m.numPes ∧ s.procNum m procList myPe arrayHdl idx = .ok (pe : Int)) ↔
      (x : Int) < m.numPes * map.binSizeCeil := by
  obtain ⟨c, hc⟩ := eq_ofNat_of_zero_le hceil.le
  have hlength : procList.length = m.numPes := hperm.length_eq.trans length_range
  have hpe (myPe pe : Nat) :
    s.procNum m procList myPe arrayHdl idx = .ok pe ↔ procList[x / c]? = some pe := by
    rw [HilbertArrayMap.procNum, hmap, ok_bind, if_neg hints, hflati, ok_bind, hc,
      cDiv_natCast (by omega), ← readAt_natCast]
    change (readAt procList (x / c) >>= fun pe => ok (pe : Int)) = _ ↔ _
    rw [bind_eq_ok]
    constructor
    · rintro ⟨pe', hread, heq⟩
      rwa [← ofNat.inj (ok.inj heq)]
    · exact fun hread => ⟨pe, hread, rfl⟩
  simp only [hpe, hc, ← natCast_mul, ofNat_lt, ← Nat.div_lt_iff_lt_mul
    (show 0 < c by omega), ← hlength]
  constructor
  · intro h
    obtain ⟨pe, -, hget⟩ := h 0
    exact (List.getElem?_eq_some_iff.mp hget).1
  · intro hlt _
    refine ⟨procList[x / c], ?_, getElem?_eq_getElem hlt⟩
    rw [hlength]
    exact mem_range.mp (hperm.subset (getElem_mem hlt))

theorem Computed.binSizeCeil (h : (arrayMapInfo m n).numChares = size) (hsize : 0 < size) :
    0 < (arrayMapInfo m n).binSizeCeil ∧
    (size : Int) ≤ m.numPes * (arrayMapInfo m n).binSizeCeil := by
  have hpes : (0 : Int) < m.numPes := ofNat_lt.mpr m.pos
  have hceil : (arrayMapInfo m n).binSizeCeil = -(-size / m.numPes) := by
    change -(-(arrayMapInfo m n).numChares / m.numPes) = _
    rw [h]
  have hle : size ≤ m.numPes * (arrayMapInfo m n).binSizeCeil := by
    have hdiv := mul_ediv_self_le (x := -size) (ne_of_gt hpes)
    rw [hceil, mul_neg]
    omega
  exact ⟨Int.pos_of_mul_pos_right (by omega) hpes, hle⟩

theorem hilbertNumber_line (h : Shape n size) (hone : n.nInts = 1) (hidx : idx ∈ indices n) :
    (hilbertNumber idx : Int) = idx.data 0 ∧ hilbertNumber idx < size := by
  cases h with
  | d1 ha =>
    rw [indices_d1 ha] at hidx
    obtain ⟨i, hi, rfl⟩ := mem_map.mp hidx
    have hi := mem_range.mp hi
    have hdata : (index1D (BitVec.ofNat 32 i)).data 0 = i := by
      rw [index1D, data_init_zero, toInt_ofNat (hi.trans ha)]
    have hnumber : hilbertNumber (index1D (BitVec.ofNat 32 i)) = i := by
      change hilbertToInt [((index1D (BitVec.ofNat 32 i)).data 0).toNat] 1 = i
      rw [hdata, toNat_natCast, Hilbert_to_int_line]
    rw [hnumber, hdata]
    exact ⟨rfl, hi⟩
  | d2 _ _ => exact absurd (show 2 = 1 from hone) (by decide)
  | d3 _ _ _ => exact absurd (show 3 = 1 from hone) (by decide)

theorem Registered.placed_iff (h : Registered m registered s)
    (hperm : procList.Perm (range m.numPes)) {arrayHdl : Nat} (hn : registered[arrayHdl]? = some n)
    (hpos : Positive n)
    (hidx : InBounds n idx) : Placed m procList s arrayHdl idx ↔ Fits m registered n idx := by
  obtain ⟨size, hsize, hshape⟩ := hpos.shape
  have hmem := (mem_indices_iff hshape).mpr hidx
  have hregistered : n ∈ registered := mem_of_getElem? hn
  have hmap : readAt s.amaps arrayHdl = .ok (arrayMapInfo m n) := by
    rw [readAt_natCast, h.amaps, getElem?_map, hn]
    rfl
  have hlt : size < 2 ^ 31 := by
    by_cases hgrid : 1 < n.nInts
    · exact h.sizes n hregistered hgrid size hshape
    · cases hshape with
      | d1 ha => exact ha
      | d2 _ _ => exact absurd (show 1 < 2 by decide) hgrid
      | d3 _ _ _ => exact absurd (show 1 < 3 by decide) hgrid
  have hcomputed := hshape.computed hlt m
  have hints : n.nInts ≠ 0 := hcomputed.nInts
  obtain ⟨hceil, hle⟩ := Computed.binSizeCeil hcomputed.numChares hsize
  have hpe (hflati : s.flati (arrayMapInfo m n) idx = .ok (hilbertNumber idx)) :=
    procNum_iff hperm hmap hints hflati hceil
  by_cases hone : n.nInts = 1
  · obtain ⟨hnumber, hbound⟩ := hilbertNumber_line hshape hone hmem
    have hflati : s.flati (arrayMapInfo m n) idx = .ok (hilbertNumber idx) := by
      rw [HilbertArrayMap.flati, if_pos ((nInts_of_mem_indices hshape hmem).trans hone), hnumber]
    exact iff_of_true ⟨⟨_, hmap, hflati⟩, (hpe hflati).mpr (by omega)⟩ (.inl hone)
  · have hgrid : 1 < n.nInts := by omega
    obtain ⟨i, hi, hrow⟩ := hshape.exists_rowMajor hmem
    obtain ⟨last, hlast⟩ : ∃ last, lastGrid registered = some last := by
      refine Option.isSome_iff_exists.mp (getLast?_isSome.mpr (ne_nil_of_mem (a := n) ?_))
      exact mem_filter.mpr ⟨hregistered, decide_eq_true hgrid⟩
    have hflati := flati_grid (s := s) (m := m) hshape hlt hmem hgrid
    rw [hrow, h.allpairs, hlast] at hflati
    have hentry (x : Int) : s.flati (arrayMapInfo m n) idx = .ok x ↔
        ∃ other, (indices last)[i]? = some other ∧ toInt (hilbertNumber other) = x := by
      rw [hflati, readAt_natCast, Option.elim_some, tableOf, getElem?_map, Option.map_eq_some_iff]
    constructor
    · rintro ⟨⟨map, hread, hnumber⟩, hplaced⟩
      obtain rfl := ok.inj (hmap.symm.trans hread)
      obtain ⟨other, hother, hsame⟩ := (hentry _).mp hnumber
      refine .inr ⟨last, other, hlast, ?_, hsame, (hpe hnumber).mp hplaced⟩
      rw [hrow, toNat_natCast, hother]
    · rintro (hone' | ⟨last', other, hlast', hother, hsame, hblock⟩)
      · exact absurd hone' hone
      · obtain rfl := Option.some.inj (hlast.symm.trans hlast')
        rw [hrow, toNat_natCast] at hother
        have hnumber := (hentry _).mpr ⟨other, hother, hsame⟩
        exact ⟨⟨_, hmap, hnumber⟩, (hpe hnumber).mpr hblock⟩

/-- **Where the Hilbert map places elements.** After any registrations that return, an index of a
registered array is looked up in bounds, by its own number, and gets a PE if and only if it fits. -/
theorem placed_iff_fits {m : Machine} {procList : List Nat}
    (hperm : procList.Perm (List.range m.numPes))
    {registered : List CkArrayIndex} (hpos : ∀ n ∈ registered, Positive n) {s : HilbertArrayMap}
    (hreg : HilbertArrayMap.registerAll m registered = .ok s) {arrayHdl : Nat} {n : CkArrayIndex}
    (hn : registered[arrayHdl]? = some n) {idx : CkArrayIndex} (hidx : InBounds n idx) :
    Placed m procList s arrayHdl idx ↔ Fits m registered n idx :=
  (registerAll_ok hpos hreg).placed_iff hperm hn (hpos n (mem_of_getElem? hn)) hidx

/-- One node of as many PEs. -/
def pes (nodeSize : Nat) (h : 0 < 1 * nodeSize) : Machine :=
  { numNodes := 1, nodeSize, useNodeBlkMapping := false, startedEvac := fun _ => false, pos := h }

theorem placed_iff_fits_square :
    ∃ s, HilbertArrayMap.registerAll (pes 2 (by decide)) [index1D 5, index2D 2 2] = .ok s ∧
    (Placed (pes 2 (by decide)) [1, 0] s 1 (index2D 1 0) ↔
    Fits (pes 2 (by decide)) [index1D 5, index2D 2 2] (index2D 2 2) (index2D 1 0)) := by
  have hpos : ∀ n ∈ [index1D 5, index2D 2 2], Positive n := by
    simp only [forall_mem_cons, not_mem_nil, false_implies, implies_true, and_true]
    exact ⟨⟨.d1 _, by decide, by decide⟩, ⟨.d2 _ _, by decide, by decide⟩⟩
  exact ⟨_, rfl, placed_iff_fits (by decide) hpos rfl rfl ⟨.d2 _ _, rfl, by decide, by decide⟩⟩

/-- Three elements in a row on three PEs: the last one has the number 14. -/
theorem not_placed_row :
    ∃ s, HilbertArrayMap.registerAll (pes 3 (by decide)) [index2D 3 1] = .ok s ∧
    Positive (index2D 3 1) ∧
    InBounds (index2D 3 1) (index2D 2 0) ∧
    ¬ Placed (pes 3 (by decide)) [0, 1, 2] s 0 (index2D 2 0) := by
  have hpos : Positive (index2D 3 1) := ⟨.d2 _ _, by decide, by decide⟩
  have hidx : InBounds (index2D 3 1) (index2D 2 0) := ⟨.d2 _ _, rfl, by decide, by decide⟩
  have hregistered := registerAll_ok (m := pes 3 (by decide)) (forall_mem_singleton.mpr hpos) rfl
  refine ⟨_, rfl, hpos, hidx, fun hplaced => ?_⟩
  have hnumber : hilbertNumber (index2D 2 0) = 14 := by
    have hcurve : intToHilbert 14 2 = [2, 0] := by
      decide
    have hback := Hilbert_to_int_int_to_Hilbert (show 0 < 2 by decide) 14
    rwa [hcurve] at hback
  obtain hone | ⟨-, -, -, -, -, hblock⟩ :=
    (hregistered.placed_iff (by decide) rfl hpos hidx).mp hplaced
  · exact absurd hone (by decide)
  · rw [hnumber] at hblock
    exact absurd hblock (by decide)

end CharmRuntime.Location
