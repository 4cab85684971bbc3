import Mathlib.Data.List.GetD
import CharmRuntime.Lib.MixedRadix

/-!
# Streamer.MeshRouter

`VirtualRouter` and `MeshRouter`: **routes along the dimensions of a mesh**. The PEs are the points
of a mesh, numbered row by row. An item goes along the last dimension first, and from each PE on
along the last one of those before, in which this PE and the destination differ.

The coordinates of a PE are its digits in the mixed radix of the sizes (`getD_locations`). A route
leads to the PE with one digit taken from the destination, and the digits behind it are the same
already (`determineRoute_some`); there is none exactly if nothing differs
(`determineRoute_eq_none_iff`).
-/

namespace CharmRuntime.Streamer

open Lib.MixedRadix

/-- The sizes of the dimensions. -/
structure Topology where
  individualDimensionSizes : List Nat
  pos : ∀ s ∈ individualDimensionSizes, 0 < s

namespace Topology

variable (t : Topology)

def numDimensions : Nat := t.individualDimensionSizes.length

/-- `numMembers_`, which is checked to be the number of PEs. -/
def numMembers : Nat := t.individualDimensionSizes.prod

/-- `individualDimensionSizes_[d]`, and `numBuffersPerDimension(d)`. -/
def size (d : Nat) : Nat := t.individualDimensionSizes.getD d 0

/-- `combinedDimensionSizes_[d]`. -/
def combined (d : Nat) : Nat := (t.individualDimensionSizes.drop (d + 1)).prod

end Topology

/-- The loop that computes `myLocationIndex_`, over the sizes. -/
def locations : List Nat → Nat → List Nat
  | [], _ => []
  | _ :: sizes, remainder =>
    remainder / sizes.prod :: locations sizes (remainder - sizes.prod * (remainder / sizes.prod))

structure Route where
  dimension : Nat
  dimensionIndex : Nat
  destinationPe : Int
  deriving DecidableEq

section

variable (t : Topology)

/-- `myLocationIndex_[d]` on `me`. -/
def myLocationIndex (me d : Nat) : Nat := (locations t.individualDimensionSizes me).getD d 0

def routeAlongDimension (destinationPe dimension : Nat) : Nat :=
  let blockIndex := destinationPe / t.combined dimension
  blockIndex - blockIndex / t.size dimension * t.size dimension

def nextPeAlongRoute (me dimension dimensionIndex : Nat) : Int :=
  me + ((dimensionIndex : Int) - myLocationIndex t me dimension) * t.combined dimension

/-- `determineRoute`, where `none` is a route whose dimension is `routeNotFound`. -/
def determineRoute (me destinationPe : Nat) : Nat → Option Route
  | 0 => none
  | i + 1 =>
    let dimensionIndex := routeAlongDimension t destinationPe i
    if dimensionIndex ≠ myLocationIndex t me i then
      some
        { dimension := i
          dimensionIndex := dimensionIndex
          destinationPe := nextPeAlongRoute t me i dimensionIndex }
    else determineRoute me destinationPe i

def determineInitialRoute (me destinationPe : Nat) :
    Option Route := determineRoute t me destinationPe t.numDimensions

def isBufferInUse (me dimension index : Nat) : Bool := index ≠ myLocationIndex t me dimension

def isMessagePersonalized (dimension : Nat) : Bool := dimension = 0

end

/-! ### Coordinates -/

/-- A coordinate of a PE. -/
def coord (t : Topology) (d pe : Nat) : Nat := digit t.individualDimensionSizes d pe

/-- The PE with one coordinate of another PE replaced. -/
def move (t : Topology) (d j pe : Nat) : Nat := setDigit t.individualDimensionSizes d j pe

theorem getD_locations {sizes : List Nat} (hpos : ∀ s ∈ sizes, 0 < s) {d n : Nat}
    (hd : d < sizes.length) (hn : n < sizes.prod) :
    (locations sizes n).getD d 0 = digit sizes d n := by
  induction sizes generalizing d n with
  | nil => exact absurd hd (Nat.not_lt_zero d)
  | cons s sizes ih =>
    rw [List.forall_mem_cons] at hpos
    cases d with
    | zero =>
      rw [digit, block_zero, Nat.mod_eq_of_lt hn]
      rfl
    | succ d =>
      have hrem : n - sizes.prod * (n / sizes.prod) = n % sizes.prod :=
        (Nat.mod_eq_sub_mul_div).symm
      have hlt : n % sizes.prod < sizes.prod := Nat.mod_lt _ (prod_pos_of_forall hpos.2)
      rw [locations, hrem, List.getD_cons_succ, ih hpos.2 (Nat.lt_of_succ_lt_succ hd) hlt,
        digit_mod_prod]
      rfl

variable {t : Topology} {me dest d : Nat}

theorem myLocationIndex_eq (hme : me < t.numMembers) (hd : d < t.numDimensions) :
    myLocationIndex t me d = coord t d me :=
  getD_locations t.pos hd hme

theorem size_eq (hd : d < t.numDimensions) : t.size d = t.individualDimensionSizes[d] :=
  List.getD_eq_getElem _ _ hd

theorem routeAlongDimension_eq (hd : d < t.numDimensions) :
    routeAlongDimension t dest d = coord t d dest := by
  rw [coord, digit_eq hd, routeAlongDimension, size_eq hd, Nat.mod_eq_sub_mul_div, mul_comm]
  rfl

theorem coord_lt (hd : d < t.numDimensions) (pe : Nat) : coord t d pe < t.size d := by
  rw [size_eq hd]
  exact digit_lt t.pos hd

/-- **PEs with the same coordinates are the same.** -/
theorem eq_of_coord (hme : me < t.numMembers) (hdest : dest < t.numMembers)
    (h : ∀ d < t.numDimensions, coord t d me = coord t d dest) : me = dest :=
  digits_ext hme hdest h

section

variable {j : Nat} (hd : d < t.numDimensions) (hj : j < t.size d)

include hd hj

theorem move_lt (hme : me < t.numMembers) : move t d j me < t.numMembers :=
  setDigit_lt t.pos hd (size_eq hd ▸ hj) hme

theorem coord_move {e : Nat} (he : e < t.numDimensions) :
    coord t e (move t d j me) = if e = d then j else coord t e me :=
  digit_setDigit t.pos hd (size_eq hd ▸ hj) he me

end

theorem nextPeAlongRoute_eq (hme : me < t.numMembers) (hd : d < t.numDimensions) (j : Nat) :
    nextPeAlongRoute t me d j = (move t d j me : Nat) := by
  have hle : coord t d me * t.combined d ≤ me := by
    have hparts := eq_add_digit t.individualDimensionSizes me d
    change _ = _ + coord t d me * t.combined d + _ at hparts
    omega
  have hmove : move t d j me = me - coord t d me * t.combined d + j * t.combined d := rfl
  rw [nextPeAlongRoute, myLocationIndex_eq hme hd, hmove, Int.natCast_add, Int.ofNat_sub hle,
    Int.natCast_mul, Int.natCast_mul]
  ring

/-! ### Routes -/

/-- Where an item goes from `me`: along the dimension `d`, behind which nothing differs up to the
one it came along. -/
structure Heads (t : Topology) (me dest received : Nat) (r : Route) : Prop where
  lt : r.dimension < received
  dimensionIndex : r.dimensionIndex = coord t r.dimension dest
  ne : coord t r.dimension dest ≠ coord t r.dimension me
  destinationPe : r.destinationPe = (move t r.dimension r.dimensionIndex me : Nat)
  behind : ∀ i, r.dimension < i → i < received → coord t i dest = coord t i me

theorem determineRoute_some {received : Nat} {r : Route} (hme : me < t.numMembers)
    (hreceived : received ≤ t.numDimensions)
    (h : determineRoute t me dest received = some r) : Heads t me dest received r := by
  induction received with
  | zero => cases h
  | succ i ih =>
    have hi : i < t.numDimensions := hreceived
    rw [determineRoute] at h
    simp only [routeAlongDimension_eq hi, myLocationIndex_eq hme hi,
      nextPeAlongRoute_eq hme hi] at h
    split at h
    · next hne =>
        obtain rfl := Option.some.inj h
        exact ⟨Nat.lt_succ_self i, rfl, hne, rfl, fun e he he' => absurd he' (not_lt.mpr he)⟩
    · next heq =>
        obtain ⟨hlt, hindex, hne, hpe, hbehind⟩ := ih (le_of_lt hi) h
        refine ⟨Nat.lt_succ_of_lt hlt, hindex, hne, hpe, fun e he he' => ?_⟩
        obtain hlt' | rfl := lt_or_eq_of_le (Nat.le_of_lt_succ he')
        · exact hbehind e he hlt'
        · exact not_not.mp heq

/-- There is no route exactly if nothing differs in front of the dimension that the item came along.
-/
theorem determineRoute_eq_none_iff {received : Nat} (hme : me < t.numMembers)
    (hreceived : received ≤ t.numDimensions) :
    determineRoute t me dest received = none ↔ ∀ i < received, coord t i dest = coord t i me := by
  induction received with
  | zero => exact iff_of_true rfl fun i hi => absurd hi (Nat.not_lt_zero i)
  | succ i ih =>
    have hi : i < t.numDimensions := hreceived
    rw [determineRoute, Nat.forall_lt_succ_right]
    simp only [routeAlongDimension_eq hi, myLocationIndex_eq hme hi]
    split
    · next hne => exact iff_of_false (Option.some_ne_none _) fun hall => hne hall.2
    · next heq =>
        rw [ih (le_of_lt hi)]
        exact ⟨fun hall => ⟨hall, not_not.mp heq⟩, fun hall => hall.1⟩

theorem determineInitialRoute_eq_none_iff (hme : me < t.numMembers) (hdest : dest < t.numMembers) :
    determineInitialRoute t me dest = none ↔ dest = me := by
  rw [determineInitialRoute, determineRoute_eq_none_iff hme (le_refl _)]
  constructor
  · exact fun h => eq_of_coord hdest hme h
  · rintro rfl
    exact fun _ _ => rfl

end CharmRuntime.Streamer
