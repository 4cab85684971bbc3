import Mathlib.Algebra.Order.BigOperators.Group.List
import Mathlib.Algebra.Ring.Divisibility.Basic
import Mathlib.Data.List.Induction
import Mathlib.Tactic.Linarith
import Mathlib.Tactic.Ring
import CharmRuntime.Lib.CInt

/-!
# Legion.RegionInstance

**The layout of an instance** of Legion (`RegionInstance::Impl`). The elements come in blocks, and
in a block each field has its values of all elements of the block next to each other. No two bytes
of elements have the same place (`Metadata.place_inj`), and all places are in the instance
(`Metadata.place_lt`).

`get_strided_parameters` gives the start of a field and the distance between two elements, which is
right within the first block only (`strided_agrees_iff`).

The size of a field and the position in a block are `int`s, and so is their product. Offsets have 64
bits; they stand without overflow, as those in an instance of less than `2 ^ 63` bytes are. Indices
and the offsets that are asked for are not negative, and `none` is a failed assertion or an `int`
that overflows. Memory is a function from addresses, with direct pointers.
-/

namespace CharmRuntime.Legion.RegionInstance

open Lib List Option Nat

/-- The field that holds the bytes from `byte_offset` on: its start, and its size as an `int`. -/
def findFieldStart : List Nat → Nat → Nat → Nat → Option (Nat × Int)
  | [], _, _, _ => none
  | it :: rest, byte_offset, size, start =>
    if it = 0 then none
    else if byte_offset < it then if byte_offset + size ≤ it then some (start, castInt it) else none
    else findFieldStart rest (byte_offset - it) size (start + it)

structure Metadata where
  alloc_offset : Nat
  block_size : Nat
  elmt_size : Nat
  field_sizes : List Nat
  /-- `inst_bytes`. -/
  size : Nat

/-- The number of elements, rounded up to whole blocks. -/
def wholeBlocks (num_elements block_size : Nat) : Nat :=
  let leftover := num_elements % block_size
  if 1 < block_size ∧ 0 < leftover then num_elements + (block_size - leftover) else num_elements

/-- The end of `Domain::create_instance`. -/
def createInstance (num_elements block_size alloc_offset : Nat) (field_sizes : List Nat) :
    Metadata :=
  let elem_size := field_sizes.sum
  let block_size := if field_sizes.length = 1 then num_elements else block_size
  { alloc_offset, block_size, elmt_size := elem_size, field_sizes,
    size := elem_size * wholeBlocks num_elements block_size % 2 ^ 64 }

namespace Metadata

/-- What `get_bytes` and `put_bytes` add to `alloc_offset`. -/
def offset (md : Metadata) (index byte_offset size : Nat) : Option Int :=
  if md.block_size = 1 then some (index * md.elmt_size + byte_offset)
  else do
    let (field_start, field_size) ← findFieldStart md.field_sizes byte_offset size 0
    let block_num : Nat := index / md.block_size
    let block_ofs : Nat := index % md.block_size
    let value_ofs ← checkedInt (field_size * block_ofs)
    some ((md.elmt_size * block_num + field_start) * md.block_size + value_ofs +
    (byte_offset - field_start))

variable {β : Type}

def getBytes (md : Metadata) (mem : Int → β) (index byte_offset size : Nat) : Option (List β) := do
  let o ← md.offset index byte_offset size
  some ((List.range size).map fun i : Nat => mem (md.alloc_offset + o + i))

def putBytes (md : Metadata) (mem : Int → β) (index byte_offset : Nat) (src : List β) :
    Option (Int → β) := do
  let o ← md.offset index byte_offset src.length
  some fun a => if md.alloc_offset + o ≤ a then (src[(a - (md.alloc_offset + o)).toNat]?).getD
    (mem a) else mem a

/-- `get_strided_parameters`: the base and the stride. A stride that is not 0 is what the caller
wants. The size of the field is an `int` that is converted to the `size_t`. There is no offset for
each element. -/
def getStridedParameters (md : Metadata) (stride field_offset : Nat) : Option (Nat × Nat) := do
  let (offset, elmt_stride) ←
    if md.block_size = 1 then some (md.alloc_offset + field_offset, md.elmt_size)
    else do
      let (field_start, field_size) ← findFieldStart md.field_sizes field_offset 1 0
      some (md.alloc_offset + (field_start * md.block_size + (field_offset - field_start)),
      (BitVec.ofInt 64 field_size).toNat)
  if stride = 0 then some (offset, elmt_stride)
  else if stride ≠ elmt_stride ∧ md.elmt_size < md.size then none
  else some (offset, stride)

end Metadata

/-! ### Places -/

/-- The bytes from `byte_offset` on are in a field. -/
def InField (field_sizes : List Nat) (byte_offset n : Nat) : Prop :=
  ∃ pre f post r, field_sizes = pre ++ f :: post ∧ byte_offset = pre.sum + r ∧ r < f ∧ r + n ≤ f

/-- The place of a byte in its block, where each field has the values of `block_size` elements. -/
def placeIn (block_size block_ofs : Nat) : List Nat → Nat → Nat
  | [], _ => 0
  | f :: rest, b =>
    if b < f then f * block_ofs + b else f * block_size + placeIn block_size block_ofs rest (b - f)

section Fields

variable {fields : List Nat} {b b' n : Nat} {block_size block_ofs block_ofs' : Nat}

theorem find_field_start_eq {pre post : List Nat} {f r : Nat} (hpos : ∀ g ∈ pre, 0 < g) (hr : r < f)
    (hn : r + n ≤ f)
    (start : Nat) :
    findFieldStart (pre ++ f :: post) (pre.sum + r) n start =
    some (start + pre.sum, castInt f) := by
  induction pre generalizing start with
  | nil =>
    rw [nil_append, findFieldStart, sum_nil, zero_add, if_neg (by omega), if_pos hr, if_pos hn]
    rfl
  | cons g pre ih =>
    have hg := hpos g mem_cons_self
    rw [cons_append, findFieldStart, sum_cons, add_assoc, if_neg (by omega), if_neg (by omega),
      Nat.add_sub_cancel_left, ih fun f hf => hpos f (mem_cons_of_mem _ hf), add_assoc]

theorem placeIn_eq {pre post : List Nat} {f r : Nat} (hr : r < f) :
    placeIn block_size block_ofs (pre ++ f :: post) (pre.sum + r) = pre.sum * block_size +
    (f * block_ofs + r) := by
  induction pre with
  | nil => rw [nil_append, placeIn, sum_nil, zero_add, if_pos hr, zero_mul, zero_add]
  | cons g pre ih =>
    rw [cons_append, placeIn, sum_cons, add_assoc, if_neg (by omega), Nat.add_sub_cancel_left, ih,
      add_mul, add_assoc]

theorem value_lt {f r : Nat} (hofs : block_ofs < block_size) (hr : r < f) :
    f * block_ofs + r < f * block_size :=
  calc f * block_ofs + r < f * block_ofs + f := Nat.add_lt_add_left hr _
    _ = f * (block_ofs + 1) := rfl
    _ ≤ f * block_size := mul_le_mul_left f hofs

theorem placeIn_lt (hofs : block_ofs < block_size) (hb : b < fields.sum) :
    placeIn block_size block_ofs fields b < fields.sum * block_size := by
  induction fields generalizing b with
  | nil => exact absurd hb (not_lt_zero b)
  | cons f rest ih =>
    rw [sum_cons] at hb
    rw [placeIn, sum_cons, add_mul]
    split
    · next hlt => exact lt_of_lt_of_le (value_lt hofs hlt) (le_add_right _ _)
    · exact Nat.add_lt_add_left (ih (by omega)) _

theorem placeIn_inj (hofs : block_ofs < block_size) (hofs' : block_ofs' < block_size)
    (hb : b < fields.sum)
    (hb' : b' < fields.sum)
    (heq : placeIn block_size block_ofs fields b = placeIn block_size block_ofs' fields b') :
    block_ofs = block_ofs' ∧ b = b' := by
  induction fields generalizing b b' with
  | nil => exact absurd hb (not_lt_zero b)
  | cons f rest ih =>
    rw [sum_cons] at hb hb'
    rw [placeIn, placeIn] at heq
    split at heq
    · next hlt =>
        have hval := value_lt hofs hlt
        split at heq
        · next hlt' =>
            have hdiv := congrArg (· / f) heq
            have hf : 0 < f := zero_lt_of_lt hlt
            simp only [mul_add_div hf, div_eq_of_lt hlt, div_eq_of_lt hlt', add_zero] at hdiv
            rw [hdiv, add_left_cancel_iff] at heq
            exact ⟨hdiv, heq⟩
        · omega
    · split at heq
      · next hlt' =>
          have hval := value_lt hofs' hlt'
          omega
      · obtain ⟨hofs, hb⟩ := ih (by omega) (by omega) (add_left_cancel heq)
        exact ⟨hofs, by omega⟩

theorem InField.byte (h : InField fields b n) {i : Nat} (hi : i < n) : b + i < fields.sum ∧
    ∀ block_size block_ofs, placeIn block_size block_ofs fields (b + i) =
    placeIn block_size block_ofs fields b + i := by
  obtain ⟨-, f, -, r, rfl, rfl, hr, hn⟩ := h
  refine ⟨?_, fun _ _ => ?_⟩
  · rw [sum_append_nat, sum_cons]
    omega
  · rw [add_assoc, placeIn_eq (by omega), placeIn_eq hr]
    omega

end Fields

namespace Metadata

/-- The place of a byte of an element in the instance. -/
def place (md : Metadata) (index b : Nat) : Nat :=
  md.elmt_size * md.block_size * (index / md.block_size) +
    placeIn md.block_size (index % md.block_size) md.field_sizes b

/-- The bytes of an element have the size that it is counted with, and the blocks have elements. -/
structure Ok (md : Metadata) : Prop where
  elmt_size : md.elmt_size = md.field_sizes.sum
  field_sizes : ∀ f ∈ md.field_sizes, 0 < f
  block_size : 0 < md.block_size

variable {md : Metadata} {index index' b b' n : Nat}

/-- The `int`s of an access to an element do not overflow: its position in the block is 0, or times
the size of any field an `int`. -/
def Fits (md : Metadata) (index : Nat) : Prop :=
  md.block_size = 1 ∨ ∀ f ∈ md.field_sizes, f * (index % md.block_size) < 2 ^ 31

theorem checkedInt_value {f block_ofs : Nat} (h : f * block_ofs < 2 ^ 31) :
    checkedInt (castInt f * block_ofs) = some ((f * block_ofs : Nat) : Int) := by
  obtain rfl | hpos := Nat.eq_zero_or_pos block_ofs
  · simp [checkedInt, IsInt]
  · have hf : f < 2 ^ 31 := lt_of_le_of_lt (Nat.le_mul_of_pos_right f hpos) h
    rw [castInt_of_isInt (by unfold IsInt; omega), ← Int.natCast_mul]
    exact checkedInt_of_isInt (by unfold IsInt; omega)

theorem Ok.offset_eq (h : md.Ok) (hf : InField md.field_sizes b n) (hfits : md.Fits index) :
    md.offset index b n = some (md.place index b : Int) := by
  obtain ⟨pre, f, post, r, hsplit, rfl, hr, hn⟩ := hf
  rw [place, hsplit, placeIn_eq hr, offset]
  split
  · next hone =>
      rw [hone, Nat.div_one, mod_one, mul_one, mul_one, mul_zero, zero_add, mul_comm md.elmt_size]
      push_cast
      rfl
  · next hmulti =>
      have hpos :
        ∀ g ∈ pre, 0 < g := fun g hg => h.field_sizes g (by rw [hsplit]; exact mem_append_left _ hg)
      have hvalue :=
        hfits.resolve_left hmulti f (by rw [hsplit]; exact mem_append_right _ mem_cons_self)
      rw [hsplit, find_field_start_eq hpos hr hn]
      simp only [bind_eq_bind, bind_some, checkedInt_value hvalue, zero_add, some.injEq]
      push_cast
      ring

/-- **No two bytes have the same place.** -/
theorem Ok.place_inj (h : md.Ok) (hb : b < md.field_sizes.sum) (hb' : b' < md.field_sizes.sum)
    (heq : md.place index b = md.place index' b') : index = index' ∧ b = b' := by
  rw [place, place, h.elmt_size] at heq
  have hlt := placeIn_lt (mod_lt index h.block_size) hb
  have hlt' := placeIn_lt (mod_lt index' h.block_size) hb'
  have hdiv := congrArg (· / (md.field_sizes.sum * md.block_size)) heq
  simp only [mul_add_div (zero_lt_of_lt hlt), div_eq_of_lt hlt, div_eq_of_lt hlt', add_zero] at hdiv
  rw [hdiv, add_left_cancel_iff] at heq
  obtain ⟨hmod, hb⟩ :=
    placeIn_inj (mod_lt index h.block_size) (mod_lt index' h.block_size) hb hb' heq
  exact ⟨by rw [← div_add_mod index md.block_size, hdiv, hmod, div_add_mod], hb⟩

theorem place_add (hf : InField md.field_sizes b n) {i : Nat} (hi : i < n) :
    md.place index (b + i) = md.place index b + i := by
  rw [place, place, (hf.byte hi).2, add_assoc]

end Metadata

/-! ### An instance -/

/-- An instance has all blocks that its elements are in. -/
theorem blocks_le_wholeBlocks {num_elements block_size index : Nat} (hB : 0 < block_size)
    (hindex : index < num_elements) :
    block_size * (index / block_size + 1) ≤ wholeBlocks num_elements block_size := by
  have hmod := div_add_mod num_elements block_size
  unfold wholeBlocks
  dsimp only
  split
  · next hround =>
      have hle : index / block_size ≤ num_elements / block_size :=
        Nat.div_le_div_right (le_of_lt hindex)
      have hmul := mul_le_mul_left block_size (Nat.add_le_add_right hle 1)
      rw [mul_add block_size (num_elements / block_size), mul_one] at hmul
      omega
  · next hwhole =>
      obtain hmulti | hone := lt_or_ge 1 block_size
      · have hzero : num_elements % block_size = 0 := by omega
        have hle : index / block_size + 1 ≤ num_elements / block_size :=
          (div_lt_iff_lt_mul hB).mpr (by
          rw [Nat.div_mul_cancel (dvd_of_mod_eq_zero hzero)]
          exact hindex)
        have hmul := mul_le_mul_left block_size hle
        omega
      · obtain hone : block_size = 1 := by omega
        rw [hone, Nat.div_one, one_mul]
        exact hindex

/-- A write to an element. -/
structure Put (β : Type) where
  index : Nat
  byte_offset : Nat
  src : List β

variable {β : Type}

def Put.run (md : Metadata) (mem : Int → β) (p : Put β) :
    Option (Int → β) := md.putBytes mem p.index p.byte_offset p.src

/-- The byte of the element that the write writes. -/
def Put.at (p : Put β) (index b : Nat) : Option β :=
  if p.index = index ∧ p.byte_offset ≤ b then p.src[b - p.byte_offset]? else none

/-- The last value that was written to a byte of an element. -/
def lastWritten (puts : List (Put β)) (index b : Nat) : Option β :=
  puts.foldl (fun v p => (p.at index b).or v) none

/-- The access is to an element of the instance, and within one field. -/
def Access (num_elements : Nat) (fields : List Nat) (index b n : Nat) :
    Prop := index < num_elements ∧ InField fields b n

section Runs

variable {md : Metadata}

/-- **A write changes the bytes that it is for**, and no other byte of an element. -/
theorem Put.run_eq (h : md.Ok) {p : Put β} (hp : InField md.field_sizes p.byte_offset p.src.length)
    (hfits : md.Fits p.index) (mem : Int → β) :
    ∃ mem', p.run md mem = some mem' ∧ ∀ index b, b < md.field_sizes.sum →
      mem' (md.alloc_offset + md.place index b) =
      (p.at index b).getD (mem (md.alloc_offset + md.place index b)) := by
  rw [Put.run, Metadata.putBytes, h.offset_eq hp hfits]
  refine ⟨_, rfl, fun index b hb => ?_⟩
  set o := md.place p.index p.byte_offset with ho
  by_cases hin : ∃ i < p.src.length, md.place index b = o + i
  · obtain ⟨i, hi, heq⟩ := hin
    have hplace := heq
    rw [← Metadata.place_add hp hi] at heq
    obtain ⟨rfl, rfl⟩ := h.place_inj hb (hp.byte hi).1 heq
    rw [hplace, if_pos (by omega), Put.at, if_pos ⟨rfl, le_add_right _ i⟩, Nat.add_sub_cancel_left]
    congr 2
    omega
  · have hnone : p.at index b = none := by
      rw [Put.at]
      split
      · next hcover =>
          obtain ⟨rfl, hle⟩ := hcover
          refine getElem?_eq_none (Nat.le_of_not_lt fun hi => hin ⟨b - p.byte_offset, hi, ?_⟩)
          rw [← Metadata.place_add hp hi, Nat.add_sub_cancel' hle]
      · rfl
    rw [hnone]
    split
    · next hle =>
        rw [getElem?_eq_none (Nat.le_of_not_lt fun hi => hin ⟨_, hi, by omega⟩), getD_none]
    · rfl

theorem runs_eq (h : md.Ok) (puts : List (Put β))
    (hputs : ∀ p ∈ puts, InField md.field_sizes p.byte_offset p.src.length ∧ md.Fits p.index)
    (mem : Int → β) :
    ∃ mem', puts.foldlM (Put.run md) mem = some mem' ∧ ∀ index b, b < md.field_sizes.sum →
      mem' (md.alloc_offset + md.place index b) =
        (lastWritten puts index b).getD (mem (md.alloc_offset + md.place index b)) := by
  induction puts using reverseRecOn with
  | nil => exact ⟨mem, rfl, fun _ _ _ => rfl⟩
  | append_singleton puts p ih =>
    obtain ⟨mem1, hrun, hmem⟩ := ih fun q hq => hputs q (mem_append_left _ hq)
    obtain ⟨hfield, hfits⟩ := hputs p (mem_append_right _ mem_cons_self)
    obtain ⟨mem2, hput, hmem2⟩ := Put.run_eq h hfield hfits mem1
    refine ⟨mem2, ?_, fun index b hb => ?_⟩
    · rw [foldlM_append, hrun]
      simp only [bind_eq_bind, bind_some, foldlM_cons, hput]
      rfl
    · have hlast :
        lastWritten (puts ++ [p]) index b = (p.at index b).or (lastWritten puts index b) := by
        rw [lastWritten, foldl_append]
        rfl
      rw [hmem2 index b hb, hmem index b hb, hlast]
      cases p.at index b <;> rfl

end Runs

/-- **A layout**: every access is in the instance, two accesses share a byte only if they are to the
same bytes of one element, and what is read is what was written last. -/
structure Layout (md : Metadata) (num_elements : Nat) : Prop where
  in_bounds : ∀ index b n, Access num_elements md.field_sizes index b n →
    ∃ o, md.offset index b n = some o ∧ 0 ≤ o ∧ o + n ≤ md.size
  apart : ∀ index b n o index' b' n' o', Access num_elements md.field_sizes index b n →
    Access num_elements md.field_sizes index' b' n' → md.offset index b n = some o →
    md.offset index' b' n' = some o' →
    ∀ a, o ≤ a → a < o + n → o' ≤ a → a < o' + n' → index = index' ∧ ∃ j, b ≤ j ∧ j < b + n ∧
    b' ≤ j ∧ j < b' + n'
  last_written : ∀ {β : Type} (mem : Int → β) (puts : List (Put β)),
    (∀ p ∈ puts, Access num_elements md.field_sizes p.index p.byte_offset p.src.length) →
    ∃ mem', puts.foldlM (Put.run md) mem = some mem' ∧
    ∀ index b n, Access num_elements md.field_sizes index b n →
      ∃ o, md.offset index b n = some o ∧ md.getBytes mem' index b n =
        some ((List.range n).map fun i : Nat => (lastWritten puts index (b + i)).getD
          (mem (md.alloc_offset + o + i)))

/-- The instance has less than `2 ^ 63` bytes, and the last position in a block times the size of a
field is an `int`, unless blocks have one element. -/
structure Fitting (num_elements block_size : Nat) (fields : List Nat) : Prop where
  bytes : fields.sum * wholeBlocks num_elements block_size < 2 ^ 63
  values : block_size = 1 ∨ ∀ f ∈ fields, f * (min block_size num_elements - 1) < 2 ^ 31

theorem Fitting.fits {num_elements block_size index : Nat} {md : Metadata} (hB : 0 < block_size)
    (h : Fitting num_elements block_size md.field_sizes) (hblock : md.block_size = block_size)
    (hindex : index < num_elements) :
    md.Fits index := by
  subst hblock
  refine h.values.imp_right fun hvalues f hf => lt_of_le_of_lt (mul_le_mul_left f ?_) (hvalues f hf)
  have hmod := mod_lt index hB
  have hle := mod_le index md.block_size
  omega

/-- **A new instance has a place of its own for each field of each element.** -/
theorem layout_create_instance {fields : List Nat} {block_size : Nat}
    (num_elements alloc_offset : Nat)
    (hpos : ∀ f ∈ fields, 0 < f) (hB : 1 ≤ block_size)
    (hfitting : Fitting num_elements
      (createInstance num_elements block_size alloc_offset fields).block_size fields) :
    Layout (createInstance num_elements block_size alloc_offset fields) num_elements := by
  set md := createInstance num_elements block_size alloc_offset fields with hmd
  have hblock {index : Nat} (hindex : index < num_elements) : 0 < md.block_size := by
    rw [hmd, createInstance]
    dsimp only
    split <;> omega
  have hok {index : Nat} (hindex : index < num_elements) : md.Ok := ⟨rfl, hpos, hblock hindex⟩
  have hfits {index : Nat} (hindex : index < num_elements) : md.Fits index :=
    hfitting.fits (hblock hindex) rfl hindex
  refine ⟨?_, ?_, fun mem puts hputs => ?_⟩
  · rintro index b n ⟨hindex, hf⟩
    refine ⟨_, (hok hindex).offset_eq hf (hfits hindex), Int.natCast_nonneg _, ?_⟩
    have hle := mul_le_mul_left fields.sum (blocks_le_wholeBlocks (hblock hindex) hindex)
    have hsize : md.size = fields.sum * wholeBlocks num_elements md.block_size :=
      mod_eq_of_lt (lt_trans hfitting.bytes (by decide))
    rw [← mul_assoc, mul_add, mul_one, ← hsize] at hle
    -- The last byte of the access, or the first one, is in the block.
    have hlast :
      placeIn md.block_size (index % md.block_size) md.field_sizes b + n ≤ md.field_sizes.sum *
      md.block_size := by
      obtain ⟨pre, f, post, r, hsplit, rfl, hr, hn⟩ := hf
      rw [hsplit, placeIn_eq hr, sum_append_nat, sum_cons]
      have hval := value_lt (mod_lt index (hblock hindex)) (show f - 1 < f by omega)
      have hadd : (pre.sum + (f + post.sum)) * md.block_size =
          pre.sum * md.block_size + (f * md.block_size + post.sum * md.block_size) := by ring
      omega
    have hplace : md.place index b + n ≤ md.size := by
      change fields.sum * md.block_size * (index / md.block_size) + _ + n ≤ md.size
      change _ ≤ fields.sum * md.block_size at hlast
      omega
    exact_mod_cast hplace
  · rintro index b n o index' b' n' o' ⟨hindex, hf⟩ ⟨hindex', hf'⟩ ho ho' a ha hlt ha' hlt'
    obtain rfl := some.inj (((hok hindex).offset_eq hf (hfits hindex)).symm.trans ho)
    obtain rfl := some.inj (((hok hindex).offset_eq hf' (hfits hindex')).symm.trans ho')
    obtain ⟨i, rfl⟩ := Int.le.dest ha
    obtain ⟨i', hi'⟩ := Int.le.dest ha'
    have hin : i < n := by omega
    have hin' : i' < n' := by omega
    have hsame : md.place index (b + i) = md.place index' (b' + i') := by
      rw [Metadata.place_add hf hin, Metadata.place_add hf' hin']
      omega
    obtain ⟨rfl, hb⟩ := (hok hindex).place_inj (hf.byte hin).1 (hf'.byte hin').1 hsame
    exact ⟨rfl, b + i, by omega, by omega, by omega, by omega⟩
  · by_cases hnum : num_elements = 0
    · cases puts with
      | nil => exact ⟨mem, rfl, fun index b n ⟨hindex, _⟩ => absurd hindex (by omega)⟩
      | cons p puts => exact absurd (hputs p mem_cons_self).1 (by omega)
    · have h := hok (pos_of_ne_zero hnum)
      obtain ⟨mem', hrun, hmem⟩ :=
        runs_eq h puts (fun p hp => ⟨(hputs p hp).2, hfits (hputs p hp).1⟩) mem
      refine ⟨mem', hrun, ?_⟩
      rintro index b n ⟨hindex, hf⟩
      refine ⟨_, h.offset_eq hf (hfits hindex), ?_⟩
      rw [Metadata.getBytes, h.offset_eq hf (hfits hindex)]
      refine congrArg some (map_congr_left fun i hi => ?_)
      have hin := mem_range.mp hi
      have hbyte := hmem index (b + i) (hf.byte hin).1
      rwa [Metadata.place_add hf hin, Nat.cast_add, ← add_assoc] at hbyte

/-- Five elements with two fields, in blocks of two. -/
theorem layout_five : Layout (createInstance 5 2 0 [1, 2]) 5 :=
  layout_create_instance 5 0 (by decide) (by decide) ⟨by decide, .inr (by decide)⟩

/-- One field of 8 bytes: the offset of element `2 ^ 28` is a product that is no `int`. -/
theorem not_layout_large : ¬ ∀ (fields : List Nat) (block_size num_elements alloc_offset : Nat),
    (∀ f ∈ fields, 0 < f) → 1 ≤ block_size →
    Layout (createInstance num_elements block_size alloc_offset fields) num_elements := by
  intro hclaim
  obtain ⟨o, ho, -⟩ := (hclaim [8] 1 (2 ^ 28 + 1) 0 (by decide) (le_refl 1)).in_bounds (2 ^ 28) 0 8
    ⟨by decide, [], 8, [], 0, rfl, rfl, by decide, by decide⟩
  have hnone : (createInstance (2 ^ 28 + 1) 1 0 [8]).offset (2 ^ 28) 0 8 = none := by decide +kernel
  cases hnone.symm.trans ho

/-! ### The strided accessor -/

/-- The address of an offset, of 64 bits. -/
def Metadata.address (md : Metadata) (o : Int) : BitVec 64 := BitVec.ofInt 64 (md.alloc_offset + o)

section Strided

variable {md : Metadata} {pre post : List Nat} {f r index : Nat}

theorem castInt_abs_le (f : Nat) :
    -f ≤ castInt f ∧ castInt f ≤ f ∧ (castInt f = f → f < 2 ^ 31) := by
  have hint := isInt_castInt f
  unfold IsInt at hint
  by_cases hf : f < 2 ^ 31
  · rw [castInt_of_isInt (by unfold IsInt; omega)]
    omega
  · omega

/-- Only with one field is its size that of an element. -/
theorem Metadata.Ok.elmt_size_eq_iff (h : md.Ok) (hsplit : md.field_sizes = pre ++ f :: post) :
    md.elmt_size = f ↔ md.field_sizes.length = 1 := by
  have hpos := h.field_sizes
  rw [hsplit] at hpos
  rw [h.elmt_size, hsplit, sum_append_nat, sum_cons, length_append, length_cons]
  constructor
  · intro heq
    have hnil {l : List Nat} (hl : l.sum = 0) (hmem : ∀ g ∈ l, g ∈ pre ++ f :: post) : l = [] :=
      eq_nil_iff_forall_not_mem.mpr fun g hg =>
        absurd (sum_eq_zero_iff.mp hl g hg) (ne_of_gt (hpos g (hmem g hg)))
    rw [hnil (by omega) fun g hg => mem_append_left _ hg,
      hnil (by omega) fun g hg => mem_append_right _ (mem_cons_of_mem _ hg)]
    rfl
  · intro hlen
    rw [eq_nil_of_length_eq_zero (l := pre) (by omega), eq_nil_of_length_eq_zero
      (l := post) (by omega)]
    simp

/-- The two accessors agree on an element: the product is an `int`, and the blocks before the
element's are as long for the one as for the other, in the 64 bits of an address. -/
theorem Metadata.Ok.agrees_iff (h : md.Ok) (hmulti : md.block_size ≠ 1)
    (hsplit : md.field_sizes = pre ++ f :: post)
    (hr : r < f) {base stride : Nat}
    (hstrided : md.getStridedParameters 0 (pre.sum + r) = some (base, stride)) :
    (md.offset index (pre.sum + r) 1).map md.address =
    some (BitVec.ofNat 64 (base + index * stride)) ↔
      IsInt (castInt f * (index % md.block_size : Nat)) ∧
        (2 ^ 64 : Int) ∣ (md.elmt_size - castInt f) * md.block_size *
        (index / md.block_size : Nat) := by
  have hpos :
    ∀ g ∈ pre, 0 < g := fun g hg => h.field_sizes g (by rw [hsplit]; exact mem_append_left _ hg)
  have hfind (start : Nat) :
    findFieldStart (pre ++ f :: post) (pre.sum + r) 1 start = some (start + pre.sum, castInt f) :=
    find_field_start_eq hpos hr hr start
  rw [Metadata.getStridedParameters, if_neg hmulti, hsplit, hfind] at hstrided
  obtain ⟨rfl, rfl⟩ := Prod.mk.inj (some.inj hstrided)
  rw [Metadata.offset, if_neg hmulti, hsplit, hfind]
  simp only [bind_eq_bind, bind_some, zero_add, Nat.add_sub_cancel_left]
  have hindex := div_add_mod index md.block_size
  generalize index / md.block_size = q, index % md.block_size = m at *
  by_cases hint : IsInt (castInt f * m)
  · rw [checkedInt_of_isInt hint, bind_some, map_some, some.injEq,
      Metadata.address, ← BitVec.ofInt_natCast, ofInt_eq_ofInt_iff, and_iff_right hint]
    obtain ⟨k, hk⟩ : (2 ^ 64 : Int) ∣ (BitVec.ofInt 64 (castInt f)).toNat - castInt f := by
      rw [← ofInt_eq_ofInt_iff, BitVec.ofInt_natCast, BitVec.ofNat_toNat, BitVec.setWidth_eq]
    have hstride : ((BitVec.ofInt 64 (castInt f)).toNat : Int) = castInt f + 2 ^ 64 * k := by omega
    have hdiff : (md.alloc_offset + ((md.elmt_size * q + pre.sum) * md.block_size + castInt f * m +
          ((pre.sum + r : Nat) - pre.sum)) -
        (md.alloc_offset + (pre.sum * md.block_size + r) + index *
        (BitVec.ofInt 64 (castInt f)).toNat : Nat) : Int) =
          (md.elmt_size - castInt f) * md.block_size * q - 2 ^ 64 * (k * index) := by
      rw [← hindex]
      push_cast
      rw [hstride]
      ring
    rw [hdiff, dvd_sub_left (Dvd.intro _ rfl)]
  · rw [checkedInt_eq_none.mpr hint, bind_none, map_none]
    exact iff_of_false (fun heq => by cases heq) fun hand => hint hand.1

theorem isInt_mul_of_le {x : Int} {j k : Nat} (h : IsInt (x * k)) (hle : j ≤ k) :
    IsInt (x * j) := by
  obtain hneg | hpos := le_total x 0
  · have hmul : x * k ≤ x * j := mul_le_mul_of_nonpos_left (by omega) hneg
    have hzero : x * j ≤ 0 := mul_nonpos_of_nonpos_of_nonneg hneg (by omega)
    unfold IsInt at *
    omega
  · exact h.of_le (mul_nonneg hpos (by omega)) (mul_le_mul_of_nonneg_left (by omega) hpos)

/-- **The stride is right in the first block**, if the products of `get_bytes` are `int`s there:
with blocks of one element, with one block, and with one field. -/
theorem strided_agrees_iff (hok : md.Ok) (hsplit : md.field_sizes = pre ++ f :: post) (hr : r < f)
    {base stride : Nat}
    (hstrided : md.getStridedParameters 0 (pre.sum + r) = some (base, stride)) {num_elements : Nat}
    (hbytes : md.elmt_size * num_elements < 2 ^ 63) :
    (∀ index < num_elements,
        (md.offset index (pre.sum + r) 1).map md.address =
        some (BitVec.ofNat 64 (base + index * stride))) ↔
      md.block_size = 1 ∨ IsInt (castInt f * (min md.block_size num_elements - 1 : Nat)) ∧
        (num_elements ≤ md.block_size ∨ md.field_sizes.length = 1 ∧ f < 2 ^ 31) := by
  have hB := hok.block_size
  by_cases hone : md.block_size = 1
  · refine iff_of_true (fun index _ => ?_) (.inl hone)
    rw [Metadata.getStridedParameters, if_pos hone] at hstrided
    obtain ⟨rfl, rfl⟩ := Prod.mk.inj (some.inj hstrided)
    rw [Metadata.offset, if_pos hone, map_some, Metadata.address, ← BitVec.ofInt_natCast]
    refine congrArg some (congrArg _ ?_)
    push_cast
    ring
  · simp only [hok.agrees_iff hone hsplit hr hstrided, hone, false_or]
    constructor
    · intro hall
      refine ⟨?_, ?_⟩
      · obtain hzero | hpos := Nat.eq_zero_or_pos num_elements
        · rw [hzero]
          simp [IsInt]
        · have hlast := (hall (min md.block_size num_elements - 1) (by omega)).1
          rwa [mod_eq_of_lt (by omega)] at hlast
      · obtain hle | hlt := le_or_gt num_elements md.block_size
        · exact .inl hle
        · -- The second block would have to be as far away for both, and it is less than 2 ^ 63
          -- bytes away.
          have hdvd := (hall md.block_size hlt).2
          rw [Nat.div_self hB, Nat.cast_one, mul_one] at hdvd
          obtain ⟨hlow, hhigh, hsmall⟩ := castInt_abs_le f
          have hf : f ≤ md.elmt_size := by
            rw [hok.elmt_size, hsplit, sum_append_nat, sum_cons]
            omega
          have hbound : md.elmt_size * md.block_size < 2 ^ 63 :=
            lt_of_le_of_lt (mul_le_mul_left _ (le_of_lt hlt)) hbytes
          have hdiff :
            0 ≤ md.elmt_size - castInt f ∧ md.elmt_size - castInt f ≤ 2 * md.elmt_size := by omega
          have hlt64 : (md.elmt_size - castInt f) * md.block_size < 2 ^ 64 := by
            have hmul := mul_le_mul_of_nonneg_right hdiff.2 (Int.natCast_nonneg md.block_size)
            zify at hbound
            linarith
          have hzero :=
            Int.eq_zero_of_dvd_of_nonneg_of_lt (mul_nonneg hdiff.1 (by omega)) hlt64 hdvd
          have heq := (mul_eq_zero.mp hzero).resolve_right (by omega)
          exact .inr ⟨(hok.elmt_size_eq_iff hsplit).mp (by omega), hsmall (by omega)⟩
    · rintro ⟨hint, hblocks⟩ index hindex
      refine ⟨isInt_mul_of_le hint ?_, ?_⟩
      · have hmod := mod_lt index hB
        have hle := mod_le index md.block_size
        omega
      · obtain hle | ⟨hsingle, hf⟩ := hblocks
        · rw [div_eq_of_lt (lt_of_lt_of_le hindex hle), Nat.cast_zero, mul_zero]
          exact dvd_zero _
        · rw [(hok.elmt_size_eq_iff hsplit).mpr hsingle, castInt_of_isInt (by unfold IsInt; omega),
            sub_self, zero_mul, zero_mul]
          exact dvd_zero _

end Strided

/-- Three elements with two fields, in one block of four. -/
theorem strided_agrees_three : ((createInstance 3 4 0 [4, 8]).offset 2 4 1).map
    (createInstance 3 4 0 [4, 8]).address = some (BitVec.ofNat 64 (16 + 2 * 8)) :=
  (@strided_agrees_iff (createInstance 3 4 0 [4, 8]) [4] [] 8 0 ⟨rfl, by decide, by decide⟩ rfl
    (by decide) 16 8 (by decide) 3 (by decide)).mpr (.inr ⟨by decide, .inl (by decide)⟩) 2
    (by decide)

/-- Three elements with two fields, in blocks of two: the third one is in the second block. -/
theorem not_strided_agrees :
    ¬ ∀ (num_elements block_size : Nat) (fields : List Nat) (field_offset base stride : Nat),
    (∀ f ∈ fields, 0 < f) → 1 ≤ block_size → InField fields field_offset 1 →
    (createInstance num_elements block_size 0 fields).getStridedParameters 0 field_offset =
    some (base, stride) →
    ∀ index < num_elements,
    ((createInstance num_elements block_size 0 fields).offset index field_offset 1).map
      (createInstance num_elements block_size 0 fields).address =
      some (BitVec.ofNat 64 (base + index * stride)) := by
  intro hclaim
  have hthird := hclaim 3 2 [1, 2] 0 0 1 (by decide) (by decide)
    ⟨[], 1, [2], 0, rfl, rfl, by decide, by decide⟩ (by decide) 2 (by decide)
  exact absurd hthird (by decide)

end CharmRuntime.Legion.RegionInstance
