import CharmRuntime.Lib.RingBuffer
import Mathlib.Data.List.Infix

/-!
# Util.CkQ

`CkQ`: **a queue in a block whose length is a power of two**, so that an index goes round by a mask.
Elements are inserted and removed anywhere, and the block is doubled when it is full.

Lengths are `int`s, so a block has at most 2 ^ 30 elements: where it would have to be longer, `1 <<
size` or `blklen << 1` is no `int` any more (`none`). `T()` is `default`.
-/

namespace CharmRuntime.Util

open Lib.RingBuffer Function List Nat

structure CkQ (T : Type) where
  block : Nat → T
  blklen : Nat
  first : Nat
  len : Nat
  mask : Nat

namespace CkQ

variable {T : Type}

/-- `CkQ()`. -/
def empty [Inhabited T] :
    CkQ T := { block := fun _ => default, blklen := 0, first := 0, len := 0, mask := 0 }

/-- The loop of `CkQ(int sz)`. -/
def sizeFor (sz : Int) : Nat → Nat → Nat → Option (Nat × Nat)
  | 0, _, _ => none
  | fuel + 1, mask, size =>
    if 31 ≤ size then none
    else if (2 ^ size : Nat) < sz then sizeFor sz fuel (mask ||| 2 ^ size) (size + 1)
    else some (mask, size)

/-- `CkQ(int sz)`. -/
def ofSize [Inhabited T] (sz : Int) : Option (CkQ T) := do
  let (mask, size) ← sizeFor sz 30 0x03 2
  some { block := fun _ => default, blklen := 2 ^ size, first := 0, len := 0, mask }

/-- `_expand`. -/
def expand [Inhabited T] (q : CkQ T) : Option (CkQ T) :=
  let newlen := if q.blklen = 0 then 16 else q.blklen * 2
  let newblk := fun i =>
    if i < q.blklen - q.first then q.block (q.first + i)
    else if i < q.blklen then q.block (i - (q.blklen - q.first))
    else default
  if newlen < 2 ^ 31 then
    let mask := if q.blklen = 0 then 0x0f else q.mask ||| q.blklen
    some { q with block := newblk, blklen := newlen, first := 0, mask }
  else none

/-- `operator[]` reads this slot. -/
def slot (q : CkQ T) (n : Nat) : Nat := (n + q.first) &&& q.mask

def deq [Inhabited T] (q : CkQ T) : T × CkQ T :=
  if q.len > 0 then
    (q.block q.first, { q with first := (q.first + 1) &&& q.mask, len := q.len - 1 }) else
      (default, q)

def enq [Inhabited T] (q : CkQ T) (elt : T) : Option (CkQ T) := do
  let q ← (if q.len = q.blklen then q.expand else some q)
  some { q with block := update q.block ((q.first + q.len) &&& q.mask) elt, len := q.len + 1 }

def push [Inhabited T] (q : CkQ T) (elt : T) : Option (CkQ T) := do
  let q ← (if q.len = q.blklen then q.expand else some q)
  let first := (q.first + q.blklen - 1) &&& q.mask
  some { q with block := update q.block first elt, first, len := q.len + 1 }

/-- The first loop of `insert`. -/
def expandFor [Inhabited T] (pos : Nat) : Nat → CkQ T → Option (CkQ T)
  | 0, _ => none
  | fuel + 1, q =>
    if q.len = q.blklen ∨ pos ≥ q.blklen then do
      let q ← q.expand
      expandFor pos fuel q
    else some q

/-- The second loop of `insert`, from `i` down. -/
def shiftUp (q : CkQ T) (pos : Nat) : Nat → (Nat → T) → (Nat → T)
  | 0, block => block
  | i + 1, block =>
    if i + 1 > pos then q.shiftUp pos i (update block (q.slot (i + 1)) (block (q.slot i))) else
      block

def insert [Inhabited T] (q : CkQ T) (pos : Nat) (elt : T) : Option (CkQ T) := do
  let q ← q.expandFor pos 32
  let block := q.shiftUp pos q.len q.block
  some { q with block := update block (q.slot pos) elt,
                len := if pos > q.len then pos + 1 else q.len + 1 }

/-- The loop of `remove`, `n` times from `i` on. -/
def shiftDown (q : CkQ T) : Nat → Nat → (Nat → T) → (Nat → T)
  | 0, _, block => block
  | n + 1, i, block => q.shiftDown n (i + 1) (update block (q.slot i) (block (q.slot (i + 1))))

/-- `remove`. What it returns is none for `T(0)`. -/
def remove (q : CkQ T) (pos : Nat) : Option T × CkQ T :=
  if pos ≥ q.len then (none, q)
  else (some (q.block (q.slot pos)),
    { q with block := q.shiftDown (q.len - 1 - pos) pos q.block, len := q.len - 1 })

/-- `removeFrom`, with its assertion. -/
def removeFrom (q : CkQ T) (pos : Nat) :
    Option (CkQ T) := if pos < q.len then some { q with len := pos } else none

/-- The loop of `getArray`. -/
def arrayFrom (q : CkQ T) : Nat → Nat → List T
  | 0, _ => []
  | n + 1, j => q.block j :: q.arrayFrom n ((j + 1) &&& q.mask)

def getArray (q : CkQ T) : List T := q.arrayFrom q.len q.first

/-- `(*this)[0..length-1]`. -/
def elements (q : CkQ T) : List T := (List.range q.len).map fun n => q.block (q.slot n)

/-- `pupCkQ` that packs: the length and the elements. -/
def pack (q : CkQ T) : Nat × List T := (q.len, q.elements)

/-- `pupCkQ` that unpacks. -/
def unpack [Inhabited T] (q : CkQ T) (packed : Nat × List T) :
    Option (CkQ T) := (packed.2.take packed.1).foldlM enq q

/-! ### The list -/

/-- The queue is this list. -/
structure Holds (q : CkQ T) (l : List T) : Prop where
  pow : q.blklen = 0 ∨ ∃ k ≤ 30, q.blklen = 2 ^ k
  mask : q.mask = q.blklen - 1
  first : q.first ≤ q.mask
  room : q.len ≤ q.blklen
  list : contents q.blklen q.block q.first q.len = l

/-- The same in the words of the code. -/
def IsList (q : CkQ T) (l : List T) : Prop :=
  (q.blklen = 0 ∨ ∃ k, q.blklen = 2 ^ k) ∧ q.mask = q.blklen - 1 ∧ q.elements = l ∧ q.getArray = l

variable {q : CkQ T} {l : List T}

theorem Holds.len (h : q.Holds l) : q.len = l.length := by
  rw [← h.list, length_contents]

theorem Holds.and_mask (h : q.Holds l) (hpos : 0 < q.blklen) (i : Nat) :
    i &&& q.mask = i % q.blklen := by
  obtain h0 | ⟨k, -, hk⟩ := h.pow
  · omega
  · rw [h.mask, hk, and_two_pow_sub_one_eq_mod]

theorem Holds.slot_eq (h : q.Holds l) (hpos : 0 < q.blklen) (i : Nat) :
    q.slot i = (q.first + i) % q.blklen := by
  rw [slot, h.and_mask hpos, add_comm]

theorem Holds.first_lt (h : q.Holds l) (hpos : 0 < q.blklen) : q.first < q.blklen := by
  have hfirst := h.first
  have hmask := h.mask
  omega

theorem Holds.get (h : q.Holds l) {i : Nat} (hi : i < q.len) :
    l[i]? = some (q.block (q.slot i)) := by
  rw [← h.list, getElem?_contents hi, h.slot_eq (zero_lt_of_lt (hi.trans_le h.room))]

theorem Holds.slot_ne (h : q.Holds l) {i j : Nat} (hi : i < q.blklen) (hj : j < q.blklen)
    (hij : i ≠ j) :
    q.slot i ≠ q.slot j := fun heq => by
  rw [h.slot_eq (zero_lt_of_lt hi), h.slot_eq (zero_lt_of_lt hi)] at heq
  exact hij (slot_inj hi hj heq)

theorem mask_or {k : Nat} : (2 ^ k - 1) ||| 2 ^ k = 2 ^ (k + 1) - 1 := by
  have hadd :=
    two_pow_add_eq_or_of_lt (show 2 ^ k - 1 < 2 ^ k from sub_lt (Nat.two_pow_pos k) one_pos) 1
  rw [mul_one] at hadd
  rw [Nat.or_comm, ← hadd]
  omega

theorem Holds.take (h : q.Holds l) {pos : Nat} (hpos : pos < q.len) :
    ∃ q', q.removeFrom pos = some q' ∧ q'.Holds (l.take pos) := by
  refine ⟨{ q with len := pos }, if_pos hpos, h.pow, h.mask, h.first, hpos.le.trans h.room, ?_⟩
  rw [← h.list, contents, contents, ← map_take, take_range, min_eq_left hpos.le]

/-- The elements from `pos` to `i` move up. -/
theorem shiftUp_apply (h : q.Holds l) (pos i : Nat) (block : Nat → T) (hi : i < q.blklen) (j : Nat)
    (hj : j < q.blklen) :
    q.shiftUp pos i block (q.slot j) = if pos < j ∧
    j ≤ i then block (q.slot (j - 1)) else block (q.slot j) := by
  induction i generalizing block with
  | zero => rw [shiftUp, if_neg (by omega)]
  | succ i ih =>
    rw [shiftUp]
    split_ifs with h1 h2 h2
    · rw [ih _ (by omega)]
      rcases lt_or_ge i j with hij | hij
      · obtain rfl : j = i + 1 := by omega
        rw [if_neg (by omega), update_self]
        rfl
      · rw [if_pos ⟨h2.1, hij⟩, update_of_ne (h.slot_ne (by omega) hi (by omega))]
    · rw [ih _ (by omega), if_neg (by omega), update_of_ne (h.slot_ne hj hi (by omega))]
    · omega
    · rfl

/-- The elements behind `i` move down. -/
theorem shiftDown_apply (h : q.Holds l) (n i : Nat) (block : Nat → T)
    (hi : i + n < q.blklen) (j : Nat)
    (hj : j < q.blklen) :
    q.shiftDown n i block (q.slot j) = if i ≤ j ∧
    j < i + n then block (q.slot (j + 1)) else block (q.slot j) := by
  induction n generalizing i block with
  | zero => rw [shiftDown, if_neg (by omega)]
  | succ n ih =>
    rw [shiftDown, ih (i + 1) _ (by omega)]
    rcases lt_trichotomy j i with hij | rfl | hij
    · rw [if_neg (by omega), if_neg (by omega), update_of_ne (h.slot_ne hj (by omega) (by omega))]
    · rw [if_neg (by omega), if_pos (by omega), update_self]
    · split_ifs with h1 h2 h2
      · rw [update_of_ne (h.slot_ne (by omega) (by omega) (by omega))]
      · omega
      · omega
      · rw [update_of_ne (h.slot_ne hj (by omega) (by omega))]

theorem Holds.eraseIdx (h : q.Holds l) {pos : Nat} (hpos : pos < q.len) :
    (q.remove pos).1 = l[pos]? ∧ (q.remove pos).2.Holds (l.eraseIdx pos) := by
  have hroom := h.room
  have hlen : 0 < q.blklen := by omega
  rw [remove, if_neg (by omega)]
  refine ⟨(h.get hpos).symm, h.pow, h.mask, h.first, (sub_le _ _).trans hroom,
    ext_getElem? fun i => ?_⟩
  rcases lt_or_ge i (q.len - 1) with hi | hi
  · have hslot := shiftDown_apply h (q.len - 1 - pos) pos q.block (by omega) i (by omega)
    rw [h.slot_eq hlen i] at hslot
    rw [getElem?_contents hi, getElem?_eraseIdx]
    refine (congrArg some hslot).trans ?_
    split_ifs with h1 h2 h2
    · omega
    · rw [h.get (by omega)]
    · rw [h.get (by omega), h.slot_eq hlen]
    · omega
  · rw [getElem?_eq_none (by rw [length_contents]; exact hi), getElem?_eq_none]
    rw [length_eraseIdx, ← h.len, if_pos hpos]
    exact hi

theorem Holds.isList (h : q.Holds l) : q.IsList l := by
  refine ⟨h.pow.imp_right fun ⟨k, _, hk⟩ => ⟨k, hk⟩, h.mask, ?_⟩
  rcases Nat.eq_zero_or_pos q.blklen with h0 | hpos
  · have hlen : q.len = 0 := by have := h.room; omega
    have hl : l = [] := length_eq_zero_iff.mp (by rw [← h.len, hlen])
    rw [elements, getArray, hlen, hl]
    exact ⟨rfl, rfl⟩
  have hfrom :
    ∀ n i, q.arrayFrom n ((q.first + i) % q.blklen) = contents q.blklen q.block (q.first + i) n :=
    fun n => by
    induction n with
    | zero => exact fun i => rfl
    | succ n ih =>
      intro i
      rw [arrayFrom, h.and_mask hpos, mod_add_mod, add_assoc, ih, contents_succ]
      rfl
  have harray := hfrom q.len 0
  rw [add_zero, mod_eq_of_lt (h.first_lt hpos), h.list] at harray
  refine ⟨?_, harray⟩
  rw [← h.list]
  exact map_congr_left fun i _ => by rw [h.slot_eq hpos]

variable [Inhabited T]

theorem Holds.tail (h : q.Holds l) : q.deq.1 = l.headD default ∧ q.deq.2.Holds l.tail := by
  have hroom := h.room
  rcases Nat.eq_zero_or_pos q.len with h0 | hlen
  · obtain rfl := length_eq_zero_iff.mp (h.len.symm.trans h0)
    rw [deq, if_neg (by omega)]
    exact ⟨rfl, h⟩
  have hpos : 0 < q.blklen := by omega
  have hl : l = q.block q.first :: contents q.blklen q.block (q.first + 1) (q.len - 1) := by
    rw [← h.list, show q.len = q.len - 1 + 1 by omega, contents_succ,
      mod_eq_of_lt (h.first_lt hpos)]
    rfl
  rw [deq, if_pos hlen, hl]
  refine ⟨rfl, h.pow, h.mask, and_le_right, (sub_le _ _).trans hroom, ?_⟩
  rw [h.and_mask hpos, contents_mod]
  rfl

/-- **The block is doubled.** -/
theorem Holds.expand (h : q.Holds l) (hlt : q.blklen < 2 ^ 30) :
    ∃ q', q.expand = some q' ∧ q'.Holds l ∧ q.blklen < q'.blklen := by
  rw [CkQ.expand]
  obtain h0 | ⟨k, hk, hblklen⟩ := h.pow
  · have hlen : q.len = 0 := by have := h.room; omega
    have hl : l = [] := length_eq_zero_iff.mp (by rw [← h.len, hlen])
    simp only [if_pos h0]
    rw [hl]
    exact ⟨_, rfl,
      ⟨.inr ⟨4, by decide, rfl⟩, rfl,
      zero_le _, by simp [hlen], by simp [hlen, contents]⟩, by simp [h0]⟩
  have hpos : 0 < q.blklen := hblklen ▸ Nat.two_pow_pos k
  have hk' : k < 30 := (Nat.pow_lt_pow_iff_right (by decide)).mp (hblklen ▸ hlt)
  simp only [if_neg hpos.ne']
  rw [if_pos (by omega)]
  refine ⟨_, rfl, ⟨.inr ⟨k + 1, hk', ?_⟩, ?_, zero_le _, h.room.trans (by dsimp only; omega), ?_⟩,
    by dsimp only; omega⟩
  · rw [hblklen, pow_succ]
  · rw [h.mask, hblklen, mask_or, pow_succ]
  · rw [← h.list]
    refine contents_unroll (h.first_lt hpos) h.room (by dsimp only; omega) fun i hi => ?_
    dsimp only
    rw [if_pos hi]

theorem Holds.ensure (h : q.Holds l) (hfit : l.length < 2 ^ 30) :
    ∃ q', (if q.len = q.blklen then q.expand else some q) = some q' ∧ q'.Holds l ∧
    q'.len < q'.blklen := by
  have hlen := h.len
  have hroom := h.room
  split_ifs with hfull
  · obtain ⟨q', hq', h', hlt⟩ := h.expand (by omega)
    exact ⟨q', hq', h', by rw [h'.len]; omega⟩
  · exact ⟨q, rfl, h, by omega⟩

theorem Holds.append (h : q.Holds l) (hfit : l.length < 2 ^ 30) (elt : T) :
    ∃ q', q.enq elt = some q' ∧ q'.Holds (l ++ [elt]) := by
  obtain ⟨q', hq', h', hlt⟩ := h.ensure hfit
  rw [enq, hq']
  refine ⟨_, rfl, h'.pow, h'.mask, h'.first, hlt, ?_⟩
  rw [← h'.list, h'.and_mask (zero_lt_of_lt hlt)]
  exact contents_append hlt elt

theorem Holds.prepend (h : q.Holds l) (hfit : l.length < 2 ^ 30) (elt : T) :
    ∃ q', q.push elt = some q' ∧ q'.Holds (elt :: l) := by
  obtain ⟨q', hq', h', hlt⟩ := h.ensure hfit
  have hpos := zero_lt_of_lt hlt
  rw [push, hq']
  refine ⟨_, rfl, h'.pow, h'.mask, and_le_right, hlt, ?_⟩
  rw [← h'.list, h'.and_mask hpos]
  refine contents_prepend hlt (mod_lt _ hpos) ?_ elt
  rw [mod_add_mod, show q'.first + q'.blklen - 1 + 1 = q'.first + q'.blklen by omega, add_mod_right]

theorem Holds.insertIdx (h : q.Holds l) {pos : Nat} (hpos : pos ≤ l.length)
    (hfit : l.length < 2 ^ 30) (elt : T) :
    ∃ q', q.insert pos elt = some q' ∧ q'.Holds (l.insertIdx pos elt) := by
  -- a full ring grows first, and then has room
  obtain ⟨q', hq', h', hlt⟩ :
    ∃ q', q.expandFor pos 32 = some q' ∧ q'.Holds l ∧ q'.len < q'.blklen := by
    have hlen := h.len
    have hroom := h.room
    by_cases hfull : q.len = q.blklen
    · obtain ⟨q', hq', h', hlt⟩ := h.expand (by omega)
      have hlen' := h'.len
      refine ⟨q', ?_, h', by omega⟩
      rw [expandFor, if_pos (.inl hfull), hq']
      exact if_neg (by omega)
    · exact ⟨q, if_neg (by omega), h, by omega⟩
  have hlen := h'.len
  have hblk := zero_lt_of_lt hlt
  rw [insert, hq']
  refine ⟨_, rfl, h'.pow, h'.mask, h'.first, by rw [if_neg (by omega)]; exact hlt,
    ext_getElem? fun i => ?_⟩
  dsimp only
  rw [if_neg (by omega)]
  rcases lt_or_ge i (q'.len + 1) with hi | hi
  · have hslot := shiftUp_apply h' pos q'.len q'.block hlt i (by omega)
    rw [getElem?_contents hi, ← h'.slot_eq hblk, getElem?_insertIdx]
    rcases lt_trichotomy i pos with hij | rfl | hij
    · rw [update_of_ne (h'.slot_ne (by omega) (by omega) (by omega)), hslot,
        if_neg (by omega), if_pos hij, h'.get (by omega)]
    · rw [update_self, if_neg (by omega), if_pos rfl, if_pos hpos]
    · rw [update_of_ne (h'.slot_ne (by omega) (by omega) (by omega)), hslot, if_pos (by omega),
        if_neg (by omega), if_neg (by omega), h'.get (by omega)]
  · rw [getElem?_eq_none (by rw [length_contents]; exact hi), getElem?_eq_none]
    rw [length_insertIdx_of_le_length hpos]
    omega

theorem sizeFor_spec (sz : Int) (hsz : sz ≤ 2 ^ 30) (fuel size : Nat) (hsize : size ≤ 30)
    (hfuel : 30 < size + fuel) :
    ∃ k ≤ 30, sizeFor sz fuel (2 ^ size - 1) size = some (2 ^ k - 1, k) := by
  induction fuel generalizing size with
  | zero => omega
  | succ fuel ih =>
    rw [sizeFor, if_neg (by omega)]
    split_ifs with h
    · rw [mask_or]
      refine ih (size + 1) ?_ (by omega)
      by_contra hlast
      obtain rfl : size = 30 := by omega
      exact absurd (hsz.trans_lt' h) (by decide)
    · exact ⟨size, hsize, rfl⟩

/-! ### Runs -/

/-- What is done with a queue. -/
inductive Op (T : Type)
  | enq (elt : T)
  | push (elt : T)
  | deq
  | insert (pos : Nat) (elt : T)
  | remove (pos : Nat)
  | removeFrom (pos : Nat)

/-- A queue from one of the constructors. -/
def make : Option Int → Option (CkQ T)
  | none => some empty
  | some sz => ofSize sz

def apply (q : CkQ T) : Op T → Option (CkQ T)
  | .enq elt => q.enq elt
  | .push elt => q.push elt
  | .deq => some q.deq.2
  | .insert pos elt => q.insert pos elt
  | .remove pos => some (q.remove pos).2
  | .removeFrom pos => q.removeFrom pos

def run (sz : Option Int) (ops : List (Op T)) : Option (CkQ T) := do ops.foldlM apply (← make sz)

omit [Inhabited T]

/-- The same with a list. -/
def Op.onList (l : List T) : Op T → List T
  | .enq elt => l ++ [elt]
  | .push elt => elt :: l
  | .deq => l.tail
  | .insert pos elt => l.insertIdx pos elt
  | .remove pos => l.eraseIdx pos
  | .removeFrom pos => l.take pos

def listRun (ops : List (Op T)) : List T := ops.foldl Op.onList []

def Op.InRange (l : List T) : Op T → Prop
  | .insert pos _ => pos ≤ l.length
  | .remove pos | .removeFrom pos => pos < l.length
  | _ => True

instance (l : List T) : (op : Op T) → Decidable (op.InRange l)
  | .insert pos _ => inferInstanceAs (Decidable (pos ≤ l.length))
  | .remove pos | .removeFrom pos => inferInstanceAs (Decidable (pos < l.length))
  | .enq _ | .push _ | .deq => inferInstanceAs (Decidable True)

/-- Positions are positions in the list that the operations before have left. -/
def InRange (ops : List (Op T)) :
    Prop := ∀ before op, before ++ [op] <+: ops → op.InRange (listRun before)

/-- There are never more than 2 ^ 30 elements. -/
def Small (sz : Option Int) (ops : List (Op T)) : Prop :=
  (∀ n ∈ sz, n ≤ 2 ^ 30) ∧ ∀ before, before <+: ops → (listRun before).length ≤ 2 ^ 30

variable [Inhabited T]

theorem make_holds {sz : Option Int} (hsz : ∀ n ∈ sz, n ≤ 2 ^ 30) :
    ∃ q : CkQ T, make sz = some q ∧ q.Holds [] := by
  cases sz with
  | none => exact ⟨_, rfl, .inl rfl, rfl, le_refl _, le_refl _, rfl⟩
  | some sz =>
    obtain ⟨k, hk, hsize⟩ : ∃ k ≤ 30, sizeFor sz 30 3 2 = some (2 ^ k - 1, k) :=
      sizeFor_spec sz (hsz sz rfl) 30 2 (by decide) (by decide)
    rw [make, ofSize, hsize]
    exact ⟨_, rfl, .inr ⟨k, hk, rfl⟩, rfl, zero_le _, zero_le _, rfl⟩

/-- **One operation.** -/
theorem Holds.apply (h : q.Holds l) {op : Op T} (hin : op.InRange l)
    (hfit : (op.onList l).length ≤ 2 ^ 30) :
    ∃ q', q.apply op = some q' ∧ q'.Holds (op.onList l) := by
  cases op with
  | enq elt =>
    rw [Op.onList, length_append] at hfit
    exact h.append hfit elt
  | push elt => exact h.prepend hfit elt
  | deq => exact ⟨_, rfl, h.tail.2⟩
  | insert pos elt =>
    rw [Op.onList, length_insertIdx_of_le_length hin] at hfit
    exact h.insertIdx hin hfit elt
  | remove pos => exact ⟨_, rfl, (h.eraseIdx (h.len ▸ hin)).2⟩
  | removeFrom pos => exact h.take (h.len ▸ hin)

theorem run_holds {sz : Option Int} {ops : List (Op T)} (hin : InRange ops)
    (hsmall : Small sz ops) :
    ∃ q, run sz ops = some q ∧ q.Holds (listRun ops) := by
  induction ops using reverseRecOn with
  | nil =>
    obtain ⟨q, hq, h⟩ := make_holds (T := T) hsmall.1
    exact ⟨q, by rw [run, hq]; rfl, h⟩
  | append_singleton ops op ih =>
    obtain ⟨q, hq, h⟩ := ih (fun before op' hpre => hin before op' (hpre.trans (prefix_append _ _)))
      ⟨hsmall.1, fun before hpre => hsmall.2 before (hpre.trans (prefix_append _ _))⟩
    have hfit := hsmall.2 _ (prefix_refl _)
    rw [listRun, foldl_append] at hfit ⊢
    obtain ⟨q', hq', h'⟩ := h.apply (hin ops op (prefix_refl _)) hfit
    refine ⟨q', ?_, h'⟩
    obtain ⟨q₀, hmake, hrun⟩ := Option.bind_eq_some_iff.mp hq
    rw [run, hmake]
    change (ops ++ [op]).foldlM apply q₀ = some q'
    rw [foldlM_append, hrun]
    change [op].foldlM apply q = some q'
    rw [foldlM_cons, hq']
    rfl

/-- **Unpacking** appends the elements. -/
theorem Holds.unpack (h : q.Holds l) (elts : List T) (hfit : l.length + elts.length ≤ 2 ^ 30) :
    ∃ q', q.unpack (elts.length, elts) = some q' ∧ q'.Holds (l ++ elts) := by
  rw [CkQ.unpack, take_length]
  induction elts generalizing q l with
  | nil => exact ⟨q, rfl, by rwa [append_nil]⟩
  | cons x elts ih =>
    rw [length_cons] at hfit
    obtain ⟨q', hq', h'⟩ := h.append (by omega) x
    obtain ⟨q'', hq'', h''⟩ := ih h' (by exact (by simp; omega))
    rw [append_assoc] at h''
    exact ⟨q'', by rw [foldlM_cons, hq']; exact hq'', h''⟩

/-- **The queue is the list**, and so is what is unpacked into an empty one. -/
theorem ckQ_refines_list {sz : Option Int} {ops : List (Op T)} (hin : InRange ops)
    (hsmall : Small sz ops) :
    ∃ q, run sz ops = some q ∧ q.IsList (listRun ops) ∧
      ∀ (sz₀ : Option Int) (ops₀ : List (Op T)), InRange ops₀ → Small sz₀ ops₀ → listRun ops₀ = [] →
        ∃ q₀ q', run sz₀ ops₀ = some q₀ ∧ q₀.unpack q.pack = some q' ∧ q'.IsList (listRun ops) := by
  obtain ⟨q, hq, h⟩ := run_holds hin hsmall
  refine ⟨q, hq, h.isList, fun sz₀ ops₀ hin₀ hsmall₀ hnil => ?_⟩
  obtain ⟨q₀, hq₀, h₀⟩ := run_holds hin₀ hsmall₀
  rw [hnil] at h₀
  obtain ⟨q', hq', h'⟩ :=
    h₀.unpack (listRun ops) (by rw [length_nil, zero_add]; exact hsmall.2 _ (prefix_refl _))
  refine ⟨q₀, q', hq₀, ?_, h'.isList⟩
  rw [pack, h.isList.2.2.1, h.len, hq']

/-- Four slots are full with the last element in slot 0; the first `push` doubles them. -/
def wrapOps : List (Op Nat) :=
  [.enq 1, .enq 2, .deq, .enq 3, .enq 4, .enq 5, .push 6, .insert 2 7, .remove 3, .push 8,
  .removeFrom 5]

theorem ckQ_refines_list_wrapOps : ∃ q, run (some 3) wrapOps = some q ∧ q.IsList [8, 6, 2, 7, 4] ∧
    ∀ (sz₀ : Option Int) (ops₀ : List (Op Nat)), InRange ops₀ → Small sz₀ ops₀ → listRun ops₀ = [] →
      ∃ q₀ q', run sz₀ ops₀ = some q₀ ∧ q₀.unpack q.pack = some q' ∧ q'.IsList [8, 6, 2, 7, 4] := by
  have hin : ∀ l ∈ inits wrapOps, ∀ op ∈ l.getLast?, op.InRange (listRun l.dropLast) := by decide
  have hfit : ∀ before ∈ inits wrapOps, (listRun before).length ≤ 2 ^ 30 := by decide
  refine ckQ_refines_list (fun before op h => ?_)
    ⟨by simp, fun before h => hfit before ((mem_inits _ _).mpr h)⟩
  have hlast := hin _ ((mem_inits _ _).mpr h) op (by rw [getLast?_concat]; rfl)
  rwa [dropLast_concat] at hlast

/-- No `int` is a power of two that is more than 2 ^ 30. -/
theorem not_ckQ_refines_list : ¬ ∀ (sz : Option Int) (ops : List (Op Nat)), InRange ops →
    ∃ q, run sz ops = some q ∧ q.IsList (listRun ops) := by
  intro hall
  obtain ⟨q, hq, -⟩ := hall (some (2 ^ 30 + 1)) [] fun before op h => by simp at h
  have hnone : run (T := Nat) (some (2 ^ 30 + 1)) [] = none := by rfl
  exact absurd (hnone.symm.trans hq) nofun

end CkQ

end CharmRuntime.Util
