import CharmRuntime.Isomalloc.NodeRing

/-!
# Isomalloc.BlockListSound

What the **memory of a block list** looks like after any calls (`Inv`): where the
blocks are, that their slots are apart and out of the free set, their headers, and the
ring of their links. A block is moved inside its slots exactly when it was asked for an
alignment above 32 (`Placed`).
-/

namespace CharmRuntime.Isomalloc

open Lib List Option

/-! ### Addresses -/

namespace Layout

variable (L : Layout)

theorem slot2addr_add (s n : Int) : L.slot2addr (s + n) = L.slot2addr s + L.slotsize * n := by
  unfold slot2addr
  rw [Int.mul_add]
  omega

theorem slot2addr_le {s t : Int} (h : s ≤ t) : L.slot2addr s ≤ L.slot2addr t := by
  have hmul := Int.mul_le_mul_of_nonneg_left h (le_of_lt L.slotsize_pos)
  unfold slot2addr
  omega

theorem le_slotsize_mul (nBytes : Int) : 16 + nBytes ≤ L.slotsize * L.length2slots nBytes := by
  have hpos := L.slotsize_pos
  have hdiv := Int.mul_ediv_add_emod (16 + nBytes + L.slotsize - 1) L.slotsize
  have hmod := Int.emod_lt_of_pos (16 + nBytes + L.slotsize - 1) hpos
  unfold length2slots
  omega

theorem length2slots_pos {nBytes : Int} (h : 0 ≤ nBytes) : 1 ≤ L.length2slots nBytes := by
  have hle := L.le_slotsize_mul nBytes
  by_contra hlt
  have hmul := Int.mul_le_mul_of_nonneg_left (show L.length2slots nBytes ≤ 0 by omega)
    (le_of_lt L.slotsize_pos)
  omega

theorem slot2addr_page (s : Int) : (64 : Int) ∣ L.slot2addr s :=
  Int.dvd_add L.start_page (Int.dvd_mul_of_dvd_left L.slotsize_page)

end Layout

/-! ### Alignments -/

theorem doubleUpTo_eq : ∀ (fuel a align : Nat), ∃ k, doubleUpTo fuel a align = a * 2 ^ k ∧
    (a < align → 0 < fuel → 1 ≤ k) := by
  intro fuel
  induction fuel with
  | zero =>
    intro a align
    exact ⟨0, by simp [doubleUpTo], fun _ h => absurd h (by decide)⟩
  | succ fuel ih =>
    intro a align
    rw [doubleUpTo]
    by_cases hlt : a < align
    · obtain ⟨k, hk, -⟩ := ih (2 * a) align
      refine ⟨k + 1, ?_, fun _ _ => by omega⟩
      rw [if_pos hlt, hk, Nat.pow_succ]
      ac_rfl
    · exact ⟨0, by simp [hlt], fun h => absurd h hlt⟩

variable {align : Nat} {b : Live} {s : Int} {nBytes : Nat} {L : Layout} {live : List Live}
  {st : ListState}

theorem effectiveAlign_eq (h : 16 ≤ align) :
    effectiveAlign align =
      if align &&& (align - 1) ≠ 0 then doubleUpTo align 32 align else align := by
  have hmin : (if align < 16 then 16 else align) = align := if_neg (by omega)
  simp only [effectiveAlign, hmin]

theorem effectiveAlign_of_le (h : align ≤ 32) :
    effectiveAlign align = 16 ∨ effectiveAlign align = 32 := by
  have hall : ∀ a : Fin 33, effectiveAlign a = 16 ∨ effectiveAlign a = 32 := by decide
  exact hall ⟨align, by omega⟩

theorem effectiveAlign_of_gt (h : 32 < align) : 64 ∣ effectiveAlign align := by
  rw [effectiveAlign_eq (by omega)]
  split
  · obtain ⟨k, hk, hpos⟩ := doubleUpTo_eq align 32 align
    obtain ⟨j, rfl⟩ : ∃ j, k = j + 1 := ⟨k - 1, by have := hpos h (by omega); omega⟩
    exact ⟨2 ^ j, by omega⟩
  · next hpow =>
      have hpow' : align.isPowerOfTwo :=
        (Nat.and_sub_one_eq_zero_iff_isPowerOfTwo (by omega)).mp (not_not.mp hpow)
      obtain ⟨k, rfl⟩ := hpow'
      have hk : 6 ≤ k := by
        by_contra hlt
        have := Nat.pow_le_pow_right (show 0 < 2 by decide) (show k ≤ 5 by omega)
        omega
      obtain ⟨j, rfl⟩ : ∃ j, k = j + 6 := ⟨k - 6, by omega⟩
      rw [Nat.pow_add]
      exact ⟨2 ^ j, Nat.mul_comm _ _⟩

theorem effectiveAlign_pos (align : Nat) : 0 < effectiveAlign align := by
  by_cases h : align ≤ 32
  · rcases effectiveAlign_of_le h with h | h <;> omega
  · rw [effectiveAlign_eq (by omega)]
    split
    · obtain ⟨k, hk, -⟩ := doubleUpTo_eq align 32 align
      rw [hk]
      exact Nat.mul_pos (by decide) (Nat.pow_pos (by decide))
    · omega

/-- **A block is moved exactly for an alignment above 32.** -/
theorem misaligned_iff (L : Layout) (s : Int) (align : Nat) :
    (block2pointer (L.slot2addr s) + 16) % (effectiveAlign align : Int) ≠ 0 ↔ 32 < align := by
  obtain ⟨c, hc⟩ := L.slot2addr_page s
  have hptr : block2pointer (L.slot2addr s) + 16 = 64 * c + 32 := by
    unfold block2pointer
    omega
  constructor
  · intro hne
    by_contra hle
    rcases effectiveAlign_of_le (show align ≤ 32 by omega) with heq | heq
    · rw [heq] at hne
      omega
    · rw [heq] at hne
      omega
  · intro hlt hzero
    obtain ⟨d, hd⟩ := effectiveAlign_of_gt hlt
    obtain ⟨e, he⟩ := Int.dvd_of_emod_eq_zero hzero
    rw [hd] at he
    push_cast at he
    rw [Int.mul_assoc] at he
    omega

/-! ### Allocation -/

/-- The number of slots of a block. -/
def Live.nslots (L : Layout) (b : Live) : Int := L.length2slots b.length

/-- The first address of a block's slots. -/
def Live.lo (L : Layout) (b : Live) : Int := L.slot2addr b.slot

/-- The address behind a block's slots. -/
def Live.hi (L : Layout) (b : Live) : Int := L.slot2addr (b.slot + b.nslots L)

/-- Where a block is inside its slots. -/
structure Placed (L : Layout) (b : Live) : Prop where
  length_ge : 16 + b.nBytes ≤ b.length
  lo_le : b.lo L + 16 ≤ b.ptr
  user_le : b.ptr + 16 + b.nBytes ≤ b.hi L
  unmoved_iff : b.ptr = b.lo L + 16 ↔ ∀ a, b.align = some a → a ≤ 32

theorem Live.hi_eq (L : Layout) (b : Live) : b.hi L = b.lo L + L.slotsize * b.nslots L :=
  L.slot2addr_add b.slot (b.nslots L)

theorem Live.length_le_hi (L : Layout) (b : Live) : b.lo L + 16 + b.length ≤ b.hi L := by
  have h := L.le_slotsize_mul b.length
  rw [hi_eq]
  unfold nslots
  omega

/-- What an allocation of block `b` makes of the heap. -/
structure Allocated (L : Layout) (h : PeHeap) (b : Live) (h' : PeHeap) : Prop where
  free : ∀ x, b.slot ≤ x → x < b.slot + b.nslots L → x ∈ h.myss.slots
  coalesced : h'.myss.Coalesced
  slots_eq : h'.myss.slots = h.myss.slots \ { x | b.slot ≤ x ∧ x < b.slot + b.nslots L }
  mapped : ∀ x, b.lo L ≤ x → x < b.hi L → (h'.mem x).isSome = true
  header : h'.mem.load8 (b.ptr - 16) = some b.slot ∧ h'.mem.load8 (b.ptr - 16 + 8) = some b.length
  frame : ∀ x, x < b.lo L ∨ b.hi L ≤ x → h'.mem x = h.mem x

/-- **`CmiIsomalloc`.** -/
theorem isomalloc_spec (L : Layout) {h : PeHeap} (hl : h.myss.Coalesced) {size : Int}
    (hsize : 0 ≤ size) (hget : GetSlots h.myss (L.length2slots size) s) (nBytes : Nat)
    (align : Option Nat) :
    ∃ h', isomalloc L s size h = some (L.slot2addr s + 16, h') ∧
      Allocated L h { ptr := L.slot2addr s + 16, slot := s, length := size, nBytes, align } h' := by
  set b : Live := { ptr := L.slot2addr s + 16, slot := s, length := size, nBytes, align }
  obtain ⟨c, hc, hcs, hcn⟩ := hget
  have hn := L.length2slots_pos hsize
  have hfree : ∀ x, s ≤ x → x < s + L.length2slots size → x ∈ h.myss.slots :=
    fun x h1 h2 => ⟨c, hc, by unfold SlotBlock.Covers; omega⟩
  obtain ⟨myss, hgrab, hcoal, hslots⟩ := Blocks.grabSlots_spec hl hn hfree
  have hroom := L.le_slotsize_mul size
  have hhi : b.hi L = L.slot2addr s + L.slotsize * L.length2slots size := Live.hi_eq L b
  have hlo : b.lo L = L.slot2addr s := rfl
  have hmap := AddrSpace.mapped_map h.mem (L.slot2addr s) (L.slotsize * L.length2slots size)
  obtain ⟨m1, heq1, hw1⟩ := AddrSpace.store8_spec s
    (fun x h1 h2 => hmap x (by omega) (by omega) :
      (h.mem.map (L.slot2addr s) (L.slotsize * L.length2slots size)).Mapped (L.slot2addr s) 8)
  obtain ⟨m2, heq2, hw2⟩ := AddrSpace.store8_spec size
    (hw1.mapped (fun x h1 h2 => hmap x (by omega) (by omega)) : m1.Mapped (L.slot2addr s + 8) 8)
  refine ⟨{ mem := m2, myss }, ?_, hfree, hcoal, hslots, ?_, ?_, ?_⟩
  · unfold isomalloc
    simp only [hgrab, Except.toOption, bind_eq_bind, bind_some, heq1, heq2]
    rfl
  · intro x h1 h2
    exact hw2.mapped (hw1.mapped hmap) x h1 (by omega)
  · have hptr : b.ptr - 16 = L.slot2addr s := by
      show L.slot2addr s + 16 - 16 = _
      omega
    rw [hptr]
    refine ⟨?_, hw2.load⟩
    rw [hw2.load8_of_disjoint (.inl (by omega)), hw1.load]
  · intro x _
    show m2 x = h.mem x
    rw [hw2.frame x (by omega), hw1.frame x (by omega), AddrSpace.map_of_not_mem (by omega)]

theorem placed_unmoved (L : Layout) {length : Int} {align : Option Nat}
    (hlen : 16 + nBytes ≤ length) (halign : ∀ a, align = some a → a ≤ 32) :
    Placed L { ptr := L.slot2addr s + 16, slot := s, length, nBytes, align } := by
  set b : Live := { ptr := L.slot2addr s + 16, slot := s, length, nBytes, align }
  have hhi := b.length_le_hi L
  refine ⟨hlen, le_refl _, ?_, ⟨fun _ => halign, fun _ => rfl⟩⟩
  have hlo : b.lo L = L.slot2addr s := rfl
  have hblen : b.length = length := rfl
  show L.slot2addr s + 16 + 16 + nBytes ≤ b.hi L
  omega

theorem roundUp_spec {x a : Int} (ha : 0 < a) (hne : x % a ≠ 0) :
    x < (x + a - 1) / a * a ∧ (x + a - 1) / a * a < x + a := by
  have hdiv := Int.mul_ediv_add_emod (x + a - 1) a
  have hmod := Int.emod_lt_of_pos (x + a - 1) ha
  have hmod0 := Int.emod_nonneg (x + a - 1) (ne_of_gt ha)
  rw [Int.mul_comm] at hdiv
  refine ⟨?_, by omega⟩
  by_contra hle
  have heq : (x + a - 1) / a * a = x := by omega
  exact hne (by rw [← heq, Int.mul_emod_left])

/-- **`_isomallocAlign`**, as the block lists call it. -/
theorem isomallocAlign_spec (L : Layout) {h : PeHeap} (hl : h.myss.Coalesced) (align nBytes : Nat)
    (hget : GetSlots h.myss (L.length2slots (nBytes + 16 + effectiveAlign align)) s) :
    ∃ p h', isomallocAlign L s align nBytes 16 h = some (p, h') ∧
      Placed L { ptr := p, slot := s, length := nBytes + 16 + effectiveAlign align, nBytes
                 align := some align } ∧
      Allocated L h { ptr := p, slot := s, length := nBytes + 16 + effectiveAlign align, nBytes
                      align := some align } h' := by
  have hapos : (0 : Int) < effectiveAlign align := by
    have := effectiveAlign_pos align
    omega
  obtain ⟨h1, heq, halloc⟩ := isomalloc_spec L hl (by omega) hget nBytes (some align)
  unfold isomallocAlign
  simp only [heq, bind_eq_bind, bind_some]
  by_cases hmis : (L.slot2addr s + 16 + 16) % (effectiveAlign align) ≠ 0
  · -- the block moves inside its slots
    have hlt : 32 < align := (misaligned_iff L s align).mp hmis
    rw [if_pos hmis]
    obtain ⟨hr1, hr2⟩ := roundUp_spec hapos hmis
    set p := (L.slot2addr s + 16 + 16 + (effectiveAlign align) - 1) /
      (effectiveAlign align) * (effectiveAlign align) - 16 with hp
    set b0 : Live := { ptr := L.slot2addr s + 16, slot := s
                       length := nBytes + 16 + effectiveAlign align, nBytes, align := some align }
      with hb0
    have hhi := b0.length_le_hi L
    have hlo : b0.lo L = L.slot2addr s := rfl
    have hlen : b0.length = nBytes + 16 + effectiveAlign align := rfl
    obtain ⟨saved, hsaved⟩ := AddrSpace.readBytes_of_mapped (a := L.slot2addr s)
      (n := 16) (fun x hx1 hx2 => halloc.mapped x (by omega) (by omega))
    have hslen := AddrSpace.length_readBytes hsaved
    obtain ⟨m2, heq2, hw⟩ := AddrSpace.writeBytes_spec saved (a := p - 16)
      (fun x hx1 hx2 => halloc.mapped x (by omega) (by omega))
    have hblk : pointer2block (L.slot2addr s + 16) = L.slot2addr s := by
      unfold pointer2block
      omega
    have hblk' : pointer2block p = p - 16 := rfl
    simp only [hblk, hblk', hsaved, heq2, bind_some]
    refine ⟨p, { h1 with mem := m2 }, rfl, ⟨?_, ?_, ?_, ?_⟩,
      ⟨halloc.free, halloc.coalesced, halloc.slots_eq, ?_, ?_, ?_⟩⟩
    · show (16 : Int) + nBytes ≤ nBytes + 16 + effectiveAlign align
      omega
    · show L.slot2addr s + 16 ≤ p
      omega
    · show p + 16 + nBytes ≤ b0.hi L
      omega
    · constructor
      · intro (heq : p = L.slot2addr s + 16)
        omega
      · intro hall
        have := hall align rfl
        omega
    · intro x hx1 hx2
      rw [hw.dom]
      exact halloc.mapped x hx1 hx2
    · have hread := hw.read
      rw [hslen] at hread
      obtain ⟨hfst, hsnd⟩ := AddrSpace.readBytes_parts 8 8 hsaved hread
      have hhead := halloc.header
      have hptr0 : b0.ptr - 16 = L.slot2addr s := by
        show L.slot2addr s + 16 - 16 = _
        omega
      rw [hptr0] at hhead
      refine ⟨?_, ?_⟩
      · show m2.load8 (p - 16) = some s
        rw [AddrSpace.load8, hfst]
        exact hhead.1
      · show m2.load8 (p - 16 + 8) = some b0.length
        rw [AddrSpace.load8]
        have hsnd' : m2.readBytes (p - 16 + 8) 8 = h1.mem.readBytes (L.slot2addr s + 8) 8 := hsnd
        rw [hsnd']
        exact hhead.2
    · intro x hx
      change x < L.slot2addr s ∨ b0.hi L ≤ x at hx
      show m2 x = h.mem x
      rw [hw.frame x (by omega)]
      exact halloc.frame x hx
  · have hle : align ≤ 32 := by
      by_contra hlt
      exact hmis ((misaligned_iff L s align).mpr (by omega))
    rw [if_neg hmis]
    refine ⟨_, h1, rfl, placed_unmoved L (by omega) ?_, halloc⟩
    intro a ha
    obtain rfl := some.inj ha
    exact hle

/-! ### The invariant -/

/-- The slots of two blocks are apart. -/
def Live.Apart (L : Layout) (b c : Live) : Prop :=
  b.slot + b.nslots L ≤ c.slot ∨ c.slot + c.nslots L ≤ b.slot

theorem Live.Apart.symm {c : Live} (h : b.Apart L c) : c.Apart L b := Or.symm h

instance (L : Layout) : Std.Symm (Live.Apart L) := ⟨fun _ _ => Live.Apart.symm⟩

theorem Live.Apart.addr {c : Live} (h : b.Apart L c) :
    b.hi L ≤ c.lo L ∨ c.hi L ≤ b.lo L :=
  h.imp L.slot2addr_le L.slot2addr_le

/-- What holds of a list after any calls. -/
structure Inv (L : Layout) (st : ListState) : Prop where
  coalesced : st.heap.myss.Coalesced
  first : st.live.head?.map Live.ptr = some st.lp
  placed : ∀ b ∈ st.live, Placed L b
  used : ∀ b ∈ st.live, 0 ≤ b.slot ∧
    ∀ x, b.slot ≤ x → x < b.slot + b.nslots L → x ∉ st.heap.myss.slots
  apart : st.live.Pairwise (Live.Apart L)
  mapped : ∀ b ∈ st.live, ∀ x, b.lo L ≤ x → x < b.hi L → (st.heap.mem x).isSome = true
  header : ∀ b ∈ st.live, st.heap.mem.load8 (b.ptr - 16) = some b.slot ∧
    st.heap.mem.load8 (b.ptr - 16 + 8) = some b.length
  ring : NodeRing st.heap.mem (st.live.map Live.ptr)

theorem Placed.nslots_pos (h : Placed L b) : 1 ≤ b.nslots L :=
  L.length2slots_pos (by have := h.length_ge; omega)

theorem offNodes_of_inside (hp : ∀ b ∈ live, Placed L b)
    (hapart : ∀ c ∈ live, c = b ∨ b.Apart L c) {x : Int} (h1 : b.lo L ≤ x)
    (h2 : x < b.hi L) (h3 : x < b.ptr ∨ b.ptr + 16 ≤ x) : OffNodes (live.map Live.ptr) x := by
  intro p hpm
  obtain ⟨c, hc, rfl⟩ := mem_map.mp hpm
  have hlo := (hp c hc).lo_le
  have hhi := (hp c hc).user_le
  rcases hapart c hc with rfl | h
  · exact h3
  · rcases h.addr with h | h
    · exact .inl (by omega)
    · exact .inr (by omega)

theorem Live.Apart.node {c : Live} (h : b.Apart L c) (hb : Placed L b)
    (hc : Placed L c) : NodeApart b.ptr c.ptr := by
  have h1 := hb.lo_le
  have h2 := hb.user_le
  have h3 := hc.lo_le
  have h4 := hc.user_le
  rcases h.addr with h | h
  · exact .inl (by omega)
  · exact .inr (by omega)

theorem apart_of_free {free : Set Int} {c : Live} (hb : Placed L b) (hc : Placed L c)
    (hfree : ∀ x, b.slot ≤ x → x < b.slot + b.nslots L → x ∈ free)
    (hused : ∀ x, c.slot ≤ x → x < c.slot + c.nslots L → x ∉ free) : b.Apart L c := by
  have hbn := hb.nslots_pos
  have hcn := hc.nslots_pos
  by_contra hnot
  unfold Live.Apart at hnot
  by_cases hle : b.slot ≤ c.slot
  · exact hused c.slot (by omega) (by omega) (hfree c.slot hle (by omega))
  · exact hused b.slot (by omega) (by omega) (hfree b.slot (by omega) (by omega))

theorem header_congr {m m' : AddrSpace} (heq : ∀ x, b.ptr - 16 ≤ x → x < b.ptr → m' x = m x)
    (h : m.load8 (b.ptr - 16) = some b.slot ∧ m.load8 (b.ptr - 16 + 8) = some b.length) :
    m'.load8 (b.ptr - 16) = some b.slot ∧ m'.load8 (b.ptr - 16 + 8) = some b.length := by
  rw [← h.1, ← h.2]
  exact ⟨AddrSpace.load8_congr fun x h1 h2 => heq x h1 (by omega),
    AddrSpace.load8_congr fun x h1 h2 => heq x (by omega) (by omega)⟩

theorem header_of_relinked {m m' : AddrSpace}
    (hp : ∀ c ∈ live, Placed L c) (hb : Placed L b) (hapart : ∀ c ∈ live, c = b ∨ b.Apart L c)
    (hre : Relinked m (live.map Live.ptr) m')
    (h : m.load8 (b.ptr - 16) = some b.slot ∧ m.load8 (b.ptr - 16 + 8) = some b.length) :
    m'.load8 (b.ptr - 16) = some b.slot ∧ m'.load8 (b.ptr - 16 + 8) = some b.length := by
  have hlo := hb.lo_le
  have hhi := hb.user_le
  exact header_congr (fun x h1 h2 =>
    hre.frame x (offNodes_of_inside hp hapart (by omega) (by omega) (.inl h2))) h

theorem eq_or_apart (h : live.Pairwise (Live.Apart L))
    (hb : b ∈ live) : ∀ c ∈ live, c = b ∨ b.Apart L c := by
  intro c hc
  by_cases heq : c = b
  · exact .inl heq
  · exact .inr (h.forall hb hc (symm heq))

/-! ### Calls keep it -/

/-- A fresh block is linked in behind the first one. -/
theorem inv_insert (hinv : Inv L st) {h1 : PeHeap}
    (hb : Placed L b) (halloc : Allocated L st.heap b h1) :
    ∃ mem, linkBlock st.lp b.ptr h1.mem = some mem ∧
      Inv L { st with heap := { h1 with mem }, live := insertLive st.live b } := by
  obtain ⟨heap, lp, live⟩ := st
  cases live with
  | nil => exact absurd hinv.first (by simp)
  | cons h r =>
    have hlp : h.ptr = lp := some.inj hinv.first
    subst hlp
    have hbn := hb.nslots_pos
    have hlo := hb.lo_le
    have hhi := hb.user_le
    have hnew : ∀ c ∈ h :: r, b.Apart L c := fun c hc =>
      apart_of_free hb (hinv.placed c hc) halloc.free (hinv.used c hc).2
    -- the allocation left the other blocks alone
    have hsame : ∀ c ∈ h :: r, ∀ x, c.lo L ≤ x → x < c.hi L → h1.mem x = heap.mem x := by
      intro c hc x hx1 hx2
      refine halloc.frame x ?_
      rcases (hnew c hc).addr with hd | hd
      · exact .inr (by omega)
      · exact .inl (by omega)
    have hring : NodeRing h1.mem ((h :: r).map Live.ptr) := by
      refine hinv.ring.congr ?_
      intro p hp x hx1 hx2
      obtain ⟨c, hc, rfl⟩ := mem_map.mp hp
      have hclo := (hinv.placed c hc).lo_le
      have hchi := (hinv.placed c hc).user_le
      exact hsame c hc x (by omega) (by omega)
    have hfresh : ∀ p ∈ (h :: r).map Live.ptr, NodeApart b.ptr p := by
      intro p hp
      obtain ⟨c, hc, rfl⟩ := mem_map.mp hp
      exact (hnew c hc).node hb (hinv.placed c hc)
    obtain ⟨mem, heq, hring', hre⟩ := hring.link
      (fun x hx1 hx2 => halloc.mapped x (by omega) (by omega)) hfresh
    have hperm : ∀ c, c ∈ h :: b :: r ↔ c = b ∨ c ∈ h :: r := by
      intro c
      exact ⟨fun h => by grind, fun h => by grind⟩
    have hplaced : ∀ c ∈ h :: b :: r, Placed L c := by
      intro c hc
      rcases (hperm c).mp hc with rfl | hc
      · exact hb
      · exact hinv.placed c hc
    have hapart : (h :: b :: r).Pairwise (Live.Apart L) := by
      obtain ⟨hhr, hrr⟩ := pairwise_cons.mp hinv.apart
      refine pairwise_cons.mpr ⟨?_, pairwise_cons.mpr ⟨?_, hrr⟩⟩
      · intro c hc
        rcases mem_cons.mp hc with rfl | hc
        · exact (hnew h mem_cons_self).symm
        · exact hhr c hc
      · intro c hc
        exact hnew c (mem_cons_of_mem h hc)
    refine ⟨mem, heq, halloc.coalesced, rfl, hplaced, ?_, hapart, ?_, ?_, hring'⟩
    · intro c hc
      show _ ∧ ∀ x, _ → _ → x ∉ h1.myss.slots
      rw [halloc.slots_eq]
      rcases (hperm c).mp hc with rfl | hc
      · refine ⟨?_, fun x hx1 hx2 hx => hx.2 ⟨hx1, hx2⟩⟩
        obtain ⟨d, hd, hcov⟩ := halloc.free c.slot (le_refl _) (by omega)
        have := (hinv.coalesced.proper d hd).start_nonneg
        have := hcov.1
        omega
      · exact ⟨(hinv.used c hc).1, fun x hx1 hx2 hx => (hinv.used c hc).2 x hx1 hx2 hx.1⟩
    · intro c hc x hx1 hx2
      show (mem x).isSome = true
      rw [hre.dom]
      rcases (hperm c).mp hc with rfl | hc
      · exact halloc.mapped x hx1 hx2
      · rw [hsame c hc x hx1 hx2]
        exact hinv.mapped c hc x hx1 hx2
    · intro c hc
      refine header_of_relinked hplaced (hplaced c hc)
        (eq_or_apart hapart hc) hre ?_
      rcases (hperm c).mp hc with rfl | hc
      · exact halloc.header
      · have hclo := (hinv.placed c hc).lo_le
        have hchi := (hinv.placed c hc).user_le
        exact header_congr (fun x hx1 hx2 => hsame c hc x (by omega) (by omega))
          (hinv.header c hc)

/-- **`CmiIsomallocBlockListMalloc`** keeps the invariant. -/
theorem inv_malloc (hinv : Inv L st)
    (hget : GetSlots st.heap.myss (L.length2slots (16 + nBytes)) s) :
    ∃ user heap, blockListMalloc L s st.lp nBytes st.heap = some (user, heap) ∧
      Inv L { st with
        heap
        live := insertLive st.live
          { ptr := user - 16, slot := s, length := 16 + nBytes, nBytes, align := none } } := by
  obtain ⟨h1, heq1, halloc⟩ := isomalloc_spec L hinv.coalesced (by omega) hget nBytes none
  obtain ⟨mem, heq2, hinv'⟩ := inv_insert hinv
    (placed_unmoved L (le_refl _) (fun a ha => absurd ha (by simp))) halloc
  refine ⟨L.slot2addr s + 16 + 16, { h1 with mem }, ?_, ?_⟩
  · simp only [blockListMalloc, heq1, heq2, bind_eq_bind, bind_some]
  · rw [show L.slot2addr s + 16 + 16 - 16 = L.slot2addr s + 16 by omega]
    exact hinv'

/-- **`CmiIsomallocBlockListMallocAlign`** keeps the invariant. -/
theorem inv_mallocAlign (hinv : Inv L st)
    (hget : GetSlots st.heap.myss (L.length2slots (nBytes + 16 + effectiveAlign align)) s) :
    ∃ user heap, blockListMallocAlign L s st.lp align nBytes st.heap = some (user, heap) ∧
      Inv L { st with
        heap
        live := insertLive st.live { ptr := user - 16, slot := s
                                     length := nBytes + 16 + effectiveAlign align, nBytes
                                     align := some align } } := by
  obtain ⟨p, h1, heq1, hplaced, halloc⟩ := isomallocAlign_spec L hinv.coalesced align nBytes hget
  obtain ⟨mem, heq2, hinv'⟩ := inv_insert hinv hplaced halloc
  refine ⟨p + 16, { h1 with mem }, ?_, ?_⟩
  · simp only [blockListMallocAlign, heq1, heq2, bind_eq_bind, bind_some]
  · rw [show p + 16 - 16 = p by omega]
    exact hinv'

/-- **`CmiIsomallocBlockListFree`** keeps the invariant. -/
theorem inv_free (hinv : Inv L st) (hb : b ∈ st.live.tail) :
    ∃ heap, blockListFree L (b.ptr + 16) st.heap = some heap ∧
      Inv L { st with heap, live := st.live.erase b } := by
  obtain ⟨heap, lp, live⟩ := st
  cases live with
  | nil => exact absurd hb (by simp)
  | cons h r =>
    have hbr : b ∈ r := hb
    obtain ⟨r1, r2, -, rfl, herase⟩ := exists_erase_eq hbr
    have hmem : b ∈ h :: (r1 ++ b :: r2) := by simp
    have hhb : h ≠ b := by
      intro heq
      have hnd := hinv.ring.nodup
      exact (nodup_cons.mp hnd).1 (by simp [heq])
    have herase' : (h :: (r1 ++ b :: r2)).erase b = h :: (r1 ++ r2) := by
      rw [erase_cons_tail (by simpa using hhb), herase]
    have hsub : (h :: (r1 ++ r2)).Sublist (h :: (r1 ++ b :: r2)) :=
      ((sublist_cons_self b r2).append_left r1).cons_cons h
    have hbp := hinv.placed b hmem
    have hbn := hbp.nslots_pos
    have hapart' : ∀ c ∈ h :: (r1 ++ r2), b.Apart L c := by
      intro c hc
      refine hinv.apart.forall hmem (hsub.mem hc) ?_
      intro heq
      have hnd := hinv.ring.nodup
      simp only [map_cons, map_append] at hnd
      rw [← cons_append, nodup_middle] at hnd
      refine (nodup_cons.mp hnd).1 ?_
      rw [heq, ← map_cons, ← map_append]
      exact mem_map_of_mem (by simpa using hc)
    have hring : NodeRing heap.mem (h.ptr :: (r1.map Live.ptr ++ b.ptr :: r2.map Live.ptr)) := by
      simpa using hinv.ring
    obtain ⟨hl1, hl2, m1, m2, hs1, hl3, hl4, hs2, hring', hre⟩ := hring.unlink
    have hre' : Relinked heap.mem ((h :: (r1 ++ r2)).map Live.ptr) m2 := by simpa using hre
    have hplaced' : ∀ c ∈ h :: (r1 ++ r2), Placed L c := fun c hc =>
      hinv.placed c (hsub.mem hc)
    obtain ⟨hload1, hload2⟩ := header_of_relinked hplaced' hbp
      (fun c hc => .inr (hapart' c hc)) hre' (hinv.header b hmem)
    obtain ⟨hcoal, hslots⟩ := Blocks.freeSlots_spec hinv.coalesced hbn (hinv.used b hmem).1
      (hinv.used b hmem).2
    -- the other blocks stay mapped
    have hsame : ∀ c ∈ h :: (r1 ++ r2), ∀ x, c.lo L ≤ x → x < c.hi L →
        m2.unmap (b.lo L) (L.slotsize * b.nslots L) x = m2 x := by
      intro c hc x hx1 hx2
      refine AddrSpace.unmap_of_not_mem ?_
      rw [← Live.hi_eq]
      rcases (hapart' c hc).addr with hd | hd
      · exact .inr (by omega)
      · exact .inl (by omega)
    refine ⟨{ mem := m2.unmap (b.lo L) (L.slotsize * b.nslots L)
              myss := heap.myss.freeSlots b.slot (b.nslots L) }, ?_, ?_⟩
    · have hptr : b.ptr + 16 - 16 = b.ptr := by omega
      simp only [blockListFree, hptr, hl1, hl2, hs1, hl3, hl4, hs2, bind_eq_bind,
        bind_some, isomallocFree, pointer2block, hload1, hload2]
      rfl
    · show Inv L { heap := _, lp, live := (h :: (r1 ++ b :: r2)).erase b }
      rw [herase']
      refine ⟨hcoal, hinv.first, hplaced', ?_, hinv.apart.sublist hsub, ?_, ?_, ?_⟩
      · intro c hc
        refine ⟨(hinv.used c (hsub.mem hc)).1, ?_⟩
        intro x hx1 hx2
        show x ∉ Blocks.slots (heap.myss.freeSlots b.slot (b.nslots L))
        rw [hslots]
        intro hx
        rcases hx with hx | hx
        · exact (hinv.used c (hsub.mem hc)).2 x hx1 hx2 hx
        · obtain ⟨hx3, hx4⟩ := hx
          rcases hapart' c hc with hd | hd <;> omega
      · intro c hc x hx1 hx2
        show (m2.unmap (b.lo L) (L.slotsize * b.nslots L) x).isSome = true
        rw [hsame c hc x hx1 hx2, hre.dom]
        exact hinv.mapped c (hsub.mem hc) x hx1 hx2
      · intro c hc
        have hclo := (hplaced' c hc).lo_le
        have hchi := (hplaced' c hc).user_le
        refine header_congr (fun x hx1 hx2 => hsame c hc x (by omega) (by omega)) ?_
        exact header_of_relinked hplaced' (hplaced' c hc)
          (eq_or_apart (hinv.apart.sublist hsub) hc) hre' (hinv.header c (hsub.mem hc))
      · have hring2 : NodeRing m2 ((h :: (r1 ++ r2)).map Live.ptr) := by simpa using hring'
        refine hring2.congr ?_
        intro p hp x hx1 hx2
        obtain ⟨c, hc, rfl⟩ := mem_map.mp hp
        have hclo := (hplaced' c hc).lo_le
        have hchi := (hplaced' c hc).user_le
        exact hsame c hc x (by omega) (by omega)

theorem inv_write (hinv : Inv L st) (hb : b ∈ st.live)
    {offset : Nat} {bytes : List MemVal} (hfit : offset + bytes.length ≤ b.nBytes) :
    ∃ mem, st.heap.mem.writeBytes (b.ptr + 16 + offset) bytes = some mem ∧
      Inv L { st with heap := { st.heap with mem } } := by
  have hlo := (hinv.placed b hb).lo_le
  have hhi := (hinv.placed b hb).user_le
  obtain ⟨mem, heq, hw⟩ := AddrSpace.writeBytes_spec bytes
    (a := b.ptr + 16 + offset) (fun x h1 h2 => hinv.mapped b hb x (by omega) (by omega))
  -- neither the nodes nor the headers are among the user's bytes
  have hsame : ∀ c ∈ st.live, ∀ x, c.ptr - 16 ≤ x → x < c.ptr + 16 → mem x = st.heap.mem x := by
    intro c hc x h1 h2
    refine hw.frame x ?_
    have hclo := (hinv.placed c hc).lo_le
    have hchi := (hinv.placed c hc).user_le
    rcases eq_or_apart hinv.apart hb c hc with rfl | hd
    · exact .inl (by omega)
    · rcases hd.addr with hd | hd
      · exact .inr (by omega)
      · exact .inl (by omega)
  refine ⟨mem, heq, hinv.coalesced, hinv.first, hinv.placed, hinv.used, hinv.apart, ?_, ?_, ?_⟩
  · intro c hc x h1 h2
    show (mem x).isSome = true
    rw [hw.dom]
    exact hinv.mapped c hc x h1 h2
  · intro c hc
    exact header_congr (fun x h1 h2 => hsame c hc x h1 (by omega)) (hinv.header c hc)
  · refine hinv.ring.congr ?_
    intro p hp x h1 h2
    obtain ⟨c, hc, rfl⟩ := mem_map.mp hp
    exact hsame c hc x (by omega) h2

/-- **`CmiIsomallocBlockListNew`** sets it up. -/
theorem inv_new {heap0 : PeHeap} (hl : heap0.myss.Coalesced)
    (hget : GetSlots heap0.myss (L.length2slots 16) s) :
    ∃ ret heap, blockListNew L s heap0 = some (ret, heap) ∧
      Inv L { heap, lp := ret
              live := [{ ptr := ret, slot := s, length := 16, nBytes := 0, align := none }] } := by
  obtain ⟨h1, heq, halloc⟩ := isomalloc_spec L hl (by decide) hget 0 none
  have hplaced : Placed L { ptr := L.slot2addr s + 16, slot := s, length := 16, nBytes := 0
                            align := none } :=
    placed_unmoved L (le_refl _) (fun a ha => absurd ha (by simp))
  set b : Live := { ptr := L.slot2addr s + 16, slot := s, length := 16, nBytes := 0, align := none }
    with hbdef
  have hbn := hplaced.nslots_pos
  have hlo := hplaced.lo_le
  have hhi := hplaced.user_le
  have hmapped : h1.mem.Mapped b.ptr 16 := fun x hx1 hx2 =>
    halloc.mapped x (by omega) (by omega)
  obtain ⟨m1, heq1, hw1⟩ := AddrSpace.store8_spec b.ptr (a := b.ptr + 8)
    (fun x hx1 hx2 => hmapped x (by omega) (by omega))
  obtain ⟨m2, heq2, hw2⟩ := AddrSpace.store8_spec b.ptr
    (hw1.mapped fun x hx1 hx2 => hmapped x hx1 (by omega))
  have hdom : ∀ x, (m2 x).isSome = (h1.mem x).isSome := by
    intro x
    rw [hw2.dom, hw1.dom]
  refine ⟨b.ptr, { h1 with mem := m2 }, ?_, halloc.coalesced, rfl, ?_, ?_,
    pairwise_singleton _ _, ?_, ?_, ⟨?_, pairwise_singleton _ _, ?_⟩⟩
  · simp only [blockListNew, heq, bind_eq_bind, bind_some]
    rw [heq1, bind_some, heq2]
    rfl
  · intro c hc
    obtain rfl := mem_singleton.mp hc
    exact hplaced
  · intro c hc
    obtain rfl := mem_singleton.mp hc
    constructor
    · obtain ⟨d, hd, hcov⟩ := halloc.free b.slot (le_refl _) (by omega)
      have hnonneg := (hl.proper d hd).start_nonneg
      have hle := hcov.1
      show 0 ≤ b.slot
      omega
    · intro x hx1 hx2
      show x ∉ h1.myss.slots
      rw [halloc.slots_eq]
      exact fun hx => hx.2 ⟨hx1, hx2⟩
  · intro c hc x hx1 hx2
    obtain rfl := mem_singleton.mp hc
    show (m2 x).isSome = true
    rw [hdom]
    exact halloc.mapped x hx1 hx2
  · intro c hc
    obtain rfl := mem_singleton.mp hc
    refine header_congr (fun x hx1 hx2 => ?_) halloc.header
    change x < b.ptr at hx2
    show m2 x = h1.mem x
    rw [hw2.frame x (.inl hx2), hw1.frame x (.inl (by omega))]
  · intro p hp x hx1 hx2
    obtain rfl := mem_singleton.mp hp
    show (m2 x).isSome = true
    rw [hdom]
    exact hmapped x hx1 hx2
  · refine ⟨⟨?_, hw2.load⟩, trivial⟩
    show m2.load8 (b.ptr + 8) = some b.ptr
    rw [hw2.load8_of_disjoint (.inr (by omega)), hw1.load]

/-- **The invariant holds of every list.** -/
theorem inv_reachable (h : (listSystem L).Reachable st) : Inv L st := by
  refine Transition.Reachable.invariant ?_ ?_ h
  · intro st ⟨s, ret, heap0, hl, hget, heq, hlp, hlive⟩
    obtain ⟨ret', heap', heq', hinv⟩ := inv_new hl hget
    obtain ⟨rfl, hheap⟩ := Prod.mk.inj (some.inj (heq.symm.trans heq'))
    obtain ⟨heap, lp, live⟩ := st
    obtain rfl : heap = heap' := hheap
    obtain rfl : lp = ret := hlp
    obtain rfl : live = _ := hlive
    exact hinv
  · intro st c _ hinv ⟨_, hstep⟩
    cases c with
    | malloc nBytes =>
      obtain ⟨s, user, heap, hget, heq, rfl⟩ := hstep
      obtain ⟨user', heap', heq', hinv'⟩ := inv_malloc hinv hget
      obtain ⟨rfl, rfl⟩ := Prod.mk.inj (some.inj (heq.symm.trans heq'))
      exact hinv'
    | mallocAlign align nBytes =>
      obtain ⟨s, user, heap, hget, heq, rfl⟩ := hstep
      obtain ⟨user', heap', heq', hinv'⟩ := inv_mallocAlign hinv hget
      obtain ⟨rfl, rfl⟩ := Prod.mk.inj (some.inj (heq.symm.trans heq'))
      exact hinv'
    | free block =>
      obtain ⟨b, heap, hb, rfl, heq, rfl⟩ := hstep
      obtain ⟨heap', heq', hinv'⟩ := inv_free hinv hb
      obtain rfl := some.inj (heq.symm.trans heq')
      exact hinv'
    | write block offset bytes =>
      obtain ⟨b, mem, hb, rfl, hfit, heq, rfl⟩ := hstep
      obtain ⟨mem', heq', hinv'⟩ := inv_write hinv (mem_of_mem_tail hb) hfit
      obtain rfl := some.inj (heq.symm.trans heq')
      exact hinv'

end CharmRuntime.Isomalloc
