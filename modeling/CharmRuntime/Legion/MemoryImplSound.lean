import CharmRuntime.Legion.MemoryImpl

/-!
# Legion.MemoryImplSound

**The free blocks are the runs of the free bytes**, as long as the sizes that are requested are an
`off_t` (`refines_of_converts`). A larger one is negative where it is compared with a block, which
then is long enough for it.
-/

namespace CharmRuntime.Legion

open Lib CharmRuntime.Lib.OrderedMap CharmRuntime.Lib.Ranges List Nat

theorem toOff_of_lt {x : Int} (h0 : -2 ^ 63 ≤ x) (h : x < 2 ^ 63) : toOff x = x := by
  unfold toOff
  rw [BitVec.toInt_ofInt]
  exact Int.bmod_eq_of_le (by omega) (by omega)

theorem ofInt_toOff (x : Int) : BitVec.ofInt 64 (toOff x) = BitVec.ofInt 64 x := BitVec.ofInt_toInt

namespace MemoryState

/-! ### Rounding -/

theorem rounded_zero (alignment : Nat) : rounded alignment 0 = 0 := by
  unfold rounded
  rw [div_eq_of_lt (by omega), zero_mul]

theorem le_rounded (alignment size : Nat) : size ≤ rounded alignment size := by
  have hdiv := div_add_mod (size + (max 1 alignment - 1)) (max 1 alignment)
  have hmod := mod_lt (size + (max 1 alignment - 1)) (show 0 < max 1 alignment by omega)
  unfold rounded
  rw [mul_comm] at hdiv
  omega

theorem dvd_rounded (alignment size : Nat) : max 1 alignment ∣ rounded alignment size :=
  dvd_mul_left _ _

theorem rounded_of_pos {alignment : Nat} (hpos : 0 < alignment) (size : Nat) :
    rounded alignment size = size + if 0 < size % alignment then alignment -
    size % alignment else 0 := by
  have hmod := mod_lt size hpos
  have hdiv := div_add_mod size alignment
  unfold rounded
  rw [max_eq_right hpos]
  generalize size / alignment = q at hdiv
  generalize size % alignment = r at hmod hdiv
  split
  · have hsplit : size + (alignment - 1) = alignment * (q + 1) + (r - 1) := by
      rw [mul_succ]
      omega
    rw [hsplit, mul_add_div hpos, div_eq_of_lt (by omega), add_zero, mul_comm, mul_succ]
    omega
  · have hsplit : size + (alignment - 1) = alignment * q + (alignment - 1) := by omega
    rw [hsplit, mul_add_div hpos, div_eq_of_lt (by omega), add_zero, mul_comm]
    omega

theorem pad_eq (m : MemoryImpl) (halign : m.alignment < 2 ^ 63) (size : Nat) :
    m.pad size = rounded m.alignment size := by
  unfold MemoryImpl.pad
  obtain hzero | hpos := Nat.eq_zero_or_pos m.alignment
  · rw [if_neg (by omega), hzero]
    simp [rounded]
  · have hmod := mod_lt size hpos
    rw [if_pos hpos, toOff_of_lt (by omega) (by omega), rounded_of_pos hpos]
    dsimp only
    split <;> split <;> omega

end MemoryState

/-! ### The blocks -/

namespace MemoryImpl

theorem alloc_zero (m : MemoryImpl) :
    m.allocBytesLocal 0 = (toOff (m.size + zeroSizeInstanceOffset), m) := if_pos rfl

theorem allocBlock_eq_none {size : Int} {m : OrderedMap Int Int} :
    allocBlock size m = none ↔ ∀ e ∈ m, e.2 < toOff size := by
  induction m with
  | nil => simp [allocBlock]
  | cons it behind ih =>
    unfold allocBlock
    rw [forall_mem_cons, ← ih]
    cases allocBlock size behind with
    | some x => simp
    | none =>
      dsimp only
      split
      · exact iff_of_false (Option.some_ne_none _) fun h => by omega
      · split
        · exact iff_of_false (Option.some_ne_none _) fun h => by omega
        · exact iff_of_true rfl ⟨by omega, rfl⟩

/-- The range comes from the end of the last block that is large enough. -/
theorem allocBlock_eq_some {size retval : Int} {m m' : OrderedMap Int Int} (hasc : Ascending m)
    (hsize : toOff size = size)
    (hpos : 0 < size) (hmax : ∀ e ∈ m, e.2 < 2 ^ 63) (h : allocBlock size m = some (retval, m')) :
    ∃ e ∈ m, size ≤ e.2 ∧ retval + size = e.1 + e.2 ∧ (∀ x ∈ m, e.1 < x.1 → x.2 < size) ∧
    Ascending m' ∧
      ∀ x, x ∈ m' ↔ (x ∈ m ∧ x.1 ≠ e.1) ∨ (size < e.2 ∧ x = (e.1, e.2 - size)) := by
  induction m generalizing m' with
  | nil => cases h
  | cons it behind ih =>
    obtain ⟨hhead, hbehind⟩ := pairwise_cons.mp hasc
    obtain ⟨hit, hmax⟩ := forall_mem_cons.mp hmax
    unfold allocBlock at h
    split at h
    · rename_i retval' m'' hrec
      obtain ⟨rfl, rfl⟩ := Prod.mk.inj (Option.some.inj h)
      obtain ⟨e, he, hle, hret, hlast, hasc', hmem⟩ := ih hbehind hmax hrec
      have hlt := hhead e he
      refine ⟨e, mem_cons_of_mem it he, hle, hret, ?_, pairwise_cons.mpr ⟨?_, hasc'⟩, fun x => ?_⟩
      · refine forall_mem_cons.mpr ⟨fun hlt' => absurd hlt' (lt_asymm hlt), hlast⟩
      · intro x hx
        obtain ⟨hx, -⟩ | ⟨-, rfl⟩ := (hmem x).mp hx
        exacts [hhead x hx, hlt]
      · rw [mem_cons, mem_cons, hmem]
        have hne : it.1 ≠ e.1 := ne_of_lt hlt
        constructor
        · rintro (rfl | ⟨hx, hne'⟩ | hx)
          exacts [.inl ⟨.inl rfl, hne⟩, .inl ⟨.inr hx, hne'⟩, .inr hx]
        · rintro (⟨rfl | hx, hne'⟩ | hx)
          exacts [.inl rfl, .inr (.inl ⟨hx, hne'⟩), .inr (.inr hx)]
    · rename_i hrec
      have hshort := allocBlock_eq_none.mp hrec
      rw [hsize] at hshort h
      have hlast : ∀ x ∈ it :: behind, it.1 < x.1 → x.2 < size :=
        forall_mem_cons.mpr ⟨fun hlt => absurd hlt (lt_irrefl _), fun x hx _ => hshort x hx⟩
      have hother {x : Int × Int} : x ∈ it :: behind ∧ x.1 ≠ it.1 ↔ x ∈ behind := by
        rw [mem_cons]
        constructor
        · rintro ⟨rfl | hx, hne⟩
          exacts [absurd rfl hne, hx]
        · exact fun hx => ⟨.inr hx, ne_of_gt (hhead x hx)⟩
      split at h
      · rename_i heq
        obtain ⟨rfl, rfl⟩ := Prod.mk.inj (Option.some.inj h)
        refine ⟨it, mem_cons_self, le_of_eq heq.symm, by rw [heq], hlast, hbehind, fun x => ?_⟩
        rw [hother]
        exact (or_iff_left fun hlt => by omega).symm
      · split at h
        · rename_i hlt
          rw [toOff_of_lt (by omega) (by omega)] at h
          obtain ⟨rfl, rfl⟩ := Prod.mk.inj (Option.some.inj h)
          refine ⟨it, mem_cons_self, le_of_lt hlt, by omega, hlast,
            pairwise_cons.mpr ⟨hhead, hbehind⟩, fun x => ?_⟩
          rw [hother, mem_cons, or_comm]
          exact or_congr_right (and_iff_right hlt).symm
        · cases h

section Free

variable {m : MemoryImpl} {N offset s : Int} {blocks : OrderedMap Int Int}

/-- What a range is like that eats what is behind it: then no entry is adjacent there. -/
structure Eats (blocks : OrderedMap Int Int) (offset s N s' : Int) (blocks' : OrderedMap Int Int) :
    Prop where
  separated : Separated blocks'
  fits : Fits blocks' offset s'
  above : ∀ x ∈ blocks', offset ≤ x.1 → offset + s' < x.1
  covers : ∀ b, (Covers blocks' b ∨ (offset ≤ b ∧ b < offset + s')) ↔
    (Covers blocks b ∨ (offset ≤ b ∧ b < offset + s))
  before : ∀ x, x.1 < offset → (x ∈ blocks' ↔ x ∈ blocks)
  mem : ∀ x ∈ blocks', x ∈ blocks
  le : offset + s' ≤ N

theorem eatAfter_eats (h : Separated blocks) (hf : Fits blocks offset s)
    (hin : ∀ e ∈ blocks, e.1 + e.2 ≤ N)
    (hend : offset + s ≤ N) {after : Int × Int} (hafter : lowerBound offset blocks = some after)
    (hsize : toOff s = s) :
    Eats blocks offset s N (eatAfter offset s after blocks).1
      (eatAfter offset s after blocks).2 := by
  obtain ⟨hmem, hle, hfirst⟩ := lowerBound_some h.ascending hafter
  unfold eatAfter
  rw [hsize]
  split
  · rename_i hadj
    obtain ⟨hfits, habove, hcovers⟩ := hf.eat h hmem hadj
    have hafterN := hin after hmem
    exact ⟨h.erase _, hfits, habove, hcovers, fun x hx => mem_erase.trans (and_iff_left (by omega)),
      fun x hx => (mem_erase.mp hx).1, by omega⟩
  · have hgap := hf.above after hmem hle
    refine ⟨h, hf, fun x hx hx' => ?_, fun b => Iff.rfl, fun x _ => Iff.rfl, fun x hx => hx, hend⟩
    have hnext := hfirst x hx hx'
    omega

/-- The entry before the range grows if it is adjacent, or the range becomes an entry. -/
theorem growBefore_separated (h : Separated blocks) (hf : Fits blocks offset s)
    (habove : ∀ x ∈ blocks, offset ≤ x.1 → offset + s < x.1) (h0 : ∀ e ∈ blocks, 0 ≤ e.1)
    (hend : offset + s < 2 ^ 63) {before : Int × Int} (hmem : before ∈ blocks)
    (hlt : before.1 < offset)
    (hlast : ∀ x ∈ blocks, x.1 < offset → x.1 ≤ before.1) :
    Separated (growBefore offset s before blocks) ∧
      ∀ b, Covers (growBefore offset s before blocks) b ↔ Covers blocks b ∨
      (offset ≤ b ∧ b < offset + s) := by
  have hs := hf.pos
  have h0 := h0 before hmem
  have hle := hf.below before hmem hlt
  unfold growBefore
  split
  · rename_i hadj
    rw [toOff_of_lt (by omega) (by omega)]
    exact hf.grow h habove hmem hadj
  · rw [toOff_of_lt (by omega) (by omega)]
    refine hf.add h habove fun x hx hx' => ?_
    obtain heq | hlt' := (hlast x hx hx').eq_or_lt
    · rw [h.ascending.eq_of_mem hx hmem heq]
      omega
    · have hgap := h.gap x hx before hmem hlt'
      omega

/-- **A range that no block meets is freed**: no assertion fails, and the blocks are those of the
bytes with the range. -/
theorem free_bytes_local_ok (h : Separated m.free_blocks) (hmax : N < 2 ^ 63)
    (hin : ∀ e ∈ m.free_blocks, 0 ≤ e.1 ∧ e.1 + e.2 ≤ N) {size : Nat} (hne : size ≠ 0)
    (hpad : m.pad size = s)
    (hf : Fits m.free_blocks offset s) (hoffset : 0 ≤ offset) (hend : offset + s ≤ N) :
    ∃ blocks, m.freeBytesLocal offset size = .ok { m with free_blocks := blocks } ∧
    Separated blocks ∧
      ∀ b, Covers blocks b ↔ Covers m.free_blocks b ∨ (offset ≤ b ∧ b < offset + s) := by
  have hs := hf.pos
  have hsize : toOff s = s := toOff_of_lt (by omega) (by omega)
  unfold freeBytesLocal
  rw [if_neg hne, hpad]
  have hupsert (hbefore : lastBefore offset m.free_blocks = none) {s' : Int}
    {blocks' : OrderedMap Int Int}
      (heats : Eats m.free_blocks offset s N s' blocks') :
      Separated (upsert offset (fun _ => toOff s') blocks') ∧
        ∀ b, Covers (upsert offset (fun _ => toOff s') blocks') b ↔ Covers m.free_blocks b ∨
        (offset ≤ b ∧ b < offset + s) := by
    have hs' := heats.fits.pos
    have hle := heats.le
    rw [toOff_of_lt (by omega) (by omega)]
    obtain ⟨hsep, hcovers⟩ := heats.fits.add heats.separated heats.above fun x hx hlt =>
      absurd (lastBefore_none hbefore (heats.mem x hx)) (not_le_of_gt hlt)
    exact ⟨hsep, fun b => (hcovers b).trans (heats.covers b)⟩
  have hgrow {before : Int × Int} (hbefore : lastBefore offset m.free_blocks = some before)
    {s' : Int}
      {blocks' : OrderedMap Int Int} (heats : Eats m.free_blocks offset s N s' blocks') :
      ¬ offset < before.1 + before.2 ∧ Separated (growBefore offset s' before blocks') ∧
        ∀ b, Covers (growBefore offset s' before blocks') b ↔ Covers m.free_blocks b ∨
        (offset ≤ b ∧ b < offset + s) := by
    obtain ⟨hmem, hlt, hlast⟩ := lastBefore_some h.ascending hbefore
    have hle := heats.le
    obtain ⟨hsep, hcovers⟩ := growBefore_separated heats.separated heats.fits heats.above
      (fun e he => (hin e (heats.mem e he)).1) (by omega) ((heats.before before hlt).mpr hmem) hlt
      fun x hx hlt => hlast x (heats.mem x hx) hlt
    exact ⟨not_lt_of_ge (hf.below before hmem hlt), hsep, fun b =>
      (hcovers b).trans (heats.covers b)⟩
  -- If nothing is behind the range, it eats nothing.
  have hnothing (hafter : lowerBound offset m.free_blocks = none) :
    Eats m.free_blocks offset s N s m.free_blocks :=
    ⟨h, hf, fun x hx hle => absurd (lowerBound_none hafter hx) (not_lt_of_ge hle), fun b => Iff.rfl,
    fun x _ => Iff.rfl,
      fun x hx => hx, hend⟩
  have hnoOverlap {after : Int × Int} (hafter : lowerBound offset m.free_blocks = some after) :
      ¬ after.1 < offset + toOff s := by
    obtain ⟨hmem, hle, -⟩ := lowerBound_some h.ascending hafter
    rw [hsize]
    exact not_lt_of_ge (hf.above after hmem hle)
  have heats {after : Int × Int} (hafter : lowerBound offset m.free_blocks = some after) :=
    eatAfter_eats h hf (fun e he => (hin e he).2) hend hafter hsize
  match hafter : lowerBound offset m.free_blocks, hbefore : lastBefore offset m.free_blocks with
  | some after, none =>
    dsimp only
    rw [if_neg (hnoOverlap hafter)]
    exact ⟨_, rfl, hupsert hbefore (heats hafter)⟩
  | some after, some before =>
    obtain ⟨hle, hsep, hcovers⟩ := hgrow hbefore (heats hafter)
    dsimp only
    rw [if_neg (hnoOverlap hafter), if_neg hle]
    exact ⟨_, rfl, hsep, hcovers⟩
  | none, some before =>
    obtain ⟨hle, hsep, hcovers⟩ := hgrow hbefore (hnothing hafter)
    dsimp only
    rw [if_neg hle]
    exact ⟨_, rfl, hsep, hcovers⟩
  | none, none => exact ⟨_, rfl, hupsert hbefore (hnothing hafter)⟩

end Free

end MemoryImpl

namespace MemoryState

/-! ### The invariant -/

structure Ok (size alignment : Nat) (s : MemoryState) : Prop where
  size_eq : s.mem.size = size
  alignment_eq : s.mem.alignment = alignment
  separated : Separated s.mem.free_blocks
  covers : ∀ b, Covers s.mem.free_blocks b ↔ s.FreeByte b
  live : ∀ a ∈ s.live, 0 < a.2 → 0 ≤ a.1 ∧ a.1 + rounded alignment a.2 ≤ size ∧
    ((max 1 alignment : Nat) : Int) ∣ a.1
  disjoint : s.live.Pairwise fun a a' => ∀ b, Takes alignment a b → ¬ Takes alignment a' b
  zero : ∀ a ∈ s.live, a.2 = 0 → a.1 = toOff (size + zeroSizeInstanceOffset)

section Memory

variable {size alignment : Nat} (hpos : 0 < size) (hmax : size < 2 ^ 63)
  (hdvd : max 1 alignment ∣ size)

variable {a : Int × Nat} {e : Int × Int} {request : Nat} {blocks : OrderedMap Int Int}

theorem not_takes_zero (h : a.2 = 0) (b : Int) : ¬ Takes alignment a b := by
  unfold Takes
  rw [h, rounded_zero]
  omega

theorem le_congr {u : Nat} (hu : 0 < u) {c b b' : Int} (hc : (u : Int) ∣ c) (h : b / u = b' / u) :
    c ≤ b ↔ c ≤ b' := by
  obtain ⟨k, rfl⟩ := hc
  have hu' : (0 : Int) < u := by omega
  rw [mul_comm, ← Int.le_ediv_iff_mul_le hu', ← Int.le_ediv_iff_mul_le hu', h]

variable {s : MemoryState} (h : s.Ok size alignment)
include h

omit h in
theorem ok_init (hpos : 0 < size) (hmax : size < 2 ^ 63) :
    (init size alignment).Ok size alignment := by
  have htoOff : toOff size = size := toOff_of_lt (by omega) (by omega)
  refine ⟨rfl, rfl, ?_, fun b => ?_, ?_, List.Pairwise.nil, ?_⟩
  · change Separated [(0, toOff size)]
    rw [htoOff]
    exact separated_singleton (by omega)
  · unfold Covers FreeByte
    change (∃ e ∈ [((0 : Int), toOff size)], _) ↔ 0 ≤ b ∧ b < size ∧ ∀ a ∈ [], _
    rw [htoOff]
    simp
  all_goals exact fun a ha => absurd ha not_mem_nil

include hdvd

theorem Ok.freeByte_congr {b b' : Int}
    (hb : b / (max 1 alignment : Nat) = b' / (max 1 alignment : Nat)) :
    s.FreeByte b ↔ s.FreeByte b' := by
  have hu : 0 < max 1 alignment := by omega
  have hsize : ((max 1 alignment : Nat) : Int) ∣ size := Int.natCast_dvd_natCast.mpr hdvd
  unfold FreeByte
  rw [h.size_eq, h.alignment_eq, le_congr hu (dvd_zero _) hb, ← not_le,
    le_congr hu hsize hb, not_le]
  refine and_congr_right fun _ => and_congr_right fun _ => forall₂_congr fun a ha => not_congr ?_
  obtain hzero | hpos := Nat.eq_zero_or_pos a.2
  · exact iff_of_false (not_takes_zero hzero b) (not_takes_zero hzero b')
  · obtain ⟨-, -, ha⟩ := h.live a ha hpos
    have hend : ((max 1 alignment : Nat) : Int) ∣ a.1 + rounded alignment a.2 :=
      Int.dvd_add ha (Int.natCast_dvd_natCast.mpr (dvd_rounded alignment a.2))
    unfold Takes
    rw [le_congr hu ha hb, ← not_le, le_congr hu hend hb, not_le]

theorem Ok.dvd_end (he : e ∈ s.mem.free_blocks) : ((max 1 alignment : Nat) : Int) ∣ e.1 + e.2 := by
  have hu : (0 : Int) < (max 1 alignment) := by omega
  have hpos := h.separated.pos e he
  by_contra hnot
  -- Otherwise the byte at the end is of the same unit as the one before it, which is free.
  have hsame : (e.1 + e.2 - 1) / (max 1 alignment) = (e.1 + e.2) / (max 1 alignment) := by
    have hdiv := Int.ediv_mul_add_emod (e.1 + e.2) (max 1 alignment : Nat)
    have hlt := Int.emod_lt_of_pos (e.1 + e.2) hu
    refine (Int.ediv_eq_iff_of_pos hu).mpr ⟨?_, ?_⟩ <;> omega
  have hlast : s.FreeByte (e.1 + e.2) :=
    (h.freeByte_congr hdvd hsame).mp ((h.covers _).mp ⟨e, he, by omega, by omega⟩)
  obtain ⟨e', he', hle, hlt⟩ := (h.covers _).mpr hlast
  have hne : e.1 ≠ e'.1 := by
    intro heq
    rw [h.separated.ascending.eq_of_mem he he' heq] at hlt
    exact absurd hlt (lt_irrefl _)
  have hapart := h.separated.apart he he' hne
  omega

include hpos hmax

theorem Ok.alignment_lt : s.mem.alignment < 2 ^ 63 := by
  have hle := le_of_dvd hpos hdvd
  rw [h.alignment_eq]
  omega

omit hpos hmax hdvd in
theorem Ok.block_in (he : e ∈ s.mem.free_blocks) : 0 ≤ e.1 ∧ e.1 + e.2 ≤ size := by
  have hpos := h.separated.pos e he
  obtain ⟨hfirst, -, -⟩ := (h.covers e.1).mp ⟨e, he, le_refl _, by omega⟩
  obtain ⟨-, hlast, -⟩ := (h.covers (e.1 + e.2 - 1)).mp ⟨e, he, by omega, by omega⟩
  rw [h.size_eq] at hlast
  omega

/-! ### Allocation -/

theorem Ok.alloc_some (hrequest : 0 < request) (hround : rounded alignment request < 2 ^ 63)
    {retval : Int}
    (hret : MemoryImpl.allocBlock (s.mem.pad request) s.mem.free_blocks = some (retval, blocks)) :
    0 ≤ retval ∧ ((max 1 alignment : Nat) : Int) ∣ retval ∧ s.FreeRun request retval ∧
      (∀ offset, s.FreeRun request offset → offset ≤ retval) ∧ Separated blocks ∧
      ∀ b, Covers blocks b ↔ Covers s.mem.free_blocks b ∧
      ¬ Takes alignment (retval, request) b := by
  have hle := le_rounded alignment request
  have hpad := pad_eq s.mem (h.alignment_lt hpos hmax hdvd) request
  rw [h.alignment_eq] at hpad
  have hblocks : ∀ e ∈ s.mem.free_blocks, e.2 < 2 ^ 63 := by
    intro e he
    have hin := h.block_in he
    omega
  rw [hpad] at hret
  obtain ⟨e, he, hlong, heq, hlast, hasc, hmem⟩ :=
    MemoryImpl.allocBlock_eq_some h.separated.ascending (toOff_of_lt (by omega) (by omega))
      (by omega) hblocks hret
  have hin := h.block_in he
  obtain ⟨hsep, hcovers⟩ := h.separated.shrink he (by omega) hlong hasc hmem
  refine ⟨by omega, ?_, fun b hb hb' => ?_, fun offset hrun => ?_, hsep, fun b => ?_⟩
  · have hend := h.dvd_end hdvd he
    rw [← heq] at hend
    exact (Int.dvd_add_left (Int.natCast_dvd_natCast.mpr (dvd_rounded alignment request))).mp hend
  · rw [h.alignment_eq] at hb'
    exact (h.covers b).mp ⟨e, he, by omega, by omega⟩
  · unfold FreeRun at hrun
    rw [h.alignment_eq] at hrun
    obtain ⟨x, hx, hxo, hox⟩ :=
      h.separated.exists_of_run (by omega) fun b hb hb' => (h.covers b).mpr (hrun b hb hb')
    obtain heq' | hne := eq_or_ne x.1 e.1
    · rw [h.separated.ascending.eq_of_mem hx he heq'] at hox
      omega
    · obtain hlt | hlt := lt_or_gt_of_ne hne
      · have hgap := h.separated.gap x hx e he hlt
        omega
      · have hshort := hlast x hx hlt
        omega
  · rw [hcovers b]
    unfold Takes
    dsimp only
    exact and_congr_right fun _ => not_congr (by omega)

theorem Ok.alloc_none (hrequest : 0 < request)
    (hret : MemoryImpl.allocBlock (s.mem.pad request) s.mem.free_blocks = none) :
    ¬ ∃ offset, s.FreeRun request offset := by
  have hle := le_rounded alignment request
  have hshort := MemoryImpl.allocBlock_eq_none.mp hret
  rw [pad_eq s.mem (h.alignment_lt hpos hmax hdvd) request, h.alignment_eq] at hshort
  rintro ⟨offset, hrun⟩
  unfold FreeRun at hrun
  rw [h.alignment_eq] at hrun
  obtain ⟨e, he, hfirst, hlast⟩ :=
    h.separated.exists_of_run (by omega) fun b hb hb' => (h.covers b).mpr (hrun b hb hb')
  have hin := h.block_in he
  have hlt := hshort e he
  rw [toOff_of_lt (by omega) (by omega)] at hlt
  omega

omit hpos hmax hdvd in
/-- A size that a block is found for is an `off_t`. -/
theorem Ok.rounded_lt (hconv : s.Converts request) {x : Int × OrderedMap Int Int}
    (hret : MemoryImpl.allocBlock (s.mem.pad request) s.mem.free_blocks = some x) :
    rounded alignment request < 2 ^ 63 := by
  rw [← h.alignment_eq]
  refine hconv.resolve_right fun hshort => ?_
  rw [MemoryImpl.allocBlock_eq_none.mpr hshort] at hret
  cases hret

theorem Ok.allocatesHighest (hrequest : 0 < request) (hconv : s.Converts request) :
    s.AllocatesHighest request := by
  unfold AllocatesHighest MemoryImpl.allocBytesLocal
  rw [if_neg (by omega)]
  match hret : MemoryImpl.allocBlock (s.mem.pad request) s.mem.free_blocks with
  | none =>
    exact ⟨iff_of_true rfl (h.alloc_none hpos hmax hdvd hrequest hret), fun hne => absurd rfl hne⟩
  | some (retval, blocks) =>
    obtain ⟨hnonneg, haligned, hrun, hhighest, -⟩ :=
      h.alloc_some hpos hmax hdvd hrequest (h.rounded_lt hconv hret) hret
    dsimp only
    refine ⟨iff_of_false (by omega) fun hnone => hnone ⟨retval, hrun⟩, fun _ =>
      ⟨?_, hrun, hhighest⟩⟩
    rw [h.alignment_eq]
    obtain hzero | hone := Nat.eq_zero_or_pos alignment
    · exact .inl hzero
    · rw [max_eq_right hone] at haligned
      exact .inr haligned

omit hpos hmax hdvd in
theorem Ok.push (hsep : Separated blocks)
    (hcovers : ∀ b, Covers blocks b ↔ Covers s.mem.free_blocks b ∧ ¬ Takes alignment a b)
    (hfree : ∀ b, Takes alignment a b → s.FreeByte b)
    (halive : 0 < a.2 → 0 ≤ a.1 ∧ a.1 + rounded alignment a.2 ≤ size ∧
      ((max 1 alignment : Nat) : Int) ∣ a.1)
    (hzero : a.2 = 0 → a.1 = toOff (size + zeroSizeInstanceOffset)) :
    Ok size alignment ⟨{ s.mem with free_blocks := blocks }, a :: s.live⟩ := by
  refine ⟨h.size_eq, h.alignment_eq, hsep, fun b => ?_, forall_mem_cons.mpr ⟨halive, h.live⟩,
    pairwise_cons.mpr ⟨fun a' ha' b hb hb' => ?_, h.disjoint⟩, forall_mem_cons.mpr ⟨hzero, h.zero⟩⟩
  · rw [hcovers, h.covers]
    unfold FreeByte
    dsimp only
    rw [forall_mem_cons, h.alignment_eq]
    tauto
  · obtain ⟨-, -, hothers⟩ := hfree b hb
    rw [h.alignment_eq] at hothers
    exact hothers a' ha' hb'

theorem Ok.alloc (hconv : s.Converts request) : (s.alloc request).Ok size alignment := by
  unfold MemoryState.alloc MemoryImpl.allocBytesLocal
  obtain rfl | hrequest := Nat.eq_zero_or_pos request
  · -- An allocation of no bytes takes none.
    rw [if_pos rfl]
    split
    · exact h
    · refine h.push h.separated (fun b => (and_iff_left (not_takes_zero rfl b)).symm)
        (fun b hb => absurd hb (not_takes_zero rfl b))
          (fun hlt => absurd hlt (lt_irrefl 0)) fun _ => ?_
      rw [h.size_eq]
  · rw [if_neg (by omega)]
    match hret : MemoryImpl.allocBlock (s.mem.pad request) s.mem.free_blocks with
    | none => exact h
    | some (retval, blocks) =>
      obtain ⟨hnonneg, haligned, hrun, -, hsep, hcovers⟩ :=
        h.alloc_some hpos hmax hdvd hrequest (h.rounded_lt hconv hret) hret
      unfold FreeRun at hrun
      rw [h.alignment_eq] at hrun
      have hle := le_rounded alignment request
      obtain ⟨-, hlast, -⟩ := hrun (retval + rounded alignment request - 1) (by omega) (by omega)
      rw [h.size_eq] at hlast
      dsimp only
      rw [if_neg (by omega)]
      exact h.push hsep hcovers (fun b hb => hrun b hb.1 hb.2)
        (fun _ => ⟨hnonneg, by dsimp only; omega, haligned⟩)
        fun hzero => absurd hzero (ne_of_gt hrequest)

/-! ### Frees -/

omit hpos hmax hdvd in
theorem Ok.pop (ha : a ∈ s.live) (hsep : Separated blocks)
    (hcovers : ∀ b, Covers blocks b ↔ Covers s.mem.free_blocks b ∨ Takes alignment a b) :
    Ok size alignment ⟨{ s.mem with free_blocks := blocks }, s.live.erase a⟩ := by
  have hperm := perm_cons_erase ha
  have hmem {a' : Int × Nat} (ha' : a' ∈ s.live.erase a) : a' ∈ s.live := mem_of_mem_erase ha'
  have hdisjoint := (hperm.pairwise_iff fun {x y} hxy b hy hx => hxy b hx hy).mp h.disjoint
  obtain ⟨hapart, -⟩ := pairwise_cons.mp hdisjoint
  refine ⟨h.size_eq, h.alignment_eq, hsep, fun b => ?_, fun a' ha' => h.live a' (hmem ha'),
    h.disjoint.sublist erase_sublist, fun a' ha' => h.zero a' (hmem ha')⟩
  have hin : Takes alignment a b → 0 ≤ b ∧ b < size := by
    intro hb
    obtain hzero | hpos := Nat.eq_zero_or_pos a.2
    · exact absurd hb (not_takes_zero hzero b)
    · have halive := h.live a ha hpos
      unfold Takes at hb
      omega
  have hall : (∀ a' ∈ s.live, ¬ Takes alignment a' b) ↔
      ¬ Takes alignment a b ∧ ∀ a' ∈ s.live.erase a, ¬ Takes alignment a' b := by
    refine Iff.trans ?_ (forall_mem_cons (p := fun a' => ¬ Takes alignment a' b))
    exact forall_congr' fun a' => by rw [hperm.mem_iff]
  rw [hcovers, h.covers]
  unfold FreeByte
  dsimp only
  rw [h.alignment_eq, h.size_eq, hall]
  constructor
  · rintro (⟨hfirst, hlast, -, hothers⟩ | hb)
    · exact ⟨hfirst, hlast, hothers⟩
    · obtain ⟨hfirst, hlast⟩ := hin hb
      exact ⟨hfirst, hlast, fun a' ha' => hapart a' ha' b hb⟩
  · rintro ⟨hfirst, hlast, hothers⟩
    by_cases hb : Takes alignment a b
    exacts [Or.inr hb, Or.inl ⟨hfirst, hlast, hb, hothers⟩]

omit hpos hmax hdvd in
theorem Ok.free_zero {offset : Int} (hoffset : offset = toOff (size + zeroSizeInstanceOffset)) :
    s.mem.freeBytesLocal offset 0 = .ok s.mem := by
  unfold MemoryImpl.freeBytesLocal
  rw [if_pos rfl, hoffset, ofInt_toOff, h.size_eq, if_pos rfl]
  rfl

theorem Ok.free (ha : a ∈ s.live) :
    ∃ mem, s.mem.freeBytesLocal a.1 a.2 = .ok mem ∧ Ok size alignment ⟨mem, s.live.erase a⟩ := by
  obtain hzero | hrequest := Nat.eq_zero_or_pos a.2
  · rw [hzero]
    exact ⟨s.mem, h.free_zero (h.zero a ha hzero), h.pop ha h.separated fun b =>
      (or_iff_left (not_takes_zero hzero b)).symm⟩
  · obtain ⟨hfirst, hlast, -⟩ := h.live a ha hrequest
    have hle := le_rounded alignment a.2
    have hpad := pad_eq s.mem (h.alignment_lt hpos hmax hdvd) a.2
    rw [h.alignment_eq] at hpad
    have hfits : Fits s.mem.free_blocks a.1 (rounded alignment a.2) := by
      refine h.separated.fits (by omega) fun b hb hb' hcovered => ?_
      obtain ⟨-, -, hothers⟩ := (h.covers b).mp hcovered
      rw [h.alignment_eq] at hothers
      exact hothers a ha ⟨hb, hb'⟩
    obtain ⟨blocks, hret, hsep, hcovers⟩ := MemoryImpl.free_bytes_local_ok h.separated (by omega)
      (fun e he => h.block_in he) (ne_of_gt hrequest) hpad hfits hfirst hlast
    exact ⟨_, hret, h.pop ha hsep hcovers⟩

theorem Ok.refines : s.Refines := by
  refine ⟨h.separated, h.covers, fun request hrequest _ hconv => h.allocatesHighest hpos hmax hdvd
    hrequest hconv, fun a ha => ?_, by rw [MemoryImpl.alloc_zero], ?_⟩
  · obtain ⟨mem, hret, -⟩ := h.free hpos hmax hdvd ha
    exact ⟨mem, hret⟩
  · rw [MemoryImpl.alloc_zero, h.free_zero (by rw [h.size_eq])]

theorem Step.ok {s' : MemoryState} {c : MemoryCall} (hstep : Step s c s')
    (hconv : ∀ request, c = .alloc request → s.Converts request) : s'.Ok size alignment := by
  cases hstep with
  | alloc _ => exact h.alloc hpos hmax hdvd (hconv _ rfl)
  | @free mem offset request ha hret =>
    obtain ⟨mem', hret', hok⟩ := h.free hpos hmax hdvd ha
    obtain rfl : mem = mem' := Except.ok.inj (hret.symm.trans hret')
    exact hok

end Memory

/-- **The allocator refines the set of free bytes** in every run whose requests are an `off_t` when
they are rounded, or are compared with no block that looks long enough. -/
theorem refines_of_converts {size alignment : Nat} (hpos : 0 < size) (hmax : size < 2 ^ 63)
    (hdvd : max 1 alignment ∣ size)
    {s : MemoryState}
    (hs : (memory size alignment).RunsWith (fun s c => ∀ request, c = .alloc request →
      s.Converts request) s) :
    s.Refines :=
  (hs.invariant
    (fun s hs => by
      obtain rfl : s = init size alignment := hs
      exact ok_init hpos hmax)
    fun s c s' hok hconv hstep => Step.ok hpos hmax hdvd hok hstep hconv).refines hpos hmax hdvd

/-- Bytes 32 to 63 are given out for 20 bytes and bytes 16 to 31 for 16, and the former are freed
again. -/
theorem refines_freed :
    (⟨{ size := 64, alignment := 16, free_blocks := [(0, 16), (32, 32)] },
    [(16, 16)]⟩ : MemoryState).Refines := by
  refine refines_of_converts (show 0 < 64 by decide) (by decide) (show max 1 16 ∣ 64 by decide) ?_
  have hfirst :
    (memory 64 16).RunsWith (fun s c => ∀ request, c = .alloc request → s.Converts request)
      ((init 64 16).alloc 20) := by
    refine .step (.init rfl) (fun request hrequest => ?_) (Step.alloc (by decide))
    cases hrequest
    exact .inl (by decide)
  have hsecond :
    (memory 64 16).RunsWith (fun s c => ∀ request, c = .alloc request → s.Converts request)
      (((init 64 16).alloc 20).alloc 16) := by
    refine .step hfirst (fun request hrequest => ?_) (Step.alloc (by decide))
    cases hrequest
    exact .inl (by decide)
  have hfree :
    Step (((init 64 16).alloc 20).alloc 16) (.free 32 20)
      ⟨⟨64, 16, [(0, 16), (32, 32)]⟩, [(16, 16)]⟩ :=
    Step.free (by decide) (by rfl)
  exact .step hsecond (fun _ hrequest => by cases hrequest) hfree

/-- A request of 2^63 bytes gets an offset in a memory of 16. -/
theorem not_allocatesHighest :
    (memory 16 1).Reachable (init 16 1) ∧ 2 ^ 63 < 2 ^ 64 ∧
    ¬ (init 16 1).AllocatesHighest (2 ^ 63) := by
  refine ⟨.init rfl, by decide, fun ⟨hnone, _⟩ => ?_⟩
  have hret : ((init 16 1).mem.allocBytesLocal (2 ^ 63)).1 ≠ -1 := by decide
  refine hret (hnone.mpr ?_)
  rintro ⟨offset, hrun⟩
  have hround : rounded (init 16 1).mem.alignment (2 ^ 63) = 2 ^ 63 := by decide
  have hsize : ((init 16 1).mem.size) = 16 := rfl
  obtain ⟨hfirst, -, -⟩ := hrun offset (le_refl _) (by omega)
  obtain ⟨-, hlast, -⟩ := hrun (offset + 16) (by omega) (by omega)
  omega

end MemoryState

end CharmRuntime.Legion
