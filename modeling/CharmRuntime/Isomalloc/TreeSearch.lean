import CharmRuntime.Isomalloc.Blocks

/-!
# Isomalloc.TreeSearch

**The search in a node of the B-tree** (`conv-core/isomalloc.c`). `find_btree_slotblock`,
`btree_insert_int` and `btree_delete_int` begin in the middle and halve their step down to 1. The
step never leads out of the node, as twice the step is never more than what is left on either side,
and two more (`loop_spec`).

`find_btree_slotblock` looks for a block with the slot, the others compare the starts only
(`tree_search_place`).
-/

namespace CharmRuntime.Isomalloc.TreeSearch

open Option

/-- `blocks[index]`. No value: it is not in the node. -/
def blockAt (blocks : Blocks) (index : Int) :
    Option SlotBlock := if index < 0 then none else blocks[index.toNat]?

/-- Where a search ends. -/
inductive Position
  | block (index : Int)
  | child (index : Int)
  deriving DecidableEq

/-- A block ends the search when it is `found`. The search goes on to the left when the slot is not
behind the `bound` of the block there. -/
structure Search where
  found : SlotBlock → Int → Bool
  bound : SlotBlock → Int

def findBtreeSlotblock : Search where
  found b startslot := startslot ≥ b.startslot && startslot ≤ b.startslot + b.nslots - 1
  bound b := b.startslot + b.nslots - 1

def btreeInsertInt : Search where
  found _ _ := false
  bound b := b.startslot

def btreeDeleteInt : Search where
  found b startslot := startslot == b.startslot
  bound b := b.startslot

inductive Turn
  | stop (p : Position)
  | left
  | right

namespace Search

/-- A round of the search. -/
def turn (s : Search) (blocks : Blocks) (startslot index : Int) : Option Turn := do
  let b ← blockAt blocks index
  if s.found b startslot then some (.stop (.block index))
  else if startslot < b.startslot then
    if index = 0 then some (.stop (.child index))
    else do
      let l ← blockAt blocks (index - 1)
      if startslot > s.bound l then some (.stop (.child index)) else some .left
  else if index = blocks.length - 1 then some (.stop (.child (index + 1)))
  else do
    let r ← blockAt blocks (index + 1)
    if startslot < r.startslot then some (.stop (.child (index + 1))) else some .right

def loop (s : Search) (blocks : Blocks) (startslot : Int) : Nat → Int → Int → Option Position
  | 0, _, _ => none
  | fuel + 1, index, inc => do
      match ← s.turn blocks startslot index with
      | .stop p => some p
      | .left => s.loop blocks startslot fuel (index - inc) (if inc / 2 = 0 then 1 else inc / 2)
      | .right => s.loop blocks startslot fuel (index + inc) (if inc / 2 = 0 then 1 else inc / 2)

/-- The search of a node, in at most two rounds for each block. -/
def run (s : Search) (blocks : Blocks) (startslot : Int) : Option Position :=
  let index : Int := blocks.length / 2
  s.loop blocks startslot (2 * blocks.length) index (index / 2 + blocks.length % 2)

end Search

/-! ### Places -/

/-- The place of a slot, where a block goes up to its slot `last`. -/
def Place (last : SlotBlock → Int) (blocks : Blocks) (slot : Int) : Position → Prop
  | .block i => ∃ b, blockAt blocks i = some b ∧ b.startslot ≤ slot ∧ slot ≤ last b
  | .child g => 0 ≤ g ∧ g ≤ blocks.length ∧
      ∀ i b, blockAt blocks i = some b → (i < g → last b < slot) ∧ (g ≤ i → slot < b.startslot)

variable {blocks : Blocks} {i j slot : Int} {b c : SlotBlock}

theorem exists_blockAt (h0 : 0 ≤ i) (h : i < blocks.length) : ∃ b, blockAt blocks i = some b := by
  rw [blockAt, if_neg (by omega)]
  exact ⟨_, List.getElem?_eq_getElem (by omega)⟩

theorem blockAt_bounds (h : blockAt blocks i = some b) :
    0 ≤ i ∧ i < blocks.length ∧ b ∈ blocks := by
  rw [blockAt] at h
  split at h
  · cases h
  · obtain ⟨hlt, -⟩ := getElem?_eq_some_iff.mp h
    exact ⟨by omega, by omega, List.mem_of_getElem? h⟩

theorem blockAt_apart {R : SlotBlock → SlotBlock → Prop} (h : blocks.Pairwise R)
    (hb : blockAt blocks i = some b)
    (hc : blockAt blocks j = some c) (hij : i < j) : R b c := by
  have hi := blockAt_bounds hb
  rw [blockAt, if_neg (by omega)] at hb hc
  obtain ⟨hlt, rfl⟩ := getElem?_eq_some_iff.mp hb
  obtain ⟨hlt', rfl⟩ := getElem?_eq_some_iff.mp hc
  exact List.pairwise_iff_getElem.mp h _ _ hlt hlt' (by omega)

/-- What a search compares shows where the blocks end, for a search in which they go up to `last`.
-/
structure Search.Sound (s : Search) (last : SlotBlock → Int) (blocks : Blocks) : Prop where
  found : ∀ b ∈ blocks, ∀ slot, s.found b slot = true ↔ b.startslot ≤ slot ∧ slot ≤ last b
  ends : ∀ b ∈ blocks, b.startslot ≤ last b + 1 ∧ last b ≤ s.bound b
  apart : blocks.Pairwise fun b c => last b < c.startslot ∧ b.startslot < c.startslot

variable {s : Search} {last : SlotBlock → Int}

theorem Search.Sound.exists_gap (h : s.Sound last blocks) (slot : Int) :
    ∃ g : Int, 0 ≤ g ∧ g ≤ blocks.length ∧
    ∀ i b, blockAt blocks i = some b → (b.startslot ≤ slot ↔ i < g) := by
  refine ⟨blocks.findIdx (slot < ·.startslot), by omega, by exact_mod_cast List.findIdx_le_length,
    fun i b hb => ?_⟩
  obtain ⟨h0, hlt, -⟩ := blockAt_bounds hb
  constructor
  · intro _
    by_contra hge
    obtain ⟨c, hc⟩ :=
      @exists_blockAt blocks (blocks.findIdx (slot < ·.startslot)) (by omega) (by omega)
    have hgt : slot < c.startslot := by
      obtain ⟨hin, rfl⟩ := getElem?_eq_some_iff.mp hc
      exact of_decide_eq_true (List.findIdx_getElem (w := hin))
    obtain heq | hgap := eq_or_lt_of_le (not_lt.mp hge)
    · rw [heq, hb] at hc
      cases hc
      omega
    · have hapart := (blockAt_apart h.apart hc hb hgap).2
      omega
  · intro hi
    rw [blockAt, if_neg (by omega)] at hb
    obtain ⟨hin, rfl⟩ := getElem?_eq_some_iff.mp hb
    have hlt : i.toNat < blocks.findIdx (slot < ·.startslot) := by omega
    exact not_lt.mp (of_decide_eq_false (List.not_of_lt_findIdx hlt))

theorem Search.Sound.place_unique (h : s.Sound last blocks) {p q : Position}
    (hp : Place last blocks slot p)
    (hq : Place last blocks slot q) : p = q := by
  have hchild {i g : Int} {b : SlotBlock} (hb : blockAt blocks i = some b)
    (hstart : b.startslot ≤ slot) (hlast : slot ≤ last b) :
      ¬ Place last blocks slot (.child g) := by
    rintro ⟨-, -, hg⟩
    obtain ⟨hbefore, hbehind⟩ := hg i b hb
    obtain hi | hi := lt_or_ge i g
    · omega
    · omega
  have hgaps {g g' : Int} (hp : Place last blocks slot (.child g))
    (hq : Place last blocks slot (.child g')) : ¬ g < g' := by
    intro hlt
    obtain ⟨h0, -, hg⟩ := hp
    obtain ⟨-, hle, hg'⟩ := hq
    obtain ⟨b, hb⟩ := exists_blockAt h0 (lt_of_lt_of_le hlt hle)
    have hbehind := (hg g b hb).2 (le_refl g)
    have hbefore := (hg' g b hb).1 hlt
    have hlast := (h.ends b (blockAt_bounds hb).2.2).1
    omega
  have hblocks {i j : Int} {b c : SlotBlock} (hb : blockAt blocks i = some b)
    (hlast : slot ≤ last b)
      (hc : blockAt blocks j = some c) (hstart : c.startslot ≤ slot) : ¬ i < j := by
    intro hlt
    have hapart := (blockAt_apart h.apart hb hc hlt).1
    omega
  cases p with
  | block i =>
    obtain ⟨b, hb, hstart, hlast⟩ := hp
    cases q with
    | block j =>
      obtain ⟨c, hc, hstart', hlast'⟩ := hq
      exact congrArg _
        (le_antisymm (not_lt.mp (hblocks hc hlast' hb hstart))
          (not_lt.mp (hblocks hb hlast hc hstart')))
    | child g => exact absurd hq (hchild hb hstart hlast)
  | child g =>
    cases q with
    | block j =>
      obtain ⟨c, hc, hstart, hlast⟩ := hq
      exact absurd hp (hchild hc hstart hlast)
    | child g' => exact congrArg _ (le_antisymm (not_lt.mp (hgaps hq hp)) (not_lt.mp (hgaps hp hq)))

/-! ### The rounds -/

namespace Search

theorem Sound.turn_before (h : s.Sound last blocks) (hb : blockAt blocks i = some b)
    (hlt : slot < b.startslot) :
    s.turn blocks slot i = if i = 0 then some (.stop (.child i)) else
      (blockAt blocks (i - 1)).bind fun l =>
      if slot > s.bound l then some (.stop (.child i)) else some .left := by
  have hnot : ¬ s.found b slot = true := fun hfound =>
    absurd ((h.found b (blockAt_bounds hb).2.2 slot).mp hfound).1 (not_le.mpr hlt)
  rw [turn, hb, bind_eq_bind, bind_some, if_neg hnot, if_pos hlt]

theorem Sound.turn_behind (h : s.Sound last blocks) (hb : blockAt blocks i = some b)
    (hstart : b.startslot ≤ slot)
    (hlast : last b < slot) :
    s.turn blocks slot i = if i = blocks.length - 1 then some (.stop (.child (i + 1)))
      else (blockAt blocks (i + 1)).bind fun r =>
        if slot < r.startslot then some (.stop (.child (i + 1))) else some .right := by
  have hnot : ¬ s.found b slot = true := fun hfound =>
    absurd ((h.found b (blockAt_bounds hb).2.2 slot).mp hfound).2 (not_le.mpr hlast)
  rw [turn, hb, bind_eq_bind, bind_some, if_neg hnot, if_neg (not_lt.mpr hstart)]

/-- What the rounds of a search for `p` do, when `g` blocks start at the slot or before it. -/
structure Leads (s : Search) (blocks : Blocks) (slot g : Int) (p : Position) : Prop where
  right : ∀ i, 0 ≤ i → i + 1 < g → s.turn blocks slot i = some .right
  left : ∀ i, g < i → i < blocks.length → s.turn blocks slot i = some .left
  stop : ∀ i, 0 ≤ i → i + 1 = g → s.turn blocks slot i = some (.stop p)
  edge : g < blocks.length → s.turn blocks slot g = some (.stop p) ∨ 0 < g ∧
    s.turn blocks slot g = some .left

/-- A sound search can be led to a place of the slot. -/
theorem Sound.leads (h : s.Sound last blocks) (slot : Int) :
    ∃ (g : Int) (p : Position), 0 ≤ g ∧ g ≤ blocks.length ∧
    Place last blocks slot p ∧ s.Leads blocks slot g p := by
  obtain ⟨g, h0, hn, hg⟩ := h.exists_gap slot
  have hright : ∀ i, 0 ≤ i → i + 1 < g → s.turn blocks slot i = some .right := by
    intro i hi hlt
    obtain ⟨b, hb⟩ := exists_blockAt hi (show i < blocks.length by omega)
    obtain ⟨r, hr⟩ := exists_blockAt (show 0 ≤ i + 1 by omega) (show i + 1 < blocks.length by omega)
    have hstart := (hg _ r hr).mpr hlt
    have hapart := (blockAt_apart h.apart hb hr (by omega)).1
    rw [h.turn_behind hb ((hg i b hb).mpr (by omega)) (by omega), if_neg (by omega), hr, bind_some,
      if_neg (by omega)]
  have hbefore {i : Int} {b : SlotBlock} (hb : blockAt blocks i = some b) (hge : g ≤ i) :
    slot < b.startslot :=
    not_le.mp fun hle => absurd ((hg i b hb).mp hle) (by omega)
  have hleft : ∀ i, g < i → i < blocks.length → s.turn blocks slot i = some .left := by
    intro i hlt hi
    obtain ⟨b, hb⟩ := exists_blockAt (show 0 ≤ i by omega) hi
    obtain ⟨l, hl⟩ := exists_blockAt (show 0 ≤ i - 1 by omega) (show i - 1 < blocks.length by omega)
    have hends := h.ends l (blockAt_bounds hl).2.2
    have hstart := hbefore hl (by omega)
    rw [h.turn_before hb (hbefore hb (by omega)), if_neg (by omega), hl, bind_some,
      if_neg (by omega)]
  by_cases hcover : ∃ b, blockAt blocks (g - 1) = some b ∧ slot ≤ last b
  · -- The block before the gap has the slot.
    obtain ⟨b, hb, hlast⟩ := hcover
    have hbounds := blockAt_bounds hb
    have hstart := (hg _ b hb).mpr (by omega)
    refine ⟨g, .block (g - 1), h0, hn, ⟨b, hb, hstart, hlast⟩, hright, hleft, fun i hi heq => ?_,
      fun hlt => ?_⟩
    · obtain rfl : i = g - 1 := by omega
      rw [turn, hb, bind_eq_bind, bind_some,
        if_pos ((h.found b hbounds.2.2 slot).mpr ⟨hstart, hlast⟩)]
    · obtain ⟨c, hc⟩ := exists_blockAt h0 hlt
      have hends := h.ends b hbounds.2.2
      refine .inr ⟨by omega, ?_⟩
      rw [h.turn_before hc (hbefore hc (le_refl g)), if_neg (by omega), hb, bind_some,
        if_neg (by omega)]
  · have hbehind {i : Int} {b : SlotBlock} (hb : blockAt blocks i = some b) (hlt : i < g) :
      last b < slot := by
      obtain heq | hlt := eq_or_lt_of_le (show i ≤ g - 1 by omega)
      · subst heq
        exact not_le.mp fun hle => hcover ⟨b, hb, hle⟩
      · obtain ⟨l, hl⟩ :=
          exists_blockAt (show 0 ≤ g - 1 by have := blockAt_bounds hb; omega)
            (show g - 1 < blocks.length by omega)
        have hstart := (hg _ l hl).mpr (by omega)
        have hapart := (blockAt_apart h.apart hb hl hlt).1
        omega
    refine ⟨g, .child g, h0, hn, ⟨h0, hn, fun i b hb => ⟨hbehind hb, hbefore hb⟩⟩, hright, hleft,
      fun i hi heq => ?_, fun hlt => ?_⟩
    · obtain ⟨b, hb⟩ := exists_blockAt hi (show i < blocks.length by omega)
      rw [h.turn_behind hb ((hg i b hb).mpr (by omega)) (hbehind hb (by omega)), heq]
      split
      · rfl
      · obtain ⟨r, hr⟩ := exists_blockAt h0 (show g < blocks.length by omega)
        rw [hr, bind_some, if_pos (hbefore hr (le_refl g))]
    · obtain ⟨c, hc⟩ := exists_blockAt h0 hlt
      rw [h.turn_before hc (hbefore hc (le_refl g))]
      split
      · exact .inl rfl
      · obtain ⟨l, hl⟩ :=
          exists_blockAt (show 0 ≤ g - 1 by omega) (show g - 1 < blocks.length by omega)
        rw [hl, bind_some]
        split
        · exact .inl rfl
        · exact .inr ⟨by omega, rfl⟩

theorem Leads.loop_spec {g : Int} {p : Position} (h : s.Leads blocks slot g p) (h0 : 0 ≤ g)
    (hn : g ≤ blocks.length)
    {fuel : Nat} {index inc : Int} (hi0 : 0 ≤ index) (hin : index < blocks.length) (hinc : 0 ≤ inc)
    (hleft : 2 * inc ≤ index + 2) (hright : 2 * inc ≤ blocks.length - index + 1)
    (hfuel : inc ≤ 1 ∧ index - g + 2 < fuel + inc ∧ g - index < fuel + inc ∨ 1 ≤ inc ∧
      inc + blocks.length ≤ fuel) :
    s.loop blocks slot fuel index inc = some p := by
  induction fuel generalizing index inc with
  | zero => omega
  | succ fuel ih =>
    have hgoLeft (hge : g ≤ index) (hpos : 0 < index)
      (hturn : s.turn blocks slot index = some .left) :
        s.loop blocks slot (fuel + 1) index inc = some p := by
      rw [loop, hturn]
      exact ih (by omega) (by omega) (by omega) (by omega) (by omega) (by omega)
    obtain hlt | heq | heq | hgt : index + 1 < g ∨ index + 1 = g ∨ index = g ∨ g < index := by omega
    · rw [loop, h.right index hi0 hlt]
      exact ih (by omega) (by omega) (by omega) (by omega) (by omega) (by omega)
    · rw [loop, h.stop index hi0 heq]
      rfl
    · subst heq
      obtain hstop | ⟨hpos, hturn⟩ := h.edge hin
      · rw [loop, hstop]
        rfl
      · exact hgoLeft (le_refl index) hpos hturn
    · exact hgoLeft (le_of_lt hgt) (by omega) (h.left index hgt hin)

/-- **A search ends at the place of the slot**, and reads blocks of the node only. -/
theorem Sound.run_eq_some_iff (h : s.Sound last blocks) (hne : blocks ≠ []) (slot : Int) :
    (∃ p, s.run blocks slot = some p) ∧ ∀ p, s.run blocks slot = some p ↔
    Place last blocks slot p := by
  obtain ⟨g, p, h0, hn, hplace, hleads⟩ := h.leads slot
  have hpos := List.length_pos_iff.mpr hne
  have hrun : s.run blocks slot = some p :=
    hleads.loop_spec h0 hn (by omega) (by omega) (by omega) (by omega) (by omega) (by omega)
  refine ⟨⟨p, hrun⟩, fun q => ⟨fun hq => ?_, fun hq => ?_⟩⟩
  · rwa [← some.inj (hrun.symm.trans hq)]
  · rw [hrun, h.place_unique hplace hq]

end Search

/-! ### The three searches -/

/-- The blocks of a node are in order and have no slot in common. -/
structure Sorted (blocks : Blocks) : Prop where
  nslots : ∀ b ∈ blocks, 0 < b.nslots
  apart : blocks.Pairwise fun b c => b.startslot + b.nslots ≤ c.startslot

/-- The last slot of a block. -/
def endslot (b : SlotBlock) : Int := b.startslot + b.nslots - 1

/-- Each search has its own view of where a block ends: at its last slot, at its first one or before
it. -/
theorem Sorted.sound (h : Sorted blocks) : findBtreeSlotblock.Sound endslot blocks ∧
    btreeInsertInt.Sound (·.startslot - 1) blocks ∧ btreeDeleteInt.Sound (·.startslot) blocks := by
  have hstart {b c : SlotBlock} (hb : b ∈ blocks) (hle : b.startslot + b.nslots ≤ c.startslot) :
      b.startslot < c.startslot := by
    have hpos := h.nslots b hb
    omega
  refine ⟨⟨fun b _ slot => ?_, fun b hb => ?_, ?_⟩, ⟨fun b _ slot => ?_, fun b _ => ?_, ?_⟩,
    ⟨fun b _ slot => ?_, fun b _ => ?_, ?_⟩⟩
  · rw [findBtreeSlotblock, Bool.and_eq_true, decide_eq_true_iff, decide_eq_true_iff]
    rfl
  · have hpos := h.nslots b hb
    rw [endslot]
    exact ⟨by omega, le_refl _⟩
  · refine h.apart.imp_of_mem fun {b c} hb _ hle => ⟨?_, hstart hb hle⟩
    rw [endslot]
    omega
  · exact iff_of_false (by simp [btreeInsertInt]) (by omega)
  · exact ⟨by omega, show b.startslot - 1 ≤ b.startslot by omega⟩
  · refine h.apart.imp_of_mem fun {b c} hb _ hle => ⟨?_, hstart hb hle⟩
    have hlt := hstart hb hle
    omega
  · rw [btreeDeleteInt, beq_iff_eq]
    omega
  · exact ⟨by omega, le_refl b.startslot⟩
  · exact h.apart.imp_of_mem fun {b c} hb _ hle => ⟨hstart hb hle, hstart hb hle⟩

theorem place_endslot (hlast : ∀ b ∈ blocks, b.startslot ≤ last b + 1 ∧ last b ≤ endslot b)
    (hslot : ∀ b ∈ blocks, ¬ b.Covers slot) {p : Position} (hp : Place last blocks slot p) :
    Place endslot blocks slot p := by
  cases p with
  | block i =>
    obtain ⟨b, hb, hstart, hle⟩ := hp
    exact ⟨b, hb, hstart, le_trans hle (hlast b (blockAt_bounds hb).2.2).2⟩
  | child g =>
    obtain ⟨h0, hn, hg⟩ := hp
    refine ⟨h0, hn, fun i b hb => ⟨fun hi => not_le.mp fun hle => ?_, (hg i b hb).2⟩⟩
    have hmem := (blockAt_bounds hb).2.2
    have hbehind := (hg i b hb).1 hi
    have hstart := (hlast b hmem).1
    exact hslot b hmem ⟨by omega, hle⟩

/-- **The searches end, in the node, at the one place that they look for**: `find_btree_slotblock`
at the block with the slot, `btree_delete_int` at the block that starts with it, and all of them
else at the child between the blocks that start before the slot and those that start after it. -/
theorem tree_search_place (h : Sorted blocks) (hne : blocks ≠ []) (slot : Int) :
    ((∃ p, findBtreeSlotblock.run blocks slot = some p) ∧
      ∀ p, findBtreeSlotblock.run blocks slot = some p ↔ Place endslot blocks slot p) ∧
    ((∃ p, btreeInsertInt.run blocks slot = some p) ∧
      ∀ p, btreeInsertInt.run blocks slot = some p ↔ Place (·.startslot - 1) blocks slot p) ∧
    ((∃ p, btreeDeleteInt.run blocks slot = some p) ∧
      ∀ p, btreeDeleteInt.run blocks slot = some p ↔ Place (·.startslot) blocks slot p) ∧
    ((∀ b ∈ blocks, ¬ b.Covers slot) →
      btreeInsertInt.run blocks slot = findBtreeSlotblock.run blocks slot ∧
        btreeDeleteInt.run blocks slot = findBtreeSlotblock.run blocks slot) := by
  obtain ⟨hfind, hinsert, hdelete⟩ := h.sound
  have hfinds := hfind.run_eq_some_iff hne slot
  have hinserts := hinsert.run_eq_some_iff hne slot
  have hdeletes := hdelete.run_eq_some_iff hne slot
  refine ⟨hfinds, hinserts, hdeletes, fun hslot => ⟨?_, ?_⟩⟩
  · obtain ⟨p, hp⟩ := hinserts.1
    rw [hp, (hfinds.2 p).mpr]
    exact place_endslot (fun b hb => ⟨by omega, Int.sub_le_sub_right
      (Int.le_add_of_nonneg_right (le_of_lt (h.nslots b hb))) 1⟩) hslot ((hinserts.2 p).mp hp)
  · obtain ⟨p, hp⟩ := hdeletes.1
    rw [hp, (hfinds.2 p).mpr]
    refine place_endslot (fun b hb => ⟨by omega, ?_⟩) hslot ((hdeletes.2 p).mp hp)
    have hpos := h.nslots b hb
    rw [endslot]
    omega

/-- A node with five blocks. -/
def fiveBlocks : Blocks := [⟨0, 2⟩, ⟨4, 3⟩, ⟨10, 1⟩, ⟨12, 5⟩, ⟨20, 2⟩]

theorem sorted_fiveBlocks : Sorted fiveBlocks := ⟨by decide, by decide⟩

/-- The searches for slot 5 turn left at block 2 and right at block 0. Only `find_btree_slotblock`
ends at the block with it; slot 8 is in no block. -/
theorem tree_search_place_fiveBlocks :
    (findBtreeSlotblock.run fiveBlocks 5 = some (.block 1) ∧
      ∀ p, findBtreeSlotblock.run fiveBlocks 5 = some p ↔ Place endslot fiveBlocks 5 p) ∧
    (∀ p, btreeInsertInt.run fiveBlocks 5 = some p ↔ Place (·.startslot - 1) fiveBlocks 5 p) ∧
    (∀ p, btreeDeleteInt.run fiveBlocks 5 = some p ↔ Place (·.startslot) fiveBlocks 5 p) ∧
    btreeInsertInt.run fiveBlocks 8 = findBtreeSlotblock.run fiveBlocks 8 ∧
      btreeDeleteInt.run fiveBlocks 8 = findBtreeSlotblock.run fiveBlocks 8 := by
  obtain ⟨hfind, hinsert, hdelete, -⟩ := tree_search_place sorted_fiveBlocks (by decide) 5
  obtain ⟨-, -, -, hgap⟩ := tree_search_place sorted_fiveBlocks (by decide) 8
  refine ⟨⟨(hfind.2 _).mpr ⟨⟨4, 3⟩, rfl, by decide, by decide⟩, hfind.2⟩, hinsert.2, hdelete.2,
    hgap fun b hb => ?_⟩
  simp only [fiveBlocks, List.mem_cons, List.not_mem_nil, or_false] at hb
  obtain rfl | rfl | rfl | rfl | rfl := hb <;> simp [SlotBlock.Covers]

theorem sorted_singleton : Sorted [⟨0, 2⟩] := ⟨by simp, List.pairwise_singleton _ _⟩

/-- Slot 1 is in the block, and `btree_insert_int` takes it for one behind the block. -/
theorem not_tree_search_place : ¬ ∀ blocks, Sorted blocks → blocks ≠ [] → ∀ slot : Int, 0 ≤ slot →
    ∀ s ∈ [findBtreeSlotblock, btreeInsertInt, btreeDeleteInt],
      ∃ p, s.run blocks slot = some p ∧ Place endslot blocks slot p := by
  intro hclaim
  obtain ⟨p, hrun, hp⟩ :=
    hclaim [⟨0, 2⟩] sorted_singleton (by decide) 1 (by decide) btreeInsertInt (by simp)
  obtain rfl : .child 1 = p := some.inj hrun
  exact absurd ((hp.2.2 0 ⟨0, 2⟩ rfl).1 (by decide)) (by decide)

end CharmRuntime.Isomalloc.TreeSearch
