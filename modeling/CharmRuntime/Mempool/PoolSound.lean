import CharmRuntime.Mempool.PoolSteps

/-!
# Mempool.PoolSound

Runs of a pool. Without a limit no block is ever given back, and the slots of every block stay
a tiling of it (`Tiled`). With a limit, `removeblocks` takes a block for idle if the count of its
header is 0. That count adds up classes, and the class of the smallest slots is 0; `Spares` says
when this does no harm.
-/

namespace CharmRuntime.Mempool

open Lib List

/-! ### Blocks that are given back -/

namespace MempoolWorld

/-- No allocation of the block has more than 32 bytes. -/
def looksIdle (w : MempoolWorld) (c : Int × Nat) : Bool := (w.liveIn c).all (·.size ≤ 32)

/-- The loop of `removeblocks` comes to the block before the pool is below its limit. -/
def Reached (w : MempoolWorld) (c : Int × Nat) : Prop :=
  ∃ l₁ l₂, w.owned.tail = l₁ ++ c :: l₂ ∧ (l₁.filter w.looksIdle = [] ∨
    w.pool.limit + ((l₁.filter w.looksIdle).map (·.2)).sum ≤ w.pool.size)

/-- If the call gets to `removeblocks`, every block that its loop comes to has no allocation, or
one of more than 32 bytes. -/
def Spares (w : MempoolWorld) : MempoolEvent → Prop
  | .malloc size _ =>
    NoSlot w.owned w.pool (whichPow2 (size + sizeofUsedHeader)) → w.pool.limit < w.pool.size →
    0 < w.pool.limit →
      ∀ c, w.Reached c → w.looksIdle c = true → w.liveIn c = []
  | _ => True

end MempoolWorld

theorem usedSum_eq_zero {ts : List Tile} :
    usedSum ts = 0 ↔ ∀ t ∈ ts, t.free = false → t.cls = 0 := by
  rw [usedSum, List.sum_eq_zero_iff_forall_eq_nat]
  simp only [mem_map, mem_filter]
  constructor
  · exact fun h t ht hfree => h t.cls ⟨t, ⟨ht, by rw [hfree]; rfl⟩, rfl⟩
  · rintro h k ⟨t, ⟨ht, hfree⟩, rfl⟩
    exact h t ht (by simpa using hfree)

namespace WorldInv

variable {tiles : Int → List Tile} {w : MempoolWorld}

variable {c : Int × Nat}

theorem live_of_tile (h : WorldInv tiles w) (hc : c ∈ w.owned) {t : Tile} (ht : t ∈ tiles c.1)
    (hfree : t.free = false) : ∃ a ∈ w.liveIn c, whichPow2 (a.size + sizeofUsedHeader) = t.cls := by
  obtain ⟨l₁, l₂, hsplit⟩ := append_of_mem ht
  have hused : UsedSlot tiles c (c.1 + headerOf c.1 + tileBytes l₁) t.cls := by
    have ht' : t = Tile.mk t.cls false := by rw [← hfree]
    rw [UsedSlot, hsplit, ← ht']
    exact mem_place_middle
  obtain ⟨a, ha, hptr⟩ := h.used_live c hc _ _ hused
  rw [eq_sub_iff_add_eq.mpr hptr.symm] at hused
  obtain ⟨d, hd, hused'⟩ := h.live_used a ha
  obtain ⟨-, hcls⟩ := h.blocks.used_unique hc hd hused hused'
  exact ⟨a, mem_filter.mpr ⟨ha, h.inBlock_of_used hc hused⟩, hcls.symm⟩

theorem used_eq_zero_iff (h : WorldInv tiles w) (hc : c ∈ w.owned) :
    (w.pool.blocks c.1).used = 0 ↔ w.looksIdle c = true := by
  have hfirst : cutOff 0 = 64 := rfl
  have hheader : sizeofUsedHeader = 32 := rfl
  rw [(h.blocks.block c hc).used, usedSum_eq_zero, MempoolWorld.looksIdle, all_eq_true]
  simp only [decide_eq_true_eq]
  constructor
  · intro hzero a ha
    obtain ⟨-, hused⟩ := h.used_of_inBlock hc ha
    have hclass : whichPow2 (a.size + sizeofUsedHeader) = 0 := hzero _ (mem_of_place hused) rfl
    have hfits : a.size + sizeofUsedHeader ≤ cutOff (whichPow2 (a.size + sizeofUsedHeader)) :=
      le_cutOff_whichPow2 (by rw [hclass]; decide)
    rw [hclass] at hfits
    omega
  · intro hsmall t ht hfree
    obtain ⟨a, hin, hcls⟩ := h.live_of_tile hc ht hfree
    have hsize := hsmall a hin
    by_contra hne
    have hlt := cutOff_lt_of_lt_whichPow2 (show 0 < whichPow2 (a.size + sizeofUsedHeader) by omega)
    omega

theorem reached_of_given (h : WorldInv tiles w) {given : List Int}
    (hgiven : GivenBack (w.owned.map (·.1)).tail given w.pool) (hc : c ∈ w.owned)
    (hmem : c.1 ∈ given) : w.Reached c ∧ w.looksIdle c = true := by
  refine ⟨?_, (h.used_eq_zero_iff hc).mp (hgiven.used hmem)⟩
  obtain ⟨g1, g2, hsplit⟩ := append_of_mem hmem
  have habove := hgiven.above g1 c.1 g2 hsplit
  obtain ⟨rest, hidle⟩ := hgiven.idle
  rw [hsplit, append_assoc, eq_comm, filter_eq_append_iff] at hidle
  obtain ⟨k1, k2, htail, hk1, hk2⟩ := hidle
  obtain ⟨k3, k4, rfl, hk3, -⟩ := filter_eq_cons_iff.mp hk2
  have hpassed : (k1 ++ k3).filter (fun b => (w.pool.blocks b).used = 0) = g1 := by
    rw [filter_append, hk1, filter_eq_nil_iff.mpr hk3, append_nil]
  rw [← map_tail, ← append_assoc, map_eq_append_iff] at htail
  obtain ⟨l₁, l₂, htail, hl1, hl2⟩ := htail
  obtain ⟨d, l3, rfl, hd, -⟩ := map_eq_cons_iff.mp hl2
  have hin : ∀ x ∈ l₁ ++ d :: l3, x ∈ w.owned := by
    intro x hx
    rw [← htail] at hx
    exact mem_of_mem_tail hx
  obtain rfl := h.blocks.eq_of_place (hin d (by simp)) hc hd
  have hplaces : (l₁.filter w.looksIdle).map (·.1) = g1 := by
    rw [← hpassed, ← hl1, filter_map]
    refine congrArg (map _) (filter_congr fun x hx => ?_)
    rw [Function.comp_apply, Bool.eq_iff_iff, decide_eq_true_iff]
    exact (h.used_eq_zero_iff (hin x (mem_append_left _ hx))).symm
  refine ⟨l₁, l3, htail, ?_⟩
  obtain rfl | habove := habove
  · exact .inl (map_eq_nil_iff.mp hplaces)
  · right
    rw [← hplaces, map_map] at habove
    rw [← map_congr_left fun x hx => ?_]
    · exact habove
    · have hx' := hin x (mem_append_left _ (mem_filter.mp hx).1)
      exact h.blocks.size_eq x hx'

theorem step (h : WorldInv tiles w) {e : MempoolEvent} {w' : MempoolWorld} (hspares : w.Spares e)
    (henabled : w.Enabled e) (hnext : w.next e = .ok w') (hapart : w'.owned.Pairwise Apart) :
    w'.pool.limit = w.pool.limit ∧ ∃ tiles', WorldInv tiles' w' := by
  cases e with
  | malloc size answer =>
    refine h.malloc henabled hnext hapart fun r hmalloced c hc hmem => ?_
    obtain ⟨hreached, hidle⟩ := h.reached_of_given hmalloced.given hc hmem
    obtain ⟨hnoslot, hover, hpos⟩ := hmalloced.dry (ne_nil_of_mem hmem)
    exact hspares hnoslot hover hpos c hreached hidle
  | free k =>
    obtain ⟨w'', hrun, -, hlimit, hinv⟩ := h.free henabled
    obtain rfl := Except.ok.inj (hrun.symm.trans hnext)
    exact ⟨hlimit, hinv⟩
  | write k slots =>
    obtain ⟨a, ha, hwrite⟩ := henabled
    obtain rfl := Except.ok.inj hnext
    exact ⟨rfl, tiles, h.write (mem_of_getElem? ha) hwrite⟩

end WorldInv

variable {w : MempoolWorld}

theorem runs_inv {poolSize limit : Nat} (hlow : sizeofMempoolType + 64 ≤ poolSize)
    (hhigh : poolSize ≤ sizeofMempoolType + 2 ^ 30)
    (hrun : (mempoolSystem poolSize limit).RunsWith MempoolWorld.Spares w) :
    w.pool.limit = limit ∧ ∃ tiles, WorldInv tiles w := by
  refine hrun.invariant (I := fun w => w.pool.limit = limit ∧ ∃ tiles, WorldInv tiles w) ?_ ?_
  · rintro w ⟨slots, blocks, pool, hinit, rfl⟩
    obtain ⟨pool', hinit', hlimit, hinv⟩ := mempoolInit_spec slots blocks limit hlow hhigh
    obtain rfl := Except.ok.inj (hinit'.symm.trans hinit)
    exact ⟨hlimit, _, hinv⟩
  · rintro w e w' ⟨hlimit, tiles, hinv⟩ hspares ⟨henabled, hnext, hapart⟩
    obtain ⟨hlimit', hinv'⟩ := hinv.step hspares henabled hnext hapart
    exact ⟨hlimit'.trans hlimit, hinv'⟩

theorem runs_of_reachable {poolSize : Nat} (hlow : sizeofMempoolType + 64 ≤ poolSize)
    (hhigh : poolSize ≤ sizeofMempoolType + 2 ^ 30)
    (hrun : (mempoolSystem poolSize 0).Reachable w) :
    (mempoolSystem poolSize 0).RunsWith MempoolWorld.Spares w := by
  induction hrun with
  | init h0 => exact .init h0
  | step hr hok hs ih =>
    rename_i e
    refine .step ih ?_ hs
    obtain ⟨hlimit, -⟩ := runs_inv hlow hhigh ih
    cases e with
    | malloc size answer =>
      intro _ _ hpos
      rw [hlimit] at hpos
      exact absurd hpos (lt_irrefl 0)
    | free k => exact trivial
    | write k slots => exact trivial

/-! ### Tilings -/

/-- Where the slots of a block begin. -/
def firstSlot (c : Int × Nat) : Int := c.1 + headerOf c.1

/-- The bytes of a slot's header: the links are only part of it while the slot is free. -/
def headerBytes (t : Tile) : Nat := if t.free then sizeofSlotHeader else sizeofUsedHeader

/-- The slots of every block are the `tiles`, and the allocations lie in used ones. -/
structure Tiled (tiles : Int → List Tile) (w : MempoolWorld) : Prop where
  /-- From the first slot on, `gnext` leads from each slot to the adjacent one, and `gprev` back. -/
  chain : ∀ c ∈ w.owned, SlotChain w.pool.slots 0 (starts (firstSlot c) (tiles c.1)) 0
  classes : ∀ c ∈ w.owned, ClassesOk (tiles c.1)
  labels : ∀ c ∈ w.owned, Labelled w.pool.slots c.1 (firstSlot c) (tiles c.1)
  cover : ∀ c ∈ w.owned, firstSlot c + tileBytes (tiles c.1) ≤ c.1 + c.2 ∧
    c.1 + c.2 < firstSlot c + tileBytes (tiles c.1) + 64
  /-- The free lists are lists, and have exactly the free slots of their class. -/
  lists : ∀ c ∈ w.owned, ∃ lists, FreeLists w.pool.slots (w.pool.blocks c.1).freelists lists ∧
    ∀ i a, a ∈ lists i ↔ (a, { cls := i, free := true }) ∈ place (firstSlot c) (tiles c.1)
  inside : ∀ a ∈ w.live, ∃ c ∈ w.owned, ∃ k, (a.ptr - sizeofUsedHeader, Tile.mk k false) ∈
    place (firstSlot c) (tiles c.1) ∧ a.size + sizeofUsedHeader ≤ cutOff k
  headers : ∀ a ∈ w.live, ∀ c ∈ w.owned, ∀ x t, (x, t) ∈ place (firstSlot c) (tiles c.1) →
    x + headerBytes t ≤ a.ptr ∨ a.ptr + a.size ≤ x
  apart : w.live.Pairwise fun (a b : Allocation) => a.ptr + a.size ≤ b.ptr ∨ b.ptr + b.size ≤ a.ptr
  /-- A block without allocations is cut as by `fillblock`. -/
  idle : ∀ c ∈ w.owned, w.liveIn c = [] → tiles c.1 = freshTiles (c.2 - headerOf c.1)
  malloc_ok : ∀ size answer, size + sizeofUsedHeader ≤ 2 ^ 28 → w.Enabled (.malloc size answer) →
    (∀ d ∈ answer, ∀ c ∈ w.owned, Apart c d) → ∃ w', w.next (.malloc size answer) = .ok w'
  free_ok : ∀ k, w.Enabled (.free k) → ∃ w', w.next (.free k) = .ok w'

namespace WorldInv

variable {tiles : Int → List Tile} {w : MempoolWorld}

theorem tiled (h : WorldInv tiles w) : Tiled tiles w where
  chain c hc := (h.blocks.block c hc).chain
  classes c hc := (h.blocks.block c hc).classes
  labels c hc := (h.blocks.block c hc).labels
  cover c hc := by
    have hcover := h.blocks.cover c hc
    have husable := h.blocks.usable c hc
    rw [firstSlot]
    omega
  lists c hc := (h.blocks.block c hc).lists
  inside a ha := by
    obtain ⟨c, hc, hused⟩ := h.live_used a ha
    exact ⟨c, hc, _, hused, le_cutOff_whichPow2 (h.blocks.used_bounds hc hused).1⟩
  headers a ha d hd x t hx := by
    obtain ⟨c, hc, hused⟩ := h.live_used a ha
    have hfits := le_cutOff_whichPow2 (h.blocks.used_bounds hc hused).1
    have hcut := cutOff_pos ((h.blocks.block d hd).classes t (mem_of_place hx))
    have hbytes : headerBytes t ≤ 48 := by
      rw [headerBytes]
      split
      · exact le_refl _
      · decide
    obtain ⟨rfl, rfl, rfl⟩ | hle | hle := h.slot_apart hc hused hd hx
    · have hused' : headerBytes ⟨whichPow2 (a.size + sizeofUsedHeader), false⟩ = sizeofUsedHeader :=
        rfl
      omega
    · omega
    · omega
  apart := by
    refine (pairwise_map.mp h.once).imp_of_mem fun {a b} ha hb hne => ?_
    obtain ⟨c, hc, hused⟩ := h.live_used a ha
    obtain ⟨d, hd, hused'⟩ := h.live_used b hb
    have hfits := le_cutOff_whichPow2 (h.blocks.used_bounds hc hused).1
    have hfits' := le_cutOff_whichPow2 (h.blocks.used_bounds hd hused').1
    obtain ⟨-, heq, -⟩ | hle | hle := h.slot_apart hc hused hd hused'
    · exact absurd (by omega) hne
    · simp only at hle
      omega
    · omega
  idle c hc hnone := by
    refine h.idle c hc fun t ht => ?_
    by_contra hfree
    rw [Bool.not_eq_true] at hfree
    obtain ⟨a, hin, -⟩ := h.live_of_tile hc ht hfree
    rw [hnone] at hin
    exact absurd hin not_mem_nil
  malloc_ok size answer hsize henabled hapart := by
    have hle : whichPow2 (size + sizeofUsedHeader) + 1 < cutOffNum := by
      by_contra hnot
      have hlast := cutOff_lt_of_lt_whichPow2 (show 22 < whichPow2 (size + sizeofUsedHeader) by
        rw [cutOffNum] at hnot
        omega)
      rw [show cutOff 22 = 2 ^ 28 from rfl] at hlast
      omega
    obtain ⟨r, hrun⟩ := h.blocks.mempoolMalloc_ok hle henabled hapart
    exact ⟨_, bind_eq_ok.mpr ⟨r, hrun, rfl⟩⟩
  free_ok k henabled := by
    obtain ⟨w', hrun, -⟩ := h.free henabled
    exact ⟨w', hrun⟩

end WorldInv

/-! ### Runs of a small pool -/

instance : DecidableRel Apart :=
  fun b c => inferInstanceAs (Decidable (b.1 + b.2 ≤ c.1 ∨ c.1 + c.2 ≤ b.1))

/-- The state behind a call. -/
def MempoolWorld.after (w : MempoolWorld) (e : MempoolEvent) : MempoolWorld :=
  match w.next e with
  | .ok w' => w'
  | .error _ => w

theorem MempoolWorld.next_of_isOk {e : MempoolEvent} (h : (w.next e).isOk = true) :
    w.next e = .ok (w.after e) := by
  rw [after]
  cases hnext : w.next e with
  | ok w' => rfl
  | error f =>
    rw [hnext] at h
    cases h

/-- A pool whose first block has one slot of 64 bytes. -/
def oneSlot (limit : Nat) : MempoolWorld where
  pool :=
    let noSlots : Slots := fun _ => ⟨0, 0, false, 0, 0, 0, 0⟩
    let noBlocks : Int → BlockHeader := fun _ => ⟨0, 0, 0, 0, fun _ => 0⟩
    match mempoolInit noSlots noBlocks 368 limit with
    | .ok pool => pool
    | .error _ => ⟨noSlots, noBlocks, 0, 0, 0⟩
  owned := [(0, 368)]
  live := []
  given := []

theorem oneSlot_init (limit : Nat) : (mempoolSystem 368 limit).init (oneSlot limit) := by
  obtain ⟨pool, hinit, -⟩ := mempoolInit_spec (fun _ => ⟨0, 0, false, 0, 0, 0, 0⟩)
    (fun _ => ⟨0, 0, 0, 0, fun _ => 0⟩) limit (show sizeofMempoolType + 64 ≤ 368 by decide)
      (by decide)
  refine ⟨_, _, pool, hinit, ?_⟩
  simp only [oneSlot, hinit]

/-- Two allocations of 8 bytes, the second one in a new block. -/
def twoSmall (limit : Nat) : MempoolWorld :=
  ((oneSlot limit).after (.malloc 8 none)).after (.malloc 8 (some (1000, 384)))

/-- The slots of every block tile it, whatever is allocated and freed. -/
theorem slots_tile_blocks {poolSize : Nat} (hlow : sizeofMempoolType + 64 ≤ poolSize)
    (hhigh : poolSize ≤ sizeofMempoolType + 2 ^ 30) {w : MempoolWorld}
    (hrun : (mempoolSystem poolSize 0).Reachable w) : ∃ tiles, Tiled tiles w := by
  obtain ⟨-, tiles, hinv⟩ := runs_inv hlow hhigh (runs_of_reachable hlow hhigh hrun)
  exact ⟨tiles, hinv.tiled⟩

theorem enabled_none (w : MempoolWorld) (size : Nat) : w.Enabled (.malloc size none) :=
  fun _ hblock => absurd hblock (by simp)

theorem enabled_some (w : MempoolWorld) {size : Nat} {block : Int × Nat}
    (h : expandSize (whichPow2 (size + sizeofUsedHeader)) ≤ block.2 ∧
      block.2 ≤ sizeofBlockHeader + 2 ^ 30) :
    w.Enabled (.malloc size (some block)) := by
  intro d hd
  obtain rfl := Option.mem_some_iff.mp hd
  exact h

theorem slots_tile_two_blocks :
    (mempoolSystem 368 0).Reachable (twoSmall 0) ∧ (twoSmall 0).live.length = 2 ∧
    (twoSmall 0).owned.length = 2 ∧
      ∃ tiles, Tiled tiles (twoSmall 0) := by
  have hfirst : (mempoolSystem 368 0).Reachable ((oneSlot 0).after (.malloc 8 none)) :=
    .step (.init (oneSlot_init 0))
      ⟨enabled_none _ _, MempoolWorld.next_of_isOk (by decide +kernel), by decide +kernel⟩
  have hrun : (mempoolSystem 368 0).Reachable (twoSmall 0) :=
    hfirst.step
      ⟨enabled_some _ (by decide +kernel), MempoolWorld.next_of_isOk
        (by decide +kernel), by decide +kernel⟩
  exact ⟨hrun, by decide +kernel, by decide +kernel, slots_tile_blocks (by decide) (by decide) hrun⟩

/-! ### Pools with a limit -/

/-- The list of blocks is linked both ways, ends at `block_tail`, and `size` is the sum of their
sizes. -/
structure WellLinked (w : MempoolWorld) : Prop where
  chain : BlockChain w.pool.blocks (w.owned.map (·.1))
  tail : w.pool.blockTail = (w.owned.map (·.1)).getLastD 0
  sizes : ∀ c ∈ w.owned, (w.pool.blocks c.1).size = c.2
  total : w.pool.size = (w.owned.map (·.2)).sum

/-- No block with an allocation is given back in a run that spares them. -/
theorem no_used_block_given {poolSize limit : Nat} (hlow : sizeofMempoolType + 64 ≤ poolSize)
    (hhigh : poolSize ≤ sizeofMempoolType + 2 ^ 30) {w : MempoolWorld}
    (hrun : (mempoolSystem poolSize limit).RunsWith MempoolWorld.Spares w) :
    (∀ g ∈ w.given, g.2 = []) ∧ WellLinked w := by
  obtain ⟨-, tiles, hinv⟩ := runs_inv hlow hhigh hrun
  exact ⟨hinv.given, hinv.blocks.chain, hinv.blocks.tail, hinv.blocks.size_eq, hinv.blocks.total⟩

theorem spares_of_single (h : w.owned.tail = []) (e : MempoolEvent) : w.Spares e := by
  cases e with
  | malloc size answer =>
    rintro - - - c ⟨l₁, l₂, htail, -⟩ -
    rw [h] at htail
    cases l₁ <;> cases htail
  | free k => exact trivial
  | write k slots => exact trivial

theorem twoSmall_runs : (mempoolSystem 368 1).RunsWith MempoolWorld.Spares (twoSmall 1) := by
  have hfirst :
    (mempoolSystem 368 1).RunsWith MempoolWorld.Spares ((oneSlot 1).after (.malloc 8 none)) :=
    .step (.init (oneSlot_init 1)) (spares_of_single rfl _)
      ⟨enabled_none _ _, MempoolWorld.next_of_isOk (by decide +kernel), by decide +kernel⟩
  exact .step hfirst (spares_of_single (by decide +kernel) _)
    ⟨enabled_some _ (by decide +kernel), MempoolWorld.next_of_isOk
      (by decide +kernel), by decide +kernel⟩

/-- The second block is idle when it is given back. -/
theorem idle_block_given : ∃ w, (mempoolSystem 368 1).RunsWith MempoolWorld.Spares w ∧
    w.given = [(1000, [])] ∧
    (∀ g ∈ w.given, g.2 = []) ∧ WellLinked w := by
  have hfreed : (mempoolSystem 368 1).RunsWith MempoolWorld.Spares ((twoSmall 1).after (.free 0)) :=
    .step twoSmall_runs (show (twoSmall 1).Spares (.free 0) from trivial)
      ⟨show 0 < (twoSmall 1).live.length by decide +kernel, MempoolWorld.next_of_isOk
        (by decide +kernel), by decide +kernel⟩
  have hspares : ((twoSmall 1).after (.free 0)).Spares (.malloc 100 none) := by
    rintro - - - c ⟨l₁, l₂, htail, -⟩ -
    have howned : ((twoSmall 1).after (.free 0)).owned.tail = [(1000, 384)] := by decide +kernel
    rw [howned] at htail
    have hc : c = (1000, 384) := by
      have hmem : c ∈ [(1000, 384)] := by
        rw [htail]
        simp
      exact mem_singleton.mp hmem
    rw [hc]
    decide +kernel
  have hrun : (mempoolSystem 368 1).RunsWith MempoolWorld.Spares
      (((twoSmall 1).after (.free 0)).after (.malloc 100 none)) :=
    .step hfreed hspares
      ⟨enabled_none _ _, MempoolWorld.next_of_isOk (by decide +kernel), by decide +kernel⟩
  exact ⟨_, hrun, by decide +kernel, no_used_block_given (by decide) (by decide) hrun⟩

/-- A block with an allocation of 8 bytes is given back. -/
theorem used_block_given : ∃ w, (mempoolSystem 368 1).Reachable w ∧ ∃ g ∈ w.given, g.2 ≠ [] := by
  have hfirst : (mempoolSystem 368 1).Reachable ((oneSlot 1).after (.malloc 8 none)) :=
    .step (.init (oneSlot_init 1))
      ⟨enabled_none _ _, MempoolWorld.next_of_isOk (by decide +kernel), by decide +kernel⟩
  have hsecond : (mempoolSystem 368 1).Reachable (twoSmall 1) :=
    hfirst.step
      ⟨enabled_some _ (by decide +kernel), MempoolWorld.next_of_isOk
        (by decide +kernel), by decide +kernel⟩
  have hthird : (mempoolSystem 368 1).Reachable ((twoSmall 1).after (.malloc 100 none)) :=
    hsecond.step
      ⟨enabled_none _ _, MempoolWorld.next_of_isOk (by decide +kernel), by decide +kernel⟩
  have hgiven : ((twoSmall 1).after (.malloc 100 none)).given = [(1000, [⟨1288, 8⟩])] := by
    decide +kernel
  refine ⟨_, hthird, (1000, [⟨1288, 8⟩]), ?_, by simp⟩
  rw [hgiven]
  exact mem_singleton_self _

end CharmRuntime.Mempool
