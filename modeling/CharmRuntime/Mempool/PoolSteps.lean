import CharmRuntime.Mempool.Malloc

/-!
# Mempool.PoolSteps

The invariant of a pool with its allocations (`WorldInv`): every allocation has a used slot of
its own, every used slot has an allocation, and a block without allocations is cut as if it were
new. One lemma for each event.
-/

namespace CharmRuntime.Mempool

open Lib Function List

/-- The block `c` has a used slot of class `k` at `x`. -/
def UsedSlot (tiles : Int → List Tile) (c : Int × Nat) (x : Int) (k : Nat) : Prop :=
  (x, Tile.mk k false) ∈ place (c.1 + headerOf c.1) (tiles c.1)

structure WorldInv (tiles : Int → List Tile) (w : MempoolWorld) : Prop where
  blocks : PoolBlocks tiles w.owned w.pool
  idle : ∀ c ∈ w.owned, (∀ t ∈ tiles c.1, t.free = true) →
    tiles c.1 = freshTiles (c.2 - headerOf c.1)
  live_used : ∀ a ∈ w.live, ∃ c ∈ w.owned,
    UsedSlot tiles c (a.ptr - sizeofUsedHeader) (whichPow2 (a.size + sizeofUsedHeader))
  used_live :
    ∀ c ∈ w.owned, ∀ x k, UsedSlot tiles c x k → ∃ a ∈ w.live, a.ptr = x + sizeofUsedHeader
  once : (w.live.map (·.ptr)).Nodup
  given : ∀ g ∈ w.given, g.2 = []

/-- The allocations in a block that were not freed. -/
def MempoolWorld.liveIn (w : MempoolWorld) (c : Int × Nat) : List Allocation :=
  w.live.filter (·.inBlock c.1 c.2)

namespace PoolBlocks

variable {tiles : Int → List Tile} {owned : List (Int × Nat)} {pool : MempoolType}

theorem used_bounds (h : PoolBlocks tiles owned pool) {c : Int × Nat} (hc : c ∈ owned)
    {x : Int} {k : Nat}
    (hx : UsedSlot tiles c x k) :
    k < cutOffNum ∧ c.1 + headerOf c.1 ≤ x ∧ x + cutOff k ≤ c.1 + c.2 := by
  have hbounds := place_bounds hx
  have hextent := h.extent hc
  have hclass := (h.block c hc).classes _ (mem_of_place hx)
  exact ⟨hclass, hbounds.1, by simp only at hbounds; omega⟩

theorem used_unique (h : PoolBlocks tiles owned pool) {c d : Int × Nat} (hc : c ∈ owned)
    (hd : d ∈ owned)
    {x : Int} {k l : Nat} (hck : UsedSlot tiles c x k) (hdl : UsedSlot tiles d x l) :
    c = d ∧ k = l := by
  obtain ⟨hk, hc1, hc2⟩ := h.used_bounds hc hck
  obtain ⟨hl, hd1, hd2⟩ := h.used_bounds hd hdl
  have hkpos := cutOff_pos hk
  have hlpos := cutOff_pos hl
  have hcd : c = d := by
    by_contra hne
    obtain hapart | hapart := h.apart_of_ne hc hd hne
    · omega
    · omega
  subst hcd
  exact ⟨rfl, congrArg Tile.cls (place_unique (h.block c hc).classes hck hdl)⟩

end PoolBlocks

/-! ### Initial states -/

theorem mempoolInit_spec (slots : Slots) (blocks : Int → BlockHeader) {poolSize : Nat} (limit : Nat)
    (hlow : sizeofMempoolType + 64 ≤ poolSize) (hhigh : poolSize ≤ sizeofMempoolType + 2 ^ 30) :
    ∃ pool, mempoolInit slots blocks poolSize limit = .ok pool ∧ pool.limit = limit ∧
      WorldInv (fun _ => freshTiles (poolSize - sizeofMempoolType))
        { pool := pool, owned := [(0, poolSize)], live := [], given := [] } := by
  obtain ⟨pool0, hpool0⟩ : ∃ pool0 : MempoolType, pool0 =
    { slots := slots
      blocks := update blocks 0
        { blocks 0 with size := poolSize, used := 0, blockPrev := 0, blockNext := 0 }
      blockTail := 0
      limit := limit
      size := poolSize } := ⟨_, rfl⟩
  have hblock0 :
    pool0.blocks 0 =
    { blocks 0 with size := poolSize, used := 0, blockPrev := 0, blockNext := 0 } := by
    rw [hpool0]
    simp only [update_self]
  obtain ⟨pool, hfill, hblock, hframe⟩ :=
    @fillblock_spec pool0 0 poolSize false hlow hhigh (.inl (by decide))
    (by rw [hblock0])
  obtain ⟨-, hcover⟩ := freshTiles_spec (show poolSize - sizeofMempoolType ≤ 2 ^ 30 by omega)
  have hnone :
    ∀ x k, ¬ UsedSlot (fun _ => freshTiles (poolSize - sizeofMempoolType)) (0, poolSize) x k := by
    intro x k hused
    have hfree := (mem_freeTiles.mp (mem_of_place hused)).2
    cases hfree
  refine ⟨pool, ?_, ?_, ?_, ?_, ?_, ?_, nodup_nil, ?_⟩
  · rw [mempoolInit, ← hpool0]
    exact hfill
  · rw [hframe.limit, hpool0]
  · refine ⟨⟨poolSize, [], rfl⟩, pairwise_singleton _ _, ?_, ?_, ?_, ?_, ⟨?_, ?_, trivial⟩, ?_, ?_⟩
    · intro c hc
      obtain rfl := mem_singleton.mp hc
      exact hblock
    · intro c hc
      obtain rfl := mem_singleton.mp hc
      rw [hframe.block_size, hblock0]
    · intro c hc
      obtain rfl := mem_singleton.mp hc
      exact ⟨hlow, hhigh⟩
    · intro c hc
      obtain rfl := mem_singleton.mp hc
      exact hcover
    · simp only
      rw [hframe.block_prev, hblock0]
    · simp only
      rw [hframe.block_next, hblock0]
      rfl
    · rw [hframe.tail, hpool0]
      rfl
    · rw [hframe.size, hpool0]
      rfl
  · intro c hc _
    obtain rfl := mem_singleton.mp hc
    rfl
  · exact fun a ha => absurd ha not_mem_nil
  · intro c hc x k hused
    obtain rfl := mem_singleton.mp hc
    exact absurd hused (hnone x k)
  · exact fun g hg => absurd hg not_mem_nil

/-! ### Allocation -/

namespace WorldInv

variable {tiles : Int → List Tile} {w : MempoolWorld}

variable {c : Int × Nat} {a : Allocation} {given : List Int}

theorem inBlock_of_used (h : WorldInv tiles w) (hc : c ∈ w.owned) {k : Nat}
    (hused : UsedSlot tiles c (a.ptr - sizeofUsedHeader) k) : a.inBlock c.1 c.2 = true := by
  obtain ⟨hk, hlow, hhigh⟩ := h.blocks.used_bounds hc hused
  have hpos := cutOff_pos hk
  have hheader : sizeofUsedHeader = 32 := rfl
  rw [Allocation.inBlock, Bool.decide_and, Bool.and_eq_true, decide_eq_true_iff, decide_eq_true_iff]
  omega

theorem used_of_inBlock (h : WorldInv tiles w) (hc : c ∈ w.owned) (ha : a ∈ w.liveIn c) :
    a ∈ w.live ∧
    UsedSlot tiles c (a.ptr - sizeofUsedHeader) (whichPow2 (a.size + sizeofUsedHeader)) := by
  obtain ⟨ha, hin⟩ := mem_filter.mp ha
  obtain ⟨d, hd, hused⟩ := h.live_used a ha
  have hin' := h.inBlock_of_used hd hused
  rw [Allocation.inBlock, decide_eq_true_iff] at hin hin'
  have hcd : c = d := by
    by_contra hne
    obtain hapart | hapart := h.blocks.apart_of_ne hc hd hne
    · omega
    · omega
  exact ⟨ha, hcd ▸ hused⟩

/-- The allocations of the blocks that stay, when those that are given back have none. -/
theorem live_kept (h : WorldInv tiles w)
    (hspared : ∀ c ∈ w.owned, c.1 ∈ given → w.liveIn c = []) (ha : a ∈ w.live) :
    ∃ c ∈ w.owned.filter (·.1 ∉ given),
      UsedSlot tiles c (a.ptr - sizeofUsedHeader) (whichPow2 (a.size + sizeofUsedHeader)) := by
  obtain ⟨c, hc, hused⟩ := h.live_used a ha
  refine ⟨c, mem_filter.mpr ⟨hc, decide_eq_true fun hgiven => ?_⟩, hused⟩
  have hmem : a ∈ w.liveIn c := mem_filter.mpr ⟨ha, h.inBlock_of_used hc hused⟩
  rw [hspared c hc hgiven] at hmem
  exact absurd hmem not_mem_nil

theorem given_spared (h : WorldInv tiles w) (hsub : ∀ b ∈ given, b ∈ w.owned.map (·.1))
    (hspared : ∀ c ∈ w.owned, c.1 ∈ given → w.liveIn c = []) {g : Int × List Allocation}
    (hg : g ∈ given.map fun b => (b, w.live.filter (·.inBlock b (w.pool.blocks b).size))) :
    g.2 = [] := by
  obtain ⟨b, hb, rfl⟩ := mem_map.mp hg
  obtain ⟨c, hc, rfl⟩ := mem_map.mp (hsub b hb)
  rw [h.blocks.size_eq c hc]
  exact hspared c hc hb

end WorldInv

variable {c : Int × Nat} {tiles : Int → List Tile} {owned : List (Int × Nat)} {x : Int} {k : Nat}

/-- The used slots behind `mempool_malloc`. -/
theorem PoolBlocks.ServedBy.used {power : Nat} {a : Int} {ts : List Tile} {pool pool' : MempoolType}
    (h : PoolBlocks.ServedBy power c a ts tiles owned pool pool') {d : Int × Nat} (hd : d ∈ owned) :
    UsedSlot (update tiles c.1 ts) d x k ↔ UsedSlot tiles d x k ∨ (d = c ∧ x = a ∧ k = power) := by
  by_cases hdc : d = c
  · subst hdc
    rw [UsedSlot, update_self, h.taken.used x _ rfl, UsedSlot]
    simp
  · have hne : d.1 ≠ c.1 := fun heq => hdc (h.blocks.eq_of_place hd h.mem heq)
    rw [UsedSlot, update_of_ne hne, UsedSlot]
    simp [hdc]

namespace WorldInv

variable {tiles : Int → List Tile} {w : MempoolWorld}

/-- A slot is taken for an allocation of `size` bytes. -/
theorem serve (h : WorldInv tiles w) {r : Allocated} {power size : Nat} {before : Int → List Tile}
    {c : Int × Nat}
    {a : Int} {ts : List Tile} (hpower : whichPow2 (size + sizeofUsedHeader) = power)
    (hspared : ∀ c ∈ w.owned, c.1 ∈ r.given → w.liveIn c = [])
    (hkept : ∀ d ∈ w.owned.filter (·.1 ∉ r.given), before d.1 = tiles d.1)
    (hadded : ∀ d ∈ r.added, before d.1 = freshTiles (d.2 - headerOf d.1))
    (hserved : PoolBlocks.ServedBy power c a ts before
      (w.owned.filter (·.1 ∉ r.given) ++ r.added.toList)
      w.pool r.pool)
    {given : List (Int × List Allocation)} (hgiven : ∀ g ∈ given, g.2 = []) :
    WorldInv (update before c.1 ts)
      { pool := r.pool
        owned := w.owned.filter (·.1 ∉ r.given) ++ r.added.toList
        live := { ptr := a + sizeofUsedHeader, size := size } :: w.live
        given := given } := by
  have hold : ∀ d ∈ w.owned.filter (·.1 ∉ r.given) ++ r.added.toList, ∀ x k,
      UsedSlot before d x k → d ∈ w.owned ∧ UsedSlot tiles d x k := by
    intro d hd x k hused
    obtain hd | hd := mem_append.mp hd
    · rw [UsedSlot, hkept d hd] at hused
      exact ⟨(mem_filter.mp hd).1, hused⟩
    · rw [UsedSlot, hadded d (Option.mem_toList.mp hd)] at hused
      have hfree := (mem_freeTiles.mp (mem_of_place hused)).2
      cases hfree
  have hlive : ∀ a' ∈ w.live, ∃ d ∈ w.owned.filter (·.1 ∉ r.given) ++ r.added.toList,
      UsedSlot before d (a'.ptr - sizeofUsedHeader) (whichPow2 (a'.size + sizeofUsedHeader)) := by
    intro a' ha'
    obtain ⟨d, hd, hused⟩ := h.live_kept hspared ha'
    refine ⟨d, mem_append_left _ hd, ?_⟩
    rw [UsedSlot, hkept d hd]
    exact hused
  refine ⟨hserved.blocks, ?_, ?_, ?_, ?_, hgiven⟩
  · intro d hd hall
    by_cases hdc : d = c
    · subst hdc
      rw [update_self] at hall
      have htaken := hall _ (mem_of_place hserved.taken.mem)
      cases htaken
    · have hne : d.1 ≠ c.1 := fun heq => hdc (hserved.blocks.eq_of_place hd hserved.mem heq)
      rw [update_of_ne hne] at hall ⊢
      obtain hd | hd := mem_append.mp hd
      · rw [hkept d hd] at hall ⊢
        exact h.idle d (mem_filter.mp hd).1 hall
      · exact hadded d (Option.mem_toList.mp hd)
  · intro a' ha'
    obtain rfl | ha' := mem_cons.mp ha'
    · refine ⟨c, hserved.mem, (hserved.used hserved.mem).mpr (.inr ⟨rfl, ?_, hpower⟩)⟩
      exact add_sub_cancel_right a _
    · obtain ⟨d, hd, hused⟩ := hlive a' ha'
      exact ⟨d, hd, (hserved.used hd).mpr (.inl hused)⟩
  · intro d hd x k hused
    obtain hused | ⟨rfl, rfl, rfl⟩ := (hserved.used hd).mp hused
    · obtain ⟨hd', hused'⟩ := hold d hd x k hused
      obtain ⟨a', ha', hptr⟩ := h.used_live d hd' x k hused'
      exact ⟨a', mem_cons_of_mem _ ha', hptr⟩
    · exact ⟨_, mem_cons_self, rfl⟩
  · refine nodup_cons.mpr ⟨fun hmem => ?_, h.once⟩
    obtain ⟨a', ha', hptr⟩ := mem_map.mp hmem
    obtain ⟨d, hd, hused⟩ := hlive a' ha'
    rw [hptr, add_sub_cancel_right] at hused
    have hnew := (hserved.used hserved.mem).mpr (.inr ⟨rfl, rfl, rfl⟩)
    obtain ⟨rfl, -⟩ :=
      hserved.blocks.used_unique hd hserved.mem ((hserved.used hd).mpr (.inl hused)) hnew
    exact hserved.taken.fresh _ rfl hused

/-- `mempool_malloc`, when the blocks that are given back have no allocations. -/
theorem malloc (h : WorldInv tiles w) {size : Nat} {answer : Option (Int × Nat)} {w' : MempoolWorld}
    (henabled : w.Enabled (.malloc size answer)) (hnext : w.next (.malloc size answer) = .ok w')
    (hapart : w'.owned.Pairwise Apart)
    (hspared : ∀ r, PoolBlocks.Malloced (whichPow2 (size + sizeofUsedHeader)) tiles
      w.owned w.pool r →
      ∀ c ∈ w.owned, c.1 ∈ r.given → w.liveIn c = []) :
    w'.pool.limit = w.pool.limit ∧ ∃ tiles', WorldInv tiles' w' := by
  obtain ⟨r, hrun, hw'⟩ := bind_eq_ok.mp hnext
  obtain rfl := Except.ok.inj hw'
  have hmalloced := h.blocks.mempoolMalloc_spec rfl henabled hrun hapart
  have hspared := hspared r hmalloced
  have hsub : ∀ b ∈ r.given, b ∈ w.owned.map (·.1) := fun b hb =>
    (tail_sublist _).subset (hmalloced.given.sublist.subset hb)
  have hgiven :
    ∀ g ∈ w.given ++ r.given.map fun b => (b, w.live.filter (·.inBlock b (w.pool.blocks b).size)),
      g.2 = [] := by
    intro g hg
    obtain hg | hg := mem_append.mp hg
    · exact h.given g hg
    · exact h.given_spared hsub hspared hg
  refine ⟨hmalloced.limit, ?_⟩
  obtain ⟨hptr, hadded, hblocks⟩ | ⟨before, c, a, ts, hptr, hkept, hadded, hserved⟩ :=
    hmalloced.result
  · refine ⟨tiles, ?_⟩
    simp only [hptr, hadded, Option.toList_none, append_nil, map_nil]
    have hmem : ∀ {c}, c ∈ w.owned.filter (·.1 ∉ r.given) → c ∈ w.owned :=
      fun hc => (mem_filter.mp hc).1
    refine ⟨hblocks, ?_, ?_, ?_, h.once, hgiven⟩
    · exact fun c hc => h.idle c (hmem hc)
    · exact fun a ha => h.live_kept hspared ha
    · exact fun c hc => h.used_live c (hmem hc)
  · refine ⟨update before c.1 ts, ?_⟩
    simp only [hptr, map_nil]
    exact h.serve rfl hspared hkept hadded hserved hgiven

end WorldInv

/-! ### Freeing -/

/-- Merging keeps all used slots but the freed one. -/
theorem used_merged {start : Int} {l1 l2 p f1 f2 q : List Tile} {c : Nat}
    (hst : Stretch l1 l2 p f1 f2 q)
    (hclasses : ClassesOk (l1 ++ { cls := c, free := false } :: l2))
    (hbytes : tileBytes (freshTiles (tileBytes (f1 ++ { cls := c, free := false } :: f2)))
      = tileBytes (f1 ++ { cls := c, free := false } :: f2)) :
    (x, Tile.mk k false) ∈
        place start (p ++ freshTiles (tileBytes (f1 ++ { cls := c, free := false } :: f2)) ++ q) ↔
      (x, Tile.mk k false) ∈ place start (l1 ++ { cls := c, free := false } :: l2) ∧
      x ≠ start + tileBytes l1 := by
  have hwhole :
    l1 ++ { cls := c, free := false } :: l2 = p ++ (f1 ++ { cls := c, free := false } :: f2) ++
    q := by
    rw [hst.left, hst.right]
    simp
  have hl1 : tileBytes l1 = tileBytes p + tileBytes f1 := by rw [hst.left, tileBytes_append]
  have hc : 64 ≤ cutOff c := cutOff_pos (hclasses ⟨c, false⟩ (by simp))
  have hfresh : ∀ L, (x, Tile.mk k false) ∉
      place L (freshTiles (tileBytes (f1 ++ { cls := c, free := false } :: f2))) := by
    intro L hmem
    have hfree := (mem_freeTiles.mp (mem_of_place hmem)).2
    cases hfree
  have hfront : (x, Tile.mk k false) ∈ place start p → x < start + tileBytes l1 := by
    intro hmem
    have hbounds := place_bounds hmem
    have hk : Tile.mk k false ∈ l1 ++ { cls := c, free := false } :: l2 := by
      rw [hwhole, append_assoc]
      exact mem_append_left _ (mem_of_place hmem)
    have hcut := cutOff_pos (hclasses _ hk)
    omega
  have hback : (x, Tile.mk k false) ∈
      place (start + tileBytes p + tileBytes (f1 ++ { cls := c, free := false } :: f2)) q →
      start + tileBytes l1 < x := by
    intro hmem
    have hbounds := place_bounds hmem
    simp only [tileBytes_append, tileBytes_cons] at hbounds
    omega
  have hmid :
    (x, Tile.mk k false) ∈ place (start + tileBytes p) (f1 ++ { cls := c, free := false } :: f2) →
      x = start + tileBytes l1 := by
    intro hmem
    obtain hmem | heq | hmem := mem_place_split.mp hmem
    · have hfree := hst.free_left _ (mem_of_place hmem)
      cases hfree
    · rw [(Prod.mk.inj heq).1, hl1]
      push_cast
      ring
    · have hfree := hst.free_right _ (mem_of_place hmem)
      cases hfree
  rw [hwhole, place_middle rfl, place_middle rfl, hbytes]
  simp only [mem_append]
  constructor
  · rintro ((hmem | hmem) | hmem)
    · exact ⟨.inl (.inl hmem), ne_of_lt (hfront hmem)⟩
    · exact absurd hmem (hfresh _)
    · exact ⟨.inr hmem, (ne_of_lt (hback hmem)).symm⟩
  · rintro ⟨(hmem | hmem) | hmem, hne⟩
    · exact .inl (.inl hmem)
    · exact absurd (hmid hmem) hne
    · exact .inr hmem

theorem rounds_congr {left left' : Nat} (hle : left ≤ 2 ^ 30) (hle' : left' ≤ 2 ^ 30)
    (hpos : 64 ≤ left)
    (h : left / 64 = left' / 64) : rounds left = rounds left' := by
  have hpos' : 64 ≤ left' := by omega
  have hlower : ∀ {n}, n ≤ 2 ^ 30 → 64 ≤ n → 2 ^ (rounds n - 1) ≤ n / 64 := by
    intro n hn hn'
    obtain ⟨hr, hcut⟩ := rounds_pos hn hn'
    have hlast := rounds_le hn
    rw [cutOff_eq (by omega)] at hcut
    omega
  have hupper : ∀ {n}, n ≤ 2 ^ 30 → n / 64 < 2 ^ rounds n := by
    intro n hn
    have hlt := lt_rounds hn
    omega
  have h1 : rounds left - 1 < rounds left' :=
    (Nat.pow_lt_pow_iff_right (by omega : 1 < 2)).mp
      (by have := hlower hle hpos; have := hupper hle'; omega)
  have h2 : rounds left' - 1 < rounds left :=
    (Nat.pow_lt_pow_iff_right (by omega : 1 < 2)).mp
      (by have := hlower hle' hpos'; have := hupper hle; omega)
  omega

theorem freshTiles_congr {left left' : Nat} (hle : left ≤ 2 ^ 30) (hle' : left' ≤ 2 ^ 30)
    (hpos : 64 ≤ left)
    (h : left / 64 = left' / 64) : freshTiles left = freshTiles left' := by
  rw [freshTiles, freshTiles, ← rounds_congr hle hle' hpos h, greedy_congr (rounds_le hle) h]

/-- `mempool_free` on the block of the slot. If no slot of it is used any more, it is cut as if
it were new. -/
theorem PoolBlocks.free_spec {pool : MempoolType} (h : PoolBlocks tiles owned pool) (hc : c ∈ owned)
    (hused : UsedSlot tiles c x k) :
    ∃ ts pool', mempoolFree pool (x + sizeofUsedHeader) = .ok pool' ∧
      PoolBlocks (update tiles c.1 ts) owned pool' ∧ pool'.limit = pool.limit ∧
      (∀ y l, (y, Tile.mk l false) ∈ place (c.1 + headerOf c.1) ts ↔ UsedSlot tiles c y l ∧ y ≠ x) ∧
      ((∀ t ∈ ts, t.free = true) → ts = freshTiles (c.2 - headerOf c.1)) := by
  obtain ⟨l1, l2, hsplit, rfl⟩ := place_split hused
  obtain ⟨p, f1, f2, q, hst⟩ := exists_stretch l1 l2
  have hblock := h.block c hc
  have hcover := h.cover c hc
  have husable := h.usable c hc
  obtain ⟨hle, hfits⟩ := h.bytes_le hc
  rw [hsplit] at hblock hle hfits hcover
  obtain ⟨pool', hfree, hblock', hframe⟩ := mempoolFree_spec hblock hst hfits hle
  have hwhole :
    l1 ++ { cls := k, free := false } :: l2 = p ++ (f1 ++ { cls := k, free := false } :: f2) ++
    q := by
    rw [hst.left, hst.right]
    simp
  have hclasses : ClassesOk (f1 ++ { cls := k, free := false } :: f2) := by
    have hall := hblock.classes
    rw [hwhole] at hall
    exact (ClassesOk.append.mp (ClassesOk.append.mp hall).1).2
  have hmidle : tileBytes (f1 ++ { cls := k, free := false } :: f2) ≤ 2 ^ 30 := by
    rw [hwhole, tileBytes_append, tileBytes_append] at hle
    omega
  have hfill := tileBytes_freshTiles hclasses hmidle
  have hbytes :
    tileBytes (p ++ freshTiles (tileBytes (f1 ++ { cls := k, free := false } :: f2)) ++ q)
      = tileBytes (tiles c.1) := by
    rw [hsplit, hwhole, tileBytes_append _ q, tileBytes_append _ q, tileBytes_append p,
      tileBytes_append p, hfill]
  refine ⟨_, pool', hfree, h.step hc hblock' hbytes (by rw [hsplit]; exact hframe),
    hframe.limit, ?_, ?_⟩
  · intro y l
    rw [UsedSlot, hsplit]
    exact used_merged hst hblock.classes hfill
  · intro hall
    have hp : p = [] := by
      obtain hp | ⟨p', t, rfl, ht⟩ := hst.end_left
      · exact hp
      · have hfree' := hall t (by simp)
        rw [ht] at hfree'
        cases hfree'
    have hq : q = [] := by
      obtain hq | ⟨t, q', rfl, ht⟩ := hst.end_right
      · exact hq
      · have hfree' := hall t (by simp)
        rw [ht] at hfree'
        cases hfree'
    subst hp hq
    rw [nil_append, append_nil] at hwhole ⊢
    rw [hwhole] at hcover
    have hpos : 64 ≤ tileBytes (f1 ++ { cls := k, free := false } :: f2) := by
      have hcut := cutOff_pos (hclasses ⟨k, false⟩ (by simp))
      rw [tileBytes_append, tileBytes_cons]
      omega
    have hdvd : 64 ∣ tileBytes (f1 ++ { cls := k, free := false } :: f2) := by
      rw [← hfill, freshTiles, tileBytes_freeTiles]
      exact classBytes_dvd fun i hi => lt_of_lt_of_le (lt_of_mem_greedy hi) (rounds_le hmidle)
    exact freshTiles_congr hmidle (by omega) hpos (by omega)

namespace WorldInv

variable {tiles : Int → List Tile} {w : MempoolWorld}

variable {k : Nat} {a : Allocation}

theorem mem_eraseIdx_iff (h : WorldInv tiles w) (hk : k < w.live.length) :
    a ∈ w.live.eraseIdx k ↔ a ∈ w.live ∧ a.ptr ≠ w.live[k].ptr := by
  have hinj : ∀ i (hi : i < w.live.length), w.live[i].ptr = w.live[k].ptr → i = k := by
    intro i hi heq
    have hi' : i < (w.live.map (·.ptr)).length := by rwa [length_map]
    have hk' : k < (w.live.map (·.ptr)).length := by rwa [length_map]
    refine (@Nodup.getElem_inj_iff _ _ h.once i hi' k hk').mp ?_
    rw [getElem_map, getElem_map]
    exact heq
  rw [mem_eraseIdx_iff_getElem]
  constructor
  · rintro ⟨i, hi, hne, rfl⟩
    exact ⟨getElem_mem hi, fun heq => hne (hinj i hi heq)⟩
  · rintro ⟨ha, hne⟩
    obtain ⟨i, hi, rfl⟩ := getElem_of_mem ha
    refine ⟨i, hi, fun heq => ?_, rfl⟩
    subst heq
    exact hne rfl

/-- `mempool_free`. -/
theorem free (h : WorldInv tiles w) (hk : k < w.live.length) :
    ∃ w', w.next (.free k) = .ok w' ∧ w'.owned = w.owned ∧ w'.pool.limit = w.pool.limit ∧
      ∃ tiles', WorldInv tiles' w' := by
  have hget : w.live[k]? = some w.live[k] := getElem?_eq_getElem hk
  obtain ⟨c, hc, hused⟩ := h.live_used w.live[k] (getElem_mem hk)
  obtain ⟨ts, pool', hfree, hblocks, hlimit, hts, hidle⟩ := h.blocks.free_spec hc hused
  rw [sub_add_cancel] at hfree
  have hslots : ∀ d ∈ w.owned, ∀ x l, UsedSlot (update tiles c.1 ts) d x l ↔
      UsedSlot tiles d x l ∧ x ≠ w.live[k].ptr - sizeofUsedHeader := by
    intro d hd x l
    by_cases hdc : d = c
    · subst hdc
      rw [UsedSlot, update_self]
      exact hts x l
    · have hne : d.1 ≠ c.1 := fun heq => hdc (h.blocks.eq_of_place hd hc heq)
      rw [UsedSlot, update_of_ne hne]
      refine ⟨fun hx => ⟨hx, fun heq => hdc ?_⟩, And.left⟩
      rw [heq] at hx
      exact (h.blocks.used_unique hd hc hx hused).1
  refine ⟨{ w with pool := pool', live := w.live.eraseIdx k }, ?_, rfl, hlimit, update tiles c.1 ts,
    hblocks, ?_, ?_, ?_, ?_, h.given⟩
  · rw [MempoolWorld.next, hget]
    exact bind_eq_ok.mpr ⟨pool', hfree, rfl⟩
  · intro d hd hall
    by_cases hdc : d = c
    · subst hdc
      rw [update_self] at hall ⊢
      exact hidle hall
    · have hne : d.1 ≠ c.1 := fun heq => hdc (h.blocks.eq_of_place hd hc heq)
      rw [update_of_ne hne] at hall ⊢
      exact h.idle d hd hall
  · intro a ha
    obtain ⟨ha, hne⟩ := (h.mem_eraseIdx_iff hk).mp ha
    obtain ⟨d, hd, hx⟩ := h.live_used a ha
    exact ⟨d, hd, (hslots d hd _ _).mpr ⟨hx, fun heq => hne (by omega)⟩⟩
  · intro d hd x l hx
    obtain ⟨hx, hne⟩ := (hslots d hd x l).mp hx
    obtain ⟨a, ha, hptr⟩ := h.used_live d hd x l hx
    exact ⟨a, (h.mem_eraseIdx_iff hk).mpr ⟨ha, fun heq => hne (by omega)⟩, hptr⟩
  · exact h.once.sublist ((eraseIdx_sublist _ k).map _)

theorem slot_apart (h : WorldInv tiles w) {c : Int × Nat} (hc : c ∈ w.owned)
    (hused : UsedSlot tiles c (a.ptr - sizeofUsedHeader) k) {d : Int × Nat} (hd : d ∈ w.owned)
    {x : Int} {t : Tile}
    (hx : (x, t) ∈ place (d.1 + headerOf d.1) (tiles d.1)) :
    (d = c ∧ x = a.ptr - sizeofUsedHeader ∧ t = Tile.mk k false) ∨
      x + cutOff t.cls ≤ a.ptr - sizeofUsedHeader ∨ a.ptr - sizeofUsedHeader + cutOff k ≤ x := by
  by_cases hdc : d = c
  · subst hdc
    obtain ⟨rfl, rfl⟩ | hle | hle := place_apart hx hused
    · exact .inl ⟨rfl, rfl, rfl⟩
    · exact .inr (.inl hle)
    · exact .inr (.inr hle)
  · have hbounds := place_bounds hx
    have hextent := h.blocks.extent hd
    obtain ⟨-, hlow, hhigh⟩ := h.blocks.used_bounds hc hused
    obtain happ | happ := h.blocks.apart_of_ne hd hc hdc
    · omega
    · omega

theorem write (h : WorldInv tiles w) (ha : a ∈ w.live) {slots : Slots}
    (hwrite : WritesInside a w.pool.slots slots) :
    WorldInv tiles { w with pool := { w.pool with slots := slots } } := by
  have hslot : sizeofSlotHeader = 48 := rfl
  obtain ⟨c, hc, hused⟩ := h.live_used a ha
  obtain ⟨hclass, -⟩ := h.blocks.used_bounds hc hused
  have hsize := le_cutOff_whichPow2 hclass
  have hblock :
    ∀ d ∈ w.owned, BlockOk slots (w.pool.blocks d.1) d.1 (d.1 + headerOf d.1) (tiles d.1) := by
    intro d hd
    have hapart : ∀ x t, (x, t) ∈ place (d.1 + headerOf d.1) (tiles d.1) →
        (x = a.ptr - sizeofUsedHeader ∧ t.free = false) ∨ x + 64 ≤ a.ptr - sizeofUsedHeader ∨
        a.ptr + a.size ≤ x := by
      intro x t hx
      have hcut := cutOff_pos ((h.blocks.block d hd).classes t (mem_of_place hx))
      obtain ⟨-, rfl, rfl⟩ | hle | hle := h.slot_apart hc hused hd hx
      · exact .inl ⟨rfl, rfl⟩
      · omega
      · omega
    refine (h.blocks.block d hd).congr_fields (fun x hx => ?_) (fun x t hx hfree => ?_) rfl rfl
    · obtain ⟨t, hx⟩ := mem_starts hx
      obtain ⟨hb, hs, hf, hgp, hgn⟩ := (hwrite x).1 (by
        obtain ⟨rfl, -⟩ | hle | hle := hapart x t hx
        · omega
        · omega
        · omega)
      exact ⟨hs, hf, hb, hgn, hgp⟩
    · obtain ⟨hp, hn⟩ := (hwrite x).2 (by
        obtain ⟨rfl, hnot⟩ | hle | hle := hapart x t hx
        · rw [hfree] at hnot
          cases hnot
        · omega
        · omega)
      exact ⟨hn, hp⟩
  have hblocks : PoolBlocks tiles w.owned { w.pool with slots := slots } :=
    { h.blocks with block := hblock }
  exact { h with blocks := hblocks }

end WorldInv

end CharmRuntime.Mempool
