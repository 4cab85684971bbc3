import CharmRuntime.Mempool.PoolInv

/-!
# Mempool.Malloc

`mempool_malloc` on a pool of tiled blocks: a slot of an existing block is taken, or blocks are
given back and a slot of a new block is taken, or there is no new block.
-/

namespace CharmRuntime.Mempool

open Lib Function List
open Except (ok)

/-- No block has a free slot of this class or a larger one. -/
def NoSlot (owned : List (Int × Nat)) (pool : MempoolType) (power : Nat) : Prop :=
  ∀ c ∈ owned, ∀ i, power ≤ i → i < cutOffNum → (pool.blocks c.1).freelists i = 0

/-! ### A slot of a block -/

/-- The slot at `a` was not in use, and is now. -/
structure Taken (start : Int) (power : Nat) (a : Int) (ts ts' : List Tile) : Prop where
  mem : (a, Tile.mk power false) ∈ place start ts'
  fresh : ∀ t, t.free = false → (a, t) ∉ place start ts
  used : ∀ x t, t.free = false →
    ((x, t) ∈ place start ts' ↔ (x, t) ∈ place start ts ∨ (x, t) = (a, Tile.mk power false))

theorem mem_place_split {loc x : Int} {l1 l2 : List Tile} {t u : Tile} :
    (x, u) ∈ place loc (l1 ++ t :: l2) ↔ (x, u) ∈ place loc l1 ∨ (x, u) = (loc + tileBytes l1, t) ∨
      (x, u) ∈ place (loc + tileBytes l1 + cutOff t.cls) l2 := by
  rw [place_append, mem_append, place, mem_cons]

/-- `checkblock` and `takeSlot` together. -/
theorem taken_of_checked {b start : Int} {power : Nat} {ts ts1 : List Tile}
    {pool pool₁ : MempoolType}
    (h : Checked b start power ts ts1 pool pool₁) (hhead : (pool₁.blocks b).freelists power ≠ 0) :
    ∃ (a : Int) (ts' : List Tile) (pool' : MempoolType), takeSlot pool₁ b power =
    (pool', a + sizeofUsedHeader) ∧
      BlockOk pool'.slots (pool'.blocks b) b start ts' ∧ tileBytes ts' = tileBytes ts ∧
      Frame b start (start + tileBytes ts) pool pool' ∧ Taken start power a ts ts' := by
  obtain ⟨l1, l2, pool', rfl, htake, hblock, hframe⟩ := takeSlot_spec h.block hhead
  have hbytes := h.bytes
  rw [hbytes] at hframe
  have hfree : (start + (tileBytes l1), Tile.mk power true) ∈
      place start (l1 ++ { cls := power, free := true } :: l2) := mem_place_middle
  refine ⟨start + tileBytes l1, _, pool', htake, hblock, ?_, h.frame.trans hframe,
    mem_place_middle, ?_, ?_⟩
  · rw [← hbytes]
    simp only [tileBytes_append, tileBytes_cons]
  · intro t ht hmem
    obtain rfl := place_unique h.block.classes ((h.used _ t ht).mpr hmem) hfree
    cases ht
  · intro x t ht
    rw [← h.used x t ht, mem_place_split, mem_place_split]
    have hne : (x, t) ≠ (start + (tileBytes l1), Tile.mk power true) := by
      intro heq
      rw [(Prod.mk.inj heq).2] at ht
      cases ht
    constructor
    · rintro (hmem | hmem | hmem)
      · exact .inl (.inl hmem)
      · exact .inr hmem
      · exact .inl (.inr (.inr hmem))
    · rintro ((hmem | hmem | hmem) | hmem)
      · exact .inl hmem
      · exact absurd hmem hne
      · exact .inr (.inr hmem)
      · exact .inr (.inl hmem)

/-! ### A new block -/

theorem exists_mem_greedy {r left p : Nat} (hp : p < r) (hfits : cutOff p ≤ left) :
    ∃ i ∈ greedy r left, p ≤ i := by
  induction r with
  | zero => exact absurd hp (Nat.not_lt_zero p)
  | succ r ih =>
    rw [greedy]
    by_cases hr : cutOff r ≤ left
    · rw [if_pos hr]
      exact ⟨r, mem_cons_self, Nat.le_of_lt_succ hp⟩
    · rw [if_neg hr]
      have hne : p ≠ r := by
        rintro rfl
        exact hr hfits
      exact ih (by omega)

theorem exists_freshTiles {left power : Nat} (hle : left ≤ 2 ^ 30) (hpower : power < cutOffNum)
    (hfits : cutOff power ≤ left) :
    ∃ i, power ≤ i ∧ i < cutOffNum ∧ Tile.mk i true ∈ freshTiles left := by
  have hlt : power < rounds left := by
    have hleft := lt_rounds hle
    rw [cutOff_eq hpower] at hfits
    exact (Nat.pow_lt_pow_iff_right (by omega : 1 < 2)).mp (by omega)
  obtain ⟨i, hi, hpi⟩ := exists_mem_greedy hlt hfits
  exact ⟨i, hpi, lt_of_lt_of_le (lt_of_mem_greedy hi) (rounds_le hle), mem_freeTiles.mpr ⟨hi, rfl⟩⟩

theorem appendBlock_blocks (pool : MempoolType) (d : Int) (n : Nat) {x : Int} (hx : x ≠ d) :
    (appendBlock pool d n).blocks x = { pool.blocks x with
      blockNext := if x = pool.blockTail then d else (pool.blocks x).blockNext } := by
  unfold appendBlock
  simp only [update_of_ne hx]
  by_cases htail : x = pool.blockTail
  · rw [htail, update_self, if_pos rfl]
  · rw [update_of_ne htail, if_neg htail]

theorem appendBlock_self (pool : MempoolType) (d : Int) (n : Nat) :
    ((appendBlock pool d n).blocks d).size = n ∧ ((appendBlock pool d n).blocks d).used = 0 ∧
      ((appendBlock pool d n).blocks d).blockPrev = pool.blockTail ∧
      ((appendBlock pool d n).blocks d).blockNext = 0 := by
  unfold appendBlock
  simp only [update_self]
  exact ⟨trivial, trivial, trivial, trivial⟩

namespace PoolBlocks

variable {tiles : Int → List Tile} {owned : List (Int × Nat)} {pool : MempoolType}

variable {d : Int × Nat} {power : Nat} {pool₁ : MempoolType} {size : Nat}
  {answer : Option (Int × Nat)} {r : Allocated}

theorem ne_of_apart (h : PoolBlocks tiles owned pool) (hpos : 0 < d.2)
    (hapart : ∀ c ∈ owned, Apart c d) : d.1 ≠ 0 ∧ ∀ c ∈ owned, c.1 ≠ d.1 := by
  have hne : ∀ c ∈ owned, c.1 ≠ d.1 := by
    intro c hc heq
    have husable := h.usable c hc
    obtain hapart | hapart := hapart c hc
    · omega
    · omega
  obtain ⟨n, rest, hfirst⟩ := h.first
  have hzero := hne (0, n) (by rw [hfirst]; exact mem_cons_self)
  exact ⟨fun heq => hzero heq.symm, hne⟩

theorem tail_mem (h : PoolBlocks tiles owned pool) : pool.blockTail ∈ owned.map (·.1) := by
  obtain ⟨n, rest, hfirst⟩ := h.first
  rw [h.tail, hfirst, map_cons, getLastD_cons]
  exact getLastD_mem_cons

theorem appendBlock_chain (h : PoolBlocks tiles owned pool) (hne : ∀ c ∈ owned, c.1 ≠ d.1) :
    BlockChain (appendBlock pool d.1 d.2).blocks ((owned ++ [d]).map (·.1)) := by
  have hne' : ∀ x ∈ owned.map (·.1), x ≠ d.1 := by
    intro x hx
    obtain ⟨c, hc, rfl⟩ := mem_map.mp hx
    exact hne c hc
  rw [map_append]
  refine Chain.append.mpr ⟨Chain.set_after h.chain h.nodup ?_ ?_ ?_, ?_⟩
  · intro x hx hlast
    rw [← h.tail] at hlast
    rw [appendBlock_blocks pool d.1 d.2 (hne' x hx)]
    exact if_neg hlast
  · intro x hx
    rw [appendBlock_blocks pool d.1 d.2 (hne' x hx)]
  · intro _
    rw [← h.tail, appendBlock_blocks pool d.1 d.2 (hne' _ h.tail_mem)]
    exact if_pos rfl
  · rw [← h.tail]
    obtain ⟨-, -, hprev, hnext⟩ := appendBlock_self pool d.1 d.2
    exact ⟨hprev, hnext, trivial⟩

/-- A new block is appended, and no other block changes. -/
theorem append_spec (h : PoolBlocks tiles owned pool) (hlow : sizeofBlockHeader + 64 ≤ d.2)
    (hhigh : d.2 ≤ sizeofBlockHeader + 2 ^ 30) (hapart : ∀ c ∈ owned, Apart c d) :
    ∃ pool', fillblock (appendBlock pool d.1 d.2) d.1 d.2 true = .ok pool' ∧
    pool'.limit = pool.limit ∧
      PoolBlocks (update tiles d.1 (freshTiles (d.2 - headerOf d.1))) (owned ++ [d]) pool' ∧
      ∀ x, x < d.1 ∨ d.1 + d.2 ≤ x → pool'.slots x = pool.slots x := by
  obtain ⟨hzero, hne⟩ := h.ne_of_apart (by omega) hapart
  have hheader : headerOf d.1 = headerSize true := by
    rw [headerOf, decide_eq_true hzero]
  have hheader' : headerSize true = sizeofBlockHeader := rfl
  have hplace : 0 < d.1 + headerSize true ∨ d.1 + d.2 ≤ 0 := by
    obtain ⟨n, rest, hfirst⟩ := h.first
    have hmem : (0, n) ∈ owned := by
      rw [hfirst]
      exact mem_cons_self
    obtain hapart | hapart := hapart _ hmem
    · omega
    · exact .inr hapart
  obtain ⟨hsize, hused, -, -⟩ := appendBlock_self pool d.1 d.2
  obtain ⟨pool', hfill, hblock, hframe⟩ := fillblock_spec hlow hhigh hplace hused
  rw [← hheader] at hblock hframe hheader'
  obtain ⟨-, hcover⟩ : _ ∧ _ := freshTiles_spec (show d.2 - headerOf d.1 ≤ 2 ^ 30 by omega)
  refine ⟨pool', hfill, hframe.limit, ?_, fun x hx =>
    hframe.slots x (hx.imp_left fun hlt => by omega)⟩
  have hold : ∀ c ∈ owned, pool'.blocks c.1 = { pool.blocks c.1 with
      blockNext := if c.1 = pool.blockTail then d.1 else (pool.blocks c.1).blockNext } := by
    intro c hc
    rw [hframe.blocks c.1 (hne c hc), appendBlock_blocks pool d.1 d.2 (hne c hc)]
  have hmem : ∀ {c}, c ∈ owned ++ [d] → c ∈ owned ∨ c = d := by
    intro c hc
    obtain hc | hc := mem_append.mp hc
    · exact .inl hc
    · exact .inr (mem_singleton.mp hc)
  refine ⟨?_, ?_, ?_, ?_, ?_, ?_, ?_, ?_, ?_⟩
  · obtain ⟨n, rest, hfirst⟩ := h.first
    exact ⟨n, rest ++ [d], by rw [hfirst, cons_append]⟩
  · refine pairwise_append.mpr ⟨h.apart, pairwise_singleton _ _, fun c hc x hx => ?_⟩
    rw [mem_singleton.mp hx]
    exact hapart c hc
  · intro c hc
    obtain hc | rfl := hmem hc
    · rw [update_of_ne (hne c hc)]
      refine (h.block c hc).congr (fun a ha => ?_) ?_ ?_
      · have hbounds := starts_bounds (h.block c hc).classes ha
        have hextent := h.extent hc
        refine hframe.slots a ?_
        obtain hapart | hapart := hapart c hc
        · omega
        · omega
      · rw [hold c hc]
      · rw [hold c hc]
    · rw [update_self]
      exact hblock
  · intro c hc
    obtain hc | rfl := hmem hc
    · rw [hold c hc]
      exact h.size_eq c hc
    · rw [hframe.block_size]
      exact hsize
  · intro c hc
    obtain hc | rfl := hmem hc
    · exact h.usable c hc
    · omega
  · intro c hc
    obtain hc | rfl := hmem hc
    · rw [update_of_ne (hne c hc)]
      exact h.cover c hc
    · rw [update_self]
      exact hcover
  · exact (h.appendBlock_chain hne).of_frame hframe
  · rw [hframe.tail, map_append]
    exact getLastD_concat.symm
  · rw [hframe.size, map_append, sum_append, ← h.total]
    exact congrArg (pool.size + ·) (sum_singleton).symm

/-! ### The whole call -/

theorem beforeExpansion_spec (h : PoolBlocks tiles owned pool) :
    ∃ pool' given, beforeExpansion pool = .ok (pool', given) ∧ pool'.limit = pool.limit ∧
      GivenBack (owned.map (·.1)).tail given pool ∧
      (given ≠ [] → pool.limit < pool.size ∧ 0 < pool.limit) ∧
      PoolBlocks tiles (owned.filter (·.1 ∉ given)) pool' := by
  by_cases hlimit : pool.limit < pool.size ∧ 0 < pool.limit
  · obtain ⟨pool', given, hrun, hremoved, hgiven, hblocks⟩ := h.removeblocks_spec
    refine ⟨pool', given, ?_, hremoved.limit, hgiven, fun _ => hlimit, hblocks⟩
    rw [beforeExpansion, if_pos hlimit]
    exact hrun
  · refine ⟨pool, [], if_neg hlimit, rfl,
      ⟨List.nil_prefix, fun g1 b g2 heq => absurd heq (by simp)⟩, fun hne => absurd rfl hne, ?_⟩
    rw [filter_eq_self.mpr (by simp)]
    exact h

/-- What `mempool_malloc` does if a block can serve the request. -/
structure ServedBy (power : Nat) (c : Int × Nat) (a : Int) (ts : List Tile)
    (tiles : Int → List Tile)
    (owned : List (Int × Nat)) (pool pool' : MempoolType) : Prop where
  mem : c ∈ owned
  blocks : PoolBlocks (update tiles c.1 ts) owned pool'
  limit : pool'.limit = pool.limit
  taken : Taken (c.1 + headerOf c.1) power a (tiles c.1) ts

theorem served_of_checked (h : PoolBlocks tiles owned pool) {c : Int × Nat} (hc : c ∈ owned)
    {ts1 : List Tile} (hchecked : Checked c.1 (c.1 + headerOf c.1) power (tiles c.1) ts1 pool pool₁)
    (hhead : (pool₁.blocks c.1).freelists power ≠ 0) :
    ∃ (a : Int) (ts : List Tile) (pool' : MempoolType), takeSlot pool₁ c.1 power =
    (pool', a + sizeofUsedHeader) ∧
      ServedBy power c a ts tiles owned pool pool' := by
  obtain ⟨a, ts, pool', htake, hblock, hbytes, hframe, htaken⟩ := taken_of_checked hchecked hhead
  exact ⟨a, ts, pool', htake, hc, h.step hc hblock hbytes hframe, hframe.limit, htaken⟩

theorem append_served (h : PoolBlocks tiles owned pool)
    (hpower : power < cutOffNum) (hlow : expandSize power ≤ d.2)
    (hhigh : d.2 ≤ sizeofBlockHeader + 2 ^ 30)
    (hapart : ∀ c ∈ owned, Apart c d) :
    ∃ (pool₁ pool2 : MempoolType) (a : Int) (ts : List Tile) (pool' : MempoolType),
      fillblock (appendBlock pool d.1 d.2) d.1 d.2 true = .ok pool₁ ∧
      checkblock pool₁ d.1 power = (pool2, true) ∧
      takeSlot pool2 d.1 power = (pool', a + sizeofUsedHeader) ∧
      ServedBy power d a ts (update tiles d.1 (freshTiles (d.2 - headerOf d.1))) (owned ++ [d])
        pool pool' := by
  have hcut := cutOff_pos hpower
  have hsize : expandSize power = 2 * cutOff power + sizeofBlockHeader := rfl
  obtain ⟨pool₁, hfill, hlimit, hblocks, -⟩ := h.append_spec (by omega) hhigh hapart
  have hd : d ∈ owned ++ [d] := mem_append_right _ (mem_singleton_self d)
  obtain ⟨ts1, pool2, hcheck, hchecked⟩ := checkblock_spec (hblocks.block d hd) hpower
  have hfound : (pool2.blocks d.1).freelists power ≠ 0 := by
    intro hmissing
    obtain ⟨-, -, hempty⟩ := hchecked.missing hmissing
    obtain ⟨hzero, -⟩ := h.ne_of_apart (by omega) hapart
    have hheader : headerOf d.1 = sizeofBlockHeader := by
      rw [headerOf, decide_eq_true hzero]
      rfl
    obtain ⟨i, hlow, hhigh, htile⟩ :=
      exists_freshTiles (show d.2 - headerOf d.1 ≤ 2 ^ 30 by omega) hpower
      (by omega)
    have hblock := hblocks.block d hd
    rw [update_self] at hblock
    obtain ⟨lists, hfree, hmem⟩ := hblock.lists
    obtain ⟨l1, l2, hsplit⟩ := append_of_mem htile
    have hplace : (d.1 + headerOf d.1 + (tileBytes l1), Tile.mk i true) ∈
        place (d.1 + headerOf d.1) (freshTiles (d.2 - headerOf d.1)) := by
      rw [hsplit]
      exact mem_place_middle
    have hnil := hfree.head_eq_null.mp (hempty i hlow hhigh)
    have hin := (hmem i _).mpr hplace
    rw [hnil] at hin
    exact absurd hin not_mem_nil
  obtain ⟨a, ts, pool', htake, hserved⟩ := hblocks.served_of_checked hd hchecked hfound
  refine ⟨pool₁, pool2, a, ts, pool', hfill, ?_, htake, ?_⟩
  · rw [hcheck, decide_eq_true hfound]
  · exact { hserved with limit := hserved.limit.trans hlimit }

theorem findBlock_cases (h : PoolBlocks tiles owned pool) (hle : power < cutOffNum) :
    (∃ c ∈ owned, ∃ ts pool', findBlock power (pool.size + 1) 0 pool = .ok (pool', some c.1) ∧
      Checked c.1 (c.1 + headerOf c.1) power (tiles c.1) ts pool pool' ∧
      (pool'.blocks c.1).freelists power ≠ 0) ∨
    (NoSlot owned pool power ∧ findBlock power (pool.size + 1) 0 pool = .ok (pool, none)) := by
  obtain ⟨n, rest, hfirst⟩ := h.first
  have hsplit : owned.map (·.1) = [] ++ 0 :: rest.map (·.1) := by
    rw [hfirst]
    rfl
  have hlength := h.length_le
  rw [hfirst, length_cons] at hlength
  obtain ⟨hnone, hempty⟩ | hfound :=
    h.findBlock_spec hle (rest.map (·.1)) (pool.size + 1) hsplit (by rw [length_map]; omega)
  · refine .inr ⟨fun c hc => hempty c.1 ?_, hnone⟩
    rw [nil_append] at hsplit
    rw [← hsplit]
    exact mem_map_of_mem hc
  · exact .inl hfound

theorem mempoolMalloc_cases (h : PoolBlocks tiles owned pool)
    (hpower : whichPow2 (size + sizeofUsedHeader) = power) (hle : power < cutOffNum)
    (answer : Option (Int × Nat)) :
    (∃ c a ts pool', mempoolMalloc pool size answer
        = .ok { pool := pool', given := [], added := none, ptr := some (a + sizeofUsedHeader) } ∧
      ServedBy power c a ts tiles owned pool pool') ∨
    (NoSlot owned pool power ∧ findBlock power (pool.size + 1) 0 pool = .ok (pool, none)) := by
  obtain ⟨c, hc, ts1, pool₁, hfind, hchecked, hfound⟩ | hnone := h.findBlock_cases hle
  · obtain ⟨a, ts, pool', htake, hserved⟩ := h.served_of_checked hc hchecked hfound
    refine .inl ⟨c, a, ts, pool', ?_, hserved⟩
    rw [mempoolMalloc, hpower, if_neg (ne_of_lt hle)]
    refine bind_eq_ok.mpr ⟨_, hfind, ?_⟩
    simp only [htake]
  · exact .inr hnone

theorem mempoolMalloc_expand (hpower : whichPow2 (size + sizeofUsedHeader) = power)
    (hle : power + 1 < cutOffNum)
    (hfind : findBlock power (pool.size + 1) 0 pool = .ok (pool, none))
    {given : List Int} (hbefore : beforeExpansion pool = .ok (pool₁, given)) :
    mempoolMalloc pool size none =
    .ok { pool := pool₁, given := given, added := none, ptr := none } ∧
    ∀ (d : Int × Nat) (r : Allocated), mempoolMalloc pool size (some d) = .ok r ↔
      ∃ pool2, fillblock (appendBlock pool₁ d.1 d.2) d.1 d.2 true = .ok pool2 ∧
        r = if (checkblock pool2 d.1 power).2 then
          { pool := (takeSlot (checkblock pool2 d.1 power).1 d.1
            power).1, given := given, added := some d
            ptr := some (takeSlot (checkblock pool2 d.1 power).1 d.1 power).2 }
          else { pool := (checkblock pool2 d.1
            power).1, given := given, added := some d, ptr := none } := by
  have hint : ¬ 2 ^ 31 ≤ 2 * cutOff power := by
    have hlast := cutOff_le (by decide) (show power ≤ 23 by rw [cutOffNum] at hle; omega)
    rw [show cutOff 23 = 536870912 from rfl] at hlast
    omega
  constructor
  · rw [mempoolMalloc, hpower, if_neg (by omega)]
    refine bind_eq_ok.mpr ⟨_, hfind, ?_⟩
    refine bind_eq_ok.mpr ⟨_, hbefore, ?_⟩
    simp only [if_neg hint]
  · intro d r
    have hsteps : mempoolMalloc pool size (some d)
        = fillblock (appendBlock pool₁ d.1 d.2) d.1 d.2 true >>= fun pool2 =>
            if (checkblock pool2 d.1 power).2 then
              .ok { pool := (takeSlot (checkblock pool2 d.1 power).1 d.1
                power).1, given := given, added := some d
                    ptr := some (takeSlot (checkblock pool2 d.1 power).1 d.1 power).2 }
            else .ok { pool := (checkblock pool2 d.1
              power).1, given := given, added := some d, ptr := none } := by
      rw [mempoolMalloc, hpower, if_neg (by omega), hfind]
      simp only [bind, Except.bind, hbefore, if_neg hint]
    rw [hsteps, bind_eq_ok]
    refine exists_congr fun pool2 => and_congr_right fun _ => ?_
    by_cases hfound : (checkblock pool2 d.1 power).2
    · simp only [hfound, if_true, ok.injEq]
      exact eq_comm
    · simp only [hfound, Bool.false_eq_true, if_false, ok.injEq]
      exact eq_comm

/-- What `mempool_malloc` leaves. Blocks are only given back over the limit and if no block has a
slot; then the pool has a slot less in one of the blocks it has now. `before` is how these are
cut before the slot is taken. -/
structure Malloced (power : Nat) (tiles : Int → List Tile) (owned : List (Int × Nat))
    (pool : MempoolType)
    (r : Allocated) : Prop where
  limit : r.pool.limit = pool.limit
  given : GivenBack (owned.map (·.1)).tail r.given pool
  dry : r.given ≠ [] → NoSlot owned pool power ∧ pool.limit < pool.size ∧ 0 < pool.limit
  result :
    (r.ptr = none ∧ r.added = none ∧ PoolBlocks tiles (owned.filter (·.1 ∉ r.given)) r.pool) ∨
    ∃ (before : Int → List Tile) (c : Int × Nat) (a : Int) (ts : List Tile), r.ptr =
    some (a + sizeofUsedHeader) ∧
      (∀ d ∈ owned.filter (·.1 ∉ r.given), before d.1 = tiles d.1) ∧
      (∀ d ∈ r.added, before d.1 = freshTiles (d.2 - headerOf d.1)) ∧
      ServedBy power c a ts before (owned.filter (·.1 ∉ r.given) ++ r.added.toList) pool r.pool

theorem whichPow2_of_ok
    (hrun : mempoolMalloc pool size answer = .ok r) :
    whichPow2 (size + sizeofUsedHeader) < cutOffNum := by
  refine lt_of_le_of_ne (whichPow2_le _) fun heq => ?_
  rw [mempoolMalloc, if_pos heq] at hrun
  cases hrun

/-- **What `mempool_malloc` does to the blocks of the pool.** -/
theorem mempoolMalloc_spec (h : PoolBlocks tiles owned pool)
    (hpower : whichPow2 (size + sizeofUsedHeader) = power)
    (henabled : ∀ d ∈ answer, expandSize power ≤ d.2 ∧ d.2 ≤ sizeofBlockHeader + 2 ^ 30)
    (hrun : mempoolMalloc pool size answer = .ok r)
    (hapart : (owned.filter (·.1 ∉ r.given) ++ r.added.toList).Pairwise Apart) :
    Malloced power tiles owned pool r := by
  have hle : power < cutOffNum := hpower ▸ whichPow2_of_ok hrun
  obtain ⟨c, a, ts, pool', hfound, hserved⟩ | ⟨hnoslot, hfind⟩ :=
    h.mempoolMalloc_cases hpower hle answer
  · obtain rfl := ok.inj (hfound.symm.trans hrun)
    refine ⟨hserved.limit, ⟨List.nil_prefix, fun g1 b g2 heq => absurd heq (by simp)⟩,
      fun hne => absurd rfl hne, .inr ⟨tiles, c, a, ts, rfl, fun _ _ => rfl, ?_, ?_⟩⟩
    · intro d hd
      cases hd
    · have hkept : owned.filter (·.1 ∉ []) = owned := filter_eq_self.mpr (by simp)
      simp only [hkept, Option.toList_none, append_nil]
      exact hserved
  · obtain ⟨pool₁, given, hbefore, hlimit, hgiven, hover, hblocks⟩ := h.beforeExpansion_spec
    have hint : power + 1 < cutOffNum := by
      by_contra hnot
      have hlast : power = 24 := by
        rw [cutOffNum] at hnot hle
        omega
      rw [mempoolMalloc, hpower, if_neg (ne_of_lt hle)] at hrun
      obtain ⟨_, hfind', hrun⟩ := bind_eq_ok.mp hrun
      obtain rfl := ok.inj (hfind.symm.trans hfind')
      obtain ⟨_, -, hrun⟩ := bind_eq_ok.mp hrun
      rw [hlast] at hrun
      cases hrun
    obtain ⟨hnone, hsome⟩ := mempoolMalloc_expand hpower hint hfind hbefore
    have hfacts :
      r.given = given → r.pool.limit = pool.limit → _ → Malloced power tiles owned pool r :=
      fun hr hlimit hresult =>
        ⟨hlimit, hr ▸ hgiven, fun hne => ⟨hnoslot, hover (hr ▸ hne)⟩, hresult⟩
    cases answer with
    | none =>
      obtain rfl := ok.inj (hnone.symm.trans hrun)
      exact hfacts rfl hlimit (.inl ⟨rfl, rfl, hblocks⟩)
    | some d =>
      obtain ⟨hlow, hhigh⟩ := henabled d rfl
      obtain ⟨pool2, hfill, hr⟩ := (hsome d r).mp hrun
      have hgiven' : r.given = given := by
        rw [hr]
        split <;> rfl
      have hadded : r.added = some d := by
        rw [hr]
        split <;> rfl
      rw [hgiven', hadded] at hapart
      have hapart' : ∀ c ∈ owned.filter (·.1 ∉ given), Apart c d := fun c hc =>
        (pairwise_append.mp hapart).2.2 c hc d (mem_singleton_self d)
      obtain ⟨pool2', pool3, a, ts, pool', hfill', hcheck, htake, hserved⟩ :=
        hblocks.append_served hle hlow hhigh hapart'
      obtain rfl := ok.inj (hfill'.symm.trans hfill)
      simp only [hcheck, htake] at hr
      subst hr
      obtain ⟨-, hne⟩ :=
        hblocks.ne_of_apart (by rw [expandSize] at hlow; have := cutOff_pos hle; omega) hapart'
      refine hfacts rfl (hserved.limit.trans hlimit)
        (.inr ⟨update tiles d.1 (freshTiles (d.2 - headerOf d.1)), d, a, ts, rfl, fun c hc => ?_,
        fun c hc => ?_, ?_⟩)
      · exact update_of_ne (hne c hc) _ _
      · cases hc
        exact update_self _ _ _
      · exact { hserved with limit := hserved.limit.trans hlimit }

theorem mempoolMalloc_ok (h : PoolBlocks tiles owned pool)
    (hle : whichPow2 (size + sizeofUsedHeader) + 1 < cutOffNum)
    (henabled : ∀ d ∈ answer, expandSize (whichPow2 (size + sizeofUsedHeader)) ≤ d.2 ∧
      d.2 ≤ sizeofBlockHeader + 2 ^ 30)
    (hapart : ∀ d ∈ answer, ∀ c ∈ owned, Apart c d) :
    ∃ r, mempoolMalloc pool size answer = .ok r := by
  obtain ⟨c, a, ts, pool', hfound, -⟩ | ⟨-, hfind⟩ :=
    h.mempoolMalloc_cases rfl (Nat.lt_of_succ_lt hle) answer
  · exact ⟨_, hfound⟩
  · obtain ⟨pool₁, given, hbefore, -, -, -, hblocks⟩ := h.beforeExpansion_spec
    obtain ⟨hnone, hsome⟩ := mempoolMalloc_expand rfl hle hfind hbefore
    cases answer with
    | none => exact ⟨_, hnone⟩
    | some d =>
      obtain ⟨hlow, hhigh⟩ := henabled d rfl
      obtain ⟨pool2, -, -, -, -, hfill, -⟩ :=
        hblocks.append_served (Nat.lt_of_succ_lt hle) hlow hhigh
        fun c hc => hapart d rfl c (mem_filter.mp hc).1
      exact ⟨_, (hsome d _).mpr ⟨pool2, hfill, rfl⟩⟩

end PoolBlocks

end CharmRuntime.Mempool
