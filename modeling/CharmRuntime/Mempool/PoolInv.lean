import CharmRuntime.Mempool.Free
import Mathlib.Data.List.Pairwise

/-!
# Mempool.PoolInv

All blocks of a pool: each one is cut into tiles, and they form a list (`PoolBlocks`). A step
inside of one block leaves the others alone (`PoolBlocks.step`); `mempool_malloc` looks through
the list, and may give blocks back and append a new one.
-/

namespace CharmRuntime.Mempool

open Lib Function List

/-- The size of the header of the block at `b`. -/
def headerOf (b : Int) : Nat := headerSize (decide (b ≠ 0))

/-- The list of blocks. -/
def BlockChain (blocks : Int → BlockHeader) (l : List Int) : Prop :=
  Chain (fun b => (blocks b).blockNext) (fun b => (blocks b).blockPrev) 0 l 0

variable {pool : MempoolType}

theorem BlockChain.of_frame {b lo hi : Int} {pool' : MempoolType} {l : List Int}
    (h : BlockChain pool.blocks l) (hframe : Frame b lo hi pool pool') :
    BlockChain pool'.blocks l := by
  refine Chain.congr h ?_ ?_
  · intro c _
    by_cases hc : c = b
    · rw [hc, hframe.block_next]
    · rw [hframe.blocks c hc]
  · intro c _
    by_cases hc : c = b
    · rw [hc, hframe.block_prev]
    · rw [hframe.blocks c hc]

/-- The blocks `owned` with their sizes, the first of them at `0`, are cut into `tiles`. -/
structure PoolBlocks (tiles : Int → List Tile) (owned : List (Int × Nat)) (pool : MempoolType) :
    Prop where
  first : ∃ n rest, owned = (0, n) :: rest
  apart : owned.Pairwise Apart
  block : ∀ c ∈ owned, BlockOk pool.slots (pool.blocks c.1) c.1 (c.1 + headerOf c.1) (tiles c.1)
  size_eq : ∀ c ∈ owned, (pool.blocks c.1).size = c.2
  usable : ∀ c ∈ owned, headerOf c.1 + 64 ≤ c.2 ∧ c.2 ≤ headerOf c.1 + 2 ^ 30
  cover : ∀ c ∈ owned, tileBytes (tiles c.1) ≤ c.2 - headerOf c.1 ∧
    c.2 - headerOf c.1 < tileBytes (tiles c.1) + 64
  chain : BlockChain pool.blocks (owned.map (·.1))
  tail : pool.blockTail = (owned.map (·.1)).getLastD 0
  total : pool.size = (owned.map (·.2)).sum

namespace PoolBlocks

variable {tiles : Int → List Tile} {owned : List (Int × Nat)} {pool : MempoolType}

variable {c : Int × Nat}

theorem extent (h : PoolBlocks tiles owned pool) (hc : c ∈ owned) :
    c.1 + headerOf c.1 + tileBytes (tiles c.1) ≤ c.1 + c.2 := by
  have husable := h.usable c hc
  have hcover := h.cover c hc
  omega

theorem bytes_le (h : PoolBlocks tiles owned pool) (hc : c ∈ owned) :
    tileBytes (tiles c.1) ≤ 2 ^ 30 ∧ tileBytes (tiles c.1) ≤ (pool.blocks c.1).size := by
  have husable := h.usable c hc
  have hcover := h.cover c hc
  rw [h.size_eq c hc]
  omega

theorem apart_of_ne (h : PoolBlocks tiles owned pool) {d : Int × Nat} (hc : c ∈ owned)
    (hd : d ∈ owned)
    (hne : c ≠ d) : Apart c d := by
  have : Std.Symm Apart := ⟨fun x y hxy => hxy.symm⟩
  exact h.apart.forall hc hd hne

theorem eq_of_place (h : PoolBlocks tiles owned pool) {d : Int × Nat} (hc : c ∈ owned)
    (hd : d ∈ owned)
    (heq : c.1 = d.1) : c = d := by
  by_contra hne
  have hc' := h.usable c hc
  have hd' := h.usable d hd
  obtain hapart | hapart := h.apart_of_ne hc hd hne
  · omega
  · omega

theorem nodup (h : PoolBlocks tiles owned pool) : (owned.map (·.1)).Nodup := by
  rw [nodup_map_iff_inj_on]
  · exact fun c hc d hd heq => h.eq_of_place hc hd heq
  · refine h.apart.imp_of_mem fun {c d} hc hd hapart heq => ?_
    subst heq
    have husable := h.usable c hc
    obtain hapart | hapart := hapart
    · omega
    · omega

theorem step (h : PoolBlocks tiles owned pool) (hc : c ∈ owned) {pool' : MempoolType}
    {ts : List Tile} (hblock : BlockOk pool'.slots (pool'.blocks c.1) c.1 (c.1 + headerOf c.1) ts)
    (hbytes : tileBytes ts = tileBytes (tiles c.1))
    (hframe : Frame c.1 (c.1 + headerOf c.1) (c.1 + headerOf c.1 + tileBytes (tiles c.1))
      pool pool') :
    PoolBlocks (update tiles c.1 ts) owned pool' := by
  have hother : ∀ d ∈ owned, d ≠ c → d.1 ≠ c.1 := fun d hd hne heq => hne (h.eq_of_place hd hc heq)
  refine ⟨h.first, h.apart, fun d hd => ?_, fun d hd => ?_, h.usable, fun d hd => ?_, ?_, ?_, ?_⟩
  · by_cases hdc : d = c
    · subst hdc
      rw [update_self]
      exact hblock
    · have hne := hother d hd hdc
      rw [update_of_ne hne]
      refine (h.block d hd).congr (fun a ha => ?_) ?_ ?_
      · have hbounds := starts_bounds (h.block d hd).classes ha
        have hd' := h.extent hd
        have hc' := h.extent hc
        refine hframe.slots a ?_
        obtain hapart | hapart := h.apart_of_ne hd hc hdc
        · omega
        · omega
      · rw [hframe.blocks d.1 hne]
      · rw [hframe.blocks d.1 hne]
  · by_cases hdc : d = c
    · rw [hdc, hframe.block_size]
      exact h.size_eq c hc
    · rw [hframe.blocks d.1 (hother d hd hdc)]
      exact h.size_eq d hd
  · by_cases hdc : d = c
    · subst hdc
      rw [update_self, hbytes]
      exact h.cover d hd
    · rw [update_of_ne (hother d hd hdc)]
      exact h.cover d hd
  · exact h.chain.of_frame hframe
  · rw [hframe.tail]
    exact h.tail
  · rw [hframe.size]
    exact h.total

/-- Only the first block lies at `0`. -/
theorem ne_zero_of_behind (h : PoolBlocks tiles owned pool) {l1 l2 : List Int} {b d : Int}
    (hsplit : owned.map (·.1) = l1 ++ b :: l2) (hd : d ∈ l2) : d ≠ 0 := by
  obtain ⟨n, rest, hfirst⟩ := h.first
  have hnodup := h.nodup
  rw [hsplit] at hnodup
  rw [hfirst] at hsplit
  rintro rfl
  cases l1 with
  | nil =>
    obtain ⟨rfl, -⟩ := cons.inj hsplit
    exact (nodup_cons.mp hnodup).1 hd
  | cons x l1 =>
    obtain ⟨rfl, -⟩ := cons.inj hsplit
    exact (nodup_cons.mp hnodup).1 (mem_append_right _ (mem_cons_of_mem _ hd))

/-- Either no block has a slot that is large enough, or one is found and cut. -/
theorem findBlock_spec (h : PoolBlocks tiles owned pool) {power : Nat} (hpower : power < cutOffNum)
    (l : List Int) :
    ∀ {l1 : List Int} {b : Int} (fuel : Nat), owned.map (·.1) = l1 ++ b :: l → l.length < fuel →
      (findBlock power fuel b pool = .ok (pool, none) ∧ ∀ d ∈ b :: l, ∀ i, power ≤ i →
      i < cutOffNum →
        (pool.blocks d).freelists i = 0) ∨
      ∃ c ∈ owned, ∃ ts pool', findBlock power fuel b pool = .ok (pool', some c.1) ∧
        Checked c.1 (c.1 + headerOf c.1) power (tiles c.1) ts pool pool' ∧
        (pool'.blocks c.1).freelists power ≠ 0 := by
  induction l with
  | nil =>
    intro l1 b fuel hsplit hfuel
    obtain ⟨fuel, rfl⟩ : ∃ m, fuel = m + 1 := ⟨fuel - 1, by omega⟩
    obtain ⟨c, hc, rfl⟩ : ∃ c ∈ owned, c.1 = b := mem_map.mp (by rw [hsplit]; simp)
    obtain ⟨ts, pool', hcheck, hchecked⟩ := checkblock_spec (h.block c hc) hpower
    rw [findBlock, hcheck]
    by_cases hfound : (pool'.blocks c.1).freelists power = 0
    · obtain ⟨rfl, -, hempty⟩ := hchecked.missing hfound
      have hnext : (pool'.blocks c.1).blockNext = 0 := by
        have hchain := h.chain
        rw [hsplit] at hchain
        exact (Chain.links hchain).2
      left
      refine ⟨by simp [hfound, hnext], fun d hd => ?_⟩
      obtain rfl := mem_singleton.mp hd
      exact hempty
    · right
      refine ⟨c, hc, ts, pool', ?_, hchecked, hfound⟩
      simp [hfound]
  | cons d l ih =>
    intro l1 b fuel hsplit hfuel
    obtain ⟨fuel, rfl⟩ : ∃ m, fuel = m + 1 := ⟨fuel - 1, by omega⟩
    obtain ⟨c, hc, rfl⟩ : ∃ c ∈ owned, c.1 = b := mem_map.mp (by rw [hsplit]; simp)
    obtain ⟨ts, pool', hcheck, hchecked⟩ := checkblock_spec (h.block c hc) hpower
    rw [findBlock, hcheck]
    by_cases hfound : (pool'.blocks c.1).freelists power = 0
    · obtain ⟨rfl, -, hempty⟩ := hchecked.missing hfound
      have hnext : (pool'.blocks c.1).blockNext = d := by
        have hchain := h.chain
        rw [hsplit] at hchain
        exact (Chain.links hchain).2
      have hne : d ≠ 0 := h.ne_zero_of_behind hsplit mem_cons_self
      have hsplit' : owned.map (·.1) = (l1 ++ [c.1]) ++ d :: l := by
        rw [hsplit, append_assoc]
        rfl
      have hrest := ih fuel hsplit' (by simp at hfuel; omega)
      simp only [hfound, hnext, hne]
      obtain ⟨hnone, hrest⟩ | hrest := hrest
      · left
        refine ⟨hnone, fun x hx => ?_⟩
        obtain rfl | hx := mem_cons.mp hx
        · exact hempty
        · exact hrest x hx
      · exact .inr hrest
    · right
      refine ⟨c, hc, ts, pool', ?_, hchecked, hfound⟩
      simp [hfound]

end PoolBlocks

/-! ### Giving blocks back -/

/-- Blocks leave the list, and nothing else changes. -/
structure Removed (given : List Int) (pool pool' : MempoolType) : Prop where
  slots : pool'.slots = pool.slots
  same : ∀ b, (pool'.blocks b).size = (pool.blocks b).size ∧
    (pool'.blocks b).used = (pool.blocks b).used ∧
    (pool'.blocks b).freelists = (pool.blocks b).freelists
  limit : pool'.limit = pool.limit
  total : pool'.size + (given.map fun b => (pool.blocks b).size).sum = pool.size

/-- Which blocks of `s` the loop gives back: those whose count is 0, in their order, until the
pool is below its limit. -/
structure GivenBack (s given : List Int) (pool : MempoolType) : Prop where
  idle : given <+: s.filter fun b => (pool.blocks b).used = 0
  above : ∀ g₁ b g₂, given = g₁ ++ b :: g₂ →
    g₁ = [] ∨ pool.limit + (g₁.map fun x => (pool.blocks x).size).sum ≤ pool.size

theorem Removed.refl (pool : MempoolType) : Removed [] pool pool :=
  ⟨rfl, fun _ => ⟨rfl, rfl, rfl⟩, rfl, rfl⟩

theorem GivenBack.nil (s : List Int) (pool : MempoolType) : GivenBack s [] pool :=
  ⟨⟨_, nil_append _⟩, fun g₁ b g₂ heq => absurd heq (by simp)⟩

theorem GivenBack.sublist {s given : List Int} (h : GivenBack s given pool) :
    given.Sublist s :=
  h.idle.sublist.trans filter_sublist

theorem GivenBack.used {s given : List Int} (h : GivenBack s given pool) {b : Int}
    (hb : b ∈ given) : (pool.blocks b).used = 0 := by
  have hmem := mem_filter.mp (h.idle.subset hb)
  exact of_decide_eq_true hmem.2

/-- The pool without the block at `b`. -/
def dropBlock (tail prev b : Int) (pool : MempoolType) : MempoolType :=
  let tofree := pool.blocks b
  let next := tofree.blockNext
  let blocks := update pool.blocks prev { pool.blocks prev with blockNext := tofree.blockNext }
  let blocks :=
    if next ≠ 0 then update blocks next { blocks next with blockPrev := tofree.blockPrev }
    else blocks
  { pool with
    blocks := blocks
    blockTail := if tail = b then tofree.blockPrev else pool.blockTail
    size := pool.size - tofree.size }

theorem dropBlock_blocks (tail prev b : Int) (pool : MempoolType) (x : Int) :
    (dropBlock tail prev b pool).blocks x = { pool.blocks x with
      blockNext := if x = prev then (pool.blocks b).blockNext else (pool.blocks x).blockNext
      blockPrev := if x = (pool.blocks b).blockNext ∧ x ≠ 0 then (pool.blocks b).blockPrev
        else (pool.blocks x).blockPrev } := by
  have hfirst : ∀ y, update pool.blocks prev
      { pool.blocks prev with blockNext := (pool.blocks b).blockNext } y
      = { pool.blocks y with
          blockNext :=
            if y = prev then (pool.blocks b).blockNext else (pool.blocks y).blockNext } := by
    intro y
    by_cases hy : y = prev
    · rw [hy, update_self, if_pos rfl]
    · rw [update_of_ne hy, if_neg hy]
  unfold dropBlock
  by_cases hnext : (pool.blocks b).blockNext = 0
  · have hnot : ¬ (x = (pool.blocks b).blockNext ∧ x ≠ 0) := fun hand => hand.2 (hand.1.trans hnext)
    simp only [hnext, ne_eq, not_true_eq_false, if_false]
    rw [hnext] at hfirst hnot
    rw [hfirst, if_neg hnot]
  · simp only [hnext, ne_eq, not_false_eq_true, if_true]
    by_cases hx : x = (pool.blocks b).blockNext
    · rw [hx, hfirst]
      simp [hnext]
    · rw [update_of_ne hx, hfirst]
      simp [hx]

theorem dropBlock_chain {tail b : Int} {k s : List Int} (hk : k ≠ [])
    (hchain : BlockChain pool.blocks (k ++ b :: s)) (hnodup : (k ++ b :: s).Nodup) (hzero : 0 ∉ s) :
    BlockChain (dropBlock tail (k.getLastD 0) b pool).blocks (k ++ s) := by
  obtain ⟨hprev, hnext⟩ := Chain.links hchain
  obtain ⟨-, -, hdisj⟩ := nodup_append.mp hnodup
  have hlast : k.getLastD 0 ∈ k := by
    cases k with
    | nil => exact absurd rfl hk
    | cons x k =>
      rw [getLastD_cons]
      exact getLastD_mem_cons
  have hhead : (pool.blocks b).blockNext ≠ 0 → (pool.blocks b).blockNext ∈ s := by
    rw [hnext]
    cases s with
    | nil => exact fun hne => absurd rfl hne
    | cons y s => exact fun _ => mem_cons_self
  refine Chain.remove hchain hnodup ?_ ?_ ?_ ?_ ?_ ?_
  · intro y hy hne
    simp only [dropBlock_blocks]
    exact if_neg (hprev ▸ hne)
  · intro y hy
    simp only [dropBlock_blocks]
    exact if_neg fun heq => hdisj _ hlast y (mem_cons_of_mem _ hy) heq.symm
  · intro y hy
    simp only [dropBlock_blocks]
    refine if_neg ?_
    rintro ⟨rfl, hne⟩
    exact hdisj _ hy _ (mem_cons_of_mem _ (hhead hne)) rfl
  · intro y hy hne
    simp only [dropBlock_blocks]
    exact if_neg fun hand => hne hand.1
  · intro _
    simp only [dropBlock_blocks]
    rw [hprev, if_pos rfl]
  · intro hne
    simp only [dropBlock_blocks]
    refine if_pos ⟨trivial, ?_⟩
    rw [hnext]
    cases s with
    | nil => exact absurd rfl hne
    | cons y s => exact fun heq => hzero (heq ▸ mem_cons_self)

section Drop

variable {tail prev b : Int} {k s given : List Int} {pool' : MempoolType}

theorem dropBlock_same (tail prev b x : Int) (pool : MempoolType) :
    ((dropBlock tail prev b pool).blocks x).size = (pool.blocks x).size ∧
      ((dropBlock tail prev b pool).blocks x).used = (pool.blocks x).used ∧
      ((dropBlock tail prev b pool).blocks x).freelists = (pool.blocks x).freelists := by
  rw [dropBlock_blocks]
  exact ⟨rfl, rfl, rfl⟩

theorem map_size_dropBlock (l : List Int) :
    l.map (fun x => ((dropBlock tail prev b pool).blocks x).size)
      = l.map fun x => (pool.blocks x).size :=
  map_congr_left fun x _ => (dropBlock_same tail prev b x pool).1

theorem dropBlock_size (tail prev : Int) (hle : (pool.blocks b).size ≤ pool.size) :
    (dropBlock tail prev b pool).size + (pool.blocks b).size = pool.size := by
  have hdef : (dropBlock tail prev b pool).size = pool.size - (pool.blocks b).size := rfl
  omega

theorem dropBlock_tail (hchain : BlockChain pool.blocks (k ++ b :: s)) (hb : b ∉ s)
    (htail : pool.blockTail = (k ++ b :: s).getLastD 0) (htail' : tail = (k ++ b :: s).getLastD 0) :
    (dropBlock tail prev b pool).blockTail = (k ++ s).getLastD 0 := by
  have hdef : (dropBlock tail prev b pool).blockTail
      = if tail = b then (pool.blocks b).blockPrev else pool.blockTail := rfl
  have hlast : (k ++ b :: s).getLastD 0 = s.getLastD b := by
    rw [getLastD_eq_getLast?, getLast?_append, getLast?_cons]
    simp [getLastD_eq_getLast?]
  rw [hdef, htail', htail, hlast]
  cases s with
  | nil =>
    rw [getLastD_nil, if_pos rfl, append_nil]
    exact (Chain.links hchain).1
  | cons y s =>
    have hne : (y :: s).getLastD b ≠ b := by
      rw [getLastD_cons]
      exact fun heq => hb (heq ▸ getLastD_mem_cons)
    rw [if_neg hne, getLastD_eq_getLast?, getLastD_eq_getLast?, getLast?_append]
    rfl

theorem filter_notMem_cons (hb : b ∉ s) :
    (b :: s).filter (· ∉ b :: given) = s.filter (· ∉ given) := by
  rw [filter_cons_of_neg (by simp)]
  refine filter_congr fun x hx => ?_
  have hne : x ≠ b := fun heq => hb (heq ▸ hx)
  simp [hne]

theorem Removed.cons (hle : (pool.blocks b).size ≤ pool.size)
    (h : Removed given (dropBlock tail prev b pool) pool') : Removed (b :: given) pool pool' := by
  have htotal := h.total
  have hsize := dropBlock_size tail prev hle
  rw [map_size_dropBlock] at htotal
  refine ⟨h.slots, fun x => ?_, h.limit, ?_⟩
  · obtain ⟨h1, h2, h3⟩ := h.same x
    obtain ⟨h1', h2', h3'⟩ := dropBlock_same tail prev b x pool
    exact ⟨h1.trans h1', h2.trans h2', h3.trans h3'⟩
  · rw [map_cons, sum_cons]
    omega

/-- Only the first block may be given back from a pool below its limit. -/
theorem GivenBack.cons (hle : (pool.blocks b).size ≤ pool.size)
    (hused : (pool.blocks b).used = 0)
    (hlimit : given = [] ∨ pool.limit ≤ (dropBlock tail prev b pool).size)
    (h : GivenBack s given (dropBlock tail prev b pool)) :
    GivenBack (b :: s) (b :: given) pool := by
  refine ⟨?_, fun g₁ x g₂ heq => ?_⟩
  · have hidle := h.idle
    simp only [fun x => (dropBlock_same tail prev b x pool).2.1] at hidle
    rw [filter_cons_of_pos (by simpa using hused)]
    exact prefix_cons_inj b |>.mpr hidle
  · cases g₁ with
    | nil => exact .inl rfl
    | cons y g₁ =>
      -- `b` is the first one, so the bytes given back before `x` include its own
      obtain ⟨rfl, hrest⟩ := cons.inj heq
      have hsize := dropBlock_size tail prev hle
      have habove := h.above g₁ x g₂ hrest
      have hsame : (dropBlock tail prev b pool).limit = pool.limit := rfl
      rw [map_size_dropBlock] at habove
      right
      rw [map_cons, sum_cons]
      obtain rfl | hlimit := hlimit
      · simp at hrest
      · obtain rfl | habove := habove
        · simp only [map_nil, sum_nil]
          omega
        · omega

theorem removeLoop_drop {fuel : Nat} (hb : b ≠ 0) (hused : (pool.blocks b).used = 0)
    (hnext : (pool.blocks b).blockNext = s.headD 0) :
    removeLoop tail (fuel + 1) prev b pool
      = if (dropBlock tail prev b pool).size < pool.limit then
          .ok (dropBlock tail prev b pool, [b])
        else removeLoop tail fuel prev (s.headD 0) (dropBlock tail prev b pool) >>=
          fun r => .ok (r.1, b :: r.2) := by
  rw [removeLoop, if_neg hb]
  simp only [hused]
  rw [← hnext]
  rfl

end Drop

/-- The loop of `removeblocks`, with the blocks `k` behind it and the blocks `s` before it. -/
theorem removeLoop_spec (tail : Int) (s : List Int) :
    ∀ {k : List Int} {pool : MempoolType} (fuel : Nat), k ≠ [] → BlockChain pool.blocks (k ++ s) →
      (k ++ s).Nodup → 0 ∉ s → pool.blockTail = (k ++ s).getLastD 0 →
      (s ≠ [] → tail = (k ++ s).getLastD 0) →
      (s.map fun b => (pool.blocks b).size).sum ≤ pool.size → s.length < fuel →
      ∃ pool' given, removeLoop tail fuel (k.getLastD 0) (s.headD 0) pool = .ok (pool', given) ∧
        Removed given pool pool' ∧ GivenBack s given pool ∧
        BlockChain pool'.blocks (k ++ s.filter (· ∉ given)) ∧
        pool'.blockTail = (k ++ s.filter (· ∉ given)).getLastD 0 := by
  induction s with
  | nil =>
    intro k pool fuel _ hchain _ _ htail _ _ hfuel
    obtain ⟨fuel, rfl⟩ : ∃ m, fuel = m + 1 := ⟨fuel - 1, by omega⟩
    exact ⟨pool, [], if_pos rfl, Removed.refl pool, GivenBack.nil [] pool, hchain, htail⟩
  | cons b s ih =>
    intro k pool fuel hk hchain hnodup hzero htail htail' hsum hfuel
    obtain ⟨fuel, rfl⟩ : ∃ m, fuel = m + 1 := ⟨fuel - 1, by omega⟩
    rw [mem_cons, not_or] at hzero
    rw [map_cons, sum_cons] at hsum
    rw [length_cons] at hfuel
    obtain ⟨hprev, hnext⟩ := Chain.links hchain
    obtain ⟨hnodup1, hnodup2, -⟩ := nodup_append.mp hnodup
    obtain ⟨hbs, hnodup2⟩ := nodup_cons.mp hnodup2
    by_cases hused : (pool.blocks b).used = 0
    · have hle : (pool.blocks b).size ≤ pool.size := by omega
      have hsize := dropBlock_size tail (k.getLastD 0) hle
      have htail1 : (dropBlock tail (k.getLastD 0) b pool).blockTail = (k ++ s).getLastD 0 :=
        dropBlock_tail hchain hbs htail (htail' (cons_ne_nil _ _))
      have hchain1 : BlockChain (dropBlock tail (k.getLastD 0) b pool).blocks (k ++ s) :=
        dropBlock_chain hk hchain hnodup hzero.2
      rw [headD_cons, removeLoop_drop (s := s) (fun heq => hzero.1 heq.symm) hused
        (hnext.trans (by cases s <;> rfl))]
      -- the loop ends where the pool falls below its limit
      by_cases hlimit : (dropBlock tail (k.getLastD 0) b pool).size < pool.limit
      · refine ⟨_, [b], if_pos hlimit, (Removed.refl _).cons hle,
          (GivenBack.nil s (dropBlock tail (k.getLastD 0) b pool)).cons hle hused (.inl rfl),
          ?_, ?_⟩
        · rw [filter_notMem_cons hbs]
          simpa using hchain1
        · rw [filter_notMem_cons hbs]
          simpa using htail1
      · have htails : s ≠ [] → tail = (k ++ s).getLastD 0 := by
          intro hs
          rw [htail' (cons_ne_nil _ _)]
          simp [getLast?_append, getLast?_cons, getLast?_eq_some_getLast hs]
        obtain ⟨pool', given, hrun, hremoved, hgiven, hchain', htail''⟩ :=
          ih fuel hk hchain1 (hnodup.sublist (Sublist.append_left (sublist_cons_self b s) k))
            hzero.2 htail1 htails (by rw [map_size_dropBlock]; omega) (by omega)
        refine ⟨pool', b :: given, ?_, hremoved.cons hle,
          hgiven.cons hle hused (.inr (Nat.le_of_not_lt hlimit)), ?_, ?_⟩
        · rw [if_neg hlimit]
          exact bind_eq_ok.mpr ⟨_, hrun, rfl⟩
        · rw [filter_notMem_cons hbs]
          exact hchain'
        · rw [filter_notMem_cons hbs]
          exact htail''
    · have hrest : (k ++ [b]) ++ s = k ++ b :: s := by rw [append_assoc, singleton_append]
      have hlast : (k ++ [b]).getLastD 0 = b := getLastD_concat
      obtain ⟨pool', given, hrun, hremoved, hgiven, hchain', htail''⟩ := ih fuel
        (append_ne_nil_of_right_ne_nil _ (cons_ne_nil _ _)) (hrest ▸ hchain)
          (hrest ▸ hnodup) hzero.2
        (hrest ▸ htail) (fun _ => hrest ▸ htail' (cons_ne_nil _ _)) (by omega) (by omega)
      have hfilter : (b :: s).filter (· ∉ given) = b :: s.filter (· ∉ given) := by
        refine filter_cons_of_pos ?_
        rw [decide_eq_true_iff]
        exact fun hmem => hbs (hgiven.sublist.subset hmem)
      refine ⟨pool', given, ?_, hremoved, ⟨?_, hgiven.above⟩, ?_, ?_⟩
      · rw [headD_cons, removeLoop, if_neg fun heq => hzero.1 heq.symm]
        simp only [Nat.le_zero, hused, if_false, hnext]
        rw [hlast] at hrun
        exact hrun
      · rw [filter_cons_of_neg (by simpa using hused)]
        exact hgiven.idle
      · rw [hfilter, ← singleton_append, ← append_assoc]
        exact hchain'
      · rw [hfilter, ← singleton_append, ← append_assoc]
        exact htail''

theorem sum_filter_notMem {f : Int → Nat} {given l : List Int} (hsub : given.Sublist l)
    (hnodup : l.Nodup) :
    ((l.filter (· ∉ given)).map f).sum + (given.map f).sum = (l.map f).sum := by
  induction hsub with
  | slnil => rfl
  | cons b hsub ih =>
    obtain ⟨hb, hnodup⟩ := nodup_cons.mp hnodup
    have hsum := ih hnodup
    rw [filter_cons_of_pos (by simpa using fun hmem => hb (hsub.subset hmem))]
    simp only [map_cons, sum_cons]
    omega
  | cons_cons b hsub ih =>
    rename_i given l
    obtain ⟨hb, hnodup⟩ := nodup_cons.mp hnodup
    have hsum := ih hnodup
    rw [filter_notMem_cons hb]
    simp only [map_cons, sum_cons]
    omega

namespace PoolBlocks

variable {tiles : Int → List Tile} {owned : List (Int × Nat)} {pool : MempoolType}

theorem map_size (h : PoolBlocks tiles owned pool) :
    (owned.map (·.1)).map (fun b => (pool.blocks b).size) = owned.map (·.2) := by
  rw [map_map]
  exact map_congr_left fun c hc => h.size_eq c hc

theorem length_le (h : PoolBlocks tiles owned pool) : owned.length ≤ pool.size := by
  have hsum : ∀ l : List (Int × Nat), (∀ c ∈ l, 1 ≤ c.2) → l.length ≤ (l.map (·.2)).sum := by
    intro l hl
    induction l with
    | nil => simp
    | cons c l ih =>
      have hc := hl c mem_cons_self
      have hrest := ih fun d hd => hl d (mem_cons_of_mem _ hd)
      rw [length_cons, map_cons, sum_cons]
      omega
  rw [h.total]
  refine hsum owned fun c hc => ?_
  have husable := h.usable c hc
  omega

/-- `removeblocks` gives back idle blocks, and the rest is still a pool. -/
theorem removeblocks_spec (h : PoolBlocks tiles owned pool) :
    ∃ pool' given, removeblocks pool = .ok (pool', given) ∧ Removed given pool pool' ∧
      GivenBack (owned.map (·.1)).tail given pool ∧
      PoolBlocks tiles (owned.filter (·.1 ∉ given)) pool' := by
  obtain ⟨n, rest, hfirst⟩ := h.first
  have hnodup := h.nodup
  have hchain := h.chain
  have htail := h.tail
  have hsizes := h.map_size
  have hlength := h.length_le
  rw [hfirst] at hnodup hchain htail hsizes
  rw [hfirst, length_cons] at hlength
  obtain ⟨hzero, -⟩ := nodup_cons.mp hnodup
  have htotal : ((0 :: rest.map (·.1)).map fun b => (pool.blocks b).size).sum = pool.size := by
    rw [h.total, hfirst]
    exact congrArg sum hsizes
  have hnext : (pool.blocks 0).blockNext = (rest.map (·.1)).headD 0 :=
    (Chain.links (show Chain _ _ 0 ([] ++ 0 :: rest.map (·.1)) 0 from hchain)).2
  obtain ⟨pool', given, hrun, hremoved, hgiven, hchain', htail'⟩ :=
    removeLoop_spec pool.blockTail (rest.map (·.1)) (k := [0]) (pool.size + 1) (cons_ne_nil _ _)
      hchain hnodup hzero htail (fun _ => htail)
      (by rw [map_cons, sum_cons] at htotal; omega) (by rw [length_map]; omega)
  have hsub := hgiven.sublist
  have hzero' : 0 ∉ given := fun hmem => hzero (hsub.subset hmem)
  have hfilter :
    (owned.filter (·.1 ∉ given)).map (·.1) = 0 :: (rest.map (·.1)).filter (· ∉ given) := by
    rw [hfirst, filter_cons_of_pos (by simpa using hzero'), filter_map]
    rfl
  have hfirst' : owned.filter (·.1 ∉ given) = (0, n) :: rest.filter (·.1 ∉ given) := by
    rw [hfirst, filter_cons_of_pos (by simpa using hzero')]
  have hmem : ∀ {c}, c ∈ owned.filter (·.1 ∉ given) → c ∈ owned := fun hc => (mem_filter.mp hc).1
  refine ⟨pool', given, ?_, hremoved, ?_, ⟨⟨n, _, hfirst'⟩, ?_, ?_, ?_, ?_, ?_, ?_, ?_, ?_⟩⟩
  · rw [removeblocks, hnext]
    exact hrun
  · rw [hfirst, map_cons, tail_cons]
    exact hgiven
  · exact h.apart.filter _
  · intro c hc
    obtain ⟨-, hused, hlists⟩ := hremoved.same c.1
    refine (h.block c (hmem hc)).congr (fun a _ => ?_) hlists hused
    rw [hremoved.slots]
  · intro c hc
    rw [(hremoved.same c.1).1]
    exact h.size_eq c (hmem hc)
  · exact fun c hc => h.usable c (hmem hc)
  · exact fun c hc => h.cover c (hmem hc)
  · rw [hfilter]
    exact hchain'
  · rw [hfilter]
    exact htail'
  · have hsum := sum_filter_notMem (f := fun b => (pool.blocks b).size) (hsub.cons 0) hnodup
    have hkept : (owned.filter (·.1 ∉ given)).map (·.2)
        = ((0 :: rest.map (·.1)).filter (· ∉ given)).map fun b => (pool.blocks b).size := by
      rw [filter_cons_of_pos (by simpa using hzero'), ← hfilter, map_map]
      exact map_congr_left fun c hc => (h.size_eq c (hmem hc)).symm
    have hremain := hremoved.total
    rw [hkept]
    omega

end PoolBlocks

end CharmRuntime.Mempool
