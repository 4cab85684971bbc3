import CharmRuntime.Lib.Outcome
import CharmRuntime.Mempool.Alloc
import Mathlib.Data.List.Induction

/-!
# Mempool.Free

`mempool_free`: the slot and the free slots around it are taken out of their free lists, and
the stretch is cut again into slots as large as possible.
-/

namespace CharmRuntime.Mempool

open Lib Function List

/-! ### The free stretch -/

theorem exists_free_suffix (l : List Tile) : ∃ p f, l = p ++ f ∧ (∀ t ∈ f, t.free = true) ∧
    (p = [] ∨ ∃ p' t, p = p' ++ [t] ∧ t.free = false) := by
  induction l using reverseRecOn with
  | nil => exact ⟨[], [], rfl, fun _ ht => absurd ht not_mem_nil, .inl rfl⟩
  | append_singleton l t ih =>
    cases ht : t.free with
    | false => exact ⟨l ++ [t], [], (append_nil _).symm, fun _ hu => absurd hu not_mem_nil,
        .inr ⟨l, t, rfl, ht⟩⟩
    | true =>
      obtain ⟨p, f, rfl, hf, hp⟩ := ih
      refine ⟨p, f ++ [t], append_assoc .., fun u hu => ?_, hp⟩
      obtain hu | hu := mem_append.mp hu
      · exact hf u hu
      · rw [mem_singleton.mp hu, ht]

theorem exists_free_prefix (l : List Tile) : ∃ f q, l = f ++ q ∧ (∀ t ∈ f, t.free = true) ∧
    (q = [] ∨ ∃ t q', q = t :: q' ∧ t.free = false) := by
  induction l with
  | nil => exact ⟨[], [], rfl, fun _ ht => absurd ht not_mem_nil, .inl rfl⟩
  | cons t l ih =>
    cases ht : t.free with
    | false => exact ⟨[], t :: l, rfl, fun _ hu => absurd hu not_mem_nil, .inr ⟨t, l, rfl, ht⟩⟩
    | true =>
      obtain ⟨f, q, rfl, hf, hq⟩ := ih
      refine ⟨t :: f, q, rfl, fun u hu => ?_, hq⟩
      obtain rfl | hu := mem_cons.mp hu
      · exact ht
      · exact hf u hu

theorem starts_concat (loc : Int) (ts : List Tile) (t : Tile) :
    starts loc (ts ++ [t]) = starts loc ts ++ [loc + tileBytes ts] := by
  rw [starts_append]
  rfl

variable {s : Slots} {start loc b : Int} {ts : List Tile} {lists : Nat → List Int}
  {pool : MempoolType} {left i : Nat}

theorem chain_links {l₁ l₂ : List Tile} {t : Tile}
    (h : SlotChain s 0 (starts start (l₁ ++ t :: l₂)) 0) :
    (s (start + tileBytes l₁)).gprev = (starts start l₁).getLastD 0 ∧
      (s (start + tileBytes l₁)).gnext =
      (starts (start + tileBytes l₁ + cutOff t.cls) l₂).headD 0 := by
  rw [starts_append] at h
  exact Chain.links h

theorem mem_place_middle {l₁ l₂ : List Tile} {t : Tile} :
    (loc + tileBytes l₁, t) ∈ place loc (l₁ ++ t :: l₂) := by
  rw [place_append]
  exact mem_append_right _ mem_cons_self

theorem freeBefore_spec {p : List Tile}
    (hchain : SlotChain s 0 (starts start ts) 0) (hlabels : Labelled s b start ts)
    (hzero : ∀ a ∈ starts start ts, a ≠ 0) (hp : p = [] ∨ ∃ p' t, p = p' ++ [t] ∧ t.free = false)
    (g : List Tile) (hg : ∀ u ∈ g, u.free = true) :
    ∀ {t : Tile} {rest : List Tile}, ts = p ++ g ++ t :: rest → t.free = true →
    ∀ (fuel size : Nat) (x : Int),
      g.length + 1 < fuel → freeBefore s fuel (start + tileBytes (p ++ g)) size x
        = .ok (size + tileBytes (g ++ [t]), start + tileBytes p) := by
  induction g using reverseRecOn with
  | nil =>
    intro t rest hts ht fuel size x hfuel
    rw [append_nil] at hts ⊢
    obtain ⟨fuel, rfl⟩ : ∃ m, fuel = m + 2 := ⟨fuel - 2, by omega⟩
    obtain ⟨hsize, hfree, -⟩ := hlabels _ t (hts ▸ mem_place_middle)
    obtain ⟨hgprev, -⟩ := chain_links (hts ▸ hchain)
    rw [freeBefore, if_pos (hfree.trans ht), hgprev, hsize]
    obtain rfl | ⟨p', u, rfl, hu⟩ := hp
    · simp [starts, place]
    · have hmem : (start + tileBytes p', u) ∈ place start ts := by
        rw [hts, append_assoc]
        exact mem_place_middle
      rw [starts_concat, getLastD_concat, if_neg (hzero _ (mem_starts_of_place hmem)),
        freeBefore, if_neg]
      · simp
      · rw [(hlabels _ u hmem).2.1, hu]
        decide
  | append_singleton g u ih =>
    intro t rest hts ht fuel size x hfuel
    obtain ⟨fuel, rfl⟩ : ∃ m, fuel = m + 1 := ⟨fuel - 1, by omega⟩
    obtain ⟨hsize, hfree, -⟩ := hlabels _ t (hts ▸ mem_place_middle)
    obtain ⟨hgprev, -⟩ := chain_links (hts ▸ hchain)
    have hts' : ts = p ++ g ++ u :: (t :: rest) := by
      rw [hts]
      simp
    have hmem : (start + tileBytes (p ++ g), u) ∈ place start ts := hts' ▸ mem_place_middle
    rw [freeBefore, if_pos (hfree.trans ht), hgprev, hsize, ← append_assoc, starts_concat,
      getLastD_concat, if_neg (hzero _ (mem_starts_of_place hmem))]
    rw [ih (fun v hv => hg v (mem_append_left _ hv)) hts' (hg u (by simp)) fuel _ _
      (by simp at hfuel; omega)]
    simp only [tileBytes_append, tileBytes_cons, tileBytes_nil]
    congr 2
    omega

theorem freeBehind_spec {q : List Tile}
    (hchain : SlotChain s 0 (starts start ts) 0) (hlabels : Labelled s b start ts)
    (hzero : ∀ a ∈ starts start ts, a ≠ 0) (hq : q = [] ∨ ∃ t q', q = t :: q' ∧ t.free = false)
    (f : List Tile) (hf : ∀ u ∈ f, u.free = true) :
    ∀ {t : Tile} {before : List Tile}, ts = before ++ t :: (f ++ q) → t.free = true →
    ∀ (fuel size : Nat),
      f.length + 1 < fuel → freeBehind s fuel (start + tileBytes before) size
        = .ok (size + tileBytes (t :: f),
        (starts (start + tileBytes (before ++ t :: f)) q).headD 0) := by
  induction f with
  | nil =>
    intro t before hts ht fuel size hfuel
    obtain ⟨fuel, rfl⟩ : ∃ m, fuel = m + 2 := ⟨fuel - 2, by omega⟩
    obtain ⟨hsize, hfree, -⟩ := hlabels _ t (hts ▸ mem_place_middle)
    obtain ⟨-, hgnext⟩ := chain_links (hts ▸ hchain)
    have hend : start + tileBytes (before ++ [t]) = start + tileBytes before + cutOff t.cls := by
      simp only [tileBytes_append, tileBytes_cons, tileBytes_nil]
      push_cast
      ring
    rw [freeBehind, if_pos (hfree.trans ht), hgnext, hsize, nil_append, hend]
    obtain rfl | ⟨u, q', rfl, hu⟩ := hq
    · simp [starts, place]
    · have hmem : (start + tileBytes before + cutOff t.cls, u) ∈ place start ts := by
        rw [← hend, hts, append_cons]
        exact mem_place_middle
      rw [starts_cons, headD_cons, if_neg (hzero _ (mem_starts_of_place hmem)), freeBehind, if_neg]
      · simp
      · rw [(hlabels _ u hmem).2.1, hu]
        decide
  | cons u f ih =>
    intro t before hts ht fuel size hfuel
    obtain ⟨fuel, rfl⟩ : ∃ m, fuel = m + 1 := ⟨fuel - 1, by omega⟩
    obtain ⟨hsize, hfree, -⟩ := hlabels _ t (hts ▸ mem_place_middle)
    obtain ⟨-, hgnext⟩ := chain_links (hts ▸ hchain)
    have hend : start + tileBytes before + cutOff t.cls = start + tileBytes (before ++ [t]) := by
      simp only [tileBytes_append, tileBytes_cons, tileBytes_nil]
      push_cast
      ring
    have hts' : ts = (before ++ [t]) ++ u :: (f ++ q) := by
      rw [hts]
      simp
    have hmem : (start + tileBytes (before ++ [t]), u) ∈ place start ts := hts' ▸ mem_place_middle
    rw [freeBehind, if_pos (hfree.trans ht), hgnext, hsize, cons_append, starts_cons,
      headD_cons, hend, if_neg (hzero _ (mem_starts_of_place hmem))]
    rw [ih (fun v hv => hf v (mem_cons_of_mem _ hv)) hts' (hf u mem_cons_self) fuel _
      (by simp at hfuel; omega)]
    rw [append_assoc]
    simp only [tileBytes_cons]
    congr 2
    omega

/-! ### Leaving the free lists -/

theorem Slots.setNext_ite (s : Slots) (a v x : Int) : (if a ≠ 0 then s.setNext a v else s) x
      = { s x with next := if x = a ∧ x ≠ 0 then v else (s x).next } := by
  by_cases ha : a = 0
  · rw [if_neg (not_not.mpr ha), if_neg]
    rintro ⟨rfl, hne⟩
    exact hne ha
  · rw [if_pos ha, setNext_apply]
    by_cases hx : x = a
    · rw [if_pos hx, if_pos ⟨hx, hx ▸ ha⟩]
    · rw [if_neg hx, if_neg fun hand => hx hand.1]

/-- Only the links of free slots and the block's free lists change. -/
structure Relinked (b : Int) (lists : Nat → List Int) (pool pool' : MempoolType) : Prop where
  same : ∀ x, (pool'.slots x).size = (pool.slots x).size ∧
    (pool'.slots x).free = (pool.slots x).free ∧
    (pool'.slots x).blockPtr = (pool.slots x).blockPtr ∧
    (pool'.slots x).gnext = (pool.slots x).gnext ∧
    (pool'.slots x).gprev = (pool.slots x).gprev
  outside : ∀ x, (∀ i, x ∉ lists i) → pool'.slots x = pool.slots x
  blocks : ∀ c, c ≠ b → pool'.blocks c = pool.blocks c
  block : ∃ fl, pool'.blocks b = { pool.blocks b with freelists := fl }
  tail : pool'.blockTail = pool.blockTail
  limit : pool'.limit = pool.limit
  size : pool'.size = pool.size

theorem Relinked.refl (b : Int) (lists : Nat → List Int) (pool : MempoolType) :
    Relinked b lists pool pool :=
  ⟨fun _ => ⟨rfl, rfl, rfl, rfl, rfl⟩, fun _ _ => rfl, fun _ _ => rfl, ⟨_, rfl⟩, rfl, rfl, rfl⟩

theorem Relinked.trans {lists' : Nat → List Int} {p1 p2 p3 : MempoolType}
    (h : Relinked b lists p1 p2) (h' : Relinked b lists' p2 p3)
    (hsub : ∀ i, ∀ x ∈ lists' i, x ∈ lists i) :
    Relinked b lists p1 p3 := by
  obtain ⟨fl, hfl⟩ := h.block
  obtain ⟨fl', hfl'⟩ := h'.block
  refine ⟨fun x => ?_, fun x hx => ?_, fun c hc => (h'.blocks c hc).trans (h.blocks c hc),
    ⟨fl', ?_⟩, h'.tail.trans h.tail, h'.limit.trans h.limit, h'.size.trans h.size⟩
  · obtain ⟨h1, h2, h3, h4, h5⟩ := h.same x
    obtain ⟨h1', h2', h3', h4', h5'⟩ := h'.same x
    exact ⟨h1'.trans h1, h2'.trans h2, h3'.trans h3, h4'.trans h4, h5'.trans h5⟩
  · rw [h'.outside x fun i hin => hx i (hsub i x hin), h.outside x hx]
  · rw [hfl', hfl]

/-- A slot leaves the free list of its class, and no other list changes. -/
theorem unlinkSlot_spec {x : Int}
    (hfree : FreeLists pool.slots (pool.blocks b).freelists lists)
    (hx : x ∈ lists (pool.slots x).size) :
    Relinked b lists pool (unlinkSlot pool b x) ∧
      FreeLists (unlinkSlot pool b x).slots ((unlinkSlot pool b x).blocks b).freelists
        (update lists (pool.slots x).size ((lists (pool.slots x).size).erase x)) := by
  have hslots : ∀ y, (unlinkSlot pool b x).slots y = { pool.slots y with
      next := if y = (pool.slots x).prev ∧ y ≠ 0 then (pool.slots x).next else (pool.slots y).next
      prev := if y = (pool.slots x).next ∧
        y ≠ 0 then (pool.slots x).prev else (pool.slots y).prev } := by
    intro y
    unfold unlinkSlot
    simp only [Slots.setPrev_ite, Slots.setNext_ite]
  have hblock : (unlinkSlot pool b x).blocks b = { pool.blocks b with
      freelists := fun j => if j = (pool.slots x).size ∧
        (pool.slots x).prev = 0 then (pool.slots x).next
        else (pool.blocks b).freelists j } := by
    unfold unlinkSlot
    by_cases hprev : (pool.slots x).prev = 0
    · simp only [hprev, ne_eq, not_true_eq_false, if_false, update_self,
        BlockHeader.setList, and_true]
      congr
      funext j
      rw [update_apply]
    · simp only [hprev, ne_eq, not_false_eq_true, if_true, and_false, if_false]
  obtain ⟨l₁, l₂, hlist, hprev, hnext⟩ := hfree.split hx
  refine ⟨⟨fun y => ?_, fun y hy => ?_, fun c hc => ?_, ⟨_, hblock⟩, rfl, rfl, rfl⟩, ?_⟩
  · rw [hslots]
    exact ⟨rfl, rfl, rfl, rfl, rfl⟩
  · -- the neighbours are in the lists
    have hnot_prev : ¬ (y = (pool.slots x).prev ∧ y ≠ 0) := by
      rintro ⟨heq, hne⟩
      refine hy (pool.slots x).size ?_
      have hmem : y ∈ 0 :: l₁ := by
        rw [heq]
        exact hprev ▸ getLastD_mem_cons
      rw [hlist]
      exact mem_append_left _ ((mem_cons.mp hmem).resolve_left hne)
    have hnot_next : ¬ (y = (pool.slots x).next ∧ y ≠ 0) := by
      rintro ⟨heq, hne⟩
      refine hy (pool.slots x).size ?_
      have heq' : y = l₂.headD 0 := heq.trans hnext
      rw [hlist]
      cases l₂ with
      | nil => exact absurd heq' hne
      | cons z l₂ =>
        rw [heq']
        exact mem_append_right _ (mem_cons_of_mem _ mem_cons_self)
    rw [hslots, if_neg hnot_prev, if_neg hnot_next]
  · unfold unlinkSlot
    by_cases hprev : (pool.slots x).prev = 0
    · simp only [hprev, ne_eq, not_true_eq_false, if_false, update_of_ne hc]
    · simp only [hprev, ne_eq, not_false_eq_true, if_true]
  · refine Buckets.unlink hfree hx ?_ ?_ ?_
    · intro i y hy _
      have hy0 : y ≠ 0 := fun heq => hfree.ne_null i (heq ▸ hy)
      simp only [hslots, hy0, ne_eq, not_false_eq_true, and_true]
    · intro i y hy _
      have hy0 : y ≠ 0 := fun heq => hfree.ne_null i (heq ▸ hy)
      simp only [hslots, hy0, ne_eq, not_false_eq_true, and_true]
    · intro i
      rw [hblock]

/-- All slots of a run but `toFree` leave their lists. -/
theorem unlinkRun_spec {toFree usedNext : Int} (r : List Tile) :
    ∀ {pool : MempoolType} {lists : Nat → List Int} {before loc : Int} (fuel : Nat), ClassesOk r →
      FreeLists pool.slots (pool.blocks b).freelists lists →
      SlotChain pool.slots before (starts loc r) usedNext → Labelled pool.slots b loc r →
      (∀ x t, (x, t) ∈ place loc r → x = toFree ∨ x ∈ lists t.cls) → usedNext ∉ starts loc r →
      r.length < fuel →
      ∃ pool' lists', unlinkRun b toFree usedNext fuel ((starts loc r).headD usedNext) pool =
      .ok pool' ∧
        Relinked b lists pool pool' ∧ FreeLists pool'.slots (pool'.blocks b).freelists lists' ∧
        ∀ i a, (∀ i, toFree ∉ lists i) → (a ∈ lists' i ↔ a ∈ lists i ∧ a ∉ starts loc r) := by
  induction r with
  | nil =>
    intro pool lists before loc fuel _ hfree _ _ _ _ hfuel
    obtain ⟨fuel, rfl⟩ : ∃ m, fuel = m + 1 := ⟨fuel - 1, by omega⟩
    refine ⟨pool, lists, ?_, Relinked.refl b lists pool, hfree, fun i a _ => ?_⟩
    · exact if_pos rfl
    · exact ⟨fun ha => ⟨ha, not_mem_nil⟩, And.left⟩
  | cons t r ih =>
    intro pool lists before loc fuel hclasses hfree hchain hlabels hlisted hnext hfuel
    obtain ⟨fuel, rfl⟩ : ∃ m, fuel = m + 1 := ⟨fuel - 1, by omega⟩
    rw [length_cons] at hfuel
    rw [starts_cons] at hchain hnext
    rw [mem_cons, not_or] at hnext
    have hclasses' : ClassesOk r := fun u hu => hclasses u (mem_cons_of_mem _ hu)
    have hbehind : ∀ a ∈ starts (loc + cutOff t.cls) r, a ≠ loc := by
      intro a ha
      have hbounds := starts_bounds hclasses' ha
      have hcut := cutOff_pos (hclasses t mem_cons_self)
      omega
    have hsize : (pool.slots loc).size = t.cls := (hlabels loc t mem_cons_self).1
    -- the slot leaves its list, unless it is the one to be freed
    obtain ⟨pool1, lists1, hpool1, hrelinked, hfree1, hmem1⟩ : ∃ pool1 lists1,
        pool1 = (if loc ≠ toFree then unlinkSlot pool b loc else pool) ∧
        Relinked b lists pool pool1 ∧
        FreeLists pool1.slots (pool1.blocks b).freelists lists1 ∧
        ∀ i a, (a ∈ lists1 i ↔ a ∈ lists i ∧ (a = loc → loc = toFree)) := by
      by_cases hloc : loc = toFree
      · refine ⟨pool, lists, (if_neg (not_not.mpr hloc)).symm, Relinked.refl b lists pool, hfree,
          fun i a => ?_⟩
        exact ⟨fun ha => ⟨ha, fun _ => hloc⟩, And.left⟩
      · have hmem : loc ∈ lists (pool.slots loc).size := by
          rw [hsize]
          exact (hlisted loc t mem_cons_self).resolve_left hloc
        obtain ⟨hrelinked, hfree1⟩ := unlinkSlot_spec hfree hmem
        refine ⟨_, _, (if_pos hloc).symm, hrelinked, hfree1, fun i a => ?_⟩
        rw [mem_update_erase hfree hmem]
        exact ⟨fun hand => ⟨hand.1, fun heq => absurd heq hand.2⟩,
          fun hand => ⟨hand.1, fun heq => hloc (hand.2 heq)⟩⟩
    have hgnext : (pool1.slots loc).gnext = (starts (loc + cutOff t.cls) r).headD usedNext :=
      (hrelinked.same loc).2.2.2.1.trans hchain.2.1
    obtain ⟨pool', lists', hrun, hrelinked', hfree', hmem'⟩ := ih fuel hclasses' hfree1
      (Chain.congr hchain.2.2 (fun a _ => (hrelinked.same a).2.2.2.1) fun a _ =>
      (hrelinked.same a).2.2.2.2)
      (fun a u hu => by
        obtain ⟨h1, h2, h3, -⟩ := hrelinked.same a
        rw [h1, h2, h3]
        exact hlabels a u (mem_cons_of_mem _ hu))
      (fun x u hu => by
        refine (hlisted x u (mem_cons_of_mem _ hu)).imp id fun hx =>
          (hmem1 _ _).mpr ⟨hx, fun heq => ?_⟩
        exact absurd heq (hbehind x (mem_starts_of_place hu)))
      hnext.2 (by omega)
    refine ⟨pool', lists', ?_, hrelinked.trans hrelinked' fun i x hx =>
      ((hmem1 i x).mp hx).1, hfree', ?_⟩
    · rw [starts_cons, headD_cons, unlinkRun, if_neg fun heq => hnext.1 heq.symm]
      simp only [← hpool1, hgnext]
      exact hrun
    · intro i a hto
      rw [hmem' i a fun j hj => hto j ((hmem1 j _).mp hj).1, hmem1, starts_cons, mem_cons, not_or]
      constructor
      · rintro ⟨⟨ha, hloc⟩, hnot⟩
        refine ⟨ha, fun heq => ?_, hnot⟩
        exact hto i (hloc heq ▸ heq ▸ ha)
      · rintro ⟨ha, hne, hnot⟩
        exact ⟨⟨ha, fun heq => absurd heq hne⟩, hnot⟩

/-! ### New free slots -/

/-- A round of the last loop that makes a slot. -/
def mergeOne (pool : MempoolType) (b : Int) (i : Nat) (loc gprev : Int) : MempoolType :=
  let head := (pool.blocks b).freelists i
  let slots : Slots := update pool.slots loc
    { blockPtr := b, size := i, free := true, gprev := gprev, gnext := loc + cutOff i, prev := 0,
      next := head }
  let slots := if head ≠ 0 then slots.setPrev head loc else slots
  { pool with
    slots := slots
    blocks := update pool.blocks b ((pool.blocks b).setList i loc) }

theorem mergeSlots_take (pool : MempoolType) (b : Int) (power i : Nat) (loc : Int) (current : Int)
    (h : cutOff i ≤ left) :
    mergeSlots b power (i + 1) loc left current pool
      = mergeSlots b power i (loc + cutOff i) (left - cutOff i) loc
          (mergeOne pool b i loc (if i ≠ power then current else (pool.slots loc).gprev)) := by
  rw [mergeSlots, if_pos h]
  rfl

/-- What the rounds of the last loop do: `ts` are the new tiles, from `loc` on. -/
structure Merged (b gprev loc : Int) (ts : List Tile) (lists : Nat → List Int)
    (pool pool' : MempoolType) :
    Prop where
  labels : Labelled pool'.slots b loc ts
  chain : SlotChain pool'.slots gprev (starts loc ts) (loc + tileBytes ts)
  same : ∀ x, x ∉ starts loc ts → (pool'.slots x).size = (pool.slots x).size ∧
    (pool'.slots x).free = (pool.slots x).free ∧
    (pool'.slots x).blockPtr = (pool.slots x).blockPtr ∧
    (pool'.slots x).gnext = (pool.slots x).gnext ∧ (pool'.slots x).gprev = (pool.slots x).gprev
  outside : ∀ x, x ∉ starts loc ts → (∀ i, x ∉ lists i) → pool'.slots x = pool.slots x
  blocks : ∀ c, c ≠ b → pool'.blocks c = pool.blocks c
  block : ∃ fl, pool'.blocks b = { pool.blocks b with freelists := fl }
  tail : pool'.blockTail = pool.blockTail
  limit : pool'.limit = pool.limit
  size : pool'.size = pool.size
  lists : ∃ lists', FreeLists pool'.slots (pool'.blocks b).freelists lists' ∧
    ∀ i a, a ∈ lists' i ↔ a ∈ lists i ∨ (a, Tile.mk i true) ∈ place loc ts

theorem Merged.nil {gprev : Int}
    (hfree : FreeLists pool.slots (pool.blocks b).freelists lists) :
    Merged b gprev loc [] lists pool pool where
  labels := fun _ _ hmem => absurd hmem not_mem_nil
  chain := trivial
  same := fun _ _ => ⟨rfl, rfl, rfl, rfl, rfl⟩
  outside := fun _ _ _ => rfl
  blocks := fun _ _ => rfl
  block := ⟨_, rfl⟩
  tail := rfl
  limit := rfl
  size := rfl
  lists := ⟨lists, hfree, fun _ _ => ⟨.inl, fun h => h.resolve_right not_mem_nil⟩⟩

theorem mergeOne_slots (gprev : Int) (hhead : (pool.blocks b).freelists i ≠ loc) (x : Int) :
    (mergeOne pool b i loc gprev).slots x =
      if x = loc then
        { blockPtr := b, size := i, free := true, gprev := gprev, gnext := loc + cutOff i, prev := 0
          next := (pool.blocks b).freelists i }
      else
        { pool.slots x with
          prev := if x = (pool.blocks b).freelists i ∧
            x ≠ 0 then loc else (pool.slots x).prev } := by
  unfold mergeOne
  simp only [Slots.setPrev_ite]
  by_cases hx : x = loc
  · subst hx
    rw [if_pos rfl, update_self, if_neg fun hand => hhead hand.1.symm]
  · rw [if_neg hx, update_of_ne hx]

theorem mergeOne_lists (i : Nat) (gprev : Int)
    (hfree : FreeLists pool.slots (pool.blocks b).freelists lists) (hloc : ∀ j, loc ∉ lists j)
    (hzero : loc ≠ 0) :
    FreeLists (mergeOne pool b i loc gprev).slots ((mergeOne pool b i loc gprev).blocks b).freelists
      (update lists i (loc :: lists i)) := by
  have hhead : (pool.blocks b).freelists i ≠ loc := by
    intro heq
    exact hloc i (heq ▸ hfree.head_mem (heq ▸ hzero))
  have hne : ∀ j, ∀ y ∈ lists j, y ≠ loc := fun j y hy heq => hloc j (heq ▸ hy)
  refine Buckets.push hfree hloc hzero ?_ ?_ ?_ ?_ ?_
  · simp only [mergeOne_slots _ hhead, if_true]
  · simp only [mergeOne_slots _ hhead, if_true]
  · intro j y hy
    simp only [mergeOne_slots _ hhead, if_neg (hne j y hy)]
  · intro j y hy
    have hy0 : y ≠ 0 := fun heq => hfree.ne_null j (heq ▸ hy)
    simp only [mergeOne_slots _ hhead, if_neg (hne j y hy), hy0, ne_eq, not_false_eq_true, and_true]
  · intro j
    simp only [mergeOne, update_self, BlockHeader.setList, update_apply]

/-- One round of the merge, before the rounds for `ts`. -/
theorem Merged.round {gprev : Int} {pool' : MempoolType} (hi : i < cutOffNum) (hts : ClassesOk ts)
    (hfree : FreeLists pool.slots (pool.blocks b).freelists lists) (hloc : ∀ j, loc ∉ lists j)
    (hzero : loc ≠ 0)
    (h : Merged b loc (loc + cutOff i) ts (update lists i (loc :: lists i))
      (mergeOne pool b i loc gprev)
      pool') :
    Merged b gprev loc ({ cls := i, free := true } :: ts) lists pool pool' := by
  have hcut := cutOff_pos hi
  have hhead : (pool.blocks b).freelists i ≠ loc := by
    intro heq
    exact hloc i (heq ▸ hfree.head_mem (heq ▸ hzero))
  have hslots := mergeOne_slots gprev hhead
  have hnotin : loc ∉ starts (loc + cutOff i) ts := by
    intro hmem
    have hbounds := starts_bounds hts hmem
    omega
  have hmem1 : ∀ {j y}, y ∈ update lists i (loc :: lists i) j ↔ (j = i ∧ y = loc) ∨
    y ∈ lists j := by
    intro j y
    by_cases hj : j = i
    · subst hj
      simp
    · simp [hj]
  obtain ⟨hsize, hfree', hptr, hgnext, hgprev⟩ := h.same loc hnotin
  rw [hslots, if_pos rfl] at hsize hfree' hptr hgnext hgprev
  obtain ⟨fl, hfl⟩ := h.block
  obtain ⟨lists', hlists', hmem'⟩ := h.lists
  have hend :
    loc + tileBytes ({ cls := i, free := true } :: ts) = loc + cutOff i + tileBytes ts := by
    rw [tileBytes_cons]
    push_cast
    ring
  refine ⟨?_, ⟨hgprev, hgnext.trans ?_, ?_⟩, ?_, ?_, ?_, ⟨fl, ?_⟩, h.tail, h.limit, h.size,
    ⟨lists', hlists', ?_⟩⟩
  · intro a t hmem
    obtain heq | hmem := mem_cons.mp hmem
    · cases heq
      exact ⟨hsize, hfree', hptr⟩
    · exact h.labels a t hmem
  · cases ts with
    | nil => simp [place]
    | cons t ts => rfl
  · rw [hend]
    exact h.chain
  · intro x hx
    rw [starts_cons, mem_cons, not_or] at hx
    obtain ⟨h1, h2, h3, h4, h5⟩ := h.same x hx.2
    rw [hslots, if_neg hx.1] at h1 h2 h3 h4 h5
    exact ⟨h1, h2, h3, h4, h5⟩
  · intro x hx hout
    rw [starts_cons, mem_cons, not_or] at hx
    have hnot : ¬ (x = (pool.blocks b).freelists i ∧ x ≠ 0) := by
      rintro ⟨rfl, hne⟩
      exact hout i (hfree.head_mem hne)
    rw [h.outside x hx.2, hslots, if_neg hx.1, if_neg hnot]
    intro j hj
    obtain ⟨-, heq⟩ | hj := hmem1.mp hj
    · exact hx.1 heq
    · exact hout j hj
  · intro c hc
    rw [h.blocks c hc]
    exact update_of_ne hc _ _
  · rw [hfl]
    simp only [mergeOne, update_self, BlockHeader.setList]
  · intro j a
    rw [hmem', hmem1, place, mem_cons, Prod.mk.injEq, Tile.mk.injEq]
    simp only [and_true]
    constructor
    · rintro ((⟨rfl, rfl⟩ | hin) | hin)
      · exact .inr (.inl ⟨rfl, rfl⟩)
      · exact .inl hin
      · exact .inr (.inr hin)
    · rintro (hin | ⟨rfl, rfl⟩ | hin)
      · exact .inl (.inr hin)
      · exact .inl (.inl ⟨rfl, rfl⟩)
      · exact .inr hin

/-- The places for new slots are in no list. -/
def Unlisted (lists : Nat → List Int) (l : List Int) : Prop := ∀ a ∈ l, a ≠ 0 ∧ ∀ j, a ∉ lists j

theorem Unlisted.rest (hi : i < cutOffNum)
    (hts : ClassesOk ts) (h : Unlisted lists (starts loc ({ cls := i, free := true } :: ts))) :
    Unlisted (update lists i (loc :: lists i)) (starts (loc + cutOff i) ts) := by
  intro a ha
  have hcut := cutOff_pos hi
  have hbounds := starts_bounds hts ha
  obtain ⟨ha0, haj⟩ := h a (mem_cons_of_mem _ ha)
  refine ⟨ha0, fun j hj => ?_⟩
  by_cases hji : j = i
  · subst hji
    rw [update_self] at hj
    obtain rfl | hj := mem_cons.mp hj
    · omega
    · exact haj j hj
  · rw [update_of_ne hji] at hj
    exact haj j hj

theorem mergeSlots_spec {power r : Nat} {current : Int} (hr : r ≤ power)
    (hpower : power ≤ cutOffNum)
    (hfree : FreeLists pool.slots (pool.blocks b).freelists lists)
    (hout : Unlisted lists (starts loc (freeTiles (greedy r left)))) :
    ∃ pool', mergeSlots b power r loc left current pool
        = (pool', (starts loc (freeTiles (greedy r left))).getLastD current) ∧
      Merged b current loc (freeTiles (greedy r left)) lists pool pool' := by
  induction r generalizing left loc current pool lists with
  | zero => exact ⟨pool, rfl, Merged.nil hfree⟩
  | succ r ih =>
    unfold greedy at hout ⊢
    by_cases hle : cutOff r ≤ left
    · rw [if_pos hle, freeTiles_cons] at hout ⊢
      obtain ⟨hzero, hloc⟩ := hout loc mem_cons_self
      have hclasses : ClassesOk (freeTiles (greedy r (left - cutOff r))) :=
        classesOk_freeTiles fun c hc => by
          have hlt := lt_of_mem_greedy hc
          omega
      obtain ⟨pool', hrun, hmerged⟩ :
        ∃ pool', mergeSlots b power r (loc + cutOff r) (left - cutOff r) loc
          (mergeOne pool b r loc current) = (pool', _) ∧ Merged b loc _ _ _ _ pool' :=
        ih (by omega) (mergeOne_lists r current hfree hloc hzero) (hout.rest (by omega) hclasses)
      refine ⟨pool', ?_, hmerged.round (by omega) hclasses hfree hloc hzero⟩
      rw [mergeSlots_take pool b power r loc current hle, if_pos (by omega), hrun, starts_cons,
        getLastD_cons]
    · rw [if_neg hle] at hout ⊢
      obtain ⟨pool', hrun, hmerged⟩ :
        ∃ pool', mergeSlots b power r loc left current pool = (pool', _) ∧
          Merged b current loc _ _ _ pool' := ih (by omega) hfree hout
      refine ⟨pool', ?_, hmerged⟩
      rw [mergeSlots, if_neg hle, hrun]

theorem mergeSlots_all (current : Int) (hleft : 64 ≤ left) (hle : left ≤ 2 ^ 30)
    (hfree : FreeLists pool.slots (pool.blocks b).freelists lists)
    (hout : Unlisted lists (starts loc (freshTiles left))) :
    ∃ pool', mergeSlots b (rounds left - 1) (rounds left) loc left current pool
        = (pool', (starts loc (freshTiles left)).getLastD 0) ∧
      Merged b (pool.slots loc).gprev loc (freshTiles left) lists pool pool' := by
  obtain ⟨hpos, hfits⟩ := rounds_pos hle hleft
  have hbound := rounds_le hle
  unfold freshTiles at hout ⊢
  obtain ⟨r, hr⟩ := Nat.exists_eq_succ_of_ne_zero hpos.ne'
  rw [hr] at hfits hbound hout ⊢
  rw [Nat.succ_eq_add_one, Nat.add_sub_cancel] at hfits ⊢
  unfold greedy at hout ⊢
  rw [if_pos hfits, freeTiles_cons] at hout ⊢
  obtain ⟨hzero, hloc⟩ := hout loc mem_cons_self
  have hclasses : ClassesOk (freeTiles (greedy r (left - cutOff r))) :=
    classesOk_freeTiles fun c hc => by
      have hlt := lt_of_mem_greedy hc
      omega
  obtain ⟨pool', hrun, hmerged⟩ : ∃ pool', mergeSlots b r r (loc + cutOff r) (left - cutOff r) loc
      (mergeOne pool b r loc (pool.slots loc).gprev) = (pool', _) ∧ Merged b loc _ _ _ _ pool' :=
    mergeSlots_spec (le_refl r) (by omega) (mergeOne_lists r _ hfree hloc hzero)
      (hout.rest (by omega) hclasses)
  refine ⟨pool', ?_, hmerged.round (by omega) hclasses hfree hloc hzero⟩
  rw [mergeSlots_take pool b r r loc current hfits, if_neg (not_not.mpr rfl), hrun, starts_cons,
    getLastD_cons]

/-! ### The whole of it -/

/-- The steps of `mempool_free`. -/
theorem mempoolFree_eq {pool1 pool2 : MempoolType} {toFree first usedNext last : Int} {s0 : Slots}
    {size1 size : Nat} {c : Nat}
    (hs0 : update pool.slots toFree { pool.slots toFree with free := true } = s0)
    (hb : (s0 toFree).blockPtr = b) (hc : (s0 toFree).size = c)
    (hbefore : freeBefore s0 ((pool.blocks b).size + 1) toFree 0 toFree = .ok (size1, first))
    (hbehind : freeBehind s0 ((pool.blocks b).size + 1) toFree (size1 - cutOff c) =
      .ok (size, usedNext))
    (hunlink : unlinkRun b toFree usedNext ((pool.blocks b).size + 1) first { pool with
        slots := s0
        blocks := update pool.blocks b { pool.blocks b with used := (pool.blocks b).used - c } } =
          .ok pool1)
    (hsize : 64 ≤ size) (hle : size ≤ 2 ^ 30)
    (hmerge : mergeSlots b (rounds size - 1) (rounds size) first size first pool1 = (pool2, last)) :
    mempoolFree pool (toFree + sizeofUsedHeader) = .ok { pool2 with
        slots := if usedNext ≠ 0 then Slots.setGprev pool2.slots usedNext last
          else Slots.setGnext pool2.slots last 0 } := by
  have hptr : toFree + sizeofUsedHeader - sizeofUsedHeader = toFree := by omega
  have hpower := whichPow2_lt hle
  have hrounds :
    (if size < cutOff (whichPow2 size) then whichPow2 size else whichPow2 size + 1) = rounds size :=
    rfl
  unfold mempoolFree
  simp only [hptr, hs0, hb, hc]
  refine bind_eq_ok.mpr ⟨_, hbefore, ?_⟩
  refine bind_eq_ok.mpr ⟨_, hbehind, ?_⟩
  refine bind_eq_ok.mpr ⟨_, hunlink, ?_⟩
  simp only [hrounds]
  rw [if_neg hpower.ne, if_neg (rounds_pos hle hsize).1.ne', hmerge]

/-- A stretch of free tiles, with the used tile in it that is freed. -/
structure Stretch (l₁ l₂ p f₁ f₂ q : List Tile) : Prop where
  left : l₁ = p ++ f₁
  right : l₂ = f₂ ++ q
  free_left : ∀ t ∈ f₁, t.free = true
  free_right : ∀ t ∈ f₂, t.free = true
  end_left : p = [] ∨ ∃ p' t, p = p' ++ [t] ∧ t.free = false
  end_right : q = [] ∨ ∃ t q', q = t :: q' ∧ t.free = false

theorem exists_stretch (l₁ l₂ : List Tile) : ∃ p f₁ f₂ q, Stretch l₁ l₂ p f₁ f₂ q := by
  obtain ⟨p, f₁, hl1, hf1, hp⟩ := exists_free_suffix l₁
  obtain ⟨f₂, q, hl2, hf2, hq⟩ := exists_free_prefix l₂
  exact ⟨p, f₁, f₂, q, hl1, hl2, hf1, hf2, hp, hq⟩

theorem length_le_tileBytes (h : ClassesOk ts) : 64 * ts.length ≤ tileBytes ts := by
  induction ts with
  | nil => simp
  | cons t ts ih =>
    have hcut := cutOff_pos (h t mem_cons_self)
    have hrest := ih fun u hu => h u (mem_cons_of_mem _ hu)
    rw [length_cons, tileBytes_cons]
    omega

theorem starts_free (loc : Int) (l₁ l₂ : List Tile) (c : Nat) (x y : Bool) :
    starts loc (l₁ ++ { cls := c, free := x } :: l₂) =
    starts loc (l₁ ++ { cls := c, free := y } :: l₂) := by
  rw [starts_append, starts_append, starts_cons, starts_cons]

/-- The pool after the status and the block's count are set. -/
def markFree (pool : MempoolType) (b toFree : Int) (c : Nat) : MempoolType :=
  { pool with
    slots := update pool.slots toFree { pool.slots toFree with free := true }
    blocks := update pool.blocks b
      { pool.blocks b with used := (pool.blocks b).used - c } }

theorem markFree_slots (pool : MempoolType) (b toFree : Int) (c : Nat) (x : Int) :
    (markFree pool b toFree c).slots x
      = { pool.slots x with free := if x = toFree then true else (pool.slots x).free } := by
  unfold markFree
  simp only
  by_cases hx : x = toFree
  · rw [hx, update_self, if_pos rfl]
  · rw [update_of_ne hx, if_neg hx]

section Free

variable {pool : MempoolType} {b start : Int} {l₁ l₂ p f₁ f₂ q : List Tile} {c : Nat}

theorem markFree_block
    (h : BlockOk pool.slots (pool.blocks b) b start (l₁ ++ { cls := c, free := false } :: l₂)) :
    SlotChain (markFree pool b (start + tileBytes l₁) c).slots 0
        (starts start (l₁ ++ { cls := c, free := true } :: l₂)) 0 ∧
      Labelled (markFree pool b (start + tileBytes l₁) c).slots b start
        (l₁ ++ { cls := c, free := true } :: l₂) := by
  refine ⟨?_, fun a t hat => ?_⟩
  · rw [starts_free start l₁ l₂ c true false]
    refine Chain.congr h.chain ?_ ?_
    · intro a _
      rw [markFree_slots]
    · intro a _
      rw [markFree_slots]
  · rw [append_cons, place_middle rfl, mem_append, mem_append] at hat
    have hold := h.labels a t
    rw [append_cons, place_middle rfl, mem_append, mem_append] at hold
    obtain ⟨hclasses1, hclasses2⟩ := ClassesOk.append.mp h.classes
    have hcut := cutOff_pos (hclasses2 _ mem_cons_self)
    simp only at hcut
    rw [markFree_slots]
    obtain (hin | hin) | hin := hat
    · have hbounds := starts_bounds hclasses1 (mem_starts_of_place hin)
      rw [if_neg (by omega)]
      exact hold (.inl (.inl hin))
    · cases mem_singleton.mp hin
      obtain ⟨hsize, -, hptr⟩ := h.labels _ _ mem_place_middle
      rw [if_pos rfl]
      exact ⟨hsize, rfl, hptr⟩
    · have hbounds := place_bounds hin
      have hone : (tileBytes [{ cls := c, free := true }]) = cutOff c := by simp
      rw [if_neg (by omega)]
      exact hold (.inr hin)

theorem markFree_lists {toFree : Int} {lists : Nat → List Int}
    (hfree : FreeLists pool.slots (pool.blocks b).freelists lists) :
    FreeLists (markFree pool b toFree c).slots ((markFree pool b toFree c).blocks b).freelists
      lists := by
  have hpool : ((markFree pool b toFree c).blocks b).freelists = (pool.blocks b).freelists := by
    simp only [markFree, update_self]
  rw [hpool]
  refine Buckets.congr hfree ?_ ?_ fun _ => rfl
  · intro i a _
    rw [markFree_slots]
  · intro i a _
    rw [markFree_slots]

theorem Stretch.whole (hst : Stretch l₁ l₂ p f₁ f₂ q) (t : Tile) :
    l₁ ++ t :: l₂ = p ++ (f₁ ++ t :: f₂) ++ q := by
  rw [hst.left, hst.right]
  simp

theorem Stretch.loc_eq (hst : Stretch l₁ l₂ p f₁ f₂ q) :
    start + (tileBytes p : Int) + tileBytes f₁ = start + tileBytes l₁ := by
  rw [hst.left, tileBytes_append]
  push_cast
  ring

theorem stretch_classes {x y : Bool} (hst : Stretch l₁ l₂ p f₁ f₂ q)
    (h : ClassesOk (l₁ ++ { cls := c, free := x } :: l₂)) :
    ClassesOk (f₁ ++ { cls := c, free := y } :: f₂) ∧ ClassesOk q := by
  rw [hst.whole] at h
  obtain ⟨hclasses1, hclasses2⟩ := ClassesOk.append.mp h
  obtain ⟨hc1, hc2⟩ := ClassesOk.append.mp (ClassesOk.append.mp hclasses1).2
  refine ⟨ClassesOk.append.mpr ⟨hc1, fun t ht => ?_⟩, hclasses2⟩
  obtain rfl | ht := mem_cons.mp ht
  · exact hc2 { cls := c, free := x } mem_cons_self
  · exact hc2 t (mem_cons_of_mem _ ht)

/-- The slots of the stretch, the freed one apart, are in the free lists. -/
theorem stretch_listed (hst : Stretch l₁ l₂ p f₁ f₂ q) {lists : Nat → List Int}
    (hmem : ∀ i a, a ∈ lists i ↔
      (a, Tile.mk i true) ∈ place start (l₁ ++ { cls := c, free := false } :: l₂)) {x : Int}
    {t : Tile}
    (hxt : (x, t) ∈ place (start + tileBytes p) (f₁ ++ { cls := c, free := true } :: f₂)) :
    x = start + tileBytes l₁ ∨ x ∈ lists t.cls := by
  have hlisted : t.free = true →
      (x, t) ∈ place start (p ++ (f₁ ++ { cls := c, free := false } :: f₂) ++ q) →
      x ∈ lists t.cls := by
    intro ht hx
    rw [hmem, hst.whole, ← ht]
    exact hx
  rw [place_middle rfl, mem_append, mem_append, place_append, mem_append, place, mem_cons]
    at hlisted
  rw [place_append, place, mem_append, mem_cons, Prod.mk.injEq] at hxt
  obtain hin | hin | hin := hxt
  · exact .inr (hlisted (hst.free_left t (mem_of_place hin)) (.inl (.inr (.inl hin))))
  · exact .inl (hin.1.trans hst.loc_eq)
  · exact .inr (hlisted (hst.free_right t (mem_of_place hin)) (.inl (.inr (.inr (.inr hin)))))

theorem stretch_next (hst : Stretch l₁ l₂ p f₁ f₂ q)
    (h : BlockOk pool.slots (pool.blocks b) b start (l₁ ++ { cls := c, free := false } :: l₂)) :
    (starts (start + tileBytes p + tileBytes (f₁ ++ { cls := c, free := false } :: f₂)) q).headD 0 ∉
      starts (start + tileBytes p) (f₁ ++ { cls := c, free := false } :: f₂) := by
  intro hin
  obtain ⟨hclasses, hclasses'⟩ := stretch_classes (y := false) hst h.classes
  cases hq :
    starts (start + tileBytes p + tileBytes (f₁ ++ { cls := c, free := false } :: f₂)) q with
  | nil =>
    rw [hq] at hin
    obtain ⟨t, ht⟩ := mem_starts hin
    refine h.ne_zero (t := t) ?_ rfl
    rw [hst.whole, place_middle rfl]
    exact mem_append_left _ (mem_append_right _ ht)
  | cons y l =>
    rw [hq, headD_cons] at hin
    have hbounds := starts_bounds hclasses hin
    have hbounds' := starts_bounds hclasses' (hq ▸ mem_cons_self)
    omega

/-- The two searches find the ends of the stretch, and its slots leave their lists. -/
theorem stretch_unlinked
    (h : BlockOk pool.slots (pool.blocks b) b start (l₁ ++ { cls := c, free := false } :: l₂))
    (hst : Stretch l₁ l₂ p f₁ f₂ q)
    (hfits : tileBytes (l₁ ++ { cls := c, free := false } :: l₂) ≤ (pool.blocks b).size)
    {lists : Nat → List Int}
    (hfree : FreeLists pool.slots (pool.blocks b).freelists lists)
    (hmem : ∀ i a, a ∈ lists i ↔
      (a, Tile.mk i true) ∈ place start (l₁ ++ { cls := c, free := false } :: l₂)) :
    freeBefore (markFree pool b (start + tileBytes l₁) c).slots ((pool.blocks b).size + 1)
      (start + tileBytes l₁) 0
        (start + tileBytes l₁) = .ok (tileBytes f₁ + cutOff c, start + tileBytes p) ∧
      freeBehind (markFree pool b (start + tileBytes l₁) c).slots ((pool.blocks b).size + 1)
        (start + tileBytes l₁)
        (tileBytes f₁ + cutOff c - cutOff c) =
        .ok (tileBytes (f₁ ++ { cls := c, free := false } :: f₂),
          (starts (start + tileBytes p + tileBytes (f₁ ++ { cls := c, free := false } :: f₂))
            q).headD 0) ∧
      ∃ pool1 lists1, unlinkRun b (start + tileBytes l₁)
          ((starts (start + tileBytes p + tileBytes (f₁ ++ { cls := c, free := false } :: f₂))
            q).headD 0)
          ((pool.blocks b).size + 1) (start + tileBytes p)
            (markFree pool b (start + tileBytes l₁) c) = .ok pool1 ∧
        Relinked b lists (markFree pool b (start + tileBytes l₁) c) pool1 ∧
        FreeLists pool1.slots (pool1.blocks b).freelists lists1 ∧
        ∀ i a, a ∈ lists1 i ↔ a ∈ lists i ∧
          a ∉ starts (start + tileBytes p) (f₁ ++ { cls := c, free := false } :: f₂) := by
  obtain ⟨hchain, hlabels⟩ := markFree_block h
  have hlength := length_le_tileBytes h.classes
  rw [length_append, length_cons] at hlength
  have hzero : ∀ a ∈ starts start (l₁ ++ { cls := c, free := true } :: l₂), a ≠ 0 := by
    intro a ha
    rw [starts_free start l₁ l₂ c true false] at ha
    obtain ⟨t, ht⟩ := mem_starts ha
    exact h.ne_zero ht
  have hnot : ∀ i, start + (tileBytes l₁ : Int) ∉ lists i := by
    intro i hi
    have htile := place_unique h.classes ((hmem i _).mp hi) mem_place_middle
    cases htile
  have hnext := stretch_next hst h
  have hlisted := fun x t => stretch_listed (x := x) (t := t) hst hmem
  have hclasses := (stretch_classes (y := true) hst h.classes).1
  have hwhole := hst.whole { cls := c, free := true }
  obtain ⟨rfl, rfl, hf1, hf2, hp, hq⟩ := hst
  rw [length_append, length_append] at hlength
  have hrun : tileBytes (f₁ ++ { cls := c, free := true } :: f₂)
      = tileBytes (f₁ ++ { cls := c, free := false } :: f₂) := by
    simp only [tileBytes_append, tileBytes_cons]
  refine ⟨?_, ?_, ?_⟩
  · have hbefore :=
      freeBefore_spec hchain hlabels hzero hp f₁ hf1 rfl rfl ((pool.blocks b).size + 1) 0
      (start + tileBytes (p ++ f₁)) (by omega)
    rw [hbefore, tileBytes_append, tileBytes_cons, tileBytes_nil]
    simp
  · have hbehind :=
      freeBehind_spec hchain hlabels hzero hq f₂ hf2 rfl rfl ((pool.blocks b).size + 1)
      (tileBytes f₁ + cutOff c - cutOff c) (by omega)
    have hend : start + (tileBytes (p ++ f₁ ++ { cls := c, free := true } :: f₂))
        = start + tileBytes p + tileBytes (f₁ ++ { cls := c, free := false } :: f₂) := by
      simp only [tileBytes_append, tileBytes_cons]
      push_cast
      ring
    rw [hbehind, hend, Nat.add_sub_cancel]
    simp only [tileBytes_append, tileBytes_cons]
  · -- the stretch is a part of the block's list
    rw [hwhole, starts_middle rfl, hrun] at hchain
    obtain ⟨-, hmid⟩ := Chain.append.mp (Chain.append.mp hchain).1
    have hlabels' :
      Labelled (markFree pool b (start + tileBytes (p ++ f₁)) c).slots b (start + tileBytes p)
        (f₁ ++ { cls := c, free := true } :: f₂) := by
      intro a t hat
      refine hlabels a t ?_
      rw [hwhole, place_middle rfl]
      exact mem_append_left _ (mem_append_right _ hat)
    have hrunStarts := starts_free (start + tileBytes p) f₁ f₂ c true false
    obtain ⟨pool1, lists1, hunlink, hrelinked, hfree1, hmem1⟩ := unlinkRun_spec
      (f₁ ++ { cls := c, free := true } :: f₂) ((pool.blocks b).size + 1) hclasses
      (markFree_lists hfree) hmid hlabels' hlisted (hrunStarts ▸ hnext)
      (by rw [length_append, length_cons]; omega)
    refine ⟨pool1, lists1, ?_, hrelinked, hfree1, fun i a => ?_⟩
    · have hfirst :
        ∀ d, (starts (start + (tileBytes p)) (f₁ ++ { cls := c, free := true } :: f₂)).headD d
          = start + tileBytes p := by
        intro d
        cases f₁ with
        | nil => rfl
        | cons t f₁ => rfl
      rw [hfirst] at hunlink
      exact hunlink
    · rw [hmem1 i a hnot, hrunStarts]

theorem tileBytes_freshTiles {ts : List Tile} (hts : ClassesOk ts) (hle : tileBytes ts ≤ 2 ^ 30) :
    tileBytes (freshTiles (tileBytes ts)) = tileBytes ts := by
  have hbytes : tileBytes ts = classBytes (ts.map (·.cls)) := by
    rw [classBytes, map_map]
    rfl
  have hdvd : 64 ∣ tileBytes ts := by
    rw [hbytes]
    refine classBytes_dvd fun c hc => ?_
    obtain ⟨t, ht, rfl⟩ := mem_map.mp hc
    exact hts t ht
  rw [freshTiles, tileBytes_freeTiles]
  exact classBytes_greedy_of_dvd (rounds_le hle) (lt_rounds hle) hdvd

/-- The last writes of `mempool_free`. -/
def joinMerged (s : Slots) (usedNext last : Int) : Slots :=
  if usedNext ≠ 0 then s.setGprev usedNext last else s.setGnext last 0

theorem joinMerged_apply (s : Slots) (usedNext last x : Int) :
    joinMerged s usedNext last x = { s x with
      gprev := if usedNext ≠ 0 ∧ x = usedNext then last else (s x).gprev
      gnext := if usedNext = 0 ∧ x = last then 0 else (s x).gnext } := by
  unfold joinMerged
  by_cases hu : usedNext = 0
  · rw [if_neg (not_not.mpr hu), Slots.setGnext_apply]
    simp [hu]
  · rw [if_pos hu, Slots.setGprev_apply]
    simp [hu]

/-- A free run between the tiles `p` and `q` once its slots have left their lists: `first` is where
it starts, `last` where its last new slot is to start, `usedNext` the slot behind it. -/
structure FreeRun (pool pool1 : MempoolType) (b start first toFree usedNext last : Int)
    (p run q : List Tile) (c : Nat) (lists lists1 : Nat → List Int) : Prop where
  block : BlockOk pool.slots (pool.blocks b) b start (p ++ run ++ q)
  first_eq : start + tileBytes p = first
  next_eq : (starts (first + tileBytes run) q).headD 0 = usedNext
  last_eq : (starts first (freshTiles (tileBytes run))).getLastD 0 = last
  run_ne : run ≠ []
  run_le : tileBytes run ≤ 2 ^ 30
  used : usedSum run = c
  toFree_mem : toFree ∈ starts first run
  mem_lists : ∀ i a, a ∈ lists i ↔ (a, Tile.mk i true) ∈ place start (p ++ run ++ q)
  mem_lists1 : ∀ i a, a ∈ lists1 i ↔ a ∈ lists i ∧ a ∉ starts first run
  relinked : Relinked b lists (markFree pool b toFree c) pool1

theorem usedSum_free (hfree : ∀ t ∈ ts, t.free = true) : usedSum ts = 0 := by
  have hfilter : ts.filter (fun t => !t.free) = [] :=
    filter_eq_nil_iff.mpr fun t ht => by simp [hfree t ht]
  rw [usedSum, hfilter]
  rfl

namespace FreeRun

variable {pool1 pool2 : MempoolType} {first toFree usedNext last x : Int} {run : List Tile}
  {lists lists1 : Nat → List Int}
  (h : FreeRun pool pool1 b start first toFree usedNext last p run q c lists lists1)

include h

theorem classes_run : ClassesOk run :=
  (ClassesOk.append.mp (ClassesOk.append.mp h.block.classes).1).2

theorem run_pos : 64 ≤ tileBytes run := by
  have hlength := length_le_tileBytes h.classes_run
  have hpos := length_pos_of_ne_nil h.run_ne
  omega

theorem bytes : tileBytes (freshTiles (tileBytes run)) = tileBytes run :=
  tileBytes_freshTiles h.classes_run h.run_le

theorem new_ne : freshTiles (tileBytes run) ≠ [] := by
  intro hnil
  have hbytes := h.bytes
  have hpos := h.run_pos
  rw [hnil, tileBytes_nil] at hbytes
  omega

theorem place_eq : place start (p ++ run ++ q)
    = place start p ++ place first run ++ place (first + tileBytes run) q :=
  place_middle h.first_eq.symm run q

/-! What lies in the stretch, and what before and behind it. -/

theorem before_bounds (hx : x ∈ starts start p) : start ≤ x ∧ x + 64 ≤ first := by
  have hbounds := starts_bounds (ClassesOk.append.mp (ClassesOk.append.mp h.block.classes).1).1 hx
  have hfirst := h.first_eq
  omega

theorem behind_bounds (hx : x ∈ starts (first + tileBytes run) q) :
    first + tileBytes run ≤ x ∧ x + 64 ≤ start + tileBytes (p ++ run ++ q) := by
  have hbounds := starts_bounds (ClassesOk.append.mp h.block.classes).2 hx
  have hfirst := h.first_eq
  simp only [tileBytes_append]
  omega

theorem run_bounds (hx : x ∈ starts first run) : first ≤ x ∧ x + 64 ≤ first + tileBytes run :=
  starts_bounds h.classes_run hx

theorem new_bounds (hx : x ∈ starts first (freshTiles (tileBytes run))) :
    first ≤ x ∧ x + 64 ≤ first + tileBytes run := by
  have hbounds := starts_bounds (freshTiles_spec h.run_le).1 hx
  rwa [h.bytes] at hbounds

theorem total_le : start ≤ first ∧ first + tileBytes run ≤ start + tileBytes (p ++ run ++ q) := by
  have hfirst := h.first_eq
  simp only [tileBytes_append]
  omega

theorem unlisted : Unlisted lists1 (starts first (freshTiles (tileBytes run))) := by
  intro a ha
  have hbounds := h.new_bounds ha
  have htotal := h.total_le
  refine ⟨?_, fun j hj => ?_⟩
  · have hnonzero := h.block.nonzero
    omega
  · obtain ⟨hin, hnot⟩ := (h.mem_lists1 j a).mp hj
    rw [h.mem_lists, h.place_eq, mem_append, mem_append] at hin
    obtain (hin | hin) | hin := hin
    · have hbounds' := h.before_bounds (mem_starts_of_place hin)
      omega
    · exact hnot (mem_starts_of_place hin)
    · have hbounds' := h.behind_bounds (mem_starts_of_place hin)
      omega

theorem next_mem (hne : usedNext ≠ 0) : usedNext ∈ starts (first + tileBytes run) q := by
  rw [← h.next_eq] at hne ⊢
  exact headD_mem hne

theorem getLastD_new (d : Int) :
    (starts first (freshTiles (tileBytes run))).getLastD d = last := by
  obtain ⟨t, rest, hcons⟩ := exists_cons_of_ne_nil h.new_ne
  rw [← h.last_eq, hcons, starts_cons, getLastD_cons, getLastD_cons]

theorem last_mem : last ∈ starts first (freshTiles (tileBytes run)) := by
  obtain ⟨t, rest, hcons⟩ := exists_cons_of_ne_nil h.new_ne
  rw [← h.last_eq, hcons, starts_cons, getLastD_cons]
  exact getLastD_mem_cons

theorem gprev_first : (pool1.slots first).gprev = (starts start p).getLastD 0 := by
  obtain ⟨u, rest, hcons⟩ := exists_cons_of_ne_nil h.run_ne
  have hchain := h.block.chain
  rw [starts_middle h.first_eq.symm, hcons, starts_cons, append_assoc] at hchain
  obtain ⟨-, -, -, -, hsame⟩ := h.relinked.same first
  rw [hsame, markFree_slots]
  exact (Chain.links hchain).1

/-! The merged slots are written over the run. -/

variable
  (hm : Merged b (pool1.slots first).gprev first (freshTiles (tileBytes run)) lists1 pool1 pool2)

include hm

theorem keep (hnew : x ∉ starts first (freshTiles (tileBytes run))) (hold : x ∉ starts first run) :
    (pool2.slots x).size = (pool.slots x).size ∧ (pool2.slots x).free = (pool.slots x).free ∧
    (pool2.slots x).blockPtr = (pool.slots x).blockPtr ∧
    (pool2.slots x).gnext = (pool.slots x).gnext ∧
    (pool2.slots x).gprev = (pool.slots x).gprev := by
  have hx : x ≠ toFree := fun heq => hold (heq ▸ h.toFree_mem)
  obtain ⟨h1, h2, h3, h4, h5⟩ := hm.same x hnew
  obtain ⟨h1', h2', h3', h4', h5'⟩ := h.relinked.same x
  rw [markFree_slots, if_neg hx] at h1' h2' h3' h4' h5'
  exact ⟨h1.trans h1', h2.trans h2', h3.trans h3', h4.trans h4', h5.trans h5'⟩

theorem chain_new : SlotChain (joinMerged pool2.slots usedNext last) ((starts start p).getLastD 0)
    (starts first (freshTiles (tileBytes run))) usedNext := by
  have hchain := hm.chain
  rw [h.gprev_first, h.bytes] at hchain
  -- either the stretch ends the block, or the chain goes on behind it
  by_cases hU0 : usedNext = 0
  · refine Chain.set_after hchain (nodup_starts (freshTiles_spec h.run_le).1) ?_ ?_ ?_
    · intro y _ hy
      simp only [joinMerged_apply]
      exact if_neg fun hand => hy (hand.2.trans (h.getLastD_new _).symm)
    · intro y _
      simp only [joinMerged_apply]
      exact if_neg fun hand => hand.1 hU0
    · intro _
      simp only [joinMerged_apply]
      rw [h.getLastD_new, if_pos ⟨hU0, rfl⟩, hU0]
  · have hUeq : usedNext = first + tileBytes run := by
      have hnext := h.next_eq
      cases q with
      | nil => exact absurd hnext.symm hU0
      | cons v q => exact hnext.symm
    rw [hUeq]
    refine Chain.congr hchain ?_ ?_
    · intro y _
      simp only [joinMerged_apply]
      exact if_neg fun hand => hU0 (hUeq ▸ hand.1)
    · intro y hy
      have hbounds := h.new_bounds hy
      simp only [joinMerged_apply]
      exact if_neg fun hand => by omega

theorem front (hx : x ∈ starts start p) :
    (joinMerged pool2.slots usedNext last x).size = (pool.slots x).size ∧
    (joinMerged pool2.slots usedNext last x).free = (pool.slots x).free ∧
    (joinMerged pool2.slots usedNext last x).blockPtr = (pool.slots x).blockPtr ∧
    (joinMerged pool2.slots usedNext last x).gnext = (pool.slots x).gnext ∧
    (joinMerged pool2.slots usedNext last x).gprev = (pool.slots x).gprev := by
  have hbounds := h.before_bounds hx
  have hlast := h.new_bounds h.last_mem
  obtain ⟨h1, h2, h3, h4, h5⟩ := h.keep (x := x) hm
    (fun hin => by have hb := h.new_bounds hin; omega)
    fun hin => by have hb := h.run_bounds hin; omega
  simp only [joinMerged_apply]
  refine ⟨h1, h2, h3, ?_, ?_⟩
  · rw [if_neg fun hand => by omega, h4]
  · rw [if_neg, h5]
    rintro ⟨hU0, rfl⟩
    have hb := h.behind_bounds (h.next_mem hU0)
    omega

theorem back (hx : x ∈ starts (first + tileBytes run) q) :
    (joinMerged pool2.slots usedNext last x).size = (pool.slots x).size ∧
    (joinMerged pool2.slots usedNext last x).free = (pool.slots x).free ∧
    (joinMerged pool2.slots usedNext last x).blockPtr = (pool.slots x).blockPtr ∧
    (joinMerged pool2.slots usedNext last x).gnext = (pool.slots x).gnext ∧
    (x ≠ (starts (first + tileBytes run) q).headD 0 →
      (joinMerged pool2.slots usedNext last x).gprev = (pool.slots x).gprev) := by
  have hbounds := h.behind_bounds hx
  have hlast := h.new_bounds h.last_mem
  obtain ⟨h1, h2, h3, h4, h5⟩ := h.keep (x := x) hm
    (fun hin => by have hb := h.new_bounds hin; omega)
    fun hin => by have hb := h.run_bounds hin; omega
  simp only [joinMerged_apply]
  refine ⟨h1, h2, h3, ?_, fun hne => ?_⟩
  · rw [if_neg fun hand => by omega, h4]
  · rw [h.next_eq] at hne
    rw [if_neg fun hand => hne hand.2, h5]

theorem lists_new : ∃ lists2,
    FreeLists (joinMerged pool2.slots usedNext last) (pool2.blocks b).freelists lists2 ∧
    ∀ i a, a ∈ lists2 i ↔
      (a, Tile.mk i true) ∈ place start (p ++ freshTiles (tileBytes run) ++ q) := by
  obtain ⟨lists2, hfree2, hmem2⟩ := hm.lists
  refine ⟨lists2, Buckets.congr hfree2 (fun i a _ => ?_) (fun i a _ => ?_) fun _ => rfl,
    fun i a => ?_⟩
  · simp only [joinMerged_apply]
  · simp only [joinMerged_apply]
  · rw [hmem2, h.mem_lists1, h.mem_lists, h.place_eq, place_middle h.first_eq.symm, h.bytes]
    simp only [mem_append]
    constructor
    · rintro (⟨(hin | hin) | hin, hnot⟩ | hin)
      · exact .inl (.inl hin)
      · exact absurd (mem_starts_of_place hin) hnot
      · exact .inr hin
      · exact .inl (.inr hin)
    · rintro ((hin | hin) | hin)
      · refine .inl ⟨.inl (.inl hin), fun hrun => ?_⟩
        have hb := h.before_bounds (mem_starts_of_place hin)
        have hb' := h.run_bounds hrun
        omega
      · exact .inr hin
      · refine .inl ⟨.inr hin, fun hrun => ?_⟩
        have hb := h.behind_bounds (mem_starts_of_place hin)
        have hb' := h.run_bounds hrun
        omega

theorem block_new : ∃ fl, pool2.blocks b = { pool.blocks b with
    freelists := fl, used := (pool.blocks b).used - c } := by
  obtain ⟨fl2, hblock2⟩ := hm.block
  obtain ⟨fl1, hblock1⟩ := h.relinked.block
  refine ⟨fl2, ?_⟩
  rw [hblock2, hblock1]
  simp only [markFree, update_self]

theorem blockOk : BlockOk (joinMerged pool2.slots usedNext last) (pool2.blocks b) b start
    (p ++ freshTiles (tileBytes run) ++ q) := by
  refine h.block.replace h.run_ne h.new_ne h.first_eq.symm h.bytes (freshTiles_spec h.run_le).1
    ?_ ?_ (fun a ha => h.front hm ha) (fun a ha => h.back hm ha) ?_ (h.lists_new hm) ?_
  · rw [h.next_eq]
    exact h.chain_new hm
  · intro a t hat
    simp only [joinMerged_apply]
    exact hm.labels a t hat
  · intro hnil
    obtain ⟨y, l, hcons⟩ := exists_cons_of_ne_nil hnil
    have hU0 : usedNext ≠ 0 := by
      rw [← h.next_eq, hcons, headD_cons]
      obtain ⟨t, ht⟩ := mem_starts (hcons ▸ mem_cons_self)
      refine h.block.ne_zero (t := t) ?_
      rw [h.place_eq]
      exact mem_append_right _ ht
    rw [h.next_eq]
    simp only [joinMerged_apply]
    rw [if_pos ⟨hU0, trivial⟩, h.last_eq]
  · obtain ⟨fl, hblock⟩ := h.block_new hm
    have hrun := h.used
    simp only [hblock]
    rw [h.block.used]
    simp only [usedSum_append, freshTiles, usedSum_freeTiles]
    omega

theorem frame : Frame b start (start + tileBytes (p ++ run ++ q)) pool
    { pool2 with slots := joinMerged pool2.slots usedNext last } := by
  obtain ⟨fl, hblock⟩ := h.block_new hm
  have htotal := h.total_le
  refine ⟨fun x hx => ?_, fun d hd => ?_, ?_, ?_, ?_, hm.tail.trans h.relinked.tail,
    hm.limit.trans h.relinked.limit, hm.size.trans h.relinked.size⟩
  · have hnew : x ∉ starts first (freshTiles (tileBytes run)) := by
      intro hin
      have hb := h.new_bounds hin
      omega
    have hfree : x ≠ toFree := by
      rintro rfl
      have hb := h.run_bounds h.toFree_mem
      omega
    have hlisted : ∀ i, x ∉ lists i := by
      intro i hin
      have hb := starts_bounds h.block.classes (mem_starts_of_place ((h.mem_lists i x).mp hin))
      omega
    have hnext : ¬ (usedNext ≠ 0 ∧ x = usedNext) := by
      rintro ⟨hU0, rfl⟩
      have hb := h.behind_bounds (h.next_mem hU0)
      omega
    have hlast := h.new_bounds h.last_mem
    simp only [joinMerged_apply]
    rw [if_neg hnext, if_neg fun hand => by omega,
      hm.outside x hnew fun i hin => hlisted i ((h.mem_lists1 i x).mp hin).1,
      h.relinked.outside x hlisted, markFree_slots, if_neg hfree]
  · rw [hm.blocks d hd, h.relinked.blocks d hd]
    exact update_of_ne hd _ _
  · simp only [hblock]
  · simp only [hblock]
  · simp only [hblock]

end FreeRun

/-- **`mempool_free` merges the stretch around the slot** and leaves the rest of the block alone. -/
theorem mempoolFree_spec
    (h : BlockOk pool.slots (pool.blocks b) b start (l₁ ++ { cls := c, free := false } :: l₂))
    (hst : Stretch l₁ l₂ p f₁ f₂ q)
    (hfits : tileBytes (l₁ ++ { cls := c, free := false } :: l₂) ≤ (pool.blocks b).size)
    (hle : tileBytes (l₁ ++ { cls := c, free := false } :: l₂) ≤ 2 ^ 30) :
    ∃ pool', mempoolFree pool (start + tileBytes l₁ + sizeofUsedHeader) = .ok pool' ∧
      BlockOk pool'.slots (pool'.blocks b) b start
        (p ++ freshTiles (tileBytes (f₁ ++ { cls := c, free := false } :: f₂)) ++ q) ∧
      Frame b start (start + tileBytes (l₁ ++ { cls := c, free := false } :: l₂)) pool pool' := by
  obtain ⟨lists, hfree, hmem⟩ := h.lists
  obtain ⟨hbefore, hbehind, pool1, lists1, hunlink, hrelinked, hfree1, hmem1⟩ :=
    stretch_unlinked h hst hfits hfree hmem
  obtain ⟨hsize, -, hptr⟩ := h.labels _ _ mem_place_middle
  have hwhole := hst.whole { cls := c, free := false }
  have hrun : FreeRun pool pool1 b start (start + tileBytes p) (start + tileBytes l₁)
      _ _ p (f₁ ++ { cls := c, free := false } :: f₂) q c lists lists1 :=
    { block := hwhole ▸ h
      first_eq := rfl
      next_eq := rfl
      last_eq := rfl
      run_ne := append_ne_nil_of_right_ne_nil _ (cons_ne_nil _ _)
      run_le := by
        rw [hwhole] at hle
        simp only [tileBytes_append] at hle ⊢
        omega
      used := by
        rw [usedSum_append, usedSum_cons_used, usedSum_free hst.free_left,
          usedSum_free hst.free_right]
        omega
      toFree_mem := by
        rw [← hst.loc_eq]
        exact mem_starts_of_place (t := Tile.mk c false) mem_place_middle
      mem_lists := hwhole ▸ hmem
      mem_lists1 := hmem1
      relinked := hrelinked }
  obtain ⟨pool2, hmerge, hmerged⟩ :=
    mergeSlots_all (start + tileBytes p) hrun.run_pos hrun.run_le hfree1 hrun.unlisted
  have hmark : (markFree pool b (start + tileBytes l₁) c).slots (start + tileBytes l₁)
      = { pool.slots (start + tileBytes l₁) with free := true } := by
    rw [markFree_slots, if_pos rfl]
  rw [hwhole]
  exact ⟨_, mempoolFree_eq rfl ((congrArg SlotHeader.blockPtr hmark).trans hptr)
    ((congrArg SlotHeader.size hmark).trans hsize) hbefore hbehind hunlink hrun.run_pos hrun.run_le
    hmerge, hrun.blockOk hmerged, hrun.frame hmerged⟩

end Free

end CharmRuntime.Mempool
