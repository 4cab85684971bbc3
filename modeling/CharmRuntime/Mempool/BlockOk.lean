import CharmRuntime.Lib.Chain
import CharmRuntime.Mempool.Tiles

/-!
# Mempool.BlockOk

A block that is cut into tiles: its headers, its list of all slots and its free lists say so
(`BlockOk`). A new block is cut greedily by `fillblock`.
-/

namespace CharmRuntime.Mempool

open Lib Function List

/-! ### Fields -/

theorem Slots.setGnext_apply (s : Slots) (a v x : Int) :
    s.setGnext a v x = { s x with gnext := if x = a then v else (s x).gnext } := by
  by_cases hx : x = a
  · subst hx
    rw [setGnext, update_self, if_pos rfl]
  · rw [setGnext, update_of_ne hx, if_neg hx]

theorem Slots.setGprev_apply (s : Slots) (a v x : Int) :
    s.setGprev a v x = { s x with gprev := if x = a then v else (s x).gprev } := by
  by_cases hx : x = a
  · subst hx
    rw [setGprev, update_self, if_pos rfl]
  · rw [setGprev, update_of_ne hx, if_neg hx]

theorem Slots.setNext_apply (s : Slots) (a v x : Int) :
    s.setNext a v x = { s x with next := if x = a then v else (s x).next } := by
  by_cases hx : x = a
  · subst hx
    rw [setNext, update_self, if_pos rfl]
  · rw [setNext, update_of_ne hx, if_neg hx]

theorem Slots.setPrev_apply (s : Slots) (a v x : Int) :
    s.setPrev a v x = { s x with prev := if x = a then v else (s x).prev } := by
  by_cases hx : x = a
  · subst hx
    rw [setPrev, update_self, if_pos rfl]
  · rw [setPrev, update_of_ne hx, if_neg hx]

/-- The list of all slots of a block, from one of them on. -/
def SlotChain (s : Slots) (before : Int) (l : List Int) (behind : Int) : Prop :=
  Chain (fun a => (s a).gnext) (fun a => (s a).gprev) before l behind

/-- The free lists. -/
def FreeLists (s : Slots) (freelists : Nat → Int) (lists : Nat → List Int) : Prop :=
  Buckets 0 (fun a => (s a).next) (fun a => (s a).prev) freelists lists

/-- What `used` counts: the classes of the used tiles. -/
def usedSum (ts : List Tile) : Nat := ((ts.filter fun t => !t.free).map (·.cls)).sum

/-- The headers of the tiles. -/
def Labelled (s : Slots) (b loc : Int) (ts : List Tile) : Prop :=
  ∀ a t, (a, t) ∈ place loc ts → (s a).size = t.cls ∧ (s a).free = t.free ∧ (s a).blockPtr = b

/-- The block at `b` is cut into the tiles `ts` from `start` on. -/
structure BlockOk (s : Slots) (block : BlockHeader) (b start : Int) (ts : List Tile) : Prop where
  classes : ClassesOk ts
  nonzero : 0 < start ∨ start + tileBytes ts ≤ 0
  chain : SlotChain s 0 (starts start ts) 0
  labels : Labelled s b start ts
  lists : ∃ lists, FreeLists s block.freelists lists ∧
    ∀ i a, a ∈ lists i ↔ (a, { cls := i, free := true }) ∈ place start ts
  used : block.used = usedSum ts

variable {block : BlockHeader} {ts : List Tile} {block' : BlockHeader}

theorem BlockOk.ne_zero {s : Slots} {b start a : Int} {t : Tile}
    (h : BlockOk s block b start ts) (ha : (a, t) ∈ place start ts) : a ≠ 0 := by
  have hbounds := place_bounds ha
  have hpos := cutOff_pos (h.classes t (mem_of_place ha))
  obtain hpos' | hneg := h.nonzero
  · omega
  · omega

/-- The block only depends on the headers of its own slots, and on the links of the free ones. -/
theorem BlockOk.congr_fields {s s' : Slots} {b start : Int} (h : BlockOk s block b start ts)
    (hs : ∀ a ∈ starts start ts, (s' a).size = (s a).size ∧ (s' a).free = (s a).free ∧
      (s' a).blockPtr = (s a).blockPtr ∧ (s' a).gnext = (s a).gnext ∧ (s' a).gprev = (s a).gprev)
    (hlinks : ∀ a t, (a, t) ∈ place start ts → t.free = true →
      (s' a).next = (s a).next ∧ (s' a).prev = (s a).prev)
    (hlists : block'.freelists = block.freelists) (hused : block'.used = block.used) :
    BlockOk s' block' b start ts := by
  obtain ⟨lists, hfree, hmem⟩ := h.lists
  refine ⟨h.classes, h.nonzero, ?_, ?_, ⟨lists, ?_, hmem⟩, hused.trans h.used⟩
  · refine Chain.congr h.chain ?_ ?_
    · exact fun a ha => (hs a ha).2.2.2.1
    · exact fun a ha => (hs a ha).2.2.2.2
  · intro a t ha
    obtain ⟨hsize, hfree, hblock, -⟩ := hs a (mem_starts_of_place ha)
    rw [hsize, hfree, hblock]
    exact h.labels a t ha
  · rw [hlists]
    refine Buckets.congr hfree ?_ ?_ fun _ => rfl
    · exact fun i a ha => (hlinks a _ ((hmem i a).mp ha) rfl).1
    · exact fun i a ha => (hlinks a _ ((hmem i a).mp ha) rfl).2

theorem BlockOk.congr {s s' : Slots} {b start : Int}
    (h : BlockOk s block b start ts) (hs : ∀ a ∈ starts start ts, s' a = s a)
    (hlists : block'.freelists = block.freelists) (hused : block'.used = block.used) :
    BlockOk s' block' b start ts := by
  refine h.congr_fields (fun a ha => ?_) (fun a t ha _ => ?_) hlists hused
  · rw [hs a ha]
    exact ⟨rfl, rfl, rfl, rfl, rfl⟩
  · rw [hs a (mem_starts_of_place ha)]
    exact ⟨rfl, rfl⟩

/-- Tiles `old` of a block are replaced by tiles `new` of the same size. -/
theorem BlockOk.replace {s s' : Slots} {b start L : Int}
    {l1 old new l2 : List Tile} (h : BlockOk s block b start (l1 ++ old ++ l2)) (hold : old ≠ [])
    (hnew : new ≠ []) (hL : L = start + tileBytes l1) (hbytes : tileBytes new = tileBytes old)
    (hclasses : ClassesOk new) (hchain : SlotChain s' ((starts start l1).getLastD 0) (starts L new)
      ((starts (L + tileBytes old) l2).headD 0))
    (hlabels : Labelled s' b L new)
    (hfront : ∀ a ∈ starts start l1, (s' a).size = (s a).size ∧ (s' a).free = (s a).free ∧
      (s' a).blockPtr = (s a).blockPtr ∧ (s' a).gnext = (s a).gnext ∧ (s' a).gprev = (s a).gprev)
    (hback : ∀ a ∈ starts (L + tileBytes old) l2, (s' a).size = (s a).size ∧
      (s' a).free = (s a).free ∧
      (s' a).blockPtr = (s a).blockPtr ∧ (s' a).gnext = (s a).gnext ∧
      (a ≠ (starts (L + tileBytes old) l2).headD 0 → (s' a).gprev = (s a).gprev))
    (hlast : starts (L + tileBytes old) l2 ≠ [] →
      (s' ((starts (L + tileBytes old) l2).headD 0)).gprev = (starts L new).getLastD 0)
    (hlists : ∃ lists, FreeLists s' block'.freelists lists ∧
      ∀ i a, a ∈ lists i ↔ (a, { cls := i, free := true }) ∈ place start (l1 ++ new ++ l2))
    (hused : block'.used = usedSum (l1 ++ new ++ l2)) :
    BlockOk s' block' b start (l1 ++ new ++ l2) := by
  have htotal : tileBytes (l1 ++ new ++ l2) = tileBytes (l1 ++ old ++ l2) := by
    simp only [tileBytes_append, hbytes]
  obtain ⟨hclasses1, hclasses2⟩ := ClassesOk.append.mp h.classes
  obtain ⟨hclasses1, -⟩ := ClassesOk.append.mp hclasses1
  have hplace := place_middle hL new l2
  have hplace' := place_middle hL old l2
  rw [hbytes] at hplace
  refine ⟨ClassesOk.append.mpr ⟨ClassesOk.append.mpr ⟨hclasses1, hclasses⟩, hclasses2⟩, ?_, ?_, ?_,
    hlists, hused⟩
  · rw [htotal]
    exact h.nonzero
  · obtain ⟨t, new, rfl⟩ := exists_cons_of_ne_nil hnew
    obtain ⟨u, old, rfl⟩ := exists_cons_of_ne_nil hold
    have hchain' := h.chain
    rw [starts_middle hL] at hchain'
    rw [starts_middle hL, hbytes, starts_cons]
    refine Chain.replace hchain' (nodup_starts hclasses2) ?_ hchain ?_ ?_ ?_
    · exact fun y hy => (hfront y hy).2.2.2
    · exact fun y hy => (hback y hy).2.2.2.1
    · exact fun y hy => (hback y hy).2.2.2.2
    · intro hne
      rw [hlast hne, starts_cons, getLastD_cons]
  · intro a t hmem
    rw [hplace, mem_append, mem_append] at hmem
    have hkeep := h.labels a t
    rw [hplace', mem_append, mem_append] at hkeep
    obtain (hmem | hmem) | hmem := hmem
    · obtain ⟨hsize, hfree, hblock, -⟩ := hfront a (mem_starts_of_place hmem)
      rw [hsize, hfree, hblock]
      exact hkeep (.inl (.inl hmem))
    · exact hlabels a t hmem
    · obtain ⟨hsize, hfree, hblock, -⟩ := hback a (mem_starts_of_place hmem)
      rw [hsize, hfree, hblock]
      exact hkeep (.inr hmem)

/-- What an operation on the block at `b` leaves alone: everything outside of the block's slots,
which lie from `lo` to before `hi`, and the block's links. -/
structure Frame (b lo hi : Int) (pool pool' : MempoolType) : Prop where
  slots : ∀ x, x < lo ∨ hi ≤ x → pool'.slots x = pool.slots x
  blocks : ∀ c, c ≠ b → pool'.blocks c = pool.blocks c
  block_size : (pool'.blocks b).size = (pool.blocks b).size
  block_prev : (pool'.blocks b).blockPrev = (pool.blocks b).blockPrev
  block_next : (pool'.blocks b).blockNext = (pool.blocks b).blockNext
  tail : pool'.blockTail = pool.blockTail
  limit : pool'.limit = pool.limit
  size : pool'.size = pool.size

theorem Frame.refl (b lo hi : Int) (pool : MempoolType) : Frame b lo hi pool pool :=
  ⟨fun _ _ => rfl, fun _ _ => rfl, rfl, rfl, rfl, rfl, rfl, rfl⟩

theorem Frame.trans {b lo hi : Int} {p1 p2 p3 : MempoolType} (h : Frame b lo hi p1 p2)
    (h' : Frame b lo hi p2 p3) : Frame b lo hi p1 p3 where
  slots := fun x hx => (h'.slots x hx).trans (h.slots x hx)
  blocks := fun c hc => (h'.blocks c hc).trans (h.blocks c hc)
  block_size := h'.block_size.trans h.block_size
  block_prev := h'.block_prev.trans h.block_prev
  block_next := h'.block_next.trans h.block_next
  tail := h'.tail.trans h.tail
  limit := h'.limit.trans h.limit
  size := h'.size.trans h.size

/-! ### New blocks -/

section Fill

variable {block : Int} {freelists : Nat → Int} {power : Nat}

/-- Where the tile of a class lies. -/
def tableOf : Int → List Nat → Nat → Option Int
  | _, [], _ => none
  | loc, c :: cs, i => if i = c then some loc else tableOf (loc + cutOff c) cs i

variable {cs : List Nat} {loc : Int} {left : Nat} {ts : List Tile}

theorem tableOf_eq_none {i : Nat} : tableOf loc cs i = none ↔ i ∉ cs := by
  induction cs generalizing loc with
  | nil => simp [tableOf]
  | cons c cs ih =>
    unfold tableOf
    by_cases hi : i = c
    · simp [hi]
    · rw [if_neg hi, ih, mem_cons, not_or]
      exact ⟨fun h => ⟨hi, h⟩, And.right⟩

theorem freeTiles_cons (c : Nat) (cs : List Nat) :
    freeTiles (c :: cs) = { cls := c, free := true } :: freeTiles cs := rfl

theorem mem_freeTiles {t : Tile} : t ∈ freeTiles cs ↔ t.cls ∈ cs ∧ t.free = true := by
  constructor
  · intro ht
    obtain ⟨c, hc, rfl⟩ := mem_map.mp ht
    exact ⟨hc, rfl⟩
  · rintro ⟨hc, hfree⟩
    refine mem_map.mpr ⟨t.cls, hc, ?_⟩
    rw [← hfree]

theorem tableOf_eq_some (hcs : cs.Nodup) {a : Int} {i : Nat} :
    tableOf loc cs i = some a ↔ (a, Tile.mk i true) ∈ place loc (freeTiles cs) := by
  induction cs generalizing loc with
  | nil => simp [tableOf, freeTiles, place]
  | cons c cs ih =>
    obtain ⟨hc, hcs⟩ := nodup_cons.mp hcs
    unfold tableOf
    rw [freeTiles_cons, place, mem_cons]
    by_cases hi : i = c
    · subst hi
      rw [if_pos rfl, Option.some_inj]
      constructor
      · rintro rfl
        exact .inl rfl
      · rintro (heq | hmem)
        · cases heq
          rfl
        · exact absurd (mem_freeTiles.mp (mem_of_place hmem)).1 hc
    · rw [if_neg hi, ih hcs]
      refine ⟨.inr, fun hor => hor.resolve_left fun heq => ?_⟩
      cases heq
      exact hi rfl

theorem fillLists_eq {r i : Nat} (loc : Int) (left : Nat) (fl : Nat → Int) :
    fillLists r loc left fl i = (tableOf loc (greedy r left) i).getD (fl i) := by
  induction r generalizing loc left fl with
  | zero => rfl
  | succ r ih =>
    unfold fillLists greedy
    split
    · rw [ih, tableOf]
      by_cases hi : i = r
      · have hnone : tableOf (loc + cutOff r) (greedy r (left - cutOff r)) i = none :=
          tableOf_eq_none.mpr fun hmem => absurd (lt_of_mem_greedy hmem) (by omega)
        rw [if_pos hi, hnone, hi, update_self]
        rfl
      · rw [if_neg hi, update_of_ne hi]
    · exact ih loc left fl

/-- What the loop over the headers does behind its first round. -/
structure FilledSlots (block prev : Int) (loc : Int) (ts : List Tile) (s s' : Slots) (last : Int) :
    Prop where
  last_eq : last = (starts loc ts).getLastD prev
  labels : Labelled s' block loc ts
  links : ∀ a ∈ starts loc ts, (s' a).prev = 0 ∧ (s' a).next = 0
  chain : SlotChain s' prev (starts loc ts) (s' last).gnext
  before : s' prev = { s prev with gnext := (starts loc ts).headD (s prev).gnext }
  others : ∀ x, x ≠ prev → x ∉ starts loc ts → s' x = s x

/-- `freelists` has the places of the greedy choice. -/
def Chosen (freelists : Nat → Int) (r : Nat) (loc : Int) (left : Nat) : Prop :=
  ∀ j < r, freelists j = (tableOf loc (greedy r left) j).getD 0

theorem Chosen.take {r : Nat} (h : Chosen freelists (r + 1) loc left) (hle : cutOff r ≤ left) :
    freelists r = loc ∧ Chosen freelists r (loc + cutOff r) (left - cutOff r) := by
  have hdef : ∀ j, tableOf loc (greedy (r + 1) left) j
      = if j = r then some loc else tableOf (loc + cutOff r) (greedy r (left - cutOff r)) j := by
    intro j
    rw [greedy, if_pos hle, tableOf]
  refine ⟨?_, fun j hj => ?_⟩
  · rw [h r (Nat.lt_succ_self r), hdef, if_pos rfl, Option.getD_some]
  · rw [h j (Nat.lt_succ_of_lt hj), hdef, if_neg (ne_of_lt hj)]

theorem Chosen.skip {r : Nat} (h : Chosen freelists (r + 1) loc left)
    (hlt : ¬ cutOff r ≤ left) : freelists r = 0 ∧ Chosen freelists r loc left := by
  have hdef : greedy (r + 1) left = greedy r left := by rw [greedy, if_neg hlt]
  unfold Chosen at h
  rw [hdef] at h
  have hnone : tableOf loc (greedy r left) r = none :=
    tableOf_eq_none.mpr fun hmem => absurd (lt_of_mem_greedy hmem) (lt_irrefl r)
  refine ⟨?_, fun j hj => h j (Nat.lt_succ_of_lt hj)⟩
  rw [h r (Nat.lt_succ_self r), hnone, Option.getD_none]

theorem classesOk_freeTiles (h : ∀ c ∈ cs, c < cutOffNum) : ClassesOk (freeTiles cs) := by
  intro t ht
  obtain ⟨c, hc, rfl⟩ := mem_map.mp ht
  exact h c hc

theorem FilledSlots.cons {prev last : Int} {c : Nat} {s s' : Slots}
    (h : FilledSlots block loc (loc + cutOff c) ts s s' last)
    (hlabel : (s loc).size = c ∧ (s loc).free = true ∧ (s loc).blockPtr = block)
    (hlinks : (s loc).prev = 0 ∧ (s loc).next = 0) (hprev : (s loc).gprev = prev) :
    last = (starts loc ({ cls := c, free := true } :: ts)).getLastD prev ∧
      Labelled s' block loc ({ cls := c, free := true } :: ts) ∧
      (∀ a ∈ starts loc ({ cls := c, free := true } :: ts), (s' a).prev = 0 ∧ (s' a).next = 0) ∧
      SlotChain s' prev (starts loc ({ cls := c, free := true } :: ts)) (s' last).gnext ∧
      ∀ x, x ∉ starts loc ({ cls := c, free := true } :: ts) → s' x = s x := by
  rw [starts_cons]
  refine ⟨?_, ?_, ?_, ⟨?_, ?_, h.chain⟩, ?_⟩
  · rw [getLastD_cons]
    exact h.last_eq
  · intro a t hmem
    obtain heq | hmem := mem_cons.mp hmem
    · obtain ⟨rfl, rfl⟩ := Prod.mk.inj heq
      rw [h.before]
      exact hlabel
    · exact h.labels a t hmem
  · intro a hmem
    obtain rfl | hmem := mem_cons.mp hmem
    · rw [h.before]
      exact hlinks
    · exact h.links a hmem
  · simp only [h.before]
    exact hprev
  · simp only [h.before]
    cases hts : starts (loc + cutOff c) ts with
    | nil =>
      have hlast := h.last_eq
      rw [hts] at hlast
      rw [hlast, getLastD_nil, h.before, hts]
      rfl
    | cons y l => rfl
  · intro x hx
    rw [mem_cons, not_or] at hx
    exact h.others x hx.1 hx.2

/-- The header of a new free slot. -/
def newHeader (block : Int) (c : Nat) (gprev gnext : Int) : SlotHeader :=
  { blockPtr := block, size := c, free := true, gprev := gprev, gnext := gnext, prev := 0,
    next := 0 }

/-- A round that sets the slot at `loc` and links it behind `prev`, and the later rounds. -/
theorem FilledSlots.round {prev last : Int} {c : Nat} {s s' : Slots} (hprev : prev < loc)
    (h : FilledSlots block loc (loc + cutOff c) ts
      (Slots.setGnext (update s loc (newHeader block c prev (s loc).gnext)) prev loc) s' last) :
    FilledSlots block prev loc ({ cls := c, free := true } :: ts) s s' last := by
  generalize hs1 : (Slots.setGnext (update s loc (newHeader block c prev (s loc).gnext)) prev loc)
    = s1 at h
  have hne : loc ≠ prev := by omega
  have hs1loc : s1 loc = newHeader block c prev (s loc).gnext := by
    rw [← hs1, Slots.setGnext_apply, update_self, if_neg hne]
  have hs1prev : s1 prev = { s prev with gnext := loc } := by
    rw [← hs1, Slots.setGnext_apply, update_of_ne hne.symm, if_pos rfl]
  have hs1x : ∀ x, x ≠ prev → x ≠ loc → s1 x = s x := by
    intro x hxp hxl
    rw [← hs1, Slots.setGnext_apply, update_of_ne hxl, if_neg hxp]
  have hgprev : (s1 loc).gprev = prev := by
    rw [hs1loc]
    rfl
  obtain ⟨hlast, hlabels, hlinks, hchain, hothers⟩ :=
    h.cons (by rw [hs1loc]; exact ⟨rfl, rfl, rfl⟩) (by rw [hs1loc]; exact ⟨rfl, rfl⟩) hgprev
  have hnotin : prev ∉ starts loc ({ cls := c, free := true } :: ts) := by
    intro hmem
    obtain ⟨t, ht⟩ := mem_starts hmem
    have hbounds := place_bounds ht
    omega
  refine ⟨hlast, hlabels, hlinks, hchain, ?_, fun x hxp hx => ?_⟩
  · rw [hothers prev hnotin, hs1prev]
    rfl
  · rw [hothers x hx]
    refine hs1x x hxp fun heq => hx ?_
    rw [heq]
    exact mem_cons_self

theorem FilledSlots.nil (block prev loc : Int) (s : Slots) :
    FilledSlots block prev loc [] s s prev :=
  ⟨rfl, fun _ _ hmem => absurd hmem not_mem_nil, fun _ hmem => absurd hmem not_mem_nil, trivial,
    rfl, fun _ _ _ => rfl⟩

theorem fillSlots_spec (block : Int) {r : Nat} {prev : Int} (hr : r ≤ power)
    (hpower : power ≤ cutOffNum)
    (h : Chosen freelists r loc left) (hprev : prev < loc)
    (hzero : ∀ a ∈ starts loc (freeTiles (greedy r left)), a ≠ 0) (s : Slots) :
    FilledSlots block prev loc (freeTiles (greedy r left)) s
      (fillSlots block freelists power r prev s).1
        (fillSlots block freelists power r prev s).2 := by
  induction r generalizing left loc prev s with
  | zero => exact FilledSlots.nil block prev loc s
  | succ r ih =>
    have hcut := cutOff_pos (lt_of_lt_of_le hr hpower)
    unfold greedy at hzero ⊢
    by_cases hle : cutOff r ≤ left
    · obtain ⟨hhead, hrest⟩ := h.take hle
      rw [if_pos hle] at hzero ⊢
      have hloc : loc ≠ 0 := hzero loc mem_cons_self
      have hpower' : r ≠ power := by omega
      have hrun : fillSlots block freelists power (r + 1) prev s
          = fillSlots block freelists power r loc
              (Slots.setGnext (update s loc (newHeader block r prev (s loc).gnext)) prev loc) := by
        rw [fillSlots, if_pos (hhead ▸ hloc)]
        simp only [hhead, if_pos hpower']
        rfl
      rw [hrun]
      exact FilledSlots.round hprev (ih (by omega) hrest (by omega)
        (fun a ha => hzero a (mem_cons_of_mem _ ha)) _)
    · obtain ⟨hhead, hrest⟩ := h.skip hle
      rw [if_neg hle] at hzero ⊢
      have hrun : fillSlots block freelists power (r + 1) prev s
          = fillSlots block freelists power r prev s := by
        rw [fillSlots, if_neg (not_not.mpr hhead)]
      rw [hrun]
      exact ih (by omega) hrest hprev hzero s

/-- Where a block's slots begin. -/
def headerSize (expansion : Bool) :
    Nat := if expansion then sizeofBlockHeader else sizeofMempoolType

/-- The tiles of a new block. -/
def freshTiles (left : Nat) : List Tile := freeTiles (greedy (rounds left) left)

theorem usedSum_freeTiles (cs : List Nat) : usedSum (freeTiles cs) = 0 := by
  have hnone : (freeTiles cs).filter (fun t => !t.free) = [] := by
    rw [filter_eq_nil_iff]
    intro t ht
    obtain ⟨c, -, rfl⟩ := mem_map.mp ht
    simp
  rw [usedSum, hnone]
  rfl

theorem freshTiles_spec (h : left ≤ 2 ^ 30) :
    ClassesOk (freshTiles left) ∧ tileBytes (freshTiles left) ≤ left ∧
      left < tileBytes (freshTiles left) + 64 := by
  rw [freshTiles, tileBytes_freeTiles]
  refine ⟨classesOk_freeTiles fun c hc => ?_, classBytes_greedy (rounds_le h) (lt_rounds h)⟩
  exact lt_of_lt_of_le (lt_of_mem_greedy hc) (rounds_le h)

theorem fillSlots_all (hleft : 64 ≤ left) (hle : left ≤ 2 ^ 30)
    (h : Chosen freelists (rounds left) loc left)
    (hzero : ∀ a ∈ starts loc (freshTiles left), a ≠ 0)
    (s : Slots) {s' : Slots} {last : Int}
    (hrun : fillSlots block freelists (rounds left - 1) (rounds left) 0 s = (s', last)) :
    Labelled s' block loc (freshTiles left) ∧
      (∀ a ∈ starts loc (freshTiles left), (s' a).prev = 0 ∧ (s' a).next = 0) ∧
      SlotChain (s'.setGnext last 0) 0 (starts loc (freshTiles left)) 0 ∧
      last ∈ starts loc (freshTiles left) ∧
      ∀ x, x ∉ starts loc (freshTiles left) → s' x = s x := by
  obtain ⟨hpos, hfits⟩ := rounds_pos hle hleft
  have hclasses := (freshTiles_spec hle).1
  have hbound := rounds_le hle
  unfold freshTiles at hzero hclasses ⊢
  obtain ⟨r, hr⟩ := Nat.exists_eq_succ_of_ne_zero hpos.ne'
  rw [hr] at h hzero hfits hclasses hrun hbound ⊢
  rw [Nat.succ_eq_add_one, Nat.add_sub_cancel] at hfits hrun
  obtain ⟨hhead, hrest⟩ := h.take hfits
  unfold greedy at hzero hclasses ⊢
  rw [if_pos hfits] at hzero hclasses ⊢
  have hloc : loc ≠ 0 := hzero loc mem_cons_self
  generalize hs1 : update s loc
    { blockPtr := block, size := r, free := true, gprev := 0
      gnext := (s loc).gnext, prev := 0, next := 0 } = s1
  have hstep : fillSlots block freelists r (r + 1) 0 s = fillSlots block freelists r r loc s1 := by
    rw [fillSlots, if_pos (hhead ▸ hloc)]
    simp only [hhead, ne_eq, not_true_eq_false, if_false, hs1]
  have hs1loc : s1 loc = { blockPtr := block, size := r, free := true, gprev := 0
                           gnext := (s loc).gnext, prev := 0, next := 0 } := by
    rw [← hs1, update_self]
  have hcut := cutOff_pos (lt_of_lt_of_le (Nat.lt_succ_self r) hbound)
  have hfilled := fillSlots_spec block le_rfl (Nat.le_of_succ_le hbound) hrest
    (by omega : loc < loc + cutOff r) (fun a ha => hzero a (mem_cons_of_mem _ ha)) s1
  rw [← hstep, hrun] at hfilled
  have hgprev : (s1 loc).gprev = 0 := by rw [hs1loc]
  obtain ⟨hlast, hlabels, hlinks, hchain, hothers⟩ :=
    hfilled.cons (by rw [hs1loc]; exact ⟨rfl, rfl, rfl⟩) (by rw [hs1loc]; exact ⟨rfl, rfl⟩) hgprev
  simp only at hlast hlabels hlinks hchain hothers
  refine ⟨hlabels, hlinks, ?_, ?_, fun x hx => ?_⟩
  · refine Chain.set_after hchain (nodup_starts hclasses) ?_ ?_ ?_
    · intro y _ hne
      rw [Slots.setGnext_apply]
      exact if_neg (hlast ▸ hne)
    · intro y _
      rw [Slots.setGnext_apply]
    · intro _
      rw [Slots.setGnext_apply]
      exact if_pos hlast.symm
  · rw [hlast, starts_cons, getLastD_cons]
    exact getLastD_mem_cons
  · rw [hothers x hx, ← hs1, update_of_ne]
    rintro rfl
    exact hx mem_cons_self

/-- A fresh block is cut into free slots as large as possible. -/
theorem fillblock_spec {pool : MempoolType} {b : Int} {poolSize : Nat} {expansion : Bool}
    (hlow : headerSize expansion + 64 ≤ poolSize) (hhigh : poolSize ≤ headerSize expansion + 2 ^ 30)
    (hzero : 0 < b + headerSize expansion ∨ b + poolSize ≤ 0) (hused : (pool.blocks b).used = 0) :
    ∃ pool', fillblock pool b poolSize expansion = .ok pool' ∧
      BlockOk pool'.slots (pool'.blocks b) b (b + headerSize expansion)
        (freshTiles (poolSize - headerSize expansion)) ∧
      Frame b (b + headerSize expansion) (b + poolSize) pool pool' := by
  have hheader :
    (if expansion = true then sizeofBlockHeader else sizeofMempoolType) = headerSize expansion :=
    rfl
  generalize headerSize expansion = header at *
  obtain ⟨left, hleft⟩ : ∃ left, poolSize - header = left := ⟨_, rfl⟩
  rw [hleft]
  have hle : left ≤ 2 ^ 30 := by omega
  obtain ⟨hclasses, hbytes, -⟩ := freshTiles_spec hle
  obtain ⟨hpos, -⟩ := rounds_pos hle (by omega)
  have hne : ∀ a ∈ starts (b + header) (freshTiles left), a ≠ 0 := by
    intro a ha
    obtain ⟨t, ht⟩ := mem_starts ha
    have hbounds := place_bounds ht
    have hcut := cutOff_pos (hclasses t (mem_of_place ht))
    omega
  obtain ⟨fl, hfl⟩ : ∃ fl, fillLists (rounds left) (b + header) left (fun _ => 0) = fl := ⟨_, rfl⟩
  have htable : ∀ i, fl i = (tableOf (b + header) (greedy (rounds left) left) i).getD 0 := by
    intro i
    rw [← hfl, fillLists_eq]
  have hmem : ∀ i a, tableOf (b + header) (greedy (rounds left) left) i = some a ↔
      (a, Tile.mk i true) ∈ place (b + header) (freshTiles left) :=
      fun i a => tableOf_eq_some (nodup_greedy _ _)
  have hchosen : Chosen fl (rounds left) (b + header) left := fun j _ => htable j
  obtain ⟨⟨s', last⟩, hrun⟩ :
    ∃ r, fillSlots b fl (rounds left - 1) (rounds left) 0 pool.slots = r := ⟨_, rfl⟩
  obtain ⟨hlabels, hlinks, hchain, hlast, hothers⟩ :=
    fillSlots_all (by omega) hle hchosen hne pool.slots hrun
  refine ⟨{ pool with
      slots := Slots.setGnext s' last 0
      blocks := update pool.blocks b { pool.blocks b with freelists := fl } }, ?_, ?_, ?_⟩
  · unfold fillblock
    simp only [hheader, hleft]
    have hpower := whichPow2_lt hle
    rw [if_neg (by omega)]
    have hrounds :
      (if left < cutOff (whichPow2 left) then whichPow2 left else whichPow2 left + 1) =
      rounds left := rfl
    rw [hrounds, if_neg hpos.ne', hfl, hrun]
  · refine ⟨hclasses, by omega, hchain, ?_, ?_, ?_⟩
    · intro a t ha
      simp only [Slots.setGnext_apply]
      exact hlabels a t ha
    · -- every class has one slot at most
      have hempty : Buckets 0 (fun a => (pool.slots a).next) (fun a => (pool.slots a).prev)
          (fun _ : Nat => 0) fun _ => [] := Buckets.empty fun _ => rfl
      refine ⟨fun i => (tableOf (b + header) (greedy (rounds left) left) i).toList ++ [],
        hempty.fill (fun _ _ _ => rfl) ?_ (fun _ _ _ _ => not_mem_nil) ?_ ?_
        (fun _ _ hx => absurd hx not_mem_nil) (fun _ _ hx => absurd hx not_mem_nil) ?_, ?_⟩
      · intro i heq
        exact hne 0 (mem_starts_of_place ((hmem i 0).mp heq)) rfl
      · intro i j x hi hj
        have htile := place_unique hclasses ((hmem i x).mp hi) ((hmem j x).mp hj)
        cases htile
        rfl
      · intro i x hi
        simp only [Slots.setGnext_apply]
        exact (hlinks x (mem_starts_of_place ((hmem i x).mp hi))).symm
      · intro i
        simp only [update_self]
        exact htable i
      · intro i a
        simp only [append_nil, Option.mem_toList]
        exact hmem i a
    · simp only [update_self]
      rw [hused, freshTiles, usedSum_freeTiles]
  · have hout :
      ∀ x, x < b + header ∨ b + poolSize ≤ x → x ∉ starts (b + header) (freshTiles left) := by
      intro x hx hmem
      obtain ⟨t, ht⟩ := mem_starts hmem
      have hbounds := place_bounds ht
      have hcut := cutOff_pos (hclasses t (mem_of_place ht))
      omega
    refine ⟨fun x hx => ?_, fun c hc => update_of_ne hc _ _, ?_, ?_, ?_, rfl, rfl, rfl⟩
    · have hlast' : x ≠ last := fun heq => hout x hx (heq ▸ hlast)
      simp only [Slots.setGnext_apply, hothers x (hout x hx), if_neg hlast']
    all_goals simp only [update_self]

end Fill

end CharmRuntime.Mempool
