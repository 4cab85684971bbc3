import CharmRuntime.Mempool.BlockOk

/-!
# Mempool.Alloc

Allocation inside of one block: `checkblock` breaks a larger slot if it has to, and
`mempool_malloc` takes the first free slot of the class.
-/

namespace CharmRuntime.Mempool

open Lib Function List Option

variable {ts : List Tile} {power n : Nat} {b : Int} {lists : Nat → List Int} {pool : MempoolType}
  {start : Int}

theorem place_split {loc a : Int} {t : Tile} (h : (a, t) ∈ place loc ts) :
    ∃ l1 l2, ts = l1 ++ t :: l2 ∧ a = loc + tileBytes l1 := by
  induction ts generalizing loc with
  | nil => exact absurd h not_mem_nil
  | cons u ts ih =>
    obtain heq | h := mem_cons.mp h
    · cases heq
      exact ⟨[], ts, rfl, by simp⟩
    · obtain ⟨l1, l2, rfl, ha⟩ := ih h
      refine ⟨u :: l1, l2, rfl, ?_⟩
      rw [ha, tileBytes_cons]
      push_cast
      ring

/-! ### Breaking a slot -/

/-- The classes from `power` on, and `power` once more, make up the next class. -/
theorem classBytes_range' (h : power + n < cutOffNum) :
    cutOff power + classBytes (List.range' power n) = cutOff (power + n) := by
  induction n with
  | zero => simp [classBytes]
  | succ n ih =>
    have hsum :
      classBytes (range' power (n + 1)) = classBytes (range' power n) + cutOff (power + n) := by
      rw [range'_concat, classBytes, classBytes, map_append]
      simp
    have hprev := ih (by omega)
    have hlast : cutOff (power + n + 1) = cutOff (power + n) + cutOff (power + n) := cutOff_succ h
    rw [hsum, ← add_assoc, ← add_assoc, hprev, hlast]

theorem splitLists_eq {i j : Nat} (loc : Int) (fl : Nat → Int) :
    splitLists n (i + 1) loc fl j = (tableOf (loc + cutOff i) (List.range' (i + 1) n) j).getD
      (fl j) := by
  induction n generalizing i loc fl with
  | zero => rfl
  | succ n ih =>
    rw [splitLists, Nat.add_sub_cancel, ih, range'_succ, tableOf]
    by_cases hj : j = i + 1
    · have hnone : tableOf (loc + cutOff i + cutOff (i + 1)) (range' (i + 1 + 1) n) j = none := by
        refine tableOf_eq_none.mpr fun hmem => ?_
        have hrange := mem_range'_1.mp hmem
        omega
      rw [if_pos hj, hnone, hj, update_self]
      rfl
    · rw [if_neg hj, update_of_ne hj]

theorem splitSlots_spec (b : Int) (power : Nat) {i : Nat} (hi : power < i + 1)
    (hn : i + 1 + n ≤ cutOffNum) (h : Int) (s : Slots) :
    ∃ s' last, splitSlots b power n (i + 1) h h s = (s', last, last) ∧
      FilledSlots b h (h + cutOff i) (freeTiles (List.range' (i + 1) n)) s s' last := by
  induction n generalizing i h s with
  | zero => exact ⟨s, h, rfl, FilledSlots.nil b h _ s⟩
  | succ n ih =>
    have hcut := cutOff_pos (i := i) (by omega)
    have hpower : i + 1 ≠ power := by omega
    obtain ⟨s', last, hrun, hfilled⟩ := ih (i := i + 1) (by omega) (by omega) (h + cutOff i)
      (Slots.setGnext (update s (h + cutOff i)
        (newHeader b (i + 1) h (s (h + cutOff i)).gnext)) h (h + cutOff i))
    refine ⟨s', last, ?_, ?_⟩
    · rw [← hrun, splitSlots]
      simp only [if_pos hpower]
      rfl
    · exact FilledSlots.round (by omega) hfilled

/-- All rounds. The first one sets the second slot of class `power`. -/
theorem splitSlots_all (b : Int) (power : Nat) (hn : power + (n + 1) ≤ cutOffNum) (h : Int)
    (s : Slots) :
    ∃ s' last, splitSlots b power (n + 1) power (h + cutOff power) h s = (s', last, last) ∧
      FilledSlots b h (h + cutOff power) (freeTiles (List.range' power (n + 1))) s s' last := by
  have hcut := cutOff_pos (i := power) (by omega)
  obtain ⟨s', last, hrun, hfilled⟩ :=
    splitSlots_spec b power (n := n) (Nat.lt_succ_self power) (by omega)
      (h + cutOff power) (Slots.setGnext (update s (h + cutOff power)
        (newHeader b power h (s (h + cutOff power)).gnext)) h (h + cutOff power))
  refine ⟨s', last, ?_, ?_⟩
  · rw [← hrun, splitSlots]
    simp only [ne_eq, not_true_eq_false]
    rfl
  · exact FilledSlots.round (by omega) hfilled

/-- The tiles that a slot of class `power + n + 1` is broken into. -/
def brokenTiles (power n : Nat) : List Tile :=
  { cls := power, free := true } :: freeTiles (List.range' power (n + 1))

theorem tileBytes_brokenTiles (h : power + (n + 1) < cutOffNum) :
    tileBytes (brokenTiles power n) = cutOff (power + (n + 1)) := by
  rw [brokenTiles, tileBytes_cons, tileBytes_freeTiles]
  exact classBytes_range' h

theorem classesOk_brokenTiles (h : power + (n + 1) < cutOffNum) :
    ClassesOk (brokenTiles power n) := by
  intro t ht
  obtain rfl | ht := mem_cons.mp ht
  · simp only
    omega
  · refine classesOk_freeTiles (fun c hc => ?_) t ht
    have hrange := mem_range'_1.mp hc
    omega

/-- The links after a slot has been broken. `L` is the slot, `H` the second one of its class,
`G` and `N` are what stood behind the slot in the block and in its free list. -/
structure BrokenLinks (b L H G N last : Int) (power n : Nat) (s s' : Slots) : Prop where
  last_mem : last = (starts H (freeTiles (List.range' power (n + 1)))).getLastD L
  labels : Labelled s' b L (brokenTiles power n)
  chain : SlotChain s' (s L).gprev (starts L (brokenTiles power n)) G
  next_L : (s' L).next = H ∧ (s' L).prev = (s L).prev
  links : ∀ a ∈ starts H (freeTiles (List.range' power (n + 1))),
    (s' a).next = 0 ∧ (s' a).prev = if a = H then L else 0
  others : ∀ x, x ∉ starts L (brokenTiles power n) →
    s' x = { s x with
      gprev := if x = G ∧ x ≠ 0 then last else (s x).gprev
      prev := if x = N ∧ x ≠ 0 then 0 else (s x).prev }

theorem Slots.setPrev_ite (s : Slots) (a v x : Int) : (if a ≠ 0 then s.setPrev a v else s) x
      = { s x with prev := if x = a ∧ x ≠ 0 then v else (s x).prev } := by
  by_cases ha : a = 0
  · rw [if_neg (not_not.mpr ha), if_neg]
    rintro ⟨rfl, hne⟩
    exact hne ha
  · rw [if_pos ha, setPrev_apply]
    by_cases hx : x = a
    · rw [if_pos hx, if_pos ⟨hx, hx ▸ ha⟩]
    · rw [if_neg hx, if_neg fun hand => hx hand.1]

theorem Slots.setGprev_ite (s : Slots) (a v x : Int) : (if a ≠ 0 then s.setGprev a v else s) x
      = { s x with gprev := if x = a ∧ x ≠ 0 then v else (s x).gprev } := by
  by_cases ha : a = 0
  · rw [if_neg (not_not.mpr ha), if_neg]
    rintro ⟨rfl, hne⟩
    exact hne ha
  · rw [if_pos ha, setGprev_apply]
    by_cases hx : x = a
    · rw [if_pos hx, if_pos ⟨hx, hx ▸ ha⟩]
    · rw [if_neg hx, if_neg fun hand => hx hand.1]

/-- The last writes of `splitSlot`. -/
def joinBroken (s : Slots) (L H G N last : Int) : Slots :=
  let s := (s.setPrev H L).setGnext last G
  let s := if G ≠ 0 then s.setGprev G last else s
  if N ≠ 0 then s.setPrev N 0 else s

theorem joinBroken_apply (s : Slots) (L H G N last x : Int) :
    joinBroken s L H G N last x = { s x with
      gnext := if x = last then G else (s x).gnext
      gprev := if x = G ∧ x ≠ 0 then last else (s x).gprev
      prev := if x = N ∧ x ≠ 0 then 0 else if x = H then L else (s x).prev } := by
  unfold joinBroken
  simp only [Slots.setPrev_ite, Slots.setGprev_ite, Slots.setGnext_apply, Slots.setPrev_apply]

/-- The headers that `splitSlot` writes. -/
theorem brokenLinks_of_split {L H G N : Int} {s : Slots}
    (hn : power + (n + 1) < cutOffNum) (hH : H = L + cutOff power)
    (hL : (s L).free = true ∧ (s L).blockPtr = b)
    (hG : G ∉ starts L (brokenTiles power n)) (hN : N ∉ starts L (brokenTiles power n)) {s1 : Slots}
    {last : Int} (hfilled : FilledSlots b L H (freeTiles (List.range' power (n + 1)))
      (update s L { s L with size := power, next := H }) s1 last) :
    BrokenLinks b L H G N last power n s (joinBroken s1 L H G N last) := by
  have hstarts :
    starts L (brokenTiles power n) = L :: starts H (freeTiles (range' power (n + 1))) := by
    rw [brokenTiles, starts_cons, hH]
  have hHmem : H ∈ starts H (freeTiles (range' power (n + 1))) := by
    exact mem_cons_self
  have hnodup : (L :: starts H (freeTiles (range' power (n + 1)))).Nodup :=
    hstarts ▸ nodup_starts (classesOk_brokenTiles hn)
  have hlast : last ∈ starts H (freeTiles (range' power (n + 1))) := by
    rw [hfilled.last_eq]
    cases hl : starts H (freeTiles (range' power (n + 1))) with
    | nil =>
      rw [hl] at hHmem
      exact absurd hHmem not_mem_nil
    | cons y l =>
      rw [getLastD_cons]
      exact getLastD_mem_cons
  have hL1 : s1 L = { s L with size := power, next := H, gnext := H } := by
    rw [hfilled.before, update_self]
    have hhead : ∀ d, (starts H (freeTiles (range' power (n + 1)))).headD d = H := by
      intro d
      rfl
    rw [hhead]
  have hin : ∀ x ∈ starts L (brokenTiles power n), x ≠ G ∧ x ≠ N :=
    fun x hx => ⟨fun heq => hG (heq ▸ hx), fun heq => hN (heq ▸ hx)⟩
  rw [hstarts] at hin
  obtain ⟨hLnot, hnodup'⟩ := nodup_cons.mp hnodup
  have hLlast : L ≠ last := fun heq => hLnot (heq ▸ hlast)
  have hLH : L ≠ H := fun heq => hLnot (heq ▸ hHmem)
  have hLin := hin L mem_cons_self
  refine ⟨hfilled.last_eq, ?_, ?_, ?_, ?_, ?_⟩
  · intro a t hmem
    rw [joinBroken_apply]
    obtain heq | hmem := mem_cons.mp hmem
    · cases heq
      rw [hL1]
      exact ⟨rfl, hL⟩
    · rw [← hH] at hmem
      exact hfilled.labels a t hmem
  · rw [hstarts]
    refine ⟨?_, ?_, Chain.set_after hfilled.chain hnodup' ?_ ?_ ?_⟩
    · simp only [joinBroken_apply, hL1]
      rw [if_neg fun hand => hLin.1 hand.1]
    · simp only [joinBroken_apply, hL1]
      rw [if_neg hLlast]
      rfl
    · intro y _ hne
      simp only [joinBroken_apply]
      exact if_neg (hfilled.last_eq ▸ hne)
    · intro y hy
      simp only [joinBroken_apply]
      exact if_neg fun hand => (hin y (mem_cons_of_mem _ hy)).1 hand.1
    · intro _
      simp only [joinBroken_apply]
      exact if_pos hfilled.last_eq.symm
  · simp only [joinBroken_apply, hL1]
    rw [if_neg fun hand => hLin.2 hand.1, if_neg hLH]
    exact ⟨trivial, rfl⟩
  · intro a ha
    simp only [joinBroken_apply]
    rw [if_neg fun hand => (hin a (mem_cons_of_mem _ ha)).2 hand.1, (hfilled.links a ha).1,
      (hfilled.links a ha).2]
    exact ⟨rfl, rfl⟩
  · intro x hx
    rw [hstarts, mem_cons, not_or] at hx
    have hxlast : x ≠ last := fun heq => hx.2 (heq ▸ hlast)
    have hxH : x ≠ H := fun heq => hx.2 (heq ▸ hHmem)
    rw [joinBroken_apply, hfilled.others x hx.1 hx.2, update_of_ne hx.1, if_neg hxlast, if_neg hxH]

theorem usedSum_append (ts us : List Tile) : usedSum (ts ++ us) = usedSum ts + usedSum us := by
  simp [usedSum]

theorem usedSum_cons_free (c : Nat) (ts : List Tile) :
    usedSum ({ cls := c, free := true } :: ts) = usedSum ts := rfl

theorem usedSum_cons_used (c : Nat) (ts : List Tile) :
    usedSum ({ cls := c, free := false } :: ts) = c + usedSum ts := rfl

theorem mem_update_erase {fl : Nat → Int} {s : Slots} (hfree : FreeLists s fl lists)
    {k i : Nat} {L a : Int} (hL : L ∈ lists k) :
    a ∈ update lists k ((lists k).erase L) i ↔ a ∈ lists i ∧ a ≠ L := by
  by_cases hi : i = k
  · subst hi
    rw [update_self, (hfree.nodup _).mem_erase_iff]
    exact And.comm
  · rw [update_of_ne hi]
    refine ⟨fun ha => ⟨ha, fun heq => hi ?_⟩, And.left⟩
    exact hfree.disjoint _ _ L (heq ▸ ha) hL

/-- The free lists, when the slot `L` is broken. -/
theorem freeLists_of_broken {s s' : Slots} {fl fl' : Nat → Int} {L H G last : Int}
    (hn : power + (n + 1) < cutOffNum) (hH : H = L + cutOff power)
    (hfree : FreeLists s fl lists) (hLlist : L ∈ lists (power + (n + 1))) (hLprev : (s L).prev = 0)
    (hLzero : ∀ a ∈ starts L (brokenTiles power n), a ≠ 0)
    (hout : ∀ i, ∀ a ∈ lists i, a ≠ L → a ∉ starts L (brokenTiles power n))
    (hempty : ∀ i, power ≤ i → i < power + (n + 1) → fl i = 0)
    (hbroken : BrokenLinks b L H G (s L).next last power n s s')
    (hfl' : ∀ i, fl' i = if i = power then L else
      (tableOf H (List.range' power (n + 1)) i).getD
        (if i = power + (n + 1) then (s L).next else fl i)) :
    ∃ lists', FreeLists s' fl' lists' ∧ ∀ i a, a ∈ lists' i ↔
      (i = power ∧ a = L) ∨ (a, Tile.mk i true) ∈ place H (freeTiles (List.range' power (n + 1))) ∨
        (a ∈ lists i ∧ a ≠ L) := by
  have hstarts :
    starts L (brokenTiles power n) = L :: starts H (freeTiles (range' power (n + 1))) := by
    rw [brokenTiles, starts_cons, hH]
  have hnodup : (L :: starts H (freeTiles (range' power (n + 1)))).Nodup :=
    hstarts ▸ nodup_starts (classesOk_brokenTiles hn)
  have htable : ∀ {i a}, tableOf H (range' power (n + 1)) i = some a ↔
      (a, Tile.mk i true) ∈ place H (freeTiles (range' power (n + 1))) :=
    tableOf_eq_some nodup_range'
  have hpiece : ∀ {i a}, tableOf H (range' power (n + 1)) i = some a →
      a ∈ starts H (freeTiles (range' power (n + 1))) :=
      fun hi => mem_starts_of_place (htable.mp hi)
  have hpiece' : ∀ {i a}, tableOf H (range' power (n + 1)) i = some a →
      a ∈ starts L (brokenTiles power n) := fun hi => hstarts ▸ mem_cons_of_mem _ (hpiece hi)
  have hpower : tableOf H (range' power (n + 1)) power = some H := by
    rw [range'_succ, tableOf, if_pos rfl]
  -- the slot leaves its list
  have hstep1 : Buckets 0 (fun a => (s' a).next) (fun a => (s' a).prev)
      (fun i => if i = power + (n + 1) ∧ (s L).prev = 0 then (s L).next else fl i)
      (update lists (power + (n + 1)) ((lists (power + (n + 1))).erase L)) := by
    refine Buckets.unlink hfree hLlist ?_ ?_ fun _ => rfl
    · intro i y hy hne
      have hzero : y ≠ 0 := fun heq => hfree.ne_null i (heq ▸ hy)
      simp only [hbroken.others y (hout i y hy hne), hLprev, if_neg hzero]
    · intro i y hy hne
      have hzero : y ≠ 0 := fun heq => hfree.ne_null i (heq ▸ hy)
      simp only [hbroken.others y (hout i y hy hne), hLprev, hzero, ne_eq,
        not_false_eq_true, and_true]
  have hmem1 : ∀ {i a}, a ∈ update lists (power + (n + 1)) ((lists (power + (n + 1))).erase L) i ↔
      a ∈ lists i ∧ a ≠ L := mem_update_erase hfree hLlist
  -- the pieces form lists of their own
  have hstep2 : Buckets 0 (fun a => (s' a).next) (update (fun a => (s' a).prev) H 0)
      (fun i => (tableOf H (range' power (n + 1)) i).getD
        (if i = power + (n + 1) ∧ (s L).prev = 0 then (s L).next else fl i))
      (fun i => (tableOf H (range' power (n + 1)) i).toList ++
        update lists (power + (n + 1)) ((lists (power + (n + 1))).erase L) i) := by
    refine hstep1.fill ?_ ?_ ?_ ?_ ?_ (fun _ _ _ => rfl) ?_ fun _ => rfl
    · intro i x hi
      have hrange : i ∈ range' power (n + 1) := by
        by_contra hnot
        rw [tableOf_eq_none.mpr hnot] at hi
        cases hi
      obtain ⟨hlow, hhigh⟩ := mem_range'_1.mp hrange
      rw [update_of_ne (by omega)]
      exact (Buckets.head_eq_null hfree).mp (hempty i hlow hhigh)
    · exact fun i hi => hLzero 0 (hpiece' hi) rfl
    · intro i x hi j hj
      obtain ⟨hxj, hxL⟩ := hmem1.mp hj
      exact hout j x hxj hxL (hpiece' hi)
    · intro i j x hi hj
      have htile := place_unique (classesOk_brokenTiles hn)
        (mem_cons_of_mem _ (hH ▸ htable.mp hi)) (mem_cons_of_mem _ (hH ▸ htable.mp hj))
      cases htile
      rfl
    · intro i x hi
      obtain ⟨hnext, hprev⟩ := hbroken.links x (hpiece hi)
      refine ⟨hnext, ?_⟩
      by_cases hx : x = H
      · rw [hx, update_self]
      · rw [update_of_ne hx, hprev, if_neg hx]
    · intro i x hx
      obtain ⟨hxi, hxL⟩ := hmem1.mp hx
      have hne : x ≠ H := fun heq => hout i x hxi hxL (heq ▸ hpiece' hpower)
      rw [update_of_ne hne]
  -- and the first piece comes before the second one
  refine ⟨_, hstep2.push (i := power) (x := L) ?_ ?_ ?_ ?_ (fun _ _ _ => rfl) ?_ ?_, ?_⟩
  · intro j hj
    obtain hj | hj := mem_append.mp hj
    · exact (nodup_cons.mp hnodup).1 (hpiece (mem_toList.mp hj))
    · exact (hmem1.mp hj).2 rfl
  · exact hLzero L (hstarts ▸ mem_cons_self)
  · simp only [hpower]
    exact hbroken.next_L.1
  · simp only [hbroken.next_L.2]
    exact hLprev
  · intro j y hy
    simp only [hpower, getD_some]
    by_cases hyH : y = H
    · rw [if_pos hyH, hyH]
      have hprev := (hbroken.links H (hpiece hpower)).2
      rw [hprev, if_pos rfl]
    · rw [if_neg hyH, update_of_ne hyH]
  · intro j
    rw [hfl']
    simp only [hLprev, and_true]
  · intro i a
    by_cases hi : i = power
    · subst hi
      rw [update_self, mem_cons, mem_append, mem_toList, htable, hmem1]
      simp
    · rw [update_of_ne hi, mem_append, mem_toList, htable, hmem1]
      simp [hi]

/-- What `splitSlot` computes, before the links are looked at. -/
theorem splitSlot_eq {L : Int}
    (hL : (pool.blocks b).freelists (power + (n + 1)) = L) (hn : power + (n + 1) < cutOffNum) :
    ∃ s1 last fl', FilledSlots b L (L + cutOff power) (freeTiles (List.range' power (n + 1)))
        (update pool.slots L { pool.slots L with size := power, next := L + cutOff power }) s1
          last ∧
      (∀ i, fl' i = if i = power then L else
        (tableOf (L + cutOff power) (List.range' power (n + 1)) i).getD
          (if i = power + (n + 1) then (pool.slots L).next else (pool.blocks b).freelists i)) ∧
      splitSlot pool b power (power + (n + 1)) = { pool with
          slots := joinBroken s1 L (L + cutOff power) (pool.slots L).gnext (pool.slots L).next last
          blocks := update pool.blocks b { pool.blocks b with freelists := fl' } } := by
  have hrounds : power + (n + 1) - power = n + 1 := by omega
  have hrounds' : power + (n + 1) - (power + 1) = n := by omega
  obtain ⟨fl', hfl'⟩ : ∃ fl', splitLists n (power + 1) (L + cutOff power)
      (update (update (pool.blocks b).freelists (power + (n + 1)) (pool.slots L).next)
        power L) = fl' := ⟨_, rfl⟩
  have hspec : ∀ i, fl' i = if i = power then L else
      (tableOf (L + cutOff power) (range' power (n + 1)) i).getD
        (if i = power + (n + 1) then (pool.slots L).next else (pool.blocks b).freelists i) := by
    intro i
    rw [← hfl', splitLists_eq, range'_succ, tableOf]
    by_cases hi : i = power
    · have hnone : tableOf (L + cutOff power + cutOff power) (range' (power + 1) n) i = none := by
        refine tableOf_eq_none.mpr fun hmem => ?_
        have hrange := mem_range'_1.mp hmem
        omega
      rw [hnone, if_pos hi, hi, update_self, getD_none]
    · rw [if_neg hi, if_neg hi, update_of_ne hi, update_apply]
  have hpower : fl' power = L := by rw [hspec, if_pos rfl]
  have hpowiter : fl' (power + (n + 1)) = (pool.slots L).next := by
    have hnone : tableOf (L + cutOff power) (range' power (n + 1)) (power + (n + 1)) = none := by
      refine tableOf_eq_none.mpr fun hmem => ?_
      have hrange := mem_range'_1.mp hmem
      omega
    rw [hspec, if_neg (by omega), hnone, if_pos rfl, getD_none]
  obtain ⟨s1, last, hrun, hfilled⟩ := splitSlots_all b power (n := n) (by omega) L
    (update pool.slots L { pool.slots L with size := power, next := L + cutOff power })
  refine ⟨s1, last, fl', hfilled, hspec, ?_⟩
  unfold splitSlot
  simp only [hL, hrounds, hrounds', hfl', hpower, hpowiter, hrun]
  rfl

theorem headD_mem {l : List Int} (h : l.headD 0 ≠ 0) : l.headD 0 ∈ l := by
  cases l with
  | nil => exact absurd rfl h
  | cons y l => exact mem_cons_self

theorem tileBytes_one (t : Tile) : tileBytes [t] = cutOff t.cls := by
  simp

/-- The first slot `L` of the free list of class `k`, with the tiles before and behind it. -/
structure HeadSlot (pool : MempoolType) (b start L : Int) (k : Nat) (l1 l2 : List Tile)
    (lists : Nat → List Int) : Prop where
  block : BlockOk pool.slots (pool.blocks b) b start (l1 ++ [{ cls := k, free := true }] ++ l2)
  loc : L = start + tileBytes l1
  head : (pool.blocks b).freelists k = L
  head_ne : L ≠ 0
  free : FreeLists pool.slots (pool.blocks b).freelists lists
  mem_lists : ∀ i a, a ∈ lists i ↔
    (a, { cls := i, free := true }) ∈ place start (l1 ++ [{ cls := k, free := true }] ++ l2)

namespace HeadSlot

variable {L last a x : Int} {i k : Nat} {l1 l2 : List Tile} {s' : Slots} {fl' : Nat → Int}

theorem of_freelists (h : BlockOk pool.slots (pool.blocks b) b start ts)
    (hhead : (pool.blocks b).freelists k ≠ 0) :
    ∃ L l1 l2 lists, ts = l1 ++ { cls := k, free := true } :: l2 ∧
      HeadSlot pool b start L k l1 l2 lists := by
  obtain ⟨lists, hfree, hmem⟩ := h.lists
  obtain ⟨l1, l2, rfl, hloc⟩ := place_split ((hmem _ _).mp (Buckets.head_mem hfree hhead))
  rw [append_cons] at h hmem
  exact ⟨_, l1, l2, lists, rfl, h, hloc, rfl, hhead, hfree, hmem⟩

variable (h : HeadSlot pool b start L k l1 l2 lists)

include h

theorem mem : L ∈ lists k := by
  have hne := h.head_ne
  rw [← h.head] at hne ⊢
  exact Buckets.head_mem h.free hne

theorem placed : (L, Tile.mk k true) ∈ place start (l1 ++ [{ cls := k, free := true }] ++ l2) :=
  (h.mem_lists _ L).mp h.mem

theorem place_eq : place start (l1 ++ [{ cls := k, free := true }] ++ l2)
    = place start l1 ++ [(L, { cls := k, free := true })] ++ place (L + cutOff k) l2 := by
  rw [place_middle h.loc, tileBytes_one]
  rfl

theorem prev_eq : (pool.slots L).prev = 0 := by
  have hne := h.head_ne
  rw [← h.head] at hne
  obtain ⟨-, -, hprev, -⟩ := h.free.head_cons hne
  rwa [h.head] at hprev

theorem next_mem :
    (pool.slots L).next ≠ 0 → (pool.slots L).next ∈ lists k ∧ (pool.slots L).next ≠ L := by
  have hne := h.head_ne
  rw [← h.head] at hne
  have hnext := h.free.head_next_mem hne
  rwa [h.head] at hnext

theorem next_ne : (pool.slots L).next ≠ L := by
  by_cases hne : (pool.slots L).next = 0
  · rw [hne]
    exact h.head_ne.symm
  · exact (h.next_mem hne).2

theorem links : (pool.slots L).gprev = (starts start l1).getLastD 0 ∧
    (pool.slots L).gnext = (starts (L + cutOff k) l2).headD 0 := by
  have hchain := h.block.chain
  rw [starts_middle h.loc, tileBytes_one, append_assoc] at hchain
  exact Chain.links hchain

theorem gnext_mem (hne : (pool.slots L).gnext ≠ 0) :
    (pool.slots L).gnext ∈ starts (L + cutOff k) l2 := by
  rw [h.links.2] at hne ⊢
  exact headD_mem hne

theorem class_lt : k < cutOffNum :=
  h.block.classes _ (mem_append_left _ (mem_append_right _ mem_cons_self))

theorem before_bounds (ha : a ∈ starts start l1) : a + 64 ≤ L := by
  have hbounds := starts_bounds (ClassesOk.append.mp (ClassesOk.append.mp h.block.classes).1).1 ha
  have hloc := h.loc
  omega

theorem behind_bounds (ha : a ∈ starts (L + cutOff k) l2) : L + cutOff k ≤ a :=
  (starts_bounds (ClassesOk.append.mp h.block.classes).2 ha).1

theorem behind_ne (ha : a ∈ starts (L + cutOff k) l2) : a ≠ L := by
  have hbounds := h.behind_bounds ha
  have hcut := cutOff_pos h.class_lt
  omega

/-- No neighbour of the slot lies outside the block. -/
theorem apart_neighbours
    (hx : x < start ∨ start + tileBytes (l1 ++ [{ cls := k, free := true }] ++ l2) ≤ x) :
    x ≠ L ∧ ¬ (x = (pool.slots L).gnext ∧ x ≠ 0) ∧ ¬ (x = (pool.slots L).next ∧ x ≠ 0) := by
  have hnot : x ∉ starts start (l1 ++ [{ cls := k, free := true }] ++ l2) := by
    intro hin
    have hbounds := starts_bounds h.block.classes hin
    omega
  refine ⟨?_, ?_, ?_⟩
  · rintro rfl
    exact hnot (mem_starts_of_place h.placed)
  · rintro ⟨rfl, hne⟩
    obtain ⟨t, ht⟩ := mem_starts (h.gnext_mem hne)
    refine hnot (mem_starts_of_place (t := t) ?_)
    rw [h.place_eq]
    exact mem_append_right _ ht
  · rintro ⟨rfl, hne⟩
    exact hnot (mem_starts_of_place ((h.mem_lists _ _).mp (h.next_mem hne).1))

end HeadSlot

/-! What splitting does to the first slot of a list. -/

namespace HeadSlot

variable {L last a x : Int} {i : Nat} {l1 l2 : List Tile} {s' : Slots} {fl' : Nat → Int}
  (h : HeadSlot pool b start L (power + (n + 1)) l1 l2 lists)

include h

theorem piece_bounds (ha : a ∈ starts L (brokenTiles power n)) :
    L ≤ a ∧ a + 64 ≤ L + cutOff (power + (n + 1)) := by
  have hbounds := starts_bounds (classesOk_brokenTiles h.class_lt) ha
  rwa [tileBytes_brokenTiles h.class_lt] at hbounds

theorem piece_ne_zero (ha : a ∈ starts L (brokenTiles power n)) : a ≠ 0 := by
  have hbounds := h.piece_bounds ha
  have hplace := place_bounds h.placed
  have hnonzero := h.block.nonzero
  simp only at hplace
  omega

theorem not_piece (ha : a ∈ lists i) (hne : a ≠ L) : a ∉ starts L (brokenTiles power n) := by
  intro hin
  have hplace := (h.mem_lists i a).mp ha
  have hbounds := h.piece_bounds hin
  have hcut := cutOff_pos (h.block.classes _ (mem_of_place hplace))
  obtain ⟨heq, -⟩ | hle | hle := place_apart h.placed hplace
  · exact hne heq.symm
  · simp only at hle
    omega
  · simp only at hle hcut
    omega

theorem gnext_not_piece : (pool.slots L).gnext ∉ starts L (brokenTiles power n) := by
  intro hin
  have hbounds := h.piece_bounds hin
  have hbounds' := h.behind_bounds (h.gnext_mem (h.piece_ne_zero hin))
  omega

theorem next_not_piece : (pool.slots L).next ∉ starts L (brokenTiles power n) := by
  intro hin
  obtain ⟨hlist, hne⟩ := h.next_mem (h.piece_ne_zero hin)
  exact h.not_piece hlist hne hin

theorem mem_place_pieces : (a, Tile.mk i true) ∈ place start (l1 ++ brokenTiles power n ++ l2) ↔
    (i = power ∧ a = L) ∨
      (a, Tile.mk i true) ∈ place (L + cutOff power) (freeTiles (List.range' power (n + 1))) ∨
      (a ∈ lists i ∧ a ≠ L) := by
  have hpiece : (a, Tile.mk i true) ∈ place L (brokenTiles power n) ↔ (i = power ∧ a = L) ∨
      (a, Tile.mk i true) ∈ place (L + cutOff power) (freeTiles (range' power (n + 1))) := by
    rw [brokenTiles, place, mem_cons, Prod.mk.injEq, Tile.mk.injEq]
    simp only [and_true]
    rw [and_comm]
  rw [place_middle h.loc, tileBytes_brokenTiles h.class_lt, h.mem_lists, h.place_eq]
  simp only [mem_append, hpiece, mem_singleton, Prod.mk.injEq]
  constructor
  · rintro ((hin | hfirst | hnew) | hin)
    · have hbounds := h.before_bounds (mem_starts_of_place hin)
      exact .inr (.inr ⟨.inl (.inl hin), by omega⟩)
    · exact .inl hfirst
    · exact .inr (.inl hnew)
    · exact .inr (.inr ⟨.inr hin, h.behind_ne (mem_starts_of_place hin)⟩)
  · rintro (hfirst | hnew | ⟨(hin | hin) | hin, hne⟩)
    · exact .inl (.inr (.inl hfirst))
    · exact .inl (.inr (.inr hnew))
    · exact .inl (.inl hin)
    · exact absurd hin.1 hne
    · exact .inr hin

variable (hbroken : BrokenLinks b L (L + cutOff power) (pool.slots L).gnext (pool.slots L).next
  last power n pool.slots s')

include hbroken

theorem blockOk (hempty : ∀ i, power ≤ i → i < power + (n + 1) → (pool.blocks b).freelists i = 0)
    (hfl' : ∀ i, fl' i = if i = power then L else
      (tableOf (L + cutOff power) (List.range' power (n + 1)) i).getD
        (if i = power + (n + 1) then (pool.slots L).next else (pool.blocks b).freelists i)) :
    BlockOk s' { pool.blocks b with freelists := fl' } b start
      (l1 ++ brokenTiles power n ++ l2) := by
  -- the broken slot is replaced by its pieces, which have its bytes
  obtain ⟨lists', hfree', hmem'⟩ := freeLists_of_broken h.class_lt rfl h.free h.mem h.prev_eq
    (fun a => h.piece_ne_zero) (fun i a => h.not_piece) hempty hbroken hfl'
  refine h.block.replace (cons_ne_nil _ _) (cons_ne_nil _ _) h.loc
    ((tileBytes_brokenTiles h.class_lt).trans (tileBytes_one ⟨_, true⟩).symm)
    (classesOk_brokenTiles h.class_lt) ?_ hbroken.labels ?_ ?_ ?_
    ⟨lists', hfree', fun i a => (hmem' i a).trans h.mem_place_pieces.symm⟩ ?_
  · rw [tileBytes_one, ← h.links.1, ← h.links.2]
    exact hbroken.chain
  · intro a ha
    have hbounds := h.before_bounds ha
    rw [hbroken.others a fun hin => by have hb := h.piece_bounds hin; omega, if_neg]
    · exact ⟨rfl, rfl, rfl, rfl, rfl⟩
    · rintro ⟨rfl, hne⟩
      have hbounds' := h.behind_bounds (h.gnext_mem hne)
      omega
  · intro a ha
    rw [tileBytes_one] at ha ⊢
    have hbounds := h.behind_bounds ha
    rw [hbroken.others a fun hin => by have hb := h.piece_bounds hin; omega]
    refine ⟨rfl, rfl, rfl, rfl, fun hne => ?_⟩
    rw [← h.links.2] at hne
    exact if_neg fun hand => hne hand.1
  · rw [tileBytes_one, ← h.links.2]
    intro hnil
    obtain ⟨y, l, hcons⟩ := exists_cons_of_ne_nil hnil
    have hnonzero : (pool.slots L).gnext ≠ 0 := by
      rw [h.links.2, hcons, headD_cons]
      obtain ⟨t, ht⟩ := mem_starts (hcons ▸ mem_cons_self)
      refine h.block.ne_zero (t := t) ?_
      rw [h.place_eq]
      exact mem_append_right _ ht
    rw [hbroken.others _ h.gnext_not_piece, if_pos ⟨rfl, hnonzero⟩, hbroken.last_mem, brokenTiles,
      starts_cons, getLastD_cons]
  · rw [h.block.used, usedSum_append, usedSum_append, usedSum_append, usedSum_append, brokenTiles,
      usedSum_cons_free, usedSum_cons_free, usedSum_freeTiles]
    rfl

theorem outside (hx : x < start ∨
    start + tileBytes (l1 ++ [{ cls := power + (n + 1), free := true }] ++ l2) ≤ x) :
    s' x = pool.slots x := by
  have hmid : x ∉ starts L (brokenTiles power n) := by
    intro hin
    have hbounds := h.piece_bounds hin
    have hplace := place_bounds h.placed
    simp only at hplace
    omega
  obtain ⟨-, hgnext, hnext⟩ := h.apart_neighbours hx
  simp only [hbroken.others x hmid, if_neg hgnext, if_neg hnext]

end HeadSlot

/-- A slot is broken in its place, and the list of class `power` is no longer empty. -/
theorem splitSlot_spec (h : BlockOk pool.slots (pool.blocks b) b start ts)
    (hn : power + (n + 1) < cutOffNum)
    (hhead : (pool.blocks b).freelists (power + (n + 1)) ≠ 0)
    (hempty : ∀ i, power ≤ i → i < power + (n + 1) → (pool.blocks b).freelists i = 0) :
    ∃ l1 l2, ts = l1 ++ { cls := power + (n + 1), free := true } :: l2 ∧
      BlockOk (splitSlot pool b power (power + (n + 1))).slots
        ((splitSlot pool b power (power + (n + 1))).blocks b) b start
          (l1 ++ brokenTiles power n ++ l2) ∧
      ((splitSlot pool b power (power + (n + 1))).blocks b).freelists power ≠ 0 ∧
      Frame b start (start + tileBytes ts) pool (splitSlot pool b power (power + (n + 1))) := by
  obtain ⟨L, l1, l2, lists, rfl, hslot⟩ := HeadSlot.of_freelists h hhead
  refine ⟨l1, l2, rfl, ?_⟩
  obtain ⟨-, hfree, hblock⟩ := hslot.block.labels L _ hslot.placed
  obtain ⟨s1, last, fl', hfilled, hfl', heq⟩ := splitSlot_eq hslot.head hn
  have hbroken := brokenLinks_of_split hn rfl ⟨hfree, hblock⟩ hslot.gnext_not_piece
    hslot.next_not_piece hfilled
  rw [heq, append_cons]
  simp only [update_self]
  refine ⟨hslot.blockOk hbroken hempty hfl', ?_, fun x hx => hslot.outside hbroken hx,
    fun c hc => update_of_ne hc _ _, ?_, ?_, ?_, rfl, rfl, rfl⟩
  · rw [hfl', if_pos rfl]
    exact hslot.head_ne
  all_goals simp only [update_self]

/-! ### Looking for a slot -/

/-- The used tiles of a block stay where they are. -/
def SameUsed (start : Int) (ts ts' : List Tile) : Prop :=
  ∀ a t, t.free = false → ((a, t) ∈ place start ts' ↔ (a, t) ∈ place start ts)

/-- What `checkblock` leaves: the block is cut finer, and has a slot of the class if one of this
class or a larger one was free. -/
structure Checked (b start : Int) (power : Nat) (ts ts' : List Tile) (pool pool' : MempoolType) :
    Prop where
  block : BlockOk pool'.slots (pool'.blocks b) b start ts'
  frame : Frame b start (start + tileBytes ts) pool pool'
  bytes : tileBytes ts' = tileBytes ts
  used : SameUsed start ts ts'
  missing : (pool'.blocks b).freelists power = 0 →
    pool' = pool ∧ ts' = ts ∧ ∀ i, power ≤ i → i < cutOffNum → (pool.blocks b).freelists i = 0

theorem sameUsed_of_broken {l1 l2 : List Tile} (hn : power + (n + 1) < cutOffNum) :
    SameUsed start (l1 ++ { cls := power + (n + 1), free := true } :: l2)
      (l1 ++ brokenTiles power n ++ l2) := by
  intro a t ht
  have hbytes :
    tileBytes (brokenTiles power n) = tileBytes [{ cls := power + (n + 1), free := true }] := by
    rw [tileBytes_brokenTiles hn]
    simp
  have hnew : ∀ loc, (a, t) ∉ place loc (brokenTiles power n) := by
    intro loc hmem
    obtain rfl | hmem := mem_cons.mp (mem_of_place hmem)
    · cases ht
    · rw [(mem_freeTiles.mp hmem).2] at ht
      cases ht
  have hold : ∀ loc, (a, t) ∉ place loc [{ cls := power + (n + 1), free := true }] := by
    intro loc hmem
    obtain rfl := mem_singleton.mp (mem_of_place hmem)
    cases ht
  rw [append_cons, place_middle rfl, place_middle rfl, hbytes]
  simp only [mem_append, hnew, hold]

theorem splitFrom_spec {k : Nat}
    (h : BlockOk pool.slots (pool.blocks b) b start ts) (m : Nat)
    (hm : power + (k + 1) + m = cutOffNum)
    (hempty : ∀ i, power ≤ i → i < power + (k + 1) → (pool.blocks b).freelists i = 0) :
    ∃ ts', Checked b start power ts ts' pool (splitFrom b power m (power + (k + 1)) pool) := by
  induction m generalizing k with
  | zero =>
    refine ⟨ts, h, Frame.refl _ _ _ pool, rfl, fun _ _ _ => Iff.rfl, fun _ => ⟨rfl, rfl, ?_⟩⟩
    exact fun i hlow hhigh => hempty i hlow (by omega)
  | succ m ih =>
    rw [splitFrom]
    by_cases hhead : (pool.blocks b).freelists (power + (k + 1)) = 0
    · rw [if_neg (not_not.mpr hhead)]
      refine ih (by omega) fun i hlow hhigh => ?_
      by_cases hi : i = power + (k + 1)
      · rw [hi, hhead]
      · exact hempty i hlow (by omega)
    · rw [if_pos hhead]
      have hn : power + (k + 1) < cutOffNum := by omega
      obtain ⟨l1, l2, rfl, hblock, hfound, hframe⟩ := splitSlot_spec h hn hhead hempty
      refine ⟨_, hblock, hframe, ?_, sameUsed_of_broken hn, fun hnot => absurd hnot hfound⟩
      simp only [tileBytes_append, tileBytes_brokenTiles hn, tileBytes_cons]
      omega

theorem checkblock_spec (h : BlockOk pool.slots (pool.blocks b) b start ts)
    (hpower : power < cutOffNum) :
    ∃ ts' pool', checkblock pool b power = (pool', decide ((pool'.blocks b).freelists power ≠ 0)) ∧
      Checked b start power ts ts' pool pool' := by
  by_cases hhead : (pool.blocks b).freelists power = 0
  · obtain ⟨m, hm⟩ : ∃ m, power + (0 + 1) + m = cutOffNum := ⟨cutOffNum - (power + 1), by omega⟩
    have hrounds : cutOffNum - (power + 1) = m := by omega
    obtain ⟨ts', hchecked⟩ := splitFrom_spec h m hm fun i hlow hhigh => by
      have hi : i = power := by omega
      rw [hi, hhead]
    refine ⟨ts', _, ?_, hchecked⟩
    unfold checkblock
    rw [if_neg (not_not.mpr hhead), hrounds]
  · refine ⟨ts, pool, ?_, h, Frame.refl _ _ _ pool, rfl, fun _ _ _ => Iff.rfl, fun hnot =>
      absurd hnot hhead⟩
    unfold checkblock
    rw [if_pos hhead]

/-! ### Taking a slot -/

/-- What `takeSlot` writes. -/
theorem takeSlot_eq {L : Int} (hL : (pool.blocks b).freelists power = L)
    (hN : (pool.slots L).next ≠ L) :
    ∃ pool', takeSlot pool b power = (pool', L + sizeofUsedHeader) ∧
    (∀ x, pool'.slots x = { pool.slots x with
        free := if x = L then false else (pool.slots x).free
        blockPtr := if x = L then b else (pool.slots x).blockPtr
        prev := if x = (pool.slots L).next ∧ x ≠ 0 then 0 else (pool.slots x).prev }) ∧
      pool' = { pool with
        slots := pool'.slots
        blocks := update pool.blocks b { pool.blocks b with
            freelists := update (pool.blocks b).freelists power (pool.slots L).next
            used := (pool.blocks b).used + power } } := by
  refine ⟨(takeSlot pool b power).1, ?_, ?_, ?_⟩
  · unfold takeSlot
    simp only [hL]
  · intro x
    unfold takeSlot
    simp only [hL, update_self, update_apply, Slots.setPrev_ite]
    by_cases hx : x = L
    · subst hx
      simp only [if_pos]
    · simp only [if_neg hx]
  · unfold takeSlot
    simp only [hL, update_self, BlockHeader.setList]

theorem HeadSlot.mem_place_taken {L a : Int} {i k : Nat} {l1 l2 : List Tile}
    (h : HeadSlot pool b start L k l1 l2 lists) :
    (a, Tile.mk i true) ∈ place start (l1 ++ [{ cls := k, free := false }] ++ l2) ↔
      a ∈ lists i ∧ a ≠ L := by
  rw [place_middle h.loc, tileBytes_one, h.mem_lists, h.place_eq]
  simp only [place, mem_append, mem_singleton, Prod.mk.injEq, Tile.mk.injEq]
  constructor
  · rintro ((hin | hin) | hin)
    · have hbounds := h.before_bounds (mem_starts_of_place hin)
      exact ⟨.inl (.inl hin), by omega⟩
    · exact absurd hin.2.2 (by decide)
    · exact ⟨.inr hin, h.behind_ne (mem_starts_of_place hin)⟩
  · rintro ⟨(hin | hin) | hin, hne⟩
    · exact .inl (.inl hin)
    · exact absurd hin.1 hne
    · exact .inr hin

/-- The first slot of a list is taken, in its place. -/
theorem takeSlot_spec
    (h : BlockOk pool.slots (pool.blocks b) b start ts)
    (hhead : (pool.blocks b).freelists power ≠ 0) :
    ∃ l1 l2 pool', ts = l1 ++ { cls := power, free := true } :: l2 ∧
      takeSlot pool b power = (pool', start + tileBytes l1 + sizeofUsedHeader) ∧
      BlockOk pool'.slots (pool'.blocks b) b start (l1 ++ { cls := power, free := false } :: l2) ∧
      Frame b start (start + tileBytes ts) pool pool' := by
  obtain ⟨L, l1, l2, lists, rfl, hslot⟩ := HeadSlot.of_freelists h hhead
  obtain ⟨pool', htake, hslots, hpool'⟩ := takeSlot_eq hslot.head hslot.next_ne
  have hblock : pool'.blocks b = { pool.blocks b with
      freelists := update (pool.blocks b).freelists power (pool.slots L).next
      used := (pool.blocks b).used + power } := by
    rw [hpool']
    exact update_self ..
  have hkeep : ∀ a, a ≠ L → (pool'.slots a).size = (pool.slots a).size ∧
      (pool'.slots a).free = (pool.slots a).free ∧
      (pool'.slots a).blockPtr = (pool.slots a).blockPtr ∧
      (pool'.slots a).gnext = (pool.slots a).gnext ∧
      (pool'.slots a).gprev = (pool.slots a).gprev := by
    intro a ha
    rw [hslots, if_neg ha, if_neg ha]
    exact ⟨rfl, rfl, rfl, rfl, rfl⟩
  have hg : ∀ a, (pool'.slots a).gnext = (pool.slots a).gnext ∧
      (pool'.slots a).gprev = (pool.slots a).gprev := by
    intro a
    rw [hslots]
    exact ⟨rfl, rfl⟩
  refine ⟨l1, l2, pool', rfl, hslot.loc ▸ htake, ?_, ?_⟩
  · rw [append_cons]
    have hchain := hslot.block.chain
    rw [starts_middle hslot.loc] at hchain
    obtain ⟨hchain, hchain2⟩ := Chain.append.mp hchain
    obtain ⟨-, hmid⟩ := Chain.append.mp hchain
    refine hslot.block.replace (cons_ne_nil _ _) (cons_ne_nil _ _) hslot.loc (by simp)
      ?_ ?_ ?_ ?_ ?_ ?_ ⟨update lists power ((lists power).erase L), ?_, fun i a => ?_⟩ ?_
    · intro t ht
      obtain rfl := mem_singleton.mp ht
      exact hslot.class_lt
    · exact Chain.congr hmid (fun a _ => (hg a).1) fun a _ => (hg a).2
    · intro a t hat
      have heq := mem_singleton.mp hat
      cases heq
      obtain ⟨hsize, -⟩ := hslot.block.labels L _ hslot.placed
      rw [hslots, if_pos rfl, if_pos rfl]
      exact ⟨hsize, rfl, rfl⟩
    · intro a ha
      have hbounds := hslot.before_bounds ha
      exact hkeep a (by omega)
    · intro a ha
      obtain ⟨hsize, hfree', hptr, hgnext, hgprev⟩ :=
        hkeep a (hslot.behind_ne (by rwa [tileBytes_one] at ha))
      exact ⟨hsize, hfree', hptr, hgnext, fun _ => hgprev⟩
    · intro hne
      obtain ⟨y, l, hl2⟩ := exists_cons_of_ne_nil hne
      rw [(hg _).2, hl2]
      rw [hl2] at hchain2
      refine hchain2.1.trans ?_
      rw [getLastD_eq_getLast?, getLast?_append]
      rfl
    · refine Buckets.unlink hslot.free hslot.mem ?_ ?_ ?_
      · intro i y hy hne
        have hy0 : y ≠ 0 := fun heq => hslot.free.ne_null i (heq ▸ hy)
        simp only [hslots, hslot.prev_eq, if_neg hy0]
      · intro i y hy hne
        have hy0 : y ≠ 0 := fun heq => hslot.free.ne_null i (heq ▸ hy)
        simp only [hslots, hslot.prev_eq, hy0, ne_eq, not_false_eq_true, and_true]
      · intro i
        simp only [hblock, hslot.prev_eq, and_true, update_apply]
    · exact (mem_update_erase hslot.free hslot.mem).trans hslot.mem_place_taken.symm
    · rw [hblock]
      simp only
      rw [h.used, append_cons, usedSum_append, usedSum_append, usedSum_append, usedSum_append,
        usedSum_cons_free, usedSum_cons_used]
      omega
  · refine ⟨fun x hx => ?_, fun c hc => ?_, ?_, ?_, ?_, ?_, ?_, ?_⟩
    · obtain ⟨hxL, -, hxN⟩ := hslot.apart_neighbours (append_cons .. ▸ hx)
      rw [hslots, if_neg hxL, if_neg hxL, if_neg hxN]
    · rw [hpool']
      exact update_of_ne hc _ _
    · rw [hblock]
    · rw [hblock]
    · rw [hblock]
    all_goals rw [hpool']

end CharmRuntime.Mempool
