import Mathlib.Data.List.Nodup

/-!
# Lib.Chain

**Doubly linked lists** with a null value, over arbitrary nodes: `next` and `prev` give the
links, `null` ends a list.

`Chain` is a segment of such a list. `Buckets` are lists that share their links, one for each
index, each with its head in a table; their operations are stated by what they do to the links
and to the table.
-/

namespace CharmRuntime.Lib

open Function List

variable {β : Type} {next prev next' prev' : β → β}

/-- The nodes of a segment, linked both ways: `b` stands before them and `a` behind them. -/
def Chain (next prev : β → β) : β → List β → β → Prop
  | _, [], _ => True
  | b, x :: l, a => prev x = b ∧ next x = l.headD a ∧ Chain next prev x l a

namespace Chain

theorem congr : ∀ {l : List β} {b a : β}, Chain next prev b l a → (∀ x ∈ l, next' x = next x) →
    (∀ x ∈ l, prev' x = prev x) → Chain next' prev' b l a := by
  intro l
  induction l with
  | nil => intro _ _ _ _ _; exact trivial
  | cons x l ih =>
    rintro b a ⟨hprev, hnext, hrest⟩ hn hp
    refine ⟨?_, ?_, ih hrest ?_ ?_⟩
    · rw [hp x mem_cons_self, hprev]
    · rw [hn x mem_cons_self, hnext]
    · exact fun y hy => hn y (mem_cons_of_mem _ hy)
    · exact fun y hy => hp y (mem_cons_of_mem _ hy)

/-- A segment of two parts. -/
theorem append : ∀ {l1 l2 : List β} {b a : β}, Chain next prev b (l1 ++ l2) a ↔
    Chain next prev b l1 (l2.headD a) ∧ Chain next prev (l1.getLastD b) l2 a := by
  intro l1
  induction l1 with
  | nil => intro l2 b a; simp [Chain]
  | cons x l1 ih =>
    intro l2 b a
    have hhead : (l1 ++ l2).headD a = l1.headD (l2.headD a) := by
      cases l1 with
      | nil => rfl
      | cons y l1 => rfl
    have hlast : (x :: l1).getLastD b = l1.getLastD x := getLastD_cons
    rw [hlast]
    constructor
    · rintro ⟨hprev, hnext, hrest⟩
      obtain ⟨h1, h2⟩ := ih.mp hrest
      exact ⟨⟨hprev, hnext.trans hhead, h1⟩, h2⟩
    · rintro ⟨⟨hprev, hnext, h1⟩, h2⟩
      exact ⟨hprev, hnext.trans hhead.symm, ih.mpr ⟨h1, h2⟩⟩

/-- The value before a segment is that of its first node. -/
theorem set_before {x : β} {l : List β} {b b' a : β} (h : Chain next prev b (x :: l) a)
    (hnext : ∀ y ∈ x :: l, next' y = next y) (hprev : ∀ y ∈ l, prev' y = prev y)
    (hb : prev' x = b') :
    Chain next' prev' b' (x :: l) a := by
  refine ⟨hb, (hnext x mem_cons_self).trans h.2.1, h.2.2.congr ?_ hprev⟩
  exact fun y hy => hnext y (mem_cons_of_mem _ hy)

/-- The value behind a segment is that of its last node. -/
theorem set_after : ∀ {l : List β} {b a a' : β}, Chain next prev b l a → l.Nodup →
    (∀ y ∈ l, y ≠ l.getLastD b → next' y = next y) → (∀ y ∈ l, prev' y = prev y) →
    (l ≠ [] → next' (l.getLastD b) = a') → Chain next' prev' b l a' := by
  intro l
  induction l with
  | nil => intro _ _ _ _ _ _ _ _; exact trivial
  | cons x l ih =>
    rintro b a a' ⟨hx, hnx, hrest⟩ hnodup hnext hprev ha
    obtain ⟨hmem, hnodup⟩ := nodup_cons.mp hnodup
    have hlast : (x :: l).getLastD b = l.getLastD x := getLastD_cons
    rw [hlast] at hnext ha
    refine ⟨(hprev x mem_cons_self).trans hx, ?_, ih hrest hnodup ?_ ?_ ?_⟩
    · cases l with
      | nil => exact ha (cons_ne_nil _ _)
      | cons y l =>
        refine (hnext x mem_cons_self ?_).trans hnx
        rintro heq
        rw [getLastD_cons] at heq
        exact hmem (heq ▸ getLastD_mem_cons)
    · exact fun y hy hne => hnext y (mem_cons_of_mem _ hy) hne
    · exact fun y hy => hprev y (mem_cons_of_mem _ hy)
    · exact fun _ => ha (cons_ne_nil _ _)

/-- The links of a node of a segment. -/
theorem links {l1 l2 : List β} {b x a : β} (h : Chain next prev b (l1 ++ x :: l2) a) :
    prev x = l1.getLastD b ∧ next x = l2.headD a := by
  obtain ⟨-, hprev, hnext, -⟩ := append.mp h
  exact ⟨hprev, hnext⟩

/-- A part of a segment is replaced by another one that begins with the same node. -/
theorem replace {l1 run new l2 : List β} {b a x : β}
    (h : Chain next prev b (l1 ++ (x :: run) ++ l2) a) (hl2 : l2.Nodup)
    (hfront : ∀ y ∈ l1, next' y = next y ∧ prev' y = prev y)
    (hnew : Chain next' prev' (l1.getLastD b) (x :: new) (l2.headD a))
    (hnext : ∀ y ∈ l2, next' y = next y) (hprev : ∀ y ∈ l2, y ≠ l2.headD a → prev' y = prev y)
    (hlast : l2 ≠ [] → prev' (l2.headD a) = new.getLastD x) :
    Chain next' prev' b (l1 ++ (x :: new) ++ l2) a := by
  obtain ⟨hleft, hright⟩ := append.mp h
  obtain ⟨hleft, -⟩ := append.mp hleft
  have hend : (l1 ++ x :: new).getLastD b = new.getLastD x := by
    rw [getLastD_eq_getLast?, getLast?_append, getLast?_cons]
    simp
  refine append.mpr
    ⟨append.mpr ⟨hleft.congr (fun y hy => (hfront y hy).1) fun y hy => (hfront y hy).2, hnew⟩, ?_⟩
  rw [hend]
  cases l2 with
  | nil => exact trivial
  | cons z l2 =>
    refine hright.set_before hnext (fun y hy => ?_) (hlast (cons_ne_nil _ _))
    refine hprev y (mem_cons_of_mem _ hy) ?_
    rintro rfl
    exact (nodup_cons.mp hl2).1 hy

/-- A node is taken out of a segment: its neighbours are linked to each other. -/
theorem remove {l1 l2 : List β} {b x a : β} (h : Chain next prev b (l1 ++ x :: l2) a)
    (hnodup : (l1 ++ x :: l2).Nodup) (hnext1 : ∀ y ∈ l1, y ≠ prev x → next' y = next y)
    (hnext2 : ∀ y ∈ l2, next' y = next y) (hprev1 : ∀ y ∈ l1, prev' y = prev y)
    (hprev2 : ∀ y ∈ l2, y ≠ next x → prev' y = prev y) (hleft : l1 ≠ [] → next' (prev x) = next x)
    (hright : l2 ≠ [] → prev' (next x) = prev x) : Chain next' prev' b (l1 ++ l2) a := by
  obtain ⟨hpx, hnx⟩ := h.links
  obtain ⟨hchain1, -, -, hchain2⟩ := append.mp h
  obtain ⟨hnodup1, hnodup2, -⟩ := nodup_append.mp hnodup
  obtain ⟨-, hnodup2⟩ := nodup_cons.mp hnodup2
  refine append.mpr ⟨hchain1.set_after hnodup1 ?_ hprev1 ?_, ?_⟩
  · exact fun y hy hne => hnext1 y hy (hpx ▸ hne)
  · intro hne
    rw [← hpx, hleft hne, hnx]
  · cases l2 with
    | nil => exact trivial
    | cons z l2 =>
      have hnz : next x = z := hnx
      obtain ⟨hz, -⟩ := nodup_cons.mp hnodup2
      refine hchain2.set_before hnext2 (fun y hy => ?_) ?_
      · refine hprev2 y (mem_cons_of_mem _ hy) ?_
        rw [hnz]
        exact fun heq => hz (heq ▸ hy)
      · rw [← hnz, hright (cons_ne_nil _ _), hpx]

end Chain

/-! ### Lists that share their links -/

variable {ι : Type} {null : β} {head head' : ι → β} {lists : ι → List β}

/-- Lists with a table of heads. -/
structure Buckets (null : β) (next prev : β → β) (head : ι → β) (lists : ι → List β) : Prop where
  chain : ∀ i, Chain next prev null (lists i) null
  head_eq : ∀ i, head i = (lists i).headD null
  ne_null : ∀ i, null ∉ lists i
  nodup : ∀ i, (lists i).Nodup
  disjoint : ∀ i j x, x ∈ lists i → x ∈ lists j → i = j

namespace Buckets

variable {i : ι} {x : β}

theorem head_eq_null (h : Buckets null next prev head lists) : head i = null ↔ lists i = [] := by
  rw [h.head_eq]
  cases hl : lists i with
  | nil => exact ⟨fun _ => rfl, fun _ => rfl⟩
  | cons x l =>
    refine ⟨fun heq => ?_, fun heq => absurd heq (cons_ne_nil _ _)⟩
    exact absurd (hl ▸ heq ▸ mem_cons_self) (h.ne_null i)

/-- The first node of a list. -/
theorem head_cons (h : Buckets null next prev head lists) (hne : head i ≠ null) :
    ∃ rest, lists i = head i :: rest ∧ prev (head i) = null ∧ next (head i) = rest.headD null := by
  have hhead := h.head_eq i
  have hchain := h.chain i
  cases hl : lists i with
  | nil =>
    rw [hl] at hhead
    exact absurd hhead hne
  | cons x rest =>
    rw [hl] at hhead hchain
    rw [hhead]
    exact ⟨rest, rfl, hchain.1, hchain.2.1⟩

theorem head_mem (h : Buckets null next prev head lists) (hne : head i ≠ null) :
    head i ∈ lists i := by
  obtain ⟨rest, hlist, -⟩ := h.head_cons hne
  rw [hlist]
  exact mem_cons_self

theorem head_next_mem (h : Buckets null next prev head lists) (hne : head i ≠ null)
    (hnext : next (head i) ≠ null) : next (head i) ∈ lists i ∧ next (head i) ≠ head i := by
  have hnodup := h.nodup i
  obtain ⟨rest, hlist, -, heq⟩ := h.head_cons hne
  rw [heq] at hnext
  rw [heq]
  rw [hlist] at hnodup ⊢
  cases rest with
  | nil => exact absurd rfl hnext
  | cons y l =>
    refine ⟨mem_cons_of_mem _ mem_cons_self, fun hy => ?_⟩
    exact (nodup_cons.mp hnodup).1 (hy ▸ mem_cons_self)

theorem congr (h : Buckets null next prev head lists) (hnext : ∀ i, ∀ x ∈ lists i, next' x = next x)
    (hprev : ∀ i, ∀ x ∈ lists i, prev' x = prev x) (hhead : ∀ i, head' i = head i) :
    Buckets null next' prev' head' lists where
  chain := fun i => (h.chain i).congr (hnext i) (hprev i)
  head_eq := fun i => (hhead i).trans (h.head_eq i)
  ne_null := h.ne_null
  nodup := h.nodup
  disjoint := h.disjoint

theorem empty (hhead : ∀ i, head i = null) : Buckets null next prev head (fun _ => []) where
  chain := fun _ => trivial
  head_eq := hhead
  ne_null := fun _ => not_mem_nil
  nodup := fun _ => nodup_nil
  disjoint := fun _ _ _ hx _ => absurd hx not_mem_nil

/-- A node, its list and its links. -/
theorem split (h : Buckets null next prev head lists) (hx : x ∈ lists i) :
    ∃ l1 l2, lists i = l1 ++ x :: l2 ∧ prev x = l1.getLastD null ∧ next x = l2.headD null := by
  obtain ⟨l1, l2, hl⟩ := append_of_mem hx
  have hchain := h.chain i
  rw [hl] at hchain
  exact ⟨l1, l2, hl, hchain.links⟩

/-- Empty lists get one node each. -/
theorem fill (h : Buckets null next prev head lists) {new : ι → Option β}
    (hempty : ∀ i x, new i = some x → lists i = []) (hnull : ∀ i, new i ≠ some null)
    (hfresh : ∀ i x, new i = some x → ∀ j, x ∉ lists j)
    (hinj : ∀ i j x, new i = some x → new j = some x → i = j)
    (hnew : ∀ i x, new i = some x → next' x = null ∧ prev' x = null)
    (hnext : ∀ i, ∀ x ∈ lists i, next' x = next x) (hprev : ∀ i, ∀ x ∈ lists i, prev' x = prev x)
    (hhead : ∀ i, head' i = (new i).getD (head i)) :
    Buckets null next' prev' head' (fun i => (new i).toList ++ lists i) := by
  have hmem : ∀ {i x}, x ∈ (new i).toList ++ lists i ↔ new i = some x ∨ x ∈ lists i := by
    intro i x
    rw [mem_append, Option.mem_toList]
  refine ⟨fun i => ?_, fun i => ?_, fun i => ?_, fun i => ?_, fun i j x hi hj => ?_⟩
  · cases hi : new i with
    | none => exact (h.chain i).congr (hnext i) (hprev i)
    | some x =>
      obtain ⟨hn, hp⟩ := hnew i x hi
      rw [hempty i x hi]
      exact ⟨hp, hn, trivial⟩
  · rw [hhead]
    cases hi : new i with
    | none => exact h.head_eq i
    | some x => rfl
  · rw [hmem, not_or]
    exact ⟨hnull i, h.ne_null i⟩
  · cases hi : new i with
    | none => exact h.nodup i
    | some x =>
      rw [hempty i x hi]
      exact nodup_singleton x
  · rw [hmem] at hi hj
    obtain hi | hi := hi
    · obtain hj | hj := hj
      · exact hinj i j x hi hj
      · exact absurd hj (hfresh i x hi j)
    · obtain hj | hj := hj
      · exact absurd hi (hfresh j x hj i)
      · exact h.disjoint i j x hi hj

/-- The nodes with one more. -/
theorem mem_update_cons [DecidableEq ι] {lists : ι → List β} {j : ι} {y : β} :
    y ∈ update lists i (x :: lists i) j ↔ (j = i ∧ y = x) ∨ y ∈ lists j := by
  by_cases hj : j = i
  · subst hj
    simp
  · simp [hj]

variable [DecidableEq ι] [DecidableEq β]

/-- **Insertion** of a node at the head of a list. -/
theorem push (h : Buckets null next prev head lists) (hfresh : ∀ j, x ∉ lists j)
    (hnull : x ≠ null) (hnx : next' x = head i) (hpx : prev' x = null)
    (hnext : ∀ j, ∀ y ∈ lists j, next' y = next y)
    (hprev : ∀ j, ∀ y ∈ lists j, prev' y = if y = head i then x else prev y)
    (hhead : ∀ j, head' j = if j = i then x else head j) :
    Buckets null next' prev' head' (update lists i (x :: lists i)) := by
  have hother : ∀ j, j ≠ i → ∀ y ∈ lists j, y ≠ head i := by
    rintro j hj y hy rfl
    exact hj (h.disjoint _ _ _ hy (h.head_mem fun heq => h.ne_null j (heq ▸ hy)))
  refine ⟨fun j => ?_, fun j => ?_, fun j => ?_, fun j => ?_, fun j k y hj hk => ?_⟩
  · by_cases hj : j = i
    · subst hj
      rw [update_self]
      refine ⟨hpx, hnx.trans (h.head_eq j), ?_⟩
      have hchain := h.chain j
      have hheadj := h.head_eq j
      have hprevj := hprev j
      have hnextj := hnext j
      have hnodup := h.nodup j
      cases hl : lists j with
      | nil => exact trivial
      | cons z l =>
        rw [hl] at hchain hheadj hprevj hnextj hnodup
        rw [hheadj] at hprevj
        refine hchain.set_before hnextj ?_ ?_
        · intro y hy
          have hne : y ≠ z := fun heq => (nodup_cons.mp hnodup).1 (heq ▸ hy)
          rw [hprevj y (mem_cons_of_mem _ hy)]
          exact if_neg hne
        · rw [hprevj z mem_cons_self]
          exact if_pos rfl
    · rw [update_of_ne hj]
      refine (h.chain j).congr (hnext j) fun y hy => ?_
      rw [hprev j y hy, if_neg (hother j hj y hy)]
  · rw [hhead]
    by_cases hj : j = i
    · subst hj
      rw [if_pos rfl, update_self]
      rfl
    · rw [if_neg hj, update_of_ne hj]
      exact h.head_eq j
  · rw [mem_update_cons, not_or]
    exact ⟨fun heq => hnull heq.2.symm, h.ne_null j⟩
  · by_cases hj : j = i
    · subst hj
      rw [update_self]
      exact nodup_cons.mpr ⟨hfresh j, h.nodup j⟩
    · rw [update_of_ne hj]
      exact h.nodup j
  · rw [mem_update_cons] at hj hk
    obtain ⟨rfl, rfl⟩ | hj := hj
    · obtain ⟨rfl, -⟩ | hk := hk
      · rfl
      · exact absurd hk (hfresh k)
    · obtain ⟨rfl, rfl⟩ | hk := hk
      · exact absurd hj (hfresh j)
      · exact h.disjoint _ _ _ hj hk

/-- **Removal** of a node from its list. -/
theorem unlink (h : Buckets null next prev head lists) (hx : x ∈ lists i)
    (hnext : ∀ j, ∀ y ∈ lists j, y ≠ x → next' y = if y = prev x then next x else next y)
    (hprev : ∀ j, ∀ y ∈ lists j, y ≠ x → prev' y = if y = next x then prev x else prev y)
    (hhead : ∀ j, head' j = if j = i ∧ prev x = null then next x else head j) :
    Buckets null next' prev' head' (update lists i ((lists i).erase x)) := by
  obtain ⟨l1, l2, hl, hpx, hnx⟩ := h.split hx
  have hnodup := h.nodup i
  have hnull := h.ne_null i
  have hchain := h.chain i
  rw [hl] at hnodup hnull hchain
  obtain ⟨hnodup1, hnodup2, hdisj⟩ := nodup_append.mp hnodup
  obtain ⟨hx2, hnodup2⟩ := nodup_cons.mp hnodup2
  have hx1 : x ∉ l1 := fun hmem => hdisj x hmem x mem_cons_self rfl
  have herase : (lists i).erase x = l1 ++ l2 := by
    rw [hl, erase_append_right _ hx1, erase_cons_head]
  have hlast : prev x ∈ null :: l1 := by
    rw [hpx]
    exact getLastD_mem_cons
  have hfirst : next x ∈ null :: l2 := by
    rw [hnx]
    cases l2 with
    | nil => exact mem_cons_self
    | cons z l2 => exact mem_cons_of_mem _ mem_cons_self
  have hsub : ∀ y ∈ l1 ++ l2, y ∈ lists i ∧ y ≠ x := by
    intro y hy
    rw [hl]
    obtain hy | hy := mem_append.mp hy
    · exact ⟨mem_append_left _ hy, fun heq => hx1 (heq ▸ hy)⟩
    · exact ⟨mem_append_right _ (mem_cons_of_mem _ hy), fun heq => hx2 (heq ▸ hy)⟩
  -- nodes of other lists, or of the other side, are no neighbours of the node
  have hnot_prev : ∀ y, y ≠ null → y ∉ l1 → y ≠ prev x := by
    rintro y hy hmem rfl
    obtain heq | hin := mem_cons.mp hlast
    · exact hy heq
    · exact hmem hin
  have hnot_next : ∀ y, y ≠ null → y ∉ l2 → y ≠ next x := by
    rintro y hy hmem rfl
    obtain heq | hin := mem_cons.mp hfirst
    · exact hy heq
    · exact hmem hin
  have hne_null : ∀ j, ∀ y ∈ lists j, y ≠ null := fun j y hy heq => h.ne_null j (heq ▸ hy)
  have hmem_iff : ∀ {j y}, y ∈ update lists i (l1 ++ l2) j → y ∈ lists j := by
    intro j y hy
    by_cases hj : j = i
    · subst hj
      rw [update_self] at hy
      exact (hsub y hy).1
    · rwa [update_of_ne hj] at hy
  rw [herase]
  refine ⟨fun j => ?_, fun j => ?_, fun j hmem => h.ne_null j (hmem_iff hmem), fun j => ?_,
    fun j k y hj hk => h.disjoint j k y (hmem_iff hj) (hmem_iff hk)⟩
  · by_cases hj : j = i
    · subst hj
      rw [update_self]
      have hleft : ∀ y ∈ l1, y ∈ lists j ∧ y ≠ x := fun y hy => hsub y (mem_append_left _ hy)
      have hright : ∀ y ∈ l2, y ∈ lists j ∧ y ≠ x := fun y hy => hsub y (mem_append_right _ hy)
      refine hchain.remove hnodup ?_ ?_ ?_ ?_ ?_ ?_
      · intro y hy hne
        rw [hnext j y (hleft y hy).1 (hleft y hy).2, if_neg hne]
      · intro y hy
        rw [hnext j y (hright y hy).1 (hright y hy).2, if_neg]
        exact hnot_prev y (hne_null j y (hright y hy).1) fun hmem =>
          hdisj y hmem y (mem_cons_of_mem _ hy) rfl
      · intro y hy
        rw [hprev j y (hleft y hy).1 (hleft y hy).2, if_neg]
        exact hnot_next y (hne_null j y (hleft y hy).1) fun hmem =>
          hdisj y hy y (mem_cons_of_mem _ hmem) rfl
      · intro y hy hne
        rw [hprev j y (hright y hy).1 (hright y hy).2, if_neg hne]
      · intro hne
        have hmem : prev x ∈ l1 := by
          rw [hpx]
          cases l1 with
          | nil => exact absurd rfl hne
          | cons z l1 =>
            rw [getLastD_cons]
            exact getLastD_mem_cons
        rw [hnext j _ (hleft _ hmem).1 (hleft _ hmem).2, if_pos rfl]
      · intro hne
        have hmem : next x ∈ l2 := by
          rw [hnx]
          cases l2 with
          | nil => exact absurd rfl hne
          | cons z l2 => exact mem_cons_self
        rw [hprev j _ (hright _ hmem).1 (hright _ hmem).2, if_pos rfl]
    · rw [update_of_ne hj]
      have hout : ∀ y ∈ lists j, y ∉ lists i := fun y hy hyi => hj (h.disjoint j i y hy hyi)
      refine (h.chain j).congr ?_ ?_
      · intro y hy
        rw [hnext j y hy fun heq => hout y hy (heq ▸ hx), if_neg]
        refine hnot_prev y (hne_null j y hy) fun hmem => hout y hy ?_
        rw [hl]
        exact mem_append_left _ hmem
      · intro y hy
        rw [hprev j y hy fun heq => hout y hy (heq ▸ hx), if_neg]
        refine hnot_next y (hne_null j y hy) fun hmem => hout y hy ?_
        rw [hl]
        exact mem_append_right _ (mem_cons_of_mem _ hmem)
  · rw [hhead]
    by_cases hj : j = i
    · subst hj
      rw [update_self]
      cases l1 with
      | nil =>
        rw [if_pos ⟨rfl, hpx⟩]
        exact hnx
      | cons z l1 =>
        have hne : prev x ≠ null := by
          rw [hpx, getLastD_cons]
          exact fun heq => hnull (heq ▸ mem_append_left _ getLastD_mem_cons)
        rw [if_neg fun hand => hne hand.2, h.head_eq, hl]
        rfl
    · rw [if_neg fun hand => hj hand.1, update_of_ne hj]
      exact h.head_eq j
  · by_cases hj : j = i
    · subst hj
      rw [update_self]
      exact nodup_append.mpr
        ⟨hnodup1, hnodup2, fun y hy z hz => hdisj y hy z (mem_cons_of_mem _ hz)⟩
    · rw [update_of_ne hj]
      exact h.nodup j

end Buckets

end CharmRuntime.Lib
