import Mathlib.Tactic.Ring

/-!
# Isomalloc.Blocks

**Slot sets as lists of blocks** (`conv-core/isomalloc.c`, B-tree version).

A slot set holds the free slots as blocks `[startslot, startslot + nslots)`. This
module has `grab_slots` and `free_slots` over the list of the blocks in order, which
is what the B-tree stores: `find_btree_slotblock`, `btree_insert` and `btree_delete`
are their list counterparts here. `Coalesced` says what such a list looks like
between calls; a grab then removes exactly its range, a free adds it
(`grabSlots_spec`, `freeSlots_spec`).
-/

namespace CharmRuntime.Isomalloc

open List

/-- `slotblock`, without its list node. -/
structure SlotBlock where
  startslot : Int
  nslots : Int
  deriving DecidableEq, Repr

/-- `startslot` is in the block. -/
def SlotBlock.Covers (b : SlotBlock) (slot : Int) : Prop :=
  slot ≥ b.startslot ∧ slot ≤ b.startslot + b.nslots - 1

instance (b : SlotBlock) (slot : Int) : Decidable (b.Covers slot) :=
  inferInstanceAs (Decidable (_ ∧ _))

/-- The abort of `grab_slots`. -/
inductive SlotAbort
  | nonExistent
  deriving DecidableEq, Repr

/-- The blocks in order. -/
abbrev Blocks := List SlotBlock

namespace Blocks

/-- `find_btree_slotblock`: the position of the block that contains `slot`. -/
def findBlock (l : Blocks) (slot : Int) : Option Nat :=
  if slot < 0 then none else l.findIdx? (fun b => decide (b.Covers slot))

/-- `btree_insert`: behind the blocks that do not start later. -/
def insertBlock : Blocks → SlotBlock → Blocks
  | [], b => [b]
  | c :: l, b => if b.startslot < c.startslot then b :: c :: l else c :: insertBlock l b

/-- `btree_delete`. -/
def deleteBlock (l : Blocks) (startslot : Int) : Blocks :=
  l.eraseP (fun b => decide (b.startslot = startslot))

/-- `new_slotset`. -/
def newSlotset (startslot nslots : Int) : Blocks := [{ startslot, nslots }]

/-- `grab_slots`. -/
def grabSlots (l : Blocks) (sslot nslots : Int) : Except SlotAbort Blocks :=
  match l.findBlock sslot with
  | none => .error .nonExistent
  | some i =>
    let sb := l.getD i { startslot := 0, nslots := 0 }
    if sb.startslot = sslot then
      if sb.nslots = nslots then .ok (l.deleteBlock sslot)
      else .ok (l.set i { startslot := sb.startslot + nslots, nslots := sb.nslots - nslots })
    else
      let endslot := sb.startslot + sb.nslots - 1
      if endslot = sslot + nslots - 1 then
        .ok (l.set i { sb with nslots := sb.nslots - nslots })
      else
        .ok (insertBlock (l.set i { sb with nslots := sslot - sb.startslot })
          { startslot := sslot + nslots, nslots := endslot - (sslot + nslots) + 1 })

/-- `free_slots`. -/
def freeSlots (l : Blocks) (sslot nslots : Int) : Blocks :=
  match l.findBlock (sslot - 1), l.findBlock (sslot + nslots) with
  | none, none => l.insertBlock { startslot := sslot, nslots }
  | none, some j =>
    let sbHigh := l.getD j { startslot := 0, nslots := 0 }
    l.set j { startslot := sslot, nslots := sbHigh.nslots + nslots }
  | some i, none =>
    let sbLow := l.getD i { startslot := 0, nslots := 0 }
    l.set i { sbLow with nslots := sbLow.nslots + nslots }
  | some i, some j =>
    let sbLow := l.getD i { startslot := 0, nslots := 0 }
    let sbHigh := l.getD j { startslot := 0, nslots := 0 }
    deleteBlock (l.set i { sbLow with nslots := sbLow.nslots + nslots + sbHigh.nslots })
      sbHigh.startslot

/-! ### The free set -/

/-- The free slots. -/
def slots (l : Blocks) : Set Int := { x | ∃ b ∈ l, b.Covers x }

/-- A block that is not empty. -/
structure Proper (b : SlotBlock) : Prop where
  start_nonneg : 0 ≤ b.startslot
  nslots_pos : 0 < b.nslots

/-- Sorted, disjoint and never adjacent. -/
structure Coalesced (l : Blocks) : Prop where
  proper : ∀ b ∈ l, Proper b
  apart : l.Pairwise (fun b c => b.startslot + b.nslots < c.startslot)

variable {l : Blocks} {x : Int} {l₁ l₂ : Blocks} {b : SlotBlock}

@[simp] theorem mem_slots : x ∈ slots l ↔ ∃ b ∈ l, b.Covers x := Iff.rfl

theorem mem_slots_split : x ∈ slots (l₁ ++ b :: l₂) ↔ x ∈ slots l₁ ∨ b.Covers x ∨ x ∈ slots l₂ := by
  simp only [mem_slots, mem_append, mem_cons]
  constructor
  · rintro ⟨c, hc | rfl | hc, hx⟩
    · exact .inl ⟨c, hc, hx⟩
    · exact .inr (.inl hx)
    · exact .inr (.inr ⟨c, hc, hx⟩)
  · rintro (⟨c, hc, hx⟩ | hx | ⟨c, hc, hx⟩)
    · exact ⟨c, .inl hc, hx⟩
    · exact ⟨b, .inr (.inl rfl), hx⟩
    · exact ⟨c, .inr (.inr hc), hx⟩

theorem newSlotset_coalesced {startslot nslots : Int} (h0 : 0 ≤ startslot) (h1 : 0 < nslots) :
    Coalesced (newSlotset startslot nslots) := by
  refine ⟨?_, pairwise_singleton _ _⟩
  intro b hb
  obtain rfl := mem_singleton.mp hb
  exact ⟨h0, h1⟩

/-- A coalesced list around one of its blocks. -/
structure Around (l₁ : Blocks) (b : SlotBlock) (l₂ : Blocks) : Prop where
  left : Coalesced l₁
  mid : Proper b
  right : Coalesced l₂
  before : ∀ a ∈ l₁, a.startslot + a.nslots < b.startslot
  after : ∀ c ∈ l₂, b.startslot + b.nslots < c.startslot

theorem coalesced_split_iff : Coalesced (l₁ ++ b :: l₂) ↔ Around l₁ b l₂ := by
  constructor
  · intro h
    obtain ⟨h1, h2, h3⟩ := pairwise_append.mp h.apart
    obtain ⟨h4, h5⟩ := pairwise_cons.mp h2
    exact ⟨⟨fun a ha => h.proper a (mem_append_left _ ha), h1⟩,
      h.proper b (mem_append_right _ mem_cons_self),
      ⟨fun c hc => h.proper c (mem_append_right _ (mem_cons_of_mem _ hc)), h5⟩,
      fun a ha => h3 a ha b mem_cons_self, h4⟩
  · intro h
    refine ⟨?_, ?_⟩
    · intro c hc
      rcases mem_append.mp hc with hc | hc
      · exact h.left.proper c hc
      · rcases mem_cons.mp hc with rfl | hc
        · exact h.mid
        · exact h.right.proper c hc
    · refine pairwise_append.mpr ⟨h.left.apart, pairwise_cons.mpr ⟨h.after, h.right.apart⟩, ?_⟩
      intro a ha c hc
      rcases mem_cons.mp hc with rfl | hc
      · exact h.before a ha
      · have h1 := h.before a ha
        have h2 := h.after c hc
        have h3 := h.mid.nslots_pos
        omega

theorem coalesced_append_iff : Coalesced (l₁ ++ l₂) ↔ Coalesced l₁ ∧ Coalesced l₂ ∧
      ∀ a ∈ l₁, ∀ c ∈ l₂, a.startslot + a.nslots < c.startslot := by
  constructor
  · intro h
    obtain ⟨h1, h2, h3⟩ := pairwise_append.mp h.apart
    exact ⟨⟨fun a ha => h.proper a (mem_append_left _ ha), h1⟩,
      ⟨fun c hc => h.proper c (mem_append_right _ hc), h2⟩, h3⟩
  · rintro ⟨h1, h2, h3⟩
    refine ⟨?_, pairwise_append.mpr ⟨h1.apart, h2.apart, h3⟩⟩
    intro c hc
    rcases mem_append.mp hc with hc | hc
    · exact h1.proper c hc
    · exact h2.proper c hc

namespace Around

variable {l₁ l₂ : Blocks} {b : SlotBlock}

theorem lt_of_mem_left (h : Around l₁ b l₂) {x : Int} (hx : x ∈ slots l₁) :
    x + 1 < b.startslot := by
  obtain ⟨a, ha, hcov⟩ := hx
  have h1 := h.before a ha
  have h2 := hcov.2
  omega

theorem lt_of_mem_right (h : Around l₁ b l₂) {x : Int} (hx : x ∈ slots l₂) :
    b.startslot + b.nslots < x := by
  obtain ⟨c, hc, hcov⟩ := hx
  have h1 := h.after c hc
  have h2 := hcov.1
  omega

theorem range_le (h : Around l₁ b l₂) {s n : Int} (hs : b.Covers s)
    (hfree : ∀ x, s ≤ x → x < s + n → x ∈ slots (l₁ ++ b :: l₂)) :
    s + n ≤ b.startslot + b.nslots := by
  by_contra hlt
  obtain ⟨h1, h2⟩ := hs
  have hend := hfree (b.startslot + b.nslots) (by omega) (by omega)
  rcases mem_slots_split.mp hend with hx | hx | hx
  · have := h.lt_of_mem_left hx
    omega
  · have := hx.2
    omega
  · have := h.lt_of_mem_right hx
    omega

end Around

/-! ### The operations, at a block -/

theorem findBlock_eq_some {slot : Int} {i : Nat} (h : l.findBlock slot = some i) :
    ∃ l₁ b l₂, l = l₁ ++ b :: l₂ ∧ i = l₁.length ∧ b.Covers slot := by
  unfold findBlock at h
  split at h
  · exact absurd h (by simp)
  · obtain ⟨hi, hcov, -⟩ := findIdx?_eq_some_iff_getElem.mp h
    refine ⟨l.take i, l[i], l.drop (i + 1), ?_, ?_, of_decide_eq_true hcov⟩
    · rw [getElem_cons_drop, take_append_drop]
    · rw [length_take, min_eq_left hi.le]

theorem findBlock_eq_none (hl : Coalesced l) {slot : Int} :
    l.findBlock slot = none ↔ slot ∉ slots l := by
  unfold findBlock
  split
  · next hneg =>
      refine ⟨fun _ => ?_, fun _ => rfl⟩
      rintro ⟨b, hb, hcov⟩
      have h1 := (hl.proper b hb).start_nonneg
      have h2 := hcov.1
      omega
  · rw [findIdx?_eq_none_iff]
    constructor
    · rintro h ⟨b, hb, hcov⟩
      have := h b hb
      simp [hcov] at this
    · intro h b hb
      exact decide_eq_false fun hcov => h ⟨b, hb, hcov⟩

@[simp] theorem getD_split (l₁ l₂ : Blocks) (b d : SlotBlock) :
    (l₁ ++ b :: l₂).getD l₁.length d = b := by
  simp [getD]

@[simp] theorem set_split (l₁ l₂ : Blocks) (b b' : SlotBlock) :
    (l₁ ++ b :: l₂).set l₁.length b' = l₁ ++ b' :: l₂ := by
  simp

theorem deleteBlock_split {startslot : Int}
    (hne : ∀ a ∈ l₁, a.startslot ≠ startslot) (hb : b.startslot = startslot) :
    deleteBlock (l₁ ++ b :: l₂) startslot = l₁ ++ l₂ := by
  have hnone : ∀ a ∈ l₁, ¬ decide (a.startslot = startslot) = true := by
    intro a ha
    simpa using hne a ha
  rw [deleteBlock, eraseP_append_right (b :: l₂) hnone, eraseP_cons_of_pos (by simpa using hb)]

theorem insertBlock_split : ∀ {l₁ l₂ : Blocks},
    (∀ a ∈ l₁, a.startslot ≤ b.startslot) → (∀ c ∈ l₂, b.startslot < c.startslot) →
    insertBlock (l₁ ++ l₂) b = l₁ ++ b :: l₂ := by
  intro l₁
  induction l₁ with
  | nil =>
    intro l₂ _ hgt
    cases l₂ with
    | nil => rfl
    | cons c l₂ =>
      show insertBlock (c :: l₂) b = b :: c :: l₂
      rw [insertBlock, if_pos (hgt c mem_cons_self)]
  | cons a l₁ ih =>
    intro l₂ hle hgt
    have ha := hle a mem_cons_self
    show insertBlock (a :: (l₁ ++ l₂)) b = a :: (l₁ ++ b :: l₂)
    rw [insertBlock, if_neg (by omega), ih (fun c hc => hle c (mem_cons_of_mem a hc)) hgt]

/-! ### Grab -/

theorem Around.replace {m : Blocks} (h : Around l₁ b l₂) (hm : Coalesced m)
    (hin : ∀ c ∈ m, b.startslot ≤ c.startslot ∧ c.startslot + c.nslots ≤ b.startslot + b.nslots) :
    Coalesced (l₁ ++ (m ++ l₂)) := by
  rw [coalesced_append_iff, coalesced_append_iff]
  refine ⟨h.left, ⟨hm, h.right, ?_⟩, ?_⟩
  · intro a ha c hc
    have h1 := (hin a ha).2
    have h2 := h.after c hc
    omega
  · intro a ha c hc
    have h1 := h.before a ha
    rcases mem_append.mp hc with hc | hc
    · have h2 := (hin c hc).1
      omega
    · have h2 := h.after c hc
      have h3 := h.mid.nslots_pos
      omega

theorem Around.slots_diff {m : Blocks} (h : Around l₁ b l₂) {s n : Int}
    (hs : b.startslot ≤ s) (he : s + n ≤ b.startslot + b.nslots)
    (hm : ∀ x, x ∈ slots m ↔ b.Covers x ∧ ¬ (s ≤ x ∧ x < s + n)) :
    slots (l₁ ++ (m ++ l₂)) = slots (l₁ ++ b :: l₂) \ { x | s ≤ x ∧ x < s + n } := by
  ext x
  have happ : ∀ {u v : Blocks}, x ∈ slots (u ++ v) ↔ x ∈ slots u ∨ x ∈ slots v := by
    intro u v
    simp only [mem_slots, mem_append, or_and_right, exists_or]
  rw [Set.mem_sdiff, mem_slots_split, happ, happ, hm, Set.mem_ofPred_eq]
  constructor
  · rintro (hx | ⟨hx, hout⟩ | hx)
    · have := h.lt_of_mem_left hx
      exact ⟨.inl hx, by omega⟩
    · exact ⟨.inr (.inl hx), hout⟩
    · have := h.lt_of_mem_right hx
      exact ⟨.inr (.inr hx), by omega⟩
  · rintro ⟨hx | hx | hx, hout⟩
    · exact .inl hx
    · exact .inr (.inl ⟨hx, hout⟩)
    · exact .inr (.inr hx)

theorem coalesced_nil : Coalesced [] := ⟨by simp, Pairwise.nil⟩

theorem coalesced_singleton (h : Proper b) : Coalesced [b] :=
  newSlotset_coalesced h.start_nonneg h.nslots_pos

@[simp] theorem mem_slots_singleton : x ∈ slots [b] ↔ b.Covers x := by
  simp

/-- **`grab_slots`** removes the range. -/
theorem grabSlots_spec (hl : Coalesced l) {s n : Int} (hn : 1 ≤ n)
    (hfree : ∀ x, s ≤ x → x < s + n → x ∈ slots l) :
    ∃ l', l.grabSlots s n = .ok l' ∧ Coalesced l' ∧
    slots l' = slots l \ { x | s ≤ x ∧ x < s + n } := by
  have hmem : s ∈ slots l := hfree s (le_refl s) (by omega)
  cases hfind : l.findBlock s with
  | none => exact absurd hmem ((findBlock_eq_none hl).mp hfind)
  | some i =>
    obtain ⟨l₁, b, l₂, rfl, rfl, hcov⟩ := findBlock_eq_some hfind
    have h := coalesced_split_iff.mp hl
    have hle := h.range_le hcov hfree
    have h0 := h.mid.start_nonneg
    obtain ⟨hcov1, -⟩ := hcov
    unfold grabSlots
    rw [hfind]
    dsimp only
    rw [getD_split]
    split
    · next hstart =>
        split
        · -- the whole block
          next hall =>
            have hdel : deleteBlock (l₁ ++ b :: l₂) s = l₁ ++ ([] ++ l₂) := by
              refine deleteBlock_split ?_ hstart
              intro a ha
              have h1 := h.before a ha
              have h2 := (h.left.proper a ha).nslots_pos
              omega
            rw [hdel]
            refine ⟨_, rfl, h.replace coalesced_nil (by simp), h.slots_diff hcov1 hle ?_⟩
            intro x
            simp only [mem_slots, not_mem_nil, false_and, exists_false, SlotBlock.Covers, false_iff]
            omega
        · -- its beginning
          next hpart =>
            rw [set_split]
            refine ⟨_, rfl, h.replace (coalesced_singleton ⟨?_, ?_⟩) ?_,
              h.slots_diff (m := [_]) hcov1 hle ?_⟩
            · show 0 ≤ b.startslot + n
              omega
            · show 0 < b.nslots - n
              omega
            · intro c hc
              obtain rfl := mem_singleton.mp hc
              dsimp only
              omega
            · intro x
              simp only [mem_slots_singleton, SlotBlock.Covers]
              omega
    · next hstart =>
        split
        · -- its end
          next hend =>
            rw [set_split]
            refine ⟨_, rfl, h.replace (m := [_]) (coalesced_singleton ⟨h0, ?_⟩) ?_,
              h.slots_diff (m := [_]) hcov1 hle ?_⟩
            · show 0 < b.nslots - n
              omega
            · intro c hc
              obtain rfl := mem_singleton.mp hc
              dsimp only
              omega
            · intro x
              simp only [mem_slots_singleton, SlotBlock.Covers]
              omega
        · -- its middle: the upper part is a new block
          next hend =>
            rw [set_split]
            set low : SlotBlock := { b with nslots := s - b.startslot } with hlow
            set high : SlotBlock :=
              { startslot := s + n, nslots := b.startslot + b.nslots - 1 - (s + n) + 1 } with hhigh
            have hins : insertBlock (l₁ ++ low :: l₂) high = l₁ ++ ([low, high] ++ l₂) := by
              have hsplit : l₁ ++ low :: l₂ = (l₁ ++ [low]) ++ l₂ := by simp
              rw [hsplit, insertBlock_split]
              · simp
              · intro a ha
                rcases mem_append.mp ha with ha | ha
                · have h1 := h.before a ha
                  have h2 := (h.left.proper a ha).nslots_pos
                  show a.startslot ≤ s + n
                  omega
                · obtain rfl := mem_singleton.mp ha
                  show b.startslot ≤ s + n
                  omega
              · intro c hc
                have h1 := h.after c hc
                show s + n < c.startslot
                omega
            rw [hins]
            refine ⟨_, rfl, h.replace ⟨?_, ?_⟩ ?_, h.slots_diff hcov1 hle ?_⟩
            · intro c hc
              simp only [mem_cons, not_mem_nil, or_false] at hc
              rcases hc with rfl | rfl
              · exact ⟨h0, show 0 < s - b.startslot by omega⟩
              · exact ⟨show 0 ≤ s + n by omega,
                  show 0 < b.startslot + b.nslots - 1 - (s + n) + 1 by omega⟩
            · simp only [pairwise_cons, mem_singleton, forall_eq, not_mem_nil,
                false_implies, implies_true, Pairwise.nil, and_true, hlow, hhigh]
              omega
            · intro c hc
              simp only [mem_cons, not_mem_nil, or_false] at hc
              rcases hc with rfl | rfl
              · simp only [hlow]
                omega
              · simp only [hhigh]
                omega
            · intro x
              simp only [mem_slots, mem_cons, not_mem_nil, or_false, exists_eq_or_imp,
                exists_eq_left, SlotBlock.Covers, hlow, hhigh]
              omega

/-! ### Free -/

theorem slots_union {m : Blocks} {s n : Int}
    (hm : ∀ x, b.Covers x ↔ x ∈ slots m ∨ (s ≤ x ∧ x < s + n)) :
    slots (l₁ ++ b :: l₂) = slots (l₁ ++ (m ++ l₂)) ∪ { x | s ≤ x ∧ x < s + n } := by
  ext x
  have happ : ∀ {u v : Blocks}, x ∈ slots (u ++ v) ↔ x ∈ slots u ∨ x ∈ slots v := by
    intro u v
    simp only [mem_slots, mem_append, or_and_right, exists_or]
  rw [Set.mem_union, mem_slots_split, happ, happ, hm]
  tauto

theorem exists_place : ∀ {l : Blocks}, Coalesced l → ∀ s : Int, ∃ l₁ l₂, l = l₁ ++ l₂ ∧
    (∀ a ∈ l₁, a.startslot ≤ s) ∧ ∀ c ∈ l₂, s < c.startslot := by
  intro l
  induction l with
  | nil =>
    intro _ s
    exact ⟨[], [], rfl, by simp, by simp⟩
  | cons b l ih =>
    intro hl s
    have h := coalesced_split_iff.mp (show Coalesced ([] ++ b :: l) from hl)
    by_cases hb : b.startslot ≤ s
    · obtain ⟨l₁, l₂, rfl, hle, hgt⟩ := ih h.right s
      refine ⟨b :: l₁, l₂, rfl, ?_, hgt⟩
      intro a ha
      rcases mem_cons.mp ha with rfl | ha
      · exact hb
      · exact hle a ha
    · refine ⟨[], b :: l, rfl, by simp, ?_⟩
      intro c hc
      rcases mem_cons.mp hc with rfl | hc
      · omega
      · have h1 := h.after c hc
        have h2 := h.mid.nslots_pos
        omega

theorem Coalesced.ends_mem (hl : Coalesced l) (hb : b ∈ l) :
    b.startslot ∈ slots l ∧ b.startslot + b.nslots - 1 ∈ slots l := by
  have hpos := (hl.proper b hb).nslots_pos
  exact ⟨⟨b, hb, by unfold SlotBlock.Covers; omega⟩, ⟨b, hb, by unfold SlotBlock.Covers; omega⟩⟩

section

variable {l : Blocks} {s n : Int}

variable {b : SlotBlock}

theorem le_of_used (hn : 1 ≤ n) (hused : ∀ x, s ≤ x → x < s + n → x ∉ slots l) (hb : b ∈ l)
    (hle : b.startslot ≤ s) : b.startslot + b.nslots ≤ s := by
  by_contra hlt
  exact hused s (le_refl s) (by omega) ⟨b, hb, by unfold SlotBlock.Covers; omega⟩

theorem Coalesced.le_start_of_used (hl : Coalesced l)
    (hused : ∀ x, s ≤ x → x < s + n → x ∉ slots l) (hb : b ∈ l)
    (hlt : s < b.startslot) : s + n ≤ b.startslot := by
  by_contra hgt
  exact hused b.startslot (by omega) (by omega) (hl.ends_mem hb).1

/-- No block ends at the range: the ones on the left end before `s - 1`. -/
theorem Coalesced.end_lt (hl : Coalesced l) (hn : 1 ≤ n)
    (hused : ∀ x, s ≤ x → x < s + n → x ∉ slots l) (hlow : l.findBlock (s - 1) = none) :
    ∀ a ∈ l, a.startslot ≤ s → a.startslot + a.nslots < s := by
  have hprev : s - 1 ∉ slots l := (findBlock_eq_none hl).mp hlow
  intro a ha hle
  have h1 := le_of_used hn hused ha hle
  have h2 : a.startslot + a.nslots - 1 ≠ s - 1 := fun heq => hprev (heq ▸ (hl.ends_mem ha).2)
  omega

/-- A block of its own. -/
theorem freeSlots_alone (hl : Coalesced l) (hn : 1 ≤ n) (hs : 0 ≤ s)
    (hused : ∀ x, s ≤ x → x < s + n → x ∉ slots l) (hlow : l.findBlock (s - 1) = none)
    (hhigh : l.findBlock (s + n) = none) :
    Coalesced (l.freeSlots s n) ∧ slots (l.freeSlots s n) =
      slots l ∪ { x | s ≤ x ∧ x < s + n } := by
  have hnext : s + n ∉ slots l := (findBlock_eq_none hl).mp hhigh
  have hleft := hl.end_lt hn hused hlow
  simp only [freeSlots, hlow, hhigh]
  obtain ⟨l₁, l₂, rfl, hle, hgt⟩ := exists_place hl s
  rw [insertBlock_split hle hgt, coalesced_split_iff]
  obtain ⟨hl1, hl2, -⟩ := coalesced_append_iff.mp hl
  refine ⟨⟨hl1, ⟨hs, hn⟩, hl2, ?_, ?_⟩, ?_⟩
  · intro a ha
    exact hleft a (mem_append_left _ ha) (hle a ha)
  · intro c hc
    have hmem : c ∈ l₁ ++ l₂ := mem_append_right _ hc
    have h1 := hl.le_start_of_used hused hmem (hgt c hc)
    have h2 : c.startslot ≠ s + n := fun heq => hnext (heq ▸ (hl.ends_mem hmem).1)
    show s + n < c.startslot
    omega
  · refine slots_union (m := []) ?_
    intro x
    simp only [mem_slots, not_mem_nil, false_and, exists_false, SlotBlock.Covers, false_or]
    omega

/-- The range goes to the front of the block behind it. -/
theorem freeSlots_front (hl : Coalesced l) (hn : 1 ≤ n) (hs : 0 ≤ s)
    (hused : ∀ x, s ≤ x → x < s + n → x ∉ slots l) (hlow : l.findBlock (s - 1) = none) {j : Nat}
    (hhigh : l.findBlock (s + n) = some j) :
    Coalesced (l.freeSlots s n) ∧ slots (l.freeSlots s n) =
      slots l ∪ { x | s ≤ x ∧ x < s + n } := by
  have hleft := hl.end_lt hn hused hlow
  simp only [freeSlots, hlow, hhigh]
  obtain ⟨l₁, b, l₂, rfl, rfl, hcov⟩ := findBlock_eq_some hhigh
  have h := coalesced_split_iff.mp hl
  have hb : b ∈ l₁ ++ b :: l₂ := mem_append_right _ mem_cons_self
  have hstart : b.startslot = s + n := by
    have h1 := hcov.1
    have h2 := hcov.2
    by_cases hle : b.startslot ≤ s
    · have := le_of_used hn hused hb hle
      omega
    · have := hl.le_start_of_used hused hb (by omega)
      omega
  rw [getD_split, set_split, coalesced_split_iff]
  have hpos := h.mid.nslots_pos
  refine ⟨⟨h.left, ⟨hs, show 0 < b.nslots + n by omega⟩, h.right, ?_, ?_⟩, ?_⟩
  · intro a ha
    have hmem : a ∈ l₁ ++ b :: l₂ := mem_append_left _ ha
    refine hleft a hmem ?_
    by_contra hlt
    have h1 := hl.le_start_of_used hused hmem (by omega)
    have h2 := h.before a ha
    have h3 := (h.left.proper a ha).nslots_pos
    omega
  · intro c hc
    have h1 := h.after c hc
    show s + (b.nslots + n) < c.startslot
    omega
  · refine slots_union (m := [b]) ?_
    intro x
    simp only [mem_slots_singleton, SlotBlock.Covers]
    omega

/-- The block that covers `s - 1` ends there. -/
theorem end_of_covers (hn : 1 ≤ n) (hused : ∀ x, s ≤ x → x < s + n → x ∉ slots l) (hb : b ∈ l)
    (hcov : b.Covers (s - 1)) : b.startslot + b.nslots = s := by
  have h1 := hcov.1
  have h2 := hcov.2
  have h3 := le_of_used hn hused hb (by omega)
  omega

/-- The range goes to the end of the block before it, and the one behind it, if there is one, is no
neighbour. -/
theorem freeSlots_back {l₁ l₂ : Blocks} (hl : Coalesced (l₁ ++ b :: l₂)) (hn : 1 ≤ n)
    (hused : ∀ x, s ≤ x → x < s + n → x ∉ slots (l₁ ++ b :: l₂)) (hcov : b.Covers (s - 1))
    (hhigh : findBlock (l₁ ++ b :: l₂) (s + n) = none) :
    Coalesced (l₁ ++ { b with nslots := b.nslots + n } :: l₂) ∧
      slots (l₁ ++ { b with nslots := b.nslots + n } :: l₂) =
        slots (l₁ ++ b :: l₂) ∪ { x | s ≤ x ∧ x < s + n } := by
  have h := coalesced_split_iff.mp hl
  have hend := end_of_covers hn hused (mem_append_right _ mem_cons_self) hcov
  have hpos := h.mid.nslots_pos
  have hnext : s + n ∉ slots (l₁ ++ b :: l₂) := (findBlock_eq_none hl).mp hhigh
  rw [coalesced_split_iff]
  refine ⟨⟨h.left, ⟨h.mid.start_nonneg, show 0 < b.nslots + n by omega⟩, h.right, h.before, ?_⟩,
    ?_⟩
  · intro c hc
    have hmem : c ∈ l₁ ++ b :: l₂ := mem_append_right _ (mem_cons_of_mem _ hc)
    have hbehind := h.after c hc
    have h1 := hl.le_start_of_used hused hmem (by omega)
    have h2 : c.startslot ≠ s + n := fun heq => hnext (heq ▸ (hl.ends_mem hmem).1)
    show b.startslot + (b.nslots + n) < c.startslot
    omega
  · refine slots_union (m := [b]) ?_
    intro x
    simp only [mem_slots_singleton, SlotBlock.Covers]
    omega

/-- The block that covers `s + n` comes next behind the one that ends at `s`. -/
theorem next_of_covers {l₁ l₂ k1 k2 : Blocks} {c : SlotBlock} (hl : Coalesced (l₁ ++ b :: l₂))
    (hused : ∀ x, s ≤ x → x < s + n → x ∉ slots (l₁ ++ b :: l₂)) (hn : 1 ≤ n)
    (hend : b.startslot + b.nslots = s) (hk : l₁ ++ b :: l₂ = k1 ++ c :: k2)
    (hcov : c.Covers (s + n)) : ∃ l3, l₂ = c :: l3 ∧ c.startslot = s + n := by
  have h := coalesced_split_iff.mp hl
  have hright : ∀ d ∈ l₂, s + n ≤ d.startslot := by
    intro d hd
    have h1 := h.after d hd
    exact hl.le_start_of_used hused (mem_append_right _ (mem_cons_of_mem _ hd)) (by omega)
  have h2 := hcov.1
  have h3 := hcov.2
  have hc : c ∈ l₁ ++ b :: l₂ := hk ▸ mem_append_right _ mem_cons_self
  rcases mem_append.mp hc with hc | hc
  · have h1 := h.before c hc
    have hpos := h.mid.nslots_pos
    omega
  rcases mem_cons.mp hc with rfl | hc
  · omega
  cases l₂ with
  | nil => exact absurd hc not_mem_nil
  | cons d l3 =>
    have h1 := hright d mem_cons_self
    rcases mem_cons.mp hc with rfl | hc'
    · exact ⟨l3, rfl, by omega⟩
    · have h4 := (pairwise_cons.mp h.right.apart).1 c hc'
      have h5 := (h.right.proper d mem_cons_self).nslots_pos
      omega

/-- The range joins two blocks. -/
theorem freeSlots_between {l₁ l3 : Blocks} {c : SlotBlock} (hl : Coalesced (l₁ ++ b :: c :: l3))
    (hn : 1 ≤ n) (hend : b.startslot + b.nslots = s) (hstart : c.startslot = s + n) :
    Coalesced (deleteBlock (l₁ ++ { b with nslots := b.nslots + n + c.nslots } :: c :: l3)
        c.startslot) ∧
      slots (deleteBlock (l₁ ++ { b with nslots := b.nslots + n + c.nslots } :: c :: l3)
        c.startslot) = slots (l₁ ++ b :: c :: l3) ∪ { x | s ≤ x ∧ x < s + n } := by
  have h := coalesced_split_iff.mp hl
  have hc := coalesced_split_iff.mp (show Coalesced ([] ++ c :: l3) from h.right)
  have hpos := h.mid.nslots_pos
  have hposc := hc.mid.nslots_pos
  set merged : SlotBlock := { b with nslots := b.nslots + n + c.nslots } with hmerged
  have hdel : deleteBlock (l₁ ++ merged :: c :: l3) c.startslot = l₁ ++ merged :: l3 := by
    have hsplit : l₁ ++ merged :: c :: l3 = (l₁ ++ [merged]) ++ c :: l3 := by simp
    rw [hsplit, deleteBlock_split _ rfl]
    · simp
    · intro a ha
      rcases mem_append.mp ha with ha | ha
      · have h1 := h.before a ha
        have h2 := (h.left.proper a ha).nslots_pos
        omega
      · obtain rfl := mem_singleton.mp ha
        show b.startslot ≠ c.startslot
        omega
  rw [hdel, coalesced_split_iff]
  refine ⟨⟨h.left, ⟨h.mid.start_nonneg, show 0 < b.nslots + n + c.nslots by omega⟩, hc.right,
    h.before, ?_⟩, ?_⟩
  · intro d hd
    have h1 := hc.after d hd
    show b.startslot + (b.nslots + n + c.nslots) < d.startslot
    omega
  · refine slots_union (m := [b, c]) ?_
    intro x
    simp only [mem_slots, mem_cons, not_mem_nil, or_false, exists_eq_or_imp,
      exists_eq_left, SlotBlock.Covers, hmerged]
    omega

/-- **`free_slots`** adds the range. -/
theorem freeSlots_spec (hl : Coalesced l) (hn : 1 ≤ n) (hs : 0 ≤ s)
    (hused : ∀ x, s ≤ x → x < s + n → x ∉ slots l) :
    Coalesced (l.freeSlots s n) ∧ slots (l.freeSlots s n) = slots l ∪
    { x | s ≤ x ∧ x < s + n } := by
  cases hlow : l.findBlock (s - 1) with
  | none =>
    cases hhigh : l.findBlock (s + n) with
    | none => exact freeSlots_alone hl hn hs hused hlow hhigh
    | some j => exact freeSlots_front hl hn hs hused hlow hhigh
  | some i =>
    cases hhigh : l.findBlock (s + n) with
    | none =>
      simp only [freeSlots, hlow, hhigh]
      obtain ⟨l₁, b, l₂, rfl, rfl, hcov⟩ := findBlock_eq_some hlow
      rw [getD_split, set_split]
      exact freeSlots_back hl hn hused hcov hhigh
    | some j =>
      simp only [freeSlots, hlow, hhigh]
      obtain ⟨l₁, b, l₂, rfl, rfl, hcov⟩ := findBlock_eq_some hlow
      obtain ⟨k1, c, k2, hk, rfl, hcovc⟩ := findBlock_eq_some hhigh
      have hend := end_of_covers hn hused (mem_append_right _ mem_cons_self) hcov
      have hget : (l₁ ++ b :: l₂).getD k1.length { startslot := 0, nslots := 0 } = c := by
        rw [hk, getD_split]
      obtain ⟨l3, rfl, hstart⟩ := next_of_covers hl hused hn hend hk hcovc
      rw [hget, getD_split, set_split]
      exact freeSlots_between hl hn hend hstart

/-- Freeing slots that are free already does not grab them. -/
theorem freeSlots_of_free (hl : Coalesced l) (hn : 1 ≤ n)
    (hfree : ∀ x, s ≤ x → x < s + n → x ∈ slots l) :
    slots (l.freeSlots s n) ≠ slots l \ { x | s ≤ x ∧ x < s + n } := by
  -- in three of the four cases the first slot of the range is still there
  have hstays : s ∈ slots (l.freeSlots s n) →
      slots (l.freeSlots s n) ≠ slots l \ { x | s ≤ x ∧ x < s + n } := by
    intro hmem heq
    rw [heq] at hmem
    exact hmem.2 ⟨le_refl s, by omega⟩
  have hs : s ∈ slots l := hfree s (le_refl s) (by omega)
  cases hlow : l.findBlock (s - 1) with
  | none =>
    apply hstays
    unfold freeSlots
    rw [hlow]
    cases hhigh : l.findBlock (s + n) with
    | none =>
      obtain ⟨l₁, l₂, rfl, hle, hgt⟩ := exists_place hl s
      rw [insertBlock_split hle hgt, mem_slots_split]
      exact .inr (.inl ⟨le_refl s, show s ≤ s + n - 1 by omega⟩)
    | some j =>
      obtain ⟨l₁, b, l₂, rfl, rfl, hcov⟩ := findBlock_eq_some hhigh
      have hpos := (coalesced_split_iff.mp hl).mid.nslots_pos
      dsimp only
      rw [getD_split, set_split, mem_slots_split]
      exact .inr (.inl ⟨le_refl s, show s ≤ s + (b.nslots + n) - 1 by omega⟩)
  | some i =>
    obtain ⟨l₁, b, l₂, rfl, rfl, hcov⟩ := findBlock_eq_some hlow
    have h := coalesced_split_iff.mp hl
    have hpos := h.mid.nslots_pos
    -- the block of `s - 1` is the block of the whole range
    have hcovs : b.Covers s := by
      rcases mem_slots_split.mp hs with hx | hx | hx
      · have h1 := h.lt_of_mem_left hx
        have h2 := hcov.1
        omega
      · exact hx
      · have h1 := h.lt_of_mem_right hx
        have h2 := hcov.2
        omega
    cases hhigh : findBlock (l₁ ++ b :: l₂) (s + n) with
    | none =>
      apply hstays
      unfold freeSlots
      rw [hlow, hhigh]
      dsimp only
      rw [getD_split, set_split, mem_slots_split]
      have h1 := hcovs.1
      have h2 := hcovs.2
      exact .inr (.inl ⟨h1, show s ≤ b.startslot + (b.nslots + n) - 1 by omega⟩)
    | some j =>
      obtain ⟨k1, c, k2, hk, rfl, hcovc⟩ := findBlock_eq_some hhigh
      have hle := h.range_le hcovs hfree
      have hsame : c = b := by
        have hmem : c ∈ l₁ ++ b :: l₂ := hk ▸ mem_append_right _ mem_cons_self
        have h1 := hcovs.1
        have h2 := hcovc.1
        have h3 := hcovc.2
        rcases mem_append.mp hmem with hm | hm
        · have := h.before c hm
          omega
        · rcases mem_cons.mp hm with rfl | hm
          · rfl
          · have := h.after c hm
            omega
      subst hsame
      -- the block is deleted, and `s - 1` with it
      intro heq
      have hprev : s - 1 ∈ slots (freeSlots (l₁ ++ c :: l₂) s n) := by
        rw [heq]
        refine ⟨mem_slots_split.mpr (.inr (.inl hcov)), ?_⟩
        rintro ⟨h1, -⟩
        omega
      unfold freeSlots at hprev
      rw [hlow, hhigh] at hprev
      dsimp only at hprev
      rw [getD_split, set_split] at hprev
      have hget : (l₁ ++ c :: l₂).getD k1.length { startslot := 0, nslots := 0 } = c := by
        rw [hk, getD_split]
      rw [hget, deleteBlock_split _ rfl] at hprev
      · obtain ⟨d, hd, hcovd⟩ := hprev
        have h1 := hcov.1
        have h3 := hcovd.1
        have h4 := hcovd.2
        rcases mem_append.mp hd with hd | hd
        · have := h.before d hd
          omega
        · have := h.after d hd
          omega
      · intro a ha
        have h1 := h.before a ha
        have h2 := (h.left.proper a ha).nslots_pos
        show a.startslot ≠ c.startslot
        omega

end

end Blocks

end CharmRuntime.Isomalloc
