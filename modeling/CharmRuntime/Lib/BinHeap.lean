import Mathlib.Order.Interval.Finset.Nat

/-!
# Lib.BinHeap

**Binary heaps with a hole.** The heap is an array used from index 1 on, ordered
by a Boolean comparison `gt`; `n` is one past the last used index. The sifts
carry the element `x` to be placed and move others over the hole, as hand-written
heaps do, instead of swapping.

Both sifts are described by what they do to the virtual array with `x` in the
hole: its elements stay the same (`heapContent`) and it becomes ordered
(`HeapOrd`).
-/

namespace CharmRuntime.Lib

open Function Finset Multiset

variable {β : Type}

/-- `gt` is the strict part of a total preorder. -/
structure StrictWeak (gt : β → β → Bool) : Prop where
  asymm : ∀ {a b}, gt a b = true → gt b a = false
  trans : ∀ {a b c}, gt a b = false → gt b c = false → gt a c = false

theorem StrictWeak.irrefl {gt : β → β → Bool} (h : StrictWeak gt) (a : β) : gt a a = false := by
  by_contra hne
  have htrue : gt a a = true := by simpa using hne
  rw [h.asymm htrue] at htrue
  exact absurd htrue (by decide)

section

variable (gt : β → β → Bool)

/-- Move the hole up while the parent is not smaller than `x`. -/
def siftUp (x : β) : Nat → (Nat → β) → Nat → Nat → β
  | 0, heap, pos => update heap pos x
  | fuel + 1, heap, pos =>
    if pos ≤ 1 then update heap pos x
    else if gt x (heap (pos / 2)) then update heap pos x
    else siftUp x fuel (update heap pos (heap (pos / 2))) (pos / 2)

/-- The smaller child of `pos`, the first one if they are equal. -/
def minChild (n : Nat) (heap : Nat → β) (pos : Nat) : Nat :=
  if n ≤ 2 * pos + 1 then 2 * pos
  else if gt (heap (2 * pos)) (heap (2 * pos + 1)) then 2 * pos + 1
  else 2 * pos

/-- Move the hole down while the smaller child is not greater than `x`. -/
def siftDown (n : Nat) (x : β) : Nat → (Nat → β) → Nat → Nat → β
  | 0, heap, pos => update heap pos x
  | fuel + 1, heap, pos =>
    if n ≤ 2 * pos then update heap pos x
    else if gt (heap (minChild gt n heap pos)) x then update heap pos x
    else siftDown n x fuel (update heap pos (heap (minChild gt n heap pos)))
      (minChild gt n heap pos)

/-- No parent is greater than its child. -/
def HeapOrd (heap : Nat → β) (n : Nat) : Prop :=
  ∀ i, 2 ≤ i → i < n → gt (heap (i / 2)) (heap i) = false

end

/-- The elements at indices 1 to `n - 1`. -/
def heapContent (heap : Nat → β) (n : Nat) : Multiset β := (Finset.Ico 1 n).val.map heap

/-! ### Elements -/

variable {n : Nat} (heap : Nat → β)

theorem mem_heapContent {heap : Nat → β} {b : β} :
    b ∈ heapContent heap n ↔ ∃ i, 1 ≤ i ∧ i < n ∧ heap i = b := by
  simp [heapContent, and_assoc]

theorem heapContent_one : heapContent heap 1 = 0 := by
  simp [heapContent]

theorem card_heapContent (n : Nat) : (heapContent heap n).card = n - 1 := by
  simp [heapContent]

theorem heapContent_congr {heap heap' : Nat → β} (h : ∀ i, 1 ≤ i → i < n → heap i = heap' i) :
    heapContent heap n = heapContent heap' n := by
  apply map_congr rfl
  intro i hi
  obtain ⟨h1, h2⟩ := Finset.mem_Ico.mp (mem_val.mp hi)
  exact h i h1 h2

/-- One element more. -/
theorem heapContent_succ (hn : 1 ≤ n) :
    heapContent heap (n + 1) = heap n ::ₘ heapContent heap n := by
  have hico : Finset.Ico 1 (n + 1) = cons n (Ico 1 n) (by simp) := by
    ext i
    simp only [Finset.mem_Ico, Finset.mem_cons]
    omega
  simp [heapContent, hico]

/-- Single out index `p`. -/
theorem heapContent_eq_cons {p : Nat} (h1 : 1 ≤ p) (h2 : p < n) :
    heapContent heap n = heap p ::ₘ ((Finset.Ico 1 n).erase p).val.map heap := by
  have hp : p ∈ Finset.Ico 1 n := Finset.mem_Ico.mpr ⟨h1, h2⟩
  have hcons : (Finset.Ico 1 n).val = p ::ₘ ((Finset.Ico 1 n).erase p).val := by
    rw [erase_val, cons_erase hp]
  rw [heapContent, hcons, Multiset.map_cons]

/-- Putting `x` at index `p`. -/
theorem heapContent_update {p : Nat} (h1 : 1 ≤ p) (h2 : p < n) (x : β) :
    heapContent (update heap p x) n = x ::ₘ ((Finset.Ico 1 n).erase p).val.map heap := by
  rw [heapContent_eq_cons _ h1 h2, update_self]
  congr 1
  apply map_congr rfl
  intro i hi
  exact update_of_ne (ne_of_mem_erase (mem_val.mp hi)) x heap

/-- Moving an element over the hole changes nothing but the place of the hole. -/
theorem heapContent_move {p q : Nat} (hp1 : 1 ≤ p) (hp2 : p < n) (hq1 : 1 ≤ q)
    (hq2 : q < n) (hpq : q ≠ p) (x : β) :
    heapContent (update (update heap p (heap q)) q x) n = heapContent (update heap p x) n := by
  have hq : q ∈ (Finset.Ico 1 n).erase p :=
    mem_erase.mpr ⟨hpq, Finset.mem_Ico.mpr ⟨hq1, hq2⟩⟩
  have hp : p ∈ (Finset.Ico 1 n).erase q :=
    mem_erase.mpr ⟨hpq.symm, Finset.mem_Ico.mpr ⟨hp1, hp2⟩⟩
  have hsplit : ∀ (s : Finset Nat) (i : Nat) (f : Nat → β), i ∈ s →
      s.val.map f = f i ::ₘ (s.erase i).val.map f := by
    intro s i f hi
    rw [erase_val, ← Multiset.map_cons, cons_erase hi]
  rw [heapContent_update _ hq1 hq2, heapContent_update _ hp1 hp2, hsplit _ q heap hq,
    hsplit _ p _ hp, update_self, erase_right_comm]
  congr 2
  apply map_congr rfl
  intro i hi
  have hip := ne_of_mem_erase (mem_of_mem_erase (mem_val.mp hi))
  exact update_of_ne hip _ heap

/-! ### Order -/

section

variable {gt : β → β → Bool}

variable {heap : Nat → β} {n : Nat} {x : β}

/-- The first element is a smallest one. -/
theorem HeapOrd.first_le (hgt : StrictWeak gt) (h : HeapOrd gt heap n) :
    ∀ i, 1 ≤ i → i < n → gt (heap 1) (heap i) = false := by
  intro i
  induction i using Nat.strongRecOn with
  | ind i ih =>
    intro _ h2
    by_cases hi : i = 1
    · rw [hi]
      exact hgt.irrefl _
    · exact hgt.trans (ih (i / 2) (by omega) (by omega) (by omega)) (h i (by omega) h2)

/-- What `siftUp` needs: order off the hole, and the hole's parent is not greater
than the hole's children. -/
structure UpOrd (gt : β → β → Bool) (heap : Nat → β) (n pos : Nat) (x : β) : Prop where
  off : ∀ i, 2 ≤ i → i < n → i ≠ pos →
    gt (update heap pos x (i / 2)) (update heap pos x i) = false
  grand : 2 ≤ pos → ∀ c, c / 2 = pos → c < n → gt (heap (pos / 2)) (heap c) = false

/-- One move of the hole up. -/
theorem UpOrd.move (hgt : StrictWeak gt) {pos : Nat}
    (h : UpOrd gt heap n pos x) (hpos : 2 ≤ pos) (hn : pos < n)
    (hle : gt x (heap (pos / 2)) = false) :
    UpOrd gt (update heap pos (heap (pos / 2))) n (pos / 2) x := by
  have hq : pos / 2 ≠ pos := by omega
  -- the parent of the hole, against its own parent and its other child
  have habove : 2 ≤ pos / 2 → gt (heap (pos / 2 / 2)) (heap (pos / 2)) = false := by
    intro h2
    have hoff := h.off (pos / 2) h2 (by omega) hq
    rwa [update_of_ne (by omega), update_of_ne hq] at hoff
  have hsib :
    ∀ c, c / 2 = pos / 2 → c ≠ pos → 2 ≤ c → c < n → gt (heap (pos / 2)) (heap c) = false := by
    intro c hc hne h2 hcn
    have hoff := h.off c h2 hcn hne
    rwa [hc, update_of_ne hq, update_of_ne hne] at hoff
  refine ⟨?_, ?_⟩
  · intro i h2 hin hne
    rw [update_of_ne hne]
    by_cases hi : i = pos
    · subst hi
      rw [update_self, update_self]
      exact hle
    rw [update_of_ne hi]
    by_cases hpar : i / 2 = pos / 2
    · rw [hpar, update_self]
      exact hgt.trans hle (hsib i hpar hi h2 hin)
    rw [update_of_ne hpar]
    by_cases hchild : i / 2 = pos
    · rw [hchild, update_self]
      exact h.grand hpos i hchild hin
    · rw [update_of_ne hchild]
      have hoff := h.off i h2 hin hi
      rwa [update_of_ne hchild, update_of_ne hi] at hoff
  · intro h2 c hc hcn
    rw [update_of_ne (show pos / 2 / 2 ≠ pos by omega)]
    by_cases hcp : c = pos
    · rw [hcp, update_self]
      exact habove h2
    · rw [update_of_ne hcp]
      exact hgt.trans (habove h2) (hsib c hc hcp (by omega) hcn)

/-- **Sifting up** keeps the elements and restores the order. -/
theorem siftUp_spec (hgt : StrictWeak gt) :
    ∀ fuel (heap : Nat → β) pos, pos ≤ fuel + 1 → 1 ≤ pos → pos < n → UpOrd gt heap n pos x →
      HeapOrd gt (siftUp gt x fuel heap pos) n ∧
        heapContent (siftUp gt x fuel heap pos) n = heapContent (update heap pos x) n := by
  intro fuel
  induction fuel with
  | zero =>
    intro heap pos hfuel h1 hn h
    exact ⟨fun i h2 hin => h.off i h2 hin (by omega), rfl⟩
  | succ fuel ih =>
    intro heap pos hfuel h1 hn h
    rw [siftUp]
    by_cases hone : pos ≤ 1
    · rw [if_pos hone]
      exact ⟨fun i h2 hin => h.off i h2 hin (by omega), rfl⟩
    rw [if_neg hone]
    by_cases hstop : gt x (heap (pos / 2)) = true
    · rw [if_pos hstop]
      refine ⟨fun i h2 hin => ?_, rfl⟩
      by_cases hi : i = pos
      · subst hi
        rw [update_of_ne (by omega), update_self]
        exact hgt.asymm hstop
      · exact h.off i h2 hin hi
    · rw [if_neg hstop]
      have hle : gt x (heap (pos / 2)) = false := by simpa using hstop
      obtain ⟨hord, hcontent⟩ := ih _ (pos / 2) (by omega) (by omega) (by omega)
        (h.move hgt (by omega) hn hle)
      refine ⟨hord, ?_⟩
      rw [hcontent, heapContent_move heap h1 hn (by omega) (by omega) (by omega)]

/-- An element that is not greater than any goes to the top. -/
theorem siftUp_one : ∀ fuel (heap : Nat → β) pos, pos ≤ fuel + 1 → 1 ≤ pos →
    (∀ i, 1 ≤ i → i < pos → gt x (heap i) = false) → siftUp gt x fuel heap pos 1 = x := by
  intro fuel
  induction fuel with
  | zero =>
    intro heap pos hfuel h1 _
    have hpos : pos = 1 := by omega
    rw [hpos, siftUp, update_self]
  | succ fuel ih =>
    intro heap pos hfuel h1 hle
    rw [siftUp]
    by_cases hone : pos ≤ 1
    · have hpos : pos = 1 := by omega
      rw [if_pos hone, hpos, update_self]
    · rw [if_neg hone, hle (pos / 2) (by omega) (by omega)]
      refine ih _ (pos / 2) (by omega) (by omega) ?_
      intro i hi _
      rw [update_of_ne (by omega)]
      exact hle i hi (by omega)

/-- What `siftDown` needs: order except between the hole and its children, and
the hole's parent is not greater than the hole's children. -/
structure DownOrd (gt : β → β → Bool) (heap : Nat → β) (n pos : Nat) (x : β) : Prop where
  off : ∀ i, 2 ≤ i → i < n → i / 2 ≠ pos →
    gt (update heap pos x (i / 2)) (update heap pos x i) = false
  grand : 2 ≤ pos → ∀ c, c / 2 = pos → c < n → gt (heap (pos / 2)) (heap c) = false

theorem minChild_spec (hgt : StrictWeak gt) (heap : Nat → β) {pos : Nat} (h : ¬ n ≤ 2 * pos) :
    minChild gt n heap pos / 2 = pos ∧ minChild gt n heap pos < n ∧
      ∀ c, c / 2 = pos → c < n → gt (heap (minChild gt n heap pos)) (heap c) = false := by
  unfold minChild
  split
  · refine ⟨by omega, by omega, ?_⟩
    intro c hc hcn
    obtain rfl : c = 2 * pos := by omega
    exact hgt.irrefl _
  split
  · next hgtc =>
      refine ⟨by omega, by omega, ?_⟩
      intro c hc hcn
      obtain rfl | rfl : c = 2 * pos ∨ c = 2 * pos + 1 := by omega
      · exact hgt.asymm hgtc
      · exact hgt.irrefl _
  · next hgtc =>
      refine ⟨by omega, by omega, ?_⟩
      intro c hc hcn
      obtain rfl | rfl : c = 2 * pos ∨ c = 2 * pos + 1 := by omega
      · exact hgt.irrefl _
      · simpa using hgtc

/-- One move of the hole down, to a child `m` that is not greater than its
sibling. -/
theorem DownOrd.move {pos m : Nat} (h : DownOrd gt heap n pos x)
    (hpos : 1 ≤ pos) (hm : m / 2 = pos) (hmn : m < n)
    (hmin : ∀ c, c / 2 = pos → c < n → gt (heap m) (heap c) = false) (hle : gt (heap m) x = false) :
    DownOrd gt (update heap pos (heap m)) n m x := by
  have hmp : m ≠ pos := by omega
  refine ⟨?_, ?_⟩
  · intro i h2 hin hne
    rw [update_of_ne hne]
    by_cases him : i = m
    · rw [him, hm, update_self, update_self]
      exact hle
    rw [update_of_ne him]
    by_cases hi : i = pos
    · subst hi
      rw [update_self, update_of_ne (by omega)]
      exact h.grand h2 m hm hmn
    rw [update_of_ne hi]
    by_cases hpar : i / 2 = pos
    · rw [hpar, update_self]
      exact hmin i hpar hin
    · rw [update_of_ne hpar]
      have hoff := h.off i h2 hin hpar
      rwa [update_of_ne hpar, update_of_ne hi] at hoff
  · intro _ c hc hcn
    have hcp : c ≠ pos := by omega
    have hoff := h.off c (by omega) hcn (by omega)
    rw [hc, update_of_ne hmp, update_of_ne hcp] at hoff
    rw [hm, update_self, update_of_ne hcp]
    exact hoff

/-- **Sifting down** keeps the elements and restores the order. -/
theorem siftDown_spec (hgt : StrictWeak gt) :
    ∀ fuel (heap : Nat → β) pos, n ≤ pos + fuel → 1 ≤ pos → pos < n → DownOrd gt heap n pos x →
      HeapOrd gt (siftDown gt n x fuel heap pos) n ∧ heapContent (siftDown gt n x fuel heap pos) n =
          heapContent (update heap pos x) n := by
  intro fuel
  induction fuel with
  | zero =>
    intro heap pos hfuel h1 hn
    omega
  | succ fuel ih =>
    intro heap pos hfuel h1 hn h
    rw [siftDown]
    by_cases hleaf : n ≤ 2 * pos
    · rw [if_pos hleaf]
      exact ⟨fun i h2 hin => h.off i h2 hin (by omega), rfl⟩
    rw [if_neg hleaf]
    obtain ⟨hm, hmn, hmin⟩ := minChild_spec hgt heap hleaf
    generalize minChild gt n heap pos = m at hm hmn hmin
    by_cases hstop : gt (heap m) x = true
    · rw [if_pos hstop]
      refine ⟨fun i h2 hin => ?_, rfl⟩
      by_cases hpar : i / 2 = pos
      · rw [hpar, update_self, update_of_ne (by omega)]
        exact hgt.trans (hgt.asymm hstop) (hmin i hpar hin)
      · exact h.off i h2 hin hpar
    · rw [if_neg hstop]
      have hle : gt (heap m) x = false := by simpa using hstop
      obtain ⟨hord, hcontent⟩ := ih _ m (by omega) (by omega) hmn (h.move h1 hm hmn hmin hle)
      refine ⟨hord, ?_⟩
      rw [hcontent, heapContent_move heap h1 hn (by omega) hmn (by omega)]

/-- **Insertion**: put `x` behind the last element and sift it up. -/
theorem siftUp_insert (hgt : StrictWeak gt) (hn : 1 ≤ n) (h : HeapOrd gt heap n) (x : β) :
    HeapOrd gt (siftUp gt x n heap n) (n + 1) ∧
      heapContent (siftUp gt x n heap n) (n + 1) = x ::ₘ heapContent heap n := by
  have hup : UpOrd gt heap (n + 1) n x := by
    refine ⟨fun i h2 hin hne => ?_, fun _ c hc hcn => by omega⟩
    rw [update_of_ne (by omega), update_of_ne hne]
    exact h i h2 (by omega)
  obtain ⟨hord, hcontent⟩ := siftUp_spec hgt n heap n (by omega) hn (by omega) hup
  refine ⟨hord, ?_⟩
  rw [hcontent, heapContent_succ _ hn, update_self]
  congr 1
  exact heapContent_congr fun i h1 hin => update_of_ne (by omega) x heap

/-- **Removal of the first element**: sift the last one down from its place. -/
theorem siftDown_remove (hgt : StrictWeak gt) (hn : 1 ≤ n) (h : HeapOrd gt heap (n + 1)) :
    HeapOrd gt (siftDown gt n (heap n) n heap 1) n ∧
      heapContent heap (n + 1) = heap 1 ::ₘ heapContent (siftDown gt n (heap n) n heap 1) n := by
  by_cases hone : n = 1
  · subst hone
    refine ⟨fun i h2 hin => by omega, ?_⟩
    rw [heapContent_succ _ hn, heapContent_one, heapContent_one]
  have hdown : DownOrd gt heap n 1 (heap n) := by
    refine ⟨fun i h2 hin hne => ?_, fun h2 => absurd h2 (by decide)⟩
    rw [update_of_ne hne, update_of_ne (by omega)]
    exact h i h2 (by omega)
  obtain ⟨hord, hcontent⟩ := siftDown_spec hgt n heap 1 (by omega) (le_refl 1) (by omega) hdown
  refine ⟨hord, ?_⟩
  rw [hcontent, heapContent_succ _ hn, heapContent_update _ (le_refl 1) (by omega),
    heapContent_eq_cons heap (le_refl 1) (show 1 < n by omega), Multiset.cons_swap]

end

end CharmRuntime.Lib
