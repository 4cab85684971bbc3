import Mathlib.Tactic.Ring
import Mathlib.Algebra.Group.End

/-!
# Util.QuickSort

`CkVec::quickSort`: **the pivot stays in the vector**, at the left end of its range, until the other
elements are on their sides of it; a range that is no longer than `changeOverSize` is sorted by
exchanges.

An index outside the vector and a sum of two indices that is no `int` are `none`.
-/

namespace CharmRuntime.Util

open Function (comp_apply)

namespace CkVec

variable {T : Type}

/-- `block[i]`, of a vector of `len` elements. -/
def read (len : Nat) (block : Int → T) (i : Int) :
    Option T := if 0 ≤ i ∧ i < len then some (block i) else none

def exchange (len : Nat) (block : Int → T) (i j : Int) : Option (Int → T) := do
  let x ← read len block i
  let y ← read len block j
  some (Function.update (Function.update block i y) j x)

/-- The elements from `lo` to `hi` have changed places. -/
def Rearranged (lo hi : Int) (b b' : Int → T) : Prop :=
  ∃ σ : Equiv.Perm Int, (∀ i, ¬ (lo ≤ i ∧ i ≤ hi) → σ i = i) ∧ b' = b ∘ σ

variable {len : Nat} {b b' b'' : Int → T} {lo hi i j left right p : Int}

theorem Rearranged.refl (lo hi : Int) (b : Int → T) : Rearranged lo hi b b :=
  ⟨1, fun _ _ => rfl, rfl⟩

theorem Rearranged.trans (h : Rearranged lo hi b b') (h' : Rearranged lo hi b' b'') :
    Rearranged lo hi b b'' := by
  obtain ⟨σ, hσ, rfl⟩ := h
  obtain ⟨τ, hτ, rfl⟩ := h'
  refine ⟨σ * τ, fun i hi => ?_, rfl⟩
  rw [Equiv.Perm.mul_apply, hτ i hi, hσ i hi]

theorem Rearranged.mono (h : Rearranged lo hi b b') (hl : left ≤ lo) (hr : hi ≤ right) :
    Rearranged left right b b' := by
  obtain ⟨σ, hσ, hb⟩ := h
  exact ⟨σ, fun i hi => hσ i (by omega), hb⟩

theorem Rearranged.outside (h : Rearranged lo hi b b') (hout : ¬ (lo ≤ i ∧ i ≤ hi)) :
    b' i = b i := by
  obtain ⟨σ, hσ, rfl⟩ := h
  rw [comp_apply, hσ i hout]

theorem Rearranged.inside (h : Rearranged lo hi b b') (hin : lo ≤ i ∧ i ≤ hi) :
    ∃ j, (lo ≤ j ∧ j ≤ hi) ∧ b' i = b j := by
  obtain ⟨σ, hσ, rfl⟩ := h
  refine ⟨σ i, ?_, rfl⟩
  by_contra hout
  exact hout ((σ.injective (hσ _ hout)).symm ▸ hin)

theorem exchange_spec (h0 : 0 ≤ lo) (h1 : hi < len) (hin : lo ≤ i ∧ i ≤ hi)
    (hjn : lo ≤ j ∧ j ≤ hi) :
    ∃ b', exchange len b i j = some b' ∧ Rearranged lo hi b b' ∧ b' i = b j ∧ b' j = b i ∧
      ∀ k, k ≠ i → k ≠ j → b' k = b k := by
  refine ⟨b ∘ Equiv.swap i j, ?_, ⟨Equiv.swap i j, fun k hk => ?_, rfl⟩, ?_, ?_,
    fun k hki hkj => ?_⟩
  · rw [exchange, read, read, if_pos (by omega), if_pos (by omega)]
    refine congrArg some (funext fun k => ?_)
    simp only [Function.update_apply, comp_apply, Equiv.swap_apply_def]
    split_ifs with h1 h2 <;> simp_all
  · exact Equiv.swap_apply_of_ne_of_ne (fun h => hk (h ▸ hin)) fun h => hk (h ▸ hjn)
  · rw [comp_apply, Equiv.swap_apply_left]
  · rw [comp_apply, Equiv.swap_apply_right]
  · rw [comp_apply, Equiv.swap_apply_of_ne_of_ne hki hkj]

variable [Preorder T] [DecidableLE T]

/-- The inner loop of `bubbleSort`, over `n` elements from `j` on. -/
def bubbleRound (len : Nat) (i : Int) : Nat → Int → (Int → T) → Option (Int → T)
  | 0, _, block => some block
  | n + 1, j, block => do
    let x ← read len block i
    let y ← read len block j
    let block ← (if x ≥ y then exchange len block i j else some block)
    bubbleRound len i n (j + 1) block

/-- `bubbleSort`, from `i` on for `n` elements. -/
def bubbleSort (len : Nat) (right : Int) : Nat → Int → (Int → T) → Option (Int → T)
  | 0, _, block => some block
  | n + 1, i, block => do
    let block ← bubbleRound len i (right - i).toNat (i + 1) block
    bubbleSort len right n (i + 1) block

/-- The first inner loop of `q_sort`. -/
def scanRight (len : Nat) (block : Int → T) (pivot left : Int) : Nat → Int → Option Int
  | 0, _ => none
  | fuel + 1, right => do
    let x ← read len block right
    let y ← read len block pivot
    if x ≥ y ∧ left < right then scanRight len block pivot left fuel (right - 1) else some right

/-- The second inner loop of `q_sort`. -/
def scanLeft (len : Nat) (block : Int → T) (pivot right : Int) : Nat → Int → Option Int
  | 0, _ => none
  | fuel + 1, left => do
    let x ← read len block left
    let y ← read len block pivot
    if x ≤ y ∧ left < right then scanLeft len block pivot right fuel (left + 1) else some left

/-- The outer loop of `q_sort`. -/
def partition (len : Nat) (pivot : Int) : Nat → (Int → T) → Int → Int → Option ((Int → T) × Int)
  | 0, _, _, _ => none
  | fuel + 1, block, left, right =>
    if left < right then do
      let right ← scanRight len block pivot left (right - left + 1).toNat right
      let left ← scanLeft len block pivot right (right - left + 1).toNat left
      let block ← (if left < right then exchange len block left right else some block)
      partition len pivot fuel block left right
    else some (block, left)

def qSort (changeOverSize : Int) (len : Nat) : Nat → (Int → T) → Int → Int → Option (Int → T)
  | 0, _, _, _ => none
  | fuel + 1, block, left, right =>
    if left ≥ right then some block
    else if left + right ≥ 2 ^ 31 then none
    else do
      let block ← exchange len block ((left + right).tdiv 2) left
      if right - left ≤ changeOverSize then bubbleSort len right (right - left + 1).toNat left block
      else do
        let (block, pivot) ← partition len left (right - left + 1).toNat block left right
        let block ← exchange len block pivot left
        let block ← (if left < pivot then qSort changeOverSize len fuel block left
          (pivot - 1) else some block)
        if right > pivot then qSort changeOverSize len fuel block (pivot + 1) right else some block

/-- `quickSort`. `len - 1` is made an `int`. -/
def quickSort (changeOverSize : Int) (len : Nat) (block : Int → T) : Option (Int → T) :=
  qSort changeOverSize len (len + 1) block 0 (Int.bmod (len - 1) (2 ^ 32))

def SortedOn (lo hi : Int) (b : Int → T) : Prop := ∀ i j, lo ≤ i → i ≤ j → j ≤ hi → b i ≤ b j

variable (total : ∀ x y : T, x ≤ y ∨ y ≤ x)

include total

theorem bubbleRound_spec (n : Nat) (h0 : 0 ≤ i) (hij : i < j) (hlen : j + n ≤ len) :
    ∃ b', bubbleRound len i n j b = some b' ∧ Rearranged i (j + n - 1) b b' ∧ b' i ≤ b i ∧
      (∀ k, i < k → k < j → b' k = b k) ∧ ∀ k, j ≤ k → k < j + n → b' i ≤ b' k := by
  induction n generalizing j b with
  | zero => exact ⟨b, rfl, .refl .., le_rfl, fun _ _ _ => rfl, fun k h1 h2 => by omega⟩
  | succ n ih =>
    obtain ⟨b1, hb1, hre, hle, hji, hout⟩ :
      ∃ b1, (if b i ≥ b j then exchange len b i j else some b) = some b1 ∧
        Rearranged i j b b1 ∧ b1 i ≤ b i ∧ b1 i ≤ b1 j ∧ ∀ k, k ≠ i → k ≠ j → b1 k = b k := by
      by_cases hge : b i ≥ b j
      · obtain ⟨b1, hb1, hre, hi, hj, hout⟩ :=
          exchange_spec h0 (show j < len by omega) ⟨le_rfl, hij.le⟩ ⟨hij.le, le_rfl⟩
        exact ⟨b1, by rw [if_pos hge, hb1], hre, by rwa [hi], by rwa [hi, hj], hout⟩
      · exact ⟨b, if_neg hge, .refl .., le_rfl, (total _ _).resolve_right hge, fun _ _ _ => rfl⟩
    obtain ⟨b', hb', hre', hle', hout', hmin⟩ := ih (show i < j + 1 by omega) (by omega)
    refine ⟨b', ?_, (hre.mono le_rfl (by omega)).trans (hre'.mono le_rfl (by omega)),
      hle'.trans hle, fun k h1 h2 => ?_, fun k h1 h2 => ?_⟩
    · rw [bubbleRound, read, read, if_pos (by omega), if_pos (by omega)]
      change ((if b i ≥ b j then exchange len b i j else some b) >>= bubbleRound len i n (j + 1)) =
        some b'
      rw [hb1]
      exact hb'
    · rw [hout' k h1 (by omega), hout k (by omega) (by omega)]
    · rcases eq_or_lt_of_le h1 with rfl | hlt
      · rw [hout' j hij (by omega)]
        exact hle'.trans hji
      · exact hmin k hlt (by omega)

theorem bubbleSort_spec (n : Nat) (h0 : 0 ≤ i) (hn : (n : Int) = right - i + 1)
    (hlen : right < len) :
    ∃ b', bubbleSort len right n i b = some b' ∧ Rearranged i right b b' ∧ SortedOn i right b' := by
  induction n generalizing i b with
  | zero => exact ⟨b, rfl, .refl .., fun k l h1 h2 h3 => by omega⟩
  | succ n ih =>
    obtain ⟨b1, hb1, hre, -, -, hmin⟩ :=
      bubbleRound_spec total (right - i).toNat h0 (show i < i + 1 by omega)
        (show i + 1 + ((right - i).toNat) ≤ len by omega)
    obtain ⟨b', hb', hre', hsorted⟩ := ih (show 0 ≤ i + 1 by omega) (by omega)
    refine ⟨b', by rw [bubbleSort, hb1]; exact hb', (hre.mono le_rfl (by omega)).trans
      (hre'.mono (by omega) le_rfl), ?_⟩
    intro k l h1 h2 h3
    rcases eq_or_lt_of_le h1 with rfl | hlt
    · rcases eq_or_lt_of_le h2 with rfl | hlt'
      · exact le_rfl
      · obtain ⟨m, hm, heq⟩ := hre'.inside ⟨Int.add_one_le_of_lt hlt', h3⟩
        rw [heq, hre'.outside (by omega)]
        exact hmin m hm.1 (by omega)
    · exact hsorted k l hlt h2 h3

omit total

theorem scanRight_spec (fuel : Nat) (h0 : 0 ≤ left) (hlr : left ≤ right) (hlen : right < len)
    (hp : 0 ≤ p ∧ p < len)
    (hfuel : right - left < fuel) :
    ∃ r, scanRight len b p left fuel right = some r ∧ left ≤ r ∧ r ≤ right ∧
    (∀ k, r < k → k ≤ right → b p ≤ b k) ∧
      (r = left ∨ ¬ b p ≤ b r) := by
  induction fuel generalizing right with
  | zero => omega
  | succ fuel ih =>
    rw [scanRight, read, read, if_pos ⟨h0.trans hlr, hlen⟩, if_pos hp]
    change ∃ r, (if b right ≥ b p ∧ left < right then _ else _) = some r ∧ _
    split_ifs with h
    · obtain ⟨r, hr, h1, h2, hge, hstop⟩ :=
        ih (show left ≤ right - 1 by omega) (by omega) (by omega)
      refine ⟨r, hr, h1, by omega, fun k hk hk' => ?_, hstop⟩
      rcases eq_or_lt_of_le hk' with rfl | hlt
      · exact h.1
      · exact hge k hk (by omega)
    · refine ⟨right, rfl, hlr, le_rfl, fun k h1 h2 => by omega, ?_⟩
      rcases eq_or_lt_of_le hlr with rfl | hlt
      · exact .inl rfl
      · exact .inr fun hge => h ⟨hge, hlt⟩

theorem scanLeft_spec (fuel : Nat) (h0 : 0 ≤ left) (hlr : left ≤ right) (hlen : right < len)
    (hp : 0 ≤ p ∧ p < len)
    (hfuel : right - left < fuel) :
    ∃ l, scanLeft len b p right fuel left = some l ∧ left ≤ l ∧ l ≤ right ∧
    (∀ k, left ≤ k → k < l → b k ≤ b p) ∧
      (l = right ∨ ¬ b l ≤ b p) := by
  induction fuel generalizing left with
  | zero => omega
  | succ fuel ih =>
    rw [scanLeft, read, read, if_pos ⟨h0, hlr.trans_lt hlen⟩, if_pos hp]
    change ∃ l, (if b left ≤ b p ∧ left < right then _ else _) = some l ∧ _
    split_ifs with h
    · obtain ⟨l, hl, h1, h2, hle, hstop⟩ := ih (show 0 ≤ left + 1 by omega) (by omega) (by omega)
      refine ⟨l, hl, by omega, h2, fun k hk hk' => ?_, hstop⟩
      rcases eq_or_lt_of_le hk with rfl | hlt
      · exact h.1
      · exact hle k hlt hk'
    · refine ⟨left, rfl, le_rfl, hlr, fun k h1 h2 => by omega, ?_⟩
      rcases eq_or_lt_of_le hlr with rfl | hlt
      · exact .inl rfl
      · exact .inr fun hle => h ⟨hle, hlt⟩

include total

/-- Where the partition stops, nothing on the left is above the pivot, and nothing on the right
below it. -/
theorem partition_spec (fuel : Nat) {r0 : Int} (h0 : 0 ≤ p) (hpl : p ≤ left) (hlr : left ≤ right)
    (hr : right ≤ r0)
    (hlen : r0 < len) (hfuel : right - left < fuel) (hle : ∀ k, p ≤ k → k ≤ left → b k ≤ b p)
    (hge : ∀ k, right < k → k ≤ r0 → b p ≤ b k) :
    ∃ b' l, partition len p fuel b left right = some (b', l) ∧ Rearranged p r0 b b' ∧
    p ≤ l ∧ l ≤ r0 ∧
      (∀ k, p ≤ k → k ≤ l → b' k ≤ b' p) ∧ ∀ k, l < k → k ≤ r0 → b' p ≤ b' k := by
  induction fuel generalizing b left right with
  | zero => omega
  | succ fuel ih =>
    rw [partition]
    by_cases hlt : left < right
    swap
    · obtain rfl : left = right := by omega
      exact ⟨b, left, if_neg hlt, .refl .., hpl, hr, hle, hge⟩
    have hin : 0 ≤ p ∧ p < len := by omega
    obtain ⟨r, hscan, hr1, hr2, hge', hstop⟩ :=
      scanRight_spec (b := b) (right - left + 1).toNat (show 0 ≤ left by omega) hlr
        (by omega) hin (by omega)
    obtain ⟨l, hscan', hl1, hl2, hle', hstop'⟩ :=
      scanLeft_spec (b := b) (r - left + 1).toNat (show 0 ≤ left by omega) hr1
        (by omega) hin (by omega)
    rw [if_pos hlt, hscan]
    change ∃ b' l', (scanLeft len b p r (r - left + 1).toNat left >>= fun l =>
      (if l < r then exchange len b l r else some b) >>= fun b => partition len p fuel b l r) =
      some (b', l') ∧ _
    have hbelow : ∀ k, p ≤ k → k < l → b k ≤ b p := fun k h1 h2 =>
      (le_or_gt k left).elim (hle k h1) fun h => hle' k h.le h2
    have habove : ∀ k, r < k → k ≤ r0 → b p ≤ b k := fun k h1 h2 =>
      (le_or_gt k right).elim (hge' k h1) fun h => hge k h h2
    have hlast : l = r ∨ ¬ r = left → b r ≤ b p := fun h => by
      rcases hstop with heq | hnot
      · exact heq ▸ hle left hpl le_rfl
      · exact (total _ _).resolve_left hnot
    obtain ⟨b1, hb1, hre, hpivot, hle1, hge1, hless⟩ :
      ∃ b1, (if l < r then exchange len b l r else some b) = some b1 ∧
        Rearranged p r0 b b1 ∧ b1 p = b p ∧ (∀ k, p ≤ k → k ≤ l → b1 k ≤ b p) ∧
        (∀ k, r < k → k ≤ r0 → b p ≤ b1 k) ∧ r - l < fuel := by
      by_cases hswap : l < r
      · have hnot := hstop'.resolve_left hswap.ne
        have hne : l ≠ left := fun h => hnot (h ▸ hle left hpl le_rfl)
        obtain ⟨b1, hb1, hre, hl, hr, hout⟩ :=
          exchange_spec h0 hlen (show p ≤ l ∧ l ≤ r0 by omega) (show p ≤ r ∧ r ≤ r0 by omega)
        refine ⟨b1, by rw [if_pos hswap, hb1], hre, hout p (by omega) (by omega), fun k h1 h2 => ?_,
          fun k h1 h2 => ?_, by omega⟩
        · rcases eq_or_lt_of_le h2 with rfl | hlt
          · rw [hl]
            exact hlast (.inr (by omega))
          · rw [hout k (by omega) (by omega)]
            exact hbelow k h1 hlt
        · rw [hout k (by omega) (by omega)]
          exact habove k h1 h2
      · obtain rfl : l = r := by omega
        refine ⟨b, if_neg hswap, .refl .., rfl, fun k h1 h2 => ?_, habove, by omega⟩
        rcases eq_or_lt_of_le h2 with rfl | hlt
        · exact hlast (.inl rfl)
        · exact hbelow k h1 hlt
    obtain ⟨b', l', hb', hre', h1, h2, hle2, hge2⟩ := ih (show p ≤ l by omega) hl2 (by omega) hless
      (fun k h1 h2 => hpivot ▸ hle1 k h1 h2) fun k h1 h2 => hpivot ▸ hge1 k h1 h2
    refine ⟨b', l', ?_, hre.trans hre', h1, h2, hle2, hge2⟩
    rw [hscan', ← hb']
    change ((if l < r then exchange len b l r else some b) >>= _) = _
    rw [hb1]
    rfl

/-- Sorts `left..right` and moves nothing outside of it. -/
theorem q_sort_spec (changeOverSize : Int) (hlen : len ≤ 2 ^ 30 + 1) (fuel : Nat) (h0 : 0 ≤ left)
    (hr : right < len)
    (hpos : 0 < fuel) (hfuel : right - left < fuel) :
    ∃ b', qSort changeOverSize len fuel b left right = some b' ∧ Rearranged left right b b' ∧
    SortedOn left right b' := by
  induction fuel generalizing b left right with
  | zero => omega
  | succ fuel ih =>
    rw [qSort]
    by_cases hge : left ≥ right
    · refine ⟨b, if_pos hge, .refl .., fun i j h1 h2 h3 => ?_⟩
      rw [show i = j by omega]
    obtain ⟨b1, hb1, hre1, -⟩ := exchange_spec (i := (left + right).tdiv 2) (j := left) h0 hr
      (by rw [Int.tdiv_eq_ediv_of_nonneg (by omega)]; omega) (by omega)
    rw [if_neg hge, if_neg (by omega), hb1]
    change ∃ b',
      (if right - left ≤ changeOverSize then bubbleSort len right (right - left + 1).toNat left
        b1 else _) =
      some b' ∧ _
    split_ifs with hsmall
    · obtain ⟨b', hb', hre, hsorted⟩ :=
        bubbleSort_spec total (right - left + 1).toNat h0 (by omega) hr
      exact ⟨b', hb', hre1.trans hre, hsorted⟩
    obtain ⟨b2, p, hb2, hre2, hp1, hp2, hle, hge'⟩ :=
      partition_spec total (right - left + 1).toNat h0 le_rfl
      (show left ≤ right by omega) le_rfl hr (by omega)
        (fun k h1 h2 => by rw [show k = left by omega])
      fun k h1 h2 => by omega
    rw [hb2]
    obtain ⟨b3, hb3, hre3, hat, hat', hout⟩ := exchange_spec (j := left) h0 hr ⟨hp1, hp2⟩ (by omega)
    change ∃ b', (exchange len b2 p left >>= fun b =>
      (if left < p then qSort changeOverSize len fuel b left (p - 1) else some b) >>= fun b =>
      if right > p then qSort changeOverSize len fuel b (p + 1) right else some b) = some b' ∧ _
    rw [hb3]
    -- the pivot is where it belongs, and what the calls do to the two sides of it stays there
    have hlow : ∀ k, left ≤ k → k < p → b3 k ≤ b3 p := fun k h1 h2 => by
      rw [hat]
      rcases eq_or_lt_of_le h1 with rfl | hlt
      · exact hat' ▸ hle p hp1 le_rfl
      · exact hout k (by omega) (by omega) ▸ hle k h1 h2.le
    have hhigh : ∀ k, p < k → k ≤ right → b3 p ≤ b3 k := fun k h1 h2 => by
      rw [hat, hout k (by omega) (by omega)]
      exact hge' k h1 h2
    obtain ⟨b4, hb4, hre4, hsorted4⟩ : ∃ b4,
        (if left < p then qSort changeOverSize len fuel b3 left (p - 1) else some b3) = some b4 ∧
          Rearranged left (p - 1) b3 b4 ∧ SortedOn left (p - 1) b4 := by
      split_ifs with h
      · exact ih h0 (by omega) (by omega) (by omega)
      · exact ⟨b3, rfl, .refl .., fun i j h1 h2 h3 => by omega⟩
    obtain ⟨b5, hb5, hre5, hsorted5⟩ : ∃ b5,
        (if right > p then qSort changeOverSize len fuel b4 (p + 1) right else some b4) = some b5 ∧
          Rearranged (p + 1) right b4 b5 ∧ SortedOn (p + 1) right b5 := by
      split_ifs with h
      · exact ih (by omega) hr (by omega) (by omega)
      · exact ⟨b4, rfl, .refl .., fun i j h1 h2 h3 => by omega⟩
    have hlow5 : ∀ k, left ≤ k → k ≤ p → b5 k ≤ b3 p := fun k h1 h2 => by
      rw [hre5.outside (by omega)]
      rcases eq_or_lt_of_le h2 with rfl | hlt
      · rw [hre4.outside (by omega)]
      · obtain ⟨m, hm, heq⟩ := hre4.inside ⟨h1, Int.le_sub_one_of_lt hlt⟩
        exact heq ▸ hlow m hm.1 (by omega)
    have hhigh5 : ∀ k, p ≤ k → k ≤ right → b3 p ≤ b5 k := fun k h1 h2 => by
      rcases eq_or_lt_of_le h1 with rfl | hlt
      · rw [hre5.outside (by omega), hre4.outside (by omega)]
      · obtain ⟨m, hm, heq⟩ := hre5.inside ⟨Int.add_one_le_of_lt hlt, h2⟩
        rw [heq, hre4.outside (by omega)]
        exact hhigh m (by omega) hm.2
    refine ⟨b5, ?_,
      hre1.trans
        (hre2.trans
          (hre3.trans ((hre4.mono le_rfl (by omega)).trans (hre5.mono (by omega) le_rfl)))),
      fun i j h1 h2 h3 => ?_⟩
    · change ((if left < p then qSort changeOverSize len fuel b3 left (p - 1) else some b3) >>= _) =
        _
      rw [hb4]
      exact hb5
    · rcases lt_or_ge j p with hj | hj
      · rw [hre5.outside (by omega), hre5.outside (by omega)]
        exact hsorted4 i j h1 h2 (by omega)
      · rcases le_or_gt i p with hi | hi
        · exact (hlow5 i h1 hi).trans (hhigh5 j hj h3)
        · exact hsorted5 i j hi h2 h3

/-- **`quickSort` sorts.** -/
theorem quickSort_sorts (changeOverSize : Int) (hlen : len ≤ 2 ^ 30 + 1) (block : Int → T) :
    ∃ block' : Int → T, quickSort changeOverSize len block = some block' ∧
      (∃ σ : Equiv.Perm Int, (∀ i, ¬ (0 ≤ i ∧ i < len) → σ i = i) ∧ block' = block ∘ σ) ∧
      ∀ i j : Int, 0 ≤ i → i ≤ j → j < len → block' i ≤ block' j := by
  have hright : Int.bmod (len - 1) (2 ^ 32) = len - 1 := Int.bmod_eq_of_le (by omega) (by omega)
  obtain ⟨b', hb', ⟨σ, hσ, heq⟩, hsorted⟩ := q_sort_spec total changeOverSize
    hlen (len + 1) le_rfl (show (len : Int) - 1 < len by omega) (by omega) (by omega)
  refine ⟨b', ?_, ⟨σ, fun i hi => hσ i (by omega), heq⟩, fun i j h1 h2 h3 =>
    hsorted i j h1 h2 (by omega)⟩
  rw [quickSort, hright, hb']

omit total

theorem quickSort_sorts_three :
    ∃ block' : Int → Nat, quickSort 0 3 (fun i => 5 - i.toNat) = some block' ∧
    (∃ σ : Equiv.Perm Int, (∀ i, ¬ (0 ≤ i ∧ i < (3 : Nat)) → σ i = i) ∧
    block' = (fun i => 5 - i.toNat) ∘ σ) ∧
    ∀ i j : Int, 0 ≤ i → i ≤ j → j < (3 : Nat) → block' i ≤ block' j :=
  quickSort_sorts le_total 0 (by decide) fun i => 5 - i.toNat

theorem partition_const (x : T) (n : Nat) (h0 : 0 ≤ p) (hlt : p < right) (hr : right < len) :
    partition len p (n + 2) (fun _ => x) p right = some (fun _ => x, p) := by
  obtain ⟨r, hscan, -, -, -, hstop⟩ :=
    scanRight_spec (b := fun _ => x) (p := p) (right - p + 1).toNat h0 hlt.le hr
    (by omega) (by omega)
  obtain rfl : r = p := hstop.resolve_right (not_not.mpr le_rfl)
  have hread : read len (fun _ => x) r = some x := if_pos (by omega)
  simp [partition, hscan, scanLeft, hread]

/-- The range gets shorter from the left, until the sum of its ends is no `int`. -/
theorem q_sort_const (x : T) (fuel : Nat) (h0 : 0 ≤ left) (hlt : left < right) (hr : right < len)
    (hlarge : 2 ^ 31 < 2 * right) :
    qSort 0 len fuel (fun _ => x) left right = none := by
  induction fuel generalizing left with
  | zero => rfl
  | succ fuel ih =>
    have hexchange :
      ∀ i, left ≤ i ∧ i ≤ right → exchange len (fun _ => x) i left = some fun _ => x :=
      fun i hi => by
      obtain ⟨b', hb', ⟨σ, -, rfl⟩, -⟩ := exchange_spec (j := left) h0 hr hi (by omega)
      exact hb'
    obtain ⟨n, hn⟩ : ∃ n, (right - left + 1).toNat = n + 2 := ⟨(right - left - 1).toNat, by omega⟩
    rw [qSort, if_neg (by omega)]
    by_cases hsum : left + right ≥ 2 ^ 31
    · exact if_pos hsum
    rw [hexchange _ (by rw [Int.tdiv_eq_ediv_of_nonneg (by omega)]; omega), hn]
    simp [partition_const x n h0 hlt hr, hexchange left (by omega), hlt,
      ih (show 0 ≤ left + 1 by omega) (by omega)]

/-- The last two of 2 ^ 30 + 2 elements are where the sum of the indices is no `int`. -/
theorem not_quickSort_sorts : ¬ ∀ (changeOverSize : Int) (len : Nat) (block : Int → Nat),
    ∃ block' : Int → Nat, quickSort changeOverSize len block = some block' ∧
      (∃ σ : Equiv.Perm Int, (∀ i, ¬ (0 ≤ i ∧ i < len) → σ i = i) ∧ block' = block ∘ σ) ∧
      ∀ i j : Int, 0 ≤ i → i ≤ j → j < len → block' i ≤ block' j := by
  intro hsorts
  obtain ⟨block', hsort, -⟩ := hsorts 0 (2 ^ 30 + 2) fun _ => 0
  rw [quickSort, q_sort_const 0 _ le_rfl (by decide) (by decide) (by decide)] at hsort
  cases hsort

end CkVec

end CharmRuntime.Util
