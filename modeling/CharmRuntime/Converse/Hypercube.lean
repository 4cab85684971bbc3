import Mathlib.Data.List.Nodup
import Mathlib.Data.List.Perm.Basic
import Mathlib.Data.Nat.Bitwise

/-!
# Converse.Hypercube

The **hypercube broadcast** (`HypercubeGetBcastDestinations` in `conv-core/convcore.c`).

A processor reached with level `k` has the block of `2^(k+1)` processors around it to
serve: at each level `j` from `k` down it hands one half to a processor of that half,
which is then reached with level `j - 1`, and keeps its own. The partner may not exist;
then another one of the half stands in for it, if there is any.

Processor numbers and levels are `int`s that do not overflow: processors below `2^31`,
levels up to `30`.
-/

namespace CharmRuntime.Converse

open List Nat

/-- `(~0u)<<k`. -/
def highMask (k : Nat) : Nat := (2 ^ 32 - 1) <<< k % 2 ^ 32

/-- One round of the loop: the destination at level `k`, if it counts. -/
def bcastDestination (mype totalPes k : Nat) : Option Nat :=
  let dest := mype ^^^ (1 <<< k)
  let dest :=
    if dest ≥ totalPes then
      let dest := dest &&& highMask k
      if totalPes > dest then dest + (mype - (mype &&& highMask k)) % (totalPes - dest) else dest
    else dest
  if dest < totalPes then some dest else none

/-- The loop from level `n - 1` down to `0`: the destinations with their levels. -/
def bcastLoop (mype totalPes : Nat) : Nat → List (Nat × Nat)
  | 0 => []
  | k + 1 => ((bcastDestination mype totalPes k).map (·, k)).toList ++ bcastLoop mype totalPes k

/-- The rounds of `for ( ; k>=0; --k)`. -/
def rounds (k : Int) : Nat := (k + 1).toNat

/-- `HypercubeGetBcastDestinations`: `dest_pes`, as far as `num_pes`. -/
def hypercubeGetBcastDestinations (mype totalPes : Nat) (k : Int) : List Nat :=
  (bcastLoop mype totalPes (rounds k)).map Prod.fst

theorem level_lt_of_mem_bcastLoop {mype totalPes n : Nat} {p : Nat × Nat}
    (h : p ∈ bcastLoop mype totalPes n) :
    p.2 < n := by
  induction n with
  | zero => cases h
  | succ k ih =>
    cases mem_append.mp h with
    | inl hnew =>
      obtain ⟨-, -, rfl⟩ := Option.map_eq_some_iff.mp (Option.mem_toList.mp hnew)
      exact lt_succ_self k
    | inr hrest => exact lt_succ_of_lt (ih hrest)

/-- The processors a broadcast reaches from `pe`, which was reached with level `k`, each
as often as it is reached. -/
def reached (totalPes pe : Nat) (k : Int) : List Nat :=
  pe :: (bcastLoop pe totalPes (rounds k)).attach.flatMap fun p =>
  reached totalPes p.1.1 (p.1.2 - 1)
termination_by rounds k
decreasing_by
  have hlt := level_lt_of_mem_bcastLoop p.2
  simp only [rounds] at hlt ⊢
  omega

/-! ### Halves of blocks -/

/-- Clearing the bits below `k`. -/
theorem and_highMask {x k : Nat} (hx : x < 2 ^ 32) (hk : k < 32) :
    x &&& highMask k = x / 2 ^ k * 2 ^ k := by
  refine eq_of_testBit_eq fun i => ?_
  rw [highMask, testBit_and, testBit_mod_two_pow, testBit_shiftLeft, testBit_two_pow_sub_one,
    testBit_mul_two_pow, testBit_div_two_pow]
  by_cases hki : k ≤ i
  · by_cases hi : i < 32
    · have hlt : i - k < 32 := by omega
      simp [hki, hi, hlt]
    · have hbit : x.testBit i = false :=
        testBit_lt_two_pow (lt_of_lt_of_le hx (Nat.pow_le_pow_right (by decide) (by omega)))
      simp [hbit, hki]
  · simp [hki]

theorem partner_div (mype k : Nat) : (mype ^^^ (1 <<< k)) / 2 ^ k = mype / 2 ^ k ^^^ 1 := by
  rw [← shiftRight_eq_div_pow, ← shiftRight_eq_div_pow, shiftRight_xor_distrib,
    shiftLeft_shiftRight]

/-- The half of number `b`, and its partner, make up a block. -/
theorem half_or_partner (a b : Nat) : a / 2 = b / 2 ↔ a = b ^^^ 1 ∨ a = b := by
  have hdiv : (b ^^^ 1) / 2 = b / 2 := by
    rw [xor_div_two]
    exact Nat.xor_zero _
  have hmod : (b ^^^ 1) % 2 = (b + 1) % 2 := xor_mod_two_eq
  omega

theorem div_succ_eq_iff (q pe k : Nat) :
    q / 2 ^ (k + 1) = pe / 2 ^ (k + 1) ↔ q / 2 ^ k = pe / 2 ^ k ^^^ 1 ∨ q / 2 ^ k = pe / 2 ^ k := by
  rw [pow_succ, ← Nat.div_div_eq_div_mul, ← Nat.div_div_eq_div_mul]
  exact half_or_partner _ _

theorem partner_ne (b : Nat) : b ^^^ 1 ≠ b := by
  have hmod : (b ^^^ 1) % 2 = (b + 1) % 2 := xor_mod_two_eq
  omega

variable {totalPes pe k : Nat}

/-- **One round**: a processor of the other half, unless there is none. -/
theorem bcastDestination_cases (htotal : totalPes < 2 ^ 31) (hpe : pe < totalPes) (hk : k ≤ 30) :
    (∃ dest, bcastDestination pe totalPes k = some dest ∧ dest < totalPes ∧
    dest / 2 ^ k = pe / 2 ^ k ^^^ 1) ∨
      (bcastDestination pe totalPes k = none ∧ ∀ q < totalPes, q / 2 ^ k ≠ pe / 2 ^ k ^^^ 1) := by
  have hpos : 0 < 2 ^ k := Nat.two_pow_pos k
  have hdiv := partner_div pe k
  have hlt : pe ^^^ (1 <<< k) < 2 ^ 32 := by
    have hone : 1 <<< k < 2 ^ 32 := by
      rw [one_shiftLeft]
      exact Nat.pow_lt_pow_right (by decide) (by omega)
    exact xor_lt_two_pow (by omega) hone
  unfold bcastDestination
  generalize hpartner : pe ^^^ (1 <<< k) = partner at hdiv hlt
  by_cases hthere : partner ≥ totalPes
  · -- the first processor of the other half
    have hfirst := and_highMask hlt (show k < 32 by omega)
    simp only [if_pos hthere, hfirst, hdiv]
    generalize pe / 2 ^ k ^^^ 1 = half
    by_cases hsome : totalPes > half * 2 ^ k
    · have hspan : 0 < totalPes - half * 2 ^ k := Nat.sub_pos_of_lt hsome
      generalize hshare : (pe - (pe &&& highMask k)) % (totalPes - half * 2 ^ k) = share
      have hle : share ≤ pe - (pe &&& highMask k) := hshare ▸ mod_le _ _
      have hrest : pe - (pe &&& highMask k) < 2 ^ k := by
        rw [and_highMask (by omega) (by omega), mul_comm, ← mod_eq_sub_mul_div]
        exact mod_lt pe hpos
      have hshare : share < totalPes - half * 2 ^ k := hshare ▸ mod_lt _ hspan
      have hdest : half * 2 ^ k + share < totalPes := by omega
      refine .inl ⟨half * 2 ^ k + share, ?_, hdest, ?_⟩
      · simp [hsome, hdest]
      · rw [mul_comm, mul_add_div hpos, div_eq_of_lt (lt_of_le_of_lt hle hrest), add_zero]
    · refine .inr ⟨?_, fun q hq heq => hsome ?_⟩
      · simp [hsome]
      · have hq' := div_mul_le_self q (2 ^ k)
        rw [heq] at hq'
        exact lt_of_le_of_lt hq' hq
  · have hdest : partner < totalPes := Nat.lt_of_not_le hthere
    exact .inl ⟨partner, by simp [hthere], hdest, hdiv⟩

/-! ### The broadcast -/

/-- The processors of the block of `2^n` around `pe`. -/
def block (totalPes n pe : Nat) :
    List Nat := (List.range totalPes).filter fun q => q / 2 ^ n = pe / 2 ^ n

theorem mem_block {n q : Nat} :
    q ∈ block totalPes n pe ↔ q < totalPes ∧ q / 2 ^ n = pe / 2 ^ n := by
  simp [block]

theorem nodup_block (totalPes n pe : Nat) : (block totalPes n pe).Nodup := nodup_range.filter _

theorem block_succ_perm {dest : Nat} (hdest : dest / 2 ^ k = pe / 2 ^ k ^^^ 1) :
    (block totalPes (k + 1) pe).Perm (block totalPes k dest ++ block totalPes k pe) := by
  have hapart : ∀ q ∈ block totalPes k dest, ∀ q' ∈ block totalPes k pe, q ≠ q' := by
    intro q hq q' hq' heq
    refine partner_ne (pe / 2 ^ k) ?_
    rw [← hdest, ← (mem_block.mp hq).2, heq, (mem_block.mp hq').2]
  refine (perm_ext_iff_of_nodup (nodup_block _ _ _)
    (nodup_append.mpr ⟨nodup_block _ _ _, nodup_block _ _ _, hapart⟩)).mpr fun q => ?_
  rw [mem_append, mem_block, mem_block, mem_block, div_succ_eq_iff, hdest]
  exact and_or_left

theorem block_succ_eq (hnone : ∀ q < totalPes, q / 2 ^ k ≠ pe / 2 ^ k ^^^ 1) :
    block totalPes (k + 1) pe = block totalPes k pe := by
  refine filter_congr fun q hq => ?_
  rw [decide_eq_decide, div_succ_eq_iff]
  exact or_iff_right (hnone q (mem_range.mp hq))

theorem block_zero (hpe : pe < totalPes) : block totalPes 0 pe = [pe] := by
  have hsame : block totalPes 0 pe = (range totalPes).filter (· = pe) := by
    simp [block]
  rw [hsame, filter_eq, count_eq_one_of_mem nodup_range (mem_range.mpr hpe)]
  rfl

theorem reached_eq (totalPes pe : Nat) (k : Int) : reached totalPes pe k =
      pe :: (bcastLoop pe totalPes (rounds k)).flatMap fun p => reached totalPes p.1 (p.2 - 1) := by
  rw [reached, flatMap_subtype (g := fun p => reached totalPes p.1 (p.2 - 1)) fun _ _ => rfl,
    unattach_attach]

/-- Level `n` hands the other half over and goes on with level `n - 1`. -/
theorem reached_succ (totalPes pe n : Nat) : (reached totalPes pe n).Perm
      ((bcastDestination pe totalPes n).toList.flatMap
        (fun dest => reached totalPes dest (n - 1 : Int)) ++
        reached totalPes pe (n - 1 : Int)) := by
  have hrounds : rounds n = rounds (n - 1) + 1 := by
    simp only [rounds]
    omega
  have hlevel : rounds (n - 1) = n := by
    simp only [rounds]
    omega
  rw [reached_eq, reached_eq totalPes pe (n - 1), hrounds, hlevel, bcastLoop, flatMap_append]
  cases bcastDestination pe totalPes n with
  | none => exact .refl _
  | some dest =>
    exact perm_middle.symm

/-- **A processor reached with level `n - 1` serves its block of `2^n`.** -/
theorem reached_perm_block (htotal : totalPes < 2 ^ 31) {n : Nat} (hn : n ≤ 31) :
    ∀ {pe : Nat}, pe < totalPes →
    (reached totalPes pe (n - 1 : Int)).Perm (block totalPes n pe) := by
  induction n with
  | zero =>
    intro pe hpe
    rw [block_zero hpe, reached_eq]
    exact .refl _
  | succ k ih =>
    intro pe hpe
    have hlevel : ((k + 1 : Nat) : Int) - 1 = k := by omega
    rw [hlevel]
    refine (reached_succ totalPes pe k).trans ?_
    have hkept := ih (by omega) hpe
    obtain ⟨dest, hdest, hlt, hhalf⟩ | ⟨hnone, hempty⟩ :=
      bcastDestination_cases htotal hpe (show k ≤ 30 by omega)
    · rw [hdest, Option.toList_some, flatMap_singleton]
      exact ((ih (by omega) hlt).append hkept).trans (block_succ_perm hhalf).symm
    · rw [hnone, Option.toList_none, flatMap_nil, block_succ_eq hempty]
      exact hkept

theorem bcastDestination_lt {dest : Nat} (h : bcastDestination pe totalPes k = some dest) :
    dest < totalPes := by
  have hguard : ∀ d : Nat, (if d < totalPes then some d else none) = some dest →
    dest < totalPes := by
    intro d hd
    by_cases hlt : d < totalPes
    · rw [if_pos hlt] at hd
      exact Option.some.inj hd ▸ hlt
    · rw [if_neg hlt] at hd
      cases hd
  exact hguard _ h

theorem lt_of_mem_destinations {level : Int} {dest : Nat}
    (h : dest ∈ hypercubeGetBcastDestinations pe totalPes level) :
    dest < totalPes := by
  obtain ⟨p, hp, rfl⟩ := mem_map.mp h
  generalize rounds level = n at hp
  induction n with
  | zero => cases hp
  | succ k ih =>
    cases mem_append.mp hp with
    | inl hnew =>
      obtain ⟨dest, hdest, rfl⟩ := Option.map_eq_some_iff.mp (Option.mem_toList.mp hnew)
      exact bcastDestination_lt hdest
    | inr hrest => exact ih hrest

/-- **The hypercube broadcast reaches every processor exactly once**, and has no destination
outside. -/
theorem broadcast_reaches_once {root : Nat} {K : Int} (htotal : totalPes < 2 ^ 31)
    (hroot : root < totalPes)
    (hK : -1 ≤ K) (hK' : K ≤ 30) (hcover : totalPes ≤ 2 ^ rounds K) :
    (∀ pe < totalPes, (reached totalPes root K).count pe = 1) ∧
      (∀ pe ∈ reached totalPes root K, pe < totalPes) ∧
      ∀ pe level, ∀ dest ∈ hypercubeGetBcastDestinations pe totalPes level, dest < totalPes := by
  have hlevel : K = (rounds K) - 1 := by
    simp only [rounds]
    omega
  have hrounds : rounds K ≤ 31 := by
    omega
  have hperm := reached_perm_block htotal hrounds hroot
  rw [← hlevel] at hperm
  -- one block has all of them
  have hblock : block totalPes (rounds K) root = range totalPes := by
    refine filter_eq_self.mpr fun q hq => ?_
    rw [decide_eq_true_iff, div_eq_of_lt (lt_of_lt_of_le (mem_range.mp hq) hcover),
      div_eq_of_lt (lt_of_lt_of_le hroot hcover)]
  rw [hblock] at hperm
  refine ⟨fun pe hpe => ?_, fun pe hpe => mem_range.mp (hperm.mem_iff.mp hpe), fun _ _ _ =>
    lt_of_mem_destinations⟩
  rw [hperm.count_eq]
  exact count_eq_one_of_mem nodup_range (mem_range.mpr hpe)

/-- Six processors, from processor 4. -/
theorem broadcast_reaches_once_six :
    (∀ pe < 6, (reached 6 4 2).count pe = 1) ∧ (∀ pe ∈ reached 6 4 2, pe < 6) ∧
      ∀ pe level, ∀ dest ∈ hypercubeGetBcastDestinations pe 6 level, dest < 6 :=
  broadcast_reaches_once (by decide) (by decide) (by decide) (by decide) (by decide)

example : hypercubeGetBcastDestinations 4 6 2 = [0, 5] := by decide

end CharmRuntime.Converse
