import Mathlib.Tactic.Ring

/-!
# Isomalloc.SlotBins

**The bins of a slot set** (`conv-core/isomalloc.c`, B-tree version). `find_list_bin` gives the
bin of a number of slots, bin `b` being for the blocks of `2^(b-1)+1` to `2^b` slots. It begins
at bin 32 and halves its step down to 1, as a search of the exponents does (`binSearch`). The
loop shifts a 64-bit number, so the proof goes through a loop that checks every shift.
-/

namespace CharmRuntime.Isomalloc

/-! ## The source -/

/-- The loop of `find_list_bin`. No value: it is not over after `fuel` rounds. -/
def binLoop (nslots : Int) : Nat → Int → Int → Nat → Option Int
  | 0, _, _, _ => none
  | fuel + 1, listBin, compNum, inc =>
    if nslots > compNum / 2 ∧ nslots ≤ compNum then some listBin
    else if nslots < compNum then
      binLoop nslots fuel (listBin - inc) (compNum / 2 ^ inc) (if inc / 2 = 0 then 1 else inc / 2)
    else binLoop nslots fuel (listBin + inc) (compNum * 2 ^ inc)
      (if inc / 2 = 0 then 1 else inc / 2)

/-- `find_list_bin`. -/
def findListBin (nslots : Int) : Option Nat := (binLoop nslots 64 32 0x100000000 16).map Int.toNat

/-- `LIST_ARRAY_SIZE`. -/
def listArraySize : Nat := 64

/-! ## The bin of a number -/

/-- `bin` is the number of bits of the next power of two. -/
def InBin (n : Int) (bin : Nat) : Prop := 2 ^ bin < 2 * n ∧ n ≤ 2 ^ bin

/-- The search of `find_list_bin` with the exponents of the powers of two. -/
def binSearch (bin : Nat) : Nat → Nat → Nat → Option Nat
  | 0, _, _ => none
  | fuel + 1, b, inc =>
    if b = bin then some b
    else if bin < b then
      if b < inc then none else binSearch bin fuel (b - inc) (if inc / 2 = 0 then 1 else inc / 2)
    else binSearch bin fuel (b + inc) (if inc / 2 = 0 then 1 else inc / 2)

theorem binSearch_finds : ∀ bin : Fin 63, binSearch bin 64 32 16 = some bin.val := by decide

theorem two_pow_double_le {b c : Nat} (h : b < c) : (2 : Int) ^ b * 2 ≤ 2 ^ c := by
  have hpow : 2 ^ (b + 1) ≤ 2 ^ c := Nat.pow_le_pow_right (by decide) h
  exact_mod_cast hpow

theorem InBin.lt_pow {n : Int} {bin b : Nat} (h : InBin n bin) (hb : b < bin) : 2 ^ b < n := by
  have hpow := two_pow_double_le hb
  have hlt := h.1
  omega

theorem InBin.le_half {n : Int} {bin b : Nat} (h : InBin n bin) (hb : bin < b) : n ≤ 2 ^ b / 2 := by
  have hpow := two_pow_double_le hb
  have hle := h.2
  omega

/-- The result of a shift by `inc`, when it is a number of 63 bits. -/
def shifted (inc : Nat) (compNum : Int) : Option Int :=
  if inc < 64 ∧ 0 ≤ compNum ∧ compNum < 2 ^ 63 then some compNum else none

/-- `binLoop` with a check of each shift. -/
def binLoopChecked (nslots : Int) : Nat → Int → Int → Nat → Option Int
  | 0, _, _, _ => none
  | fuel + 1, listBin, compNum, inc =>
    if nslots > compNum / 2 ∧ nslots ≤ compNum then some listBin
    else if nslots < compNum then do
      let compNum ← shifted inc (compNum / 2 ^ inc)
      binLoopChecked nslots fuel (listBin - inc) compNum (if inc / 2 = 0 then 1 else inc / 2)
    else do
      let compNum ← shifted inc (compNum * 2 ^ inc)
      binLoopChecked nslots fuel (listBin + inc) compNum (if inc / 2 = 0 then 1 else inc / 2)

theorem binLoop_of_checked {n listBin compNum r : Int} {fuel inc : Nat}
    (h : binLoopChecked n fuel listBin compNum inc = some r) :
    binLoop n fuel listBin compNum inc = some r := by
  induction fuel generalizing listBin compNum inc with
  | zero => cases h
  | succ fuel ih =>
    rw [binLoopChecked] at h
    rw [binLoop]
    split at h
    next hfound => rwa [if_pos hfound]
    next hnot =>
      rw [if_neg hnot]
      split at h
      next hleft =>
        obtain ⟨c, hc, h⟩ := Option.bind_eq_some_iff.mp h
        obtain ⟨-, hc⟩ := Option.ite_none_right_eq_some.mp hc
        rw [if_pos hleft, Option.some.inj hc]
        exact ih h
      next hright =>
        obtain ⟨c, hc, h⟩ := Option.bind_eq_some_iff.mp h
        obtain ⟨-, hc⟩ := Option.ite_none_right_eq_some.mp hc
        rw [if_neg hright, Option.some.inj hc]
        exact ih h

theorem shifted_two_pow {b inc : Nat} (hb : b ≤ 62) (hinc : inc ≤ 16) :
    shifted inc (2 ^ b) = some (2 ^ b) := by
  have hpow : (2 : Int) ^ b ≤ 2 ^ 62 := by exact_mod_cast Nat.pow_le_pow_right (by decide) hb
  have hpos : (0 : Int) < 2 ^ b := Int.pow_pos (by decide)
  exact if_pos ⟨by omega, by omega, by omega⟩

/-- The loop follows the search of the exponents. Twice the step is never more than what is left to
the sign bit. -/
theorem binLoopChecked_of_binSearch {n : Int} {bin : Nat} (h : InBin n bin) (hbin : bin ≤ 62)
    {fuel b inc r : Nat}
    (hroom : b + 2 * inc ≤ 64) (hinc0 : 0 < inc) (hinc : inc ≤ 16)
    (hs : binSearch bin fuel b inc = some r) :
    binLoopChecked n fuel b (2 ^ b) inc = some (r : Int) := by
  induction fuel generalizing b inc with
  | zero => cases hs
  | succ fuel ih =>
    rw [binSearch] at hs
    rw [binLoopChecked]
    have hpos : (0 : Int) < 2 ^ b := Int.pow_pos (by decide)
    have hstep :
      0 < (if inc / 2 = 0 then 1 else inc / 2) ∧ (if inc / 2 = 0 then 1 else inc / 2) ≤ 16 ∧
        ((if inc / 2 = 0 then 1 else inc / 2) ≤ inc / 2 ∨ inc = 1 ∧
        (if inc / 2 = 0 then 1 else inc / 2) = 1) := by
      split <;> omega
    split at hs
    next heq =>
      cases hs
      subst heq
      have hlow := h.1
      rw [if_pos ⟨by omega, h.2⟩]
    next hne =>
      split at hs
      next hleft =>
        have hhalf := h.le_half hleft
        split at hs
        next => cases hs
        next hlt =>
          have hle : inc ≤ b := not_lt.mp hlt
          have hdiv : (2 : Int) ^ b / 2 ^ inc = 2 ^ (b - inc) := by
            conv_lhs => rw [← Nat.sub_add_cancel hle, Int.pow_add]
            exact Int.mul_ediv_cancel _ (ne_of_gt (Int.pow_pos (by decide)))
          rw [if_neg (by omega), if_pos (by omega), hdiv,
            shifted_two_pow (by omega) hinc, ← Int.ofNat_sub hle]
          exact ih (by omega) hstep.1 hstep.2.1 hs
      next hright =>
        have hlt := h.lt_pow (lt_of_le_of_ne (not_lt.mp hright) hne)
        rw [if_neg (by omega), if_neg (by omega), ← Int.pow_add, shifted_two_pow (by omega) hinc]
        exact ih (by omega) hstep.1 hstep.2.1 hs

theorem InBin.checked {n : Int} {bin : Nat} (h : InBin n bin) (hbin : bin ≤ 62) :
    binLoopChecked n 64 32 0x100000000 16 = some (bin : Int) :=
  binLoopChecked_of_binSearch h hbin (by decide) (by decide) (by decide)
    (binSearch_finds ⟨bin, Nat.lt_succ_of_le hbin⟩)

/-- **`find_list_bin` finds the bin** of every number up to `2^62`. -/
theorem findListBin_eq {n : Int} {bin : Nat} (h : InBin n bin) (hbin : bin ≤ 62) :
    findListBin n = some bin :=
  congrArg (Option.map Int.toNat) (binLoop_of_checked (h.checked hbin))

theorem exists_inBin {n : Int} (h1 : 1 ≤ n) {k : Nat} (hk : n ≤ 2 ^ k) :
    ∃ bin ≤ k, InBin n bin := by
  induction k with
  | zero => exact ⟨0, le_refl 0, by omega, hk⟩
  | succ k ih =>
    by_cases hle : n ≤ 2 ^ k
    · obtain ⟨bin, hbin, h⟩ := ih hle
      exact ⟨bin, Nat.le_succ_of_le hbin, h⟩
    · refine ⟨k + 1, le_refl _, ?_, hk⟩
      omega

theorem InBin.mono {m n : Int} {bm bn : Nat} (hm : InBin m bm) (hn : InBin n bn) (hle : m ≤ n) :
    bm ≤ bn := by
  by_contra hlt
  have hlow := hm.lt_pow (not_le.mp hlt)
  have hhigh := hn.2
  omega

/-- **The bin is the logarithm, rounded up.** The loop ends within 64 rounds, and no shift leaves
the numbers of 63 bits. -/
theorem find_list_bin_log (n : Int) (h1 : 1 ≤ n) (hn : n ≤ 2 ^ 62) :
    ∃ b < listArraySize, binLoopChecked n 64 32 0x100000000 16 = some (b : Int) ∧
    findListBin n = some b ∧
      ∀ c : Nat, (n ≤ 2 ^ c ∧ (c = 0 ∨ 2 ^ (c - 1) < n)) ↔ c = b := by
  obtain ⟨bin, hle, hbin⟩ := exists_inBin h1 hn
  refine ⟨bin, lt_of_le_of_lt hle (by decide), hbin.checked hle, findListBin_eq hbin hle,
    fun c => ?_⟩
  have hiff : (n ≤ 2 ^ c ∧ (c = 0 ∨ 2 ^ (c - 1) < n)) ↔ InBin n c := by
    rw [and_comm]
    refine and_congr_left fun _ => ?_
    cases c with
    | zero => exact iff_of_true (.inl rfl) (by omega)
    | succ c =>
      rw [Nat.add_sub_cancel]
      omega
  rw [hiff]
  constructor
  · intro hc
    exact le_antisymm (hc.mono hbin (le_refl n)) (hbin.mono hc (le_refl n))
  · rintro rfl
    exact hbin

theorem find_list_bin_log_five :
    ∃ b < listArraySize, binLoopChecked 5 64 32 0x100000000 16 = some (b : Int) ∧
    findListBin 5 = some b ∧ ∀ c : Nat, ((5 : Int) ≤ 2 ^ c ∧ (c = 0 ∨ (2 : Int) ^ (c - 1) < 5)) ↔
    c = b :=
  find_list_bin_log 5 (by decide) (by decide)

end CharmRuntime.Isomalloc
