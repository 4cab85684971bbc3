import Mathlib.Tactic.Ring
import Mathlib.Data.List.Basic

/-!
# Lib.Digits

**Decimal numbers of a fixed width**, with zeros in front, as `%0nlu` prints them. A number that has
more digits takes more room; one that has not is read back from exactly `width` characters.

Decimal numbers without zeros in front can be written behind each other in one way only if it is
known where the second one begins. `append_toDigits_inj_iff` says which pairs of numbers look the
same.
-/

namespace CharmRuntime.Lib

open List Nat

/-- A number with at least `width` digits. -/
def padded (width n : Nat) : List Char :=
  List.replicate (width - (Nat.toDigits 10 n).length) '0' ++ Nat.toDigits 10 n

variable {width n : Nat}

theorem length_padded (h : n < 10 ^ width) (hw : 0 < width) : (padded width n).length = width := by
  have hle : (toDigits 10 n).length ≤ width := (length_toDigits_le_iff (by decide) hw).mpr h
  rw [padded, length_append, length_replicate]
  omega

theorem length_padded_le {k : Nat} (h : n < 10 ^ k) (hk : 0 < k) (hw : width ≤ k) :
    (padded width n).length ≤ k := by
  have hle : (toDigits 10 n).length ≤ k := (length_toDigits_le_iff (by decide) hk).mpr h
  rw [padded, length_append, length_replicate]
  omega

theorem isDigit_of_mem_padded {c : Char} (h : c ∈ padded width n) : c.isDigit = true := by
  obtain h | h := mem_append.mp h
  · rw [eq_of_mem_replicate h]
    rfl
  · exact isDigit_of_mem_toDigits (by decide) (by decide) h

/-- **The number is read back.** -/
theorem ofDigitChars_padded (width n : Nat) : ofDigitChars 10 (padded width n) 0 = n := by
  rw [padded, ofDigitChars_append, ofDigitChars_replicate_zero, Nat.mul_zero,
    ofDigitChars_ten_toDigits]

/-- What a few digits stand for. -/
theorem ofDigitChars_lt {l : List Char} (h : ∀ c ∈ l, c.isDigit = true) (n : Nat) :
    ofDigitChars 10 l n < (n + 1) * 10 ^ l.length := by
  induction l generalizing n with
  | nil => simp
  | cons c l ih =>
    have hc : c.toNat - '0'.toNat < 10 := by
      have hdigit := h c mem_cons_self
      simp only [Char.isDigit, Bool.and_eq_true, decide_eq_true_eq] at hdigit
      have hle : c.val.toNat ≤ '9'.val.toNat := hdigit.2
      have hnine : '9'.val.toNat = 57 := rfl
      have hzero : '0'.toNat = 48 := rfl
      have htoNat : c.toNat = c.val.toNat := rfl
      omega
    have hrest := ih (fun d hd => h d (mem_cons_of_mem c hd)) (10 * n + (c.toNat - '0'.toNat))
    rw [length_cons, pow_succ', ← Nat.mul_assoc]
    exact Nat.lt_of_lt_of_le hrest (mul_le_mul_right _ (by omega))

/-! ### Numbers behind each other -/

theorem toDigits_injective {a b : Nat} (h : toDigits 10 a = toDigits 10 b) : a = b := by
  have hvalue := congrArg (fun l => ofDigitChars 10 l 0) h
  simpa only [ofDigitChars_ten_toDigits] using hvalue

/-- The number of digits. -/
def numDigits (n : Nat) : Nat := (Nat.toDigits 10 n).length

theorem numDigits_pos (n : Nat) : 0 < numDigits n := length_toDigits_pos

/-- The digits of a number behind those of another one that is not 0. -/
theorem toDigits_append {a : Nat} (ha : 0 < a) (q : Nat) :
    toDigits 10 (a * 10 ^ numDigits q + q) = toDigits 10 a ++ toDigits 10 q := by
  induction q using Nat.strongRecOn with
  | _ q ih =>
    by_cases hq : q < 10
    · have hone : numDigits q = 1 := by rw [numDigits, toDigits_of_lt_base hq, length_singleton]
      rw [hone, toDigits_append_toDigits (by decide) ha hq, Nat.mul_comm, Nat.pow_one]
    · have hge : 10 ≤ q := Nat.not_lt.mp hq
      have hsplit := @toDigits_of_base_le 10 q (by decide) hge
      have hlength : numDigits q = numDigits (q / 10) + 1 := by
        rw [numDigits, hsplit, length_append, length_singleton, numDigits]
      have hprefix := ih (q / 10) (by omega)
      have hlast : q % 10 < 10 := mod_lt _ (by decide)
      have hpos : 0 < a * 10 ^ numDigits (q / 10) + q / 10 := by
        omega
      have hvalue :
        a * 10 ^ numDigits q + q = 10 * (a * 10 ^ numDigits (q / 10) + q / 10) + q % 10 := by
        rw [hlength, Nat.pow_succ, ← Nat.mul_assoc]
        omega
      rw [hvalue, ← toDigits_append_toDigits (by decide) hpos hlast, hprefix,
        toDigits_of_lt_base hlast, append_assoc, hsplit]

/-- The first digits of a number are a number, which is not 0 if there are more digits. -/
theorem exists_toDigits_of_prefix {n : Nat} {p s : List Char} (h : toDigits 10 n = p ++ s)
    (hp : p ≠ []) :
    ∃ m, p = toDigits 10 m ∧ (s ≠ [] → 0 < m) := by
  induction n using Nat.strongRecOn generalizing s with
  | _ n ih =>
    obtain rfl | ⟨s', c, rfl⟩ := eq_nil_or_concat' s
    · exact ⟨n, by rw [h, append_nil], fun hne => absurd rfl hne⟩
    · by_cases hn : n < 10
      · rw [toDigits_of_lt_base hn] at h
        have hlength := congrArg length h
        have hpos := length_pos_iff.mpr hp
        simp only [length_singleton, length_append] at hlength
        omega
      · have hge : 10 ≤ n := Nat.not_lt.mp hn
        rw [toDigits_of_base_le (by decide) hge, ← append_assoc] at h
        obtain ⟨hfront, -⟩ := append_inj' h rfl
        obtain ⟨m, hm, hpos⟩ := ih (n / 10) (by omega) hfront
        refine ⟨m, hm, fun _ => ?_⟩
        by_cases hs : s' = []
        · rw [hs, append_nil, hm] at hfront
          have heq := toDigits_injective hfront
          omega
        · exact hpos hs

/-- A part `q` of the second number may as well belong to the first one. -/
def Shifted (a b c d : Nat) : Prop :=
  ∃ q, 0 < q ∧ 0 < a ∧ c = a * 10 ^ numDigits q + q ∧ b = q * 10 ^ numDigits d + d

theorem Shifted.toDigits {a b c d : Nat} (h : Shifted a b c d) :
    toDigits 10 a ++ toDigits 10 b = toDigits 10 c ++ toDigits 10 d ∧ a ≠ c := by
  obtain ⟨q, hq, ha, rfl, rfl⟩ := h
  refine ⟨by rw [toDigits_append ha, toDigits_append hq, append_assoc], ?_⟩
  have hle : a * 1 ≤ a * 10 ^ numDigits q := mul_le_mul_left a (one_le_pow _ _ (by decide))
  omega

theorem shifted_of_append {a b c d : Nat}
    (h : toDigits 10 a ++ toDigits 10 b = toDigits 10 c ++ toDigits 10 d)
    (hlt : numDigits a < numDigits c) : Shifted a b c d := by
  -- the first number is a part of the third, and what is left of that is a part of the second
  obtain ⟨q', hc, hb⟩ | ⟨q', ha, -⟩ := append_eq_append_iff.mp h
  · have hq' : q' ≠ [] := by
      rintro rfl
      rw [numDigits, numDigits, hc, append_nil] at hlt
      exact Nat.lt_irrefl _ hlt
    obtain ⟨q, rfl, hq⟩ := exists_toDigits_of_prefix hb hq'
    obtain ⟨m, hm, hpos⟩ := exists_toDigits_of_prefix hc toDigits_ne_nil
    obtain rfl := toDigits_injective hm
    have ha := hpos hq'
    have hq := hq toDigits_ne_nil
    rw [← toDigits_append ha] at hc
    rw [← toDigits_append hq] at hb
    exact ⟨q, hq, ha, toDigits_injective hc, toDigits_injective hb⟩
  · rw [numDigits, numDigits, ha, length_append] at hlt
    omega

/-- **Two numbers behind each other** are known from their digits, unless a part may be shifted. -/
theorem append_toDigits_inj_iff {a b c d : Nat} :
    (toDigits 10 a ++ toDigits 10 b = toDigits 10 c ++ toDigits 10 d → a = c ∧ b = d) ↔
      ¬ Shifted a b c d ∧ ¬ Shifted c d a b := by
  constructor
  · intro h
    refine ⟨fun hshift => hshift.toDigits.2 (h hshift.toDigits.1).1, fun hshift => ?_⟩
    exact hshift.toDigits.2 (h hshift.toDigits.1.symm).1.symm
  · rintro ⟨hno, hno'⟩ h
    obtain hlt | heq | hgt := Nat.lt_trichotomy (numDigits a) (numDigits c)
    · exact absurd (shifted_of_append h hlt) hno
    · obtain ⟨hac, hbd⟩ := append_inj h heq
      exact ⟨toDigits_injective hac, toDigits_injective hbd⟩
    · exact absurd (shifted_of_append h.symm hgt) hno'

end CharmRuntime.Lib
