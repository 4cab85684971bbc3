import Mathlib.Tactic.Ring

/-!
# Matrix.Store

What the MATRIX schedulers share: texts in a ZHT store.

The store maps keys to texts. `lookup` leaves its result empty when there is no
record, as `HTWorker::lookup_shared` does, and `compareSwap` replaces the record
only when it is the text the caller has seen; either way it reports the record
as it is afterwards. Numbers go through the store as text: `numToStr` and
`strToNum` are the `stringstream` conversions of `util.h`, where a number that
does not fit the type is read as 0.
-/

namespace CharmRuntime.Matrix

/-- A `std::string`. -/
abbrev Text := List Char

/-! ### Numbers as text -/

/-- The characters `operator>>` skips. -/
def isSpace (c : Char) : Bool :=
  c = ' ' || ('\t' ≤ c && c ≤ '\r')

/-- `num_to_str`. -/
def numToStr : Int → Text
  | .ofNat n => Nat.toDigits 10 n
  | .negSucc n => '-' :: Nat.toDigits 10 (n + 1)

/-- The values of a signed type with `bits` bits. -/
def Fits (bits : Nat) (v : Int) : Prop :=
  -2 ^ (bits - 1) ≤ v ∧ v < 2 ^ (bits - 1)

instance (bits : Nat) (v : Int) : Decidable (Fits bits v) :=
  inferInstanceAs (Decidable (_ ∧ _))

/-- The sign and what follows it. -/
def sign : Text → Bool × Text
  | '-' :: rest => (true, rest)
  | '+' :: rest => (false, rest)
  | rest => (false, rest)

/-- `str_to_num` into a signed type with `bits` bits. -/
def strToNum (bits : Nat) (str : Text) : Int :=
  let (negative, rest) := sign (str.dropWhile isSpace)
  let digits := rest.takeWhile Char.isDigit
  if digits = [] then 0
  else
    let n := Nat.ofDigitChars 10 digits 0
    let v : Int := if negative then -n else n
    if Fits bits v then v else 0

theorem plain_of_isDigit {c : Char} (h : c.isDigit = true) :
    isSpace c = false ∧ c ≠ '-' ∧ c ≠ '+' := by
  have hle : '0' ≤ c := by
    simp only [Char.isDigit, Bool.and_eq_true, decide_eq_true_eq] at h
    exact h.1
  have hval : '0'.val.toNat ≤ c.val.toNat := hle
  refine ⟨?_, ?_, ?_⟩
  · have hne : c ≠ ' ' := by
      rintro rfl
      exact absurd hval (by decide)
    have hnle : ¬ c ≤ '\r' := by
      intro hc
      have hc' : c.val.toNat ≤ '\r'.val.toNat := hc
      have hlt : '\r'.val.toNat < '0'.val.toNat := by decide
      omega
    simp only [isSpace, hne, hnle, decide_false, Bool.and_false, Bool.or_false]
  · rintro rfl
    exact absurd hval (by decide)
  · rintro rfl
    exact absurd hval (by decide)

section Digits

variable {digits : Text}

theorem sign_digits (h : ∀ c ∈ digits, c.isDigit = true) : sign digits = (false, digits) := by
  cases digits with
  | nil => rfl
  | cons c l =>
    obtain ⟨-, hminus, hplus⟩ := plain_of_isDigit (h c List.mem_cons_self)
    refine sign.eq_3 _ ?_ ?_
    · rintro rest h
      exact hminus (List.cons.inj h).1
    · rintro rest h
      exact hplus (List.cons.inj h).1

theorem takeWhile_digits (h : ∀ c ∈ digits, c.isDigit = true) :
    digits.takeWhile Char.isDigit = digits := by
  have happend := @List.takeWhile_append_of_pos _ _ _ [] h
  simpa only [List.append_nil, List.takeWhile_nil] using happend

theorem dropWhile_digits (h : ∀ c ∈ digits, c.isDigit = true) :
    digits.dropWhile isSpace = digits := by
  cases digits with
  | nil => rfl
  | cons c l =>
    have hc := (plain_of_isDigit (h c List.mem_cons_self)).1
    simp only [List.dropWhile_cons, hc, Bool.false_eq_true, if_false]

end Digits

theorem isDigit_of_mem_toDigits (n : Nat) : ∀ c ∈ Nat.toDigits 10 n, c.isDigit = true := fun _ hc =>
  Nat.isDigit_of_mem_toDigits (by decide) (by decide) hc

theorem strToNum_numToStr {bits : Nat} {v : Int} (h : Fits bits v) :
    strToNum bits (numToStr v) = v := by
  cases v with
  | ofNat n =>
    have hfits : Fits bits n := h
    simp only [strToNum, numToStr, dropWhile_digits (isDigit_of_mem_toDigits n),
      sign_digits (isDigit_of_mem_toDigits n), takeWhile_digits (isDigit_of_mem_toDigits n),
      Nat.toDigits_ne_nil, Nat.ofDigitChars_ten_toDigits, Bool.false_eq_true, if_false,
      if_pos hfits]
    rfl
  | negSucc n =>
    have hneg : -(n + 1 : Nat) = Int.negSucc n := rfl
    have hspace : isSpace '-' = false := by decide
    simp only [strToNum, numToStr, List.dropWhile_cons, hspace, Bool.false_eq_true, if_false, sign,
      takeWhile_digits (isDigit_of_mem_toDigits (n + 1)), Nat.toDigits_ne_nil,
      Nat.ofDigitChars_ten_toDigits, if_true, hneg, if_pos h]

theorem fits_strToNum {bits : Nat} (str : Text) : Fits bits (strToNum bits str) := by
  have hzero : Fits bits 0 := by
    have hpos : (0 : Int) < 2 ^ (bits - 1) := Int.pow_pos (by decide)
    exact ⟨by omega, hpos⟩
  have hread : ∀ v : Int, Fits bits (if Fits bits v then v else 0) := by
    intro v
    split
    · next hfits => exact hfits
    · exact hzero
  rw [strToNum]
  obtain ⟨-, rest⟩ := sign (str.dropWhile isSpace)
  by_cases hdigits : rest.takeWhile Char.isDigit = []
  · simp only [if_pos hdigits]
    exact hzero
  · simp only [if_neg hdigits]
    exact hread _

theorem numToStr_ne_nil (v : Int) : numToStr v ≠ [] := by
  cases v with
  | ofNat n => exact Nat.toDigits_ne_nil
  | negSucc n => exact List.cons_ne_nil _ _

theorem mem_numToStr {v : Int} {c : Char} (h : c ∈ numToStr v) : c = '-' ∨ c.isDigit = true := by
  cases v with
  | ofNat n => exact .inr (Nat.isDigit_of_mem_toDigits (by decide) (by decide) h)
  | negSucc n =>
    obtain rfl | hc := List.mem_cons.mp h
    · exact .inl rfl
    · exact .inr (Nat.isDigit_of_mem_toDigits (by decide) (by decide) hc)

/-! ### The ZHT store -/

/-- The records of the store; a missing record is the empty text. -/
abbrev Store := Text → Text

namespace Store

/-- `ZHTClient::lookup`. -/
def lookup (store : Store) (key : Text) : Text := store key

/-- `ZHTClient::insert`. -/
def insert (store : Store) (key value : Text) : Store := Function.update store key value

/-- `ZHTClient::compare_swap`: the new store, whether the return code is 0, and
the record reported in the last argument. -/
def compareSwap (store : Store) (key seen new : Text) : Store × Bool × Text :=
  if seen = store.lookup key then
    let store' := store.insert key new
    (store', true, store'.lookup key)
  else (store, false, store.lookup key)

@[simp]
theorem lookup_insert_self (store : Store) (key value : Text) :
    (store.insert key value).lookup key = value :=
  Function.update_self ..

theorem lookup_insert_of_ne (store : Store) {key key' : Text} (value : Text) (h : key' ≠ key) :
    (store.insert key value).lookup key' = store.lookup key' :=
  Function.update_of_ne h ..

/-- What a call of `compare_swap` does. -/
theorem compareSwap_cases (store : Store) (key seen new : Text) :
    seen = store.lookup key ∧ store.compareSwap key seen new = (store.insert key new, true, new) ∨
    seen ≠ store.lookup key ∧ store.compareSwap key seen new =
    (store, false, store.lookup key) := by
  by_cases h : seen = store.lookup key
  · exact .inl ⟨h, by simp only [compareSwap, h, if_true, lookup_insert_self]⟩
  · exact .inr ⟨h, by simp only [compareSwap, h, if_false]⟩

end Store

end CharmRuntime.Matrix
