import Mathlib.Tactic.Ring

/-!
# Lib.Tokens

Splitting a list at its delimiters, with the empty pieces left out.

A text that ends every token with a delimiter is split into these tokens again
(`tokens_flatMap`), also when the delimiter is doubled: this is how
texts with doubled separators such as `~~` are read. In general a token is a part of
the list without a delimiter (`mem_tokens`).
-/

namespace CharmRuntime.Lib

open List

universe u

variable {α : Type u}

/-- A token, when it is not empty. -/
def token : List α → List (List α)
  | [] => []
  | a :: l => [a :: l]

/-- The tokens of a list, of which the first starts with `pre`. -/
def tokensFrom (delim : α → Bool) (pre : List α) : List α → List (List α)
  | [] => token pre
  | a :: l =>
    if delim a then token pre ++ tokensFrom delim [] l else tokensFrom delim (pre ++ [a]) l

/-- The pieces between the delimiters that are not empty. -/
def tokens (delim : α → Bool) (l : List α) : List (List α) := tokensFrom delim [] l

variable {t : List α} {d : α} {ts : List (List α)}

theorem token_of_ne_nil (h : t ≠ []) : token t = [t] := by
  cases t with
  | nil => exact absurd rfl h
  | cons a l => rfl

variable {delim : α → Bool}

@[simp]
theorem tokens_nil : tokens delim [] = [] := rfl

/-- Elements before the next delimiter belong to the token. -/
theorem tokensFrom_append (ht : ∀ a ∈ t, delim a = false) (pre rest : List α) :
    tokensFrom delim pre (t ++ rest) = tokensFrom delim (pre ++ t) rest := by
  induction t generalizing pre with
  | nil => rw [nil_append, append_nil]
  | cons a t ih =>
    have ha : delim a = false := ht a mem_cons_self
    rw [cons_append, tokensFrom, ha, if_neg (by simp), ih fun b hb => ht b (mem_cons_of_mem a hb)]
    rw [append_assoc, singleton_append]

/-- A delimiter at the front is skipped. -/
theorem tokens_cons_delim (hd : delim d = true) (rest : List α) :
    tokens delim (d :: rest) = tokens delim rest := by
  rw [tokens, tokensFrom, if_pos hd]
  rfl

/-- A token and the delimiter after it. -/
theorem tokens_append_delim (hne : t ≠ []) (ht : ∀ a ∈ t, delim a = false)
    (hd : delim d = true) (rest : List α) :
    tokens delim (t ++ d :: rest) = t :: tokens delim rest := by
  rw [tokens, tokensFrom_append ht, nil_append, tokensFrom, if_pos hd, token_of_ne_nil hne]
  rfl

/-- Without a delimiter there is one token at most. -/
theorem tokens_eq_token (ht : ∀ a ∈ t, delim a = false) : tokens delim t = token t := by
  have h := tokensFrom_append ht [] []
  rwa [append_nil] at h

theorem length_token_le (t : List α) : (token t).length ≤ 1 := by
  cases t with
  | nil => exact Nat.zero_le 1
  | cons a t => exact Nat.le_refl 1

theorem mem_token {u : List α} : t ∈ token u ↔ t = u ∧ t ≠ [] := by
  cases u with
  | nil => simp [token]
  | cons a u =>
    simp only [token, mem_singleton]
    exact ⟨fun h => ⟨h, h ▸ cons_ne_nil a u⟩, fun h => h.1⟩

/-- A delimiter ends the tokens before it. -/
theorem tokensFrom_append_delim (hd : delim d = true) (pre l rest : List α) :
    tokensFrom delim pre (l ++ d :: rest) = tokensFrom delim pre l ++ tokens delim rest := by
  induction l generalizing pre with
  | nil => simp only [nil_append, tokensFrom, if_pos hd, tokens]
  | cons a l ih =>
    rw [cons_append, tokensFrom, tokensFrom, ih, ih]
    split
    · rw [append_assoc]
    · rfl

theorem tokens_append_delim_append (hd : delim d = true) (l rest : List α) :
    tokens delim (l ++ d :: rest) = tokens delim l ++ tokens delim rest :=
  tokensFrom_append_delim hd [] l rest

/-- A token is a part of the list, is not empty and has no delimiter. -/
theorem mem_tokensFrom {pre l : List α} (hpre : ∀ a ∈ pre, delim a = false)
    (h : t ∈ tokensFrom delim pre l) :
    t ≠ [] ∧ (∀ a ∈ t, delim a = false) ∧ t <:+: pre ++ l := by
  induction l generalizing pre with
  | nil =>
    obtain ⟨rfl, hne⟩ := mem_token.mp h
    exact ⟨hne, hpre, by simp⟩
  | cons a l ih =>
    rw [tokensFrom] at h
    split at h
    · obtain h | h := mem_append.mp h
      · obtain ⟨rfl, hne⟩ := mem_token.mp h
        exact ⟨hne, hpre, (prefix_append t (a :: l)).isInfix⟩
      · obtain ⟨hne, hdelim, hpart⟩ := ih (by simp) h
        exact ⟨hne, hdelim,
          hpart.trans (((suffix_cons a l).trans (suffix_append pre (a :: l))).isInfix)⟩
    · next ha =>
        have hpre' : ∀ b ∈ pre ++ [a], delim b = false := by
          intro b hb
          obtain hb | hb := mem_append.mp hb
          · exact hpre b hb
          · rw [mem_singleton.mp hb]
            exact Bool.eq_false_iff.mpr ha
        have hrest := ih hpre' h
        rwa [append_assoc] at hrest

theorem mem_tokens {l : List α} (h : t ∈ tokens delim l) :
    t ≠ [] ∧ (∀ a ∈ t, delim a = false) ∧ t <:+: l :=
  mem_tokensFrom (by simp) h

/-- There is at most one token more than delimiters. -/
theorem length_tokensFrom_le (pre l : List α) :
    (tokensFrom delim pre l).length ≤ l.countP delim + 1 := by
  induction l generalizing pre with
  | nil => exact length_token_le pre
  | cons a l ih =>
    rw [tokensFrom, countP_cons]
    split
    · have htoken := length_token_le pre
      have hrest := ih []
      rw [length_append]
      omega
    · exact ih _

theorem length_tokens_le (l : List α) : (tokens delim l).length ≤ l.countP delim + 1 :=
  length_tokensFrom_le [] l

/-- **Terminated tokens are read back**, before what follows them. Each token is followed by the
delimiter `d`, written twice. -/
theorem tokens_flatMap_append (hts : ∀ t ∈ ts, t ≠ [] ∧ ∀ a ∈ t, delim a = false)
    (hd : delim d = true) (rest : List α) :
    tokens delim (ts.flatMap (· ++ [d, d]) ++ rest) = ts ++ tokens delim rest := by
  induction ts with
  | nil => rfl
  | cons t ts ih =>
    obtain ⟨hne, ht⟩ := hts t mem_cons_self
    rw [flatMap_cons, append_assoc, append_assoc, cons_append, cons_append, nil_append,
      tokens_append_delim hne ht hd, tokens_cons_delim hd, ih fun u hu =>
      hts u (mem_cons_of_mem t hu),
      cons_append]

theorem tokens_flatMap (hts : ∀ t ∈ ts, t ≠ [] ∧ ∀ a ∈ t, delim a = false)
    (hd : delim d = true) : tokens delim (ts.flatMap (· ++ [d, d])) = ts := by
  have h := tokens_flatMap_append hts hd []
  rwa [append_nil, tokens_nil, append_nil] at h

end CharmRuntime.Lib
