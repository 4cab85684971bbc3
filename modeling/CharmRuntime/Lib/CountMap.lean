import Mathlib.Tactic.Ring
import Mathlib.Data.List.AList
import Mathlib.Data.List.Perm.Basic

/-!
# Lib.CountMap

A hash map as `AList`, whose values weigh something. `tokens` lists every key as often as its
value weighs, so that to raise a weight is to add a token and to lower one is to take a token away.
What a client redeems is then compared with what was granted as one list with another.
-/

namespace CharmRuntime.Lib

open List

/-- A map from keys to values, in no order that matters. -/
abbrev HashMap (κ β : Type) := AList (fun _ : κ => β)

namespace HashMap

variable {κ β : Type}

/-- Every key, as often as its value weighs. -/
def tokens (w : β → Nat) (m : HashMap κ β) :
    List κ := m.entries.flatMap fun e => List.replicate (w e.2) e.1

/-- The number of tokens is the total weight. -/
theorem length_tokens (w : β → Nat) (m : HashMap κ β) :
    (tokens w m).length = (m.entries.map (w ·.2)).sum := by
  simp [tokens]

variable [DecidableEq κ] {w : β → Nat} {m : HashMap κ β} {k : κ}

theorem count_replicates {l : List (Sigma fun _ : κ => β)} (h : l.NodupKeys) (k : κ) :
    (l.flatMap fun e => List.replicate (w e.2) e.1).count k = (l.dlookup k).elim 0 w := by
  induction l with
  | nil => rfl
  | cons e l ih =>
    obtain ⟨a, b⟩ := e
    obtain ⟨hnot, hl⟩ := nodupKeys_cons.mp h
    rw [flatMap_cons, count_append, ih hl, count_replicate]
    by_cases ha : a = k
    · subst ha
      simp [dlookup_eq_none.mpr hnot]
    · rw [dlookup_cons_ne l ⟨a, b⟩ (symm ha)]
      simp [ha]

/-- The weight of a key. -/
theorem count_tokens (k : κ) : (tokens w m).count k = (m.lookup k).elim 0 w :=
  count_replicates m.nodupKeys k

theorem mem_tokens : k ∈ tokens w m ↔ ∃ b, m.lookup k = some b ∧ 0 < w b := by
  rw [← count_pos_iff, count_tokens]
  cases hk : m.lookup k with
  | none => simp
  | some b => simp

/-- A new key. -/
theorem tokens_insert_new {b : β} (h : m.lookup k = none) :
    tokens w (m.insert k b) = List.replicate (w b) k ++ tokens w m := by
  rw [tokens, AList.entries_insert_of_notMem (AList.lookup_eq_none.mp h)]
  rfl

/-- A weight raised by one. -/
theorem tokens_insert_succ {b : β} (h : w b = (m.lookup k).elim 0 w + 1) :
    (tokens w (m.insert k b)).Perm (k :: tokens w m) := by
  refine perm_iff_count.mpr fun k' => ?_
  rw [count_cons, count_tokens, count_tokens]
  by_cases hk : k' = k
  · subst hk
    simp [h]
  · simp [AList.lookup_insert_ne hk, Ne.symm hk]

/-! ### Counts -/

/-- One less of `k`, of which there are `n`: the key goes with the last. -/
def takeOne (m : HashMap κ Nat) (k : κ) (n : Nat) : HashMap κ Nat :=
  if n = 1 then m.erase k else m.insert k (n - 1)

variable {m : HashMap κ Nat} {n : Nat}

theorem lookup_takeOne_ne {k' : κ} (h : k' ≠ k) : (takeOne m k n).lookup k' = m.lookup k' := by
  rw [takeOne]
  split
  · exact AList.lookup_erase_ne h
  · exact AList.lookup_insert_ne h

theorem lookup_takeOne_self : (takeOne m k n).lookup k = if n = 1 then none else some (n - 1) := by
  rw [takeOne]
  split
  · exact AList.lookup_erase k m
  · exact AList.lookup_insert m

/-- One token is gone. -/
theorem tokens_takeOne (h : m.lookup k = some n) (hn : 0 < n) :
    (tokens id m).Perm (k :: tokens id (takeOne m k n)) := by
  refine perm_iff_count.mpr fun k' => ?_
  rw [count_cons, count_tokens, count_tokens]
  by_cases hk : k' = k
  · subst hk
    rw [h, lookup_takeOne_self]
    by_cases h1 : n = 1
    · simp [h1]
    · simp only [Option.elim_some, id_eq, if_neg h1, beq_self_eq_true, if_true]
      omega
  · rw [lookup_takeOne_ne hk]
    simp [Ne.symm hk]

/-- No key is kept with the count zero. -/
def Positive (m : HashMap κ Nat) : Prop := ∀ k n, m.lookup k = some n → 0 < n

theorem Positive.takeOne (h : Positive m) (hk : m.lookup k = some n) :
    Positive (takeOne m k n) := by
  intro k' _ hk'
  by_cases heq : k' = k
  · subst heq
    rw [lookup_takeOne_self] at hk'
    have hn := h _ _ hk
    split at hk' <;> cases hk'
    omega
  · rw [lookup_takeOne_ne heq] at hk'
    exact h _ _ hk'

/-- The keys are those with a token. -/
theorem Positive.mem_keys (h : Positive m) : k ∈ m.keys ↔ 0 < (tokens id m).count k := by
  rw [← AList.mem_keys, ← AList.lookup_isSome, count_tokens]
  cases hk : m.lookup k with
  | none => simp
  | some n => simpa using h _ _ hk

end HashMap

end CharmRuntime.Lib
