import Mathlib.Data.List.Nodup

/-!
# Lib.SlotTable

**Elements in slots.** Each element has a key, and each key a slot. In a table that is `Placed`
every element is in the slot of its key and no two elements of a slot have the same key, so that
an element is found by its key (`find_eq_some_iff`).

`deal` puts the elements of a list into empty slots, each to the front of its slot. Dealing out
what another table holds, by other slots, gives a table with the same elements (`Placed.find_deal`).
-/

namespace CharmRuntime.Lib

open Function List

variable {α κ : Type}

/-- A table of slots. -/
abbrev SlotTable (α : Type) := Nat → List α

namespace SlotTable

/-- Every element is in the slot of its key, and is the only one with the key. -/
structure Placed (key : α → κ) (slot : κ → Nat) (b : SlotTable α) : Prop where
  slot_eq : ∀ i, ∀ a ∈ b i, slot (key a) = i
  nodup : ∀ i, ((b i).map key).Nodup

variable {key : α → κ} {slot : κ → Nat} {b : SlotTable α}

theorem placed_empty : Placed key slot fun _ => [] where
  slot_eq _ _ ha := absurd ha not_mem_nil
  nodup _ := nodup_nil

/-- One slot is replaced. -/
theorem Placed.update (h : Placed key slot b) {i : Nat} {l : List α}
    (hl : ∀ a ∈ l, slot (key a) = i)
    (hnodup : (l.map key).Nodup) : Placed key slot (Function.update b i l) where
  slot_eq j a ha := by
    by_cases hj : j = i
    · subst hj
      rw [update_self] at ha
      exact hl a ha
    · rw [update_of_ne hj] at ha
      exact h.slot_eq j a ha
  nodup j := by
    by_cases hj : j = i
    · subst hj
      rw [update_self]
      exact hnodup
    · rw [update_of_ne hj]
      exact h.nodup j

/-! ### Dealing out -/

/-- To the front of its slot. -/
def push (key : α → κ) (slot : κ → Nat) (b : SlotTable α) (a : α) : SlotTable α :=
  Function.update b (slot (key a)) (a :: b (slot (key a)))

def deal (key : α → κ) (slot : κ → Nat) (l : List α) :
    SlotTable α := l.foldl (push key slot) fun _ => []

/-- What the first `n` slots hold. -/
def elements (n : Nat) (b : SlotTable α) : List α := (List.range n).flatMap b

theorem foldl_push_apply (l : List α) (b : SlotTable α) (i : Nat) :
    l.foldl (push key slot) b i = (l.filter fun a => slot (key a) = i).reverse ++ b i := by
  induction l generalizing b with
  | nil => rfl
  | cons a l ih =>
    rw [foldl_cons, ih, push]
    by_cases hi : slot (key a) = i
    · subst hi
      simp
    · simp [hi, update_of_ne (symm hi)]

theorem deal_apply (l : List α) (i : Nat) :
    deal key slot l i = (l.filter fun a => slot (key a) = i).reverse := by
  rw [deal, foldl_push_apply, append_nil]

theorem placed_deal {l : List α} (h : (l.map key).Nodup) : Placed key slot (deal key slot l) where
  slot_eq i a ha := by
    rw [deal_apply, mem_reverse] at ha
    simpa using (mem_filter.mp ha).2
  nodup i := by
    rw [deal_apply, map_reverse, nodup_reverse]
    exact h.sublist (filter_sublist.map key)

theorem Placed.nodup_elements (h : Placed key slot b) (n : Nat) :
    ((elements n b).map key).Nodup := by
  rw [elements, map_flatMap]
  refine nodup_flatMap.mpr ⟨fun i _ => h.nodup i, nodup_range.imp fun {i j} hne => ?_⟩
  intro k hi hj
  obtain ⟨a, ha, rfl⟩ := mem_map.mp hi
  obtain ⟨c, hc, hkey⟩ := mem_map.mp hj
  exact hne ((h.slot_eq i a ha).symm.trans ((congrArg slot hkey.symm).trans (h.slot_eq j c hc)))

/-! ### How many there are -/

theorem elements_succ (n : Nat) (b : SlotTable α) : elements (n + 1) b = elements n b ++ b n := by
  rw [elements, range_succ, flatMap_append, flatMap_singleton, elements]

variable {n : Nat} {k : κ} {a : α} {pre post : List α}

theorem elements_update_of_le {i : Nat} (hi : n ≤ i) (l : List α) :
    elements n (Function.update b i l) = elements n b := by
  refine flatMap_congr fun j hj => ?_
  have hlt := mem_range.mp hj
  exact update_of_ne (by omega) _ _

/-- One slot is replaced. -/
theorem length_elements_update {i : Nat} (hi : i < n) (l : List α) :
    (elements n (Function.update b i l)).length + (b i).length = (elements n b).length +
    l.length := by
  induction n with
  | zero => exact absurd hi (Nat.not_lt_zero i)
  | succ n ih =>
    rw [elements_succ, elements_succ, length_append, length_append]
    obtain hlt | rfl := Nat.lt_succ_iff_lt_or_eq.mp hi
    · rw [update_of_ne (Nat.ne_of_gt hlt)]
      omega
    · rw [update_self, elements_update_of_le (Nat.le_refl i)]
      omega

theorem length_elements_foldl_push (hn : ∀ k, slot k < n) (l : List α) (b : SlotTable α) :
    (elements n (l.foldl (push key slot) b)).length = (elements n b).length + l.length := by
  induction l generalizing b with
  | nil => rfl
  | cons a l ih =>
    have hlength := length_elements_update (b := b) (hn (key a)) (a :: b (slot (key a)))
    rw [foldl_cons, ih, length_cons, push]
    rw [length_cons] at hlength
    omega

/-- None is lost when they are dealt out. -/
theorem length_elements_deal (hn : ∀ k, slot k < n) (l : List α) :
    (elements n (deal key slot l)).length = l.length := by
  have hempty : elements n (fun _ => ([] : List α)) = [] := flatMap_eq_nil_iff.mpr fun _ _ => rfl
  rw [deal, length_elements_foldl_push hn, hempty, length_nil, Nat.zero_add]

/-! ### Finding -/

variable [DecidableEq κ]

/-- The element with the key. -/
def find (key : α → κ) (slot : κ → Nat) (b : SlotTable α) (k : κ) : Option α :=
  (b (slot k)).find? fun a => key a = k

/-- In a list with different keys, an element is found by its key. -/
theorem find?_key_eq_some_iff {l : List α} (h : (l.map key).Nodup) :
    l.find? (fun a => key a = k) = some a ↔ a ∈ l ∧ key a = k := by
  constructor
  · intro hfind
    exact ⟨mem_of_find?_eq_some hfind, by simpa using find?_some hfind⟩
  · rintro ⟨ha, rfl⟩
    induction l with
    | nil => cases ha
    | cons c l ih =>
      obtain ⟨hc, hl⟩ := nodup_cons.mp h
      obtain rfl | ha := mem_cons.mp ha
      · simp
      · have hne : key c ≠ key a := fun heq => hc (heq ▸ mem_map_of_mem ha)
        rw [find?_cons_of_neg (by simpa using hne)]
        exact ih hl ha

theorem Placed.find_eq_some_iff (h : Placed key slot b) :
    find key slot b k = some a ↔ a ∈ b (slot k) ∧ key a = k :=
  find?_key_eq_some_iff (h.nodup _)

theorem find?_key_eq_none_iff {l : List α} :
    l.find? (fun a => key a = k) = none ↔ k ∉ l.map key := by
  simp

/-- A key in a list: it is not there, or there is a first one with it, which `eraseP` takes away. -/
theorem key_cases (key : α → κ) (k : κ) (l : List α) :
    (k ∉ l.map key ∧ ¬ l.any (fun a => key a = k)) ∨
      ∃ pre a post, l = pre ++ a :: post ∧ k ∉ pre.map key ∧ key a = k ∧
      l.any (fun a => key a = k) ∧
        l.eraseP (fun a => key a = k) = pre ++ post := by
  by_cases hany : l.any fun a => key a = k
  · obtain ⟨p, hp, hpk⟩ := any_eq_true.mp hany
    obtain ⟨a, pre, post, hnone, ha, hsplit, herase⟩ :=
      exists_of_eraseP (p := fun a => decide (key a = k)) hp hpk
    refine .inr ⟨pre, a, post, hsplit, fun hmem => ?_, by simpa using ha, hany, herase⟩
    obtain ⟨b, hb, hbk⟩ := mem_map.mp hmem
    exact hnone b hb (decide_eq_true hbk)
  · refine .inl ⟨fun hmem => ?_, hany⟩
    obtain ⟨b, hb, hbk⟩ := mem_map.mp hmem
    exact hany (any_eq_true.mpr ⟨b, hb, decide_eq_true hbk⟩)

/-- An element whose key is not in front of it. -/
theorem find?_key_split (h : key a ∉ pre.map key) (k : κ) :
    (pre ++ a :: post).find? (fun c => key c = k) = if k =
    key a then some a else (pre ++ post).find? fun c => key c = k := by
  by_cases hk : k = key a
  · subst hk
    rw [find?_append, find?_key_eq_none_iff.mpr h]
    simp
  · simp [hk, Ne.symm hk]

/-- **One slot is replaced**: only one of its keys is affected. -/
theorem find_update {l : List α} {o : Option α} (hself : l.find? (fun a => key a = k) = o)
    (hother : ∀ k', k' ≠ k → l.find? (fun a => key a = k') = (b (slot k)).find? fun a =>
    key a = k') :
    find key slot (Function.update b (slot k) l) = Function.update (find key slot b) k o := by
  funext k'
  by_cases hk : k' = k
  · subst hk
    rw [update_self, find, update_self, hself]
  · rw [update_of_ne hk, find]
    by_cases hslot : slot k' = slot k
    · rw [hslot, update_self, hother k' hk, find, hslot]
    · rw [update_of_ne hslot, find]

/-- An element with a new key is put into its slot. -/
theorem Placed.add (h : Placed key slot b) (hnew : key a ∉ (b (slot (key a))).map key)
    (hold : b (slot (key a)) = pre ++ post) :
    Placed key slot (Function.update b (slot (key a)) (pre ++ a :: post)) ∧
      find key slot (Function.update b (slot (key a)) (pre ++ a :: post)) =
        Function.update (find key slot b) (key a) (some a) := by
  have hperm : ((pre ++ a :: post).map key).Perm (key a :: (b (slot (key a))).map key) := by
    rw [hold]
    exact perm_middle.map key
  have hpre : key a ∉ pre.map key := by
    rw [hold, map_append, mem_append] at hnew
    exact fun hmem => hnew (.inl hmem)
  refine ⟨h.update (fun c hc => ?_) ?_, find_update ?_ fun k hk => ?_⟩
  · obtain hc | hc := mem_cons.mp (perm_middle.mem_iff.mp hc)
    · rw [hc]
    · exact h.slot_eq _ c (hold ▸ hc)
  · exact hperm.nodup_iff.mpr (nodup_cons.mpr ⟨hnew, h.nodup _⟩)
  · rw [find?_key_split hpre, if_pos rfl]
  · rw [find?_key_split hpre, if_neg hk, hold]

/-- An element is replaced by one with the same key. -/
theorem Placed.replace (h : Placed key slot b) {a' : α}
    (hold : b (slot (key a)) = pre ++ a :: post) (hpre : key a ∉ pre.map key)
    (hkey : key a' = key a) :
    Placed key slot (Function.update b (slot (key a)) (pre ++ a' :: post)) ∧
      find key slot (Function.update b (slot (key a)) (pre ++ a' :: post)) =
        Function.update (find key slot b) (key a) (some a') := by
  have hkeys : (pre ++ a' :: post).map key = (b (slot (key a))).map key := by
    rw [hold]
    simp [hkey]
  refine ⟨h.update (fun c hc => ?_) (hkeys ▸ h.nodup _), find_update ?_ fun k hk => ?_⟩
  · obtain ⟨d, hd, heq⟩ := mem_map.mp (hkeys ▸ mem_map_of_mem hc)
    rw [← heq]
    exact h.slot_eq _ d hd
  · rw [find?_key_split (hkey ▸ hpre), if_pos hkey.symm]
  · rw [hold, find?_key_split (hkey ▸ hpre), if_neg (hkey ▸ hk), find?_key_split hpre, if_neg hk]

/-- An element is taken out. -/
theorem Placed.erase (h : Placed key slot b)
    (hold : b (slot (key a)) = pre ++ a :: post) (hpre : key a ∉ pre.map key) :
    Placed key slot (Function.update b (slot (key a)) (pre ++ post)) ∧
      find key slot (Function.update b (slot (key a)) (pre ++ post)) =
        Function.update (find key slot b) (key a) none := by
  have hnodup := h.nodup (slot (key a))
  have hperm : ((pre ++ a :: post).map key).Perm (key a :: (pre ++ post).map key) :=
    perm_middle.map key
  rw [hold, hperm.nodup_iff, nodup_cons] at hnodup
  refine ⟨h.update (fun c hc => ?_) hnodup.2, find_update ?_ fun k hk => ?_⟩
  · exact h.slot_eq _ c (hold ▸ perm_middle.mem_iff.mpr (mem_cons_of_mem _ hc))
  · exact find?_key_eq_none_iff.mpr hnodup.1
  · rw [hold, find?_key_split hpre, if_neg hk]

/-- **Dealing out a table again** keeps its elements. -/
theorem Placed.find_deal {slot' : κ → Nat} (h : Placed key slot b) (hn : ∀ k, slot k < n) (k : κ) :
    find key slot' (deal key slot' (elements n b)) k = find key slot b k := by
  have hplaced : Placed key slot' (deal key slot' (elements n b)) :=
    placed_deal (h.nodup_elements n)
  refine Option.ext fun a => ?_
  rw [hplaced.find_eq_some_iff, h.find_eq_some_iff, deal_apply, mem_reverse, mem_filter, elements,
    mem_flatMap]
  constructor
  · rintro ⟨⟨⟨i, -, ha⟩, -⟩, rfl⟩
    obtain rfl := h.slot_eq i a ha
    exact ⟨ha, rfl⟩
  · rintro ⟨ha, rfl⟩
    exact ⟨⟨⟨_, mem_range.mpr (hn _), ha⟩, by simp⟩, rfl⟩

end SlotTable

end CharmRuntime.Lib
