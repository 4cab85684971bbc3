import Mathlib.Data.List.Perm.Basic

/-!
# Lib.InFlight

The messages on their way, as a list from which any one may be taken: `net[k]? = some m`
names the message that arrives and `net.eraseIdx k` are those that stay.
-/

namespace CharmRuntime.Lib

open List

variable {α : Type} {net : List α} {k : Nat} {m : α}

/-- The message that arrives stands between the others. -/
theorem eraseIdx_split (h : net[k]? = some m) :
    ∃ l1 l2, net = l1 ++ m :: l2 ∧ net.eraseIdx k = l1 ++ l2 := by
  obtain ⟨-, rfl⟩ := List.getElem?_eq_some_iff.mp h
  refine ⟨net.take k, net.drop (k + 1), ?_, eraseIdx_eq_take_drop_succ net k⟩
  rw [getElem_cons_drop, take_append_drop]

theorem perm_eraseIdx (h : net[k]? = some m) : net.Perm (m :: net.eraseIdx k) := by
  obtain ⟨l1, l2, hnet, herase⟩ := eraseIdx_split h
  rw [herase, hnet]
  exact perm_middle

/-- A member that is replaced where it stands. -/
theorem set_split (h : net[k]? = some m) (m' : α) :
    ∃ l1 l2, net = l1 ++ m :: l2 ∧ net.set k m' = l1 ++ m' :: l2 := by
  obtain ⟨hk, rfl⟩ := List.getElem?_eq_some_iff.mp h
  refine ⟨net.take k, net.drop (k + 1), ?_, set_eq_take_append_cons_drop.trans (if_pos hk)⟩
  rw [getElem_cons_drop, take_append_drop]

theorem count_flatMap_set {β : Type} [BEq β] (h : net[k]? = some m) (m' : α)
    (f : α → List β) (x : β) :
    ((net.set k m').flatMap f).count x + (f m).count x = (net.flatMap f).count x +
    (f m').count x := by
  obtain ⟨l1, l2, hnet, hset⟩ := set_split h m'
  rw [hset, hnet]
  simp only [flatMap_append, flatMap_cons, count_append]
  omega

/-- The messages of a kind, when one of this kind arrives. -/
theorem perm_filter_eraseIdx (h : net[k]? = some m) {P : α → Bool} (hm : P m = true) :
    (net.filter P).Perm (m :: (net.eraseIdx k).filter P) := by
  have hperm := (perm_eraseIdx h).filter P
  rwa [filter_cons_of_pos hm] at hperm

/-- The messages of a kind, when one of another kind arrives. -/
theorem filter_eraseIdx (h : net[k]? = some m) {P : α → Bool} (hm : ¬ P m = true) :
    (net.eraseIdx k).filter P = net.filter P := by
  obtain ⟨l1, l2, hnet, herase⟩ := eraseIdx_split h
  rw [herase, hnet, filter_append, filter_append, filter_cons_of_neg hm]

/-- What the messages say, when one arrives that says nothing. -/
theorem filterMap_eraseIdx_none {β : Type} (h : net[k]? = some m) {f : α → Option β}
    (hm : f m = none) :
    (net.eraseIdx k).filterMap f = net.filterMap f := by
  obtain ⟨l1, l2, hnet, herase⟩ := eraseIdx_split h
  rw [herase, hnet, filterMap_append, filterMap_append, filterMap_cons_none hm]

/-- What the messages say, when one arrives that says `b`. -/
theorem filterMap_eraseIdx_some {β : Type} (h : net[k]? = some m) {f : α → Option β} {b : β}
    (hm : f m = some b) :
    ∃ l1 l2, net.filterMap f = l1 ++ b :: l2 ∧ (net.eraseIdx k).filterMap f = l1 ++ l2 := by
  obtain ⟨l1, l2, hnet, herase⟩ := eraseIdx_split h
  refine ⟨l1.filterMap f, l2.filterMap f, ?_, ?_⟩
  · rw [hnet, filterMap_append, filterMap_cons_some hm]
  · rw [herase, filterMap_append]

/-- A list of which only one member contributes. -/
theorem filterMap_eq_toList {β : Type} {l : List α} {f : α → Option β} {a : α} (hl : l.Nodup)
    (ha : a ∈ l) (hf : ∀ b, b ≠ a → f b = none) : l.filterMap f = (f a).toList := by
  induction l with
  | nil => exact absurd ha not_mem_nil
  | cons b rest ih =>
    obtain ⟨hb, hrest⟩ := nodup_cons.mp hl
    by_cases hab : b = a
    · subst hab
      have hnone : rest.filterMap f = [] := by
        rw [filterMap_eq_nil_iff]
        exact fun c hc => hf c fun hcb => hb (hcb ▸ hc)
      rw [filterMap_cons, hnone]
      cases f b <;> rfl
    · obtain rfl | ha := mem_cons.mp ha
      · exact absurd rfl hab
      · rw [filterMap_cons, hf b hab]
        exact ih hrest ha

end CharmRuntime.Lib
