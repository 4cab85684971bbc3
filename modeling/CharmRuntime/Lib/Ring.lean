import Mathlib.Data.List.Nodup

/-!
# Lib.Ring

**Circular doubly linked lists** over arbitrary nodes: `next` and `prev` give the
links, and a ring is the list of its nodes from one of them on, once around.

The two operations are insertion behind the first node and removal of another one;
both are stated by what they do to the links.
-/

namespace CharmRuntime.Lib

open List

variable {β : Type} {next prev next' prev' : β → Option β}

/-- Neighbours in the list are linked both ways. -/
def Linked (next prev : β → Option β) : List β → Prop
  | a :: b :: l => (next a = some b ∧ prev b = some a) ∧ Linked next prev (b :: l)
  | [_] => True
  | [] => True

/-- The nodes, from the first one once around. -/
def Ring (next prev : β → Option β) : List β → Prop
  | [] => False
  | h :: r => Linked next prev (h :: (r ++ [h]))

/-- Links depend on the `next` of all nodes but the last and the `prev` of all but the
first. -/
theorem Linked.congr : ∀ {l : List β}, Linked next prev l → (∀ a ∈ l.dropLast, next' a = next a) →
    (∀ b ∈ l.tail, prev' b = prev b) → Linked next' prev' l := by
  intro l
  induction l with
  | nil => intro _ _ _; exact trivial
  | cons a l ih =>
    cases l with
    | nil => intro _ _ _; exact trivial
    | cons b l =>
      intro h hn hp
      obtain ⟨⟨h1, h2⟩, h3⟩ := h
      refine ⟨⟨?_, ?_⟩, ih h3 ?_ ?_⟩
      · rw [hn a (by simp), h1]
      · rw [hp b (by simp), h2]
      · intro c hc
        exact hn c (by simp [hc])
      · intro c hc
        exact hp c (by
          exact mem_cons_of_mem b hc)

theorem linked_append : ∀ {l1 : List β} {a : β} {l2 : List β}, Linked next prev (l1 ++ a :: l2) ↔
      Linked next prev (l1 ++ [a]) ∧ Linked next prev (a :: l2) := by
  intro l1
  induction l1 with
  | nil =>
    intro a l2
    exact ⟨fun h => ⟨trivial, h⟩, fun h => h.2⟩
  | cons c l1 ih =>
    intro a l2
    cases l1 with
    | nil =>
      constructor
      · intro h
        exact ⟨⟨h.1, trivial⟩, h.2⟩
      · intro h
        exact ⟨h.1.1, h.2⟩
    | cons d l1 =>
      have hd : Linked next prev ((d :: l1) ++ a :: l2) ↔
          Linked next prev ((d :: l1) ++ [a]) ∧ Linked next prev (a :: l2) := ih
      constructor
      · intro h
        obtain ⟨h1, h2⟩ := hd.mp h.2
        exact ⟨⟨h.1, h1⟩, h2⟩
      · intro h
        exact ⟨h.1.1, hd.mpr ⟨h.1.2, h.2⟩⟩

/-- The node behind the first one: itself if it is alone. -/
def second (h : β) (r : List β) : β := r.headD h

theorem Ring.next_first {h : β} {r : List β} (hr : Ring next prev (h :: r)) :
    next h = some (second h r) ∧ prev (second h r) = some h := by
  cases r with
  | nil => exact hr.1
  | cons x r => exact hr.1

/-- **Insertion** behind the first node. -/
theorem Ring.insert {h n : β} {r : List β} (hr : Ring next prev (h :: r)) (hnd : (h :: r).Nodup)
    (hnext : next' h = some n) (hnext' : next' n = some (second h r))
    (hprev : prev' n = some h) (hprev' : prev' (second h r) = some n)
    (hother : ∀ a ∈ r, next' a = next a)
    (hother' : ∀ b ∈ h :: r, b ≠ second h r → prev' b = prev b) :
    Ring next' prev' (h :: n :: r) := by
  obtain ⟨hh, hnd'⟩ := nodup_cons.mp hnd
  refine ⟨⟨hnext, hprev⟩, ?_⟩
  cases r with
  | nil => exact ⟨⟨hnext', hprev'⟩, trivial⟩
  | cons x r =>
    refine ⟨⟨hnext', hprev'⟩, ?_⟩
    have hrest : Linked next prev (x :: (r ++ [h])) := hr.2
    refine hrest.congr ?_ ?_
    · intro a ha
      have hmem : a ∈ x :: r := by
        rw [← cons_append, dropLast_concat] at ha
        exact ha
      exact hother a hmem
    · intro b hb
      rcases mem_append.mp hb with hb | hb
      · refine hother' b (by simp [hb]) ?_
        intro (heq : b = x)
        exact (nodup_cons.mp hnd').1 (heq ▸ hb)
      · rw [mem_singleton.mp hb]
        exact hother' h (by simp) (fun heq => hh (heq ▸ mem_cons_self))

/-- The node before a node that is not the first. -/
def before (h : β) (r₁ : List β) : β := (h :: r₁).getLast (by simp)

/-- A node that is not the first, with its neighbours. -/
theorem Ring.neighbours {h b : β} {r₁ r2 : List β} (hr : Ring next prev (h :: (r₁ ++ b :: r2))) :
    (next (before h r₁) = some b ∧ prev b = some (before h r₁)) ∧
      (next b = some (second h r2) ∧ prev (second h r2) = some b) := by
  have hlink : Linked next prev ((h :: r₁) ++ b :: (r2 ++ [h])) := by
    simpa [Ring] using hr
  obtain ⟨h1, h2⟩ := linked_append.mp hlink
  constructor
  · have hsplit : (h :: r₁) ++ [b] = (h :: r₁).dropLast ++ before h r₁ :: [b] := by
      have hlast : (h :: r₁).dropLast ++ [before h r₁] = h :: r₁ :=
        dropLast_append_getLast (by simp)
      conv => lhs; rw [← hlast]
      simp
    rw [hsplit] at h1
    exact (linked_append.mp h1).2.1
  · cases r2 with
    | nil => exact h2.1
    | cons x r2 => exact h2.1

/-- **Removal** of a node that is not the first. -/
theorem Ring.remove {h b : β} {r₁ r2 : List β} (hr : Ring next prev (h :: (r₁ ++ b :: r2)))
    (hnd : (h :: (r₁ ++ b :: r2)).Nodup) (hnext : next' (before h r₁) = some (second h r2))
    (hprev : prev' (second h r2) = some (before h r₁))
    (hother : ∀ a ∈ h :: (r₁ ++ r2), a ≠ before h r₁ → next' a = next a)
    (hother' : ∀ c ∈ h :: (r₁ ++ r2), c ≠ second h r2 → prev' c = prev c) :
    Ring next' prev' (h :: (r₁ ++ r2)) := by
  have hlink : Linked next prev ((h :: r₁) ++ b :: (r2 ++ [h])) := by
    simpa [Ring] using hr
  obtain ⟨h1, h2⟩ := linked_append.mp hlink
  have hsplit : (h :: r₁) = (h :: r₁).dropLast ++ [before h r₁] :=
    (dropLast_append_getLast (by simp)).symm
  have hnd2 : ((h :: r₁) ++ b :: r2).Nodup := by simpa using hnd
  obtain ⟨hndl, hndr, hdisj⟩ := nodup_append.mp hnd2
  obtain ⟨-, hndr2⟩ := nodup_cons.mp hndr
  -- the links up to the node before
  have hleft : Linked next' prev' ((h :: r₁).dropLast ++ [before h r₁]) := by
    rw [← hsplit]
    have hold : Linked next prev (h :: r₁) := by
      rw [hsplit]
      rw [hsplit, append_assoc] at h1
      exact (linked_append.mp h1).1
    refine hold.congr ?_ ?_
    · intro a ha
      have hmem : a ∈ h :: r₁ := (dropLast_sublist _).mem ha
      refine hother a ?_ ?_
      · exact mem_append_left _ hmem
      intro heq
      rw [hsplit] at hndl
      exact (nodup_append.mp hndl).2.2 a ha (before h r₁) (by simp) heq
    · intro c hc
      have hmem : c ∈ h :: r₁ := mem_cons_of_mem h hc
      refine hother' c ?_ ?_
      · exact mem_append_left _ hmem
      intro heq
      cases r2 with
      | nil =>
        have hch : c = h := heq
        exact (nodup_cons.mp hndl).1 (hch ▸ hc)
      | cons x r2 => exact hdisj c hmem x (by simp) heq
  -- and from the node behind on
  have hright : ∀ x l, r2 ++ [h] = x :: l → Linked next' prev' (x :: l) := by
    intro x l hx
    have hold : Linked next prev (x :: l) := by
      rw [hx] at h2
      exact h2.2
    refine hold.congr ?_ ?_
    · intro a ha
      rw [← hx, dropLast_concat] at ha
      have hmem : a ∈ b :: r2 := mem_cons_of_mem b ha
      refine hother a (by simp [ha]) ?_
      intro heq
      have hlast : before h r₁ ∈ h :: r₁ := getLast_mem _
      exact hdisj (before h r₁) hlast a hmem heq.symm
    · intro c hc
      cases r2 with
      | nil =>
        obtain ⟨-, rfl⟩ := cons.inj hx
        exact absurd hc (by simp)
      | cons y r2 =>
        obtain ⟨rfl, rfl⟩ := cons.inj hx
        rcases mem_append.mp hc with hc | hc
        · refine hother' c (by simp [hc]) ?_
          intro (heq : c = y)
          exact (nodup_cons.mp hndr2).1 (heq ▸ hc)
        · have hch := mem_singleton.mp hc
          exact hother' c (by simp [hch])
            (fun heq => hdisj h (by simp) y (by simp) (hch.symm.trans heq))
  have hgoal : h :: ((r₁ ++ r2) ++ [h]) = (h :: r₁).dropLast ++ before h r₁ :: (r2 ++ [h]) := by
    have happ : h :: ((r₁ ++ r2) ++ [h]) = (h :: r₁) ++ (r2 ++ [h]) := by simp
    rw [happ]
    conv => lhs; rw [hsplit]
    simp
  show Linked next' prev' (h :: ((r₁ ++ r2) ++ [h]))
  rw [hgoal, linked_append]
  refine ⟨hleft, ?_⟩
  cases hx : r2 ++ [h] with
  | nil => exact absurd hx (by simp)
  | cons x l =>
    have hsec : second h r2 = x := by
      cases r2 with
      | nil => exact (cons.inj hx).1
      | cons y r2 => exact (cons.inj hx).1
    rw [hsec] at hnext hprev
    exact ⟨⟨hnext, hprev⟩, hright x l hx⟩

end CharmRuntime.Lib
