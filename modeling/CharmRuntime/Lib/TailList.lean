import Mathlib.Data.List.Nodup

/-!
# Lib.TailList

**Singly linked lists with a pointer to the last link.** A link is where the first node is
kept or the `next` field of a node (`TailCell`); a node is put behind the last one by a write
through `lasth`, and taken out by a write to the link that leads to it.

`Holds` says which nodes a list has, and that `lasth` is the link behind the last one.
-/

namespace CharmRuntime.Lib

open List

/-- The address of a link. -/
inductive TailCell (β : Type)
  | first
  | next (e : β)
  deriving DecidableEq, Repr

structure TailList (β : Type) where
  first : Option β
  next : β → Option β
  lasth : TailCell β

namespace TailList

variable {β : Type}

/-- A list without nodes. -/
def empty : TailList β := { first := none, next := fun _ => none, lasth := .first }

/-- Read a link. -/
def read (L : TailList β) : TailCell β → Option β
  | .first => L.first
  | .next e => L.next e

/-! ### Paths -/

/-- The link behind the nodes `l` that follow link `c`. -/
def cellAfter (c : TailCell β) : List β → TailCell β
  | [] => c
  | e :: l => cellAfter (.next e) l

/-- From link `c` on the nodes are `l`. -/
def Path (L : TailList β) : TailCell β → List β → Prop
  | c, [] => L.read c = none
  | c, e :: l => L.read c = some e ∧ Path L (.next e) l

/-- The nodes `l` and a link that is none of theirs. -/
def Apart (c : TailCell β) (l : List β) : Prop := ∀ e ∈ l, c ≠ .next e

theorem apart_next {e : β} {l : List β} (h : (e :: l).Nodup) : Apart (.next e) l := by
  intro x hx heq
  cases heq
  exact (nodup_cons.mp h).1 hx

theorem cellAfter_append (c : TailCell β) (l₁ l₂ : List β) :
    cellAfter c (l₁ ++ l₂) = cellAfter (cellAfter c l₁) l₂ := by
  induction l₁ generalizing c with
  | nil => rfl
  | cons e l₁ ih => exact ih (.next e)

theorem cellAfter_cases (c : TailCell β) (l : List β) :
    cellAfter c l = c ∧ l = [] ∨ ∃ e ∈ l, cellAfter c l = .next e := by
  induction l generalizing c with
  | nil => exact .inl ⟨rfl, rfl⟩
  | cons e l ih =>
    cases ih (.next e) with
    | inl h => exact .inr ⟨e, mem_cons_self, h.1⟩
    | inr h =>
      obtain ⟨x, hx, heq⟩ := h
      exact .inr ⟨x, mem_cons_of_mem e hx, heq⟩

variable {L L' : TailList β} {c c' : TailCell β} {l l₁ l₂ : List β} {e : β}

theorem ne_cellAfter (h : Apart c (e :: l)) : c ≠ cellAfter (.next e) l := by
  intro heq
  cases cellAfter_cases (.next e) l with
  | inl hself => exact h e mem_cons_self (heq.trans hself.1)
  | inr hother =>
    obtain ⟨x, hx, hafter⟩ := hother
    exact h x (mem_cons_of_mem e hx) (heq.trans hafter)

/-- A path depends on its own links only. -/
theorem Path.frame (h : L.Path c l) (hc : L'.read c = L.read c)
    (hl : ∀ e ∈ l, L'.next e = L.next e) : L'.Path c l := by
  induction l generalizing c with
  | nil => exact hc.trans h
  | cons e l ih =>
    exact ⟨hc.trans h.1, ih h.2 (hl e mem_cons_self) fun x hx => hl x (mem_cons_of_mem e hx)⟩

/-- The rest of a path. -/
theorem Path.after (h : L.Path c (l₁ ++ l₂)) : L.Path (cellAfter c l₁) l₂ := by
  induction l₁ generalizing c with
  | nil => exact h
  | cons x l₁ ih => exact ih h.2

theorem apart_first (l : List β) : Apart .first l := fun _ _ heq => by cases heq

/-- The nodes of a list. -/
structure Holds (L : TailList β) (l : List β) : Prop where
  path : L.Path .first l
  nodup : l.Nodup
  lasth : L.lasth = cellAfter .first l

theorem holds_empty : (empty : TailList β).Holds [] := ⟨rfl, nodup_nil, rfl⟩

/-! ### Writes -/

variable [DecidableEq β]

/-- Write a link. -/
def store (L : TailList β) (c : TailCell β) (v : Option β) : TailList β :=
  match c with
  | .first => { L with first := v }
  | .next e => { L with next := Function.update L.next e v }

/-- Put node `e` behind the last one. -/
def push (L : TailList β) (e : β) : TailList β :=
  { (L.store (.next e) none).store L.lasth (some e) with lasth := .next e }

/-- Take out node `e`, to which link `c` leads. -/
def unlink (L : TailList β) (c : TailCell β) (e : β) : TailList β :=
  let L' := L.store c (L.next e)
  if L.next e = none then { L' with lasth := c } else L'

@[simp] theorem read_store_self (L : TailList β) (c : TailCell β) (v : Option β) :
    (L.store c v).read c = v := by
  cases c with
  | first => rfl
  | next e => exact Function.update_self ..

theorem read_store_of_ne (L : TailList β) {c c' : TailCell β} (h : c' ≠ c) (v : Option β) :
    (L.store c v).read c' = L.read c' := by
  cases c with
  | first =>
    cases c' with
    | first => exact absurd rfl h
    | next e => rfl
  | next e =>
    cases c' with
    | first => rfl
    | next f => exact Function.update_of_ne (fun heq => h (congrArg TailCell.next heq)) ..

@[simp] theorem lasth_store (L : TailList β) (c : TailCell β) (v : Option β) :
    (L.store c v).lasth = L.lasth := by
  cases c with
  | first => rfl
  | next e => rfl

theorem next_store_of_apart (h : Apart c l) (v : Option β) :
    ∀ e ∈ l, (L.store c v).next e = L.next e := by
  intro e he
  exact read_store_of_ne L (h e he).symm v

/-- A write to the link behind a path makes it longer. -/
theorem Path.push (h : L.Path c l) (hnodup : l.Nodup) (hapart : Apart c l) (he : e ∉ l)
    (hce : c ≠ .next e)
    (hend : L.next e = none) : (L.store (cellAfter c l) (some e)).Path c (l ++ [e]) := by
  induction l generalizing c with
  | nil =>
    refine ⟨read_store_self .., ?_⟩
    exact (read_store_of_ne L hce.symm _).trans hend
  | cons x l ih =>
    refine ⟨?_, ih h.2 hnodup.of_cons (apart_next hnodup)
      (fun hmem => he (mem_cons_of_mem x hmem)) ?_⟩
    · exact (read_store_of_ne L (ne_cellAfter hapart) _).trans h.1
    · intro heq
      cases heq
      exact he mem_cons_self

/-- A write to the link that leads to a node takes the node out. -/
theorem Path.unlink (h : L.Path c (l₁ ++ e :: l₂)) (hnodup : (l₁ ++ e :: l₂).Nodup)
    (hapart : Apart c (l₁ ++ e :: l₂)) :
    (L.store (cellAfter c l₁) (L.next e)).Path c (l₁ ++ l₂) := by
  induction l₁ generalizing c with
  | nil =>
    -- the rest of the path hangs by another link
    have hrest : L.Path (.next e) l₂ := h.2
    have hframe :=
      next_store_of_apart (L := L) (fun x hx => hapart x (mem_cons_of_mem e hx)) (L.next e)
    cases l₂ with
    | nil => exact (read_store_self ..).trans hrest
    | cons x l₂ =>
      refine ⟨(read_store_self ..).trans hrest.1, hrest.2.frame ?_ fun y hy => ?_⟩
      · exact hframe x mem_cons_self
      · exact hframe y (mem_cons_of_mem x hy)
  | cons x l₁ ih =>
    have hnodup' : (x :: (l₁ ++ e :: l₂)).Nodup := hnodup
    refine ⟨(read_store_of_ne L ?_ _).trans h.1, ih h.2 hnodup'.of_cons (apart_next hnodup')⟩
    exact ne_cellAfter fun y hy => hapart y (mem_append_left (e :: l₂) hy)

/-! ### Lists -/

/-- **A new node comes last.** -/
theorem Holds.push (h : L.Holds l) (he : e ∉ l) : (L.push e).Holds (l ++ [e]) := by
  have hapart : Apart (.next e) l := by
    intro x hx heq
    cases heq
    exact he hx
  have hpath : (L.store (.next e) none).Path .first l :=
    h.path.frame (read_store_of_ne L (fun heq => by cases heq) none)
      (next_store_of_apart hapart none)
  have hlong :=
    hpath.push h.nodup (apart_first l) he (fun heq => by cases heq)
      (read_store_self L (.next e) none)
  refine ⟨?_, ?_, ?_⟩
  · rw [← h.lasth] at hlong
    exact hlong.frame rfl fun _ _ => rfl
  · exact nodup_append.mpr ⟨h.nodup, nodup_singleton e, fun x hx y hy heq =>
      he (mem_singleton.mp hy ▸ heq ▸ hx)⟩
  · rw [cellAfter_append]
    rfl

/-- **A node is taken out**; behind the last one the new last link is the one before. -/
theorem Holds.unlink (h : L.Holds (l₁ ++ e :: l₂)) :
    (L.unlink (cellAfter .first l₁) e).Holds (l₁ ++ l₂) := by
  have hpath := h.path.unlink h.nodup (apart_first _)
  have hnodup : (l₁ ++ l₂).Nodup := h.nodup.sublist ((sublist_cons_self e l₂).append_left l₁)
  have hrest : L.Path (.next e) l₂ := h.path.after.2
  have hlast := h.lasth
  rw [cellAfter_append] at hlast
  unfold TailList.unlink
  cases l₂ with
  | nil =>
    have hnone : L.next e = none := hrest
    rw [append_nil] at hpath ⊢
    simp only [if_pos hnone]
    exact ⟨hpath.frame rfl fun _ _ => rfl, by rwa [append_nil] at hnodup, rfl⟩
  | cons x l₂ =>
    have hsome : L.next e ≠ none := by
      have hx : L.next e = some x := hrest.1
      rw [hx]
      exact Option.some_ne_none x
    simp only [if_neg hsome]
    refine ⟨hpath, hnodup, ?_⟩
    rw [lasth_store, cellAfter_append]
    exact hlast

end TailList

end CharmRuntime.Lib
