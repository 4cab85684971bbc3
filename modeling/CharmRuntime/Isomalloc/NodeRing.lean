import Mathlib.Data.List.Pairwise
import CharmRuntime.Lib.Ring
import CharmRuntime.Isomalloc.BlockList

/-!
# Isomalloc.NodeRing

The **links of a block list in memory**: nodes of 16 bytes that do not overlap, with
`prev` in the first word and `next` in the second, form a ring (`NodeRing`).

Linking a node in and taking one out keep the ring, and write nothing but words of
nodes.
-/

namespace CharmRuntime.Isomalloc

open Lib List

/-- The nodes at `p` and `q` do not overlap. -/
def NodeApart (p q : Int) : Prop := p + 16 ≤ q ∨ q + 16 ≤ p

theorem NodeApart.symm {p q : Int} (h : NodeApart p q) : NodeApart q p := Or.symm h

instance : Std.Symm NodeApart := ⟨fun _ _ => NodeApart.symm⟩

/-- The nodes `ps` are a ring. -/
structure NodeRing (m : AddrSpace) (ps : List Int) : Prop where
  mapped : ∀ p ∈ ps, m.Mapped p 16
  apart : ps.Pairwise NodeApart
  ring : Ring (fun p => m.load8 (p + 8)) (fun p => m.load8 p) ps

/-- An address outside the nodes. -/
def OffNodes (ps : List Int) (x : Int) : Prop := ∀ p ∈ ps, x < p ∨ p + 16 ≤ x

namespace NodeRing

variable {m m' : AddrSpace} {ps : List Int}

theorem nodup (hr : NodeRing m ps) : ps.Nodup :=
  hr.apart.imp fun h heq => by
    unfold NodeApart at h
    omega

theorem apart_of_ne (hr : NodeRing m ps) {p q : Int} (hp : p ∈ ps) (hq : q ∈ ps) (hne : p ≠ q) :
    NodeApart p q :=
  hr.apart.forall hp hq hne

theorem congr (hr : NodeRing m ps) (h : ∀ p ∈ ps, ∀ x, p ≤ x → x < p + 16 → m' x = m x) :
    NodeRing m' ps := by
  refine ⟨?_, hr.apart, ?_⟩
  · intro p hp x h1 h2
    rw [h p hp x h1 h2]
    exact hr.mapped p hp x h1 h2
  · have hnext : ∀ p ∈ ps, m'.load8 (p + 8) = m.load8 (p + 8) := fun p hp =>
      AddrSpace.load8_congr fun x h1 h2 => h p hp x (by omega) (by omega)
    have hprev : ∀ p ∈ ps, m'.load8 p = m.load8 p := fun p hp =>
      AddrSpace.load8_congr fun x h1 h2 => h p hp x (by omega) (by omega)
    cases ps with
    | nil => exact hr.ring
    | cons l r =>
      refine Linked.congr hr.ring ?_ ?_
      · intro a ha
        rw [← cons_append, dropLast_concat] at ha
        exact hnext a ha
      · intro b hb
        refine hprev b ?_
        rcases mem_append.mp hb with hb | hb
        · exact mem_cons_of_mem l hb
        · rw [mem_singleton.mp hb]
          exact mem_cons_self

theorem eq_or_apart (hr : NodeRing m ps) {p q : Int} (hp : p ∈ ps) (hq : q ∈ ps) :
    p = q ∨ NodeApart p q := by
  by_cases heq : p = q
  · exact .inl heq
  · exact .inr (hr.apart_of_ne hp hq heq)

end NodeRing

/-- What a change of some nodes' words leaves alone. -/
structure Relinked (m : AddrSpace) (ps : List Int) (m' : AddrSpace) : Prop where
  frame : ∀ x, OffNodes ps x → m' x = m x
  dom : ∀ x, (m' x).isSome = (m x).isSome

theorem second_mem {h : Int} {r : List Int} : second h r ∈ h :: r := by
  cases r with
  | nil => exact mem_cons_self
  | cons x r => exact mem_cons_of_mem h mem_cons_self

/-! ### Linking in -/

/-- The four words that `linkBlock` writes. -/
theorem linkBlock_words {m : AddrSpace} {l n x : Int} (hn : m.Mapped n 16) (hl : m.Mapped l 16)
    (hx : m.Mapped x 16) (hload : m.load8 (l + 8) = some x) (hnl : NodeApart n l)
    (hnx : NodeApart n x) (hlx : l = x ∨ NodeApart l x) :
    ∃ m', linkBlock l n m = some m' ∧ m'.load8 n = some l ∧ m'.load8 (n + 8) = some x ∧
      m'.load8 x = some n ∧ m'.load8 (l + 8) = some n ∧
      (∀ y, (y < n ∨ n + 16 ≤ y) → (y < x ∨ x + 8 ≤ y) → (y < l + 8 ∨ l + 16 ≤ y) → m' y = m y) ∧
      ∀ y, (m' y).isSome = (m y).isSome := by
  unfold NodeApart at *
  obtain ⟨m1, heq1, h1⟩ := AddrSpace.store8_spec l (fun y hy1 hy2 => hn y hy1 (by omega))
  have hload1 : m1.load8 (l + 8) = some x := by
    rw [h1.load8_of_disjoint (by omega), hload]
  obtain ⟨m2, heq2, h2⟩ := AddrSpace.store8_spec x
    (h1.mapped fun y hy1 hy2 => hn y (by omega) (by omega) : m1.Mapped (n + 8) 8)
  have hload2 : m2.load8 (l + 8) = some x := by
    rw [h2.load8_of_disjoint (by omega), hload1]
  obtain ⟨m3, heq3, h3⟩ := AddrSpace.store8_spec n
    (h2.mapped (h1.mapped fun y hy1 hy2 => hx y hy1 (by omega)))
  obtain ⟨m4, heq4, h4⟩ := AddrSpace.store8_spec n
    (h3.mapped (h2.mapped (h1.mapped fun y hy1 hy2 => hl y (by omega) (by omega))) : m3.Mapped
      (l + 8) 8)
  refine ⟨m4, ?_, ?_, ?_, ?_, h4.load, ?_, ?_⟩
  · simp only [linkBlock, heq1, hload1, heq2, hload2, heq3, Option.bind_eq_bind, Option.bind_some]
    exact heq4
  · rw [h4.load8_of_disjoint (by omega), h3.load8_of_disjoint (by omega),
      h2.load8_of_disjoint (by omega), h1.load]
  · rw [h4.load8_of_disjoint (by omega), h3.load8_of_disjoint (by omega), h2.load]
  · rw [h4.load8_of_disjoint (by omega), h3.load]
  · intro y hy1 hy2 _
    rw [h4.frame y (by omega), h3.frame y (by omega), h2.frame y (by omega), h1.frame y (by omega)]
  · intro y
    rw [h4.dom, h3.dom, h2.dom, h1.dom]

/-- **Linking a node in** behind the first one. -/
theorem NodeRing.link {m : AddrSpace} {l n : Int} {r : List Int} (hr : NodeRing m (l :: r))
    (hn : m.Mapped n 16) (hfresh : ∀ p ∈ l :: r, NodeApart n p) :
    ∃ m', linkBlock l n m = some m' ∧ NodeRing m' (l :: n :: r) ∧ Relinked m (l :: n :: r) m' := by
  have hl : l ∈ l :: r := mem_cons_self
  have hx : second l r ∈ l :: r := second_mem
  have hlx := hr.eq_or_apart hl hx
  obtain ⟨m', heq, hn1, hn2, hx1, hl2, hframe, hdom⟩ := linkBlock_words hn (hr.mapped l hl)
    (hr.mapped _ hx) hr.ring.next_first.1 (hfresh l hl) (hfresh _ hx) hlx
  refine ⟨m', heq, ⟨?_, ?_, ?_⟩, ?_, hdom⟩
  · intro p hp y h1 h2
    rw [hdom]
    rcases mem_cons.mp hp with rfl | hp
    · exact hr.mapped _ hl y h1 h2
    · rcases mem_cons.mp hp with rfl | hp
      · exact hn y h1 h2
      · exact hr.mapped p (mem_cons_of_mem l hp) y h1 h2
  · obtain ⟨hlr, hrr⟩ := pairwise_cons.mp hr.apart
    refine pairwise_cons.mpr ⟨?_, pairwise_cons.mpr ⟨?_, hrr⟩⟩
    · intro p hp
      rcases mem_cons.mp hp with rfl | hp
      · exact (hfresh l hl).symm
      · exact hlr p hp
    · intro p hp
      exact hfresh p (mem_cons_of_mem l hp)
  · refine hr.ring.insert hr.nodup hl2 hn2 hn1 hx1 ?_ ?_
    · -- the `next` of the other nodes
      intro a ha
      have hmem : a ∈ l :: r := mem_cons_of_mem l ha
      have hal : NodeApart a l := hr.apart_of_ne hmem hl fun heq =>
        (nodup_cons.mp hr.nodup).1 (heq ▸ ha)
      have han := hfresh a hmem
      have hax := hr.eq_or_apart hmem hx
      unfold NodeApart at *
      exact AddrSpace.load8_congr fun y h1 h2 => hframe y (by omega) (by omega) (by omega)
    · -- and their `prev`
      intro b hb hne
      have hbx := hr.apart_of_ne hb hx hne
      have hbn := hfresh b hb
      have hbl := hr.eq_or_apart hb hl
      unfold NodeApart at *
      exact AddrSpace.load8_congr fun y h1 h2 => hframe y (by omega) (by omega) (by omega)
  · intro y hy
    have h1 := hy l (by simp)
    have h2 := hy n (by simp)
    have h3 := hy (second l r) (by
      rcases mem_cons.mp hx with h | h
      · rw [h]
        exact mem_cons_self
      · exact mem_cons_of_mem l (mem_cons_of_mem n h))
    exact hframe y (by omega) (by omega) (by omega)

/-! ### Taking out -/

theorem before_mem {h : Int} {r1 : List Int} : before h r1 ∈ h :: r1 := getLast_mem _

/-- **Taking a node out**: the words it had are still there. -/
theorem NodeRing.unlink {m : AddrSpace} {l n : Int} {r1 r2 : List Int}
    (hr : NodeRing m (l :: (r1 ++ n :: r2))) :
    m.load8 n = some (before l r1) ∧ m.load8 (n + 8) = some (second l r2) ∧
      ∃ m1 m2, m.store8 (before l r1 + 8) (second l r2) = some m1 ∧
        m1.load8 (n + 8) = some (second l r2) ∧ m1.load8 n = some (before l r1) ∧
        m1.store8 (second l r2) (before l r1) = some m2 ∧
        NodeRing m2 (l :: (r1 ++ r2)) ∧ Relinked m (l :: (r1 ++ r2)) m2 := by
  have hn : n ∈ l :: (r1 ++ n :: r2) := by simp
  have hsub : (l :: (r1 ++ r2)).Sublist (l :: (r1 ++ n :: r2)) :=
    ((sublist_cons_self n r2).append_left r1).cons_cons l
  have hp' : before l r1 ∈ l :: (r1 ++ r2) := by
    exact mem_append_left _ before_mem
  have hq' : second l r2 ∈ l :: (r1 ++ r2) := by
    rcases mem_cons.mp second_mem with h | h
    · rw [h]
      exact mem_cons_self
    · simp [h]
  have hp := hsub.mem hp'
  have hq := hsub.mem hq'
  have hne : ∀ a ∈ l :: (r1 ++ r2), NodeApart n a := by
    intro a ha
    refine hr.apart_of_ne hn (hsub.mem ha) ?_
    intro heq
    have hnd := hr.nodup
    rw [← cons_append, nodup_middle] at hnd
    exact (nodup_cons.mp hnd).1 (heq ▸ ha)
  obtain ⟨⟨-, hprev⟩, hnext, -⟩ := hr.ring.neighbours
  have hpn := hne _ hp'
  have hqn := hne _ hq'
  have hpq := hr.eq_or_apart hp hq
  unfold NodeApart at hpn hqn hpq
  obtain ⟨m1, heq1, h1⟩ := AddrSpace.store8_spec (second l r2) (a := before l r1 + 8)
    (fun y hy1 hy2 => hr.mapped _ hp y (by omega) (by omega))
  obtain ⟨m2, heq2, h2⟩ := AddrSpace.store8_spec (before l r1)
    (h1.mapped fun y hy1 hy2 => hr.mapped _ hq y hy1 (by omega))
  have hframe : ∀ y, (y < before l r1 + 8 ∨ before l r1 + 16 ≤ y) →
      (y < second l r2 ∨ second l r2 + 8 ≤ y) → m2 y = m y := by
    intro y hy1 hy2
    rw [h2.frame y hy2, h1.frame y (by omega)]
  refine ⟨hprev, hnext, m1, m2, heq1, ?_, ?_, heq2, ⟨?_, hr.apart.sublist hsub, ?_⟩, ?_, ?_⟩
  · rw [h1.load8_of_disjoint (by omega)]
    exact hnext
  · rw [h1.load8_of_disjoint (by omega)]
    exact hprev
  · intro p hp y hy1 hy2
    rw [h2.dom, h1.dom]
    exact hr.mapped p (hsub.mem hp) y hy1 hy2
  · refine hr.ring.remove hr.nodup ?_ h2.load ?_ ?_
    · show m2.load8 (before l r1 + 8) = _
      rw [h2.load8_of_disjoint (by omega), h1.load]
    · -- the `next` of the other nodes
      intro a ha hane
      have hap := hr.apart_of_ne (hsub.mem ha) hp hane
      have haq := hr.eq_or_apart (hsub.mem ha) hq
      unfold NodeApart at hap haq
      exact AddrSpace.load8_congr fun y h1 h2 => hframe y (by omega) (by omega)
    · -- and their `prev`
      intro c hc hcne
      have hcq := hr.apart_of_ne (hsub.mem hc) hq hcne
      have hcp := hr.eq_or_apart (hsub.mem hc) hp
      unfold NodeApart at hcq hcp
      exact AddrSpace.load8_congr fun y h1 h2 => hframe y (by omega) (by omega)
  · intro y hy
    have hy1 := hy _ hp'
    have hy2 := hy _ hq'
    exact hframe y (by omega) (by omega)
  · intro y
    rw [h2.dom, h1.dom]

end CharmRuntime.Isomalloc
