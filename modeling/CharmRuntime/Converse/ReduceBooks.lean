import CharmRuntime.Converse.ReduceWorld
import CharmRuntime.Lib.Gathered
import CharmRuntime.Lib.Sum
import Mathlib.Data.Finset.Max
import Mathlib.Data.Fintype.BigOperators

/-!
# Converse.ReduceBooks

The books of one reduction over the spanning tree: which data is *held* for each
processor, that is, received by it or on its way to it. A processor that has not sent yet
is held one datum for each child that has; one that has sent is held nothing, and all its
children have sent. All the data held together was merged from the local data of the
processors that have sent, each once.

The tables of the processors and the network do not appear here; they are related to the
books in `CharmRuntime.Converse.ReduceSound`.
-/

namespace CharmRuntime.Converse

open Lib Function List Finset

variable {N : Nat} {δ : Type}

/-- The datum that a processor makes of its own and those of its children. -/
def ReduceArgs.merge (a : ReduceArgs δ) (remote : List δ) : δ :=
  if remote = [] then a.data else (a.ops.mergeFn a.size a.data remote).2

/-- What each processor that has called does with the data of its children. -/
def ReduceRound.node (r : ReduceRound N δ) (p : Fin N) : Option (List δ → δ) :=
  (r.calls p).map ReduceArgs.merge

/-- The books of reduction `r` when `held p` is what is held for `p`. -/
structure Books (T : SpanTree (Fin N)) (r : ReduceRound N δ) (held : Fin N → Multiset δ) :
    Prop where
  nodup : r.sent.Nodup
  root : T.root ∉ r.sent
  called : ∀ p ∈ r.sent, (r.calls p).isSome
  counted : ∀ p, p ∉ r.sent → (held p).card = (T.children p).countP (· ∈ r.sent)
  nothing : ∀ p ∈ r.sent, held p = 0
  closed : ∀ p ∈ r.sent, ∀ c ∈ T.children p, c ∈ r.sent
  ledger : Gathered r.node (r.sent : Multiset (Fin N)) (∑ p, held p)

namespace Books

variable {T : SpanTree (Fin N)} {r : ReduceRound N δ} {held : Fin N → Multiset δ}

theorem start (id : Nat) : Books T (.start id : ReduceRound N δ) fun _ => 0 where
  nodup := nodup_nil
  root := by simp [ReduceRound.start]
  called := by simp [ReduceRound.start]
  counted := by simp [ReduceRound.start]
  nothing := by simp [start]
  closed := by simp [ReduceRound.start]
  ledger := by
    rw [sum_const_zero]
    exact .zero

variable {p : Fin N} {ds : List δ} {a : ReduceArgs δ}

theorem call (h : Books T r held) (hp : r.calls p = none) (a : ReduceArgs δ) :
    Books T (r.call p a) held where
  nodup := h.nodup
  root := h.root
  called := by
    intro q hq
    have hne : q ≠ p := by
      rintro rfl
      have hsome := h.called q hq
      rw [hp] at hsome
      exact absurd hsome (by simp)
    show (update r.calls p (some a) q).isSome
    rw [update_of_ne hne]
    exact h.called q hq
  counted := h.counted
  nothing := h.nothing
  closed := h.closed
  ledger := by
    refine h.ledger.mono fun q f hq => ?_
    have hne : q ≠ p := by
      rintro rfl
      unfold ReduceRound.node at hq
      rw [hp] at hq
      exact absurd hq (by simp)
    unfold ReduceRound.node ReduceRound.call
    dsimp only
    rw [update_of_ne hne]
    exact hq

theorem full (h : Books T r held) (hp : p ∉ r.sent) {rest : Multiset δ}
    (hheld : held p = ds + rest) (hlen : ds.length = (T.children p).length) :
    rest = 0 ∧ ∀ c ∈ T.children p, c ∈ r.sent := by
  have hcount := h.counted p hp
  have hle : (T.children p).countP (· ∈ r.sent) ≤ (T.children p).length := countP_le_length
  rw [hheld, Multiset.card_add, Multiset.coe_card] at hcount
  refine ⟨Multiset.card_eq_zero.mp (by omega), fun c hc => ?_⟩
  have hall := countP_eq_length.mp (show (T.children p).countP (· ∈ r.sent) =
    (T.children p).length by omega) c hc
  exact of_decide_eq_true hall

theorem count_send {q : Fin N} (hp : p ∉ r.sent) : (T.children q).countP (· ∈ (r.send p).sent) =
      (T.children q).countP (· ∈ r.sent) + (T.children q).count p := by
  unfold ReduceRound.send
  induction T.children q with
  | nil => rfl
  | cons c cs ih =>
    rw [countP_cons, countP_cons, ih]
    by_cases hc : c = p
    · subst hc
      simp [hp]
      omega
    · simp [hc]
      omega

/-- **A processor sends**: what was held for it becomes one datum for its parent. -/
theorem complete (h : Books T r held) (hroot : p ≠ T.root) (hp : p ∉ r.sent)
    (ha : r.calls p = some a) (hheld : held p = ds) (hlen : ds.length = (T.children p).length) :
    Books T (r.send p)
      (update (update held p 0) (T.parent p) ({a.merge ds} + held (T.parent p))) := by
  obtain ⟨-, hchildren⟩ := h.full hp (hheld.trans (add_zero _).symm) hlen
  have hparent : T.parent p ≠ p := T.parent_ne hroot
  have hnotsent : T.parent p ∉ r.sent := fun hm =>
    hp (h.closed _ hm _ (T.mem_children_parent hroot))
  have hat : update held p 0 (T.parent p) = held (T.parent p) :=
    update_of_ne hparent _ _
  refine ⟨nodup_cons.mpr ⟨hp, h.nodup⟩, ?_, ?_, ?_, ?_, ?_, ?_⟩
  · intro hm
    cases mem_cons.mp hm with
    | inl heq => exact hroot heq.symm
    | inr hm => exact h.root hm
  · intro q hq
    cases mem_cons.mp hq with
    | inl heq =>
      subst heq
      show (r.calls q).isSome
      rw [ha]
      rfl
    | inr hq => exact h.called q hq
  · intro q hq
    have hqp : q ≠ p := fun heq => hq (heq ▸ mem_cons_self)
    have hqs : q ∉ r.sent := fun hm => hq (mem_cons_of_mem _ hm)
    rw [count_send hp]
    by_cases hqq : q = T.parent p
    · subst hqq
      rw [update_self, Multiset.card_add, Multiset.card_singleton, h.counted _ hqs,
        count_eq_one_of_mem (T.nodup_children _) (T.mem_children_parent hroot), add_comm]
    · have hnot : p ∉ T.children q := fun hm => hqq (T.parent_of_mem hm).symm
      rw [update_of_ne hqq, update_of_ne hqp, h.counted _ hqs,
        count_eq_zero_of_not_mem hnot, add_zero]
  · intro q hq
    have hqq : q ≠ T.parent p := by
      rintro rfl
      cases mem_cons.mp hq with
      | inl heq => exact hparent heq
      | inr hm => exact hnotsent hm
    rw [update_of_ne hqq]
    by_cases hqp : q = p
    · rw [hqp, update_self]
    · rw [update_of_ne hqp]
      exact h.nothing q ((mem_cons.mp hq).resolve_left hqp)
  · intro q hq c hc
    cases mem_cons.mp hq with
    | inl heq => exact mem_cons_of_mem _ (hchildren c (heq ▸ hc))
    | inr hq => exact mem_cons_of_mem _ (h.closed q hq c hc)
  · have hnode : r.node p = some a.merge := by
      unfold ReduceRound.node
      rw [ha]
      rfl
    have hsum : ∑ q, held q = ds + ∑ q, update held p 0 q := by
      rw [← hheld, add_sum_update_zero]
    rw [← hat, sum_update_add]
    exact Gathered.combine hnode (hsum ▸ h.ledger)

theorem all_sent (h : Books T r held) (hroot : ∀ c ∈ T.children T.root, c ∈ r.sent) (p : Fin N) :
    p = T.root ∨ p ∈ r.sent := by
  induction p using T.induction with
  | hroot => exact .inl rfl
  | hstep c hc ih =>
    cases ih with
    | inl hp => exact .inr (hroot c ((T.mem_children _ _).mpr ⟨hc, hp⟩))
    | inr hp => exact .inr (h.closed _ hp c (T.mem_children_parent hc))

/-- **The root completes**: its datum was merged from the local data of all processors, each
once, and nothing else is left. -/
theorem finish (h : Books T r held) (ha : r.calls T.root = some a)
    (hheld : held T.root = ds) (hlen : ds.length = (T.children T.root).length) :
    Gathered r.node univ.val {a.merge ds} ∧ (∀ p, (r.calls p).isSome) ∧
    (∀ p, p ≠ T.root → p ∈ r.sent) := by
  obtain ⟨-, hchildren⟩ := h.full h.root (hheld.trans (add_zero _).symm) hlen
  have hall := h.all_sent hchildren
  have hothers : ∀ p, p ≠ T.root → p ∈ r.sent := fun p hp => (hall p).resolve_left hp
  have hcalled : ∀ p, (r.calls p).isSome := by
    intro p
    cases hall p with
    | inl hp => rw [hp, ha]; rfl
    | inr hp => exact h.called p hp
  refine ⟨?_, hcalled, hothers⟩
  have hnode : r.node T.root = some a.merge := by
    unfold ReduceRound.node
    rw [ha]
    rfl
  have hsum : ∑ q, held q = ds + 0 := by
    rw [← add_sum_update_zero held T.root]
    congr 1
    refine Finset.sum_eq_zero fun q _ => ?_
    by_cases hq : q = T.root
    · rw [hq, update_self]
    · rw [update_of_ne hq]
      exact h.nothing q (hothers q hq)
  have hmembers : univ.val = T.root ::ₘ r.sent := by
    refine (Multiset.Nodup.ext univ.nodup ?_).mpr fun q => ?_
    · exact nodup_cons.mpr ⟨h.root, h.nodup⟩
    · have hq := hall q
      simpa using hq
  rw [hmembers]
  exact Gathered.combine hnode (hsum ▸ h.ledger)

theorem exists_ready (h : Books T r held) :
    ∃ p, p ∉ r.sent ∧ (held p).card = (T.children p).length := by
  obtain ⟨p, hp, hmax⟩ := exists_max_image (univ.filter (· ∉ r.sent)) T.depth
    ⟨T.root, mem_filter.mpr ⟨mem_univ _, h.root⟩⟩
  have hp' := (Finset.mem_filter.mp hp).2
  refine ⟨p, hp', ?_⟩
  rw [h.counted p hp']
  refine countP_eq_length.mpr fun c hc => decide_eq_true ?_
  by_contra hcs
  -- a child that has not sent would be deeper
  have hdepth := T.depth_parent c (T.ne_root_of_mem hc)
  rw [T.parent_of_mem hc] at hdepth
  exact absurd (hmax c (mem_filter.mpr ⟨mem_univ _, hcs⟩)) (by omega)

end Books

end CharmRuntime.Converse
