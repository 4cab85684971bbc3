import Mathlib.Data.List.Perm.Basic

/-!
# Lib.Probe

Open addressing with linear probing. A table is a function from slots to optional
entries, of which the first `n` slots count; each entry has a home slot, and a search
goes from the home slot forward, around the end, to the first entry that matches or
the first empty slot.

`steps n h x` is the distance from `h` forward to `x`. The invariant is `Chained`:
no empty slot lies between an entry's home and its place. It is what makes a search
that stops at an empty slot right.

Deleting closes the gap: the entries behind the deleted one, up to the next empty slot
`z`, are put again one by one. The proof cuts the circle at `z` (`between_iff`): seen
from there every entry lies behind its home without any wrap, and the invariant of the
loop is that the entries not yet visited miss slots of the gap only (`GapInv`).
-/

namespace CharmRuntime.Lib

open Function List Option Nat

variable {E : Type}

/-- The slot after `i`. -/
def incSlot (n i : Nat) : Nat := if i + 1 ≥ n then 0 else i + 1

/-- The steps from slot `h` forward to slot `x`. -/
def steps (n h x : Nat) : Nat := if h ≤ x then x - h else x + n - h

section Steps

variable {n h x y : Nat}

theorem steps_self (n h : Nat) : steps n h h = 0 := by
  unfold steps
  rw [if_pos (Nat.le_refl h), Nat.sub_self]

theorem steps_lt (hh : h < n) (hx : x < n) : steps n h x < n := by
  unfold steps
  split <;> omega

theorem steps_inj (hh : h < n) (hx : x < n) (hy : y < n) (heq : steps n h x = steps n h y) :
    x = y := by
  unfold steps at heq
  split at heq <;> split at heq <;> omega

theorem incSlot_lt (hn : 0 < n) (i : Nat) : incSlot n i < n := by
  unfold incSlot
  split <;> omega

/-- Going on adds a step, unless it returns to the start. -/
theorem steps_incSlot (hh : h < n) (hx : x < n) : (incSlot n x = h ∧ steps n h x + 1 = n) ∨
      (incSlot n x ≠ h ∧ steps n h (incSlot n x) = steps n h x + 1) := by
  unfold steps incSlot
  split <;> split <;> split <;> omega

end Steps

/-! ### Searching -/

/-- How a search ends. -/
inductive Scan
  /-- At an empty slot. -/
  | empty (i : Nat)
  /-- At an entry that matches. -/
  | found (i : Nat)
  /-- Back at the start. -/
  | full
  deriving Repr, DecidableEq

/-- `do { ... } while (inc(i) != start)` over a table of `n` slots. -/
def scan (n : Nat) (T : Nat → Option E) (hit : E → Bool) (start : Nat) : Nat → Nat → Scan
  | 0, _ => .full
  | fuel + 1, i =>
    match T i with
    | none => .empty i
    | some e =>
      if hit e then .found i
      else if incSlot n i = start then .full
      else scan n T hit start fuel (incSlot n i)

/-- The same search as `while (1) { ... inc(i); }`; `none` while it is still going on. -/
def scanOn (n : Nat) (T : Nat → Option E) (hit : E → Bool) : Nat → Nat → Option Scan
  | 0, _ => none
  | fuel + 1, i =>
    match T i with
    | none => some (.empty i)
    | some e => if hit e then some (.found i) else scanOn n T hit fuel (incSlot n i)

section Scan

variable {n : Nat} {T : Nat → Option E} {hit : E → Bool} {start : Nat}

/-- All slots before `x` hold entries that do not match. -/
def Passed (n : Nat) (T : Nat → Option E) (hit : E → Bool) (start x : Nat) : Prop :=
  ∀ y < n, steps n start y < steps n start x → ∃ e, T y = some e ∧ hit e = false

/-- What the end of a search says about the table. -/
def ScanSpec (n : Nat) (T : Nat → Option E) (hit : E → Bool) (start : Nat) : Scan → Prop
  | .empty x => x < n ∧ T x = none ∧ Passed n T hit start x
  | .found x => x < n ∧ (∃ e, T x = some e ∧ hit e = true) ∧ Passed n T hit start x
  | .full => ∀ x < n, ∃ e, T x = some e ∧ hit e = false

theorem scan_none {fuel i : Nat} (hT : T i = none) :
    scan n T hit start (fuel + 1) i = .empty i := by
  rw [scan, hT]

theorem scan_hit {fuel i : Nat} {e : E} (hT : T i = some e) (hhit : hit e = true) :
    scan n T hit start (fuel + 1) i = .found i := by
  rw [scan, hT]
  simp only [hhit, if_true]

theorem scan_miss {fuel i : Nat} {e : E} (hT : T i = some e) (hhit : hit e = false) :
    scan n T hit start (fuel + 1) i =
      if incSlot n i = start then .full else scan n T hit start fuel (incSlot n i) := by
  rw [scan, hT]
  simp only [hhit, Bool.false_eq_true, if_false]

theorem scan_spec_from (hs : start < n) : ∀ fuel i, i < n → steps n start i + fuel = n →
    Passed n T hit start i → ScanSpec n T hit start (scan n T hit start fuel i) := by
  intro fuel
  induction fuel with
  | zero =>
    intro i hi hf _
    have := steps_lt hs hi
    omega
  | succ fuel ih =>
    intro i hi hf hpass
    cases hT : T i with
    | none =>
      rw [scan_none hT]
      exact ⟨hi, hT, hpass⟩
    | some e =>
      cases hhit : hit e with
      | true =>
        rw [scan_hit hT hhit]
        exact ⟨hi, ⟨e, hT, hhit⟩, hpass⟩
      | false =>
        have hto : ∀ y < n, steps n start y ≤ steps n start i → ∃ e, T y = some e ∧
          hit e = false := by
          intro y hy hle
          rcases Nat.lt_or_eq_of_le hle with hlt | heq
          · exact hpass y hy hlt
          · rw [steps_inj hs hy hi heq]
            exact ⟨e, hT, hhit⟩
        rw [scan_miss hT hhit]
        rcases steps_incSlot hs hi with ⟨hback, hend⟩ | ⟨hne, hstep⟩
        · rw [if_pos hback]
          intro y hy
          have := steps_lt hs hy
          exact hto y hy (by omega)
        · rw [if_neg hne]
          refine ih _ (incSlot_lt (by omega) i) (by omega) (fun y hy hlt => ?_)
          exact hto y hy (by omega)

/-- **The search from a slot.** -/
theorem scan_spec (hs : start < n) : ScanSpec n T hit start (scan n T hit start n start) := by
  refine scan_spec_from hs n start hs (by rw [steps_self, Nat.zero_add]) (fun y _ hlt => ?_)
  rw [steps_self] at hlt
  exact absurd hlt (not_lt_zero _)

/-- A search that ends at a slot ends there without the check for the start too. -/
theorem scanOn_eq : ∀ fuel fuel' i, fuel ≤ fuel' → scan n T hit start fuel i ≠ .full →
    scanOn n T hit fuel' i = some (scan n T hit start fuel i) := by
  intro fuel
  induction fuel with
  | zero =>
    intro fuel' i _ h
    exact absurd rfl h
  | succ fuel ih =>
    intro fuel' i _ h
    obtain ⟨m, rfl⟩ : ∃ m, fuel' = m + 1 := ⟨fuel' - 1, by omega⟩
    unfold scanOn
    cases hT : T i with
    | none => rw [scan_none hT]
    | some e =>
      cases hhit : hit e with
      | true =>
        rw [scan_hit hT hhit]
        simp only [hhit, if_true]
      | false =>
        rw [scan_miss hT hhit] at h ⊢
        simp only [hhit, Bool.false_eq_true]
        by_cases hback : incSlot n i = start
        · rw [if_pos hback] at h
          exact absurd rfl h
        · rw [if_neg hback] at h ⊢
          exact ih m _ (by omega) h

end Scan

/-! ### Chained tables -/

/-- No empty slot lies between an entry's home and its place. -/
def Chained (n : Nat) (home : E → Nat) (T : Nat → Option E) : Prop :=
  ∀ x < n, ∀ e, T x = some e → ∀ y < n, steps n (home e) y < steps n (home e) x → T y ≠ none

/-- No two slots hold entries that match. -/
def Unique (n : Nat) (same : E → E → Bool) (T : Nat → Option E) : Prop :=
  ∀ x < n, ∀ y < n, ∀ e e', T x = some e → T y = some e' → same e e' = true → x = y

section Chained

variable {n : Nat} {home : E → Nat} {T : Nat → Option E} {same : E → E → Bool}

/-- An empty slot takes an entry whose search ended there. -/
theorem Chained.insert (h : Chained n home T) {x : Nat} {e : E} (hx : x < n) (hT : T x = none)
    (hpath : ∀ y < n, steps n (home e) y < steps n (home e) x → T y ≠ none) :
    Chained n home (update T x (some e)) := by
  intro u hu f hf y hy hlt
  by_cases hyx : y = x
  · rw [hyx, update_self]
    exact some_ne_none e
  · rw [update_of_ne hyx]
    by_cases hux : u = x
    · rw [hux, update_self, some.injEq] at hf
      subst hf hux
      exact hpath y hy hlt
    · rw [update_of_ne hux] at hf
      exact h u hu f hf y hy hlt

theorem Unique.insert (hsymm : ∀ a b, same a b = true → same b a = true) (h : Unique n same T)
    {x : Nat} {e : E} (hnew : ∀ y < n, ∀ f, y ≠ x → T y = some f → same e f = false) :
    Unique n same (update T x (some e)) := by
  intro u hu y hy f f' hf hf' hsame
  by_cases hux : u = x
  · by_cases hyx : y = x
    · rw [hux, hyx]
    · rw [hux, update_self, some.injEq] at hf
      rw [update_of_ne hyx] at hf'
      subst hf
      rw [hnew y hy f' hyx hf'] at hsame
      exact absurd hsame Bool.false_ne_true
  · rw [update_of_ne hux] at hf
    by_cases hyx : y = x
    · rw [hyx, update_self, some.injEq] at hf'
      subst hf'
      have := hsymm _ _ hsame
      rw [hnew u hu f hux hf] at this
      exact absurd this Bool.false_ne_true
    · rw [update_of_ne hyx] at hf'
      exact h u hu y hy f f' hf hf' hsame

/-- On the way from `h` to `x`, when that does not pass `z`: the slots between them as
seen from `z`. -/
theorem between_iff {z h x y : Nat} (hz : z < n) (hh : h < n) (hx : x < n) (hy : y < n)
    (hle : steps n z h ≤ steps n z x) :
    steps n h y < steps n h x ↔ steps n z h ≤ steps n z y ∧ steps n z y < steps n z x := by
  unfold steps at hle ⊢
  split_ifs at hle ⊢ <;> omega

/-- Seen from an empty slot, every entry lies behind its home. -/
theorem Chained.home_le (h : Chained n home T) {z x : Nat} {e : E} (hz : z < n) (hT : T z = none)
    (hhome : home e < n) (hx : x < n) (he : T x = some e) :
    steps n z (home e) ≤ steps n z x := by
  have hxz : x ≠ z := by
    intro heq
    rw [heq, hT] at he
    exact absurd he (some_ne_none e).symm
  by_contra hgt
  -- otherwise the way from home to `x` passes `z`
  refine h x hx e he z hz ?_ hT
  unfold steps at hgt ⊢
  split_ifs at hgt ⊢ <;> omega

/-- An entry that matches is found, and only then. -/
theorem Chained.scan_found (h : Chained n home T) (hit : E → Bool) {start x : Nat} {e : E}
    (hs : start < n) (hhome : home e = start) (hx : x < n) (he : T x = some e)
    (hhit : hit e = true) :
    ∃ y f, scan n T hit start n start = .found y ∧ y < n ∧ T y = some f ∧ hit f = true := by
  have hspec : ScanSpec n T hit start (scan n T hit start n start) := scan_spec hs
  cases hr : scan n T hit start n start with
  | full =>
    rw [hr] at hspec
    obtain ⟨f, hf, hmiss⟩ := hspec x hx
    rw [he, some.injEq] at hf
    rw [← hf, hhit] at hmiss
    exact absurd hmiss.symm Bool.false_ne_true
  | found y =>
    rw [hr] at hspec
    obtain ⟨hy, ⟨f, hf, hfh⟩, -⟩ := hspec
    exact ⟨y, f, rfl, hy, hf, hfh⟩
  | empty y =>
    rw [hr] at hspec
    obtain ⟨hy, hTy, hpass⟩ := hspec
    -- `y` would lie on the entry's way from its home
    refine absurd hTy (h x hx e he y hy ?_)
    rw [hhome]
    by_contra hge
    rcases Nat.lt_or_eq_of_le (Nat.le_of_not_lt hge) with hlt | heq
    · obtain ⟨f, hf, hmiss⟩ := hpass x hx hlt
      rw [he, some.injEq] at hf
      rw [← hf, hhit] at hmiss
      exact absurd hmiss.symm Bool.false_ne_true
    · rw [steps_inj hs hx hy heq, hTy] at he
      exact absurd he (some_ne_none e).symm

end Chained

/-! ### Closing a gap -/

/-- While the gap behind slot `d` is being closed, with the slots before step `c` (seen
from the empty slot `z`) done: an entry that was not visited yet may miss slots of
the gap on its way from home, and nothing else is missing. -/
structure GapInv (n : Nat) (home : E → Nat) (z d c : Nat) (T : Nat → Option E) : Prop where
  cut : T z = none
  behind : ∀ x < n, ∀ e, T x = some e → steps n z (home e) ≤ steps n z x
  way : ∀ x < n, ∀ e, T x = some e → ∀ y < n, steps n z (home e) ≤ steps n z y →
    steps n z y < steps n z x → T y = none →
    c ≤ steps n z x ∧ steps n z d ≤ steps n z y ∧ steps n z y < c

section Gap

variable {n : Nat} {home : E → Nat} {T : Nat → Option E} {z d c : Nat}

/-- Deleting an entry opens the gap. -/
theorem Chained.openGap (h : Chained n home T) (hz : z < n) (hd : d < n) (hzd : z ≠ d)
    (hT : T z = none) (hhome : ∀ e, home e < n) :
    GapInv n home z d (steps n z d + 1) (update T d none) := by
  have hold : ∀ {x : Nat} {e : E}, update T d none x = some e → x ≠ d ∧ T x = some e := by
    intro x e he
    by_cases hxd : x = d
    · rw [hxd, update_self] at he
      exact absurd he (some_ne_none e).symm
    · rw [update_of_ne hxd] at he
      exact ⟨hxd, he⟩
  refine ⟨by rw [update_of_ne hzd, hT], ?_, ?_⟩
  · intro x hx e he
    exact h.home_le hz hT (hhome e) hx (hold he).2
  · intro x hx e he y hy hle hlt hnone
    have hyd : y = d := by
      by_contra hne
      rw [update_of_ne hne] at hnone
      refine h x hx e (hold he).2 y hy ?_ hnone
      rw [between_iff hz (hhome e) hx hy (h.home_le hz hT (hhome e) hx (hold he).2)]
      exact ⟨hle, hlt⟩
    subst hyd
    omega

/-- A slot of the way that is empty belongs to the gap; in particular it is not `z`. -/
theorem GapInv.ne_cut (h : GapInv n home z d c T) (hz : z < n) (hd : d < n) (hzd : z ≠ d)
    {x y : Nat} {e : E} (hx : x < n) (he : T x = some e) (hy : y < n)
    (hle : steps n z (home e) ≤ steps n z y) (hlt : steps n z y < steps n z x)
    (hnone : T y = none) : y ≠ z := by
  intro hyz
  have hgap := (h.way x hx e he y hy hle hlt hnone).2.1
  rw [hyz, steps_self] at hgap
  exact hzd (steps_inj hz hz hd (by rw [steps_self]; omega))

/-- The entry at step `c` may stay. -/
theorem GapInv.stay (h : GapInv n home z d c T) (hz : z < n) {i : Nat} (hi : i < n)
    (hic : steps n z i = c)
    (hway : ∀ y < n, ∀ e, T i = some e → steps n z (home e) ≤ steps n z y →
      steps n z y < c → T y ≠ none) : GapInv n home z d (c + 1) T := by
  refine ⟨h.cut, h.behind, fun x hx e he y hy hle hlt hnone => ?_⟩
  have hgap := h.way x hx e he y hy hle hlt hnone
  by_cases hxc : steps n z x = c
  · have hxi : x = i := steps_inj hz hx hi (hxc.trans hic.symm)
    subst hxi
    exact absurd hnone (hway y hy e he hle (by omega))
  · omega

/-- The entry at step `c` moves to the first empty slot on its way. -/
theorem GapInv.move (h : GapInv n home z d c T) (hz : z < n) (hd : d < n) (hzd : z ≠ d)
    {i y : Nat} {e : E} (hi : i < n) (hic : steps n z i = c) (he : T i = some e) (hy : y < n)
    (hTy : T y = none) (hle : steps n z (home e) ≤ steps n z y) (hlt : steps n z y < c)
    (hway : ∀ u < n, steps n z (home e) ≤ steps n z u → steps n z u < steps n z y → T u ≠ none) :
    GapInv n home z d (c + 1) (update (update T y (some e)) i none) := by
  have hyz : y ≠ z := h.ne_cut hz hd hzd hi he hy hle (hic ▸ hlt) hTy
  have hiz : z ≠ i := by
    intro heq
    rw [← heq, h.cut] at he
    exact absurd he (some_ne_none e).symm
  -- the entries of the new table
  have hnew : ∀ {x : Nat} {f : E}, update (update T y (some e)) i none x = some f →
      (x = y ∧ f = e) ∨ (x ≠ y ∧ x ≠ i ∧ T x = some f) := by
    intro x f hf
    by_cases hxi : x = i
    · rw [hxi, update_self] at hf
      exact absurd hf (some_ne_none f).symm
    · rw [update_of_ne hxi] at hf
      by_cases hxy : x = y
      · rw [hxy, update_self, some.injEq] at hf
        exact .inl ⟨hxy, hf.symm⟩
      · rw [update_of_ne hxy] at hf
        exact .inr ⟨hxy, hxi, hf⟩
  -- and its empty slots
  have hempty : ∀ {u : Nat}, update (update T y (some e)) i none u = none → u = i ∨
    (u ≠ y ∧ T u = none) := by
    intro u hu
    by_cases hui : u = i
    · exact .inl hui
    · rw [update_of_ne hui] at hu
      by_cases huy : u = y
      · rw [huy, update_self] at hu
        exact absurd hu (some_ne_none e)
      · rw [update_of_ne huy] at hu
        exact .inr ⟨huy, hu⟩
  refine ⟨?_, ?_, ?_⟩
  · rw [update_of_ne hiz, update_of_ne (symm hyz), h.cut]
  · intro x hx f hf
    rcases hnew hf with ⟨rfl, rfl⟩ | ⟨-, -, hold⟩
    · exact hle
    · exact h.behind x hx f hold
  · intro x hx f hf u hu hle' hlt' hnone
    have hdgap : steps n z d ≤ c := by
      have := (h.way i hi e he y hy hle (hic ▸ hlt) hTy).2.1
      omega
    rcases hnew hf with ⟨rfl, rfl⟩ | ⟨-, hxi, hold⟩
    · rcases hempty hnone with rfl | ⟨-, hTu⟩
      · omega
      · exact absurd hTu (hway u hu hle' hlt')
    · have hxc : steps n z x ≠ c := fun heq => hxi (steps_inj hz hx hi (heq.trans hic.symm))
      rcases hempty hnone with rfl | ⟨-, hTu⟩
      · omega
      · have := h.way x hx f hold u hu hle' hlt' hTu
        omega

/-- When the loop meets an empty slot, or has been all around, the gap is closed. -/
theorem GapInv.close (h : GapInv n home z d c T) (hz : z < n) (hhome : ∀ e, home e < n)
    (hend : c = n ∨ ∃ i < n, steps n z i = c ∧ T i = none) : Chained n home T := by
  intro x hx e he y hy hlt hnone
  rw [between_iff hz (hhome e) hx hy (h.behind x hx e he)] at hlt
  have hgap := h.way x hx e he y hy hlt.1 hlt.2 hnone
  have hxn := steps_lt hz hx
  rcases hend with hcn | ⟨i, hi, hic, hTi⟩
  · omega
  · -- the empty slot would be on the way too
    have hne : steps n z x ≠ c := by
      intro heq
      rw [steps_inj hz hx hi (heq.trans hic.symm), hTi] at he
      exact absurd he (some_ne_none e).symm
    have := h.way x hx e he i hi (by omega) (by omega) hTi
    omega

end Gap

/-! ### Content -/

/-- The entries of the table, in the order of the slots. -/
def entries (n : Nat) (T : Nat → Option E) : List E := (List.range n).filterMap T

section Content

variable {n : Nat} {T : Nat → Option E}

theorem mem_entries {e : E} : e ∈ entries n T ↔ ∃ x < n, T x = some e := by
  unfold entries
  rw [mem_filterMap]
  constructor
  · intro ⟨x, hx, he⟩
    exact ⟨x, mem_range.mp hx, he⟩
  · intro ⟨x, hx, he⟩
    exact ⟨x, mem_range.mpr hx, he⟩

theorem entries_succ (n : Nat) (T : Nat → Option E) :
    entries (n + 1) T = entries n T ++ (T n).toList := by
  unfold entries
  rw [range_succ]
  cases hT : T n with
  | none => simp [hT]
  | some e => simp [hT]

theorem length_entries_mono {m : Nat} (h : m ≤ n) :
    (entries m T).length ≤ (entries n T).length := by
  induction n with
  | zero =>
    obtain rfl : m = 0 := le_zero.mp h
    exact Nat.le_refl _
  | succ n ih =>
    by_cases hm : m = n + 1
    · exact Nat.le_of_eq (by rw [hm])
    · rw [entries_succ, length_append]
      omega

@[simp] theorem entries_none (n : Nat) : entries n (fun _ => (none : Option E)) = [] := by
  unfold entries
  simp

theorem entries_congr {T' : Nat → Option E} (h : ∀ x < n, T x = T' x) :
    entries n T = entries n T' := by
  apply filterMap_congr
  intro x hx
  exact h x (mem_range.mp hx)

/-- Filling an empty slot adds an entry. -/
theorem entries_fill {x : Nat} {e : E} (hx : x < n) (hT : T x = none) :
    (entries n (update T x (some e))).Perm (e :: entries n T) := by
  induction n with
  | zero => exact absurd hx (not_lt_zero x)
  | succ n ih =>
    rw [entries_succ, entries_succ]
    by_cases hxn : x = n
    · subst hxn
      have hrest : entries x (update T x (some e)) = entries x T :=
        entries_congr fun y hy => update_of_ne (Nat.ne_of_lt hy) _ _
      rw [hrest, update_self, hT]
      simp only [toList_none, append_nil]
      exact perm_append_singleton e _
    · rw [update_of_ne (symm hxn)]
      exact (ih (by omega)).append_right _

/-- Emptying a slot removes its entry. -/
theorem entries_clear {x : Nat} {e : E} (hx : x < n) (hT : T x = some e) :
    (entries n T).Perm (e :: entries n (update T x none)) := by
  have h := entries_fill (e := e) hx (update_self x none T)
  rw [update_idem, ← hT, update_eq_self] at h
  exact h

/-- Moving an entry to an empty slot keeps them all. -/
theorem entries_move {x y : Nat} {e : E} (hx : x < n) (hy : y < n) (he : T x = some e)
    (hT : T y = none) :
    (entries n (update (update T y (some e)) x none)).Perm (entries n T) := by
  have hne : x ≠ y := by
    intro heq
    rw [heq, hT] at he
    exact absurd he (some_ne_none e).symm
  have h1 := entries_fill (e := e) hy hT
  have h2 := entries_clear (T := update T y (some e)) hx (by rw [update_of_ne hne, he])
  exact (perm_cons e).mp (h2.symm.trans h1)

/-- Fewer entries than slots leave an empty slot. -/
theorem exists_empty (h : (entries n T).length < n) : ∃ z < n, T z = none := by
  induction n with
  | zero => exact absurd h (not_lt_zero _)
  | succ n ih =>
    cases hT : T n with
    | none => exact ⟨n, lt_succ_self n, hT⟩
    | some e =>
      rw [entries_succ, hT] at h
      obtain ⟨z, hz, hTz⟩ := ih (by simpa using h)
      exact ⟨z, lt_succ_of_lt hz, hTz⟩

end Content

end CharmRuntime.Lib
