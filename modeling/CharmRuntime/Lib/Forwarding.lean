import CharmRuntime.Lib.Transition

/-!
# Lib.Forwarding

**Forwarding pointers** to an object that moves. Every node has a pointer to another node, or none,
which stands for a fixed home node. Where the object leaves a node its pointer is set to the next
one, and a notice goes to the home node; nodes also learn by notices of the node that has the
object, at any later time, and may forget what they know.

The stays of the object are numbered. The object is always in one place. If no node learns what is
out of date (`Learnable`), every pointer leads to a later stay than the last one on its node, and
the home node knows the newest or a notice of it is on its way (`Inv`); so without notices on their
way all pointers lead to the object (`reaches`).
-/

namespace CharmRuntime.Lib

open Function List

variable {P : Type}

/-- A pointer. -/
inductive Route (P : Type)
  | here
  | remote (node : P) (stay : Nat)
  | unknown
  deriving DecidableEq, Repr

/-- The pointers, the last stay on every node, the object on its way with the number of its next
stay, and the notices on theirs: the node they go to, and the stay they are about. -/
structure Forwarding (P : Type) where
  route : P → Route P
  hosted : P → Nat
  moving : List (P × Nat)
  notices : List (P × P × Nat)
  created : Bool

namespace Forwarding

def new : Forwarding P where
  route _ := .unknown
  hosted _ := 0
  moving := []
  notices := []
  created := false

/-- Where the pointer of a node leads. -/
def next (home : P) (s : Forwarding P) (p : P) : P :=
  match s.route p with
  | .here => p
  | .remote q _ => q
  | .unknown => home

inductive Move (P : Type)
  | create (p : P)
  | tell (q p : P)
  | learn (p q : P) (stay : Nat)
  | ignore (p q : P) (stay : Nat)
  | leave (p q : P)
  | arrive (p : P)
  | forget (p : P)

variable [DecidableEq P]

/-- The notice of a stay on `q` that node `p` sends the home node. -/
def told (home p q : P) (stay : Nat) : List (P × P × Nat) :=
  if home ≠ p ∧ home ≠ q then [(home, q, stay)] else []

/-- The object leaves node `p` for `q`. -/
def depart (home : P) (s : Forwarding P) (p q : P) : Forwarding P :=
  { s with
    route := update s.route p (.remote q (s.hosted p + 1)), moving :=
      s.moving ++ [(q, s.hosted p + 1)]
    notices := s.notices ++ told home p q (s.hosted p + 1) }

/-- The object, for its stay of this number, is on node `p`, and `moving` remains on its way. -/
def settle (s : Forwarding P) (p : P) (stay : Nat) (moving : List (P × Nat)) : Forwarding P :=
  { s with route := update s.route p .here, hosted := update s.hosted p stay, moving }

inductive Step (home : P) : Forwarding P → Move P → Forwarding P → Prop
  | create (s : Forwarding P) (p : P) : s.created = false →
      Step home s (.create p)
      { s.settle p 1 s.moving with notices := s.notices ++ told home p p 1, created := true }
  | tell (s : Forwarding P) (q p : P) : s.route p = .here →
      Step home s (.tell q p) { s with notices := s.notices ++ [(q, p, s.hosted p)] }
  | learn (s : Forwarding P) (p q : P) (stay : Nat) (l₁ l₂ : List (P × P × Nat)) :
      s.notices = l₁ ++ (p, q, stay) :: l₂ → q ≠ p → s.route p ≠ .here →
      Step home s (.learn p q stay)
      { s with route := update s.route p (.remote q stay), notices := l₁ ++ l₂ }
  | ignore (s : Forwarding P) (p q : P) (stay : Nat) (l₁ l₂ : List (P × P × Nat)) :
      s.notices = l₁ ++ (p, q, stay) :: l₂ → q = p ∨ s.route p = .here →
      Step home s (.ignore p q stay) { s with notices := l₁ ++ l₂ }
  | leave (s : Forwarding P) (p q : P) : s.route p = .here → q ≠ p →
      Step home s (.leave p q) (s.depart home p q)
  | arrive (s : Forwarding P) (p : P) (stay : Nat) (l₁ l₂ : List (P × Nat)) :
      s.moving = l₁ ++ (p, stay) :: l₂ →
      Step home s (.arrive p) (s.settle p stay (l₁ ++ l₂))
  | forget (s : Forwarding P) (p q : P) (stay : Nat) : p ≠ home → s.route p = .remote q stay →
      Step home s (.forget p) { s with route := update s.route p .unknown }

def system (home : P) : Transition (Forwarding P) (Move P) where
  init s := s = .new
  step := Step home

/-! ### One place -/

/-- The object is on node `p` or on its way there, for stay `n`, and nowhere else. -/
structure Placed (s : Forwarding P) (p : P) (n : Nat) : Prop where
  elsewhere : ∀ q, q ≠ p → s.route q ≠ .here ∧ s.hosted q < n
  place : s.route p = .here ∧ s.hosted p = n ∧ s.moving = [] ∨ s.route p ≠ .here ∧ s.hosted p < n ∧
    s.moving = [(p, n)]

/-- Nothing is known before the object is created; from then on it is in one place. -/
def OnePlace (s : Forwarding P) : Prop :=
  (s.created = false ∧ s.notices = [] ∧ s.moving = [] ∧ ∀ p, s.route p = .unknown ∧
  s.hosted p = 0) ∨
    (s.created = true ∧ ∃ p n, s.Placed p n)

variable {home : P} {s s' : Forwarding P} {p : P} {n : Nat}

omit [DecidableEq P] in
theorem OnePlace.placed_of_here (h : s.OnePlace) (hp : s.route p = .here) :
    s.created = true ∧ s.moving = [] ∧ s.Placed p (s.hosted p) := by
  cases h with
  | inl hnew =>
    obtain ⟨-, -, -, hunknown⟩ := hnew
    cases (hunknown p).1.symm.trans hp
  | inr hplaced =>
    obtain ⟨hcreated, q, n, hq⟩ := hplaced
    by_cases heq : p = q
    · subst heq
      cases hq.place with
      | inl hhere => exact ⟨hcreated, hhere.2.2, hhere.2.1 ▸ hq⟩
      | inr hmoving => exact absurd hp hmoving.1
    · exact absurd hp (hq.elsewhere p heq).1

omit [DecidableEq P] in
theorem OnePlace.placed_of_moving (h : s.OnePlace) {l₁ l₂ : List (P × Nat)}
    (hmoving : s.moving = l₁ ++ (p, n) :: l₂) :
    s.created = true ∧ l₁ = [] ∧ l₂ = [] ∧ s.route p ≠ .here ∧ s.Placed p n := by
  cases h with
  | inl hnew =>
    rw [hnew.2.2.1] at hmoving
    simp at hmoving
  | inr hplaced =>
    obtain ⟨hcreated, q, m, hq⟩ := hplaced
    cases hq.place with
    | inl hhere =>
      rw [hhere.2.2] at hmoving
      simp at hmoving
    | inr hway =>
      rw [hway.2.2] at hmoving
      cases l₁ with
      | nil =>
        simp only [nil_append, List.cons.injEq, Prod.mk.injEq] at hmoving
        obtain ⟨⟨rfl, rfl⟩, hl2⟩ := hmoving
        exact ⟨hcreated, rfl, hl2.symm, hway.1, hq⟩
      | cons x l₁ => simp at hmoving

variable {q : P} {r : Route P} {l₁ l₂ : List (P × P × Nat)} {stay : Nat}

/-- A node other than the object's changes its pointer. -/
theorem Placed.setRoute (h : s.Placed p n) (hq : s.route q ≠ .here) (hr : r ≠ .here)
    (notices : List (P × P × Nat)) :
    Placed { s with route := update s.route q r, notices } p n := by
  refine ⟨fun x hx => ⟨?_, (h.elsewhere x hx).2⟩, ?_⟩
  · by_cases hxq : x = q
    · subst hxq
      simpa using hr
    · simpa [hxq] using (h.elsewhere x hx).1
  · by_cases hpq : p = q
    · subst hpq
      cases h.place with
      | inl hhere => exact absurd hhere.1 hq
      | inr hmoving => exact .inr ⟨by simpa using hr, hmoving.2⟩
    · simpa [hpq] using h.place

theorem OnePlace.setRoute (h : s.OnePlace) (hcreated : s.created = true) (hq : s.route q ≠ .here)
    (hr : r ≠ .here) (notices : List (P × P × Nat)) :
    OnePlace { s with route := update s.route q r, notices } := by
  obtain ⟨p, n, hp⟩ := (h.resolve_left fun hnew => by simp [hcreated] at hnew).2
  exact .inr ⟨hcreated, p, n, hp.setRoute hq hr notices⟩

omit [DecidableEq P] in
theorem OnePlace.setNotices (h : s.OnePlace) (hcreated : s.created = true)
    (notices : List (P × P × Nat)) :
    OnePlace { s with notices } := by
  obtain ⟨p, n, hp⟩ := (h.resolve_left fun hnew => by simp [hcreated] at hnew).2
  exact .inr ⟨hcreated, p, n, hp.elsewhere, hp.place⟩

omit [DecidableEq P] in
theorem OnePlace.created_of_notice (h : s.OnePlace) {x : P × P × Nat}
    (hn : s.notices = l₁ ++ x :: l₂) : s.created = true := by
  cases h with
  | inl hnew =>
    rw [hnew.2.1] at hn
    simp at hn
  | inr hplaced => exact hplaced.1

theorem OnePlace.step (h : s.OnePlace) {e : Move P} (hs : Step home s e s') : s'.OnePlace := by
  cases hs with
  | create p hcreated =>
    obtain ⟨-, -, hmoving, hunknown⟩ := h.resolve_right fun hold => by simp [hcreated] at hold
    refine .inr ⟨rfl, p, 1, fun q hq => ?_, .inl ⟨by simp [settle], by simp [settle], hmoving⟩⟩
    simp [settle, hq, hunknown q]
  | tell q p hp => exact h.setNotices (h.placed_of_here hp).1 _
  | learn p q stay l₁ l₂ hn hne hp => exact h.setRoute (h.created_of_notice hn) hp (by simp) _
  | ignore p q stay l₁ l₂ hn _ => exact h.setNotices (h.created_of_notice hn) _
  | leave p q hp hne =>
    obtain ⟨hcreated, hmoving, hplaced⟩ := h.placed_of_here hp
    refine .inr ⟨hcreated, q, s.hosted p + 1, fun x hx => ?_, .inr ?_⟩
    · by_cases hxp : x = p
      · subst hxp
        simp [depart]
      · have hother := hplaced.elsewhere x hxp
        refine ⟨by simpa [depart, hxp] using hother.1, Nat.lt_succ_of_lt hother.2⟩
    · have hother := hplaced.elsewhere q hne
      exact ⟨by simpa [depart, hne] using hother.1,
        Nat.lt_succ_of_lt hother.2, by simp [depart, hmoving]⟩
  | arrive p stay l₁ l₂ hmoving =>
    obtain ⟨hcreated, rfl, rfl, -, hplaced⟩ := h.placed_of_moving hmoving
    refine .inr ⟨hcreated, p, stay, fun x hx => ?_, .inl ⟨by simp [settle], by simp [settle], rfl⟩⟩
    simpa [settle, hx] using hplaced.elsewhere x hx
  | forget p q stay _ hp =>
    cases h with
    | inl hnew => cases (hnew.2.2.2 p).1.symm.trans hp
    | inr hplaced => exact setRoute (.inr hplaced) hplaced.1 (by simp [hp]) (by simp) _

theorem onePlace_of_runsWith {ok : Forwarding P → Move P → Prop} (h : (system home).RunsWith ok s) :
    s.OnePlace :=
  h.invariant (fun _ hinit => hinit ▸ .inl ⟨rfl, rfl, rfl, fun _ => ⟨rfl, rfl⟩⟩)
    fun _ _ _ hinv _ hs => hinv.step hs

omit [DecidableEq P] in
theorem Placed.unique {m : Nat} (hp : s.Placed p n) (hq : s.Placed q m) : p = q ∧ n = m := by
  by_cases heq : p = q
  · subst heq
    cases hp.place with
    | inl hhere =>
      cases hq.place with
      | inl hhere' => exact ⟨rfl, hhere.2.1.symm.trans hhere'.2.1⟩
      | inr hmoving => exact absurd hhere.1 hmoving.1
    | inr hmoving =>
      cases hq.place with
      | inl hhere => exact absurd hhere.1 hmoving.1
      | inr hmoving' =>
        have hsame := hmoving.2.2.symm.trans hmoving'.2.2
        simp only [List.cons.injEq, Prod.mk.injEq, true_and, and_true] at hsame
        exact ⟨rfl, hsame⟩
  · cases hp.place with
    | inl hhere => exact absurd hhere.1 (hq.elsewhere p heq).1
    | inr hmoving =>
      cases hq.place with
      | inl hhere => exact absurd hhere.1 (hp.elsewhere q (Ne.symm heq)).1
      | inr hmoving' =>
        have hsame := hmoving.2.2.symm.trans hmoving'.2.2
        simp only [List.cons.injEq, Prod.mk.injEq, and_true] at hsame
        exact absurd hsame.1 heq

/-! ### Pointers that lead to later stays -/

/-- The object has been on the node for stay `e` or a later one, or is on its way there. -/
def Hosts (s : Forwarding P) (p : P) (e : Nat) :
    Prop := e ≤ s.hosted p ∨ ∃ m, (p, m) ∈ s.moving ∧ e ≤ m

/-- The home node knows stay `n` on node `p`, or will be told. -/
def Known (home : P) (s : Forwarding P) (p : P) (n : Nat) : Prop :=
  p = home ∨ s.route home = .remote p n ∨ (home, p, n) ∈ s.notices

/-- **A notice is not out of date**: its stay is after the last one on the node, and, on the home
node, it is not before the one that is known. -/
def Learnable (home : P) (s : Forwarding P) (p : P) (stay : Nat) : Prop :=
  s.hosted p < stay ∧ (p = home → ∀ q m, s.route p = .remote q m → m ≤ stay)

/-- The steps in which no node learns what is out of date. -/
def Ok (home : P) (s : Forwarding P) : Move P → Prop
  | .learn p _ stay => s.Learnable home p stay
  | _ => True

structure Inv (home : P) (s : Forwarding P) : Prop where
  onePlace : s.OnePlace
  pointer : ∀ p q e, s.route p = .remote q e → s.hosted p < e ∧ s.Hosts q e
  notice : ∀ p q e, (p, q, e) ∈ s.notices → s.Hosts q e
  known : ∀ p n, s.Placed p n → s.Known home p n

omit [DecidableEq P] in
theorem inv_new (home : P) : Inv home (new : Forwarding P) where
  onePlace := .inl ⟨rfl, rfl, rfl, fun _ => ⟨rfl, rfl⟩⟩
  pointer _ _ _ h := by cases h
  notice _ _ _ h := by cases h
  known p n h := by
    cases h.place with
    | inl hhere => cases hhere.1
    | inr hmoving => cases hmoving.2.2

omit [DecidableEq P] in
/-- The newest stay is the object's. -/
theorem Placed.hosts_eq (h : s.Placed p n) {e : Nat} (hq : s.Hosts q e) (hle : n ≤ e) :
    q = p ∧ e = n := by
  have hmoving : ∀ m, (q, m) ∈ s.moving → q = p ∧ m = n := by
    intro m hm
    cases h.place with
    | inl hhere =>
      rw [hhere.2.2] at hm
      cases hm
    | inr hway =>
      rw [hway.2.2, mem_singleton, Prod.mk.injEq] at hm
      exact hm
  have hhosted :
    s.hosted p ≤ n :=
    h.place.elim (fun hhere => Nat.le_of_eq hhere.2.1) fun hway => Nat.le_of_lt hway.2.1
  cases hq with
  | inl hold =>
    by_cases heq : q = p
    · subst heq
      exact ⟨rfl, Nat.le_antisymm (Nat.le_trans hold hhosted) hle⟩
    · exact absurd (Nat.lt_of_le_of_lt (Nat.le_trans hle hold) (h.elsewhere q heq).2)
        (Nat.lt_irrefl n)
  | inr hway =>
    obtain ⟨m, hm, hem⟩ := hway
    obtain ⟨hqp, rfl⟩ := hmoving m hm
    exact ⟨hqp, Nat.le_antisymm hem hle⟩

omit [DecidableEq P] in
theorem Inv.placed (h : Inv home s) (hcreated : s.created = true) : ∃ p n, s.Placed p n :=
  (h.onePlace.resolve_left fun hnew => by simp [hcreated] at hnew).2

/-- **A node learns** a stay that is not out of date there. -/
theorem Inv.learn (h : Inv home s)
    (hn : s.notices = l₁ ++ (p, q, stay) :: l₂) (hp : s.route p ≠ .here)
    (hok : s.Learnable home p stay) :
    Inv home { s with route := update s.route p (.remote q stay), notices := l₁ ++ l₂ } := by
  have hcreated := h.onePlace.created_of_notice hn
  have hmem : (p, q, stay) ∈ s.notices := by simp [hn]
  have hsub : ∀ x, x ∈ l₁ ++ l₂ → x ∈ s.notices := by
    intro x hx
    rw [hn]
    simp only [mem_append, mem_cons] at hx ⊢
    exact hx.imp_right .inr
  refine ⟨h.onePlace.setRoute hcreated hp (by simp) _, fun x y e hx => ?_, fun x y e hx =>
    h.notice x y e (hsub _ hx), fun p' n hp' => ?_⟩
  · by_cases hxp : x = p
    · subst hxp
      simp only [update_self] at hx
      obtain ⟨rfl, rfl⟩ := hx
      exact ⟨hok.1, h.notice _ _ _ hmem⟩
    · exact h.pointer x y e (by simpa [hxp] using hx)
  · -- the object is where it was
    obtain ⟨p0, n0, hp0⟩ := h.placed hcreated
    obtain ⟨rfl, rfl⟩ := (hp0.setRoute hp (by simp) (l₁ ++ l₂)).unique hp'
    rcases h.known _ _ hp0 with heq | hroute | hnotice
    · exact .inl heq
    · refine .inr (.inl ?_)
      by_cases hph : home = p
      · subst hph
        obtain ⟨rfl, rfl⟩ := hp0.hosts_eq (h.notice _ _ _ hmem) (hok.2 rfl _ _ hroute)
        simp
      · simpa [hph] using hroute
    · rw [hn, mem_append, mem_cons] at hnotice
      rcases hnotice with hl | heq | hl
      · exact .inr (.inr (mem_append_left _ hl))
      · cases heq
        exact .inr (.inl (by simp))
      · exact .inr (.inr (mem_append_right _ hl))

omit [DecidableEq P] in
/-- A notice is ignored where the object is, or where it leads to. -/
theorem Inv.ignore (h : Inv home s)
    (hn : s.notices = l₁ ++ (p, q, stay) :: l₂) (hp : q = p ∨ s.route p = .here) :
    Inv home { s with notices := l₁ ++ l₂ } := by
  have hcreated := h.onePlace.created_of_notice hn
  refine ⟨h.onePlace.setNotices hcreated _, h.pointer, fun x y e hx => h.notice x y e ?_,
    fun p' n hp' => ?_⟩
  · rw [hn]
    simp only [mem_append, mem_cons] at hx ⊢
    exact hx.imp_right .inr
  · have hplaced : s.Placed p' n := ⟨hp'.elsewhere, hp'.place⟩
    rcases h.known p' n hplaced with heq | hroute | hnotice
    · exact .inl heq
    · exact .inr (.inl hroute)
    · rw [hn, mem_append, mem_cons] at hnotice
      rcases hnotice with hl | heq | hl
      · exact .inr (.inr (mem_append_left _ hl))
      · cases heq
        refine .inl ?_
        cases hp with
        | inl hself => exact hself
        | inr hhere => exact not_not.mp fun hne => (hplaced.elsewhere home (Ne.symm hne)).1 hhere
      · exact .inr (.inr (mem_append_right _ hl))

/-- **The object leaves** a node, which points to the next one, and the home node is told. -/
theorem Inv.depart (h : Inv home s) (hp : s.route p = .here) (hone : (s.depart home p q).OnePlace) :
    Inv home (s.depart home p q) := by
  have hhosts : ∀ x e, s.Hosts x e → (s.depart home p q).Hosts x e := by
    intro x e hx
    exact hx.imp_right fun ⟨m, hm, hle⟩ => ⟨m, mem_append_left _ hm, hle⟩
  have hnext : (s.depart home p q).Hosts q (s.hosted p + 1) :=
    .inr ⟨_, mem_append_right _ (mem_singleton.mpr rfl), Nat.le_refl _⟩
  refine ⟨hone, fun x y e hx => ?_, fun x y e hx => ?_, fun p' n hp' => ?_⟩
  · by_cases hxp : x = p
    · subst hxp
      simp only [depart, update_self] at hx
      obtain ⟨rfl, rfl⟩ := hx
      exact ⟨Nat.lt_succ_self _, hnext⟩
    · obtain ⟨hlt, hy⟩ := h.pointer x y e (by simpa [Forwarding.depart, hxp] using hx)
      exact ⟨hlt, hhosts y e hy⟩
  · rcases mem_append.mp hx with hold | hnew
    · exact hhosts y e (h.notice x y e hold)
    · unfold told at hnew
      split at hnew
      next =>
        rw [mem_singleton] at hnew
        cases hnew
        exact hnext
      next => cases hnew
  · -- it is on its way to the next node
    obtain ⟨-, hmoving, -⟩ := h.onePlace.placed_of_here hp
    have hmove : (s.depart home p q).moving = [] ++ (q, s.hosted p + 1) :: [] := by
      rw [Forwarding.depart, hmoving]
    obtain ⟨rfl, rfl⟩ := (hone.placed_of_moving hmove).2.2.2.2.unique hp'
    by_cases hqh : q = home
    · exact .inl hqh
    · by_cases hph : p = home
      · subst hph
        exact .inr (.inl (by simp [depart]))
      · refine .inr (.inr (mem_append_right _ ?_))
        simp [told, Ne.symm hqh, Ne.symm hph]

/-- **The object arrives.** -/
theorem Inv.settle (h : Inv home s) (hmoving : s.moving = [(p, stay)])
    (hone : (s.settle p stay []).OnePlace) :
    Inv home (s.settle p stay []) := by
  have hsplit : s.moving = [] ++ (p, stay) :: [] := hmoving
  obtain ⟨-, -, -, hp, hplaced⟩ := h.onePlace.placed_of_moving hsplit
  have hold : s.hosted p < stay := by
    cases hplaced.place with
    | inl hhere => exact absurd hhere.1 hp
    | inr hway => exact hway.2.1
  have hhosts : ∀ x e, s.Hosts x e → (s.settle p stay []).Hosts x e := by
    intro x e hx
    refine .inl ?_
    by_cases hxp : x = p
    · subst hxp
      simp only [settle, update_self]
      cases hx with
      | inl hle => exact Nat.le_trans hle (Nat.le_of_lt hold)
      | inr hway =>
        obtain ⟨m, hm, hle⟩ := hway
        simp only [hmoving, mem_singleton, Prod.mk.injEq, true_and] at hm
        exact hm ▸ hle
    · simp only [Forwarding.settle, update_of_ne hxp]
      cases hx with
      | inl hle => exact hle
      | inr hway =>
        obtain ⟨m, hm, -⟩ := hway
        simp [hmoving, hxp] at hm
  refine ⟨hone, fun x y e hx => ?_, fun x y e hx => hhosts y e (h.notice x y e hx),
    fun p' n hp' => ?_⟩
  · by_cases hxp : x = p
    · subst hxp
      simp [settle] at hx
    · obtain ⟨hlt, hy⟩ := h.pointer x y e (by simpa [Forwarding.settle, hxp] using hx)
      exact ⟨by simpa [Forwarding.settle, hxp] using hlt, hhosts y e hy⟩
  · have hhere := (hone.placed_of_here (p := p) (by simp [Forwarding.settle])).2.2
    obtain ⟨rfl, rfl⟩ := hhere.unique hp'
    by_cases hph : p = home
    · exact .inl hph
    · rcases h.known p stay hplaced with heq | hroute | hnotice
      · exact .inl heq
      · exact .inr (.inl (by simpa [Forwarding.settle, Ne.symm hph] using hroute))
      · exact .inr (.inr (by simpa [Forwarding.settle] using hnotice))

/-- Every move keeps the invariant. -/
theorem Inv.step (h : Inv home s) {e : Move P} (hok : Ok home s e) (hs : Step home s e s') :
    Inv home s' := by
  have hone := h.onePlace.step hs
  cases hs with
  | create p hcreated =>
    obtain ⟨-, hnotices, hmoving, hunknown⟩ :=
      h.onePlace.resolve_right fun hold => by simp [hcreated] at hold
    refine ⟨hone, fun x y e hx => ?_, fun x y e hx => ?_, fun p' n hp' => ?_⟩
    · by_cases hxp : x = p
      · subst hxp
        simp [Forwarding.settle] at hx
      · simp [Forwarding.settle, hxp, hunknown x] at hx
    · simp only [hnotices, nil_append] at hx
      unfold told at hx
      split at hx
      next =>
        rw [mem_singleton] at hx
        cases hx
        exact .inl (by simp [Forwarding.settle])
      next => cases hx
    · have hhere := (hone.placed_of_here (p := p) (by simp [Forwarding.settle])).2.2
      obtain ⟨rfl, rfl⟩ := hhere.unique hp'
      by_cases hph : p = home
      · exact .inl hph
      · refine .inr (.inr (mem_append_right _ ?_))
        simp [told, Forwarding.settle, Ne.symm hph]
  | tell q p hp =>
    refine ⟨hone, h.pointer, fun x y e hx => ?_, fun p' n hp' => ?_⟩
    · rcases mem_append.mp hx with hold | hnew
      · exact h.notice x y e hold
      · rw [mem_singleton] at hnew
        cases hnew
        exact .inl (Nat.le_refl _)
    · have hplaced : s.Placed p' n := ⟨hp'.elsewhere, hp'.place⟩
      exact (h.known p' n hplaced).imp_right (.imp_right fun hnotice => mem_append_left _ hnotice)
  | learn p q stay l₁ l₂ hn _ hp => exact h.learn hn hp hok
  | ignore p q stay l₁ l₂ hn hp => exact h.ignore hn hp
  | leave p q hp _ => exact h.depart hp hone
  | arrive p stay l₁ l₂ hmoving =>
    obtain ⟨-, rfl, rfl, -⟩ := h.onePlace.placed_of_moving hmoving
    exact h.settle hmoving hone
  | forget p q stay hph hp =>
    have hplaced : ∀ p' n, Placed { s with route := update s.route p .unknown } p' n →
      s.Placed p' n := by
      intro p' n hp'
      have hback := hp'.setRoute (q := p) (r := .remote q stay) (by simp) (by simp) s.notices
      rw [update_idem, ← hp, update_eq_self] at hback
      exact hback
    refine ⟨hone, fun x y e hx => ?_, h.notice, fun p' n hp' => ?_⟩
    · by_cases hxp : x = p
      · subst hxp
        simp at hx
      · exact h.pointer x y e (by simpa [hxp] using hx)
    · refine (h.known p' n (hplaced p' n hp')).imp_right (.imp_left fun hroute => ?_)
      simpa [symm hph] using hroute

theorem inv_of_runsWith (h : (system home).RunsWith (Ok home) s) : Inv home s :=
  h.invariant (fun _ hinit => hinit ▸ inv_new home) fun _ _ _ hinv hok hs => hinv.step hok hs

/-! ### Pointers lead to the object -/

omit [DecidableEq P] in
/-- Without notices on their way the home node knows. -/
theorem Inv.home_next (h : Inv home s) (hp : s.route p = .here) (hn : s.notices = []) :
    s.route home = .remote p (s.hosted p) ∨ p = home := by
  rcases h.known _ _ (h.onePlace.placed_of_here hp).2.2 with heq | hroute | hnotice
  · exact .inr heq
  · exact .inl hroute
  · rw [hn] at hnotice
    cases hnotice

omit [DecidableEq P] in
/-- **All pointers lead to the object**, when it is on a node and no notice is on its way. -/
theorem Inv.reaches (h : Inv home s) (hp : s.route p = .here) (hn : s.notices = []) (q : P) :
    ∃ k, (s.next home)^[k] q = p := by
  obtain ⟨-, hmoving, hplaced⟩ := h.onePlace.placed_of_here hp
  have hhome : ∃ k, (s.next home)^[k] home = p := by
    cases h.home_next hp hn with
    | inl hroute => exact ⟨1, by simp [next, hroute]⟩
    | inr heq => exact ⟨0, heq.symm⟩
  have hle : ∀ x, s.hosted x ≤ s.hosted p := by
    intro x
    by_cases hx : x = p
    · exact Nat.le_of_eq (by rw [hx])
    · exact Nat.le_of_lt (hplaced.elsewhere x hx).2
  -- induction on how many stays the node is behind
  generalize hd : s.hosted p - s.hosted q = d
  induction d using Nat.strongRecOn generalizing q with
  | ind d ih =>
    cases hroute : s.route q with
    | here => exact ⟨0, not_not.mp fun hne => (hplaced.elsewhere q hne).1 hroute⟩
    | unknown =>
      obtain ⟨k, hk⟩ := hhome
      refine ⟨k + 1, ?_⟩
      rw [iterate_succ_apply]
      simpa [next, hroute] using hk
    | remote x e =>
      obtain ⟨hlt, hx⟩ := h.pointer q x e hroute
      have hxe : e ≤ s.hosted x := by
        cases hx with
        | inl hle => exact hle
        | inr hway =>
          obtain ⟨m, hm, -⟩ := hway
          rw [hmoving] at hm
          cases hm
      have hxp := hle x
      obtain ⟨k, hk⟩ := ih (s.hosted p - s.hosted x) (by omega) x rfl
      refine ⟨k + 1, ?_⟩
      rw [iterate_succ_apply]
      simpa [next, hroute] using hk

end Forwarding

end CharmRuntime.Lib
