import CharmRuntime.Util.Hashtable
import Mathlib.Data.List.Pairwise

/-!
# Util.HashtableSound

`CkHashtable` as a finite map. `Probed` is the invariant of the slots: every entry can
be reached from its home slot, no two entries have equivalent keys, and there is an empty
slot. It holds of the new table while `rehash` fills it and again after `remove` has
closed the gap; in between, the library's `GapInv` takes over. `HashInv` adds the fields
that go with the slots. Each call is described by what it does to the list of entries.
-/

namespace CharmRuntime.Util

open Lib Function List Option Nat

namespace CkHashtable

variable {K V : Type} (F : KeyFns K)

/-- The slot where the search for an entry's key starts. -/
def home (n : Nat) (e : K × V) : Nat := F.hash e.1 % n

/-- Two entries have equivalent keys. -/
def same (e f : K × V) : Bool := F.compare e.1 f.1

/-- The invariant of the slots. -/
structure Probed (n : Nat) (T : Nat → Option (K × V)) : Prop where
  pos : 0 < n
  chained : Chained n (home F n) T
  unique : Unique n (same F) T
  room : (entries n T).length < n

/-- The invariant of a table between calls. -/
structure HashInv (t : CkHashtable K V) : Prop where
  probed : Probed F t.len t.table
  count : t.nObj = (entries t.len t.table).length
  resize : t.resizeAt = t.len * t.loadFactor.num / t.loadFactor.den
  bound : t.Fits t.len

variable {F} {t : CkHashtable K V}

/-! ### Searching -/

section Search

variable (hF : F.Lawful) (h : Probed F t.len t.table) (key : K)

theorem home_lt (h : 0 < t.len) (e : K × V) : home F t.len e < t.len := mod_lt _ h

theorem search_spec (hpos : 0 < t.len) (key : K) :
    ScanSpec t.len t.table (fun e => F.compare key e.1) (F.hash key % t.len) (search F t key) :=
  scan_spec (mod_lt _ hpos)

include hF h in
/-- **The search for a key** ends at its entry, or at an empty slot with everything before
it taken, and then the key is not in the table. -/
theorem search_cases : (∃ x e, search F t key = .found x ∧ x < t.len ∧ t.table x = some e ∧
      F.compare key e.1 = true) ∨
    (∃ x, search F t key = .empty x ∧ x < t.len ∧ t.table x = none ∧
      (∀ y < t.len, steps t.len (F.hash key % t.len) y < steps t.len (F.hash key % t.len) x →
        t.table y ≠ none) ∧
      ∀ e ∈ entries t.len t.table, F.compare key e.1 = false) := by
  have hs : F.hash key % t.len < t.len := Nat.mod_lt _ h.pos
  have hspec := search_spec (F := F) h.pos key
  cases hr : search F t key with
  | found x =>
    rw [hr] at hspec
    obtain ⟨hx, ⟨e, he, hhit⟩, -⟩ := hspec
    exact .inl ⟨x, e, rfl, hx, he, hhit⟩
  | full =>
    rw [hr] at hspec
    obtain ⟨z, hz, hTz⟩ := exists_empty h.room
    obtain ⟨e, he, -⟩ := hspec z hz
    rw [hTz] at he
    exact absurd he (some_ne_none e).symm
  | empty x =>
    rw [hr] at hspec
    obtain ⟨hx, hTx, hpass⟩ := hspec
    refine .inr ⟨x, rfl, hx, hTx, fun y hy hlt => ?_, fun e he => ?_⟩
    · obtain ⟨e, he, -⟩ := hpass y hy hlt
      rw [he]
      exact some_ne_none e
    · -- an entry with the key would have been found
      by_contra hne
      rw [Bool.not_eq_false] at hne
      obtain ⟨u, hu, hTu⟩ := mem_entries.mp he
      have hstart : home F t.len e = F.hash key % t.len := by
        unfold home
        rw [hF.hash_eq key e.1 hne]
      obtain ⟨y, f, hy, -⟩ := h.chained.scan_found (fun e => F.compare key e.1) hs hstart hu hTu hne
      rw [search, hy] at hr
      exact Scan.noConfusion hr

include hF h in
/-- `findEntry` never aborts. -/
theorem findEntry_cases : (∃ x e, findEntry F t key = .ok x ∧ x < t.len ∧ t.table x = some e ∧
      F.compare key e.1 = true) ∨
    (∃ x, findEntry F t key = .ok x ∧ x < t.len ∧ t.table x = none ∧
      (∀ y < t.len, steps t.len (F.hash key % t.len) y < steps t.len (F.hash key % t.len) x →
        t.table y ≠ none) ∧
      ∀ e ∈ entries t.len t.table, F.compare key e.1 = false) := by
  unfold findEntry
  rcases search_cases hF h key with ⟨x, e, hr, hx⟩ | ⟨x, hr, hx⟩
  · exact .inl ⟨x, e, by rw [hr], hx⟩
  · exact .inr ⟨x, by rw [hr], hx⟩

include hF h in
theorem findKey_cases : (∃ x e, findKey F t key = some x ∧ x < t.len ∧ t.table x = some e ∧
      F.compare key e.1 = true) ∨
    (findKey F t key = none ∧ ∀ e ∈ entries t.len t.table, F.compare key e.1 = false) := by
  unfold findKey
  rcases search_cases hF h key with ⟨x, e, hr, hx⟩ | ⟨x, hr, -, -, -, hout⟩
  · exact .inl ⟨x, e, by rw [hr], hx⟩
  · exact .inr ⟨by rw [hr], hout⟩

end Search

/-! ### Inserting -/

variable {n : Nat} {T : Nat → Option (K × V)} {e : K × V}

theorem Probed.insert (hF : F.Lawful) {x : Nat} (h : Probed F n T) (hx : x < n) (hT : T x = none)
    (hway : ∀ y < n, steps n (F.hash e.1 % n) y < steps n (F.hash e.1 % n) x → T y ≠ none)
    (hout : ∀ f ∈ entries n T, F.compare e.1 f.1 = false) (hroom : (entries n T).length + 1 < n) :
    Probed F n (update T x (some e)) := by
  refine ⟨h.pos, h.chained.insert hx hT hway, ?_, ?_⟩
  · refine h.unique.insert (fun a b hab => hF.symm a.1 b.1 hab) (fun y hy f _ hf => ?_)
    exact hout f (mem_entries.mpr ⟨y, hy, hf⟩)
  · rw [(entries_fill hx hT).length_eq]
    exact hroom

theorem Probed.replace {x : Nat} (obj : V) (h : Probed F n T) (hx : x < n) (hT : T x = some e) :
    Probed F n (update T x (some (e.1, obj))) ∧ (entries n (update T x (some (e.1, obj)))).Perm
        ((e.1, obj) :: entries n (update T x none)) := by
  -- the slots that are taken, and the keys in them, stay
  have hkeys : ∀ u f, update T x (some (e.1, obj)) u = some f → ∃ g, T u = some g ∧ g.1 = f.1 := by
    intro u f hf
    by_cases hux : u = x
    · rw [hux, update_self, some.injEq] at hf
      exact ⟨e, by rw [hux, hT], by rw [← hf]⟩
    · rw [update_of_ne hux] at hf
      exact ⟨f, hf, rfl⟩
  have hfill := entries_fill (e := (e.1, obj)) hx (update_self x none T)
  rw [update_idem] at hfill
  refine ⟨⟨h.pos, ?_, ?_, ?_⟩, hfill⟩
  · intro u hu f hf y hy hlt
    obtain ⟨g, hg, hgf⟩ := hkeys u f hf
    have hhome : home F n f = home F n g := by
      unfold home
      rw [hgf]
    rw [hhome] at hlt
    have := h.chained u hu g hg y hy hlt
    by_cases hyx : y = x
    · rw [hyx, update_self]
      exact some_ne_none _
    · rwa [update_of_ne hyx]
  · intro u hu y hy f f' hf hf' hsame
    obtain ⟨g, hg, hgf⟩ := hkeys u f hf
    obtain ⟨g', hg', hgf'⟩ := hkeys y f' hf'
    refine h.unique u hu y hy g g' hg hg' ?_
    unfold same at hsame ⊢
    rw [hgf, hgf']
    exact hsame
  · have := (entries_clear hx hT).length_eq
    rw [hfill.length_eq, length_cons]
    rw [length_cons] at this
    have := h.room
    omega

/-! ### Growing -/

theorem lt_primeLargerThan {x : Nat} (hx : x < maxLen) : x < primeLargerThan x := by
  unfold primeLargerThan
  cases hp : doublingPrimes.find? (fun p => x < p) with
  | none =>
    rw [find?_eq_none] at hp
    have := hp 4200000071 (by decide)
    unfold maxLen at hx
    simp only [decide_eq_true_eq] at this
    omega
  | some p =>
    have := find?_some hp
    simpa using this

theorem probed_none (F : KeyFns K) (hn : 0 < n) :
    Probed F n (fun _ => (none : Option (K × V))) := by
  refine ⟨hn, ?_, ?_, by rw [entries_none]; exact hn⟩
  · intro x _ e he
    exact absurd he (some_ne_none e).symm
  · intro x _ y _ e _ he
    exact absurd he (some_ne_none e).symm

/-- The loop of `rehash` puts the entries of the remaining slots. -/
theorem rehashLoop_spec (hF : F.Lawful) {old : Nat → Option (K × V)} {m : Nat}
    (hold : Unique m (same F) old) : ∀ (todo i : Nat) (t : CkHashtable K V), i + todo = m →
    Probed F t.len t.table → (entries t.len t.table).Perm (entries i old) →
    (entries m old).length < t.len →
    ∃ T, rehashLoop F old todo i t = .ok { t with table := T } ∧ Probed F t.len T ∧
      (entries t.len T).Perm (entries m old) := by
  intro todo
  induction todo with
  | zero =>
    intro i t hi h hperm _
    obtain rfl : i = m := by omega
    exact ⟨t.table, rfl, h, hperm⟩
  | succ todo ih =>
    intro i t hi h hperm hroom
    unfold rehashLoop
    have hsucc := entries_succ i old
    cases hTi : old i with
    | none =>
      rw [hTi] at hsucc
      exact ih (i + 1) t (by omega) h (by rw [hsucc]; simpa using hperm) hroom
    | some e =>
      rw [hTi, toList_some] at hsucc
      -- the key is not in the new table: the old one had it once
      have hnot : ∀ f ∈ entries t.len t.table, F.compare e.1 f.1 = false := by
        intro f hf
        obtain ⟨u, hu, hTu⟩ := mem_entries.mp (hperm.mem_iff.mp hf)
        by_contra hne
        rw [Bool.not_eq_false] at hne
        have := hold i (by omega) u (by omega) e f hTi hTu hne
        omega
      have hlen : (entries (i + 1) old).length ≤ (entries m old).length :=
        length_entries_mono (by omega)
      rw [hsucc, length_append, length_singleton, ← hperm.length_eq] at hlen
      rcases findEntry_cases hF h e.1 with ⟨x, f, -, hx, hf, hcmp⟩ | ⟨x, hr, hx, hTx, hway, hout⟩
      · rw [hnot f (mem_entries.mpr ⟨x, hx, hf⟩)] at hcmp
        exact absurd hcmp Bool.false_ne_true
      · simp only [hr, bind]
        have hins := h.insert hF hx hTx hway hout (by omega)
        obtain ⟨T, hT, hprobed, hall⟩ := ih (i + 1)
          { t with table := update t.table x (some e) } (by omega) hins
          (by
            rw [hsucc]
            refine (entries_fill hx hTx).trans ?_
            exact ((perm_cons e).mpr hperm).trans (perm_append_singleton e _).symm)
          hroom
        exact ⟨T, hT, hprobed, hall⟩

/-- **`rehash`** keeps the entries. -/
theorem rehash_spec (hF : F.Lawful) (h : Probed F t.len t.table) (hlt : t.len < n)
    (hn : t.Fits n) : ∃ T, rehash F t n = .ok { t.cleared n with table := T } ∧ Probed F n T ∧
      (entries n T).Perm (entries t.len t.table) := by
  have hrehash : rehash F t n = rehashLoop F t.table t.len 0 (t.cleared n) := by
    rw [rehash, buildTable, if_pos hn]
    rfl
  rw [hrehash]
  exact rehashLoop_spec hF h.unique t.len 0 (t.cleared n) (Nat.zero_add _)
    (probed_none F (Nat.lt_trans h.pos hlt)) (by simp [cleared, entries])
    (Nat.lt_trans h.room hlt)

theorem rehash_of_not_fits (h : ¬ t.Fits n) : rehash F t n = .error .tooLong := by
  rw [rehash, buildTable, if_neg h]
  rfl

theorem HashInv.resizeAt_lt (h : HashInv F t) : t.resizeAt < t.len := by
  rw [h.resize, div_lt_iff_lt_mul (zero_lt_of_lt t.loadFactor.lt)]
  exact Nat.mul_lt_mul_of_pos_left t.loadFactor.lt h.probed.pos

/-- The growth at the start of `put` leaves room for one more entry. -/
theorem grow_spec (hF : F.Lawful) (h : HashInv F t) (hgrows : t.Grows) :
    ∃ u, grow F t = .ok u ∧ HashInv F u ∧ (entries u.len u.table).Perm (entries t.len t.table) ∧
      u.nObj + 1 < u.len := by
  unfold grow
  by_cases hgrow : t.nObj ≥ t.resizeAt
  · have hlt := lt_primeLargerThan h.bound.1
    have hroom := h.probed.room
    have hfits := hgrows hgrow
    obtain ⟨T, hr, hprobed, hperm⟩ := rehash_spec hF h.probed hlt hfits
    rw [if_pos hgrow]
    refine ⟨_, hr, ⟨hprobed, ?_, rfl, hfits⟩, hperm, ?_⟩
    · exact h.count.trans hperm.length_eq.symm
    · show t.nObj + 1 < primeLargerThan t.len
      rw [h.count]
      omega
  · rw [if_neg hgrow]
    have := h.resizeAt_lt
    exact ⟨t, rfl, h, .refl _, by omega⟩

theorem put_of_not_grows {key : K} {obj : V} (h : ¬ t.Grows) :
    put F t key obj = .error .tooLong := by
  obtain ⟨hgrow, hlong⟩ := Classical.not_imp.mp h
  rw [put, grow, if_pos hgrow, rehash_of_not_fits hlong]
  rfl

/-- **`put`** adds an entry or replaces the object of the one that is there. -/
theorem put_spec (hF : F.Lawful) (h : HashInv F t) (hgrows : t.Grows) (key : K) (obj : V) :
    ∃ t' existing, put F t key obj = .ok (t', existing) ∧ HashInv F t' ∧
      ((existing = true ∧ ∃ e rest, F.compare key e.1 = true ∧
          (entries t.len t.table).Perm (e :: rest) ∧
          (entries t'.len t'.table).Perm ((e.1, obj) :: rest)) ∨
       (existing = false ∧ (∀ e ∈ entries t.len t.table, F.compare key e.1 = false) ∧
          (entries t'.len t'.table).Perm ((key, obj) :: entries t.len t.table))) := by
  obtain ⟨u, hu, hinv, hperm, hroom⟩ := grow_spec hF h hgrows
  have hput : put F t key obj = fill F u key obj := by
    rw [put, hu]
    rfl
  rw [hput, fill]
  rcases findEntry_cases hF hinv.probed key with
    ⟨x, e, hr, hx, he, hcmp⟩ | ⟨x, hr, hx, hTx, hway, hout⟩
  · obtain ⟨hprobed, hcontent⟩ := hinv.probed.replace obj hx he
    have hclear := entries_clear hx he
    refine ⟨{ u with table := update u.table x (some (e.1, obj)) }, true, ?_,
      ⟨hprobed, ?_, hinv.resize, hinv.bound⟩, .inl ⟨rfl, e, _, hcmp,
      hperm.symm.trans hclear, hcontent⟩⟩
    · simp only [hr, bind, Except.bind, he, pure, Except.pure]
    · show u.nObj = _
      rw [hinv.count, hclear.length_eq, hcontent.length_eq, length_cons, length_cons]
  · have hfill := entries_fill (e := (key, obj)) hx hTx
    rw [hinv.count] at hroom
    refine ⟨{ u with nObj := u.nObj + 1
                     table := update u.table x (some (key, obj)) }, false, ?_,
      ⟨hinv.probed.insert hF hx hTx hway hout hroom, ?_, hinv.resize, hinv.bound⟩,
      .inr ⟨rfl, fun e he => hout e (hperm.mem_iff.mpr he),
      hfill.trans ((perm_cons _).mpr hperm)⟩⟩
    · simp only [hr, bind, Except.bind, hTx, pure, Except.pure]
    · show u.nObj + 1 = _
      rw [hinv.count, hfill.length_eq, length_cons]

/-! ### Removing -/

/-- One round of the loop of `remove`, at the entry of slot `i`: it stays, or moves to the
first empty slot on its way. -/
theorem findEntry_in_gap (hF : F.Lawful) {z d c i : Nat} (hz : z < t.len)
    (hu : Unique t.len (same F) t.table) (hg : GapInv t.len (home F t.len) z d c t.table)
    (hi : i < t.len) (hic : steps t.len z i = c) (he : t.table i = some e) :
    (findEntry F t e.1 = .ok i ∧ ∀ y < t.len, steps t.len z (home F t.len e) ≤ steps t.len z y →
      steps t.len z y < c → t.table y ≠ none) ∨
    ∃ y, findEntry F t e.1 = .ok y ∧ y ≠ i ∧ y < t.len ∧ t.table y = none ∧
      steps t.len z (home F t.len e) ≤ steps t.len z y ∧ steps t.len z y < c ∧
      ∀ u < t.len, steps t.len z (home F t.len e) ≤ steps t.len z u →
        steps t.len z u < steps t.len z y → t.table u ≠ none := by
  have hh : home F t.len e < t.len := home_lt (zero_lt_of_lt hz) e
  have hle := hg.behind i hi e he
  have hspec : ScanSpec t.len t.table _ (home F t.len e) (search F t e.1) :=
    search_spec (zero_lt_of_lt hz) e.1
  unfold findEntry
  cases hr : search F t e.1 with
  | full =>
    rw [hr] at hspec
    obtain ⟨f, hf, -⟩ := hspec z hz
    rw [hg.cut] at hf
    exact absurd hf (some_ne_none f).symm
  | found y =>
    rw [hr] at hspec
    obtain ⟨hy, ⟨f, hf, hcmp⟩, hpass⟩ := hspec
    obtain rfl : i = y := hu i hi y hy e f he hf hcmp
    refine .inl ⟨rfl, fun y hy hle' hlt => ?_⟩
    obtain ⟨g, hg', -⟩ := hpass y hy ((between_iff hz hh hi hy hle).mpr ⟨hle', hic ▸ hlt⟩)
    rw [hg']
    exact some_ne_none g
  | empty y =>
    rw [hr] at hspec
    obtain ⟨hy, hTy, hpass⟩ := hspec
    have hyi : y ≠ i := by
      intro heq
      rw [heq, he] at hTy
      exact absurd hTy (some_ne_none e)
    -- the search cannot pass the entry itself
    have hlt : steps t.len (home F t.len e) y < steps t.len (home F t.len e) i := by
      by_contra hge
      rcases Nat.lt_or_eq_of_le (Nat.le_of_not_lt hge) with hlt | heq
      · obtain ⟨f, hf, hmiss⟩ := hpass i hi hlt
        rw [he, some.injEq] at hf
        rw [← hf] at hmiss
        exact absurd (hmiss.symm.trans (hF.refl e.1)) Bool.false_ne_true
      · exact hyi (steps_inj hh hi hy heq).symm
    obtain ⟨hle', hlt'⟩ := (between_iff hz hh hi hy hle).mp hlt
    refine .inr ⟨y, rfl, hyi, hy, hTy, hle', hic ▸ hlt', fun u hu hle'' hlt'' => ?_⟩
    obtain ⟨g, hg', -⟩ := hpass u hu ((between_iff hz hh hy hu hle').mpr ⟨hle'', hlt''⟩)
    rw [hg']
    exact some_ne_none g

theorem Unique.move (hu : Unique t.len (same F) t.table) {i y : Nat}
    (hi : i < t.len) (he : t.table i = some e) :
    Unique t.len (same F) (update (update t.table y (some e)) i none) := by
  -- a slot of the new table and the slot its entry had before
  have hold :
    ∀ {x : Nat} {f : K × V}, x < t.len → update (update t.table y (some e)) i none x = some f →
      ∃ u, u < t.len ∧ t.table u = some f ∧ ((x = y ∧ u = i) ∨ (x ≠ y ∧ x ≠ i ∧ u = x)) := by
    intro x f hx hf
    by_cases hxi : x = i
    · rw [hxi, update_self] at hf
      exact absurd hf (some_ne_none f).symm
    · rw [update_of_ne hxi] at hf
      by_cases hxy : x = y
      · rw [hxy, update_self] at hf
        exact ⟨i, hi, he.trans hf, .inl ⟨hxy, rfl⟩⟩
      · rw [update_of_ne hxy] at hf
        exact ⟨x, hx, hf, .inr ⟨hxy, hxi, rfl⟩⟩
  intro a ha b hb f g hf hg hsame
  obtain ⟨u, hu1, hu2, hu3⟩ := hold ha hf
  obtain ⟨w, hw1, hw2, hw3⟩ := hold hb hg
  have := hu u hu1 w hw1 f g hu2 hw2 hsame
  omega

/-- **The loop of `remove`** closes the gap and keeps the entries. -/
theorem removeLoop_spec (hF : F.Lawful) {z d : Nat} (hz : z < n) (hd : d < n) (hzd : z ≠ d) :
    ∀ (fuel i : Nat) (t : CkHashtable K V), t.len = n → i < n → n < fuel + steps n z i + 1 →
    Unique n (same F) t.table → GapInv n (home F n) z d (steps n z i + 1) t.table →
    ∃ T, removeLoop F fuel i t = .ok { t with table := T } ∧ Chained n (home F n) T ∧
      Unique n (same F) T ∧ (entries n T).Perm (entries n t.table) := by
  intro fuel
  induction fuel with
  | zero =>
    intro i t _ hi hf _ _
    have := steps_lt hz hi
    omega
  | succ fuel ih =>
    intro i t hlen hi _ hu hg
    subst hlen
    have hhome : ∀ e : K × V, home F t.len e < t.len := home_lt (zero_lt_of_lt hz)
    have hi' : incSlot t.len i < t.len := incSlot_lt (zero_lt_of_lt hz) i
    unfold removeLoop
    dsimp only
    rcases steps_incSlot hz hi with ⟨hback, hend⟩ | ⟨-, hstep⟩
    · -- all around: this is the empty slot `z`
      rw [hback, hg.cut]
      exact ⟨t.table, rfl, hg.close hz hhome (.inl hend), hu, .refl _⟩
    · cases hT : t.table (incSlot t.len i) with
      | none =>
        exact ⟨t.table, rfl, hg.close hz hhome (.inr ⟨_, hi', hstep, hT⟩), hu, .refl _⟩
      | some e =>
        rcases findEntry_in_gap hF hz hu hg hi' hstep hT with
          ⟨hr, hway⟩ | ⟨y, hr, hyi, hy, hTy, hle, hlt, hway⟩
        · simp only [hr, bind, Except.bind, ne_eq, not_true_eq_false]
          apply ih _ t rfl hi' (by omega) hu
          rw [hstep]
          refine hg.stay hz hi' hstep (fun y hy f hf => ?_)
          rw [hT, some.injEq] at hf
          exact hf ▸ hway y hy
        · simp only [hr, bind, Except.bind, ne_eq, symm hyi, not_false_iff]
          have hmoved := hg.move hz hd hzd hi' hstep hT hy hTy hle hlt hway
          rw [← hstep] at hmoved
          generalize hT' : update (update t.table y (some e)) (incSlot t.len i) none = T' at hmoved
          obtain ⟨T, hr', hch, huT, hperm⟩ := ih (incSlot t.len i) { t with table := T' }
            rfl hi' (by omega) (hT' ▸ Unique.move hu hi' hT) hmoved
          rw [← hT'] at hperm
          exact ⟨T, hr', hch, huT, hperm.trans (entries_move hi' hy hT hTy)⟩

/-- **`remove`** takes the entry out, and returns whether there was one. -/
theorem remove_spec (hF : F.Lawful) (h : HashInv F t) (key : K) :
    ∃ t' removed, remove F t key = .ok (t', removed) ∧ HashInv F t' ∧
      ((removed = 0 ∧ t' = t ∧ ∀ e ∈ entries t.len t.table, F.compare key e.1 = false) ∨
       (removed = 1 ∧ t'.len = t.len ∧ ∃ e, F.compare key e.1 = true ∧
          (entries t.len t.table).Perm (e :: entries t'.len t'.table))) := by
  unfold remove
  rcases findKey_cases hF h.probed key with ⟨d, e, hr, hd, he, hcmp⟩ | ⟨hr, hout⟩
  · rw [hr]
    obtain ⟨z, hz, hTz⟩ := exists_empty h.probed.room
    have hzd : z ≠ d := by
      intro heq
      rw [heq, he] at hTz
      exact absurd hTz (some_ne_none e)
    have hu : Unique t.len (same F) (update t.table d none) := by
      intro x hx y hy f g hf hg hsame
      have hold : ∀ {x : Nat} {f : K × V}, update t.table d none x = some f →
        t.table x = some f := by
        intro x f hf
        by_cases hxd : x = d
        · rw [hxd, update_self] at hf
          exact absurd hf (some_ne_none f).symm
        · rwa [update_of_ne hxd] at hf
      exact h.probed.unique x hx y hy f g (hold hf) (hold hg) hsame
    have hgap := h.probed.chained.openGap hz hd hzd hTz (home_lt h.probed.pos)
    obtain ⟨T, hloop, hch, huT, hperm⟩ := removeLoop_spec hF hz hd hzd t.len d
      { t with nObj := t.nObj - 1, table := update t.table d none } rfl hd (by omega)
      hu hgap
    have hclear := (entries_clear hd he).trans ((perm_cons e).mpr hperm.symm)
    have hlen := hclear.length_eq
    rw [length_cons] at hlen
    refine ⟨{ t with nObj := t.nObj - 1, table := T }, 1, ?_,
      ⟨⟨h.probed.pos, hch, huT, ?_⟩, ?_, h.resize, h.bound⟩, .inr ⟨rfl, rfl, e, hcmp, hclear⟩⟩
    · dsimp only
      rw [hloop]
      rfl
    · have := h.probed.room
      show (entries t.len T).length < t.len
      omega
    · show t.nObj - 1 = (entries t.len T).length
      rw [h.count]
      omega
  · rw [hr]
    exact ⟨t, 0, rfl, h, .inl ⟨rfl, rfl, hout⟩⟩

/-- `empty`. -/
theorem empty_spec (h : HashInv F t) :
    HashInv F t.empty ∧ entries t.empty.len t.empty.table = [] := by
  refine ⟨⟨probed_none F h.probed.pos, ?_, h.resize, h.bound⟩, entries_none _⟩
  show 0 = (entries t.len (fun _ => none)).length
  rw [entries_none]
  rfl

/-- The constructor makes a table that is not too long. -/
theorem create_ok {size : Nat} (hmax : n < maxLen) (hsize : size * n < maxLen) (lf : LoadFactor) :
    ∃ t : CkHashtable K V, create size n lf = .ok t := by
  unfold create buildTable
  exact ⟨_, if_pos ⟨hmax, hsize⟩⟩

theorem create_tooLong {size : Nat} (hsize : maxLen ≤ size * n) (lf : LoadFactor) :
    (create size n lf : Except HashAbort (CkHashtable K V)) = .error .tooLong := by
  unfold create buildTable
  exact if_neg fun hfits => Nat.not_lt_of_le hsize hfits.2

theorem create_inv (F : KeyFns K) (hn : 0 < n) {size : Nat} {lf : LoadFactor}
    (ht : create size n lf = .ok t) : HashInv F t ∧ entries t.len t.table = [] := by
  rw [create, buildTable] at ht
  split at ht
  · rename_i hfits
    cases ht
    refine ⟨⟨probed_none F hn, ?_, rfl, hfits⟩, entries_none n⟩
    show 0 = (entries n (fun _ => none)).length
    rw [entries_none]
    rfl
  · cases ht

end CkHashtable

end CharmRuntime.Util
