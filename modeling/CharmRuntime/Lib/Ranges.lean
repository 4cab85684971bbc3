import CharmRuntime.Lib.OrderedMap

/-!
# Lib.Ranges

**A set of integers as an ordered map** from the start of each of its maximal runs to the length of
the run (`Separated`). A run of the set lies in one entry (`Separated.exists_of_run`).

* the upper end of an entry is taken out (`Separated.shrink`);
* a range that is not in the set (`Fits`) is put in: it eats the entry behind it (`Fits.eat`), and
then either grows the entry before it (`Fits.grow`) or becomes an entry (`Fits.add`).
-/

namespace CharmRuntime.Lib.Ranges

open OrderedMap

/-- Entries that are not empty, with gaps between them. -/
structure Separated (m : OrderedMap Int Int) : Prop where
  ascending : Ascending m
  pos : ∀ e ∈ m, 0 < e.2
  gap : ∀ e ∈ m, ∀ e' ∈ m, e.1 < e'.1 → e.1 + e.2 < e'.1

/-- `b` is in the set. -/
def Covers (m : OrderedMap Int Int) (b : Int) : Prop := ∃ e ∈ m, e.1 ≤ b ∧ b < e.1 + e.2

variable {m m' : OrderedMap Int Int} {e : Int × Int} {o s : Int}

theorem separated_singleton (hs : 0 < s) : Separated [(o, s)] :=
  ⟨List.pairwise_singleton _ _, fun e he => by rwa [List.mem_singleton.mp he],
  fun e he e' he' hlt => by
      rw [List.mem_singleton.mp he, List.mem_singleton.mp he'] at hlt
      exact absurd hlt (lt_irrefl o)⟩

/-- Entries with different starts do not meet. -/
theorem Separated.apart (h : Separated m) {e' : Int × Int} (he : e ∈ m) (he' : e' ∈ m)
    (hne : e.1 ≠ e'.1) :
    e.1 + e.2 < e'.1 ∨ e'.1 + e'.2 < e.1 :=
  (lt_or_gt_of_ne hne).imp (h.gap e he e' he') (h.gap e' he' e he)

/-- **A run of the set lies in one entry.** -/
theorem Separated.exists_of_run (h : Separated m) (hs : 0 < s)
    (hrun : ∀ b, o ≤ b → b < o + s → Covers m b) :
    ∃ e ∈ m, e.1 ≤ o ∧ o + s ≤ e.1 + e.2 := by
  obtain ⟨e, he, hle, hlt⟩ := hrun o (le_refl o) (by omega)
  refine ⟨e, he, hle, ?_⟩
  by_contra hend
  -- The end of the entry would be in another one.
  obtain ⟨e', he', hle', hlt'⟩ := hrun (e.1 + e.2) (by omega) (by omega)
  have hne : e.1 ≠ e'.1 := by
    intro heq
    rw [h.ascending.eq_of_mem he he' heq] at hlt'
    exact absurd hlt' (lt_irrefl _)
  have hapart := h.apart he he' hne
  omega

/-- The upper end of an entry is taken out. -/
theorem Separated.shrink (h : Separated m) (he : e ∈ m) (hs : 0 < s) (hle : s ≤ e.2)
    (hasc : Ascending m')
    (hmem : ∀ x, x ∈ m' ↔ (x ∈ m ∧ x.1 ≠ e.1) ∨ (s < e.2 ∧ x = (e.1, e.2 - s))) :
    Separated m' ∧ ∀ b, Covers m' b ↔ Covers m b ∧ ¬ (e.1 + e.2 - s ≤ b ∧ b < e.1 + e.2) := by
  have hpart : ∀ x ∈ m', ∃ y ∈ m, x.1 = y.1 ∧ 0 < x.2 ∧ x.2 ≤ y.2 := by
    intro x hx
    obtain ⟨hx, -⟩ | ⟨hlt, rfl⟩ := (hmem x).mp hx
    · exact ⟨x, hx, rfl, h.pos x hx, le_refl _⟩
    · exact ⟨e, he, rfl, by omega, by omega⟩
  refine ⟨⟨hasc, ?_, ?_⟩, fun b => ?_⟩
  · intro x hx
    obtain ⟨-, -, -, hpos, -⟩ := hpart x hx
    exact hpos
  · intro x hx x' hx' hlt
    obtain ⟨y, hy, heq, -, hle⟩ := hpart x hx
    obtain ⟨y', hy', heq', -⟩ := hpart x' hx'
    have hgap := h.gap y hy y' hy' (by omega)
    omega
  · constructor
    · rintro ⟨x, hx, hxb, hbx⟩
      obtain ⟨hx, hne⟩ | ⟨hlt, rfl⟩ := (hmem x).mp hx
      · have hapart := h.apart hx he hne
        exact ⟨⟨x, hx, hxb, hbx⟩, by omega⟩
      · exact ⟨⟨e, he, hxb, by omega⟩, by omega⟩
    · rintro ⟨⟨x, hx, hxb, hbx⟩, hout⟩
      by_cases hne : x.1 = e.1
      · obtain rfl := h.ascending.eq_of_mem hx he hne
        exact ⟨(x.1, x.2 - s), (hmem _).mpr (.inr ⟨by omega, rfl⟩), hxb, by omega⟩
      · exact ⟨x, (hmem x).mpr (.inl ⟨hx, hne⟩), hxb, hbx⟩

/-- A range that is not in the set. -/
structure Fits (m : OrderedMap Int Int) (o s : Int) : Prop where
  pos : 0 < s
  below : ∀ e ∈ m, e.1 < o → e.1 + e.2 ≤ o
  above : ∀ e ∈ m, o ≤ e.1 → o + s ≤ e.1

theorem Separated.fits (h : Separated m) (hs : 0 < s)
    (hout : ∀ b, o ≤ b → b < o + s → ¬ Covers m b) : Fits m o s := by
  refine ⟨hs, fun e he hlt => ?_, fun e he hle => ?_⟩
  · by_contra hend
    exact hout o (le_refl o) (by omega) ⟨e, he, by omega, by omega⟩
  · by_contra hend
    have hpos := h.pos e he
    exact hout e.1 hle (by omega) ⟨e, he, by omega, by omega⟩

theorem Separated.erase (h : Separated m) (key : Int) : Separated (OrderedMap.erase key m) :=
  ⟨h.ascending.erase, fun e he => h.pos e (mem_erase.mp he).1,
    fun e he e' he' => h.gap e (mem_erase.mp he).1 e' (mem_erase.mp he').1⟩

/-- The range eats the entry behind it. -/
theorem Fits.eat (h : Separated m) (hf : Fits m o s) (he : e ∈ m) (hadj : o + s = e.1) :
    Fits (OrderedMap.erase e.1 m) o (s + e.2) ∧
    (∀ x ∈ OrderedMap.erase e.1 m, o ≤ x.1 → o + (s + e.2) < x.1) ∧
      ∀ b, (Covers (OrderedMap.erase e.1 m) b ∨ (o ≤ b ∧ b < o + (s + e.2))) ↔
      (Covers m b ∨ (o ≤ b ∧ b < o + s)) := by
  have hs := hf.pos
  have hpos := h.pos e he
  have habove : ∀ x ∈ erase e.1 m, o ≤ x.1 → o + (s + e.2) < x.1 := by
    intro x hx hle
    obtain ⟨hx, hne⟩ := mem_erase.mp hx
    have hx' := hf.above x hx hle
    have hapart := h.apart hx he hne
    have hposx := h.pos x hx
    omega
  refine ⟨⟨by omega, fun x hx => hf.below x (mem_erase.mp hx).1, fun x hx hle =>
    (habove x hx hle).le⟩, habove, fun b => ?_⟩
  constructor
  · rintro (⟨x, hx, hb⟩ | hb)
    · exact .inl ⟨x, (mem_erase.mp hx).1, hb⟩
    · by_cases hlt : b < o + s
      · exact .inr ⟨hb.1, hlt⟩
      · exact .inl ⟨e, he, by omega, by omega⟩
  · rintro (⟨x, hx, hb⟩ | hb)
    · by_cases hkey : x.1 = e.1
      · obtain rfl := h.ascending.eq_of_mem hx he hkey
        exact .inr (by omega)
      · exact .inl ⟨x, mem_erase.mpr ⟨hx, hkey⟩, hb⟩
    · exact .inr (by omega)

/-- The entry before the range grows. -/
theorem Fits.grow (h : Separated m) (hf : Fits m o s) (habove : ∀ x ∈ m, o ≤ x.1 → o + s < x.1)
    (he : e ∈ m)
    (hadj : e.1 + e.2 = o) :
    Separated (upsert e.1 (fun _ => e.2 + s) m) ∧
      ∀ b, Covers (upsert e.1 (fun _ => e.2 + s) m) b ↔ Covers m b ∨ (o ≤ b ∧ b < o + s) := by
  have hs := hf.pos
  have hpos := h.pos e he
  have hmem (x : Int × Int) : x ∈ upsert e.1 (fun _ => e.2 + s) m ↔ x = (e.1, e.2 + s) ∨
    (x ∈ m ∧ x.1 ≠ e.1) :=
    mem_upsert h.ascending
  have hother {x : Int × Int} (hx : x ∈ m) (hne : x.1 ≠ e.1) : x.1 + x.2 < e.1 ∨ o + s < x.1 := by
    obtain hlt | hgt := h.apart hx he hne
    · exact .inl hlt
    · exact .inr (habove x hx (by omega))
  refine ⟨⟨h.ascending.upsert, fun x hx => ?_, fun x hx x' hx' hlt => ?_⟩, fun b => ?_⟩
  · obtain rfl | ⟨hx, -⟩ := (hmem x).mp hx
    · omega
    · exact h.pos x hx
  · obtain rfl | ⟨hx, hne⟩ := (hmem x).mp hx
    · obtain rfl | ⟨hx', hne'⟩ := (hmem x').mp hx'
      · exact absurd hlt (lt_irrefl _)
      · have hcase := hother hx' hne'
        have hposx := h.pos x' hx'
        omega
    · obtain rfl | ⟨hx', hne'⟩ := (hmem x').mp hx'
      · exact h.gap x hx e he hlt
      · exact h.gap x hx x' hx' hlt
  · constructor
    · rintro ⟨x, hx, hb⟩
      obtain rfl | ⟨hx, -⟩ := (hmem x).mp hx
      · by_cases hlt : b < o
        · exact .inl ⟨e, he, by omega, by omega⟩
        · exact .inr (by omega)
      · exact .inl ⟨x, hx, hb⟩
    · rintro (⟨x, hx, hb⟩ | hb)
      · by_cases hkey : x.1 = e.1
        · obtain rfl := h.ascending.eq_of_mem hx he hkey
          exact ⟨_, (hmem _).mpr (.inl rfl), hb.1, by omega⟩
        · exact ⟨x, (hmem x).mpr (.inr ⟨hx, hkey⟩), hb⟩
      · exact ⟨_, (hmem _).mpr (.inl rfl), by omega, by omega⟩

/-- The range becomes an entry. -/
theorem Fits.add (h : Separated m) (hf : Fits m o s) (habove : ∀ x ∈ m, o ≤ x.1 → o + s < x.1)
    (hbelow : ∀ x ∈ m, x.1 < o → x.1 + x.2 < o) :
    Separated (upsert o (fun _ => s) m) ∧ ∀ b, Covers (upsert o (fun _ => s) m) b ↔ Covers m b ∨
    (o ≤ b ∧ b < o + s) := by
  have hs := hf.pos
  have hne {x : Int × Int} (hx : x ∈ m) : x.1 ≠ o := by
    intro heq
    have hlt := habove x hx (le_of_eq heq.symm)
    omega
  have hmem (x : Int × Int) : x ∈ upsert o (fun _ => s) m ↔ x = (o, s) ∨ x ∈ m :=
    (mem_upsert h.ascending).trans (or_congr_right (and_iff_left_of_imp hne))
  refine ⟨⟨h.ascending.upsert, fun x hx => ?_, fun x hx x' hx' hlt => ?_⟩, fun b => ?_⟩
  · obtain rfl | hx := (hmem x).mp hx
    exacts [hs, h.pos x hx]
  · obtain rfl | hx := (hmem x).mp hx
    · obtain rfl | hx' := (hmem x').mp hx'
      · exact absurd hlt (lt_irrefl _)
      · exact habove x' hx' hlt.le
    · obtain rfl | hx' := (hmem x').mp hx'
      · exact hbelow x hx hlt
      · exact h.gap x hx x' hx' hlt
  · constructor
    · rintro ⟨x, hx, hb⟩
      obtain rfl | hx := (hmem x).mp hx
      exacts [.inr hb, .inl ⟨x, hx, hb⟩]
    · rintro (⟨x, hx, hb⟩ | hb)
      exacts [⟨x, (hmem x).mpr (.inr hx), hb⟩, ⟨(o, s), (hmem _).mpr (.inl rfl), hb⟩]

end CharmRuntime.Lib.Ranges
