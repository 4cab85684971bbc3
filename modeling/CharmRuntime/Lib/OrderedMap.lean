import Mathlib.Algebra.Order.Group.Multiset
import Mathlib.Order.Nat

/-!
# Lib.OrderedMap

A map with ordered keys, as its entries in key order. `upsert` is `m[key]` on the left of
an assignment: the entry is changed, or created in its place.
-/

namespace CharmRuntime.Lib

open List

/-- The entries of a map, in key order. -/
abbrev OrderedMap (κ β : Type) := List (κ × β)

namespace OrderedMap

variable {κ β : Type} [LinearOrder κ]

/-- The keys ascend. -/
def Ascending (m : OrderedMap κ β) : Prop := m.Pairwise (·.1 < ·.1)

def find (key : κ) : OrderedMap κ β → Option β
  | [] => none
  | (k, b) :: rest => if k = key then some b else find key rest

/-- The entry of `key` becomes `f` of what it was. -/
def upsert (key : κ) (f : Option β → β) : OrderedMap κ β → OrderedMap κ β
  | [] => [(key, f none)]
  | (k, b) :: rest =>
    if key < k then (key, f none) :: (k, b) :: rest
    else if key = k then (k, f (some b)) :: rest
    else (k, b) :: upsert key f rest

variable {key : κ} {f : Option β → β} {m : OrderedMap κ β}

theorem find_eq_none (h : ∀ e ∈ m, key < e.1) : find key m = none := by
  induction m with
  | nil => rfl
  | cons e rest ih =>
    obtain ⟨hhead, hrest⟩ := forall_mem_cons.mp h
    simp only [find, if_neg (ne_of_gt hhead)]
    exact ih hrest

theorem find_ne_none {e : κ × β} (h : e ∈ m) : find e.1 m ≠ none := by
  induction m with
  | nil => exact absurd h not_mem_nil
  | cons e' rest ih =>
    obtain ⟨k, b⟩ := e'
    unfold find
    split
    · exact Option.some_ne_none b
    · rename_i hk
      obtain rfl | h := mem_cons.mp h
      · exact absurd rfl hk
      · exact ih h

theorem mem_of_find {b : β} (h : find key m = some b) : (key, b) ∈ m := by
  induction m with
  | nil => exact absurd h (by simp [find])
  | cons e rest ih =>
    unfold find at h
    split at h
    · rename_i hk
      subst hk
      obtain rfl := Option.some.inj h
      exact mem_cons_self ..
    · exact mem_cons_of_mem _ (ih h)

/-- The entry of `key` is the new one, the others are as before. -/
theorem mem_upsert (h : Ascending m) {e : κ × β} :
    e ∈ upsert key f m ↔ e = (key, f (find key m)) ∨ (e ∈ m ∧ e.1 ≠ key) := by
  induction m with
  | nil => simp [upsert, find]
  | cons e' rest ih =>
    obtain ⟨hgt, hrest⟩ := pairwise_cons.mp h
    obtain ⟨k, b⟩ := e'
    unfold upsert
    split
    · rename_i hlt
      have hall : ∀ e ∈ (k, b) :: rest, key < e.1 :=
        forall_mem_cons.mpr ⟨hlt, fun e he => hlt.trans (hgt e he)⟩
      rw [find_eq_none hall, mem_cons]
      exact or_congr_right (and_iff_left_of_imp fun he => ne_of_gt (hall e he)).symm
    · split
      · rename_i hk
        subst hk
        have hne : ∀ {e}, e ∈ rest → e.1 ≠ key := fun he => ne_of_gt (hgt _ he)
        simp only [find, mem_cons]
        constructor
        · rintro (rfl | he)
          · exact .inl rfl
          · exact .inr ⟨.inr he, hne he⟩
        · rintro (rfl | ⟨rfl | he, hk⟩)
          · exact .inl rfl
          · exact absurd rfl hk
          · exact .inr he
      · rename_i hk
        simp only [find, if_neg (Ne.symm hk), mem_cons, ih hrest]
        constructor
        · rintro (rfl | rfl | ⟨he, hne⟩)
          · exact .inr ⟨.inl rfl, symm hk⟩
          · exact .inl rfl
          · exact .inr ⟨.inr he, hne⟩
        · rintro (rfl | ⟨rfl | he, hne⟩)
          · exact .inr (.inl rfl)
          · exact .inl rfl
          · exact .inr (.inr ⟨he, hne⟩)

theorem Ascending.upsert (h : Ascending m) : Ascending (OrderedMap.upsert key f m) := by
  induction m with
  | nil => exact pairwise_singleton _ _
  | cons e rest ih =>
    obtain ⟨hgt, hrest⟩ := pairwise_cons.mp h
    unfold OrderedMap.upsert
    split
    · rename_i hlt
      refine pairwise_cons.mpr ⟨forall_mem_cons.mpr ⟨hlt, fun e he => ?_⟩, h⟩
      exact hlt.trans (hgt e he)
    · split
      · exact pairwise_cons.mpr ⟨hgt, hrest⟩
      · rename_i hlt hk
        refine pairwise_cons.mpr ⟨fun e he => ?_, ih hrest⟩
        obtain rfl | ⟨he, -⟩ := (mem_upsert hrest).mp he
        · exact lt_of_le_of_ne (not_lt.mp hlt) (symm hk)
        · exact hgt e he

/-- A new entry among the others. -/
theorem upsert_perm (h : ∀ e ∈ m, e.1 ≠ key) : (upsert key f m).Perm ((key, f none) :: m) := by
  induction m with
  | nil => exact Perm.refl _
  | cons e rest ih =>
    obtain ⟨hhead, hrest⟩ := forall_mem_cons.mp h
    unfold upsert
    split
    · exact Perm.refl _
    · rw [if_neg (symm hhead)]
      exact ((ih hrest).cons _).trans (Perm.swap ..)

/-! ### What the entries hold -/

variable {α : Type} {μ : β → Multiset α}

/-- What all entries hold together. -/
def total (μ : β → Multiset α) (m : OrderedMap κ β) : Multiset α := (m.map (μ ·.2)).sum

omit [LinearOrder κ] in
omit [LinearOrder κ] in
@[simp] theorem total_cons (k : κ) (b : β) (rest : OrderedMap κ β) :
    total μ ((k, b) :: rest) = μ b + total μ rest := by
  simp [total]

/-- An update that adds `x` to its entry adds it to the total. -/
theorem total_upsert {x : Multiset α} (hnone : μ (f none) = x)
    (hsome : ∀ b, μ (f (some b)) = x + μ b) : total μ (upsert key f m) = x + total μ m := by
  induction m with
  | nil => simp [upsert, hnone]
  | cons e rest ih =>
    unfold upsert
    split
    · rw [total_cons, hnone]
    · split
      · rw [total_cons, total_cons, hsome, add_assoc]
      · rw [total_cons, total_cons, ih, add_left_comm]

/-- An update that takes `x` from its entry takes it from the total. -/
theorem total_upsert_take {x : Multiset α} {b : β} (h : Ascending m) (hfind : find key m = some b)
    (htake : μ b = x + μ (f (some b))) : total μ m = x + total μ (upsert key f m) := by
  induction m with
  | nil => exact absurd hfind (by simp [find])
  | cons e rest ih =>
    obtain ⟨hgt, hrest⟩ := pairwise_cons.mp h
    obtain ⟨k, b'⟩ := e
    unfold find at hfind
    unfold upsert
    by_cases hk : k = key
    · subst hk
      rw [if_pos rfl] at hfind
      obtain rfl := Option.some.inj hfind
      rw [if_neg (lt_irrefl k), if_pos rfl, total_cons, total_cons, htake, add_assoc]
    · rw [if_neg hk] at hfind
      have hmem := mem_of_find hfind
      have hlt : k < key := hgt _ hmem
      rw [if_neg (lt_asymm hlt), if_neg (Ne.symm hk), total_cons, total_cons, ih hrest hfind,
        add_left_comm]

/-! ### Lookups behind an update -/

theorem find_eq_some_iff (h : Ascending m) {b : β} : find key m = some b ↔ (key, b) ∈ m := by
  refine ⟨mem_of_find, fun hmem => ?_⟩
  induction m with
  | nil => exact absurd hmem not_mem_nil
  | cons e rest ih =>
    obtain ⟨hgt, hrest⟩ := pairwise_cons.mp h
    unfold find
    obtain heq | hmem := mem_cons.mp hmem
    · obtain ⟨rfl, rfl⟩ := Prod.mk.inj heq
      exact if_pos rfl
    · rw [if_neg (ne_of_lt (hgt _ hmem))]
      exact ih hrest hmem

theorem find_upsert (h : Ascending m) (k : κ) :
    find k (upsert key f m) = if k = key then some (f (find key m)) else find k m := by
  by_cases hk : k = key
  · rw [if_pos hk, hk, find_eq_some_iff h.upsert, mem_upsert h]
    exact .inl rfl
  · rw [if_neg hk]
    cases hfind : find k m with
    | none =>
      by_contra hne
      obtain ⟨b, hb⟩ := Option.ne_none_iff_exists'.mp hne
      rw [find_eq_some_iff h.upsert, mem_upsert h] at hb
      obtain heq | ⟨hmem, -⟩ := hb
      · exact hk (Prod.mk.inj heq).1
      · exact find_ne_none hmem hfind
    | some b =>
      rw [find_eq_some_iff h.upsert, mem_upsert h]
      exact .inr ⟨mem_of_find hfind, hk⟩

/-! ### Inserting -/

/-- An entry that is there stays as it is. -/
def insertNew (key : κ) (b : β) (m : OrderedMap κ β) :
    OrderedMap κ β := upsert key (fun o => o.getD b) m

def insertAll (l : List (κ × β)) (m : OrderedMap κ β) :
    OrderedMap κ β := l.foldl (fun m e => insertNew e.1 e.2 m) m

theorem Ascending.insertAll (h : Ascending m) (l : List (κ × β)) :
    Ascending (OrderedMap.insertAll l m) := by
  induction l generalizing m with
  | nil => exact h
  | cons e l ih => exact ih h.upsert

/-- **Entries with different keys**, none of which is there. -/
theorem find_insertAll (h : Ascending m) {l : List (κ × β)} (hl : (l.map (·.1)).Nodup)
    (hnew : ∀ e ∈ l, find e.1 m = none) {k : κ} {b : β} :
    find k (insertAll l m) = some b ↔ (k, b) ∈ l ∨ find k m = some b := by
  induction l generalizing m with
  | nil => simp [insertAll]
  | cons e l ih =>
    obtain ⟨key, v⟩ := e
    rw [map_cons, nodup_cons] at hl
    obtain ⟨hkey, hl⟩ := hl
    obtain ⟨hnone, hnew⟩ := forall_mem_cons.mp hnew
    simp only at hkey hnone
    have hfind : ∀ k, find k (insertNew key v m) = if k = key then some v else find k m := by
      intro k
      rw [insertNew, find_upsert h, hnone]
      rfl
    have hrest : ∀ e ∈ l, find e.1 (insertNew key v m) = none := by
      intro e he
      have hne : e.1 ≠ key := by
        rintro rfl
        exact hkey (mem_map_of_mem he)
      rw [hfind, if_neg hne]
      exact hnew e he
    have hasc : Ascending (insertNew key v m) := h.upsert
    refine (ih hasc hl hrest).trans ?_
    rw [hfind, mem_cons, Prod.mk.injEq]
    by_cases hk : k = key
    · subst hk
      have hnot : (k, b) ∉ l := fun hmem => hkey (mem_map_of_mem hmem)
      rw [if_pos rfl, hnone]
      simp only [hnot, false_or, Option.some.injEq, true_and, reduceCtorEq, or_false]
      exact eq_comm
    · simp [hk]

/-- The keys are known by where there are entries. -/
theorem keys_eq (h : Ascending m) {l : List κ} (hl : l.Pairwise (· < ·))
    (hmem : ∀ k, find k m ≠ none ↔ k ∈ l) :
    m.map (·.1) = l := by
  have hkeys : (m.map (·.1)).Pairwise (· < ·) := pairwise_map.mpr h
  have hperm : (m.map (·.1)).Perm l := by
    refine (perm_ext_iff_of_nodup (hkeys.imp ne_of_lt) (hl.imp ne_of_lt)).mpr fun k => ?_
    rw [← hmem, mem_map]
    constructor
    · rintro ⟨e, he, rfl⟩
      exact find_ne_none he
    · intro hne
      obtain ⟨b, hb⟩ := Option.ne_none_iff_exists'.mp hne
      exact ⟨(k, b), mem_of_find hb, rfl⟩
  exact hperm.eq_of_pairwise (fun a b _ _ hab hba => absurd (lt_trans hab hba) (lt_irrefl a)) hkeys
    hl

/-! ### The entries up to a bound -/

theorem Ascending.mem_takeWhile (h : Ascending m) {bound : κ} {e : κ × β} :
    e ∈ m.takeWhile (·.1 ≤ bound) ↔ e ∈ m ∧ e.1 ≤ bound := by
  induction m with
  | nil => simp
  | cons e' rest ih =>
    obtain ⟨hgt, hrest⟩ := pairwise_cons.mp h
    by_cases hle : e'.1 ≤ bound
    · rw [takeWhile_cons_of_pos (by simpa using hle), mem_cons, mem_cons, ih hrest]
      constructor
      · rintro (rfl | ⟨hmem, hle'⟩)
        exacts [⟨.inl rfl, hle⟩, ⟨.inr hmem, hle'⟩]
      · rintro ⟨rfl | hmem, hle'⟩
        exacts [.inl rfl, .inr ⟨hmem, hle'⟩]
    · rw [takeWhile_cons_of_neg (by simpa using hle)]
      refine ⟨fun hmem => absurd hmem not_mem_nil, ?_⟩
      rintro ⟨hmem, hle'⟩
      obtain rfl | hmem := mem_cons.mp hmem
      · exact absurd hle' hle
      · exact absurd (le_trans (le_of_lt (hgt e hmem)) hle') hle

theorem Ascending.mem_dropWhile (h : Ascending m) {bound : κ} {e : κ × β} :
    e ∈ m.dropWhile (·.1 ≤ bound) ↔ e ∈ m ∧ bound < e.1 := by
  induction m with
  | nil => simp
  | cons e' rest ih =>
    obtain ⟨hgt, hrest⟩ := pairwise_cons.mp h
    by_cases hle : e'.1 ≤ bound
    · rw [dropWhile_cons_of_pos (by simpa using hle), ih hrest, mem_cons]
      refine ⟨fun ⟨hmem, hlt⟩ => ⟨.inr hmem, hlt⟩, ?_⟩
      rintro ⟨rfl | hmem, hlt⟩
      exacts [absurd hle (not_le_of_gt hlt), ⟨hmem, hlt⟩]
    · rw [dropWhile_cons_of_neg (by simpa using hle)]
      refine ⟨fun hmem => ⟨hmem, ?_⟩, fun ⟨hmem, _⟩ => hmem⟩
      obtain rfl | hmem := mem_cons.mp hmem
      · exact lt_of_not_ge hle
      · exact lt_trans (lt_of_not_ge hle) (hgt e hmem)

theorem Ascending.dropWhile {p : κ × β → Bool} (h : Ascending m) : Ascending (m.dropWhile p) :=
  h.sublist (dropWhile_sublist p)

/-- An update changes a sum over the entries by what it does to one of them. -/
theorem sum_upsert {M : Type} [AddCommMonoid M] (ν : β → M) (h : Ascending m) :
    ((upsert key f m).map (ν ·.2)).sum + (find key m).elim 0 ν = (m.map (ν ·.2)).sum +
    ν (f (find key m)) := by
  induction m with
  | nil => simp [upsert, find]
  | cons e rest ih =>
    obtain ⟨hgt, hrest⟩ := pairwise_cons.mp h
    obtain ⟨k, b⟩ := e
    unfold upsert
    split
    · rename_i hlt
      have hnone : find key ((k, b) :: rest) = none := by
        refine find_eq_none (forall_mem_cons.mpr ⟨hlt, fun e he => lt_trans hlt (hgt e he)⟩)
      rw [hnone]
      simp only [Option.elim_none, add_zero]
      exact add_comm _ _
    · split
      · rename_i hk
        subst hk
        simp only [find, if_pos, map_cons, sum_cons, Option.elim_some]
        rw [add_comm (ν b), add_comm (ν (f (some b))), add_right_comm]
      · rename_i hk
        have hfind : find key ((k, b) :: rest) = find key rest := if_neg (Ne.symm hk)
        rw [hfind]
        simp only [map_cons, sum_cons]
        rw [add_assoc, ih hrest, add_assoc]

/-! ### Erasing -/

/-- The entry of a key is erased. -/
def erase (key : κ) (m : OrderedMap κ β) : OrderedMap κ β := m.filter fun e => e.1 ≠ key

theorem mem_erase {e : κ × β} : e ∈ erase key m ↔ e ∈ m ∧ e.1 ≠ key := by
  unfold erase
  rw [mem_filter, decide_eq_true_iff]

theorem Ascending.erase (h : Ascending m) : Ascending (OrderedMap.erase key m) :=
  h.sublist filter_sublist

/-- A key has one entry. -/
theorem Ascending.eq_of_mem (h : Ascending m) {e e' : κ × β} (he : e ∈ m) (he' : e' ∈ m)
    (hkey : e.1 = e'.1) : e = e' := by
  have hfind := (find_eq_some_iff h).mpr he
  rw [hkey, (find_eq_some_iff h).mpr he'] at hfind
  exact Prod.ext hkey (Option.some.inj hfind).symm

/-! ### Neighbours -/

/-- The first entry that is not before a key. -/
def lowerBound (key : κ) (m : OrderedMap κ β) : Option (κ × β) := m.find? fun e => key ≤ e.1

/-- The last entry before a key. -/
def lastBefore (key : κ) (m : OrderedMap κ β) : Option (κ × β) := m.reverse.find? fun e => e.1 < key

omit [LinearOrder κ] in
theorem rel_of_find? {R : κ × β → κ × β → Prop} {l : List (κ × β)} (h : l.Pairwise R)
    {p : κ × β → Bool} {a e : κ × β}
    (hfind : l.find? p = some a) (he : e ∈ l) (hp : p e = true) : e = a ∨ R a e := by
  induction l with
  | nil => cases he
  | cons x l ih =>
    obtain ⟨hx, hl⟩ := pairwise_cons.mp h
    rw [find?_cons] at hfind
    split at hfind
    · obtain rfl := Option.some.inj hfind
      exact (mem_cons.mp he).imp_right (hx e)
    · rename_i hnot
      refine ih hl hfind ((mem_cons.mp he).resolve_left fun heq => ?_)
      rw [← heq, hp] at hnot
      cases hnot

theorem lowerBound_some (h : Ascending m) {e : κ × β} (hfind : lowerBound key m = some e) :
    e ∈ m ∧ key ≤ e.1 ∧ ∀ x ∈ m, key ≤ x.1 → e.1 ≤ x.1 := by
  refine ⟨mem_of_find?_eq_some hfind, by simpa using find?_some hfind, fun x hx hle => ?_⟩
  obtain rfl | hlt := rel_of_find? h hfind hx (by simpa using hle)
  exacts [le_refl _, le_of_lt hlt]

theorem lowerBound_none (hfind : lowerBound key m = none) {x : κ × β} (hx : x ∈ m) : x.1 < key := by
  simpa using find?_eq_none.mp hfind x hx

theorem lastBefore_some (h : Ascending m) {e : κ × β} (hfind : lastBefore key m = some e) :
    e ∈ m ∧ e.1 < key ∧ ∀ x ∈ m, x.1 < key → x.1 ≤ e.1 := by
  refine ⟨mem_reverse.mp (mem_of_find?_eq_some hfind), by simpa using find?_some hfind,
    fun x hx hlt => ?_⟩
  obtain rfl | hlt :=
    rel_of_find? (pairwise_reverse.mpr h) hfind (mem_reverse.mpr hx) (by simpa using hlt)
  exacts [le_refl _, le_of_lt hlt]

theorem lastBefore_none (hfind : lastBefore key m = none) {x : κ × β} (hx : x ∈ m) : key ≤ x.1 := by
  simpa using find?_eq_none.mp hfind x (mem_reverse.mpr hx)

/-! ### Maps of lists -/

/-- What the lists of a map hold, one after the other. -/
def contents (m : OrderedMap κ (List α)) : List α := m.flatMap (·.2)

omit [LinearOrder κ] in
omit [LinearOrder κ] in
@[simp] theorem contents_cons (k : κ) (l : List α) (rest : OrderedMap κ (List α)) :
    contents ((k, l) :: rest) = l ++ contents rest := rfl

omit [LinearOrder κ] in
theorem mem_contents {a : α} {m : OrderedMap κ (List α)} :
    a ∈ contents m ↔ ∃ e ∈ m, a ∈ e.2 := mem_flatMap

omit [LinearOrder κ] in
theorem coe_contents (m : OrderedMap κ (List α)) :
    (contents m : Multiset α) = total (fun l : List α => (l : Multiset α)) m := by
  induction m with
  | nil => rfl
  | cons e rest ih =>
    obtain ⟨k, l⟩ := e
    rw [contents_cons, total_cons, ← ih, Multiset.coe_add]

omit [LinearOrder κ] in
/-- A filter that keeps everything. -/
theorem map_filter_eq_self {m : OrderedMap κ (List α)} {p : α → Bool}
    (h : ∀ a ∈ contents m, p a = true) :
    m.map (fun e => (e.1, e.2.filter p)) = m := by
  refine (map_congr_left fun e he => ?_).trans (map_id _)
  rw [filter_eq_self.mpr fun a ha => h a (mem_contents.mpr ⟨e, he, ha⟩)]
  rfl

/-- A list gets a new member. -/
theorem contents_push {key : κ} {a : α} {m : OrderedMap κ (List α)} :
    (contents (upsert key (fun l => l.getD [] ++ [a]) m)).Perm (a :: contents m) := by
  rw [← Multiset.coe_eq_coe, coe_contents, total_upsert rfl, ← coe_contents]
  · rfl
  · intro l
    rw [add_comm]
    rfl

/-- A list that is there already, or begins empty. -/
theorem contents_touch {key : κ} {m : OrderedMap κ (List α)} :
    (contents (upsert key (fun l => l.getD []) m)).Perm (contents m) := by
  rw [← Multiset.coe_eq_coe, coe_contents, total_upsert (x := 0) rfl, ← coe_contents, zero_add]
  intro l
  rw [Option.getD_some, zero_add]

/-- A list loses its first member. -/
theorem contents_pop {key : κ} {a : α} {l : List α} {m : OrderedMap κ (List α)} (h : Ascending m)
    (hfind : find key m = some (a :: l)) :
    (contents m).Perm (a :: contents (upsert key (fun _ => l) m)) := by
  have htake : ((a :: l) : Multiset α) = {a} + l := rfl
  rw [← Multiset.coe_eq_coe, coe_contents, total_upsert_take (f := fun _ => l) h hfind
    htake, ← coe_contents]
  rfl

end OrderedMap

end CharmRuntime.Lib
