import CharmRuntime.Zht.Table

/-!
# Zht.Iterator

The **iterators** of `novoht.h`. An iterator is at an entry of a chain, `current`, or behind the
last one, where `current` is NULL. `hasNext` says whether there is an entry behind it, or a bucket,
and the loop `while (it.hasNext()) it.next()` yields the entries that it comes to (`drain`).

The loop leaves the iterator at the last entry of the last bucket without yielding it (`drain_at`).
A pointer to an entry is the rest of its chain from there on, and NULL is the empty one.
-/

namespace CharmRuntime.Zht

open Lib List
open CharmRuntime.Matrix (Text)

/-- What goes wrong. -/
inductive IteratorFault
  /-- `current` is read and was never set. -/
  | uninitialised
  /-- An entry is read at NULL. -/
  | nullCurrent
deriving DecidableEq, Repr

/-- `novoht_iterator`. -/
structure Iterator where
  list : SlotTable Entry
  length : Nat
  index : Nat
  current : Option (List Entry)

namespace Iterator

/-- The loop of the constructor. -/
def firstLoop (list : SlotTable Entry) (length : Nat) :
    Nat → Nat → Option (List Entry) → Nat × Option (List Entry)
  | 0, index, current => (index, current)
  | rounds + 1, index, current =>
    if index < length then
      if list index = [] then firstLoop list length rounds (index + 1) (some [])
      else (index, some (list index))
    else (index, current)

/-- The constructor, which does not set `current` itself. -/
def new (list : SlotTable Entry) (length : Nat) : Iterator :=
  let (index, current) := firstLoop list length length 0 none
  { list := list, length := length, index := index, current := current }

/-- The loop over the buckets moves a cursor that the result does not depend on. -/
def hasNext (it : Iterator) : Except IteratorFault Bool :=
  match it.current with
  | none => .error .uninitialised
  | some cur => .ok (cur.tail ≠ [] ∨ it.index + 1 < it.length)

/-- The loop of `nextInternal`. -/
def nextLoop (list : SlotTable Entry) (length : Nat) : Nat → Nat → List Entry → Nat × List Entry
  | 0, index, current => (index, current)
  | rounds + 1, index, current =>
    if index + 1 < length then
      if list (index + 1) = [] then nextLoop list length rounds (index + 1) []
      else (index + 1, list (index + 1))
    else (index, current)

def nextInternal (it : Iterator) (cur : List Entry) : Iterator :=
  if cur.tail ≠ [] then { it with current := some cur.tail }
  else
    let (index, current) := nextLoop it.list it.length it.length it.index cur
    { it with index := index, current := some current }

/-- `next` of an iterator that yields `view` of an entry. -/
def next {β : Type} (view : Entry → β) (it : Iterator) : Except IteratorFault (β × Iterator) :=
  match it.current with
  | none => .error .uninitialised
  | some [] => .error .nullCurrent
  | some (e :: rest) => .ok (view e, it.nextInternal (e :: rest))

/-- `while (it.hasNext()) it.next()`, and what is yielded. `fuel` bounds the rounds. -/
def drain {β : Type} (view : Entry → β) : Nat → Iterator → Option (Except IteratorFault (List β))
  | 0, _ => none
  | fuel + 1, it =>
    match it.hasNext with
    | .error e => some (.error e)
    | .ok false => some (.ok [])
    | .ok true =>
      match it.next view with
      | .error e => some (.error e)
      | .ok (b, it) => (drain view fuel it).map fun out => out.map (b :: ·)

end Iterator

/-- What `pair_iterator` yields: the strings are made of `c_str()`. -/
def pairOf (e : Entry) : Entry := { key := cstr e.key, val := cstr e.val }

def Table.iterator (t : Table) : Iterator := Iterator.new t.kvpairs t.size

/-! ### What the loop yields -/

namespace Iterator

variable {list : SlotTable Entry} {length : Nat} {β : Type}

/-- The entries from a bucket on. -/
def behind (list : SlotTable Entry) (length i : Nat) :
    List Entry := (List.range' i (length - i)).flatMap list

theorem behind_eq {i : Nat} (hi : i < length) :
    behind list length i = list i ++ behind list length (i + 1) := by
  obtain ⟨n, hn⟩ : ∃ n, length - i = n + 1 := ⟨length - i - 1, by omega⟩
  have hn' : length - (i + 1) = n := by omega
  rw [behind, behind, hn, hn', range'_succ, flatMap_cons]

theorem behind_end : behind list length length = [] := by
  rw [behind, Nat.sub_self]
  rfl

theorem elements_eq_behind (list : SlotTable Entry) (length : Nat) :
    SlotTable.elements length list = behind list length 0 := by
  rw [SlotTable.elements, behind, range_eq_range', Nat.sub_zero]

theorem last_of_behind_nil {i : Nat} (hi : i < length) (h : behind list length i = []) :
    list (length - 1) = [] := by
  refine flatMap_eq_nil_iff.mp h (length - 1) (mem_range'_1.mpr ?_)
  omega

/-- The loop of `nextInternal` comes to the next bucket with an entry, or to the end. -/
theorem nextLoop_cases (rounds index : Nat) (cur : List Entry)
    (hrounds : length ≤ index + 1 + rounds) :
    (∃ j, index < j ∧ j < length ∧ list j ≠ [] ∧ nextLoop list length rounds index cur =
    (j, list j) ∧
      behind list length (index + 1) = behind list length j) ∨
    (behind list length (index + 1) = [] ∧ length ≤ (nextLoop list length rounds index cur).1 + 1 ∧
      (index + 1 < length → (nextLoop list length rounds index cur).2 = [])) := by
  induction rounds generalizing index cur with
  | zero =>
    right
    have hnone : length - (index + 1) = 0 := by omega
    refine ⟨?_, by simpa [nextLoop] using hrounds, fun hlt => absurd hlt (by omega)⟩
    rw [behind, hnone]
    rfl
  | succ rounds ih =>
    rw [nextLoop]
    by_cases hlt : index + 1 < length
    · rw [if_pos hlt]
      by_cases hempty : list (index + 1) = []
      · rw [if_pos hempty, behind_eq hlt, hempty]
        obtain ⟨j, hij, hj, hne, hloop, hbehind⟩ | ⟨hnone, hend, hnull⟩ :=
          ih (index + 1) [] (by omega)
        · exact .inl ⟨j, by omega, hj, hne, hloop, hbehind⟩
        · refine .inr ⟨hnone, hend, fun _ => ?_⟩
          by_cases hlt' : index + 1 + 1 < length
          · exact hnull hlt'
          · cases rounds with
            | zero => rfl
            | succ rounds => rw [nextLoop, if_neg hlt']
      · rw [if_neg hempty]
        exact .inl ⟨index + 1, Nat.lt_succ_self _, hlt, hempty, rfl, rfl⟩
    · rw [if_neg hlt]
      have hnone : length - (index + 1) = 0 := by omega
      refine .inr ⟨?_, by simpa using hlt, fun hlt' => absurd hlt' hlt⟩
      rw [behind, hnone]
      rfl

/-- The iterator is at an entry. -/
structure At (list : SlotTable Entry) (length : Nat) (cur : List Entry) (it : Iterator) : Prop where
  list_eq : it.list = list
  length_eq : it.length = length
  current : it.current = some cur
  suffix : cur <:+ list it.index
  nonempty : cur ≠ []
  inside : it.index < length

/-- `hasNext` says no. -/
def Ended (it : Iterator) : Prop := it.hasNext = .ok false

theorem drain_ended {it : Iterator} (view : Entry → β) (h : Ended it) (fuel : Nat) :
    drain view (fuel + 1) it = some (.ok []) := by
  rw [drain, h]

/-- **What the loop yields** from an entry on: all that follows, if the last bucket is empty, and
all but the last entry otherwise. -/
theorem drain_at (view : Entry → β) {cur : List Entry} {it : Iterator} (h : At list length cur it)
    {fuel : Nat}
    (hfuel : (cur ++ behind list length (it.index + 1)).length < fuel) :
    drain view fuel it =
    some (.ok ((if list (length - 1) = [] then cur ++ behind list length (it.index + 1)
      else (cur ++ behind list length (it.index + 1)).dropLast).map view)) := by
  induction fuel generalizing cur it with
  | zero => exact absurd hfuel (Nat.not_lt_zero _)
  | succ fuel ih =>
    obtain ⟨e, rest, rfl⟩ := exists_cons_of_ne_nil h.nonempty
    have hinside := h.inside
    have hnext : it.next view = .ok (view e, it.nextInternal (e :: rest)) := by
      rw [next, h.current]
    rw [drain]
    have hhas : it.hasNext = .ok (decide (rest ≠ [] ∨ it.index + 1 < length)) := by
      rw [hasNext, h.current, h.length_eq]
      rfl
    by_cases hrest : rest = []
    · subst hrest
      by_cases hlt : it.index + 1 < length
      · -- the next bucket that has an entry is looked for
        have hhas' : it.hasNext = .ok true := by rw [hhas, decide_eq_true (.inr hlt)]
        have hinternal : it.nextInternal [e] = { it with
              index := (nextLoop list length length it.index [e]).1
              current := some (nextLoop list length length it.index [e]).2 } := by
          rw [nextInternal, h.list_eq, h.length_eq]
          rfl
        rw [hhas']
        simp only [hnext, hinternal]
        obtain ⟨j, -, hj, hne, hloop, hbehind⟩ | ⟨hnone, hend, hnull⟩ :=
          @nextLoop_cases list length length it.index [e] (by omega)
        · have hat : At list length (list j) { it with index := j, current := some (list j) } :=
            ⟨h.list_eq, h.length_eq, rfl, suffix_rfl, hne, hj⟩
          have hbehind' := hbehind.trans (behind_eq hj)
          rw [hbehind'] at hfuel ⊢
          rw [hloop, ih hat (by simpa using hfuel)]
          have hne' : list j ++ behind list length (j + 1) ≠ [] :=
            append_ne_nil_of_left_ne_nil hne _
          by_cases hlast : list (length - 1) = []
          · simp [hlast, Except.map]
          · simp [hlast, Except.map, dropLast_cons_of_ne_nil hne']
        · have hlast := last_of_behind_nil hlt hnone
          have hended : Ended { it with
              index := (nextLoop list length length it.index [e]).1
              current := some (nextLoop list length length it.index [e]).2 } := by
            rw [Ended, hasNext]
            simp [hnull hlt, h.length_eq, hend]
          obtain ⟨fuel, rfl⟩ : ∃ f, fuel = f + 1 := ⟨fuel - 1, by simp at hfuel; omega⟩
          rw [drain_ended view hended, hnone]
          simp [hlast, Except.map]
      · -- the last entry of the last bucket: `hasNext` says no
        have hhas' : it.hasNext = .ok false := by
          rw [hhas, decide_eq_false]
          exact not_or.mpr ⟨fun hne => hne rfl, hlt⟩
        rw [hhas']
        have hindex : it.index = length - 1 := by omega
        have hlast : list (length - 1) ≠ [] := by
          rw [← hindex]
          intro hnil
          have hsuffix := h.suffix
          rw [hnil] at hsuffix
          exact absurd (suffix_nil.mp hsuffix) (cons_ne_nil _ _)
        have hend : it.index + 1 = length := by omega
        rw [hend, behind_end, if_neg hlast]
        rfl
    · have hhas' : it.hasNext = .ok true := by rw [hhas, decide_eq_true (.inl hrest)]
      have hinternal : it.nextInternal (e :: rest) = { it with current := some rest } := by
        rw [nextInternal, tail_cons, if_pos hrest]
      have hat : At list length rest { it with current := some rest } :=
        ⟨h.list_eq, h.length_eq, rfl, (suffix_cons e rest).trans h.suffix, hrest, hinside⟩
      rw [hhas']
      simp only [hnext, hinternal]
      rw [ih hat (by simpa using hfuel)]
      have hne' : rest ++ behind list length (it.index + 1) ≠ [] :=
        append_ne_nil_of_left_ne_nil hrest _
      by_cases hlast : list (length - 1) = []
      · simp [hlast, Except.map]
      · simp [hlast, Except.map, dropLast_cons_of_ne_nil hne']

/-- The loop of the constructor comes to the first bucket with an entry, or to the end. -/
theorem firstLoop_cases (rounds index : Nat) (cur : Option (List Entry))
    (hrounds : length ≤ index + rounds) :
    (∃ j, j < length ∧ list j ≠ [] ∧ firstLoop list length rounds index cur = (j, some (list j)) ∧
      behind list length index = behind list length j) ∨
    (behind list length index = [] ∧ length ≤ (firstLoop list length rounds index cur).1 ∧
      (firstLoop list length rounds index cur).2 = if index < length then some [] else cur) := by
  induction rounds generalizing index cur with
  | zero =>
    right
    have hnone : length - index = 0 := by omega
    refine ⟨?_, hrounds, (if_neg (by omega)).symm⟩
    rw [behind, hnone]
    rfl
  | succ rounds ih =>
    rw [firstLoop]
    by_cases hlt : index < length
    · rw [if_pos hlt]
      by_cases hempty : list index = []
      · rw [behind_eq hlt, hempty]
        obtain ⟨j, hj, hne, hloop, hbehind⟩ | ⟨hnone, hend, hcur⟩ :=
          ih (index + 1) (some []) (by omega)
        · exact .inl ⟨j, hj, hne, hloop, hbehind⟩
        · refine .inr ⟨hnone, hend, hcur.trans ?_⟩
          split <;> rfl
      · rw [if_neg hempty]
        exact .inl ⟨index, hlt, hempty, rfl, rfl⟩
    · rw [if_neg hlt, if_neg hlt]
      have hnone : length - index = 0 := by omega
      refine .inr ⟨?_, not_lt.mp hlt, rfl⟩
      rw [behind, hnone]
      rfl

theorem drain_new (view : Entry → β) (list : SlotTable Entry) (hpos : 0 < length) {fuel : Nat}
    (hfuel : (SlotTable.elements length list).length < fuel) :
    drain view fuel (new list length) =
    some (.ok ((if list (length - 1) = [] then SlotTable.elements length list
      else (SlotTable.elements length list).dropLast).map view)) := by
  rw [elements_eq_behind] at hfuel ⊢
  obtain ⟨j, hj, hne, hloop, hbehind⟩ | ⟨hnone, hend, hcur⟩ :=
    @firstLoop_cases list length length 0 none (by omega)
  · have hat : At list length (list j) (new list length) := by
      rw [new, hloop]
      exact ⟨rfl, rfl, rfl, suffix_rfl, hne, hj⟩
    have hindex : (new list length).index = j := by rw [new, hloop]
    have hdrain := @drain_at list length β view _ _ hat fuel
    rw [hindex, ← behind_eq hj, ← hbehind] at hdrain
    exact hdrain hfuel
  · have hended : Ended (new list length) := by
      rw [Ended, hasNext, new]
      simp only [hcur, if_pos hpos]
      simp
      omega
    obtain ⟨fuel, rfl⟩ : ∃ f, fuel = f + 1 := ⟨fuel - 1, by omega⟩
    rw [drain_ended view hended, hnone]
    simp

/-- The loop on an iterator of a table without buckets reads `current`, which was never set. -/
theorem drain_new_zero (view : Entry → β) (list : SlotTable Entry) (fuel : Nat) :
    drain view (fuel + 1) (new list 0) = some (.error .uninitialised) := rfl

theorem drain_succ {view : Entry → β} {fuel : Nat} {it : Iterator}
    {r : Except IteratorFault (List β)}
    (h : drain view fuel it = some r) : drain view (fuel + 1) it = some r := by
  induction fuel generalizing it r with
  | zero => cases h
  | succ fuel ih =>
    rw [drain] at h ⊢
    split at h
    · exact h
    · exact h
    · split at h
      · exact h
      · obtain ⟨r', hr', rfl⟩ := Option.map_eq_some_iff.mp h
        rw [ih hr']
        rfl

theorem drain_le {view : Entry → β} {fuel more : Nat} {it : Iterator}
    {r : Except IteratorFault (List β)}
    (hle : fuel ≤ more) (h : drain view fuel it = some r) : drain view more it = some r := by
  induction hle with
  | refl => exact h
  | step _ ih => exact drain_succ ih

/-- The loop ends without a fault, and yields `expected` in some order. -/
def Yields (view : Entry → β) (it : Iterator) (expected : List β) : Prop :=
  ∃ fuel out, drain view fuel it = some (.ok out) ∧ out.Perm expected

theorem yields_iff (view : Entry → β) (list : SlotTable Entry) (length : Nat) (expected : List β)
    (hlength : expected.length = (SlotTable.elements length list).length) :
    Yields view (new list length) expected ↔
      0 < length ∧ list (length - 1) = [] ∧
      ((SlotTable.elements length list).map view).Perm expected := by
  obtain rfl | hpos := Nat.eq_zero_or_pos length
  · constructor
    · intro h
      obtain ⟨fuel, out, hdrain, -⟩ := h
      have hfault := (drain_le (Nat.le_succ fuel) hdrain).symm.trans (drain_new_zero view list fuel)
      cases hfault
    · exact fun h => absurd h.1 (lt_irrefl 0)
  · have hnew : ∀ {fuel}, (SlotTable.elements length list).length < fuel → _ :=
      fun h => drain_new view list hpos h
    constructor
    · rintro ⟨fuel, out, hdrain, hperm⟩
      have hmore :=
        drain_le (Nat.le_add_right fuel ((SlotTable.elements length list).length + 1)) hdrain
      rw [hnew (by omega)] at hmore
      have hout := Except.ok.inj (Option.some.inj hmore)
      by_cases hlast : list (length - 1) = []
      · rw [if_pos hlast] at hout
        exact ⟨hpos, hlast, hout ▸ hperm⟩
      · -- an entry is left out
        rw [if_neg hlast] at hout
        have hlengths := hperm.length_eq
        rw [← hout, length_map, length_dropLast] at hlengths
        have hnone : SlotTable.elements length list = [] := length_eq_zero_iff.mp (by omega)
        rw [SlotTable.elements, flatMap_eq_nil_iff] at hnone
        exact absurd (hnone (length - 1) (mem_range.mpr (by omega))) hlast
    · rintro ⟨-, hlast, hperm⟩
      refine ⟨_, _, hnew (Nat.lt_succ_self _), ?_⟩
      rw [if_pos hlast]
      exact hperm

end Iterator

/-! ### Strings with a NUL -/

theorem length_cstr_le_length (t : Text) : (cstr t).length ≤ t.length :=
  (List.takeWhile_prefix _).length_le

theorem cstr_eq_self_iff {t : Text} : cstr t = t ↔ '\x00' ∉ t := by
  refine ⟨fun h => ?_, cstr_eq_self⟩
  rw [← h]
  exact nul_notMem_cstr t

theorem eq_of_sum_eq {α : Type} {f g : α → Nat} (hle : ∀ a, f a ≤ g a) {l : List α}
    (hsum : (l.map f).sum = (l.map g).sum) {a : α} (ha : a ∈ l) : f a = g a := by
  have hmono : ∀ l : List α, (l.map f).sum ≤ (l.map g).sum := by
    intro l
    induction l with
    | nil => exact le_refl _
    | cons b l ih =>
      have hb := hle b
      rw [map_cons, map_cons, sum_cons, sum_cons]
      omega
  obtain ⟨l1, l2, rfl⟩ := append_of_mem ha
  have h1 := hmono l1
  have h2 := hmono l2
  have hfg := hle a
  simp only [map_append, map_cons, sum_append, sum_cons] at hsum
  omega

def Entry.length (e : Entry) : Nat := e.key.length + e.val.length

theorem map_pairOf_perm_iff {l : List Entry} :
    (l.map pairOf).Perm l ↔ ∀ e ∈ l, '\x00' ∉ e.key ∧ '\x00' ∉ e.val := by
  constructor
  · intro hperm e he
    have hsum := (hperm.map Entry.length).sum_nat
    rw [map_map] at hsum
    have hlength : (pairOf e).length = e.length := by
      refine eq_of_sum_eq (fun e => ?_) hsum he
      exact Nat.add_le_add (length_cstr_le_length e.key) (length_cstr_le_length e.val)
    have hkey := length_cstr_le_length e.key
    have hval := length_cstr_le_length e.val
    simp only [Entry.length, pairOf] at hlength
    rw [← cstr_eq_self_iff, ← cstr_eq_self_iff]
    exact ⟨(List.takeWhile_prefix _).eq_of_length (by rw [← cstr]; omega),
      (List.takeWhile_prefix _).eq_of_length (by rw [← cstr]; omega)⟩
  · intro h
    have hsame : l.map pairOf = l := by
      refine (map_congr_left fun e he => ?_).trans (map_id l)
      rw [pairOf, cstr_eq_self (h e he).1, cstr_eq_self (h e he).2]
      rfl
    rw [hsame]

/-- **An iterator visits every entry once** exactly if the table has buckets and the last one is
empty, and an iterator over pairs if no string has a NUL, besides. -/
theorem iterator_visits_iff (t : Table) :
    (t.iterator.Yields Entry.key ((SlotTable.elements t.size t.kvpairs).map Entry.key) ↔
      0 < t.size ∧ t.kvpairs (t.size - 1) = []) ∧
    (t.iterator.Yields Entry.val ((SlotTable.elements t.size t.kvpairs).map Entry.val) ↔
      0 < t.size ∧ t.kvpairs (t.size - 1) = []) ∧
    (t.iterator.Yields pairOf (SlotTable.elements t.size t.kvpairs) ↔
      0 < t.size ∧ t.kvpairs (t.size - 1) = [] ∧
        ∀ e ∈ SlotTable.elements t.size t.kvpairs, '\x00' ∉ e.key ∧ '\x00' ∉ e.val) := by
  refine ⟨?_, ?_, ?_⟩
  · rw [Table.iterator, Iterator.yields_iff _ _ _ _ (length_map _)]
    exact and_congr_right fun _ => and_iff_left (Perm.refl _)
  · rw [Table.iterator, Iterator.yields_iff _ _ _ _ (length_map _)]
    exact and_congr_right fun _ => and_iff_left (Perm.refl _)
  · rw [Table.iterator, Iterator.yields_iff _ _ _ _ rfl, map_pairOf_perm_iff]

/-- The only entry of a table with one bucket is not visited. -/
theorem not_iterator_visits : ∃ r,
    (Table.new [] false 1 (-1) 0 .exact).put (fun k => k.length) ['a'] ['x'] = some r ∧
      ¬ r.2.iterator.Yields Entry.key [['a']] := by
  have hgrown : (Table.new [] false 1 (-1) 0 .exact).grown (fun k => k.length) =
      some (Table.new [] false 1 (-1) 0 .exact) := if_neg fun hfull => hfull.2 rfl
  have hput : (Table.new [] false 1 (-1) 0 .exact).put (fun k => k.length) ['a'] ['x'] =
      ((Table.new [] false 1 (-1) 0 .exact).store (fun k => k.length) ['a'] ['x']).map (0, ·) := by
    rw [Table.put, hgrown]
    rfl
  refine ⟨_, hput.trans rfl, ?_⟩
  rintro ⟨fuel, out, hdrain, hperm⟩
  have hone : Iterator.drain Entry.key 1
      (Iterator.new (Function.update (fun _ => []) 0 [⟨['a'], ['x']⟩]) 1) = some (.ok []) := by
    decide +kernel
  have hout := (Iterator.drain_le (Nat.le_add_right fuel 1) hdrain).symm.trans
    (Iterator.drain_le (Nat.le_add_left 1 fuel) hone)
  obtain rfl := Except.ok.inj (Option.some.inj hout)
  exact absurd hperm.length_eq (by decide)

end CharmRuntime.Zht
