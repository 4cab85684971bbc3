import Mathlib.Data.List.Induction
import Mathlib.Data.List.Nodup

/-!
# Lib.Records

**Files of records.** A list of records is encoded one after the other; the `offset` of a record is
where it begins. A record may be replaced by one of the same length in place (`flatMap_set`),
without a change of the offsets (`offset_set`).

`replay` reads a list of keys with values, of which some are dead, from the start on: a later value
of a key replaces an earlier one. When the keys that are alive are different it gives just the
records (`replay_eq_some_iff`).
-/

namespace CharmRuntime.Lib

open List

section Encoding

variable {ρ α : Type} {enc : ρ → List α} {recs : List ρ} {i : Nat} {r : ρ}

/-- Where a record begins. -/
def offset (enc : ρ → List α) (recs : List ρ) (i : Nat) : Nat := ((recs.take i).flatMap enc).length

theorem flatMap_split (h : recs[i]? = some r) :
    recs.flatMap enc = (recs.take i).flatMap enc ++ enc r ++ (recs.drop (i + 1)).flatMap enc := by
  obtain ⟨-, rfl⟩ := List.getElem?_eq_some_iff.mp h
  rw [← flatMap_singleton enc recs[i], ← flatMap_append, ← flatMap_append, append_assoc,
    singleton_append, getElem_cons_drop, take_append_drop]

theorem flatMap_set (h : recs[i]? = some r) (r' : ρ) :
    (recs.set i r').flatMap enc = (recs.take i).flatMap enc ++ enc r' ++
    (recs.drop (i + 1)).flatMap enc := by
  obtain ⟨hi, -⟩ := List.getElem?_eq_some_iff.mp h
  have hset : (recs.set i r')[i]? = some r' := getElem?_set_self hi
  rw [flatMap_split hset, take_set_of_le (Nat.le_refl i), drop_set_of_lt (Nat.lt_succ_self i)]

/-- **The other records stay where they are.** -/
theorem offset_set (h : recs[i]? = some r) {r' : ρ} (hlength : (enc r').length = (enc r).length)
    (j : Nat) :
    offset enc (recs.set i r') j = offset enc recs j := by
  rw [offset, offset, take_set]
  by_cases hij : i < j
  · have h' : (recs.take j)[i]? = some r := by rw [getElem?_take_of_lt hij, h]
    rw [flatMap_set h', flatMap_split h', length_append, length_append, length_append,
      length_append, hlength]
  · rw [set_eq_of_length_le]
    rw [length_take]
    omega

theorem offset_append (hi : i ≤ recs.length) (l : List ρ) :
    offset enc (recs ++ l) i = offset enc recs i := by
  rw [offset, take_append_of_le_length hi, offset]

theorem offset_length (enc : ρ → List α) (recs : List ρ) :
    offset enc recs recs.length = (recs.flatMap enc).length := by
  rw [offset, take_length]

end Encoding

section Replay

variable {κ ν : Type} [DecidableEq κ] {dead : κ → Bool} {recs : List (κ × ν)} {k : κ} {v : ν}

def replay (dead : κ → Bool) (recs : List (κ × ν)) : κ → Option ν :=
  recs.foldl (fun m r => if dead r.1 then m else Function.update m r.1 (some r.2)) fun _ => none

/-- The last record comes first. -/
theorem replay_append_singleton (recs : List (κ × ν)) (r : κ × ν) (k : κ) :
    replay dead (recs ++ [r]) k = if dead r.1 = false ∧
    r.1 = k then some r.2 else replay dead recs k := by
  rw [replay, foldl_append, foldl_cons]
  cases hdead : dead r.1 with
  | true => simp [replay]
  | false =>
    by_cases hk : r.1 = k
    · subst hk
      simp
    · simp [replay, hk, Function.update_of_ne (symm hk)]

/-- **With different keys** the records are what is read. -/
theorem replay_eq_some_iff (h : ((recs.filter fun r => !dead r.1).map Prod.fst).Nodup) :
    replay dead recs k = some v ↔ (k, v) ∈ recs ∧ dead k = false := by
  induction recs using reverseRecOn with
  | nil => simp [replay]
  | append_singleton recs r ih =>
    rw [filter_append, map_append] at h
    obtain ⟨hrecs, -, hdisjoint⟩ := nodup_append.mp h
    rw [replay_append_singleton, mem_append, mem_singleton]
    by_cases hr : dead r.1 = false ∧ r.1 = k
    · obtain ⟨hdead, rfl⟩ := hr
      rw [if_pos ⟨hdead, rfl⟩, Option.some.injEq]
      constructor
      · rintro rfl
        exact ⟨.inr rfl, hdead⟩
      · rintro ⟨hmem | heq, -⟩
        · have hlive : (r.1, v) ∈ recs.filter fun r => !dead r.1 :=
            mem_filter.mpr ⟨hmem, by simp [hdead]⟩
          exact absurd rfl (hdisjoint r.1 (mem_map.mpr ⟨_, hlive, rfl⟩) r.1 (by simp [hdead]))
        · rw [← heq]
    · rw [if_neg hr, ih hrecs]
      refine and_congr_left fun hk => (or_iff_left ?_).symm
      rintro rfl
      exact hr ⟨hk, rfl⟩

end Replay

end CharmRuntime.Lib
