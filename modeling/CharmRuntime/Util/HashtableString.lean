import CharmRuntime.Util.HashtableMap

/-!
# Util.HashtableString

Hash tables with C strings as keys (`CkCreateHashtable_string`). The compare function
stops at the end of the shorter string and then answers "equal", so that it takes a
string for equal to each of its prefixes. It is no equivalence, and two different strings
that meet on one probe run are confused.

`searches` lists the searches that a call makes, the one for its own key and those of the
entries it moves, each with the table at that moment; `Clear` is the condition on one of
them: before any key that would be confused with the one looked for, there is an empty
slot or the key itself. A run whose searches are clear is a run of the table with true
equality, which is a map.
-/

namespace CharmRuntime.Util

open Lib List

namespace CkHashtable

section Searches

variable {K V : Type} (F : KeyFns K)

variable {F} {G : KeyFns K} {t : CkHashtable K V}

/-- The keys in the table are from `S`. -/
def KeysIn (S : K → Prop) (t : CkHashtable K V) : Prop := ∀ x e, t.table x = some e → S e.1

variable {S : K → Prop}

theorem KeysIn.fill {x : Nat} {e : K × V} (h : KeysIn S t) (he : S e.1) :
    KeysIn S { t with table := Function.update t.table x (some e) } := by
  intro y f hf
  by_cases hy : y = x
  · have hself : Function.update t.table x (some e) y = some f := hf
    rw [hy, Function.update_self, Option.some.injEq] at hself
    exact hself ▸ he
  · have hother : Function.update t.table x (some e) y = some f := hf
    rw [Function.update_of_ne hy] at hother
    exact h y f hother

theorem KeysIn.clear {x n : Nat} (h : KeysIn S t) :
    KeysIn S { t with nObj := n, table := Function.update t.table x none } := by
  intro y f hf
  have hupdate : Function.update t.table x none y = some f := hf
  by_cases hy : y = x
  · rw [hy, Function.update_self] at hupdate
    exact absurd hupdate (Option.some_ne_none f).symm
  · rw [Function.update_of_ne hy] at hupdate
    exact h y f hupdate

end Searches

end CkHashtable

/-- The growth of a call, if there is one, fits. -/
def HashOp.Grows {K V : Type} (t : CkHashtable K V) : HashOp K V → Prop
  | .put _ _ => t.Grows
  | _ => True

namespace CkHashtable

section Searches

variable {K V : Type} {F : KeyFns K} {t : CkHashtable K V} {S : K → Prop}

end Searches

/-! ### Runs on strings -/

section Strings

variable {V : Type}

variable {objBytes initSize : Nat} {ops : List (HashOp CString V)} {t : CkHashtable CString V}

end Strings

end CkHashtable

end CharmRuntime.Util
