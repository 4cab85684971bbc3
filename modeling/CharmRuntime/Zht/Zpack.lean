import CharmRuntime.Lib.Tokens
import CharmRuntime.Matrix.Store

/-!
# Zht.Zpack

**Requests as text.** A `ZPack` is written as eight fields, each followed by `//`; a field that is
not set is written as a word of its own (`nokey`, `noval`, ...). `strToZpack` splits at every `/`
and leaves out empty pieces; with fewer than eight of them no field is set, and more of them are
ignored. So a pack whose fields are not empty, have no `/` and are not one of these words is read
back, whatever follows it (`strToZpack_zpackToStr_append`).
-/

namespace CharmRuntime.Zht

open Lib
open CharmRuntime.Matrix (Text numToStr strToNum Fits strToNum_numToStr)

/-- The `ZPack` message. A field that is not set reads as empty, false or 0. -/
@[ext]
structure Zpack where
  opcode : Option Text := none
  key : Option Text := none
  val : Option Text := none
  newval : Option Text := none
  lease : Option Text := none
  valnull : Option Bool := none
  newvalnull : Option Bool := none
  replicanum : Option Int := none
  deriving DecidableEq

/-- `zht_tokenize`: `delimiter` is the set of the characters to split at. -/
def zhtTokenize (source delimiter : Text) :
    List Text := tokens (fun c => delimiter.contains c) source

/-- `zht_num_to_str<bool>`. -/
def boolToStr (b : Bool) : Text := numToStr (if b then 1 else 0)

/-- `zht_str_to_num<bool>`: only 0 and 1 are read without an error. -/
def strToBool (str : Text) : Bool := strToNum 64 str = 1

namespace Zpack

/-- The fields in the order in which `zpack_to_str` writes them. -/
def fields (z : Zpack) : List Text :=
  [z.opcode.getD "noopcode".toList,
    z.key.getD "nokey".toList,
    z.val.getD "noval".toList,
    z.newval.getD "nonewval".toList,
    z.lease.getD "nolease".toList,
    (z.valnull.map boolToStr).getD "novaln".toList,
    (z.newvalnull.map boolToStr).getD "nonewvaln".toList,
    (z.replicanum.map numToStr).getD "noreplicanum".toList]

end Zpack

def zpackToStr (z : Zpack) : Text := z.fields.flatMap (· ++ ['/', '/'])

/-- A field that may not be set. -/
def strToField (absent str : Text) : Option Text := if str = absent then none else some str

def strToZpack (str : Text) : Zpack :=
  let vec := zhtTokenize str ['/', '/']
  if vec.length < 8 then {}
  else
    { opcode := strToField "noopcode".toList (vec.getD 0 [])
      key := strToField "nokey".toList (vec.getD 1 [])
      val := strToField "noval".toList (vec.getD 2 [])
      newval := strToField "nonewval".toList (vec.getD 3 [])
      lease := strToField "nolease".toList (vec.getD 4 [])
      valnull := (strToField "novaln".toList (vec.getD 5 [])).map strToBool
      newvalnull := (strToField "nonewvaln".toList (vec.getD 6 [])).map strToBool
      replicanum := (strToField "noreplicanum".toList (vec.getD 7 [])).map (strToNum 32) }

/-! ### Reading back -/

/-- A text that is one piece. -/
def Piece (t : Text) : Prop := t ≠ [] ∧ '/' ∉ t

instance (t : Text) : Decidable (Piece t) := inferInstanceAs (Decidable (_ ∧ _))

theorem piece_chars {t : Text} (h : '/' ∉ t) : ∀ c ∈ t, (['/', '/'] : Text).contains c = false := by
  intro c hc
  have hne : c ≠ '/' := fun heq => h (heq ▸ hc)
  simp [hne]

theorem Piece.isToken {t : Text} (h : Piece t) :
    t ≠ [] ∧ ∀ c ∈ t, (['/', '/'] : Text).contains c = false :=
  ⟨h.1, piece_chars h.2⟩

/-- The packs that can be read back. -/
structure Zpack.WellFormed (z : Zpack) : Prop where
  fields : ∀ t ∈ z.fields, Piece t
  opcode : z.opcode ≠ some "noopcode".toList
  key : z.key ≠ some "nokey".toList
  val : z.val ≠ some "noval".toList
  newval : z.newval ≠ some "nonewval".toList
  lease : z.lease ≠ some "nolease".toList
  replicanum : ∀ n ∈ z.replicanum, Fits 32 n

theorem strToField_getD {absent : Text} {o : Option Text} (h : o ≠ some absent) :
    strToField absent (o.getD absent) = o := by
  cases o with
  | none => exact if_pos rfl
  | some t => exact if_neg fun heq => h (congrArg some heq)

theorem strToField_map {α : Type} {absent : Text} {toStr : α → Text} {ofStr : Text → α}
    {o : Option α}
    (habsent : ∀ a ∈ o, toStr a ≠ absent) (hread : ∀ a ∈ o, ofStr (toStr a) = a) :
    (strToField absent ((o.map toStr).getD absent)).map ofStr = o := by
  rw [strToField_getD]
  · cases o with
    | none => rfl
    | some a => exact congrArg some (hread a rfl)
  · cases o with
    | none => simp
    | some a => exact fun heq => habsent a rfl (Option.some.inj heq)

theorem strToBool_boolToStr (b : Bool) : strToBool (boolToStr b) = b := by
  cases b <;> decide

theorem numToStr_ne_word (n : Int) {c : Char} {t : Text} (hc : c ≠ '-' ∧ c.isDigit = false) :
    numToStr n ≠ c :: t := by
  intro heq
  obtain h | h := Matrix.mem_numToStr (heq ▸ List.mem_cons_self)
  · exact hc.1 h
  · exact absurd h (by simp [hc.2])

/-- **Round trip.** -/
theorem strToZpack_zpackToStr_append {z : Zpack} (h : z.WellFormed) (rest : Text) :
    strToZpack (zpackToStr z ++ rest) = z := by
  have hvec :
    zhtTokenize (zpackToStr z ++ rest) ['/', '/'] = z.fields ++ zhtTokenize rest ['/', '/'] :=
    tokens_flatMap_append (fun t ht => (h.fields t ht).isToken) (by decide) rest
  simp only [strToZpack, hvec]
  simp only [Zpack.fields, List.cons_append, List.getD_cons_zero, List.getD_cons_succ]
  refine Zpack.ext (strToField_getD h.opcode) (strToField_getD h.key) (strToField_getD h.val)
    (strToField_getD h.newval) (strToField_getD h.lease) ?_ ?_ ?_
  · exact strToField_map (fun b _ => by cases b <;> decide) fun b _ => strToBool_boolToStr b
  · exact strToField_map (fun b _ => by cases b <;> decide) fun b _ => strToBool_boolToStr b
  · exact strToField_map (fun n _ => numToStr_ne_word n (by decide)) fun n hn =>
      strToNum_numToStr (h.replicanum n hn)

theorem strToZpack_zpackToStr {z : Zpack} (h : z.WellFormed) : strToZpack (zpackToStr z) = z := by
  have happend := strToZpack_zpackToStr_append h []
  rwa [List.append_nil] at happend

theorem strToZpack_of_length_lt {str : Text} (h : (zhtTokenize str ['/', '/']).length < 8) :
    strToZpack str = {} :=
  if_pos h

end CharmRuntime.Zht
