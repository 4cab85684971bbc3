import CharmRuntime.Lib.Tokens
import CharmRuntime.Matrix.Store

/-!
# Matrix.Value

The **record of a task** and its text: `value_to_str` and `str_to_value`.

A record is written as seventeen fields, each followed by `~~`; the entries of a
list are each followed by `??`, and a field without a value is written as a word
of its own (`noindegree`, `noparents`, ...). Reading splits at the same
characters, leaves out empty pieces, and ends the process when fewer than
seventeen fields are left. `outputsize` is written as a `long` but read as an
`int`.

`strToValue_valueToStr` says that a record whose names are not empty and free of
the separators, and whose numbers fit the types they are read with, is read back
as it was.
-/

namespace CharmRuntime.Matrix

open Lib List

/-- The `Value` message. -/
@[ext]
structure Value where
  id : Text
  indegree : Option Int := none
  parents : List Text := []
  children : List Text := []
  datanamelist : List Text := []
  datasize : List Int := []
  alldatasize : Option Int := none
  tasklength : Option Int := none
  numtaskfin : Option Int := none
  numworksteal : Option Int := none
  numworkstealfail : Option Int := none
  numtaskwait : Option Int := none
  numtaskready : Option Int := none
  numcoreavilable : Option Int := none
  numallcore : Option Int := none
  outputsize : Option Int := none
  submittime : Option Int := none
  deriving DecidableEq

/-- `exit(1)`. -/
inductive Exit where
  | notAValue (str : Text)
  deriving DecidableEq

/-- `tokenize`: `delimiter` is the set of the characters to split at. -/
def tokenize (source delimiter : Text) : List Text :=
  tokens (fun c => delimiter.contains c) source

/-! ### Fields -/

/-- An optional number. -/
def optToStr (absent : Text) : Option Int → Text
  | some v => numToStr v
  | none => absent

def strToOpt (bits : Nat) (absent str : Text) : Option Int :=
  if str = absent then none else some (strToNum bits str)

/-- A list of names. -/
def listToStr (absent : Text) (l : List Text) : Text :=
  if l = [] then absent else l.flatMap (· ++ ['?', '?'])

def strToList (absent str : Text) : List Text :=
  if str = absent then [] else tokenize str ['?', '?']

namespace Value

/-- The fields in the order in which `value_to_str` writes them. -/
def fields (v : Value) : List Text :=
  [v.id,
    optToStr "noindegree".toList v.indegree,
    listToStr "noparents".toList v.parents,
    listToStr "nochildren".toList v.children,
    listToStr "nodataname".toList v.datanamelist,
    listToStr "nodatasize".toList (v.datasize.map numToStr),
    optToStr "noalldatasize".toList v.alldatasize,
    optToStr "notasklength".toList v.tasklength,
    optToStr "nonumtaskfin".toList v.numtaskfin,
    optToStr "nonumworksteal".toList v.numworksteal,
    optToStr "nonumworkstealfail".toList v.numworkstealfail,
    optToStr "nonumtaskwait".toList v.numtaskwait,
    optToStr "nonumtaskready".toList v.numtaskready,
    optToStr "nonumcoreavail".toList v.numcoreavilable,
    optToStr "nonumallcore".toList v.numallcore,
    optToStr "nooutputsize".toList v.outputsize,
    optToStr "nosubmittime".toList v.submittime]

end Value

/-- `value_to_str`. -/
def valueToStr (v : Value) : Text := v.fields.flatMap (· ++ ['~', '~'])

/-- `str_to_value`. -/
def strToValue (str : Text) : Except Exit Value :=
  let vec := tokenize str ['~', '~']
  if vec.length < 17 then .error (.notAValue str)
  else .ok
    { id := vec.getD 0 []
      indegree := strToOpt 64 "noindegree".toList (vec.getD 1 [])
      parents := strToList "noparents".toList (vec.getD 2 [])
      children := strToList "nochildren".toList (vec.getD 3 [])
      datanamelist := strToList "nodataname".toList (vec.getD 4 [])
      datasize := (strToList "nodatasize".toList (vec.getD 5 [])).map (strToNum 64)
      alldatasize := strToOpt 64 "noalldatasize".toList (vec.getD 6 [])
      tasklength := strToOpt 64 "notasklength".toList (vec.getD 7 [])
      numtaskfin := strToOpt 64 "nonumtaskfin".toList (vec.getD 8 [])
      numworksteal := strToOpt 64 "nonumworksteal".toList (vec.getD 9 [])
      numworkstealfail := strToOpt 64 "nonumworkstealfail".toList (vec.getD 10 [])
      numtaskwait := strToOpt 32 "nonumtaskwait".toList (vec.getD 11 [])
      numtaskready := strToOpt 32 "nonumtaskready".toList (vec.getD 12 [])
      numcoreavilable := strToOpt 32 "nonumcoreavail".toList (vec.getD 13 [])
      numallcore := strToOpt 32 "nonumallcore".toList (vec.getD 14 [])
      outputsize := strToOpt 32 "nooutputsize".toList (vec.getD 15 [])
      submittime := strToOpt 64 "nosubmittime".toList (vec.getD 16 []) }

/-! ### Reading fields back -/

/-- A name that can stand in a record. -/
def Clean (t : Text) : Prop := t ≠ [] ∧ '~' ∉ t ∧ '?' ∉ t

instance (t : Text) : Decidable (Clean t) := inferInstanceAs (Decidable (_ ∧ _))

/-- A word that stands for a field without a value. -/
def Absent (t : Text) : Prop := Clean t ∧ t.head? = some 'n'

instance (t : Text) : Decidable (Absent t) := inferInstanceAs (Decidable (_ ∧ _))

theorem clean_numToStr (v : Int) : Clean (numToStr v) := by
  refine ⟨numToStr_ne_nil v, ?_, ?_⟩
  · intro h
    exact absurd (mem_numToStr h) (by decide)
  · intro h
    exact absurd (mem_numToStr h) (by decide)

variable {absent : Text} {l : List Text} {v : Value}

theorem numToStr_ne_absent (h : Absent absent) (v : Int) : numToStr v ≠ absent := by
  intro heq
  have hn : 'n' ∈ numToStr v := heq ▸ mem_of_mem_head? h.2
  exact absurd (mem_numToStr hn) (by decide)

theorem strToOpt_optToStr {bits : Nat} (h : Absent absent) {o : Option Int}
    (ho : ∀ v ∈ o, Fits bits v) : strToOpt bits absent (optToStr absent o) = o := by
  cases o with
  | none => simp only [optToStr, strToOpt, if_true]
  | some v =>
    simp only [optToStr, strToOpt, if_neg (numToStr_ne_absent h v), strToNum_numToStr (ho v rfl)]

theorem question_mem_flatMap (h : l ≠ []) : '?' ∈ l.flatMap (· ++ ['?', '?']) := by
  obtain ⟨t, ts, rfl⟩ := exists_cons_of_ne_nil h
  simp

theorem strToList_listToStr (h : Absent absent) (hl : ∀ t ∈ l, Clean t) :
    strToList absent (listToStr absent l) = l := by
  by_cases hnil : l = []
  · subst hnil
    simp only [listToStr, strToList, if_true]
  · have hne : l.flatMap (· ++ ['?', '?']) ≠ absent := by
      intro heq
      exact h.1.2.2 (heq ▸ question_mem_flatMap hnil)
    rw [listToStr, if_neg hnil, strToList, if_neg hne]
    refine tokens_flatMap (fun t ht => ⟨(hl t ht).1, fun c hc => ?_⟩) (by decide)
    have hc' : c ≠ '?' := fun heq => (hl t ht).2.2 (heq ▸ hc)
    simp [hc']

/-! ### Fields in a record -/

/-- A text that can be a field of a record. -/
def IsField (t : Text) : Prop := t ≠ [] ∧ '~' ∉ t

theorem isField_optToStr (h : Absent absent) (o : Option Int) : IsField (optToStr absent o) := by
  cases o with
  | none => exact ⟨h.1.1, h.1.2.1⟩
  | some v =>
    obtain ⟨hne, htilde, -⟩ := clean_numToStr v
    exact ⟨hne, htilde⟩

theorem isField_listToStr (h : Absent absent) (hl : ∀ t ∈ l, Clean t) :
    IsField (listToStr absent l) := by
  by_cases hnil : l = []
  · rw [listToStr, if_pos hnil]
    exact ⟨h.1.1, h.1.2.1⟩
  · rw [listToStr, if_neg hnil]
    refine ⟨ne_nil_of_mem (question_mem_flatMap hnil), ?_⟩
    intro hmem
    obtain ⟨t, ht, hc⟩ := mem_flatMap.mp hmem
    obtain hc | hc := mem_append.mp hc
    · exact (hl t ht).2.1 hc
    · exact absurd hc (by decide)

namespace Value

/-- The records that can be read back. -/
structure WellFormed (v : Value) : Prop where
  id : Clean v.id
  parents : ∀ t ∈ v.parents, Clean t
  children : ∀ t ∈ v.children, Clean t
  datanamelist : ∀ t ∈ v.datanamelist, Clean t
  datasize : ∀ n ∈ v.datasize, Fits 64 n
  longs : ∀ o ∈ [v.indegree, v.alldatasize, v.tasklength, v.numtaskfin, v.numworksteal,
    v.numworkstealfail, v.submittime], ∀ n ∈ o, Fits 64 n
  ints : ∀ o ∈ [v.numtaskwait, v.numtaskready, v.numcoreavilable, v.numallcore, v.outputsize],
    ∀ n ∈ o, Fits 32 n

instance (v : Value) : Decidable v.WellFormed :=
  decidable_of_iff (Clean v.id ∧ (∀ t ∈ v.parents, Clean t) ∧ (∀ t ∈ v.children, Clean t) ∧
    (∀ t ∈ v.datanamelist, Clean t) ∧ (∀ n ∈ v.datasize, Fits 64 n) ∧
    (∀ o ∈ [v.indegree, v.alldatasize, v.tasklength, v.numtaskfin, v.numworksteal,
    v.numworkstealfail,
      v.submittime], ∀ n ∈ o, Fits 64 n) ∧
    ∀ o ∈ [v.numtaskwait, v.numtaskready, v.numcoreavilable, v.numallcore, v.outputsize],
    ∀ n ∈ o, Fits 32 n)
    ⟨fun ⟨h₁, h₂, h₃, h₄, h₅, h₆, h₇⟩ => ⟨h₁, h₂, h₃, h₄, h₅, h₆, h₇⟩,
      fun ⟨h₁, h₂, h₃, h₄, h₅, h₆, h₇⟩ => ⟨h₁, h₂, h₃, h₄, h₅, h₆, h₇⟩⟩

theorem clean_datasize (v : Value) : ∀ t ∈ v.datasize.map numToStr, Clean t := by
  intro t ht
  obtain ⟨n, -, rfl⟩ := mem_map.mp ht
  exact clean_numToStr n

theorem WellFormed.fields {v : Value} (h : v.WellFormed) : ∀ t ∈ v.fields, IsField t := by
  intro t ht
  simp only [Value.fields, mem_cons, not_mem_nil, or_false] at ht
  obtain rfl | rfl | rfl | rfl | rfl | rfl | rfl | rfl | rfl | rfl | rfl | rfl | rfl | rfl | rfl |
    rfl | rfl := ht
  · exact ⟨h.id.1, h.id.2.1⟩
  · exact isField_optToStr (by decide) _
  · exact isField_listToStr (by decide) h.parents
  · exact isField_listToStr (by decide) h.children
  · exact isField_listToStr (by decide) h.datanamelist
  · exact isField_listToStr (by decide) v.clean_datasize
  all_goals exact isField_optToStr (by decide) _

theorem WellFormed.datasize_eq {v : Value} (h : v.WellFormed) :
    (v.datasize.map numToStr).map (strToNum 64) = v.datasize := by
  have hid : ∀ n ∈ v.datasize, (strToNum 64 ∘ numToStr) n = n := fun n hn =>
    strToNum_numToStr (h.datasize n hn)
  rw [map_map]
  exact (map_congr_left hid).trans (map_id' _)

end Value

/-- **Round trip.** -/
theorem strToValue_valueToStr (h : v.WellFormed) : strToValue (valueToStr v) = .ok v := by
  have hvec : tokenize (valueToStr v) ['~', '~'] = v.fields := by
    refine tokens_flatMap (fun t ht => ⟨(h.fields t ht).1, fun c hc => ?_⟩) (by decide)
    have hc' : c ≠ '~' := fun heq => (h.fields t ht).2 (heq ▸ hc)
    simp [hc']
  simp only [strToValue, hvec]
  refine congrArg Except.ok (Value.ext rfl ?_ ?_ ?_ ?_ ?_ ?_ ?_ ?_ ?_ ?_ ?_ ?_ ?_ ?_ ?_ ?_)
  · exact strToOpt_optToStr (by decide) (h.longs _ (by simp))
  · exact strToList_listToStr (by decide) h.parents
  · exact strToList_listToStr (by decide) h.children
  · exact strToList_listToStr (by decide) h.datanamelist
  · refine (congrArg _ (strToList_listToStr (by decide) v.clean_datasize)).trans ?_
    exact h.datasize_eq
  iterate 5 exact strToOpt_optToStr (by decide) (h.longs _ (by simp))
  iterate 5 exact strToOpt_optToStr (by decide) (h.ints _ (by simp))
  · exact strToOpt_optToStr (by decide) (h.longs _ (by simp))

/-! ### The type of `outputsize` -/

/-- Whatever the text is, the `outputsize` of the record is an `int`. -/
theorem outputsize_strToValue {str : Text} (h : strToValue str = .ok v) :
    ∀ n ∈ v.outputsize, Fits 32 n := by
  rw [strToValue] at h
  split at h
  · cases h
  · intro n hn
    obtain rfl := Except.ok.inj h
    simp only [strToOpt] at hn
    split at hn
    · cases hn
    · obtain rfl := Option.some.inj hn
      exact fits_strToNum _

/-- The records whose names are not empty and free of the separators and whose numbers are of the
types that the fields are declared with. -/
structure Value.Declared (v : Value) : Prop where
  id : Clean v.id
  parents : ∀ t ∈ v.parents, Clean t
  children : ∀ t ∈ v.children, Clean t
  datanamelist : ∀ t ∈ v.datanamelist, Clean t
  datasize : ∀ n ∈ v.datasize, Fits 64 n
  longs : ∀ o ∈ [v.indegree, v.alldatasize, v.tasklength, v.numtaskfin, v.numworksteal,
    v.numworkstealfail, v.outputsize, v.submittime], ∀ n ∈ o, Fits 64 n
  ints : ∀ o ∈ [v.numtaskwait, v.numtaskready, v.numcoreavilable, v.numallcore], ∀ n ∈ o, Fits 32 n

theorem Value.Declared.wellFormed (h : v.Declared) (hsize : ∀ n ∈ v.outputsize, Fits 32 n) :
    v.WellFormed where
  id := h.id
  parents := h.parents
  children := h.children
  datanamelist := h.datanamelist
  datasize := h.datasize
  longs o ho := h.longs o (by
    simp only [mem_cons, not_mem_nil] at ho ⊢
    tauto)
  ints o ho := by
    simp only [mem_cons, not_mem_nil, or_false] at ho
    obtain rfl | rfl | rfl | rfl | rfl := ho
    iterate 4 exact h.ints _ (by simp)
    · exact hsize

/-- **The text keeps a record** if and only if its `outputsize` is an `int`. -/
theorem value_survives_iff {v : Value} (h : v.Declared) :
    strToValue (valueToStr v) = .ok v ↔ ∀ n ∈ v.outputsize, Fits 32 n :=
  ⟨outputsize_strToValue, fun hsize => strToValue_valueToStr (h.wellFormed hsize)⟩

/-- A record with one parent and an output of 4 GB. -/
def largeOutput :
    Value := { id := "7".toList, parents := ["6".toList], outputsize := some 4294967296 }

theorem declared_largeOutput : largeOutput.Declared where
  id := by decide
  parents := by decide
  children := by decide
  datanamelist := by decide
  datasize := by decide
  longs := by decide
  ints := by decide

theorem value_survives_iff_largeOutput :
    strToValue (valueToStr largeOutput) = .ok largeOutput ↔ ∀ n ∈ largeOutput.outputsize,
    Fits 32 n :=
  value_survives_iff declared_largeOutput

/-- Its size is read as 0. -/
theorem largeOutput_lost :
    largeOutput.Declared ∧ strToValue (valueToStr largeOutput) =
    .ok { largeOutput with outputsize := some 0 } ∧
      strToValue (valueToStr largeOutput) ≠ .ok largeOutput :=
  ⟨declared_largeOutput, by rfl, fun h => absurd (outputsize_strToValue h _ rfl) (by decide)⟩

end CharmRuntime.Matrix
