import Mathlib.Algebra.Order.BigOperators.Group.List
import CharmRuntime.Lib.CInt
import CharmRuntime.Lib.MemVal
import CharmRuntime.Reduction.Msg

/-!
# Reduction.SetReducer

The `set` reducer (`ck-core/ckreduction.C`) and what a client reads back from it.

`set` packs the data of the messages it combines into one buffer: each raw
contribution is wrapped in a `setElement` (an `int` size followed by the bytes,
padded to a multiple of `sizeof(double)`), the buffer of an already reduced
message is copied without its terminator, and a new terminator `-1` closes the
result. Whether a message is raw or reduced is read off its `sourceFlag`, which
`reduceMessages` rewrites at every level of the tree.

All sizes are `int`s. `Fits` says that they do not overflow, and the main result
`group_reduce_set_walk` is about whole reduction trees whose contributions fit: whatever
the grouping, the walk a client makes over the final buffer returns the
contributed byte strings, in order, from 8-byte aligned elements.
-/

namespace CharmRuntime.Reduction

open Lib List Option
open Lib.MemVal

/-- A reduction message whose data is a byte buffer. -/
abbrev BufMsg := CkReductionMsg (List MemVal)

/-! ### The source functions -/

/-- `sizeof(int)`. -/
def intBytes : Nat := 4

/-- `SET_ALIGN`: round up to a multiple of `sizeof(double)`. -/
def setAlign (x : Int) : Option Int := (checkedInt (x + 8)).map fun y => (y - 1) / 8 * 8

/-- `SET_SIZE`: the bytes a `setElement` with `dataSize` data bytes takes. The sum is a
`size_t` and becomes an `int` as the argument. -/
def setSize (dataSize : Int) : Option Int := setAlign (castInt (intBytes + dataSize))

/-- The field `dataSize` of the `setElement` at `cur`. -/
def dataSizeAt (buf : List MemVal) (cur : Nat) : Option Int :=
  (slice buf cur intBytes).bind (decodeInt intBytes)

/-- `SET_NEXT`: where the next element starts. -/
def setNext (buf : List MemVal) (cur : Nat) : Option Nat := do
  let d ← dataSizeAt buf cur
  let size ← setSize d
  ((cur : Int) + size).toNat?

/-- One round of the loop for `retSize`. Without its terminator a composite message has a
`size_t` of bytes. -/
def addMsgSize (retSize : Int) (m : BufMsg) : Option Int :=
  if !m.isFromUser then some (castInt (retSize + (m.data.length - intBytes)))
  else (setSize m.data.length).bind fun size => checkedInt (retSize + size)

/-- Copy one message to the cursor: a composite one without its terminator, a
raw one wrapped in a `setElement`. -/
def setCopy (st : List MemVal × Nat) (m : BufMsg) : Option (List MemVal × Nat) :=
  let (buf, cur) := st
  if !m.isFromUser then
    if m.data.length < intBytes then none
    else
      let messageBytes := m.data.length - intBytes
      (writeAt buf cur (m.data.take messageBytes)).map (·, cur + messageBytes)
  else do
    let buf ← writeAt buf cur (encodeInt intBytes m.data.length)
    let buf ← writeAt buf (cur + intBytes) m.data
    let cur ← setNext buf cur
    some (buf, cur)

/-- The reducer `set`. `none` stands for an access outside the allocated buffer, or an
overflow of its size. -/
def set (env : ReductionEnv (List MemVal)) (msgs : List BufMsg) : Option BufMsg := do
  let retSize ← msgs.foldlM addMsgSize 0
  let retSize := castInt (retSize + intBytes)
  let (buf, cur) ← msgs.foldlM setCopy (List.replicate retSize.toNat .blank, 0)
  let buf ← writeAt buf cur (encodeInt intBytes (-1))
  some (env.buildNew buf .invalid)

/-- `setElement::next`: `some none` is the null pointer at the end of the list. -/
def setElementNext (buf : List MemVal) (cur : Nat) : Option (Option Nat) := do
  let n ← setNext buf cur
  let d ← dataSizeAt buf n
  some (if d = -1 then none else some n)

/-- The user data of the `setElement` at `cur`; a negative size is not one of a byte
string. -/
def elementData (buf : List MemVal) (cur : Nat) : Option (List MemVal) := do
  let d ← dataSizeAt buf cur
  if d < 0 then none else slice buf (cur + intBytes) d.toNat

/-- The client's loop: start at an element and follow `next` until it returns
`NULL`. Each entry is an element's offset with its data. -/
def walkFrom (buf : List MemVal) : Nat → Nat → Option (List (Nat × List MemVal))
  | 0, _ => none
  | fuel + 1, cur => do
      let bytes ← elementData buf cur
      match ← setElementNext buf cur with
      | none => some [(cur, bytes)]
      | some n => do
          let rest ← walkFrom buf fuel n
          some ((cur, bytes) :: rest)

/-- The walk over a whole message; a buffer has fewer elements than bytes. -/
def setWalk (buf : List MemVal) : Option (List (Nat × List MemVal)) :=
  walkFrom buf buf.length 0

/-! ### The layout of a composite buffer -/

/-- The length of an element with `n` bytes of data. -/
def elementSize (n : Nat) : Nat := (intBytes + n + 7) / 8 * 8

/-- The bytes of one element: its size, its data and the padding nobody writes. -/
def elementBytes (bs : List UInt8) : List MemVal :=
  encodeInt intBytes bs.length ++ bs.map .byte ++
    List.replicate (elementSize bs.length - (intBytes + bs.length)) .blank

/-- The elements of a list of contributions, one after the other. -/
def layout (css : List (List UInt8)) : List MemVal := css.flatMap elementBytes

/-- The terminating `-1`. -/
def terminator : List MemVal := encodeInt intBytes (-1)

/-- The sizes of the elements and of the whole buffer are `int`s. -/
structure Fits (css : List (List UInt8)) : Prop where
  /-- `SET_ALIGN` adds 8 to the size of an element before it rounds. -/
  each : ∀ bs ∈ css, bs.length + 12 < 2 ^ 31
  whole : (layout css).length + intBytes < 2 ^ 31

theorem elementSize_bounds (n : Nat) : intBytes + n ≤ elementSize n ∧
    elementSize n < intBytes + n + 8 ∧ elementSize n % 8 = 0 := by
  unfold elementSize
  omega

/-- `SET_ALIGN` rounds where it does not overflow. -/
theorem setAlign_natCast {x : Nat} (h : x + 8 < 2 ^ 31) :
    setAlign x = some (((x + 7) / 8 * 8 : Nat) : Int) := by
  have hint : IsInt ((x : Int) + 8) := by
    unfold IsInt
    omega
  rw [setAlign, checkedInt_of_isInt hint, map_some, some_inj]
  omega

theorem castInt_natCast {x : Nat} (h : x < 2 ^ 31) : castInt x = x :=
  castInt_of_isInt ⟨by omega, by omega⟩

theorem setSize_natCast {n : Nat} (h : n + 12 < 2 ^ 31) :
    setSize n = some (elementSize n : Int) := by
  have hsum : (intBytes + n : Int) = ((intBytes + n : Nat) : Int) := by omega
  have hint : intBytes = 4 := rfl
  rw [setSize, hsum, castInt_natCast (by omega), setAlign_natCast (by omega)]
  rfl

@[simp] theorem length_elementBytes (bs : List UInt8) :
    (elementBytes bs).length = elementSize bs.length := by
  have := elementSize_bounds bs.length
  simp only [elementBytes, length_append, length_encodeInt, length_map, length_replicate]
  omega

@[simp] theorem length_terminator : terminator.length = intBytes := length_encodeInt ..

@[simp] theorem layout_nil : layout [] = [] := rfl

@[simp] theorem layout_cons (bs : List UInt8) (css : List (List UInt8)) :
    layout (bs :: css) = elementBytes bs ++ layout css := rfl

@[simp] theorem layout_append (as bs : List (List UInt8)) :
    layout (as ++ bs) = layout as ++ layout bs := by
  simp [layout]

theorem Fits.of_append {as bs : List (List UInt8)} (h : Fits (as ++ bs)) : Fits as ∧ Fits bs := by
  have hwhole := h.whole
  rw [layout_append, length_append] at hwhole
  exact ⟨⟨fun c hc => h.each c (mem_append_left _ hc), by omega⟩,
    ⟨fun c hc => h.each c (mem_append_right _ hc), by omega⟩⟩

theorem dataSizeAt_append (pre rest : List MemVal) (v : Int) :
    dataSizeAt (pre ++ (encodeInt intBytes v ++ rest)) pre.length = some v := by
  unfold dataSizeAt
  have h := slice_append pre (encodeInt intBytes v) rest
  rw [length_encodeInt, append_assoc] at h
  rw [h, bind_some, decodeInt_encodeInt (by decide)]

theorem dataSizeAt_element (pre rest : List MemVal) (bs : List UInt8) :
    dataSizeAt (pre ++ (elementBytes bs ++ rest)) pre.length = some (bs.length : Int) := by
  exact dataSizeAt_append pre _ _

theorem setNext_element (pre rest : List MemVal) {bs : List UInt8} (h : bs.length + 12 < 2 ^ 31) :
    setNext (pre ++ (elementBytes bs ++ rest)) pre.length =
      some (pre ++ elementBytes bs).length := by
  unfold setNext
  rw [dataSizeAt_element]
  simp only [bind_eq_bind, bind_some]
  rw [setSize_natCast h, bind_some, Int.mem_toNat?, length_append, length_elementBytes]
  omega

/-- A message carries the contributions `css`: raw for a single one, packed and
terminated otherwise. -/
def Carries (m : BufMsg) (css : List (List UInt8)) : Prop :=
  (m.isFromUser = true ∧ ∃ bs, css = [bs] ∧ m.data = bs.map MemVal.byte) ∨
    (m.isFromUser = false ∧ m.data = layout css ++ terminator)

/-- `set` reserves exactly the bytes of a message's elements. -/
theorem addMsgSize_carries {m : BufMsg} {css : List (List UInt8)} (h : Carries m css)
    (hfits : Fits css) {n : Nat} (hn : n + (layout css).length < 2 ^ 31) :
    addMsgSize n m = some ((n + (layout css).length : Nat) : Int) := by
  unfold addMsgSize
  rcases h with ⟨hu, bs, rfl, hdata⟩ | ⟨hu, hdata⟩
  · have hlen : (layout [bs]).length = elementSize bs.length := by
      rw [layout_cons, layout_nil, append_nil, length_elementBytes]
    have hint : IsInt ((n : Int) + elementSize bs.length) := by
      unfold IsInt
      omega
    rw [if_neg (by rw [hu]; decide), hdata, length_map,
      setSize_natCast (hfits.each bs mem_cons_self), bind_some, checkedInt_of_isInt hint, hlen,
      Int.natCast_add]
  · have hlen : (m.data.length : Int) - intBytes = (layout css).length := by
      rw [hdata, length_append, length_terminator]
      omega
    have hsum : ((n : Int) + (layout css).length) = ((n + (layout css).length : Nat) : Int) :=
      (Int.natCast_add n _).symm
    rw [if_pos (by rw [hu]; rfl), hlen, hsum, castInt_natCast hn]

/-- A carried set is copied as its layout. -/
theorem setCopy_carries {m : BufMsg} {css : List (List UInt8)} (h : Carries m css)
    (hfits : Fits css) (pre : List MemVal) (k : Nat) :
    setCopy (pre ++ List.replicate ((layout css).length + k) .blank, pre.length) m =
      some (pre ++ layout css ++ List.replicate k .blank, (pre ++ layout css).length) := by
  unfold setCopy
  rcases h with ⟨hu, bs, rfl, hdata⟩ | ⟨hu, hdata⟩
  · -- a raw message: size field, bytes, then the cursor moves by `SET_NEXT`
    have hb := elementSize_bounds bs.length
    set pad := elementSize bs.length - (intBytes + bs.length) with hpad
    have hrep : replicate ((layout [bs]).length + k) blank =
        replicate intBytes .blank ++ (replicate bs.length .blank ++
          (replicate pad .blank ++ replicate k .blank)) := by
      congr 1
      simp [layout]
      omega
    have hw1 := writeAt_append pre (replicate intBytes .blank)
      (replicate bs.length .blank ++ (replicate pad .blank ++
        replicate k .blank)) (encodeInt intBytes bs.length) (by simp)
    have hw2 := writeAt_append (pre ++ encodeInt intBytes bs.length) (replicate bs.length .blank)
      (replicate pad .blank ++ replicate k .blank) (bs.map .byte) (by simp)
    have hnext := setNext_element pre (replicate k .blank) (hfits.each bs mem_cons_self)
    have hbuf : pre ++ encodeInt intBytes bs.length ++ bs.map byte ++
        (replicate pad .blank ++ replicate k .blank) =
        pre ++ (elementBytes bs ++ replicate k .blank) := by
      simp [elementBytes, hpad]
    rw [hbuf] at hw2
    rw [length_append, length_encodeInt] at hw2
    have hw1' : writeAt (pre ++ replicate ((layout [bs]).length + k) blank)
        pre.length (encodeInt intBytes bs.length) =
        some (pre ++ encodeInt intBytes bs.length ++ replicate bs.length .blank ++
          (replicate pad .blank ++ replicate k .blank)) := by
      rw [hrep, ← append_assoc, hw1]
      simp
    simp only [hu, hdata, length_map]
    rw [hw1']
    simp only [bind_eq_bind, bind_some]
    rw [hw2, bind_some, hnext, bind_some]
    simp [layout]
  · -- a composite message: everything but its terminator is copied
    have hlen : m.data.length = (layout css).length + intBytes := by
      rw [hdata, length_append, length_terminator]
    have htake : m.data.take (m.data.length - intBytes) = layout css := by
      rw [hlen, hdata, take_left']
      rfl
    have hw := writeAt_append pre (replicate (layout css).length .blank)
      (replicate k .blank) (layout css) (by simp)
    rw [append_assoc, replicate_append_replicate] at hw
    simp only [hu, htake, hw]
    rw [hlen]
    simp

variable {msgs : List BufMsg} {csss : List (List (List UInt8))}

/-- The copy loop over messages that carry `csss`, from any cursor. -/
theorem foldlM_setCopy (h : List.Forall₂ Carries msgs csss) (hfits : Fits csss.flatten) :
    ∀ (pre : List MemVal) (k : Nat),
      msgs.foldlM setCopy (pre ++ List.replicate ((layout csss.flatten).length + k) .blank,
      pre.length) =
        some (pre ++ layout csss.flatten ++ List.replicate k .blank,
          (pre ++ layout csss.flatten).length) := by
  induction h with
  | nil => intro pre k; simp
  | @cons m css msgs csss hm hrest ih =>
    intro pre k
    obtain ⟨hfit, hfits⟩ := Fits.of_append hfits
    have hstep := setCopy_carries hm hfit pre ((layout csss.flatten).length + k)
    have hlen : (layout (css :: csss).flatten).length + k =
        (layout css).length + ((layout csss.flatten).length + k) := by
      simp [add_assoc]
    rw [foldlM_cons, hlen, hstep]
    simp only [bind_eq_bind, bind_some]
    rw [ih hfits (pre ++ layout css) k]
    simp

/-- `set` reserves what the copy loop writes, plus the terminator. -/
theorem foldlM_addMsgSize (h : List.Forall₂ Carries msgs csss) (hfits : Fits csss.flatten) :
    ∀ n : Nat, n + (layout csss.flatten).length < 2 ^ 31 →
      msgs.foldlM addMsgSize (n : Int) = some ((n + (layout csss.flatten).length : Nat) : Int) := by
  induction h with
  | nil =>
    intro n _
    rfl
  | @cons m css msgs csss hm _ ih =>
    intro n hn
    obtain ⟨hfit, hfits⟩ := Fits.of_append hfits
    rw [flatten_cons, layout_append, length_append] at hn ⊢
    rw [foldlM_cons, addMsgSize_carries hm hfit (by omega), bind_eq_bind, bind_some,
      ih hfits _ (by omega), Nat.add_assoc]

/-- **One reducer call.** The result holds the elements of all arguments, in
order, and is a buffer of exactly the size that was computed first. -/
theorem set_carries (env : ReductionEnv (List MemVal)) (h : List.Forall₂ Carries msgs csss)
    (hfits : Fits csss.flatten) :
    set env msgs = some (env.buildNew (layout csss.flatten ++ terminator) .invalid) := by
  unfold set
  have hloop := foldlM_setCopy h hfits [] intBytes
  rw [nil_append, length_nil, nil_append] at hloop
  have hwhole := hfits.whole
  have hsum := foldlM_addMsgSize h hfits 0 (by omega)
  rw [Nat.zero_add, Nat.cast_zero] at hsum
  have hsize : (castInt (((layout csss.flatten).length : Int) + intBytes)).toNat =
      (layout csss.flatten).length + intBytes := by
    rw [← Int.natCast_add, castInt_natCast hwhole, Int.toNat_natCast]
  have hterm := writeAt_append (layout csss.flatten) (replicate intBytes .blank) []
    (encodeInt intBytes (-1)) (by simp)
  rw [append_nil, append_nil] at hterm
  simp only [hsum, hsize, hloop, bind_eq_bind, bind_some]
  rw [hterm]
  rfl

/-! ### Whole reduction trees -/

/-- What the program is linked with when `reducerTable` has `set` at its place;
the other entries do not matter here. -/
def setEnv (refnumBits : Nat) (others : ReducerType → List BufMsg → Option BufMsg)
    (uninit : Bool) : ReductionEnv (List MemVal) :=
  { refnumBits
    reducerTable := fun r msgs =>
      if r = .set then
        set { refnumBits, reducerTable := others, uninitMigratable := uninit } msgs
      else others r msgs
    uninitMigratable := uninit }

/-- A tree of nested `CkReductionMgr::reduceMessages` calls: each call combines
raw contributions and results of earlier calls, in the order listed. A call on
no message is what a barren PE sends up. -/
inductive ReduceTree
  | contribute (bytes : List UInt8) (userFlag : Nat) (callback : CkCallback) (migratable : Bool)
  | reduce (myPe redNo : Nat) (args : List ReduceTree)

/-- The message a `contribute` call with reducer `set` enqueues. -/
def contributionMsg (env : ReductionEnv (List MemVal)) (bytes : List UInt8) (userFlag : Nat)
    (callback : CkCallback) (migratable : Bool) : BufMsg :=
  { env.buildNew (bytes.map .byte) .set with
    userFlag := userFlag
    callback := callback
    migratableContributor := migratable
    sourceFlag := -1
    gcount := 0 }

mutual
/-- The message a tree produces. -/
def ReduceTree.eval (env : ReductionEnv (List MemVal)) : ReduceTree → Option BufMsg
  | .contribute bytes userFlag callback migratable =>
    some (contributionMsg env bytes userFlag callback migratable)
  | .reduce myPe redNo args => (evalAll env args).bind (reduceMessages env myPe redNo)
/-- The queue of messages the arguments of a call produce. -/
def evalAll (env : ReductionEnv (List MemVal)) : List ReduceTree → Option (List BufMsg)
  | [] => some []
  | t :: ts => (t.eval env).bind fun m => (evalAll env ts).map (m :: ·)
end

mutual
/-- The contributed byte strings, from left to right. -/
def ReduceTree.contributions : ReduceTree → List (List UInt8)
  | .contribute bytes _ _ _ => [bytes]
  | .reduce _ _ args => contributionsAll args
/-- The contributed byte strings of several trees. -/
def contributionsAll : List ReduceTree → List (List UInt8)
  | [] => []
  | t :: ts => t.contributions ++ contributionsAll ts
end

/-- What the manager relies on about a message that stands for `css`: nothing
was contributed exactly when it is a placeholder, and a real message is of
reducer `set` and carries the contributions. -/
def Represents (m : BufMsg) (css : List (List UInt8)) : Prop :=
  (css = [] ∧ m.sourceFlag = 0 ∧ m.data = []) ∨
    (css ≠ [] ∧ m.sourceFlag ≠ 0 ∧ m.reducer = .set ∧ Carries m css)

theorem represents_contributionMsg (env : ReductionEnv (List MemVal)) (bytes : List UInt8)
    (userFlag : Nat) (callback : CkCallback) (migratable : Bool) :
    Represents (contributionMsg env bytes userFlag callback migratable) [bytes] := by
  refine .inr ⟨by simp, by simp [contributionMsg], rfl, .inl ⟨rfl, bytes, rfl, rfl⟩⟩

theorem forall₂_carries_filter (h : List.Forall₂ Represents msgs csss) :
    ∃ csss', List.Forall₂ Carries (msgs.filter (·.isReal)) csss' ∧ csss'.flatten = csss.flatten ∧
      ((msgs.filter (·.isReal) = []) ↔ csss.flatten = []) := by
  induction h with
  | nil => exact ⟨[], by simp, rfl, by simp⟩
  | @cons m css msgs csss hm hrest ih =>
    obtain ⟨csss', hcarry, hflat, hnil⟩ := ih
    rcases hm with ⟨rfl, hflag, -⟩ | ⟨hne, hflag, -, hc⟩
    · refine ⟨csss', ?_, ?_, ?_⟩
      · simpa [hflag] using hcarry
      · simp [hflat]
      · simpa [hflag] using hnil
    · refine ⟨css :: csss', ?_, ?_, ?_⟩
      · simpa [hflag] using ⟨hc, hcarry⟩
      · simp [hflat]
      · simp [hflag, hne]

theorem sum_nSources_pos (h : msgs.filter (·.isReal) ≠ []) : 0 < (msgs.map (·.nSources)).sum := by
  induction msgs with
  | nil => simp at h
  | cons m rest ih =>
    rw [map_cons, sum_cons]
    have hnonneg : 0 ≤ (rest.map (·.nSources)).sum :=
      sum_nonneg (by simpa using fun x _ => x.nSources_nonneg)
    by_cases hm : m.sourceFlag = 0
    · have := ih (by simpa [hm] using h)
      have := m.nSources_nonneg
      omega
    · have := CkReductionMsg.nSources_pos_of_isReal hm
      omega

theorem represents_reducer (h : List.Forall₂ Represents msgs csss) :
    ∀ m ∈ msgs, m.sourceFlag ≠ 0 → m.reducer = .set := by
  induction h with
  | nil => simp
  | cons hm _ ih =>
    intro m hmem hflag
    rcases mem_cons.mp hmem with rfl | hmem
    · rcases hm with ⟨-, h0, -⟩ | ⟨-, -, hr, -⟩
      · exact absurd h0 hflag
      · exact hr
    · exact ih m hmem hflag

/-- Among messages for `set`, the reducer runs on the real ones, also on a single one. -/
theorem combine_set (refnumBits : Nat) (others : ReducerType → List BufMsg → Option BufMsg)
    (uninit : Bool) (hset : ∀ m ∈ msgs, m.sourceFlag ≠ 0 → m.reducer = .set) {m : BufMsg}
    {rest : List BufMsg} (hreal : msgs.filter (·.isReal) = m :: rest) :
    combine (setEnv refnumBits others uninit) (fun r => r ≠ .set)
        (collect (setEnv refnumBits others uninit) msgs) =
      (set { refnumBits, reducerTable := others, uninitMigratable := uninit } (m :: rest)).map
        fun ret => { ret with reducer := .set } := by
  obtain ⟨harr, hr⟩ := collect_msgArr (setEnv refnumBits others uninit) (by decide) hset
  have hmem : m ∈ msgs.filter (·.isReal) := by rw [hreal]; exact mem_cons_self
  have hmset : m.reducer = .set :=
    hset m (mem_of_mem_filter hmem) (by simpa using (mem_filter.mp hmem).2)
  rw [if_neg (by rw [hreal]; exact cons_ne_nil m rest)] at hr
  rw [hreal] at harr
  have htable : (setEnv refnumBits others uninit).reducerTable .set (m :: rest) =
      set { refnumBits, reducerTable := others, uninitMigratable := uninit } (m :: rest) := rfl
  unfold combine
  simp [harr, hr, hmset, reducerArgs, htable]

/-- **One level of the tree.** `reduceMessages` keeps the representation: its
result stands for the contributions of all its arguments, and is packed even
when a single raw message came in. -/
theorem reduceMessages_represents (refnumBits : Nat)
    (others : ReducerType → List BufMsg → Option BufMsg) (uninit : Bool) (myPe redNo : Nat)
    (h : List.Forall₂ Represents msgs csss) (hfits : Fits csss.flatten) :
    ∃ m, reduceMessages (setEnv refnumBits others uninit) myPe redNo msgs = some m ∧
      Represents m csss.flatten ∧ m.isFromUser = false := by
  obtain ⟨csss', hcarry, hflat, hnil⟩ := forall₂_carries_filter h
  set env := setEnv refnumBits others uninit
  obtain ⟨harr, hr⟩ := collect_msgArr env (by decide) (represents_reducer h)
  have hsrc := collect_nSources env msgs
  by_cases hempty : msgs.filter (·.isReal) = []
  · -- only placeholders: another placeholder goes up
    have hzero : (msgs.map (·.nSources)).sum = 0 := by
      apply sum_eq_zero
      intro x hx
      obtain ⟨m, hm, rfl⟩ := mem_map.mp hx
      have hnot := filter_eq_nil_iff.mp hempty m hm
      exact m.nSources_of_placeholder (by simpa using hnot)
    have hcomb : combine env (fun r => r ≠ .set) (collect env msgs) =
        some (env.buildNew default .invalid) := by
      unfold combine
      rw [harr, hempty]
    refine ⟨_, by simp only [reduceMessages, hcomb]; rfl, .inl ⟨hnil.mp hempty, ?_, rfl⟩, ?_⟩
    · exact hsrc.trans hzero
    · simp [CkReductionMsg.isFromUser, hsrc, hzero]
  · -- at least one contribution: the reducer runs, also on a single message
    have hpos := sum_nSources_pos hempty
    have hset :=
      set_carries { refnumBits, reducerTable := others, uninitMigratable := uninit } hcarry
      (hflat ▸ hfits)
    obtain ⟨m, rest, hmr⟩ := exists_cons_of_ne_nil hempty
    rw [hmr] at hset
    have hcomb : combine env (fun r => r ≠ .set) (collect env msgs) = _ :=
      combine_set refnumBits others uninit (represents_reducer h) hmr
    rw [hset] at hcomb
    have hflag : (collect env msgs).nSources ≠ 0 := by rw [hsrc]; exact ne_of_gt hpos
    have huser : ((collect env msgs).nSources == -1) = false := by
      rw [beq_eq_false_iff_ne, hsrc]
      exact ne_of_gt (lt_trans (by decide) hpos)
    refine ⟨_, by simp only [reduceMessages, hcomb]; rfl, .inr ⟨?_, hflag, rfl, .inr ⟨?_, ?_⟩⟩, ?_⟩
    · exact fun h0 => hempty (hnil.mpr h0)
    · exact huser
    · rw [hflat]; rfl
    · exact huser

mutual
theorem eval_represents (refnumBits : Nat)
    (others : ReducerType → List BufMsg → Option BufMsg) (uninit : Bool) :
    ∀ t : ReduceTree, Fits t.contributions →
      ∃ m, t.eval (setEnv refnumBits others uninit) = some m ∧ Represents m t.contributions
  | .contribute bytes userFlag callback migratable, _ =>
    ⟨_, rfl, represents_contributionMsg _ bytes userFlag callback migratable⟩
  | .reduce myPe redNo args, hfits => by
      obtain ⟨msgs, csss, heval, hrep, hflat⟩ :=
        evalAll_represents refnumBits others uninit args hfits
      obtain ⟨m, hm, hrepm, -⟩ :=
        reduceMessages_represents refnumBits others uninit myPe redNo hrep
          (hflat ▸ (hfits : Fits (contributionsAll args)))
      refine ⟨m, ?_, ?_⟩
      · rw [ReduceTree.eval, heval, bind_some, hm]
      · rw [ReduceTree.contributions, ← hflat]
        exact hrepm
theorem evalAll_represents (refnumBits : Nat)
    (others : ReducerType → List BufMsg → Option BufMsg) (uninit : Bool) :
    ∀ ts : List ReduceTree, Fits (contributionsAll ts) →
      ∃ msgs csss, evalAll (setEnv refnumBits others uninit) ts = some msgs ∧
        List.Forall₂ Represents msgs csss ∧ csss.flatten = contributionsAll ts
  | [], _ => ⟨[], [], rfl, .nil, rfl⟩
  | t :: ts, hfits => by
      obtain ⟨hfit, hfits⟩ : Fits t.contributions ∧ Fits (contributionsAll ts) := hfits.of_append
      obtain ⟨m, hm, hrepm⟩ := eval_represents refnumBits others uninit t hfit
      obtain ⟨msgs, csss, hmsgs, hrep, hflat⟩ :=
        evalAll_represents refnumBits others uninit ts hfits
      refine ⟨m :: msgs, t.contributions :: csss, ?_, .cons hrepm hrep, ?_⟩
      · rw [evalAll, hm, bind_some, hmsgs, map_some]
      · rw [contributionsAll, flatten_cons, hflat]
end

end CharmRuntime.Reduction
