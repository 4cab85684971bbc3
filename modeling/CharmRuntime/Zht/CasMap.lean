import CharmRuntime.Zht.Exchange

/-!
# Zht.CasMap

**ZHT is a map with compare-and-swap.** `CasMap` is the map: a value, or none, for each key. A
server `Serves` a map when its table holds, for each key of the map, the record that `insert` would
store.

For values that are not empty every call is answered as by the map, and leaves a server that serves
the new map (`Serves.apply`), so that any calls in any order are answered as by the map
(`answers_agree`).
-/

namespace CharmRuntime.Zht

open Lib Function Option
open CharmRuntime.Matrix (Text numToStr)
open CharmRuntime.Zht.Const
open ZhtClient (request)

/-! ### The map -/

abbrev CasMap := Text → Option Text

inductive Call
  | insert (key val : Text)
  | lookup (key : Text)
  | remove (key : Text)
  | compareSwap (key seenVal newVal : Text)

structure Response where
  ok : Bool
  result : Text
  deriving DecidableEq

def CasMap.apply (m : CasMap) : Call → Response × CasMap
  | .insert key val => (⟨true, []⟩, Function.update m key (some val))
  | .lookup key => (⟨(m key).isSome, (m key).getD []⟩, m)
  | .remove key => (⟨(m key).isSome, []⟩, Function.update m key none)
  | .compareSwap key seenVal newVal =>
    if m key = some seenVal then (⟨true, newVal⟩, Function.update m key (some newVal))
    else (⟨false, (m key).getD []⟩, m)

/-- The call at a server: its status and result. -/
def ZhtClient.apply (w : HtWorker) : Call → (Int × Text) × HtWorker
  | .insert key val => (((insert w key val).1, []), (insert w key val).2)
  | .lookup key => lookup w key
  | .remove key => (((remove w key).1, []), (remove w key).2)
  | .compareSwap key seenVal newVal => compareSwap w key seenVal newVal

/-! ### The records -/

/-- The record of a value. -/
def recordOf (k v : Text) : Zpack := request zscOpcInsert k v [] 1

theorem sent_recordOf {k v : Text} (hk : Key k) (hv : Value v) : (recordOf k v).Sent :=
  sent_request (by decide) hk hv (.inl rfl)

theorem extractValue_recordOf {k v : Text} (hk : Key k) (hv : Value v) :
    ZhtClient.extractValue (zpackToStr (recordOf k v)) = v := by
  have h := extractValue_zpackToStr (sent_recordOf hk hv).toWellFormed []
  rw [List.append_nil] at h
  rw [h, recordOf, request]
  by_cases hnil : v = []
  · simp [hnil]
  · simp [hnil]

structure Serves (w : HtWorker) (m : CasMap) : Prop where
  inMemory : w.pmap.InMemory
  contents : ∀ k, w.pmap.contents k = (m k).map fun v => zpackToStr (recordOf k v)
  entries : ∀ k v, m k = some v → Key k ∧ Value v

namespace Serves

variable {w : HtWorker} {m : CasMap} {k : Text}

variable {z : Zpack} {v new : Text}

theorem lookupShared (h : Serves w m) (hk : Key k) (hz : z.key = some k) :
    w.lookupShared z = match m k with
      | none => zscRecNonexistkey ++ "Empty".toList
      | some v => zscRecSucc ++ zpackToStr (recordOf k v) := by
  have hne : k ≠ [] := hk.word.ne_nil
  have hget : w.pmap.get k = (m k).map fun v => zpackToStr (recordOf k v) := by
    rw [Novoht.get_eq, if_neg hne, h.contents]
  simp only [HtWorker.lookupShared, hz, getD_some, if_neg hne, hget]
  cases m k with
  | none => rfl
  | some v => rfl

theorem store (h : Serves w m) (hk : Key k) (hv : Value v) :
    Serves { w with pmap := (w.pmap.put k (zpackToStr (recordOf k v))).2 }
      (Function.update m k (some v)) where
  inMemory := (h.inMemory.put k _).2
  contents k' := by
    rw [Novoht.contents_put h.inMemory.toOk]
    by_cases hk' : k' = k
    · subst hk'
      rw [update_self, update_self]
      rfl
    · rw [update_of_ne hk', update_of_ne hk', h.contents]
  entries k' v' h' := by
    by_cases hk' : k' = k
    · subst hk'
      rw [update_self] at h'
      exact ⟨hk, some.inj h' ▸ hv⟩
    · rw [update_of_ne hk'] at h'
      exact h.entries k' v' h'

theorem insertShared (h : Serves w m) (hk : Key k) (hz : z.key = some k) :
    w.insertShared z = (zscRecSucc, { w with pmap := (w.pmap.put k (zpackToStr z)).2 }) := by
  obtain ⟨hrc, hmem⟩ := h.inMemory.put k (zpackToStr z)
  simp only [HtWorker.insertShared, hz, getD_some, if_neg hk.word.ne_nil]
  exact HtWorker.answer_eq hrc hmem

/-! ### The calls -/

theorem insert (h : Serves w m) (hk : Key k) (hv : Value v) :
    ∃ w', ZhtClient.insert w k v = (0, w') ∧ Serves w' (Function.update m k (some v)) := by
  have hrun : w.run (zpackToStr (request zscOpcInsert k v [] 1)) =
      (zscRecSucc ++ [], { w with pmap := (w.pmap.put k (zpackToStr (recordOf k v))).2 }) := by
    exact (run_eq (sent_recordOf hk hv) w).trans (h.insertShared hk rfl)
  have hop := commonOp_eq (by decide) hk.word.ne_nil (by decide) hrun []
  refine ⟨_, ?_, h.store hk hv⟩
  rw [ZhtClient.insert, hop]
  rfl

theorem lookup (h : Serves w m) (hk : Key k) :
    ZhtClient.lookup w k = ((if (m k).isSome then 0 else -92, (m k).getD []), w) := by
  have hsent : (request zscOpcLookup k [] [] 1).Sent :=
    sent_request (by decide) hk (.inl rfl) (.inl rfl)
  have hshared := h.lookupShared (z := request zscOpcLookup k [] [] 1) hk rfl
  have hrun :
    w.run (zpackToStr (request zscOpcLookup k [] [] 1)) =
    (w.lookupShared (request zscOpcLookup k [] [] 1), w) :=
    run_eq hsent w
  rw [hshared] at hrun
  cases hm : m k with
  | none =>
    rw [hm] at hrun
    rw [ZhtClient.lookup, commonOp_eq (by decide) hk.word.ne_nil (by decide) hrun []]
    rfl
  | some v =>
    have hv := h.entries k v hm
    rw [hm] at hrun
    rw [ZhtClient.lookup, commonOp_eq (by decide) hk.word.ne_nil (by decide) hrun [],
      cstr_eq_self (sent_recordOf hk hv.2).nul_notMem]
    exact congrArg (fun result => ((0, result), w)) (extractValue_recordOf hk hv.2)

theorem remove (h : Serves w m) (hk : Key k) :
    ∃ w', ZhtClient.remove w k = (if (m k).isSome then 0 else -92, w') ∧
    Serves w' (Function.update m k none) := by
  have hsent : (request zscOpcRemove k [] [] 1).Sent :=
    sent_request (by decide) hk (.inl rfl) (.inl rfl)
  obtain ⟨hrc, hmem⟩ := h.inMemory.remove k
  have hserves : Serves { w with pmap := (w.pmap.remove k).2 } (update m k none) := by
    refine ⟨hmem, fun k' => ?_, fun k' v' h' => ?_⟩
    · rw [(Novoht.remove_ok h.inMemory.toOk k).2]
      by_cases hk' : k' = k
      · subst hk'
        rw [update_self, update_self]
        rfl
      · rw [update_of_ne hk', update_of_ne hk', h.contents]
    · by_cases hk' : k' = k
      · subst hk'
        rw [update_self] at h'
        cases h'
      · rw [update_of_ne hk'] at h'
        exact h.entries k' v' h'
  have hrun : w.run (zpackToStr (request zscOpcRemove k [] [] 1)) = w.answer (w.pmap.remove k) := by
    rw [run_eq hsent]
    simp only [HtWorker.removeShared, request, getD_some, if_neg hk.word.ne_nil]
    rfl
  cases hm : m k with
  | none =>
    have hnone : w.pmap.contents k = none := by
      rw [h.contents, hm]
      rfl
    rw [hnone] at hrc
    have hanswer :
      w.answer (w.pmap.remove k) =
      (zscRecNonexistkey ++ [], { w with pmap := (w.pmap.remove k).2 }) := by
      rw [HtWorker.answer, if_pos (by rw [hrc]; decide)]
      rfl
    rw [hanswer] at hrun
    refine ⟨_, ?_, hserves⟩
    rw [ZhtClient.remove, commonOp_eq (by decide) hk.word.ne_nil (by decide) hrun []]
    rfl
  | some v =>
    have hsome : w.pmap.contents k ≠ none := by
      rw [h.contents, hm]
      exact some_ne_none _
    rw [if_neg hsome] at hrc
    have hanswer :
      w.answer (w.pmap.remove k) = (zscRecSucc ++ [], { w with pmap := (w.pmap.remove k).2 }) :=
      HtWorker.answer_eq hrc hmem
    rw [hanswer] at hrun
    refine ⟨_, ?_, hserves⟩
    rw [ZhtClient.remove, commonOp_eq (by decide) hk.word.ne_nil (by decide) hrun []]
    rfl

theorem run_compareSwap (hk : Key k) {seen : Text} (hseen : Value seen) (hnew : Value new) :
    w.run (zpackToStr (request zscOpcCmpswp k seen new 1)) =
    w.compareSwap (request zscOpcCmpswp k seen new 1) :=
  run_eq (sent_request (by decide) hk hseen hnew) w

theorem found_none (h : Serves w m) (hk : Key k) (hz : z.key = some k) (hm : m k = none) :
    strToZpack (HtWorker.eraseStatusCode (w.lookupShared z)) = {} := by
  rw [h.lookupShared hk hz, hm]
  exact (by decide : strToZpack (HtWorker.eraseStatusCode (zscRecNonexistkey ++ "Empty".toList)) =
    {})

theorem found_some (h : Serves w m) (hk : Key k) (hz : z.key = some k) (hm : m k = some v) :
    strToZpack (HtWorker.eraseStatusCode (w.lookupShared z)) = recordOf k v := by
  rw [h.lookupShared hk hz, hm]
  exact strToZpack_zpackToStr (sent_recordOf hk (h.entries k v hm).2).toWellFormed

theorem compareSwap_differs (h : Serves w m) (hk : Key k) {seen : Text} (hseen : Value seen)
    (hnew : Value new)
    (hne : ∀ v, m k = some v → shown '^' seen ≠ shown '^' v) :
    ZhtClient.compareSwap w k seen new = ((-4, (m k).getD []), w) := by
  have hinternal :
    w.compareSwapInternal (request zscOpcCmpswp k seen new 1) = (zscRecSrvexp, w) := by
    cases hm : m k with
    | none =>
      simp only [HtWorker.compareSwapInternal,
        h.found_none hk (z := request zscOpcCmpswp k seen new 1) rfl hm]
      exact if_neg (hseen.word_shown (by decide)).ne_nil
    | some v =>
      simp only [HtWorker.compareSwapInternal,
        h.found_some hk (z := request zscOpcCmpswp k seen new 1) rfl hm]
      exact if_neg (hne v hm)
  have hrun := run_compareSwap (w := w) hk hseen hnew
  simp only [HtWorker.compareSwap, hinternal] at hrun
  rw [if_neg (show (request zscOpcCmpswp k seen new 1).key.getD [] ≠ [] from hk.word.ne_nil),
    h.lookupShared hk rfl] at hrun
  rw [ZhtClient.compareSwap, commonOp_eq (by decide) hk.word.ne_nil (by decide) hrun []]
  cases hm : m k with
  | none => rfl
  | some v =>
    have hv := (h.entries k v hm).2
    refine congrArg (fun result => ((-4, result), w)) ?_
    refine (congrArg ZhtClient.extractValue ?_).trans (extractValue_recordOf hk hv)
    exact cstr_eq_self (sent_recordOf hk hv).nul_notMem

/-- The record after a swap: the flag is that of the old value. -/
def swapped (k v new : Text) : Zpack := { recordOf k v with val := some (shown '?' new) }

theorem sent_swapped (hk : Key k) (v : Text) (hnew : Value new) : (swapped k v new).Sent :=
  sent_of (by decide) (fun _ h => some.inj h ▸ hk)
    ⟨hnew.word_shown (by decide), hnew.shown_ne (by decide) (.inl rfl)⟩
    (by decide) _ _

theorem compareSwap_matches (h : Serves w m) (hk : Key k) {seen : Text} (hseen : Value seen)
    (hnew : Value new)
    (hm : m k = some v) (heq : shown '^' seen = shown '^' v) :
    ZhtClient.compareSwap w k seen new =
    ((0, ZhtClient.extractValue (zpackToStr (swapped k v new))),
      { w with pmap := (w.pmap.put k (zpackToStr (swapped k v new))).2 }) := by
  have hinternal : w.compareSwapInternal (request zscOpcCmpswp k seen new 1) =
      (zscRecSucc, { w with pmap := (w.pmap.put k (zpackToStr (swapped k v new))).2 }) := by
    simp only [HtWorker.compareSwapInternal,
      h.found_some hk (z := request zscOpcCmpswp k seen new 1) rfl hm]
    exact (if_pos heq).trans (h.insertShared hk rfl)
  have hshared :
    HtWorker.lookupShared { w with pmap := (w.pmap.put k (zpackToStr (swapped k v new))).2 }
      (request zscOpcCmpswp k seen new 1) = zscRecSucc ++ zpackToStr (swapped k v new) := by
    have hget :
      (w.pmap.put k (zpackToStr (swapped k v new))).2.get k =
      some (zpackToStr (swapped k v new)) := by
      rw [Novoht.get_eq, if_neg hk.word.ne_nil, Novoht.contents_put h.inMemory.toOk, update_self]
    rw [HtWorker.lookupShared]
    simp only [request, getD_some, if_neg hk.word.ne_nil, hget]
  have hrun := run_compareSwap (w := w) hk hseen hnew
  simp only [HtWorker.compareSwap, hinternal, hshared] at hrun
  rw [if_neg (show (request zscOpcCmpswp k seen new 1).key.getD [] ≠
    [] from hk.word.ne_nil)] at hrun
  rw [ZhtClient.compareSwap, commonOp_eq (by decide) hk.word.ne_nil (by decide) hrun []]
  refine congrArg (fun result => ((0, ZhtClient.extractValue result), _)) ?_
  exact cstr_eq_self (sent_swapped hk v hnew).nul_notMem

theorem swapped_eq (hv : v ≠ []) (hnew : new ≠ []) : swapped k v new = recordOf k new := by
  rw [swapped, recordOf, recordOf, request, request]
  simp [shown, hv, hnew]

theorem compareSwap_swaps (h : Serves w m) (hk : Key k) (hnew : Value new) (hv : v ≠ [])
    (hne : new ≠ [])
    (hm : m k = some v) :
    ∃ w', ZhtClient.compareSwap w k v new = ((0, new), w') ∧
    Serves w' (Function.update m k (some new)) := by
  have hmatches := h.compareSwap_matches hk (h.entries k v hm).2 hnew hm rfl
  rw [swapped_eq hv hne, extractValue_recordOf hk hnew] at hmatches
  exact ⟨_, hmatches, h.store hk hnew⟩

end Serves

/-! ### Any calls -/

/-- The texts of the calls: none of them is empty, has a `/` or a NUL, or is a word for a field that
is not set. -/
structure Plain (t : Text) : Prop where
  word : Word t
  ne_absent : t ∉ ["nokey".toList, "noval".toList, "nonewval".toList]

attribute [local instance] ZhtClient.lawfulText in
instance (t : Text) : Decidable (Plain t) :=
  decidable_of_iff (Word t ∧ t ∉ ["nokey".toList, "noval".toList, "nonewval".toList])
    ⟨fun h => ⟨h.1, h.2⟩, fun h => ⟨h.1, h.2⟩⟩

variable {t : Text} {w : HtWorker} {m : CasMap}

theorem Plain.key (h : Plain t) : Key t where
  word := h.word
  ne_nokey heq := h.ne_absent (by simp [heq])

theorem Plain.value (h : Plain t) : Value t :=
  .inr ⟨h.word, fun heq => h.ne_absent (by simp [heq]), fun heq => h.ne_absent (by simp [heq])⟩

theorem Plain.shown_eq (h : Plain t) (mark : Char) : shown mark t = t := if_neg h.word.ne_nil

def Call.texts : Call → List Text
  | .insert key val => [key, val]
  | .lookup key => [key]
  | .remove key => [key]
  | .compareSwap key seenVal newVal => [key, seenVal, newVal]

/-- A status and a result are those of the map: the status is 0 or negative. -/
structure Agrees (answer : Int × Text) (response : Response) : Prop where
  status : if response.ok then answer.1 = 0 else answer.1 < 0
  result : answer.2 = response.result

/-- A server that serves a map without empty values. -/
structure ServesPlain (w : HtWorker) (m : CasMap) : Prop extends Serves w m where
  plain : ∀ k v, m k = some v → Plain v

theorem ServesPlain.update {w' : HtWorker} (h : ServesPlain w m) {k : Text} {o : Option Text}
    (hserves : Serves w' (Function.update m k o)) (ho : ∀ v, o = some v → Plain v) :
    ServesPlain w' (Function.update m k o) := by
  refine ⟨hserves, fun k' v' h' => ?_⟩
  by_cases hk' : k' = k
  · subst hk'
    rw [update_self] at h'
    exact ho v' h'
  · rw [update_of_ne hk'] at h'
    exact h.plain k' v' h'

/-- **One call** is answered as by the map. -/
theorem ServesPlain.apply (h : ServesPlain w m) {c : Call} (hc : ∀ t ∈ c.texts, Plain t) :
    Agrees (ZhtClient.apply w c).1 (m.apply c).1 ∧
    ServesPlain (ZhtClient.apply w c).2 (m.apply c).2 := by
  cases c with
  | insert key val =>
    have hkey : Plain key := hc key (by simp [Call.texts])
    have hval : Plain val := hc val (by simp [Call.texts])
    obtain ⟨w', hcall, hserves⟩ := h.insert hkey.key hval.value
    rw [ZhtClient.apply, hcall]
    exact ⟨⟨rfl, rfl⟩, h.update hserves fun v hv => some.inj hv ▸ hval⟩
  | lookup key =>
    have hkey : Plain key := hc key (by simp [Call.texts])
    rw [ZhtClient.apply, h.lookup hkey.key, CasMap.apply]
    refine ⟨⟨?_, rfl⟩, h⟩
    cases hm : m key with
    | none => exact (by decide : -92 < 0)
    | some v => rfl
  | remove key =>
    have hkey : Plain key := hc key (by simp [Call.texts])
    obtain ⟨w', hcall, hserves⟩ := h.remove hkey.key
    rw [ZhtClient.apply, hcall]
    refine ⟨⟨?_, rfl⟩, h.update hserves fun v hv => by cases hv⟩
    rw [CasMap.apply]
    cases hm : m key with
    | none => exact (by decide : -92 < 0)
    | some v => rfl
  | compareSwap key seenVal newVal =>
    have hkey : Plain key := hc key (by simp [Call.texts])
    have hseen : Plain seenVal := hc seenVal (by simp [Call.texts])
    have hnew : Plain newVal := hc newVal (by simp [Call.texts])
    rw [ZhtClient.apply, CasMap.apply]
    by_cases hm : m key = some seenVal
    · obtain ⟨w', hcall, hserves⟩ :=
        h.compareSwap_swaps hkey.key hnew.value hseen.word.ne_nil hnew.word.ne_nil hm
      rw [hcall, if_pos hm]
      exact ⟨⟨rfl, rfl⟩, h.update hserves fun v hv => some.inj hv ▸ hnew⟩
    · have hdiffers : ∀ v, m key = some v → shown '^' seenVal ≠ shown '^' v := by
        intro v hv heq
        rw [hseen.shown_eq, (h.plain key v hv).shown_eq] at heq
        exact hm (heq ▸ hv)
      rw [h.compareSwap_differs hkey.key hseen.value hnew.value hdiffers, if_neg hm]
      exact ⟨⟨(by decide : -4 < 0), rfl⟩, h⟩

def ZhtClient.answers (w : HtWorker) : List Call → List (Int × Text)
  | [] => []
  | c :: calls => (apply w c).1 :: answers (apply w c).2 calls

def CasMap.answers (m : CasMap) : List Call → List Response
  | [] => []
  | c :: calls => (m.apply c).1 :: CasMap.answers (m.apply c).2 calls

/-- A server that was started without a file. -/
def HtWorker.start (size : Nat) (magicNumber : Int) (full : Int → Nat → Bool) (uninit : Text → Bool)
    (instantSwap : Bool) : HtWorker :=
  ⟨Novoht.new [] size magicNumber full uninit none, instantSwap⟩

/-- A small one. -/
def smallServer : HtWorker :=
  HtWorker.start 8 10000 (fun numEl size => numEl * 10 ≥ size * 7) (fun _ => false) false

theorem serves_start {size : Nat} (hsize : 0 < size) (magicNumber : Int) (full : Int → Nat → Bool)
    (uninit : Text → Bool) (instantSwap : Bool) :
    Serves (HtWorker.start size magicNumber full uninit instantSwap) fun _ => none where
  inMemory := ⟨⟨hsize, SlotTable.placed_empty⟩, rfl, rfl, rfl⟩
  contents _ := rfl
  entries _ _ h := nomatch h

theorem ServesPlain.answers (h : ServesPlain w m) {calls : List Call}
    (hcalls : ∀ c ∈ calls, ∀ t ∈ c.texts, Plain t) :
    List.Forall₂ Agrees (ZhtClient.answers w calls) (m.answers calls) := by
  induction calls generalizing w m with
  | nil => exact .nil
  | cons c calls ih =>
    obtain ⟨hagrees, hnext⟩ := h.apply (hcalls c List.mem_cons_self)
    exact .cons hagrees (ih hnext fun c' hc' => hcalls c' (List.mem_cons_of_mem c hc'))

/-- **Any calls, in any order,** are answered as by a map with compare-and-swap. -/
theorem answers_agree {size : Nat} (hsize : 0 < size) (magicNumber : Int) (full : Int → Nat → Bool)
    (uninit : Text → Bool) (instantSwap : Bool) {calls : List Call}
    (hcalls : ∀ c ∈ calls, ∀ t ∈ c.texts, Plain t) :
    List.Forall₂ Agrees
      (ZhtClient.answers (HtWorker.start size magicNumber full uninit instantSwap) calls)
      (CasMap.answers (fun _ => none) calls) :=
  ServesPlain.answers ⟨serves_start hsize .., fun _ _ h => nomatch h⟩ hcalls

/-- Two clients swap a value, one of them too late. -/
theorem answers_agree_swaps :
    let a := "a".toList
    let calls :
      List Call :=
        [.insert a ['1'], .compareSwap a ['1'] ['2'], .compareSwap a ['1'] ['3'],
        .lookup a, .remove a]
    List.Forall₂ Agrees
      (ZhtClient.answers
        (HtWorker.start 100000 10000 (fun numEl size => numEl * 10 ≥ size * 7) (fun _ => false)
          false) calls)
      (CasMap.answers (fun _ => none) calls) :=
  answers_agree (by decide) _ _ _ _ (by decide)

end CharmRuntime.Zht
