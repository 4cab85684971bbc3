import CharmRuntime.Lib.Transition
import CharmRuntime.Zht.CasMap

/-!
# Zht.EmptyValues

**Empty values under compare-and-swap.** `insert` stores an empty value as `^` with the flag
`valnull`; a swap replaces the word of a record, by `?` for an empty value, and leaves the flag as
it is. So what is swapped in for an empty value is read as empty, and an empty value that is swapped
in for another one is read as `?`.

In runs in which no swap from or to an empty value succeeds every key has the value that was stored
last (`value_kept`). A `/` in a key splits it, and the part behind it is taken for the value; every
other key that is not stored is refused (`commonOp_refused`).
-/

namespace CharmRuntime.Zht

open Lib
open CharmRuntime.Matrix (Text)
open CharmRuntime.Zht.Const
open ZhtClient (request)

/-! ### Keys that are refused -/

theorem run_nokey {z : Zpack} (h : z.Sent) (hop : ∃ opcode ∈ opcodes, z.opcode = some opcode)
    (hkey : z.key = none)
    (w : HtWorker) : w.run (zpackToStr z) = (zscRecEmptykey, w) := by
  obtain ⟨opcode, hmem, hz⟩ := hop
  have hlookup : w.lookupShared z = zscRecEmptykey := by rw [HtWorker.lookupShared, hkey]; rfl
  have hinsert : w.insertShared z = (zscRecEmptykey, w) := by rw [HtWorker.insertShared, hkey]; rfl
  have happend : w.appendShared z = (zscRecEmptykey, w) := by rw [HtWorker.appendShared, hkey]; rfl
  have hremove : w.removeShared z = (zscRecEmptykey, w) := by rw [HtWorker.removeShared, hkey]; rfl
  have hswap : w.compareSwap z = (zscRecEmptykey, w) := by rw [HtWorker.compareSwap, hkey]; rfl
  rw [run_eq h, hz, hlookup, hinsert, happend, hremove, hswap]
  simp only [opcodes, List.mem_cons, List.not_mem_nil, or_false] at hmem
  obtain rfl | rfl | rfl | rfl | rfl := hmem
  · rfl
  · rfl
  · rfl
  · rfl
  · rfl

theorem commonOp_refused {opcode k val val2 : Text} (hop : opcode ∈ opcodes) (hslash : '/' ∉ k)
    (hk : ¬ Key k)
    (hval : Value val) (hval2 : Value val2) (w : HtWorker) :
    ∃ rc, rc < 0 ∧ ZhtClient.commonOp w opcode k val val2 [] 1 = ((rc, []), w) := by
  by_cases hnil : k = []
  · have hmem :
      opcode ∈ [zscOpcLookup, zscOpcRemove, zscOpcInsert, zscOpcAppend, zscOpcCmpswp,
      zscOpcStchgcb] :=
      List.mem_append_left [zscOpcStchgcb] hop
    refine ⟨-1, by decide, ?_⟩
    simp only [ZhtClient.commonOp, if_pos hmem, ZhtClient.commonOpInternal, if_pos hnil]
    rfl
  by_cases hnul : '\x00' ∈ k
  · have hrun : w.run (zpackToStr (request opcode k val val2 1)) = (zscRecUopc ++ [], w) := by
      rw [HtWorker.run, received_cut hop hslash hnul ⟨rfl, rfl⟩]
      rfl
    exact ⟨-98, by decide, commonOp_eq hop hnil (by decide) hrun []⟩
  · obtain rfl : k = "nokey".toList := by
      by_contra hne
      exact hk ⟨⟨hnil, hslash, hnul⟩, hne⟩
    have hrun :
      w.run (zpackToStr (request opcode "nokey".toList val val2 1)) = (zscRecEmptykey ++ [], w) :=
      run_nokey (sent_nokey hop hval hval2) ⟨opcode, hop, rfl⟩ rfl w
    exact ⟨-1, by decide, commonOp_eq hop hnil (by decide) hrun []⟩

/-! ### Runs -/

/-- Empty, or a value that is no word for something else. -/
def Mild (v : Text) :
    Prop := v = [] ∨ (Word v ∧ v ∉ [['^'], ['?'], "noval".toList, "nonewval".toList])

instance (v : Text) : Decidable (Mild v) := inferInstanceAs (Decidable (_ ∨ _))

theorem Mild.value {v : Text} (h : Mild v) : Value v := by
  refine h.imp_right fun ⟨hword, hne⟩ => ⟨hword, fun heq => hne ?_, fun heq => hne ?_⟩
  · simp [heq]
  · simp [heq]

theorem shown_inj {v v' : Text} (h : Mild v) (h' : Mild v') :
    shown '^' v = shown '^' v' ↔ v = v' := by
  have hcaret : ∀ {v : Text}, Mild v → v ≠ ['^'] := by
    rintro v (rfl | ⟨-, hne⟩)
    · decide
    · exact fun heq => hne (by simp [heq])
  by_cases hv : v = []
  · by_cases hv' : v' = []
    · simp [hv, hv']
    · simp [shown, hv, symm (hcaret h')]
  · by_cases hv' : v' = []
    · simp [shown, hv', hcaret h]
    · simp [shown, hv, hv']

inductive Store
  | insert (key val : Text)
  | compareSwap (key seenVal newVal : Text)

/-- The values of a call. -/
def Store.Mild : Store → Prop
  | .insert _ val => Zht.Mild val
  | .compareSwap _ seenVal newVal => Zht.Mild seenVal ∧ Zht.Mild newVal

/-- A server, and for each key the value of the last call that was successful. -/
structure Ledger where
  server : HtWorker
  last : CasMap

def Ledger.next (x : Ledger) : Store → Ledger
  | .insert key val =>
    let (rc, w) := ZhtClient.insert x.server key val
    ⟨w, if rc = 0 then Function.update x.last key (some val) else x.last⟩
  | .compareSwap key seenVal newVal =>
    let ((rc, _), w) := ZhtClient.compareSwap x.server key seenVal newVal
    ⟨w, if rc = 0 then Function.update x.last key (some newVal) else x.last⟩

/-- The calls, in any order, from a server that was started without a file. -/
def ledgerSystem (start : HtWorker) : Transition Ledger Store where
  init x := x = ⟨start, fun _ => none⟩
  step x c x' := x.next c = x'

/-- The key has no `/`, and a swap that finds its value is neither from nor to an empty value. -/
def Ledger.Sound (x : Ledger) : Store → Prop
  | .insert key _ => '/' ∉ key
  | .compareSwap key seenVal newVal =>
    '/' ∉ key ∧ (x.last key = some seenVal → seenVal ≠ [] ∧ newVal ≠ [])

structure Ledger.Inv (x : Ledger) : Prop where
  serves : Serves x.server x.last
  mild : ∀ k v, x.last k = some v → Mild v

theorem Ledger.Inv.update {x : Ledger} (h : x.Inv) {w : HtWorker} {k v : Text}
    (hserves : Serves w (Function.update x.last k (some v))) (hv : Mild v) :
    Ledger.Inv ⟨w, Function.update x.last k (some v)⟩ := by
  refine ⟨hserves, fun k' v' h' => ?_⟩
  have h' : Function.update x.last k (some v) k' = some v' := h'
  by_cases hk' : k' = k
  · subst hk'
    rw [Function.update_self] at h'
    exact Option.some.inj h' ▸ hv
  · rw [Function.update_of_ne hk'] at h'
    exact h.mild k' v' h'

theorem Ledger.Inv.compareSwap_fails {x : Ledger} (h : x.Inv) {k seen new : Text} (hk : Key k)
    (hseen : Mild seen)
    (hnew : Mild new) (hm : x.last k ≠ some seen) :
    ZhtClient.compareSwap x.server k seen new = ((-4, (x.last k).getD []), x.server) := by
  refine h.serves.compareSwap_differs hk hseen.value hnew.value fun v hv heq => ?_
  rw [shown_inj hseen (h.mild k v hv)] at heq
  exact hm (heq ▸ hv)

/-- **One call.** -/
theorem Ledger.Inv.next {x : Ledger} (h : x.Inv) {c : Store} (hc : c.Mild) (hok : x.Sound c) :
    (x.next c).Inv := by
  cases c with
  | insert key val =>
    have hval : Mild val := hc
    by_cases hk : Key key
    · obtain ⟨w', hcall, hserves⟩ := h.serves.insert hk hval.value
      rw [Ledger.next, hcall]
      exact h.update hserves hval
    · obtain ⟨rc, hrc, hcall⟩ :=
        commonOp_refused (by decide : zscOpcInsert ∈ opcodes) hok hk hval.value (.inl rfl) x.server
      have hinsert : ZhtClient.insert x.server key val = (rc, x.server) := by
        rw [ZhtClient.insert, hcall]
      rw [Ledger.next, hinsert]
      simp only [if_neg (Int.ne_of_lt hrc)]
      exact h
  | compareSwap key seenVal newVal =>
    obtain ⟨hseen, hnew⟩ := hc
    obtain ⟨hslash, hempty⟩ := hok
    by_cases hk : Key key
    · by_cases hm : x.last key = some seenVal
      · obtain ⟨hseenNe, hnewNe⟩ := hempty hm
        obtain ⟨w', hcall, hserves⟩ := h.serves.compareSwap_swaps hk hnew.value hseenNe hnewNe hm
        rw [Ledger.next, hcall]
        exact h.update hserves hnew
      · rw [Ledger.next, h.compareSwap_fails hk hseen hnew hm]
        exact h
    · obtain ⟨rc, hrc, hcall⟩ :=
        commonOp_refused (by decide : zscOpcCmpswp ∈ opcodes) hslash hk hseen.value
          hnew.value x.server
      have hswap : ZhtClient.compareSwap x.server key seenVal newVal = ((rc, []), x.server) := by
        rw [ZhtClient.compareSwap, hcall]
        rfl
      rw [Ledger.next, hswap]
      simp only [if_neg (Int.ne_of_lt hrc)]
      exact h

/-- **Each key has the value that was stored last**, and a swap succeeds if and only if this is the
value it was given, in runs in which no swap from or to an empty value succeeds. -/
theorem value_kept {size : Nat} (hsize : 0 < size) {magicNumber : Int} {full : Int → Nat → Bool}
    {uninit : Text → Bool}
    {instantSwap : Bool} {x : Ledger}
    (h : (ledgerSystem (HtWorker.start size magicNumber full uninit instantSwap)).RunsWith
      (fun x c => c.Mild ∧ x.Sound c) x) {k : Text} (hk : '/' ∉ k) :
    (match x.last k with
      | none => (ZhtClient.lookup x.server k).1.1 < 0 ∧ (ZhtClient.lookup x.server k).1.2 = []
      | some v => (ZhtClient.lookup x.server k).1 = (0, v)) ∧
    ∀ seen new, Mild seen → Mild new →
      ((ZhtClient.compareSwap x.server k seen new).1.1 = 0 ↔ x.last k = some seen) := by
  have hinv : x.Inv := by
    refine h.invariant (fun x hx => ?_) fun x c x' hx hok hstep => ?_
    · obtain rfl : x = _ := hx
      exact ⟨serves_start hsize .., fun _ _ h => nomatch h⟩
    · obtain rfl : x.next c = x' := hstep
      exact hx.next hok.1 hok.2
  by_cases hkey : Key k
  · refine ⟨?_, fun seen new hseen hnew => ?_⟩
    · rw [hinv.serves.lookup hkey]
      cases hm : x.last k with
      | none => exact ⟨(by decide : -92 < 0), rfl⟩
      | some v => rfl
    · by_cases hm : x.last k = some seen
      · rw [hinv.serves.compareSwap_matches hkey hseen.value hnew.value hm rfl]
        simp [hm]
      · rw [hinv.compareSwap_fails hkey hseen hnew hm]
        simp [hm]
  · have hnone : x.last k = none := by
      cases hm : x.last k with
      | none => rfl
      | some v => exact absurd (hinv.serves.entries k v hm).1 hkey
    rw [hnone]
    refine ⟨?_, fun seen new hseen hnew => ?_⟩
    · obtain ⟨rc, hrc, hcall⟩ :=
        commonOp_refused (by decide : zscOpcLookup ∈ opcodes) hk hkey (.inl rfl) (.inl rfl) x.server
      have hlookup : ZhtClient.lookup x.server k = ((rc, []), x.server) := by
        rw [ZhtClient.lookup, hcall]
        rfl
      rw [hlookup]
      exact ⟨hrc, rfl⟩
    · obtain ⟨rc, hrc, hcall⟩ :=
        commonOp_refused (by decide : zscOpcCmpswp ∈ opcodes) hk hkey hseen.value
          hnew.value x.server
      have hswap : ZhtClient.compareSwap x.server k seen new = ((rc, []), x.server) := by
        rw [ZhtClient.compareSwap, hcall]
        rfl
      rw [hswap]
      simp [Int.ne_of_lt hrc]

def blank : Ledger := ⟨smallServer, fun _ => none⟩

theorem blank_runsWith (ok : Ledger → Store → Prop) :
    (ledgerSystem smallServer).RunsWith ok blank := .init rfl

/-- A value is stored and swapped for another one. -/
theorem value_kept_swapped :
    let x := (blank.next (.insert ['a'] ['1'])).next (.compareSwap ['a'] ['1'] ['2'])
    (match x.last ['a'] with
      | none =>
        (ZhtClient.lookup x.server ['a']).1.1 < 0 ∧ (ZhtClient.lookup x.server ['a']).1.2 = []
      | some v => (ZhtClient.lookup x.server ['a']).1 = (0, v)) ∧
    ∀ seen new, Mild seen → Mild new →
      ((ZhtClient.compareSwap x.server ['a'] seen new).1.1 = 0 ↔ x.last ['a'] = some seen) := by
  have hrun : (ledgerSystem smallServer).RunsWith (fun x c => c.Mild ∧ x.Sound c)
      ((blank.next (.insert ['a'] ['1'])).next (.compareSwap ['a'] ['1'] ['2'])) := by
    refine .step (.step (blank_runsWith _) ⟨?_, ?_⟩ rfl)
      ⟨?_, ?_⟩ rfl
    · exact (by decide : Mild ['1'])
    · exact (by decide : '/' ∉ ['a'])
    · exact (by decide : Mild ['1'] ∧ Mild ['2'])
    · exact ⟨by decide, fun _ => by decide⟩
  exact value_kept (by decide) hrun (k := ['a']) (by decide)

/-- What is swapped in for an empty value is read as empty. -/
theorem swapped_for_empty :
    let x := (blank.next (.insert ['a'] [])).next (.compareSwap ['a'] [] ['2'])
    (ledgerSystem smallServer).RunsWith (fun _ c => c.Mild) x ∧ x.last ['a'] = some ['2'] ∧
      (ZhtClient.lookup x.server ['a']).1 = (0, []) := by
  refine ⟨.step (e := .compareSwap ['a'] [] ['2']) (.step (blank_runsWith _) ?_ rfl) ?_ rfl, ?_, ?_⟩
  · exact (by decide : Mild [])
  · exact (by decide : Mild [] ∧ Mild ['2'])
  · decide +kernel
  · decide +kernel

end CharmRuntime.Zht
