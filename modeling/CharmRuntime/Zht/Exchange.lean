import CharmRuntime.Zht.HtWorker
import CharmRuntime.Zht.NovohtMap

/-!
# Zht.Exchange

What one call does at a server whose table is in memory. A request with a key and values that are
not empty, have neither `/` nor NUL and are no words for fields that are not set arrives as it was
sent, so that each call is a call of the table. A record that `insert` stores is the request itself.
-/

namespace CharmRuntime.Zht

open Lib List
open CharmRuntime.Matrix (Text numToStr)
open CharmRuntime.Zht.Const
open ZhtClient (request)

/-! ### Texts -/

/-- A text without the characters that end or split a request. -/
structure Word (t : Text) : Prop where
  ne_nil : t ≠ []
  slash : '/' ∉ t
  nul : '\x00' ∉ t

instance (t : Text) : Decidable (Word t) :=
  decidable_of_iff (t ≠ [] ∧ '/' ∉ t ∧ '\x00' ∉ t)
    ⟨fun h => ⟨h.1, h.2.1, h.2.2⟩, fun h => ⟨h.1, h.2, h.3⟩⟩

/-- A key that can be sent. -/
structure Key (k : Text) : Prop where
  word : Word k
  ne_nokey : k ≠ "nokey".toList

instance (k : Text) : Decidable (Key k) :=
  decidable_of_iff (Word k ∧ k ≠ "nokey".toList) ⟨fun h => ⟨h.1, h.2⟩, fun h => ⟨h.1, h.2⟩⟩

/-- A value that can be sent: it may be empty. -/
def Value (v : Text) : Prop := v = [] ∨ (Word v ∧ v ≠ "noval".toList ∧ v ≠ "nonewval".toList)

instance (v : Text) : Decidable (Value v) := inferInstanceAs (Decidable (_ ∨ _))

theorem Word.piece {t : Text} (h : Word t) : Piece t := ⟨h.ne_nil, h.slash⟩

/-- What stands for a value in a request. -/
def shown (mark : Char) (v : Text) : Text := if v = [] then [mark] else v

variable {mark : Char} {opcode : Text} {z : Zpack} {key : Text} {w : HtWorker}
  {change : Int × Novoht}

theorem Value.word_shown {v : Text} (h : Value v) (hmark : Word [mark]) : Word (shown mark v) := by
  rw [shown]
  split
  · exact hmark
  · next hne => exact (h.resolve_left hne).1

theorem Value.shown_ne {v absent : Text} (h : Value v) (hmark : [mark] ≠ absent)
    (habsent : absent = "noval".toList ∨ absent = "nonewval".toList) : shown mark v ≠ absent := by
  rw [shown]
  split
  · exact hmark
  · next hne =>
      obtain ⟨-, hnoval, hnonewval⟩ := h.resolve_left hne
      obtain rfl | rfl := habsent
      · exact hnoval
      · exact hnonewval

/-! ### Requests -/

/-- The operations of the map. -/
def opcodes : List Text := [zscOpcLookup, zscOpcRemove, zscOpcInsert, zscOpcAppend, zscOpcCmpswp]

theorem word_of_mem_opcodes (h : opcode ∈ opcodes) : Word opcode ∧ opcode ≠ "noopcode".toList := by
  revert opcode
  decide

/-- A pack that is sent or stored: its fields are words. -/
structure Zpack.Sent (z : Zpack) : Prop extends z.WellFormed where
  words : ∀ t ∈ z.fields, Word t

theorem Zpack.Sent.nul_notMem (h : z.Sent) : '\x00' ∉ zpackToStr z := by
  intro hmem
  obtain ⟨t, ht, hc⟩ := mem_flatMap.mp hmem
  obtain hc | hc := mem_append.mp hc
  · exact (h.words t ht).nul hc
  · exact absurd hc (by decide)

theorem sent_of {val newval : Text} {key : Option Text} (hop : opcode ∈ opcodes)
    (hkey : ∀ k ∈ key, Key k)
    (hval : Word val ∧ val ≠ "noval".toList) (hnewval : Word newval ∧ newval ≠ "nonewval".toList)
    (valnull newvalnull : Bool) :
    Zpack.Sent ⟨some opcode, key, some val, some newval, some (numToStr 1), some valnull,
    some newvalnull, some 3⟩ := by
  obtain ⟨hopWord, hopNe⟩ := word_of_mem_opcodes hop
  have hbool : ∀ b : Bool, Word (boolToStr b) := by decide
  have hwords :
    ∀ t ∈ Zpack.fields ⟨some opcode, key, some val, some newval, some (numToStr 1), some valnull,
      some newvalnull, some 3⟩, Word t := by
    intro t ht
    simp only [Zpack.fields, mem_cons, not_mem_nil, or_false] at ht
    obtain rfl | rfl | rfl | rfl | rfl | rfl | rfl | rfl := ht
    · exact hopWord
    · cases key with
      | none => decide
      | some k => exact (hkey k rfl).word
    · exact hval.1
    · exact hnewval.1
    · decide
    · exact hbool valnull
    · exact hbool newvalnull
    · decide
  exact {
    words := hwords
    fields := fun t ht => (hwords t ht).piece
    opcode := fun heq => hopNe (Option.some.inj heq)
    key := fun heq => (hkey _ heq).ne_nokey rfl
    val := fun heq => hval.2 (Option.some.inj heq)
    newval := fun heq => hnewval.2 (Option.some.inj heq)
    lease := (by decide : some (numToStr 1) ≠ some "nolease".toList)
    replicanum := (by decide : ∀ n ∈ (some 3), Matrix.Fits 32 n) }

theorem sent_request {val val2 : Text} (hop : opcode ∈ opcodes) (hkey : Key key) (hval : Value val)
    (hval2 : Value val2) : (request opcode key val val2 1).Sent :=
  sent_of hop (fun _ h => Option.some.inj h ▸ hkey)
    ⟨hval.word_shown (by decide), hval.shown_ne (by decide) (.inl rfl)⟩
    ⟨hval2.word_shown (by decide), hval2.shown_ne (by decide) (.inr rfl)⟩ _ _

theorem Zpack.Sent.received (h : z.Sent) : strToZpack (cstr (zpackToStr z)) = z := by
  rw [cstr_eq_self h.nul_notMem, strToZpack_zpackToStr h.toWellFormed]

theorem run_eq (h : z.Sent) (w : HtWorker) : w.run (zpackToStr z) =
      if z.opcode.getD [] = zscOpcLookup then (w.lookupShared z, w)
      else if z.opcode.getD [] = zscOpcInsert then w.insertShared z
      else if z.opcode.getD [] = zscOpcAppend then w.appendShared z
      else if z.opcode.getD [] = zscOpcCmpswp then w.compareSwap z
      else if z.opcode.getD [] = zscOpcRemove then w.removeShared z
      else if z.opcode.getD [] = zscOpcStchgcb then ([], w)
      else (zscRecUopc, w) := by
  rw [HtWorker.run, h.received]

theorem sent_nokey {val val2 : Text} (hop : opcode ∈ opcodes) (hval : Value val)
    (hval2 : Value val2) :
    Zpack.Sent { request opcode "nokey".toList val val2 1 with key := none } :=
  sent_of hop (fun _ h => absurd h (by simp))
    ⟨hval.word_shown (by decide), hval.shown_ne (by decide) (.inl rfl)⟩
    ⟨hval2.word_shown (by decide), hval2.shown_ne (by decide) (.inr rfl)⟩ _ _

theorem zpackToStr_eq (hz : z.opcode = some opcode ∧ z.key = some key) :
    zpackToStr z = opcode ++ '/' :: '/' ::
    (key ++ '/' :: '/' :: (z.fields.drop 2).flatMap (· ++ ['/', '/'])) := by
  rw [zpackToStr, Zpack.fields, hz.1, hz.2]
  simp

theorem cstr_zpackToStr (hop : opcode ∈ opcodes) (hnul : '\x00' ∈ key)
    (hz : z.opcode = some opcode ∧ z.key = some key) :
    cstr (zpackToStr z) = opcode ++ '/' :: '/' :: cstr key := by
  obtain ⟨pre, post, rfl, hpre⟩ := eq_append_cons_of_mem hnul
  rw [zpackToStr_eq hz, cstr_append (word_of_mem_opcodes hop).1.nul, cstr_cut hpre, append_assoc,
    cons_append, ← cons_append, ← cons_append, cstr_cut]
  simp [hpre]

theorem zhtTokenize_opcode (hop : opcode ∈ opcodes) (rest : Text) :
    zhtTokenize (opcode ++ '/' :: '/' :: rest) ['/', '/'] = opcode ::
    zhtTokenize rest ['/', '/'] := by
  have hword := (word_of_mem_opcodes hop).1
  rw [zhtTokenize, tokens_append_delim hword.ne_nil (piece_chars hword.slash) (by decide)]
  rfl

theorem received_cut (hop : opcode ∈ opcodes) (hkey : '/' ∉ key) (hnul : '\x00' ∈ key)
    (hz : z.opcode = some opcode ∧ z.key = some key) : strToZpack (cstr (zpackToStr z)) = {} := by
  have hpre : '/' ∉ cstr key := fun h => hkey ((List.takeWhile_prefix _).subset h)
  refine strToZpack_of_length_lt ?_
  rw [cstr_zpackToStr hop hnul hz, zhtTokenize_opcode hop, zhtTokenize,
    tokens_eq_token (piece_chars hpre)]
  exact lt_of_le_of_lt (Nat.succ_le_succ (length_token_le _)) (by decide)

/-! ### A table in memory -/

/-- No file, and no file name. -/
structure Novoht.InMemory (t : Novoht) : Prop extends t.Ok where
  dbfile : t.dbfile = none
  swapFile : t.swapFile = none
  filename : t.filename = []

namespace Novoht.InMemory

variable {t : Novoht}

theorem rc (h : t.InMemory) : t.rc = 0 := by
  rw [Novoht.rc, if_neg]
  exact fun hc => hc.2 h.filename

theorem writeFile (h : t.InMemory) : t.writeFile = (0, t) := by
  rw [Novoht.writeFile, h.dbfile, h.filename]
  rfl

theorem grown (h : t.InMemory) : t.grown.InMemory where
  toOk := h.toOk.grown
  dbfile := by
    rw [Novoht.grown]
    split
    · exact h.dbfile
    · exact h.dbfile
  swapFile := by
    rw [Novoht.grown]
    split
    · exact h.swapFile
    · exact h.swapFile
  filename := by
    rw [Novoht.grown]
    split
    · exact h.filename
    · exact h.filename

theorem putChain_dbfile (k v : Text) (diff : Bool) (chain : List Kvpair) :
    (Novoht.putChain none k v diff chain).1 = none := by
  induction chain with
  | nil => rfl
  | cons cur rest ih =>
    rw [putChain]
    split
    · rfl
    · exact ih

theorem put (h : t.InMemory) (k v : Text) : (t.put k v).1 = 0 ∧ (t.put k v).2.InMemory := by
  refine ⟨h.grown.rc, ⟨h.toOk.put k v, ?_, h.grown.swapFile, h.grown.filename⟩⟩
  rw [Novoht.put, store, h.grown.dbfile]
  exact putChain_dbfile ..

theorem remove (h : t.InMemory) (k : Text) :
    (t.remove k).1 = (if t.contents k = none then -1 else 0) ∧ (t.remove k).2.InMemory := by
  obtain ⟨hok, ⟨hnone, heq⟩ | ⟨pre, cur, post, -, hcur, -, heq⟩⟩ := remove_cases h.toOk k
  · rw [heq, contents, hnone]
    exact ⟨rfl, h⟩
  · rw [heq] at hok
    rw [heq, contents, hcur, if_neg (by simp)]
    generalize headPositions (t.kvpairs (slot t.size k)) = toRem at hok ⊢
    have hunlink : (t.unlink k (pre ++ post) toRem).dbfile = none := by
      rw [unlink, h.dbfile]
      rfl
    have hwrite :
      (t.unlink k (pre ++ post) toRem).writeFile = (0, t.unlink k (pre ++ post) toRem) := by
      rw [Novoht.writeFile, hunlink]
      exact congrArg (·, _) (if_pos h.filename)
    rw [removeEntry, hwrite, h.rc] at hok ⊢
    simp only [ite_self, Int.add_zero] at hok ⊢
    exact ⟨trivial, hok, hunlink, h.swapFile, h.filename⟩

end Novoht.InMemory

theorem HtWorker.answer_eq (hrc : change.1 = 0) (h : change.2.InMemory) :
    w.answer change = (zscRecSucc, { w with pmap := change.2 }) := by
  have hwrite : change.2.writeFileFG.2 = change.2 := by
    rw [Novoht.writeFileFG, h.writeFile, Novoht.rewriteFile, h.swapFile]
  rw [answer, if_neg (not_not_intro hrc), hwrite, ite_self]

/-! ### Any table -/

theorem HtWorker.answer_ok (w : HtWorker) (h : change.2.Ok) :
    (w.answer change).2.pmap.Ok ∧ (w.answer change).2.pmap.contents = change.2.contents := by
  rw [answer]
  split
  · exact ⟨h, rfl⟩
  · cases hswap : w.instantSwap with
    | false => exact ⟨h, rfl⟩
    | true => exact Novoht.writeFileFG_ok h

theorem HtWorker.insertShared_ok (h : w.pmap.Ok) (z : Zpack) : (w.insertShared z).2.pmap.Ok := by
  rw [insertShared]
  split
  · exact h
  · exact (w.answer_ok (h.put _ _)).1

theorem HtWorker.run_ok (h : w.pmap.Ok) (buf : Text) : (w.run buf).2.pmap.Ok := by
  have happend : ∀ z, (w.appendShared z).2.pmap.Ok := by
    intro z
    rw [appendShared]
    split
    · exact h
    · exact (w.answer_ok (Novoht.append_ok h _ _).1).1
  have hremove : ∀ z, (w.removeShared z).2.pmap.Ok := by
    intro z
    rw [removeShared]
    split
    · exact h
    · exact (w.answer_ok (Novoht.remove_ok h _).1).1
  have hswap : ∀ z, (w.compareSwap z).2.pmap.Ok := by
    intro z
    rw [compareSwap]
    split
    · exact h
    · have hinternal : (w.compareSwapInternal z).2.pmap.Ok := by
        rw [compareSwapInternal]
        split
        · exact insertShared_ok h _
        · exact h
      exact hinternal
  rw [run]
  split
  · exact h
  split
  · exact insertShared_ok h _
  split
  · exact happend _
  split
  · exact hswap _
  split
  · exact hremove _
  split
  · exact h
  · exact h

/-! ### Calls -/

theorem commonOp_eq {w' : HtWorker} {val val2 status body : Text} (hop : opcode ∈ opcodes)
    (hkey : key ≠ [])
    (hstatus : status.length = 3 ∧ '\x00' ∉ status)
    (hrun : w.run (zpackToStr (request opcode key val val2 1)) = (status ++ body, w'))
    (result : Text) :
    ZhtClient.commonOp w opcode key val val2 result 1 = ((toInt status, cstr body), w') := by
  have hne : status ≠ [] := fun heq => absurd hstatus.1 (by rw [heq]; decide)
  have hreply : cstr (status ++ body) = status ++ cstr body := cstr_append hstatus.2 body
  have hmem :
    opcode ∈ [zscOpcLookup, zscOpcRemove, zscOpcInsert, zscOpcAppend, zscOpcCmpswp,
    zscOpcStchgcb] :=
    mem_append_left [zscOpcStchgcb] hop
  have hinternal :
    ZhtClient.commonOpInternal w opcode key val val2 result 1 = ((status, cstr body), w') := by
    simp only [ZhtClient.commonOpInternal, if_neg hkey, hrun, hreply]
    rw [if_neg (append_ne_nil_of_left_ne_nil hne _), ← hstatus.1, take_left, drop_left]
  simp only [ZhtClient.commonOp, if_pos hmem, hinternal, if_neg hne]

theorem extractValue_zpackToStr (h : z.WellFormed) (rest : Text) :
    ZhtClient.extractValue (zpackToStr z ++ rest) = if z.valnull.getD false then
      [] else z.val.getD [] := by
  rw [ZhtClient.extractValue, strToZpack_zpackToStr_append h]

end CharmRuntime.Zht
