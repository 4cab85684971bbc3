import Mathlib.Data.List.Count
import CharmRuntime.Lib.Transition
import CharmRuntime.Zht.CasMap

/-!
# Zht.Append

**What is appended is not read.** `append` hands the request to the table in the encoding of
protobuf, and the table puts it behind the record and a colon. A lookup reads the first eight pieces
of the reply only, and those are of the record of the insert. Where there was no record, the reply
ends in the first request that was appended, at the NUL that stands for `valnull`, and has not even
eight pieces.

So a lookup after an append never gives the values joined (`append_lost`). The key may be any text
without `/`. With one, the pieces behind the first are taken for the value; then the lookup is wrong
for every value that is at least as long as the key.
-/

namespace CharmRuntime.Zht

open Lib List Option
open CharmRuntime.Matrix (Text numToStr)
open CharmRuntime.Zht.Const
open ZhtClient (request)

/-! ### What arrives -/

/-- The pieces of a key, as far as it is read. -/
def keyPieces (k : Text) : List Text := zhtTokenize (cstr k) ['/', '/']

variable {k val opcode : Text} {w : HtWorker} {piece a : Text} {ws : List Text}

/-- Without a `/` there is one piece at most. -/
theorem keyPieces_eq_token (hslash : '/' ∉ k) : keyPieces k = token (cstr k) :=
  tokens_eq_token (piece_chars fun h => hslash ((List.takeWhile_prefix _).subset h))

/-- The pieces behind the key, if it is read to its end. -/
def trailing (k val : Text) : List Text :=
  if '\x00' ∈ k then [] else
    [shown '^' val, ['?'], ['1'], boolToStr (val = []), boolToStr true, ['3']]

theorem isToken_trailing (hval : val = [] ∨ Word val) : ∀ t ∈ trailing k val, Word t := by
  intro t ht
  rw [trailing] at ht
  split at ht
  · cases ht
  · simp only [mem_cons, not_mem_nil, or_false] at ht
    obtain rfl | rfl | rfl | rfl | rfl | rfl := ht
    · rw [shown]
      split
      · decide
      · next hne => exact hval.resolve_left hne
    · decide
    · decide
    · exact (by decide : ∀ b, Word (boolToStr b)) _
    · decide
    · decide

theorem pieces_request (hop : opcode ∈ opcodes) (hval : val = [] ∨ Word val) :
    zhtTokenize (cstr (zpackToStr (request opcode k val [] 1))) ['/', '/'] =
      opcode :: (keyPieces k ++ trailing k val) := by
  by_cases hnul : '\x00' ∈ k
  · rw [cstr_zpackToStr hop hnul ⟨rfl, rfl⟩, zhtTokenize_opcode hop, trailing,
      if_pos hnul, append_nil]
    rfl
  · have htrailing : (request opcode k val [] 1).fields.drop 2 = trailing k val := by
      rw [trailing, if_neg hnul]
      rfl
    have hword := isToken_trailing (k := k) hval
    have htext := zpackToStr_eq (z := request opcode k val [] 1) ⟨rfl, rfl⟩
    rw [htrailing] at htext
    have hclean : '\x00' ∉ zpackToStr (request opcode k val [] 1) := by
      have hflat : '\x00' ∉ (trailing k val).flatMap (· ++ ['/', '/']) := by
        intro hmem
        obtain ⟨t, ht, hc⟩ := mem_flatMap.mp hmem
        obtain hc | hc := mem_append.mp hc
        · exact (hword t ht).nul hc
        · exact absurd hc (by decide)
      have hopNul := (word_of_mem_opcodes hop).1.nul
      rw [htext]
      simp [hopNul, hnul, hflat]
    rw [cstr_eq_self hclean, htext, zhtTokenize_opcode hop, keyPieces, cstr_eq_self hnul,
      zhtTokenize, zhtTokenize, tokens_append_delim_append (by decide),
      tokens_cons_delim (by decide),
      tokens_flatMap (fun t ht => (hword t ht).piece.isToken) (by decide)]

theorem word_of_mem_pieces {str t : Text} (hnul : '\x00' ∉ str)
    (h : t ∈ zhtTokenize str ['/', '/']) : Word t := by
  obtain ⟨hne, hdelim, hpart⟩ := mem_tokens h
  refine ⟨hne, fun hslash => ?_, fun h => hnul (hpart.subset h)⟩
  exact absurd (hdelim '/' hslash) (by decide)

theorem getD_strToField (absent t : Text) : (strToField absent t).getD absent = t := by
  rw [strToField]
  split
  · next heq => rw [heq]; rfl
  · rfl

theorem strToField_ne (absent t : Text) : strToField absent t ≠ some absent := by
  rw [strToField]
  split
  · exact fun heq => nomatch heq
  · next hne => exact fun heq => hne (some.inj heq)

/-- **A pack that was read** from a text without NUL can be sent again. -/
theorem sent_strToZpack {str : Text} (hnul : '\x00' ∉ str)
    (hlength : ¬ (zhtTokenize str ['/', '/']).length < 8) :
    (strToZpack str).Sent := by
  have hpiece : ∀ i < 8, Word ((zhtTokenize str ['/', '/']).getD i []) := by
    intro i hi
    have hi' : i < (zhtTokenize str ['/', '/']).length := by omega
    rw [← getElem_eq_getD (h := hi')]
    exact word_of_mem_pieces hnul (getElem_mem hi')
  have hbool :
    ∀ absent t : Text, Word absent →
    Word ((((strToField absent t).map strToBool).map boolToStr).getD absent) := by
    intro absent t habsent
    cases strToField absent t with
    | none => exact habsent
    | some t => exact (by decide : ∀ b, Word (boolToStr b)) _
  have hnum : ∀ n : Int, Word (numToStr n) := by
    intro n
    refine ⟨Matrix.numToStr_ne_nil n, fun h => ?_, fun h => ?_⟩
    all_goals exact absurd (Matrix.mem_numToStr h) (by decide)
  have hwords : ∀ t ∈ (strToZpack str).fields, Word t := by
    intro t ht
    simp only [Zpack.fields, strToZpack, if_neg hlength, getD_strToField, mem_cons, not_mem_nil,
      or_false] at ht
    obtain rfl | rfl | rfl | rfl | rfl | rfl | rfl | rfl := ht
    · exact hpiece 0 (by decide)
    · exact hpiece 1 (by decide)
    · exact hpiece 2 (by decide)
    · exact hpiece 3 (by decide)
    · exact hpiece 4 (by decide)
    · exact hbool _ _ (by decide)
    · exact hbool _ _ (by decide)
    · cases strToField "noreplicanum".toList ((zhtTokenize str ['/', '/']).getD 7 []) with
      | none => decide
      | some t => exact hnum _
  exact {
    words := hwords
    fields := fun t ht => (hwords t ht).piece
    opcode := by
      simp only [strToZpack, if_neg hlength]
      exact strToField_ne _ _
    key := by
      simp only [strToZpack, if_neg hlength]
      exact strToField_ne _ _
    val := by
      simp only [strToZpack, if_neg hlength]
      exact strToField_ne _ _
    newval := by
      simp only [strToZpack, if_neg hlength]
      exact strToField_ne _ _
    lease := by
      simp only [strToZpack, if_neg hlength]
      exact strToField_ne _ _
    replicanum := by
      simp only [strToZpack, if_neg hlength]
      intro n hn
      obtain ⟨t, -, rfl⟩ := map_eq_some_iff.mp hn
      exact Matrix.fits_strToNum _ }

theorem length_trailing (k val : Text) : (trailing k val).length = if '\x00' ∈ k then 0 else 6 := by
  rw [trailing]
  split
  · rfl
  · rfl

/-- A key that makes a request too short. -/
def Short (k : Text) : Prop := (keyPieces k).length + (if '\x00' ∈ k then 0 else 6) + 1 < 8

/-- What the server reads of a request with any key: the value is what was sent, or a later piece of
the key, or it is not set. -/
structure Received (k val opcode piece : Text) (z : Zpack) : Prop where
  sent : z.Sent
  opcode_eq : z.opcode = some opcode
  key_eq : z.key = strToField "nokey".toList piece
  val_mem : z.val.getD [] ∈ [] :: shown '^' val :: (keyPieces k).drop 1

theorem received_cases (hop : opcode ∈ opcodes) (hval : val = [] ∨ Word val) :
    Short k ∧ strToZpack (cstr (zpackToStr (request opcode k val [] 1))) = {} ∨
      ¬ Short k ∧ ∃ piece, (keyPieces k).head? = some piece ∧
        Received k val opcode piece
          (strToZpack (cstr (zpackToStr (request opcode k val [] 1)))) := by
  have hvec := pieces_request (k := k) hop hval
  have hnul := nul_notMem_cstr (zpackToStr (request opcode k val [] 1))
  generalize cstr (zpackToStr (request opcode k val [] 1)) = str at hvec hnul
  have hlength :
    (zhtTokenize str ['/', '/']).length = (keyPieces k).length +
    (if '\x00' ∈ k then 0 else 6) + 1 := by
    rw [hvec, length_cons, length_append, length_trailing]
  by_cases hshort : Short k
  · exact .inl ⟨hshort, strToZpack_of_length_lt (hlength ▸ hshort)⟩
  have hlong : ¬ (zhtTokenize str ['/', '/']).length < 8 := hlength ▸ hshort
  have hsix : (if '\x00' ∈ k then 0 else 6) ≤ 6 := by
    split
    · decide
    · decide
  obtain ⟨piece, rest, hpieces⟩ : ∃ piece rest, keyPieces k = piece :: rest := by
    cases hpieces : keyPieces k with
    | nil =>
      rw [Short, hpieces, length_nil] at hshort
      omega
    | cons piece rest => exact ⟨piece, rest, rfl⟩
  have hsent := sent_strToZpack hnul hlong
  rw [hpieces, cons_append] at hvec
  rw [hvec] at hlong
  refine .inr ⟨hshort, piece, by rw [hpieces]; rfl, hsent, ?_, ?_, ?_⟩
  · simp only [strToZpack, hvec, if_neg hlong]
    exact if_neg (word_of_mem_opcodes hop).2
  · simp only [strToZpack, hvec, if_neg hlong, getD_cons_zero, getD_cons_succ]
  · have hval2 : (rest ++ trailing k val).getD 0 [] ∈ shown '^' val :: rest := by
      cases rest with
      | cons r rest => simp
      | nil =>
        by_cases hk : '\x00' ∈ k
        · rw [Short, hpieces, if_pos hk] at hshort
          exact absurd (by decide : 1 + 0 + 1 < 8) hshort
        · rw [trailing, if_neg hk]
          exact mem_cons_self
    simp only [strToZpack, hvec, if_neg hlong, hpieces, drop_zero, strToField]
    split
    · exact mem_cons_self
    · exact mem_cons_of_mem [] hval2

/-! ### Calls with any key -/

theorem commonOp_snd (hop : opcode ∈ opcodes) : (ZhtClient.commonOp w opcode k val [] [] 1).2 =
      if k = [] then w else (w.run (zpackToStr (request opcode k val [] 1))).2 := by
  have hmem :
    opcode ∈ [zscOpcLookup, zscOpcRemove, zscOpcInsert, zscOpcAppend, zscOpcCmpswp,
    zscOpcStchgcb] :=
    mem_append_left [zscOpcStchgcb] hop
  simp only [ZhtClient.commonOp, if_pos hmem, ZhtClient.commonOpInternal]
  by_cases hk : k = []
  · simp only [if_pos hk]
  · simp only [if_neg hk]
    split
    · rfl
    · rfl

/-- A key under which something can be stored: it is not too short, and its first piece is the key
for the server. -/
structure Stores (k piece : Text) : Prop where
  ne_nil : k ≠ []
  long : ¬ Short k
  head : (keyPieces k).head? = some piece
  ne_nokey : piece ≠ "nokey".toList

theorem Stores.piece_ne_nil (h : Stores k piece) : piece ≠ [] :=
  (mem_tokens (mem_of_mem_head? h.head)).1

theorem Stores.received (h : Stores k piece) (hop : opcode ∈ opcodes) (hval : val = [] ∨ Word val) :
    Received k val opcode piece (strToZpack (cstr (zpackToStr (request opcode k val [] 1)))) := by
  obtain ⟨hshort, -⟩ | ⟨-, piece', hhead, hreceived⟩ := received_cases hop hval
  · exact absurd hshort h.long
  · obtain rfl : piece = piece' := some.inj (h.head.symm.trans hhead)
    exact hreceived

theorem Stores.key_eq (h : Stores k piece) {z : Zpack} (hz : Received k val opcode piece z) :
    z.key = some piece := by
  rw [hz.key_eq, strToField, if_neg h.ne_nokey]

theorem lookup_cases (w : HtWorker) (k : Text) :
    (ZhtClient.lookup w k).1.1 ≠ 0 ∨ ∃ piece val, Stores k piece ∧
    w.pmap.contents piece = some val ∧
      (ZhtClient.lookup w k).1 = (0, ZhtClient.extractValue (cstr val)) := by
  have hop : zscOpcLookup ∈ opcodes := by decide
  by_cases hk : k = []
  · subst hk
    exact .inl (by decide : -1 ≠ 0)
  -- a reply without a record has a status that is not 0
  have hfails :
    ∀ status body, w.run (zpackToStr (request zscOpcLookup k [] [] 1)) = (status ++ body, w) →
      status.length = 3 ∧ '\x00' ∉ status → toInt status ≠ 0 → (ZhtClient.lookup w k).1.1 ≠ 0 := by
    intro status body hrun hstatus hne
    rw [ZhtClient.lookup, commonOp_eq hop hk hstatus hrun []]
    exact hne
  obtain ⟨-, hempty⟩ | ⟨hlong, piece, hhead, hreceived⟩ :=
    received_cases hop (.inl rfl : [] = [] ∨ Word [])
  · refine .inl (hfails zscRecUopc [] ?_ (by decide) (by decide))
    rw [HtWorker.run, hempty]
    rfl
  have hrun : w.run (zpackToStr (request zscOpcLookup k [] [] 1)) =
      (w.lookupShared (strToZpack (cstr (zpackToStr (request zscOpcLookup k [] [] 1)))), w) := by
    rw [HtWorker.run, hreceived.opcode_eq]
    rfl
  by_cases hnokey : piece = "nokey".toList
  · refine .inl (hfails zscRecEmptykey [] (hrun.trans ?_) (by decide) (by decide))
    rw [HtWorker.lookupShared, hreceived.key_eq, strToField, if_pos hnokey]
    rfl
  have hstores : Stores k piece := ⟨hk, hlong, hhead, hnokey⟩
  have hget : w.pmap.get piece = w.pmap.contents piece := by
    rw [Novoht.get_eq, if_neg hstores.piece_ne_nil]
  simp only [HtWorker.lookupShared, hstores.key_eq hreceived, getD_some,
    if_neg hstores.piece_ne_nil, hget] at hrun
  cases hcontents : w.pmap.contents piece with
  | none =>
    rw [hcontents] at hrun
    exact .inl (hfails zscRecNonexistkey _ hrun (by decide) (by decide))
  | some val =>
    rw [hcontents] at hrun
    refine .inr ⟨piece, val, hstores, hcontents, ?_⟩
    rw [ZhtClient.lookup, commonOp_eq hop hk (by decide) hrun []]
    rfl

/-- A key that cannot be looked up is not stored either; for others the record is the request. -/
theorem insert_contents (h : w.pmap.Ok) {v : Text} (hk : Stores k piece) (hv : Word v) :
    (ZhtClient.insert w k v).2.pmap.Ok ∧
      ∃ z, Received k v zscOpcInsert piece z ∧ (ZhtClient.insert w k v).2.pmap.contents piece =
      some (zpackToStr z) := by
  have hop : zscOpcInsert ∈ opcodes := by decide
  have hreceived := hk.received hop (.inr hv)
  generalize hz : strToZpack (cstr (zpackToStr (request zscOpcInsert k v [] 1))) = z at hreceived
  have hrun :
    w.run (zpackToStr (request zscOpcInsert k v [] 1)) =
    w.answer (w.pmap.put piece (zpackToStr z)) := by
    rw [HtWorker.run, hz, hreceived.opcode_eq]
    simp only [HtWorker.insertShared, hk.key_eq hreceived, getD_some, if_neg hk.piece_ne_nil]
    rfl
  have hsnd : (ZhtClient.insert w k v).2 = (w.answer (w.pmap.put piece (zpackToStr z))).2 := by
    rw [← hrun]
    exact (commonOp_snd hop).trans (if_neg hk.ne_nil)
  obtain ⟨hok, hcontents⟩ := w.answer_ok (h.put piece (zpackToStr z))
  rw [hsnd]
  refine ⟨hok, z, hreceived, ?_⟩
  rw [hcontents, Novoht.contents_put h, Function.update_self]

theorem append_contents (h : w.pmap.Ok) (hk : Stores k piece) (ha : Word a) :
    (ZhtClient.append w k a).2.pmap.Ok ∧ (ZhtClient.append w k a).2.pmap.contents =
      Function.update w.pmap.contents piece (some (Novoht.appended (w.pmap.contents piece)
        (strToZpack (cstr (zpackToStr (request zscOpcAppend k a [] 1)))).serialize)) := by
  have hop : zscOpcAppend ∈ opcodes := by decide
  have hreceived := hk.received hop (.inr ha)
  generalize hz : strToZpack (cstr (zpackToStr (request zscOpcAppend k a [] 1))) = z at hreceived ⊢
  have hrun :
    w.run (zpackToStr (request zscOpcAppend k a [] 1)) =
    w.answer (w.pmap.append piece z.serialize) := by
    rw [HtWorker.run, hz, hreceived.opcode_eq]
    simp only [HtWorker.appendShared, hk.key_eq hreceived, getD_some, if_neg hk.piece_ne_nil]
    rfl
  have hsnd : (ZhtClient.append w k a).2 = (w.answer (w.pmap.append piece z.serialize)).2 := by
    rw [← hrun]
    exact (commonOp_snd hop).trans (if_neg hk.ne_nil)
  obtain ⟨hok, hcontents⟩ := Novoht.append_ok h piece z.serialize
  obtain ⟨hok', hcontents'⟩ := w.answer_ok hok
  rw [hsnd]
  exact ⟨hok', hcontents'.trans hcontents⟩

theorem append_eq_self (hk : ∀ piece, ¬ Stores k piece) (ha : Word a) (w : HtWorker) :
    (ZhtClient.append w k a).2 = w := by
  have hop : zscOpcAppend ∈ opcodes := by decide
  refine (commonOp_snd hop).trans ?_
  by_cases hnil : k = []
  · exact if_pos hnil
  rw [if_neg hnil]
  obtain ⟨-, hempty⟩ | ⟨hlong, piece, hhead, hreceived⟩ := received_cases hop (.inr ha)
  · rw [HtWorker.run, hempty]
    rfl
  · have hnokey : piece = "nokey".toList := by
      by_contra hne
      exact hk piece ⟨hnil, hlong, hhead, hne⟩
    have hkey := hreceived.key_eq
    rw [strToField, if_pos hnokey] at hkey
    rw [HtWorker.run, hreceived.opcode_eq]
    simp only [HtWorker.appendShared, hkey]
    rfl

/-! ### Several appends -/

def appends (w : HtWorker) (k : Text) (ws : List Text) : HtWorker :=
  ws.foldl (fun w a => (ZhtClient.append w k a).2) w

theorem appends_prefix (h : w.pmap.Ok) {key text rest : Text} (hws : ∀ a ∈ ws, Word a)
    (hkey : w.pmap.contents key = some (text ++ rest)) :
    ∃ rest', (appends w k ws).pmap.contents key = some (text ++ rest') := by
  induction ws generalizing w rest with
  | nil => exact ⟨rest, hkey⟩
  | cons a ws ih =>
    have ha := hws a mem_cons_self
    have hws' : ∀ b ∈ ws, Word b := fun b hb => hws b (mem_cons_of_mem a hb)
    rw [appends, foldl_cons]
    by_cases hk : ∃ piece, Stores k piece
    · obtain ⟨piece, hk⟩ := hk
      obtain ⟨hok, hcontents⟩ := append_contents h hk ha
      by_cases hpiece : key = piece
      · subst hpiece
        have hself := congrFun hcontents key
        rw [Function.update_self, hkey, Novoht.appended, append_assoc] at hself
        exact ih hok hws' hself
      · have hother := congrFun hcontents key
        rw [Function.update_of_ne hpiece, hkey] at hother
        exact ih hok hws' hother
    · rw [append_eq_self (fun piece hp => hk ⟨piece, hp⟩) ha]
      exact ih h hws' hkey

/-- The values with colons between them. -/
def joined : List Text → Text
  | [] => []
  | [v] => v
  | v :: ws => v ++ ':' :: joined ws

theorem length_lt_joined (v : Text) (hws : ws ≠ []) : v.length < (joined (v :: ws)).length := by
  cases ws with
  | nil => exact absurd rfl hws
  | cons a ws =>
    rw [joined, length_append, length_cons]
    · omega
    · exact fun h => nomatch h

/-- After an insert, a lookup that succeeds gives its value, a later piece of the key, or nothing.
-/
theorem lookup_appends (h : w.pmap.Ok) (k : Text) {v : Text} (hv : Word v)
    (hws : ∀ a ∈ ws, Word a) :
    (ZhtClient.lookup (appends (ZhtClient.insert w k v).2 k ws) k).1.1 ≠ 0 ∨
      (ZhtClient.lookup (appends (ZhtClient.insert w k v).2 k ws) k).1.2 ∈ [] :: v ::
      (keyPieces k).drop 1 := by
  obtain hfails | ⟨piece, val, hk, hval, hlookup⟩ :=
    lookup_cases (appends (ZhtClient.insert w k v).2 k ws) k
  · exact .inl hfails
  · right
    obtain ⟨hok, z, hz, hcontents⟩ := insert_contents h hk hv
    rw [← append_nil (zpackToStr z)] at hcontents
    obtain ⟨rest, hrest⟩ := appends_prefix hok hws hcontents
    obtain rfl : zpackToStr z ++ rest = val := some.inj (hrest.symm.trans hval)
    have hmem := hz.val_mem
    rw [shown, if_neg hv.ne_nil] at hmem
    rw [hlookup, cstr_append hz.sent.nul_notMem, extractValue_zpackToStr hz.sent.toWellFormed]
    split
    · exact mem_cons_self
    · exact hmem

/-! ### Without an insert -/

/-- A `/` can only be the last byte of a number. -/
theorem countP_varint_le (n : Nat) :
    (varint n).countP (fun c => (['/', '/'] : Text).contains c) ≤ 1 := by
  induction n using Nat.strongRecOn with
  | ind n ih =>
    rw [varint]
    split
    · exact countP_le_length
    · next hn =>
        have hhigh : Char.ofNat (n % 128 + 128) ≠ '/' :=
          (by decide : ∀ m < 128, Char.ofNat (m + 128) ≠ '/') _ (Nat.mod_lt n (by decide))
        rw [countP_cons_of_neg (by simpa using hhigh)]
        exact ih _ (by omega)

theorem countP_bytesField_le {tag : Nat} (htag : Char.ofNat tag ≠ '/') {o : Option Text}
    (ho : ∀ t ∈ o, '/' ∉ t) :
    (bytesField tag o).countP (fun c => (['/', '/'] : Text).contains c) ≤ 1 := by
  cases o with
  | none => exact Nat.zero_le 1
  | some t =>
    have ht : t.countP (fun c => (['/', '/']).contains c) = 0 := by
      rw [countP_eq_zero]
      exact fun c hc => by rw [piece_chars (ho t rfl) c hc]; decide
    rw [bytesField, countP_cons_of_neg, countP_append, ht]
    · exact countP_varint_le _
    · simpa using htag

/-- The request to append, as it is read. -/
def appendPack (k a : Text) : Zpack :=
  ⟨some zscOpcAppend, some k, strToField "noval".toList a, some ['?'], some ['1'], some false,
  some true, some 3⟩

theorem received_append (hk : Key k) (ha : Word a) :
    strToZpack (cstr (zpackToStr (request zscOpcAppend k a [] 1))) = appendPack k a := by
  have hvec := pieces_request (k := k) (by decide : zscOpcAppend ∈ opcodes) (.inr ha)
  rw [keyPieces_eq_token hk.word.slash, cstr_eq_self hk.word.nul,
    token_of_ne_nil hk.word.ne_nil, trailing, if_neg hk.word.nul, shown, if_neg ha.ne_nil] at hvec
  have hflag : boolToStr (decide (a = [])) = boolToStr false := by rw [decide_eq_false ha.ne_nil]
  rw [hflag] at hvec
  simp only [strToZpack, hvec]
  have hreplicanum :
    (strToField "noreplicanum".toList ['3']).map (Matrix.strToNum 32) = some 3 := by decide
  exact Zpack.ext rfl (if_neg hk.ne_nokey) rfl rfl rfl rfl rfl hreplicanum

/-- What is in front of the byte for the flag. -/
def serializeFront (k a : Text) : Text :=
  bytesField 10 (some zscOpcAppend) ++ bytesField 18 (some k) ++
  bytesField 26 (strToField "noval".toList a) ++
    bytesField 34 (some ['?']) ++ bytesField 42 (some ['1']) ++ [Char.ofNat 48]

theorem serialize_appendPack (k a : Text) :
    (appendPack k a).serialize = serializeFront k a ++ '\x00' ::
    (numField 56 (some 1) ++ numField 64 (some 3)) := by
  have hflag : numField 48 (some 0) = [Char.ofNat 48, '\x00'] := by
    have hzero : varint 0 = ['\x00'] := by
      rw [varint]
      rfl
    exact congrArg (Char.ofNat 48 :: ·) hzero
  simp only [Zpack.serialize, appendPack, serializeFront, map_some, Bool.false_eq_true, if_false,
    if_true, hflag, append_assoc, cons_append, nil_append]

theorem countP_serializeFront_le (hk : '/' ∉ k) (ha : '/' ∉ a) :
    (serializeFront k a).countP (fun c => (['/', '/'] : Text).contains c) ≤ 5 := by
  have hval : ∀ t ∈ strToField "noval".toList a, '/' ∉ t := by
    intro t ht
    rw [strToField] at ht
    split at ht
    · cases ht
    · exact some.inj ht ▸ ha
  have hopcode := countP_bytesField_le (by decide : Char.ofNat 10 ≠ '/')
    (o := some zscOpcAppend) (by decide)
  have hkey := countP_bytesField_le (by decide : Char.ofNat 18 ≠ '/') fun t ht => some.inj ht ▸ hk
  have hval := countP_bytesField_le (by decide : Char.ofNat 26 ≠ '/') hval
  have hnewval := countP_bytesField_le (by decide : Char.ofNat 34 ≠ '/')
    (o := some ['?']) (by decide)
  have hlease := countP_bytesField_le (by decide : Char.ofNat 42 ≠ '/')
    (o := some ['1']) (by decide)
  have htag : [Char.ofNat 48].countP (fun c => (['/', '/']).contains c) = 0 := by decide
  simp only [serializeFront, countP_append]
  omega

theorem extractValue_serialize (hk : '/' ∉ k) (ha : '/' ∉ a) (rest : Text) :
    ZhtClient.extractValue (cstr ((appendPack k a).serialize ++ rest)) = [] := by
  have hprefix :=
    cstr_prefix (serializeFront k a) (numField 56 (some 1) ++ numField 64 (some 3) ++ rest)
  rw [← cons_append, ← append_assoc, ← serialize_appendPack] at hprefix
  have hcount := hprefix.sublist.countP_le (p := fun c => (['/', '/']).contains c)
  have hfront := countP_serializeFront_le hk ha
  have hpieces : (zhtTokenize (cstr ((appendPack k a).serialize ++ rest)) ['/', '/']).length ≤ 6 :=
    (length_tokens_le _).trans (Nat.succ_le_succ (hcount.trans hfront))
  rw [ZhtClient.extractValue, strToZpack_of_length_lt (lt_of_le_of_lt hpieces (by decide))]
  rfl

/-- A key without `/` under which something is stored is the key for the server. -/
theorem Stores.eq_key (h : Stores k piece) (hslash : '/' ∉ k) : Key k ∧ piece = k := by
  have hhead := h.head
  have hlong := h.long
  have hlength := length_token_le (cstr k)
  rw [Short, keyPieces_eq_token hslash] at hlong
  have hnul : '\x00' ∉ k := by
    intro hnul
    rw [if_pos hnul] at hlong
    omega
  rw [keyPieces_eq_token hslash, cstr_eq_self hnul, token_of_ne_nil h.ne_nil] at hhead
  obtain rfl : k = piece := some.inj hhead
  exact ⟨⟨⟨h.ne_nil, hslash, hnul⟩, h.ne_nokey⟩, rfl⟩

theorem lookup_appends_absent (h : w.pmap.Ok) (hslash : '/' ∉ k)
    (habsent : w.pmap.contents k = none) (ha : Word a) (hws : ∀ b ∈ ws, Word b) :
    (ZhtClient.lookup (appends w k (a :: ws)) k).1.1 ≠ 0 ∨
    (ZhtClient.lookup (appends w k (a :: ws)) k).1.2 = [] := by
  obtain hfails | ⟨piece, val, hstores, hval, hlookup⟩ := lookup_cases (appends w k (a :: ws)) k
  · exact .inl hfails
  · right
    obtain ⟨hk, rfl⟩ := hstores.eq_key hslash
    obtain ⟨hok, hcontents⟩ := append_contents h hstores ha
    have hfirst := congrFun hcontents piece
    rw [Function.update_self, habsent, received_append hk ha,
      ← append_nil (appendPack piece a).serialize] at hfirst
    obtain ⟨rest, hrest⟩ := appends_prefix hok hws hfirst
    obtain rfl : (appendPack piece a).serialize ++ rest = val := some.inj (hrest.symm.trans hval)
    rw [hlookup]
    exact extractValue_serialize hslash ha.slash rest

/-! ### Lookups after appends -/

inductive ServerEvent
  /-- A request arrives: any text. -/
  | request (buf : Text)
  /-- The thread that rewrites the file has done so. -/
  | rewritten

def HtWorker.next (w : HtWorker) : ServerEvent → HtWorker
  | .request buf => (w.run buf).2
  | .rewritten => { w with pmap := w.pmap.rewriteFile }

/-- A server, with any file or without one. -/
def serverSystem : Transition HtWorker ServerEvent where
  init w := ∃ (fuel size : Nat) (filename : Text) (magicNumber : Int) (full : Int → Nat → Bool)
    (uninit : Text → Bool)
    (dbfile : Option File), 0 < size ∧
      Novoht.readFile fuel (Novoht.new filename size magicNumber full uninit dbfile) = some w.pmap
  step w e w' := w.next e = w'

theorem ok_of_reachable (h : serverSystem.Reachable w) : w.pmap.Ok := by
  refine h.invariant (I := fun w => w.pmap.Ok) (fun w hw => ?_) fun w e w' hw hstep => ?_
  · obtain ⟨fuel, size, filename, magicNumber, full, uninit, dbfile, hsize, hread⟩ := hw
    exact Novoht.readFile_ok (Novoht.new_ok hsize ..) hread
  · obtain rfl : w.next e = w' := hstep
    cases e with
    | request buf => exact HtWorker.run_ok hw buf
    | rewritten =>
      obtain ⟨hsize, hentries⟩ := w.pmap.rewriteFile_entries
      exact hw.of_entries hsize hentries

/-- **Appended values are not found.** For no key does a lookup after an insert and appends give the
values joined: for a key with a `/`, where the values are at least as long as the key. For no key
without `/` does one after appends only. -/
theorem append_lost {w : HtWorker} (h : serverSystem.Reachable w) (k : Text) {v : Text}
    (hv : Word v) {ws : List Text}
    (hne : ws ≠ []) (hws : ∀ a ∈ ws, Word a) :
    ('/' ∉ k ∨ k.length ≤ v.length →
      (ZhtClient.lookup (appends (ZhtClient.insert w k v).2 k ws) k).1 ≠ (0, joined (v :: ws))) ∧
    ('/' ∉ k → w.pmap.contents k = none → (ZhtClient.lookup (appends w k ws) k).1 ≠
    (0, joined ws)) := by
  have hok := ok_of_reachable h
  constructor
  · intro hk heq
    obtain hfails | hmem := lookup_appends hok k hv hws
    · exact hfails (congrArg Prod.fst heq)
    · have hlength := length_lt_joined v hne
      rw [heq] at hmem
      have hmem : joined (v :: ws) ∈ [] :: v :: (keyPieces k).drop 1 := hmem
      obtain hnil | hmem := mem_cons.mp hmem
      · rw [hnil] at hlength
        exact Nat.not_lt_zero _ hlength
      obtain hself | hmem := mem_cons.mp hmem
      · rw [hself] at hlength
        exact lt_irrefl _ hlength
      · obtain hslash | hle := hk
        · rw [keyPieces_eq_token hslash, drop_eq_nil_of_le (length_token_le _)] at hmem
          cases hmem
        · have hpart := (mem_tokens (mem_of_mem_drop hmem)).2.2
          have hcut := (List.takeWhile_prefix (l := k) fun c => decide (c ≠ '\x00')).length_le
          have hpiece := hpart.length_le.trans hcut
          omega
  · intro hslash habsent heq
    obtain ⟨a, ws, rfl⟩ := exists_cons_of_ne_nil hne
    obtain hfails | hnil := lookup_appends_absent hok hslash habsent (hws a mem_cons_self)
      fun b hb => hws b (mem_cons_of_mem a hb)
    · exact hfails (congrArg Prod.fst heq)
    · rw [heq] at hnil
      have ha := (hws a mem_cons_self).ne_nil
      cases ws with
      | nil => exact ha hnil
      | cons b ws =>
        rw [joined] at hnil
        · exact ha (append_eq_nil_iff.mp hnil).1
        · exact fun h => nomatch h

theorem reachable_smallServer : serverSystem.Reachable smallServer :=
  .init ⟨1, 8, [], 10000, fun numEl size => numEl * 10 ≥ size * 7, fun _ => false,
  none, by decide, rfl⟩

theorem append_lost_small :
    ('/' ∉ ['a'] ∨ ['a'].length ≤ ['x'].length →
      (ZhtClient.lookup (appends (ZhtClient.insert smallServer ['a'] ['x']).2 ['a'] [['y']])
        ['a']).1 ≠
        (0, joined [['x'], ['y']])) ∧
    ('/' ∉ ['a'] → smallServer.pmap.contents ['a'] = none →
      (ZhtClient.lookup (appends smallServer ['a'] [['y']]) ['a']).1 ≠ (0, joined [['y']])) :=
  append_lost reachable_smallServer ['a'] (by decide) (by decide) (by decide)

/-- The appended value is not there. -/
theorem lookup_after_append :
    serverSystem.Reachable smallServer ∧
      (ZhtClient.lookup (appends (ZhtClient.insert smallServer ['a'] ['x']).2 ['a'] [['y']])
        ['a']).1 = (0, ['x']) ∧
      joined [['x'], ['y']] = ['x', ':', 'y'] :=
  ⟨reachable_smallServer, by decide +kernel, rfl⟩

end CharmRuntime.Zht
