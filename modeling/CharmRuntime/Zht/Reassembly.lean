import Mathlib.Data.List.Induction
import CharmRuntime.Zht.Blob

/-!
# Zht.Reassembly

**The blobs of many messages, in any order.** What is in the map is determined by which blobs came
and which are still to come (`held`): the set of a message is there after its first and before its
last blob. Each blob gives what it should, and the last one leaves an empty map.

A blob is read back as it was sent when its value has no NUL and the total has no more than 7
digits. If one of these fails for a message, the message does not come out in the order in which its
blobs come first (`reassembled_iff`).
-/

namespace CharmRuntime.Zht

open Lib List
open CharmRuntime.Matrix (Text)
open Prod (fst mk)

/-! ### Sets of blobs -/

/-- The blobs of a message. -/
def ofUuid (u : UInt64) (l : List Blob) : List Blob := l.filter (·.uuid = u)

theorem ofUuid_append (u : UInt64) (l l' : List Blob) :
    ofUuid u (l ++ l') = ofUuid u l ++ ofUuid u l' :=
  filter_append ..

theorem ofUuid_cons_self (b : Blob) (l : List Blob) :
    ofUuid b.uuid (b :: l) = b :: ofUuid b.uuid l :=
  filter_cons_of_pos (by simp)

variable {u : UInt64} {msg : Text} {arrivals later : List Blob}

theorem ofUuid_cons_of_ne {b : Blob} (h : u ≠ b.uuid) (l : List Blob) :
    ofUuid u (b :: l) = ofUuid u l :=
  filter_cons_of_neg (by simpa using symm h)

/-- The set that some blobs make. -/
def collect (l : List Blob) : BlobSet := l.foldl (fun s b => s.insert b) []

theorem collect_append_singleton (l : List Blob) (b : Blob) :
    collect (l ++ [b]) = (collect l).insert b := by
  rw [collect, foldl_append]
  rfl

theorem collect_spec {l : List Blob} (h : (l.map Blob.seqNum).Nodup) :
    OrderedMap.Ascending (collect l) ∧ (collect l).Perm (l.map fun b => (b.seqNum, b)) := by
  induction l using reverseRecOn with
  | nil => exact ⟨Pairwise.nil, Perm.refl _⟩
  | append_singleton l b ih =>
    rw [map_append, nodup_append] at h
    obtain ⟨hascending, hperm⟩ := ih h.1
    have hnew : ∀ e ∈ collect l, e.1 ≠ b.seqNum := by
      intro e he
      obtain ⟨c, hc, rfl⟩ := mem_map.mp (hperm.mem_iff.mp he)
      exact h.2.2 c.seqNum (mem_map_of_mem hc) b.seqNum (by simp)
    rw [collect_append_singleton, map_append]
    refine ⟨hascending.upsert, (OrderedMap.upsert_perm hnew).trans ?_⟩
    exact ((hperm.cons _).trans (perm_append_singleton _ _).symm)

theorem length_collect {l : List Blob} (h : (l.map Blob.seqNum).Nodup) :
    (collect l).length = l.length := by
  rw [(collect_spec h).2.length_eq, length_map]

/-- **The order in which blobs come does not matter.** -/
theorem combine_collect {l l' : List Blob} (hperm : l.Perm l')
    (h : l'.Pairwise fun b c => b.seqNum < c.seqNum) :
    (collect l).combine = l'.flatMap Blob.value := by
  have hnodup : (l'.map Blob.seqNum).Nodup := pairwise_map.mpr (h.imp ne_of_lt)
  obtain ⟨hascending, hentries⟩ := collect_spec ((hperm.map Blob.seqNum).nodup_iff.mpr hnodup)
  have hascending' : OrderedMap.Ascending (l'.map fun b => (b.seqNum, b)) := pairwise_map.mpr h
  have heq : collect l = l'.map fun b => (b.seqNum, b) := by
    refine Perm.eq_of_pairwise (fun e e' _ _ hlt hlt' => ?_) hascending hascending'
      (hentries.trans (hperm.map _))
    exact absurd hlt (lt_asymm hlt')
  rw [heq, BlobSet.combine, flatMap_map]

/-! ### Blobs of many messages -/

/-- The numbers of the blobs of a message are different, and the total is how many there are. -/
structure Complete (l : List Blob) : Prop where
  total : ∀ b ∈ l, b.total = (ofUuid b.uuid l).length
  nodup : ∀ u, ((ofUuid u l).map Blob.seqNum).Nodup

/-- The sets after some blobs came, when others are still to come. -/
def held (done rest : List Blob) : BdMap := fun u =>
  if ofUuid u done = [] ∨ ofUuid u rest = [] then none else some (collect (ofUuid u done))

theorem held_nil_right (done : List Blob) : held done [] = BdMap.empty :=
  funext fun _ => if_pos (.inr rfl)

variable {done rest : List Blob} {b : Blob}

theorem update_held {o : Option BlobSet} (ho : o = held (done ++ [b]) rest b.uuid) :
    Function.update (held done (b :: rest)) b.uuid o = held (done ++ [b]) rest := by
  funext u
  by_cases hu : u = b.uuid
  · rw [hu, Function.update_self, ho]
  · have hdone : ofUuid u (done ++ [b]) = ofUuid u done := by
      rw [ofUuid_append, ofUuid_cons_of_ne hu]
      exact append_nil _
    rw [Function.update_of_ne hu, held, held, ofUuid_cons_of_ne hu, hdone]

/-- **One blob.** -/
theorem receive_held (h : Complete (done ++ b :: rest)) : (held done (b :: rest)).receive b =
      (if ofUuid b.uuid rest =
      [] then some (collect (ofUuid b.uuid (done ++ [b]))).combine else none,
        held (done ++ [b]) rest) := by
  have hdone : ofUuid b.uuid (done ++ [b]) = ofUuid b.uuid done ++ [b] := by
    rw [ofUuid_append, ofUuid_cons_self]
    rfl
  have htotal := h.total b (mem_append_right _ mem_cons_self)
  rw [ofUuid_append, ofUuid_cons_self, length_append, length_cons] at htotal
  have hset : held (done ++ [b]) rest b.uuid =
      if ofUuid b.uuid rest = [] then none else some ((collect (ofUuid b.uuid done)).insert b) := by
    rw [held, hdone, collect_append_singleton]
    simp
  have hbefore : held done (b :: rest) b.uuid =
      if ofUuid b.uuid done = [] then none else some (collect (ofUuid b.uuid done)) := by
    rw [held, ofUuid_cons_self]
    simp
  have hlength :
    ((collect (ofUuid b.uuid done)).insert b).length = (ofUuid b.uuid done).length + 1 := by
    have hnodup := h.nodup b.uuid
    rw [ofUuid_append, ofUuid_cons_self, append_cons, map_append] at hnodup
    rw [← collect_append_singleton, length_collect (nodup_append.mp hnodup).1, length_append]
    rfl
  rw [hdone, collect_append_singleton, ← update_held rfl, hset, BdMap.receive, hbefore]
  by_cases hone : b.total = 1
  · have hnil : ofUuid b.uuid done = [] ∧ ofUuid b.uuid rest = [] := by
      rw [← length_eq_zero_iff, ← length_eq_zero_iff]
      omega
    have hvalue : ((collect []).insert b).combine = b.value := append_nil _
    have hnone : held done (b :: rest) b.uuid = none := by rw [hbefore, if_pos hnil.1]
    rw [if_pos hone, if_pos hnil.2, if_pos hnil.2, hnil.1, hvalue, ← hnone, Function.update_eq_self]
  · rw [if_neg hone]
    by_cases hfirst : ofUuid b.uuid done = []
    · -- the first one, and not the last
      have hrest : ofUuid b.uuid rest ≠ [] := by
        intro hnil
        rw [hfirst, hnil] at htotal
        exact hone htotal
      rw [if_neg hrest, if_neg hrest, hfirst]
      rfl
    · rw [if_neg hfirst]
      simp only [hlength]
      by_cases hrest : ofUuid b.uuid rest = []
      · rw [if_pos (by rw [htotal, hrest]; rfl), if_pos hrest, if_pos hrest]
      · have hpos := length_pos_of_ne_nil hrest
        rw [if_neg (by omega), if_neg hrest, if_neg hrest]

/-- What each blob gives. -/
def answers (done : List Blob) : List Blob → List (Option Text)
  | [] => []
  | b :: rest =>
    (if ofUuid b.uuid rest = [] then some (collect (ofUuid b.uuid (done ++ [b]))).combine else none)
      ::
      answers (done ++ [b]) rest

/-- What is read of the blobs that are received. -/
def Parsed (bufs : List Text) (blobs : List Blob) : Prop :=
  bufs.map (fun buf => Blob.ofString (cstr buf)) = blobs.map some

theorem recvAll_cons {m m' : BdMap} {buf : Text} {result : Option Text}
    (h : m.getBdStr buf = some (result, m'))
    (bufs : List Text) :
    m.recvAll (buf :: bufs) = (m'.recvAll bufs).map fun x => (result :: x.1, x.2) := by
  rw [BdMap.recvAll, h, Option.bind_eq_bind]
  cases hrest : m'.recvAll bufs with
  | none => simp [hrest]
  | some x => simp [hrest]

/-- **All blobs.** -/
theorem recvAll_held {bufs : List Text} (h : Complete (done ++ rest)) (hparsed : Parsed bufs rest) :
    (held done rest).recvAll bufs = some (answers done rest, held (done ++ rest) []) := by
  induction rest generalizing done bufs with
  | nil =>
    obtain rfl := map_eq_nil_iff.mp hparsed
    rw [append_nil]
    rfl
  | cons b rest ih =>
    cases bufs with
    | nil => cases hparsed
    | cons buf bufs =>
      obtain ⟨hbuf, hbufs⟩ := cons.inj hparsed
      have hbuf : Blob.ofString (cstr buf) = some b := hbuf
      have hget : (held done (b :: rest)).getBdStr buf =
          some (if ofUuid b.uuid rest =
          [] then some (collect (ofUuid b.uuid (done ++ [b]))).combine else none,
            held (done ++ [b]) rest) := by
        rw [BdMap.getBdStr, hbuf, Option.map_some, receive_held h]
      have hcomplete : Complete (done ++ [b] ++ rest) := by rwa [← append_cons]
      have hrest := ih hcomplete hbufs
      rw [recvAll_cons hget, hrest, append_cons done b rest]
      rfl

theorem recvAll_complete {bufs : List Text} {blobs : List Blob} (h : Complete blobs)
    (hparsed : Parsed bufs blobs) :
    BdMap.empty.recvAll bufs = some (answers [] blobs, BdMap.empty) := by
  have hcomplete : Complete ([] ++ blobs) := h
  have hrun := recvAll_held hcomplete hparsed
  rwa [held_nil_right] at hrun

theorem recvAll_append (m : BdMap) (bufs bufs' : List Text) :
    m.recvAll (bufs ++ bufs') = (m.recvAll bufs).bind fun x => (x.2.recvAll bufs').map fun y =>
    (x.1 ++ y.1, y.2) := by
  induction bufs generalizing m with
  | nil => simp [BdMap.recvAll]
  | cons buf bufs ih =>
    cases hget : m.getBdStr buf with
    | none => simp [BdMap.recvAll, hget]
    | some x =>
      rw [cons_append, recvAll_cons hget, recvAll_cons hget, ih]
      cases x.2.recvAll bufs with
      | none => rfl
      | some y => simp [Function.comp_def]

/-! ### Messages -/

theorem mem_split : b ∈ split u msg ↔ ∃ i < chunkCount blobSize msg.length,
      b = ⟨u, i + 1, chunkCount blobSize msg.length, (chunk blobSize msg i).length,
      chunk blobSize msg i⟩ := by
  simp only [split_eq, mem_map, mem_range, eq_comm]

theorem length_split (u : UInt64) (msg : Text) :
    (split u msg).length = chunkCount blobSize msg.length := by
  rw [split_eq, length_map, length_range]

theorem ofUuid_split (u u' : UInt64) (msg : Text) :
    ofUuid u (split u' msg) = if u = u' then split u' msg else [] := by
  by_cases hu : u = u'
  · rw [if_pos hu, ofUuid, filter_eq_self]
    intro b hb
    obtain ⟨i, -, rfl⟩ := mem_split.mp hb
    simp [hu]
  · rw [if_neg hu, ofUuid, filter_eq_nil_iff]
    intro b hb
    obtain ⟨i, -, rfl⟩ := mem_split.mp hb
    simpa using Ne.symm hu

theorem split_pairwise (u : UInt64) (msg : Text) :
    (split u msg).Pairwise fun b c => b.seqNum < c.seqNum := by
  rw [split_eq, pairwise_map]
  exact pairwise_lt_range.imp Nat.succ_lt_succ

theorem flatMap_value_split (u : UInt64) (msg : Text) : (split u msg).flatMap Blob.value = msg := by
  rw [split_eq, flatMap_map]
  exact flatMap_chunk (by decide)

/-- The blobs that are sent. -/
def allBlobs (msgs : List (UInt64 × Text)) : List Blob := msgs.flatMap fun m => split m.1 m.2

variable {msgs : List (UInt64 × Text)}

theorem ofUuid_allBlobs (h : (msgs.map fst).Nodup) (u : UInt64) :
    ofUuid u (allBlobs msgs) = (msgs.lookup u).elim [] (split u) := by
  induction msgs with
  | nil => rfl
  | cons m msgs ih =>
    obtain ⟨u', msg⟩ := m
    obtain ⟨hnew, hmsgs⟩ := nodup_cons.mp h
    rw [allBlobs, flatMap_cons, ofUuid_append, ← allBlobs, ofUuid_split, ih hmsgs, lookup_cons]
    by_cases hu : u = u'
    · subst hu
      have hnone : msgs.lookup u = none := by
        rw [lookup_eq_none_iff]
        intro m hm
        have hne : u ≠ m.1 := fun heq => hnew (mem_map.mpr ⟨m, hm, heq.symm⟩)
        simpa using hne
      simp [hnone]
    · rw [if_neg hu, beq_eq_false_iff_ne.mpr hu]
      rfl

/-- What should be given: each message with its last blob. -/
def expected (msgs : List (UInt64 × Text)) : List Blob → List (Option Text)
  | [] => []
  | b :: rest =>
    (if ofUuid b.uuid rest = [] then msgs.lookup b.uuid else none) :: expected msgs rest

theorem ofUuid_arrivals (h : (msgs.map fst).Nodup) (hperm : arrivals.Perm (allBlobs msgs))
    (hb : b ∈ arrivals) :
    ∃ msg, msgs.lookup b.uuid = some msg ∧ (ofUuid b.uuid arrivals).Perm (split b.uuid msg) := by
  have hof : (ofUuid b.uuid arrivals).Perm ((msgs.lookup b.uuid).elim [] (split b.uuid)) := by
    rw [← ofUuid_allBlobs h]
    exact hperm.filter _
  cases hlookup : msgs.lookup b.uuid with
  | some msg => exact ⟨msg, rfl, by rwa [hlookup] at hof⟩
  | none =>
    rw [hlookup] at hof
    have hmem : b ∈ ofUuid b.uuid arrivals := mem_filter.mpr ⟨hb, by simp⟩
    exact absurd (hof.mem_iff.mp hmem) not_mem_nil

theorem complete_arrivals (h : (msgs.map fst).Nodup) (hperm : arrivals.Perm (allBlobs msgs)) :
    Complete arrivals where
  total b hb := by
    obtain ⟨msg, -, hof⟩ := ofUuid_arrivals h hperm hb
    have hmem : b ∈ ofUuid b.uuid arrivals := mem_filter.mpr ⟨hb, by simp⟩
    obtain ⟨i, -, hi⟩ := mem_split.mp (hof.mem_iff.mp hmem)
    rw [hof.length_eq, length_split, hi]
  nodup u := by
    have hof : (ofUuid u arrivals).Perm (ofUuid u (allBlobs msgs)) := hperm.filter _
    rw [(hof.map Blob.seqNum).nodup_iff, ofUuid_allBlobs h]
    cases msgs.lookup u with
    | none => exact nodup_nil
    | some msg => exact pairwise_map.mpr ((split_pairwise u msg).imp ne_of_lt)

/-- **Each message comes with its last blob.** -/
theorem answers_eq_expected (h : (msgs.map fst).Nodup)
    (hperm : (done ++ rest).Perm (allBlobs msgs)) :
    answers done rest = expected msgs rest := by
  induction rest generalizing done with
  | nil => rfl
  | cons b rest ih =>
    rw [answers, expected, ih (by rwa [← append_cons])]
    by_cases hrest : ofUuid b.uuid rest = []
    · obtain ⟨msg, hlookup, hof⟩ := ofUuid_arrivals h hperm (mem_append_right _ mem_cons_self)
      rw [append_cons, ofUuid_append, hrest, append_nil] at hof
      rw [if_pos hrest, if_pos hrest, hlookup, combine_collect hof (split_pairwise _ _),
        flatMap_value_split]
    · rw [if_neg hrest, if_neg hrest]

/-- Every blob that arrives gives what it should, and no set is left. -/
def Reassembled (msgs : List (UInt64 × Text)) (arrivals : List Blob) : Prop :=
  BdMap.empty.recvAll (arrivals.map Blob.toString) = some (expected msgs arrivals, BdMap.empty)

/-- A message whose blobs are read back. -/
def Legible (msg : Text) : Prop := '\x00' ∉ msg ∧ msg.length ≤ (10 ^ 7 - 1) * blobSize

theorem Legible.ofString (h : Legible msg) (hb : b ∈ split u msg) :
    Blob.ofString (cstr b.toString) = some b := by
  obtain ⟨i, hi, rfl⟩ := mem_split.mp hb
  have hcount : chunkCount blobSize msg.length ≤ 10 ^ 7 - 1 :=
    (chunkCount_le_iff (by decide)).mpr h.2
  have hsize : (chunk blobSize msg i).length ≤ 512 := length_chunk_le i
  have hnul : '\x00' ∉ chunk blobSize msg i :=
    fun hmem => h.1 (mem_of_mem_drop (mem_of_mem_take hmem))
  rw [Blob.ofString_cstr_toString (by simp only; omega) (by simp only; omega) (by simp only; omega),
    cstr_eq_self hnul]

theorem reassembled_of_legible (h : (msgs.map fst).Nodup) (hlegible : ∀ m ∈ msgs, Legible m.2)
    (hperm : arrivals.Perm (allBlobs msgs)) : Reassembled msgs arrivals := by
  have hparsed : Parsed (arrivals.map Blob.toString) arrivals := by
    rw [Parsed, map_map]
    refine map_congr_left fun b hb => ?_
    obtain ⟨m, hm, hbm⟩ := mem_flatMap.mp (hperm.mem_iff.mp hb)
    exact (hlegible m hm).ofString hbm
  have hanswers : answers [] arrivals = expected msgs arrivals := answers_eq_expected h hperm
  rw [Reassembled, recvAll_complete (complete_arrivals h hperm) hparsed, hanswers]

/-! ### A message whose blobs come first -/

theorem answers_split (done pre rest : List Blob) (b : Blob) : ∃ front, front.length = pre.length ∧
    answers done (pre ++ b :: rest) = front ++
      (if ofUuid b.uuid rest =
      [] then some (collect (ofUuid b.uuid (done ++ pre ++ [b]))).combine else none) ::
        answers (done ++ pre ++ [b]) rest := by
  induction pre generalizing done with
  | nil => exact ⟨[], rfl, by rw [append_nil]; rfl⟩
  | cons c pre ih =>
    obtain ⟨front, hlength, heq⟩ := ih (done ++ [c])
    rw [← append_cons] at heq
    exact ⟨_ :: front, congrArg (· + 1) hlength, by rw [cons_append, answers, heq]; rfl⟩

theorem expected_split (msgs : List (UInt64 × Text)) (pre rest : List Blob) (b : Blob) :
    ∃ front, front.length = pre.length ∧
    expected msgs (pre ++ b :: rest) = front ++
      (if ofUuid b.uuid rest = [] then msgs.lookup b.uuid else none) :: expected msgs rest := by
  induction pre with
  | nil => exact ⟨[], rfl, rfl⟩
  | cons c pre ih =>
    obtain ⟨front, hlength, heq⟩ := ih
    exact ⟨_ :: front, congrArg (· + 1) hlength, by rw [cons_append, expected, heq]; rfl⟩

/-- **Blobs that come first**, and are read as `f` of them with a total that is how many they are,
give their values. So they are all the blobs of the message. -/
theorem first_blobs {l : List Blob} {f : Blob → Blob} (hl : l ≠ [])
    (hread : ∀ b ∈ l, Blob.ofString (cstr b.toString) = some (f b))
    (hu : ∀ b ∈ l, b.uuid = u ∧ (f b).uuid = u)
    (hseq : (l.map f).Pairwise fun b c => b.seqNum < c.seqNum)
    (htotal : ∀ b ∈ l, (f b).total = l.length)
    (h : Reassembled msgs (l ++ later)) :
    ofUuid u later = [] ∧ msgs.lookup u = some ((l.map f).flatMap Blob.value) := by
  have hof : ofUuid u (l.map f) = l.map f := by
    rw [ofUuid, filter_eq_self]
    intro c hc
    obtain ⟨b, hb, rfl⟩ := mem_map.mp hc
    simpa using (hu b hb).2
  have hcomplete : Complete (l.map f) := by
    refine ⟨fun c hc => ?_, fun u' => ?_⟩
    · obtain ⟨b, hb, rfl⟩ := mem_map.mp hc
      rw [htotal b hb, (hu b hb).2, hof, length_map]
    · exact (pairwise_map.mpr (hseq.imp ne_of_lt)).sublist (filter_sublist.map _)
  have hparsed : Parsed (l.map Blob.toString) (l.map f) := by
    rw [Parsed, map_map, map_map]
    exact map_congr_left hread
  rw [Reassembled, map_append, recvAll_append, recvAll_complete hcomplete hparsed] at h
  obtain ⟨y, -, hy⟩ := Option.map_eq_some_iff.mp h
  have hresults := (mk.inj hy).1
  -- the answer to the last of them
  obtain ⟨init, last, rfl⟩ : ∃ init last, l = init ++ [last] :=
    ⟨l.dropLast, l.getLast hl, (dropLast_concat_getLast hl).symm⟩
  obtain ⟨hlast, hlast'⟩ := hu last (by simp)
  obtain ⟨front, hfront, hanswers⟩ := answers_split [] (init.map f) [] (f last)
  obtain ⟨front', hfront', hexpected⟩ := expected_split msgs init later last
  rw [map_append, map_singleton] at hresults hof hseq
  rw [hanswers, ← append_cons, hexpected, append_assoc] at hresults
  have hat := (cons.inj (append_inj hresults (by rw [hfront, hfront', length_map])).2).1
  rw [if_pos (by rfl), hlast', hlast, nil_append, hof, combine_collect (Perm.refl _) hseq] at hat
  rw [map_append]
  split at hat
  · next hlater => exact ⟨hlater, hat.symm⟩
  · cases hat

theorem first_message_perm (hmem : (u, msg) ∈ msgs) :
    (split u msg ++ allBlobs (msgs.erase (u, msg))).Perm (allBlobs msgs) := by
  have hperm := ((perm_cons_erase hmem).flatMap_right fun m => split m.1 m.2).symm
  rwa [flatMap_cons] at hperm

theorem lookup_of_mem (h : (msgs.map fst).Nodup) (hmem : (u, msg) ∈ msgs) :
    msgs.lookup u = some msg := by
  induction msgs with
  | nil => cases hmem
  | cons m msgs ih =>
    obtain ⟨hnew, hmsgs⟩ := nodup_cons.mp h
    obtain rfl | hmem := mem_cons.mp hmem
    · exact lookup_cons_self
    · have hne : u ≠ m.1 := by
        rintro rfl
        exact hnew (mem_map.mpr ⟨_, hmem, rfl⟩)
      rw [lookup_cons, beq_eq_false_iff_ne.mpr hne]
      exact ih hmsgs hmem

theorem nul_notMem_of_reassembled (hne : msg ≠ [])
    (hcount : chunkCount blobSize msg.length < 10 ^ 7) (hlookup : msgs.lookup u = some msg)
    (h : Reassembled msgs (split u msg ++ later)) : '\x00' ∉ msg := by
  have hblob :
    ∀ b ∈ split u msg, b.uuid = u ∧ b.seqNum < 10 ^ 7 ∧ b.total = chunkCount blobSize msg.length ∧
    b.size < 10 ^ 4 := by
    intro b hb
    obtain ⟨i, hi, rfl⟩ := mem_split.mp hb
    have hsize : (chunk blobSize msg i).length ≤ 512 := length_chunk_le i
    exact ⟨rfl, by simp only; omega, rfl, by simp only; omega⟩
  have hl : split u msg ≠ [] := by
    intro hnil
    have hmsg := flatMap_value_split u msg
    rw [hnil] at hmsg
    exact hne hmsg.symm
  have hfirst := first_blobs (f := fun b => { b with value := cstr b.value }) hl (fun b hb => ?_)
    (fun b hb => ⟨(hblob b hb).1, (hblob b hb).1⟩) ?_ (fun b hb => ?_) h
  · have hmsg := Option.some.inj (hlookup.symm.trans hfirst.2)
    rw [hmsg]
    intro hmem
    obtain ⟨c, hc, hnul⟩ := mem_flatMap.mp hmem
    obtain ⟨b, -, rfl⟩ := mem_map.mp hc
    exact nul_notMem_cstr _ hnul
  · obtain ⟨-, hseqNum, htotal, hsize⟩ := hblob b hb
    exact Blob.ofString_cstr_toString hseqNum (htotal ▸ hcount) hsize
  · exact pairwise_map.mpr (split_pairwise u msg)
  · rw [length_split]
    exact (hblob b hb).2.2.1

theorem not_reassembled_of_overrun
    (hcount : chunkCount blobSize msg.length = 10 ^ 7) :
    ¬ Reassembled msgs (split u msg ++ later) := by
  intro h
  have hlength : (split u msg).length = 10 ^ 7 := by rw [length_split, hcount]
  have htake : ((split u msg).take (10 ^ 6)).length = 10 ^ 6 := by
    rw [length_take, hlength]
    rfl
  have hblob : ∀ b ∈ (split u msg).take (10 ^ 6), b.uuid = u ∧ b.seqNum < 10 ^ 7 ∧
    b.total = 10 ^ 7 ∧ b.size < 10 ^ 4 := by
    intro b hb
    rw [split_eq, ← map_take, take_range, hcount] at hb
    obtain ⟨i, hi, rfl⟩ := mem_map.mp hb
    have hi : i < 10 ^ 6 := (mem_range.mp hi).trans_le (min_le_left ..)
    have hsize : (chunk blobSize msg i).length ≤ 512 := length_chunk_le i
    exact ⟨rfl, by simp only; omega, rfl, by simp only; omega⟩
  rw [← take_append_drop (10 ^ 6) (split u msg), append_assoc] at h
  have hfirst := first_blobs (ne_nil_of_length_pos (by rw [htake]; decide))
    (fun b hb => Blob.ofString_cstr_overrun (hblob b hb).2.1 (hblob b hb).2.2.1 (hblob b hb).2.2.2)
    (fun b hb => ⟨(hblob b hb).1, (hblob b hb).1⟩)
    (pairwise_map.mpr ((split_pairwise u msg).sublist (take_sublist _ _)))
      (fun b hb => htake.symm) h
  -- the others are still to come
  have hdrop : ofUuid u ((split u msg).drop (10 ^ 6)) = (split u msg).drop (10 ^ 6) := by
    rw [ofUuid, filter_eq_self]
    intro b hb
    obtain ⟨i, -, rfl⟩ := mem_split.mp (mem_of_mem_drop hb)
    simp
  have hnil := (append_eq_nil_iff.mp (ofUuid_append u _ _ ▸ hfirst.1)).1
  have hzero := congrArg length (hdrop.symm.trans hnil)
  rw [length_drop, hlength] at hzero
  cases hzero

/-- **All messages are received** in every order of their blobs if and only if they are legible. -/
theorem reassembled_iff (h : (msgs.map Prod.fst).Nodup)
    (hmsgs : ∀ m ∈ msgs, m.2 ≠ [] ∧ m.2.length < 10 ^ 7 * blobSize) :
    (∀ arrivals, arrivals.Perm (allBlobs msgs) → Reassembled msgs arrivals) ↔
    ∀ m ∈ msgs, Legible m.2 := by
  constructor
  · rintro hall ⟨u, msg⟩ hmem
    obtain ⟨hne, hlength⟩ := hmsgs _ hmem
    have hreassembled := hall _ (first_message_perm hmem)
    have hcount : chunkCount blobSize msg.length ≤ 10 ^ 7 :=
      (chunkCount_le_iff (by decide)).mpr (le_of_lt hlength)
    obtain hlt | heq := lt_or_eq_of_le hcount
    · exact ⟨nul_notMem_of_reassembled hne hlt (lookup_of_mem h hmem) hreassembled,
        (chunkCount_le_iff (by decide)).mp (Nat.le_sub_one_of_lt hlt)⟩
    · exact absurd hreassembled (not_reassembled_of_overrun heq)
  · exact fun hlegible arrivals hperm => reassembled_of_legible h hlegible hperm

/-- Two messages, one of them of three blobs. -/
theorem reassembled_iff_two :
    (allBlobs [(7, replicate 1100 'a'), (8, ['c'])]).length = 4 ∧
      ∀ arrivals, arrivals.Perm (allBlobs [(7, replicate 1100 'a'), (8, ['c'])]) →
        Reassembled [(7, replicate 1100 'a'), (8, ['c'])] arrivals := by
  have hlong : (replicate 1100 'a').length = 1100 := length_replicate
  have hmsgs : ∀ m ∈ [((7 : UInt64), replicate 1100 'a'), (8, ['c'])],
      m.2 ≠ [] ∧ m.2.length < 10 ^ 7 * blobSize :=
    forall_mem_cons.mpr ⟨⟨ne_nil_of_length_pos (by rw [hlong]; decide), by rw [hlong]; decide⟩,
      forall_mem_singleton.mpr (by decide)⟩
  refine ⟨?_, (reassembled_iff (by decide) hmsgs).mpr ?_⟩
  · simp only [allBlobs, flatMap_cons, flatMap_nil, length_append, length_split, hlong]
    decide
  · refine forall_mem_cons.mpr ⟨⟨fun hnul => ?_, by rw [hlong]; decide⟩,
      forall_mem_singleton.mpr ⟨by decide, by decide⟩⟩
    exact absurd (eq_of_mem_replicate hnul) (by decide)

/-- What is behind a NUL does not arrive. -/
theorem not_reassembled_nul :
    (∀ m ∈ [((7 : UInt64), ['a', '\x00', 'b'])], m.2 ≠ [] ∧ m.2.length < 10 ^ 7 * blobSize) ∧
      ¬ ∀ arrivals, arrivals.Perm (allBlobs [(7, ['a', '\x00', 'b'])]) →
      Reassembled [(7, ['a', '\x00', 'b'])] arrivals := by
  refine ⟨by decide, fun h => ?_⟩
  have hresults := congrArg (Option.map fst) (h _ (Perm.refl _))
  revert hresults
  decide +kernel

end CharmRuntime.Zht
