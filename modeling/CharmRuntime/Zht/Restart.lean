import CharmRuntime.Zht.LogFile

/-!
# Zht.Restart

A table that is **made from a file**. `readFile` puts each record it reads into the table, and `put`
writes at the end of the same file: the position is behind the last record after the first one was
read, and nothing more is read (`readLoop_first`). Then the file is rewritten, with what is in the
table (`denote_rewriteFile`). That is what the `FILE` holds: nothing is flushed before it is closed.

So a file of at most one record is read back, without NUL, without the character that is taken for
the end of the file, and only if the flag of the new entry, which is not initialised, is not set
(`restarts_iff`).
-/

namespace CharmRuntime.Zht

open Lib Function List
open CharmRuntime.Matrix (Text)

namespace Novoht

variable {t : Novoht} {f : File}

/-! ### The file that is rewritten -/

/-- The entries that are written. -/
def saved (p : Kvpair) : Bool := p.key ≠ [] ∧ p.val ≠ [] ∧ p.diff = false

def textOf (chain : List Kvpair) : Text := (chain.filter saved).flatMap fun p => record p.key p.val

theorem rewriteEntry_file (hf : f.AtEnd) (cur : Kvpair) :
    (rewriteEntry f cur).1.AtEnd ∧ (rewriteEntry f cur).1.contents = f.contents ++
    textOf [cur] := by
  rw [rewriteEntry]
  by_cases hsaved : cur.key ≠ [] ∧ cur.val ≠ [] ∧ cur.diff = false
  · rw [if_pos hsaved]
    have htext : textOf [cur] = record cur.key cur.val := by simp [textOf, saved, hsaved]
    rw [htext]
    exact ⟨hf.write _, hf.contents_write _⟩
  · rw [if_neg hsaved]
    have htext : textOf [cur] = [] := by simp [textOf, saved, hsaved]
    rw [htext, append_nil]
    exact ⟨hf, rfl⟩

theorem textOf_append (chain chain' : List Kvpair) :
    textOf (chain ++ chain') = textOf chain ++ textOf chain' := by
  rw [textOf, filter_append, flatMap_append, textOf, textOf]

theorem rewriteChain_file (hf : f.AtEnd) (chain : List Kvpair) :
    (rewriteChain f chain).1.AtEnd ∧ (rewriteChain f chain).1.contents = f.contents ++
    textOf chain := by
  induction chain generalizing f with
  | nil => exact ⟨hf, (append_nil _).symm⟩
  | cons cur rest ih =>
    obtain ⟨hend, hcontents⟩ := rewriteEntry_file hf cur
    obtain ⟨hend', hcontents'⟩ := ih hend
    refine ⟨hend', hcontents'.trans ?_⟩
    rw [hcontents, append_assoc, ← textOf_append]
    rfl

/-- **What the table holds is written**, one chain after the other. -/
theorem rewriteLoop_file {chains : List Nat} (hchains : chains.Nodup) (hf : f.AtEnd)
    (b : SlotTable Kvpair) :
    (rewriteLoop chains f b).1.contents = f.contents ++ textOf (chains.flatMap b) := by
  induction chains generalizing f b with
  | nil => exact (append_nil _).symm
  | cons i chains ih =>
    obtain ⟨hi, hchains⟩ := nodup_cons.mp hchains
    obtain ⟨hend, hcontents⟩ := rewriteChain_file hf (b i)
    -- the other chains are as before
    have hrest : chains.flatMap (update b i (rewriteChain f (b i)).2) = chains.flatMap b := by
      refine flatMap_congr fun j hj => update_of_ne ?_ ..
      rintro rfl
      exact hi hj
    refine (ih hchains hend _).trans ?_
    rw [hcontents, hrest, flatMap_cons, textOf_append, append_assoc]

variable {p : Kvpair} {field : Text} {t' : Novoht} {recs : List (Text × Text)}

theorem mem_elements_iff (h : t.Ok) :
    p ∈ SlotTable.elements t.size t.kvpairs ↔ t.entryOf p.key = some p := by
  rw [entryOf, h.placed.find_eq_some_iff, SlotTable.elements, mem_flatMap]
  constructor
  · rintro ⟨i, -, hp⟩
    obtain rfl := h.placed.slot_eq i p hp
    exact ⟨hp, rfl⟩
  · rintro ⟨hp, -⟩
    exact ⟨_, mem_range.mpr (slot_lt h.size_pos _), hp⟩

/-- An entry that can be written and read. -/
structure Writable (p : Kvpair) : Prop where
  name : Name p.key
  tab : '\t' ∉ p.val
  nul : '\x00' ∉ p.key ∧ '\x00' ∉ p.val
  val_ne_nil : p.val ≠ []

/-- **The new file denotes the entries without the flag.** -/
theorem denote_rewriteFile (h : t.Ok) (hswap : t.swapFile.isSome)
    (hentries : ∀ k p, t.entryOf k = some p → Writable p) :
    ∃ f, t.rewriteFile.dbfile = some f ∧
      denote f.contents = fun k => ((t.entryOf k).filter fun p => !p.diff).map Kvpair.val := by
  obtain ⟨swap, hswap⟩ := Option.isSome_iff_exists.mp hswap
  have hwritable : ∀ p ∈ SlotTable.elements t.size t.kvpairs, Writable p := fun p hp =>
    hentries p.key p ((mem_elements_iff h).mp hp)
  generalize hrecs : ((SlotTable.elements t.size t.kvpairs).filter saved).map entry = recs
  have hfile :
    (rewriteLoop (range t.size) Tape.empty t.kvpairs).1.contents = recs.flatMap line := by
    rw [rewriteLoop_file nodup_range Tape.atEnd_empty, ← hrecs, flatMap_map]
    refine flatMap_congr fun p hp => ?_
    have hnul := (hwritable p (mem_of_mem_filter hp)).nul
    exact record_eq_line hnul.1 hnul.2
  have htabs : ∀ r ∈ recs, NoTabs r := by
    intro r hr
    rw [← hrecs] at hr
    obtain ⟨p, hp, rfl⟩ := mem_map.mp hr
    have hp := hwritable p (mem_of_mem_filter hp)
    exact ⟨hp.name.tab, hp.tab⟩
  have hnodup : ((recs.filter fun r => !isMarked r.1).map Prod.fst).Nodup := by
    refine (h.placed.nodup_elements t.size).sublist ((filter_sublist.map Prod.fst).trans ?_)
    rw [← hrecs, map_map]
    exact filter_sublist.map Kvpair.key
  refine ⟨(rewriteLoop (range t.size) Tape.empty t.kvpairs).1, by rw [rewriteFile, hswap], ?_⟩
  funext k
  rw [denote, hfile, pairs_fieldsFrom htabs]
  refine Option.ext fun v => ?_
  rw [replay_eq_some_iff hnodup, Option.map_eq_some_iff, ← hrecs]
  constructor
  · rintro ⟨hmem, -⟩
    obtain ⟨p, hp, heq⟩ := mem_map.mp hmem
    obtain ⟨rfl, rfl⟩ := Prod.mk.inj heq
    obtain ⟨hp, hsaved⟩ := mem_filter.mp hp
    have hdiff : p.key ≠ [] ∧ p.val ≠ [] ∧ p.diff = false := by simpa [saved] using hsaved
    exact ⟨p, Option.filter_eq_some_iff.mpr ⟨(mem_elements_iff h).mp hp, by simp [hdiff]⟩, rfl⟩
  · rintro ⟨p, hp, rfl⟩
    obtain ⟨hp, hdiff⟩ := Option.filter_eq_some_iff.mp hp
    obtain rfl := key_of_entryOf hp
    have hw := hentries _ p hp
    refine ⟨mem_map.mpr ⟨p, mem_filter.mpr ⟨(mem_elements_iff h).mpr hp, ?_⟩, rfl⟩, hw.name.marked⟩
    simp [saved, hw.name.ne_nil, hw.val_ne_nil, hdiff]

/-! ### Reading fields -/

theorem readTab_append (htab : '\t' ∉ field) (hend : 'ÿ' ∉ field) {buffer : Text}
    (hlen : buffer.length + field.length ≤ 300) (rest : Text) :
    readTab buffer (field ++ rest) =
    ((readTab (buffer ++ field) rest).1, (readTab (buffer ++ field) rest).2 + field.length) := by
  induction field generalizing buffer with
  | nil => simp
  | cons c field ih =>
    obtain ⟨hc, htab⟩ := not_or.mp (mt mem_cons.mpr htab)
    obtain ⟨hc', hend⟩ := not_or.mp (mt mem_cons.mpr hend)
    rw [length_cons] at hlen
    have hroom : ¬ (c = 'ÿ' ∨ 300 ≤ buffer.length) := by
      rintro (rfl | hfull)
      · exact hc' rfl
      · omega
    have hroom' : (buffer ++ [c]).length + field.length ≤ 300 := by
      rw [length_append, length_singleton]
      omega
    have hstep := ih htab hend hroom'
    rw [cons_append, readTab, if_neg hroom, if_neg (Ne.symm hc), hstep, append_assoc]
    rfl

/-- **A field up to its tab.** -/
theorem readTab_field (htab : '\t' ∉ field) (hend : 'ÿ' ∉ field) (hlen : field.length < 300)
    (rest : Text) :
    readTab [] (field ++ '\t' :: rest) = (some field, field.length + 1) := by
  rw [readTab_append htab hend (by simpa using le_of_lt hlen), nil_append, readTab,
    if_neg (by simpa using hlen), if_pos rfl, Nat.add_comm]

theorem readTab_end (htab : '\t' ∉ field) (hend : 'ÿ' ∉ field) (hlen : field.length ≤ 300)
    (rest : Text) :
    (readTab [] (field ++ 'ÿ' :: rest)).1 = if field = [] then none else some field := by
  rw [readTab_append htab hend (by simpa using hlen), nil_append, readTab, if_pos (.inl rfl)]

theorem notMem_of_readTab {s rest : Text} (htab : '\t' ∉ field) (hlen : field.length < 300)
    (h : (readTab [] (field ++ '\t' :: rest)).1 = some s) (hs : cstr s = field) : 'ÿ' ∉ field := by
  intro hmem
  obtain ⟨pre, post, rfl, hpre⟩ := eq_append_cons_of_mem hmem
  rw [length_append] at hlen
  rw [append_assoc, cons_append, readTab_end (fun hmem => htab (mem_append_left _ hmem)) hpre
    (by omega)] at h
  split at h
  · cases h
  · -- only what is in front of it is read
    obtain rfl := Option.some.inj h
    have hlength := (List.takeWhile_prefix (l := pre) (· ≠ '\x00')).length_le
    have hcstr : (cstr pre).length ≤ pre.length := hlength
    rw [hs, length_append, length_cons] at hcstr
    omega

theorem prefix_readTab {buffer rest s : Text} (h : (readTab buffer rest).1 = some s) :
    buffer <+: s := by
  have hstored : ∀ {buffer : Text}, (if buffer = [] then none else some buffer) = some s →
    buffer <+: s := by
    intro buffer h
    split at h
    · cases h
    · exact Option.some.inj h ▸ prefix_rfl
  induction rest generalizing buffer with
  | nil => exact hstored h
  | cons c rest ih =>
    rw [readTab] at h
    split at h
    · exact hstored h
    · split at h
      · exact Option.some.inj h ▸ prefix_rfl
      · exact (prefix_append buffer [c]).trans (ih h)

theorem head?_readTabString {k rest : Text} (hk : k.head? ≠ some '~') {s : Text}
    (h : (readTabString (Tape.opened (cstr k ++ '\t' :: rest))).1 = some s) :
    (cstr s).head? ≠ some '~' := by
  have h : (readTab [] (cstr k ++ '\t' :: rest)).1 = some s := h
  have hnil : (cstr []).head? ≠ some '~' := nofun
  cases k with
  | nil =>
    obtain rfl : [] = s := Option.some.inj h
    exact hnil
  | cons c k =>
    by_cases hnul : c = '\x00'
    · subst hnul
      obtain rfl : [] = s := Option.some.inj h
      exact hnil
    · have hcstr : ∀ l, cstr (c :: l) = c :: cstr l :=
        fun l => takeWhile_cons_of_pos (by simpa using hnul)
      rw [hcstr, cons_append, readTab] at h
      split at h
      · cases h
      · split at h
        · obtain rfl := Option.some.inj h
          exact hnil
        · obtain ⟨-, rfl⟩ := prefix_readTab h
          rw [nil_append, singleton_append, hcstr]
          exact hk

theorem readTabString_atEnd (hf : f.AtEnd) : readTabString f = (none, f) := by
  rw [readTabString, hf.drop_eq]
  rfl

/-! ### The first record -/

/-- The record that is read from the position. -/
def firstRecord (f : File) : Option (Text × Text) :=
  match (readTabString f).1, (readTabString (readTabString f).2).1 with
  | some s, some v => some (cstr s, cstr v)
  | _, _ => none

theorem firstRecord_eq_some_iff {k v : Text} : firstRecord f = some (k, v) ↔
    ∃ s w, (readTabString f).1 = some s ∧ (readTabString (readTabString f).2).1 = some w ∧
    cstr s = k ∧ cstr w = v := by
  rw [firstRecord]
  split
  · next s w hs hw => simp [hs, hw]
  · next hne =>
      refine iff_of_false nofun ?_
      rintro ⟨s, w, hs, hw, -⟩
      exact hne s w hs hw

/-- After `put` the position is at the end. -/
theorem atEnd_put (h : t.Ok) (hdb : t.dbfile.isSome) (k v : Text) :
    ∃ f, (t.put k v).2.dbfile = some f ∧ f.AtEnd := by
  obtain ⟨f, hf⟩ := Option.isSome_iff_exists.mp hdb
  obtain ⟨-, ⟨-, -, heq⟩ | ⟨cur, -, -, heq⟩⟩ := store_cases h.grown k v
  · rw [put, heq, grown_dbfile, hf]
    exact ⟨_, rfl, Tape.atEnd_write_seekEnd _⟩
  · rw [put, heq, grown_dbfile, hf]
    exact ⟨_, rfl, Tape.atEnd_write_seekEnd _⟩

theorem readLoop_atEnd (hdb : t.dbfile = some f) (hf : f.AtEnd) (fuel : Nat) :
    readLoop (fuel + 1) t = some t := by
  obtain ⟨kvpairs, size, numEl, nRem, magicNumber, full, uninit, filename, dbfile, swapFile⟩ := t
  obtain rfl : dbfile = some f := hdb
  rw [readLoop]
  simp only [readTabString_atEnd hf]

theorem readLoop_mono {fuel : Nat} (h : readLoop fuel t = some t') :
    readLoop (fuel + 1) t = some t' := by
  induction fuel generalizing t with
  | zero => cases h
  | succ fuel ih =>
    rw [readLoop] at h ⊢
    split
    · next hdb =>
        rw [hdb] at h
        exact h
    · next f hdb =>
        rw [hdb] at h
        simp only at h
        split
        · next heq =>
            rw [heq] at h
            exact h
        · next heq =>
            rw [heq] at h
            simp only at h
            split
            · next heq =>
                rw [heq] at h
                exact h
            · next heq =>
                rw [heq] at h
                simp only at h ⊢
                split
                · next hmarked =>
                    rw [if_pos hmarked] at h
                    exact ih h
                · next hmarked =>
                    rw [if_neg hmarked] at h
                    exact ih h

theorem entryOf_put_empty (h : t.Ok) (hempty : t.entryOf = fun _ => none) (k v : Text) :
    ∃ p, entry p = (k, v) ∧ p.diff = t.uninit p.key ∧
      (t.put k v).2.entryOf = update (fun _ => none) p.key (some p) := by
  have huninit : t.grown.uninit = t.uninit := by
    rw [grown]
    split
    · rfl
    · rfl
  obtain ⟨-, ⟨-, hentry, -⟩ | ⟨cur, hcur, -, -⟩⟩ := store_cases h.grown k v
  · rw [entryOf_grown h, huninit, hempty] at hentry
    generalize hp : logged t.grown.dbfile ⟨k, v, [], t.uninit k⟩ Kvpair.write = added at hentry
    have hadded : added.2.key = k ∧ added.2.val = v ∧ added.2.diff = t.uninit k := by
      rw [← hp]
      cases t.grown.dbfile
      · exact ⟨rfl, rfl, rfl⟩
      · exact ⟨rfl, rfl, rfl⟩
    obtain ⟨hkey, hval, hdiff⟩ := hadded
    refine ⟨added.2, by rw [entry, hkey, hval], by rw [hdiff, hkey], ?_⟩
    rw [hkey]
    exact hentry
  · rw [entryOf_grown h, hempty] at hcur
    cases hcur

/-- **No more than one record is read**: what `put` writes is behind it. -/
theorem readLoop_first (h : t.Ok) (hempty : t.entryOf = fun _ => none) (hdb : t.dbfile = some f)
    (hfirst : ∀ s, (readTabString f).1 = some s → (cstr s).head? ≠ some '~') (fuel : Nat) :
    ∃ t', readLoop (fuel + 2) t = some t' ∧ t'.dbfile.isSome ∧ t'.swapFile = t.swapFile ∧
      match firstRecord f with
      | none => t'.entryOf = fun _ => none
      | some r => ∃ p, entry p = r ∧ p.diff = t.uninit p.key ∧
          t'.entryOf = update (fun _ => none) p.key (some p) := by
  rw [readLoop, hdb, firstRecord]
  simp only
  cases hs : readTabString f with
  | mk o f1 =>
    rw [hs] at hfirst
    cases o with
    | none => exact ⟨_, rfl, rfl, rfl, hempty⟩
    | some s =>
      cases hv : readTabString f1 with
      | mk o f2 =>
        cases o with
        | none =>
          simp only [hv]
          exact ⟨_, rfl, rfl, rfl, hempty⟩
        | some v =>
          have hok : Ok { t with dbfile := some f2 } := h.with_dbfile _
          obtain ⟨f', hdb', hend⟩ := atEnd_put hok rfl (cstr s) (cstr v)
          simp only [hv, if_neg (hfirst s rfl)]
          refine ⟨_, readLoop_atEnd hdb' hend fuel, by rw [hdb']; rfl, ?_,
            entryOf_put_empty hok hempty _ _⟩
          exact grown_swapFile _

theorem rewritten (h : t.Ok) (hdb : t.dbfile.isSome) (hswap : t.swapFile = none) :
    t.writeFile.2.rewriteFile.contents = t.contents ∧
      ((∀ k p, t.entryOf k = some p → Writable p) → ∃ f, t.writeFile.2.rewriteFile.dbfile = some f ∧
        denote f.contents = fun k => ((t.entryOf k).filter fun p => !p.diff).map Kvpair.val) := by
  obtain ⟨f, hf⟩ := Option.isSome_iff_exists.mp hdb
  have hentry : t.writeFile.2.entryOf = t.entryOf := by
    rw [entryOf, writeFile_size, writeFile_kvpairs, entryOf]
  have hok : t.writeFile.2.Ok := h.of_entries (writeFile_size t) fun i => by rw [writeFile_kvpairs]
  have hswap' : t.writeFile.2.swapFile.isSome := by
    rw [writeFile, hf, hswap]
    rfl
  refine ⟨(writeFileFG_ok h).2, fun hwritable => ?_⟩
  have hdenote := denote_rewriteFile hok hswap' (hentry ▸ hwritable)
  rwa [hentry] at hdenote

/-! ### Restarting -/

/-- The entries of a map, in any order. -/
structure Saved (recs : List (Text × Text)) : Prop where
  nodup : (recs.map Prod.fst).Nodup
  key : ∀ r ∈ recs, Name r.1 ∧ r.1.length < 300
  val : ∀ r ∈ recs, r.2 ≠ [] ∧ '\t' ∉ r.2 ∧ r.2.length < 300

/-- The file that `rewriteFile` leaves, when it is opened. -/
def savedFile (recs : List (Text × Text)) : File :=
  Tape.opened (recs.flatMap fun r => record r.1 r.2)

/-- The file is read and rewritten, and the table and the file are the map again. -/
def Restarts (t : Novoht) (recs : List (Text × Text)) : Prop :=
  ∃ fuel t', t.readFile fuel = some t' ∧ t'.rewriteFile.contents = (recs.lookup ·) ∧
    ∃ f, t'.rewriteFile.dbfile = some f ∧ denote f.contents = (recs.lookup ·)

/-- There is one record at most, of which nothing is lost. -/
def Readable (uninit : Text → Bool) : List (Text × Text) → Prop
  | [] => True
  | [(k, v)] => '\x00' ∉ k ∧ '\x00' ∉ v ∧ 'ÿ' ∉ k ∧ 'ÿ' ∉ v ∧ uninit k = false
  | _ => False

theorem firstRecord_savedFile_iff {k v : Text} (h : Saved ((k, v) :: recs)) :
    firstRecord (savedFile ((k, v) :: recs)) = some (k, v) ↔ '\x00' ∉ k ∧ '\x00' ∉ v ∧ 'ÿ' ∉ k ∧
    'ÿ' ∉ v := by
  obtain ⟨hname, hklen⟩ := h.key (k, v) mem_cons_self
  obtain ⟨-, hvtab, hvlen⟩ := h.val (k, v) mem_cons_self
  have hfile :
    '\x00' ∉ k → '\x00' ∉ v → ∃ rest, savedFile ((k, v) :: recs) =
    Tape.opened (k ++ '\t' :: (v ++ '\t' :: rest)) := by
    intro hk hv
    refine ⟨recs.flatMap fun r => record r.1 r.2, ?_⟩
    rw [savedFile, flatMap_cons, record_eq_line hk hv]
    simp [line]
  -- where the value begins
  have hsecond :
    ∀ rest, 'ÿ' ∉ k →
    (readTabString (readTabString (Tape.opened (k ++ '\t' :: (v ++ '\t' :: rest)))).2).1 =
      (readTab [] (v ++ '\t' :: rest)).1 := by
    intro rest hend
    have hread : readTabString (Tape.opened (k ++ '\t' :: (v ++ '\t' :: rest))) =
        (some k, (Tape.opened (k ++ '\t' :: (v ++ '\t' :: rest))).skip (k.length + 1)) := by
      rw [readTabString, Tape.opened, drop_zero, readTab_field hname.tab hend hklen]
    rw [hread, readTabString, Tape.drop_skip]
    simp
  rw [firstRecord_eq_some_iff]
  constructor
  · rintro ⟨s, w, hs, hw, hsk, hwv⟩
    have hknul : '\x00' ∉ k := hsk ▸ nul_notMem_cstr s
    have hvnul : '\x00' ∉ v := hwv ▸ nul_notMem_cstr w
    obtain ⟨rest, hrest⟩ := hfile hknul hvnul
    rw [hrest] at hs hw
    have hkend : 'ÿ' ∉ k := notMem_of_readTab hname.tab hklen hs hsk
    rw [hsecond rest hkend] at hw
    exact ⟨hknul, hvnul, hkend, notMem_of_readTab hvtab hvlen hw hwv⟩
  · rintro ⟨hknul, hvnul, hkend, hvend⟩
    obtain ⟨rest, hrest⟩ := hfile hknul hvnul
    refine ⟨k, v, ?_, ?_, cstr_eq_self hknul, cstr_eq_self hvnul⟩
    · rw [hrest, readTabString, Tape.opened, drop_zero, readTab_field hname.tab hkend hklen]
    · rw [hrest, hsecond rest hkend, readTab_field hvtab hvend hvlen]

theorem Saved.writable {k v : Text} (h : Saved ((k, v) :: recs))
    (hnul : '\x00' ∉ k ∧ '\x00' ∉ v) (hp : entry p = (k, v)) : Writable p := by
  obtain ⟨rfl, rfl⟩ := Prod.mk.inj hp
  have hval := h.val (p.key, p.val) mem_cons_self
  exact ⟨(h.key (p.key, p.val) mem_cons_self).1, hval.2.1, hnul, hval.1⟩

theorem lookup_second {k v : Text} {r : Text × Text} (h : Saved ((k, v) :: r :: recs)) :
    ((k, v) :: r :: recs).lookup r.1 = some r.2 ∧ r.1 ≠ k := by
  have hne : r.1 ≠ k := by
    rintro rfl
    exact (nodup_cons.mp h.nodup).1 mem_cons_self
  refine ⟨?_, hne⟩
  rw [lookup_cons, beq_eq_false_iff_ne.mpr hne]
  exact lookup_cons_self

theorem readFile_eq_some_iff {fuel : Nat} (hdb : t.dbfile.isSome) :
    readFile fuel t = some t' ↔ ∃ t1, readLoop fuel t = some t1 ∧ t1.writeFile.2 = t' := by
  obtain ⟨f, hf⟩ := Option.isSome_iff_exists.mp hdb
  rw [readFile, hf, if_neg (by simp), Option.map_eq_some_iff]

theorem rewritten_entry (h : t.Ok) (hdb : t.dbfile.isSome) (hswap : t.swapFile = none)
    (hentry : t.entryOf = update (fun _ => none) p.key (some p)) (hw : Writable p) :
    t.writeFile.2.rewriteFile.contents = (List.lookup · [entry p]) ∧
      ∃ f, t.writeFile.2.rewriteFile.dbfile = some f ∧
        denote f.contents = if p.diff then fun _ => none else (List.lookup · [entry p]) := by
  have hlookup : ∀ k, lookup k [entry p] = if k = p.key then some p.val else none := by
    intro k
    by_cases hk : k = p.key
    · simp [entry]
    · rw [entry, lookup_cons, beq_eq_false_iff_ne.mpr hk, if_neg hk]
      rfl
  obtain ⟨hcontents, hdenote⟩ := rewritten h hdb hswap
  have hwritable : ∀ k q, t.entryOf k = some q → Writable q := by
    intro k q hq
    rw [hentry] at hq
    by_cases hk : k = p.key
    · subst hk
      rw [update_self] at hq
      exact Option.some.inj hq ▸ hw
    · rw [update_of_ne hk] at hq
      cases hq
  obtain ⟨f, hf, hdenote⟩ := hdenote hwritable
  refine ⟨?_, f, hf, ?_⟩
  · funext k
    rw [hcontents, contents, hentry, hlookup]
    by_cases hk : k = p.key
    · simp [hk]
    · simp [hk]
  · funext k
    rw [hdenote, hentry]
    by_cases hk : k = p.key
    · cases hdiff : p.diff
      · simp [hk, hlookup, hdiff]
      · simp [hk, hdiff]
    · cases hdiff : p.diff
      · simp [hk, hlookup]
      · simp [hk]

variable {filename : Text} {size : Nat} {magicNumber : Int} {full : Int → Nat → Bool}
  {uninit : Text → Bool}
  {recs : List (Text × Text)} {k v : Text}

theorem readLoop_savedFile (hsize : 0 < size) (filename : Text) (magicNumber : Int)
    (full : Int → Nat → Bool)
    (uninit : Text → Bool) (h : Saved ((k, v) :: recs)) (fuel : Nat) :
    ∃ t', readLoop (fuel + 2)
      (new filename size magicNumber full uninit (some (savedFile ((k, v) :: recs)))) = some t' ∧
      t'.Ok ∧ t'.dbfile.isSome ∧ t'.swapFile = none ∧
      match firstRecord (savedFile ((k, v) :: recs)) with
      | none => t'.entryOf = fun _ => none
      | some r => ∃ p, entry p = r ∧ p.diff = uninit p.key ∧
          t'.entryOf = update (fun _ => none) p.key (some p) := by
  have hfirst : ∀ s, (readTabString (savedFile ((k, v) :: recs))).1 = some s →
    (cstr s).head? ≠ some '~' := by
    intro s hs
    rw [savedFile, flatMap_cons, record, append_assoc] at hs
    refine head?_readTabString (fun hmarked => ?_) hs
    simpa [isMarked, hmarked] using (h.key (k, v) mem_cons_self).1.marked
  have hok := new_ok hsize filename magicNumber full uninit (some (savedFile ((k, v) :: recs)))
  obtain ⟨t', hloop, hdb, hswap, hentries⟩ := readLoop_first hok rfl rfl hfirst fuel
  exact ⟨t', hloop, readLoop_ok hok hloop, hdb, hswap, hentries⟩

theorem readable_of_restarts (hsize : 0 < size) (h : Saved ((k, v) :: recs))
    (hrestarts : Restarts
      (new filename size magicNumber full uninit (some (savedFile ((k, v) :: recs))))
        ((k, v) :: recs)) :
    Readable uninit ((k, v) :: recs) := by
  obtain ⟨fuel, t', hread, hcontents, f, hf, hdenote⟩ := hrestarts
  obtain ⟨t1, hloop, rfl⟩ := (readFile_eq_some_iff rfl).mp hread
  obtain ⟨t2, hloop', hok, hdb, hswap, hentries⟩ :=
    readLoop_savedFile hsize filename magicNumber full uninit h fuel
  obtain rfl := Option.some.inj ((readLoop_mono (readLoop_mono hloop)).symm.trans hloop')
  have hlookup : ((k, v) :: recs).lookup k = some v := lookup_cons_self
  rw [(rewritten hok hdb hswap).1] at hcontents
  cases hrecord : firstRecord (savedFile ((k, v) :: recs)) with
  | none =>
    rw [hrecord] at hentries
    have hk := congrFun hcontents k
    rw [hlookup, contents, hentries] at hk
    cases hk
  | some r =>
    rw [hrecord] at hentries
    obtain ⟨p, rfl, hdiff, hentry⟩ := hentries
    -- the table has one entry
    have hp : ∀ k' v', ((k, v) :: recs).lookup k' = some v' → entry p = (k', v') := by
      intro k' v' hk'
      have hat := congrFun hcontents k'
      rw [hk', contents, hentry] at hat
      by_cases heq : k' = p.key
      · subst heq
        rw [update_self] at hat
        rw [entry, ← Option.some.inj hat]
      · rw [update_of_ne heq] at hat
        cases hat
    have hkv : entry p = (k, v) := hp k v hlookup
    cases recs with
    | cons r recs =>
      obtain ⟨hsecond, hne⟩ := lookup_second h
      exact absurd (congrArg Prod.fst ((hp r.1 r.2 hsecond).symm.trans hkv)) hne
    | nil =>
      obtain ⟨hk, hv, hkend, hvend⟩ := (firstRecord_savedFile_iff h).mp (hkv ▸ hrecord)
      obtain ⟨-, f', hf', hdenote'⟩ :=
        rewritten_entry hok hdb hswap hentry (h.writable ⟨hk, hv⟩ hkv)
      obtain rfl := Option.some.inj (hf.symm.trans hf')
      have hat : (if p.diff then fun _ => none else (lookup · [entry p])) k = some v :=
        (congrFun (hdenote'.symm.trans hdenote) k).trans hlookup
      have hpk : p.key = k := congrArg Prod.fst hkv
      refine ⟨hk, hv, hkend, hvend, ?_⟩
      rw [← hpk, ← hdiff]
      cases hflag : p.diff with
      | false => rfl
      | true =>
        rw [hflag] at hat
        cases hat

theorem restarts_of_readable (hsize : 0 < size) (h : Saved [(k, v)])
    (hreadable : Readable uninit [(k, v)]) :
    Restarts (new filename size magicNumber full uninit (some (savedFile [(k, v)]))) [(k, v)] := by
  obtain ⟨hk, hv, hkend, hvend, huninit⟩ := hreadable
  have hrecord := (firstRecord_savedFile_iff h).mpr ⟨hk, hv, hkend, hvend⟩
  obtain ⟨t', hloop, hok, hdb, hswap, hentries⟩ :=
    readLoop_savedFile hsize filename magicNumber full uninit h 0
  rw [hrecord] at hentries
  obtain ⟨p, hkv, hdiff, hentry⟩ := hentries
  obtain ⟨hcontents, f, hf, hdenote⟩ :=
    rewritten_entry hok hdb hswap hentry (h.writable ⟨hk, hv⟩ hkv)
  have hpk : p.key = k := congrArg Prod.fst hkv
  have hflag : p.diff = false := by
    rw [hdiff, hpk]
    exact huninit
  rw [hflag, hkv] at hdenote
  rw [hkv] at hcontents
  exact ⟨2, t'.writeFile.2, (readFile_eq_some_iff rfl).mpr ⟨t', hloop, rfl⟩, hcontents, f,
    hf, hdenote⟩

/-- **The file is read back** if and only if it has one record at most, and nothing of it is lost.
-/
theorem restarts_iff (hsize : 0 < size) (filename : Text) (magicNumber : Int)
    (full : Int → Nat → Bool)
    (uninit : Text → Bool) (h : Saved recs) :
    Restarts (new filename size magicNumber full uninit (some (savedFile recs))) recs ↔
    Readable uninit recs := by
  cases recs with
  | nil =>
    refine iff_of_true ?_ trivial
    obtain ⟨t', hread, hrewrite⟩ :=
      Option.map_eq_some_iff.mp (readFile_empty filename size magicNumber full uninit 0)
    refine ⟨1, t', hread, ?_, Tape.empty, ?_, rfl⟩
    · rw [hrewrite]
      rfl
    · rw [hrewrite]
      rfl
  | cons r recs =>
    refine ⟨readable_of_restarts hsize h, fun hreadable => ?_⟩
    cases recs with
    | nil => exact restarts_of_readable hsize h hreadable
    | cons r recs => exact hreadable.elim

/-- A file of one record. -/
theorem restarts_one :
    Restarts (new ['f'] 8 0 (fun _ _ => false) (fun _ => false) (some (savedFile [(['a'], ['1'])])))
    [(['a'], ['1'])] ↔ Readable (fun _ => false) [(['a'], ['1'])] :=
  restarts_iff (by decide) ['f'] 0 _ _ ⟨by decide, by decide, by decide⟩

/-- A file of two records. -/
theorem not_restarts_two :
    Saved [(['a'], ['1']), (['b'], ['2'])] ∧
      ¬ Restarts
        (new ['f'] 8 0 (fun _ _ => false) (fun _ => false)
          (some (savedFile [(['a'], ['1']), (['b'], ['2'])])))
        [(['a'], ['1']), (['b'], ['2'])] := by
  have hsaved : Saved [(['a'], ['1']), (['b'], ['2'])] := ⟨by decide, by decide, by decide⟩
  exact ⟨hsaved, fun h => readable_of_restarts (by decide) hsaved h⟩

end Novoht

end CharmRuntime.Zht
