import CharmRuntime.Lib.MemVal
import CharmRuntime.Lib.TailList
import Mathlib.Data.List.Perm.Subperm

/-!
# Converse.MsgMgr

**The tag-matched message table** (`CmmPut`, `CmmFind` and `CmmPup` in `conv-core/msgmgr.c`):
a linked list of messages, each with its tags. A request finds the first message whose tags
it matches, where a wildcard on either side matches every tag.

The table refines a plain list of entries (`Refines`), from which a put, a find and a find
with deletion are read off. `CmmPup` writes the entries in their order, and putting what
was written builds a table that refines the same list (`unpack_encode`).
-/

namespace CharmRuntime.Converse.Msgmgr

open Lib List Option Prod Nat

/-! ## The source -/

/-- `CmmWildCard`. -/
def wildCard : Int := -1

/-- `struct CmmEntryStruct`, whose `ntags` is the length of `tags`. -/
structure Entry (M : Type) where
  msg : M
  tags : List Int
  deriving DecidableEq, Repr

/-- `struct CmmTableStruct` with its heap: `links` are the pointers, `entry` the entries that
are not freed, and `allocated` is the next one `CmiAlloc` gives. -/
structure Table (M : Type) where
  links : TailList Nat
  entry : Nat → Option (Entry M)
  allocated : Nat

/-- What `CmmFind` returns, and the array behind `rtags` (`none` for a null pointer). -/
structure Found (M : Type) where
  msg : Option M
  rtags : Option (List Int)
  deriving DecidableEq, Repr

/-- The loop of `CmmTagsMatch`. -/
def tagsMatchLoop : Nat → List Int → List Int → Bool
  | 0, _, _ => true
  | ntags + 1, tag1 :: tags1, tag2 :: tags2 =>
    if tag1 = tag2 then tagsMatchLoop ntags tags1 tags2
    else if tag1 = wildCard then tagsMatchLoop ntags tags1 tags2
    else if tag2 = wildCard then tagsMatchLoop ntags tags1 tags2
    else false
  | _ + 1, _, _ => false

/-- `CmmTagsMatch`. -/
def cmmTagsMatch (ntags1 : Nat) (tags1 : List Int) (ntags2 : Nat) (tags2 : List Int) : Bool :=
  if ntags1 ≠ ntags2 then false else tagsMatchLoop ntags1 tags1 tags2

/-- `for (i=0; i<ntags; i++) rtags[i] = ent->tags[i];` -/
def copyTags (ntags : Nat) (tags rtags : List Int) : List Int := tags.take ntags ++ rtags.drop ntags

namespace Table

variable {M : Type}

/-- `CmmNew`. -/
def new : Table M := { links := .empty, entry := fun _ => none, allocated := 0 }

/-- `CmmPut`. -/
def put (t : Table M) (tags : List Int) (msg : M) : Table M where
  links := t.links.push t.allocated
  entry := Function.update t.entry t.allocated (some { msg, tags })
  allocated := t.allocated + 1

/-- The deletion in `CmmFind` of the entry `ent` behind the link `enth`. -/
def delete (t : Table M) (enth : TailCell Nat) (ent : Nat) : Table M :=
  { t with links := t.links.unlink enth ent, entry := Function.update t.entry ent none }

/-- The loop of `CmmFind`. No value stands for a pointer to a freed entry, or a loop that is
not over after `fuel` rounds. -/
def findLoop (t : Table M) (tags : List Int) (rtags : Option (List Int)) (del : Bool) :
    Nat → TailCell Nat → Option (Found M × Table M)
  | 0, _ => none
  | fuel + 1, enth =>
    match t.links.read enth with
    | none => some ({ msg := none, rtags }, t)
    | some ent =>
      match t.entry ent with
      | none => none
      | some e =>
        if cmmTagsMatch tags.length tags e.tags.length e.tags then
          some ({ msg := some e.msg, rtags := rtags.map (copyTags tags.length e.tags) },
            if del then t.delete enth ent else t)
        else t.findLoop tags rtags del fuel (.next ent)

/-- `CmmFind` for a table. -/
def find (t : Table M) (tags : List Int) (rtags : Option (List Int)) (del : Bool) :
    Option (Found M × Table M) :=
  t.findLoop tags rtags del (t.allocated + 1) .first

/-- The loop of `CmmEntries`. -/
def entriesLoop (t : Table M) : Nat → Option Nat → Option Nat
  | 0, _ => none
  | _ + 1, none => some 0
  | fuel + 1, some e => (t.entriesLoop fuel (t.links.next e)).map (· + 1)

/-- `CmmEntries`. -/
def entries (t : Table M) : Option Nat := t.entriesLoop (t.allocated + 1) t.links.first

/-- The packing loop of `CmmPup`: for each entry `ntags`, the tags and the message. -/
def packLoop (msgpup : M → List MemVal) (t : Table M) : Nat → Option Nat → Option (List MemVal)
  | 0, _ => none
  | _ + 1, none => some []
  | fuel + 1, some e =>
    match t.entry e with
    | none => none
    | some x => (t.packLoop msgpup fuel (t.links.next e)).map fun rest =>
      MemVal.encodeInt 4 x.tags.length ++
      (x.tags.flatMap (MemVal.encodeInt 4) ++ (msgpup x.msg ++ rest))

/-- `CmmPup` that packs: the bytes, and the table it returns, which is none when the `pup_er` is
deleting. -/
def pack (msgpup : M → List MemVal) (t : Table M) (deleting : Bool) :
    Option (List MemVal × Option (Table M)) := do
  let nentries ← t.entries
  let bytes ← t.packLoop msgpup (t.allocated + 1) t.links.first
  return (MemVal.encodeInt 4 nentries ++ bytes, if deleting then none else some t)

/-- `pup_int` while unpacking. -/
def pupInt (p : List MemVal) : Option (Int × List MemVal) :=
  (MemVal.decodeInt 4 (p.take 4)).map (·, p.drop 4)

/-- `pup_ints` while unpacking. -/
def pupInts : Nat → List MemVal → Option (List Int × List MemVal)
  | 0, p => some ([], p)
  | n + 1, p => do
      let (tag, p) ← pupInt p
      let (tags, p) ← pupInts n p
      return (tag :: tags, p)

/-- The unpacking loop of `CmmPup`. -/
def unpackLoop (msgpup : List MemVal → Option (M × List MemVal)) :
    Nat → Table M → List MemVal → Option (Table M × List MemVal)
  | 0, t, p => some (t, p)
  | n + 1, t, p => do
      let (ntags, p) ← pupInt p
      let (tags, p) ← pupInts ntags.toNat p
      let (msg, p) ← msgpup p
      unpackLoop msgpup n (t.put tags msg) p

/-- `CmmPup` that unpacks: the table, and what is left of the bytes. -/
def unpack (msgpup : List MemVal → Option (M × List MemVal)) (p : List MemVal) :
    Option (Table M × List MemVal) := do
  let (nentries, p) ← pupInt p
  unpackLoop msgpup nentries.toNat .new p

end Table

variable {M : Type}

/-- `CmmFind`: a null table has no messages. -/
def cmmFind (t : Option (Table M)) (tags : List Int) (rtags : Option (List Int)) (del : Bool) :
    Option (Found M × Option (Table M)) :=
  match t with
  | none => some ({ msg := none, rtags }, none)
  | some t => (t.find tags rtags del).map fun r => (r.1, some r.2)

/-- The calls. -/
inductive Call (M : Type)
  | put (tags : List Int) (msg : M)
  | find (tags : List Int) (rtags : Option (List Int)) (del : Bool)

/-- A call, with what it returns (a put returns nothing). -/
def exec (t : Option (Table M)) : Call M → Option (Option (Found M) × Option (Table M))
  | .put tags msg => t.map fun t => (none, some (t.put tags msg))
  | .find tags rtags del => (cmmFind t tags rtags del).map fun r => (some r.1, r.2)

/-- A sequence of calls. -/
def run (t : Option (Table M)) : List (Call M) → Option (List (Option (Found M)) × Option (Table M))
  | [] => some ([], t)
  | call :: calls => do
      let (r, t) ← exec t call
      let (rs, t) ← run t calls
      return (r :: rs, t)

/-! ## The table as a list -/

/-- One tag matches another. -/
def TagFits (tag1 tag2 : Int) : Prop := tag1 = tag2 ∨ tag1 = wildCard ∨ tag2 = wildCard

instance (tag1 tag2 : Int) : Decidable (TagFits tag1 tag2) :=
  inferInstanceAs (Decidable (_ ∨ _ ∨ _))

/-- A request matches an entry: as many tags, and each of them matches. -/
def Fits (tags : List Int) (e : Entry M) : Prop := List.Forall₂ TagFits tags e.tags

instance (tags : List Int) (e : Entry M) : Decidable (Fits tags e) :=
  inferInstanceAs (Decidable (List.Forall₂ ..))

/-- What a call returns on a list of entries in the order of their puts, and the list behind it:
a put appends, a find takes the first entry that matches. -/
def Call.spec (l : List (Entry M)) : Call M → Option (Found M) × List (Entry M)
  | .put tags msg => (none, l ++ [{ msg, tags }])
  | .find tags rtags del =>
    match l.find? (Fits tags ·) with
    | none => (some { msg := none, rtags }, l)
    | some e =>
      (some { msg := some e.msg, rtags := rtags.map fun r => e.tags ++ r.drop e.tags.length },
        if del then l.eraseP (Fits tags ·) else l)

/-- A sequence of calls on a list of entries. -/
def specRun (l : List (Entry M)) : List (Call M) → List (Option (Found M)) × List (Entry M)
  | [] => ([], l)
  | call :: calls =>
    let (r, l) := call.spec l
    let (rs, l) := specRun l calls
    (r :: rs, l)

/-! ## Matching -/

theorem tagsMatchLoop_iff {tags1 tags2 : List Int} (h : tags1.length = tags2.length) :
    tagsMatchLoop tags1.length tags1 tags2 = true ↔ Forall₂ TagFits tags1 tags2 := by
  induction tags1 generalizing tags2 with
  | nil =>
    cases tags2 with
    | nil => simp [tagsMatchLoop]
    | cons tag2 tags2 => cases h
  | cons tag1 tags1 ih =>
    cases tags2 with
    | nil => cases h
    | cons tag2 tags2 =>
      have hrest := ih (succ.inj h)
      rw [length_cons, tagsMatchLoop, forall₂_cons, TagFits]
      split
      next heq => simp [heq, hrest]
      next hne =>
        split
        next hwild => simp [hwild, hrest]
        next hne1 =>
          split
          next hwild => simp [hwild, hrest]
          next hne2 => simp [hne, hne1, hne2]

theorem cmmTagsMatch_iff (tags : List Int) (e : Entry M) :
    cmmTagsMatch tags.length tags e.tags.length e.tags = true ↔ Fits tags e := by
  unfold cmmTagsMatch
  by_cases hlen : tags.length = e.tags.length
  · rw [if_neg (not_not_intro hlen)]
    exact tagsMatchLoop_iff hlen
  · rw [if_pos hlen]
    exact iff_of_false Bool.false_ne_true fun h => hlen h.length_eq

theorem copyTags_of_fits {tags : List Int} {e : Entry M} (h : Fits tags e) (rtags : List Int) :
    copyTags tags.length e.tags rtags = e.tags ++ rtags.drop e.tags.length := by
  unfold copyTags
  rw [h.length_eq, take_length]

/-! ## The entries of a table -/

namespace Table

variable {t t' : Table M} {es pre post : List (Nat × Entry M)}

/-- The entries of a table in their order, each with its address. -/
structure Refines (t : Table M) (es : List (Nat × Entry M)) : Prop where
  links : t.links.Holds (es.map Prod.fst)
  entry : ∀ p ∈ es, t.entry p.1 = some p.2
  fresh : ∀ p ∈ es, p.1 < t.allocated

theorem refines_new : (new : Table M).Refines [] where
  links := TailList.holds_empty
  entry _ h := by cases h
  fresh _ h := by cases h

theorem Refines.length_le (h : t.Refines es) : es.length ≤ t.allocated := by
  have hsub : es.map fst ⊆ range t.allocated := by
    intro n hn
    obtain ⟨p, hp, rfl⟩ := mem_map.mp hn
    exact mem_range.mpr (h.fresh p hp)
  have hle := (subperm_of_subset h.links.nodup hsub).length_le
  rwa [length_map, length_range] at hle

/-- **A put** appends. -/
theorem Refines.put (h : t.Refines es) (tags : List Int) (msg : M) :
    (t.put tags msg).Refines (es ++ [(t.allocated, ⟨msg, tags⟩)]) := by
  have hne : ∀ p ∈ es, p.1 ≠ t.allocated := fun p hp => Nat.ne_of_lt (h.fresh p hp)
  refine ⟨?_, ?_, ?_⟩
  · rw [map_append]
    refine h.links.push fun hmem => ?_
    obtain ⟨p, hp, heq⟩ := mem_map.mp hmem
    exact hne p hp heq
  · intro p hp
    cases mem_append.mp hp with
    | inl hold => exact (Function.update_of_ne (hne p hold) ..).trans (h.entry p hold)
    | inr hnew =>
      cases mem_singleton.mp hnew
      exact Function.update_self ..
  · intro p hp
    cases mem_append.mp hp with
    | inl hold => exact lt_succ_of_lt (h.fresh p hold)
    | inr hnew =>
      cases mem_singleton.mp hnew
      exact lt_succ_self t.allocated

/-- **A deletion** takes out one entry. -/
theorem Refines.delete {p : Nat × Entry M} (h : t.Refines (pre ++ p :: post)) :
    (t.delete (TailList.cellAfter .first (pre.map fst)) p.1).Refines (pre ++ post) := by
  have hlinks := h.links
  rw [map_append] at hlinks
  have hsub : ∀ x ∈ pre ++ post, x ∈ pre ++ p :: post := fun x hx =>
    (Sublist.append_left (sublist_cons_self p post) pre).subset hx
  have hne : ∀ x ∈ pre ++ post, x.1 ≠ p.1 := by
    have hnodup := (nodup_middle.mp hlinks.nodup).notMem
    intro x hx heq
    rw [← map_append, ← heq] at hnodup
    exact hnodup (mem_map_of_mem hx)
  refine ⟨?_, ?_, fun x hx => h.fresh x (hsub x hx)⟩
  · rw [map_append]
    exact hlinks.unlink
  · intro x hx
    exact (Function.update_of_ne (hne x hx) ..).trans (h.entry x (hsub x hx))

/-! ### The search -/

theorem findLoop_cases (tags : List Int) (rtags : Option (List Int)) (del : Bool)
    {done rest : List (Nat × Entry M)}
    (h : t.Refines (done ++ rest)) {fuel : Nat} (hfuel : rest.length < fuel) :
    (∀ p ∈ rest, ¬ Fits tags p.2) ∧
        t.findLoop tags rtags del fuel (TailList.cellAfter .first (done.map fst)) =
        some ({ msg := none, rtags }, t) ∨
      ∃ pre p post, rest = pre ++ p :: post ∧ (∀ x ∈ pre, ¬ Fits tags x.2) ∧ Fits tags p.2 ∧
        t.findLoop tags rtags del fuel (TailList.cellAfter .first (done.map fst)) =
          some ({ msg := some p.2.msg,
                  rtags := rtags.map fun r => p.2.tags ++ r.drop p.2.tags.length },
            if del then t.delete (TailList.cellAfter .first ((done ++ pre).map fst))
              p.1 else t) := by
  have hpath := h.links.path
  rw [map_append] at hpath
  replace hpath := hpath.after
  induction rest generalizing done fuel with
  | nil =>
    obtain ⟨fuel, rfl⟩ := exists_eq_succ_of_ne_zero (Nat.ne_of_gt hfuel)
    have hread : t.links.read _ = none := hpath
    refine .inl ⟨fun p hp => absurd hp not_mem_nil, ?_⟩
    rw [findLoop, hread]
  | cons p rest ih =>
    obtain ⟨fuel, rfl⟩ := exists_eq_succ_of_ne_zero (Nat.ne_of_gt (zero_lt_of_lt hfuel))
    have hentry := h.entry p (mem_append_right done mem_cons_self)
    rw [findLoop, hpath.1]
    simp only [hentry]
    by_cases hfits : Fits tags p.2
    · refine .inr ⟨[], p, rest, rfl, fun x hx => absurd hx not_mem_nil, hfits, ?_⟩
      rw [if_pos ((cmmTagsMatch_iff tags p.2).mpr hfits), funext (copyTags_of_fits hfits),
        append_nil]
    · rw [if_neg fun hm => hfits ((cmmTagsMatch_iff tags p.2).mp hm)]
      have hcell : TailList.cellAfter .first ((done ++ [p]).map fst) = .next p.1 := by
        rw [map_append, TailList.cellAfter_append]
        rfl
      have hdone : done ++ p :: rest = done ++ [p] ++ rest := append_cons done p rest
      have hrest :=
        ih (show t.Refines (done ++ [p] ++ rest) from hdone ▸ h) (lt_of_succ_lt_succ hfuel)
          (hcell ▸ hpath.2)
      rw [hcell] at hrest
      cases hrest with
      | inl hnone =>
        refine .inl ⟨?_, hnone.2⟩
        exact forall_mem_cons.mpr ⟨hfits, hnone.1⟩
      | inr hsome =>
        obtain ⟨pre, q, post, rfl, hpre, hq, heq⟩ := hsome
        refine .inr ⟨p :: pre, q, post, rfl, forall_mem_cons.mpr ⟨hfits, hpre⟩, hq, ?_⟩
        rw [heq, append_cons done p pre]

/-- **A find** is a find in the list. -/
theorem Refines.find (h : t.Refines es) (tags : List Int) (rtags : Option (List Int)) (del : Bool) :
    ∃ r t' es', t.find tags rtags del = some (r, t') ∧ t'.Refines es' ∧
      (Call.find tags rtags del).spec (es.map snd) = (some r, es'.map snd) := by
  have hcases :=
    findLoop_cases tags rtags del (show t.Refines ([] ++ es) from h) (lt_succ_of_le h.length_le)
  cases hcases with
  | inl hnone =>
    refine ⟨_, t, es, hnone.2, h, ?_⟩
    have hfind : (es.map snd).find? (Fits tags ·) = none := by
      simpa using hnone.1
    rw [Call.spec, hfind]
  | inr hsome =>
    obtain ⟨pre, p, post, rfl, hpre, hfits, heq⟩ := hsome
    have hpre' : (pre.map snd).find? (Fits tags ·) = none := by
      simpa using hpre
    have hfind : ((pre ++ p :: post).map snd).find? (Fits tags ·) = some p.2 := by
      simp [hpre', hfits]
    have herase : ((pre ++ p :: post).map snd).eraseP (Fits tags ·) = (pre ++ post).map snd := by
      rw [map_append, eraseP_append_right]
      · simp [hfits]
      · intro e he
        obtain ⟨x, hx, rfl⟩ := mem_map.mp he
        simpa using hpre x hx
    cases del with
    | false =>
      refine ⟨_, t, _, heq, h, ?_⟩
      rw [Call.spec, hfind]
      rfl
    | true =>
      refine ⟨_, _, _, heq, h.delete, ?_⟩
      rw [Call.spec, hfind, herase]
      rfl

end Table

/-! ## Calls -/

variable {t : Table M} {es : List (Nat × Entry M)}

theorem exec_refines (h : t.Refines es) (call : Call M) :
    ∃ t' es', exec (some t) call = some ((call.spec (es.map snd)).1, some t') ∧ t'.Refines es' ∧
      es'.map snd = (call.spec (es.map snd)).2 := by
  cases call with
  | put tags msg =>
    refine ⟨_, _, rfl, h.put tags msg, ?_⟩
    rw [map_append]
    rfl
  | find tags rtags del =>
    obtain ⟨r, t', es', heq, h', hspec⟩ := h.find tags rtags del
    refine ⟨t', es', ?_, h', ?_⟩
    · rw [exec, cmmFind, heq, hspec]
      rfl
    · rw [hspec]

/-- **The table is a list**, over every sequence of calls. -/
theorem run_refines (h : t.Refines es) (calls : List (Call M)) :
    ∃ t' es', run (some t) calls = some ((specRun (es.map snd) calls).1, some t') ∧ t'.Refines es' ∧
      es'.map snd = (specRun (es.map snd) calls).2 := by
  induction calls generalizing t es with
  | nil => exact ⟨t, es, rfl, h, rfl⟩
  | cons call calls ih =>
    obtain ⟨t1, es1, heq1, h1, hspec1⟩ := exec_refines h call
    obtain ⟨t2, es2, heq2, h2, hspec2⟩ := ih h1
    rw [hspec1] at heq2 hspec2
    refine ⟨t2, es2, ?_, h2, hspec2⟩
    simp only [run, heq1, bind_eq_bind, bind_some, heq2]
    rfl

theorem run_congr {t' : Table M} {es' : List (Nat × Entry M)} (h : t.Refines es)
    (h' : t'.Refines es')
    (heq : es'.map snd = es.map snd) (calls : List (Call M)) :
    (run (some t') calls).map fst = (run (some t) calls).map fst := by
  obtain ⟨_, _, hrun, -⟩ := run_refines h calls
  obtain ⟨_, _, hrun', -⟩ := run_refines h' calls
  rw [hrun, hrun', heq]
  rfl

/-! ## Packing and unpacking -/

/-- The bytes of an entry. -/
def encodeEntry (msgpup : M → List MemVal) (e : Entry M) : List MemVal :=
  MemVal.encodeInt 4 e.tags.length ++ (e.tags.flatMap (MemVal.encodeInt 4) ++ msgpup e.msg)

namespace Table

variable {c : TailCell Nat} {msgunpup : List MemVal → Option (M × List MemVal)}

theorem entriesLoop_eq {t : Table M} {l : List Nat} (h : t.links.Path c l) {fuel : Nat}
    (hfuel : l.length < fuel) : t.entriesLoop fuel (t.links.read c) = some l.length := by
  induction l generalizing c fuel with
  | nil =>
    obtain ⟨fuel, rfl⟩ := exists_eq_succ_of_ne_zero (Nat.ne_of_gt hfuel)
    have hread : t.links.read c = none := h
    rw [hread]
    rfl
  | cons e l ih =>
    obtain ⟨fuel, rfl⟩ := exists_eq_succ_of_ne_zero (Nat.ne_of_gt (zero_lt_of_lt hfuel))
    have hrest : t.entriesLoop fuel (t.links.next e) = some l.length :=
      ih h.2 (lt_of_succ_lt_succ hfuel)
    rw [h.1, entriesLoop, hrest]
    rfl

theorem packLoop_eq (msgpup : M → List MemVal) (h : t.links.Path c (es.map fst))
    (hentry : ∀ p ∈ es, t.entry p.1 = some p.2) {fuel : Nat} (hfuel : es.length < fuel) :
    t.packLoop msgpup fuel (t.links.read c) = some ((es.map snd).flatMap (encodeEntry msgpup)) := by
  induction es generalizing c fuel with
  | nil =>
    obtain ⟨fuel, rfl⟩ := exists_eq_succ_of_ne_zero (Nat.ne_of_gt hfuel)
    have hread : t.links.read c = none := h
    rw [hread]
    rfl
  | cons p es ih =>
    obtain ⟨fuel, rfl⟩ := exists_eq_succ_of_ne_zero (Nat.ne_of_gt (zero_lt_of_lt hfuel))
    have hrest : t.packLoop msgpup fuel (t.links.next p.1) = _ :=
      ih h.2 (fun q hq => hentry q (mem_cons_of_mem p hq)) (lt_of_succ_lt_succ hfuel)
    rw [h.1, packLoop, hentry p mem_cons_self]
    simp only [hrest, map_some, map_cons, flatMap_cons, encodeEntry, append_assoc]

theorem Refines.pack (h : t.Refines es) (msgpup : M → List MemVal) (deleting : Bool) :
    t.pack msgpup deleting = some
      (MemVal.encodeInt 4 es.length ++ (es.map snd).flatMap (encodeEntry msgpup),
      if deleting then none else some t) := by
  have hlen := h.length_le
  have hentries : t.entries = some (es.map fst).length :=
    entriesLoop_eq h.links.path (lt_succ_of_le (by rwa [length_map]))
  have hloop : t.packLoop msgpup (t.allocated + 1) t.links.first = _ :=
    packLoop_eq msgpup h.links.path h.entry (lt_succ_of_le hlen)
  rw [Table.pack, hentries, hloop, length_map]
  rfl

theorem pupInt_encode (v : Int) (p : List MemVal) :
    pupInt (MemVal.encodeInt 4 v ++ p) = some (v, p) := by
  rw [pupInt, take_left' (MemVal.length_encodeInt 4 v), MemVal.decodeInt_encodeInt (by decide)]
  rfl

theorem pupInts_encode (tags : List Int) (p : List MemVal) :
    pupInts tags.length (tags.flatMap (MemVal.encodeInt 4) ++ p) = some (tags, p) := by
  induction tags with
  | nil => rfl
  | cons tag tags ih =>
    rw [flatMap_cons, append_assoc, length_cons, pupInts, pupInt_encode]
    simp only [bind_eq_bind, bind_some, ih]
    rfl

theorem unpackLoop_encode {msgpup : M → List MemVal}
    (hpup : ∀ msg p, msgunpup (msgpup msg ++ p) = some (msg, p)) (h : t.Refines es)
    (l : List (Entry M)) (p : List MemVal) :
    ∃ t' es', unpackLoop msgunpup l.length t (l.flatMap (encodeEntry msgpup) ++ p) = some (t', p) ∧
    t'.Refines es' ∧
      es'.map snd = es.map snd ++ l := by
  induction l generalizing t es with
  | nil => exact ⟨t, es, rfl, h, (append_nil _).symm⟩
  | cons e l ih =>
    obtain ⟨t', es', heq, h', hes⟩ := ih (h.put e.tags e.msg)
    refine ⟨t', es', ?_, h', ?_⟩
    · rw [flatMap_cons, encodeEntry, append_assoc, append_assoc, append_assoc,
        length_cons, unpackLoop, pupInt_encode]
      simp only [bind_eq_bind, bind_some, Int.toNat_natCast, pupInts_encode, hpup]
      exact heq
    · rw [hes, map_append, append_assoc]
      rfl

/-- **Unpacking a packed table** gives a table with the same entries in the same order. -/
theorem unpack_encode {msgpup : M → List MemVal}
    (hpup : ∀ msg p, msgunpup (msgpup msg ++ p) = some (msg, p)) (l : List (Entry M))
    (p : List MemVal) :
    ∃ t' es',
    unpack msgunpup (MemVal.encodeInt 4 l.length ++ (l.flatMap (encodeEntry msgpup) ++ p)) =
    some (t', p) ∧
      t'.Refines es' ∧ es'.map snd = l := by
  obtain ⟨t', es', heq, h', hes⟩ := unpackLoop_encode hpup refines_new l p
  refine ⟨t', es', ?_, h', hes⟩
  rw [unpack, pupInt_encode]
  exact heq

end Table

/-- **The table is an ordered list with wildcard matching, and packing keeps it**: every sequence
of calls returns what it returns on the list of entries, and behind it the table can be packed,
with or without its deletion; the table unpacked from these bytes answers every further
sequence of calls as the table itself does. -/
theorem cmm_list_pup {M : Type} {msgpup : M → List MemVal}
    {msgunpup : List MemVal → Option (M × List MemVal)}
    (hpup : ∀ msg p, msgunpup (msgpup msg ++ p) = some (msg, p)) (calls : List (Call M)) :
    ∃ t, run (some .new) calls = some ((specRun [] calls).1, some t) ∧
      (∀ further, (run (some t) further).map Prod.fst =
      some (specRun (specRun [] calls).2 further).1) ∧
      ∀ deleting, ∃ bytes, t.pack msgpup deleting =
      some (bytes, if deleting then none else some t) ∧
        ∀ p, ∃ t', Table.unpack msgunpup (bytes ++ p) = some (t', p) ∧
          ∀ further, (run (some t') further).map Prod.fst =
          (run (some t) further).map Prod.fst := by
  obtain ⟨t, es, hrun, h, hspec⟩ := run_refines Table.refines_new calls
  refine ⟨t, hrun, fun further => ?_, fun deleting => ⟨_, h.pack msgpup deleting, fun p => ?_⟩⟩
  · obtain ⟨_, _, hfurther, -⟩ := run_refines h further
    rw [hfurther, hspec]
    rfl
  · obtain ⟨t', es', heq, h', hes⟩ := Table.unpack_encode hpup (es.map snd) p
    refine ⟨t', ?_, run_congr h h' hes⟩
    rwa [length_map] at heq

/-- Messages that are numbers, packed as an `int`: two puts with wildcards, the first is packed. -/
theorem cmm_list_pup_numbers :
    ∃ t, run (some .new) [.put [5, -1] (40 : Int), .put [5, 7] 41] =
        some ((specRun [] [.put [5, -1] 40, .put [5, 7] 41]).1, some t) ∧
      (∀ further, (run (some t) further).map Prod.fst =
        some (specRun (specRun [] [.put [5, -1] 40, .put [5, 7] 41]).2 further).1) ∧
      ∀ deleting, ∃ bytes, t.pack (MemVal.encodeInt 4) deleting =
      some (bytes, if deleting then none else some t) ∧
        ∀ p, ∃ t', Table.unpack Table.pupInt (bytes ++ p) = some (t', p) ∧
          ∀ further, (run (some t') further).map Prod.fst = (run (some t) further).map Prod.fst :=
  cmm_list_pup Table.pupInt_encode [.put [5, -1] 40, .put [5, 7] 41]

/-- Of two messages that both match, the request gets the one that was put first. -/
example : (run (some .new) [.put [5, -1] 40, .put [5, 7] 41, .find [-1, 7] (some [0, 0]) true,
    .find [-1, 7] none true]).map fst =
      some [none, none, some ⟨some 40, some [5, -1]⟩, some ⟨some 41, none⟩] := by decide

end CharmRuntime.Converse.Msgmgr
