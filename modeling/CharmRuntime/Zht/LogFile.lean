import CharmRuntime.Lib.CInt
import CharmRuntime.Lib.Records
import CharmRuntime.Lib.Transition
import CharmRuntime.Zht.NovohtMap

/-!
# Zht.LogFile

**What the log file denotes.** The file is a list of records; those whose key begins with `~` are
skipped, and a later value of a key replaces an earlier one (`denote`). It is in order when every
entry has one position, that of the one record of its key that is alive (`Logged`). Then the file
denotes the table.

A value that is put marks the old record and adds a new one, which keeps the file in order. `remove`
marks the record of the first entry of the chain, whichever entry it takes out, and `append` adds a
record that has only what is appended. So the file stays in order in runs in which the entries that
are removed are first in their chains, and nothing is appended to an entry that is there
(`denote_eq_contents`).

That is the file as it is read from the `FILE` of the table. `mark` does not flush, so that the
removal of an entry reaches the disk with what is done to the file next (`flushed_next_iff`).
-/

namespace CharmRuntime.Zht

open Lib Function List
open CharmRuntime.Matrix (Text)

/-! ### Reading the file -/

/-- The fields, each up to a tab. -/
def fieldsFrom (pre : Text) : Text → List Text
  | [] => []
  | c :: rest => if c = '\t' then pre :: fieldsFrom [] rest else fieldsFrom (pre ++ [c]) rest

def pairs : List Text → List (Text × Text)
  | k :: v :: fields => (k, v) :: pairs fields
  | _ => []

/-- A record whose key begins with `~` is skipped. -/
def isMarked (k : Text) : Bool := k.head? = some '~'

def denote (file : Text) : Text → Option Text := replay isMarked (pairs (fieldsFrom [] file))

/-- The text of a record. -/
def line (r : Text × Text) : Text := r.1 ++ '\t' :: (r.2 ++ ['\t'])

/-- A record without tabs. -/
def NoTabs (r : Text × Text) : Prop := '\t' ∉ r.1 ∧ '\t' ∉ r.2

theorem fieldsFrom_append {t : Text} (ht : '\t' ∉ t) (pre rest : Text) :
    fieldsFrom pre (t ++ '\t' :: rest) = (pre ++ t) :: fieldsFrom [] rest := by
  induction t generalizing pre with
  | nil => rw [nil_append, fieldsFrom, if_pos rfl, append_nil]
  | cons c t ih =>
    have hc : c ≠ '\t' := fun heq => ht (heq ▸ mem_cons_self)
    rw [cons_append, fieldsFrom, if_neg hc, ih fun h => ht (mem_cons_of_mem c h), append_assoc]
    rfl

/-- **Records without tabs are read back.** -/
theorem pairs_fieldsFrom {recs : List (Text × Text)} (h : ∀ r ∈ recs, NoTabs r) :
    pairs (fieldsFrom [] (recs.flatMap line)) = recs := by
  induction recs with
  | nil => rfl
  | cons r recs ih =>
    obtain ⟨hkey, hval⟩ := h r mem_cons_self
    have hline : (r :: recs).flatMap line = r.1 ++ '\t' :: (r.2 ++ '\t' :: recs.flatMap line) := by
      simp [line]
    rw [hline, fieldsFrom_append hkey, fieldsFrom_append hval, pairs, ih fun r' hr' =>
      h r' (mem_cons_of_mem r hr')]
    rfl

/-! ### A file in order -/

/-- The keys of records that are alive. -/
structure Name (k : Text) : Prop where
  ne_nil : k ≠ []
  tab : '\t' ∉ k
  marked : isMarked k = false

/-- The entries have the records that are not marked, each at its position. -/
structure Logged (entries : Text → Option Kvpair) (recs : List (Text × Text)) : Prop where
  tabs : ∀ r ∈ recs, NoTabs r
  placed : ∀ k p, entries k = some p →
    Name k ∧ p.key = k ∧ ∃ i, recs[i]? = some (k, p.val) ∧ p.positions = [offset line recs i]
  live : ∀ r ∈ recs, isMarked r.1 = false → ∃ p, entries r.1 = some p ∧ p.val = r.2
  nodup : ((recs.filter fun r => !isMarked r.1).map Prod.fst).Nodup

variable {entries : Text → Option Kvpair} {recs : List (Text × Text)} {k v : Text}

/-- **A file in order denotes the table.** -/
theorem Logged.denote_eq (h : Logged entries recs) :
    denote (recs.flatMap line) = fun k => (entries k).map Kvpair.val := by
  funext k
  rw [denote, pairs_fieldsFrom h.tabs]
  refine Option.ext fun v => ?_
  rw [replay_eq_some_iff h.nodup, Option.map_eq_some_iff]
  constructor
  · rintro ⟨hmem, hlive⟩
    exact h.live (k, v) hmem hlive
  · rintro ⟨p, hp, rfl⟩
    obtain ⟨hname, -, i, hi, -⟩ := h.placed k p hp
    exact ⟨mem_of_getElem? hi, hname.marked⟩

/-- The key of a marked record. -/
def marked (r : Text × Text) : Text × Text := ('~' :: r.1.tail, r.2)

theorem length_line_marked {r : Text × Text} (hr : r.1 ≠ []) :
    (line (marked r)).length = (line r).length := by
  obtain ⟨c, rest, hc⟩ := exists_cons_of_ne_nil hr
  simp [line, marked, hc]

/-- Marking a record takes its entry away. -/
theorem Logged.erase (h : Logged entries recs) {i : Nat} {r : Text × Text} (hi : recs[i]? = some r)
    (hlive : isMarked r.1 = false) (hr : r.1 ≠ []) :
    Logged (update entries r.1 none) (recs.set i (marked r)) := by
  obtain ⟨hlt, hget⟩ := List.getElem?_eq_some_iff.mp hi
  have hrecs : recs = recs.take i ++ r :: recs.drop (i + 1) := by
    rw [← hget, getElem_cons_drop, take_append_drop]
  have hset : recs.set i (marked r) = recs.take i ++ marked r :: recs.drop (i + 1) :=
    set_eq_take_append_cons_drop.trans (if_pos hlt)
  have hmarked : isMarked (marked r).1 = true := rfl
  generalize recs.take i = pre at hrecs hset
  generalize recs.drop (i + 1) = post at hrecs hset
  -- no other record has the key
  have hnodup := h.nodup
  rw [hrecs, filter_append, filter_cons_of_pos (by simp [hlive]), map_append, map_cons,
    perm_middle.nodup_iff, nodup_cons, ← map_append, ← filter_append] at hnodup
  have hother : ∀ r' ∈ pre ++ post, isMarked r'.1 = false → r'.1 ≠ r.1 := by
    intro r' hr' hlive' heq
    refine hnodup.1 (heq ▸ mem_map_of_mem (mem_filter.mpr ⟨hr', ?_⟩))
    simp [hlive']
  have hmem : ∀ r' ∈ recs.set i (marked r), r' = marked r ∨ r' ∈ pre ++ post := by
    intro r' hr'
    rw [hset, perm_middle.mem_iff] at hr'
    exact mem_cons.mp hr'
  have hold : ∀ r' ∈ pre ++ post, r' ∈ recs := by
    intro r' hr'
    rw [hrecs, perm_middle.mem_iff]
    exact mem_cons_of_mem r hr'
  have hrmem : r ∈ recs := mem_of_getElem? hi
  refine ⟨fun r' hr' => ?_, fun k p hp => ?_, fun r' hr' hlive' => ?_, ?_⟩
  · obtain rfl | hr' := hmem r' hr'
    · refine ⟨fun htab => ?_, (h.tabs r hrmem).2⟩
      obtain htab | htab := mem_cons.mp htab
      · exact absurd htab (by decide)
      · exact (h.tabs r hrmem).1 (mem_of_mem_tail htab)
    · exact h.tabs r' (hold r' hr')
  · have hk : k ≠ r.1 := by
      rintro rfl
      rw [update_self] at hp
      cases hp
    rw [update_of_ne hk] at hp
    obtain ⟨hname, hkey, j, hj, hpos⟩ := h.placed k p hp
    have hij : i ≠ j := by
      rintro rfl
      rw [hi] at hj
      exact hk (congrArg Prod.fst (Option.some.inj hj)).symm
    refine ⟨hname, hkey, j, ?_, ?_⟩
    · rw [getElem?_set_ne hij, hj]
    · rw [offset_set hi (length_line_marked hr), hpos]
  · obtain rfl | hr' := hmem r' hr'
    · cases hlive'
    · rw [update_of_ne (hother r' hr' hlive')]
      exact h.live r' (hold r' hr') hlive'
  · rw [hset, filter_append, filter_cons_of_neg (by simp [hmarked]), ← filter_append]
    exact hnodup.2

theorem Logged.add (h : Logged entries recs) (hk : Name k) (hv : '\t' ∉ v) (hnew : entries k = none)
    {p : Kvpair}
    (hp : p.key = k ∧ p.val = v ∧ p.positions = [offset line recs recs.length]) :
    Logged (update entries k (some p)) (recs ++ [(k, v)]) := by
  obtain ⟨hkey, hval, hpos⟩ := hp
  -- a live record of the key would have an entry
  have habsent : ∀ r ∈ recs, isMarked r.1 = false → r.1 ≠ k := by
    rintro r hr hlive rfl
    obtain ⟨q, hq, -⟩ := h.live r hr hlive
    rw [hnew] at hq
    cases hq
  refine ⟨fun r hr => ?_, fun k' p' hp' => ?_, fun r hr hlive => ?_, ?_⟩
  · obtain hr | hr := mem_append.mp hr
    · exact h.tabs r hr
    · rw [mem_singleton.mp hr]
      exact ⟨hk.tab, hv⟩
  · by_cases hk' : k' = k
    · subst hk'
      rw [update_self] at hp'
      obtain rfl : p = p' := Option.some.inj hp'
      refine ⟨hk, hkey, recs.length, ?_, ?_⟩
      · rw [getElem?_concat_length, hval]
      · rw [offset_append (le_refl _), hpos]
    · rw [update_of_ne hk'] at hp'
      obtain ⟨hname, hkey', i, hi, hpos'⟩ := h.placed k' p' hp'
      have hlt := (List.getElem?_eq_some_iff.mp hi).1
      refine ⟨hname, hkey', i, ?_, ?_⟩
      · rw [getElem?_append_left hlt, hi]
      · rw [offset_append (le_of_lt hlt), hpos']
  · obtain hr | hr := mem_append.mp hr
    · rw [update_of_ne (habsent r hr hlive)]
      exact h.live r hr hlive
    · rw [mem_singleton.mp hr]
      exact ⟨p, update_self .., hval⟩
  · rw [filter_append, map_append, filter_singleton]
    simp only [hk.marked]
    refine nodup_append.mpr ⟨h.nodup, pairwise_singleton _ _, fun a ha b hb heq => ?_⟩
    obtain ⟨r, hr, rfl⟩ := mem_map.mp ha
    obtain ⟨hr, hlive⟩ := mem_filter.mp hr
    rw [mem_singleton.mp hb] at heq
    exact habsent r hr (by simpa using hlive) heq

/-! ### Marking and writing -/

theorem record_eq_line (hk : '\x00' ∉ k) (hv : '\x00' ∉ v) : record k v = line (k, v) := by
  rw [record, cstr_eq_self hk, cstr_eq_self hv, line]

theorem contents_mark {f : File} (hf : f.contents = recs.flatMap line) {i : Nat} {r : Text × Text}
    (hi : recs[i]? = some r) (hr : r.1 ≠ []) :
    (mark [offset line recs i] f).contents = (recs.set i (marked r)).flatMap line := by
  obtain ⟨key, val⟩ := r
  obtain ⟨c, rest, rfl⟩ := exists_cons_of_ne_nil hr
  have hsplit : f.contents = (recs.take i).flatMap line ++ [c] ++
      (rest ++ '\t' :: (val ++ ['\t']) ++ (recs.drop (i + 1)).flatMap line) := by
    rw [hf, flatMap_split hi]
    simp [line]
  refine (Tape.write_seek_append hsplit (l := ['~']) rfl).trans ?_
  rw [flatMap_set hi]
  simp [line, marked]

/-- There is a file, and it is in order. -/
def InOrder (db : Option File) (entries : Text → Option Kvpair) : Prop :=
  ∃ f recs, db = some f ∧ f.contents = recs.flatMap line ∧ Logged entries recs

variable {db : Option File} {p : Kvpair}

theorem InOrder.mark (h : InOrder db entries) (hp : entries k = some p) :
    InOrder (db.map (mark p.positions)) (update entries k none) := by
  obtain ⟨f, recs, rfl, hf, hlogged⟩ := h
  obtain ⟨hname, -, i, hi, hpos⟩ := hlogged.placed k p hp
  refine ⟨mark p.positions f, recs.set i (marked (k, p.val)), rfl, ?_,
    hlogged.erase hi hname.marked hname.ne_nil⟩
  rw [hpos]
  exact contents_mark hf hi hname.ne_nil

theorem InOrder.write (h : InOrder db entries) (hk : Name k) (hv : '\t' ∉ v)
    (hnul : '\x00' ∉ k ∧ '\x00' ∉ v)
    (hnew : entries k = none) (hkey : p.key = k) (hval : p.val = v) :
    InOrder (logged db p Kvpair.write).1
      (update entries k (some (logged db p Kvpair.write).2)) := by
  obtain ⟨f, recs, rfl, hf, hlogged⟩ := h
  refine ⟨(File.print f.seekEnd (record p.key p.val)).flush, recs ++ [(k, v)], rfl, ?_,
    hlogged.add hk hv hnew ⟨hkey, hval, ?_⟩⟩
  · rw [Tape.flush, File.print, Tape.write_seekEnd, hf, hkey, hval, record_eq_line hnul.1 hnul.2,
      flatMap_append, flatMap_singleton]
  · rw [offset_length, ← hf]
    rfl

/-! ### Runs -/

inductive Change
  | put (key val : Text)
  | append (key aval : Text)
  | remove (key : Text)

def Novoht.next (t : Novoht) : Change → Novoht
  | .put key val => (t.put key val).2
  | .append key aval => (t.append key aval).2
  | .remove key => (t.remove key).2

/-- Keys and values without tabs, keys that do not look like marked ones. The removal is not the
one after which the file is rewritten. -/
def Novoht.Allows (t : Novoht) : Change → Prop
  | .put key val => Name key ∧ '\t' ∉ val
  | .append key aval => Name key ∧ '\t' ∉ aval
  | .remove key => Name key ∧ (t.contents key ≠ none → ((t.nRem + 1 : Nat) : Int) ≠ t.magicNumber)

/-- The size and the counters are `int`s behind the change. -/
def Novoht.Fits (t : Novoht) : Change → Prop
  | .put key _ => (t.full t.numEl t.size → t.size * 2 < 2 ^ 31) ∧
      (¬ t.full t.numEl t.size → t.contents key = none → IsInt (t.numEl + 1))
  | .append key _ => t.contents key = none → IsInt (t.numEl + 1)
  | .remove key => t.contents key ≠ none → IsInt (t.numEl - 1) ∧ IsInt (t.nRem + 1)

/-- There is no NUL in what is written, no entry that is appended to, and an entry that is removed
is the first one of its chain. -/
def Novoht.Sound (t : Novoht) : Change → Prop
  | .put key val => '\x00' ∉ key ∧ '\x00' ∉ val
  | .append key aval => t.contents key = none ∧ '\x00' ∉ key ∧ '\x00' ∉ aval
  | .remove key => t.contents key = none ∨
      ((t.kvpairs (Novoht.slot t.size key)).head?.map Kvpair.key) = some key

/-- Changes in any order, after the construction from an empty file and the rewriting that it
starts. -/
def logSystem (filename : Text) (size : Nat) (magicNumber : Int) (full : Int → Nat → Bool)
    (uninit : Text → Bool) :
    Transition Novoht Change where
  init t := ∃ fuel,
    ((Novoht.new filename size magicNumber full uninit (some Tape.empty)).readFile fuel).map
    Novoht.rewriteFile = some t
  step t c t' := t.next c = t'

theorem Novoht.rewriteLoop_empty (chains : List Nat) (f : File) :
    rewriteLoop chains f (fun _ => []) = (f, fun _ => []) := by
  induction chains with
  | nil => rfl
  | cons i chains ih =>
    have hupdate : update (fun _ => [] : SlotTable Kvpair) i [] = fun _ => [] := update_eq_self i _
    rw [rewriteLoop, foldl_cons]
    simp only [rewriteChain, hupdate]
    exact ih

theorem Novoht.readFile_empty (filename : Text) (size : Nat) (magicNumber : Int)
    (full : Int → Nat → Bool)
    (uninit : Text → Bool) (fuel : Nat) :
    ((new filename size magicNumber full uninit (some Tape.empty)).readFile (fuel + 1)).map
      rewriteFile =
      some (new filename size magicNumber full uninit (some Tape.empty)) := by
  have hrewritten :
    ((new filename size magicNumber full uninit (some Tape.empty)).readFile (fuel + 1)).map
      rewriteFile =
      some { new filename size magicNumber full uninit none with
        kvpairs := (rewriteLoop (range size) Tape.empty fun _ => []).2
        dbfile := some (rewriteLoop (range size) Tape.empty fun _ => []).1 } := rfl
  rw [hrewritten, rewriteLoop_empty]
  rfl

theorem logSystem_init {filename : Text} {size : Nat} {magicNumber : Int} {full : Int → Nat → Bool}
    {uninit : Text → Bool}
    {t : Novoht} (h : (logSystem filename size magicNumber full uninit).init t) :
    t = Novoht.new filename size magicNumber full uninit (some Tape.empty) := by
  obtain ⟨fuel, h⟩ := h
  cases fuel with
  | zero => cases h
  | succ fuel =>
    rw [Novoht.readFile_empty] at h
    exact (Option.some.inj h).symm

/-! ### One change -/

namespace Novoht

variable {t : Novoht}

theorem grown_dbfile (t : Novoht) : t.grown.dbfile = t.dbfile := by
  rw [grown]
  split
  · rfl
  · rfl

theorem grown_swapFile (t : Novoht) : t.grown.swapFile = t.swapFile := by
  rw [grown]
  split
  · rfl
  · rfl

theorem append_swapFile (t : Novoht) (k aval : Text) :
    (t.append k aval).2.swapFile = t.swapFile := by
  rw [append]
  split
  · rfl
  · rfl

/-- Nothing is left in the buffer of the file. -/
def Flushed (t : Novoht) : Prop := ∃ f, t.dbfile = some f ∧ f.disk = f.contents

/-- The file is in order, and is not being rewritten. What has reached the disk denotes the table
only if that is the whole file. -/
structure Synced (t : Novoht) : Prop where
  ok : t.Ok
  swapFile : t.swapFile = none
  inOrder : InOrder t.dbfile t.entryOf
  disk : t.Flushed ∨ ∃ f, t.dbfile = some f ∧ denote f.disk ≠ t.contents

theorem Synced.denote_eq (h : t.Synced) :
    ∃ f, t.dbfile = some f ∧ denote f.contents = t.contents := by
  obtain ⟨f, recs, hdb, hf, hlogged⟩ := h.inOrder
  exact ⟨f, hdb, hf ▸ hlogged.denote_eq⟩

/-- `write` flushes. -/
theorem flushed_write {t' : Novoht} (h : InOrder db entries)
    (hdb : t'.dbfile = (logged db p Kvpair.write).1) : t'.Flushed := by
  obtain ⟨f, recs, rfl, -⟩ := h
  exact ⟨_, hdb, rfl⟩

theorem Synced.put (h : t.Synced) (hk : Name k) (hv : '\t' ∉ v) (hnul : '\x00' ∉ k ∧ '\x00' ∉ v) :
    (t.put k v).2.Synced ∧ (t.put k v).2.Flushed := by
  have hinOrder : InOrder t.grown.dbfile t.grown.entryOf := by
    rw [grown_dbfile, entryOf_grown h.ok]
    exact h.inOrder
  have hswap := (grown_swapFile t).trans h.swapFile
  obtain ⟨hok, ⟨hnone, hentry, hdb⟩ | ⟨cur, hcur, hentry, hdb⟩⟩ := store_cases h.ok.grown k v
  · have hwritten := hinOrder.write (p := ⟨k, v, [], t.grown.uninit k⟩) hk hv hnul hnone rfl rfl
    have hflushed := flushed_write hinOrder hdb
    rw [← hdb, ← hentry] at hwritten
    exact ⟨⟨hok, hswap, hwritten, .inl hflushed⟩, hflushed⟩
  · -- the old record is marked first
    have hmarked := hinOrder.mark hcur
    have hwritten := hmarked.write (p := { cur with val := v }) hk hv hnul (update_self ..)
      (key_of_entryOf (p := cur) hcur) rfl
    have hflushed := flushed_write hmarked hdb
    rw [update_idem, ← hdb, ← hentry] at hwritten
    exact ⟨⟨hok, hswap, hwritten, .inl hflushed⟩, hflushed⟩

theorem Synced.append (h : t.Synced) (hk : Name k) (hv : '\t' ∉ v) (hnul : '\x00' ∉ k ∧ '\x00' ∉ v)
    (hnew : t.contents k = none) : (t.append k v).2.Synced ∧ (t.append k v).2.Flushed := by
  obtain ⟨hok, ⟨hnone, hentry, hdb⟩ | ⟨cur, hcur, -, -⟩⟩ := append_cases h.ok k v
  · have hflushed := flushed_write h.inOrder hdb
    refine ⟨⟨hok, (append_swapFile t k v).trans h.swapFile, ?_, .inl hflushed⟩, hflushed⟩
    rw [hdb, hentry]
    exact h.inOrder.write hk hv hnul hnone rfl rfl
  · rw [contents, hcur] at hnew
    cases hnew

/-- An entry that is removed is on the disk still. -/
theorem Synced.remove (h : t.Synced)
    (hmagic : t.contents k ≠ none → ((t.nRem + 1 : Nat) : Int) ≠ t.magicNumber)
    (hfirst : t.contents k = none ∨
      (t.kvpairs (slot t.size k)).head?.map Kvpair.key = some k) :
    (t.remove k).2.Synced ∧ ((t.remove k).2.Flushed ↔ t.contents k = none ∧ t.Flushed) := by
  obtain ⟨hok, ⟨hnone, heq⟩ | ⟨pre, cur, post, hchain, hcur, hentry, heq⟩⟩ := remove_cases h.ok k
  · have hcontents : t.contents k = none := by rw [contents, hnone]; rfl
    rw [heq]
    exact ⟨h, (and_iff_right hcontents).symm⟩
  · have hpresent : t.contents k = some cur.val := by rw [contents, hcur]; rfl
    have hpositions : headPositions (t.kvpairs (slot t.size k)) = cur.positions := by
      obtain hnone | hhead := hfirst
      · rw [hpresent] at hnone
        cases hnone
      · obtain ⟨p, hp, rfl⟩ := Option.map_eq_some_iff.mp hhead
        obtain ⟨rest, hrest⟩ := head?_eq_some_iff.mp hp
        have hchain' : t.kvpairs (slot t.size p.key) = [] ++ p :: rest := hrest
        rw [entryOf_split hchain' not_mem_nil] at hcur
        rw [hrest, Option.some.inj hcur]
        rfl
    have hremoved : t.remove k = (t.rc, t.unlink k (pre ++ post) cur.positions) := by
      rw [heq, hpositions, removeEntry, h.swapFile]
      exact if_neg (hmagic (by rw [hpresent]; exact Option.some_ne_none _))
    have hdb : (t.unlink k (pre ++ post) cur.positions).dbfile =
        t.dbfile.map (mark cur.positions) := by
      rw [unlink, h.swapFile]
      rfl
    rw [hremoved] at hok hentry ⊢
    have hmarked := h.inOrder.mark hcur
    rw [← hdb, ← hentry] at hmarked
    -- the position is set before `mark` writes, so that the disk has the file as it was
    obtain ⟨f, hf, hdenote⟩ := h.denote_eq
    obtain ⟨-, recs, -, -, hlogged⟩ := h.inOrder
    obtain ⟨-, -, i, -, hpos⟩ := hlogged.placed k cur hcur
    have hdb' : (t.unlink k (pre ++ post) cur.positions).dbfile =
        some (mark cur.positions f) := by rw [hdb, hf]; rfl
    have hold : denote (mark cur.positions f).disk = t.contents := by
      rw [hpos]
      exact hdenote
    have hnew : (t.unlink k (pre ++ post) cur.positions).contents k = none := by
      rw [contents, hentry, update_self]
      rfl
    have hne : denote (mark cur.positions f).disk ≠
        (t.unlink k (pre ++ post) cur.positions).contents := by
      intro hsame
      rw [hold] at hsame
      rw [← hsame, hpresent] at hnew
      cases hnew
    have hsynced : (t.unlink k (pre ++ post) cur.positions).Synced :=
      ⟨hok, h.swapFile, hmarked, .inr ⟨_, hdb', hne⟩⟩
    refine ⟨hsynced, iff_of_false ?_ fun hnone => ?_⟩
    · rintro ⟨g, hg, hdisk⟩
      obtain rfl := Option.some.inj (hdb'.symm.trans hg)
      obtain ⟨g, hg, hdenote'⟩ := hsynced.denote_eq
      obtain rfl := Option.some.inj (hdb'.symm.trans hg)
      exact hne (hdisk ▸ hdenote')
    · rw [hpresent] at hnone
      cases hnone.1

theorem Synced.next (h : t.Synced) {c : Change} (hallows : t.Allows c) (hsound : t.Sound c) :
    (t.next c).Synced := by
  cases c with
  | put key val => exact (h.put hallows.1 hallows.2 hsound).1
  | append key aval => exact (h.append hallows.1 hallows.2 hsound.2 hsound.1).1
  | remove key => exact (h.remove hallows.2 hsound).1

/-- **What is left in the buffer**: the removal of an entry, until the next change of one. -/
theorem Synced.flushed_next_iff (h : t.Synced) {c : Change} (hallows : t.Allows c)
    (hsound : t.Sound c) :
    (t.next c).Flushed ↔ ∀ key, c = .remove key → t.contents key = none ∧ t.Flushed := by
  cases c with
  | put key val =>
    exact iff_of_true (h.put hallows.1 hallows.2 hsound).2 fun _ heq => by cases heq
  | append key aval =>
    exact iff_of_true (h.append hallows.1 hallows.2 hsound.2 hsound.1).2 fun _ heq => by cases heq
  | remove key =>
    refine (h.remove hallows.2 hsound).2.trans
      ⟨fun hflushed key' heq => ?_, fun hall => hall key rfl⟩
    cases heq
    exact hflushed

theorem synced_new {size : Nat} (hsize : 0 < size) (filename : Text) (magicNumber : Int)
    (full : Int → Nat → Bool) (uninit : Text → Bool) :
    (new filename size magicNumber full uninit (some Tape.empty)).Synced where
  ok := new_ok hsize ..
  swapFile := rfl
  inOrder := ⟨Tape.empty, [], rfl, rfl, fun _ hr => absurd hr not_mem_nil,
    fun _ _ h => absurd h (Option.some_ne_none _).symm, fun _ hr =>
      absurd hr not_mem_nil, nodup_nil⟩
  disk := .inl ⟨_, rfl, rfl⟩

end Novoht

/-- **The file denotes the table**, in runs whose changes are all sound and in which nothing
overflows. What has reached the disk does so when nothing is left in the buffer, and only then:
the removal of an entry is left there until an entry is put or appended. -/
theorem denote_eq_contents {filename : Text} {size : Nat} (hsize : 0 < size) {magicNumber : Int}
    {full : Int → Nat → Bool} {uninit : Text → Bool} {t : Novoht}
    (h : (logSystem filename size magicNumber full uninit).RunsWith
      (fun t c => t.Allows c ∧ t.Fits c ∧ t.Sound c) t) :
    ∃ f, t.dbfile = some f ∧ denote f.contents = t.contents ∧
      (denote f.disk = t.contents ↔ t.Flushed) ∧
      ∀ c, t.Allows c → t.Fits c → t.Sound c →
        ((t.next c).Flushed ↔ ∀ key, c = .remove key → t.contents key = none ∧ t.Flushed) := by
  have hsynced : t.Synced := by
    refine h.invariant (fun t ht => ?_) fun t c t' ht hok hstep => ?_
    · rw [logSystem_init ht]
      exact Novoht.synced_new hsize ..
    · obtain rfl : t.next c = t' := hstep
      exact ht.next hok.1 hok.2.2
  obtain ⟨f, hf, hdenote⟩ := hsynced.denote_eq
  refine ⟨f, hf, hdenote, ⟨fun hdisk => hsynced.disk.resolve_right ?_, ?_⟩,
    fun c hallows _ hsound => hsynced.flushed_next_iff hallows hsound⟩
  · rintro ⟨g, hg, hne⟩
    obtain rfl := Option.some.inj (hf.symm.trans hg)
    exact hne hdisk
  · rintro ⟨g, hg, hflushed⟩
    obtain rfl := Option.some.inj (hf.symm.trans hg)
    rw [hflushed, hdenote]

instance (k : Text) : Decidable (Name k) :=
  decidable_of_iff (k ≠ [] ∧ '\t' ∉ k ∧ isMarked k = false)
    ⟨fun h => ⟨h.1, h.2.1, h.2.2⟩, fun h => ⟨h.1, h.2, h.3⟩⟩

instance (t : Novoht) : (c : Change) → Decidable (t.Allows c)
  | .put _ _ => inferInstanceAs (Decidable (_ ∧ _))
  | .append _ _ => inferInstanceAs (Decidable (_ ∧ _))
  | .remove _ => inferInstanceAs (Decidable (_ ∧ (_ → _)))

instance (t : Novoht) : (c : Change) → Decidable (t.Fits c)
  | .put _ _ => inferInstanceAs (Decidable ((_ → _) ∧ (_ → _ → _)))
  | .append _ _ => inferInstanceAs (Decidable (_ → _))
  | .remove _ => inferInstanceAs (Decidable (_ → _))

instance (t : Novoht) : (c : Change) → Decidable (t.Sound c)
  | .put _ _ => inferInstanceAs (Decidable (_ ∧ _))
  | .append _ _ => inferInstanceAs (Decidable (_ ∧ _))
  | .remove _ => inferInstanceAs (Decidable (_ ∨ _))

/-- A table of one chain that is never rewritten. -/
def oneChain : Novoht := .new ['f'] 1 0 (fun _ _ => false) (fun _ => false) (some Tape.empty)

theorem oneChain_runsWith (ok : Novoht → Change → Prop) :
    (logSystem ['f'] 1 0 (fun _ _ => false) fun _ => false).RunsWith ok oneChain :=
    .init ⟨1, Novoht.readFile_empty ..⟩

/-- Entries are put, replaced, appended and removed at the front of the chain. -/
theorem denote_eq_contents_oneChain :
    let t := (((oneChain.next (.put ['a'] ['1'])).next (.put ['a'] ['2'])).next
      (.append ['b'] ['3'])).next (.remove ['b'])
    ∃ f, t.dbfile = some f ∧ denote f.contents = t.contents ∧
      (denote f.disk = t.contents ↔ t.Flushed) := by
  have hput : (logSystem ['f'] 1 0 (fun _ _ => false) fun _ => false).RunsWith
      (fun t c => t.Allows c ∧ t.Fits c ∧ t.Sound c)
      ((oneChain.next (.put ['a'] ['1'])).next (.put ['a'] ['2'])) :=
    .step (.step (oneChain_runsWith _) (by decide +kernel) rfl) (by decide +kernel) rfl
  have hrun : (logSystem ['f'] 1 0 (fun _ _ => false) fun _ => false).RunsWith
      (fun t c => t.Allows c ∧ t.Fits c ∧ t.Sound c)
      ((((oneChain.next (.put ['a'] ['1'])).next (.put ['a'] ['2'])).next
        (.append ['b'] ['3'])).next (.remove ['b'])) :=
    .step (.step hput (by decide +kernel) rfl) (by decide +kernel) rfl
  obtain ⟨f, hf, hdenote, hdisk, -⟩ := denote_eq_contents (by decide) hrun
  exact ⟨f, hf, hdenote, hdisk⟩

/-- The record of the first entry is marked, although the second one is removed. -/
theorem removed_behind :
    let t := ((oneChain.next (.put ['a'] ['1'])).next (.put ['b'] ['2'])).next (.remove ['b'])
    (logSystem ['f'] 1 0 (fun _ _ => false) fun _ => false).RunsWith Novoht.Allows t ∧
      t.contents ['a'] = some ['1'] ∧ t.contents ['b'] = none ∧
      ∃ f, t.dbfile = some f ∧ denote f.contents ['a'] = none ∧
        denote f.contents ['b'] = some ['2'] ∧ denote f.disk ['b'] = some ['2'] := by
  refine ⟨.step (.step (.step (oneChain_runsWith _) ?_ rfl) ?_ rfl) ?_ rfl, ?_, ?_,
    ⟨"~\t1\tb\t2\t".toList, "a\t1\tb\t2\t".toList, 1⟩, ?_, ?_, ?_, ?_⟩
  all_goals decide +kernel

end CharmRuntime.Zht
