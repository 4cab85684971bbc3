import CharmRuntime.Zht.Novoht

/-!
# Zht.NovohtMap

`NoVoHT` is a map: `entryOf` is the entry of a key, and `contents` its value. `put`, `append` and
`remove` change it at the key only (`store_cases`, `append_cases`, `remove_cases`), and `resize`
does not change it, in a table that is `Ok`, as every table stays.
-/

namespace CharmRuntime.Zht

open Lib Function List
open CharmRuntime.Matrix (Text)

@[simp]
theorem logged_write_key (db : Option File) (p : Kvpair) :
    (logged db p Kvpair.write).2.key = p.key := by
  cases db <;> rfl

@[simp]
theorem logged_write_val (db : Option File) (p : Kvpair) :
    (logged db p Kvpair.write).2.val = p.val := by
  cases db <;> rfl

@[simp]
theorem logged_writeAppend_key (db : Option File) (p : Kvpair) (aval : Text) :
    (logged db p fun p => p.writeAppend aval).2.key = p.key := by
  cases db <;> rfl

@[simp]
theorem logged_writeAppend_val (db : Option File) (p : Kvpair) (aval : Text) :
    (logged db p fun p => p.writeAppend aval).2.val = p.val := by
  cases db <;> rfl

namespace Novoht

/-! ### Chains -/

/-- The entry of the key is changed in place, or there is none and one is added at the end. -/
theorem putChain_cases (db : Option File) (k v : Text) (diff : Bool) (chain : List Kvpair) :
    (k ∉ chain.map Kvpair.key ∧ putChain db k v diff chain =
        ((logged db ⟨k, v, [], diff⟩ Kvpair.write).1, chain ++
        [(logged db ⟨k, v, [], diff⟩ Kvpair.write).2])) ∨
      ∃ pre cur post, chain = pre ++ cur :: post ∧ k ∉ pre.map Kvpair.key ∧ cur.key = k ∧
        putChain db k v diff chain =
          ((logged (db.map (mark cur.positions)) { cur with val := v } Kvpair.write).1,
            pre ++ (logged (db.map (mark cur.positions)) { cur with val := v } Kvpair.write).2 ::
            post) := by
  induction chain with
  | nil => exact .inl ⟨not_mem_nil, rfl⟩
  | cons cur rest ih =>
    rw [putChain]
    by_cases hk : k = cur.key
    · rw [if_pos hk]
      exact .inr ⟨[], cur, rest, rfl, not_mem_nil, hk.symm, rfl⟩
    · rw [if_neg hk]
      obtain ⟨hrest, heq⟩ | ⟨pre, p, post, rfl, hpre, hkey, heq⟩ := ih
      · refine .inl ⟨by simp [hk, hrest], ?_⟩
        rw [heq]
        rfl
      · refine .inr ⟨cur :: pre, p, post, rfl, by simp [hk, hpre], hkey, ?_⟩
        rw [heq]
        rfl

variable {chain pre post : List Kvpair} {cur : Kvpair} {t' : Novoht} {o : Option Kvpair}

theorem appendChain_eq_none_iff {db : Option File} {k aval : Text} :
    appendChain db k aval chain = none ↔ k ∉ chain.map Kvpair.key := by
  induction chain with
  | nil => simp [appendChain]
  | cons cur rest ih =>
    rw [appendChain]
    by_cases hk : k = cur.key
    · simp [hk]
    · simp [hk, ih]

theorem appendChain_eq_some {db db' : Option File} {k aval : Text} {chain' : List Kvpair}
    (h : appendChain db k aval chain = some (db', chain')) :
    ∃ pre cur post, chain = pre ++ cur :: post ∧ k ∉ pre.map Kvpair.key ∧ cur.key = k ∧
      (db', chain') =
      ((logged db { cur with val := cur.val ++ ':' :: aval } fun p => p.writeAppend aval).1,
        pre ++ (logged db { cur with val := cur.val ++ ':' :: aval } fun p => p.writeAppend aval).2
          :: post) := by
  induction chain generalizing chain' with
  | nil => cases h
  | cons cur rest ih =>
    rw [appendChain] at h
    by_cases hk : k = cur.key
    · rw [if_pos hk] at h
      exact ⟨[], cur, rest, rfl, not_mem_nil, hk.symm, (Option.some.inj h).symm⟩
    · rw [if_neg hk] at h
      obtain ⟨⟨db1, rest'⟩, hrest, heq⟩ := Option.map_eq_some_iff.mp h
      obtain ⟨rfl, rfl⟩ := Prod.mk.inj heq
      obtain ⟨pre, p, post, rfl, hpre, hkey, hres⟩ := ih hrest
      obtain ⟨hdb, hrest'⟩ := Prod.mk.inj hres
      exact ⟨cur :: pre, p, post, rfl, by simp [hk, hpre], hkey, by rw [hdb, hrest', cons_append]⟩

/-! ### The table -/

def entryOf (t : Novoht) : Text → Option Kvpair := SlotTable.find Kvpair.key (slot t.size) t.kvpairs

def contents (t : Novoht) (k : Text) : Option Text := (t.entryOf k).map Kvpair.val

/-- Each entry is in its chain, once. -/
structure Ok (t : Novoht) : Prop where
  size_pos : 0 < t.size
  placed : SlotTable.Placed Kvpair.key (slot t.size) t.kvpairs

theorem get_eq (t : Novoht) (k : Text) : t.get k = if k = [] then none else t.contents k := rfl

theorem slot_lt {size : Nat} (h : 0 < size) (k : Text) : slot size k < size := Nat.mod_lt _ h

variable {t : Novoht} {k : Text}

theorem entryOf_eq_none_iff : t.entryOf k = none ↔ k ∉ (t.kvpairs (slot t.size k)).map Kvpair.key :=
  SlotTable.find?_key_eq_none_iff

theorem entryOf_split (hchain : t.kvpairs (slot t.size cur.key) = pre ++ cur :: post)
    (hpre : cur.key ∉ pre.map Kvpair.key) : t.entryOf cur.key = some cur := by
  rw [entryOf, SlotTable.find, hchain, SlotTable.find?_key_split hpre, if_pos rfl]

theorem key_of_entryOf {p : Kvpair} (h : t.entryOf k = some p) : p.key = k := by
  simpa using find?_some h

theorem contents_eq_of_update (h : t'.entryOf = update t.entryOf k o) :
    t'.contents = update t.contents k (o.map Kvpair.val) := by
  funext k'
  rw [contents, h]
  by_cases hk : k' = k
  · subst hk
    rw [update_self, update_self]
  · rw [update_of_ne hk, update_of_ne hk, contents]

theorem Ok.resize (h : t.Ok) {ns : Nat} (hns : 0 < ns) : (t.resize ns).Ok where
  size_pos := hns
  placed := SlotTable.placed_deal (h.placed.nodup_elements t.size)

theorem entryOf_resize (h : t.Ok) (ns : Nat) : (t.resize ns).entryOf = t.entryOf := by
  funext k
  exact h.placed.find_deal (slot_lt h.size_pos) k

theorem Ok.grown (h : t.Ok) : t.grown.Ok := by
  rw [Novoht.grown]
  split
  · exact h.resize (Nat.mul_pos h.size_pos Nat.two_pos)
  · exact h

theorem entryOf_grown (h : t.Ok) : t.grown.entryOf = t.entryOf := by
  rw [grown]
  split
  · exact entryOf_resize h _
  · rfl

/-! ### Changes of a chain -/

/-- The table after a change of the chain of a key. -/
structure Changed (t : Novoht) (k : Text) (chain : List Kvpair) (t' : Novoht) : Prop where
  size : t'.size = t.size
  kvpairs : t'.kvpairs = update t.kvpairs (slot t.size k) chain

theorem Changed.of_placed (h : Changed t k chain t') (hok : t.Ok)
    (hplaced : SlotTable.Placed Kvpair.key (slot t.size) (update t.kvpairs (slot t.size k) chain) ∧
      SlotTable.find Kvpair.key (slot t.size) (update t.kvpairs (slot t.size k) chain) =
        update t.entryOf k o) :
    t'.Ok ∧ t'.entryOf = update t.entryOf k o := by
  refine ⟨⟨h.size ▸ hok.size_pos, ?_⟩, ?_⟩
  · rw [h.size, h.kvpairs]
    exact hplaced.1
  · rw [entryOf, h.size, h.kvpairs]
    exact hplaced.2

theorem Changed.add {p : Kvpair} (h : Changed t p.key chain t') (hok : t.Ok)
    (hnew : p.key ∉ (t.kvpairs (slot t.size p.key)).map Kvpair.key)
    (hchain : chain = p :: t.kvpairs (slot t.size p.key) ∨
      chain = t.kvpairs (slot t.size p.key) ++ [p]) :
    t'.Ok ∧ t'.entryOf = update t.entryOf p.key (some p) := by
  obtain ⟨pre, post, hold, rfl⟩ : ∃ pre post, t.kvpairs (slot t.size p.key) = pre ++ post ∧
    chain = pre ++ p :: post := by
    obtain rfl | rfl := hchain
    · exact ⟨[], _, rfl, rfl⟩
    · exact ⟨_, [], (append_nil _).symm, rfl⟩
  exact h.of_placed hok (hok.placed.add hnew hold)

theorem Changed.replace {cur' : Kvpair} (h : Changed t cur.key (pre ++ cur' :: post) t')
    (hok : t.Ok)
    (hchain : t.kvpairs (slot t.size cur.key) = pre ++ cur :: post)
    (hpre : cur.key ∉ pre.map Kvpair.key)
    (hkey : cur'.key = cur.key) : t'.Ok ∧ t'.entryOf = update t.entryOf cur.key (some cur') :=
  h.of_placed hok (hok.placed.replace hchain hpre hkey)

theorem Changed.erase (h : Changed t cur.key (pre ++ post) t')
    (hok : t.Ok) (hchain : t.kvpairs (slot t.size cur.key) = pre ++ cur :: post)
    (hpre : cur.key ∉ pre.map Kvpair.key) :
    t'.Ok ∧ t'.entryOf = update t.entryOf cur.key none :=
  h.of_placed hok (hok.placed.erase hchain hpre)

/-! ### The operations -/

/-- What `put` does after the table was made larger: there was no entry, or it is marked and
changed. -/
theorem store_cases (h : t.Ok) (k v : Text) : (t.store k v).Ok ∧ ((t.entryOf k = none ∧
          (t.store k v).entryOf =
          update t.entryOf k (some (logged t.dbfile ⟨k, v, [], t.uninit k⟩ Kvpair.write).2) ∧
          (t.store k v).dbfile = (logged t.dbfile ⟨k, v, [], t.uninit k⟩ Kvpair.write).1) ∨
        ∃ cur, t.entryOf k = some cur ∧ (t.store k v).entryOf = update t.entryOf k
            (some (logged (t.dbfile.map (mark cur.positions)) { cur with val := v } Kvpair.write).2)
              ∧
          (t.store k v).dbfile =
          (logged (t.dbfile.map (mark cur.positions)) { cur with val := v } Kvpair.write).1) := by
  have hchanged :
    Changed t k (putChain t.dbfile k v (t.uninit k) (t.kvpairs (slot t.size k))).2 (t.store k v) :=
    ⟨rfl, rfl⟩
  have hdb : (t.store k v).dbfile =
    (putChain t.dbfile k v (t.uninit k) (t.kvpairs (slot t.size k))).1 := rfl
  obtain ⟨hk, heq⟩ | ⟨pre, cur, post, hchain, hpre, rfl, heq⟩ :=
    putChain_cases t.dbfile k v (t.uninit k) (t.kvpairs (slot t.size k))
  · rw [heq] at hchanged hdb
    generalize hp : logged t.dbfile ⟨k, v, [], t.uninit k⟩ Kvpair.write = added at hchanged hdb ⊢
    obtain rfl : added.2.key = k := by rw [← hp]; simp
    obtain ⟨hok, hentry⟩ := hchanged.add h hk (.inr rfl)
    exact ⟨hok, .inl ⟨entryOf_eq_none_iff.mpr hk, hentry, hdb⟩⟩
  · rw [heq] at hchanged hdb
    obtain ⟨hok, hentry⟩ := hchanged.replace h hchain hpre (by simp)
    exact ⟨hok, .inr ⟨cur, entryOf_split hchain hpre, hentry, hdb⟩⟩

theorem put_ok (h : t.Ok) (k v : Text) :
    (t.put k v).2.Ok ∧ (t.put k v).2.contents = update t.contents k (some v) := by
  obtain ⟨hok, hcases⟩ := store_cases h.grown k v
  refine ⟨hok, ?_⟩
  have hgrown : t.grown.contents = t.contents := by
    funext k'
    rw [contents, entryOf_grown h, contents]
  rw [← hgrown]
  obtain ⟨-, hentry, -⟩ | ⟨cur, -, hentry, -⟩ := hcases
  all_goals exact (contents_eq_of_update hentry).trans (by simp)

theorem Ok.put (h : t.Ok) (k v : Text) : (t.put k v).2.Ok := (put_ok h k v).1

theorem contents_put (h : t.Ok) (k v : Text) :
    (t.put k v).2.contents = update t.contents k (some v) := (put_ok h k v).2

/-- What `append` does: there was no entry, or it is made longer. -/
theorem append_cases (h : t.Ok) (k aval : Text) : (t.append k aval).2.Ok ∧ ((t.entryOf k = none ∧
          (t.append k aval).2.entryOf =
            update t.entryOf k (some (logged t.dbfile ⟨k, aval, [], t.uninit k⟩ Kvpair.write).2) ∧
          (t.append k aval).2.dbfile = (logged t.dbfile ⟨k, aval, [], t.uninit k⟩ Kvpair.write).1) ∨
        ∃ cur, t.entryOf k = some cur ∧ (t.append k aval).2.entryOf = update t.entryOf k
            (some (logged t.dbfile { cur with val := cur.val ++ ':' :: aval } fun p =>
            p.writeAppend aval).2) ∧
          (t.append k aval).2.dbfile =
            (logged t.dbfile { cur with val := cur.val ++ ':' :: aval } fun p =>
            p.writeAppend aval).1) := by
  rw [append]
  cases happend : appendChain t.dbfile k aval (t.kvpairs (slot t.size k)) with
  | none =>
    have hk := appendChain_eq_none_iff.mp happend
    generalize hp : logged t.dbfile ⟨k, aval, [], t.uninit k⟩ Kvpair.write = added
    obtain rfl : added.2.key = k := by rw [← hp]; simp
    have hchanged : Changed t added.2.key (added.2 :: t.kvpairs (slot t.size added.2.key)) { t with
      kvpairs := update t.kvpairs (slot t.size added.2.key)
        (added.2 :: t.kvpairs (slot t.size added.2.key))
      numEl := t.numEl + 1
      dbfile := added.1 } := ⟨rfl, rfl⟩
    obtain ⟨hok, hentry⟩ := hchanged.add h hk (.inl rfl)
    exact ⟨hok, .inl ⟨entryOf_eq_none_iff.mpr hk, hentry, rfl⟩⟩
  | some found =>
    obtain ⟨db, chain⟩ := found
    obtain ⟨pre, cur, post, hchain, hpre, rfl, hres⟩ := appendChain_eq_some happend
    obtain ⟨rfl, rfl⟩ := Prod.mk.inj hres
    generalize hp :
      logged t.dbfile { cur with val := cur.val ++ ':' :: aval } (fun p => p.writeAppend aval) =
      changed
    have hkey : changed.2.key = cur.key := by rw [← hp]; simp
    have hchanged : Changed t cur.key (pre ++ changed.2 :: post) { t with
      kvpairs := update t.kvpairs (slot t.size cur.key) (pre ++ changed.2 :: post)
      dbfile := changed.1 } := ⟨rfl, rfl⟩
    obtain ⟨hok, hentry⟩ := hchanged.replace h hchain hpre hkey
    subst hp
    exact ⟨hok, .inr ⟨cur, entryOf_split hchain hpre, hentry, rfl⟩⟩

/-- What `append` puts into the table. -/
def appended (old : Option Text) (aval : Text) : Text :=
  match old with
  | none => aval
  | some val => val ++ ':' :: aval

theorem append_ok (h : t.Ok) (k aval : Text) : (t.append k aval).2.Ok ∧
      (t.append k aval).2.contents = update t.contents k (some (appended (t.contents k) aval)) := by
  obtain ⟨hok, ⟨hnone, hentry, -⟩ | ⟨cur, hcur, hentry, -⟩⟩ := append_cases h k aval
  · refine ⟨hok, (contents_eq_of_update hentry).trans ?_⟩
    simp [contents, hnone, appended]
  · refine ⟨hok, (contents_eq_of_update hentry).trans ?_⟩
    simp [contents, hcur, appended]

/-- The positions of the first entry of a chain. -/
def headPositions : List Kvpair → List Nat
  | [] => []
  | p :: _ => p.positions

theorem remove_eq (t : Novoht) (k : Text) :
    (k ∉ (t.kvpairs (slot t.size k)).map Kvpair.key ∧ t.remove k = (-1, t)) ∨
      ∃ pre cur post, t.kvpairs (slot t.size k) = pre ++ cur :: post ∧ k ∉ pre.map Kvpair.key ∧
      cur.key = k ∧
        t.remove k = t.removeEntry k (pre ++ post) (headPositions (pre ++ cur :: post)) := by
  rw [remove]
  cases hchain : t.kvpairs (slot t.size k) with
  | nil => exact .inl ⟨not_mem_nil, rfl⟩
  | cons cur rest =>
    by_cases hk : k = cur.key
    · simp only [if_pos hk]
      exact .inr ⟨[], cur, rest, rfl, not_mem_nil, hk.symm, rfl⟩
    · simp only [if_neg hk]
      obtain ⟨hnot, hany⟩ | ⟨pre, a, post, rfl, hpre, ha, hany, herase⟩ :=
        SlotTable.key_cases Kvpair.key k rest
      · refine .inl ⟨?_, if_neg hany⟩
        rw [map_cons, mem_cons, not_or]
        exact ⟨hk, hnot⟩
      · refine .inr ⟨cur :: pre, a, post, rfl, ?_, ha, ?_⟩
        · rw [map_cons, mem_cons, not_or]
          exact ⟨hk, hpre⟩
        · rw [if_pos hany, herase]
          rfl

@[simp]
theorem writeFile_kvpairs (t : Novoht) : t.writeFile.2.kvpairs = t.kvpairs := by
  rw [writeFile]
  split
  · rfl
  · split <;> rfl

@[simp]
theorem writeFile_size (t : Novoht) : t.writeFile.2.size = t.size := by
  rw [writeFile]
  split
  · rfl
  · split <;> rfl

theorem changed_removeEntry (t : Novoht) (k : Text) (chain : List Kvpair) (toRem : List Nat) :
    Changed t k chain (t.removeEntry k chain toRem).2 := by
  rw [removeEntry]
  split
  · exact ⟨writeFile_size _, writeFile_kvpairs _⟩
  · exact ⟨rfl, rfl⟩

/-- What `remove` does: there is no entry, or it is taken out, and the positions of the first entry
of its chain are used. -/
theorem remove_cases (h : t.Ok) (k : Text) : (t.remove k).2.Ok ∧
      ((t.entryOf k = none ∧ t.remove k = (-1, t)) ∨
        ∃ pre cur post, t.kvpairs (slot t.size k) = pre ++ cur :: post ∧ t.entryOf k = some cur ∧
          (t.remove k).2.entryOf = update t.entryOf k none ∧
          t.remove k = t.removeEntry k (pre ++ post)
            (headPositions (t.kvpairs (slot t.size k)))) := by
  obtain ⟨hk, heq⟩ | ⟨pre, cur, post, hchain, hpre, rfl, heq⟩ := remove_eq t k
  · rw [heq]
    exact ⟨h, .inl ⟨entryOf_eq_none_iff.mpr hk, rfl⟩⟩
  · obtain ⟨hok, hentry⟩ :=
      (changed_removeEntry t cur.key (pre ++ post) (headPositions (pre ++ cur :: post))).erase
        h hchain hpre
    rw [heq, hchain]
    exact ⟨hok, .inr ⟨pre, cur, post, rfl, entryOf_split hchain hpre, hentry, rfl⟩⟩

theorem remove_ok (h : t.Ok) (k : Text) :
    (t.remove k).2.Ok ∧ (t.remove k).2.contents = update t.contents k none := by
  obtain ⟨hok, ⟨hnone, heq⟩ | ⟨-, -, -, -, -, hentry, -⟩⟩ := remove_cases h k
  · refine ⟨hok, ?_⟩
    rw [heq, update_eq_self_iff.mpr]
    rw [contents, hnone]
    rfl
  · exact ⟨hok, contents_eq_of_update hentry⟩

/-! ### The file is rewritten -/

/-- What of an entry belongs to the map. -/
def entry (p : Kvpair) : Text × Text := (p.key, p.val)

theorem entry_rewriteEntry (f : File) (cur : Kvpair) :
    entry (rewriteEntry f cur).2 = entry cur := by
  rw [rewriteEntry]
  split
  · rfl
  · rfl

theorem rewriteChain_entries (f : File) (chain : List Kvpair) :
    (rewriteChain f chain).2.map entry = chain.map entry := by
  induction chain generalizing f with
  | nil => rfl
  | cons cur rest ih =>
    rw [rewriteChain, map_cons, map_cons, ih, entry_rewriteEntry]

theorem rewriteLoop_entries (chains : List Nat) (f : File) (b : SlotTable Kvpair) (i : Nat) :
    ((rewriteLoop chains f b).2 i).map entry = (b i).map entry := by
  induction chains generalizing f b with
  | nil => rfl
  | cons j chains ih =>
    refine (ih _ _).trans ?_
    by_cases hi : i = j
    · subst hi
      exact (congrArg _ (update_self ..)).trans (rewriteChain_entries f (b i))
    · exact congrArg _ (update_of_ne hi ..)

theorem map_key_of_map_entry {chain' : List Kvpair} (h : chain'.map entry = chain.map entry) :
    chain'.map Kvpair.key = chain.map Kvpair.key := by
  have hfst : ∀ l : List Kvpair, l.map Kvpair.key = (l.map entry).map Prod.fst := fun l => by
    rw [map_map]
    rfl
  rw [hfst, hfst, h]

theorem Ok.of_entries (h : t.Ok) (hsize : t'.size = t.size)
    (hentries : ∀ i, (t'.kvpairs i).map entry = (t.kvpairs i).map entry) : t'.Ok where
  size_pos := hsize ▸ h.size_pos
  placed := by
    rw [hsize]
    refine ⟨fun i p hp => ?_, fun i => ?_⟩
    · have hkey : p.key ∈ (t.kvpairs i).map Kvpair.key := by
        rw [← map_key_of_map_entry (hentries i)]
        exact mem_map_of_mem hp
      obtain ⟨p', hp', heq⟩ := mem_map.mp hkey
      rw [← heq]
      exact h.placed.slot_eq i p' hp'
    · rw [map_key_of_map_entry (hentries i)]
      exact h.placed.nodup i

theorem contents_of_entries (hsize : t'.size = t.size)
    (hentries : ∀ i, (t'.kvpairs i).map entry = (t.kvpairs i).map entry) :
    t'.contents = t.contents := by
  have hvalue : ∀ (l : List Kvpair) (k : Text),
      (l.find? fun p => p.key = k).map Kvpair.val = ((l.map entry).find? fun p => p.1 = k).map
        Prod.snd := fun l k => by
    rw [find?_map, Option.map_map]
    rfl
  funext k
  rw [contents, entryOf, SlotTable.find, hsize, hvalue, hentries, ← hvalue]
  rfl

theorem rewriteFile_entries (t : Novoht) :
    t.rewriteFile.size = t.size ∧ ∀ i, (t.rewriteFile.kvpairs i).map entry =
    (t.kvpairs i).map entry := by
  rw [rewriteFile]
  split
  · exact ⟨rfl, fun _ => rfl⟩
  · exact ⟨rfl, rewriteLoop_entries _ _ _⟩

theorem writeFileFG_ok (h : t.Ok) : t.writeFileFG.2.Ok ∧ t.writeFileFG.2.contents = t.contents := by
  obtain ⟨hsize, hentries⟩ := rewriteFile_entries t.writeFile.2
  rw [writeFile_size] at hsize
  simp only [writeFile_kvpairs] at hentries
  exact ⟨h.of_entries hsize hentries, contents_of_entries hsize hentries⟩

/-! ### Construction -/

theorem new_ok {size : Nat} (hsize : 0 < size) (filename : Text) (magicNumber : Int)
    (full : Int → Nat → Bool)
    (uninit : Text → Bool) (dbfile : Option File) :
    (new filename size magicNumber full uninit dbfile).Ok :=
  ⟨hsize, SlotTable.placed_empty⟩

theorem Ok.with_dbfile (h : t.Ok) (db : Option File) : Novoht.Ok { t with dbfile := db } :=
  ⟨h.size_pos, h.placed⟩

theorem readLoop_ok {fuel : Nat} (h : t.Ok) (hread : readLoop fuel t = some t') : t'.Ok := by
  induction fuel generalizing t with
  | zero => cases hread
  | succ fuel ih =>
    rw [readLoop] at hread
    split at hread
    · exact Option.some.inj hread ▸ h
    · split at hread
      · exact Option.some.inj hread ▸ h.with_dbfile _
      · split at hread
        · exact Option.some.inj hread ▸ h.with_dbfile _
        · simp only at hread
          split at hread
          · exact ih (h.with_dbfile _) hread
          · exact ih ((h.with_dbfile _).put _ _) hread

theorem readFile_ok {fuel : Nat} (h : t.Ok) (hread : readFile fuel t = some t') : t'.Ok := by
  rw [readFile] at hread
  split at hread
  · exact Option.some.inj hread ▸ h
  · obtain ⟨t1, hloop, rfl⟩ := Option.map_eq_some_iff.mp hread
    exact (readLoop_ok h hloop).of_entries (writeFile_size t1) fun i => by rw [writeFile_kvpairs]

end Novoht

end CharmRuntime.Zht
