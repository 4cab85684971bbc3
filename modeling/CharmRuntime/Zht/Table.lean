import CharmRuntime.Lib.CInt
import CharmRuntime.Zht.NovohtMap
import Mathlib.Algebra.Order.Ring.Rat

/-!
# Zht.Table

The hash table of `novoht.cpp` **without what is in its file**: for any hash function and any
ratio, which is a rational number here. Of the file only what the results depend on is left:
whether there is one, and whether it is being rewritten.

The size and the counters are `int`s, and a call in which one of them overflows has no result
(`none`). The comparison that decides whether the table is full is one of `float`s, rounded as
the machine does it.

`Table.run` runs a sequence of calls; `tableSpec` says what a map does with them.
-/

namespace CharmRuntime.Zht

open Lib Function List
open CharmRuntime.Matrix (Text)

structure Entry where
  key : Text
  val : Text
  deriving DecidableEq, Repr

structure Table where
  kvpairs : SlotTable Entry
  size : Nat
  numEl : Int
  nRem : Nat
  magicNumber : Int
  resizeNum : Rat
  /-- How the machine rounds a `float`. -/
  rounding : FloatRounding
  filename : Text
  /-- It is not NULL. -/
  dbfile : Bool
  rewriting : Bool

namespace Table

variable (hash : Text → Nat)

def slot (size : Nat) (k : Text) : Nat := hash k % size

/-- What `write`, `writeAppend` and `mark` return. -/
def rc (t : Table) : Int := if t.dbfile = false ∧ t.filename ≠ [] then -2 else 0

/-- `initialize`, for a file that does not exist or cannot be opened. -/
def new (filename : Text) (dbfile : Bool) (size : Nat) (magicNumber : Int) (resizeNum : Rat)
    (rounding : FloatRounding) : Table where
  kvpairs _ := []
  size := size
  numEl := 0
  nRem := 0
  magicNumber := magicNumber
  resizeNum := resizeNum
  rounding := rounding
  filename := filename
  dbfile := dbfile
  rewriting := false

def get (t : Table) (k : Text) : Option Text :=
  if k = [] then none else ((t.kvpairs (slot hash t.size k)).find? fun p => p.key = k).map Entry.val

def getSize (t : Table) : Int := t.numEl

def resize (t : Table) (ns : Nat) : Table :=
  { t with
    size := ns
    numEl := 0
    kvpairs := SlotTable.deal Entry.key (slot hash ns) (SlotTable.elements t.size t.kvpairs) }

/-- `numEl >= size * resizeNum`, and there is a ratio. The `int`s are converted to `float`. -/
def Full (t : Table) : Prop :=
  t.rounding.round (t.rounding.round t.size * t.resizeNum) ≤ t.rounding.round t.numEl ∧
    t.resizeNum ≠ 0

instance (t : Table) : Decidable t.Full := inferInstanceAs (Decidable (_ ∧ _))

/-- A full table is made larger, if `size * 2` is an `int`. -/
def grown (t : Table) : Option Table :=
  if t.Full then if t.size * 2 < 2 ^ 31 then some (t.resize hash (t.size * 2)) else none
  else some t

/-- `numEl++` and `numEl--`. -/
def count (t : Table) (added : Int) : Option Table :=
  (checkedInt (t.numEl + added)).map fun numEl => { t with numEl := numEl }

/-- The walk through the chain. -/
def putChain (k v : Text) : List Entry → List Entry
  | [] => [⟨k, v⟩]
  | cur :: rest => if k = cur.key then { cur with val := v } :: rest else cur :: putChain k v rest

def store (t : Table) (k v : Text) : Option Table :=
  let chain := t.kvpairs (slot hash t.size k)
  let t : Table := { t with kvpairs := update t.kvpairs (slot hash t.size k) (putChain k v chain) }
  if chain.any (·.key = k) then some t else t.count 1

def put (t : Table) (k v : Text) : Option (Int × Table) := do
  let u ← t.grown hash
  let u ← u.store hash k v
  return (t.rc, u)

/-- The walk through the chain, if the key is found. -/
def appendChain (k aval : Text) : List Entry → Option (List Entry)
  | [] => none
  | cur :: rest =>
    if k = cur.key then some ({ cur with val := cur.val ++ ':' :: aval } :: rest)
    else (appendChain k aval rest).map (cur :: ·)

def append (t : Table) (k aval : Text) : Option (Int × Table) :=
  let chain := t.kvpairs (slot hash t.size k)
  match appendChain k aval chain with
  | some chain => some (t.rc, { t with kvpairs := update t.kvpairs (slot hash t.size k) chain })
  | none =>
    let t : Table :=
      { t with kvpairs := update t.kvpairs (slot hash t.size k) (⟨k, aval⟩ :: chain) }
    (t.count 1).map fun u => (t.rc, u)

/-- `created` is what `pthread_create` returns if it is called. -/
def writeFile (t : Table) (created : Nat) : Int × Table :=
  if t.dbfile = false then (if t.filename = [] then 0 else -2, t)
  else if t.rewriting then (0, { t with nRem := 0 })
  else (created, { t with rewriting := created = 0, nRem := 0 })

/-- What `logrm` or `mark` returns. -/
def removeRc (t : Table) : Int := if t.rewriting then 0 else t.rc

/-- `nRem++`, and what follows it. -/
def countRem (t : Table) (ret : Int) (created : Nat) : Option (Int × Table) := do
  let nRem ← checkedInt (t.nRem + 1)
  let t : Table := { t with nRem := t.nRem + 1 }
  if nRem = t.magicNumber then
    return (ret + (t.writeFile created).1, (t.writeFile created).2)
  else return (ret, t)

def removeEntry (t : Table) (k : Text) (chain : List Entry) (created : Nat) :
    Option (Int × Table) := do
  let kvpairs := update t.kvpairs (slot hash t.size k) chain
  let u ← Table.count { t with kvpairs := kvpairs } (-1)
  u.countRem t.removeRc created

def remove (t : Table) (k : Text) (created : Nat) : Option (Int × Table) :=
  match t.kvpairs (slot hash t.size k) with
  | [] => some (-1, t)
  | cur :: rest =>
    if k = cur.key then t.removeEntry hash k rest created
    else if rest.any (·.key = k) then
      t.removeEntry hash k (cur :: rest.eraseP (·.key = k)) created
    else some (-1, t)

end Table

/-! ### Runs of calls -/

/-- A call, or the end of the thread that rewrites the file. -/
inductive TableOp
  | put (k v : Text)
  | append (k aval : Text)
  | remove (k : Text) (created : Nat)
  | rewritten

def Table.step (hash : Text → Nat) (t : Table) : TableOp → Option Table
  | .put k v => (t.put hash k v).map Prod.snd
  | .append k aval => (t.append hash k aval).map Prod.snd
  | .remove k created => (t.remove hash k created).map Prod.snd
  | .rewritten => some (if t.rewriting then { t with dbfile := true, rewriting := false } else t)

def Table.run (hash : Text → Nat) (t : Table) (ops : List TableOp) : Option Table :=
  ops.foldlM (Table.step hash) t

/-- What a call does to a map. -/
def tableSpec (m : Text → Option Text) : TableOp → Text → Option Text
  | .put k v => update m k (some v)
  | .append k aval => update m k (some (Novoht.appended (m k) aval))
  | .remove k _ => update m k none
  | .rewritten => m

/-! ### Chains -/

namespace Table

theorem putChain_cases (k v : Text) (chain : List Entry) :
    (k ∉ chain.map Entry.key ∧ putChain k v chain = chain ++ [⟨k, v⟩]) ∨
      ∃ pre cur post, chain = pre ++ cur :: post ∧ k ∉ pre.map Entry.key ∧ cur.key = k ∧
        putChain k v chain = pre ++ { cur with val := v } :: post := by
  induction chain with
  | nil => exact .inl ⟨not_mem_nil, rfl⟩
  | cons cur rest ih =>
    rw [putChain]
    by_cases hk : k = cur.key
    · rw [if_pos hk]
      exact .inr ⟨[], cur, rest, rfl, not_mem_nil, hk.symm, rfl⟩
    · rw [if_neg hk]
      obtain ⟨hrest, heq⟩ | ⟨pre, p, post, rfl, hpre, hkey, heq⟩ := ih
      · exact .inl ⟨by simp [hk, hrest], by rw [heq, cons_append]⟩
      · exact .inr ⟨cur :: pre, p, post, rfl, by simp [hk, hpre], hkey, by rw [heq, cons_append]⟩

theorem appendChain_eq_none_iff {k aval : Text} {chain : List Entry} :
    appendChain k aval chain = none ↔ k ∉ chain.map Entry.key := by
  induction chain with
  | nil => simp [appendChain]
  | cons cur rest ih =>
    rw [appendChain]
    by_cases hk : k = cur.key
    · simp [hk]
    · simp [hk, ih]

theorem appendChain_eq_some {k aval : Text} {chain chain' : List Entry}
    (h : appendChain k aval chain = some chain') :
    ∃ pre cur post, chain = pre ++ cur :: post ∧ k ∉ pre.map Entry.key ∧ cur.key = k ∧
      chain' = pre ++ { cur with val := cur.val ++ ':' :: aval } :: post := by
  induction chain generalizing chain' with
  | nil => cases h
  | cons cur rest ih =>
    rw [appendChain] at h
    by_cases hk : k = cur.key
    · rw [if_pos hk] at h
      exact ⟨[], cur, rest, rfl, not_mem_nil, hk.symm, (Option.some.inj h).symm⟩
    · rw [if_neg hk] at h
      obtain ⟨rest', hrest, rfl⟩ := Option.map_eq_some_iff.mp h
      obtain ⟨pre, p, post, rfl, hpre, hkey, rfl⟩ := ih hrest
      exact ⟨cur :: pre, p, post, rfl, by simp [hk, hpre], hkey, rfl⟩

/-- `remove` looks at the first entry of a chain and at the others in different ways, but takes out
the one with the key. -/
theorem remove_eq (hash : Text → Nat) (t : Table) (k : Text) (created : Nat) :
    (k ∉ (t.kvpairs (slot hash t.size k)).map Entry.key ∧ t.remove hash k created = some (-1, t)) ∨
      ∃ pre cur post, t.kvpairs (slot hash t.size k) = pre ++ cur :: post ∧ k ∉ pre.map Entry.key ∧
      cur.key = k ∧
        t.remove hash k created = t.removeEntry hash k (pre ++ post) created := by
  rw [remove]
  cases hchain : t.kvpairs (slot hash t.size k) with
  | nil => exact .inl ⟨not_mem_nil, rfl⟩
  | cons cur rest =>
    by_cases hk : k = cur.key
    · simp only [if_pos hk]
      exact .inr ⟨[], cur, rest, rfl, not_mem_nil, hk.symm, rfl⟩
    · simp only [if_neg hk]
      obtain ⟨hnot, hany⟩ | ⟨pre, a, post, rfl, hpre, ha, hany, herase⟩ :=
        SlotTable.key_cases Entry.key k rest
      · refine .inl ⟨?_, if_neg hany⟩
        rw [map_cons, mem_cons, not_or]
        exact ⟨hk, hnot⟩
      · refine .inr ⟨cur :: pre, a, post, rfl, ?_, ha, ?_⟩
        · rw [map_cons, mem_cons, not_or]
          exact ⟨hk, hpre⟩
        · rw [if_pos hany, herase]
          rfl

/-! ### Tables in order -/

variable {hash : Text → Nat} {t : Table} {k : Text}

/-- Each entry is in its chain, once. -/
structure Ok (hash : Text → Nat) (t : Table) : Prop where
  size_pos : 0 < t.size
  placed : SlotTable.Placed Entry.key (slot hash t.size) t.kvpairs

def entryOf (hash : Text → Nat) (t : Table) : Text → Option Entry :=
  SlotTable.find Entry.key (slot hash t.size) t.kvpairs

def contents (hash : Text → Nat) (t : Table) (k : Text) :
    Option Text := (t.entryOf hash k).map Entry.val

/-- The number of entries. -/
def entryCount (t : Table) : Nat := (SlotTable.elements t.size t.kvpairs).length

theorem slot_lt {size : Nat} (h : 0 < size) (k : Text) : slot hash size k < size := Nat.mod_lt _ h

theorem entryOf_eq_none_iff :
    t.entryOf hash k = none ↔ k ∉ (t.kvpairs (slot hash t.size k)).map Entry.key :=
  SlotTable.find?_key_eq_none_iff

theorem entryOf_split {pre post : List Entry} {cur : Entry}
    (hchain : t.kvpairs (slot hash t.size cur.key) = pre ++ cur :: post)
    (hpre : cur.key ∉ pre.map Entry.key) :
    t.entryOf hash cur.key = some cur := by
  rw [entryOf, SlotTable.find, hchain, SlotTable.find?_key_split hpre, if_pos rfl]

theorem contents_of_entryOf {t' : Table} {o : Option Entry}
    (h : t'.entryOf hash = update (t.entryOf hash) k o) :
    t'.contents hash = update (t.contents hash) k (o.map Entry.val) := by
  funext k'
  rw [contents, h]
  by_cases hk : k' = k
  · subst hk
    rw [update_self, update_self]
  · rw [update_of_ne hk, update_of_ne hk, contents]

/-- What a change of a chain does: the entry of a key is another one now, and `added` is how many
more entries there are, and are counted. -/
structure Changed (hash : Text → Nat) (t : Table) (k : Text) (o : Option Entry) (added : Int)
    (t' : Table) : Prop where
  ok : t'.Ok hash
  size : t'.size = t.size
  resizeNum : t'.resizeNum = t.resizeNum
  rounding : t'.rounding = t.rounding
  numEl : t'.numEl = t.numEl + added
  entryOf : t'.entryOf hash = update (t.entryOf hash) k o
  count : (t'.entryCount : Int) = t.entryCount + added

theorem Changed.contents {o : Option Entry} {added : Int} {t' : Table}
    (h : Changed hash t k o added t') :
    t'.contents hash = update (t.contents hash) k (o.map Entry.val) := contents_of_entryOf h.entryOf

/-- What the changes of a chain write. -/
structure Written (hash : Text → Nat) (t : Table) (k : Text) (chain : List Entry) (added : Int)
    (t' : Table) : Prop where
  size : t'.size = t.size
  resizeNum : t'.resizeNum = t.resizeNum
  rounding : t'.rounding = t.rounding
  numEl : t'.numEl = t.numEl + added
  kvpairs : t'.kvpairs = update t.kvpairs (slot hash t.size k) chain

theorem Written.changed {t' : Table} {chain : List Entry} {o : Option Entry} {added : Int}
    (hw : Written hash t k chain added t') (hok : t.Ok hash)
    (hadded : (chain.length : Int) = (t.kvpairs (slot hash t.size k)).length + added)
    (h : SlotTable.Placed Entry.key (slot hash t.size)
      (update t.kvpairs (slot hash t.size k) chain) ∧
      SlotTable.find Entry.key (slot hash t.size) (update t.kvpairs (slot hash t.size k) chain) =
        update (t.entryOf hash) k o) :
    Changed hash t k o added t' := by
  have hlength :=
    SlotTable.length_elements_update (b := t.kvpairs) (@slot_lt hash _ hok.size_pos k) chain
  refine ⟨⟨hw.size ▸ hok.size_pos, ?_⟩, hw.size, hw.resizeNum, hw.rounding, hw.numEl, ?_, ?_⟩
  · rw [hw.size, hw.kvpairs]
    exact h.1
  · rw [entryOf, hw.size, hw.kvpairs]
    exact h.2
  · rw [entryCount, entryCount, hw.size, hw.kvpairs]
    omega

theorem Written.add {t' : Table} {p : Entry} {pre post : List Entry}
    (hw : Written hash t p.key (pre ++ p :: post) 1 t') (hok : t.Ok hash)
    (hnew : p.key ∉ (t.kvpairs (slot hash t.size p.key)).map Entry.key)
    (hold : t.kvpairs (slot hash t.size p.key) = pre ++ post) :
    Changed hash t p.key (some p) 1 t' := by
  refine hw.changed hok ?_ (hok.placed.add hnew hold)
  rw [hold, length_append, length_append, length_cons]
  omega

theorem Written.replace {t' : Table} {p p' : Entry} {pre post : List Entry}
    (hw : Written hash t p.key (pre ++ p' :: post) 0 t') (hok : t.Ok hash)
    (hold : t.kvpairs (slot hash t.size p.key) = pre ++ p :: post)
    (hpre : p.key ∉ pre.map Entry.key)
    (hkey : p'.key = p.key) : Changed hash t p.key (some p') 0 t' := by
  refine hw.changed hok ?_ (hok.placed.replace hold hpre hkey)
  rw [hold, length_append, length_append, length_cons, length_cons]
  omega

theorem Written.erase {t' : Table} {p : Entry} {pre post : List Entry}
    (hw : Written hash t p.key (pre ++ post) (-1) t') (hok : t.Ok hash)
    (hold : t.kvpairs (slot hash t.size p.key) = pre ++ p :: post)
    (hpre : p.key ∉ pre.map Entry.key) :
    Changed hash t p.key none (-1) t' := by
  refine hw.changed hok ?_ (hok.placed.erase hold hpre)
  rw [hold, length_append, length_append, length_cons]
  omega

end Table

end CharmRuntime.Zht
