import Mathlib.Data.List.TakeWhile
import CharmRuntime.Lib.SlotTable
import CharmRuntime.Lib.Tape
import CharmRuntime.Matrix.Store

/-!
# Zht.Novoht

The **hash table with a log file** of ZHT, `novoht.cpp`.

Entries are in chains. A new entry is put at the end of its chain, but `append` puts it at the
front. Every change goes to the file, too: a record, that is key and value, each with a tab behind
it, is written at the end, and `mark` overwrites the first character of an old one. An entry
remembers where its records are. A table without a file, which has the empty file name, does only
the first.

`writeFile` starts to rewrite the file: from then on changes go to a new file, and a thread runs
`rewriteFile`, at whose end the old file is used again. The new one is only open for writing, so
`merge` reads nothing from it.

The size and the counters are `int`s. They are not bounded here, so that what is said of a table is
said of those in which they do not overflow.

The text of a `char` buffer ends at the first NUL (`cstr`); `char` is signed, so that the byte 255
reads as the end of a file. A character of a text is a byte.
-/

namespace CharmRuntime.Zht

open Lib
open CharmRuntime.Matrix (Text numToStr)

/-- What `%s` prints of a string, or what a string made of a `char *` is. -/
def cstr (t : Text) : Text := t.takeWhile (· ≠ '\x00')

theorem cstr_eq_self {t : Text} (h : '\x00' ∉ t) : cstr t = t := by
  refine List.takeWhile_eq_self_iff.mpr fun c hc => ?_
  have hne : c ≠ '\x00' := fun heq => h (heq ▸ hc)
  simpa using hne

theorem cstr_append {t : Text} (h : '\x00' ∉ t) (rest : Text) :
    cstr (t ++ rest) = t ++ cstr rest := by
  refine List.takeWhile_append_of_pos fun c hc => ?_
  have hne : c ≠ '\x00' := fun heq => h (heq ▸ hc)
  simpa using hne

theorem cstr_cut {t : Text} (h : '\x00' ∉ t) (rest : Text) : cstr (t ++ '\x00' :: rest) = t := by
  rw [cstr_append h]
  exact List.append_nil t

theorem nul_notMem_cstr (t : Text) : '\x00' ∉ cstr t := by
  intro h
  simpa using List.mem_takeWhile_imp h

theorem cstr_prefix (pre rest : Text) : cstr (pre ++ '\x00' :: rest) <+: pre := by
  by_cases hnul : '\x00' ∈ pre
  · obtain ⟨l1, -, rfl, hl1⟩ := List.eq_append_cons_of_mem hnul
    rw [List.append_assoc, List.cons_append, cstr_cut hl1]
    exact List.prefix_append _ _
  · exact (cstr_cut hnul rest).symm ▸ List.prefix_refl pre

/-- The value of a signed `char`, as an `unsigned long long`. -/
def signExtend (c : Char) : UInt64 :=
  let byte := c.toNat % 256
  if byte < 128 then UInt64.ofNat byte else UInt64.ofNat (2 ^ 64 - 256 + byte)

/-- The branch for a 4 byte `long long` is compiled: `SIZE_OF_LONG_LONG_INT` is not defined. -/
def fnvHash (k : Text) : UInt64 := k.foldl (fun x c => (x ^^^ signExtend c) * 2166136261) 16777619

structure Kvpair where
  key : Text
  val : Text
  positions : List Nat
  diff : Bool
  deriving DecidableEq, Repr

/-- A `FILE`: its `contents` are what is read from it, with what is still in its buffer. -/
abbrev File := Tape Char

structure Novoht where
  kvpairs : SlotTable Kvpair
  size : Nat
  numEl : Int
  nRem : Nat
  magicNumber : Int
  /-- `numEl >= size * resizeNum` and `resizeNum != 0`, which is computed in floating point. -/
  full : Int → Nat → Bool
  /-- `diff` of a new entry is not initialised. -/
  uninit : Text → Bool
  filename : Text
  dbfile : Option File
  /-- Set while the file is rewritten. -/
  swapFile : Option File

/-! ### The file -/

/-- `fprintf(file, "%s\t%s\t", ..)`. -/
def record (key val : Text) : Text := cstr key ++ '\t' :: (cstr val ++ ['\t'])

/-- What is printed at the position. -/
def File.print (f : File) (t : Text) : File := f.write '\x00' t

def Kvpair.write (p : Kvpair) (f : File) : File × Kvpair :=
  ((File.print f.seekEnd (record p.key p.val)).flush, { p with positions := [f.seekEnd.pos] })

def Kvpair.writeAppend (p : Kvpair) (appendString : Text) (f : File) : File × Kvpair :=
  ((File.print f.seekEnd (record p.key appendString)).flush,
    { p with positions := f.seekEnd.pos :: p.positions })

/-- What is written stays in the buffer. -/
def mark (plist : List Nat) (f : File) :
    File := plist.foldl (fun f pos => File.print (f.seek pos) ['~']) f

def logrm (key : Text) (plist : List Nat) (f : File) : File :=
  File.print f.seekEnd
    ('~' :: cstr key ++ '\t' :: (plist.flatMap fun pos => numToStr pos ++ [',']) ++ ['\t'])

/-- What is done with an entry and the file, if there is one. -/
def logged (db : Option File) (p : Kvpair) (f : Kvpair → File → File × Kvpair) :
    Option File × Kvpair :=
  match db with
  | none => (none, p)
  | some file => (some (f p file).1, (f p file).2)

/-- `fgetc` from what is left, up to a tab: the buffer, if it is not null, and how many characters
were taken. A character that is not stored, since the buffer is full, is lost. -/
def readTab (buffer : Text) : Text → Option Text × Nat
  | [] => (if buffer = [] then none else some buffer, 0)
  | c :: rest =>
    if c = 'ÿ' ∨ 300 ≤ buffer.length then (if buffer = [] then none else some buffer, 1)
    else if c = '\t' then (some buffer, 1)
    else
      let (result, taken) := readTab (buffer ++ [c]) rest
      (result, taken + 1)

def readTabString (f : File) : Option Text × File :=
  let (result, taken) := readTab [] (f.contents.drop f.pos)
  (result, f.skip taken)

namespace Novoht

/-! ### The table -/

def slot (size : Nat) (k : Text) : Nat := (fnvHash k).toNat % size

/-- What `write`, `writeAppend` and `mark` return. -/
def rc (t : Novoht) : Int := if t.dbfile.isNone ∧ t.filename ≠ [] then -2 else 0

def get (t : Novoht) (k : Text) : Option Text :=
  if k = [] then none else ((t.kvpairs (slot t.size k)).find? fun p => p.key = k).map Kvpair.val

def resize (t : Novoht) (ns : Nat) : Novoht :=
  { t with
    size := ns
    numEl := 0
    kvpairs := SlotTable.deal Kvpair.key (slot ns) (SlotTable.elements t.size t.kvpairs) }

/-- The walk through the chain. -/
def putChain (db : Option File) (k v : Text) (diff : Bool) : List Kvpair → Option File × List Kvpair
  | [] =>
    let (db, add) := logged db ⟨k, v, [], diff⟩ Kvpair.write
    (db, [add])
  | cur :: rest =>
    if k = cur.key then
      let (db, cur) := logged (db.map (mark cur.positions)) { cur with val := v } Kvpair.write
      (db, cur :: rest)
    else
      let (db, rest) := putChain db k v diff rest
      (db, cur :: rest)

/-- The table is made larger when it is full. -/
def grown (t : Novoht) : Novoht := if t.full t.numEl t.size then t.resize (t.size * 2) else t

def store (t : Novoht) (k v : Text) : Novoht :=
  let chain := t.kvpairs (slot t.size k)
  let (db, chain') := putChain t.dbfile k v (t.uninit k) chain
  { t with
    kvpairs := Function.update t.kvpairs (slot t.size k) chain'
    numEl := if chain.any (·.key = k) then t.numEl else t.numEl + 1
    dbfile := db }

def put (t : Novoht) (k v : Text) : Int × Novoht := (t.grown.rc, t.grown.store k v)

/-- The walk through the chain, if the key is found. -/
def appendChain (db : Option File) (k aval : Text) :
    List Kvpair → Option (Option File × List Kvpair)
  | [] => none
  | cur :: rest =>
    if k = cur.key then
      let (db, cur) :=
        logged db { cur with val := cur.val ++ ':' :: aval } fun p => p.writeAppend aval
      some (db, cur :: rest)
    else (appendChain db k aval rest).map fun (db, rest) => (db, cur :: rest)

def append (t : Novoht) (k aval : Text) : Int × Novoht :=
  let chain := t.kvpairs (slot t.size k)
  match appendChain t.dbfile k aval chain with
  | some (db, chain) =>
    (t.rc, { t with kvpairs := Function.update t.kvpairs (slot t.size k) chain, dbfile := db })
  | none =>
    let (db, add) := logged t.dbfile ⟨k, aval, [], t.uninit k⟩ Kvpair.write
    (t.rc, { t with
      kvpairs := Function.update t.kvpairs (slot t.size k) (add :: chain)
      numEl := t.numEl + 1
      dbfile := db })

/-! ### Rewriting the file -/

/-- The thread is created. -/
def writeFile (t : Novoht) : Int × Novoht :=
  match t.dbfile with
  | none => (if t.filename = [] then 0 else -2, t)
  | some f =>
    if t.swapFile.isSome then (0, { t with nRem := 0 })
    else (0, { t with swapFile := some f, dbfile := some Tape.empty, nRem := 0 })

def rewriteEntry (f : File) (cur : Kvpair) : File × Kvpair :=
  if cur.key ≠ [] ∧ cur.val ≠ [] ∧ cur.diff = false then
    (f.print (record cur.key cur.val), { cur with positions := [f.pos] })
  else (f, cur)

def rewriteChain (f : File) : List Kvpair → File × List Kvpair
  | [] => (f, [])
  | cur :: rest =>
    let (f, cur) := rewriteEntry f cur
    let (f, rest) := rewriteChain f rest
    (f, cur :: rest)

/-- The loop over the chains, from an empty file. -/
def rewriteLoop (chains : List Nat) (f : File) (b : SlotTable Kvpair) : File × SlotTable Kvpair :=
  chains.foldl (fun (f, b) i =>
    let (f, chain) := rewriteChain f (b i)
    (f, Function.update b i chain)) (f, b)

/-- The thread, with `merge`. -/
def rewriteFile (t : Novoht) : Novoht :=
  match t.swapFile with
  | none => t
  | some _ =>
    let (f, kvpairs) := rewriteLoop (List.range t.size) Tape.empty t.kvpairs
    { t with kvpairs := kvpairs, dbfile := some f, swapFile := none }

/-- It waits for the thread. -/
def writeFileFG (t : Novoht) : Int × Novoht := (t.writeFile.1, t.writeFile.2.rewriteFile)

/-- `chain` is the chain without the entry, `toRem` the positions of the first entry of the chain.
-/
def unlink (t : Novoht) (k : Text) (chain : List Kvpair) (toRem : List Nat) : Novoht :=
  { t with
    kvpairs := Function.update t.kvpairs (slot t.size k) chain
    numEl := t.numEl - 1
    nRem := t.nRem + 1
    dbfile := t.dbfile.map (if t.swapFile.isSome then logrm k toRem else mark toRem) }

/-- The file is rewritten after `magicNumber` removals. -/
def removeEntry (t : Novoht) (k : Text) (chain : List Kvpair) (toRem : List Nat) : Int × Novoht :=
  let ret := if t.swapFile.isSome then 0 else t.rc
  let t := t.unlink k chain toRem
  if (t.nRem : Int) = t.magicNumber then (ret + t.writeFile.1, t.writeFile.2) else (ret, t)

def remove (t : Novoht) (k : Text) : Int × Novoht :=
  match t.kvpairs (slot t.size k) with
  | [] => (-1, t)
  | cur :: rest =>
    if k = cur.key then t.removeEntry k rest cur.positions
    else if rest.any (·.key = k) then t.removeEntry k (cur :: rest.eraseP (·.key = k)) cur.positions
    else (-1, t)

/-! ### Construction -/

/-- The table before the file is read. -/
def new (filename : Text) (size : Nat) (magicNumber : Int) (full : Int → Nat → Bool)
    (uninit : Text → Bool)
    (dbfile : Option File) : Novoht where
  kvpairs _ := []
  size := size
  numEl := 0
  nRem := 0
  magicNumber := magicNumber
  full := full
  uninit := uninit
  filename := filename
  dbfile := dbfile
  swapFile := none

/-- `fuel` bounds the number of rounds. `key[0]` of an empty string is NUL. -/
def readLoop : Nat → Novoht → Option Novoht
  | 0, _ => none
  | fuel + 1, t =>
    match t.dbfile with
    | none => some t
    | some f =>
      match readTabString f with
      | (none, f) => some { t with dbfile := some f }
      | (some s, f) =>
        match readTabString f with
        | (none, f) => some { t with dbfile := some f }
        | (some v, f) =>
          let t := { t with dbfile := some f }
          let key := cstr s
          if key.head? = some '~' then readLoop fuel t else readLoop fuel (t.put key (cstr v)).2

def readFile (fuel : Nat) (t : Novoht) : Option Novoht :=
  if t.dbfile.isNone then some t else (readLoop fuel t).map fun t => t.writeFile.2

end Novoht

end CharmRuntime.Zht
