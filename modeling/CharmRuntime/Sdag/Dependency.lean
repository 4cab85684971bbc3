import Mathlib.Data.List.FinRange
import CharmRuntime.Lib.Demand
import CharmRuntime.Lib.Transition

/-!
# Sdag.Dependency

**When clauses that wait for messages.** `SDAG::Dependency` holds the messages that arrived, by
entry method, and the continuations that wait, by when clause. A continuation has positions: each
asks for a message of an entry method, those of `entries` for one with a reference number, too.

`tryFindContinuation` takes the first continuation for whose positions `tryFindMessage` finds
messages, for each position without regard to the others: `searchBufferedMatching` passes no
`ignore` set. That a continuation is `Ready` in this sense does not mean that there are different
messages for its positions (`Satisfiable`). It does where it has as many messages as it needs
(`Ample`); that this is the exact condition is `satisfiable_iff_ample`.

Pointers are numbers. Entries and when clauses are in the range of the vectors that they index, and
a continuation has a reference number for each of its entries, as the assertion in the source says.
-/

namespace CharmRuntime.Sdag

open Lib

variable {numEntries numWhens : Nat}

/-- `obj` is the address. -/
structure Buffer (numEntries : Nat) where
  obj : Nat
  entry : Fin numEntries
  refnum : Nat
deriving DecidableEq, Repr

/-- The closures and the speculation index of a continuation are left out. -/
structure Continuation (numEntries numWhens : Nat) where
  obj : Nat
  whenID : Fin numWhens
  entries : List (Fin numEntries)
  refnums : List Nat
  anyEntries : List (Fin numEntries)
  refnums_size : refnums.length = entries.length
deriving DecidableEq

structure Dependency (numEntries numWhens : Nat) where
  entryToWhen : Fin numEntries → List (Fin numWhens)
  whenToContinuation : Fin numWhens → List (Continuation numEntries numWhens)
  buffer : Fin numEntries → List (Buffer numEntries)

namespace Dependency

def new (numEntries numWhens : Nat) : Dependency numEntries numWhens where
  entryToWhen _ := []
  whenToContinuation _ := []
  buffer _ := []

def addDepends (d : Dependency numEntries numWhens) (whenID : Fin numWhens)
    (entry : Fin numEntries) :
    Dependency numEntries numWhens :=
  { d with entryToWhen := Function.update d.entryToWhen entry (d.entryToWhen entry ++ [whenID]) }

def reg (d : Dependency numEntries numWhens) (c : Continuation numEntries numWhens) :
    Dependency numEntries numWhens :=
  { d with
    whenToContinuation :=
      Function.update d.whenToContinuation c.whenID (d.whenToContinuation c.whenID ++ [c]) }

/-- `list::remove` takes every occurrence. -/
def dereg (d : Dependency numEntries numWhens) (c : Continuation numEntries numWhens) :
    Dependency numEntries numWhens :=
  { d with
    whenToContinuation :=
      Function.update d.whenToContinuation c.whenID ((d.whenToContinuation c.whenID).filter (· ≠ c))
        }

/-- `obj` is the address of the new buffer. -/
def pushBuffer (d : Dependency numEntries numWhens) (obj : Nat) (entry : Fin numEntries)
    (refnum : Nat) :
    Dependency numEntries numWhens :=
  { d with buffer := Function.update d.buffer entry (d.buffer entry ++ [⟨obj, entry, refnum⟩]) }

def removeMessage (d : Dependency numEntries numWhens) (buf : Buffer numEntries) :
    Dependency numEntries numWhens :=
  { d with buffer := Function.update d.buffer buf.entry ((d.buffer buf.entry).filter (· ≠ buf)) }

/-- `ignore` may be null. -/
def tryFindMessage (d : Dependency numEntries numWhens) (entry : Fin numEntries) (hasRef : Bool)
    (refnum : Nat)
    (ignore : Option (List (Buffer numEntries))) : Option (Buffer numEntries) :=
  (d.buffer entry).find? fun buf =>
    (!hasRef || buf.refnum = refnum) && (match ignore with
      | none => true
      | some bufs => !bufs.contains buf)

def searchBufferedMatching (d : Dependency numEntries numWhens)
    (t : Continuation numEntries numWhens) : Bool :=
  (t.entries.zip t.refnums).all (fun p => (d.tryFindMessage p.1 true p.2 none).isSome) &&
    t.anyEntries.all fun entry => (d.tryFindMessage entry false 0 none).isSome

/-- The continuation, if one is found, and what is left. -/
def tryFindContinuation (d : Dependency numEntries numWhens) (entry : Fin numEntries) :
    Option (Continuation numEntries numWhens) × Dependency numEntries numWhens :=
  match (d.entryToWhen entry).findSome? fun whenID => (d.whenToContinuation whenID).find?
    d.searchBufferedMatching with
  | none => (none, d)
  | some c => (some c, d.dereg c)

end Dependency

/-! ### Runs -/

inductive Event (numEntries numWhens : Nat)
  | addDepends (whenID : Fin numWhens) (entry : Fin numEntries)
  | reg (c : Continuation numEntries numWhens)
  | dereg (c : Continuation numEntries numWhens)
  | pushBuffer (entry : Fin numEntries) (refnum : Nat)
  | removeMessage (buf : Buffer numEntries)
  | tryFindContinuation (entry : Fin numEntries)

/-- A dependency object, and how many buffers were allocated. -/
structure World (numEntries numWhens : Nat) where
  dep : Dependency numEntries numWhens
  allocated : Nat

def World.next (w : World numEntries numWhens) :
    Event numEntries numWhens → World numEntries numWhens
  | .addDepends whenID entry => { w with dep := w.dep.addDepends whenID entry }
  | .reg c => { w with dep := w.dep.reg c }
  | .dereg c => { w with dep := w.dep.dereg c }
  | .pushBuffer entry refnum => ⟨w.dep.pushBuffer w.allocated entry refnum, w.allocated + 1⟩
  | .removeMessage buf => { w with dep := w.dep.removeMessage buf }
  | .tryFindContinuation entry => { w with dep := (w.dep.tryFindContinuation entry).2 }

/-- The calls, in any order. -/
def dependencySystem (numEntries numWhens : Nat) :
    Transition (World numEntries numWhens) (Event numEntries numWhens) where
  init w := w = ⟨Dependency.new numEntries numWhens, 0⟩
  step w e w' := w.next e = w'

/-! ### Matching -/

namespace Dependency

/-- The buffered messages. -/
def messages (d : Dependency numEntries numWhens) : List (Buffer numEntries) :=
  (List.finRange numEntries).flatMap d.buffer

/-- There are different messages for the positions: `used` for those of `entries`, `any` for those
of `anyEntries`. -/
def Satisfiable (d : Dependency numEntries numWhens) (c : Continuation numEntries numWhens) :
    Prop :=
  ∃ used any : List (Buffer numEntries), (used ++ any).Nodup ∧
  (∀ buf ∈ used ++ any, buf ∈ d.messages) ∧
    used.map (fun buf => (buf.entry, buf.refnum)) = c.entries.zip c.refnums ∧
    any.map (·.entry) = c.anyEntries

/-- There is some message for each position. -/
def Ready (d : Dependency numEntries numWhens) (c : Continuation numEntries numWhens) : Prop :=
  (∀ p ∈ c.entries.zip c.refnums, ∃ buf ∈ d.buffer p.1, buf.refnum = p.2) ∧
  ∀ entry ∈ c.anyEntries, d.buffer entry ≠ []

/-- No position asks for more messages than there are: of an entry with a reference number, and of
an entry. -/
def Ample (d : Dependency numEntries numWhens) (c : Continuation numEntries numWhens) : Prop :=
  (∀ p, (c.entries.zip c.refnums).count p ≤
  (d.messages.map fun buf => (buf.entry, buf.refnum)).count p) ∧
    ∀ entry, (c.entries ++ c.anyEntries).count entry ≤ (d.messages.map (·.entry)).count entry

/-- The continuations that are looked at, in this order. -/
def candidates (d : Dependency numEntries numWhens) (entry : Fin numEntries) :
    List (Continuation numEntries numWhens) :=
  (d.entryToWhen entry).flatMap d.whenToContinuation

/-- What `tryFindContinuation` should do. -/
def Matches (d : Dependency numEntries numWhens) (entry : Fin numEntries)
    (result : Option (Continuation numEntries numWhens) × Dependency numEntries numWhens) : Prop :=
  match result with
  | (none, d') => (∀ c ∈ d.candidates entry, ¬ d.Satisfiable c) ∧ d' = d
  | (some c, d') =>
    (∃ pre post, d.candidates entry = pre ++ c :: post ∧ d.Satisfiable c ∧
    ∀ c' ∈ pre, ¬ d.Satisfiable c') ∧
      d'.buffer = d.buffer ∧ d'.entryToWhen = d.entryToWhen ∧
      ∀ whenID, d'.whenToContinuation whenID = (d.whenToContinuation whenID).filter (· ≠ c)

end Dependency

end CharmRuntime.Sdag
