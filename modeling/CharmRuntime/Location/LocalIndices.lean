import CharmRuntime.Lib.Transition
import Mathlib.Data.List.Chain
import Mathlib.Data.List.Nodup

/-!
# Location.LocalIndices

The **local indices of a `CkLocMgr`**. `freeList` has a link for each index, and -1 for one in use;
the chain from `firstFree` ends at `localLen`, which is the first index when the arrays are enlarged
(`LocalIndices.Inv`). So an index is never given to two elements (`local_indices_unshared`).

-1 is `none` here. An array that would be longer than an `int` can say is not made.
-/

namespace CharmRuntime.Location

open Lib List

inductive LocalAbort
  /-- "CkLocMgr free list corrupted!" -/
  | corrupted
  /-- An index that an array does not have. -/
  | badIndex
  | overflow
  deriving DecidableEq

structure LocalIndices (E : Type) where
  freeList : List (Option Nat)
  firstFree : Option Nat
  localLen : Nat
  /-- The `elts` of the managers from `firstManager` on. -/
  elts : List (List (Option E))

inductive LocalCall
  | nextFree
  | reclaim (localIdx : Nat)
  | addManager

namespace LocalIndices

variable {E : Type}

def new : LocalIndices E := { freeList := [], firstFree := some 0, localLen := 0, elts := [] }

def setSize (el : List (Option E)) (s : Nat) :
    List (Option E) := el.take s ++ List.replicate (s - el.length) none

def addManager (s : LocalIndices E) :
    LocalIndices E := { s with elts := setSize [] s.localLen :: s.elts }

/-- "Need more space in the local index arrays-- enlarge them". -/
def enlarge (s : LocalIndices E) : Except LocalAbort (LocalIndices E) :=
  let localLen := s.localLen * 2 + 8
  if 2 ^ 31 ≤ localLen then .error .overflow
  else .ok
    { s with
      localLen
      elts := s.elts.map (setSize · localLen)
      freeList :=
        (List.range localLen).map fun i => if i < s.localLen then s.freeList.getD i none else
          some (i + 1) }

/-- The end of `nextFree`, with enough space. -/
def unlinkFirst (s : LocalIndices E) : Except LocalAbort (Nat × LocalIndices E) :=
  match s.firstFree with
  | none => .error .corrupted
  | some localIdx =>
    match s.freeList[localIdx]? with
    | none => .error .badIndex
    | some next =>
      .ok (localIdx, { s with firstFree := next, freeList := s.freeList.set localIdx none })

def nextFree (s : LocalIndices E) : Except LocalAbort (Nat × LocalIndices E) := do
  let s ← if s.firstFree.any (· ≥ s.localLen) then s.enlarge else .ok s
  s.unlinkFirst

def reclaim (s : LocalIndices E) (localIdx : Nat) : Except LocalAbort (LocalIndices E) :=
  if localIdx < s.freeList.length ∧ ∀ el ∈ s.elts, localIdx < el.length then .ok
    { s with
      elts := s.elts.map (·.set localIdx none)
      freeList := s.freeList.set localIdx s.firstFree
      firstFree := some localIdx }
  else .error .badIndex

end LocalIndices

/-- The calls, with the indices that are handed out and not reclaimed. -/
def localSystem (E : Type) : Transition (LocalIndices E × List Nat) LocalCall where
  init w := w = (.new, [])
  step w call w' :=
    match call with
    | .nextFree => ∃ i s', w.1.nextFree = .ok (i, s') ∧ w' = (s', i :: w.2)
    | .reclaim i => i ∈ w.2 ∧ ∃ s', w.1.reclaim i = .ok s' ∧ w' = (s', w.2.erase i)
    | .addManager => w' = (w.1.addManager, w.2)

namespace LocalIndices

variable {E : Type} {s s' : LocalIndices E} {live free : List Nat} {i : Nat}

/-- The chain of the free list. -/
structure Chained (s : LocalIndices E) (free : List Nat) : Prop where
  head : (free ++ [s.localLen]).head? = s.firstFree
  links : (free ++ [s.localLen]).IsChain fun a b => s.freeList[a]? = some (some b)

structure Inv (s : LocalIndices E) (live free : List Nat) : Prop extends Chained s free where
  length : s.freeList.length = s.localLen
  perm : (free ++ live).Perm (List.range s.localLen)
  elts : ∀ el ∈ s.elts, el.length = s.localLen

theorem length_setSize {el : List (Option E)} {n : Nat} (h : el.length ≤ n) :
    (setSize el n).length = n := by
  rw [setSize, length_append, length_take, length_replicate]
  omega

theorem Inv.new : Inv (.new : LocalIndices E) [] [] where
  head := rfl
  links := isChain_singleton _
  length := rfl
  perm := .nil
  elts _ h := by cases h

theorem Inv.lt (h : Inv s live free) (hi : i ∈ free ++ live) :
    i < s.localLen := mem_range.mp (h.perm.subset hi)

theorem Inv.nodup (h : Inv s live free) : (free ++ live).Nodup := h.perm.nodup_iff.mpr nodup_range

theorem Inv.addManager (h : Inv s live free) : Inv s.addManager live free where
  toChained := ⟨h.head, h.links⟩
  length := h.length
  perm := h.perm
  elts := forall_mem_cons.mpr ⟨length_setSize (Nat.zero_le _), h.elts⟩

theorem Inv.enlarge (h : Inv s live []) (hs : s.enlarge = .ok s') :
    Inv s' live (List.range' s.localLen (s.localLen + 8)) := by
  rw [LocalIndices.enlarge] at hs
  split at hs
  · cases hs
  · cases hs
    have hlen : s.localLen * 2 + 8 = s.localLen + (s.localLen + 8) := by omega
    have hend : range' s.localLen (s.localLen + 8) ++ [s.localLen * 2 + 8] =
        range' s.localLen (s.localLen + 9) := by
      rw [hlen]
      exact range'_1_concat.symm
    refine ⟨⟨?_, ?_⟩, ?_, ?_, ?_⟩
    · exact h.head
    · rw [hend]
      refine (isChain_range' ..).imp_of_mem_imp fun a b ha hb heq => ?_
      rw [mem_range'_1] at ha hb
      rw [getElem?_map, getElem?_range (by omega), Option.map_some, if_neg (by omega), heq]
    · exact (length_map _).trans length_range
    · rw [hlen, range_add, ← range'_eq_map_range]
      exact perm_append_comm.trans (h.perm.append_right _)
    · intro el hel
      obtain ⟨el', hel', rfl⟩ := mem_map.mp hel
      exact length_setSize (by rw [h.elts el' hel']; omega)

theorem links_set {path : List Nat} {v : Option Nat}
    (h : path.IsChain fun a b => s.freeList[a]? = some (some b))
    (hi : i ∉ path) : path.IsChain fun a b => (s.freeList.set i v)[a]? = some (some b) :=
  h.imp_of_mem_imp fun a b ha _ hab => by
    have hne : i ≠ a := fun heq => hi (by rwa [heq])
    rwa [getElem?_set_ne hne]

theorem Inv.notMem_free (h : Inv s live free) (hi : i ∈ live) : i ∉ free ++ [s.localLen] := by
  rw [mem_append, mem_singleton]
  rintro (hfree | rfl)
  · exact disjoint_of_nodup_append h.nodup hfree hi
  · exact absurd (h.lt (mem_append_right _ hi)) (lt_irrefl _)

theorem Inv.unlinkFirst {rest : List Nat} (h : Inv s live (i :: rest)) :
    s.firstFree = some i ∧ ∃ s', s.unlinkFirst = .ok (i, s') ∧ Inv s' (i :: live) rest := by
  have hnot : i ∉ rest ++ [s.localLen] := by
    rw [mem_append, mem_singleton]
    rintro (hmem | rfl)
    · exact (nodup_cons.mp h.nodup).1 (mem_append_left _ hmem)
    · exact absurd (h.lt (mem_append_left _ mem_cons_self)) (lt_irrefl _)
  have hlinks := h.links
  cases hpath : rest ++ [s.localLen] with
  | nil => simp at hpath
  | cons x t =>
    rw [cons_append, hpath, isChain_cons_cons] at hlinks
    refine ⟨h.head.symm, { s with firstFree := some x, freeList := s.freeList.set i none }, ?_,
      ⟨⟨congrArg head? hpath, ?_⟩, length_set.trans h.length, perm_middle.trans h.perm, h.elts⟩⟩
    · rw [LocalIndices.unlinkFirst, ← h.head]
      dsimp only [cons_append, head?_cons]
      rw [hlinks.1]
    · rw [hpath] at hnot
      exact hpath ▸ links_set hlinks.2 hnot

theorem Inv.nextFree (h : Inv s live free) : s.nextFree = .error .overflow ∨
    ∃ i s' free', s.nextFree = .ok (i, s') ∧ Inv s' (i :: live) free' := by
  cases free with
  | nil =>
    have hnext : s.nextFree = s.enlarge >>= LocalIndices.unlinkFirst := by
      rw [nextFree, if_pos (by rw [← h.head]; simp)]
    rw [hnext]
    cases henlarge : s.enlarge with
    | error e =>
      rw [LocalIndices.enlarge] at henlarge
      split at henlarge
      · exact .inl (congrArg _ (Except.error.inj henlarge).symm)
      · cases henlarge
    | ok s1 =>
      have h₁ := h.enlarge henlarge
      obtain ⟨-, s', hs', hinv⟩ := h₁.unlinkFirst
      exact .inr ⟨_, s', _, hs', hinv⟩
  | cons i rest =>
    have hlt := h.lt (mem_append_left _ mem_cons_self)
    obtain ⟨hfirst, s', hs', hinv⟩ := h.unlinkFirst
    refine .inr ⟨i, s', rest, ?_, hinv⟩
    rw [nextFree, hfirst, if_neg (by simpa using hlt)]
    exact hs'

theorem Inv.reclaim (h : Inv s live free) (hi : i ∈ live) :
    ∃ s', s.reclaim i = .ok s' ∧ Inv s' (live.erase i) (i :: free) := by
  have hlt := h.lt (mem_append_right _ hi)
  refine ⟨_, if_pos ⟨by rwa [h.length], fun el hel => by rwa [h.elts el hel]⟩,
    ⟨⟨rfl, ?_⟩, ?_, ?_, ?_⟩⟩
  · have hlinks := links_set (v := s.firstFree) h.links (h.notMem_free hi)
    rw [cons_append]
    cases hpath : free ++ [s.localLen] with
    | nil => simp at hpath
    | cons x t =>
      have hhead := h.head
      rw [hpath] at hlinks hhead
      rw [isChain_cons_cons, getElem?_set_self (by rwa [h.length])]
      exact ⟨congrArg some hhead.symm, hlinks⟩
  · exact length_set.trans h.length
  · exact (perm_middle.symm.trans ((perm_cons_erase hi).symm.append_left free)).trans h.perm
  · intro el hel
    obtain ⟨el', hel', rfl⟩ := mem_map.mp hel
    exact length_set.trans (h.elts el' hel')

end LocalIndices

variable {E : Type} {w : LocalIndices E × List Nat}

theorem local_inv (h : (localSystem E).Reachable w) : ∃ free, w.1.Inv w.2 free := by
  refine h.invariant (I := fun w => ∃ free, w.1.Inv w.2 free) ?_ ?_
  · rintro w rfl
    exact ⟨[], .new⟩
  · rintro w call w' ⟨free, hinv⟩ hstep
    cases call with
    | nextFree =>
      obtain ⟨i, s', hs', rfl⟩ := hstep
      obtain herror | ⟨j, s'', free', hok, hinv'⟩ := hinv.nextFree
      · cases herror.symm.trans hs'
      · cases hok.symm.trans hs'
        exact ⟨free', hinv'⟩
    | reclaim i =>
      obtain ⟨hi, s', hs', rfl⟩ := hstep
      obtain ⟨s'', hok, hinv'⟩ := hinv.reclaim hi
      cases hok.symm.trans hs'
      exact ⟨i :: free, hinv'⟩
    | addManager =>
      obtain rfl := hstep
      exact ⟨free, hinv.addManager⟩

/-- **No two elements have the same local index**, after any calls. The chain from `firstFree` has
the other indices and ends at `localLen`; `nextFree` has an index that is not in use, and an index
in use can be reclaimed. -/
theorem local_indices_unshared (h : (localSystem E).Reachable w) :
    w.2.Nodup ∧ (∀ i ∈ w.2, i < w.1.localLen) ∧
    (∃ free : List Nat, w.1.Chained free ∧ free.Nodup ∧ ∀ i, i ∈ free ↔
    i < w.1.localLen ∧ i ∉ w.2) ∧
    w.1.nextFree ≠ .error .corrupted ∧
    (w.1.nextFree = .error .overflow ∨ ∃ i s', w.1.nextFree = .ok (i, s') ∧ i ∉ w.2) ∧
    (∀ i ∈ w.2, ∃ s', w.1.reclaim i = .ok s') ∧
    ∀ el ∈ w.1.elts, el.length = w.1.localLen := by
  obtain ⟨free, hinv⟩ := local_inv h
  have hnext := hinv.nextFree
  refine ⟨hinv.nodup.of_append_right, fun i hi => hinv.lt (mem_append_right _ hi),
    ⟨free, hinv.toChained, hinv.nodup.of_append_left, fun i => ?_⟩, fun hcorrupted => ?_, ?_,
    fun i hi => ?_, hinv.elts⟩
  · constructor
    · intro hi
      exact ⟨hinv.lt (mem_append_left _ hi), fun hlive =>
        disjoint_of_nodup_append hinv.nodup hi hlive⟩
    · rintro ⟨hlt, hlive⟩
      exact (mem_append.mp (hinv.perm.mem_iff.mpr (mem_range.mpr hlt))).resolve_right hlive
  · rw [hcorrupted] at hnext
    obtain herror | ⟨i, s', free', hok, -⟩ := hnext
    · cases herror
    · cases hok
  · obtain herror | ⟨i, s', free', hok, hinv'⟩ := hnext
    · exact .inl herror
    · exact .inr ⟨i, s', hok, (nodup_cons.mp hinv'.nodup.of_append_right).1⟩
  · obtain ⟨s', hs', -⟩ := hinv.reclaim hi
    exact ⟨s', hs'⟩

/-- Two indices, the first one reclaimed, and a manager. -/
theorem local_indices_unshared_two :
    ∃ w : LocalIndices Nat × List Nat, w.2 = [1] ∧ w.1.elts.map List.length = [8] ∧
    w.2.Nodup ∧ (∀ i ∈ w.2, i < w.1.localLen) := by
  have h0 : (localSystem Nat).Reachable (.new, []) := .init rfl
  have h1 := h0.step (e := LocalCall.addManager) rfl
  have h2 := h1.step (e := LocalCall.nextFree) ⟨_, _, rfl, rfl⟩
  have h3 := h2.step (e := LocalCall.nextFree) ⟨_, _, rfl, rfl⟩
  have h4 := h3.step (e := LocalCall.reclaim 0) ⟨by decide, _, rfl, rfl⟩
  have hw := local_indices_unshared h4
  exact ⟨_, rfl, rfl, hw.1, hw.2.1⟩

end CharmRuntime.Location
