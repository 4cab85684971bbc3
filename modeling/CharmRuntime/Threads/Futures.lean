import Mathlib.Data.List.Nodup
import CharmRuntime.Lib.Transition

/-!
# Threads.Futures

**Futures**, and the calls of `[sync]` methods that wait for them, on one PE. A call creates a
future and sends its number with the request; the reply sets the future and awakens the thread that
waits for it. A thread that is awakened before waits on, and the number of a future is used again
when its call has returned. Requests are answered in any order, before or after their threads wait,
and threads may be awakened at any time.

A message has room for `bits` bits of the number. Numbers that were used before are given out first
(`FutureState.Holds`), so this is enough while there are fewer than `2 ^ bits` calls.
-/

namespace CharmRuntime.Threads

open Lib Function List

/-! ### The futures of a PE -/

/-- `waiters` are the threads from there on, as `CthGetNext` finds them; -1 is `none`. -/
structure Future (V T : Type) where
  ready : Bool
  value : Option V
  waiters : List T
  next : Option Nat

structure FutureState (V T : Type) where
  array : Nat → Future V T
  max : Nat
  freelist : Option Nat

namespace FutureState

variable {V T : Type}

def addedFutures (fs : FutureState V T) (lo hi : Nat) : FutureState V T :=
  { fs with
    array := fun i =>
      if lo ≤ i ∧
        i < hi then
          { fs.array i with next := if i + 1 = hi then fs.freelist else some (i + 1) } else fs.array
            i
    freelist := some lo }

/-- `_futuresModuleInit`, where the memory is not set. -/
def new (memory : Nat → Future V T) : FutureState V T :=
  addedFutures { array := memory, max := 10, freelist := none } 0 10

/-- "if the freelist is empty, allocate more futures." -/
def grow (fs : FutureState V T) : FutureState V T :=
  if fs.freelist = none then addedFutures { fs with max := fs.max * 2 } fs.max (fs.max * 2) else fs

def setEntry (fs : FutureState V T) (handle : Nat) (fut : Future V T) : FutureState V T :=
  { fs with array := update fs.array handle fut }

/-- `none` is a future number -1. -/
def createFuture (fs : FutureState V T) : Option (Nat × FutureState V T) :=
  fs.grow.freelist.map fun handle =>
    (handle, { fs.grow.setEntry handle ⟨false, none, [], some 0⟩ with freelist := (fs.grow.array
      handle).next })

/-- `CkReleaseFutureID`. -/
def release (fs : FutureState V T) (handle : Nat) : FutureState V T :=
  { fs.setEntry handle { fs.array handle with next := fs.freelist } with freelist := some handle }

/-- A thread becomes the first of the waiters. -/
def link (fs : FutureState V T) (handle : Nat) (t : T) : FutureState V T :=
  fs.setEntry handle { fs.array handle with waiters := t :: (fs.array handle).waiters }

/-- `setFuture`, but for the waiters, which it awakens. -/
def setFuture (fs : FutureState V T) (handle : Nat) (v : V) : FutureState V T :=
  fs.setEntry handle { fs.array handle with ready := true, value := some v, waiters := [] }

/-! ### Free futures -/

/-- The free futures from a number on. -/
def Linked (fs : FutureState V T) : Option Nat → List Nat → Prop
  | p, [] => p = none
  | p, h :: free => p = some h ∧ fs.Linked (fs.array h).next free

/-- The futures in use have these numbers. Behind those that were released, the free ones are those
from `fresh` on. -/
structure Holds (fs : FutureState V T) (used : List Nat) (fresh : Nat) : Prop where
  pos : 0 < fs.max
  le : fresh ≤ fs.max
  free : ∃ released, fs.Linked fs.freelist (released ++ range' fresh (fs.max - fresh)) ∧
    (released ++ used).Perm (range fresh)

variable {fs fs' : FutureState V T} {used released free : List Nat} {fresh max h : Nat}

theorem free_perm (hle : fresh ≤ max) (hperm : (released ++ used).Perm (range fresh)) :
    (released ++ range' fresh (max - fresh) ++ used).Perm (range max) := by
  have hrange : range fresh ++ range' fresh (max - fresh) = range max := by
    have happend := range'_append_1 (s := 0) (m := fresh) (n := max - fresh)
    rwa [Nat.zero_add, Nat.add_sub_cancel' hle, ← range_eq_range', ← range_eq_range'] at happend
  rw [← hrange, append_assoc]
  exact (perm_append_comm.append_left released).trans
    (by rw [← append_assoc]; exact hperm.append_right _)

/-- The first of the free futures is a fresh one only if all others that are not fresh are in use.
-/
theorem free_tail (hle : fresh ≤ max) (hperm : (released ++ used).Perm (range fresh))
    (hfree : released ++ range' fresh (max - fresh) = h :: free) :
    ∃ released' fresh', fresh' ≤ max ∧ (fresh' = fresh ∨ fresh' = used.length + 1) ∧
      free = released' ++ range' fresh' (max - fresh') ∧
      (released' ++ h :: used).Perm (range fresh') := by
  cases released with
  | nil =>
    have hlength : used.length = fresh := by simpa using hperm.length_eq
    obtain ⟨n, hn⟩ : ∃ n, max - fresh = n + 1 :=
      Nat.exists_eq_succ_of_ne_zero fun hzero => by simp [hzero] at hfree
    rw [nil_append, hn, range'_succ, cons.injEq] at hfree
    obtain ⟨rfl, rfl⟩ := hfree
    refine ⟨[], fresh + 1, by omega, .inr (by rw [hlength]), ?_, ?_⟩
    · rw [show max - (fresh + 1) = n by omega, nil_append]
    · rw [nil_append, range_succ]
      exact (hperm.cons fresh).trans (perm_append_singleton _ _).symm
  | cons h' released =>
    rw [cons_append, cons.injEq] at hfree
    obtain ⟨rfl, rfl⟩ := hfree
    exact ⟨released, fresh, hle, .inl rfl, rfl, perm_middle.trans hperm⟩

theorem Linked.congr {p : Option Nat} (hlinked : fs.Linked p free)
    (hnext : ∀ i ∈ free, (fs'.array i).next = (fs.array i).next) :
    fs'.Linked p free := by
  induction free generalizing p with
  | nil => exact hlinked
  | cons i free ih =>
    rw [forall_mem_cons] at hnext
    exact ⟨hlinked.1, ih (hnext.1 ▸ hlinked.2) hnext.2⟩

/-- New futures, behind which there are none. -/
theorem linked_addedFutures (hnone : fs.freelist = none) {lo hi n i : Nat} (hi' : i + n = hi)
    (hlo : lo ≤ i) (hn : 0 < n) :
    (fs.addedFutures lo hi).Linked (some i) (range' i n) := by
  induction n generalizing i with
  | zero => exact absurd hn (Nat.lt_irrefl 0)
  | succ n ih =>
    refine ⟨rfl, ?_⟩
    have hnext :
      ((fs.addedFutures lo hi).array i).next = if i + 1 = hi then none else some (i + 1) := by
      have hin : lo ≤ i ∧ i < hi := ⟨hlo, by omega⟩
      simp [addedFutures, hin, hnone]
    rw [hnext]
    rcases Nat.eq_zero_or_pos n with rfl | hpos
    · exact if_pos hi'
    · rw [if_neg (by omega)]
      exact ih (by omega) (by omega) hpos

theorem new_holds (memory : Nat → Future V T) : (new memory).Holds [] 0 where
  pos := Nat.succ_pos 9
  le := Nat.zero_le _
  free := ⟨[], linked_addedFutures rfl rfl (le_refl 0) (Nat.succ_pos 9), .nil⟩

theorem Holds.grow (hfs : fs.Holds used fresh) :
    fs.grow.Holds used fresh ∧ fs.grow.freelist ≠ none ∧ ∀ i < fs.max, fs.grow.array i =
    fs.array i := by
  obtain ⟨hpos, hle, released, hlinked, hperm⟩ := hfs
  rw [FutureState.grow]
  split
  · next hnone =>
      cases hfree : released ++ range' fresh (fs.max - fresh) with
      | cons i free =>
        rw [hfree] at hlinked
        exact absurd (hnone.symm.trans hlinked.1) (by simp)
      | nil =>
        -- all futures are in use
        obtain ⟨rfl, hrange⟩ := append_eq_nil_iff.mp hfree
        have hmax : fresh = fs.max := by
          rw [range'_eq_nil_iff] at hrange
          omega
        subst hmax
        refine ⟨⟨?_, ?_, [], ?_, hperm⟩, by simp [addedFutures], fun i hi => ?_⟩
        · change 0 < fs.max * 2
          omega
        · change fs.max ≤ fs.max * 2
          omega
        · have hnone' : ({ fs with max := fs.max * 2 } : FutureState V T).freelist = none := hnone
          change Linked _ (some fs.max) (range' fs.max (fs.max * 2 - fs.max))
          exact linked_addedFutures hnone' (by omega) (le_refl _) (by omega)
        · exact if_neg fun hge => absurd hi (Nat.not_lt.mpr hge.1)
  · next hsome => exact ⟨⟨hpos, hle, released, hlinked, hperm⟩, hsome, fun i _ => rfl⟩

theorem Holds.lt (hfs : fs.Holds used fresh) (hh : h ∈ used) : h < fresh := by
  obtain ⟨-, -, _, -, hperm⟩ := hfs
  exact mem_range.mp (hperm.subset (mem_append_right _ hh))

theorem setEntry_of_ne {f : Future V T} {i : Nat} (hi : i ≠ h) :
    (fs.setEntry h f).array i = fs.array i := update_of_ne hi _ _

/-- **A new future** is none that is in use. -/
theorem Holds.createFuture (hfs : fs.Holds used fresh) :
    ∃ h fs' fresh', fs.createFuture = some (h, fs') ∧ fs'.Holds (h :: used) fresh' ∧
      (fresh' = fresh ∨ fresh' = used.length + 1) ∧ h ∉ used ∧
      fs'.array h = ⟨false, none, [], some 0⟩ ∧ ∀ i ∈ used, fs'.array i = fs.array i := by
  obtain ⟨⟨hpos, hle, released, hlinked, hperm⟩, hsome, hsame⟩ := hfs.grow
  have hnodup := (free_perm hle hperm).nodup_iff.mpr nodup_range
  cases hwhole : released ++ range' fresh (fs.grow.max - fresh) with
  | nil =>
    rw [hwhole] at hlinked
    exact absurd hlinked hsome
  | cons h free =>
    rw [hwhole, cons_append, nodup_cons, mem_append, not_or] at hnodup
    rw [hwhole] at hlinked
    obtain ⟨⟨hfree, hnew⟩, -⟩ := hnodup
    obtain ⟨released', fresh', hle', hfresh', rfl, hperm'⟩ := free_tail hle hperm hwhole
    have hlinked' := hlinked.2.congr fun i hi =>
      congrArg Future.next
        (setEntry_of_ne (f := ⟨false, none, [], some 0⟩) (ne_of_mem_of_not_mem hi hfree))
    have hcreate := congrArg (Option.map fun handle =>
      (handle, { fs.grow.setEntry handle ⟨false, none, [], some 0⟩ with freelist := (fs.grow.array
        handle).next })) hlinked.1
    refine ⟨h, _, fresh', hcreate, ⟨hpos, hle', released', hlinked'.congr fun _ _ => rfl, hperm'⟩,
      hfresh', hnew, update_self .., fun i hi => ?_⟩
    exact (setEntry_of_ne (ne_of_mem_of_not_mem hi hnew)).trans
      (hsame i ((hfs.lt hi).trans_le hfs.le))

/-- What is written to a future that is in use. -/
theorem Holds.setEntry {f : Future V T} (hfs : fs.Holds used fresh) (hh : h ∈ used) :
    (fs.setEntry h f).Holds used fresh := by
  obtain ⟨hpos, hle, released, hlinked, hperm⟩ := hfs
  have hdisjoint := (nodup_append.mp ((free_perm hle hperm).nodup_iff.mpr nodup_range)).2.2
  exact ⟨hpos, hle, released, hlinked.congr fun i hi => congrArg Future.next
    (setEntry_of_ne (hdisjoint i hi h hh)), hperm⟩

theorem Holds.perm {used' : List Nat} (hfs : fs.Holds used fresh) (hperm : used.Perm used') :
    fs.Holds used' fresh := by
  obtain ⟨hpos, hle, released, hlinked, hfree⟩ := hfs
  exact ⟨hpos, hle, released, hlinked, (hperm.symm.append_left released).trans hfree⟩

theorem Holds.release (hfs : fs.Holds used fresh) (hh : h ∈ used) :
    (fs.release h).Holds (used.erase h) fresh := by
  obtain ⟨hpos, hle, released, hlinked, hperm⟩ :=
    hfs.setEntry (f := { fs.array h with next := fs.freelist }) hh
  have hmove : (h :: released ++ used.erase h).Perm (released ++ used) :=
    perm_middle.symm.trans ((perm_cons_erase hh).symm.append_left released)
  refine ⟨hpos, hle, h :: released, ⟨rfl, ?_⟩, hmove.trans hperm⟩
  have hnext : ((fs.release h).array h).next = fs.freelist := by
    simp [FutureState.release, FutureState.setEntry]
  rw [hnext]
  exact hlinked.congr fun _ _ => rfl

end FutureState

/-! ### Calls -/

/-- A call that has not returned, with the number of its future. -/
structure Call (T : Type) where
  id : Nat
  handle : Nat
  caller : T
  deriving DecidableEq

/-- The threads of a PE, and their calls. -/
structure CallWorld (V T : Type) where
  futures : FutureState V T
  issued : Nat
  calls : List (Call T)
  /-- The calls whose request or reply is on its way. -/
  net : List (Call T)
  /-- What a thread is suspended for in `CkWaitFutureID`. -/
  waiting : T → Option (Call T)
  /-- The threads that `CthAwaken` was called for. -/
  queue : List T
  returned : List (Nat × V)

inductive CallAbort
  | badHandle
  /-- "ERROR! CkWaitFuture would have to return NULL!" -/
  | null

inductive CallEvent (T : Type)
  /-- `CkRemoteCallAsync`. -/
  | call (t : T)
  /-- `SetFuture`. -/
  | reply (c : Call T)
  /-- `CkWaitReleaseFuture`. -/
  | wait (c : Call T)
  | awaken (t : T)
  | resume (t : T)

namespace CallWorld

variable {V T : Type} [DecidableEq T]

def new (memory : Nat → Future V T) : CallWorld V T where
  futures := .new memory
  issued := 0
  calls := []
  net := []
  waiting _ := none
  queue := []
  returned := []

/-- `CkRemoteCallAsync`, with a future. -/
def sent (w : CallWorld V T) (futures : FutureState V T) (c : Call T) : CallWorld V T :=
  { w with futures := futures, issued := w.issued + 1, calls := c :: w.calls, net := c :: w.net }

/-- `SetFuture`, which has the number of the future from the message. -/
def replied (bits : Nat) (w : CallWorld V T) (c : Call T) (v : V) : CallWorld V T :=
  { w with
    futures := w.futures.setFuture (c.handle % 2 ^ bits) v
    net := w.net.erase c
    queue := w.queue ++ (w.futures.array (c.handle % 2 ^ bits)).waiters }

/-- `CkWaitFutureID`, where the future is not ready. -/
def suspended (w : CallWorld V T) (c : Call T) : CallWorld V T :=
  { w with futures := w.futures.link c.handle c.caller, waiting := update w.waiting c.caller (some
    c) }

/-- The end of `CkWaitReleaseFuture`. -/
def finish (w : CallWorld V T) (c : Call T) : Except CallAbort (CallWorld V T) :=
  match (w.futures.array c.handle).value with
  | none => .error .null
  | some v => .ok
    { w with
      futures := w.futures.release c.handle
      calls := w.calls.erase c
      waiting := update w.waiting c.caller none
      returned := w.returned ++ [(c.id, v)] }

/-- What an event does, if it can happen; the reply to a call is known from its number. -/
def step (bits : Nat) (reply : Nat → V) (w : CallWorld V T) :
    CallEvent T → Option (Except CallAbort (CallWorld V T))
  | .call t =>
    if w.waiting t = none then
      some
        (match w.futures.createFuture with
        | none => .error .badHandle
        | some (handle, futures) => .ok (w.sent futures ⟨w.issued, handle, t⟩))
    else none
  | .reply c => if c ∈ w.net then some (.ok (w.replied bits c (reply c.id))) else none
  | .wait c =>
    if c ∈ w.calls ∧ w.waiting c.caller = none then
      some (if (w.futures.array c.handle).ready then w.finish c else .ok (w.suspended c))
    else none
  | .awaken t => some (.ok { w with queue := w.queue ++ [t] })
  | .resume t =>
    if t ∈ w.queue then
      some
        (match w.waiting t with
        | none => .ok { w with queue := w.queue.erase t }
        | some c =>
          -- a thread that was awakened too early is suspended again
          if (w.futures.array c.handle).ready then finish { w with queue := w.queue.erase t } c
          else .ok { w with queue := w.queue.erase t })
    else none

end CallWorld

def callSystem {V T : Type} [DecidableEq T] (bits : Nat) (reply : Nat → V) :
    Transition (Except CallAbort (CallWorld V T)) (CallEvent T) where
  init r := ∃ memory, r = .ok (.new memory)
  step r e r' := ∃ w, r = .ok w ∧ w.step bits reply e = some r'

/-- A call is made when there are fewer calls than numbers in a message. -/
def FewCalls {V T : Type} (bits : Nat) (r : Except CallAbort (CallWorld V T)) : CallEvent T → Prop
  | .call _ => ∀ w, r = .ok w → w.calls.length < 2 ^ bits
  | _ => True

variable {V T : Type} {bits : Nat} {reply : Nat → V} {w : CallWorld V T} {c : Call T}

/-- A call whose reply is on its way has a future that is not set, with its caller among the waiters
if this is suspended for it; the future of any other call is set. -/
structure Status (reply : Nat → V) (w : CallWorld V T) (c : Call T) : Prop where
  unset : c ∈ w.net → (w.futures.array c.handle).ready = false ∧
    (w.waiting c.caller = some c → c.caller ∈ (w.futures.array c.handle).waiters)
  answered :
    c ∉ w.net → (w.futures.array c.handle).ready = true ∧ (w.futures.array c.handle).value =
    some (reply c.id)

theorem Status.congr {w' : CallWorld V T} (h : Status reply w c)
    (hfuture : w'.futures.array c.handle = w.futures.array c.handle)
    (hnet : c ∈ w'.net ↔ c ∈ w.net)
    (hwaiting : w'.waiting c.caller = some c → w.waiting c.caller = some c) :
    Status reply w' c where
  unset hc := by
    rw [hfuture]
    exact (h.unset (hnet.mp hc)).imp_right fun hwaiters hw => hwaiters (hwaiting hw)
  answered hc := by
    rw [hfuture]
    exact h.answered fun hc' => hc (hnet.mpr hc')

structure Inv (bits : Nat) (reply : Nat → V) (w : CallWorld V T) : Prop where
  holds : ∃ fresh ≤ 2 ^ bits, w.futures.Holds (w.calls.map Call.handle) fresh
  once : (w.returned.map Prod.fst ++ w.calls.map Call.id).Perm (range w.issued)
  returned : ∀ x ∈ w.returned, x.2 = reply x.1
  net : w.net.Nodup
  sent : ∀ c ∈ w.net, c ∈ w.calls
  status : ∀ c ∈ w.calls, Status reply w c
  caller : ∀ t c, w.waiting t = some c → c ∈ w.calls ∧ c.caller = t
  awake : ∀ t c, w.waiting t = some c → c ∈ w.net ∨ t ∈ w.queue

namespace Inv

theorem new (memory : Nat → Future V T) : Inv bits reply (.new memory) where
  holds := ⟨0, Nat.zero_le _, FutureState.new_holds memory⟩
  once := .nil
  returned := by simp [CallWorld.new]
  net := nodup_nil
  sent := by simp [CallWorld.new]
  status := by simp [CallWorld.new]
  caller := by simp [CallWorld.new]
  awake := by simp [CallWorld.new]

theorem handles (h : Inv bits reply w) : (w.calls.map Call.handle).Nodup := by
  obtain ⟨_, -, -, -, _, -, hperm⟩ := h.holds
  exact (nodup_append.mp (hperm.nodup_iff.mpr nodup_range)).2.1

/-- The message of a call has all of the number. -/
theorem handle_mod (h : Inv bits reply w) (hc : c ∈ w.calls) : c.handle % 2 ^ bits = c.handle := by
  obtain ⟨fresh, hle, hholds⟩ := h.holds
  exact Nat.mod_eq_of_lt ((hholds.lt (mem_map_of_mem hc)).trans_le hle)

/-- What is written to the future of a call concerns no other call. -/
theorem setEntry_other (h : Inv bits reply w) (hc : c ∈ w.calls) {c' : Call T} (hc' : c' ∈ w.calls)
    (hne : c' ≠ c) (f : Future V T) :
    (w.futures.setEntry c.handle f).array c'.handle = w.futures.array c'.handle :=
  FutureState.setEntry_of_ne fun heq => hne (inj_on_of_nodup_map h.handles hc' hc heq)

theorem mem_net (h : Inv bits reply w) (hc : c ∈ w.calls)
    (hready : ¬ (w.futures.array c.handle).ready = true) : c ∈ w.net := by
  by_contra hnot
  exact hready ((h.status c hc).answered hnot).1

theorem call (h : Inv bits reply w) {t : T} (ht : w.waiting t = none)
    (hfew : w.calls.length < 2 ^ bits) :
    ∃ handle futures, w.futures.createFuture = some (handle, futures) ∧
      Inv bits reply (w.sent futures ⟨w.issued, handle, t⟩) := by
  obtain ⟨fresh, hle, hfutures⟩ := h.holds
  obtain ⟨handle, futures, fresh', hcreate, hholds, hfresh', hnew, harray, hsame⟩ :=
    hfutures.createFuture
  have hnot : ⟨w.issued, handle, t⟩ ∉ w.calls := fun hmem => hnew (mem_map_of_mem hmem)
  refine ⟨handle, futures, hcreate, ?_⟩
  unfold CallWorld.sent
  constructor
  · rw [length_map] at hfresh'
    exact ⟨fresh', by omega, hholds⟩
  · rw [map_cons, range_succ]
    exact perm_middle.trans ((h.once.cons _).trans (perm_append_singleton _ _).symm)
  · exact h.returned
  · exact nodup_cons.mpr ⟨fun hmem => hnot (h.sent _ hmem), h.net⟩
  · exact forall_mem_cons.mpr ⟨mem_cons_self, fun c hc => mem_cons_of_mem _ (h.sent c hc)⟩
  · refine forall_mem_cons.mpr
      ⟨⟨fun _ => ⟨by rw [harray], fun heq => ?_⟩, fun hmem => absurd mem_cons_self hmem⟩,
      fun c hc => ?_⟩
    · exact absurd (ht.symm.trans heq) (by simp)
    · have hne : c ≠ ⟨w.issued, handle, t⟩ := ne_of_mem_of_not_mem hc hnot
      exact (h.status c hc).congr (hsame _ (mem_map_of_mem hc)) (by simp [hne]) id
  · exact fun t c hw => ⟨mem_cons_of_mem _ (h.caller t c hw).1, (h.caller t c hw).2⟩
  · exact fun t c hw => (h.awake t c hw).imp_left (mem_cons_of_mem _)

/-- The threads that were awakened may be more, or fewer by one that is not suspended for a reply
that has come. -/
theorem setQueue (h : Inv bits reply w) {queue : List T}
    (hqueue : ∀ t c, w.waiting t = some c → c ∉ w.net → t ∈ queue) :
    Inv bits reply { w with queue := queue } :=
  { h with
    status := fun c hc => (h.status c hc).congr rfl .rfl id
    awake := fun t c hw => or_iff_not_imp_left.mpr fun hnet => hqueue t c hw hnet }

variable [DecidableEq T]

theorem update_eq_some_iff {f : T → Option (Call T)} {a t : T} {o : Option (Call T)} :
    update f a o t = some c ↔ t = a ∧ o = some c ∨ t ≠ a ∧ f t = some c := by
  by_cases ht : t = a
  · simp [ht]
  · simp [ht, update_of_ne]

theorem replied (h : Inv bits reply w) (hc : c ∈ w.net) :
    Inv bits reply (w.replied bits c (reply c.id)) := by
  have hcalls := h.sent c hc
  rw [CallWorld.replied, h.handle_mod hcalls]
  constructor
  · exact h.holds.imp fun _ => .imp_right fun hfutures => hfutures.setEntry (mem_map_of_mem hcalls)
  · exact h.once
  · exact h.returned
  · exact h.net.erase c
  · exact fun c' hc' => h.sent c' (mem_of_mem_erase hc')
  · intro c' hc'
    by_cases heq : c' = c
    · subst heq
      exact ⟨fun hmem => absurd rfl (h.net.mem_erase_iff.mp hmem).1,
        fun _ => by simp [FutureState.setFuture, FutureState.setEntry]⟩
    · exact (h.status c' hc').congr (h.setEntry_other hcalls hc' heq _) (mem_erase_of_ne heq) id
  · exact h.caller
  · intro t c' hw
    rcases h.awake t c' hw with hnet | hqueue
    · by_cases heq : c' = c
      · -- the reply awakens the thread that waits for it
        subst heq
        obtain rfl := (h.caller t c' hw).2
        exact .inr (mem_append_right _ (((h.status c' hcalls).unset hnet).2 hw))
      · exact .inl ((mem_erase_of_ne heq).mpr hnet)
    · exact .inr (mem_append_left _ hqueue)

theorem suspended (h : Inv bits reply w) (hc : c ∈ w.calls)
    (hready : ¬ (w.futures.array c.handle).ready = true) :
    Inv bits reply (w.suspended c) := by
  have hnet := h.mem_net hc hready
  unfold CallWorld.suspended
  constructor
  · exact h.holds.imp fun _ => .imp_right fun hfutures => hfutures.setEntry (mem_map_of_mem hc)
  · exact h.once
  · exact h.returned
  · exact h.net
  · exact h.sent
  · intro c' hc'
    by_cases heq : c' = c
    · subst heq
      have hunset := ((h.status c' hc).unset hnet).1
      exact ⟨fun _ => by simp [FutureState.link, FutureState.setEntry, hunset], fun hnot =>
        absurd hnet hnot⟩
    · refine (h.status c' hc').congr (h.setEntry_other hc hc' heq _) .rfl fun hw => ?_
      rcases update_eq_some_iff.mp hw with ⟨-, hsame⟩ | ⟨-, hw'⟩
      exacts [absurd (Option.some.inj hsame).symm heq, hw']
  · intro t c' hw
    rcases update_eq_some_iff.mp hw with ⟨rfl, ⟨⟩⟩ | ⟨-, hw'⟩
    exacts [⟨hc, rfl⟩, h.caller t c' hw']
  · intro t c' hw
    rcases update_eq_some_iff.mp hw with ⟨rfl, ⟨⟩⟩ | ⟨-, hw'⟩
    exacts [.inl hnet, h.awake t c' hw']

/-- A call returns whose reply has come; its caller need not be awakened any more. -/
theorem finish (h : Inv bits reply w) (hc : c ∈ w.calls)
    (hready : (w.futures.array c.handle).ready = true) {queue : List T}
    (hqueue : ∀ t ∈ w.queue, t ≠ c.caller → t ∈ queue) :
    ∃ w', CallWorld.finish { w with queue := queue } c = .ok w' ∧ Inv bits reply w' := by
  have hnot : c ∉ w.net := fun hmem => absurd hready (by simp [((h.status c hc).unset hmem).1])
  have hperm := perm_cons_erase hc
  have hwaiting : ∀ t c', update w.waiting c.caller none t = some c' → t ≠ c.caller ∧
    w.waiting t = some c' := fun t c' hw =>
    (update_eq_some_iff.mp hw).resolve_left fun hnone => Option.some_ne_none _ hnone.2.symm
  refine ⟨_, by rw [CallWorld.finish, ((h.status c hc).answered hnot).2], ?_⟩
  constructor
  · refine h.holds.imp fun _ => .imp_right fun hfutures =>
      (hfutures.release (mem_map_of_mem hc)).perm ?_
    have herase := (hperm.map Call.handle).erase c.handle
    rwa [map_cons, erase_cons_head] at herase
  · rw [map_append, append_assoc]
    exact ((hperm.map Call.id).symm.append_left _).trans h.once
  · exact forall_mem_append.mpr ⟨h.returned, by simp⟩
  · exact h.net
  · exact fun c' hc' => (mem_erase_of_ne (ne_of_mem_of_not_mem hc' hnot)).mpr (h.sent c' hc')
  · intro c' hc'
    obtain ⟨hne, hcalls⟩ := (Nodup.of_map _ h.handles).mem_erase_iff.mp hc'
    exact (h.status c' hcalls).congr (h.setEntry_other hc hcalls hne _) .rfl fun hw =>
      (hwaiting _ _ hw).2
  · intro t c' hw
    obtain ⟨ht, hw'⟩ := hwaiting t c' hw
    obtain ⟨hcalls, hcaller⟩ := h.caller t c' hw'
    exact ⟨(mem_erase_of_ne fun heq => ht (by rw [← hcaller, heq])).mpr hcalls, hcaller⟩
  · intro t c' hw
    obtain ⟨ht, hw'⟩ := hwaiting t c' hw
    exact (h.awake t c' hw').imp_right fun hmem => hqueue t hmem ht

theorem step (h : Inv bits reply w) {e : CallEvent T} {r : Except CallAbort (CallWorld V T)}
    (hstep : w.step bits reply e = some r)
    (hfew : FewCalls bits (.ok w) e) :
    ∃ w', r = .ok w' ∧ Inv bits reply w' := by
  have hawake : ∀ t c, w.waiting t = some c → c ∉ w.net → t ∈ w.queue :=
    fun t c hw hnet => (h.awake t c hw).resolve_left hnet
  cases e with
  | call t =>
    rw [CallWorld.step, Option.ite_none_right_eq_some] at hstep
    obtain ⟨ht, ⟨⟩⟩ := hstep
    obtain ⟨handle, futures, hcreate, hinv⟩ := h.call ht (hfew w rfl)
    rw [hcreate]
    exact ⟨_, rfl, hinv⟩
  | reply c =>
    rw [CallWorld.step, Option.ite_none_right_eq_some] at hstep
    obtain ⟨hc, ⟨⟩⟩ := hstep
    exact ⟨_, rfl, h.replied hc⟩
  | wait c =>
    rw [CallWorld.step, Option.ite_none_right_eq_some] at hstep
    obtain ⟨⟨hc, -⟩, ⟨⟩⟩ := hstep
    -- the reply may have come before the wait
    split
    · next hready => exact h.finish hc hready fun t ht _ => ht
    · next hready => exact ⟨_, rfl, h.suspended hc hready⟩
  | awaken t =>
    cases hstep
    exact ⟨_, rfl, h.setQueue fun t' c hw hnet => mem_append_left _ (hawake t' c hw hnet)⟩
  | resume t =>
    rw [CallWorld.step, Option.ite_none_right_eq_some] at hstep
    obtain ⟨ht, ⟨⟩⟩ := hstep
    split
    · next hnone =>
        refine ⟨_, rfl, h.setQueue fun t' c hw hnet => (mem_erase_of_ne fun heq => ?_).mpr
          (hawake t' c hw hnet)⟩
        subst heq
        cases hnone.symm.trans hw
    · next c hc =>
        obtain ⟨hcalls, rfl⟩ := h.caller t c hc
        split
        · next hready => exact h.finish hcalls hready fun t' ht' hne =>
            (mem_erase_of_ne hne).mpr ht'
        · next hready =>
            refine ⟨_, rfl, h.setQueue fun t' c' hw hnet => (mem_erase_of_ne fun heq => hnet ?_).mpr
              (hawake t' c' hw hnet)⟩
            subst heq
            cases hc.symm.trans hw
            exact h.mem_net hcalls hready

end Inv

/-- What is said of a state. -/
structure Answered (reply : Nat → V) (w : CallWorld V T) : Prop where
  /-- No two calls wait for one future. -/
  handles : (w.calls.map Call.handle).Nodup
  /-- Each call has returned once, or has not returned yet. -/
  once : (w.returned.map Prod.fst ++ w.calls.map Call.id).Perm (range w.issued)
  returned : ∀ x ∈ w.returned, x.2 = reply x.1
  awake : ∀ t c, w.waiting t = some c → c ∈ w.net ∨ t ∈ w.queue

/-- **Calls return their replies**, whatever else is awakened, without an abort, and no thread stays
suspended whose reply has come. -/
theorem calls_return_replies [DecidableEq T] {r : Except CallAbort (CallWorld V T)}
    (h : (callSystem bits reply).RunsWith (FewCalls bits) r) :
    ∃ w, r = .ok w ∧ Answered reply w := by
  have hinv : ∃ w, r = .ok w ∧ Inv bits reply w := by
    refine h.invariant (I := fun r => ∃ w, r = .ok w ∧ Inv bits reply w) ?_ ?_
    · rintro _ ⟨memory, rfl⟩
      exact ⟨_, rfl, .new memory⟩
    · rintro _ e r' ⟨w, rfl, hw⟩ hfew ⟨w', ⟨⟩, hstep⟩
      exact hw.step hstep hfew
  obtain ⟨w, rfl, hw⟩ := hinv
  exact ⟨w, rfl, hw.handles, hw.once, hw.returned, hw.awake⟩

/-- A thread is awakened before the reply comes, and again by it. -/
theorem calls_return_replies_seven :
    ∃ w : CallWorld Nat Unit, w.returned = [(0, 7)] ∧ Answered (fun _ => 7) w := by
  have h0 : (callSystem (V := Nat) (T := Unit) 16 fun _ => 7).RunsWith (FewCalls 16)
    (.ok (.new fun _ => ⟨false, none, [], none⟩)) :=
    .init ⟨_, rfl⟩
  have h1 := h0.step (e := .call ()) (by rintro _ ⟨⟩; decide) ⟨_, rfl, rfl⟩
  have h2 := h1.step (e := .wait ⟨0, 0, ()⟩) (by exact trivial) ⟨_, rfl, rfl⟩
  have h3 := h2.step (e := .awaken ()) (by exact trivial) ⟨_, rfl, rfl⟩
  have h4 := h3.step (e := .resume ()) (by exact trivial) ⟨_, rfl, rfl⟩
  have h5 := h4.step (e := .reply ⟨0, 0, ()⟩) (by exact trivial) ⟨_, rfl, rfl⟩
  have h6 := h5.step (e := .resume ()) (by exact trivial) ⟨_, rfl, rfl⟩
  obtain ⟨w, hw, hanswered⟩ := calls_return_replies h6
  cases hw
  exact ⟨_, rfl, hanswered⟩

end CharmRuntime.Threads
