import CharmRuntime.Lib.Transition
import Mathlib.Data.List.Nodup

/-!
# Location.ManagerList

The **array managers of a `CkLocMgr`**: a singly linked list of `ManagerRec`s from `firstManager`,
and the table `managers` from the ids of the arrays to their records. `addManager` puts a new record
in front, `deleteManager` walks the list for the record to unlink.

The walk goes on with `++cur`, to what stands in memory behind the record, and not to `cur->next`. A
pointer is an object that `new` made with an offset in it, counted in records; nothing can be read
behind an object. So `deleteManager` takes the record out exactly if it is the first one, the one
added last (`removes_iff`).
-/

namespace CharmRuntime.Location

open Lib Function List

/-- A pointer to a `ManagerRec`, or behind one. -/
structure RecPtr where
  block : Nat
  index : Nat
  deriving DecidableEq

structure ManagerRec (M : Type) where
  next : Option RecPtr
  mgr : M

/-- The members of `CkLocMgr` that the two calls use. -/
structure ManagerList (G M : Type) where
  heap : Nat → Option (ManagerRec M)
  firstManager : Option RecPtr
  /-- `managers`, where an array that is not there has `NULL`. -/
  managers : G → Option RecPtr
  nManagers : Nat
  /-- After `delete this`. -/
  deleted : Bool

inductive ListFault
  /-- What is read is no object. -/
  | badRead
  /-- `CkAssert`. -/
  | assertion
  deriving DecidableEq

/-- Where `prev` points: to `firstManager`, or to the `next` of a record. -/
inductive Link
  | firstManager
  | next (block : Nat)

namespace ManagerList

variable {G M : Type} [DecidableEq G] [DecidableEq M]

def new : ManagerList G M where
  heap _ := none
  firstManager := none
  managers _ := none
  nManagers := 0
  deleted := false

/-- `addManager`, where `n` is what `new` returns. -/
def addManager (s : ManagerList G M) (id : G) (mgr : M) (n : Nat) : ManagerList G M :=
  { s with
    heap := update s.heap n (some { next := s.firstManager, mgr := mgr })
    managers := update s.managers id (some ⟨n, 0⟩)
    nManagers := s.nManagers + 1
    firstManager := some ⟨n, 0⟩ }

def read (s : ManagerList G M) (p : RecPtr) : Option (ManagerRec M) :=
  if p.index = 0 then s.heap p.block else none

/-- The loop of `deleteManager`. -/
def walk (s : ManagerList G M) (mgr : M) (prev : Link) (cur : RecPtr) :
    Except ListFault (Link × RecPtr) :=
  match h : s.read cur with
  | none => .error .badRead
  | some r =>
    if r.mgr = mgr then .ok (prev, cur)
    -- `++cur`
    else walk s mgr (.next cur.block) ⟨cur.block, cur.index + 1⟩
termination_by 1 - cur.index
decreasing_by
  rw [read] at h
  split at h
  · omega
  · cases h

/-- `*prev = p`. -/
def setLink (s : ManagerList G M) (prev : Link) (p : Option RecPtr) : ManagerList G M :=
  match prev with
  | .firstManager => { s with firstManager := p }
  | .next block =>
    { s with heap := update s.heap block ((s.heap block).map fun r => { r with next := p }) }

def deleteManager (s : ManagerList G M) (id : G) (mgr : M) : Except ListFault (ManagerList G M) :=
  match s.firstManager with
  | none => .error .badRead
  | some first =>
    match s.walk mgr .firstManager first with
    | .error e => .error e
    | .ok (prev, cur) =>
      if s.managers id = some cur then
        let s := s.setLink prev ((s.read cur).bind fun r => r.next)
        .ok
          { s with
            heap := update s.heap cur.block none
            managers := update s.managers id none
            nManagers := s.nManagers - 1
            deleted := s.nManagers - 1 = 0 }
      else .error .assertion

/-- The records from a pointer on, each with its manager. -/
def Linked (s : ManagerList G M) : Option RecPtr → List (Nat × M) → Prop
  | p, [] => p = none
  | p, (b, m) :: l => p = some ⟨b, 0⟩ ∧ ∃ next, s.heap b = some ⟨next, m⟩ ∧ Linked s next l

/-- An array and its manager are in the table. -/
def Registered (s : ManagerList G M) (id : G) (mgr : M) : Prop :=
  ∃ b r, s.managers id = some ⟨b, 0⟩ ∧ s.heap b = some r ∧ r.mgr = mgr

end ManagerList

inductive ManagerCall (G M : Type)
  | addManager (id : G) (mgr : M) (n : Nat)
  | deleteManager (id : G) (mgr : M)

/-- Managers are added for arrays that have none, and taken out again; `new` returns what is not in
use. -/
def managerSystem (G M : Type) [DecidableEq G] [DecidableEq M] :
    Transition (ManagerList G M) (ManagerCall G M) where
  init s := s = .new
  step s call s' :=
    s.deleted = false ∧
      match call with
      | .addManager id mgr n =>
        s.managers id = none ∧ (∀ id', ¬ s.Registered id' mgr) ∧ s.heap n = none ∧
        s' = s.addManager id mgr n
      | .deleteManager id mgr => s.Registered id mgr ∧ s.deleteManager id mgr = .ok s'

/-! ### The invariant -/

variable {G M : Type} [DecidableEq G] [DecidableEq M] {s s' : ManagerList G M} {id : G} {mgr : M}

/-- The list stands in the memory as `l`, and the table leads to its records. -/
structure ListOk (s : ManagerList G M) (l : List (Nat × M)) : Prop where
  linked : s.Linked s.firstManager l
  blocks : (l.map Prod.fst).Nodup
  heap : ∀ b, s.heap b ≠ none → b ∈ l.map Prod.fst
  managers : ∀ id p, s.managers id = some p → p.index = 0 ∧ p.block ∈ l.map Prod.fst
  ids : ∀ id id' p, s.managers id = some p → s.managers id' = some p → id = id'
  nManagers : s.nManagers = l.length

namespace ManagerList

omit [DecidableEq G] [DecidableEq M] in
theorem Linked.congr {p : Option RecPtr} {l : List (Nat × M)} (h : s.Linked p l)
    (hheap : ∀ b ∈ l.map Prod.fst, s'.heap b = s.heap b) : s'.Linked p l := by
  induction l generalizing p with
  | nil => exact h
  | cons x l ih =>
    obtain ⟨b, m⟩ := x
    obtain ⟨hp, next, hb, hl⟩ := h
    rw [map_cons, forall_mem_cons] at hheap
    exact ⟨hp, next, hheap.1.trans hb, ih hl hheap.2⟩

omit [DecidableEq G] [DecidableEq M] in
theorem Linked.heap_ne_none {p : Option RecPtr} {l : List (Nat × M)} (h : s.Linked p l) :
    ∀ b ∈ l.map Prod.fst, s.heap b ≠ none := by
  induction l generalizing p with
  | nil => exact fun _ hb => absurd hb not_mem_nil
  | cons x l ih =>
    obtain ⟨-, next, hb, hl⟩ := h
    rw [map_cons, forall_mem_cons]
    exact ⟨fun hnone => absurd (hb.symm.trans hnone) (Option.some_ne_none _), ih hl⟩

omit [DecidableEq G] in
theorem walk_eq {b : Nat} {r : ManagerRec M} (hb : s.heap b = some r) (prev : Link) :
    s.walk mgr prev ⟨b, 0⟩ = if r.mgr = mgr then .ok (prev, ⟨b, 0⟩) else .error .badRead := by
  have hread : s.read ⟨b, 0⟩ = some r := by rw [read, if_pos rfl, hb]
  have hbehind : s.read ⟨b, 1⟩ = none := by rw [read, if_neg Nat.one_ne_zero]
  rw [walk]
  split
  · next h => cases hread.symm.trans h
  · next r' h =>
      cases hread.symm.trans h
      split
      · rfl
      · rw [walk]
        split
        · rfl
        · next h => cases hbehind.symm.trans h

/-- What is left when the first record is taken out. -/
def dropFirst (s : ManagerList G M) (id : G) (b : Nat) (next : Option RecPtr) :
    ManagerList G M where
  heap := update s.heap b none
  firstManager := next
  managers := update s.managers id none
  nManagers := s.nManagers - 1
  deleted := s.nManagers - 1 = 0

theorem deleteManager_eq {b : Nat} {next : Option RecPtr} {m : M}
    (hfirst : s.firstManager = some ⟨b, 0⟩)
    (hb : s.heap b = some ⟨next, m⟩) :
    s.deleteManager id mgr =
      if m = mgr then if s.managers id = some ⟨b, 0⟩ then .ok (s.dropFirst id b next) else
        .error .assertion
      else .error .badRead := by
  have hread : s.read ⟨b, 0⟩ = some ⟨next, m⟩ := by rw [read, if_pos rfl, hb]
  rw [deleteManager, hfirst]
  dsimp only
  rw [walk_eq hb]
  by_cases hm : m = mgr
  · rw [if_pos hm, if_pos hm]
    dsimp only
    rw [hread]
    rfl
  · rw [if_neg hm, if_neg hm]

end ManagerList

namespace ListOk

variable {l : List (Nat × M)}

omit [DecidableEq G] [DecidableEq M] in
theorem new : ListOk (.new : ManagerList G M) [] where
  linked := rfl
  blocks := nodup_nil
  heap _ hb := absurd rfl hb
  managers _ _ h := by cases h
  ids _ _ _ h := by cases h
  nManagers := rfl

omit [DecidableEq M] in
theorem addManager {n : Nat} (h : ListOk s l) (hn : s.heap n = none) :
    ListOk (s.addManager id mgr n) ((n, mgr) :: l) := by
  have hfresh : n ∉ l.map Prod.fst := fun hmem => h.linked.heap_ne_none n hmem hn
  have hmanagers : ∀ i p, (s.addManager id mgr n).managers i = some p →
      i = id ∧ p = ⟨n, 0⟩ ∨ i ≠ id ∧ s.managers i = some p := by
    intro i p hp
    change update s.managers id (some ⟨n, 0⟩) i = some p at hp
    rw [update_apply] at hp
    split at hp
    · next hi => exact Or.inl ⟨hi, (Option.some.inj hp).symm⟩
    · next hi => exact Or.inr ⟨hi, hp⟩
  refine ⟨⟨rfl, s.firstManager, update_self n _ s.heap, h.linked.congr fun b hb => ?_⟩, ?_,
    ?_, ?_, ?_, ?_⟩
  · have hne : b ≠ n := fun heq => hfresh (heq ▸ hb)
    exact update_of_ne hne _ _
  · exact nodup_cons.mpr ⟨hfresh, h.blocks⟩
  · intro b hb
    by_cases hbn : b = n
    · exact hbn ▸ mem_cons_self
    · refine mem_cons_of_mem _ (h.heap b ?_)
      rwa [show (s.addManager id mgr n).heap b = s.heap b from update_of_ne hbn _ _] at hb
  · intro i p hp
    obtain ⟨-, rfl⟩ | ⟨-, hp⟩ := hmanagers i p hp
    · exact ⟨rfl, mem_cons_self⟩
    · exact ⟨(h.managers i p hp).1, mem_cons_of_mem _ (h.managers i p hp).2⟩
  · intro i i' p hp hp'
    obtain ⟨rfl, hpn⟩ | ⟨-, hp⟩ := hmanagers i p hp
    · obtain ⟨rfl, -⟩ | ⟨-, hp'⟩ := hmanagers i' p hp'
      · rfl
      · subst hpn
        exact absurd (h.managers i' _ hp').2 hfresh
    · obtain ⟨-, hpn⟩ | ⟨-, hp'⟩ := hmanagers i' p hp'
      · subst hpn
        exact absurd (h.managers i _ hp).2 hfresh
      · exact h.ids i i' p hp hp'
  · exact congrArg Nat.succ h.nManagers

omit [DecidableEq M] in
theorem dropFirst {b : Nat} {next : Option RecPtr} {m : M} (h : ListOk s ((b, m) :: l))
    (hb : s.heap b = some ⟨next, m⟩)
    (hid : s.managers id = some ⟨b, 0⟩) : ListOk (s.dropFirst id b next) l := by
  obtain ⟨hfirst, next', hb', hlinked⟩ := h.linked
  cases hb.symm.trans hb'
  obtain ⟨hnotMem, hnodup⟩ := nodup_cons.mp h.blocks
  have hmanagers : ∀ i p, (s.dropFirst id b next).managers i = some p → i ≠ id ∧
    s.managers i = some p := by
    intro i p hp
    change update s.managers id none i = some p at hp
    rw [update_apply] at hp
    split at hp
    · cases hp
    · next hi => exact ⟨hi, hp⟩
  refine ⟨hlinked.congr fun x hx => ?_, hnodup, ?_, ?_, ?_, ?_⟩
  · have hne : x ≠ b := fun heq => hnotMem (heq ▸ hx)
    exact update_of_ne hne _ _
  · intro x hx
    change update s.heap b none x ≠ none at hx
    rw [update_apply] at hx
    split at hx
    · exact absurd rfl hx
    · next hne => exact (mem_cons.mp (h.heap x hx)).resolve_left hne
  · intro i p hp
    obtain ⟨hi, hp⟩ := hmanagers i p hp
    obtain ⟨hindex, hmem⟩ := h.managers i p hp
    refine ⟨hindex, (mem_cons.mp hmem).resolve_left fun hpb => hi (h.ids i id p hp ?_)⟩
    rw [hid]
    obtain ⟨block, index⟩ := p
    obtain rfl : index = 0 := hindex
    obtain rfl : block = b := hpb
    rfl
  · exact fun i i' p hp hp' => h.ids i i' p (hmanagers i p hp).2 (hmanagers i' p hp').2
  · change s.nManagers - 1 = l.length
    rw [h.nManagers]
    rfl

theorem deleteManager (h : ListOk s l) (hdelete : s.deleteManager id mgr = .ok s') :
    ∃ b next rest, l = (b, mgr) :: rest ∧ s.heap b = some ⟨next, mgr⟩ ∧
    s.managers id = some ⟨b, 0⟩ ∧
      s' = s.dropFirst id b next := by
  cases l with
  | nil =>
    have hnone : s.firstManager = none := h.linked
    rw [ManagerList.deleteManager, hnone] at hdelete
    cases hdelete
  | cons x rest =>
    obtain ⟨b, m⟩ := x
    obtain ⟨hfirst, next, hb, -⟩ := h.linked
    rw [ManagerList.deleteManager_eq hfirst hb] at hdelete
    split at hdelete
    · next hm =>
        split at hdelete
        · next hid =>
            subst hm
            exact ⟨b, next, rest, rfl, hb, hid, (Except.ok.inj hdelete).symm⟩
        · cases hdelete
    · cases hdelete

end ListOk

/-- **Every reachable list is in order.** -/
theorem listOk_reachable (h : (managerSystem G M).Reachable s) : ∃ l, ListOk s l := by
  refine Transition.Reachable.invariant (I := fun s => ∃ l, ListOk s l) ?_ ?_ h
  · rintro _ rfl
    exact ⟨[], .new⟩
  · rintro s call s' ⟨l, hl⟩ ⟨-, hcall⟩
    cases call with
    | addManager id mgr n =>
      obtain ⟨-, -, hn, rfl⟩ := hcall
      exact ⟨_, hl.addManager hn⟩
    | deleteManager id mgr =>
      obtain ⟨b, next, rest, rfl, hb, hid, rfl⟩ := hl.deleteManager hcall.2
      exact ⟨rest, hl.dropFirst hb hid⟩

/-! ### What is taken out -/

/-- The call takes the record of this manager out of the list, and nothing else. -/
def Removes (s : ManagerList G M) (id : G) (mgr : M) : Prop :=
  ∃ s' l₁ b l₂, s.deleteManager id mgr = .ok s' ∧ s.Linked s.firstManager (l₁ ++ (b, mgr) :: l₂) ∧
    s'.Linked s'.firstManager (l₁ ++ l₂) ∧ s'.managers id = none ∧
    (∀ id', id' ≠ id → s'.managers id' = s.managers id' ∧ ∀ mgr', s.Registered id' mgr' →
    s'.Registered id' mgr') ∧
    s'.nManagers = (l₁ ++ l₂).length

/-- **A manager is taken out exactly if its record is the first one.** -/
theorem removes_iff (h : (managerSystem G M).Reachable s) (hregistered : s.Registered id mgr) :
    Removes s id mgr ↔ s.firstManager = s.managers id := by
  obtain ⟨l, hl⟩ := listOk_reachable h
  constructor
  · rintro ⟨s', _, _, _, hdelete, -⟩
    obtain ⟨b, next, rest, rfl, -, hid, -⟩ := hl.deleteManager hdelete
    rw [hid]
    exact hl.linked.1
  · intro hfirst
    obtain ⟨b, r, hid, hb, rfl⟩ := hregistered
    rw [hid] at hfirst
    cases l with
    | nil =>
      have hnone : s.firstManager = none := hl.linked
      cases hfirst.symm.trans hnone
    | cons x rest =>
      obtain ⟨b', m⟩ := x
      obtain ⟨hfirst', next, hb', -⟩ := hl.linked
      cases hfirst.symm.trans hfirst'
      cases hb.symm.trans hb'
      have hdrop := hl.dropFirst hb hid
      refine ⟨s.dropFirst id b next, [], b, rest, ?_, hl.linked, hdrop.linked, update_self _ _ _,
        fun id' hne => ?_, hdrop.nManagers⟩
      · rw [ManagerList.deleteManager_eq hfirst hb, if_pos rfl, if_pos hid]
      · have hkept : (s.dropFirst id b next).managers id' = s.managers id' := update_of_ne hne _ _
        refine ⟨hkept, ?_⟩
        rintro mgr' ⟨c, r', hid', hc, hr'⟩
        refine ⟨c, r', hkept.trans hid', (update_of_ne ?_ _ _).trans hc, hr'⟩
        rintro rfl
        exact hne (hl.ids _ _ _ hid' hid)

/-- Manager 1 is added, and manager 2 after it. -/
def twoManagers : ManagerList Nat Nat := (ManagerList.new.addManager 1 1 10).addManager 2 2 20

theorem reachable_twoManagers : (managerSystem Nat Nat).Reachable twoManagers := by
  have hone : (managerSystem Nat Nat).step .new (.addManager 1 1 10) (.addManager .new 1 1 10) :=
    ⟨rfl, rfl, by rintro _ ⟨_, _, ⟨⟩, -⟩, rfl, rfl⟩
  have hother : ∀ id', ¬ (ManagerList.addManager .new 1 1 10).Registered id' 2 := by
    rintro id' ⟨b, r, -, hb, hr⟩
    rw [ManagerList.addManager] at hb
    dsimp only at hb
    rw [update_apply] at hb
    split at hb
    · cases hb
      cases hr
    · cases hb
  have htwo :
    (managerSystem Nat Nat).step (.addManager .new 1 1 10) (.addManager 2 2 20) twoManagers :=
    ⟨rfl, rfl, hother, rfl, rfl⟩
  exact (Transition.Reachable.step (.init rfl) hone).step htwo

/-- The manager added last is taken out, and the other one stays. -/
theorem removes_last : Removes twoManagers 2 2 :=
  (removes_iff reachable_twoManagers ⟨20, _, rfl, rfl, rfl⟩).mpr rfl

/-- Of two managers the one added first is not found. -/
theorem not_removes :
    ¬ ∀ (s : ManagerList Nat Nat) (id mgr : Nat), (managerSystem Nat Nat).Reachable s →
    s.Registered id mgr → Removes s id mgr := by
  intro hall
  obtain ⟨s', _, _, _, hdelete, -⟩ := hall _ 1 1 reachable_twoManagers ⟨10, _, rfl, rfl, rfl⟩
  rw [ManagerList.deleteManager_eq rfl rfl] at hdelete
  cases hdelete

end CharmRuntime.Location
