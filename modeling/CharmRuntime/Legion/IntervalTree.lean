import Mathlib

/-!
# Legion.IntervalTree

**The interval tree** of Legion. The leaves are intervals, and an inner node has the bounds of the
leaves below it. An interval that meets the leaves of both children makes one tree of them: the
leaves of the right one are inserted into the left one (`absorb`), which calls for `insert` again.
The trees that it is called for have fewer leaves each time, so that as many levels of calls as
there are leaves are enough (`insert_spec`).

The nodes are numbered as `new` makes them.
-/

namespace CharmRuntime.Legion

open Set Multiset List

/-- A node with its number. A leaf has null children. -/
inductive IntervalTreeNode
  | leaf (id : Nat) (leftBound rightBound : Int)
  | inner (id : Nat) (leftBound rightBound : Int) (left_node right_node : IntervalTreeNode)

structure NodeHeap where
  next : Nat
  deleted : Multiset Nat

def NodeHeap.delete (h : NodeHeap) (ids : Multiset Nat) :
    NodeHeap := { h with deleted := ids + h.deleted }

namespace IntervalTreeNode

def leftBound : IntervalTreeNode → Int
  | leaf _ leftBound _ => leftBound
  | inner _ leftBound _ _ _ => leftBound

def rightBound : IntervalTreeNode → Int
  | leaf _ _ rightBound => rightBound
  | inner _ _ rightBound _ _ => rightBound

def ids : IntervalTreeNode → Multiset Nat
  | leaf id _ _ => {id}
  | inner id _ _ a b => {id} + (a.ids + b.ids)

def intersects (left right : Int) : IntervalTreeNode → Bool
  | leaf _ lb rb =>
    if right < lb then false
    else if left > rb then false
    else if left ≤ lb ∧ right ≥ rb then true
    else if lb ≤ left ∧ left ≤ rb then true
    else if lb ≤ right ∧ right ≤ rb then true
    else false
  | inner _ lb rb a b =>
    if right < lb then false
    else if left > rb then false
    else if a.intersects left right then true
    else if b.intersects left right then true
    else false

def dominates (left right : Int) : IntervalTreeNode → Bool
  | leaf _ lb rb => if lb ≤ left ∧ right ≤ rb then true else false
  | inner _ lb rb a b =>
    if lb ≤ left ∧ right ≤ rb then
      if a.dominates left right then true
      else if b.dominates left right then true
      else false
    else false

def count : IntervalTreeNode → Nat
  | leaf _ _ _ => 1
  | inner _ _ _ a b => 1 + a.count + b.count

/-- The number of leaves. -/
def leaves : IntervalTreeNode → Nat
  | leaf _ _ _ => 1
  | inner _ _ _ a b => a.leaves + b.leaves

abbrev Result := Option (IntervalTreeNode × NodeHeap)

/-- What `insert` is, for the functions that it calls and that call it. -/
abbrev Insert := IntervalTreeNode → Int → Int → NodeHeap → Result

/-- `reinsert`, of a node into a target. -/
def reinsert (insert : Insert) : IntervalTreeNode → IntervalTreeNode → NodeHeap → Result
  | leaf _ lb rb, target, h => insert target lb rb h
  | inner _ _ _ a b, target, h => do
    let (target, h) ← reinsert insert a target h
    reinsert insert b target h

/-- The node `id` becomes its left child, with the leaves of its right child: "make sure we don't
delete the new tree". -/
def absorb (insert : Insert) (id : Nat) (a b : IntervalTreeNode) (h : NodeHeap) : Result := do
  let (result, h) ← reinsert insert b a h
  some (result, h.delete ({id} + b.ids))

/-- `left_node = left_node->insert(left, right)`. -/
def insertLeft (insert : Insert) (id : Nat) (lb rb : Int) (a b : IntervalTreeNode)
    (left right : Int) (h : NodeHeap) : Result := do
  let (a, h) ← insert a left right h
  some (inner id lb rb a b, h)

/-- `right_node = right_node->insert(left, right)`. -/
def insertRight (insert : Insert) (id : Nat) (lb rb : Int) (a b : IntervalTreeNode)
    (left right : Int) (h : NodeHeap) : Result := do
  let (b, h) ← insert b left right h
  some (inner id lb rb a b, h)

def insertLocal (insert : Insert) (id : Nat) (lb rb : Int) (a b : IntervalTreeNode)
    (left right : Int) (h : NodeHeap) : Result :=
  if a.intersects left right && b.intersects left right then do
    let (a, h) ← insert a left right h
    absorb insert id a b h
  else if a.intersects left right then insertLeft insert id lb rb a b left right h
  else if b.intersects left right then insertRight insert id lb rb a b left right h
  else if a.count ≤ b.count then insertLeft insert id lb rb a b left right h
  else insertRight insert id lb rb a b left right h

/-- `insert`. No value: `assert(false)`, or the calls are more than `fuel` levels deep. -/
def insert (DISCRETE : Bool) : Nat → Insert
  | 0, _, _, _, _ => none
  | _ + 1, leaf id lb rb, left, right, h =>
    if lb ≤ left ∧ right ≤ rb then some (leaf id lb rb, h)
    else if left ≤ lb ∧ rb ≤ right then some (leaf id left right, h)
    else if lb ≤ right ∧ right ≤ rb then some (leaf id left rb, h)
    else if lb ≤ left ∧ left ≤ rb then some (leaf id lb right, h)
    else if DISCRETE ∧ left = rb + 1 then some (leaf id lb right, h)
    else if DISCRETE ∧ right + 1 = lb then some (leaf id left rb, h)
    else if left > rb then
      some (inner id lb right (leaf h.next lb rb) (leaf (h.next + 1) left right),
      { h with next := h.next + 2 })
    else if right < lb then
      some (inner id left rb (leaf h.next left right) (leaf (h.next + 1) lb rb),
      { h with next := h.next + 2 })
    else none
  | fuel + 1, inner id lb rb a b, left, right, h =>
    let insert := insert DISCRETE fuel
    if lb ≤ left ∧ right ≤ rb then insertLocal insert id lb rb a b left right h
    else if left ≤ lb ∧ rb ≤ right then some (leaf id left right, h.delete (a.ids + b.ids))
    else if lb ≤ right ∧ right ≤ rb then insertLocal insert id left rb a b left right h
    else if lb ≤ left ∧ left ≤ rb then insertLocal insert id lb right a b left right h
    else if DISCRETE ∧ left = rb + 1 then insertRight insert id lb right a b left right h
    else if DISCRETE ∧ right + 1 = lb then insertLeft insert id left rb a b left right h
    else if left > rb then insertRight insert id lb right a b left right h
    else if right < lb then insertLeft insert id left rb a b left right h
    else none

/-- The children touch, so that `merge` puts them together. -/
def touch (DISCRETE : Bool) (a b : IntervalTreeNode) : Bool :=
  if DISCRETE then a.rightBound + 1 = b.leftBound else a.rightBound = b.leftBound

def merge (DISCRETE : Bool) (insert : Insert) : IntervalTreeNode → NodeHeap → Result
  | leaf id lb rb, h => some (leaf id lb rb, h)
  | inner id lb rb a b, h =>
    if touch DISCRETE a b then absorb insert id a b h
    else do
      let (a, h) ← merge DISCRETE insert a h
      let (b, h) ← merge DISCRETE insert b h
      if touch DISCRETE a b then absorb insert id a b h else some (inner id lb rb a b, h)

end IntervalTreeNode

structure IntervalTree where
  root : Option IntervalTreeNode
  heap : NodeHeap

namespace IntervalTree

def new : IntervalTree := { root := none, heap := { next := 0, deleted := 0 } }

def insert (DISCRETE : Bool) (t : IntervalTree) (left right : Int) : Option IntervalTree :=
  match t.root with
  | none =>
    some { root := some (.leaf t.heap.next left
      right), heap := { t.heap with next := t.heap.next + 1 } }
  | some root => do
    let insert := IntervalTreeNode.insert DISCRETE root.leaves
    let (root, h) ← insert root left right t.heap
    let (root, h) ← root.merge DISCRETE insert h
    some { root := some root, heap := h }

def intersects (t : IntervalTree) (left right : Int) : Bool := t.root.any (·.intersects left right)

def dominates (t : IntervalTree) (left right : Int) : Bool := t.root.any (·.dominates left right)

/-- The insertions from the constructor's tree on. -/
def run (DISCRETE : Bool) (intervals : List (Int × Int)) : Option IntervalTree :=
  intervals.foldlM (fun t iv => t.insert DISCRETE iv.1 iv.2) new

end IntervalTree

/-! ### Trees -/

namespace IntervalTreeNode

/-- The integers in the leaves. -/
def points : IntervalTreeNode → Set Int
  | leaf _ lb rb => Set.Icc lb rb
  | inner _ _ _ a b => a.points ∪ b.points

/-- The bounds of the nodes are those of their leaves, which have no integer in common. -/
def Ok : IntervalTreeNode → Prop
  | leaf _ lb rb => lb ≤ rb
  | inner _ lb rb a b =>
    IsLeast (a.points ∪ b.points) lb ∧ IsGreatest (a.points ∪ b.points) rb ∧
    Disjoint a.points b.points ∧ a.Ok ∧ b.Ok

variable {t a b : IntervalTreeNode} {id n fuel : Nat} {lb rb left right : Int} {h : NodeHeap}

theorem leaves_pos (t : IntervalTreeNode) : 0 < t.leaves := by
  induction t with
  | leaf id lb rb => exact one_pos
  | inner id lb rb a b iha _ => exact Nat.add_pos_left iha _

theorem intersects_iff (ht : t.Ok) (hlr : left ≤ right) :
    t.intersects left right = true ↔ ¬ Disjoint (Set.Icc left right) t.points := by
  induction t with
  | leaf id lb rb =>
    have hmeet : (leaf id lb rb).intersects left right = true ↔ lb ≤ right ∧ left ≤ rb := by
      have hle : lb ≤ rb := ht
      rw [intersects]
      split_ifs <;> simp <;> omega
    rw [hmeet, not_disjoint_iff]
    constructor
    · rintro ⟨hl, hr⟩
      exact ⟨max left lb, ⟨le_max_left _ _, max_le hlr hl⟩, le_max_right _ _, max_le hr ht⟩
    · rintro ⟨x, hx, hx'⟩
      exact ⟨hx'.1.trans hx.2, hx.1.trans hx'.2⟩
  | inner id lb rb a b iha ihb =>
    obtain ⟨hleast, hgreatest, -, ha, hb⟩ := ht
    have hout : right < lb ∨ rb < left → Disjoint (Set.Icc left right) (a.points ∪ b.points) := by
      intro hout
      refine disjoint_left.mpr fun x hx hmem => ?_
      have hlb := hleast.2 hmem
      have hrb := hgreatest.2 hmem
      obtain ⟨hl, hr⟩ := hx
      omega
    rw [points, intersects]
    split_ifs with h1 h2 h3 h4
    · exact iff_of_false (by decide) (not_not.mpr (hout (.inl h1)))
    · exact iff_of_false (by decide) (not_not.mpr (hout (.inr h2)))
    · exact iff_of_true rfl fun hdisj => (iha ha).mp h3 (disjoint_union_right.mp hdisj).1
    · exact iff_of_true rfl fun hdisj => (ihb hb).mp h4 (disjoint_union_right.mp hdisj).2
    · refine iff_of_false (by decide) (not_not.mpr (disjoint_union_right.mpr ⟨?_, ?_⟩))
      · exact not_not.mp fun hmeet => h3 ((iha ha).mpr hmeet)
      · exact not_not.mp fun hmeet => h4 ((ihb hb).mpr hmeet)

/-- A call ends with a tree of the integers `S`, in at most `n` leaves. Its nodes and the deleted
ones are those of the call (`ids`) and new ones, whatever other nodes there are. -/
structure Becomes (h : NodeHeap) (ids : Multiset Nat) (S : Set Int) (n : Nat)
    (r : IntervalTreeNode × NodeHeap) : Prop where
  ok : r.1.Ok
  points : r.1.points = S
  leaves : r.1.leaves ≤ n
  heap : ∀ c, ids + h.deleted + c = Multiset.range h.next →
    r.1.ids + r.2.deleted + c = Multiset.range r.2.next

/-- The call inserts the interval into the tree. An interval that meets a leaf does not make more of
them. -/
def Inserts (result : Result) (h : NodeHeap) (t : IntervalTreeNode) (left right : Int) : Prop :=
  ∃ r, result = some r ∧ Becomes h t.ids (t.points ∪ Set.Icc left right) (t.leaves + 1) r ∧
    (¬ Disjoint (Set.Icc left right) t.points → r.1.leaves ≤ t.leaves)

/-- `insert` is right for trees of at most `n` leaves. -/
def InsertSpec (insert : Insert) (n : Nat) : Prop :=
  ∀ t : IntervalTreeNode, t.Ok → t.leaves ≤ n → ∀ left right, left ≤ right → ∀ h,
    Inserts (insert t left right h) h t left right

variable {insert : Insert}

theorem reinsert_spec (hins : InsertSpec insert n) {src : IntervalTreeNode}
    (hsrc : src.Ok) (ht : t.Ok)
    (hn : t.leaves + src.leaves ≤ n + 1) (h : NodeHeap) :
    ∃ r, reinsert insert src t h = some r ∧
    Becomes h t.ids (t.points ∪ src.points) (t.leaves + src.leaves) r := by
  induction src generalizing t h with
  | leaf id lb rb =>
    obtain ⟨r, hr, hbecomes, -⟩ := hins t ht (Nat.le_of_succ_le_succ hn) lb rb hsrc h
    exact ⟨r, hr, hbecomes⟩
  | inner id lb rb a b iha ihb =>
    obtain ⟨-, -, -, ha, hb⟩ := hsrc
    rw [leaves, ← add_assoc] at hn
    have hpos := b.leaves_pos
    obtain ⟨r1, hr1, h1⟩ := iha ha ht (by omega) h
    have hle := h1.leaves
    obtain ⟨r2, hr2, h2⟩ := ihb hb h1.ok (by omega) r1.2
    have hle' := h2.leaves
    refine ⟨r2, ?_, h2.ok, ?_, ?_, fun c hc => h2.heap c (h1.heap c hc)⟩
    · rw [reinsert, hr1]
      exact hr2
    · rw [h2.points, h1.points, union_assoc]
      rfl
    · rw [leaves]
      omega

theorem absorb_spec (hins : InsertSpec insert n) (ha : a.Ok) (hb : b.Ok)
    (hn : a.leaves + b.leaves ≤ n + 1) (id : Nat)
    (h : NodeHeap) : ∃ r, absorb insert id a b h = some r ∧
      Becomes h ({id} + (a.ids + b.ids)) (a.points ∪ b.points) (a.leaves + b.leaves) r := by
  obtain ⟨r, hr, hbecomes⟩ := reinsert_spec hins hb ha hn h
  refine ⟨(r.1, r.2.delete ({id} + b.ids)), ?_, hbecomes.ok, hbecomes.points, hbecomes.leaves,
    fun c hc => ?_⟩
  · rw [absorb, hr]
    rfl
  · have hheap := hbecomes.heap ({id} + b.ids + c) (by rw [← hc]; abel)
    change r.1.ids + ({id} + b.ids + r.2.deleted) + c = Multiset.range r.2.next
    rw [← hheap]
    abel

theorem leaf_becomes (hlr : left ≤ right) (ht : lb ≤ rb) (hclose : left ≤ rb + 1 ∧ lb ≤ right + 1)
    {l r : Int}
    (hl : l = min lb left) (hr : r = max rb right) (id : Nat) (h : NodeHeap) :
    Becomes h {id} (Set.Icc lb rb ∪ Set.Icc left right) 1 (leaf id l r, h) where
  ok := show l ≤ r by omega
  points := by
    ext x
    rw [points, mem_union, Set.mem_Icc, Set.mem_Icc, Set.mem_Icc]
    omega
  leaves := le_refl 1
  heap _ hc := hc

theorem two_leaves_becomes {l r : Int} (ht : lb ≤ rb) (hlr : l ≤ r) (hfar : rb < l) (id : Nat)
    (h : NodeHeap) :
    Becomes h {id} (Set.Icc lb rb ∪ Set.Icc l r) 2
      (inner id lb r (leaf h.next lb rb) (leaf (h.next + 1) l r),
      { h with next := h.next + 2 }) where
  ok := by
    refine ⟨⟨.inl ⟨le_rfl, ht⟩, fun x hx => ?_⟩, ⟨.inr ⟨hlr, le_rfl⟩, fun x hx => ?_⟩, ?_, ht, hlr⟩
    · rcases hx with hx | hx
      · exact hx.1
      · exact (ht.trans hfar.le).trans hx.1
    · rcases hx with hx | hx
      · exact (hx.2.trans hfar.le).trans hlr
      · exact hx.2
    · exact disjoint_left.mpr fun x hx hx' => absurd (hfar.trans_le hx'.1) (not_lt.mpr hx.2)
  points := rfl
  leaves := le_refl 2
  heap c hc := by
    rw [Multiset.range_succ, Multiset.range_succ, ← hc, ← singleton_add, ← singleton_add,
      ids, ids, ids]
    abel

theorem inner_ok {l r : Int} {S : Set Int} (hlr : left ≤ right) (hleast : IsLeast S lb)
    (hgreatest : IsGreatest S rb)
    (hl : l = min lb left) (hr : r = max rb right) (ha : a.Ok) (hb : b.Ok)
    (hdisj : Disjoint a.points b.points)
    (hpoints : a.points ∪ b.points = S ∪ Set.Icc left right) : (inner id l r a b).Ok := by
  refine ⟨?_, ?_, hdisj, ha, hb⟩
  · rw [hpoints, hl]
    exact hleast.union (isLeast_Icc hlr)
  · rw [hpoints, hr]
    exact hgreatest.union (isGreatest_Icc hlr)

variable {l r : Int}

theorem insertLeft_spec (hins : InsertSpec insert n) (ht : (inner id lb rb a b).Ok)
    (hn : a.leaves ≤ n)
    (hlr : left ≤ right) (hl : l = min lb left) (hr : r = max rb right)
    (hdisj : Disjoint (Set.Icc left right) b.points)
    (h : NodeHeap) :
    Inserts (insertLeft insert id l r a b left right h) h (inner id lb rb a b) left right := by
  obtain ⟨hleast, hgreatest, hab, ha, hb⟩ := ht
  obtain ⟨q, hq, hbecomes, hmeets⟩ := hins a ha hn left right hlr h
  have hpoints : q.1.points ∪ b.points = a.points ∪ b.points ∪ Set.Icc left right := by
    rw [hbecomes.points, union_right_comm]
  refine ⟨(inner id l r q.1 b, q.2), ?_, ⟨?_, hpoints, ?_, fun c hc => ?_⟩, fun hmeet => ?_⟩
  · rw [insertLeft, hq]
    rfl
  · refine inner_ok hlr hleast hgreatest hl hr hbecomes.ok hb ?_ hpoints
    rw [hbecomes.points]
    exact disjoint_union_left.mpr ⟨hab, hdisj⟩
  · have hle := hbecomes.leaves
    simp only [leaves]
    omega
  · have hheap := hbecomes.heap ({id} + b.ids + c) (by rw [← hc, ids]; abel)
    rw [← hheap, ids]
    abel
  · have hle := hmeets fun hdisj' => hmeet (disjoint_union_right.mpr ⟨hdisj', hdisj⟩)
    exact Nat.add_le_add_right hle _

theorem insertRight_spec (hins : InsertSpec insert n) (ht : (inner id lb rb a b).Ok)
    (hn : b.leaves ≤ n)
    (hlr : left ≤ right) (hl : l = min lb left) (hr : r = max rb right)
    (hdisj : Disjoint (Set.Icc left right) a.points)
    (h : NodeHeap) :
    Inserts (insertRight insert id l r a b left right h) h (inner id lb rb a b) left right := by
  obtain ⟨hleast, hgreatest, hab, ha, hb⟩ := ht
  obtain ⟨q, hq, hbecomes, hmeets⟩ := hins b hb hn left right hlr h
  have hpoints : a.points ∪ q.1.points = a.points ∪ b.points ∪ Set.Icc left right := by
    rw [hbecomes.points, union_assoc]
  refine ⟨(inner id l r a q.1, q.2), ?_, ⟨?_, hpoints, ?_, fun c hc => ?_⟩, fun hmeet => ?_⟩
  · rw [insertRight, hq]
    rfl
  · refine inner_ok hlr hleast hgreatest hl hr ha hbecomes.ok ?_ hpoints
    rw [hbecomes.points]
    exact disjoint_union_right.mpr ⟨hab, hdisj.symm⟩
  · have hle := hbecomes.leaves
    simp only [leaves]
    omega
  · have hheap := hbecomes.heap ({id} + a.ids + c) (by rw [← hc, ids]; abel)
    rw [← hheap, ids]
    abel
  · have hle := hmeets fun hdisj' => hmeet (disjoint_union_right.mpr ⟨hdisj, hdisj'⟩)
    exact Nat.add_le_add_left hle _

theorem insert_local_spec (hins : InsertSpec insert n) (ht : (inner id lb rb a b).Ok)
    (hn : a.leaves + b.leaves ≤ n + 1)
    (hlr : left ≤ right) (hl : l = min lb left) (hr : r = max rb right) (h : NodeHeap) :
    Inserts (insertLocal insert id l r a b left right h) h (inner id lb rb a b) left right := by
  have hposa := a.leaves_pos
  have hposb := b.leaves_pos
  have hna : a.leaves ≤ n := by omega
  have hnb : b.leaves ≤ n := by omega
  have hmeeta := intersects_iff ht.2.2.2.1 hlr
  have hmeetb := intersects_iff ht.2.2.2.2 hlr
  rw [insertLocal]
  split_ifs with h1 h2 h3 h4
  · rw [Bool.and_eq_true, hmeeta] at h1
    obtain ⟨q, hq, hbecomes, hmeets⟩ := hins a ht.2.2.2.1 hna left right hlr h
    have hle := hmeets h1.1
    obtain ⟨q', hq', h'⟩ :=
      absorb_spec hins hbecomes.ok ht.2.2.2.2 (show q.1.leaves + b.leaves ≤ n + 1 by omega) id q.2
    have hle' := h'.leaves
    refine ⟨q', by rw [hq]; exact hq', ⟨h'.ok, ?_, ?_, fun c hc => h'.heap c ?_⟩, fun _ => ?_⟩
    · rw [h'.points, hbecomes.points, union_right_comm]
      rfl
    · rw [leaves]
      omega
    · rw [← hbecomes.heap ({id} + b.ids + c) (by rw [← hc, ids]; abel)]
      abel
    · rw [leaves]
      omega
  · exact insertLeft_spec hins ht hna hlr hl hr
      (not_not.mp fun hmeet => h1 (by rw [h2, hmeetb.mpr hmeet]; rfl)) h
  · exact insertRight_spec hins ht hnb hlr hl hr (not_not.mp fun hmeet => h2 (hmeeta.mpr hmeet)) h
  · exact insertLeft_spec hins ht hna hlr hl hr (not_not.mp fun hmeet => h3 (hmeetb.mpr hmeet)) h
  · exact insertRight_spec hins ht hnb hlr hl hr (not_not.mp fun hmeet => h2 (hmeeta.mpr hmeet)) h

/-- **`insert` inserts**, when it may be called as many levels deep as the tree has leaves. -/
theorem insert_spec (DISCRETE : Bool) (n : Nat) :
    InsertSpec (IntervalTreeNode.insert DISCRETE n) n := by
  induction n with
  | zero => exact fun t _ hn => absurd t.leaves_pos (not_lt.mpr hn)
  | succ n ih =>
    intro t ht hn left right hlr h
    cases t with
    | leaf id lb rb =>
      have hle : lb ≤ rb := ht
      have hgrows {l r : Int} (hclose : left ≤ rb + 1 ∧ lb ≤ right + 1) (hl : l = min lb left)
        (hr : r = max rb right) :
          Inserts (some (leaf id l r, h)) h (leaf id lb rb) left right :=
        have hbecomes := leaf_becomes hlr ht hclose hl hr id h
        ⟨_, rfl, ⟨hbecomes.ok, hbecomes.points, Nat.le_succ 1, hbecomes.heap⟩, fun _ => le_refl 1⟩
      rw [insert.eq_def]
      dsimp only
      split_ifs with h1 h2 h3 h4 h5 h6 h7 h8
      iterate 6 exact hgrows (by omega) (by omega) (by omega)
      · refine ⟨_, rfl, two_leaves_becomes ht hlr h7 id h, fun hmeet => absurd ?_ hmeet⟩
        exact disjoint_left.mpr fun x hx hx' => absurd (h7.trans_le hx.1) (not_lt.mpr hx'.2)
      · refine ⟨_, rfl, ?_, fun hmeet => absurd ?_ hmeet⟩
        · have hbecomes := two_leaves_becomes hlr ht h8 id h
          rwa [union_comm] at hbecomes
        · exact disjoint_left.mpr fun x hx hx' => absurd (h8.trans_le hx'.1) (not_lt.mpr hx.2)
      · omega
    | inner id lb rb a b =>
      have hle : a.leaves + b.leaves ≤ n + 1 := hn
      have hposa := a.leaves_pos
      have hposb := b.leaves_pos
      have hlocal {l r : Int} (hl : l = min lb left) (hr : r = max rb right) :=
        insert_local_spec ih ht hle hlr hl hr h
      have hbounds : ∀ x ∈ a.points ∪ b.points, lb ≤ x ∧ x ≤ rb :=
        fun x hx => ⟨ht.1.2 hx, ht.2.1.2 hx⟩
      have hleft {l r : Int} (hout : right < lb) (hl : l = min lb left) (hr : r = max rb right) :=
        insertLeft_spec ih ht (show a.leaves ≤ n by omega) hlr hl hr
          (disjoint_left.mpr fun x hx hmem => by
          have hx' := hbounds x (.inr hmem)
          obtain ⟨-, hxr⟩ := hx
          omega) h
      have hright {l r : Int} (hout : rb < left) (hl : l = min lb left) (hr : r = max rb right) :=
        insertRight_spec ih ht (show b.leaves ≤ n by omega) hlr hl hr
          (disjoint_left.mpr fun x hx hmem => by
          have hx' := hbounds x (.inl hmem)
          obtain ⟨hxl, -⟩ := hx
          omega) h
      rw [insert.eq_def]
      dsimp only
      split_ifs with h1 h2
      · exact hlocal (by omega) (by omega)
      · have hcovered : a.points ∪ b.points ⊆ Set.Icc left right := fun x hx =>
          ⟨h2.1.trans (hbounds x hx).1, (hbounds x hx).2.trans h2.2⟩
        refine ⟨_, rfl, ⟨hlr, (union_eq_self_of_subset_left hcovered).symm, ?_, fun c hc => ?_⟩,
          fun _ => ?_⟩
        · exact Nat.le_add_left 1 _
        · change {id} + (a.ids + b.ids + h.deleted) + c = Multiset.range h.next
          rw [← hc, ids]
          abel
        · exact (inner id lb rb a b).leaves_pos
      · exact hlocal (by omega) (by omega)
      · exact hlocal (by omega) (by omega)
      · exact hright (by omega) (by omega) (by omega)
      · exact hleft (by omega) (by omega) (by omega)
      · exact hright (by omega) (by omega) (by omega)
      · exact hleft (by omega) (by omega) (by omega)
      · omega

theorem merge_spec (DISCRETE : Bool) (hins : InsertSpec insert n) (ht : t.Ok)
    (hn : t.leaves ≤ n + 1) (h : NodeHeap) :
    ∃ r, merge DISCRETE insert t h = some r ∧ Becomes h t.ids t.points t.leaves r := by
  induction t generalizing h with
  | leaf id lb rb => exact ⟨_, rfl, ht, rfl, le_refl _, fun _ hc => hc⟩
  | inner id lb rb a b iha ihb =>
    obtain ⟨hleast, hgreatest, hab, ha, hb⟩ := ht
    rw [leaves] at hn
    rw [merge]
    split
    · exact absorb_spec hins ha hb hn id h
    · obtain ⟨q, hq, h1⟩ := iha ha (by omega) h
      obtain ⟨q', hq', h2⟩ := ihb hb (by omega) q.2
      have hle := h1.leaves
      have hle' := h2.leaves
      have hheap : ∀ c, ids (inner id lb rb a b) + h.deleted + c = Multiset.range h.next →
          {id} + (q.1.ids + q'.1.ids) + q'.2.deleted + c = Multiset.range q'.2.next :=
          fun c hc => by
        rw [← h2.heap ({id} + q.1.ids + c)
          (by rw [← h1.heap ({id} + b.ids + c) (by rw [← hc, ids]; abel)]; abel)]
        abel
      rw [hq]
      change ∃ r, (merge DISCRETE insert b q.2 >>= _) = some r ∧ _
      rw [hq']
      change ∃ r, (if touch DISCRETE q.1 q'.1 then _ else _) = some r ∧ _
      split
      · obtain ⟨r, hr, hbecomes⟩ :=
          absorb_spec hins h1.ok h2.ok (show q.1.leaves + q'.1.leaves ≤ n + 1 by omega) id q'.2
        have hle'' := hbecomes.leaves
        refine ⟨r, hr, hbecomes.ok, ?_, ?_, fun c hc => hbecomes.heap c (hheap c hc)⟩
        · rw [hbecomes.points, h1.points, h2.points]
          rfl
        · rw [leaves]
          omega
      · refine ⟨_, rfl, ⟨?_, ?_, ?_, h1.ok, h2.ok⟩, ?_, Nat.add_le_add hle hle', hheap⟩
        · rw [h1.points, h2.points]
          exact hleast
        · rw [h1.points, h2.points]
          exact hgreatest
        · rw [h1.points, h2.points]
          exact hab
        · rw [points, h1.points, h2.points]
          rfl

/-- The intervals of the leaves. -/
def segments : IntervalTreeNode → List (Int × Int)
  | leaf _ lb rb => [(lb, rb)]
  | inner _ _ _ a b => a.segments ++ b.segments

/-- The smallest bound of the leaves. -/
def lowest : IntervalTreeNode → Int
  | leaf _ lb _ => lb
  | inner _ _ _ a b => min a.lowest b.lowest

/-- The largest bound of the leaves. -/
def highest : IntervalTreeNode → Int
  | leaf _ _ rb => rb
  | inner _ _ _ a b => max a.highest b.highest

/-- The bounds of the inner nodes are those of the leaves below them. -/
def Bounded : IntervalTreeNode → Prop
  | leaf _ _ _ => True
  | inner _ lb rb a b =>
    lb = min a.lowest b.lowest ∧ rb = max a.highest b.highest ∧ a.Bounded ∧ b.Bounded

theorem Ok.extremes (ht : t.Ok) : IsLeast t.points t.lowest ∧ IsGreatest t.points t.highest := by
  induction t with
  | leaf id lb rb => exact ⟨isLeast_Icc ht, isGreatest_Icc ht⟩
  | inner id lb rb a b iha ihb =>
    obtain ⟨-, -, -, ha, hb⟩ := ht
    exact ⟨(iha ha).1.union (ihb hb).1, (iha ha).2.union (ihb hb).2⟩

theorem Ok.bounded (ht : t.Ok) : t.Bounded := by
  induction t with
  | leaf id lb rb => trivial
  | inner id lb rb a b iha ihb =>
    have hext := ht.extremes
    obtain ⟨hleast, hgreatest, -, ha, hb⟩ := ht
    exact ⟨hleast.unique hext.1, hgreatest.unique hext.2, iha ha, ihb hb⟩

end IntervalTreeNode

/-- The integers in the intervals. -/
def covered (intervals : List (Int × Int)) : Set Int := {x | ∃ iv ∈ intervals, iv.1 ≤ x ∧ x ≤ iv.2}

theorem covered_append (xs ys : List (Int × Int)) :
    covered (xs ++ ys) = covered xs ∪ covered ys := by
  ext x
  simp only [covered, mem_append, or_and_right, exists_or, mem_ofPred_eq, mem_union]

theorem covered_singleton (l r : Int) : covered [(l, r)] = Set.Icc l r := by
  ext x
  simp only [covered, List.mem_singleton, exists_eq_left, mem_ofPred_eq, Set.mem_Icc]

namespace IntervalTreeNode

variable {t : IntervalTreeNode} {left right : Int}

theorem points_eq_covered (t : IntervalTreeNode) : t.points = covered t.segments := by
  induction t with
  | leaf id lb rb => exact (covered_singleton lb rb).symm
  | inner id lb rb a b iha ihb => rw [points, segments, covered_append, iha, ihb]

theorem dominates_iff (ht : t.Ok) (hlr : left ≤ right) :
    t.dominates left right = true ↔ ∃ iv ∈ t.segments, iv.1 ≤ left ∧ right ≤ iv.2 := by
  induction t with
  | leaf id lb rb => simp [dominates, segments]
  | inner id lb rb a b iha ihb =>
    have hinside : (∃ iv ∈ a.segments ++ b.segments, iv.1 ≤ left ∧ right ≤ iv.2) → lb ≤ left ∧
      right ≤ rb := by
      rintro ⟨iv, hiv, hl, hr⟩
      have hmem {x : Int} (h1 : left ≤ x) (h2 : x ≤ right) : x ∈ (inner id lb rb a b).points := by
        rw [points_eq_covered]
        exact ⟨iv, hiv, hl.trans h1, h2.trans hr⟩
      exact ⟨ht.1.2 (hmem le_rfl hlr), ht.2.1.2 (hmem hlr le_rfl)⟩
    obtain ⟨-, -, -, ha, hb⟩ := ht
    rw [dominates, segments]
    split_ifs with h1 h2 h3
    · obtain ⟨iv, hiv, hle⟩ := (iha ha).mp h2
      exact iff_of_true rfl ⟨iv, mem_append_left _ hiv, hle⟩
    · obtain ⟨iv, hiv, hle⟩ := (ihb hb).mp h3
      exact iff_of_true rfl ⟨iv, mem_append_right _ hiv, hle⟩
    · refine iff_of_false not_false ?_
      rintro ⟨iv, hiv, hle⟩
      rcases mem_append.mp hiv with hiv | hiv
      · exact h2 ((iha ha).mpr ⟨iv, hiv, hle⟩)
      · exact h3 ((ihb hb).mpr ⟨iv, hiv, hle⟩)
    · exact iff_of_false not_false fun h => h1 (hinside h)

theorem segment_unique (ht : t.Ok) {s : Int × Int} (hs : s ∈ t.segments) :
    s.1 ≤ s.2 ∧ ∀ s' ∈ t.segments, ∀ x, s.1 ≤ x ∧ x ≤ s.2 → s'.1 ≤ x ∧ x ≤ s'.2 → s = s' := by
  induction t with
  | leaf id lb rb =>
    obtain rfl := List.mem_singleton.mp hs
    exact ⟨ht, fun s' hs' _ _ _ => (List.mem_singleton.mp hs').symm⟩
  | inner id lb rb a b iha ihb =>
    obtain ⟨-, -, hab, ha, hb⟩ := ht
    rw [points_eq_covered, points_eq_covered] at hab
    have happart {s s' : Int × Int} (hs : s ∈ a.segments) (hs' : s' ∈ b.segments) (x : Int)
        (hx : s.1 ≤ x ∧ x ≤ s.2) (hx' : s'.1 ≤ x ∧ x ≤ s'.2) : False :=
      disjoint_left.mp hab ⟨s, hs, hx⟩ ⟨s', hs', hx'⟩
    rcases mem_append.mp hs with hs | hs
    · refine ⟨(iha ha hs).1, fun s' hs' x hx hx' => ?_⟩
      rcases mem_append.mp hs' with hs' | hs'
      · exact (iha ha hs).2 s' hs' x hx hx'
      · exact (happart hs hs' x hx hx').elim
    · refine ⟨(ihb hb hs).1, fun s' hs' x hx hx' => ?_⟩
      rcases mem_append.mp hs' with hs' | hs'
      · exact (happart hs' hs x hx' hx).elim
      · exact (ihb hb hs).2 s' hs' x hx hx'

end IntervalTreeNode

/-! ### Runs -/

namespace IntervalTree

def ids (t : IntervalTree) : Multiset Nat := t.root.elim 0 (·.ids)

def segments (t : IntervalTree) : List (Int × Int) := t.root.elim [] (·.segments)

/-- The tree of the insertions so far: its nodes and the deleted ones are the nodes made. -/
structure Of (intervals : List (Int × Int)) (t : IntervalTree) : Prop where
  ok : ∀ root, t.root = some root → root.Ok
  heap : t.ids + t.heap.deleted = Multiset.range t.heap.next
  points : covered t.segments = covered intervals

variable {DISCRETE : Bool} {intervals : List (Int × Int)} {t : IntervalTree} {left right a b : Int}

theorem insert_of (ht : Of intervals t) (hlr : left ≤ right) :
    ∃ t', t.insert DISCRETE left right = some t' ∧ Of (intervals ++ [(left, right)]) t' := by
  obtain ⟨root, h⟩ := t
  cases root with
  | none =>
    refine ⟨_, rfl, fun r hr => ?_, ?_, ?_⟩
    · obtain rfl := Option.some.inj hr
      exact hlr
    · have hheap := ht.heap
      rw [ids, Option.elim_none, zero_add] at hheap
      change {h.next} + h.deleted = Multiset.range (h.next + 1)
      rw [hheap, Multiset.range_succ, singleton_add]
    · rw [covered_append, ← ht.points, ← covered_append]
      rfl
  | some root =>
    have hroot := ht.ok root rfl
    obtain ⟨r, hr, h1, -⟩ :=
      IntervalTreeNode.insert_spec DISCRETE root.leaves root hroot le_rfl left right hlr h
    obtain ⟨r', hr', h2⟩ :=
      IntervalTreeNode.merge_spec DISCRETE (IntervalTreeNode.insert_spec DISCRETE root.leaves) h1.ok
        h1.leaves r.2
    refine ⟨⟨some r'.1, r'.2⟩, ?_, fun q hq => ?_, ?_, ?_⟩
    · change (IntervalTreeNode.insert DISCRETE root.leaves root left right h >>= _) = _
      rw [hr]
      change (IntervalTreeNode.merge DISCRETE _ r.1 r.2 >>= _) = _
      rw [hr']
      rfl
    · obtain rfl := Option.some.inj hq
      exact h2.ok
    · have hheap := h2.heap 0 (h1.heap 0 ((add_zero _).trans ht.heap))
      rwa [add_zero] at hheap
    · have hpoints := h2.points
      rw [h1.points, root.points_eq_covered, r'.1.points_eq_covered, ← covered_singleton] at hpoints
      rw [covered_append, ← ht.points]
      exact hpoints

theorem foldlM_of (ivs : List (Int × Int)) (ht : Of intervals t) (hivs : ∀ iv ∈ ivs, iv.1 ≤ iv.2) :
    ∃ t', ivs.foldlM (fun t iv => t.insert DISCRETE iv.1 iv.2) t = some t' ∧
    Of (intervals ++ ivs) t' := by
  induction ivs generalizing intervals t with
  | nil =>
    rw [append_nil]
    exact ⟨t, rfl, ht⟩
  | cons iv ivs ih =>
    obtain ⟨hiv, hivs⟩ := forall_mem_cons.mp hivs
    obtain ⟨t1, hins, ht1⟩ := @insert_of DISCRETE _ _ _ _ ht hiv
    obtain ⟨t', hrun, ht'⟩ := ih ht1 hivs
    refine ⟨t', ?_, ?_⟩
    · rw [foldlM_cons, hins]
      exact hrun
    · rwa [append_assoc] at ht'

theorem run_of (DISCRETE : Bool) (hivs : ∀ iv ∈ intervals, iv.1 ≤ iv.2) :
    ∃ t, run DISCRETE intervals = some t ∧ Of intervals t :=
  have hnew : Of [] new := ⟨fun _ h => (nomatch h), rfl, rfl⟩
  foldlM_of intervals hnew hivs

theorem Of.intersects_iff (ht : Of intervals t) (hab : a ≤ b) :
    t.intersects a b = true ↔ ∃ x ∈ covered intervals, a ≤ x ∧ x ≤ b := by
  rw [← ht.points]
  obtain ⟨_ | root, h⟩ := t
  · exact iff_of_false Bool.false_ne_true fun ⟨x, ⟨iv, hiv, _⟩, _⟩ => nomatch hiv
  · change root.intersects a b = true ↔ _
    rw [IntervalTreeNode.intersects_iff (ht.ok root rfl) hab, root.points_eq_covered,
      not_disjoint_iff]
    exact exists_congr fun x => and_comm

theorem Of.dominates_iff (ht : Of intervals t) (hab : a ≤ b) :
    t.dominates a b = true ↔ ∃ iv ∈ t.segments, iv.1 ≤ a ∧ b ≤ iv.2 := by
  obtain ⟨_ | root, h⟩ := t
  · exact iff_of_false Bool.false_ne_true fun ⟨iv, hiv, _⟩ => nomatch hiv
  · exact IntervalTreeNode.dominates_iff (ht.ok root rfl) hab

theorem Of.segment (ht : Of intervals t) {s : Int × Int} (hs : s ∈ t.segments) :
    s.1 ≤ s.2 ∧ ∀ s' ∈ t.segments, ∀ x, s.1 ≤ x ∧ x ≤ s.2 → s'.1 ≤ x ∧ x ≤ s'.2 → s = s' := by
  obtain ⟨_ | root, h⟩ := t
  · exact nomatch hs
  · exact IntervalTreeNode.segment_unique (ht.ok root rfl) hs

theorem Of.covered_of_dominates (ht : Of intervals t) (hab : a ≤ b)
    (hdom : t.dominates a b = true) :
    Set.Icc a b ⊆ covered intervals := by
  obtain ⟨iv, hiv, hl, hr⟩ := (ht.dominates_iff hab).mp hdom
  rw [← ht.points]
  exact fun x hx => ⟨iv, hiv, hl.trans hx.1, hx.2.trans hr⟩

/-- **The tree has the integers of the insertions**, and none of its nodes has been deleted. -/
theorem interval_tree_exact (DISCRETE : Bool) (intervals : List (Int × Int))
    (hivs : ∀ iv ∈ intervals, iv.1 ≤ iv.2) :
    ∃ t, run DISCRETE intervals = some t ∧ (t.ids + t.heap.deleted).Nodup ∧
      (∀ root, t.root = some root → root.Bounded) ∧ covered t.segments = covered intervals ∧
      ∀ a b, a ≤ b → (t.intersects a b = true ↔ ∃ x ∈ covered intervals, a ≤ x ∧ x ≤ b) ∧
        (t.dominates a b = true → Set.Icc a b ⊆ covered intervals) := by
  obtain ⟨t, hrun, ht⟩ := run_of DISCRETE hivs
  refine ⟨t, hrun, ?_, fun root hroot => (ht.ok root hroot).bounded, ht.points, fun a b hab => ?_⟩
  · rw [ht.heap]
    exact nodup_range _
  · exact ⟨ht.intersects_iff hab, ht.covered_of_dominates hab⟩

theorem interval_tree_exact_three :
    ∃ t, run true [(0, 3), (8, 9), (2, 7)] = some t ∧ (t.ids + t.heap.deleted).Nodup ∧
    (∀ root, t.root = some root → root.Bounded) ∧
    covered t.segments = covered [(0, 3), (8, 9), (2, 7)] ∧
    ∀ a b, a ≤ b →
    (t.intersects a b = true ↔ ∃ x ∈ covered [(0, 3), (8, 9), (2, 7)], a ≤ x ∧ x ≤ b) ∧
      (t.dominates a b = true → Set.Icc a b ⊆ covered [(0, 3), (8, 9), (2, 7)]) :=
  interval_tree_exact true [(0, 3), (8, 9), (2, 7)] (by decide)

/-- `dominates` is right but for a covered query in which two leaves touch: `merge` compares the
bounds of siblings only. -/
theorem dominates_exact (hivs : ∀ iv ∈ intervals, iv.1 ≤ iv.2) (hrun : run true intervals = some t)
    (hab : a ≤ b) :
    (t.dominates a b = true ↔ Set.Icc a b ⊆ covered intervals) ↔
      (Set.Icc a b ⊆ covered intervals →
        ∀ s ∈ t.segments, ∀ s' ∈ t.segments, s.2 + 1 = s'.1 → ¬ (a ≤ s.2 ∧ s'.1 ≤ b)) := by
  obtain ⟨t', hrun', ht⟩ := run_of true hivs
  obtain rfl := Option.some.inj (hrun.symm.trans hrun')
  constructor
  · rintro hexact hcov s hs s' hs' htouch ⟨hin, hin'⟩
    obtain ⟨iv, hiv, hl, hr⟩ := (ht.dominates_iff hab).mp (hexact.mpr hcov)
    obtain ⟨hle, hunique⟩ := ht.segment hs
    obtain rfl := hunique iv hiv s.2 (by omega) (by omega)
    omega
  · refine fun hno => ⟨ht.covered_of_dominates hab, fun hcov => (ht.dominates_iff hab).mpr ?_⟩
    rw [← ht.points] at hcov hno
    obtain ⟨s, hs, hl, hr⟩ := hcov (left_mem_Icc.mpr hab)
    refine ⟨s, hs, hl, ?_⟩
    by_contra hend
    obtain ⟨s', hs', hl', hr'⟩ := hcov (show s.2 + 1 ∈ Set.Icc a b from ⟨by omega, by omega⟩)
    refine hno hcov s hs s' hs' ?_ ⟨hr, by omega⟩
    by_contra hne
    obtain rfl := (ht.segment hs).2 s' hs' s.2 (by omega) (by omega)
    omega

theorem dominates_exact_three : ∃ t, run true [(0, 3), (8, 9), (2, 7)] = some t ∧
    ((t.dominates 1 6 = true ↔ Set.Icc 1 6 ⊆ covered [(0, 3), (8, 9), (2, 7)]) ↔
      (Set.Icc 1 6 ⊆ covered [(0, 3), (8, 9), (2, 7)] →
        ∀ s ∈ t.segments, ∀ s' ∈ t.segments, s.2 + 1 = s'.1 → ¬ (1 ≤ s.2 ∧ s'.1 ≤ 6))) :=
  ⟨_, rfl, dominates_exact (by decide) rfl (by decide)⟩

/-- The last insertion makes the leaves (4, 4) and (5, 5), which stay in different subtrees. -/
theorem dominates_misses_touching :
    ¬ ∀ intervals : List (Int × Int), (∀ iv ∈ intervals, iv.1 ≤ iv.2) →
    ∀ t, run true intervals = some t → ∀ a b, a ≤ b →
      (t.dominates a b = true ↔ Set.Icc a b ⊆ covered intervals) := by
  intro hexact
  have hdom :=
    (hexact [(0, 0), (10, 10), (5, 5), (4, 4)] (by decide) _ rfl 4 5 (by decide)).mpr fun x hx => by
    obtain ⟨hl, hr⟩ := hx
    obtain rfl | rfl : x = 4 ∨ x = 5 := by omega
    · exact ⟨(4, 4), by decide, by decide⟩
    · exact ⟨(5, 5), by decide, by decide⟩
  revert hdom
  decide

end IntervalTree

end CharmRuntime.Legion
