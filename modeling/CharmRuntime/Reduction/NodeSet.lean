import Mathlib.Algebra.BigOperators.Group.Finset.Piecewise
import Mathlib.Algebra.Order.BigOperators.Group.Finset
import Mathlib.Order.Interval.Finset.Nat
import CharmRuntime.Reduction.SetReducer

/-!
# Reduction.NodeSet

The `set` reducer **at node level**: every node of the tree contributes once and combines
its contribution with the results of its kids (`CkNodeReductionMgr::reduceMessages`). The tree is
that of `init_BinaryTree`, the same for the PEs of a group: the kids of `p` are `2p+1` and `2p+2`.

Unlike its sibling for groups, this `reduceMessages` passes a lone message on also for
`set`, so a leaf sends its raw bytes up, now with the source count of a reduced message.
`set` then takes them for a packed list. The bytes of the final buffer are too few to
hold what was contributed (`data_length_lt`), so the walk never returns it
(`node_set_walk_never`).
-/

namespace CharmRuntime.Reduction

/-! ### The tree -/

section

open Finset

/-- `TREE_WID`. -/
def treeWid : Nat := 2

/-- `treeParent()`, of a PE other than 0. -/
def treeParent (pe : Nat) : Nat := (pe - 1) / treeWid

/-- `firstKid()`. -/
def firstKid (pe : Nat) : Nat := pe * treeWid + 1

/-- `treeKids()`. -/
def treeKids (numPes pe : Nat) : Nat := min (numPes - firstKid pe) treeWid

/-- The vector `kids`. -/
def kids (numPes pe : Nat) : List Nat := List.range' (firstKid pe) (treeKids numPes pe)

@[simp] theorem length_kids (numPes pe : Nat) : (kids numPes pe).length = treeKids numPes pe :=
  List.length_range'

theorem nodup_kids (numPes pe : Nat) : (kids numPes pe).Nodup := List.nodup_range'

theorem mem_kids {numPes pe k : Nat} :
    k ∈ kids numPes pe ↔ k < numPes ∧ k ≠ 0 ∧ treeParent k = pe := by
  rw [kids, List.mem_range'_1]
  unfold treeKids treeParent firstKid treeWid
  omega

theorem treeParent_lt {k : Nat} (h : k ≠ 0) : treeParent k < k := by
  unfold treeParent treeWid
  omega

theorem lt_of_mem_kids {numPes pe k : Nat} (h : k ∈ kids numPes pe) : pe < k := by
  obtain ⟨-, h0, rfl⟩ := mem_kids.mp h
  exact treeParent_lt h0

theorem sum_kids {M : Type*} [AddCommMonoid M] (numPes : Nat) (f : Nat → M) :
    ∑ p ∈ Finset.range numPes, ((kids numPes p).map f).sum = ∑ k ∈ Finset.range numPes with k ≠
    0, f k := by
  have hmaps : ∀ k ∈ (range numPes).filter (· ≠ 0), treeParent k ∈ range numPes := by
    intro k hk
    obtain ⟨hlt, h0⟩ := mem_filter.mp hk
    have hparent := treeParent_lt h0
    rw [mem_range] at hlt ⊢
    omega
  rw [← sum_fiberwise_of_maps_to hmaps]
  refine sum_congr rfl ?_
  intro p _
  have hset : (kids numPes p).toFinset =
      ((range numPes).filter (· ≠ 0)).filter (fun k => treeParent k = p) := by
    ext k
    simp only [List.mem_toFinset, mem_kids, mem_filter, mem_range]
    exact ⟨fun h => ⟨⟨h.1, h.2.1⟩, h.2.2⟩, fun h => ⟨h.1.1, h.1.2, h.2⟩⟩
  rw [← hset, List.sum_toFinset f (nodup_kids numPes p)]

end

open Lib List
open Lib.MemVal
open Option (bind_eq_some_iff map_eq_some_iff)
open Finset (range sum_const)

/-- What a node contributes. -/
structure NodeContribution where
  bytes : List UInt8
  userFlag : Nat
  callback : CkCallback
  migratable : Bool
  deriving DecidableEq, Repr

/-- The message of the contribution. -/
def NodeContribution.msg (env : ReductionEnv (List MemVal)) (c : NodeContribution) : BufMsg :=
  contributionMsg env c.bytes c.userFlag c.callback c.migratable

/-- Every node reduces its contribution and its kids' results, in some order. -/
def NodeCombines (env : ReductionEnv (List MemVal)) (numNodes : Nat)
    (input : Nat → NodeContribution)
    (result : Nat → BufMsg) : Prop :=
  ∀ i < numNodes, ∃ queue redNo,
    queue.Perm ((input i).msg env :: (kids numNodes i).map result) ∧
      nodeReduceMessages env redNo queue = some (result i)

/-- The walk over a message returns what was contributed, in some order. -/
def WalkReturns (numNodes : Nat) (input : Nat → NodeContribution) (m : BufMsg) : Prop :=
  ∃ elements, setWalk m.data = some elements ∧
    (elements.map Prod.snd).Perm
      ((List.range numNodes).map (fun i => (input i).bytes.map MemVal.byte))

/-- The nodes arrive at a result, and it is right whatever the orders were. -/
def NodeSetWalk (env : ReductionEnv (List MemVal)) (numNodes : Nat)
    (input : Nat → NodeContribution) : Prop :=
  (∃ result, NodeCombines env numNodes input result) ∧
    ∀ result, NodeCombines env numNodes input result → WalkReturns numNodes input (result 0)

/-! ### How much room a walk needs -/

/-- The bytes that elements with the given data take at least. -/
def roomFor (data : List (List MemVal)) : Nat := (data.map (fun bs => intBytes + bs.length)).sum

theorem roomFor_perm {l l' : List (List MemVal)} (h : l.Perm l') : roomFor l = roomFor l' :=
  (h.map _).sum_eq

theorem slice_eq_some {buf bs : List MemVal} {off n : Nat} (h : slice buf off n = some bs) :
    off + n ≤ buf.length ∧ bs.length = n := by
  unfold slice at h
  split at h
  · next hle =>
      obtain rfl := Option.some.inj h
      refine ⟨hle, ?_⟩
      rw [length_take, length_drop]
      omega
  · exact absurd h (by simp)

theorem dataSizeAt_eq_some {buf : List MemVal} {cur : Nat} {d : Int}
    (h : dataSizeAt buf cur = some d) : cur + intBytes ≤ buf.length := by
  obtain ⟨bs, hbs, -⟩ := bind_eq_some_iff.mp h
  exact (slice_eq_some hbs).1

/-- The size of an element whose data is in a buffer of an `int` of bytes. -/
theorem setSize_eq_some {n : Nat} {size : Int} (hn : intBytes + n < 2 ^ 31)
    (h : setSize n = some size) : size = elementSize n := by
  have hsum : (intBytes + n : Int) = ((intBytes + n : Nat) : Int) := by omega
  rw [setSize, hsum, castInt_natCast hn, setAlign, map_eq_some_iff] at h
  obtain ⟨y, hy, rfl⟩ := h
  obtain ⟨-, rfl⟩ := checkedInt_eq_some.mp hy
  unfold elementSize
  omega

theorem walkFrom_room {buf : List MemVal} (hbuf : buf.length < 2 ^ 31) :
    ∀ {fuel cur : Nat} {elements : List (Nat × List MemVal)},
    walkFrom buf fuel cur = some elements →
    cur + roomFor (elements.map Prod.snd) + intBytes ≤ buf.length := by
  intro fuel
  induction fuel with
  | zero =>
    intro cur elements h
    exact absurd h (by simp [walkFrom])
  | succ fuel ih =>
    intro cur elements h
    obtain ⟨bytes, hbytes, h⟩ := bind_eq_some_iff.mp h
    obtain ⟨next, hnext, h⟩ := bind_eq_some_iff.mp h
    -- the size field of the element
    obtain ⟨d, hd, hbytes⟩ := bind_eq_some_iff.mp hbytes
    have hd0 : 0 ≤ d := by
      by_contra hneg
      rw [if_pos (by omega)] at hbytes
      exact absurd hbytes (by simp)
    rw [if_neg (by omega)] at hbytes
    obtain ⟨hinside, hlen⟩ := slice_eq_some hbytes
    -- and where the next one is
    obtain ⟨n, hn, hnext⟩ := bind_eq_some_iff.mp hnext
    obtain ⟨d', hd', hnext⟩ := bind_eq_some_iff.mp hnext
    obtain ⟨d'', hd'', hn⟩ := bind_eq_some_iff.mp hn
    obtain rfl : d = d'' := Option.some.inj (hd.symm.trans hd'')
    obtain ⟨size, hsize, hn⟩ := bind_eq_some_iff.mp hn
    have hstep := elementSize_bounds d.toNat
    rw [← Int.toNat_of_nonneg hd0] at hsize
    have hsize' := setSize_eq_some (by omega) hsize
    have hn' : n = cur + size := by
      rw [Int.mem_toNat?] at hn
      exact hn.symm
    have hin := dataSizeAt_eq_some hd'
    cases next with
    | none =>
      obtain rfl := Option.some.inj h
      simp only [roomFor, map_cons, map_nil, sum_cons, sum_nil]
      omega
    | some n' =>
      obtain rfl : n = n' := by
        split at hnext
        · exact absurd (Option.some.inj hnext) (by simp)
        · exact Option.some.inj (Option.some.inj hnext)
      obtain ⟨rest, hrest, h⟩ := bind_eq_some_iff.mp h
      obtain rfl := Option.some.inj h
      have hrec := ih hrest
      simp only [roomFor, map_cons, sum_cons] at hrec ⊢
      omega

/-! ### How much room there is -/

theorem writeAt_length {buf buf' bs : List MemVal} {off : Nat}
    (h : writeAt buf off bs = some buf') :
    buf'.length = buf.length := by
  unfold writeAt at h
  split at h
  · obtain rfl := Option.some.inj h
    simp only [length_append, length_take, length_drop]
    omega
  · exact absurd h (by simp)

/-- The bytes that a message needs in the result. -/
def msgBytes (m : BufMsg) : Int :=
  if m.isFromUser then (elementSize m.data.length : Int) else m.data.length - intBytes

theorem setCopy_length {st st' : List MemVal × Nat} {m : BufMsg} (h : setCopy st m = some st') :
    st'.1.length = st.1.length ∧ 0 ≤ msgBytes m := by
  unfold setCopy at h
  unfold msgBytes
  cases hu : m.isFromUser with
  | false =>
    rw [hu] at h
    simp only [Bool.not_false, if_true, Bool.false_eq_true, if_false] at h ⊢
    split at h
    · exact absurd h (by simp)
    · obtain ⟨buf', hbuf', rfl⟩ := map_eq_some_iff.mp h
      exact ⟨writeAt_length hbuf', by omega⟩
  | true =>
    rw [hu] at h
    simp only [Bool.not_true, Bool.false_eq_true, if_false, if_true] at h ⊢
    obtain ⟨buf1, hbuf1, h⟩ := bind_eq_some_iff.mp h
    obtain ⟨buf2, hbuf2, h⟩ := bind_eq_some_iff.mp h
    obtain ⟨cur', -, h⟩ := bind_eq_some_iff.mp h
    obtain rfl := Option.some.inj h
    refine ⟨(writeAt_length hbuf2).trans (writeAt_length hbuf1), ?_⟩
    exact Int.natCast_nonneg _

theorem castInt_le {x : Int} (h : -2 ^ 31 ≤ x) : castInt x ≤ x := by
  rw [castInt, BitVec.toInt_ofInt, Int.bmod_def]
  split <;> omega

/-- `SET_SIZE` gives no more than the size. -/
theorem setSize_le {n : Nat} {size : Int} (h : setSize n = some size) :
    size ≤ elementSize n := by
  obtain ⟨y, hy, rfl⟩ := map_eq_some_iff.mp h
  obtain ⟨-, rfl⟩ := checkedInt_eq_some.mp hy
  have hcast := castInt_le (x := intBytes + n) (by omega)
  unfold elementSize
  omega

/-- The loop for `retSize` never gets beyond the bytes that are needed. -/
theorem addMsgSize_le {retSize retSize' : Int} {m : BufMsg} (hm : 0 ≤ msgBytes m)
    (hint : -2 ^ 31 ≤ retSize) (h : addMsgSize retSize m = some retSize') :
    retSize' ≤ retSize + msgBytes m ∧ -2 ^ 31 ≤ retSize' := by
  unfold addMsgSize at h
  unfold msgBytes at hm ⊢
  cases hu : m.isFromUser with
  | false =>
    rw [hu] at h hm
    simp only [Bool.not_false, if_true, Bool.false_eq_true, if_false] at h hm ⊢
    obtain rfl := Option.some.inj h
    exact ⟨castInt_le (by omega), (isInt_castInt _).1⟩
  | true =>
    rw [hu] at h
    simp only [Bool.not_true, Bool.false_eq_true, if_false, if_true] at h ⊢
    obtain ⟨size, hsize, h⟩ := bind_eq_some_iff.mp h
    obtain ⟨hresult, rfl⟩ := checkedInt_eq_some.mp h
    have := setSize_le hsize
    exact ⟨by omega, hresult.1⟩

theorem foldlM_addMsgSize_le : ∀ {msgs : List BufMsg} {retSize retSize' : Int},
    (∀ m ∈ msgs, 0 ≤ msgBytes m) → -2 ^ 31 ≤ retSize →
    msgs.foldlM addMsgSize retSize = some retSize' →
    retSize' ≤ retSize + (msgs.map msgBytes).sum ∧ -2 ^ 31 ≤ retSize' := by
  intro msgs
  induction msgs with
  | nil =>
    intro retSize retSize' _ hint h
    obtain rfl := Option.some.inj h
    exact ⟨by simp, hint⟩
  | cons m msgs ih =>
    intro retSize retSize' hall hint h
    obtain ⟨next, hnext, h⟩ := bind_eq_some_iff.mp h
    obtain ⟨hle, hint'⟩ := addMsgSize_le (hall m mem_cons_self) hint hnext
    obtain ⟨hle', hint''⟩ := ih (fun m' hm' => hall m' (mem_cons_of_mem _ hm')) hint' h
    rw [map_cons, sum_cons]
    exact ⟨by omega, hint''⟩

theorem foldlM_setCopy_length : ∀ {msgs : List BufMsg} {st st' : List MemVal × Nat},
    msgs.foldlM setCopy st = some st' →
    st'.1.length = st.1.length ∧ ∀ m ∈ msgs, 0 ≤ msgBytes m := by
  intro msgs
  induction msgs with
  | nil =>
    intro st st' h
    obtain rfl := Option.some.inj h
    exact ⟨rfl, fun m hm => absurd hm not_mem_nil⟩
  | cons m msgs ih =>
    intro st st' h
    obtain ⟨st1, hst1, h⟩ := bind_eq_some_iff.mp h
    obtain ⟨h1, h2⟩ := setCopy_length hst1
    obtain ⟨h3, h4⟩ := ih h
    refine ⟨h3.trans h1, fun m' hm' => ?_⟩
    rcases mem_cons.mp hm' with rfl | hm'
    · exact h2
    · exact h4 m' hm'

/-- The buffer that `set` makes has an `int` of bytes, and no more than are needed. -/
theorem set_length {env : ReductionEnv (List MemVal)} {msgs : List BufMsg} {ret : BufMsg}
    (h : set env msgs = some ret) : ret.data.length < 2 ^ 31 ∧
      (ret.data.length : Int) ≤ (msgs.map msgBytes).sum + intBytes := by
  obtain ⟨retSize, hsize, h⟩ := bind_eq_some_iff.mp h
  obtain ⟨⟨buf, cur⟩, hfold, h⟩ := bind_eq_some_iff.mp h
  obtain ⟨buf', hbuf', h⟩ := bind_eq_some_iff.mp h
  obtain rfl := Option.some.inj h
  obtain ⟨hlen, hall⟩ := foldlM_setCopy_length hfold
  have hbuf := writeAt_length hbuf'
  rw [length_replicate] at hlen
  change buf.length = _ at hlen
  obtain ⟨hle, hint⟩ := foldlM_addMsgSize_le hall (by decide) hsize
  have hcast := castInt_le (x := retSize + intBytes) (by omega)
  have hlt := (isInt_castInt (retSize + intBytes)).2
  have hneed : 0 ≤ (msgs.map msgBytes).sum := sum_nonneg (by simpa using hall)
  have hint4 : intBytes = 4 := rfl
  show buf'.length < 2 ^ 31 ∧ (buf'.length : Int) ≤ _
  omega

/-- A message as a node sends it up: counted as reduced, for the reducer `set`. -/
def SentUp (m : BufMsg) : Prop := 0 < m.sourceFlag ∧ m.reducer = .set

theorem SentUp.msgBytes {m : BufMsg} (h : SentUp m) : msgBytes m = m.data.length - intBytes := by
  have hu : m.isFromUser = false := by
    unfold CkReductionMsg.isFromUser
    rw [beq_eq_false_iff_ne]
    have := h.1
    omega
  unfold Reduction.msgBytes
  rw [hu]
  rfl

section

variable (refnumBits : Nat) (others : ReducerType → List BufMsg → Option BufMsg) (uninit : Bool)

/-- **What a node sends up.** A lone message goes up as it is; several are packed. -/
theorem nodeReduceMessages_set {queue : List BufMsg} {redNo : Nat} {m : BufMsg} (hne : queue ≠ [])
    (hreal : ∀ m ∈ queue, m.sourceFlag ≠ 0 ∧ m.reducer = .set)
    (h : nodeReduceMessages (setEnv refnumBits others uninit) redNo queue = some m) :
    SentUp m ∧ (∀ m0, queue = [m0] → m.data = m0.data) ∧
      (queue.length ≠ 1 → m.data.length < 2 ^ 31 ∧
        (m.data.length : Int) ≤ (queue.map msgBytes).sum + intBytes) := by
  obtain ⟨ret, hret, hm⟩ := map_eq_some_iff.mp h
  have hdata : m.data = ret.data ∧ m.reducer = ret.reducer := by
    rw [← hm]
    exact ⟨rfl, rfl⟩
  have hfilter : queue.filter (·.isReal) = queue :=
    filter_eq_self.mpr fun m hm => by simpa using (hreal m hm).1
  have hflag : 0 < m.sourceFlag := by
    rw [← hm]
    show 0 < (collect (setEnv refnumBits others uninit) queue).nSources
    rw [collect_nSources]
    exact sum_nSources_pos (hfilter.symm ▸ hne)
  obtain ⟨harr, hr⟩ := collect_msgArr (setEnv refnumBits others uninit) (by decide)
    (fun m hm _ => (hreal m hm).2)
  rw [hfilter] at harr
  rw [hfilter] at hr
  unfold combine at hret
  rw [harr] at hret
  cases queue with
  | nil => exact absurd rfl hne
  | cons m0 rest =>
    simp only [hr] at hret
    obtain ⟨ret', hret', rfl⟩ := map_eq_some_iff.mp hret
    refine ⟨⟨hflag, hdata.2⟩, ?_, ?_⟩
    · intro _ hsingle
      obtain ⟨rfl, rfl⟩ := cons.inj hsingle
      obtain rfl := Option.some.inj hret'
      exact hdata.1
    · intro hlen
      have hrest : ¬ (rest = [] ∧ True) := by
        intro hnil
        rw [hnil.1] at hlen
        exact hlen rfl
      have hargs : reducerArgs (m0 :: rest) = m0 :: rest := by
        rw [reducerArgs, if_neg (by rw [(hreal m0 mem_cons_self).2]; decide)]
      rw [if_neg hrest, hargs] at hret'
      have hlen' := set_length hret'
      rw [hdata.1]
      exact hlen'

variable {refnumBits others uninit} {numNodes : Nat} {input : Nat → NodeContribution}
  {result : Nat → BufMsg}

theorem msgBytes_msg (env : ReductionEnv (List MemVal)) (c : NodeContribution) :
    msgBytes (c.msg env) = elementSize c.bytes.length := by
  show ((elementSize (c.bytes.map byte).length : Nat) : Int) = _
  rw [length_map]

theorem sentUp_result (h : NodeCombines (setEnv refnumBits others uninit) numNodes input result) :
    ∀ i < numNodes, SentUp (result i) := by
  -- from the last node down: kids have larger numbers
  suffices hall : ∀ d i, numNodes - i = d → i < numNodes → SentUp (result i) from
    fun i hi => hall _ i rfl hi
  intro d
  induction d using Nat.strongRecOn with
  | ind d ih =>
    intro i _ hi
    obtain ⟨queue, redNo, hperm, hres⟩ := h i hi
    have hne : queue ≠ [] := by
      intro hnil
      rw [hnil] at hperm
      exact absurd hperm.length_eq (by simp)
    refine (nodeReduceMessages_set refnumBits others uninit hne ?_ hres).1
    intro m hm
    rcases mem_cons.mp (hperm.mem_iff.mp hm) with rfl | hm
    · exact ⟨by show -1 ≠ 0; decide, rfl⟩
    · obtain ⟨k, hk, rfl⟩ := mem_map.mp hm
      have hlt := lt_of_mem_kids hk
      have hk' := (mem_kids.mp hk).1
      have hup := ih (numNodes - k) (by omega) k rfl hk'
      exact ⟨by have := hup.1; omega, hup.2⟩

theorem result_length (h : NodeCombines (setEnv refnumBits others uninit) numNodes input result)
    {i : Nat} (hi : i < numNodes) :
    ((result i).data.length < 2 ^ 31 ∨ (result i).data.length = (input i).bytes.length) ∧
    ((result i).data.length : Int) - intBytes ≤
      (if treeKids numNodes i = 0 then ((input i).bytes.length : Int) - intBytes
        else elementSize (input i).bytes.length) +
      ((kids numNodes i).map (fun k => ((result k).data.length : Int) - intBytes)).sum := by
  obtain ⟨queue, redNo, hperm, hres⟩ := h i hi
  have hsent := sentUp_result h
  have hne : queue ≠ [] := by
    intro hnil
    rw [hnil] at hperm
    exact absurd hperm.length_eq (by simp)
  have hreal : ∀ m ∈ queue, m.sourceFlag ≠ 0 ∧ m.reducer = .set := by
    intro m hm
    rcases mem_cons.mp (hperm.mem_iff.mp hm) with rfl | hm
    · exact ⟨by show -1 ≠ 0; decide, rfl⟩
    · obtain ⟨k, hk, rfl⟩ := mem_map.mp hm
      have hup := hsent k (mem_kids.mp hk).1
      exact ⟨by have := hup.1; omega, hup.2⟩
  obtain ⟨-, hsingle, hseveral⟩ := nodeReduceMessages_set refnumBits others uninit hne hreal hres
  by_cases hleaf : treeKids numNodes i = 0
  · -- a leaf
    have hnil : kids numNodes i = [] := eq_nil_of_length_eq_zero (by rw [length_kids, hleaf])
    rw [hnil] at hperm
    have hraw : (result i).data.length = (input i).bytes.length := by
      rw [hsingle _ hperm.eq_singleton]
      show ((input i).bytes.map byte).length = _
      rw [length_map]
    rw [if_pos hleaf, hnil, map_nil, sum_nil, add_zero]
    exact ⟨.inr hraw, by omega⟩
  · have hlen : queue.length ≠ 1 := by
      rw [hperm.length_eq, length_cons, length_map, length_kids]
      omega
    have hsum : (queue.map msgBytes).sum = elementSize (input i).bytes.length +
        ((kids numNodes i).map (fun k => ((result k).data.length : Int) - intBytes)).sum := by
      rw [(hperm.map msgBytes).sum_eq, map_cons, sum_cons, msgBytes_msg, map_map]
      congr 2
      refine map_congr_left ?_
      intro k hk
      exact (hsent k (mem_kids.mp hk).1).msgBytes
    obtain ⟨hsmall, hle⟩ := hseveral hlen
    rw [if_neg hleaf]
    exact ⟨.inl hsmall, by omega⟩

/-- At least half of the nodes are leaves: wrapping the others cannot make up for the
bytes that go missing. -/
theorem sum_slack_neg {numNodes : Nat} (h : 0 < numNodes) :
    ∑ i ∈ range numNodes, (if treeKids numNodes i = 0 then (-8 : Int) else 7) < 0 := by
  have hleaf : (Finset.range numNodes).filter (fun i => treeKids numNodes i = 0) =
      Finset.Ico (numNodes / 2) numNodes := by
    ext i
    rw [Finset.mem_filter, Finset.mem_range, Finset.mem_Ico]
    unfold treeKids firstKid treeWid
    omega
  have hinner : (Finset.range numNodes).filter (fun i => ¬ treeKids numNodes i = 0) =
      Finset.range (numNodes / 2) := by
    ext i
    rw [Finset.mem_filter, Finset.mem_range, Finset.mem_range]
    unfold treeKids firstKid treeWid
    omega
  rw [Finset.sum_ite, hleaf, hinner, sum_const, sum_const, Nat.card_Ico,
    Finset.card_range, Int.nsmul_eq_mul, Int.nsmul_eq_mul]
  omega

theorem roomFor_range (input : Nat → NodeContribution) (n : Nat) :
    (roomFor ((List.range n).map (fun i => (input i).bytes.map MemVal.byte)) : Int) =
      ∑ i ∈ range n, ((intBytes : Int) + (input i).bytes.length) := by
  induction n with
  | zero => rfl
  | succ n ih =>
    rw [Finset.sum_range_succ, ← ih]
    simp [roomFor, range_succ]

/-- **The final buffer is too small** for what was contributed. -/
theorem data_length_lt (h : NodeCombines (setEnv refnumBits others uninit) numNodes input result)
    (hpos : 0 < numNodes) :
    (result 0).data.length <
      roomFor ((List.range numNodes).map (fun i => (input i).bytes.map MemVal.byte)) +
      intBytes := by
  have hint : intBytes = 4 := rfl
  -- what every node sends, less its terminator
  set sends : Nat → Int := fun i => ((result i).data.length) - intBytes
  set base : Nat → Int := fun i => if treeKids numNodes i = 0
    then ((input i).bytes.length) - intBytes else elementSize (input i).bytes.length with hbase
  have htotal : ∑ i ∈ range numNodes, sends i ≤
      ∑ i ∈ range numNodes, base i + ∑ k ∈ range numNodes with k ≠ 0, sends k := by
    rw [← sum_kids numNodes sends, ← Finset.sum_add_distrib]
    exact sum_le_sum fun i hi => (result_length h (mem_range.mp hi)).2
  have hroot : sends 0 ≤ ∑ i ∈ range numNodes, base i := by
    have hsplit := Finset.sum_filter_add_sum_filter_not (range numNodes) (· ≠ 0) sends
    have hzero : (Finset.range numNodes).filter (fun i => ¬ i ≠ 0) = {0} := by
      ext i
      simp only [Finset.mem_filter, Finset.mem_range, Finset.mem_singleton]
      omega
    rw [hzero, Finset.sum_singleton] at hsplit
    omega
  have hneed := roomFor_range input numNodes
  have hslack : ∑ i ∈ range numNodes, base i ≤
      ∑ i ∈ range numNodes, ((intBytes : Int) + (input i).bytes.length) +
        ∑ i ∈ range numNodes, (if treeKids numNodes i = 0 then -8 else 7) := by
    rw [← Finset.sum_add_distrib]
    refine sum_le_sum ?_
    intro i _
    simp only [hbase]
    have hsize := elementSize_bounds (input i).bytes.length
    split <;> omega
  have hneg := sum_slack_neg hpos
  have hsends0 : sends 0 = ((result 0).data.length) - intBytes := rfl
  omega

end

/-- The data of every element is in the buffer, behind its size field. -/
theorem walkFrom_inside {buf : List MemVal} : ∀ {fuel cur : Nat}
    {elements : List (Nat × List MemVal)}, walkFrom buf fuel cur = some elements →
    ∀ bs ∈ elements.map Prod.snd, bs.length + intBytes ≤ buf.length := by
  intro fuel
  induction fuel with
  | zero =>
    intro cur elements h
    exact absurd h (by simp [walkFrom])
  | succ fuel ih =>
    intro cur elements h
    obtain ⟨bytes, hbytes, h⟩ := bind_eq_some_iff.mp h
    obtain ⟨next, -, h⟩ := bind_eq_some_iff.mp h
    have hinside : bytes.length + intBytes ≤ buf.length := by
      obtain ⟨d, -, hbytes⟩ := bind_eq_some_iff.mp hbytes
      split at hbytes
      · exact absurd hbytes (by simp)
      · obtain ⟨hle, hlen⟩ := slice_eq_some hbytes
        omega
    cases next with
    | none =>
      obtain rfl := Option.some.inj h
      intro bs hbs
      exact mem_singleton.mp hbs ▸ hinside
    | some n =>
      obtain ⟨rest, hrest, h⟩ := bind_eq_some_iff.mp h
      obtain rfl := Option.some.inj h
      intro bs hbs
      rcases mem_cons.mp hbs with rfl | hbs
      · exact hinside
      · exact ih hrest bs hbs

/-- A buffer whose walk returns what was contributed has an `int` of bytes: raw data do not
fit into themselves. -/
theorem data_length_small {n : Nat} {refnumBits : Nat}
    {others : ReducerType → List BufMsg → Option BufMsg}
    {uninit : Bool} {input : Nat → NodeContribution} {result : Nat → BufMsg}
    (h : NodeCombines (setEnv refnumBits others uninit) n input result) (hpos : 0 < n)
    {elements : List (Nat × List MemVal)} (hwalk : setWalk (result 0).data = some elements)
    (hperm : (elements.map Prod.snd).Perm
      ((List.range n).map (fun i => (input i).bytes.map MemVal.byte))) :
    (result 0).data.length < 2 ^ 31 := by
  rcases (result_length h hpos).1 with hsmall | hraw
  · exact hsmall
  · have hmem := hperm.mem_iff.mpr (mem_map.mpr ⟨0, mem_range.mpr hpos, rfl⟩)
    have := walkFrom_inside hwalk _ hmem
    have hint : intBytes = 4 := rfl
    rw [length_map, ← hraw] at this
    omega

/-- **The set reducer fails at node level**, for every number of nodes and whatever they
contribute: no final message has the contributed byte strings as its elements. -/
theorem node_set_walk_never (refnumBits : Nat) (others : ReducerType → List BufMsg → Option BufMsg)
    (uninit : Bool) (n : Nat) (input : Nat → NodeContribution) :
    (∀ result, NodeCombines (setEnv refnumBits others uninit) (n + 1) input result →
      ¬ WalkReturns (n + 1) input (result 0)) ∧
      ¬ NodeSetWalk (setEnv refnumBits others uninit) (n + 1) input := by
  have hnever : ∀ result, NodeCombines (setEnv refnumBits others uninit) (n + 1) input result →
      ¬ WalkReturns (n + 1) input (result 0) := by
    intro result hcomb hwalk
    obtain ⟨elements, helements, hperm⟩ := hwalk
    have hroom := walkFrom_room (data_length_small hcomb (Nat.succ_pos n) helements hperm) helements
    have hlt := data_length_lt hcomb (Nat.succ_pos n)
    rw [roomFor_perm hperm] at hroom
    omega
  refine ⟨hnever, ?_⟩
  intro hwalk
  obtain ⟨⟨result, hcomb⟩, hall⟩ := hwalk
  exact hnever result hcomb (hall result hcomb)

/-- Two nodes: node 0 contributes one byte, node 1 four. -/
def twoNodes (i : Nat) : NodeContribution :=
  { bytes := if i = 0 then [7] else [1, 2, 3,
  4], userFlag := 0, callback := none, migratable := false }

/-- What they send up: node 1 its raw bytes, node 0 a list that has lost them. -/
def twoResults (i : Nat) : BufMsg :=
  { data := if i = 0 then layout [[7]] ++ terminator else [1, 2, 3, 4].map MemVal.byte
    userFlag := 0, callback := none, secondaryCallback := none, migratableContributor := false
    sourceFlag := if i = 0 then 2 else 1, fromPE := 0, reducer := .set, redNo := 0, gcount := 0 }

/-- The contribution of node 1 is lost: the walk returns that of node 0 only. -/
theorem leaf_contribution_lost :
    NodeCombines (setEnv 16 (fun _ _ => none) false) 2 twoNodes twoResults ∧
      setWalk (twoResults 0).data = some [(0, [.byte 7])] ∧
      ¬ NodeSetWalk (setEnv 16 (fun _ _ => none) false) 2 twoNodes := by
  have hcomb : NodeCombines (setEnv 16 (fun _ _ => none) false) 2 twoNodes twoResults := by
    intro i hi
    refine ⟨_, 0, Perm.refl _, ?_⟩
    obtain rfl | rfl : i = 0 ∨ i = 1 := by omega
    · decide +kernel
    · decide +kernel
  have hlost : setWalk (twoResults 0).data = some [(0, [.byte 7])] := by decide +kernel
  refine ⟨hcomb, hlost, ?_⟩
  intro hwalk
  obtain ⟨elements, helements, hperm⟩ := hwalk.2 twoResults hcomb
  obtain rfl := Option.some.inj helements
  exact absurd hperm.length_eq (by decide)

end CharmRuntime.Reduction
