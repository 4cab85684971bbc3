import CharmRuntime.Lib.Transition
import CharmRuntime.Streamer.MeshMoves

/-!
# Streamer.GroupMesh

`GroupMeshStreamer` with a `SimpleMeshRouter`, without staged completion: **items for the members of
a group**, over the streamers of all PEs. The client of a PE processes the items that come to their
destination there; what it inserts while it does so is an action of its own. Messages come in any
order.

Every item is on its way or was processed, once and by the member it was for, and no routine fails
(`GroupOk`). Quiescence detection, which is told of every item, so finds its counters equal exactly
when nothing is on its way.
-/

namespace CharmRuntime.Streamer

open Lib Function List
open Prod (fst snd)

structure GroupMesh (ι : Type) where
  streams : MeshState ι
  /-- All items that were inserted, each with the PE that it is for. -/
  inserted : List (ι × Nat)
  /-- The items that were processed, each with the PE of the client that did it. -/
  processed : List (ι × Nat)
  /-- What each PE has told quiescence detection. -/
  qdCreated : Nat → Nat
  qdProcessed : Nat → Nat

structure GroupConfig extends StreamerConfig where
  notStaged : useStagedCompletion = false

namespace GroupMesh

variable {ι : Type} (cfg : GroupConfig)

def new : GroupMesh ι where
  streams := .new
  inserted := []
  processed := []
  qdCreated _ := 0
  qdProcessed _ := 0

def qdProcess (s : GroupMesh ι) (p n : Nat) :
    GroupMesh ι := { s with qdProcessed := update s.qdProcessed p (s.qdProcessed p + n) }

/-- `process` of the client on `p`. -/
def process (s : GroupMesh ι) (p : Nat) (item : ι) :
    GroupMesh ι := { s with processed := s.processed ++ [(item, p)] }

def localDeliver (s : GroupMesh ι) (p : Nat) (item : ι) :
    GroupMesh ι := (s.process p item).qdProcess p 1

def receiveAtDestination (s : GroupMesh ι) (p : Nat) (items : List ι) : GroupMesh ι :=
  (items.foldl (fun s item => s.process p item) s).qdProcess p items.length

def insertData (s : GroupMesh ι) (p : Nat) (item : ι) (destinationPe : Nat) :
    Except StreamFault (GroupMesh ι) :=
  let s :=
    { s with
      inserted := s.inserted ++ [(item, destinationPe)]
      qdCreated := update s.qdCreated p (s.qdCreated p + 1) }
  if destinationPe = p then .ok (s.localDeliver p item)
  else
    match s.streams.insertData cfg.toStreamerConfig p destinationPe item with
    | .error e => .error e
    | .ok streams => .ok { s with streams := streams }

/-- A message comes to `p`: at its destination if it is personalized, on its way if it is not. -/
def receive (s : GroupMesh ι) (p : Nat) (msg : Message ι) : Except StreamFault (GroupMesh ι) :=
  if isMessagePersonalized msg.msgType then .ok (s.receiveAtDestination p (msg.entries.map fst))
  else
    match s.streams.receiveAlongRoute cfg.toStreamerConfig p msg with
    | .error e => .error e
    | .ok (streams, delivered) =>
      .ok (delivered.foldl (fun s item => s.localDeliver p item) { s with streams := streams })

end GroupMesh

inductive GroupAction (ι : Type)
  | insertData (p : Nat) (item : ι) (destinationPe : Nat)
  /-- The message of this number comes. -/
  | receive (k : Nat)
  | flushIfIdle (p : Nat) (isPeriodicFlushEnabled : Bool)

section

variable {ι : Type} (cfg : GroupConfig)

/-- What an action does, if it can happen. -/
def GroupMesh.step (s : GroupMesh ι) : GroupAction ι → Option (Except StreamFault (GroupMesh ι))
  | .insertData p item destinationPe =>
    if p < cfg.topology.numMembers ∧
      destinationPe < cfg.topology.numMembers then some (s.insertData cfg p item destinationPe)
    else none
  | .receive k =>
    match s.streams.net[k]? with
    | some (p, msg) => some (receive cfg { s with streams := s.streams.take k } p msg)
    | none => none
  | .flushIfIdle p isPeriodicFlushEnabled =>
    if p < cfg.topology.numMembers then
      some
        (match s.streams.flushIfIdle cfg.toStreamerConfig p isPeriodicFlushEnabled with
        | .error e => .error e
        | .ok streams => .ok { s with streams := streams })
    else none

/-- All PEs; a run that has failed goes no further. -/
def groupSystem : Transition (Except StreamFault (GroupMesh ι)) (GroupAction ι) where
  init r := r = .ok GroupMesh.new
  step r a r' := ∃ s, r = .ok s ∧ s.step cfg a = some r'

end

variable {ι : Type} {cfg : GroupConfig} {t : Topology} {s : GroupMesh ι} {p : Nat}
  {l hand hand' : List (ι × Nat)}

/-! ### What is kept -/

/-- A state in which a handler has the items `hand` in its hands. Whatever is counted over the items
is counted over those on their way and those that their members have processed. -/
structure GroupOk (t : Topology) (s : GroupMesh ι) (hand : List (ι × Nat)) : Prop where
  streams : MeshOk t s.streams
  onePlace : ∀ w, load t w s.streams + weigh w hand + weigh w s.processed = weigh w s.inserted
  created : ∑ p ∈ Finset.range t.numMembers, s.qdCreated p = s.inserted.length
  processed : ∑ p ∈ Finset.range t.numMembers, s.qdProcessed p = s.processed.length

theorem sum_update_range {n : Nat} (hp : p < n) (f : Nat → Nat) (k : Nat) :
    ∑ i ∈ Finset.range n, update f p (f p + k) i = ∑ i ∈ Finset.range n, f i + k := by
  have hreplace := sum_update_replace (Finset.mem_range.mpr hp) id f (f p + k)
  simp only [id_eq] at hreplace
  omega

/-- Items are processed on `p`. -/
def GroupMesh.give (s : GroupMesh ι) (p : Nat) (items : List ι) : GroupMesh ι :=
  { s with processed := s.processed ++ items.map fun item => (item, p) }.qdProcess p items.length

theorem receiveAtDestination_eq (s : GroupMesh ι) (p : Nat) (items : List ι) :
    s.receiveAtDestination p items = s.give p items := by
  have hprocess : ∀ s : GroupMesh ι, items.foldl (fun s item => s.process p item) s =
      { s with processed := s.processed ++ items.map fun item => (item, p) } := by
    induction items with
    | nil => simp
    | cons item items ih =>
      intro s
      rw [foldl_cons, ih]
      simp [GroupMesh.process]
  rw [GroupMesh.receiveAtDestination, hprocess, GroupMesh.give]

theorem foldl_localDeliver_eq (items : List ι) (s : GroupMesh ι) :
    items.foldl (fun s item => s.localDeliver p item) s = s.give p items := by
  induction items generalizing s with
  | nil => simp [GroupMesh.give, GroupMesh.qdProcess]
  | cons item items ih =>
    rw [foldl_cons, ih]
    simp [GroupMesh.give, GroupMesh.localDeliver, GroupMesh.process, GroupMesh.qdProcess,
      add_assoc, add_comm 1]

namespace GroupOk

theorem give (h : GroupOk t s hand) (hp : p < t.numMembers) (hl : ∀ e ∈ l, e.2 = p)
    (hhand : ∀ w, weigh w hand = weigh w l + weigh w hand') :
    GroupOk t (s.give p (l.map fst)) hand' where
  streams := h.streams
  onePlace w := by
    have hmap : (l.map fst).map (fun item => (item, p)) = l := by
      rw [map_map]
      exact (map_congr_left fun e he => by rw [comp_apply, ← hl e he]; rfl).trans (map_id l)
    have honePlace := h.onePlace w
    change load t w s.streams + _ + weigh w (s.processed ++ (l.map fst).map fun item => (item, p)) =
      weigh w s.inserted
    rw [hhand] at honePlace
    rw [hmap, weigh_append]
    omega
  created := h.created
  processed := by
    change ∑ q ∈ Finset.range t.numMembers, update s.qdProcessed p _ q =
      (s.processed ++ (l.map fst).map fun item => (item, p)).length
    rw [sum_update_range hp, h.processed, length_append, length_map, length_map, length_map]

theorem moves {streams : MeshState ι} {lim : Nat} (h : GroupOk cfg.topology s hand)
    (hp : p < cfg.topology.numMembers)
    (hhand : ∀ w, weigh w hand = weigh w l + weigh w hand')
    (hmoves : Moves cfg.toStreamerConfig p lim s.streams streams l) :
    GroupOk cfg.topology { s with streams := streams } hand' where
  streams := hmoves.ok h.streams hp
  onePlace w := by
    have honePlace := h.onePlace w
    rw [hhand] at honePlace
    rw [hmoves.load hp, ← honePlace]
    dsimp only
    omega
  created := h.created
  processed := h.processed

theorem take {k q : Nat} {msg : Message ι} (h : GroupOk t s [])
    (hk : s.streams.net[k]? = some (q, msg)) :
    GroupOk t { s with streams := s.streams.take k } msg.entries where
  streams := h.streams.take k
  onePlace w := by
    rw [load_take hk]
    exact h.onePlace w
  created := h.created
  processed := h.processed

theorem insert (h : GroupOk t s []) (hp : p < t.numMembers) (e : ι × Nat) :
    GroupOk t
      { s with inserted := s.inserted ++ [e], qdCreated := update s.qdCreated p (s.qdCreated p +
      1) } [e] where
  streams := h.streams
  onePlace w := by
    rw [weigh_append, ← h.onePlace w, add_right_comm]
    rfl
  created := by rw [sum_update_range hp, h.created, length_append, length_singleton]
  processed := h.processed

theorem receive {msg : Message ι} (h : GroupOk cfg.topology s msg.entries)
    (hsent : Sent cfg.topology (p, msg)) :
    ∃ s', s.receive cfg p msg = .ok s' ∧ GroupOk cfg.topology s' [] := by
  rw [GroupMesh.receive]
  split
  · next hpersonalized =>
      have hzero : msg.msgType = 0 := of_decide_eq_true hpersonalized
      have hdest : ∀ e ∈ msg.entries, e.2 = p := fun e he =>
        have harrived := hsent.entries e he
        eq_of_coord harrived.dest_lt hsent.lt fun d hd =>
        harrived.behind d (hzero ▸ Nat.zero_le d) hd
      rw [receiveAtDestination_eq]
      exact ⟨_, rfl, h.give hsent.lt hdest fun w => rfl⟩
  · obtain ⟨streams, hroute, hmoves⟩ :=
      receiveAlongRoute_moves hsent.lt hsent.msgType_le hsent.entries s.streams
    have hhand : ∀ w, weigh w msg.entries =
        weigh w (msg.entries.filter fun e => e.2 ≠ p) +
        weigh w (msg.entries.filter fun e => e.2 = p) := by
      intro w
      have hperm := filter_append_perm (fun e => decide (e.2 ≠ p)) msg.entries
      simp only [ne_eq, decide_not, Bool.not_not] at hperm
      rw [← weigh_append]
      simp only [ne_eq, decide_not]
      exact ((hperm.map w).sum_eq).symm
    rw [hroute]
    dsimp only
    rw [foldl_localDeliver_eq]
    exact ⟨_, rfl, (h.moves hsent.lt hhand hmoves).give hsent.lt
      (fun e he => of_decide_eq_true (mem_filter.mp he).2) fun w => rfl⟩

theorem insertData {item : ι} {destinationPe : Nat} (h : GroupOk cfg.topology s [])
    (hp : p < cfg.topology.numMembers)
    (hdest : destinationPe < cfg.topology.numMembers) :
    ∃ s', s.insertData cfg p item destinationPe = .ok s' ∧ GroupOk cfg.topology s' [] := by
  have hinsert := h.insert hp (item, destinationPe)
  rw [GroupMesh.insertData]
  dsimp only
  split
  · next heq =>
      have hdest : ∀ e ∈ [(item, destinationPe)], e.2 = p := by simp [heq]
      have hgive : GroupOk cfg.topology _ [] := hinsert.give hp hdest fun w => rfl
      rw [map_singleton, ← foldl_localDeliver_eq] at hgive
      exact ⟨_, rfl, hgive⟩
  · next hne =>
      obtain ⟨streams, hstream, hmoves⟩ := insertData_moves hp hdest hne s.streams item
      rw [hstream]
      exact ⟨_, rfl, hinsert.moves hp (fun w => rfl) hmoves⟩

theorem step (h : GroupOk cfg.topology s []) {a : GroupAction ι}
    {r : Except StreamFault (GroupMesh ι)}
    (hstep : s.step cfg a = some r) : ∃ s', r = .ok s' ∧ GroupOk cfg.topology s' [] := by
  cases a with
  | insertData p item destinationPe =>
    rw [GroupMesh.step, Option.ite_none_right_eq_some] at hstep
    obtain ⟨⟨hp, hdest⟩, ⟨⟩⟩ := hstep
    exact h.insertData hp hdest
  | receive k =>
    rw [GroupMesh.step] at hstep
    split at hstep
    · next p msg hk =>
        cases hstep
        exact (h.take hk).receive (h.streams.net _ (mem_of_getElem? hk))
    · cases hstep
  | flushIfIdle p isPeriodicFlushEnabled =>
    rw [GroupMesh.step, Option.ite_none_right_eq_some] at hstep
    obtain ⟨hp, ⟨⟩⟩ := hstep
    obtain ⟨streams, hflush, hmoves⟩ :
      ∃ streams, s.streams.flushIfIdle cfg.toStreamerConfig p isPeriodicFlushEnabled = .ok streams ∧
      Moves cfg.toStreamerConfig p 0 s.streams streams [] := flushIfIdle_moves hp h.streams _
    rw [hflush]
    exact ⟨_, rfl, h.moves hp (fun w => rfl) hmoves⟩

end GroupOk

theorem new_groupOk : GroupOk t (GroupMesh.new : GroupMesh ι) [] where
  streams := .new
  onePlace w := by simp [load, hold, weigh, GroupMesh.new, MeshState.new]
  created := by simp [GroupMesh.new]
  processed := by simp [GroupMesh.new]

theorem load_eq_zero {u : MeshState ι} (h : load t (fun _ => 1) u = 0) (w : ι × Nat → Nat) :
    load t w u = 0 := by
  have hnil : ∀ l : List (ι × Nat), weigh (fun _ => 1) l = 0 → weigh w l = 0 := by
    intro l hl
    rw [weigh_one, length_eq_zero_iff] at hl
    rw [hl]
    rfl
  simp only [load, hold, Nat.add_eq_zero_iff, Finset.sum_eq_zero_iff, List.sum_eq_zero_iff,
    forall_mem_map] at h ⊢
  exact ⟨fun p hp slot hslot => hnil _ (h.1 p hp slot hslot), fun x hx => hnil _ (h.2 x hx)⟩

theorem weigh_eq_count_self [DecidableEq ι] (l : List (ι × Nat)) (e : ι × Nat) :
    weigh (fun e' => if e' = e then 1 else 0) l = l.count e := by
  induction l with
  | nil => rfl
  | cons e' l ih =>
    rw [count_cons, ← ih, weigh, weigh, map_cons, sum_cons, add_comm]
    simp only [beq_iff_eq]

/-- What is said of a state: each item was processed by its member or is on its way, and quiescence
detection finds its counters equal exactly when all were processed. -/
structure Delivers (t : Topology) (s : GroupMesh ι) : Prop where
  onePlace : ∀ w, load t w s.streams + weigh w s.processed = weigh w s.inserted
  quiet : ∑ p ∈ Finset.range t.numMembers, s.qdCreated p = ∑ p ∈ Finset.range t.numMembers,
    s.qdProcessed p ↔
    s.processed.Perm s.inserted

/-- **Items for the members of a group are delivered once**, without a failure, and quiescence is
not found before. -/
theorem group_mesh_delivers {r : Except StreamFault (GroupMesh ι)}
    (h : (groupSystem cfg).Reachable r) :
    ∃ s, r = .ok s ∧ Delivers cfg.topology s := by
  have hok : ∃ s, r = .ok s ∧ GroupOk cfg.topology s [] := by
    refine Transition.Reachable.invariant (I := fun r => ∃ s, r = .ok s ∧ GroupOk cfg.topology s [])
      ?_ ?_ h
    · rintro _ rfl
      exact ⟨_, rfl, new_groupOk⟩
    · rintro _ a r' ⟨s, rfl, hs⟩ ⟨s', ⟨⟩, hstep⟩
      exact hs.step hstep
  obtain ⟨s, rfl, hs⟩ := hok
  refine ⟨s, rfl, hs.onePlace, ?_⟩
  rw [hs.created, hs.processed]
  constructor
  · intro hlength
    have hone := hs.onePlace fun _ => 1
    rw [weigh_one, weigh_one, weigh_one, hlength] at hone
    have hzero : load cfg.topology (fun _ => 1) s.streams = 0 := by
      change _ + 0 + _ = _ at hone
      omega
    classical
    refine perm_iff_count.mpr fun e => ?_
    have honePlace := hs.onePlace fun e' => if e' = e then 1 else 0
    rwa [load_eq_zero hzero, weigh_eq_count_self, weigh_eq_count_self, weigh_eq_count_self,
      count_nil, zero_add, zero_add] at honePlace
  · exact fun hperm => hperm.length_eq.symm

theorem pos_pair : ∀ s ∈ [2], 0 < s := by decide

/-- Two PEs with buffers of one item. -/
def pairGroup : GroupConfig where
  topology := ⟨[2], pos_pair⟩
  bufferSize := 1
  bufferSize_pos := Nat.one_pos
  maxNumDataItemsBuffered := 0
  useStagedCompletion := false
  notStaged := rfl

/-- An item for the other PE is received. -/
theorem group_mesh_delivers_pair :
    ∃ s : GroupMesh Unit, s.processed = [((), 1)] ∧ Delivers pairGroup.topology s := by
  have h0 : (groupSystem (ι := Unit) pairGroup).Reachable (.ok .new) := .init rfl
  have h1 := h0.step (e := .insertData 0 () 1) ⟨_, rfl, rfl⟩
  have h2 := h1.step (e := .receive 0) ⟨_, rfl, rfl⟩
  obtain ⟨s, hs, hdelivers⟩ := group_mesh_delivers h2
  cases hs
  exact ⟨_, rfl, hdelivers⟩

end CharmRuntime.Streamer
