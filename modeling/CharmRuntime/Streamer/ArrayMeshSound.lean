import CharmRuntime.Streamer.ArrayMesh
import CharmRuntime.Streamer.MeshMoves

/-!
# Streamer.ArrayMeshSound

**Items that missed their element.** Every item is in one place (`places`): a buffer, a message, a
list of items that wait for an answer, or processed by its element; and where items wait, a question
or its answer is on its way (`Asked`). Both are kept by every handler (`ArrayOk`, with the items
that the handler has in its hands), as long as no answer tells items that wait to go to the PE where
they wait already (`ResendsElsewhere`): there is no route from a PE to itself, and `storeMessage`
takes the buffer of a dimension that is not there.
-/

namespace CharmRuntime.Streamer

open Lib Function List
open Prod (fst snd)

variable {κ ι : Type} [DecidableEq κ]

/-! ### Where items are -/

/-- A message is the question where the items go that wait on `p`, or the answer. -/
def Asks (x : Nat × LocationMsg κ) (p : Nat) (arrayId : κ) : Prop :=
  (∃ sourcePe, x.2 = .processLocationRequest arrayId p sourcePe) ∨
    ∃ destinationPe, x = (p, .resendMisdeliveredItems arrayId destinationPe)

def Asked (s : ArrayMesh κ ι) (p : Nat) (arrayId : κ) : Prop := ∃ x ∈ s.locNet, Asks x p arrayId

section

variable [DecidableEq ι] (t : Topology) (s : ArrayMesh κ ι) (x : ArrayDataItem κ ι)

/-- How often an item waits on some PE. -/
def waiting : Nat := ∑ p ∈ Finset.range t.numMembers, (s.misdeliveredItems p x.arrayIndex).count x

/-- How often an item is in a buffer or a message, waits, or was processed. -/
def places : Nat :=
  load t (fun e => if e.1 = x then 1 else 0) s.streams + waiting t s x +
  (s.processed.map Prod.snd).count x

end

/-- What the messages about locations say is about PEs that there are. -/
def LocSent (t : Topology) (x : Nat × LocationMsg κ) : Prop :=
  match x.2 with
  | .processLocationRequest _ deliveredToPe _ => deliveredToPe < t.numMembers
  | .resendMisdeliveredItems _ destinationPe => x.1 < t.numMembers ∧ destinationPe < t.numMembers
  | .updateLocationAtSource _ _ => True

/-- What holds of elements and messages about them. -/
structure ElementsOk (t : Topology) (s : ArrayMesh κ ι) : Prop where
  locNet : ∀ x ∈ s.locNet, LocSent t x
  asked : ∀ p arrayId, s.misdeliveredItems p arrayId ≠ [] → Asked s p arrayId
  index : ∀ p arrayId, ∀ x ∈ s.misdeliveredItems p arrayId, x.arrayIndex = arrayId
  held : ∀ e, ∀ p ∈ s.held e, p < t.numMembers
  owner : ∀ e p, s.owner e = some p → p ∈ s.held e
  processed : ∀ x ∈ s.processed, x.1 ∈ s.held x.2.arrayIndex

/-- A state in which a handler has the items `hand` in its hands. -/
structure ArrayOk [DecidableEq ι] (t : Topology) (s : ArrayMesh κ ι)
    (hand : List (ArrayDataItem κ ι)) : Prop where
  streams : MeshOk t s.streams
  elements : ElementsOk t s
  places : ∀ x, places t s x + hand.count x = s.inserted.count x

variable {cfg : ArrayConfig κ} {t : Topology} {s s' : ArrayMesh κ ι} {p : Nat}
  {hand : List (ArrayDataItem κ ι)}
  {item : ArrayDataItem κ ι}

/-! ### Elements and messages about them -/

theorem misdeliveredItems_set (s : ArrayMesh κ ι) (p : Nat) (arrayId : κ)
    (items : List (ArrayDataItem κ ι)) (q : Nat) (e : κ) :
    (s.setMisdelivered p arrayId items).misdeliveredItems q e =
      if q = p ∧ e = arrayId then items else s.misdeliveredItems q e := by
  change update s.misdeliveredItems p (update (s.misdeliveredItems p) arrayId items) q e = _
  rw [update_apply]
  split
  · next hq =>
      rw [update_apply, hq]
      simp only [true_and]
  · next hq => rw [if_neg fun h => hq h.1]

namespace ElementsOk

omit [DecidableEq κ] in
theorem send {m : LocationMsg κ} (h : ElementsOk t s) (hm : LocSent t (p, m)) :
    ElementsOk t (s.send p m) where
  locNet x hx := by
    rw [ArrayMesh.send, mem_append, mem_singleton] at hx
    obtain hx | rfl := hx
    exacts [h.locNet x hx, hm]
  asked q arrayId hne := by
    obtain ⟨x, hx, hasks⟩ := h.asked q arrayId hne
    exact ⟨x, mem_append_left _ hx, hasks⟩
  index := h.index
  held := h.held
  owner := h.owner
  processed := h.processed

theorem setMisdelivered {arrayId : κ} {items : List (ArrayDataItem κ ι)} (h : ElementsOk t s)
    (hasked : items ≠ [] → Asked s p arrayId) (hindex : ∀ x ∈ items, x.arrayIndex = arrayId) :
    ElementsOk t (s.setMisdelivered p arrayId items) where
  locNet := h.locNet
  asked q e hne := by
    rw [misdeliveredItems_set] at hne
    split at hne
    · next heq =>
        obtain ⟨rfl, rfl⟩ := heq
        exact hasked hne
    · exact h.asked q e hne
  index q e := by
    rw [misdeliveredItems_set]
    split
    · next heq =>
        obtain ⟨rfl, rfl⟩ := heq
        exact hindex
    · exact h.index q e
  held := h.held
  owner := h.owner
  processed := h.processed

omit [DecidableEq κ] in
/-- A message is answered by others, which ask what it asked as far as items still wait. -/
theorem answer {x : Nat × LocationMsg κ} {k : Nat} {msgs : List (Nat × LocationMsg κ)}
    {mis : Nat → κ → List (ArrayDataItem κ ι)} (h : ElementsOk t s) (hk : s.locNet[k]? = some x)
    (hmsgs : ∀ y ∈ msgs, LocSent t y)
    (hmis : ∀ q e, mis q e = s.misdeliveredItems q e ∨ mis q e = [])
    (hasks : ∀ q e, mis q e ≠ [] → Asks x q e → ∃ y ∈ msgs, Asks y q e) :
    ElementsOk t { s with locNet := s.locNet.eraseIdx k ++ msgs, misdeliveredItems := mis } where
  locNet y hy := by
    obtain hy | hy := mem_append.mp hy
    exacts [h.locNet y (mem_of_mem_eraseIdx hy), hmsgs y hy]
  asked q e hne := by
    have hkept := (hmis q e).resolve_right hne
    obtain ⟨y, hy, hyasks⟩ := h.asked q e (hkept ▸ hne)
    obtain rfl | hy := mem_cons.mp ((perm_eraseIdx hk).mem_iff.mp hy)
    · obtain ⟨z, hz, hzasks⟩ := hasks q e hne hyasks
      exact ⟨z, mem_append_right _ hz, hzasks⟩
    · exact ⟨y, mem_append_left _ hy, hyasks⟩
  index q e := by
    obtain heq | heq := hmis q e
    · change ∀ x ∈ mis q e, _
      rw [heq]
      exact h.index q e
    · change ∀ x ∈ mis q e, _
      rw [heq]
      exact fun _ hx => absurd hx not_mem_nil
  held := h.held
  owner := h.owner
  processed := h.processed

omit [DecidableEq κ] in
theorem process (h : ElementsOk t s) (howner : s.owner item.arrayIndex = some p) :
    ElementsOk t { s with processed := s.processed ++ [(p, item)] } where
  locNet := h.locNet
  asked := h.asked
  index := h.index
  held := h.held
  owner := h.owner
  processed x hx := by
    obtain hx | hx := mem_append.mp hx
    · exact h.processed x hx
    · obtain rfl := mem_singleton.mp hx
      exact h.owner _ p howner

theorem wait (h : ElementsOk t s) (hasked : Asked s p item.arrayIndex) :
    ElementsOk t
      (s.setMisdelivered p item.arrayIndex (s.misdeliveredItems p item.arrayIndex ++ [item])) := by
  refine h.setMisdelivered (fun _ => hasked) fun x hx => ?_
  obtain hx | hx := mem_append.mp hx
  · exact h.index p _ x hx
  · exact mem_singleton.mp hx ▸ rfl

theorem depart (h : ElementsOk t s) (arrayIndex : κ) :
    ElementsOk t { s with owner := update s.owner arrayIndex none } where
  locNet := h.locNet
  asked := h.asked
  index := h.index
  held := h.held
  owner e q howner := by
    change update s.owner arrayIndex none e = some q at howner
    rw [update_apply] at howner
    split at howner
    · cases howner
    · exact h.owner e q howner
  processed := h.processed

theorem arrive (h : ElementsOk t s) (arrayIndex : κ) (hp : p < t.numMembers) :
    ElementsOk t
      { s with
        owner := update s.owner arrayIndex (some p)
        held := update s.held arrayIndex (p :: s.held arrayIndex) } := by
  have hheld : ∀ e, ∀ q ∈ s.held e, q ∈ update s.held arrayIndex (p :: s.held arrayIndex) e := by
    intro e q hq
    rw [update_apply]
    split
    · next heq => exact mem_cons_of_mem p (heq ▸ hq)
    · exact hq
  exact
    { locNet := h.locNet
      asked := h.asked
      index := h.index
      held := by
        intro e q hq
        change q ∈ update s.held arrayIndex (p :: s.held arrayIndex) e at hq
        rw [update_apply] at hq
        split at hq
        · obtain rfl | hq := mem_cons.mp hq
          exacts [hp, h.held arrayIndex q hq]
        · exact h.held e q hq
      owner := by
        intro e q howner
        change update s.owner arrayIndex (some p) e = some q at howner
        rw [update_apply] at howner
        split at howner
        · next heq =>
            cases howner
            change p ∈ update s.held arrayIndex (p :: s.held arrayIndex) e
            rw [heq, update_self]
            exact mem_cons_self
        · exact hheld e q (h.owner e q howner)
      processed := fun x hx => hheld _ _ (h.processed x hx) }

end ElementsOk

/-! ### Delivering -/

variable [DecidableEq ι]

theorem weigh_eq_count (l : List (ArrayDataItem κ ι × Nat)) (x : ArrayDataItem κ ι) :
    weigh (fun e => if e.1 = x then 1 else 0) l = (l.map fst).count x := by
  induction l with
  | nil => rfl
  | cons e l ih =>
    rw [map_cons, count_cons, ← ih, weigh, weigh, map_cons, sum_cons, add_comm]
    simp only [beq_iff_eq]

theorem waiting_setMisdelivered (hp : p < t.numMembers) (s : ArrayMesh κ ι) (arrayId : κ)
    (items : List (ArrayDataItem κ ι))
    (x : ArrayDataItem κ ι) :
    waiting t (s.setMisdelivered p arrayId items) x +
    (if x.arrayIndex = arrayId then (s.misdeliveredItems p arrayId).count x else 0) =
      waiting t s x + if x.arrayIndex = arrayId then items.count x else 0 := by
  have hsum :=
    sum_update_replace (Finset.mem_range.mpr hp) (fun m => (m x.arrayIndex).count x)
      s.misdeliveredItems
    (update (s.misdeliveredItems p) arrayId items)
  change waiting t (s.setMisdelivered p arrayId items) x + _ = waiting t s x + _ at hsum
  rw [update_apply] at hsum
  split
  · next hindex =>
      rw [if_pos hindex, hindex] at hsum
      exact hsum
  · next hindex =>
      rw [if_neg hindex] at hsum
      omega

variable {arrayId : κ} {dest k : Nat}

omit [DecidableEq κ] in
theorem count_eq_zero_of_index {items : List (ArrayDataItem κ ι)}
    {x : ArrayDataItem κ ι} [DecidableEq κ]
    (hindex : ∀ y ∈ items, y.arrayIndex = arrayId) (hx : x.arrayIndex ≠ arrayId) :
    items.count x = 0 :=
  List.count_eq_zero.mpr fun hmem => hx (hindex x hmem)

theorem waiting_append (hp : p < t.numMembers) (s : ArrayMesh κ ι) (item x : ArrayDataItem κ ι) :
    waiting t
      (s.setMisdelivered p item.arrayIndex (s.misdeliveredItems p item.arrayIndex ++ [item])) x =
      waiting t s x + [item].count x := by
  have hset :=
    waiting_setMisdelivered hp s item.arrayIndex (s.misdeliveredItems p item.arrayIndex ++ [item]) x
  rw [count_append] at hset
  split at hset
  · omega
  · next hindex =>
      have hzero := count_eq_zero_of_index (fun y hy => mem_singleton.mp hy ▸ rfl) hindex
      omega

namespace ArrayOk

theorem process (h : ArrayOk t s (item :: hand)) (howner : s.owner item.arrayIndex = some p) :
    ArrayOk t { s with processed := s.processed ++ [(p, item)] } hand where
  streams := h.streams
  elements := h.elements.process howner
  places x := by
    have hplaces := h.places x
    rw [← singleton_append, count_append] at hplaces
    rw [Streamer.places, map_append, count_append]
    change load _ _ s.streams + waiting t s x + (_ + [item].count x) + _ = s.inserted.count x
    rw [Streamer.places] at hplaces
    omega

theorem wait (h : ArrayOk t s (item :: hand)) (hp : p < t.numMembers)
    (hasked : Asked s p item.arrayIndex) :
    ArrayOk t
      (s.setMisdelivered p item.arrayIndex (s.misdeliveredItems p item.arrayIndex ++ [item]))
        hand where
  streams := h.streams
  elements := h.elements.wait hasked
  places x := by
    have hplaces := h.places x
    rw [← singleton_append, count_append, Streamer.places] at hplaces
    rw [Streamer.places, waiting_append hp]
    change load _ _ s.streams + _ + (s.processed.map snd).count x + _ = s.inserted.count x
    omega

theorem send {m : LocationMsg κ} (h : ArrayOk t s hand) (hm : LocSent t (p, m)) :
    ArrayOk t (s.send p m) hand :=
  ⟨h.streams, h.elements.send hm, h.places⟩

end ArrayOk

/-- **An item is processed, or waits.** -/
theorem ArrayMesh.localDeliver_ok (hstaged : cfg.useStagedCompletion = false)
    (hp : p < cfg.topology.numMembers)
    (h : ArrayOk cfg.topology s (item :: hand)) :
    ∃ s', s.localDeliver cfg p item = .ok s' ∧ ArrayOk cfg.topology s' hand := by
  rw [localDeliver, hstaged]
  split
  · next howner => exact ⟨_, rfl, h.process howner⟩
  · rw [if_neg Bool.false_ne_true]
    dsimp only
    split
    · -- The first item that waits asks.
      exact ⟨_, rfl, (h.send (m := .processLocationRequest item.arrayIndex p item.sourcePe) hp).wait
        hp
        ⟨_, mem_append_right _ (mem_singleton_self _), .inl ⟨_, rfl⟩⟩⟩
    · next hlength =>
        refine ⟨_, rfl, h.wait hp (h.elements.asked p _ fun hnil => hlength ?_)⟩
        rw [hnil]
        rfl

theorem ArrayMesh.deliverAll_ok (hstaged : cfg.useStagedCompletion = false)
    (hp : p < cfg.topology.numMembers)
    {items : List (ArrayDataItem κ ι)} (h : ArrayOk cfg.topology s (items ++ hand)) :
    ∃ s', s.deliverAll cfg p items = .ok s' ∧ ArrayOk cfg.topology s' hand := by
  induction items generalizing s with
  | nil => exact ⟨s, rfl, h⟩
  | cons item items ih =>
    obtain ⟨s1, hdeliver, h1⟩ := localDeliver_ok hstaged hp h
    obtain ⟨s', hall, h'⟩ := ih h1
    refine ⟨s', ?_, h'⟩
    rw [deliverAll, hdeliver]
    exact hall

/-! ### Items come and go -/

namespace ArrayOk

theorem moves {lim : Nat} {streams : MeshState (ArrayDataItem κ ι)}
    {l : List (ArrayDataItem κ ι × Nat)}
    {hand' : List (ArrayDataItem κ ι)} (h : ArrayOk cfg.topology s hand')
    (hperm : hand'.Perm (l.map fst ++ hand)) (hp : p < cfg.topology.numMembers)
    (hmoves : Moves cfg.toStreamerConfig p lim s.streams streams l) :
    ArrayOk cfg.topology { s with streams := streams } hand where
  streams := hmoves.ok h.streams hp
  elements :=
    ⟨h.elements.locNet, h.elements.asked, h.elements.index, h.elements.held, h.elements.owner,
    h.elements.processed⟩
  places x := by
    have hplaces := h.places x
    rw [hperm.count_eq, count_append, Streamer.places] at hplaces
    rw [Streamer.places, hmoves.load hp, weigh_eq_count]
    change _ + waiting cfg.topology s x + (s.processed.map snd).count x + _ = s.inserted.count x
    omega

theorem take {k : Nat} {q : Nat} {msg : Message (ArrayDataItem κ ι)} (h : ArrayOk t s hand)
    (hk : s.streams.net[k]? = some (q, msg)) :
    ArrayOk t { s with streams := s.streams.take k } (msg.entries.map fst ++ hand) where
  streams := h.streams.take k
  elements :=
    ⟨h.elements.locNet, h.elements.asked, h.elements.index, h.elements.held, h.elements.owner,
    h.elements.processed⟩
  places x := by
    have hplaces := h.places x
    have hload := load_take hk t fun e => if e.1 = x then 1 else 0
    rw [weigh_eq_count] at hload
    change _ + (msg.entries.map fst).count x = _ at hload
    rw [Streamer.places] at hplaces
    rw [count_append]
    change load t _ (s.streams.take k) + waiting t s x + (s.processed.map snd).count x + _ =
      s.inserted.count x
    omega

end ArrayOk

theorem ArrayMesh.receive_ok (hstaged : cfg.useStagedCompletion = false)
    {msg : Message (ArrayDataItem κ ι)}
    (hsent : Sent cfg.topology (p, msg)) (h : ArrayOk cfg.topology s (msg.entries.map fst)) :
    ∃ s', s.receive cfg p msg = .ok s' ∧ ArrayOk cfg.topology s' [] := by
  rw [receive]
  split
  · have hnil : ArrayOk cfg.topology s (msg.entries.map fst ++ []) := by rwa [append_nil]
    exact deliverAll_ok hstaged hsent.lt hnil
  · obtain ⟨streams, hroute, hmoves⟩ :=
      receiveAlongRoute_moves hsent.lt hsent.msgType_le hsent.entries s.streams
    have hperm : (msg.entries.map fst).Perm
        ((msg.entries.filter fun e => e.2 ≠ p).map fst ++
        ((msg.entries.filter fun e => e.2 = p).map fst ++ [])) := by
      rw [append_nil, ← map_append]
      refine .map _ ((filter_append_perm (fun e => decide (e.2 ≠ p)) msg.entries).symm.trans ?_)
      simp
    rw [hroute]
    exact deliverAll_ok hstaged hsent.lt (h.moves hperm hsent.lt hmoves)

theorem ArrayOk.insert (h : ArrayOk t s []) (item : ArrayDataItem κ ι) :
    ArrayOk t { s with inserted := s.inserted ++ [item] } [item] where
  streams := h.streams
  elements :=
    ⟨h.elements.locNet, h.elements.asked, h.elements.index, h.elements.held, h.elements.owner,
    h.elements.processed⟩
  places x := by
    have hplaces := h.places x
    rw [count_append, ← hplaces]
    rfl

theorem ArrayMesh.insertData_ok (hstaged : cfg.useStagedCompletion = false) {dataItem : ι}
    {arrayIndex : κ} {lastKnown : Nat}
    (hp : p < cfg.topology.numMembers) (hlast : lastKnown < cfg.topology.numMembers)
    (h : ArrayOk cfg.topology s []) :
    ∃ s', s.insertData cfg p dataItem arrayIndex lastKnown = .ok s' ∧
    ArrayOk cfg.topology s' [] := by
  have hinsert := h.insert ⟨arrayIndex, p, dataItem⟩
  rw [insertData]
  split
  · exact localDeliver_ok hstaged hp hinsert
  · next hne =>
      obtain ⟨streams, hstream, hmoves⟩ :=
        insertData_moves hp hlast hne s.streams ⟨arrayIndex, p, dataItem⟩
      rw [hstream]
      exact ⟨_, rfl, hinsert.moves (.refl _) hp hmoves⟩

/-! ### Messages about locations -/

omit [DecidableEq κ] [DecidableEq ι] in
theorem resendLoop_moves (hp : p < cfg.topology.numMembers) (hdest : dest < cfg.topology.numMembers)
    (items : List (ArrayDataItem κ ι)) (hne : items ≠ [] → dest ≠ p)
    (streams : MeshState (ArrayDataItem κ ι)) :
    ∃ streams', ArrayMesh.resendLoop cfg p dest (determineInitialRoute cfg.topology p dest) items
      streams = .ok streams' ∧
      Moves cfg.toStreamerConfig p cfg.topology.numDimensions streams streams'
        (items.map fun item => (item, dest)) := by
  induction items generalizing streams with
  | nil => exact ⟨streams, rfl, .refl⟩
  | cons item items ih =>
    have hother := hne (cons_ne_nil _ _)
    obtain ⟨streams1, hstore, hmoves1⟩ := insertData_moves hp hdest hother streams item
    obtain ⟨streams', hloop, hmoves⟩ := ih (fun _ => hother) streams1
    refine ⟨streams', ?_, hmoves1.trans hmoves⟩
    rw [MeshState.insertData] at hstore
    rw [ArrayMesh.resendLoop, hstore]
    exact hloop

theorem ArrayOk.drain (h : ArrayOk t s []) (hp : p < t.numMembers)
    (hk : s.locNet[k]? = some (p, .resendMisdeliveredItems arrayId dest)) :
    ArrayOk t (ArrayMesh.setMisdelivered { s with locNet := s.locNet.eraseIdx k } p arrayId [])
      (s.misdeliveredItems p arrayId) where
  streams := h.streams
  elements := by
    have hmis :
      ∀ q e, (s.setMisdelivered p arrayId []).misdeliveredItems q e = s.misdeliveredItems q e ∨
        (s.setMisdelivered p arrayId []).misdeliveredItems q e = [] := by
      intro q e
      rw [misdeliveredItems_set]
      split
      exacts [.inr rfl, .inl rfl]
    have hasks : ∀ q e, (s.setMisdelivered p arrayId []).misdeliveredItems q e ≠ [] →
        Asks (p, .resendMisdeliveredItems arrayId dest) q e → ∃ y ∈ [], Asks y q e := by
      rintro q e hne (⟨_, heq⟩ | ⟨_, heq⟩)
      · cases heq
      · cases heq
        rw [misdeliveredItems_set, if_pos ⟨rfl, rfl⟩] at hne
        exact absurd rfl hne
    have hanswer := h.elements.answer hk (fun y hy => absurd hy not_mem_nil) hmis hasks
    rw [append_nil] at hanswer
    exact hanswer
  places x := by
    have hplaces := h.places x
    have hset := waiting_setMisdelivered hp { s with locNet := s.locNet.eraseIdx k } arrayId [] x
    rw [Streamer.places, count_nil] at hplaces
    change load t _ s.streams + waiting t (ArrayMesh.setMisdelivered _ p arrayId []) x +
      (s.processed.map snd).count x + _ = _
    rw [count_nil, ite_self] at hset
    change _ = waiting t s x + 0 at hset
    split at hset
    · change _ + (s.misdeliveredItems p arrayId).count x = _ at hset
      change _ = s.inserted.count x
      omega
    · next hindex =>
        have hzero := count_eq_zero_of_index (h.elements.index p arrayId) hindex
        change _ = s.inserted.count x
        omega

theorem ArrayMesh.resendMisdeliveredItems_ok (h : ArrayOk cfg.topology s [])
    (hk : s.locNet[k]? = some (p, .resendMisdeliveredItems arrayId dest))
    (hne : s.misdeliveredItems p arrayId ≠ [] → dest ≠ p) :
    ∃ s', ArrayMesh.resendMisdeliveredItems cfg { s with locNet := s.locNet.eraseIdx k } p arrayId
      dest = .ok s' ∧
      ArrayOk cfg.topology s' [] := by
  obtain ⟨hp, hdest⟩ := h.elements.locNet _ (mem_of_getElem? hk)
  obtain ⟨streams, hloop, hmoves⟩ := resendLoop_moves hp hdest _ hne s.streams
  have hdrain := h.drain hp hk
  rw [resendMisdeliveredItems]
  rw [hloop]
  have hperm :
    (s.misdeliveredItems p arrayId).Perm
      (((s.misdeliveredItems p arrayId).map fun item => (item, dest)).map fst ++ []) := by
    rw [append_nil, map_map]
    exact .of_eq (map_id _).symm
  exact ⟨_, rfl, hdrain.moves hperm hp hmoves⟩

theorem ArrayMesh.processLocationRequest_ok {q deliveredToPe sourcePe lastKnown : Nat}
    (h : ArrayOk t s [])
    (hk : s.locNet[k]? = some (q, .processLocationRequest arrayId deliveredToPe sourcePe))
    (hlast : lastKnown ∈ s.held arrayId) :
    ArrayOk t
      (ArrayMesh.processLocationRequest { s with locNet := s.locNet.eraseIdx k } arrayId
        deliveredToPe sourcePe lastKnown) [] where
  streams := h.streams
  elements := by
    have hmsgs : ∀ y ∈ ([(deliveredToPe, .resendMisdeliveredItems arrayId lastKnown),
        (sourcePe, .updateLocationAtSource arrayId sourcePe)]), LocSent t y := by
      simp only [forall_mem_cons, not_mem_nil, false_implies, implies_true, and_true]
      exact ⟨⟨h.elements.locNet _ (mem_of_getElem? hk), h.elements.held arrayId lastKnown hlast⟩,
        trivial⟩
    have hanswer := h.elements.answer hk hmsgs (fun _ _ => .inl rfl) ?_
    · rw [processLocationRequest, send, send]
      simp only [append_assoc]
      exact hanswer
    · rintro p e - (⟨_, heq⟩ | ⟨_, heq⟩)
      · cases heq
        exact ⟨_, mem_cons_self, .inr ⟨_, rfl⟩⟩
      · cases heq
  places := h.places

theorem ArrayMesh.updateLocationAtSource_ok {q destinationPe : Nat} (h : ArrayOk t s [])
    (hk : s.locNet[k]? = some (q, .updateLocationAtSource arrayId destinationPe)) :
    ArrayOk t { s with locNet := s.locNet.eraseIdx k } [] where
  streams := h.streams
  elements := by
    have hasks :
      ∀ p e, s.misdeliveredItems p e ≠ [] →
      Asks (q, .updateLocationAtSource arrayId destinationPe) p e →
        ∃ y ∈ [], Asks y p e := by
      rintro p e - (⟨_, heq⟩ | ⟨_, heq⟩)
      · cases heq
      · cases heq
    have hanswer :=
      h.elements.answer hk (fun y hy => absurd hy not_mem_nil) (fun _ _ => .inl rfl) hasks
    rw [append_nil] at hanswer
    exact hanswer
  places := h.places

/-! ### Runs -/

omit [DecidableEq ι] in
/-- There is no route from a PE to itself: items that are told to go where they wait are a failure.
-/
theorem resendMisdeliveredItems_self {p : Nat} {arrayId : κ} (hp : p < cfg.topology.numMembers)
    (hwaits : s.misdeliveredItems p arrayId ≠ []) :
    s.resendMisdeliveredItems cfg p arrayId p = .error .outOfRange := by
  obtain ⟨item, items, hitems⟩ := exists_cons_of_ne_nil hwaits
  have hroute : determineInitialRoute cfg.topology p p = none :=
    (determineInitialRoute_eq_none_iff hp hp).mpr rfl
  simp only [ArrayMesh.resendMisdeliveredItems, hroute, hitems, ArrayMesh.resendLoop,
    MeshState.storeMessage]

/-- Where no item waits for a PE's answer to be the PE itself. -/
def ResendsElsewhere (r : Except StreamFault (ArrayMesh κ ι)) (a : ArrayAction κ ι) : Prop :=
  ∀ s k lastKnown p arrayId destinationPe, r = .ok s → a = .locate k lastKnown →
    s.locNet[k]? = some (p, .resendMisdeliveredItems arrayId destinationPe) →
    s.misdeliveredItems p arrayId ≠ [] →
      destinationPe ≠ p

/-- No step fails, as long as resent items go to another processor. -/
theorem step_arrayOk (hstaged : cfg.useStagedCompletion = false) (h : ArrayOk cfg.topology s [])
    {a : ArrayAction κ ι}
    (hother : ResendsElsewhere (.ok s) a) {r : Except StreamFault (ArrayMesh κ ι)}
    (hstep : s.step cfg a = some r) :
    ∃ s', r = .ok s' ∧ ArrayOk cfg.topology s' [] := by
  cases a with
  | insertData p dataItem arrayIndex lastKnown =>
    rw [ArrayMesh.step, Option.ite_none_right_eq_some] at hstep
    obtain ⟨⟨hp, hlast⟩, ⟨⟩⟩ := hstep
    exact ArrayMesh.insertData_ok hstaged hp hlast h
  | receive k =>
    rw [ArrayMesh.step] at hstep
    split at hstep
    · next p msg hk =>
        cases hstep
        have htake := h.take hk
        rw [append_nil] at htake
        exact ArrayMesh.receive_ok hstaged (h.streams.net _ (mem_of_getElem? hk)) htake
    · cases hstep
  | locate k lastKnown =>
    rw [ArrayMesh.step] at hstep
    split at hstep
    · next p msg hk =>
        split at hstep
        · next arrayId deliveredToPe sourcePe =>
            rw [Option.ite_none_right_eq_some] at hstep
            obtain ⟨hlast, ⟨⟩⟩ := hstep
            exact ⟨_, rfl, ArrayMesh.processLocationRequest_ok h hk hlast⟩
        · next hrequest =>
            cases hstep
            cases msg with
            | processLocationRequest arrayId deliveredToPe sourcePe =>
              exact absurd rfl (hrequest arrayId deliveredToPe sourcePe)
            | resendMisdeliveredItems arrayId destinationPe =>
              exact ArrayMesh.resendMisdeliveredItems_ok h hk
                (hother s k lastKnown p arrayId destinationPe rfl rfl hk)
            | updateLocationAtSource arrayId destinationPe =>
              exact ⟨_, rfl, ArrayMesh.updateLocationAtSource_ok h hk⟩
    · cases hstep
  | flushIfIdle p =>
    rw [ArrayMesh.step, Option.ite_none_right_eq_some] at hstep
    obtain ⟨hp, ⟨⟩⟩ := hstep
    obtain ⟨streams, hflush, hmoves⟩ :
      ∃ streams, s.streams.flushIfIdle cfg.toStreamerConfig p true = .ok streams ∧
      Moves cfg.toStreamerConfig p 0 s.streams streams [] := flushIfIdle_moves hp h.streams true
    rw [hflush]
    exact ⟨_, rfl, h.moves (.refl _) hp hmoves⟩
  | depart arrayIndex =>
    rw [ArrayMesh.step] at hstep
    split at hstep
    · cases hstep
    · cases hstep
      exact ⟨_, rfl, h.streams, h.elements.depart arrayIndex, h.places⟩
  | arrive arrayIndex p =>
    rw [ArrayMesh.step, Option.ite_none_right_eq_some] at hstep
    obtain ⟨⟨-, hp⟩, ⟨⟩⟩ := hstep
    exact ⟨_, rfl, h.streams, h.elements.arrive arrayIndex hp, h.places⟩

theorem new_arrayOk {owner : κ → Option Nat} (howner : ∀ e p, owner e = some p → p < t.numMembers) :
    ArrayOk t (ArrayMesh.new owner : ArrayMesh κ ι) [] where
  streams := .new
  elements :=
    { locNet := fun _ hx => absurd hx not_mem_nil
      asked := fun _ _ hne => absurd rfl hne
      index := fun _ _ _ hx => absurd hx not_mem_nil
      held := fun e p hp => howner e p (Option.mem_toList.mp hp)
      owner := fun _ _ h => Option.mem_toList.mpr h
      processed := fun _ hx => absurd hx not_mem_nil }
  places x := by
    simp [places, waiting, load, hold, weigh, ArrayMesh.new, MeshState.new]

/-- What is said of a state: each item that was inserted is in one place, it was processed where its
element has been, and where items wait someone is asked. -/
structure Kept (t : Topology) (s : ArrayMesh κ ι) : Prop where
  onePlace : ∀ x, places t s x = s.inserted.count x
  byElement : ∀ x ∈ s.processed, x.1 ∈ s.held x.2.arrayIndex
  asked : ∀ p arrayId, s.misdeliveredItems p arrayId ≠ [] → Asked s p arrayId

/-- **Items that missed their element are not lost**, as long as they are never told to go where
they are. -/
theorem kept_of_resendsElsewhere (hstaged : cfg.useStagedCompletion = false)
    {r : Except StreamFault (ArrayMesh κ ι)}
    (h : (arraySystem cfg).RunsWith ResendsElsewhere r) : ∃ s, r = .ok s ∧ Kept cfg.topology s := by
  have hok : ∃ s, r = .ok s ∧ ArrayOk cfg.topology s [] := by
    refine Transition.RunsWith.invariant (I := fun r => ∃ s, r = .ok s ∧ ArrayOk cfg.topology s [])
      ?_ ?_ h
    · rintro _ ⟨owner, howner, rfl⟩
      exact ⟨_, rfl, new_arrayOk howner⟩
    · rintro _ a r' ⟨s, rfl, hs⟩ hother ⟨s', ⟨⟩, hstep⟩
      exact step_arrayOk hstaged hs hother hstep
  obtain ⟨s, rfl, hs⟩ := hok
  exact ⟨s, rfl, hs.places, hs.elements.processed, hs.elements.asked⟩

/-- Two PEs with buffers of one item; the home of every element is the first. -/
def twoPes : ArrayConfig Unit where
  topology := ⟨[2], by decide⟩
  bufferSize := 1
  bufferSize_pos := by decide
  maxNumDataItemsBuffered := 0
  useStagedCompletion := false
  homePe _ := 0

/-- An item misses its element, which has moved from the second PE to the first, waits on the second
and is sent on. -/
theorem kept_misdelivered :
    ∃ s : ArrayMesh Unit Unit, (arraySystem twoPes).RunsWith ResendsElsewhere (.ok s) ∧
    s.processed = [(0, ⟨(), 0, ()⟩)] ∧ s.held () = [0, 1] ∧ Kept twoPes.topology s := by
  have h0 : (arraySystem (ι := Unit) twoPes).RunsWith ResendsElsewhere
    (.ok (ArrayMesh.new fun _ => some 1)) :=
    .init ⟨_, by rintro _ p ⟨⟩; decide, rfl⟩
  have h1 := h0.step (e := .insertData 0 () () 1) (by rintro _ _ _ _ _ _ - ⟨⟩) ⟨_, rfl, rfl⟩
  have h2 := h1.step (e := .depart ()) (by rintro _ _ _ _ _ _ - ⟨⟩) ⟨_, rfl, rfl⟩
  have h3 := h2.step (e := .arrive () 0) (by rintro _ _ _ _ _ _ - ⟨⟩) ⟨_, rfl, rfl⟩
  have h4 := h3.step (e := .receive 0) (by rintro _ _ _ _ _ _ - ⟨⟩) ⟨_, rfl, rfl⟩
  have h5 := h4.step (e := .locate 0 0) (by rintro _ _ _ _ _ _ ⟨⟩ ⟨⟩ ⟨⟩) ⟨_, rfl, rfl⟩
  -- The answer names the first PE, and the item waits on the second.
  have h6 := h5.step (e := .locate 0 0) (by rintro _ _ _ _ _ _ ⟨⟩ ⟨⟩ ⟨⟩; decide) ⟨_, rfl, rfl⟩
  have h7 := h6.step (e := .receive 0) (by rintro _ _ _ _ _ _ - ⟨⟩) ⟨_, rfl, rfl⟩
  obtain ⟨s, hs, hkept⟩ := kept_of_resendsElsewhere rfl h7
  cases hs
  exact ⟨_, h7, rfl, rfl, hkept⟩

/-- An item waits on the second PE, which its element has been on, and is told to go there. -/
theorem not_kept :
    ¬ ∀ r : Except StreamFault (ArrayMesh Unit Unit), (arraySystem twoPes).Reachable r →
    ∃ s, r = .ok s ∧ Kept twoPes.topology s := by
  intro hall
  have h0 : (arraySystem (ι := Unit) twoPes).Reachable (.ok (ArrayMesh.new fun _ => some 1)) :=
    .init ⟨_, by rintro _ p ⟨⟩; decide, rfl⟩
  have h1 := h0.step (e := .insertData 0 () () 1) ⟨_, rfl, rfl⟩
  have h2 := h1.step (e := .depart ()) ⟨_, rfl, rfl⟩
  have h3 := h2.step (e := .receive 0) ⟨_, rfl, rfl⟩
  have h4 := h3.step (e := .locate 0 1) ⟨_, rfl, rfl⟩
  have h5 := h4.step (e := .locate 0 1) ⟨_, rfl, rfl⟩
  obtain ⟨s, hs, -⟩ := hall _ h5
  cases hs

end CharmRuntime.Streamer
