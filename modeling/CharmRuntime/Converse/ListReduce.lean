import CharmRuntime.Converse.ListTree
import CharmRuntime.Converse.ReduceSteps
import CharmRuntime.Lib.InFlight
import CharmRuntime.Lib.Transition

/-!
# Converse.ListReduce

One list reduction (`CmiListReduce`) over a list of processors. The number of messages that
a processor waits for comes from the tree over the list, but the slots that its own call
allocates are those of the machine's spanning tree. Where the call comes first and the
machine's tree has fewer (but some) children, the messages of the list's children do not
fit.

The world is the table of each processor and the messages on their way. Beside them it
keeps what the code does not: who has called, who has sent, and the data that has arrived
at each processor since its structure was made.
-/

namespace CharmRuntime.Converse

open Lib List
open Function (update update_of_ne update_self)

structure ListWorld (δ : Type) where
  pe : Nat → ReduceTable δ
  net : List (Nat × ReduceMsg δ)
  called : List Nat
  sent : List Nat
  arrived : Nat → List δ

/-- The call of `CmiListReduce` on processor `p`, or the arrival of message `k`. -/
inductive ListEvent (δ : Type)
  | call (p : Nat) (a : ReduceArgs δ)
  | arrive (k : Nat)

variable {δ : Type}

namespace ListWorld

/-- The new table of `p`, and what it sends. -/
def emit (w : ListWorld δ) (p : Nat) (res : ReduceTable δ × Option (ReduceOut δ)) : ListWorld δ :=
  let w := { w with pe := Function.update w.pe p res.1 }
  match res.2 with
  | none => w
  | some out =>
    let w := { w with sent := p :: w.sent, arrived := Function.update w.arrived p [] }
    match out with
    | .send parent msg => { w with net := w.net ++ [(parent.toNat, msg)] }
    | .deliver _ _ _ => w

/-- Each processor of the list calls once. -/
def Allowed (pes : List Nat) (w : ListWorld δ) : ListEvent δ → Prop
  | .call p _ => p ∈ pes ∧ p ∉ w.called
  | .arrive k => k < w.net.length

instance (pes : List Nat) (w : ListWorld δ) (e : ListEvent δ) : Decidable (w.Allowed pes e) :=
  match e with
  | .call p _ => inferInstanceAs (Decidable (p ∈ pes ∧ p ∉ w.called))
  | .arrive k => inferInstanceAs (Decidable (k < w.net.length))

/-- One event of reduction `id` over `pes`, where the machine's spanning tree gives
processor `p` the number `span p` of children. -/
def next (span : Nat → Nat) (pes : List Nat) (id : Nat) (w : ListWorld δ) :
    ListEvent δ → Except ReduceAbort (ListWorld δ)
  | .call p a =>
    match listReduce (span p) pes p a id (w.pe p) with
    | .error e => .error e
    | .ok res => .ok ({ w with called := p :: w.called }.emit p res)
  | .arrive k =>
    match w.net[k]? with
    | none => .ok w
    | some (p, msg) =>
      match handleReductionMessage msg (w.pe p) with
      | .error e => .error e
      | .ok res =>
        .ok ({ w with
               net := w.net.eraseIdx k
               arrived := Function.update w.arrived p (w.arrived p ++ [msg.data]) }.emit p res)

end ListWorld

/-- The system. At the start nothing is at the table index of the reduction. -/
def listSystem (span : Nat → Nat) (pes : List Nat) (id : Nat) :
    Transition (ListWorld δ) (ListEvent δ) where
  init w := (∀ p, (w.pe p).info (reduceIndex id) = none) ∧ w.net = [] ∧ w.called = [] ∧
    w.sent = [] ∧ w.arrived = fun _ => []
  step w e w' := w.Allowed pes e ∧ w.next span pes id e = .ok w'

/-- The number of processors whose parent in the list is `p`. -/
def numKids (pes : List Nat) (p : Nat) : Nat := pes.countP (parentOn pes · = p)

/-- A call that comes before all messages makes a structure with room for the messages
that it will get until it is complete. -/
def Fits (span : Nat → Nat) (pes : List Nat) (id : Nat) (w : ListWorld δ) : ListEvent δ → Prop
  | .call p _ => (w.pe p).info (reduceIndex id) = none →
      toShort (span p) = 0 ∨
        0 < toShort (span p) ∧ min (numChildrenOn pes p) (numKids pes p) ≤ toShort (span p)
  | .arrive _ => True

instance (span : Nat → Nat) (pes : List Nat) (id : Nat) (w : ListWorld δ) (e : ListEvent δ) :
    Decidable (Fits span pes id w e) :=
  match e with
  | .call p _ => inferInstanceAs (Decidable ((w.pe p).info (reduceIndex id) = none →
      toShort (span p) = 0 ∨
        0 < toShort (span p) ∧ min (numChildrenOn pes p) (numKids pes p) ≤ toShort (span p)))
  | .arrive _ => inferInstanceAs (Decidable True)

/-- What has arrived at a processor is in its structure, in the slots allocated. -/
def Kept (s : Option (CmiReduction δ)) (arrived : List δ) : Prop :=
  match s with
  | none => arrived = []
  | some red => red.numRemoteReceived = arrived.length ∧ arrived.length ≤ red.remoteData.length ∧
      red.remoteData.take arrived.length = arrived.map some

/-! ### The tree over the list -/

section Tree

variable {pes : List Nat}

theorem parentOn_mem {c p : Nat} (hc : c ∈ pes) (hp : parentOn pes c = p) : p ∈ pes := by
  have hlt := listPos_lt hc
  unfold parentOn listParent at hp
  by_cases h0 : listPos pes c = 0
  · omega
  · have hmem : pes.getD ((listPos pes c - 1) / 4) 0 ∈ pes := getD_mem (by omega)
    rwa [show p = pes.getD ((listPos pes c - 1) / 4) 0 by omega]

theorem numKids_le (hnd : pes.Nodup) (p : Nat) : numKids pes p ≤ 4 := by
  unfold numKids
  by_cases hp : p ∈ pes
  · rw [countP_parentOn hnd hp]
    exact Nat.min_le_left _ _
  · have hzero : pes.countP (parentOn pes · = p) = 0 :=
      countP_eq_zero.mpr fun c hc heq => hp (parentOn_mem hc (of_decide_eq_true heq))
    rw [hzero]
    exact Nat.zero_le _

theorem numChildrenOn_nonneg (pes : List Nat) (p : Nat) : 0 ≤ numChildrenOn pes p := by
  unfold numChildrenOn listNumChildren
  dsimp only
  omega

end Tree

/-! ### The invariant -/

/-- The entry of processor `p`, with the data that has arrived. -/
inductive ListEntry (pes : List Nat) (id : Nat) (called sent : List Nat) (p : Nat) :
    Option (CmiReduction δ) → List δ → Prop
  | idle : (p ∈ called → p ∈ sent) → ListEntry pes id called sent p none []
  /-- A structure made by a message has four slots. -/
  | gathering {red : CmiReduction δ} {ds : List δ} : (p ∈ called → p ∈ sent) →
      Gathering red id ds 4 → ListEntry pes id called sent p (some red) ds
  | waiting {red : CmiReduction δ} {ds : List δ} {slots k : Nat} {a : ReduceArgs δ} :
      p ∈ pes → p ∈ called → p ∉ sent → Waiting red id ds slots k (a.localPart (parentOn pes p)) →
        numKids pes p ≤ slots ∨ ds.length < k ∧ k ≤ slots →
          ListEntry pes id called sent p (some red) ds

/-- The invariant, with the entries of the processors in `on`. -/
structure ListInv (pes : List Nat) (id : Nat) (on : Nat → Prop) (w : ListWorld δ) : Prop where
  ids : ∀ m ∈ w.net, m.2.redID = id
  entry : ∀ p, on p → ListEntry pes id w.called w.sent p ((w.pe p).info (reduceIndex id))
    (w.arrived p)
  nodup : w.sent.Nodup
  subset : w.sent ⊆ pes
  called : w.sent ⊆ w.called
  counted : ∀ p, (w.arrived p).length + w.net.countP (·.1 = p) ≤ w.sent.countP (parentOn pes · = p)

section Invariant

variable {span : Nat → Nat} {pes : List Nat} {id : Nat} {w : ListWorld δ} {p : Nat}

variable {s : Option (CmiReduction δ)} {ds : List δ} {t : ReduceTable δ} {a : ReduceArgs δ}

theorem ListEntry.kept {called sent : List Nat} (h : ListEntry pes id called sent p s ds) :
    Kept s ds := by
  have htake : ∀ (ds : List δ) (slots : Nat), (slotsOf ds slots).take ds.length = ds.map some := by
    intro ds slots
    unfold slotsOf
    rw [take_left' (length_map _)]
  cases h with
  | idle _ => rfl
  | gathering _ hg =>
    refine ⟨hg.received, ?_, by rw [hg.cells, htake]⟩
    rw [hg.cells, length_slotsOf hg.fits]
    exact hg.fits
  | waiting _ _ _ hw _ =>
    refine ⟨hw.received, ?_, by rw [hw.cells, htake]⟩
    rw [hw.cells, length_slotsOf hw.fits]
    exact hw.fits

theorem ListEntry.congr {called called' sent sent' : List Nat}
    (h : ListEntry pes id called sent p s ds) (hcalled : p ∈ called' ↔ p ∈ called)
    (hsent : p ∈ sent' ↔ p ∈ sent) : ListEntry pes id called' sent' p s ds := by
  cases h with
  | idle hc => exact .idle fun hm => hsent.mpr (hc (hcalled.mp hm))
  | gathering hc hg => exact .gathering (fun hm => hsent.mpr (hc (hcalled.mp hm))) hg
  | waiting hp hc hs hw hroom => exact .waiting hp (hcalled.mpr hc) (mt hsent.mp hs) hw hroom

theorem ListInv.counted_le {on : Nat → Prop} (h : ListInv pes id on w) (p : Nat) :
    (w.arrived p).length + w.net.countP (·.1 = p) ≤ numKids pes p :=
  Nat.le_trans (h.counted p) ((subperm_of_subset h.nodup h.subset).countP_le _)

/-- The structure of `p` is kept. -/
theorem ListInv.hold (h : ListInv pes id (· ≠ p) w) {red : CmiReduction δ} (hid : red.seqID = id)
    (he : ListEntry pes id w.called w.sent p (some red) (w.arrived p)) :
    ListInv pes id (fun _ => True) (w.emit p (t.store red, none)) := by
  refine ⟨h.ids, fun q _ => ?_, h.nodup, h.subset, h.called, h.counted⟩
  show ListEntry pes id w.called w.sent q
    ((update w.pe p (t.store red) q).info (reduceIndex id)) (w.arrived q)
  by_cases hq : q = p
  · rw [hq, update_self, info_store_self (by rw [hid])]
    exact he
  · rw [update_of_ne hq]
    exact h.entry q hq

/-- The structure of `p` is complete: it sends or delivers. -/
theorem ListInv.complete (h : ListInv pes id (· ≠ p) w)
    (hp : p ∈ pes) (hc : p ∈ w.called) (hs : p ∉ w.sent) (ds : List δ) :
    ListInv pes id (fun _ => True)
      (w.emit p (t.clearReduction id, some ((a.localPart (parentOn pes p)).output id ds))) := by
  have hentry : ∀ q, ListEntry pes id w.called (p :: w.sent) q
      ((update w.pe p (t.clearReduction id) q).info (reduceIndex id))
      (update w.arrived p [] q) := by
    intro q
    by_cases hq : q = p
    · rw [hq, update_self, update_self, info_clear_self rfl]
      exact .idle fun _ => mem_cons_self
    · rw [update_of_ne hq, update_of_ne hq]
      refine (h.entry q hq).congr Iff.rfl ⟨fun hm => ?_, mem_cons_of_mem _⟩
      exact (mem_cons.mp hm).resolve_left hq
  have hnodup : (p :: w.sent).Nodup := nodup_cons.mpr ⟨hs, h.nodup⟩
  have hsubset : p :: w.sent ⊆ pes := cons_subset.mpr ⟨hp, h.subset⟩
  have hcalled : p :: w.sent ⊆ w.called := cons_subset.mpr ⟨hc, h.called⟩
  have harrived : ∀ q, (update w.arrived p [] q).length ≤ (w.arrived q).length := by
    intro q
    by_cases hq : q = p
    · rw [hq, update_self]
      exact Nat.zero_le _
    · exact Nat.le_of_eq (by rw [update_of_ne hq])
  unfold LocalPart.output ReduceArgs.localPart
  dsimp only
  by_cases hroot : parentOn pes p = -1
  · rw [if_neg (not_not.mpr hroot)]
    refine ⟨h.ids, fun q _ => hentry q, hnodup, hsubset, hcalled, fun q => ?_⟩
    have hcount := h.counted q
    have hle := harrived q
    show (update w.arrived p [] q).length + w.net.countP (·.1 = q) ≤
      (p :: w.sent).countP (parentOn pes · = q)
    rw [countP_cons]
    omega
  · rw [if_pos hroot]
    refine ⟨fun m hm => ?_, fun q _ => hentry q, hnodup, hsubset, hcalled, fun q => ?_⟩
    · cases mem_append.mp hm with
      | inl hm => exact h.ids m hm
      | inr hm =>
        rw [mem_singleton.mp hm]
    · have hcount := h.counted q
      have hle := harrived q
      have hpos : 0 ≤ parentOn pes p := by
        unfold parentOn listParent at hroot ⊢
        split at hroot
        · exact absurd rfl hroot
        · omega
      show (update w.arrived p [] q).length +
          (w.net ++ [((parentOn pes p).toNat, (_ : ReduceMsg δ))]).countP (·.1 = q) ≤
        (p :: w.sent).countP (parentOn pes · = q)
      rw [countP_append, countP_singleton, countP_cons]
      by_cases hq : parentOn pes p = q
      · rw [if_pos (decide_eq_true hq)]
        split
        · omega
        · omega
      · have hne : ¬ (parentOn pes p).toNat = q := by omega
        rw [if_neg (by simpa using hne), if_neg (by simpa using hq)]
        omega

theorem ListEntry.create {called sent : List Nat} {n : Int}
    (hnd : pes.Nodup) (h : ListEntry pes id called sent p (t.info (reduceIndex id)) ds)
    (hp : p ∉ called) (hfits : t.info (reduceIndex id) = none →
      n = 0 ∨ 0 < n ∧ min (numChildrenOn pes p) (numKids pes p) ≤ n) :
    ∃ red slots, getReductionCreate id n t = .ok red ∧ Gathering red id ds slots ∧
      (numKids pes p ≤ slots ∨ ds = [] ∧ numChildrenOn pes p ≤ slots) := by
  have hkids := numKids_le hnd p
  generalize hs : t.info (reduceIndex id) = s at h hfits
  cases h with
  | idle _ =>
    have hn : 0 ≤ n := by
      cases hfits rfl with
      | inl h => omega
      | inr h => omega
    obtain ⟨red, hred, hg⟩ := create_none hs hn
    refine ⟨red, _, hred, hg, ?_⟩
    cases hfits rfl with
    | inl h =>
      rw [if_pos h]
      exact .inl hkids
    | inr h =>
      rw [if_neg (by omega)]
      by_cases hle : numKids pes p ≤ n.toNat
      · exact .inl hle
      · exact .inr ⟨rfl, by omega⟩
  | gathering _ hg =>
    obtain ⟨red, hred, hg'⟩ := create_gathering hs hg n
    exact ⟨red, _, hred, hg', .inl (by omega)⟩
  | waiting _ hc _ _ _ => exact absurd hc hp

/-- **The call** of a processor of the list. -/
theorem call_step (hnd : pes.Nodup) (h : ListInv pes id (fun _ => True) w)
    (he : w.Allowed pes (.call p a)) (hfits : Fits span pes id w (.call p a)) :
    ∃ w', w.next span pes id (.call p a) = .ok w' ∧ ListInv pes id (fun _ => True) w' := by
  obtain ⟨hp, hcalled⟩ := he
  obtain ⟨red, slots, hred, hg, hroom⟩ := (h.entry p trivial).create hnd hcalled hfits
  obtain ⟨k, hk⟩ := Int.eq_ofNat_of_zero_le (numChildrenOn_nonneg pes p)
  have hs : p ∉ w.sent := fun hm => hcalled (h.called hm)
  have hinv : ListInv pes id (· ≠ p) { w with called := p :: w.called } := by
    refine ⟨h.ids, fun q hq => ?_, h.nodup, h.subset, fun q hq => ?_, h.counted⟩
    · refine (h.entry q trivial).congr ⟨fun hm => ?_, mem_cons_of_mem _⟩ Iff.rfl
      exact (mem_cons.mp hm).resolve_left hq
    · exact mem_cons_of_mem _ (h.called hq)
  have hreduce : listReduce (span p) pes p a id (w.pe p) =
      contribute red k (a.localPart (parentOn pes p)) (w.pe p) := by
    unfold listReduce
    rw [hred]
    simp only [bind, Except.bind]
    rw [if_neg (not_not.mpr (listPos_lt hp))]
    show contribute red (numChildrenOn pes p) _ _ = _
    rw [hk]
    rfl
  unfold ListWorld.next
  dsimp only
  rw [hreduce]
  obtain ⟨-, hres⟩ | ⟨hne, red', hres, hw⟩ := contribute_spec hg k (a.localPart (parentOn pes p))
  · rw [hres]
    exact ⟨_, rfl, hinv.complete hp mem_cons_self hs _⟩
  · rw [hres]
    refine ⟨_, rfl, hinv.hold hw.seqID (.waiting hp mem_cons_self hs hw ?_)⟩
    cases hroom with
    | inl hroom => exact .inl hroom
    | inr hroom =>
      obtain ⟨hnil, hle⟩ := hroom
      rw [hnil, length_nil] at hne ⊢
      omega

/-- **The arrival** of a message. -/
theorem arrive_step (hnd : pes.Nodup) (h : ListInv pes id (fun _ => True) w) {k : Nat}
    (hk : k < w.net.length) :
    ∃ w', w.next span pes id (.arrive k) = .ok w' ∧ ListInv pes id (fun _ => True) w' := by
  have hmem : w.net[k]? = some w.net[k] := getElem?_eq_getElem hk
  generalize w.net[k] = m at hmem
  obtain ⟨p, msg⟩ := m
  have hperm := perm_eraseIdx hmem
  have hid : msg.redID = id := h.ids _ (hperm.mem_iff.mpr mem_cons_self)
  have hcountP : ∀ q, w.net.countP (·.1 = q) = (w.net.eraseIdx k).countP (·.1 = q) +
      if p = q then 1 else 0 := by
    intro q
    rw [hperm.countP_eq, countP_cons]
    simp
  have hinv : ListInv pes id (· ≠ p) { w with
      net := w.net.eraseIdx k
      arrived := update w.arrived p (w.arrived p ++ [msg.data]) } := by
    refine ⟨fun m hm => h.ids m (mem_of_mem_eraseIdx hm), fun q hq => ?_, h.nodup, h.subset,
      h.called, fun q => ?_⟩
    · show ListEntry pes id _ _ q _ (update w.arrived p _ q)
      rw [update_of_ne hq]
      exact h.entry q trivial
    · have hcount := h.counted q
      rw [hcountP q] at hcount
      dsimp only
      by_cases hq : q = p
      · subst hq
        rw [if_pos rfl] at hcount
        rw [update_self, length_append, length_singleton]
        omega
      · rw [update_of_ne hq]
        omega
  have hkids : (w.arrived p).length + 1 ≤ numKids pes p := by
    have hle := h.counted_le p
    rw [hcountP p, if_pos rfl] at hle
    omega
  have hfour := numKids_le hnd p
  have hnow : update w.arrived p (w.arrived p ++ [msg.data]) p =
      w.arrived p ++ [msg.data] := update_self _ _ _
  -- the structure is kept with the message
  have hhold : ∀ {red : CmiReduction δ}, red.seqID = id →
      handleReductionMessage msg (w.pe p) = .ok ((w.pe p).store red, none) →
        ListEntry pes id w.called w.sent p (some red) (w.arrived p ++ [msg.data]) →
          ∃ w', w.next span pes id (.arrive k) = .ok w' ∧ ListInv pes id (fun _ => True) w' := by
    intro red hseq hres he
    unfold ListWorld.next
    dsimp only
    rw [hmem]
    dsimp only
    rw [hres]
    refine ⟨_, rfl, hinv.hold hseq ?_⟩
    show ListEntry pes id _ _ p _ (update w.arrived p _ p)
    rw [hnow]
    exact he
  have he := h.entry p trivial
  generalize hs : (w.pe p).info (reduceIndex id) = s at he
  generalize hds : w.arrived p = ds at he hkids hhold
  cases he with
  | idle hc =>
    obtain ⟨red, hres, hg⟩ := handle_none hid hs
    exact hhold hg.seqID hres (.gathering hc hg)
  | gathering hc hg =>
    obtain ⟨red, hres, hg'⟩ := handle_gathering hid hs hg (by unfold maxShort; omega)
    have hslots : slotsAfter ds.length 4 = 4 := if_neg (by omega)
    rw [hslots] at hg'
    exact hhold hg'.seqID hres (.gathering hc hg')
  | @waiting _ _ slots n a hp hc hnot hw hroom =>
    have hlt : ds.length < slots := by omega
    cases handle_waiting hid hs hw hlt (by unfold maxShort; omega) with
    | inl hlast =>
      obtain ⟨-, hres⟩ := hlast
      unfold ListWorld.next
      dsimp only
      rw [hmem]
      dsimp only
      rw [hres]
      exact ⟨_, rfl, hinv.complete hp hc hnot _⟩
    | inr hmore =>
      obtain ⟨hne, red, hres, hw'⟩ := hmore
      refine hhold hw'.seqID hres (.waiting hp hc hnot hw' ?_)
      rw [length_append, length_singleton]
      omega

theorem runs_inv (hnd : pes.Nodup) (h : (listSystem span pes id).RunsWith (Fits span pes id) w) :
    ListInv pes id (fun _ => True) w := by
  refine h.invariant ?_ ?_
  · rintro w ⟨hinfo, hnet, hcalled, hsent, harrived⟩
    refine ⟨?_, fun p _ => ?_, ?_, ?_, ?_, fun p => ?_⟩
    · simp [hnet]
    · rw [hinfo p, harrived]
      exact .idle (by simp [hcalled])
    · simp [hsent]
    · simp [hsent]
    · simp [hsent]
    · simp [harrived, hnet]
  · rintro w e w' hinv hfits ⟨he, hw'⟩
    cases e with
    | call p a =>
      obtain ⟨w'', hw'', hinv'⟩ := call_step hnd hinv he hfits
      rw [hw'] at hw''
      obtain rfl := Except.ok.inj hw''
      exact hinv'
    | arrive k =>
      obtain ⟨w'', hw'', hinv'⟩ := arrive_step hnd hinv he
      rw [hw'] at hw''
      obtain rfl := Except.ok.inj hw''
      exact hinv'

/-- **List reductions write to the slots they have**, in the runs in which every call that
comes before all messages makes enough of them. In every state of such a run each further
event of the kind succeeds, so that no write is outside the slots; what has arrived at a
processor is in its structure, also after it was made larger; and where `CmiSendReduce`
merges, no more was received than there are children. -/
theorem listReduce_in_bounds (span : Nat → Nat) (pes : List Nat) (hnd : pes.Nodup) (id : Nat)
    (w : ListWorld δ) (h : (listSystem span pes id).RunsWith (Fits span pes id) w) :
    (∀ e, w.Allowed pes e → Fits span pes id w e → ∃ w', w.next span pes id e = .ok w') ∧
    (∀ p, Kept ((w.pe p).info (reduceIndex id)) (w.arrived p)) ∧
    (∀ (red : CmiReduction δ) t t' out, sendReduce red t = .ok (t', some out) →
      red.numRemoteReceived ≤ red.numChildren) := by
  have hinv := runs_inv hnd h
  refine ⟨fun e he hfits => ?_, fun p => (hinv.entry p trivial).kept, fun red t t' out hsend => ?_⟩
  · cases e with
    | call p a =>
      obtain ⟨w', hw', -⟩ := call_step hnd hinv he hfits
      exact ⟨w', hw'⟩
    | arrive k =>
      obtain ⟨w', hw', -⟩ := arrive_step hnd hinv he
      exact ⟨w', hw'⟩
  · by_contra hlt
    unfold sendReduce at hsend
    cases hlocal : red.localContributed with
    | none =>
      rw [hlocal] at hsend
      exact absurd hsend (by simp)
    | some c =>
      rw [hlocal] at hsend
      dsimp only at hsend
      rw [if_pos (by omega)] at hsend
      exact absurd hsend (by simp)

/-- The children of the spanning tree of a node of `n` processors (`CST_C`, width four). -/
def nodeSpan (n p : Nat) : Nat := min 4 (n - (4 * p + 1))

/-- The world before the first call. -/
def listStart : ListWorld δ where
  pe := fun _ => { info := fun _ => none, seqIDGlobal := 0 }
  net := []
  called := []
  sent := []
  arrived := fun _ => []

/-- Two processors of which the first has a child in both trees. -/
theorem listReduce_in_bounds_pair :
    ∃ w : ListWorld Nat,
      (listSystem (nodeSpan 6) [0, 1] 2).RunsWith (Fits (nodeSpan 6) [0, 1] 2) w ∧
        w.net.length = 1 ∧ ∃ w', w.next (nodeSpan 6) [0, 1] 2 (.arrive 0) = .ok w' := by
  have h0 : (listSystem (nodeSpan 6) [0, 1] 2).RunsWith (Fits (nodeSpan 6) [0, 1] 2)
      (listStart : ListWorld Nat) := .init ⟨fun _ => rfl, rfl, rfl, rfl, rfl⟩
  have h1 := h0.step (e := .call 0 (sumArgs 3)) (by decide) ⟨by decide, rfl⟩
  have h2 := h1.step (e := .call 1 (sumArgs 4)) (by decide) ⟨by decide, rfl⟩
  have hsafe := (listReduce_in_bounds _ _ (by decide) _ _ h2).1 (.arrive 0)
  exact ⟨_, h2, rfl, hsafe (by decide) (by decide)⟩

/-- Six processors, of which `1` has one child in the machine's tree. Over the list `1, 0, 2`
it has two, and calls first: the second message is written behind the only slot. -/
theorem list_one_zero_two_overrun :
    ∃ w : ListWorld Nat, (listSystem (nodeSpan 6) [1, 0, 2] 2).Reachable w ∧
      w.Allowed [1, 0, 2] (.arrive 0) ∧
        w.next (nodeSpan 6) [1, 0, 2] 2 (.arrive 0) = .error .overrun := by
  have h0 : (listSystem (nodeSpan 6) [1, 0, 2] 2).Reachable (listStart : ListWorld Nat) :=
    .init ⟨fun _ => rfl, rfl, rfl, rfl, rfl⟩
  have h1 := h0.step (e := .call 1 (sumArgs 3)) ⟨by decide, rfl⟩
  have h2 := h1.step (e := .call 0 (sumArgs 4)) ⟨by decide, rfl⟩
  have h3 := h2.step (e := .call 2 (sumArgs 5)) ⟨by decide, rfl⟩
  have h4 := h3.step (e := .arrive 0) ⟨by decide, rfl⟩
  exact ⟨_, h4, by decide, rfl⟩

end Invariant

end CharmRuntime.Converse
