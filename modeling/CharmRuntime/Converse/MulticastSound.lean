import CharmRuntime.Converse.MulticastBytes
import CharmRuntime.Lib.HeapTree
import CharmRuntime.Lib.InFlight
import Mathlib.Algebra.BigOperators.Group.Multiset.Basic
import Mathlib.Data.List.GetD

/-!
# Converse.MulticastSound

A multicast reaches each position of the group once. Every packet under way *owes* local
messages (`Owes`): a carrier that has not started yet those of the whole group, a carrier at
position `j` those of the positions below `j` in the binary tree, and a user message itself.
What has been delivered and what is owed together is always what the multicasts so far asked
for; when no packet is under way, it has all been delivered.
-/

namespace CharmRuntime.Converse

open Lib List Function

/-- A local message: the processor and the bytes. -/
abbrev LocalMsg : Type := Nat × List MemVal

/-- The local messages for the positions `js` of a group. -/
def localMsgs (d : GroupDef) (msg : List UInt8) (js : List Nat) : Multiset LocalMsg :=
  ((js.map fun j => (d.pes.getD j 0, msg.map MemVal.byte) : List LocalMsg) : Multiset LocalMsg)

/-- What a multicast asks for: one message for each position. -/
def wanted (c : GroupDef × List UInt8) : Multiset LocalMsg :=
  ((c.1.pes.map fun pe => (pe, c.2.map MemVal.byte) : List LocalMsg) : Multiset LocalMsg)

/-- What a packet on its way to processor `q` owes. -/
inductive Owes (hdr : Nat) (groups : List GroupDef) : Nat × Packet → Multiset LocalMsg → Prop
  | group {q : Nat} {d : GroupDef} : d ∈ groups → Owes hdr groups (q, .group d) 0
  | user {q : Nat} {bytes : List MemVal} : Owes hdr groups (q, .user bytes) {(q, bytes)}
  | start {q : Nat} {d : GroupDef} {msg : List UInt8} {head : List MemVal} :
      d ∈ groups → head.length = fieldOff hdr →
        Owes hdr groups (q, .multi (carrier head d.group (-1)
          (stored (multiSize hdr) (msg.map MemVal.byte)))) (wanted (d, msg))
  | hop {d : GroupDef} {msg : List UInt8} {head : List MemVal} {j : Nat} :
      d ∈ groups → head.length = fieldOff hdr → j < d.pes.length →
        Owes hdr groups (d.pes.getD j 0, .multi (carrier head d.group j
          (stored (multiSize hdr) (msg.map MemVal.byte))))
            (localMsgs d msg (heapTree d.pes.length j))

/-- What all packets of a network owe together. -/
inductive NetOwes (hdr : Nat) (groups : List GroupDef) :
    List (Nat × Packet) → Multiset LocalMsg → Prop
  | nil : NetOwes hdr groups [] 0
  | cons {m : Nat × Packet} {net : List (Nat × Packet)} {x y : Multiset LocalMsg} :
      Owes hdr groups m x → NetOwes hdr groups net y → NetOwes hdr groups (m :: net) (x + y)

section Owed

variable {hdr : Nat} {groups : List GroupDef} {net net' : List (Nat × Packet)}
  {x y : Multiset LocalMsg}

variable {groups' : List GroupDef} {m : Nat × Packet}

theorem Owes.mono (hsub : ∀ d ∈ groups, d ∈ groups') (h : Owes hdr groups m x) :
    Owes hdr groups' m x := by
  cases h with
  | group hd => exact .group (hsub _ hd)
  | user => exact .user
  | start hd hhead => exact .start (hsub _ hd) hhead
  | hop hd hhead hj => exact .hop (hsub _ hd) hhead hj

theorem NetOwes.mono (hsub : ∀ d ∈ groups, d ∈ groups')
    (h : NetOwes hdr groups net x) : NetOwes hdr groups' net x := by
  induction h with
  | nil => exact .nil
  | cons hm _ ih => exact .cons (hm.mono hsub) ih

theorem NetOwes.append (h : NetOwes hdr groups net x) (h' : NetOwes hdr groups net' y) :
    NetOwes hdr groups (net ++ net') (x + y) := by
  induction h with
  | nil => rwa [zero_add]
  | cons hm _ ih =>
    rw [add_assoc]
    exact .cons hm ih

theorem NetOwes.perm (hperm : net.Perm net') (h : NetOwes hdr groups net x) :
    NetOwes hdr groups net' x := by
  induction hperm generalizing x with
  | nil => exact h
  | cons m _ ih =>
    cases h with
    | cons hm h => exact .cons hm (ih h)
  | swap m m' net =>
    cases h with
    | cons hm h =>
      cases h with
      | cons hm' h =>
        rw [add_left_comm]
        exact .cons hm' (.cons hm h)
  | trans _ _ ih1 ih2 => exact ih2 (ih1 h)

theorem NetOwes.take {k : Nat} (hk : net[k]? = some m) (h : NetOwes hdr groups net x) :
    ∃ y z, Owes hdr groups m y ∧ NetOwes hdr groups (net.eraseIdx k) z ∧ x = y + z := by
  cases h.perm (perm_eraseIdx hk) with
  | cons hm hrest => exact ⟨_, _, hm, hrest, rfl⟩

theorem localMsgs_root (d : GroupDef) (msg : List UInt8) :
    localMsgs d msg (heapTree d.pes.length 0) = wanted (d, msg) := by
  refine Multiset.coe_eq_coe.mpr ?_
  refine ((heapTree_zero_perm d.pes.length).map _).trans ?_
  have hmap : d.pes.map (fun pe => (pe, msg.map MemVal.byte)) =
      (range d.pes.length).map fun j => (d.pes.getD j 0, msg.map MemVal.byte) := by
    apply ext_getElem (by simp)
    intro i h1 _
    simp at h1
    simp [h1]
  rw [hmap]

theorem localMsgs_at {d : GroupDef} {j : Nat} (hj : j < d.pes.length) (msg : List UInt8) :
    localMsgs d msg (heapTree d.pes.length j) =
    localMsgs d msg (heapTree d.pes.length (2 * j + 2)) +
        (localMsgs d msg (heapTree d.pes.length (2 * j + 1)) +
        {(d.pes.getD j 0, msg.map MemVal.byte)}) := by
  unfold localMsgs
  rw [heapTree_of_lt hj, map_cons, map_append, ← Multiset.cons_coe, ← Multiset.coe_add,
    ← Multiset.singleton_add]
  ac_rfl

end Owed

/-! ### The machine -/

/-- The invariant. -/
structure MultiInv (hdr : Nat) (w : MultiWorld) : Prop where
  key : ∀ d ∈ w.groups, d.group.id < w.counter d.group.pe
  unique : ∀ d ∈ w.groups, ∀ d' ∈ w.groups, d.group = d'.group → d = d'
  small : ∀ d ∈ w.groups, groupDefSize hdr + 4 * d.pes.length ≤ maxInt
  tables : ∀ p b, ∀ d ∈ w.table p b, d ∈ w.groups
  balance : ∃ x, NetOwes hdr w.groups w.net x ∧
    (w.delivered : Multiset LocalMsg) + x = (w.calls.map wanted).sum

section Machine

variable {hdr n : Nat} {w : MultiWorld}

variable {d : GroupDef} {table : GroupTable} {p : Nat} {msg : List UInt8}

theorem MultiInv.lookup (h : MultiInv hdr w) (hd : d ∈ w.groups) (p : Nat) :
    lookupGroup d.group (w.table p) = none ∨ lookupGroup d.group (w.table p) = some d.pes := by
  unfold lookupGroup
  cases hfind : (w.table p (groupBucket d.group)).find? (·.group = d.group) with
  | none => exact .inl rfl
  | some d' =>
    have hgroup : d'.group = d.group := by simpa using find?_some hfind
    have hd' := h.tables p _ d' (mem_of_find?_eq_some hfind)
    rw [h.unique d' hd' d hd hgroup]
    exact .inr rfl

theorem mem_groupHandler {d' : GroupDef} {b : Nat}
    (h : d' ∈ groupHandler d table b) : d' = d ∨ d' ∈ table b := by
  unfold groupHandler at h
  by_cases hb : b = groupBucket d.group
  · subst hb
    rw [update_self] at h
    exact mem_cons.mp h
  · rw [update_of_ne hb] at h
    exact .inr h

theorem netOwes_child (hd : d ∈ w.groups) {head : List MemVal}
    (hhead : head.length = fieldOff hdr) (msg : List UInt8) (j : Nat) :
    NetOwes hdr w.groups (d.pes[j]?.toList.map fun dst =>
        (dst, .multi (carrier head d.group j (stored (multiSize hdr) (msg.map MemVal.byte)))))
      (localMsgs d msg (heapTree d.pes.length j)) := by
  by_cases hj : j < d.pes.length
  · have hget : d.pes[j]? = some (d.pes.getD j 0) := by
      rw [getElem?_eq_getElem hj, getD_eq_getElem _ _ hj]
    rw [hget, ← add_zero (localMsgs d msg (heapTree d.pes.length j))]
    exact .cons (.hop hd hhead hj) .nil
  · rw [getElem?_eq_none (by omega), heapTree_of_le (by omega)]
    exact .nil

/-- **One hop** hands on what the carrier owes. -/
theorem MultiInv.deliver (h : MultiInv hdr w) {q : Nat} {buf : List MemVal} {x : Multiset LocalMsg}
    (hx : Owes hdr w.groups (q, .multi buf) x) :
    ∃ out, multicastDeliver hdr q (w.table q) buf = .ok out ∧ NetOwes hdr w.groups out x := by
  cases hx with
  | @start q d msg head hd hhead =>
    cases h.lookup hd q with
    | inl hnone =>
      refine ⟨_, deliver_unknown hhead hnone, ?_⟩
      rw [← add_zero (wanted (d, msg))]
      exact .cons (.start hd hhead) .nil
    | inr hsome =>
      cases hpes : d.pes with
      | nil =>
        rw [hpes] at hsome
        refine ⟨_, deliver_nobody hhead hsome, ?_⟩
        have hzero : wanted (d, msg) = 0 := by
          unfold wanted
          rw [hpes]
          rfl
        rw [hzero]
        exact .nil
      | cons first rest =>
        rw [hpes] at hsome
        refine ⟨_, deliver_start hhead hsome, ?_⟩
        have hfirst : first = d.pes.getD 0 0 := by rw [hpes]; rfl
        rw [← localMsgs_root, ← add_zero (localMsgs d msg _), hfirst]
        exact .cons (.hop hd hhead (by rw [hpes]; exact Nat.succ_pos _)) .nil
  | @hop d msg head j hd hhead hj =>
    cases h.lookup hd (d.pes.getD j 0) with
    | inl hnone =>
      refine ⟨_, deliver_unknown hhead hnone, ?_⟩
      rw [← add_zero (localMsgs d msg _)]
      exact .cons (.hop hd hhead hj) .nil
    | inr hsome =>
      have hsmall := h.small d hd
      refine ⟨_, deliver_at hhead hsome hj (by omega), ?_⟩
      rw [localMsgs_at hj msg, append_assoc]
      refine (netOwes_child hd hhead msg (2 * j + 2)).append
        ((netOwes_child hd hhead msg (2 * j + 1)).append ?_)
      exact .cons .user .nil

/-- A message whose carrier is too long for an `int`. -/
theorem syncMulticast_tooLong {g : Group} (h : ¬ msg.length + multiSize hdr ≤ maxInt) :
    syncMulticast hdr p table g (msg.map MemVal.byte) = .error .badAlloc := by
  unfold syncMulticast makeCarrier
  rw [length_map, if_pos (not_le.mp h)]
  rfl

theorem initial_multiInv : MultiInv hdr .initial where
  key := by simp [MultiWorld.initial]
  unique := by simp [MultiWorld.initial]
  small := by simp [MultiWorld.initial]
  tables := by simp [MultiWorld.initial]
  balance := ⟨0, .nil, rfl⟩

/-- A new group is announced to every processor. -/
theorem MultiInv.establish (h : MultiInv hdr w) {pes : List Nat}
    (hd : establishGroup hdr p (w.counter p) pes = .ok d) :
    MultiInv hdr { w with
      counter := update w.counter p (w.counter p + 1)
      net := w.net ++ (range n).map fun q => (q, .group d)
      groups := w.groups ++ [d] } := by
  unfold establishGroup at hd
  split at hd
  · exact absurd hd (by simp)
  split at hd
  · exact absurd hd (by simp)
  rename_i hsmall
  obtain rfl := Except.ok.inj hd
  -- a group that was there has a smaller number on this processor
  have hold : ∀ d ∈ w.groups, d.group ≠ ⟨p, w.counter p⟩ := by
    intro d hd heq
    have hkey := h.key d hd
    rw [heq] at hkey
    exact absurd hkey (lt_irrefl _)
  refine ⟨fun d hd => ?_, fun d hd d' hd' heq => ?_, fun d hd => ?_, fun q b d hd => ?_, ?_⟩
  · dsimp only at hd ⊢
    by_cases hp : d.group.pe = p
    · rw [hp, update_self]
      cases mem_append.mp hd with
      | inl hd =>
        have hkey := h.key d hd
        rw [hp] at hkey
        exact Nat.lt_succ_of_lt hkey
      | inr hd =>
        rw [mem_singleton.mp hd]
        exact Nat.lt_succ_self _
    · rw [update_of_ne hp]
      cases mem_append.mp hd with
      | inl hd => exact h.key d hd
      | inr hd =>
        rw [mem_singleton.mp hd] at hp
        exact absurd rfl hp
  · cases mem_append.mp hd with
    | inl hd =>
      cases mem_append.mp hd' with
      | inl hd' => exact h.unique d hd d' hd' heq
      | inr hd' =>
        rw [mem_singleton.mp hd'] at heq
        exact absurd heq (hold d hd)
    | inr hd =>
      cases mem_append.mp hd' with
      | inl hd' =>
        rw [mem_singleton.mp hd] at heq
        exact absurd heq.symm (hold d' hd')
      | inr hd' => rw [mem_singleton.mp hd, mem_singleton.mp hd']
  · cases mem_append.mp hd with
    | inl hd => exact h.small d hd
    | inr hd =>
      rw [mem_singleton.mp hd]
      exact not_lt.mp hsmall
  · exact mem_append_left _ (h.tables q b d hd)
  · obtain ⟨x, hx, hsum⟩ := h.balance
    have hdefs : ∀ qs : List Nat, NetOwes hdr (w.groups ++ [⟨⟨p, w.counter p⟩, pes⟩])
        (qs.map fun q => (q, .group ⟨⟨p, w.counter p⟩, pes⟩)) 0 := by
      intro qs
      induction qs with
      | nil => exact .nil
      | cons q qs ih =>
        have hcons := NetOwes.cons (m := (q, .group ⟨⟨p, w.counter p⟩, pes⟩))
          (.group (mem_append_right _ (mem_singleton.mpr rfl))) ih
        rwa [add_zero] at hcons
    refine ⟨x, ?_, hsum⟩
    have happend := (hx.mono fun d hd => mem_append_left _ hd).append (hdefs (range n))
    rwa [add_zero] at happend

theorem MultiInv.multicast (h : MultiInv hdr w)
    (hd : d ∈ w.groups) (hlen : msg.length + multiSize hdr ≤ maxInt) :
    ∃ out, syncMulticast hdr p (w.table p) d.group (msg.map MemVal.byte) = .ok out ∧
      MultiInv hdr { w with net := w.net ++ out, calls := w.calls ++ [(d, msg)] } := by
  have hmake : makeCarrier hdr d.group (msg.map MemVal.byte) =
      .ok (carrier (replicate (fieldOff hdr) MemVal.blank) d.group (-1)
        (stored (multiSize hdr) (msg.map MemVal.byte))) :=
    makeCarrier_eq (by rw [length_map]; exact hlen)
  have hstart : Owes hdr w.groups (p, .multi (carrier (replicate (fieldOff hdr) MemVal.blank)
      d.group (-1) (stored (multiSize hdr) (msg.map MemVal.byte)))) (wanted (d, msg)) :=
    .start hd length_replicate
  obtain ⟨out, hout, howes⟩ := h.deliver hstart
  refine ⟨out, ?_, h.key, h.unique, h.small, h.tables, ?_⟩
  · unfold syncMulticast
    rw [hmake]
    exact hout
  · obtain ⟨x, hx, hsum⟩ := h.balance
    refine ⟨x + wanted (d, msg), hx.append howes, ?_⟩
    rw [← add_assoc, hsum, map_append, sum_append, map_singleton, sum_singleton]

theorem MultiInv.arrive (h : MultiInv hdr w) {k : Nat} (hk : k < w.net.length) :
    ∃ w', w.next hdr n (.arrive k) = .ok w' ∧ MultiInv hdr w' := by
  have hmem : w.net[k]? = some w.net[k] := getElem?_eq_getElem hk
  generalize w.net[k] = m at hmem
  obtain ⟨x, hx, hsum⟩ := h.balance
  obtain ⟨y, z, hy, hz, rfl⟩ := hx.take hmem
  obtain ⟨q, packet⟩ := m
  unfold MultiWorld.next
  dsimp only
  rw [hmem]
  cases packet with
  | group d =>
    cases hy with
    | group hd =>
      -- only the receiver's table gains the group
      refine ⟨_, rfl, h.key, h.unique, h.small, fun p b d' hd' => ?_, z, hz, ?_⟩
      · dsimp only at hd'
        by_cases hp : p = q
        · rw [hp, update_self] at hd'
          cases mem_groupHandler hd' with
          | inl heq => exact heq ▸ hd
          | inr hd' => exact h.tables q b d' hd'
        · rw [update_of_ne hp] at hd'
          exact h.tables p b d' hd'
      · rwa [zero_add] at hsum
  | multi buf =>
    obtain ⟨out, hout, howes⟩ := h.deliver hy
    dsimp only
    rw [hout]
    refine ⟨_, rfl, h.key, h.unique, h.small, h.tables, z + y, hz.append howes, ?_⟩
    rw [← hsum, add_comm z y]
  | user bytes =>
    refine ⟨_, rfl, h.key, h.unique, h.small, h.tables, z, hz, ?_⟩
    cases hy with
    | user =>
      rw [← hsum, ← Multiset.coe_add, Multiset.coe_singleton, add_assoc]

theorem reachable_multiInv (h : (multicastSystem hdr n).Reachable w) : MultiInv hdr w := by
  refine h.invariant ?_ ?_
  · rintro w rfl
    exact initial_multiInv
  · rintro w e w' hinv ⟨he, hw'⟩
    cases e with
    | establish p pes =>
      unfold MultiWorld.next at hw'
      dsimp only at hw'
      cases hd : establishGroup hdr p (w.counter p) pes with
      | error e =>
        rw [hd] at hw'
        exact absurd hw' (by simp)
      | ok d =>
        rw [hd] at hw'
        obtain rfl := Except.ok.inj hw'
        exact hinv.establish hd
    | multicast p d msg =>
      unfold MultiWorld.next at hw'
      dsimp only at hw'
      by_cases hlen : msg.length + multiSize hdr ≤ maxInt
      · obtain ⟨out, hout, hinv'⟩ := hinv.multicast he.1 hlen
        rw [hout] at hw'
        obtain rfl := Except.ok.inj hw'
        exact hinv'
      · rw [syncMulticast_tooLong hlen] at hw'
        exact absurd hw' (by simp)
    | arrive k =>
      obtain ⟨w'', hw'', hinv'⟩ := hinv.arrive he
      rw [hw'] at hw''
      obtain rfl := Except.ok.inj hw''
      exact hinv'

/-- **A multicast reaches each member once, with the bytes of the message.** For messages
whose carrier has a length that is an `int`, in every state that any order of events leads
to: every multicast to an established group and every arrival succeeds; nothing is
delivered that was not asked for, or twice; and when no packet is under way, each position of
the group of each multicast has got the message. -/
theorem multicast_reaches_once (hdr n : Nat) (w : MultiWorld)
    (h : (multicastSystem hdr n).Reachable w) :
    (∀ p d msg, w.Allowed hdr (.multicast p d msg) → msg.length + multiSize hdr ≤ maxInt →
      ∃ w', w.next hdr n (.multicast p d msg) = .ok w') ∧
    (∀ k, w.Allowed hdr (.arrive k) → ∃ w', w.next hdr n (.arrive k) = .ok w') ∧
    (w.delivered : Multiset LocalMsg) ≤ (w.calls.map wanted).sum ∧
    (w.net = [] → (w.delivered : Multiset LocalMsg) = (w.calls.map wanted).sum) := by
  have hinv := reachable_multiInv h
  obtain ⟨x, hx, hsum⟩ := hinv.balance
  refine ⟨fun p d msg he hlen => ?_, fun k hk => ?_, ?_, fun hnet => ?_⟩
  · obtain ⟨out, hout, -⟩ := hinv.multicast he.1 hlen
    unfold MultiWorld.next
    dsimp only
    rw [hout]
    exact ⟨_, rfl⟩
  · obtain ⟨w', hw', -⟩ := hinv.arrive hk
    exact ⟨w', hw'⟩
  · rw [← hsum]
    exact Multiset.le_add_right _ _
  · rw [hnet] at hx
    cases hx with
    | nil => rw [← hsum, add_zero]

/-- Two processors, the group `1, 0, 1` and a message as short as its header. The carrier
arrives before the definition of the group does and has to wait. -/
theorem multicast_reaches_once_three :
    ∃ w, (multicastSystem 24 2).Reachable w ∧ w.net = [] ∧
      (w.delivered : Multiset LocalMsg) = (w.calls.map wanted).sum ∧ w.delivered.length = 3 := by
  have hrun : (MultiWorld.initial.run 24 2 [.establish 0 [1, 0, 1],
      .multicast 0 ⟨⟨0, 0⟩, [1, 0, 1]⟩ (replicate 24 7), .arrive 2, .arrive 0, .arrive 0,
      .arrive 0, .arrive 0, .arrive 0, .arrive 0, .arrive 0, .arrive 0, .arrive 0]).map
        (fun w => (w.net, w.delivered.length)) = some ([], 3) := by decide +kernel
  obtain ⟨w, hrun, heq⟩ := Option.map_eq_some_iff.mp hrun
  obtain ⟨hnet, hlen⟩ := Prod.mk.inj heq
  have hreach := reachable_of_run (.init rfl) hrun
  exact ⟨w, hreach, hnet, (multicast_reaches_once 24 2 w hreach).2.2.2 hnet, hlen⟩

/-- The shortest message, behind a header of 24 bytes, whose carrier is too long. -/
theorem long_message_fails :
    ∃ w d, ∃ msg : List UInt8, (multicastSystem 24 1).Reachable w ∧
      w.Allowed 24 (.multicast 0 d msg) ∧ msg.length = 2147483608 ∧
        w.next 24 1 (.multicast 0 d msg) = .error .badAlloc := by
  have hrun : (MultiWorld.initial.run 24 1 [.establish 0 [0]]).map (·.groups) =
      some [⟨⟨0, 0⟩, [0]⟩] := by decide +kernel
  obtain ⟨w, hrun, hgroups⟩ := Option.map_eq_some_iff.mp hrun
  obtain ⟨msg, hlen⟩ : ∃ msg : List UInt8, msg.length = 2147483608 :=
    ⟨replicate 2147483608 0, length_replicate⟩
  have hlong : ¬ msg.length + multiSize 24 ≤ maxInt := by
    rw [hlen]
    decide
  refine ⟨w, ⟨⟨0, 0⟩, [0]⟩, msg, reachable_of_run (.init rfl) hrun, ⟨?_, ?_⟩, hlen, ?_⟩
  · rw [hgroups]
    exact mem_singleton.mpr rfl
  · rw [hlen]
    decide
  · unfold MultiWorld.next
    dsimp only
    rw [syncMulticast_tooLong hlong]

end Machine

end CharmRuntime.Converse
