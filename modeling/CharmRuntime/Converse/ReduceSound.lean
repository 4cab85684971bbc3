import CharmRuntime.Converse.ReduceBooks
import CharmRuntime.Converse.ReduceSteps
import CharmRuntime.Lib.InFlight

/-!
# Converse.ReduceSound

Tree reductions deliver every contribution once. At each table index the machine is
described by `IndexOk`: without a current reduction the entries are empty and no message is
under way; otherwise every entry is in one of four states (`Entry`) and the data received
and under way keeps the books of `CharmRuntime.Converse.ReduceBooks`.

A local call and the arrival of a message both end in the same three ways (`Outcome`): the
structure is kept, the processor sends to its parent, or the root delivers. The code is
looked at once for each of the two; that the invariant holds after each of the three ways
does not depend on how they were reached.
-/

namespace CharmRuntime.Converse

open Lib List
open Function (update update_of_ne update_self)

variable {N : Nat} {δ : Type}

theorem localPart_merge (a : ReduceArgs δ) (parent : Int) (ds : List δ) :
    ((a.localPart parent).merge ds).2 = a.merge ds := by
  unfold LocalPart.merge ReduceArgs.merge
  by_cases h : ds = []
  · rw [if_pos h, if_pos h]
    rfl
  · rw [if_neg h, if_neg h]
    rfl

/-! ### Messages under way -/

/-- The data on its way to `p`. -/
def flying (msgs : List (Fin N × ReduceMsg δ)) (p : Fin N) : Multiset δ :=
  ((msgs.filter (·.1 = p)).map (·.2.data) : List δ)

theorem flying_cons (m : Fin N × ReduceMsg δ) (msgs : List (Fin N × ReduceMsg δ)) (p : Fin N) :
    flying (m :: msgs) p = (if m.1 = p then {m.2.data} else 0) + flying msgs p := by
  unfold flying
  rw [filter_cons]
  by_cases h : m.1 = p
  · rw [if_pos (decide_eq_true h), if_pos h]
    rfl
  · rw [if_neg (by simp [h]), if_neg h, zero_add]

theorem flying_perm {msgs msgs' : List (Fin N × ReduceMsg δ)} (h : msgs.Perm msgs') :
    flying msgs = flying msgs' := by
  funext p
  exact Multiset.coe_eq_coe.mpr ((h.filter _).map _)

theorem flying_append (msgs : List (Fin N × ReduceMsg δ)) (m : Fin N × ReduceMsg δ) (p : Fin N) :
    flying (msgs ++ [m]) p = (if m.1 = p then {m.2.data} else 0) + flying msgs p := by
  rw [flying_perm (perm_append_singleton m msgs), flying_cons]

theorem eq_nil_of_flying {msgs : List (Fin N × ReduceMsg δ)} (h : ∀ p, flying msgs p = 0) :
    msgs = [] := by
  cases msgs with
  | nil => rfl
  | cons m msgs =>
    have hm := h m.1
    rw [flying_cons, if_pos rfl, Multiset.singleton_add] at hm
    exact absurd hm (Multiset.cons_ne_zero)

/-! ### One table index -/

/-- The entry of processor `p` and the data it has received. -/
inductive Entry (T : SpanTree (Fin N)) (r : ReduceRound N δ) (p : Fin N) :
    Option (CmiReduction δ) → List δ → Prop
  /-- Neither the local call nor a message has come. -/
  | idle : r.calls p = none → p ∉ r.sent → Entry T r p none []
  | gathering {red : CmiReduction δ} {ds : List δ} {slots : Nat} :
      r.calls p = none → p ∉ r.sent → Gathering red r.id ds slots → Entry T r p (some red) ds
  | waiting {red : CmiReduction δ} {ds : List δ} {slots : Nat} {a : ReduceArgs δ} :
      r.calls p = some a → p ∉ r.sent →
        Waiting red r.id ds slots (numSpanTreeChildren T p) (a.localPart (spanTreeParent T p)) →
          numSpanTreeChildren T p ≤ slots → Entry T r p (some red) ds
  /-- Sent and cleared. -/
  | done : p ∈ r.sent → Entry T r p none []

/-- The machine at the index of a current reduction, with the data that each processor has
received. -/
structure RoundOk (T : SpanTree (Fin N)) (slots : Fin N → Option (CmiReduction δ))
    (msgs : List (Fin N × ReduceMsg δ)) (r : ReduceRound N δ) (got : Fin N → List δ) : Prop where
  ids : ∀ m ∈ msgs, m.2.redID = r.id
  entry : ∀ p, Entry T r p (slots p) (got p)
  books : Books T r fun p => (got p : Multiset δ) + flying msgs p

/-- The machine at one index. -/
def IndexOk (T : SpanTree (Fin N)) (slots : Fin N → Option (CmiReduction δ))
    (msgs : List (Fin N × ReduceMsg δ)) : Option (ReduceRound N δ) → Prop
  | none => (∀ p, slots p = none) ∧ msgs = []
  | some r => ∃ got, RoundOk T slots msgs r got

/-- What a finished reduction has come to. -/
structure Finished (T : SpanTree (Fin N)) (r : ReduceRound N δ) (d : Delivery δ) : Prop where
  redID : d.redID = r.id
  called : ∀ p, (r.calls p).isSome
  sent : r.sent.Nodup ∧ ∀ p, p ∈ r.sent
  destination : ∃ a, r.calls T.root = some a ∧ d.destination = a.ops.destination
  /-- The datum was merged from the local data of all processors, each once. -/
  once : Gathered r.node Finset.univ.val {d.data}

/-- How a call of the code on processor `p` ends for the reduction `r` at index `i`. -/
inductive Outcome (T : SpanTree (Fin N)) (i : Nat) (slots : Fin N → Option (CmiReduction δ))
    (msgs : List (Fin N × ReduceMsg δ)) (r : ReduceRound N δ) (p : Fin N) :
    ReduceTable δ × Option (ReduceOut δ) → Prop
  | hold {t : ReduceTable δ} :
      IndexOk T (Function.update slots p (t.info i)) msgs (some r) →
      Outcome T i slots msgs r p (t, none)
  | send {t : ReduceTable δ} {msg : ReduceMsg δ} : msg.redID = r.id →
      IndexOk T (Function.update slots p (t.info i)) (msgs ++ [(T.parent p, msg)])
        (some (r.send p)) →
        Outcome T i slots msgs r p (t, some (.send (T.parent p).val msg))
  | deliver {t : ReduceTable δ} {d : Delivery δ} : Finished T (r.send p) d →
      IndexOk T (Function.update slots p (t.info i)) msgs none →
        Outcome T i slots msgs r p (t, some (.deliver d.destination d.redID d.data))

section Round

variable {T : SpanTree (Fin N)} {r : ReduceRound N δ} {p : Fin N}
  {slots : Fin N → Option (CmiReduction δ)} {msgs : List (Fin N × ReduceMsg δ)}
  {got : Fin N → List δ}

variable {s : Option (CmiReduction δ)} {ds : List δ} {t : ReduceTable δ} {i : Nat}

theorem Entry.congr {r' : ReduceRound N δ}
    (h : Entry T r p s ds) (hid : r'.id = r.id) (hcalls : r'.calls p = r.calls p)
    (hsent : p ∈ r'.sent ↔ p ∈ r.sent) : Entry T r' p s ds := by
  cases h with
  | idle hc hs => exact .idle (hcalls.trans hc) (mt hsent.mp hs)
  | gathering hc hs hg => exact .gathering (hcalls.trans hc) (mt hsent.mp hs) (hid ▸ hg)
  | waiting hc hs hw hle => exact .waiting (hcalls.trans hc) (mt hsent.mp hs) (hid ▸ hw) hle
  | done hs => exact .done (hsent.mpr hs)

theorem Entry.none_of_sent (h : Entry T r p s ds) (hp : p ∈ r.sent) : s = none := by
  cases h with
  | idle _ _ => rfl
  | gathering _ hs _ => exact absurd hp hs
  | waiting _ hs _ _ => exact absurd hp hs
  | done _ => rfl

/-- **Sending**: the processor has called and has received a message from every child. -/
theorem outcome_complete {a : ReduceArgs δ} (hi : reduceIndex r.id = i)
    (hids : ∀ m ∈ msgs, m.2.redID = r.id)
    (hentry : ∀ q, q ≠ p → Entry T r q (slots q) (got q))
    (hbooks : Books T r fun p => (got p : Multiset δ) + flying msgs p) (hp : p ∉ r.sent)
    (ha : r.calls p = some a) (hlen : (got p).length = (T.children p).length) :
    Outcome T i slots msgs r p
      (t.clearReduction r.id, some ((a.localPart (spanTreeParent T p)).output r.id (got p))) := by
  obtain ⟨hfly, -⟩ := hbooks.full hp rfl hlen
  have hcleared : (t.clearReduction r.id).info i = none := info_clear_self hi
  have hheld : (got p : Multiset δ) + flying msgs p = got p := by rw [hfly, add_zero]
  by_cases hroot : p = T.root
  · -- the root delivers
    subst hroot
    obtain ⟨honce, hcalled, hothers⟩ := hbooks.finish ha hheld hlen
    have hout : (a.localPart (spanTreeParent T T.root)).output r.id (got T.root) =
        .deliver a.ops.destination r.id (a.merge (got T.root)) := by
      unfold LocalPart.output ReduceArgs.localPart spanTreeParent
      rw [if_pos rfl, ← localPart_merge a (-1)]
      rfl
    rw [hout]
    refine .deliver (d := ⟨a.ops.destination, r.id, a.merge (got T.root)⟩)
      ⟨rfl, hcalled, ?_, ⟨a, ha, rfl⟩, honce⟩ ?_
    · refine ⟨nodup_cons.mpr ⟨hp, hbooks.nodup⟩, fun q => ?_⟩
      by_cases hq : q = T.root
      · rw [hq]
        exact mem_cons_self
      · exact mem_cons_of_mem _ (hothers q hq)
    · refine ⟨fun q => ?_, eq_nil_of_flying fun q => ?_⟩
      · by_cases hq : q = T.root
        · rw [hq, update_self, hcleared]
        · rw [update_of_ne hq]
          exact (hentry q hq).none_of_sent (hothers q hq)
      · by_cases hq : q = T.root
        · rw [hq, hfly]
        · have hzero := hbooks.nothing q (hothers q hq)
          exact Multiset.le_zero.mp (hzero ▸ Multiset.le_add_left _ _)
  · -- any other sends to its parent
    have hout : (a.localPart (spanTreeParent T p)).output r.id (got p) = .send (T.parent p).val
          { redID := r.id, size := ((a.localPart (spanTreeParent T p)).merge (got p)).1,
            data := a.merge (got p) } := by
      have hne : ¬ ((T.parent p).val : Int) = -1 := by omega
      rw [← localPart_merge a (spanTreeParent T p)]
      unfold LocalPart.output ReduceArgs.localPart spanTreeParent
      rw [if_neg hroot, if_pos hne]
    rw [hout]
    refine .send rfl ⟨update got p [], ?_, ?_, ?_⟩
    · intro m hm
      cases mem_append.mp hm with
      | inl hm => exact hids m hm
      | inr hm =>
        rw [mem_singleton.mp hm]
        rfl
    · intro q
      by_cases hq : q = p
      · rw [hq, update_self, update_self, hcleared]
        exact .done mem_cons_self
      · rw [update_of_ne hq, update_of_ne hq]
        refine (hentry q hq).congr rfl rfl ⟨fun hm => ?_, mem_cons_of_mem _⟩
        exact (mem_cons.mp hm).resolve_left hq
    · have hcomplete := hbooks.complete hroot hp ha hheld hlen
      convert hcomplete using 1
      funext q
      rw [flying_append]
      by_cases hqq : q = T.parent p
      · subst hqq
        rw [update_self, if_pos rfl, update_of_ne (T.parent_ne hroot), add_left_comm]
      · rw [update_of_ne hqq, if_neg (Ne.symm hqq), zero_add]
        by_cases hq : q = p
        · rw [hq, update_self, update_self, hfly]
          rfl
        · rw [update_of_ne hq, update_of_ne hq]

/-- The bound on the children of one processor: the slots are added in fours, and their
number has to stay a `short int`. -/
def maxChildren : Nat := 32764

/-- Before its local call a processor finds, or makes, a structure with room for all its
children. -/
theorem Entry.create (h : Entry T r p (t.info (reduceIndex r.id)) ds) (hcalls : r.calls p = none)
    (hp : p ∉ r.sent) (k : Nat) :
    ∃ red n, getReductionCreate r.id (k : Int) t = .ok red ∧ Gathering red r.id ds n ∧ k ≤ n := by
  generalize hs : t.info (reduceIndex r.id) = s at h
  cases h with
  | idle _ _ =>
    obtain ⟨red, hred, hg⟩ := create_none hs (Int.natCast_nonneg k)
    refine ⟨red, _, hred, hg, ?_⟩
    split
    · omega
    · omega
  | gathering _ _ hg =>
    obtain ⟨red, hred, hg'⟩ := create_gathering hs hg k
    exact ⟨red, _, hred, hg', by omega⟩
  | waiting hc _ _ _ =>
    rw [hcalls] at hc
    exact absurd hc (by simp)
  | done hm => exact absurd hm hp

/-- **The local call.** -/
theorem call_outcome (hT : numSpanTreeChildren T p ≤ maxChildren)
    (hi : reduceIndex r.id = i) (h : RoundOk T slots msgs r got) (hcalls : r.calls p = none)
    (ht : t.info i = slots p) (a : ReduceArgs δ) :
    ∃ res, reduceID (numSpanTreeChildren T p) (spanTreeParent T p) a r.id t = .ok res ∧
      Outcome T i slots msgs (r.call p a) p res ∧ ∀ j, j ≠ i → res.1.info j = t.info j := by
  unfold maxChildren at hT
  have hshort : toShort (numSpanTreeChildren T p) = numSpanTreeChildren T p :=
    toShort_natCast (by unfold maxShort; omega)
  have hcall : (r.call p a).calls p = some a := update_self _ _ _
  have hentry : ∀ q, q ≠ p → Entry T (r.call p a) q (slots q) (got q) := fun q hq =>
    (h.entry q).congr rfl (update_of_ne hq _ _) Iff.rfl
  have hbooks := h.books.call hcalls a
  have hp : p ∉ r.sent := by
    intro hm
    have hsome := h.books.called p hm
    rw [hcalls] at hsome
    exact absurd hsome (by simp)
  have he := h.entry p
  rw [← ht, ← hi] at he
  obtain ⟨red, n, hred, hg, hn⟩ := he.create hcalls hp (numSpanTreeChildren T p)
  have hspec :=
    contribute_spec (t := t) hg (numSpanTreeChildren T p) (a.localPart (spanTreeParent T p))
  have hreduce : reduceID (numSpanTreeChildren T p) (spanTreeParent T p) a r.id t =
      contribute red (numSpanTreeChildren T p) (a.localPart (spanTreeParent T p)) t := by
    unfold reduceID globalReduce
    rw [hshort, hred]
    rfl
  rw [hreduce]
  obtain ⟨hk, hspec⟩ | ⟨hk, red', hspec, hw⟩ := hspec
  · refine ⟨_, hspec, outcome_complete hi h.ids hentry hbooks hp hcall hk.symm, ?_⟩
    exact fun j hj => info_clear_ne hi hj
  · have hi' : reduceIndex red'.seqID = i := by rw [hw.seqID, hi]
    refine ⟨_, hspec, .hold ⟨got, h.ids, fun q => ?_, hbooks⟩, fun j hj => info_store_ne hi' hj⟩
    by_cases hq : q = p
    · rw [hq, update_self, info_store_self hi']
      exact .waiting hcall hp hw hn
    · rw [update_of_ne hq]
      exact hentry q hq

/-- **The arrival of a message.** -/
theorem arrive_outcome {msg : ReduceMsg δ}
    {msgs' : List (Fin N × ReduceMsg δ)} (hT : numSpanTreeChildren T p ≤ maxChildren)
    (hi : reduceIndex r.id = i) (h : RoundOk T slots msgs r got)
    (hmsgs : msgs.Perm ((p, msg) :: msgs')) (ht : t.info i = slots p) :
    ∃ res, handleReductionMessage msg t = .ok res ∧ Outcome T i slots msgs' r p res ∧
      ∀ j, j ≠ i → res.1.info j = t.info j := by
  unfold maxChildren numSpanTreeChildren at hT
  have hid : msg.redID = r.id := h.ids _ (hmsgs.mem_iff.mpr mem_cons_self)
  have hids : ∀ m ∈ msgs', m.2.redID = r.id := fun m hm =>
    h.ids m (hmsgs.mem_iff.mpr (mem_cons_of_mem _ hm))
  -- what was under way to `p` is now received
  have hheld : (fun q => (update got p (got p ++ [msg.data]) q) +
      flying msgs' q) = fun q => (got q) + flying msgs q := by
    funext q
    rw [flying_perm hmsgs, flying_cons]
    by_cases hq : q = p
    · subst hq
      rw [update_self, if_pos rfl, ← add_assoc]
      rfl
    · rw [update_of_ne hq, if_neg (Ne.symm hq), zero_add]
  have hbooks : Books T r fun q => (update got p (got p ++ [msg.data]) q) +
      flying msgs' q := by
    rw [hheld]
    exact h.books
  have hp : p ∉ r.sent := by
    intro hm
    have hzero := hbooks.nothing p hm
    rw [update_self] at hzero
    have hcard := congrArg Multiset.card hzero
    rw [Multiset.card_add, Multiset.coe_card, length_append, length_singleton,
      Multiset.card_zero] at hcard
    omega
  have hcount : (got p).length + 1 ≤ (T.children p).length := by
    have hcard := hbooks.counted p hp
    have hle : (T.children p).countP (· ∈ r.sent) ≤ (T.children p).length :=
      countP_le_length
    rw [update_self, Multiset.card_add, Multiset.coe_card, length_append, length_singleton] at hcard
    omega
  have hentry : ∀ q, q ≠ p → Entry T r q (slots q) (update got p (got p ++ [msg.data]) q) := by
    intro q hq
    rw [update_of_ne hq]
    exact h.entry q
  -- the structure is kept with the new message
  have hhold : ∀ red', red'.seqID = r.id → Entry T r p (some red') (got p ++ [msg.data]) →
      Outcome T i slots msgs' r p (t.store red', none) := by
    intro red' hid' he
    refine .hold ⟨_, hids, fun q => ?_, hbooks⟩
    by_cases hq : q = p
    · rw [hq, update_self, update_self, info_store_self (by rw [hid', hi])]
      exact he
    · rw [update_of_ne hq]
      exact hentry q hq
  have hframe : ∀ red' : CmiReduction δ, red'.seqID = r.id → ∀ j, j ≠ i →
      (t.store red').info j = t.info j := fun red' hid' j hj =>
    info_store_ne (by rw [hid', hi]) hj
  have he := h.entry p
  rw [← ht] at he
  subst hi
  generalize hs : t.info (reduceIndex r.id) = s at he
  generalize hds : got p = ds at he hcount hhold
  cases he with
  | idle hc _ =>
    obtain ⟨red', hres, hg⟩ := handle_none hid hs
    exact ⟨_, hres, hhold red' hg.seqID (.gathering hc hp hg), hframe red' hg.seqID⟩
  | gathering hc _ hg =>
    obtain ⟨red', hres, hg'⟩ := handle_gathering hid hs hg (by unfold maxShort; omega)
    exact ⟨_, hres, hhold red' hg'.seqID (.gathering hc hp hg'), hframe red' hg'.seqID⟩
  | waiting hc _ hw hle =>
    have hlt : ds.length < _ := lt_of_lt_of_le hcount hle
    cases handle_waiting hid hs hw hlt (by unfold maxShort; omega) with
    | inl hlast =>
      obtain ⟨hk, hres⟩ := hlast
      have hlen : (update got p (ds ++ [msg.data]) p).length = (T.children p).length := by
        rw [update_self, length_append]
        exact hk.symm
      rw [hds] at hbooks hentry
      have hout := outcome_complete (t := t) rfl hids hentry hbooks hp hc hlen
      rw [update_self] at hout
      exact ⟨_, hres, hout, fun j hj => info_clear_ne rfl hj⟩
    | inr hmore =>
      obtain ⟨-, red', hres, hw'⟩ := hmore
      exact ⟨_, hres, hhold red' hw'.seqID (.waiting hc hp hw' hle), hframe red' hw'.seqID⟩
  | done hm => exact absurd hm hp

end Round

/-! ### The machine -/

/-- The messages of one index. -/
def atIndex (net : List (Fin N × ReduceMsg δ)) (i : Nat) : List (Fin N × ReduceMsg δ) :=
  net.filter (reduceIndex ·.2.redID = i)

/-- The invariant, for the indices in `on`. -/
structure ReduceInv (T : SpanTree (Fin N)) (on : Nat → Prop) (w : ReduceWorld N δ) : Prop where
  index : ∀ i, on i → IndexOk T (fun p => (w.pe p).info i) (atIndex w.net i) (w.current i)
  home : ∀ i r, w.current i = some r → reduceIndex r.id = i
  stray : w.stray = []
  finished : ∀ x ∈ w.finished, Finished T x.1 x.2

section Machine

variable {T : SpanTree (Fin N)} {w : ReduceWorld N δ}

theorem initial_inv : ReduceInv T (fun _ => True) (.initial : ReduceWorld N δ) where
  index := fun _ _ => ⟨fun _ => rfl, rfl⟩
  home := fun _ _ h => absurd h (by simp [ReduceWorld.initial])
  stray := rfl
  finished := fun _ h => absurd h (by simp [ReduceWorld.initial])

theorem peOf_val (q : Fin N) : peOf (q.val : Int) = .ok q := by
  unfold peOf
  rw [dif_pos ⟨by omega, by omega⟩]
  congr 1

variable {net : List (Fin N × ReduceMsg δ)} {msg : ReduceMsg δ} {i : Nat} {r : ReduceRound N δ}
  {p : Fin N}

theorem atIndex_append_self {q : Fin N} (h : reduceIndex msg.redID = i) :
    atIndex (net ++ [(q, msg)]) i = atIndex net i ++ [(q, msg)] := by
  simp [atIndex, h]

theorem atIndex_append_ne {q : Fin N} (h : reduceIndex msg.redID ≠ i) :
    atIndex (net ++ [(q, msg)]) i = atIndex net i := by
  simp [atIndex, h]

/-- A step of reduction `i` on one processor gives the invariant back. -/
theorem emit_inv {res : ReduceTable δ × Option (ReduceOut δ)} (h : ReduceInv T (· ≠ i) w)
    (hcur : w.current i = some r)
    (hout : Outcome T i (fun p => (w.pe p).info i) (atIndex w.net i) r p res)
    (hframe : ∀ j, j ≠ i → res.1.info j = (w.pe p).info j) :
    ∃ w', w.emit p res = .ok w' ∧ ReduceInv T (fun _ => True) w' := by
  have hi := h.home i r hcur
  have hself : ∀ t : ReduceTable δ, (fun q => (update w.pe p t q).info i) =
      update (fun q => (w.pe q).info i) p (t.info i) := by
    intro t
    funext q
    exact Function.apply_update (fun _ t => t.info i) w.pe p t q
  have hother : ∀ t : ReduceTable δ, ∀ j, t.info j = (w.pe p).info j →
      (fun q => (update w.pe p t q).info j) = fun q => (w.pe q).info j := by
    intro t j ht
    funext q
    exact apply_update_eq (f := fun t : ReduceTable δ => t.info j) ht q
  unfold ReduceWorld.emit
  cases hout with
  | hold hok =>
    refine ⟨_, rfl, fun j _ => ?_, h.home, h.stray, h.finished⟩
    by_cases hj : j = i
    · subst hj
      show IndexOk T (fun q => (update w.pe p _ q).info j) (atIndex w.net j) (w.current j)
      rw [hself, hcur]
      exact hok
    · show IndexOk T (fun q => (update w.pe p _ q).info j) (atIndex w.net j) (w.current j)
      rw [hother _ j (hframe j hj)]
      exact h.index j hj
  | @send t msg hid hok =>
    have hmi : reduceIndex msg.redID = i := by rw [hid, hi]
    dsimp only
    rw [peOf_val, hmi, hcur]
    refine ⟨_, rfl, fun j _ => ?_, fun j r' hr' => ?_, h.stray, h.finished⟩
    · dsimp only
      by_cases hj : j = i
      · subst hj
        rw [hself, atIndex_append_self hmi, update_self]
        exact hok
      · rw [hother _ j (hframe j hj), atIndex_append_ne (by rw [hmi]; exact symm hj),
          update_of_ne hj]
        exact h.index j hj
    · dsimp only at hr'
      by_cases hj : j = i
      · subst hj
        rw [update_self] at hr'
        obtain rfl := Option.some.inj hr'
        exact hi
      · rw [update_of_ne hj] at hr'
        exact h.home j r' hr'
  | @deliver t d hfin hok =>
    have hdi : reduceIndex d.redID = i := by rw [hfin.redID]; exact hi
    dsimp only
    rw [hdi, hcur]
    refine ⟨_, rfl, fun j _ => ?_, fun j r' hr' => ?_, h.stray, fun x hx => ?_⟩
    · dsimp only
      by_cases hj : j = i
      · subst hj
        rw [hself, update_self]
        exact hok
      · rw [hother _ j (hframe j hj), update_of_ne hj]
        exact h.index j hj
    · dsimp only at hr'
      by_cases hj : j = i
      · subst hj
        exact absurd hr' (by simp)
      · rw [update_of_ne hj] at hr'
        exact h.home j r' hr'
    · cases mem_append.mp hx with
      | inl hx => exact h.finished x hx
      | inr hx =>
        rw [mem_singleton.mp hx]
        exact hfin

theorem round_ok (h : ReduceInv T (fun _ => True) w) {id : Nat} (hmay : w.MayCall p id) :
    (w.round id).id = id ∧ (w.round id).calls p = none ∧
      ∃ got, RoundOk T (fun p => (w.pe p).info (reduceIndex id)) (atIndex w.net (reduceIndex id))
        (w.round id) got := by
  have hok := h.index (reduceIndex id) trivial
  unfold ReduceWorld.round
  cases hcur : w.current (reduceIndex id) with
  | none =>
    rw [hcur] at hok
    obtain ⟨hslots, hmsgs⟩ := hok
    refine ⟨rfl, rfl, fun _ => [], ?_, fun q => ?_, ?_⟩
    · rw [hmsgs]
      exact fun m hm => absurd hm (by simp)
    · rw [show (w.pe q).info (reduceIndex id) = none from hslots q]
      exact .idle rfl (by simp [ReduceRound.start])
    · rw [hmsgs]
      exact Books.start id
  | some r =>
    rw [hcur] at hok
    obtain ⟨hid, hcalls⟩ := hmay r hcur
    exact ⟨hid, hcalls, hok⟩

/-- A local call with number `id`, on a table `t` with the entries of processor `p`. -/
theorem call_inv (hT : ∀ p, numSpanTreeChildren T p ≤ maxChildren)
    (h : ReduceInv T (fun _ => True) w) {id : Nat} (hmay : w.MayCall p id)
    (a : ReduceArgs δ) {t : ReduceTable δ} (ht : t.info = (w.pe p).info) :
    ∃ res w', reduceID (numSpanTreeChildren T p) (spanTreeParent T p) a id t = .ok res ∧
      (w.noteCall p a id).emit p res = .ok w' ∧ ReduceInv T (fun _ => True) w' := by
  obtain ⟨hid, hcalls, got, hok⟩ := round_ok h hmay
  have hi : reduceIndex (w.round id).id = reduceIndex id := by rw [hid]
  obtain ⟨res, hres, hout, hframe⟩ := call_outcome (hT p) hi hok hcalls (by rw [ht]) a
  rw [hid] at hres
  have hinv : ReduceInv T (· ≠ reduceIndex id) (w.noteCall p a id) := by
    refine ⟨fun j hj => ?_, fun j r hr => ?_, h.stray, h.finished⟩
    · show IndexOk T _ _ (update w.current _ _ j)
      rw [update_of_ne hj]
      exact h.index j trivial
    · by_cases hj : j = reduceIndex id
      · subst hj
        unfold ReduceWorld.noteCall at hr
        dsimp only at hr
        rw [update_self] at hr
        obtain rfl := Option.some.inj hr
        exact hi
      · unfold ReduceWorld.noteCall at hr
        dsimp only at hr
        rw [update_of_ne hj] at hr
        exact h.home j r hr
  rw [ht] at hframe
  obtain ⟨w', hw', hinv'⟩ := emit_inv hinv (update_self _ _ _) hout hframe
  exact ⟨res, w', hres, hw', hinv'⟩

/-- The arrival of message `k`. -/
theorem arrive_inv (hT : ∀ p, numSpanTreeChildren T p ≤ maxChildren)
    (h : ReduceInv T (fun _ => True) w) {k : Nat} (hk : w.net[k]? = some (p, msg)) :
    ∃ res w', handleReductionMessage msg (w.pe p) = .ok res ∧
      { w with net := w.net.eraseIdx k }.emit p res = .ok w' ∧ ReduceInv T (fun _ => True) w' := by
  have hmsgs := perm_filter_eraseIdx hk (P := (reduceIndex ·.2.redID = reduceIndex msg.redID))
    (decide_eq_true rfl)
  have hok := h.index (reduceIndex msg.redID) trivial
  cases hcur : w.current (reduceIndex msg.redID) with
  | none =>
    -- without a reduction there is no message
    rw [hcur] at hok
    have hnil : atIndex w.net (reduceIndex msg.redID) = [] := hok.2
    unfold atIndex at hnil
    rw [hnil] at hmsgs
    exact absurd hmsgs (by simp)
  | some r =>
    rw [hcur] at hok
    obtain ⟨got, hok⟩ := hok
    have hi := h.home _ r hcur
    obtain ⟨res, hres, hout, hframe⟩ := arrive_outcome (hT p) hi hok hmsgs rfl
    have hinv : ReduceInv T (· ≠ reduceIndex msg.redID) { w with net := w.net.eraseIdx k } := by
      refine ⟨fun j hj => ?_, h.home, h.stray, h.finished⟩
      have hsame : atIndex (w.net.eraseIdx k) j = atIndex w.net j :=
        filter_eraseIdx hk (by simp [symm hj])
      show IndexOk T _ (atIndex (w.net.eraseIdx k) j) _
      rw [hsame]
      exact h.index j trivial
    obtain ⟨w', hw', hinv'⟩ := emit_inv hinv hcur hout hframe
    exact ⟨res, w', hres, hw', hinv'⟩

/-- **Every event that is allowed succeeds** and keeps the invariant. -/
theorem next_inv (hT : ∀ p, numSpanTreeChildren T p ≤ maxChildren)
    (h : ReduceInv T (fun _ => True) w) {e : ReduceEvent N δ} (he : w.Allowed e) :
    ∃ w', w.next T e = .ok w' ∧ ReduceInv T (fun _ => True) w' := by
  unfold ReduceWorld.next
  cases e with
  | reduce p a =>
    obtain ⟨res, w', hres, hw', hinv⟩ := call_inv hT h he a
      (t := { w.pe p with seqIDGlobal := nextSeqID (w.pe p).seqIDGlobal }) rfl
    unfold reduce
    dsimp only
    rw [hres]
    exact ⟨w', hw', hinv⟩
  | reduceID p a id =>
    obtain ⟨res, w', hres, hw', hinv⟩ := call_inv hT h he a rfl
    dsimp only
    rw [hres]
    exact ⟨w', hw', hinv⟩
  | arrive k =>
    have hk : w.net[k]? = some w.net[k] := getElem?_eq_getElem he
    generalize w.net[k] = m at hk
    obtain ⟨res, w', hres, hw', hinv⟩ := arrive_inv hT h hk
    dsimp only
    rw [hk]
    dsimp only
    rw [hres]
    exact ⟨w', hw', hinv⟩

theorem reachable_inv (hT : ∀ p, numSpanTreeChildren T p ≤ maxChildren)
    (h : (reduceSystem T).Reachable w) : ReduceInv T (fun _ => True) w := by
  refine h.invariant ?_ ?_
  · rintro w rfl
    exact initial_inv
  · rintro w e w' hinv ⟨he, hw'⟩
    obtain ⟨w'', hw'', hinv'⟩ := next_inv hT hinv he
    rw [hw'] at hw''
    obtain rfl := Except.ok.inj hw''
    exact hinv'

theorem exists_flying (h : ReduceInv T (fun _ => True) w)
    (hcur : w.current i = some r) (hcalled : ∀ p, (r.calls p).isSome) :
    ∃ m ∈ w.net, m.2.redID = r.id := by
  have hok := h.index i trivial
  rw [hcur] at hok
  obtain ⟨got, hok⟩ := hok
  obtain ⟨p, hp, hcard⟩ := hok.books.exists_ready
  by_cases hnil : atIndex w.net i = []
  · -- the processor would have received all and sent
    have hgot : (got p).length = (T.children p).length := by
      rw [← hcard, hnil]
      simp [flying]
    have he : Entry T r p ((w.pe p).info i) (got p) := hok.entry p
    generalize got p = ds at he hgot
    generalize (w.pe p).info i = s at he
    cases he with
    | idle hc _ => exact absurd (hcalled p) (by simp [hc])
    | gathering hc _ _ => exact absurd (hcalled p) (by simp [hc])
    | waiting _ _ hw _ => exact absurd hgot hw.incomplete
    | done hm => exact absurd hm hp
  · obtain ⟨m, hm⟩ := exists_mem_of_ne_nil _ hnil
    exact ⟨m, mem_of_mem_filter hm, hok.ids m hm⟩

theorem cleared_of_sent (h : ReduceInv T (fun _ => True) w)
    (hcur : w.current i = some r) (hp : p ∈ r.sent) : (w.pe p).info i = none := by
  have hok := h.index i trivial
  rw [hcur] at hok
  obtain ⟨got, hok⟩ := hok
  exact (hok.entry p).none_of_sent hp

/-- **Tree reductions deliver every contribution once.** Over a spanning tree with at most
`maxChildren` children at each processor, in every state that any order of local calls and
arrivals leads to:
* every call and every arrival succeeds, so that no write is outside the slots;
* the destination handler has run once for each finished reduction, with a datum merged from
  the local data of all processors, each once, and for no other;
* a current reduction in which all have called has a message under way;
* a processor that has sent has no structure any more. -/
theorem tree_reductions_deliver_once {N : Nat} {δ : Type} (T : SpanTree (Fin N))
    (hT : ∀ p, numSpanTreeChildren T p ≤ maxChildren) (w : ReduceWorld N δ)
    (h : (reduceSystem T).Reachable w) :
    (∀ e, w.Allowed e → ∃ w', w.next T e = .ok w') ∧
    w.stray = [] ∧ (∀ x ∈ w.finished, Finished T x.1 x.2) ∧
    (∀ i r, w.current i = some r → (∀ p, (r.calls p).isSome) → ∃ m ∈ w.net, m.2.redID = r.id) ∧
    (∀ i r, w.current i = some r → ∀ p ∈ r.sent, (w.pe p).info i = none) ∧
    (∀ i, w.current i = none → ∀ p, (w.pe p).info i = none) := by
  have hinv := reachable_inv hT h
  refine ⟨fun e he => ?_, hinv.stray, hinv.finished, fun i r hcur => exists_flying hinv hcur,
    fun i r hcur p => cleared_of_sent hinv hcur, fun i hcur p => ?_⟩
  · obtain ⟨w', hw', -⟩ := next_inv hT hinv he
    exact ⟨w', hw'⟩
  · have hok := hinv.index i trivial
    rw [hcur] at hok
    exact hok.1 p

/-- A processor and its parent: both call, the message arrives, and the handler gets the
sum. -/
theorem tree_reductions_deliver_once_pair :
    ∃ w : ReduceWorld 2 Nat, (reduceSystem (.star 1)).Reachable w ∧
      w.finished.map (·.2.data) = [7] ∧ ∀ x ∈ w.finished, Finished (.star 1) x.1 x.2 := by
  have h0 : (reduceSystem (.star 1)).Reachable (.initial : ReduceWorld 2 Nat) := .init rfl
  have h1 := h0.step (e := .reduce 0 (sumArgs 3)) ⟨by rintro r ⟨⟩, rfl⟩
  have h2 := h1.step (e := .reduce 1 (sumArgs 4)) ⟨by rintro r ⟨⟩; exact ⟨rfl, rfl⟩, rfl⟩
  have h3 := h2.step (e := .arrive 0) ⟨by exact zero_lt_one, rfl⟩
  refine ⟨_, h3, rfl, ?_⟩
  exact (tree_reductions_deliver_once (.star 1) (by decide) _ h3).2.2.1

end Machine

end CharmRuntime.Converse
