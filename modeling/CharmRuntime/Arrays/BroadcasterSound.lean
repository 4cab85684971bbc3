import CharmRuntime.Arrays.Broadcaster

/-!
# Arrays.BroadcasterSound

**Every element is given every broadcast since its creation, once and in order**, in every run
whose steps go well (`given_in_order`).

Between loops the stash of a PE is the end of what it received (`stash`). In the loop of
`bringUpToDate` it is rotated by as many places as broadcasts are left, and the element is behind by
as many (`Bringing`); so the broadcast at the front is the next one of the element.
-/

namespace CharmRuntime.Arrays

open Lib List Nat

variable {P E M : Type}

/-! ## The stash -/

/-- The last `len` of the first `n` broadcasts. -/
def stash (sent : List M) (n len : Nat) : List M := (sent.take n).drop (n - len)

variable {sent : List M} {n : Nat} {msg : M} {p : Pe E M} {oldBcasts : List M} {x : Element P M}
  {b : Broadcaster M} {x' : Element P M} {el : E} {y : Element P M} {todo : List E} {i : Nat}
  {survived : Bool} {r : Running E M} {e : Event P E M}

theorem length_stash {len : Nat} (hn : n ≤ sent.length) (hlen : len ≤ n) :
    (stash sent n len).length = len := by
  rw [stash, length_drop, length_take_of_le hn]
  exact Nat.sub_sub_self hlen

theorem getElem?_stash (sent : List M) {len k : Nat} (hlen : len ≤ n) (hk : k < len) :
    (stash sent n len)[k]? = sent[n - len + k]? := by
  have hlt : n - len + k < n := calc
    n - len + k < n - len + len := Nat.add_lt_add_left hk _
    _ = n := Nat.sub_add_cancel hlen
  rw [stash, getElem?_drop, getElem?_take_of_lt hlt]

theorem stash_incoming (len : Nat) (hmsg : sent[n]? = some msg) :
    stash sent (n + 1) (len + 1) = stash sent n len ++ [msg] := by
  obtain ⟨hlt, -⟩ := List.getElem?_eq_some_iff.mp hmsg
  have htake : sent.take (n + 1) = sent.take n ++ [msg] := by
    rw [take_add_one, hmsg]
    rfl
  rw [stash, stash, htake, Nat.add_sub_add_right, drop_append_of_le_length]
  rw [length_take_of_le (le_of_lt hlt)]
  exact sub_le n len

theorem drop_stash (sent : List M) {len d : Nat} (hlen : len ≤ n) (hd : d ≤ len) :
    (stash sent n len).drop d = stash sent n (len - d) := by
  rw [stash, drop_drop]
  congr 1
  omega

theorem stash_append (more : List M) (len : Nat) (hn : n ≤ sent.length) :
    stash (sent ++ more) n len = stash sent n len := by
  rw [stash, stash, take_append_of_le_length hn]

/-! ## One PE and one element -/

/-- The broadcasts that the loop of `bringUpToDate` still has to give. -/
def Pe.left (p : Pe E M) : Nat :=
  match p.running with
  | .bringUpToDate _ i => if p.executing.isNone then i + 1 else i
  | _ => 0

/-- How far an element at home on the PE may be behind. -/
def Pe.lag [DecidableEq E] (p : Pe E M) (el : E) : Nat :=
  match p.running with
  | .idle => 0
  | .recvBroadcast _ todo => if el ∈ todo then 1 else 0
  | .bringUpToDate x _ => if el = x then p.left else 0

/-- What holds of a PE. -/
structure PeInv (sent : List M) (p : Pe E M) : Prop where
  received : p.broadcaster.bcastNo = p.received
  le_sent : p.broadcaster.bcastNo ≤ sent.length
  length_le : p.broadcaster.oldBcasts.length ≤ p.broadcaster.bcastNo
  left_le : p.left ≤ p.broadcaster.oldBcasts.length
  queue : p.broadcaster.oldBcasts =
    (stash sent p.broadcaster.bcastNo p.broadcaster.oldBcasts.length).rotate
      (p.broadcaster.oldBcasts.length - p.left)
  msg : ∀ m todo, p.running = .recvBroadcast m todo → 0 < p.broadcaster.bcastNo ∧
    sent[p.broadcaster.bcastNo - 1]? = some m
  executing :
    ∀ e, p.executing = some e → p.running ≠ .idle ∧ ∀ el i, p.running = .bringUpToDate el i → e = el

/-- What holds of an element: it was given the broadcasts since its creation. -/
structure ElemInv (sent : List M) (x : Element P M) : Prop where
  born_le : x.born ≤ x.elBcastNo
  le_sent : x.elBcastNo ≤ sent.length
  given : x.given = (sent.drop x.born).take (x.elBcastNo - x.born)

/-- **The front of the stash** is the first broadcast that is left. -/
theorem PeInv.head (h : PeInv sent p) (hleft : 0 < p.left)
    (hqueue : p.broadcaster.oldBcasts = msg :: oldBcasts) :
    sent[p.broadcaster.bcastNo - p.left]? = some msg := by
  have hle := h.left_le
  have hlen := h.length_le
  have hlt : p.broadcaster.oldBcasts.length - p.left < p.broadcaster.oldBcasts.length := by omega
  have hindex :
    p.broadcaster.bcastNo - p.broadcaster.oldBcasts.length +
    (p.broadcaster.oldBcasts.length - p.left) =
      p.broadcaster.bcastNo - p.left := by omega
  have hhead : p.broadcaster.oldBcasts.head? = some msg := by rw [hqueue, head?_cons]
  rw [h.queue, head?_rotate (by rw [length_stash h.le_sent hlen]; exact hlt),
    getElem?_stash sent hlen hlt, hindex] at hhead
  exact hhead

theorem PeInv.rotated (h : PeInv sent p) (hleft : 0 < p.left)
    (hqueue : p.broadcaster.oldBcasts = msg :: oldBcasts) :
    oldBcasts ++ [msg] = (stash sent p.broadcaster.bcastNo (oldBcasts ++ [msg]).length).rotate
      ((oldBcasts ++ [msg]).length - (p.left - 1)) := by
  have hle := h.left_le
  have hlen : (oldBcasts ++ [msg]).length = p.broadcaster.oldBcasts.length := by rw [hqueue]; simp
  have hone :
    p.broadcaster.oldBcasts.length - p.left + 1 = p.broadcaster.oldBcasts.length -
    (p.left - 1) := by omega
  calc oldBcasts ++ [msg] = p.broadcaster.oldBcasts.rotate 1 := by rw [hqueue]; simp
    _ = _ := by rw [hlen, ← hone, ← rotate_rotate, ← h.queue]

theorem PeInv.queue_eq (h : PeInv sent p) (hleft : p.left = 0) :
    p.broadcaster.oldBcasts = stash sent p.broadcaster.bcastNo p.broadcaster.oldBcasts.length := by
  have hqueue := h.queue
  have hrotate :=
    rotate_length (l := stash sent p.broadcaster.bcastNo p.broadcaster.oldBcasts.length)
  rw [length_stash h.le_sent h.length_le] at hrotate
  rwa [hleft, Nat.sub_zero, hrotate] at hqueue

/-- `PeInv` from the order of the stash. -/
theorem peInv_of_left_zero (hleft : p.left = 0) (hreceived : p.broadcaster.bcastNo = p.received)
    (hsent : p.broadcaster.bcastNo ≤ sent.length)
    (hlen : p.broadcaster.oldBcasts.length ≤ p.broadcaster.bcastNo)
    (hqueue : p.broadcaster.oldBcasts =
      stash sent p.broadcaster.bcastNo p.broadcaster.oldBcasts.length)
    (hmsg : ∀ m todo, p.running = .recvBroadcast m todo → 0 < p.broadcaster.bcastNo ∧
      sent[p.broadcaster.bcastNo - 1]? = some m)
    (hexec : ∀ e, p.executing = some e → p.running ≠ .idle ∧
      ∀ el i, p.running = .bringUpToDate el i → e = el) :
    PeInv sent p := by
  refine ⟨hreceived, hsent, hlen, by omega, ?_, hmsg, hexec⟩
  have hrotate :=
    rotate_length (l := stash sent p.broadcaster.bcastNo p.broadcaster.oldBcasts.length)
  rw [length_stash hsent hlen] at hrotate
  rw [hleft, Nat.sub_zero, hrotate]
  exact hqueue

theorem PeInv.append (h : PeInv sent p) (msg : M) : PeInv (sent ++ [msg]) p := by
  refine ⟨h.received, ?_, h.length_le, h.left_le, ?_, fun m todo hrun => ?_, h.executing⟩
  · rw [length_append]
    exact le_add_right_of_le h.le_sent
  · rw [stash_append _ _ h.le_sent]
    exact h.queue
  · obtain ⟨hpos, hmsg⟩ := h.msg m todo hrun
    have hle := h.le_sent
    exact ⟨hpos, by rw [getElem?_append_left (by omega), hmsg]⟩

theorem ElemInv.append (h : ElemInv sent x) (msg : M) : ElemInv (sent ++ [msg]) x := by
  refine ⟨h.born_le, ?_, ?_⟩
  · rw [length_append]
    exact le_add_right_of_le h.le_sent
  · have hborn := h.born_le
    have hle := h.le_sent
    rw [drop_append_of_le_length (by omega), take_append_of_le_length (by rw [length_drop]; omega)]
    exact h.given

theorem lt_of_deliver (h : b.deliver msg x = some x') : x.elBcastNo < b.bcastNo := by
  unfold Broadcaster.deliver at h
  split at h
  next => cases h
  next hlt => exact lt_of_not_ge hlt

theorem le_of_deliver (h : b.deliver msg x = none) : b.bcastNo ≤ x.elBcastNo := by
  unfold Broadcaster.deliver at h
  split at h
  next hge => exact hge
  next => cases h

/-- **The next broadcast is given.** -/
theorem ElemInv.deliver (h : ElemInv sent x)
    (hmsg : sent[x.elBcastNo]? = some msg) (hdeliver : b.deliver msg x = some x') :
    ElemInv sent x' ∧ x'.elBcastNo = x.elBcastNo + 1 ∧ x'.place = x.place := by
  obtain ⟨hlt, -⟩ := List.getElem?_eq_some_iff.mp hmsg
  have hborn := h.born_le
  unfold Broadcaster.deliver at hdeliver
  split at hdeliver
  next => cases hdeliver
  next =>
    cases hdeliver
    refine ⟨⟨le_succ_of_le hborn, hlt, ?_⟩, rfl, rfl⟩
    have hsucc : x.elBcastNo + 1 - x.born = x.elBcastNo - x.born + 1 := by omega
    have hindex : x.born + (x.elBcastNo - x.born) = x.elBcastNo := by omega
    show x.given ++ [msg] = (sent.drop x.born).take (x.elBcastNo + 1 - x.born)
    rw [hsucc, take_add_one, getElem?_drop, hindex, hmsg, h.given]
    rfl

/-! ## The world -/

theorem ne_of_resident {p q : P} (hplace : x.place = .resident p) (hq : q ≠ p) :
    x.place ≠ .resident q := by
  rw [hplace]
  exact fun heq => hq (Place.resident.inj heq).symm

theorem ne_of_flight {p q : P} (hplace : x.place = .flight p) : x.place ≠ .resident q := by
  rw [hplace]
  exact fun heq => by cases heq

variable [DecidableEq P] [DecidableEq E] {w w' : World P E M} {p : P}

/-- The element of the loop of `bringUpToDate`: it is behind by the broadcasts that are left, or it
has left with none to follow. -/
def Bringing (w : World P E M) (p : P) (el : E) : Prop :=
  ∃ x, w.elem el = some x ∧
  (x.place = .resident p ∧ x.elBcastNo + (w.pe p).left = (w.pe p).broadcaster.bcastNo ∨
    (w.pe p).left = 0 ∧ x.place ≠ .resident p)

structure Inv (w : World P E M) : Prop where
  pe : ∀ p, PeInv w.sent (w.pe p)
  elem : ∀ el x, w.elem el = some x → ElemInv w.sent x
  caught : ∀ el x p, w.elem el = some x → x.place = .resident p →
    (w.pe p).broadcaster.bcastNo ≤ x.elBcastNo + (w.pe p).lag el
  bringing : ∀ p el i, (w.pe p).running = .bringUpToDate el i → Bringing w p el

omit [DecidableEq P] in
theorem inv_new : Inv (World.new : World P E M) where
  pe _ := ⟨rfl, Nat.le_refl 0, Nat.le_refl 0, Nat.le_refl 0, rfl, (fun _ _ h => by cases h),
    (fun _ h => by cases h)⟩
  elem _ _ h := by cases h
  caught _ _ _ h := by cases h
  bringing _ _ _ h := by cases h

theorem Inv.change (h : Inv w) (el : Option E) (hsent : w'.sent = w.sent)
    (hpe : ∀ q, q ≠ p → w'.pe q = w.pe q)
    (helem : ∀ e, el ≠ some e → w'.elem e = w.elem e) (hp : PeInv w.sent (w'.pe p))
    (hel : ∀ e x, el = some e → w'.elem e = some x → ElemInv w.sent x)
    (hcaught : ∀ e x, w'.elem e = some x → x.place = .resident p →
      (w'.pe p).broadcaster.bcastNo ≤ x.elBcastNo + (w'.pe p).lag e)
    (hcaught' : ∀ e x q, el = some e → q ≠ p → w'.elem e = some x → x.place ≠ .resident q)
    (hbringing : ∀ e i, (w'.pe p).running = .bringUpToDate e i → Bringing w' p e)
    (hleft : ∀ e x q, el = some e → q ≠ p → w.elem e = some x → x.place ≠ .resident q)
    (hkept : ∀ e x, el = some e → w.elem e = some x → ∃ x', w'.elem e = some x') : Inv w' := by
  refine ⟨fun q => ?_, fun e x hx => ?_, fun e x q hx hplace => ?_, fun q e i hrun => ?_⟩
  · rw [hsent]
    by_cases hq : q = p
    · exact hq ▸ hp
    · rw [hpe q hq]
      exact h.pe q
  · rw [hsent]
    by_cases he : el = some e
    · exact hel e x he hx
    · rw [helem e he] at hx
      exact h.elem e x hx
  · by_cases hq : q = p
    · subst hq
      exact hcaught e x hx hplace
    · by_cases he : el = some e
      · exact absurd hplace (hcaught' e x q he hq hx)
      · rw [helem e he] at hx
        rw [hpe q hq]
        exact h.caught e x q hx hplace
  · by_cases hq : q = p
    · subst hq
      exact hbringing e i hrun
    · rw [hpe q hq] at hrun
      obtain ⟨x, hx, hstate⟩ := h.bringing q e i hrun
      by_cases he : el = some e
      · -- an element of another PE was not the one that changed, unless it had left
        have hout : x.place ≠ .resident q := hleft e x q he hq hx
        have hzero := (hstate.resolve_left fun hres => hout hres.1).1
        obtain ⟨x', hx'⟩ := hkept e x he hx
        refine ⟨x', hx', .inr ⟨by rw [hpe q hq]; exact hzero, hcaught' e x' q he hq hx'⟩⟩
      · refine ⟨x, by rw [helem e he]; exact hx, ?_⟩
        rw [hpe q hq]
        exact hstate

theorem Inv.setPe (h : Inv w) {x : Pe E M} (hp : PeInv w.sent x)
    (hcaught : ∀ e y, w.elem e = some y → y.place = .resident p →
      x.broadcaster.bcastNo ≤ y.elBcastNo + x.lag e)
    (hbringing : ∀ e i, x.running = .bringUpToDate e i → Bringing (w.setPe p x) p e) :
    Inv (w.setPe p x) := by
  refine h.change none rfl (fun q hq => w.setPe_pe_of_ne hq x) (fun _ _ => rfl) (by simpa using hp)
    (fun _ _ he => by cases he) (fun e y hy hplace => ?_) (fun _ _ _ he => by cases he)
      (fun e i hrun => ?_)
    (fun _ _ _ he => by cases he) (fun _ _ he => by cases he)
  · simpa using hcaught e y hy hplace
  · exact hbringing e i (by simpa using hrun)

/-- A change of one PE and one element, which is on this PE, or on its way, before and after. -/
theorem Inv.setElem (h : Inv w) {x : Pe E M} (hp : PeInv w.sent x) (hy : ElemInv w.sent y)
    (hcaught : ∀ e z, e ≠ el → w.elem e = some z → z.place = .resident p →
      x.broadcaster.bcastNo ≤ z.elBcastNo + x.lag e)
    (hcaughtEl : y.place = .resident p → x.broadcaster.bcastNo ≤ y.elBcastNo + x.lag el)
    (hafter : ∀ q, q ≠ p → y.place ≠ .resident q)
    (hbringing : ∀ e i, x.running = .bringUpToDate e i → Bringing ((w.setPe p x).setElem el y) p e)
    (hbefore : ∀ z q, w.elem el = some z → q ≠ p → z.place ≠ .resident q) :
    Inv ((w.setPe p x).setElem el y) := by
  refine h.change (some el) rfl (fun q hq => w.setPe_pe_of_ne hq x)
    (fun e he => World.setElem_elem_of_ne _ (fun heq => he (by rw [heq])) _) (by simpa using hp)
      (fun e z he hz => ?_)
    (fun e z hz hres => ?_) (fun e z q he hq hz => ?_)
      (fun e i hrun => hbringing e i (by simpa using hrun))
    (fun e z q he hq hz => ?_) (fun e z he _ => ?_)
  · cases he
    rw [World.setElem_elem] at hz
    cases hz
    exact hy
  · rw [World.setElem_pe, World.setPe_pe]
    by_cases he : e = el
    · subst he
      rw [World.setElem_elem] at hz
      cases hz
      exact hcaughtEl hres
    · rw [World.setElem_elem_of_ne _ he] at hz
      exact hcaught e z he hz hres
  · cases he
    rw [World.setElem_elem] at hz
    cases hz
    exact hafter q hq
  · cases he
    exact hbefore z q hz hq
  · cases he
    exact ⟨y, World.setElem_elem _ _ _⟩

/-! ## The steps -/

omit [DecidableEq P] in
theorem Inv.executing_none (h : Inv w) (hidle : (w.pe p).running = .idle) :
    (w.pe p).executing = none := by
  cases hexec : (w.pe p).executing with
  | none => rfl
  | some e => exact absurd hidle ((h.pe p).executing e hexec).1

omit [DecidableEq P] in
theorem Inv.broadcast (h : Inv w) (msg : M) : Inv { w with sent := w.sent ++ [msg] } where
  pe p := (h.pe p).append msg
  elem el x hx := (h.elem el x hx).append msg
  caught := h.caught
  bringing := h.bringing

/-- A PE that begins its loop over the local elements: each of them lacks the broadcast only. -/
theorem Inv.recv (h : Inv w) (hidle : (w.pe p).running = .idle)
    (hmsg : w.sent[(w.pe p).received]? = some msg) (htodo : ∀ el, el ∈ todo ↔ w.Resident el p) :
    Inv (w.setPe p { w.pe p with
      broadcaster := (w.pe p).broadcaster.incoming msg, received := (w.pe p).received + 1
      running := .recvBroadcast msg todo }) := by
  have hp := h.pe p
  have hzero : (w.pe p).left = 0 := by simp [Pe.left, hidle]
  rw [← hp.received] at hmsg
  obtain ⟨hlt, -⟩ := List.getElem?_eq_some_iff.mp hmsg
  refine h.setPe (peInv_of_left_zero rfl ?_ hlt ?_ ?_ ?_ ?_) (fun e y hy hplace => ?_)
    (fun e i hrun => by cases hrun)
  · exact congrArg (· + 1) hp.received
  · simpa [Broadcaster.incoming] using hp.length_le
  · show (w.pe p).broadcaster.oldBcasts ++ [msg] =
      stash w.sent ((w.pe p).broadcaster.bcastNo + 1)
        ((w.pe p).broadcaster.oldBcasts ++ [msg]).length
    rw [length_append, length_singleton, stash_incoming _ hmsg, ← hp.queue_eq hzero]
  · intro m _ hrun
    cases hrun
    exact ⟨succ_pos _, hmsg⟩
  · intro e hexec
    simp [h.executing_none hidle] at hexec
  · have hmem : e ∈ todo := (htodo e).mpr ⟨y, hy, hplace⟩
    have hold := h.caught e y p hy hplace
    simp only [Pe.lag, hidle] at hold
    simpa [Pe.lag, hmem] using hold

theorem Inv.skipVisit (h : Inv w) (hrun : (w.pe p).running = .recvBroadcast msg (el :: todo))
    (hexec : (w.pe p).executing = none)
    (hel : ∀ x, w.elem el = some x → x.place = .resident p → (w.pe p).broadcaster.bcastNo ≤
      x.elBcastNo) :
    Inv (w.setPe p { w.pe p with running := .recvBroadcast msg todo }) := by
  have hp := h.pe p
  have hzero : (w.pe p).left = 0 := by simp [Pe.left, hrun]
  refine h.setPe
    (peInv_of_left_zero rfl hp.received hp.le_sent hp.length_le (hp.queue_eq hzero) ?_ ?_)
    (fun e y hy hplace => ?_) (fun e i hrun' => by cases hrun')
  · intro m _ hrun'
    cases hrun'
    exact hp.msg msg _ hrun
  · intro e hsome
    simp [hexec] at hsome
  · by_cases he : e = el
    · subst he
      exact le_add_right_of_le (hel y hy hplace)
    · have hold := h.caught e y p hy hplace
      simpa [Pe.lag, hrun, he] using hold

theorem Inv.done (h : Inv w) (hrun : (w.pe p).running = .recvBroadcast msg [])
    (hexec : (w.pe p).executing = none) :
    Inv (w.setPe p { w.pe p with running := .idle }) := by
  have hp := h.pe p
  have hzero : (w.pe p).left = 0 := by simp [Pe.left, hrun]
  refine h.setPe (peInv_of_left_zero rfl hp.received hp.le_sent hp.length_le (hp.queue_eq hzero)
    (fun m todo hrecv => by cases hrecv) (fun e hsome => by simp [hexec] at hsome))
      (fun e y hy hplace => ?_)
    (fun e i hbring => by cases hbring)
  have hold := h.caught e y p hy hplace
  simpa [Pe.lag, hrun] using hold

/-- **The loop gives the broadcast to an element**: it is the next one of the element. -/
theorem Inv.visit (h : Inv w) (hrun : (w.pe p).running = .recvBroadcast msg (el :: todo))
    (hx : w.elem el = some x) (hplace : x.place = .resident p)
    (hdeliver : (w.pe p).broadcaster.deliver msg x = some x') :
    Inv ((w.setPe p
      { w.pe p with running := .recvBroadcast msg todo, executing := some el }).setElem el x') := by
  have hp := h.pe p
  have hzero : (w.pe p).left = 0 := by simp [Pe.left, hrun]
  obtain ⟨-, hmsg⟩ := hp.msg msg _ hrun
  have hlt : x.elBcastNo < (w.pe p).broadcaster.bcastNo := lt_of_deliver hdeliver
  have hlag := h.caught el x p hx hplace
  simp only [Pe.lag, hrun, mem_cons, true_or, if_true] at hlag
  have hindex : (w.pe p).broadcaster.bcastNo - 1 = x.elBcastNo := by omega
  rw [hindex] at hmsg
  obtain ⟨hel, hno, hsame⟩ := (h.elem el x hx).deliver hmsg hdeliver
  refine h.setElem
    (peInv_of_left_zero rfl hp.received hp.le_sent hp.length_le (hp.queue_eq hzero) ?_ ?_) hel
    (fun e y he hy hres => ?_) (fun _ => ?_) (fun q hq => ?_) (fun e i hbring => by cases hbring)
      (fun y q hy hq => ?_)
  · intro m _ hrun'
    cases hrun'
    exact hp.msg msg _ hrun
  · intro e _
    exact ⟨(fun hidle => by cases hidle), (fun _ _ hbring => by cases hbring)⟩
  · have hold := h.caught e y p hy hres
    simpa [Pe.lag, hrun, he] using hold
  · have hle : (w.pe p).broadcaster.bcastNo ≤ x'.elBcastNo := by omega
    exact le_add_right_of_le hle
  · exact ne_of_resident (hsame.trans hplace) hq
  · cases hx.symm.trans hy
    exact ne_of_resident hplace hq

omit [DecidableEq P] in
/-- The element of a loop of `bringUpToDate` that goes on is behind by the broadcasts that are left.
-/
theorem Inv.behind (h : Inv w) (hrun : (w.pe p).running = .bringUpToDate el i)
    (hleft : 0 < (w.pe p).left) (hx : w.elem el = some x) :
    x.place = .resident p ∧ x.elBcastNo + (w.pe p).left = (w.pe p).broadcaster.bcastNo := by
  obtain ⟨x', hx', hstate⟩ := h.bringing p el i hrun
  cases hx.symm.trans hx'
  exact hstate.resolve_right fun hout => absurd hout.1 (Nat.ne_of_gt hleft)

/-- **An iteration of `bringUpToDate`** gives the element the broadcast it lacks first. -/
theorem Inv.bring (h : Inv w)
    (hrun : (w.pe p).running = .bringUpToDate el i) (hexec : (w.pe p).executing = none)
    (hqueue : (w.pe p).broadcaster.oldBcasts = msg :: oldBcasts) (hx : w.elem el = some x)
    (hdeliver : (w.pe p).broadcaster.deliver msg x = some x') :
    Inv ((w.setPe p { w.pe p with
      broadcaster := { (w.pe p).broadcaster with oldBcasts := oldBcasts ++ [msg] }
      executing := some el }).setElem el x') := by
  have hp := h.pe p
  have hleft : (w.pe p).left = i + 1 := by simp [Pe.left, hrun, hexec]
  have hpos : 0 < (w.pe p).left := by rw [hleft]; exact succ_pos i
  obtain ⟨hplace, hbehind⟩ := h.behind hrun hpos hx
  have hmsg := hp.head hpos hqueue
  have hindex : (w.pe p).broadcaster.bcastNo - (w.pe p).left = x.elBcastNo := by omega
  rw [hindex] at hmsg
  obtain ⟨hel, hno, hsame⟩ := (h.elem el x hx).deliver hmsg hdeliver
  have hlen : (oldBcasts ++ [msg]).length = (w.pe p).broadcaster.oldBcasts.length := by
    rw [hqueue]; simp
  have hleft' : Pe.left { w.pe p with
      broadcaster := { (w.pe p).broadcaster with oldBcasts := oldBcasts ++ [msg] }
      executing := some el } = i := by simp [Pe.left, hrun]
  refine h.setElem ⟨hp.received, hp.le_sent, ?_, ?_, ?_, ?_, ?_⟩ hel (fun e z he hz hres => ?_)
    (fun _ => ?_)
    (fun q hq => ?_) (fun e k hbring => ?_) (fun z q hz hq => ?_)
  · exact hlen ▸ hp.length_le
  · have hle := hp.left_le
    rw [hleft']
    show i ≤ (oldBcasts ++ [msg]).length
    omega
  · rw [hleft']
    have hrotated := hp.rotated hpos hqueue
    rwa [hleft] at hrotated
  · intro m _ hrecv
    exact absurd (hrun.symm.trans hrecv) (by simp)
  · intro e hsome
    cases hsome
    refine ⟨(fun hidle => absurd (hrun.symm.trans hidle) (by simp)), fun e' k hbring => ?_⟩
    cases hrun.symm.trans hbring
    rfl
  · have hold := h.caught e z p hz hres
    simpa [Pe.lag, hrun, he] using hold
  · have hlag : (w.pe p).broadcaster.bcastNo ≤ x'.elBcastNo + i := by omega
    simpa [Pe.lag, Pe.left, hrun] using hlag
  · exact ne_of_resident (hsame.trans hplace) hq
  · cases hrun.symm.trans hbring
    refine ⟨x', World.setElem_elem _ _ _, .inl ⟨hsame.trans hplace, ?_⟩⟩
    rw [World.setElem_pe, World.setPe_pe, hleft']
    show x'.elBcastNo + i = (w.pe p).broadcaster.bcastNo
    omega
  · cases hx.symm.trans hz
    exact ne_of_resident hplace hq

omit [DecidableEq E] in
theorem left_next {x : Pe E M} (hexec : x.executing = some el)
    (hleft : survived = false → x.left = 0) :
    Pe.left { x with running := x.running.next survived, executing := none } = x.left := by
  cases hrun : x.running with
  | idle => simp [Pe.left, hrun, Running.next]
  | recvBroadcast msg todo => simp [Pe.left, hrun, Running.next]
  | bringUpToDate e i =>
    cases survived with
    | false =>
      rw [hleft rfl]
      simp [Pe.left, Running.next]
    | true => cases i <;> simp [Pe.left, hrun, hexec, Running.next, afterIteration]

theorem lag_next {x : Pe E M} (hexec : x.executing = some el)
    (hleft : survived = false → x.left = 0)
    (e : E) :
    Pe.lag { x with running := x.running.next survived, executing := none } e = x.lag e := by
  cases hrun : x.running with
  | idle => simp [Pe.lag, hrun, Running.next]
  | recvBroadcast msg todo => simp [Pe.lag, hrun, Running.next]
  | bringUpToDate e' i =>
    cases survived with
    | false => simp [Pe.lag, hrun, Running.next, hleft rfl]
    | true => cases i <;> simp [Pe.lag, Pe.left, hrun, hexec, Running.next, afterIteration]

omit [DecidableEq E] in
theorem running_of_next_recv
    (h : r.next survived = .recvBroadcast msg todo) : r = .recvBroadcast msg todo := by
  cases r with
  | idle => cases h
  | recvBroadcast m t => exact h
  | bringUpToDate e i => cases survived <;> cases i <;> cases h

omit [DecidableEq E] in
theorem running_of_next_bring
    (h : r.next survived = .bringUpToDate el i) : r = .bringUpToDate el (i + 1) := by
  cases r with
  | idle => cases h
  | recvBroadcast m t => cases h
  | bringUpToDate e j =>
    cases survived with
    | false => cases h
    | true =>
      cases j with
      | zero => cases h
      | succ j =>
        cases h
        rfl

omit [DecidableEq P] in
/-- An element leaves the loop of `bringUpToDate` with no broadcast left. -/
theorem Inv.left_of_gone (h : Inv w) (hexec : (w.pe p).executing = some el)
    (hgone : ¬ w.Resident el p) :
    (w.pe p).left = 0 := by
  cases hrun : (w.pe p).running with
  | idle => simp [Pe.left, hrun]
  | recvBroadcast msg todo => simp [Pe.left, hrun]
  | bringUpToDate e i =>
    obtain ⟨x, hx, hstate⟩ := h.bringing p e i hrun
    cases ((h.pe p).executing el hexec).2 e i hrun
    exact (hstate.resolve_left fun hres => hgone ⟨x, hx, hres.1⟩).1

/-- **An entry method returns.** -/
theorem Inv.finish (h : Inv w) (survived : Bool) (hexec : (w.pe p).executing = some el)
    (hgone : survived = false → ¬ w.Resident el p) :
    Inv (w.setPe p
      { w.pe p with running := (w.pe p).running.next survived, executing := none }) := by
  have hp := h.pe p
  have hzero : survived = false → (w.pe p).left = 0 := fun hs => h.left_of_gone hexec (hgone hs)
  have hleft := left_next hexec hzero
  refine h.setPe ⟨hp.received, hp.le_sent, hp.length_le, ?_, ?_, fun m todo hrun => ?_,
    fun e hsome => by cases hsome⟩
    (fun e y hy hplace => ?_) (fun e i hrun => ?_)
  · rw [hleft]
    exact hp.left_le
  · rw [hleft]
    exact hp.queue
  · exact hp.msg m todo (running_of_next_recv hrun)
  · rw [lag_next hexec hzero]
    exact h.caught e y p hy hplace
  · obtain ⟨x, hx, hstate⟩ := h.bringing p e _ (running_of_next_bring hrun)
    refine ⟨x, hx, ?_⟩
    rw [World.setPe_pe, hleft]
    exact hstate

/-! ## Elements that come and go -/

theorem Inv.moveElem (h : Inv w) (p : P) (hy : ElemInv w.sent y)
    (hcaught : y.place = .resident p → (w.pe p).broadcaster.bcastNo ≤ y.elBcastNo + (w.pe p).lag el)
    (hafter : ∀ q, q ≠ p → y.place ≠ .resident q)
    (hbringing : ∀ i, (w.pe p).running = .bringUpToDate el i → Bringing (w.setElem el y) p el)
    (hbefore : ∀ z q, w.elem el = some z → q ≠ p → z.place ≠ .resident q) :
    Inv (w.setElem el y) := by
  have hsame : w.setPe p (w.pe p) = w := by
    rw [World.setPe, Function.update_eq_self]
  have hset :=
    h.setElem (h.pe p) hy (fun e z _ hz hres => h.caught e z p hz hres) hcaught hafter
      (fun e i hrun => ?_) hbefore
  · rwa [hsame] at hset
  · rw [hsame]
    by_cases he : e = el
    · subst he
      exact hbringing i hrun
    · obtain ⟨x, hx, hstate⟩ := h.bringing p e i hrun
      exact ⟨x, by rw [World.setElem_elem_of_ne _ he, hx], hstate⟩

/-- **An element is created** with the number of its PE. -/
theorem Inv.create (h : Inv w) {place : Place P} (hnew : w.elem el = none)
    (hplace : ∀ q, place = .resident q → q = p) :
    Inv (w.setElem el
      { place, elBcastNo := (w.pe p).broadcaster.bcastNo, born := (w.pe
        p).broadcaster.bcastNo, given := [] }) := by
  refine h.moveElem p ⟨le_refl _, (h.pe p).le_sent, ?_⟩ (fun _ => le_add_right _ _)
    (fun q hq heq => hq (hplace q heq)) (fun i hrun => ?_) (fun z q hz _ => ?_)
  · rw [Nat.sub_self, take_zero]
  · obtain ⟨x, hx, -⟩ := h.bringing p el i hrun
    cases hnew.symm.trans hx
  · cases hnew.symm.trans hz

/-- **An element leaves**, with no broadcast of a loop left for it. -/
theorem Inv.leave (h : Inv w) {q : P} (hx : w.elem el = some x) (hplace : x.place = .resident p)
    (hopen : (w.pe p).Open) (hok : ∀ i, (w.pe p).running = .bringUpToDate el i → i = 0) :
    Inv (w.setElem el { x with place := .flight q }) := by
  have hel := h.elem el x hx
  refine h.moveElem p ⟨hel.born_le, hel.le_sent, hel.given⟩ (fun heq => by cases heq)
    (fun _ _ heq => by cases heq)
    (fun i hrun => ⟨_, World.setElem_elem _ _ _, .inr ⟨?_, fun heq => by cases heq⟩⟩)
      (fun z r hz hr => ?_)
  · cases hok i hrun
    cases hopen with
    | inl hidle => cases hidle.symm.trans hrun
    | inr hexec =>
      obtain ⟨e, he⟩ := Option.ne_none_iff_exists'.mp hexec
      simp [Pe.left, hrun, he]
  · cases hx.symm.trans hz
    exact ne_of_resident hplace hr

theorem Inv.arrive (h : Inv w) (hx : w.elem el = some x) (hplace : x.place = .flight p)
    (hidle : (w.pe p).running = .idle) (hle : (w.pe p).broadcaster.bcastNo ≤ x.elBcastNo) :
    Inv (w.setElem el { x with place := .resident p }) := by
  have hel := h.elem el x hx
  refine h.moveElem p ⟨hel.born_le, hel.le_sent, hel.given⟩ (fun _ => le_add_right_of_le hle)
    (fun q hq => ne_of_resident rfl hq) (fun i hrun => ?_) (fun z q hz _ => ?_)
  · cases hidle.symm.trans hrun
  · cases hx.symm.trans hz
    exact ne_of_flight hplace

/-- **An element arrives that missed broadcasts**, all of them in the stash: the skipped ones are
behind. -/
theorem Inv.arriveBehind (h : Inv w) (hx : w.elem el = some x) (hplace : x.place = .flight p)
    (hidle : (w.pe p).running = .idle) (hlt : x.elBcastNo < (w.pe p).broadcaster.bcastNo)
    (hok : (w.pe p).broadcaster.bcastNo ≤ x.elBcastNo + (w.pe p).broadcaster.oldBcasts.length) :
    Inv ((w.setPe p { w.pe p with
      broadcaster := (w.pe p).broadcaster.skipOld ((w.pe p).broadcaster.bcastNo - x.elBcastNo)
      running := .bringUpToDate el ((w.pe p).broadcaster.bcastNo - x.elBcastNo - 1) }).setElem el
        { x with place := .resident p }) := by
  have hp := h.pe p
  have hel := h.elem el x hx
  have hexec := h.executing_none hidle
  have hzero : (w.pe p).left = 0 := by simp [Pe.left, hidle]
  have hleft : Pe.left { w.pe p with
      broadcaster := (w.pe p).broadcaster.skipOld ((w.pe p).broadcaster.bcastNo - x.elBcastNo)
      running := .bringUpToDate el ((w.pe p).broadcaster.bcastNo - x.elBcastNo - 1) } =
      (w.pe p).broadcaster.bcastNo - x.elBcastNo := by
    simp only [Pe.left, hexec, Option.isNone_none, if_true]
    omega
  have hlen :
    ((w.pe p).broadcaster.skipOld ((w.pe p).broadcaster.bcastNo - x.elBcastNo)).oldBcasts.length =
      (w.pe p).broadcaster.oldBcasts.length := length_rotate ..
  refine h.setElem ⟨hp.received, hp.le_sent, ?_, ?_, ?_, (fun m todo hrun => by cases hrun),
    fun e hsome => ?_⟩
    ⟨hel.born_le, hel.le_sent, hel.given⟩ (fun e z he hz hres => ?_) (fun _ => ?_)
      (fun q hq => ne_of_resident rfl hq)
    (fun e i hrun => ?_) (fun z q hz _ => ?_)
  · rw [hlen]
    exact hp.length_le
  · rw [hleft, hlen]
    omega
  · rw [hleft, hlen]
    show (w.pe p).broadcaster.oldBcasts.rotate _ = _
    exact congrArg (rotate · _) (hp.queue_eq hzero)
  · cases hexec.symm.trans hsome
  · have hold := h.caught e z p hz hres
    simpa [Pe.lag, hidle, he] using hold
  · have hlag :
      (w.pe p).broadcaster.bcastNo ≤ x.elBcastNo +
      ((w.pe p).broadcaster.bcastNo - x.elBcastNo) := by omega
    rw [← hleft] at hlag
    simpa [Pe.lag] using hlag
  · cases hrun
    refine ⟨_, World.setElem_elem _ _ _, .inl ⟨rfl, ?_⟩⟩
    rw [World.setElem_pe, World.setPe_pe, hleft]
    exact Nat.add_sub_cancel' (le_of_lt hlt)
  · cases hx.symm.trans hz
    exact ne_of_flight hplace

/-- **A cleaning** leaves the end of the stash. -/
theorem Inv.clean (h : Inv w) (hidle : (w.pe p).running = .idle) :
    Inv (w.setPe p { w.pe p with broadcaster := (w.pe p).broadcaster.springCleaning }) := by
  have hp := h.pe p
  have hzero : (w.pe p).left = 0 := by simp [Pe.left, hidle]
  have hdelete : (w.pe p).broadcaster.nDelete ≤ (w.pe p).broadcaster.oldBcasts.length := sub_le _ _
  refine h.setPe (peInv_of_left_zero ?_ hp.received hp.le_sent ?_ ?_ hp.msg hp.executing)
    (fun e y hy hplace => ?_)
    (fun e i hrun => ?_)
  · simp [Pe.left, hidle]
  · show ((w.pe p).broadcaster.oldBcasts.drop _).length ≤ (w.pe p).broadcaster.bcastNo
    rw [length_drop]
    exact le_trans (sub_le _ _) hp.length_le
  · show (w.pe p).broadcaster.oldBcasts.drop _ =
      stash w.sent (w.pe p).broadcaster.bcastNo ((w.pe p).broadcaster.oldBcasts.drop _).length
    rw [length_drop, ← drop_stash w.sent hp.length_le hdelete, ← hp.queue_eq hzero]
  · have hold := h.caught e y p hy hplace
    simpa [Pe.lag, hidle] using hold
  · cases hidle.symm.trans hrun

/-! ## Whole runs -/

theorem Inv.step (h : Inv w) (hok : Ok w e) (hstep : Step w e w') : Inv w' := by
  cases hstep with
  | broadcast msg => exact h.broadcast msg
  | recv p msg todo hidle hmsg htodo => exact h.recv hidle hmsg htodo
  | visit p msg el todo x x' hrun _ hx hplace hdeliver => exact h.visit hrun hx hplace hdeliver
  | skip p msg el todo x hrun hexec hx hplace hdeliver =>
    refine h.skipVisit hrun hexec fun y hy _ => ?_
    cases hx.symm.trans hy
    exact le_of_deliver hdeliver
  | gone p msg el todo hrun hexec hgone =>
    exact h.skipVisit hrun hexec fun x hx hplace => absurd ⟨x, hx, hplace⟩ hgone
  | done p msg hrun hexec => exact h.done hrun hexec
  | bring p el i msg oldBcasts x x' hrun hexec hqueue hx hdeliver =>
    exact h.bring hrun hexec hqueue hx hdeliver
  | bringSkip p el i msg oldBcasts x hrun hexec hqueue hx hdeliver =>
    have hpos : 0 < (w.pe p).left := by simp [Pe.left, hrun, hexec]
    have hbehind := (h.behind hrun hpos hx).2
    have hle := le_of_deliver hdeliver
    omega
  | bringNull p el i hrun hexec hqueue =>
    have hpos : 0 < (w.pe p).left := by simp [Pe.left, hrun, hexec]
    have hle := (h.pe p).left_le
    rw [hqueue, length_nil] at hle
    omega
  | finish p el hexec _ => exact h.finish true hexec fun hs => by cases hs
  | finishGone p el hexec hgone => exact h.finish false hexec fun _ => hgone
  | create p el place _ hnew hplace => exact h.create hnew hplace
  | leave el x p q hx hplace hopen =>
    exact h.leave hx hplace hopen fun i hrun => hok x p i hx hplace hrun
  | arrive el x p hx hplace hidle hle => exact h.arrive hx hplace hidle hle
  | arriveBehind el x p hx hplace hidle hlt =>
    exact h.arriveBehind hx hplace hidle hlt (hok x p hx hplace)
  | clean p hidle _ => exact h.clean hidle

theorem runsWith_step {ok : World P E M → Event P E M → Prop}
    (h : (broadcastSystem P E M).RunsWith ok w)
    (hok : ok w e) (hstep : Step w e w') : (broadcastSystem P E M).RunsWith ok w' :=
  h.step hok hstep

end CharmRuntime.Arrays
