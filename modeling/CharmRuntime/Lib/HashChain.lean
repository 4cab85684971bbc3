import Mathlib.Data.List.Nodup

/-!
# Lib.HashChain

**Chained hash tables with back-pointers.** Every node has a link to the next
node of its chain and a *handle*: the address of the link that points to it,
which is a table slot or the `next` field of another node. With it a node is
unlinked without knowing its chain.

Nodes are numbers. `IsChain` says that following the links from an address
yields a given list of nodes, each with the right handle; `TableOk` that the
first `n` slots hold given disjoint chains. `pushFront`, `unlink` and `rehash`
are described by what they do to the chains.
-/

namespace CharmRuntime.Lib

open Function List

/-- The address of a link. -/
inductive Handle
  | slot (i : Nat)
  | next (e : Nat)
  deriving DecidableEq, Repr

/-- The links: table, `next` fields and handles. -/
structure Links where
  tab : Nat → Option Nat
  next : Nat → Option Nat
  handle : Nat → Handle

namespace Links

/-- Read a link. -/
def read (L : Links) : Handle → Option Nat
  | .slot i => L.tab i
  | .next e => L.next e

/-- Write a link. -/
def store (L : Links) (h : Handle) (v : Option Nat) : Links :=
  match h with
  | .slot i => { L with tab := update L.tab i v }
  | .next e => { L with next := update L.next e v }

/-- Set the handle of a node, if there is one. -/
def setHandle (L : Links) (v : Option Nat) (h : Handle) : Links :=
  match v with
  | none => L
  | some e => { L with handle := update L.handle e h }

/-- Put node `e` in front of the chain of slot `i`. -/
def pushFront (L : Links) (e i : Nat) : Links :=
  let old := L.tab i
  let L := { L with
    next := update L.next e old, handle := update L.handle e (.slot i) }
  (L.setHandle old (.next e)).store (.slot i) (some e)

/-- Take node `e` out of its chain. -/
def unlink (L : Links) (e : Nat) : Links :=
  (L.setHandle (L.next e) (L.handle e)).store (L.handle e) (L.next e)

@[simp] theorem read_store_self (L : Links) (h : Handle) (v : Option Nat) :
    (L.store h v).read h = v := by
  cases h with
  | slot i => simp [store, read]
  | next e => simp [store, read]

theorem read_store_of_ne (L : Links) {h h' : Handle} (hne : h' ≠ h) (v : Option Nat) :
    (L.store h v).read h' = L.read h' := by
  cases h with
  | slot i =>
    cases h' with
    | slot j => simp [store, read, show j ≠ i from fun he => hne (he ▸ rfl)]
    | next e => rfl
  | next e =>
    cases h' with
    | slot j => rfl
    | next f => simp [store, read, show f ≠ e from fun he => hne (he ▸ rfl)]

@[simp] theorem handle_store (L : Links) (h : Handle) (v : Option Nat) :
    (L.store h v).handle = L.handle := by
  cases h <;> rfl

@[simp] theorem read_setHandle (L : Links) (v : Option Nat) (h h' : Handle) :
    (L.setHandle v h).read h' = L.read h' := by
  cases v <;> cases h' <;> rfl

theorem handle_setHandle_self (L : Links) (e : Nat) (h : Handle) :
    (L.setHandle (some e) h).handle e = h := by
  simp [setHandle]

variable {e : Nat} {L : Links} {l : List Nat} {n : Nat} {chains : Nat → List Nat}

theorem handle_setHandle_of_ne (L : Links) {v : Option Nat} (hne : v ≠ some e)
    (h : Handle) : (L.setHandle v h).handle e = L.handle e := by
  cases v with
  | none => rfl
  | some f => simp [setHandle, show e ≠ f from fun he => hne (he ▸ rfl)]

/-! ### Chains -/

/-- Following the links from address `h` yields the nodes `l`. -/
def IsChain (L : Links) : Handle → List Nat → Prop
  | h, [] => L.read h = none
  | h, e :: l => L.read h = some e ∧ L.handle e = h ∧ IsChain L (.next e) l

/-- A chain depends on its own nodes and its first link only. -/
theorem IsChain.frame {L' : Links} :
    ∀ {h : Handle} {l : List Nat}, L.IsChain h l → L'.read h = L.read h →
    (∀ e ∈ l, L'.next e = L.next e ∧ L'.handle e = L.handle e) → L'.IsChain h l := by
  intro h l
  induction l generalizing h with
  | nil =>
    intro hc hr _
    exact hr.trans hc
  | cons e l ih =>
    intro hc hr hl
    obtain ⟨h1, h2, h3⟩ := hc
    obtain ⟨hn, hh⟩ := hl e mem_cons_self
    exact ⟨hr.trans h1, hh.trans h2, ih h3 hn fun x hx => hl x (mem_cons_of_mem e hx)⟩

/-- The same nodes under another first address, once the first node's handle is
set to it. -/
theorem IsChain.rehead {L' : Links} {h h' : Handle} (hc : L.IsChain h l)
    (hnd : l.Nodup) (hread : L'.read h' = L.read h)
    (hhandle : ∀ e, L.read h = some e → L'.handle e = h')
    (hrest : ∀ e ∈ l, L'.next e = L.next e ∧ (L.read h ≠ some e → L'.handle e = L.handle e)) :
    L'.IsChain h' l := by
  cases l with
  | nil => exact hread.trans hc
  | cons e l =>
    obtain ⟨h1, -, h3⟩ := hc
    refine ⟨hread.trans h1, hhandle e h1, h3.frame (hrest e mem_cons_self).1 ?_⟩
    intro x hx
    obtain ⟨hn, hh⟩ := hrest x (mem_cons_of_mem e hx)
    refine ⟨hn, hh ?_⟩
    rw [h1]
    intro heq
    have hxe : e = x := Option.some.inj heq
    exact (nodup_cons.mp hnd).1 (hxe ▸ hx)

/-- The handle of a node inside a chain is the address of the link before it. -/
theorem IsChain.handle_of_append : ∀ {l1 : List Nat} {h : Handle} {e : Nat}
    {l2 : List Nat}, L.IsChain h (l1 ++ e :: l2) →
    L.handle e = h ∧ l1 = [] ∨ ∃ q ∈ l1, L.handle e = .next q := by
  intro l1
  induction l1 with
  | nil =>
    intro h e l2 hc
    exact .inl ⟨hc.2.1, rfl⟩
  | cons a l1 ih =>
    intro h e l2 hc
    rcases ih hc.2.2 with ⟨ha, -⟩ | ⟨q, hq, hh⟩
    · exact .inr ⟨a, mem_cons_self, ha⟩
    · exact .inr ⟨q, mem_cons_of_mem a hq, hh⟩

/-- The part of a chain behind a node. -/
theorem IsChain.tail_of_append : ∀ {l1 : List Nat} {h : Handle} {e : Nat}
    {l2 : List Nat}, L.IsChain h (l1 ++ e :: l2) → L.IsChain (.next e) l2 := by
  intro l1
  induction l1 with
  | nil =>
    intro h e l2 hc
    exact hc.2.2
  | cons a l1 ih =>
    intro h e l2 hc
    exact ih hc.2.2

/-- The first link points into the chain. -/
theorem IsChain.mem_of_read {h : Handle} (hc : L.IsChain h l) {b : Nat} (hb : L.read h = some b) :
    b ∈ l := by
  cases l with
  | nil =>
    rw [show L.read h = none from hc] at hb
    exact absurd hb (by simp)
  | cons x l =>
    rw [hc.1] at hb
    rw [Option.some.inj hb]
    exact mem_cons_self

/-- **Unlinking** takes one node out of its chain. The first address is not
inside the chain. -/
theorem IsChain.unlink : ∀ {l1 : List Nat} {h : Handle} {e : Nat} {l2 : List Nat},
    L.IsChain h (l1 ++ e :: l2) → (l1 ++ e :: l2).Nodup →
    (∀ x ∈ l1 ++ e :: l2, h ≠ .next x) → (L.unlink e).IsChain h (l1 ++ l2) := by
  intro l1
  induction l1 with
  | nil =>
    intro h e l2 hc hnd hout
    obtain ⟨h1, h2, h3⟩ := hc
    have hnd' : e ∉ l2 ∧ l2.Nodup := nodup_cons.mp hnd
    refine h3.rehead hnd'.2 ?_ ?_ ?_
    · rw [Links.unlink, h2, read_store_self]
      rfl
    · intro x hx
      have hnext : L.next e = some x := hx
      rw [Links.unlink, handle_store, hnext, handle_setHandle_self, h2]
    · intro x hx
      refine ⟨?_, fun hne => ?_⟩
      · have hne : Handle.next x ≠ h := fun he => hout x (mem_cons_of_mem e hx) he.symm
        have hread := read_store_of_ne (L.setHandle (L.next e) h) hne (L.next e)
        rw [read_setHandle] at hread
        rw [Links.unlink, h2]
        exact hread
      · have hne' : L.next e ≠ some x := hne
        rw [Links.unlink, handle_store, handle_setHandle_of_ne _ hne']
  | cons a l1 ih =>
    intro h e l2 hc hnd hout
    obtain ⟨h1, h2, h3⟩ := hc
    have hnd' : a ∉ l1 ++ e :: l2 ∧ (l1 ++ e :: l2).Nodup := nodup_cons.mp hnd
    have hrec := ih h3 hnd'.2 (fun x hx he => hnd'.1 (by
      obtain rfl : a = x := by simpa using he
      exact hx))
    -- the link that changes is not the first one
    have hhandle : L.handle e ≠ h := by
      rcases h3.handle_of_append with ⟨ha, -⟩ | ⟨q, hq, hh⟩
      · rw [ha]
        exact (hout a mem_cons_self).symm
      · rw [hh]
        exact (hout q (mem_cons_of_mem a (mem_append_left _ hq))).symm
    have hnext : L.next e ≠ some a := by
      intro hn
      have hmem : a ∈ l2 := h3.tail_of_append.mem_of_read hn
      exact hnd'.1 (mem_append_right _ (mem_cons_of_mem e hmem))
    refine ⟨?_, ?_, hrec⟩
    · rw [Links.unlink, read_store_of_ne _ hhandle.symm, read_setHandle, h1]
    · rw [Links.unlink, handle_store, handle_setHandle_of_ne _ hnext, h2]

/-- What unlinking leaves alone outside the chain. -/
theorem unlink_frame {h : Handle} (hh : h ≠ L.handle e) : (L.unlink e).read h = L.read h := by
  rw [unlink, read_store_of_ne _ hh, read_setHandle]

/-! ### Tables -/

/-- The first `n` slots hold the chains `chains`, which are disjoint. -/
structure TableOk (L : Links) (n : Nat) (chains : Nat → List Nat) : Prop where
  chain : ∀ i, i < n → L.IsChain (.slot i) (chains i)
  nodup : ∀ i, i < n → (chains i).Nodup
  disjoint : ∀ i j e, i < n → j < n → e ∈ chains i → e ∈ chains j → i = j

theorem next_pushFront_of_ne (L : Links) {x : Nat} (hx : x ≠ e) (i : Nat) :
    (L.pushFront e i).next x = L.next x := by
  cases ht : L.tab i <;> simp [pushFront, store, setHandle, ht, hx]

/-- **Pushing** a new node in front of a chain. -/
theorem TableOk.pushFront (h : L.TableOk n chains) {i : Nat} (hi : i < n)
    (hnew : ∀ j, j < n → e ∉ chains j) :
    (L.pushFront e i).TableOk n (update chains i (e :: chains i)) := by
  have hhead : ∀ b, L.tab i = some b → b ∈ chains i := fun b hb => (h.chain i hi).mem_of_read hb
  have hnext : ∀ x, x ≠ e → (L.pushFront e i).next x = L.next x :=
    fun x hx => next_pushFront_of_ne L hx i
  have hhandle : ∀ x, x ≠ e → L.tab i ≠ some x → (L.pushFront e i).handle x = L.handle x := by
    intro x hx hne
    rw [Links.pushFront, handle_store, handle_setHandle_of_ne _ hne]
    exact update_of_ne hx _ _
  have htab : ∀ j, j ≠ i → (L.pushFront e i).tab j = L.tab j := by
    intro j hj
    cases ht : L.tab i <;> simp [Links.pushFront, store, setHandle, ht, hj]
  have hne : L.tab i ≠ some e := fun he => hnew i hi (hhead e he)
  refine ⟨?_, ?_, ?_⟩
  · intro j hj
    by_cases hji : j = i
    · subst hji
      rw [update_self]
      refine ⟨by rw [Links.pushFront, read_store_self], ?_, ?_⟩
      · rw [Links.pushFront, handle_store, handle_setHandle_of_ne _ hne]
        exact update_self e _ _
      · refine (h.chain j hj).rehead (h.nodup j hj) ?_ ?_ ?_
        · have hself : (L.pushFront e j).next e = L.tab j := by
            cases ht : L.tab j <;> simp [Links.pushFront, store, setHandle, ht]
          exact hself
        · intro x hx
          have hx' : L.tab j = some x := hx
          rw [Links.pushFront, handle_store, hx', handle_setHandle_self]
        · intro x hx
          have hxe : x ≠ e := fun he => hnew j hj (he ▸ hx)
          exact ⟨hnext x hxe, fun hx' => hhandle x hxe hx'⟩
    · rw [update_of_ne hji]
      refine (h.chain j hj).frame (htab j hji) ?_
      intro x hx
      have hxe : x ≠ e := fun he => hnew j hj (he ▸ hx)
      refine ⟨hnext x hxe, hhandle x hxe fun ht => ?_⟩
      exact hji (h.disjoint j i x hj hi hx (hhead x ht))
  · intro j hj
    by_cases hji : j = i
    · subst hji
      rw [update_self]
      exact nodup_cons.mpr ⟨hnew j hj, h.nodup j hj⟩
    · rw [update_of_ne hji]
      exact h.nodup j hj
  · intro j k x hj hk hxj hxk
    have hcases : ∀ a, a < n → x ∈ update chains i (e :: chains i) a → x = e ∧ a = i ∨
      x ∈ chains a := by
      intro a ha hx
      by_cases hai : a = i
      · subst hai
        rw [update_self] at hx
        rcases mem_cons.mp hx with rfl | hx
        · exact .inl ⟨rfl, rfl⟩
        · exact .inr hx
      · rw [update_of_ne hai] at hx
        exact .inr hx
    rcases hcases j hj hxj with ⟨hxe, hji⟩ | hxj'
    · rcases hcases k hk hxk with ⟨-, hki⟩ | hxk'
      · exact hji.trans hki.symm
      · exact absurd (hxe ▸ hxk') (hnew k hk)
    · rcases hcases k hk hxk with ⟨hxe, -⟩ | hxk'
      · exact absurd (hxe ▸ hxj') (hnew j hj)
      · exact h.disjoint j k x hj hk hxj' hxk'

/-- **Unlinking** a node of the table. -/
theorem TableOk.unlink (h : L.TableOk n chains) {i : Nat} (hi : i < n) (he : e ∈ chains i) :
    (L.unlink e).TableOk n (update chains i ((chains i).erase e)) := by
  obtain ⟨l1, l2, hl⟩ := append_of_mem he
  have hnd := h.nodup i hi
  have hc := h.chain i hi
  rw [hl] at hnd hc
  have hnot : e ∉ l1 := by
    intro hmem
    have := nodup_append.mp hnd
    exact this.2.2 e hmem e mem_cons_self rfl
  have herase : (chains i).erase e = l1 ++ l2 := by
    rw [hl, erase_append_right _ hnot, erase_cons_head]
  -- the links that change belong to chain `i`
  have hhandle : L.handle e = .slot i ∨ ∃ q ∈ chains i, L.handle e = .next q := by
    rcases hc.handle_of_append with ⟨hh, -⟩ | ⟨q, hq, hh⟩
    · exact .inl hh
    · exact .inr ⟨q, by rw [hl]; exact mem_append_left _ hq, hh⟩
  have hnext : ∀ b, L.next e = some b → b ∈ chains i := by
    intro b hb
    have hmem : b ∈ l2 := hc.tail_of_append.mem_of_read hb
    rw [hl]
    exact mem_append_right _ (mem_cons_of_mem e hmem)
  refine ⟨?_, ?_, ?_⟩
  · intro j hj
    by_cases hji : j = i
    · subst hji
      rw [update_self, herase]
      exact hc.unlink hnd (fun x _ hx => by simp at hx)
    · rw [update_of_ne hji]
      have hother : ∀ x ∈ chains j, x ∉ chains i :=
        fun x hx hxi => hji (h.disjoint j i x hj hi hx hxi)
      refine (h.chain j hj).frame (unlink_frame ?_) ?_
      · rcases hhandle with hh | ⟨q, -, hh⟩
        · rw [hh]
          simpa using hji
        · rw [hh]
          simp
      · intro x hx
        refine ⟨?_, ?_⟩
        · have hread : (L.unlink e).read (.next x) = L.read (.next x) := by
            apply unlink_frame
            rcases hhandle with hh | ⟨q, hq, hh⟩
            · rw [hh]
              simp
            · rw [hh]
              intro heq
              obtain rfl : x = q := by simpa using heq
              exact hother x hx hq
          exact hread
        · rw [Links.unlink, handle_store, handle_setHandle_of_ne]
          exact fun hb => hother x hx (hnext x hb)
  · intro j hj
    by_cases hji : j = i
    · subst hji
      rw [update_self]
      exact (h.nodup j hj).erase e
    · rw [update_of_ne hji]
      exact h.nodup j hj
  · intro j k x hj hk hxj hxk
    have hsub : ∀ a, x ∈ update chains i ((chains i).erase e) a → x ∈ chains a := by
      intro a hx
      by_cases hai : a = i
      · subst hai
        rw [update_self] at hx
        exact mem_of_mem_erase hx
      · rwa [update_of_ne hai] at hx
    exact h.disjoint j k x hj hk (hsub j hxj) (hsub k hxk)

/-! ### Rehashing -/

/-- Move the nodes of a chain of the old table, from `cur` on, to the front of
the chains their hash gives. -/
def moveChain (hash : Nat → Nat) : Nat → Option Nat → Links → Links
  | 0, _, L => L
  | _ + 1, none, L => L
  | fuel + 1, some e, L => moveChain hash fuel (L.next e) (L.pushFront e (hash e))

/-- Replace the table by an empty one and move the nodes of the `n` old slots
over; `fuel` bounds the length of a chain. -/
def rehash (hash : Nat → Nat) (fuel n : Nat) (L : Links) : Links :=
  (List.range n).foldl (fun M i => moveChain hash fuel (L.tab i) M) { L with tab := fun _ => none }

/-- Following `next` from `cur` yields `l`. -/
def IsPath (L : Links) : Option Nat → List Nat → Prop
  | cur, [] => cur = none
  | cur, e :: l => cur = some e ∧ IsPath L (L.next e) l

theorem IsChain.isPath : ∀ {l : List Nat} {h : Handle}, L.IsChain h l → L.IsPath (L.read h) l := by
  intro l
  induction l with
  | nil =>
    intro h hc
    exact hc
  | cons e l ih =>
    intro h hc
    exact ⟨hc.1, ih hc.2.2⟩

theorem IsPath.frame {L' : Links} : ∀ {l : List Nat} {cur : Option Nat}, L.IsPath cur l →
    (∀ e ∈ l, L'.next e = L.next e) → L'.IsPath cur l := by
  intro l
  induction l with
  | nil =>
    intro cur hp _
    exact hp
  | cons e l ih =>
    intro cur hp hl
    refine ⟨hp.1, ?_⟩
    rw [hl e mem_cons_self]
    exact ih hp.2 fun x hx => hl x (mem_cons_of_mem e hx)

theorem IsPath.unique : ∀ {l l' : List Nat} {cur : Option Nat}, L.IsPath cur l →
    L.IsPath cur l' → l = l' := by
  intro l
  induction l with
  | nil =>
    intro l' cur hp hp'
    cases l' with
    | nil => rfl
    | cons e l' => exact absurd (hp.symm.trans hp'.1) (by simp)
  | cons e l ih =>
    intro l' cur hp hp'
    cases l' with
    | nil => exact absurd (hp.1.symm.trans hp') (by simp)
    | cons e' l' =>
      obtain rfl : e = e' := Option.some.inj (hp.1.symm.trans hp'.1)
      rw [ih hp.2 hp'.2]

/-- Node `e` hangs on chain `i`. -/
def On (L : Links) (i e : Nat) : Prop := ∃ l, L.IsPath (L.tab i) l ∧ e ∈ l

theorem TableOk.on_iff (h : L.TableOk n chains)
    {i : Nat} (hi : i < n) (e : Nat) : L.On i e ↔ e ∈ chains i := by
  have hpath : L.IsPath (L.tab i) (chains i) := (h.chain i hi).isPath
  constructor
  · rintro ⟨l, hl, he⟩
    rwa [← hl.unique hpath]
  · intro he
    exact ⟨chains i, hpath, he⟩

/-- Moving one chain. -/
theorem moveChain_spec {hash : Nat → Nat} : ∀ {fuel : Nat} {l : List Nat} {cur : Option Nat}
    {L : Links} {chains : Nat → List Nat}, L.TableOk n chains → L.IsPath cur l → l.Nodup →
    (∀ e ∈ l, hash e < n ∧ ∀ j, j < n → e ∉ chains j) → l.length ≤ fuel →
    (∀ x, x ∉ l → (moveChain hash fuel cur L).next x = L.next x) ∧
      ∃ chains', (moveChain hash fuel cur L).TableOk n chains' ∧
        ∀ j e, e ∈ chains' j ↔ e ∈ chains j ∨ (e ∈ l ∧ hash e = j) := by
  intro fuel
  induction fuel with
  | zero =>
    intro l cur L chains hL _ _ _ hlen
    have hnil : l = [] := length_eq_zero_iff.mp (Nat.le_zero.mp hlen)
    subst hnil
    exact ⟨fun _ _ => rfl, chains, hL, by simp⟩
  | succ fuel ih =>
    intro l cur L chains hL hp hnd hl hlen
    cases l with
    | nil =>
      obtain rfl : cur = none := hp
      exact ⟨fun _ _ => rfl, chains, hL, by simp⟩
    | cons e l =>
      obtain ⟨rfl, hp⟩ := hp
      obtain ⟨hnotin, hnd⟩ := nodup_cons.mp hnd
      obtain ⟨hhash, hout⟩ := hl e mem_cons_self
      have hne : ∀ x ∈ l, x ≠ e := fun x hx he => hnotin (he ▸ hx)
      have hL' := hL.pushFront hhash hout
      have hl' : ∀ x ∈ l, hash x < n ∧ ∀ j, j < n → x ∉ update chains (hash e)
        (e :: chains (hash e)) j := by
        intro x hx
        obtain ⟨h1, h2⟩ := hl x (mem_cons_of_mem e hx)
        refine ⟨h1, fun j hj hmem => ?_⟩
        by_cases hje : j = hash e
        · subst hje
          rw [update_self] at hmem
          rcases mem_cons.mp hmem with he | hmem
          · exact hne x hx he
          · exact h2 _ hj hmem
        · rw [update_of_ne hje] at hmem
          exact h2 j hj hmem
      obtain ⟨hnext, chains', hok, hmem⟩ := ih hL'
        (hp.frame fun x hx => next_pushFront_of_ne L (hne x hx) _) hnd hl'
        (Nat.le_of_succ_le_succ hlen)
      refine ⟨fun x hx => ?_, chains', hok, fun j x => ?_⟩
      · rw [moveChain, hnext x fun h => hx (mem_cons_of_mem e h)]
        have hxe : x ≠ e := by
          rintro rfl
          exact hx mem_cons_self
        exact next_pushFront_of_ne L hxe _
      · rw [hmem j x]
        by_cases hje : j = hash e
        · subst hje
          by_cases hxe : x = e
          · simp [hxe]
          · simp [hxe]
        · rw [update_of_ne hje]
          by_cases hxe : x = e
          · subst hxe
            simp [Ne.symm hje]
          · simp [hxe]

/-- **Rehashing**: afterwards every node is on the chain its hash gives. -/
theorem rehash_spec {m fuel : Nat} (hash : Nat → Nat)
    (h : L.TableOk n chains) (hhash : ∀ i e, i < n → e ∈ chains i → hash e < m)
    (hfuel : ∀ i, i < n → (chains i).length ≤ fuel) :
    ∃ chains', (rehash hash fuel n L).TableOk m chains' ∧
      ∀ j e, e ∈ chains' j ↔ (∃ i, i < n ∧ e ∈ chains i) ∧ hash e = j := by
  -- after `k` slots: their nodes are moved, the other chains can still be followed
  have hloop : ∀ k, k ≤ n → (∀ x, (∀ i, i < k → x ∉ chains i) →
        ((range k).foldl (fun M i => moveChain hash fuel (L.tab i) M)
          { L with tab := fun _ => none }).next x = L.next x) ∧
      ∃ chains', ((range k).foldl (fun M i => moveChain hash fuel (L.tab i) M)
          { L with tab := fun _ => none }).TableOk m chains' ∧
        ∀ j e, e ∈ chains' j ↔ (∃ i, i < k ∧ e ∈ chains i) ∧ hash e = j := by
    intro k
    induction k with
    | zero =>
      intro _
      refine ⟨fun x _ => rfl, fun _ => [], ⟨?_, ?_, ?_⟩, ?_⟩
      · intro i _
        exact rfl
      · intro i _
        exact nodup_nil
      · intro i j e _ _ he
        exact absurd he (by simp)
      · intro j e
        simp
    | succ k ih =>
      intro hk
      obtain ⟨hnext, chains', hok, hmem⟩ := ih (by omega)
      rw [range_succ, foldl_append, foldl_cons, foldl_nil]
      have hkn : k < n := by omega
      have hfresh : ∀ e ∈ chains k, ∀ i, i < k → e ∉ chains i := by
        intro e he i hi hei
        have := h.disjoint i k e (by omega) hkn hei he
        omega
      have hpath : ((range k).foldl (fun M i => moveChain hash fuel (L.tab i) M)
          { L with tab := fun _ => none }).IsPath (L.tab k) (chains k) :=
        ((h.chain k hkn).isPath).frame fun e he => hnext e (hfresh e he)
      obtain ⟨hnext', chains'', hok', hmem'⟩ := moveChain_spec hok hpath
        (h.nodup k hkn) (fun e he => ⟨hhash k e hkn he, fun j _ hej => by
          obtain ⟨⟨i, hi, hei⟩, -⟩ := (hmem j e).mp hej
          exact hfresh e he i hi hei⟩) (hfuel k hkn)
      refine ⟨fun x hx => ?_, chains'', hok', fun j e => ?_⟩
      · rw [hnext' x (hx k (Nat.lt_succ_self k)), hnext x fun i hi => hx i (by omega)]
      · rw [hmem' j e, hmem j e]
        constructor
        · rintro (⟨⟨i, hi, hei⟩, hj⟩ | ⟨hek, hj⟩)
          · exact ⟨⟨i, by omega, hei⟩, hj⟩
          · exact ⟨⟨k, by omega, hek⟩, hj⟩
        · rintro ⟨⟨i, hi, hei⟩, hj⟩
          by_cases hik : i = k
          · exact .inr ⟨hik ▸ hei, hj⟩
          · exact .inl ⟨⟨i, by omega, hei⟩, hj⟩
  obtain ⟨-, hres⟩ := hloop n (Nat.le_refl n)
  exact hres

end Links

end CharmRuntime.Lib
