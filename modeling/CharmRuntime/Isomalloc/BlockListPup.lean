import CharmRuntime.Isomalloc.BlockListSound

/-!
# Isomalloc.BlockListPup

**When the migration of a block list is a round trip**: exactly if no block of the
list was asked for an alignment above 32 (`round_trip_iff`).

The bytes that packing writes are followed block by block (`packBlocks_shape`,
`packBlocks_unmoved`), and unpacking such bytes always succeeds, with every block at the
start of its slots (`unpackBlocks_encode`). For a block that its alignment moved, that
is another address than the one its user has.
-/

namespace CharmRuntime.Isomalloc

open Lib List
open Option (bind_eq_bind bind_eq_some_iff bind_some)
open Prod (fst mk)

/-! ### Unpacking -/

/-- What packing writes for a block, given the bytes it reads. -/
def encodeBlock (e : Live × List MemVal) : List MemVal :=
  MemVal.encodeInt 8 e.1.slot ++ (MemVal.encodeInt 8 e.1.length ++ e.2)

/-- The stream of some blocks. -/
def encodeBlocks : List (Live × List MemVal) → List MemVal
  | [] => []
  | e :: l => encodeBlock e ++ encodeBlocks l

/-- The bytes of a packed block have the length in its header. -/
def Complete (e : Live × List MemVal) : Prop := 0 ≤ e.1.length ∧ e.2.length = e.1.length.toNat

theorem encodeBlock_append (e : Live × List MemVal) (rest : List MemVal) : encodeBlock e ++ rest =
      MemVal.encodeInt 8 e.1.slot ++ (MemVal.encodeInt 8 e.1.length ++ (e.2 ++ rest)) := by
  simp [encodeBlock]

/-- **Unpacking a block** puts its bytes at the start of its slots. -/
theorem pupUnpack_encode (L : Layout) {e : Live × List MemVal} (he : Complete e)
    (rest : List MemVal) (dest : AddrSpace) :
    ∃ access dest', pupUnpack L (encodeBlock e ++ rest) dest =
        some (e.1.lo L + 16, access, dest', rest) ∧ access.Inside L ∧
      dest'.readBytes (e.1.lo L + 16) e.2.length = some e.2 ∧
      ∀ x, x < e.1.lo L ∨ e.1.hi L ≤ x → dest' x = dest x := by
  obtain ⟨b, bytes⟩ := e
  obtain ⟨h0, hlen⟩ := he
  change 0 ≤ b.length at h0
  change bytes.length = b.length.toNat at hlen
  have hhi := b.length_le_hi L
  have hroom : b.lo L + L.slotsize * b.nslots L = b.hi L := (Live.hi_eq L b).symm
  have hs : (encodeBlock (b, bytes) ++ rest).take 8 = MemVal.encodeInt 8 b.slot := by
    rw [encodeBlock_append, take_left' (MemVal.length_encodeInt 8 b.slot)]
  have hrest :
    (encodeBlock (b, bytes) ++ rest).drop 8 = MemVal.encodeInt 8 b.length ++ (bytes ++ rest) := by
    rw [encodeBlock_append, drop_left' (MemVal.length_encodeInt 8 b.slot)]
  have hbytes : (encodeBlock (b, bytes) ++ rest).drop 16 = bytes ++ rest := by
    rw [show 16 = 8 + 8 from rfl, ← drop_drop, hrest,
      drop_left' (MemVal.length_encodeInt 8 b.length)]
  -- the header and the bytes are written into fresh slots
  have hmap := AddrSpace.mapped_map dest (b.lo L) (L.slotsize * b.nslots L)
  obtain ⟨m1, heq1, h1⟩ := AddrSpace.store8_spec b.slot (fun x hx1 hx2 => hmap x hx1 (by omega))
  obtain ⟨m2, heq2, h2⟩ := AddrSpace.store8_spec b.length
    (h1.mapped fun x hx1 hx2 => hmap x (by omega) (by omega) : m1.Mapped (b.lo L + 8) 8)
  obtain ⟨m3, heq3, h3⟩ := AddrSpace.writeBytes_spec bytes
    (h2.mapped (h1.mapped fun x hx1 hx2 => hmap x (by omega) (by omega)) :
      m2.Mapped (b.lo L + 16) bytes.length)
  refine ⟨{ slot := b.slot, nslots := b.nslots L
            ranges := [(b.lo L, b.lo L + 16), (b.lo L + 16, b.lo L + 16 + b.length)] },
    m3, ?_, ?_, h3.read, ?_⟩
  · unfold pupUnpack
    rw [hs, hrest, hbytes, take_left' (MemVal.length_encodeInt 8 b.length),
      MemVal.decodeInt_encodeInt (by decide), MemVal.decodeInt_encodeInt (by decide)]
    simp only [bind_eq_bind, bind_some]
    rw [take_left' hlen, drop_left' hlen]
    change (dest.map (L.slot2addr b.slot) (L.slotsize * L.length2slots b.length)).store8
      (L.slot2addr b.slot) b.slot = some m1 at heq1
    change m1.store8 (L.slot2addr b.slot + 8) b.length = some m2 at heq2
    change m2.writeBytes (block2pointer (L.slot2addr b.slot)) bytes = some m3 at heq3
    rw [heq1, bind_some, heq2, bind_some, if_pos hlen, heq3]
    rfl
  · intro r hr
    change b.lo L ≤ r.1 ∧ r.2 ≤ b.hi L
    rcases mem_cons.mp hr with rfl | hr
    · exact ⟨le_refl _, by show b.lo L + 16 ≤ _; omega⟩
    · obtain rfl := mem_singleton.mp hr
      exact ⟨by show _ ≤ b.lo L + 16; omega, hhi⟩
  · intro x hx
    change x < b.lo L ∨ b.hi L ≤ x at hx
    rw [h3.frame x (by omega), h2.frame x (by omega), h1.frame x (by omega),
      AddrSpace.map_of_not_mem (by omega)]

/-- **Unpacking a stream** succeeds, and puts every block at the start of its slots. -/
theorem unpackBlocks_encode (L : Layout) : ∀ (l : List (Live × List MemVal)) (dest : AddrSpace),
    (∀ e ∈ l, Complete e) → (l.map fst).Pairwise (Live.Apart L) →
    ∃ accesses dest', unpackBlocks L l.length (encodeBlocks l) dest =
        some (l.map (fun e => e.1.lo L + 16), accesses, dest') ∧ (∀ a ∈ accesses, a.Inside L) ∧
      (∀ e ∈ l, dest'.readBytes (e.1.lo L + 16) e.2.length = some e.2) ∧
      ∀ x, (∀ e ∈ l, x < e.1.lo L ∨ e.1.hi L ≤ x) → dest' x = dest x := by
  intro l
  induction l with
  | nil =>
    intro dest _ _
    exact ⟨[], dest, rfl, by simp, by simp, fun _ _ => rfl⟩
  | cons e l ih =>
    intro dest hc hp
    obtain ⟨hpe, hpl⟩ := pairwise_cons.mp hp
    have hce := hc e mem_cons_self
    obtain ⟨access, d1, heq1, hin1, hread1, hframe1⟩ :=
      pupUnpack_encode L hce (encodeBlocks l) dest
    obtain ⟨accesses, d2, heq2, hin2, hread2, hframe2⟩ :=
      ih d1 (fun c hcm => hc c (mem_cons_of_mem e hcm)) hpl
    refine ⟨access :: accesses, d2, ?_, ?_, ?_, ?_⟩
    · rw [length_cons, encodeBlocks, unpackBlocks, heq1]
      simp only [bind_eq_bind, bind_some, heq2, map_cons]
    · intro a ha
      rcases mem_cons.mp ha with rfl | ha
      · exact hin1
      · exact hin2 a ha
    · intro c hcm
      rcases mem_cons.mp hcm with rfl | hcm
      · -- the later blocks do not touch this one
        rw [← hread1]
        refine AddrSpace.readBytes_congr ?_
        intro x _ _
        refine hframe2 x ?_
        intro d hd
        have hhi := c.1.length_le_hi L
        have hlen := hce.2
        rcases (hpe d.1 (mem_map_of_mem hd)).addr with ha | ha
        · exact .inl (by omega)
        · exact .inr (by omega)
      · exact hread2 c hcm
    · intro x hx
      rw [hframe2 x (fun c hcm => hx c (mem_cons_of_mem e hcm)), hframe1 x (hx e mem_cons_self)]

/-! ### Packing -/

/-- `m` is still `m0` in the slots of the blocks. -/
def Untouched (L : Layout) (m0 m : AddrSpace) (ls : List Live) : Prop :=
  ∀ b ∈ ls, ∀ x, b.lo L ≤ x → x < b.hi L → m x = m0 x

/-- Each block leads to the next one, the last one to `p`. -/
def LeadsTo (m : AddrSpace) (p : Int) : List Live → Prop
  | [] => True
  | [b] => m.load8 (b.ptr + 8) = some p
  | b :: c :: l => m.load8 (b.ptr + 8) = some c.ptr ∧ LeadsTo m p (c :: l)

/-- What packing needs of the blocks in memory. -/
structure Packable (L : Layout) (m : AddrSpace) (b : Live) : Prop where
  placed : Placed L b
  mapped : ∀ x, b.lo L ≤ x → x < b.hi L → (m x).isSome = true
  header : m.load8 (b.ptr - 16) = some b.slot ∧ m.load8 (b.ptr - 16 + 8) = some b.length

variable {L : Layout} {m0 m : AddrSpace} {b : Live} {p : Int} {ls : List Live} {st : ListState}

theorem Packable.congr (h : Packable L m0 b)
    (heq : ∀ x, b.lo L ≤ x → x < b.hi L → m x = m0 x) : Packable L m b := by
  have hlo := h.placed.lo_le
  have hhi := h.placed.user_le
  refine ⟨h.placed, ?_, header_congr (fun x h1 h2 => heq x (by omega) (by omega)) h.header⟩
  intro x h1 h2
  rw [heq x h1 h2]
  exact h.mapped x h1 h2

/-- The first address of a list of blocks, or `p`. -/
def headPtr (p : Int) (ls : List Live) : Int := (ls.map Live.ptr).headD p

theorem LeadsTo.head
    (h : LeadsTo m p (b :: ls)) : m.load8 (b.ptr + 8) = some (headPtr p ls) ∧ LeadsTo m p ls := by
  cases ls with
  | nil => exact ⟨h, trivial⟩
  | cons c ls => exact h

/-- What is packed of a block: the accesses are the link, the header and the bytes. -/
def packAccess (L : Layout) (b : Live) : Access where
  slot := b.slot
  nslots := b.nslots L
  ranges := [(b.ptr + 8, b.ptr + 16), (b.ptr - 16, b.ptr), (b.ptr, b.ptr + b.length)]

theorem packBlocks_cons {next : Int} (hb : Packable L m b)
    (hnext : m.load8 (b.ptr + 8) = some next) (n : Nat) :
    packBlocks L (n + 1) b.ptr m = (m.readBytes b.ptr b.length.toNat).bind fun bytes =>
        (packBlocks L n next (m.unmap (b.lo L) (L.slotsize * b.nslots L))).bind fun r =>
          some (encodeBlock (b, bytes) ++ r.1, packAccess L b :: r.2.1, r.2.2) := by
  simp only [packBlocks, hnext, pupPack, pointer2block, hb.header.1, hb.header.2,
    bind_eq_bind, Option.bind_assoc]
  rfl

theorem Untouched.unmap (h : Untouched L m0 m (b :: ls)) (hapart : ∀ c ∈ ls, b.Apart L c) :
    Untouched L m0 (m.unmap (b.lo L) (L.slotsize * b.nslots L)) ls := by
  intro c hc x h1 h2
  have hx : x < b.lo L ∨ b.lo L + L.slotsize * b.nslots L ≤ x := by
    rw [← Live.hi_eq]
    rcases (hapart c hc).addr with hd | hd
    · exact .inr (by omega)
    · exact .inl (by omega)
  rw [AddrSpace.unmap_of_not_mem hx]
  exact h c (mem_cons_of_mem b hc) x h1 h2

theorem Untouched.first
    (h : Untouched L m0 m (b :: ls)) (hb : Packable L m0 b) (hlead : LeadsTo m0 p (b :: ls)) :
    Packable L m b ∧ m.load8 (b.ptr + 8) = some (headPtr p ls) := by
  have hsame := h b mem_cons_self
  have hlo := hb.placed.lo_le
  have hhi := hb.placed.user_le
  refine ⟨hb.congr hsame, ?_⟩
  rw [← hlead.head.1]
  exact AddrSpace.load8_congr fun x h1 h2 => hsame x (by omega) (by omega)

/-- **The shape of what is packed**, whatever was read. -/
theorem packBlocks_shape : ∀ (ls : List Live) (m : AddrSpace),
    (∀ b ∈ ls, Packable L m0 b) → ls.Pairwise (Live.Apart L) → LeadsTo m0 p ls →
    Untouched L m0 m ls → ∀ {stream accesses mem},
    packBlocks L ls.length (headPtr p ls) m = some (stream, accesses, mem) →
    ∃ es, es.map fst = ls ∧ (∀ e ∈ es, Complete e) ∧ stream = encodeBlocks es := by
  intro ls
  induction ls with
  | nil =>
    intro m _ _ _ _ stream accesses mem heq
    obtain ⟨rfl, -⟩ := mk.inj (Option.some.inj heq)
    exact ⟨[], rfl, by simp, rfl⟩
  | cons b ls ih =>
    intro m hpack hapart hlead hun stream accesses mem heq
    obtain ⟨hab, hal⟩ := pairwise_cons.mp hapart
    have hb := hpack b mem_cons_self
    obtain ⟨hbm, hnext⟩ := hun.first hb hlead
    change packBlocks L (ls.length + 1) b.ptr m = _ at heq
    rw [packBlocks_cons hbm hnext] at heq
    obtain ⟨bytes, hbytes, heq⟩ := bind_eq_some_iff.mp heq
    obtain ⟨⟨rest, accs, mem'⟩, hrest, heq⟩ := bind_eq_some_iff.mp heq
    obtain ⟨rfl, -⟩ := mk.inj (Option.some.inj heq)
    obtain ⟨es, rfl, hes, rfl⟩ := ih _ (fun c hc => hpack c (mem_cons_of_mem b hc)) hal
      hlead.head.2 (hun.unmap hab) hrest
    refine ⟨(b, bytes) :: es, rfl, ?_, rfl⟩
    intro e he
    rcases mem_cons.mp he with rfl | he
    · have hge := hb.placed.length_ge
      exact ⟨by show 0 ≤ b.length; omega, AddrSpace.length_readBytes hbytes⟩
    · exact hes e he

/-- **Packing unmoved blocks** succeeds, and stays inside their slots. -/
theorem packBlocks_unmoved : ∀ (ls : List Live)
    (m : AddrSpace), (∀ b ∈ ls, Packable L m0 b) → (∀ b ∈ ls, b.ptr = b.lo L + 16) →
    ls.Pairwise (Live.Apart L) → LeadsTo m0 p ls → Untouched L m0 m ls →
    ∃ es accesses mem, packBlocks L ls.length (headPtr p ls) m =
    some (encodeBlocks es, accesses, mem) ∧
      es.map fst = ls ∧ (∀ e ∈ es, m0.readBytes e.1.ptr e.1.length.toNat = some e.2) ∧
      ∀ a ∈ accesses, a.Inside L := by
  intro ls
  induction ls with
  | nil =>
    intro m _ _ _ _ _
    exact ⟨[], [], m, rfl, rfl, by simp, by simp⟩
  | cons b ls ih =>
    intro m hpack hptr hapart hlead hun
    obtain ⟨hab, hal⟩ := pairwise_cons.mp hapart
    have hb := hpack b mem_cons_self
    have hbp := hptr b mem_cons_self
    have hge := hb.placed.length_ge
    have hhi := b.length_le_hi L
    obtain ⟨hbm, hnext⟩ := hun.first hb hlead
    obtain ⟨es, accs, mem, hrest, hfst, hread, hin⟩ :=
      ih _ (fun c hc => hpack c (mem_cons_of_mem b hc))
      (fun c hc => hptr c (mem_cons_of_mem b hc)) hal hlead.head.2 (hun.unmap hab)
    obtain ⟨bytes, hbytes⟩ := AddrSpace.readBytes_of_mapped (a := b.ptr)
      (n := b.length.toNat) (fun x h1 h2 => hb.mapped x (by omega) (by omega))
    have hbytes' : m.readBytes b.ptr b.length.toNat = some bytes := by
      rw [← hbytes]
      exact AddrSpace.readBytes_congr fun x h1 h2 =>
        hun b mem_cons_self x (by omega) (by omega)
    refine ⟨(b, bytes) :: es, packAccess L b :: accs, mem, ?_, by rw [map_cons, hfst], ?_, ?_⟩
    · show packBlocks L (ls.length + 1) b.ptr m = _
      rw [packBlocks_cons hbm hnext, hbytes', hrest]
      rfl
    · intro e he
      rcases mem_cons.mp he with rfl | he
      · exact hbytes
      · exact hread e he
    · intro a ha
      rcases mem_cons.mp ha with rfl | ha
      · intro r hr
        change b.lo L ≤ r.1 ∧ r.2 ≤ b.hi L
        simp only [packAccess, mem_cons, not_mem_nil, or_false] at hr
        rcases hr with rfl | rfl | rfl
        · exact ⟨by show _ ≤ b.ptr + 8; omega, by show b.ptr + 16 ≤ _; omega⟩
        · exact ⟨by show _ ≤ b.ptr - 16; omega, by show b.ptr ≤ _; omega⟩
        · exact ⟨by show _ ≤ b.ptr; omega, by show b.ptr + b.length ≤ _; omega⟩
      · exact hin a ha

/-! ### The whole list -/

theorem countBlocks_eq : ∀ (ls : List Live) (fuel k : Nat), LeadsTo m p ls → (∀ b ∈ ls, b.ptr ≠ p) →
    countBlocks m p fuel (headPtr p ls) k = if ls.length <
    fuel then some (k + ls.length) else none := by
  intro ls
  induction ls with
  | nil =>
    intro fuel k _ _
    cases fuel with
    | zero => rfl
    | succ fuel => simp [countBlocks, headPtr]
  | cons b ls ih =>
    intro fuel k hlead hne
    cases fuel with
    | zero => rfl
    | succ fuel =>
      have hbp : headPtr p (b :: ls) = b.ptr := rfl
      rw [hbp, countBlocks, if_neg (hne b mem_cons_self), hlead.head.1, bind_eq_bind, bind_some,
        ih fuel (k + 1) hlead.head.2 (fun c hc => hne c (mem_cons_of_mem b hc))]
      simp only [length_cons, Nat.add_lt_add_iff_right]
      rw [show k + 1 + ls.length = k + (ls.length + 1) by omega]

theorem leadsTo_of_linked : ∀ {ls : List Live},
    Linked (fun p => m.load8 (p + 8)) (fun p => m.load8 p) (ls.map Live.ptr ++ [p]) →
    LeadsTo m p ls := by
  intro ls
  induction ls with
  | nil => intro _; exact trivial
  | cons b ls ih =>
    intro h
    cases ls with
    | nil => exact h.1.1
    | cons c ls => exact ⟨h.1.1, ih h.2⟩

namespace Inv

variable {L : Layout} {st : ListState}

theorem packable (hinv : Inv L st) : ∀ b ∈ st.live, Packable L st.heap.mem b :=
  fun b hb => ⟨hinv.placed b hb, hinv.mapped b hb, hinv.header b hb⟩

theorem exists_first (hinv : Inv L st) : ∃ h r, st.live = h :: r ∧ h.ptr = st.lp := by
  have hfirst := hinv.first
  cases hlive : st.live with
  | nil =>
    rw [hlive] at hfirst
    exact absurd hfirst (by simp)
  | cons h r =>
    rw [hlive] at hfirst
    exact ⟨h, r, rfl, Option.some.inj hfirst⟩

theorem headPtr_live (hinv : Inv L st) : headPtr st.lp st.live = st.lp := by
  obtain ⟨h, r, hlive, hlp⟩ := hinv.exists_first
  rw [hlive]
  exact hlp

theorem leadsTo (hinv : Inv L st) : LeadsTo st.heap.mem st.lp st.live := by
  obtain ⟨h, r, hlive, hlp⟩ := hinv.exists_first
  have hring := hinv.ring.ring
  rw [hlive] at hring ⊢
  rw [← hlp]
  exact leadsTo_of_linked hring

theorem blockListPack_eq (hinv : Inv L st) (fuel : Nat) : blockListPack L fuel st.lp st.heap.mem =
      if st.live.length ≤ fuel then
        (packBlocks L st.live.length st.lp st.heap.mem).bind fun r =>
          some (MemVal.encodeInt 4 st.live.length ++ r.1, r.2.1, r.2.2)
      else none := by
  obtain ⟨h, r, hlive, hlp⟩ := hinv.exists_first
  have hlead := hinv.leadsTo
  have hne : ∀ b ∈ r, b.ptr ≠ st.lp := by
    intro b hb heq
    have hnd := hinv.ring.nodup
    rw [hlive] at hnd
    exact (nodup_cons.mp hnd).1 (by rw [hlp, ← heq]; exact mem_map_of_mem hb)
  rw [hlive] at hlead
  have hload := hlead.head.1
  rw [hlp] at hload
  unfold blockListPack
  rw [hload, bind_eq_bind, bind_some, countBlocks_eq r fuel 1 hlead.head.2 hne, hlive, length_cons]
  have hlen : 1 + r.length = r.length + 1 := by omega
  by_cases hfuel : r.length < fuel
  · rw [if_pos hfuel, if_pos (by omega), hlen]
    rfl
  · rw [if_neg hfuel, if_neg (by omega)]
    rfl

end Inv

theorem blockListUnpack_encode (L : Layout) {es : List (Live × List MemVal)}
    (hc : ∀ e ∈ es, Complete e) (hp : (es.map fst).Pairwise (Live.Apart L)) (dest : AddrSpace) :
    ∃ accesses dest', blockListUnpack L (MemVal.encodeInt 4 es.length ++ encodeBlocks es) dest =
        some (es.map (fun e => e.1.lo L + 16), accesses, dest') ∧ (∀ a ∈ accesses, a.Inside L) ∧
      ∀ e ∈ es, dest'.readBytes (e.1.lo L + 16) e.2.length = some e.2 := by
  obtain ⟨accesses, dest', heq, hin, hread, -⟩ := unpackBlocks_encode L es dest hc hp
  refine ⟨accesses, dest', ?_, hin, hread⟩
  have h4 := MemVal.length_encodeInt 4 es.length
  unfold blockListUnpack
  rw [take_left' h4, MemVal.decodeInt_encodeInt (by decide)]
  exact heq

theorem roundTrip_of_unmoved (hinv : Inv L st)
    (hptr : ∀ b ∈ st.live, b.ptr = b.lo L + 16) : RoundTrip L st := by
  obtain ⟨es, accesses, mem, hpack, hfst, hread, hin⟩ := packBlocks_unmoved st.live st.heap.mem
    hinv.packable hptr hinv.apart hinv.leadsTo (fun _ _ _ _ _ => rfl)
  rw [hinv.headPtr_live] at hpack
  have hlen : es.length = st.live.length := by rw [← hfst, length_map]
  have hmem : ∀ e ∈ es, e.1 ∈ st.live := fun e he => hfst ▸ mem_map_of_mem he
  have hc : ∀ e ∈ es, Complete e := by
    intro e he
    have hge := (hinv.placed e.1 (hmem e he)).length_ge
    exact ⟨by omega, AddrSpace.length_readBytes (hread e he)⟩
  refine ⟨st.live.length, MemVal.encodeInt 4 st.live.length ++ encodeBlocks es, accesses, mem,
    ?_, hin, ?_⟩
  · rw [hinv.blockListPack_eq, if_pos (le_refl _), hpack]
    rfl
  · intro dest
    obtain ⟨accesses', dest', heq, hin', hback⟩ :=
      blockListUnpack_encode L hc (hfst.symm ▸ hinv.apart) dest
    rw [hlen] at heq
    have hptrs : es.map (fun e => e.1.lo L + 16) = st.live.map Live.ptr := by
      rw [← hfst, map_map]
      refine map_congr_left ?_
      intro e he
      exact (hptr e.1 (hmem e he)).symm
    refine ⟨_, accesses', dest', heq, hin', ?_, hptrs, ?_⟩
    · rw [hptrs, head?_map]
      exact hinv.first
    · intro b hb
      obtain ⟨e, he, rfl⟩ := mem_map.mp (hfst.symm ▸ hb)
      have hge := (hinv.placed e.1 hb).length_ge
      have hsplit :
        e.1.length.toNat = (16 + e.1.nBytes) + (e.1.length.toNat - (16 + e.1.nBytes)) := by
        omega
      have hold := hread e he
      have hnew := hback e he
      rw [(hc e he).2, ← hptr e.1 hb] at hnew
      rw [hsplit] at hold hnew
      obtain ⟨hsame, -⟩ := AddrSpace.readBytes_parts _ _ hold hnew
      refine ⟨?_, hsame⟩
      rw [hsame]
      have hlo := (hinv.placed e.1 hb).lo_le
      have hhi := (hinv.placed e.1 hb).user_le
      obtain ⟨bytes, hbytes⟩ := AddrSpace.readBytes_of_mapped (a := e.1.ptr) (n := 16 + e.1.nBytes)
        (fun x h1 h2 => hinv.mapped e.1 hb x (by omega) (by omega))
      rw [hbytes]
      rfl

theorem unmoved_of_roundTrip (hinv : Inv L st) (h : RoundTrip L st) :
    ∀ b ∈ st.live, b.ptr = b.lo L + 16 := by
  obtain ⟨fuel, stream, accesses, mem, hpack, -, hback⟩ := h
  rw [hinv.blockListPack_eq] at hpack
  split at hpack
  · obtain ⟨⟨bytes, accs, mem'⟩, hblocks, hpack⟩ := bind_eq_some_iff.mp hpack
    obtain ⟨rfl, -⟩ := mk.inj (Option.some.inj hpack)
    have hlp := hinv.headPtr_live
    rw [← hlp] at hblocks
    obtain ⟨es, hfst, hc, rfl⟩ := packBlocks_shape st.live st.heap.mem hinv.packable hinv.apart
      (hlp.symm ▸ hinv.leadsTo) (fun _ _ _ _ _ => rfl) hblocks
    -- wherever it is unpacked, every block is at the start of its slots
    obtain ⟨ptrs, accesses', dest', heq, -, -, hptrs, -⟩ := hback (fun _ => none)
    obtain ⟨accesses'', dest'', heq', -⟩ :=
      blockListUnpack_encode L hc (hfst.symm ▸ hinv.apart) (fun _ => none)
    have hlen : es.length = st.live.length := by rw [← hfst, length_map]
    rw [hlen] at heq'
    obtain ⟨rfl, -⟩ := mk.inj (Option.some.inj (heq.symm.trans heq'))
    rw [← hfst, map_map] at hptrs
    intro b hb
    obtain ⟨e, he, rfl⟩ := mem_map.mp (hfst.symm ▸ hb)
    exact (map_inj_left.mp hptrs e he).symm
  · exact absurd hpack (by simp)

/-- **Migration of a block list is a round trip exactly if no block of it was asked for an
alignment above 32.** -/
theorem round_trip_iff (L : Layout) {st : ListState} (h : (listSystem L).Reachable st) :
    RoundTrip L st ↔ ∀ b ∈ st.live, ∀ a, b.align = some a → a ≤ 32 := by
  have hinv := inv_reachable h
  constructor
  · intro hround b hb
    exact (hinv.placed b hb).unmoved_iff.mp (unmoved_of_roundTrip hinv hround b hb)
  · intro halign
    exact roundTrip_of_unmoved hinv fun b hb => (hinv.placed b hb).unmoved_iff.mpr (halign b hb)

/-- Slots of 16 kB. -/
def smallSlots : Layout := ⟨65536, 16384, by decide, by decide, by decide⟩

/-- 16 free slots and nothing mapped. -/
def emptyHeap : PeHeap := { mem := fun _ => none, myss := Blocks.newSlotset 0 16 }

theorem exists_newList : ∃ st, (listSystem smallSlots).init st ∧ st.heap.myss = [⟨1, 15⟩] ∧
    st.live = [{ ptr := 65552, slot := 0, length := 16, nBytes := 0, align := none }] := by
  have hget : GetSlots emptyHeap.myss (smallSlots.length2slots 16) 0 :=
    ⟨⟨0, 16⟩, mem_singleton.mpr rfl, rfl, by decide⟩
  have hl : emptyHeap.myss.Coalesced := Blocks.newSlotset_coalesced (by decide) (by decide)
  obtain ⟨ret, heap, heq, -⟩ := inv_new hl hget
  have hres : (blockListNew smallSlots 0 emptyHeap).map (fun r => (r.1, r.2.myss)) =
      some (65552, [⟨1, 15⟩]) := by rfl
  rw [heq] at hres
  obtain ⟨rfl, hmyss⟩ := mk.inj (Option.some.inj hres)
  exact ⟨⟨heap, 65552, _⟩, ⟨0, 65552, emptyHeap, hl, hget, heq, rfl, rfl⟩, hmyss, rfl⟩

theorem exists_alignedList (align : Nat) (hok : 100 + 16 + effectiveAlign align < 2 ^ 14 - 16) :
    ∃ st, (listSystem smallSlots).Trace [.mallocAlign align 100] st ∧
      ∃ h b, st.live = [h, b] ∧ h.align = none ∧ b.align = some align := by
  obtain ⟨st, hinit, hmyss, hlive⟩ := exists_newList
  have hinv := inv_reachable (Transition.Reachable.init hinit)
  have hget :
    GetSlots st.heap.myss (smallSlots.length2slots (100 + 16 + effectiveAlign align)) 1 := by
    rw [hmyss]
    refine ⟨⟨1, 15⟩, mem_singleton.mpr rfl, rfl, ?_⟩
    show (16 + (100 + 16 + (effectiveAlign align : Int)) + 16384 - 1) / 16384 ≤ 15
    omega
  obtain ⟨user, heap, heq, -⟩ := inv_mallocAlign hinv hget
  refine ⟨_, Transition.Trace.step (Transition.Trace.init hinit)
    ⟨show 100 + 16 + effectiveAlign align < 2 ^ 31 by omega, 1, user, heap, hget, heq, rfl⟩, ?_⟩
  rw [hlive]
  exact ⟨_, _, rfl, rfl, rfl⟩

/-- A block aligned to 32 makes the round trip. -/
theorem round_trip_iff_align32 :
    ∃ st, (listSystem smallSlots).Trace [.mallocAlign 32 100] st ∧ RoundTrip smallSlots st := by
  obtain ⟨st, htrace, h, b, hlive, hh, hb⟩ := exists_alignedList 32 (by decide)
  refine ⟨st, htrace, (round_trip_iff smallSlots htrace.reachable).mpr ?_⟩
  intro c hc a ha
  rw [hlive] at hc
  rcases mem_cons.mp hc with rfl | hc
  · rw [hh] at ha
    exact absurd ha (by simp)
  · obtain rfl := mem_singleton.mp hc
    rw [hb] at ha
    obtain rfl := Option.some.inj ha
    decide

/-- A block aligned to 64 does not. -/
theorem aligned_block_moves_back :
    ∃ st, (listSystem smallSlots).Trace [.mallocAlign 64 100] st ∧ ¬ RoundTrip smallSlots st := by
  obtain ⟨st, htrace, h, b, hlive, -, hb⟩ := exists_alignedList 64 (by decide)
  refine ⟨st, htrace, fun hround => ?_⟩
  have hinv := inv_reachable htrace.reachable
  have hmem : b ∈ st.live := by
    rw [hlive]
    simp
  have hle := (hinv.placed b hmem).unmoved_iff.mp (unmoved_of_roundTrip hinv hround b hmem) 64 hb
  exact absurd hle (by decide)

end CharmRuntime.Isomalloc
