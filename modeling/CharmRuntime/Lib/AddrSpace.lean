import CharmRuntime.Lib.MemVal

/-!
# Lib.AddrSpace

An **address space**: symbolic bytes at integer addresses, some of them mapped.

Reads and writes of unmapped addresses fail. What a write does is said once, by
`Wrote`: the bytes are there, everything else is as before, and the same addresses
are mapped. Programs with pointers into such a memory are verified by its frame
lemmas.
-/

namespace CharmRuntime.Lib

open Option

/-- The byte at each address; `none` where nothing is mapped. -/
abbrev AddrSpace := Int → Option MemVal

namespace AddrSpace

/-- The addresses from `a` on, `n` of them, are mapped. -/
def Mapped (m : AddrSpace) (a n : Int) : Prop := ∀ x, a ≤ x → x < a + n → (m x).isSome = true

/-- Read `n` bytes. -/
def readBytes (m : AddrSpace) : Int → Nat → Option (List MemVal)
  | _, 0 => some []
  | a, n + 1 => do
      let b ← m a
      let rest ← m.readBytes (a + 1) n
      some (b :: rest)

/-- Write some bytes. -/
def writeBytes : AddrSpace → Int → List MemVal → Option AddrSpace
  | m, _, [] => some m
  | m, a, b :: bs =>
    if (m a).isSome then writeBytes (Function.update m a (some b)) (a + 1) bs else none

/-- Read an 8-byte integer. -/
def load8 (m : AddrSpace) (a : Int) : Option Int := m.readBytes a 8 >>= MemVal.decodeInt 8

/-- Write an 8-byte integer. -/
def store8 (m : AddrSpace) (a v : Int) : Option AddrSpace := m.writeBytes a (MemVal.encodeInt 8 v)

/-- Map `n` fresh bytes from `a` on. -/
def map (m : AddrSpace) (a n : Int) : AddrSpace :=
  fun x => if a ≤ x ∧ x < a + n then some (.byte 0) else m x

/-- Unmap `n` bytes from `a` on. -/
def unmap (m : AddrSpace) (a n : Int) : AddrSpace :=
  fun x => if a ≤ x ∧ x < a + n then none else m x

/-! ### Frames -/

variable {m m' : AddrSpace} {a : Int}

theorem readBytes_congr : ∀ {n : Nat} {a : Int},
    (∀ x, a ≤ x → x < a + n → m' x = m x) → m'.readBytes a n = m.readBytes a n := by
  intro n
  induction n with
  | zero => intro a _; rfl
  | succ n ih =>
    intro a h
    rw [readBytes, readBytes, h a (Int.le_refl a) (by omega), ih]
    intro x _ _
    exact h x (by omega) (by omega)

theorem load8_congr (h : ∀ x, a ≤ x → x < a + 8 → m' x = m x) : m'.load8 a = m.load8 a := by
  rw [load8, load8, readBytes_congr h]

theorem readBytes_of_mapped :
    ∀ {n : Nat} {a : Int}, m.Mapped a n → ∃ bs, m.readBytes a n = some bs := by
  intro n
  induction n with
  | zero => intro a _; exact ⟨[], rfl⟩
  | succ n ih =>
    intro a h
    obtain ⟨b, hb⟩ := isSome_iff_exists.mp (h a (Int.le_refl a) (by omega))
    obtain ⟨bs, hbs⟩ := ih (a := a + 1) (fun x h1 h2 => h x (by omega) (by omega))
    exact ⟨b :: bs, by rw [readBytes, hb, hbs]; rfl⟩

theorem length_readBytes : ∀ {n : Nat} {a : Int} {bs : List MemVal},
    m.readBytes a n = some bs → bs.length = n := by
  intro n
  induction n with
  | zero =>
    intro a bs h
    obtain rfl := some.inj h
    rfl
  | succ n ih =>
    intro a bs h
    obtain ⟨b, -, h⟩ := bind_eq_some_iff.mp h
    obtain ⟨rest, hrest, h⟩ := bind_eq_some_iff.mp h
    obtain rfl := some.inj h
    rw [List.length_cons, ih hrest]

/-- A read is made of the reads of its two parts. -/
theorem readBytes_add : ∀ (n k : Nat) (a : Int) {xs ys : List MemVal},
    m.readBytes a n = some xs → m.readBytes (a + n) k = some ys →
    m.readBytes a (n + k) = some (xs ++ ys) := by
  intro n
  induction n with
  | zero =>
    intro k a xs ys hx hy
    obtain rfl := some.inj hx
    simpa using hy
  | succ n ih =>
    intro k a xs ys hx hy
    obtain ⟨b, hb, hx⟩ := bind_eq_some_iff.mp hx
    obtain ⟨rest, hrest, hx⟩ := bind_eq_some_iff.mp hx
    obtain rfl := some.inj hx
    have hy' : m.readBytes (a + 1 + n) k = some ys := by
      rw [← hy]
      congr 1
      omega
    have hn : n + 1 + k = n + k + 1 := by omega
    rw [hn, readBytes, hb, ih k (a + 1) hrest hy']
    rfl

/-- Two reads of the same bytes agree on their parts. -/
theorem readBytes_parts {a' : Int} (n k : Nat) {bs : List MemVal}
    (h : m.readBytes a (n + k) = some bs) (h' : m'.readBytes a' (n + k) = some bs) :
    m'.readBytes a' n = m.readBytes a n ∧ m'.readBytes (a' + n) k = m.readBytes (a + n) k := by
  have hparts : ∀ {m : AddrSpace} {a : Int}, m.readBytes a (n + k) = some bs →
      m.readBytes a n = some (bs.take n) ∧ m.readBytes (a + n) k = some (bs.drop n) := by
    intro m a h
    have hmap : ∀ (j : Nat) {c : Int} {l : List MemVal}, m.readBytes c j = some l →
      m.Mapped c j := by
      intro j
      induction j with
      | zero => intro c l _ x h1 h2; omega
      | succ j ih =>
        intro c l hl x h1 h2
        obtain ⟨b, hb, hl⟩ := bind_eq_some_iff.mp hl
        obtain ⟨rest, hrest, -⟩ := bind_eq_some_iff.mp hl
        by_cases hx : x = c
        · rw [hx, hb]
          rfl
        · exact ih hrest x (by omega) (by omega)
    have hm := hmap (n + k) h
    obtain ⟨xs, hxs⟩ := readBytes_of_mapped (n := n) (fun x h1 h2 => hm x h1 (by omega))
    obtain ⟨ys, hys⟩ :=
      readBytes_of_mapped (a := a + n) (n := k) (fun x h1 h2 => hm x (by omega) (by omega))
    have heq := readBytes_add n k a hxs hys
    rw [h] at heq
    obtain rfl := some.inj heq
    have hlen := length_readBytes hxs
    rw [hxs, hys, List.take_left' hlen, List.drop_left' hlen]
    exact ⟨rfl, rfl⟩
  obtain ⟨h1, h2⟩ := hparts h
  obtain ⟨h3, h4⟩ := hparts h'
  exact ⟨h3.trans h1.symm, h4.trans h2.symm⟩

/-! ### Writes -/

/-- `m'` is `m` with the bytes `bs` written at `a`. -/
structure Wrote (m : AddrSpace) (a : Int) (bs : List MemVal) (m' : AddrSpace) : Prop where
  read : m'.readBytes a bs.length = some bs
  frame : ∀ x, x < a ∨ a + bs.length ≤ x → m' x = m x
  dom : ∀ x, (m' x).isSome = (m x).isSome

theorem writeBytes_spec : ∀ (bs : List MemVal) {m : AddrSpace} {a : Int}, m.Mapped a bs.length →
    ∃ m', m.writeBytes a bs = some m' ∧ Wrote m a bs m' := by
  intro bs
  induction bs with
  | nil =>
    intro m a _
    exact ⟨m, rfl, rfl, fun _ _ => rfl, fun _ => rfl⟩
  | cons b bs ih =>
    intro m a h
    have hlen : ((b :: bs).length) = bs.length + 1 := by simp
    have ha : (m a).isSome = true := h a (Int.le_refl a) (by omega)
    have hdom : ∀ x, (Function.update m a (some b) x).isSome = (m x).isSome := by
      intro x
      by_cases hx : x = a
      · rw [hx, Function.update_self, ha]
        rfl
      · rw [Function.update_of_ne hx]
    obtain ⟨m', heq, hw⟩ := ih (a := a + 1) (by
      intro x _ _
      rw [hdom]
      exact h x (by omega) (by omega))
    refine ⟨m', ?_, ?_, ?_, ?_⟩
    · rw [writeBytes, if_pos ha, heq]
    · have hb : m' a = some b := by
        rw [hw.frame a (.inl (by omega)), Function.update_self]
      rw [List.length_cons, readBytes, hb, hw.read]
      rfl
    · intro x hx
      rw [hw.frame x (by omega), Function.update_of_ne (by omega)]
    · intro x
      rw [hw.dom, hdom]

/-- `m'` is `m` with an 8-byte integer stored at `a`. -/
structure Stored (m : AddrSpace) (a v : Int) (m' : AddrSpace) : Prop where
  load : m'.load8 a = some v
  frame : ∀ x, x < a ∨ a + 8 ≤ x → m' x = m x
  dom : ∀ x, (m' x).isSome = (m x).isSome

theorem store8_spec (v : Int) (h : m.Mapped a 8) :
    ∃ m', m.store8 a v = some m' ∧ Stored m a v m' := by
  have hlen : (MemVal.encodeInt 8 v).length = 8 := MemVal.length_encodeInt 8 v
  obtain ⟨m', heq, hw⟩ := writeBytes_spec (MemVal.encodeInt 8 v) (by
    exact h)
  refine ⟨m', heq, ?_, ?_, hw.dom⟩
  · have hread := hw.read
    rw [hlen] at hread
    rw [load8, hread]
    exact MemVal.decodeInt_encodeInt (n := 8) (by decide) v
  · intro x hx
    refine hw.frame x ?_
    exact hx

theorem Stored.mapped {v lo n : Int} (h : Stored m a v m') (hm : m.Mapped lo n) :
    m'.Mapped lo n := by
  intro x h1 h2
  rw [h.dom]
  exact hm x h1 h2

theorem Stored.load8_of_disjoint {v b : Int} (h : Stored m a v m')
    (hd : b + 8 ≤ a ∨ a + 8 ≤ b) : m'.load8 b = m.load8 b :=
  load8_congr fun x h1 h2 => h.frame x (by omega)

/-! ### Mapping -/

theorem map_of_mem {n x : Int} (h1 : a ≤ x) (h2 : x < a + n) : m.map a n x = some (.byte 0) :=
  if_pos ⟨h1, h2⟩

theorem map_of_not_mem {n x : Int} (h : x < a ∨ a + n ≤ x) : m.map a n x = m x :=
  if_neg (by omega)

theorem mapped_map (m : AddrSpace) (a n : Int) : (m.map a n).Mapped a n := by
  intro x h1 h2
  rw [map_of_mem h1 h2]
  rfl

theorem unmap_of_not_mem {n x : Int} (h : x < a ∨ a + n ≤ x) : m.unmap a n x = m x :=
  if_neg (by omega)

end AddrSpace

end CharmRuntime.Lib
