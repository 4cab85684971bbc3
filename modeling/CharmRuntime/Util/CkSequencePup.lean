import CharmRuntime.Util.CkSequenceCompact

/-!
# Util.CkSequencePup

**A compacted sequence holds the elements that were inserted**, also when it has been packed and
unpacked (`keeps_iff`), unless the largest `int` is one of them: then the bit vector cannot be
allocated.
-/

namespace CharmRuntime.Util.CkSequence

open Lib List

/-! ### The round trip -/

theorem unpackBytes_append {n : Nat} {bytes : List MemVal} (h : bytes.length = n)
    (rest : List MemVal) :
    unpackBytes n (bytes ++ rest) = .ok (bytes, rest) := by
  unfold unpackBytes
  rw [if_neg (by rw [length_append]; omega), take_left' h, drop_left' h]

theorem unpackNum_append {n : Nat} (hn : 0 < n) (x : Int) (rest : List MemVal) :
    unpackNum n (MemVal.encodeInt n x ++ rest) = .ok (x, rest) := by
  unfold unpackNum
  rw [unpackBytes_append (MemVal.length_encodeInt n x), ok_bind]
  dsimp only
  rw [MemVal.decodeInt_encodeInt hn]
  rfl

theorem unpackInt_append (x : Int) (rest : List MemVal) :
    unpackInt (packInt x ++ rest) = .ok (x, rest) :=
  unpackNum_append (by decide) x rest

def packByte (b : BitVec 8) : MemVal := .byte ⟨b⟩

theorem packBits_ok {bits : CharVector} {max : Nat} (hmax : max + 1 < 2 ^ 31)
    (h : bits.length = (max + 1) / 8 + 1) :
    packBits bits max = .ok (bits.map packByte) := by
  unfold packBits
  rw [numBytes_ok hmax, ok_bind, if_neg (by omega), take_of_length_le (by omega)]
  rfl

theorem unpackBits_append {bits : CharVector} {max : Nat} (hmax : max + 1 < 2 ^ 31)
    (h : bits.length = (max + 1) / 8 + 1)
    (rest : List MemVal) : unpackBits max (bits.map packByte ++ rest) = .ok (bits, rest) := by
  have hbytes : (bits.map packByte).mapM unpackByte = .ok bits := by
    have hmap := mapM_eq_ok (l := bits.map packByte) (f := unpackByte)
      (g := fun v => (unpackByte v).toOption.getD 0) (forall_mem_map.mpr fun b _ => rfl)
    rw [hmap, map_map]
    exact congrArg Except.ok (map_id bits)
  unfold unpackBits
  rw [numBytes_ok hmax, ok_bind, unpackBytes_append (by rw [length_map, h]), ok_bind]
  dsimp only
  rw [hbytes]
  rfl

theorem unpackInternal_pack {s : SequenceInternal} (hs : Made s) :
    ∃ bytes, packInternal s = .ok bytes ∧ ∀ rest, unpackInternal (bytes ++ rest) =
    .ok (s, rest) := by
  cases s with
  | strided s =>
    refine ⟨_, rfl, fun rest => ?_⟩
    unfold unpackInternal
    simp only [append_assoc, unpackInt_append, ok_bind]
    rfl
  | random s =>
    obtain ⟨hnum, hmax, hbits⟩ := hs
    refine ⟨packInt 0 ++ s.num_elements ++ packInt s.start ++ packInt s.min ++ packInt s.max ++
      s.bit_vector.map packByte, ?_, fun rest => ?_⟩
    · simp only [packInternal, packBits_ok hmax hbits]
      rfl
    · unfold unpackInternal
      simp only [append_assoc, unpackInt_append, ok_bind, unpackBytes_append hnum,
        Int.toNat_natCast, unpackBits_append hmax hbits]
      rfl

theorem unpackInternals_pack {subs : List SequenceInternal} (h : ∀ s ∈ subs, Made s) :
    ∃ bytes, subs.mapM packInternal = .ok bytes ∧
      ∀ rest, unpackInternals subs.length (bytes.flatten ++ rest) = .ok (subs, rest) := by
  induction subs with
  | nil => exact ⟨[], rfl, fun rest => rfl⟩
  | cons s subs ih =>
    obtain ⟨hs, hsubs⟩ := forall_mem_cons.mp h
    obtain ⟨bytes, hpack, hunpack⟩ := unpackInternal_pack hs
    obtain ⟨rest, hpacks, hunpacks⟩ := ih hsubs
    refine ⟨bytes :: rest, ?_, fun stream => ?_⟩
    · rw [mapM_cons, hpack, hpacks]
      rfl
    · simp only [length_cons, unpackInternals, flatten_cons, append_assoc, hunpack,
        ok_bind, hunpacks]
      rfl

/-- **A compacted sequence is unpacked as it was packed.** -/
theorem unpack_pack {s : CkSequence} (hcompact : s.compact = true) (hbits : s.bit_vector = [])
    (hsubs : ∀ t ∈ s.subsequence_list, Made t) :
    ∃ stream, s.pack = .ok stream ∧ unpack stream = .ok s := by
  obtain ⟨bytes, hpack, hunpack⟩ := unpackInternals_pack hsubs
  obtain ⟨min, max, num_elements, compact, bit_vector, subs⟩ := s
  obtain rfl : compact = true := hcompact
  obtain rfl : bit_vector = [] := hbits
  refine ⟨packInt min ++ packInt max ++ packInt num_elements ++ MemVal.encodeInt 1 1 ++
    packInt subs.length ++ bytes.flatten, ?_, ?_⟩
  · unfold pack
    dsimp only at hpack ⊢
    rw [hpack, if_pos rfl, pure_bind, ok_bind]
    rfl
  · have hall := hunpack []
    rw [append_nil] at hall
    unfold unpack
    simp only [append_assoc, unpackInt_append, ok_bind, unpackNum_append (show 0 < 1 by decide),
      pure,
       Except.pure, Int.toNat_natCast, hall]
    rfl

/-! ### The elements -/

theorem foldl_max (l : List Nat) (m : Nat) :
    m ≤ l.foldl (fun max it => if max < it then it else max) m ∧
      (∀ x ∈ l, x ≤ l.foldl (fun max it => if max < it then it else max) m) ∧
      (l.foldl (fun max it => if max < it then it else max) m = m ∨
        l.foldl (fun max it => if max < it then it else max) m ∈ l) := by
  induction l generalizing m with
  | nil => exact ⟨le_refl m, fun x hx => absurd hx not_mem_nil, .inl rfl⟩
  | cons y l ih =>
    obtain ⟨hle, hall, hmem⟩ := ih (if m < y then y else m)
    have hstep : m ≤ (if m < y then y else m) ∧ y ≤ (if m < y then y else m) := by split <;> omega
    rw [foldl_cons]
    refine ⟨hstep.1.trans hle, forall_mem_cons.mpr ⟨hstep.2.trans hle, hall⟩, ?_⟩
    · obtain heq | hmem := hmem
      · rw [heq]
        split
        exacts [.inr mem_cons_self, .inl rfl]
      · exact .inr (mem_cons_of_mem y hmem)

theorem foldl_min (l : List Nat) (m : Nat) :
    l.foldl (fun min it => if it < min then it else min) m ≤ m ∧
      (∀ x ∈ l, l.foldl (fun min it => if it < min then it else min) m ≤ x) ∧
      (l.foldl (fun min it => if it < min then it else min) m = m ∨
        l.foldl (fun min it => if it < min then it else min) m ∈ l) := by
  induction l generalizing m with
  | nil => exact ⟨le_refl m, fun x hx => absurd hx not_mem_nil, .inl rfl⟩
  | cons y l ih =>
    obtain ⟨hle, hall, hmem⟩ := ih (if y < m then y else m)
    have hstep : (if y < m then y else m) ≤ m ∧ (if y < m then y else m) ≤ y := by split <;> omega
    rw [foldl_cons]
    refine ⟨hle.trans hstep.1, forall_mem_cons.mpr ⟨hle.trans hstep.2, hall⟩, ?_⟩
    · obtain heq | hmem := hmem
      · rw [heq]
        split
        exacts [.inr mem_cons_self, .inl rfl]
      · exact .inr (mem_cons_of_mem y hmem)

theorem new_ok {elements : List Nat} (hne : elements ≠ []) (hlt : ∀ x ∈ elements, x + 1 < 2 ^ 31) :
    ∃ s, CkSequence.new elements = .ok s ∧ s.subsequence_list = [] ∧ s.min ∈ elements ∧
    s.max ∈ elements ∧
      (∀ x ∈ elements, s.min ≤ x ∧ x ≤ s.max) ∧ Reads s.bit_vector s.max fun x => x ∈ elements := by
  obtain ⟨first, rest, rfl⟩ := exists_cons_of_ne_nil hne
  obtain ⟨-, hmaxAll, hmax⟩ := foldl_max (first :: rest) 0
  obtain ⟨-, hminAll, hmin⟩ := foldl_min (first :: rest) first
  have hminMem :
    (first :: rest).foldl (fun min it => if it < min then it else min) first ∈ first :: rest := by
    obtain heq | hmem := hmin
    · rw [heq]
      exact mem_cons_self
    · exact hmem
  have hmaxMem :
    (first :: rest).foldl (fun max it => if max < it then it else max) 0 ∈ first :: rest := by
    obtain heq | hmem := hmax
    · have hzero := hmaxAll first mem_cons_self
      rw [heq] at hzero ⊢
      rw [← Nat.le_zero.mp hzero]
      exact mem_cons_self
    · exact hmem
  generalize hmaxDef :
    (first :: rest).foldl (fun max it => if max < it then it else max) 0 = max at hmaxAll hmaxMem
  generalize hminDef :
    (first :: rest).foldl (fun min it => if it < min then it else min) first =
    min at hminAll hminMem
  have hbytes := numBytes_ok (hlt max hmaxMem)
  obtain ⟨bits, hset, hlength, hbits⟩ :=
    setBits_ok (a := replicate ((max + 1) / 8 + 1) 0#8) (fun x hx => by
      have hle := hmaxAll x hx
      rw [length_replicate]
      omega)
  refine ⟨⟨min, max, (first :: rest).length, false, bits, []⟩, ?_, rfl, hminMem, hmaxMem,
    fun x hx => ⟨hminAll x hx, hmaxAll x hx⟩, ?_, fun x _ => ?_⟩
  · unfold new
    dsimp only
    rw [hmaxDef, hminDef, hbytes, ok_bind, hset]
    rfl
  · rw [hlength, length_replicate]
    exact Nat.lt_succ_self _
  · have hzero : hasBit (replicate ((max + 1) / 8 + 1) 0#8) x = false := by
      unfold hasBit
      rw [getD_eq_getElem?_getD, getElem?_replicate]
      split <;> exact BitVec.getLsbD_zero
    rw [hbits, hzero, Bool.or_false]

/-- What is inserted is yielded in increasing order, each element once, also behind a round trip
through a stream. -/
def Keeps (elements : List Nat) : Prop :=
  ∃ s s' stream s'' l, CkSequence.new elements = .ok s ∧ s.doneInserting = .ok s' ∧
  s'.pack = .ok stream ∧
    unpack stream = .ok s'' ∧ l.Pairwise (· < ·) ∧ (∀ x, x ∈ l ↔ x ∈ elements) ∧
    s'.Iterates (toInts l) ∧
    s''.Iterates (toInts l)

theorem keeps_of_not_mem {elements : List Nat} (hne : elements ≠ [])
    (hint : ∀ x ∈ elements, x < 2 ^ 31)
    (hmax : 2 ^ 31 - 1 ∉ elements) : Keeps elements := by
  have hlt : ∀ x ∈ elements, x + 1 < 2 ^ 31 := by
    intro x hx
    have hx' := hint x hx
    have hne : x ≠ 2 ^ 31 - 1 := fun heq => hmax (heq ▸ hx)
    omega
  obtain ⟨s, hnew, hsubs, hminMem, hmaxMem, hall, hreads⟩ := new_ok hne hlt
  obtain ⟨subs, ls, hdone, hholds, hflat⟩ :=
    doneInserting_holds hreads (hlt _ hmaxMem) hsubs (hall _ hmaxMem).1
    (decide_eq_true hminMem)
      (fun x hx => decide_eq_false fun hmem => absurd (hall x hmem).1 (Nat.not_le_of_lt hx))
    (decide_eq_true hmaxMem)
  obtain ⟨stream, hpack, hunpack⟩ :=
    unpack_pack (s := ⟨s.min, s.max, s.num_elements, true, [], subs⟩) rfl rfl (made_of_holds hholds)
  obtain ⟨i, hbegin, hyields⟩ := yields_of_holds hholds
  rw [hflat] at hyields
  refine ⟨s, _, stream, _, _, hnew, hdone, hpack, hunpack, positions_sorted _ _ _, fun x => ?_,
    ⟨rfl, i, hbegin, hyields⟩, ⟨rfl, i, hbegin, hyields⟩⟩
  rw [mem_positions, decide_eq_true_iff]
  refine ⟨fun h => h.2.2, fun h => ⟨Nat.zero_le x, Nat.lt_succ_of_le (hall x h).2, h⟩⟩

/-- The largest `int` cannot be inserted. -/
theorem not_keeps_of_mem {elements : List Nat} (hint : ∀ x ∈ elements, x < 2 ^ 31)
    (hmax : 2 ^ 31 - 1 ∈ elements) :
    ¬ Keeps elements := by
  rintro ⟨s, s', -, -, l, hnew, -⟩
  obtain ⟨first, rest, rfl⟩ := exists_cons_of_ne_nil (ne_nil_of_mem hmax)
  obtain ⟨-, hall, hmem⟩ := foldl_max (first :: rest) 0
  unfold new at hnew
  generalize (first :: rest).foldl (fun max it => if max < it then it else max) 0 =
    max at hall hmem hnew
  obtain rfl : max = 2 ^ 31 - 1 := by
    have hle := hall _ hmax
    obtain heq | hmem := hmem
    · omega
    · have hlt := hint max hmem
      omega
  cases hnew

/-- **What is inserted is kept exactly if the largest `int` is not among it.** -/
theorem keeps_iff {elements : List Nat} (hne : elements ≠ []) (hint : ∀ x ∈ elements, x < 2 ^ 31) :
    Keeps elements ↔ 2 ^ 31 - 1 ∉ elements :=
  ⟨fun h hmem => not_keeps_of_mem hint hmem h, keeps_of_not_mem hne hint⟩

theorem keeps_progression : Keeps [9, 3, 5, 7, 20, 7] :=
  (keeps_iff (by decide) (by decide)).mpr (by decide)

theorem not_keeps_max : ¬ Keeps [2147483647] := not_keeps_of_mem (by decide) (by decide)

end CharmRuntime.Util.CkSequence
