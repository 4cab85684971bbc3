import CharmRuntime.Matrix.Batch
import CharmRuntime.Zht.Novoht

/-!
# Matrix.BigData

**Long texts over a connection**: `send_big` and `recv_big`. A text goes out in pieces of the buffer
size, and the last one, which may be empty, is followed by `$`. The other end takes what is there, a
piece at a time, until a piece ends with `$`.

`recv_bf` clears its buffer before and makes a string of it after `recv`, so that the string ends at
the first NUL. A piece that fills the buffer leaves no NUL in it, and what is behind the buffer is
read. So a text arrives as it was sent if and only if no piece fills the buffer (`framed_iff`),
whatever the length of the text is, as long as an `int` holds the count.

`send` takes all that it is given. A character of a text is a byte.
-/

namespace CharmRuntime.Matrix

open Lib List
open CharmRuntime.Zht (cstr cstr_eq_self)

/-- `_BUF_SIZE`. -/
def bufSize : Nat := 8192

/-! ### The sender -/

/-- `buf.substr(pos, len)`, with an `int` as position. There is an exception if nothing is at the
position, where a negative one is a large one. -/
def substr (buf : Text) (pos : Int) (len : Nat) : Option Text :=
  if 0 ≤ pos ∧ pos ≤ buf.length then some ((buf.drop pos.toNat).take len) else none

/-- The loop of `send_big` and what comes behind it: what was sent with it, and the number that is
returned if there is no exception. An `int` is made unsigned to be compared with the buffer size and
after it was subtracted from. -/
def sendLoop (buf : Text) (length : Nat) (numSent : Int) (sent : Text) : Text × Option Int :=
  if bufSize ≤ length then
    match substr buf numSent bufSize with
    | none => (sent, none)
    | some str => sendLoop buf (length - bufSize) (toInt (numSent + bufSize)) (sent ++ str)
  else if 0 < length then
    match substr buf numSent length with
    | none => (sent, none)
    | some str => (sent ++ (str ++ ['$']), some (toInt (numSent + (str ++ ['$']).length)))
  else
    (sent ++ ['$'], some (toInt (numSent + ['$'].length)))
termination_by length
decreasing_by
  have hpos : 0 < bufSize := by decide
  omega

/-- `send_big`. -/
def sendBig (buf : Text) : Text × Option Int := sendLoop buf (buf.length % 2 ^ 32) 0 []

/-! ### The receiver -/

/-- What goes wrong in the receiver. -/
inductive RecvFault where
  /-- The string of a buffer without a NUL. -/
  | overread
  /-- The last character of the empty string. -/
  | noLast
  /-- The count is too large for an `int`. -/
  | overflow
  deriving DecidableEq

/-- `recv_bf`, where `recv` takes `piece`. -/
def recvBf (piece : Text) : Except RecvFault Text :=
  -- the NUL is one that was received, or one of those that the buffer was cleared to
  if piece.length < bufSize ∨ '\x00' ∈ piece then .ok (cstr piece) else .error .overread

/-- `recv_mul`: `sum` and what was added to `buf` before a `recv`, and the pieces to come. When none
is to come, or an empty one, `recv` returns no count. -/
def recvMul (buf : Text) (sum : Nat) : List Text → Except RecvFault (Text × Nat × List Text)
  | [] => .ok (buf, sum, [])
  | piece :: pieces => do
      let tmpBuf ← recvBf piece
      if piece.length = 0 then .ok (buf, sum, pieces)
      else if 2 ^ 31 ≤ sum + piece.length then .error .overflow
      else
        match tmpBuf.getLast? with
        | none => .error .noLast
        | some last =>
          if last = '$' then .ok (buf ++ tmpBuf, sum + piece.length, pieces)
          else recvMul (buf ++ tmpBuf) (sum + piece.length) pieces

/-- `recv_big`: the string, the count, and the pieces that were not taken. -/
def recvBig (buf : Text) (pieces : List Text) : Except RecvFault (Text × Nat × List Text) := do
  let (buf, count, pieces) ← recvMul buf 0 pieces
  return (buf.dropLast, count, pieces)

/-! ### What is sent -/

variable {buf m sent piece : Text} {sum : Nat}

theorem substr_natCast {pos : Nat} (h : pos ≤ buf.length) (len : Nat) :
    substr buf pos len = some ((buf.drop pos).take len) := by
  rw [substr, if_pos ⟨Int.natCast_nonneg pos, Int.ofNat_le.mpr h⟩, Int.toNat_natCast]

theorem toInt_natCast {n : Nat} (h : n < 2 ^ 31) : toInt n = n :=
  toInt_of_fits ⟨by omega, by omega⟩

theorem sendLoop_spec (hbuf : buf.length + 1 < 2 ^ 31) {length numSent : Nat}
    (h : numSent + length = buf.length)
    (sent : Text) :
    sendLoop buf length numSent sent =
    (sent ++ (buf.drop numSent ++ ['$']), some ((buf.length + 1 : Nat) : Int)) := by
  induction length using Nat.strongRecOn generalizing numSent sent with
  | ind length ih =>
    have hpos : 0 < bufSize := by decide
    have hsubstr := substr_natCast (show numSent ≤ buf.length by omega)
    have hdrop : (buf.drop numSent).length = length := by rw [length_drop]; omega
    rw [sendLoop]
    split
    · next hle =>
        rw [hsubstr]
        have hnext : toInt (numSent + bufSize) = (numSent + bufSize : Nat) := by
          rw [← Int.natCast_add, toInt_natCast (by omega)]
        simp only [hnext]
        rw [ih (length - bufSize) (by omega) (by omega), append_assoc, ← append_assoc _
          (buf.drop _), ← drop_drop, take_append_drop]
    · split
      · rw [hsubstr, take_of_length_le (le_of_eq hdrop)]
        simp only [length_append, hdrop, length_singleton]
        rw [← Int.natCast_add, ← Nat.add_assoc, h, toInt_natCast hbuf]
      · next hzero =>
          have hnil : buf.drop numSent = [] := length_eq_zero_iff.mp (by omega)
          rw [hnil, nil_append, length_singleton, ← Int.natCast_add, toInt_natCast (by omega)]
          have hall : numSent = buf.length := by omega
          rw [hall]

theorem sendBig_spec (h : m.length + 1 < 2 ^ 31) :
    sendBig m = (m ++ ['$'], some ((m.length + 1 : Nat) : Int)) := by
  rw [sendBig, Nat.mod_eq_of_lt (by omega)]
  exact sendLoop_spec h (Nat.zero_add _) []

theorem mem_append_substr {str : Text} (hsent : ∀ c ∈ sent, c ∈ buf) {pos : Int} {len : Nat}
    (h : substr buf pos len = some str) : ∀ c ∈ sent ++ str, c ∈ buf := by
  intro c hc
  rw [substr] at h
  split at h
  · obtain rfl := Option.some.inj h
    exact (mem_append.mp hc).elim (hsent c) fun hc => mem_of_mem_drop (mem_of_mem_take hc)
  · cases h

theorem mem_append_end (hsent : ∀ c ∈ sent, c ∈ buf) : ∀ c ∈ sent ++ ['$'], c ∈ buf ∨ c = '$' := by
  intro c hc
  rw [mem_append, mem_singleton] at hc
  exact hc.imp_left (hsent c)

/-- Whatever the length is, the characters of the text are sent and no others but the end. -/
theorem mem_sendLoop {length : Nat} {numSent : Int} (h : ∀ c ∈ sent, c ∈ buf) :
    ∀ c ∈ (sendLoop buf length numSent sent).1, c ∈ buf ∨ c = '$' := by
  fun_induction sendLoop buf length numSent sent with
  | case1 => exact fun c hc => .inl (h c hc)
  | case2 length numSent sent hle str hstr ih => exact ih (mem_append_substr h hstr)
  | case3 => exact fun c hc => .inl (h c hc)
  | case4 length numSent sent hle hpos str hstr =>
    rw [← append_assoc]
    exact mem_append_end (mem_append_substr h hstr)
  | case5 => exact mem_append_end h

theorem mem_sendBig {c : Char} (h : c ∈ (sendBig m).1) : c ∈ m ∨ c = '$' :=
  mem_sendLoop (fun _ hc => absurd hc not_mem_nil) c h

/-! ### What is received -/

/-- A stream, in the pieces that `recv` takes. -/
structure Cut (stream : Text) (pieces : List Text) : Prop where
  flatten : pieces.flatten = stream
  nonempty : ∀ p ∈ pieces, p ≠ []
  length_le : ∀ p ∈ pieces, p.length ≤ bufSize

/-- The text comes out, and all that was sent is taken. -/
def Framed (m : Text) (pieces : List Text) :
    Prop := recvBig [] pieces = .ok (m, pieces.flatten.length, [])

theorem recvBf_eq (hshort : piece.length < bufSize) (hplain : '\x00' ∉ piece) :
    recvBf piece = .ok piece := by
  rw [recvBf, if_pos (.inl hshort), cstr_eq_self hplain]

theorem recvMul_cons (hne : piece ≠ []) (hshort : piece.length < bufSize) (hnul : '\x00' ∉ piece)
    (hend : '$' ∉ piece) (hsum : sum + piece.length < 2 ^ 31) (buf : Text) (pieces : List Text) :
    recvMul buf sum (piece :: pieces) = recvMul (buf ++ piece) (sum + piece.length) pieces := by
  have hlast : piece.getLast hne ≠ '$' := fun heq => hend (heq ▸ getLast_mem hne)
  rw [recvMul, recvBf_eq hshort hnul]
  simp only [bind, Except.bind]
  rw [if_neg (mt length_eq_zero_iff.mp hne), if_neg (by omega), getLast?_eq_some_getLast hne]
  exact if_neg hlast

theorem recvMul_end {front : Text} (hshort : (front ++ ['$']).length < bufSize)
    (hnul : '\x00' ∉ front)
    (hsum : sum + (front ++ ['$']).length < 2 ^ 31) (buf : Text) (pieces : List Text) :
    recvMul buf sum ((front ++ ['$']) :: pieces) =
    .ok (buf ++ (front ++ ['$']), sum + (front ++ ['$']).length, pieces) := by
  have hplain : '\x00' ∉ front ++ ['$'] := by simpa using hnul
  rw [recvMul, recvBf_eq hshort hplain]
  simp only [bind, Except.bind]
  rw [if_neg (by simp), if_neg (by omega), getLast?_concat]
  exact if_pos rfl

theorem recvMul_append {front : List Text} (hne : ∀ p ∈ front, p ≠ [])
    (hshort : ∀ p ∈ front, p.length < bufSize)
    (hnul : '\x00' ∉ front.flatten) (hend : '$' ∉ front.flatten)
    (hsum : sum + front.flatten.length < 2 ^ 31)
    (buf : Text) (pieces : List Text) :
    recvMul buf sum (front ++ pieces) = recvMul (buf ++ front.flatten) (sum + front.flatten.length)
      pieces := by
  induction front generalizing buf sum with
  | nil => simp
  | cons piece front ih =>
    rw [forall_mem_cons] at hne hshort
    rw [flatten_cons, mem_append, not_or] at hnul hend
    rw [flatten_cons, length_append] at hsum
    rw [cons_append, recvMul_cons hne.1 hshort.1 hnul.1 hend.1 (by omega),
      ih hne.2 hshort.2 hnul.2 hend.2 (by omega), flatten_cons, append_assoc, length_append,
      Nat.add_assoc]

/-- **Short pieces.** The end is the last character of all, so that only the last piece ends the
loop. -/
theorem recvBig_short {pieces : List Text} (hcut : Cut (m ++ ['$']) pieces)
    (hshort : ∀ p ∈ pieces, p.length < bufSize) (hnul : '\x00' ∉ m) (hend : '$' ∉ m)
    (hsum : m.length + 1 < 2 ^ 31) :
    recvBig [] pieces = .ok (m, (m ++ ['$']).length, []) := by
  obtain rfl | ⟨front, last, rfl⟩ := pieces.eq_nil_or_concat'
  · exact absurd hcut.flatten.symm (by simp)
  · have hflatten := hcut.flatten
    obtain rfl | ⟨rest, c, rfl⟩ := last.eq_nil_or_concat'
    · exact absurd rfl (hcut.nonempty [] (by simp))
    · rw [flatten_append, flatten_singleton, ← append_assoc] at hflatten
      obtain ⟨rfl, hc⟩ := append_inj' hflatten rfl
      obtain rfl := singleton_inj.mp hc
      rw [mem_append, not_or] at hnul hend
      rw [length_append] at hsum
      rw [forall_mem_append] at hshort
      have hne : ∀ p ∈ front, p ≠ [] := fun p hp => hcut.nonempty p (mem_append_left _ hp)
      have hlength : (rest ++ ['$']).length = rest.length + 1 := length_append
      rw [recvBig, recvMul_append hne hshort.1 hnul.1 hend.1 (by omega),
        recvMul_end (hshort.2 _ (mem_singleton_self _)) hnul.2 (by omega)]
      simp

/-! ### What a result says -/

theorem recvBf_ok {tmpBuf : Text} (h : recvBf piece = .ok tmpBuf) :
    (piece.length < bufSize ∨ '\x00' ∈ piece) ∧ tmpBuf.length ≤ piece.length := by
  rw [recvBf] at h
  split at h
  · next hpiece =>
      obtain rfl := Except.ok.inj h
      exact ⟨hpiece, (List.takeWhile_prefix _).length_le⟩
  · cases h

theorem recvMul_ok {pieces : List Text} (hne : ∀ p ∈ pieces, p ≠ []) {buf' : Text} {sum' : Nat}
    {rest : List Text}
    (h : recvMul buf sum pieces = .ok (buf', sum', rest)) :
    ∃ taken, pieces = taken ++ rest ∧ (∀ p ∈ taken, p.length < bufSize ∨ '\x00' ∈ p) ∧
      buf'.length ≤ buf.length + taken.flatten.length ∧ sum' = sum + taken.flatten.length ∧
        (taken ≠ [] → sum' < 2 ^ 31) := by
  induction pieces generalizing buf sum with
  | nil =>
    obtain ⟨rfl, hsum⟩ := Prod.mk.inj (Except.ok.inj h)
    obtain ⟨rfl, rfl⟩ := Prod.mk.inj hsum
    exact ⟨[], rfl, fun p hp => absurd hp not_mem_nil, le_refl _, rfl, fun hne => absurd rfl hne⟩
  | cons piece pieces ih =>
    rw [forall_mem_cons] at hne
    rw [recvMul, bind_eq_ok] at h
    obtain ⟨tmpBuf, hrecv, h⟩ := h
    obtain ⟨hpiece, hlength⟩ := recvBf_ok hrecv
    rw [if_neg (mt length_eq_zero_iff.mp hne.1)] at h
    split at h
    · cases h
    · next hsum =>
        have hsum' := not_le.mp hsum
        split at h
        · cases h
        · split at h
          -- the piece ends with the end
          · obtain ⟨rfl, hpair⟩ := Prod.mk.inj (Except.ok.inj h)
            obtain ⟨rfl, rfl⟩ := Prod.mk.inj hpair
            refine ⟨[piece], rfl, by simpa using hpiece, ?_, by rw [flatten_singleton],
              fun _ => hsum'⟩
            rw [flatten_singleton, length_append]
            exact Nat.add_le_add_left hlength _
          · obtain ⟨taken, rfl, htaken, hbuf, hcount, hlt⟩ := ih hne.2 h
            rw [length_append] at hbuf
            refine ⟨piece :: taken, rfl, forall_mem_cons.mpr ⟨hpiece, htaken⟩, ?_, ?_, ?_⟩
            · rw [flatten_cons, length_append]
              omega
            · rw [hcount, flatten_cons, length_append, Nat.add_assoc]
            · intro _
              obtain rfl | hcons := eq_or_ne taken []
              · rw [hcount]
                exact hsum'
              · exact hlt hcons

/-- **A text that comes out** came in short pieces, and its length is one that fits. -/
theorem Framed.short {pieces : List Text} (hcut : Cut (sendBig m).1 pieces) (hnul : '\x00' ∉ m)
    (h : Framed m pieces) : m.length + 1 < 2 ^ 31 ∧ ∀ p ∈ pieces, p.length < bufSize := by
  rw [Framed, recvBig, bind_eq_ok] at h
  obtain ⟨⟨buf, count, rest⟩, hmul, h⟩ := h
  obtain ⟨rfl, hpair⟩ := Prod.mk.inj (Except.ok.inj h)
  obtain ⟨-, rfl⟩ := Prod.mk.inj hpair
  obtain ⟨taken, htaken, hroom, hbuf, hcount, hlt⟩ := recvMul_ok hcut.nonempty hmul
  obtain rfl : pieces = taken := by simpa using htaken
  constructor
  · obtain rfl | hcons := eq_or_ne pieces []
    · obtain rfl : buf = [] := length_eq_zero_iff.mp (Nat.le_zero.mp hbuf)
      decide
    · have hlt' := hlt hcons
      have hdrop : buf.dropLast.length = buf.length - 1 := length_dropLast
      simp only [length_nil] at hbuf
      omega
  · intro p hp
    refine (hroom p hp).resolve_right fun hmem => ?_
    have hsent : '\x00' ∈ (sendBig buf.dropLast).1 := hcut.flatten ▸ mem_flatten_of_mem hp hmem
    exact (mem_sendBig hsent).elim hnul (by decide)

/-- **A text arrives as it was sent if and only if no piece fills the buffer**, when its length is
one that fits. -/
theorem framed_iff {m : Text} (hend : '$' ∉ m) (hnul : '\x00' ∉ m) {pieces : List Text}
    (hcut : Cut (sendBig m).1 pieces) :
    Framed m pieces ↔ m.length + 1 < 2 ^ 31 ∧ ∀ p ∈ pieces, p.length < bufSize := by
  refine ⟨Framed.short hcut hnul, ?_⟩
  rintro ⟨hlength, hshort⟩
  rw [sendBig_spec hlength] at hcut
  rw [Framed, hcut.flatten]
  exact recvBig_short hcut hshort hnul hend hlength

theorem framed_two : Framed "ab".toList ["a".toList, "b$".toList] := by
  refine (framed_iff (by decide) (by decide) ⟨?_, by decide, by decide⟩).mpr ⟨by decide, by decide⟩
  rw [sendBig_spec (by decide)]
  rfl

/-- A text of the buffer size, as it was sent. -/
theorem not_framed : ¬ ∀ m : Text, '$' ∉ m → '\x00' ∉ m → ∀ pieces, Cut (sendBig m).1 pieces →
    Framed m pieces := by
  intro h
  have hlength : (replicate bufSize 'a').length = bufSize := length_replicate
  have hcut : Cut (sendBig (replicate bufSize 'a')).1 [replicate bufSize 'a', ['$']] := by
    refine ⟨?_, ?_, ?_⟩
    · rw [sendBig_spec (by rw [hlength]; decide)]
      simp
    · refine forall_mem_cons.mpr ⟨fun hnil => ?_, by decide⟩
      rw [hnil] at hlength
      exact absurd hlength (by decide)
    · exact forall_mem_cons.mpr ⟨le_of_eq hlength, by decide⟩
  have hframed := h _ (by simp) (by simp) _ hcut
  have hshort := (hframed.short hcut (by simp)).2 _ mem_cons_self
  exact absurd hlength (ne_of_lt hshort)

end CharmRuntime.Matrix
