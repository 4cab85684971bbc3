import CharmRuntime.Lib.Chunks
import CharmRuntime.Lib.Digits
import CharmRuntime.Lib.OrderedMap
import CharmRuntime.Zht.Novoht

/-!
# Zht.Blob

**Messages in blobs**, `bigdata_transfer.cpp`. A message is cut into values of `blobSize` bytes, and
each is sent behind a header of decimal fields: the id of the message, the number of the blob, how
many there are, and the size of the value. A receiver keeps the blobs of a message in a set, ordered
by their numbers, until there are as many as the header says.

What is received is made into a string from a `char *`, so that it ends at the first NUL
(`BdRecv.getBdStr`). A total of 8 digits does not fit its field. A header of 38 characters without a
NUL is read back (`ofString_cstr_toString`).
-/

namespace CharmRuntime.Zht

open Lib
open CharmRuntime.Matrix (Text isSpace sign)

structure Blob where
  uuid : UInt64
  seqNum : Nat
  total : Nat
  size : Nat
  value : Text
  deriving DecidableEq, Repr

/-- `Env::BUF_SIZE`. -/
def bufSize : Nat := 512 + 38

/-- `IdHelper::ID_LEN`. -/
def idLen : Nat := 20

namespace Blob

def uuidLen : Nat := idLen

def countLen : Nat := 7

def sizeLen : Nat := 4

def headerLen : Nat := uuidLen + countLen * 2 + sizeLen

def toString (b : Blob) : Text :=
  padded 20 b.uuid.toNat ++ padded 7 b.seqNum ++ padded 7 b.total ++ padded 4 b.size ++ b.value

/-- `strtoull` and `strtoul` with base 10, for 64 bits. -/
def strtoull (t : Text) : Nat :=
  let (negative, rest) := sign (t.dropWhile isSpace)
  let n := Nat.ofDigitChars 10 (rest.takeWhile Char.isDigit) 0
  if 2 ^ 64 ≤ n then 2 ^ 64 - 1 else if negative then (2 ^ 64 - n) % 2 ^ 64 else n

/-- `none` when `out_of_range` is thrown. -/
def substr (t : Text) (pos len : Nat) :
    Option Text := if t.length < pos then none else some ((t.drop pos).take len)

/-- `assign`. -/
def ofString (blob : Text) : Option Blob := do
  let uuid ← substr blob 0 uuidLen
  let seqNum ← substr blob uuidLen countLen
  let total ← substr blob (uuidLen + countLen) countLen
  let size ← substr blob (uuidLen + countLen + countLen) sizeLen
  let value ← substr blob (uuidLen + countLen + countLen + sizeLen) blob.length
  return ⟨UInt64.ofNat (strtoull uuid), strtoull seqNum, strtoull total, strtoull size, value⟩

end Blob

/-- `BLOB_SIZE`. -/
def blobSize : Nat := bufSize - Blob.headerLen

/-- `BdSendBase::split`, with the id that was made for the message. -/
def split (uuid : UInt64) (msg : Text) : List Blob :=
  let size := msg.length
  let fold := size / blobSize
  let mod := size % blobSize
  let total := if mod ≠ 0 then fold + 1 else fold
  let blob (i : Nat) (value : Text) : Blob := ⟨uuid, i + 1, total, value.length, value⟩
  (List.range fold).map (fun i => blob i ((msg.drop (i * blobSize)).take blobSize)) ++
    if mod ≠ 0 then [blob fold ((msg.drop (fold * blobSize)).take mod)] else []

/-! ### Receiving -/

/-- The blobs of a message, by number. -/
abbrev BlobSet := OrderedMap Nat Blob

namespace BlobSet

/-- A blob whose number is there is not inserted. -/
def insert (b : Blob) (s : BlobSet) : BlobSet := s.upsert b.seqNum fun old => old.getD b

/-- `combineBlobs`. -/
def combine (s : BlobSet) : Text := s.flatMap fun e => e.2.value

end BlobSet

/-- `_BdMap`. -/
abbrev BdMap := UInt64 → Option BlobSet

namespace BdMap

def empty : BdMap := fun _ => none

/-- What is done with a blob: the message, if it is ready. -/
def receive (m : BdMap) (blob : Blob) : Option Text × BdMap :=
  if blob.total = 1 then (some blob.value, m)
  else
    match m blob.uuid with
    | none => (none, Function.update m blob.uuid (some (BlobSet.insert blob [])))
    | some set =>
      let set := set.insert blob
      if set.length = blob.total then (some set.combine, Function.update m blob.uuid none)
      else (none, Function.update m blob.uuid (some set))

/-- `none` when an exception is thrown. `buf` is what `count` bytes were received of. -/
def getBdStr (m : BdMap) (buf : Text) : Option (Option Text × BdMap) :=
  (Blob.ofString (cstr buf)).map m.receive

/-- One call after the other. -/
def recvAll (m : BdMap) : List Text → Option (List (Option Text) × BdMap)
  | [] => some ([], m)
  | buf :: bufs => do
      let (result, m) ← m.getBdStr buf
      let (results, m) ← recvAll m bufs
      return (result :: results, m)

/-- `char buf[BUF_SIZE]`, which is set to 0 before something is received. -/
def received (buf : Text) : Text := buf ++ List.replicate (bufSize - buf.length) '\x00'

/-- `IPProtoProxy::loopedrecv`, until the connection ends. The string that `getBdStr` makes of the
buffer ends at a NUL: without one in the buffer it is read behind its end, which has no result. -/
def loopedrecv (m : BdMap) : List Text → Option (Option Text)
  | [] => some none
  | buf :: bufs =>
    if '\x00' ∉ received buf then none
    else
      match m.getBdStr buf with
      | none => none
      | some (some result, _) => some (some result)
      | some (none, m) => loopedrecv m bufs

end BdMap

/-! ### The header -/

namespace Blob

theorem strtoull_padded {n : Nat} (h : n < 2 ^ 64) (width : Nat) :
    strtoull (padded width n) = n := by
  have hdigits : ∀ c ∈ padded width n, c.isDigit = true := fun _ => isDigit_of_mem_padded
  rw [strtoull, Matrix.dropWhile_digits hdigits, Matrix.sign_digits hdigits]
  simp only [Matrix.takeWhile_digits hdigits, ofDigitChars_padded, Bool.false_eq_true]
  exact if_neg (not_le.mpr h)

theorem nul_notMem_padded (width n : Nat) : '\x00' ∉ padded width n := fun h =>
  absurd (isDigit_of_mem_padded h) (by decide)

theorem substr_append {t field : Text} {pos len : Nat} (pre rest : Text)
    (ht : t = pre ++ field ++ rest)
    (hpos : pre.length = pos) (hlen : field.length = len) : substr t pos len = some field := by
  subst ht hpos hlen
  rw [substr]
  simp

theorem ofString_append {uuid seqNum total size : Text} (huuid : uuid.length = 20)
    (hseqNum : seqNum.length = 7)
    (htotal : total.length = 7) (hsize : size.length = 4) (value : Text) :
    ofString (uuid ++ seqNum ++ total ++ size ++ value) =
      some ⟨UInt64.ofNat (strtoull uuid), strtoull seqNum, strtoull total, strtoull size,
      value⟩ := by
  generalize ht : uuid ++ seqNum ++ total ++ size ++ value = t
  have huuid' : substr t 0 uuidLen = some uuid :=
    substr_append [] (seqNum ++ total ++ size ++ value) (by simp [← ht]) rfl huuid
  have hseqNum' : substr t uuidLen countLen = some seqNum :=
    substr_append uuid (total ++ size ++ value) (by simp [← ht]) huuid hseqNum
  have htotal' : substr t (uuidLen + countLen) countLen = some total :=
    substr_append (uuid ++ seqNum) (size ++ value) (by simp [← ht])
      (by simp [huuid, hseqNum]; rfl) htotal
  have hsize' : substr t (uuidLen + countLen + countLen) sizeLen = some size :=
    substr_append (uuid ++ seqNum ++ total) value ht.symm
      (by simp [huuid, hseqNum, htotal]; rfl) hsize
  have hpre :
    (uuid ++ seqNum ++ total ++ size).length = uuidLen + countLen + countLen + sizeLen := by
    simp [huuid, hseqNum, htotal, hsize]
    rfl
  have hvalue' : substr t (uuidLen + countLen + countLen + sizeLen) t.length = some value := by
    have hle : uuidLen + countLen + countLen + sizeLen ≤ t.length := by
      rw [← hpre, ← ht]
      exact (List.prefix_append _ value).length_le
    rw [substr, if_neg (not_lt.mpr hle), ← hpre, ← ht, List.drop_left,
      List.take_of_length_le (by simp; omega)]
  rw [ofString, huuid', hseqNum', htotal', hsize', hvalue']
  rfl

/-- **A header is read back**, and the value up to a NUL. -/
theorem ofString_cstr_toString {b : Blob} (hseqNum : b.seqNum < 10 ^ 7) (htotal : b.total < 10 ^ 7)
    (hsize : b.size < 10 ^ 4) :
    ofString (cstr b.toString) = some { b with value := cstr b.value } := by
  have huuid : b.uuid.toNat < 2 ^ 64 := b.uuid.toNat_lt
  have hnul :
    '\x00' ∉ padded 20 b.uuid.toNat ++ padded 7 b.seqNum ++ padded 7 b.total ++
    padded 4 b.size := by
    simp [nul_notMem_padded]
  rw [toString, cstr_append hnul, ofString_append (length_padded (by omega) (by decide))
    (length_padded hseqNum (by decide))
    (length_padded htotal (by decide)) (length_padded hsize (by decide)), strtoull_padded huuid,
    strtoull_padded (by omega),
    strtoull_padded (by omega), strtoull_padded (by omega), UInt64.ofNat_toNat]

/-- What is read of a blob when the total is 10000000: its last digit is taken for one of the size,
and the last digit of the size for one of the value. -/
def overrun (b : Blob) : Blob where
  uuid := b.uuid
  seqNum := b.seqNum
  total := 10 ^ 6
  size := strtoull ('0' :: (padded 4 b.size).take 3)
  value := (padded 4 b.size).drop 3 ++ cstr b.value

theorem ofString_cstr_overrun {b : Blob} (hseqNum : b.seqNum < 10 ^ 7) (htotal : b.total = 10 ^ 7)
    (hsize : b.size < 10 ^ 4) :
    ofString (cstr b.toString) = some b.overrun := by
  have huuid : b.uuid.toNat < 2 ^ 64 := b.uuid.toNat_lt
  have hcstr : cstr b.toString =
      padded 20 b.uuid.toNat ++ padded 7 b.seqNum ++ padded 7 b.total ++ padded 4 b.size ++
      cstr b.value := by
    rw [toString, cstr_append (by simp [nul_notMem_padded])]
  have hfields :
    padded 20 b.uuid.toNat ++ padded 7 b.seqNum ++ padded 7 b.total ++ padded 4 b.size ++
    cstr b.value =
      padded 20 b.uuid.toNat ++ padded 7 b.seqNum ++ "1000000".toList ++
      ('0' :: (padded 4 b.size).take 3) ++
        ((padded 4 b.size).drop 3 ++ cstr b.value) := by
    have hdigits : padded 7 (10 ^ 7) = "1000000".toList ++ ['0'] := by decide +kernel
    have hsplit := List.take_append_drop 3 (padded 4 b.size)
    generalize (padded 4 b.size).take 3 = front at hsplit ⊢
    generalize (padded 4 b.size).drop 3 = back at hsplit ⊢
    rw [htotal, hdigits, ← hsplit]
    simp only [List.append_assoc, List.cons_append, List.nil_append]
  have htake : ('0' :: (padded 4 b.size).take 3).length = 4 := by
    rw [List.length_cons, List.length_take, length_padded hsize (by decide)]
    rfl
  rw [hcstr, hfields, ofString_append (length_padded (by omega) (by decide))
    (length_padded hseqNum (by decide)) rfl htake, strtoull_padded huuid,
    strtoull_padded (by omega), UInt64.ofNat_toNat]
  rfl

end Blob

/-! ### Splitting -/

theorem split_eq (uuid : UInt64) (msg : Text) :
    split uuid msg = (List.range (chunkCount blobSize msg.length)).map fun i =>
      ⟨uuid, i + 1, chunkCount blobSize msg.length, (chunk blobSize msg i).length,
      chunk blobSize msg i⟩ := by
  have htotal :
    (if msg.length % blobSize ≠ 0 then msg.length / blobSize + 1 else msg.length / blobSize) =
      chunkCount blobSize msg.length := rfl
  simp only [split, htotal]
  by_cases hmod : msg.length % blobSize = 0
  · have hcount : chunkCount blobSize msg.length = msg.length / blobSize :=
      if_neg (not_not.mpr hmod)
    rw [if_neg (not_not.mpr hmod), List.append_nil, hcount]
    rfl
  · have hcount : chunkCount blobSize msg.length = msg.length / blobSize + 1 := if_pos hmod
    -- the last value is what is left
    have hlast : (msg.drop (msg.length / blobSize * blobSize)).take (msg.length % blobSize) =
        chunk blobSize msg (msg.length / blobSize) := by
      have hdiv := Nat.div_add_mod' msg.length blobSize
      have hlt := Nat.mod_lt msg.length (by decide : 0 < blobSize)
      rw [chunk, List.take_of_length_le, List.take_of_length_le]
      · rw [List.length_drop]
        omega
      · rw [List.length_drop]
        omega
    rw [if_pos hmod, hcount, List.range_succ, List.map_append, hlast]
    rfl

end CharmRuntime.Zht
