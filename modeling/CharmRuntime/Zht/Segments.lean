import Mathlib.Algebra.Group.Action.Defs
import Mathlib.Algebra.Order.BigOperators.Group.List
import Mathlib.Data.List.SplitLengths
import CharmRuntime.Zht.Reassembly

/-!
# Zht.Segments

**Blobs over a stream.** `loopedrecv` takes what one `recv` returns for one blob. The stream of a
message has 38 characters more than the message for each blob, and what is received takes 38 away
with each `recv`; so when the message comes out, the whole stream was taken, in as many pieces as
there are blobs, and all of them were read as blobs of one message (`ready_spec`).

A piece that ends inside of a blob leaves the rest of it to the next one, which then does not begin
with the id, whichever it is. So the pieces are the blobs. A blob of 512 characters fills the
buffer, of which a string is made that ends at a NUL: so there is one blob, with fewer
(`transferred_iff`).
-/

namespace CharmRuntime.Zht

open Lib List Nat
open CharmRuntime.Matrix (Text)

/-! ### What is read of a piece -/

namespace Blob

variable {t : Text}

theorem substr_eq_some {pos len : Nat} {field : Text} (h : substr t pos len = some field) :
    pos ≤ t.length ∧ field = (t.drop pos).take len := by
  rw [substr] at h
  split at h
  · cases h
  · next hle => exact ⟨not_lt.mp hle, (Option.some.inj h).symm⟩

theorem ofString_spec {b : Blob} (h : ofString t = some b) :
    t.length = headerLen + b.value.length ∧ b.uuid = UInt64.ofNat (strtoull (t.take 20)) ∧
      ∃ field, field.length ≤ 7 ∧ b.total = strtoull field := by
  rw [ofString] at h
  simp only [Option.bind_eq_bind, Option.bind_eq_some_iff] at h
  obtain ⟨uuid, huuid, seqNum, -, total, htotal, size, -, value, hvalue, hb⟩ := h
  obtain rfl := Option.some.inj hb
  obtain ⟨hlength, rfl⟩ := substr_eq_some hvalue
  refine ⟨?_, ?_, total, ?_, rfl⟩
  · have hwhole :=
      take_of_length_le (length_drop ▸ sub_le t.length (uuidLen + countLen + countLen + sizeLen))
    simp only [hwhole, length_drop]
    exact (Nat.add_sub_cancel' hlength).symm
  · rw [(substr_eq_some huuid).2]
    rfl
  · rw [(substr_eq_some htotal).2]
    exact length_take_le ..

theorem strtoull_of_length_le (h : t.length ≤ 7) :
    strtoull t < 10 ^ 7 ∨ 2 ^ 64 - 10 ^ 7 < strtoull t := by
  have hsign : ∀ l : Text, (Matrix.sign l).2.length ≤ l.length := by
    intro l
    rw [Matrix.sign.eq_def]
    split
    · exact le_succ _
    · exact le_succ _
    · exact le_refl _
  rw [strtoull]
  have hrest := (hsign (t.dropWhile Matrix.isSpace)).trans ((dropWhile_suffix _).length_le.trans h)
  generalize Matrix.sign (t.dropWhile Matrix.isSpace) = signed at hrest
  obtain ⟨negative, rest⟩ := signed
  simp only at hrest ⊢
  have hn : ofDigitChars 10 (rest.takeWhile Char.isDigit) 0 < 10 ^ 7 := by
    refine (ofDigitChars_lt (fun c hc => mem_takeWhile_imp hc) 0).trans_le ?_
    rw [zero_add, one_mul]
    exact Nat.pow_le_pow_right (by decide) ((List.takeWhile_prefix _).length_le.trans hrest)
  generalize ofDigitChars 10 (rest.takeWhile Char.isDigit) 0 = n at hn ⊢
  rw [if_neg (by omega)]
  cases negative
  · exact .inl hn
  · by_cases hzero : n = 0
    · subst hzero
      exact .inl (by decide)
    · refine .inr ?_
      rw [if_pos rfl]
      omega

end Blob

/-! ### What a set can hold -/

/-- The message that a piece is read as a blob of. -/
def uuidOf (buf : Text) : Option UInt64 := (Blob.ofString (cstr buf)).map Blob.uuid

/-- A set of blobs that some pieces were read as: a header was taken away from each piece. -/
structure Within (done : List Text) (u : UInt64) (s : BlobSet) : Prop where
  room : s.combine.length + Blob.headerLen * done.length ≤
    (done.map fun buf => (cstr buf).length).sum
  count : s.length ≤ done.countP fun buf => uuidOf buf = some u
  value : s.combine.length ≤ blobSize * s.length

theorem BlobSet.insert_eq_or_perm (b : Blob) (s : BlobSet) :
    s.insert b = s ∨ (s.insert b).Perm ((b.seqNum, b) :: s) := by
  induction s with
  | nil => exact .inr (Perm.refl _)
  | cons e rest ih =>
    rw [insert, OrderedMap.upsert]
    split
    · exact .inr (Perm.refl _)
    · split
      · exact .inl (by simp)
      · obtain heq | hperm := ih
        · exact .inl (congrArg _ heq)
        · exact .inr ((hperm.cons _).trans (Perm.swap ..))

variable {done : List Text} {buf : Text} {b : Blob} {u : UInt64} {s : BlobSet}

theorem Within.skip (h : Within done u s) (hbuf : Blob.ofString (cstr buf) = some b) :
    Within (done ++ [buf]) u s where
  room := by
    have hlength := (Blob.ofString_spec hbuf).1
    have hroom := h.room
    rw [map_append, sum_append, length_append, mul_add]
    simp only [map_singleton, sum_singleton, length_singleton]
    omega
  count := by
    rw [countP_append]
    exact h.count.trans (Nat.le_add_right ..)
  value := h.value

theorem Within.insert (h : Within done b.uuid s) (hbuf : Blob.ofString (cstr buf) = some b)
    (hsize : buf.length ≤ bufSize) :
    Within (done ++ [buf]) b.uuid (s.insert b) := by
  obtain heq | hperm := BlobSet.insert_eq_or_perm b s
  · rw [heq]
    exact h.skip hbuf
  · have hlength := (Blob.ofString_spec hbuf).1
    have hcstr : (cstr buf).length ≤ buf.length := (List.takeWhile_prefix _).length_le
    have hcombine : (s.insert b).combine.length = b.value.length + s.combine.length := by
      rw [BlobSet.combine, (hperm.flatMap_right _).length_eq, flatMap_cons, length_append]
      rfl
    refine ⟨?_, ?_, ?_⟩
    · have hroom := h.room
      rw [map_append, sum_append, length_append, mul_add]
      simp only [map_singleton, sum_singleton, length_singleton]
      omega
    · have huuid : uuidOf buf = some b.uuid := by rw [uuidOf, hbuf, Option.map_some]
      rw [countP_append, hperm.length_eq]
      simp only [countP_singleton, huuid, decide_true]
      exact succ_le_succ h.count
    · have hvalue := h.value
      have hblob : Blob.headerLen + blobSize = bufSize := rfl
      rw [hperm.length_eq, length_cons, mul_succ]
      omega

theorem nul_mem_received (h : buf.length < bufSize) : '\x00' ∈ BdMap.received buf :=
  mem_append_right _ (mem_replicate.mpr ⟨(Nat.sub_pos_of_lt h).ne', rfl⟩)

/-- A piece without NUL that fills the buffer leaves none in it. -/
theorem length_lt_of_received (hnul : '\x00' ∉ buf) (h : '\x00' ∈ BdMap.received buf) :
    buf.length < bufSize := by
  have hzero := (mem_replicate.mp ((mem_append.mp h).resolve_left hnul)).1
  omega

theorem receive_spec {m m' : BdMap} {result : Option Text}
    (hbuf : Blob.ofString (cstr buf) = some b)
    (hsize : buf.length ≤ bufSize) (hroom : ∀ u, Within done u [])
    (hm : ∀ u s, m u = some s → Within done u s)
    (h : m.receive b = (result, m')) :
    match result with
    | some text => ∃ s, Within (done ++ [buf]) b.uuid s ∧ text = s.combine ∧ s.length = b.total
    | none => ∀ u s, m' u = some s → Within (done ++ [buf]) u s := by
  have hupdate : ∀ s', Within (done ++ [buf]) b.uuid s' →
      ∀ u s, Function.update m b.uuid (some s') u = some s → Within (done ++ [buf]) u s := by
    intro s' hs' u s hs
    by_cases hu : u = b.uuid
    · subst hu
      rw [Function.update_self] at hs
      exact Option.some.inj hs ▸ hs'
    · rw [Function.update_of_ne hu] at hs
      exact (hm u s hs).skip hbuf
  rw [BdMap.receive] at h
  split at h
  · next hone =>
      obtain ⟨rfl, rfl⟩ := Prod.mk.inj h
      exact ⟨BlobSet.insert b [], (hroom b.uuid).insert hbuf hsize, (append_nil _).symm, hone.symm⟩
  · split at h
    · obtain ⟨rfl, rfl⟩ := Prod.mk.inj h
      exact hupdate _ ((hroom b.uuid).insert hbuf hsize)
    · next set hset =>
        have hinsert := (hm b.uuid set hset).insert hbuf hsize
        simp only at h
        split at h
        · next htotal =>
            obtain ⟨rfl, rfl⟩ := Prod.mk.inj h
            exact ⟨set.insert b, hinsert, rfl, htotal⟩
        · obtain ⟨rfl, rfl⟩ := Prod.mk.inj h
          exact hupdate _ hinsert

variable {bufs : List Text} {u : UInt64}

/-- **What comes out** is a set of as many blobs as one of them says. -/
theorem ready_spec {m : BdMap} {result : Text} (hsize : ∀ buf ∈ bufs, buf.length ≤ bufSize)
    (hroom : ∀ u, Within done u []) (hm : ∀ u s, m u = some s → Within done u s)
    (h : m.loopedrecv bufs = some (some result)) :
    ∃ taken later u s field, bufs = taken ++ later ∧ (∀ buf ∈ taken, '\x00' ∈ BdMap.received buf) ∧
      Within (done ++ taken) u s ∧ result = s.combine ∧ field.length ≤ 7 ∧
      s.length = Blob.strtoull field := by
  induction bufs generalizing m done with
  | nil => cases h
  | cons buf bufs ih =>
    obtain ⟨hbufSize, hsize⟩ := forall_mem_cons.mp hsize
    rw [BdMap.loopedrecv] at h
    by_cases hnul : '\x00' ∉ BdMap.received buf
    · rw [if_pos hnul] at h
      cases h
    rw [if_neg hnul] at h
    rw [not_not] at hnul
    cases hbuf : Blob.ofString (cstr buf) with
    | none =>
      rw [BdMap.getBdStr, hbuf] at h
      cases h
    | some b =>
      rw [BdMap.getBdStr, hbuf, Option.map_some] at h
      cases hreceive : m.receive b with
      | mk text m' =>
        have hspec := receive_spec hbuf hbufSize hroom hm hreceive
        rw [hreceive] at h
        cases text with
        | some text =>
          obtain rfl : text = result := Option.some.inj (Option.some.inj h)
          obtain ⟨s, hs, hcombine, htotal⟩ := hspec
          obtain ⟨-, -, field, hfield, hb⟩ := Blob.ofString_spec hbuf
          exact ⟨[buf], bufs, b.uuid, s, field, rfl, forall_mem_singleton.mpr hnul, hs, hcombine,
            hfield, htotal.trans hb⟩
        | none =>
          obtain ⟨taken, later, u, s, field, rfl, htaken, hs, hrest⟩ :=
            ih hsize (fun u => (hroom u).skip hbuf) hspec h
          exact ⟨buf :: taken, later, u, s, field, rfl, forall_mem_cons.mpr ⟨hnul, htaken⟩,
            by rwa [← append_cons] at hs, hrest⟩

/-! ### The stream -/

/-- What `bsend` sends, with the id that was made for the message. -/
def stream (uuid : UInt64) (msg : Text) : Text := (split uuid msg).flatMap Blob.toString

variable {msg : Text} {n : Nat}

theorem Blob.length_toString (hseqNum : b.seqNum < 10 ^ 7) (htotal : b.total < 10 ^ 7)
    (hsize : b.size < 10 ^ 4) :
    b.toString.length = headerLen + b.value.length := by
  have huuid : b.uuid.toNat < 2 ^ 64 := b.uuid.toNat_lt
  rw [toString, length_append, length_append, length_append, length_append,
    length_padded (by omega) (by decide), length_padded hseqNum (by decide),
    length_padded htotal (by decide),
    length_padded hsize (by decide)]
  rfl

theorem Blob.length_toString_le (hseqNum : b.seqNum < 10 ^ 20) (htotal : b.total < 10 ^ 20)
    (hsize : b.size < 10 ^ 20) :
    b.toString.length ≤ 80 + b.value.length := by
  have huuid : b.uuid.toNat < 2 ^ 64 := b.uuid.toNat_lt
  have huuidLen : (padded 20 b.uuid.toNat).length = 20 := length_padded (by omega) (by decide)
  have hseqNumLen := length_padded_le hseqNum (by decide) (by decide : 7 ≤ 20)
  have htotalLen := length_padded_le htotal (by decide) (by decide : 7 ≤ 20)
  have hsizeLen := length_padded_le hsize (by decide) (by decide : 4 ≤ 20)
  rw [toString, length_append, length_append, length_append, length_append]
  omega

theorem sum_length_value (u : UInt64) (msg : Text) :
    ((split u msg).map fun b => b.value.length).sum = msg.length := by
  rw [← length_flatMap, flatMap_value_split]

theorem length_stream (u : UInt64) (hcount : chunkCount blobSize msg.length < 10 ^ 7) :
    (stream u msg).length = msg.length + Blob.headerLen * chunkCount blobSize msg.length := by
  have hlengths :
    (split u msg).map (fun b => b.toString.length) = (split u msg).map fun b => Blob.headerLen +
    b.value.length := by
    refine map_congr_left fun b hb => ?_
    obtain ⟨i, hi, rfl⟩ := mem_split.mp hb
    have hsize : (chunk blobSize msg i).length ≤ 512 := length_chunk_le i
    exact Blob.length_toString (by simp only; omega) hcount (by simp only; omega)
  rw [stream, length_flatMap, hlengths, sum_map_add, sum_length_value, map_const', sum_replicate,
    length_split, smul_eq_mul, add_comm, mul_comm]

theorem length_stream_le (u : UInt64) (hcount : chunkCount blobSize msg.length < 10 ^ 20) :
    (stream u msg).length ≤ msg.length + 80 * chunkCount blobSize msg.length := by
  have hlengths :
    ((split u msg).map fun b => b.toString.length).sum ≤
    ((split u msg).map fun b => 80 + b.value.length).sum := by
    refine sum_le_sum fun b hb => ?_
    obtain ⟨i, hi, rfl⟩ := mem_split.mp hb
    have hsize : (chunk blobSize msg i).length ≤ 512 := length_chunk_le i
    exact Blob.length_toString_le (by simp only; omega) hcount (by simp only; omega)
  rw [sum_map_add, sum_length_value, map_const', sum_replicate, length_split, smul_eq_mul,
    add_comm, mul_comm] at hlengths
  rwa [stream, length_flatMap]

/-! ### A message that comes out -/

theorem length_cstr_le (t : Text) : (cstr t).length ≤ t.length :=
  (List.takeWhile_prefix _).length_le

theorem sum_length_cstr_le (l : List Text) :
    (l.map fun buf => (cstr buf).length).sum ≤ (l.map length).sum :=
  sum_le_sum fun buf _ => length_cstr_le buf

theorem nul_notMem_of_sum {l : List Text}
    (h : (l.map length).sum ≤ (l.map fun buf => (cstr buf).length).sum) :
    ∀ buf ∈ l, '\x00' ∉ buf := by
  induction l with
  | nil => exact fun _ hbuf => absurd hbuf not_mem_nil
  | cons t l ih =>
    rw [map_cons, map_cons, sum_cons, sum_cons] at h
    have ht := length_cstr_le t
    have hl := sum_length_cstr_le l
    refine forall_mem_cons.mpr ⟨fun hnul => ?_, ih (by omega)⟩
    have hlength : (cstr t).length = t.length := by omega
    have heq : cstr t = t := (List.takeWhile_prefix _).eq_of_length hlength
    exact nul_notMem_cstr t (heq.symm ▸ hnul)

/-- **The pieces of a message that comes out**: there are as many as blobs, without a NUL, none
fills the buffer, and all are read as blobs of one message. -/
theorem pieces_of_ready (hstream : bufs.flatten = stream u msg) (hne : ∀ buf ∈ bufs, buf ≠ [])
    (hsize : ∀ buf ∈ bufs, buf.length ≤ bufSize) (hmsg : msg.length < 2 ^ 64)
    (h : BdMap.empty.loopedrecv bufs = some (some msg)) :
    chunkCount blobSize msg.length < 10 ^ 7 ∧ bufs.length = chunkCount blobSize msg.length ∧
      (∀ buf ∈ bufs, '\x00' ∉ buf ∧ buf.length < bufSize) ∧
      ∃ u', ∀ buf ∈ bufs, uuidOf buf = some u' := by
  have hnil : ∀ u, Within [] u [] := fun u => ⟨le_refl _, le_refl _, le_refl _⟩
  have hempty : ∀ u s, BdMap.empty u = some s → Within [] u s := by
    intro u s hs
    cases hs
  obtain ⟨taken, later, u', s, field, rfl, hreceived, hs, rfl, hfield, htotal⟩ :=
    ready_spec hsize hnil hempty h
  rw [nil_append] at hs
  have hroom := hs.room
  have hcut := sum_length_cstr_le taken
  have hlength : (taken.map length).sum + (later.map length).sum = (stream u s.combine).length := by
    rw [← hstream, length_flatten, map_append, sum_append]
  have hblobs : chunkCount blobSize s.combine.length ≤ s.length :=
    (chunkCount_le_iff (by decide)).mpr (mul_comm blobSize s.length ▸ hs.value)
  have hcount := hs.count
  have hall : taken.countP (fun buf => uuidOf buf = some u') ≤ taken.length := countP_le_length
  have hhead : Blob.headerLen = 38 := rfl
  obtain hfits | hlarge := lt_or_ge (chunkCount blobSize s.combine.length) (10 ^ 7)
  · rw [length_stream u hfits] at hlength
    have htaken : taken.length = chunkCount blobSize s.combine.length := by
      rw [hhead] at hroom hlength
      omega
    rw [htaken] at hroom
    obtain rfl : later = [] := by
      cases later with
      | nil => rfl
      | cons buf later =>
        have hpos := length_pos_of_ne_nil (hne buf (by simp))
        rw [map_cons, sum_cons] at hlength
        omega
    rw [append_nil]
    have hnul := nul_notMem_of_sum (l := taken) (by omega)
    refine ⟨hfits, htaken, fun buf hbuf => ?_, u', fun buf hbuf => ?_⟩
    · exact ⟨hnul buf hbuf, length_lt_of_received (hnul buf hbuf) (hreceived buf hbuf)⟩
    · have hevery := countP_eq_length.mp (le_antisymm hall (by omega)) buf hbuf
      simpa using hevery
  · -- no field stands for so many blobs, unless it has a sign
    have hlast : (chunkCount blobSize s.combine.length - 1) * 512 < s.combine.length :=
      (lt_chunkCount_iff (by decide : 0 < blobSize)).mp (by omega)
    have hle : (stream u s.combine).length ≤ s.combine.length + 80 *
      chunkCount blobSize s.combine.length :=
      length_stream_le u (by omega)
    rw [hhead] at hroom
    obtain hsmall | hsigned := Blob.strtoull_of_length_le hfield
    · omega
    · omega

/-! ### Where the pieces end -/

theorem take_behind {pre id : Text} (hpre : pre ≠ []) (hid : id.length = 20) (rest : Text) :
    (pre ++ (id ++ rest)).take 20 = (pre ++ id.take 19).take 20 := by
  have hpos := length_pos_of_ne_nil hpre
  have hid' : (id ++ rest).take (20 - pre.length) = id.take (20 - pre.length) :=
    take_append_of_le_length (by omega)
  have hcut : (pre ++ id.take 19).take 20 = pre.take 20 ++ id.take (20 - pre.length) := by
    rw [take_append, take_take, min_eq_left (by omega)]
  rw [hcut, take_append, hid']

/-- What a piece is read as. -/
def idOf (buf : Text) : UInt64 := UInt64.ofNat (Blob.strtoull (buf.take 20))

/-- The stream of blobs with one id. `fields` is what follows the id. -/
def streamOf (id : Text) (fields : List Text) : Text := fields.flatMap (id ++ ·)

theorem drop_streamOf {id t : Text} (hid : id.length = 20) (ht : 20 + t.length = n)
    (fields : List Text) :
    (streamOf id (t :: fields)).drop n = streamOf id fields := by
  have hlength : n = (id ++ t).length := by rw [length_append, hid, ht]
  rw [hlength, streamOf, flatMap_cons, drop_left, streamOf]

/-- Inside of the first blob: a piece that begins there begins with what is left of it. -/
theorem take_drop_streamOf {id t : Text} (hid : id.length = 20) (hn : 20 ≤ n)
    (ht : n < 20 + t.length) (t' : Text)
    (fields : List Text) :
    ((streamOf id (t :: t' :: fields)).drop n).take 20 =
    (t.drop (n - 20) ++ id.take 19).take 20 := by
  have hleft : t.drop (n - 20) ≠ [] := ne_nil_of_length_pos (by rw [length_drop]; omega)
  have hdrop :
    (streamOf id (t :: t' :: fields)).drop n = t.drop (n - 20) ++
    (id ++ (t' ++ streamOf id fields)) := by
    rw [streamOf, flatMap_cons, flatMap_cons, ← streamOf, append_assoc, drop_append, hid,
      drop_eq_nil_of_le (by omega), nil_append, drop_append_of_le_length (by omega), append_assoc]
  rw [hdrop, take_behind hleft hid]

/-- **If every piece begins with the id, for the ids 0 and 1,** the pieces are the blobs. -/
theorem lengths_of_ids {fields : List Text} (hfull : ∀ t ∈ fields.dropLast, 20 + t.length = bufSize)
    {lens : List Nat}
    (hlength : lens.length = fields.length) (hle : ∀ n ∈ lens, Blob.headerLen ≤ n ∧ n ≤ bufSize)
    (hsum : lens.sum = (fields.map fun t => 20 + t.length).sum)
    (hzero : ∀ buf ∈ lens.splitLengths (streamOf (padded 20 0) fields), idOf buf = 0)
    (hone : ∀ buf ∈ lens.splitLengths (streamOf (padded 20 1) fields), idOf buf = 1) :
    lens = fields.map fun t => 20 + t.length := by
  induction fields generalizing lens with
  | nil => exact length_eq_zero_iff.mp hlength
  | cons t fields ih =>
    obtain ⟨n, lens, rfl⟩ := exists_cons_of_length_eq_add_one hlength
    replace hlength : lens.length = fields.length := succ.inj hlength
    obtain ⟨hn, hle⟩ := forall_mem_cons.mp hle
    rw [map_cons, sum_cons, sum_cons] at hsum
    cases fields with
    | nil =>
      obtain rfl := length_eq_zero_iff.mp hlength
      simp only [sum_nil, add_zero] at hsum
      rw [hsum]
      rfl
    | cons t' fields =>
      have ht : 20 + t.length = bufSize := hfull t mem_cons_self
      have hhead : Blob.headerLen = 38 := rfl
      rw [splitLengths_cons] at hzero hone
      by_cases heq : n = bufSize
      · rw [drop_streamOf (by decide) (heq ▸ ht)] at hzero hone
        have hrest := ih (fun t ht => hfull t (mem_cons_of_mem _ ht)) hlength hle (by omega)
          (fun buf hbuf => hzero buf (mem_cons_of_mem _ hbuf))
            (fun buf hbuf => hone buf (mem_cons_of_mem _ hbuf))
        rw [hrest, heq, ← ht]
        rfl
      · -- the next piece begins with what is left of the blob
        obtain ⟨n', lens, rfl⟩ := exists_cons_of_length_eq_add_one hlength
        have hn' := (forall_mem_cons.mp hle).1
        have hsame : (padded 20 0).take 19 = (padded 20 1).take 19 := by decide
        rw [splitLengths_cons] at hzero hone
        have hid := hzero _ (mem_cons_of_mem _ mem_cons_self)
        have hid' := hone _ (mem_cons_of_mem _ mem_cons_self)
        rw [idOf, take_take, min_eq_left (by omega),
          take_drop_streamOf (by decide) (by omega) (by omega)] at hid hid'
        rw [hsame, hid'] at hid
        cases hid

/-! ### The message comes out -/

/-- What follows the id. -/
def Blob.fields (b : Blob) :
    Text := padded 7 b.seqNum ++ padded 7 b.total ++ padded 4 b.size ++ b.value

def fieldsOf (msg : Text) : List Text := (split 0 msg).map Blob.fields

theorem stream_eq (u : UInt64) (msg : Text) :
    stream u msg = streamOf (padded 20 u.toNat) (fieldsOf msg) := by
  rw [stream, streamOf, fieldsOf, split_eq, split_eq, flatMap_map, map_map, flatMap_map]
  refine flatMap_congr fun i _ => ?_
  simp [Blob.toString, Blob.fields]

theorem length_padded_uuid (u : UInt64) : (padded 20 u.toNat).length = 20 := by
  have huuid : u.toNat < 2 ^ 64 := u.toNat_lt
  exact length_padded (by omega) (by decide)

theorem length_toString_eq (b : Blob) : b.toString.length = 20 + b.fields.length := by
  rw [Blob.toString, Blob.fields]
  simp [length_padded_uuid]

/-- The lengths of the blobs. -/
def blobLens (msg : Text) : List Nat := (fieldsOf msg).map fun t => 20 + t.length

theorem blobLens_eq (u : UInt64) (msg : Text) :
    blobLens msg = (split u msg).map fun b => b.toString.length := by
  simp only [length_toString_eq]
  rw [blobLens, fieldsOf, split_eq, split_eq, map_map, map_map, map_map]
  rfl

theorem full_of_mem_dropLast (hcount : chunkCount blobSize msg.length < 10 ^ 7) {t : Text}
    (ht : t ∈ (fieldsOf msg).dropLast) :
    20 + t.length = bufSize := by
  have hrange : ∀ c, (range c).dropLast = range (c - 1) := by
    intro c
    cases c with
    | zero => rfl
    | succ c => rw [range_succ, dropLast_concat, Nat.add_sub_cancel]
  rw [fieldsOf, split_eq, map_map, ← map_dropLast, hrange] at ht
  obtain ⟨i, hi, rfl⟩ := mem_map.mp ht
  have hi : i + 1 < chunkCount blobSize msg.length := add_lt_of_lt_sub (mem_range.mp hi)
  have hfull := length_chunk_of_lt (by decide) hi
  have hblob := Blob.length_toString
    (b := ⟨0, i + 1, chunkCount blobSize msg.length, (chunk blobSize msg i).length,
    chunk blobSize msg i⟩)
    (by simp only; omega) hcount (by simp only [hfull]; decide)
  rw [length_toString_eq, hfull] at hblob
  simp only [Function.comp_apply, hfull]
  exact hblob

variable {lens : List Nat}

theorem length_stream_eq (u : UInt64) (msg : Text) :
    (stream u msg).length = (blobLens msg).sum := by
  rw [blobLens_eq u, stream, length_flatMap]

theorem splitLengths_pieces (hsum : lens.sum = (blobLens msg).sum)
    (hlens : ∀ n ∈ lens, 0 < n ∧ n ≤ bufSize) (u : UInt64) :
    (lens.splitLengths (stream u msg)).flatten = stream u msg ∧
      (∀ buf ∈ lens.splitLengths (stream u msg), buf ≠ [] ∧ buf.length ≤ bufSize) ∧
      (lens.splitLengths (stream u msg)).map length = lens := by
  have hlength : (stream u msg).length = lens.sum := by rw [length_stream_eq, hsum]
  have hmap := map_splitLengths_length _ _ (le_of_eq hlength.symm)
  refine ⟨flatten_splitLengths _ _ (le_of_eq hlength), fun buf hbuf => ?_, hmap⟩
  have hmem : buf.length ∈ lens := hmap ▸ mem_map_of_mem hbuf
  exact ⟨ne_nil_of_length_pos (hlens _ hmem).1, (hlens _ hmem).2⟩

theorem take_stream (hpos : 0 < chunkCount blobSize msg.length) :
    (stream u msg).take 20 = padded 20 u.toNat := by
  have hfields : (fieldsOf msg).length = chunkCount blobSize msg.length := by
    rw [fieldsOf, length_map, length_split]
  obtain ⟨t, rest, hcons⟩ := exists_cons_of_ne_nil (ne_nil_of_length_pos (hfields ▸ hpos))
  rw [stream_eq, hcons, streamOf, flatMap_cons, append_assoc]
  exact take_left' (length_padded_uuid u)

/-- **One id**: every piece is read as a blob of the message. -/
theorem ids_of_ready (hne : msg ≠ []) (hmsg : msg.length < 2 ^ 64)
    (hsum : lens.sum = (blobLens msg).sum)
    (hlens : ∀ n ∈ lens, 0 < n ∧ n ≤ bufSize)
    (h : BdMap.empty.loopedrecv (lens.splitLengths (stream u msg)) = some (some msg)) :
    ∀ buf ∈ lens.splitLengths (stream u msg), Blob.headerLen ≤ buf.length ∧ idOf buf = u := by
  obtain ⟨hstream, hpieces, -⟩ := splitLengths_pieces hsum hlens u
  obtain ⟨-, hnumber, hnul, u', hu'⟩ :=
    pieces_of_ready hstream (fun buf hbuf => (hpieces buf hbuf).1)
    (fun buf hbuf => (hpieces buf hbuf).2) hmsg h
  have hread : ∀ buf ∈ lens.splitLengths (stream u msg), Blob.headerLen ≤ buf.length ∧
    idOf buf = u' := by
    intro buf hbuf
    obtain ⟨b, hb, hbu⟩ := Option.map_eq_some_iff.mp (hu' buf hbuf)
    rw [cstr_eq_self (hnul buf hbuf).1] at hb
    obtain ⟨hlength, huuid, -⟩ := Blob.ofString_spec hb
    exact ⟨hlength ▸ Nat.le_add_right .., huuid.symm.trans hbu⟩
  -- the first piece begins with the id
  have hfirst : u' = u := by
    have hpos : 0 < chunkCount blobSize msg.length :=
      (lt_chunkCount_iff (by decide)).mpr (by exact length_pos_of_ne_nil hne)
    cases lens with
    | nil =>
      rw [splitLengths_nil, length_nil] at hnumber
      omega
    | cons n lens =>
      obtain ⟨hhead, hid⟩ :=
        hread ((stream u msg).take n) (by rw [splitLengths_cons]; exact mem_cons_self)
      have hn : Blob.headerLen ≤ n := hhead.trans (length_take_le ..)
      have hlong : Blob.headerLen = 38 := rfl
      rw [← hid, idOf, take_take, min_eq_left (by omega), take_stream hpos,
        Blob.strtoull_padded u.toNat_lt, UInt64.ofNat_toNat]
  rwa [hfirst] at hread

/-- The pieces are the blobs. -/
def Aligned (lens : List Nat) (msg : Text) : Prop :=
  ∀ u, lens.splitLengths (stream u msg) = (split u msg).map Blob.toString

theorem splitLengths_flatMap {α : Type} (f : α → Text) (l : List α) :
    (l.map fun a => (f a).length).splitLengths (l.flatMap f) = l.map f := by
  induction l with
  | nil => rfl
  | cons a l ih =>
    rw [map_cons, flatMap_cons, splitLengths_cons, take_left, drop_left, ih, map_cons]

theorem aligned_blobLens (msg : Text) : Aligned (blobLens msg) msg := fun u => by
  rw [blobLens_eq u, stream, splitLengths_flatMap]

theorem loopedrecv_of_recvAll {m m' : BdMap} {results : List (Option Text)}
    (hsize : ∀ buf ∈ bufs, buf.length < bufSize) (h : m.recvAll bufs = some (results, m')) :
    m.loopedrecv bufs = some (results.findSome? id) := by
  induction bufs generalizing m m' results with
  | nil =>
    obtain rfl : [] = results := congrArg Prod.fst (Option.some.inj h)
    rfl
  | cons buf bufs ih =>
    cases hget : m.getBdStr buf with
    | none => simp [BdMap.recvAll, hget] at h
    | some x =>
      obtain ⟨result, m1⟩ := x
      rw [recvAll_cons hget] at h
      obtain ⟨⟨rest, m2⟩, hy, hresults⟩ := Option.map_eq_some_iff.mp h
      obtain rfl : result :: rest = results := congrArg Prod.fst hresults
      obtain ⟨hbuf, hsize⟩ := forall_mem_cons.mp hsize
      rw [BdMap.loopedrecv, if_neg (not_not_intro (nul_mem_received hbuf)), hget]
      have hrest := ih hsize hy
      cases result with
      | none => exact hrest
      | some text => rfl

theorem findSome?_expected {msgs : List (UInt64 × Text)} {l : List Blob} (hl : l ≠ [])
    (hu : ∀ b ∈ l, b.uuid = u) : (expected msgs l).findSome? id = msgs.lookup u := by
  induction l with
  | nil => exact absurd rfl hl
  | cons b rest ih =>
    obtain ⟨hb, hrest⟩ := forall_mem_cons.mp hu
    rw [expected, hb]
    cases rest with
    | nil =>
      cases msgs.lookup u with
      | none => rfl
      | some text => rfl
    | cons c rest =>
      have hc : ofUuid u (c :: rest) ≠ [] := by
        rw [← hrest c mem_cons_self, ofUuid_cons_self]
        exact cons_ne_nil _ _
      rw [if_neg hc]
      exact ih (cons_ne_nil _ _) hrest

theorem mem_stream {c : Char} (h : c ∈ msg) : c ∈ stream u msg := by
  rw [← flatMap_value_split u msg] at h
  obtain ⟨b, hb, hc⟩ := mem_flatMap.mp h
  exact mem_flatMap.mpr ⟨b, hb, mem_append_right _ hc⟩

theorem legible_of_ready (hmsg : msg.length < 2 ^ 64) (hsum : lens.sum = (blobLens msg).sum)
    (hlens : ∀ n ∈ lens, 0 < n ∧ n ≤ bufSize)
    (h : BdMap.empty.loopedrecv (lens.splitLengths (stream u msg)) = some (some msg)) :
    Legible msg := by
  obtain ⟨hstream, hpieces, -⟩ := splitLengths_pieces hsum hlens u
  obtain ⟨hcount, -, hnul, -⟩ := pieces_of_ready hstream (fun buf hbuf => (hpieces buf hbuf).1)
    (fun buf hbuf => (hpieces buf hbuf).2) hmsg h
  refine ⟨fun hmem => ?_, (chunkCount_le_iff (by decide)).mp (le_sub_one_of_lt hcount)⟩
  have hmem' := mem_stream (u := u) hmem
  rw [← hstream] at hmem'
  obtain ⟨buf, hbuf, hin⟩ := mem_flatten.mp hmem'
  exact (hnul buf hbuf).1 hin

theorem Legible.length_toString (hlegible : Legible msg) {i : Nat}
    (hi : i < chunkCount blobSize msg.length) :
    (Blob.mk u (i + 1) (chunkCount blobSize msg.length) (chunk blobSize msg i).length
      (chunk blobSize msg i)).toString.length = Blob.headerLen + (chunk blobSize msg i).length := by
  have hcount : chunkCount blobSize msg.length ≤ 10 ^ 7 - 1 :=
    (chunkCount_le_iff (by decide)).mpr hlegible.2
  have hsize : (chunk blobSize msg i).length ≤ 512 := length_chunk_le i
  exact Blob.length_toString (by simp only; omega) (by simp only; omega) (by simp only; omega)

/-- The first blob of a long message fills the buffer. -/
theorem bufSize_mem_blobLens (hlegible : Legible msg) (hlong : blobSize ≤ msg.length) :
    bufSize ∈ blobLens msg := by
  have hpos : 0 < blobSize := by decide
  have hfirst : 0 < chunkCount blobSize msg.length :=
    (lt_chunkCount_iff hpos).mpr ((zero_mul blobSize).symm ▸ hpos.trans_le hlong)
  have hchunk : (chunk blobSize msg 0).length = blobSize := by
    rw [chunk, zero_mul, drop_zero, length_take, min_eq_left hlong]
  have hlength := hlegible.length_toString (u := 0) hfirst
  rw [hchunk] at hlength
  rw [blobLens_eq 0, mem_map]
  exact ⟨_, mem_split.mpr ⟨0, hfirst, rfl⟩, by rw [hchunk]; exact hlength⟩

theorem lens_of_ready (hne : msg ≠ []) (hmsg : msg.length < 2 ^ 64)
    (hsum : lens.sum = (blobLens msg).sum)
    (hlens : ∀ n ∈ lens, 0 < n ∧ n ≤ bufSize)
    (h : ∀ u, BdMap.empty.loopedrecv (lens.splitLengths (stream u msg)) = some (some msg)) :
    lens = blobLens msg := by
  obtain ⟨hstream, hpieces, hmap⟩ := splitLengths_pieces hsum hlens 0
  obtain ⟨hcount, hnumber, -⟩ := pieces_of_ready hstream (fun buf hbuf => (hpieces buf hbuf).1)
    (fun buf hbuf => (hpieces buf hbuf).2) hmsg (h 0)
  have hzero := ids_of_ready hne hmsg hsum hlens (h 0)
  have hone := ids_of_ready hne hmsg hsum hlens (h 1)
  refine lengths_of_ids (fun t ht => full_of_mem_dropLast hcount ht) ?_
    (fun n hn => ⟨?_, (hlens n hn).2⟩) hsum
    (fun buf hbuf => ?_) fun buf hbuf => ?_
  · rw [length_splitLengths] at hnumber
    rw [hnumber, fieldsOf, length_map, length_split]
  · rw [← hmap] at hn
    obtain ⟨buf, hbuf, rfl⟩ := mem_map.mp hn
    exact (hzero buf hbuf).1
  · have hstream0 : stream 0 msg = streamOf (padded 20 0) (fieldsOf msg) := stream_eq 0 msg
    exact (hzero buf (hstream0 ▸ hbuf)).2
  · have hstream1 : stream 1 msg = streamOf (padded 20 1) (fieldsOf msg) := stream_eq 1 msg
    exact (hone buf (hstream1 ▸ hbuf)).2

/-- A message whose one blob leaves a NUL in the buffer, and has none itself. -/
def FitsBuffer (msg : Text) : Prop := '\x00' ∉ msg ∧ msg.length < blobSize

instance (msg : Text) : Decidable (FitsBuffer msg) := inferInstanceAs (Decidable (_ ∧ _))

theorem FitsBuffer.legible (h : FitsBuffer msg) : Legible msg :=
  ⟨h.1, h.2.le.trans (Nat.le_mul_of_pos_left _ (by decide))⟩

theorem FitsBuffer.length_lt (h : FitsBuffer msg) {buf : Text}
    (hbuf : buf ∈ (split u msg).map Blob.toString) :
    buf.length < bufSize := by
  obtain ⟨b, hb, rfl⟩ := mem_map.mp hbuf
  obtain ⟨i, hi, rfl⟩ := mem_split.mp hb
  have hchunk : (chunk blobSize msg i).length ≤ msg.length := by
    rw [chunk, length_take, length_drop]
    omega
  have hfull : Blob.headerLen + blobSize = bufSize := rfl
  have hfits := h.2
  rw [h.legible.length_toString hi]
  omega

/-- **The message comes out**, for every id, if and only if it is short and has no NUL, and the
piece that is received is its blob. -/
theorem transferred_iff (hne : msg ≠ []) (hmsg : msg.length < 2 ^ 64)
    (hsum : lens.sum = (blobLens msg).sum)
    (hlens : ∀ n ∈ lens, 0 < n ∧ n ≤ bufSize) :
    (∀ u, BdMap.empty.loopedrecv (lens.splitLengths (stream u msg)) = some (some msg)) ↔
      FitsBuffer msg ∧ Aligned lens msg := by
  constructor
  · intro h
    have hlegible := legible_of_ready hmsg hsum hlens (h 0)
    have hlensEq := lens_of_ready hne hmsg hsum hlens h
    obtain ⟨hstream, hpieces, hmap⟩ := splitLengths_pieces hsum hlens 0
    obtain ⟨-, -, hnul, -⟩ := pieces_of_ready hstream (fun buf hbuf => (hpieces buf hbuf).1)
      (fun buf hbuf => (hpieces buf hbuf).2) hmsg (h 0)
    refine ⟨⟨hlegible.1, not_le.mp fun hlong => ?_⟩, hlensEq ▸ aligned_blobLens msg⟩
    -- a blob that fills the buffer would have been received
    have hfull := bufSize_mem_blobLens hlegible hlong
    rw [← hlensEq, ← hmap] at hfull
    obtain ⟨buf, hbuf, hlength⟩ := mem_map.mp hfull
    exact absurd (hnul buf hbuf).2 (not_lt.mpr hlength.ge)
  · rintro ⟨hfits, haligned⟩ u
    have hperm : (split u msg).Perm (allBlobs [(u, msg)]) := by
      rw [allBlobs, flatMap_singleton]
    have hids : ([(u, msg)].map Prod.fst).Nodup := nodup_singleton u
    have hall : Reassembled [(u, msg)] (split u msg) := by
      refine reassembled_of_legible hids (fun m hm => ?_) hperm
      rw [mem_singleton.mp hm]
      exact hfits.legible
    have hsplit : split u msg ≠ [] := by
      intro hnil
      have hvalues := flatMap_value_split u msg
      rw [hnil] at hvalues
      exact hne hvalues.symm
    have huuid : ∀ b ∈ split u msg, b.uuid = u := by
      intro b hb
      obtain ⟨i, -, rfl⟩ := mem_split.mp hb
      rfl
    rw [haligned u, loopedrecv_of_recvAll (fun _ => hfits.length_lt) hall,
      findSome?_expected hsplit huuid, lookup_cons_self]

/-- A message of one blob that is received whole comes out, one of two blobs does not, even if each
of them is. -/
theorem transferred_one_not_two :
    (∀ u, BdMap.empty.loopedrecv ([40].splitLengths (stream u ['a', 'b'])) =
        some (some ['a', 'b'])) ∧
      ¬ ∀ u, BdMap.empty.loopedrecv ([550, 39].splitLengths (stream u (replicate 513 'a'))) =
        some (some (replicate 513 'a')) := by
  constructor
  · refine (transferred_iff (by decide) (by decide) (by decide +kernel) (by decide)).mpr
      ⟨by decide, ?_⟩
    have hlens : [40] = blobLens ['a', 'b'] := by decide +kernel
    exact hlens ▸ aligned_blobLens ['a', 'b']
  · intro h
    have hlong : (replicate 513 'a').length = 513 := length_replicate
    have hfits := (transferred_iff (ne_nil_of_length_pos (by rw [hlong]; decide))
      (by rw [hlong]; decide) (by decide +kernel) (by decide)).mp h
    exact absurd hfits.1.2 (by rw [hlong]; decide)

/-- One blob in two pieces: what the first one has is taken for the message. -/
theorem not_transferred_two :
    [39, 1].sum = (blobLens ['a', 'b']).sum ∧ (∀ n ∈ [39, 1], 0 < n ∧ n ≤ bufSize) ∧
      BdMap.empty.loopedrecv ([39, 1].splitLengths (stream 7 ['a', 'b'])) = some (some ['a']) := by
  decide +kernel

end CharmRuntime.Zht
