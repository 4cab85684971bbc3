import CharmRuntime.Lib.Outcome
import CharmRuntime.Streamer.Chunks

/-!
# Streamer.ChunksSend

What the sender sends: chunk `i` of an array with bytes `bytes` (the elements and then the
extra data) carries the bytes from `i * CHUNK_SIZE` on (`Carries`). The loop over full chunks
sends the first of them; the loop over the extra data is entered with the end of the array in
the chunk's buffer and packs the rest behind it.
-/

namespace CharmRuntime.Streamer

open Lib List Nat

variable {P : Type}

/-! ### Conversions -/

theorem toInt_of_lt {x : Int} (hlow : -2 ^ 31 ≤ x) (hhigh : x < 2 ^ 31) : toInt x = x := by
  unfold toInt
  rw [Int.bmod_def]
  omega

theorem toShort_of_lt {x : Int} (hlow : 0 ≤ x) (hhigh : x ≤ 32767) : toShort x = x := by
  unfold toShort
  rw [Int.bmod_def]
  omega

/-- `memcpy` inside of both buffers. -/
theorem memcpy_ok (dst src : List MemVal) (dstOff srcOff len : Nat)
    (hdst : dstOff + len ≤ dst.length) (hsrc : srcOff + len ≤ src.length) :
    memcpy dst dstOff src srcOff len
      = .ok (dst.take dstOff ++ (src.drop srcOff).take len ++ dst.drop (dstOff + len)) := by
  unfold memcpy
  rw [if_pos (by omega)]
  simp

/-! ### Chunks -/

/-- The bytes of chunk `i`. -/
def piece (cs : Nat) (bytes : List MemVal) (i : Nat) : List MemVal := (bytes.drop (i * cs)).take cs

/-- The number of chunks. -/
def pieces (cs : Nat) (total : Nat) : Nat := (total + cs - 1) / cs

theorem le_pieces_mul (cs total : Nat) (hcs : 0 < cs) : total ≤ pieces cs total * cs := by
  have hmod := div_add_mod (total + cs - 1) cs
  have hlt := mod_lt (total + cs - 1) hcs
  rw [pieces, mul_comm]
  omega

theorem lt_pieces {cs total i : Nat} (hcs : 0 < cs) : i < pieces cs total ↔ i * cs < total := by
  unfold pieces
  rw [lt_div_iff_mul_lt hcs]
  omega

/-- A chunk of the array with number `bn` of source `src`. -/
structure Carries (cs : Nat) (bytes : List MemVal) (src : P) (bn numItems : Nat)
    (c : ChunkDataItem P) : Prop where
  sourcePe : c.sourcePe = src
  bufferNumber : c.bufferNumber = bn
  numChunks : c.numChunks = pieces cs bytes.length
  numItems_eq : c.numItems = numItems
  rawData_length : c.rawData.length = cs
  chunkSize : c.chunkSize = (piece cs bytes c.chunkNumber).length
  data : c.rawData.take (piece cs bytes c.chunkNumber).length = piece cs bytes c.chunkNumber

/-- A chunk with all but its data. -/
structure Labelled (cs : Nat) (total : Nat) (src : P) (bn numItems : Nat)
    (c : ChunkDataItem P) : Prop where
  sourcePe : c.sourcePe = src
  bufferNumber : c.bufferNumber = bn
  numChunks : c.numChunks = pieces cs total
  numItems_eq : c.numItems = numItems
  rawData_length : c.rawData.length = cs

section Send

variable {cs : Nat} {array extra : List MemVal} {src : P} {bn numItems : Nat}

/-- The loop over full chunks, entered at chunk `i`. It stops at the chunk `j` with the end of
the array. -/
theorem fullChunks_ok (hcs : 0 < cs ∧ cs ≤ 32767) (hfit : array.length < 2 ^ 31) (fuel i : Nat)
    (hfuel : array.length < fuel + i * cs) (hi : i = 0 ∨ i * cs < array.length)
    {chunk : ChunkDataItem P}
    (hc : Labelled cs (array ++ extra).length src bn numItems chunk)
    (hnumber : chunk.chunkNumber = i)
    (hsize : chunk.chunkSize = cs) :
    ∃ j chunk' sent,
      fullChunks cs array array.length fuel ((i * cs : Nat) : Int) chunk
        = .ok (((j * cs : Nat) : Int), chunk', sent) ∧
      i ≤ j ∧ (j = 0 ∨ j * cs < array.length) ∧ array.length ≤ j * cs + cs ∧
      Labelled cs (array ++ extra).length src bn numItems chunk' ∧ chunk'.chunkNumber = j ∧
      sent.map (·.chunkNumber) = range' i (j - i) ∧
      ∀ c ∈ sent, Carries cs (array ++ extra) src bn numItems c := by
  induction fuel generalizing i chunk with
  | zero =>
    obtain rfl | hi := hi
    · omega
    · omega
  | succ fuel ih =>
    have hbound : toInt (array.length - cs) = array.length - cs :=
      toInt_of_lt (by omega) (by omega)
    unfold fullChunks
    by_cases hmore : i * cs + cs < array.length
    · rw [if_pos (by omega)]
      have hnext : toInt ((i * cs : Nat) + cs) = ((i + 1) * cs : Nat) := by
        rw [toInt_of_lt (by omega) (by omega), succ_mul]
        rfl
      have hcopy := memcpy_ok chunk.rawData array 0 (i * cs) cs (by rw [hc.rawData_length]; omega)
        (by omega)
      have hraw :
        chunk.rawData.take 0 ++ (array.drop (i * cs)).take cs ++ chunk.rawData.drop (0 + cs)
          = (array.drop (i * cs)).take cs := by
        have hend : chunk.rawData.drop (0 + cs) = [] :=
          drop_eq_nil_of_le (by rw [hc.rawData_length, zero_add])
        rw [hend]
        simp
      have hpiece : piece cs (array ++ extra) i = (array.drop (i * cs)).take cs := by
        rw [piece, drop_append_of_le_length (by omega), take_append_of_le_length]
        rw [length_drop]
        omega
      have hlen : ((array.drop (i * cs)).take cs).length = cs := by
        rw [length_take, length_drop]
        omega
      rw [hraw, cast_zero] at hcopy
      have hlabel : Labelled cs (array ++ extra).length src bn numItems
          { chunk with rawData := (array.drop (i * cs)).take cs, chunkNumber := i + 1 } :=
        { hc with rawData_length := hlen }
      obtain ⟨j, chunk', sent, hrun, hij, hj, hstop, hc', hnumber', hnumbers, hall⟩ :=
        ih (i + 1) (by rw [succ_mul]; omega) (.inr (by rw [succ_mul]; omega)) hlabel rfl
          hsize
      refine ⟨j, chunk', { chunk with rawData := (array.drop (i * cs)).take cs } :: sent, ?_,
        by omega, hj, hstop, hc', hnumber', ?_, ?_⟩
      · simp only [hcopy, hnext, hnumber, bind, Except.bind, hrun]
      · have hsucc : j - i = (j - (i + 1)) + 1 := by omega
        rw [map_cons, hnumbers, hsucc, range'_succ]
        exact congrArg (· :: _) hnumber
      · refine forall_mem_cons.mpr ⟨?_, hall⟩
        exact
          { sourcePe := hc.sourcePe
            bufferNumber := hc.bufferNumber
            numChunks := hc.numChunks
            numItems_eq := hc.numItems_eq
            rawData_length := hlen
            chunkSize := by
              rw [hnumber, hpiece, hlen]
              exact hsize
            data := by
              rw [hnumber, hpiece]
              exact take_length }
    · rw [if_neg (by omega)]
      refine ⟨i, chunk, [], rfl, le_rfl, hi, by omega, hc, hnumber, ?_, ?_⟩
      · simp
      · simp

/-- The loop over the extra data, entered at chunk `i` with the first `t` bytes of the chunk in
place. -/
theorem extraChunks_ok (hcs : 0 < cs ∧ cs ≤ 32767)
    (hfit : pieces cs (array ++ extra).length * cs < 2 ^ 31) (fuel i t eo : Nat)
    (hfuel : (array ++ extra).length < fuel + i * cs) (hi : i * cs < (array ++ extra).length)
    (ht : t ≤ cs) (heo : eo ≤ extra.length) (hpos : array.length + eo = i * cs + t)
    {chunk : ChunkDataItem P} (hc : Labelled cs (array ++ extra).length src bn numItems chunk)
    (hnumber : chunk.chunkNumber = i)
    (hplaced : chunk.rawData.take t = ((array ++ extra).drop (i * cs)).take t) :
    ∃ sent,
      extraChunks cs extra (array ++ extra).length fuel ((i * cs : Nat) : Int) t
        ((extra.length - eo : Nat) : Int) eo chunk = .ok sent ∧
      sent.map (·.chunkNumber) = range' i (pieces cs (array ++ extra).length - i) ∧
      ∀ c ∈ sent, Carries cs (array ++ extra) src bn numItems c := by
  induction fuel generalizing i t eo chunk with
  | zero => exact absurd hfuel (by omega)
  | succ fuel ih =>
    have htotal : (array ++ extra).length = array.length + extra.length := length_append
    have hlen : (piece cs (array ++ extra) i).length
        = min cs (array.length + extra.length - i * cs) := by
      rw [piece, length_take, length_drop, htotal]
    generalize hL : (piece cs (array ++ extra) i).length = L at hlen
    -- the chunk is filled up to its end, or to the end of the extra data
    have hsize : toShort (min (t + (extra.length - eo : Nat)) cs) = L := by
      rw [toShort_of_lt (by omega) (by omega)]
      omega
    have hnext : toInt ((i * cs : Nat) + cs) = ((i + 1) * cs : Nat) := by
      have hround := mul_le_mul_right cs (succ_le_of_lt ((lt_pieces hcs.1).mpr hi))
      rw [succ_mul] at hround ⊢
      rw [toInt_of_lt (by omega) (by omega)]
      rfl
    have hrest : (L : Int) - t = (L - t : Nat) := by omega
    have hcopy := memcpy_ok chunk.rawData extra t eo (L - t) (by rw [hc.rawData_length]; omega)
      (by omega)
    generalize hraw : chunk.rawData.take t ++ (extra.drop eo).take (L - t) ++
      chunk.rawData.drop (t + (L - t)) = raw at hcopy
    have hfilled : (chunk.rawData.take t ++ (extra.drop eo).take (L - t)).length = L := by
      rw [length_append, length_take, length_take, length_drop,
        hc.rawData_length]
      omega
    have hrawlen : raw.length = cs := by
      rw [← hraw, length_append, length_drop, hc.rawData_length]
      omega
    have hdata : raw.take L = piece cs (array ++ extra) i := by
      have hbehind : ((array ++ extra).drop (i * cs)).drop t = extra.drop eo := by
        rw [drop_drop, ← hpos, drop_append, drop_eq_nil_of_le (by omega),
          nil_append, Nat.add_sub_cancel_left]
      have hpiece : piece cs (array ++ extra) i = ((array ++ extra).drop (i * cs)).take L := by
        rw [← hL, piece, take_eq_take_iff, length_take]
        omega
      rw [← hraw, take_append_of_le_length hfilled.ge, take_of_length_le hfilled.le, hpiece,
        hplaced]
      have hsplit : L = t + (L - t) := by omega
      conv_rhs => rw [hsplit, take_add, hbehind]
    have hcarries : Carries cs (array ++ extra) src bn numItems
        { chunk with chunkSize := L, rawData := raw } :=
      { hc with
        rawData_length := hrawlen
        chunkSize := by rw [hnumber, hL]
        data := by
          simp only [hnumber, hL]
          exact hdata }
    unfold extraChunks
    simp only [hsize, hrest, hcopy, hnext, bind, Except.bind]
    by_cases hmore : (i + 1) * cs < (array ++ extra).length
    · rw [if_pos (by omega)]
      rw [succ_mul] at hmore
      have hlabel : Labelled cs (array ++ extra).length src bn numItems
          { chunk with chunkSize := L, rawData := raw, chunkNumber := i + 1 } :=
        { hc with rawData_length := hrawlen }
      have heo' : eo + (L - t) ≤ extra.length := by omega
      have hpos' : array.length + (eo + (L - t)) = (i + 1) * cs + 0 := by
        rw [succ_mul]
        omega
      obtain ⟨sent, hrun, hnumbers, hall⟩ := ih (i + 1) 0 (eo + (L - t))
        (by omega) (by omega) (zero_le _) heo' hpos' hlabel
        rfl rfl
      have hremaining : ((extra.length - eo : Nat) : Int) - (L - t : Nat)
          = (extra.length - (eo + (L - t)) : Nat) := by omega
      have hoffset : (eo : Int) + (L - t : Nat) = (eo + (L - t) : Nat) := by omega
      refine ⟨{ chunk with chunkSize := L, rawData := raw } :: sent, ?_, ?_, ?_⟩
      · rw [hremaining, hoffset, hnumber]
        rw [cast_zero] at hrun
        rw [hrun]
      · have hlast : i + 1 < pieces cs (array ++ extra).length := by
          rw [lt_pieces hcs.1, succ_mul]
          exact hmore
        have hsucc : pieces cs (array ++ extra).length - i
            = (pieces cs (array ++ extra).length - (i + 1)) + 1 := by omega
        rw [map_cons, hnumbers, hsucc]
        exact congrArg (· :: _) hnumber
      · exact forall_mem_cons.mpr ⟨hcarries, hall⟩
    · rw [if_neg (by omega)]
      refine ⟨_, rfl, ?_, ?_⟩
      · have hi' : i < pieces cs (array ++ extra).length := (lt_pieces hcs.1).mpr hi
        have hend : ¬ i + 1 < pieces cs (array ++ extra).length := by
          rw [lt_pieces hcs.1]
          exact hmore
        have hone : pieces cs (array ++ extra).length - i = 1 := by omega
        rw [hone, range'_one, map_singleton, hnumber]
      · intro c hmem
        obtain rfl := mem_singleton.mp hmem
        exact hcarries

end Send

/-- The bytes of an array, with the extra data behind them. -/
def arrayBytes (dataArray extraData : List UInt8) : List MemVal :=
  (dataArray ++ extraData).map MemVal.byte

/-- The parts of `insertData`. -/
theorem insertData_eq {cs sizeofDtype bn numElements : Nat} {src : P}
    {dataArray extraData : List UInt8}
    {array extra raw : List MemVal} {arraySize totalSize offset size : Int}
    {chunk : ChunkDataItem P}
    {full rest : List (ChunkDataItem P)} (harr : dataArray.map MemVal.byte = array)
    (hext : extraData.map MemVal.byte = extra)
    (harray : toInt (numElements * sizeofDtype) = arraySize)
    (htotal : toInt (arraySize + extraData.length) = totalSize)
    (hfull : fullChunks cs array arraySize (dataArray.length + extraData.length + 1) 0
      { bufferNumber := bn, sourcePe := src, chunkNumber := 0, chunkSize := toShort cs
        numChunks := (totalSize + cs - 1) / cs, numItems := numElements
        rawData := replicate cs MemVal.blank } = .ok (offset, chunk, full))
    (hsize : toShort (arraySize - offset) = size)
    (hcopy : memcpy (replicate cs (MemVal.byte 0)) 0 array offset size = .ok raw)
    (hrest : extraChunks cs extra totalSize (dataArray.length + extraData.length + 1) offset size
      extraData.length 0 { chunk with chunkSize := size, rawData := raw } = .ok rest) :
    insertData cs sizeofDtype bn src dataArray numElements extraData = .ok (full ++ rest) := by
  subst harr hext harray htotal hsize
  refine bind_eq_ok.mpr ⟨(offset, chunk, full), hfull, ?_⟩
  refine bind_eq_ok.mpr ⟨raw, hcopy, ?_⟩
  exact bind_eq_ok.mpr ⟨rest, hrest, rfl⟩

/-- **The sender.** It sends each chunk once, in order. -/
theorem insertData_ok {cs sizeofDtype numElements : Nat} {dataArray extraData : List UInt8}
    (bn : Nat) (src : P) (hcs : 0 < cs ∧ cs ≤ 32767)
    (harray : dataArray.length = numElements * sizeofDtype)
    (htotal : 0 < dataArray.length + extraData.length)
    (hfit : pieces cs (dataArray.length + extraData.length) * cs < 2 ^ 31) :
    ∃ chunks, insertData cs sizeofDtype bn src dataArray numElements extraData = .ok chunks ∧
      chunks.map (·.chunkNumber) = range (pieces cs (dataArray.length + extraData.length)) ∧
      ∀ c ∈ chunks, Carries cs (arrayBytes dataArray extraData) src bn numElements c := by
  have hle := le_pieces_mul cs (dataArray.length + extraData.length) hcs.1
  generalize harr : dataArray.map MemVal.byte = array
  generalize hext : extraData.map MemVal.byte = extra
  have hbytes : arrayBytes dataArray extraData = array ++ extra := by
    rw [arrayBytes, map_append, harr, hext]
  have hA : array.length = dataArray.length := by rw [← harr, length_map]
  have hE : extra.length = extraData.length := by rw [← hext, length_map]
  have hT : (array ++ extra).length = dataArray.length + extraData.length := by
    rw [length_append, hA, hE]
  have hsizeA : toInt (numElements * sizeofDtype) = array.length := by
    have hcast : (numElements : Int) * sizeofDtype = (numElements * sizeofDtype : Nat) := by
      rfl
    rw [hcast, ← harray, ← hA]
    exact toInt_of_lt (by omega) (by omega)
  have hsizeT : toInt (array.length + extraData.length) = (array ++ extra).length := by
    rw [hT, hA]
    rw [toInt_of_lt (by omega) (by omega)]
    rfl
  have hcount :
    (((array ++ extra).length : Int) + cs - 1) / cs = pieces cs (array ++ extra).length := by
    have hcast :
      ((array ++ extra).length : Int) + cs - 1 = ((array ++ extra).length + cs - 1 : Nat) := by
      omega
    rw [hcast]
    rfl
  rw [hbytes, ← hT]
  rw [← hT] at htotal hfit hle
  let proto : ChunkDataItem P :=
    { bufferNumber := bn, sourcePe := src, chunkNumber := 0, chunkSize := cs
      numChunks := pieces cs (array ++ extra).length, numItems := numElements
      rawData := replicate cs MemVal.blank }
  have hproto : Labelled cs (array ++ extra).length src bn numElements proto :=
    ⟨rfl, rfl, rfl, rfl, length_replicate⟩
  obtain ⟨j, chunk, full, hfull, -, hj, hstop, hlabel, hnumber, hnumbers, hcarries⟩ :=
    fullChunks_ok hcs (by omega) (dataArray.length + extraData.length + 1) 0 (by omega) (.inl rfl)
      hproto rfl rfl
  -- the end of the array
  have hj' : j * cs ≤ array.length := by
    obtain rfl | hj := hj
    · omega
    · omega
  have hjT : j * cs < (array ++ extra).length := by
    obtain rfl | hj := hj
    · omega
    · omega
  have hend : toShort (array.length - ((j * cs) : Int))
      = (array.length - j * cs : Nat) := by
    rw [toShort_of_lt (by omega) (by omega)]
    omega
  have hcopy := memcpy_ok (replicate cs (MemVal.byte 0)) array 0 (j * cs) (array.length - j * cs)
    (by rw [length_replicate]; omega) (by omega)
  generalize hraw : (replicate cs (MemVal.byte 0)).take 0 ++
    (array.drop (j * cs)).take (array.length - j * cs) ++
    (replicate cs (MemVal.byte 0)).drop (0 + (array.length - j * cs)) = raw at hcopy
  have hrawlen : raw.length = cs := by
    rw [← hraw]
    simp only [length_append, length_take, length_drop, length_replicate]
    omega
  have hplaced : raw.take (array.length - j * cs)
      = ((array ++ extra).drop (j * cs)).take (array.length - j * cs) := by
    have hlen : (array.drop (j * cs)).length = array.length - j * cs := length_drop
    rw [← hraw, take_zero, nil_append, drop_append_of_le_length hj',
      take_append_of_le_length hlen.ge, take_append_of_le_length, take_take, min_self]
    rw [length_take, hlen, min_self]
  have hlabel' : Labelled cs (array ++ extra).length src bn numElements
      { chunk with chunkSize := ((array.length - j * cs) : Int), rawData := raw } :=
    { hlabel with rawData_length := hrawlen }
  obtain ⟨rest, hrest, hnumbers', hcarries'⟩ :=
    extraChunks_ok hcs hfit (dataArray.length + extraData.length + 1) j (array.length - j * cs) 0
      (by omega) hjT (by omega) (zero_le _) (by omega) hlabel' hnumber hplaced
  refine ⟨full ++ rest, ?_, ?_, ?_⟩
  · rw [zero_mul] at hfull
    rw [hE] at hrest
    refine insertData_eq harr hext hsizeA hsizeT ?_ hend hcopy hrest
    rw [hcount, toShort_of_lt (by omega) (by omega)]
    exact hfull
  · rw [map_append, hnumbers, hnumbers', range_eq_range']
    have hjlast := (lt_pieces hcs.1).mpr hjT
    have happend : range' 0 j ++ range' (0 + j) (pieces cs (array ++ extra).length - j)
        = range' 0 (j + (pieces cs (array ++ extra).length - j)) := range'_append_1
    rw [zero_add, add_sub_of_le hjlast.le] at happend
    exact happend
  · intro c hc
    obtain hc | hc := mem_append.mp hc
    · exact hcarries c hc
    · exact hcarries' c hc


end CharmRuntime.Streamer
