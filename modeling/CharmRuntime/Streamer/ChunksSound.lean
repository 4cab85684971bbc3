import CharmRuntime.Lib.InFlight
import CharmRuntime.Streamer.ChunksReceive

/-!
# Streamer.ChunksSound

Arrays sent in chunks are put together again, whatever the order in which the chunks arrive.

`Progress` says how far one array has got: its chunk numbers are on their way or done, and
the receiver's entry has all bytes of the chunks that are done. `ChunkInv` says this of every
call of `insertData`, and that nothing else is on its way or kept.
-/

namespace CharmRuntime.Streamer

open Lib Function List Nat

variable {P : Type}

/-! ### One array -/

theorem getElem?_overwrite {α : Type} (dst src : List α) (off k : Nat)
    (hoff : off + src.length ≤ dst.length) :
    (dst.take off ++ src ++ dst.drop (off + src.length))[k]?
      = if off ≤ k ∧ k < off + src.length then src[k - off]? else dst[k]? := by
  have htake : (dst.take off).length = off := length_take_of_le (by omega)
  have hfront : (dst.take off ++ src).length = off + src.length := by
    rw [length_append, htake]
  by_cases hlow : k < off
  · rw [if_neg (by omega), append_assoc, getElem?_append_left (by omega),
      getElem?_take_of_lt hlow]
  · by_cases hmid : k < off + src.length
    · rw [if_pos ⟨by omega, hmid⟩, getElem?_append_left (by omega),
        getElem?_append_right (by omega), htake]
    · rw [if_neg (by omega), getElem?_append_right (by omega), getElem?_drop, hfront,
        add_sub_of_le (by omega)]

/-- The buffer has the bytes of the chunks `done`. -/
structure Filled (cs : Nat) (bytes : List MemVal) (done : List Nat) (buffer : List MemVal) :
    Prop where
  length : buffer.length = pieces cs bytes.length * cs
  data : ∀ k < bytes.length, k / cs ∈ done → buffer[k]? = bytes[k]?

/-- How far an array has got: the numbers of its chunks on their way, what the receiver keeps
of it, and whether it has been given to the client. -/
structure Progress (cs : Nat) (bytes : List MemVal) (numbers : List Nat)
    (entry : Option (Nat × List MemVal)) (received : Prop) : Prop where
  split : ∃ done, (numbers ++ done).Perm (List.range (pieces cs bytes.length)) ∧
    (done = [] ∨ numbers = [] → entry = none) ∧
    (done ≠ [] → numbers ≠ [] → ∃ buffer, entry = some (done.length, buffer) ∧
    Filled cs bytes done buffer)
  received_iff : received ↔ numbers = []

section Array

variable {cs : Nat} {bytes : List MemVal} {src : P} {bn numItems : Nat} {c : ChunkDataItem P}

theorem length_piece (cs : Nat) (bytes : List MemVal) (i : Nat) :
    (piece cs bytes i).length = min cs (bytes.length - i * cs) := by
  rw [piece, length_take, length_drop]

variable {done : List Nat} {buffer : List MemVal} {entry : Option (Nat × List MemVal)}
  {received : Prop}

theorem Filled.memcpy (hcs : 0 < cs)
    (h : Filled cs bytes done buffer) (hc : Carries cs bytes src bn numItems c)
    (hi : c.chunkNumber < pieces cs bytes.length) :
    ∃ buffer', Streamer.memcpy buffer (c.chunkNumber * cs) c.rawData 0 c.chunkSize = .ok buffer' ∧
      Filled cs bytes (c.chunkNumber :: done) buffer' := by
  have hlen := length_piece cs bytes c.chunkNumber
  have hround := mul_le_mul_right cs (succ_le_of_lt hi)
  rw [succ_mul] at hround
  have hin : c.chunkNumber * cs + (piece cs bytes c.chunkNumber).length ≤ buffer.length := by
    rw [h.length]
    omega
  have hcopy := memcpy_ok buffer c.rawData (c.chunkNumber * cs) 0
    (piece cs bytes c.chunkNumber).length hin (by rw [hc.rawData_length]; omega)
  rw [drop_zero, hc.data, ← hc.chunkSize, cast_mul] at hcopy
  refine ⟨_, hcopy, ?_, ?_⟩
  · rw [← h.length]
    simp only [length_append, length_take, length_drop]
    omega
  · intro k hk hdone
    rw [getElem?_overwrite _ _ _ _ hin]
    by_cases hki : k / cs = c.chunkNumber
    · have hlow : c.chunkNumber * cs ≤ k := hki ▸ div_mul_le_self k cs
      have hhigh : k < c.chunkNumber * cs + cs := by
        have hlt := Nat.lt_succ_iff.mp (lt_succ_of_le hki.le)
        rw [← succ_mul]
        exact (div_lt_iff_lt_mul hcs).mp (lt_succ_of_le hlt)
      rw [if_pos ⟨hlow, by omega⟩, piece, getElem?_take_of_lt (by omega), getElem?_drop,
        add_sub_of_le hlow]
    · have hout :
        ¬ (c.chunkNumber * cs ≤ k ∧
        k < c.chunkNumber * cs + (piece cs bytes c.chunkNumber).length) := by
        rintro ⟨hlow, hhigh⟩
        refine hki (Nat.div_eq_of_lt_le hlow ?_)
        rw [succ_mul]
        omega
      rw [if_neg hout]
      refine h.data k hk ?_
      obtain hk' | hk' := mem_cons.mp hdone
      · exact absurd hk' hki
      · exact hk'

theorem Filled.take_eq (hcs : 0 < cs)
    (h : Filled cs bytes done buffer) (hall : ∀ i < pieces cs bytes.length, i ∈ done) :
    buffer.take bytes.length = bytes := by
  refine ext_getElem? fun k => ?_
  by_cases hk : k < bytes.length
  · rw [getElem?_take_of_lt hk]
    refine h.data k hk (hall _ ?_)
    rw [lt_pieces hcs]
    exact lt_of_le_of_lt (div_mul_le_self k cs) hk
  · have hlen : (buffer.take bytes.length).length ≤ k := by
      rw [length_take]
      omega
    rw [getElem?_eq_none hlen, getElem?_eq_none (by omega)]

theorem Progress.perm {numbers numbers' : List Nat}
    (h : Progress cs bytes numbers entry received) (hperm : numbers.Perm numbers') :
    Progress cs bytes numbers' entry received := by
  obtain ⟨⟨done, hsplit, hnone, hsome⟩, hrec⟩ := h
  have hnil : numbers' = [] ↔ numbers = [] :=
    ⟨fun h => perm_nil.mp (h ▸ hperm), fun h => perm_nil.mp (h ▸ hperm).symm⟩
  refine ⟨⟨done, (hperm.symm.append_right done).trans hsplit, ?_, ?_⟩, hrec.trans hnil.symm⟩
  · rw [hnil]
    exact hnone
  · rw [ne_eq numbers', hnil]
    exact hsome

theorem newBuffer_ok (hfit : pieces cs bytes.length * cs < 2 ^ 31)
    (hc : Carries cs bytes src bn numItems c) :
    newBuffer cs c.numChunks = .ok (replicate (pieces cs bytes.length * cs) MemVal.blank) := by
  have hsize : toInt (c.numChunks * cs) = (pieces cs bytes.length * cs : Nat) := by
    rw [hc.numChunks]
    exact toInt_of_lt (by omega) (by omega)
  rw [newBuffer, hsize, if_neg (by omega), Int.toNat_natCast]

/-- A chunk is copied to its place; the last one completes the buffer. -/
theorem Progress.arrive (hcs : 0 < cs) {numbers : List Nat}
    (hc : Carries cs bytes src bn numItems c)
    (h : Progress cs bytes (c.chunkNumber :: numbers) entry received) :
    ∃ buffer, Streamer.memcpy
        (entry.getD (0, replicate (pieces cs bytes.length * cs) MemVal.blank)).2
        (c.chunkNumber * cs) c.rawData 0 c.chunkSize = .ok buffer ∧
      (numbers = [] →
        (((entry.getD (0, replicate (pieces cs bytes.length * cs) MemVal.blank)).1 : Nat) + 1 : Int)
          = c.numChunks ∧
        buffer.take bytes.length = bytes ∧ Progress cs bytes numbers none True) ∧
      (numbers ≠ [] →
        (((entry.getD (0, replicate (pieces cs bytes.length * cs) MemVal.blank)).1 : Nat) + 1 : Int)
          ≠ c.numChunks ∧
        Progress cs bytes numbers
          (some ((entry.getD (0, replicate (pieces cs bytes.length * cs) MemVal.blank)).1 + 1,
          buffer))
          received) := by
  obtain ⟨⟨done, hsplit, hnone, hsome⟩, hrec⟩ := h
  -- the entry, or the new buffer, has the chunks that are done
  have hentry : ∃ buffer, entry.getD (0, replicate (pieces cs bytes.length * cs) MemVal.blank)
      = (done.length, buffer) ∧ Filled cs bytes done buffer := by
    by_cases hdone : done = []
    · subst hdone
      rw [hnone (.inl rfl)]
      exact ⟨_, rfl, length_replicate, fun _ _ hmem => absurd hmem not_mem_nil⟩
    · obtain ⟨buffer, hentry, hfilled⟩ := hsome hdone (cons_ne_nil _ _)
      rw [hentry]
      exact ⟨buffer, rfl, hfilled⟩
  obtain ⟨old, hentry, hfilled⟩ := hentry
  rw [hentry]
  have hmem : c.chunkNumber ∈ range (pieces cs bytes.length) :=
    hsplit.subset (mem_append_left _ mem_cons_self)
  obtain ⟨buffer, hcopy, hfilled'⟩ := hfilled.memcpy hcs hc (mem_range.mp hmem)
  have hsplit' : (numbers ++ c.chunkNumber :: done).Perm (range (pieces cs bytes.length)) :=
    perm_middle.trans hsplit
  have hcount : numbers.length + (done.length + 1) = pieces cs bytes.length := by
    have hlen := hsplit'.length_eq
    rwa [length_append, length_range] at hlen
  refine ⟨buffer, hcopy, fun hnil => ⟨?_, ?_, ?_⟩, fun hne => ⟨?_, ?_⟩⟩
  · rw [hc.numChunks, ← hcount, hnil]
    simp
  · refine hfilled'.take_eq hcs fun i hi => ?_
    rw [hnil] at hsplit'
    exact hsplit'.symm.subset (mem_range.mpr hi)
  · exact ⟨⟨_, hsplit', fun _ => rfl, fun _ hne => absurd hnil hne⟩, fun _ => hnil,
      fun _ => trivial⟩
  · rw [hc.numChunks]
    have hpos := length_pos_of_ne_nil hne
    omega
  · refine ⟨⟨_, hsplit', ?_, fun _ _ => ⟨buffer, rfl, hfilled'⟩⟩, ?_⟩
    · rintro (hnil | hnil)
      · exact absurd hnil (cons_ne_nil _ _)
      · exact absurd hnil hne
    · rw [hrec]
      exact ⟨fun hnil => absurd hnil (cons_ne_nil _ _), fun hnil => absurd hnil hne⟩

end Array

/-! ### All arrays -/

/-- What a call sends. -/
def InsertCall.bytes (c : InsertCall P) : List MemVal := arrayBytes c.dataArray c.extraData

variable [DecidableEq P]

/-- The numbers of an array's chunks on their way. -/
def numbersFor (key : ArrayKey P) (net : List (P × ChunkDataItem P)) : List Nat :=
  (net.filter fun m => m.2.key m.1 = key).map (·.2.chunkNumber)

/-- The receiver's entry of an array. -/
def entryFor (w : ChunkWorld P) (key : ArrayKey P) : Option (Nat × List MemVal) :=
  stored (w.receiver key.destination) key.source key.bufferNumber

theorem numbersFor_eq_nil {key : ArrayKey P} {net : List (P × ChunkDataItem P)} :
    numbersFor key net = [] ↔ ∀ m ∈ net, m.2.key m.1 ≠ key := by
  simp [numbersFor]

theorem numbersFor_append (key : ArrayKey P) (net net' : List (P × ChunkDataItem P)) :
    numbersFor key (net ++ net') = numbersFor key net ++ numbersFor key net' := by
  rw [numbersFor, filter_append, map_append]
  rfl

structure ChunkInv (cs : Nat) (w : ChunkWorld P) : Prop where
  net_carries : ∀ m ∈ w.net, ∃ c ∈ w.calls, m.2.key m.1 = c.key ∧
    Carries cs c.bytes c.key.source c.key.bufferNumber c.numElements m.2
  progress : ∀ c ∈ w.calls,
    Progress cs c.bytes (numbersFor c.key w.net) (entryFor w c.key) (c.key ∈ w.received.map (·.1))
  fits : ∀ c ∈ w.calls, 0 < c.bytes.length ∧ pieces cs c.bytes.length * cs < 2 ^ 31
  calls_once : (w.calls.map (·.key)).Nodup
  below : ∀ c ∈ w.calls, c.key.bufferNumber < w.currentBufferNumbers c.key.source c.key.destination
  receivers : ∀ p, ReceiverOk (w.receiver p)
  known : ∀ key, entryFor w key ≠ none → key ∈ w.calls.map (·.key)
  received_ok : ∀ r ∈ w.received, ∃ c ∈ w.calls, c.key = r.1 ∧ r.2.sourcePe = c.key.source ∧
    r.2.numItems = c.numElements ∧ r.2.buffer.take c.bytes.length = c.bytes
  received_once : (w.received.map (·.1)).Nodup

/-- The sizes of a call, rounded up to whole chunks, fit into an `int`. -/
def ChunkEvent.Fits (cs : Nat) : ChunkEvent P → Prop
  | .insert _ _ dataArray _ extraData =>
    pieces cs (dataArray.length + extraData.length) * cs < 2 ^ 31
  | .deliver _ => True

instance (cs : Nat) (e : ChunkEvent P) : Decidable (e.Fits cs) :=
  match e with
  | .insert _ _ dataArray _ extraData =>
    inferInstanceAs (Decidable (pieces cs (dataArray.length + extraData.length) * cs < 2 ^ 31))
  | .deliver _ => inferInstanceAs (Decidable True)

theorem ChunkInv.initial (cs : Nat) : ChunkInv cs (.initial : ChunkWorld P) where
  net_carries := fun _ hm => absurd hm not_mem_nil
  progress := fun _ hc => absurd hc not_mem_nil
  fits := fun _ hc => absurd hc not_mem_nil
  calls_once := nodup_nil
  below := fun _ hc => absurd hc not_mem_nil
  receivers := fun _ => ⟨nodup_nil, fun _ hb => absurd hb not_mem_nil⟩
  known := fun _ hentry => absurd rfl hentry
  received_ok := fun _ hr => absurd hr not_mem_nil
  received_once := nodup_nil

namespace ChunkInv

variable {cs sizeofDtype : Nat} {w : ChunkWorld P}

theorem call_unique (h : ChunkInv cs w) {c c' : InsertCall P} (hc : c ∈ w.calls)
    (hc' : c' ∈ w.calls)
    (hkey : c.key = c'.key) : c = c' :=
  inj_on_of_nodup_map h.calls_once hc hc' hkey

/-- A call of `insertData`. -/
theorem insert (h : ChunkInv cs w) (hcs : 0 < cs ∧ cs ≤ 32767) {source destination : P}
    {dataArray extraData : List UInt8} {numElements : Nat}
    (henabled : w.Enabled sizeofDtype (.insert source destination dataArray numElements extraData))
    (hfit : ChunkEvent.Fits cs (.insert source destination dataArray numElements extraData)) :
    ∃ w', w.next cs sizeofDtype (.insert source destination dataArray numElements extraData) =
    .ok w' ∧
      ChunkInv cs w' := by
  generalize hbn : w.currentBufferNumbers source destination = bn
  obtain ⟨chunks, hinsert, hnumbers, hcarries⟩ :=
    insertData_ok bn source hcs henabled.1 henabled.2 hfit
  let call : InsertCall P :=
    { key := { source := source, destination := destination, bufferNumber := bn }
      dataArray := dataArray, numElements := numElements, extraData := extraData }
  have hlen : call.bytes.length = dataArray.length + extraData.length := by
    simp [call, InsertCall.bytes, arrayBytes]
  -- no other array has this number
  have hfresh : ∀ c ∈ w.calls, c.key ≠ call.key := by
    intro c hc hkey
    have hlt := h.below c hc
    rw [hkey] at hlt
    exact absurd (lt_of_lt_of_eq hlt hbn) (lt_irrefl bn)
  have hkeys : ∀ m ∈ chunks.map (destination, ·), m.2.key m.1 = call.key := by
    intro m hm
    obtain ⟨c, hc, rfl⟩ := mem_map.mp hm
    have hcar := hcarries c hc
    simp only [ChunkDataItem.key, hcar.sourcePe, hcar.bufferNumber, call]
  have hnone : numbersFor call.key w.net = [] := by
    rw [numbersFor_eq_nil]
    intro m hm hkey
    obtain ⟨c, hc, hckey, -⟩ := h.net_carries m hm
    exact hfresh c hc (hckey.symm.trans hkey)
  have hnew :
    numbersFor call.key (chunks.map (destination, ·)) = range (pieces cs call.bytes.length) := by
    have hall : (chunks.map (destination, ·)).filter (fun m => m.2.key m.1 = call.key)
        = chunks.map (destination, ·) :=
      filter_eq_self.mpr fun m hm => decide_eq_true (hkeys m hm)
    rw [numbersFor, hall, map_map, hlen, ← hnumbers]
    rfl
  have hother : ∀ c ∈ w.calls, numbersFor c.key (chunks.map (destination, ·)) = [] := by
    intro c hc
    rw [numbersFor_eq_nil]
    exact fun m hm hkey => hfresh c hc (hkey.symm.trans (hkeys m hm))
  have hentry : entryFor w call.key = none := by
    by_contra hne
    obtain ⟨c, hc, hkey⟩ := mem_map.mp (h.known _ hne)
    exact hfresh c hc hkey
  have hpieces : 0 < pieces cs call.bytes.length := by
    rw [lt_pieces hcs.1, zero_mul, hlen]
    exact henabled.2
  refine ⟨{ w with
      currentBufferNumbers := update w.currentBufferNumbers source
        (update (w.currentBufferNumbers source) destination (bn + 1))
      net := w.net ++ chunks.map (destination, ·)
      calls := w.calls ++ [call] }, ?_, ?_⟩
  · subst hbn
    exact bind_eq_ok.mpr ⟨chunks, hinsert, rfl⟩
  · exact
      { net_carries := by
          intro m hm
          obtain hm | hm := mem_append.mp hm
          · obtain ⟨c, hc, hcar⟩ := h.net_carries m hm
            exact ⟨c, mem_append_left _ hc, hcar⟩
          · refine ⟨call, mem_append_right _ mem_cons_self, hkeys m hm, ?_⟩
            obtain ⟨c, hc, rfl⟩ := mem_map.mp hm
            exact hcarries c hc
        progress := by
          intro c hc
          obtain hc | hc := mem_append.mp hc
          · have hold := h.progress c hc
            rw [numbersFor_append, hother c hc, append_nil]
            exact hold
          · obtain rfl := mem_singleton.mp hc
            have hrange : range (pieces cs call.bytes.length) ≠ [] := by
              rw [ne_eq, range_eq_nil]
              omega
            rw [numbersFor_append, hnone, nil_append, hnew]
            refine ⟨⟨[], ?_, fun _ => hentry, fun hne => absurd rfl hne⟩, fun hrec => ?_,
              fun hnil => ?_⟩
            · rw [append_nil]
            · obtain ⟨r, hr, hkey⟩ := mem_map.mp hrec
              obtain ⟨c, hc, hckey, -⟩ := h.received_ok r hr
              exact absurd (hckey.trans hkey) (hfresh c hc)
            · exact absurd hnil hrange
        fits := by
          intro c hc
          obtain hc | hc := mem_append.mp hc
          · exact h.fits c hc
          · obtain rfl := mem_singleton.mp hc
            rw [hlen]
            exact ⟨henabled.2, hfit⟩
        calls_once := by
          rw [map_append, nodup_append]
          refine ⟨h.calls_once, nodup_singleton _, ?_⟩
          rintro key hkey key' hkey' rfl
          obtain ⟨c, hc, rfl⟩ := mem_map.mp hkey
          exact hfresh c hc (mem_singleton.mp hkey')
        below := by
          intro c hc
          obtain hc | hc := mem_append.mp hc
          · have hold := h.below c hc
            by_cases hs : c.key.source = source
            · by_cases hd : c.key.destination = destination
              · rw [hs, hd] at hold ⊢
                simp only [update_self]
                omega
              · rw [hs] at hold ⊢
                simp only [update_self, update_of_ne hd]
                exact hold
            · simp only [update_of_ne hs]
              exact hold
          · obtain rfl := mem_singleton.mp hc
            simp only [call, update_self]
            exact lt_succ_self bn
        receivers := h.receivers
        known := by
          intro key hne
          rw [map_append]
          exact mem_append_left _ (h.known key hne)
        received_ok := by
          intro r hr
          obtain ⟨c, hc, hok⟩ := h.received_ok r hr
          exact ⟨c, mem_append_left _ hc, hok⟩
        received_once := h.received_once }

/-- After the arrival of a chunk of call `c`, when the receiver's entry has become `entry` and
`new` has been given to the client. -/
theorem arrived (h : ChunkInv cs w) {k : Nat} {destination : P} {chunk : ChunkDataItem P}
    (hm : w.net[k]? = some (destination, chunk)) {c : InsertCall P} (hc : c ∈ w.calls)
    (hkey : chunk.key destination = c.key) {s' : ChunkReceiver P}
    {entry : Option (Nat × List MemVal)}
    {new : List (ArrayKey P × ReceivedArray P)}
    (hproc : Processed chunk.sourcePe chunk.bufferNumber entry (w.receiver destination) s')
    (hprogress : Progress cs c.bytes (numbersFor c.key (w.net.eraseIdx k)) entry
      (c.key ∈ (w.received ++ new).map (·.1)))
    (hnew : ∀ r ∈ new, c.key = r.1 ∧ r.2.sourcePe = c.key.source ∧ r.2.numItems = c.numElements ∧
      r.2.buffer.take c.bytes.length = c.bytes)
    (honce : ((w.received ++ new).map (·.1)).Nodup) :
    ChunkInv cs { w with
      receiver := update w.receiver destination s'
      net := w.net.eraseIdx k
      received := w.received ++ new } := by
  have hentry : ∀ key, entryFor { w with
      receiver := update w.receiver destination s'
      net := w.net.eraseIdx k
      received := w.received ++ new } key = if key = c.key then entry else entryFor w key := by
    intro key
    by_cases hd : key.destination = destination
    · by_cases heq : key = c.key
      · rw [heq, ← hkey]
        simp only [entryFor, ChunkDataItem.key, update_self]
        exact hproc.entry_eq
      · rw [if_neg heq]
        simp only [entryFor, hd, update_self]
        refine hproc.others _ _ fun hsame => heq ?_
        rw [← hkey]
        cases key
        simp only [ChunkDataItem.key] at hd hsame ⊢
        rw [hd, hsame.1, hsame.2]
    · have heq : key ≠ c.key := fun heq => hd (by rw [heq, ← hkey]; rfl)
      rw [if_neg heq]
      simp only [entryFor, update_of_ne hd]
  exact
    { net_carries := fun m hmem => h.net_carries m (mem_of_mem_eraseIdx hmem)
      progress := by
        intro c' hc'
        rw [hentry]
        by_cases heq : c'.key = c.key
        · obtain rfl := h.call_unique hc' hc heq
          rw [if_pos rfl]
          exact hprogress
        · have hnumbers : numbersFor c'.key (w.net.eraseIdx k) = numbersFor c'.key w.net := by
            rw [numbersFor, filter_eraseIdx hm]
            · rfl
            · rw [decide_eq_true_iff]
              exact fun hkey' => heq (hkey'.symm.trans hkey)
          have hreceived :
            c'.key ∈ (w.received ++ new).map (·.1) ↔ c'.key ∈ w.received.map (·.1) := by
            rw [map_append, mem_append]
            refine ⟨fun hor => hor.resolve_right fun hmem => ?_, .inl⟩
            obtain ⟨r, hr, hrkey⟩ := mem_map.mp hmem
            exact heq (hrkey.symm.trans (hnew r hr).1.symm)
          rw [if_neg heq, hnumbers, hreceived]
          exact h.progress c' hc'
      fits := h.fits
      calls_once := h.calls_once
      below := h.below
      receivers := by
        intro p
        by_cases hp : p = destination
        · subst hp
          simp only [update_self]
          exact hproc.ok
        · simp only [update_of_ne hp]
          exact h.receivers p
      known := by
        intro key hne
        rw [hentry] at hne
        by_cases heq : key = c.key
        · exact mem_map.mpr ⟨c, hc, heq.symm⟩
        · rw [if_neg heq] at hne
          exact h.known key hne
      received_ok := by
        intro r hr
        obtain hr | hr := mem_append.mp hr
        · exact h.received_ok r hr
        · exact ⟨c, hc, hnew r hr⟩
      received_once := honce }

/-- Every message of the net can be received, and keeps the invariant. -/
theorem deliver (h : ChunkInv cs w) (hcs : 0 < cs) {k : Nat} (hk : k < w.net.length) :
    ∃ w', w.next cs sizeofDtype (.deliver k) = .ok w' ∧ ChunkInv cs w' := by
  obtain ⟨⟨destination, chunk⟩, hm⟩ : ∃ m, w.net[k]? = some m :=
    ⟨_, getElem?_eq_getElem hk⟩
  obtain ⟨c, hc, hkey, hcarries⟩ := h.net_carries _ (mem_of_getElem? hm)
  have hnumbers : (numbersFor c.key w.net).Perm
      (chunk.chunkNumber :: numbersFor c.key (w.net.eraseIdx k)) :=
    (perm_filter_eraseIdx hm (decide_eq_true hkey)).map
      fun m : P × ChunkDataItem P => m.2.chunkNumber
  have hprogress := (h.progress c hc).perm hnumbers
  have hfresh := newBuffer_ok (h.fits c hc).2 hcarries
  have hentry :
    stored (w.receiver destination) chunk.sourcePe chunk.bufferNumber = entryFor w c.key := by
    rw [← hkey]
    rfl
  obtain ⟨buffer, hcopy, hlast, hmore⟩ := hprogress.arrive hcs hcarries
  rw [← hentry] at hcopy hlast hmore
  by_cases hnil : numbersFor c.key (w.net.eraseIdx k) = []
  · obtain ⟨hcount, hbytes, hdone⟩ := hlast hnil
    obtain ⟨s', hprocess, hproc⟩ :=
      processChunk_last (h.receivers destination) hfresh rfl hcopy hcount
    have hbefore : c.key ∉ w.received.map (·.1) := fun hmem =>
      absurd (hprogress.received_iff.mp hmem) (cons_ne_nil _ _)
    let new : ReceivedArray P :=
      { buffer := buffer, numItems := chunk.numItems, sourcePe := chunk.sourcePe }
    have hnew : ((w.received ++ [(c.key, new)]).map (·.1)) = w.received.map (·.1) ++ [c.key] :=
      map_append
    refine ⟨{ w with
        receiver := update w.receiver destination s'
        net := w.net.eraseIdx k
        received := w.received ++ [(c.key, new)] }, ?_, h.arrived hm hc hkey hproc ?_ ?_ ?_⟩
    · simp only [ChunkWorld.next, hm]
      refine bind_eq_ok.mpr ⟨_, hprocess, ?_⟩
      rw [← hkey]
      rfl
    · have htrue : c.key ∈ (w.received ++ [(c.key, new)]).map (·.1) ↔ True := by
        rw [hnew]
        exact iff_of_true (mem_append_right _ mem_cons_self) trivial
      rw [htrue]
      exact hdone
    · intro r hr
      obtain rfl := mem_singleton.mp hr
      exact ⟨rfl, hcarries.sourcePe, hcarries.numItems_eq, hbytes⟩
    · rw [hnew, nodup_append]
      refine ⟨h.received_once, nodup_singleton _, ?_⟩
      rintro key hmem key' hmem' rfl
      exact hbefore (mem_singleton.mp hmem' ▸ hmem)
  · obtain ⟨hcount, hnext⟩ := hmore hnil
    obtain ⟨s', hprocess, hproc⟩ :=
      processChunk_more (h.receivers destination) hfresh rfl hcopy hcount
    refine ⟨{ w with
        receiver := update w.receiver destination s'
        net := w.net.eraseIdx k
        received := w.received ++ [] }, ?_, h.arrived hm hc hkey hproc ?_ ?_ ?_⟩
    · simp only [ChunkWorld.next, hm]
      exact bind_eq_ok.mpr ⟨_, hprocess, rfl⟩
    · rw [append_nil]
      exact hnext
    · exact fun r hr => absurd hr not_mem_nil
    · rw [append_nil]
      exact h.received_once

theorem next (h : ChunkInv cs w) (hcs : 0 < cs ∧ cs ≤ 32767) {e : ChunkEvent P}
    (henabled : w.Enabled sizeofDtype e) (hfit : e.Fits cs) :
    ∃ w', w.next cs sizeofDtype e = .ok w' ∧ ChunkInv cs w' := by
  cases e with
  | insert source destination dataArray numElements extraData => exact h.insert hcs henabled hfit
  | deliver k => exact h.deliver hcs.1 henabled

end ChunkInv

theorem runs_chunkInv {cs sizeofDtype : Nat} (hcs : 0 < cs ∧ cs ≤ 32767) {w : ChunkWorld P}
    (hrun : (chunkSystem cs sizeofDtype).RunsWith (fun _ e => ChunkEvent.Fits cs e) w) :
    ChunkInv cs w := by
  refine hrun.invariant ?_ ?_
  · rintro w rfl
    exact ChunkInv.initial cs
  · rintro w e w' h hfit ⟨henabled, hnext⟩
    obtain ⟨w'', hnext', h'⟩ := h.next hcs henabled hfit
    rw [hnext] at hnext'
    obtain rfl := Except.ok.inj hnext'
    exact h'

/-- Every array is put together once and right. -/
structure ChunkWorld.Safe (cs sizeofDtype : Nat) (w : ChunkWorld P) : Prop where
  /-- No chunk is copied outside of its buffer. -/
  no_fault : ∀ e : ChunkEvent P, w.Enabled sizeofDtype e → e.Fits cs →
    ∃ w', w.next cs sizeofDtype e = .ok w'
  calls_once : (w.calls.map (·.key)).Nodup
  received_once : (w.received.map (·.1)).Nodup
  received_right : ∀ r ∈ w.received, ∃ c ∈ w.calls, c.key = r.1 ∧ r.2.sourcePe = c.key.source ∧
    r.2.numItems = c.numElements ∧
    r.2.buffer.take (c.dataArray.length + c.extraData.length)
      = (c.dataArray ++ c.extraData).map MemVal.byte
  /-- `receiveArray` is called when the last chunk has arrived. -/
  received_iff : ∀ c ∈ w.calls,
    c.key ∈ w.received.map (·.1) ↔ ∀ m ∈ w.net, m.2.key m.1 ≠ c.key
  nothing_left : w.net = [] → ∀ p, (w.receiver p).outOfOrderBuffers = [] ∧
    ∀ src, ((w.receiver p).lastReceived src).buffer = none

/-- **Arrays are put together exactly.** -/
theorem chunks_safe {cs sizeofDtype : Nat} (hcs : 0 < cs ∧ cs ≤ 32767) {w : ChunkWorld P}
    (hrun : (chunkSystem cs sizeofDtype).RunsWith (fun _ e => ChunkEvent.Fits cs e) w) :
    w.Safe cs sizeofDtype := by
  have h := runs_chunkInv hcs hrun
  exact
    { no_fault := fun e henabled hfit => by
        obtain ⟨w', hnext, -⟩ := h.next hcs henabled hfit
        exact ⟨w', hnext⟩
      calls_once := h.calls_once
      received_once := h.received_once
      received_right := by
        intro r hr
        obtain ⟨c, hc, hkey, hsource, hitems, hbytes⟩ := h.received_ok r hr
        refine ⟨c, hc, hkey, hsource, hitems, ?_⟩
        rw [InsertCall.bytes, arrayBytes, length_map, length_append] at hbytes
        exact hbytes
      received_iff := fun c hc => (h.progress c hc).received_iff.trans numbersFor_eq_nil
      nothing_left := by
        intro hnet p
        refine no_buffer_of_stored fun src bn => ?_
        by_contra hne
        let key : ArrayKey P := { source := src, destination := p, bufferNumber := bn }
        obtain ⟨c, hc, hkey⟩ := mem_map.mp (h.known key hne)
        obtain ⟨done, -, hnone, -⟩ := (h.progress c hc).split
        rw [hkey, hnet] at hnone
        exact hne (hnone (.inr rfl)) }

/-- Two arrays from one source, with their chunks mixed: the first one is put aside when a
chunk of the second one arrives. -/
theorem chunks_safe_interleaved : ∃ w : ChunkWorld Bool,
    (chunkSystem 2 1).RunsWith (fun _ e => ChunkEvent.Fits 2 e) w ∧ w.net = [] ∧
      w.received.map (·.1.bufferNumber) = [0, 1] ∧ w.Safe 2 1 := by
  have start : (chunkSystem 2 1).RunsWith (fun _ e => ChunkEvent.Fits 2 e)
      (.initial : ChunkWorld Bool) := .init rfl
  have first := start.step (e := .insert false true [1, 2, 3] 3 [4]) (by decide) ⟨by decide, rfl⟩
  have second := first.step (e := .insert false true [5] 1 [6, 7]) (by decide) ⟨by decide, rfl⟩
  have first1 := second.step (e := ChunkEvent.deliver 1) trivial ⟨by decide, rfl⟩
  have second0 := first1.step (e := ChunkEvent.deliver 1) trivial ⟨by decide, rfl⟩
  have first0 := second0.step (e := ChunkEvent.deliver 0) trivial ⟨by decide, rfl⟩
  have second1 := first0.step (e := ChunkEvent.deliver 0) trivial ⟨by decide, rfl⟩
  exact ⟨_, second1, rfl, rfl, chunks_safe (by decide) second1⟩

/-- The size of a chunk of 32768 bytes is no `short`. -/
theorem insertData_short (dataArray : List UInt8) :
    insertData 32768 1 0 () dataArray 32768 [] = .error .outOfBounds := by
  have hfull : ∀ (fuel : Nat) (chunk : ChunkDataItem Unit),
      fullChunks 32768 (dataArray.map MemVal.byte) (toInt (32768 * 1)) (fuel + 1) 0 chunk
        = .ok (0, chunk, []) := by
    intro fuel chunk
    unfold fullChunks
    rw [if_neg (by decide)]
  refine bind_eq_error.mpr (.inr ⟨_, hfull _ _, ?_⟩)
  refine bind_eq_error.mpr (.inl ?_)
  unfold memcpy
  rw [if_neg]
  rintro ⟨-, -, hlen, -⟩
  exact absurd hlen (by decide)

theorem insert_fails_of_short :
    (chunkSystem 32768 1).Reachable (ChunkWorld.initial : ChunkWorld Unit) ∧
      (ChunkWorld.initial : ChunkWorld Unit).Enabled 1
        (.insert () () (List.replicate 32768 0) 32768 []) ∧
      (ChunkWorld.initial : ChunkWorld Unit).next 32768 1
        (.insert () () (List.replicate 32768 0) 32768 []) = .error .outOfBounds := by
  refine ⟨.init rfl, ⟨by rw [length_replicate], ?_⟩, bind_eq_error.mpr (.inl (insertData_short _))⟩
  rw [length_replicate]
  decide

end CharmRuntime.Streamer
