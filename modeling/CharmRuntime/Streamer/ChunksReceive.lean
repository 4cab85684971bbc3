import CharmRuntime.Streamer.ChunksSend
import Mathlib.Data.List.Nodup

/-!
# Streamer.ChunksReceive

What the receiver keeps: a map from arrays (a source and a buffer number) to partly filled
buffers (`stored`), of which one entry for each source is in `lastReceived_` and the others are
in `outOfOrderBuffers_`. `selectBuffer` moves entries between the two places and changes no
other entry; `processChunk` then writes into the entry of the chunk's array.
-/

namespace CharmRuntime.Streamer

open Lib Function List Option

variable {P : Type} [DecidableEq P]

/-! ### Buffers put aside -/

/-- The buffer is the one of array `bn` of source `src`. -/
def ChunkOutOfOrderBuffer.isFor (src : P) (bn : Nat) (b : ChunkOutOfOrderBuffer P) : Bool :=
  bn = b.bufferNumber ∧ src = b.sourcePe

/-- What is put aside for an array. -/
def putAside (l : List (ChunkOutOfOrderBuffer P)) (src : P) (bn : Nat) :
    Option (Nat × List MemVal) :=
  (l.find? (·.isFor src bn)).map fun b => (b.receivedChunks, b.buffer)

variable {src : P} {bn : Nat} {b : ChunkOutOfOrderBuffer P} {l : List (ChunkOutOfOrderBuffer P)}
  {s : ChunkReceiver P} {entry : Nat × List MemVal}

theorem isFor_iff :
    b.isFor src bn = true ↔ bn = b.bufferNumber ∧ src = b.sourcePe := by
  simp [ChunkOutOfOrderBuffer.isFor]

theorem putAside_eraseP {src' : P} {bn' : Nat} (hne : ¬ (src' = src ∧ bn' = bn)) :
    putAside (l.eraseP (·.isFor src bn)) src' bn' = putAside l src' bn' := by
  induction l with
  | nil => rfl
  | cons b rest ih =>
    by_cases hb : b.isFor src bn = true
    · have hb' : ¬ b.isFor src' bn' = true := by
        rw [isFor_iff] at hb ⊢
        rintro ⟨hbn, hsrc⟩
        exact hne ⟨hsrc.trans hb.2.symm, hbn.trans hb.1.symm⟩
      rw [eraseP_cons_of_pos hb, putAside, putAside, find?_cons_of_neg hb']
    · rw [eraseP_cons_of_neg hb]
      by_cases hb' : b.isFor src' bn' = true
      · rw [putAside, putAside, find?_cons_of_pos hb', find?_cons_of_pos hb']
      · rw [putAside, putAside, find?_cons_of_neg hb', find?_cons_of_neg hb']
        exact ih

theorem not_isFor_of_mem_eraseP (hl : (l.map fun b => (b.sourcePe, b.bufferNumber)).Nodup)
    (hb : b ∈ l.eraseP (·.isFor src bn)) : ¬ b.isFor src bn = true := by
  induction l with
  | nil => exact absurd hb not_mem_nil
  | cons b' rest ih =>
    rw [map_cons, nodup_cons] at hl
    by_cases hb' : b'.isFor src bn = true
    · rw [eraseP_cons_of_pos hb'] at hb
      intro hfor
      rw [isFor_iff] at hb' hfor
      refine hl.1 (mem_map.mpr ⟨b, hb, ?_⟩)
      rw [← hfor.1, ← hfor.2, hb'.1, hb'.2]
    · rw [eraseP_cons_of_neg hb'] at hb
      obtain rfl | hb := mem_cons.mp hb
      · exact hb'
      · exact ih hl.2 hb

/-! ### The receiver's map -/

/-- The partly filled buffer of an array, and how many chunks it has. -/
def stored (s : ChunkReceiver P) (src : P) (bn : Nat) : Option (Nat × List MemVal) :=
  match (s.lastReceived src).buffer with
  | none => putAside s.outOfOrderBuffers src bn
  | some buffer =>
    if (s.lastReceived src).bufferNumber = bn then
      some ((s.lastReceived src).receivedChunks, buffer)
    else putAside s.outOfOrderBuffers src bn

/-- Every array has one buffer at most. -/
structure ReceiverOk (s : ChunkReceiver P) : Prop where
  keys : (s.outOfOrderBuffers.map fun b => (b.sourcePe, b.bufferNumber)).Nodup
  current : ∀ b ∈ s.outOfOrderBuffers, (s.lastReceived b.sourcePe).buffer ≠ none →
    (s.lastReceived b.sourcePe).bufferNumber ≠ b.bufferNumber

/-- The last buffer of source `src` becomes the one of array `bn`. -/
structure Selected (src : P) (bn : Nat) (entry : Nat × List MemVal) (s s' : ChunkReceiver P) :
    Prop where
  ok : ReceiverOk s'
  last : s'.lastReceived src
    = { bufferNumber := bn, receivedChunks := entry.1, buffer := some entry.2 }
  others : ∀ src' bn', ¬ (src' = src ∧ bn' = bn) → stored s' src' bn' = stored s src' bn'

section Select

variable {cs : Nat} {chunk : ChunkDataItem P} {s : ChunkReceiver P} {fresh : List MemVal}

/-- Resuming with the buffers `l` put aside. They are those of `s`, and the one of the
chunk's source if it has one of another array. -/
theorem resumeBuffer_spec {l : List (ChunkOutOfOrderBuffer P)}
    (hfresh : newBuffer cs chunk.numChunks = .ok fresh)
    (hkeys : (l.map fun b => (b.sourcePe, b.bufferNumber)).Nodup)
    (hcurrent : ∀ b ∈ l, b.sourcePe ≠ chunk.sourcePe → (s.lastReceived b.sourcePe).buffer ≠ none →
      (s.lastReceived b.sourcePe).bufferNumber ≠ b.bufferNumber)
    (hsame : ∀ src bn, src ≠ chunk.sourcePe →
      putAside l src bn = putAside s.outOfOrderBuffers src bn)
    (hstored : ∀ bn, putAside l chunk.sourcePe bn = stored s chunk.sourcePe bn) :
    ∃ s', resumeBuffer cs chunk l s = .ok s' ∧
      Selected chunk.sourcePe chunk.bufferNumber
        ((stored s chunk.sourcePe chunk.bufferNumber).getD (0, fresh)) s s' := by
  -- both ways set the last buffer and leave a part of `l`
  have hbuild : ∀ {l' : List (ChunkOutOfOrderBuffer P)} {entry : Nat × List MemVal},
      l'.Sublist l → (∀ b ∈ l', ¬ b.isFor chunk.sourcePe chunk.bufferNumber = true) →
      (∀ src bn, ¬ (src = chunk.sourcePe ∧ bn = chunk.bufferNumber) →
        putAside l' src bn = putAside l src bn) →
      Selected chunk.sourcePe chunk.bufferNumber entry s
        { lastReceived := update s.lastReceived chunk.sourcePe
            { bufferNumber := chunk.bufferNumber, receivedChunks := entry.1,
              buffer := some entry.2 }
          outOfOrderBuffers := l' } := by
    intro l' entry hsub hnone hother
    refine ⟨⟨(hsub.map _).nodup hkeys, fun b hb hbuf => ?_⟩, update_self .., fun src bn hne => ?_⟩
    · by_cases hsrc : b.sourcePe = chunk.sourcePe
      · simp only [hsrc, update_self]
        intro hbn
        exact hnone b hb (isFor_iff.mpr ⟨hbn, hsrc.symm⟩)
      · simp only [update_of_ne hsrc] at hbuf ⊢
        exact hcurrent b (hsub.subset hb) hsrc hbuf
    · by_cases hsrc : src = chunk.sourcePe
      · subst hsrc
        have hbn : chunk.bufferNumber ≠ bn := fun hbn => hne ⟨rfl, hbn.symm⟩
        rw [← hstored]
        simp only [stored, update_self, if_neg hbn]
        exact hother _ _ hne
      · simp only [stored, update_of_ne hsrc, hother _ _ hne, hsame _ _ hsrc]
  unfold resumeBuffer
  have hmatches : (fun b : ChunkOutOfOrderBuffer P => b.matches chunk)
      = fun b => b.isFor chunk.sourcePe chunk.bufferNumber := rfl
  simp only [hmatches]
  rw [← hstored, putAside]
  cases hfind : l.find? (·.isFor chunk.sourcePe chunk.bufferNumber) with
  | none =>
    refine ⟨_, bind_eq_ok.mpr ⟨fresh, hfresh, rfl⟩, ?_⟩
    exact hbuild (Sublist.refl l) (find?_eq_none.mp hfind) fun _ _ _ => rfl
  | some b =>
    refine ⟨_, rfl, ?_⟩
    exact hbuild (eraseP_sublist ..) (fun _ hb => not_isFor_of_mem_eraseP hkeys hb)
      fun _ _ hne => putAside_eraseP hne

/-- The first part of `processChunk`. -/
theorem selectBuffer_spec (h : ReceiverOk s) (hfresh : newBuffer cs chunk.numChunks = .ok fresh) :
    ∃ s', selectBuffer cs chunk s = .ok s' ∧
      Selected chunk.sourcePe chunk.bufferNumber
        ((stored s chunk.sourcePe chunk.bufferNumber).getD (0, fresh)) s s' := by
  cases hbuf : (s.lastReceived chunk.sourcePe).buffer with
  | none =>
    simp only [selectBuffer, hbuf]
    refine resumeBuffer_spec hfresh h.keys (fun b hb _ => h.current b hb) (fun _ _ _ => rfl) ?_
    intro bn
    simp only [stored, hbuf]
  | some buffer =>
    by_cases hbn : (s.lastReceived chunk.sourcePe).bufferNumber = chunk.bufferNumber
    · simp only [selectBuffer, hbuf, ne_eq, hbn, not_true_eq_false]
      refine ⟨s, rfl, h, ?_, fun _ _ _ => rfl⟩
      simp only [stored, hbuf, if_pos hbn, getD_some]
      rw [← hbn, ← hbuf]
    · simp only [selectBuffer, hbuf, ne_eq, hbn, not_false_eq_true]
      refine resumeBuffer_spec hfresh ?_ ?_ ?_ ?_
      · rw [map_cons, nodup_cons]
        refine ⟨fun hmem => ?_, h.keys⟩
        obtain ⟨b, hb, hkey⟩ := mem_map.mp hmem
        obtain ⟨hsrc, hnum⟩ := Prod.mk.inj hkey
        refine h.current b hb ?_ ?_
        · rw [hsrc, hbuf]
          exact some_ne_none buffer
        · rw [hsrc, hnum]
      · intro b hb hsrc
        obtain rfl | hb := mem_cons.mp hb
        · exact absurd rfl hsrc
        · exact h.current b hb
      · intro src bn hsrc
        have hnot : ¬ ChunkOutOfOrderBuffer.isFor src bn
            { bufferNumber := (s.lastReceived chunk.sourcePe).bufferNumber
              receivedChunks := (s.lastReceived chunk.sourcePe).receivedChunks
              sourcePe := chunk.sourcePe, buffer := buffer } = true := by
          rw [isFor_iff]
          exact fun hfor => hsrc hfor.2
        rw [putAside, putAside, find?_cons_of_neg hnot]
      · intro bn
        simp only [stored, hbuf, putAside]
        by_cases hnum : (s.lastReceived chunk.sourcePe).bufferNumber = bn
        · rw [if_pos hnum, find?_cons_of_pos]
          · rfl
          · exact isFor_iff.mpr ⟨hnum.symm, rfl⟩
        · rw [if_neg hnum, find?_cons_of_neg]
          rw [isFor_iff]
          exact fun hfor => hnum hfor.1.symm

end Select

/-! ### One chunk -/

/-- The entry of array `bn` of source `src` becomes `entry`. -/
structure Processed (src : P) (bn : Nat) (entry : Option (Nat × List MemVal))
    (s s' : ChunkReceiver P) : Prop where
  ok : ReceiverOk s'
  entry_eq : stored s' src bn = entry
  others : ∀ src' bn', ¬ (src' = src ∧ bn' = bn) → stored s' src' bn' = stored s src' bn'

theorem putAside_of_current (h : ReceiverOk s) (hbuf : (s.lastReceived src).buffer ≠ none) :
    putAside s.outOfOrderBuffers src (s.lastReceived src).bufferNumber = none := by
  rw [putAside, map_eq_none_iff, find?_eq_none]
  intro b hb hfor
  obtain ⟨hnum, rfl⟩ := isFor_iff.mp hfor
  exact h.current b hb hbuf hnum

theorem Selected.write {s' : ChunkReceiver P}
    (h : Selected src bn entry s s') (count : Nat) (buffer : List MemVal) :
    Processed src bn (some (count, buffer)) s
      { lastReceived := update s'.lastReceived src
          { bufferNumber := bn, receivedChunks := count, buffer := some buffer }
        outOfOrderBuffers := s'.outOfOrderBuffers } := by
  refine ⟨⟨h.ok.keys, fun b hb hbuf => ?_⟩, ?_, fun src' bn' hne => ?_⟩
  · by_cases hsrc : b.sourcePe = src
    · have hcurrent := h.ok.current b hb
      rw [hsrc, h.last] at hcurrent
      simp only [hsrc, update_self]
      exact hcurrent (some_ne_none _)
    · simp only [update_of_ne hsrc] at hbuf ⊢
      exact h.ok.current b hb hbuf
  · simp only [stored, update_self, if_true]
  · rw [← h.others src' bn' hne]
    by_cases hsrc : src' = src
    · subst hsrc
      have hbn : bn ≠ bn' := fun hbn => hne ⟨rfl, hbn.symm⟩
      simp only [stored, update_self, h.last, if_neg hbn]
    · simp only [stored, update_of_ne hsrc]

theorem Selected.give {s' : ChunkReceiver P} (h : Selected src bn entry s s') :
    Processed src bn none s
      { lastReceived := update s'.lastReceived src
          { bufferNumber := bn, receivedChunks := 0, buffer := none }
        outOfOrderBuffers := s'.outOfOrderBuffers } := by
  refine ⟨⟨h.ok.keys, fun b hb hbuf => ?_⟩, ?_, fun src' bn' hne => ?_⟩
  · by_cases hsrc : b.sourcePe = src
    · simp only [hsrc, update_self] at hbuf
      exact absurd rfl hbuf
    · simp only [update_of_ne hsrc] at hbuf ⊢
      exact h.ok.current b hb hbuf
  · have hnone := putAside_of_current h.ok (by rw [h.last]; exact some_ne_none _)
    rw [h.last] at hnone
    simp only [stored, update_self]
    exact hnone
  · rw [← h.others src' bn' hne]
    by_cases hsrc : src' = src
    · subst hsrc
      have hbn : bn ≠ bn' := fun hbn => hne ⟨rfl, hbn.symm⟩
      simp only [stored, update_self, h.last, if_neg hbn]
    · simp only [stored, update_of_ne hsrc]

section Process

variable {cs : Nat} {chunk : ChunkDataItem P} {s : ChunkReceiver P} {fresh buffer : List MemVal}

variable {entry : Nat × List MemVal}

theorem processChunk_more (h : ReceiverOk s) (hfresh : newBuffer cs chunk.numChunks = .ok fresh)
    (hentry : (stored s chunk.sourcePe chunk.bufferNumber).getD (0, fresh) = entry)
    (hcopy : memcpy entry.2 (chunk.chunkNumber * cs) chunk.rawData 0 chunk.chunkSize = .ok buffer)
    (hmore : (entry.1 + 1 : Int) ≠ chunk.numChunks) :
    ∃ s', processChunk cs chunk s = .ok (s', none) ∧
      Processed chunk.sourcePe chunk.bufferNumber (some (entry.1 + 1, buffer)) s s' := by
  obtain ⟨s1, hselect, hsel⟩ := selectBuffer_spec h hfresh
  rw [hentry] at hsel
  refine ⟨_, ?_, hsel.write (entry.1 + 1) buffer⟩
  refine bind_eq_ok.mpr ⟨s1, hselect, ?_⟩
  simp only [hsel.last]
  refine bind_eq_ok.mpr ⟨buffer, hcopy, ?_⟩
  rw [if_neg hmore]

theorem processChunk_last (h : ReceiverOk s) (hfresh : newBuffer cs chunk.numChunks = .ok fresh)
    (hentry : (stored s chunk.sourcePe chunk.bufferNumber).getD (0, fresh) = entry)
    (hcopy : memcpy entry.2 (chunk.chunkNumber * cs) chunk.rawData 0 chunk.chunkSize = .ok buffer)
    (hlast : (entry.1 + 1 : Int) = chunk.numChunks) :
    ∃ s', processChunk cs chunk s
        = .ok (s',
        some { buffer := buffer, numItems := chunk.numItems, sourcePe := chunk.sourcePe }) ∧
      Processed chunk.sourcePe chunk.bufferNumber none s s' := by
  obtain ⟨s1, hselect, hsel⟩ := selectBuffer_spec h hfresh
  rw [hentry] at hsel
  refine ⟨_, ?_, hsel.give⟩
  refine bind_eq_ok.mpr ⟨s1, hselect, ?_⟩
  simp only [hsel.last]
  refine bind_eq_ok.mpr ⟨buffer, hcopy, ?_⟩
  rw [if_pos hlast]

end Process

theorem no_buffer_of_stored (hnone : ∀ src bn, stored s src bn = none) :
    s.outOfOrderBuffers = [] ∧ ∀ src, (s.lastReceived src).buffer = none := by
  have hlast : ∀ src, (s.lastReceived src).buffer = none := by
    intro src
    cases hbuf : (s.lastReceived src).buffer with
    | none => rfl
    | some buffer =>
      have hstored := hnone src (s.lastReceived src).bufferNumber
      simp only [stored, hbuf] at hstored
      exact absurd hstored (some_ne_none _)
  refine ⟨eq_nil_iff_forall_not_mem.mpr fun b hb => ?_, hlast⟩
  have hstored := hnone b.sourcePe b.bufferNumber
  simp only [stored, hlast, putAside, map_eq_none_iff, find?_eq_none] at hstored
  exact hstored b hb (isFor_iff.mpr ⟨rfl, rfl⟩)

end CharmRuntime.Streamer
