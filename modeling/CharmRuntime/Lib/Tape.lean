import Mathlib.Tactic.Ring

/-!
# Lib.Tape

**Files that are read and written at a position**, through a buffer: reading and writing move
the position on, writing replaces what is there and goes on behind the end. What a position
behind the end leaves open is filled with a given element.

What is written is in the buffer until it is flushed, which a change of the position does, too.
Who reads the file through the buffer sees it at once (`contents`), who reads the disk does not
(`disk`).
-/

namespace CharmRuntime.Lib

universe u

@[ext]
structure Tape (α : Type u) where
  /-- With what is in the buffer. -/
  contents : List α
  /-- Without it. -/
  disk : List α
  pos : Nat
  deriving DecidableEq

namespace Tape

variable {α : Type u}

/-- A file that is opened. -/
def opened (l : List α) : Tape α := ⟨l, l, 0⟩

def empty : Tape α := opened []

/-- What is in the buffer is written out. -/
def flush (t : Tape α) : Tape α := { t with disk := t.contents }

def seek (t : Tape α) (pos : Nat) : Tape α := { t.flush with pos := pos }

/-- What reading does to the position. -/
def skip (t : Tape α) (n : Nat) : Tape α := { t with pos := t.pos + n }

def seekEnd (t : Tape α) : Tape α := t.seek t.contents.length

/-- Replace what is at the position, in the buffer. -/
def write (fill : α) (t : Tape α) (l : List α) : Tape α where
  contents := t.contents.take t.pos ++ List.replicate (t.pos - t.contents.length) fill ++ l ++
    t.contents.drop (t.pos + l.length)
  disk := t.disk
  pos := t.pos + l.length

variable {t : Tape α} {z : α}

/-- **Writing at the end** appends. -/
@[simp]
theorem write_seekEnd (l : List α) : (t.seekEnd.write z l).contents = t.contents ++ l := by
  simp [write, seekEnd, seek, flush]

/-- **Writing inside** the file replaces elements. -/
theorem write_seek_append {pre mid post l : List α} (h : t.contents = pre ++ mid ++ post)
    (hl : l.length = mid.length) :
    ((t.seek pre.length).write z l).contents = pre ++ l ++ post := by
  simp [write, seek, flush, h, hl]

@[simp]
theorem drop_skip (l : List α) (n : Nat) :
    ((opened l).skip n).contents.drop ((opened l).skip n).pos = l.drop n := by
  rw [skip, opened, Nat.zero_add]

/-- Nothing is left to be read. -/
def AtEnd (t : Tape α) : Prop := t.pos = t.contents.length

theorem atEnd_empty : (empty : Tape α).AtEnd := rfl

theorem AtEnd.flush (h : t.AtEnd) : t.flush.AtEnd := h

theorem AtEnd.seekEnd_eq (h : t.AtEnd) : t.seekEnd = t.flush := Tape.ext rfl rfl h.symm

theorem AtEnd.drop_eq (h : t.AtEnd) : t.contents.drop t.pos = [] := by
  rw [h, List.drop_length]

theorem AtEnd.contents_write (h : t.AtEnd) (l : List α) :
    (t.write z l).contents = t.contents ++ l := by
  have hend := write_seekEnd (t := t) (z := z) l
  rwa [h.seekEnd_eq] at hend

theorem atEnd_write_seekEnd (l : List α) : (t.seekEnd.write z l).AtEnd := by
  rw [AtEnd, write_seekEnd, List.length_append]
  rfl

theorem AtEnd.write (h : t.AtEnd) (l : List α) : (t.write z l).AtEnd := by
  have hend := atEnd_write_seekEnd (t := t) (z := z) l
  rwa [h.seekEnd_eq] at hend

end Tape

end CharmRuntime.Lib
