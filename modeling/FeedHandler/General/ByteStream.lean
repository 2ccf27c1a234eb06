import Mathlib.Data.List.Basic

namespace ByteStream

inductive ErrorKind
  | interrupted
  | unexpectedEof
  | invalidData
  | other
  deriving DecidableEq, Repr

structure Error where
  kind : ErrorKind
  message : String
  deriving DecidableEq, Repr

/-- What the next read does: it has up to `n` bytes at hand, or it fails. -/
inductive Event
  | ready (n : Nat)
  | failed (e : Error)
  deriving DecidableEq, Repr

/-- An open file read from front to back. -/
structure Source where
  file : List UInt8
  position : Nat
  reads : Nat
  deriving DecidableEq, Repr

def Source.open (file : List UInt8) : Source := ⟨file, 0, 0⟩

/-- One read of at most `want` bytes. While data remains it returns at least
one byte, at the end of the file none, and a failed read consumes nothing. -/
def Source.read (schedule : Nat → Event) (source : Source) (want : Nat) :
    Except Error (List UInt8) × Source :=
  match schedule source.reads with
  | .ready n =>
    let data := (source.file.drop source.position).take (min want (max 1 n))
    (.ok data, ⟨source.file, source.position + data.length, source.reads + 1⟩)
  | .failed e => (.error e, ⟨source.file, source.position, source.reads + 1⟩)

/-- The reads fail only by interruption, and never from read `settled` on. -/
structure Calm (schedule : Nat → Event) (settled : Nat) : Prop where
  onlyInterrupts : ∀ i e, schedule i = .failed e → e.kind = .interrupted
  settles : ∀ i e, schedule i = .failed e → i < settled

/-- A schedule that interrupts finitely often and never fails otherwise. -/
structure CalmSchedule where
  event : Nat → Event
  settled : Nat
  calm : Calm event settled

/-- Whole reads, without an interruption. -/
def CalmSchedule.whole : CalmSchedule where
  event _ := .ready 64
  settled := 0
  calm := ⟨nofun, nofun⟩

theorem Source.read_ready {schedule : Nat → Event} {source : Source} {want n : Nat}
    (ready : schedule source.reads = .ready n) (positive : 0 < want) :
    ∃ data, source.read schedule want =
        (.ok data, ⟨source.file, source.position + data.length, source.reads + 1⟩) ∧
      data = (source.file.drop source.position).take data.length ∧ data.length ≤ want ∧
      (data.length = 0 → source.file.length ≤ source.position) := by
  refine ⟨(source.file.drop source.position).take (min want (max 1 n)), ?_, ?_, ?_, ?_⟩
  · simp only [read, ready]
  · rw [List.length_take, ← List.take_eq_take_min]
  · rw [List.length_take]
    omega
  · rw [List.length_take, List.length_drop]
    omega

theorem Source.read_failed {schedule : Nat → Event} {source : Source} {want : Nat} {e : Error}
    (failed : schedule source.reads = .failed e) :
    source.read schedule want =
      (.error e, ⟨source.file, source.position, source.reads + 1⟩) := by
  simp only [read, failed]

/-- A buffered writer over a file that is only ever appended to. -/
structure BufWriter where
  capacity : Nat
  file : List UInt8
  buffer : List UInt8
  deriving DecidableEq, Repr

namespace BufWriter

variable {w : BufWriter} {bytes : List UInt8}

def new (capacity : Nat) (file : List UInt8) : BufWriter := ⟨capacity, file, []⟩

def flush (w : BufWriter) : BufWriter := ⟨w.capacity, w.file ++ w.buffer, []⟩

/-- Bytes that fit below the capacity are buffered. Otherwise the buffer goes
out first if they do not fit, and bytes as long as the capacity bypass it. -/
def writeAll (w : BufWriter) (bytes : List UInt8) : BufWriter :=
  if bytes.length < w.capacity - w.buffer.length then { w with buffer := w.buffer ++ bytes }
  else
    let w := if w.capacity - w.buffer.length < bytes.length then w.flush else w
    if w.capacity ≤ bytes.length then { w with file := w.file ++ bytes }
    else { w with buffer := w.buffer ++ bytes }

/-- Everything handed to the writer so far, on file or still buffered. -/
def written (w : BufWriter) : List UInt8 := w.file ++ w.buffer

theorem written_new {capacity : Nat} {file : List UInt8} : (new capacity file).written = file :=
  List.append_nil file

theorem file_flush : w.flush.file = w.written := by
  simp only [flush, written]

theorem written_writeAll : (w.writeAll bytes).written = w.written ++ bytes := by
  unfold writeAll
  by_cases fits : bytes.length < w.capacity - w.buffer.length
  · rw [if_pos fits]
    exact (List.append_assoc ..).symm
  rw [if_neg fits]
  by_cases full : w.capacity - w.buffer.length < bytes.length
  · simp only [if_pos full, flush]
    split <;> simp only [written, List.append_nil, List.append_assoc, List.nil_append]
  · simp only [if_neg full]
    split
    -- nothing can be buffered here, unless there is nothing to write
    · rename_i bypass
      have clear : w.buffer = [] ∨ bytes = [] := by
        by_cases none : w.buffer.length = 0
        · exact Or.inl (List.length_eq_zero_iff.mp none)
        · exact Or.inr (List.length_eq_zero_iff.mp (by omega))
      rcases clear with empty | empty <;> simp only [written, empty, List.append_nil]
    · exact (List.append_assoc ..).symm

end BufWriter

end ByteStream
