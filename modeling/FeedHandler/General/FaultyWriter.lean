import FeedHandler.General.ByteStream

namespace ByteStream

/-- What a device does with one write: it takes up to `n` bytes, or it fails
and takes none. -/
inductive Answer
  | takes (n : Nat)
  | failed (e : Error)
  deriving DecidableEq, Repr

inductive WriteError
  | writeZero
  | device (e : Error)
  deriving DecidableEq, Repr

/-- How a write loop ended: what is on file, what is still pending, and the
answers the device has not given yet. -/
structure Drained where
  file : List UInt8
  pending : List UInt8
  answers : List Answer
  result : Except WriteError Unit

/-- Writes until nothing is pending. A short write is continued, an interrupted
one repeated, and a device that takes nothing or fails ends the loop. When the
listed answers are used up, the device takes everything. -/
def drain : List Answer → List UInt8 → List UInt8 → Drained
  | [], file, pending => ⟨file ++ pending, [], [], .ok ()⟩
  | answer :: answers, file, pending =>
    if pending = [] then ⟨file, [], answer :: answers, .ok ()⟩
    else match answer with
      | .takes n =>
        if n = 0 then ⟨file, pending, answers, .error .writeZero⟩
        else drain answers (file ++ pending.take n) (pending.drop n)
      | .failed e =>
        if e.kind = .interrupted then drain answers file pending
        else ⟨file, pending, answers, .error (.device e)⟩

/-- What every end of a write loop has in common. -/
structure Moves (file pending : List UInt8) (after : Drained) : Prop where
  whole : after.file ++ after.pending = file ++ pending
  grows : file <+: after.file
  emptied : after.result = .ok () → after.pending = []

theorem drain_moves (answers : List Answer) (file pending : List UInt8) :
    Moves file pending (drain answers file pending) := by
  induction answers generalizing file pending with
  | nil => exact ⟨List.append_nil _, List.prefix_append _ _, fun _ => rfl⟩
  | cons answer answers ih =>
    simp only [drain]
    split
    · rename_i empty
      subst empty
      exact ⟨rfl, List.prefix_rfl, fun _ => rfl⟩
    · cases answer with
      | takes n =>
        dsimp only
        split
        · exact ⟨rfl, List.prefix_rfl, nofun⟩
        · obtain ⟨whole, grows, emptied⟩ := ih (file ++ pending.take n) (pending.drop n)
          refine ⟨?_, (List.prefix_append _ _).trans grows, emptied⟩
          rw [whole, List.append_assoc, List.take_append_drop]
      | failed e =>
        dsimp only
        split
        · exact ih file pending
        · exact ⟨rfl, List.prefix_rfl, nofun⟩

/-- A buffered writer over a device that may write short, be interrupted or fail. -/
structure FaultyWriter where
  capacity : Nat
  file : List UInt8
  buffer : List UInt8
  answers : List Answer
  deriving DecidableEq, Repr

namespace FaultyWriter

variable {w : FaultyWriter} {bytes : List UInt8}

def new (capacity : Nat) (file : List UInt8) (answers : List Answer) : FaultyWriter :=
  ⟨capacity, file, [], answers⟩

/-- Writes the buffer out. What a failing device has not taken stays buffered. -/
def flushBuf (w : FaultyWriter) : FaultyWriter × Except WriteError Unit :=
  let drained := drain w.answers w.file w.buffer
  (⟨w.capacity, drained.file, drained.pending, drained.answers⟩, drained.result)

/-- Flushing a file itself does nothing. -/
def flush (w : FaultyWriter) : FaultyWriter × Except WriteError Unit := w.flushBuf

/-- Bytes handed to the device directly are not kept when it fails. -/
def writeThrough (w : FaultyWriter) (bytes : List UInt8) : FaultyWriter × Except WriteError Unit :=
  let drained := drain w.answers w.file bytes
  (⟨w.capacity, drained.file, w.buffer, drained.answers⟩, drained.result)

def writeToBuffer (w : FaultyWriter) (bytes : List UInt8) : FaultyWriter :=
  { w with buffer := w.buffer ++ bytes }

def writeAllCold (w : FaultyWriter) (bytes : List UInt8) :
    FaultyWriter × Except WriteError Unit :=
  let (w, flushed) :=
    if w.capacity - w.buffer.length < bytes.length then w.flushBuf else (w, .ok ())
  match flushed with
  | .error e => (w, .error e)
  | .ok () =>
    if w.capacity ≤ bytes.length then w.writeThrough bytes
    else (w.writeToBuffer bytes, .ok ())

def writeAll (w : FaultyWriter) (bytes : List UInt8) : FaultyWriter × Except WriteError Unit :=
  if bytes.length < w.capacity - w.buffer.length then (w.writeToBuffer bytes, .ok ())
  else w.writeAllCold bytes

/-- Everything on file or still buffered. -/
def written (w : FaultyWriter) : List UInt8 := w.file ++ w.buffer

/-- What a call may do to a writer: it keeps the capacity, only appends to the
file, and adds `bytes` to what is written if it succeeds and nothing otherwise. -/
structure Writes (bytes : List UInt8) (w : FaultyWriter)
    (after : FaultyWriter × Except WriteError Unit) : Prop where
  capacity : after.1.capacity = w.capacity
  grows : w.file <+: after.1.file
  done : after.2 = .ok () → after.1.written = w.written ++ bytes
  kept : after.2 ≠ .ok () → after.1.written = w.written

theorem flushBuf_writes (w : FaultyWriter) : Writes [] w w.flushBuf := by
  have moves := drain_moves w.answers w.file w.buffer
  exact ⟨rfl, moves.grows, fun _ => moves.whole.trans (List.append_nil _).symm,
    fun _ => moves.whole⟩

theorem flushBuf_emptied (ok : w.flushBuf.2 = .ok ()) : w.flushBuf.1.buffer = [] :=
  (drain_moves w.answers w.file w.buffer).emptied ok

theorem writeToBuffer_writes (w : FaultyWriter) (bytes : List UInt8) :
    Writes bytes w (w.writeToBuffer bytes, .ok ()) :=
  ⟨rfl, List.prefix_rfl, fun _ => (List.append_assoc _ _ _).symm, fun failed => absurd rfl failed⟩

/-- Below the capacity a write is all or nothing, whatever the device does. -/
theorem writeAll_writes (small : bytes.length < w.capacity) : Writes bytes w (w.writeAll bytes) := by
  unfold writeAll
  by_cases fits : bytes.length < w.capacity - w.buffer.length
  · rw [if_pos fits]
    exact writeToBuffer_writes w bytes
  rw [if_neg fits]
  unfold writeAllCold
  by_cases full : w.capacity - w.buffer.length < bytes.length
  · simp only [if_pos full]
    have flushed := flushBuf_writes w
    cases result : w.flushBuf.2 with
    | error e =>
      have failed : w.flushBuf.2 ≠ .ok () := by
        rw [result]
        exact nofun
      exact ⟨flushed.capacity, flushed.grows, nofun, fun _ => flushed.kept failed⟩
    | ok _ =>
      have room : ¬ w.flushBuf.1.capacity ≤ bytes.length := by
        rw [flushed.capacity]
        exact Nat.not_le.mpr small
      have written := (flushed.done result).trans (List.append_nil _)
      have added := writeToBuffer_writes w.flushBuf.1 bytes
      simp only [if_neg room]
      refine ⟨flushed.capacity, flushed.grows, fun _ => ?_, fun failed => absurd rfl failed⟩
      rw [added.done rfl, written]
  · simp only [if_neg full, if_neg (Nat.not_le.mpr small)]
    exact writeToBuffer_writes w bytes

/-- The writer on a device without faults. -/
def plain (w : FaultyWriter) : BufWriter := ⟨w.capacity, w.file, w.buffer⟩

/-- A call that a device without faults lets through as the plain writer does it. -/
structure Follows (plain : BufWriter) (after : FaultyWriter × Except WriteError Unit) : Prop where
  plain : after.1.plain = plain
  answers : after.1.answers = []
  result : after.2 = .ok ()

theorem flushBuf_follows (calm : w.answers = []) : Follows w.plain.flush w.flushBuf := by
  rw [flushBuf, calm]
  exact ⟨rfl, rfl, rfl⟩

theorem writeAll_follows (calm : w.answers = []) :
    Follows (w.plain.writeAll bytes) (w.writeAll bytes) := by
  obtain ⟨capacity, file, buffer, answers⟩ := w
  dsimp only at calm
  subst calm
  change Follows (BufWriter.writeAll ⟨capacity, file, buffer⟩ bytes) _
  unfold writeAll writeAllCold BufWriter.writeAll
  dsimp only
  by_cases fits : bytes.length < capacity - buffer.length
  · simp only [if_pos fits]
    exact ⟨rfl, rfl, rfl⟩
  by_cases full : capacity - buffer.length < bytes.length
  · by_cases whole : capacity ≤ bytes.length
    · simp only [if_neg fits, if_pos full, if_pos whole, flushBuf, drain, BufWriter.flush,
        writeThrough]
      exact ⟨rfl, rfl, rfl⟩
    · simp only [if_neg fits, if_pos full, if_neg whole, flushBuf, drain, BufWriter.flush]
      exact ⟨rfl, rfl, rfl⟩
  · by_cases whole : capacity ≤ bytes.length
    · simp only [if_neg fits, if_neg full, if_pos whole, writeThrough, drain]
      exact ⟨rfl, rfl, rfl⟩
    · simp only [if_neg fits, if_neg full, if_neg whole]
      exact ⟨rfl, rfl, rfl⟩

end FaultyWriter

end ByteStream
