import FeedHandler.CaptureFile
import FeedHandler.General.FaultyWriter

namespace FeedHandler

open ByteOrder ByteStream

variable {endian : Endian} {old : List UInt8}

/-- The buffer of `BufWriter::new`. -/
def defaultBufSize : Nat := 8192

/-- The recorder on a disk that may fail under it. -/
structure DiskRecorder where
  out : FaultyWriter
  deriving DecidableEq, Repr

namespace DiskRecorder

def create (file : List UInt8) (answers : List Answer) : DiskRecorder :=
  ⟨.new defaultBufSize file answers⟩

def record (endian : Endian) (recorder : DiskRecorder) (tick : NormalizedTick) :
    DiskRecorder × Except WriteError Unit :=
  let (out, result) := recorder.out.writeAll (tick.asBytes endian).toList
  (⟨out⟩, result)

def flush (recorder : DiskRecorder) : DiskRecorder × Except WriteError Unit :=
  let (out, result) := recorder.out.flush
  (⟨out⟩, result)

end DiskRecorder

inductive RecorderCall
  | record (tick : NormalizedTick)
  | flush
  deriving DecidableEq, Repr

/-- A recorder in use, with every call so far and its answer. The caller may go
on after an error. -/
structure DiskSession where
  recorder : DiskRecorder
  log : List (RecorderCall × Except WriteError Unit)

namespace DiskSession

variable {s : DiskSession}

def call (endian : Endian) (s : DiskSession) (call : RecorderCall) : DiskSession :=
  let (recorder, result) := match call with
    | .record tick => s.recorder.record endian tick
    | .flush => s.recorder.flush
  ⟨recorder, s.log ++ [(call, result)]⟩

def run (endian : Endian) (file : List UInt8) (answers : List Answer) (calls : List RecorderCall) :
    DiskSession :=
  calls.foldl (call endian) ⟨.create file answers, []⟩

end DiskSession

def acceptedTick : RecorderCall × Except WriteError Unit → Option NormalizedTick
  | (.record tick, .ok ()) => some tick
  | (.record _, .error _) | (.flush, _) => none

def isFlushed : RecorderCall × Except WriteError Unit → Bool
  | (.flush, .ok ()) => true
  | (.flush, .error _) | (.record _, _) => false

/-- The ticks whose `record` returned Ok. -/
def acceptedTicks (log : List (RecorderCall × Except WriteError Unit)) : List NormalizedTick :=
  log.filterMap acceptedTick

/-- The ticks accepted before the last `flush` that returned Ok. -/
def securedTicks (log : List (RecorderCall × Except WriteError Unit)) : List NormalizedTick :=
  acceptedTicks ((log.reverse.dropWhile fun entry => !isFlushed entry).reverse)

section Log

variable {log : List (RecorderCall × Except WriteError Unit)}
  {entry : RecorderCall × Except WriteError Unit}

theorem acceptedTicks_concat :
    acceptedTicks (log ++ [entry]) = acceptedTicks log ++ (acceptedTick entry).toList := by
  rw [acceptedTicks, List.filterMap_append]
  cases tick : acceptedTick entry with
  | none => rw [List.filterMap_cons_none tick]; rfl
  | some _ => rw [List.filterMap_cons_some tick]; rfl

theorem securedTicks_flushed (flushed : isFlushed entry = true) :
    securedTicks (log ++ [entry]) = acceptedTicks (log ++ [entry]) := by
  rw [securedTicks, List.reverse_concat, List.dropWhile_cons_of_neg, ← List.reverse_concat,
    List.reverse_reverse]
  rw [flushed]
  exact Bool.false_ne_true

theorem securedTicks_other (other : isFlushed entry = false) :
    securedTicks (log ++ [entry]) = securedTicks log := by
  have skipped : (!isFlushed entry) = true := by rw [other]; rfl
  rw [securedTicks, List.reverse_concat, List.dropWhile_cons, if_pos skipped, securedTicks]

theorem ok_of_isFlushed {result : Except WriteError Unit}
    (flushed : isFlushed (.flush, result) = true) : result = .ok () := by
  cases result with
  | ok _ => rfl
  | error e => cases flushed

theorem securedTicks_front (log : List (RecorderCall × Except WriteError Unit)) :
    securedTicks log <+: acceptedTicks log := by
  have before := List.reverse_prefix.mpr
    (List.dropWhile_suffix (l := log.reverse) fun entry => !isFlushed entry)
  rw [List.reverse_reverse] at before
  exact before.filterMap acceptedTick

end Log

/-- The books of a session: what is written are the accepted ticks, and those
secured are on file. -/
structure Ledger (endian : Endian) (old : List UInt8) (s : DiskSession) : Prop where
  capacity : s.recorder.out.capacity = defaultBufSize
  written : s.recorder.out.written = old ++ encodeAll endian (acceptedTicks s.log)
  secured : old ++ encodeAll endian (securedTicks s.log) <+: s.recorder.out.file

namespace Ledger

variable {s : DiskSession}

theorem create (old : List UInt8) (answers : List Answer) :
    Ledger endian old ⟨.create old answers, []⟩ where
  capacity := rfl
  written := rfl
  secured := by
    rw [show securedTicks [] = [] from rfl, show encodeAll endian [] = [] from rfl,
      List.append_nil]
    exact List.prefix_rfl

theorem concat (ledger : Ledger endian old s) {call : RecorderCall} {bytes : List UInt8}
    {out : FaultyWriter} {result : Except WriteError Unit}
    (writes : FaultyWriter.Writes bytes s.recorder.out (out, result))
    (image : encodeAll endian (acceptedTick (call, .ok ())).toList = bytes)
    (flushed : isFlushed (call, result) = true → out.buffer = []) :
    Ledger endian old ⟨⟨out⟩, s.log ++ [(call, result)]⟩ := by
  have written : out.written =
      old ++ encodeAll endian (acceptedTicks (s.log ++ [(call, result)])) := by
    rw [acceptedTicks_concat, encodeAll_append, ← List.append_assoc, ← ledger.written]
    cases result with
    | ok _ =>
      rw [image]
      exact writes.done rfl
    | error e =>
      have none : acceptedTick (call, .error e) = none := by cases call <;> rfl
      rw [none]
      exact (writes.kept nofun).trans (List.append_nil _).symm
  refine ⟨writes.capacity.trans ledger.capacity, written, ?_⟩
  cases entry : isFlushed (call, result) with
  | true =>
    have onFile : out.file = out.written := by
      rw [FaultyWriter.written, flushed entry, List.append_nil]
    rw [securedTicks_flushed entry, onFile, written]
  | false =>
    rw [securedTicks_other entry]
    exact ledger.secured.trans writes.grows

theorem record (ledger : Ledger endian old s) (tick : NormalizedTick) :
    Ledger endian old (s.call endian (.record tick)) := by
  have small : (tick.asBytes endian).toList.length < s.recorder.out.capacity := by
    rw [ledger.capacity, length_record, tickSize_eq]
    decide
  exact ledger.concat (FaultyWriter.writeAll_writes small) (List.append_nil _) nofun

theorem flush (ledger : Ledger endian old s) : Ledger endian old (s.call endian .flush) := by
  exact ledger.concat (FaultyWriter.flushBuf_writes _) rfl fun flushed =>
    FaultyWriter.flushBuf_emptied (ok_of_isFlushed flushed)

theorem run (endian : Endian) (old : List UInt8) (answers : List Answer)
    (calls : List RecorderCall) : Ledger endian old (.run endian old answers calls) := by
  induction calls using List.reverseRecOn with
  | nil => exact .create old answers
  | append_singleton calls call ih =>
    rw [DiskSession.run, List.foldl_concat]
    cases call with
    | record tick => exact ih.record tick
    | flush => exact ih.flush

end Ledger

theorem DiskSession.calm_records (s : DiskSession) (calm : s.recorder.out.answers = [])
    (ticks : List NormalizedTick) :
    ((ticks.map RecorderCall.record).foldl (call endian) s).recorder.out.answers = [] ∧
      ((ticks.map RecorderCall.record).foldl (call endian) s).recorder.out.plain =
        (TickRecorder.recordAll endian ⟨s.recorder.out.plain⟩ ticks).out := by
  induction ticks generalizing s with
  | nil => exact ⟨calm, rfl⟩
  | cons tick ticks ih =>
    have follows := @FaultyWriter.writeAll_follows s.recorder.out (tick.asBytes endian).toList calm
    obtain ⟨quiet, same⟩ := ih (s.call endian (.record tick)) follows.answers
    refine ⟨quiet, same.trans ?_⟩
    have first : (s.call endian (.record tick)).recorder.out.plain =
        s.recorder.out.plain.writeAll (tick.asBytes endian).toList := follows.plain
    rw [first]
    rfl

/-- On a disk without faults a session is the one of the plain recorder. -/
theorem calm_session_eq (endian : Endian) (file : List UInt8) (ticks : List NormalizedTick) :
    (DiskSession.run endian file [] (ticks.map .record ++ [.flush])).recorder.out.file =
      session endian defaultBufSize file ticks := by
  obtain ⟨calm, same⟩ := @DiskSession.calm_records endian
    ⟨.create file [], []⟩ rfl ticks
  rw [DiskSession.run, List.foldl_concat]
  have follows := FaultyWriter.flushBuf_follows calm
  rw [same] at follows
  exact congrArg BufWriter.file follows.plain

/-- Whatever the disk does, and however the caller goes on after an error: file
and buffer together hold the accepted ticks behind the old content, the file
holds at least what the last successful flush has secured. -/
theorem disk_faults_drop_only_refused_ticks (endian : Endian) (old : List UInt8)
    (answers : List Answer) (calls : List RecorderCall) :
    (DiskSession.run endian old answers calls).recorder.out.written =
        old ++ encodeAll endian (acceptedTicks (DiskSession.run endian old answers calls).log) ∧
      old ++ encodeAll endian (securedTicks (DiskSession.run endian old answers calls).log) <+:
        (DiskSession.run endian old answers calls).recorder.out.file := by
  have ledger := Ledger.run endian old answers calls
  exact ⟨ledger.written, ledger.secured⟩

/-- What is handed to `record`, accepted or not. -/
def RecorderCall.tick : RecorderCall → Option NormalizedTick
  | .record tick => some tick
  | .flush => none

/-- A recording that ends with the first `record` the disk refuses. A failed
`flush` does not end it. -/
def DiskSession.recordUntilRefused (endian : Endian) (s : DiskSession) :
    List RecorderCall → DiskSession
  | [] => s
  | .record tick :: rest =>
    match (s.recorder.record endian tick).2 with
    | .ok () => (s.call endian (.record tick)).recordUntilRefused endian rest
    | .error _ => s.call endian (.record tick)
  | .flush :: rest => (s.call endian .flush).recordUntilRefused endian rest

theorem Ledger.recordUntilRefused {s : DiskSession} (ledger : Ledger endian old s)
    (calls : List RecorderCall) : Ledger endian old (s.recordUntilRefused endian calls) := by
  induction calls generalizing s with
  | nil => exact ledger
  | cons call rest ih =>
    cases call with
    | record tick =>
      rw [DiskSession.recordUntilRefused]
      split
      · exact ih (ledger.record tick)
      · exact ledger.record tick
    | flush => exact ih ledger.flush

/-- A file that ends inside a record, or after any of them, is read as the ticks
of its whole records. -/
theorem recovers_of_prefix {file : List UInt8} {ticks : List NormalizedTick}
    (part : file <+: encodeAll endian ticks) :
    Recovers (readBack endian file) (ticks.take (file.length / tickSize)) := by
  have cut := List.prefix_iff_eq_take.mp part
  have heads : encodeAll endian (ticks.take (file.length / tickSize)) <+: file := by
    have split := @crashed_eq endian ticks file.length
    rw [← cut] at split
    exact ⟨_, split.symm⟩
  have short := part.length_le
  rw [length_encodeAll] at short
  have whole : file.length / tickSize = (ticks.take (file.length / tickSize)).length := by
    have most := Nat.div_le_of_le_mul (Nat.mul_comm _ _ ▸ short)
    rw [List.length_take, Nat.min_eq_left most]
  have same := (okTicks_readBack_iff whole).mpr heads
  exact ⟨same, length_failures whole same⟩

/-- The file of a session that started on a sound capture file, at any moment. -/
theorem Ledger.recovers {earlier : List NormalizedTick} {s : DiskSession}
    (ledger : Ledger endian (encodeAll endian earlier) s) :
    ∃ kept, Recovers (readBack endian s.recorder.out.file) kept ∧
      earlier ++ securedTicks s.log <+: kept ∧ kept <+: earlier ++ acceptedTicks s.log := by
  have part : s.recorder.out.file <+: encodeAll endian (earlier ++ acceptedTicks s.log) := by
    rw [encodeAll_append, ← ledger.written]
    exact List.prefix_append _ _
  refine ⟨_, recovers_of_prefix part, ?_, List.take_prefix _ _⟩
  have secured := ledger.secured.length_le
  rw [← encodeAll_append, length_encodeAll] at secured
  refine List.prefix_take_iff.mpr ⟨?_, (Nat.le_div_iff_mul_le (by decide)).mpr secured⟩
  exact (List.prefix_append_right_inj _).mpr (securedTicks_front _)

/-- A session on a sound capture file that dies at any moment leaves a file from
which a reader gets back every secured tick, then some of those accepted since,
in order, and at most one error at the end. -/
theorem crashed_session_keeps_secured_ticks (endian : Endian) (earlier : List NormalizedTick)
    (answers : List Answer) (calls : List RecorderCall) (schedule : CalmSchedule) :
    ∃ items kept,
      Reads endian schedule
        (DiskSession.run endian (encodeAll endian earlier) answers calls).recorder.out.file items ∧
      Recovers items kept ∧
      earlier ++ securedTicks
        (DiskSession.run endian (encodeAll endian earlier) answers calls).log <+: kept ∧
      kept <+: earlier ++ acceptedTicks
        (DiskSession.run endian (encodeAll endian earlier) answers calls).log := by
  obtain ⟨kept, recovers, secured, recorded⟩ :=
    (Ledger.run endian (encodeAll endian earlier) answers calls).recovers
  exact ⟨_, kept, reads_iff.mpr rfl, recovers, secured, recorded⟩

end FeedHandler
