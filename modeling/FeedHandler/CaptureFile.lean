import FeedHandler.TickReader
import FeedHandler.SideHistory

namespace FeedHandler

open ByteOrder ByteStream Framing

structure TickRecorder where
  out : BufWriter
  deriving DecidableEq, Repr

namespace TickRecorder

variable {endian : Endian} {capacity : Nat} {file : List UInt8} {recorder : TickRecorder}
  {ticks : List NormalizedTick}

/-- Opens for appending: whatever the file already holds stays in front. -/
def create (capacity : Nat) (file : List UInt8) : TickRecorder := ⟨.new capacity file⟩

def record (endian : Endian) (recorder : TickRecorder) (tick : NormalizedTick) : TickRecorder :=
  ⟨recorder.out.writeAll (tick.asBytes endian).toList⟩

def flush (recorder : TickRecorder) : TickRecorder := ⟨recorder.out.flush⟩

def recordAll (endian : Endian) (recorder : TickRecorder) (ticks : List NormalizedTick) :
    TickRecorder :=
  ticks.foldl (record endian) recorder

end TickRecorder

/-- The bytes of a list of ticks, one record after the other. -/
def encodeAll (endian : Endian) (ticks : List NormalizedTick) : List UInt8 :=
  ticks.flatMap fun tick => (tick.asBytes endian).toList

theorem encodeAll_append {endian : Endian} {first second : List NormalizedTick} :
    encodeAll endian (first ++ second) = encodeAll endian first ++ encodeAll endian second :=
  List.flatMap_append

/-- One session that records `ticks` and flushes, from the file it opens to the
file it leaves. -/
def session (endian : Endian) (capacity : Nat) (file : List UInt8) (ticks : List NormalizedTick) :
    List UInt8 :=
  ((TickRecorder.create capacity file).recordAll endian ticks).flush.out.file

theorem TickRecorder.written_recordAll {endian : Endian} {recorder : TickRecorder}
    {ticks : List NormalizedTick} :
    (recorder.recordAll endian ticks).out.written =
      recorder.out.written ++ encodeAll endian ticks := by
  induction ticks generalizing recorder with
  | nil => exact (List.append_nil _).symm
  | cons tick rest ih =>
    have first : (recorder.record endian tick).out.written =
        recorder.out.written ++ (tick.asBytes endian).toList := BufWriter.written_writeAll
    have later := @ih (recorder.record endian tick)
    rw [first, List.append_assoc] at later
    exact later

theorem session_eq {endian : Endian} {capacity : Nat} {file : List UInt8}
    {ticks : List NormalizedTick} :
    session endian capacity file ticks = file ++ encodeAll endian ticks := by
  have written := @TickRecorder.written_recordAll endian (.create capacity file) ticks
  rw [TickRecorder.create, BufWriter.written_new] at written
  exact BufWriter.file_flush.trans written

/-- The Ok items, in order. -/
def okTicks (items : List (Except Error NormalizedTick)) : List NormalizedTick :=
  items.filterMap Except.toOption

def failures (items : List (Except Error NormalizedTick)) : List (Except Error NormalizedTick) :=
  items.filter fun item => item.toOption.isNone

theorem okTicks_failures (items : List (Except Error NormalizedTick)) :
    (okTicks items).length + (failures items).length = items.length := by
  induction items with
  | nil => rfl
  | cons item rest ih =>
    cases item with
    | ok tick =>
      have kept : okTicks (.ok tick :: rest) = tick :: okTicks rest := rfl
      have dropped : failures (.ok tick :: rest) = failures rest := rfl
      rw [kept, dropped, List.length_cons, List.length_cons, ← ih]
      omega
    | error e =>
      have kept : okTicks (.error e :: rest) = okTicks rest := rfl
      have dropped : failures (.error e :: rest) = .error e :: failures rest := rfl
      rw [kept, dropped, List.length_cons, List.length_cons, ← ih]
      omega

theorem okTicks_eq_iff {items : List (Except Error NormalizedTick)} {ticks : List NormalizedTick}
    (length : items.length = ticks.length) : okTicks items = ticks ↔ items = ticks.map .ok := by
  rw [okTicks, filterMap_eq_iff_map length]
  constructor
  · intro same
    refine List.ext_getElem (by rw [List.length_map, length]) fun i left right => ?_
    have here := congrArg (fun entries => entries[i]?) same
    simp only [List.getElem?_map, List.getElem?_eq_getElem left,
      List.getElem?_eq_getElem (length ▸ left), Option.map_some, Option.some.injEq] at here
    rw [List.getElem_map]
    cases item : items[i] with
    | ok tick =>
      rw [item] at here
      exact congrArg Except.ok (Option.some.inj here)
    | error e =>
      rw [item] at here
      cases here
  · intro same
    rw [same, List.map_map]
    rfl

section ReadBack

variable {endian : Endian} {file : List UInt8} {ticks : List NormalizedTick} {i : Nat}

theorem length_record (tick : NormalizedTick) : (tick.asBytes endian).toList.length = tickSize :=
  Vector.length_toList

theorem length_encodeAll : (encodeAll endian ticks).length = ticks.length * tickSize :=
  length_flatMap length_record ticks

def tickAt (endian : Endian) (file : List UInt8) (i : Nat) : Option NormalizedTick :=
  (itemAt endian file i).bind Except.toOption

theorem length_readBack : (readBack endian file).length = itemCount file := by
  have every : ∀ i ∈ List.range (itemCount file), (itemAt endian file i).isSome := fun i inside =>
    Option.isSome_iff_exists.mpr (exists_itemAt endian (List.mem_range.mp inside))
  rw [readBack, List.filterMap_length_eq_length.mpr every, List.length_range]

theorem toList_recordFrom_block (inside : (i + 1) * tickSize ≤ file.length) :
    (recordFrom file (i * tickSize)).toList = block tickSize file i :=
  toList_recordFrom (by rwa [Nat.succ_mul] at inside)

theorem tickAt_iff {tick : NormalizedTick} (inside : (i + 1) * tickSize ≤ file.length) :
    tickAt endian file i = some tick ↔ block tickSize file i = (tick.asBytes endian).toList := by
  rw [← toList_recordFrom_block inside, Vector.toList_inj]
  by_cases valid : InRange (recordFrom file (i * tickSize))
  · obtain ⟨read, image, value⟩ := itemAt_of_inRange endian inside valid
    rw [tickAt, value, ← image, asBytes_inj]
    exact Option.some_inj
  · obtain ⟨field, val, value⟩ := itemAt_of_not_inRange endian inside valid
    rw [tickAt, value]
    constructor
    · exact nofun
    · intro image
      exact absurd (image ▸ inRange_asBytes) valid

theorem okTicks_readBack :
    okTicks (readBack endian file) =
      (List.range (file.length / tickSize)).filterMap (tickAt endian file) := by
  have all : okTicks (readBack endian file) =
      (List.range (itemCount file)).filterMap (tickAt endian file) := List.filterMap_filterMap ..
  rw [all]
  by_cases torn : 0 < file.length % tickSize
  · have one : itemCount file = file.length / tickSize + 1 := by
      rw [tickSize_eq] at torn
      rw [itemCount, tickSize_eq]
      omega
    have tail : tickAt endian file (file.length / tickSize) = none := by
      rw [tickAt, itemAt_torn torn]
      rfl
    rw [one, List.range_succ, List.filterMap_append, List.filterMap_cons_none tail,
      List.filterMap_nil, List.append_nil]
  · have none : itemCount file = file.length / tickSize := by
      rw [tickSize_eq] at torn
      rw [itemCount, tickSize_eq]
      omega
    rw [none]

/-- The Ok items are a given list of one tick for each whole record exactly when
the file starts with the bytes of that list. -/
theorem okTicks_readBack_iff (whole : file.length / tickSize = ticks.length) :
    okTicks (readBack endian file) = ticks ↔ encodeAll endian ticks <+: file := by
  rw [okTicks_readBack, whole, filterMap_eq_iff_map List.length_range, encodeAll,
    flatMap_prefix_iff length_record, List.ext_getElem_iff]
  have room : ∀ i < ticks.length, (i + 1) * tickSize ≤ file.length := fun i inside => by
    rw [← whole] at inside
    exact (Nat.mul_le_mul_right tickSize inside).trans (Nat.div_mul_le_self _ _)
  constructor
  · intro same i inside
    have here := same.2 i (by simpa using inside) (by simpa using inside)
    rw [List.getElem_map, List.getElem_range, List.getElem_map] at here
    exact (tickAt_iff (room i inside)).mp here
  · intro blocks
    refine ⟨by simp, fun i left right => ?_⟩
    rw [List.length_map] at right
    rw [List.getElem_map, List.getElem_range, List.getElem_map]
    exact (tickAt_iff (room i right)).mpr (blocks i right)

theorem length_failures (whole : file.length / tickSize = ticks.length)
    (same : okTicks (readBack endian file) = ticks) : (failures (readBack endian file)).length ≤ 1 := by
  have total := okTicks_failures (readBack endian file)
  rw [same, length_readBack, itemCount, tickSize_eq] at total
  rw [tickSize_eq] at whole
  omega

end ReadBack

/-- A loop over a reader of the file sees these items, whatever the read sizes. -/
def Reads (endian : Endian) (schedule : CalmSchedule) (file : List UInt8)
    (items : List (Except Error NormalizedTick)) : Prop :=
  ∀ fuel n, schedule.settled + tickSize ≤ fuel → itemCount file < n →
    (TickReader.open file).collect endian schedule.event fuel n = some items

theorem reads_iff {endian : Endian} {schedule : CalmSchedule} {file : List UInt8}
    {items : List (Except Error NormalizedTick)} :
    Reads endian schedule file items ↔ readBack endian file = items := by
  constructor
  · intro reads
    have one := reads _ _ le_rfl (Nat.lt_succ_self (itemCount file))
    rw [TickReader.collect_open schedule.calm le_rfl (Nat.lt_succ_self _)] at one
    exact Option.some.inj one
  · rintro rfl fuel n enough room
    exact TickReader.collect_open schedule.calm enough room

/-- Reading back loses nothing: these Ok items in order, and at most one error. -/
structure Recovers (items : List (Except Error NormalizedTick)) (ticks : List NormalizedTick) :
    Prop where
  ticks : okTicks items = ticks
  errors : (failures items).length ≤ 1

/-- The bytes after the last whole record. -/
def tornRecord (file : List UInt8) : List UInt8 := file.drop (file.length / tickSize * tickSize)

section Crash

variable {endian : Endian} {A : List NormalizedTick} {n : Nat}

theorem take_encodeAll (ticks : List NormalizedTick) (i : Nat) :
    (encodeAll endian ticks).take (i * tickSize) = encodeAll endian (ticks.take i) :=
  take_flatMap length_record ticks i

theorem take_whole_records :
    A.take (((encodeAll endian A).take n).length / tickSize) = A.take (n / tickSize) := by
  have total := @length_encodeAll endian A
  rw [List.length_take]
  by_cases before : n ≤ (encodeAll endian A).length
  · rw [Nat.min_eq_left before]
  · have past := (Nat.not_le.mp before).le
    have most : A.length ≤ n / tickSize := by
      rw [Nat.le_div_iff_mul_le (by decide), ← total]
      exact past
    rw [Nat.min_eq_right past, total, Nat.mul_div_cancel _ (by decide), List.take_length,
      List.take_of_length_le most]

theorem crashed_eq :
    (encodeAll endian A).take n =
      encodeAll endian (A.take (n / tickSize)) ++ tornRecord ((encodeAll endian A).take n) := by
  have bound := Nat.div_mul_le_self ((encodeAll endian A).take n).length tickSize
  have short : ((encodeAll endian A).take n).length ≤ n := List.length_take_le ..
  have whole : ((encodeAll endian A).take n).take
      (((encodeAll endian A).take n).length / tickSize * tickSize) =
        encodeAll endian (A.take (n / tickSize)) := by
    rw [List.take_take, Nat.min_eq_left (bound.trans short), take_encodeAll, take_whole_records]
  rw [tornRecord, ← whole, List.take_append_drop]

theorem length_tornRecord (file : List UInt8) :
    (tornRecord file).length = file.length % tickSize := by
  have split := Nat.div_add_mod' file.length tickSize
  rw [tornRecord, List.length_drop]
  omega

end Crash

/-- Exactly when a second session on a crashed file can be read back: nothing
was torn off, or the new bytes repeat the torn ones over and over. -/
theorem reopened_file_recovers_iff (endian : Endian) (A B : List NormalizedTick)
    (n capacity : Nat) (schedule : CalmSchedule) :
    ∃ items,
      Reads endian schedule (session endian capacity ((encodeAll endian A).take n) B) items ∧
      (Recovers items (A.take (n / tickSize) ++ B) ↔
        tornRecord ((encodeAll endian A).take n) = [] ∨
          ∀ j < (encodeAll endian B).length, (encodeAll endian B)[j]? =
            (tornRecord ((encodeAll endian A).take n))[
              j % (tornRecord ((encodeAll endian A).take n)).length]?) := by
  refine ⟨_, reads_iff.mpr rfl, ?_⟩
  rw [session_eq]
  have short : (tornRecord ((encodeAll endian A).take n)).length < tickSize := by
    rw [length_tornRecord]
    exact Nat.mod_lt _ (by decide)
  have whole : ((encodeAll endian A).take n ++ encodeAll endian B).length / tickSize =
      (A.take (n / tickSize) ++ B).length := by
    rw [crashed_eq, List.length_append, List.length_append, List.length_append, length_encodeAll,
      length_encodeAll, Nat.div_eq_iff (by decide), Nat.add_mul]
    omega
  have heads : encodeAll endian (A.take (n / tickSize) ++ B) <+:
        (encodeAll endian A).take n ++ encodeAll endian B ↔
      encodeAll endian B <+:
        tornRecord ((encodeAll endian A).take n) ++ encodeAll endian B := by
    conv_lhs => rw [crashed_eq, List.append_assoc, encodeAll_append]
    exact List.prefix_append_right_inj _
  rw [← prefix_append_self_iff, ← heads, ← okTicks_readBack_iff whole]
  exact ⟨fun recovers => recovers.ticks, fun same => ⟨same, length_failures whole same⟩⟩

theorem torn_record_shifts_the_next_session :
    ∃ items,
      Reads .little .whole (session .little 8192 ((encodeAll .little [bidTick 101 1 1]).take 10)
        [bidTick 102 1 2]) items ∧
      ¬ Recovers items ([bidTick 101 1 1].take (10 / tickSize) ++ [bidTick 102 1 2]) := by
  refine ⟨_, reads_iff.mpr rfl, ?_⟩
  rintro ⟨same, _⟩
  exact absurd same (by decide)

/-- Any number of cleanly flushed sessions on one file, each with its own
buffer capacity. -/
def sessions (endian : Endian) (file : List UInt8) (runs : List (Nat × List NormalizedTick)) :
    List UInt8 :=
  runs.foldl (fun file run => session endian run.1 file run.2) file

theorem sessions_eq {endian : Endian} {file : List UInt8}
    {runs : List (Nat × List NormalizedTick)} :
    sessions endian file runs = file ++ encodeAll endian (runs.flatMap Prod.snd) := by
  induction runs generalizing file with
  | nil => exact (List.append_nil file).symm
  | cons run rest ih =>
    have first := @session_eq endian run.1 file run.2
    rw [List.flatMap_cons, encodeAll_append, ← List.append_assoc, ← first]
    exact ih

theorem readBack_encodeAll {endian : Endian} {ticks : List NormalizedTick} :
    readBack endian (encodeAll endian ticks) = ticks.map .ok := by
  have total := @length_encodeAll endian ticks
  have whole : (encodeAll endian ticks).length / tickSize = ticks.length := by
    rw [total, Nat.mul_div_cancel _ (by decide)]
  have length : (readBack endian (encodeAll endian ticks)).length = ticks.length := by
    rw [length_readBack, itemCount, total, tickSize_eq]
    omega
  exact (okTicks_eq_iff length).mp ((okTicks_readBack_iff whole).mpr List.prefix_rfl)

/-- A file of one record is read as that record's tick or rejected. -/
theorem readBack_record (endian : Endian) (record : Vector UInt8 tickSize) :
    (∃ tick, tick.asBytes endian = record ∧ InRange record ∧
        readBack endian record.toList = [.ok tick]) ∨
      ∃ field val, ¬ InRange record ∧
        readBack endian record.toList = [.error (badDiscriminant field val)] := by
  have length : record.toList.length = tickSize := Vector.length_toList
  have inside : (0 + 1) * tickSize ≤ record.toList.length := by
    rw [length, Nat.zero_add, Nat.one_mul]
  have here : recordFrom record.toList (0 * tickSize) = record := by
    have bytes := toList_recordFrom_block inside
    rw [block, Nat.zero_mul, List.drop_zero, List.take_of_length_le length.le] at bytes
    rw [Nat.zero_mul]
    exact Vector.toList_inj.mp bytes
  have one : itemCount record.toList = 1 := by
    rw [itemCount, length]
    decide
  have shape (item : Except Error NormalizedTick) (value : itemAt endian record.toList 0 = some item) :
      readBack endian record.toList = [item] := by
    rw [readBack, one, List.range_one, List.filterMap_cons_some value, List.filterMap_nil]
  by_cases valid : InRange (recordFrom record.toList (0 * tickSize))
  · obtain ⟨tick, image, value⟩ := itemAt_of_inRange endian inside valid
    rw [here] at valid image
    exact Or.inl ⟨tick, image, valid, shape _ value⟩
  · obtain ⟨field, val, value⟩ := itemAt_of_not_inRange endian inside valid
    rw [here] at valid
    exact Or.inr ⟨field, val, valid, shape _ value⟩

/-- The capture format is bit-exact both ways, over single records, over whole
files of many sessions, and in what a replay does to a fresh book. -/
theorem capture_replay_bit_exact (endian : Endian) (schedule : CalmSchedule) :
    (∀ capacity tick, validateRecord (tick.asBytes endian) = .ok () ∧
      Reads endian schedule (session endian capacity [] [tick]) [.ok tick]) ∧
    (∀ capacity tick (record : Vector UInt8 tickSize),
      Reads endian schedule record.toList [.ok tick] →
        session endian capacity [] [tick] = record.toList) ∧
    (∀ record : Vector UInt8 tickSize,
      (∃ e, Reads endian schedule record.toList [.error e]) ↔ ¬ InRange record) ∧
    ∀ runs, ∃ items, Reads endian schedule (sessions endian [] runs) items ∧
      items = (runs.flatMap Prod.snd).map .ok ∧
      ∀ symbol exchange, ∃ book results,
        (OrderBook.new symbol exchange).applyAll (runs.flatMap Prod.snd) = some (book, results) ∧
        (OrderBook.new symbol exchange).applyAll (okTicks items) = some (book, results) := by
  refine ⟨fun capacity tick => ⟨validateRecord_of_inRange inRange_asBytes, ?_⟩, ?_, ?_, ?_⟩
  · rw [reads_iff, session_eq]
    exact @readBack_encodeAll endian [tick]
  · intro capacity tick record reads
    rw [reads_iff] at reads
    rw [session_eq]
    rcases readBack_record endian record with
      ⟨read, image, _, value⟩ | ⟨field, val, _, value⟩
    · rw [reads] at value
      cases value
      rw [List.nil_append, encodeAll, List.flatMap_singleton, image]
    · rw [reads] at value
      cases value
  · intro record
    simp only [reads_iff]
    rcases readBack_record endian record with
      ⟨read, _, valid, value⟩ | ⟨field, val, corrupt, value⟩
    · refine ⟨fun ⟨e, rejected⟩ => ?_, fun corrupt => absurd valid corrupt⟩
      rw [value] at rejected
      cases rejected
    · exact ⟨fun _ => corrupt, fun _ => ⟨_, value⟩⟩
  · intro runs
    refine ⟨_, ?_, rfl, fun symbol exchange => ?_⟩
    · rw [reads_iff, sessions_eq]
      exact readBack_encodeAll
    · obtain ⟨book, results, run, _⟩ :=
        History.applyAll symbol exchange (runs.flatMap Prod.snd)
      have same : okTicks ((runs.flatMap Prod.snd).map .ok) = runs.flatMap Prod.snd :=
        (okTicks_eq_iff (List.length_map _)).mpr rfl
      rw [same]
      exact ⟨book, results, run, run⟩

end FeedHandler
