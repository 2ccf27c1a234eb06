import FeedHandler.Capture
import FeedHandler.General.Framing

namespace FeedHandler

open ByteOrder ReprC ByteStream

structure TickReader where
  input : Source
  deriving DecidableEq, Repr

def TickReader.open (file : List UInt8) : TickReader := ⟨Source.open file⟩

/-- The bytes of one read land in the buffer from `got` on. -/
def deposit (buf : Vector UInt8 tickSize) (got : Nat) (data : List UInt8) :
    Vector UInt8 tickSize :=
  Vector.ofFn fun i =>
    if got ≤ i.val ∧ i.val < got + data.length then data.getD (i.val - got) 0 else buf.get i

/-- The read loop of `next`. `none` if it is still running when the fuel is out. -/
def fill (schedule : Nat → Event) :
    Nat → Vector UInt8 tickSize → Nat → Source →
      Option (Except Error (Vector UInt8 tickSize × Nat) × Source)
  | 0, _, _, _ => none
  | fuel + 1, buf, got, input =>
    match input.read schedule (tickSize - got) with
    | (.ok data, input) =>
      if data.length = 0 then some (.ok (buf, got), input)
      else
        let buf := deposit buf got data
        let got := got + data.length
        if got = tickSize then some (.ok (buf, got), input)
        else fill schedule fuel buf got input
    | (.error e, input) =>
      if e.kind = .interrupted then fill schedule fuel buf got input
      else some (.error e, input)

def truncated (got : Nat) : Error :=
  ⟨.unexpectedEof, s!"capture file truncated mid-record: got {got} of {tickSize} bytes"⟩

/-- What `next` makes of the buffer once the loop is left. The outer `none` is
the undefined behaviour of `readUnaligned`. -/
def settle (endian : Endian) (buf : Vector UInt8 tickSize) (got : Nat) :
    Option (Option (Except Error NormalizedTick)) :=
  if got = 0 then some none
  else if got ≠ tickSize then some (some (.error (truncated got)))
  else
    match validateRecord buf with
    | .error e => some (some (.error e))
    | .ok () => (readUnaligned endian buf).map fun tick => some (.ok tick)

namespace TickReader

variable (endian : Endian) (schedule : Nat → Event) (fuel : Nat)

def next (reader : TickReader) : Option (Option (Except Error NormalizedTick) × TickReader) := do
  match ← fill schedule fuel (Vector.replicate tickSize 0) 0 reader.input with
  | (.error e, input) => return (some (.error e), ⟨input⟩)
  | (.ok (buf, got), input) => return (← settle endian buf got, ⟨input⟩)

/-- The items of so many calls of `next`. -/
def calls : Nat → TickReader → Option (List (Option (Except Error NormalizedTick)) × TickReader)
  | 0, reader => some ([], reader)
  | n + 1, reader => do
    let (item, reader) ← reader.next endian schedule fuel
    let (items, reader) ← calls n reader
    return (item :: items, reader)

/-- A `for` loop over the reader, left at the first `None`. -/
def collect : Nat → TickReader → Option (List (Except Error NormalizedTick))
  | 0, _ => none
  | n + 1, reader => do
    match ← reader.next endian schedule fuel with
    | (none, _) => return []
    | (some item, reader) => return item :: (← collect n reader)

end TickReader

section Filling

variable {schedule : Nat → Event} {settled start fuel got got' : Nat}
  {buf buf' : Vector UInt8 tickSize} {input input' : Source}

/-- The buffer holds the `got` file bytes from `start` on, and they are all that
was read since. -/
structure Filled (start : Nat) (buf : Vector UInt8 tickSize) (got : Nat) (input : Source) :
    Prop where
  position : input.position = start + got
  content : buf.toList.take got = (input.file.drop start).take got
  within : got ≤ tickSize

theorem Filled.none (at_start : input.position = start) : Filled start buf 0 input where
  position := at_start
  content := rfl
  within := Nat.zero_le _

theorem take_deposit {data : List UInt8} (room : got + data.length ≤ tickSize) :
    (deposit buf got data).toList.take (got + data.length) = buf.toList.take got ++ data := by
  have sized : (buf.toList.take got).length = got := by
    rw [List.length_take, Vector.length_toList]
    omega
  refine List.ext_getElem (by simp; omega) fun i left right => ?_
  simp only [List.getElem_take, Vector.getElem_toList, deposit, Vector.getElem_ofFn]
  rw [List.length_append, sized] at right
  by_cases old : i < got
  · rw [if_neg (by omega), List.getElem_append_left (by omega), List.getElem_take,
      Vector.getElem_toList]
    rfl
  · rw [if_pos (by omega), List.getElem_append_right (by omega), List.getD_eq_getElem?_getD,
      List.getElem?_eq_getElem (by omega), Option.getD_some]
    simp only [sized]

theorem Filled.deposit {data : List UInt8} {reads : Nat} (filled : Filled start buf got input)
    (read : data = (input.file.drop input.position).take data.length)
    (room : data.length ≤ tickSize - got) :
    Filled start (deposit buf got data) (got + data.length)
      ⟨input.file, input.position + data.length, reads⟩ where
  position := by
    have before := filled.position
    dsimp only
    omega
  content := by
    have within := filled.within
    rw [take_deposit (by omega), filled.content, List.take_add, List.drop_drop]
    rw [filled.position] at read
    exact congrArg _ read
  within := by
    have within := filled.within
    omega

/-- Whatever the reads do, a loop that ends without an error has read the file
contiguously, and it ends only with a full buffer or at the end of the file. -/
theorem fill_filled (run : fill schedule fuel buf got input = some (.ok (buf', got'), input'))
    (filled : Filled start buf got input) (room : got < tickSize) :
    Filled start buf' got' input' ∧ input'.file = input.file ∧
      (got' = tickSize ∨ input.file.length ≤ input'.position) := by
  induction fuel generalizing buf got input with
  | zero => cases run
  | succ fuel ih =>
    rw [fill] at run
    cases event : schedule input.reads with
    | ready n =>
      obtain ⟨data, read, content, bound, atEnd⟩ :=
        Source.read_ready event (Nat.sub_pos_of_lt room)
      simp only [read] at run
      by_cases empty : data.length = 0
      · simp only [empty, if_true, Nat.add_zero, Option.some.injEq, Prod.mk.injEq,
          Except.ok.injEq] at run
        obtain ⟨⟨rfl, rfl⟩, rfl⟩ := run
        exact ⟨⟨filled.position, filled.content, filled.within⟩, rfl, Or.inr (atEnd empty)⟩
      rw [if_neg empty] at run
      have more := @Filled.deposit _ _ _ _ _ (input.reads + 1) filled content bound
      by_cases full : got + data.length = tickSize
      · simp only [if_pos full, Option.some.injEq, Prod.mk.injEq, Except.ok.injEq] at run
        obtain ⟨⟨rfl, rfl⟩, rfl⟩ := run
        exact ⟨more, rfl, Or.inl full⟩
      · rw [if_neg full] at run
        have later := ih run more (Nat.lt_of_le_of_ne more.within full)
        exact later
    | failed e =>
      simp only [Source.read_failed event] at run
      split at run
      · have same : Filled start buf got ⟨input.file, input.position, input.reads + 1⟩ :=
          ⟨filled.position, filled.content, filled.within⟩
        have later := ih run same room
        exact later
      · cases run

/-- Under finitely many interruptions the loop ends without an error. -/
theorem fill_ends (calm : Calm schedule settled) (room : got < tickSize)
    (enough : settled - input.reads + (tickSize - got) ≤ fuel) :
    ∃ buf' got' input', fill schedule fuel buf got input = some (.ok (buf', got'), input') := by
  induction fuel generalizing buf got input with
  | zero => omega
  | succ fuel ih =>
    rw [fill]
    cases event : schedule input.reads with
    | ready n =>
      obtain ⟨data, read, _, bound, _⟩ := Source.read_ready event (Nat.sub_pos_of_lt room)
      simp only [read]
      split
      · exact ⟨_, _, _, rfl⟩
      rename_i nonempty
      split
      · exact ⟨_, _, _, rfl⟩
      · rename_i notFull
        exact ih (by omega) (by dsimp only; omega)
    | failed e =>
      have early := calm.settles _ e event
      simp only [Source.read_failed event, if_pos (calm.onlyInterrupts _ e event)]
      exact ih room (by dsimp only; omega)

theorem Filled.length_le (filled : Filled start buf got input) :
    got ≤ input.file.length - start := by
  have lengths := congrArg List.length filled.content
  have within := filled.within
  rw [List.length_take, List.length_take, Vector.length_toList, List.length_drop] at lengths
  omega

theorem Filled.got_eq (filled : Filled start buf got input)
    (ended : got = tickSize ∨ input.file.length ≤ input.position) :
    got = min tickSize (input.file.length - start) := by
  have bound := filled.length_le
  have position := filled.position
  have within := filled.within
  omega

end Filling

/-- The bytes of the file from `start` on, as one record. -/
def recordFrom (file : List UInt8) (start : Nat) : Vector UInt8 tickSize :=
  Vector.ofFn fun j => file.getD (start + j.val) 0

theorem toList_recordFrom {file : List UInt8} {start : Nat}
    (inside : start + tickSize ≤ file.length) :
    (recordFrom file start).toList = (file.drop start).take tickSize := by
  refine List.ext_getElem (by simp; omega) fun j left right => ?_
  rw [Vector.length_toList] at left
  simp only [recordFrom, Vector.getElem_toList, Vector.getElem_ofFn, List.getElem_take,
    List.getElem_drop]
  rw [List.getD_eq_getElem?_getD, List.getElem?_eq_getElem (by omega), Option.getD_some]

section Items

variable {file : List UInt8} {start i : Nat} {buf : Vector UInt8 tickSize}

theorem settle_of_inRange (endian : Endian) (valid : InRange buf) :
    ∃ tick, tick.asBytes endian = buf ∧ settle endian buf tickSize = some (some (.ok tick)) := by
  obtain ⟨tick, read⟩ := exists_readUnaligned endian valid
  refine ⟨tick, asBytes_of_readUnaligned read, ?_⟩
  rw [settle, if_neg (by decide), if_neg (not_not.mpr rfl), validateRecord_of_inRange valid, read]
  rfl

theorem settle_of_not_inRange (endian : Endian) (corrupt : ¬ InRange buf) :
    ∃ field val,
      settle endian buf tickSize = some (some (.error (badDiscriminant field val))) := by
  obtain ⟨field, val, error⟩ := validateRecord_of_not_inRange corrupt
  refine ⟨field, val, ?_⟩
  rw [settle, if_neg (by decide), if_neg (not_not.mpr rfl), error]

theorem settle_torn {endian : Endian} {got : Nat} (positive : 0 < got) (torn : got < tickSize) :
    settle endian buf got = some (some (.error (truncated got))) := by
  rw [settle, if_neg positive.ne', if_pos torn.ne]

theorem settle_short {endian : Endian} {got : Nat} {other : Vector UInt8 tickSize} (short : got < tickSize) :
    settle endian buf got = settle endian other got := by
  simp only [settle, ne_eq, short.ne, not_false_eq_true, if_true]

theorem settle_zero {endian : Endian} : settle endian buf 0 = some none := rfl

/-- What `next` returns when the file is read from `start` on. -/
def itemFrom (endian : Endian) (file : List UInt8) (start : Nat) :
    Option (Option (Except Error NormalizedTick)) :=
  settle endian (recordFrom file start) (min tickSize (file.length - start))

/-- The `i`-th item of a file. Reading it never meets an invalid bit pattern,
see `itemFrom_eq`. -/
def itemAt (endian : Endian) (file : List UInt8) (i : Nat) :
    Option (Except Error NormalizedTick) :=
  (itemFrom endian file (i * tickSize)).getD none

theorem itemFrom_eq {endian : Endian} : itemFrom endian file (i * tickSize) = some (itemAt endian file i) := by
  have total : ∃ item, itemFrom endian file (i * tickSize) = some item := by
    unfold itemFrom
    by_cases whole : tickSize ≤ file.length - i * tickSize
    · rw [Nat.min_eq_left whole]
      by_cases valid : InRange (recordFrom file (i * tickSize))
      · obtain ⟨tick, _, value⟩ := settle_of_inRange endian valid
        exact ⟨_, value⟩
      · obtain ⟨field, val, value⟩ := settle_of_not_inRange endian valid
        exact ⟨_, value⟩
    rw [Nat.min_eq_right (by omega)]
    by_cases more : 0 < file.length - i * tickSize
    · exact ⟨_, settle_torn more (by omega)⟩
    · rw [Nat.eq_zero_of_not_pos more]
      exact ⟨_, settle_zero⟩
  obtain ⟨item, value⟩ := total
  rw [itemAt, value, Option.getD_some]

theorem itemAt_of_inRange (endian : Endian) (inside : (i + 1) * tickSize ≤ file.length)
    (valid : InRange (recordFrom file (i * tickSize))) :
    ∃ tick, tick.asBytes endian = recordFrom file (i * tickSize) ∧
      itemAt endian file i = some (.ok tick) := by
  obtain ⟨tick, image, value⟩ := settle_of_inRange endian valid
  rw [Nat.succ_mul] at inside
  refine ⟨tick, image, ?_⟩
  rw [itemAt, itemFrom, Nat.min_eq_left (by omega), value, Option.getD_some]

theorem itemAt_of_not_inRange (endian : Endian) (inside : (i + 1) * tickSize ≤ file.length)
    (corrupt : ¬ InRange (recordFrom file (i * tickSize))) :
    ∃ field val, itemAt endian file i = some (.error (badDiscriminant field val)) := by
  obtain ⟨field, val, value⟩ := settle_of_not_inRange endian corrupt
  rw [Nat.succ_mul] at inside
  refine ⟨field, val, ?_⟩
  rw [itemAt, itemFrom, Nat.min_eq_left (by omega), value, Option.getD_some]

theorem itemAt_torn {endian : Endian} (positive : 0 < file.length % tickSize) :
    itemAt endian file (file.length / tickSize) =
      some (.error (truncated (file.length % tickSize))) := by
  have rest : file.length - file.length / tickSize * tickSize = file.length % tickSize := by
    have split := Nat.div_add_mod' file.length tickSize
    omega
  have short := Nat.mod_lt file.length (by decide : 0 < tickSize)
  rw [itemAt, itemFrom, rest, Nat.min_eq_right short.le, settle_torn positive short,
    Option.getD_some]

theorem itemAt_end {endian : Endian} (past : file.length ≤ i * tickSize) : itemAt endian file i = none := by
  rw [itemAt, itemFrom, Nat.sub_eq_zero_of_le past, Nat.min_zero, settle_zero, Option.getD_some]

/-- The items before the first `None`, a torn tail included. -/
def itemCount (file : List UInt8) : Nat := (file.length + tickSize - 1) / tickSize

theorem lt_itemCount_iff : i < itemCount file ↔ i * tickSize < file.length := by
  have positive : 0 < tickSize := by decide
  rw [itemCount, Nat.lt_iff_add_one_le, Nat.le_div_iff_mul_le positive, Nat.succ_mul]
  omega

theorem exists_itemAt (endian : Endian) (inside : i < itemCount file) :
    ∃ item, itemAt endian file i = some item := by
  have start := lt_itemCount_iff.mp inside
  by_cases whole : (i + 1) * tickSize ≤ file.length
  · by_cases valid : InRange (recordFrom file (i * tickSize))
    · obtain ⟨tick, _, value⟩ := itemAt_of_inRange endian whole valid
      exact ⟨_, value⟩
    · obtain ⟨field, val, value⟩ := itemAt_of_not_inRange endian whole valid
      exact ⟨_, value⟩
  · have last : file.length / tickSize = i := by
      rw [Nat.div_eq_iff (by decide)]
      rw [Nat.succ_mul] at whole
      omega
    have torn : 0 < file.length % tickSize := by
      have split := Nat.div_add_mod' file.length tickSize
      rw [last] at split
      omega
    rw [← last]
    exact ⟨_, itemAt_torn torn⟩

/-- Everything a loop over the reader sees. -/
def readBack (endian : Endian) (file : List UInt8) : List (Except Error NormalizedTick) :=
  (List.range (itemCount file)).filterMap (itemAt endian file)

end Items

namespace TickReader

variable {schedule : Nat → Event} {settled fuel i : Nat} {reader : TickReader}

theorem next_itemAt (endian : Endian) (calm : Calm schedule settled) (enough : settled + tickSize ≤ fuel)
    (position : reader.input.position = min (i * tickSize) reader.input.file.length) :
    ∃ reader', reader.next endian schedule fuel =
        some (itemAt endian reader.input.file i, reader') ∧
      reader'.input.file = reader.input.file ∧
      reader'.input.position = min ((i + 1) * tickSize) reader.input.file.length := by
  obtain ⟨buf, got, input, run⟩ : ∃ buf got input,
      fill schedule fuel (Vector.replicate tickSize 0) 0 reader.input =
        some (.ok (buf, got), input) :=
    fill_ends calm (by decide) (by omega)
  obtain ⟨filled, same, ended⟩ := fill_filled run (Filled.none position) (by decide)
  have amount := filled.got_eq (same ▸ ended)
  rw [same] at amount
  have item : settle endian buf got = some (itemAt endian reader.input.file i) := by
    have rest : min tickSize (reader.input.file.length - i * tickSize) = got := by omega
    rw [← itemFrom_eq, itemFrom, rest]
    by_cases short : got < tickSize
    · exact settle_short short
    have full : got = tickSize := Nat.le_antisymm filled.within (Nat.not_lt.mp short)
    have positive : 0 < tickSize := by decide
    have start : min (i * tickSize) reader.input.file.length = i * tickSize := by omega
    have content := filled.content
    rw [full, same, start, List.take_of_length_le Vector.length_toList.le] at content
    have inside : i * tickSize + tickSize ≤ reader.input.file.length := by omega
    rw [Vector.toList_inj.mp (content.trans (toList_recordFrom inside).symm)]
  refine ⟨⟨input⟩, ?_, same, ?_⟩
  · simp only [next, run, item, Option.bind_eq_bind, Option.bind_some, Option.pure_def]
  · have landed := filled.position
    rw [Nat.succ_mul]
    dsimp only
    omega

/-- So many calls return the items of the file from the current one on. -/
theorem calls_itemAt {endian : Endian} (calm : Calm schedule settled)
    (enough : settled + tickSize ≤ fuel) (n : Nat)
    (position : reader.input.position = min (i * tickSize) reader.input.file.length) :
    ∃ reader', reader.calls endian schedule fuel n =
      some ((List.range' i n).map (itemAt endian reader.input.file), reader') := by
  induction n generalizing i reader with
  | zero => exact ⟨reader, rfl⟩
  | succ n ih =>
    obtain ⟨after, first, same, landed⟩ := next_itemAt endian calm enough position
    obtain ⟨last, others⟩ := ih (i := i + 1) (by rw [same]; exact landed)
    refine ⟨last, ?_⟩
    rw [calls, first]
    simp only [Option.bind_eq_bind, Option.bind_some, others, same]
    rfl

theorem collect_itemAt {endian : Endian} (calm : Calm schedule settled)
    (enough : settled + tickSize ≤ fuel) {n : Nat}
    (position : reader.input.position = min (i * tickSize) reader.input.file.length)
    (room : itemCount reader.input.file - i < n) :
    reader.collect endian schedule fuel n =
      some ((List.range' i (itemCount reader.input.file - i)).filterMap
        (itemAt endian reader.input.file)) := by
  induction n generalizing i reader with
  | zero => cases room
  | succ n ih =>
    obtain ⟨after, first, same, landed⟩ := next_itemAt endian calm enough position
    rw [collect, first]
    by_cases inside : i < itemCount reader.input.file
    · obtain ⟨item, value⟩ := exists_itemAt endian inside
      have left : itemCount reader.input.file - i =
          itemCount reader.input.file - (i + 1) + 1 := by omega
      have later := ih (i := i + 1) (by rw [same]; exact landed) (by rw [same]; omega)
      rw [value, left, List.range'_succ, List.filterMap_cons_some value]
      simp only [Option.bind_eq_bind, Option.bind_some, later, same]
      rfl
    · have past := Nat.not_lt.mp (mt lt_itemCount_iff.mpr inside)
      rw [itemAt_end past, Nat.sub_eq_zero_of_le (Nat.not_lt.mp inside)]
      rfl

/-- A loop over a freshly opened reader sees exactly the items of the file. -/
theorem collect_open {endian : Endian} {file : List UInt8} (calm : Calm schedule settled)
    (enough : settled + tickSize ≤ fuel) {n : Nat} (room : itemCount file < n) :
    (TickReader.open file).collect endian schedule fuel n = some (readBack endian file) := by
  have start : (TickReader.open file).input.position = min (0 * tickSize) file.length := by
    rw [Nat.zero_mul, Nat.zero_min]
    rfl
  rw [readBack, List.range_eq_range']
  exact collect_itemAt calm enough start room

end TickReader

/-- Repeated `next` over any file and any reads that interrupt finitely often:
one item for each whole record in file order, one error for a torn tail, and
`None` for ever after. -/
theorem next_reads_every_record (endian : Endian) (file : List UInt8) (schedule : CalmSchedule) :
    ∃ items : Nat → Option (Except Error NormalizedTick),
      (∀ fuel, schedule.settled + tickSize ≤ fuel → ∀ n, ∃ reader,
        (TickReader.open file).calls endian schedule.event fuel n =
          some ((List.range n).map items, reader)) ∧
      (∀ i < file.length / tickSize,
        (InRange (recordFrom file (i * tickSize)) → ∃ tick,
          tick.asBytes endian = recordFrom file (i * tickSize) ∧ items i = some (.ok tick)) ∧
        (¬ InRange (recordFrom file (i * tickSize)) → ∃ e,
          e.kind = .invalidData ∧ items i = some (.error e))) ∧
      (0 < file.length % tickSize → ∃ e,
        e.kind = .unexpectedEof ∧ items (file.length / tickSize) = some (.error e)) ∧
      ∀ i, file.length ≤ i * tickSize → items i = none := by
  refine ⟨itemAt endian file, ?_, ?_, ?_, fun i past => itemAt_end past⟩
  · intro fuel enough n
    rw [List.range_eq_range']
    exact TickReader.calls_itemAt schedule.calm enough n (by rw [Nat.zero_mul, Nat.zero_min]; rfl)
  · intro i inside
    have room : (i + 1) * tickSize ≤ file.length :=
      (Nat.mul_le_mul_right tickSize inside).trans (Nat.div_mul_le_self _ _)
    refine ⟨itemAt_of_inRange endian room, fun corrupt => ?_⟩
    obtain ⟨field, val, value⟩ := itemAt_of_not_inRange endian room corrupt
    exact ⟨_, rfl, value⟩
  · intro torn
    exact ⟨_, rfl, itemAt_torn torn⟩

-- forty bytes a read, the second read interrupted
example : ((TickReader.open ((bidTick 101 1 1).asBytes .little).toList).calls .little
    (fun i => if i = 1 then .failed ⟨.interrupted, ""⟩ else .ready 40) 20 2).map Prod.fst =
      some [some (.ok (bidTick 101 1 1)), none] := by
  decide +kernel

end FeedHandler
