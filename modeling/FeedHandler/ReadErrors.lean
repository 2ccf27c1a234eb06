import FeedHandler.CaptureFile

namespace FeedHandler

open ByteOrder ByteStream

/-- From `start` on, the ticks are the decodings of records of the file at
offsets that meet `place`, in order and without overlap. -/
inductive Framed (endian : Endian) (file : List UInt8) (place : Nat → Prop) :
    Nat → List NormalizedTick → Prop
  | done (start : Nat) : Framed endian file place start []
  | next {start offset : Nat} {tick : NormalizedTick} {rest : List NormalizedTick}
      (behind : start ≤ offset) (placed : place offset) (inside : offset + tickSize ≤ file.length)
      (decoded : readUnaligned endian (recordFrom file offset) = some tick)
      (later : Framed endian file place (offset + tickSize) rest) :
      Framed endian file place start (tick :: rest)

/-- The file position before read `i`, for a reader that keeps to the record
boundaries. -/
def boundaryPosition (schedule : Nat → Event) (file : List UInt8) : Nat → Nat
  | 0 => 0
  | i + 1 =>
    let position := boundaryPosition schedule file i
    match schedule i with
    | .ready n =>
      position + min (min (tickSize - position % tickSize) (max 1 n)) (file.length - position)
    | .failed _ => position

/-- A read fails other than by interruption only between two records, or when
the whole file has been read. -/
def ErrorsAtBoundaries (schedule : Nat → Event) (file : List UInt8) : Prop :=
  ∀ i e, schedule i = .failed e → e.kind ≠ .interrupted →
    boundaryPosition schedule file i % tickSize = 0 ∨
      file.length ≤ boundaryPosition schedule file i

section Filling

variable {endian : Endian} {schedule : Nat → Event} {file : List UInt8} {fuel got : Nat}
  {buf : Vector UInt8 tickSize} {input input' : Source}
  {result : Except Error (Vector UInt8 tickSize × Nat)}

theorem fill_source (run : fill schedule fuel buf got input = some (result, input')) :
    input'.file = input.file ∧ input.position ≤ input'.position := by
  induction fuel generalizing buf got input with
  | zero => cases run
  | succ fuel ih =>
    rw [fill] at run
    cases event : schedule input.reads with
    | ready n =>
      simp only [Source.read, event] at run
      split at run
      · cases run
        exact ⟨rfl, Nat.le_add_right _ _⟩
      · split at run
        · cases run
          exact ⟨rfl, Nat.le_add_right _ _⟩
        · obtain ⟨same, further⟩ := ih run
          exact ⟨same, (Nat.le_add_right _ _).trans further⟩
    | failed e =>
      simp only [Source.read_failed event] at run
      split at run
      · have later := ih run
        exact later
      · cases run
        exact ⟨rfl, Nat.le_refl _⟩

/-- The reader is where a reader that keeps to the boundaries would be. -/
structure OnTrack (schedule : Nat → Event) (file : List UInt8) (input : Source) : Prop where
  content : input.file = file
  position : input.position = boundaryPosition schedule file input.reads

/-- What a read delivers to a reader on track, as the boundary position counts it. -/
theorem OnTrack.ready {n : Nat} (track : OnTrack schedule file input)
    (event : schedule input.reads = .ready n)
    (place : input.position % tickSize = got ∨ file.length ≤ input.position) :
    boundaryPosition schedule file (input.reads + 1) =
      input.position + min (min (tickSize - got) (max 1 n)) (file.length - input.position) := by
  simp only [boundaryPosition, event, ← track.position]
  rcases place with aligned | ended
  · rw [aligned]
  · rw [Nat.sub_eq_zero_of_le ended, Nat.min_zero, Nat.min_zero]

theorem OnTrack.failed {e : Error} (track : OnTrack schedule file input)
    (event : schedule input.reads = .failed e) :
    boundaryPosition schedule file (input.reads + 1) = input.position := by
  simp only [boundaryPosition, event, track.position]

/-- While errors keep to the boundaries, a call that starts at a boundary or at
the end of the file leaves the reader at one. -/
theorem fill_onTrack (boundary : ErrorsAtBoundaries schedule file)
    (run : fill schedule fuel buf got input = some (result, input'))
    (track : OnTrack schedule file input) (room : got < tickSize)
    (place : input.position % tickSize = got ∨ file.length ≤ input.position) :
    OnTrack schedule file input' ∧
      (input'.position % tickSize = 0 ∨ file.length ≤ input'.position) := by
  induction fuel generalizing buf got input with
  | zero => cases run
  | succ fuel ih =>
    have whole : tickSize = 64 := rfl
    have landed := track.position
    have content := track.content
    rw [fill] at run
    cases event : schedule input.reads with
    | ready n =>
      have length : ((input.file.drop input.position).take
          (min (tickSize - got) (max 1 n))).length =
            min (min (tickSize - got) (max 1 n)) (file.length - input.position) := by
        rw [List.length_take, List.length_drop, content]
      have next := track.ready event place
      simp only [Source.read, event, length] at run
      split at run
      · rename_i empty
        cases run
        exact ⟨⟨content, next.symm⟩, Or.inr (by dsimp only; omega)⟩
      · simp only [whole] at place room run next
        split at run
        · rename_i full
          cases run
          exact ⟨⟨content, next.symm⟩, by simp only [whole]; omega⟩
        · exact ih run ⟨content, next.symm⟩ (by simp only [whole]; omega)
            (by simp only [whole]; omega)
    | failed e =>
      have next := track.failed event
      simp only [Source.read_failed event] at run
      split at run
      · exact ih run ⟨content, next.symm⟩ room place
      · rename_i hard
        cases run
        refine ⟨⟨content, next.symm⟩, ?_⟩
        rw [landed]
        exact boundary _ e event hard

theorem settle_ok {tick : NormalizedTick} (item : settle endian buf got = some (some (.ok tick))) :
    got = tickSize ∧ readUnaligned endian buf = some tick := by
  unfold settle at item
  split at item
  · cases item
  · split at item
    · cases item
    · rename_i whole
      split at item
      · cases item
      · obtain ⟨value, read, same⟩ := Option.map_eq_some_iff.mp item
        cases same
        exact ⟨not_not.mp whole, read⟩

end Filling

namespace TickReader

variable {endian : Endian} {schedule : Nat → Event} {fuel : Nat} {reader reader' : TickReader}
  {item : Option (Except Error NormalizedTick)}

/-- What one call does, whatever the reads do: a tick it returns is the record
that starts where the reader stood. -/
theorem next_cases (run : reader.next endian schedule fuel = some (item, reader')) :
    reader'.input.file = reader.input.file ∧ reader.input.position ≤ reader'.input.position ∧
      ∀ tick, item = some (.ok tick) →
        readUnaligned endian (recordFrom reader.input.file reader.input.position) = some tick ∧
        reader.input.position + tickSize ≤ reader.input.file.length ∧
        reader'.input.position = reader.input.position + tickSize := by
  obtain ⟨⟨result, input⟩, filling, rest⟩ := Option.bind_eq_some_iff.mp run
  obtain ⟨same, further⟩ := fill_source filling
  cases result with
  | error e =>
    cases rest
    exact ⟨same, further, fun tick ok => nomatch ok⟩
  | ok answer =>
    obtain ⟨buf, got⟩ := answer
    obtain ⟨settled, settles, value⟩ := Option.bind_eq_some_iff.mp rest
    cases value
    refine ⟨same, further, fun tick ok => ?_⟩
    subst ok
    obtain ⟨full, read⟩ := settle_ok settles
    obtain ⟨filled, _, _⟩ := fill_filled filling (Filled.none rfl) (by decide)
    subst full
    have bound := filled.length_le
    have content := filled.content
    have positive : 0 < tickSize := by decide
    have inside : reader.input.position + tickSize ≤ reader.input.file.length := by
      rw [same] at bound
      omega
    rw [same, List.take_of_length_le Vector.length_toList.le] at content
    rw [Vector.toList_inj.mp (content.trans (toList_recordFrom inside).symm)] at read
    exact ⟨read, inside, filled.position⟩

theorem next_onTrack {file : List UInt8} (boundary : ErrorsAtBoundaries schedule file)
    (run : reader.next endian schedule fuel = some (item, reader'))
    (track : OnTrack schedule file reader.input)
    (place : reader.input.position % tickSize = 0 ∨ file.length ≤ reader.input.position) :
    OnTrack schedule file reader'.input ∧
      (reader'.input.position % tickSize = 0 ∨ file.length ≤ reader'.input.position) := by
  obtain ⟨⟨result, input⟩, filling, rest⟩ := Option.bind_eq_some_iff.mp run
  have landed := fill_onTrack boundary filling track (by decide) place
  cases result with
  | error e =>
    cases rest
    exact landed
  | ok answer =>
    obtain ⟨settled, settles, value⟩ := Option.bind_eq_some_iff.mp rest
    cases value
    exact landed

end TickReader

section Runs

variable {endian : Endian} {schedule : Nat → Event} {fuel n start start' : Nat} {place : Nat → Prop}
  {reader reader' : TickReader}

theorem Framed.earlier {file : List UInt8} {ticks : List NormalizedTick}
    (framed : Framed endian file place start' ticks) (before : start ≤ start') :
    Framed endian file place start ticks := by
  cases framed with
  | done => exact .done start
  | next behind placed inside decoded later =>
    exact .next (before.trans behind) placed inside decoded later

/-- The run lemma for any invariant that says where the ticks start. -/
theorem calls_framed (file : List UInt8) (good : TickReader → Prop)
    {items : List (Option (Except Error NormalizedTick))}
    (keeps : ∀ reader item reader', good reader → reader.input.file = file →
      reader.next endian schedule fuel = some (item, reader') →
        good reader' ∧ ∀ tick, item = some (.ok tick) → place reader.input.position)
    (starts : good reader) (content : reader.input.file = file)
    (run : reader.calls endian schedule fuel n = some (items, reader')) :
    Framed endian file place reader.input.position (okTicks items.reduceOption) := by
  induction n generalizing reader items with
  | zero =>
    cases run
    exact .done _
  | succ n ih =>
    obtain ⟨⟨item, middle⟩, first, rest⟩ := Option.bind_eq_some_iff.mp run
    obtain ⟨⟨later, last⟩, others, value⟩ := Option.bind_eq_some_iff.mp rest
    cases value
    obtain ⟨same, further, tells⟩ := TickReader.next_cases first
    obtain ⟨kept, placed⟩ := keeps reader item middle starts content first
    have framed := ih kept (same.trans content) others
    match item with
    | none => exact framed.earlier further
    | some (.error e) => exact framed.earlier further
    | some (.ok tick) =>
      obtain ⟨decoded, inside, landed⟩ := tells tick rfl
      rw [landed] at framed
      exact .next le_rfl (placed tick rfl) (content ▸ inside) (content ▸ decoded) framed

end Runs

/-- Whatever the reads do, the ticks come from windows that never overlap. -/
theorem ticks_never_overlap {endian : Endian} {file : List UInt8} {schedule : Nat → Event}
    {fuel n : Nat} {items : List (Option (Except Error NormalizedTick))} {reader : TickReader}
    (run : (TickReader.open file).calls endian schedule fuel n = some (items, reader)) :
    Framed endian file (fun _ => True) 0 (okTicks items.reduceOption) :=
  calls_framed file (fun _ => True) (fun _ _ _ _ _ _ => ⟨trivial, fun _ _ => trivial⟩) trivial rfl run

/-- In every run whose hard errors strike at record boundaries, every tick is
the decoding of a record in its place, and no two share a byte. -/
theorem boundary_errors_keep_framing (endian : Endian) (file : List UInt8) (schedule : Nat → Event)
    (boundary : ErrorsAtBoundaries schedule file) (fuel n : Nat)
    (items : List (Option (Except Error NormalizedTick))) (reader : TickReader)
    (run : (TickReader.open file).calls endian schedule fuel n = some (items, reader)) :
    Framed endian file (tickSize ∣ ·) 0 (okTicks items.reduceOption) := by
  refine calls_framed file (fun reader => OnTrack schedule file reader.input ∧
    (reader.input.position % tickSize = 0 ∨ file.length ≤ reader.input.position))
    (fun reader item reader' good content step => ?_) ⟨⟨rfl, rfl⟩, Or.inl rfl⟩ rfl run
  refine ⟨TickReader.next_onTrack boundary step good.1 good.2, fun tick ok => ?_⟩
  obtain ⟨_, _, tells⟩ := TickReader.next_cases step
  obtain ⟨_, inside, _⟩ := tells tick ok
  have positive : 0 < tickSize := by decide
  rw [content] at inside
  exact Nat.dvd_of_mod_eq_zero (good.2.resolve_right (by omega))

/-- Two records and a read error after so many of their bytes. -/
def twoRecords : List UInt8 :=
  ((bidTick 100 1 1).asBytes .little).toList ++ ((bidTick 101 1 2).asBytes .little).toList

def failsAfter (bytes : Nat) : Nat → Event
  | 0 => .ready bytes
  | 1 => .failed ⟨.other, "I/O error"⟩
  | _ => .ready 64

theorem error_between_records_keeps_framing :
    Framed .little twoRecords (tickSize ∣ ·) 0
      (okTicks [some (.ok (bidTick 100 1 1)), some (.error ⟨.other, "I/O error"⟩),
        some (.ok (bidTick 101 1 2))].reduceOption) :=
  boundary_errors_keep_framing .little twoRecords (failsAfter 64)
    (fun i e failed _ => by
      match i with
      | 0 => cases failed
      | 1 => exact Or.inl (by decide +kernel)
      | i + 2 => cases failed)
    2 3 _ ⟨⟨twoRecords, 128, 3⟩⟩ (by decide +kernel)

/-- What the 64 bytes from offset one on read as. -/
def misframedTick : NormalizedTick :=
  .new ⟨72057594037927936⟩ ⟨72057594037927936⟩ 0 0 0 (.fromBytes []) .binance .bid false 1694498816

/-- One byte of the first record is read when the error strikes. The byte is
dropped, and the next tick is put together from two records. -/
theorem error_inside_a_record_misframes :
    ∃ reader, (TickReader.open twoRecords).calls .little (failsAfter 1) 2 2 =
        some ([some (.error ⟨.other, "I/O error"⟩), some (.ok misframedTick)], reader) ∧
      ¬ Framed .little twoRecords (tickSize ∣ ·) 0 [misframedTick] := by
  refine ⟨⟨⟨twoRecords, 65, 3⟩⟩, by decide +kernel, fun framed => ?_⟩
  obtain _ | ⟨behind, placed, inside, decoded, later⟩ := framed
  obtain ⟨k, rfl⟩ := placed
  have length : twoRecords.length = 2 * tickSize := by decide +kernel
  have whole : tickSize = 64 := rfl
  have few : k = 0 ∨ k = 1 := by
    rw [length, whole] at inside
    omega
  rcases few with rfl | rfl
  · exact absurd decoded (by decide +kernel)
  · exact absurd decoded (by decide +kernel)

end FeedHandler
