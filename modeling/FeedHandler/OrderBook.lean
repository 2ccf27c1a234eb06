import FeedHandler.SideRefinement

namespace FeedHandler

/-- One book. The padding of the source carries no data. -/
structure OrderBook where
  bids : BookSide
  asks : BookSide
  sequence : UInt64
  lastUpdateNs : UInt64
  symbolMismatches : UInt64
  sequenceGaps : UInt64
  sequenceReorders : UInt64
  checksumFailures : UInt64
  bidsSnapshotId : UInt32
  asksSnapshotId : UInt32
  symbol : Symbol
  exchange : Exchange
  sequenceInitialized : Bool
  deriving DecidableEq, Repr

/-- `u32::MAX`, the stored id before any snapshot. -/
def noSnapshot : UInt32 := 0xffffffff

namespace OrderBook

def new (symbol : Symbol) (exchange : Exchange) : OrderBook :=
  { bids := .new, asks := .new, sequence := 0, lastUpdateNs := 0, symbolMismatches := 0,
    sequenceGaps := 0, sequenceReorders := 0, checksumFailures := 0,
    bidsSnapshotId := noSnapshot, asksSnapshotId := noSnapshot, symbol, exchange,
    sequenceInitialized := false }

def trackSequence (book : OrderBook) (seq : UInt64) : OrderBook :=
  let counted :=
    if book.sequenceInitialized then
      if seq > book.sequence then
        if seq ≠ book.sequence + 1 then { book with sequenceGaps := book.sequenceGaps + 1 }
        else book
      else { book with sequenceReorders := book.sequenceReorders + 1 }
    else { book with sequenceInitialized := true }
  { counted with sequence := seq }

def maybeClearForSnapshot (book : OrderBook) (side : Side) (id : UInt32) : OrderBook :=
  match side with
  | .bid =>
    if id ≠ book.bidsSnapshotId then { book with bids := book.bids.clear, bidsSnapshotId := id }
    else book
  | .ask =>
    if id ≠ book.asksSnapshotId then { book with asks := book.asks.clear, asksSnapshotId := id }
    else book

/-- Release semantics: a foreign symbol is counted and discarded. A fault of a
side is a fault of the call. -/
def apply (book : OrderBook) (tick : NormalizedTick) : Option (OrderBook × DeltaResult) :=
  if tick.symbol ≠ book.symbol then
    some ({ book with symbolMismatches := book.symbolMismatches + 1 }, .discarded)
  else do
    let book :=
      if tick.isSnapshot then book.maybeClearForSnapshot tick.side tick.snapshotId else book
    let (book, result) ←
      match tick.side with
      | .bid => (book.bids.applyDelta tick.price tick.qty true).map fun (bids, result) =>
        ({ book with bids }, result)
      | .ask => (book.asks.applyDelta tick.price tick.qty false).map fun (asks, result) =>
        ({ book with asks }, result)
    if result ≠ .noOp ∧ result ≠ .discarded then
      return ({ book.trackSequence tick.sequence with lastUpdateNs := tick.tsRecvNs }, result)
    else
      return (book, result)

/-- The ticks in order, with every result. -/
def applyAll (book : OrderBook) : List NormalizedTick → Option (OrderBook × List DeltaResult)
  | [] => some (book, [])
  | tick :: rest => do
    let (book, result) ← book.apply tick
    let (book, results) ← book.applyAll rest
    return (book, result :: results)

end OrderBook

/-- The flag `apply` passes for each side. -/
def Side.descending : Side → Bool
  | .bid => true
  | .ask => false

def OrderBook.side (book : OrderBook) : Side → BookSide
  | .bid => book.bids
  | .ask => book.asks

def OrderBook.snapshotId (book : OrderBook) : Side → UInt32
  | .bid => book.bidsSnapshotId
  | .ask => book.asksSnapshotId

def OrderBook.withSide (book : OrderBook) (contents : BookSide) : Side → OrderBook
  | .bid => { book with bids := contents }
  | .ask => { book with asks := contents }

/-- The tick is the first of a new snapshot batch, as the book sees it. -/
def OrderBook.startsBatch (book : OrderBook) (tick : NormalizedTick) : Bool :=
  tick.isSnapshot && tick.snapshotId != book.snapshotId tick.side

/-- The book after the snapshot clear and before the delta. -/
def OrderBook.cleared (book : OrderBook) (tick : NormalizedTick) : OrderBook :=
  if tick.isSnapshot then book.maybeClearForSnapshot tick.side tick.snapshotId else book

/-- The results after which the book is stamped. -/
def DeltaResult.takes (result : DeltaResult) : Bool :=
  result ≠ .noOp ∧ result ≠ .discarded

def OrderBook.stamped (book : OrderBook) (tick : NormalizedTick) (result : DeltaResult) :
    OrderBook :=
  if result.takes then
    { book.trackSequence tick.sequence with lastUpdateNs := tick.tsRecvNs }
  else book

namespace OrderBook

variable {book : OrderBook} {tick : NormalizedTick}

theorem apply_foreign (foreign : tick.symbol ≠ book.symbol) :
    book.apply tick =
      some ({ book with symbolMismatches := book.symbolMismatches + 1 }, .discarded) :=
  if_pos foreign

/-- `apply` for the book's own symbol: clear, delta on the one side, stamp. -/
theorem apply_own (own : tick.symbol = book.symbol) :
    book.apply tick =
      (((book.cleared tick).side tick.side).applyDelta tick.price tick.qty
        tick.side.descending).map fun (contents, result) =>
          (((book.cleared tick).withSide contents tick.side).stamped tick result, result) := by
  unfold apply cleared
  rw [if_neg (not_not_intro own)]
  cases tick.side <;>
    simp only [side, withSide, Side.descending, Option.bind_eq_bind, Option.pure_def,
      Option.bind_map, stamped, DeltaResult.takes, decide_eq_true_eq] <;>
    cases BookSide.applyDelta _ tick.price tick.qty _ with
    | none => rfl
    | some answer =>
      simp only [Option.bind_some, Option.map_some, Function.comp_apply]
      split <;> rfl

/-- The tracker as one record update. -/
theorem trackSequence_eq (book : OrderBook) (seq : UInt64) :
    book.trackSequence seq =
      { book with
        sequence := seq
        sequenceGaps :=
          if book.sequenceInitialized ∧ seq > book.sequence ∧ seq ≠ book.sequence + 1 then
            book.sequenceGaps + 1
          else book.sequenceGaps
        sequenceReorders :=
          if book.sequenceInitialized ∧ ¬ seq > book.sequence then book.sequenceReorders + 1
          else book.sequenceReorders
        sequenceInitialized := true } := by
  cases book
  simp only [trackSequence]
  split
  · split
    · split <;> simp [*]
    · simp [*]
  · simp [*]

/-- Two books that differ at most in their sides, their snapshot ids and the
mismatch counter. -/
structure SameClock (book other : OrderBook) : Prop where
  sequence : book.sequence = other.sequence
  sequenceGaps : book.sequenceGaps = other.sequenceGaps
  sequenceReorders : book.sequenceReorders = other.sequenceReorders
  sequenceInitialized : book.sequenceInitialized = other.sequenceInitialized
  lastUpdateNs : book.lastUpdateNs = other.lastUpdateNs

theorem SameClock.trans {other third : OrderBook} (first : SameClock book other)
    (second : SameClock other third) : SameClock book third :=
  ⟨first.sequence.trans second.sequence, first.sequenceGaps.trans second.sequenceGaps,
    first.sequenceReorders.trans second.sequenceReorders,
    first.sequenceInitialized.trans second.sequenceInitialized,
    first.lastUpdateNs.trans second.lastUpdateNs⟩

theorem SameClock.stamped {other : OrderBook} (same : SameClock book other) (tick : NormalizedTick)
    (result : DeltaResult) : SameClock (book.stamped tick result) (other.stamped tick result) := by
  unfold OrderBook.stamped
  split
  · rw [trackSequence_eq, trackSequence_eq]
    constructor <;>
      simp only [same.sequence, same.sequenceGaps, same.sequenceReorders, same.sequenceInitialized]
  · exact same

/-- Everything the tracker and the stamp leave alone. -/
structure SameContents (book other : OrderBook) : Prop where
  side : ∀ s, book.side s = other.side s
  snapshotId : ∀ s, book.snapshotId s = other.snapshotId s
  symbol : book.symbol = other.symbol
  symbolMismatches : book.symbolMismatches = other.symbolMismatches

theorem stamped_contents (book : OrderBook) (tick : NormalizedTick) (result : DeltaResult) :
    SameContents (book.stamped tick result) book := by
  unfold stamped
  split
  · rw [trackSequence_eq]
    exact ⟨fun s => by cases s <;> rfl, fun s => by cases s <;> rfl, rfl, rfl⟩
  · exact ⟨fun _ => rfl, fun _ => rfl, rfl, rfl⟩

section WithSide

variable (contents : BookSide) (s : Side)

theorem withSide_side : (book.withSide contents s).side s = contents := by
  cases s <;> rfl

theorem withSide_side_other {s t : Side} (other : t ≠ s) :
    (book.withSide contents s).side t = book.side t := by
  cases s <;> cases t <;> first | rfl | exact absurd rfl other

theorem withSide_snapshotId (t : Side) :
    (book.withSide contents s).snapshotId t = book.snapshotId t := by
  cases s <;> cases t <;> rfl

theorem withSide_symbol : (book.withSide contents s).symbol = book.symbol := by
  cases s <;> rfl

theorem withSide_symbolMismatches :
    (book.withSide contents s).symbolMismatches = book.symbolMismatches := by
  cases s <;> rfl

theorem withSide_clock : SameClock (book.withSide contents s) book := by
  cases s <;> exact ⟨rfl, rfl, rfl, rfl, rfl⟩

end WithSide

section Clearing

theorem cleared_side_own :
    (book.cleared tick).side tick.side =
      if book.startsBatch tick then (book.side tick.side).clear else book.side tick.side := by
  cases flag : tick.isSnapshot <;> cases facing : tick.side <;>
    simp only [cleared, startsBatch, flag, facing, maybeClearForSnapshot, side, snapshotId,
      Bool.false_eq_true, if_false, if_true, Bool.true_and, Bool.false_and, bne_iff_ne] <;>
    split <;> rfl

theorem cleared_side_other {s : Side} (other : s ≠ tick.side) :
    (book.cleared tick).side s = book.side s := by
  cases flag : tick.isSnapshot <;> cases facing : tick.side <;> cases s <;>
    simp only [cleared, flag, facing, maybeClearForSnapshot, side, ne_eq, not_true_eq_false,
      Bool.false_eq_true, if_false, if_true] at other ⊢ <;>
    split <;> rfl

theorem cleared_snapshotId (s : Side) :
    (book.cleared tick).snapshotId s =
      if s = tick.side ∧ tick.isSnapshot = true then tick.snapshotId else book.snapshotId s := by
  cases flag : tick.isSnapshot <;> cases facing : tick.side <;> cases s <;>
    simp [cleared, flag, facing, maybeClearForSnapshot, snapshotId] <;>
    split <;> simp_all

theorem cleared_clock : SameClock (book.cleared tick) book := by
  unfold cleared maybeClearForSnapshot
  split
  · split <;> split <;> exact ⟨rfl, rfl, rfl, rfl, rfl⟩
  · exact ⟨rfl, rfl, rfl, rfl, rfl⟩

theorem cleared_symbol : (book.cleared tick).symbol = book.symbol := by
  unfold cleared maybeClearForSnapshot
  split
  · split <;> split <;> rfl
  · rfl

theorem cleared_symbolMismatches :
    (book.cleared tick).symbolMismatches = book.symbolMismatches := by
  unfold cleared maybeClearForSnapshot
  split
  · split <;> split <;> rfl
  · rfl

end Clearing

/-- What a tick of the book's own symbol does outside the sides, on any book. -/
theorem apply_own_frame (own : tick.symbol = book.symbol) {final : OrderBook}
    {result : DeltaResult} (run : book.apply tick = some (final, result)) :
    final.symbol = book.symbol ∧ final.symbolMismatches = book.symbolMismatches ∧
      SameClock final (book.stamped tick result) := by
  rw [apply_own own, Option.map_eq_some_iff] at run
  obtain ⟨⟨contents, answer⟩, _, same⟩ := run
  obtain ⟨rfl, rfl⟩ := Prod.mk.inj same
  have stamp := stamped_contents ((book.cleared tick).withSide contents tick.side) tick answer
  refine ⟨stamp.symbol.trans ?_, stamp.symbolMismatches.trans ?_,
    ((withSide_clock _ _).trans cleared_clock).stamped tick answer⟩
  · rw [withSide_symbol, cleared_symbol]
  · rw [withSide_symbolMismatches, cleared_symbolMismatches]

/-- The book holds, on each side, exactly the listing of that side's depth. -/
def Shows (book : OrderBook) (depths : (s : Side) → Depth s.descending) : Prop :=
  ∀ s, (book.side s).Shows (depths s)

/-- The depth that the delta of this tick meets: empty at a batch start. -/
def facing (book : OrderBook) (tick : NormalizedTick) (depth : Depth tick.side.descending) :
    Depth tick.side.descending :=
  if book.startsBatch tick then .empty else depth

/-- Everything one tick of the book's own symbol does. -/
structure Applied (book : OrderBook) (tick : NormalizedTick) (depth : Depth tick.side.descending)
    (book' : OrderBook) (result : DeltaResult) : Prop where
  result_eq : result = (book.facing tick depth).outcome tick.price tick.qty
  own : (book'.side tick.side).Shows ((book.facing tick depth).delta tick.price tick.qty)
  other : ∀ s, s ≠ tick.side → book'.side s = book.side s
  snapshotId : ∀ s, book'.snapshotId s =
    if s = tick.side ∧ tick.isSnapshot = true then tick.snapshotId else book.snapshotId s
  symbol : book'.symbol = book.symbol
  symbolMismatches : book'.symbolMismatches = book.symbolMismatches
  clock : SameClock book' (book.stamped tick result)

theorem facing_shown {depth : Depth tick.side.descending}
    (shown : (book.side tick.side).Shows depth) :
    ((book.cleared tick).side tick.side).Shows (book.facing tick depth) := by
  rw [cleared_side_own, facing]
  split
  · exact .clear _
  · exact shown

theorem apply_applied (own : tick.symbol = book.symbol) {depth : Depth tick.side.descending}
    (shown : (book.side tick.side).Shows depth) :
    ∃ book' result, book.apply tick = some (book', result) ∧
      Applied book tick depth book' result := by
  obtain ⟨contents, run, shown'⟩ := (facing_shown shown).applyDelta tick.price tick.qty
  have stamp := stamped_contents ((book.cleared tick).withSide contents tick.side) tick
    ((book.facing tick depth).outcome tick.price tick.qty)
  refine ⟨_, _, by rw [apply_own own, run]; rfl, rfl, ?_, fun s different => ?_, fun s => ?_,
    ?_, ?_, (withSide_clock _ _ |>.trans cleared_clock).stamped tick _⟩
  · rwa [stamp.side, withSide_side]
  · rw [stamp.side, withSide_side_other _ different, cleared_side_other different]
  · rw [stamp.snapshotId, withSide_snapshotId, cleared_snapshotId]
  · rw [stamp.symbol, withSide_symbol, cleared_symbol]
  · rw [stamp.symbolMismatches, withSide_symbolMismatches, cleared_symbolMismatches]

theorem Applied.shows {depths : (s : Side) → Depth s.descending} {book' : OrderBook}
    {result : DeltaResult} (applied : Applied book tick (depths tick.side) book' result)
    (shown : book.Shows depths) :
    book'.Shows (Function.update depths tick.side
      ((book.facing tick (depths tick.side)).delta tick.price tick.qty)) := by
  intro s
  by_cases same : s = tick.side
  · subst same
    rw [Function.update_self]
    exact applied.own
  · rw [Function.update_of_ne same, applied.other s same]
    exact shown s

/-- Both sides hold a sorted listing, in bounds. `apply` faults on no such book. -/
def Sound (book : OrderBook) : Prop := ∃ depths, book.Shows depths

theorem Sound.apply (sound : book.Sound) (tick : NormalizedTick) :
    ∃ book' result, book.apply tick = some (book', result) ∧ book'.Sound := by
  obtain ⟨depths, shown⟩ := sound
  by_cases own : tick.symbol = book.symbol
  · obtain ⟨book', result, run, applied⟩ := apply_applied own (shown tick.side)
    exact ⟨book', result, run, _, applied.shows shown⟩
  · refine ⟨_, _, apply_foreign own, depths, fun s => ?_⟩
    have same := shown s
    cases s <;> exact same

theorem applyAll_cons (book : OrderBook) (tick : NormalizedTick) (rest : List NormalizedTick) :
    book.applyAll (tick :: rest) = (book.apply tick).bind fun (middle, result) =>
      (middle.applyAll rest).map fun (final, results) => (final, result :: results) := by
  simp only [applyAll, Option.bind_eq_bind, Option.pure_def, Option.map_eq_bind]
  rfl

theorem applyAll_append (book : OrderBook) (first second : List NormalizedTick) :
    book.applyAll (first ++ second) =
      (book.applyAll first).bind fun (middle, early) =>
        (middle.applyAll second).map fun (final, late) => (final, early ++ late) := by
  induction first generalizing book with
  | nil => simp only [List.nil_append, applyAll, Option.bind_some, Prod.mk.eta, Option.map_id']
  | cons tick first ih =>
    simp only [List.cons_append, applyAll, ih, Option.bind_eq_bind, Option.pure_def,
      Option.bind_assoc]
    congr 1
    funext answer
    cases answer.1.applyAll first with
    | none => rfl
    | some middle =>
      simp only [Option.bind_some]
      cases middle.1.applyAll second <;> rfl

theorem new_shows (symbol : Symbol) (exchange : Exchange) :
    (new symbol exchange).Shows fun _ => .empty := by
  intro s
  cases s <;> exact .new

theorem applyAll_concat (book : OrderBook) (ticks : List NormalizedTick) (tick : NormalizedTick) :
    book.applyAll (ticks ++ [tick]) =
      (book.applyAll ticks).bind fun (middle, results) =>
        (middle.apply tick).map fun (final, result) => (final, results ++ [result]) := by
  rw [applyAll_append]
  congr 1
  funext answer
  simp only [applyAll, Option.bind_eq_bind, Option.pure_def, Option.bind_some]
  cases answer.1.apply tick <;> rfl

theorem Sound.applyAll (sound : book.Sound) (ticks : List NormalizedTick) :
    ∃ book' results, book.applyAll ticks = some (book', results) ∧ book'.Sound := by
  induction ticks using List.reverseRecOn with
  | nil => exact ⟨book, [], rfl, sound⟩
  | append_singleton ticks tick ih =>
    obtain ⟨middle, results, run, sound⟩ := ih
    obtain ⟨final, result, step, sound⟩ := sound.apply tick
    refine ⟨final, results ++ [result], ?_, sound⟩
    simp only [applyAll_concat, run, Option.bind_some, step, Option.map_some]

theorem new_sound (symbol : Symbol) (exchange : Exchange) : (new symbol exchange).Sound :=
  ⟨_, new_shows symbol exchange⟩

end OrderBook

end FeedHandler
