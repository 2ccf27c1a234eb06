import FeedHandler.BookQueries
import FeedHandler.SequenceCounters

namespace FeedHandler

section Sides

variable {descending : Bool} {price : Price} {qty : Qty}

theorem Depth.delta_of_noOp (depth : Depth descending)
    (result : depth.outcome price qty = .noOp) : depth.delta price qty = depth := by
  unfold outcome at result
  split at result
  · rename_i zero
    split at result
    · cases result
    · rename_i untracked
      apply ext_map
      rw [zero, delta_map_zero, Finsupp.erase_of_notMem_support untracked]
  · split at result
    · cases result
    · split at result
      · cases result
      · split at result <;> cases result

/-- A delta that does not take effect leaves the depth as it was. -/
theorem Depth.delta_of_idle (depth : Depth descending)
    (idle : (depth.outcome price qty).takes = false) : depth.delta price qty = depth := by
  cases result : depth.outcome price qty with
  | noOp => exact depth.delta_of_noOp result
  | discarded => exact depth.delta_of_discarded result
  | updated | inserted | removed | insertedEvicted =>
    rw [result] at idle
    exact absurd idle (by decide)

theorem Depth.outcome_empty_takes :
    ((empty : Depth descending).outcome price qty).takes = true ↔ qty ≠ 0 := by
  rw [outcome_takes_iff]
  split
  · rename_i zero
    exact iff_of_false (Finset.notMem_empty price) (not_not_intro zero)
  · rename_i live
    exact iff_of_true (Or.inr (Or.inl (show 0 < maxLevels by decide))) live

end Sides

namespace OrderBook

variable {book book' : OrderBook} {tick : NormalizedTick} {result : DeltaResult}

/-- Nothing but the mismatch counter and the stored snapshot ids has moved. -/
structure Unmoved (book' book : OrderBook) : Prop where
  visible : ∀ s, (book'.side s).visible = (book.side s).visible
  clock : SameClock book' book
  checksumFailures : book'.checksumFailures = book.checksumFailures
  symbol : book'.symbol = book.symbol
  exchange : book'.exchange = book.exchange

/-- The answer of `apply` tells the truth about the book. -/
structure Truthful (book : OrderBook) (tick : NormalizedTick) (book' : OrderBook)
    (result : DeltaResult) : Prop where
  unmoved : result = .noOp ∨ result = .discarded → book'.Unmoved book
  dated : (∃ s, (book'.side s).visible ≠ (book.side s).visible) →
    book'.lastUpdateNs = tick.tsRecvNs ∧ book'.sequence = tick.sequence ∧
    ∀ nowNs thresholdNs, book'.isStale nowNs thresholdNs =
      decide (saturatingSub nowNs tick.tsRecvNs > thresholdNs)

/-- The tick opens a snapshot batch on a side that shows levels, and its own
quantity is zero: the clear is the only thing that happens. -/
def ClearsSilently (book : OrderBook) (tick : NormalizedTick) : Prop :=
  tick.symbol = book.symbol ∧ book.startsBatch tick = true ∧ tick.qty = 0 ∧
    (book.side tick.side).visible ≠ []

theorem takes_eq_false : result.takes = false ↔ result = .noOp ∨ result = .discarded := by
  cases result <;> decide

/-- What `apply` never writes. -/
theorem apply_constants (run : book.apply tick = some (book', result)) :
    book'.checksumFailures = book.checksumFailures ∧ book'.exchange = book.exchange := by
  have cleared : (book.cleared tick).checksumFailures = book.checksumFailures ∧
      (book.cleared tick).exchange = book.exchange := by
    unfold OrderBook.cleared maybeClearForSnapshot
    split
    · split <;> split <;> exact ⟨rfl, rfl⟩
    · exact ⟨rfl, rfl⟩
  by_cases own : tick.symbol = book.symbol
  · rw [apply_own own] at run
    obtain ⟨⟨contents, _⟩, _, same⟩ := Option.map_eq_some_iff.mp run
    cases same
    unfold stamped
    split
    · rw [trackSequence_eq]
      cases tick.side <;> exact cleared
    · cases tick.side <;> exact cleared
  · rw [apply_foreign own] at run
    cases run
    exact ⟨rfl, rfl⟩

theorem Applied.side_of_idle {depth : Depth tick.side.descending}
    (applied : Applied book tick depth book' result) (shown : (book.side tick.side).Shows depth)
    (idle : result.takes = false) (s : Side) :
    (book'.side s).visible = ((book.cleared tick).side s).visible := by
  by_cases same : s = tick.side
  · subst same
    have own := applied.own
    rw [Depth.delta_of_idle _ (applied.result_eq ▸ idle)] at own
    exact own.visible_unique (facing_shown shown)
  · rw [applied.other s same, cleared_side_other same]

/-- An idle tick of the book's own symbol moves the levels in one case only. -/
theorem Applied.moves_iff {depth : Depth tick.side.descending}
    (applied : Applied book tick depth book' result) (shown : (book.side tick.side).Shows depth)
    (idle : result.takes = false) :
    (∃ s, (book'.side s).visible ≠ (book.side s).visible) ↔
      book.startsBatch tick = true ∧ (book.side tick.side).visible ≠ [] := by
  have after (s : Side) := applied.side_of_idle shown idle s
  constructor
  · rintro ⟨s, moved⟩
    rw [after] at moved
    by_cases same : s = tick.side
    · subst same
      rw [cleared_side_own] at moved
      by_cases starts : book.startsBatch tick = true
      · rw [if_pos starts, BookSide.visible_clear] at moved
        exact ⟨starts, moved.symm⟩
      · rw [if_neg starts] at moved
        exact absurd rfl moved
    · rw [cleared_side_other same] at moved
      exact absurd rfl moved
  · rintro ⟨starts, levels⟩
    refine ⟨tick.side, ?_⟩
    rw [after, cleared_side_own, if_pos starts, BookSide.visible_clear]
    exact levels.symm

theorem Applied.truthful_of_takes {depth : Depth tick.side.descending}
    (applied : Applied book tick depth book' result) (takes : result.takes = true) :
    Truthful book tick book' result where
  unmoved idle := by
    rw [takes_eq_false.mpr idle] at takes
    exact absurd takes Bool.false_ne_true
  dated _ := by
    have clock := applied.clock
    rw [stamped, if_pos takes, trackSequence_eq] at clock
    refine ⟨clock.lastUpdateNs, clock.sequence, fun nowNs thresholdNs => ?_⟩
    rw [isStale, clock.lastUpdateNs]

theorem truthful_of_unmoved (unmoved : book'.Unmoved book) : Truthful book tick book' result :=
  ⟨fun _ => unmoved, fun ⟨s, moved⟩ => absurd (unmoved.visible s) moved⟩

/-- One call is truthful exactly when it does not clear silently. -/
theorem truthful_iff {depths : (s : Side) → Depth s.descending} (shown : book.Shows depths)
    (tick : NormalizedTick) :
    ∃ book' result, book.apply tick = some (book', result) ∧
      (Truthful book tick book' result ↔ ¬ book.ClearsSilently tick) := by
  by_cases own : tick.symbol = book.symbol
  · obtain ⟨book', result, run, applied⟩ := apply_applied own (shown tick.side)
    refine ⟨book', result, run, ?_⟩
    cases takes : result.takes with
    | true =>
      refine iff_of_true (applied.truthful_of_takes takes) fun ⟨_, starts, zero, _⟩ => ?_
      rw [applied.result_eq, facing, if_pos starts, Depth.outcome_empty_takes] at takes
      exact takes zero
    | false =>
      have moves := applied.moves_iff (shown tick.side) takes
      have zero : book.startsBatch tick = true → tick.qty = 0 := by
        intro starts
        by_contra live
        rw [applied.result_eq, facing, if_pos starts, Depth.outcome_empty_takes.mpr live] at takes
        exact absurd takes.symm Bool.false_ne_true
      constructor
      · rintro truth ⟨_, starts, _, levels⟩
        obtain ⟨s, moved⟩ := moves.mpr ⟨starts, levels⟩
        exact moved ((truth.unmoved (takes_eq_false.mp takes)).visible s)
      · intro loud
        have still : ¬ ∃ s, (book'.side s).visible ≠ (book.side s).visible := fun moved =>
          loud ⟨own, (moves.mp moved).1, zero (moves.mp moved).1, (moves.mp moved).2⟩
        have clock := applied.clock
        rw [stamped, if_neg (by rw [takes]; exact Bool.false_ne_true)] at clock
        have constants := apply_constants run
        exact truthful_of_unmoved ⟨fun s => not_not.mp fun moved => still ⟨s, moved⟩, clock,
          constants.1, applied.symbol, constants.2⟩
  · refine ⟨_, _, apply_foreign own, iff_of_true (truthful_of_unmoved ⟨fun s => ?_,
      ⟨rfl, rfl, rfl, rfl, rfl⟩, rfl, rfl, rfl⟩) fun silent => own silent.1⟩
    cases s <;> rfl

end OrderBook

/-- On every reachable book and for every further tick, the answer is truthful
unless the tick clears a side silently. -/
theorem apply_truthful_iff_not_silent_clear (symbol : Symbol) (exchange : Exchange)
    (ticks : List NormalizedTick) (tick : NormalizedTick) :
    ∃ book results, (OrderBook.new symbol exchange).applyAll ticks = some (book, results) ∧
      ∃ book' result, book.apply tick = some (book', result) ∧
        (book.Truthful tick book' result ↔ ¬ book.ClearsSilently tick) := by
  obtain ⟨book, results, run, depths, shown⟩ :=
    (OrderBook.new_sound symbol exchange).applyAll ticks
  exact ⟨book, results, run, OrderBook.truthful_iff shown tick⟩

/-- The first tick of a snapshot batch, a cancel at that. -/
def cancelOpeningBatch : NormalizedTick :=
  .new ⟨100⟩ 0 2 0 7 (.fromBytes []) .binance .bid true 5

/-- The book loses its only level, answers that nothing happened and keeps the
old stamp. -/
theorem cancel_opening_batch_clears_silently :
    ∃ book results book',
      (OrderBook.new (.fromBytes []) .binance).applyAll [bidTick 100 1 1] = some (book, results) ∧
      book.apply cancelOpeningBatch = some (book', .noOp) ∧
      ¬ book.Truthful cancelOpeningBatch book' .noOp := by
  refine ⟨_, _, _, rfl, rfl, fun truth => ?_⟩
  have lost := (truth.unmoved (Or.inl rfl)).visible .bid
  exact absurd lost (by decide)

end FeedHandler
