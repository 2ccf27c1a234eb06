import FeedHandler.OrderBook

namespace FeedHandler

namespace OrderBook

variable {book : OrderBook} {tick : NormalizedTick} {n : UInt64}

def withMismatches (book : OrderBook) (n : UInt64) : OrderBook :=
  { book with symbolMismatches := n }

theorem withMismatches_side (s : Side) : (book.withMismatches n).side s = book.side s := by
  cases s <;> rfl

theorem withMismatches_cleared :
    (book.withMismatches n).cleared tick = (book.cleared tick).withMismatches n := by
  have clears (s : Side) (id : UInt32) : (book.withMismatches n).maybeClearForSnapshot s id =
      (book.maybeClearForSnapshot s id).withMismatches n := by
    cases s with
    | bid =>
      by_cases fresh : id ≠ book.bidsSnapshotId <;>
        simp only [maybeClearForSnapshot, withMismatches, ne_eq, fresh, not_false_eq_true, if_true,
          if_false]
    | ask =>
      by_cases fresh : id ≠ book.asksSnapshotId <;>
        simp only [maybeClearForSnapshot, withMismatches, ne_eq, fresh, not_false_eq_true, if_true,
          if_false]
  unfold OrderBook.cleared
  split
  · exact clears _ _
  · rfl

theorem withMismatches_stamped (result : DeltaResult) :
    (book.withMismatches n).stamped tick result = (book.stamped tick result).withMismatches n := by
  unfold stamped
  split
  · rw [trackSequence_eq, trackSequence_eq]
    rfl
  · rfl

/-- A tick of the book's own symbol neither reads nor writes the mismatch counter. -/
theorem apply_withMismatches (own : tick.symbol = book.symbol) (n : UInt64) :
    (book.withMismatches n).apply tick =
      (book.apply tick).map fun (final, result) => (final.withMismatches n, result) := by
  have own' : tick.symbol = (book.withMismatches n).symbol := own
  rw [apply_own own, apply_own own', withMismatches_cleared, withMismatches_side, Option.map_map]
  refine congrArg (Option.map · _) (funext fun (contents, result) => ?_)
  have moved : ((book.cleared tick).withMismatches n).withSide contents tick.side =
      ((book.cleared tick).withSide contents tick.side).withMismatches n := by
    cases tick.side <;> rfl
  dsimp only [Function.comp_apply]
  rw [moved, withMismatches_stamped]

theorem applyAll_withMismatches {ticks : List NormalizedTick}
    (own : ∀ tick ∈ ticks, tick.symbol = book.symbol) (n : UInt64) :
    (book.withMismatches n).applyAll ticks =
      (book.applyAll ticks).map fun (final, results) => (final.withMismatches n, results) := by
  induction ticks generalizing book with
  | nil => rfl
  | cons tick rest ih =>
    have first := own tick List.mem_cons_self
    rw [applyAll_cons, applyAll_cons, apply_withMismatches first]
    cases run : book.apply tick with
    | none => rfl
    | some answer =>
      obtain ⟨middle, result⟩ := answer
      have symbol := (apply_own_frame first run).1
      have later := @ih middle fun tick member =>
        (own tick (List.mem_cons_of_mem _ member)).trans symbol.symm
      simp only [Option.map_some, Option.bind_some, later, Option.map_map]
      rfl

end OrderBook

/-- The results of a book's own ticks, with the discards of the others put back. -/
def withDiscards (symbol : Symbol) : List NormalizedTick → List DeltaResult → List DeltaResult
  | [], _ => []
  | tick :: rest, results =>
    if tick.symbol = symbol then
      match results with
      | [] => []
      | result :: results => result :: withDiscards symbol rest results
    else .discarded :: withDiscards symbol rest results

/-- Ticks of other symbols are only counted: every other field of the book, and
every result of its own ticks, is as if they had never come, panics included. -/
theorem foreign_ticks_are_only_counted (book : OrderBook) (ticks : List NormalizedTick) :
    book.applyAll ticks =
      (book.applyAll (ticks.filter fun tick => tick.symbol = book.symbol)).map fun run =>
        ({ run.1 with
            symbolMismatches := book.symbolMismatches +
              .ofNat (ticks.countP fun tick => tick.symbol ≠ book.symbol) },
          withDiscards book.symbol ticks run.2) := by
  induction ticks generalizing book with
  | nil =>
    refine congrArg some (Prod.ext ?_ rfl)
    have still : book.symbolMismatches + UInt64.ofNat 0 = book.symbolMismatches :=
      UInt64.add_zero _
    exact (congrArg book.withMismatches still).symm
  | cons tick rest ih =>
    by_cases own : tick.symbol = book.symbol
    · have kept : (tick :: rest).filter (fun tick => tick.symbol = book.symbol) =
          tick :: rest.filter fun tick => tick.symbol = book.symbol :=
        List.filter_cons_of_pos (decide_eq_true own)
      have count : (tick :: rest).countP (fun tick => tick.symbol ≠ book.symbol) =
          rest.countP fun tick => tick.symbol ≠ book.symbol :=
        List.countP_cons_of_neg fun other => of_decide_eq_true other own
      rw [kept, count, OrderBook.applyAll_cons, OrderBook.applyAll_cons]
      cases run : book.apply tick with
      | none => rfl
      | some answer =>
        obtain ⟨middle, result⟩ := answer
        obtain ⟨symbol, mismatches, _⟩ := OrderBook.apply_own_frame own run
        simp only [Option.bind_some, Option.map_map, ih middle, symbol, mismatches]
        refine congrArg (Option.map · _) (funext fun later => ?_)
        simp only [Function.comp_apply, withDiscards, own, if_true]
    · have dropped : (tick :: rest).filter (fun tick => tick.symbol = book.symbol) =
          rest.filter fun tick => tick.symbol = book.symbol :=
        List.filter_cons_of_neg fun same => own (of_decide_eq_true same)
      have count : (tick :: rest).countP (fun tick => tick.symbol ≠ book.symbol) =
          rest.countP (fun tick => tick.symbol ≠ book.symbol) + 1 :=
        List.countP_cons_of_pos (decide_eq_true own)
      have counts : book.symbolMismatches + 1 +
            UInt64.ofNat (rest.countP fun tick => tick.symbol ≠ book.symbol) =
          book.symbolMismatches +
            UInt64.ofNat (rest.countP (fun tick => tick.symbol ≠ book.symbol) + 1) := by
        rw [← ofNat_add_one, UInt64.add_assoc, UInt64.add_comm 1]
      have ownRest : ∀ tick ∈ rest.filter fun tick => tick.symbol = book.symbol,
          tick.symbol = book.symbol := fun tick member =>
        of_decide_eq_true (List.mem_filter.mp member).2
      have later := ih (book.withMismatches (book.symbolMismatches + 1))
      rw [dropped, count, OrderBook.applyAll_cons, OrderBook.apply_foreign own, Option.bind_some]
      have same := OrderBook.applyAll_withMismatches ownRest (book.symbolMismatches + 1)
      refine (congrArg (Option.map _) (later.trans (congrArg (Option.map _) same))).trans ?_
      rw [Option.map_map, Option.map_map]
      refine congrArg (Option.map · _) (funext fun later => ?_)
      simp only [Function.comp_apply, withDiscards, own, if_false]
      exact congrArg (fun n => (later.1.withMismatches n,
        DeltaResult.discarded :: withDiscards book.symbol rest later.2)) counts

end FeedHandler
