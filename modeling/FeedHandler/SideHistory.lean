import FeedHandler.OrderBook

namespace FeedHandler

/-- The ticks that reach one side of the book: its symbol and that side. -/
def reaches (symbol : Symbol) (s : Side) (tick : NormalizedTick) : Bool :=
  tick.symbol = symbol ∧ tick.side = s

def ownTicks (symbol : Symbol) (s : Side) (ticks : List NormalizedTick) : List NormalizedTick :=
  ticks.filter (reaches symbol s)

def ownResults (symbol : Symbol) (s : Side) (ticks : List NormalizedTick)
    (results : List DeltaResult) : List DeltaResult :=
  ((ticks.zip results).filter fun pair => reaches symbol s pair.1).map Prod.snd

/-- The id of the last snapshot tick, `u32::MAX` if there is none. -/
def previousSnapshotId (ticks : List NormalizedTick) : UInt32 :=
  ((ticks.filter NormalizedTick.isSnapshot).getLast?.map NormalizedTick.snapshotId).getD noSnapshot

/-- A snapshot tick whose id differs from the id of the previous snapshot tick. -/
def isBatchStart (ticks : List NormalizedTick) (i : Nat) : Bool :=
  match ticks[i]? with
  | some tick => tick.isSnapshot && tick.snapshotId != previousSnapshotId (ticks.take i)
  | none => false

/-- Where the last batch starts, zero if there is none. -/
def batchFrom (ticks : List NormalizedTick) : Nat :=
  ((List.range ticks.length).filter (isBatchStart ticks)).getLast?.getD 0

def NormalizedTick.delta (tick : NormalizedTick) : Price × Qty := (tick.price, tick.qty)

/-- The deltas from the last batch start on. -/
def batchDeltas (ticks : List NormalizedTick) : List (Price × Qty) :=
  (ticks.drop (batchFrom ticks)).map NormalizedTick.delta

section Batches

variable {ticks : List NormalizedTick} {tick : NormalizedTick}

theorem previousSnapshotId_concat :
    previousSnapshotId (ticks ++ [tick]) =
      if tick.isSnapshot then tick.snapshotId else previousSnapshotId ticks := by
  unfold previousSnapshotId
  rw [List.filter_append]
  cases flag : tick.isSnapshot <;> simp [flag]

theorem isBatchStart_concat_before {i : Nat} (before : i < ticks.length) :
    isBatchStart (ticks ++ [tick]) i = isBatchStart ticks i := by
  unfold isBatchStart
  rw [List.getElem?_append_left before, List.take_append_of_le_length before.le]

theorem isBatchStart_concat_last :
    isBatchStart (ticks ++ [tick]) ticks.length =
      (tick.isSnapshot && tick.snapshotId != previousSnapshotId ticks) := by
  unfold isBatchStart
  simp only [List.getElem?_concat_length, List.take_left]

theorem batchFrom_concat :
    batchFrom (ticks ++ [tick]) =
      if tick.isSnapshot && tick.snapshotId != previousSnapshotId ticks then ticks.length
      else batchFrom ticks := by
  have earlier : (List.range ticks.length).filter (isBatchStart (ticks ++ [tick])) =
      (List.range ticks.length).filter (isBatchStart ticks) :=
    List.filter_congr fun i inside => isBatchStart_concat_before (List.mem_range.mp inside)
  unfold batchFrom
  rw [List.length_append, List.length_singleton, List.range_succ, List.filter_append, earlier,
    List.filter_singleton, isBatchStart_concat_last, Bool.cond_eq_ite]
  split
  · rw [List.getLast?_concat]
    rfl
  · rw [List.append_nil]

theorem batchFrom_le : batchFrom ticks ≤ ticks.length := by
  induction ticks using List.reverseRecOn with
  | nil => exact Nat.le_refl 0
  | append_singleton ticks tick ih =>
    rw [batchFrom_concat, List.length_append]
    split <;> omega

theorem batchDeltas_concat :
    batchDeltas (ticks ++ [tick]) =
      (if tick.isSnapshot && tick.snapshotId != previousSnapshotId ticks then []
        else batchDeltas ticks) ++ [tick.delta] := by
  unfold batchDeltas
  rw [batchFrom_concat]
  split
  · rw [List.drop_left]
    rfl
  · rw [List.drop_append_of_le_length batchFrom_le, List.map_append]
    rfl

end Batches

section Projections

variable {symbol : Symbol} {s : Side} {ticks : List NormalizedTick} {results : List DeltaResult}
  {tick : NormalizedTick} {result : DeltaResult}

theorem ownTicks_concat :
    ownTicks symbol s (ticks ++ [tick]) =
      ownTicks symbol s ticks ++ if reaches symbol s tick then [tick] else [] := by
  rw [ownTicks, List.filter_append, List.filter_singleton, Bool.cond_eq_ite]
  rfl

theorem ownResults_concat (length : results.length = ticks.length) :
    ownResults symbol s (ticks ++ [tick]) (results ++ [result]) =
      ownResults symbol s ticks results ++ if reaches symbol s tick then [result] else [] := by
  rw [ownResults, List.zip_append length.symm, List.filter_append, List.map_append]
  congr 1
  cases here : reaches symbol s tick <;> simp [here]

theorem length_ownResults (length : results.length = ticks.length) :
    (ownResults symbol s ticks results).length = (ownTicks symbol s ticks).length := by
  have first : ((ticks.zip results).filter fun pair => reaches symbol s pair.1).map Prod.fst =
      ownTicks symbol s ticks := by
    conv_rhs => rw [ownTicks, ← List.map_fst_zip length.ge, List.filter_map]
    rfl
  rw [← first, ownResults, List.length_map, List.length_map]

end Projections

/-- What a whole run says about the book, side by side. -/
structure History (symbol : Symbol) (ticks : List NormalizedTick) (results : List DeltaResult)
    (book : OrderBook) : Prop where
  length : results.length = ticks.length
  symbol_eq : book.symbol = symbol
  shows : ∀ s, (book.side s).Shows
    ((Depth.empty : Depth s.descending).deltas (batchDeltas (ownTicks symbol s ticks))).1
  answers : ∀ s, (ownResults symbol s ticks results).drop (batchFrom (ownTicks symbol s ticks)) =
    ((Depth.empty : Depth s.descending).deltas (batchDeltas (ownTicks symbol s ticks))).2
  snapshotId : ∀ s, book.snapshotId s = previousSnapshotId (ownTicks symbol s ticks)
  mismatches : book.symbolMismatches = UInt64.ofNat (ticks.countP fun tick => tick.symbol ≠ symbol)

namespace History

variable {symbol : Symbol} {ticks : List NormalizedTick} {results : List DeltaResult}
  {book : OrderBook} {tick : NormalizedTick}

theorem new (symbol : Symbol) (exchange : Exchange) :
    History symbol [] [] (.new symbol exchange) where
  length := rfl
  symbol_eq := rfl
  shows s := by cases s <;> exact .new
  answers _ := rfl
  snapshotId s := by cases s <;> rfl
  mismatches := rfl

theorem foreign (history : History symbol ticks results book) (other : tick.symbol ≠ symbol) :
    History symbol (ticks ++ [tick]) (results ++ [.discarded])
      { book with symbolMismatches := book.symbolMismatches + 1 } := by
  have skipped (s : Side) : reaches symbol s tick = false := by
    simp only [reaches, other, false_and, decide_false]
  have same (s : Side) : ownTicks symbol s (ticks ++ [tick]) = ownTicks symbol s ticks := by
    rw [ownTicks_concat, skipped, if_neg Bool.false_ne_true, List.append_nil]
  refine ⟨by simp [history.length], history.symbol_eq, fun s => ?_, fun s => ?_, fun s => ?_, ?_⟩
  · rw [same]
    have shown := history.shows s
    cases s <;> exact shown
  · rw [same, ownResults_concat history.length, skipped, if_neg Bool.false_ne_true, List.append_nil]
    exact history.answers s
  · rw [same]
    have stored := history.snapshotId s
    cases s <;> exact stored
  · rw [List.countP_append, List.countP_singleton, history.mismatches]
    simp only [ne_eq, other, not_false_eq_true, decide_true, if_true]
    exact ofNat_add_one _

theorem startsBatch_eq (history : History symbol ticks results book) (tick : NormalizedTick) :
    book.startsBatch tick = (tick.isSnapshot &&
      tick.snapshotId != previousSnapshotId (ownTicks symbol tick.side ticks)) := by
  rw [OrderBook.startsBatch, history.snapshotId]

theorem facing_eq (history : History symbol ticks results book) (tick : NormalizedTick) :
    book.facing tick ((Depth.empty : Depth tick.side.descending).deltas
        (batchDeltas (ownTicks symbol tick.side ticks))).1 =
      ((Depth.empty : Depth tick.side.descending).deltas
        (if tick.isSnapshot && tick.snapshotId != previousSnapshotId (ownTicks symbol tick.side ticks)
          then [] else batchDeltas (ownTicks symbol tick.side ticks))).1 := by
  rw [OrderBook.facing, history.startsBatch_eq]
  split <;> rfl

theorem own (history : History symbol ticks results book) (same : tick.symbol = symbol) :
    ∃ book' result, book.apply tick = some (book', result) ∧
      History symbol (ticks ++ [tick]) (results ++ [result]) book' := by
  have here : reaches symbol tick.side tick = true := by
    simp only [reaches, same, and_self, decide_true]
  have elsewhere (s : Side) (other : s ≠ tick.side) : reaches symbol s tick = false := by
    simp only [reaches, other.symm, and_false, decide_false]
  have unchanged (s : Side) (other : s ≠ tick.side) :
      ownTicks symbol s (ticks ++ [tick]) = ownTicks symbol s ticks := by
    rw [ownTicks_concat, elsewhere s other, if_neg Bool.false_ne_true, List.append_nil]
  have extended : ownTicks symbol tick.side (ticks ++ [tick]) =
      ownTicks symbol tick.side ticks ++ [tick] := by
    rw [ownTicks_concat, here, if_pos rfl]
  obtain ⟨book', result, run, applied⟩ :=
    OrderBook.apply_applied (same.trans history.symbol_eq.symm) (history.shows tick.side)
  have facing := history.facing_eq tick
  refine ⟨book', result, run, ?_, ?_, fun s => ?_, fun s => ?_, fun s => ?_, ?_⟩
  · simp [history.length]
  · exact applied.symbol.trans history.symbol_eq
  · by_cases mine : s = tick.side
    · subst mine
      rw [extended, batchDeltas_concat, Depth.deltas_concat, ← facing]
      exact applied.own
    · rw [unchanged s mine, applied.other s mine]
      exact history.shows s
  · by_cases mine : s = tick.side
    · subst mine
      rw [extended, batchDeltas_concat, Depth.deltas_concat, ← facing, batchFrom_concat,
        ownResults_concat history.length, here, if_pos rfl, applied.result_eq]
      split
      · rw [← length_ownResults history.length, List.drop_left]
        rfl
      · rw [List.drop_append_of_le_length, history.answers]
        · rfl
        · rw [length_ownResults history.length]
          exact batchFrom_le
    · rw [unchanged s mine, ownResults_concat history.length, elsewhere s mine,
        if_neg Bool.false_ne_true, List.append_nil]
      exact history.answers s
  · rw [applied.snapshotId]
    by_cases mine : s = tick.side
    · subst mine
      rw [extended, previousSnapshotId_concat, history.snapshotId]
      simp only [true_and]
    · rw [unchanged s mine, history.snapshotId, if_neg fun both => mine both.1]
  · rw [applied.symbolMismatches, history.mismatches, List.countP_append, List.countP_singleton]
    simp only [ne_eq, same, not_true_eq_false, decide_false, Bool.false_eq_true, if_false,
      Nat.add_zero]

theorem applyAll (symbol : Symbol) (exchange : Exchange) (ticks : List NormalizedTick) :
    ∃ book results, (OrderBook.new symbol exchange).applyAll ticks = some (book, results) ∧
      History symbol ticks results book := by
  induction ticks using List.reverseRecOn with
  | nil => exact ⟨_, _, rfl, new symbol exchange⟩
  | append_singleton ticks tick ih =>
    obtain ⟨book, results, run, history⟩ := ih
    obtain ⟨book', result, step, history'⟩ : ∃ book' result,
        book.apply tick = some (book', result) ∧
          History symbol (ticks ++ [tick]) (results ++ [result]) book' := by
      by_cases same : tick.symbol = symbol
      · exact history.own same
      · exact ⟨_, _, OrderBook.apply_foreign (history.symbol_eq.symm ▸ same), history.foreign same⟩
    refine ⟨book', results ++ [result], ?_, history'⟩
    simp only [OrderBook.applyAll_concat, run, Option.bind_some, step, Option.map_some]

end History

/-- Each side of a book is a fresh side fed with that side's own ticks from its
last batch start on. The stored-id test fires exactly at batch starts. -/
theorem side_is_replay_of_last_batch (symbol : Symbol) (exchange : Exchange)
    (ticks : List NormalizedTick) :
    ∃ book results, (OrderBook.new symbol exchange).applyAll ticks = some (book, results) ∧
      book.symbolMismatches = UInt64.ofNat (ticks.countP fun tick => tick.symbol ≠ symbol) ∧
      ∀ s, ∃ fresh answers,
        BookSide.new.deltas s.descending (batchDeltas (ownTicks symbol s ticks)) =
          some (fresh, answers) ∧
        (book.side s).visible = fresh.visible ∧
        (ownResults symbol s ticks results).drop (batchFrom (ownTicks symbol s ticks)) = answers ∧
        ∀ tick, reaches symbol s tick →
          book.startsBatch tick = isBatchStart (ownTicks symbol s ticks ++ [tick])
            (ownTicks symbol s ticks).length := by
  obtain ⟨book, results, run, history⟩ := History.applyAll symbol exchange ticks
  refine ⟨book, results, run, history.mismatches, fun s => ?_⟩
  have empty : BookSide.new.Shows (Depth.empty : Depth s.descending) := .new
  obtain ⟨fresh, replay, shown⟩ := empty.deltas (batchDeltas (ownTicks symbol s ticks))
  refine ⟨fresh, _, replay, (history.shows s).visible_unique shown, history.answers s, ?_⟩
  intro tick here
  obtain ⟨_, rfl⟩ := of_decide_eq_true here
  rw [history.startsBatch_eq, isBatchStart_concat_last]

end FeedHandler
