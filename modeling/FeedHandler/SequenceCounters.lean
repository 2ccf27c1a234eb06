import FeedHandler.OrderBook

namespace FeedHandler

/-- Neighbours of a stream, in order. -/
def neighbours {α : Type} (stream : List α) : List (α × α) := stream.zip stream.tail

theorem neighbours_concat {α : Type} (stream : List α) (last next : α) :
    neighbours (stream ++ [last] ++ [next]) = neighbours (stream ++ [last]) ++ [(last, next)] := by
  unfold neighbours
  induction stream with
  | nil => rfl
  | cons head rest ih =>
    cases rest with
    | nil => rfl
    | cons second rest =>
      simp only [List.cons_append, List.tail_cons, List.zip_cons_cons] at ih ⊢
      rw [ih]

/-- How often the stream went backward or repeated. -/
def reorderCount (seqs : List UInt64) : Nat :=
  (neighbours seqs).countP fun pair => pair.2 ≤ pair.1

/-- How often the stream jumped by more than one. -/
def gapCount (seqs : List UInt64) : Nat :=
  (neighbours seqs).countP fun pair => pair.1.toNat + 1 < pair.2.toNat

def Contiguous (seqs : List UInt64) : Prop :=
  ∀ pair ∈ neighbours seqs, pair.2.toNat = pair.1.toNat + 1

namespace OrderBook

/-- The tracker has seen exactly these sequence numbers. -/
structure Counted (book : OrderBook) (seqs : List UInt64) : Prop where
  initialized : book.sequenceInitialized = !seqs.isEmpty
  last : ∀ seq, seqs.getLast? = some seq → book.sequence = seq
  reorders : book.sequenceReorders = UInt64.ofNat (reorderCount seqs)
  gaps : book.sequenceGaps = UInt64.ofNat (gapCount seqs)

theorem gap_iff {last next : UInt64} :
    (next > last ∧ next ≠ last + 1) ↔ last.toNat + 1 < next.toNat := by
  have bound := next.toNat_lt
  rw [gt_iff_lt, UInt64.lt_iff_toNat_lt, ne_eq, ← UInt64.toNat_inj, UInt64.toNat_add]
  simp only [UInt64.toNat_one]
  omega

/-- One tracked number: the tracker compares it with the last one only. -/
theorem Counted.track {book : OrderBook} {seqs : List UInt64} (counted : book.Counted seqs)
    (seq : UInt64) : (book.trackSequence seq).Counted (seqs ++ [seq]) := by
  rw [trackSequence_eq]
  cases seqs using List.reverseRecOn with
  | nil =>
    have fresh : book.sequenceInitialized = false := counted.initialized
    refine ⟨rfl, fun last here => ?_, ?_, ?_⟩
    · exact Option.some.inj here
    · simp only [fresh, Bool.false_eq_true, false_and, if_false]
      exact counted.reorders
    · simp only [fresh, Bool.false_eq_true, false_and, if_false]
      exact counted.gaps
  | append_singleton seqs last =>
    have started : book.sequenceInitialized = true := by
      rw [counted.initialized]
      simp
    have previous : book.sequence = last := counted.last last (by simp)
    refine ⟨by simp, fun seq' here => ?_, ?_, ?_⟩
    · simpa using here
    · simp only [started, previous, true_and, counted.reorders]
      rw [reorderCount, reorderCount, neighbours_concat, List.countP_append, List.countP_singleton]
      simp only [gt_iff_lt, UInt64.not_lt, decide_eq_true_eq]
      split
      · exact ofNat_add_one _
      · rfl
    · simp only [started, previous, true_and, counted.gaps, gap_iff]
      rw [gapCount, gapCount, neighbours_concat, List.countP_append, List.countP_singleton]
      simp only [decide_eq_true_eq]
      split
      · exact ofNat_add_one _
      · rfl

theorem Counted.of_clock {book other : OrderBook} {seqs : List UInt64} (same : SameClock book other)
    (counted : other.Counted seqs) : book.Counted seqs :=
  ⟨same.sequenceInitialized.trans counted.initialized,
    fun seq here => same.sequence.trans (counted.last seq here),
    same.sequenceReorders.trans counted.reorders, same.sequenceGaps.trans counted.gaps⟩

theorem Counted.stamped {book : OrderBook} {seqs : List UInt64} (counted : book.Counted seqs)
    (tick : NormalizedTick) (result : DeltaResult) :
    (book.stamped tick result).Counted
      (seqs ++ if result.takes then [tick.sequence] else []) := by
  unfold OrderBook.stamped
  split
  · have tracked := counted.track tick.sequence
    exact ⟨tracked.initialized, tracked.last, tracked.reorders, tracked.gaps⟩
  · rwa [List.append_nil]

/-- The sequence numbers of the ticks that took effect. -/
def taken (ticks : List NormalizedTick) (results : List DeltaResult) : List UInt64 :=
  ((ticks.zip results).filter fun pair => pair.2.takes).map fun pair => pair.1.sequence

/-- The counters are exact over the ticks that took effect, and no other tick
is remembered. -/
theorem applyAll_counted {book : OrderBook} {depths : (s : Side) → Depth s.descending}
    {seqs : List UInt64} (shown : book.Shows depths) (counted : book.Counted seqs)
    (ticks : List NormalizedTick) (own : ∀ tick ∈ ticks, tick.symbol = book.symbol) :
    ∃ book' results, book.applyAll ticks = some (book', results) ∧
      results.length = ticks.length ∧ book'.Counted (seqs ++ taken ticks results) := by
  induction ticks generalizing book depths seqs with
  | nil => exact ⟨book, [], rfl, rfl, by simpa [taken] using counted⟩
  | cons tick rest ih =>
    obtain ⟨middle, result, run, applied⟩ :=
      apply_applied (own tick List.mem_cons_self) (shown tick.side)
    have countedMiddle := (counted.stamped tick result).of_clock applied.clock
    have ownRest : ∀ later ∈ rest, later.symbol = middle.symbol := fun later member => by
      rw [applied.symbol]
      exact own later (List.mem_cons_of_mem _ member)
    obtain ⟨book', results, runRest, length, countedRest⟩ :=
      ih (applied.shows shown) countedMiddle ownRest
    refine ⟨book', result :: results, ?_, by simp [length], ?_⟩
    · simp only [applyAll, run, runRest, Option.bind_eq_bind, Option.bind_some, Option.pure_def]
    · have shape : taken (tick :: rest) (result :: results) =
          (if result.takes then [tick.sequence] else []) ++ taken rest results := by
        cases takes : result.takes <;> simp [taken, takes]
      rwa [shape, ← List.append_assoc]

/-- The levels that the delta of this tick meets. -/
def meets (book : OrderBook) (tick : NormalizedTick) : List Level :=
  if book.startsBatch tick then [] else (book.side tick.side).visible

/-- The tick is neither a cancel of an untracked price nor worse than a full
side: the one branch of `apply` that skips the tracker is not taken. -/
def Lands (book : OrderBook) (tick : NormalizedTick) : Prop :=
  if tick.qty = 0 then ∃ level ∈ book.meets tick, level.price = tick.price
  else (∃ level ∈ book.meets tick, level.price = tick.price) ∨
    (book.meets tick).length < maxLevels ∨
    ∃ level ∈ book.meets tick, Better tick.side.descending tick.price level.price

instance (book : OrderBook) (tick : NormalizedTick) : Decidable (book.Lands tick) :=
  inferInstanceAs (Decidable (if tick.qty = 0 then _ else _))

/-- Every tick of the run lands on the book it meets. -/
def EveryTickLands (book : OrderBook) : List NormalizedTick → Prop
  | [] => True
  | tick :: rest => book.Lands tick ∧
    match book.apply tick with
    | some (book', _) => book'.EveryTickLands rest
    | none => False

instance decidableEveryTickLands (book : OrderBook) :
    (ticks : List NormalizedTick) → Decidable (book.EveryTickLands ticks)
  | [] => isTrue trivial
  | tick :: rest =>
    match run : book.apply tick with
    | some (book', _) =>
      have := decidableEveryTickLands book' rest
      decidable_of_iff (book.Lands tick ∧ book'.EveryTickLands rest)
        (by simp only [EveryTickLands, run])
    | none => isFalse (by simp only [EveryTickLands, run, and_false, not_false_eq_true])

end OrderBook

theorem Depth.outcome_takes_iff {descending : Bool} (depth : Depth descending) (price : Price)
    (qty : Qty) : (depth.outcome price qty).takes = true ↔
      if qty = 0 then price ∈ depth.map.support
      else price ∈ depth.map.support ∨ depth.map.support.card < maxLevels ∨
        ∃ other ∈ depth.map.support, Better descending price other := by
  unfold outcome
  split
  · split <;> simp [DeltaResult.takes, *]
  · split
    · simp [DeltaResult.takes, *]
    · split
      · simp [DeltaResult.takes, *]
      · split
        · rename_i worst
          obtain ⟨other, ⟨tracked, _⟩, beats⟩ := worst
          simp only [DeltaResult.takes, ne_eq, reduceCtorEq, not_false_eq_true, and_self,
            decide_true, true_iff]
          exact Or.inr (Or.inr ⟨other, tracked, beats⟩)
        · rename_i untracked full nothing
          have none : ¬ ∃ other ∈ depth.map.support, Better descending price other := by
            intro found
            obtain ⟨other, tracked, beats⟩ := found
            exact nothing (depth.beats_worst tracked beats)
          exact iff_of_false Bool.false_ne_true
            (by simp only [untracked, full, none, or_self, not_false_eq_true])

namespace OrderBook

theorem lands_iff {book : OrderBook} {tick : NormalizedTick} {depth : Depth tick.side.descending}
    (shown : (book.side tick.side).Shows depth) :
    book.Lands tick ↔
      ((book.facing tick depth).outcome tick.price tick.qty).takes = true := by
  have facing := facing_shown shown
  have levels : ((book.cleared tick).side tick.side).visible = book.meets tick := by
    rw [cleared_side_own, meets]
    split
    · exact BookSide.visible_clear _
    · rfl
  have length : (book.facing tick depth).map.support.card = (book.meets tick).length := by
    rw [facing.card_eq, ← BookSide.length_visible facing.inBounds, levels]
  have tracked (price : Price) : price ∈ (book.facing tick depth).map.support ↔
      ∃ level ∈ book.meets tick, level.price = price := by
    rw [facing.mem_support_iff, levels]
  rw [Depth.outcome_takes_iff, Lands, length]
  simp only [tracked, exists_exists_and_eq_and]

/-- When every tick lands, every tick is tracked. -/
theorem taken_of_every_lands {book : OrderBook} {depths : (s : Side) → Depth s.descending}
    (shown : book.Shows depths) (ticks : List NormalizedTick)
    (own : ∀ tick ∈ ticks, tick.symbol = book.symbol) (lands : book.EveryTickLands ticks)
    {book' : OrderBook} {results : List DeltaResult}
    (run : book.applyAll ticks = some (book', results)) :
    taken ticks results = ticks.map NormalizedTick.sequence := by
  induction ticks generalizing book depths results with
  | nil => rfl
  | cons tick rest ih =>
    obtain ⟨here, later⟩ := lands
    obtain ⟨middle, result, step, applied⟩ :=
      apply_applied (own tick List.mem_cons_self) (shown tick.side)
    rw [step] at later
    have takes : result.takes = true := by
      rw [applied.result_eq]
      exact (lands_iff (shown tick.side)).mp here
    obtain ⟨⟨final, rest'⟩, runRest, same⟩ := Option.bind_eq_some_iff.mp
      (show (middle.applyAll rest).bind _ = _ by
        simpa only [applyAll, step, Option.bind_eq_bind, Option.bind_some] using run)
    cases same
    have tail := ih (applied.shows shown)
      (fun next member => by
        rw [applied.symbol]
        exact own next (List.mem_cons_of_mem _ member)) later runRest
    rw [taken] at tail ⊢
    simp only [List.zip_cons_cons, List.filter_cons, takes, if_true, List.map_cons, tail]

theorem new_counted (symbol : Symbol) (exchange : Exchange) : (new symbol exchange).Counted [] :=
  ⟨rfl, fun _ none => (nomatch none), rfl, rfl⟩

end OrderBook

/-- The sequence anomalies of the stream are counted exactly, modulo the width
of the counters. -/
def AnomaliesCounted (symbol : Symbol) (exchange : Exchange) (ticks : List NormalizedTick) : Prop :=
  ∃ book results, (OrderBook.new symbol exchange).applyAll ticks = some (book, results) ∧
    book.sequenceReorders = UInt64.ofNat (reorderCount (ticks.map NormalizedTick.sequence)) ∧
    ((ticks.map NormalizedTick.sequence).Pairwise (· < ·) →
      book.sequenceGaps = UInt64.ofNat (gapCount (ticks.map NormalizedTick.sequence))) ∧
    (Contiguous (ticks.map NormalizedTick.sequence) →
      book.sequenceGaps = 0 ∧ book.sequenceReorders = 0)

theorem gapCount_of_contiguous {seqs : List UInt64} (contiguous : Contiguous seqs) :
    gapCount seqs = 0 := by
  rw [gapCount, List.countP_eq_zero]
  intro pair member
  have next := contiguous pair member
  simp only [decide_eq_true_eq]
  omega

theorem reorderCount_of_contiguous {seqs : List UInt64} (contiguous : Contiguous seqs) :
    reorderCount seqs = 0 := by
  rw [reorderCount, List.countP_eq_zero]
  intro pair member
  have next := contiguous pair member
  simp only [decide_eq_true_eq, UInt64.le_iff_toNat_le]
  omega

/-- On a run whose ticks all land on the book, the counters are exact over the
whole stream. -/
theorem anomalies_counted_of_every_tick_lands (symbol : Symbol) (exchange : Exchange)
    (ticks : List NormalizedTick) (own : ∀ tick ∈ ticks, tick.symbol = symbol)
    (lands : (OrderBook.new symbol exchange).EveryTickLands ticks) :
    AnomaliesCounted symbol exchange ticks := by
  have shown := OrderBook.new_shows symbol exchange
  obtain ⟨book, results, run, _, counted⟩ :=
    OrderBook.applyAll_counted shown (OrderBook.new_counted symbol exchange) ticks own
  rw [List.nil_append, OrderBook.taken_of_every_lands shown ticks own lands run] at counted
  refine ⟨book, results, run, counted.reorders, fun _ => counted.gaps, fun contiguous => ?_⟩
  rw [counted.gaps, counted.reorders, gapCount_of_contiguous contiguous,
    reorderCount_of_contiguous contiguous]
  exact ⟨rfl, rfl⟩

theorem anomalies_counted_on_a_gapped_run :
    AnomaliesCounted (.fromBytes []) .binance [bidTick 100 1 1, bidTick 101 1 5, bidTick 100 0 3] :=
  anomalies_counted_of_every_tick_lands _ _ _ (by decide) (by decide)

/-- Three contiguous ticks, the middle one a cancel of an untracked price: the
tracker never sees it and reports a gap. -/
theorem untracked_cancel_counts_a_gap :
    ¬ AnomaliesCounted (.fromBytes []) .binance
      [bidTick 100 1 1, bidTick 50 0 2, bidTick 101 1 3] := by
  rintro ⟨book, results, run, _, _, contiguous⟩
  have gaps : ((OrderBook.new (.fromBytes []) .binance).applyAll
      [bidTick 100 1 1, bidTick 50 0 2, bidTick 101 1 3]).map (fun answer => answer.1.sequenceGaps) =
        some 1 := by decide
  rw [run] at gaps
  have none := (contiguous (by simp [Contiguous, neighbours, bidTick, NormalizedTick.new])).1
  rw [Option.map_some, none] at gaps
  exact absurd gaps (by decide)

end FeedHandler
