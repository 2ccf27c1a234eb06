import FeedHandler.OrderBook

namespace FeedHandler

/-- Addition in a debug build, where an overflow is a panic. -/
def debugAdd (a b : UInt64) : Option UInt64 :=
  if a.toNat + b.toNat < 2 ^ 64 then some (a + b) else none

theorem debugAdd_eq {a b : UInt64} (room : a.toNat + b.toNat < 2 ^ 64) : debugAdd a b = some (a + b) :=
  if_pos room

theorem debugAdd_one (a : UInt64) :
    debugAdd a 1 = if a.toNat + 1 = 2 ^ 64 then none else some (a + 1) := by
  have bound := a.toNat_lt
  rw [debugAdd, UInt64.toNat_one]
  by_cases full : a.toNat + 1 = 2 ^ 64
  · rw [if_pos full, if_neg (by omega)]
  · rw [if_neg full, if_pos (by omega)]

namespace OrderBook

/-- `track_sequence` in a debug build. -/
def trackSequenceDebug (book : OrderBook) (seq : UInt64) : Option OrderBook := do
  let counted ←
    if book.sequenceInitialized then
      if seq > book.sequence then do
        let next ← debugAdd book.sequence 1
        if seq ≠ next then do
          let gaps ← debugAdd book.sequenceGaps 1
          pure { book with sequenceGaps := gaps }
        else pure book
      else do
        let reorders ← debugAdd book.sequenceReorders 1
        pure { book with sequenceReorders := reorders }
    else pure { book with sequenceInitialized := true }
  return { counted with sequence := seq }

/-- `apply` in a debug build: a foreign symbol is a panic. -/
def applyDebug (book : OrderBook) (tick : NormalizedTick) : Option (OrderBook × DeltaResult) :=
  if tick.symbol ≠ book.symbol then none
  else do
    let book :=
      if tick.isSnapshot then book.maybeClearForSnapshot tick.side tick.snapshotId else book
    let (book, result) ←
      match tick.side with
      | .bid => (book.bids.applyDelta tick.price tick.qty true).map fun (bids, result) =>
        ({ book with bids }, result)
      | .ask => (book.asks.applyDelta tick.price tick.qty false).map fun (asks, result) =>
        ({ book with asks }, result)
    if result ≠ .noOp ∧ result ≠ .discarded then do
      let book ← book.trackSequenceDebug tick.sequence
      return ({ book with lastUpdateNs := tick.tsRecvNs }, result)
    else
      return (book, result)

def applyAllDebug (book : OrderBook) : List NormalizedTick → Option (OrderBook × List DeltaResult)
  | [] => some (book, [])
  | tick :: rest => do
    let (book, result) ← book.applyDebug tick
    let (book, results) ← book.applyAllDebug rest
    return (book, result :: results)

variable {book : OrderBook} {tick : NormalizedTick} {seq : UInt64}

/-- The number after the last one does not overflow where it is looked at. -/
theorem debugAdd_sequence (later : seq > book.sequence) :
    debugAdd book.sequence 1 = some (book.sequence + 1) := by
  refine debugAdd_eq ?_
  have order := UInt64.lt_iff_toNat_lt.mp later
  have bound := seq.toNat_lt
  rw [UInt64.toNat_one]
  omega

/-- The counter that this sequence number moves cannot move any further. -/
def Saturated (book : OrderBook) (seq : UInt64) : Prop :=
  book.sequenceInitialized = true ∧
    (seq > book.sequence ∧ seq ≠ book.sequence + 1 ∧ book.sequenceGaps.toNat + 1 = 2 ^ 64 ∨
      ¬ seq > book.sequence ∧ book.sequenceReorders.toNat + 1 = 2 ^ 64)

instance (book : OrderBook) (seq : UInt64) : Decidable (book.Saturated seq) :=
  inferInstanceAs (Decidable (book.sequenceInitialized = true ∧
    (seq > book.sequence ∧ seq ≠ book.sequence + 1 ∧ book.sequenceGaps.toNat + 1 = 2 ^ 64 ∨
      ¬ seq > book.sequence ∧ book.sequenceReorders.toNat + 1 = 2 ^ 64)))

theorem trackSequenceDebug_eq (book : OrderBook) (seq : UInt64) :
    book.trackSequenceDebug seq =
      if book.Saturated seq then none else some (book.trackSequence seq) := by
  by_cases started : book.sequenceInitialized = true
  · by_cases later : seq > book.sequence
    · by_cases next : seq ≠ book.sequence + 1
      · by_cases full : book.sequenceGaps.toNat + 1 = 2 ^ 64
        · have stuck : book.Saturated seq := ⟨started, .inl ⟨later, next, full⟩⟩
          simp only [trackSequenceDebug, started, later, ne_eq, next, not_false_eq_true,
            debugAdd_sequence later,
            debugAdd_one, full, stuck, if_true, Option.bind_eq_bind, Option.bind_some,
            Option.bind_none]
        · have free : ¬ book.Saturated seq := fun ⟨_, both⟩ =>
            both.elim (fun gap => full gap.2.2) fun reorder => reorder.1 later
          simp only [trackSequenceDebug, trackSequence, started, later, ne_eq, next, not_false_eq_true,
            debugAdd_sequence later, debugAdd_one, full, free, if_true, if_false,
            Option.bind_eq_bind, Option.bind_some, Option.pure_def]
      · have free : ¬ book.Saturated seq := fun ⟨_, both⟩ =>
          both.elim (fun gap => next gap.2.1) fun reorder => reorder.1 later
        simp only [trackSequenceDebug, trackSequence, started, later, ne_eq, next,
          debugAdd_sequence later, free, if_true, if_false,
          Option.bind_eq_bind, Option.bind_some, Option.pure_def]
    · by_cases full : book.sequenceReorders.toNat + 1 = 2 ^ 64
      · have stuck : book.Saturated seq := ⟨started, .inr ⟨later, full⟩⟩
        simp only [trackSequenceDebug, started, later, debugAdd_one, full, stuck, if_true,
          if_false, Option.bind_eq_bind, Option.bind_none]
      · have free : ¬ book.Saturated seq := fun ⟨_, both⟩ =>
          both.elim (fun gap => later gap.1) fun reorder => full reorder.2
        simp only [trackSequenceDebug, trackSequence, started, later, debugAdd_one, full, free,
          if_true, if_false, Option.bind_eq_bind, Option.bind_some, Option.pure_def]
  · have free : ¬ book.Saturated seq := fun both => started both.1
    simp only [trackSequenceDebug, trackSequence, started, free, if_false, Option.bind_eq_bind,
      Option.pure_def, Option.bind_some, Bool.false_eq_true]

theorem saturated_congr {other : OrderBook} (same : SameClock book other) :
    book.Saturated seq ↔ other.Saturated seq := by
  unfold Saturated
  rw [same.sequence, same.sequenceGaps, same.sequenceReorders, same.sequenceInitialized]

theorem applyDebug_foreign (foreign : tick.symbol ≠ book.symbol) : book.applyDebug tick = none :=
  if_pos foreign

/-- For the book's own symbol the two builds differ in one case only: the tick
takes effect and the counter it moves is at its end. -/
theorem applyDebug_own (own : tick.symbol = book.symbol) :
    book.applyDebug tick = (book.apply tick).bind fun run =>
      if run.2.takes = true ∧ book.Saturated tick.sequence then none else some run := by
  have clock (contents : BookSide) (s : Side) :
      ((book.cleared tick).withSide contents s).Saturated tick.sequence ↔
        book.Saturated tick.sequence :=
    saturated_congr ((withSide_clock contents s).trans cleared_clock)
  have body : book.applyDebug tick =
      (((book.cleared tick).side tick.side).applyDelta tick.price tick.qty
        tick.side.descending).bind fun answer =>
          if answer.2.takes = true then
            (((book.cleared tick).withSide answer.1 tick.side).trackSequenceDebug
              tick.sequence).map fun book => ({ book with lastUpdateNs := tick.tsRecvNs }, answer.2)
          else some ((book.cleared tick).withSide answer.1 tick.side, answer.2) := by
    unfold applyDebug OrderBook.cleared
    rw [if_neg (not_not_intro own)]
    cases tick.side <;>
      simp only [side, withSide, Side.descending, Option.bind_eq_bind, Option.pure_def,
        Option.bind_map, DeltaResult.takes, decide_eq_true_eq] <;>
      cases BookSide.applyDelta _ tick.price tick.qty _ with
      | none => rfl
      | some answer =>
        simp only [Option.bind_some, Function.comp_apply, Option.map_eq_bind]
  rw [body, apply_own own, Option.bind_map]
  refine congrArg (Option.bind _) (funext fun answer => ?_)
  simp only [Function.comp_apply, stamped]
  by_cases takes : answer.2.takes = true
  · simp only [takes, if_true, true_and, trackSequenceDebug_eq, clock]
    split <;> rfl
  · simp only [takes]
    rfl

/-- One stamp moves each counter by at most one. -/
theorem stamped_counters (book : OrderBook) (tick : NormalizedTick) (result : DeltaResult) :
    (book.stamped tick result).sequenceGaps.toNat ≤ book.sequenceGaps.toNat + 1 ∧
      (book.stamped tick result).sequenceReorders.toNat ≤ book.sequenceReorders.toNat + 1 := by
  have bump (n : UInt64) : (n + 1).toNat ≤ n.toNat + 1 := by
    rw [UInt64.toNat_add, UInt64.toNat_one]
    exact Nat.mod_le _ _
  unfold stamped
  split
  · rw [trackSequence_eq]
    dsimp only
    constructor <;> split
    · exact bump _
    · exact Nat.le_succ _
    · exact bump _
    · exact Nat.le_succ _
  · exact ⟨Nat.le_succ _, Nat.le_succ _⟩

theorem applyAllDebug_cons (book : OrderBook) (tick : NormalizedTick)
    (rest : List NormalizedTick) :
    book.applyAllDebug (tick :: rest) = (book.applyDebug tick).bind fun (middle, result) =>
      (middle.applyAllDebug rest).map fun (final, results) => (final, result :: results) := by
  simp only [applyAllDebug, Option.bind_eq_bind, Option.pure_def, Option.map_eq_bind]
  rfl

theorem applyDebug_some {run : OrderBook × DeltaResult} (debug : book.applyDebug tick = some run) :
    tick.symbol = book.symbol ∧ book.apply tick = some run := by
  have own : tick.symbol = book.symbol := by
    by_contra foreign
    rw [applyDebug_foreign foreign] at debug
    exact nomatch debug
  rw [applyDebug_own own, Option.bind_eq_some_iff] at debug
  obtain ⟨answer, release, kept⟩ := debug
  split at kept
  · exact nomatch kept
  · exact ⟨own, release.trans kept⟩

theorem applyDebug_of_room (own : tick.symbol = book.symbol)
    (gaps : book.sequenceGaps.toNat + 1 < 2 ^ 64)
    (reorders : book.sequenceReorders.toNat + 1 < 2 ^ 64) :
    book.applyDebug tick = book.apply tick := by
  have free : ¬ book.Saturated tick.sequence := fun ⟨_, both⟩ =>
    both.elim (fun gap => gaps.ne gap.2.2) fun reorder => reorders.ne reorder.2
  rw [applyDebug_own own]
  simp only [free, and_false, if_false]
  exact Option.bind_fun_some _

theorem release_of_debug {ticks : List NormalizedTick} {run : OrderBook × List DeltaResult}
    (debug : book.applyAllDebug ticks = some run) :
    book.applyAll ticks = some run ∧ ∀ tick ∈ ticks, tick.symbol = book.symbol := by
  induction ticks generalizing book run with
  | nil => exact ⟨debug, fun _ member => nomatch member⟩
  | cons tick rest ih =>
    rw [applyAllDebug_cons, Option.bind_eq_some_iff] at debug
    obtain ⟨⟨middle, result⟩, first, later⟩ := debug
    obtain ⟨⟨final, results⟩, later, same⟩ := Option.map_eq_some_iff.mp later
    obtain ⟨own, step⟩ := applyDebug_some first
    obtain ⟨release, owns⟩ := ih later
    have symbol := (apply_own_frame own step).1
    refine ⟨?_, List.forall_mem_cons.mpr ⟨own, fun other member =>
      (owns other member).trans symbol⟩⟩
    rw [applyAll_cons, step, Option.bind_some]
    exact Option.map_eq_some_iff.mpr ⟨_, release, same⟩

theorem debug_of_release {ticks : List NormalizedTick}
    (own : ∀ tick ∈ ticks, tick.symbol = book.symbol)
    (gaps : book.sequenceGaps.toNat + ticks.length < 2 ^ 64)
    (reorders : book.sequenceReorders.toNat + ticks.length < 2 ^ 64) :
    book.applyAllDebug ticks = book.applyAll ticks := by
  induction ticks generalizing book with
  | nil => rfl
  | cons tick rest ih =>
    have first := own tick List.mem_cons_self
    rw [List.length_cons] at gaps reorders
    rw [applyAllDebug_cons, applyAll_cons,
      applyDebug_of_room first (by omega) (by omega)]
    cases step : book.apply tick with
    | none => rfl
    | some answer =>
      obtain ⟨middle, result⟩ := answer
      obtain ⟨symbol, _, clock⟩ := apply_own_frame first step
      obtain ⟨gap, reorder⟩ := book.stamped_counters tick result
      rw [← clock.sequenceGaps] at gap
      rw [← clock.sequenceReorders] at reorder
      have later := @ih middle (fun other member =>
        (own other (List.mem_cons_of_mem _ member)).trans symbol.symm) (by omega) (by omega)
      simp only [Option.bind_some, later]

end OrderBook

/-- A debug build of the book computes what the release build does for as long
as it does not panic, and among the first `2 ^ 64 - 1` ticks it panics only
where a tick of another symbol reaches the book. -/
theorem debug_book_panics_only_for_the_router (symbol : Symbol) (exchange : Exchange)
    (ticks : List NormalizedTick) :
    (∀ run, (OrderBook.new symbol exchange).applyAllDebug ticks = some run →
      (OrderBook.new symbol exchange).applyAll ticks = some run ∧
        ∀ tick ∈ ticks, tick.symbol = symbol) ∧
    (ticks.length < 2 ^ 64 → (∀ tick ∈ ticks, tick.symbol = symbol) →
      ∃ run, (OrderBook.new symbol exchange).applyAllDebug ticks = some run) := by
  refine ⟨fun run debug => OrderBook.release_of_debug debug, fun short own => ?_⟩
  obtain ⟨book, results, run, _⟩ := (OrderBook.new_sound symbol exchange).applyAll ticks
  have zero : (0 : UInt64).toNat + ticks.length < 2 ^ 64 := by
    rw [UInt64.toNat_zero]
    omega
  exact ⟨_, (OrderBook.debug_of_release own zero zero).trans run⟩

/-- A gap and a late number: both checked additions are made. -/
theorem gap_and_reorder_are_no_panic :
    ∃ run, (OrderBook.new (.fromBytes []) .binance).applyAllDebug
      [bidTick 100 1 1, bidTick 101 1 5, bidTick 102 1 3] = some run :=
  (debug_book_panics_only_for_the_router (.fromBytes []) .binance
    [bidTick 100 1 1, bidTick 101 1 5, bidTick 102 1 3]).2 (by decide) (by decide)

end FeedHandler
