import FeedHandler.SequenceCounters

namespace FeedHandler

/-- After the first number, each one was delivered before or is exactly one
more than the largest number delivered so far. No packet is ever missed. -/
def OnlyReplays (seqs : List UInt64) : Prop :=
  ∀ i : Fin seqs.length, 0 < i.val →
    seqs[i] ∈ seqs.take i ∨ ∃ top ∈ seqs.take i,
      (∀ seq ∈ seqs.take i, seq ≤ top) ∧ seqs[i].toNat = top.toNat + 1

/-- A number below one delivered earlier is followed by at most its successor. -/
def LateStepsByOne (seqs : List UInt64) : Prop :=
  ∀ i late next, seqs[i]? = some late → seqs[i + 1]? = some next →
    (∃ top ∈ seqs.take i, late < top) → next.toNat ≤ late.toNat + 1

section Neighbours

theorem mem_neighbours_iff {α : Type} {stream : List α} {pair : α × α} :
    pair ∈ neighbours stream ↔
      ∃ i, stream[i]? = some pair.1 ∧ stream[i + 1]? = some pair.2 := by
  simp only [neighbours, List.mem_iff_getElem?, List.getElem?_zip_eq_some, List.getElem?_tail]

theorem gapCount_concat (seqs : List UInt64) (last next : UInt64) :
    gapCount (seqs ++ [last] ++ [next]) =
      gapCount (seqs ++ [last]) + if last.toNat + 1 < next.toNat then 1 else 0 := by
  rw [gapCount, gapCount, neighbours_concat, List.countP_append, List.countP_singleton]
  simp only [decide_eq_true_eq]

theorem gapCount_eq_zero_iff {seqs : List UInt64} :
    gapCount seqs = 0 ↔
      ∀ i last next, seqs[i]? = some last → seqs[i + 1]? = some next →
        next.toNat ≤ last.toNat + 1 := by
  rw [gapCount, List.countP_eq_zero]
  constructor
  · intro none i last next here there
    have calm := none (last, next) (mem_neighbours_iff.mpr ⟨i, here, there⟩)
    simpa only [decide_eq_true_eq, Nat.not_lt] using calm
  · intro steps pair member
    obtain ⟨i, here, there⟩ := mem_neighbours_iff.mp member
    simpa only [decide_eq_true_eq, Nat.not_lt] using steps i _ _ here there

theorem gapCount_eq_zero_of_prefix {early seqs : List UInt64} (within : early <+: seqs)
    (none : gapCount seqs = 0) : gapCount early = 0 := by
  obtain ⟨later, rfl⟩ := within
  rw [gapCount_eq_zero_iff] at none ⊢
  intro i last next here there
  obtain ⟨first, _⟩ := List.getElem?_eq_some_iff.mp here
  obtain ⟨second, _⟩ := List.getElem?_eq_some_iff.mp there
  exact none i last next ((List.getElem?_append_left first).trans here)
    ((List.getElem?_append_left second).trans there)

/-- The counter wraps, but its first step shows. -/
theorem gapCount_eq_zero_of_prefixes {seqs : List UInt64}
    (calm : ∀ early, early <+: seqs → UInt64.ofNat (gapCount early) = 0) : gapCount seqs = 0 := by
  induction seqs using List.reverseRecOn with
  | nil => rfl
  | append_singleton seqs next ih =>
    have before := ih fun early within => calm early (within.trans (List.prefix_append _ _))
    have whole := calm _ (List.prefix_refl _)
    cases seqs using List.reverseRecOn with
    | nil => rfl
    | append_singleton seqs last =>
      rw [gapCount_concat, before, Nat.zero_add] at whole ⊢
      split at whole
      · exact absurd whole (by decide)
      · rename_i small
        rw [if_neg small]

/-- In a stream of replays only a late number can be followed by a jump. -/
theorem gapCount_eq_zero_iff_of_replays {seqs : List UInt64} (replays : OnlyReplays seqs) :
    gapCount seqs = 0 ↔ LateStepsByOne seqs := by
  rw [gapCount_eq_zero_iff]
  constructor
  · exact fun steps i late next here there _ => steps i late next here there
  · intro steps i last next here there
    by_cases late : ∃ top ∈ seqs.take i, last < top
    · exact steps i last next here there late
    · have newest : ∀ seq ∈ seqs.take (i + 1), seq.toNat ≤ last.toNat := by
        intro seq member
        rw [List.take_add_one, here, Option.toList_some, List.mem_append,
          List.mem_singleton] at member
        rcases member with earlier | same
        · exact Nat.not_lt.mp fun above => late ⟨seq, earlier, UInt64.lt_iff_toNat_lt.mpr above⟩
        · rw [same]
      obtain ⟨bound, value⟩ := List.getElem?_eq_some_iff.mp there
      subst value
      rcases replays ⟨i + 1, bound⟩ (Nat.succ_pos i) with again | ⟨top, member, _, fresh⟩
      · exact (newest _ again).trans (Nat.le_succ _)
      · have below := newest top member
        change seqs[i + 1].toNat = _ at fresh
        omega

end Neighbours

theorem OrderBook.taken_of_all_take {ticks : List NormalizedTick} {results : List DeltaResult}
    (length : results.length = ticks.length) (takes : ∀ result ∈ results, result.takes = true) :
    taken ticks results = ticks.map NormalizedTick.sequence := by
  have all : (ticks.zip results).filter (fun pair => pair.2.takes) = ticks.zip results :=
    List.filter_eq_self.mpr fun pair member => takes _ (List.of_mem_zip member).2
  have fsts := List.map_fst_zip length.ge
  rw [taken, all]
  conv_rhs => rw [← fsts, List.map_map]
  rfl

/-- Every tick was applied: no result is `NoOp` or `Discarded`. -/
def AllApplied (symbol : Symbol) (exchange : Exchange) (ticks : List NormalizedTick) : Prop :=
  ∃ book results, (OrderBook.new symbol exchange).applyAll ticks = some (book, results) ∧
    ∀ result ∈ results, result ≠ .noOp ∧ result ≠ .discarded

/-- The gap counter reads zero after every tick of the stream. -/
def NoGapReported (symbol : Symbol) (exchange : Exchange) (ticks : List NormalizedTick) : Prop :=
  ∀ early, early <+: ticks → ∃ book results,
    (OrderBook.new symbol exchange).applyAll early = some (book, results) ∧ book.sequenceGaps = 0

theorem AllApplied.earlier {symbol : Symbol} {exchange : Exchange}
    {early ticks : List NormalizedTick} (within : early <+: ticks)
    (applied : AllApplied symbol exchange ticks) : AllApplied symbol exchange early := by
  obtain ⟨book, results, run, takes⟩ := applied
  obtain ⟨later, rfl⟩ := within
  rw [OrderBook.applyAll_append] at run
  obtain ⟨⟨middle, first⟩, runEarly, rest⟩ := Option.bind_eq_some_iff.mp run
  obtain ⟨⟨final, second⟩, _, same⟩ := Option.map_eq_some_iff.mp rest
  cases same
  exact ⟨middle, first, runEarly, fun result member => takes result (List.mem_append_left _ member)⟩

/-- Where every tick is applied the gap counter is exact. -/
theorem AllApplied.counted {symbol : Symbol} {exchange : Exchange} {ticks : List NormalizedTick}
    (applied : AllApplied symbol exchange ticks) (own : ∀ tick ∈ ticks, tick.symbol = symbol) :
    ∃ book results, (OrderBook.new symbol exchange).applyAll ticks = some (book, results) ∧
      book.sequenceGaps = UInt64.ofNat (gapCount (ticks.map NormalizedTick.sequence)) := by
  obtain ⟨book, results, run, takes⟩ := applied
  obtain ⟨book', results', run', length, counted⟩ := OrderBook.applyAll_counted
    (OrderBook.new_shows symbol exchange) (OrderBook.new_counted symbol exchange) ticks own
  cases run.symm.trans run'
  refine ⟨book, results, run, ?_⟩
  have all := OrderBook.taken_of_all_take length fun result member => decide_eq_true (takes result member)
  rw [List.nil_append, all] at counted
  exact counted.gaps

/-- On a stream with nothing missed and every tick applied, no gap is reported
exactly when every late number is followed by at most its successor. -/
theorem no_gap_reported_iff_late_steps_by_one (symbol : Symbol) (exchange : Exchange)
    (ticks : List NormalizedTick) (own : ∀ tick ∈ ticks, tick.symbol = symbol)
    (applied : AllApplied symbol exchange ticks)
    (replays : OnlyReplays (ticks.map NormalizedTick.sequence)) :
    NoGapReported symbol exchange ticks ↔
      LateStepsByOne (ticks.map NormalizedTick.sequence) := by
  have counted (early : List NormalizedTick) (within : early <+: ticks) :=
    (applied.earlier within).counted fun tick member => own tick (within.subset member)
  rw [← gapCount_eq_zero_iff_of_replays replays]
  constructor
  · intro calm
    apply gapCount_eq_zero_of_prefixes
    intro early within
    obtain ⟨shorter, before, rfl⟩ := List.prefix_map_iff.mp within
    obtain ⟨book, results, run, gaps⟩ := counted shorter before
    obtain ⟨book', results', run', quiet⟩ := calm shorter before
    cases run.symm.trans run'
    exact gaps.symm.trans quiet
  · intro none early before
    obtain ⟨book, results, run, gaps⟩ := counted early before
    refine ⟨book, results, run, ?_⟩
    rw [gaps, gapCount_eq_zero_of_prefix (before.map NormalizedTick.sequence) none]
    rfl

/-- A range delivered twice, in order. -/
theorem replayed_range_reports_no_gap :
    NoGapReported (.fromBytes []) .binance
        [bidTick 100 1 1, bidTick 100 1 2, bidTick 100 2 1, bidTick 100 2 2, bidTick 100 1 3] ↔
      LateStepsByOne [1, 2, 1, 2, 3] :=
  no_gap_reported_iff_late_steps_by_one _ _ _ (by decide) ⟨_, _, rfl, by decide⟩
    (show OnlyReplays [1, 2, 1, 2, 3] by simp [OnlyReplays, Fin.forall_fin_succ])

/-- Every number from 1 to 4 is delivered. The late 1 makes the tracker forget
the 3, so the 4 counts as a gap. -/
theorem late_tick_makes_the_next_one_a_gap :
    AllApplied (.fromBytes []) .binance
        [bidTick 100 1 1, bidTick 100 1 2, bidTick 100 1 3, bidTick 100 1 1, bidTick 100 1 4] ∧
      OnlyReplays [1, 2, 3, 1, 4] ∧
      ¬ NoGapReported (.fromBytes []) .binance
        [bidTick 100 1 1, bidTick 100 1 2, bidTick 100 1 3, bidTick 100 1 1, bidTick 100 1 4] := by
  refine ⟨⟨_, _, rfl, by decide⟩, by simp [OnlyReplays, Fin.forall_fin_succ], fun calm => ?_⟩
  obtain ⟨book, results, run, quiet⟩ := calm _ (List.prefix_refl _)
  have gaps : ((OrderBook.new (.fromBytes []) .binance).applyAll
      [bidTick 100 1 1, bidTick 100 1 2, bidTick 100 1 3, bidTick 100 1 1, bidTick 100 1 4]).map
        (fun answer => answer.1.sequenceGaps) = some 1 := by decide
  rw [run, Option.map_some, quiet] at gaps
  exact absurd gaps (by decide)

end FeedHandler
