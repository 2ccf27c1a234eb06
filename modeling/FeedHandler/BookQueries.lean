import FeedHandler.OrderBook

namespace FeedHandler

/-- `u64::saturating_sub`. -/
def saturatingSub (a b : UInt64) : UInt64 := if b ≤ a then a - b else 0

theorem saturatingSub_toNat (a b : UInt64) : (saturatingSub a b).toNat = a.toNat - b.toNat := by
  unfold saturatingSub
  split
  · rename_i fits
    exact UInt64.toNat_sub_of_le a b fits
  · rename_i short
    have below : a.toNat < b.toNat := UInt64.lt_iff_toNat_lt.mp (UInt64.not_le.mp short)
    rw [UInt64.toNat_zero, Nat.sub_eq_zero_of_le below.le]

namespace OrderBook

def spread (book : OrderBook) : Option UInt64 := do
  let bid := (← book.bids.best).price.raw
  let ask := (← book.asks.best).price.raw
  return saturatingSub ask bid

/-- True when the best bid trades through the best ask. -/
def isCrossed (book : OrderBook) : Bool :=
  match book.bids.best, book.asks.best with
  | some bid, some ask => bid.price.raw > ask.price.raw
  | _, _ => false

/-- True if nothing has updated this book within `thresholdNs` of `nowNs`. -/
def isStale (book : OrderBook) (nowNs thresholdNs : UInt64) : Bool :=
  saturatingSub nowNs book.lastUpdateNs > thresholdNs

/-- Feeds the top `n` levels per side to `f`, whose captured state is `σ`. -/
def forChecksum {σ : Type} (book : OrderBook) (n : Nat) (f : σ → Side → Price → Qty → σ)
    (state : σ) : σ :=
  let state := (book.bids.levels.toList.take (min n book.bids.count)).foldl
    (fun state lvl => f state .bid lvl.price lvl.qty) state
  (book.asks.levels.toList.take (min n book.asks.count)).foldl
    (fun state lvl => f state .ask lvl.price lvl.qty) state

end OrderBook

/-- `emitted` is the top of one side: its first `min n count` tracked slots,
strictly best first, each better than every tracked level left out. -/
structure BookSide.TopOf (side : BookSide) (descending : Bool) (n : Nat) (emitted : List Level) :
    Prop where
  length : emitted.length = min n side.count
  slots : emitted <+: side.visible
  sorted : emitted.Pairwise fun a b => Better descending a.price b.price
  best : ∀ level ∈ emitted, ∀ other ∈ side.visible, other ∉ emitted →
    Better descending level.price other.price

namespace BookSide.Shows

variable {descending : Bool} {side : BookSide} {depth : Depth descending}

/-- Slot zero speaks for the side. -/
theorem best_cases (shown : side.Shows depth) :
    (side.best = none ∧ side.visible = []) ∨
      ∃ top ∈ side.visible, side.best = some top ∧
        ∀ level ∈ side.visible, ¬ Better descending level.price top.price := by
  rw [best_eq_head]
  cases levels : side.visible with
  | nil => exact Or.inl ⟨rfl, rfl⟩
  | cons top rest =>
    have sorted := shown.visible_sorted
    rw [levels, List.pairwise_cons] at sorted
    refine Or.inr ⟨top, List.mem_cons_self, rfl, fun level member beats => ?_⟩
    rcases List.mem_cons.mp member with same | later
    · rw [same] at beats
      exact irrefl_of _ _ beats
    · exact asymm_of _ beats (sorted.1 level later)

theorem take_top (shown : side.Shows depth) (n : Nat) :
    side.TopOf descending n (side.visible.take n) where
  length := by rw [List.length_take, length_visible shown.inBounds]
  slots := List.take_prefix n side.visible
  sorted := shown.visible_sorted.sublist (List.take_sublist n side.visible)
  best level member other tracked absent := by
    have sorted := shown.visible_sorted
    rw [← List.take_append_drop n side.visible, List.pairwise_append] at sorted
    rw [← List.take_append_drop n side.visible, List.mem_append] at tracked
    exact sorted.2.2 level member other (tracked.resolve_left absent)

end BookSide.Shows

/-- The queries, answered over every pair of tracked levels. -/
structure OrderBook.AnswersForAll (book : OrderBook) : Prop where
  crossed : book.isCrossed = true ↔
    ∃ bid ∈ book.bids.visible, ∃ ask ∈ book.asks.visible, ask.price.raw < bid.price.raw
  noSpread : book.spread = none ↔ book.bids.visible = [] ∨ book.asks.visible = []
  spread : ∀ width, book.spread = some width ↔
    (∃ bid ∈ book.bids.visible, ∃ ask ∈ book.asks.visible,
      width.toNat = ask.price.raw.toNat - bid.price.raw.toNat) ∧
    ∀ bid ∈ book.bids.visible, ∀ ask ∈ book.asks.visible,
      width.toNat ≤ ask.price.raw.toNat - bid.price.raw.toNat
  touching : book.isCrossed = false →
    (book.spread = some 0 ↔
      ∃ bid ∈ book.bids.visible, ∃ ask ∈ book.asks.visible, bid.price = ask.price)
  checksum : ∀ n, ∃ bids asks, book.bids.TopOf true n bids ∧ book.asks.TopOf false n asks ∧
    ∀ (σ : Type) (f : σ → Side → Price → Qty → σ) (state : σ),
      book.forChecksum n f state =
        (bids.map (Prod.mk Side.bid) ++ asks.map (Prod.mk Side.ask)).foldl
          (fun state call => f state call.1 call.2.price call.2.qty) state

namespace OrderBook

variable {book : OrderBook}

/-- Either a side is empty and both queries say so, or they read one best pair
that bounds every other. -/
theorem Sound.best_pair (sound : book.Sound) :
    ((book.bids.visible = [] ∨ book.asks.visible = []) ∧ book.spread = none ∧
      book.isCrossed = false) ∨
    ∃ bid ∈ book.bids.visible, ∃ ask ∈ book.asks.visible,
      book.spread = some (saturatingSub ask.price.raw bid.price.raw) ∧
      book.isCrossed = decide (bid.price.raw > ask.price.raw) ∧
      (∀ other ∈ book.bids.visible, other.price.raw.toNat ≤ bid.price.raw.toNat) ∧
      ∀ other ∈ book.asks.visible, ask.price.raw.toNat ≤ other.price.raw.toNat := by
  obtain ⟨depths, shown⟩ := sound
  have bids : book.bids.Shows (depths .bid) := shown .bid
  have asks : book.asks.Shows (depths .ask) := shown .ask
  rcases bids.best_cases with ⟨noBid, empty⟩ | ⟨bid, tracked, bestBid, highest⟩
  · left
    simp only [empty, true_or, OrderBook.spread, isCrossed, noBid, Option.bind_eq_bind,
      Option.bind_none, true_and]
  rcases asks.best_cases with ⟨noAsk, empty⟩ | ⟨ask, offered, bestAsk, lowest⟩
  · left
    simp only [empty, or_true, OrderBook.spread, isCrossed, bestBid, noAsk, Option.bind_eq_bind,
      Option.bind_none, Option.bind_some, true_and]
  · right
    refine ⟨bid, tracked, ask, offered, ?_, ?_, fun other member => ?_, fun other member => ?_⟩
    · simp only [OrderBook.spread, bestBid, bestAsk, Option.bind_eq_bind, Option.bind_some,
        Option.pure_def]
    · simp only [isCrossed, bestBid, bestAsk]
    · exact UInt64.le_iff_toNat_le.mp (UInt64.not_lt.mp (highest other member))
    · exact UInt64.le_iff_toNat_le.mp (UInt64.not_lt.mp (lowest other member))

theorem Sound.crossed_iff (sound : book.Sound) : book.isCrossed = true ↔
    ∃ bid ∈ book.bids.visible, ∃ ask ∈ book.asks.visible, ask.price.raw < bid.price.raw := by
  rcases sound.best_pair with ⟨empty, _, calm⟩ |
    ⟨bid, tracked, ask, offered, _, crossed, highest, lowest⟩
  · rw [calm]
    refine iff_of_false Bool.false_ne_true ?_
    rintro ⟨bid, tracked, ask, offered, _⟩
    rcases empty with none | none
    · exact List.ne_nil_of_mem tracked none
    · exact List.ne_nil_of_mem offered none
  · rw [crossed, decide_eq_true_eq]
    constructor
    · exact fun order => ⟨bid, tracked, ask, offered, order⟩
    · rintro ⟨other, member, rival, listed, order⟩
      have above := highest other member
      have below := lowest rival listed
      rw [UInt64.lt_iff_toNat_lt] at order
      rw [gt_iff_lt, UInt64.lt_iff_toNat_lt]
      omega

theorem Sound.spread_none_iff (sound : book.Sound) :
    book.spread = none ↔ book.bids.visible = [] ∨ book.asks.visible = [] := by
  rcases sound.best_pair with ⟨empty, none, _⟩ | ⟨bid, tracked, ask, offered, spread, _⟩
  · exact iff_of_true none empty
  · rw [spread]
    refine iff_of_false (nomatch ·) ?_
    rintro (none | none)
    · exact List.ne_nil_of_mem tracked none
    · exact List.ne_nil_of_mem offered none

/-- The best pair is the closest pair. -/
theorem Sound.spread_iff (sound : book.Sound) (width : UInt64) : book.spread = some width ↔
    (∃ bid ∈ book.bids.visible, ∃ ask ∈ book.asks.visible,
      width.toNat = ask.price.raw.toNat - bid.price.raw.toNat) ∧
    ∀ bid ∈ book.bids.visible, ∀ ask ∈ book.asks.visible,
      width.toNat ≤ ask.price.raw.toNat - bid.price.raw.toNat := by
  rcases sound.best_pair with ⟨empty, none, _⟩ |
    ⟨bid, tracked, ask, offered, spread, _, highest, lowest⟩
  · rw [none]
    refine iff_of_false (nomatch ·) ?_
    rintro ⟨⟨bid, tracked, ask, offered, _⟩, _⟩
    rcases empty with none | none
    · exact List.ne_nil_of_mem tracked none
    · exact List.ne_nil_of_mem offered none
  · rw [spread, Option.some.injEq, ← UInt64.toNat_inj, saturatingSub_toNat]
    constructor
    · rintro least
      refine ⟨⟨bid, tracked, ask, offered, least.symm⟩, fun other member rival listed => ?_⟩
      have above := highest other member
      have below := lowest rival listed
      omega
    · rintro ⟨⟨other, member, rival, listed, reached⟩, least⟩
      have above := highest other member
      have below := lowest rival listed
      have bound := least bid tracked ask offered
      omega

/-- On a book that is not crossed the clamp is idle. -/
theorem Sound.spread_zero_iff (sound : book.Sound) (calm : book.isCrossed = false) :
    book.spread = some 0 ↔
      ∃ bid ∈ book.bids.visible, ∃ ask ∈ book.asks.visible, bid.price = ask.price := by
  have apart : ∀ bid ∈ book.bids.visible, ∀ ask ∈ book.asks.visible,
      bid.price.raw.toNat ≤ ask.price.raw.toNat := by
    intro bid tracked ask offered
    by_contra order
    have crossed := sound.crossed_iff.mpr ⟨bid, tracked, ask, offered,
      UInt64.lt_iff_toNat_lt.mpr (Nat.lt_of_not_le order)⟩
    exact Bool.false_ne_true (calm.symm.trans crossed)
  rw [sound.spread_iff, UInt64.toNat_zero]
  constructor
  · rintro ⟨⟨bid, tracked, ask, offered, touch⟩, _⟩
    have bound := apart bid tracked ask offered
    exact ⟨bid, tracked, ask, offered, Price.ext_raw (UInt64.toNat_inj.mp (by omega))⟩
  · rintro ⟨bid, tracked, ask, offered, same⟩
    refine ⟨⟨bid, tracked, ask, offered, ?_⟩, fun _ _ _ _ => Nat.zero_le _⟩
    rw [same, Nat.sub_self]

theorem forChecksum_eq {σ : Type} (book : OrderBook) (n : Nat) (f : σ → Side → Price → Qty → σ)
    (state : σ) :
    book.forChecksum n f state =
      ((book.bids.visible.take n).map (Prod.mk Side.bid) ++
        (book.asks.visible.take n).map (Prod.mk Side.ask)).foldl
          (fun state call => f state call.1 call.2.price call.2.qty) state := by
  rw [List.foldl_append, List.foldl_map, List.foldl_map, BookSide.visible, BookSide.visible,
    List.take_take, List.take_take]
  rfl

theorem Sound.answersForAll (sound : book.Sound) : book.AnswersForAll where
  crossed := sound.crossed_iff
  noSpread := sound.spread_none_iff
  spread := sound.spread_iff
  touching := sound.spread_zero_iff
  checksum n := by
    obtain ⟨depths, shown⟩ := sound
    have bids : book.bids.Shows (depths .bid) := shown .bid
    have asks : book.asks.Shows (depths .ask) := shown .ask
    exact ⟨_, _, bids.take_top n, asks.take_top n, fun _ f state => book.forChecksum_eq n f state⟩

end OrderBook

/-- On every book that any ticks build, the queries that look at slot zero or
at a prefix answer for all tracked levels. -/
theorem queries_answer_for_all_levels (symbol : Symbol) (exchange : Exchange)
    (ticks : List NormalizedTick) :
    ∃ book results, (OrderBook.new symbol exchange).applyAll ticks = some (book, results) ∧
      book.AnswersForAll := by
  obtain ⟨book, results, run, sound⟩ := (OrderBook.new_sound symbol exchange).applyAll ticks
  exact ⟨book, results, run, sound.answersForAll⟩

end FeedHandler
