import FeedHandler.BookQueries
import FeedHandler.DepthTrust
import FeedHandler.SideHistory

namespace FeedHandler

open RankedMap

/-- What the exchange holds on one side by its feed since the last batch start,
without a cap on the number of levels. -/
noncomputable def exchangeSide (symbol : Symbol) (s : Side) (ticks : List NormalizedTick) :
    Price →₀ Qty :=
  fullDepth (batchDeltas (ownTicks symbol s ticks))

/-- How many levels of a side's prefix the answers of the last batch give up. -/
def lostDepth (symbol : Symbol) (s : Side) (ticks : List NormalizedTick)
    (results : List DeltaResult) : Nat :=
  removedAfterLoss ((ownResults symbol s ticks results).drop (batchFrom (ownTicks symbol s ticks)))

/-- What the tracked levels of a side say about the full one. -/
structure Speaks (side : BookSide) (descending : Bool) (truth : Price →₀ Qty) (lost : Nat) :
    Prop where
  agrees : ∀ level ∈ side.visible, level.price ∈ truth.support ∧ truth level.price = level.qty
  leads : lost < maxLevels → ∀ price ∈ truth.support,
    ∃ level ∈ side.visible, ¬ Better descending price level.price
  listed : ∀ n, n + lost ≤ maxLevels →
    (side.visible.take n).map Level.entry = (listing (Better descending) truth).take n

theorem Speaks.of_trusts {descending : Bool} {side : BookSide} {depth : Depth descending}
    {truth : Price →₀ Qty} {results : List DeltaResult} (shown : side.Shows depth)
    (trust : Trusts depth truth results) :
    Speaks side descending truth (removedAfterLoss results) := by
  have shape := shown.lists.eq_listing
  have prefixes : ∀ n, n + removedAfterLoss results ≤ maxLevels →
      (side.visible.take n).map Level.entry = (listing (Better descending) truth).take n := by
    intro n room
    have cut := congrArg (List.take n) trust.listing_take
    rw [List.take_take, List.take_take, Nat.min_eq_left (by omega)] at cut
    rw [← cut, ← shape, List.map_take]
  refine ⟨fun level member => ?_, fun fresh price present => ?_, prefixes⟩
  · obtain ⟨live, held⟩ := (shown.lists.mem_iff level.price level.qty).mp
      (List.mem_map.mpr ⟨level, member, rfl⟩)
    have same := (trust.agrees level.price (held ▸ live)).trans held
    exact ⟨Finsupp.mem_support_iff.mpr (same ▸ live), same⟩
  · have lists : Listing (Better descending) truth _ := listing_spec truth
    have first := congrArg List.head? (prefixes 1 (by omega))
    rw [List.head?_take, if_neg Nat.one_ne_zero, List.head?_map, List.head?_take,
      if_neg Nat.one_ne_zero] at first
    cases top : side.visible.head? with
    | none =>
      rw [top, Option.map_none, eq_comm, List.head?_eq_none_iff] at first
      obtain ⟨_, listed⟩ := lists.mem_support.mp present
      rw [first] at listed
      cases listed
    | some level =>
      rw [top, Option.map_some] at first
      obtain ⟨rest, split⟩ := List.head?_eq_some_iff.mp top
      exact ⟨level, split ▸ List.mem_cons_self, lists.head_best first.symm present⟩

/-- The queries of a capped book, answered over the full one. -/
structure AnswersForExchange (book : OrderBook) (bids asks : Price →₀ Qty)
    (lostBids lostAsks : Nat) : Prop where
  alarm : book.isCrossed = true → ∃ bid ∈ bids.support, ∃ ask ∈ asks.support, ask.raw < bid.raw
  crossed : lostBids < maxLevels → lostAsks < maxLevels → (book.isCrossed = true ↔
    ∃ bid ∈ bids.support, ∃ ask ∈ asks.support, ask.raw < bid.raw)
  noSpread : lostBids < maxLevels → lostAsks < maxLevels →
    (book.spread = none ↔ bids = 0 ∨ asks = 0)
  spread : lostBids < maxLevels → lostAsks < maxLevels → ∀ width, (book.spread = some width ↔
    (∃ bid ∈ bids.support, ∃ ask ∈ asks.support,
      width.toNat = ask.raw.toNat - bid.raw.toNat) ∧
    ∀ bid ∈ bids.support, ∀ ask ∈ asks.support, width.toNat ≤ ask.raw.toNat - bid.raw.toNat)
  checksum : ∀ n, n + lostBids ≤ maxLevels → n + lostAsks ≤ maxLevels →
    ∀ (σ : Type) (f : σ → Side → Price → Qty → σ) (state : σ),
      book.forChecksum n f state =
        (((listing (Better true) bids).take n).map (Prod.mk Side.bid) ++
          ((listing (Better false) asks).take n).map (Prod.mk Side.ask)).foldl
            (fun state call => f state call.1 call.2.1 call.2.2) state

section Transfer

variable {book : OrderBook} {bids asks : Price →₀ Qty} {lostBids lostAsks : Nat}

theorem Speaks.bid_below (speaks : Speaks book.bids true bids lostBids)
    (fresh : lostBids < maxLevels) {bid : Price} (present : bid ∈ bids.support) :
    ∃ level ∈ book.bids.visible, bid.raw.toNat ≤ level.price.raw.toNat := by
  obtain ⟨level, member, unbeaten⟩ := speaks.leads fresh bid present
  exact ⟨level, member, UInt64.le_iff_toNat_le.mp (UInt64.not_lt.mp unbeaten)⟩

theorem Speaks.ask_above (speaks : Speaks book.asks false asks lostAsks)
    (fresh : lostAsks < maxLevels) {ask : Price} (present : ask ∈ asks.support) :
    ∃ level ∈ book.asks.visible, level.price.raw.toNat ≤ ask.raw.toNat := by
  obtain ⟨level, member, unbeaten⟩ := speaks.leads fresh ask present
  exact ⟨level, member, UInt64.le_iff_toNat_le.mp (UInt64.not_lt.mp unbeaten)⟩

theorem Speaks.visible_nil_iff {side : BookSide} {descending : Bool} {truth : Price →₀ Qty}
    {lost : Nat} (speaks : Speaks side descending truth lost) (fresh : lost < maxLevels) :
    side.visible = [] ↔ truth = 0 := by
  rw [← Finsupp.support_eq_empty, Finset.eq_empty_iff_forall_notMem,
    List.eq_nil_iff_forall_not_mem]
  constructor
  · intro none price present
    obtain ⟨level, member, _⟩ := speaks.leads fresh price present
    exact none level member
  · exact fun none level member => none level.price (speaks.agrees level member).1

theorem AnswersForExchange.of_speaks (sound : book.Sound)
    (bid : Speaks book.bids true bids lostBids) (ask : Speaks book.asks false asks lostAsks) :
    AnswersForExchange book bids asks lostBids lostAsks := by
  have alarm : book.isCrossed = true →
      ∃ bid ∈ bids.support, ∃ ask ∈ asks.support, ask.raw < bid.raw := by
    intro crossed
    obtain ⟨top, tracked, low, offered, order⟩ := sound.crossed_iff.mp crossed
    exact ⟨top.price, (bid.agrees top tracked).1, low.price, (ask.agrees low offered).1, order⟩
  refine ⟨alarm, fun freshBids freshAsks => ⟨alarm, ?_⟩, fun freshBids freshAsks => ?_,
    fun freshBids freshAsks width => ?_, fun n roomBids roomAsks σ f state => ?_⟩
  · rintro ⟨price, present, rival, listed, order⟩
    obtain ⟨top, tracked, above⟩ := bid.bid_below freshBids present
    obtain ⟨low, offered, below⟩ := ask.ask_above freshAsks listed
    refine sound.crossed_iff.mpr ⟨top, tracked, low, offered, ?_⟩
    rw [UInt64.lt_iff_toNat_lt] at order ⊢
    omega
  · rw [sound.spread_none_iff, bid.visible_nil_iff freshBids, ask.visible_nil_iff freshAsks]
  · rw [sound.spread_iff]
    constructor
    · rintro ⟨⟨top, tracked, low, offered, reached⟩, least⟩
      refine ⟨⟨top.price, (bid.agrees top tracked).1, low.price, (ask.agrees low offered).1,
        reached⟩, fun price present rival listed => ?_⟩
      obtain ⟨high, member, above⟩ := bid.bid_below freshBids present
      obtain ⟨deep, inside, below⟩ := ask.ask_above freshAsks listed
      have bound := least high member deep inside
      omega
    · rintro ⟨⟨price, present, rival, listed, reached⟩, least⟩
      obtain ⟨top, tracked, above⟩ := bid.bid_below freshBids present
      obtain ⟨low, offered, below⟩ := ask.ask_above freshAsks listed
      have bound := least top.price (bid.agrees top tracked).1 low.price (ask.agrees low offered).1
      refine ⟨⟨top, tracked, low, offered, by omega⟩, fun high member deep inside => ?_⟩
      exact least high.price (bid.agrees high member).1 deep.price (ask.agrees deep inside).1
  · rw [book.forChecksum_eq, ← bid.listed n roomBids, ← ask.listed n roomAsks]
    simp only [List.foldl_append, List.foldl_map, List.map_map]
    rfl

end Transfer

/-- As long as the answers of the last batch give up less than the whole prefix,
the queries of the capped book are those of the exchange's full book. A crossed
alarm is never false, however much was lost. -/
theorem queries_answer_for_the_exchange (symbol : Symbol) (exchange : Exchange)
    (ticks : List NormalizedTick) :
    ∃ book results, (OrderBook.new symbol exchange).applyAll ticks = some (book, results) ∧
      AnswersForExchange book (exchangeSide symbol .bid ticks) (exchangeSide symbol .ask ticks)
        (lostDepth symbol .bid ticks results) (lostDepth symbol .ask ticks results) := by
  obtain ⟨book, results, run, history⟩ := History.applyAll symbol exchange ticks
  have speaks (s : Side) : Speaks (book.side s) s.descending (exchangeSide symbol s ticks)
      (lostDepth symbol s ticks results) := by
    rw [lostDepth, history.answers s]
    exact .of_trusts (history.shows s) (.deltas _)
  have sound : book.Sound := ⟨_, history.shows⟩
  exact ⟨book, results, run, .of_speaks sound (speaks .bid) (speaks .ask)⟩

end FeedHandler
