import FeedHandler.DrainOrder
import FeedHandler.Resync

namespace FeedHandler

open Interleaving BoundedFifo

variable {R : RingSize}

/-- What the producer has offered, with the answer. An offer counts as soon as
its answer is settled. -/
def RingState.offers (s : RingState R) : List (NormalizedTick × Bool) :=
  s.published ++ s.publish.inFlight

/-- On a side whose offers were all taken, dropping the refused ones drops nothing. -/
theorem ownTicks_taken {symbol : Symbol} {s : Side} {offers : List (NormalizedTick × Bool)}
    (whole : ∀ offer ∈ offers, reaches symbol s offer.1 = true → offer.2 = true) :
    ownTicks symbol s (offers.filterMap fun offer => if offer.2 then some offer.1 else none) =
      ownTicks symbol s (offers.map Prod.fst) := by
  induction offers with
  | nil => rfl
  | cons offer rest ih =>
    have later := ih fun offer member => whole offer (List.mem_cons_of_mem _ member)
    obtain ⟨tick, ok⟩ := offer
    cases ok with
    | true =>
      simp only [ownTicks, List.filterMap_cons, if_true, List.map_cons, List.filter_cons] at later ⊢
      rw [later]
    | false =>
      have foreign : ¬ reaches symbol s tick = true := fun own =>
        Bool.false_ne_true (whole _ List.mem_cons_self own)
      have skipped : ownTicks symbol s (tick :: rest.map Prod.fst) =
          ownTicks symbol s (rest.map Prod.fst) := List.filter_cons_of_neg foreign
      exact later.trans skipped.symm

/-- Whatever the ring dropped before, and drops of other sides and symbols since:
on a side that has seen its snapshot ids change, once its own ticks are drained,
the book is the one of a ring that drops nothing. -/
theorem dropped_ticks_heal_at_the_next_snapshots (symbol : Symbol) (exchange : Exchange)
    (actions : List EngineAction) (s : Side) (early late : List (NormalizedTick × Bool))
    (split : ((engineMachine R (.new symbol exchange)).run actions).ring.offers = early ++ late)
    (whole : ∀ offer ∈ late, reaches symbol s offer.1 = true → offer.2 = true)
    (resyncs : Resyncs (ownTicks symbol s (late.map Prod.fst)))
    (drained : ownTicks symbol s ((engineMachine R (.new symbol exchange)).run actions).applied =
      ownTicks symbol s ((engineMachine R (.new symbol exchange)).run actions).ring.accepted) :
    ∃ lossless results,
      (OrderBook.new symbol exchange).applyAll
        (((engineMachine R (.new symbol exchange)).run actions).ring.offers.map Prod.fst) =
          some (lossless, results) ∧
      SameSide symbol s ((engineMachine R (.new symbol exchange)).run actions).engine.book
        lossless := by
  have reach := Machine.reach_run (M := engineMachine R (.new symbol exchange)) actions
  generalize (engineMachine R (.new symbol exchange)).run actions = state at *
  obtain ⟨answers, folded⟩ := (reach_drives reach).folded
  have taken : ownTicks symbol s state.applied =
      ownTicks symbol s (early.filterMap fun offer => if offer.2 then some offer.1 else none) ++
        ownTicks symbol s (late.map Prod.fst) := by
    rw [drained, RingState.accepted, ← RingState.offers, split, List.filterMap_append, ownTicks,
      List.filter_append]
    exact congrArg _ (ownTicks_taken whole)
  obtain ⟨book, answers', run, history⟩ := History.applyAll symbol exchange state.applied
  rw [folded] at run
  cases run
  obtain ⟨lossless, results, run, history'⟩ :=
    History.applyAll symbol exchange (state.ring.offers.map Prod.fst)
  refine ⟨lossless, results, run, history.sameSide history' ?_⟩
  have offered : ownTicks symbol s (state.ring.offers.map Prod.fst) =
      ownTicks symbol s (early.map Prod.fst) ++ ownTicks symbol s (late.map Prod.fst) := by
    rw [split, List.map_append]
    exact List.filter_append ..
  rw [taken, offered]
  exact .of_resyncs resyncs _ _

/-- A bid level of a snapshot. -/
def snapshotTick (price : UInt64) (id : UInt32) : NormalizedTick :=
  .new ⟨price⟩ ⟨1⟩ 0 0 0 (.fromBytes []) .binance .bid true id

def offerAll (ticks : List NormalizedTick) : List EngineAction :=
  ticks.flatMap fun tick => .publish tick :: List.replicate 6 .producer

def askTick (price qty seq : UInt64) : NormalizedTick :=
  { bidTick price qty seq with side := .ask }

/-- Three bids for the two slots, and after a drain the first levels of two
snapshots, with an ask for which there is no room. A last ask stays in the ring. -/
def droppedBidAndAsk : List EngineAction :=
  offerAll [bidTick 3 1 1, bidTick 2 1 2, bidTick 1 1 3] ++
    .runBatch :: List.replicate 14 (.engine 0 0) ++
    offerAll [snapshotTick 5 7, snapshotTick 6 8, askTick 9 1 4] ++
    .runBatch :: List.replicate 14 (.engine 0 0) ++ offerAll [askTick 9 1 5]

theorem dropped_bid_heals_despite_the_ask :
    ∃ lossless results,
      (OrderBook.new (.fromBytes []) .binance).applyAll
        (((engineMachine .loom (.new (.fromBytes []) .binance)).run
          droppedBidAndAsk).ring.offers.map Prod.fst) = some (lossless, results) ∧
      SameSide (.fromBytes []) .bid
        ((engineMachine .loom (.new (.fromBytes []) .binance)).run droppedBidAndAsk).engine.book
        lossless :=
  dropped_ticks_heal_at_the_next_snapshots (.fromBytes []) .binance droppedBidAndAsk .bid
    [(bidTick 3 1 1, true), (bidTick 2 1 2, true), (bidTick 1 1 3, false)]
    [(snapshotTick 5 7, true), (snapshotTick 6 8, true), (askTick 9 1 4, false),
      (askTick 9 1 5, true)]
    (by decide +kernel) (by decide)
    ⟨snapshotTick 5 7, by decide, snapshotTick 6 8, by decide, rfl, rfl, by decide⟩
    (by decide +kernel)

end FeedHandler
