import FeedHandler.RingGauge
import FeedHandler.TickCounter

namespace FeedHandler

open Interleaving BoundedFifo

variable {R : RingSize} {book : OrderBook}

namespace RingState

/-- The calls of `try_publish` that returned false. -/
def refused (s : RingState R) : List (NormalizedTick × Bool) :=
  s.published.filter fun offer => !offer.2

/-- The calls of `try_publish` that returned true. -/
def taken (s : RingState R) : List (NormalizedTick × Bool) := s.published.filter Prod.snd

theorem length_published (s : RingState R) :
    s.published.length = s.taken.length + s.refused.length := by
  have split := List.length_eq_countP_add_countP (Prod.snd : NormalizedTick × Bool → Bool)
    (l := s.published)
  rw [List.countP_eq_length_filter, List.countP_eq_length_filter] at split
  refine split.trans (congrArg _ (congrArg List.length (List.filter_congr fun offer _ => ?_)))
  cases offer.2 <;> rfl

end RingState

/-- The two words the producer keeps count the two kinds of its finished calls. -/
structure Counted (s : RingState R) : Prop where
  producer : s.ring.producer = .ofNat s.taken.length
  dropped : s.ring.dropped = .ofNat s.refused.length

namespace Counted

variable {s : RingState R}

theorem producerStep (counted : Counted s) (shake : Handshake s) : Counted s.producerStep.1 := by
  obtain ⟨ring, publish, consume, stored, released, published, consumed⟩ := s
  obtain ⟨producer, dropped⟩ := counted
  have producing := shake.producing
  cases publish with
  | idle | returned _ | loadCursor _ | writeTick _ _ | storeSequence _ _ =>
    exact ⟨producer, dropped⟩
  | loadSequence tick prod =>
    simp only [RingState.producerStep]
    split <;> exact ⟨producer, dropped⟩
  | countDrop tick =>
    refine ⟨producer.trans ?_, ?_⟩
    · simp only [RingState.producerStep, RingState.taken, List.filter_append, List.length_append]
      rfl
    · simp only [RingState.producerStep, RingState.refused, List.filter_append,
        List.length_append]
      exact (congrArg (· + 1) dropped).trans (ofNat_add_one _)
  | storeCursor tick prod =>
    obtain ⟨before, _, cursor, same⟩ := producing
    refine ⟨?_, dropped.trans ?_⟩
    · simp only [RingState.producerStep, RingState.taken, List.filter_append, List.length_append]
      rw [same, ← cursor]
      exact (congrArg (· + 1) producer).trans (ofNat_add_one _)
    · simp only [RingState.producerStep, RingState.refused, List.filter_append,
        List.length_append]
      rfl

theorem step (counted : Counted s) (shake : Handshake s) (action : RingAction) :
    Counted ((ringMachine R).step s action).1 := by
  obtain ⟨producer, dropped⟩ := counted
  cases action with
  | publish tick =>
    simp only [ringMachine, RingState.beginPublish]
    split <;> exact ⟨producer, dropped⟩
  | producer => exact producerStep ⟨producer, dropped⟩ shake
  | consume =>
    simp only [ringMachine, RingState.beginConsume]
    split <;> exact ⟨producer, dropped⟩
  | consumer =>
    simp only [ringMachine, RingState.consumerStep]
    split <;> (try split) <;> exact ⟨producer, dropped⟩

end Counted

theorem reach_counted {history : List (Op NormalizedTick)} {s : RingState R}
    (reach : (ringMachine R).Reach history s) : Counted s := by
  induction reach with
  | start => exact ⟨rfl, rfl⟩
  | next previous action ih => exact ih.step (reach_handshake previous).1 action

theorem Counted.balance {s : RingState R} (counted : Counted s) (shake : Handshake s) :
    UInt64.ofNat s.returned.length + (s.ring.producer - s.ring.consumer) + s.ring.dropped =
      .ofNat s.published.length := by
  have pending : s.ring.consumer + (s.ring.producer - s.ring.consumer) = s.ring.producer :=
    (UInt64.add_comm _ _).trans (UInt64.sub_add_cancel _ _)
  rw [← shake.consumer_eq.1, pending, counted.producer, counted.dropped, s.length_published]
  exact (UInt64.ofNat_add _ _).symm

/-- At every moment each finished offer is counted once: as a tick returned by
the ring, as pending in it, or as dropped. Between two calls of an engine the
first of these is its own tick counter, unless a single drain was too long. -/
theorem every_offer_is_accounted_for (R : RingSize) (book : OrderBook)
    (actions : List EngineAction) :
    ((engineMachine R book).run actions).ring.ring.dropped =
        .ofNat ((engineMachine R book).run actions).ring.refused.length ∧
      UInt64.ofNat ((engineMachine R book).run actions).ring.returned.length +
            (((engineMachine R book).run actions).ring.ring.producer -
              ((engineMachine R book).run actions).ring.ring.consumer) +
          ((engineMachine R book).run actions).ring.ring.dropped =
        .ofNat ((engineMachine R book).run actions).ring.published.length ∧
      (ShortDrains R book actions → ((engineMachine R book).run actions).phase.ready = true →
        ((engineMachine R book).run actions).engine.ticks +
            (((engineMachine R book).run actions).ring.ring.producer -
              ((engineMachine R book).run actions).ring.ring.consumer) +
          ((engineMachine R book).run actions).ring.ring.dropped =
        .ofNat ((engineMachine R book).run actions).ring.published.length) := by
  have reach := engine_runs_ring (Machine.reach_run (M := engineMachine R book) actions)
  have counted := reach_counted reach
  have balance := counted.balance (reach_handshake reach).1
  refine ⟨counted.dropped, balance, fun short free => ?_⟩
  have tally := (Tally.of_ready free).mp short.tally
  rw [tally]
  exact balance

/-- Three offers for two slots, a drain, and a fourth offer that stays. -/
def refusedAndPending : List EngineAction :=
  publishCall (bidTick 100 1 1) ++ publishCall (bidTick 101 1 2) ++
    publishCall (bidTick 102 1 3) ++ .runBatch :: engineTurns (List.replicate 14 (0, 0)) ++
    publishCall (bidTick 103 1 4)

/-- Two ticks are counted, one is pending and one is dropped. -/
theorem four_offers_are_accounted_for :
    ∃ s, s = (engineMachine .loom (.new (.fromBytes []) .binance)).run refusedAndPending ∧
      s.engine.ticks + (s.ring.ring.producer - s.ring.ring.consumer) + s.ring.ring.dropped =
        .ofNat s.ring.published.length ∧
      s.engine.ticks = 2 ∧ s.ring.ring.dropped = 1 ∧ s.ring.published.length = 4 :=
  ⟨_, rfl, (every_offer_is_accounted_for .loom (.new (.fromBytes []) .binance)
      refusedAndPending).2.2 (shortDrains_of_length (by decide)) (by decide +kernel),
    by decide +kernel, by decide +kernel, by decide +kernel⟩

end FeedHandler
