import FeedHandler.RingHandshake

namespace FeedHandler

open Interleaving BoundedFifo

variable {R : RingSize}

namespace RingState

variable {s : RingState R}

theorem beginPublish_returned (tick : NormalizedTick) :
    (s.beginPublish tick).returned = s.returned := by
  unfold beginPublish
  split <;> rfl

theorem beginPublish_consume (tick : NormalizedTick) :
    (s.beginPublish tick).consume = s.consume := by
  unfold beginPublish
  split <;> rfl

theorem producerStep_consumed : s.producerStep.1.consumed = s.consumed := by
  unfold producerStep
  split <;> (try split) <;> rfl

theorem producerStep_consume : s.producerStep.1.consume = s.consume := by
  unfold producerStep
  split <;> (try split) <;> rfl

theorem beginConsume_eq (free : s.consume.ready) : s.beginConsume = { s with consume := .loadCursor } :=
  if_pos free

theorem consumerStep_stored : s.consumerStep.1.stored = s.stored := by
  unfold consumerStep
  split <;> (try split) <;> rfl

theorem consumerStep_publish : s.consumerStep.1.publish = s.publish := by
  unfold consumerStep
  split <;> (try split) <;> rfl

/-- The ticks that are stored and not yet returned. -/
def unreturned (s : RingState R) : Nat := s.stored.length - s.returned.length

end RingState

/-- How far into `try_consume` the consumer is. -/
def Consume.done : Consume → Nat
  | .idle | .returned _ | .loadCursor => 0
  | .loadSequence _ => 1
  | .readTick _ => 2
  | .storeSequence _ _ => 3
  | .storeCursor _ _ => 4

namespace Handshake

variable {s : RingState R}

/-- What one step inside `try_consume` can mean to its caller: it goes on, finds
everything returned, or returns one more tick. -/
theorem consumerStep_cases (shake : Handshake s) (busy : s.consume.ready = false) :
    (s.consumerStep.1.consume.ready = false ∧
        s.consumerStep.1.consume.done = s.consume.done + 1 ∧
        s.consumerStep.1.returned = s.returned) ∨
      (s.consumerStep.1.consume = .returned none ∧ s.consume.done = 1 ∧
        s.consumerStep.1.returned = s.returned ∧ s.returned = s.stored) ∨
      ∃ tick, s.consumerStep.1.consume = .returned (some tick) ∧ s.consume.done = 4 ∧
        s.consumerStep.1.returned = s.returned ++ [tick] := by
  obtain ⟨ring, publish, consume, stored, released, published, consumed⟩ := s
  obtain ⟨slots, _, consuming⟩ := shake
  dsimp only at slots consuming busy
  cases consume with
  | idle | returned _ => cases busy
  | loadCursor | readTick _ | storeSequence _ _ => exact .inl ⟨rfl, rfl, rfl⟩
  | loadSequence cons =>
    obtain ⟨_, answers, rfl⟩ := consuming
    simp only [RingState.consumerStep, ofNat_add_one]
    split
    · rename_i failed
      have all := Nat.not_lt.mp (mt slots.consumer_check.mpr failed)
      refine .inr (.inl ⟨rfl, rfl, ?_, answers.trans (List.take_of_length_le all)⟩)
      exact (reduceOption_concat _ _).trans (List.append_nil _)
    · exact .inl ⟨rfl, rfl, rfl⟩
  | storeCursor cons tick => exact .inr (.inr ⟨tick, rfl, rfl, reduceOption_concat _ _⟩)

/-- A consumer past its check has a tick to return. -/
theorem done_lt (shake : Handshake s) : s.consume.done < 6 * s.unreturned + 2 := by
  have consuming := shake.consuming
  have bound := shake.slots.released_le
  unfold RingState.unreturned
  cases stage : s.consume with
  | idle | returned _ | loadCursor | loadSequence _ =>
    rw [Consume.done]
    omega
  | readTick cons =>
    rw [stage] at consuming
    obtain ⟨_, answers, _, ready⟩ := consuming
    rw [answers, List.length_take, Consume.done]
    omega
  | storeSequence cons tick =>
    rw [stage] at consuming
    obtain ⟨_, answers, _, due⟩ := consuming
    have ready := (List.getElem?_eq_some_iff.mp due).1
    rw [answers, List.length_take, Consume.done]
    omega
  | storeCursor cons tick =>
    rw [stage] at consuming
    obtain ⟨c, _, _, answers, _, due⟩ := consuming
    have ready := (List.getElem?_eq_some_iff.mp due).1
    rw [answers, List.length_take, Consume.done]
    omega

theorem length_returned (shake : Handshake s) (free : s.consume.ready = true) :
    s.returned.length = s.released := by
  rw [(shake.consumer_settled free).2, List.length_take]
  exact Nat.min_eq_left shake.slots.released_le

end Handshake

end FeedHandler
