import FeedHandler.RingCalls
import FeedHandler.General.Fairness

namespace FeedHandler

open Interleaving BoundedFifo

variable {R : RingSize} {ticks : List NormalizedTick}

/-- Two threads on one ring. The producer offers each tick until it is taken,
the consumer polls until it has seen as many. -/
structure SpinState (R : RingSize) where
  ring : RingState R
  unsent : List NormalizedTick
  seen : List NormalizedTick

inductive Party
  | producer
  | consumer
  deriving DecidableEq, Repr

namespace SpinState

def new (R : RingSize) (ticks : List NormalizedTick) : SpinState R where
  ring := .new R
  unsent := ticks
  seen := []

/-- The producer thread's next step. Its loop goes on to the next tick when
`try_publish` has returned true, and offers the same one again otherwise. -/
def producerTurn (s : SpinState R) : SpinState R × List (Op NormalizedTick) :=
  if s.ring.publish.ready then
    match s.unsent with
    | [] => (s, [])
    | tick :: _ => ({ s with ring := s.ring.beginPublish tick }, [])
  else
    let (ring, ops) := s.ring.producerStep
    match ring.publish with
    | .returned true => ({ s with ring, unsent := s.unsent.tail }, ops)
    | _ => ({ s with ring }, ops)

/-- The consumer thread's next step. -/
def consumerTurn (total : Nat) (s : SpinState R) : SpinState R × List (Op NormalizedTick) :=
  if s.ring.consume.ready then
    if s.seen.length < total then ({ s with ring := s.ring.beginConsume }, [])
    else (s, [])
  else
    let (ring, ops) := s.ring.consumerStep
    match ring.consume with
    | .returned (some tick) => ({ s with ring, seen := s.seen ++ [tick] }, ops)
    | _ => ({ s with ring }, ops)

/-- Both loops have ended. -/
structure Finished (total : Nat) (s : SpinState R) : Prop where
  unsent : s.unsent = []
  publish : s.ring.publish.ready = true
  seen : total ≤ s.seen.length
  consume : s.ring.consume.ready = true

/-- The ticks whose slot store is still to come. -/
def left (s : SpinState R) : List NormalizedTick :=
  match s.ring.publish with
  | .storeCursor _ _ => s.unsent.tail
  | _ => s.unsent

end SpinState

/-- The spinning threads, each taking its next step when it is scheduled. -/
def spinMachine (R : RingSize) (ticks : List NormalizedTick) :
    Machine (SpinState R) Party (Op NormalizedTick) where
  start := .new R ticks
  step s
    | .producer => s.producerTurn
    | .consumer => s.consumerTurn ticks.length

/-- The tick a call has brought along, until it is stored or refused. -/
def Publish.offered : Publish → Option NormalizedTick
  | .loadCursor tick | .loadSequence tick _ | .countDrop tick | .writeTick tick _
  | .storeSequence tick _ => some tick
  | .idle | .returned _ | .storeCursor _ _ => none

/-- The bookkeeping of the two loops against the ring. -/
structure Spinning (ticks : List NormalizedTick) (s : SpinState R) : Prop where
  split : s.ring.stored ++ s.left = ticks
  offers : ∀ tick ∈ s.ring.publish.offered, s.unsent.head? = some tick
  seen : s.seen = s.ring.returned
  asking : s.ring.consume.ready = false → s.seen.length < ticks.length

theorem spin_runs_ring {history : List (Op NormalizedTick)} {s : SpinState R}
    (reach : (spinMachine R ticks).Reach history s) : (ringMachine R).Reach history s.ring := by
  refine reach.project SpinState.ring rfl fun s action => ?_
  cases action with
  | producer =>
    simp only [spinMachine, SpinState.producerTurn]
    split
    · split
      · exact .inl ⟨rfl, rfl⟩
      · exact .inr ⟨.publish _, rfl⟩
    · split <;> exact .inr ⟨.producer, rfl⟩
  | consumer =>
    simp only [spinMachine, SpinState.consumerTurn]
    split
    · split
      · exact .inr ⟨.consume, rfl⟩
      · exact .inl ⟨rfl, rfl⟩
    · split <;> exact .inr ⟨.consumer, rfl⟩

namespace Spinning

variable {s : SpinState R}

theorem new (R : RingSize) (ticks : List NormalizedTick) : Spinning ticks (.new R ticks) where
  split := rfl
  offers _ member := nomatch member
  seen := rfl
  asking busy := nomatch busy

theorem producerTurn (spinning : Spinning ticks s) : Spinning ticks s.producerTurn.1 := by
  obtain ⟨⟨ring, publish, consume, stored, released, published, consumed⟩, unsent, seen⟩ := s
  obtain ⟨split, offers, seen, asking⟩ := spinning
  cases publish with
  | idle | returned _ =>
    cases unsent with
    | nil => exact ⟨split, offers, seen, asking⟩
    | cons tick rest => exact ⟨split, fun _ same => same, seen, asking⟩
  | loadCursor tick | writeTick tick _ => exact ⟨split, offers, seen, asking⟩
  | countDrop tick => exact ⟨split, fun _ member => (by cases member), seen, asking⟩
  | loadSequence tick prod =>
    by_cases failed : (ring.buffer (R.slot prod)).sequence ≠ prod
    · simp only [SpinState.producerTurn, Publish.ready, RingState.producerStep, if_pos failed,
        Bool.false_eq_true, if_false]
      exact ⟨split, offers, seen, asking⟩
    · simp only [SpinState.producerTurn, Publish.ready, RingState.producerStep, if_neg failed,
        Bool.false_eq_true, if_false]
      exact ⟨split, offers, seen, asking⟩
  | storeSequence tick prod =>
    cases unsent with
    | nil => cases offers tick rfl
    | cons head rest =>
      obtain rfl := Option.some.inj (offers tick rfl)
      exact ⟨(List.append_assoc ..).trans split, fun _ member => (by cases member), seen, asking⟩
  | storeCursor tick prod =>
    exact ⟨split, fun _ member => (by cases member), seen, asking⟩

theorem consumerTurn (spinning : Spinning ticks s) :
    Spinning ticks (s.consumerTurn ticks.length).1 := by
  obtain ⟨⟨ring, publish, consume, stored, released, published, consumed⟩, unsent, seen⟩ := s
  obtain ⟨split, offers, returned, asking⟩ := spinning
  cases consume with
  | idle | returned _ =>
    by_cases more : seen.length < ticks.length
    · simp only [SpinState.consumerTurn, Consume.ready, if_true, if_pos more]
      exact ⟨split, offers, returned, fun _ => more⟩
    · simp only [SpinState.consumerTurn, Consume.ready, if_true, if_neg more]
      exact ⟨split, offers, returned, asking⟩
  | loadCursor | readTick _ | storeSequence _ _ => exact ⟨split, offers, returned, asking⟩
  | loadSequence cons =>
    by_cases failed : (ring.buffer (R.slot cons)).sequence ≠ cons + 1
    · simp only [SpinState.consumerTurn, Consume.ready, RingState.consumerStep, if_pos failed,
        Bool.false_eq_true, if_false]
      refine ⟨split, offers, ?_, fun busy => (by cases busy)⟩
      exact returned.trans ((Handshake.reduceOption_concat _ _).trans (List.append_nil _)).symm
    · simp only [SpinState.consumerTurn, Consume.ready, RingState.consumerStep, if_neg failed,
        Bool.false_eq_true, if_false]
      exact ⟨split, offers, returned, asking⟩
  | storeCursor cons tick =>
    refine ⟨split, offers, ?_, fun busy => (by cases busy)⟩
    have longer := Handshake.reduceOption_concat consumed (some tick)
    exact (congrArg (· ++ [tick]) returned).trans longer.symm

theorem left_length (spinning : Spinning ticks s) :
    s.ring.stored.length + s.left.length = ticks.length := by
  rw [← List.length_append, spinning.split]

end Spinning

theorem reach_spinning {history : List (Op NormalizedTick)} {s : SpinState R}
    (reach : (spinMachine R ticks).Reach history s) : Spinning ticks s := by
  induction reach with
  | start => exact .new R ticks
  | next previous action ih =>
    cases action with
    | producer => exact ih.producerTurn
    | consumer => exact ih.consumerTurn

/-- The producer's own steps to its next slot store, if there is room. -/
def Publish.toStore : Publish → Nat
  | .storeSequence _ _ => 1
  | .writeTick _ _ => 2
  | .loadSequence _ _ => 3
  | .loadCursor _ => 4
  | .idle | .returned _ => 5
  | .countDrop _ | .storeCursor _ _ => 6

/-- The consumer's own steps to its next slot store, if a tick is waiting. -/
def Consume.toStore : Consume → Nat
  | .storeSequence _ _ => 1
  | .readTick _ => 2
  | .loadSequence _ => 3
  | .loadCursor => 4
  | .idle | .returned _ => 5
  | .storeCursor _ _ => 6

/-- One step is left of an accepted call. -/
def Publish.closing : Publish → Nat
  | .storeCursor _ _ => 1
  | _ => 0

def Consume.closing : Consume → Nat
  | .storeCursor _ _ => 1
  | _ => 0

namespace SpinState

variable {s : SpinState R}

/-- A turn of the producer stores the next tick, or brings the store closer. -/
structure ProducerMoves (total : Nat) (s t : SpinState R) : Prop where
  released : t.ring.released = s.ring.released
  consume : t.ring.consume = s.ring.consume
  moves : (t.ring.stored.length = s.ring.stored.length + 1 ∧ s.ring.stored.length < total) ∨
    (t.ring.stored.length = s.ring.stored.length ∧
      (s.ring.stored.length < s.ring.released + R.val → s.ring.stored.length < total →
        t.ring.publish.toStore < s.ring.publish.toStore) ∧
      t.ring.publish.closing ≤ s.ring.publish.closing ∧
      (0 < s.ring.publish.closing → t.ring.publish.closing < s.ring.publish.closing))

theorem producerTurn_moves (spinning : Spinning ticks s) (shake : Handshake s.ring) :
    ProducerMoves ticks.length s s.producerTurn.1 := by
  have left := spinning.left_length
  obtain ⟨⟨ring, publish, consume, stored, released, published, consumed⟩, unsent, seen⟩ := s
  obtain ⟨slots, producing, -⟩ := shake
  have offers := spinning.offers
  dsimp only at slots producing offers left
  cases publish with
  | idle | returned _ =>
    cases unsent with
    | nil =>
      refine ⟨rfl, rfl, .inr ⟨rfl, fun _ more => ?_, Nat.le_refl _, id⟩⟩
      exact absurd left more.ne
    | cons tick rest =>
      exact ⟨rfl, rfl, .inr ⟨rfl, fun _ _ => (by decide : 4 < 5), Nat.le_refl _, id⟩⟩
  | loadCursor tick =>
    exact ⟨rfl, rfl, .inr ⟨rfl, fun _ _ => (by decide : 3 < 4), Nat.le_refl _, id⟩⟩
  | writeTick tick _ =>
    exact ⟨rfl, rfl, .inr ⟨rfl, fun _ _ => (by decide : 1 < 2), Nat.le_refl _, id⟩⟩
  | countDrop tick =>
    exact ⟨rfl, rfl, .inr ⟨rfl, fun _ _ => (by decide : 5 < 6), Nat.le_refl _, id⟩⟩
  | loadSequence tick prod =>
    obtain ⟨_, rfl⟩ := producing
    by_cases failed : (ring.buffer (R.slot (.ofNat stored.length))).sequence ≠ .ofNat stored.length
    · simp only [SpinState.producerTurn, Publish.ready, RingState.producerStep, if_pos failed,
        Bool.false_eq_true, if_false]
      exact ⟨rfl, rfl, .inr ⟨rfl, fun room _ => absurd (slots.producer_check.mpr room) failed,
        Nat.le_refl _, id⟩⟩
    · simp only [SpinState.producerTurn, Publish.ready, RingState.producerStep, if_neg failed,
        Bool.false_eq_true, if_false]
      exact ⟨rfl, rfl, .inr ⟨rfl, fun _ _ => (by decide : 2 < 3), Nat.le_refl _, id⟩⟩
  | storeSequence tick prod =>
    refine ⟨rfl, rfl, .inl ⟨List.length_append, ?_⟩⟩
    cases unsent with
    | nil => cases offers tick rfl
    | cons head rest => exact left ▸ Nat.lt_add_of_pos_right (Nat.succ_pos _)
  | storeCursor tick prod =>
    exact ⟨rfl, rfl, .inr ⟨rfl, fun _ _ => (by decide : 5 < 6), Nat.zero_le _,
      fun _ => Nat.zero_lt_one⟩⟩

/-- A turn of the consumer releases the next tick, or brings its store closer. -/
structure ConsumerMoves (total : Nat) (s t : SpinState R) : Prop where
  stored : t.ring.stored = s.ring.stored
  publish : t.ring.publish = s.ring.publish
  moves : (t.ring.released = s.ring.released + 1 ∧ s.ring.released < s.ring.stored.length) ∨
    (t.ring.released = s.ring.released ∧
      (s.ring.released < s.ring.stored.length →
        t.ring.consume.toStore < s.ring.consume.toStore) ∧
      t.ring.consume.closing ≤ s.ring.consume.closing ∧
      (0 < s.ring.consume.closing → t.ring.consume.closing < s.ring.consume.closing))

theorem consumerTurn_moves (spinning : Spinning ticks s) (shake : Handshake s.ring) :
    ConsumerMoves ticks.length s (s.consumerTurn ticks.length).1 := by
  have left := spinning.left_length
  have answers := spinning.seen
  obtain ⟨⟨ring, publish, consume, stored, released, published, consumed⟩, unsent, seen⟩ := s
  obtain ⟨slots, -, consuming⟩ := shake
  dsimp only at slots consuming left answers
  cases consume with
  | idle | returned _ =>
    by_cases more : seen.length < ticks.length
    · simp only [SpinState.consumerTurn, Consume.ready, if_true, if_pos more]
      exact ⟨rfl, rfl, .inr ⟨rfl, fun _ => (by decide : 4 < 5), Nat.le_refl _, id⟩⟩
    · simp only [SpinState.consumerTurn, Consume.ready, if_true, if_neg more]
      refine ⟨rfl, rfl, .inr ⟨rfl, fun ready => ?_, Nat.le_refl _, id⟩⟩
      have length := congrArg List.length (answers.trans consuming.2)
      rw [List.length_take] at length
      dsimp only at ready
      omega
  | loadCursor =>
    exact ⟨rfl, rfl, .inr ⟨rfl, fun _ => (by decide : 3 < 4), Nat.le_refl _, id⟩⟩
  | readTick _ =>
    exact ⟨rfl, rfl, .inr ⟨rfl, fun _ => (by decide : 1 < 2), Nat.le_refl _, id⟩⟩
  | loadSequence cons =>
    obtain ⟨_, _, rfl⟩ := consuming
    by_cases failed : (ring.buffer (R.slot (.ofNat released))).sequence ≠ .ofNat released + 1
    · simp only [SpinState.consumerTurn, Consume.ready, RingState.consumerStep, if_pos failed,
        Bool.false_eq_true, if_false]
      rw [ofNat_add_one] at failed
      exact ⟨rfl, rfl, .inr ⟨rfl, fun ready => absurd (slots.consumer_check.mpr ready) failed,
        Nat.le_refl _, id⟩⟩
    · simp only [SpinState.consumerTurn, Consume.ready, RingState.consumerStep, if_neg failed,
        Bool.false_eq_true, if_false]
      exact ⟨rfl, rfl, .inr ⟨rfl, fun _ => (by decide : 2 < 3), Nat.le_refl _, id⟩⟩
  | storeSequence cons tick =>
    exact ⟨rfl, rfl, .inl ⟨rfl, (List.getElem?_eq_some_iff.mp consuming.2.2.2).1⟩⟩
  | storeCursor cons tick =>
    exact ⟨rfl, rfl, .inr ⟨rfl, fun _ => (by decide : 5 < 6), Nat.zero_le _,
      fun _ => Nat.zero_lt_one⟩⟩

/-- Slot stores still to come, on both sides. -/
def todo (total : Nat) (s : SpinState R) : Nat :=
  (total - s.ring.stored.length) + (total - s.ring.released)

/-- Turns of the helpful party up to the next slot store, or up to the end of
its last call. -/
def effort (total : Nat) (s : SpinState R) : Nat :=
  if s.todo total = 0 then s.ring.publish.closing + s.ring.consume.closing
  else if s.ring.released < s.ring.stored.length then s.ring.consume.toStore
  else s.ring.publish.toStore

/-- The party whose turn brings the end closer. -/
def helper (total : Nat) (s : SpinState R) : Party :=
  if s.todo total = 0 then if 0 < s.ring.publish.closing then .producer else .consumer
  else if s.ring.released < s.ring.stored.length then .consumer
  else .producer

def rank (total : Nat) (s : SpinState R) : Nat :=
  7 * s.todo total + s.effort total

theorem toStore_le (s : SpinState R) : s.ring.publish.toStore ≤ 6 ∧ s.ring.consume.toStore ≤ 6 := by
  constructor
  · cases s.ring.publish <;> simp only [Publish.toStore] <;> omega
  · cases s.ring.consume <;> simp only [Consume.toStore] <;> omega

theorem closing_le (s : SpinState R) : s.ring.publish.closing ≤ 1 ∧ s.ring.consume.closing ≤ 1 := by
  constructor
  · cases s.ring.publish <;> simp only [Publish.closing] <;> omega
  · cases s.ring.consume <;> simp only [Consume.closing] <;> omega

theorem rank_lt {total : Nat} {t : SpinState R} (fewer : t.todo total < s.todo total) :
    t.rank total < s.rank total := by
  have stores := t.toStore_le
  have calls := t.closing_le
  have bound : t.effort total ≤ 6 := by
    simp only [effort]
    split
    · omega
    · split
      · exact stores.2
      · exact stores.1
  simp only [rank]
  omega

theorem publish_ended (spinning : Spinning ticks s) (sent : s.left = [])
    (closed : s.ring.publish.closing = 0) : s.ring.publish.ready = true ∧ s.unsent = [] := by
  obtain ⟨⟨ring, publish, consume, stored, released, published, consumed⟩, unsent, seen⟩ := s
  have offers := spinning.offers
  cases publish with
  | idle | returned _ => exact ⟨rfl, sent⟩
  | storeCursor tick prod => exact absurd closed Nat.one_ne_zero
  | loadCursor tick | countDrop tick | loadSequence tick _ | writeTick tick _
  | storeSequence tick _ =>
    have head := offers tick rfl
    simp only [show unsent = [] from sent, List.head?_nil] at head
    cases head

theorem returned_taken (shake : Handshake s.ring) (closed : s.ring.consume.closing = 0) :
    s.ring.returned = s.ring.stored.take s.ring.released := by
  obtain ⟨⟨ring, publish, consume, stored, released, published, consumed⟩, unsent, seen⟩ := s
  have consuming := shake.consuming
  cases consume with
  | idle | returned _ | loadCursor => exact consuming.2
  | loadSequence cons | readTick cons | storeSequence cons tick => exact consuming.2.1
  | storeCursor cons tick => exact absurd closed Nat.one_ne_zero

/-- With every tick stored and released, a party that is not done has one step
left of its last call. -/
theorem closing_pos (spinning : Spinning ticks s) (shake : Handshake s.ring)
    (done : s.todo ticks.length = 0) (unfinished : ¬ Finished ticks.length s) :
    0 < s.ring.publish.closing + s.ring.consume.closing := by
  have left := spinning.left_length
  have bound := shake.slots.released_le
  simp only [todo] at done
  by_contra closed
  have sent : s.left = [] := List.eq_nil_of_length_eq_zero (by omega)
  obtain ⟨publish, unsent⟩ := publish_ended spinning sent (by omega)
  have taken := congrArg List.length (returned_taken shake (by omega))
  rw [List.length_take, ← spinning.seen] at taken
  refine unfinished ⟨unsent, publish, by omega, ?_⟩
  by_contra busy
  have more := spinning.asking (Bool.eq_false_of_not_eq_true busy)
  omega

/-- A turn that leaves both counts of slot stores alone is judged by the effort. -/
theorem rank_of_todo {total : Nat} {t : SpinState R} (same : t.todo total = s.todo total) :
    (t.effort total < s.effort total → t.rank total < s.rank total) ∧
      (t.effort total = s.effort total → t.rank total = s.rank total) := by
  simp only [rank, same]
  exact ⟨fun less => Nat.add_lt_add_left less _, congrArg _⟩

theorem producer_lowers_or_keeps (spinning : Spinning ticks s) (shake : Handshake s.ring) :
    s.producerTurn.1.rank ticks.length < s.rank ticks.length ∨
      (s.helper ticks.length = .producer → Finished ticks.length s) ∧
        s.producerTurn.1.rank ticks.length = s.rank ticks.length ∧
        s.producerTurn.1.helper ticks.length = s.helper ticks.length := by
  obtain ⟨released, consume, stores | ⟨stored, nears, closing, closes⟩⟩ :=
    producerTurn_moves spinning shake
  · refine .inl (rank_lt ?_)
    simp only [todo, released, stores.1]
    omega
  · have left := spinning.left_length
    have bound := shake.slots.released_le
    have room := R.pos
    have same : s.producerTurn.1.todo ticks.length = s.todo ticks.length := by
      simp only [todo, released, stored]
    obtain ⟨lower, keep⟩ := rank_of_todo same
    simp only [effort, helper, same, released, stored, consume] at lower keep ⊢
    by_cases done : s.todo ticks.length = 0
    · simp only [if_pos done] at lower keep ⊢
      rcases Nat.eq_zero_or_pos s.ring.publish.closing with quiet | waiting
      · have still : s.producerTurn.1.ring.publish.closing = s.ring.publish.closing := by omega
        rw [still] at keep ⊢
        refine .inr ⟨fun turn => ?_, keep rfl, rfl⟩
        rw [quiet, if_neg (Nat.lt_irrefl 0)] at turn
        cases turn
      · exact .inl (lower (Nat.add_lt_add_right (closes waiting) _))
    · simp only [if_neg done] at lower keep ⊢
      by_cases ready : s.ring.released < s.ring.stored.length
      · simp only [if_pos ready] at keep ⊢
        exact .inr ⟨fun turn => (nomatch turn), keep trivial, trivial⟩
      · simp only [if_neg ready] at lower
        simp only [todo] at done
        exact .inl (lower (nears (by omega) (by omega)))

theorem consumer_lowers_or_keeps (spinning : Spinning ticks s) (shake : Handshake s.ring) :
    (s.consumerTurn ticks.length).1.rank ticks.length < s.rank ticks.length ∨
      (s.helper ticks.length = .consumer → Finished ticks.length s) ∧
        (s.consumerTurn ticks.length).1.rank ticks.length = s.rank ticks.length ∧
        (s.consumerTurn ticks.length).1.helper ticks.length = s.helper ticks.length := by
  obtain ⟨stored, publish, releases | ⟨released, nears, closing, closes⟩⟩ :=
    consumerTurn_moves spinning shake
  · have left := spinning.left_length
    refine .inl (rank_lt ?_)
    simp only [todo, stored, releases.1]
    omega
  · have same : (s.consumerTurn ticks.length).1.todo ticks.length = s.todo ticks.length := by
      simp only [todo, released, stored]
    obtain ⟨lower, keep⟩ := rank_of_todo same
    simp only [effort, helper, same, released, stored, publish] at lower keep ⊢
    by_cases done : s.todo ticks.length = 0
    · simp only [if_pos done] at lower keep ⊢
      rcases Nat.eq_zero_or_pos s.ring.consume.closing with quiet | waiting
      · have still : (s.consumerTurn ticks.length).1.ring.consume.closing =
            s.ring.consume.closing := by omega
        rw [still] at keep
        refine .inr ⟨fun turn => ?_, keep rfl, trivial⟩
        by_contra unfinished
        have last := closing_pos spinning shake done unfinished
        rw [quiet, Nat.add_zero] at last
        rw [if_pos last] at turn
        cases turn
      · exact .inl (lower (Nat.add_lt_add_left (closes waiting) _))
    · simp only [if_neg done] at lower keep ⊢
      by_cases ready : s.ring.released < s.ring.stored.length
      · simp only [if_pos ready] at lower
        exact .inl (lower (nears ready))
      · simp only [if_neg ready] at keep ⊢
        exact .inr ⟨fun turn => (nomatch turn), keep trivial, trivial⟩

end SpinState

def spinRanking (R : RingSize) (ticks : List NormalizedTick) :
    (spinMachine R ticks).Ranking (SpinState.Finished ticks.length) where
  rank := SpinState.rank ticks.length
  helper := SpinState.helper ticks.length
  lowers history s reach unfinished := by
    have spinning := reach_spinning reach
    have shake := (reach_handshake (spin_runs_ring reach)).1
    cases turn : s.helper ticks.length with
    | producer =>
      exact (SpinState.producer_lowers_or_keeps spinning shake).resolve_right fun idle =>
        unfinished (idle.1 turn)
    | consumer =>
      exact (SpinState.consumer_lowers_or_keeps spinning shake).resolve_right fun idle =>
        unfinished (idle.1 turn)
  keeps history s action reach unfinished := by
    have spinning := reach_spinning reach
    have shake := (reach_handshake (spin_runs_ring reach)).1
    cases action with
    | producer => exact (SpinState.producer_lowers_or_keeps spinning shake).imp_right And.right
    | consumer => exact (SpinState.consumer_lowers_or_keeps spinning shake).imp_right And.right

theorem SpinState.Finished.turn {s : SpinState R} (finished : s.Finished ticks.length)
    (party : Party) : ((spinMachine R ticks).step s party).1 = s := by
  obtain ⟨⟨ring, publish, consume, stored, released, published, consumed⟩, unsent, seen⟩ := s
  obtain ⟨empty, publishEnded, enough, consumeEnded⟩ := finished
  dsimp only at empty publishEnded enough consumeEnded
  subst empty
  cases party with
  | producer => simp only [spinMachine, SpinState.producerTurn, publishEnded, if_true]
  | consumer =>
    simp only [spinMachine, SpinState.consumerTurn, consumeEnded, if_true,
      if_neg (Nat.not_lt.mpr enough)]

theorem Spinning.seen_front {s : SpinState R} (spinning : Spinning ticks s)
    (shake : Handshake s.ring) : s.seen <+: ticks := by
  rw [spinning.seen]
  exact shake.returned_prefix.trans ⟨_, spinning.split⟩

/-- Under every fair schedule both loops end, the consumer has then seen every
tick once and in order, and it never sees anything else on the way. -/
theorem spinning_clients_hand_over_every_tick (R : RingSize) (ticks : List NormalizedTick)
    (schedule : Nat → Party) (fair : Fair schedule) :
    (∀ i, ((spinMachine R ticks).stateAt schedule i).seen <+: ticks) ∧
      ∃ i, ∀ j, i ≤ j →
        SpinState.Finished ticks.length ((spinMachine R ticks).stateAt schedule j) ∧
          ((spinMachine R ticks).stateAt schedule j).seen = ticks := by
  have ordered : ∀ i, ((spinMachine R ticks).stateAt schedule i).seen <+: ticks := by
    intro i
    have reach := Machine.reach_stateAt (M := spinMachine R ticks) schedule i
    exact (reach_spinning reach).seen_front (reach_handshake (spin_runs_ring reach)).1
  obtain ⟨i, ended⟩ := (spinRanking R ticks).settles fair fun s party finished => by
    rw [finished.turn party]
    exact finished
  refine ⟨ordered, i, fun j later => ⟨ended j later, ?_⟩⟩
  exact (ordered j).eq_of_length_le (ended j later).seen

/-- The two threads take turns. -/
def alternating (i : Nat) : Party :=
  if i % 2 = 0 then .producer else .consumer

theorem alternating_fair : Fair alternating := by
  intro party i
  cases party with
  | producer =>
    refine ⟨2 * i, by omega, if_pos ?_⟩
    omega
  | consumer =>
    refine ⟨2 * i + 1, by omega, if_neg ?_⟩
    omega

theorem alternating_clients_hand_over :
    ∃ i, ∀ j, i ≤ j → ((spinMachine ⟨1, Nat.one_pos, by decide⟩
      [bidTick 100 1 1, bidTick 101 1 2, bidTick 102 1 3]).stateAt alternating j).seen =
        [bidTick 100 1 1, bidTick 101 1 2, bidTick 102 1 3] := by
  have hands := spinning_clients_hand_over_every_tick ⟨1, Nat.one_pos, by decide⟩
    [bidTick 100 1 1, bidTick 101 1 2, bidTick 102 1 3] alternating alternating_fair
  obtain ⟨i, ended⟩ := hands.2
  exact ⟨i, fun j later => (ended j later).2⟩

end FeedHandler
