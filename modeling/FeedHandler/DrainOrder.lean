import FeedHandler.BookEngine
import FeedHandler.RingCalls

namespace FeedHandler

open Interleaving BoundedFifo

variable {R : RingSize} {book : OrderBook}

namespace EngineState

variable {s : EngineState R} {call : EngineCall}

theorem answered_ring (answer : Option NormalizedTick) : (s.answered call answer).ring = s.ring := by
  unfold answered
  split
  · rfl
  · split <;> rfl

/-- Inside `try_consume` the engine's step is the consumer's. -/
theorem engineStep_consume (stage : s.phase = .consume call) (t0 t1 : UInt64) :
    (s.engineStep t0 t1).1.ring = s.ring.consumerStep.1 ∧
      (s.engineStep t0 t1).2 = s.ring.consumerStep.2 := by
  unfold engineStep
  rw [stage]
  dsimp only
  split
  · exact ⟨answered_ring _, rfl⟩
  · exact ⟨rfl, rfl⟩

theorem engineStep_busy (stage : s.phase = .consume call)
    (busy : s.ring.consumerStep.1.consume.ready = false) (t0 t1 : UInt64) :
    (s.engineStep t0 t1).1 = { s with ring := s.ring.consumerStep.1 } := by
  unfold engineStep
  rw [stage]
  dsimp only
  split
  · rename_i answer ends
    rw [ends] at busy
    cases busy
  · rfl

theorem engineStep_answer (stage : s.phase = .consume call) {answer : Option NormalizedTick}
    (ends : s.ring.consumerStep.1.consume = .returned answer) (t0 t1 : UInt64) :
    (s.engineStep t0 t1).1 =
      EngineState.answered { s with ring := s.ring.consumerStep.1 } call answer := by
  unfold engineStep
  rw [stage]
  dsimp only
  rw [ends]

end EngineState

/-- The engine only ever runs the ring. -/
theorem engine_runs_ring {history : List (Op NormalizedTick)} {s : EngineState R}
    (reach : (engineMachine R book).Reach history s) : (ringMachine R).Reach history s.ring := by
  refine reach.project EngineState.ring rfl fun s action => ?_
  cases action with
  | publish tick => exact .inr ⟨.publish tick, rfl⟩
  | producer => exact .inr ⟨.producer, rfl⟩
  | runOne stats | runBatch =>
    dsimp only [engineMachine, EngineState.begin]
    split
    · exact .inr ⟨.consume, rfl⟩
    · exact .inl ⟨rfl, rfl⟩
  | engine t0 t1 =>
    dsimp only [engineMachine]
    cases stage : s.phase with
    | idle | ranOne _ _ _ | ranBatch _ | panicked =>
      simp only [EngineState.engineStep, stage]
      exact .inl ⟨trivial, trivial⟩
    | consume call =>
      obtain ⟨ring, ops⟩ := EngineState.engineStep_consume stage t0 t1
      rw [ring, ops]
      exact .inr ⟨.consumer, rfl⟩
    | apply call tick =>
      unfold EngineState.engineStep
      rw [stage]
      cases call with
      | one stats =>
        dsimp only
        split <;> exact .inl ⟨rfl, rfl⟩
      | batch n =>
        dsimp only
        split
        · exact .inl ⟨rfl, rfl⟩
        · exact .inr ⟨.consume, rfl⟩

/-- How the engine's phase goes with the consumer of its ring. -/
def Driving (ring : RingState R) : EnginePhase → Prop
  | .idle | .ranOne _ _ _ | .ranBatch _ => ring.consume.ready = true
  | .consume _ => ring.consume.ready = false
  | .apply _ tick => ring.consume.ready = true ∧ ∃ before, ring.returned = before ++ [tick]
  | .panicked => True

/-- `result` and `slot` are those of the last step of the fold over `ticks`. -/
def FoldStep (book : OrderBook) (ticks : List NormalizedTick) (final : OrderBook) (stats : Bool)
    (result : DeltaResult) (slot : Option TickStats) : Prop :=
  ∃ before tick earlier results, ticks = before ++ [tick] ∧
    book.applyAll before = some (earlier, results) ∧ earlier.apply tick = some (final, result) ∧
      slot.map (fun sample => (sample.sequence, sample.result)) =
        if stats then some (tick.sequence, result) else none

/-- The invariant of the engine: its book is the fold of the applied ticks. -/
structure Drives (book : OrderBook) (s : EngineState R) : Prop where
  driving : Driving s.ring s.phase
  folded : ∃ results, book.applyAll s.applied = some (s.engine.book, results)
  answered : ∀ stats result slot, s.phase = .ranOne stats (some result) slot →
    FoldStep book s.ring.returned s.engine.book stats result slot
  faulted : s.phase = .panicked → book.applyAll s.ring.returned = none

namespace Drives

variable {s : EngineState R} {call : EngineCall}

theorem new : Drives book (.new R book) where
  driving := rfl
  folded := ⟨[], rfl⟩
  answered _ _ _ ran := nomatch ran
  faulted ran := nomatch ran

/-- The engine does not notice the producer. -/
theorem of_ring (drives : Drives book s) {ring : RingState R}
    (consume : ring.consume = s.ring.consume) (returned : ring.returned = s.ring.returned) :
    Drives book { s with ring } where
  driving := by
    have driving := drives.driving
    unfold Driving at driving ⊢
    rw [consume, returned]
    exact driving
  folded := by
    have folded := drives.folded
    unfold EngineState.applied at folded ⊢
    rw [returned]
    exact folded
  answered stats result slot ran := by
    rw [returned]
    exact drives.answered stats result slot ran
  faulted ran := by
    rw [returned]
    exact drives.faulted ran

/-- Inside `try_consume` the book stays the fold of what has been returned. -/
theorem consuming {ring : RingState R} {engine : BookEngine} (busy : ring.consume.ready = false)
    (folded : ∃ results, book.applyAll ring.returned = some (engine.book, results)) :
    Drives book ⟨ring, engine, .consume call⟩ where
  driving := busy
  folded := folded
  answered _ _ _ ran := nomatch ran
  faulted ran := nomatch ran

theorem settled (free : s.phase.ready = true) : s.applied = s.ring.returned := by
  unfold EngineState.applied
  cases stage : s.phase with
  | idle | ranOne _ _ _ | ranBatch _ | consume _ => rfl
  | apply _ _ | panicked =>
    rw [stage] at free
    cases free

theorem consume_ready (drives : Drives book s) (free : s.phase.ready = true) :
    s.ring.consume.ready = true := by
  have driving := drives.driving
  cases stage : s.phase with
  | idle | ranOne _ _ _ | ranBatch _ =>
    rw [stage] at driving
    exact driving
  | consume _ | apply _ _ | panicked =>
    rw [stage] at free
    cases free

theorem begin (drives : Drives book s) (call : EngineCall) : Drives book (s.begin call) := by
  unfold EngineState.begin
  split
  · rename_i free
    have folded := drives.folded
    rw [settled free] at folded
    rw [RingState.beginConsume_eq (drives.consume_ready free)]
    exact consuming rfl folded
  · exact drives

theorem consumeStep (drives : Drives book s) (shake : Handshake s.ring)
    (stage : s.phase = .consume call) (t0 t1 : UInt64) : Drives book (s.engineStep t0 t1).1 := by
  have driving := drives.driving
  have folded := drives.folded
  rw [EngineState.applied, stage] at folded
  rw [stage] at driving
  obtain ⟨busy, _, same⟩ | ⟨ends, _, same, _⟩ | ⟨tick, ends, _, longer⟩ :=
    shake.consumerStep_cases driving
  · rw [EngineState.engineStep_busy stage busy, stage]
    rw [← same] at folded
    exact consuming busy folded
  · rw [EngineState.engineStep_answer stage ends]
    rw [← same] at folded
    have settled : s.ring.consumerStep.1.consume.ready = true := by rw [ends]; rfl
    cases call with
    | one stats => exact ⟨settled, folded, fun _ _ _ ran => (nomatch ran), fun ran => (nomatch ran)⟩
    | batch n => exact ⟨settled, folded, fun _ _ _ ran => (nomatch ran), fun ran => (nomatch ran)⟩
  · rw [EngineState.engineStep_answer stage ends]
    have settled : s.ring.consumerStep.1.consume.ready = true := by rw [ends]; rfl
    refine ⟨⟨settled, _, longer⟩, ?_, fun _ _ _ ran => (nomatch ran), fun ran => (nomatch ran)⟩
    simp only [EngineState.answered, EngineState.applied, longer, List.dropLast_concat]
    exact folded

theorem applyStep (drives : Drives book s) {tick : NormalizedTick}
    (stage : s.phase = .apply call tick) (t0 t1 : UInt64) :
    Drives book (s.engineStep t0 t1).1 := by
  have driving := drives.driving
  have folded := drives.folded
  rw [stage] at driving
  obtain ⟨settled, before, whole⟩ := driving
  obtain ⟨results, folded⟩ := folded
  rw [EngineState.applied, stage, whole, List.dropLast_concat] at folded
  have next := book.applyAll_concat before tick
  simp only [← whole, folded, Option.bind_some] at next
  cases run : s.engine.book.apply tick with
  | none =>
    simp only [run, Option.map_none] at next
    have fault : Drives book { s with phase := .panicked } :=
      ⟨trivial, ⟨results, by rw [EngineState.applied, whole, List.dropLast_concat, folded]⟩,
        fun _ _ _ ran => (nomatch ran), fun _ => next⟩
    cases call with
    | one stats =>
      simp only [EngineState.engineStep, stage, BookEngine.applyOne, run, Option.bind_eq_bind,
        Option.bind_none]
      exact fault
    | batch n =>
      simp only [EngineState.engineStep, stage, BookEngine.applyBatch, run, Option.bind_eq_bind,
        Option.bind_none]
      exact fault
  | some answer =>
    obtain ⟨final, result⟩ := answer
    simp only [run, Option.map_some] at next
    cases call with
    | one stats =>
      simp only [EngineState.engineStep, stage, BookEngine.applyOne, run, Option.bind_eq_bind,
        Option.bind_some, Option.pure_def]
      refine ⟨settled, ⟨_, next⟩, fun _ _ _ ran => ?_, fun ran => (nomatch ran)⟩
      cases ran
      refine ⟨before, tick, s.engine.book, results, whole, folded, run, ?_⟩
      cases stats <;> rfl
    | batch n =>
      simp only [EngineState.engineStep, stage, BookEngine.applyBatch, run, Option.bind_eq_bind,
        Option.bind_some, Option.pure_def]
      rw [RingState.beginConsume_eq settled]
      exact consuming rfl ⟨_, next⟩

theorem step (drives : Drives book s) (shake : Handshake s.ring) (action : EngineAction) :
    Drives book ((engineMachine R book).step s action).1 := by
  cases action with
  | publish tick =>
    exact drives.of_ring (RingState.beginPublish_consume tick) (RingState.beginPublish_returned tick)
  | producer =>
    exact drives.of_ring RingState.producerStep_consume
      (congrArg List.reduceOption RingState.producerStep_consumed)
  | runOne stats => exact drives.begin (.one stats)
  | runBatch => exact drives.begin (.batch 0)
  | engine t0 t1 =>
    cases stage : s.phase with
    | idle | ranOne _ _ _ | ranBatch _ | panicked =>
      simp only [engineMachine, EngineState.engineStep, stage]
      exact drives
    | consume call => exact drives.consumeStep shake stage t0 t1
    | apply call tick => exact drives.applyStep stage t0 t1

end Drives

theorem reach_drives {history : List (Op NormalizedTick)} {s : EngineState R}
    (reach : (engineMachine R book).Reach history s) : Drives book s := by
  induction reach with
  | start => exact .new
  | next previous action ih =>
    exact ih.step (reach_handshake (engine_runs_ring previous)).1 action

namespace EngineState

variable {s : EngineState R}

/-- The accepted ticks that are not yet in the book. -/
def waiting (s : EngineState R) : Nat := s.ring.accepted.length - s.applied.length

/-- A `run_batch` under way that will end after `left` steps of the engine if
nothing more is stored. -/
inductive Batching (s : EngineState R) (left : Nat) (n : UInt32) : Prop
  | consume (stage : s.phase = .consume (.batch n))
      (steps : left + s.ring.consume.done = 6 * s.ring.unreturned + 2)
  | apply {tick : NormalizedTick} (stage : s.phase = .apply (.batch n) tick)
      (steps : left = 6 * s.ring.unreturned + 3)
  | ended (stage : s.phase = .ranBatch n) (all : s.ring.returned = s.ring.stored) (steps : left = 0)

/-- The ticks a batch under way has yet to apply. -/
def due (s : EngineState R) : Nat :=
  match s.phase with
  | .apply _ _ => s.ring.unreturned + 1
  | _ => s.ring.unreturned

/-- A batch gets from `s` and count `n` to `t` and count `n'` with nothing
stored meanwhile. -/
structure Counts (s t : EngineState R) (n n' : UInt32) : Prop where
  counted : n' + .ofNat t.due = n + .ofNat s.due
  stored : t.ring.stored = s.ring.stored
  publish : t.ring.publish = s.ring.publish

theorem Counts.trans {t u : EngineState R} {n n' n'' : UInt32} (first : Counts s t n n')
    (second : Counts t u n' n'') : Counts s u n n'' :=
  ⟨second.counted.trans first.counted, second.stored.trans first.stored,
    second.publish.trans first.publish⟩

theorem Batching.consumeStep {left : Nat} {n : UInt32} (stage : s.phase = .consume (.batch n))
    (steps : left + 1 + s.ring.consume.done = 6 * s.ring.unreturned + 2)
    (shake : Handshake s.ring) (busy : s.ring.consume.ready = false) (t0 t1 : UInt64) :
    (s.engineStep t0 t1).1.Batching left n ∧ Counts s (s.engineStep t0 t1).1 n n := by
  have ring := (engineStep_consume stage t0 t1).1
  have stored : (s.engineStep t0 t1).1.ring.stored = s.ring.stored := by
    rw [ring, RingState.consumerStep_stored]
  have publish : (s.engineStep t0 t1).1.ring.publish = s.ring.publish := by
    rw [ring, RingState.consumerStep_publish]
  obtain ⟨inside, further, same⟩ | ⟨ends, atCheck, same, all⟩ | ⟨tick, ends, atCursor, longer⟩ :=
    shake.consumerStep_cases busy
  · have next := engineStep_busy stage inside t0 t1
    have unmoved : (s.engineStep t0 t1).1.ring.unreturned = s.ring.unreturned := by
      rw [RingState.unreturned, stored, ring, same, RingState.unreturned]
    refine ⟨.consume (by rw [next, stage]) ?_, ?_, stored, publish⟩
    · rw [unmoved, ring, further]
      omega
    · rw [due, due, unmoved, next, stage]
  · have next := engineStep_answer stage ends t0 t1
    have before : s.ring.unreturned = 0 := by rw [RingState.unreturned, all, Nat.sub_self]
    have after : (s.engineStep t0 t1).1.ring.unreturned = 0 := by
      rw [RingState.unreturned, stored, ring, same, all, Nat.sub_self]
    refine ⟨.ended (by rw [next]; rfl) ?_ (by omega), ?_, stored, publish⟩
    · rw [stored, ring, same, all]
    · rw [due, due, before, after, next, stage]
      rfl
  · have next := engineStep_answer stage ends t0 t1
    have whole : s.ring.returned.length + 1 ≤ s.ring.stored.length := by
      have bound := shake.consumerStep.returned_prefix.length_le
      rwa [longer, RingState.consumerStep_stored, List.length_append] at bound
    have fewer : (s.engineStep t0 t1).1.ring.unreturned + 1 = s.ring.unreturned := by
      rw [RingState.unreturned, stored, ring, longer, RingState.unreturned, List.length_append,
        List.length_singleton]
      omega
    refine ⟨.apply (by rw [next]; rfl) (by omega), ?_, stored, publish⟩
    rw [next] at fewer ⊢
    simp only [EngineState.answered] at fewer
    simp only [due, stage, EngineState.answered, fewer]

theorem Batching.applyStep {left : Nat} {n : UInt32} {tick : NormalizedTick}
    (stage : s.phase = .apply (.batch n) tick) (steps : left + 1 = 6 * s.ring.unreturned + 3)
    (settled : s.ring.consume.ready = true) (alive : s.engine.book.Sound) (t0 t1 : UInt64) :
    (s.engineStep t0 t1).1.Batching left (n + 1) ∧
      Counts s (s.engineStep t0 t1).1 n (n + 1) := by
  obtain ⟨final, result, run, _⟩ := alive.apply tick
  have next : (s.engineStep t0 t1).1 =
      ⟨s.ring.beginConsume, { s.engine with book := final }, .consume (.batch (n + 1))⟩ := by
    simp only [engineStep, stage, BookEngine.applyBatch, run, Option.bind_eq_bind,
      Option.bind_some, Option.pure_def]
  rw [next, RingState.beginConsume_eq settled]
  refine ⟨.consume rfl (Nat.succ.inj steps), ?_, rfl, rfl⟩
  simp only [due, stage, RingState.unreturned]
  rw [UInt32.add_assoc, UInt32.add_comm 1, UInt32.ofNat_add]
  rfl

theorem Batching.step {left : Nat} {n : UInt32} (batching : s.Batching (left + 1) n)
    (shake : Handshake s.ring) (drives : Drives book s) (alive : s.engine.book.Sound)
    (t0 t1 : UInt64) :
    ∃ n', (s.engineStep t0 t1).1.Batching left n' ∧ Counts s (s.engineStep t0 t1).1 n n' := by
  have driving := drives.driving
  cases batching with
  | ended _ _ steps => cases steps
  | consume stage steps =>
    rw [stage] at driving
    exact ⟨n, consumeStep stage steps shake driving t0 t1⟩
  | apply stage steps =>
    rw [stage] at driving
    exact ⟨n + 1, applyStep stage steps driving.1 alive t0 t1⟩

theorem Batching.finished {n : UInt32} (batching : s.Batching 0 n) (shake : Handshake s.ring) :
    s.phase = .ranBatch n ∧ s.ring.returned = s.ring.stored := by
  cases batching with
  | consume stage steps =>
    have further := shake.done_lt
    omega
  | apply stage steps => omega
  | ended stage all _ => exact ⟨stage, all⟩

end EngineState

namespace Drives

variable {s : EngineState R}

theorem sound (drives : Drives book s) (sound : book.Sound) : s.engine.book.Sound := by
  obtain ⟨results, folded⟩ := drives.folded
  obtain ⟨final, answers, run, sound⟩ := sound.applyAll s.applied
  rw [folded] at run
  exact (Prod.mk.inj (Option.some.inj run)).1 ▸ sound

theorem alive (drives : Drives book s) (sound : book.Sound) : s.phase ≠ .panicked := by
  intro fault
  obtain ⟨final, answers, run, _⟩ := sound.applyAll s.ring.returned
  rw [drives.faulted fault] at run
  cases run

end Drives

/-- The engine on its own, with its readings of the clock. -/
def engineTurns (clocks : List (UInt64 × UInt64)) : List EngineAction :=
  clocks.map fun clock => .engine clock.1 clock.2

theorem EngineState.Batching.run {history : List (Op NormalizedTick)} {s : EngineState R}
    (reach : (engineMachine R book).Reach history s) (sound : book.Sound)
    (clocks : List (UInt64 × UInt64)) {n : UInt32} (batching : s.Batching clocks.length n) :
    ∃ n', ((engineMachine R book).runFrom s (engineTurns clocks)).Batching 0 n' ∧
      Counts s ((engineMachine R book).runFrom s (engineTurns clocks)) n n' := by
  induction clocks generalizing history s n with
  | nil => exact ⟨n, batching, rfl, rfl, rfl⟩
  | cons clock clocks ih =>
    have shake := (reach_handshake (engine_runs_ring reach)).1
    have drives := reach_drives reach
    obtain ⟨n', batching, first⟩ :=
      batching.step shake drives (drives.sound sound) clock.1 clock.2
    obtain ⟨n'', batching, rest⟩ := ih (reach.next (.engine clock.1 clock.2)) batching
    exact ⟨n'', batching, first.trans rest⟩

/-- What `run_batch`, called in `s`, has done in `t`: everything accepted is in
the book, the ring is empty and the answer is the number of ticks it took. -/
structure BatchDrains (s t : EngineState R) : Prop where
  accepted : t.ring.accepted = s.ring.accepted
  drained : t.applied = t.ring.accepted
  answer : ∃ n : UInt32, t.phase = .ranBatch n ∧ n = .ofNat s.waiting ∧
    (R.val < 2 ^ 32 → n.toNat = s.waiting)
  empty : t.ring.released = t.ring.stored.length
  cursors : s.ring.publish.ready = true → t.ring.ring.producer = t.ring.ring.consumer

/-- The engine drains in order: after any mix of calls the book is the fold of
`apply` over the first accepted ticks. -/
structure Drained (book : OrderBook) (s : EngineState R) : Prop where
  inOrder : s.applied <+: s.ring.accepted
  settled : s.phase.ready = true → s.applied = s.ring.returned
  folded : ∃ results,
    book.applyAll (s.ring.accepted.take s.applied.length) = some (s.engine.book, results)
  answered : ∀ stats result slot, s.phase = .ranOne stats (some result) slot →
    FoldStep book (s.ring.accepted.take s.applied.length) s.engine.book stats result slot
  alive : book.Sound → s.phase ≠ .panicked
  agrees : ∀ (R' : RingSize) (actions : List EngineAction),
    ((engineMachine R' book).run actions).ring.accepted = s.ring.accepted →
      ((engineMachine R' book).run actions).applied.length = s.applied.length →
        ((engineMachine R' book).run actions).engine.book = s.engine.book
  batch : book.Sound → s.phase.ready = true → ∀ clocks : List (UInt64 × UInt64),
    clocks.length = 6 * s.waiting + 2 →
      BatchDrains s ((engineMachine R book).runFrom s (.runBatch :: engineTurns clocks))

section Runs

variable {history : List (Op NormalizedTick)} {s : EngineState R}

end Runs

end FeedHandler
