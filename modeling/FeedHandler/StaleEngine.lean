import FeedHandler.DrainOrder
import FeedHandler.RingHistories

namespace FeedHandler

open Interleaving BoundedFifo ReleaseAcquire

/-- A `BookEngine` on the ring whose loads may be stale. -/
structure StaleEngine (R : RingSize) where
  ring : StaleRing R
  engine : BookEngine
  phase : EnginePhase

namespace StaleEngine

variable {R : RingSize}

def new (R : RingSize) (book : OrderBook) : StaleEngine R where
  ring := .new R
  engine := .new book
  phase := .idle

/-- The engine on the ring that remains when only the newest entries are kept. -/
def current (s : StaleEngine R) : EngineState R := ⟨s.ring.current, s.engine, s.phase⟩

def begin (s : StaleEngine R) (call : EngineCall) : StaleEngine R :=
  if s.phase.ready then { s with ring := s.ring.beginConsume, phase := .consume call } else s

def answered (s : StaleEngine R) (call : EngineCall) : Option NormalizedTick → StaleEngine R
  | some tick => { s with phase := .apply call tick }
  | none =>
    match call with
    | .one stats => { s with phase := .ranOne stats none none }
    | .batch n => { s with engine := s.engine.countBatch n, phase := .ranBatch n }

/-- The next step of the engine. A load of the slot reads the entry `pick`. -/
def engineStep (s : StaleEngine R) (pick : Nat) (t0 t1 : UInt64) : StaleEngine R :=
  match s.phase with
  | .idle | .ranOne _ _ _ | .ranBatch _ | .panicked => s
  | .consume call =>
    let ring := s.ring.consumerStep pick
    match ring.consume with
    | .returned answer => { s with ring }.answered call answer
    | _ => { s with ring }
  | .apply (.one stats) tick =>
    match s.engine.applyOne tick stats t0 t1 with
    | none => { s with phase := .panicked }
    | some (engine, result, slot) => { s with engine, phase := .ranOne stats (some result) slot }
  | .apply (.batch n) tick =>
    match s.engine.applyBatch tick with
    | none => { s with phase := .panicked }
    | some engine => ⟨s.ring.beginConsume, engine, .consume (.batch (n + 1))⟩

end StaleEngine

variable {R : RingSize} {book : OrderBook}

namespace StaleRing

variable {s : StaleRing R}

theorem beginPublish_consume (tick : NormalizedTick) :
    (s.beginPublish tick).consume = s.consume ∧ (s.beginPublish tick).consumed = s.consumed := by
  unfold beginPublish
  split <;> exact ⟨rfl, rfl⟩

theorem producerStep_consume (pick : Nat) :
    (s.producerStep pick).consume = s.consume ∧ (s.producerStep pick).consumed = s.consumed := by
  unfold producerStep
  split <;> (try split) <;> exact ⟨rfl, rfl⟩

/-- What one step inside `try_consume` can mean to its caller: it goes on, or it
answers, and what it hands over is appended to what was returned. -/
theorem consumerStep_cases (busy : s.consume.ready = false) (pick : Nat) :
    ((s.consumerStep pick).consume.ready = false ∧
        (s.consumerStep pick).current.returned = s.current.returned) ∨
      ∃ answer, (s.consumerStep pick).consume = .returned answer ∧
        (s.consumerStep pick).current.returned = s.current.returned ++ answer.toList := by
  unfold consumerStep
  cases stage : s.consume with
  | idle | returned _ =>
    rw [stage] at busy
    cases busy
  | loadCursor | readTick _ | storeSequence _ _ => exact .inl ⟨rfl, rfl⟩
  | loadSequence cons =>
    dsimp only
    split
    · exact .inl ⟨stage ▸ rfl, rfl⟩
    · split
      · exact .inr ⟨none, rfl, Handshake.reduceOption_concat _ _⟩
      · exact .inl ⟨rfl, rfl⟩
  | storeCursor cons tick => exact .inr ⟨some tick, rfl, Handshake.reduceOption_concat _ _⟩

end StaleRing

namespace StaleEngine

variable {s : StaleEngine R} {call : EngineCall}

theorem answered_ring (answer : Option NormalizedTick) : (s.answered call answer).ring = s.ring := by
  unfold answered
  split
  · rfl
  · split <;> rfl

theorem engineStep_busy (stage : s.phase = .consume call) {pick : Nat}
    (busy : (s.ring.consumerStep pick).consume.ready = false) (t0 t1 : UInt64) :
    s.engineStep pick t0 t1 = { s with ring := s.ring.consumerStep pick } := by
  unfold engineStep
  rw [stage]
  dsimp only
  split
  · rename_i answer ends
    rw [ends] at busy
    cases busy
  · rfl

theorem engineStep_answer (stage : s.phase = .consume call) {pick : Nat}
    {answer : Option NormalizedTick}
    (ends : (s.ring.consumerStep pick).consume = .returned answer) (t0 t1 : UInt64) :
    s.engineStep pick t0 t1 =
      StaleEngine.answered { s with ring := s.ring.consumerStep pick } call answer := by
  unfold engineStep
  rw [stage]
  dsimp only
  rw [ends]

end StaleEngine

namespace Drives

variable {s : EngineState R} {call : EngineCall}

theorem answers (drives : Drives book s) (stage : s.phase = .consume call) {ring : RingState R}
    {answer : Option NormalizedTick} (ends : ring.consume = .returned answer)
    (longer : ring.returned = s.ring.returned ++ answer.toList) :
    Drives book (EngineState.answered { s with ring } call answer) := by
  have folded := drives.folded
  rw [EngineState.applied, stage] at folded
  have settled : ring.consume.ready = true := by rw [ends]; rfl
  cases answer with
  | none =>
    rw [Option.toList_none, List.append_nil] at longer
    rw [← longer] at folded
    cases call with
    | one stats =>
      exact ⟨settled, folded, fun _ _ _ ran => (by cases ran), fun ran => (by cases ran)⟩
    | batch n =>
      exact ⟨settled, folded, fun _ _ _ ran => (by cases ran), fun ran => (by cases ran)⟩
  | some tick =>
    refine ⟨⟨settled, _, longer⟩, ?_, fun _ _ _ ran => (by cases ran), fun ran => (by cases ran)⟩
    simp only [EngineState.answered, EngineState.applied, longer, Option.toList_some,
      List.dropLast_concat]
    exact folded

end Drives

namespace StaleRing

variable {s : StaleRing R} {cons value : UInt64} {pick : Nat} {view : View NormalizedTick}

/-- The consumer has seen no entry that is not there. -/
def InView (s : StaleRing R) : Prop :=
  ∀ i, (s.consumerView i).seen < (s.slots i).entries.length

theorem InView.producerStep (inView : s.InView) (pick : Nat) : (s.producerStep pick).InView := by
  have stores (i j : Fin R.val) (view : View NormalizedTick) (value : UInt64) :
      (s.consumerView j).seen <
        (Function.update s.slots i ((s.slots i).store view value) j).entries.length := by
    rw [Function.update_apply]
    split
    · rename_i here
      rw [length_store, here]
      exact Nat.lt_succ_of_lt (inView i)
    · exact inView j
  unfold StaleRing.producerStep
  cases s.publish with
  | idle | returned _ | loadCursor _ | countDrop _ | writeTick _ _ | storeCursor _ _ => exact inView
  | loadSequence tick prod =>
    dsimp only
    split <;> exact inView
  | storeSequence tick prod => exact fun j => stores (R.slot prod) j _ _

theorem InView.look (inView : s.InView) {i : Fin R.val}
    (loaded : (s.slots i).load (s.consumerView i) pick = some (value, view)) (j : Fin R.val) :
    (Function.update s.consumerView i view j).seen < (s.slots j).entries.length := by
  obtain ⟨_, inside, seen, _⟩ := load_eq_some loaded
  rw [Function.update_apply]
  split
  · rename_i here
    rw [seen, here]
    exact inside
  · exact inView j

theorem InView.consumerStep (inView : s.InView) (pick : Nat) : (s.consumerStep pick).InView := by
  unfold StaleRing.consumerStep
  cases s.consume with
  | idle | returned _ | loadCursor | readTick _ | storeCursor _ _ => exact inView
  | loadSequence cons =>
    dsimp only
    split
    · exact inView
    · rename_i loaded
      split <;> exact inView.look loaded
  | storeSequence cons tick =>
    intro j
    dsimp only
    rw [Function.update_apply, Function.update_apply]
    split
    · rw [View.stored, length_store]
      exact Nat.lt_succ_self _
    · exact inView j

theorem InView.step (inView : s.InView) (action : StaleAction) :
    ((staleMachine R).step s action).1.InView := by
  cases action with
  | publish tick =>
    dsimp only [staleMachine, StaleRing.beginPublish]
    split <;> exact inView
  | producer pick => exact inView.producerStep pick
  | consume =>
    dsimp only [staleMachine, StaleRing.beginConsume]
    split <;> exact inView
  | consumer pick => exact inView.consumerStep pick

end StaleRing

namespace StaleEngine

variable {s : StaleEngine R}

end StaleEngine

end FeedHandler
