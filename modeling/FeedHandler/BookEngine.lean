import FeedHandler.OrderBook
import FeedHandler.RingHandshake

namespace FeedHandler

open Interleaving BoundedFifo

/-- A latency sample. The padding of the source carries no data. -/
structure TickStats where
  latencyTicks : UInt64
  sequence : UInt64
  result : DeltaResult
  deriving DecidableEq, Repr

/-- The engine. The ring it shares with the producer is kept beside it. -/
structure BookEngine where
  book : OrderBook
  ticks : UInt64
  deriving DecidableEq, Repr

namespace BookEngine

def new (book : OrderBook) : BookEngine where
  book := book
  ticks := 0

/-- The body of `run_one` once `try_consume` has handed over a tick. The two
readings of the clock count only when stats are asked for. -/
def applyOne (engine : BookEngine) (tick : NormalizedTick) (stats : Bool) (t0 t1 : UInt64) :
    Option (BookEngine × DeltaResult × Option TickStats) := do
  let (book, result) ← engine.book.apply tick
  let slot := if stats then
      some { latencyTicks := t1 - t0, sequence := tick.sequence, result : TickStats }
    else none
  return ({ book, ticks := engine.ticks + 1 }, result, slot)

/-- The loop body of `run_batch`. -/
def applyBatch (engine : BookEngine) (tick : NormalizedTick) : Option BookEngine := do
  let (book, _) ← engine.book.apply tick
  return { engine with book }

/-- The end of `run_batch`, after its loop. -/
def countBatch (engine : BookEngine) (n : UInt32) : BookEngine :=
  { engine with ticks := engine.ticks + n.toUInt64 }

end BookEngine

/-- A call in progress: `run_one` and whether it was given a stats slot, or
`run_batch` and its local count. -/
inductive EngineCall
  | one (stats : Bool)
  | batch (n : UInt32)
  deriving DecidableEq, Repr

/-- Where the engine stands, named after what it does next or did last. -/
inductive EnginePhase
  | idle
  | consume (call : EngineCall)
  | apply (call : EngineCall) (tick : NormalizedTick)
  | ranOne (stats : Bool) (answer : Option DeltaResult) (slot : Option TickStats)
  | ranBatch (n : UInt32)
  | panicked
  deriving DecidableEq, Repr

/-- No call is in progress. -/
def EnginePhase.ready : EnginePhase → Bool
  | .idle | .ranOne _ _ _ | .ranBatch _ => true
  | _ => false

structure EngineState (R : RingSize) where
  ring : RingState R
  engine : BookEngine
  phase : EnginePhase

namespace EngineState

variable {R : RingSize}

def new (R : RingSize) (book : OrderBook) : EngineState R where
  ring := .new R
  engine := .new book
  phase := .idle

/-- The ticks taken from the ring and through `apply`. -/
def applied (s : EngineState R) : List NormalizedTick :=
  match s.phase with
  | .apply _ _ | .panicked => s.ring.returned.dropLast
  | _ => s.ring.returned

/-- A call of the engine starts with its first `try_consume`. -/
def begin (s : EngineState R) (call : EngineCall) : EngineState R :=
  if s.phase.ready then { s with ring := s.ring.beginConsume, phase := .consume call } else s

/-- `try_consume` has answered: nothing there ends the call. -/
def answered (s : EngineState R) (call : EngineCall) : Option NormalizedTick → EngineState R
  | some tick => { s with phase := .apply call tick }
  | none =>
    match call with
    | .one stats => { s with phase := .ranOne stats none none }
    | .batch n => { s with engine := s.engine.countBatch n, phase := .ranBatch n }

/-- The next step of the engine: one atomic step inside `try_consume`, or one
tick through the book, which nobody else can see. -/
def engineStep (s : EngineState R) (t0 t1 : UInt64) : EngineState R × List (Op NormalizedTick) :=
  match s.phase with
  | .idle | .ranOne _ _ _ | .ranBatch _ | .panicked => (s, [])
  | .consume call =>
    let (ring, ops) := s.ring.consumerStep
    match ring.consume with
    | .returned answer => ({ s with ring }.answered call answer, ops)
    | _ => ({ s with ring }, ops)
  | .apply (.one stats) tick =>
    match s.engine.applyOne tick stats t0 t1 with
    | none => ({ s with phase := .panicked }, [])
    | some (engine, result, slot) =>
      ({ s with engine, phase := .ranOne stats (some result) slot }, [])
  | .apply (.batch n) tick =>
    match s.engine.applyBatch tick with
    | none => ({ s with phase := .panicked }, [])
    | some engine =>
      ({ ring := s.ring.beginConsume, engine, phase := .consume (.batch (n + 1)) }, [])

end EngineState

/-- The engine's own steps carry the readings of the clock. -/
inductive EngineAction
  | publish (tick : NormalizedTick)
  | producer
  | runOne (stats : Bool)
  | runBatch
  | engine (t0 t1 : UInt64)
  deriving DecidableEq, Repr

/-- A producer and a `BookEngine` on one ring, in any interleaving. -/
def engineMachine (R : RingSize) (book : OrderBook) :
    Machine (EngineState R) EngineAction (Op NormalizedTick) where
  start := .new R book
  step s
    | .publish tick => ({ s with ring := s.ring.beginPublish tick }, [])
    | .producer => ({ s with ring := s.ring.producerStep.1 }, s.ring.producerStep.2)
    | .runOne stats => (s.begin (.one stats), [])
    | .runBatch => (s.begin (.batch 0), [])
    | .engine t0 t1 => s.engineStep t0 t1

end FeedHandler
