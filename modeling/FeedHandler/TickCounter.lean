import FeedHandler.DrainOrder

namespace FeedHandler

open Interleaving BoundedFifo

variable {R : RingSize} {book : OrderBook}

/-- What one action can mean for the counter. -/
inductive Ticked (s t : EngineState R) : Prop
  | quiet (phase : t.phase = s.phase) (ticks : t.engine.ticks = s.engine.ticks)
      (returned : t.ring.returned = s.ring.returned)
  | begins {call : EngineCall} (fresh : ∀ n, call = .batch n → n = 0)
      (free : s.phase.ready = true) (phase : t.phase = .consume call)
      (ticks : t.engine.ticks = s.engine.ticks) (returned : t.ring.returned = s.ring.returned)
  | takes {call : EngineCall} {tick : NormalizedTick} (stage : s.phase = .consume call)
      (phase : t.phase = .apply call tick) (ticks : t.engine.ticks = s.engine.ticks)
      (returned : t.ring.returned = s.ring.returned ++ [tick])
  | missesOne {stats : Bool} (stage : s.phase = .consume (.one stats))
      (phase : t.phase = .ranOne stats none none) (ticks : t.engine.ticks = s.engine.ticks)
      (returned : t.ring.returned = s.ring.returned)
  | endsBatch {n : UInt32} (stage : s.phase = .consume (.batch n)) (phase : t.phase = .ranBatch n)
      (ticks : t.engine.ticks = s.engine.ticks + n.toUInt64)
      (returned : t.ring.returned = s.ring.returned)
  | appliesOne {stats : Bool} {tick : NormalizedTick} (stage : s.phase = .apply (.one stats) tick)
      (phase : t.phase.ready = true) (ticks : t.engine.ticks = s.engine.ticks + 1)
      (returned : t.ring.returned = s.ring.returned)
  | appliesBatch {n : UInt32} {tick : NormalizedTick} (stage : s.phase = .apply (.batch n) tick)
      (phase : t.phase = .consume (.batch (n + 1))) (ticks : t.engine.ticks = s.engine.ticks)
      (returned : t.ring.returned = s.ring.returned)
  | faults (phase : t.phase = .panicked) (returned : t.ring.returned = s.ring.returned)

namespace Ticked

variable {s : EngineState R}

theorem begin (call : EngineCall) (fresh : ∀ n, call = .batch n → n = 0) : Ticked s (s.begin call) := by
  unfold EngineState.begin
  split
  · rename_i free
    refine .begins fresh free rfl rfl ?_
    unfold RingState.beginConsume
    split <;> rfl
  · exact .quiet rfl rfl rfl

theorem consumeStep (drives : Drives book s) (shake : Handshake s.ring) {call : EngineCall}
    (stage : s.phase = .consume call) (t0 t1 : UInt64) : Ticked s (s.engineStep t0 t1).1 := by
  have driving := drives.driving
  rw [stage] at driving
  obtain ⟨busy, _, same⟩ | ⟨ends, _, same, _⟩ | ⟨tick, ends, _, longer⟩ :=
    shake.consumerStep_cases driving
  · rw [EngineState.engineStep_busy stage busy]
    exact .quiet rfl rfl same
  · rw [EngineState.engineStep_answer stage ends]
    cases call with
    | one stats => exact .missesOne stage rfl rfl same
    | batch n => exact .endsBatch stage rfl rfl same
  · rw [EngineState.engineStep_answer stage ends]
    exact .takes stage rfl rfl longer

theorem applyStep (drives : Drives book s) {call : EngineCall} {tick : NormalizedTick}
    (stage : s.phase = .apply call tick) (t0 t1 : UInt64) : Ticked s (s.engineStep t0 t1).1 := by
  have driving := drives.driving
  rw [stage] at driving
  cases run : s.engine.book.apply tick with
  | none =>
    cases call <;>
      simp only [EngineState.engineStep, stage, BookEngine.applyOne, BookEngine.applyBatch, run,
        Option.bind_eq_bind, Option.bind_none] <;>
      exact .faults rfl rfl
  | some answer =>
    cases call with
    | one stats =>
      simp only [EngineState.engineStep, stage, BookEngine.applyOne, run, Option.bind_eq_bind,
        Option.bind_some, Option.pure_def]
      exact .appliesOne stage rfl rfl rfl
    | batch n =>
      simp only [EngineState.engineStep, stage, BookEngine.applyBatch, run, Option.bind_eq_bind,
        Option.bind_some, Option.pure_def, RingState.beginConsume_eq driving.1]
      exact .appliesBatch stage rfl rfl rfl

theorem step (drives : Drives book s) (shake : Handshake s.ring) (action : EngineAction) :
    Ticked s ((engineMachine R book).step s action).1 := by
  cases action with
  | publish tick => exact .quiet rfl rfl (RingState.beginPublish_returned tick)
  | producer => exact .quiet rfl rfl (congrArg List.reduceOption RingState.producerStep_consumed)
  | runOne stats => exact .begin (.one stats) (fun _ other => nomatch other)
  | runBatch => exact .begin (.batch 0) (fun _ same => (EngineCall.batch.inj same).symm)
  | engine t0 t1 =>
    cases stage : s.phase with
    | idle | ranOne _ _ _ | ranBatch _ | panicked =>
      simp only [engineMachine, EngineState.engineStep, stage]
      exact .quiet rfl rfl rfl
    | consume call => exact consumeStep drives shake stage t0 t1
    | apply call tick => exact applyStep drives stage t0 t1

end Ticked

section Drains

variable (R : RingSize) (book : OrderBook)

/-- After `before`, the whole of `during` runs inside one call. -/
def InsideCall (before during : List EngineAction) : Prop :=
  ∀ part, part ≠ [] → part <+: during →
    ((engineMachine R book).run (before ++ part)).phase.ready = false

/-- How many ticks the engine has taken from the ring. -/
def consumedBy (actions : List EngineAction) : Nat :=
  ((engineMachine R book).run actions).ring.returned.length

/-- No single call takes `2 ^ 32` ticks or more from the ring. -/
def ShortDrains (actions : List EngineAction) : Prop :=
  ∀ before during, before ++ during <+: actions → InsideCall R book before during →
    consumedBy R book (before ++ during) < consumedBy R book before + 2 ^ 32

/-- Wherever no call is in progress, `ticks` is the number of ticks taken from
the ring modulo its width, and advances with it. -/
structure TicksCounted (actions : List EngineAction) : Prop where
  counted : ∀ early, early <+: actions →
    ((engineMachine R book).run early).phase.ready = true →
      ((engineMachine R book).run early).engine.ticks = .ofNat (consumedBy R book early)
  advance : ∀ early during taken, early ++ during <+: actions →
    ((engineMachine R book).run early).phase.ready = true →
      ((engineMachine R book).run (early ++ during)).phase.ready = true →
        consumedBy R book (early ++ during) = consumedBy R book early + taken →
          ((engineMachine R book).run (early ++ during)).engine.ticks =
            ((engineMachine R book).run early).engine.ticks + .ofNat taken

/-- The call in progress has taken this many ticks. -/
def TakenInCall (actions : List EngineAction) (taken : Nat) : Prop :=
  ∃ before during, actions = before ++ during ∧ InsideCall R book before during ∧
    consumedBy R book actions = consumedBy R book before + taken

/-- What the counter and the local count owe each other. -/
def Tally (actions : List EngineAction) : EnginePhase → Prop
  | .idle | .ranOne _ _ _ | .ranBatch _ | .consume (.one _) =>
    ((engineMachine R book).run actions).engine.ticks = .ofNat (consumedBy R book actions)
  | .apply (.one _) _ =>
    ((engineMachine R book).run actions).engine.ticks + 1 = .ofNat (consumedBy R book actions)
  | .consume (.batch n) => ∃ m, TakenInCall R book actions m ∧ n = .ofNat m ∧
    ((engineMachine R book).run actions).engine.ticks + .ofNat m =
      .ofNat (consumedBy R book actions)
  | .apply (.batch n) _ => ∃ m, TakenInCall R book actions (m + 1) ∧ n = .ofNat m ∧
    ((engineMachine R book).run actions).engine.ticks + .ofNat (m + 1) =
      .ofNat (consumedBy R book actions)
  | .panicked => True

end Drains

section Runs

variable {actions : List EngineAction} {action : EngineAction} {taken : Nat}

theorem ShortDrains.early {early : List EngineAction} (short : ShortDrains R book actions)
    (within : early <+: actions) : ShortDrains R book early :=
  fun before during sub => short before during (sub.trans within)

theorem TakenInCall.lt (inside : TakenInCall R book actions taken)
    (short : ShortDrains R book actions) : taken < 2 ^ 32 := by
  obtain ⟨before, during, rfl, inCall, count⟩ := inside
  have bound := short before during (List.prefix_refl _) inCall
  omega

theorem TakenInCall.start (busy : ((engineMachine R book).run (actions ++ [action])).phase.ready =
      false) (same : consumedBy R book (actions ++ [action]) = consumedBy R book actions) :
    TakenInCall R book (actions ++ [action]) 0 := by
  refine ⟨actions, [action], rfl, fun part nonempty within => ?_, same⟩
  rcases List.prefix_cons_iff.mp within with empty | ⟨rest, whole, nothing⟩
  · exact absurd empty nonempty
  · rw [whole, List.prefix_nil.mp nothing]
    exact busy

theorem TakenInCall.next (inside : TakenInCall R book actions taken) (more : Nat)
    (busy : ((engineMachine R book).run (actions ++ [action])).phase.ready = false)
    (count : consumedBy R book (actions ++ [action]) = consumedBy R book actions + more) :
    TakenInCall R book (actions ++ [action]) (taken + more) := by
  obtain ⟨before, during, rfl, inCall, base⟩ := inside
  refine ⟨before, during ++ [action], List.append_assoc _ _ _, fun part nonempty within => ?_, ?_⟩
  · rcases List.prefix_concat_iff.mp within with whole | earlier
    · rw [whole, ← List.append_assoc]
      exact busy
    · exact inCall part nonempty earlier
  · omega

theorem ofNat_toUInt64 {n : Nat} (small : n < 2 ^ 32) :
    (UInt32.ofNat n).toUInt64 = .ofNat n := by
  apply UInt64.toNat_inj.mp
  rw [UInt32.toNat_toUInt64, UInt32.toNat_ofNat_of_lt' small,
    UInt64.toNat_ofNat_of_lt' (small.trans (by decide))]

theorem Tally.of_ready {phase : EnginePhase} (free : phase.ready = true) :
    Tally R book actions phase ↔
      ((engineMachine R book).run actions).engine.ticks = .ofNat (consumedBy R book actions) := by
  cases phase with
  | idle | ranOne _ _ _ | ranBatch _ => rfl
  | consume _ | apply _ _ | panicked => cases free

theorem Tally.quiet {phase : EnginePhase} (tally : Tally R book actions phase)
    (stage : ((engineMachine R book).run (actions ++ [action])).phase = phase)
    (ticks : ((engineMachine R book).run (actions ++ [action])).engine.ticks =
      ((engineMachine R book).run actions).engine.ticks)
    (count : consumedBy R book (actions ++ [action]) = consumedBy R book actions) :
    Tally R book (actions ++ [action]) phase := by
  cases phase with
  | idle | ranOne _ _ _ | ranBatch _ =>
    rw [Tally, ticks, count]
    exact tally
  | consume call | apply call _ =>
    cases call with
    | one stats =>
      rw [Tally, ticks, count]
      exact tally
    | batch n =>
      obtain ⟨m, inside, same, owed⟩ := tally
      refine ⟨m, inside.next 0 (by rw [stage]; rfl) count, same, ?_⟩
      rw [ticks, count]
      exact owed
  | panicked => trivial

/-- A call starts from a counter that owes nothing. -/
theorem Tally.begins {phase : EnginePhase} {call : EngineCall} (tally : Tally R book actions phase)
    (fresh : ∀ n, call = .batch n → n = 0) (free : phase.ready = true)
    (stage : ((engineMachine R book).run (actions ++ [action])).phase = .consume call)
    (ticks : ((engineMachine R book).run (actions ++ [action])).engine.ticks =
      ((engineMachine R book).run actions).engine.ticks)
    (count : consumedBy R book (actions ++ [action]) = consumedBy R book actions) :
    Tally R book (actions ++ [action]) (.consume call) := by
  have owed := (Tally.of_ready free).mp tally
  cases call with
  | one stats =>
    rw [Tally, ticks, count]
    exact owed
  | batch n =>
    refine ⟨0, .start (by rw [stage]; rfl) count, fresh n rfl, ?_⟩
    rw [ticks, count, owed]
    exact UInt64.add_zero _

/-- A tick taken from the ring is owed until it is applied. -/
theorem Tally.takes {call : EngineCall} {tick : NormalizedTick}
    (tally : Tally R book actions (.consume call))
    (stage : ((engineMachine R book).run (actions ++ [action])).phase = .apply call tick)
    (ticks : ((engineMachine R book).run (actions ++ [action])).engine.ticks =
      ((engineMachine R book).run actions).engine.ticks)
    (count : consumedBy R book (actions ++ [action]) = consumedBy R book actions + 1) :
    Tally R book (actions ++ [action]) (.apply call tick) := by
  cases call with
  | one stats =>
    rw [Tally, ticks, count, tally]
    exact ofNat_add_one _
  | batch n =>
    obtain ⟨m, inside, same, owed⟩ := tally
    refine ⟨m, inside.next 1 (by rw [stage]; rfl) count, same, ?_⟩
    rw [ticks, count, ← ofNat_add_one m, ← UInt64.add_assoc, owed]
    exact ofNat_add_one _

/-- One action keeps the tally, as long as the local count has not wrapped. -/
theorem Tally.step (tally : Tally R book actions ((engineMachine R book).run actions).phase)
    (short : ShortDrains R book actions)
    (ticked : Ticked ((engineMachine R book).run actions)
      ((engineMachine R book).run (actions ++ [action]))) :
    Tally R book (actions ++ [action]) ((engineMachine R book).run (actions ++ [action])).phase := by
  have lengths {list : List NormalizedTick}
      (returned : ((engineMachine R book).run (actions ++ [action])).ring.returned = list) :
      consumedBy R book (actions ++ [action]) = list.length := congrArg List.length returned
  cases ticked with
  | quiet phase ticks returned =>
    rw [phase]
    exact tally.quiet phase ticks (lengths returned)
  | begins fresh free phase ticks returned =>
    rw [phase]
    exact tally.begins fresh free phase ticks (lengths returned)
  | takes stage phase ticks returned =>
    rw [stage] at tally
    rw [phase]
    exact tally.takes phase ticks ((lengths returned).trans List.length_append)
  | missesOne stage phase ticks returned =>
    rw [stage] at tally
    rw [phase, Tally, ticks, lengths returned]
    exact tally
  | endsBatch stage phase ticks returned =>
    rw [stage] at tally
    obtain ⟨m, inside, same, owed⟩ := tally
    rw [phase, Tally, ticks, lengths returned, same, ofNat_toUInt64 (inside.lt short)]
    exact owed
  | appliesOne stage phase ticks returned =>
    rw [stage] at tally
    rw [Tally.of_ready phase, ticks, lengths returned]
    exact tally
  | appliesBatch stage phase ticks returned =>
    rw [stage] at tally
    obtain ⟨m, inside, same, owed⟩ := tally
    rw [phase]
    refine ⟨m + 1, inside.next 0 (by rw [phase]; rfl) (lengths returned), ?_, ?_⟩
    · rw [same, UInt32.ofNat_add]
      rfl
    · rw [ticks, lengths returned]
      exact owed
  | faults phase _ =>
    rw [phase]
    trivial

theorem ShortDrains.tally (short : ShortDrains R book actions) :
    Tally R book actions ((engineMachine R book).run actions).phase := by
  induction actions using List.reverseRecOn with
  | nil => rfl
  | append_singleton actions action ih =>
    have short' := short.early (List.prefix_append actions [action])
    have reach := Machine.reach_run (M := engineMachine R book) actions
    refine (ih short').step short' ?_
    rw [Machine.run_concat]
    exact Ticked.step (reach_drives reach) (reach_handshake (engine_runs_ring reach)).1 action

theorem consumedBy_concat_le (R : RingSize) (book : OrderBook) (actions : List EngineAction)
    (action : EngineAction) :
    consumedBy R book (actions ++ [action]) ≤ consumedBy R book actions + 1 := by
  have reach := Machine.reach_run (M := engineMachine R book) actions
  have ticked := Ticked.step (reach_drives reach) (reach_handshake (engine_runs_ring reach)).1 action
  rw [consumedBy, consumedBy, Machine.run_concat]
  cases ticked with
  | takes _ _ _ returned =>
    rw [returned, List.length_append]
    rfl
  | quiet _ _ returned | begins _ _ _ _ returned | missesOne _ _ _ returned
  | endsBatch _ _ _ returned | appliesOne _ _ _ returned | appliesBatch _ _ _ returned
  | faults _ returned =>
    rw [returned]
    exact Nat.le_succ _

theorem consumedBy_append_le (R : RingSize) (book : OrderBook) (before during : List EngineAction) :
    consumedBy R book (before ++ during) ≤ consumedBy R book before + during.length := by
  induction during using List.reverseRecOn with
  | nil =>
    rw [List.append_nil]
    exact Nat.le_refl _
  | append_singleton during action ih =>
    have last := consumedBy_concat_le R book (before ++ during) action
    rw [← List.append_assoc, List.length_append, List.length_singleton]
    omega

/-- A call that takes so many ticks takes as many steps. -/
theorem shortDrains_of_length (brief : actions.length < 2 ^ 32) : ShortDrains R book actions := by
  intro before during within _
  have grows := consumedBy_append_le R book before during
  have bound := within.length_le
  rw [List.length_append] at bound
  omega

end Runs

/-- In every run without a drain of `2 ^ 32` ticks the counter loses none. -/
theorem short_drains_count_every_tick (R : RingSize) (book : OrderBook)
    (actions : List EngineAction) (short : ShortDrains R book actions) :
    TicksCounted R book actions := by
  have counted (early : List EngineAction) (within : early <+: actions)
      (free : ((engineMachine R book).run early).phase.ready = true) :=
    (Tally.of_ready free).mp (short.early within).tally
  refine ⟨counted, fun early during taken within free free' more => ?_⟩
  rw [counted _ within free', counted _ ((List.prefix_append _ _).trans within) free, more]
  exact UInt64.ofNat_add _ _

/-- One publish call. -/
def publishCall (tick : NormalizedTick) : List EngineAction :=
  .publish tick :: List.replicate 5 .producer

/-- A `run_batch` that the producer refills on the way, and a `run_one` on a
ring with a tick to spare. -/
def mixedDrains : List EngineAction :=
  publishCall (bidTick 100 1 1) ++ publishCall (bidTick 101 1 2) ++
    .runBatch :: engineTurns (List.replicate 7 (0, 0)) ++ publishCall (bidTick 102 1 3) ++
    engineTurns (List.replicate 13 (0, 0)) ++ publishCall (bidTick 103 1 4) ++
    publishCall (bidTick 104 1 5) ++ .runOne true :: engineTurns (List.replicate 6 (0, 0))

theorem mixed_drains_count_every_tick :
    TicksCounted .loom (.new (.fromBytes []) .binance) mixedDrains ∧
      ((engineMachine .loom (.new (.fromBytes []) .binance)).run mixedDrains).phase.ready = true ∧
      consumedBy .loom (.new (.fromBytes []) .binance) mixedDrains = 4 :=
  ⟨short_drains_count_every_tick _ _ _ (shortDrains_of_length (by decide)), by decide +kernel,
    by decide +kernel⟩

/-- One tick through a `run_batch` under way: published, consumed, applied. -/
def lap : List EngineAction :=
  publishCall .default ++ engineTurns (List.replicate 6 (0, 0))

/-- One `run_batch` that the producer keeps alive for `k` ticks. -/
def longDrain (k : Nat) : List EngineAction :=
  .runBatch :: (List.replicate k lap).flatten ++ engineTurns (List.replicate 2 (0, 0))

section LongDrain

variable {s : EngineState R} {k : Nat}

/-- `run_batch` has taken `k` ticks and is about to look at an empty ring. -/
structure Lapped (book : OrderBook) (k : Nat) (s : EngineState R) : Prop where
  reached : ∃ history, (engineMachine R book).Reach history s
  stored : s.ring.stored.length = k
  released : s.ring.released = k
  publish : s.ring.publish.ready = true
  consume : s.ring.consume = .loadCursor
  phase : s.phase = .consume (.batch (.ofNat k))
  ticks : s.engine.ticks = 0

/-- A publish call with room does only this. -/
theorem publishCall_run (book : OrderBook) (shake : Handshake s.ring) (free : s.ring.publish.ready = true)
    (room : s.ring.stored.length < s.ring.released + R.val) (tick : NormalizedTick) :
    ∃ disruptor published, (engineMachine R book).runFrom s (publishCall tick) =
      { s with
        ring := { s.ring with
          ring := disruptor
          publish := .returned true
          stored := s.ring.stored ++ [tick]
          published } } := by
  have cursor := shake.producer_settled free
  have check := shake.slots.producer_check.mpr room
  simp only [publishCall, List.replicate, Machine.runFrom, List.foldl, engineMachine,
    RingState.beginPublish, free, if_true, RingState.producerStep, cursor, check, ne_eq,
    not_true_eq_false, if_false]
  exact ⟨_, _, rfl⟩

/-- A turn of the batch with a tick waiting does only this. -/
theorem batchTurn_run (book : OrderBook) (shake : Handshake s.ring) (stage : s.ring.consume = .loadCursor)
    (waiting : s.ring.released < s.ring.stored.length) {n : UInt32}
    (phase : s.phase = .consume (.batch n)) (sound : s.engine.book.Sound) :
    ∃ disruptor consumed final,
      (engineMachine R book).runFrom s (engineTurns (List.replicate 6 (0, 0))) =
        ⟨{ s.ring with
            ring := disruptor
            consume := .loadCursor
            released := s.ring.released + 1
            consumed },
          { s.engine with book := final }, .consume (.batch (n + 1))⟩ := by
  have consuming := shake.consuming
  rw [stage] at consuming
  have check := shake.slots.consumer_check.mpr waiting
  obtain ⟨final, result, run, _⟩ :=
    sound.apply (s.ring.ring.buffer (R.slot (.ofNat s.ring.released))).tick
  simp only [engineTurns, List.replicate, List.map, Machine.runFrom, List.foldl, engineMachine,
    EngineState.engineStep, phase, RingState.consumerStep, stage, consuming.1, ofNat_add_one, check,
    ne_eq, not_true_eq_false, if_false, EngineState.answered, BookEngine.applyBatch, run,
    Option.bind_eq_bind, Option.bind_some, Option.pure_def, RingState.beginConsume, Consume.ready,
    if_true]
  exact ⟨_, _, _, rfl⟩

/-- A turn of the batch with nothing waiting ends it. -/
theorem lastTurn_run (book : OrderBook) (shake : Handshake s.ring) (stage : s.ring.consume = .loadCursor)
    (drained : s.ring.stored.length ≤ s.ring.released) {n : UInt32}
    (phase : s.phase = .consume (.batch n)) :
    (engineMachine R book).runFrom s (engineTurns (List.replicate 2 (0, 0))) =
      ⟨{ s.ring with consume := .returned none, consumed := s.ring.consumed ++ [none] },
        s.engine.countBatch n, .ranBatch n⟩ := by
  have consuming := shake.consuming
  rw [stage] at consuming
  have check := mt shake.slots.consumer_check.mp (Nat.not_lt.mpr drained)
  simp only [engineTurns, List.replicate, List.map, Machine.runFrom, List.foldl, engineMachine,
    EngineState.engineStep, phase, RingState.consumerStep, stage, consuming.1, ofNat_add_one, check,
    ne_eq, not_false_eq_true, if_true, EngineState.answered]

theorem Lapped.next (sound : book.Sound) (lapped : Lapped book k s) :
    Lapped book (k + 1) ((engineMachine R book).runFrom s lap) := by
  obtain ⟨history, reach⟩ := lapped.reached
  have shake := (reach_handshake (engine_runs_ring reach)).1
  have room : s.ring.stored.length < s.ring.released + R.val := by
    have size := R.pos
    rw [lapped.stored, lapped.released]
    omega
  obtain ⟨disruptor, published, called⟩ :=
    publishCall_run book shake lapped.publish room .default
  have reach' := reach.runFrom (publishCall .default)
  have reach'' := reach'.runFrom (engineTurns (List.replicate 6 (0, 0)))
  rw [lap, Machine.runFrom_append]
  rw [called] at reach' reach'' ⊢
  obtain ⟨disruptor', consumed, final, turned⟩ :=
    batchTurn_run book (reach_handshake (engine_runs_ring reach')).1 lapped.consume
      (by simp only [List.length_append, List.length_singleton, lapped.stored, lapped.released]
          omega) lapped.phase ((reach_drives reach').sound sound)
  rw [turned] at reach'' ⊢
  refine ⟨⟨_, reach''⟩, ?_, ?_, rfl, rfl, ?_, lapped.ticks⟩
  · rw [List.length_append, lapped.stored]
    rfl
  · dsimp only
    rw [lapped.released]
  · rw [UInt32.ofNat_add]
    rfl

theorem Lapped.start (R : RingSize) (book : OrderBook) :
    Lapped book 0 ((engineMachine R book).run [.runBatch]) :=
  ⟨⟨_, Machine.reach_run (M := engineMachine R book) [.runBatch]⟩, rfl, rfl, rfl, rfl, rfl, rfl⟩

theorem lapped_laps (R : RingSize) (sound : book.Sound) (k : Nat) :
    Lapped book k ((engineMachine R book).run (.runBatch :: (List.replicate k lap).flatten)) := by
  induction k with
  | zero => exact .start R book
  | succ k ih =>
    have next := ih.next sound
    rw [Machine.run, ← Machine.runFrom_append] at next
    rwa [List.replicate_succ', List.flatten_concat]

end LongDrain

/-- However long the drain, `run_batch` adds the low 32 bits of its length. -/
theorem long_drain_adds_low_bits (R : RingSize) (sound : book.Sound) (k : Nat) :
    ((engineMachine R book).run (longDrain k)).phase.ready = true ∧
      ((engineMachine R book).run (longDrain k)).engine.ticks = (UInt32.ofNat k).toUInt64 ∧
      consumedBy R book (longDrain k) = k := by
  have lapped := lapped_laps R sound k
  obtain ⟨history, reach⟩ := lapped.reached
  have shake := (reach_handshake (engine_runs_ring reach)).1
  have consuming := shake.consuming
  rw [lapped.consume] at consuming
  have ended : (engineMachine R book).run (longDrain k) = _ :=
    (Machine.runFrom_append _ _ _ _).trans (lastTurn_run book shake lapped.consume
      (by rw [lapped.stored, lapped.released]) lapped.phase)
  rw [consumedBy, ended]
  refine ⟨rfl, ?_, ?_⟩
  · rw [BookEngine.countBatch, lapped.ticks]
    exact UInt64.zero_add _
  · rw [RingState.returned, Handshake.reduceOption_concat]
    simp only [Option.toList_none, List.append_nil]
    rw [← RingState.returned, consuming.2, List.length_take, lapped.stored, lapped.released,
      Nat.min_self]

/-- A drain of `2 ^ 32` ticks is not counted at all. -/
theorem drain_of_two_pow_32_counts_nothing :
    ¬ TicksCounted .loom (.new (.fromBytes []) .binance) (longDrain (2 ^ 32)) := by
  intro holds
  obtain ⟨free, ticks, count⟩ :=
    long_drain_adds_low_bits .loom (OrderBook.new_sound (.fromBytes []) .binance) (2 ^ 32)
  have counted := holds.counted _ (List.prefix_refl _) free
  rw [ticks, count] at counted
  exact absurd counted (by decide)

end FeedHandler
