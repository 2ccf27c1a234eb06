import FeedHandler.Canary
import FeedHandler.RingCalls

namespace FeedHandler

open Interleaving BoundedFifo Poison

variable {R : RingSize} {T : Type*} [DecidableEq T]

namespace RingState

variable {s : RingState R}

/-- The producer neither reads nor moves the place of the consumer. -/
theorem producerStep_frame (consume : Consume) :
    ({ s with consume } : RingState R).producerStep =
      ({ s.producerStep.1 with consume }, s.producerStep.2) := by
  obtain ⟨ring, publish, _, stored, released, published, consumed⟩ := s
  cases publish with
  | loadSequence tick prod =>
    simp only [producerStep]
    split <;> rfl
  | _ => rfl

theorem consumerStep_frame (publish : Publish) :
    ({ s with publish } : RingState R).consumerStep =
      ({ s.consumerStep.1 with publish }, s.consumerStep.2) := by
  obtain ⟨ring, _, consume, stored, released, published, consumed⟩ := s
  cases consume with
  | loadSequence cons =>
    simp only [consumerStep]
    split <;> rfl
  | _ => rfl

theorem beginPublish_eq {tick : NormalizedTick} (free : s.publish.ready = true) :
    s.beginPublish tick = { s with publish := .loadCursor tick } :=
  if_pos free

theorem beginConsume_publish : s.beginConsume.publish = s.publish := by
  unfold beginConsume
  split <;> rfl

theorem producerStep_idle (idle : s.publish = .idle) : s.producerStep = (s, []) := by
  rw [producerStep, idle]

theorem consumerStep_idle (idle : s.consume = .idle) : s.consumerStep = (s, []) := by
  rw [consumerStep, idle]

end RingState

section Check

variable {slot : Mutex (Option T)} {role : String} {current : T}

theorem checkSingleThread_passed (passed : (checkSingleThread slot role current).2 = .ok ()) :
    (∀ id ∈ slot.value, id = current) ∧
      (checkSingleThread slot role current).1.value = some current := by
  have fine : (verdict role slot.value current).isOk = true := by
    rw [← checkSingleThread_outcome, passed]
    rfl
  have owned := verdict_isOk.mp fine
  refine ⟨owned, ?_⟩
  rw [checkSingleThread_value]
  cases claimed : slot.value with
  | none => rfl
  | some id => exact congrArg some (owned id claimed)

theorem checkSingleThread_panicked {panic : AssertEq T}
    (stopped : (checkSingleThread slot role current).2 = .error panic) :
    (checkSingleThread slot role current).1.value = slot.value := by
  rw [checkSingleThread_outcome] at stopped
  rw [checkSingleThread_value]
  cases claimed : slot.value with
  | none =>
    rw [claimed] at stopped
    cases stopped
  | some id => rfl

/-- The owner of a role stays. -/
theorem checkSingleThread_keeps {id : T} (owner : id ∈ slot.value) :
    id ∈ (checkSingleThread slot role current).1.value := by
  rw [checkSingleThread_value, Option.mem_def.mp owner]
  rfl

end Check

namespace DebugState

variable {s : DebugState R T} {caller : T} {role : Role} {after : RingState R}

/-- The ring with the owners of the two roles as its parties. -/
def owners (s : DebugState R T) : RingState R where
  ring := s.ring.toSpscDisruptor
  publish := s.ring.producerThread.value.elim .idle s.publishing
  consume := s.ring.consumerThread.value.elim .idle s.consuming
  stored := s.stored
  released := s.released
  published := s.published
  consumed := s.consumed

/-- A thread that does not own a role was never inside its call. -/
structure Outside (s : DebugState R T) : Prop where
  publishing : ∀ t ∉ s.ring.producerThread.value, s.publishing t = .idle
  consuming : ∀ t ∉ s.ring.consumerThread.value, s.consuming t = .idle

theorem put_seenBy : s.put caller (s.seenBy caller) = s := by
  simp only [put, seenBy, Function.update_eq_self]

theorem owners_put_producer (owner : s.ring.producerThread.value = some caller)
    (stays : after.consume = s.consuming caller) :
    (s.put caller after).owners = { after with consume := s.owners.consume } := by
  simp only [owners, put, owner, stays, Option.elim_some, Function.update_self,
    Function.update_eq_self]

theorem owners_put_consumer (owner : s.ring.consumerThread.value = some caller)
    (stays : after.publish = s.publishing caller) :
    (s.put caller after).owners = { after with publish := s.owners.publish } := by
  simp only [owners, put, owner, stays, Option.elim_some, Function.update_self,
    Function.update_eq_self]

theorem owners_panicked {panic : AssertEq T} (stopped : (s.check role caller).2 = .error panic) :
    (s.check role caller).1.owners = s.owners := by
  have kept := checkSingleThread_panicked stopped
  cases role with
  | producer => exact congrArg (fun value : Option T =>
      { s.owners with publish := value.elim .idle s.publishing }) kept
  | consumer => exact congrArg (fun value : Option T =>
      { s.owners with consume := value.elim .idle s.consuming }) kept

namespace Outside

theorem check (outside : s.Outside) (role : Role) (caller : T) :
    (s.check role caller).1.Outside := by
  cases role with
  | producer => exact
    { publishing := fun t other => outside.publishing t (mt checkSingleThread_keeps other)
      consuming := outside.consuming }
  | consumer => exact
    { publishing := outside.publishing
      consuming := fun t other => outside.consuming t (mt checkSingleThread_keeps other) }

/-- A step of a thread can leave it inside the calls of its own roles only. -/
theorem put (outside : s.Outside)
    (publishing : caller ∉ s.ring.producerThread.value → after.publish = .idle)
    (consuming : caller ∉ s.ring.consumerThread.value → after.consume = .idle) :
    (s.put caller after).Outside where
  publishing t other := by
    rcases eq_or_ne t caller with rfl | apart
    · exact (Function.update_self _ _ _).trans (publishing other)
    · exact (Function.update_of_ne apart _ _).trans (outside.publishing t other)
  consuming t other := by
    rcases eq_or_ne t caller with rfl | apart
    · exact (Function.update_self _ _ _).trans (consuming other)
    · exact (Function.update_of_ne apart _ _).trans (outside.consuming t other)

theorem beginPublish (outside : s.Outside) (tick : NormalizedTick) :
    (s.beginPublish caller tick).Outside := by
  unfold DebugState.beginPublish
  obtain same | ⟨_, -, stopped⟩ | ⟨-, passed, entered⟩ :=
    s.enter_cases .producer caller fun seen => seen.beginPublish tick
  · rw [same]
    exact outside
  · rw [stopped]
    exact outside.check .producer caller
  · have owner := (checkSingleThread_passed passed).2
    rw [entered]
    refine (outside.check .producer caller).put ?_ ?_
    · exact fun other => absurd owner other
    · intro other
      rw [RingState.beginPublish_consume]
      exact outside.consuming caller other

theorem beginConsume (outside : s.Outside) : (s.beginConsume caller).Outside := by
  unfold DebugState.beginConsume
  obtain same | ⟨_, -, stopped⟩ | ⟨-, passed, entered⟩ :=
    s.enter_cases .consumer caller RingState.beginConsume
  · rw [same]
    exact outside
  · rw [stopped]
    exact outside.check .consumer caller
  · have owner := (checkSingleThread_passed passed).2
    rw [entered]
    refine (outside.check .consumer caller).put ?_ ?_
    · intro other
      rw [RingState.beginConsume_publish]
      exact outside.publishing caller other
    · exact fun other => absurd owner other

theorem producerStep (outside : s.Outside) :
    (s.put caller (s.seenBy caller).producerStep.1).Outside := by
  refine outside.put ?_ ?_
  · intro other
    rw [RingState.producerStep_idle (outside.publishing caller other)]
    exact outside.publishing caller other
  · intro other
    rw [RingState.producerStep_consume]
    exact outside.consuming caller other

theorem consumerStep (outside : s.Outside) :
    (s.put caller (s.seenBy caller).consumerStep.1).Outside := by
  refine outside.put ?_ ?_
  · intro other
    rw [RingState.consumerStep_publish]
    exact outside.publishing caller other
  · intro other
    rw [RingState.consumerStep_idle (outside.consuming caller other)]
    exact outside.consuming caller other

end Outside

theorem reach_outside {history : List (Op NormalizedTick)}
    (reach : (debugMachine R T).Reach history s) : s.Outside := by
  induction reach with
  | start => exact ⟨fun _ _ => rfl, fun _ _ => rfl⟩
  | next previous action ih =>
    cases action with
    | publish caller tick => exact ih.beginPublish tick
    | consume caller => exact ih.beginConsume
    | producer caller => exact ih.producerStep
    | consumer caller => exact ih.consumerStep

namespace Outside

/-- The owner steps as the producer, any other thread does nothing. -/
theorem owners_producerStep (outside : s.Outside) :
    ((s.put caller (s.seenBy caller).producerStep.1).owners = s.owners ∧
        (s.seenBy caller).producerStep.2 = []) ∨
      s.owners.producerStep = ((s.put caller (s.seenBy caller).producerStep.1).owners,
        (s.seenBy caller).producerStep.2) := by
  by_cases owner : s.ring.producerThread.value = some caller
  · have seen : s.seenBy caller = { s.owners with consume := s.consuming caller } := by
      simp only [seenBy, owners, owner, Option.elim_some]
    rw [owners_put_producer owner RingState.producerStep_consume, seen,
      RingState.producerStep_frame, ← RingState.producerStep_consume]
    exact .inr rfl
  · rw [RingState.producerStep_idle (outside.publishing caller owner)]
    exact .inl ⟨congrArg owners put_seenBy, rfl⟩

theorem owners_consumerStep (outside : s.Outside) :
    ((s.put caller (s.seenBy caller).consumerStep.1).owners = s.owners ∧
        (s.seenBy caller).consumerStep.2 = []) ∨
      s.owners.consumerStep = ((s.put caller (s.seenBy caller).consumerStep.1).owners,
        (s.seenBy caller).consumerStep.2) := by
  by_cases owner : s.ring.consumerThread.value = some caller
  · have seen : s.seenBy caller = { s.owners with publish := s.publishing caller } := by
      simp only [seenBy, owners, owner, Option.elim_some]
    rw [owners_put_consumer owner RingState.consumerStep_publish, seen,
      RingState.consumerStep_frame, ← RingState.consumerStep_publish]
    exact .inr rfl
  · rw [RingState.consumerStep_idle (outside.consuming caller owner)]
    exact .inl ⟨congrArg owners put_seenBy, rfl⟩

end Outside

theorem owners_beginPublish (s : DebugState R T) (caller : T) (tick : NormalizedTick) :
    (s.beginPublish caller tick).owners = s.owners ∨
      s.owners.beginPublish tick = (s.beginPublish caller tick).owners := by
  unfold DebugState.beginPublish
  obtain same | ⟨_, panicked, stopped⟩ | ⟨free, passed, entered⟩ :=
    s.enter_cases .producer caller fun seen => seen.beginPublish tick
  · exact .inl (congrArg owners same)
  · exact .inl ((congrArg owners stopped).trans (owners_panicked panicked))
  · obtain ⟨owned, owner⟩ := checkSingleThread_passed passed
    have idle := (Bool.and_eq_true_iff.mp free).1
    have ready : s.owners.publish.ready = true := by
      unfold owners
      cases claimed : s.ring.producerThread.value with
      | none => rfl
      | some id => exact owned id claimed ▸ idle
    rw [entered, owners_put_producer owner (RingState.beginPublish_consume tick),
      RingState.beginPublish_eq ready, RingState.beginPublish_eq idle]
    exact .inr rfl

theorem owners_beginConsume (s : DebugState R T) (caller : T) :
    (s.beginConsume caller).owners = s.owners ∨
      s.owners.beginConsume = (s.beginConsume caller).owners := by
  unfold DebugState.beginConsume
  obtain same | ⟨_, panicked, stopped⟩ | ⟨free, passed, entered⟩ :=
    s.enter_cases .consumer caller RingState.beginConsume
  · exact .inl (congrArg owners same)
  · exact .inl ((congrArg owners stopped).trans (owners_panicked panicked))
  · obtain ⟨owned, owner⟩ := checkSingleThread_passed passed
    have idle := (Bool.and_eq_true_iff.mp free).2
    have ready : s.owners.consume.ready = true := by
      unfold owners
      cases claimed : s.ring.consumerThread.value with
      | none => rfl
      | some id => exact owned id claimed ▸ idle
    rw [entered, owners_put_consumer owner RingState.beginConsume_publish,
      RingState.beginConsume_eq ready, RingState.beginConsume_eq idle]
    exact .inr rfl

theorem debug_runs_ring {history : List (Op NormalizedTick)}
    (reach : (debugMachine R T).Reach history s) : (ringMachine R).Reach history s.owners := by
  refine reach.simulate owners rfl fun history s action previous => ?_
  have outside := reach_outside previous
  cases action with
  | publish caller tick =>
    rcases s.owners_beginPublish caller tick with same | step
    · exact .inl ⟨same, rfl⟩
    · exact .inr ⟨.publish tick, congrArg (Prod.mk · []) step⟩
  | consume caller =>
    rcases s.owners_beginConsume caller with same | step
    · exact .inl ⟨same, rfl⟩
    · exact .inr ⟨.consume, congrArg (Prod.mk · []) step⟩
  | producer caller => exact outside.owners_producerStep.imp id fun step => ⟨.producer, step⟩
  | consumer caller => exact outside.owners_consumerStep.imp id fun step => ⟨.consumer, step⟩

end DebugState

/-- Whichever threads call, poisoned or not, what gets past the checks is one
producer and one consumer, and the debug ring is still the bounded queue. -/
theorem debug_ring_refines_bounded_fifo (R : RingSize) (T : Type*) [DecidableEq T]
    (actions : List (DebugAction T)) :
    RefinesFifo ((debugMachine R T).history actions) ((debugMachine R T).run actions).owners :=
  reach_refinesFifo (DebugState.debug_runs_ring (Machine.reach_run actions))

end FeedHandler
