import FeedHandler.RingBuffer

namespace FeedHandler

open Interleaving BoundedFifo

variable {R : RingSize}

/-- What the slots hold between two steps: a stored tick that is not released
sits in its slot under the next sequence number, and a slot that is free for
the cursor value `n` shows `n`. -/
structure Slots (buffer : Fin R.val → RingBufferNode) (stored : List NormalizedTick)
    (released : Nat) : Prop where
  released_le : released ≤ stored.length
  stored_le : stored.length ≤ released + R.val
  readable : ∀ n tick, released ≤ n → stored[n]? = some tick →
    buffer (R.slot (.ofNat n)) = ⟨.ofNat (n + 1), tick⟩
  writable : ∀ n, stored.length ≤ n → n < released + R.val →
    (buffer (R.slot (.ofNat n))).sequence = .ofNat n

/-- What the producer knows at each point of `try_publish`. -/
def Producing (ring : SpscDisruptor R) (stored : List NormalizedTick) (released : Nat) :
    Publish → Prop
  | .idle | .returned _ | .loadCursor _ | .countDrop _ => ring.producer = .ofNat stored.length
  | .loadSequence _ prod => ring.producer = .ofNat stored.length ∧ prod = .ofNat stored.length
  | .writeTick _ prod =>
    ring.producer = .ofNat stored.length ∧ prod = .ofNat stored.length ∧
      stored.length < released + R.val
  | .storeSequence tick prod =>
    ring.producer = .ofNat stored.length ∧ prod = .ofNat stored.length ∧
      stored.length < released + R.val ∧
      (ring.buffer (R.slot (.ofNat stored.length))).tick = tick
  | .storeCursor tick prod => ∃ before, stored = before ++ [tick] ∧
    ring.producer = .ofNat before.length ∧ prod = .ofNat before.length

/-- What the consumer knows at each point of `try_consume`. -/
def Consuming (ring : SpscDisruptor R) (stored : List NormalizedTick) (released : Nat)
    (returned : List NormalizedTick) : Consume → Prop
  | .idle | .returned _ | .loadCursor =>
    ring.consumer = .ofNat released ∧ returned = stored.take released
  | .loadSequence cons =>
    ring.consumer = .ofNat released ∧ returned = stored.take released ∧ cons = .ofNat released
  | .readTick cons =>
    ring.consumer = .ofNat released ∧ returned = stored.take released ∧ cons = .ofNat released ∧
      released < stored.length
  | .storeSequence cons tick =>
    ring.consumer = .ofNat released ∧ returned = stored.take released ∧ cons = .ofNat released ∧
      stored[released]? = some tick
  | .storeCursor cons tick => ∃ c, released = c + 1 ∧
    ring.consumer = .ofNat c ∧ returned = stored.take c ∧ cons = .ofNat c ∧
      stored[c]? = some tick

/-- The invariant of the ring. -/
structure Handshake (s : RingState R) : Prop where
  slots : Slots s.ring.buffer s.stored s.released
  producing : Producing s.ring s.stored s.released s.publish
  consuming : Consuming s.ring s.stored s.released s.returned s.consume

namespace Slots

variable {buffer : Fin R.val → RingBufferNode} {stored : List NormalizedTick} {released : Nat}

theorem new : Slots (SpscDisruptor.new R).buffer [] 0 where
  released_le := Nat.le_refl 0
  stored_le := Nat.zero_le _
  readable n tick _ atTick := by
    rw [List.getElem?_nil] at atTick
    cases atTick
  writable n _ inside := by
    have first : n % R.val = n := Nat.mod_eq_of_lt (by omega)
    simp only [SpscDisruptor.new, R.slot_ofNat, first]

/-- The payload of the slot under the producer may be overwritten. -/
theorem writeTick (slots : Slots buffer stored released) (room : stored.length < released + R.val)
    (tick : NormalizedTick) :
    Slots (Function.update buffer (R.slot (.ofNat stored.length))
      { buffer (R.slot (.ofNat stored.length)) with tick }) stored released where
  released_le := slots.released_le
  stored_le := slots.stored_le
  readable n old inside atOld := by
    have bound := (List.getElem?_eq_some_iff.mp atOld).1
    rw [Function.update_of_ne (R.slot_ne bound (by omega))]
    exact slots.readable n old inside atOld
  writable n past inside := by
    have bound := slots.released_le
    by_cases same : n = stored.length
    · subst same
      rw [Function.update_self]
      exact slots.writable _ past inside
    · rw [Function.update_of_ne (R.slot_ne (by omega) (by omega)).symm]
      exact slots.writable n past inside

/-- The producer's slot store turns the slot readable. -/
theorem store (slots : Slots buffer stored released) (room : stored.length < released + R.val)
    {tick : NormalizedTick} (payload : (buffer (R.slot (.ofNat stored.length))).tick = tick) :
    Slots (Function.update buffer (R.slot (.ofNat stored.length))
      { buffer (R.slot (.ofNat stored.length)) with sequence := .ofNat (stored.length + 1) })
      (stored ++ [tick]) released where
  released_le := by
    have bound := slots.released_le
    rw [List.length_append]
    omega
  stored_le := by
    rw [List.length_append, List.length_singleton]
    omega
  readable n old inside atOld := by
    by_cases last : n = stored.length
    · subst last
      rw [List.getElem?_concat_length, Option.some.injEq] at atOld
      rw [Function.update_self]
      dsimp only
      rw [payload, atOld]
    · have bound := (List.getElem?_eq_some_iff.mp atOld).1
      rw [List.length_append, List.length_singleton] at bound
      rw [List.getElem?_append_left (by omega)] at atOld
      rw [Function.update_of_ne (R.slot_ne (by omega) (by omega))]
      exact slots.readable n old inside atOld
  writable n past inside := by
    rw [List.length_append, List.length_singleton] at past
    have bound := slots.released_le
    rw [Function.update_of_ne (R.slot_ne (by omega) (by omega)).symm]
    exact slots.writable n (by omega) inside

/-- The consumer's slot store frees the slot for the next lap. -/
theorem release (slots : Slots buffer stored released) (ready : released < stored.length) :
    Slots (Function.update buffer (R.slot (.ofNat released))
      { buffer (R.slot (.ofNat released)) with sequence := .ofNat (released + R.val) })
      stored (released + 1) where
  released_le := ready
  stored_le := by
    have bound := slots.stored_le
    omega
  readable n old inside atOld := by
    have bound := (List.getElem?_eq_some_iff.mp atOld).1
    have room := slots.stored_le
    rw [Function.update_of_ne (R.slot_ne (by omega) (by omega)).symm]
    exact slots.readable n old (by omega) atOld
  writable n past inside := by
    have room := slots.stored_le
    by_cases last : n = released + R.val
    · subst last
      rw [R.slot_add_val, Function.update_self]
    · rw [Function.update_of_ne (R.slot_ne (by omega) (by omega)).symm]
      exact slots.writable n past (by omega)

/-- The producer's check passes exactly when the ring has room. -/
theorem producer_check (slots : Slots buffer stored released) :
    (buffer (R.slot (.ofNat stored.length))).sequence = .ofNat stored.length ↔
      stored.length < released + R.val := by
  have bound := slots.stored_le
  have size := R.two_le
  refine ⟨fun passed => ?_, slots.writable _ le_rfl⟩
  by_contra full
  have lap : stored.length = released + R.val := by omega
  have ready : released < stored.length := by omega
  have oldest := slots.readable released _ le_rfl (List.getElem?_eq_getElem ready)
  rw [lap, R.slot_add_val, oldest] at passed
  exact ofNat_ne_of_near (by omega) (by have wrap := R.lt_wrap; omega) passed

/-- The consumer's check passes exactly when a stored tick is waiting. -/
theorem consumer_check (slots : Slots buffer stored released) :
    (buffer (R.slot (.ofNat released))).sequence = .ofNat (released + 1) ↔
      released < stored.length := by
  refine ⟨fun passed => ?_, fun ready => ?_⟩
  · by_contra empty
    have free := slots.writable released (by omega) (by have size := R.pos; omega)
    rw [free] at passed
    exact ofNat_ne_of_near (Nat.lt_succ_self _) (by omega) passed
  · rw [slots.readable released _ le_rfl (List.getElem?_eq_getElem ready)]

end Slots

namespace Consuming

variable {ring : SpscDisruptor R} {stored : List NormalizedTick} {released : Nat}
  {returned : List NormalizedTick} {consume : Consume}

/-- The consumer does not notice another stored tick. -/
theorem concat (consuming : Consuming ring stored released returned consume)
    (bound : released ≤ stored.length) (tick : NormalizedTick) :
    Consuming ring (stored ++ [tick]) released returned consume := by
  have same (c : Nat) (inside : c ≤ stored.length) : (stored ++ [tick]).take c = stored.take c :=
    List.take_append_of_le_length inside
  cases consume with
  | idle | returned _ | loadCursor | loadSequence cons =>
    simp only [Consuming, same released bound]
    exact consuming
  | readTick cons =>
    obtain ⟨cursor, answers, loaded, ready⟩ := consuming
    refine ⟨cursor, ?_, loaded, ?_⟩
    · rwa [same released bound]
    · rw [List.length_append]
      omega
  | storeSequence cons read =>
    obtain ⟨cursor, answers, loaded, ready⟩ := consuming
    have inside := (List.getElem?_eq_some_iff.mp ready).1
    refine ⟨cursor, ?_, loaded, ?_⟩
    · rwa [same released bound]
    · rwa [List.getElem?_append_left inside]
  | storeCursor cons read =>
    obtain ⟨c, next, cursor, answers, loaded, ready⟩ := consuming
    have inside := (List.getElem?_eq_some_iff.mp ready).1
    refine ⟨c, next, cursor, ?_, loaded, ?_⟩
    · rwa [same c inside.le]
    · rwa [List.getElem?_append_left inside]

end Consuming

namespace Handshake

variable {s : RingState R}

theorem reduceOption_concat (answers : List (Option NormalizedTick))
    (answer : Option NormalizedTick) :
    (answers ++ [answer]).reduceOption = answers.reduceOption ++ answer.toList := by
  rw [List.reduceOption_append, List.reduceOption_singleton]

theorem new : Handshake (.new R) where
  slots := .new
  producing := rfl
  consuming := ⟨rfl, rfl⟩

theorem producer_settled (shake : Handshake s) (free : s.publish.ready = true) :
    s.ring.producer = .ofNat s.stored.length := by
  have producing := shake.producing
  cases stage : s.publish with
  | idle | returned _ =>
    rw [stage] at producing
    exact producing
  | loadCursor _ | loadSequence _ _ | countDrop _ | writeTick _ _ | storeSequence _ _
  | storeCursor _ _ =>
    rw [stage] at free
    cases free

/-- Between two calls the consumer has returned what it has released. -/
theorem consumer_settled (shake : Handshake s) (free : s.consume.ready = true) :
    s.ring.consumer = .ofNat s.released ∧ s.returned = s.stored.take s.released := by
  have consuming := shake.consuming
  cases stage : s.consume with
  | idle | returned _ =>
    rw [stage] at consuming
    exact consuming
  | loadCursor | loadSequence _ | readTick _ | storeSequence _ _ | storeCursor _ _ =>
    rw [stage] at free
    cases free

theorem beginPublish (shake : Handshake s) (tick : NormalizedTick) :
    Handshake (s.beginPublish tick) := by
  unfold RingState.beginPublish
  split
  · rename_i free
    exact ⟨shake.slots, shake.producer_settled free, shake.consuming⟩
  · exact shake

theorem beginConsume (shake : Handshake s) : Handshake s.beginConsume := by
  unfold RingState.beginConsume
  split
  · rename_i free
    exact ⟨shake.slots, shake.producing, shake.consumer_settled free⟩
  · exact shake

/-- A failed check of the producer is harmless, whatever made it fail. -/
theorem refuse (shake : Handshake s) {tick : NormalizedTick} {prod : UInt64}
    (stage : s.publish = .loadSequence tick prod) :
    Handshake { s with publish := .countDrop tick } := by
  have producing := shake.producing
  rw [stage] at producing
  exact ⟨shake.slots, producing.1, shake.consuming⟩

/-- A passed check of the producer is sound when the ring has room. -/
theorem grant (shake : Handshake s) {tick : NormalizedTick} {prod : UInt64}
    (stage : s.publish = .loadSequence tick prod) (room : s.stored.length < s.released + R.val) :
    Handshake { s with publish := .writeTick tick prod } := by
  have producing := shake.producing
  rw [stage] at producing
  exact ⟨shake.slots, ⟨producing.1, producing.2, room⟩, shake.consuming⟩

/-- A failed check of the consumer is harmless, whatever made it fail. -/
theorem miss (shake : Handshake s) {cons : UInt64} (stage : s.consume = .loadSequence cons) :
    Handshake { s with consume := .returned none, consumed := s.consumed ++ [none] } := by
  have consuming := shake.consuming
  rw [stage] at consuming
  refine ⟨shake.slots, shake.producing, ⟨consuming.1, ?_⟩⟩
  exact (reduceOption_concat _ _).trans ((List.append_nil _).trans consuming.2.1)

/-- A passed check of the consumer is sound when a stored tick is waiting. -/
theorem fetch (shake : Handshake s) {cons : UInt64} (stage : s.consume = .loadSequence cons)
    (ready : s.released < s.stored.length) : Handshake { s with consume := .readTick cons } := by
  have consuming := shake.consuming
  rw [stage] at consuming
  obtain ⟨cursor, answers, loaded⟩ := consuming
  exact ⟨shake.slots, shake.producing, ⟨cursor, answers, loaded, ready⟩⟩

theorem producerStep (shake : Handshake s) : Handshake s.producerStep.1 := by
  obtain ⟨ring, publish, consume, stored, released, published, consumed⟩ := s
  obtain ⟨slots, producing, consuming⟩ := shake
  dsimp only at slots producing consuming
  cases publish with
  | idle | returned _ => exact ⟨slots, producing, consuming⟩
  | loadCursor tick => exact ⟨slots, ⟨producing, producing⟩, consuming⟩
  | loadSequence tick prod =>
    obtain ⟨cursor, rfl⟩ := producing
    have whole : Handshake ⟨ring, .loadSequence tick (.ofNat stored.length), consume, stored,
      released, published, consumed⟩ := ⟨slots, ⟨cursor, rfl⟩, consuming⟩
    simp only [RingState.producerStep]
    split
    · exact whole.refuse rfl
    · rename_i passed
      exact whole.grant rfl (slots.producer_check.mp (not_not.mp passed))
  | countDrop tick => exact ⟨slots, producing, consuming⟩
  | writeTick tick prod =>
    obtain ⟨cursor, rfl, room⟩ := producing
    refine ⟨slots.writeTick room tick, ⟨cursor, rfl, room, ?_⟩, consuming⟩
    exact SpscDisruptor.writeTick_tick
  | storeSequence tick prod =>
    obtain ⟨cursor, rfl, room, payload⟩ := producing
    refine ⟨?_, ⟨stored, rfl, cursor, rfl⟩, consuming.concat slots.released_le tick⟩
    simp only [RingState.producerStep, SpscDisruptor.storeSequence, ofNat_add_one]
    exact slots.store room payload
  | storeCursor tick prod =>
    obtain ⟨before, rfl, cursor, rfl⟩ := producing
    refine ⟨slots, ?_, consuming⟩
    have next : UInt64.ofNat before.length + 1 = .ofNat (before ++ [tick]).length := by
      rw [List.length_append, List.length_singleton, ofNat_add_one]
    exact next

/-- The producer does not notice a released slot. -/
theorem release_producing {ring : SpscDisruptor R} {stored : List NormalizedTick}
    {released : Nat} {publish : Publish} {i : Fin R.val} {sequence : UInt64}
    (producing : Producing ring stored released publish) :
    Producing (ring.storeSequence i sequence) stored (released + 1) publish := by
  cases publish with
  | idle | returned _ | loadCursor _ | countDrop _ | loadSequence _ _ | storeCursor _ _ =>
    exact producing
  | writeTick tick prod =>
    obtain ⟨cursor, loaded, room⟩ := producing
    exact ⟨cursor, loaded, by omega⟩
  | storeSequence tick prod =>
    obtain ⟨cursor, loaded, room, payload⟩ := producing
    exact ⟨cursor, loaded, by omega, SpscDisruptor.storeSequence_tick.trans payload⟩

theorem consumerStep (shake : Handshake s) : Handshake s.consumerStep.1 := by
  obtain ⟨ring, publish, consume, stored, released, published, consumed⟩ := s
  obtain ⟨slots, producing, consuming⟩ := shake
  dsimp only at slots producing consuming
  cases consume with
  | idle | returned _ => exact ⟨slots, producing, consuming⟩
  | loadCursor =>
    obtain ⟨cursor, answers⟩ := consuming
    exact ⟨slots, producing, ⟨cursor, answers, cursor⟩⟩
  | loadSequence cons =>
    obtain ⟨cursor, answers, rfl⟩ := consuming
    simp only [RingState.consumerStep, ofNat_add_one]
    have whole : Handshake ⟨ring, publish, .loadSequence (.ofNat released), stored, released,
      published, consumed⟩ := ⟨slots, producing, ⟨cursor, answers, rfl⟩⟩
    split
    · exact whole.miss rfl
    · rename_i passed
      exact whole.fetch rfl (slots.consumer_check.mp (not_not.mp passed))
  | readTick cons =>
    obtain ⟨cursor, answers, rfl, ready⟩ := consuming
    have atTick := List.getElem?_eq_getElem ready
    refine ⟨slots, producing, ⟨cursor, answers, rfl, ?_⟩⟩
    rw [slots.readable released _ le_rfl atTick]
    exact atTick
  | storeSequence cons tick =>
    obtain ⟨cursor, answers, rfl, atTick⟩ := consuming
    have ready := (List.getElem?_eq_some_iff.mp atTick).1
    have next : UInt64.ofNat released + .ofNat R.val = .ofNat (released + R.val) :=
      (UInt64.ofNat_add _ _).symm
    refine ⟨?_, release_producing producing, ⟨released, rfl, cursor, answers, rfl, atTick⟩⟩
    simp only [RingState.consumerStep, SpscDisruptor.storeSequence, next]
    exact slots.release ready
  | storeCursor cons tick =>
    obtain ⟨c, rfl, cursor, answers, rfl, atTick⟩ := consuming
    have longer : stored.take (c + 1) = stored.take c ++ [tick] := by
      rw [List.take_add_one, atTick]
      rfl
    refine ⟨slots, ?_, ⟨ofNat_add_one c, ?_⟩⟩
    · cases publish <;> exact producing
    · exact (reduceOption_concat _ _).trans ((congrArg (· ++ [tick]) answers).trans longer.symm)

theorem step (shake : Handshake s) (action : RingAction) :
    Handshake ((ringMachine R).step s action).1 := by
  cases action with
  | publish tick => exact shake.beginPublish tick
  | producer => exact shake.producerStep
  | consume => exact shake.beginConsume
  | consumer => exact shake.consumerStep

theorem returned_prefix (shake : Handshake s) : s.returned <+: s.stored := by
  have consuming := shake.consuming
  cases stage : s.consume with
  | idle | returned _ | loadCursor =>
    rw [stage] at consuming
    rw [consuming.2]
    exact List.take_prefix _ _
  | loadSequence _ | readTick _ | storeSequence _ _ =>
    rw [stage] at consuming
    rw [consuming.2.1]
    exact List.take_prefix _ _
  | storeCursor _ _ =>
    rw [stage] at consuming
    obtain ⟨c, _, _, answers, _⟩ := consuming
    rw [answers]
    exact List.take_prefix _ _

end Handshake

/-- The answer that is settled but not yet returned. -/
def Publish.inFlight : Publish → List (NormalizedTick × Bool)
  | .countDrop tick => [(tick, false)]
  | .storeCursor tick _ => [(tick, true)]
  | _ => []

def Consume.inFlight : Consume → List (Option NormalizedTick)
  | .storeCursor _ tick => [some tick]
  | _ => []

theorem Publish.inFlight_ready {publish : Publish} (free : publish.ready = true) :
    publish.inFlight = [] := by
  cases publish with
  | idle | returned _ | loadCursor _ | loadSequence _ _ | writeTick _ _ | storeSequence _ _ => rfl
  | countDrop _ | storeCursor _ _ => cases free

theorem Consume.inFlight_ready {consume : Consume} (free : consume.ready = true) :
    consume.inFlight = [] := by
  cases consume with
  | idle | returned _ | loadCursor | loadSequence _ | readTick _ | storeSequence _ _ => rfl
  | storeCursor _ _ => cases free

/-- The ring is a bounded FIFO queue whose operations took effect in the order
of `history`. -/
structure Linearized (history : List (Op NormalizedTick)) (s : RingState R) : Prop where
  legal : Legal R.val history (s.stored.drop s.released)
  accepted : history.filterMap Op.accepted = s.stored
  offers : history.filterMap Op.offered = s.published ++ s.publish.inFlight
  polls : history.filterMap Op.polled = s.consumed ++ s.consume.inFlight

namespace Linearized

variable {history : List (Op NormalizedTick)} {s : RingState R}

theorem new : Linearized [] (.new R) where
  legal := .start
  accepted := rfl
  offers := rfl
  polls := rfl

theorem beginPublish (linear : Linearized history s) (tick : NormalizedTick) :
    Linearized history (s.beginPublish tick) := by
  unfold RingState.beginPublish
  split
  · rename_i free
    have offers := linear.offers
    rw [Publish.inFlight_ready free] at offers
    exact ⟨linear.legal, linear.accepted, offers, linear.polls⟩
  · exact linear

theorem beginConsume (linear : Linearized history s) : Linearized history s.beginConsume := by
  unfold RingState.beginConsume
  split
  · rename_i free
    have polls := linear.polls
    rw [Consume.inFlight_ready free] at polls
    exact ⟨linear.legal, linear.accepted, linear.offers, polls⟩
  · exact linear

/-- What a step emits is appended to each reading of the history. -/
theorem filterMap_emit {β : Type*} {read : Op NormalizedTick → Option β} {old next : List β}
    {emitted : List (Op NormalizedTick)} (before : history.filterMap read = old)
    (now : old ++ emitted.filterMap read = next) : (history ++ emitted).filterMap read = next := by
  rw [List.filterMap_append, before]
  exact now

theorem producerStep (linear : Linearized history s) (shake : Handshake s) :
    Linearized (history ++ s.producerStep.2) s.producerStep.1 := by
  obtain ⟨ring, publish, consume, stored, released, published, consumed⟩ := s
  obtain ⟨legal, accepted, offers, polls⟩ := linear
  obtain ⟨slots, producing, _⟩ := shake
  dsimp only at legal accepted offers polls slots producing
  cases publish with
  | idle | returned _ | loadCursor tick | writeTick tick prod =>
    simp only [RingState.producerStep, List.append_nil]
    exact ⟨legal, accepted, offers, polls⟩
  | loadSequence tick prod =>
    obtain ⟨cursor, rfl⟩ := producing
    simp only [RingState.producerStep]
    split
    · rename_i failed
      have full : (stored.drop released).length = R.val := by
        have bound := slots.stored_le
        have none := mt slots.producer_check.mpr failed
        rw [List.length_drop]
        omega
      refine ⟨legal.refuse tick full, ?_, ?_, ?_⟩
      · exact filterMap_emit accepted (List.append_nil _)
      · exact filterMap_emit offers (congrArg (· ++ _) (List.append_nil _))
      · exact filterMap_emit polls (List.append_nil _)
    · simp only [List.append_nil]
      exact ⟨legal, accepted, offers, polls⟩
  | countDrop tick =>
    simp only [RingState.producerStep, List.append_nil]
    exact ⟨legal, accepted, offers.trans (List.append_nil _).symm, polls⟩
  | storeSequence tick prod =>
    obtain ⟨cursor, rfl, room, payload⟩ := producing
    have free : (stored.drop released).length < R.val := by
      have bound := slots.released_le
      rw [List.length_drop]
      omega
    simp only [RingState.producerStep]
    refine ⟨?_, ?_, ?_, ?_⟩
    · rw [List.drop_append_of_le_length slots.released_le]
      exact legal.accept tick free
    · exact filterMap_emit accepted rfl
    · exact filterMap_emit offers (congrArg (· ++ _) (List.append_nil _))
    · exact filterMap_emit polls (List.append_nil _)
  | storeCursor tick prod =>
    simp only [RingState.producerStep, List.append_nil]
    exact ⟨legal, accepted, offers.trans (List.append_nil _).symm, polls⟩

theorem consumerStep (linear : Linearized history s) (shake : Handshake s) :
    Linearized (history ++ s.consumerStep.2) s.consumerStep.1 := by
  obtain ⟨ring, publish, consume, stored, released, published, consumed⟩ := s
  obtain ⟨legal, accepted, offers, polls⟩ := linear
  obtain ⟨slots, _, consuming⟩ := shake
  dsimp only at legal accepted offers polls slots consuming
  cases consume with
  | idle | returned _ | loadCursor | readTick _ =>
    simp only [RingState.consumerStep, List.append_nil]
    exact ⟨legal, accepted, offers, polls⟩
  | loadSequence cons =>
    obtain ⟨_, _, rfl⟩ := consuming
    simp only [RingState.consumerStep, ofNat_add_one]
    split
    · rename_i failed
      have empty : stored.drop released = [] :=
        List.drop_eq_nil_of_le (Nat.not_lt.mp (mt slots.consumer_check.mpr failed))
      rw [empty] at legal
      refine ⟨?_, ?_, ?_, ?_⟩
      · dsimp only
        rw [empty]
        exact legal.miss
      · exact filterMap_emit accepted (List.append_nil _)
      · exact filterMap_emit offers (List.append_nil _)
      · exact filterMap_emit polls
          ((congrArg (· ++ _) (List.append_nil _)).trans (List.append_nil _).symm)
    · simp only [List.append_nil]
      exact ⟨legal, accepted, offers, polls⟩
  | storeSequence cons tick =>
    obtain ⟨_, _, rfl, atTick⟩ := consuming
    obtain ⟨ready, value⟩ := List.getElem?_eq_some_iff.mp atTick
    rw [List.drop_eq_getElem_cons ready, value] at legal
    simp only [RingState.consumerStep]
    refine ⟨legal.take, ?_, ?_, ?_⟩
    · exact filterMap_emit accepted (List.append_nil _)
    · exact filterMap_emit offers (List.append_nil _)
    · exact filterMap_emit polls (congrArg (· ++ _) (List.append_nil _))
  | storeCursor cons tick =>
    simp only [RingState.consumerStep, List.append_nil]
    exact ⟨legal, accepted, offers, polls.trans (List.append_nil _).symm⟩

theorem step (linear : Linearized history s) (shake : Handshake s) (action : RingAction) :
    Linearized (history ++ ((ringMachine R).step s action).2) ((ringMachine R).step s action).1 := by
  cases action with
  | publish tick =>
    simp only [ringMachine, List.append_nil]
    exact linear.beginPublish tick
  | producer => exact linear.producerStep shake
  | consume =>
    simp only [ringMachine, List.append_nil]
    exact linear.beginConsume
  | consumer => exact linear.consumerStep shake

end Linearized

/-- Nothing is lost, doubled or reordered between the two parties. -/
theorem Linearized.conserved {history : List (Op NormalizedTick)} {s : RingState R}
    (linear : Linearized history s) :
    history.filterMap Op.taken ++ s.stored.drop s.released = s.stored :=
  linear.legal.accepted_eq.symm.trans linear.accepted

/-- The ticks that `try_publish` takes, in order. One whose slot is stored counts
though its call has yet to return. -/
def RingState.accepted (s : RingState R) : List NormalizedTick :=
  (s.published ++ s.publish.inFlight).filterMap fun offer => if offer.2 then some offer.1 else none

theorem Linearized.accepted_eq {history : List (Op NormalizedTick)} {s : RingState R}
    (linear : Linearized history s) : s.accepted = s.stored := by
  rw [RingState.accepted, ← linear.offers, ← linear.accepted, List.filterMap_filterMap]
  refine List.filterMap_congr fun op _ => ?_
  cases op with
  | offer tick ok => cases ok <;> rfl
  | poll answer => rfl

/-- What a finished call has returned is the last entry of its log. -/
structure Answered (s : RingState R) : Prop where
  publish : ∀ ok, s.publish = .returned ok → s.published.getLast?.map Prod.snd = some ok
  consume : ∀ answer, s.consume = .returned answer → s.consumed.getLast? = some answer

namespace Answered

variable {s : RingState R}

theorem producerStep (answered : Answered s) : Answered s.producerStep.1 := by
  obtain ⟨ring, publish, consume, stored, released, published, consumed⟩ := s
  obtain ⟨last, others⟩ := answered
  cases publish with
  | idle | returned _ => exact ⟨last, others⟩
  | loadCursor _ | writeTick _ _ | storeSequence _ _ =>
    exact ⟨fun _ other => (by cases other), others⟩
  | loadSequence tick prod =>
    simp only [RingState.producerStep]
    split <;> exact ⟨fun _ other => (by cases other), others⟩
  | countDrop tick | storeCursor tick prod =>
    refine ⟨fun ok same => ?_, others⟩
    cases same
    simp only [RingState.producerStep, List.getLast?_concat, Option.map_some]

theorem consumerStep (answered : Answered s) : Answered s.consumerStep.1 := by
  obtain ⟨ring, publish, consume, stored, released, published, consumed⟩ := s
  obtain ⟨others, last⟩ := answered
  cases consume with
  | idle | returned _ => exact ⟨others, last⟩
  | loadCursor | readTick _ | storeSequence _ _ =>
    exact ⟨others, fun _ other => (by cases other)⟩
  | loadSequence cons =>
    simp only [RingState.consumerStep]
    split
    · refine ⟨others, fun answer same => ?_⟩
      cases same
      exact List.getLast?_concat
    · exact ⟨others, fun _ other => (by cases other)⟩
  | storeCursor cons tick =>
    refine ⟨others, fun answer same => ?_⟩
    cases same
    exact List.getLast?_concat

theorem step (answered : Answered s) (action : RingAction) :
    Answered ((ringMachine R).step s action).1 := by
  cases action with
  | publish tick =>
    simp only [ringMachine, RingState.beginPublish]
    split
    · exact ⟨fun _ other => (by cases other), answered.consume⟩
    · exact answered
  | producer => exact answered.producerStep
  | consume =>
    simp only [ringMachine, RingState.beginConsume]
    split
    · exact ⟨answered.publish, fun _ other => (by cases other)⟩
    · exact answered
  | consumer => exact answered.consumerStep

end Answered

theorem reach_answered {history : List (Op NormalizedTick)} {s : RingState R}
    (reach : (ringMachine R).Reach history s) : Answered s := by
  induction reach with
  | start => exact ⟨fun _ other => (by cases other), fun _ other => (by cases other)⟩
  | next _ action ih => exact ih.step action

/-- The ring as a bounded FIFO queue: its history is one of a queue of capacity
`RING_SIZE`, each check of the code decides exactly full and empty, and each
call returns what the history says. -/
structure RefinesFifo (history : List (Op NormalizedTick)) (s : RingState R) : Prop where
  linear : Linearized history s
  conserved : history.filterMap Op.taken ++ s.stored.drop s.released = s.stored
  answered : Answered s
  returned : s.returned <+: s.stored
  released_le : s.released ≤ s.stored.length
  unreleased : s.stored.length ≤ s.released + R.val
  publishCheck : ∀ tick prod, s.publish = .loadSequence tick prod →
    s.producerStep.1.publish =
      if s.stored.length = s.released + R.val then .countDrop tick else .writeTick tick prod
  consumeCheck : ∀ cons, s.consume = .loadSequence cons →
    s.consumerStep.1.consume =
      if s.released = s.stored.length then .returned none else .readTick cons

namespace Handshake

variable {s : RingState R}

theorem publishCheck (shake : Handshake s) {tick : NormalizedTick} {prod : UInt64}
    (stage : s.publish = .loadSequence tick prod) :
    s.producerStep.1.publish =
      if s.stored.length = s.released + R.val then .countDrop tick else .writeTick tick prod := by
  have producing := shake.producing
  rw [stage] at producing
  obtain ⟨_, rfl⟩ := producing
  have check := shake.slots.producer_check
  have bound := shake.slots.stored_le
  simp only [RingState.producerStep, stage]
  by_cases full : s.stored.length = s.released + R.val
  · rw [if_pos full, if_pos (mt check.mp (by omega))]
  · rw [if_neg full, if_neg (not_not.mpr (check.mpr (by omega)))]

theorem consumeCheck (shake : Handshake s) {cons : UInt64}
    (stage : s.consume = .loadSequence cons) :
    s.consumerStep.1.consume =
      if s.released = s.stored.length then .returned none else .readTick cons := by
  have consuming := shake.consuming
  rw [stage] at consuming
  obtain ⟨_, _, rfl⟩ := consuming
  have check := shake.slots.consumer_check
  have bound := shake.slots.released_le
  simp only [RingState.consumerStep, stage, ofNat_add_one]
  by_cases empty : s.released = s.stored.length
  · rw [if_pos empty, if_pos (mt check.mp (by omega))]
  · rw [if_neg empty, if_neg (not_not.mpr (check.mpr (by omega)))]

end Handshake

theorem reach_handshake {history : List (Op NormalizedTick)} {s : RingState R}
    (reach : (ringMachine R).Reach history s) : Handshake s ∧ Linearized history s := by
  refine reach.invariant ?_ ?_
  · exact ⟨.new, .new⟩
  · intro history s action both
    exact ⟨both.1.step action, both.2.step both.1 action⟩

theorem reach_refinesFifo {history : List (Op NormalizedTick)} {s : RingState R}
    (reach : (ringMachine R).Reach history s) : RefinesFifo history s := by
  obtain ⟨shake, linear⟩ := reach_handshake reach
  exact {
    linear
    conserved := linear.conserved
    answered := reach_answered reach
    returned := shake.returned_prefix
    released_le := shake.slots.released_le
    unreleased := shake.slots.stored_le
    publishCheck := fun _ _ stage => shake.publishCheck stage
    consumeCheck := fun _ stage => shake.consumeCheck stage }

/-- One producer and one consumer, any ring size and any interleaving of their
atomic steps, sequence numbers wrapping. -/
theorem ring_refines_bounded_fifo (R : RingSize) (actions : List RingAction) :
    RefinesFifo ((ringMachine R).history actions) ((ringMachine R).run actions) :=
  reach_refinesFifo (Machine.reach_run actions)

end FeedHandler
