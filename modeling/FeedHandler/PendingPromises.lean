import FeedHandler.RingGauge

namespace FeedHandler

open Interleaving BoundedFifo

variable {R : RingSize}

/-- The first `k` entries of a log meet `p`. -/
def Opens {α : Type*} (k : Nat) (p : α → Prop) (log : List α) : Prop := ∀ a ∈ log.take k, p a

theorem Opens.concat {α : Type*} {k : Nat} {p : α → Prop} {log : List α} {a : α}
    (opens : Opens k p log) (next : log.length < k → p a) : Opens k p (log ++ [a]) := by
  intro b member
  by_cases short : log.length < k
  · rw [List.take_of_length_le (by rw [List.length_append]; exact short)] at member
    rcases List.mem_append.mp member with old | new
    · rw [Opens, List.take_of_length_le short.le] at opens
      exact opens b old
    · exact List.mem_singleton.mp new ▸ next short
  · rw [List.take_append_of_le_length (Nat.not_lt.mp short)] at member
    exact opens b member

/-- What follows the `base`-th entry of a log grows with the log. -/
theorem drop_concat_of_le {α : Type*} {base : Nat} {log : List α} (start : base ≤ log.length)
    (a : α) :
    base ≤ (log ++ [a]).length ∧ (log ++ [a]).drop base = log.drop base ++ [a] :=
  ⟨start.trans (List.prefix_append _ _).length_le, List.drop_append_of_le_length start⟩

theorem Opens.all {α : Type*} {k : Nat} {p : α → Prop} {log : List α} (opens : Opens k p log)
    (short : log.length < k) (a : α) (member : a ∈ log) : p a := by
  rw [Opens, List.take_of_length_le short.le] at opens
  exact opens a member

/-- The actions of the producer's thread. -/
def RingAction.byProducer : RingAction → Bool
  | .publish _ | .producer => true
  | .consume | .consumer => false

/-- What `pending` returns when its first load happens in `s` and its second in `t`. -/
def pendingBetween (s t : RingState R) : UInt64 := s.ring.producer - t.ring.consumer

namespace RingState

variable {s : RingState R}

theorem consumerStep_published : s.consumerStep.1.published = s.published := by
  unfold consumerStep
  split <;> (try split) <;> rfl

/-- One action answers at most one poll, and an empty answer means that every
stored tick has been returned. -/
theorem step_consumed (shake : Handshake s) (action : RingAction) :
    s.stored.length ≤ ((ringMachine R).step s action).1.stored.length ∧
      (((ringMachine R).step s action).1.consumed = s.consumed ∨
        ∃ answer, ((ringMachine R).step s action).1.consumed = s.consumed ++ [answer] ∧
          (answer = none → s.returned = s.stored)) := by
  cases action with
  | publish tick =>
    simp only [ringMachine, beginPublish]
    split <;> exact ⟨Nat.le_refl _, .inl rfl⟩
  | producer =>
    refine ⟨?_, .inl producerStep_consumed⟩
    simp only [ringMachine, producerStep]
    split <;> (try split) <;> first
      | exact Nat.le_refl _
      | exact (List.prefix_append _ _).length_le
  | consume =>
    simp only [ringMachine, beginConsume]
    split <;> exact ⟨Nat.le_refl _, .inl rfl⟩
  | consumer =>
    refine ⟨consumerStep_stored.symm ▸ Nat.le_refl _, ?_⟩
    obtain ⟨ring, publish, consume, stored, released, published, consumed⟩ := s
    obtain ⟨slots, _, consuming⟩ := shake
    dsimp only at slots consuming
    cases consume with
    | idle | returned _ | loadCursor | readTick _ | storeSequence _ _ => exact .inl rfl
    | loadSequence cons =>
      obtain ⟨_, answers, rfl⟩ := consuming
      simp only [ringMachine, consumerStep, ofNat_add_one]
      split
      · rename_i failed
        have all := Nat.not_lt.mp (mt slots.consumer_check.mpr failed)
        exact .inr ⟨none, rfl, fun _ => answers.trans (List.take_of_length_le all)⟩
      · exact .inl rfl
    | storeCursor cons tick => exact .inr ⟨some tick, rfl, fun empty => (by cases empty)⟩

end RingState

/-- Since its `base`-th answer, when `r` ticks were returned, the consumer is
owed `k` more. -/
structure Supplied (k r base : Nat) (s : RingState R) : Prop where
  base_le : base ≤ s.consumed.length
  stock : r + k ≤ s.stored.length
  count : s.returned.length = r + (s.consumed.drop base).reduceOption.length
  served : Opens k (fun answer => answer.isSome = true) (s.consumed.drop base)

namespace Supplied

variable {s : RingState R} {k r base : Nat}

theorem step (supplied : Supplied k r base s) (shake : Handshake s) (action : RingAction) :
    Supplied k r base ((ringMachine R).step s action).1 := by
  obtain ⟨base_le, stock, count, served⟩ := supplied
  obtain ⟨grows, answer⟩ := RingState.step_consumed shake action
  generalize ((ringMachine R).step s action).1 = t at grows answer
  obtain same | ⟨answer, more, empty⟩ := answer
  · refine ⟨same ▸ base_le, stock.trans grows, ?_, same ▸ served⟩
    rw [RingState.returned, same]
    exact count
  · obtain ⟨longer, concat⟩ := drop_concat_of_le base_le answer
    refine ⟨more ▸ longer, stock.trans grows, ?_, ?_⟩
    · rw [RingState.returned, more, concat, Handshake.reduceOption_concat,
        Handshake.reduceOption_concat, List.length_append, List.length_append, ← Nat.add_assoc,
        ← count]
      rfl
    · rw [more, concat]
      refine served.concat fun short => ?_
      cases answer with
      | some tick => rfl
      | none =>
        -- An empty answer would need fewer ticks in store than are still owed.
        have full := List.reduceOption_length_eq_iff.mpr (served.all short)
        rw [empty rfl] at count
        omega

theorem runFrom (supplied : Supplied k r base s) (shake : Handshake s)
    (actions : List RingAction) : Supplied k r base ((ringMachine R).runFrom s actions) := by
  induction actions generalizing s with
  | nil => exact supplied
  | cons action rest ih => exact ih (supplied.step shake action) (shake.step action)

end Supplied

/-- Since its `base`-th answer, when `a` ticks were accepted, the producer has
room for `k` more. -/
structure Roomy (k a base : Nat) (s : RingState R) : Prop where
  base_le : base ≤ s.published.length
  room : a + k ≤ s.released + R.val
  count : s.announced = a + ((s.published.drop base).filter Prod.snd).length
  refused : ∀ tick, s.publish = .countDrop tick → k ≤ (s.published.drop base).length
  served : Opens k (fun offer => offer.2 = true) (s.published.drop base)

namespace Roomy

variable {s : RingState R} {k a base : Nat}

theorem producerStep (roomy : Roomy k a base s) (shake : Handshake s) :
    Roomy k a base s.producerStep.1 := by
  obtain ⟨ring, publish, consume, stored, released, published, consumed⟩ := s
  obtain ⟨base_le, room, count, refused, served⟩ := roomy
  obtain ⟨slots, producing, _⟩ := shake
  dsimp only at slots producing base_le room count refused served
  have concat (offer : NormalizedTick × Bool) := drop_concat_of_le base_le offer
  cases publish with
  | idle | returned _ => exact ⟨base_le, room, count, refused, served⟩
  | loadCursor tick | writeTick tick _ =>
    exact ⟨base_le, room, count, fun _ other => (by cases other), served⟩
  | loadSequence tick prod =>
    obtain ⟨_, rfl⟩ := producing
    simp only [RingState.producerStep]
    split
    · rename_i failed
      refine ⟨base_le, room, count, fun _ _ => ?_, served⟩
      by_contra short
      have accepted := served.all (Nat.not_le.mp short)
      have full := mt slots.producer_check.mpr failed
      rw [List.filter_eq_self.mpr accepted, RingState.announced] at count
      dsimp only at count short
      omega
    · exact ⟨base_le, room, count, fun _ other => (by cases other), served⟩
  | storeSequence tick prod =>
    refine ⟨base_le, room, Eq.trans ?_ count, fun _ other => (by cases other), served⟩
    simp only [RingState.producerStep, RingState.announced, List.length_append,
      List.length_singleton, Nat.add_sub_cancel]
  | countDrop tick =>
    refine ⟨(concat _).1, room, ?_, fun _ other => (by cases other), ?_⟩
    · simp only [RingState.producerStep, (concat _).2, List.filter_append, List.length_append]
      exact count
    · simp only [RingState.producerStep, (concat _).2]
      exact served.concat fun short => absurd (refused tick rfl) (Nat.not_le.mpr short)
  | storeCursor tick prod =>
    refine ⟨(concat _).1, room, ?_, fun _ other => (by cases other), ?_⟩
    · obtain ⟨before, split, _⟩ := producing
      simp only [RingState.announced, split, List.length_append, List.length_singleton,
        Nat.add_sub_cancel] at count
      simp only [RingState.producerStep, (concat _).2, List.filter_append, List.length_append,
        RingState.announced, split, count]
      rfl
    · simp only [RingState.producerStep, (concat _).2]
      exact served.concat fun _ => rfl

theorem step (roomy : Roomy k a base s) (shake : Handshake s) (action : RingAction) :
    Roomy k a base ((ringMachine R).step s action).1 := by
  cases action with
  | publish tick =>
    simp only [ringMachine, RingState.beginPublish]
    split
    · rename_i free
      refine ⟨roomy.base_le, roomy.room, ?_, fun _ other => (by cases other), roomy.served⟩
      rw [← roomy.count, RingState.announced, RingState.announced]
      cases stage : s.publish with
      | storeCursor _ _ =>
        rw [stage] at free
        cases free
      | _ => rfl
    · exact roomy
  | producer => exact roomy.producerStep shake
  | consume =>
    simp only [ringMachine, RingState.beginConsume]
    split
    · exact ⟨roomy.base_le, roomy.room, roomy.count, roomy.refused, roomy.served⟩
    · exact roomy
  | consumer =>
    have later : s.released ≤ s.consumerStep.1.released := RingState.released_mono .consumer
    refine ⟨?_, roomy.room.trans (Nat.add_le_add_right later _), ?_, fun tick stage => ?_, ?_⟩
    · exact RingState.consumerStep_published.symm ▸ roomy.base_le
    · change s.consumerStep.1.announced = _
      rw [RingState.announced, RingState.consumerStep_publish, RingState.consumerStep_stored]
      exact RingState.consumerStep_published.symm ▸ roomy.count
    · have before := RingState.consumerStep_publish.symm.trans stage
      exact RingState.consumerStep_published.symm ▸ roomy.refused tick before
    · exact RingState.consumerStep_published.symm ▸ roomy.served

theorem runFrom (roomy : Roomy k a base s) (shake : Handshake s) (actions : List RingAction) :
    Roomy k a base ((ringMachine R).runFrom s actions) := by
  induction actions generalizing s with
  | nil => exact roomy
  | cons action rest ih => exact ih (roomy.step shake action) (shake.step action)

end Roomy

/-- The producer's actions leave the consumer's side alone. -/
theorem runFrom_byProducer {s : RingState R} {actions : List RingAction}
    (own : ∀ action ∈ actions, action.byProducer = true) :
    ((ringMachine R).runFrom s actions).ring.consumer = s.ring.consumer ∧
      ((ringMachine R).runFrom s actions).consumed = s.consumed ∧
      s.stored.length ≤ ((ringMachine R).runFrom s actions).stored.length := by
  induction actions generalizing s with
  | nil => exact ⟨rfl, rfl, Nat.le_refl _⟩
  | cons action rest ih =>
    obtain ⟨cursor, answers, grows⟩ := @ih ((ringMachine R).step s action).1 fun action member =>
      own action (List.mem_cons_of_mem _ member)
    have first : ((ringMachine R).step s action).1.ring.consumer = s.ring.consumer ∧
        ((ringMachine R).step s action).1.consumed = s.consumed ∧
        s.stored.length ≤ ((ringMachine R).step s action).1.stored.length := by
      cases action with
      | publish tick =>
        simp only [ringMachine, RingState.beginPublish]
        split <;> exact ⟨rfl, rfl, Nat.le_refl _⟩
      | producer =>
        simp only [ringMachine, RingState.producerStep]
        split <;> (try split) <;> first
          | exact ⟨rfl, rfl, Nat.le_refl _⟩
          | exact ⟨rfl, rfl, (List.prefix_append _ _).length_le⟩
      | consume | consumer => cases own _ List.mem_cons_self
    exact ⟨cursor.trans first.1, answers.trans first.2.1, first.2.2.trans grows⟩

/-- The consumer's actions leave the producer's side alone. -/
theorem runFrom_byConsumer {s : RingState R} {actions : List RingAction}
    (own : ∀ action ∈ actions, action.byProducer = false) :
    ((ringMachine R).runFrom s actions).publish = s.publish ∧
      ((ringMachine R).runFrom s actions).stored = s.stored ∧
      s.released ≤ ((ringMachine R).runFrom s actions).released := by
  induction actions generalizing s with
  | nil => exact ⟨rfl, rfl, Nat.le_refl _⟩
  | cons action rest ih =>
    obtain ⟨publish, stored, grows⟩ := @ih ((ringMachine R).step s action).1 fun action member =>
      own action (List.mem_cons_of_mem _ member)
    have later : s.released ≤ ((ringMachine R).step s action).1.released :=
      RingState.released_mono action
    have first : ((ringMachine R).step s action).1.publish = s.publish ∧
        ((ringMachine R).step s action).1.stored = s.stored := by
      cases action with
      | consume =>
        simp only [ringMachine, RingState.beginConsume]
        split <;> exact ⟨rfl, rfl⟩
      | consumer => exact ⟨RingState.consumerStep_publish, RingState.consumerStep_stored⟩
      | publish _ | producer => cases own _ List.mem_cons_self
    exact ⟨publish.trans first.1, stored.trans first.2, later.trans grows⟩

theorem RingState.announced_settled {s : RingState R} (free : s.publish.ready = true) :
    s.announced = s.stored.length := by
  unfold announced
  cases stage : s.publish with
  | storeCursor _ _ =>
    rw [stage] at free
    cases free
  | _ => rfl

theorem RingState.stored_le_announced (s : RingState R) :
    s.stored.length ≤ s.announced + 1 ∧ s.announced ≤ s.stored.length := by
  unfold announced
  split <;> omega

section Readings

variable {s t : RingState R}

theorem Supplied.of_pending (shake : Handshake s) (free : s.consume.ready = true)
    (cursor : t.ring.consumer = s.ring.consumer) (answers : t.consumed = s.consumed)
    (grows : s.stored.length ≤ t.stored.length) :
    (pendingBetween s t).toNat = 2 ^ 64 - 1 ∧ s.returned = s.stored ∨
      (pendingBetween s t).toNat ≤ R.val ∧
        Supplied (pendingBetween s t).toNat t.returned.length t.consumed.length t := by
  have inside := shake.announced_le
  rw [← shake.length_returned free] at inside
  obtain ⟨close, announced⟩ := s.stored_le_announced
  have order := shake.returned_prefix.length_le
  have size := R.le_half
  have value : pendingBetween s t = .ofNat s.announced - .ofNat s.returned.length := by
    rw [pendingBetween, cursor, shake.producer_eq, shake.consumer_eq.1]
  by_cases ahead : s.returned.length ≤ s.announced
  · have apart : (pendingBetween s t).toNat = s.announced - s.returned.length := by
      rw [value, UInt64.toNat_sub, UInt64.toNat_ofNat', UInt64.toNat_ofNat']
      omega
    have same : t.returned = s.returned := congrArg List.reduceOption answers
    refine .inr ⟨by omega, Nat.le_refl _, by rw [same]; omega, ?_, ?_⟩
    · rw [List.drop_length]
      rfl
    · rw [List.drop_length]
      exact fun answer member => nomatch (List.take_nil ▸ member)
  · refine .inl ⟨?_, shake.returned_prefix.eq_of_length (by omega)⟩
    rw [value, UInt64.toNat_sub, UInt64.toNat_ofNat', UInt64.toNat_ofNat']
    omega

theorem Roomy.of_pending (shake : Handshake s) (later : Handshake t)
    (free : s.publish.ready = true) (publish : t.publish = s.publish)
    (stored : t.stored = s.stored) (grows : s.released ≤ t.released) :
    Roomy (R.val - (pendingBetween s t).toNat) t.stored.length t.published.length t := by
  have inside := shake.slots.stored_le
  have order := later.returned_prefix.length_le
  obtain ⟨cursor, released⟩ := later.consumer_eq
  have size := R.le_half
  rw [stored] at order
  have value : (pendingBetween s t).toNat = s.stored.length - t.returned.length := by
    rw [pendingBetween, shake.producer_settled free, cursor, UInt64.toNat_sub,
      UInt64.toNat_ofNat', UInt64.toNat_ofNat']
    split at released <;> omega
  have bound := later.slots.stored_le
  refine ⟨Nat.le_refl _, ?_, ?_, fun tick stage => ?_, ?_⟩
  · rw [value, stored]
    rw [stored] at bound
    split at released <;> omega
  · rw [RingState.announced_settled (publish ▸ free), List.drop_length]
    rfl
  · rw [publish] at stage
    rw [stage] at free
    cases free
  · rw [List.drop_length]
    exact fun offer member => nomatch (List.take_nil ▸ member)

end Readings

/-- The consumer's own reading of `pending` is a promise: that many of its next
polls return a tick, whatever the producer does meanwhile. The one reading that
is out of range comes from an empty ring. -/
theorem pending_promises_ticks_to_the_consumer (R : RingSize)
    (before between after : List RingAction)
    (free : ((ringMachine R).run before).consume.ready = true)
    (own : ∀ action ∈ between, action.byProducer = true) :
    (pendingBetween ((ringMachine R).run before)
        ((ringMachine R).run (before ++ between))).toNat = 2 ^ 64 - 1 ∧
      ((ringMachine R).run before).returned = ((ringMachine R).run before).stored ∨
    (pendingBetween ((ringMachine R).run before)
        ((ringMachine R).run (before ++ between))).toNat ≤ R.val ∧
      Opens (pendingBetween ((ringMachine R).run before)
          ((ringMachine R).run (before ++ between))).toNat (fun answer => answer.isSome = true)
        (((ringMachine R).run (before ++ between ++ after)).consumed.drop
          ((ringMachine R).run (before ++ between)).consumed.length) := by
  simp only [Machine.run, Machine.runFrom_append]
  have shake := (reach_handshake (Machine.reach_run (M := ringMachine R) before)).1
  have later := (reach_handshake (Machine.reach_run (M := ringMachine R) (before ++ between))).1
  simp only [Machine.run, Machine.runFrom_append] at shake later free
  generalize (ringMachine R).runFrom (ringMachine R).start before = s at shake later free
  obtain ⟨cursor, answers, grows⟩ := @runFrom_byProducer R s between own
  generalize (ringMachine R).runFrom s between = t at later cursor answers grows
  refine (Supplied.of_pending shake free cursor answers grows).imp_right fun ⟨bound, supplied⟩ => ?_
  exact ⟨bound, (supplied.runFrom later after).served⟩

/-- One call of `try_publish` from its start to its end. -/
def onePublish : List RingAction :=
  [.publish (bidTick 100 1 1), .producer, .producer, .producer, .producer, .producer]

/-- One call of `try_consume` that finds a tick. -/
def onePoll : List RingAction := [.consume, .consumer, .consumer, .consumer, .consumer, .consumer]

theorem pending_promises_a_tick_after_one_publish :
    Opens 1 (fun answer => answer.isSome = true)
      (((ringMachine .loom).run (onePublish ++ onePublish ++ onePoll)).consumed.drop 0) := by
  obtain ⟨wrapped, _⟩ | ⟨_, promised⟩ :=
    pending_promises_ticks_to_the_consumer .loom onePublish onePublish onePoll rfl (by decide)
  · exact absurd wrapped (by decide)
  · exact promised

/-- The producer's own reading is a promise too: as many of its next offers as
it leaves room for are taken. -/
theorem pending_promises_room_to_the_producer (R : RingSize)
    (before between after : List RingAction)
    (free : ((ringMachine R).run before).publish.ready = true)
    (own : ∀ action ∈ between, action.byProducer = false) :
    Opens (R.val - (pendingBetween ((ringMachine R).run before)
          ((ringMachine R).run (before ++ between))).toNat) (fun offer => offer.2 = true)
        (((ringMachine R).run (before ++ between ++ after)).published.drop
          ((ringMachine R).run (before ++ between)).published.length) := by
  simp only [Machine.run, Machine.runFrom_append]
  have shake := (reach_handshake (Machine.reach_run (M := ringMachine R) before)).1
  have later := (reach_handshake (Machine.reach_run (M := ringMachine R) (before ++ between))).1
  simp only [Machine.run, Machine.runFrom_append] at shake later free
  generalize (ringMachine R).runFrom (ringMachine R).start before = s at shake later free
  obtain ⟨publish, stored, grows⟩ := @runFrom_byConsumer R s between own
  generalize (ringMachine R).runFrom s between = t at later publish stored grows
  exact ((Roomy.of_pending shake later free publish stored grows).runFrom later after).served

theorem pending_promises_room_after_one_publish :
    Opens 2 (fun offer => offer.2 = true)
      (((ringMachine .loom).run (onePublish ++ onePoll ++ (onePublish ++ onePublish))).published.drop
        1) :=
  pending_promises_room_to_the_producer .loom onePublish onePoll (onePublish ++ onePublish) rfl
    (by decide)

end FeedHandler
