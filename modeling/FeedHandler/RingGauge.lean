import FeedHandler.RingCalls
import Mathlib.Data.List.Induction

namespace FeedHandler

open Interleaving BoundedFifo

variable {R : RingSize}

/-- Where a caller stands in `pending`. The second field of `loadConsumer` is
history: the publishes whose cursor store the first load has seen. -/
inductive Pending
  | idle
  | loadProducer
  | loadConsumer (prod : UInt64) (finished : Nat)
  | returned (value : UInt64)
  deriving DecidableEq, Repr

def Pending.ready : Pending → Bool
  | .idle | .returned _ => true
  | _ => false

/-- The accepted ticks whose cursor store the producer has done. -/
def RingState.announced (s : RingState R) : Nat :=
  match s.publish with
  | .storeCursor _ _ => s.stored.length - 1
  | _ => s.stored.length

/-- The consumer stands between its slot store and its cursor store. -/
def RingState.releasing (s : RingState R) : Bool :=
  match s.consume with
  | .storeCursor _ _ => true
  | _ => false

/-- The ring and any callers of `pending`. `answers` is history. -/
structure GaugeState (R : RingSize) where
  ring : RingState R
  callers : Nat → Pending
  answers : List UInt64

namespace GaugeState

def new (R : RingSize) : GaugeState R where
  ring := .new R
  callers _ := .idle
  answers := []

def beginPending (s : GaugeState R) (caller : Nat) : GaugeState R :=
  if (s.callers caller).ready then
    { s with callers := Function.update s.callers caller .loadProducer }
  else s

/-- The next load of `pending`. -/
def pendingStep (s : GaugeState R) (caller : Nat) : GaugeState R :=
  match s.callers caller with
  | .idle | .returned _ => s
  | .loadProducer =>
    { s with
      callers := Function.update s.callers caller
        (.loadConsumer s.ring.ring.producer s.ring.announced) }
  | .loadConsumer prod _ =>
    { s with
      callers := Function.update s.callers caller (.returned (prod - s.ring.ring.consumer))
      answers := s.answers ++ [prod - s.ring.ring.consumer] }

end GaugeState

inductive GaugeAction
  | ring (action : RingAction)
  | pending (caller : Nat)
  | load (caller : Nat)
  deriving DecidableEq, Repr

/-- One producer, one consumer and any callers of `pending`, in any interleaving. -/
def gaugeMachine (R : RingSize) : Machine (GaugeState R) GaugeAction (Op NormalizedTick) where
  start := .new R
  step s
    | .ring action =>
      ({ s with ring := ((ringMachine R).step s.ring action).1 },
        ((ringMachine R).step s.ring action).2)
    | .pending caller => (s.beginPending caller, [])
    | .load caller => (s.pendingStep caller, [])

/-- Every answer of `pending` is between zero and the ring size. -/
def GaugeState.InRange (s : GaugeState R) : Prop := ∀ value ∈ s.answers, value.toNat ≤ R.val

/-- Loading the consumer cursor now is sound for a call that saw `finished`
publishes: the consumer has not overtaken them, and it is not about to announce
the release of a slot that had been filled again by then. -/
def RingState.Steady (s : RingState R) (finished : Nat) : Prop :=
  s.returned.length ≤ finished ∧ ¬ (s.releasing = true ∧ finished = s.released + R.val)

/-- The cursors are less than a whole wrap of the word apart. -/
def RingState.Near (s : RingState R) (finished : Nat) : Prop :=
  s.returned.length + R.val < finished + 2 ^ 64

/-- Every second load of `pending` in the run meets `P`. -/
def AtSecondLoads (P : RingState R → Nat → Prop) (actions : List GaugeAction) : Prop :=
  ∀ before caller prod finished, before ++ [.load caller] <+: actions →
    ((gaugeMachine R).run before).callers caller = .loadConsumer prod finished →
      P ((gaugeMachine R).run before).ring finished

def SteadyLoads (R : RingSize) : List GaugeAction → Prop := AtSecondLoads (@RingState.Steady R)

def NearLoads (R : RingSize) : List GaugeAction → Prop := AtSecondLoads (@RingState.Near R)

namespace Handshake

variable {s : RingState R}

theorem producer_eq (shake : Handshake s) : s.ring.producer = .ofNat s.announced := by
  have producing := shake.producing
  unfold RingState.announced
  cases stage : s.publish with
  | idle | returned _ | loadCursor _ | countDrop _ =>
    rw [stage] at producing
    exact producing
  | loadSequence _ _ | writeTick _ _ | storeSequence _ _ =>
    rw [stage] at producing
    exact producing.1
  | storeCursor _ _ =>
    rw [stage] at producing
    obtain ⟨before, stored, cursor, _⟩ := producing
    rw [cursor, stored, List.length_append]
    rfl

/-- The consumer cursor counts the answered ticks, one behind the released
slots while the consumer is releasing. -/
theorem consumer_eq (shake : Handshake s) : s.ring.consumer = .ofNat s.returned.length ∧
    s.released = s.returned.length + if s.releasing then 1 else 0 := by
  have consuming := shake.consuming
  have bound := shake.slots.released_le
  unfold RingState.releasing
  cases stage : s.consume with
  | idle | returned _ | loadCursor =>
    rw [stage] at consuming
    obtain ⟨cursor, answers⟩ := consuming
    rw [cursor, answers, List.length_take, Nat.min_eq_left bound]
    exact ⟨rfl, rfl⟩
  | loadSequence _ | readTick _ | storeSequence _ _ =>
    rw [stage] at consuming
    obtain ⟨cursor, answers, _⟩ := consuming
    rw [cursor, answers, List.length_take, Nat.min_eq_left bound]
    exact ⟨rfl, rfl⟩
  | storeCursor _ _ =>
    rw [stage] at consuming
    obtain ⟨c, released, cursor, answers, _⟩ := consuming
    rw [cursor, answers, released, List.length_take, Nat.min_eq_left (by omega)]
    exact ⟨rfl, rfl⟩

theorem announced_le (shake : Handshake s) : s.announced ≤ s.released + R.val := by
  have bound := shake.slots.stored_le
  unfold RingState.announced
  split <;> omega

end Handshake

theorem RingSize.le_half (R : RingSize) : R.val ≤ 2 ^ 63 :=
  Nat.pow_le_pow_right Nat.two_pos (Nat.le_of_lt_succ R.fits)

namespace RingState

variable {s : RingState R} {finished : Nat}

theorem gauge_le (shake : Handshake s) (bound : finished ≤ s.released + R.val)
    (steady : s.Steady finished) : (.ofNat finished - s.ring.consumer : UInt64).toNat ≤ R.val := by
  obtain ⟨behind, settled⟩ := steady
  obtain ⟨cursor, released⟩ := shake.consumer_eq
  have size := R.le_half
  have ahead : finished ≤ s.returned.length + R.val := by
    split at released
    · rename_i releasing
      have apart : finished ≠ s.released + R.val := fun full => settled ⟨releasing, full⟩
      omega
    · omega
  rw [cursor, UInt64.toNat_sub, UInt64.toNat_ofNat', UInt64.toNat_ofNat']
  omega

/-- Within a wrap of the word the answer is in range only at a steady load. -/
theorem gauge_le_iff (shake : Handshake s) (bound : finished ≤ s.released + R.val)
    (near : s.Near finished) :
    (.ofNat finished - s.ring.consumer : UInt64).toNat ≤ R.val ↔ s.Steady finished := by
  refine ⟨fun small => ?_, gauge_le shake bound⟩
  obtain ⟨cursor, released⟩ := shake.consumer_eq
  have size := R.le_half
  have positive := R.pos
  unfold Near at near
  rw [cursor, UInt64.toNat_sub, UInt64.toNat_ofNat', UInt64.toNat_ofNat'] at small
  have behind : s.returned.length ≤ finished := by omega
  refine ⟨behind, fun ⟨releasing, full⟩ => ?_⟩
  rw [if_pos releasing] at released
  omega

theorem released_mono (action : RingAction) :
    s.released ≤ ((ringMachine R).step s action).1.released := by
  cases action with
  | publish tick =>
    simp only [ringMachine, beginPublish]
    split <;> exact Nat.le_refl _
  | producer =>
    simp only [ringMachine, producerStep]
    split <;> (try split) <;> exact Nat.le_refl _
  | consume =>
    simp only [ringMachine, beginConsume]
    split <;> exact Nat.le_refl _
  | consumer =>
    simp only [ringMachine, consumerStep]
    split <;> (try split) <;> first | exact Nat.le_refl _ | exact Nat.le_succ _

end RingState

namespace GaugeState

variable {s : GaugeState R} {caller other : Nat} {prod : UInt64} {finished : Nat}

theorem beginPending_ring : (s.beginPending other).ring = s.ring := by
  unfold beginPending
  split <;> rfl

theorem pendingStep_ring : (s.pendingStep other).ring = s.ring := by
  unfold pendingStep
  split <;> rfl

theorem beginPending_loaded
    (stage : (s.beginPending other).callers caller = .loadConsumer prod finished) :
    s.callers caller = .loadConsumer prod finished := by
  unfold beginPending at stage
  split at stage
  · simp only [Function.update_apply] at stage
    split at stage
    · cases stage
    · exact stage
  · exact stage

/-- A call between its loads was there before or has just done the first. -/
theorem pendingStep_loaded
    (stage : (s.pendingStep other).callers caller = .loadConsumer prod finished) :
    s.callers caller = .loadConsumer prod finished ∨
      prod = s.ring.ring.producer ∧ finished = s.ring.announced := by
  unfold pendingStep at stage
  split at stage
  · exact Or.inl stage
  · exact Or.inl stage
  · simp only [Function.update_apply] at stage
    split at stage
    · cases stage
      exact Or.inr ⟨rfl, rfl⟩
    · exact Or.inl stage
  · simp only [Function.update_apply] at stage
    split at stage
    · cases stage
    · exact Or.inl stage

end GaugeState

section Runs

variable {history : List (Op NormalizedTick)} {s : GaugeState R} {actions : List GaugeAction}
  {action : GaugeAction} {P : RingState R → Nat → Prop}

/-- The callers only read. -/
theorem gauge_runs_ring (reach : (gaugeMachine R).Reach history s) :
    (ringMachine R).Reach history s.ring := by
  refine reach.project GaugeState.ring rfl fun s action => ?_
  cases action with
  | ring action => exact .inr ⟨action, rfl⟩
  | pending caller =>
    simp only [gaugeMachine, GaugeState.beginPending]
    split <;> exact .inl ⟨rfl, trivial⟩
  | load caller =>
    simp only [gaugeMachine, GaugeState.pendingStep]
    split <;> exact .inl ⟨rfl, trivial⟩

/-- A call between its loads holds the cursor it saw, and the ring can only
have released more since. -/
theorem reach_loaded (reach : (gaugeMachine R).Reach history s) (caller : Nat) (prod : UInt64)
    (finished : Nat) (stage : s.callers caller = .loadConsumer prod finished) :
    prod = .ofNat finished ∧ finished ≤ s.ring.released + R.val := by
  induction reach generalizing caller prod finished with
  | start => cases stage
  | @next history s previous action ih =>
    cases action with
    | ring action =>
      obtain ⟨seen, bound⟩ := ih caller prod finished stage
      exact ⟨seen, bound.trans (Nat.add_le_add_right (RingState.released_mono action) _)⟩
    | pending other =>
      obtain ⟨seen, bound⟩ := ih caller prod finished (GaugeState.beginPending_loaded stage)
      exact ⟨seen, GaugeState.beginPending_ring.symm ▸ bound⟩
    | load other =>
      change prod = _ ∧ finished ≤ (s.pendingStep other).ring.released + R.val
      rw [GaugeState.pendingStep_ring]
      obtain held | ⟨rfl, rfl⟩ := GaugeState.pendingStep_loaded stage
      · exact ih caller prod finished held
      · have shake := (reach_handshake (gauge_runs_ring previous)).1
        exact ⟨shake.producer_eq, shake.announced_le⟩

/-- One action gives no answer, or the answer of a second load. -/
theorem answers_concat (actions : List GaugeAction) (action : GaugeAction) :
    ((gaugeMachine R).run (actions ++ [action])).answers = ((gaugeMachine R).run actions).answers ∧
      (∀ caller prod finished, action = .load caller →
        ((gaugeMachine R).run actions).callers caller ≠ .loadConsumer prod finished) ∨
    ∃ caller prod finished, action = .load caller ∧
      ((gaugeMachine R).run actions).callers caller = .loadConsumer prod finished ∧
      ((gaugeMachine R).run (actions ++ [action])).answers =
        ((gaugeMachine R).run actions).answers ++
          [prod - ((gaugeMachine R).run actions).ring.ring.consumer] := by
  rw [Machine.run_concat]
  generalize (gaugeMachine R).run actions = s
  cases action with
  | ring action => exact .inl ⟨rfl, fun _ _ _ other => nomatch other⟩
  | pending caller =>
    refine .inl ⟨?_, fun _ _ _ other => nomatch other⟩
    simp only [gaugeMachine, GaugeState.beginPending]
    split <;> rfl
  | load caller =>
    cases stage : s.callers caller with
    | idle | loadProducer | returned _ =>
      refine .inl ⟨?_, fun other prod finished same => ?_⟩
      · simp only [gaugeMachine, GaugeState.pendingStep, stage]
      · cases same
        rw [stage]
        exact Pending.noConfusion
    | loadConsumer prod finished =>
      refine .inr ⟨caller, prod, finished, rfl, stage, ?_⟩
      simp only [gaugeMachine, GaugeState.pendingStep, stage]

theorem AtSecondLoads.concat_iff :
    AtSecondLoads P (actions ++ [action]) ↔ AtSecondLoads P actions ∧
      ∀ caller prod finished, action = .load caller →
        ((gaugeMachine R).run actions).callers caller = .loadConsumer prod finished →
          P ((gaugeMachine R).run actions).ring finished := by
  constructor
  · intro holds
    refine ⟨fun before caller prod finished within => ?_, fun caller prod finished same => ?_⟩
    · exact holds before caller prod finished (within.trans (List.prefix_append _ _))
    · subst same
      exact holds actions caller prod finished (List.prefix_refl _)
  · rintro ⟨earlier, last⟩ before caller prod finished within
    rcases List.prefix_concat_iff.mp within with whole | inside
    · obtain ⟨same, tail⟩ := List.append_inj' whole rfl
      subst same
      exact last caller prod finished (List.singleton_inj.mp tail).symm
    · exact earlier before caller prod finished inside

/-- Where every second load is steady, every answer is in range. -/
theorem inRange_of_steady (steady : SteadyLoads R actions) :
    ((gaugeMachine R).run actions).InRange := by
  induction actions using List.reverseRecOn with
  | nil => exact fun _ none => (nomatch none)
  | append_singleton actions action ih =>
    obtain ⟨earlier, last⟩ := AtSecondLoads.concat_iff.mp steady
    obtain ⟨same, _⟩ | ⟨caller, prod, finished, load, stage, more⟩ := answers_concat actions action
    · rw [GaugeState.InRange, same]
      exact ih earlier
    · have reach := Machine.reach_run (M := gaugeMachine R) actions
      have shake := (reach_handshake (gauge_runs_ring reach)).1
      obtain ⟨rfl, bound⟩ := reach_loaded reach caller prod finished stage
      rw [GaugeState.InRange, more]
      intro value member
      rcases List.mem_append.mp member with old | new
      · exact ih earlier value old
      · rw [List.mem_singleton.mp new]
        exact RingState.gauge_le shake bound (last caller _ finished load stage)

/-- Where no call spans a wrap of the word, no other load is in range. -/
theorem steady_of_inRange (near : NearLoads R actions)
    (inRange : ((gaugeMachine R).run actions).InRange) : SteadyLoads R actions := by
  induction actions using List.reverseRecOn with
  | nil =>
    intro before caller prod finished within
    exact absurd (List.prefix_nil.mp within) (List.append_ne_nil_of_right_ne_nil _ (nomatch ·))
  | append_singleton actions action ih =>
    obtain ⟨nearEarlier, nearLast⟩ := AtSecondLoads.concat_iff.mp near
    rw [SteadyLoads, AtSecondLoads.concat_iff]
    obtain ⟨same, silent⟩ | ⟨caller, prod, finished, load, stage, more⟩ :=
      answers_concat (R := R) actions action
    · rw [GaugeState.InRange, same] at inRange
      exact ⟨ih nearEarlier inRange, fun caller prod finished load stage =>
        absurd stage (silent caller prod finished load)⟩
    · rw [GaugeState.InRange, more] at inRange
      refine ⟨ih nearEarlier fun value member =>
        inRange value (List.mem_append_left _ member), ?_⟩
      intro caller' prod' finished' load' stage'
      obtain rfl : caller' = caller := by
        rw [load] at load'
        exact (GaugeAction.load.inj load').symm
      rw [stage] at stage'
      cases stage'
      have reach := Machine.reach_run (M := gaugeMachine R) actions
      have shake := (reach_handshake (gauge_runs_ring reach)).1
      obtain ⟨rfl, bound⟩ := reach_loaded reach caller' prod finished stage
      refine (RingState.gauge_le_iff shake bound (nearLast caller' _ finished load stage)).mp ?_
      exact inRange _ (List.mem_append_right _ (List.mem_singleton_self _))

end Runs

/-- In every run whose second loads are all steady, every answer of `pending`
is in range. As long as no call spans a wrap of the word, no other run has all
its answers in range. -/
theorem steady_second_loads_stay_in_range (R : RingSize) (actions : List GaugeAction) :
    (SteadyLoads R actions → ((gaugeMachine R).run actions).InRange) ∧
    (NearLoads R actions →
      (((gaugeMachine R).run actions).InRange ↔ SteadyLoads R actions)) :=
  ⟨inRange_of_steady, fun near => ⟨steady_of_inRange near, inRange_of_steady⟩⟩

/-- Between the two loads of one call a tick is published and consumed. -/
def overtakenCall : List GaugeAction :=
  [.pending 0, .load 0, .ring (.publish .default)] ++ List.replicate 5 (.ring .producer) ++
    .ring .consume :: List.replicate 5 (.ring .consumer) ++ [.load 0]

theorem overtaken_call_answers_out_of_range :
    ((gaugeMachine .standard).run overtakenCall).answers = [18446744073709551615] ∧
      ¬ ((gaugeMachine .standard).run overtakenCall).InRange := by
  have answers : ((gaugeMachine .standard).run overtakenCall).answers = [18446744073709551615] := by
    decide
  refine ⟨answers, fun inRange => ?_⟩
  have bound := inRange 18446744073709551615 (by rw [answers]; exact List.mem_singleton_self _)
  exact absurd bound (by decide)

end FeedHandler
