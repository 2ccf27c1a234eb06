import FeedHandler.RingHandshake
import FeedHandler.General.PoisonMutex

namespace FeedHandler

open Interleaving BoundedFifo Poison

variable {R : RingSize} {T : Type*} [DecidableEq T]

/-- The panic of a failed `assert_eq!`: the two values and the message. -/
structure AssertEq (T : Type*) where
  left : T
  right : T
  message : String
  deriving DecidableEq, Repr

def secondThread (role : String) : String :=
  "SpscDisruptor: " ++ role ++ " called from a second thread, this type is single-" ++ role ++
    " only"

/-- The first caller claims the role, every later call is checked against it.
The guard is taken out of a poisoned lock as out of any other. -/
def checkSingleThread (slot : Mutex (Option T)) (role : String) (current : T) :
    Mutex (Option T) × Except (AssertEq T) Unit :=
  slot.within fun guard =>
    let claimed := Mutex.intoInner guard
    match claimed with
    | some id =>
      (claimed, if id = current then .ok () else .error ⟨id, current, secondThread role⟩)
    | none => (some current, .ok ())

/-- The ring of a debug build. -/
structure DebugDisruptor (R : RingSize) (T : Type*) extends SpscDisruptor R where
  producerThread : Mutex (Option T)
  consumerThread : Mutex (Option T)

/-- The two calls that are checked, by the role each of them needs. -/
inductive Role
  | producer
  | consumer
  deriving DecidableEq, Repr

def Role.text : Role → String
  | .producer => "producer"
  | .consumer => "consumer"

namespace DebugDisruptor

def new (R : RingSize) (T : Type*) : DebugDisruptor R T where
  toSpscDisruptor := .new R
  producerThread := .new none
  consumerThread := .new none

def thread (ring : DebugDisruptor R T) : Role → Mutex (Option T)
  | .producer => ring.producerThread
  | .consumer => ring.consumerThread

def setThread (ring : DebugDisruptor R T) (slot : Mutex (Option T)) :
    Role → DebugDisruptor R T
  | .producer => { ring with producerThread := slot }
  | .consumer => { ring with consumerThread := slot }

end DebugDisruptor

/-- A call as far as the check: who made it, and the panic if it stopped there. -/
structure Call (T : Type*) where
  caller : T
  outcome : Except (AssertEq T) Unit
  deriving DecidableEq, Repr

def Call.passed (call : Call T) : Bool := call.outcome.isOk

/-- A debug ring that any threads use, each at its own place in either call. The
last five fields are history, the calls of each role oldest first. -/
structure DebugState (R : RingSize) (T : Type*) where
  ring : DebugDisruptor R T
  publishing : T → Publish
  consuming : T → Consume
  stored : List NormalizedTick
  released : Nat
  published : List (NormalizedTick × Bool)
  consumed : List (Option NormalizedTick)
  calls : Role → List (Call T)

namespace DebugState

def new (R : RingSize) (T : Type*) : DebugState R T where
  ring := .new R T
  publishing _ := .idle
  consuming _ := .idle
  stored := []
  released := 0
  published := []
  consumed := []
  calls _ := []

/-- The ring with one thread in the place of both parties. -/
def seenBy (s : DebugState R T) (caller : T) : RingState R where
  ring := s.ring.toSpscDisruptor
  publish := s.publishing caller
  consume := s.consuming caller
  stored := s.stored
  released := s.released
  published := s.published
  consumed := s.consumed

def put (s : DebugState R T) (caller : T) (after : RingState R) : DebugState R T where
  ring := { s.ring with toSpscDisruptor := after.ring }
  publishing := Function.update s.publishing caller after.publish
  consuming := Function.update s.consuming caller after.consume
  stored := after.stored
  released := after.released
  published := after.published
  consumed := after.consumed
  calls := s.calls

/-- The check that both calls begin with. -/
def check (s : DebugState R T) (role : Role) (caller : T) :
    DebugState R T × Except (AssertEq T) Unit :=
  let (slot, outcome) := checkSingleThread (s.ring.thread role) role.text caller
  ({ s with
      ring := s.ring.setThread slot role
      calls := Function.update s.calls role (s.calls role ++ [⟨caller, outcome⟩]) }, outcome)

/-- A thread inside a call makes no other. -/
def free (s : DebugState R T) (caller : T) : Bool :=
  (s.publishing caller).ready && (s.consuming caller).ready

/-- A call goes on inside the ring only if its check passes. -/
def enter (s : DebugState R T) (role : Role) (caller : T) (go : RingState R → RingState R) :
    DebugState R T :=
  if s.free caller then
    match s.check role caller with
    | (s, .ok ()) => s.put caller (go (s.seenBy caller))
    | (s, .error _) => s
  else s

def beginPublish (s : DebugState R T) (caller : T) (tick : NormalizedTick) : DebugState R T :=
  s.enter .producer caller fun seen => seen.beginPublish tick

def beginConsume (s : DebugState R T) (caller : T) : DebugState R T :=
  s.enter .consumer caller RingState.beginConsume

end DebugState

inductive DebugAction (T : Type*)
  | publish (caller : T) (tick : NormalizedTick)
  | producer (caller : T)
  | consume (caller : T)
  | consumer (caller : T)
  deriving DecidableEq, Repr

/-- Any threads in any roles, in any interleaving. -/
def debugMachine (R : RingSize) (T : Type*) [DecidableEq T] :
    Machine (DebugState R T) (DebugAction T) (Op NormalizedTick) where
  start := .new R T
  step s
    | .publish caller tick => (s.beginPublish caller tick, [])
    | .producer caller =>
      (s.put caller (s.seenBy caller).producerStep.1, (s.seenBy caller).producerStep.2)
    | .consume caller => (s.beginConsume caller, [])
    | .consumer caller =>
      (s.put caller (s.seenBy caller).consumerStep.1, (s.seenBy caller).consumerStep.2)

/-- How the check of a call ends, given who owns the role. -/
def verdict (role : String) (owner : Option T) (current : T) : Except (AssertEq T) Unit :=
  match owner with
  | some id => if id = current then .ok () else .error ⟨id, current, secondThread role⟩
  | none => .ok ()

section Check

variable {slot : Mutex (Option T)} {role : String} {current : T} {calls : List (Call T)}

theorem checkSingleThread_outcome :
    (checkSingleThread slot role current).2 = verdict role slot.value current := by
  rw [checkSingleThread, Mutex.within_outcome, Mutex.intoInner_lock]
  cases slot.value <;> rfl

theorem checkSingleThread_value :
    (checkSingleThread slot role current).1.value = some (slot.value.getD current) := by
  rw [checkSingleThread, Mutex.within_value, Mutex.intoInner_lock]
  cases slot.value <;> rfl

theorem checkSingleThread_poisoned :
    (checkSingleThread slot role current).1.poisoned =
      (slot.poisoned || !(verdict role slot.value current).isOk) := by
  rw [← checkSingleThread_outcome, checkSingleThread, Mutex.within_poisoned,
    Mutex.within_outcome]

theorem verdict_isOk {owner : Option T} :
    (verdict role owner current).isOk = true ↔ ∀ id ∈ owner, id = current := by
  cases owner with
  | none => exact iff_of_true rfl fun _ member => (nomatch member)
  | some id =>
    simp only [verdict, Option.mem_some, forall_eq']
    split
    · exact iff_of_true rfl ‹_›
    · exact iff_of_false Bool.false_ne_true ‹_›

/-- The slot of one role against its calls so far: the first caller owns the
role, every outcome is the verdict on its caller, and any panic has poisoned
the mutex. -/
structure Tracks (role : String) (slot : Mutex (Option T)) (calls : List (Call T)) : Prop where
  owner : slot.value = calls.head?.map Call.caller
  outcomes : ∀ call ∈ calls, call.outcome = verdict role slot.value call.caller
  poisoned : slot.poisoned = calls.any fun call => !call.passed

theorem Tracks.new : Tracks role (.new none) ([] : List (Call T)) where
  owner := rfl
  outcomes _ member := nomatch member
  poisoned := rfl

/-- The owner never changes, so neither does a verdict that was given. -/
theorem Tracks.check (tracks : Tracks role slot calls) (current : T) :
    Tracks role (checkSingleThread slot role current).1
      (calls ++ [⟨current, (checkSingleThread slot role current).2⟩]) where
  owner := by
    rw [checkSingleThread_value, tracks.owner]
    cases calls <;> rfl
  outcomes := by
    rw [checkSingleThread_value, checkSingleThread_outcome]
    have owner := tracks.owner
    intro call member
    rcases List.mem_append.mp member with earlier | last
    · have outcome := tracks.outcomes call earlier
      cases calls with
      | nil => cases earlier
      | cons first rest => rwa [owner] at outcome ⊢
    · obtain rfl := List.mem_singleton.mp last
      cases slot.value with
      | none => exact (if_pos rfl).symm
      | some id => rfl
  poisoned := by
    rw [checkSingleThread_poisoned, tracks.poisoned, List.any_append, checkSingleThread_outcome,
      List.any_cons, List.any_nil, Bool.or_false, Call.passed]

end Check

namespace DebugState

variable {s : DebugState R T} {caller : T} {role : Role} {go : RingState R → RingState R}

theorem enter_cases (s : DebugState R T) (role : Role) (caller : T)
    (go : RingState R → RingState R) :
    s.enter role caller go = s ∨
      (∃ panic, (s.check role caller).2 = .error panic ∧
        s.enter role caller go = (s.check role caller).1) ∨
      (s.free caller = true ∧ (s.check role caller).2 = .ok () ∧
        s.enter role caller go =
          (s.check role caller).1.put caller (go ((s.check role caller).1.seenBy caller))) := by
  unfold enter
  split
  · rename_i idle
    split <;> rename_i checked <;> rw [checked]
    · exact .inr (.inr ⟨idle, rfl, rfl⟩)
    · exact .inr (.inl ⟨_, rfl, rfl⟩)
  · exact .inl rfl

theorem put_thread {after : RingState R} (role : Role) :
    (s.put caller after).ring.thread role = s.ring.thread role := by
  cases role <;> rfl

theorem check_calls : (s.check role caller).1.calls =
    Function.update s.calls role (s.calls role ++ [⟨caller, (s.check role caller).2⟩]) := rfl

/-- Every slot agrees with the calls of its role. -/
def Watched (s : DebugState R T) : Prop :=
  ∀ role, Tracks role.text (s.ring.thread role) (s.calls role)

theorem Watched.put (watched : s.Watched) (caller : T) (after : RingState R) :
    (s.put caller after).Watched := by
  intro role
  rw [put_thread]
  exact watched role

theorem Watched.check (watched : s.Watched) (role : Role) (caller : T) :
    (s.check role caller).1.Watched := by
  intro other
  have kept := watched other
  have next := (watched role).check caller
  cases role <;> cases other <;> assumption

theorem Watched.enter (watched : s.Watched) : (s.enter role caller go).Watched := by
  obtain same | ⟨_, -, stopped⟩ | ⟨-, -, entered⟩ := s.enter_cases role caller go
  · exact same.symm ▸ watched
  · exact stopped ▸ watched.check role caller
  · exact entered ▸ (watched.check role caller).put caller _

theorem reach_watched {history : List (Op NormalizedTick)}
    (reach : (debugMachine R T).Reach history s) : s.Watched := by
  induction reach with
  | start => exact fun role => by cases role <;> exact Tracks.new
  | next previous action ih =>
    cases action with
    | publish caller tick => exact ih.enter
    | consume caller => exact ih.enter
    | producer caller => exact ih.put caller _
    | consumer caller => exact ih.put caller _

/-- Cursors, slots, the dropped count, and how far every call has got. -/
structure SameRing (s before : DebugState R T) : Prop where
  ring : s.ring.toSpscDisruptor = before.ring.toSpscDisruptor
  publishing : s.publishing = before.publishing
  consuming : s.consuming = before.consuming

theorem check_sameRing (role : Role) (caller : T) : SameRing (s.check role caller).1 s := by
  cases role <;> exact ⟨rfl, rfl, rfl⟩

/-- What a call adds to the history tells how it went. -/
theorem enter_sameRing {other : Role} {call : Call T}
    (added : (s.enter role caller go).calls other = s.calls other ++ [call])
    (stopped : call.passed = false) : SameRing (s.enter role caller go) s := by
  obtain same | ⟨_, -, panicked⟩ | ⟨-, passed, entered⟩ := s.enter_cases role caller go
  · rw [same]
    exact ⟨rfl, rfl, rfl⟩
  · exact panicked ▸ check_sameRing role caller
  · rw [entered, DebugState.put, check_calls, passed] at added
    rcases eq_or_ne other role with rfl | apart
    · rw [Function.update_self] at added
      obtain rfl := List.singleton_inj.mp (List.append_cancel_left added)
      cases stopped
    · rw [Function.update_of_ne apart] at added
      exact absurd (List.self_eq_append_right.mp added) (List.cons_ne_nil _ _)

end DebugState

def callsOf (R : RingSize) (role : Role) (actions : List (DebugAction T)) : List (Call T) :=
  ((debugMachine R T).run actions).calls role

/-- What the check is there for, in one role over one run. The threads are
compared with the first one to call, and `loud` is the promise that one
violation does not hide the next. -/
structure NeverQuiet (R : RingSize) (role : Role) (actions : List (DebugAction T)) : Prop where
  single : ∀ first ∈ (callsOf R role actions).head?,
    ∀ call ∈ callsOf R role actions,
      call.passed = true → call.caller = first.caller
  caught : ∀ first ∈ (callsOf R role actions).head?,
    ∀ call ∈ callsOf R role actions, call.caller ≠ first.caller →
      call.outcome = .error ⟨first.caller, call.caller, secondThread role.text⟩
  untouched : ∀ earlier action later call, actions = earlier ++ action :: later →
    callsOf R role (earlier ++ [action]) = callsOf R role earlier ++ [call] →
      call.passed = false →
      ((debugMachine R T).run (earlier ++ [action])).SameRing ((debugMachine R T).run earlier)
  loud : (callsOf R role actions).Pairwise fun earlier later =>
    earlier.passed = false → later.passed = false

/-- Once any other thread has called, the first caller does not call again. -/
def StaysAway (callers : List T) : Prop :=
  ∀ first ∈ callers.head?, first ∉ callers.dropWhile (· = first)

namespace Tracks

variable {role : String} {slot : Mutex (Option T)} {calls : List (Call T)} {call first : Call T}

theorem passed_iff (tracks : Tracks role slot calls) (leads : first ∈ calls.head?)
    (member : call ∈ calls) : call.passed = true ↔ call.caller = first.caller := by
  rw [Call.passed, tracks.outcomes call member, verdict_isOk, tracks.owner,
    Option.mem_def.mp leads]
  simp only [Option.map_some, Option.mem_some, forall_eq']
  exact eq_comm

theorem stopped (tracks : Tracks role slot calls) (leads : first ∈ calls.head?)
    (member : call ∈ calls) (other : call.caller ≠ first.caller) :
    call.outcome = .error ⟨first.caller, call.caller, secondThread role⟩ := by
  rw [tracks.outcomes call member, tracks.owner, Option.mem_def.mp leads]
  exact if_neg other.symm

theorem loud_iff (tracks : Tracks role slot calls) :
    (calls.Pairwise fun earlier later => earlier.passed = false → later.passed = false) ↔
      StaysAway (calls.map Call.caller) := by
  cases atHead : calls.head? with
  | none =>
    rw [List.head?_eq_none_iff.mp atHead]
    exact iff_of_true .nil fun _ member => (nomatch member)
  | some first =>
    have same : ∀ {call}, call ∈ calls →
        (call.passed = false ↔ decide (call.caller = first.caller) = false) := by
      intro call member
      rw [← Bool.not_eq_true, tracks.passed_iff atHead member, decide_eq_false_iff_not]
    rw [List.Pairwise.iff_of_mem fun earlier later => imp_congr (same earlier) (same later),
      ← List.pairwise_map (f := Call.caller)
        (R := fun a b => decide (a = first.caller) = false → decide (b = first.caller) = false),
      pairwise_iff_dropWhile, StaysAway, List.head?_map, atHead]
    simp only [Option.map_some, Option.mem_some, forall_eq', decide_eq_false_iff_not]
    exact ⟨fun away again => away _ again rfl, fun away a member same => away (same ▸ member)⟩

end Tracks

theorem step_sameRing {s : DebugState R T} {action : DebugAction T} {role : Role} {call : Call T}
    (added : ((debugMachine R T).step s action).1.calls role = s.calls role ++ [call])
    (stopped : call.passed = false) : ((debugMachine R T).step s action).1.SameRing s := by
  cases action with
  | publish caller tick => exact DebugState.enter_sameRing added stopped
  | consume caller => exact DebugState.enter_sameRing added stopped
  | producer caller | consumer caller =>
    exact absurd (List.self_eq_append_right.mp added) (List.cons_ne_nil _ _)

/-- The poison of a panicked call is never looked at: the owner of a role passes
again after it. Everything else the check is there for holds in every run. -/
theorem canary_never_quiet_iff (R : RingSize) (role : Role) (actions : List (DebugAction T)) :
    NeverQuiet R role actions ↔
      StaysAway ((callsOf R role actions).map Call.caller) := by
  have tracks := DebugState.reach_watched ((debugMachine R T).reach_run actions) role
  refine ⟨fun quiet => tracks.loud_iff.mp quiet.loud, fun away => ?_⟩
  refine ⟨?_, ?_, ?_, tracks.loud_iff.mpr away⟩
  · exact fun first leads call member => (tracks.passed_iff leads member).mp
  · exact fun first leads call member => tracks.stopped leads member
  · intro earlier action later call _ added stopped
    rw [callsOf, callsOf, Machine.run_concat] at added
    rw [Machine.run_concat]
    exact step_sameRing added stopped

/-- A first thread publishes, a second one panics, and the first publishes
again. -/
def ownerBack : List (DebugAction Nat) :=
  .publish 0 .default :: List.replicate 5 (.producer 0) ++
    .publish 1 .default :: .publish 0 .default :: List.replicate 5 (.producer 0)

theorem owner_passes_a_poisoned_check :
    callsOf .standard .producer ownerBack =
        [⟨0, .ok ()⟩, ⟨1, .error ⟨0, 1, secondThread "producer"⟩⟩, ⟨0, .ok ()⟩] ∧
      ((debugMachine .standard Nat).run ownerBack).published =
        [(.default, true), (.default, true)] ∧
      ((debugMachine .standard Nat).run ownerBack).ring.producerThread.poisoned = true ∧
      ¬ NeverQuiet .standard .producer ownerBack := by
  have calls : callsOf .standard .producer ownerBack =
      [⟨0, .ok ()⟩, ⟨1, .error ⟨0, 1, secondThread "producer"⟩⟩, ⟨0, .ok ()⟩] := by decide +kernel
  refine ⟨calls, by decide +kernel, by decide +kernel, fun quiet => ?_⟩
  have loud := quiet.loud
  rw [calls, List.pairwise_cons, List.pairwise_cons] at loud
  exact Bool.noConfusion (loud.2.1 _ (List.mem_singleton.mpr rfl) rfl)

end FeedHandler
