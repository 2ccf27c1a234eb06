import Mathlib.Data.List.Basic

namespace BoundedFifo

variable {α : Type*}

/-- A call on a queue together with its answer. -/
inductive Op (α : Type*)
  | offer (a : α) (accepted : Bool)
  | poll (answer : Option α)
  deriving DecidableEq, Repr

/-- The sequential histories of a FIFO queue of fixed capacity, each with what
it leaves in the queue. An offer is refused only by a full queue and a poll
comes back empty only from an empty one. -/
inductive Legal (capacity : Nat) : List (Op α) → List α → Prop
  | start : Legal capacity [] []
  | accept {history queue} (a : α) (previous : Legal capacity history queue)
      (room : queue.length < capacity) :
      Legal capacity (history ++ [.offer a true]) (queue ++ [a])
  | refuse {history queue} (a : α) (previous : Legal capacity history queue)
      (full : queue.length = capacity) :
      Legal capacity (history ++ [.offer a false]) queue
  | take {history queue} {a : α} (previous : Legal capacity history (a :: queue)) :
      Legal capacity (history ++ [.poll (some a)]) queue
  | miss {history} (previous : Legal capacity history []) :
      Legal capacity (history ++ [.poll none]) []

def Op.offered : Op α → Option (α × Bool)
  | .offer a accepted => some (a, accepted)
  | .poll _ => none

def Op.polled : Op α → Option (Option α)
  | .offer _ _ => none
  | .poll answer => some answer

def Op.accepted : Op α → Option α
  | .offer a true => some a
  | .offer _ false => none
  | .poll _ => none

def Op.taken : Op α → Option α
  | .poll answer => answer
  | .offer _ _ => none

variable {capacity : Nat} {history : List (Op α)} {queue : List α}

theorem Legal.length_le (legal : Legal capacity history queue) : queue.length ≤ capacity := by
  induction legal with
  | start => exact Nat.zero_le _
  | accept a previous room ih =>
    rw [List.length_append, List.length_singleton]
    omega
  | refuse a previous full ih => exact ih
  | take previous ih =>
    rw [List.length_cons] at ih
    omega
  | miss previous ih => exact ih

/-- Nothing is lost, doubled or reordered: what went in is what came out
followed by what is still inside. -/
theorem Legal.accepted_eq (legal : Legal capacity history queue) :
    history.filterMap Op.accepted = history.filterMap Op.taken ++ queue := by
  induction legal with
  | start => rfl
  | accept a previous room ih =>
    simp only [List.filterMap_append, ih, List.append_assoc]
    rfl
  | refuse a previous full ih =>
    simp only [List.filterMap_append, ih, List.append_assoc]
    exact congrArg _ (List.append_nil _)
  | take previous ih =>
    simp only [List.filterMap_append, ih]
    simp [Op.accepted, Op.taken]
  | miss previous ih =>
    simp only [List.filterMap_append, ih]
    rfl

end BoundedFifo
