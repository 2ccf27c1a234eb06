import Mathlib.Data.List.Basic

namespace Interleaving

/-- A system whose parties act one step at a time. An action that is not
enabled leaves the state alone, so every list of actions is a schedule. -/
structure Machine (σ α ε : Type*) where
  start : σ
  step : σ → α → σ × List ε

namespace Machine

variable {σ α ε : Type*} {M : Machine σ α ε}

/-- The states that can be reached, with everything emitted on the way. -/
inductive Reach (M : Machine σ α ε) : List ε → σ → Prop
  | start : Reach M [] M.start
  | next {history : List ε} {s : σ} (previous : Reach M history s) (action : α) :
      Reach M (history ++ (M.step s action).2) (M.step s action).1

def runFrom (M : Machine σ α ε) (s : σ) (actions : List α) : σ :=
  actions.foldl (fun s action => (M.step s action).1) s

def run (M : Machine σ α ε) (actions : List α) : σ := M.runFrom M.start actions

def emitted (M : Machine σ α ε) (s : σ) : List α → List ε
  | [] => []
  | action :: rest => (M.step s action).2 ++ M.emitted (M.step s action).1 rest

def history (M : Machine σ α ε) (actions : List α) : List ε := M.emitted M.start actions

theorem runFrom_append (M : Machine σ α ε) (s : σ) (first second : List α) :
    M.runFrom s (first ++ second) = M.runFrom (M.runFrom s first) second :=
  List.foldl_append

theorem run_concat (M : Machine σ α ε) (actions : List α) (action : α) :
    M.run (actions ++ [action]) = (M.step (M.run actions) action).1 :=
  M.runFrom_append M.start actions [action]

theorem Reach.runFrom {history : List ε} {s : σ} (reach : M.Reach history s) (actions : List α) :
    M.Reach (history ++ M.emitted s actions) (M.runFrom s actions) := by
  induction actions generalizing history s with
  | nil =>
    rw [emitted, List.append_nil]
    exact reach
  | cons action rest ih =>
    have later := ih (reach.next action)
    rw [List.append_assoc] at later
    exact later

theorem reach_run (actions : List α) : M.Reach (M.history actions) (M.run actions) :=
  Reach.start.runFrom actions

/-- What holds at the start and is kept by every step holds wherever a run gets. -/
@[elab_as_elim]
theorem Reach.invariant {inv : List ε → σ → Prop} {history : List ε} {s : σ}
    (reach : M.Reach history s) (init : inv [] M.start)
    (keeps : ∀ history s action, inv history s →
      inv (history ++ (M.step s action).2) (M.step s action).1) : inv history s := by
  induction reach with
  | start => exact init
  | next previous action ih => exact keeps _ _ action ih

/-- A machine whose every step from a state it reaches is a step of another
machine, or no step at all, under a projection of its states runs that machine
with the same emissions. -/
theorem Reach.simulate {τ β : Type*} {N : Machine τ β ε} (f : σ → τ) (init : f M.start = N.start)
    (simulates : ∀ history s action, M.Reach history s →
      (f (M.step s action).1 = f s ∧ (M.step s action).2 = []) ∨
        ∃ b, N.step (f s) b = (f (M.step s action).1, (M.step s action).2))
    {history : List ε} {s : σ} (reach : M.Reach history s) : N.Reach history (f s) := by
  induction reach with
  | start => exact init ▸ .start
  | @next history s previous action ih =>
    obtain ⟨same, silent⟩ | ⟨b, step⟩ := simulates history s action previous
    · rw [same, silent, List.append_nil]
      exact ih
    · have later := ih.next b
      rw [step] at later
      exact later

/-- The same where no state has to be excluded. -/
theorem Reach.project {τ β : Type*} {N : Machine τ β ε} (f : σ → τ) (init : f M.start = N.start)
    (simulates : ∀ s action,
      (f (M.step s action).1 = f s ∧ (M.step s action).2 = []) ∨
        ∃ b, N.step (f s) b = (f (M.step s action).1, (M.step s action).2))
    {history : List ε} {s : σ} (reach : M.Reach history s) : N.Reach history (f s) :=
  reach.simulate f init fun _ s action _ => simulates s action

end Machine

end Interleaving
