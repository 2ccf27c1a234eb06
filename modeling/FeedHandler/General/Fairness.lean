import FeedHandler.General.Machine
import Mathlib.Order.Nat

namespace Interleaving

/-- An endless schedule in which every action comes up again and again. -/
def Fair {α : Type*} (schedule : Nat → α) : Prop :=
  ∀ action i, ∃ j, i ≤ j ∧ schedule j = action

namespace Machine

variable {σ α ε : Type*} {M : Machine σ α ε} {schedule : Nat → α} {goal : σ → Prop}

/-- The state before turn `i`. -/
def stateAt (M : Machine σ α ε) (schedule : Nat → α) (i : Nat) : σ :=
  M.run ((List.range i).map schedule)

theorem stateAt_succ (i : Nat) :
    M.stateAt schedule (i + 1) = (M.step (M.stateAt schedule i) (schedule i)).1 := by
  rw [stateAt, List.range_succ, List.map_append]
  exact M.run_concat _ _

theorem reach_stateAt (schedule : Nat → α) (i : Nat) :
    M.Reach (M.history ((List.range i).map schedule)) (M.stateAt schedule i) :=
  reach_run _

/-- A rank on the states a machine can reach, with one helpful action at each of
them short of the goal. The helpful action lowers the rank. Any other action
leaves both alone, unless it lowers the rank itself. -/
structure Ranking (M : Machine σ α ε) (goal : σ → Prop) where
  rank : σ → Nat
  helper : σ → α
  lowers : ∀ history s, M.Reach history s → ¬ goal s →
    rank (M.step s (helper s)).1 < rank s
  keeps : ∀ history s action, M.Reach history s → ¬ goal s →
    rank (M.step s action).1 < rank s ∨
      rank (M.step s action).1 = rank s ∧ helper (M.step s action).1 = helper s

/-- Under a fair schedule the helpful action comes before it is too late. -/
theorem Ranking.lower (ranking : Ranking M goal) (fair : Fair schedule) (i : Nat) :
    ∃ j, i ≤ j ∧ (goal (M.stateAt schedule j) ∨
      ranking.rank (M.stateAt schedule j) < ranking.rank (M.stateAt schedule i)) := by
  by_contra never
  have stuck : ∀ k, ranking.rank (M.stateAt schedule (i + k)) =
      ranking.rank (M.stateAt schedule i) ∧
        ranking.helper (M.stateAt schedule (i + k)) =
          ranking.helper (M.stateAt schedule i) := by
    intro k
    induction k with
    | zero => exact ⟨rfl, rfl⟩
    | succ k ih =>
      have short : ¬ goal (M.stateAt schedule (i + k)) := fun reached =>
        never ⟨i + k, Nat.le_add_right i k, .inl reached⟩
      have step := ranking.keeps _ _ (schedule (i + k)) (reach_stateAt schedule (i + k)) short
      rw [← stateAt_succ, ih.1, ih.2] at step
      exact step.resolve_left fun lower =>
        never ⟨i + (k + 1), Nat.le_add_right i _, .inr lower⟩
  obtain ⟨j, later, turn⟩ := fair (ranking.helper (M.stateAt schedule i)) i
  obtain ⟨k, rfl⟩ := Nat.exists_eq_add_of_le later
  have short : ¬ goal (M.stateAt schedule (i + k)) := fun reached =>
    never ⟨i + k, later, .inl reached⟩
  have lower := ranking.lowers _ _ (reach_stateAt schedule (i + k)) short
  rw [(stuck k).1, (stuck k).2, ← turn, ← stateAt_succ] at lower
  exact never ⟨i + k + 1, later.trans (Nat.le_succ _), .inr lower⟩

theorem Ranking.reaches (ranking : Ranking M goal) (fair : Fair schedule) (i : Nat) :
    ∃ j, i ≤ j ∧ goal (M.stateAt schedule j) := by
  induction level : ranking.rank (M.stateAt schedule i) using Nat.strong_induction_on
    generalizing i with
  | _ level' ih =>
    subst level
    obtain ⟨j, later, reached | lower⟩ := ranking.lower fair i
    · exact ⟨j, later, reached⟩
    · obtain ⟨k, after, reached⟩ := ih _ lower j rfl
      exact ⟨k, later.trans after, reached⟩

/-- A goal that no action undoes holds from some turn on. -/
theorem Ranking.settles (ranking : Ranking M goal) (fair : Fair schedule)
    (stable : ∀ s action, goal s → goal (M.step s action).1) :
    ∃ i, ∀ j, i ≤ j → goal (M.stateAt schedule j) := by
  obtain ⟨i, -, reached⟩ := ranking.reaches fair 0
  refine ⟨i, fun j later => ?_⟩
  induction j, later using Nat.le_induction with
  | base => exact reached
  | succ j _ ih =>
    rw [stateAt_succ]
    exact stable _ _ ih

end Machine

end Interleaving
