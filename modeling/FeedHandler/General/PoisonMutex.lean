import Mathlib.Data.List.Basic

namespace Poison

variable {α β ε : Type*}

/-- A mutex, and the flag that a panic under its lock leaves behind. -/
structure Mutex (α : Type*) where
  value : α
  poisoned : Bool
  deriving DecidableEq, Repr

namespace Mutex

variable {m : Mutex α} {body : Except α α → α × Except ε β}

def new (value : α) : Mutex α := ⟨value, false⟩

/-- `lock` gives access to the value either way, inside an error once the mutex
is poisoned. -/
def lock (m : Mutex α) : Except α α := if m.poisoned then .error m.value else .ok m.value

/-- `PoisonError::into_inner` on the error, the plain guard otherwise. -/
def intoInner : Except α α → α
  | .ok value | .error value => value

theorem intoInner_lock : intoInner m.lock = m.value := by
  unfold lock
  split <;> rfl

/-- A body that runs under the lock, with what it leaves in the mutex and how it
ends. A panic sets the flag, and nothing clears it. -/
def within (m : Mutex α) (body : Except α α → α × Except ε β) : Mutex α × Except ε β :=
  match body m.lock with
  | (value, .ok result) => (⟨value, m.poisoned⟩, .ok result)
  | (value, .error panic) => (⟨value, true⟩, .error panic)

theorem within_value : (m.within body).1.value = (body m.lock).1 := by
  unfold within
  split <;> rename_i ran <;> rw [ran]

theorem within_outcome : (m.within body).2 = (body m.lock).2 := by
  unfold within
  split <;> rename_i ran <;> rw [ran]

theorem within_poisoned :
    (m.within body).1.poisoned = (m.poisoned || !(body m.lock).2.isOk) := by
  unfold within
  split <;> rename_i ran <;> rw [ran]
  · exact (Bool.or_false _).symm
  · exact (Bool.or_true _).symm

end Mutex

/-- Only failures follow a failure, exactly when all are failures from the first
one on. -/
theorem pairwise_iff_dropWhile {p : α → Bool} {l : List α} :
    (l.Pairwise fun earlier later => p earlier = false → p later = false) ↔
      ∀ a ∈ l.dropWhile p, p a = false := by
  induction l with
  | nil => simp only [List.Pairwise.nil, List.dropWhile_nil, List.not_mem_nil, false_imp_iff,
      implies_true]
  | cons a l ih =>
    rw [List.pairwise_cons]
    cases fine : p a with
    | true =>
      rw [List.dropWhile_cons_of_pos fine, ← ih]
      exact and_iff_right fun _ _ failed => Bool.noConfusion failed
    | false =>
      rw [List.dropWhile_cons_of_neg (Bool.eq_false_iff.mp fine), List.forall_mem_cons]
      constructor
      · exact fun ⟨later, _⟩ => ⟨fine, fun b member => later b member rfl⟩
      · rintro ⟨-, later⟩
        exact ⟨fun b member _ => later b member,
          List.pairwise_of_forall_mem_list fun _ _ b member _ => later b member⟩

end Poison
