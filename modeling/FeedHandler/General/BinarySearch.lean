import Mathlib.Data.List.Basic
import Mathlib.Tactic.SplitIfs

namespace BinarySearch

/-- The halving loop of a branch-free slice search. `probe` compares the i-th
element with the key; the loop keeps a base and a remaining size, and has no
early exit on equality. `fuel` counts the iterations left. -/
def narrow (probe : Nat → Ordering) : Nat → Nat → Nat → Nat
  | 0, base, _ => base
  | fuel + 1, base, size =>
    if 1 < size then
      let mid := base + size / 2
      narrow probe fuel (if probe mid = .gt then base else mid) (size - size / 2)
    else base

/-- Search a slice of the given length: `ok` is the index of a match, `error`
an insertion point. -/
def search (probe : Nat → Ordering) (len : Nat) : Except Nat Nat :=
  if len = 0 then .error 0
  else
    let base := narrow probe len 0 len
    match probe base with
    | .eq => .ok base
    | .lt => .error (base + 1)
    | .gt => .error base

def searchBy {α : Type*} (slice : List α) (cmp : α → Ordering) : Except Nat Nat :=
  search (fun i => (slice[i]?).elim .gt cmp) slice.length

/-- The comparisons along the slice are nondecreasing: first less, then equal,
then greater. -/
def Graded (probe : Nat → Ordering) (len : Nat) : Prop :=
  ∀ i j, i < j → j < len →
    (probe i = .gt → probe j = .gt) ∧ (probe i = .eq → probe j ≠ .lt)

theorem narrow_lt (probe : Nat → Ordering) {fuel base size : Nat} (positive : 0 < size) :
    narrow probe fuel base size < base + size := by
  induction fuel generalizing base size with
  | zero => simp only [narrow]; omega
  | succ fuel ih =>
    simp only [narrow]
    split
    · have next := @ih (if probe (base + size / 2) = .gt then base else base + size / 2)
        (size - size / 2) (by omega)
      split at next <;> split <;> first | omega | contradiction
    · omega

/-- Everything at or past the window is greater than the key, and the base is
either the first slot or known not to be greater. -/
structure Window (probe : Nat → Ordering) (len base size : Nat) : Prop where
  inside : base + size ≤ len
  above : ∀ j, base + size ≤ j → j < len → probe j = .gt
  below : base = 0 ∨ probe base ≠ .gt

theorem Window.halve {probe : Nat → Ordering} {len base size : Nat}
    (window : Window probe len base size) (graded : Graded probe len) (many : 1 < size) :
    Window probe len (if probe (base + size / 2) = .gt then base else base + size / 2)
      (size - size / 2) := by
  have inside := window.inside
  split
  · rename_i greater
    refine ⟨by omega, ?_, window.below⟩
    intro j lower upper
    rcases Nat.eq_or_lt_of_le (show base + size / 2 ≤ j by omega) with same | later
    · exact same ▸ greater
    · exact (graded _ _ later upper).1 greater
  · rename_i notGreater
    exact ⟨by omega, fun j lower upper => window.above j (by omega) upper, Or.inr notGreater⟩

theorem narrow_window {probe : Nat → Ordering} {len fuel base size : Nat}
    (graded : Graded probe len) (window : Window probe len base size)
    (positive : 0 < size) (enough : size ≤ fuel) :
    Window probe len (narrow probe fuel base size) 1 := by
  induction fuel generalizing base size with
  | zero => omega
  | succ fuel ih =>
    simp only [narrow]
    split
    · exact ih (window.halve graded ‹_›) (by omega) (by omega)
    · have one : size = 1 := by omega
      exact one ▸ window

/-- No order is needed for the index bounds: they hold on any slice. -/
theorem search_ok_lt {probe : Nat → Ordering} {len i : Nat} (found : search probe len = .ok i) :
    i < len ∧ probe i = .eq := by
  unfold search at found
  split at found
  · cases found
  · have bound := @narrow_lt probe len 0 len (by omega)
    dsimp only at found
    split at found
    · rename_i equal
      cases found
      exact ⟨by omega, equal⟩
    · cases found
    · cases found

theorem search_error_le {probe : Nat → Ordering} {len i : Nat}
    (missed : search probe len = .error i) : i ≤ len := by
  unfold search at missed
  split at missed
  · cases missed
    omega
  · have bound := @narrow_lt probe len 0 len (by omega)
    dsimp only at missed
    split at missed <;> cases missed <;> omega

/-- On a graded slice a miss splits it at the insertion point. -/
theorem search_error_split {probe : Nat → Ordering} {len i : Nat} (graded : Graded probe len)
    (missed : search probe len = .error i) :
    (∀ j, j < i → probe j = .lt) ∧ (∀ j, i ≤ j → j < len → probe j = .gt) := by
  unfold search at missed
  split at missed
  · cases missed
    exact ⟨fun j below => by omega, fun j _ upper => by omega⟩
  · have start : Window probe len 0 len :=
      ⟨by omega, fun j lower upper => by omega, Or.inl rfl⟩
    have final := narrow_window graded start (by omega) (Nat.le_refl len)
    have inside := final.inside
    dsimp only at missed
    split at missed
    · cases missed
    · rename_i less
      cases missed
      refine ⟨fun j below => ?_, final.above⟩
      rcases Nat.eq_or_lt_of_le (Nat.le_of_lt_succ below) with same | earlier
      · exact same ▸ less
      · have order := graded _ _ earlier (by omega)
        cases atJ : probe j with
        | lt => rfl
        | eq => exact absurd less (order.2 atJ)
        | gt => rw [order.1 atJ] at less; cases less
    · rename_i greater
      cases missed
      have first : narrow probe len 0 len = 0 :=
        final.below.resolve_right (fun other => other greater)
      refine ⟨fun j below => by omega, fun j lower upper => ?_⟩
      rcases Nat.eq_or_lt_of_le lower with same | later
      · exact same ▸ greater
      · exact (graded _ _ later upper).1 greater

section Slices

variable {α : Type*} {slice : List α} {cmp : α → Ordering} {i : Nat}

theorem searchBy_ok (found : searchBy slice cmp = .ok i) :
    ∃ bound : i < slice.length, cmp slice[i] = .eq := by
  obtain ⟨bound, equal⟩ := search_ok_lt found
  exact ⟨bound, by simpa only [List.getElem?_eq_getElem bound, Option.elim_some] using equal⟩

theorem searchBy_error_le (missed : searchBy slice cmp = .error i) : i ≤ slice.length :=
  search_error_le missed

/-- A slice sorted for its comparator: an element that is not less stays not
less further on, and a greater one stays greater. -/
theorem searchBy_error (sorted : slice.Pairwise fun a b =>
      (cmp a = .gt → cmp b = .gt) ∧ (cmp a = .eq → cmp b ≠ .lt))
    (missed : searchBy slice cmp = .error i) :
    (∀ a ∈ slice.take i, cmp a = .lt) ∧ (∀ a ∈ slice.drop i, cmp a = .gt) := by
  have graded : Graded (fun i => (slice[i]?).elim .gt cmp) slice.length := by
    intro a b order bound
    have pair := List.pairwise_iff_getElem.mp sorted a b (by omega) bound order
    simpa only [List.getElem?_eq_getElem bound,
      List.getElem?_eq_getElem (show a < slice.length by omega), Option.elim_some] using pair
  obtain ⟨below, above⟩ := search_error_split graded missed
  constructor
  · intro a member
    obtain ⟨j, bound, value⟩ := List.mem_iff_getElem.mp member
    rw [List.getElem_take] at value
    have inside : j < slice.length := by
      rw [List.length_take] at bound
      omega
    have less := below j (by rw [List.length_take] at bound; omega)
    simpa only [List.getElem?_eq_getElem inside, Option.elim_some, value] using less
  · intro a member
    obtain ⟨j, bound, value⟩ := List.mem_iff_getElem.mp member
    rw [List.getElem_drop] at value
    have inside : i + j < slice.length := by
      rw [List.length_drop] at bound
      omega
    have greater := above (i + j) (by omega) inside
    simpa only [List.getElem?_eq_getElem inside, Option.elim_some, value] using greater

end Slices

/-- A slice search of which only the index bounds are relied on. On a slice
that is not sorted for its comparator it may answer anything within them. -/
structure SliceSearch (α : Type*) where
  run : List α → (α → Ordering) → Except Nat Nat
  ok_lt : ∀ {slice : List α} {cmp : α → Ordering} {i : Nat}, run slice cmp = .ok i →
    i < slice.length
  error_le : ∀ {slice : List α} {cmp : α → Ordering} {i : Nat}, run slice cmp = .error i →
    i ≤ slice.length

/-- The halving search keeps the bounds on every slice. -/
def SliceSearch.halving {α : Type*} : SliceSearch α where
  run := searchBy
  ok_lt found := (searchBy_ok found).1
  error_le missed := searchBy_error_le missed

end BinarySearch
