import Mathlib.Data.List.Basic

namespace Framing

variable {α β : Type*} {encode : α → List β} {size : Nat}

/-- The `i`-th block of `size` entries. -/
def block (size : Nat) (l : List β) (i : Nat) : List β := (l.drop (i * size)).take size

theorem length_flatMap (sized : ∀ x, (encode x).length = size) (xs : List α) :
    (xs.flatMap encode).length = xs.length * size := by
  induction xs with
  | nil => exact (Nat.zero_mul size).symm
  | cons x rest ih =>
    rw [List.flatMap_cons, List.length_append, sized, ih, List.length_cons, Nat.succ_mul,
      Nat.add_comm]

theorem drop_flatMap (sized : ∀ x, (encode x).length = size) (xs : List α) (i : Nat) :
    (xs.flatMap encode).drop (i * size) = (xs.drop i).flatMap encode := by
  induction xs generalizing i with
  | nil => simp only [List.flatMap_nil, List.drop_nil]
  | cons x rest ih =>
    cases i with
    | zero => rw [Nat.zero_mul, List.drop_zero, List.drop_zero]
    | succ i =>
      have next : (i + 1) * size = (encode x).length + i * size := by
        rw [sized, Nat.succ_mul, Nat.add_comm]
      rw [next, List.flatMap_cons, List.drop_length_add_append, ih, List.drop_succ_cons]

theorem take_flatMap (sized : ∀ x, (encode x).length = size) (xs : List α) (i : Nat) :
    (xs.flatMap encode).take (i * size) = (xs.take i).flatMap encode := by
  have split : xs.flatMap encode = (xs.take i).flatMap encode ++ (xs.drop i).flatMap encode := by
    rw [← List.flatMap_append, List.take_append_drop]
  have rest := drop_flatMap sized xs i
  have cut := List.take_append_drop (i * size) (xs.flatMap encode)
  rw [rest, split] at cut
  rw [split]
  exact List.append_cancel_right cut

theorem block_flatMap (sized : ∀ x, (encode x).length = size) {xs : List α} {i : Nat}
    (inside : i < xs.length) : block size (xs.flatMap encode) i = encode xs[i] := by
  rw [block, drop_flatMap sized, List.drop_eq_getElem_cons inside, List.flatMap_cons,
    List.take_left' (sized _)]

theorem block_append_left {l m : List β} {i : Nat} (inside : (i + 1) * size ≤ l.length) :
    block size (l ++ m) i = block size l i := by
  have room : i * size + size ≤ l.length := by
    rwa [Nat.succ_mul] at inside
  rw [block, block, List.drop_append_of_le_length (by omega),
    List.take_append_of_le_length (by rw [List.length_drop]; omega)]

theorem block_drop {l : List β} {i k : Nat} : block size (l.drop (k * size)) i = block size l (k + i) := by
  rw [block, block, List.drop_drop, Nat.add_mul]

/-- Encoded records head a list exactly when each is the block in its place. -/
theorem flatMap_prefix_iff (sized : ∀ x, (encode x).length = size) {xs : List α} {l : List β} :
    xs.flatMap encode <+: l ↔ ∀ i (inside : i < xs.length), block size l i = encode xs[i] := by
  constructor
  · intro start i inside
    obtain ⟨rest, rfl⟩ := start
    rw [← block_flatMap sized inside]
    refine block_append_left ?_
    rw [length_flatMap sized]
    exact Nat.mul_le_mul_right size inside
  · intro blocks
    induction xs generalizing l with
    | nil => exact List.nil_prefix
    | cons x rest ih =>
      have first := blocks 0 (Nat.succ_pos _)
      rw [block, Nat.zero_mul, List.drop_zero, List.getElem_cons_zero] at first
      have later : rest.flatMap encode <+: l.drop size := by
        refine ih fun i inside => ?_
        have shifted := blocks (i + 1) (Nat.succ_lt_succ inside)
        rw [List.getElem_cons_succ, Nat.add_comm, ← block_drop, Nat.one_mul] at shifted
        exact shifted
      rw [List.flatMap_cons, ← first]
      conv_rhs => rw [← List.take_append_drop size l]
      exact (List.prefix_append_right_inj _).mpr later

/-- A list that heads itself shifted by `torn` repeats `torn` over and over. -/
theorem prefix_append_self_iff {torn l : List β} :
    l <+: torn ++ l ↔ torn = [] ∨ ∀ j < l.length, l[j]? = torn[j % torn.length]? := by
  rcases torn.eq_nil_or_concat with empty | ⟨_, _, shape⟩
  · subst empty
    simp only [List.nil_append, List.prefix_rfl, true_or]
  have positive : 0 < torn.length := by
    rw [shape]
    simp
  have nonempty : torn ≠ [] := List.ne_nil_of_length_pos positive
  rw [List.prefix_iff_getElem?, or_iff_right nonempty]
  constructor
  · intro shifted j
    induction j using Nat.strongRecOn with
    | ind j ih =>
      intro inside
      have here := shifted j inside
      rw [List.getElem?_eq_getElem inside, ← here]
      by_cases first : j < torn.length
      · rw [List.getElem?_append_left first, Nat.mod_eq_of_lt first]
      · rw [List.getElem?_append_right (by omega), ih _ (by omega) (by omega),
          ← Nat.mod_eq_sub_mod (by omega)]
  · intro cyclic j inside
    rw [← List.getElem?_eq_getElem inside, cyclic j inside]
    by_cases first : j < torn.length
    · rw [List.getElem?_append_left first, Nat.mod_eq_of_lt first]
    · rw [List.getElem?_append_right (by omega), cyclic _ (by omega),
        ← Nat.mod_eq_sub_mod (by omega)]

/-- A filter that keeps as many entries as there are keeps each of them. -/
theorem filterMap_eq_iff_map {γ : Type*} {f : α → Option γ} {xs : List α} {ys : List γ}
    (length : xs.length = ys.length) : xs.filterMap f = ys ↔ xs.map f = ys.map some := by
  induction xs generalizing ys with
  | nil => simp [List.length_eq_zero_iff.mp length.symm]
  | cons x rest ih =>
    obtain ⟨y, others, rfl⟩ := List.exists_cons_of_length_eq_add_one length.symm
    have shorter : rest.length = others.length := Nat.succ.inj length
    rw [List.map_cons, List.map_cons, List.cons.injEq, ← ih shorter]
    cases value : f x with
    | none =>
      have bound := List.length_filterMap_le f rest
      rw [List.filterMap_cons_none value]
      constructor
      · intro kept
        rw [kept, List.length_cons] at bound
        omega
      · intro both
        cases both.1
    | some z => rw [List.filterMap_cons_some value, List.cons.injEq, Option.some.injEq]

end Framing
