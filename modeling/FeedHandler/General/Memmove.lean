import Mathlib.Data.Vector.Basic
import Mathlib.Data.List.InsertIdx

namespace Memmove

variable {α : Type*} {N : Nat}

/-- `ptr::copy` inside one array: the `n` slots from `src` land on the `n`
slots from `dst`, all read before any is written. A range that leaves the
array is a fault. -/
def copy (v : Vector α N) (src dst n : Nat) : Option (Vector α N) :=
  if fits : src + n ≤ N ∧ dst + n ≤ N then
    some (Vector.ofFn fun i =>
      if inside : dst ≤ i.val ∧ i.val < dst + n then v[src + (i.val - dst)] else v[i.val])
  else none

/-- An indexed store `v[idx] = a`, which panics out of bounds. -/
def store (v : Vector α N) (idx : Nat) (a : α) : Option (Vector α N) :=
  if bound : idx < N then some (v.set idx a bound) else none

theorem store_eq {v : Vector α N} {idx : Nat} (bound : idx < N) (a : α) :
    store v idx a = some (v.set idx a bound) :=
  dif_pos bound

theorem copy_eq {v : Vector α N} {src dst n : Nat} (source : src + n ≤ N)
    (target : dst + n ≤ N) :
    ∃ w, copy v src dst n = some w ∧ ∀ k, k < N →
      w.toList[k]? = v.toList[if dst ≤ k ∧ k < dst + n then src + (k - dst) else k]? := by
  refine ⟨_, dif_pos ⟨source, target⟩, ?_⟩
  intro k bound
  rw [Vector.getElem?_toList, Vector.getElem?_toList, Vector.getElem?_eq_getElem bound,
    Vector.getElem_ofFn]
  split
  · rename_i inside
    dsimp only at inside
    rw [Vector.getElem?_eq_getElem (by omega)]
  · rw [Vector.getElem?_eq_getElem bound]

/-- Moving the tail of the first `m` slots down by one removes a slot. -/
theorem copy_down {v : Vector α N} {idx m : Nat} (within : idx < m) (room : m ≤ N) :
    ∃ w, copy v (idx + 1) idx (m - 1 - idx) = some w ∧
      w.toList.take (m - 1) = (v.toList.take m).eraseIdx idx := by
  obtain ⟨w, run, value⟩ := @copy_eq _ _ v (idx + 1) idx (m - 1 - idx)
    (by omega) (by omega)
  refine ⟨w, run, List.ext_getElem? fun k => ?_⟩
  rw [List.getElem?_take, List.getElem?_eraseIdx, List.getElem?_take, List.getElem?_take]
  by_cases live : k < m - 1
  · rw [if_pos live, value k (by omega)]
    by_cases before : k < idx
    · rw [if_neg (by omega), if_pos before, if_pos (by omega)]
    · rw [if_pos (by omega), if_neg before, if_pos (by omega)]
      congr 1
      omega
  · rw [if_neg live, if_neg (by omega : ¬ k < idx), if_neg (by omega : ¬ k + 1 < m)]

/-- Moving the tail of the first `m` slots up by one and storing into the gap
inserts a slot. -/
theorem copy_up {v : Vector α N} {idx m : Nat} (within : idx ≤ m) (room : m < N) :
    ∃ w, copy v idx (idx + 1) (m - idx) = some w ∧ ∀ (a : α) (bound : idx < N),
      (w.set idx a bound).toList.take (m + 1) = (v.toList.take m).insertIdx idx a := by
  obtain ⟨w, run, value⟩ := @copy_eq _ _ v idx (idx + 1) (m - idx) (by omega)
    (by omega)
  refine ⟨w, run, fun a bound => List.ext_getElem? fun k => ?_⟩
  have length : w.toList.length = N := Vector.length_toList
  have oldLength : v.toList.length = N := Vector.length_toList
  rw [Vector.toList_set, List.getElem?_take, List.getElem?_insertIdx, List.getElem?_take,
    List.getElem?_take, List.getElem?_set, List.length_take]
  by_cases live : k < m + 1
  · rw [if_pos live]
    rcases Nat.lt_trichotomy k idx with before | same | after
    · rw [if_neg (by omega), if_pos before, if_pos (by omega), value k (by omega),
        if_neg (by omega)]
    · rw [if_pos same.symm, if_pos (by omega), if_neg (by omega), if_pos same, if_pos (by omega)]
    · rw [if_neg (by omega), if_neg (by omega), if_neg (by omega), if_pos (by omega),
        value k (by omega), if_pos (by omega)]
      congr 1
      omega
  · rw [if_neg live, if_neg (by omega), if_neg (by omega), if_neg (by omega)]

/-- An insertion within the first `n` places only pushes out what is past them. -/
theorem take_succ_insertIdx {l : List α} {idx n : Nat} (within : idx ≤ n) (a : α) :
    (l.insertIdx idx a).take (n + 1) = (l.take n).insertIdx idx a := by
  induction idx generalizing l n with
  | zero => rfl
  | succ idx ih =>
    obtain ⟨n, rfl⟩ : ∃ k, n = k + 1 := ⟨n - 1, by omega⟩
    cases l with
    | nil => rfl
    | cons b l =>
      rw [List.insertIdx_succ_cons, List.take_succ_cons, ih (by omega), List.take_succ_cons,
        List.insertIdx_succ_cons]

/-- What raw code over an array can get wrong: a subtraction of sizes, the two
ranges of a copy, an index. -/
inductive Access
  | sub (a b : Nat)
  | copy (src dst n : Nat)
  | index (idx : Nat)

/-- No underflow, and nothing outside the `N` slots. -/
def Access.Safe (N : Nat) : Access → Prop
  | .sub a b => b ≤ a
  | .copy src dst n => src + n ≤ N ∧ dst + n ≤ N
  | .index idx => idx < N

theorem isSome_copy {v : Vector α N} {src dst n : Nat} :
    (copy v src dst n).isSome ↔ (Access.copy src dst n).Safe N := by
  unfold copy Access.Safe
  split <;> simpa only [Option.isSome_some, Option.isSome_none, true_iff, Bool.false_eq_true,
    false_iff]

theorem isSome_store {v : Vector α N} {idx : Nat} {a : α} :
    (store v idx a).isSome ↔ (Access.index idx).Safe N := by
  unfold store Access.Safe
  split <;> simpa only [Option.isSome_some, Option.isSome_none, true_iff, Bool.false_eq_true,
    false_iff]

/-- A computation gets through when its first part does and what follows does
after any value of it. -/
theorem isSome_bind {β γ : Type*} {first : Option β} {rest : β → Option γ} {P : Prop}
    (later : ∀ b, first = some b → ((rest b).isSome ↔ P)) :
    (first.bind rest).isSome ↔ first.isSome ∧ P := by
  cases first with
  | none => simp only [Option.bind_none, Option.isSome_none, Bool.false_eq_true, false_and]
  | some b => simpa only [Option.bind_some, Option.isSome_some, true_and] using later b rfl

end Memmove
