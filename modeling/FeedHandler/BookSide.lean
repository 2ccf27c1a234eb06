import FeedHandler.Types
import FeedHandler.General.BinarySearch
import FeedHandler.General.Memmove
import Mathlib.Order.RelClasses

namespace FeedHandler

def maxLevels : Nat := 64

/-- One side of the book. Slots at or past `count` keep stale levels. The
cache-line padding of the source carries no data. -/
structure BookSide where
  count : Nat
  levels : Vector Level maxLevels
  deriving DecidableEq, Repr

/-- A `usize` subtraction, where an underflow is a fault. -/
def usizeSub (a b : Nat) : Option Nat := if b ≤ a then some (a - b) else none

theorem usizeSub_eq {a b : Nat} (bound : b ≤ a) : usizeSub a b = some (a - b) :=
  if_pos bound

namespace BookSide

def new : BookSide := ⟨0, Vector.replicate maxLevels Level.empty⟩

def clear (side : BookSide) : BookSide := { side with count := 0 }

def best (side : BookSide) : Option Level :=
  if 0 < side.count then side.levels[0]? else none

/-- The tracked levels `levels[..count]`. -/
def visible (side : BookSide) : List Level := side.levels.toList.take side.count

/-- Borrowing `&levels[..count]` panics when `count` is past the array. -/
def slice (side : BookSide) : Option (List Level) :=
  if side.count ≤ maxLevels then some side.visible else none

/-- Binary search over the tracked levels. For bids the comparator is reversed. -/
def search (side : BookSide) (price : Price) (descending : Bool) : Option (Except Nat Nat) := do
  let slice ← side.slice
  if descending then
    return BinarySearch.searchBy slice (fun l => compare price l.price)
  else
    return BinarySearch.searchBy slice (fun l => compare l.price price)

def remove (side : BookSide) (idx : Nat) : Option (BookSide × DeltaResult) := do
  let tail ← usizeSub side.count 1
  let n ← usizeSub tail idx
  let levels ← Memmove.copy side.levels (idx + 1) idx n
  return (⟨tail, levels⟩, .removed)

def insert (side : BookSide) (idx : Nat) (level : Level) : Option (BookSide × DeltaResult) :=
  if side.count < maxLevels then do
    let n ← usizeSub side.count idx
    let moved ← Memmove.copy side.levels idx (idx + 1) n
    let levels ← Memmove.store moved idx level
    return (⟨side.count + 1, levels⟩, .inserted)
  else if idx < maxLevels then do
    -- The book is full but this price beats something tracked: the worst level falls off.
    let rest ← usizeSub maxLevels idx
    let n ← usizeSub rest 1
    let moved ← Memmove.copy side.levels idx (idx + 1) n
    let levels ← Memmove.store moved idx level
    return (⟨side.count, levels⟩, .insertedEvicted)
  else
    some (side, .discarded)

/-- `self.levels[idx].qty = qty`, bounds-checked. -/
def setQty (side : BookSide) (idx : Nat) (qty : Qty) : Option BookSide := do
  let level ← side.levels[idx]?
  let levels ← Memmove.store side.levels idx { level with qty }
  return { side with levels }

/-- The body of `apply_delta` once the search has answered `pos`. -/
def applyAt (side : BookSide) (price : Price) (qty : Qty) (pos : Except Nat Nat) :
    Option (BookSide × DeltaResult) :=
  if qty.isZero then
    match pos with
    | .ok idx => side.remove idx
    | .error _ => some (side, .noOp)
  else
    match pos with
    | .ok idx => (side.setQty idx qty).map fun side => (side, .updated)
    | .error idx => side.insert idx ⟨price, qty⟩

def applyDelta (side : BookSide) (price : Price) (qty : Qty) (descending : Bool) :
    Option (BookSide × DeltaResult) := do
  let pos ← side.search price descending
  side.applyAt price qty pos

/-- The only fact the raw copies need: `count` never leaves the array. -/
def InBounds (side : BookSide) : Prop := side.count ≤ maxLevels

theorem length_visible {side : BookSide} (bound : side.InBounds) :
    side.visible.length = side.count := by
  rw [visible, List.length_take, Vector.length_toList]
  exact Nat.min_eq_left bound

theorem visible_clear (side : BookSide) : side.clear.visible = [] := by
  rw [visible, clear, List.take_zero]

theorem visible_new : new.visible = [] := by
  rw [visible, new, List.take_zero]

theorem best_eq_head {side : BookSide} : side.best = side.visible.head? := by
  rw [best, visible]
  split
  · rename_i positive
    rw [List.head?_take, if_neg positive.ne', List.head?_eq_getElem?, Vector.getElem?_toList]
  · rename_i empty
    rw [Nat.eq_zero_of_not_pos empty, List.take_zero, List.head?_nil]

theorem remove_eq {side : BookSide} {idx : Nat} (bound : side.InBounds) (within : idx < side.count) :
    ∃ side', side.remove idx = some (side', .removed) ∧ side'.InBounds ∧
      side'.visible = side.visible.eraseIdx idx := by
  obtain ⟨levels, run, shape⟩ := Memmove.copy_down (v := side.levels) within bound
  refine ⟨⟨side.count - 1, levels⟩, ?_, (Nat.sub_le _ _).trans bound, shape⟩
  simp only [remove, usizeSub_eq (show 1 ≤ side.count by omega),
    usizeSub_eq (show idx ≤ side.count - 1 by omega), run, Option.pure_def, Option.bind_eq_bind,
    Option.bind_some]

theorem insert_room {side : BookSide} {idx : Nat} (room : side.count < maxLevels)
    (within : idx ≤ side.count) (level : Level) :
    ∃ side', side.insert idx level = some (side', .inserted) ∧ side'.InBounds ∧
      side'.visible = side.visible.insertIdx idx level := by
  obtain ⟨moved, run, shape⟩ := Memmove.copy_up (v := side.levels) within room
  have inside : idx < maxLevels := by omega
  refine ⟨⟨side.count + 1, moved.set idx level inside⟩, ?_, room, shape level inside⟩
  simp only [insert, if_pos room, usizeSub_eq within, run, Memmove.store_eq inside,
    Option.pure_def, Option.bind_eq_bind, Option.bind_some]

theorem insert_full {side : BookSide} {idx : Nat} (full : side.count = maxLevels)
    (within : idx < maxLevels) (level : Level) :
    ∃ side', side.insert idx level = some (side', .insertedEvicted) ∧ side'.InBounds ∧
      side'.visible = (side.visible.insertIdx idx level).take maxLevels := by
  obtain ⟨moved, run, shape⟩ := Memmove.copy_up (v := side.levels) (m := maxLevels - 1)
    (show idx ≤ maxLevels - 1 by omega) (by omega)
  have last : maxLevels - idx - 1 = maxLevels - 1 - idx := by omega
  refine ⟨⟨side.count, moved.set idx level within⟩, ?_, full.le, ?_⟩
  · simp only [insert, if_neg (show ¬ side.count < maxLevels by omega), if_pos within,
      usizeSub_eq within.le, usizeSub_eq (show 1 ≤ maxLevels - idx by omega), last, run,
      Memmove.store_eq within, Option.pure_def, Option.bind_eq_bind, Option.bind_some]
  · have shifted := shape level within
    rw [show maxLevels - 1 + 1 = side.count by omega] at shifted
    have whole : side.levels.toList.take maxLevels = side.levels.toList :=
      List.take_of_length_le Vector.length_toList.le
    rw [visible, visible, shifted, full, whole]
    exact (Memmove.take_succ_insertIdx (by omega) level).symm

theorem insert_beyond {side : BookSide} {idx : Nat} (full : side.count = maxLevels)
    (beyond : maxLevels ≤ idx) (level : Level) :
    side.insert idx level = some (side, .discarded) := by
  rw [insert, if_neg (by omega), if_neg (by omega)]

theorem setQty_eq {side : BookSide} {idx : Nat} {level : Level} (bound : side.InBounds)
    (here : side.visible[idx]? = some level) (qty : Qty) :
    ∃ side', side.setQty idx qty = some side' ∧ side'.InBounds ∧
      side'.visible = side.visible.set idx { level with qty } := by
  obtain ⟨within, value⟩ := List.getElem?_eq_some_iff.mp here
  rw [length_visible bound] at within
  have inside : idx < maxLevels := within.trans_le bound
  have atLevel : side.levels[idx]? = some level := by
    rw [visible, List.getElem?_take, if_pos within, Vector.getElem?_toList] at here
    exact here
  refine ⟨{ side with levels := side.levels.set idx { level with qty } inside }, ?_, bound, ?_⟩
  · simp only [setQty, atLevel, Memmove.store_eq inside, Option.pure_def, Option.bind_eq_bind,
      Option.bind_some]
  · rw [visible, visible, Vector.toList_set, List.take_set]

end BookSide

end FeedHandler
