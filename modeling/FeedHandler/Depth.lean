import FeedHandler.BookSide
import FeedHandler.General.RankedMap

namespace FeedHandler

open RankedMap

/-- `p` ranks before `q`: bids run down, asks run up. -/
def Better (descending : Bool) (p q : Price) : Prop :=
  if descending then q.raw < p.raw else p.raw < q.raw

instance (descending : Bool) : DecidableRel (Better descending) := fun p q =>
  inferInstanceAs (Decidable (if descending then q.raw < p.raw else p.raw < q.raw))

theorem Price.ext_raw {p q : Price} (same : p.raw = q.raw) : p = q := by
  cases p
  cases q
  exact congrArg Price.mk same

instance (descending : Bool) : IsStrictTotalOrder Price (Better descending) where
  trichotomous p q left right := by
    apply Price.ext_raw
    cases descending
    · exact UInt64.le_antisymm (UInt64.not_lt.mp right) (UInt64.not_lt.mp left)
    · exact UInt64.le_antisymm (UInt64.not_lt.mp left) (UInt64.not_lt.mp right)
  irrefl p := by
    cases descending <;> exact UInt64.lt_irrefl p.raw
  trans p q r := by
    cases descending
    · exact UInt64.lt_trans
    · exact fun first second => UInt64.lt_trans second first

/-- What one side is for: finitely many live prices, each with a nonzero
quantity, and never more than `maxLevels` of them. -/
structure Depth (descending : Bool) where
  map : Price →₀ Qty
  bounded : map.support.card ≤ maxLevels

namespace Depth

variable {descending : Bool}

def empty : Depth descending := ⟨0, Nat.zero_le _⟩

/-- A zero quantity erases the price. Any other one is set, and then only the
best `maxLevels` prices stay. -/
noncomputable def delta (depth : Depth descending) (price : Price) (qty : Qty) :
    Depth descending :=
  if qty = 0 then
    ⟨depth.map.erase price, by
      rw [Finsupp.support_erase]
      exact Finset.card_erase_le.trans depth.bounded⟩
  else
    ⟨keepBest (Better descending) maxLevels (depth.map.update price qty), by
      rw [card_support_keepBest]
      exact Nat.min_le_left _ _⟩

/-- A tracked price that beats no other. -/
def IsWorst (depth : Depth descending) (price : Price) : Prop :=
  price ∈ depth.map.support ∧ ∀ other ∈ depth.map.support, ¬ Better descending price other

/-- The answer the map dictates for one delta. -/
noncomputable def outcome (depth : Depth descending) (price : Price) (qty : Qty) : DeltaResult :=
  open Classical in
  if qty = 0 then
    if price ∈ depth.map.support then .removed else .noOp
  else if price ∈ depth.map.support then .updated
  else if depth.map.support.card < maxLevels then .inserted
  else if ∃ worst, depth.IsWorst worst ∧ Better descending price worst then .insertedEvicted
  else .discarded

theorem ext_map {depth other : Depth descending} (same : depth.map = other.map) :
    depth = other := by
  cases depth
  cases other
  cases same
  rfl

theorem delta_map_zero (depth : Depth descending) (price : Price) :
    (depth.delta price 0).map = depth.map.erase price := by
  rw [delta, if_pos rfl]

theorem delta_map_live (depth : Depth descending) (price : Price) {qty : Qty} (live : qty ≠ 0) :
    (depth.delta price qty).map =
      keepBest (Better descending) maxLevels (depth.map.update price qty) := by
  rw [delta, if_neg live]

/-- With the price tracked or a slot free, nothing is cut off. -/
theorem delta_map_of_fits (depth : Depth descending) {price : Price} {qty : Qty} (live : qty ≠ 0)
    (fits : price ∈ depth.map.support ∨ depth.map.support.card < maxLevels) :
    (depth.delta price qty).map = depth.map.update price qty := by
  rw [delta_map_live depth price live]
  apply keepBest_eq_self
  rw [Finsupp.support_update, if_neg live]
  rcases fits with tracked | room
  · rw [Finset.insert_eq_of_mem tracked]
    exact depth.bounded
  · exact (Finset.card_insert_le _ _).trans room

/-- Beating any tracked price is beating the worst one. -/
theorem beats_worst (depth : Depth descending) {price other : Price}
    (tracked : other ∈ depth.map.support) (beats : Better descending price other) :
    ∃ worst, depth.IsWorst worst ∧ Better descending price worst := by
  obtain ⟨worst, inside, last⟩ : ∃ worst ∈ depth.map.support,
      ∀ rival ∈ depth.map.support, rival = worst ∨ Better descending rival worst :=
    exists_worst tracked
  refine ⟨worst, ⟨inside, fun rival present beaten => ?_⟩, ?_⟩
  · rcases last rival present with same | order
    · rw [same] at beaten
      exact irrefl_of (Better descending) worst beaten
    · exact asymm_of (Better descending) order beaten
  · rcases last other tracked with same | order
    · rwa [← same]
    · exact trans_of (Better descending) beats order

theorem delta_of_beaten (depth : Depth descending) {price : Price} {qty : Qty} (live : qty ≠ 0)
    (full : depth.map.support.card = maxLevels) (untracked : price ∉ depth.map.support)
    (beaten : ∀ other ∈ depth.map.support, Better descending other price) :
    depth.delta price qty = depth := by
  apply ext_map
  rw [delta_map_live depth price live]
  exact keepBest_update_of_beaten live full (Finsupp.notMem_support_iff.mp untracked) beaten

/-- A discarded delta leaves the map as it was. -/
theorem delta_of_discarded (depth : Depth descending) {price : Price} {qty : Qty}
    (result : depth.outcome price qty = .discarded) : depth.delta price qty = depth := by
  unfold outcome at result
  split at result
  · split at result <;> cases result
  · rename_i live
    split at result
    · cases result
    · rename_i untracked
      split at result
      · cases result
      · rename_i full
        split at result
        · cases result
        · rename_i nothing
          refine depth.delta_of_beaten live (Nat.le_antisymm depth.bounded (Nat.not_lt.mp full))
            untracked fun other tracked => ?_
          rcases trichotomous_of (Better descending) other price with beats | same | beaten
          · exact beats
          · exact absurd (same ▸ tracked) untracked
          · exact absurd (depth.beats_worst tracked beaten) nothing

end Depth

/-- One call on a side. -/
inductive SideCall
  | clear
  | delta (price : Price) (qty : Qty)

/-- What the call returns: `clear` returns nothing. -/
noncomputable def Depth.call {descending : Bool} (depth : Depth descending) :
    SideCall → Depth descending × Option DeltaResult
  | .clear => (.empty, none)
  | .delta price qty => (depth.delta price qty, some (depth.outcome price qty))

noncomputable def Depth.calls {descending : Bool} (depth : Depth descending) :
    List SideCall → Depth descending × List (Option DeltaResult)
  | [] => (depth, [])
  | call :: rest =>
    let (depth, result) := depth.call call
    let (depth, results) := depth.calls rest
    (depth, result :: results)

def BookSide.call (side : BookSide) (descending : Bool) :
    SideCall → Option (BookSide × Option DeltaResult)
  | .clear => some (side.clear, none)
  | .delta price qty => (side.applyDelta price qty descending).map fun (side, result) =>
    (side, some result)

def BookSide.calls (side : BookSide) (descending : Bool) :
    List SideCall → Option (BookSide × List (Option DeltaResult))
  | [] => some (side, [])
  | call :: rest => do
    let (side, result) ← side.call descending call
    let (side, results) ← side.calls descending rest
    return (side, result :: results)

/-- A run of plain deltas, each with its own result. -/
noncomputable def Depth.deltas {descending : Bool} (depth : Depth descending) :
    List (Price × Qty) → Depth descending × List DeltaResult
  | [] => (depth, [])
  | (price, qty) :: rest =>
    let (final, results) := (depth.delta price qty).deltas rest
    (final, depth.outcome price qty :: results)

def BookSide.deltas (side : BookSide) (descending : Bool) :
    List (Price × Qty) → Option (BookSide × List DeltaResult)
  | [] => some (side, [])
  | (price, qty) :: rest => do
    let (side, result) ← side.applyDelta price qty descending
    let (side, results) ← side.deltas descending rest
    return (side, result :: results)

theorem Depth.deltas_append {descending : Bool} (depth : Depth descending)
    (first second : List (Price × Qty)) :
    depth.deltas (first ++ second) =
      (((depth.deltas first).1.deltas second).1,
        (depth.deltas first).2 ++ ((depth.deltas first).1.deltas second).2) := by
  induction first generalizing depth with
  | nil => rfl
  | cons head first ih => simp only [List.cons_append, deltas, ih]

theorem Depth.deltas_concat {descending : Bool} (depth : Depth descending)
    (first : List (Price × Qty)) (last : Price × Qty) :
    depth.deltas (first ++ [last]) =
      ((depth.deltas first).1.delta last.1 last.2,
        (depth.deltas first).2 ++ [(depth.deltas first).1.outcome last.1 last.2]) :=
  depth.deltas_append first [last]

end FeedHandler
