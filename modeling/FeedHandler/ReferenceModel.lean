import FeedHandler.SideRefinement

namespace FeedHandler

/-- A side as the plain list of its raw prices and quantities. -/
def levelsOf (side : BookSide) : List (UInt64 × UInt64) :=
  side.visible.map fun level => (level.price.raw, level.qty.raw)

/-- The rules of a side on a plain vector, by linear search. -/
def applyToModel (model : List (UInt64 × UInt64)) (price qty : UInt64) (descending : Bool) :
    List (UInt64 × UInt64) :=
  let pos := model.findIdx? fun level => level.1 == price
  if qty == 0 then
    match pos with
    | some idx => model.eraseIdx idx
    | none => model
  else
    match pos with
    | some idx => model.modify idx fun level => (level.1, qty)
    | none =>
      let insertAt := (model.findIdx? fun level =>
        if descending then level.1 < price else level.1 > price).getD model.length
      if model.length < maxLevels then model.insertIdx insertAt (price, qty)
      else if insertAt < maxLevels then (model.insertIdx insertAt (price, qty)).take maxLevels
      else model

/-- Every level against the next one. -/
def isSorted (levels : List (UInt64 × UInt64)) (descending : Bool) : Bool :=
  (levels.zip levels.tail).all fun w => if descending then w.1.1 > w.2.1 else w.1.1 < w.2.1

theorem isSorted_of_pairwise {levels : List (UInt64 × UInt64)} {descending : Bool}
    (sorted : levels.Pairwise fun a b => Better descending ⟨a.1⟩ ⟨b.1⟩) :
    isSorted levels descending = true := by
  induction levels with
  | nil => rfl
  | cons head rest ih =>
    obtain ⟨first, later⟩ := List.pairwise_cons.mp sorted
    cases rest with
    | nil => rfl
    | cons next rest =>
      have order := first next List.mem_cons_self
      have tail := ih later
      simp only [isSorted, List.tail_cons, List.zip_cons_cons, List.all_cons, Bool.and_eq_true]
        at tail ⊢
      refine ⟨?_, tail⟩
      cases descending <;> exact decide_eq_true order

/-- The first position past a prefix that fails the test. -/
theorem findIdx?_split {α : Type*} {p : α → Bool} {l : List α} {idx : Nat} (bound : idx ≤ l.length)
    (before : ∀ a ∈ l.take idx, p a = false) (past : ∀ a ∈ l.drop idx, p a = true) :
    (l.findIdx? p).getD l.length = idx := by
  have split : (l.take idx ++ l.drop idx).findIdx? p = _ := List.findIdx?_append
  rw [List.take_append_drop, List.findIdx?_eq_none_iff.mpr before, Option.none_or,
    List.length_take, Nat.min_eq_left bound] at split
  rw [split]
  cases rest : l.drop idx with
  | nil => exact Nat.le_antisymm (List.drop_eq_nil_iff.mp rest) bound
  | cons head tail =>
    rw [List.findIdx?_cons, past head (rest ▸ List.mem_cons_self)]
    exact Nat.zero_add idx

namespace BookSide.Shows

variable {descending : Bool} {side : BookSide} {depth : Depth descending} {price : Price}
  {qty : Qty}

/-- In a sorted side the first match is the only one. -/
theorem findIdx?_found (shown : side.Shows depth) {idx : Nat} {level : Level}
    (here : side.visible[idx]? = some level) :
    (levelsOf side).findIdx? (fun entry => entry.1 == level.price.raw) = some idx := by
  obtain ⟨within, value⟩ := List.getElem?_eq_some_iff.mp here
  rw [levelsOf, List.findIdx?_map, List.findIdx?_eq_some_iff_getElem]
  refine ⟨within, ?_, fun j before same => ?_⟩
  · rw [value]
    exact beq_self_eq_true level.price.raw
  · have order := List.pairwise_iff_getElem.mp shown.visible_sorted j idx (before.trans within)
      within before
    rw [value, show side.visible[j].price = level.price from Price.ext_raw (eq_of_beq same)]
      at order
    exact irrefl_of _ _ order

theorem findIdx?_missed (shown : side.Shows depth) (untracked : price ∉ depth.map.support) :
    (levelsOf side).findIdx? (fun entry => entry.1 == price.raw) = none := by
  rw [List.findIdx?_eq_none_iff]
  intro entry member
  obtain ⟨level, inside, rfl⟩ := List.mem_map.mp member
  refine beq_eq_false_iff_ne.mpr fun same => untracked ?_
  exact shown.mem_support_iff.mpr ⟨level, inside, Price.ext_raw same⟩

/-- The linear search for the insertion point agrees with the binary one. -/
theorem findIdx?_insertAt (shown : side.Shows depth) {idx : Nat} (bound : idx ≤ side.count)
    (below : ∀ a ∈ (side.visible.map Level.entry).take idx, Better descending a.1 price)
    (above : ∀ a ∈ (side.visible.map Level.entry).drop idx, Better descending price a.1) :
    ((levelsOf side).findIdx? fun entry =>
      if descending then entry.1 < price.raw else entry.1 > price.raw).getD (levelsOf side).length =
        idx := by
  refine findIdx?_split ?_ (fun entry member => ?_) fun entry member => ?_
  · rwa [levelsOf, List.length_map, length_visible shown.inBounds]
  · rw [levelsOf, ← List.map_take] at member
    obtain ⟨level, inside, rfl⟩ := List.mem_map.mp member
    have order := below level.entry (List.map_take ▸ List.mem_map_of_mem inside)
    have reverse := asymm_of _ order
    cases descending <;> exact decide_eq_false reverse
  · rw [levelsOf, ← List.map_drop] at member
    obtain ⟨level, inside, rfl⟩ := List.mem_map.mp member
    have order := above level.entry (List.map_drop ▸ List.mem_map_of_mem inside)
    cases descending <;> exact decide_eq_true order

/-- At a level that is there, the array and the vector both remove or update it. -/
theorem applyAt_found (shown : side.Shows depth) {idx : Nat} {level : Level}
    (here : side.visible[idx]? = some level) {after : BookSide × DeltaResult}
    (run : side.applyAt level.price qty (.ok idx) = some after) :
    levelsOf after.1 = applyToModel (levelsOf side) level.price.raw qty.raw descending := by
  have within := (List.getElem?_eq_some_iff.mp here).1
  rw [length_visible shown.inBounds] at within
  simp only [applyAt] at run
  simp only [applyToModel, shown.findIdx?_found here]
  by_cases zero : qty.isZero = true
  · obtain ⟨removed, ran, _, shape⟩ := remove_eq shown.inBounds within
    rw [if_pos zero, ran] at run
    obtain rfl := Option.some.inj run
    rw [if_pos (show (qty.raw == 0) = true from zero), levelsOf, shape, ← List.eraseIdx_map]
    rfl
  · obtain ⟨updated, ran, _, shape⟩ := setQty_eq shown.inBounds here qty
    rw [if_neg zero, ran] at run
    obtain rfl := Option.some.inj run
    have value : (levelsOf side)[idx]? = some (level.price.raw, level.qty.raw) := by
      rw [levelsOf, List.getElem?_map, here]
      rfl
    rw [if_neg (show ¬ (qty.raw == 0) = true from zero), levelsOf, shape, List.map_set,
      List.modify_eq_set_getElem?, value]
    rfl

/-- At a price that is not there, both insert it, evict for it or leave it out. -/
theorem applyAt_missed (shown : side.Shows depth) {idx : Nat} (bound : idx ≤ side.count)
    (below : ∀ a ∈ (side.visible.map Level.entry).take idx, Better descending a.1 price)
    (above : ∀ a ∈ (side.visible.map Level.entry).drop idx, Better descending price a.1)
    {after : BookSide × DeltaResult} (run : side.applyAt price qty (.error idx) = some after) :
    levelsOf after.1 = applyToModel (levelsOf side) price.raw qty.raw descending := by
  have length : (levelsOf side).length = side.count := by
    rw [levelsOf, List.length_map, length_visible shown.inBounds]
  have position := shown.findIdx?_missed (shown.untracked_of_split below above)
  have insertAt := shown.findIdx?_insertAt bound below above
  simp only [applyAt] at run
  simp only [applyToModel, position]
  rw [insertAt, length]
  by_cases zero : qty.isZero = true
  · rw [if_pos zero] at run
    obtain rfl := Option.some.inj run
    rw [if_pos (show (qty.raw == 0) = true from zero)]
  rw [if_neg zero] at run
  rw [if_neg (show ¬ (qty.raw == 0) = true from zero)]
  by_cases room : side.count < maxLevels
  · obtain ⟨inserted, ran, _, shape⟩ := insert_room room bound ⟨price, qty⟩
    obtain rfl := Option.some.inj (ran.symm.trans run)
    rw [if_pos room, levelsOf, shape, List.map_insertIdx]
    rfl
  · have full : side.count = maxLevels := Nat.le_antisymm shown.inBounds (Nat.not_lt.mp room)
    rw [if_neg room]
    by_cases within : idx < maxLevels
    · obtain ⟨evicted, ran, _, shape⟩ := insert_full full within ⟨price, qty⟩
      obtain rfl := Option.some.inj (ran.symm.trans run)
      rw [if_pos within, levelsOf, shape, List.map_take, List.map_insertIdx]
      rfl
    · rw [insert_beyond full (Nat.not_lt.mp within)] at run
      obtain rfl := Option.some.inj run
      rw [if_neg within]

/-- One delta on the array is one delta on the vector. -/
theorem applyDelta_model (shown : side.Shows depth) (price : Price) (qty : Qty) :
    ∃ side', side.applyDelta price qty descending = some (side', depth.outcome price qty) ∧
      side'.Shows (depth.delta price qty) ∧
      levelsOf side' = applyToModel (levelsOf side) price.raw qty.raw descending := by
  obtain ⟨side', run, shown'⟩ := shown.applyDelta price qty
  refine ⟨side', run, shown', ?_⟩
  rcases shown.search_cases price with ⟨idx, level, found, here, rfl⟩ |
    ⟨idx, missed, bound, below, above⟩
  · rw [BookSide.applyDelta, found] at run
    exact shown.applyAt_found here run
  · rw [BookSide.applyDelta, missed] at run
    exact shown.applyAt_missed bound below above run

end BookSide.Shows

/-- The raw operations as deltas. -/
def rawDelta (op : UInt64 × UInt64) : Price × Qty := (⟨op.1⟩, ⟨op.2⟩)

theorem BookSide.Shows.deltas_model {descending : Bool} {side : BookSide}
    {depth : Depth descending} (shown : side.Shows depth) (ops : List (UInt64 × UInt64)) :
    ∃ side' depth' results, side.deltas descending (ops.map rawDelta) = some (side', results) ∧
      side'.Shows (depth' : Depth descending) ∧
      levelsOf side' =
        ops.foldl (fun model op => applyToModel model op.1 op.2 descending) (levelsOf side) := by
  induction ops generalizing side depth with
  | nil => exact ⟨side, depth, [], rfl, shown, rfl⟩
  | cons op rest ih =>
    obtain ⟨middle, first, shownMiddle, model⟩ := shown.applyDelta_model ⟨op.1⟩ ⟨op.2⟩
    obtain ⟨side', depth', results, later, shown', same⟩ := ih shownMiddle
    refine ⟨side', depth', depth.outcome ⟨op.1⟩ ⟨op.2⟩ :: results, ?_, shown', same.trans ?_⟩
    · simp only [List.map_cons, rawDelta, BookSide.deltas, first, later, Option.bind_eq_bind,
        Option.bind_some, Option.pure_def]
    · rw [model]
      rfl

/-- Under any operations a fresh side is the reference vector, sorted, within the
cap and without a price twice. -/
theorem side_matches_reference_model (descending : Bool) (ops : List (UInt64 × UInt64)) :
    ∃ side results, BookSide.new.deltas descending (ops.map rawDelta) = some (side, results) ∧
      levelsOf side =
        ops.foldl (fun model op => applyToModel model op.1 op.2 descending) [] ∧
      side.count ≤ maxLevels ∧ isSorted (levelsOf side) descending = true ∧
      ((levelsOf side).map Prod.fst).Nodup := by
  have fresh : BookSide.new.Shows (Depth.empty : Depth descending) := .new
  obtain ⟨side, depth, results, run, shown, model⟩ := fresh.deltas_model ops
  have sorted : (levelsOf side).Pairwise fun a b => Better descending ⟨a.1⟩ ⟨b.1⟩ := by
    rw [levelsOf, List.pairwise_map]
    exact shown.visible_sorted
  refine ⟨side, results, run, ?_, shown.inBounds, isSorted_of_pairwise sorted, ?_⟩
  · rw [model, levelsOf, BookSide.visible_new]
    rfl
  · rw [List.Nodup, List.pairwise_map]
    refine sorted.imp fun {a b} order same => ?_
    rw [same] at order
    exact irrefl_of _ _ order

end FeedHandler
