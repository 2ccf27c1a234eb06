import FeedHandler.Depth

namespace FeedHandler

open RankedMap

variable {descending : Bool}

def Level.entry (level : Level) : Price × Qty := (level.price, level.qty)

theorem Level.entry_injective : Function.Injective Level.entry := by
  intro a b same
  cases a
  cases b
  cases same
  rfl

/-- The tracked levels are exactly the listing of the abstract depth. -/
structure BookSide.Shows (side : BookSide) (depth : Depth descending) : Prop where
  inBounds : side.InBounds
  lists : Listing (Better descending) depth.map (side.visible.map Level.entry)

/-- The comparator that `search` hands to the binary search. -/
def probe (descending : Bool) (price : Price) (level : Level) : Ordering :=
  if descending then compare price level.price else compare level.price price

theorem probe_lt {price : Price} {level : Level} :
    probe descending price level = .lt ↔ Better descending level.price price := by
  cases descending
  · exact Std.compare_eq_lt (a := level.price.raw)
  · exact Std.compare_eq_lt (a := price.raw)

theorem probe_gt {price : Price} {level : Level} :
    probe descending price level = .gt ↔ Better descending price level.price := by
  cases descending
  · exact Std.compare_eq_gt (a := level.price.raw)
  · exact Std.compare_eq_gt (a := price.raw)

theorem probe_eq {price : Price} {level : Level} :
    probe descending price level = .eq ↔ level.price = price := by
  have raw : probe descending price level = .eq ↔ level.price.raw = price.raw := by
    cases descending
    · exact Std.compare_eq_iff_eq (a := level.price.raw)
    · exact (Std.compare_eq_iff_eq (a := price.raw)).trans eq_comm
  exact raw.trans ⟨Price.ext_raw, congrArg Price.raw⟩

theorem BookSide.search_eq {side : BookSide} (bound : side.InBounds) (price : Price) :
    side.search price descending =
      some (BinarySearch.searchBy side.visible (probe descending price)) := by
  have borrowed : side.slice = some side.visible := if_pos bound
  cases descending <;> simp [search, borrowed] <;> rfl

namespace BookSide.Shows

variable {side : BookSide} {depth : Depth descending} {price : Price} {qty : Qty}

theorem length_entries (shown : side.Shows depth) :
    (side.visible.map Level.entry).length = side.count := by
  rw [List.length_map, length_visible shown.inBounds]

theorem visible_sorted (shown : side.Shows depth) :
    side.visible.Pairwise fun a b => Better descending a.price b.price := by
  have sorted := shown.lists.sorted
  rwa [List.pairwise_map] at sorted

/-- Two sides that show the same depth have the same visible levels, whatever
they keep past `count`. -/
theorem visible_unique {other : BookSide} (shown : side.Shows depth) (shown' : other.Shows depth) :
    side.visible = other.visible :=
  Level.entry_injective.list_map (shown.lists.unique shown'.lists)

theorem card_eq (shown : side.Shows depth) : depth.map.support.card = side.count := by
  rw [← shown.lists.length_eq, shown.length_entries]

/-- Sortedness makes the binary search valid: either it finds the price, or it
finds the one place where the price belongs. -/
theorem search_cases (shown : side.Shows depth) (price : Price) :
    (∃ idx level, side.search price descending = some (.ok idx) ∧
      side.visible[idx]? = some level ∧ level.price = price) ∨
    ∃ idx, side.search price descending = some (.error idx) ∧ idx ≤ side.count ∧
      (∀ a ∈ (side.visible.map Level.entry).take idx, Better descending a.1 price) ∧
      ∀ a ∈ (side.visible.map Level.entry).drop idx, Better descending price a.1 := by
  rw [search_eq shown.inBounds]
  cases answer : BinarySearch.searchBy side.visible (probe descending price) with
  | ok idx =>
    obtain ⟨bound, equal⟩ := BinarySearch.searchBy_ok answer
    exact Or.inl ⟨idx, _, rfl, List.getElem?_eq_getElem bound, probe_eq.mp equal⟩
  | error idx =>
    right
    have sorted : side.visible.Pairwise fun a b =>
        (probe descending price a = .gt → probe descending price b = .gt) ∧
        (probe descending price a = .eq → probe descending price b ≠ .lt) := by
      refine shown.visible_sorted.imp fun {a b} order => ⟨fun greater => ?_, fun equal less => ?_⟩
      · exact probe_gt.mpr (trans_of _ (probe_gt.mp greater) order)
      · have same : a.price = price := probe_eq.mp equal
        exact asymm_of _ (probe_lt.mp less) (same ▸ order)
    obtain ⟨below, above⟩ := BinarySearch.searchBy_error sorted answer
    have bound := BinarySearch.searchBy_error_le answer
    rw [length_visible shown.inBounds] at bound
    refine ⟨idx, rfl, bound, fun a member => ?_, fun a member => ?_⟩
    · rw [← List.map_take] at member
      obtain ⟨level, inside, rfl⟩ := List.mem_map.mp member
      exact probe_lt.mp (below level inside)
    · rw [← List.map_drop] at member
      obtain ⟨level, inside, rfl⟩ := List.mem_map.mp member
      exact probe_gt.mp (above level inside)

theorem mem_support_iff (shown : side.Shows depth) :
    price ∈ depth.map.support ↔ ∃ level ∈ side.visible, level.price = price := by
  rw [shown.lists.mem_support]
  constructor
  · rintro ⟨qty, member⟩
    obtain ⟨level, inside, same⟩ := List.mem_map.mp member
    exact ⟨level, inside, congrArg Prod.fst same⟩
  · rintro ⟨level, inside, rfl⟩
    exact ⟨level.qty, List.mem_map.mpr ⟨level, inside, rfl⟩⟩

theorem tracked_of_found (shown : side.Shows depth) {idx : Nat} {level : Level}
    (here : side.visible[idx]? = some level) : level.price ∈ depth.map.support :=
  shown.mem_support_iff.mpr ⟨level, List.mem_of_getElem? here, rfl⟩

theorem untracked_of_split (shown : side.Shows depth) {idx : Nat}
    (below : ∀ a ∈ (side.visible.map Level.entry).take idx, Better descending a.1 price)
    (above : ∀ a ∈ (side.visible.map Level.entry).drop idx, Better descending price a.1) :
    price ∉ depth.map.support := by
  intro tracked
  obtain ⟨qty, member⟩ := shown.lists.mem_support.mp tracked
  rw [← List.take_append_drop idx (side.visible.map Level.entry), List.mem_append] at member
  rcases member with left | right
  · exact irrefl_of _ price (below _ left)
  · exact irrefl_of _ price (above _ right)

theorem removed (shown : side.Shows depth) {idx : Nat} {level : Level}
    (here : side.visible[idx]? = some level) :
    ∃ side', side.remove idx = some (side', .removed) ∧ side'.Shows (depth.delta level.price 0) := by
  obtain ⟨bound, value⟩ := List.getElem?_eq_some_iff.mp here
  rw [length_visible shown.inBounds] at bound
  obtain ⟨side', run, inside, shape⟩ := remove_eq shown.inBounds bound
  refine ⟨side', run, inside, ?_⟩
  rw [shape, ← List.eraseIdx_map, Depth.delta_map_zero]
  refine shown.lists.eraseIdx (by rwa [shown.length_entries]) ?_
  rw [List.getElem_map, value, Level.entry]

theorem updated (shown : side.Shows depth) {idx : Nat} {level : Level}
    (here : side.visible[idx]? = some level) (live : qty ≠ 0) :
    ∃ side', side.setQty idx qty = some side' ∧ side'.Shows (depth.delta level.price qty) := by
  obtain ⟨bound, value⟩ := List.getElem?_eq_some_iff.mp here
  obtain ⟨side', run, inside, shape⟩ := setQty_eq shown.inBounds here qty
  refine ⟨side', run, inside, ?_⟩
  rw [shape, List.map_set, depth.delta_map_of_fits live (Or.inl (shown.tracked_of_found here))]
  refine shown.lists.set live (by rwa [List.length_map]) ?_
  rw [List.getElem_map, value, Level.entry]

section Insertion

variable {idx : Nat}

theorem listing_insertIdx (shown : side.Shows depth) (live : qty ≠ 0) (bound : idx ≤ side.count)
    (below : ∀ a ∈ (side.visible.map Level.entry).take idx, Better descending a.1 price)
    (above : ∀ a ∈ (side.visible.map Level.entry).drop idx, Better descending price a.1) :
    Listing (Better descending) (depth.map.update price qty)
      ((side.visible.insertIdx idx ⟨price, qty⟩).map Level.entry) := by
  rw [List.map_insertIdx]
  exact shown.lists.insertIdx live (by rwa [shown.length_entries]) below above
    (Finsupp.notMem_support_iff.mp (shown.untracked_of_split below above))

theorem inserted (shown : side.Shows depth) (live : qty ≠ 0) (room : side.count < maxLevels)
    (bound : idx ≤ side.count)
    (below : ∀ a ∈ (side.visible.map Level.entry).take idx, Better descending a.1 price)
    (above : ∀ a ∈ (side.visible.map Level.entry).drop idx, Better descending price a.1) :
    ∃ side', side.insert idx ⟨price, qty⟩ = some (side', .inserted) ∧
      side'.Shows (depth.delta price qty) := by
  obtain ⟨side', run, inside, shape⟩ := insert_room room bound ⟨price, qty⟩
  refine ⟨side', run, inside, ?_⟩
  rw [shape, depth.delta_map_of_fits live (Or.inr (by rwa [shown.card_eq]))]
  exact shown.listing_insertIdx live bound below above

/-- A full side loses its worst level to a better price. -/
theorem evicted (shown : side.Shows depth) (live : qty ≠ 0) (full : side.count = maxLevels)
    (within : idx < maxLevels)
    (below : ∀ a ∈ (side.visible.map Level.entry).take idx, Better descending a.1 price)
    (above : ∀ a ∈ (side.visible.map Level.entry).drop idx, Better descending price a.1) :
    ∃ side', side.insert idx ⟨price, qty⟩ = some (side', .insertedEvicted) ∧
      side'.Shows (depth.delta price qty) := by
  obtain ⟨side', run, inside, shape⟩ := insert_full full within ⟨price, qty⟩
  refine ⟨side', run, inside, ?_⟩
  rw [shape, List.map_take, depth.delta_map_live price live]
  exact (shown.listing_insertIdx live (by omega) below above).take maxLevels

end Insertion

/-- One delta on the array is one delta on the map, with the result the map
dictates. -/
theorem applyDelta (shown : side.Shows depth) (price : Price) (qty : Qty) :
    ∃ side', side.applyDelta price qty descending = some (side', depth.outcome price qty) ∧
      side'.Shows (depth.delta price qty) := by
  rcases shown.search_cases price with ⟨idx, level, found, here, rfl⟩ |
    ⟨idx, missed, bound, below, above⟩
  · have tracked := shown.tracked_of_found here
    by_cases zero : qty = 0
    · subst zero
      obtain ⟨side', run, shown'⟩ := shown.removed here
      refine ⟨side', ?_, shown'⟩
      have result : depth.outcome level.price 0 = .removed := by
        rw [Depth.outcome, if_pos rfl, if_pos tracked]
      simp only [BookSide.applyDelta, found, Option.bind_eq_bind, Option.bind_some, applyAt,
        Qty.isZero_iff, if_true, run, result]
    · obtain ⟨side', run, shown'⟩ := shown.updated here zero
      refine ⟨side', ?_, shown'⟩
      have result : depth.outcome level.price qty = .updated := by
        rw [Depth.outcome, if_neg zero, if_pos tracked]
      simp only [BookSide.applyDelta, found, Option.bind_eq_bind, Option.bind_some, applyAt,
        Qty.isZero_iff, zero, if_false, run, Option.map_some, result]
  · have untracked := shown.untracked_of_split below above
    by_cases zero : qty = 0
    · subst zero
      have same : depth.delta price 0 = depth := by
        apply Depth.ext_map
        rw [Depth.delta_map_zero, Finsupp.erase_of_notMem_support untracked]
      refine ⟨side, ?_, by rwa [same]⟩
      have result : depth.outcome price 0 = .noOp := by
        rw [Depth.outcome, if_pos rfl, if_neg untracked]
      simp only [BookSide.applyDelta, missed, Option.bind_eq_bind, Option.bind_some, applyAt,
        Qty.isZero_iff, if_true, result]
    · have insertion : side.applyDelta price qty descending = side.insert idx ⟨price, qty⟩ := by
        simp only [BookSide.applyDelta, missed, Option.bind_eq_bind, Option.bind_some, applyAt,
          Qty.isZero_iff, zero, if_false]
      rw [insertion, Depth.outcome, if_neg zero, if_neg untracked, shown.card_eq]
      by_cases room : side.count < maxLevels
      · rw [if_pos room]
        exact shown.inserted zero room bound below above
      · have full : side.count = maxLevels := Nat.le_antisymm shown.inBounds (Nat.not_lt.mp room)
        rw [if_neg room]
        by_cases within : idx < maxLevels
        · have inside : idx < (side.visible.map Level.entry).length := by
            rwa [shown.length_entries, full]
          have beats := above _ (List.mem_drop_iff_getElem.mpr ⟨0, by omega, rfl⟩)
          have tracked := shown.lists.mem_support.mpr ⟨_, List.getElem_mem inside⟩
          rw [if_pos (depth.beats_worst tracked beats)]
          exact shown.evicted zero full within below above
        · have beyond : idx = maxLevels := by omega
          subst beyond
          have beaten : ∀ other ∈ depth.map.support, Better descending other price := by
            intro other tracked
            obtain ⟨held, member⟩ := shown.lists.mem_support.mp tracked
            refine below (other, held) ?_
            rwa [List.take_of_length_le (shown.length_entries.trans full).le]
          have nothing : ¬ ∃ worst, depth.IsWorst worst ∧ Better descending price worst :=
            fun ⟨worst, ⟨tracked, _⟩, beats⟩ => asymm_of _ beats (beaten worst tracked)
          rw [if_neg nothing, depth.delta_of_beaten zero (shown.card_eq.trans full) untracked beaten]
          exact ⟨side, insert_beyond full le_rfl _, shown⟩

theorem clear (side : BookSide) : side.clear.Shows (Depth.empty : Depth descending) where
  inBounds := Nat.zero_le _
  lists := by
    rw [visible_clear]
    exact .nil

theorem new : BookSide.new.Shows (Depth.empty : Depth descending) where
  inBounds := Nat.zero_le _
  lists := by
    rw [visible_new]
    exact .nil

theorem call (shown : side.Shows depth) (call : SideCall) :
    ∃ side', side.call descending call = some (side', (depth.call call).2) ∧
      side'.Shows (depth.call call).1 := by
  cases call with
  | clear => exact ⟨side.clear, rfl, .clear side⟩
  | delta price qty =>
    obtain ⟨side', run, shown'⟩ := shown.applyDelta price qty
    refine ⟨side', ?_, shown'⟩
    rw [BookSide.call, run]
    rfl

theorem calls (shown : side.Shows depth) (calls : List SideCall) :
    ∃ side', side.calls descending calls = some (side', (depth.calls calls).2) ∧
      side'.Shows (depth.calls calls).1 := by
  induction calls generalizing side depth with
  | nil => exact ⟨side, rfl, shown⟩
  | cons call rest ih =>
    obtain ⟨middle, first, shownMiddle⟩ := shown.call call
    obtain ⟨side', later, shown'⟩ := ih shownMiddle
    refine ⟨side', ?_, shown'⟩
    simp only [BookSide.calls, first, later, Option.bind_eq_bind, Option.bind_some,
      Option.pure_def, Depth.calls]

theorem deltas (shown : side.Shows depth) (deltas : List (Price × Qty)) :
    ∃ side', side.deltas descending deltas = some (side', (depth.deltas deltas).2) ∧
      side'.Shows (depth.deltas deltas).1 := by
  induction deltas generalizing side depth with
  | nil => exact ⟨side, rfl, shown⟩
  | cons head rest ih =>
    obtain ⟨middle, first, shownMiddle⟩ := shown.applyDelta head.1 head.2
    obtain ⟨side', later, shown'⟩ := ih shownMiddle
    refine ⟨side', ?_, shown'⟩
    simp only [BookSide.deltas, first, later, Option.bind_eq_bind, Option.bind_some,
      Option.pure_def, Depth.deltas]

end BookSide.Shows

/-- Any call sequence on a fresh side, with one direction, returns what the
capped map returns and leaves exactly its best-first listing in the array. -/
theorem side_refines_capped_map (descending : Bool) (calls : List SideCall) :
    ∃ side, BookSide.new.calls descending calls =
        some (side, ((Depth.empty : Depth descending).calls calls).2) ∧
      side.visible.map Level.entry =
        listing (Better descending) ((Depth.empty : Depth descending).calls calls).1.map ∧
      side.visible.length = side.count ∧ side.count ≤ maxLevels ∧
      side.visible.Pairwise (fun a b => Better descending a.price b.price) ∧
      (side.visible.map Level.price).Nodup ∧ (∀ level ∈ side.visible, level.qty ≠ 0) ∧
      ∀ price qty,
        ((Depth.empty : Depth descending).calls calls).1.outcome price qty = .discarded →
          ((Depth.empty : Depth descending).calls calls).1.delta price qty =
            ((Depth.empty : Depth descending).calls calls).1 := by
  obtain ⟨side, run, shown⟩ := (@BookSide.Shows.new descending).calls calls
  refine ⟨side, run, shown.lists.eq_listing, BookSide.length_visible shown.inBounds,
    shown.inBounds, shown.visible_sorted, ?_, fun level member => ?_,
    fun price qty => Depth.delta_of_discarded _⟩
  · have keys := shown.lists.nodup_keys
    rwa [List.map_map] at keys
  · exact ((shown.lists.mem_iff level.price level.qty).mp
      (List.mem_map.mpr ⟨level, member, rfl⟩)).1

end FeedHandler
