import FeedHandler.SideRefinement

namespace FeedHandler

open RankedMap

/-- The levels of one snapshot: live quantities at distinct prices. -/
structure SnapshotLevels where
  deltas : List (Price × Qty)
  live : ∀ delta ∈ deltas, delta.2 ≠ 0
  distinct : (deltas.map Prod.fst).Nodup

/-- The map a side holds, read off its tracked levels. -/
noncomputable def BookSide.tracked (side : BookSide) : Price →₀ Qty :=
  overrides 0 (side.visible.map Level.entry)

variable {descending : Bool}

theorem BookSide.Shows.tracked_eq {side : BookSide} {depth : Depth descending}
    (shown : side.Shows depth) : side.tracked = depth.map := by
  ext price
  by_cases present : price ∈ (side.visible.map Level.entry).map Prod.fst
  · obtain ⟨⟨_, qty⟩, member, rfl⟩ := List.mem_map.mp present
    rw [tracked, overrides_of_mem shown.lists.nodup_keys member]
    exact ((shown.lists.mem_iff _ qty).mp member).2.symm
  · rw [tracked, overrides_of_notMem present]
    have absent : price ∉ depth.map.support := fun inside => by
      obtain ⟨qty, member⟩ := shown.lists.mem_support.mp inside
      exact present (List.mem_map.mpr ⟨_, member, rfl⟩)
    exact (Finsupp.notMem_support_iff.mp absent).symm

/-- A run of live deltas is one cut after all the overrides. -/
theorem Depth.deltas_map_live (depth : Depth descending) {deltas : List (Price × Qty)}
    (live : ∀ delta ∈ deltas, delta.2 ≠ 0) :
    (depth.deltas deltas).1.map =
      keepBest (Better descending) maxLevels (overrides depth.map deltas) := by
  induction deltas generalizing depth with
  | nil => exact (keepBest_eq_self depth.bounded).symm
  | cons delta rest ih =>
    have first := live delta List.mem_cons_self
    have later : ∀ delta ∈ rest, delta.2 ≠ 0 := fun delta member =>
      live delta (List.mem_cons_of_mem _ member)
    rw [Depth.deltas, ih _ later, depth.delta_map_live delta.1 first]
    exact keepBest_overrides later (keepBest_keepBest le_rfl)

/-- The levels of a snapshot may come in any order, more of them than fit and
over prices already tracked: the side ends with the best of its own map
overridden by them all. -/
theorem snapshot_order_is_irrelevant (descending : Bool) (calls : List SideCall)
    (levels : SnapshotLevels) :
    ∃ side results, BookSide.new.calls descending calls = some (side, results) ∧
      ∀ order, order.Perm levels.deltas →
        ∃ after answers, side.deltas descending order = some (after, answers) ∧
          after.visible.map Level.entry =
            listing (Better descending) (keepBest (Better descending) maxLevels
              (overrides side.tracked levels.deltas)) := by
  obtain ⟨side, run, shown⟩ := (@BookSide.Shows.new descending).calls calls
  refine ⟨side, _, run, fun order perm => ?_⟩
  obtain ⟨after, applied, shown'⟩ := shown.deltas order
  refine ⟨after, _, applied, ?_⟩
  have live : ∀ delta ∈ order, delta.2 ≠ 0 := fun delta member =>
    levels.live delta (perm.mem_iff.mp member)
  rw [shown'.lists.eq_listing, Depth.deltas_map_live _ live, shown.tracked_eq,
    overrides_perm levels.distinct perm.symm]

/-- Seventy levels at the prices from 100 on. -/
def seventyLevels : SnapshotLevels where
  deltas := (List.range 70).map fun i => (⟨.ofNat (100 + i)⟩, ⟨.ofNat (i + 1)⟩)
  live := by decide +kernel
  distinct := by decide +kernel

/-- More of them than fit, over two prices that are tracked already, forwards
and backwards. -/
theorem seventy_levels_in_two_orders :
    ∃ side results,
      BookSide.new.calls true [.delta ⟨120⟩ ⟨7⟩, .delta ⟨165⟩ ⟨8⟩, .delta ⟨500⟩ ⟨9⟩] =
        some (side, results) ∧
      ∃ after answers after' answers',
        side.deltas true seventyLevels.deltas = some (after, answers) ∧
        side.deltas true seventyLevels.deltas.reverse = some (after', answers') ∧
        after.visible.map Level.entry = after'.visible.map Level.entry := by
  obtain ⟨side, results, run, orders⟩ := snapshot_order_is_irrelevant true
    [.delta ⟨120⟩ ⟨7⟩, .delta ⟨165⟩ ⟨8⟩, .delta ⟨500⟩ ⟨9⟩] seventyLevels
  obtain ⟨after, answers, forwards, shown⟩ := orders _ (.refl _)
  obtain ⟨after', answers', backwards, shown'⟩ := orders _ (List.reverse_perm _)
  exact ⟨side, results, run, after, answers, after', answers', forwards, backwards,
    shown.trans shown'.symm⟩

end FeedHandler
