import FeedHandler.BookQueries
import FeedHandler.SideHistory

namespace FeedHandler

/-- Two histories of one side that leave the same batch behind. -/
structure Agreed (first second : List NormalizedTick) : Prop where
  deltas : batchDeltas first = batchDeltas second
  snapshotId : previousSnapshotId first = previousSnapshotId second

namespace Agreed

variable {first second : List NormalizedTick} {tick : NormalizedTick}

theorem concat (agreed : Agreed first second) (tick : NormalizedTick) :
    Agreed (first ++ [tick]) (second ++ [tick]) where
  deltas := by rw [batchDeltas_concat, batchDeltas_concat, agreed.deltas, agreed.snapshotId]
  snapshotId := by rw [previousSnapshotId_concat, previousSnapshotId_concat, agreed.snapshotId]

theorem append (agreed : Agreed first second) (later : List NormalizedTick) :
    Agreed (first ++ later) (second ++ later) := by
  induction later using List.reverseRecOn with
  | nil =>
    rw [List.append_nil, List.append_nil]
    exact agreed
  | append_singleton later tick ih =>
    rw [← List.append_assoc, ← List.append_assoc]
    exact ih.concat tick

/-- A tick that starts a batch in both histories makes them agree. -/
theorem of_batchStart (flag : tick.isSnapshot = true)
    (fresh : tick.snapshotId ≠ previousSnapshotId first)
    (fresh' : tick.snapshotId ≠ previousSnapshotId second) :
    Agreed (first ++ [tick]) (second ++ [tick]) where
  deltas := by
    rw [batchDeltas_concat, batchDeltas_concat, flag, bne_iff_ne.mpr fresh, bne_iff_ne.mpr fresh',
      Bool.and_self, if_pos rfl, if_pos rfl]
  snapshotId := by rw [previousSnapshotId_concat, previousSnapshotId_concat, if_pos flag, if_pos flag]

/-- Histories with one snapshot id in common agree once it changes. -/
theorem of_change {later : List NormalizedTick}
    (same : previousSnapshotId first = previousSnapshotId second)
    (changes : ∃ tick ∈ later, tick.isSnapshot = true ∧
      tick.snapshotId ≠ previousSnapshotId first) : Agreed (first ++ later) (second ++ later) := by
  induction later generalizing first second with
  | nil =>
    obtain ⟨_, member, _⟩ := changes
    cases member
  | cons head rest ih =>
    rw [List.append_cons first, List.append_cons second]
    by_cases starts : head.isSnapshot = true ∧ head.snapshotId ≠ previousSnapshotId first
    · exact (of_batchStart starts.1 starts.2 (same ▸ starts.2)).append rest
    · have kept : previousSnapshotId (first ++ [head]) = previousSnapshotId first := by
        rw [previousSnapshotId_concat]
        split
        · rename_i flag
          exact Classical.not_not.mp fun fresh => starts ⟨flag, fresh⟩
        · rfl
      refine ih ?_ ?_
      · rw [previousSnapshotId_concat, previousSnapshotId_concat, same]
      · obtain ⟨tick, member, flag, fresh⟩ := changes
        rcases List.mem_cons.mp member with here | later
        · exact absurd ⟨here ▸ flag, here ▸ fresh⟩ starts
        · exact ⟨tick, later, flag, kept ▸ fresh⟩

end Agreed

/-- The snapshot ticks among these carry at least two ids. -/
def Resyncs (ticks : List NormalizedTick) : Prop :=
  ∃ a ∈ ticks, ∃ b ∈ ticks, a.isSnapshot = true ∧ b.isSnapshot = true ∧ a.snapshotId ≠ b.snapshotId

/-- Whatever came before, one of two different ids starts a batch. -/
theorem Agreed.of_resyncs {later : List NormalizedTick} (resyncs : Resyncs later)
    (first second : List NormalizedTick) : Agreed (first ++ later) (second ++ later) := by
  induction later generalizing first second with
  | nil =>
    obtain ⟨_, member, _⟩ := resyncs
    cases member
  | cons head rest ih =>
    rw [List.append_cons first, List.append_cons second]
    obtain ⟨a, here, b, there, flagA, flagB, apart⟩ := resyncs
    by_cases flag : head.isSnapshot = true
    · refine .of_change ?_ ?_
      · rw [previousSnapshotId_concat, previousSnapshotId_concat, if_pos flag, if_pos flag]
      · rw [previousSnapshotId_concat, if_pos flag]
        -- one of the two ids is not that of the head
        by_cases same : a.snapshotId = head.snapshotId
        · have other : b.snapshotId ≠ head.snapshotId := fun equal => apart (same.trans equal.symm)
          refine ⟨b, (List.mem_cons.mp there).resolve_left ?_, flagB, other⟩
          exact fun equal => other (congrArg _ equal)
        · refine ⟨a, (List.mem_cons.mp here).resolve_left ?_, flagA, same⟩
          exact fun equal => same (congrArg _ equal)
    · refine ih ⟨a, ?_, b, ?_, flagA, flagB, apart⟩ _ _
      · exact (List.mem_cons.mp here).resolve_left fun equal => flag (equal ▸ flagA)
      · exact (List.mem_cons.mp there).resolve_left fun equal => flag (equal ▸ flagB)

/-- Two books that show the same on one side and answer its next tick alike. -/
structure SameSide (symbol : Symbol) (s : Side) (first second : OrderBook) : Prop where
  visible : (first.side s).visible = (second.side s).visible
  snapshotId : first.snapshotId s = second.snapshotId s
  answers : ∀ tick, reaches symbol s tick = true → ∃ first' second' result,
    first.apply tick = some (first', result) ∧ second.apply tick = some (second', result)

namespace History

variable {symbol : Symbol} {s : Side} {ticks ticks' : List NormalizedTick}
  {results results' : List DeltaResult} {first second : OrderBook}

theorem sameSide (history : History symbol ticks results first)
    (history' : History symbol ticks' results' second)
    (agreed : Agreed (ownTicks symbol s ticks) (ownTicks symbol s ticks')) :
    SameSide symbol s first second := by
  have shown := history.shows s
  have shown' := history'.shows s
  rw [← agreed.deltas] at shown'
  have sameId : first.snapshotId s = second.snapshotId s := by
    rw [history.snapshotId, history'.snapshotId, agreed.snapshotId]
  refine ⟨shown.visible_unique shown', sameId, fun tick here => ?_⟩
  obtain ⟨own, rfl⟩ := of_decide_eq_true here
  obtain ⟨first', result, run, applied⟩ :=
    OrderBook.apply_applied (own.trans history.symbol_eq.symm) shown
  obtain ⟨second', result', run', applied'⟩ :=
    OrderBook.apply_applied (own.trans history'.symbol_eq.symm) shown'
  have starts : first.startsBatch tick = second.startsBatch tick := by
    rw [OrderBook.startsBatch, OrderBook.startsBatch, sameId]
  have alike : result = result' := by
    rw [applied.result_eq, applied'.result_eq, OrderBook.facing, OrderBook.facing, starts]
  exact ⟨first', second', result, run, alike ▸ run'⟩

end History

end FeedHandler
