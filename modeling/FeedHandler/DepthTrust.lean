import FeedHandler.SideRefinement

namespace FeedHandler

open RankedMap

/-- One delta on a book without a cap: nothing is ever evicted. -/
noncomputable def fullDelta (book : Price →₀ Qty) (price : Price) (qty : Qty) : Price →₀ Qty :=
  if qty = 0 then book.erase price else book.update price qty

/-- The unbounded book of a whole feed. -/
noncomputable def fullDepth (deltas : List (Price × Qty)) : Price →₀ Qty :=
  deltas.foldl (fun book delta => fullDelta book delta.1 delta.2) 0

/-- The results that lose a level the feed still holds. -/
def DeltaResult.loses (result : DeltaResult) : Bool :=
  result = .insertedEvicted ∨ result = .discarded

/-- How many `Removed` came after the first loss. -/
def removedAfterLoss (results : List DeltaResult) : Nat :=
  (results.dropWhile fun result => !result.loses).count .removed

theorem removedAfterLoss_concat (results : List DeltaResult) (result : DeltaResult) :
    removedAfterLoss (results ++ [result]) =
      if ∃ earlier ∈ results, earlier.loses then
        removedAfterLoss results + (if result = .removed then 1 else 0)
      else 0 := by
  unfold removedAfterLoss
  induction results with
  | nil => cases result <;> rfl
  | cons head rest ih =>
    by_cases lost : head.loses = true
    · have present : ∃ earlier ∈ head :: rest, earlier.loses := ⟨head, List.mem_cons_self, lost⟩
      rw [if_pos present]
      simp only [List.cons_append, List.dropWhile_cons, lost, Bool.not_true, Bool.false_eq_true,
        if_false]
      rw [← List.cons_append, List.count_append, List.count_singleton]
      simp only [beq_iff_eq]
    · simp only [List.cons_append, List.dropWhile_cons, lost, Bool.not_false, if_true, ih,
        List.mem_cons, exists_eq_or_imp, Bool.false_eq_true, false_or]

/-- What a side still says about the full book, given the results so far. The
last field is the prefix that no lost level can reach. -/
structure Trusts {descending : Bool} (depth : Depth descending) (book : Price →₀ Qty)
    (results : List DeltaResult) : Prop where
  agrees : ∀ price, depth.map price ≠ 0 → book price = depth.map price
  complete : (∀ result ∈ results, result.loses = false) → depth.map = book
  leading : keepBest (Better descending) (maxLevels - removedAfterLoss results) depth.map =
    keepBest (Better descending) (maxLevels - removedAfterLoss results) book

variable {descending : Bool}

theorem fullDepth_concat (deltas : List (Price × Qty)) (price : Price) (qty : Qty) :
    fullDepth (deltas ++ [(price, qty)]) = fullDelta (fullDepth deltas) price qty := by
  rw [fullDepth, List.foldl_append]
  rfl

theorem keepBest_ne_zero {n : Nat} {m : Price →₀ Qty} {price : Price}
    (kept : keepBest (Better descending) n m price ≠ 0) :
    keepBest (Better descending) n m price = m price := by
  rw [keepBest_apply] at kept ⊢
  split at kept
  · rw [if_pos ‹_›]
  · exact absurd rfl kept

namespace Depth

variable (depth : Depth descending) {price : Price} {qty : Qty}

theorem outcome_zero_of_tracked (tracked : price ∈ depth.map.support) :
    depth.outcome price 0 = .removed := by
  rw [outcome, if_pos rfl, if_pos tracked]

theorem outcome_zero_of_untracked (untracked : price ∉ depth.map.support) :
    depth.outcome price 0 = .noOp := by
  rw [outcome, if_pos rfl, if_neg untracked]

theorem outcome_ne_removed (live : qty ≠ 0) : depth.outcome price qty ≠ .removed := by
  rw [outcome, if_neg live]
  repeat' split
  all_goals exact DeltaResult.noConfusion

/-- Without a loss a live delta had a slot, and the map took it in full. -/
theorem delta_map_of_kept (live : qty ≠ 0) (kept : (depth.outcome price qty).loses = false) :
    (depth.delta price qty).map = depth.map.update price qty := by
  refine depth.delta_map_of_fits live ?_
  by_contra full
  obtain ⟨untracked, room⟩ := not_or.mp full
  rw [outcome, if_neg live, if_neg untracked, if_neg room] at kept
  split at kept <;> cases kept

end Depth

namespace Trusts

variable {depth : Depth descending} {book : Price →₀ Qty} {results : List DeltaResult}
  {price : Price} {qty : Qty}

theorem delta_agrees (trust : Trusts depth book results) (price : Price) (qty : Qty) :
    ∀ other, (depth.delta price qty).map other ≠ 0 →
      fullDelta book price qty other = (depth.delta price qty).map other := by
  intro other present
  by_cases zero : qty = 0
  · subst zero
    rw [Depth.delta_map_zero, Finsupp.erase_apply] at present ⊢
    rw [fullDelta, if_pos rfl, Finsupp.erase_apply]
    split at present
    · exact absurd rfl present
    · rename_i different
      rw [if_neg different, if_neg different]
      exact trust.agrees other present
  · rw [depth.delta_map_live price zero] at present ⊢
    rw [keepBest_ne_zero present, fullDelta, if_neg zero, Finsupp.update_apply, Finsupp.update_apply]
    rw [keepBest_ne_zero present, Finsupp.update_apply] at present
    split
    · rfl
    · rename_i different
      rw [if_neg different] at present
      exact trust.agrees other present

theorem delta_complete (trust : Trusts depth book results)
    (kept : ∀ result ∈ results ++ [depth.outcome price qty], result.loses = false) :
    (depth.delta price qty).map = fullDelta book price qty := by
  have same := trust.complete fun result member => kept result (List.mem_append_left _ member)
  have last := kept _ (List.mem_append_right _ (List.mem_singleton.mpr rfl))
  rw [fullDelta, ← same]
  split
  · rename_i zero
    rw [zero, Depth.delta_map_zero]
  · exact depth.delta_map_of_kept ‹_› last

/-- A live delta is an override of both books, and cutting to the best levels
commutes with it. -/
theorem leading_live {d : Nat} (live : qty ≠ 0) (shallow : d ≤ maxLevels)
    (leading : keepBest (Better descending) d depth.map = keepBest (Better descending) d book) :
    keepBest (Better descending) d (depth.delta price qty).map =
      keepBest (Better descending) d (fullDelta book price qty) := by
  rw [depth.delta_map_live price live, fullDelta, if_neg live, keepBest_keepBest shallow,
    ← keepBest_update_keepBest live le_rfl, leading, keepBest_update_keepBest live le_rfl]

/-- A removal costs one level of the prefix. -/
theorem leading_removed {d : Nat} (price : Price)
    (leading : keepBest (Better descending) d depth.map = keepBest (Better descending) d book) :
    keepBest (Better descending) (d - 1) (depth.delta price 0).map =
      keepBest (Better descending) (d - 1) (fullDelta book price 0) := by
  rw [Depth.delta_map_zero, fullDelta, if_pos rfl, ← keepBest_pred_erase_keepBest, leading,
    keepBest_pred_erase_keepBest]

/-- A cancel of an untracked price cannot reach the prefix: the price is lost
or was never there. -/
theorem leading_noOp {d : Nat} (untracked : price ∉ depth.map.support)
    (leading : keepBest (Better descending) d depth.map = keepBest (Better descending) d book) :
    keepBest (Better descending) d (depth.delta price 0).map =
      keepBest (Better descending) d (fullDelta book price 0) := by
  have absent : keepBest (Better descending) d book price = 0 := by
    by_contra present
    rw [← leading] at present
    exact untracked (Finsupp.mem_support_iff.mpr (keepBest_ne_zero present ▸ present))
  rw [Depth.delta_map_zero, Finsupp.erase_of_notMem_support untracked, fullDelta, if_pos rfl,
    keepBest_erase_of_absent absent, leading]

theorem delta_leading (trust : Trusts depth book results) (price : Price) (qty : Qty) :
    keepBest (Better descending)
        (maxLevels - removedAfterLoss (results ++ [depth.outcome price qty]))
        (depth.delta price qty).map =
      keepBest (Better descending)
        (maxLevels - removedAfterLoss (results ++ [depth.outcome price qty]))
        (fullDelta book price qty) := by
  rw [removedAfterLoss_concat]
  split
  · by_cases zero : qty = 0
    · subst zero
      by_cases tracked : price ∈ depth.map.support
      · rw [depth.outcome_zero_of_tracked tracked, if_pos rfl, ← Nat.sub_sub]
        exact leading_removed price trust.leading
      · rw [depth.outcome_zero_of_untracked tracked, if_neg DeltaResult.noConfusion]
        exact leading_noOp tracked trust.leading
    · rw [if_neg (depth.outcome_ne_removed zero)]
      exact leading_live zero (Nat.sub_le _ _) trust.leading
  · rename_i clean
    have kept : ∀ result ∈ results, result.loses = false := fun result member =>
      Bool.eq_false_iff.mpr fun lost => clean ⟨result, member, lost⟩
    have same := trust.complete kept
    by_cases zero : qty = 0
    · rw [fullDelta, if_pos zero, zero, Depth.delta_map_zero, same]
    · exact leading_live zero le_rfl (by rw [same])

theorem delta (trust : Trusts depth book results) (price : Price) (qty : Qty) :
    Trusts (depth.delta price qty) (fullDelta book price qty)
      (results ++ [depth.outcome price qty]) :=
  ⟨trust.delta_agrees price qty, trust.delta_complete, trust.delta_leading price qty⟩

theorem deltas (deltas : List (Price × Qty)) :
    Trusts ((Depth.empty : Depth descending).deltas deltas).1 (fullDepth deltas)
      ((Depth.empty : Depth descending).deltas deltas).2 := by
  induction deltas using List.reverseRecOn with
  | nil => exact ⟨fun _ present => absurd rfl present, fun _ => rfl, rfl⟩
  | append_singleton deltas last ih =>
    rw [fullDepth_concat, Depth.deltas_append]
    exact ih.delta last.1 last.2

theorem listing_take (trust : Trusts depth book results) :
    (listing (Better descending) depth.map).take (maxLevels - removedAfterLoss results) =
      (listing (Better descending) book).take (maxLevels - removedAfterLoss results) := by
  have capped : Listing (Better descending) _ _ :=
    (listing_spec depth.map).take (maxLevels - removedAfterLoss results)
  rw [trust.leading] at capped
  exact capped.unique ((listing_spec book).take _)

end Trusts

/-- How far a capped side can be trusted against the unbounded book of the same
deltas. `clear` leaves any contents past `count`, and a fresh side is its own
`clear`. -/
theorem capped_side_trust (descending : Bool) (start : BookSide) (deltas : List (Price × Qty)) :
    ∃ side results, start.clear.deltas descending deltas = some (side, results) ∧
      (∀ level ∈ side.visible, level.price ∈ (fullDepth deltas).support ∧
        fullDepth deltas level.price = level.qty) ∧
      ((∀ result ∈ results, result ≠ .insertedEvicted ∧ result ≠ .discarded) →
        side.visible.map Level.entry = listing (Better descending) (fullDepth deltas)) ∧
      (removedAfterLoss results ≤ maxLevels →
        (side.visible.map Level.entry).take
            (min (maxLevels - removedAfterLoss results) (fullDepth deltas).support.card) =
          (listing (Better descending) (fullDepth deltas)).take
            (min (maxLevels - removedAfterLoss results) (fullDepth deltas).support.card)) ∧
      (removedAfterLoss results < maxLevels →
        side.best.map Level.entry = (listing (Better descending) (fullDepth deltas)).head?) := by
  have empty : start.clear.Shows (Depth.empty : Depth descending) := .clear start
  obtain ⟨side, run, shown⟩ := empty.deltas deltas
  have trust : Trusts ((Depth.empty : Depth descending).deltas deltas).1 (fullDepth deltas) _ :=
    .deltas deltas
  have shape := shown.lists.eq_listing
  refine ⟨side, _, run, fun level member => ?_, fun kept => ?_, fun _ => ?_, fun positive => ?_⟩
  · obtain ⟨live, held⟩ := (shown.lists.mem_iff level.price level.qty).mp
      (List.mem_map.mpr ⟨level, member, rfl⟩)
    have same := (trust.agrees level.price (held ▸ live)).trans held
    exact ⟨Finsupp.mem_support_iff.mpr (same ▸ live), same⟩
  · rw [shape, trust.complete fun result member => ?_]
    exact Bool.eq_false_iff.mpr fun lost => (of_decide_eq_true lost).elim
      (kept result member).1 (kept result member).2
  · rw [shape, Nat.min_comm, ← List.take_take, trust.listing_take, List.take_take]
  · have first := congrArg List.head? trust.listing_take
    rw [List.head?_take, List.head?_take, if_neg (by omega), if_neg (by omega), ← shape,
      List.head?_map] at first
    rw [BookSide.best_eq_head, first]

end FeedHandler
