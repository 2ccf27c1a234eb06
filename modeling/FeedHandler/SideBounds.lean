import FeedHandler.BookSide

namespace FeedHandler

open BinarySearch Memmove

namespace BookSide

/-- `search` with the slice search left open, as the standard library's is. -/
def searchWith (search : SliceSearch Level) (side : BookSide) (price : Price)
    (descending : Bool) : Option (Except Nat Nat) := do
  let slice ← side.slice
  if descending then
    return search.run slice (fun l => compare price l.price)
  else
    return search.run slice (fun l => compare l.price price)

def applyDeltaWith (search : SliceSearch Level) (side : BookSide) (price : Price) (qty : Qty)
    (descending : Bool) : Option (BookSide × DeltaResult) := do
  let pos ← side.searchWith search price descending
  side.applyAt price qty pos

theorem applyDeltaWith_halving {side : BookSide} {price : Price} {qty : Qty}
    {descending : Bool} :
    side.applyDeltaWith .halving price qty descending = side.applyDelta price qty descending :=
  rfl

/-- An index the search can answer with on this side. -/
def Locates (side : BookSide) : Except Nat Nat → Prop
  | .ok idx => idx < side.count
  | .error idx => idx ≤ side.count

theorem searchWith_locates {side : BookSide} (bound : side.InBounds)
    (search : SliceSearch Level) (price : Price) (descending : Bool) :
    ∃ pos, side.searchWith search price descending = some pos ∧ side.Locates pos := by
  have whole : side.slice = some side.visible := if_pos bound
  have located : ∀ cmp, side.Locates (search.run side.visible cmp) := by
    intro cmp
    cases answer : search.run side.visible cmp with
    | ok idx => exact (search.ok_lt answer).trans_eq (length_visible bound)
    | error idx => exact (search.error_le answer).trans_eq (length_visible bound)
  cases descending with
  | false => exact ⟨_, by rw [searchWith, whole]; rfl, located _⟩
  | true => exact ⟨_, by rw [searchWith, whole]; rfl, located _⟩

def removeAccesses (side : BookSide) (idx : Nat) : List Access :=
  [.sub side.count 1, .sub (side.count - 1) idx, .copy (idx + 1) idx (side.count - 1 - idx)]

def insertAccesses (side : BookSide) (idx : Nat) : List Access :=
  if side.count < maxLevels then
    [.sub side.count idx, .copy idx (idx + 1) (side.count - idx), .index idx]
  else if idx < maxLevels then
    [.sub maxLevels idx, .sub (maxLevels - idx) 1, .copy idx (idx + 1) (maxLevels - idx - 1),
      .index idx]
  else []

/-- Every subtraction, copy and indexing that `apply_delta` evaluates after its
search, on the branch it takes and in the order of the code. -/
def accesses (side : BookSide) (qty : Qty) : Except Nat Nat → List Access
  | .ok idx => if qty.isZero then side.removeAccesses idx else [.index idx]
  | .error idx => if qty.isZero then [] else side.insertAccesses idx

theorem isSome_usizeSub_bind {γ : Type*} {a b : Nat} {rest : Nat → Option γ} :
    ((usizeSub a b).bind rest).isSome ↔ (Access.sub a b).Safe maxLevels ∧ (rest (a - b)).isSome := by
  by_cases bound : b ≤ a
  · simp only [usizeSub_eq bound, Option.bind_some, Access.Safe, bound, true_and]
  · have fault : usizeSub a b = none := if_neg bound
    simp only [fault, Option.bind_none, Option.isSome_none, Access.Safe, bound,
      Bool.false_eq_true, false_and]

theorem isSome_remove {side : BookSide} {idx : Nat} :
    (side.remove idx).isSome ↔ ∀ access ∈ side.removeAccesses idx, access.Safe maxLevels := by
  have moved : ∀ n, ((copy side.levels (idx + 1) idx n).bind fun levels =>
      some ((⟨side.count - 1, levels⟩ : BookSide), DeltaResult.removed)).isSome ↔
      (Access.copy (idx + 1) idx n).Safe maxLevels ∧ True := fun n =>
    (isSome_bind fun levels _ => by simp only [Option.isSome_some]).trans
      (and_congr_left' isSome_copy)
  simp only [remove, Option.pure_def, Option.bind_eq_bind, isSome_usizeSub_bind, moved,
    removeAccesses, List.forall_mem_cons, List.not_mem_nil, false_imp_iff, implies_true]

/-- The copy and the store that both inserting branches end with. -/
theorem isSome_copy_store {side : BookSide} {idx n count : Nat} {level : Level}
    {result : DeltaResult} :
    ((copy side.levels idx (idx + 1) n).bind fun moved =>
      (store moved idx level).bind fun levels =>
        some ((⟨count, levels⟩ : BookSide), result)).isSome ↔
      (Access.copy idx (idx + 1) n).Safe maxLevels ∧ (Access.index idx).Safe maxLevels := by
  refine (isSome_bind fun moved _ => ?_).trans (and_congr_left' isSome_copy)
  refine (isSome_bind (P := True) fun levels _ => ?_).trans ?_
  · simp only [Option.isSome_some]
  · rw [isSome_store, and_true]

theorem isSome_insert {side : BookSide} {idx : Nat} {level : Level} :
    (side.insert idx level).isSome ↔
      ∀ access ∈ side.insertAccesses idx, access.Safe maxLevels := by
  unfold insert insertAccesses
  split
  · simp only [Option.pure_def, Option.bind_eq_bind, isSome_usizeSub_bind, isSome_copy_store,
      List.forall_mem_cons, List.not_mem_nil, false_imp_iff, implies_true, and_true]
  · split
    · simp only [Option.pure_def, Option.bind_eq_bind, isSome_usizeSub_bind, isSome_copy_store,
        List.forall_mem_cons, List.not_mem_nil, false_imp_iff, implies_true, and_true]
    · simp only [Option.isSome_some, List.not_mem_nil, false_imp_iff, implies_true]

theorem isSome_setQty {side : BookSide} {idx : Nat} {qty : Qty} :
    (side.setQty idx qty).isSome ↔ (Access.index idx).Safe maxLevels := by
  unfold setQty Access.Safe
  by_cases inside : idx < maxLevels
  · simp only [Vector.getElem?_eq_getElem inside, store_eq inside, Option.pure_def,
      Option.bind_eq_bind, Option.bind_some, Option.isSome_some, inside]
  · have beyond : side.levels[idx]? = none := Vector.getElem?_eq_none (Nat.not_lt.mp inside)
    simp only [beyond, Option.bind_eq_bind, Option.bind_none, Option.isSome_none, inside,
      Bool.false_eq_true]

/-- The model faults exactly when some access would underflow or leave the
array. -/
theorem isSome_applyAt {side : BookSide} {price : Price} {qty : Qty} {pos : Except Nat Nat} :
    (side.applyAt price qty pos).isSome ↔
      ∀ access ∈ side.accesses qty pos, access.Safe maxLevels := by
  cases pos with
  | ok idx =>
    unfold applyAt accesses
    split
    · exact isSome_remove
    · simp only [Option.isSome_map, isSome_setQty, List.mem_singleton, forall_eq]
  | error idx =>
    unfold applyAt accesses
    split
    · simp only [Option.isSome_some, List.not_mem_nil, false_imp_iff, implies_true]
    · exact isSome_insert

/-- From the two index bounds alone, in any order of the levels. -/
theorem applyAt_inBounds {side : BookSide} (bound : side.InBounds) {pos : Except Nat Nat}
    (located : side.Locates pos) (price : Price) (qty : Qty) :
    ∃ after, side.applyAt price qty pos = some after ∧ after.1.InBounds := by
  cases pos with
  | ok idx =>
    unfold applyAt
    split
    · obtain ⟨after, run, kept, -⟩ := remove_eq bound located
      exact ⟨_, run, kept⟩
    · have tracked : idx < side.visible.length := (length_visible bound).symm ▸ located
      obtain ⟨after, run, kept, -⟩ := setQty_eq bound (List.getElem?_eq_getElem tracked) qty
      exact ⟨(after, .updated), by simp only [run, Option.map_some], kept⟩
  | error idx =>
    unfold applyAt
    split
    · exact ⟨_, rfl, bound⟩
    · rcases Nat.lt_or_ge side.count maxLevels with room | full
      · obtain ⟨after, run, kept, -⟩ := insert_room room located ⟨price, qty⟩
        exact ⟨_, run, kept⟩
      · have full : side.count = maxLevels := Nat.le_antisymm bound full
        rcases Nat.lt_or_ge idx maxLevels with within | beyond
        · obtain ⟨after, run, kept, -⟩ := insert_full full within ⟨price, qty⟩
          exact ⟨_, run, kept⟩
        · exact ⟨_, insert_beyond full beyond ⟨price, qty⟩, bound⟩

theorem applyDeltaWith_inBounds {side : BookSide} (bound : side.InBounds)
    (search : SliceSearch Level) (price : Price) (qty : Qty) (descending : Bool) :
    ∃ after, side.applyDeltaWith search price qty descending = some after ∧
      after.1.InBounds := by
  obtain ⟨pos, answer, located⟩ := searchWith_locates bound search price descending
  obtain ⟨after, run, kept⟩ := applyAt_inBounds bound located price qty
  refine ⟨after, ?_, kept⟩
  simp only [applyDeltaWith, answer, Option.bind_eq_bind, Option.bind_some, run]

end BookSide

/-- One call on a side, each delta with its own direction and its own search. -/
inductive MixedCall
  | clear
  | delta (search : SliceSearch Level) (price : Price) (qty : Qty) (descending : Bool)

namespace BookSide

def mixedCall (side : BookSide) : MixedCall → Option BookSide
  | .clear => some side.clear
  | .delta search price qty descending =>
    (side.applyDeltaWith search price qty descending).map Prod.fst

def mixedCalls (side : BookSide) : List MixedCall → Option BookSide
  | [] => some side
  | call :: rest => (side.mixedCall call).bind fun side => side.mixedCalls rest

theorem mixedCall_inBounds {side : BookSide} (bound : side.InBounds) (call : MixedCall) :
    ∃ after, side.mixedCall call = some after ∧ after.InBounds := by
  cases call with
  | clear => exact ⟨_, rfl, Nat.zero_le _⟩
  | delta search price qty descending =>
    obtain ⟨after, run, kept⟩ := applyDeltaWith_inBounds bound search price qty descending
    exact ⟨after.1, by rw [mixedCall, run, Option.map_some], kept⟩

theorem mixedCalls_inBounds {side : BookSide} (bound : side.InBounds) (calls : List MixedCall) :
    ∃ after, side.mixedCalls calls = some after ∧ after.InBounds := by
  induction calls generalizing side with
  | nil => exact ⟨side, rfl, bound⟩
  | cons call rest ih =>
    obtain ⟨next, run, kept⟩ := mixedCall_inBounds bound call
    obtain ⟨after, later, final⟩ := ih kept
    exact ⟨after, by rw [mixedCalls, run, Option.bind_some, later], final⟩

end BookSide

/-- After any calls, sorted side or not, the next delta searches within the
tracked levels and makes no access outside the array. -/
theorem memmoves_stay_inside (calls : List MixedCall) (search : SliceSearch Level)
    (price : Price) (qty : Qty) (descending : Bool) :
    ∃ side, BookSide.new.mixedCalls calls = some side ∧ side.count ≤ maxLevels ∧
      ∃ pos, side.searchWith search price descending = some pos ∧ side.Locates pos ∧
        (∀ access ∈ side.accesses qty pos, access.Safe maxLevels) ∧
        (side.applyDeltaWith search price qty descending).isSome := by
  have start : BookSide.new.InBounds := Nat.zero_le _
  obtain ⟨side, run, bound⟩ := BookSide.mixedCalls_inBounds start calls
  obtain ⟨pos, answer, located⟩ := BookSide.searchWith_locates bound search price descending
  obtain ⟨after, applied, -⟩ := BookSide.applyAt_inBounds bound located price qty
  obtain ⟨last, whole, -⟩ := BookSide.applyDeltaWith_inBounds bound search price qty descending
  refine ⟨side, run, bound, pos, answer, located, ?_, Option.isSome_iff_exists.mpr ⟨last, whole⟩⟩
  exact BookSide.isSome_applyAt.mp (Option.isSome_iff_exists.mpr ⟨after, applied⟩)

end FeedHandler
