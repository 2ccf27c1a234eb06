import Mathlib.Data.Finsupp.Basic
import Mathlib.Data.Finset.Sort
import Mathlib.Order.RelClasses

namespace RankedMap

variable {κ ν : Type*}

section Top

variable (better : κ → κ → Prop) [DecidableRel better]

/-- How many keys of the set beat `k`. -/
def rank (s : Finset κ) (k : κ) : Nat := (s.filter fun j => better j k).card

/-- The `n` best keys: those beaten by fewer than `n` others. -/
def top (n : Nat) (s : Finset κ) : Finset κ := s.filter fun k => rank better s k < n

variable {better} {s t : Finset κ} {k : κ} {d n : Nat}

theorem mem_top : k ∈ top better n s ↔ k ∈ s ∧ rank better s k < n :=
  Finset.mem_filter

theorem top_subset : top better n s ⊆ s :=
  Finset.filter_subset _ _

theorem rank_mono (sub : s ⊆ t) : rank better s k ≤ rank better t k :=
  Finset.card_le_card (Finset.filter_subset_filter _ sub)

theorem rank_le_card : rank better s k ≤ s.card :=
  Finset.card_le_card (Finset.filter_subset _ _)

variable [IsStrictTotalOrder κ better]

theorem rank_lt_rank {j : κ} (member : j ∈ s) (beats : better j k) :
    rank better s j < rank better s k := by
  apply Finset.card_lt_card
  refine ⟨fun i inside => ?_, fun all => ?_⟩
  · rw [Finset.mem_filter] at inside ⊢
    exact ⟨inside.1, trans_of better inside.2 beats⟩
  · have itself := all (Finset.mem_filter.mpr ⟨member, beats⟩)
    exact irrefl_of better j (Finset.mem_filter.mp itself).2

theorem rank_lt_card (member : k ∈ s) : rank better s k < s.card := by
  apply Finset.card_lt_card
  refine ⟨Finset.filter_subset _ _, fun all => ?_⟩
  exact irrefl_of better k (Finset.mem_filter.mp (all member)).2

theorem rank_injOn : Set.InjOn (rank better s) s := by
  intro a inA b inB same
  rcases trichotomous_of better a b with less | equal | more
  · exact absurd same (rank_lt_rank inA less).ne
  · exact equal
  · exact absurd same (rank_lt_rank inB more).ne'

/-- Ranks run through 0, 1, .. without gaps, so a large enough set has exactly
`n` keys of rank below `n`. -/
theorem card_top : (top better n s).card = min n s.card := by
  have image : s.image (rank better s) = Finset.range s.card := by
    apply Finset.eq_of_subset_of_card_le
    · intro r inside
      obtain ⟨k, member, rfl⟩ := Finset.mem_image.mp inside
      exact Finset.mem_range.mpr (rank_lt_card member)
    · rw [Finset.card_range, Finset.card_image_of_injOn rank_injOn]
  have injective : Set.InjOn (rank better s) (top better n s) :=
    rank_injOn.mono (Finset.coe_subset.mpr top_subset)
  rw [← Finset.card_image_of_injOn injective, ← Finset.card_range (min n s.card)]
  congr 1
  ext r
  rw [Finset.mem_image, Finset.mem_range, Nat.lt_min]
  constructor
  · rintro ⟨k, member, rfl⟩
    exact ⟨(mem_top.mp member).2, rank_lt_card (mem_top.mp member).1⟩
  · rintro ⟨small, bound⟩
    obtain ⟨k, member, rfl⟩ := Finset.mem_image.mp (image ▸ Finset.mem_range.mpr bound)
    exact ⟨k, mem_top.mpr ⟨member, small⟩, rfl⟩

theorem top_eq_self (small : s.card ≤ n) : top better n s = s :=
  Finset.filter_true_of_mem fun _ member => (rank_lt_card member).trans_le small

/-- Dropping keys that are not among the best `d` does not change the best `d`. -/
theorem top_eq_of_between (best : top better d s ⊆ t) (sub : t ⊆ s) :
    top better d t = top better d s := by
  ext k
  constructor
  · intro inside
    obtain ⟨member, small⟩ := mem_top.mp inside
    by_contra outside
    have late : d ≤ rank better s k := by
      by_contra early
      exact outside (mem_top.mpr ⟨sub member, by omega⟩)
    have many : d ≤ s.card := late.trans rank_le_card
    have beaten : top better d s ⊆ t.filter fun j => better j k := by
      intro j inTop
      refine Finset.mem_filter.mpr ⟨best inTop, ?_⟩
      obtain ⟨inS, early⟩ := mem_top.mp inTop
      rcases trichotomous_of better j k with less | equal | more
      · exact less
      · exact absurd (equal ▸ early) (by omega)
      · exact absurd (rank_lt_rank (sub member) more) (by omega)
    have count := Finset.card_le_card beaten
    rw [card_top, Nat.min_eq_left many] at count
    exact absurd small (by unfold rank; omega)
  · intro inside
    exact mem_top.mpr ⟨best inside, (rank_mono sub).trans_lt (mem_top.mp inside).2⟩

theorem top_top (shallow : d ≤ n) : top better d (top better n s) = top better d s :=
  top_eq_of_between (fun _ inside =>
    mem_top.mpr ⟨(mem_top.mp inside).1, (mem_top.mp inside).2.trans_le shallow⟩) top_subset

variable [DecidableEq κ]

theorem top_insert_top (shallow : d ≤ n) (k : κ) :
    top better d (insert k (top better n s)) = top better d (insert k s) := by
  apply top_eq_of_between
  · intro j inside
    obtain ⟨member, small⟩ := mem_top.mp inside
    rcases Finset.mem_insert.mp member with same | old
    · exact Finset.mem_insert.mpr (Or.inl same)
    · exact Finset.mem_insert_of_mem (mem_top.mpr
        ⟨old, ((rank_mono (Finset.subset_insert _ _)).trans_lt small).trans_le shallow⟩)
  · exact Finset.insert_subset_insert _ top_subset

theorem top_erase_of_notMem (outside : k ∉ top better d s) :
    top better d (s.erase k) = top better d s := by
  refine top_eq_of_between (fun j inside => ?_) (Finset.erase_subset _ _)
  exact Finset.mem_erase.mpr ⟨fun same => outside (same ▸ inside), top_subset inside⟩

omit [IsStrictTotalOrder κ better] in
theorem rank_erase_add_one (j : κ) : rank better s k ≤ rank better (s.erase j) k + 1 := by
  unfold rank
  rw [Finset.filter_erase]
  exact Nat.le_add_of_sub_le Finset.pred_card_le_card_erase

/-- Erasing from the best `d` is visible one place deeper only. -/
theorem top_pred_erase_top (k : κ) :
    top better (d - 1) ((top better d s).erase k) = top better (d - 1) (s.erase k) := by
  apply top_eq_of_between
  · intro j inside
    obtain ⟨member, small⟩ := mem_top.mp inside
    obtain ⟨different, old⟩ := Finset.mem_erase.mp member
    have bound : rank better s j ≤ rank better (s.erase k) j + 1 := rank_erase_add_one k
    exact Finset.mem_erase.mpr ⟨different, mem_top.mpr ⟨old, by omega⟩⟩
  · exact Finset.erase_subset_erase _ top_subset

end Top

section Maps

variable [Zero ν] (better : κ → κ → Prop) [DecidableRel better]

/-- A map cut to its `n` best keys. Absent keys hold zero. -/
noncomputable def keepBest (n : Nat) (m : κ →₀ ν) : κ →₀ ν :=
  m.filter fun k => rank better m.support k < n

variable {better} {m : κ →₀ ν} {k : κ} {v : ν} {d n : Nat}

theorem support_keepBest : (keepBest better n m).support = top better n m.support :=
  Finsupp.support_filter _ _

theorem card_support_keepBest [IsStrictTotalOrder κ better] :
    (keepBest better n m).support.card = min n m.support.card := by
  rw [support_keepBest, card_top]

variable [DecidableEq κ]

theorem keepBest_apply :
    keepBest better n m k = if k ∈ top better n m.support then m k else 0 := by
  rw [keepBest, Finsupp.filter_apply]
  by_cases member : k ∈ m.support
  · simp only [mem_top, member, true_and]
  · rw [Finsupp.notMem_support_iff.mp member, ite_self, ite_self]

theorem keepBest_eq_of_top {m' : κ →₀ ν} (sameTop : top better d m.support = top better d m'.support)
    (sameValue : ∀ k ∈ top better d m.support, m k = m' k) :
    keepBest better d m = keepBest better d m' := by
  ext k
  rw [keepBest_apply, keepBest_apply, ← sameTop]
  split
  · exact sameValue k ‹_›
  · rfl

variable [IsStrictTotalOrder κ better]

theorem keepBest_eq_self (small : m.support.card ≤ n) : keepBest better n m = m := by
  ext k
  rw [keepBest_apply, top_eq_self small]
  split
  · rfl
  · rename_i absent
    exact (Finsupp.notMem_support_iff.mp absent).symm

theorem keepBest_keepBest (shallow : d ≤ n) :
    keepBest better d (keepBest better n m) = keepBest better d m := by
  apply keepBest_eq_of_top
  · rw [support_keepBest, top_top shallow]
  · intro k inside
    rw [support_keepBest, top_top shallow] at inside
    obtain ⟨member, small⟩ := mem_top.mp inside
    rw [keepBest_apply, if_pos (mem_top.mpr ⟨member, small.trans_le shallow⟩)]

/-- Truncation commutes with a later override. -/
theorem keepBest_update_keepBest (live : v ≠ 0) (shallow : d ≤ n) :
    keepBest better d ((keepBest better n m).update k v) = keepBest better d (m.update k v) := by
  classical
  have oldSupport : (m.update k v).support = insert k m.support := by
    rw [Finsupp.support_update, if_neg live]
  have newSupport : ((keepBest better n m).update k v).support =
      insert k (top better n m.support) := by
    rw [Finsupp.support_update, if_neg live, support_keepBest]
  apply keepBest_eq_of_top
  · rw [oldSupport, newSupport, top_insert_top shallow]
  · intro j inside
    rw [newSupport] at inside
    rw [Finsupp.update_apply, Finsupp.update_apply]
    split
    · rfl
    · rename_i different
      have kept : j ∈ top better n m.support :=
        (Finset.mem_insert.mp (top_subset inside)).resolve_left different
      rw [keepBest_apply, if_pos kept]

theorem keepBest_erase_of_absent (absent : keepBest better d m k = 0) :
    keepBest better d (m.erase k) = keepBest better d m := by
  have outside : k ∉ top better d m.support := by
    intro inside
    rw [keepBest_apply, if_pos inside] at absent
    exact Finsupp.mem_support_iff.mp (top_subset inside) absent
  apply keepBest_eq_of_top
  · rw [Finsupp.support_erase, top_erase_of_notMem outside]
  · intro j inside
    rw [Finsupp.support_erase, top_erase_of_notMem outside] at inside
    exact Finsupp.erase_ne fun same => outside (same ▸ inside)

/-- A new key behind all the others is cut off again. -/
theorem keepBest_update_of_beaten (live : v ≠ 0) (full : m.support.card = n)
    (absent : m k = 0) (beaten : ∀ j ∈ m.support, better j k) :
    keepBest better n (m.update k v) = m := by
  classical
  have support : (m.update k v).support = insert k m.support := by
    rw [Finsupp.support_update, if_neg live]
  have late : rank better (insert k m.support) k = n := by
    rw [rank, Finset.filter_insert, if_neg (irrefl_of better k), Finset.filter_true_of_mem beaten,
      full]
  have whole : top better n m.support = m.support := top_eq_self full.le
  have same : top better n (insert k m.support) = m.support := by
    refine .trans (top_eq_of_between (fun j inside => ?_) (Finset.subset_insert _ _)).symm whole
    obtain ⟨member, small⟩ := mem_top.mp inside
    refine (Finset.mem_insert.mp member).resolve_left ?_
    rintro rfl
    exact absurd late small.ne
  ext j
  rw [keepBest_apply, support, same]
  split
  · rename_i tracked
    rw [Finsupp.update_apply, if_neg]
    rintro rfl
    exact Finsupp.mem_support_iff.mp tracked absent
  · rename_i untracked
    exact (Finsupp.notMem_support_iff.mp untracked).symm

/-- An erase costs one place of agreement. -/
theorem keepBest_pred_erase_keepBest (k : κ) :
    keepBest better (d - 1) ((keepBest better d m).erase k) =
      keepBest better (d - 1) (m.erase k) := by
  apply keepBest_eq_of_top
  · rw [Finsupp.support_erase, Finsupp.support_erase, support_keepBest, top_pred_erase_top]
  · intro j inside
    rw [Finsupp.support_erase, support_keepBest] at inside
    obtain ⟨different, kept⟩ := Finset.mem_erase.mp (top_subset inside)
    rw [Finsupp.erase_ne different, Finsupp.erase_ne different, keepBest_apply, if_pos kept]

/-- The map with the entries written over it, one after the other. -/
noncomputable def overrides (m : κ →₀ ν) (entries : List (κ × ν)) : κ →₀ ν :=
  entries.foldl (fun m entry => m.update entry.1 entry.2) m

omit [IsStrictTotalOrder κ better] [DecidableRel better]

theorem overrides_of_notMem {entries : List (κ × ν)} (absent : k ∉ entries.map Prod.fst) :
    overrides m entries k = m k := by
  induction entries generalizing m with
  | nil => rfl
  | cons entry rest ih =>
    rw [List.map_cons, List.mem_cons, not_or] at absent
    rw [overrides, List.foldl_cons, ← overrides, ih absent.2, Finsupp.update_apply,
      if_neg absent.1]

theorem overrides_of_mem {entries : List (κ × ν)} (distinct : (entries.map Prod.fst).Nodup)
    (member : (k, v) ∈ entries) : overrides m entries k = v := by
  induction entries generalizing m with
  | nil => cases member
  | cons entry rest ih =>
    rw [List.map_cons, List.nodup_cons] at distinct
    rw [overrides, List.foldl_cons, ← overrides]
    rcases List.mem_cons.mp member with rfl | later
    · rw [overrides_of_notMem distinct.1, Finsupp.update_apply, if_pos rfl]
    · exact ih distinct.2 later

/-- Overrides of distinct keys commute. -/
theorem overrides_perm {entries entries' : List (κ × ν)}
    (distinct : (entries.map Prod.fst).Nodup) (perm : entries.Perm entries') :
    overrides m entries = overrides m entries' := by
  have distinct' := (perm.map Prod.fst).nodup_iff.mp distinct
  ext k
  by_cases present : k ∈ entries.map Prod.fst
  · obtain ⟨entry, member, rfl⟩ := List.mem_map.mp present
    rw [overrides_of_mem distinct member, overrides_of_mem distinct' (perm.mem_iff.mp member)]
  · rw [overrides_of_notMem present,
      overrides_of_notMem (mt (perm.map Prod.fst).mem_iff.mpr present)]

/-- Maps that agree on their best keys still agree after the same overrides. -/
theorem keepBest_overrides [DecidableRel better] [IsStrictTotalOrder κ better] {m' : κ →₀ ν}
    {entries : List (κ × ν)} (live : ∀ entry ∈ entries, entry.2 ≠ 0)
    (agree : keepBest better n m = keepBest better n m') :
    keepBest better n (overrides m entries) = keepBest better n (overrides m' entries) := by
  induction entries generalizing m m' with
  | nil => exact agree
  | cons entry rest ih =>
    have first := live entry List.mem_cons_self
    refine ih (fun later member => live later (List.mem_cons_of_mem _ member)) ?_
    rw [← keepBest_update_keepBest first le_rfl, agree, keepBest_update_keepBest first le_rfl]

end Maps

section Listings

variable [Zero ν] {better : κ → κ → Prop} {m : κ →₀ ν} {l : List (κ × ν)} {k : κ} {v : ν} {i n : Nat}

/-- `l` enumerates the map, best key first. -/
structure Listing (better : κ → κ → Prop) (m : κ →₀ ν) (l : List (κ × ν)) : Prop where
  sorted : l.Pairwise fun a b => better a.1 b.1
  mem_iff : ∀ k v, (k, v) ∈ l ↔ v ≠ 0 ∧ m k = v

theorem Listing.nil : Listing better (0 : κ →₀ ν) [] where
  sorted := .nil
  mem_iff k v := by
    simp only [List.not_mem_nil, false_iff, Finsupp.coe_zero, Pi.zero_apply]
    exact fun ⟨live, zero⟩ => live zero.symm

theorem Listing.mem_support (lists : Listing better m l) :
    k ∈ m.support ↔ ∃ v, (k, v) ∈ l := by
  rw [Finsupp.mem_support_iff]
  constructor
  · exact fun live => ⟨m k, (lists.mem_iff k _).mpr ⟨live, rfl⟩⟩
  · rintro ⟨v, member⟩
    obtain ⟨live, value⟩ := (lists.mem_iff k v).mp member
    exact value ▸ live

/-- The enumeration by sorting the keys. -/
noncomputable def listing (better : κ → κ → Prop) [IsStrictTotalOrder κ better]
    [DecidableRel better] (m : κ →₀ ν) : List (κ × ν) :=
  letI := linearOrderOfSTO better
  (m.support.sort (· ≤ ·)).map fun k => (k, m k)

theorem listing_spec [IsStrictTotalOrder κ better] [DecidableRel better] (m : κ →₀ ν) :
    Listing better m (listing better m) where
  sorted := by
    let := linearOrderOfSTO better
    rw [listing, List.pairwise_map]
    refine ((m.support.pairwise_sort (· ≤ ·)).and (m.support.sort_nodup (· ≤ ·))).imp ?_
    exact fun pair => lt_of_le_of_ne pair.1 pair.2
  mem_iff k v := by
    let := linearOrderOfSTO better
    rw [listing, List.mem_map]
    constructor
    · rintro ⟨j, member, same⟩
      cases same
      exact ⟨Finsupp.mem_support_iff.mp ((Finset.mem_sort _).mp member), rfl⟩
    · rintro ⟨live, rfl⟩
      exact ⟨k, (Finset.mem_sort _).mpr (Finsupp.mem_support_iff.mpr live), rfl⟩

variable [IsStrictTotalOrder κ better]

theorem Listing.nodup_keys (lists : Listing better m l) : (l.map Prod.fst).Nodup := by
  rw [List.Nodup, List.pairwise_map]
  refine lists.sorted.imp fun {a b} order same => ?_
  rw [same] at order
  exact irrefl_of better _ order

/-- No key of the map beats the first one listed. -/
theorem Listing.head_best {top : κ × ν} (lists : Listing better m l) (head : l.head? = some top)
    (present : k ∈ m.support) : ¬ better k top.1 := by
  obtain ⟨rest, rfl⟩ := List.head?_eq_some_iff.mp head
  obtain ⟨v, listed⟩ := lists.mem_support.mp present
  intro beats
  rcases List.mem_cons.mp listed with same | later
  · rw [← same] at beats
    exact irrefl_of better _ beats
  · exact asymm_of better beats ((List.pairwise_cons.mp lists.sorted).1 _ later)

theorem Listing.unique {l' : List (κ × ν)} (lists : Listing better m l)
    (lists' : Listing better m l') : l = l' := by
  refine List.Perm.eq_of_pairwise ?_ lists.sorted lists'.sorted ?_
  · exact fun a b _ _ order back => absurd back (asymm_of better order)
  · refine (List.perm_ext_iff_of_nodup lists.nodup_keys.of_map lists'.nodup_keys.of_map).mpr ?_
    exact fun a => (lists.mem_iff a.1 a.2).trans (lists'.mem_iff a.1 a.2).symm

theorem Listing.eq_listing [DecidableRel better] (lists : Listing better m l) :
    l = listing better m :=
  lists.unique (listing_spec m)

theorem Listing.key_ne {j : Nat} (lists : Listing better m l) (bound : i < l.length)
    (other : j < l.length) (different : j ≠ i) : l[j].1 ≠ l[i].1 := by
  intro same
  apply different
  have left : j < (l.map Prod.fst).length := by rwa [List.length_map]
  have right : i < (l.map Prod.fst).length := by rwa [List.length_map]
  have keys : (l.map Prod.fst)[j] = (l.map Prod.fst)[i] := by
    rw [List.getElem_map, List.getElem_map, same]
  exact lists.nodup_keys.getElem_inj_iff.mp keys

theorem exists_worst [DecidableRel better] {j : κ} (present : j ∈ m.support) :
    ∃ worst ∈ m.support, ∀ k ∈ m.support, k = worst ∨ better k worst := by
  have lists : Listing better m _ := listing_spec m
  obtain ⟨w, inside⟩ := lists.mem_support.mp present
  have positive := List.length_pos_of_mem inside
  have last : (listing better m).length - 1 < (listing better m).length := by omega
  refine ⟨(listing better m)[(listing better m).length - 1].1,
    lists.mem_support.mpr ⟨_, List.getElem_mem last⟩, fun k tracked => ?_⟩
  obtain ⟨v, member⟩ := lists.mem_support.mp tracked
  obtain ⟨i, bound, value⟩ := List.mem_iff_getElem.mp member
  rcases Nat.eq_or_lt_of_le (show i ≤ (listing better m).length - 1 by omega) with same | earlier
  · subst same
    exact Or.inl (congrArg Prod.fst value).symm
  · have order := List.pairwise_iff_getElem.mp lists.sorted i _ bound last earlier
    rw [value] at order
    exact Or.inr order

variable [DecidableEq κ]

omit [IsStrictTotalOrder κ better] in
theorem Listing.support_eq (lists : Listing better m l) : m.support = (l.map Prod.fst).toFinset := by
  ext k
  rw [lists.mem_support, List.mem_toFinset, List.mem_map]
  exact ⟨fun ⟨v, member⟩ => ⟨_, member, rfl⟩, fun ⟨a, member, same⟩ => ⟨a.2, same ▸ member⟩⟩

theorem Listing.length_eq (lists : Listing better m l) : l.length = m.support.card := by
  rw [lists.support_eq, List.toFinset_card_of_nodup lists.nodup_keys, List.length_map]

theorem Listing.rank_eq [DecidableRel better] (lists : Listing better m l) (bound : i < l.length) :
    rank better m.support l[i].1 = i := by
  have before : m.support.filter (fun j => better j l[i].1) =
      ((l.take i).map Prod.fst).toFinset := by
    ext k
    rw [Finset.mem_filter, lists.mem_support, List.mem_toFinset, List.mem_map]
    constructor
    · rintro ⟨⟨v, member⟩, beats⟩
      obtain ⟨j, inside, value⟩ := List.mem_iff_getElem.mp member
      refine ⟨(k, v), List.mem_take_iff_getElem.mpr ⟨j, ?_, value⟩, rfl⟩
      rw [Nat.lt_min]
      refine ⟨?_, inside⟩
      by_contra late
      rcases Nat.eq_or_lt_of_le (Nat.not_lt.mp late) with same | later
      · subst same
        exact irrefl_of better k (by simpa only [value] using beats)
      · have order := List.pairwise_iff_getElem.mp lists.sorted i j bound inside later
        rw [value] at order
        exact asymm_of better order beats
    · rintro ⟨a, member, rfl⟩
      obtain ⟨j, inside, value⟩ := List.mem_take_iff_getElem.mp member
      have order := List.pairwise_iff_getElem.mp lists.sorted j i (by omega) bound (by omega)
      rw [value] at order
      exact ⟨⟨a.2, value ▸ List.getElem_mem _⟩, order⟩
  rw [rank, before, List.toFinset_card_of_nodup, List.length_map, List.length_take]
  · omega
  · exact lists.nodup_keys.sublist ((List.take_sublist i l).map Prod.fst)

/-- The first `n` entries of the enumeration are the map cut to its best `n`. -/
theorem Listing.take [DecidableRel better] (lists : Listing better m l) (n : Nat) :
    Listing better (keepBest better n m) (l.take n) where
  sorted := lists.sorted.sublist (List.take_sublist n l)
  mem_iff k v := by
    rw [keepBest_apply, List.mem_take_iff_getElem]
    constructor
    · rintro ⟨i, bound, value⟩
      have here : l[i].1 = k := congrArg Prod.fst value
      obtain ⟨live, held⟩ := (lists.mem_iff k v).mp (value ▸ List.getElem_mem _)
      have early := lists.rank_eq (show i < l.length by omega)
      rw [here] at early
      rw [if_pos (mem_top.mpr ⟨Finsupp.mem_support_iff.mpr (held ▸ live), by omega⟩)]
      exact ⟨live, held⟩
    · rintro ⟨live, held⟩
      split at held
      · rename_i inside
        obtain ⟨i, bound, value⟩ := List.mem_iff_getElem.mp ((lists.mem_iff k v).mpr ⟨live, held⟩)
        have early := lists.rank_eq bound
        rw [show l[i].1 = k from congrArg Prod.fst value] at early
        have small := (mem_top.mp inside).2
        exact ⟨i, by omega, value⟩
      · exact absurd held.symm live

omit [IsStrictTotalOrder κ better] in
/-- A new key goes in at the place that keeps the order. -/
theorem Listing.insertIdx (lists : Listing better m l) (live : v ≠ 0) (bound : i ≤ l.length)
    (below : ∀ a ∈ l.take i, better a.1 k) (above : ∀ a ∈ l.drop i, better k a.1)
    (fresh : m k = 0) : Listing better (m.update k v) (l.insertIdx i (k, v)) where
  sorted := by
    obtain ⟨front, back, rfl, rfl, shape⟩ := List.exists_of_modifyTailIdx (List.cons (k, v)) bound
    rw [List.take_left] at below
    rw [List.drop_left] at above
    have split := List.pairwise_append.mp lists.sorted
    rw [List.insertIdx, shape, List.pairwise_append, List.pairwise_cons]
    refine ⟨split.1, ⟨above, split.2.1⟩, fun a left b right => ?_⟩
    rcases List.mem_cons.mp right with same | old
    · exact same ▸ below a left
    · exact split.2.2 a left b old
  mem_iff j w := by
    rw [List.mem_insertIdx bound, lists.mem_iff, Finsupp.update_apply]
    constructor
    · rintro (same | ⟨present, held⟩)
      · cases same
        exact ⟨live, if_pos rfl⟩
      · have different : j ≠ k := by
          rintro rfl
          exact present (held.symm.trans fresh)
        exact ⟨present, (if_neg different).trans held⟩
    · rintro ⟨present, held⟩
      split at held
      · rename_i same
        exact Or.inl (by rw [same, held])
      · exact Or.inr ⟨present, held⟩

/-- Removing the entry of a key erases the key. -/
theorem Listing.eraseIdx (lists : Listing better m l) (bound : i < l.length)
    (here : l[i].1 = k) : Listing better (m.erase k) (l.eraseIdx i) where
  sorted := lists.sorted.sublist (List.eraseIdx_sublist l i)
  mem_iff j w := by
    rw [List.mem_eraseIdx_iff_getElem, Finsupp.erase_apply]
    constructor
    · rintro ⟨p, inside, different, value⟩
      obtain ⟨live, held⟩ := (lists.mem_iff j w).mp (value ▸ List.getElem_mem inside)
      have other := lists.key_ne bound inside different
      rw [value, here] at other
      exact ⟨live, (if_neg other).trans held⟩
    · rintro ⟨live, held⟩
      split at held
      · exact absurd held.symm live
      · rename_i different
        obtain ⟨p, inside, value⟩ := List.mem_iff_getElem.mp ((lists.mem_iff j w).mpr ⟨live, held⟩)
        refine ⟨p, inside, fun same => different ?_, value⟩
        subst same
        rw [← here, value]

/-- Overwriting the entry of a key updates the key. -/
theorem Listing.set (lists : Listing better m l) (live : v ≠ 0) (bound : i < l.length)
    (here : l[i].1 = k) : Listing better (m.update k v) (l.set i (k, v)) where
  sorted := by
    have keys : (l.set i (k, v)).map Prod.fst = l.map Prod.fst := by
      rw [List.map_set, ← here, ← List.getElem_map Prod.fst (h := by rwa [List.length_map]),
        List.set_getElem_self]
    have old := lists.sorted
    rw [← List.pairwise_map (f := Prod.fst) (R := better)] at old ⊢
    rwa [keys]
  mem_iff j w := by
    rw [List.mem_iff_getElem, Finsupp.update_apply]
    constructor
    · rintro ⟨p, inside, value⟩
      rw [List.getElem_set] at value
      rw [List.length_set] at inside
      split at value
      · cases value
        exact ⟨live, if_pos rfl⟩
      · rename_i different
        obtain ⟨present, held⟩ := (lists.mem_iff j w).mp (value ▸ List.getElem_mem inside)
        have other := lists.key_ne bound inside (Ne.symm different)
        rw [value, here] at other
        exact ⟨present, (if_neg other).trans held⟩
    · rintro ⟨present, held⟩
      split at held
      · rename_i same
        refine ⟨i, by rwa [List.length_set], ?_⟩
        rw [List.getElem_set_self, same, held]
      · rename_i different
        obtain ⟨p, inside, value⟩ := List.mem_iff_getElem.mp ((lists.mem_iff j w).mpr ⟨present, held⟩)
        refine ⟨p, by rwa [List.length_set], ?_⟩
        rw [List.getElem_set_ne, value]
        rintro rfl
        exact different (by rw [← here, value])

end Listings

end RankedMap
