import FeedHandler.LatencyHistogram

namespace FeedHandler

namespace LatencyHistogram

variable {N : Nat} {samples : List UInt64} {h : LatencyHistogram N}

/-- The samples that belong into bucket `i`: the first bucket takes what is below
two, each other one an octave, and the last one all that is above. -/
def InOctave (N i : Nat) (ticks : UInt64) : Prop :=
  (i = 0 ∨ 2 ^ i ≤ ticks.toNat) ∧ (i + 1 < N → ticks.toNat < 2 ^ (i + 1))

instance (N i : Nat) (ticks : UInt64) : Decidable (InOctave N i ticks) :=
  inferInstanceAs (Decidable (_ ∧ _))

theorem bucketOf_eq_iff {i : Nat} (inside : i < N) (ticks : UInt64) :
    bucketOf N ticks = some i ↔ InOctave N i ticks := by
  by_cases zero : ticks = 0
  · subst zero
    have positive : 0 < 2 ^ i := Nat.two_pow_pos i
    rw [bucketOf_zero, Option.some.injEq, InOctave, UInt64.toNat_zero]
    constructor
    · rintro rfl
      exact ⟨.inl rfl, fun _ => Nat.two_pow_pos _⟩
    · rintro ⟨first | above, _⟩
      · exact first.symm
      · omega
  · have nonzero : ticks.toNat ≠ 0 := fun none => zero (UInt64.toNat_inj.mp none)
    rw [bucketOf_live (by omega) zero, Option.some.injEq, InOctave, ← Nat.le_log2 nonzero,
      ← Nat.log2_lt nonzero]
    omega

/-- The largest sample, zero if there is none. -/
structure Tops (samples : List UInt64) (max : UInt64) : Prop where
  above : ∀ ticks ∈ samples, ticks ≤ max
  reached : max = 0 ∨ max ∈ samples

theorem Tops.concat {max : UInt64} (tops : Tops samples max) (ticks : UInt64) :
    Tops (samples ++ [ticks]) (if ticks > max then ticks else max) := by
  split
  · rename_i larger
    refine ⟨fun other member => ?_, .inr List.mem_concat_self⟩
    rcases List.mem_append.mp member with old | new
    · exact UInt64.le_of_lt (UInt64.lt_of_le_of_lt (tops.above other old) larger)
    · exact UInt64.le_of_eq (List.mem_singleton.mp new)
  · rename_i smaller
    refine ⟨fun other member => ?_, tops.reached.imp id fun old => List.mem_append_left _ old⟩
    rcases List.mem_append.mp member with old | new
    · exact tops.above other old
    · exact List.mem_singleton.mp new ▸ UInt64.not_lt.mp smaller

theorem Tops.unique {max other : UInt64} (tops : Tops samples max) (tops' : Tops samples other) :
    max = other := by
  have below {m m' : UInt64} (here : Tops samples m) (there : Tops samples m') : m ≤ m' := by
    rcases here.reached with rfl | member
    · exact UInt64.zero_le
    · exact there.above m member
  exact UInt64.le_antisymm (below tops tops') (below tops' tops)

theorem record_max {h' : LatencyHistogram N} {ticks : UInt64} (run : h.record ticks = some h') :
    h'.max = if ticks > h.max then ticks else h.max := by
  simp only [record, Option.bind_eq_bind, Option.bind_eq_some_iff, Option.pure_def,
    Option.some.injEq] at run
  obtain ⟨_, _, _, _, _, _, rfl⟩ := run
  rfl

theorem Tops.recordAll {h' : LatencyHistogram N} (tops : Tops samples h.max)
    {later : List UInt64} (run : h.recordAll later = some h') : Tops (samples ++ later) h'.max := by
  induction later generalizing samples h with
  | nil =>
    cases run
    exact (List.append_nil samples).symm ▸ tops
  | cons ticks rest ih =>
    obtain ⟨middle, first, last⟩ := Option.bind_eq_some_iff.mp run
    have next := tops.concat ticks
    rw [← record_max first] at next
    have later := ih next last
    rwa [List.append_assoc] at later

/-- What a histogram is after so many samples, in whatever order they came. -/
structure Summarizes (samples : List UInt64) (h : LatencyHistogram N) : Prop where
  counts : Counts samples h
  tops : Tops samples h.max

theorem Summarizes.unique {h' : LatencyHistogram N} (one : Summarizes samples h)
    (other : Summarizes samples h') : h = h' := by
  have total := one.counts.total.trans other.counts.total.symm
  have max := one.tops.unique other.tops
  have buckets : h.buckets = h'.buckets := by
    refine Vector.ext fun i bound => Option.some.inj ?_
    rw [← Vector.getElem?_eq_getElem bound, ← Vector.getElem?_eq_getElem bound,
      one.counts.bucket i bound, other.counts.bucket i bound]
  cases h
  cases h'
  dsimp only at total max buckets
  rw [total, max, buckets]

theorem Summarizes.perm {others : List UInt64} (summary : Summarizes samples h)
    (same : samples.Perm others) : Summarizes others h where
  counts := {
    bucket := fun i bound => (summary.counts.bucket i bound).trans (by rw [same.countP_eq])
    sum := summary.counts.sum
    total := summary.counts.total.trans (by rw [same.length_eq]) }
  tops := {
    above := fun ticks member => summary.tops.above ticks (same.mem_iff.mpr member)
    reached := summary.tops.reached.imp id same.mem_iff.mp }

theorem recordAll_summarizes (positive : 0 < N) (samples : List UInt64) :
    ∃ h, (new N).recordAll samples = some h ∧ Summarizes samples h := by
  obtain ⟨h, run, counts⟩ := (new_counts (N := N)).recordAll positive samples
  have tops : Tops [] (new N).max := ⟨fun _ member => (nomatch member), .inl rfl⟩
  exact ⟨h, run, counts, tops.recordAll run⟩

end LatencyHistogram

open LatencyHistogram

/-- The histogram is exact over the octaves of the raw samples, with their number
and their largest one, and the order of the samples leaves no trace in it. -/
theorem histogram_counts_octaves_in_any_order (N : Nat) (positive : 1 ≤ N)
    (samples : List UInt64) :
    ∃ h, (LatencyHistogram.new N).recordAll samples = some h ∧
      (∀ i < N, h.buckets[i]? = some (.ofNat (samples.countP fun ticks => InOctave N i ticks))) ∧
      h.buckets.toList.foldr (· + ·) 0 = h.total ∧ h.total = .ofNat samples.length ∧
      Tops samples h.max ∧
      ∀ others, others.Perm samples → (LatencyHistogram.new N).recordAll others = some h := by
  obtain ⟨h, run, summary⟩ := recordAll_summarizes positive samples
  refine ⟨h, run, fun i inside => ?_, summary.counts.sum, summary.counts.total, summary.tops,
    fun others same => ?_⟩
  · rw [summary.counts.bucket i inside]
    simp only [bucketOf_eq_iff inside]
  · obtain ⟨h', run', summary'⟩ := recordAll_summarizes positive others
    rw [run', (summary'.perm same).unique summary]

theorem four_samples_in_three_buckets :
    ∃ h, (LatencyHistogram.new 3).recordAll [9, 0, 3, 1] = some h ∧
      (∀ i < 3, h.buckets[i]? =
        some (.ofNat ([9, 0, 3, 1].countP fun ticks => InOctave 3 i ticks))) ∧
      h.buckets.toList.foldr (· + ·) 0 = h.total ∧ h.total = .ofNat 4 ∧
      Tops [9, 0, 3, 1] h.max ∧
      ∀ others, others.Perm [9, 0, 3, 1] → (LatencyHistogram.new 3).recordAll others = some h :=
  histogram_counts_octaves_in_any_order 3 (by decide) [9, 0, 3, 1]

end FeedHandler
