import FeedHandler.BookSide
import FeedHandler.Timer

namespace FeedHandler

/-- `u64::leading_zeros`. -/
def leadingZeros (x : UInt64) : Nat := if x = 0 then 64 else 63 - x.toNat.log2

/-- The log2-bucketed histogram with `N` buckets. -/
structure LatencyHistogram (N : Nat) where
  buckets : Vector UInt64 N
  total : UInt64
  max : UInt64
  deriving DecidableEq, Repr

namespace LatencyHistogram

variable {N : Nat}

def new (N : Nat) : LatencyHistogram N where
  buckets := Vector.replicate N 0
  total := 0
  max := 0

/-- The bucket that `record` counts a sample in. -/
def bucketOf (N : Nat) (ticks : UInt64) : Option Nat :=
  if ticks = 0 then some 0
  else do
    let last ← usizeSub N 1
    return min (63 - leadingZeros ticks) last

def record (h : LatencyHistogram N) (ticks : UInt64) : Option (LatencyHistogram N) := do
  let b ← bucketOf N ticks
  let count ← h.buckets[b]?
  let buckets ← Memmove.store h.buckets b (count + 1)
  return { buckets, total := h.total + 1, max := if ticks > h.max then ticks else h.max }

def recordAll (h : LatencyHistogram N) : List UInt64 → Option (LatencyHistogram N)
  | [] => some h
  | ticks :: rest => do (← h.record ticks).recordAll rest

/-- The ends of the range that `print_summary` prints for bucket `i`. -/
def lo (hz : UInt64) (i : Nat) : UInt64 :=
  if i = 0 then 0 else ticksToNs hz (1 <<< UInt64.ofNat (i - 1))

def hi (hz : UInt64) (i : Nat) : UInt64 := ticksToNs hz (1 <<< UInt64.ofNat i)

/-- The rows of `print_summary`: range and count of each bucket in use. The
percentages are left out. -/
def summaryRows (h : LatencyHistogram N) (hz : UInt64) : List (UInt64 × UInt64 × UInt64) :=
  h.buckets.toList.zipIdx.filterMap fun entry =>
    if entry.1 = 0 then none else some (lo hz entry.2, hi hz entry.2, entry.1)

/-- The counters after so many samples: each bucket has its own, and together
they have them all, modulo the width of the counters. -/
structure Counts (samples : List UInt64) (h : LatencyHistogram N) : Prop where
  bucket : ∀ i, i < N →
    h.buckets[i]? = some (.ofNat (samples.countP fun ticks => bucketOf N ticks = some i))
  sum : h.buckets.toList.foldr (· + ·) 0 = h.total
  total : h.total = .ofNat samples.length

/-- The printed range of each bucket contains the samples counted in it. The
last bucket has no upper end to keep. -/
def RangesHold (N : Nat) (hz : UInt64) (samples : List UInt64) : Prop :=
  ∀ ticks ∈ samples, ∀ i, bucketOf N ticks = some i →
    lo hz i ≤ ticksToNs hz ticks ∧ (i < N - 1 → ticksToNs hz ticks ≤ hi hz i)

/-- What a sample has over the power of two at or below it is less than the rest
of the nanosecond in which that power of two ends. -/
def ExcessFits (hz ticks : UInt64) : Prop :=
  2 ^ ticks.toNat.log2 * 1000000000 % frequency hz +
    (ticks.toNat - 2 ^ ticks.toNat.log2) * 1000000000 < frequency hz

instance (hz ticks : UInt64) : Decidable (ExcessFits hz ticks) :=
  Nat.decLt _ _

/-- Each sample is zero, reaches the last bucket, or has too little over a power
of two for another nanosecond. -/
def RoundsDown (N : Nat) (hz : UInt64) (samples : List UInt64) : Prop :=
  ∀ ticks ∈ samples, ticks = 0 ∨ N - 1 ≤ ticks.toNat.log2 ∨ ExcessFits hz ticks

instance (N : Nat) (hz : UInt64) (samples : List UInt64) : Decidable (RoundsDown N hz samples) :=
  List.decidableBAll
    (fun ticks : UInt64 => ticks = 0 ∨ N - 1 ≤ ticks.toNat.log2 ∨ ExcessFits hz ticks) samples

section Buckets

variable {ticks : UInt64} {i : Nat}

theorem log2_lt (ticks : UInt64) : ticks.toNat.log2 < 64 := by
  by_cases zero : ticks.toNat = 0
  · rw [zero]
    decide
  · exact (Nat.log2_lt zero).mpr ticks.toNat_lt

theorem bucketOf_zero : bucketOf N 0 = some 0 := rfl

theorem bucketOf_live (positive : 0 < N) (live : ticks ≠ 0) :
    bucketOf N ticks = some (min ticks.toNat.log2 (N - 1)) := by
  have bound := log2_lt ticks
  have shift : 63 - leadingZeros ticks = ticks.toNat.log2 := by
    rw [leadingZeros, if_neg live]
    omega
  simp only [bucketOf, if_neg live, usizeSub_eq (show 1 ≤ N from positive), shift,
    Option.bind_eq_bind, Option.bind_some, Option.pure_def]

theorem bucketOf_lt (positive : 0 < N) (ticks : UInt64) : ∃ b < N, bucketOf N ticks = some b := by
  by_cases zero : ticks = 0
  · subst zero
    exact ⟨0, positive, bucketOf_zero⟩
  · exact ⟨_, by omega, bucketOf_live positive zero⟩

theorem toNat_shift (small : i < 64) : ((1 : UInt64) <<< UInt64.ofNat i).toNat = 2 ^ i := by
  have word : 2 ^ i < 2 ^ 64 := Nat.pow_lt_pow_right Nat.one_lt_two small
  rw [UInt64.toNat_shiftLeft, UInt64.toNat_ofNat_of_lt' (small.trans (by decide)),
    Nat.mod_eq_of_lt small, UInt64.toNat_one, Nat.shiftLeft_eq, Nat.one_mul, Nat.mod_eq_of_lt word]

/-- The power of two at or below a sample. -/
theorem shift_log2_le (live : ticks ≠ 0) (below : i ≤ ticks.toNat.log2) :
    (1 : UInt64) <<< UInt64.ofNat i ≤ ticks := by
  have nonzero : ticks.toNat ≠ 0 := fun zero => live (UInt64.toNat_inj.mp zero)
  rw [UInt64.le_iff_toNat_le, toNat_shift (below.trans_lt (log2_lt ticks))]
  exact (Nat.pow_le_pow_right Nat.two_pos below).trans (Nat.log2_self_le nonzero)

end Buckets

section Counting

variable {samples : List UInt64} {h : LatencyHistogram N}

theorem foldr_set_add_one {counters : List UInt64} {b : Nat} {count : UInt64}
    (here : counters[b]? = some count) :
    (counters.set b (count + 1)).foldr (· + ·) 0 = counters.foldr (· + ·) 0 + 1 := by
  induction counters generalizing b with
  | nil => cases here
  | cons first rest ih =>
    cases b with
    | zero =>
      obtain rfl := Option.some.inj here
      simp only [List.set_cons_zero, List.foldr_cons]
      rw [UInt64.add_assoc, UInt64.add_comm 1, UInt64.add_assoc]
    | succ b =>
      simp only [List.set_cons_succ, List.foldr_cons]
      rw [ih here, UInt64.add_assoc]

theorem new_counts : Counts [] (new N) where
  bucket i bound := by
    rw [new, Vector.getElem?_replicate, if_pos bound]
    rfl
  sum := by
    have zeros (n : Nat) : (List.replicate n (0 : UInt64)).foldr (· + ·) 0 = 0 := by
      induction n with
      | zero => rfl
      | succ n ih =>
        rw [List.replicate_succ, List.foldr_cons, ih]
        rfl
    rw [new, Vector.toList_replicate, zeros]
  total := rfl

theorem Counts.record (counts : Counts samples h) (positive : 0 < N) (ticks : UInt64) :
    ∃ h', h.record ticks = some h' ∧ Counts (samples ++ [ticks]) h' := by
  obtain ⟨b, bound, chosen⟩ := bucketOf_lt positive ticks
  obtain ⟨count, counted, here⟩ : ∃ count, count = UInt64.ofNat (samples.countP fun ticks =>
      bucketOf N ticks = some b) ∧ h.buckets[b]? = some count := ⟨_, rfl, counts.bucket b bound⟩
  refine ⟨⟨h.buckets.set b (count + 1) bound, h.total + 1, if ticks > h.max then ticks else h.max⟩,
    ?_, ?_⟩
  · simp only [LatencyHistogram.record, chosen, here, Memmove.store_eq bound,
      Option.bind_eq_bind, Option.bind_some, Option.pure_def]
  · refine ⟨fun i inside => ?_, ?_, ?_⟩
    · rw [List.countP_append, List.countP_singleton, chosen, Vector.getElem?_set bound]
      by_cases same : b = i
      · subst same
        simp only [if_true, decide_true, counted]
        rw [ofNat_add_one]
      · simp only [Option.some.injEq, same, if_false, decide_false, Bool.false_eq_true,
          Nat.add_zero]
        exact counts.bucket i inside
    · rw [Vector.toList_set, foldr_set_add_one (by rwa [Vector.getElem?_toList]), counts.sum]
    · rw [counts.total, List.length_append]
      exact ofNat_add_one _

theorem Counts.recordAll (counts : Counts samples h) (positive : 0 < N) (later : List UInt64) :
    ∃ h', h.recordAll later = some h' ∧ Counts (samples ++ later) h' := by
  induction later generalizing samples h with
  | nil => exact ⟨h, rfl, (List.append_nil samples).symm ▸ counts⟩
  | cons ticks rest ih =>
    obtain ⟨middle, first, counts⟩ := counts.record positive ticks
    obtain ⟨last, run, counts⟩ := ih counts
    refine ⟨last, ?_, ?_⟩
    · simp only [LatencyHistogram.recordAll, first, Option.bind_eq_bind, Option.bind_some, run]
    · rwa [List.append_assoc] at counts

end Counting

section Ranges

variable {hz ticks : UInt64} {i : Nat}

/-- The lower end of a range never exceeds a sample of its bucket. -/
theorem lo_le (steady : hz = 0 ∨ 1000000000 ≤ hz.toNat) (live : ticks ≠ 0)
    (below : i ≤ ticks.toNat.log2) : lo hz i ≤ ticksToNs hz ticks := by
  unfold lo
  split
  · exact UInt64.zero_le
  · exact ticksToNs_mono steady (shift_log2_le live (by omega))

/-- A sample converts to no more than the upper end of its octave's range exactly
when its excess fits. -/
theorem le_hi_iff_excessFits (steady : hz = 0 ∨ 1000000000 ≤ hz.toNat) (live : ticks ≠ 0) :
    ticksToNs hz ticks ≤ hi hz ticks.toNat.log2 ↔ ExcessFits hz ticks := by
  have nonzero : ticks.toNat ≠ 0 := fun zero => live (UInt64.toNat_inj.mp zero)
  have whole : ticks.toNat * 1000000000 = 2 ^ ticks.toNat.log2 * 1000000000 +
      (ticks.toNat - 2 ^ ticks.toNat.log2) * 1000000000 := by
    rw [← Nat.add_mul, Nat.add_sub_cancel' (Nat.log2_self_le nonzero)]
  have grows : 2 ^ ticks.toNat.log2 * 1000000000 / frequency hz ≤
      ticks.toNat * 1000000000 / frequency hz :=
    Nat.div_le_div_right (Nat.mul_le_mul_right _ (Nat.log2_self_le nonzero))
  rw [hi, UInt64.le_iff_toNat_le, toNat_ticksToNs_of_steady steady,
    toNat_ticksToNs_of_steady steady, toNat_shift (log2_lt ticks), ExcessFits,
    ← add_div_eq_div_iff (frequency_pos hz), ← whole]
  exact ⟨fun below => Nat.le_antisymm below grows, fun same => same.le⟩

theorem rangesHold_iff_roundsDown (positive : 0 < N) (steady : hz = 0 ∨ 1000000000 ≤ hz.toNat)
    (samples : List UInt64) : RangesHold N hz samples ↔ RoundsDown N hz samples := by
  constructor
  · intro holds ticks member
    by_cases zero : ticks = 0
    · exact Or.inl zero
    by_cases last : N - 1 ≤ ticks.toNat.log2
    · exact Or.inr (Or.inl last)
    · have inside := Nat.not_le.mp last
      have chosen := bucketOf_live positive zero
      rw [Nat.min_eq_left inside.le] at chosen
      have above := (holds ticks member _ chosen).2 inside
      exact Or.inr (Or.inr ((le_hi_iff_excessFits steady zero).mp above))
  · intro rounds ticks member i chosen
    by_cases zero : ticks = 0
    · subst zero
      cases chosen
      exact ⟨UInt64.zero_le, fun _ => ticksToNs_mono steady UInt64.zero_le⟩
    · rw [bucketOf_live positive zero, Option.some.injEq] at chosen
      refine ⟨lo_le steady zero (by omega), fun inside => ?_⟩
      obtain rfl : i = ticks.toNat.log2 := by omega
      rcases rounds ticks member with none | last | fits
      · exact absurd none zero
      · omega
      · exact (le_hi_iff_excessFits steady zero).mpr fits

end Ranges

end LatencyHistogram

open LatencyHistogram

/-- The counters are exact for every list of samples, and the printed ranges
contain the samples exactly when each of them is hardly more than a power of
two, or in the last bucket. -/
theorem printed_ranges_hold_iff_samples_round_down (N : Nat) (positive : 1 ≤ N) (hz : UInt64)
    (steady : hz = 0 ∨ 1000000000 ≤ hz.toNat) (samples : List UInt64) :
    ∃ h, (LatencyHistogram.new N).recordAll samples = some h ∧ Counts samples h ∧
      (RangesHold N hz samples ↔ RoundsDown N hz samples) := by
  obtain ⟨h, run, counts⟩ := (new_counts (N := N)).recordAll positive samples
  exact ⟨h, run, counts, rangesHold_iff_roundsDown positive steady samples⟩

/-- At three gigahertz five ticks convert to the one nanosecond of four. -/
theorem printed_ranges_hold_for_four_and_five :
    ∃ h, (LatencyHistogram.new 64).recordAll [0, 1, 4, 5] = some h ∧ Counts [0, 1, 4, 5] h ∧
      RangesHold 64 3000000000 [0, 1, 4, 5] := by
  obtain ⟨h, run, counts, holds⟩ := printed_ranges_hold_iff_samples_round_down 64 (by decide)
    3000000000 (Or.inr (by decide)) [0, 1, 4, 5]
  exact ⟨h, run, counts, holds.mpr (by decide)⟩

/-- A sample of three nanoseconds is printed between one and two. -/
theorem three_ticks_printed_below_two :
    ((LatencyHistogram.new 64).recordAll [3]).map (summaryRows · 1000000000) = some [(1, 2, 1)] ∧
      ¬ RangesHold 64 1000000000 [3] := by
  refine ⟨by decide +kernel, fun holds => ?_⟩
  have above := (holds 3 (List.mem_singleton_self 3) 1 (by decide)).2 (by decide)
  exact absurd above (by decide)

end FeedHandler
