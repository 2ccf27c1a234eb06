import FeedHandler.Types

namespace FeedHandler

/-- `u64::saturating_mul`. -/
def saturatingMul (a b : UInt64) : UInt64 :=
  if a.toNat * b.toNat < 2 ^ 64 then a * b else 0xffffffffffffffff

/-- `u64::checked_div`. -/
def checkedDiv (a b : UInt64) : Option UInt64 := if b = 0 then none else some (a / b)

/-- What `calibrate` makes of its two measurements, stores and returns. -/
def calibrate (elapsedNs elapsedTicks : UInt64) : UInt64 :=
  (checkedDiv (saturatingMul elapsedTicks 1000000000) elapsedNs).getD 3000000000

/-- `ticks_to_ns` under the stored frequency, which is zero until `calibrate`
is called. The product saturates in 128 bits, the quotient is cut to 64. -/
def ticksToNs (hz ticks : UInt64) : UInt64 :=
  if hz = 0 then ticks / 3
  else .ofNat (min (ticks.toNat * 1000000000) (2 ^ 128 - 1) / hz.toNat)

/-- The frequency that `ticks_to_ns` goes by. -/
def frequency (hz : UInt64) : Nat := if hz = 0 then 3000000000 else hz.toNat

section Words

variable {a b hz ticks : UInt64}

theorem ne_zero_of_toNat_pos (positive : 0 < a.toNat) : a ≠ 0 := by
  rintro rfl
  exact Nat.lt_irrefl 0 positive

theorem toNat_saturatingMul :
    (saturatingMul a b).toNat = min (a.toNat * b.toNat) (2 ^ 64 - 1) := by
  unfold saturatingMul
  split
  · rename_i fits
    rw [UInt64.toNat_mul, Nat.mod_eq_of_lt fits, Nat.min_eq_left (by omega)]
  · rename_i large
    change 2 ^ 64 - 1 = _
    omega

theorem toNat_calibrate {elapsedNs : UInt64} (measured : elapsedNs ≠ 0) (elapsedTicks : UInt64) :
    (calibrate elapsedNs elapsedTicks).toNat =
      min (elapsedTicks.toNat * 1000000000) (2 ^ 64 - 1) / elapsedNs.toNat := by
  rw [calibrate, checkedDiv, if_neg measured, Option.getD_some, UInt64.toNat_div,
    toNat_saturatingMul]
  rfl

/-- The 128-bit product never saturates. -/
theorem toNat_ticksToNs (calibrated : hz ≠ 0) :
    (ticksToNs hz ticks).toNat = ticks.toNat * 1000000000 / hz.toNat % 2 ^ 64 := by
  have bound := ticks.toNat_lt
  rw [ticksToNs, if_neg calibrated, UInt64.toNat_ofNat', Nat.min_eq_left (by omega)]

/-- At every frequency, durations that fit in a word keep their order. -/
theorem ticksToNs_le_of_fits (calibrated : hz ≠ 0) (order : a ≤ b)
    (fits : b.toNat * 1000000000 / hz.toNat < 2 ^ 64) : ticksToNs hz a ≤ ticksToNs hz b := by
  have less : a.toNat * 1000000000 / hz.toNat ≤ b.toNat * 1000000000 / hz.toNat :=
    Nat.div_le_div_right (Nat.mul_le_mul_right _ (UInt64.le_iff_toNat_le.mp order))
  rwa [UInt64.le_iff_toNat_le, toNat_ticksToNs calibrated, toNat_ticksToNs calibrated,
    Nat.mod_eq_of_lt (less.trans_lt fits), Nat.mod_eq_of_lt fits]

/-- From one gigahertz on, a tick is no longer than a nanosecond and nothing is cut. -/
theorem fits_of_fast (fast : 1000000000 ≤ hz.toNat) (ticks : UInt64) :
    ticks.toNat * 1000000000 / hz.toNat < 2 ^ 64 := by
  have positive : 0 < hz.toNat := by omega
  refine (Nat.div_le_of_le_mul ?_).trans_lt ticks.toNat_lt
  calc ticks.toNat * 1000000000 ≤ ticks.toNat * hz.toNat := Nat.mul_le_mul_left _ fast
    _ = hz.toNat * ticks.toNat := Nat.mul_comm _ _

theorem ticksToNs_mono (steady : hz = 0 ∨ 1000000000 ≤ hz.toNat) (order : a ≤ b) :
    ticksToNs hz a ≤ ticksToNs hz b := by
  rcases steady with uncalibrated | fast
  · rw [UInt64.le_iff_toNat_le] at order ⊢
    simp only [ticksToNs, if_pos uncalibrated, UInt64.toNat_div]
    exact Nat.div_le_div_right order
  · exact ticksToNs_le_of_fits (ne_zero_of_toNat_pos (by omega)) order (fits_of_fast fast b)

theorem frequency_pos (hz : UInt64) : 0 < frequency hz := by
  unfold frequency
  split
  · decide
  · rename_i calibrated
    exact UInt64.lt_iff_toNat_lt.mp (UInt64.pos_iff_ne_zero.mpr calibrated)

/-- Where nothing is cut, the conversion is one floor division. -/
theorem toNat_ticksToNs_of_steady (steady : hz = 0 ∨ 1000000000 ≤ hz.toNat) :
    (ticksToNs hz ticks).toNat = ticks.toNat * 1000000000 / frequency hz := by
  rcases steady with uncalibrated | fast
  · rw [ticksToNs, frequency, if_pos uncalibrated, if_pos uncalibrated, UInt64.toNat_div]
    exact (Nat.mul_div_mul_right ticks.toNat 3 (by decide : 0 < 1000000000)).symm
  · have calibrated : hz ≠ 0 := ne_zero_of_toNat_pos (by omega)
    rw [toNat_ticksToNs calibrated, frequency, if_neg calibrated,
      Nat.mod_eq_of_lt (fits_of_fast fast ticks)]

/-- Below one gigahertz the conversion wraps inside the range of the counter:
the last tick count before the wrap converts to far more than the next one. -/
theorem exists_wrap (slow : hz.toNat < 1000000000) (calibrated : hz ≠ 0) :
    ∃ a b : UInt64, a ≤ b ∧ ¬ ticksToNs hz a ≤ ticksToNs hz b := by
  obtain ⟨h, rate⟩ : ∃ h, h = hz.toNat := ⟨_, rfl⟩
  have positive : 0 < h := rate ▸ UInt64.lt_iff_toNat_lt.mp (UInt64.pos_iff_ne_zero.mpr calibrated)
  obtain ⟨n, last⟩ : ∃ n, n = (2 ^ 64 * h - 1) / 1000000000 := ⟨_, rfl⟩
  have inside : n + 1 < 2 ^ 64 := by omega
  have before : (UInt64.ofNat n).toNat = n := UInt64.toNat_ofNat_of_lt' (Nat.lt_of_succ_lt inside)
  have after : (UInt64.ofNat (n + 1)).toNat = n + 1 := UInt64.toNat_ofNat_of_lt' inside
  have short : n * 1000000000 / h < 2 ^ 64 := (Nat.div_lt_iff_lt_mul positive).mpr (by omega)
  have high : 2 ^ 63 ≤ n * 1000000000 / h := (Nat.le_div_iff_mul_le positive).mpr (by omega)
  have wrapped : 2 ^ 64 ≤ (n + 1) * 1000000000 / h :=
    (Nat.le_div_iff_mul_le positive).mpr (by omega)
  have low : (n + 1) * 1000000000 / h < 2 ^ 64 + 2 ^ 63 :=
    (Nat.div_lt_iff_lt_mul positive).mpr (by omega)
  refine ⟨.ofNat n, .ofNat (n + 1), ?_, ?_⟩
  · rw [UInt64.le_iff_toNat_le, before, after]
    exact Nat.le_succ n
  · rw [UInt64.le_iff_toNat_le, toNat_ticksToNs calibrated, toNat_ticksToNs calibrated, before,
      after, ← rate, Nat.mod_eq_of_lt short]
    omega

end Words

/-- No longer span of ticks converts to fewer nanoseconds. -/
def KeepsOrder (hz : UInt64) : Prop := ∀ a b, a ≤ b → ticksToNs hz a ≤ ticksToNs hz b

/-- The conversion keeps the order of all tick counts exactly at the frequencies
from one gigahertz on, and uncalibrated. -/
theorem keeps_order_iff_gigahertz (hz : UInt64) :
    KeepsOrder hz ↔ hz = 0 ∨ 1000000000 ≤ hz.toNat := by
  constructor
  · intro keeps
    by_contra neither
    obtain ⟨calibrated, slow⟩ := not_or.mp neither
    obtain ⟨a, b, order, wraps⟩ := exists_wrap (Nat.not_le.mp slow) calibrated
    exact wraps (keeps a b order)
  · exact fun steady a b order => ticksToNs_mono steady order

/-- A counter one tick short in a tenth of a second of nanoseconds: the longest
span converts to three minutes, half of it to three centuries. -/
theorem slow_counter_reverses_the_order :
    calibrate 100000000 99999999 = 999999990 ∧
      ticksToNs 999999990 9223372036854775808 = 9223372129088497098 ∧
      ticksToNs 999999990 18446744073709551615 = 184467442580 ∧ ¬ KeepsOrder 999999990 := by
  refine ⟨by decide, by decide, by decide, fun keeps => ?_⟩
  exact absurd (keeps 9223372036854775808 18446744073709551615 (by decide)) (by decide)

section Rounding

variable {n d e h p : Nat}

/-- A quotient stays the same as long as what is added does not fill up the
remainder. -/
theorem add_div_eq_div_iff (positive : 0 < h) : (n + d) / h = n / h ↔ n % h + d < h := by
  have split : (n + d) / h = n / h + (n % h + d) / h := by
    conv_lhs => rw [← Nat.div_add_mod n h, Nat.add_assoc, Nat.mul_add_div positive]
  rw [split, Nat.add_eq_left, Nat.div_eq_zero_iff_lt positive]

/-- Dividing by a rounded-down rate can only lengthen the span. -/
theorem le_div_rate (rounded : h * e ≤ n) (positive : 0 < h) : e ≤ n / h :=
  (Nat.le_div_iff_mul_le positive).mpr (Nat.mul_comm h e ▸ rounded)

/-- It lengthens the span by less than one rate of it, rounded up. -/
theorem div_rate_le (rounded : n < (h + 1) * e) (positive : 0 < h) : n / h ≤ e + e / h := by
  refine Nat.le_of_lt_succ ((Nat.div_lt_iff_lt_mul positive).mpr ?_)
  have rest : e < (e / h + 1) * h := Nat.lt_mul_of_div_lt (Nat.lt_succ_self _) positive
  calc n < h * e + e := by rwa [Nat.succ_mul] at rounded
    _ < h * e + (e / h + 1) * h := Nat.add_lt_add_left rest _
    _ = (e + e / h + 1) * h := by rw [Nat.mul_comm h e, ← Nat.add_mul, Nat.add_assoc]

/-- A span far past the top of 64 bits, divided by the rate that the top gives,
comes out longer than any rounding allows, and still fits in 64 bits. -/
theorem capped_rate_overshoots (positive : 0 < e) (past : 2 ^ 64 + e + 2 ^ 64 / e ≤ p)
    (inside : p * e < 2 ^ 64 * (2 ^ 64 - e)) :
    2 ^ 64 ≤ p ∧ e < 2 ^ 63 ∧ p / ((2 ^ 64 - 1) / e) < 2 ^ 64 ∧
      e + e / ((2 ^ 64 - 1) / e) < p / ((2 ^ 64 - 1) / e) := by
  obtain ⟨h, rate⟩ : ∃ h, h = (2 ^ 64 - 1) / e := ⟨_, rfl⟩
  have top : 2 ^ 64 ≤ p := ((Nat.le_add_right _ _).trans (Nat.le_add_right _ _)).trans past
  have short : e < 2 ^ 63 := by
    by_contra long
    have big : 2 ^ 64 * e ≤ p * e := Nat.mul_le_mul_right e top
    have small : 2 ^ 64 * (2 ^ 64 - e) ≤ 2 ^ 64 * e := Nat.mul_le_mul_left _ (by omega)
    omega
  have low : 2 ^ 64 - e ≤ h * e := by
    have rest := Nat.lt_mul_div_succ (2 ^ 64 - 1) positive
    rw [← rate, Nat.mul_comm, Nat.succ_mul] at rest
    omega
  have runs : 0 < h := rate ▸ Nat.div_pos (by omega) positive
  rw [← rate]
  refine ⟨top, short, (Nat.div_lt_iff_lt_mul runs).mpr ?_, (Nat.le_div_iff_mul_le runs).mpr ?_⟩
  · refine Nat.lt_of_mul_lt_mul_right (a := e) (inside.trans_le ?_)
    rw [Nat.mul_assoc]
    exact Nat.mul_le_mul_left _ low
  · have whole : h * e ≤ 2 ^ 64 - 1 := rate ▸ Nat.div_mul_le_self _ e
    have part : e / h * h ≤ e := Nat.div_mul_le_self e h
    have most : h ≤ 2 ^ 64 / e := rate ▸ Nat.div_le_div_right (by decide)
    rw [Nat.succ_mul, Nat.add_mul, Nat.mul_comm e h]
    omega

end Rounding

/-- The frequency is usable, and converting the measured window back recovers
its duration up to the rounding of the frequency. -/
def WindowRecovers (elapsedTicks elapsedNs : UInt64) : Prop :=
  let hz := calibrate elapsedNs elapsedTicks
  1 ≤ hz ∧ (elapsedNs.toNat + elapsedNs.toNat / hz.toNat < 2 ^ 64 →
    elapsedNs ≤ ticksToNs hz elapsedTicks ∧
    (ticksToNs hz elapsedTicks).toNat ≤ elapsedNs.toNat + elapsedNs.toNat / hz.toNat)

/-- The product that `calibrate` forms is past the top of 64 bits by more than
any rounding, yet not so far that the window converted at the capped frequency
leaves them too. -/
structure SaturatesFar (elapsedTicks elapsedNs : UInt64) : Prop where
  past : 2 ^ 64 + elapsedNs.toNat + 2 ^ 64 / elapsedNs.toNat ≤ elapsedTicks.toNat * 1000000000
  inside : elapsedTicks.toNat * 1000000000 * elapsedNs.toNat < 2 ^ 64 * (2 ^ 64 - elapsedNs.toNat)

/-- Where the product fits, the two floor divisions lose no more than the
rounding of the frequency. -/
theorem recovers_of_fits {n e : Nat} (positive : 0 < e) (usable : e ≤ n) :
    e ≤ n / (n / e) ∧ n / (n / e) ≤ e + e / (n / e) := by
  have rate : 0 < n / e := Nat.div_pos usable positive
  exact ⟨le_div_rate (Nat.div_mul_le_self n e) rate,
    div_rate_le (Nat.mul_comm e _ ▸ Nat.lt_mul_div_succ n positive) rate⟩

section Window

variable {elapsedTicks elapsedNs : UInt64}

theorem WindowRecovers.of_fits (positive : 0 < elapsedNs.toNat)
    (usable : elapsedNs.toNat ≤ elapsedTicks.toNat * 1000000000)
    (fits : elapsedTicks.toNat * 1000000000 < 2 ^ 64) : WindowRecovers elapsedTicks elapsedNs := by
  have rate := toNat_calibrate (ne_zero_of_toNat_pos positive) elapsedTicks
  rw [Nat.min_eq_left (by omega)] at rate
  have runs : 0 < (calibrate elapsedNs elapsedTicks).toNat := rate ▸ Nat.div_pos usable positive
  have recovered := recovers_of_fits positive usable
  rw [← rate] at recovered
  refine ⟨UInt64.le_iff_toNat_le.mpr runs, fun bound => ?_⟩
  rw [UInt64.le_iff_toNat_le, toNat_ticksToNs (ne_zero_of_toNat_pos runs),
    Nat.mod_eq_of_lt (recovered.2.trans_lt bound)]
  exact recovered

theorem SaturatesFar.not_recovers (positive : 0 < elapsedNs.toNat)
    (far : SaturatesFar elapsedTicks elapsedNs) : ¬ WindowRecovers elapsedTicks elapsedNs := by
  intro ⟨usable, recovers⟩
  obtain ⟨top, short, inside, beyond⟩ := capped_rate_overshoots positive far.past far.inside
  have rate := toNat_calibrate (ne_zero_of_toNat_pos positive) elapsedTicks
  rw [Nat.min_eq_right ((Nat.sub_le _ _).trans top)] at rate
  rw [← rate] at inside beyond
  have half : elapsedNs.toNat / (calibrate elapsedNs elapsedTicks).toNat ≤ elapsedNs.toNat :=
    Nat.div_le_self _ _
  have above := (recovers (by omega)).2
  rw [toNat_ticksToNs (ne_zero_of_toNat_pos (UInt64.le_iff_toNat_le.mp usable)),
    Nat.mod_eq_of_lt inside] at above
  exact absurd beyond (Nat.not_lt.mpr above)

end Window

/-- For every measured pair calibration and conversion agree while the product
of `calibrate` fits in 64 bits. Once it saturates, a window far past that limit
never converts back. -/
theorem window_recovers_while_product_fits (elapsedTicks elapsedNs : UInt64)
    (passed : 1 ≤ elapsedNs) (usable : elapsedNs.toNat ≤ elapsedTicks.toNat * 1000000000) :
    (elapsedTicks.toNat * 1000000000 < 2 ^ 64 → WindowRecovers elapsedTicks elapsedNs) ∧
      (SaturatesFar elapsedTicks elapsedNs → ¬ WindowRecovers elapsedTicks elapsedNs) := by
  have positive : 0 < elapsedNs.toNat := UInt64.le_iff_toNat_le.mp passed
  exact ⟨fun fits => .of_fits positive usable fits, fun far => far.not_recovers positive⟩

/-- A tenth of a second at three gigahertz converts back, a minute does not. -/
theorem tenth_recovers_minute_does_not :
    WindowRecovers 300000000 100000000 ∧ ¬ WindowRecovers 180000000000 60000000000 :=
  ⟨(window_recovers_while_product_fits 300000000 100000000 (by decide) (by decide)).1 (by decide),
    (window_recovers_while_product_fits 180000000000 60000000000 (by decide) (by decide)).2
      ⟨by decide, by decide⟩⟩

/-- Ten seconds at three gigahertz: the product saturates, the frequency comes
out too low and the window converts back to more than sixteen seconds. -/
theorem ten_seconds_do_not_recover :
    calibrate 10000000000 30000000000 = 1844674407 ∧
      ticksToNs 1844674407 30000000000 = 16263032590 ∧
      ¬ WindowRecovers 30000000000 10000000000 := by
  refine ⟨by decide, by decide, fun recovers => ?_⟩
  exact absurd (recovers.2 (by decide)).2 (by decide)

end FeedHandler
