import Concurrente.Calendar
import Concurrente.OmpMpi.Paths

/-!
# The simulated time in the report

`write_result` multiplies two unsigned numbers and converts the product to a `time_t`;
`format_time` writes it as the time since 1970.
-/

namespace Concurrente.OmpMpi

open CString Calendar

/-- `%0*d`. -/
def padded (width : ℕ) (n : ℤ) : Text :=
  let digits := decimal n.natAbs
  if n < 0 then '-' :: (List.replicate (width - 1 - digits.length) '0' ++ digits)
  else List.replicate (width - digits.length) '0' ++ digits

/-- The years, months and days since 1970 and the time of day; `none` when the result of
`gmtime_r` is a null pointer, which is dereferenced. -/
def formatTime (seconds : ℤ) (capacity : ℕ) : Option Text :=
  (gmtimeR seconds).map fun gmt => snprintf capacity
    (padded 4 (gmt.year - 70) ++ '/' :: padded 2 gmt.mon ++ '/' :: padded 2 (gmt.mday - 1) ++
      '\t' :: padded 2 gmt.hour ++ ':' :: padded 2 gmt.min ++ ':' :: padded 2 gmt.sec)

/-- The product of `write_result`, as a `time_t`. -/
def simulatedSeconds (kStates intervalDuration : ℕ) : ℤ :=
  (BitVec.ofNat 64 (kStates * intervalDuration)).toInt

/-- The capacity of `formatted_time`. -/
def formattedTime (kStates intervalDuration : ℕ) : Option Text :=
  formatTime (simulatedSeconds kStates intervalDuration) 50

/-- The report stands for the product of the two numbers. -/
structure TimeExact (kStates intervalDuration : ℕ) : Prop where
  product : simulatedSeconds kStates intervalDuration = kStates * intervalDuration
  nonneg : 0 ≤ simulatedSeconds kStates intervalDuration
  notNull : formattedTime kStates intervalDuration ≠ none

theorem simulatedSeconds_eq_iff {kStates intervalDuration : ℕ} :
    simulatedSeconds kStates intervalDuration = kStates * intervalDuration ↔
      kStates * intervalDuration < 2 ^ 63 := by
  rw [simulatedSeconds, ← Nat.cast_mul]
  generalize kStates * intervalDuration = n
  rw [BitVec.toInt_eq_toNat_cond, BitVec.toNat_ofNat]
  constructor
  · intro h
    split_ifs at h <;> omega
  · intro h
    rw [Nat.mod_eq_of_lt (by omega), if_pos (by omega)]

theorem formatTime_isSome {seconds : ℤ} {capacity : ℕ} :
    formatTime seconds capacity ≠ none ↔ (gmtimeR seconds).isSome := by
  rw [formatTime, Option.isSome_iff_ne_none, ne_eq, Option.map_eq_none_iff]

/-- The simulated time is exact up to the last second that `gmtime_r` converts. -/
theorem timeExact_iff (kStates intervalDuration : ℕ) : TimeExact kStates intervalDuration ↔
    kStates * intervalDuration < 67768036191676800 := by
  have hcast : (kStates * intervalDuration : ℤ) = ((kStates * intervalDuration : ℕ) : ℤ) :=
    (Nat.cast_mul _ _).symm
  constructor
  · rintro ⟨hproduct, hnonneg, hnull⟩
    rw [formattedTime, formatTime_isSome, gmtimeR_isSome_iff hnonneg, hproduct, hcast] at hnull
    exact Nat.cast_lt.mp hnull
  · intro h
    have hproduct : simulatedSeconds kStates intervalDuration = kStates * intervalDuration :=
      simulatedSeconds_eq_iff.mpr (by omega)
    have hnonneg : 0 ≤ simulatedSeconds kStates intervalDuration := by
      rw [hproduct, hcast]
      exact Nat.cast_nonneg _
    refine ⟨hproduct, hnonneg, ?_⟩
    rw [formattedTime, formatTime_isSome, gmtimeR_isSome_iff hnonneg, hproduct, hcast]
    exact Nat.cast_lt.mpr h

/-- One state of `10 ^ 17` seconds, and two of `2 ^ 63`. -/
theorem long_intervals : ¬ TimeExact 1 (10 ^ 17) ∧ ¬ TimeExact 2 (2 ^ 63) := by
  constructor
  · rw [timeExact_iff]
    norm_num
  · rw [timeExact_iff]
    norm_num

end Concurrente.OmpMpi
