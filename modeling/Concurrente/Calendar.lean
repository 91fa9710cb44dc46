import Concurrente.CString

/-!
# The Gregorian calendar

Days since the first of January 1970 and their years, and `gmtime_r` of the C library,
which fails when the year does not fit an `int`.
-/

namespace Concurrente.Calendar

def leaps (y : ℤ) : ℤ := (y - 1) / 4 - (y - 1) / 100 + (y - 1) / 400

def daysBefore (y : ℤ) : ℤ := 365 * (y - 1970) + (leaps y - leaps 1970)

/-- 400 years have 146097 days; the estimate is at most one year off. -/
def estimate (d : ℤ) : ℤ := 1970 + 400 * d / 146097

def year (d : ℤ) : ℤ :=
  if d < daysBefore (estimate d) then estimate d - 1
  else if daysBefore (estimate d + 1) ≤ d then estimate d + 1
  else estimate d

theorem daysBefore_lt {y y' : ℤ} (h : y < y') : daysBefore y < daysBefore y' := by
  simp only [daysBefore, leaps]
  omega

theorem daysBefore_mono {y y' : ℤ} (h : y ≤ y') : daysBefore y ≤ daysBefore y' := by
  obtain rfl | hlt := h.eq_or_lt
  · exact le_rfl
  · exact (daysBefore_lt hlt).le

theorem estimate_le (d : ℤ) : daysBefore (estimate d - 1) ≤ d := by
  simp only [daysBefore, leaps, estimate]
  omega

theorem lt_estimate (d : ℤ) : d < daysBefore (estimate d + 2) := by
  simp only [daysBefore, leaps, estimate]
  omega

theorem year_spec (d : ℤ) : daysBefore (year d) ≤ d ∧ d < daysBefore (year d + 1) := by
  unfold year
  split_ifs with h1 h2
  · exact ⟨estimate_le d, by rwa [sub_add_cancel]⟩
  · exact ⟨h2, by rw [add_assoc]; exact lt_estimate d⟩
  · exact ⟨not_lt.mp h1, not_le.mp h2⟩

theorem year_le_iff {d y : ℤ} : year d ≤ y ↔ d < daysBefore (y + 1) := by
  obtain ⟨h1, h2⟩ := year_spec d
  constructor
  · intro h
    exact h2.trans_le (daysBefore_mono (by omega))
  · intro h
    by_contra hlt
    have := daysBefore_mono (show y + 1 ≤ year d by omega)
    omega

theorem le_year_iff {d y : ℤ} : y ≤ year d ↔ daysBefore y ≤ d := by
  have h := year_le_iff (d := d) (y := y - 1)
  rw [sub_add_cancel] at h
  omega

/-- `struct tm`, as far as the programs read it. -/
structure Tm where
  year : ℤ
  mon : ℤ
  mday : ℤ
  hour : ℤ
  min : ℤ
  sec : ℤ
  deriving DecidableEq, Repr

def monthLengths (y : ℤ) : List ℤ :=
  [31, daysBefore (y + 1) - daysBefore y - 337, 31, 30, 31, 30, 31, 31, 30, 31, 30, 31]

/-- The month and the day of the month, both from 0. -/
def monthDay (day : ℤ) : List ℤ → ℤ × ℤ
  | [] => (0, day)
  | length :: lengths =>
    if day < length then (0, day)
    else
      let x := monthDay (day - length) lengths
      (x.1 + 1, x.2)

/-- `none` is the null pointer. -/
def gmtimeR (seconds : ℤ) : Option Tm :=
  let days := seconds / 86400
  let second := seconds % 86400
  let tmYear := year days - 1900
  if -2 ^ 31 ≤ tmYear ∧ tmYear < 2 ^ 31 then
    let x := monthDay (days - daysBefore (year days)) (monthLengths (year days))
    some ⟨tmYear, x.1, x.2 + 1, second / 3600, second % 3600 / 60, second % 60⟩
  else none

/-- The first second whose year does not fit. -/
def secondsLimit : ℕ := 67768036191676800

theorem daysBefore_limit : daysBefore (2 ^ 31 + 1900) * 86400 = secondsLimit := by
  simp only [daysBefore, leaps, secondsLimit]
  norm_num

theorem gmtimeR_isSome_iff {seconds : ℤ} (h : 0 ≤ seconds) :
    (gmtimeR seconds).isSome ↔ seconds < secondsLimit := by
  have hlimit := daysBefore_limit
  have hdays : 0 ≤ seconds / 86400 := Int.ediv_nonneg h (by norm_num)
  have hlow : 1970 ≤ year (seconds / 86400) := le_year_iff.mpr hdays
  have hhigh := year_le_iff (d := seconds / 86400) (y := 2 ^ 31 + 1899)
  rw [show (2 : ℤ) ^ 31 + 1899 + 1 = 2 ^ 31 + 1900 by norm_num] at hhigh
  have hfit : (-2 ^ 31 ≤ year (seconds / 86400) - 1900 ∧ year (seconds / 86400) - 1900 < 2 ^ 31) ↔
      seconds < secondsLimit := by omega
  unfold gmtimeR
  simp only [hfit]
  split_ifs with hs <;> simp [hs]

/-- The first of January 2000 and the last day of a leap year. -/
example : gmtimeR 946684800 = some ⟨100, 0, 1, 0, 0, 0⟩ ∧
    gmtimeR 1735689599 = some ⟨124, 11, 31, 23, 59, 59⟩ := by decide

end Concurrente.Calendar
