import Mathlib.Data.Nat.Size
import Mathlib.Tactic

/-!
# Doubles

The finite values of a `double` are the rational numbers with at most 53 significant bits and
a bounded exponent; the two zeros are one value.  An integer is converted to the nearest
double, and of two that are equally near to the even one.
-/

namespace Concurrente

def IsDouble (x : ℚ) : Prop :=
  ∃ m e : ℤ, |m| < 2 ^ 53 ∧ -1074 ≤ e ∧ e ≤ 971 ∧ x = m * 2 ^ e

abbrev Double : Type := {x : ℚ // IsDouble x}

namespace Double

/-- The smallest positive number with all 53 bits, which `numeric_limits` calls the minimum. -/
def smallestNormal : Double :=
  ⟨2 ^ (-1022 : ℤ), 1, -1022, by norm_num, by norm_num, by norm_num, by simp⟩

def largest : Double :=
  ⟨(2 ^ 53 - 1) * 2 ^ (971 : ℤ), 2 ^ 53 - 1, 971, by norm_num, by norm_num, by norm_num,
    by norm_num⟩

def ofInt (n : ℤ) (h : |n| < 2 ^ 53) : Double :=
  ⟨n, n, 0, h, by norm_num, by norm_num, by rw [zpow_zero, mul_one]⟩

theorem le_largest (x : Double) : x ≤ largest := by
  obtain ⟨x, m, e, hm, -, he, rfl⟩ := x
  have hm' : (m : ℚ) ≤ 2 ^ 53 - 1 := by
    have := (abs_lt.mp hm).2
    exact_mod_cast Int.le_sub_one_of_lt this
  have he' : (2 : ℚ) ^ e ≤ 2 ^ (971 : ℤ) := zpow_le_zpow_right₀ (by norm_num) he
  have hpos : (0 : ℚ) < 2 ^ e := by positivity
  calc (m : ℚ) * 2 ^ e ≤ (2 ^ 53 - 1) * 2 ^ e := mul_le_mul_of_nonneg_right hm' hpos.le
    _ ≤ (2 ^ 53 - 1) * 2 ^ (971 : ℤ) := mul_le_mul_of_nonneg_left he' (by norm_num)

theorem smallestNormal_pos : (0 : ℚ) < smallestNormal.1 := by
  show (0 : ℚ) < 2 ^ (-1022 : ℤ)
  positivity

end Double

def lostBits (n : ℕ) : ℕ := n.size - 53

def roundBits (n : ℕ) : ℕ :=
  let unit := 2 ^ lostBits n
  let quotient := n / unit
  let remainder := n % unit
  (if unit < 2 * remainder ∨ unit = 2 * remainder ∧ quotient % 2 = 1 then quotient + 1
    else quotient) * unit

/-- The conversion to `double`. -/
def toDouble (n : ℤ) : ℚ := if n < 0 then -(roundBits n.natAbs : ℚ) else (roundBits n.natAbs : ℚ)

section Round

variable {n : ℕ}

theorem roundBits_eq_iff : roundBits n = n ↔ 2 ^ lostBits n ∣ n := by
  have hunit : 0 < 2 ^ lostBits n := by positivity
  have hdiv := Nat.div_add_mod n (2 ^ lostBits n)
  have hlt := Nat.mod_lt n hunit
  rw [Nat.dvd_iff_mod_eq_zero, roundBits]
  generalize 2 ^ lostBits n = unit at *
  have hcomm : n / unit * unit = unit * (n / unit) := Nat.mul_comm _ _
  split_ifs with h
  · rw [Nat.add_mul, Nat.one_mul]
    omega
  · omega

theorem lt_pow_lostBits (n : ℕ) : n < 2 ^ (53 + lostBits n) := by
  refine (Nat.lt_size_self n).trans_le (Nat.pow_le_pow_right (by norm_num) ?_)
  rw [lostBits]
  omega

theorem dvd_of_bits {m k : ℕ} (hm : m < 2 ^ 53) (hn : n = m * 2 ^ k) : 2 ^ lostBits n ∣ n := by
  have hle : lostBits n ≤ k := by
    have hsize : n.size ≤ 53 + k := by
      rw [Nat.size_le, hn, pow_add]
      exact Nat.mul_lt_mul_of_pos_right hm (by positivity)
    rw [lostBits]
    omega
  have hdvd : 2 ^ k ∣ n := hn ▸ Dvd.intro_left m rfl
  exact (pow_dvd_pow 2 hle).trans hdvd

end Round

theorem toDouble_eq_iff_roundBits {n : ℤ} : toDouble n = n ↔ roundBits n.natAbs = n.natAbs := by
  rw [toDouble]
  split_ifs with h
  · have hn : (n : ℚ) = -((n.natAbs : ℤ) : ℚ) := by
      rw [Int.ofNat_natAbs_of_nonpos h.le]
      push_cast
      ring
    rw [hn, neg_inj]
    norm_cast
  · have hn : (n : ℚ) = ((n.natAbs : ℤ) : ℚ) := by rw [Int.natAbs_of_nonneg (by omega)]
    rw [hn]
    norm_cast

theorem isDouble_of_dvd {n : ℤ} (h : n.natAbs < 2 ^ 1024)
    (hdvd : 2 ^ lostBits n.natAbs ∣ n.natAbs) : IsDouble n := by
  obtain ⟨m, hm⟩ := hdvd
  have hlost : lostBits n.natAbs ≤ 971 := by
    have := Nat.size_le.mpr h
    rw [lostBits]
    omega
  have hlt : m < 2 ^ 53 := by
    have hn := lt_pow_lostBits n.natAbs
    rw [pow_add, Nat.mul_comm] at hn
    have hn' : 2 ^ lostBits n.natAbs * m < 2 ^ lostBits n.natAbs * 2 ^ 53 := by rwa [← hm]
    exact Nat.lt_of_mul_lt_mul_left hn'
  generalize lostBits n.natAbs = k at hm hlost
  refine ⟨n.sign * m, k, ?_, by omega, by omega, ?_⟩
  · have hsign : |n.sign| ≤ 1 := by
      rcases lt_trichotomy n 0 with hn | rfl | hn
      · simp [Int.sign_eq_neg_one_of_neg hn]
      · simp
      · simp [Int.sign_eq_one_of_pos hn]
    rw [abs_mul, Nat.abs_cast]
    calc |n.sign| * (m : ℤ) ≤ 1 * m := mul_le_mul_of_nonneg_right hsign (by omega)
      _ < 2 ^ 53 := by exact_mod_cast (Nat.one_mul m).symm ▸ hlt
  · have hn : (n : ℚ) = (n.sign * n.natAbs : ℤ) := by rw [Int.sign_mul_natAbs]
    rw [hn, hm]
    push_cast
    rw [zpow_natCast]
    ring

theorem IsDouble.dvd {n : ℤ} (h : IsDouble n) : 2 ^ lostBits n.natAbs ∣ n.natAbs := by
  obtain ⟨m, e, hm, -, -, hn⟩ := h
  have hm' : m.natAbs < 2 ^ 53 := by
    have : (m.natAbs : ℤ) < 2 ^ 53 := by rwa [Int.natCast_natAbs]
    exact_mod_cast this
  -- a negative exponent of an integer only shortens the mantissa
  obtain he | he := le_or_gt 0 e
  · obtain ⟨k, rfl⟩ := Int.eq_ofNat_of_zero_le he
    have hn' : n = m * 2 ^ k := by
      rw [zpow_natCast] at hn
      exact_mod_cast hn
    have habs : n.natAbs = m.natAbs * 2 ^ k := by
      rw [hn', Int.natAbs_mul, Int.natAbs_pow]
      rfl
    exact dvd_of_bits hm' habs
  · obtain ⟨k, hk⟩ := Int.eq_ofNat_of_zero_le (show 0 ≤ -e by omega)
    have hn' : n * 2 ^ k = m := by
      have hpow : (2 : ℚ) ^ e * 2 ^ k = 1 := by
        rw [← zpow_natCast, ← zpow_add₀ (by norm_num), show e + (k : ℤ) = 0 by omega, zpow_zero]
      have : (n : ℚ) * 2 ^ k = m := by rw [hn, mul_assoc, hpow, mul_one]
      exact_mod_cast this
    have hle : n.natAbs ≤ m.natAbs := by
      rw [← hn', Int.natAbs_mul, Int.natAbs_pow]
      exact Nat.le_mul_of_pos_right _ (by positivity)
    exact dvd_of_bits (k := 0) (hle.trans_lt hm') (by omega)

theorem toDouble_eq_iff {n : ℤ} (h : n.natAbs < 2 ^ 1024) : toDouble n = n ↔ IsDouble n := by
  rw [toDouble_eq_iff_roundBits, roundBits_eq_iff]
  exact ⟨isDouble_of_dvd h, IsDouble.dvd⟩

end Concurrente
