import Mathlib.Tactic

/-!
# Machine integers

The values of an integer type are the integers in its range.  An operation computes in the
integers, and its result is fitted to the type: a signed result outside of the range is
undefined, an unsigned one wraps.  A conversion wraps in either case.
-/

namespace Concurrente

theorem one_lt_word : 1 < 2 ^ 64 := by decide

structure IntType where
  bits : ℕ
  signed : Bool
  pos : 0 < bits

namespace IntType

def short : IntType := ⟨16, true, by norm_num⟩

def ushort : IntType := ⟨16, false, by norm_num⟩

def int : IntType := ⟨32, true, by norm_num⟩

def uint : IntType := ⟨32, false, by norm_num⟩

def long : IntType := ⟨64, true, by norm_num⟩

def ulong : IntType := ⟨64, false, by norm_num⟩

variable (τ : IntType)

def min : ℤ := if τ.signed then -2 ^ (τ.bits - 1) else 0

def max : ℤ := if τ.signed then 2 ^ (τ.bits - 1) - 1 else 2 ^ τ.bits - 1

def InRange (x : ℤ) : Prop := τ.min ≤ x ∧ x ≤ τ.max

instance : DecidablePred τ.InRange := fun x => inferInstanceAs (Decidable (τ.min ≤ x ∧ x ≤ τ.max))

/-- The value of the type that is congruent modulo two to the number of bits. -/
def convert (x : ℤ) : ℤ := τ.min + (x - τ.min) % 2 ^ τ.bits

def fit (x : ℤ) : Option ℤ :=
  if τ.InRange x then some x else if τ.signed then none else some (τ.convert x)

/-- Types that are narrower than `int` are promoted to it. -/
def promote : IntType := if τ.bits < 32 then int else τ

def add (a b : ℤ) : Option ℤ := τ.fit (a + b)

def sub (a b : ℤ) : Option ℤ := τ.fit (a - b)

def mul (a b : ℤ) : Option ℤ := τ.fit (a * b)

def div (a b : ℤ) : Option ℤ := if b = 0 then none else τ.fit (a.tdiv b)

/-- A remainder is defined where its quotient is. -/
def rem (a b : ℤ) : Option ℤ := (τ.div a b).map fun _ => a.tmod b

variable {τ} {a b x : ℤ}

theorem max_eq : τ.max = τ.min + 2 ^ τ.bits - 1 := by
  obtain ⟨bits, signed, pos⟩ := τ
  obtain ⟨n, rfl⟩ : ∃ n, bits = n + 1 := ⟨bits - 1, by omega⟩
  cases signed with
  | false => simp [max, min]
  | true =>
    simp only [max, min, if_true, Nat.add_sub_cancel, pow_succ]
    ring

theorem convert_eq_iff : τ.convert x = x ↔ τ.InRange x := by
  have hpow : (0 : ℤ) < 2 ^ τ.bits := by positivity
  rw [InRange, max_eq, convert]
  constructor
  · intro h
    have h0 := Int.emod_nonneg (x - τ.min) hpow.ne'
    have h1 := Int.emod_lt_of_pos (x - τ.min) hpow
    omega
  · rintro ⟨h0, h1⟩
    rw [Int.emod_eq_of_lt (by omega) (by omega)]
    omega

theorem convert_inRange (x : ℤ) : τ.InRange (τ.convert x) := by
  have hpow : (0 : ℤ) < 2 ^ τ.bits := by positivity
  have h0 := Int.emod_nonneg (x - τ.min) hpow.ne'
  have h1 := Int.emod_lt_of_pos (x - τ.min) hpow
  rw [InRange, max_eq, convert]
  omega

theorem fit_eq (h : τ.InRange x) : τ.fit x = some x := if_pos h

theorem fit_eq_iff : τ.fit x = some x ↔ τ.InRange x := by
  refine ⟨fun h => ?_, fit_eq⟩
  by_contra hx
  rw [fit, if_neg hx] at h
  split_ifs at h
  exact hx (convert_eq_iff.mp (Option.some.inj h))

theorem add_eq (h : τ.InRange (a + b)) : τ.add a b = some (a + b) := fit_eq h

theorem sub_eq (h : τ.InRange (a - b)) : τ.sub a b = some (a - b) := fit_eq h

theorem mul_eq (h : τ.InRange (a * b)) : τ.mul a b = some (a * b) := fit_eq h

theorem div_eq (h : τ.InRange (a / b)) (ha : 0 ≤ a) (hb : 0 < b) : τ.div a b = some (a / b) := by
  rw [div, if_neg hb.ne', Int.tdiv_eq_ediv_of_nonneg ha]
  exact fit_eq h

theorem rem_eq (h : τ.InRange (a / b)) (ha : 0 ≤ a) (hb : 0 < b) : τ.rem a b = some (a % b) := by
  rw [rem, div_eq h ha hb, Option.map_some, Int.tmod_eq_emod_of_nonneg ha]

theorem InRange.of_between {lo hi : ℤ} (hlo : τ.InRange lo) (hhi : τ.InRange hi) (h : lo ≤ x)
    (h' : x ≤ hi) : τ.InRange x :=
  ⟨hlo.1.trans h, h'.trans hhi.2⟩

theorem zero_inRange : τ.InRange 0 := by
  have hpow : (0 : ℤ) < 2 ^ (τ.bits - 1) := by positivity
  have hpow' : (0 : ℤ) < 2 ^ τ.bits := by positivity
  rw [InRange, min, max]
  split_ifs <;> omega

theorem int_inRange_iff : int.InRange x ↔ -2147483648 ≤ x ∧ x ≤ 2147483647 := by
  norm_num [InRange, min, max, int]

end IntType

end Concurrente
