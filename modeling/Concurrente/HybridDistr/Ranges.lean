import Concurrente.Integers
import Mathlib.Order.Monotone.Basic

/-!
# The ranges of the processes

`calculate_start` and `calculate_finish` of the hybrid distribution programs: the range of
the indices is cut into one block for each worker by a division, a remainder and a minimum,
all of them in `int`.
-/

namespace Concurrente.HybridDistr

open IntType

def calculateStart (rank finish workers begin : ℤ) : Option ℤ := do
  let range ← int.sub finish begin
  let quotient ← int.div range workers
  let offset ← int.mul rank quotient
  let start ← int.add begin offset
  let remainder ← int.rem range workers
  int.add start (Min.min rank remainder)

def calculateFinish (rank finish workers begin : ℤ) : Option ℤ := do
  let next ← int.add rank 1
  calculateStart next finish workers begin

/-- The range of a process in `main`, with its size. -/
def processRange (rank size overallStart overallFinish : ℤ) : Option (ℤ × ℤ × ℤ) := do
  let processStart ← calculateStart rank overallFinish size overallStart
  let processFinish ← calculateFinish rank overallFinish size overallStart
  let processSize ← int.sub processFinish processStart
  some (processStart, processFinish, processSize)

/-- The ranges of `workers` workers: consecutive, from `begin` to `finish`, with every index
in one of them, and the larger ones first. -/
structure Balanced (begin finish : ℤ) (workers : ℕ) (start stop : ℕ → ℤ) : Prop where
  first : start 0 = begin
  last : stop (workers - 1) = finish
  consecutive : ∀ r, r + 1 < workers → stop r = start (r + 1)
  inside : ∀ r < workers, begin ≤ start r ∧ start r ≤ stop r ∧ stop r ≤ finish
  once : ∀ i, begin ≤ i → i < finish → ∃! r, r < workers ∧ start r ≤ i ∧ i < stop r
  larger_first : ∀ r r', r ≤ r' → r' < workers → stop r' - start r' ≤ stop r - start r
  balanced : ∀ r < workers, ∀ r' < workers, stop r - start r ≤ stop r' - start r' + 1

section Bounds

variable {bound : ℕ → ℤ} {n : ℕ} {i : ℤ}

theorem existsUnique_block (hmono : Monotone bound) (h : bound 0 ≤ i) (h' : i < bound n) :
    ∃! r, r < n ∧ bound r ≤ i ∧ i < bound (r + 1) := by
  have hex : ∃ r, i < bound r := ⟨n, h'⟩
  obtain ⟨r, hr⟩ : ∃ r, Nat.find hex = r + 1 := by
    refine Nat.exists_eq_succ_of_ne_zero fun h0 => ?_
    have := Nat.find_spec hex
    rw [h0] at this
    omega
  have hnext : i < bound (r + 1) := hr ▸ Nat.find_spec hex
  have hle : bound r ≤ i := not_lt.mp (Nat.find_min hex (by omega))
  refine ⟨r, ⟨?_, hle, hnext⟩, ?_⟩
  · have := Nat.find_min' hex h'
    omega
  · rintro s ⟨-, hs, hs'⟩
    apply le_antisymm
    · by_contra hlt
      have := hmono (show r + 1 ≤ s by omega)
      omega
    · by_contra hlt
      have := hmono (show s + 1 ≤ r by omega)
      omega

end Bounds

/-- The bound before the block of a worker, in the integers. -/
def bound (begin finish : ℤ) (workers r : ℕ) : ℤ :=
  begin + r * ((finish - begin) / workers) + Min.min (r : ℤ) ((finish - begin) % workers)

section Ranges

variable {begin finish : ℤ} {workers : ℕ}

theorem bound_zero (hw : 1 ≤ workers) : bound begin finish workers 0 = begin := by
  have h0 := Int.emod_nonneg (finish - begin) (show (workers : ℤ) ≠ 0 by omega)
  rw [bound, Nat.cast_zero, zero_mul, min_eq_left h0]
  omega

theorem bound_workers (hw : 1 ≤ workers) : bound begin finish workers workers = finish := by
  have h1 := Int.emod_lt_of_pos (finish - begin) (show (0 : ℤ) < workers by omega)
  have hdiv := Int.mul_ediv_add_emod (finish - begin) workers
  rw [bound, min_eq_right h1.le]
  omega

theorem bound_succ (r : ℕ) : bound begin finish workers (r + 1) = bound begin finish workers r +
    (finish - begin) / workers + if (r : ℤ) < (finish - begin) % workers then 1 else 0 := by
  rw [bound, bound, Nat.cast_succ, add_mul, one_mul]
  split_ifs <;> omega

theorem bound_monotone (workers : ℕ) (hle : begin ≤ finish) :
    Monotone (bound begin finish workers) := by
  refine monotone_nat_of_le_succ fun r => ?_
  have h0 : 0 ≤ (finish - begin) / workers := Int.ediv_nonneg (by omega) (by omega)
  rw [bound_succ]
  split_ifs <;> omega

theorem bound_mem (hle : begin ≤ finish) (hw : 1 ≤ workers) {r : ℕ} (hr : r ≤ workers) :
    begin ≤ bound begin finish workers r ∧ bound begin finish workers r ≤ finish := by
  have h0 := bound_monotone workers hle (Nat.zero_le r)
  have h1 := bound_monotone workers hle hr
  rw [bound_zero hw] at h0
  rw [bound_workers hw] at h1
  exact ⟨h0, h1⟩

theorem balanced_bound (hle : begin ≤ finish) (hw : 1 ≤ workers) :
    Balanced begin finish workers (bound begin finish workers)
      fun r => bound begin finish workers (r + 1) where
  first := bound_zero hw
  last := by rw [Nat.sub_add_cancel hw, bound_workers hw]
  consecutive _ _ := rfl
  inside r hr := ⟨(bound_mem hle hw hr.le).1, bound_monotone workers hle (Nat.le_succ r),
    (bound_mem hle hw hr).2⟩
  once i h h' := existsUnique_block (bound_monotone workers hle) (by rwa [bound_zero hw])
    (by rwa [bound_workers hw])
  larger_first r r' h _ := by
    rw [bound_succ, bound_succ]
    split_ifs <;> omega
  balanced r _ r' _ := by
    rw [bound_succ, bound_succ]
    split_ifs <;> omega

theorem calculateStart_eq (hb : int.InRange begin) (hf : int.InRange finish)
    (hle : begin ≤ finish) (hrange : finish - begin ≤ int.max) (hpos : 1 ≤ workers) {r : ℕ}
    (hr : r ≤ workers) :
    calculateStart r finish workers begin = some (bound begin finish workers r) := by
  have hmem := bound_mem hle hpos hr
  have hsize : int.InRange (finish - begin) :=
    zero_inRange.of_between ⟨zero_inRange.1.trans (by omega), hrange⟩ (by omega) le_rfl
  have h0 : 0 ≤ (finish - begin) / workers := Int.ediv_nonneg (by omega) (by omega)
  have h1 := Int.emod_nonneg (finish - begin) (show (workers : ℤ) ≠ 0 by omega)
  have hdiv := Int.mul_ediv_add_emod (finish - begin) workers
  have hself : (finish - begin) / workers ≤ finish - begin := Int.ediv_le_self _ (by omega)
  have hquot := zero_inRange.of_between hsize h0 hself
  have hmul : (r : ℤ) * ((finish - begin) / workers) ≤ finish - begin := by
    have := mul_le_mul_of_nonneg_right (show (r : ℤ) ≤ workers by omega) h0
    omega
  have hmul0 : 0 ≤ (r : ℤ) * ((finish - begin) / workers) := mul_nonneg (by omega) h0
  rw [calculateStart, sub_eq hsize, Option.bind_eq_bind, Option.bind_some,
    div_eq hquot (by omega) (by omega), Option.bind_some,
    mul_eq (zero_inRange.of_between hsize hmul0 hmul), Option.bind_some,
    add_eq (hb.of_between hf (by omega) (by omega)), Option.bind_some,
    rem_eq hquot (by omega) (by omega), Option.bind_some,
    add_eq (hb.of_between hf hmem.1 hmem.2), bound]

theorem calculateFinish_eq (hb : int.InRange begin) (hf : int.InRange finish)
    (hw : int.InRange workers) (hle : begin ≤ finish) (hrange : finish - begin ≤ int.max)
    {r : ℕ} (hr : r < workers) :
    calculateFinish r finish workers begin = some (bound begin finish workers (r + 1)) := by
  have hnext : int.InRange ((r : ℤ) + 1) :=
    zero_inRange.of_between hw (by omega) (by omega)
  rw [calculateFinish, add_eq hnext, Option.bind_eq_bind, Option.bind_some]
  exact calculateStart_eq hb hf hle hrange (by omega) hr

theorem processRange_eq (hb : int.InRange begin) (hf : int.InRange finish)
    (hw : int.InRange workers) (hle : begin ≤ finish) (hrange : finish - begin ≤ int.max)
    {r : ℕ} (hr : r < workers) : processRange r workers begin finish =
      some (bound begin finish workers r, bound begin finish workers (r + 1),
        bound begin finish workers (r + 1) - bound begin finish workers r) := by
  have hpos : 1 ≤ workers := by omega
  have hmem := bound_mem hle hpos hr.le
  have hmem' := bound_mem hle hpos (Nat.succ_le_iff.mpr hr)
  have hmono := bound_monotone workers hle (Nat.le_succ r)
  rw [Nat.succ_eq_add_one] at hmem' hmono
  have hsize : int.InRange (bound begin finish workers (r + 1) - bound begin finish workers r) :=
    zero_inRange.of_between ⟨zero_inRange.1.trans (by omega), hrange⟩ (by omega) (by omega)
  rw [processRange, calculateStart_eq hb hf hle hrange hpos hr.le, Option.bind_eq_bind,
    Option.bind_some, calculateFinish_eq hb hf hw hle hrange hr, Option.bind_some,
    sub_eq hsize, Option.bind_some]

end Ranges

/-- The ranges of the workers are a balanced partition, and nothing overflows. -/
theorem calculated_ranges (begin finish : ℤ) (workers : ℕ) (hb : int.InRange begin)
    (hf : int.InRange finish) (hw : int.InRange workers) (hle : begin ≤ finish)
    (hrange : finish - begin ≤ int.max) (hpos : 1 ≤ workers) : ∃ start stop : ℕ → ℤ,
      (∀ r < workers, calculateStart r finish workers begin = some (start r) ∧
        calculateFinish r finish workers begin = some (stop r)) ∧
      Balanced begin finish workers start stop :=
  ⟨bound begin finish workers, fun r => bound begin finish workers (r + 1),
    fun _ hr => ⟨calculateStart_eq hb hf hle hrange hpos hr.le,
      calculateFinish_eq hb hf hw hle hrange hr⟩, balanced_bound hle hpos⟩

/-- Five workers share three indices. -/
theorem calculated_ranges_small : ∃ start stop : ℕ → ℤ,
    (∀ r : ℕ, r < 5 → calculateStart r 1 5 (-2) = some (start r) ∧
      calculateFinish r 1 5 (-2) = some (stop r)) ∧ Balanced (-2) 1 5 start stop :=
  calculated_ranges (-2) 1 5 (by norm_num [int_inRange_iff]) (by norm_num [int_inRange_iff])
    (by norm_num [int_inRange_iff]) (by norm_num) (by norm_num [IntType.max, int]) (by norm_num)

end Concurrente.HybridDistr
