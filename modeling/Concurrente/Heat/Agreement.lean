import Concurrente.Heat.Pthread
import Concurrente.Heat.Serial

/-!
# Serial and pthread

Both programs iterate the heat recurrence, with the constants they compute.  They
agree on all temperatures exactly when the area of a cell survives its conversion
to an integer, or when it does not matter.
-/

namespace Concurrente.Heat

open ByRows

def cellsOf (plate : Plate) : Set Cell := {i | i.1 < plate.rows ∧ i.2 < plate.cols}

/-- The area of a cell fits a `uint64_t` without loss, or no product depends on it. -/
def AreaKept (plate : Plate) : Prop :=
  plate.cellsDimension * plate.cellsDimension < 2 ^ 64 ∧
    (plate.cols ≤ 2 ∨ 1 ≤ plate.cellsDimension * plate.cellsDimension ∧
      ((∃ n : ℕ, plate.cellsDimension * plate.cellsDimension = n) ∨
        plate.thermalDiffusivity * plate.intervalDuration = 0))

/-- The constant of the programs with threads. -/
def constant (plate : Plate) : ℚ :=
  calculateMultConstant plate.thermalDiffusivity plate.intervalDuration plate.cellsDimension

variable {plate : Plate} {c c' epsilon : ℚ} {count : ℕ}

theorem floor_eq_iff {area : ℚ} (ha : 0 ≤ area) : (⌊area⌋₊ : ℚ) = area ↔ ∃ n : ℕ, area = n := by
  constructor
  · exact fun h => ⟨⌊area⌋₊, h.symm⟩
  · rintro ⟨n, rfl⟩
    rw [Nat.floor_natCast]

theorem multConstant_eq_iff : Serial.multConstant plate
      ⌊plate.cellsDimension * plate.cellsDimension⌋₊ = some (constant plate) ↔
    1 ≤ plate.cellsDimension * plate.cellsDimension ∧
      ((∃ n : ℕ, plate.cellsDimension * plate.cellsDimension = n) ∨
        plate.thermalDiffusivity * plate.intervalDuration = 0) := by
  have hpos : 0 < plate.cellsDimension * plate.cellsDimension :=
    mul_pos plate.dimension_pos plate.dimension_pos
  unfold Serial.multConstant constant calculateMultConstant
  by_cases hz : ⌊plate.cellsDimension * plate.cellsDimension⌋₊ = 0
  · simp only [hz, if_true, reduceCtorEq, false_iff, not_and_or, not_le]
    exact Or.inl (Nat.floor_eq_zero.mp hz)
  · have h1 : 1 ≤ plate.cellsDimension * plate.cellsDimension := by
      rwa [Nat.floor_eq_zero, not_lt] at hz
    have hz' : (⌊plate.cellsDimension * plate.cellsDimension⌋₊ : ℚ) ≠ 0 := Nat.cast_ne_zero.mpr hz
    simp only [hz, if_false, Option.some.injEq, h1, true_and]
    rw [← floor_eq_iff hpos.le, div_eq_div_iff hz' hpos.ne', mul_eq_mul_left_iff]
    exact or_congr_left eq_comm

theorem works_iff : Serial.Works plate (constant plate) ↔ AreaKept plate := by
  unfold Serial.Works AreaKept Serial.cellArea
  simp only
  split_ifs with h
  · simp only [h, true_and, Option.some.injEq, exists_eq_left', multConstant_eq_iff]
    exact or_comm
  · simp [h]

def hotCell : Cell → ℚ := fun i => if i = (1, 1) then 1 else 0

theorem hotCell_mem (i : Cell) : 0 ≤ hotCell i ∧ hotCell i ≤ 1 := by
  unfold hotCell
  split_ifs <;> norm_num

theorem hotCell_settled {rows cols : ℕ} (he : 4 * |c| ≤ epsilon) :
    (heat rows cols c epsilon).Settled hotCell 0 := by
  rintro ⟨r, k⟩ hi
  rw [Scheme.state_zero, Scheme.state_succ, Scheme.state_zero, Scheme.next_of_mem hi, heat_close,
    heat_rule, add_sub_cancel_left, abs_mul]
  have h0 := hotCell_mem (r, k)
  have h1 := hotCell_mem (r - 1, k)
  have h2 := hotCell_mem (r, k + 1)
  have h3 := hotCell_mem (r + 1, k)
  have h4 := hotCell_mem (r, k - 1)
  have hle : |hotCell (r - 1, k) + hotCell (r, k + 1) + hotCell (r + 1, k) + hotCell (r, k - 1) -
      4 * hotCell (r, k)| ≤ 4 := by
    rw [abs_le]
    constructor <;> linarith
  calc _ ≤ |c| * 4 := mul_le_mul_of_nonneg_left hle (abs_nonneg c)
    _ ≤ epsilon := by linarith

theorem hotCell_equilibrium {rows cols : ℕ} (he : 4 * |c| ≤ epsilon) :
    (heat rows cols c epsilon).Equilibrium hotCell 1 :=
  Scheme.equilibrium_succ (hotCell_settled he) fun _ hi => absurd hi (Nat.not_lt_zero _)

theorem hotCell_center {rows cols : ℕ} (hr : 3 ≤ rows) (hc : 3 ≤ cols) :
    (heat rows cols c epsilon).state hotCell 1 (1, 1) = 1 - 4 * c := by
  have hin : ((1, 1) : Cell) ∈ (heat rows cols c epsilon).inner :=
    mem_inner.mpr ⟨by omega, by omega, by omega, by omega⟩
  rw [Scheme.state_succ, Scheme.state_zero, Scheme.next_of_mem hin, heat_rule]
  simp [hotCell]
  ring

theorem not_agree_of_ne (hw : Serial.Works plate c) (hne : c ≠ constant plate)
    (hcols : 3 ≤ plate.cols) (hc : 1 ≤ count) (he : 4 * |c| ≤ epsilon)
    (he' : 4 * |constant plate| ≤ epsilon) :
    ¬ (Serial.program plate epsilon hotCell).Agree (Pthread.program plate epsilon count hotCell)
      (cellsOf plate) := by
  intro h
  have hpos : 0 ≤ epsilon := (mul_nonneg (by norm_num) (abs_nonneg c)).trans he
  have hP := (Serial.iterates hw hpos hotCell).finishesWith (hotCell_equilibrium he)
  have hQ : (Pthread.program plate epsilon count hotCell).FinishesWith (cellsOf plate)
      ⟨1 % 2 ^ 64, (heat plate.rows plate.cols (constant plate) epsilon).state hotCell 1⟩ :=
    (Pthread.iterates hc hotCell).finishesWith (hotCell_equilibrium he')
  have hsame := (Program.Agree.same (S := heat plate.rows plate.cols c epsilon) h hP hQ).2
  have hcell := hsame (show ((1, 1) : Cell) ∈ (heat plate.rows plate.cols c epsilon).dom from
    ⟨by have := plate.three_le_rows; omega, by omega⟩)
  simp only [hotCell_center plate.three_le_rows hcols] at hcell
  exact hne (by linarith)

theorem works_or_stuck (plate : Plate) : (∃ c, Serial.Works plate c ∧
      (3 ≤ plate.cols ∨ Serial.Works plate (constant plate))) ∨
    ∀ area, Serial.cellArea plate = some area →
      Serial.multConstant plate area = none ∧ 3 ≤ plate.cols := by
  by_contra! h
  obtain ⟨hw, area, harea, hm⟩ := h
  by_cases hcols : 3 ≤ plate.cols
  · cases hmc : Serial.multConstant plate area with
    | none => exact absurd hcols (not_le.mpr (hm hmc))
    | some c =>
      have hw' : Serial.Works plate c := ⟨area, harea, Or.inl hmc⟩
      exact absurd hcols (not_le.mpr (hw c hw').1)
  · have hw' : Serial.Works plate (constant plate) := ⟨area, harea, Or.inr (by omega)⟩
    exact (hw _ hw').2 hw'

/-- Serial and pthread agree on all temperatures and thresholds of a plate, under every
schedule, if and only if the area of a cell is kept. -/
theorem serial_agrees_iff (plate : Plate) (count : ℕ) (hc : 1 ≤ count) :
    (∀ (cells : Cell → ℚ) (epsilon : ℚ), 0 ≤ epsilon →
      (Serial.program plate epsilon cells).Agree (Pthread.program plate epsilon count cells)
        (cellsOf plate)) ↔
    AreaKept plate := by
  constructor
  · intro h
    rw [← works_iff]
    by_contra hn
    obtain ⟨c, hw, hcols | hw'⟩ | hst := works_or_stuck plate
    · have hne : c ≠ constant plate := fun he => hn (he ▸ hw)
      refine not_agree_of_ne hw hne hcols hc (le_max_left _ (4 * |constant plate|))
        (le_max_right _ _) (h hotCell _ ?_)
      exact le_max_of_le_left (mul_nonneg (by norm_num) (abs_nonneg c))
    · exact hn hw'
    · exact Program.not_agree_of_stuck (Serial.start_stuck hst hotCell) (by simp [Serial.program])
        (h hotCell 0 le_rfl)
  · intro h cells epsilon he
    exact (Serial.iterates (works_iff.mpr h) he cells).agree (Pthread.iterates hc cells)

def unitPlate : Plate := ⟨4, 5, 2, 1 / 16, 1, by norm_num, by norm_num, by norm_num, by norm_num,
  by norm_num⟩

theorem serial_agrees_unitPlate : (Serial.program unitPlate 0 hotCell).Agree
    (Pthread.program unitPlate 0 3 hotCell) (cellsOf unitPlate) :=
  (serial_agrees_iff unitPlate 3 (by norm_num)).mpr
    ⟨by norm_num [unitPlate], Or.inr ⟨by norm_num [unitPlate], Or.inl ⟨1, by norm_num [unitPlate]⟩⟩⟩
    hotCell 0 le_rfl

/-- Cells of side 3/2, whose area is truncated to 2. -/
def widePlate : Plate := ⟨3, 3, 1, 1 / 10, 3 / 2, by norm_num, by norm_num, by norm_num,
  by norm_num, by norm_num⟩

theorem widePlate_disagrees : ¬ (Serial.program widePlate 1 hotCell).Agree
    (Pthread.program widePlate 1 1 hotCell) (cellsOf widePlate) := by
  have hconst : constant widePlate = 2 / 45 := by
    norm_num [constant, calculateMultConstant, widePlate]
  have hfloor : ⌊(9 / 4 : ℚ)⌋₊ = 2 := by
    rw [Nat.floor_eq_iff (by norm_num)]
    norm_num
  have hw : Serial.Works widePlate (1 / 20) := by
    refine ⟨2, ?_, Or.inl ?_⟩
    · norm_num [Serial.cellArea, widePlate, hfloor]
    · norm_num [Serial.multConstant, widePlate]
  refine not_agree_of_ne hw ?_ le_rfl le_rfl ?_ ?_
  · rw [hconst]
    norm_num
  · norm_num [abs_of_pos]
  · rw [hconst]
    norm_num [abs_of_pos]

end Concurrente.Heat
