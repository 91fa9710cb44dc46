import Concurrente.Heat.Rows

/-!
# Plates in arrays of rows

`plate_matrix.c` of serial and of pthread, which are the same text: a matrix is an
array of pointers to its rows.
-/

namespace Concurrente.Heat.ByRows

/-- `plate_matrix_t`. -/
structure PlateMatrix where
  rows : ℕ
  cols : ℕ
  matrix : Cell → ℚ
  auxiliaryMatrix : Cell → ℚ

/-- What a job file and a plate file say about a plate, except for its temperatures and
its epsilon. -/
structure Plate where
  rows : ℕ
  cols : ℕ
  intervalDuration : ℕ
  thermalDiffusivity : ℚ
  cellsDimension : ℚ
  three_le_rows : 3 ≤ rows
  cols_pos : 1 ≤ cols
  rows_lt : rows < 2 ^ 61
  cols_lt : cols < 2 ^ 61
  dimension_pos : 0 < cellsDimension

def copyCells (p : PlateMatrix) (cells : List Cell) : PlateMatrix :=
  { p with auxiliaryMatrix := copyAll p.matrix cells p.auxiliaryMatrix }

def initAuxiliary (p : PlateMatrix) : PlateMatrix :=
  let lastRow := sub64 p.rows 1
  let lastCol := sub64 p.cols 1
  let p := copyCells p ((loop 0 p.cols).map (Prod.mk 0))
  let p := copyCells p ((loop 0 p.cols).map (Prod.mk lastRow))
  let p := copyCells p ((loop 1 lastRow).map fun row => (row, 0))
  copyCells p ((loop 1 lastRow).map fun row => (row, lastCol))

/-- `set_plate_matrix`, from the temperatures in the plate file. -/
def setPlateMatrix (plate : Plate) (cells : Cell → ℚ) : PlateMatrix :=
  initAuxiliary ⟨plate.rows, plate.cols, cells, fun _ => 0⟩

def setAuxiliary (p : PlateMatrix) : PlateMatrix :=
  { p with matrix := p.auxiliaryMatrix, auxiliaryMatrix := p.matrix }

def updateCell (p : PlateMatrix) (row col : ℕ) (multConstant : ℚ) : PlateMatrix :=
  let currentTempMatrix := p.auxiliaryMatrix
  let result := -4 * currentTempMatrix (row, col)
  let result := result + currentTempMatrix (sub64 row 1, col)
  let result := result + currentTempMatrix (row, u64 (col + 1))
  let result := result + currentTempMatrix (u64 (row + 1), col)
  let result := result + currentTempMatrix (row, sub64 col 1)
  let result := result * multConstant
  let result := result + currentTempMatrix (row, col)
  { p with matrix := Function.update p.matrix (row, col) result }

section Border

variable {plate : Plate}

@[simp] theorem copyCells_cols (p : PlateMatrix) (cells : List Cell) :
    (copyCells p cells).cols = p.cols := rfl

theorem copyCells_append (p : PlateMatrix) (cells cells' : List Cell) :
    copyCells (copyCells p cells) cells' = copyCells p (cells ++ cells') := by
  simp only [copyCells, copyAll, List.foldl_append]

/-- The cells of the border, in the order of the four loops. -/
def borderCells (rows cols : ℕ) : List Cell :=
  (loop 0 cols).map (Prod.mk 0) ++ (loop 0 cols).map (Prod.mk (sub64 rows 1)) ++
    (loop 1 (sub64 rows 1)).map (fun row => (row, 0)) ++
    (loop 1 (sub64 rows 1)).map (fun row => (row, sub64 cols 1))

theorem mem_borderCells {row col : ℕ} (hr : row < plate.rows) (hc : col < plate.cols)
    (hb : ¬ (1 ≤ row ∧ row + 1 < plate.rows ∧ 1 ≤ col ∧ col + 1 < plate.cols)) :
    (row, col) ∈ borderCells plate.rows plate.cols := by
  have hrl := plate.rows_lt
  have hcl := plate.cols_lt
  have h1 : sub64 plate.rows 1 = plate.rows - 1 := sub64_of_le (by omega) (by omega)
  have h2 : sub64 plate.cols 1 = plate.cols - 1 := sub64_of_le (by omega) (by omega)
  simp only [borderCells, h1, h2, List.mem_append, List.mem_map, mem_loop, Prod.mk.injEq]
  by_cases hr0 : row = 0
  · exact Or.inl (Or.inl (Or.inl ⟨col, by omega, by omega, rfl⟩))
  by_cases hrl : row = plate.rows - 1
  · exact Or.inl (Or.inl (Or.inr ⟨col, by omega, by omega, rfl⟩))
  by_cases hc0 : col = 0
  · exact Or.inl (Or.inr ⟨row, by omega, rfl, by omega⟩)
  · exact Or.inr ⟨row, by omega, rfl, by omega⟩

theorem setPlateMatrix_eq (cells : Cell → ℚ) : setPlateMatrix plate cells =
    copyCells ⟨plate.rows, plate.cols, cells, fun _ => 0⟩ (borderCells plate.rows plate.cols) := by
  simp only [setPlateMatrix, initAuxiliary, copyCells_cols, copyCells_append, borderCells]

theorem setPlateMatrix_border {c epsilon : ℚ} (cells : Cell → ℚ) :
    Set.EqOn (setPlateMatrix plate cells).auxiliaryMatrix cells
      ((heat plate.rows plate.cols c epsilon).dom \
        (heat plate.rows plate.cols c epsilon).inner) := by
  rintro ⟨row, col⟩ ⟨hd, hi⟩
  rw [setPlateMatrix_eq]
  simp only [copyCells]
  rw [copyAll_apply, if_pos (mem_borderCells hd.1 hd.2 fun h => hi (mem_inner.mpr h))]

end Border

variable {plate : Plate} {c epsilon : ℚ}

theorem updateCell_matrix (p : PlateMatrix) {i : Cell}
    (hi : i ∈ (heat plate.rows plate.cols c epsilon).inner) :
    (updateCell p i.1 i.2 c).matrix = Function.update p.matrix i
      ((heat plate.rows plate.cols c epsilon).rule p.auxiliaryMatrix i) := by
  obtain ⟨row, col⟩ := i
  obtain ⟨h1, h2, h3, h4⟩ := mem_inner.mp hi
  have hrl := plate.rows_lt
  have hcl := plate.cols_lt
  have hup : sub64 row 1 = row - 1 := sub64_of_le h1 (by omega)
  have hdown : u64 (row + 1) = row + 1 := u64_of_lt (by omega)
  have hleft : sub64 col 1 = col - 1 := sub64_of_le h3 (by omega)
  have hright : u64 (col + 1) = col + 1 := u64_of_lt (by omega)
  simp only [updateCell, heat_rule, hup, hdown, hleft, hright]
  congr 1
  ring

def arrays (plate : Plate) (c epsilon : ℚ) :
    Buffers (heat plate.rows plate.cols c epsilon) PlateMatrix where
  ok p := p.rows = plate.rows ∧ p.cols = plate.cols
  front := PlateMatrix.matrix
  back := PlateMatrix.auxiliaryMatrix
  write p i := updateCell p i.1 i.2 c
  ok_write hp _ := hp
  back_write _ _ := fun _ _ => rfl
  front_write _ hi := fun _ _ => by rw [updateCell_matrix _ hi]

theorem setPlateMatrix_ok (cells : Cell → ℚ) :
    (arrays plate c epsilon).ok (setPlateMatrix plate cells) := by
  rw [setPlateMatrix_eq]
  exact ⟨rfl, rfl⟩

theorem setAuxiliary_ok {p : PlateMatrix} (h : (arrays plate c epsilon).ok p) :
    (arrays plate c epsilon).ok (setAuxiliary p) := h

@[simp] theorem setPlateMatrix_matrix (cells : Cell → ℚ) :
    (setPlateMatrix plate cells).matrix = cells := by
  rw [setPlateMatrix_eq]
  rfl

-- From here on a loaded plate is known by its specification.
attribute [irreducible] setPlateMatrix

theorem sweeping_start (cells : Cell → ℚ) : (arrays plate c epsilon).Sweeping cells 0 ∅
    (setAuxiliary (setPlateMatrix plate cells)) := by
  refine ⟨setAuxiliary_ok (setPlateMatrix_ok cells), .begin (fun i _ => ?_)
    (setPlateMatrix_border cells)⟩
  rw [Scheme.state_zero]
  exact congrFun (setPlateMatrix_matrix cells) i

theorem subRows (p : PlateMatrix) (hp : (arrays plate c epsilon).ok p) :
    sub64 p.rows 1 = plate.rows - 1 := by
  have hrl := plate.rows_lt
  have := plate.three_le_rows
  rw [hp.1]
  exact sub64_of_le (by omega) (by omega)

theorem subCols (p : PlateMatrix) (hp : (arrays plate c epsilon).ok p) :
    sub64 p.cols 1 = plate.cols - 1 := by
  have hcl := plate.cols_lt
  rw [hp.2]
  exact sub64_of_le plate.cols_pos (by omega)

end Concurrente.Heat.ByRows
