import Concurrente.Heat.Rows

/-!
# Plates in flat buffers

`plate_matrix.c` of omp_mpi and of pthread_optimized, which are the same text: a
matrix is one block of `rows * cols` cells.  Indices are `uint64_t`, pointers to
the two blocks are swapped by value because nothing else points to them.
-/

namespace Concurrente.Heat.Flat

/-- `plate_matrix_t`, for any type of cells. -/
structure PlateMatrix (α : Type*) where
  rows : ℕ
  cols : ℕ
  matrix : ℕ → α
  auxiliaryMatrix : ℕ → α

/-- `row * cols + col`. -/
def cellIndex (cols row col : ℕ) : ℕ := u64 (row * cols + col)

section Load

variable {α : Type*}

/-- Both blocks come from `calloc`. -/
def initPlateMatrix [Zero α] (rows cols : ℕ) : PlateMatrix α := ⟨rows, cols, fun _ => 0, fun _ => 0⟩

/-- `fread` of `count` cells to the place `start`; a short file leaves the rest as it is. -/
def readCells (matrix : ℕ → α) (start count : ℕ) (file : List α) : ℕ → α := fun i =>
  if start ≤ i ∧ i < start + count then file.getD (i - start) (matrix i) else matrix i

/-- The loop that reads row by row; `rowStart` advances by `cols`. -/
def readRows (cols : ℕ) : ℕ → (ℕ → α) → ℕ → List α → (ℕ → α)
  | 0, matrix, _, _ => matrix
  | rows + 1, matrix, rowStart, file =>
    readRows cols rows (readCells matrix rowStart cols file) (rowStart + cols) (file.drop cols)

/-- Copies the cells at the given indices to the auxiliary matrix. -/
def copyCells (p : PlateMatrix α) (indices : List ℕ) : PlateMatrix α :=
  { p with auxiliaryMatrix := copyAll p.matrix indices p.auxiliaryMatrix }

def initAuxiliary (p : PlateMatrix α) : PlateMatrix α :=
  let lastRow := sub64 p.rows 1
  let lastCol := sub64 p.cols 1
  let p := copyCells p (loop 0 p.cols)
  let p := copyCells p ((loop 0 p.cols).map (cellIndex p.cols lastRow))
  let p := copyCells p ((loop 1 lastRow).map fun row => cellIndex p.cols row 0)
  copyCells p ((loop 1 lastRow).map fun row => cellIndex p.cols row lastCol)

/-- What `set_plate_matrix` builds from the dimensions and the cells in the file. -/
def setPlateMatrix [Zero α] (rows cols : ℕ) (file : List α) : PlateMatrix α :=
  let p : PlateMatrix α := initPlateMatrix rows cols
  initAuxiliary { p with matrix := readRows cols rows p.matrix 0 file }

def setAuxiliary (p : PlateMatrix α) : PlateMatrix α :=
  { p with matrix := p.auxiliaryMatrix, auxiliaryMatrix := p.matrix }

end Load

section Update

variable {α : Type*} [Temperature α]

def updateCell (p : PlateMatrix α) (row col : ℕ) (multConstant : α) : PlateMatrix α :=
  let currentTempMatrix := p.auxiliaryMatrix
  let accessedCellIndex := cellIndex p.cols row col
  let result := -4 * currentTempMatrix accessedCellIndex
  let result := result + currentTempMatrix (cellIndex p.cols (sub64 row 1) col)
  let result := result + currentTempMatrix (u64 (accessedCellIndex + 1))
  let result := result + currentTempMatrix (cellIndex p.cols (u64 (row + 1)) col)
  let result := result + currentTempMatrix (sub64 accessedCellIndex 1)
  let result := result * multConstant
  let result := result + currentTempMatrix accessedCellIndex
  { p with matrix := Function.update p.matrix accessedCellIndex result }

/-- The body of the column loop: updates a cell and clears the flag on a large change. -/
def equilibrateCell (multConstant epsilon : α) (row : ℕ) (x : PlateMatrix α × Bool) (col : ℕ) :
    PlateMatrix α × Bool :=
  let p := updateCell x.1 row col multConstant
  let accessed := cellIndex p.cols row col
  let newTemperature := p.matrix accessed
  let oldTemperature := p.auxiliaryMatrix accessed
  let difference := Temperature.fabs (newTemperature - oldTemperature)
  (p, if difference > epsilon then false else x.2)

def equilibrateRow (multConstant epsilon : α) (x : PlateMatrix α × Bool) (row : ℕ) :
    PlateMatrix α × Bool :=
  (loop 1 (sub64 x.1.cols 1)).foldl (equilibrateCell multConstant epsilon row) x

end Update

section Indices

variable {rows cols row col : ℕ}

theorem index_lt (hr : row < rows) (hc : col < cols) : row * cols + col < rows * cols := by
  calc row * cols + col < row * cols + cols := by omega
    _ = (row + 1) * cols := by ring
    _ ≤ rows * cols := Nat.mul_le_mul_right _ hr

theorem cellIndex_eq (hs : rows * cols < 2 ^ 61) (hr : row < rows) (hc : col < cols) :
    cellIndex cols row col = row * cols + col := by
  have := index_lt hr hc
  exact u64_of_lt (by omega)

theorem cellIndex_inj (hs : rows * cols < 2 ^ 61) {row' col' : ℕ} (hr : row < rows)
    (hc : col < cols) (hr' : row' < rows) (hc' : col' < cols)
    (h : cellIndex cols row col = cellIndex cols row' col') : row = row' ∧ col = col' := by
  rw [cellIndex_eq hs hr hc, cellIndex_eq hs hr' hc'] at h
  have hrow : row = row' := by
    have h1 := congrArg (· / cols) h
    simp only [Nat.mul_comm _ cols, Nat.mul_add_div (by omega : 0 < cols),
      Nat.div_eq_of_lt hc, Nat.div_eq_of_lt hc'] at h1
    omega
  subst hrow
  exact ⟨rfl, by omega⟩

theorem rows_lt (hs : rows * cols < 2 ^ 61) (hc : 1 ≤ cols) : rows < 2 ^ 61 :=
  (Nat.le_mul_of_pos_right rows hc).trans_lt hs

theorem cols_lt (hs : rows * cols < 2 ^ 61) (hr : 1 ≤ rows) : cols < 2 ^ 61 :=
  (Nat.le_mul_of_pos_left cols hr).trans_lt hs

end Indices

namespace PlateMatrix

variable {α : Type*}

def grid (p : PlateMatrix α) : Cell → α := fun i => p.matrix (cellIndex p.cols i.1 i.2)

def auxiliaryGrid (p : PlateMatrix α) : Cell → α :=
  fun i => p.auxiliaryMatrix (cellIndex p.cols i.1 i.2)

end PlateMatrix

section Loading

variable {α : Type*}

theorem readRows_apply (cols rows : ℕ) (matrix : ℕ → α) (start : ℕ) (file : List α) (i : ℕ) :
    readRows cols rows matrix start file i =
      if start ≤ i ∧ i < start + rows * cols then file.getD (i - start) (matrix i)
      else matrix i := by
  induction rows generalizing matrix start file with
  | zero =>
    simp only [readRows]
    rw [if_neg (by omega)]
  | succ rows ih =>
    rw [readRows, ih, Nat.succ_mul]
    unfold readCells
    by_cases h : start ≤ i ∧ i < start + cols
    · rw [if_neg (by omega), if_pos h, if_pos (by omega)]
    · rw [if_neg h]
      split_ifs with h1 h2 h2
      · simp only [List.getD_eq_getElem?_getD, List.getElem?_drop]
        rw [show cols + (i - (start + cols)) = i - start by omega]
      · omega
      · omega
      · rfl

/-- The indices of the border, in the order of the four loops. -/
def borderIndices (rows cols : ℕ) : List ℕ :=
  loop 0 cols ++ (loop 0 cols).map (cellIndex cols (sub64 rows 1)) ++
    (loop 1 (sub64 rows 1)).map (fun row => cellIndex cols row 0) ++
    (loop 1 (sub64 rows 1)).map (fun row => cellIndex cols row (sub64 cols 1))

@[simp] theorem copyCells_cols (p : PlateMatrix α) (indices : List ℕ) :
    (copyCells p indices).cols = p.cols := rfl

theorem copyCells_append (p : PlateMatrix α) (indices indices' : List ℕ) :
    copyCells (copyCells p indices) indices' = copyCells p (indices ++ indices') := by
  simp only [copyCells, copyAll, List.foldl_append]

theorem initAuxiliary_eq (p : PlateMatrix α) :
    initAuxiliary p = copyCells p (borderIndices p.rows p.cols) := by
  simp only [initAuxiliary, copyCells_cols, copyCells_append, borderIndices]

theorem mem_borderIndices {rows cols row col : ℕ} (hs : rows * cols < 2 ^ 61) (hr : row < rows)
    (hc : col < cols) (hb : ¬ (1 ≤ row ∧ row + 1 < rows ∧ 1 ≤ col ∧ col + 1 < cols)) :
    cellIndex cols row col ∈ borderIndices rows cols := by
  have hrl := rows_lt hs (by omega : 1 ≤ cols)
  have hcl := cols_lt hs (by omega : 1 ≤ rows)
  have h1 : sub64 rows 1 = rows - 1 := sub64_of_le (by omega) (by omega)
  have h2 : sub64 cols 1 = cols - 1 := sub64_of_le (by omega) (by omega)
  simp only [borderIndices, h1, h2, List.mem_append, List.mem_map, mem_loop]
  by_cases hr0 : row = 0
  · subst hr0
    refine Or.inl (Or.inl (Or.inl ?_))
    rw [cellIndex_eq hs hr hc]
    omega
  by_cases hrl : row = rows - 1
  · exact Or.inl (Or.inl (Or.inr ⟨col, by omega, by rw [hrl]⟩))
  by_cases hc0 : col = 0
  · exact Or.inl (Or.inr ⟨row, by omega, by rw [hc0]⟩)
  · exact Or.inr ⟨row, by omega, by rw [show cols - 1 = col by omega]⟩

def readPlate [Zero α] (rows cols : ℕ) (file : List α) : PlateMatrix α :=
  ⟨rows, cols, readRows cols rows (fun _ => 0) 0 file, fun _ => 0⟩

theorem setPlateMatrix_eq [Zero α] (rows cols : ℕ) (file : List α) :
    setPlateMatrix rows cols file =
      copyCells (readPlate rows cols file) (borderIndices rows cols) :=
  initAuxiliary_eq (readPlate rows cols file)

theorem setPlateMatrix_grid [Zero α] {rows cols row col : ℕ} (hs : rows * cols < 2 ^ 61)
    (hr : row < rows) (hc : col < cols) (file : List α) :
    (setPlateMatrix rows cols file).grid (row, col) = file.getD (row * cols + col) 0 := by
  have := index_lt hr hc
  rw [setPlateMatrix_eq]
  simp only [PlateMatrix.grid, copyCells, readPlate]
  rw [readRows_apply, cellIndex_eq hs hr hc, if_pos (by omega), Nat.sub_zero]

theorem setPlateMatrix_border [Zero α] {rows cols row col : ℕ} (hs : rows * cols < 2 ^ 61)
    (hr : row < rows) (hc : col < cols)
    (hb : ¬ (1 ≤ row ∧ row + 1 < rows ∧ 1 ≤ col ∧ col + 1 < cols)) (file : List α) :
    (setPlateMatrix rows cols file).auxiliaryGrid (row, col) =
      (setPlateMatrix rows cols file).grid (row, col) := by
  rw [setPlateMatrix_eq]
  simp only [PlateMatrix.auxiliaryGrid, PlateMatrix.grid, copyCells]
  rw [copyAll_apply]
  exact if_pos (mem_borderIndices hs hr hc hb)

end Loading

variable {α : Type*} [Temperature α] {rows cols : ℕ} {c epsilon : α}

theorem updateCell_grid (hs : rows * cols < 2 ^ 61) {p : PlateMatrix α} (hp : p.cols = cols)
    {i : Cell} (hi : i ∈ ((stencil c epsilon).scheme rows cols).inner) :
    Set.EqOn (updateCell p i.1 i.2 c).grid
      (Function.update p.grid i (((stencil c epsilon).scheme rows cols).rule p.auxiliaryGrid i))
      ((stencil c epsilon).scheme rows cols).dom := by
  subst hp
  obtain ⟨row, col⟩ := i
  obtain ⟨h1, h2, h3, h4⟩ := mem_inner.mp hi
  have hrl := rows_lt hs (by omega : 1 ≤ p.cols)
  have hil := index_lt (show row < rows by omega) (show col < p.cols by omega)
  have hright : u64 (cellIndex p.cols row col + 1) = cellIndex p.cols row (col + 1) := by
    rw [cellIndex_eq hs (by omega) (by omega), cellIndex_eq hs (by omega) (by omega)]
    exact u64_of_lt (by omega)
  have hleft : sub64 (cellIndex p.cols row col) 1 = cellIndex p.cols row (col - 1) := by
    rw [cellIndex_eq hs (by omega) (by omega), cellIndex_eq hs (by omega) (by omega),
      sub64_of_le (by omega) (by omega)]
    omega
  have hup : sub64 row 1 = row - 1 := sub64_of_le h1 (by omega)
  have hdown : u64 (row + 1) = row + 1 := u64_of_lt (by omega)
  rintro ⟨r, k⟩ hd
  obtain ⟨hr, hk⟩ := mem_dom.mp hd
  by_cases he : (r, k) = (row, col)
  · obtain ⟨rfl, rfl⟩ := Prod.mk.inj he
    simp only [PlateMatrix.grid, updateCell, Function.update_self, scheme_rule, stencil,
      PlateMatrix.auxiliaryGrid, hright, hleft, hup, hdown]
  · have hne : cellIndex p.cols r k ≠ cellIndex p.cols row col := by
      intro h
      obtain ⟨rfl, rfl⟩ := cellIndex_inj hs hr hk (by omega) (by omega) h
      exact he rfl
    rw [Function.update_of_ne he]
    simp only [PlateMatrix.grid, updateCell, Function.update_of_ne hne]

/-- The two flat blocks of a plate of the given shape. -/
def flat (rows cols : ℕ) (c epsilon : α) (hs : rows * cols < 2 ^ 61) :
    Buffers ((stencil c epsilon).scheme rows cols) (PlateMatrix α) where
  ok p := p.rows = rows ∧ p.cols = cols
  front := PlateMatrix.grid
  back := PlateMatrix.auxiliaryGrid
  write p i := updateCell p i.1 i.2 c
  ok_write hp _ := hp
  back_write _ _ := fun _ _ => rfl
  front_write hp hi := updateCell_grid hs hp.2 hi

theorem setPlateMatrix_ok (hs : rows * cols < 2 ^ 61) (file : List α) :
    (flat rows cols c epsilon hs).ok (setPlateMatrix rows cols file) := by
  rw [setPlateMatrix_eq]
  exact ⟨rfl, rfl⟩

theorem setPlateMatrix_border_eqOn (hs : rows * cols < 2 ^ 61) (file : List α) :
    Set.EqOn (setPlateMatrix rows cols file).auxiliaryGrid (setPlateMatrix rows cols file).grid
      (((stencil c epsilon).scheme rows cols).dom \
        ((stencil c epsilon).scheme rows cols).inner) := by
  rintro ⟨row, col⟩ ⟨hd, hi⟩
  exact setPlateMatrix_border hs hd.1 hd.2 (fun h => hi (mem_inner.mpr h)) file

theorem equilibrateRow_eq_visits (hs : rows * cols < 2 ^ 61) (x : PlateMatrix α × Bool)
    (hx : x.1.cols = cols) (hc : 1 ≤ cols) (hr : 1 ≤ rows) (row : ℕ) :
    equilibrateRow c epsilon x row = (rowCells cols row).foldl
      ((flat rows cols c epsilon hs).visit (clearFlag (stencil c epsilon))) x := by
  have := cols_lt hs hr
  rw [equilibrateRow, hx, sub64_of_le hc (by omega), rowCells, List.foldl_map]
  rfl

theorem equilibrateRow_spec {hs : rows * cols < 2 ^ 61} {T : Cell → α} {j row : ℕ}
    {done : Set Cell} {p : PlateMatrix α} (h : (flat rows cols c epsilon hs).Sweeping T j done p)
    (h1 : 1 ≤ row) (h2 : row + 1 < rows) (hc : 1 ≤ cols) (flag : Bool) :
    (flat rows cols c epsilon hs).Sweeping T j (done ∪ {i | i.1 = row})
        (equilibrateRow c epsilon (p, flag) row).1 ∧
      ((equilibrateRow c epsilon (p, flag) row).2 = true ↔
        flag = true ∧ RowSettled ((stencil c epsilon).scheme rows cols) T j row) := by
  rw [equilibrateRow_eq_visits hs _ h.1.2 hc (by omega)]
  exact sweeping_row h h1 h2 flag

-- From here on a loaded plate and an updated row are known by their specifications.
attribute [irreducible] setPlateMatrix equilibrateRow

end Concurrente.Heat.Flat
