import Concurrente.Checked
import Concurrente.Heat.OmpPlate
import Concurrente.OmpMpi.Errors

/-!
# omp_mpi in checked memory

The functions of omp_mpi that access a plate matrix, from the header of a plate file
to the output file.  The two blocks have the number of cells that was passed to
`calloc`, and every access is checked.  Indices are `uint64_t`; the pointer
`row_start` is the number of cells it has advanced.
-/

namespace Concurrente.Heat.Memory

open Flat (cellIndex)
open OmpMpi (ErrorCode)

structure PlateMatrix (α : Type) where
  rows : ℕ
  cols : ℕ
  matrix : Block α
  auxiliaryMatrix : Block α

structure Header where
  rows : ℕ
  cols : ℕ
  rows_lt : rows < 2 ^ 64
  cols_lt : cols < 2 ^ 64

/-- Without a header the file is shorter than 16 bytes. -/
structure PlateFile (α : Type) where
  header : Option Header
  cells : List α

structure Callocs where
  plateMatrix : Bool
  matrix : Bool
  auxiliaryMatrix : Bool

/-- What the system does while a plate is loaded. -/
structure Environment (α : Type) where
  pathBuilt : Bool
  file : Option (PlateFile α)
  callocs : Callocs

section Load

variable {α : Type}

/-- `none` is the null pointer. -/
def initPlateMatrix [Zero α] (callocs : Callocs) (rows cols : ℕ) : Option (PlateMatrix α) :=
  if callocs.plateMatrix = false then none
  else if callocs.matrix = false then none
  else if callocs.auxiliaryMatrix = false then none
  else some ⟨rows, cols, ⟨u64 (rows * cols), fun _ => 0⟩, ⟨u64 (rows * cols), fun _ => 0⟩⟩

/-- `fread` of up to `count` cells to the place `rowStart`. -/
def readCells [Zero α] (matrix : Block α) (rowStart count : ℕ) (file : List α) :
    Except Fault (Block α) :=
  (loop 0 (min count file.length)).foldlM
    (fun matrix i => matrix.write (rowStart + i) (file.getD i 0)) matrix

structure Reading (α : Type) where
  matrix : Block α
  rowStart : ℕ
  file : List α

def readRow [Zero α] (cols : ℕ) (x : Reading α) (_row : ℕ) : Except Fault (Reading α) := do
  let matrix ← readCells x.matrix x.rowStart cols x.file
  return ⟨matrix, x.rowStart + cols, x.file.drop cols⟩

def readRows [Zero α] (p : PlateMatrix α) (file : List α) : Except Fault (PlateMatrix α) := do
  let x ← (loop 0 p.rows).foldlM (readRow p.cols) ⟨p.matrix, 0, file⟩
  return { p with matrix := x.matrix }

def copyCell (p : PlateMatrix α) (index : ℕ) : Except Fault (PlateMatrix α) := do
  let x ← p.matrix.read index
  let auxiliaryMatrix ← p.auxiliaryMatrix.write index x
  return { p with auxiliaryMatrix := auxiliaryMatrix }

def initAuxiliary (p : PlateMatrix α) : Except Fault (PlateMatrix α) := do
  let lastRow := sub64 p.rows 1
  let lastCol := sub64 p.cols 1
  let p ← (loop 0 p.cols).foldlM copyCell p
  let p ← (loop 0 p.cols).foldlM (fun p col => copyCell p (cellIndex p.cols lastRow col)) p
  let p ← (loop 1 lastRow).foldlM (fun p row => copyCell p (u64 (row * p.cols))) p
  (loop 1 lastRow).foldlM (fun p row => copyCell p (cellIndex p.cols row lastCol)) p

/-- An error code, or the plate after `EXIT_SUCCESS`.  The result of `init_plate_matrix` is
used without a test. -/
def setPlateMatrix [Zero α] (env : Environment α) :
    Except Fault (Except ErrorCode (PlateMatrix α)) :=
  if env.pathBuilt = false then .ok (.error .exitFailure)
  else
    match env.file with
    | none => .ok (.error .openPlateFile)
    | some file =>
      match file.header with
      | none => .ok (.error .rowsCols)
      | some header =>
        match initPlateMatrix env.callocs header.rows header.cols with
        | none => .error .nullPointer
        | some p => do
          let p ← readRows p file.cells
          let p ← initAuxiliary p
          return .ok p

end Load

def setAuxiliary {α : Type} (p : PlateMatrix α) : PlateMatrix α :=
  { p with matrix := p.auxiliaryMatrix, auxiliaryMatrix := p.matrix }

def updateCell (p : PlateMatrix ℚ) (row col : ℕ) (multConstant : ℚ) :
    Except Fault (PlateMatrix ℚ) := do
  let currentTempMatrix := p.auxiliaryMatrix
  let accessedCellIndex := cellIndex p.cols row col
  let x ← currentTempMatrix.read accessedCellIndex
  let result := -4 * x
  let x ← currentTempMatrix.read (cellIndex p.cols (sub64 row 1) col)
  let result := result + x
  let x ← currentTempMatrix.read (u64 (accessedCellIndex + 1))
  let result := result + x
  let x ← currentTempMatrix.read (cellIndex p.cols (u64 (row + 1)) col)
  let result := result + x
  let x ← currentTempMatrix.read (sub64 accessedCellIndex 1)
  let result := result + x
  let result := result * multConstant
  let x ← currentTempMatrix.read accessedCellIndex
  let result := result + x
  let matrix ← p.matrix.write accessedCellIndex result
  return { p with matrix := matrix }

/-- The body of the column loop: updates a cell and clears the flag on a large change. -/
def equilibrateCell (multConstant epsilon : ℚ) (row : ℕ) (x : PlateMatrix ℚ × Bool) (col : ℕ) :
    Except Fault (PlateMatrix ℚ × Bool) := do
  let p ← updateCell x.1 row col multConstant
  let accessed := cellIndex p.cols row col
  let newTemperature ← p.matrix.read accessed
  let oldTemperature ← p.auxiliaryMatrix.read accessed
  let difference := |newTemperature - oldTemperature|
  return (p, if difference > epsilon then false else x.2)

def equilibrateRow (multConstant epsilon : ℚ) (x : PlateMatrix ℚ × Bool) (row : ℕ) :
    Except Fault (PlateMatrix ℚ × Bool) :=
  (loop 1 (sub64 x.1.cols 1)).foldlM (equilibrateCell multConstant epsilon row) x

/-- The shared variables of the parallel region; after a fault nothing moves. -/
structure State where
  plateMatrix : PlateMatrix ℚ
  kStates : ℕ
  equilibratedPlate : Bool
  phase : Omp.Phase
  fault : Option Fault

/-- The region of `equilibrate_plate`, with the phases and the schedules of the unchecked
one. -/
def equilibratePlate (R : Omp.Region ℚ) (s : State) (a : Omp.Action) : Option State :=
  match s.fault, a, s.phase with
  | none, .advance, .single =>
    some { s with
      kStates := u64 (s.kStates + 1)
      plateMatrix := setAuxiliary s.plateMatrix
      equilibratedPlate := true
      phase := .work (loop 1 (sub64 s.plateMatrix.rows 1)) (fun _ => true) }
  | none, .advance, .work [] copies =>
    some { s with
      equilibratedPlate :=
        (List.range R.threads).foldl (fun flag t => flag && copies t) s.equilibratedPlate
      phase := .test }
  | none, .advance, .test =>
    some { s with phase := if s.equilibratedPlate then .left else .single }
  | none, .row thread row, .work remaining copies =>
    if thread < R.threads ∧ row ∈ remaining then
      match equilibrateRow R.multConstant R.epsilon (s.plateMatrix, copies thread) row with
      | .ok x => some { s with
          plateMatrix := x.1
          phase := .work (remaining.erase row) (Function.update copies thread x.2) }
      -- the access that is not in the block stops the run
      | .error e => some { s with fault := some e }
    else none
  | _, _, _ => none

def region (R : Omp.Region ℚ) (p : PlateMatrix ℚ) : System State Omp.Action where
  start := ⟨p, 0, true, .single, none⟩
  step := equilibratePlate R

section Output

variable {α : Type}

/-- `fwrite` of `count` cells from the place `rowStart`. -/
def writeCells (matrix : Block α) (rowStart count : ℕ) (output : List α) :
    Except Fault (List α) :=
  (loop 0 count).foldlM (fun output i => do
    let x ← matrix.read (rowStart + i)
    return output ++ [x]) output

def writeRow (p : PlateMatrix α) (x : ℕ × List α) (_row : ℕ) : Except Fault (ℕ × List α) := do
  let output ← writeCells p.matrix x.1 p.cols x.2
  return (x.1 + p.cols, output)

/-- The cells in the output file, if it could be named and opened. -/
def updatePlateFile (opened : Bool) (p : PlateMatrix α) : Except Fault (Option (List α)) :=
  if opened = false then .ok none
  else do
    let x ← (loop 0 p.rows).foldlM (writeRow p) (0, [])
    return some x.2

end Output

/-- Loading returns an error code, or neither it nor any run of the simulation nor the
output afterwards has a fault. -/
def Safe (R : Omp.Region ℚ) (env : Environment ℚ) : Prop :=
  match setPlateMatrix env with
  | .error _ => False
  | .ok (.error code) => code.value ≠ 0
  | .ok (.ok p) => ∀ s, (region R p).Reachable s → s.fault = none ∧
      (s.phase = .left → ∀ opened, ∃ output, updatePlateFile opened s.plateMatrix = .ok output)

/-- The shapes whose accesses all lie in a block of `rows * cols` cells. -/
def Fits (rows cols : ℕ) : Prop := 1 ≤ rows ∧ (1 ≤ cols ∨ rows ≤ 2) ∧ rows * cols < 2 ^ 64

def Callocs.All (callocs : Callocs) : Prop :=
  callocs.plateMatrix = true ∧ callocs.matrix = true ∧ callocs.auxiliaryMatrix = true

end Concurrente.Heat.Memory
