import Concurrente.Heat.PlateMatrix
import Concurrente.Barrier
import Concurrente.Transition

/-!
# The team of pthread_optimized

`equilibrate_plate` with the threads it creates.  The threads live for the whole
simulation and meet at two barriers, each of them twice per state.
-/

namespace Concurrente.Heat.Optimized

open Flat

/-- A plate of a job file with the cells of its plate file. -/
structure Plate (α : Type*) where
  rows : ℕ
  cols : ℕ
  file : List α
  intervalDuration : ℕ
  thermalDiffusivity : α
  cellsDimension : α
  epsilon : α
  cols_pos : 1 ≤ cols
  cells_lt : rows * cols < 2 ^ 61

/-- What the team never writes of `shared_data_t` and `private_data_t`. -/
structure Team (α : Type*) where
  threadCount : ℕ
  multConstant : α
  epsilon : α
  startingRow : ℕ → ℕ
  finishRow : ℕ → ℕ

def getFinishRow (threadNumber evaluatedRows threadCount : ℕ) : ℕ :=
  let added := if threadNumber < evaluatedRows % threadCount then threadNumber
    else evaluatedRows % threadCount
  threadNumber * (evaluatedRows / threadCount) + added

/-- The blocks of rows; the fold carries `prev_finish_row`. -/
def initPrivateData (evaluatedRows threadCount : ℕ) : List (ℕ × ℕ) :=
  ((List.range threadCount).foldl (fun x threadNumber =>
    let finishRow := getFinishRow (threadNumber + 1) evaluatedRows threadCount + 1
    (x.1 ++ [(x.2, finishRow)], finishRow)) ([], 1)).1

variable {α : Type*} [Temperature α]

/-- At most as many threads as interior rows.  The program accepts no more than 32000
threads, so this count fits the `unsigned` of the barriers. -/
def initSharedData (plate : Plate α) (threadCount : ℕ) : Team α :=
  let evaluatedRows := sub64 plate.rows 2
  let threadCount := if evaluatedRows > threadCount then threadCount else evaluatedRows
  let privateData := initPrivateData evaluatedRows threadCount
  { threadCount
    multConstant := calculateMultConstant plate.thermalDiffusivity plate.intervalDuration
      plate.cellsDimension
    epsilon := plate.epsilon
    startingRow := fun i => (privateData.getD i (0, 0)).1
    finishRow := fun i => (privateData.getD i (0, 0)).2 }

/-- The four waits of a state: after the rows, before `done` is read, before the flag is
reset, and before the next state. -/
inductive Site
  | afterRows
  | beforeRead
  | beforeReset
  | beforeNext
  deriving DecidableEq, Repr

def Site.phase : Site → ℕ
  | .afterRows => 0
  | .beforeRead => 1
  | .beforeReset => 2
  | .beforeNext => 3

/-- The second and the fourth wait are at `can_continue2`. -/
def Site.second : Site → Bool
  | .afterRows => false
  | .beforeRead => true
  | .beforeReset => false
  | .beforeNext => true

/-- Where a thread is in `equilibrate_plate_concurrent`. -/
inductive Pc
  | reset
  | row (row : ℕ)
  | merge
  | arrive (site : Site)
  | wait (site : Site) (ticket : ℕ)
  | countState
  | setAuxiliary
  | readDone
  | resetShared
  | finished
  deriving DecidableEq, Repr

/-- `reads` records the values of `done` by the number of the state. -/
structure Thread where
  pc : Pc
  equilibrated : Bool
  stateNumber : ℕ
  reads : ℕ → Option Bool

/-- `counted` and `switched` record how often a thread in state number `j` incremented
`k_states` and called `set_auxiliary`. -/
structure State (α : Type*) where
  plateMatrix : PlateMatrix α
  kStates : ℕ
  equilibratedPlate : Bool
  barrier : Bool → Barrier
  thread : ℕ → Thread
  counted : ℕ → ℕ
  switched : ℕ → ℕ

/-- `thread` moves.  If it opens a barrier, `serial` is the thread that gets
`PTHREAD_BARRIER_SERIAL_THREAD`. -/
structure Action where
  thread : ℕ
  serial : ℕ

def State.setThread (s : State α) (i : ℕ) (th : Thread) : State α :=
  { s with thread := Function.update s.thread i th }

def Thread.leave (th : Thread) (serial : Bool) : Site → Thread
  | .afterRows => { th with pc := if serial then .countState else .arrive .beforeRead }
  | .beforeRead => { th with pc := .readDone }
  | .beforeReset => { th with pc := if serial then .resetShared else .arrive .beforeNext }
  | .beforeNext => { th with pc := .reset, stateNumber := th.stateNumber + 1 }

/-- The next atomic step of thread `i`. -/
def equilibratePlateConcurrent (team : Team α) (s : State α) (i serial : ℕ) : Option (State α) :=
  let th := s.thread i
  match th.pc with
  | .reset =>
    some (s.setThread i { th with equilibrated := true, pc := .row (team.startingRow i) })
  | .row row =>
    if row < team.finishRow i then
      let x := equilibrateRow team.multConstant team.epsilon (s.plateMatrix, th.equilibrated) row
      some { s.setThread i { th with equilibrated := x.2, pc := .row (row + 1) } with
        plateMatrix := x.1 }
    else some (s.setThread i { th with pc := .merge })
  -- under the mutex of the flag
  | .merge =>
    some { s.setThread i { th with pc := .arrive .afterRows } with
      equilibratedPlate := s.equilibratedPlate && th.equilibrated }
  | .arrive site =>
    some { s.setThread i { th with pc := .wait site (s.barrier site.second).generation } with
      barrier := Function.update s.barrier site.second
        ((s.barrier site.second).arrive team.threadCount serial) }
  -- the barrier has opened when its generation is not that of the arrival any more
  | .wait site ticket =>
    if (s.barrier site.second).generation ≠ ticket then
      some (s.setThread i (th.leave ((s.barrier site.second).serial = i) site))
    else none
  | .countState =>
    some { s.setThread i { th with pc := .setAuxiliary } with
      kStates := u64 (s.kStates + 1)
      counted := Function.update s.counted th.stateNumber (s.counted th.stateNumber + 1) }
  | .setAuxiliary =>
    some { s.setThread i { th with pc := .arrive .beforeRead } with
      plateMatrix := setAuxiliary s.plateMatrix
      switched := Function.update s.switched th.stateNumber (s.switched th.stateNumber + 1) }
  | .readDone =>
    some (s.setThread i { th with
      reads := Function.update th.reads th.stateNumber (some s.equilibratedPlate)
      -- `break` in front of the barrier before the reset
      pc := if s.equilibratedPlate then .finished else .arrive .beforeReset })
  | .resetShared =>
    some { s.setThread i { th with pc := .arrive .beforeNext } with equilibratedPlate := true }
  | .finished => none

def Plate.load (plate : Plate α) : PlateMatrix α := setPlateMatrix plate.rows plate.cols plate.file

/-- The threads have been created and none has moved. -/
def start (p : PlateMatrix α) : State α where
  plateMatrix := setAuxiliary p
  kStates := 0
  equilibratedPlate := true
  barrier := fun _ => Barrier.init
  thread := fun _ => ⟨.reset, true, 0, fun _ => none⟩
  counted := fun _ => 0
  switched := fun _ => 0

/-- `equilibrate_plate` from the creation of the threads until all are joined. -/
def system (plate : Plate α) (threadCount : ℕ) : System (State α) Action where
  start := start plate.load
  step s a :=
    let team := initSharedData plate threadCount
    if a.thread < team.threadCount ∧ a.serial < team.threadCount then
      equilibratePlateConcurrent team s a.thread a.serial
    else none

/-- What `equilibrate_plate` leaves in the plate after joining the threads. -/
def joined (s : State α) : PlateMatrix α × ℕ := (setAuxiliary s.plateMatrix, s.kStates)

section Blocks

variable {e n : ℕ}

@[simp] theorem getFinishRow_zero : getFinishRow 0 e n = 0 := by
  simp [getFinishRow]

theorem getFinishRow_le {i : ℕ} (hi : i ≤ n) : getFinishRow i e n ≤ e := by
  have hmul : i * (e / n) ≤ n * (e / n) := Nat.mul_le_mul_right _ hi
  have := Nat.div_add_mod e n
  simp only [getFinishRow]
  split_ifs <;> omega

theorem getFinishRow_mono (i e n : ℕ) : getFinishRow i e n ≤ getFinishRow (i + 1) e n := by
  simp only [getFinishRow]
  generalize e / n = q
  have : (i + 1) * q = i * q + q := Nat.succ_mul i q
  split_ifs <;> omega

theorem getFinishRow_last (hn : 0 < n) : getFinishRow n e n = e := by
  have := Nat.mod_lt e hn
  have := Nat.div_add_mod e n
  rw [getFinishRow, if_neg (by omega)]
  omega

theorem initPrivateData_fold (m : ℕ) :
    (List.range m).foldl (fun x threadNumber =>
      let finishRow := getFinishRow (threadNumber + 1) e n + 1
      (x.1 ++ [(x.2, finishRow)], finishRow)) (([], 1) : List (ℕ × ℕ) × ℕ) =
    ((List.range m).map fun i => (getFinishRow i e n + 1, getFinishRow (i + 1) e n + 1),
      getFinishRow m e n + 1) := by
  induction m with
  | zero => simp
  | succ m ih => rw [List.range_succ, List.foldl_append, ih, List.map_append]; rfl

theorem initPrivateData_getD {i : ℕ} (hi : i < n) : (initPrivateData e n).getD i (0, 0) =
    (getFinishRow i e n + 1, getFinishRow (i + 1) e n + 1) := by
  rw [initPrivateData, initPrivateData_fold]
  simp [List.getD_eq_getElem?_getD, hi]

end Blocks

section Team

variable {plate : Plate α} {threadCount : ℕ}

omit [Temperature α] in
theorem evaluatedRows_eq (hr : 3 ≤ plate.rows) : sub64 plate.rows 2 = plate.rows - 2 := by
  have := rows_lt plate.cells_lt plate.cols_pos
  exact sub64_of_le (by omega) (by omega)

theorem threadCount_eq (hr : 3 ≤ plate.rows) : (initSharedData plate threadCount).threadCount =
    min threadCount (plate.rows - 2) := by
  simp only [initSharedData, evaluatedRows_eq hr]
  split_ifs <;> omega

theorem threadCount_pos (hr : 3 ≤ plate.rows) (ht : 1 ≤ threadCount) :
    0 < (initSharedData plate threadCount).threadCount := by
  rw [threadCount_eq hr]
  omega

theorem startingRow_eq (hr : 3 ≤ plate.rows) {i : ℕ}
    (hi : i < (initSharedData plate threadCount).threadCount) :
    (initSharedData plate threadCount).startingRow i = getFinishRow i (plate.rows - 2)
      (initSharedData plate threadCount).threadCount + 1 := by
  simp only [initSharedData, evaluatedRows_eq hr] at hi ⊢
  rw [initPrivateData_getD hi]

theorem finishRow_eq (hr : 3 ≤ plate.rows) {i : ℕ}
    (hi : i < (initSharedData plate threadCount).threadCount) :
    (initSharedData plate threadCount).finishRow i = getFinishRow (i + 1) (plate.rows - 2)
      (initSharedData plate threadCount).threadCount + 1 := by
  simp only [initSharedData, evaluatedRows_eq hr] at hi ⊢
  rw [initPrivateData_getD hi]

theorem cover (hr : 3 ≤ plate.rows) (ht : 1 ≤ threadCount) :
    Cover (initSharedData plate threadCount).threadCount
      (initSharedData plate threadCount).startingRow
      (initSharedData plate threadCount).finishRow plate.rows where
  pos := threadCount_pos hr ht
  le i hi := by
    rw [startingRow_eq hr hi, finishRow_eq hr hi]
    have := getFinishRow_mono i (plate.rows - 2) (initSharedData plate threadCount).threadCount
    omega
  interior i hi row h1 h2 := by
    rw [startingRow_eq hr hi] at h1
    rw [finishRow_eq hr hi] at h2
    have := getFinishRow_le (e := plate.rows - 2) (show i + 1 ≤ _ from hi)
    omega
  exists_block row h1 h2 := by
    have hlast : getFinishRow (initSharedData plate threadCount).threadCount (plate.rows - 2)
        (initSharedData plate threadCount).threadCount = plate.rows - 2 :=
      getFinishRow_last (threadCount_pos hr ht)
    obtain ⟨i, hi, hf⟩ := exists_between (fun i => getFinishRow i (plate.rows - 2)
      (initSharedData plate threadCount).threadCount + 1) (r := row) (by simpa using h1)
      (show row < getFinishRow _ _ _ + 1 by rw [hlast]; omega)
    refine ⟨i, hi, ?_⟩
    rw [startingRow_eq hr hi, finishRow_eq hr hi]
    exact hf

end Team

end Concurrente.Heat.Optimized
