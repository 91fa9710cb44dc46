import Concurrente.Transition
import Mathlib.Logic.Function.Basic
import Mathlib.Data.BitVec

/-!
# Master and workers of omp_mpi

`jobMasterProcess`, `jobMasterStopWorkers` and `jobWorkerProcess` as processes
that exchange messages over one FIFO channel per ordered pair.  Every message
is one `MPI_INT`: four bytes, whatever the type of the object they come from.
Sends and receives succeed, every process has its own copy of the job, and the
master has no step where the increment of an `int` would overflow.
-/

namespace Concurrente.OmpMpi

/-- An `int`: the four bytes that one `MPI_INT` carries. -/
abbrev CInt := BitVec 32

def intMax : CInt := BitVec.ofNat 32 (2 ^ 31 - 1)

/-- An `int` operand of a comparison with a `size_t`. -/
def toSizeT (x : CInt) : ℕ := (x.signExtend 64).toNat

/-- The first four bytes of a little-endian `uint64_t` or `size_t`. -/
def sendInt (x : BitVec 64) : CInt := x.setWidth 32

/-- Four bytes received at the start of a little-endian `uint64_t`. -/
def recvInt (buffer : BitVec 64) (x : CInt) : BitVec 64 :=
  (buffer >>> 32 <<< 32) ||| x.setWidth 64

/-- What every process reads with `setJob`: `plates` holds `platesCount` pointers of
eight bytes, and simulating plate `i` takes `simulated i` states. -/
structure Job where
  platesCount : ℕ
  intervalDuration : ℕ → BitVec 64
  simulated : ℕ → BitVec 64
  platesCount_lt : platesCount < 2 ^ 61

/-- `mpi_t` of a run in which `simulate` calls `jobMasterProcess`. -/
structure Mpi where
  processCount : ℕ
  two_le : 2 ≤ processCount
  lt_int : processCount < 2 ^ 31

/-- The send statement a message comes from.  No process reads it. -/
inductive Origin
  | plate
  | stop
  | index
  | kStates (plate : CInt)
  deriving DecidableEq, Repr

structure Message where
  data : CInt
  origin : Origin
  deriving DecidableEq, Repr

/-- Where the master is; `recvIndex` is its `MPI_Recv` with `MPI_ANY_SOURCE`. -/
inductive MasterPc
  | distribute (processNumber : ℕ)
  | recvIndex
  | recvStates (receivedPlateIdx : CInt) (source : ℕ)
  | reply (source : ℕ)
  | stopWorkers (processNumber : ℕ)
  | left
  deriving DecidableEq, Repr

inductive WorkerPc
  | recv
  | processPlate (workingPlateIdx : CInt)
  | sendIndex (workingPlateIdx : CInt)
  | sendStates (workingPlateIdx : CInt)
  | left
  deriving DecidableEq, Repr

structure Worker where
  pc : WorkerPc
  kStates : ℕ → BitVec 64

/-- `assigned` and `reported` record the plates sent, with their destination, and
the plates whose `k_states` the master took. -/
structure State where
  master : MasterPc
  currentPlateIdx : CInt
  availableWorkers : ℤ
  kStates : ℕ → BitVec 64
  worker : ℕ → Worker
  toWorker : ℕ → List Message
  toMaster : ℕ → List Message
  assigned : List (ℕ × CInt)
  reported : List CInt

/-- Who moves; `source` is the choice of `MPI_ANY_SOURCE`. -/
inductive Action
  | master (source : ℕ)
  | worker (rank : ℕ)

def workingProcesses (job : Job) (mpi : Mpi) : ℕ :=
  if mpi.processCount - 1 < job.platesCount then mpi.processCount - 1 else job.platesCount

def sendPlate (s : State) (rank : ℕ) : State :=
  { s with
    toWorker := Function.update s.toWorker rank
      (s.toWorker rank ++ [⟨s.currentPlateIdx, .plate⟩])
    currentPlateIdx := s.currentPlateIdx + 1
    availableWorkers := s.availableWorkers - 1
    assigned := s.assigned ++ [(rank, s.currentPlateIdx)] }

/-- Sends the current plate to a process and moves on to the next plate. -/
def assign (s : State) (rank : ℕ) (next : MasterPc) : Option State :=
  -- `++current_plate_idx` is not checked, and undefined at the largest `int`
  if s.currentPlateIdx = intMax then none else some { sendPlate s rank with master := next }

/-- `plate->k_states` counts up from what it holds. -/
def processPlate (job : Job) (kStates : ℕ → BitVec 64) (plateNumber : ℕ) : ℕ → BitVec 64 :=
  Function.update kStates plateNumber (kStates plateNumber + job.simulated plateNumber)

def jobMasterProcess (job : Job) (mpi : Mpi) (s : State) (source : ℕ) : Option State :=
  match s.master with
  | .distribute processNumber =>
    -- the loop stops before `working_processes`, one process too early
    if processNumber < workingProcesses job mpi then
      assign s processNumber (.distribute (processNumber + 1))
    else some { s with master := .recvIndex }
  | .recvIndex =>
    if 1 ≤ source ∧ source < mpi.processCount then
      match s.toMaster source with
      | [] => none
      | m :: rest => some { s with
          master := .recvStates m.data source
          toMaster := Function.update s.toMaster source rest }
    else none
  -- the second message of a report is received from the source of the first
  | .recvStates receivedPlateIdx source =>
    match s.toMaster source with
    | [] => none
    | m :: rest => some { s with
        master := .reply source
        toMaster := Function.update s.toMaster source rest
        -- the index is compared as a `size_t`, so a negative one is too large
        kStates := if toSizeT receivedPlateIdx < job.platesCount
          then Function.update s.kStates (toSizeT receivedPlateIdx) (recvInt 0 m.data)
          else s.kStates
        availableWorkers := s.availableWorkers + 1
        reported := s.reported ++ [receivedPlateIdx] }
  | .reply source =>
    if toSizeT s.currentPlateIdx < job.platesCount then
      assign s source .recvIndex
    -- the loop ends when the last working process has reported
    else if s.availableWorkers = workingProcesses job mpi then
      some { s with master := .stopWorkers 1 }
    else some { s with master := .recvIndex }
  -- jobMasterStopWorkers sends the first bytes of plates_count
  | .stopWorkers processNumber =>
    if processNumber < mpi.processCount then
      some { s with
        master := .stopWorkers (processNumber + 1)
        toWorker := Function.update s.toWorker processNumber
          (s.toWorker processNumber ++ [⟨sendInt (BitVec.ofNat 64 job.platesCount), .stop⟩]) }
    else some { s with master := .left }
  | .left => none

def jobWorkerProcess (job : Job) (s : State) (rank : ℕ) : Option State :=
  let w := s.worker rank
  match w.pc with
  | .recv =>
    match s.toWorker rank with
    | [] => none
    | m :: rest => some { s with
        toWorker := Function.update s.toWorker rank rest
        -- an index out of range is the stop signal
        worker := Function.update s.worker rank
          { w with
            pc := if job.platesCount ≤ toSizeT m.data then .left else .processPlate m.data } }
  | .processPlate i => some { s with
      worker := Function.update s.worker rank
        ⟨.sendIndex i, processPlate job w.kStates (toSizeT i)⟩ }
  | .sendIndex i => some { s with
      toMaster := Function.update s.toMaster rank (s.toMaster rank ++ [⟨i, .index⟩])
      worker := Function.update s.worker rank { w with pc := .sendStates i } }
  | .sendStates i => some { s with
      toMaster := Function.update s.toMaster rank
        (s.toMaster rank ++ [⟨sendInt (w.kStates (toSizeT i)), .kStates i⟩])
      worker := Function.update s.worker rank { w with pc := .recv } }
  | .left => none

def start (job : Job) (mpi : Mpi) : State where
  master := .distribute 1
  currentPlateIdx := 0
  availableWorkers := workingProcesses job mpi
  kStates := fun _ => 0
  worker := fun _ => ⟨.recv, fun _ => 0⟩
  toWorker := fun _ => []
  toMaster := fun _ => []
  assigned := []
  reported := []

def system (job : Job) (mpi : Mpi) : System State Action where
  start := start job mpi
  step s
    | .master source => jobMasterProcess job mpi s source
    | .worker rank =>
      if 1 ≤ rank ∧ rank < mpi.processCount then jobWorkerProcess job s rank else none

def Finished (mpi : Mpi) (s : State) : Prop :=
  s.master = .left ∧ ∀ rank, 1 ≤ rank → rank < mpi.processCount → (s.worker rank).pc = .left

/-- The process has been sent a plate that it has not started to report: the plate
is on its way, in simulation, or its messages are not sent yet. -/
def HoldsPlate (s : State) (rank : ℕ) : Prop :=
  (∃ m ∈ s.toWorker rank, m.origin = .plate) ∨
    ∃ i, (s.worker rank).pc = .processPlate i ∨ (s.worker rank).pc = .sendIndex i ∨
      (s.worker rank).pc = .sendStates i

def processPlates (job : Job) : ℕ → BitVec 64 :=
  (List.range job.platesCount).foldl (processPlate job) (fun _ => 0)

/-- What `writeResult` computes for a plate: its `k_states` and the simulated time. -/
def writeResult (job : Job) (kStates : ℕ → BitVec 64) (plateNumber : ℕ) : BitVec 64 × BitVec 64 :=
  (kStates plateNumber, kStates plateNumber * job.intervalDuration plateNumber)

def reportResults (job : Job) (kStates : ℕ → BitVec 64) : List (BitVec 64 × BitVec 64) :=
  (List.range job.platesCount).map (writeResult job kStates)

end Concurrente.OmpMpi
