import Concurrente.Heat.Memory.Program
import Concurrente.OmpMpi.Paths
import Concurrente.OmpMpi.Protocol
import Concurrente.OmpMpi.SetJob

/-!
# The resources of a process

`main` of omp_mpi with the job, its plates, their matrices and MPI as explicit state.  The
environment decides every call: what is allocated, opened and read, which messages arrive and
which are sent.  A process that waits for a message that never comes does not end.
-/

namespace Concurrente.OmpMpi.Ownership

open Heat.Memory (Callocs)
open SetJob (Allocations startingCapacity)
open CString (strrchr)

inductive Life
  | absent
  | live
  | destroyed
  deriving DecidableEq, Repr

/-- What `source_directory` points to. -/
inductive Directory
  | null
  | literal
  | allocated
  deriving DecidableEq, Repr

/-- `extract_directory`: without a slash it returns the literal `""`. -/
def Directory.extract (calloc : Bool) (filepath : Text) : Directory :=
  match strrchr '/' filepath with
  | none => .literal
  | some _ => if calloc then .allocated else .null

/-- `undefined` records the use or the destruction of what is not live. -/
structure Resources where
  job : Life
  sourceDirectory : Directory
  platesCount : ℕ
  platesCapacity : ℕ
  plateFreed : ℕ → Bool
  plateMatrix : ℕ → Life
  mpi : Life
  destroyJobs : ℕ
  finalizes : ℕ
  undefined : Bool

namespace Resources

variable (r : Resources)

/-- Marks the state unless `ok`. -/
def check (ok : Bool) : Resources := { r with undefined := r.undefined || !ok }

def useJob : Resources := r.check (r.job = .live)

def usePlate (i : ℕ) : Resources :=
  r.useJob.check (i < r.platesCount ∧ r.plateFreed i = false)

def freePlate (i : ℕ) : Resources :=
  { r.check (r.plateFreed i = false) with plateFreed := Function.update r.plateFreed i true }

def usePlateMatrix (i : ℕ) : Resources := r.check (r.plateMatrix i = .live)

def destroyPlateMatrix (i : ℕ) : Resources :=
  { r.usePlateMatrix i with plateMatrix := Function.update r.plateMatrix i .destroyed }

/-- `destroy_job` frees the plates that are recorded, the directory, and then the job. -/
def destroyJob : Resources :=
  { (r.useJob.check (∀ i < r.platesCount, r.plateFreed i = false)).check
      -- a literal must not be freed, a null pointer may be
      (r.sourceDirectory ≠ .literal) with
    plateFreed := fun i => decide (i < r.platesCount) || r.plateFreed i
    job := .destroyed
    destroyJobs := r.destroyJobs + 1 }

def mpiwrapperFinalize : Resources :=
  { r.check (r.mpi = .live) with mpi := .destroyed, finalizes := r.finalizes + 1 }

end Resources

open Resources

/-- The calls of `process_plate` that succeed: the path of the plate file is built, the file is
opened, its dimensions are read, the matrices are allocated, the output name and its path are
built, and the output file is opened. -/
structure PlateCalls where
  path : Bool
  opened : Bool
  dimensions : Bool
  callocs : Callocs
  outputName : Bool
  outputPath : Bool
  output : Bool

/-- A round of the loop of the master: what it receives.  Whether the next plate is sent does not
matter, since the result of that send is overwritten. -/
structure MasterRound where
  index : Option CInt
  states : Bool

structure WorkerRound where
  index : Option CInt
  plate : PlateCalls
  sendIndex : Bool
  sendStates : Bool

/-- `jobPath` is the first argument; `lines` are the lines of the job with their allocations,
`plates` the plates of a process alone, `sends` and `stops` the sends to a process of its first
plate and of its stop signal. -/
structure Environment where
  mpiInit : Bool
  arguments : Option ErrorCode
  commRank : Bool
  commSize : Bool
  processNumber : ℕ
  processCount : ℕ
  processCount_lt : processCount < 2 ^ 31
  jobPath : Text
  jobCalloc : Bool
  directoryCalloc : Bool
  platesCalloc : Bool
  jobFile : Bool
  lines : List Allocations
  plates : ℕ → PlateCalls
  sends : ℕ → Bool
  stops : ℕ → Bool
  masterRounds : List MasterRound
  workerRounds : List WorkerRound

inductive Exit
  | waiting
  | success
  | failure (code : ErrorCode)
  deriving DecidableEq, Repr

def initJob (env : Environment) (r : Resources) : Bool × Resources :=
  if env.jobCalloc then
    let r := { r with
      job := .live
      sourceDirectory := Directory.extract env.directoryCalloc env.jobPath
      platesCount := 0
      platesCapacity := startingCapacity }
    if env.platesCalloc then (true, r) else (false, r.destroyJob)
  else (false, r)

/-- Whether the array was expanded; if not the job is destroyed. -/
def expandJob (line : Allocations) (r : Resources) : Bool × Resources :=
  let r := { r with platesCapacity := r.platesCapacity * 2 }
  if line.expansion then (true, r) else (false, r.destroyJob)

def checkCapacity (line : Allocations) (r : Resources) : Bool × Resources :=
  let r := r.useJob
  if r.platesCount = r.platesCapacity then expandJob line r else (true, r)

/-- The loop of `set_job`. -/
def readLines : List Allocations → Resources → Exit × Resources
  | [], r => (.success, r)
  | line :: lines, r =>
    if line.plate = false then (.failure .plateAlloc, r.destroyJob)
    -- the new plate is freed, it is not yet one of the job
    else if line.plateFileName = false then (.failure .plateFileNameAlloc, r.destroyJob)
    else
      let i := r.platesCount
      let r := { r.useJob with
        platesCount := i + 1
        plateFreed := Function.update r.plateFreed i false
        plateMatrix := Function.update r.plateMatrix i .absent }
      let checked := checkCapacity line r
      if checked.1 then readLines lines checked.2
      else (.failure .jobExpansion, (checked.2.freePlate i).destroyJob)

def setJob (env : Environment) (r : Resources) : Exit × Resources :=
  let r := r.useJob
  if env.jobFile then readLines env.lines r else (.failure .jobFileNotFound, r.destroyJob)

/-- Whether `build_file_path` builds the path of a file of the job. -/
def buildFilePath (path : Bool) (r : Resources) : Bool := r.sourceDirectory ≠ .null && path

/-- Whether the matrix of the plate was loaded. -/
def setPlateMatrix (calls : PlateCalls) (r : Resources) (i : ℕ) : Bool × Resources :=
  if buildFilePath calls.path r && calls.opened && calls.dimensions then
    let allocated :=
      calls.callocs.plateMatrix && calls.callocs.matrix && calls.callocs.auxiliaryMatrix
    let r := { r with
      plateMatrix := Function.update r.plateMatrix i (if allocated then .live else .absent) }
    (true, r.usePlateMatrix i)
  else (false, r)

def updatePlateFile (calls : PlateCalls) (r : Resources) (i : ℕ) : Bool × Resources :=
  if calls.outputName && buildFilePath calls.outputPath r then
    if calls.output then (true, r.usePlateMatrix i)
    -- the file that is closed is null
    else (false, (r.destroyPlateMatrix i).check false)
  else (false, r)

def cleanPlate (calls : PlateCalls) (r : Resources) (i : ℕ) : Resources :=
  let updated := updatePlateFile calls (r.usePlate i) i
  if updated.1 then updated.2.destroyPlateMatrix i else updated.2.destroyJob

def processPlate (calls : PlateCalls) (r : Resources) (i : ℕ) : Resources :=
  let loaded := setPlateMatrix calls (r.usePlate i) i
  if loaded.1 then cleanPlate calls (loaded.2.usePlateMatrix i) i
  else loaded.2.destroyPlateMatrix i

/-- The loop reads the number of plates before each round and after the last. -/
def processPlates (env : Environment) (r : Resources) : Resources :=
  ((List.range r.platesCount).foldl (fun r i => processPlate (env.plates i) r.useJob i) r).useJob

def workingProcesses (env : Environment) (platesCount : ℕ) : ℕ :=
  if env.processCount - 1 < platesCount then env.processCount - 1 else platesCount

/-- The sends to the processes from 1 to before `count` succeed. -/
def sendsSucceed (send : ℕ → Bool) (count : ℕ) : Bool := (List.range' 1 (count - 1)).all send

def masterLoop (working : ℕ) : List MasterRound → CInt → ℤ → Resources → Bool × Resources
  | [], _, _, r => (false, r)
  | round :: rounds, current, available, r =>
    match round.index with
    | none => (true, r)
    | some index =>
      if round.states = false then (true, r)
      else
        let r := if toSizeT index < r.platesCount then r.usePlate (toSizeT index) else r.useJob
        if toSizeT current < r.platesCount then
          -- one worker has become available and is sent to work again; the largest `int` overflows
          masterLoop working rounds (current + 1) (available + 1 - 1) (r.check (current ≠ intMax))
        else if available + 1 = working then (true, r)
        else masterLoop working rounds current (available + 1) r

def jobMasterStopWorkers (env : Environment) (r : Resources) : Exit × Resources :=
  (if sendsSucceed env.stops env.processCount then .success else .failure .mpiSend, r.useJob)

def jobMasterProcess (env : Environment) (r : Resources) : Exit × Resources :=
  let r := r.useJob
  let working := workingProcesses env r.platesCount
  -- process 0 does not send to itself, so one working process gets no plate
  if sendsSucceed env.sends working then
    let looped := masterLoop working env.masterRounds (BitVec.ofNat 32 (working - 1))
      (working - (working - 1 : ℕ)) r
    if looped.1 then jobMasterStopWorkers env looped.2 else (.waiting, looped.2)
  else (.failure .mpiSend, r)

def jobWorkerProcess : List WorkerRound → Resources → Bool × Resources
  | [], r => (false, r)
  | round :: rounds, r =>
    match round.index with
    | none => (true, r)
    | some index =>
      let r := r.useJob
      -- the stop signal
      if r.platesCount ≤ toSizeT index then (true, r)
      else
        let r := processPlate round.plate r (toSizeT index)
        if round.sendIndex = false then (true, r)
        else
          let r := r.usePlate (toSizeT index)
          if round.sendStates = false then (true, r) else jobWorkerProcess rounds r

/-- `simulate` for a process with a job. -/
def runJob (env : Environment) (r : Resources) : Exit × Resources :=
  if env.processNumber = 0 then
    let processed :=
      if 1 < env.processCount then jobMasterProcess env r else (.success, processPlates env r)
    match processed.1 with
    | .waiting => (.waiting, processed.2)
    | .failure code => (.failure code, processed.2.destroyJob.mpiwrapperFinalize)
    -- the report reads the job
    | .success => (.success, processed.2.useJob.destroyJob)
  else
    let worked := jobWorkerProcess env.workerRounds r
    if worked.1 then (.success, worked.2.destroyJob) else (.waiting, worked.2)

def simulate (env : Environment) (r : Resources) : Exit × Resources :=
  if env.commRank = false then (.failure .setProcessNumber, r)
  else if env.commSize = false then (.failure .setProcessCount, r)
  else
    let created := initJob env r
    if created.1 then
      let set := setJob env created.2
      if set.1 = .success then runJob env set.2 else set
    else (.failure .jobInit, created.2)

/-- Before `MPI_Init`. -/
def begin : Resources where
  job := .absent
  sourceDirectory := .null
  platesCount := 0
  platesCapacity := 0
  plateFreed := fun _ => false
  plateMatrix := fun _ => .absent
  mpi := .absent
  destroyJobs := 0
  finalizes := 0
  undefined := false

def main (env : Environment) : Exit × Resources :=
  if env.mpiInit = false then (.failure .initMpi, begin)
  else
    let r := { begin with mpi := .live }
    let done := match env.arguments with
      | some code => (.failure code, r)
      | none => simulate env r
    -- `main` finalizes MPI whatever `simulate` has returned
    if done.1 = .waiting then done else (done.1, done.2.mpiwrapperFinalize)

/-- Nothing is used or destroyed that is not live, the job is destroyed at most once, and MPI is
finalized exactly once. -/
structure Owned (x : Exit × Resources) : Prop where
  defined : x.2.undefined = false
  destroyed : x.2.destroyJobs ≤ 1
  finalized : x.2.finalizes = 1

/-- All calls for a plate of the directory succeed. -/
structure PlateCalls.Succeed (calls : PlateCalls) (directory : Directory) : Prop where
  directory : directory ≠ .null
  path : calls.path = true
  opened : calls.opened = true
  dimensions : calls.dimensions = true
  plateMatrix : calls.callocs.plateMatrix = true
  matrix : calls.callocs.matrix = true
  auxiliaryMatrix : calls.callocs.auxiliaryMatrix = true
  outputName : calls.outputName = true
  outputPath : calls.outputPath = true
  output : calls.output = true

/-- No expansion fails up to the first plate that cannot be allocated. -/
def Expands : List Allocations → ℕ → ℕ → Prop
  | [], _, _ => True
  | line :: lines, count, capacity =>
    line.plate = true → line.plateFileName = true →
      if count + 1 = capacity then line.expansion = true ∧ Expands lines (count + 1) (capacity * 2)
      else Expands lines (count + 1) capacity

/-- The rounds end the loop of the master, and its `int` can count the plates that are sent. -/
def Ends (platesCount working : ℕ) : List MasterRound → CInt → ℤ → Prop
  | [], _, _ => False
  | round :: rounds, current, available =>
    round.index = none ∨ round.states = false ∨
      if toSizeT current < platesCount then
        current ≠ intMax ∧ Ends platesCount working rounds (current + 1) available
      else available + 1 = working ∨ Ends platesCount working rounds current (available + 1)

/-- The worker gets to leave, and until then all its plates succeed. -/
def Works (directory : Directory) (platesCount : ℕ) : List WorkerRound → Prop
  | [] => False
  | round :: rounds => ∀ index, round.index = some index → toSizeT index < platesCount →
      round.plate.Succeed directory ∧ (round.sendIndex = true → round.sendStates = true →
        Works directory platesCount rounds)

/-- The first plates are sent, the loop ends, and the stop signals are sent. -/
def Environment.Sends (env : Environment) (platesCount : ℕ) : Prop :=
  let working := workingProcesses env platesCount
  sendsSucceed env.sends working ∧
    Ends platesCount working env.masterRounds (BitVec.ofNat 32 (working - 1))
      (working - (working - 1 : ℕ)) ∧ sendsSucceed env.stops env.processCount

def Environment.directory (env : Environment) : Directory :=
  Directory.extract env.directoryCalloc env.jobPath

/-- The part of the process succeeds: the messages of a master, and all plates of a process alone
or of a worker. -/
def Environment.Runs (env : Environment) (platesCount : ℕ) : Prop :=
  if env.processNumber = 0 then
    if 1 < env.processCount then env.Sends platesCount
    else ∀ i < platesCount, (env.plates i).Succeed env.directory
  else Works env.directory platesCount env.workerRounds

structure Environment.Creates (env : Environment) : Prop where
  arguments : env.arguments = none
  commRank : env.commRank = true
  commSize : env.commSize = true
  jobCalloc : env.jobCalloc = true

structure Environment.Reads (env : Environment) : Prop extends env.Creates where
  platesCalloc : env.platesCalloc = true
  jobFile : env.jobFile = true

/-- MPI is initialized, a job that is created has a path with a directory, no array of plates fails
to expand, and with all plates read the part of the process succeeds. -/
structure Environment.Sound (env : Environment) : Prop where
  mpiInit : env.mpiInit = true
  jobPath : env.Creates → '/' ∈ env.jobPath
  lines : env.Reads → Expands env.lines 0 startingCapacity
  runs : env.Reads → (∀ line ∈ env.lines, line.plate = true ∧ line.plateFileName = true) →
    env.Runs env.lines.length

end Concurrente.OmpMpi.Ownership
