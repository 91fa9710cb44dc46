import Concurrente.OmpMpi.Errors
import Concurrente.Scanf
import Concurrente.Slice

/-!
# `set_job`

The plates of a job file are read by one `fscanf` each and stored in an array that is
expanded when it is full.  The word for the name goes to a buffer of 256 characters,
whatever its length.  Which calls of `calloc` and `realloc` succeed is given, and so is
`strtod`, of which only matters that it depends on the characters of a number.
-/

namespace Concurrente.OmpMpi.SetJob

open Scanf

/-- `plate_t` before its matrix is loaded. -/
structure Plate (δ : Type) where
  fileName : List Char
  thermalDiffusivity : δ
  intervalDuration : ℕ
  cellsDimension : δ
  epsilon : δ
  kStates : ℕ

/-- The plates of `job_t`; where none was stored there is a null pointer. -/
structure Job (δ : Type) where
  platesCount : ℕ
  platesCapacity : ℕ
  plates : Block (Option (Plate δ))

/-- The variables that `fscanf` assigns. -/
structure Variables (δ : Type) where
  plateFileName : Block Char
  intervalDuration : ℕ
  thermalDiffusivity : δ
  cellsDimension : δ
  epsilon : δ

structure Allocations where
  plate : Bool
  plateFileName : Bool
  expansion : Bool

def startingCapacity : ℕ := 50

def maxFileNameSize : ℕ := 256

section Code

variable {δ : Type}

/-- `init_job`, whose allocations succeeded. -/
def initJob : Job δ := ⟨0, startingCapacity, ⟨startingCapacity, fun _ => none⟩⟩

/-- `%s` writes the word and a terminator. -/
def storeFileName (t : List Char) (v : Variables δ) : Except Fault (Variables δ) :=
  if t.length + 1 ≤ v.plateFileName.size then
    .ok { v with plateFileName := v.plateFileName.splice 0 (t ++ ['\x00']) }
  else .error (.outside v.plateFileName.size v.plateFileName.size)

def format (strtod : List Char → δ) : List (Directive (Variables δ)) :=
  [.string storeFileName, .space,
    .number unsigned fun t v => { v with intervalDuration := strtoull t }, .space,
    .number float fun t v => { v with thermalDiffusivity := strtod t }, .space,
    .number float fun t v => { v with cellsDimension := strtod t }, .space,
    .number float fun t v => { v with epsilon := strtod t }, .space]

def cString (b : Block Char) : List Char := (b.slice 0 b.size).takeWhile fun c => c ≠ '\x00'

/-- `realloc` of `sizeof(plate_t*) * plates_capacity` bytes keeps the plates that are there.  Where
it fails, `destroy_job` is called here and again by the loop, after it frees the plate: that double
free is in `Ownership.readLines`, here is only the code that the loop would return. -/
def expandJob (expansion : Bool) (job : Job δ) : Except ErrorCode (Job δ) :=
  let platesCapacity := job.platesCapacity * 2 % 2 ^ 64
  if expansion = false then .error .jobExpansion
  else .ok { job with
    platesCapacity := platesCapacity
    plates := ⟨8 * platesCapacity % 2 ^ 64 / 8,
      fun i => if i < job.plates.size then job.plates.cells i else none⟩ }

def checkCapacity (expansion : Bool) (job : Job δ) : Except ErrorCode (Job δ) :=
  if job.platesCount = job.platesCapacity then expandJob expansion job else .ok job

def addPlate (allocations : Allocations) (v : Variables δ) (job : Job δ) :
    Except Fault (Except ErrorCode (Job δ)) :=
  if allocations.plate = false then .ok (.error .plateAlloc)
  else if allocations.plateFileName = false then .ok (.error .plateFileNameAlloc)
  else do
    let currPlate := ⟨cString v.plateFileName, v.thermalDiffusivity, v.intervalDuration,
      v.cellsDimension, v.epsilon, 0⟩
    let plates ← job.plates.write job.platesCount (some currPlate)
    return checkCapacity allocations.expansion
      { job with plates := plates, platesCount := (job.platesCount + 1) % 2 ^ 64 }

/-- The job, the variables and the text that has not been read. -/
structure Reading (δ : Type) where
  job : Job δ
  vars : Variables δ
  rest : List Char

inductive Round (δ : Type)
  | again (x : Reading δ)
  | finished (job : Job δ)
  | failed (code : ErrorCode)

variable (strtod : List Char → δ) (memory : ℕ → Allocations)

def readPlate (x : Reading δ) : Except Fault (Round δ) := do
  let (count, v, rest) ← scanf (format strtod) x.rest x.vars 0
  if count = 5 then
    match ← addPlate (memory x.job.platesCount) v x.job with
    | .ok job => return .again ⟨job, v, rest⟩
    | .error code => return .failed code
  else return .finished x.job

variable {strtod memory}

theorem readPlate_length {x y : Reading δ} (h : readPlate strtod memory x = .ok (.again y)) :
    y.rest.length < x.rest.length := by
  simp only [readPlate, bind, Except.bind] at h
  split at h
  next => cases h
  next z hz =>
    split_ifs at h with hcount
    · split at h
      next => cases h
      next r hr =>
        split at h
        next =>
          cases h
          exact scanf_string_length hz (by rw [hcount]; norm_num)
        next => cases h
    · cases h

variable (strtod memory)

def readPlates (x : Reading δ) : Except Fault (Except ErrorCode (Job δ)) :=
  match _h : readPlate strtod memory x with
  | .ok (.again y) => readPlates y
  | .ok (.finished job) => .ok (.ok job)
  | .ok (.failed code) => .ok (.error code)
  | .error e => .error e
termination_by x.rest.length
decreasing_by exact readPlate_length _h

def initVariables [Zero δ] : Variables δ := ⟨⟨maxFileNameSize, fun _ => '\x00'⟩, 0, 0, 0, 0⟩

def start [Zero δ] (text : List Char) : Reading δ := ⟨initJob, initVariables, text⟩

/-- Without a text the job file could not be opened. -/
def setJob [Zero δ] : Option (List Char) → Except Fault (Except ErrorCode (Job δ))
  | none => .ok (.error .jobFileNotFound)
  | some text => readPlates strtod memory (start text)

def rounds [Zero δ] (text : List Char) : ℕ → Except Fault (Round δ)
  | 0 => .ok (.again (start text))
  | k + 1 => do
    match ← rounds text k with
    | .again x => readPlate strtod memory x
    | r => return r

end Code

def jobLines (text : List Char) : List (List Char) :=
  (text.splitOn '\n').filter fun line => !(words line).isEmpty

/-- A line with a name of at most 255 characters, an unsigned 64-bit integer and three
numbers. -/
def WellFormed (line : List Char) : Prop :=
  ∃ name interval diffusivity dimension epsilon,
    words line = [name, interval, diffusivity, dimension, epsilon] ∧
    name.length < maxFileNameSize ∧ '\x00' ∉ name ∧
    (∀ c ∈ interval, c.isDigit = true) ∧ digitsValue interval < 2 ^ 64 ∧
    float.accepts diffusivity = true ∧ float.accepts dimension = true ∧
    float.accepts epsilon = true

def fields {δ : Type} (strtod : List Char → δ) (line : List Char) : Option (Plate δ) :=
  match words line with
  | [name, interval, diffusivity, dimension, epsilon] => some
    ⟨name, strtod diffusivity, digitsValue interval, strtod dimension, strtod epsilon, 0⟩
  | _ => none

/-- All allocations for `n` plates succeed.  Then their blocks, of 56 bytes each, lie apart in
the memory. -/
structure AllocationsSucceed (memory : ℕ → Allocations) (n : ℕ) : Prop where
  succeed : ∀ i, memory i = ⟨true, true, true⟩
  apart : 56 * n ≤ 2 ^ 64

end Concurrente.OmpMpi.SetJob
