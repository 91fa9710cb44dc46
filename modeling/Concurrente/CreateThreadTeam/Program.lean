import Concurrente.Checked
import Concurrente.Transition

/-!
# create_thread_team

Memory in words of eight bytes.  `create_threads` allocates `sizeof(private_data)` bytes for a
record, where `private_data` is the pointer that it declares, and passes `data` to every thread.
-/

namespace Concurrente.CreateThreadTeam

inductive BlockName where
  | sharedData
  | privateData
  deriving DecidableEq

structure Address where
  block : BlockName
  word : ℕ
  deriving DecidableEq

inductive Word where
  | number (n : ℕ)
  | pointer (address : Address)
  | matrix
  | threadId (thread : ℕ)

/-- The fields of `private_data_t` by their words. -/
inductive Field where
  | threadId
  | threadNumber
  | threadCount
  | shrData

def Field.word : Field → ℕ
  | threadId => 0
  | threadNumber => 1
  | threadCount => 2
  | shrData => 3

/-- `sizeof(private_data_t)` and `sizeof(private_data)`. -/
def recordWords : ℕ := 4

def pointerWords : ℕ := 1

/-- `&private_data[index]`. -/
def record (index : ℕ) : Address := ⟨.privateData, recordWords * index⟩

def Address.field (data : Address) (field : Field) : Address :=
  ⟨data.block, data.word + field.word⟩

/-- The array of records is NULL before it is allocated and after it is released. -/
structure Heap where
  sharedData : Block Word
  privateData : Option (Block Word)

def teamCount : ℕ := 2

def threadCount (athleteCount : ℕ) : ℕ := teamCount * athleteCount % 2 ^ 64

/-- Whether `create_threads` gets its memory, whether `pthread_create` succeeds, and the numbers
that are stored for pointers and threads. -/
structure Environment where
  allocates : Bool
  creates : ℕ → Bool
  bits : Word → ℕ

def Word.toNumber (env : Environment) : Word → ℕ
  | number n => n
  | word => env.bits word

def Word.toAddress : Word → Except Fault Address
  | pointer address => .ok address
  | _ => .error .nullPointer

def Word.toMatrix : Word → Except Fault Unit
  | matrix => .ok ()
  | _ => .error .nullPointer

namespace Heap

variable (heap : Heap)

def records : Except Fault (Block Word) :=
  match heap.privateData with
  | some block => .ok block
  | none => .error .nullPointer

def read (address : Address) : Except Fault Word :=
  match address.block with
  | .sharedData => heap.sharedData.read address.word
  | .privateData => do
    let block ← heap.records
    block.read address.word

def write (address : Address) (word : Word) : Except Fault Heap :=
  match address.block with
  | .sharedData => do
    let block ← heap.sharedData.write address.word word
    .ok { heap with sharedData := block }
  | .privateData => do
    let block ← heap.records
    let block ← block.write address.word word
    .ok { heap with privateData := some block }

end Heap

/-- `athlete`: the cell of `best_shots` that the thread writes. -/
def athlete (env : Environment) (athleteCount : ℕ) (heap : Heap) (data : Address) :
    Except Fault (ℕ × ℕ) := do
  let shrData ← (← heap.read (data.field .shrData)).toAddress
  let threadNumber := (← heap.read (data.field .threadNumber)).toNumber env
  let count := (← heap.read ⟨shrData.block, shrData.word + 1⟩).toNumber env
  let _ ← (← heap.read shrData).toMatrix
  -- an odd count is not 0
  let teamNumber := threadNumber / count
  let athleteNumber := threadNumber % count
  -- the matrix has `team_count` rows of `athlete_count` cells
  if teamNumber < teamCount then
    if athleteNumber < athleteCount then .ok (teamNumber, athleteNumber)
    else .error (.outside athleteNumber athleteCount)
  else .error (.outside teamNumber teamCount)

/-- A thread of the team with the argument it was created with. -/
inductive Thread where
  | absent
  | created (data : Address)
  | finished (data : Address)

/-- Where the main thread is in `create_threads` and `join_threads`.  The first call of
`join_threads` is that of `create_threads` after a failed creation, the `last` one that of
`compete`. -/
inductive Main where
  | allocate
  | create (index : ℕ)
  | join (index count : ℕ) (last : Bool)
  | returned

/-- `writes` are the writes of the cells of `best_shots` with the thread that did them. -/
structure State where
  heap : Heap
  main : Main
  thread : ℕ → Thread
  writes : List ((ℕ × ℕ) × ℕ)
  fault : Option Fault

/-- One round of the loop of `create_threads`. -/
def createThread (env : Environment) (count : ℕ) (data : Address) (s : State) (index : ℕ) :
    Except Fault State := do
  let heap ← s.heap.write ((record index).field .threadNumber) (.number index)
  let heap ← heap.write ((record index).field .threadCount) (.number count)
  let heap ← heap.write ((record index).field .shrData) (.pointer data)
  if env.creates index then do
    let heap ← heap.write ((record index).field .threadId) (.threadId index)
    .ok { s with
      heap := heap
      main := .create (index + 1)
      thread := Function.update s.thread index (.created data) }
  else .ok { s with heap := heap, main := .join 0 index false }

/-- `pthread_join`; it waits for the thread. -/
def joinThread (s : State) (index count : ℕ) (last : Bool) : Except Fault (Option State) := do
  match ← s.heap.read ((record index).field .threadId) with
  | .threadId k =>
    match s.thread k with
    | .finished _ => .ok (some { s with main := .join (index + 1) count last })
    | _ => .ok none
  | _ => .error .nullPointer

/-- The next step of `compete`. -/
def compete (env : Environment) (count : ℕ) (data : Address) (s : State) :
    Except Fault (Option State) :=
  match s.main with
  | .allocate =>
    if env.allocates then
      let block : Block Word := ⟨count * pointerWords, fun _ => .number 0⟩
      .ok (some { s with heap := { s.heap with privateData := some block }, main := .create 0 })
    else .ok (some { s with main := .join 0 count true })
  | .create index =>
    if index < count then (createThread env count data s index).map some
    else .ok (some { s with main := .join 0 count true })
  | .join index joined last =>
    if index < joined then joinThread s index joined last
    else
      -- `free(private_data)`; after a failed creation `create_threads` returns NULL
      .ok (some { s with
        heap := { s.heap with privateData := none }
        main := if last then .returned else .join 0 count true })
  | .returned => .ok none

inductive Mover where
  | main
  | athlete (thread : ℕ)

/-- The shared data that `main` passes to `compete`. -/
def sharedData (athleteCount : ℕ) : Block Word :=
  ⟨2, fun i => if i = 0 then .matrix else .number athleteCount⟩

/-- A step that is undefined leaves its fault. -/
def State.settle (s : State) : Except Fault (Option State) → Option State
  | .ok t => t
  | .error fault => some { s with fault := some fault }

def runAthlete (env : Environment) (athleteCount : ℕ) (s : State) (i : ℕ) :
    Except Fault (Option State) :=
  match s.thread i with
  | .created data => do
    let cell ← athlete env athleteCount s.heap data
    .ok (some { s with
      thread := Function.update s.thread i (.finished data)
      writes := s.writes ++ [(cell, i)] })
  | _ => .ok none

def system (env : Environment) (athleteCount : ℕ) : System State Mover where
  start := ⟨⟨sharedData athleteCount, none⟩, .allocate, fun _ => .absent, [], none⟩
  step s a :=
    if s.fault.isSome then none
    else match a with
      | .main => s.settle (compete env (threadCount athleteCount) ⟨.sharedData, 0⟩ s)
      | .athlete i => s.settle (runAthlete env athleteCount s i)

def Thread.data : Thread → Option Address
  | absent => none
  | created data | finished data => some data

/-- Every access is inside of its block, every thread gets its own record, and when `compete`
returns all threads have finished and every cell was written once, by the thread of its number. -/
structure Works (env : Environment) (athleteCount : ℕ) : Prop where
  safe : ∀ s, (system env athleteCount).Reachable s → s.fault = none
  own : ∀ s, (system env athleteCount).Reachable s → ∀ i data,
    (s.thread i).data = some data → data = record i
  finished : ∀ s, (system env athleteCount).Reachable s → s.main = .returned →
    ∀ i < teamCount * athleteCount, s.thread i = .finished (record i)
  cells : ∀ s, (system env athleteCount).Reachable s → s.main = .returned →
    ∀ team < teamCount, ∀ number < athleteCount,
      s.writes.filter (fun write => write.1 = (team, number)) =
        [((team, number), team * athleteCount + number)]

end Concurrente.CreateThreadTeam
