import Concurrente.Threads

/-!
# prod_cons_bound

A producer fills a buffer round after round and a consumer empties it.  Two semaphores keep
them apart; the producer waits for `can_produce` once before its loops.
-/

namespace Concurrente.ProdConsBound

open Threads

/-- The arguments that `analyze_arguments` admits, when the buffer of doubles can be
allocated. -/
structure Config where
  bufferCapacity : ℕ
  rounds : ℕ
  bufferCapacity_pos : 1 ≤ bufferCapacity
  rounds_pos : 1 ≤ rounds
  bufferCapacity_lt : bufferCapacity < 2 ^ 61
  rounds_lt : rounds < 2 ^ 64

variable (cfg : Config)

inductive Thread where
  | producer
  | consumer
  deriving DecidableEq

/-- `SEM_VALUE_MAX`. -/
def semValueMax : ℕ := 2 ^ 31 - 1

/-- The value of a zeroed semaphore after `sem_init`, which takes an `unsigned` and leaves the
semaphore alone when this is too large. -/
def semInit (value : ℕ) : ℕ := if value % 2 ^ 32 ≤ semValueMax then value % 2 ^ 32 else 0

/-- The conversion of a count to `double`: 53 bits, rounded to even. -/
def toDouble (count : ℕ) : ℕ :=
  let ulp := 2 ^ (Nat.log2 count - 52)
  if 2 * (count % ulp) < ulp ∨ 2 * (count % ulp) = ulp ∧ count / ulp % 2 = 0 then
    count / ulp * ulp
  else (count / ulp + 1) * ulp

/-- The buffer and the semaphores.  `unread` marks the slots that hold a value which was not
read, and `consumed` records the values that were. -/
structure SharedData where
  buffer : ℕ → ℕ
  canProduce : ℕ
  canConsume : ℕ
  unread : ℕ → Bool
  consumed : List ℕ

/-- Where a thread is in `produce` or in `consume`. -/
inductive Pc where
  | surplusWait
  | waitProduce (round index count : ℕ)
  | write (round index count : ℕ)
  | signalConsume (round index count : ℕ)
  | produced
  | waitConsume (round index : ℕ)
  | read (round index : ℕ)
  | signalProduce (round index : ℕ)
  | consumed
  deriving DecidableEq

/-- The two loops after the slot `index`. -/
def afterIndex (round index : ℕ) : Option (ℕ × ℕ) :=
  if index + 1 < cfg.bufferCapacity then some (round, index + 1)
  else if round + 1 < cfg.rounds then some (round + 1, 0)
  else none

def produceAfter (round index count : ℕ) : Pc :=
  match afterIndex cfg round index with
  | some (round, index) => .waitProduce round index count
  | none => .produced

def consumeAfter (round index : ℕ) : Pc :=
  match afterIndex cfg round index with
  | some (round, index) => .waitConsume round index
  | none => .consumed

namespace SharedData

variable (s : SharedData)

def waitCanProduce (next : Pc) : Option (SharedData × Pc) :=
  if s.canProduce = 0 then none else some ({ s with canProduce := s.canProduce - 1 }, next)

def waitCanConsume (next : Pc) : Option (SharedData × Pc) :=
  if s.canConsume = 0 then none else some ({ s with canConsume := s.canConsume - 1 }, next)

/-- `buffer[index] = ++count`. -/
def write (round index count : ℕ) : SharedData × Pc :=
  let count := (count + 1) % 2 ^ 64
  ({ s with
    buffer := Function.update s.buffer index (toDouble count)
    unread := Function.update s.unread index true }, .signalConsume round index count)

def read (round index : ℕ) : SharedData × Pc :=
  ({ s with
    unread := Function.update s.unread index false
    consumed := s.consumed ++ [s.buffer index] }, .signalProduce round index)

end SharedData

/-- The loops begin in round 0 at slot 0, for neither bound is 0. -/
def next (_thread : Thread) : Pc → Instr Empty Pc SharedData
  | .surplusWait => .access fun s => s.waitCanProduce (.waitProduce 0 0 0)
  | .waitProduce round index count =>
    .access fun s => s.waitCanProduce (.write round index count)
  | .write round index count => .access fun s => some (s.write round index count)
  | .signalConsume round index count => .access fun s =>
    some ({ s with canConsume := s.canConsume + 1 }, produceAfter cfg round index count)
  | .produced => .finished
  | .waitConsume round index => .access fun s => s.waitCanConsume (.read round index)
  | .read round index => .access fun s => some (s.read round index)
  | .signalProduce round index => .access fun s =>
    some ({ s with canProduce := s.canProduce + 1 }, consumeAfter cfg round index)
  | .consumed => .finished

def start : Thread → Pc
  | .producer => .surplusWait
  | .consumer => .waitConsume 0 0

/-- What `main` leaves for the threads. -/
def code : Code Thread Empty Pc SharedData where
  memory := ⟨fun _ => 0, semInit cfg.bufferCapacity, 0, fun _ => false, []⟩
  start := start
  next := next cfg

abbrev Run := State Thread Empty Pc SharedData

def total : ℕ := cfg.bufferCapacity * cfg.rounds

structure Correct (s : Run) : Prop where
  noOverwrite : ∀ round index count, s.thread .producer = .write round index count →
    s.memory.unread index = false
  consumed : s.memory.consumed = List.range' 1 s.memory.consumed.length
  progress : (code cfg).system.Stuck s → s.thread .producer = .produced ∧
    s.thread .consumer = .consumed ∧ s.memory.consumed.length = total cfg

theorem toDouble_of_lt {count : ℕ} (h : count < 2 ^ 53) : toDouble count = count := by
  have hlog : Nat.log2 count - 52 = 0 := by
    by_cases h0 : count = 0
    · subst h0
      rfl
    · have := (Nat.log2_lt h0).mpr h
      omega
  simp [toDouble, hlog, Nat.mod_one]

theorem toDouble_of_le {count : ℕ} (h : count ≤ 2 ^ 53) : toDouble count = count := by
  rcases Nat.lt_or_eq_of_le h with h | rfl
  · exact toDouble_of_lt h
  · decide

theorem toDouble_ne : toDouble (2 ^ 53 + 1) ≠ 2 ^ 53 + 1 := by decide

def position (round index : ℕ) : ℕ := round * cfg.bufferCapacity + index

def Inside (round index : ℕ) : Prop := round < cfg.rounds ∧ index < cfg.bufferCapacity

section Position

variable {cfg} {round index : ℕ}

theorem Inside.mod (h : Inside cfg round index) :
    position cfg round index % cfg.bufferCapacity = index := by
  rw [position, Nat.mul_add_mod_self_right, Nat.mod_eq_of_lt h.2]

theorem Inside.lt (h : Inside cfg round index) : position cfg round index < total cfg := by
  have hle : (round + 1) * cfg.bufferCapacity ≤ cfg.rounds * cfg.bufferCapacity :=
    Nat.mul_le_mul_right _ h.1
  have hlt := h.2
  rw [Nat.add_mul, Nat.one_mul] at hle
  rw [total, position, Nat.mul_comm cfg.bufferCapacity]
  omega

theorem Inside.after (h : Inside cfg round index) :
    (∃ round' index', afterIndex cfg round index = some (round', index') ∧
      Inside cfg round' index' ∧
      position cfg round' index' = position cfg round index + 1) ∨
    afterIndex cfg round index = none ∧ position cfg round index + 1 = total cfg := by
  have hpos := cfg.bufferCapacity_pos
  unfold afterIndex
  by_cases hi : index + 1 < cfg.bufferCapacity
  · rw [if_pos hi]
    exact .inl ⟨round, index + 1, rfl, ⟨h.1, hi⟩, rfl⟩
  · have hlast : index + 1 = cfg.bufferCapacity := by
      have := h.2
      omega
    have hnext : position cfg round index + 1 = (round + 1) * cfg.bufferCapacity := by
      rw [position, Nat.add_mul, Nat.one_mul, Nat.add_assoc, hlast]
    rw [if_neg hi]
    by_cases hr : round + 1 < cfg.rounds
    · rw [if_pos hr]
      exact .inl ⟨round + 1, 0, rfl, ⟨hr, hpos⟩, hnext.symm⟩
    · have hround : round + 1 = cfg.rounds := by
        have := h.1
        omega
      rw [if_neg hr]
      refine .inr ⟨rfl, ?_⟩
      rw [hnext, hround, total, Nat.mul_comm]

theorem inside_zero : Inside cfg 0 0 := ⟨cfg.rounds_pos, cfg.bufferCapacity_pos⟩

@[simp] theorem position_zero : position cfg 0 0 = 0 := by simp [position]

end Position

end Concurrente.ProdConsBound
