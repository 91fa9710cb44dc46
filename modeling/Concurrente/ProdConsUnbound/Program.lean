import Concurrente.Threads

/-!
# prod_cons_unbound

A producer takes the next unit under a mutex, enqueues it under the mutex of the queue and
signals `can_consume`.  A consumer claims a unit under a third mutex before it waits for
`can_consume` and dequeues.
-/

namespace Concurrente.ProdConsUnbound

open Threads

/-- The arguments that `analyze_arguments` admits. -/
structure Config where
  unitCount : ℕ
  producerCount : ℕ
  consumerCount : ℕ
  unitCount_lt : unitCount < 2 ^ 64
  producerCount_pos : 1 ≤ producerCount
  consumerCount_pos : 1 ≤ consumerCount

variable (cfg : Config)

abbrev Thread (cfg : Config) := Fin cfg.producerCount ⊕ Fin cfg.consumerCount

inductive Mutex where
  | canAccessNextUnit
  | canAccessConsumedCount
  | canAccessQueue
  deriving DecidableEq

/-- The units in the queue and the shared counters.  `enqueued` and `dequeued` record what
was appended to the queue and removed from it. -/
structure Simulation where
  queue : List ℕ
  nextUnit : ℕ
  canConsume : ℕ
  consumedCount : ℕ
  enqueued : List ℕ
  dequeued : List ℕ

/-- Where a thread is in `produce` or in `consume`. -/
inductive Pc where
  | lockNextUnit
  | takeUnit
  | unlockNextUnit (myUnit : ℕ)
  | breakProduce
  | enqueue (myUnit : ℕ)
  | append (myUnit : ℕ)
  | unlockEnqueue
  | signal
  | produced
  | lockConsumedCount
  | claim
  | unlockConsumedCount
  | breakConsume
  | wait
  | dequeue
  | removeFirst
  | unlockDequeue (value : Option ℕ)
  | consumed

namespace Simulation

variable (s : Simulation)

/-- The producer takes the next unit or breaks. -/
def takeUnit (unitCount : ℕ) : Simulation × Pc :=
  if s.nextUnit < unitCount then
    let myUnit := (s.nextUnit + 1) % 2 ^ 64
    ({ s with nextUnit := myUnit }, .unlockNextUnit myUnit)
  else (s, .breakProduce)

/-- The consumer reserves the next product or breaks. -/
def claim (unitCount : ℕ) : Simulation × Pc :=
  if s.consumedCount < unitCount then
    ({ s with consumedCount := (s.consumedCount + 1) % 2 ^ 64 }, .unlockConsumedCount)
  else (s, .breakConsume)

/-- `queue_enqueue`, when the node was allocated. -/
def queueEnqueue (data : ℕ) : Simulation × Pc :=
  ({ s with queue := s.queue ++ [data], enqueued := s.enqueued ++ [data] }, .unlockEnqueue)

/-- `queue_dequeue`, which gives no value when the queue is empty. -/
def queueDequeue : Simulation × Pc :=
  match s.queue with
  | [] => (s, .unlockDequeue none)
  | data :: rest =>
    ({ s with queue := rest, dequeued := s.dequeued ++ [data] }, .unlockDequeue (some data))

def semPost : Simulation × Pc := ({ s with canConsume := s.canConsume + 1 }, .lockNextUnit)

def semWait : Option (Simulation × Pc) :=
  if s.canConsume = 0 then none else some ({ s with canConsume := s.canConsume - 1 }, .dequeue)

end Simulation

def next (_thread : Thread cfg) : Pc → Instr Mutex Pc Simulation
  | .lockNextUnit => .lock .canAccessNextUnit .takeUnit
  | .takeUnit => .access fun s => some (s.takeUnit cfg.unitCount)
  | .unlockNextUnit myUnit => .unlock .canAccessNextUnit (.enqueue myUnit)
  | .breakProduce => .unlock .canAccessNextUnit .produced
  | .enqueue myUnit => .lock .canAccessQueue (.append myUnit)
  | .append myUnit => .access fun s => some (s.queueEnqueue myUnit)
  | .unlockEnqueue => .unlock .canAccessQueue .signal
  | .signal => .access fun s => some s.semPost
  | .produced => .finished
  | .lockConsumedCount => .lock .canAccessConsumedCount .claim
  | .claim => .access fun s => some (s.claim cfg.unitCount)
  | .unlockConsumedCount => .unlock .canAccessConsumedCount .wait
  | .breakConsume => .unlock .canAccessConsumedCount .consumed
  | .wait => .access Simulation.semWait
  | .dequeue => .lock .canAccessQueue .removeFirst
  | .removeFirst => .access fun s => some s.queueDequeue
  | .unlockDequeue _ => .unlock .canAccessQueue .lockConsumedCount
  | .consumed => .finished

/-- The producers run `produce` and the consumers `consume`. -/
def start : Thread cfg → Pc
  | .inl _ => .lockNextUnit
  | .inr _ => .lockConsumedCount

/-- What `simulation_create` and `create_consumers_producers` leave. -/
def code : Code (Thread cfg) Mutex Pc Simulation where
  memory := ⟨[], 0, 0, 0, [], []⟩
  start := start cfg
  next := next cfg

abbrev Run (cfg : Config) := State (Thread cfg) Mutex Pc Simulation

/-- The states in which a thread has returned. -/
def returned : Thread cfg → Pc
  | .inl _ => .produced
  | .inr _ => .consumed

def Pc.holds : Pc → Option Mutex
  | .takeUnit | .unlockNextUnit _ | .breakProduce => some .canAccessNextUnit
  | .claim | .unlockConsumedCount | .breakConsume => some .canAccessConsumedCount
  | .append _ | .unlockEnqueue | .removeFirst | .unlockDequeue _ => some .canAccessQueue
  | _ => none

def owner (m : Mutex) (pc : Pc) : ℕ := if pc.holds = some m then 1 else 0

section Access

variable {cfg} {i : Thread cfg} {pc : Pc} {s : Simulation}
  {run : Simulation → Option (Simulation × Pc)}
  {r : Simulation × Pc}

theorem access_cases (h : next cfg i pc = .access run) (hr : run s = some r) :
    (pc = .takeUnit ∧ r = s.takeUnit cfg.unitCount) ∨
    (∃ u, pc = .append u ∧ r = s.queueEnqueue u) ∨
    (pc = .signal ∧ r = s.semPost) ∨
    (pc = .claim ∧ r = s.claim cfg.unitCount) ∨
    (pc = .wait ∧ 1 ≤ s.canConsume ∧
      r = ({ s with canConsume := s.canConsume - 1 }, .dequeue)) ∨
    (pc = .removeFirst ∧ r = s.queueDequeue) := by
  cases pc with
  | wait =>
    simp only [next, Instr.access.injEq] at h
    subst h
    simp only [Simulation.semWait] at hr
    split at hr
    · cases hr
    · rename_i hc
      exact .inr (.inr (.inr (.inr (.inl ⟨rfl, Nat.pos_of_ne_zero hc, (Option.some.inj hr).symm⟩))))
  | takeUnit | append | signal | claim | removeFirst =>
    simp only [next, Instr.access.injEq] at h
    subst h
    simp [← Option.some.inj hr]
  | _ => cases h

theorem holds_takeUnit (n : ℕ) : (s.takeUnit n).2.holds = some .canAccessNextUnit := by
  unfold Simulation.takeUnit
  split <;> rfl

theorem holds_claim (n : ℕ) : (s.claim n).2.holds = some .canAccessConsumedCount := by
  unfold Simulation.claim
  split <;> rfl

theorem holds_queueDequeue : s.queueDequeue.2.holds = some .canAccessQueue := by
  unfold Simulation.queueDequeue
  split <;> rfl

end Access

theorem owns : Owns (code cfg) owner where
  start m i := by cases i <;> rfl
  lock i pc m n h k := by
    change next cfg i pc = _ at h
    cases pc <;> cases h <;> cases k <;> rfl
  unlock i pc m n h k := by
    change next cfg i pc = _ at h
    cases pc <;> cases h <;> cases k <;> exact ⟨rfl, rfl⟩
  access i pc run g r h hr k := by
    rcases access_cases (i := i) h hr with ⟨rfl, rfl⟩ | ⟨u, rfl, rfl⟩ | ⟨rfl, rfl⟩ | ⟨rfl, rfl⟩ |
      ⟨rfl, -, rfl⟩ | ⟨rfl, rfl⟩
    · rw [owner, holds_takeUnit]
      rfl
    · rfl
    · rfl
    · rw [owner, holds_claim]
      rfl
    · rfl
    · rw [owner, holds_queueDequeue]
      rfl
  critical i pc k h := by
    change (∃ m n, next cfg i pc = _) ∨ ∃ run, next cfg i pc = _ ∧ _
    cases pc with
    | takeUnit | claim | append | removeFirst => exact .inr ⟨_, rfl, fun _ => Option.some_ne_none _⟩
    | unlockNextUnit | breakProduce | unlockConsumedCount | breakConsume | unlockEnqueue
    | unlockDequeue => exact .inl ⟨_, _, rfl⟩
    | _ => exact absurd rfl h

end Concurrente.ProdConsUnbound
