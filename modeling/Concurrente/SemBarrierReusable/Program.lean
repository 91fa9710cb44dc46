import Concurrente.Threads

/-!
# sem_barrier_reusable2

A barrier of two gates.  The last thread to arrive at a gate takes the permit of the other
gate and gives every thread a permit for its own.
-/

namespace Concurrente.SemBarrierReusable

open Threads

/-- `barrier_entry` and `barrier_exit`. -/
inductive Gate where
  | entry
  | exit
  deriving DecidableEq

def Gate.other : Gate → Gate
  | entry => exit
  | exit => entry

/-- The lines of `secondary` at a gate, with Statement A before the entry and Statement B
before the exit. -/
inductive Point where
  | statement
  | waitCount
  | update
  | test
  | waitOther
  | signalGate
  | signalCount
  | waitGate
  deriving DecidableEq

/-- Where a thread is in `secondary`, and in which of its uses. -/
inductive Pc where
  | inUse (use : ℕ) (gate : Gate) (point : Point)
  | returned
  deriving DecidableEq

structure Shared where
  count : ℤ
  canAccessCount : ℕ
  barrier : Gate → ℕ

def Gate.last (threadCount : ℕ) : Gate → ℤ
  | entry => threadCount
  | exit => 0

namespace Shared

variable (s : Shared)

/-- `wait(can_access_count)`. -/
def waitCount : Option Shared :=
  if s.canAccessCount = 0 then none else some { s with canAccessCount := s.canAccessCount - 1 }

/-- `signal(can_access_count)`. -/
def signalCount : Shared := { s with canAccessCount := s.canAccessCount + 1 }

def wait (gate : Gate) : Option Shared :=
  if s.barrier gate = 0 then none
  else some { s with barrier := Function.update s.barrier gate (s.barrier gate - 1) }

def signal (gate : Gate) (permits : ℕ) : Shared :=
  { s with barrier := Function.update s.barrier gate (s.barrier gate + permits) }

/-- `count := count + 1` at the entry, `count := count - 1` at the exit. -/
def update : Gate → Shared
  | .entry => { s with count := s.count + 1 }
  | .exit => { s with count := s.count - 1 }

end Shared

section Code

variable (threadCount uses : ℕ)

/-- A team that uses the barrier `uses` times. -/
def beginUse (use : ℕ) : Pc := if use < uses then .inUse use .entry .statement else .returned

/-- Statement B follows the entry, and the next use the exit. -/
def afterGate (use : ℕ) : Gate → Pc
  | .entry => .inUse use .exit .statement
  | .exit => beginUse uses (use + 1)

def afterTest (count : ℤ) (gate : Gate) : Point :=
  if count = gate.last threadCount then .waitOther else .signalCount

def secondary : Pc → Instr Empty Pc Shared
  | .inUse use gate .statement => .access fun s => some (s, .inUse use gate .waitCount)
  | .inUse use gate .waitCount => .access fun s => s.waitCount.map (·, .inUse use gate .update)
  | .inUse use gate .update => .access fun s => some (s.update gate, .inUse use gate .test)
  | .inUse use gate .test => .access fun s =>
    some (s, .inUse use gate (afterTest threadCount s.count gate))
  | .inUse use gate .waitOther => .access fun s =>
    (s.wait gate.other).map (·, .inUse use gate .signalGate)
  | .inUse use gate .signalGate => .access fun s =>
    some (s.signal gate threadCount, .inUse use gate .signalCount)
  | .inUse use gate .signalCount => .access fun s => some (s.signalCount, .inUse use gate .waitGate)
  | .inUse use gate .waitGate => .access fun s => (s.wait gate).map (·, afterGate uses use gate)
  | .returned => .finished

def main : Code (Fin threadCount) Empty Pc Shared where
  memory := ⟨0, 1, fun gate => match gate with | .entry => 0 | .exit => 1⟩
  start := fun _ => beginUse uses 0
  next := fun _ => secondary threadCount uses

end Code

abbrev Run (threadCount : ℕ) := State (Fin threadCount) Empty Pc Shared

/-- The thread has started Statement A (before the entry) or B (before the exit) of a use. -/
def Pc.Started (uses use : ℕ) (gate : Gate) : Pc → Prop
  | inUse use' gate' _ => use < use' ∨ use = use' ∧ (gate = gate' ∨ gate = .entry)
  | returned => use < uses

def Pc.Finished (uses use : ℕ) (gate : Gate) : Pc → Prop
  | inUse use' gate' point =>
    use < use' ∨ use = use' ∧ (gate = gate' ∧ point ≠ .statement ∨ gate = .entry ∧ gate' = .exit)
  | returned => use < uses

/-- Statement B only after all Statements A of the use, and the next use only after all
Statements B. -/
structure Ordered {threadCount : ℕ} (uses : ℕ) (s : Run threadCount) : Prop where
  statementB : ∀ use i j, (s.thread i).Started uses use .exit →
    (s.thread j).Finished uses use .entry
  statementA : ∀ use i j, (s.thread i).Started uses (use + 1) .entry →
    (s.thread j).Finished uses use .exit

/-- In all runs the statements are ordered, and no run gets stuck before all threads have
completed all uses. -/
def Correct (threadCount uses : ℕ) : Prop :=
  ∀ s, (main threadCount uses).system.Reachable s →
    Ordered uses s ∧ ((main threadCount uses).system.Stuck s → ∀ i, s.thread i = .returned)

end Concurrente.SemBarrierReusable
