import Concurrente.Semaphores.Progress

/-!
# dining_philosophers

The two solutions at a table of `n` philosophers (the source has five): one gives the
philosophers a laterality, the other seats one philosopher less than there are chopsticks.
-/

namespace Concurrente.DiningPhilosophers

open Semaphores

inductive Action where
  | think
  | eat
  deriving DecidableEq

section Chopsticks

variable {n : ℕ} {κ : Type*}

theorem left_lt (id : Fin n) : (id + 1 : ℕ) % n < n := Nat.mod_lt _ id.pos

def left (id : Fin n) : Fin n := ⟨(id + 1) % n, left_lt id⟩

def right (id : Fin n) : Fin n := id

/-- `eat` with the chopsticks taken in this order, left put back before right. -/
def meal (chopstick : Fin n → κ) (first second id : Fin n) : List (Line κ Action) :=
  [.wait (chopstick first), .wait (chopstick second), .statement .eat,
    .signal (chopstick (left id)) 1, .signal (chopstick (right id)) 1]

end Chopsticks

namespace Laterality

def philosopher {n : ℕ} (id : Fin n) : List (Line (Fin n) Action) :=
  .statement .think ::
    if id.val % 2 = 0 then meal (fun chopstick => chopstick) (left id) (right id) id
    else meal (fun chopstick => chopstick) (right id) (left id) id

def main (n : ℕ) : Script (Fin n) (Fin n) Action :=
  Script.loop (fun _ => 1) philosopher

end Laterality

namespace Quota

inductive Semaphore (n : ℕ) where
  | quota
  | chopstick (id : Fin n)
  deriving DecidableEq, Fintype

def philosopher {n : ℕ} (id : Fin n) : List (Line (Semaphore n) Action) :=
  [.statement .think, .wait .quota] ++ meal .chopstick (left id) (right id) id ++
    [.signal .quota 1]

def permits (n : ℕ) : Semaphore n → ℕ
  | .quota => n - 1
  | .chopstick _ => 1

def main (n : ℕ) : Script (Fin n) (Semaphore n) Action := Script.loop (permits n) philosopher

end Quota

/-- The philosopher is at `eat`. -/
def Eating {n : ℕ} {κ : Type} (p : Script (Fin n) κ Action) (s : State (Fin n) κ Action)
    (id : Fin n) : Prop :=
  p.line id (s.position id) = some (.statement .eat)

/-- Neighbours never eat together, some philosopher can always go on, and none is ever shut out
from eating again. -/
structure Correct {n : ℕ} {κ : Type} [DecidableEq κ] (p : Script (Fin n) κ Action) : Prop where
  neighbours : ∀ s, p.system.Reachable s → ∀ id, Eating p s id → ¬ Eating p s (left id)
  moves : ∀ s, p.system.Reachable s → ¬ p.system.Stuck s
  eats : ∀ s, p.system.Reachable s → ∀ id, ∃ t, p.system.Path s t ∧ Eating p t id

end Concurrente.DiningPhilosophers
