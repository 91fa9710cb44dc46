import Concurrente.Threads

/-!
# dish_stack

The washers pop dishes from a stack that a mutex protects.  `pop` returns -1 for the empty
stack, and a washer that gets it goes home.
-/

namespace Concurrente.DishStack

open Threads

variable {n : ℕ}

/-- `STACK_EMPTY_FLAG`. -/
def stackEmptyFlag : ℤ := -1

/-- The stack, its top first, and the dishes in the order in which they were washed.  `undefined`
records an access to the top of the empty stack. -/
structure Shared where
  stack : List ℤ
  washed : List ℤ
  undefined : Bool

/-- Where a washer is in `wash_dishes` and `pop`, with its value or its dish. -/
inductive Pc where
  | lock
  | empty
  | top
  | pop (value : ℤ)
  | unlock (value : ℤ)
  | test (dish : ℤ)
  | wash (dish : ℤ)
  | returned
  deriving DecidableEq

namespace Shared

variable (s : Shared)

def push (value : ℤ) : Shared := { s with stack := value :: s.stack }

/-- `stack.top()`. -/
def top : Shared × Pc :=
  match s.stack with
  | [] => ({ s with undefined := true }, .pop stackEmptyFlag)
  | value :: _ => (s, .pop value)

/-- `stack.pop()`. -/
def pop : Shared :=
  match s.stack with
  | [] => { s with undefined := true }
  | _ :: stack => { s with stack := stack }

def wash (dish : ℤ) : Shared := { s with washed := s.washed ++ [dish] }

/-- What `main` prints after the washers have returned. -/
def size : ℕ := s.stack.length

end Shared

def next (_washer : Fin n) : Pc → Instr Unit Pc Shared
  | .lock => .lock () .empty
  | .empty => .access fun s => some (s, if s.stack = [] then .unlock stackEmptyFlag else .top)
  | .top => .access fun s => some s.top
  | .pop value => .access fun s => some (s.pop, .unlock value)
  | .unlock value => .unlock () (.test value)
  -- the test is outside of the critical section, on the copy that `pop` has returned
  | .test dish => .access fun s => some (s, if dish = stackEmptyFlag then .returned else .wash dish)
  | .wash dish => .access fun s => some (s.wash dish, .lock)
  | .returned => .finished

/-- The loop of `main` that fills the stack. -/
def fill (dishCount : ℕ) : Shared :=
  (List.range dishCount).foldl (fun (s : Shared) (counter : ℕ) => s.push counter) ⟨[], [], false⟩

def code (washerCount dishCount : ℕ) : Code (Fin washerCount) Unit Pc Shared where
  memory := fill dishCount
  start := fun _ => .lock
  next := next

abbrev Run (n : ℕ) := State (Fin n) Unit Pc Shared

def owner (_mutex : Unit) : Pc → ℕ
  | .empty | .top | .pop _ | .unlock _ => 1
  | _ => 0

section Access

variable {i : Fin n} {pc : Pc} {s : Shared} {run : Shared → Option (Shared × Pc)}
  {r : Shared × Pc}

theorem access_cases (h : next i pc = .access run) (hr : run s = some r) :
    (pc = .empty ∧ r = (s, if s.stack = [] then .unlock stackEmptyFlag else .top)) ∨
    (pc = .top ∧ r = s.top) ∨
    (∃ v, pc = .pop v ∧ r = (s.pop, .unlock v)) ∨
    (∃ v, pc = .test v ∧ r = (s, if v = stackEmptyFlag then .returned else .wash v)) ∨
    (∃ v, pc = .wash v ∧ r = (s.wash v, .lock)) := by
  cases pc with
  | empty =>
    cases h
    exact .inl ⟨rfl, (Option.some.inj hr).symm⟩
  | top =>
    cases h
    exact .inr (.inl ⟨rfl, (Option.some.inj hr).symm⟩)
  | pop v =>
    cases h
    exact .inr (.inr (.inl ⟨v, rfl, (Option.some.inj hr).symm⟩))
  | test v =>
    cases h
    exact .inr (.inr (.inr (.inl ⟨v, rfl, (Option.some.inj hr).symm⟩)))
  | wash v =>
    cases h
    exact .inr (.inr (.inr (.inr ⟨v, rfl, (Option.some.inj hr).symm⟩)))
  | lock => cases h
  | unlock v => cases h
  | returned => cases h

theorem move_cases {m : Unit} {pc' : Pc} (h : next i pc = .lock m pc' ∨ next i pc = .unlock m pc') :
    pc = .lock ∧ pc' = .empty ∨ ∃ v, pc = .unlock v ∧ pc' = .test v := by
  obtain h | h := h
  · cases pc <;> cases h
    exact .inl ⟨rfl, rfl⟩
  · cases pc <;> cases h
    exact .inr ⟨_, rfl, rfl⟩

theorem access_ne_none (h : next i pc = .access run) (s : Shared) : run s ≠ none := by
  cases pc <;> cases h <;> exact Option.some_ne_none _

theorem top_snd (s : Shared) : ∃ v, s.top.2 = .pop v := by
  unfold Shared.top
  split
  · exact ⟨_, rfl⟩
  · exact ⟨_, rfl⟩

end Access

theorem owns {dishCount : ℕ} : Owns (code n dishCount) owner where
  start _ _ := rfl
  lock i pc m m' h k := by
    change next i pc = _ at h
    cases pc <;> cases h
    rfl
  unlock i pc m m' h k := by
    change next i pc = _ at h
    cases pc <;> cases h
    exact ⟨rfl, rfl⟩
  access i pc run g r h hr k := by
    rcases access_cases (i := i) h hr with ⟨rfl, rfl⟩ | ⟨rfl, rfl⟩ | ⟨v, rfl, rfl⟩ |
      ⟨v, rfl, rfl⟩ | ⟨v, rfl, rfl⟩
    · dsimp only
      split_ifs <;> rfl
    · obtain ⟨v, hv⟩ := top_snd g
      rw [hv]
      rfl
    · rfl
    · dsimp only
      split_ifs <;> rfl
    · rfl
  critical i pc k h := by
    change (∃ m m', next i pc = _) ∨ ∃ run, next i pc = _ ∧ _
    cases pc with
    | empty | top | pop => exact .inr ⟨_, rfl, fun _ => Option.some_ne_none _⟩
    | unlock => exact .inl ⟨_, _, rfl⟩
    | _ => exact absurd rfl h

end Concurrente.DishStack
