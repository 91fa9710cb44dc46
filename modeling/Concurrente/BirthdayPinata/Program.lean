import Concurrente.Integers
import Concurrente.Threads

/-!
# birthday_pinata

The threads hit a pinata in turns, in a critical section.  A thread leaves its loop when it
finds the pinata broken, or when its own hit has broken it.
-/

namespace Concurrente.BirthdayPinata

open Threads

variable {n : ℕ}

structure Report where
  threadNumber : ℕ
  hitResistance : ℕ
  hits : ℕ
  broke : Bool

/-- The shared data, the hits of the threads and the output.  `undefined` records an overflow of
the signed counter. -/
structure Shared (n : ℕ) where
  hitResistance : ℕ
  pinata : ℤ
  hits : Fin n → ℕ
  output : List Report
  undefined : Bool

/-- Where a thread is in `hit_pinata`, with its `broke_pinata`. -/
inductive Pc where
  | lock (broke : Bool)
  | check (broke : Bool)
  | leave (broke : Bool)
  | hit (broke : Bool)
  | count (broke : Bool)
  | test
  | unlock (broke : Bool)
  | report (broke : Bool)
  | returned (broke : Bool)
  deriving DecidableEq

namespace Shared

variable (s : Shared n)

/-- `--pinata`. -/
def hit : Shared n :=
  match IntType.long.sub s.pinata 1 with
  | some pinata => { s with pinata := pinata }
  | none => { s with undefined := true }

/-- `++hits`. -/
def count (i : Fin n) : Shared n :=
  { s with hits := Function.update s.hits i ((s.hits i + 1) % 2 ^ 64) }

def report (i : Fin n) (broke : Bool) : Shared n :=
  { s with output := s.output ++ [⟨i, s.hitResistance, s.hits i, broke⟩] }

end Shared

def next (i : Fin n) : Pc → Instr Unit Pc (Shared n)
  | .lock broke => .lock () (.check broke)
  | .check broke => .access fun s => some (s, if s.pinata = 0 then .leave broke else .hit broke)
  -- `break` in the critical section is behind an unlock of its own
  | .leave broke => .unlock () (.report broke)
  | .hit broke => .access fun s => some (s.hit, .count broke)
  -- `broke_pinata` gets a new value only behind the hit
  | .count _ => .access fun s => some (s.count i, .test)
  | .test => .access fun s => some (s, .unlock (s.pinata = 0))
  | .unlock broke => .unlock () (if broke then .report broke else .lock broke)
  | .report broke => .access fun s => some (s.report i broke, .returned broke)
  | .returned _ => .finished

/-- The resistance is converted to the signed counter. -/
def code (n : ℕ) (resistance : ℕ) : Code (Fin n) Unit Pc (Shared n) where
  memory := ⟨resistance, IntType.long.convert resistance, fun _ => 0, [], false⟩
  start := fun _ => .lock false
  next := next

abbrev Run (n : ℕ) := State (Fin n) Unit Pc (Shared n)

/-- `can_hit_pinata`. -/
def owner (_mutex : Unit) : Pc → ℕ
  | .check _ | .leave _ | .hit _ | .count _ | .test | .unlock _ => 1
  | _ => 0

section Access

variable {i : Fin n} {pc : Pc} {s : Shared n} {run : Shared n → Option (Shared n × Pc)}
  {r : Shared n × Pc}

theorem access_cases (h : next i pc = .access run) (hr : run s = some r) :
    (∃ b, pc = .check b ∧ r = (s, if s.pinata = 0 then .leave b else .hit b)) ∨
    (∃ b, pc = .hit b ∧ r = (s.hit, .count b)) ∨
    (∃ b, pc = .count b ∧ r = (s.count i, .test)) ∨
    (pc = .test ∧ r = (s, .unlock (s.pinata = 0))) ∨
    (∃ b, pc = .report b ∧ r = (s.report i b, .returned b)) := by
  cases pc with
  | check b =>
    cases h
    exact .inl ⟨b, rfl, (Option.some.inj hr).symm⟩
  | hit b =>
    cases h
    exact .inr (.inl ⟨b, rfl, (Option.some.inj hr).symm⟩)
  | count b =>
    cases h
    exact .inr (.inr (.inl ⟨b, rfl, (Option.some.inj hr).symm⟩))
  | test =>
    cases h
    exact .inr (.inr (.inr (.inl ⟨rfl, (Option.some.inj hr).symm⟩)))
  | report b =>
    cases h
    exact .inr (.inr (.inr (.inr ⟨b, rfl, (Option.some.inj hr).symm⟩)))
  | lock b => cases h
  | leave b => cases h
  | unlock b => cases h
  | returned b => cases h

theorem move_cases {m : Unit} {pc' : Pc} (h : next i pc = .lock m pc' ∨ next i pc = .unlock m pc') :
    (∃ b, pc = .lock b ∧ pc' = .check b) ∨ (∃ b, pc = .leave b ∧ pc' = .report b) ∨
      pc = .unlock true ∧ pc' = .report true ∨ pc = .unlock false ∧ pc' = .lock false := by
  obtain h | h := h
  · cases pc <;> cases h
    exact .inl ⟨_, rfl, rfl⟩
  · cases pc with
    | leave b =>
      cases h
      exact .inr (.inl ⟨b, rfl, rfl⟩)
    | unlock b =>
      cases b <;> cases h
      · exact .inr (.inr (.inr ⟨rfl, rfl⟩))
      · exact .inr (.inr (.inl ⟨rfl, rfl⟩))
    | lock b => cases h
    | check b => cases h
    | hit b => cases h
    | count b => cases h
    | test => cases h
    | report b => cases h
    | returned b => cases h

theorem access_ne_none (h : next i pc = .access run) (s : Shared n) : run s ≠ none := by
  cases pc <;> cases h <;> exact Option.some_ne_none _

end Access

theorem owns {resistance : ℕ} : Owns (code n resistance) owner where
  start _ _ := rfl
  lock i pc m m' h k := by
    change next i pc = _ at h
    cases pc <;> cases h
    rfl
  unlock i pc m m' h k := by
    rcases move_cases (i := i) (.inr h) with ⟨b, rfl, rfl⟩ | ⟨b, rfl, rfl⟩ | ⟨rfl, rfl⟩ | ⟨rfl, rfl⟩
    · cases h
    · exact ⟨rfl, rfl⟩
    · exact ⟨rfl, rfl⟩
    · exact ⟨rfl, rfl⟩
  access i pc run g r h hr k := by
    rcases access_cases (i := i) h hr with ⟨b, rfl, rfl⟩ | ⟨b, rfl, rfl⟩ | ⟨b, rfl, rfl⟩ |
      ⟨rfl, rfl⟩ | ⟨b, rfl, rfl⟩
    · dsimp only
      split_ifs <;> rfl
    · rfl
    · rfl
    · rfl
    · rfl
  critical i pc k h := by
    change (∃ m m', next i pc = _) ∨ ∃ run, next i pc = _ ∧ _
    cases pc with
    | check | hit | count | test => exact .inr ⟨_, rfl, fun _ => Option.some_ne_none _⟩
    | leave | unlock => exact .inl ⟨_, _, rfl⟩
    | _ => exact absurd rfl h

end Concurrente.BirthdayPinata
