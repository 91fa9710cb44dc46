import Concurrente.Threads

/-!
# build_h2o

Every atom is a thread.  A semaphore for each kind lets two hydrogen and one oxygen atoms
into the bond area, and one barrier of three serves as its entrance and its exit.
-/

namespace Concurrente.BuildH2o

open Threads

inductive Atom where
  | hydrogen
  | oxygen
  deriving DecidableEq

/-- The initial values of `hydrogen_multiplex` and `oxygen_multiplex`. -/
def Atom.permits : Atom → ℕ
  | hydrogen => 2
  | oxygen => 1

/-- The atoms of the standard input; a vector holds their threads. -/
structure Config where
  atoms : List Atom
  length_lt : atoms.length < 2 ^ 64

variable (cfg : Config)

abbrev Thread (cfg : Config) := Fin cfg.atoms.length

def atom (i : Thread cfg) : Atom := cfg.atoms.get i

/-- The semaphores, the barrier and the static variables of `bond`, by the kind of atom. -/
structure Shared where
  multiplex : Atom → ℕ
  arrived : ℕ
  phase : ℕ
  count : Atom → ℕ
  moleculeCount : ℕ

/-- Where an atom is in `hydrogen` or `oxygen`.  From its first wait on it carries the `group`
with which it entered: the phase of the barrier when it arrived. -/
inductive Pc where
  | acquire
  | enter
  | waitEnter (group : ℕ)
  | lock (group : ℕ)
  | bond (group : ℕ)
  | check (group : ℕ)
  | unlock (group : ℕ)
  | exit (group : ℕ)
  | waitExit (group token : ℕ)
  | release (group : ℕ)
  | returned (group : ℕ)
  deriving DecidableEq

namespace Shared

variable (s : Shared)

def take (a : Atom) : Shared :=
  { s with multiplex := Function.update s.multiplex a (s.multiplex a - 1) }

def acquire (a : Atom) : Option (Shared × Pc) :=
  if s.multiplex a = 0 then none else some (s.take a, .enter)

def release (a : Atom) (group : ℕ) : Shared × Pc :=
  ({ s with multiplex := Function.update s.multiplex a (s.multiplex a + 1) }, .returned group)

/-- `arrive`: the third arrival opens the barrier. -/
def arrive : Shared :=
  if s.arrived + 1 = 3 then { s with arrived := 0, phase := s.phase + 1 }
  else { s with arrived := s.arrived + 1 }

/-- `wait` until the phase of the arrival is over. -/
def wait (token : ℕ) (next : Pc) : Option (Shared × Pc) :=
  if s.phase = token then none else some (s, next)

/-- The `switch` of `bond`. -/
def bond (a : Atom) (group : ℕ) : Shared × Pc :=
  ({ s with count := Function.update s.count a (s.count a + 1) }, .check group)

/-- The test of `bond`. -/
def check (group : ℕ) : Shared × Pc :=
  if s.count .hydrogen = 2 ∧ s.count .oxygen = 1 then
    ({ s with moleculeCount := (s.moleculeCount + 1) % 2 ^ 64, count := fun _ => 0 }, .unlock group)
  else (s, .unlock group)

end Shared

def next (i : Thread cfg) : Pc → Instr Unit Pc Shared
  | .acquire => .access fun s => s.acquire (atom cfg i)
  | .enter => .access fun s => some (s.arrive, .waitEnter s.phase)
  | .waitEnter group => .access fun s => s.wait group (.lock group)
  | .lock group => .lock () (.bond group)
  | .bond group => .access fun s => some (s.bond (atom cfg i) group)
  | .check group => .access fun s => some (s.check group)
  | .unlock group => .unlock () (.exit group)
  | .exit group => .access fun s => some (s.arrive, .waitExit group s.phase)
  | .waitExit group token => .access fun s => s.wait token (.release group)
  | .release group => .access fun s => some (s.release (atom cfg i) group)
  | .returned _ => .finished

def code : Code (Thread cfg) Unit Pc Shared where
  memory := ⟨Atom.permits, 0, 0, fun _ => 0, 0⟩
  start := fun _ => .acquire
  next := next cfg

abbrev Run (cfg : Config) := State (Thread cfg) Unit Pc Shared

namespace Pc

/-- The group with which an atom has entered. -/
def group : Pc → Option ℕ
  | acquire | enter => none
  | waitEnter g | lock g | bond g | check g | unlock g | exit g | waitExit g _ | release g
  | returned g => some g

/-- The atom is in its call of `bond`. -/
def bonding : Pc → Bool
  | lock _ | bond _ | check _ | unlock _ => true
  | _ => false

/-- The atom has not called `bond`. -/
def before : Pc → Bool
  | acquire | enter | waitEnter _ => true
  | _ => false

/-- The atom has bonded: `bond` has counted it and made its test. -/
def bonded : Pc → Bool
  | unlock _ | exit _ | waitExit _ _ | release _ | returned _ => true
  | _ => false

def Returned : Pc → Prop
  | returned _ => True
  | _ => False

end Pc

/-- The mutex of `bond`. -/
def owner (_mutex : Unit) : Pc → ℕ
  | .bond _ | .check _ | .unlock _ => 1
  | _ => 0

section Access

variable {cfg} {i : Thread cfg} {pc : Pc} {s : Shared} {run : Shared → Option (Shared × Pc)}
  {r : Shared × Pc}

theorem acquire_eq_some {a : Atom} (h : s.acquire a = some r) :
    1 ≤ s.multiplex a ∧ r = (s.take a, .enter) := by
  unfold Shared.acquire at h
  split at h
  · cases h
  · exact ⟨by omega, (Option.some.inj h).symm⟩

theorem wait_eq_some {token : ℕ} {n : Pc} (h : s.wait token n = some r) :
    s.phase ≠ token ∧ r = (s, n) := by
  unfold Shared.wait at h
  split at h
  · cases h
  · rename_i ht
    exact ⟨ht, (Option.some.inj h).symm⟩

theorem access_cases (h : next cfg i pc = .access run) (hr : run s = some r) :
    (pc = .acquire ∧ 1 ≤ s.multiplex (atom cfg i) ∧ r = (s.take (atom cfg i), .enter)) ∨
    (pc = .enter ∧ r = (s.arrive, .waitEnter s.phase)) ∨
    (∃ g, pc = .waitEnter g ∧ s.phase ≠ g ∧ r = (s, .lock g)) ∨
    (∃ g, pc = .bond g ∧ r = s.bond (atom cfg i) g) ∨
    (∃ g, pc = .check g ∧ r = s.check g) ∨
    (∃ g, pc = .exit g ∧ r = (s.arrive, .waitExit g s.phase)) ∨
    (∃ g token, pc = .waitExit g token ∧ s.phase ≠ token ∧ r = (s, .release g)) ∨
    (∃ g, pc = .release g ∧ r = s.release (atom cfg i) g) := by
  cases pc with
  | acquire =>
    cases h
    exact .inl ⟨rfl, acquire_eq_some hr⟩
  | enter =>
    cases h
    exact .inr (.inl ⟨rfl, (Option.some.inj hr).symm⟩)
  | waitEnter g =>
    cases h
    exact .inr (.inr (.inl ⟨g, rfl, wait_eq_some hr⟩))
  | bond g =>
    cases h
    exact .inr (.inr (.inr (.inl ⟨g, rfl, (Option.some.inj hr).symm⟩)))
  | check g =>
    cases h
    exact .inr (.inr (.inr (.inr (.inl ⟨g, rfl, (Option.some.inj hr).symm⟩))))
  | exit g =>
    cases h
    exact .inr (.inr (.inr (.inr (.inr (.inl ⟨g, rfl, (Option.some.inj hr).symm⟩)))))
  | waitExit g token =>
    cases h
    exact .inr (.inr (.inr (.inr (.inr (.inr (.inl ⟨g, token, rfl, wait_eq_some hr⟩))))))
  | release g =>
    cases h
    exact .inr (.inr (.inr (.inr (.inr (.inr (.inr ⟨g, rfl, (Option.some.inj hr).symm⟩))))))
  | lock g => cases h
  | unlock g => cases h
  | returned g => cases h

end Access

theorem check_snd (s : Shared) (g : ℕ) : (s.check g).2 = .unlock g := by
  unfold Shared.check
  split <;> rfl

theorem owns : Owns (code cfg) owner where
  start _ _ := rfl
  lock i pc m n h k := by
    change next cfg i pc = _ at h
    cases pc <;> cases h
    rfl
  unlock i pc m n h k := by
    change next cfg i pc = _ at h
    cases pc <;> cases h
    exact ⟨rfl, rfl⟩
  access i pc run g r h hr k := by
    rcases access_cases (i := i) h hr with ⟨rfl, -, rfl⟩ | ⟨rfl, rfl⟩ | ⟨g, rfl, -, rfl⟩ |
      ⟨g, rfl, rfl⟩ | ⟨g, rfl, rfl⟩ | ⟨g, rfl, rfl⟩ | ⟨g, token, rfl, -, rfl⟩ | ⟨g, rfl, rfl⟩
    · rfl
    · rfl
    · rfl
    · rfl
    · rw [check_snd]
      rfl
    · rfl
    · rfl
    · rfl
  critical i pc k h := by
    change (∃ m n, next cfg i pc = _) ∨ ∃ run, next cfg i pc = _ ∧ _
    cases pc with
    | bond | check => exact .inr ⟨_, rfl, fun _ => Option.some_ne_none _⟩
    | unlock => exact .inl ⟨_, _, rfl⟩
    | _ => exact absurd rfl h

end Concurrente.BuildH2o
