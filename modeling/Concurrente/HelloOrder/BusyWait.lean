import Concurrente.Fairness
import Concurrente.HelloOrder.Greet

/-!
# hello_order_busywait, delayed_busy_wait

Every thread reads `next_thread` until it is its turn, greets and increases `next_thread`.  The
delayed program sleeps between two reads, which leaves the memory alone.
-/

namespace Concurrente.HelloOrder.BusyWait

open Threads

variable {n : ℕ}

structure Shared where
  nextThread : ℕ
  output : List Line

/-- Where a thread is in `greet`; `++next_thread` is a read and a write. -/
inductive Pc where
  | wait
  | greet
  | read
  | write (value : ℕ)
  | returned
  deriving DecidableEq

def next (i : Fin n) : Pc → Instr Empty Pc Shared
  | .wait => .access fun s => some (s, if s.nextThread < i then .wait else .greet)
  | .greet => .access fun s => some ({ s with output := s.output ++ [.hello i n] }, .read)
  | .read => .access fun s => some (s, .write ((s.nextThread + 1) % 2 ^ 64))
  | .write value => .access fun s => some ({ s with nextThread := value }, .returned)
  | .returned => .finished

def code (n : ℕ) : Code (Fin n) Empty Pc Shared where
  memory := ⟨0, []⟩
  start := fun _ => .wait
  next := next

abbrev Run (n : ℕ) := State (Fin n) Empty Pc Shared

/-- A thread that has read its turn and has not returned. -/
def Pc.Inside (pc : Pc) : Prop := pc ≠ .wait ∧ pc ≠ .returned

def hellos (n k : ℕ) : List Line := (List.range k).map fun i => .hello i n

/-- What the thread whose turn it is has done. -/
def Pc.Turn (n k : ℕ) (output : List Line) : Pc → Prop
  | .wait | .greet => output = hellos n k
  | .read => output = hellos n (k + 1)
  | .write value => value = k + 1 ∧ output = hellos n (k + 1)
  | .returned => False

/-- The threads before `next_thread` have returned, and those after it wait. -/
structure Turns (m : Shared) (thread : Fin n → Pc) : Prop where
  le : m.nextThread ≤ n
  before : ∀ j : Fin n, j < m.nextThread → thread j = .returned
  turn : ∀ j : Fin n, j = m.nextThread → (thread j).Turn n m.nextThread m.output
  after : ∀ j : Fin n, m.nextThread < j → thread j = .wait
  all : m.nextThread = n → m.output = hellos n n

section Steps

variable {s t : Run n} {i : Fin n}

inductive Moves (i : Fin n) (m : Shared) : Pc → Shared × Pc → Prop
  | spin (h : m.nextThread < i) : Moves i m .wait (m, .wait)
  | turn (h : i ≤ m.nextThread) : Moves i m .wait (m, .greet)
  | greet : Moves i m .greet ({ m with output := m.output ++ [.hello i n] }, .read)
  | read : Moves i m .read (m, .write ((m.nextThread + 1) % 2 ^ 64))
  | write (value : ℕ) : Moves i m (.write value) ({ m with nextThread := value }, .returned)

theorem moves_of_step (h : (code n).system.step s i = some t) :
    ∃ r, Moves i s.memory (s.thread i) r ∧ t = s.access i r := by
  obtain ⟨run, r, hn, hr, rfl⟩ := access_of_step h
  refine ⟨r, ?_, rfl⟩
  generalize s.thread i = pc at hn
  cases pc with
  | wait =>
    cases hn
    cases hr
    split_ifs with hlt
    · exact .spin hlt
    · exact .turn (not_lt.mp hlt)
  | greet =>
    cases hn
    cases hr
    exact .greet
  | read =>
    cases hn
    cases hr
    exact .read
  | write value =>
    cases hn
    cases hr
    exact .write value
  | returned => cases hn

theorem Turns.write {m : Shared} {thread : Fin n → Pc} (h : Turns m thread)
    (hi : i = m.nextThread) (houtput : m.output = hellos n (m.nextThread + 1)) :
    Turns { m with nextThread := m.nextThread + 1 } (Function.update thread i .returned) where
  le := hi ▸ i.isLt
  before j hj := by
    by_cases hji : j = i
    · rw [hji, Function.update_self]
    · have hne : j.val ≠ m.nextThread := fun hj' => hji (Fin.ext (hj'.trans hi.symm))
      rw [Function.update_of_ne hji]
      exact h.before j (by dsimp only at hj; omega)
  turn j hj := by
    have hne : j ≠ i := fun hji => by
      subst hji
      dsimp only at hj
      omega
    rw [Function.update_of_ne hne, h.after j (by dsimp only at hj; omega)]
    exact houtput
  after j hj := by
    have hne : j ≠ i := fun hji => by
      subst hji
      dsimp only at hj
      omega
    rw [Function.update_of_ne hne]
    exact h.after j (by dsimp only at hj; omega)
  all hn := houtput.trans (congrArg (hellos n) hn)

/-- The steps of a thread that are no repetition of its loop. -/
def Pc.left : Pc → ℕ
  | .wait => 4
  | .greet => 3
  | .read => 2
  | .write _ => 1
  | .returned => 0

def left (s : Run n) : ℕ := ∑ i, (s.thread i).left

theorem exists_step (hne : s.thread i ≠ .returned) :
    ∃ t, (code n).system.step s i = some t := by
  have hexists : ∀ {run : Shared → Option (Shared × Pc)} {r : Shared × Pc},
      next i (s.thread i) = .access run → run s.memory = some r →
        ∃ t, (code n).system.step s i = some t :=
    fun hn hr => ⟨_, step_access (p := code n) hn hr⟩
  cases hpc : s.thread i with
  | returned => exact absurd hpc hne
  | _ => exact hexists (by rw [hpc]; rfl) rfl

theorem Turns.output {m : Shared} {thread : Fin n → Pc} (h : Turns m thread) :
    ∃ k ≤ n, m.output = hellos n k := by
  rcases h.le.lt_or_eq with hlt | heq
  · have hturn := h.turn ⟨m.nextThread, hlt⟩ rfl
    cases hpc : thread ⟨m.nextThread, hlt⟩ <;> rw [hpc] at hturn
    · exact ⟨_, hlt.le, hturn⟩
    · exact ⟨_, hlt.le, hturn⟩
    · exact ⟨_, hlt, hturn⟩
    · exact ⟨_, hlt, hturn.2⟩
    · exact hturn.elim
  · exact ⟨n, le_rfl, h.all heq⟩

end Steps

end Concurrente.HelloOrder.BusyWait
