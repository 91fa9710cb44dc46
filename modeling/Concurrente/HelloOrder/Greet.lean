import Concurrente.Iteration
import Concurrente.Team
import Concurrente.Threads

/-!
# hello_order_semaphor

Every thread waits at a semaphore of its own, greets and posts the semaphore of the next
thread; the last one posts that of the first.  One token goes around the ring, and the threads
greet in its order.
-/

namespace Concurrente.HelloOrder

open Threads

variable {n : ℕ}

/-- The lines that `greet` prints, with the number of the thread and the size of the team. -/
inductive Line where
  | wait (threadNumber threadCount : ℕ)
  | hello (threadNumber threadCount : ℕ)
  deriving DecidableEq

structure Shared (n : ℕ) where
  canGreet : Fin n → ℕ
  output : List Line

inductive Pc where
  | begin
  | wait
  | greet
  | post
  | returned
  deriving DecidableEq

/-- `(thread_number + 1) % thread_count`. -/
def nextThread (i : Fin n) : Fin n := ⟨(i + 1) % n, Nat.mod_lt _ i.pos⟩

namespace Shared

variable (s : Shared n)

def print (line : Line) : Shared n := { s with output := s.output ++ [line] }

/-- `sem_wait` blocks at the value 0. -/
def wait (i : Fin n) : Option (Shared n × Pc) :=
  if s.canGreet i = 0 then none
  else some ({ s with canGreet := Function.update s.canGreet i (s.canGreet i - 1) }, .greet)

def post (i : Fin n) : Shared n :=
  { s with canGreet := Function.update s.canGreet i (s.canGreet i + 1) }

end Shared

def next (i : Fin n) : Pc → Instr Empty Pc (Shared n)
  | .begin => .access fun s => some (s.print (.wait i n), .wait)
  | .wait => .access fun s => s.wait i
  | .greet => .access fun s => some (s.print (.hello i n), .post)
  | .post => .access fun s => some (s.post (nextThread i), .returned)
  | .returned => .finished

/-- `sem_init` gives the value `!thread_number` to the semaphores. -/
def code (n : ℕ) : Code (Fin n) Empty Pc (Shared n) where
  memory := ⟨fun i => if i.val = 0 then 1 else 0, []⟩
  start := fun _ => .begin
  next := next

abbrev Run (n : ℕ) := State (Fin n) Empty Pc (Shared n)

def Line.greeting : Line → Option ℕ
  | wait _ _ => none
  | hello threadNumber _ => some threadNumber

/-- The threads in the order of their greetings. -/
def Shared.greetings (s : Shared n) : List ℕ := s.output.filterMap Line.greeting

/-- The thread is between its wait and its post. -/
def Pc.Inside (pc : Pc) : Prop := pc = .greet ∨ pc = .post

def Pc.Before (pc : Pc) : Prop := pc = .begin ∨ pc = .wait

instance : DecidablePred Pc.Before :=
  fun pc => inferInstanceAs (Decidable (pc = .begin ∨ pc = .wait))

/-- One semaphore has value 1, or one thread is between its wait and its post. -/
def OneToken (s : Run n) : Prop :=
  ((∃! i, s.memory.canGreet i = 1) ∧ (∀ i, s.memory.canGreet i ≤ 1) ∧
      ∀ i, ¬ (s.thread i).Inside) ∨
    (∀ i, s.memory.canGreet i = 0) ∧ ∃! i, (s.thread i).Inside

/-- It is the turn of thread `k`: the threads before it have returned, and those after it have not
passed their wait. -/
inductive Turn (k : ℕ) (m : Shared n) (thread : Fin n → Pc) : Prop
  | free (le : k ≤ n) (returned : ∀ j : Fin n, j < k → thread j = .returned)
      (before : ∀ j : Fin n, k ≤ j → (thread j).Before)
      (token : ∀ j : Fin n, m.canGreet j = if j.val = k % n then 1 else 0)
      (greetings : m.greetings = List.range k)
  | greet (i : Fin n) (turn : i.val = k) (here : thread i = .greet)
      (returned : ∀ j : Fin n, j < k → thread j = .returned)
      (before : ∀ j : Fin n, k < j → (thread j).Before)
      (token : ∀ j : Fin n, m.canGreet j = 0) (greetings : m.greetings = List.range k)
  | post (i : Fin n) (turn : i.val = k) (here : thread i = .post)
      (returned : ∀ j : Fin n, j < k → thread j = .returned)
      (before : ∀ j : Fin n, k < j → (thread j).Before)
      (token : ∀ j : Fin n, m.canGreet j = 0) (greetings : m.greetings = List.range (k + 1))

section Steps

variable {k : ℕ} {m : Shared n} {thread : Fin n → Pc} {i : Fin n} {pc : Pc}

theorem greetings_wait (i : ℕ) : (m.print (.wait i n)).greetings = m.greetings := by
  simp [Shared.greetings, Shared.print, Line.greeting]

theorem greetings_hello (i : ℕ) : (m.print (.hello i n)).greetings = m.greetings ++ [i] := by
  simp [Shared.greetings, Shared.print, Line.greeting]

theorem returned_update (h : ∀ j : Fin n, j < k → thread j = .returned) (hi : ¬ i.val < k) :
    ∀ j : Fin n, j < k → Function.update thread i pc j = .returned :=
  forall_update_of_ne (P := fun pc => pc = Pc.returned) (p := fun j : Fin n => j < k) h hi

theorem before_update (h : ∀ j : Fin n, k < j → (thread j).Before) (hi : ¬ k < i.val) :
    ∀ j : Fin n, k < j → (Function.update thread i pc j).Before :=
  forall_update_of_ne h hi

theorem not_lt_turn (returned : ∀ j : Fin n, j < k → thread j = .returned)
    (h : thread i ≠ .returned) : ¬ i.val < k :=
  fun hlt => h (returned i hlt)

theorem not_inside_of_before (h : pc.Before) : ¬ pc.Inside := by
  obtain rfl | rfl := h <;> simp [Pc.Inside]

theorem not_inside_of_returned (h : pc = .returned) : ¬ pc.Inside := by
  rw [h]
  simp [Pc.Inside]

theorem turn_of_inside (returned : ∀ j : Fin n, j < k → thread j = .returned)
    (before : ∀ j : Fin n, k < j → (thread j).Before) (h : (thread i).Inside) : i.val = k := by
  rcases lt_trichotomy i.val k with hlt | heq | hgt
  · exact absurd h (not_inside_of_returned (returned i hlt))
  · exact heq
  · exact absurd h (not_inside_of_before (before i hgt))

theorem not_inside (returned : ∀ j : Fin n, j < k → thread j = .returned)
    (before : ∀ j : Fin n, k ≤ j → (thread j).Before) (i : Fin n) : ¬ (thread i).Inside := by
  obtain hik | hik := lt_or_ge i.val k
  · exact not_inside_of_returned (returned i hik)
  · exact not_inside_of_before (before i hik)

theorem Turn.begin (h : Turn k m thread) (hi : thread i = .begin) :
    Turn k (m.print (.wait i n)) (Function.update thread i .wait) := by
  have hne : thread i ≠ .returned := by
    rw [hi]
    decide
  have hother : ∀ {j : Fin n} {pc}, thread j = pc → pc ≠ .begin →
      Function.update thread i .wait j = pc := by
    rintro j pc hj hpc
    have hji : j ≠ i := by
      rintro rfl
      exact hpc (hj.symm.trans hi)
    rw [Function.update_of_ne hji, hj]
  have hbefore : ∀ {p : Fin n → Prop}, (∀ j, p j → (thread j).Before) →
      ∀ j, p j → (Function.update thread i .wait j).Before :=
    fun hp => forall_update (fun _ (pc : Pc) => pc.Before) hp (.inr rfl)
  cases h with
  | free le returned before token greetings =>
    exact .free le (fun j hj => hother (returned j hj) (by decide)) (hbefore before) token
      ((greetings_wait i).trans greetings)
  | greet l turn here returned before token greetings =>
    exact .greet l turn (hother here (by decide))
      (fun j hj => hother (returned j hj) (by decide)) (hbefore before) token
      ((greetings_wait i).trans greetings)
  | post l turn here returned before token greetings =>
    exact .post l turn (hother here (by decide))
      (fun j hj => hother (returned j hj) (by decide)) (hbefore before) token
      ((greetings_wait i).trans greetings)

theorem Turn.wait (h : Turn k m thread) (hi : thread i = .wait) (hvalue : m.canGreet i ≠ 0) :
    Turn k { m with canGreet := Function.update m.canGreet i (m.canGreet i - 1) }
      (Function.update thread i .greet) := by
  have hne : thread i ≠ .returned := by
    rw [hi]
    decide
  cases h with
  | free le returned before token greetings =>
    have hki := not_lt_turn returned hne
    have hturn : i.val = k % n := by
      by_contra hik
      rw [token i, if_neg hik] at hvalue
      exact hvalue rfl
    have hmod : k % n = k := Nat.mod_eq_of_lt (by omega)
    have hik : i.val = k := hturn.trans hmod
    refine .greet i hik (Function.update_self ..)
      (returned_update returned hki)
      (before_update (fun j hj => before j (by omega)) (by omega)) (fun j => ?_) greetings
    dsimp only
    by_cases hji : j = i
    · rw [hji, Function.update_self, token i, if_pos hturn]
    · have hval : j.val ≠ k % n := by
        rw [← hturn]
        exact fun hval => hji (Fin.ext hval)
      rw [Function.update_of_ne hji, token j, if_neg hval]
  | greet l turn here returned before token greetings => exact absurd (token i) hvalue
  | post l turn here returned before token greetings => exact absurd (token i) hvalue

theorem Turn.greet_of (h : Turn k m thread) (hi : thread i = .greet) :
    Turn k (m.print (.hello i n)) (Function.update thread i .post) := by
  have hinside : (thread i).Inside := .inl hi
  have hne : thread i ≠ .returned := by
    rw [hi]
    decide
  cases h with
  | free le returned before token greetings =>
    exact absurd hinside (not_inside returned before i)
  | greet l turn here returned before token greetings =>
    have hik : i.val = k := turn_of_inside returned before hinside
    refine .post i hik (Function.update_self ..)
      (returned_update returned (not_lt_turn returned hne))
      (before_update before (by omega)) token ?_
    rw [greetings_hello, greetings, hik, List.range_succ]
  | post l turn here returned before token greetings =>
    have hli : l = i := Fin.ext (turn.trans (turn_of_inside returned before hinside).symm)
    rw [hli, hi] at here
    cases here

theorem Turn.post_of (h : Turn k m thread) (hi : thread i = .post) :
    Turn (k + 1) (m.post (nextThread i)) (Function.update thread i .returned) := by
  have hinside : (thread i).Inside := .inr hi
  cases h with
  | free le returned before token greetings =>
    exact absurd hinside (not_inside returned before i)
  | greet l turn here returned before token greetings =>
    have hli : l = i := Fin.ext (turn.trans (turn_of_inside returned before hinside).symm)
    rw [hli, hi] at here
    cases here
  | post l turn here returned before token greetings =>
    have hik : i.val = k := turn_of_inside returned before hinside
    refine .free (by omega) (fun j hj => ?_)
      (forall_update_of_ne (fun j hj => before j (by omega)) (by omega)) (fun j => ?_) greetings
    · by_cases hji : j = i
      · rw [hji, Function.update_self]
      · have hjk : j.val ≠ k := fun hjk => hji (Fin.ext (hjk.trans hik.symm))
        rw [Function.update_of_ne hji]
        exact returned j (by omega)
    · have hnext : (nextThread i).val = (k + 1) % n := by
        rw [← hik]
        rfl
      simp only [Shared.post]
      by_cases hji : j = nextThread i
      · rw [hji, Function.update_self, token, if_pos hnext]
      · have hval : j.val ≠ (k + 1) % n := fun hval => hji (Fin.ext (hval.trans hnext.symm))
        rw [Function.update_of_ne hji, token, if_neg hval]

end Steps

section Runs

variable {s : Run n} {i : Fin n}

theorem wait_eq_some {m : Shared n} {r : Shared n × Pc} (h : m.wait i = some r) :
    m.canGreet i ≠ 0 ∧
      r = ({ m with canGreet := Function.update m.canGreet i (m.canGreet i - 1) }, .greet) := by
  rw [Shared.wait] at h
  split_ifs at h with hzero
  exact ⟨hzero, (Option.some.inj h).symm⟩

theorem Turn.access {k : ℕ} {m : Shared n} {thread : Fin n → Pc} (h : Turn k m thread)
    {run : Shared n → Option (Shared n × Pc)} {r : Shared n × Pc}
    (hnext : next i (thread i) = .access run) (hrun : run m = some r) :
    ∃ k, Turn k r.1 (Function.update thread i r.2) := by
  -- one case for each line of `greet`; only the post hands the turn over
  cases hpc : thread i <;> rw [hpc] at hnext
  case begin =>
    obtain rfl := Instr.access.inj hnext
    obtain rfl := Option.some.inj hrun
    exact ⟨k, h.begin hpc⟩
  case wait =>
    obtain rfl := Instr.access.inj hnext
    obtain ⟨hvalue, rfl⟩ := wait_eq_some hrun
    exact ⟨k, h.wait hpc hvalue⟩
  case greet =>
    obtain rfl := Instr.access.inj hnext
    obtain rfl := Option.some.inj hrun
    exact ⟨k, h.greet_of hpc⟩
  case post =>
    obtain rfl := Instr.access.inj hnext
    obtain rfl := Option.some.inj hrun
    exact ⟨k + 1, h.post_of hpc⟩
  case returned => cases hnext

theorem reachable_turn (h : (code n).system.Reachable s) : ∃ k, Turn k s.memory s.thread := by
  refine reachable_invariant (I := fun m thread => ∃ k, Turn k m thread) ?_ ?_ ?_ h
  · refine ⟨0, .free n.zero_le (fun j hj => absurd hj (Nat.not_lt_zero _)) (fun _ _ => .inl rfl)
      (fun j => ?_) rfl⟩
    rw [Nat.zero_mod]
    rfl
  · exact fun _ _ mutex => mutex.elim
  · rintro s i run r - hnext hrun ⟨k, hk⟩
    exact hk.access hnext hrun

theorem existsUnique_inside {k : ℕ} {thread : Fin n → Pc} (turn : i.val = k)
    (here : (thread i).Inside) (returned : ∀ j : Fin n, j < k → thread j = .returned)
    (before : ∀ j : Fin n, k < j → (thread j).Before) : ∃! j, (thread j).Inside :=
  ⟨i, here, fun _ hj => Fin.ext ((turn_of_inside returned before hj).trans turn.symm)⟩

theorem Turn.oneToken {k : ℕ} (hn : 1 ≤ n) (h : Turn k s.memory s.thread) : OneToken s := by
  cases h with
  | free le returned before token greetings =>
    refine .inl ⟨⟨⟨k % n, Nat.mod_lt k hn⟩, (token _).trans (if_pos rfl), fun j hj => ?_⟩,
      fun j => ?_, not_inside returned before⟩
    · apply Fin.ext
      by_contra hjk
      exact absurd (hj.symm.trans ((token j).trans (if_neg hjk))) (by decide)
    · rw [token j]
      split_ifs <;> omega
  | greet i turn here returned before token greetings =>
    exact .inr ⟨token, existsUnique_inside turn (.inl here) returned before⟩
  | post i turn here returned before token greetings =>
    exact .inr ⟨token, existsUnique_inside turn (.inr here) returned before⟩

theorem Turn.exists_greetings {k : ℕ} (h : Turn k s.memory s.thread) :
    ∃ m ≤ n, s.memory.greetings = List.range m := by
  cases h with
  | free le returned before token greetings => exact ⟨k, le, greetings⟩
  | greet i turn here returned before token greetings => exact ⟨k, by omega, greetings⟩
  | post i turn here returned before token greetings => exact ⟨k + 1, by omega, greetings⟩

theorem Turn.of_returned {k : ℕ} (h : Turn k s.memory s.thread)
    (hall : ∀ i, s.thread i = .returned) :
    s.memory.greetings = List.range n ∧ s.memory.canGreet = (code n).memory.canGreet := by
  cases h with
  | free le returned before token greetings =>
    -- the thread whose turn it is has not passed its wait
    have hk : k = n := by
      by_contra hk
      have hb := before ⟨k, by omega⟩ le_rfl
      rw [hall] at hb
      exact absurd hb (by decide)
    refine ⟨hk ▸ greetings, funext fun j => ?_⟩
    rw [token j, hk, Nat.mod_self]
    rfl
  | greet i turn here returned before token greetings => cases (hall i).symm.trans here
  | post i turn here returned before token greetings => cases (hall i).symm.trans here

theorem Turn.returned_of_stuck {k : ℕ} (h : Turn k s.memory s.thread)
    (hstuck : (code n).system.Stuck s) (i : Fin n) : s.thread i = .returned := by
  have hblocked : ∀ i, (s.thread i = .returned) ∨ s.thread i = .wait ∧ s.memory.canGreet i = 0 := by
    intro i
    have hi := hstuck i
    simp only [Code.system, code] at hi
    cases hpc : s.thread i <;> rw [hpc] at hi
    case returned => exact .inl rfl
    case wait =>
      refine .inr ⟨rfl, ?_⟩
      by_contra hvalue
      simp [next, Shared.wait, hvalue] at hi
    all_goals simp [next] at hi
  cases h with
  | free le returned before token greetings =>
    obtain hk | hk := lt_or_ge k n
    · have hturn := token ⟨k, hk⟩
      rw [if_pos (Nat.mod_eq_of_lt hk).symm] at hturn
      obtain hret | ⟨-, hzero⟩ := hblocked ⟨k, hk⟩
      · have hb := before ⟨k, hk⟩ le_rfl
        rw [hret] at hb
        exact absurd hb (by decide)
      · omega
    · exact returned i (by omega)
  | greet l turn here returned before token greetings =>
    obtain hret | ⟨hwait, -⟩ := hblocked l
    · cases hret.symm.trans here
    · cases hwait.symm.trans here
  | post l turn here returned before token greetings =>
    obtain hret | ⟨hwait, -⟩ := hblocked l
    · cases hret.symm.trans here
    · cases hwait.symm.trans here

/-- The lines of `greet` that are left to a thread. -/
def Pc.rest : Pc → ℕ
  | begin => 4
  | wait => 3
  | greet => 2
  | post => 1
  | returned => 0

theorem rest_access {pc : Pc} {run : Shared n → Option (Shared n × Pc)} {m : Shared n}
    {r : Shared n × Pc} (hnext : next i pc = .access run) (hrun : run m = some r) :
    r.2.rest + 1 = pc.rest := by
  cases pc
  case returned => cases hnext
  case wait =>
    obtain rfl := Instr.access.inj hnext
    obtain ⟨-, rfl⟩ := wait_eq_some hrun
    rfl
  all_goals
    obtain rfl := Instr.access.inj hnext
    obtain rfl := Option.some.inj hrun
    rfl

theorem terminates (n : ℕ) : (code n).system.Terminates := by
  apply terminates_of_left Pc.rest
  intro s i t _ ht
  obtain ⟨run, r, hnext, hrun, rfl⟩ := access_of_step ht
  rw [State.access_thread, Function.update_self, ← rest_access hnext hrun]
  exact Nat.lt_succ_self _

end Runs

/-- There is always one token, the greetings are in order, every run ends, not before all threads
have greeted and returned, and then the semaphores are as at the start. -/
theorem greetings_in_order (n : ℕ) (hn : 1 ≤ n) : (code n).system.Terminates ∧
    ∀ s, (code n).system.Reachable s →
      OneToken s ∧ (∃ m ≤ n, s.memory.greetings = List.range m) ∧
      ((code n).system.Stuck s → ∀ i, s.thread i = .returned) ∧
      ((∀ i, s.thread i = .returned) → s.memory.greetings = List.range n ∧
        s.memory.canGreet = (code n).memory.canGreet) := by
  refine ⟨terminates n, fun s h => ?_⟩
  obtain ⟨k, hk⟩ := reachable_turn h
  exact ⟨hk.oneToken hn, hk.exists_greetings, hk.returned_of_stuck, hk.of_returned⟩

/-- The end of a run of three threads. -/
theorem greetings_in_order_three : ∃ s, (code 3).system.Reachable s ∧ OneToken s ∧
    (∀ i, s.thread i = .returned) ∧ s.memory.greetings = [0, 1, 2] ∧
    s.memory.canGreet = (code 3).memory.canGreet := by
  obtain ⟨hterminates, h⟩ := greetings_in_order 3 (by decide)
  obtain ⟨s, hr, hs⟩ := hterminates.exists_stuck
  obtain ⟨htoken, -, hstuck, hend⟩ := h s hr
  exact ⟨s, hr, htoken, hstuck hs, hend (hstuck hs)⟩

end Concurrente.HelloOrder
