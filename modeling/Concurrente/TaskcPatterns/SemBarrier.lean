import Concurrente.Threads

/-!
# sem_barrier_1pass

A barrier that a team passes once: the last thread to arrive gives a permit to every thread.
-/

namespace Concurrente.TaskcPatterns.SemBarrier

open Threads

/-- The lines of `secondary`; `count := count + 1` loads and stores. -/
inductive Pc where
  | statementA
  | waitCount
  | load
  | store (value : ℕ)
  | test
  | signalBarrier
  | signalCount
  | waitBarrier
  | statementB
  | returned
  deriving DecidableEq

structure Shared where
  count : ℕ
  canAccessCount : ℕ
  barrier : ℕ

namespace Shared

variable (s : Shared)

/-- `wait(can_access_count)`. -/
def waitCount : Option Shared :=
  if s.canAccessCount = 0 then none else some { s with canAccessCount := s.canAccessCount - 1 }

/-- `signal(can_access_count)`. -/
def signalCount : Shared := { s with canAccessCount := s.canAccessCount + 1 }

def store (value : ℕ) : Shared := { s with count := value }

/-- `signal(barrier, thread_count)`. -/
def signalBarrier (threadCount : ℕ) : Shared := { s with barrier := s.barrier + threadCount }

/-- `wait(barrier)`. -/
def waitBarrier : Option Shared :=
  if s.barrier = 0 then none else some { s with barrier := s.barrier - 1 }

end Shared

def secondary (threadCount : ℕ) : Pc → Instr Empty Pc Shared
  | .statementA => .access fun s => some (s, .waitCount)
  | .waitCount => .access fun s => s.waitCount.map (·, .load)
  | .load => .access fun s => some (s, .store s.count)
  | .store value => .access fun s => some (s.store (value + 1), .test)
  | .test => .access fun s =>
    some (s, if s.count = threadCount then .signalBarrier else .signalCount)
  | .signalBarrier => .access fun s => some (s.signalBarrier threadCount, .signalCount)
  | .signalCount => .access fun s => some (s.signalCount, .waitBarrier)
  | .waitBarrier => .access fun s => s.waitBarrier.map (·, .statementB)
  | .statementB => .access fun s => some (s, .returned)
  | .returned => .finished

def main (threadCount : ℕ) : Code (Fin threadCount) Empty Pc Shared where
  memory := ⟨0, 1, 0⟩
  start _ := .statementA
  next _ := secondary threadCount

def Pc.Past : Pc → Prop
  | statementB | returned => True
  | _ => False

/-- Nobody passes the barrier while a thread has not executed Statement A, no run has more than
nine steps for each thread, and none gets stuck before all threads have returned.  The permits are
used up then, but the count is not set back. -/
structure Correct (threadCount : ℕ) : Prop where
  ordered : ∀ s, (main threadCount).system.Reachable s →
    ∀ i j, (s.thread i).Past → s.thread j ≠ .statementA
  finished : ∀ s, (main threadCount).system.Reachable s → (main threadCount).system.Stuck s →
    (∀ i, s.thread i = .returned) ∧ s.memory = ⟨threadCount, 1, 0⟩
  bounded : ∀ (l : List (Fin threadCount)) s, (main threadCount).system.run l = some s →
    l.length ≤ 9 * threadCount

namespace Pc

/-- The thread has the permit of `can_access_count`. -/
def inside : Pc → ℕ
  | load | store _ | test | signalBarrier | signalCount => 1
  | _ => 0

def counted : Pc → ℕ
  | statementA | waitCount | load | store _ => 0
  | _ => 1

/-- The thread has still to find out whether it is the last one, or is the last one and has still
to open the barrier. -/
def toOpen : Pc → ℕ
  | test | signalBarrier => 1
  | _ => 0

def past : Pc → ℕ
  | statementB | returned => 1
  | _ => 0

/-- What the thread knows about the count while it has the permit. -/
def Knows (threadCount count : ℕ) : Pc → Prop
  | store value => value = count
  | signalBarrier => count = threadCount
  | _ => True

def left : Pc → ℕ
  | statementA => 9
  | waitCount => 8
  | load => 7
  | store _ => 6
  | test => 5
  | signalBarrier => 4
  | signalCount => 3
  | waitBarrier => 2
  | statementB => 1
  | returned => 0

end Pc

variable {threadCount : ℕ}

structure Invariant (m : Shared) (thread : Fin threadCount → Pc) : Prop where
  mutex : m.canAccessCount + ∑ i, (thread i).inside = 1
  count : m.count = ∑ i, (thread i).counted
  knows : ∀ i, (thread i).Knows threadCount m.count
  -- closed until the last thread has opened it, and nobody opens it twice
  barrier : m.barrier = 0 ∧ (∑ i, (thread i).past) = 0 ∧
      (m.count = threadCount → 0 < threadCount → 0 < ∑ i, (thread i).toOpen) ∨
    m.count = threadCount ∧ m.barrier + ∑ i, (thread i).past = threadCount ∧
      ∑ i, (thread i).toOpen = 0

inductive Moves (threadCount : ℕ) (m : Shared) : Pc → Shared → Pc → Prop
  | statementA : Moves threadCount m .statementA m .waitCount
  | waitCount (h : m.canAccessCount ≠ 0) : Moves threadCount m .waitCount
    { m with canAccessCount := m.canAccessCount - 1 } .load
  | load : Moves threadCount m .load m (.store m.count)
  | store (value : ℕ) : Moves threadCount m (.store value) (m.store (value + 1)) .test
  | last (h : m.count = threadCount) : Moves threadCount m .test m .signalBarrier
  | notLast (h : m.count ≠ threadCount) : Moves threadCount m .test m .signalCount
  | signalBarrier : Moves threadCount m .signalBarrier (m.signalBarrier threadCount) .signalCount
  | signalCount : Moves threadCount m .signalCount m.signalCount .waitBarrier
  | waitBarrier (h : m.barrier ≠ 0) : Moves threadCount m .waitBarrier
    { m with barrier := m.barrier - 1 } .statementB
  | statementB : Moves threadCount m .statementB m .returned

section Steps

variable {m m' : Shared} {thread : Fin threadCount → Pc} {i : Fin threadCount} {pc : Pc}

theorem moves_of_access {run : Shared → Option (Shared × Pc)} {a : Pc} {r : Shared × Pc}
    (hn : secondary threadCount a = .access run) (hr : run m = some r) :
    Moves threadCount m a r.1 r.2 := by
  cases a <;> cases hn
  case waitCount =>
    obtain ⟨x, hx, rfl⟩ := Option.map_eq_some_iff.mp hr
    unfold Shared.waitCount at hx
    split_ifs at hx with h
    cases hx
    exact .waitCount h
  case waitBarrier =>
    obtain ⟨x, hx, rfl⟩ := Option.map_eq_some_iff.mp hr
    unfold Shared.waitBarrier at hx
    split_ifs at hx with h
    cases hx
    exact .waitBarrier h
  case test =>
    cases hr
    dsimp only
    split_ifs with h
    · exact .last h
    · exact .notLast h
  all_goals
    cases hr
    constructor

theorem Invariant.inside_eq_zero (I : Invariant m thread) (hi : (thread i).inside = 1)
    {j : Fin threadCount} (hj : j ≠ i) : (thread j).inside = 0 := by
  by_contra hne
  have hle := I.mutex
  exact hj (eq_of_sum_le_one (fun k => (thread k).inside) (by omega) (Finset.mem_univ j)
    (Finset.mem_univ i) hne (by omega))

theorem Pc.knows_of_outside {a : Pc} (h : a.inside = 0) (count : ℕ) :
    a.Knows threadCount count := by
  cases a <;> trivial

theorem Pc.counted_le (a : Pc) : a.counted ≤ 1 := by
  cases a <;> simp [counted]

theorem Pc.toOpen_le (a : Pc) : a.toOpen ≤ a.inside := by
  cases a <;> simp [toOpen, inside]

theorem Pc.past_le (a : Pc) : a.past ≤ a.counted := by
  cases a <;> simp [past, counted]

theorem sum_counted_le (thread : Fin threadCount → Pc) :
    ∑ i, (thread i).counted ≤ threadCount := by
  apply (Finset.sum_le_card_nsmul _ _ 1 fun i _ => (thread i).counted_le).trans_eq
  rw [Finset.card_univ, Fintype.card_fin, smul_eq_mul, Nat.mul_one]

theorem Moves.mutex (I : Invariant m thread) (h : Moves threadCount m (thread i) m' pc) :
    m'.canAccessCount + ∑ j, (Function.update thread i pc j).inside = 1 := by
  have hsum := sum_move thread i Pc.inside pc
  have hmutex := I.mutex
  generalize ∑ j, (Function.update thread i pc j).inside = inside' at hsum ⊢
  generalize ∑ j, (thread j).inside = inside at hsum hmutex
  generalize thread i = a at h hsum
  cases h <;>
    simp only [Pc.inside, Shared.store, Shared.signalBarrier, Shared.signalCount] at hsum ⊢ <;>
    omega

theorem Moves.count (I : Invariant m thread) (h : Moves threadCount m (thread i) m' pc) :
    m'.count = ∑ j, (Function.update thread i pc j).counted := by
  have hsum := sum_move thread i Pc.counted pc
  have hcount := I.count
  have hknows := I.knows i
  generalize ∑ j, (Function.update thread i pc j).counted = counted' at hsum ⊢
  generalize ∑ j, (thread j).counted = counted at hsum hcount
  generalize thread i = a at h hsum hknows
  cases h <;>
    simp only [Pc.counted, Pc.Knows, Shared.store, Shared.signalBarrier, Shared.signalCount]
      at hsum hknows ⊢ <;>
    omega

theorem Moves.knows (I : Invariant m thread) (h : Moves threadCount m (thread i) m' pc)
    (j : Fin threadCount) : (Function.update thread i pc j).Knows threadCount m'.count := by
  by_cases hj : j = i
  · subst hj
    rw [Function.update_self]
    generalize thread j = a at h
    cases h <;> trivial
  · rw [Function.update_of_ne hj]
    have hknows := I.knows j
    have halone := I.inside_eq_zero (i := i) (j := j)
    generalize thread i = a at h halone
    cases h
    case store value => exact Pc.knows_of_outside (halone rfl hj) _
    all_goals exact hknows

theorem Moves.barrier (I : Invariant m thread) (h : Moves threadCount m (thread i) m' pc) :
    m'.barrier = 0 ∧ (∑ j, (Function.update thread i pc j).past) = 0 ∧
      (m'.count = threadCount → 0 < threadCount →
        0 < ∑ j, (Function.update thread i pc j).toOpen) ∨
    m'.count = threadCount ∧ m'.barrier + ∑ j, (Function.update thread i pc j).past = threadCount ∧
      ∑ j, (Function.update thread i pc j).toOpen = 0 := by
  have hpast := sum_move thread i Pc.past pc
  have hopen := sum_move thread i Pc.toOpen pc
  have hcount := h.count I
  have hle := sum_counted_le (Function.update thread i pc)
  have hbarrier := I.barrier
  have hknows := I.knows i
  have honly : ∑ j, (thread j).toOpen ≤ ∑ j, (thread j).inside :=
    Finset.sum_le_sum fun j _ => (thread j).toOpen_le
  have hmutex := I.mutex
  have hin := weight_le_sum (Finset.mem_univ i) fun j => (thread j).toOpen
  generalize ∑ j, (Function.update thread i pc j).counted = counted' at hcount hle
  generalize ∑ j, (Function.update thread i pc j).past = past' at hpast ⊢
  generalize ∑ j, (Function.update thread i pc j).toOpen = toOpen' at hopen ⊢
  generalize ∑ j, (thread j).past = past at hpast hbarrier
  generalize ∑ j, (thread j).toOpen = toOpen at *
  generalize ∑ j, (thread j).inside = inside at honly hmutex
  generalize thread i = a at h hpast hopen hknows hin
  cases h <;>
    simp only [Pc.past, Pc.toOpen, Pc.Knows, Shared.store, Shared.signalBarrier,
      Shared.signalCount] at * <;>
    omega

theorem Invariant.step (I : Invariant m thread) (h : Moves threadCount m (thread i) m' pc) :
    Invariant m' (Function.update thread i pc) :=
  ⟨h.mutex I, h.count I, h.knows I, h.barrier I⟩

end Steps

section Runs

variable {s t : State (Fin threadCount) Empty Pc Shared} {i : Fin threadCount}

theorem moves_of_step (h : (main threadCount).system.step s i = some t) :
    ∃ pc, Moves threadCount s.memory (s.thread i) t.memory pc ∧
      t.thread = Function.update s.thread i pc := by
  obtain ⟨run, r, hn, hr, rfl⟩ := access_of_step h
  exact ⟨r.2, moves_of_access hn hr, rfl⟩

theorem reachable_invariant (h : (main threadCount).system.Reachable s) :
    Invariant s.memory s.thread := by
  apply h.invariant (I := fun s => Invariant s.memory s.thread)
  · have hzero : ∀ w : Pc → ℕ, w .statementA = 0 →
        ∑ i, w ((main threadCount).start i) = 0 :=
      fun w hw => Finset.sum_eq_zero fun _ _ => hw
    refine ⟨?_, (hzero Pc.counted rfl).symm, fun _ => trivial,
      .inl ⟨rfl, hzero Pc.past rfl, fun h hpos => absurd h hpos.ne⟩⟩
    exact congrArg (1 + ·) (hzero Pc.inside rfl)
  · intro s i t I hs
    obtain ⟨pc, hmove, ht⟩ := moves_of_step hs
    rw [ht]
    exact I.step hmove

theorem Moves.left_lt {m m' : Shared} {a pc : Pc} (h : Moves threadCount m a m' pc) :
    pc.left < a.left := by
  cases h <;> simp [Pc.left]

theorem blocked_cases (h : (main threadCount).system.step s i = none) :
    s.thread i = .returned ∨ s.thread i = .waitCount ∧ s.memory.canAccessCount = 0 ∨
      s.thread i = .waitBarrier ∧ s.memory.barrier = 0 := by
  cases hpc : s.thread i
  case returned => exact .inl rfl
  all_goals
    simp only [Code.system, main, hpc, secondary] at h
    simp [Shared.waitCount, Shared.waitBarrier] at h
  case waitCount => exact .inr (.inl ⟨rfl, h⟩)
  case waitBarrier => exact .inr (.inr ⟨rfl, h⟩)

theorem finished_of_stuck (h : (main threadCount).system.Reachable s)
    (hs : (main threadCount).system.Stuck s) (i : Fin threadCount) : s.thread i = .returned := by
  have I := reachable_invariant h
  have hmutex := I.mutex
  have hcount := I.count
  have hbarrier := I.barrier
  have hnone : ∀ w : Pc → ℕ, w .returned = 0 → w .waitCount = 0 → w .waitBarrier = 0 →
      ∑ j, w (s.thread j) = 0 := by
    intro w hr hc hb
    apply Finset.sum_eq_zero
    intro j _
    obtain h | ⟨h, -⟩ | ⟨h, -⟩ := blocked_cases (hs j) <;> rw [h] <;> assumption
  rw [hnone Pc.inside rfl rfl rfl] at hmutex
  rw [hnone Pc.toOpen rfl rfl rfl] at hbarrier
  have hcases : ∀ j, s.thread j = .returned ∨ s.thread j = .waitBarrier ∧ s.memory.barrier = 0 := by
    intro j
    obtain h | ⟨-, h⟩ | h := blocked_cases (hs j)
    · exact .inl h
    · omega
    · exact .inr h
  have hall : ∑ j, (s.thread j).counted = threadCount := by
    have hone : ∀ j, (s.thread j).counted = 1 := by
      intro j
      obtain h | ⟨h, -⟩ := hcases j <;> rw [h] <;> rfl
    simp [hone]
  have hpos : 0 < threadCount := i.pos
  obtain h | ⟨hwait, hzero⟩ := hcases i
  · exact h
  · have hlt : ∑ j, (s.thread j).past < ∑ j, (s.thread j).counted :=
      Finset.sum_lt_sum (fun j _ => (s.thread j).past_le)
        ⟨i, Finset.mem_univ i, by rw [hwait]; decide⟩
    omega

theorem ordered (h : (main threadCount).system.Reachable s) (i j : Fin threadCount)
    (hi : (s.thread i).Past) : s.thread j ≠ .statementA := by
  intro hj
  have I := reachable_invariant h
  have hcount := I.count
  have hpast := weight_le_sum (Finset.mem_univ i) fun k => (s.thread k).past
  have hone : (s.thread i).past = 1 := by
    generalize s.thread i = a at hi
    cases a <;> first | rfl | cases hi
  have hlt : ∑ k, (s.thread k).counted < ∑ _k : Fin threadCount, 1 :=
    Finset.sum_lt_sum (fun k _ => (s.thread k).counted_le)
      ⟨j, Finset.mem_univ j, by rw [hj]; decide⟩
  rw [Finset.sum_const, Finset.card_univ, Fintype.card_fin, smul_eq_mul, Nat.mul_one] at hlt
  obtain ⟨-, hnone, -⟩ | ⟨hfull, -, -⟩ := I.barrier <;> omega

/-- The barrier of one pass is correct for every team. -/
theorem sem_barrier_correct (threadCount : ℕ) : Correct threadCount where
  ordered _ h := ordered h
  finished s h hs := by
    have hreturned := finished_of_stuck h hs
    have I := reachable_invariant h
    have hmutex := I.mutex
    have hcount := I.count
    have hbarrier := I.barrier
    simp only [hreturned, Pc.inside, Pc.counted, Pc.past, Pc.toOpen, Finset.sum_const,
      Finset.card_univ, Fintype.card_fin, smul_eq_mul, Nat.mul_zero, Nat.mul_one]
      at hmutex hcount hbarrier
    have hone : s.memory.canAccessCount = 1 := by omega
    have hzero : s.memory.barrier = 0 := by omega
    refine ⟨hreturned, ?_⟩
    calc
      s.memory = Shared.mk s.memory.count s.memory.canAccessCount s.memory.barrier := rfl
      _ = Shared.mk threadCount 1 0 := by rw [hcount, hone, hzero]
  bounded l s h := by
    apply (length_le_of_left Pc.left ?_ (fun _ => le_refl 9) h).trans_eq
    · rw [Fintype.card_fin, mul_comm]
    · intro s i t _ hs
      obtain ⟨pc, hmove, ht⟩ := moves_of_step hs
      rw [ht, Function.update_self]
      exact hmove.left_lt

end Runs

end Concurrente.TaskcPatterns.SemBarrier
