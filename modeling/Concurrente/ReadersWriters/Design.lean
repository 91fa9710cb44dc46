import Concurrente.Threads

/-!
# readers_writers, the design

The first reader takes the medium for all readers, and the last one gives it back.
-/

namespace Concurrente.ReadersWriters.Design

open Threads

/-- The lines of `reader` and of `writer`. -/
inductive Pc where
  | waitCountIn
  | incrementCount
  | waitMediumIn
  | signalCountIn
  | read
  | waitCountOut
  | decrementCount
  | signalMediumOut
  | signalCountOut
  | waitMedium
  | write
  | signalMedium
  | returned
  deriving DecidableEq

structure Shared where
  canAccessMedium : ℕ
  count : ℤ
  canAccessReaderCount : ℕ

namespace Shared

variable (s : Shared)

/-- `wait(can_access_medium)`. -/
def waitMedium : Option Shared :=
  if s.canAccessMedium = 0 then none
  else some { s with canAccessMedium := s.canAccessMedium - 1 }

def signalMedium : Shared := { s with canAccessMedium := s.canAccessMedium + 1 }

/-- `wait(can_access_reader_count)`. -/
def waitCount : Option Shared :=
  if s.canAccessReaderCount = 0 then none
  else some { s with canAccessReaderCount := s.canAccessReaderCount - 1 }

def signalCount : Shared := { s with canAccessReaderCount := s.canAccessReaderCount + 1 }

def addCount (c : ℤ) : Shared := { s with count := s.count + c }

end Shared

/-- The next line of a thread, for readers and writers alike. -/
def next : Pc → Instr Empty Pc Shared
  | .waitCountIn => .access fun s => s.waitCount.map (·, .incrementCount)
  | .incrementCount => .access fun s =>
    some (s.addCount 1, if s.count + 1 = 1 then .waitMediumIn else .signalCountIn)
  | .waitMediumIn => .access fun s => s.waitMedium.map (·, .signalCountIn)
  | .signalCountIn => .access fun s => some (s.signalCount, .read)
  | .read => .access fun s => some (s, .waitCountOut)
  | .waitCountOut => .access fun s => s.waitCount.map (·, .decrementCount)
  | .decrementCount => .access fun s =>
    some (s.addCount (-1), if s.count - 1 = 0 then .signalMediumOut else .signalCountOut)
  | .signalMediumOut => .access fun s => some (s.signalMedium, .signalCountOut)
  | .signalCountOut => .access fun s => some (s.signalCount, .returned)
  | .waitMedium => .access fun s => s.waitMedium.map (·, .write)
  | .write => .access fun s => some (s, .signalMedium)
  | .signalMedium => .access fun s => some (s.signalMedium, .returned)
  | .returned => .finished

/-- The routine that `main` starts for a character. -/
def routine? : Char → Option Pc
  | 'R' => some .waitCountIn
  | 'W' => some .waitMedium
  | _ => none

/-- The threads that `main` creates for an input. -/
def threads (input : List Char) : List Pc := input.filterMap routine?

def main (input : List Char) : Code (Fin (threads input).length) Empty Pc Shared where
  memory := ⟨1, 0, 1⟩
  start i := (threads input)[i]
  next _ := next

inductive Moves (m : Shared) : Pc → Shared → Pc → Prop
  | waitCountIn (h : m.canAccessReaderCount ≠ 0) : Moves m .waitCountIn
    { m with canAccessReaderCount := m.canAccessReaderCount - 1 } .incrementCount
  | first (h : m.count = 0) : Moves m .incrementCount (m.addCount 1) .waitMediumIn
  | later (h : m.count ≠ 0) : Moves m .incrementCount (m.addCount 1) .signalCountIn
  | waitMediumIn (h : m.canAccessMedium ≠ 0) : Moves m .waitMediumIn
    { m with canAccessMedium := m.canAccessMedium - 1 } .signalCountIn
  | signalCountIn : Moves m .signalCountIn m.signalCount .read
  | read : Moves m .read m .waitCountOut
  | waitCountOut (h : m.canAccessReaderCount ≠ 0) : Moves m .waitCountOut
    { m with canAccessReaderCount := m.canAccessReaderCount - 1 } .decrementCount
  | last (h : m.count = 1) : Moves m .decrementCount (m.addCount (-1)) .signalMediumOut
  | earlier (h : m.count ≠ 1) : Moves m .decrementCount (m.addCount (-1)) .signalCountOut
  | signalMediumOut : Moves m .signalMediumOut m.signalMedium .signalCountOut
  | signalCountOut : Moves m .signalCountOut m.signalCount .returned
  | waitMedium (h : m.canAccessMedium ≠ 0) : Moves m .waitMedium
    { m with canAccessMedium := m.canAccessMedium - 1 } .write
  | write : Moves m .write m .signalMedium
  | signalMedium : Moves m .signalMedium m.signalMedium .returned

theorem waitCount_eq_some {m : Shared} {pc : Pc} {r : Shared × Pc}
    (h : m.waitCount.map (·, pc) = some r) : m.canAccessReaderCount ≠ 0 ∧
      r = ({ m with canAccessReaderCount := m.canAccessReaderCount - 1 }, pc) := by
  obtain ⟨s, hs, rfl⟩ := Option.map_eq_some_iff.mp h
  rw [Shared.waitCount] at hs
  split_ifs at hs with hzero
  obtain rfl := Option.some.inj hs
  exact ⟨hzero, rfl⟩

theorem waitMedium_eq_some {m : Shared} {pc : Pc} {r : Shared × Pc}
    (h : m.waitMedium.map (·, pc) = some r) : m.canAccessMedium ≠ 0 ∧
      r = ({ m with canAccessMedium := m.canAccessMedium - 1 }, pc) := by
  obtain ⟨s, hs, rfl⟩ := Option.map_eq_some_iff.mp h
  rw [Shared.waitMedium] at hs
  split_ifs at hs with hzero
  obtain rfl := Option.some.inj hs
  exact ⟨hzero, rfl⟩

theorem moves_of_access {pc : Pc} {run : Shared → Option (Shared × Pc)} {m : Shared}
    {r : Shared × Pc} (hnext : next pc = .access run) (hrun : run m = some r) :
    Moves m pc r.1 r.2 := by
  cases pc
  case returned => cases hnext
  all_goals obtain rfl := Instr.access.inj hnext
  case waitCountIn =>
    obtain ⟨h, rfl⟩ := waitCount_eq_some hrun
    exact .waitCountIn h
  case incrementCount =>
    obtain rfl := Option.some.inj hrun
    by_cases h : m.count = 0
    · simpa [h] using Moves.first h
    · simpa [h] using Moves.later h
  case waitMediumIn =>
    obtain ⟨h, rfl⟩ := waitMedium_eq_some hrun
    exact .waitMediumIn h
  case waitCountOut =>
    obtain ⟨h, rfl⟩ := waitCount_eq_some hrun
    exact .waitCountOut h
  case decrementCount =>
    obtain rfl := Option.some.inj hrun
    by_cases h : m.count = 1
    · simpa [h] using Moves.last h
    · simpa [h, sub_eq_zero] using Moves.earlier h
  case waitMedium =>
    obtain ⟨h, rfl⟩ := waitMedium_eq_some hrun
    exact .waitMedium h
  all_goals
    obtain rfl := Option.some.inj hrun
    constructor

namespace Pc

/-- The thread holds `can_access_reader_count`. -/
def inside : Pc → ℕ
  | incrementCount | waitMediumIn | signalCountIn | decrementCount | signalMediumOut
  | signalCountOut => 1
  | _ => 0

def counted : Pc → ℕ
  | waitMediumIn | signalCountIn | read | waitCountOut | decrementCount => 1
  | _ => 0

def updating : Pc → ℕ
  | incrementCount | decrementCount => 1
  | _ => 0

/-- The first reader, before it has the medium. -/
def taking : Pc → ℕ
  | waitMediumIn => 1
  | _ => 0

/-- The last reader, before it gives the medium back. -/
def giving : Pc → ℕ
  | signalMediumOut => 1
  | _ => 0

def writing : Pc → ℕ
  | write | signalMedium => 1
  | _ => 0

def reading : Pc → ℕ
  | read => 1
  | _ => 0

def left : Pc → ℕ
  | waitCountIn => 9
  | incrementCount => 8
  | waitMediumIn => 7
  | signalCountIn => 6
  | read => 5
  | waitCountOut => 4
  | decrementCount => 3
  | signalMediumOut => 2
  | signalCountOut => 1
  | waitMedium => 3
  | write => 2
  | signalMedium => 1
  | returned => 0

theorem taking_add_reading_le (pc : Pc) : pc.taking + pc.reading ≤ pc.counted := by
  cases pc <;> decide

theorem roles_le_inside (pc : Pc) : pc.taking + pc.giving + pc.updating ≤ pc.inside := by
  cases pc <;> decide

end Pc

/-- The readers together have the medium from when the first has taken it until the last gives it
back. -/
structure Invariant {n : ℕ} (m : Shared) (thread : Fin n → Pc) : Prop where
  mutex : m.canAccessReaderCount + ∑ i, (thread i).inside = 1
  count : m.count = ((∑ i, (thread i).counted : ℕ) : ℤ)
  reading : 0 < m.count →
    m.canAccessMedium + ∑ i, (thread i).writing = ∑ i, (thread i).taking
  idle : m.count = 0 →
    m.canAccessMedium + ∑ i, (thread i).writing + ∑ i, (thread i).giving = 1
  taking : 0 < ∑ i, (thread i).taking → m.count = 1
  giving : 0 < ∑ i, (thread i).giving → m.count = 0

section Steps

variable {n : ℕ} {m m' : Shared} {thread : Fin n → Pc} {i : Fin n} {pc : Pc}

theorem sum_roles_le (thread : Fin n → Pc) : ∑ i, (thread i).taking + ∑ i, (thread i).giving +
    ∑ i, (thread i).updating ≤ ∑ i, (thread i).inside := by
  rw [← Finset.sum_add_distrib, ← Finset.sum_add_distrib]
  exact Finset.sum_le_sum fun i _ => (thread i).roles_le_inside

theorem Invariant.step (I : Invariant m thread) (h : Moves m (thread i) m' pc) :
    Invariant m' (Function.update thread i pc) := by
  have hinside := sum_move thread i Pc.inside pc
  have hcounted := sum_move thread i Pc.counted pc
  have hwriting := sum_move thread i Pc.writing pc
  have hgiving := sum_move thread i Pc.giving pc
  have htaking := sum_move thread i Pc.taking pc
  have hroles := sum_roles_le thread
  have hupdating := weight_le_sum (Finset.mem_univ i) fun j => (thread j).updating
  obtain ⟨hI, hC, hS, hN, hT, hG⟩ := I
  refine ⟨?_, ?_, ?_, ?_, ?_, ?_⟩
  all_goals
    generalize ∑ j, (Function.update thread i pc j).inside = inside' at *
    generalize ∑ j, (Function.update thread i pc j).counted = counted' at *
    generalize ∑ j, (Function.update thread i pc j).writing = writing' at *
    generalize ∑ j, (Function.update thread i pc j).giving = giving' at *
    generalize ∑ j, (Function.update thread i pc j).taking = taking' at *
    generalize ∑ j, (thread j).inside = inside at *
    generalize ∑ j, (thread j).counted = counted at *
    generalize ∑ j, (thread j).writing = writing at *
    generalize ∑ j, (thread j).giving = giving at *
    generalize ∑ j, (thread j).taking = taking at *
    generalize ∑ j, (thread j).updating = updating at *
    generalize thread i = a at *
    cases h <;> simp only [Pc.inside, Pc.counted, Pc.writing, Pc.giving, Pc.taking, Pc.updating,
      Shared.addCount, Shared.signalCount, Shared.signalMedium] at *
    all_goals omega

end Steps

section Runs

variable {input : List Char} {s : State (Fin (threads input).length) Empty Pc Shared}
  {i j : Fin (threads input).length}

theorem moves_of_step {t : State (Fin (threads input).length) Empty Pc Shared}
    (h : (main input).system.step s i = some t) :
    ∃ pc, Moves s.memory (s.thread i) t.memory pc ∧ t.thread = Function.update s.thread i pc := by
  obtain ⟨run, r, hn, hr, rfl⟩ := access_of_step h
  exact ⟨r.2, moves_of_access hn hr, rfl⟩

theorem start_mem (pc : Pc) (h : pc ∈ threads input) : pc = .waitCountIn ∨ pc = .waitMedium := by
  obtain ⟨c, -, hc⟩ := List.mem_filterMap.mp h
  unfold routine? at hc
  split at hc
  · exact .inl (Option.some.inj hc).symm
  · exact .inr (Option.some.inj hc).symm
  · cases hc

theorem reachable_invariant (h : (main input).system.Reachable s) :
    Invariant s.memory s.thread := by
  apply h.invariant (I := fun s => Invariant s.memory s.thread)
  · have hzero : ∀ w : Pc → ℕ, w .waitCountIn = 0 → w .waitMedium = 0 →
        ∑ i : Fin (threads input).length, w (threads input)[i] = 0 := by
      intro w hr hw
      apply Finset.sum_eq_zero
      intro i _
      obtain h | h := start_mem (threads input)[i] (List.getElem_mem _) <;> rw [h]
      · exact hr
      · exact hw
    refine ⟨?_, ?_, fun h => absurd h (lt_irrefl 0), fun _ => ?_, fun h => ?_, fun _ => rfl⟩
    · exact (congrArg (1 + ·) (hzero Pc.inside rfl rfl)).trans rfl
    · exact (congrArg Nat.cast (hzero Pc.counted rfl rfl)).symm
    · exact (congrArg₂ (1 + · + ·) (hzero Pc.writing rfl rfl) (hzero Pc.giving rfl rfl)).trans rfl
    · exact absurd h (hzero Pc.taking rfl rfl).not_gt
  · intro s i t I hs
    obtain ⟨pc, hmove, ht⟩ := moves_of_step hs
    rw [ht]
    exact I.step hmove

theorem Moves.left_lt {m m' : Shared} {a pc : Pc} (h : Moves m a m' pc) : pc.left < a.left := by
  cases h <;> decide

theorem blocked_cases (h : (main input).system.step s i = none) :
    s.thread i = .returned ∨
    (s.thread i = .waitCountIn ∨ s.thread i = .waitCountOut) ∧
      s.memory.canAccessReaderCount = 0 ∨
    (s.thread i = .waitMediumIn ∨ s.thread i = .waitMedium) ∧ s.memory.canAccessMedium = 0 := by
  cases hpc : s.thread i
  case returned => exact .inl rfl
  all_goals
    simp only [Code.system, main, hpc, next] at h
    simp [Shared.waitCount, Shared.waitMedium] at h
  all_goals simp [h]

section Exclusion

variable {n : ℕ} {m : Shared} {thread : Fin n → Pc}

theorem Invariant.taking_le (I : Invariant m thread) : ∑ i, (thread i).taking ≤ 1 := by
  have hroles := sum_roles_le thread
  have hmutex := I.mutex
  omega

theorem Invariant.count_nonneg (I : Invariant m thread) : 0 ≤ m.count := by
  rw [I.count]
  exact Int.natCast_nonneg _

theorem Invariant.writing_le (I : Invariant m thread) : ∑ i, (thread i).writing ≤ 1 := by
  have hle := I.taking_le
  obtain hzero | hpos := I.count_nonneg.eq_or_lt'
  · have := I.idle hzero
    omega
  · have := I.reading hpos
    omega

theorem Invariant.reading_eq_zero (I : Invariant m thread) (h : 0 < ∑ i, (thread i).writing) :
    ∑ i, (thread i).reading = 0 := by
  have hle : ∑ i, (thread i).taking + ∑ i, (thread i).reading ≤ ∑ i, (thread i).counted := by
    rw [← Finset.sum_add_distrib]
    exact Finset.sum_le_sum fun i _ => (thread i).taking_add_reading_le
  have hcount := I.count
  obtain hzero | hpos := I.count_nonneg.eq_or_lt'
  · omega
  · have hreading := I.reading hpos
    have htaking := I.taking (by omega)
    omega

theorem Invariant.exclusive (I : Invariant m thread) {i j : Fin n} (hi : thread i = .write)
    (hij : i ≠ j) : thread j ≠ .write ∧ thread j ≠ .read := by
  have hwriting := weight_le_sum (Finset.mem_univ i) fun k => (thread k).writing
  have hone : (thread i).writing = 1 := by rw [hi]; rfl
  refine ⟨fun hj => hij ?_, fun hj => ?_⟩
  · apply eq_of_sum_le_one (fun k => (thread k).writing) I.writing_le (Finset.mem_univ i)
      (Finset.mem_univ j) <;> simp [hi, hj, Pc.writing]
  · have hreading := weight_le_sum (Finset.mem_univ j) fun k => (thread k).reading
    have hj' : (thread j).reading = 1 := by rw [hj]; rfl
    have := I.reading_eq_zero (by omega)
    omega

end Exclusion

theorem finished_of_stuck (h : (main input).system.Reachable s)
    (hs : (main input).system.Stuck s) (i : Fin (threads input).length) :
    s.thread i = .returned := by
  have I := reachable_invariant h
  have hblocked := fun j => blocked_cases (hs j)
  have hinside : ∑ j, (s.thread j).inside = ∑ j, (s.thread j).taking := by
    apply Finset.sum_congr rfl
    intro j _
    obtain h | ⟨h | h, -⟩ | ⟨h | h, -⟩ := hblocked j <;> rw [h] <;> rfl
  have hwriting : ∑ j, (s.thread j).writing = 0 := by
    apply Finset.sum_eq_zero
    intro j _
    obtain h | ⟨h | h, -⟩ | ⟨h | h, -⟩ := hblocked j <;> rw [h] <;> rfl
  have hgiving : ∑ j, (s.thread j).giving = 0 := by
    apply Finset.sum_eq_zero
    intro j _
    obtain h | ⟨h | h, -⟩ | ⟨h | h, -⟩ := hblocked j <;> rw [h] <;> rfl
  have htaking : ∑ j, (s.thread j).taking = 0 ∨ s.memory.canAccessMedium = 0 := by
    by_contra! hne
    obtain ⟨j, -, hj⟩ := exists_of_sum_pos (Nat.pos_of_ne_zero hne.1)
    obtain h | ⟨h | h, -⟩ | ⟨h | h, hzero⟩ := hblocked j
    all_goals simp [h, Pc.taking] at hj
    exact hne.2 hzero
  have hmutex := I.mutex
  obtain hzero | hpos := I.count_nonneg.eq_or_lt'
  · have hidle := I.idle hzero
    obtain h | ⟨-, hcount⟩ | ⟨-, hmedium⟩ := hblocked i
    · exact h
    all_goals omega
  · have hreading := I.reading hpos
    have hcount := I.count
    obtain ⟨j, -, hj⟩ := exists_of_sum_pos (w := fun j => (s.thread j).counted)
      (s := Finset.univ) (by omega)
    have htaken : (s.thread j).taking = 0 := by
      have := weight_le_sum (Finset.mem_univ j) fun k => (s.thread k).taking
      omega
    obtain h | ⟨h | h, hzero⟩ | ⟨h | h, -⟩ := hblocked j <;>
      simp [h, Pc.counted, Pc.taking] at hj htaken
    omega

theorem left_lt {t : State (Fin (threads input).length) Empty Pc Shared}
    (h : (main input).system.step s i = some t) : (t.thread i).left < (s.thread i).left := by
  obtain ⟨pc, hmove, ht⟩ := moves_of_step h
  rw [ht, Function.update_self]
  exact hmove.left_lt

theorem length_le_of_run {l : List (Fin (threads input).length)}
    (h : (main input).system.run l = some s) : l.length ≤ 9 * input.length := by
  have hstart : ∀ i, ((main input).start i).left ≤ 9 := by
    intro i
    obtain h | h := start_mem ((main input).start i) (List.getElem_mem _) <;> rw [h] <;> decide
  have hlength : (threads input).length ≤ input.length := List.length_filterMap_le routine? input
  have hrun := length_le_of_left Pc.left (fun _ _ _ _ => left_lt) hstart h
  rw [Fintype.card_fin] at hrun
  omega

/-- Writers are alone with the medium and readers are there without writers, no run gets stuck
before all threads have returned, and no run has more than nine steps for each thread. -/
theorem readers_writers_correct (input : List Char) :
    (∀ s, (main input).system.Reachable s →
      (∀ i j, s.thread i = .write → i ≠ j → s.thread j ≠ .write ∧ s.thread j ≠ .read) ∧
      ((main input).system.Stuck s → ∀ i, s.thread i = .returned)) ∧
    ∀ l s, (main input).system.run l = some s → l.length ≤ 9 * input.length := by
  exact ⟨fun s h => ⟨fun i j => (reachable_invariant h).exclusive, finished_of_stuck h⟩,
    fun l s => length_le_of_run⟩

end Runs

end Concurrente.ReadersWriters.Design
