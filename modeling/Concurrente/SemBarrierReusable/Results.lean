import Concurrente.SemBarrierReusable.Program

/-!
# The second gate of sem_barrier_reusable2

A thread that passes the entry keeps its permit.  When the last one leaves, no permit is left
for it to take, and it waits with `can_access_count` in its hands.
-/

namespace Concurrente.SemBarrierReusable

open Threads

variable {n uses : ℕ}

/-- Everything that a step of `secondary` can do. -/
inductive Moves (n uses : ℕ) (m : Shared) : Pc → Shared → Pc → Prop
  | statement (use : ℕ) (gate : Gate) :
    Moves n uses m (.inUse use gate .statement) m (.inUse use gate .waitCount)
  | waitCount (use : ℕ) (gate : Gate) (h : m.canAccessCount ≠ 0) :
    Moves n uses m (.inUse use gate .waitCount) { m with canAccessCount := m.canAccessCount - 1 }
      (.inUse use gate .update)
  | update (use : ℕ) (gate : Gate) :
    Moves n uses m (.inUse use gate .update) (m.update gate) (.inUse use gate .test)
  | test (use : ℕ) (gate : Gate) :
    Moves n uses m (.inUse use gate .test) m (.inUse use gate (afterTest n m.count gate))
  | waitOther (use : ℕ) (gate : Gate) (h : m.barrier gate.other ≠ 0) :
    Moves n uses m (.inUse use gate .waitOther)
      { m with barrier := Function.update m.barrier gate.other (m.barrier gate.other - 1) }
      (.inUse use gate .signalGate)
  | signalGate (use : ℕ) (gate : Gate) :
    Moves n uses m (.inUse use gate .signalGate) (m.signal gate n) (.inUse use gate .signalCount)
  | signalCount (use : ℕ) (gate : Gate) :
    Moves n uses m (.inUse use gate .signalCount) m.signalCount (.inUse use gate .waitGate)
  | waitGate (use : ℕ) (gate : Gate) (h : m.barrier gate ≠ 0) :
    Moves n uses m (.inUse use gate .waitGate)
      { m with barrier := Function.update m.barrier gate (m.barrier gate - 1) }
      (afterGate uses use gate)

theorem waitCount_eq_some {m : Shared} {pc : Pc} {r : Shared × Pc}
    (h : m.waitCount.map (·, pc) = some r) : m.canAccessCount ≠ 0 ∧
      r = ({ m with canAccessCount := m.canAccessCount - 1 }, pc) := by
  obtain ⟨s, hs, rfl⟩ := Option.map_eq_some_iff.mp h
  rw [Shared.waitCount] at hs
  split_ifs at hs with hzero
  obtain rfl := Option.some.inj hs
  exact ⟨hzero, rfl⟩

theorem wait_eq_some {m : Shared} {gate : Gate} {pc : Pc} {r : Shared × Pc}
    (h : (m.wait gate).map (·, pc) = some r) : m.barrier gate ≠ 0 ∧
      r = ({ m with barrier := Function.update m.barrier gate (m.barrier gate - 1) }, pc) := by
  obtain ⟨s, hs, rfl⟩ := Option.map_eq_some_iff.mp h
  rw [Shared.wait] at hs
  split_ifs at hs with hzero
  obtain rfl := Option.some.inj hs
  exact ⟨hzero, rfl⟩

theorem moves_of_access {pc : Pc} {run : Shared → Option (Shared × Pc)} {m : Shared}
    {r : Shared × Pc} (hnext : secondary n uses pc = .access run) (hrun : run m = some r) :
    Moves n uses m pc r.1 r.2 := by
  cases pc with
  | returned => cases hnext
  | inUse use gate point =>
    cases point <;> obtain rfl := Instr.access.inj hnext
    case statement =>
      obtain rfl := Option.some.inj hrun
      exact .statement use gate
    case waitCount =>
      obtain ⟨h, rfl⟩ := waitCount_eq_some hrun
      exact .waitCount use gate h
    case update =>
      obtain rfl := Option.some.inj hrun
      exact .update use gate
    case test =>
      obtain rfl := Option.some.inj hrun
      exact .test use gate
    case waitOther =>
      obtain ⟨h, rfl⟩ := wait_eq_some hrun
      exact .waitOther use gate h
    case signalGate =>
      obtain rfl := Option.some.inj hrun
      exact .signalGate use gate
    case signalCount =>
      obtain rfl := Option.some.inj hrun
      exact .signalCount use gate
    case waitGate =>
      obtain ⟨h, rfl⟩ := wait_eq_some hrun
      exact .waitGate use gate h

namespace Point

/-- The thread holds `can_access_count`. -/
def inside : Point → ℕ
  | update | test | waitOther | signalGate | signalCount => 1
  | _ => 0

def updated : Point → ℕ
  | statement | waitCount | update => 0
  | _ => 1

end Point

namespace Pc

def inside : Pc → ℕ
  | inUse _ _ point => point.inside
  | returned => 0

/-- What the thread contributes to the count. -/
def counted : Pc → ℕ
  | inUse _ .entry point => point.updated
  | inUse _ .exit point => 1 - point.updated
  | returned => 0

/-- The thread has taken the permit of the exit and not yet opened the entry. -/
def opening : Pc → ℕ
  | inUse _ .entry .signalGate => 1
  | _ => 0

def passed : Pc → ℕ
  | inUse _ .exit _ => 1
  | _ => 0

/-- The thread is in its first use, and has not taken a permit to open the exit. -/
def First : Pc → Prop
  | inUse use gate point => use = 0 ∧ ¬ (gate = .exit ∧ point = .signalGate)
  | returned => False

/-- The last thread to arrive, before it opens the entry. -/
def Last (pc : Pc) : Prop := pc = .inUse 0 .entry .waitOther ∨ pc = .inUse 0 .entry .signalGate

/-- The thread waits at the entry, or is about to. -/
def Arrived (pc : Pc) : Prop :=
  pc = .inUse 0 .entry .signalCount ∨ pc = .inUse 0 .entry .waitGate

end Pc

structure Closed (m : Shared) (thread : Fin n → Pc) : Prop where
  entry : m.barrier .entry = 0
  exit : m.barrier .exit + ∑ i, (thread i).opening = 1
  passed : ∀ i, (thread i).passed = 0
  last : ∀ i, (thread i).Last → m.count = n

/-- The entry is open for the whole team, the exit for nobody. -/
structure Opened (m : Shared) (thread : Fin n → Pc) : Prop where
  exit : m.barrier .exit = 0
  entry : m.barrier .entry + ∑ i, (thread i).passed = n
  arrived : ∀ i, (thread i).Arrived ∨ (thread i).passed = 1
  last : ∀ i, thread i = .inUse 0 .exit .waitOther → m.count = 0

structure Invariant (m : Shared) (thread : Fin n → Pc) : Prop where
  first : ∀ i, (thread i).First
  mutex : m.canAccessCount + ∑ i, (thread i).inside = 1
  count : m.count = ((∑ i, (thread i).counted : ℕ) : ℤ)
  phase : Closed m thread ∨ Opened m thread

section Steps

variable {m m' : Shared} {thread : Fin n → Pc} {i : Fin n} {a pc : Pc} {use : ℕ} {gate : Gate}
  {c : ℤ}

@[simp] theorem inside_afterTest : (afterTest n c gate).inside = 1 := by
  unfold afterTest
  split_ifs <;> rfl

@[simp] theorem updated_afterTest : (afterTest n c gate).updated = 1 := by
  unfold afterTest
  split_ifs <;> rfl

@[simp] theorem inside_afterGate : (afterGate uses use gate).inside = 0 := by
  unfold afterGate beginUse
  cases gate
  · rfl
  · split_ifs <;> rfl

theorem counted_afterGate :
    (afterGate uses use gate).counted = (Pc.inUse use gate .waitGate).counted := by
  unfold afterGate beginUse
  cases gate
  · rfl
  · split_ifs <;> rfl

theorem counted_afterTest : (Pc.inUse use gate (afterTest n c gate)).counted =
    (Pc.inUse use gate .signalCount).counted := by
  cases gate with
  | entry => exact updated_afterTest
  | exit => exact congrArg (1 - ·) updated_afterTest

theorem Moves.mutex (h : Moves n uses m a m' pc) :
    m'.canAccessCount + pc.inside = m.canAccessCount + a.inside := by
  cases h
  case waitCount h =>
    simp only [Pc.inside, Point.inside]
    omega
  case test => exact congrArg (m.canAccessCount + ·) inside_afterTest
  case update use gate => cases gate <;> rfl
  case waitGate => exact congrArg (m.canAccessCount + ·) inside_afterGate
  all_goals rfl

theorem Moves.count (h : Moves n uses m a m' pc) :
    m'.count + a.counted = m.count + pc.counted := by
  cases h
  case update use gate => cases gate <;> simp [Pc.counted, Point.updated, Shared.update]
  case test use gate =>
    rw [counted_afterTest]
    cases gate <;> rfl
  case waitGate => rw [counted_afterGate]
  all_goals cases ‹Gate› <;> rfl

theorem Moves.count_eq (h : Moves n uses m a m' pc) (ha : ∀ use gate, a ≠ .inUse use gate .update) :
    m'.count = m.count := by
  cases h
  case update use gate => exact absurd rfl (ha use gate)
  all_goals rfl

theorem Pc.Last.inside {pc : Pc} (h : pc.Last) : pc.inside = 1 := by
  obtain rfl | rfl := h <;> rfl

theorem Point.updated_le (point : Point) : point.updated ≤ 1 := by
  cases point <;> decide

theorem Pc.counted_le : ∀ pc : Pc, pc.counted ≤ 1
  | inUse _ .entry point => point.updated_le
  | inUse _ .exit _ => Nat.sub_le 1 _
  | returned => Nat.zero_le 1

theorem Pc.eq_waitGate (h : pc.First) (hp : pc.passed = 0) (hc : pc.counted = 1)
    (hi : pc.inside = 0) : pc = .inUse 0 .entry .waitGate := by
  cases pc with
  | returned => exact h.elim
  | inUse use gate point =>
    obtain rfl := h.1
    cases gate with
    | exit => cases hp
    | entry => cases point <;> simp_all [Pc.counted, Point.updated, Pc.inside, Point.inside]

theorem Invariant.inside_unique (I : Invariant m thread) {j : Fin n}
    (hi : (thread i).inside = 1) (hj : (thread j).inside = 1) : i = j := by
  have hmutex := I.mutex
  apply eq_of_sum_le_one (fun k => (thread k).inside) (s := Finset.univ) (by omega)
    (Finset.mem_univ i) (Finset.mem_univ j) <;> omega

theorem Closed.move (C : Closed m thread) (hb : m'.barrier = m.barrier)
    (ho : pc.opening = (thread i).opening) (hp : pc.passed = 0) (hi : pc.Last → m'.count = n)
    (hother : ∀ j ≠ i, (thread j).Last → m'.count = n) :
    Closed m' (Function.update thread i pc) where
  entry := by rw [hb, C.entry]
  exit := by rw [hb, sum_same ho, C.exit]
  passed := all_update (P := fun pc : Pc => pc.passed = 0) C.passed hp
  last j hj := by
    by_cases hji : j = i
    · rw [hji, Function.update_self] at hj
      exact hi hj
    · rw [Function.update_of_ne hji] at hj
      exact hother j hji hj

theorem Closed.signalGate (I : Invariant m thread) (C : Closed m thread)
    (hpc : thread i = .inUse 0 .entry .signalGate) :
    Opened (m.signal .entry n) (Function.update thread i (.inUse 0 .entry .signalCount)) := by
  have hcount : ∑ j, (thread j).counted = n := by
    have hn := I.count.symm.trans (C.last i (.inr hpc))
    exact_mod_cast hn
  have hcounted : ∀ j, (thread j).counted = 1 := by
    have hsum : ∑ j, (thread j).counted = ∑ _j : Fin n, 1 := by simp [hcount]
    intro j
    exact (Finset.sum_eq_sum_iff_of_le fun k _ => (thread k).counted_le).mp hsum j
      (Finset.mem_univ j)
  have harrived : ∀ j ≠ i, (thread j).Arrived := by
    intro j hji
    refine .inr (Pc.eq_waitGate (I.first j) (C.passed j) (hcounted j) ?_)
    by_contra hinside
    have hj : (thread j).inside = 1 := by
      have hle := weight_le_sum (Finset.mem_univ j) fun k => (thread k).inside
      have hmutex := I.mutex
      omega
    exact hji (I.inside_unique hj (by rw [hpc]; rfl))
  have hexit : m.barrier .exit = 0 := by
    have hle := weight_le_sum (Finset.mem_univ i) fun k => (thread k).opening
    have hi : (thread i).opening = 1 := by rw [hpc]; rfl
    have hsum := C.exit
    omega
  have hpassed : ∀ j, (Function.update thread i (.inUse 0 .entry .signalCount) j).passed = 0 :=
    all_update (P := fun pc : Pc => pc.passed = 0) C.passed rfl
  refine ⟨hexit, ?_, fun j => .inl ?_, fun j hj => ?_⟩
  · rw [Finset.sum_eq_zero fun j _ => hpassed j]
    simp only [Shared.signal, Function.update_self, C.entry]
    omega
  · by_cases hji : j = i
    · rw [hji, Function.update_self]
      exact .inl rfl
    · rw [Function.update_of_ne hji]
      exact harrived j hji
  · have hj' := hpassed j
    rw [hj] at hj'
    cases hj'

theorem Closed.step (I : Invariant m thread) (C : Closed m thread)
    (hm : Moves n uses m (thread i) m' pc) : pc.First ∧
      (Closed m' (Function.update thread i pc) ∨ Opened m' (Function.update thread i pc)) := by
  have hfirst := I.first i
  have hpassed := C.passed i
  have hcount := hm.count_eq
  have hmove : _ → _ → _ → _ → _ → Closed m' (Function.update thread i pc) := C.move
  generalize hpc : thread i = a at hm hfirst hpassed hcount hmove
  have hgate : ∀ {use gate point}, a = .inUse use gate point → use = 0 ∧ gate = .entry := by
    rintro use gate point rfl
    cases gate with
    | entry => exact ⟨hfirst.1, rfl⟩
    | exit => cases hpassed
  cases hm with
  | statement use gate =>
    obtain ⟨rfl, rfl⟩ := hgate rfl
    refine ⟨⟨rfl, by decide⟩, .inl (hmove rfl rfl rfl ?_ fun j _ => C.last j)⟩
    rintro (h | h) <;> cases h
  | waitCount use gate h =>
    obtain ⟨rfl, rfl⟩ := hgate rfl
    refine ⟨⟨rfl, by decide⟩, .inl (hmove rfl rfl rfl ?_ fun j _ => C.last j)⟩
    rintro (h | h) <;> cases h
  | update use gate =>
    obtain ⟨rfl, rfl⟩ := hgate rfl
    refine ⟨⟨rfl, by decide⟩, .inl (hmove rfl rfl rfl ?_ fun j hji hj => ?_)⟩
    · rintro (h | h) <;> cases h
    · exact absurd (I.inside_unique hj.inside (by rw [hpc]; rfl)) hji
  | test use gate =>
    obtain ⟨rfl, rfl⟩ := hgate rfl
    refine ⟨⟨rfl, by simp⟩, .inl (hmove rfl ?_ rfl ?_ fun j _ => C.last j)⟩
    · unfold afterTest
      split_ifs <;> rfl
    · intro hlast
      by_contra hne
      rw [afterTest, if_neg (by exact hne)] at hlast
      obtain h | h := hlast <;> cases h
  | waitOther use gate h =>
    obtain ⟨rfl, rfl⟩ := hgate rfl
    have hlast := C.last i (.inl hpc)
    have hsum := sum_enter (f := thread) (i := i) (w := Pc.opening)
      (b := .inUse 0 .entry .signalGate) (by rw [hpc]; rfl) rfl
    have hexit := C.exit
    have h : m.barrier .exit ≠ 0 := h
    refine ⟨⟨rfl, by decide⟩, .inl ⟨C.entry, ?_,
      all_update (P := fun pc : Pc => pc.passed = 0) C.passed rfl, fun _ _ => hlast⟩⟩
    rw [hsum]
    simp only [Gate.other, Function.update_self]
    omega
  | signalGate use gate =>
    obtain ⟨rfl, rfl⟩ := hgate rfl
    exact ⟨⟨rfl, by decide⟩, .inr (C.signalGate I hpc)⟩
  | signalCount use gate =>
    obtain ⟨rfl, rfl⟩ := hgate rfl
    refine ⟨⟨rfl, by decide⟩, .inl (hmove rfl rfl rfl ?_ fun j _ => C.last j)⟩
    rintro (h | h) <;> cases h
  | waitGate use gate h =>
    obtain ⟨rfl, rfl⟩ := hgate rfl
    exact absurd C.entry h

theorem Opened.move (O : Opened m thread) (hb : m'.barrier = m.barrier)
    (hp : pc.passed = (thread i).passed) (ha : pc.Arrived ∨ pc.passed = 1)
    (hi : pc = .inUse 0 .exit .waitOther → m'.count = 0)
    (hother : ∀ j ≠ i, thread j = .inUse 0 .exit .waitOther → m'.count = 0) :
    Opened m' (Function.update thread i pc) where
  exit := by rw [hb, O.exit]
  entry := by rw [hb, sum_same hp, O.entry]
  arrived := all_update (P := fun pc : Pc => pc.Arrived ∨ pc.passed = 1) O.arrived ha
  last j hj := by
    by_cases hji : j = i
    · rw [hji, Function.update_self] at hj
      exact hi hj
    · rw [Function.update_of_ne hji] at hj
      exact hother j hji hj

theorem Opened.entry_eq_zero (I : Invariant m thread) (O : Opened m thread) (hc : m.count = 0) :
    m.barrier .entry = 0 := by
  have hsum : ∑ j, (thread j).counted = 0 := by
    have hcount := I.count.symm.trans hc
    exact_mod_cast hcount
  -- a thread that waits at the entry would still be counted
  have hpassed : ∀ j, (thread j).passed = 1 := by
    intro j
    refine (O.arrived j).resolve_left fun harrived => ?_
    have hzero := Finset.sum_eq_zero_iff.mp hsum j (Finset.mem_univ j)
    obtain h | h := harrived <;> rw [h] at hzero <;> cases hzero
  have hentry := O.entry
  rw [Finset.sum_congr rfl fun j _ => hpassed j] at hentry
  simp only [Finset.sum_const, Finset.card_univ, Fintype.card_fin, smul_eq_mul] at hentry
  omega

theorem Opened.step (I : Invariant m thread) (O : Opened m thread)
    (hm : Moves n uses m (thread i) m' pc) :
    pc.First ∧ Opened m' (Function.update thread i pc) := by
  have hfirst := I.first i
  have harrived := O.arrived i
  have hmove : _ → _ → _ → _ → _ → Opened m' (Function.update thread i pc) := O.move
  generalize hpc : thread i = a at hm hfirst harrived hmove
  have hexit : ∀ {use gate point}, a = .inUse use gate point → point ≠ .signalCount →
      point ≠ .waitGate → use = 0 ∧ gate = .exit := by
    rintro use gate point rfl hsignal hwait
    obtain (h | h) | h := harrived
    · cases h
      exact absurd rfl hsignal
    · cases h
      exact absurd rfl hwait
    · cases gate with
      | entry => cases point <;> cases h
      | exit => exact ⟨hfirst.1, rfl⟩
  have hlast := fun j (_ : j ≠ i) => O.last j
  cases hm with
  | statement use gate =>
    obtain ⟨rfl, rfl⟩ := hexit rfl (by decide) (by decide)
    exact ⟨⟨rfl, by decide⟩, hmove rfl rfl (.inr rfl) (fun h => by cases h) hlast⟩
  | waitCount use gate h =>
    obtain ⟨rfl, rfl⟩ := hexit rfl (by decide) (by decide)
    exact ⟨⟨rfl, by decide⟩, hmove rfl rfl (.inr rfl) (fun h => by cases h) hlast⟩
  | update use gate =>
    obtain ⟨rfl, rfl⟩ := hexit rfl (by decide) (by decide)
    refine ⟨⟨rfl, by decide⟩, hmove rfl rfl (.inr rfl) (fun h => by cases h) fun j hji hj => ?_⟩
    exact absurd (I.inside_unique (by rw [hj]; rfl) (by rw [hpc]; rfl)) hji
  | test use gate =>
    obtain ⟨rfl, rfl⟩ := hexit rfl (by decide) (by decide)
    refine ⟨⟨rfl, ?_⟩, hmove rfl rfl (.inr rfl) (fun h => ?_) hlast⟩
    · unfold afterTest
      split_ifs <;> decide
    · by_contra hne
      rw [afterTest, if_neg (by exact hne)] at h
      cases h
  | waitOther use gate h =>
    obtain ⟨rfl, rfl⟩ := hexit rfl (by decide) (by decide)
    exact absurd (O.entry_eq_zero I (O.last i hpc)) h
  | signalGate use gate =>
    obtain ⟨rfl, rfl⟩ := hexit rfl (by decide) (by decide)
    exact absurd ⟨rfl, rfl⟩ hfirst.2
  | signalCount use gate =>
    obtain rfl := hfirst.1
    cases gate with
    | entry => exact ⟨⟨rfl, by decide⟩, hmove rfl rfl (.inl (.inr rfl)) (fun h => by cases h) hlast⟩
    | exit => exact ⟨⟨rfl, by decide⟩, hmove rfl rfl (.inr rfl) (fun h => by cases h) hlast⟩
  | waitGate use gate h =>
    obtain rfl := hfirst.1
    cases gate with
    | exit => exact absurd O.exit h
    | entry =>
      have hsum := sum_enter (f := thread) (i := i) (w := Pc.passed)
        (b := .inUse 0 .exit .statement) (by rw [hpc]; rfl) rfl
      have hentry := O.entry
      refine ⟨⟨rfl, by decide⟩, ⟨O.exit, ?_, ?_, fun j hj => ?_⟩⟩
      · simp only [afterGate, hsum, Function.update_self]
        omega
      · exact all_update (P := fun pc : Pc => pc.Arrived ∨ pc.passed = 1) O.arrived (.inr rfl)
      · by_cases hji : j = i
        · rw [hji, Function.update_self] at hj
          cases hj
        · rw [Function.update_of_ne hji] at hj
          exact O.last j hj

theorem Invariant.step (I : Invariant m thread) (hm : Moves n uses m (thread i) m' pc) :
    Invariant m' (Function.update thread i pc) := by
  have hphase : pc.First ∧
      (Closed m' (Function.update thread i pc) ∨ Opened m' (Function.update thread i pc)) := by
    obtain C | O := I.phase
    · exact C.step I hm
    · exact (O.step I hm).imp_right .inr
  refine ⟨all_update I.first hphase.1, ?_, ?_, hphase.2⟩
  · have hsum := sum_move thread i Pc.inside pc
    have hmutex := hm.mutex
    have h := I.mutex
    omega
  · have hsum := sum_move thread i Pc.counted pc
    have hcount := hm.count
    have h := I.count
    omega

end Steps

/-- How many lines the thread has left in a use. -/
def Point.remaining : Point → ℕ
  | statement => 7
  | waitCount => 6
  | update => 5
  | test => 4
  | waitOther => 3
  | signalGate => 2
  | signalCount => 1
  | waitGate => 0

def Pc.remaining : Pc → ℕ
  | inUse _ .entry point => 8 + point.remaining
  | inUse _ .exit point => point.remaining
  | returned => 0

theorem Moves.remaining {m m' : Shared} {a pc : Pc} (h : Moves n uses m a m' pc) (ha : a.First)
    (hpc : pc.First) : pc.remaining < a.remaining := by
  cases h
  case test use gate =>
    unfold afterTest
    cases gate <;> split_ifs <;> simp [Pc.remaining, Point.remaining]
  case waitGate use gate h =>
    obtain rfl := ha.1
    cases gate with
    | entry => simp [afterGate, Pc.remaining, Point.remaining]
    | exit =>
      unfold afterGate beginUse at hpc
      split_ifs at hpc
      · exact absurd hpc.1 (by decide)
      · exact hpc.elim
  all_goals cases ‹Gate› <;> simp [Pc.remaining, Point.remaining]

namespace Pc.First

variable {pc : Pc} {use : ℕ}

end Pc.First

section Runs

variable {s t : Run n} {i : Fin n}

theorem moves_of_step (h : (main n uses).system.step s i = some t) :
    ∃ pc, Moves n uses s.memory (s.thread i) t.memory pc ∧
      t.thread = Function.update s.thread i pc := by
  obtain ⟨run, r, hnext, hrun, rfl⟩ := access_of_step h
  exact ⟨r.2, moves_of_access hnext hrun, rfl⟩

theorem invariant_start (hu : 1 ≤ uses) :
    Invariant (main n uses).memory (main n uses).start := by
  have hbegin : beginUse uses 0 = .inUse 0 .entry .statement := if_pos hu
  have hstart : (main n uses).start = fun _ : Fin n => .inUse 0 .entry .statement :=
    funext fun _ => hbegin
  have hsum : ∀ w : Pc → ℕ, w (.inUse 0 .entry .statement) = 0 →
      ∑ _i : Fin n, w (.inUse 0 .entry .statement) = 0 :=
    fun w hw => Finset.sum_eq_zero fun _ _ => hw
  rw [hstart]
  refine ⟨fun _ => ⟨rfl, by decide⟩, ?_, ?_, .inl ⟨rfl, ?_, fun _ => rfl, fun _ h => ?_⟩⟩
  · rw [hsum Pc.inside rfl]
    rfl
  · rw [hsum Pc.counted rfl]
    rfl
  · rw [hsum Pc.opening rfl]
    rfl
  · obtain h | h := h <;> cases h

theorem reachable_invariant (hu : 1 ≤ uses) (h : (main n uses).system.Reachable s) :
    Invariant s.memory s.thread := by
  apply System.Reachable.invariant (I := fun s : Run n => Invariant s.memory s.thread)
    (invariant_start hu) _ h
  intro s i t I ht
  obtain ⟨pc, hm, hthread⟩ := moves_of_step ht
  rw [hthread]
  exact I.step hm

theorem Invariant.not_returned {m : Shared} {thread : Fin n → Pc} (I : Invariant m thread)
    (i : Fin n) : thread i ≠ .returned := by
  intro h
  have hfirst := I.first i
  rw [h] at hfirst
  exact hfirst

theorem exists_deadlock (hu : 1 ≤ uses) (h : (main n uses).system.Reachable s) :
    ∃ t, (main n uses).system.Path s t ∧ (main n uses).system.Stuck t ∧
      ∀ i, t.thread i ≠ .returned := by
  have hlower : ∀ (s : Run n) (i : Fin n) (t : Run n), (main n uses).system.Reachable s →
      (main n uses).system.step s i = some t →
      ∑ j, (t.thread j).remaining < ∑ j, (s.thread j).remaining := by
    intro s i t hs ht
    obtain ⟨pc, hm, hthread⟩ := moves_of_step ht
    have hfirst := (reachable_invariant hu (hs.step ht)).first i
    rw [hthread, Function.update_self] at hfirst
    have hlt := hm.remaining ((reachable_invariant hu hs).first i) hfirst
    have hsum := sum_move s.thread i Pc.remaining pc
    rw [← hthread] at hsum
    omega
  obtain ⟨t, ht, hstuck⟩ := System.exists_stuck _ hlower h
  exact ⟨t, ht, hstuck, (reachable_invariant hu (h.path ht)).not_returned⟩

theorem correct_zero : Correct n 0 := by
  intro s h
  have hall : ∀ i, s.thread i = .returned := by
    apply System.Reachable.invariant (I := fun s : Run n => ∀ i, s.thread i = .returned) _ _ h
    · exact fun _ => rfl
    · intro s i t hs ht
      obtain ⟨pc, hm, -⟩ := moves_of_step ht
      rw [hs i] at hm
      cases hm
  refine ⟨⟨fun use i j hi => ?_, fun use i j hi => ?_⟩, fun _ => hall⟩
  · rw [hall i] at hi
    exact absurd hi (Nat.not_lt_zero _)
  · rw [hall i] at hi
    exact absurd hi (Nat.not_lt_zero _)

end Runs

/-- The barrier is correct only for a team that never uses it: the statements are ordered, but the
last thread to leave blocks the team in the first use. -/
theorem correct_iff_unused (n uses : ℕ) (hn : 1 ≤ n) : Correct n uses ↔ uses = 0 := by
  constructor
  · intro h
    by_contra hu
    obtain ⟨s, hs, hstuck, hret⟩ := exists_deadlock (n := n) (Nat.pos_of_ne_zero hu)
      System.Reachable.start
    exact hret ⟨0, hn⟩ ((h s hs).2 hstuck ⟨0, hn⟩)
  · rintro rfl
    exact correct_zero

theorem correct_iff_unused_pair : Correct 2 3 ↔ 3 = 0 := correct_iff_unused 2 3 (by decide)

/-- Both threads pass the entry; thread 1 leaves last. -/
def pairRun : List (Fin 2) :=
  let first : Fin 2 := ⟨0, Nat.two_pos⟩
  let last : Fin 2 := ⟨1, Nat.one_lt_two⟩
  List.replicate 5 first ++ List.replicate 8 last ++ List.replicate 6 first ++
    List.replicate 4 last

/-- Thread 1 holds `can_access_count` and waits for a permit of the entry. -/
theorem not_correct_pair : ¬ Correct 2 1 := by
  obtain ⟨s, hs⟩ : ∃ s, (main 2 1).system.run pairRun = some s := ⟨_, rfl⟩
  have hr := System.reachable_run hs
  cases hs
  intro h
  have hstuck := (h _ hr).2 fun i => by fin_cases i <;> rfl
  exact absurd (hstuck 1) (by decide)

end Concurrente.SemBarrierReusable
