import Concurrente.Monitor

/-!
# mist_cond_var

`mistery` is a barrier for `max` calls.  Its wait is not in a loop, so that a thread takes
every wake-up for the end of its generation.
-/

namespace Concurrente.MistCondVar

open Monitor

variable {ι : Type*}

/-- `mist_t`.  `generation` counts the resets of the counter, and `made` the calls of every
generation. -/
structure Mist where
  counter : ℕ
  generation : ℕ
  made : ℕ → ℕ

/-- Where a thread is in `mistery`.  From the increment on it carries the generation of its
call; after it has returned it may call again. -/
inductive Pc where
  | idle
  | count
  | test (generation : ℕ)
  | wait (generation : ℕ)
  | reset (generation : ℕ)
  | broadcast (generation : ℕ)
  | unlock (generation : ℕ)
  | returned (generation : ℕ)

namespace Mist

variable (mist : Mist)

/-- `++mist->counter` of an `unsigned int`. -/
def count : Mist × Pc :=
  ({ mist with
    counter := (mist.counter + 1) % 2 ^ 32
    made := Function.update mist.made mist.generation (mist.made mist.generation + 1) },
    .test mist.generation)

def test (max generation : ℕ) : Mist × Pc :=
  (mist, if mist.counter < max then .wait generation else .reset generation)

def reset (generation : ℕ) : Mist × Pc :=
  ({ mist with counter := 0, generation := mist.generation + 1 }, .broadcast generation)

end Mist

def mistery (max : ℕ) : Pc → Instr Pc Mist
  | .idle => .lock .count
  | .count => .access Mist.count
  | .test generation => .access fun mist => mist.test max generation
  | .wait generation => .wait (.unlock generation)
  | .reset generation => .access fun mist => mist.reset generation
  | .broadcast generation => .broadcast (.unlock generation)
  | .unlock generation => .unlock (.returned generation)
  | .returned _ => .lock .count

/-- `mist_init`, and threads that call `mistery` any number of times. -/
def code (ι : Type*) (max : ℕ) : Code ι Pc Mist where
  memory := ⟨0, 0, fun _ => 0⟩
  start := fun _ => .idle
  next := fun _ => mistery max

abbrev Run (ι : Type*) := State ι Pc Mist

/-- The counter is below `max` when the mutex is free. -/
def CounterBelow (max : ℕ) (s : Run ι) : Prop := s.locked = false → s.memory.counter < max

/-- The generation of every call that has returned has `max` calls. -/
def ReturnsFull (max : ℕ) (s : Run ι) : Prop :=
  ∀ i generation, s.thread i = .returned generation → max ≤ s.memory.made generation

/-- A woken thread is about to get the mutex while the calls of its generation are still
counted. -/
def Early (s : Run ι) : Action ι → Prop
  | .move i => s.status i = .woken ∧ s.thread i = .unlock s.memory.generation
  | .wake _ => False

/-- Nobody has called the thread that wakes up. -/
def Spurious : Action ι → Prop
  | .move _ => False
  | .wake _ => True

namespace Pc

def Inside : Pc → Prop
  | idle | returned _ => False
  | _ => True

def Of (generation : ℕ) : Pc → Prop
  | idle | count => False
  | test g | wait g | reset g | broadcast g | unlock g | returned g => g = generation

def Knows (max : ℕ) (mist : Mist) : Pc → Prop
  | idle | returned _ => True
  | count | unlock _ => mist.counter < max
  | test g => g = mist.generation ∧ mist.counter ≤ max
  | wait g => g = mist.generation ∧ mist.counter < max
  | reset g => g = mist.generation ∧ mist.counter = max
  | broadcast g => g + 1 = mist.generation ∧ mist.counter = 0

end Pc

/-- The calls of the past generations, of the current one and of those to come. -/
structure Counted (max : ℕ) (mist : Mist) : Prop where
  past : ∀ g < mist.generation, max ≤ mist.made g
  current : mist.made mist.generation = mist.counter
  future : ∀ g > mist.generation, mist.made g = 0

structure Invariant (max : ℕ) (s : Run ι) : Prop where
  free : s.locked = false → s.memory.counter < max
  knows : ∀ i, s.status i = .running → (s.thread i).Knows max s.memory
  waits : ∀ i, s.status i ≠ .running → ∃ g, s.thread i = .unlock g
  counted : Counted max s.memory
  called : ∀ i g, (s.thread i).Of g → g ≤ s.memory.generation ∧ 1 ≤ s.memory.made g

section Lines

variable {max : ℕ} {pc next : Pc} {run : Mist → Mist × Pc}

theorem lock_cases (h : mistery max pc = .lock next) : ¬ pc.Inside ∧ next = .count := by
  cases pc <;> cases h
  · exact ⟨id, rfl⟩
  · exact ⟨id, rfl⟩

theorem unlock_cases (h : mistery max pc = .unlock next) :
    ∃ g, pc = .unlock g ∧ next = .returned g := by
  cases pc <;> cases h
  exact ⟨_, rfl, rfl⟩

theorem wait_cases (h : mistery max pc = .wait next) : ∃ g, pc = .wait g ∧ next = .unlock g := by
  cases pc <;> cases h
  exact ⟨_, rfl, rfl⟩

theorem broadcast_cases (h : mistery max pc = .broadcast next) :
    ∃ g, pc = .broadcast g ∧ next = .unlock g := by
  cases pc <;> cases h
  exact ⟨_, rfl, rfl⟩

theorem access_cases (h : mistery max pc = .access run) : (pc = .count ∧ run = Mist.count) ∨
    (∃ g, pc = .test g ∧ run = fun mist => mist.test max g) ∨
    ∃ g, pc = .reset g ∧ run = fun mist => mist.reset g := by
  cases pc <;> cases h
  · exact .inl ⟨rfl, rfl⟩
  · exact .inr (.inl ⟨_, rfl, rfl⟩)
  · exact .inr (.inr ⟨_, rfl, rfl⟩)

theorem access_inside (h : mistery max pc = .access run) : pc.Inside := by
  obtain ⟨rfl, -⟩ | ⟨g, rfl, -⟩ | ⟨g, rfl, -⟩ := access_cases h <;> trivial

theorem guarded (ι : Type*) (max : ℕ) : Guarded (code ι max) Pc.Inside where
  start _ := id
  unlock _ a n h := by
    obtain ⟨g, rfl, rfl⟩ := unlock_cases h
    exact ⟨trivial, id⟩
  wait _ a n h := by
    obtain ⟨g, rfl, rfl⟩ := wait_cases h
    trivial
  broadcast _ a n h _ := by
    obtain ⟨g, rfl, rfl⟩ := broadcast_cases h
    trivial
  access _ a run g h _ := access_inside h

theorem Pc.knows_of_not_inside {mist : Mist} (h : ¬ pc.Inside) : pc.Knows max mist := by
  cases pc with
  | idle => trivial
  | returned g => trivial
  | _ => exact absurd trivial h

end Lines

section Steps

variable [DecidableEq ι] {max : ℕ} {s t : Run ι} {i : ι} {pc : Pc}

omit [DecidableEq ι] in
theorem Invariant.knows_at (I : Invariant max s) (hr : s.status i = .running)
    (hpc : s.thread i = pc) : pc.Knows max s.memory := by
  have hk := I.knows i hr
  rwa [hpc] at hk

theorem Invariant.move (I : Invariant max s) (hthread : t.thread = Function.update s.thread i pc)
    (hmemory : t.memory = s.memory)
    (hstatus : ∀ j ≠ i, t.status j = .running ↔ s.status j = .running)
    (hfree : t.locked = false → s.memory.counter < max)
    (hknows : t.status i = .running → pc.Knows max s.memory)
    (hwaits : t.status i ≠ .running → ∃ g, pc = .unlock g)
    (hof : ∀ g, pc.Of g → (s.thread i).Of g) : Invariant max t where
  free h := hmemory ▸ hfree h
  knows j hj := by
    rw [hthread, hmemory]
    by_cases hji : j = i
    · subst hji
      rw [Function.update_self]
      exact hknows hj
    · rw [Function.update_of_ne hji]
      exact I.knows j ((hstatus j hji).mp hj)
  waits j hj := by
    rw [hthread]
    by_cases hji : j = i
    · subst hji
      rw [Function.update_self]
      exact hwaits hj
    · rw [Function.update_of_ne hji]
      exact I.waits j fun h => hj ((hstatus j hji).mpr h)
  counted := hmemory ▸ I.counted
  called j g hj := by
    rw [hmemory]
    rw [hthread] at hj
    by_cases hji : j = i
    · subst hji
      rw [Function.update_self] at hj
      exact I.called j g (hof g hj)
    · rw [Function.update_of_ne hji] at hj
      exact I.called j g hj

theorem Invariant.access (I : Invariant max s) (E : Exclusive Pc.Inside s)
    (hi : Holding Pc.Inside s i) {r : Mist × Pc} (hknows : r.2.Knows max r.1)
    (hcounted : Counted max r.1) (hgeneration : s.memory.generation ≤ r.1.generation)
    (hmade : ∀ g, s.memory.made g ≤ r.1.made g)
    (hof : ∀ g, r.2.Of g → g ≤ r.1.generation ∧ 1 ≤ r.1.made g) :
    Invariant max (s.access i r) where
  free h := by
    have hl := E.locked i hi
    rw [State.access_locked, hl] at h
    cases h
  knows j hj := by
    simp only [State.access_thread, State.access_memory]
    by_cases hji : j = i
    · rw [hji, Function.update_self]
      exact hknows
    · rw [Function.update_of_ne hji]
      exact Pc.knows_of_not_inside fun hin => hji (E.unique j i ⟨hj, hin⟩ hi)
  waits j hj := by
    have hji : j ≠ i := by
      rintro rfl
      exact hj hi.1
    rw [State.access_thread, Function.update_of_ne hji]
    exact I.waits j hj
  counted := hcounted
  called j g hj := by
    simp only [State.access_thread, State.access_memory] at hj ⊢
    by_cases hji : j = i
    · rw [hji, Function.update_self] at hj
      exact hof g hj
    · rw [Function.update_of_ne hji] at hj
      obtain ⟨hle, hpos⟩ := I.called j g hj
      exact ⟨hle.trans hgeneration, hpos.trans (hmade g)⟩

theorem Invariant.count (I : Invariant max s) (E : Exclusive Pc.Inside s) (hmax : max < 2 ^ 32)
    (hr : s.status i = .running) (hpc : s.thread i = .count) :
    Invariant max (s.access i s.memory.count) := by
  have hlt : s.memory.counter < max := I.knows_at hr hpc
  have hcounter : (s.memory.counter + 1) % 2 ^ 32 = s.memory.counter + 1 :=
    Nat.mod_eq_of_lt (by omega)
  have hmade : s.memory.count.1.made s.memory.generation =
      s.memory.made s.memory.generation + 1 := Function.update_self ..
  have hother : ∀ g ≠ s.memory.generation, s.memory.count.1.made g = s.memory.made g :=
    fun g hg => Function.update_of_ne hg ..
  refine I.access E ⟨hr, hpc ▸ trivial⟩ ⟨rfl, ?_⟩ ⟨fun g hg => ?_, ?_, fun g hg => ?_⟩ le_rfl
    (fun g => ?_) fun g hg => ?_
  · exact hcounter.trans_le hlt
  · rw [hother g hg.ne]
    exact I.counted.past g hg
  · exact hmade.trans ((congrArg (· + 1) I.counted.current).trans hcounter.symm)
  · rw [hother g hg.ne']
    exact I.counted.future g hg
  · by_cases hgen : g = s.memory.generation
    · rw [hgen, hmade]
      exact Nat.le_succ _
    · rw [hother g hgen]
  · obtain rfl : s.memory.generation = g := hg
    exact ⟨le_rfl, (Nat.le_add_left 1 _).trans_eq hmade.symm⟩

theorem Invariant.reset (I : Invariant max s) (E : Exclusive Pc.Inside s) {g : ℕ}
    (hr : s.status i = .running) (hpc : s.thread i = .reset g) :
    Invariant max (s.access i (s.memory.reset g)) := by
  obtain ⟨rfl, hcounter⟩ : g = s.memory.generation ∧ s.memory.counter = max := I.knows_at hr hpc
  have hcalled := I.called i s.memory.generation (by rw [hpc]; rfl)
  refine I.access E ⟨hr, hpc ▸ trivial⟩ ⟨rfl, rfl⟩ ⟨fun g hg => ?_, ?_, fun g hg => ?_⟩
    (Nat.le_succ _) (fun g => le_rfl) fun g hg => ?_
  · obtain hlt | rfl := Nat.lt_succ_iff_lt_or_eq.mp hg
    · exact I.counted.past g hlt
    · exact (I.counted.current.trans hcounter).ge
  · exact I.counted.future _ (Nat.lt_succ_self _)
  · exact I.counted.future g (Nat.lt_of_succ_lt hg)
  · obtain rfl : s.memory.generation = g := hg
    exact ⟨Nat.le_succ _, hcalled.2⟩

theorem Invariant.test (I : Invariant max s) (E : Exclusive Pc.Inside s) {g : ℕ}
    (hr : s.status i = .running) (hpc : s.thread i = .test g) :
    Invariant max (s.access i (s.memory.test max g)) := by
  obtain ⟨rfl, hle⟩ : g = s.memory.generation ∧ s.memory.counter ≤ max := I.knows_at hr hpc
  have hcalled := I.called i s.memory.generation (by rw [hpc]; rfl)
  have hof : ∀ g, s.memory.generation = g → g ≤ s.memory.generation ∧ 1 ≤ s.memory.made g := by
    rintro g rfl
    exact hcalled
  by_cases hlt : s.memory.counter < max
  · rw [Mist.test, if_pos hlt]
    exact I.access E ⟨hr, hpc ▸ trivial⟩ ⟨rfl, hlt⟩ I.counted le_rfl (fun _ => le_rfl) hof
  · rw [Mist.test, if_neg hlt]
    exact I.access E ⟨hr, hpc ▸ trivial⟩ ⟨rfl, le_antisymm hle (Nat.le_of_not_lt hlt)⟩ I.counted
      le_rfl (fun _ => le_rfl) hof

theorem Invariant.step {a : Action ι} (I : Invariant max s) (E : Exclusive Pc.Inside s)
    (hmax : 1 ≤ max) (hmax' : max < 2 ^ 32) (h : Effect (code ι max) s a t) :
    Invariant max t := by
  cases h with
  | lock i next running hnext free =>
    obtain ⟨-, rfl⟩ := lock_cases hnext
    apply I.move (t := s.lock i .count) (i := i) rfl rfl (fun _ _ => Iff.rfl)
    · exact fun h => absurd h (by simp)
    · exact fun _ => I.free free
    · exact fun h => absurd running h
    · exact fun _ h => h.elim
  | unlock i next running hnext =>
    obtain ⟨g, hpc, rfl⟩ := unlock_cases hnext
    have hk := I.knows_at running hpc
    apply I.move (t := s.unlock i (.returned g)) (i := i) rfl rfl (fun _ _ => Iff.rfl)
    · exact fun _ => hk
    · exact fun _ => trivial
    · exact fun h => absurd running h
    · intro g' hg'
      rw [hpc]
      exact hg'
  | wait i next running hnext =>
    obtain ⟨g, hpc, rfl⟩ := wait_cases hnext
    have hk := I.knows_at running hpc
    apply I.move (t := s.wait i (.unlock g)) (i := i) rfl rfl
    · intro j hji
      rw [State.wait_status, Function.update_of_ne hji]
    · exact fun _ => hk.2
    · exact fun _ => hk.2
    · exact fun _ => ⟨g, rfl⟩
    · intro g' hg'
      rw [hpc]
      exact hg'
  | broadcast i next running hnext =>
    obtain ⟨g, hpc, rfl⟩ := broadcast_cases hnext
    have hk := I.knows_at running hpc
    have hcounter : s.memory.counter < max := hk.2.trans_lt hmax
    apply I.move (t := s.broadcast i (.unlock g)) (i := i) rfl rfl
    · intro j _
      rw [State.broadcast_status]
      exact ⟨Status.called_eq_running, fun h => by rw [h]; rfl⟩
    · exact fun _ => hcounter
    · exact fun _ => hcounter
    · exact fun _ => ⟨g, rfl⟩
    · intro g' hg'
      rw [hpc]
      exact hg'
  | access i run running hnext =>
    obtain ⟨hpc, rfl⟩ | ⟨g, hpc, rfl⟩ | ⟨g, hpc, rfl⟩ := access_cases hnext
    · exact I.count E hmax' running hpc
    · exact I.test E running hpc
    · exact I.reset E running hpc
  | relock i woken free =>
    have hwaits := I.waits i (by rw [woken]; decide)
    have hfree := I.free free
    apply I.move (t := s.relock i) (Function.update_eq_self i s.thread).symm rfl
    · intro j hji
      rw [State.relock_status, Function.update_of_ne hji]
    · exact fun _ => hfree
    · intro _
      obtain ⟨g, hg⟩ := hwaits
      rw [hg]
      exact hfree
    · exact fun _ => hwaits
    · exact fun _ h => h
  | wake i waiting =>
    have hwaits := I.waits i (by rw [waiting]; decide)
    apply I.move (t := s.wake i) (Function.update_eq_self i s.thread).symm rfl
    · intro j hji
      rw [State.wake_status, Function.update_of_ne hji]
    · exact I.free
    · intro h
      rw [State.wake_status, Function.update_self] at h
      cases h
    · exact fun _ => hwaits
    · exact fun _ h => h

end Steps

end Concurrente.MistCondVar
