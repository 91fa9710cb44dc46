import Concurrente.Transition

/-!
# Threads with a mutex and a condition variable

A thread that waits at the condition variable releases the mutex.  A broadcast or a spurious
wake-up lets it compete for the mutex again, and it goes on when it has it.
-/

namespace Concurrente.Monitor

variable {ι σ γ : Type*}

/-- What a thread does next; after a wait it goes on at `next` with the mutex. -/
inductive Instr (σ γ : Type*) where
  | lock (next : σ)
  | unlock (next : σ)
  | wait (next : σ)
  | broadcast (next : σ)
  | access (run : γ → γ × σ)
  | finished

/-- The shared memory at the start and what the threads run. -/
structure Code (ι σ γ : Type*) where
  memory : γ
  start : ι → σ
  next : ι → σ → Instr σ γ

inductive Status where
  | running
  | waiting
  | woken
  deriving DecidableEq

structure State (ι σ γ : Type*) where
  memory : γ
  locked : Bool
  thread : ι → σ
  status : ι → Status

/-- A thread moves, or it is woken although nobody has called it. -/
inductive Action (ι : Type*) where
  | move (i : ι)
  | wake (i : ι)

/-- A broadcast wakes the threads that wait. -/
def Status.called : Status → Status
  | running => running
  | waiting => woken
  | woken => woken

theorem Status.called_eq_running {status : Status} (h : status.called = running) :
    status = running := by
  cases status with
  | running => rfl
  | waiting => cases h
  | woken => cases h

section Steps

variable [DecidableEq ι]

namespace State

variable (s : State ι σ γ) (i : ι)

def lock (next : σ) : State ι σ γ :=
  { s with locked := true, thread := Function.update s.thread i next }

def unlock (next : σ) : State ι σ γ :=
  { s with locked := false, thread := Function.update s.thread i next }

def wait (next : σ) : State ι σ γ :=
  { s with
    locked := false
    thread := Function.update s.thread i next
    status := Function.update s.status i .waiting }

def broadcast (next : σ) : State ι σ γ :=
  { s with
    thread := Function.update s.thread i next
    status := fun j => (s.status j).called }

def access (r : γ × σ) : State ι σ γ :=
  { s with memory := r.1, thread := Function.update s.thread i r.2 }

/-- A woken thread gets the mutex. -/
def relock : State ι σ γ :=
  { s with locked := true, status := Function.update s.status i .running }

def wake : State ι σ γ := { s with status := Function.update s.status i .woken }

variable (next : σ) (r : γ × σ)

@[simp] theorem lock_memory : (s.lock i next).memory = s.memory := rfl

@[simp] theorem lock_locked : (s.lock i next).locked = true := rfl

@[simp] theorem lock_thread : (s.lock i next).thread = Function.update s.thread i next := rfl

@[simp] theorem lock_status : (s.lock i next).status = s.status := rfl

@[simp] theorem unlock_memory : (s.unlock i next).memory = s.memory := rfl

@[simp] theorem unlock_locked : (s.unlock i next).locked = false := rfl

@[simp] theorem unlock_thread : (s.unlock i next).thread = Function.update s.thread i next := rfl

@[simp] theorem unlock_status : (s.unlock i next).status = s.status := rfl

@[simp] theorem wait_memory : (s.wait i next).memory = s.memory := rfl

@[simp] theorem wait_locked : (s.wait i next).locked = false := rfl

@[simp] theorem wait_thread : (s.wait i next).thread = Function.update s.thread i next := rfl

@[simp] theorem wait_status :
    (s.wait i next).status = Function.update s.status i .waiting := rfl

@[simp] theorem broadcast_memory : (s.broadcast i next).memory = s.memory := rfl

@[simp] theorem broadcast_locked : (s.broadcast i next).locked = s.locked := rfl

@[simp] theorem broadcast_thread :
    (s.broadcast i next).thread = Function.update s.thread i next := rfl

@[simp] theorem broadcast_status (j : ι) :
    (s.broadcast i next).status j = (s.status j).called := rfl

@[simp] theorem access_memory : (s.access i r).memory = r.1 := rfl

@[simp] theorem access_locked : (s.access i r).locked = s.locked := rfl

@[simp] theorem access_thread : (s.access i r).thread = Function.update s.thread i r.2 := rfl

@[simp] theorem access_status : (s.access i r).status = s.status := rfl

@[simp] theorem relock_memory : (s.relock i).memory = s.memory := rfl

@[simp] theorem relock_locked : (s.relock i).locked = true := rfl

@[simp] theorem relock_thread : (s.relock i).thread = s.thread := rfl

@[simp] theorem relock_status :
    (s.relock i).status = Function.update s.status i .running := rfl

@[simp] theorem wake_memory : (s.wake i).memory = s.memory := rfl

@[simp] theorem wake_locked : (s.wake i).locked = s.locked := rfl

@[simp] theorem wake_thread : (s.wake i).thread = s.thread := rfl

@[simp] theorem wake_status : (s.wake i).status = Function.update s.status i .woken := rfl

end State

/-- The next step of a running thread. -/
def Code.move (p : Code ι σ γ) (s : State ι σ γ) (i : ι) : Option (State ι σ γ) :=
  match p.next i (s.thread i) with
  | .lock next => if s.locked then none else some (s.lock i next)
  | .unlock next => some (s.unlock i next)
  | .wait next => some (s.wait i next)
  | .broadcast next => some (s.broadcast i next)
  | .access run => some (s.access i (run s.memory))
  | .finished => none

def Code.system (p : Code ι σ γ) : System (State ι σ γ) (Action ι) where
  start := ⟨p.memory, false, p.start, fun _ => .running⟩
  step s a :=
    match a with
    | .move i =>
      match s.status i with
      | .running => p.move s i
      | .waiting => none
      | .woken => if s.locked then none else some (s.relock i)
    | .wake i => if s.status i = .waiting then some (s.wake i) else none

variable {p : Code ι σ γ} {s t : State ι σ γ} {a : Action ι} {i : ι}

/-- Everything that a step can do. -/
inductive Effect (p : Code ι σ γ) (s : State ι σ γ) : Action ι → State ι σ γ → Prop
  | lock (i : ι) (next : σ) (running : s.status i = .running)
    (hnext : p.next i (s.thread i) = .lock next) (free : s.locked = false) :
    Effect p s (.move i) (s.lock i next)
  | unlock (i : ι) (next : σ) (running : s.status i = .running)
    (hnext : p.next i (s.thread i) = .unlock next) : Effect p s (.move i) (s.unlock i next)
  | wait (i : ι) (next : σ) (running : s.status i = .running)
    (hnext : p.next i (s.thread i) = .wait next) : Effect p s (.move i) (s.wait i next)
  | broadcast (i : ι) (next : σ) (running : s.status i = .running)
    (hnext : p.next i (s.thread i) = .broadcast next) : Effect p s (.move i) (s.broadcast i next)
  | access (i : ι) (run : γ → γ × σ) (running : s.status i = .running)
    (hnext : p.next i (s.thread i) = .access run) :
    Effect p s (.move i) (s.access i (run s.memory))
  | relock (i : ι) (woken : s.status i = .woken) (free : s.locked = false) :
    Effect p s (.move i) (s.relock i)
  | wake (i : ι) (waiting : s.status i = .waiting) : Effect p s (.wake i) (s.wake i)

theorem effect_of_move (hr : s.status i = .running) (h : p.move s i = some t) :
    Effect p s (.move i) t := by
  unfold Code.move at h
  cases hn : p.next i (s.thread i) with
  | lock next =>
    simp only [hn] at h
    split_ifs at h with hl
    obtain rfl := Option.some.inj h
    exact .lock i next hr hn (Bool.not_eq_true _ ▸ hl)
  | unlock next =>
    simp only [hn] at h
    obtain rfl := Option.some.inj h
    exact .unlock i next hr hn
  | wait next =>
    simp only [hn] at h
    obtain rfl := Option.some.inj h
    exact .wait i next hr hn
  | broadcast next =>
    simp only [hn] at h
    obtain rfl := Option.some.inj h
    exact .broadcast i next hr hn
  | access run =>
    simp only [hn] at h
    obtain rfl := Option.some.inj h
    exact .access i run hr hn
  | finished =>
    simp only [hn] at h
    cases h

theorem effect_of_step (h : p.system.step s a = some t) : Effect p s a t := by
  cases a with
  | wake i =>
    simp only [Code.system] at h
    split_ifs at h with hw
    obtain rfl := Option.some.inj h
    exact .wake i hw
  | move i =>
    simp only [Code.system] at h
    cases hs : s.status i with
    | running =>
      simp only [hs] at h
      exact effect_of_move hs h
    | waiting =>
      simp only [hs] at h
      cases h
    | woken =>
      simp only [hs] at h
      split_ifs at h with hl
      obtain rfl := Option.some.inj h
      exact .relock i hs (Bool.not_eq_true _ ▸ hl)

/-- `holds` tells where a thread has the mutex. -/
structure Guarded (p : Code ι σ γ) (holds : σ → Prop) : Prop where
  start : ∀ i, ¬ holds (p.start i)
  unlock : ∀ i a n, p.next i a = .unlock n → holds a ∧ ¬ holds n
  wait : ∀ i a n, p.next i a = .wait n → holds a
  broadcast : ∀ i a n, p.next i a = .broadcast n → holds n → holds a
  access : ∀ i a run g, p.next i a = .access run → holds (run g).2 → holds a

/-- The thread runs with the mutex. -/
def Holding (holds : σ → Prop) (s : State ι σ γ) (i : ι) : Prop :=
  s.status i = .running ∧ holds (s.thread i)

/-- Only one thread has the mutex, and only when it is locked. -/
structure Exclusive (holds : σ → Prop) (s : State ι σ γ) : Prop where
  locked : ∀ i, Holding holds s i → s.locked = true
  unique : ∀ i j, Holding holds s i → Holding holds s j → i = j

variable {holds : σ → Prop}

omit [DecidableEq ι] in
/-- Nobody but the thread that locks has the mutex afterwards. -/
theorem Exclusive.of_free (E : Exclusive holds s) (hfree : s.locked = false)
    (hlocked : t.locked = true) (h : ∀ j ≠ i, Holding holds t j → Holding holds s j) :
    Exclusive holds t := by
  have hi : ∀ j, Holding holds t j → j = i := by
    intro j hj
    by_contra hji
    have hl := E.locked j (h j hji hj)
    rw [hfree] at hl
    cases hl
  exact ⟨fun _ _ => hlocked, fun j k hj hk => (hi j hj).trans (hi k hk).symm⟩

omit [DecidableEq ι] in
/-- Nobody has the mutex after its owner has released it. -/
theorem Exclusive.release (E : Exclusive holds s) (hown : Holding holds s i)
    (hi : ¬ Holding holds t i) (h : ∀ j ≠ i, Holding holds t j → Holding holds s j) :
    Exclusive holds t := by
  have hnone : ∀ j, ¬ Holding holds t j := by
    intro j hj
    by_cases hji : j = i
    · exact hi (hji ▸ hj)
    · exact hji (E.unique j i (h j hji hj) hown)
  exact ⟨fun j hj => absurd hj (hnone j), fun j _ hj => absurd hj (hnone j)⟩

omit [DecidableEq ι] in
theorem Exclusive.mono (E : Exclusive holds s) (hl : t.locked = s.locked)
    (h : ∀ j, Holding holds t j → Holding holds s j) : Exclusive holds t :=
  ⟨fun j hj => hl ▸ E.locked j (h j hj), fun j k hj hk => E.unique j k (h j hj) (h k hk)⟩

theorem Exclusive.step (G : Guarded p holds) (E : Exclusive holds s) (h : Effect p s a t) :
    Exclusive holds t := by
  cases h with
  | lock i next running hnext free =>
    refine E.of_free (i := i) free rfl fun j hji hj => ?_
    simpa only [Holding, State.lock_thread, State.lock_status, Function.update_of_ne hji] using hj
  | unlock i next running hnext =>
    obtain ⟨hold, hnew⟩ := G.unlock i _ next hnext
    refine E.release (i := i) ⟨running, hold⟩ (fun hi => ?_) fun j hji hj => ?_
    · simp only [Holding, State.unlock_thread, Function.update_self] at hi
      exact hnew hi.2
    · simpa only [Holding, State.unlock_thread, State.unlock_status,
        Function.update_of_ne hji] using hj
  | wait i next running hnext =>
    refine E.release (i := i) ⟨running, G.wait i _ next hnext⟩ (fun hi => ?_) fun j hji hj => ?_
    · simp only [Holding, State.wait_status, Function.update_self] at hi
      cases hi.1
    · simpa only [Holding, State.wait_thread, State.wait_status,
        Function.update_of_ne hji] using hj
  | broadcast i next running hnext =>
    refine E.mono rfl fun j hj => ?_
    obtain ⟨hs, hh⟩ := hj
    refine ⟨Status.called_eq_running hs, ?_⟩
    rw [State.broadcast_thread] at hh
    by_cases hji : j = i
    · subst hji
      rw [Function.update_self] at hh
      exact G.broadcast j _ next hnext hh
    · rwa [Function.update_of_ne hji] at hh
  | access i run running hnext =>
    refine E.mono rfl fun j hj => ?_
    obtain ⟨hs, hh⟩ := hj
    refine ⟨hs, ?_⟩
    rw [State.access_thread] at hh
    by_cases hji : j = i
    · subst hji
      rw [Function.update_self] at hh
      exact G.access j _ run _ hnext hh
    · rwa [Function.update_of_ne hji] at hh
  | relock i woken free =>
    refine E.of_free (i := i) free rfl fun j hji hj => ?_
    simpa only [Holding, State.relock_thread, State.relock_status,
      Function.update_of_ne hji] using hj
  | wake i waiting =>
    refine E.mono rfl fun j hj => ?_
    obtain ⟨hs, hh⟩ := hj
    refine ⟨?_, hh⟩
    rw [State.wake_status] at hs
    by_cases hji : j = i
    · subst hji
      rw [Function.update_self] at hs
      cases hs
    · rwa [Function.update_of_ne hji] at hs

theorem reachable_exclusive (G : Guarded p holds) (h : p.system.Reachable s) :
    Exclusive holds s := by
  apply System.Reachable.invariant (I := Exclusive holds) _ _ h
  · exact ⟨fun i hi => absurd hi.2 (G.start i), fun i _ hi => absurd hi.2 (G.start i)⟩
  · exact fun s a t E ht => E.step G (effect_of_step ht)

end Steps

end Concurrente.Monitor
