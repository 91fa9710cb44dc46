import Concurrente.Transition
import Concurrente.Team

/-!
# The thread-safe queue

`Queue` guards a `std::queue` with a mutex and two counting semaphores.  A call of
`enqueue` or `dequeue` waits on one semaphore, locks, accesses, unlocks and signals
the other semaphore, one atomic step each.  The threads run any programs over any
family of queues.
-/

namespace Concurrente.Prodcons

variable {ι κ α σ γ χ : Type*}

structure Queue (α : Type*) where
  locked : Bool
  canConsume : ℕ
  queue : List α
  canProduce : ℕ

def semValueMax : ℕ := 2 ^ 31 - 1

/-- What a new semaphore lets pass.  `sem_init` fails beyond `SEM_VALUE_MAX`, which `Semaphore`
ignores; then the semaphore is not one, and nobody passes it. -/
def semInit (value : ℕ) : ℕ := if value ≤ semValueMax then value else 0

def Queue.create (queueCapacity : ℕ) : Queue α := ⟨false, semInit 0, [], semInit queueCapacity⟩

theorem semInit_eq_iff {value : ℕ} : semInit value = value ↔ value ≤ semValueMax := by
  rw [semInit]
  constructor
  · intro h
    by_contra hlt
    rw [if_neg hlt] at h
    exact hlt (h ▸ Nat.zero_le _)
  · exact fun h => if_pos h

/-- A call, with the state in which it leaves its caller. -/
inductive Op (κ α σ : Type*) where
  | enqueue (dest : κ) (data : α) (next : σ)
  | dequeue (source : κ) (next : α → σ)

/-- The next step of a call that is past its `wait`. -/
inductive Point where
  | lock
  | access
  | unlock
  | signal
  deriving DecidableEq

namespace Op

def target : Op κ α σ → κ
  | enqueue dest _ _ => dest
  | dequeue source _ => source

def permits : Op κ α σ → Queue α → ℕ
  | enqueue _ _ _, q => q.canProduce
  | dequeue _ _, q => q.canConsume

def wait : Op κ α σ → Queue α → Queue α
  | enqueue _ _ _, q => { q with canProduce := q.canProduce - 1 }
  | dequeue _ _, q => { q with canConsume := q.canConsume - 1 }

def signal : Op κ α σ → Queue α → Queue α
  | enqueue _ _ _, q => { q with canConsume := q.canConsume + 1 }
  | dequeue _ _, q => { q with canProduce := q.canProduce + 1 }

end Op

inductive Instr (κ α σ γ χ : Type*) where
  | call (op : Op κ α σ)
  | compute (run : χ → γ → Option (γ × σ))
  | finished

/-- Threads over shared memory and queues.  `χ` is what the environment chooses. -/
structure Network (ι κ α σ γ χ : Type*) where
  memory : γ
  start : ι → σ
  next : ι → σ → Instr κ α σ γ χ

/-- The state of a network.  The histories record what passed through each queue. -/
structure State (ι κ α σ γ : Type*) where
  memory : γ
  thread : ι → σ
  call : ι → Option (Point × Op κ α σ)
  queue : κ → Queue α
  enqueued : κ → List α
  dequeued : κ → List α

section Steps

variable [DecidableEq ι] [DecidableEq κ]

namespace State

variable (s : State ι κ α σ γ) (i : ι)

/-- A step of a call that leaves the data alone. -/
def move (op : Op κ α σ) (q : Queue α) (c : Option (Point × Op κ α σ)) : State ι κ α σ γ :=
  { s with
    call := Function.update s.call i c
    queue := Function.update s.queue op.target q }

/-- `canProduce.wait()` or `canConsume.wait()`. -/
def wait (op : Op κ α σ) : State ι κ α σ γ :=
  s.move i op (op.wait (s.queue op.target)) (some (.lock, op))

def lock (op : Op κ α σ) : State ι κ α σ γ :=
  s.move i op { s.queue op.target with locked := true } (some (.access, op))

def unlock (op : Op κ α σ) : State ι κ α σ γ :=
  s.move i op { s.queue op.target with locked := false } (some (.signal, op))

/-- `canConsume.signal()` or `canProduce.signal()`. -/
def signal (op : Op κ α σ) : State ι κ α σ γ :=
  s.move i op (op.signal (s.queue op.target)) none

/-- `queue.push(data)`. -/
def push (dest : κ) (data : α) (next : σ) : State ι κ α σ γ :=
  { s with
    thread := Function.update s.thread i next
    call := Function.update s.call i (some (.unlock, .enqueue dest data next))
    queue := Function.update s.queue dest
      { s.queue dest with queue := (s.queue dest).queue ++ [data] }
    enqueued := Function.update s.enqueued dest (s.enqueued dest ++ [data]) }

/-- `queue.front()` and `queue.pop()`. -/
def pop (source : κ) (next : α → σ) (data : α) (rest : List α) : State ι κ α σ γ :=
  { s with
    thread := Function.update s.thread i (next data)
    call := Function.update s.call i (some (.unlock, .dequeue source next))
    queue := Function.update s.queue source { s.queue source with queue := rest }
    dequeued := Function.update s.dequeued source (s.dequeued source ++ [data]) }

def compute (r : γ × σ) : State ι κ α σ γ :=
  { s with
    memory := r.1
    thread := Function.update s.thread i r.2 }

end State

namespace Network

variable (p : Network ι κ α σ γ χ)

def advance (s : State ι κ α σ γ) (i : ι) : Point → Op κ α σ → Option (State ι κ α σ γ)
  | .lock, op => if (s.queue op.target).locked then none else some (s.lock i op)
  | .access, .enqueue dest data next => some (s.push i dest data next)
  | .access, .dequeue source next =>
    match (s.queue source).queue with
    | [] => none
    | data :: rest => some (s.pop i source next data rest)
  | .unlock, op => some (s.unlock i op)
  | .signal, op => some (s.signal i op)

/-- The network with queues of these capacities, one atomic step of one thread at a time. -/
def system (c : κ → ℕ) : System (State ι κ α σ γ) (ι × χ) where
  start :=
    { memory := p.memory
      thread := p.start
      call := fun _ => none
      queue := fun k => Queue.create (c k)
      enqueued := fun _ => []
      dequeued := fun _ => [] }
  step s a :=
    match s.call a.1 with
    | some (pt, op) => advance s a.1 pt op
    | none =>
      match p.next a.1 (s.thread a.1) with
      | .call op => if op.permits (s.queue op.target) = 0 then none else some (s.wait a.1 op)
      | .compute run => (run a.2 s.memory).map (s.compute a.1)
      | .finished => none

variable {p} {c : κ → ℕ} {s t : State ι κ α σ γ} {i : ι} {x : χ}

theorem step_cases (h : (p.system c).step s (i, x) = some t) :
    (∃ op, s.call i = none ∧ p.next i (s.thread i) = .call op ∧
      0 < op.permits (s.queue op.target) ∧ t = s.wait i op) ∨
    (∃ run r, s.call i = none ∧ p.next i (s.thread i) = .compute run ∧
      run x s.memory = some r ∧ t = s.compute i r) ∨
    (∃ op, s.call i = some (.lock, op) ∧ (s.queue op.target).locked = false ∧ t = s.lock i op) ∨
    (∃ dest data next, s.call i = some (.access, .enqueue dest data next) ∧
      t = s.push i dest data next) ∨
    (∃ source next data rest, s.call i = some (.access, .dequeue source next) ∧
      (s.queue source).queue = data :: rest ∧ t = s.pop i source next data rest) ∨
    (∃ op, s.call i = some (.unlock, op) ∧ t = s.unlock i op) ∨
    (∃ op, s.call i = some (.signal, op) ∧ t = s.signal i op) := by
  simp only [system] at h
  cases hc : s.call i with
  | none =>
    simp only [hc] at h
    cases hn : p.next i (s.thread i) with
    | call op =>
      simp only [hn] at h
      split at h
      · cases h
      · rename_i hp
        exact .inl ⟨op, rfl, rfl, Nat.pos_of_ne_zero hp, (Option.some.inj h).symm⟩
    | compute run =>
      simp only [hn, Option.map_eq_some_iff] at h
      obtain ⟨r, hr, ht⟩ := h
      exact .inr (.inl ⟨run, r, rfl, rfl, hr, ht.symm⟩)
    | finished =>
      simp only [hn] at h
      cases h
  | some call =>
    obtain ⟨pt, op⟩ := call
    simp only [hc] at h
    cases pt with
    | lock =>
      simp only [advance] at h
      split at h
      · cases h
      · rename_i hl
        exact .inr (.inr (.inl ⟨op, rfl, by simpa using hl, (Option.some.inj h).symm⟩))
    | access =>
      cases op with
      | enqueue dest data next =>
        exact .inr (.inr (.inr (.inl ⟨dest, data, next, rfl, (Option.some.inj h).symm⟩)))
      | dequeue source next =>
        simp only [advance] at h
        split at h
        · cases h
        · rename_i data rest hq
          exact .inr (.inr (.inr (.inr (.inl
            ⟨source, next, data, rest, rfl, hq, (Option.some.inj h).symm⟩))))
    | unlock =>
      exact .inr (.inr (.inr (.inr (.inr (.inl ⟨op, rfl, (Option.some.inj h).symm⟩)))))
    | signal =>
      exact .inr (.inr (.inr (.inr (.inr (.inr ⟨op, rfl, (Option.some.inj h).symm⟩)))))

end Network

end Steps

end Concurrente.Prodcons
