import Concurrente.Prodcons.Accounting
import Concurrente.Iteration
import Mathlib.Data.ENat.Basic

/-!
# Calls in one step

The atomic network enqueues and dequeues in one step, guarded by the contents of the
queue.  Every run of the network with semaphores and mutexes is a run of the atomic
one, seen at the push and the pop.  Its deadlocks are deadlocks of the atomic one,
and it terminates when the atomic one does.
-/

namespace Concurrente.Prodcons

variable {ι κ α σ γ χ : Type*}

/-- What is left of a state without semaphores, mutexes and calls in progress. -/
structure Snapshot (ι κ α σ γ : Type*) where
  memory : γ
  thread : ι → σ
  queue : κ → List α
  enqueued : κ → List α
  dequeued : κ → List α

def State.snapshot (s : State ι κ α σ γ) : Snapshot ι κ α σ γ where
  memory := s.memory
  thread := s.thread
  queue k := (s.queue k).queue
  enqueued := s.enqueued
  dequeued := s.dequeued

section Steps

variable [DecidableEq ι] [DecidableEq κ]

namespace Snapshot

variable (s : Snapshot ι κ α σ γ) (i : ι)

def push (dest : κ) (data : α) (next : σ) : Snapshot ι κ α σ γ :=
  { s with
    thread := Function.update s.thread i next
    queue := Function.update s.queue dest (s.queue dest ++ [data])
    enqueued := Function.update s.enqueued dest (s.enqueued dest ++ [data]) }

def pop (source : κ) (next : α → σ) (data : α) (rest : List α) : Snapshot ι κ α σ γ :=
  { s with
    thread := Function.update s.thread i (next data)
    queue := Function.update s.queue source rest
    dequeued := Function.update s.dequeued source (s.dequeued source ++ [data]) }

def compute (r : γ × σ) : Snapshot ι κ α σ γ :=
  { s with
    memory := r.1
    thread := Function.update s.thread i r.2 }

variable (dest source : κ) (data : α) (next : σ) (receive : α → σ) (rest : List α) (r : γ × σ)

@[simp] theorem push_memory : (s.push i dest data next).memory = s.memory := rfl

@[simp] theorem push_thread :
    (s.push i dest data next).thread = Function.update s.thread i next := rfl

@[simp] theorem push_queue : (s.push i dest data next).queue =
    Function.update s.queue dest (s.queue dest ++ [data]) := rfl

@[simp] theorem push_enqueued : (s.push i dest data next).enqueued =
    Function.update s.enqueued dest (s.enqueued dest ++ [data]) := rfl

@[simp] theorem push_dequeued : (s.push i dest data next).dequeued = s.dequeued := rfl

theorem push_enqueued_comp {β : Type*} [DecidableEq β] {f : β → κ} (hf : Function.Injective f)
    (b : β) : (fun b' => (s.push i (f b) data next).enqueued (f b')) =
      Function.update (fun b' => s.enqueued (f b')) b (s.enqueued (f b) ++ [data]) :=
  Function.update_comp_eq_of_injective s.enqueued hf b _

@[simp] theorem pop_memory : (s.pop i source receive data rest).memory = s.memory := rfl

@[simp] theorem pop_thread : (s.pop i source receive data rest).thread =
    Function.update s.thread i (receive data) := rfl

@[simp] theorem pop_queue : (s.pop i source receive data rest).queue =
    Function.update s.queue source rest := rfl

@[simp] theorem pop_enqueued : (s.pop i source receive data rest).enqueued = s.enqueued := rfl

@[simp] theorem pop_dequeued : (s.pop i source receive data rest).dequeued =
    Function.update s.dequeued source (s.dequeued source ++ [data]) := rfl

omit [DecidableEq κ]

@[simp] theorem compute_memory : (s.compute i r).memory = r.1 := rfl

@[simp] theorem compute_thread :
    (s.compute i r).thread = Function.update s.thread i r.2 := rfl

@[simp] theorem compute_queue : (s.compute i r).queue = s.queue := rfl

@[simp] theorem compute_enqueued : (s.compute i r).enqueued = s.enqueued := rfl

@[simp] theorem compute_dequeued : (s.compute i r).dequeued = s.dequeued := rfl

end Snapshot

/-- The network with queues of these capacities, one call or computation at a time. -/
def Network.atomic (p : Network ι κ α σ γ χ) (c : κ → ℕ∞) :
    System (Snapshot ι κ α σ γ) (ι × χ) where
  start :=
    { memory := p.memory
      thread := p.start
      queue := fun _ => []
      enqueued := fun _ => []
      dequeued := fun _ => [] }
  step s a :=
    match p.next a.1 (s.thread a.1) with
    | .call (.enqueue dest data next) =>
      if (s.queue dest).length < c dest then some (s.push a.1 dest data next) else none
    | .call (.dequeue source next) =>
      match s.queue source with
      | [] => none
      | data :: rest => some (s.pop a.1 source next data rest)
    | .compute run => (run a.2 s.memory).map (s.compute a.1)
    | .finished => none

namespace Network

section Atomic

variable {p : Network ι κ α σ γ χ} {c : κ → ℕ∞} {s t : Snapshot ι κ α σ γ} {i : ι} {x : χ}

theorem atomic_enqueue {dest : κ} {data : α} {next : σ}
    (h : p.next i (s.thread i) = .call (.enqueue dest data next))
    (hc : (s.queue dest).length < c dest) :
    (p.atomic c).step s (i, x) = some (s.push i dest data next) := by
  simp only [atomic, h, if_pos hc]

theorem atomic_dequeue {source : κ} {next : α → σ} {data : α} {rest : List α}
    (h : p.next i (s.thread i) = .call (.dequeue source next))
    (hq : s.queue source = data :: rest) :
    (p.atomic c).step s (i, x) = some (s.pop i source next data rest) := by
  simp only [atomic, h, hq]

theorem atomic_compute {run : χ → γ → Option (γ × σ)} {r : γ × σ}
    (h : p.next i (s.thread i) = .compute run) (hr : run x s.memory = some r) :
    (p.atomic c).step s (i, x) = some (s.compute i r) := by
  simp only [atomic, h, hr, Option.map_some]

theorem atomic_cases (h : (p.atomic c).step s (i, x) = some t) :
    (∃ dest data next, p.next i (s.thread i) = .call (.enqueue dest data next) ∧
      (s.queue dest).length < c dest ∧ t = s.push i dest data next) ∨
    (∃ source next data rest, p.next i (s.thread i) = .call (.dequeue source next) ∧
      s.queue source = data :: rest ∧ t = s.pop i source next data rest) ∨
    (∃ run r, p.next i (s.thread i) = .compute run ∧ run x s.memory = some r ∧
      t = s.compute i r) := by
  simp only [atomic] at h
  split at h
  · rename_i dest data next hn
    split at h
    · rename_i hc
      exact .inl ⟨dest, data, next, hn, hc, (Option.some.inj h).symm⟩
    · cases h
  · rename_i source next hn
    split at h
    · cases h
    · rename_i data rest hq
      exact .inr (.inl ⟨source, next, data, rest, hn, hq, (Option.some.inj h).symm⟩)
  · rename_i run hn
    simp only [Option.map_eq_some_iff] at h
    obtain ⟨r, hr, ht⟩ := h
    exact .inr (.inr ⟨run, r, hn, hr, ht.symm⟩)
  · cases h

theorem atomic_mono {c' : κ → ℕ∞} (hc : ∀ k, c k ≤ c' k)
    (h : (p.atomic c).step s (i, x) = some t) : (p.atomic c').step s (i, x) = some t := by
  rcases atomic_cases h with ⟨dest, data, next, hn, hlt, rfl⟩ |
    ⟨source, next, data, rest, hn, hq, rfl⟩ | ⟨run, r, hn, hr, rfl⟩
  · exact atomic_enqueue hn (hlt.trans_le (hc dest))
  · exact atomic_dequeue hn hq
  · exact atomic_compute hn hr

theorem atomic_reachable_mono {c' : κ → ℕ∞} (hc : ∀ k, c k ≤ c' k)
    (h : (p.atomic c).Reachable s) : (p.atomic c').Reachable s := by
  apply System.Reachable.invariant (M := p.atomic c) (I := (p.atomic c').Reachable) _ _ h
  · exact System.Reachable.start (M := p.atomic c')
  · rintro s ⟨i, x⟩ t hr ht
    exact hr.step (atomic_mono hc ht)

theorem atomic_thread (h : (p.atomic c).step s (i, x) = some t) {j : ι} (hj : j ≠ i) :
    t.thread j = s.thread j := by
  rcases atomic_cases h with ⟨dest, data, next, -, -, rfl⟩ | ⟨source, next, data, rest, -, -, rfl⟩ |
    ⟨run, r, -, -, rfl⟩ <;> exact Function.update_of_ne hj _ _

theorem atomic_enqueued (h : (p.atomic c).step s (i, x) = some t) {k : κ}
    (hk : ∀ data next, p.next i (s.thread i) ≠ .call (.enqueue k data next)) :
    t.enqueued k = s.enqueued k := by
  rcases atomic_cases h with ⟨dest, data, next, hn, -, rfl⟩ |
    ⟨source, next, data, rest, -, -, rfl⟩ | ⟨run, r, -, -, rfl⟩
  · apply Function.update_of_ne
    rintro rfl
    exact hk data next hn
  · rfl
  · rfl

theorem atomic_dequeued (h : (p.atomic c).step s (i, x) = some t) {k : κ}
    (hk : ∀ next, p.next i (s.thread i) ≠ .call (.dequeue k next)) :
    t.dequeued k = s.dequeued k := by
  rcases atomic_cases h with ⟨dest, data, next, -, -, rfl⟩ |
    ⟨source, next, data, rest, hn, -, rfl⟩ | ⟨run, r, -, -, rfl⟩
  · rfl
  · apply Function.update_of_ne
    rintro rfl
    exact hk next hn
  · rfl

theorem atomic_memory (h : (p.atomic c).step s (i, x) = some t)
    (hk : ∀ run r, p.next i (s.thread i) = .compute run → run x s.memory = some r →
      r.1 = s.memory) : t.memory = s.memory := by
  rcases atomic_cases h with ⟨dest, data, next, -, -, rfl⟩ | ⟨source, next, data, rest, -, -, rfl⟩ |
    ⟨run, r, hn, hr, rfl⟩
  · rfl
  · rfl
  · exact hk run r hn hr

/-- Every queue holds what was enqueued and not dequeued, in this order. -/
theorem atomic_order (h : (p.atomic c).Reachable s) (k : κ) :
    s.enqueued k = s.dequeued k ++ s.queue k := by
  apply System.Reachable.invariant (I := fun s => s.enqueued k = s.dequeued k ++ s.queue k) _ _ h
  · rfl
  · rintro s ⟨i, x⟩ t I ht
    rcases atomic_cases ht with ⟨dest, data, next, -, -, rfl⟩ |
      ⟨source, next, data, rest, -, hq, rfl⟩ | ⟨run, r, -, -, rfl⟩
    · by_cases hk : k = dest
      · subst hk
        simp only [Snapshot.push, Function.update_self, I, List.append_assoc]
      · simpa only [Snapshot.push, Function.update_of_ne hk] using I
    · by_cases hk : k = source
      · subst hk
        simp only [Snapshot.pop, Function.update_self, List.append_assoc]
        rw [I, hq]
        rfl
      · simpa only [Snapshot.pop, Function.update_of_ne hk] using I
    · exact I

theorem atomic_closed {k : κ} (hc : c k = 0) (h : (p.atomic c).Reachable s) :
    s.enqueued k = [] := by
  apply System.Reachable.invariant (I := fun s => s.enqueued k = []) _ _ h
  · rfl
  · rintro s ⟨i, x⟩ t I ht
    rcases atomic_cases ht with ⟨dest, data, next, -, hlt, rfl⟩ |
      ⟨source, next, data, rest, -, -, rfl⟩ | ⟨run, r, -, -, rfl⟩
    · have hk : k ≠ dest := by
        rintro rfl
        rw [hc] at hlt
        exact not_lt_zero hlt
      simpa only [Snapshot.push, Function.update_of_ne hk] using I
    · exact I
    · exact I

theorem closed_terminates [Fintype ι] (hc : ∀ k, c k = 0) (w : σ → ℕ)
    (hw : ∀ i a run x m r, p.next i a = .compute run → run x m = some r → w r.2 < w a) :
    (p.atomic c).Terminates := by
  refine ⟨fun s => ∑ i, w (s.thread i), ?_⟩
  rintro s ⟨i, x⟩ t hr ht
  dsimp only
  rcases atomic_cases ht with ⟨dest, data, next, -, hlt, rfl⟩ |
    ⟨source, next, data, rest, -, hq, rfl⟩ | ⟨run, r, hn, hrun, rfl⟩
  · rw [hc] at hlt
    exact absurd hlt not_lt_zero
  · have horder := atomic_order hr source
    rw [atomic_closed (hc source) hr, hq] at horder
    simp at horder
  · have hsum := sum_update (Finset.mem_univ i) s.thread (fun _ => w) r.2
    have hlt := hw i _ run x _ r hn hrun
    rw [Snapshot.compute_thread]
    omega

/-- What the threads know of their states and of the data that they pass on. -/
theorem atomic_typed {P : α → Prop} {Q : ι → σ → Prop} (hstart : ∀ i, Q i (p.start i))
    (henqueue : ∀ i a dest data next, p.next i a = .call (.enqueue dest data next) → Q i a →
      P data ∧ Q i next)
    (hdequeue : ∀ i a source next data, p.next i a = .call (.dequeue source next) → Q i a →
      P data → Q i (next data))
    (hcompute : ∀ i a run x m r, p.next i a = .compute run → run x m = some r → Q i a → Q i r.2)
    (h : (p.atomic c).Reachable s) :
    (∀ i, Q i (s.thread i)) ∧ ∀ k, ∀ data ∈ s.queue k, P data := by
  apply System.Reachable.invariant
    (I := fun s => (∀ i, Q i (s.thread i)) ∧ ∀ k, ∀ data ∈ s.queue k, P data) _ _ h
  · exact ⟨hstart, fun k data hd => absurd hd List.not_mem_nil⟩
  · rintro s ⟨i, x⟩ t ⟨hQ, hP⟩ ht
    have hthread : ∀ {a}, Q i a → ∀ j, Q j (Function.update s.thread i a j) :=
      fun ha j => forall_update Q (fun j (_ : True) => hQ j) ha j trivial
    rcases atomic_cases ht with ⟨dest, data, next, hn, -, rfl⟩ |
      ⟨source, next, data, rest, hn, hq, rfl⟩ | ⟨run, r, hn, hr, rfl⟩
    · obtain ⟨hdata, hnext⟩ := henqueue i _ dest data next hn (hQ i)
      refine ⟨hthread hnext, fun k => ?_⟩
      rw [Snapshot.push_queue]
      by_cases hk : k = dest
      · subst hk
        rw [Function.update_self]
        intro d hd
        rcases List.mem_append.mp hd with hd | hd
        · exact hP k d hd
        · rw [List.mem_singleton.mp hd]
          exact hdata
      · rw [Function.update_of_ne hk]
        exact hP k
    · have hall := hP source
      rw [hq] at hall
      refine ⟨hthread (hdequeue i _ source next data hn (hQ i) (hall data List.mem_cons_self)),
        fun k => ?_⟩
      rw [Snapshot.pop_queue]
      by_cases hk : k = source
      · subst hk
        rw [Function.update_self]
        exact fun d hd => hall d (List.mem_cons_of_mem _ hd)
      · rw [Function.update_of_ne hk]
        exact hP k
    · exact ⟨hthread (hcompute i _ run x _ r hn hr (hQ i)), hP⟩

/-- A deadlock of the atomic network: every thread has finished, or faces a full or an empty
queue, or a computation that is not possible. -/
theorem atomic_stuck [Inhabited χ] (h : (p.atomic c).Stuck s) (i : ι) :
    p.next i (s.thread i) = .finished ∨
    (∃ dest data next, p.next i (s.thread i) = .call (.enqueue dest data next) ∧
      c dest ≤ (s.queue dest).length) ∨
    (∃ source next, p.next i (s.thread i) = .call (.dequeue source next) ∧
      s.queue source = []) ∨
    ∃ run, p.next i (s.thread i) = .compute run ∧ ∀ x, run x s.memory = none := by
  cases hn : p.next i (s.thread i) with
  | finished => exact .inl rfl
  | compute run =>
    refine .inr (.inr (.inr ⟨run, rfl, fun x => ?_⟩))
    cases hr : run x s.memory with
    | none => rfl
    | some r =>
      have hstep := h (i, x)
      rw [atomic_compute hn hr] at hstep
      cases hstep
  | call op =>
    have hstep := h (i, default)
    cases op with
    | enqueue dest data next =>
      refine .inr (.inl ⟨dest, data, next, rfl, ?_⟩)
      by_contra hc
      rw [atomic_enqueue hn (lt_of_not_ge hc)] at hstep
      cases hstep
    | dequeue source next =>
      refine .inr (.inr (.inl ⟨source, next, rfl, ?_⟩))
      cases hq : s.queue source with
      | nil => rfl
      | cons data rest =>
        rw [atomic_dequeue hn hq] at hstep
        cases hstep

end Atomic

end Network

section Snapshots

variable {s : State ι κ α σ γ} {i : ι}

theorem snapshot_move {op : Op κ α σ} {q : Queue α} {c : Option (Point × Op κ α σ)}
    (hq : q.queue = (s.queue op.target).queue) : (s.move i op q c).snapshot = s.snapshot := by
  have hqueue : ∀ k, (Function.update s.queue op.target q k).queue = (s.queue k).queue := by
    intro k
    by_cases hk : k = op.target
    · subst hk
      rw [Function.update_self, hq]
    · rw [Function.update_of_ne hk]
  simp only [State.snapshot, State.move, hqueue]

theorem snapshot_push (dest : κ) (data : α) (next : σ) :
    (s.push i dest data next).snapshot = s.snapshot.push i dest data next := by
  simp only [State.snapshot, State.push, Snapshot.push, Snapshot.mk.injEq, true_and, and_true]
  funext k
  by_cases hk : k = dest
  · subst hk
    simp only [Function.update_self]
  · simp only [Function.update_of_ne hk]

theorem snapshot_pop (source : κ) (next : α → σ) (data : α) (rest : List α) :
    (s.pop i source next data rest).snapshot = s.snapshot.pop i source next data rest := by
  simp only [State.snapshot, State.pop, Snapshot.pop, Snapshot.mk.injEq, true_and, and_true]
  funext k
  by_cases hk : k = source
  · subst hk
    simp only [Function.update_self]
  · simp only [Function.update_of_ne hk]

end Snapshots

/-- A caller that has not accessed the queue is still in the state that makes the call. -/
def State.Intent (p : Network ι κ α σ γ χ) (s : State ι κ α σ γ) : Prop :=
  ∀ i op, s.call i = some (.lock, op) ∨ s.call i = some (.access, op) →
    p.next i (s.thread i) = .call op

section Refines

variable {p : Network ι κ α σ γ χ} {c : κ → ℕ} {s t : State ι κ α σ γ} {i : ι} {x : χ}

theorem intent_step (I : s.Intent p) (h : (p.system c).step s (i, x) = some t) : t.Intent p := by
  intro j op hj
  -- the intent of a thread is fixed when its call starts
  by_cases hji : j = i
  · subst hji
    rcases Network.step_cases h with ⟨op', hc, hn, -, rfl⟩ | ⟨run, r, hc, -, -, rfl⟩ |
      ⟨op', hc, -, rfl⟩ | ⟨dest, data, next, hc, rfl⟩ | ⟨source, next, data, rest, hc, -, rfl⟩ |
      ⟨op', hc, rfl⟩ | ⟨op', hc, rfl⟩
    · simp [State.wait, State.move] at hj ⊢
      rw [← hj]
      exact hn
    · simp [State.compute, hc] at hj
    · simp [State.lock, State.move] at hj ⊢
      rw [← hj]
      exact I j op' (.inl hc)
    · simp [State.push] at hj
    · simp [State.pop] at hj
    · simp [State.unlock, State.move] at hj
    · simp [State.signal, State.move] at hj
  · have hframe : t.call j = s.call j ∧ t.thread j = s.thread j := by
      rcases Network.step_cases h with ⟨op', -, -, -, rfl⟩ | ⟨run, r, -, -, -, rfl⟩ |
        ⟨op', -, -, rfl⟩ | ⟨dest, data, next, -, rfl⟩ | ⟨source, next, data, rest, -, -, rfl⟩ |
        ⟨op', -, rfl⟩ | ⟨op', -, rfl⟩ <;>
      simp [State.wait, State.lock, State.unlock, State.signal, State.move, State.compute,
        State.push, State.pop, Function.update_of_ne hji]
    rw [hframe.1] at hj
    rw [hframe.2]
    exact I j op hj

theorem reachable_intent (h : (p.system c).Reachable s) : s.Intent p := by
  apply System.Reachable.invariant (I := fun s => s.Intent p) _ _ h
  · intro i op hi
    simp [Network.system] at hi
  · rintro s ⟨i, x⟩ t I ht
    exact intent_step I ht

/-- How far a call is from its access, or from the start of the next one. -/
def stage : Option (Point × Op κ α σ) → ℕ
  | some (.unlock, _) => 4
  | some (.signal, _) => 3
  | none => 2
  | some (.lock, _) => 1
  | some (.access, _) => 0

variable [Fintype ι]

def State.stages (s : State ι κ α σ γ) : ℕ := ∑ i, stage (s.call i)

omit [DecidableEq κ] in
theorem stages_update {call : Option (Point × Op κ α σ)}
    (h : t.call = Function.update s.call i call) :
    t.stages + stage (s.call i) = s.stages + stage call := by
  rw [State.stages, State.stages, h]
  exact sum_update (Finset.mem_univ i) s.call (fun _ => stage) call

/-- One step is one atomic step, or is not seen and brings a call further. -/
theorem snapshot_step (hr : (p.system c).Reachable s)
    (h : (p.system c).step s (i, x) = some t) :
    (t.snapshot = s.snapshot ∧ t.stages + 1 = s.stages) ∨
      ((p.atomic fun k => semInit (c k)).step s.snapshot (i, x) = some t.snapshot ∧
        t.stages ≤ s.stages + 4) := by
  rcases Network.step_cases h with ⟨op, hc, hn, hp, rfl⟩ | ⟨run, r, hc, hn, hr', rfl⟩ |
    ⟨op, hc, hl, rfl⟩ | ⟨dest, data, next, hc, rfl⟩ | ⟨source, next, data, rest, hc, hq, rfl⟩ |
    ⟨op, hc, rfl⟩ | ⟨op, hc, rfl⟩
  · have hst := stages_update (s := s) (t := s.wait i op) (i := i) rfl
    rw [hc] at hst
    refine .inl ⟨snapshot_move (by cases op <;> rfl), ?_⟩
    simp only [stage] at hst
    omega
  · exact .inr ⟨Network.atomic_compute hn hr', Nat.le_add_right _ _⟩
  · have hst := stages_update (s := s) (t := s.lock i op) (i := i) rfl
    rw [hc] at hst
    exact .inl ⟨snapshot_move rfl, hst⟩
  · have hst := stages_update (s := s) (t := s.push i dest data next) (i := i) rfl
    rw [hc] at hst
    refine .inr ⟨?_, hst.le⟩
    rw [snapshot_push]
    apply Network.atomic_enqueue (reachable_intent hr i _ (.inr hc))
    have hle := weight_le_sum (Finset.mem_univ i) (fun j => weight Op.place dest (s.call j))
    have hw : weight Op.place dest (s.call i) = 1 := by
      rw [hc]
      exact weight_self
    have hplaces := (reachable_accounted hr dest).places
    rw [hw] at hle
    rw [State.total] at hplaces
    have hlt : (s.queue dest).queue.length < semInit (c dest) := by omega
    exact_mod_cast hlt
  · have hst := stages_update (s := s) (t := s.pop i source next data rest) (i := i) rfl
    rw [hc] at hst
    refine .inr ⟨?_, hst.le⟩
    rw [snapshot_pop]
    exact Network.atomic_dequeue (reachable_intent hr i _ (.inr hc)) hq
  · have hst := stages_update (s := s) (t := s.unlock i op) (i := i) rfl
    rw [hc] at hst
    refine .inl ⟨snapshot_move rfl, ?_⟩
    simp only [stage] at hst
    omega
  · have hst := stages_update (s := s) (t := s.signal i op) (i := i) rfl
    rw [hc] at hst
    refine .inl ⟨snapshot_move (by cases op <;> rfl), ?_⟩
    simp only [stage] at hst
    omega

/-- Every reachable state is seen as a reachable state of the atomic network. -/
theorem reachable_snapshot (h : (p.system c).Reachable s) :
    (p.atomic fun k => semInit (c k)).Reachable s.snapshot := by
  apply System.Reachable.invariant'
    (I := fun s => (p.atomic fun k => semInit (c k)).Reachable s.snapshot) _ _ h
  · exact System.Reachable.start
  · rintro s ⟨i, x⟩ t hr ih ht
    rcases snapshot_step hr ht with ⟨hs, -⟩ | ⟨hs, -⟩
    · rwa [hs]
    · exact ih.step hs

omit [Fintype ι] in
/-- A call that finds a permit and the mutex free goes through its five points. -/
theorem path_call {op : Op κ α σ} {r : State ι κ α σ γ} (x : χ) (hs : ∀ j, s.call j = none)
    (hn : p.next i (s.thread i) = .call op) (hp : op.permits (s.queue op.target) ≠ 0)
    (hl : (s.queue op.target).locked = false)
    (hr : Network.advance ((s.wait i op).lock i op) i .access op = some r)
    (hcall : r.call = Function.update s.call i (some (.unlock, op))) :
    ∃ t, (p.system c).Path s t ∧ (∀ j, t.call j = none) ∧ t.snapshot = r.snapshot := by
  have hstep : ∀ pt {s : State ι κ α σ γ}, s.call i = some (pt, op) →
      (p.system c).step s (i, x) = Network.advance s i pt op := by
    intro pt s hc
    simp only [Network.system, hc]
  have hwait : (p.system c).step s (i, x) = some (s.wait i op) := by
    simp only [Network.system, hs i, hn, if_neg hp]
  have hfree : ((s.wait i op).queue op.target).locked = false := by
    cases op <;> simpa only [State.wait, State.move, Op.wait, Function.update_self] using hl
  have hlock : (p.system c).step (s.wait i op) (i, x) = some ((s.wait i op).lock i op) := by
    rw [hstep .lock (Function.update_self ..)]
    simp only [Network.advance, hfree, Bool.false_eq_true, if_false]
  have haccess : (p.system c).step ((s.wait i op).lock i op) (i, x) = some r := by
    rw [hstep .access (Function.update_self ..), hr]
  have hunlock : (p.system c).step r (i, x) = some (r.unlock i op) := by
    rw [hstep .unlock (by rw [hcall, Function.update_self])]
    rfl
  have hsignal : (p.system c).step (r.unlock i op) (i, x) =
      some ((r.unlock i op).signal i op) := by
    rw [hstep .signal (Function.update_self ..)]
    rfl
  refine ⟨(r.unlock i op).signal i op,
    .head hwait (.head hlock (.head haccess (.head hunlock (.step hsignal)))), fun j => ?_,
    (snapshot_move (by cases op <;> rfl)).trans (snapshot_move rfl)⟩
  simp only [State.signal, State.unlock, State.move, hcall, Function.update_idem]
  by_cases hj : j = i
  · rw [hj, Function.update_self]
  · rw [Function.update_of_ne hj]
    exact hs j

omit [Fintype ι] in
theorem snapshot_lock {op : Op κ α σ} : ((s.wait i op).lock i op).snapshot = s.snapshot := by
  have hwait : (s.wait i op).snapshot = s.snapshot := snapshot_move (by cases op <;> rfl)
  have hlock : ((s.wait i op).lock i op).snapshot = (s.wait i op).snapshot := snapshot_move rfl
  exact hlock.trans hwait

/-- Between calls the semaphores have the permits that the queues show, and no mutex is locked. -/
structure Idle (c : ℕ) (s : State ι κ α σ γ) (k : κ) : Prop where
  canConsume : (s.queue k).canConsume = (s.queue k).queue.length
  canProduce : (s.queue k).canProduce + (s.queue k).queue.length = c
  locked : (s.queue k).locked = false

theorem idle_of_calls (hr : (p.system c).Reachable s) (hs : ∀ i, s.call i = none) (k : κ) :
    Idle (semInit (c k)) s k := by
  have hzero : ∀ w, s.total w k = 0 := by
    intro w
    apply Finset.sum_eq_zero
    intro i _
    rw [hs i]
    rfl
  have I := reachable_accounted hr k
  have hproducts := I.products
  have hplaces := I.places
  have howners := I.owners
  rw [hzero] at hproducts hplaces howners
  refine ⟨by omega, by omega, ?_⟩
  cases hl : (s.queue k).locked with
  | false => rfl
  | true =>
    rw [hl] at howners
    cases howners

/-- One atomic step is a run of the network from a state between calls to another one. -/
theorem path_of_atomic {r : Snapshot ι κ α σ γ} (hr : (p.system c).Reachable s)
    (hs : ∀ i, s.call i = none)
    (h : (p.atomic fun k => semInit (c k)).step s.snapshot (i, x) = some r) :
    ∃ t, (p.system c).Path s t ∧ (∀ i, t.call i = none) ∧ t.snapshot = r := by
  rcases Network.atomic_cases h with ⟨dest, data, next, hn, hlt, rfl⟩ |
    ⟨source, next, data, rest, hn, hq, rfl⟩ | ⟨run, r, hn, hrun, rfl⟩
  · have hidle := idle_of_calls hr hs dest
    have hlt' : (s.queue dest).queue.length < semInit (c dest) := by exact_mod_cast hlt
    have hp : (s.queue dest).canProduce ≠ 0 := by
      have := hidle.canProduce
      omega
    obtain ⟨t, ht, hcalls, hsnap⟩ := path_call (c := c) x hs hn hp hidle.locked rfl (by
      simp only [State.push, State.lock, State.wait, State.move, Function.update_idem])
    refine ⟨t, ht, hcalls, ?_⟩
    rw [hsnap, snapshot_push, snapshot_lock]
  · have hidle := idle_of_calls hr hs source
    have hq' : (s.queue source).queue = data :: rest := hq
    have hp : (s.queue source).canConsume ≠ 0 := by
      rw [hidle.canConsume, hq']
      exact Nat.succ_ne_zero _
    have haccess : Network.advance ((s.wait i (.dequeue source next)).lock i
        (.dequeue source next)) i .access (.dequeue source next) =
        some (((s.wait i (.dequeue source next)).lock i (.dequeue source next)).pop i source next
          data rest) := by
      have hqueue : (((s.wait i (.dequeue source next)).lock i
          (.dequeue source next)).queue source).queue = data :: rest := by
        rw [← hq']
        simp only [State.lock, State.wait, State.move, Op.wait, Op.target, Function.update_self]
      simp only [Network.advance, hqueue]
    obtain ⟨t, ht, hcalls, hsnap⟩ := path_call (c := c) x hs hn hp hidle.locked haccess (by
      simp only [State.pop, State.lock, State.wait, State.move, Function.update_idem])
    refine ⟨t, ht, hcalls, ?_⟩
    rw [hsnap, snapshot_pop, snapshot_lock]
  · exact ⟨s.compute i r, .step (a := (i, x)) (by
      simp only [Network.system, hs i, show p.next i (s.thread i) = .compute run from hn]
      exact Option.map_eq_some_iff.mpr ⟨r, hrun, rfl⟩), hs, rfl⟩

/-- Every reachable state of the atomic network is what is seen of a reachable state between
calls. -/
theorem reachable_of_atomic {r : Snapshot ι κ α σ γ}
    (h : (p.atomic fun k => semInit (c k)).Reachable r) :
    ∃ s, (p.system c).Reachable s ∧ (∀ i, s.call i = none) ∧ s.snapshot = r := by
  apply System.Reachable.invariant (I := fun r => ∃ s, (p.system c).Reachable s ∧
    (∀ i, s.call i = none) ∧ s.snapshot = r) _ _ h
  · exact ⟨(p.system c).start, System.Reachable.start, fun _ => rfl, rfl⟩
  · rintro _ ⟨i, x⟩ t ⟨s, hs, hcalls, rfl⟩ ht
    obtain ⟨s', hpath, hcalls', hsnap⟩ := path_of_atomic hs hcalls ht
    exact ⟨s', hs.path hpath, hcalls', hsnap⟩

/-- The network terminates when the atomic one does. -/
theorem terminates_of_atomic (h : (p.atomic fun k => semInit (c k)).Terminates) :
    (p.system c).Terminates := by
  obtain ⟨μ, hμ⟩ := h
  refine ⟨fun s => 5 * μ s.snapshot + s.stages, ?_⟩
  rintro s ⟨i, x⟩ t hr ht
  dsimp only
  rcases snapshot_step hr ht with ⟨hs, hst⟩ | ⟨hs, hst⟩
  · rw [hs]
    omega
  · have := hμ _ _ _ (reachable_snapshot hr) hs
    omega

variable [Inhabited χ]

/-- In a deadlock no call is past its wait: the owner of a mutex can always go on. -/
theorem call_eq_none_of_stuck (hr : (p.system c).Reachable s) (h : (p.system c).Stuck s) (i : ι) :
    s.call i = none := by
  have hpast : ∀ j pt op, s.call j = some (pt, op) →
      pt = .lock ∧ (s.queue op.target).locked = true := by
    intro j pt op hc
    have hstep := h (j, default)
    simp only [Network.system, hc] at hstep
    cases pt with
    | lock =>
      simp only [Network.advance] at hstep
      split at hstep
      · rename_i hl
        exact ⟨rfl, hl⟩
      · cases hstep
    | access =>
      cases op with
      | enqueue dest data next => cases hstep
      | dequeue source next =>
        have hne := (reachable_accounted hr source).nonempty hc
        simp only [Network.advance] at hstep
        split at hstep
        · contradiction
        · cases hstep
    | unlock => cases hstep
    | signal => cases hstep
  cases hc : s.call i with
  | none => rfl
  | some cl =>
    obtain ⟨pt, op⟩ := cl
    have hl := (hpast i pt op hc).2
    have howners := (reachable_accounted hr op.target).owners
    rw [hl, State.total] at howners
    -- the owner of the mutex is past its lock
    obtain ⟨j, -, hj⟩ := exists_of_sum_pos (w := fun j => weight Op.owner op.target (s.call j))
      (by rw [howners]; exact Nat.one_pos)
    obtain ⟨pt', op', hc', -, hw⟩ := exists_of_weight_pos hj
    rw [(hpast j pt' op' hc').1] at hw
    exact absurd hw (lt_irrefl 0)

/-- A deadlock is a deadlock of the atomic network. -/
theorem stuck_snapshot (hr : (p.system c).Reachable s) (h : (p.system c).Stuck s) :
    (p.atomic fun k => semInit (c k)).Stuck s.snapshot := by
  have hnone := call_eq_none_of_stuck hr h
  rintro ⟨i, x⟩
  have hstep := h (i, x)
  simp only [Network.system, hnone i] at hstep
  cases hn : p.next i (s.thread i) with
  | finished =>
    simp only [Network.atomic, State.snapshot, hn]
  | compute run =>
    simp only [hn, Option.map_eq_none_iff] at hstep
    simp only [Network.atomic, State.snapshot, hn, hstep, Option.map_none]
  | call op =>
    simp only [hn] at hstep
    have hp : op.permits (s.queue op.target) = 0 := by
      by_contra hp
      rw [if_neg hp] at hstep
      cases hstep
    have hidle := idle_of_calls hr hnone op.target
    cases op with
    | enqueue dest data next =>
      have hlength := hidle.canProduce
      simp only [Op.permits, Op.target] at hp hlength
      have hfull : ¬ (((s.queue dest).queue.length : ℕ∞) < semInit (c dest)) := by
        rw [← hlength, hp, zero_add]
        exact lt_irrefl _
      simp only [Network.atomic, State.snapshot, hn, if_neg hfull]
    | dequeue source next =>
      have hlength := hidle.canConsume
      simp only [Op.permits, Op.target] at hp hlength
      have hempty : (s.queue source).queue = [] :=
        List.eq_nil_of_length_eq_zero (hlength.symm.trans hp)
      simp only [Network.atomic, State.snapshot, hn, hempty]

end Refines

end Steps

end Concurrente.Prodcons
