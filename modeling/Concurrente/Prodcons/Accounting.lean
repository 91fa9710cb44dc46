import Concurrente.Prodcons.Queue

/-!
# Accounting for the calls in progress

Every call that is past its `wait` and not past its `signal` keeps either a product
or a free place from the semaphores.  The sums over the threads of what they keep,
together with the semaphores, account for the contents and for the capacity.
-/

namespace Concurrente.Prodcons

variable {ι κ α σ γ χ : Type*}

/-- A product that the semaphores do not count: pushed and not signalled, or waited for and
not popped. -/
def Op.product : Op κ α σ → Point → ℕ
  | enqueue _ _ _, .unlock | enqueue _ _ _, .signal => 1
  | dequeue _ _, .lock | dequeue _ _, .access => 1
  | _, _ => 0

/-- A free place that the semaphores do not count. -/
def Op.place : Op κ α σ → Point → ℕ
  | enqueue _ _ _, .lock | enqueue _ _ _, .access => 1
  | dequeue _ _, .unlock | dequeue _ _, .signal => 1
  | _, _ => 0

def Op.owner : Op κ α σ → Point → ℕ
  | _, .access | _, .unlock => 1
  | _, .lock | _, .signal => 0

theorem Op.product_add_place (op : Op κ α σ) (pt : Point) : op.product pt + op.place pt = 1 := by
  cases op <;> cases pt <;> rfl

section Weights

variable [DecidableEq κ]

def weight (w : Op κ α σ → Point → ℕ) (k : κ) : Option (Point × Op κ α σ) → ℕ
  | none => 0
  | some (pt, op) => if op.target = k then w op pt else 0

variable {w : Op κ α σ → Point → ℕ} {k : κ} {op : Op κ α σ} {pt : Point}

@[simp] theorem weight_none : weight w k none = 0 := rfl

@[simp] theorem weight_self : weight w op.target (some (pt, op)) = w op pt := if_pos rfl

theorem weight_ne (h : op.target ≠ k) : weight w k (some (pt, op)) = 0 := if_neg h

theorem exists_of_weight_pos {c : Option (Point × Op κ α σ)} (h : 0 < weight w k c) :
    ∃ pt op, c = some (pt, op) ∧ op.target = k ∧ 0 < w op pt := by
  cases c with
  | none => exact absurd h (lt_irrefl 0)
  | some c =>
    obtain ⟨pt, op⟩ := c
    by_cases ho : op.target = k
    · subst ho
      exact ⟨pt, op, rfl, rfl, by simpa using h⟩
    · rw [weight_ne ho] at h
      exact absurd h (lt_irrefl 0)

def State.total [Fintype ι] (s : State ι κ α σ γ) (w : Op κ α σ → Point → ℕ) (k : κ) : ℕ :=
  ∑ i, weight w k (s.call i)

end Weights

/-- The threads between the wait and the signal of a call on queue `k`. -/
def State.inProgress [Fintype ι] [DecidableEq κ] (s : State ι κ α σ γ) (k : κ) : Finset ι :=
  Finset.univ.filter fun i => (s.call i).map (fun c => c.2.target) = some k

variable [Fintype ι] [DecidableEq κ]

theorem State.card_inProgress (s : State ι κ α σ γ) (k : κ) :
    (s.inProgress k).card = s.total Op.product k + s.total Op.place k := by
  rw [inProgress, Finset.card_filter, total, total, ← Finset.sum_add_distrib]
  apply Finset.sum_congr rfl
  intro i _
  cases s.call i with
  | none => rfl
  | some c =>
    obtain ⟨pt, op⟩ := c
    by_cases ho : op.target = k
    · subst ho
      simp [Op.product_add_place]
    · simp [weight_ne ho, ho]

/-- The books of one queue. -/
structure Accounted (c : ℕ) (s : State ι κ α σ γ) (k : κ) : Prop where
  products : (s.queue k).queue.length = (s.queue k).canConsume + s.total Op.product k
  places : (s.queue k).canProduce + (s.queue k).queue.length + s.total Op.place k = c
  owners : s.total Op.owner k = (s.queue k).locked.toNat
  order : s.enqueued k = s.dequeued k ++ (s.queue k).queue

section Moves

variable [DecidableEq ι] {s t : State ι κ α σ γ} {i : ι} {c : ℕ} {k : κ}

theorem total_update {call : Option (Point × Op κ α σ)}
    (h : t.call = Function.update s.call i call) (w : Op κ α σ → Point → ℕ) (k : κ) :
    t.total w k + weight w k (s.call i) = s.total w k + weight w k call := by
  rw [State.total, State.total, h]
  exact sum_update (Finset.mem_univ i) s.call (fun _ => weight w k) call

theorem Accounted.of_target {c : κ → ℕ} (k₀ : κ) {call : Option (Point × Op κ α σ)}
    (I : ∀ k, Accounted (c k) s k) (h : t.call = Function.update s.call i call)
    (hs : ∀ cl ∈ s.call i, cl.2.target = k₀) (ht : ∀ cl ∈ call, cl.2.target = k₀)
    (hne : ∀ k, k ≠ k₀ → t.queue k = s.queue k ∧ t.enqueued k = s.enqueued k ∧
      t.dequeued k = s.dequeued k)
    (hk : Accounted (c k₀) t k₀) (k : κ) : Accounted (c k) t k := by
  by_cases hk₀ : k = k₀
  · subst hk₀
    exact hk
  -- the call counts for no queue but its own
  have hzero : ∀ (w : Op κ α σ → Point → ℕ) (cl : Option (Point × Op κ α σ)),
      (∀ c ∈ cl, c.2.target = k₀) → weight w k cl = 0 := by
    intro w cl hcl
    cases cl with
    | none => rfl
    | some c => exact weight_ne fun ho => hk₀ (ho.symm.trans (hcl c rfl))
  have htotal : ∀ w, t.total w k = s.total w k := by
    intro w
    have := total_update h w k
    rw [hzero w _ hs, hzero w _ ht] at this
    omega
  obtain ⟨hq, he, hd⟩ := hne k hk₀
  constructor
  · rw [hq, htotal, (I k).products]
  · rw [hq, htotal, (I k).places]
  · rw [hq, htotal, (I k).owners]
  · rw [hq, he, hd, (I k).order]

end Moves

section Steps

variable [DecidableEq ι] {p : Network ι κ α σ γ χ} {c : κ → ℕ} {s t : State ι κ α σ γ} {i : ι}
  {x : χ}

/-- The steps of a call that leave the data alone. -/
theorem Accounted.move {op : Op κ α σ} {q : Queue α} {call : Option (Point × Op κ α σ)}
    (I : ∀ k, Accounted (c k) s k)
    (hs : ∀ cl ∈ s.call i, cl.2.target = op.target) (ht : ∀ cl ∈ call, cl.2.target = op.target)
    (hq : q.queue = (s.queue op.target).queue)
    (hproducts : q.canConsume + weight Op.product op.target call =
      (s.queue op.target).canConsume + weight Op.product op.target (s.call i))
    (hplaces : q.canProduce + weight Op.place op.target call =
      (s.queue op.target).canProduce + weight Op.place op.target (s.call i))
    (howners : (s.queue op.target).locked.toNat + weight Op.owner op.target call =
      q.locked.toNat + weight Op.owner op.target (s.call i)) :
    ∀ k, Accounted (c k) (s.move i op q call) k := by
  apply Accounted.of_target (i := i) op.target I rfl hs ht
  · intro k hk
    exact ⟨Function.update_of_ne hk _ _, rfl, rfl⟩
  · have hself : (s.move i op q call).queue op.target = q := Function.update_self ..
    have htotal := total_update (s := s) (t := s.move i op q call) (i := i) rfl
    have J := I op.target
    have hlen : q.queue.length = (s.queue op.target).queue.length := congrArg _ hq
    have hp := htotal Op.product op.target
    have hr := htotal Op.place op.target
    have ho := htotal Op.owner op.target
    have := J.products
    have := J.places
    have := J.owners
    constructor
    · rw [hself]
      omega
    · rw [hself]
      omega
    · rw [hself]
      omega
    · rw [hself, hq]
      exact J.order

theorem Accounted.push {dest : κ} {data : α} {next : σ} (I : ∀ k, Accounted (c k) s k)
    (hc : s.call i = some (.access, .enqueue dest data next)) :
    ∀ k, Accounted (c k) (s.push i dest data next) k := by
  apply Accounted.of_target (i := i) dest I rfl
  · simp [hc, Op.target]
  · simp [Op.target]
  · intro k hk
    exact ⟨Function.update_of_ne hk _ _, Function.update_of_ne hk _ _, rfl⟩
  · have htotal := total_update (s := s) (t := s.push i dest data next) (i := i) rfl
    rw [hc] at htotal
    have hw : ∀ (w : Op κ α σ → Point → ℕ) pt,
        weight w dest (some (pt, .enqueue dest data next)) = w (.enqueue dest data next) pt :=
      fun w pt => weight_self
    have hp := htotal Op.product dest
    have hr := htotal Op.place dest
    have ho := htotal Op.owner dest
    simp only [hw, Op.product, Op.place, Op.owner] at hp hr ho
    have hself : (s.push i dest data next).queue dest =
      { s.queue dest with queue := (s.queue dest).queue ++ [data] } := Function.update_self ..
    have := (I dest).products
    have := (I dest).places
    have := (I dest).owners
    constructor
    · rw [hself, List.length_append, List.length_singleton]
      dsimp only
      omega
    · rw [hself, List.length_append, List.length_singleton]
      dsimp only
      omega
    · rw [hself]
      dsimp only
      omega
    · have he : (s.push i dest data next).enqueued dest = s.enqueued dest ++ [data] :=
        Function.update_self ..
      rw [hself, he, (I dest).order, List.append_assoc]
      rfl

theorem Accounted.pop {source : κ} {next : α → σ} {data : α} {rest : List α}
    (I : ∀ k, Accounted (c k) s k) (hc : s.call i = some (.access, .dequeue source next))
    (hq : (s.queue source).queue = data :: rest) :
    ∀ k, Accounted (c k) (s.pop i source next data rest) k := by
  apply Accounted.of_target (i := i) source I rfl
  · simp [hc, Op.target]
  · simp [Op.target]
  · intro k hk
    exact ⟨Function.update_of_ne hk _ _, rfl, Function.update_of_ne hk _ _⟩
  · have htotal := total_update (s := s) (t := s.pop i source next data rest) (i := i) rfl
    rw [hc] at htotal
    have hw : ∀ (w : Op κ α σ → Point → ℕ) pt,
        weight w source (some (pt, .dequeue source next)) = w (.dequeue source next) pt :=
      fun w pt => weight_self
    have hp := htotal Op.product source
    have hr := htotal Op.place source
    have ho := htotal Op.owner source
    simp only [hw, Op.product, Op.place, Op.owner] at hp hr ho
    have hself : (s.pop i source next data rest).queue source =
      { s.queue source with queue := rest } := Function.update_self ..
    have hlen : (s.queue source).queue.length = rest.length + 1 := by rw [hq]; rfl
    have := (I source).products
    have := (I source).places
    have := (I source).owners
    constructor
    · rw [hself]
      dsimp only
      omega
    · rw [hself]
      dsimp only
      omega
    · rw [hself]
      dsimp only
      omega
    · have hd : (s.pop i source next data rest).dequeued source = s.dequeued source ++ [data] :=
        Function.update_self ..
      have he := (I source).order
      rw [hq] at he
      rw [hself, hd, List.append_assoc]
      exact he

theorem Accounted.wait {op : Op κ α σ} (I : ∀ k, Accounted (c k) s k) (hc : s.call i = none)
    (hp : 0 < op.permits (s.queue op.target)) : ∀ k, Accounted (c k) (s.wait i op) k := by
  refine Accounted.move I (by simp [hc]) (by simp) ?_ ?_ ?_ ?_
  · cases op <;> rfl
  · rw [hc, weight_none, weight_self]
    cases op with
    | enqueue dest data next => rfl
    | dequeue source next =>
      simp only [Op.permits, Op.wait, Op.product] at hp ⊢
      omega
  · rw [hc, weight_none, weight_self]
    cases op with
    | enqueue dest data next =>
      simp only [Op.permits, Op.wait, Op.place] at hp ⊢
      omega
    | dequeue source next => rfl
  · rw [hc, weight_none, weight_self]
    cases op <;> rfl

theorem Accounted.lock {op : Op κ α σ} (I : ∀ k, Accounted (c k) s k)
    (hc : s.call i = some (.lock, op)) (hl : (s.queue op.target).locked = false) :
    ∀ k, Accounted (c k) (s.lock i op) k := by
  refine Accounted.move I (by simp [hc]) (by simp) rfl ?_ ?_ ?_
  · rw [hc, weight_self, weight_self]
    cases op <;> rfl
  · rw [hc, weight_self, weight_self]
    cases op <;> rfl
  · rw [hc, weight_self, weight_self, hl]
    rfl

omit [DecidableEq ι] in
theorem Accounted.locked {op : Op κ α σ} (I : ∀ k, Accounted (c k) s k)
    (hc : s.call i = some (.unlock, op)) : (s.queue op.target).locked = true := by
  have hle := weight_le_sum (Finset.mem_univ i) (fun j => weight Op.owner op.target (s.call j))
  have howners := (I op.target).owners
  rw [hc, weight_self] at hle
  rw [State.total] at howners
  cases hb : (s.queue op.target).locked with
  | true => rfl
  | false =>
    rw [hb] at howners
    simp only [Op.owner, Bool.toNat_false] at hle howners
    omega

theorem Accounted.unlock {op : Op κ α σ} (I : ∀ k, Accounted (c k) s k)
    (hc : s.call i = some (.unlock, op)) : ∀ k, Accounted (c k) (s.unlock i op) k := by
  have hl := Accounted.locked I hc
  refine Accounted.move I (by simp [hc]) (by simp) rfl ?_ ?_ ?_
  · rw [hc, weight_self, weight_self]
    cases op <;> rfl
  · rw [hc, weight_self, weight_self]
    cases op <;> rfl
  · rw [hc, weight_self, weight_self, hl]
    rfl

theorem Accounted.signal {op : Op κ α σ} (I : ∀ k, Accounted (c k) s k)
    (hc : s.call i = some (.signal, op)) : ∀ k, Accounted (c k) (s.signal i op) k := by
  refine Accounted.move I (by simp [hc]) (by simp) ?_ ?_ ?_ ?_
  · cases op <;> rfl
  · rw [hc, weight_none, weight_self]
    cases op <;> simp only [Op.signal, Op.product]
  · rw [hc, weight_none, weight_self]
    cases op <;> simp only [Op.signal, Op.place]
  · rw [hc, weight_none, weight_self]
    cases op <;> rfl

theorem accounted_step (I : ∀ k, Accounted (c k) s k)
    (h : (p.system c).step s (i, x) = some t) : ∀ k, Accounted (c k) t k := by
  rcases Network.step_cases h with ⟨op, hc, -, hp, rfl⟩ | ⟨run, r, hc, -, -, rfl⟩ |
    ⟨op, hc, hl, rfl⟩ | ⟨dest, data, next, hc, rfl⟩ | ⟨source, next, data, rest, hc, hq, rfl⟩ |
    ⟨op, hc, rfl⟩ | ⟨op, hc, rfl⟩
  · exact Accounted.wait I hc hp
  · intro k
    exact ⟨(I k).products, (I k).places, (I k).owners, (I k).order⟩
  · exact Accounted.lock I hc hl
  · exact Accounted.push I hc
  · exact Accounted.pop I hc hq
  · exact Accounted.unlock I hc
  · exact Accounted.signal I hc

theorem reachable_accounted (h : (p.system c).Reachable s) (k : κ) :
    Accounted (semInit (c k)) s k := by
  apply System.Reachable.invariant (I := fun s => ∀ k, Accounted (semInit (c k)) s k) _ _ h
  · intro k
    constructor <;> simp [Network.system, Queue.create, semInit, State.total]
  · rintro s ⟨i, x⟩ t I ht
    exact accounted_step I ht

omit [DecidableEq ι] in
theorem Accounted.nonempty {places : ℕ} {k : κ} {next : α → σ} (I : Accounted places s k)
    (h : s.call i = some (.access, .dequeue k next)) : (s.queue k).queue ≠ [] := by
  have hle := weight_le_sum (Finset.mem_univ i) (fun j => weight Op.product k (s.call j))
  have hw : weight Op.product k (s.call i) = 1 := by
    rw [h]
    exact weight_self
  have := I.products
  rw [hw] at hle
  rw [State.total] at this
  apply List.ne_nil_of_length_pos
  omega

/-- In every run the queues keep their capacities, their semaphores and their order, and are never
popped while they are empty. -/
def QueueSafe (p : Network ι κ α σ γ χ) (c : κ → ℕ) : Prop :=
  ∀ s, (p.system c).Reachable s → ∀ k,
    (∀ i next, s.call i = some (.access, .dequeue k next) → (s.queue k).queue ≠ []) ∧
    (s.queue k).queue.length ≤ c k ∧
    (s.queue k).canProduce + (s.queue k).canConsume + (s.inProgress k).card = c k ∧
    s.dequeued k <+: s.enqueued k

theorem queueSafe_of_le (hc : ∀ k, c k ≤ semValueMax) : QueueSafe p c := by
  intro s h k
  have I := reachable_accounted h k
  rw [semInit_eq_iff.mpr (hc k)] at I
  have hcard := s.card_inProgress k
  have := I.products
  have := I.places
  refine ⟨fun i next => I.nonempty, by omega, by omega, ?_⟩
  rw [I.order]
  exact List.prefix_append _ _

/-- At the start nobody is in a call, so the semaphore has to have the whole capacity. -/
theorem QueueSafe.le (h : QueueSafe p c) (k : κ) : c k ≤ semValueMax := by
  obtain ⟨-, -, hcapacity, -⟩ := h _ System.Reachable.start k
  simp only [Network.system, Queue.create, State.inProgress, Option.map_none, reduceCtorEq,
    Finset.filter_false, Finset.card_empty] at hcapacity
  exact semInit_eq_iff.mp hcapacity

/-- The queues of any threads, whatever they enqueue and dequeue, keep their promises exactly when
their semaphores can be initialised with the capacities. -/
theorem queue_safe_iff (p : Network ι κ α σ γ χ) (c : κ → ℕ) :
    QueueSafe p c ↔ ∀ k, c k ≤ semValueMax :=
  ⟨QueueSafe.le, queueSafe_of_le⟩

end Steps

/-- One thread enqueues a number and another one dequeues it. -/
def handOver : Network Bool Unit ℕ ℕ Unit Unit where
  memory := ()
  start _ := 0
  next i n :=
    match i, n with
    | false, 0 => .call (.enqueue () 7 1)
    | true, 0 => .call (.dequeue () id)
    | _, _ => .finished

/-- `sem_init` fails for the first capacity beyond `SEM_VALUE_MAX`, and the producer waits at a
queue with no place. -/
theorem not_queueSafe_handOver : ¬ QueueSafe handOver (fun _ => 2 ^ 31) ∧
    (handOver.system fun _ => 2 ^ 31).step (handOver.system fun _ => 2 ^ 31).start (false, ()) =
      none :=
  ⟨fun h => absurd (h.le ()) (by decide), rfl⟩

end Concurrente.Prodcons
