import Concurrente.Iteration
import Concurrente.Team

/-!
# Threads that share memory and mutexes

A thread locks or unlocks a mutex or accesses the shared memory, one atomic step at a
time.  An access that is undefined blocks the thread, as a wait does at a semaphore of
value 0.
-/

namespace Concurrente.Threads

variable {ι μ σ γ : Type*}

/-- What a thread does next. -/
inductive Instr (μ σ γ : Type*) where
  | lock (mutex : μ) (next : σ)
  | unlock (mutex : μ) (next : σ)
  | access (run : γ → Option (γ × σ))
  | finished

/-- The shared memory at the start and what the threads run. -/
structure Code (ι μ σ γ : Type*) where
  memory : γ
  start : ι → σ
  next : ι → σ → Instr μ σ γ

structure State (ι μ σ γ : Type*) where
  memory : γ
  locked : μ → Bool
  thread : ι → σ

section Steps

variable [DecidableEq ι] [DecidableEq μ]

namespace State

variable (s : State ι μ σ γ) (i : ι)

def lock (mutex : μ) (next : σ) : State ι μ σ γ :=
  { s with
    locked := Function.update s.locked mutex true
    thread := Function.update s.thread i next }

def unlock (mutex : μ) (next : σ) : State ι μ σ γ :=
  { s with
    locked := Function.update s.locked mutex false
    thread := Function.update s.thread i next }

def access (r : γ × σ) : State ι μ σ γ :=
  { s with
    memory := r.1
    thread := Function.update s.thread i r.2 }

variable (mutex : μ) (next : σ) (r : γ × σ)

@[simp] theorem lock_memory : (s.lock i mutex next).memory = s.memory := rfl

@[simp] theorem lock_locked :
    (s.lock i mutex next).locked = Function.update s.locked mutex true := rfl

@[simp] theorem lock_thread :
    (s.lock i mutex next).thread = Function.update s.thread i next := rfl

@[simp] theorem unlock_memory : (s.unlock i mutex next).memory = s.memory := rfl

@[simp] theorem unlock_locked :
    (s.unlock i mutex next).locked = Function.update s.locked mutex false := rfl

@[simp] theorem unlock_thread :
    (s.unlock i mutex next).thread = Function.update s.thread i next := rfl

omit [DecidableEq μ]

@[simp] theorem access_memory : (s.access i r).memory = r.1 := rfl

@[simp] theorem access_locked : (s.access i r).locked = s.locked := rfl

@[simp] theorem access_thread :
    (s.access i r).thread = Function.update s.thread i r.2 := rfl

end State

def Code.system (p : Code ι μ σ γ) : System (State ι μ σ γ) ι where
  start := ⟨p.memory, fun _ => false, p.start⟩
  step s i :=
    match p.next i (s.thread i) with
    -- a lock of a locked mutex blocks
    | .lock mutex next => if s.locked mutex then none else some (s.lock i mutex next)
    | .unlock mutex next => some (s.unlock i mutex next)
    | .access run => (run s.memory).map (s.access i)
    | .finished => none

variable {p : Code ι μ σ γ} {s t : State ι μ σ γ} {i : ι}

theorem step_access {run : γ → Option (γ × σ)} {r : γ × σ}
    (h : p.next i (s.thread i) = .access run) (hr : run s.memory = some r) :
    p.system.step s i = some (s.access i r) := by
  simp only [Code.system, h, hr, Option.map_some]

theorem step_cases (h : p.system.step s i = some t) :
    (∃ m n, p.next i (s.thread i) = .lock m n ∧ s.locked m = false ∧ t = s.lock i m n) ∨
    (∃ m n, p.next i (s.thread i) = .unlock m n ∧ t = s.unlock i m n) ∨
    (∃ run r, p.next i (s.thread i) = .access run ∧ run s.memory = some r ∧
      t = s.access i r) := by
  simp only [Code.system] at h
  split at h
  · rename_i m n hn
    split at h
    · cases h
    · rename_i hl
      exact .inl ⟨m, n, hn, Bool.not_eq_true _ ▸ hl, (Option.some.inj h).symm⟩
  · rename_i m n hn
    exact .inr (.inl ⟨m, n, hn, (Option.some.inj h).symm⟩)
  · rename_i run hn
    obtain ⟨r, hr, ht⟩ := Option.map_eq_some_iff.mp h
    exact .inr (.inr ⟨run, r, hn, hr, ht.symm⟩)
  · cases h

/-- Without mutexes every step is an access. -/
theorem access_of_step [IsEmpty μ] (h : p.system.step s i = some t) :
    ∃ run r, p.next i (s.thread i) = .access run ∧ run s.memory = some r ∧ t = s.access i r := by
  rcases step_cases h with ⟨m, -, -, -, -⟩ | ⟨m, -, -, -⟩ | haccess
  · exact isEmptyElim m
  · exact isEmptyElim m
  · exact haccess

/-- An invariant of the memory and the threads that no lock or unlock disturbs is proved by
the accesses alone. -/
theorem reachable_invariant {I : γ → (ι → σ) → Prop} (h0 : I p.memory p.start)
    (hmove : ∀ s : State ι μ σ γ, ∀ i m n, p.system.Reachable s →
      p.next i (s.thread i) = .lock m n ∨ p.next i (s.thread i) = .unlock m n →
      I s.memory s.thread → I s.memory (Function.update s.thread i n))
    (haccess : ∀ s : State ι μ σ γ, ∀ i run r, p.system.Reachable s →
      p.next i (s.thread i) = .access run → run s.memory = some r →
      I s.memory s.thread → I r.1 (Function.update s.thread i r.2))
    (h : p.system.Reachable s) : I s.memory s.thread := by
  apply System.Reachable.invariant' (I := fun s : State ι μ σ γ => I s.memory s.thread) h0 _ h
  intro s i t hr hI ht
  rcases step_cases ht with ⟨m, n, hn, -, rfl⟩ | ⟨m, n, hn, rfl⟩ | ⟨run, r, hn, hrun, rfl⟩
  · exact hmove s i m n hr (.inl hn) hI
  · exact hmove s i m n hr (.inr hn) hI
  · exact haccess s i run r hr hn hrun hI

/-- `owner` tells which mutexes a thread holds.  A thread that holds one neither stops nor
blocks nor locks another one. -/
structure Owns (p : Code ι μ σ γ) (owner : μ → σ → ℕ) : Prop where
  start : ∀ m i, owner m (p.start i) = 0
  lock : ∀ i a m n, p.next i a = .lock m n → ∀ k, owner k n = if k = m then 1 else 0
  unlock : ∀ i a m n, p.next i a = .unlock m n →
    ∀ k, owner k n = 0 ∧ owner k a = if k = m then 1 else 0
  access : ∀ i a run g r, p.next i a = .access run → run g = some r →
    ∀ k, owner k r.2 = owner k a
  critical : ∀ i a k, owner k a ≠ 0 → (∃ m n, p.next i a = .unlock m n) ∨
    ∃ run, p.next i a = .access run ∧ ∀ g, run g ≠ none

section Ownership

variable {owner : μ → σ → ℕ}

omit [DecidableEq ι] in
theorem Owns.lock_before (h : Owns p owner) {a : σ} {m : μ} {n : σ}
    (hn : p.next i a = .lock m n) (k : μ) : owner k a = 0 := by
  by_contra hk
  rcases h.critical i a k hk with ⟨m', n', hn'⟩ | ⟨run, hn', -⟩ <;>
    cases hn.symm.trans hn'

variable [Fintype ι]

/-- A locked mutex has one owner, the others have none. -/
theorem reachable_owners (hO : Owns p owner) (h : p.system.Reachable s) (k : μ) :
    ∑ i, owner k (s.thread i) = (s.locked k).toNat := by
  apply System.Reachable.invariant
    (I := fun s : State ι μ σ γ => ∑ i, owner k (s.thread i) = (s.locked k).toNat) _ _ h
  · exact Finset.sum_eq_zero fun i _ => hO.start k i
  · intro s i t I ht
    -- a lock adds its thread to the owners of one mutex, an unlock takes it away, and an access
    -- leaves the owners of every mutex alone
    rcases step_cases ht with ⟨m, n, hn, hl, rfl⟩ | ⟨m, n, hn, rfl⟩ | ⟨run, r, hn, hr, rfl⟩
    · have hsum := sum_update (Finset.mem_univ i) s.thread (fun _ => owner k) n
      rw [hO.lock_before hn k, hO.lock i _ m n hn k] at hsum
      rw [State.lock_thread, State.lock_locked]
      by_cases hk : k = m
      · subst hk
        rw [hl] at I
        rw [Function.update_self]
        rw [if_pos rfl] at hsum
        exact hsum.trans (by rw [I]; rfl)
      · rw [Function.update_of_ne hk, ← I]
        rw [if_neg hk] at hsum
        exact hsum
    · have hsum := sum_update (Finset.mem_univ i) s.thread (fun _ => owner k) n
      obtain ⟨hnew, hold⟩ := hO.unlock i _ m n hn k
      rw [hnew, hold] at hsum
      rw [State.unlock_thread, State.unlock_locked]
      by_cases hk : k = m
      · subst hk
        rw [Function.update_self]
        rw [if_pos rfl] at hsum
        have := Bool.toNat_le (s.locked k)
        simp only [Bool.toNat_false]
        omega
      · rw [Function.update_of_ne hk, ← I]
        rw [if_neg hk] at hsum
        exact hsum
    · have hsum := sum_update (Finset.mem_univ i) s.thread (fun _ => owner k) r.2
      rw [hO.access i _ run _ r hn hr k] at hsum
      rw [State.access_thread, State.access_locked, ← I]
      exact Nat.add_right_cancel hsum

theorem mutual_exclusion (hO : Owns p owner) (h : p.system.Reachable s) {k : μ} {i j : ι}
    (hi : owner k (s.thread i) ≠ 0) (hj : owner k (s.thread j) ≠ 0) : i = j := by
  have hsum := reachable_owners hO h k
  have hle := Bool.toNat_le (s.locked k)
  -- two owners would count twice, but the sum is at most 1
  apply eq_of_sum_le_one _ (hsum.trans_le hle) (Finset.mem_univ i) (Finset.mem_univ j) hi hj

theorem owner_eq_zero (hO : Owns p owner) (h : p.system.Reachable s) {k : μ}
    (hi : owner k (s.thread i) ≠ 0) (j : ι) (hj : j ≠ i) : owner k (s.thread j) = 0 := by
  by_contra howner
  exact hj (mutual_exclusion hO h howner hi)

/-- In a deadlock no thread holds a mutex or waits for one. -/
theorem stuck_cases (hO : Owns p owner) (h : p.system.Reachable s) (hs : p.system.Stuck s)
    (i : ι) : p.next i (s.thread i) = .finished ∨
      ∃ run, p.next i (s.thread i) = .access run ∧ run s.memory = none := by
  have hfree : ∀ j k, owner k (s.thread j) = 0 := by
    intro j k
    by_contra hk
    have hj := hs j
    rcases hO.critical j _ k hk with ⟨m, n, hn⟩ | ⟨run, hn, hr⟩
    · simp only [Code.system, hn, reduceCtorEq] at hj
    · simp only [Code.system, hn, Option.map_eq_none_iff] at hj
      exact hr _ hj
  -- a locked mutex would have an owner
  have hunlocked : ∀ k, s.locked k = false := by
    intro k
    have hsum := reachable_owners hO h k
    rw [Finset.sum_eq_zero fun j _ => hfree j k] at hsum
    cases hl : s.locked k with
    | false => rfl
    | true =>
      rw [hl] at hsum
      cases hsum
  have hi := hs i
  cases hn : p.next i (s.thread i) with
  | finished => exact .inl rfl
  | lock m n => simp [Code.system, hn, hunlocked] at hi
  | unlock m n => simp [Code.system, hn] at hi
  | access run =>
    simp only [Code.system, hn, Option.map_eq_none_iff] at hi
    exact .inr ⟨run, rfl, hi⟩

end Ownership

section Ends

variable [Fintype ι] (w : σ → ℕ)

theorem sum_lt_of_step (h : p.system.step s i = some t)
    (hw : w (t.thread i) < w (s.thread i)) :
    ∑ j, w (t.thread j) < ∑ j, w (s.thread j) := by
  have hthread : t.thread = Function.update s.thread i (t.thread i) := by
    rcases step_cases h with ⟨m, n, -, -, rfl⟩ | ⟨m, n, -, rfl⟩ | ⟨run, r, -, -, rfl⟩ <;> simp
  have hsum := sum_move s.thread i w (t.thread i)
  rw [← hthread] at hsum
  omega

variable (hw : ∀ s i t, p.system.Reachable s → p.system.step s i = some t →
  w (t.thread i) < w (s.thread i))

include hw

/-- Threads that come closer to their end with every step all end. -/
theorem terminates_of_left : p.system.Terminates :=
  ⟨fun s => ∑ i, w (s.thread i), fun s i t hr h => sum_lt_of_step w h (hw s i t hr h)⟩

theorem length_le_of_left {c : ℕ} (hc : ∀ i, w (p.start i) ≤ c) {l : List ι}
    (h : p.system.run l = some s) : l.length ≤ Fintype.card ι * c := by
  have hrun := System.length_add_le_of_run (fun s => ∑ i, w (s.thread i))
    (fun s i t hr h => sum_lt_of_step w h (hw s i t hr h)) h
  have hstart : ∑ i, w (p.start i) ≤ Fintype.card ι * c :=
    Finset.sum_le_card_nsmul _ _ c fun i _ => hc i
  change l.length + _ ≤ ∑ i, w (p.start i) at hrun
  omega

end Ends

end Steps

end Concurrente.Threads
