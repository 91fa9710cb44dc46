import Concurrente.Prodcons.Refinement

/-!
# Potentials of networks

The states of the threads and the data in the queues have weights.  A network whose calls and
computations never gain weight keeps every bound on the sum of all weights, and one whose steps
all lose weight terminates.
-/

namespace Concurrente.Prodcons

variable {ι κ α σ γ χ : Type*}

/-- What a thread in a state weighs and what the data weigh in a queue. -/
structure Weights (ι κ α σ : Type*) where
  thread : ι → σ → ℕ
  data : κ → α → ℕ

namespace Weights

variable (w : Weights ι κ α σ)

/-- The weight of the threads and of what is in these queues. -/
def total [Fintype ι] (queues : Finset κ) (s : Snapshot ι κ α σ γ) : ℕ :=
  ∑ i, w.thread i (s.thread i) + ∑ k ∈ queues, ((s.queue k).map (w.data k)).sum

/-- Every step loses at least `cost`. -/
structure Pays (p : Network ι κ α σ γ χ) (queues : Finset κ) (cost : ℕ) : Prop where
  source_mem : ∀ {i a source next}, p.next i a = .call (.dequeue source next) → source ∈ queues
  enqueue : ∀ {i a dest data next}, p.next i a = .call (.enqueue dest data next) →
    w.thread i next + w.data dest data + cost ≤ w.thread i a
  dequeue : ∀ {i a source next}, p.next i a = .call (.dequeue source next) →
    ∀ data, w.thread i (next data) + cost ≤ w.thread i a + w.data source data
  compute : ∀ {i a run}, p.next i a = .compute run →
    ∀ {x m r}, run x m = some r → w.thread i r.2 + cost ≤ w.thread i a

variable {w} [Fintype ι] {queues : Finset κ} {p : Network ι κ α σ γ χ} {cost : ℕ}

theorem thread_le_total (s : Snapshot ι κ α σ γ) (i : ι) :
    w.thread i (s.thread i) + ∑ k ∈ queues, ((s.queue k).map (w.data k)).sum ≤ w.total queues s :=
  Nat.add_le_add_right
    (weight_le_sum (Finset.mem_univ i) fun j => w.thread j (s.thread j)) _

theorem thread_add_queue_le (s : Snapshot ι κ α σ γ) (i : ι) {k : κ} (hk : k ∈ queues) :
    w.thread i (s.thread i) + ((s.queue k).map (w.data k)).sum ≤ w.total queues s :=
  (Nat.add_le_add_left (weight_le_sum hk fun k => ((s.queue k).map (w.data k)).sum) _).trans
    (thread_le_total s i)

section Steps

variable [DecidableEq ι] [DecidableEq κ] {c : κ → ℕ∞} {s t : Snapshot ι κ α σ γ} {i : ι} {x : χ}

theorem Pays.step (h : w.Pays p queues cost) (ht : (p.atomic c).step s (i, x) = some t) :
    w.total queues t + cost ≤ w.total queues s := by
  have hthread := fun a => sum_update (Finset.mem_univ i) s.thread w.thread a
  rcases Network.atomic_cases ht with ⟨dest, data, next, hn, -, rfl⟩ |
    ⟨source, next, data, rest, hn, hq, rfl⟩ | ⟨run, r, hn, hr, rfl⟩
  · have hpay := h.enqueue hn
    have hmove := hthread next
    have hqueue : ∑ k ∈ queues,
        (((s.push i dest data next).queue k).map (w.data k)).sum ≤
          ∑ k ∈ queues, ((s.queue k).map (w.data k)).sum + w.data dest data := by
      rw [Snapshot.push_queue]
      by_cases hmem : dest ∈ queues
      · have hsum := sum_update hmem s.queue (fun k l => (l.map (w.data k)).sum)
          (s.queue dest ++ [data])
        simp only [List.map_append, List.sum_append, List.map_singleton,
          List.sum_singleton] at hsum
        omega
      · rw [sum_update_ne hmem s.queue fun k l => (l.map (w.data k)).sum]
        exact Nat.le_add_right _ _
    simp only [total, Snapshot.push_thread]
    omega
  · have hpay := h.dequeue hn data
    have hmove := hthread (next data)
    have hsum := sum_update (h.source_mem hn) s.queue (fun k l => (l.map (w.data k)).sum) rest
    simp only [hq, List.map_cons, List.sum_cons] at hsum
    simp only [total, Snapshot.pop_thread, Snapshot.pop_queue]
    omega
  · have hpay := h.compute hn hr
    have hmove := hthread r.2
    simp only [total, Snapshot.compute_thread, Snapshot.compute_queue]
    omega

/-- No reachable state weighs more than the start. -/
theorem Pays.total_le (h : w.Pays p queues cost) (hr : (p.atomic c).Reachable s) :
    w.total queues s ≤ w.total queues (p.atomic c).start := by
  apply System.Reachable.invariant (M := p.atomic c)
    (I := fun s => w.total queues s ≤ w.total queues (p.atomic c).start) le_rfl _ hr
  rintro s ⟨i, x⟩ t ih ht
  have hstep := h.step ht
  omega

theorem total_start : w.total queues (p.atomic c).start = ∑ i, w.thread i (p.start i) := by
  simp [total, Network.atomic]

/-- A queue that gains weight with every message has room for the next one. -/
theorem Pays.length_lt (h : w.Pays p queues cost) (hr : (p.atomic c).Reachable s) {dest : κ}
    {data : α} {next : σ} (hn : p.next i (s.thread i) = .call (.enqueue dest data next))
    (hdest : dest ∈ queues) (hdata : ∀ d, 1 ≤ w.data dest d) :
    (s.queue dest).length < ∑ i, w.thread i (p.start i) := by
  have hlength : (s.queue dest).length ≤ ((s.queue dest).map (w.data dest)).sum := by
    rw [← List.length_map (w.data dest)]
    apply List.length_le_sum_of_one_le
    intro k hk
    obtain ⟨d, -, rfl⟩ := List.mem_map.mp hk
    exact hdata d
  have hone := hdata data
  have hpay := h.enqueue hn
  have hle := thread_add_queue_le (w := w) s i hdest
  have htotal := h.total_le hr
  rw [total_start] at htotal
  omega

/-- The length of a run of the network with semaphores and mutexes: each call is five steps. -/
theorem Pays.length_le {c : κ → ℕ} {l : List (ι × χ)} {s : State ι κ α σ γ}
    (h : w.Pays p queues 1) (hl : (p.system c).run l = some s) :
    l.length ≤ 5 * ∑ i, w.thread i (p.start i) + 2 * Fintype.card ι := by
  have hdecreases : ∀ s a t, (p.system c).Reachable s → (p.system c).step s a = some t →
      5 * w.total queues t.snapshot + t.stages < 5 * w.total queues s.snapshot + s.stages := by
    rintro s ⟨i, x⟩ t hr ht
    rcases snapshot_step hr ht with ⟨hs, hst⟩ | ⟨hs, hst⟩
    · rw [hs]
      omega
    · have hstep := h.step hs
      omega
  have hlength := System.length_add_le_of_run
    (fun s => 5 * w.total queues s.snapshot + s.stages) hdecreases hl
  have hstart : (p.system c).start.snapshot = (p.atomic fun k => c k).start := rfl
  have hstages : (p.system c).start.stages = 2 * Fintype.card ι := by
    simp [State.stages, Network.system, stage, mul_comm]
  simp only [hstart, total_start, hstages] at hlength
  omega

end Steps

end Weights

end Concurrente.Prodcons
