import Concurrente.ProdConsUnbound.Program
import Concurrente.Integers

/-!
# Every unit of prod_cons_unbound is consumed once

One invariant relates the two counters, the semaphore and the queue to the numbers of
threads that stand between two accesses.
-/

namespace Concurrente.ProdConsUnbound

open Threads

variable {cfg : Config}

namespace Pc

/-- A producer that has taken unit `u` and not appended it. -/
def carries (u : ℕ) : Pc → ℕ
  | unlockNextUnit myUnit | enqueue myUnit | append myUnit => if myUnit = u then 1 else 0
  | _ => 0

/-- A producer that has taken any unit and not appended it. -/
def taken : Pc → ℕ
  | unlockNextUnit _ | enqueue _ | append _ => 1
  | _ => 0

/-- A producer that has appended a unit and not signalled it. -/
def signalling : Pc → ℕ
  | unlockEnqueue | signal => 1
  | _ => 0

/-- A consumer that has passed its wait and not removed a unit. -/
def passed : Pc → ℕ
  | dequeue | removeFirst => 1
  | _ => 0

/-- A consumer that has claimed a unit and not removed it. -/
def claimed : Pc → ℕ
  | unlockConsumedCount | wait | dequeue | removeFirst => 1
  | _ => 0

/-- A thread of `produce`, which leaves its loop when all units are taken. -/
def Producing (nextUnit unitCount : ℕ) : Pc → Prop
  | lockNextUnit | takeUnit | unlockNextUnit _ | enqueue _ | append _ | unlockEnqueue
  | signal => True
  | breakProduce | produced => nextUnit = unitCount
  | _ => False

/-- A thread of `consume`, which leaves its loop when all units are claimed. -/
def Consuming (consumedCount unitCount : ℕ) : Pc → Prop
  | lockConsumedCount | claim | unlockConsumedCount | wait | dequeue | removeFirst => True
  | unlockDequeue value => value ≠ none
  | breakConsume | consumed => consumedCount = unitCount
  | _ => False

/-- The same for all that the invariant asks. -/
structure Same (pc pc' : Pc) : Prop where
  carries : ∀ u, pc'.carries u = pc.carries u
  taken : pc'.taken = pc.taken
  signalling : pc'.signalling = pc.signalling
  passed : pc'.passed = pc.passed
  claimed : pc'.claimed = pc.claimed
  producing : ∀ nextUnit unitCount, pc.Producing nextUnit unitCount →
    pc'.Producing nextUnit unitCount
  consuming : ∀ consumedCount unitCount, pc.Consuming consumedCount unitCount →
    pc'.Consuming consumedCount unitCount

end Pc

theorem same_of_move {i : Thread cfg} {pc n : Pc} {m : Mutex}
    (h : next cfg i pc = .lock m n ∨ next cfg i pc = .unlock m n) : pc.Same n := by
  cases pc <;> rcases h with h | h <;> cases h <;>
    refine ⟨fun _ => rfl, rfl, rfl, rfl, rfl, fun _ _ h => ?_, fun _ _ h => ?_⟩ <;>
    first | exact h | trivial

/-- What the counters, the semaphore and the queue say about the threads. -/
structure Accounted (cfg : Config) (m : Simulation) (thread : Thread cfg → Pc) : Prop where
  nextUnit_le : m.nextUnit ≤ cfg.unitCount
  consumedCount_le : m.consumedCount ≤ cfg.unitCount
  order : m.enqueued = m.dequeued ++ m.queue
  queued : m.canConsume + ∑ i, (thread i).passed + ∑ i, (thread i).signalling = m.queue.length
  nextUnit : ∑ i, (thread i).taken + m.enqueued.length = m.nextUnit
  consumedCount : ∑ i, (thread i).claimed + m.dequeued.length = m.consumedCount
  units : ∀ u, ∑ i, (thread i).carries u + m.enqueued.count u =
    if 1 ≤ u ∧ u ≤ m.nextUnit then 1 else 0
  producing : ∀ k, (thread (.inl k)).Producing m.nextUnit cfg.unitCount
  consuming : ∀ k, (thread (.inr k)).Consuming m.consumedCount cfg.unitCount

section Steps

variable {m : Simulation} {thread : Thread cfg → Pc} {i : Thread cfg}

theorem Pc.Producing.take {a b : ℕ} (h : a < cfg.unitCount) (pc : Pc)
    (hpc : pc.Producing a cfg.unitCount) : pc.Producing b cfg.unitCount := by
  cases pc <;> first | exact hpc | exact absurd hpc h.ne

theorem Pc.Consuming.claim {a b : ℕ} (h : a < cfg.unitCount) (pc : Pc)
    (hpc : pc.Consuming a cfg.unitCount) : pc.Consuming b cfg.unitCount := by
  cases pc <;> first | exact hpc | exact absurd hpc h.ne

theorem Accounted.replace (I : Accounted cfg m thread) {n : Pc}
    (hcarries : ∀ u, n.carries u = (thread i).carries u) (htaken : n.taken = (thread i).taken)
    (hsignalling : n.signalling = (thread i).signalling) (hpassed : n.passed = (thread i).passed)
    (hclaimed : n.claimed = (thread i).claimed)
    (hproducing : (thread i).Producing m.nextUnit cfg.unitCount →
      n.Producing m.nextUnit cfg.unitCount)
    (hconsuming : (thread i).Consuming m.consumedCount cfg.unitCount →
      n.Consuming m.consumedCount cfg.unitCount) :
    Accounted cfg m (Function.update thread i n) where
  nextUnit_le := I.nextUnit_le
  consumedCount_le := I.consumedCount_le
  order := I.order
  queued := by
    rw [sum_same hpassed, sum_same hsignalling]
    exact I.queued
  nextUnit := by
    rw [sum_same htaken]
    exact I.nextUnit
  consumedCount := by
    rw [sum_same hclaimed]
    exact I.consumedCount
  units u := by
    rw [sum_same (hcarries u)]
    exact I.units u
  producing := forall_update_mono I.producing (fun _ h => h) hproducing
  consuming := forall_update_mono I.consuming (fun _ h => h) hconsuming

theorem Accounted.move (I : Accounted cfg m thread) {n : Pc} (h : (thread i).Same n) :
    Accounted cfg m (Function.update thread i n) :=
  I.replace h.carries h.taken h.signalling h.passed h.claimed (h.producing _ _)
    (h.consuming _ _)

theorem Accounted.takeUnit (I : Accounted cfg m thread) (h : thread i = .takeUnit) :
    Accounted cfg (m.takeUnit cfg.unitCount).1
      (Function.update thread i (m.takeUnit cfg.unitCount).2) := by
  have hconsuming : ¬ (thread i).Consuming m.consumedCount cfg.unitCount := by
    rw [h]
    exact not_false
  unfold Simulation.takeUnit
  split
  · rename_i hlt
    have hmod : (m.nextUnit + 1) % 2 ^ 64 = m.nextUnit + 1 :=
      Nat.mod_eq_of_lt (by have := cfg.unitCount_lt; omega)
    dsimp only
    rw [hmod]
    refine ⟨hlt, I.consumedCount_le, I.order, ?_, ?_, ?_, fun u => ?_,
      forall_update_mono I.producing (Pc.Producing.take hlt) (fun _ => trivial),
      forall_update_mono I.consuming (fun _ h => h) (fun hc => absurd hc hconsuming)⟩
    · rw [sum_same (w := Pc.passed) (by rw [h]; rfl),
        sum_same (w := Pc.signalling) (by rw [h]; rfl)]
      exact I.queued
    · rw [sum_enter (w := Pc.taken) (by rw [h]; rfl) rfl, ← I.nextUnit]
      exact Nat.add_right_comm _ _ _
    · rw [sum_same (w := Pc.claimed) (by rw [h]; rfl)]
      exact I.consumedCount
    · have hunits := I.units u
      dsimp only
      by_cases hu : m.nextUnit + 1 = u
      · have hsum : ∑ j, (Function.update thread i (.unlockNextUnit (m.nextUnit + 1)) j).carries u =
          ∑ j, (thread j).carries u + 1 := sum_enter (by rw [h]; rfl) (if_pos hu)
        rw [if_neg (by omega)] at hunits
        rw [if_pos (by omega)]
        omega
      · rw [sum_same (w := Pc.carries u) (by rw [h]; exact if_neg hu), hunits]
        exact if_congr (by omega) rfl rfl
  · rename_i hle
    have heq : m.nextUnit = cfg.unitCount := Nat.le_antisymm I.nextUnit_le (Nat.not_lt.mp hle)
    apply I.replace
    · intro u
      rw [h]
      rfl
    · rw [h]
      rfl
    · rw [h]
      rfl
    · rw [h]
      rfl
    · rw [h]
      rfl
    · exact fun _ => heq
    · exact fun hc => absurd hc hconsuming

theorem Accounted.claim (I : Accounted cfg m thread) (h : thread i = .claim) :
    Accounted cfg (m.claim cfg.unitCount).1
      (Function.update thread i (m.claim cfg.unitCount).2) := by
  have hproducing : ¬ (thread i).Producing m.nextUnit cfg.unitCount := by
    rw [h]
    exact not_false
  unfold Simulation.claim
  split
  · rename_i hlt
    have hmod : (m.consumedCount + 1) % 2 ^ 64 = m.consumedCount + 1 :=
      Nat.mod_eq_of_lt (by have := cfg.unitCount_lt; omega)
    dsimp only
    rw [hmod]
    refine ⟨I.nextUnit_le, hlt, I.order, ?_, ?_, ?_, fun u => ?_,
      forall_update_mono I.producing (fun _ h => h) (fun hp => absurd hp hproducing),
      forall_update_mono I.consuming (Pc.Consuming.claim hlt) (fun _ => trivial)⟩
    · rw [sum_same (w := Pc.passed) (by rw [h]; rfl),
        sum_same (w := Pc.signalling) (by rw [h]; rfl)]
      exact I.queued
    · rw [sum_same (w := Pc.taken) (by rw [h]; rfl)]
      exact I.nextUnit
    · rw [sum_enter (w := Pc.claimed) (by rw [h]; rfl) rfl, ← I.consumedCount]
      exact Nat.add_right_comm _ _ _
    · rw [sum_same (w := Pc.carries u) (by rw [h]; rfl)]
      exact I.units u
  · rename_i hle
    have heq : m.consumedCount = cfg.unitCount :=
      Nat.le_antisymm I.consumedCount_le (Nat.not_lt.mp hle)
    apply I.replace
    · intro u
      rw [h]
      rfl
    · rw [h]
      rfl
    · rw [h]
      rfl
    · rw [h]
      rfl
    · rw [h]
      rfl
    · exact fun hp => absurd hp hproducing
    · exact fun _ => heq

theorem Accounted.queueEnqueue (I : Accounted cfg m thread) {u : ℕ} (h : thread i = .append u) :
    Accounted cfg (m.queueEnqueue u).1 (Function.update thread i (m.queueEnqueue u).2) := by
  have hconsuming : ¬ (thread i).Consuming m.consumedCount cfg.unitCount := by
    rw [h]
    exact not_false
  refine ⟨I.nextUnit_le, I.consumedCount_le, ?_, ?_, ?_, ?_, fun v => ?_,
    forall_update_mono I.producing (fun _ h => h) (fun _ => trivial),
    forall_update_mono I.consuming (fun _ h => h) (fun hc => absurd hc hconsuming)⟩
  · simp only [Simulation.queueEnqueue, I.order, List.append_assoc]
  · simp only [Simulation.queueEnqueue, List.length_append, List.length_singleton, ← I.queued]
    rw [sum_same (w := Pc.passed) (by rw [h]; rfl),
      sum_enter (w := Pc.signalling) (by rw [h]; rfl) rfl]
    rfl
  · have hsum : ∑ j, (Function.update thread i .unlockEnqueue j).taken + 1 =
      ∑ j, (thread j).taken := sum_leave (by rw [h]; rfl) rfl
    have hnext := I.nextUnit
    simp only [Simulation.queueEnqueue, List.length_append, List.length_singleton]
    omega
  · exact (congrArg (· + _) (sum_same (w := Pc.claimed) (by rw [h]; rfl))).trans
      I.consumedCount
  · have hunits := I.units v
    change ∑ j, (Function.update thread i .unlockEnqueue j).carries v +
      (m.enqueued ++ [u]).count v =
      if 1 ≤ v ∧ v ≤ m.nextUnit then 1 else 0
    rw [← hunits, List.count_append, List.count_singleton]
    by_cases hv : u = v
    · have hsum : ∑ j, (Function.update thread i .unlockEnqueue j).carries v + 1 =
        ∑ j, (thread j).carries v := sum_leave (by rw [h]; exact if_pos hv) rfl
      rw [if_pos (beq_iff_eq.mpr hv)]
      omega
    · rw [sum_same (w := Pc.carries v) (by rw [h]; exact (if_neg hv).symm),
        if_neg (by rwa [beq_iff_eq])]
      rfl

theorem Accounted.semPost (I : Accounted cfg m thread) (h : thread i = .signal) :
    Accounted cfg m.semPost.1 (Function.update thread i m.semPost.2) := by
  have hconsuming : ¬ (thread i).Consuming m.consumedCount cfg.unitCount := by
    rw [h]
    exact not_false
  refine ⟨I.nextUnit_le, I.consumedCount_le, I.order, ?_, ?_, ?_, fun u => ?_,
    forall_update_mono I.producing (fun _ h => h) (fun _ => trivial),
    forall_update_mono I.consuming (fun _ h => h) (fun hc => absurd hc hconsuming)⟩
  · have hsum : ∑ j, (Function.update thread i .lockNextUnit j).signalling + 1 =
      ∑ j, (thread j).signalling := sum_leave (by rw [h]; rfl) rfl
    have hqueued := I.queued
    simp only [Simulation.semPost]
    rw [sum_same (w := Pc.passed) (by rw [h]; rfl)]
    omega
  · exact (congrArg (· + _) (sum_same (w := Pc.taken) (by rw [h]; rfl))).trans I.nextUnit
  · exact (congrArg (· + _) (sum_same (w := Pc.claimed) (by rw [h]; rfl))).trans
      I.consumedCount
  · exact (congrArg (· + _) (sum_same (w := Pc.carries u) (by rw [h]; rfl))).trans (I.units u)

theorem Accounted.semWait (I : Accounted cfg m thread) (h : thread i = .wait)
    (hc : 1 ≤ m.canConsume) : Accounted cfg { m with canConsume := m.canConsume - 1 }
      (Function.update thread i .dequeue) := by
  have hproducing : ¬ (thread i).Producing m.nextUnit cfg.unitCount := by
    rw [h]
    exact not_false
  refine ⟨I.nextUnit_le, I.consumedCount_le, I.order, ?_, ?_, ?_, fun u => ?_,
    forall_update_mono I.producing (fun _ h => h) (fun hp => absurd hp hproducing),
    forall_update_mono I.consuming (fun _ h => h) (fun _ => trivial)⟩
  · have hqueued := I.queued
    dsimp only
    rw [sum_enter (w := Pc.passed) (by rw [h]; rfl) rfl,
      sum_same (w := Pc.signalling) (by rw [h]; rfl)]
    omega
  · exact (congrArg (· + _) (sum_same (w := Pc.taken) (by rw [h]; rfl))).trans I.nextUnit
  · exact (congrArg (· + _) (sum_same (w := Pc.claimed) (by rw [h]; rfl))).trans
      I.consumedCount
  · exact (congrArg (· + _) (sum_same (w := Pc.carries u) (by rw [h]; rfl))).trans (I.units u)

theorem Accounted.nonempty (I : Accounted cfg m thread) (h : (thread i).passed = 1) :
    ∃ u rest, m.queue = u :: rest := by
  have hle := weight_le_sum (Finset.mem_univ i) fun j => (thread j).passed
  have hqueued := I.queued
  apply List.exists_cons_of_length_pos
  omega

theorem Accounted.queueDequeue (I : Accounted cfg m thread) (h : thread i = .removeFirst) :
    Accounted cfg m.queueDequeue.1 (Function.update thread i m.queueDequeue.2) := by
  have hproducing : ¬ (thread i).Producing m.nextUnit cfg.unitCount := by
    rw [h]
    exact not_false
  -- who has passed the semaphore finds a unit
  obtain ⟨u, rest, hq⟩ := I.nonempty (i := i) (by rw [h]; rfl)
  simp only [Simulation.queueDequeue, hq]
  refine ⟨I.nextUnit_le, I.consumedCount_le, ?_, ?_, ?_, ?_, fun v => ?_,
    forall_update_mono I.producing (fun _ h => h) (fun hp => absurd hp hproducing),
    forall_update_mono I.consuming (fun _ h => h) (fun _ => Option.some_ne_none u)⟩
  · rw [I.order, hq, List.append_assoc]
    rfl
  · have hsum : ∑ j, (Function.update thread i (.unlockDequeue (some u)) j).passed + 1 =
      ∑ j, (thread j).passed := sum_leave (by rw [h]; rfl) rfl
    have hqueued := I.queued
    rw [hq, List.length_cons] at hqueued
    dsimp only
    rw [sum_same (w := Pc.signalling) (by rw [h]; rfl)]
    omega
  · exact (congrArg (· + _) (sum_same (w := Pc.taken) (by rw [h]; rfl))).trans I.nextUnit
  · have hsum : ∑ j, (Function.update thread i (.unlockDequeue (some u)) j).claimed + 1 =
      ∑ j, (thread j).claimed := sum_leave (by rw [h]; rfl) rfl
    have hconsumed := I.consumedCount
    dsimp only
    rw [List.length_append, List.length_singleton]
    omega
  · exact (congrArg (· + _) (sum_same (w := Pc.carries v) (by rw [h]; rfl))).trans (I.units v)

theorem reachable_accounted {s : Run cfg} (h : (code cfg).system.Reachable s) :
    Accounted cfg s.memory s.thread := by
  apply Threads.reachable_invariant (I := Accounted cfg) _ _ _ h
  · have hstart : ∀ w : Pc → ℕ, w .lockNextUnit = 0 → w .lockConsumedCount = 0 →
        ∑ i, w (start cfg i) = 0 := by
      intro w hp hc
      apply Finset.sum_eq_zero
      rintro (k | k) -
      · exact hp
      · exact hc
    refine ⟨Nat.zero_le _, Nat.zero_le _, rfl, ?_, ?_, ?_, fun u => ?_, fun k => trivial,
      fun k => trivial⟩
    · exact congrArg₂ (0 + · + ·) (hstart Pc.passed rfl rfl) (hstart Pc.signalling rfl rfl)
    · exact hstart Pc.taken rfl rfl
    · exact hstart Pc.claimed rfl rfl
    · rw [if_neg (by dsimp only [code]; omega)]
      exact hstart (Pc.carries u) rfl rfl
  · intro s i m n _ hn I
    exact I.move (same_of_move (i := i) hn)
  · intro s i run r _ hn hr I
    -- one lemma for each access to the shared data
    rcases access_cases (i := i) hn hr with ⟨h, rfl⟩ | ⟨u, h, rfl⟩ | ⟨h, rfl⟩ | ⟨h, rfl⟩ |
      ⟨h, hc, rfl⟩ | ⟨h, rfl⟩
    · exact I.takeUnit h
    · exact I.queueEnqueue h
    · exact I.semPost h
    · exact I.claim h
    · exact I.semWait h hc
    · exact I.queueDequeue h

end Steps

section End

variable {s : Run cfg}

theorem stuck_thread (h : (code cfg).system.Reachable s) (hs : (code cfg).system.Stuck s)
    (i : Thread cfg) : s.thread i = returned cfg i ∨
      s.thread i = .wait ∧ s.memory.canConsume = 0 := by
  have I := reachable_accounted h
  have hstuck : next cfg i (s.thread i) = .finished ∨
      ∃ run, next cfg i (s.thread i) = .access run ∧ run s.memory = none :=
    Threads.stuck_cases (owns cfg) h hs i
  have hpc : s.thread i = .produced ∨ s.thread i = .consumed ∨
      s.thread i = .wait ∧ s.memory.canConsume = 0 := by
    rcases hstuck with hf | ⟨run, hrun, hnone⟩
    · cases hi : s.thread i <;> simp [hi, next] at hf ⊢
    · cases hi : s.thread i <;> rw [hi] at hrun <;> cases hrun <;>
        first | cases hnone | skip
      refine .inr (.inr ⟨rfl, ?_⟩)
      by_contra hc
      rw [Simulation.semWait, if_neg hc] at hnone
      cases hnone
  cases i with
  | inl k =>
    have hp := I.producing k
    rcases hpc with hpc | hpc | ⟨hpc, -⟩
    · exact .inl hpc
    · exact (hpc ▸ hp : Pc.Producing _ _ .consumed).elim
    · exact (hpc ▸ hp : Pc.Producing _ _ .wait).elim
  | inr k =>
    have hc := I.consuming k
    rcases hpc with hpc | hpc | hpc
    · exact (hpc ▸ hc : Pc.Consuming _ _ .produced).elim
    · exact .inl hpc
    · exact .inr hpc

theorem sum_eq_zero {w : Pc → ℕ} (hall : ∀ i, s.thread i = returned cfg i ∨ s.thread i = .wait)
    (hp : w .produced = 0) (hc : w .consumed = 0) (hw : w .wait = 0) :
    ∑ i, w (s.thread i) = 0 := by
  apply Finset.sum_eq_zero
  intro i _
  rcases hall i with hi | hi <;> rw [hi]
  · cases i <;> assumption
  · exact hw

theorem Accounted.produced (I : Accounted cfg s.memory s.thread)
    (hall : ∀ i, s.thread i = returned cfg i ∨ s.thread i = .wait) :
    s.memory.nextUnit = cfg.unitCount ∧ s.memory.enqueued.length = cfg.unitCount ∧
      s.memory.canConsume = s.memory.queue.length := by
  have hnext : s.memory.nextUnit = cfg.unitCount := by
    have hp := I.producing ⟨0, cfg.producerCount_pos⟩
    rcases hall (.inl ⟨0, cfg.producerCount_pos⟩) with hi | hi <;> rw [hi] at hp
    · exact hp
    · exact hp.elim
  have htaken := I.nextUnit
  have hqueued := I.queued
  rw [sum_eq_zero (w := Pc.taken) hall rfl rfl rfl] at htaken
  rw [sum_eq_zero (w := Pc.passed) hall rfl rfl rfl,
    sum_eq_zero (w := Pc.signalling) hall rfl rfl rfl] at hqueued
  exact ⟨hnext, by omega, by omega⟩

theorem returned_of_stuck (h : (code cfg).system.Reachable s) (hs : (code cfg).system.Stuck s)
    (i : Thread cfg) : s.thread i = returned cfg i := by
  have I := reachable_accounted h
  have hall : ∀ i, s.thread i = returned cfg i ∨ s.thread i = .wait :=
    fun i => (stuck_thread h hs i).imp_right And.left
  rcases stuck_thread h hs i with hi | ⟨hi, hc⟩
  · exact hi
  · -- a waiting consumer has claimed a unit that was consumed by others
    obtain ⟨-, henqueued, hqueue⟩ := I.produced hall
    have hclaimed := weight_le_sum (Finset.mem_univ i) fun j => (s.thread j).claimed
    have hone : (s.thread i).claimed = 1 := by rw [hi]; rfl
    have horder := congrArg List.length I.order
    rw [List.length_append] at horder
    have hcount := I.consumedCount
    have hle := I.consumedCount_le
    omega

theorem Accounted.finished (I : Accounted cfg s.memory s.thread)
    (hall : ∀ i, s.thread i = returned cfg i) :
    s.memory.queue = [] ∧ s.memory.nextUnit = cfg.unitCount ∧
      s.memory.consumedCount = cfg.unitCount := by
  obtain ⟨hnext, henqueued, -⟩ := I.produced fun i => .inl (hall i)
  have hconsumed : s.memory.consumedCount = cfg.unitCount := by
    have hc := I.consuming ⟨0, cfg.consumerCount_pos⟩
    rw [hall] at hc
    exact hc
  refine ⟨?_, hnext, hconsumed⟩
  have hclaimed := I.consumedCount
  have hzero : ∑ i, (s.thread i).claimed = 0 := by
    apply Finset.sum_eq_zero
    intro i _
    rw [hall i]
    cases i <;> rfl
  have horder := congrArg List.length I.order
  rw [List.length_append] at horder
  exact List.eq_nil_of_length_eq_zero (by omega)

end End

/-- In every run: a consumer that has passed its wait finds a unit, and no dequeue fails; the
units are dequeued in the order in which they were enqueued, each at most once; only threads that
have returned are stuck; and when all have returned, every unit was enqueued and dequeued. -/
theorem units_consumed_once (cfg : Config) {s : Run cfg} (h : (code cfg).system.Reachable s) :
    (∀ i, s.thread i = .dequeue ∨ s.thread i = .removeFirst → s.memory.queue ≠ []) ∧
    (∀ i, s.thread i ≠ .unlockDequeue none) ∧
    s.memory.enqueued = s.memory.dequeued ++ s.memory.queue ∧
    (∀ u, s.memory.enqueued.count u ≤ if 1 ≤ u ∧ u ≤ cfg.unitCount then 1 else 0) ∧
    ((code cfg).system.Stuck s → ∀ i, s.thread i = returned cfg i) ∧
    ((∀ i, s.thread i = returned cfg i) →
      s.memory.queue = [] ∧ s.memory.nextUnit = cfg.unitCount ∧
      s.memory.consumedCount = cfg.unitCount ∧
      ∀ u, 1 ≤ u → u ≤ cfg.unitCount →
        s.memory.enqueued.count u = 1 ∧ s.memory.dequeued.count u = 1) := by
  have I := reachable_accounted h
  refine ⟨fun i hi => ?_, fun i hi => ?_, I.order, fun u => ?_, returned_of_stuck h, fun hall => ?_⟩
  · have hpassed : (s.thread i).passed = 1 := by
      rcases hi with hi | hi <;> rw [hi] <;> rfl
    obtain ⟨u, rest, hq⟩ := I.nonempty hpassed
    rw [hq]
    exact List.cons_ne_nil u rest
  · cases i with
    | inl k => exact (hi ▸ I.producing k : Pc.Producing _ _ (.unlockDequeue none)).elim
    | inr k => exact (hi ▸ I.consuming k : Pc.Consuming _ _ (.unlockDequeue none)) rfl
  · have hunits := I.units u
    have hle := I.nextUnit_le
    split_ifs at hunits ⊢ <;> omega
  · obtain ⟨hqueue, hnext, hconsumed⟩ := I.finished hall
    refine ⟨hqueue, hnext, hconsumed, fun u hu hu' => ?_⟩
    have hunits := I.units u
    rw [sum_eq_zero (w := Pc.carries u) (fun i => .inl (hall i)) rfl rfl rfl, Nat.zero_add,
      if_pos ⟨hu, hnext ▸ hu'⟩] at hunits
    have horder := I.order
    rw [hqueue, List.append_nil] at horder
    exact ⟨hunits, horder ▸ hunits⟩

/-- One unit from one producer to one consumer. -/
def oneUnit : Config := ⟨1, 1, 1, one_lt_word, Nat.one_pos, Nat.one_pos⟩

/-- The consumer claims the unit before it is produced. -/
def earlyClaim : List (Thread oneUnit) :=
  let producer : Thread oneUnit := .inl ⟨0, by decide⟩
  let consumer : Thread oneUnit := .inr ⟨0, by decide⟩
  List.replicate 3 consumer ++ List.replicate 10 producer ++ List.replicate 7 consumer

theorem units_consumed_once_early : ∃ s, (code oneUnit).system.run earlyClaim = some s ∧
    s.memory.queue = [] ∧ s.memory.nextUnit = 1 ∧ s.memory.consumedCount = 1 ∧
    s.memory.dequeued.count 1 = 1 := by
  obtain ⟨s, hs⟩ : ∃ s, (code oneUnit).system.run earlyClaim = some s := ⟨_, rfl⟩
  have hrun : ((code oneUnit).system.run earlyClaim).map (fun s =>
      (s.thread (.inl ⟨0, by decide⟩), s.thread (.inr ⟨0, by decide⟩))) =
    some (.produced, .consumed) := rfl
  simp only [hs, Option.map_some, Option.some.injEq, Prod.mk.injEq] at hrun
  obtain ⟨-, -, -, -, -, hend⟩ := units_consumed_once oneUnit (System.reachable_run hs)
  have hall : ∀ i, s.thread i = returned oneUnit i := by
    rintro (⟨k, hk⟩ | ⟨k, hk⟩) <;> cases Nat.lt_one_iff.mp hk
    · exact hrun.1
    · exact hrun.2
  obtain ⟨hqueue, hnext, hconsumed, hunits⟩ := hend hall
  exact ⟨s, hs, hqueue, hnext, hconsumed, (hunits 1 (by decide) (by decide)).2⟩

end Concurrente.ProdConsUnbound
