import Concurrente.SimulBound.Reachable

/-!
# Progress of network_simul_bound

From the consumers back to the producers: in a deadlock no thread faces a full queue,
since the reader of that queue could go on.  A measure shows that the network
terminates, unless the counter of the producers never passes `packageCount`.
-/

namespace Concurrente.SimulBound

open Prodcons

variable {cfg : Config}

section Stuck

variable {s : Net cfg} {c : QueueId → ℕ∞}

theorem length_pos_of_full {q : QueueId} (hc : ∀ q, 1 ≤ c q)
    (h : c q ≤ (s.queue q).length) : s.queue q ≠ [] := by
  intro hq
  have h1 := (hc q).trans h
  rw [hq] at h1
  exact absurd h1 (by simp)

theorem stuck_consumer (hs : ((network cfg).atomic c).Stuck s)
    (hr : ((network cfg).atomic c).Reachable s) (k : Fin cfg.consumerCount) :
    (∃ n, s.thread (.consumer k) = .receiveLoop n ∧ s.queue (.consumer (k + 1)) = []) ∨
      ∃ n, s.thread (.consumer k) = .received n := by
  obtain ⟨n, ⟨hpc, -, -⟩ | ⟨hpc, -, -⟩⟩ := reachable_consuming hr k
  · refine .inl ⟨n, hpc, ?_⟩
    have hst := Network.atomic_stuck hs (.consumer k)
    change next cfg _ _ = _ ∨ (∃ _ _ _, next cfg _ _ = _ ∧ _) ∨
      (∃ _ _, next cfg _ _ = _ ∧ _) ∨ ∃ _, next cfg _ _ = _ ∧ _ at hst
    simpa [hpc, next] using hst
  · exact .inr ⟨n, hpc⟩

theorem stuck_key (hs : ((network cfg).atomic c).Stuck s)
    (hr : ((network cfg).atomic c).Reachable s) {key : ℕ} (hkey : 1 ≤ key)
    (hkey' : key ≤ cfg.consumerCount)
    (htold : (s.thread .dispatcher).told cfg.consumerCount < key) :
    s.queue (.consumer key) = [] := by
  obtain ⟨k, rfl⟩ : ∃ k, key = k + 1 := ⟨key - 1, by omega⟩
  rcases stuck_consumer hs hr ⟨k, hkey'⟩ with ⟨n, -, hq⟩ | ⟨n, hpc⟩
  · exact hq
  · -- it would have dequeued a stop condition
    obtain ⟨n', ⟨hpc', -, -⟩ | ⟨-, hcount, -⟩⟩ := reachable_consuming hr ⟨k, hkey'⟩
    · cases hpc.symm.trans hpc'
    · have hsent := (reachable_dispatching hr).sent (k + 1)
      rw [if_neg (by omega), toQueues, Network.atomic_order hr, List.count_append] at hsent
      dsimp only at hcount
      omega

theorem stuck_dispatcher (hc : ∀ q, 1 ≤ c q) (hs : ((network cfg).atomic c).Stuck s)
    (hr : ((network cfg).atomic c).Reachable s) :
    s.thread .dispatcher = .dispatchLoop ∧ s.queue .dispatcher = [] ∨
      s.thread .dispatcher = .dispatched := by
  have hD := (reachable_dispatching hr).dispatcher
  have hst := Network.atomic_stuck hs .dispatcher
  change next cfg _ _ = _ ∨ (∃ _ _ _, next cfg _ _ = _ ∧ _) ∨
    (∃ _ _, next cfg _ _ = _ ∧ _) ∨ ∃ _, next cfg _ _ = _ ∧ _ at hst
  cases hpc : s.thread .dispatcher with
  | dispatchLoop => exact .inl ⟨rfl, by simpa [hpc, next] using hst⟩
  | dispatched => exact .inr rfl
  | dispatch d =>
    rw [hpc] at hD
    have hd : Ordinary cfg d := hD
    have hfull : c (.consumer d.target) ≤ (s.queue (.consumer d.target)).length := by
      simpa [hpc, next, redirect, hd.target_pos, hd.target_le] using hst
    refine absurd (stuck_key hs hr hd.target_pos hd.target_le ?_) (length_pos_of_full hc hfull)
    rw [hpc]
    exact hd.target_pos
  | broadcast key =>
    rw [hpc] at hD
    obtain ⟨hkey, hkey'⟩ : 1 ≤ key ∧ key ≤ cfg.consumerCount := hD
    have hfull : c (.consumer key) ≤ (s.queue (.consumer key)).length := by
      simpa [hpc, next] using hst
    refine absurd (stuck_key hs hr hkey hkey' ?_) (length_pos_of_full hc hfull)
    rw [hpc]
    exact Nat.sub_lt hkey Nat.one_pos
  | _ =>
    rw [hpc] at hD
    exact hD.elim

theorem stuck_assembler (hc : ∀ q, 1 ≤ c q) (hs : ((network cfg).atomic c).Stuck s)
    (hr : ((network cfg).atomic c).Reachable s) :
    ∃ lost, s.thread .assembler = .consumeLoop lost ∧ s.queue .assembler = [] ∨
      s.thread .assembler = .assembled lost := by
  have hA := reachable_assembling hr
  have hst := Network.atomic_stuck hs .assembler
  change next cfg _ _ = _ ∨ (∃ _ _ _, next cfg _ _ = _ ∧ _) ∨
    (∃ _ _, next cfg _ _ = _ ∧ _) ∨ ∃ _, next cfg _ _ = _ ∧ _ at hst
  have hplace : (∀ lost, s.thread .assembler ≠ .assembled lost) →
      ¬ c .dispatcher ≤ (s.queue .dispatcher).length := by
    intro hne hfull
    have hsent := hA.sent
    rw [if_neg (hne _), Network.atomic_order hr, List.count_append] at hsent
    rcases stuck_dispatcher hc hs hr with ⟨-, hq⟩ | hpc
    · exact length_pos_of_full hc hfull hq
    · have hstopped := (reachable_dispatching hr).stopped
      rw [hpc] at hstopped
      simp only [Pc.leaving] at hstopped
      omega
  cases hpc : s.thread .assembler with
  | consumeLoop lost => exact ⟨lost, .inl ⟨rfl, by simpa [hpc, next] using hst⟩⟩
  | assembled lost => exact ⟨lost, .inr rfl⟩
  | consume d lost => simp [hpc, next] at hst
  | forward d lost =>
    exact absurd (by simpa [hpc, next] using hst) (hplace (by simp [hpc]))
  | forwardStop lost =>
    exact absurd (by simpa [hpc, next] using hst) (hplace (by simp [hpc]))
  | _ =>
    have := hA.assembler
    rw [hpc] at this
    exact this.elim

/-- As long as a producer is to send something, the stop condition has not been sent. -/
def Open (s : Net cfg) : Prop :=
  ∀ i, (∃ d, producers s i = .produce d) ∨ producers s i = .produceStop →
    stopCondition ∉ s.enqueued .assembler

theorem stuck_producer (hc : ∀ q, 1 ≤ c q) (hs : ((network cfg).atomic c).Stuck s)
    (hr : ((network cfg).atomic c).Reachable s) (ho : Open s) (i : Fin cfg.producerCount) :
    producers s i = .returned := by
  have hst := Network.atomic_stuck hs
  have hI := reachable_claiming hr
  have hplace : ∀ j, (∃ d, producers s j = .produce d) ∨ producers s j = .produceStop →
      ¬ c .assembler ≤ (s.queue .assembler).length := by
    intro j hj hfull
    obtain ⟨lost, ⟨-, hq⟩ | hpc⟩ := stuck_assembler hc hs hr
    · exact length_pos_of_full hc hfull hq
    · have hA := reachable_assembling hr
      apply ho j hj
      rw [Network.atomic_order hr]
      apply List.mem_append_left
      rw [hA.kept.mem_iff]
      apply List.mem_append_right
      apply List.count_pos_iff.mp
      rw [hA.sent, hpc]
      simp [Pc.lost]
  have hcases : ∀ j, producers s j = .returned ∨
      producers s j = .claim ∧ s.memory.locked = true := by
    intro j
    have hst := hst (.producer j)
    change next cfg _ (producers s j) = _ ∨ (∃ _ _ _, next cfg _ (producers s j) = _ ∧ _) ∨
      (∃ _ _, next cfg _ (producers s j) = _ ∧ _) ∨ ∃ _, next cfg _ (producers s j) = _ ∧ _ at hst
    have hj := hI.producer j
    cases hpc : producers s j with
    | returned => exact .inl rfl
    | claim => exact .inr ⟨rfl, by simpa [hpc, next] using hst⟩
    | count => simp [hpc, next] at hst
    | leave k => simp [hpc, next] at hst
    | create k => simp [hpc, next] at hst
    | produce d =>
      exact absurd (by simpa [hpc, next] using hst) (hplace j (.inl ⟨d, hpc⟩))
    | produceStop =>
      exact absurd (by simpa [hpc, next] using hst) (hplace j (.inr hpc))
    | _ =>
      rw [hpc] at hj
      exact hj.elim
  rcases hcases i with hpc | ⟨-, hl⟩
  · exact hpc
  · have howners := hI.owners
    rw [hl] at howners
    obtain ⟨j, -, hj⟩ := exists_of_sum_pos (w := fun j => (producers s j).owner)
      (by rw [howners]; exact Nat.one_pos)
    rcases hcases j with hpc | ⟨hpc, -⟩ <;> rw [hpc] at hj <;> exact absurd hj (lt_irrefl 0)

/-- Where the threads are when they have finished. -/
def Pc.Finished : Pc → Prop
  | returned | assembled _ | dispatched | received _ => True
  | _ => False

theorem stuck_finished (hc : ∀ q, 1 ≤ c q) (hs : ((network cfg).atomic c).Stuck s)
    (hr : ((network cfg).atomic c).Reachable s) (ho : Open s)
    (hsent : stopCondition ∈ s.enqueued .assembler) (i : Thread cfg) :
    (s.thread i).Finished := by
  have hA := reachable_assembling hr
  have hD := reachable_dispatching hr
  -- the stop condition was sent, so it is with the assembler or in its queue
  have hassembled : ∃ lost, s.thread .assembler = .assembled lost := by
    obtain ⟨lost, ⟨hpc, hq⟩ | hpc⟩ := stuck_assembler hc hs hr
    · rw [Network.atomic_order hr, hq, List.append_nil, hA.kept.mem_iff, hpc] at hsent
      have hout := hA.sent
      have hlost := hA.lost
      rw [hpc] at hlost hout
      rw [if_neg (by simp)] at hout
      simp only [Pc.held, List.append_nil, List.mem_append] at hsent
      rcases hsent with hsent | hsent
      · exact absurd hsent hlost
      · exact absurd hsent (List.count_eq_zero.mp hout)
    · exact ⟨lost, hpc⟩
  obtain ⟨lost, hpcA⟩ := hassembled
  have hdispatched : s.thread .dispatcher = .dispatched := by
    rcases stuck_dispatcher hc hs hr with ⟨hpc, hq⟩ | hpc
    · have hout := hA.sent
      have hstopped := hD.stopped
      rw [hpcA, if_pos (show Pc.assembled lost = .assembled (Pc.assembled lost).lost from rfl),
        Network.atomic_order hr, hq, List.append_nil, hstopped, hpc] at hout
      cases hout
    · exact hpc
  cases i with
  | producer i =>
    change (producers s i).Finished
    rw [stuck_producer hc hs hr ho i]
    trivial
  | assembler =>
    rw [hpcA]
    trivial
  | dispatcher =>
    rw [hdispatched]
    trivial
  | consumer k =>
    rcases stuck_consumer hs hr k with ⟨n, hpc, hq⟩ | ⟨n, hpc⟩
    · have htold := hD.sent (k + 1)
      obtain ⟨n', ⟨-, hcount, -⟩ | ⟨hpc', -, -⟩⟩ := reachable_consuming hr k
      · rw [hdispatched, if_pos ⟨Nat.le_add_left _ _, k.isLt⟩, toQueues, Network.atomic_order hr,
          hq, List.append_nil, hcount] at htold
        cases htold
      · cases hpc.symm.trans hpc'
    · rw [hpc]
      trivial

end Stuck

/-- How many numbers are drawn until one is beyond the packages, from this `producedCount` on. -/
def Config.draws (cfg : Config) (producedCount : ℕ) : ℕ :=
  if producedCount < cfg.packageCount then cfg.packageCount + 1 - producedCount
  else if producedCount + 1 < 2 ^ 64 then 1
  else cfg.packageCount + 2

/-- The work that a thread can still do, when a drawn number counts twelve. -/
def Pc.work (cfg : Config) : Pc → ℕ
  | claim => 12 * 2 ^ 65 + 2
  | count => 12 * 2 ^ 65 + 1
  | leave k => (if k ≤ cfg.packageCount then 12 * 2 ^ 65 else 0) + 12
  | create _ => 12 * 2 ^ 65 + 11
  | produce _ => 12 * 2 ^ 65 + 10
  | produceStop => 10
  | consume _ _ => 5
  | forward _ _ => 4
  | forwardStop _ => 5
  | dispatchLoop => 2 * cfg.consumerCount + 2
  | dispatch _ => 2 * cfg.consumerCount + 4
  | broadcast key => 2 * (cfg.consumerCount + 1 - key) + 1
  | _ => 0

def QueueId.worth (cfg : Config) : QueueId → ℕ
  | assembler => 6
  | dispatcher => 3
  | consumer key => if 1 ≤ key ∧ key ≤ cfg.consumerCount then 1 else 0

def stored (cfg : Config) (queue : QueueId → List NetworkMessage) : ℕ :=
  6 * (queue .assembler).length + 3 * (queue .dispatcher).length +
    ∑ key ∈ Finset.Icc 1 cfg.consumerCount, (queue (.consumer key)).length

def work (s : Net cfg) : ℕ :=
  ∑ i, (s.thread i).work cfg + 12 * cfg.draws s.memory.producedCount + stored cfg s.queue

theorem stored_update (cfg : Config) (queue : QueueId → List NetworkMessage) (q : QueueId)
    (l : List NetworkMessage) :
    stored cfg (Function.update queue q l) + q.worth cfg * (queue q).length =
      stored cfg queue + q.worth cfg * l.length := by
  cases q with
  | assembler =>
    simp [stored, QueueId.worth]
    omega
  | dispatcher =>
    simp [stored, QueueId.worth]
    omega
  | consumer key =>
    have hupdate : ∀ k, Function.update queue (.consumer key) l (.consumer k) =
        Function.update (fun k => queue (.consumer k)) key l k := by
      intro k
      by_cases hk : k = key
      · subst hk
        rw [Function.update_self, Function.update_self]
      · rw [Function.update_of_ne hk, Function.update_of_ne (by simpa using hk)]
    simp only [stored, QueueId.worth, hupdate]
    by_cases hkey : 1 ≤ key ∧ key ≤ cfg.consumerCount
    · have hsum := sum_update (Finset.mem_Icc.mpr hkey) (fun k => queue (.consumer k))
        (fun _ => List.length) l
      simp [hkey] at hsum ⊢
      omega
    · have hsum := sum_update_ne (i := key) (s := Finset.Icc 1 cfg.consumerCount)
        (fun h => hkey (Finset.mem_Icc.mp h)) (fun k => queue (.consumer k))
          (fun _ => List.length) l
      simp [hkey] at hsum ⊢
      omega

section Work

variable {s : Net cfg} {i : Thread cfg}

theorem work_update (pc : Pc) :
    ∑ j, (Function.update s.thread i pc j).work cfg + (s.thread i).work cfg =
      ∑ j, (s.thread j).work cfg + pc.work cfg :=
  sum_update (Finset.mem_univ i) s.thread (fun _ => Pc.work cfg) pc

theorem work_compute {r : Counter × Pc}
    (h : r.2.work cfg + 12 * cfg.draws r.1.producedCount <
      (s.thread i).work cfg + 12 * cfg.draws s.memory.producedCount) :
    work (s.compute i r) < work s := by
  have hsum := work_update (s := s) (i := i) r.2
  rw [work, work, Snapshot.compute_memory, Snapshot.compute_queue, Snapshot.compute_thread]
  omega

theorem work_push {q : QueueId} {d : NetworkMessage} {nxt : Pc}
    (h : nxt.work cfg + q.worth cfg < (s.thread i).work cfg) :
    work (s.push i q d nxt) < work s := by
  have hsum := work_update (s := s) (i := i) nxt
  have hstored := stored_update cfg s.queue q (s.queue q ++ [d])
  rw [List.length_append, List.length_singleton, Nat.mul_add] at hstored
  rw [work, work, Snapshot.push_memory, Snapshot.push_queue, Snapshot.push_thread]
  omega

theorem work_pop {q : QueueId} {d : NetworkMessage} {rest : List NetworkMessage}
    {nxt : NetworkMessage → Pc} (hq : s.queue q = d :: rest)
    (h : (nxt d).work cfg < (s.thread i).work cfg + q.worth cfg) :
    work (s.pop i q nxt d rest) < work s := by
  have hsum := work_update (s := s) (i := i) (nxt d)
  have hstored := stored_update cfg s.queue q rest
  rw [hq, List.length_cons, Nat.mul_add] at hstored
  rw [work, work, Snapshot.pop_memory, Snapshot.pop_queue, Snapshot.pop_thread]
  omega

end Work

theorem draws_le (cfg : Config) (n : ℕ) : cfg.draws n ≤ cfg.packageCount + 2 := by
  unfold Config.draws
  split
  · omega
  · split <;> omega

theorem draws_lt (hP : cfg.packageCount + 1 < 2 ^ 64) (n : ℕ)
    (hk : (n + 1) % 2 ^ 64 ≤ cfg.packageCount) : cfg.draws ((n + 1) % 2 ^ 64) < cfg.draws n := by
  -- the count comes closer to the last package, or it has just wrapped around
  unfold Config.draws
  split <;> split <;> (try split) <;> (try split) <;> omega

section Decreases

variable {s t : Net cfg} {x : Choice} {c : QueueId → ℕ∞}

theorem producer_work (hP : cfg.packageCount + 1 < 2 ^ 64) {i : Fin cfg.producerCount}
    (ht : ((network cfg).atomic c).step s (.producer i, x) = some t) : work t < work s := by
  have hth : s.thread (.producer i) = producers s i := rfl
  rcases producer_cases ht with ⟨hpc, hl, rfl⟩ | ⟨hpc, rfl⟩ | ⟨k, hpc, rfl⟩ | ⟨k, hpc, rfl⟩ |
    ⟨d, hpc, rfl⟩ | ⟨hpc, rfl⟩ <;> rw [hpc] at hth
  · apply work_compute
    simp only [hth, Pc.work]
    omega
  · apply work_compute
    have hle := draws_le cfg ((s.memory.producedCount + 1) % 2 ^ 64)
    simp only [hth, Pc.work]
    split
    · have := draws_lt hP s.memory.producedCount ‹_›
      omega
    · omega
  · apply work_compute
    rcases afterClaim_cases cfg k with ⟨hk, ha⟩ | ⟨hk, hk', ha⟩ | ⟨hk, hk', ha⟩
    · simp only [hth, ha, Pc.work, if_pos hk]
      omega
    · simp only [hth, ha, Pc.work]
      omega
    · simp only [hth, ha, Pc.work]
      omega
  · apply work_compute
    simp only [hth, Pc.work]
    omega
  · apply work_push
    simp only [hth, Pc.work, QueueId.worth]
    omega
  · apply work_push
    simp only [hth, Pc.work, QueueId.worth]
    omega

theorem assembler_work (ht : ((network cfg).atomic c).step s (.assembler, x) = some t) :
    work t < work s := by
  rcases assembler_cases ht with ⟨lost, d, rest, hpc, hq, rfl⟩ | ⟨d, lost, hpc, rfl⟩ |
    ⟨d, lost, hpc, rfl⟩ | ⟨lost, hpc, rfl⟩
  · apply work_pop hq
    rw [hpc]
    split <;> simp only [Pc.work, QueueId.worth] <;> omega
  · apply work_compute
    rw [hpc]
    split <;> simp only [Pc.work] <;> omega
  · apply work_push
    simp only [hpc, Pc.work, QueueId.worth]
    omega
  · apply work_push
    simp only [hpc, Pc.work, QueueId.worth]
    omega

theorem dispatcher_work (ht : ((network cfg).atomic c).step s (.dispatcher, x) = some t) :
    work t < work s := by
  have hn := cfg.consumerCount_pos
  rcases dispatcher_cases ht with ⟨d, rest, hpc, hq, rfl⟩ | ⟨d, hpc, rfl⟩ | ⟨key, hpc, rfl⟩ |
    ⟨d, hpc, -, rfl⟩
  · apply work_pop hq
    rw [hpc]
    split
    · rw [show afterKey cfg 0 = .broadcast 1 from if_pos hn]
      simp only [Pc.work, QueueId.worth]
      omega
    · simp only [Pc.work, QueueId.worth]
      omega
  · apply work_push
    simp only [hpc, Pc.work, QueueId.worth]
    split <;> omega
  · apply work_push
    rcases afterKey_cases cfg key with ⟨hk, ha⟩ | ⟨hk, ha⟩
    · simp only [hpc, ha, Pc.work, QueueId.worth]
      split <;> omega
    · simp only [hpc, ha, Pc.work, QueueId.worth]
      split <;> omega
  · apply work_compute
    simp only [hpc, Pc.work]
    omega

theorem consumer_work {k : Fin cfg.consumerCount}
    (ht : ((network cfg).atomic c).step s (.consumer k, x) = some t) : work t < work s := by
  obtain ⟨n, d, rest, hpc, hq, rfl⟩ := (consumes cfg _).cases ht
  apply work_pop hq
  rw [hpc]
  have hk := k.isLt
  simp only [QueueId.worth, if_pos (show 1 ≤ k.val + 1 ∧ k.val + 1 ≤ cfg.consumerCount by omega)]
  split <;> simp only [Pc.work] <;> omega

end Decreases

theorem atomic_terminates (cfg : Config) (hP : cfg.packageCount + 1 < 2 ^ 64) (c : QueueId → ℕ∞) :
    ((network cfg).atomic c).Terminates := by
  refine ⟨work, ?_⟩
  rintro s ⟨i, x⟩ t _ ht
  cases i with
  | producer i => exact producer_work hP ht
  | assembler => exact assembler_work ht
  | dispatcher => exact dispatcher_work ht
  | consumer k => exact consumer_work ht

end Concurrente.SimulBound
