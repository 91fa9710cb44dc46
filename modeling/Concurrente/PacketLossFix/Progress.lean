import Concurrente.PacketLossFix.Routing

/-!
# No message of network_simul_packet_loss_fix is left behind
-/

namespace Concurrente.PacketLossFix

open Prodcons

variable {cfg : Config}

def InPhase (s : Net cfg) : Prop :=
  Phase cfg (s.thread .producer) (s.thread .assembler) (s.thread .dispatcher)
    (s.queue .dispatcher) (s.queue .assembler)

section Steps

variable {s t : Net cfg} {x : Choice}

theorem inPhase_step (I : InPhase s) {i : Thread cfg}
    (h : (simulation cfg).step s (i, x) = some t) : InPhase t := by
  unfold InPhase at I ⊢
  -- one lemma for each step of the three threads that pass the stop condition on
  cases i with
  | producer =>
    rcases follows.producer_cases h with ⟨i, hpc, rfl⟩ | ⟨d, i, hpc, rfl⟩ |
      ⟨hpc, rfl⟩ <;> rw [hpc] at I
    · simpa [Function.update_apply] using I.create
    · simpa [Function.update_apply] using I.produce
    · simpa [Function.update_apply] using I.produceStop
  | assembler =>
    rcases follows.assembler_cases h with ⟨count, lost, d, rest, hpc, hq, rfl⟩ |
      ⟨d, lost, hpc, rfl⟩ | ⟨d, lost, hpc, rfl⟩ | ⟨count, lost, hpc, rfl⟩ <;> rw [hpc] at I
    · rw [hq] at I
      simpa [Function.update_apply] using I.consumeLoop
    · simpa [Function.update_apply] using I.consume
    · simpa [Function.update_apply] using I.forward
    · simpa [Function.update_apply] using I.answer
  | dispatcher =>
    rcases follows.dispatcher_cases h with ⟨count, d, rest, hpc, hq, rfl⟩ | ⟨d, hpc, rfl⟩ |
      ⟨d, hpc, ht⟩ | ⟨count, hpc, rfl⟩ | ⟨key, hpc, rfl⟩ <;> rw [hpc] at I
    · rw [hq] at I
      simpa [Function.update_apply] using I.dispatchLoop
    · have hzero : atDispatcher 0 = .dispatchLoop 0 := rfl
      rcases toQueue_cases cfg d.target with ⟨hd, hk⟩ | ⟨-, hk⟩
      · simpa [hk, hzero, Function.update_apply] using I.dispatch_assembler (by omega)
      · simpa [hk, hzero, Function.update_apply] using I.dispatch
    · have hd := I.dispatch_ordinary
      exact absurd ⟨hd.target_pos, hd.target_le⟩ ht
    · simpa [Function.update_apply] using I.echo
    · obtain ⟨-, hconsumer, hassembler⟩ := I.broadcast
      rcases toQueue_cases cfg key with ⟨-, hk⟩ | ⟨-, hk⟩
      · simpa [hk, Function.update_apply] using hassembler
      · simpa [hk, Function.update_apply] using hconsumer
  | consumer k =>
    obtain ⟨n, d, rest, hpc, hq, rfl⟩ := (follows.consumes k).cases h
    simpa [Function.update_apply] using I

theorem reachable_inPhase (h : (simulation cfg).Reachable s) : InPhase s := by
  apply System.Reachable.invariant (I := InPhase) _ _ h
  · exact .producing (atIndex_producer 0) rfl (Nat.le_refl 0) (List.forall_mem_nil _)
      (List.forall_mem_nil _)
  · rintro s ⟨i, x⟩ t I ht
    exact inPhase_step I ht

end Steps

theorem InPhase.routes {s : Net cfg} (I : InPhase s) : Routes s where
  dispatch d hpc := by
    unfold InPhase at I
    rw [hpc] at I
    exact I.dispatch_ordinary
  broadcast key hpc := by
    unfold InPhase at I
    rw [hpc] at I
    exact I.broadcast.1

section Messages

variable {s : Net cfg} {m : ℕ}

theorem reachable_redirecting (h : (simulation cfg).Reachable s) :
    Redirecting cfg (s.thread .dispatcher) (toQueues s) :=
  follows.reachable_redirecting (fun _ => rfl) (fun _ hs => (reachable_inPhase hs).routes) h

theorem reachable_consuming (h : (simulation cfg).Reachable s) (k : Fin cfg.consumerCount) :
    Consuming .receiveLoop .received (s.thread (.consumer k)) (s.dequeued (.consumer (k + 1))) :=
  (follows.consumes k).consuming h

theorem reachable_places (hm : m < cfg.packageCount) (h : (simulation cfg).Reachable s) :
    places s m = 1 :=
  follows.reachable_places (fun _ _ => rfl) (fun _ => rfl)
    (fun _ hs => (reachable_inPhase hs).routes) hm h

end Messages

section Stuck

variable {s : Net cfg}

theorem compute_ne_none {i : Thread cfg} {pc : Pc} {run : Choice → Unit → Option (Unit × Pc)}
    (h : next cfg i pc = .compute run) (x : Choice) : run x () ≠ none := by
  cases i <;> cases pc <;> simp only [next, redirect, reduceCtorEq, Instr.compute.injEq] at h
  case producer.create =>
    subst h
    exact Option.some_ne_none _
  case assembler.consume =>
    subst h
    exact Option.some_ne_none _
  case dispatcher.dispatch =>
    split at h
    · cases h
    · obtain rfl := Instr.compute.inj h
      exact Option.some_ne_none _

theorem stuck_cases (hs : (simulation cfg).Stuck s) (i : Thread cfg) :
    next cfg i (s.thread i) = .finished ∨
      ∃ q nxt, next cfg i (s.thread i) = .call (.dequeue q nxt) ∧ s.queue q = [] := by
  rcases Network.atomic_stuck hs i with hn | ⟨q, d, nxt, -, hfull⟩ | ⟨q, nxt, hn, hq⟩ |
    ⟨run, hn, hrun⟩
  · exact .inl hn
  · exact absurd hfull (by simp)
  · exact .inr ⟨q, nxt, hn, hq⟩
  · exact absurd (hrun default) (compute_ne_none hn default)

theorem stuck_producer (hs : (simulation cfg).Stuck s)
    (hp : (s.thread .producer).Producer cfg) : False := by
  have hst := stuck_cases hs .producer
  cases hpc : s.thread .producer <;> rw [hpc] at hst hp <;>
    first | exact hp.elim | simp [next] at hst

theorem stuck_working (hs : (simulation cfg).Stuck s) (ha : (s.thread .assembler).Working cfg) :
    s.queue .assembler = [] := by
  have hst := stuck_cases hs .assembler
  cases hpc : s.thread .assembler with
  | consumeLoop count lost =>
    rw [hpc] at hst
    simpa [next] using hst
  | consume d lost => simp [hpc, next] at hst
  | forward d lost => simp [hpc, next] at hst
  | _ =>
    rw [hpc] at ha
    exact ha.elim

theorem stuck_halfway (hs : (simulation cfg).Stuck s) (ha : (s.thread .assembler).Halfway) :
    s.queue .assembler = [] := by
  have hst := stuck_cases hs .assembler
  cases hpc : s.thread .assembler with
  | consumeLoop count lost =>
    rw [hpc] at hst
    simpa [next] using hst
  | _ =>
    rw [hpc] at ha
    exact ha.elim

theorem stuck_dispatches (hs : (simulation cfg).Stuck s) {P : NetworkMessage → Prop} {most : ℕ}
    (hd : (s.thread .dispatcher).Dispatches P most) : s.queue .dispatcher = [] := by
  have hst := stuck_cases hs .dispatcher
  cases hpc : s.thread .dispatcher with
  | dispatchLoop count =>
    rw [hpc] at hst
    simpa [next] using hst
  | dispatch d =>
    rw [hpc] at hst
    simp only [next, redirect] at hst
    split at hst <;> simp at hst
  | _ =>
    rw [hpc] at hd
    exact hd.elim

theorem stuck_late (hs : (simulation cfg).Stuck s) (hd : (s.thread .dispatcher).Late cfg) :
    s.thread .dispatcher = .dispatched ∨
      s.thread .dispatcher = .dispatchLoop 1 ∧ s.queue .dispatcher = [] := by
  have hst := stuck_cases hs .dispatcher
  rcases hd with hd | hd
  · rw [hd] at hst
    exact .inr ⟨hd, by simpa [next] using hst⟩
  · cases hpc : s.thread .dispatcher <;> rw [hpc] at hst hd <;>
      first | exact hd.elim | exact .inl rfl | simp [next] at hst

theorem stuck_phase (hs : (simulation cfg).Stuck s) (I : InPhase s) :
    s.thread .producer = .produced ∧ (∃ lost, s.thread .assembler = .assembled lost) ∧
      s.thread .dispatcher = .dispatched := by
  -- every phase but the last has a thread that can move or a queue that is not empty
  cases I with
  | producing hp => exact (stuck_producer hs hp).elim
  | sent x y hp ha hd hq =>
    rw [stuck_dispatches hs hd] at hq
    simp at hq
  | echoing hp ha hd =>
    have hst := stuck_cases hs .dispatcher
    simp [hd, next] at hst
  | echoed x hp ha hd hqd hq =>
    rw [stuck_working hs ha] at hq
    simp at hq
  | answering lost hp ha =>
    have hst := stuck_cases hs .assembler
    simp [ha, next] at hst
  | answered y hp ha hd hq =>
    rw [stuck_dispatches hs hd] at hq
    simp at hq
  | echoingAgain hp ha hd =>
    have hst := stuck_cases hs .dispatcher
    rcases hd with hd | hd <;> simp [hd, next] at hst
  | echoedAgain hp ha hd hqd hne => exact absurd (stuck_halfway hs ha) hne
  | answeringAgain lost hp ha =>
    have hst := stuck_cases hs .assembler
    simp [ha, next] at hst
  | assembled lost hp ha hd hqa =>
    refine ⟨hp, ⟨lost, ha⟩, ?_⟩
    rcases hd with ⟨hd, hq⟩ | ⟨hd, -⟩ | ⟨hd, hq⟩
    · rcases stuck_late hs hd with h | ⟨-, h⟩
      · exact h
      · rw [hq] at h
        cases h
    · have hst := stuck_cases hs .dispatcher
      simp [hd, next] at hst
    · rcases stuck_late hs (.inr hd) with h | ⟨h, -⟩
      · exact h
      · rw [h] at hd
        exact hd.elim

theorem stuck_finished (hs : (simulation cfg).Stuck s) (hr : (simulation cfg).Reachable s)
    (i : Thread cfg) : (s.thread i).Finished := by
  obtain ⟨hp, ⟨lost, ha⟩, hd⟩ := stuck_phase hs (reachable_inPhase hr)
  cases i with
  | producer =>
    rw [hp]
    trivial
  | assembler =>
    rw [ha]
    trivial
  | dispatcher =>
    rw [hd]
    trivial
  | consumer k =>
    obtain ⟨n, ⟨hpc, hcount, -⟩ | ⟨hpc, -, -⟩⟩ := reachable_consuming hr k
    · have hst := stuck_cases hs (.consumer k)
      have hq : s.queue (.consumer (k + 1)) = [] := by simpa [hpc, next] using hst
      have hsent := (reachable_redirecting hr).sent (k + 1) (Nat.le_add_left 1 _) k.isLt
      have htold : (k : ℕ) + 1 ≤ (Pc.dispatched).told cfg.consumerCount := k.isLt
      rw [hd, if_pos htold, toQueues, Network.atomic_order hr, hq, List.append_nil, hcount] at hsent
      cases hsent
    · rw [hpc]
      trivial

end Stuck

end Concurrente.PacketLossFix
