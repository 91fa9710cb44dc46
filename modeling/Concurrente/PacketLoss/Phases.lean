import Concurrente.PacketLoss.Program

/-!
# The way of the stop condition through network_simul_packet_loss

The stop condition goes from the producer to the dispatcher and from there to the consumers and
to the assembler.  What the assembler sends after the dispatcher has got it stays in the queue.
-/

namespace Concurrente.PacketLoss

open Prodcons PacketLossFix

variable {cfg : Config}

/-- Where the stop condition is, from the states of the producer, the assembler and the
dispatcher and from the queues of the dispatcher and the assembler. -/
inductive Phase (cfg : Config) (p a d : Pc) (qd qa : List NetworkMessage) : Prop where
  | producing (hp : p.Producer cfg) (ha : a.Working cfg) (hd : d.Dispatches (Ordinary cfg) 0)
      (hqd : ∀ m ∈ qd, Ordinary cfg m) (hqa : ∀ m ∈ qa, Ordinary cfg m)
  | sent (x y : List NetworkMessage) (hp : p = .produced) (ha : a.Working cfg)
      (hd : d.Dispatches (Ordinary cfg) 0) (hq : qd = x ++ stopCondition :: y)
      (hx : ∀ m ∈ x, Ordinary cfg m) (hy : ∀ m ∈ y, Regular cfg m) (hqa : ∀ m ∈ qa, Ordinary cfg m)
  | telling (key : ℕ) (hp : p = .produced) (ha : a.Working cfg) (hd : d = .broadcast key)
      (hkey : 1 ≤ key ∧ key ≤ cfg.consumerCount + 1) (hqd : ∀ m ∈ qd, Regular cfg m)
      (hqa : ∀ m ∈ qa, Ordinary cfg m)
  | told (x : List NetworkMessage) (hp : p = .produced) (ha : a.Working cfg)
      (hd : d = .dispatched) (hqd : ∀ m ∈ qd, Regular cfg m) (hq : qa = x ++ [stopCondition])
      (hx : ∀ m ∈ x, Ordinary cfg m)
  | assembled (lost : List NetworkMessage) (hp : p = .produced) (ha : a = .assembled lost)
      (hd : d = .dispatched) (hqd : ∀ m ∈ qd, Regular cfg m) (hqa : qa = [])

section Phases

variable {p a d : Pc} {qd qa : List NetworkMessage} {x : Choice}

theorem Phase.producer_ne (h : Phase cfg p a d qd qa) (hp : p ≠ .produced) :
    p.Producer cfg ∧ a.Working cfg ∧ d.Dispatches (Ordinary cfg) 0 ∧
      (∀ m ∈ qd, Ordinary cfg m) ∧ ∀ m ∈ qa, Ordinary cfg m := by
  cases h with
  | producing hp ha hd hqd hqa => exact ⟨hp, ha, hd, hqd, hqa⟩
  | sent x y hp' => exact absurd hp' hp
  | telling key hp' => exact absurd hp' hp
  | told x hp' => exact absurd hp' hp
  | assembled lost hp' => exact absurd hp' hp

theorem Phase.create {i : ℕ} (h : Phase cfg (.create i) a d qd qa) :
    Phase cfg (.produce (createMessage cfg x i) i) a d qd qa := by
  obtain ⟨-, ha, hd, hqd, hqa⟩ := h.producer_ne (by simp)
  exact .producing (createMessage_ordinary x i) ha hd hqd hqa

theorem Phase.produce {m : NetworkMessage} {i : ℕ} (h : Phase cfg (.produce m i) a d qd qa) :
    Phase cfg (atIndex cfg (i + 1)) a d (qd ++ [m]) qa := by
  obtain ⟨hm, ha, hd, hqd, hqa⟩ := h.producer_ne (by simp)
  exact .producing (atIndex_producer _) ha hd (forall_append hqd hm) hqa

theorem Phase.produceStop (h : Phase cfg .produceStop a d qd qa) :
    Phase cfg .produced a d (qd ++ [stopCondition]) qa := by
  obtain ⟨-, ha, hd, hqd, hqa⟩ := h.producer_ne (by simp)
  exact .sent qd [] rfl ha hd rfl hqd (List.forall_mem_nil _) hqa

theorem Phase.working (h : Phase cfg p a d qd qa) (ha : ∀ lost, a ≠ .assembled lost) :
    a.Working cfg := by
  cases h with
  | producing hp ha => exact ha
  | sent x y hp ha => exact ha
  | telling key hp ha => exact ha
  | told x hp ha => exact ha
  | assembled lost hp ha' => exact absurd ha' (ha lost)

theorem Phase.consume {m : NetworkMessage} {lost : List NetworkMessage}
    (h : Phase cfg p (.consume m lost) d qd qa) : Phase cfg p (consume cfg x m lost) d qd qa := by
  cases h with
  | producing hp ha hd hqd hqa => exact .producing hp (consume_working ha) hd hqd hqa
  | sent x y hp ha hd hq hx hy hqa => exact .sent x y hp (consume_working ha) hd hq hx hy hqa
  | telling key hp ha hd hkey hqd hqa => exact .telling key hp (consume_working ha) hd hkey hqd hqa
  | told x hp ha hd hqd hq hx => exact .told x hp (consume_working ha) hd hqd hq hx
  | assembled lost hp ha => cases ha

theorem Phase.forward {m : NetworkMessage} {lost : List NetworkMessage}
    (h : Phase cfg p (.forward m lost) d qd qa) :
    Phase cfg p (.consumeLoop 0 lost) d (qd ++ [m]) qa := by
  have hloop : (Pc.consumeLoop 0 lost).Working cfg := rfl
  cases h with
  | producing hp ha hd hqd hqa =>
    exact .producing hp hloop hd (forall_append hqd ha.toOrdinary) hqa
  | sent x y hp ha hd hq hx hy hqa =>
    exact .sent x (y ++ [m]) hp hloop hd (by simp [hq]) hx (forall_append hy ha) hqa
  | telling key hp ha hd hkey hqd hqa =>
    exact .telling key hp hloop hd hkey (forall_append hqd ha) hqa
  | told x hp ha hd hqd hq hx => exact .told x hp hloop hd (forall_append hqd ha) hq hx
  | assembled lost hp ha => cases ha

theorem Phase.consumeLoop {m : NetworkMessage} {rest lost : List NetworkMessage} {count : ℕ}
    (h : Phase cfg p (.consumeLoop count lost) d qd (m :: rest)) :
    Phase cfg p (if m = stopCondition then .assembled lost else .consume m lost) d qd rest := by
  cases h with
  | producing hp ha hd hqd hqa =>
    obtain ⟨hm, hrest⟩ := List.forall_mem_cons.mp hqa
    rw [if_neg hm.ne_stop]
    exact .producing hp hm hd hqd hrest
  | sent x y hp ha hd hq hx hy hqa =>
    obtain ⟨hm, hrest⟩ := List.forall_mem_cons.mp hqa
    rw [if_neg hm.ne_stop]
    exact .sent x y hp hm hd hq hx hy hrest
  | telling key hp ha hd hkey hqd hqa =>
    obtain ⟨hm, hrest⟩ := List.forall_mem_cons.mp hqa
    rw [if_neg hm.ne_stop]
    exact .telling key hp hm hd hkey hqd hrest
  | told x hp ha hd hqd hq hx =>
    cases x with
    | nil =>
      obtain ⟨rfl, rfl⟩ := List.cons.inj hq
      rw [if_pos rfl]
      exact .assembled lost hp rfl hd hqd rfl
    | cons m' x =>
      obtain ⟨rfl, rfl⟩ := List.cons.inj hq
      obtain ⟨hm, hx⟩ := List.forall_mem_cons.mp hx
      rw [if_neg hm.ne_stop]
      exact .told x hp hm hd hqd rfl hx
  | assembled lost hp ha => cases ha

theorem Phase.dispatch_ordinary {m : NetworkMessage} (h : Phase cfg p a (.dispatch m) qd qa) :
    Ordinary cfg m := by
  cases h with
  | producing hp ha hd => exact hd
  | sent x y hp ha hd => exact hd
  | telling key hp ha hd => cases hd
  | told x hp ha hd => cases hd
  | assembled lost hp ha hd => cases hd

theorem Phase.dispatch {m : NetworkMessage} (h : Phase cfg p a (.dispatch m) qd qa) :
    Phase cfg p a (.dispatchLoop 0) qd qa := by
  cases h with
  | producing hp ha hd hqd hqa => exact .producing hp ha (Nat.le_refl 0) hqd hqa
  | sent x y hp ha hd hq hx hy hqa => exact .sent x y hp ha (Nat.le_refl 0) hq hx hy hqa
  | telling key hp ha hd => cases hd
  | told x hp ha hd => cases hd
  | assembled lost hp ha hd => cases hd

theorem Phase.dispatch_assembler {m : NetworkMessage} (h : Phase cfg p a (.dispatch m) qd qa) :
    Phase cfg p a (.dispatchLoop 0) qd (qa ++ [m]) := by
  cases h with
  | producing hp ha hd hqd hqa =>
    exact .producing hp ha (Nat.le_refl 0) hqd (forall_append hqa hd)
  | sent x y hp ha hd hq hx hy hqa =>
    exact .sent x y hp ha (Nat.le_refl 0) hq hx hy (forall_append hqa hd)
  | telling key hp ha hd => cases hd
  | told x hp ha hd => cases hd
  | assembled lost hp ha hd => cases hd

theorem Phase.broadcast_key {key : ℕ} (h : Phase cfg p a (.broadcast key) qd qa) :
    1 ≤ key ∧ key ≤ cfg.consumerCount + 1 := by
  cases h with
  | producing hp ha hd => exact hd.elim
  | sent x y hp ha hd => exact hd.elim
  | telling key hp ha hd hkey =>
    cases hd
    exact hkey
  | told x hp ha hd => cases hd
  | assembled lost hp ha hd => cases hd

theorem Phase.broadcast {key : ℕ} (h : Phase cfg p a (.broadcast key) qd qa)
    (hlt : key < cfg.consumerCount + 1) : Phase cfg p a (.broadcast (key + 1)) qd qa := by
  cases h with
  | producing hp ha hd => exact hd.elim
  | sent x y hp ha hd => exact hd.elim
  | telling key hp ha hd hkey hqd hqa =>
    cases hd
    exact .telling _ hp ha rfl ⟨Nat.le_add_left 1 _, hlt⟩ hqd hqa
  | told x hp ha hd => cases hd
  | assembled lost hp ha hd => cases hd

theorem Phase.broadcast_last {key : ℕ} (h : Phase cfg p a (.broadcast key) qd qa) :
    Phase cfg p a .dispatched qd (qa ++ [stopCondition]) := by
  cases h with
  | producing hp ha hd => exact hd.elim
  | sent x y hp ha hd => exact hd.elim
  | telling key hp ha hd hkey hqd hqa => exact .told qa hp ha rfl hqd rfl hqa
  | told x hp ha hd => cases hd
  | assembled lost hp ha hd => cases hd

theorem Phase.dispatchLoop {m : NetworkMessage} {rest : List NetworkMessage} {count : ℕ}
    (h : Phase cfg p a (.dispatchLoop count) (m :: rest) qa) :
    Phase cfg p a (if m = stopCondition then .broadcast 1 else .dispatch m) rest qa := by
  cases h with
  | producing hp ha hd hqd hqa =>
    obtain ⟨hm, hrest⟩ := List.forall_mem_cons.mp hqd
    rw [if_neg hm.ne_stop]
    exact .producing hp ha hm hrest hqa
  | sent x y hp ha hd hq hx hy hqa =>
    cases x with
    | nil =>
      obtain ⟨rfl, rfl⟩ := List.cons.inj hq
      rw [if_pos rfl]
      exact .telling 1 hp ha rfl ⟨Nat.le_refl 1, Nat.le_add_left 1 _⟩ hy hqa
    | cons m' x =>
      obtain ⟨rfl, rfl⟩ := List.cons.inj hq
      obtain ⟨hm, hx⟩ := List.forall_mem_cons.mp hx
      rw [if_neg hm.ne_stop]
      exact .sent x y hp ha hm rfl hx hy hqa
  | telling key hp ha hd => cases hd
  | told x hp ha hd => cases hd
  | assembled lost hp ha hd => cases hd

end Phases

def InPhase (s : Net cfg) : Prop :=
  Phase cfg (s.thread .producer) (s.thread .assembler) (s.thread .dispatcher)
    (s.queue .dispatcher) (s.queue .assembler)

section Steps

variable {s t : Net cfg} {x : Choice}

theorem Phase.ne_answer {p a d : Pc} {qd qa : List NetworkMessage} (h : Phase cfg p a d qd qa)
    (count : ℕ) (lost : List NetworkMessage) : a ≠ .answer count lost := by
  rintro rfl
  exact h.working fun _ => Pc.noConfusion

theorem Phase.ne_echo {p a d : Pc} {qd qa : List NetworkMessage} (h : Phase cfg p a d qd qa)
    (count : ℕ) : d ≠ .echo count := by
  rintro rfl
  cases h with
  | producing hp ha hd => exact hd
  | sent x y hp ha hd => exact hd
  | telling key hp ha hd => cases hd
  | told x hp ha hd => cases hd
  | assembled lost hp ha hd => cases hd

theorem inPhase_step (I : InPhase s) {i : Thread cfg}
    (h : (simulation cfg).step s (i, x) = some t) : InPhase t := by
  unfold InPhase at I ⊢
  cases i with
  | producer =>
    rcases follows.producer_cases h with ⟨i, hpc, rfl⟩ | ⟨d, i, hpc, rfl⟩ |
      ⟨hpc, rfl⟩ <;> rw [hpc] at I
    · simpa [Function.update_apply] using I.create
    · simpa [Function.update_apply] using I.produce
    · simpa [Function.update_apply] using I.produceStop
  | assembler =>
    rcases follows.assembler_cases h with ⟨count, lost, d, rest, hpc, hq, rfl⟩ |
      ⟨d, lost, hpc, rfl⟩ | ⟨d, lost, hpc, rfl⟩ | ⟨count, lost, hpc, -⟩
    · rw [hpc, hq] at I
      simpa [Function.update_apply] using I.consumeLoop
    · rw [hpc] at I
      simpa [Function.update_apply] using I.consume
    · rw [hpc] at I
      simpa [Function.update_apply] using I.forward
    · exact absurd hpc (I.ne_answer count lost)
  | dispatcher =>
    rcases follows.dispatcher_cases h with ⟨count, d, rest, hpc, hq, rfl⟩ | ⟨d, hpc, rfl⟩ |
      ⟨d, hpc, ht⟩ | ⟨count, hpc, -⟩ | ⟨key, hpc, rfl⟩
    · rw [hpc, hq] at I
      simpa [Function.update_apply] using I.dispatchLoop
    · rw [hpc] at I
      have hzero : atDispatcher 0 = .dispatchLoop 0 := rfl
      rcases toQueue_cases cfg d.target with ⟨-, hk⟩ | ⟨-, hk⟩
      · simpa [hk, hzero, Function.update_apply] using I.dispatch_assembler
      · simpa [hk, hzero, Function.update_apply] using I.dispatch
    · rw [hpc] at I
      exact absurd ⟨I.dispatch_ordinary.target_pos, I.dispatch_ordinary.target_le⟩ ht
    · exact absurd hpc (I.ne_echo count)
    · rw [hpc] at I
      rcases toQueue_cases cfg key with ⟨hlast, hk⟩ | ⟨hlast, hk⟩
      · have hafter : afterKey cfg key = .dispatched := if_neg (by omega)
        simpa [hk, hafter, Function.update_apply] using I.broadcast_last
      · have hlt : key < cfg.consumerCount + 1 := lt_of_le_of_ne I.broadcast_key.2 hlast
        have hafter : afterKey cfg key = .broadcast (key + 1) := if_pos hlt
        simpa [hk, hafter, Function.update_apply] using I.broadcast hlt
  | consumer k =>
    obtain ⟨n, d, rest, hpc, hq, rfl⟩ := (follows.consumes k).cases h
    simpa [Function.update_apply] using I

theorem reachable_inPhase (h : (simulation cfg).Reachable s) : InPhase s := by
  apply System.Reachable.invariant (I := InPhase) _ _ h
  · exact .producing (atIndex_producer 0) rfl (Nat.le_refl 0) (List.forall_mem_nil _)
      (List.forall_mem_nil _)
  · rintro s ⟨i, x⟩ t I ht
    exact inPhase_step I ht

theorem InPhase.routes (I : InPhase s) : Routes s where
  dispatch d hpc := by
    unfold InPhase at I
    rw [hpc] at I
    exact I.dispatch_ordinary
  broadcast key hpc := by
    unfold InPhase at I
    rw [hpc] at I
    exact I.broadcast_key

end Steps

section Messages

variable {s : Net cfg} {m : ℕ}

theorem reachable_redirecting (h : (simulation cfg).Reachable s) :
    Redirecting cfg (s.thread .dispatcher) (toQueues s) :=
  follows.reachable_redirecting (fun _ => rfl) (fun _ hs => (reachable_inPhase hs).routes) h

theorem reachable_consuming (h : (simulation cfg).Reachable s) (k : Fin cfg.consumerCount) :
    Consuming .receiveLoop .received (s.thread (.consumer k)) (s.dequeued (.consumer (k + 1))) :=
  (follows.consumes k).consuming h

theorem reachable_places (hm : m < cfg.packageCount) (h : (simulation cfg).Reachable s) :
    places s m = 1 :=
  follows.reachable_places (fun _ _ => rfl) (fun _ => rfl)
    (fun _ hs => (reachable_inPhase hs).routes) hm h

end Messages

end Concurrente.PacketLoss
