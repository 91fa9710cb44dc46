import Concurrente.PacketLoss.Phases
import Concurrente.Prodcons.Potential

/-!
# The simulation of network_simul_packet_loss ends
-/

namespace Concurrente.PacketLoss

open Prodcons PacketLossFix

deriving instance Fintype for Thread

variable (cfg : Config)

theorem card_thread : Fintype.card (Thread cfg) = cfg.consumerCount + 3 := by
  let e : Thread cfg ≃ Option (Option (Option (Fin cfg.consumerCount))) :=
    { toFun := fun
        | .producer => none
        | .assembler => some none
        | .dispatcher => some (some none)
        | .consumer k => some (some (some k))
      invFun := fun
        | none => .producer
        | some none => .assembler
        | some (some none) => .dispatcher
        | some (some (some k)) => .consumer k
      left_inv := by rintro (_ | _ | _ | _) <;> rfl
      right_inv := by rintro (_ | _ | _ | _) <;> rfl }
  simpa using Fintype.card_congr e

def queues : Finset QueueId :=
  insert .assembler (insert .dispatcher ((Finset.Icc 1 cfg.consumerCount).image .consumer))

variable {cfg}

theorem assembler_mem : QueueId.assembler ∈ queues cfg := Finset.mem_insert_self _ _

theorem dispatcher_mem : QueueId.dispatcher ∈ queues cfg :=
  Finset.mem_insert_of_mem (Finset.mem_insert_self _ _)

theorem consumer_mem {key : ℕ} (h : 1 ≤ key ∧ key ≤ cfg.consumerCount) :
    QueueId.consumer key ∈ queues cfg :=
  Finset.mem_insert_of_mem (Finset.mem_insert_of_mem
    (Finset.mem_image_of_mem _ (Finset.mem_Icc.mpr h)))

theorem enqueue_cases {i : Thread cfg} {pc nxt : Pc} {dest : QueueId} {d : NetworkMessage}
    (h : next cfg i pc = .call (.enqueue dest d nxt)) :
    (∃ j, pc = .produce d j ∧ dest = .dispatcher ∧ nxt = atIndex cfg (j + 1)) ∨
    (pc = .produceStop ∧ d = stopCondition ∧ dest = .dispatcher ∧ nxt = .produced) ∨
    (∃ lost, pc = .forward d lost ∧ dest = .dispatcher ∧ nxt = .consumeLoop 0 lost) ∨
    (∃ count lost, pc = .answer count lost ∧ d = stopCondition ∧ dest = .dispatcher ∧
      nxt = atAssembler count lost) ∨
    (pc = .dispatch d ∧ 1 ≤ d.target ∧ d.target ≤ cfg.consumerCount + 1 ∧
      dest = toQueue cfg d.target ∧ nxt = .dispatchLoop 0) ∨
    (∃ count, pc = .echo count ∧ d = stopCondition ∧ dest = .assembler ∧
      nxt = atDispatcher count) ∨
    (∃ key, i = .dispatcher ∧ pc = .broadcast key ∧ d = stopCondition ∧ dest = toQueue cfg key ∧
      nxt = afterKey cfg key) := by
  cases i <;> cases pc <;>
    simp only [next, PacketLossFix.next, reduceCtorEq, Instr.call.injEq, Op.enqueue.injEq] at h
  case producer.produce =>
    obtain ⟨rfl, rfl, rfl⟩ := h
    exact .inl ⟨_, rfl, rfl, rfl⟩
  case producer.produceStop =>
    obtain ⟨rfl, rfl, rfl⟩ := h
    exact .inr (.inl ⟨rfl, rfl, rfl, rfl⟩)
  case assembler.forward =>
    obtain ⟨rfl, rfl, rfl⟩ := h
    exact .inr (.inr (.inl ⟨_, rfl, rfl, rfl⟩))
  case assembler.answer =>
    obtain ⟨rfl, rfl, rfl⟩ := h
    exact .inr (.inr (.inr (.inl ⟨_, _, rfl, rfl, rfl, rfl⟩)))
  case dispatcher.dispatch =>
    rw [redirect] at h
    split at h
    · rename_i ht
      simp only [Instr.call.injEq, Op.enqueue.injEq] at h
      obtain ⟨rfl, rfl, rfl⟩ := h
      exact .inr (.inr (.inr (.inr (.inl ⟨rfl, ht.1, ht.2, rfl, rfl⟩))))
    · cases h
  case dispatcher.echo =>
    obtain ⟨rfl, rfl, rfl⟩ := h
    exact .inr (.inr (.inr (.inr (.inr (.inl ⟨_, rfl, rfl, if_pos rfl, rfl⟩)))))
  case dispatcher.broadcast =>
    obtain ⟨rfl, rfl, rfl⟩ := h
    exact .inr (.inr (.inr (.inr (.inr (.inr ⟨_, rfl, rfl, rfl, rfl, rfl⟩)))))

theorem dequeue_cases {i : Thread cfg} {pc : Pc} {source : QueueId} {nxt : NetworkMessage → Pc}
    (h : next cfg i pc = .call (.dequeue source nxt)) :
    (∃ count lost, i = .assembler ∧ pc = .consumeLoop count lost ∧ source = .assembler ∧
      ∀ d, nxt d = if d = stopCondition then .assembled lost else .consume d lost) ∨
    (∃ count, i = .dispatcher ∧ pc = .dispatchLoop count ∧ source = .dispatcher ∧
      ∀ d, nxt d = if d = stopCondition then .broadcast 1 else .dispatch d) ∨
    (∃ k n, i = .consumer k ∧ pc = .receiveLoop n ∧ source = .consumer (k + 1) ∧
      ∀ d, nxt d = if d = stopCondition then .received n else .receiveLoop (n + 1)) := by
  cases i <;> cases pc <;>
    simp only [next, PacketLossFix.next, reduceCtorEq, Instr.call.injEq, Op.dequeue.injEq] at h
  case assembler.consumeLoop =>
    obtain ⟨rfl, rfl⟩ := h
    exact .inl ⟨_, _, rfl, rfl, rfl, fun _ => rfl⟩
  case dispatcher.dispatchLoop =>
    obtain ⟨rfl, rfl⟩ := h
    exact .inr (.inl ⟨_, rfl, rfl, rfl, fun _ => rfl⟩)
  case dispatcher.dispatch =>
    rw [redirect] at h
    split at h <;> cases h
  case consumer.receiveLoop =>
    obtain ⟨rfl, rfl⟩ := h
    exact .inr (.inr ⟨_, _, rfl, rfl, rfl, fun _ => rfl⟩)

theorem compute_cases {i : Thread cfg} {pc : Pc} {run : Choice → Unit → Option (Unit × Pc)}
    (h : next cfg i pc = .compute run) :
    (∃ j, pc = .create j ∧
      ∀ x u, run x u = some (u, .produce (createMessage cfg x j) j)) ∨
    (∃ d lost, pc = .consume d lost ∧ ∀ x u, run x u = some (u, consume cfg x d lost)) ∨
    (∃ d, pc = .dispatch d ∧ ¬ (1 ≤ d.target ∧ d.target ≤ cfg.consumerCount + 1) ∧
      ∀ x u, run x u = some (u, .thrown)) := by
  cases i <;> cases pc <;>
    simp only [next, PacketLossFix.next, reduceCtorEq, Instr.compute.injEq] at h
  case producer.create =>
    subst h
    exact .inl ⟨_, rfl, fun _ _ => rfl⟩
  case assembler.consume =>
    subst h
    exact .inr (.inl ⟨_, _, rfl, fun _ _ => rfl⟩)
  case dispatcher.dispatch =>
    rw [redirect] at h
    split at h
    · cases h
    · rename_i ht
      obtain rfl := Instr.compute.inj h
      exact .inr (.inr ⟨_, rfl, ht, fun _ _ => rfl⟩)

theorem source_mem {i : Thread cfg} {pc : Pc} {source : QueueId} {nxt : NetworkMessage → Pc}
    (h : next cfg i pc = .call (.dequeue source nxt)) : source ∈ queues cfg := by
  rcases dequeue_cases h with ⟨_, _, -, -, rfl, -⟩ | ⟨_, -, -, rfl, -⟩ | ⟨k, _, -, -, rfl, -⟩
  · exact assembler_mem
  · exact dispatcher_mem
  · exact consumer_mem ⟨Nat.le_add_left 1 _, k.isLt⟩

/-- The steps that a message in the queue of the dispatcher leads to. -/
def ahead (cfg : Config) (d : NetworkMessage) : ℕ :=
  if d = stopCondition then 2 * cfg.consumerCount + 8
  else if d.target ≤ cfg.consumerCount then 3 else 8

/-- The calls and computations that are left. -/
def left (cfg : Config) : Weights (Thread cfg) QueueId NetworkMessage Pc where
  thread _
    | .create i => 10 * (cfg.packageCount - (i + 1)) + 2 * cfg.consumerCount + 19
    | .produce d i =>
      ahead cfg d + 10 * (cfg.packageCount - (i + 1)) + 2 * cfg.consumerCount + 10
    | .produceStop => 2 * cfg.consumerCount + 9
    | .consume _ _ => 5
    | .forward d _ => ahead cfg d + 1
    | .answer _ _ => 2 * cfg.consumerCount + 9
    | .dispatch d => ahead cfg d - 1
    | .echo _ => 2 * cfg.consumerCount + 14
    | .broadcast key => 2 * (cfg.consumerCount + 1 - key) + 7
    | _ => 0
  data
    | .assembler, _ => 6
    | .dispatcher, d => ahead cfg d
    | .consumer _, _ => 1

theorem ahead_stop : ahead cfg stopCondition = 2 * cfg.consumerCount + 8 := if_pos rfl

theorem ahead_of_target (cfg : Config) {d : NetworkMessage} (h : 1 ≤ d.target) :
    ahead cfg d = if d.target ≤ cfg.consumerCount then 3 else 8 := by
  apply if_neg
  rintro rfl
  exact absurd h (by decide)

theorem ahead_pos (cfg : Config) (d : NetworkMessage) : 3 ≤ ahead cfg d := by
  unfold ahead
  split_ifs <;> omega

theorem left_atIndex (cfg : Config) (i : ℕ) (j : Thread cfg) : (left cfg).thread j (atIndex cfg i) ≤
    10 * (cfg.packageCount - i) + 2 * cfg.consumerCount + 9 := by
  unfold atIndex
  split_ifs <;> simp only [left] <;> omega

theorem left_pays : (left cfg).Pays (network cfg) (queues cfg) 1 where
  source_mem := source_mem
  enqueue {i a dest d nxt} h := by
    rcases enqueue_cases h with ⟨j, rfl, rfl, rfl⟩ | ⟨rfl, rfl, rfl, rfl⟩ | ⟨lost, rfl, rfl, rfl⟩ |
      ⟨count, lost, rfl, rfl, rfl, rfl⟩ | ⟨rfl, hpos, hle, rfl, rfl⟩ |
      ⟨count, rfl, rfl, rfl, rfl⟩ | ⟨key, -, rfl, rfl, rfl, rfl⟩
    · have hnext := left_atIndex cfg (j + 1) i
      simp only [left] at hnext ⊢
      omega
    · simp only [left, ahead_stop]
      omega
    · simp only [left]
      omega
    · unfold atAssembler
      split_ifs <;> simp only [left, ahead_stop] <;> omega
    · have hahead := ahead_of_target cfg hpos
      rcases toQueue_cases cfg d.target with ⟨hk, hq⟩ | ⟨hk, hq⟩ <;> rw [hq] <;>
        simp only [left] <;> split_ifs at hahead <;> omega
    · unfold atDispatcher
      split_ifs <;> simp only [left] <;> omega
    · rcases toQueue_cases cfg key with ⟨hk, hq⟩ | ⟨hk, hq⟩ <;> rw [hq] <;> unfold afterKey <;>
        split_ifs <;> simp only [left] <;> omega
  dequeue {i a source nxt} h d := by
    rcases dequeue_cases h with ⟨count, lost, -, rfl, rfl, hn⟩ | ⟨count, -, rfl, rfl, hn⟩ |
      ⟨k, n, -, rfl, rfl, hn⟩ <;> rw [hn]
    · split_ifs <;> simp only [left] <;> omega
    · split_ifs with hd
      · simp only [left, hd, ahead_stop]
        omega
      · have hpos := ahead_pos cfg d
        simp only [left]
        omega
    · split_ifs <;> simp only [left] <;> omega
  compute {i a run} h x u r hr := by
    rcases compute_cases h with ⟨j, rfl, hrun⟩ | ⟨d, lost, rfl, hrun⟩ | ⟨d, rfl, -, hrun⟩ <;>
      rw [hrun] at hr <;> cases hr
    · have hahead := ahead_of_target cfg (d := createMessage cfg x j)
        (Nat.le_add_right 1 _)
      simp only [left]
      split_ifs at hahead <;> omega
    · unfold consume
      split_ifs
      · simp only [left]
        omega
      · have htarget := Nat.mod_lt x.target cfg.consumerCount_pos
        have hahead := ahead_of_target cfg
          (d := { d with target := 1 + x.target % cfg.consumerCount }) (Nat.le_add_right 1 _)
        rw [if_pos (by dsimp only; omega)] at hahead
        simp only [left, hahead]
        omega
    · have hpos := ahead_pos cfg d
      simp only [left]
      omega

theorem sum_start (w : Weights (Thread cfg) QueueId NetworkMessage Pc)
    (hassembler : w.thread .assembler (.consumeLoop 0 []) = 0)
    (hdispatcher : w.thread .dispatcher (.dispatchLoop 0) = 0)
    (hconsumer : ∀ k, w.thread (.consumer k) (.receiveLoop 0) = 0) :
    ∑ i, w.thread i ((network cfg).start i) = w.thread .producer (atIndex cfg 0) := by
  apply Fintype.sum_eq_single
  rintro (_ | _ | _ | k) hi
  · exact absurd rfl hi
  · exact hassembler
  · exact hdispatcher
  · exact hconsumer k

/-- The messages that can come to the queue of a consumer, with the stop condition before it is
sent to this consumer. -/
def load (cfg : Config) (key : ℕ) : Weights (Thread cfg) QueueId NetworkMessage Pc where
  thread _
    | .create i => cfg.packageCount - (i + 1) + 3
    | .produce d i => (if d = stopCondition then 2 else 1) + (cfg.packageCount - (i + 1)) + 2
    | .produceStop => 2
    | .consume _ _ => 1
    | .forward d _ => if d = stopCondition then 2 else 1
    | .answer _ _ => 2
    | .dispatch _ => 1
    | .echo _ => 3
    | .broadcast key' => if key' ≤ key then 2 else 1
    | _ => 0
  data
    | .assembler, _ => 1
    | .dispatcher, d => if d = stopCondition then 2 else 1
    | .consumer key', _ => if key' = key then 1 else 0

theorem load_atIndex (cfg : Config) (key i : ℕ) (j : Thread cfg) :
    (load cfg key).thread j (atIndex cfg i) ≤
    cfg.packageCount - i + 2 := by
  unfold atIndex
  split_ifs <;> simp only [load] <;> omega

theorem load_pays (key : ℕ) : (load cfg key).Pays (network cfg) (queues cfg) 0 where
  source_mem := source_mem
  enqueue {i a dest d nxt} h := by
    rcases enqueue_cases h with ⟨j, rfl, rfl, rfl⟩ | ⟨rfl, rfl, rfl, rfl⟩ | ⟨lost, rfl, rfl, rfl⟩ |
      ⟨count, lost, rfl, rfl, rfl, rfl⟩ | ⟨rfl, hpos, hle, rfl, rfl⟩ |
      ⟨count, rfl, rfl, rfl, rfl⟩ | ⟨key', -, rfl, rfl, rfl, rfl⟩
    · have hnext := load_atIndex cfg key (j + 1) i
      simp only [load] at hnext ⊢
      omega
    · exact le_rfl
    · exact (Nat.zero_add _).le
    · unfold atAssembler
      split_ifs <;> exact le_rfl
    · rcases toQueue_cases cfg d.target with ⟨hk, hq⟩ | ⟨hk, hq⟩ <;> rw [hq] <;>
        simp only [load] <;> (try split_ifs) <;> omega
    · unfold atDispatcher
      split_ifs <;> simp only [load] <;> (try split_ifs) <;> omega
    · rcases toQueue_cases cfg key' with ⟨hk, hq⟩ | ⟨hk, hq⟩ <;> rw [hq] <;> unfold afterKey <;>
        split_ifs <;> simp only [load] <;> split_ifs <;> omega
  dequeue {i a source nxt} h d := by
    rcases dequeue_cases h with ⟨count, lost, -, rfl, rfl, hn⟩ | ⟨count, -, rfl, rfl, hn⟩ |
      ⟨k, n, -, rfl, rfl, hn⟩ <;> rw [hn]
    · split_ifs <;> simp only [load] <;> omega
    · split_ifs with hd <;> simp only [load, hd, if_true, if_false] <;>
        (try split_ifs) <;> omega
    · split_ifs <;> simp only [load] <;> omega
  compute {i a run} h x u r hr := by
    rcases compute_cases h with ⟨j, rfl, hrun⟩ | ⟨d, lost, rfl, hrun⟩ | ⟨d, rfl, -, hrun⟩ <;>
      rw [hrun] at hr <;> cases hr
    · have hordinary : Ordinary cfg (createMessage cfg x j) := createMessage_ordinary x j
      simp only [load, if_neg hordinary.ne_stop]
      omega
    · unfold consume
      split_ifs
      · exact Nat.zero_le 1
      · simp only [load]
        split_ifs with hstop
        · have htarget := congrArg NetworkMessage.target hstop
          simp [stopCondition] at htarget
        · exact le_rfl
    · exact Nat.zero_le 1

section Stuck

variable {c : QueueId → ℕ∞} {s : Net cfg}

theorem bounded_inPhase (h : ((network cfg).atomic c).Reachable s) : InPhase s :=
  reachable_inPhase (Network.atomic_reachable_mono (fun _ => le_top) h)

theorem dest_mem (I : InPhase s) {i : Thread cfg} {dest : QueueId} {d : NetworkMessage} {nxt : Pc}
    (hn : next cfg i (s.thread i) = .call (.enqueue dest d nxt)) : dest ∈ queues cfg := by
  have htoQueue : ∀ key, 1 ≤ key ∧ key ≤ cfg.consumerCount + 1 → toQueue cfg key ∈ queues cfg := by
    intro key hkey
    rcases toQueue_cases cfg key with ⟨-, hq⟩ | ⟨hne, hq⟩ <;> rw [hq]
    · exact assembler_mem
    · exact consumer_mem ⟨hkey.1, by omega⟩
  rcases enqueue_cases hn with ⟨_, -, rfl, -⟩ | ⟨-, -, rfl, -⟩ | ⟨_, -, rfl, -⟩ |
    ⟨_, _, -, -, rfl, -⟩ | ⟨-, hpos, hle, rfl, -⟩ | ⟨_, -, -, rfl, -⟩ | ⟨key, rfl, hpc, -, rfl, -⟩
  · exact dispatcher_mem
  · exact dispatcher_mem
  · exact dispatcher_mem
  · exact dispatcher_mem
  · exact htoQueue _ ⟨hpos, hle⟩
  · exact assembler_mem
  · unfold InPhase at I
    rw [hpc] at I
    exact htoQueue key I.broadcast_key

theorem enqueue_room (hc : ∀ q, ((cfg.packageCount + 2 : ℕ) : ℕ∞) ≤ c q)
    (h : ((network cfg).atomic c).Reachable s) {i : Thread cfg} {dest : QueueId}
    {d : NetworkMessage} {nxt : Pc}
    (hn : next cfg i (s.thread i) = .call (.enqueue dest d nxt)) :
    (s.queue dest).length < c dest := by
  have hroom : ∀ key, (∀ d, 1 ≤ (load cfg key).data dest d) →
      (s.queue dest).length < cfg.packageCount + 2 := by
    intro key hdata
    have hlt := (load_pays key).length_lt h hn (dest_mem (bounded_inPhase h) hn) hdata
    rw [sum_start (load cfg key) rfl rfl fun _ => rfl] at hlt
    exact hlt.trans_le (load_atIndex cfg key 0 .producer)
  have hlength : (s.queue dest).length < cfg.packageCount + 2 := by
    cases dest with
    | assembler => exact hroom 0 fun d => le_rfl
    | dispatcher =>
      apply hroom 0
      intro d
      simp only [load]
      split_ifs <;> decide
    | consumer key =>
      apply hroom key
      intro d
      simp only [load, if_true, le_refl]
  exact lt_of_lt_of_le (by exact_mod_cast hlength) (hc dest)

variable (hc : ∀ q, ((cfg.packageCount + 2 : ℕ) : ℕ∞) ≤ c q)
  (h : ((network cfg).atomic c).Reachable s)

include hc h

theorem moves_or_waits (i : Thread cfg) :
    (∀ x, ∃ t, ((network cfg).atomic c).step s (i, x) = some t) ∨
    next cfg i (s.thread i) = .finished ∨
    ∃ q nxt, next cfg i (s.thread i) = .call (.dequeue q nxt) ∧ s.queue q = [] := by
  cases hn : next cfg i (s.thread i) with
  | finished => exact .inr (.inl rfl)
  | compute run =>
    have hrun : ∀ x, ∃ r, run x s.memory = some r := by
      intro x
      rcases compute_cases hn with ⟨j, -, hr⟩ | ⟨d, lost, -, hr⟩ | ⟨d, -, -, hr⟩ <;>
        exact ⟨_, hr x s.memory⟩
    refine .inl fun x => ?_
    obtain ⟨r, hr⟩ := hrun x
    exact ⟨_, Network.atomic_compute hn hr⟩
  | call op =>
    cases op with
    | enqueue dest d nxt =>
      exact .inl fun x => ⟨_, Network.atomic_enqueue hn (enqueue_room hc h hn)⟩
    | dequeue source nxt =>
      cases hq : s.queue source with
      | nil => exact .inr (.inr ⟨source, nxt, rfl, hq⟩)
      | cons d rest => exact .inl fun x => ⟨_, Network.atomic_dequeue hn hq⟩

theorem front_moves : (∃ i, i ≠ .assembler ∧
      ∀ x, ∃ t, ((network cfg).atomic c).step s (i, x) = some t) ∨
    s.thread .producer = .produced ∧ s.thread .dispatcher = .dispatched := by
  have hproducer := moves_or_waits hc h .producer
  have hdispatcher := moves_or_waits hc h .dispatcher
  have I := bounded_inPhase h
  unfold InPhase at I
  cases I with
  | producing hp =>
    refine .inl ⟨.producer, by simp, hproducer.resolve_right ?_⟩
    cases hpc : s.thread .producer <;> rw [hpc] at hp
    all_goals first | exact hp.elim | simp [next, PacketLossFix.next]
  | sent x y hp ha hd hq =>
    refine .inl ⟨.dispatcher, by simp, hdispatcher.resolve_right ?_⟩
    cases hpc : s.thread .dispatcher with
    | dispatchLoop count => simp [next, hq]
    | dispatch d =>
      simp only [next, PacketLossFix.next, redirect]
      split_ifs <;> simp
    | _ =>
      rw [hpc] at hd
      exact hd.elim
  | telling key hp ha hd =>
    refine .inl ⟨.dispatcher, by simp, hdispatcher.resolve_right ?_⟩
    simp [hd, next, PacketLossFix.next]
  | told x hp ha hd => exact .inr ⟨hp, hd⟩
  | assembled lost hp ha hd => exact .inr ⟨hp, hd⟩

variable (hs : ((network cfg).atomic c).Stuck s)

include hs

theorem waits_of_stuck (i : Thread cfg) : next cfg i (s.thread i) = .finished ∨
    ∃ q nxt, next cfg i (s.thread i) = .call (.dequeue q nxt) ∧ s.queue q = [] := by
  apply (moves_or_waits hc h i).resolve_left
  intro hmoves
  obtain ⟨t, ht⟩ := hmoves default
  cases (hs (i, default)).symm.trans ht

theorem stuck_phase : s.thread .producer = .produced ∧
    (∃ lost, s.thread .assembler = .assembled lost) ∧ s.thread .dispatcher = .dispatched := by
  obtain ⟨i, -, hmoves⟩ | ⟨hp, hd⟩ := front_moves hc h
  · obtain ⟨t, ht⟩ := hmoves default
    cases (hs (i, default)).symm.trans ht
  have hst := waits_of_stuck hc h hs .assembler
  have I := bounded_inPhase h
  unfold InPhase at I
  rw [hp, hd] at I
  cases I with
  | producing hp' => exact hp'.elim
  | sent x y hp' ha hd' => exact hd'.elim
  | telling key hp' ha hd' => cases hd'
  | told x hp' ha hd' hqd hq =>
    cases hpc : s.thread .assembler with
    | consumeLoop count lost => simp [hpc, next, hq] at hst
    | consume d lost => simp [hpc, next, PacketLossFix.next] at hst
    | forward d lost => simp [hpc, next, PacketLossFix.next] at hst
    | _ =>
      rw [hpc] at ha
      exact ha.elim
  | assembled lost hp' ha => exact ⟨hp, ⟨lost, ha⟩, hd⟩

theorem stuck_finished (i : Thread cfg) : (s.thread i).Finished := by
  obtain ⟨hp, ⟨lost, ha⟩, hd⟩ := stuck_phase hc h hs
  have hr : (simulation cfg).Reachable s := Network.atomic_reachable_mono (fun _ => le_top) h
  cases i with
  | producer => exact hp ▸ trivial
  | assembler => exact ha ▸ trivial
  | dispatcher => exact hd ▸ trivial
  | consumer k =>
    obtain ⟨n, ⟨hpc, hcount, -⟩ | ⟨hpc, -, -⟩⟩ := reachable_consuming hr k
    · have hst := waits_of_stuck hc h hs (.consumer k)
      have hq : s.queue (.consumer (k + 1)) = [] := by
        simpa [hpc, next, PacketLossFix.next] using hst
      have hsent := (reachable_redirecting hr).sent (k + 1) (Nat.le_add_left 1 _) k.isLt
      have htold : (k : ℕ) + 1 ≤ (Pc.dispatched).told cfg.consumerCount := k.isLt
      rw [hd, if_pos htold, toQueues, Network.atomic_order hr, hq, List.append_nil, hcount] at hsent
      cases hsent
    · exact hpc ▸ trivial

end Stuck

end Concurrente.PacketLoss
