import Concurrente.PacketLoss.Progress

/-!
# What becomes of the messages of network_simul_packet_loss

Besides those that are lost and those that are consumed there are messages that the assembler
sends when the dispatcher has left: they stay in its queue.
-/

namespace Concurrente.PacketLoss

open Prodcons PacketLossFix

variable {cfg : Config} {m : ℕ}

section Finished

variable {s : Net cfg}

theorem Phase.finished {p a d : Pc} {qd qa : List NetworkMessage} (h : Phase cfg p a d qd qa)
    (ha : a.Finished) (hd : d.Finished) :
    p = .produced ∧ (∃ lost, a = .assembled lost) ∧ d = .dispatched ∧ qa = [] := by
  cases h with
  | producing hp ha' hd' => exact absurd hd (not_finished_of_dispatches hd')
  | sent x y hp ha' hd' => exact absurd hd (not_finished_of_dispatches hd')
  | telling key hp ha' hd' =>
    subst hd'
    exact hd.elim
  | told x hp ha' hd' =>
    cases a with
    | consumeLoop count lost => exact ha.elim
    | consume d lost => exact ha.elim
    | forward d lost => exact ha.elim
    | _ => exact ha'.elim
  | assembled lost hp ha' hd' hqd hqa => exact ⟨hp, ⟨lost, ha'⟩, hd', hqa⟩

theorem finished_messages (h : (simulation cfg).Reachable s) (hf : ∀ i, (s.thread i).Finished) :
    ∃ lost, s.thread .assembler = .assembled lost ∧ ∀ m < cfg.packageCount,
      numbered m lost + delivered m cfg (fun key => s.dequeued (.consumer key)) +
        numbered m (s.queue .dispatcher) = 1 := by
  obtain ⟨hp, ⟨lost, ha⟩, hd, hqa⟩ :=
    Phase.finished (reachable_inPhase h) (hf .assembler) (hf .dispatcher)
  refine ⟨lost, ha, fun m hm => ?_⟩
  have hplaces := reachable_places hm h
  unfold places at hplaces
  rw [hp, ha, hd, hqa, follows.finished_delivered (reachable_redirecting h) h hf] at hplaces
  simp only [Pc.holds_produced, Pc.holds_assembled, Pc.holds_dispatched, numbered_nil] at hplaces
  omega

end Finished

def Pc.LostNone : Pc → Prop
  | .consumeLoop _ lost | .consume _ lost | .forward _ lost | .assembled lost => lost = []
  | _ => False

/-- A run in which all messages go to the assembler, which does not begin before the dispatcher
has left. -/
structure Straggling (s : Net cfg) : Prop where
  idle : s.thread .dispatcher ≠ .dispatched → s.thread .assembler = .consumeLoop 0 []
  lost : Pc.LostNone (s.thread .assembler)
  produce : ∀ d i, s.thread .producer = .produce d i → d.target = cfg.consumerCount + 1
  dispatch : ∀ d, s.thread .dispatcher = .dispatch d → d.target = cfg.consumerCount + 1
  queued : s.thread .dispatcher ≠ .dispatched →
    ∀ d ∈ s.queue .dispatcher, d = stopCondition ∨ d.target = cfg.consumerCount + 1
  consumed : ∀ key, ∀ d ∈ toQueues s key, d = stopCondition

/-- The target is the assembler, which loses nothing. -/
def toAssembler (cfg : Config) (hp : cfg.packetLossProbability < 100) : Choice where
  target := cfg.consumerCount
  draw := max 0 cfg.packetLossProbability
  draw_nonneg := le_max_left _ _
  draw_lt := max_lt (by norm_num) hp

variable {hp : cfg.packetLossProbability < 100}

theorem createMessage_toAssembler (i : ℕ) :
    (createMessage cfg (toAssembler cfg hp) i).target = cfg.consumerCount + 1 := by
  simp only [createMessage, toAssembler, Nat.mod_eq_of_lt (Nat.lt_succ_self _)]
  exact Nat.add_comm _ _

section Straggling

variable {s t : Net cfg}

theorem atIndex_ne_produce (i : ℕ) (d : NetworkMessage) (j : ℕ) : atIndex cfg i ≠ .produce d j := by
  unfold atIndex
  split_ifs <;> simp

theorem Straggling.producer (S : Straggling s)
    (h : (simulation cfg).step s (.producer, toAssembler cfg hp) = some t) : Straggling t := by
  rcases follows.producer_cases h with ⟨i, hpc, rfl⟩ | ⟨d, i, hpc, rfl⟩ | ⟨hpc, rfl⟩
  · refine ⟨S.idle, S.lost, fun d j hd => ?_, S.dispatch, S.queued, S.consumed⟩
    rw [Snapshot.compute_thread, Function.update_self] at hd
    cases hd
    exact createMessage_toAssembler i
  · refine ⟨S.idle, S.lost, fun d' j hd => ?_, S.dispatch, fun hne => ?_, S.consumed⟩
    · rw [Snapshot.push_thread, Function.update_self] at hd
      exact absurd hd (atIndex_ne_produce _ _ _)
    · rw [Snapshot.push_queue, Function.update_self]
      exact forall_append (S.queued hne) (.inr (S.produce d i hpc))
  · refine ⟨S.idle, S.lost, fun d' j hd => ?_, S.dispatch, fun hne => ?_, S.consumed⟩
    · rw [Snapshot.push_thread, Function.update_self] at hd
      cases hd
    · rw [Snapshot.push_queue, Function.update_self]
      exact forall_append (S.queued hne) (.inl rfl)

theorem Straggling.dispatcher (I : InPhase s) (S : Straggling s) {x : Choice}
    (h : (simulation cfg).step s (.dispatcher, x) = some t) : Straggling t := by
  unfold InPhase at I
  rcases follows.dispatcher_cases h with ⟨count, d, rest, hpc, hq, rfl⟩ | ⟨d, hpc, rfl⟩ |
    ⟨d, hpc, ht⟩ | ⟨count, hpc, -⟩ | ⟨key, hpc, rfl⟩ <;> rw [hpc] at I
  · have hidle := S.idle (by simp [hpc])
    have hqueued := S.queued (by simp [hpc])
    rw [hq] at hqueued
    obtain ⟨hd, hrest⟩ := List.forall_mem_cons.mp hqueued
    refine ⟨fun _ => hidle, S.lost, S.produce, fun d' hd' => ?_, fun _ => ?_, S.consumed⟩
    · rw [Snapshot.pop_thread, Function.update_self] at hd'
      split_ifs at hd' with hstop
      cases hd'
      exact hd.resolve_left hstop
    · rw [Snapshot.pop_queue, Function.update_self]
      exact hrest
  · have hidle := S.idle (by simp [hpc])
    have hqueued := S.queued (by simp [hpc])
    have hto : toQueue cfg d.target = .assembler := if_pos (S.dispatch d hpc)
    rw [hto]
    exact ⟨fun _ => hidle, S.lost, S.produce, fun d' hd' => by simp [atDispatcher] at hd',
      fun _ => hqueued, S.consumed⟩
  · exact absurd ⟨I.dispatch_ordinary.target_pos, I.dispatch_ordinary.target_le⟩ ht
  · exact absurd rfl (I.ne_echo count)
  · have hidle := S.idle (by simp [hpc])
    have hqueued := S.queued (by simp [hpc])
    have hafter : ∀ d, afterKey cfg key ≠ .dispatch d := by
      intro d
      unfold afterKey
      split_ifs <;> simp
    rcases toQueue_cases cfg key with ⟨-, hto⟩ | ⟨-, hto⟩ <;> rw [hto]
    · refine ⟨fun _ => hidle, S.lost, S.produce, fun d' hd' => ?_, fun _ => hqueued, S.consumed⟩
      rw [Snapshot.push_thread, Function.update_self] at hd'
      exact absurd hd' (hafter d')
    · refine ⟨fun _ => hidle, S.lost, S.produce, fun d' hd' => ?_, fun _ => hqueued, ?_⟩
      · rw [Snapshot.push_thread, Function.update_self] at hd'
        exact absurd hd' (hafter d')
      · intro key'
        rw [toQueues_push]
        by_cases hk : key' = key
        · subst hk
          rw [Function.update_self]
          exact forall_append (S.consumed key') rfl
        · rw [Function.update_of_ne hk]
          exact S.consumed key'

theorem Straggling.assembler (I : InPhase s) (S : Straggling s)
    (hd : s.thread .dispatcher = .dispatched)
    (h : (simulation cfg).step s (.assembler, toAssembler cfg hp) = some t) : Straggling t := by
  unfold InPhase at I
  have hlost := S.lost
  rcases follows.assembler_cases h with ⟨count, lost, d, rest, hpc, hq, rfl⟩ | ⟨d, lost, hpc, rfl⟩ |
    ⟨d, lost, hpc, rfl⟩ | ⟨count, lost, hpc, -⟩
  · rw [hpc] at hlost
    refine ⟨fun hne => absurd hd hne, ?_, S.produce, S.dispatch, fun hne => absurd hd hne,
      S.consumed⟩
    rw [Snapshot.pop_thread, Function.update_self]
    split_ifs <;> exact hlost
  · rw [hpc] at hlost
    refine ⟨fun hne => absurd hd hne, ?_, S.produce, S.dispatch, S.queued, S.consumed⟩
    rw [Snapshot.compute_thread, Function.update_self, consume]
    have hkept : ¬ (toAssembler cfg hp).draw < cfg.packetLossProbability :=
      not_lt.mpr (le_max_right _ _)
    rw [if_neg hkept]
    exact hlost
  · rw [hpc] at hlost
    refine ⟨fun hne => absurd hd hne, ?_, S.produce, S.dispatch, fun hne => absurd hd hne,
      S.consumed⟩
    rw [Snapshot.push_thread, Function.update_self]
    exact hlost
  · exact absurd hpc (I.ne_answer count lost)

theorem Straggling.consumer (S : Straggling s) {k : Fin cfg.consumerCount} {x : Choice}
    (h : (simulation cfg).step s (.consumer k, x) = some t) : Straggling t := by
  obtain ⟨n, d, rest, hpc, hq, rfl⟩ := (follows.consumes k).cases h
  exact ⟨S.idle, S.lost, S.produce, S.dispatch, S.queued, S.consumed⟩

variable {c : QueueId → ℕ∞}

theorem straggling_next (hp : cfg.packetLossProbability < 100)
    (hc : ∀ q, ((cfg.packageCount + 2 : ℕ) : ℕ∞) ≤ c q)
    (h : ((network cfg).atomic c).Reachable s) (S : Straggling s) :
    (∀ i, (s.thread i).Finished) ∨
      ∃ a t, ((network cfg).atomic c).step s a = some t ∧ Straggling t := by
  have hsimulation : ∀ i t, ((network cfg).atomic c).step s (i, toAssembler cfg hp) = some t →
      (simulation cfg).step s (i, toAssembler cfg hp) = some t :=
    fun i t ht => Network.atomic_mono (fun _ => le_top) ht
  have I := bounded_inPhase h
  obtain ⟨i, hi, hmoves⟩ | ⟨-, hd⟩ := front_moves hc h
  · obtain ⟨t, ht⟩ := hmoves (toAssembler cfg hp)
    refine .inr ⟨_, t, ht, ?_⟩
    have ht' := hsimulation i t ht
    cases i with
    | producer => exact S.producer ht'
    | assembler => exact absurd rfl hi
    | dispatcher => exact S.dispatcher I ht'
    | consumer k => exact S.consumer ht'
  -- the assembler begins when the dispatcher has left
  · by_cases hs : ((network cfg).atomic c).Stuck s
    · exact .inl (stuck_finished hc h hs)
    · obtain ⟨⟨i, x⟩, t, ht⟩ := System.not_stuck_iff.mp hs
      obtain ⟨t', ht'⟩ : ∃ t, ((network cfg).atomic c).step s (i, toAssembler cfg hp) = some t := by
        obtain hmoves | hn | ⟨q, nxt, hn, hq⟩ := moves_or_waits hc h i
        · exact hmoves _
        · have hn' : (network cfg).next i (s.thread i) = .finished := hn
          simp [Network.atomic, hn'] at ht
        · have hn' : (network cfg).next i (s.thread i) = .call (.dequeue q nxt) := hn
          simp [Network.atomic, hn', hq] at ht
      refine .inr ⟨_, t', ht', ?_⟩
      have hstep := hsimulation i t' ht'
      cases i with
      | producer => exact S.producer hstep
      | assembler => exact S.assembler I hd hstep
      | dispatcher => exact S.dispatcher I hstep
      | consumer k => exact S.consumer hstep

theorem straggling_start : Straggling ((network cfg).atomic c).start where
  idle _ := rfl
  lost := rfl
  produce d i hd := absurd hd (atIndex_ne_produce _ _ _)
  dispatch d hd := by cases hd
  queued _ := List.forall_mem_nil _
  consumed _ := List.forall_mem_nil _

theorem exists_stranded (hp : cfg.packetLossProbability < 100) (c : QueueId → ℕ∞)
    (hc : ∀ q, ((cfg.packageCount + 2 : ℕ) : ℕ∞) ≤ c q) :
    ∃ s, ((network cfg).atomic c).Reachable s ∧ (∀ i, (s.thread i).Finished) ∧
      s.thread .assembler = .assembled [] ∧ (∀ key, ∀ d ∈ s.dequeued (.consumer key),
        d = stopCondition) ∧ ∀ m < cfg.packageCount, numbered m (s.queue .dispatcher) = 1 := by
  obtain ⟨s, hpath, S, hf⟩ := System.exists_path ((left cfg).total (queues cfg))
    (I := Straggling) (G := fun s => ∀ i, (s.thread i).Finished)
    (fun s a t _ ht => left_pays.step (x := a.2) ht) (fun s h S => straggling_next hp hc h S)
    System.Reachable.start straggling_start
  have h : ((network cfg).atomic c).Reachable s := hpath
  have hr : (simulation cfg).Reachable s := Network.atomic_reachable_mono (fun _ => le_top) h
  obtain ⟨lost, ha, hm⟩ := finished_messages hr hf
  have hlost := S.lost
  rw [ha] at hlost
  obtain rfl : lost = [] := hlost
  have hconsumed : ∀ key, ∀ d ∈ s.dequeued (.consumer key), d = stopCondition := by
    intro key d hd
    apply S.consumed key
    rw [toQueues, Network.atomic_order hr]
    exact List.mem_append_left _ hd
  refine ⟨s, h, hf, ha, hconsumed, fun m hlt => ?_⟩
  have hzero : delivered m cfg (fun key => s.dequeued (.consumer key)) = 0 :=
    Finset.sum_eq_zero fun key _ => numbered_of_stop (hconsumed key)
  have hone := hm m hlt
  rw [hzero, numbered_nil] at hone
  omega

end Straggling

/-- With queues for all messages the simulation ends, and every message has been lost once, has
been consumed once by the consumer it was addressed to, or stays in the queue of the dispatcher. -/
theorem messages_accounted (cfg : Config) (c : ℕ) (hc : cfg.packageCount + 2 ≤ c)
    (hmax : c ≤ semValueMax) :
    (∀ s, ((network cfg).system fun _ => c).Reachable s →
      (((network cfg).system fun _ => c).Stuck s →
        ∀ i, s.call i = none ∧ (s.thread i).Finished) ∧
      (∀ key, ∀ d ∈ s.dequeued (.consumer key), d = stopCondition ∨ d.target = key) ∧
      ((∀ i, (s.thread i).Finished) → ∃ lost, s.thread .assembler = .assembled lost ∧
        ∀ m < cfg.packageCount, numbered m lost +
          ∑ key ∈ Finset.Icc 1 cfg.consumerCount, numbered m (s.dequeued (.consumer key)) +
            numbered m (s.queue .dispatcher).queue = 1)) ∧
    ∀ l s, ((network cfg).system fun _ => c).run l = some s →
      l.length ≤ 50 * cfg.packageCount + 12 * cfg.consumerCount + 51 := by
  have hroom : ∀ _ : QueueId, ((cfg.packageCount + 2 : ℕ) : ℕ∞) ≤ (semInit c : ℕ∞) := by
    rw [semInit_eq_iff.mpr hmax]
    exact fun _ => by exact_mod_cast hc
  refine ⟨fun s h => ?_, fun l s hl => ?_⟩
  · have hatomic := reachable_snapshot h
    have hr : (simulation cfg).Reachable s.snapshot :=
      Network.atomic_reachable_mono (fun _ => le_top) hatomic
    refine ⟨fun hs i => ⟨call_eq_none_of_stuck h hs i, ?_⟩, fun key d hd => ?_,
      finished_messages hr⟩
    · exact stuck_finished hroom hatomic (stuck_snapshot h hs) i
    · apply (reachable_redirecting hr).routed key
      rw [toQueues, Network.atomic_order hr]
      exact List.mem_append_left _ hd
  · have hlength := left_pays.length_le hl
    rw [sum_start (left cfg) rfl rfl fun _ => rfl, card_thread] at hlength
    have hstart := left_atIndex cfg 0 .producer
    omega

/-- One of the ends of a simulation of one message. -/
theorem messages_accounted_one : ∃ s lost, ((network oneMessage).system fun _ => 3).Reachable s ∧
    (∀ i, s.call i = none ∧ (s.thread i).Finished) ∧ s.thread .assembler = .assembled lost ∧
    numbered 0 lost + ∑ key ∈ Finset.Icc 1 1, numbered 0 (s.dequeued (.consumer key)) +
      numbered 0 (s.queue .dispatcher).queue = 1 := by
  obtain ⟨s, hr, hs⟩ := (terminates_of_atomic ⟨(left oneMessage).total (queues oneMessage),
    fun s a t _ ht => left_pays.step (x := a.2) ht⟩).exists_stuck (M :=
      (network oneMessage).system fun _ => 3)
  obtain ⟨hstuck, -, hend⟩ := (messages_accounted oneMessage 3 (by decide) (by decide)).1 s hr
  have hf := hstuck hs
  obtain ⟨lost, ha, hm⟩ := hend fun i => (hf i).2
  exact ⟨s, lost, hr, hf, ha, hm 0 (by decide)⟩

/-- Whatever the other arguments, when a loss is not certain the simulation can end without any,
and with all messages in the queue of the dispatcher. -/
theorem messages_stranded (cfg : Config) (hp : cfg.packetLossProbability < 100) (c : ℕ)
    (hc : cfg.packageCount + 2 ≤ c) (hmax : c ≤ semValueMax) :
    ∃ s, ((network cfg).system fun _ => c).Reachable s ∧
      (∀ i, s.call i = none ∧ (s.thread i).Finished) ∧ s.thread .assembler = .assembled [] ∧
      (∀ key, ∀ d ∈ s.dequeued (.consumer key), d = stopCondition) ∧
      ∀ m < cfg.packageCount, numbered m (s.queue .dispatcher).queue = 1 := by
  have hroom : ∀ _ : QueueId, ((cfg.packageCount + 2 : ℕ) : ℕ∞) ≤ (semInit c : ℕ∞) := by
    rw [semInit_eq_iff.mpr hmax]
    exact fun _ => by exact_mod_cast hc
  obtain ⟨r, hr, hf, ha, hconsumed, hm⟩ := exists_stranded hp (fun _ => (semInit c : ℕ∞)) hroom
  obtain ⟨s, hs, hcalls, rfl⟩ := reachable_of_atomic (c := fun _ => c) hr
  exact ⟨s, hs, fun i => ⟨hcalls i, hf i⟩, ha, hconsumed, hm⟩

theorem messages_stranded_one : ∃ s, ((network oneMessage).system fun _ => 3).Reachable s ∧
    (∀ i, (s.thread i).Finished) ∧ s.thread .assembler = .assembled [] ∧
    numbered 0 (s.queue .dispatcher).queue = 1 := by
  obtain ⟨s, hs, hf, ha, -, hm⟩ :=
    messages_stranded oneMessage (by norm_num [oneMessage]) 3 (by decide) (by decide)
  exact ⟨s, hs, fun i => (hf i).2, ha, hm 0 (by decide)⟩

end Concurrente.PacketLoss
