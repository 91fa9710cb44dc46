import Concurrente.SimulBound.Progress

/-!
# Conservation and progress of network_simul_bound

The results about the network with semaphores and mutexes, for any capacity.
-/

namespace Concurrente.SimulBound

open Prodcons

variable {cfg : Config}

abbrev Run (cfg : Config) := State (Thread cfg) QueueId NetworkMessage Pc Counter

def Finished (s : Run cfg) : Prop := ∀ i, s.call i = none ∧ (s.thread i).Finished

/-- `receivedMessages` of a consumer. -/
def Pc.receivedMessages : Pc → ℕ
  | receiveLoop n | received n => n
  | _ => 0

/-- How often the message with this number occurs: unclaimed, at a producer, in the queue of the
assembler, at the assembler, lost, in the queue of the dispatcher, at the dispatcher, in the queue
of a consumer or received. -/
def places (s : Net cfg) (m : ℕ) : ℕ :=
  (if s.memory.producedCount < m then 1 else 0) + ∑ i, (s.thread (.producer i)).holds m +
  numbered m (s.queue .assembler) + numbered m (s.thread .assembler).held +
  numbered m (s.thread .assembler).lost + numbered m (s.queue .dispatcher) +
  numbered m (s.thread .dispatcher).held +
  ∑ key ∈ Finset.Icc 1 cfg.consumerCount, numbered m (s.queue (.consumer key)) +
  ∑ key ∈ Finset.Icc 1 cfg.consumerCount, numbered m (s.dequeued (.consumer key))

section Accounts

variable {s : Net cfg} {c : QueueId → ℕ∞}

theorem places_eq_one (hL : cfg.packageCount + cfg.producerCount < 2 ^ 64)
    (hr : ((network cfg).atomic c).Reachable s) {m : ℕ} (hm : 1 ≤ m)
    (hm' : m ≤ cfg.packageCount) : places s m = 1 := by
  have h1 : _ + ∑ i, (s.thread (.producer i)).holds m + _ = 1 :=
    (reachable_producing hL hr).holds m hm hm'
  have h2 : numbered m _ = numbered m _ := (reachable_assembling hr).kept.countP_eq _
  have h3 := (reachable_dispatching hr).kept m hm
  have h4 : ∑ key ∈ Finset.Icc 1 cfg.consumerCount, numbered m (toQueues s key) =
      ∑ key ∈ Finset.Icc 1 cfg.consumerCount, numbered m (s.dequeued (.consumer key)) +
        ∑ key ∈ Finset.Icc 1 cfg.consumerCount, numbered m (s.queue (.consumer key)) := by
    rw [← Finset.sum_add_distrib]
    apply Finset.sum_congr rfl
    intro key _
    rw [toQueues, Network.atomic_order hr, numbered_append]
  rw [Network.atomic_order hr, numbered_append] at h1
  rw [Network.atomic_order hr .dispatcher, numbered_append, numbered_append, numbered_append] at h2
  rw [places]
  omega

theorem past_of_stop (hL : cfg.packageCount + cfg.producerCount < 2 ^ 64) (I : Producing s)
    (hstop : stopCondition ∈ s.enqueued .assembler) (i : Fin cfg.producerCount) :
    (producers s i).past cfg.packageCount = 1 := by
  have hle := past_le_one cfg.packageCount (producers s i)
  by_contra hne
  exact stop_notMem_of_past hL I (i := i) (by omega) hstop

theorem holds_of_past {m : ℕ} (hm : m ≤ cfg.packageCount) {pc : Pc}
    (h : pc.past cfg.packageCount = 1) : pc.holds m = 0 := by
  cases pc with
  | leave k =>
    simp only [Pc.past] at h
    split at h
    · exact if_neg (by omega)
    · cases h
  | create k => cases h
  | produce d => cases h
  | _ => rfl

theorem stop_after_packages (hL : cfg.packageCount + cfg.producerCount < 2 ^ 64)
    (I : Producing s) (hstop : stopCondition ∈ s.enqueued .assembler) :
    ∃ l, s.enqueued .assembler = l ++ [stopCondition] ∧
      ∀ m, 1 ≤ m → m ≤ cfg.packageCount → numbered m l = 1 := by
  obtain ⟨l, hl, -⟩ := I.last hstop
  refine ⟨l, hl, fun m hm hm' => ?_⟩
  have hpast := past_of_stop hL I hstop
  have hholds : ∑ i, (producers s i).holds m = 0 :=
    Finset.sum_eq_zero fun i _ => holds_of_past hm' (hpast i)
  have hcount : ∑ i, (producers s i).past cfg.packageCount = cfg.producerCount := by
    simp [hpast]
  have h1 := I.holds m hm hm'
  have h2 := I.past
  have hN := cfg.producerCount_pos
  rw [hl, numbered_append, numbered_stop hm, hholds, if_neg (by omega)] at h1
  omega

theorem numbered_cons (m : ℕ) (d : NetworkMessage) (l : List NetworkMessage) :
    numbered m (d :: l) = numbered m l + if d.messageNumber = m then 1 else 0 := by
  simp [numbered, List.countP_cons]

theorem length_eq_sum_numbered {n : ℕ} {l : List NetworkMessage}
    (h : ∀ d ∈ l, d = stopCondition ∨ 1 ≤ d.messageNumber ∧ d.messageNumber ≤ n) :
    l.length = l.count stopCondition + ∑ m ∈ Finset.Icc 1 n, numbered m l := by
  induction l with
  | nil => simp
  | cons d l ih =>
    have ihl := ih fun a ha => h a (List.mem_cons_of_mem _ ha)
    simp only [numbered_cons, Finset.sum_add_distrib, Finset.sum_ite_eq, Finset.mem_Icc]
    rcases h d List.mem_cons_self with rfl | hd
    · have hzero : ¬ (1 ≤ stopCondition.messageNumber ∧ stopCondition.messageNumber ≤ n) := by
        intro hh
        exact absurd hh.1 (by decide)
      rw [List.length_cons, List.count_cons_self, if_neg hzero]
      omega
    · have hne : d ≠ stopCondition := by
        rintro rfl
        exact absurd hd.1 (by decide)
      rw [List.length_cons, List.count_cons_of_ne hne, if_pos hd]
      omega

theorem numbers_assembler (hL : cfg.packageCount + cfg.producerCount < 2 ^ 64)
    (hr : ((network cfg).atomic c).Reachable s) : ∀ d ∈ s.enqueued .assembler,
      d = stopCondition ∨ 1 ≤ d.messageNumber ∧ d.messageNumber ≤ cfg.packageCount := by
  intro d hd
  by_cases hstop : d = stopCondition
  · exact .inl hstop
  · exact .inr ⟨((reachable_producing hL hr).numbers d hd).resolve_left hstop,
      (((reachable_claiming hr).ordinary d hd).resolve_left hstop).number_le⟩

theorem mem_assembler_of_kept (hr : ((network cfg).atomic c).Reachable s) {d : NetworkMessage}
    (hd : d ∈ (s.thread .assembler).lost ++ (s.thread .assembler).held ++ s.enqueued .dispatcher) :
    d ∈ s.enqueued .assembler := by
  rw [Network.atomic_order hr]
  exact List.mem_append_left _ ((reachable_assembling hr).kept.mem_iff.mpr hd)

theorem queue_eq_nil (hr : ((network cfg).atomic c).Reachable s) {q : QueueId}
    (hlast : StopLast (s.enqueued q)) (hq : stopCondition ∈ s.dequeued q) : s.queue q = [] := by
  rw [Network.atomic_order hr] at hlast
  exact hlast.rest hq

theorem Assembling.eq_assembled {pc : Pc} {dequeued enqueued : List NetworkMessage}
    (I : Assembling pc dequeued enqueued) (hf : pc.Finished) : pc = .assembled pc.lost := by
  have hkind := I.assembler
  cases pc <;> first | rfl | exact hf.elim | exact hkind.elim

theorem Dispatching.eq_dispatched {pc : Pc} {dequeued : List NetworkMessage}
    {out : ℕ → List NetworkMessage} (I : Dispatching cfg pc dequeued out) (hf : pc.Finished) :
    pc = .dispatched := by
  have hkind := I.dispatcher
  cases pc <;> first | rfl | exact hf.elim | exact hkind.elim

theorem emptied_of_finished (hL : cfg.packageCount + cfg.producerCount < 2 ^ 64)
    (hr : ((network cfg).atomic c).Reachable s) (hf : ∀ i, (s.thread i).Finished) :
    stopCondition ∈ s.enqueued .assembler ∧
      s.enqueued .assembler = s.dequeued .assembler ∧
      s.enqueued .dispatcher = s.dequeued .dispatcher := by
  have hP := reachable_producing hL hr
  have hA := reachable_assembling hr
  have hD := reachable_dispatching hr
  have hstopD : stopCondition ∈ s.dequeued .dispatcher := by
    apply List.count_pos_iff.mp
    rw [hD.stopped, hD.eq_dispatched (hf .dispatcher)]
    exact Nat.one_pos
  have hstopA : stopCondition ∈ s.dequeued .assembler := by
    rw [hA.kept.mem_iff, Network.atomic_order hr .dispatcher]
    exact List.mem_append_right _ (List.mem_append_left _ hstopD)
  have hqA := queue_eq_nil hr hP.last hstopA
  have hqD := queue_eq_nil hr hA.last hstopD
  refine ⟨?_, ?_, ?_⟩
  · rw [Network.atomic_order hr]
    exact List.mem_append_left _ hstopA
  · rw [Network.atomic_order hr, hqA, List.append_nil]
  · rw [Network.atomic_order hr, hqD, List.append_nil]

theorem receivedMessages_eq (hL : cfg.packageCount + cfg.producerCount < 2 ^ 64)
    (hr : ((network cfg).atomic c).Reachable s) (hf : ∀ i, (s.thread i).Finished)
    (k : Fin cfg.consumerCount) : (s.thread (.consumer k)).receivedMessages =
      ∑ m ∈ Finset.Icc 1 cfg.packageCount, numbered m (toQueues s (k + 1)) := by
  have hD := reachable_dispatching hr
  obtain ⟨-, -, henqD⟩ := emptied_of_finished hL hr hf
  have hfk := hf (.consumer k)
  obtain ⟨n, ⟨hpc, -, -⟩ | ⟨hpc, hcount, hlen⟩⟩ := reachable_consuming hr k
  · rw [hpc] at hfk
    exact hfk.elim
  · have hqk := queue_eq_nil hr (hD.last (k + 1))
      (List.count_pos_iff.mp (by rw [hcount]; exact Nat.one_pos))
    have hout : toQueues s (k + 1) = s.dequeued (.consumer (k + 1)) := by
      rw [toQueues, Network.atomic_order hr, hqk, List.append_nil]
    have hnumbers : ∀ d ∈ toQueues s (k + 1),
        d = stopCondition ∨ 1 ≤ d.messageNumber ∧ d.messageNumber ≤ cfg.packageCount := by
      intro d hd
      rcases hD.routed _ d hd with hd | ⟨-, hd⟩
      · exact .inl hd
      · apply numbers_assembler hL hr
        apply mem_assembler_of_kept hr
        rw [henqD]
        exact List.mem_append_right _ hd
    have hsum := length_eq_sum_numbered hnumbers
    rw [hout, hcount, hlen] at hsum
    rw [hpc, hout]
    simp only [Pc.receivedMessages]
    omega

theorem lost_length_eq (hL : cfg.packageCount + cfg.producerCount < 2 ^ 64)
    (hr : ((network cfg).atomic c).Reachable s) : (s.thread .assembler).lost.length =
      ∑ m ∈ Finset.Icc 1 cfg.packageCount, numbered m (s.thread .assembler).lost := by
  have hnumbers : ∀ d ∈ (s.thread .assembler).lost,
      d = stopCondition ∨ 1 ≤ d.messageNumber ∧ d.messageNumber ≤ cfg.packageCount := by
    intro d hd
    apply numbers_assembler hL hr
    apply mem_assembler_of_kept hr
    exact List.mem_append_left _ (List.mem_append_left _ hd)
  have hsum := length_eq_sum_numbered hnumbers
  rw [List.count_eq_zero.mpr (reachable_assembling hr).lost] at hsum
  omega

theorem redirected_or_lost (hL : cfg.packageCount + cfg.producerCount < 2 ^ 64)
    (hr : ((network cfg).atomic c).Reachable s) (hf : ∀ i, (s.thread i).Finished) {m : ℕ}
    (hm : m ∈ Finset.Icc 1 cfg.packageCount) :
    ∑ key ∈ Finset.Icc 1 cfg.consumerCount, numbered m (toQueues s key) +
      numbered m (s.thread .assembler).lost = 1 := by
  have hA := reachable_assembling hr
  have hD := reachable_dispatching hr
  obtain ⟨hstop, henqA, henqD⟩ := emptied_of_finished hL hr hf
  obtain ⟨hm, hm'⟩ := Finset.mem_Icc.mp hm
  obtain ⟨l, hl, hone⟩ := stop_after_packages hL (reachable_producing hL hr) hstop
  have h1 : numbered m (s.enqueued .assembler) = 1 := by
    rw [hl, numbered_append, hone m hm hm', numbered_stop hm]
  have h2 : numbered m _ = numbered m _ := hA.kept.countP_eq _
  have h3 := hD.kept m hm
  rw [numbered_append, numbered_append, henqD, ← henqA] at h2
  have hheldA : numbered m (s.thread .assembler).held = 0 := by
    rw [hA.eq_assembled (hf .assembler)]
    rfl
  have hheldD : numbered m (s.thread .dispatcher).held = 0 := by
    rw [hD.eq_dispatched (hf .dispatcher)]
    rfl
  omega

theorem sum_consumers (cfg : Config) (f : ℕ → ℕ) :
    ∑ k : Fin cfg.consumerCount, f (k + 1) = ∑ key ∈ Finset.Icc 1 cfg.consumerCount, f key := by
  rw [Fin.sum_univ_eq_sum_range (fun k => f (k + 1)), Finset.range_eq_Ico,
    Finset.sum_Ico_add' f 0 cfg.consumerCount 1]
  rfl

theorem received_add_lost (hL : cfg.packageCount + cfg.producerCount < 2 ^ 64)
    (hr : ((network cfg).atomic c).Reachable s) (hf : ∀ i, (s.thread i).Finished) :
    ∑ k : Fin cfg.consumerCount, (s.thread (.consumer k)).receivedMessages +
      (s.thread .assembler).lost.length = cfg.packageCount := by
  rw [lost_length_eq hL hr, Finset.sum_congr rfl fun k _ => receivedMessages_eq hL hr hf k,
    sum_consumers cfg fun key => ∑ m ∈ Finset.Icc 1 cfg.packageCount, numbered m (toQueues s key),
    Finset.sum_comm, ← Finset.sum_add_distrib,
    Finset.sum_congr rfl fun m hm => redirected_or_lost hL hr hf hm]
  simp

end Accounts

/-- In every reachable state the stop condition has been enqueued to the assembler at most once and
after all packages, every package is in exactly one place, and what a consumer has dequeued was
addressed to it.  At the end every package was received or lost. -/
theorem packages_accounted (cfg : Config)
    (hL : cfg.packageCount + cfg.producerCount < 2 ^ 64) (queueCapacity : ℕ) {s : Run cfg}
    (h : ((network cfg).system fun _ => queueCapacity).Reachable s) :
    ((s.enqueued .assembler).count stopCondition ≤ 1 ∧
      (stopCondition ∈ s.enqueued .assembler → ∃ l, s.enqueued .assembler = l ++ [stopCondition] ∧
        ∀ m, 1 ≤ m → m ≤ cfg.packageCount → numbered m l = 1)) ∧
    (∀ m, 1 ≤ m → m ≤ cfg.packageCount → places s.snapshot m = 1) ∧
    (∀ key, ∀ d ∈ s.dequeued (.consumer key), d = stopCondition ∨ d.target = key) ∧
    (Finished s → ∑ k : Fin cfg.consumerCount, (s.thread (.consumer k)).receivedMessages +
      (s.thread .assembler).lost.length = cfg.packageCount) := by
  have hr := reachable_snapshot h
  have hP := reachable_producing hL hr
  refine ⟨⟨?_, stop_after_packages hL hP⟩, fun m => places_eq_one hL hr, ?_, ?_⟩
  · have hstops := hP.stops
    change (s.snapshot.enqueued .assembler).count stopCondition ≤ 1
    omega
  · intro key d hd
    have hmem : d ∈ toQueues s.snapshot key := by
      rw [toQueues, Network.atomic_order hr]
      exact List.mem_append_left _ hd
    exact ((reachable_dispatching hr).routed key d hmem).imp_right And.left
  · intro hf
    exact received_add_lost hL hr fun i => (hf i).2

section Progress

variable {s : Run cfg} {queueCapacity : ℕ}

theorem one_le_semInit (hc : 1 ≤ queueCapacity) (hmax : queueCapacity ≤ semValueMax) :
    ∀ _q : QueueId, (1 : ℕ∞) ≤ semInit queueCapacity := by
  rw [semInit_eq_iff.mpr hmax]
  exact fun _ => by exact_mod_cast hc

theorem finished_of_stuck (hL : cfg.packageCount + cfg.producerCount < 2 ^ 64)
    (hc : 1 ≤ queueCapacity) (hmax : queueCapacity ≤ semValueMax)
    (hr : ((network cfg).system fun _ => queueCapacity).Reachable s)
    (hs : ((network cfg).system fun _ => queueCapacity).Stuck s) : Finished s := by
  have hr' := reachable_snapshot hr
  have hs' := stuck_snapshot hr hs
  have hc' := one_le_semInit hc hmax
  have hP := reachable_producing hL hr'
  have ho : Open s.snapshot := by
    intro i hi
    rcases hi with ⟨d, hd⟩ | hi
    · exact stop_notMem_of_past hL hP (i := i) (by rw [hd]; rfl)
    · exact stop_notMem_of_stops hP (i := i) (by rw [hi]; rfl)
  have hreturned := stuck_producer hc' hs' hr' ho
  have hsent : stopCondition ∈ s.snapshot.enqueued .assembler := by
    have hlast : cfg.lastProduced = cfg.packageCount + cfg.producerCount := Nat.mod_eq_of_lt hL
    have h1 := hP.past
    have h2 := hP.stops
    simp only [hreturned, Pc.past, Pc.stops, Finset.sum_const, Finset.card_univ, Fintype.card_fin,
      smul_eq_mul, mul_one, mul_zero] at h1 h2
    have hN := cfg.producerCount_pos
    rw [if_neg (by omega)] at h2
    apply List.count_pos_iff.mp
    omega
  intro i
  exact ⟨call_eq_none_of_stuck hr hs i, stuck_finished hc' hs' hr' ho hsent i⟩

theorem stop_of_finished (hr : ((network cfg).system fun _ => queueCapacity).Reachable s)
    (hf : Finished s) : stopCondition ∈ s.enqueued .assembler := by
  have hr' := reachable_snapshot hr
  have hA := reachable_assembling hr'
  apply mem_assembler_of_kept hr'
  apply List.mem_append_right
  apply List.count_pos_iff.mp
  rw [hA.sent, if_pos (hA.eq_assembled (hf .assembler).2)]
  exact Nat.one_pos

theorem exists_deadlock (cfg : Config) (hL : 2 ^ 64 ≤ cfg.packageCount + cfg.producerCount)
    (hP : cfg.packageCount + 1 < 2 ^ 64) (queueCapacity : ℕ) :
    ∃ s, ((network cfg).system fun _ => queueCapacity).Reachable s ∧
      ((network cfg).system fun _ => queueCapacity).Stuck s ∧ ¬ Finished s := by
  obtain ⟨s, hr, hs⟩ := (terminates_of_atomic (c := fun _ => queueCapacity)
    (atomic_terminates cfg hP _)).exists_stuck
  refine ⟨s, hr, hs, fun hf => ?_⟩
  have hlast : cfg.lastProduced ≤ cfg.packageCount := by
    have := cfg.producerCount_lt
    have := cfg.packageCount_lt
    unfold Config.lastProduced
    omega
  exact (reachable_unstopped hlast (reachable_snapshot hr)).never (stop_of_finished hr hf)

def Pc.toCall : Pc → ℕ
  | claim => 4
  | count => 3
  | leave _ => 2
  | create _ | consume _ _ | dispatch _ => 1
  | _ => 0

theorem toCall_lt {i : Thread cfg} {pc : Pc} {run : Choice → Counter → Option (Counter × Pc)}
    {x : Choice} {m : Counter} {r : Counter × Pc} (hn : next cfg i pc = .compute run)
    (hr : run x m = some r) : r.2.toCall < pc.toCall := by
  cases i <;> cases pc <;> simp only [next, redirect, reduceCtorEq, Instr.compute.injEq] at hn
  case producer.claim =>
    subst hn
    dsimp only at hr
    split_ifs at hr
    cases hr
    exact Nat.lt_succ_self 3
  case producer.leave k =>
    subst hn
    cases hr
    obtain ⟨-, ha⟩ | ⟨-, -, ha⟩ | ⟨-, -, ha⟩ := afterClaim_cases cfg k <;>
      simp only [ha, Pc.toCall] <;> norm_num
  case assembler.consume d lost =>
    subst hn
    cases hr
    dsimp only
    split_ifs <;> simp only [Pc.toCall] <;> norm_num
  case dispatcher.dispatch d =>
    split_ifs at hn
    cases hn
    cases hr
    exact Nat.one_pos
  all_goals
    subst hn
    cases hr
    simp only [Pc.toCall]
    norm_num

theorem exists_deadlock_closed (cfg : Config) (hmax : semValueMax < queueCapacity) :
    ∃ s, ((network cfg).system fun _ => queueCapacity).Reachable s ∧
      ((network cfg).system fun _ => queueCapacity).Stuck s ∧ ¬ Finished s := by
  have hclosed : (semInit queueCapacity : ℕ∞) = 0 := by
    rw [semInit, if_neg (not_le.mpr hmax), Nat.cast_zero]
  obtain ⟨s, hr, hs⟩ := (terminates_of_atomic (p := network cfg) (c := fun _ => queueCapacity)
    (Network.closed_terminates (fun _ => hclosed) Pc.toCall
      fun i a run x m r hn hr => toCall_lt hn hr)).exists_stuck
  refine ⟨s, hr, hs, fun hf => ?_⟩
  have hstop := stop_of_finished hr hf
  have hempty : s.snapshot.enqueued .assembler = [] :=
    Network.atomic_closed hclosed (reachable_snapshot hr)
  rw [show s.enqueued .assembler = [] from hempty] at hstop
  cases hstop

theorem not_returned (hP : cfg.packageCount = 2 ^ 64 - 1) {c : QueueId → ℕ∞} {s : Net cfg}
    (hr : ((network cfg).atomic c).Reachable s) (i : Fin cfg.producerCount) :
    producers s i ≠ .returned := by
  apply System.Reachable.invariant' (I := fun s : Net cfg => ∀ i, producers s i ≠ .returned) _ _ hr
  · intro i
    simp [Network.atomic, network, producers, start]
  · rintro s ⟨j, x⟩ t hr I ht
    by_cases hj : ∃ i, j = .producer i
    · obtain ⟨i, rfl⟩ := hj
      have hL : cfg.lastProduced ≤ cfg.packageCount := by
        unfold Config.lastProduced
        omega
      have hi := (reachable_claiming hr).producer i
      rcases producer_cases ht with ⟨hpc, hl, rfl⟩ | ⟨hpc, rfl⟩ | ⟨k, hpc, rfl⟩ | ⟨k, hpc, rfl⟩ |
        ⟨d, hpc, rfl⟩ | ⟨hpc, -⟩
      · exact producers_forall (· ≠ .returned) I rfl (by simp)
      · exact producers_forall (· ≠ .returned) I rfl (by simp)
      · rw [hpc] at hi
        have hk : k < 2 ^ 64 := hi
        have ha : afterClaim cfg k = .create k := if_pos (by omega)
        exact producers_forall (· ≠ .returned) I rfl (by simp [ha])
      · exact producers_forall (· ≠ .returned) I rfl (by simp)
      · exact producers_forall (· ≠ .returned) I rfl (by simp)
      · exact absurd hpc ((reachable_unstopped hL hr).producer i)
    · obtain ⟨hp, -, -⟩ := producers_frame ht (not_exists.mp hj)
      rw [hp]
      exact I

/-- No thread is left behind exactly when the sum of the counts does not wrap, or the producers
never get beyond the packages, and the queues can be made with their capacity. -/
theorem no_deadlock_iff (cfg : Config) (queueCapacity : ℕ) (hc : 1 ≤ queueCapacity) :
    (∀ s, ((network cfg).system fun _ => queueCapacity).Reachable s →
      ((network cfg).system fun _ => queueCapacity).Stuck s → Finished s) ↔
    (cfg.packageCount + cfg.producerCount < 2 ^ 64 ∨ cfg.packageCount = 2 ^ 64 - 1) ∧
      queueCapacity ≤ semValueMax := by
  constructor
  · intro h
    constructor
    · by_contra hn
      have hP := cfg.packageCount_lt
      obtain ⟨s, hr, hs, hf⟩ := exists_deadlock cfg (by omega) (by omega) queueCapacity
      exact hf (h s hr hs)
    · by_contra hn
      obtain ⟨s, hr, hs, hf⟩ := exists_deadlock_closed cfg (not_le.mp hn)
      exact hf (h s hr hs)
  · rintro ⟨h, hmax⟩ s hr hs
    rcases h with hL | hP
    · exact finished_of_stuck hL hc hmax hr hs
    · have hr' := reachable_snapshot hr
      have hc' := one_le_semInit hc hmax
      have hL : cfg.lastProduced ≤ cfg.packageCount := by
        unfold Config.lastProduced
        omega
      have ho : Open s.snapshot := fun _ _ => (reachable_unstopped hL hr').never
      have i : Fin cfg.producerCount := ⟨0, cfg.producerCount_pos⟩
      exact absurd (stuck_producer hc' (stuck_snapshot hr hs) hr' ho i) (not_returned hP hr' i)

end Progress

/-- Three packages, two producers and two consumers. -/
def threePackages : Config :=
  ⟨3, 2, 2, by omega, by omega, by omega, by omega, by omega⟩

theorem threePackages_stuck : ∃ s, ((network threePackages).system fun _ => 1).Reachable s ∧
    ((network threePackages).system fun _ => 1).Stuck s :=
  (terminates_of_atomic (c := fun _ => 1) (atomic_terminates threePackages (by decide)
    _)).exists_stuck

/-- Every run of three packages ends with all threads returned. -/
theorem no_deadlock_iff_three :
    ∃ s, ((network threePackages).system fun _ => 1).Reachable s ∧
      ((network threePackages).system fun _ => 1).Stuck s ∧ Finished s := by
  obtain ⟨s, hr, hs⟩ := threePackages_stuck
  exact ⟨s, hr, hs, (no_deadlock_iff threePackages 1 le_rfl).mpr
    ⟨.inl (by decide), by decide⟩ s hr hs⟩

/-- One of the ends of a simulation with queues of one place. -/
theorem packages_accounted_three :
    ∃ s, ((network threePackages).system fun _ => 1).Reachable s ∧ Finished s ∧
      (s.enqueued .assembler).count stopCondition ≤ 1 ∧
      (∀ m, 1 ≤ m → m ≤ 3 → places s.snapshot m = 1) ∧
      ∑ k : Fin 2, (s.thread (.consumer k)).receivedMessages +
        (s.thread .assembler).lost.length = 3 := by
  obtain ⟨s, hr, hs⟩ := threePackages_stuck
  have hf := finished_of_stuck (by decide) le_rfl (by decide) hr hs
  obtain ⟨hstops, hplaces, -, hsum⟩ := packages_accounted threePackages (by decide) 1 hr
  exact ⟨s, hr, hf, hstops.1, hplaces, hsum hf⟩

/-- Two producers of `2 ^ 64 - 2` packages. -/
def wrappingPackages : Config :=
  ⟨2 ^ 64 - 2, 2, 1, by omega, by omega, by omega, by omega, by omega⟩

/-- The producers return and no stop condition was sent. -/
theorem wrappingPackages_deadlock :
    ∃ s, ((network wrappingPackages).system fun _ => 1).Reachable s ∧
      ((network wrappingPackages).system fun _ => 1).Stuck s ∧ ¬ Finished s :=
  exists_deadlock wrappingPackages (by decide) (by decide) 1

end Concurrente.SimulBound
