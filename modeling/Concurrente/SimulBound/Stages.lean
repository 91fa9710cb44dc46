import Concurrente.SimulBound.Invariant

/-!
# The assembler, the dispatcher and the consumers

Each of these threads is the only reader of its queue.  Its invariant compares what
it has dequeued with what it has handed on.
-/

namespace Concurrente.SimulBound

open Prodcons

variable {cfg : Config}

namespace Pc

/-- `lostMessages` of the assembler, as the list of the messages lost. -/
def lost : Pc → List NetworkMessage
  | consumeLoop l | consume _ l | forward _ l | forwardStop l | assembled l => l
  | _ => []

/-- What the assembler or the dispatcher has taken and not yet passed on. -/
def held : Pc → List NetworkMessage
  | consume d _ | forward d _ | dispatch d => [d]
  | forwardStop _ => [stopCondition]
  | _ => []

/-- The assembler where the program takes it. -/
def Assembler : Pc → Prop
  | consumeLoop _ | forwardStop _ | assembled _ => True
  | consume d _ | forward d _ => d ≠ stopCondition
  | _ => False

/-- The queues that have got their stop condition from the dispatcher. -/
def told (consumerCount : ℕ) : Pc → ℕ
  | broadcast key => key - 1
  | dispatched => consumerCount
  | _ => 0

/-- The dispatcher has dequeued the stop condition. -/
def leaving : Pc → ℕ
  | broadcast _ | dispatched => 1
  | _ => 0

/-- The dispatcher where the program takes it. -/
def Dispatcher (cfg : Config) : Pc → Prop
  | dispatchLoop | dispatched => True
  | dispatch d => Ordinary cfg d
  | broadcast key => 1 ≤ key ∧ key ≤ cfg.consumerCount
  | _ => False

end Pc

/-- What was dequeued by the assembler is lost, held or forwarded, and the stop condition is
forwarded last. -/
structure Assembling (pc : Pc) (dequeued enqueued : List NetworkMessage) : Prop where
  kept : dequeued.Perm (pc.lost ++ pc.held ++ enqueued)
  lost : stopCondition ∉ pc.lost
  assembler : pc.Assembler
  sent : enqueued.count stopCondition = if pc = .assembled pc.lost then 1 else 0
  last : StopLast enqueued

section Assembler

variable {s t : Net cfg} {x : Choice} {c : QueueId → ℕ∞}

theorem assembler_cases (h : ((network cfg).atomic c).step s (.assembler, x) = some t) :
    (∃ lost d rest, s.thread .assembler = .consumeLoop lost ∧
      s.queue .assembler = d :: rest ∧
      t = s.pop .assembler .assembler
        (fun data => if data = stopCondition then .forwardStop lost else .consume data lost)
        d rest) ∨
    (∃ d lost, s.thread .assembler = .consume d lost ∧
      t = s.compute .assembler
        (s.memory, if x.lost then .consumeLoop (d :: lost) else .forward d lost)) ∨
    (∃ d lost, s.thread .assembler = .forward d lost ∧
      t = s.push .assembler .dispatcher d (.consumeLoop lost)) ∨
    (∃ lost, s.thread .assembler = .forwardStop lost ∧
      t = s.push .assembler .dispatcher stopCondition (.assembled lost)) := by
  rcases Network.atomic_cases h with ⟨dest, data, nxt, hn, -, rfl⟩ |
    ⟨source, nxt, data, rest, hn, hq, rfl⟩ | ⟨run, r, hn, hr, rfl⟩ <;>
  change next cfg _ _ = _ at hn
  · cases hpc : s.thread .assembler with
    | forward d lost =>
      simp only [next, hpc, Instr.call.injEq, Op.enqueue.injEq] at hn
      obtain ⟨rfl, rfl, rfl⟩ := hn
      exact .inr (.inr (.inl ⟨d, lost, rfl, rfl⟩))
    | forwardStop lost =>
      simp only [next, hpc, Instr.call.injEq, Op.enqueue.injEq] at hn
      obtain ⟨rfl, rfl, rfl⟩ := hn
      exact .inr (.inr (.inr ⟨lost, rfl, rfl⟩))
    | _ => simp [next, hpc] at hn
  · cases hpc : s.thread .assembler with
    | consumeLoop lost =>
      simp only [next, hpc, Instr.call.injEq, Op.dequeue.injEq] at hn
      obtain ⟨rfl, rfl⟩ := hn
      exact .inl ⟨lost, data, rest, rfl, hq, rfl⟩
    | _ => simp [next, hpc] at hn
  · cases hpc : s.thread .assembler with
    | consume d lost =>
      simp only [next, hpc, Instr.compute.injEq] at hn
      subst hn
      cases hr
      exact .inr (.inl ⟨d, lost, rfl, rfl⟩)
    | _ => simp [next, hpc] at hn

theorem Assembling.receive {dequeued enqueued lost : List NetworkMessage} {d : NetworkMessage}
    (I : Assembling (.consumeLoop lost) dequeued enqueued) :
    Assembling (if d = stopCondition then .forwardStop lost else .consume d lost)
      (dequeued ++ [d]) enqueued := by
  have hsent := I.sent
  have hkept : (dequeued ++ [d]).Perm (lost ++ [d] ++ enqueued) := by
    refine (I.kept.append_right _).trans ?_
    simp only [Pc.lost, Pc.held, List.append_nil, List.append_assoc]
    exact List.Perm.append_left _ List.perm_append_comm
  by_cases hd : d = stopCondition
  · subst hd
    rw [if_pos rfl]
    exact ⟨hkept, I.lost, trivial, by simpa using hsent, I.last⟩
  · rw [if_neg hd]
    exact ⟨hkept, I.lost, hd, by simpa using hsent, I.last⟩

theorem Assembling.choose {dequeued enqueued lost : List NetworkMessage} {d : NetworkMessage}
    (I : Assembling (.consume d lost) dequeued enqueued) (b : Bool) :
    Assembling (if b then .consumeLoop (d :: lost) else .forward d lost) dequeued enqueued := by
  have hsent := I.sent
  have hd : d ≠ stopCondition := I.assembler
  cases b with
  | true =>
    rw [if_pos rfl]
    refine ⟨?_, ?_, trivial, by simpa using hsent, I.last⟩
    · refine I.kept.trans ?_
      simp only [Pc.lost, Pc.held, List.append_nil]
      exact List.Perm.append_right _
        (show (lost ++ [d]).Perm ([d] ++ lost) from List.perm_append_comm)
    · intro hmem
      rcases List.mem_cons.mp hmem with he | hmem
      · exact hd he.symm
      · exact I.lost hmem
  | false => exact ⟨I.kept, I.lost, hd, by simpa using hsent, I.last⟩

theorem Assembling.push {pc nxt : Pc} {dequeued enqueued : List NetworkMessage}
    {d : NetworkMessage} (I : Assembling pc dequeued enqueued)
    (hnone : stopCondition ∉ enqueued) (hheld : pc.held = [d]) (hlost : nxt.lost = pc.lost)
    (htaken : nxt.held = []) (hnxt : nxt.Assembler)
    (hd : [d].count stopCondition = if nxt = .assembled nxt.lost then 1 else 0) :
    Assembling nxt dequeued (enqueued ++ [d]) := by
  refine ⟨?_, hlost ▸ I.lost, hnxt, ?_, StopLast.append hnone d⟩
  · rw [hlost, htaken, List.append_nil]
    refine I.kept.trans ?_
    rw [hheld, List.append_assoc]
    exact List.Perm.append_left _ List.perm_append_comm
  · rw [List.count_append, List.count_eq_zero.mpr hnone, Nat.zero_add, hd]

theorem assembling_step
    (I : Assembling (s.thread .assembler) (s.dequeued .assembler) (s.enqueued .dispatcher))
    (h : ((network cfg).atomic c).step s (.assembler, x) = some t) :
    Assembling (t.thread .assembler) (t.dequeued .assembler) (t.enqueued .dispatcher) := by
  rcases assembler_cases h with ⟨lost, d, rest, hpc, -, rfl⟩ | ⟨d, lost, hpc, rfl⟩ |
    ⟨d, lost, hpc, rfl⟩ | ⟨lost, hpc, rfl⟩ <;> rw [hpc] at I
  · simp only [Snapshot.pop_thread, Snapshot.pop_dequeued, Snapshot.pop_enqueued,
      Function.update_self]
    exact I.receive
  · simp only [Snapshot.compute_thread, Snapshot.compute_dequeued, Snapshot.compute_enqueued,
      Function.update_self]
    exact I.choose x.lost
  · have hd : d ≠ stopCondition := I.assembler
    have hnone := List.count_eq_zero.mp (by simpa using I.sent)
    simp only [Snapshot.push_thread, Snapshot.push_dequeued, Snapshot.push_enqueued,
      Function.update_self]
    exact I.push hnone rfl rfl rfl trivial (by simp [hd])
  · have hnone := List.count_eq_zero.mp (by simpa using I.sent)
    simp only [Snapshot.push_thread, Snapshot.push_dequeued, Snapshot.push_enqueued,
      Function.update_self]
    exact I.push hnone rfl rfl rfl trivial (by simp [Pc.lost])

end Assembler

/-- What was dequeued by the dispatcher is held or was redirected to its target, and the stop
condition goes to the queues in the order of their keys. -/
structure Dispatching (cfg : Config) (pc : Pc) (dequeued : List NetworkMessage)
    (toQueues : ℕ → List NetworkMessage) : Prop where
  dispatcher : pc.Dispatcher cfg
  kept : ∀ m, 1 ≤ m → numbered m dequeued =
    numbered m pc.held + ∑ key ∈ Finset.Icc 1 cfg.consumerCount, numbered m (toQueues key)
  stopped : dequeued.count stopCondition = pc.leaving
  sent : ∀ key, (toQueues key).count stopCondition =
    if 1 ≤ key ∧ key ≤ pc.told cfg.consumerCount then 1 else 0
  last : ∀ key, StopLast (toQueues key)
  taken : ∀ d ∈ pc.held, d ∈ dequeued
  routed : ∀ key, ∀ d ∈ toQueues key, d = stopCondition ∨ d.target = key ∧ d ∈ dequeued

def toQueues (s : Net cfg) (key : ℕ) : List NetworkMessage := s.enqueued (.consumer key)

section Dispatcher

variable {s t : Net cfg} {x : Choice} {c : QueueId → ℕ∞}

theorem toQueues_push (i : Thread cfg) (key : ℕ) (d : NetworkMessage) (nxt : Pc) :
    toQueues (s.push i (.consumer key) d nxt) =
      Function.update (toQueues s) key (toQueues s key ++ [d]) :=
  s.push_enqueued_comp i d nxt (fun _ _ => QueueId.consumer.inj) key

theorem afterKey_cases (cfg : Config) (key : ℕ) :
    (key < cfg.consumerCount ∧ afterKey cfg key = .broadcast (key + 1)) ∨
    (cfg.consumerCount ≤ key ∧ afterKey cfg key = .dispatched) := by
  by_cases h : key < cfg.consumerCount
  · exact .inl ⟨h, if_pos h⟩
  · exact .inr ⟨Nat.le_of_not_lt h, if_neg h⟩

theorem dispatcher_cases (h : ((network cfg).atomic c).step s (.dispatcher, x) = some t) :
    (∃ d rest, s.thread .dispatcher = .dispatchLoop ∧ s.queue .dispatcher = d :: rest ∧
      t = s.pop .dispatcher .dispatcher
        (fun data => if data = stopCondition then afterKey cfg 0 else .dispatch data) d rest) ∨
    (∃ d, s.thread .dispatcher = .dispatch d ∧
      t = s.push .dispatcher (.consumer d.target) d .dispatchLoop) ∨
    (∃ key, s.thread .dispatcher = .broadcast key ∧
      t = s.push .dispatcher (.consumer key) stopCondition (afterKey cfg key)) ∨
    (∃ d, s.thread .dispatcher = .dispatch d ∧ ¬ (1 ≤ d.target ∧ d.target ≤ cfg.consumerCount) ∧
      t = s.compute .dispatcher (s.memory, .thrown)) := by
  rcases Network.atomic_cases h with ⟨dest, data, nxt, hn, -, rfl⟩ |
    ⟨source, nxt, data, rest, hn, hq, rfl⟩ | ⟨run, r, hn, hr, rfl⟩ <;>
  change next cfg _ _ = _ at hn
  · cases hpc : s.thread .dispatcher with
    | dispatch d =>
      simp only [next, hpc, redirect] at hn
      split at hn
      · simp only [Instr.call.injEq, Op.enqueue.injEq] at hn
        obtain ⟨rfl, rfl, rfl⟩ := hn
        exact .inr (.inl ⟨d, rfl, rfl⟩)
      · cases hn
    | broadcast key =>
      simp only [next, hpc, Instr.call.injEq, Op.enqueue.injEq] at hn
      obtain ⟨rfl, rfl, rfl⟩ := hn
      exact .inr (.inr (.inl ⟨key, rfl, rfl⟩))
    | _ => simp [next, hpc] at hn
  · cases hpc : s.thread .dispatcher with
    | dispatchLoop =>
      simp only [next, hpc, Instr.call.injEq, Op.dequeue.injEq] at hn
      obtain ⟨rfl, rfl⟩ := hn
      exact .inl ⟨data, rest, rfl, hq, rfl⟩
    | dispatch d =>
      simp only [next, hpc, redirect] at hn
      split at hn <;> simp at hn
    | _ => simp [next, hpc] at hn
  · cases hpc : s.thread .dispatcher with
    | dispatch d =>
      simp only [next, hpc, redirect] at hn
      split at hn
      · cases hn
      · rename_i ht
        simp only [Instr.compute.injEq] at hn
        subst hn
        cases hr
        exact .inr (.inr (.inr ⟨d, rfl, ht, rfl⟩))
    | _ => simp [next, hpc] at hn

theorem Dispatching.push {pc nxt : Pc} {dequeued : List NetworkMessage}
    {out : ℕ → List NetworkMessage} {d : NetworkMessage} {key : ℕ}
    (I : Dispatching cfg pc dequeued out) (hkey : 1 ≤ key ∧ key ≤ cfg.consumerCount)
    (hnxt : nxt.Dispatcher cfg)
    (hheld : ∀ m, 1 ≤ m → numbered m nxt.held + numbered m [d] = numbered m pc.held)
    (hleaving : nxt.leaving = pc.leaving)
    (htold : ∀ k, (if 1 ≤ k ∧ k ≤ pc.told cfg.consumerCount then 1 else 0) +
      (if k = key then [d].count stopCondition else 0) =
        if 1 ≤ k ∧ k ≤ nxt.told cfg.consumerCount then 1 else 0)
    (hnew : ¬ key ≤ pc.told cfg.consumerCount) (htaken : nxt.held = [])
    (hd : d = stopCondition ∨ d.target = key ∧ d ∈ dequeued) :
    Dispatching cfg nxt dequeued (Function.update out key (out key ++ [d])) := by
  have hnone : stopCondition ∉ out key := by
    apply List.count_eq_zero.mp
    rw [I.sent, if_neg (fun h => hnew h.2)]
  constructor
  · exact hnxt
  · intro m hm
    have hsum := sum_update (Finset.mem_Icc.mpr hkey) out (fun _ => numbered m) (out key ++ [d])
    have hkept := I.kept m hm
    have := hheld m hm
    rw [numbered_append] at hsum
    omega
  · rw [I.stopped, hleaving]
  · intro k
    rw [← htold k]
    by_cases hk : k = key
    · subst hk
      rw [Function.update_self, List.count_append, I.sent, if_pos rfl]
    · rw [Function.update_of_ne hk, I.sent, if_neg hk, Nat.add_zero]
  · exact all_update I.last (StopLast.append hnone d)
  · simp [htaken]
  · intro k
    apply forall_update (fun k l => ∀ a ∈ l, a = stopCondition ∨ a.target = k ∧ a ∈ dequeued)
      (fun k (_ : True) => I.routed k) _ k trivial
    exact forall_append (I.routed key) hd

theorem Dispatching.receive {dequeued : List NetworkMessage} {out : ℕ → List NetworkMessage}
    {d : NetworkMessage} (I : Dispatching cfg .dispatchLoop dequeued out)
    (hd : d = stopCondition ∨ Ordinary cfg d) :
    Dispatching cfg (if d = stopCondition then afterKey cfg 0 else .dispatch d)
      (dequeued ++ [d]) out := by
  have hstopped := I.stopped
  have hrouted : ∀ key, ∀ a ∈ out key, a = stopCondition ∨ a.target = key ∧ a ∈ dequeued ++ [d] :=
    fun key a ha => (I.routed key a ha).imp_right fun h => ⟨h.1, List.mem_append_left _ h.2⟩
  by_cases hstop : d = stopCondition
  · subst hstop
    have hn := cfg.consumerCount_pos
    have hafter : afterKey cfg 0 = .broadcast 1 := if_pos hn
    rw [if_pos rfl, hafter]
    refine ⟨⟨le_rfl, hn⟩, ?_, ?_, ?_, I.last, by simp [Pc.held], hrouted⟩
    · intro m hm
      rw [numbered_append, numbered_stop hm, Nat.add_zero]
      exact I.kept m hm
    · rw [List.count_append, hstopped]
      rfl
    · exact I.sent
  · rw [if_neg hstop]
    refine ⟨hd.resolve_left hstop, ?_, ?_, I.sent, I.last, by simp [Pc.held], hrouted⟩
    · intro m hm
      rw [numbered_append, I.kept m hm]
      simp only [Pc.held, numbered_nil]
      exact (Nat.add_comm _ _).trans (congrArg _ (Nat.zero_add _))
    · rw [List.count_append, hstopped]
      simp [Pc.leaving, hstop]

theorem Dispatching.redirect {dequeued : List NetworkMessage} {out : ℕ → List NetworkMessage}
    {d : NetworkMessage} (I : Dispatching cfg (.dispatch d) dequeued out) :
    Dispatching cfg .dispatchLoop dequeued
      (Function.update out d.target (out d.target ++ [d])) := by
  have hord : Ordinary cfg d := I.dispatcher
  apply I.push ⟨hord.target_pos, hord.target_le⟩
    (show Pc.Dispatcher cfg .dispatchLoop from trivial)
  · intro m hm
    simp only [Pc.held, numbered_nil, Nat.zero_add]
  · rfl
  · intro k
    simp [Pc.told, hord.ne_stop]
  · exact Nat.not_le.mpr hord.target_pos
  · rfl
  · exact .inr ⟨rfl, I.taken d (List.mem_singleton_self d)⟩

theorem Dispatching.broadcast {dequeued : List NetworkMessage} {out : ℕ → List NetworkMessage}
    {key : ℕ} (I : Dispatching cfg (.broadcast key) dequeued out) :
    Dispatching cfg (afterKey cfg key) dequeued
      (Function.update out key (out key ++ [stopCondition])) := by
  obtain ⟨hkey, hkey'⟩ : 1 ≤ key ∧ key ≤ cfg.consumerCount := I.dispatcher
  rcases afterKey_cases cfg key with ⟨hlt, ha⟩ | ⟨hge, ha⟩ <;> rw [ha]
  · apply I.push ⟨hkey, hkey'⟩
      (show Pc.Dispatcher cfg (.broadcast (key + 1)) from ⟨Nat.le_add_left 1 key, hlt⟩)
    · intro m hm
      rw [numbered_stop hm]
      rfl
    · rfl
    · intro k
      simp only [Pc.told, List.count_singleton_self, Nat.add_sub_cancel]
      grind
    · simp only [Pc.told]
      omega
    · rfl
    · exact .inl rfl
  · apply I.push ⟨hkey, hkey'⟩ (show Pc.Dispatcher cfg .dispatched from trivial)
    · intro m hm
      rw [numbered_stop hm]
      rfl
    · rfl
    · intro k
      simp only [Pc.told, List.count_singleton_self]
      grind
    · simp only [Pc.told]
      omega
    · rfl
    · exact .inl rfl

theorem dispatching_step
    (hq : ∀ d ∈ s.queue .dispatcher, d = stopCondition ∨ Ordinary cfg d)
    (I : Dispatching cfg (s.thread .dispatcher) (s.dequeued .dispatcher) (toQueues s))
    (h : ((network cfg).atomic c).step s (.dispatcher, x) = some t) :
    Dispatching cfg (t.thread .dispatcher) (t.dequeued .dispatcher) (toQueues t) := by
  rcases dispatcher_cases h with ⟨d, rest, hpc, hqueue, rfl⟩ | ⟨d, hpc, rfl⟩ |
    ⟨key, hpc, rfl⟩ | ⟨d, hpc, ht, -⟩ <;> rw [hpc] at I
  · rw [Snapshot.pop_thread, Snapshot.pop_dequeued, Function.update_self, Function.update_self]
    exact I.receive (hq d (by rw [hqueue]; exact List.mem_cons_self))
  · rw [Snapshot.push_thread, Function.update_self, toQueues_push]
    exact I.redirect
  · rw [Snapshot.push_thread, Function.update_self, toQueues_push]
    exact I.broadcast
  · have hord : Ordinary cfg d := I.dispatcher
    exact absurd ⟨hord.target_pos, hord.target_le⟩ ht

end Dispatcher

end Concurrente.SimulBound
