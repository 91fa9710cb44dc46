import Concurrente.Prodcons.Consumer

/-!
# network_simul_packet_loss_fix

The producer enqueues to the dispatcher, which redirects each message to a consumer or
to the assembler.  The assembler loses a message or addresses it to a consumer and sends
it back to the dispatcher.  Dispatcher and assembler pass the stop condition to each
other until each of them has seen two in a row.
-/

namespace Concurrente.PacketLossFix

open Prodcons

/-- The arguments of the program.  The keys fit in the `uint16_t` of a target. -/
structure Config where
  packageCount : ℕ
  consumerCount : ℕ
  packetLossProbability : ℚ
  packageCount_lt : packageCount < 2 ^ 64
  consumerCount_pos : 1 ≤ consumerCount
  consumerCount_le : consumerCount ≤ 65534

variable (cfg : Config)

inductive Thread (cfg : Config) where
  | producer
  | assembler
  | dispatcher
  | consumer (k : Fin cfg.consumerCount)
  deriving DecidableEq

inductive QueueId where
  | assembler
  | dispatcher
  | consumer (key : ℕ)
  deriving DecidableEq

/-- `toQueues`: the consumers have the keys from 1 on, the assembler has the last key. -/
def toQueue (key : ℕ) : QueueId :=
  if key = cfg.consumerCount + 1 then .assembler else .consumer key

/-- Where a thread is in its `run`.  The assembler and the dispatcher carry their
`stopConditionCount` when they begin to dequeue or are to enqueue the stop condition. -/
inductive Pc where
  | create (index : ℕ)
  | produce (data : NetworkMessage) (index : ℕ)
  | produceStop
  | produced
  | consumeLoop (stopConditionCount : ℕ) (lost : List NetworkMessage)
  | consume (data : NetworkMessage) (lost : List NetworkMessage)
  | forward (data : NetworkMessage) (lost : List NetworkMessage)
  | answer (stopConditionCount : ℕ) (lost : List NetworkMessage)
  | assembled (lost : List NetworkMessage)
  | dispatchLoop (stopConditionCount : ℕ)
  | dispatch (data : NetworkMessage)
  | echo (stopConditionCount : ℕ)
  | broadcast (key : ℕ)
  | dispatched
  | thrown
  | receiveLoop (receivedMessages : ℕ)
  | received (receivedMessages : ℕ)

/-- What `Util::random` draws: a target, and a number of [0, 100) that decides on a loss. -/
structure Choice where
  target : ℕ
  draw : ℚ
  draw_nonneg : 0 ≤ draw
  draw_lt : draw < 100

instance : Inhabited Choice := ⟨0, 0, le_rfl, by norm_num⟩

/-- `createMessage`; the producer was given `consumerCount + 1`. -/
def createMessage (x : Choice) (index : ℕ) : NetworkMessage :=
  ⟨1 + x.target % (cfg.consumerCount + 1), 1, index⟩

def atIndex (index : ℕ) : Pc :=
  if index < cfg.packageCount then .create index else .produceStop

def atAssembler (stopConditionCount : ℕ) (lost : List NetworkMessage) : Pc :=
  if stopConditionCount < 2 then .consumeLoop stopConditionCount lost else .assembled lost

def atDispatcher (stopConditionCount : ℕ) : Pc :=
  if stopConditionCount < 2 then .dispatchLoop stopConditionCount else .broadcast 1

/-- The loop over `toQueues` after the queue with this key. -/
def afterKey (key : ℕ) : Pc :=
  if key < cfg.consumerCount + 1 then .broadcast (key + 1) else .dispatched

/-- `Dispatcher::consume`, after which the `stopConditionCount` is 0. -/
def redirect (data : NetworkMessage) : Instr QueueId NetworkMessage Pc Unit Choice :=
  if 1 ≤ data.target ∧ data.target ≤ cfg.consumerCount + 1 then
    .call (.enqueue (toQueue cfg data.target) data (atDispatcher 0))
  else .compute fun _ m => some (m, .thrown)

/-- `AssemblerTest::consume`, after which the `stopConditionCount` is 0. -/
def consume (x : Choice) (data : NetworkMessage) (lost : List NetworkMessage) : Pc :=
  if x.draw < cfg.packetLossProbability then .consumeLoop 0 (data :: lost)
  -- the new target is drawn among the consumers, without the assembler
  else .forward { data with target := 1 + x.target % cfg.consumerCount } lost

def next : Thread cfg → Pc → Instr QueueId NetworkMessage Pc Unit Choice
  | .producer, .create index =>
    .compute fun x m => some (m, .produce (createMessage cfg x index) index)
  | .producer, .produce data index =>
    .call (.enqueue .dispatcher data (atIndex cfg (index + 1)))
  | .producer, .produceStop => .call (.enqueue .dispatcher stopCondition .produced)
  | .assembler, .consumeLoop stopConditionCount lost =>
    .call (.dequeue .assembler fun data =>
      -- a stop condition is counted; anything else begins to count again
      if data = stopCondition then .answer (stopConditionCount + 1) lost else .consume data lost)
  | .assembler, .consume data lost => .compute fun x m => some (m, consume cfg x data lost)
  | .assembler, .forward data lost => .call (.enqueue .dispatcher data (.consumeLoop 0 lost))
  | .assembler, .answer stopConditionCount lost =>
    .call (.enqueue .dispatcher stopCondition (atAssembler stopConditionCount lost))
  | .dispatcher, .dispatchLoop stopConditionCount =>
    .call (.dequeue .dispatcher fun data =>
      if data = stopCondition then .echo (stopConditionCount + 1) else .dispatch data)
  | .dispatcher, .dispatch data => redirect cfg data
  -- `echo` is to the assembler, which answers
  | .dispatcher, .echo stopConditionCount =>
    .call (.enqueue (toQueue cfg (cfg.consumerCount + 1)) stopCondition
      (atDispatcher stopConditionCount))
  | .dispatcher, .broadcast key =>
    .call (.enqueue (toQueue cfg key) stopCondition (afterKey cfg key))
  | .consumer k, .receiveLoop receivedMessages =>
    .call (.dequeue (.consumer (k + 1)) fun data =>
      if data = stopCondition then .received receivedMessages
      else .receiveLoop (receivedMessages + 1))
  | _, _ => .finished

def start : Thread cfg → Pc
  | .producer => atIndex cfg 0
  | .assembler => atAssembler 0 []
  | .dispatcher => atDispatcher 0
  | .consumer _ => .receiveLoop 0

def network : Network (Thread cfg) QueueId NetworkMessage Pc Unit Choice where
  memory := ()
  start := start cfg
  next := next cfg

def simulation : System (Snapshot (Thread cfg) QueueId NetworkMessage Pc Unit)
    (Thread cfg × Choice) := (network cfg).atomic fun _ => ⊤

abbrev Net (cfg : Config) := Snapshot (Thread cfg) QueueId NetworkMessage Pc Unit

/-- A simulation whose threads do the same but when a stop condition comes: then the assembler and
the dispatcher go on as given. -/
structure Follows (p : Network (Thread cfg) QueueId NetworkMessage Pc Unit Choice)
    (stopAssembler : ℕ → List NetworkMessage → Pc) (stopDispatcher : ℕ → Pc) : Prop where
  start : p.start = start cfg
  producer : ∀ a, p.next .producer a = next cfg .producer a
  consumer : ∀ k a, p.next (.consumer k) a = next cfg (.consumer k) a
  consumeLoop : ∀ count lost, p.next .assembler (.consumeLoop count lost) =
    .call (.dequeue .assembler fun data =>
      if data = stopCondition then stopAssembler count lost else .consume data lost)
  assembler : ∀ a, (∀ count lost, a ≠ .consumeLoop count lost) →
    p.next .assembler a = next cfg .assembler a
  dispatchLoop : ∀ count, p.next .dispatcher (.dispatchLoop count) =
    .call (.dequeue .dispatcher fun data =>
      if data = stopCondition then stopDispatcher count else .dispatch data)
  dispatcher : ∀ a, (∀ count, a ≠ .dispatchLoop count) →
    p.next .dispatcher a = next cfg .dispatcher a

variable {cfg}

theorem follows : Follows cfg (network cfg) (fun count lost => .answer (count + 1) lost)
    fun count => .echo (count + 1) where
  start := rfl
  producer _ := rfl
  consumer _ _ := rfl
  consumeLoop _ _ := rfl
  assembler _ _ := rfl
  dispatchLoop _ := rfl
  dispatcher _ _ := rfl

namespace Follows

variable {p : Network (Thread cfg) QueueId NetworkMessage Pc Unit Choice}
  {stopAssembler : ℕ → List NetworkMessage → Pc} {stopDispatcher : ℕ → Pc} {c : QueueId → ℕ∞}
  {s t : Net cfg} {x : Choice} (hp : Follows cfg p stopAssembler stopDispatcher)

include hp

theorem producer_cases (h : (p.atomic c).step s (.producer, x) = some t) :
    (∃ i, s.thread .producer = .create i ∧
      t = s.compute .producer ((), .produce (createMessage cfg x i) i)) ∨
    (∃ d i, s.thread .producer = .produce d i ∧
      t = s.push .producer .dispatcher d (atIndex cfg (i + 1))) ∨
    (s.thread .producer = .produceStop ∧
      t = s.push .producer .dispatcher stopCondition .produced) := by
  rcases Network.atomic_cases h with ⟨dest, data, nxt, hn, -, rfl⟩ |
    ⟨source, nxt, data, rest, hn, -, -⟩ | ⟨run, r, hn, hr, rfl⟩ <;>
  rw [hp.producer] at hn
  · cases hpc : s.thread .producer with
    | produce d i =>
      simp only [next, hpc, Instr.call.injEq, Op.enqueue.injEq] at hn
      obtain ⟨rfl, rfl, rfl⟩ := hn
      exact .inr (.inl ⟨d, i, rfl, rfl⟩)
    | produceStop =>
      simp only [next, hpc, Instr.call.injEq, Op.enqueue.injEq] at hn
      obtain ⟨rfl, rfl, rfl⟩ := hn
      exact .inr (.inr ⟨rfl, rfl⟩)
    | _ => simp [next, hpc] at hn
  · cases hpc : s.thread .producer <;> simp [next, hpc] at hn
  · cases hpc : s.thread .producer with
    | create i =>
      simp only [next, hpc, Instr.compute.injEq] at hn
      subst hn
      cases hr
      exact .inl ⟨i, rfl, rfl⟩
    | _ => simp [next, hpc] at hn

theorem assembler_cases (h : (p.atomic c).step s (.assembler, x) = some t) :
    (∃ count lost d rest, s.thread .assembler = .consumeLoop count lost ∧
      s.queue .assembler = d :: rest ∧
      t = s.pop .assembler .assembler (fun data =>
        if data = stopCondition then stopAssembler count lost else .consume data lost) d rest) ∨
    (∃ d lost, s.thread .assembler = .consume d lost ∧
      t = s.compute .assembler ((), consume cfg x d lost)) ∨
    (∃ d lost, s.thread .assembler = .forward d lost ∧
      t = s.push .assembler .dispatcher d (.consumeLoop 0 lost)) ∨
    (∃ count lost, s.thread .assembler = .answer count lost ∧
      t = s.push .assembler .dispatcher stopCondition (atAssembler count lost)) := by
  by_cases hloop : ∃ count lost, s.thread .assembler = .consumeLoop count lost
  · obtain ⟨count, lost, hpc⟩ := hloop
    rcases Network.atomic_cases h with ⟨dest, data, nxt, hn, -, rfl⟩ |
      ⟨source, nxt, data, rest, hn, hq, rfl⟩ | ⟨run, r, hn, hr, rfl⟩ <;>
    rw [hpc, hp.consumeLoop] at hn <;> cases hn
    exact .inl ⟨count, lost, data, rest, hpc, hq, rfl⟩
  have hother := hp.assembler _ fun count lost hpc => hloop ⟨count, lost, hpc⟩
  rcases Network.atomic_cases h with ⟨dest, data, nxt, hn, -, rfl⟩ |
    ⟨source, nxt, data, rest, hn, hq, rfl⟩ | ⟨run, r, hn, hr, rfl⟩ <;>
  rw [hother] at hn
  · cases hpc : s.thread .assembler with
    | forward d lost =>
      simp only [next, hpc, Instr.call.injEq, Op.enqueue.injEq] at hn
      obtain ⟨rfl, rfl, rfl⟩ := hn
      exact .inr (.inr (.inl ⟨d, lost, rfl, rfl⟩))
    | answer count lost =>
      simp only [next, hpc, Instr.call.injEq, Op.enqueue.injEq] at hn
      obtain ⟨rfl, rfl, rfl⟩ := hn
      exact .inr (.inr (.inr ⟨count, lost, rfl, rfl⟩))
    | _ => simp [next, hpc] at hn
  · cases hpc : s.thread .assembler with
    | consumeLoop count lost => exact absurd ⟨count, lost, hpc⟩ hloop
    | _ => simp [next, hpc] at hn
  · cases hpc : s.thread .assembler with
    | consume d lost =>
      simp only [next, hpc, Instr.compute.injEq] at hn
      subst hn
      cases hr
      exact .inr (.inl ⟨d, lost, rfl, rfl⟩)
    | _ => simp [next, hpc] at hn

theorem dispatcher_cases (h : (p.atomic c).step s (.dispatcher, x) = some t) :
    (∃ count d rest, s.thread .dispatcher = .dispatchLoop count ∧
      s.queue .dispatcher = d :: rest ∧
      t = s.pop .dispatcher .dispatcher (fun data =>
        if data = stopCondition then stopDispatcher count else .dispatch data) d rest) ∨
    (∃ d, s.thread .dispatcher = .dispatch d ∧
      t = s.push .dispatcher (toQueue cfg d.target) d (atDispatcher 0)) ∨
    (∃ d, s.thread .dispatcher = .dispatch d ∧
      ¬ (1 ≤ d.target ∧ d.target ≤ cfg.consumerCount + 1)) ∨
    (∃ count, s.thread .dispatcher = .echo count ∧
      t = s.push .dispatcher .assembler stopCondition (atDispatcher count)) ∨
    (∃ key, s.thread .dispatcher = .broadcast key ∧
      t = s.push .dispatcher (toQueue cfg key) stopCondition (afterKey cfg key)) := by
  by_cases hloop : ∃ count, s.thread .dispatcher = .dispatchLoop count
  · obtain ⟨count, hpc⟩ := hloop
    rcases Network.atomic_cases h with ⟨dest, data, nxt, hn, -, rfl⟩ |
      ⟨source, nxt, data, rest, hn, hq, rfl⟩ | ⟨run, r, hn, hr, rfl⟩ <;>
    rw [hpc, hp.dispatchLoop] at hn <;> cases hn
    exact .inl ⟨count, data, rest, hpc, hq, rfl⟩
  have hother := hp.dispatcher _ fun count hpc => hloop ⟨count, hpc⟩
  rcases Network.atomic_cases h with ⟨dest, data, nxt, hn, -, rfl⟩ |
    ⟨source, nxt, data, rest, hn, hq, rfl⟩ | ⟨run, r, hn, hr, rfl⟩ <;>
  rw [hother] at hn
  · cases hpc : s.thread .dispatcher with
    | dispatch d =>
      simp only [next, hpc, redirect] at hn
      split at hn
      · simp only [Instr.call.injEq, Op.enqueue.injEq] at hn
        obtain ⟨rfl, rfl, rfl⟩ := hn
        exact .inr (.inl ⟨d, rfl, rfl⟩)
      · cases hn
    | echo count =>
      have hkey : toQueue cfg (cfg.consumerCount + 1) = .assembler := if_pos rfl
      simp only [next, hpc, hkey, Instr.call.injEq, Op.enqueue.injEq] at hn
      obtain ⟨rfl, rfl, rfl⟩ := hn
      exact .inr (.inr (.inr (.inl ⟨count, rfl, rfl⟩)))
    | broadcast key =>
      simp only [next, hpc, Instr.call.injEq, Op.enqueue.injEq] at hn
      obtain ⟨rfl, rfl, rfl⟩ := hn
      exact .inr (.inr (.inr (.inr ⟨key, rfl, rfl⟩)))
    | _ => simp [next, hpc] at hn
  · cases hpc : s.thread .dispatcher with
    | dispatchLoop count => exact absurd ⟨count, hpc⟩ hloop
    | dispatch d =>
      simp only [next, hpc, redirect] at hn
      split at hn <;> simp at hn
    | _ => simp [next, hpc] at hn
  · cases hpc : s.thread .dispatcher with
    | dispatch d =>
      simp only [next, hpc, redirect] at hn
      split at hn
      · cases hn
      · rename_i ht
        exact .inr (.inr (.inl ⟨d, rfl, ht⟩))
    | _ => simp [next, hpc] at hn

theorem consumes (k : Fin cfg.consumerCount) :
    Consumes p (.consumer k) (.consumer (k + 1)) .receiveLoop .received where
  start := by rw [hp.start]; rfl
  receives n := hp.consumer k _
  finished a ha := by
    rw [hp.consumer]
    cases a
    case receiveLoop n => exact absurd rfl (ha n)
    all_goals rfl
  done_ne _ _ := Pc.noConfusion
  alone i a nxt hn := by
    cases i with
    | producer =>
      rw [hp.producer] at hn
      cases a <;> simp [next] at hn
    | consumer j =>
      rw [hp.consumer] at hn
      cases a <;> simp [next] at hn
      exact congrArg _ (Fin.ext hn.1)
    | assembler =>
      by_cases hloop : ∃ count lost, a = .consumeLoop count lost
      · obtain ⟨count, lost, rfl⟩ := hloop
        rw [hp.consumeLoop] at hn
        cases hn
      · rw [hp.assembler _ fun count lost ha => hloop ⟨count, lost, ha⟩] at hn
        cases a <;> simp [next] at hn
    | dispatcher =>
      by_cases hloop : ∃ count, a = .dispatchLoop count
      · obtain ⟨count, rfl⟩ := hloop
        rw [hp.dispatchLoop] at hn
        cases hn
      · rw [hp.dispatcher _ fun count ha => hloop ⟨count, ha⟩] at hn
        cases a <;> simp [next, redirect] at hn
        split at hn <;> simp at hn

end Follows

end Concurrente.PacketLossFix
