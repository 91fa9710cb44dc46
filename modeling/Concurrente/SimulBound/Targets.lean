import Concurrente.SimulBound.Program
import Concurrente.Integers

/-!
# The targets of network_simul_bound

The program for every number of consumers that its random choice of a target can count.  A
target passes from `size_t` through `int` to the `uint16_t` of a message, and the dispatcher
looks it up among the keys of a `std::map<int, Queue*>`.
-/

namespace Concurrente.SimulBound.Targets

open Prodcons

/-- The arguments of the program, with a number of consumers that fits an `int`. -/
structure Arguments where
  packageCount : ℕ
  producerCount : ℕ
  consumerCount : ℕ
  packageCount_lt : packageCount < 2 ^ 64
  producerCount_lt : producerCount < 2 ^ 64
  consumerCount_pos : 1 ≤ consumerCount
  consumerCount_lt : consumerCount < 2 ^ 31

variable (args : Arguments)

def Arguments.lastProduced : ℕ := (args.packageCount + args.producerCount) % 2 ^ 64

inductive Thread (args : Arguments) where
  | producer (i : Fin args.producerCount)
  | assembler
  | dispatcher
  | consumer (k : Fin args.consumerCount)
  deriving DecidableEq, Fintype

/-- `Util::random`: a number of `[min, max[`. -/
def random (min max : ℤ) (draw : ℕ) : ℤ := min + draw % (max - min)

/-- `createMessage`; the `int` of the sum becomes a `uint16_t`. -/
def createMessage (x : Choice) (index : ℕ) : NetworkMessage :=
  let target := IntType.ushort.convert
    (1 + random 0 (IntType.int.convert args.consumerCount) x.target)
  ⟨target.toNat, 1, index⟩

/-- `toQueues[key] = toQueue`. -/
def registerRedirect (toQueues : ℤ → Option QueueId) (key : ℤ) (toQueue : QueueId) :
    ℤ → Option QueueId :=
  Function.update toQueues key (some toQueue)

/-- `connectQueues`: the keys are `int`, the loop variable is a `size_t`. -/
def connectQueues : ℤ → Option QueueId :=
  (List.range args.consumerCount).foldl (fun toQueues index =>
    registerRedirect toQueues (IntType.int.convert (index + 1 : ℕ)) (.consumer (index + 1)))
    fun _ => none

/-- `Dispatcher::consume`. -/
def redirect (data : NetworkMessage) : Instr QueueId NetworkMessage Pc Counter Choice :=
  match connectQueues args data.target with
  | some toQueue => .call (.enqueue toQueue data .dispatchLoop)
  -- `queue's key not found`
  | none => .compute fun _ m => some (m, .thrown)

def afterClaim (myMessageNumber : ℕ) : Pc :=
  if myMessageNumber ≤ args.packageCount then .create myMessageNumber
  else if myMessageNumber = args.lastProduced then .produceStop
  else .returned

def afterKey (key : ℕ) : Pc :=
  if key < args.consumerCount then .broadcast (key + 1) else .dispatched

def next : Thread args → Pc → Instr QueueId NetworkMessage Pc Counter Choice
  | .producer _, .claim =>
    .compute fun _ m => if m.locked then none else some ({ m with locked := true }, .count)
  | .producer _, .count =>
    .compute fun _ m => some ({ m with producedCount := (m.producedCount + 1) % 2 ^ 64 },
      .leave ((m.producedCount + 1) % 2 ^ 64))
  | .producer _, .leave myMessageNumber =>
    .compute fun _ m => some ({ m with locked := false }, afterClaim args myMessageNumber)
  | .producer _, .create myMessageNumber =>
    .compute fun x m => some (m, .produce (createMessage args x myMessageNumber))
  | .producer _, .produce data => .call (.enqueue .assembler data .claim)
  | .producer _, .produceStop => .call (.enqueue .assembler stopCondition .returned)
  | .assembler, .consumeLoop lost =>
    .call (.dequeue .assembler fun data =>
      if data = stopCondition then .forwardStop lost else .consume data lost)
  | .assembler, .consume data lost =>
    .compute fun x m => some (m, if x.lost then .consumeLoop (data :: lost) else .forward data lost)
  | .assembler, .forward data lost => .call (.enqueue .dispatcher data (.consumeLoop lost))
  | .assembler, .forwardStop lost => .call (.enqueue .dispatcher stopCondition (.assembled lost))
  | .dispatcher, .dispatchLoop =>
    .call (.dequeue .dispatcher fun data =>
      if data = stopCondition then afterKey args 0 else .dispatch data)
  | .dispatcher, .dispatch data => redirect args data
  | .dispatcher, .broadcast key =>
    .call (.enqueue (.consumer key) stopCondition (afterKey args key))
  | .consumer k, .receiveLoop receivedMessages =>
    .call (.dequeue (.consumer (k + 1)) fun data =>
      if data = stopCondition then .received receivedMessages
      else .receiveLoop (receivedMessages + 1))
  | _, _ => .finished

def start : Thread args → Pc
  | .producer _ => .claim
  | .assembler => .consumeLoop []
  | .dispatcher => .dispatchLoop
  | .consumer _ => .receiveLoop 0

def network : Network (Thread args) QueueId NetworkMessage Pc Counter Choice where
  memory := ⟨false, 0⟩
  start := start args
  next := next args

/-- A queue is registered under the target of the message. -/
def Registered (data : NetworkMessage) : Prop := (connectQueues args data.target).isSome

/-- No message is the stop condition, and all have a registered target: the dispatcher never
throws. -/
structure Delivers : Prop where
  message : ∀ x index, createMessage args x index ≠ stopCondition ∧
    Registered args (createMessage args x index)
  runs : ∀ queueCapacity s, ((network args).system fun _ => queueCapacity).Reachable s →
    s.thread .dispatcher ≠ .thrown

section Messages

variable {args} {x : Choice} {index : ℕ} {data : NetworkMessage}

theorem int_convert {n : ℕ} (h : n < 2 ^ 31) : IntType.int.convert n = n :=
  IntType.convert_eq_iff.mpr (IntType.int_inRange_iff.mpr (by omega))

theorem ushort_convert (z : ℤ) : IntType.ushort.convert z = z % 65536 := by
  simp [IntType.convert, IntType.min, IntType.ushort]

theorem createMessage_target : (createMessage args x index).target =
    (1 + x.target % args.consumerCount) % 65536 := by
  simp only [createMessage, random, int_convert args.consumerCount_lt, ushort_convert, zero_add,
    sub_zero]
  omega

/-- The sum in `createMessage` does not overflow an `int`. -/
theorem random_inRange (args : Arguments) (draw : ℕ) :
    IntType.int.InRange (1 + random 0 (IntType.int.convert args.consumerCount) draw) := by
  have hpos := args.consumerCount_pos
  have hlt := args.consumerCount_lt
  have hmod := Nat.mod_lt draw hpos
  simp only [random, int_convert hlt, zero_add, sub_zero]
  apply IntType.int_inRange_iff.mpr
  omega

theorem createMessage_ne_stop : createMessage args x index ≠ stopCondition := by
  intro h
  have hsource := congrArg NetworkMessage.source h
  exact absurd hsource Nat.one_ne_zero

theorem connectQueues_apply (key : ℕ) : connectQueues args key =
    if 1 ≤ key ∧ key ≤ args.consumerCount then some (.consumer key) else none := by
  have hfold : ∀ m ≤ args.consumerCount, (List.range m).foldl (fun toQueues index =>
      registerRedirect toQueues (IntType.int.convert (index + 1 : ℕ)) (.consumer (index + 1)))
      (fun _ => none) (key : ℤ) = if 1 ≤ key ∧ key ≤ m then some (.consumer key) else none := by
    intro m
    induction m with
    | zero =>
      intro _
      rw [if_neg (by omega)]
      rfl
    | succ m ih =>
      intro hm
      have hlt := args.consumerCount_lt
      rw [List.range_succ, List.foldl_append, List.foldl_cons, List.foldl_nil, registerRedirect,
        int_convert (by omega)]
      by_cases hkey : key = m + 1
      · rw [hkey, Function.update_self, if_pos (by omega)]
      · rw [Function.update_of_ne (by exact_mod_cast hkey), ih (by omega)]
        split_ifs <;> first | rfl | omega
  exact hfold _ le_rfl

theorem registered_iff : Registered args data ↔
    1 ≤ data.target ∧ data.target ≤ args.consumerCount := by
  rw [Registered, connectQueues_apply]
  split_ifs with h <;> simp [h]

theorem registered_of_le (h : args.consumerCount ≤ 65535) :
    Registered args (createMessage args x index) := by
  have hmod := Nat.mod_lt x.target args.consumerCount_pos
  rw [registered_iff, createMessage_target, Nat.mod_eq_of_lt (by omega)]
  omega

end Messages

/-- The stop condition or a message with a registered target. -/
def Known (data : NetworkMessage) : Prop := data = stopCondition ∨ Registered args data

/-- What a thread knows of the message that it holds. -/
def Knows : Pc → Prop
  | .produce data | .consume data _ | .forward data _ => Known args data
  | .dispatch data => Registered args data
  | .thrown => False
  | _ => True

section Knowledge

variable {args} {i : Thread args} {pc after : Pc} {q : QueueId} {data : NetworkMessage}

theorem knows_afterKey (key : ℕ) : Knows args (afterKey args key) := by
  unfold afterKey
  split_ifs <;> trivial

theorem redirect_known (h : Registered args data) : redirect args data =
    .call (.enqueue (.consumer data.target) data .dispatchLoop) := by
  unfold redirect
  rw [connectQueues_apply, if_pos (registered_iff.mp h)]

theorem knows_enqueue (h : next args i pc = .call (.enqueue q data after))
    (hpc : Knows args pc) : Known args data ∧ Knows args after := by
  cases i <;> cases pc <;> simp [next] at h
  case producer.produce d =>
    obtain ⟨-, rfl, rfl⟩ := h
    exact ⟨hpc, trivial⟩
  case producer.produceStop =>
    obtain ⟨-, rfl, rfl⟩ := h
    exact ⟨.inl rfl, trivial⟩
  case assembler.forward d lost =>
    obtain ⟨-, rfl, rfl⟩ := h
    exact ⟨hpc, trivial⟩
  case assembler.forwardStop lost =>
    obtain ⟨-, rfl, rfl⟩ := h
    exact ⟨.inl rfl, trivial⟩
  case dispatcher.dispatch d =>
    rw [redirect_known hpc] at h
    cases h
    exact ⟨.inr hpc, trivial⟩
  case dispatcher.broadcast key =>
    obtain ⟨-, rfl, rfl⟩ := h
    exact ⟨.inl rfl, knows_afterKey key⟩

theorem knows_dequeue {receive : NetworkMessage → Pc}
    (h : next args i pc = .call (.dequeue q receive)) (hdata : Known args data) :
    Knows args (receive data) := by
  cases i <;> cases pc <;> simp [next] at h
  case assembler.consumeLoop lost =>
    obtain ⟨-, rfl⟩ := h
    dsimp only
    split_ifs
    · trivial
    · exact hdata
  case dispatcher.dispatchLoop =>
    obtain ⟨-, rfl⟩ := h
    dsimp only
    split_ifs with hstop
    · exact knows_afterKey 0
    · exact hdata.resolve_left hstop
  case dispatcher.dispatch d =>
    unfold redirect at h
    split at h <;> cases h
  case consumer.receiveLoop k n =>
    obtain ⟨-, rfl⟩ := h
    dsimp only
    split_ifs <;> trivial

theorem knows_compute {run : Choice → Counter → Option (Counter × Pc)} {x : Choice} {m : Counter}
    {r : Counter × Pc} (hcreate : ∀ x index, Registered args (createMessage args x index))
    (h : next args i pc = .compute run) (hr : run x m = some r) (hpc : Knows args pc) :
    Knows args r.2 := by
  cases i <;> cases pc <;> simp [next] at h
  case producer.claim =>
    subst h
    dsimp only at hr
    split_ifs at hr
    obtain rfl := Option.some.inj hr
    trivial
  case producer.count =>
    subst h
    obtain rfl := Option.some.inj hr
    trivial
  case producer.leave number =>
    subst h
    obtain rfl := Option.some.inj hr
    dsimp only
    unfold afterClaim
    split_ifs <;> trivial
  case producer.create number =>
    subst h
    obtain rfl := Option.some.inj hr
    exact .inr (hcreate x number)
  case assembler.consume d lost =>
    subst h
    obtain rfl := Option.some.inj hr
    dsimp only
    split_ifs
    · trivial
    · exact hpc
  case dispatcher.dispatch d =>
    rw [redirect_known hpc] at h
    cases h

theorem not_thrown (hcreate : ∀ x index, Registered args (createMessage args x index))
    {queueCapacity : ℕ} {s : State (Thread args) QueueId NetworkMessage Pc Counter}
    (h : ((network args).system fun _ => queueCapacity).Reachable s) :
    s.thread .dispatcher ≠ .thrown := by
  have hknows := (Network.atomic_typed (P := Known args) (Q := fun _ => Knows args)
    (fun i => by cases i <;> trivial) (fun i a dest data after => knows_enqueue)
    (fun i a source receive data hn _ => knows_dequeue hn)
    (fun i a run x m r => knows_compute hcreate) (reachable_snapshot h)).1 .dispatcher
  intro hthrown
  change Knows args (s.thread .dispatcher) at hknows
  rw [hthrown] at hknows
  exact hknows

end Knowledge

section Throws

variable {args} {x : Choice} {index : ℕ}

theorem not_registered (hc : 65536 ≤ args.consumerCount) (hx : x.target = 65535) :
    ¬ Registered args (createMessage args x index) := by
  rw [registered_iff, createMessage_target, hx,
    Nat.mod_eq_of_lt (show 65535 < args.consumerCount by omega)]
  exact fun h => absurd h.1 (by decide)

theorem redirect_unknown {data : NetworkMessage} (h : ¬ Registered args data) :
    redirect args data = .compute fun _ m => some (m, .thrown) := by
  have hnone : connectQueues args data.target = none := by
    rw [connectQueues_apply, if_neg (registered_iff.not.mp h)]
  unfold redirect
  rw [hnone]

variable {c : QueueId → ℕ∞} {s : Snapshot (Thread args) QueueId NetworkMessage Pc Counter}

theorem reachable_compute (x : Choice) (i : Thread args) (pc : Pc)
    {run : Choice → Counter → Option (Counter × Pc)} {r : Counter × Pc}
    (hs : ((network args).atomic c).Reachable s) (hpc : s.thread i = pc)
    (hn : next args i pc = .compute run) (hr : run x s.memory = some r) :
    ((network args).atomic c).Reachable (s.compute i r) :=
  hs.step (Network.atomic_compute (x := x) (by rw [hpc]; exact hn) hr)

theorem reachable_enqueue (i : Thread args) (pc : Pc) {q : QueueId} {data : NetworkMessage}
    {after : Pc} (hs : ((network args).atomic c).Reachable s) (hpc : s.thread i = pc)
    (hn : next args i pc = .call (.enqueue q data after)) (hq : (s.queue q).length < c q) :
    ((network args).atomic c).Reachable (s.push i q data after) :=
  hs.step (Network.atomic_enqueue (x := default) (by rw [hpc]; exact hn) hq)

theorem reachable_dequeue (i : Thread args) (pc : Pc) {q : QueueId}
    {receive : NetworkMessage → Pc} {data : NetworkMessage} {rest : List NetworkMessage}
    (hs : ((network args).atomic c).Reachable s) (hpc : s.thread i = pc)
    (hn : next args i pc = .call (.dequeue q receive)) (hq : s.queue q = data :: rest) :
    ((network args).atomic c).Reachable (s.pop i q receive data rest) :=
  hs.step (Network.atomic_dequeue (x := default) (by rw [hpc]; exact hn) hq)

theorem atomic_throws (hp : 1 ≤ args.packageCount) (hn : 1 ≤ args.producerCount)
    (hc : 65536 ≤ args.consumerCount) (hcap : ∀ q, 0 < c q) :
    ∃ s, ((network args).atomic c).Reachable s ∧ s.thread .dispatcher = .thrown := by
  let p : Thread args := .producer ⟨0, hn⟩
  let x : Choice := ⟨65535, false⟩
  let data := createMessage args x 1
  have hdata : data ≠ stopCondition := createMessage_ne_stop
  have hclaim : afterClaim args ((0 + 1) % 2 ^ 64) = .create 1 := if_pos hp
  have h1 := reachable_compute (c := c) x p .claim System.Reachable.start rfl rfl rfl
  have h2 := reachable_compute x p .count h1 (by simp) rfl rfl
  have h3 := reachable_compute x p (.leave ((0 + 1) % 2 ^ 64)) h2 (by simp; rfl) rfl rfl
  have h4 := reachable_compute x p (.create 1) h3 (by simpa using hclaim) rfl rfl
  have h5 := reachable_enqueue p (.produce data) h4 (by simp; rfl) rfl
    (by simpa [Network.atomic] using hcap _)
  have h6 := reachable_dequeue .assembler (.consumeLoop []) h5 (by simp [p]; rfl) rfl
    (by simp [Network.atomic]; exact ⟨rfl, rfl⟩)
  have h7 := reachable_compute x .assembler (.consume data []) h6 (by simp [hdata]) rfl rfl
  have h8 := reachable_enqueue .assembler (.forward data []) h7 (by simp [x]) rfl
    (by simpa [Network.atomic] using hcap _)
  have h9 := reachable_dequeue .dispatcher .dispatchLoop h8 (by simp [p]; rfl) rfl
    (by simp [Network.atomic]; exact ⟨rfl, rfl⟩)
  have h10 := reachable_compute x .dispatcher (.dispatch data) h9 (by simp [hdata])
    (redirect_unknown (not_registered hc rfl)) rfl
  exact ⟨_, h10, by simp⟩

end Throws

variable {args}

theorem exists_thrown (hp : 1 ≤ args.packageCount) (hn : 1 ≤ args.producerCount)
    (hc : 65536 ≤ args.consumerCount) {queueCapacity : ℕ} (hcap : 1 ≤ queueCapacity)
    (hmax : queueCapacity ≤ semValueMax) :
    ∃ s, ((network args).system fun _ => queueCapacity).Reachable s ∧
      s.thread .dispatcher = .thrown := by
  obtain ⟨r, hr, hthrown⟩ := atomic_throws (c := fun _ => (semInit queueCapacity : ℕ∞)) hp hn hc
    fun _ => by
      rw [semInit_eq_iff.mpr hmax]
      exact_mod_cast hcap
  obtain ⟨s, hs, -, rfl⟩ := reachable_of_atomic (c := fun _ => queueCapacity) hr
  exact ⟨s, hs, hthrown⟩

/-- The dispatcher throws in some run exactly when there are too many consumers for a
`uint16_t`. -/
theorem throws_iff (hp : 1 ≤ args.packageCount) (hn : 1 ≤ args.producerCount)
    {queueCapacity : ℕ} (hcap : 1 ≤ queueCapacity)
    (hmax : queueCapacity ≤ semValueMax) :
    (∃ s, ((network args).system fun _ => queueCapacity).Reachable s ∧
      s.thread .dispatcher = .thrown) ↔ 65536 ≤ args.consumerCount := by
  refine ⟨fun ⟨s, hs, hthrown⟩ => ?_, fun hc => exists_thrown hp hn hc hcap hmax⟩
  by_contra hc
  exact not_thrown (fun _ _ => registered_of_le (by omega)) hs hthrown

/-- Messages are delivered exactly when their targets fit a `uint16_t`. -/
theorem delivers_iff (args : Arguments) : Delivers args ↔ args.consumerCount ≤ 65535 := by
  constructor
  · intro h
    by_contra hc
    exact not_registered (by omega) rfl (h.message ⟨65535, false⟩ 0).2
  · intro h
    exact ⟨fun x index => ⟨createMessage_ne_stop, registered_of_le h⟩,
      fun queueCapacity s => not_thrown fun x index => registered_of_le h⟩

/-- One message of one producer, for one consumer too many. -/
def tooMany : Arguments :=
  ⟨1, 1, 65536, one_lt_word, one_lt_word, by decide, by decide⟩

/-- The target of the last consumer becomes zero, no queue has this key, and the dispatcher
throws. -/
theorem not_delivers_tooMany :
    (createMessage tooMany ⟨65535, false⟩ 1).target = 0 ∧
    ¬ Registered tooMany (createMessage tooMany ⟨65535, false⟩ 1) ∧
    (∃ s, ((network tooMany).system fun _ => 1).Reachable s ∧
      s.thread .dispatcher = .thrown) ∧
    ¬ Delivers tooMany := by
  have htarget : (createMessage tooMany ⟨65535, false⟩ 1).target = 0 := createMessage_target
  have hreg : ¬ Registered tooMany (createMessage tooMany ⟨65535, false⟩ 1) :=
    not_registered le_rfl rfl
  refine ⟨htarget, hreg, exists_thrown le_rfl le_rfl le_rfl le_rfl (by decide), fun h => ?_⟩
  exact hreg (h.message ⟨65535, false⟩ 1).2

section Few

variable (cfg : Config)

def Arguments.ofConfig : Arguments where
  packageCount := cfg.packageCount
  producerCount := cfg.producerCount
  consumerCount := cfg.consumerCount
  packageCount_lt := cfg.packageCount_lt
  producerCount_lt := cfg.producerCount_lt
  consumerCount_pos := cfg.consumerCount_pos
  consumerCount_lt := lt_of_le_of_lt cfg.consumerCount_le (by decide)

def thread : SimulBound.Thread cfg → Thread (.ofConfig cfg)
  | .producer i => .producer i
  | .assembler => .assembler
  | .dispatcher => .dispatcher
  | .consumer k => .consumer k

theorem start_ofConfig (i : SimulBound.Thread cfg) :
    start (.ofConfig cfg) (thread cfg i) = SimulBound.start cfg i := by
  cases i <;> rfl

theorem createMessage_ofConfig (x : Choice) (index : ℕ) :
    createMessage (.ofConfig cfg) x index = SimulBound.createMessage cfg x index := by
  have hmod := Nat.mod_lt x.target cfg.consumerCount_pos
  have hle := cfg.consumerCount_le
  have htarget : (createMessage (.ofConfig cfg) x index).target =
      1 + x.target % cfg.consumerCount := by
    rw [createMessage_target]
    exact Nat.mod_eq_of_lt (show 1 + x.target % cfg.consumerCount < 65536 by omega)
  simp only [SimulBound.createMessage, ← htarget]
  rfl

theorem redirect_ofConfig (data : NetworkMessage) :
    redirect (.ofConfig cfg) data = SimulBound.redirect cfg data := by
  unfold SimulBound.redirect
  split_ifs with h
  · exact redirect_known (registered_iff.mpr h)
  · exact redirect_unknown (registered_iff.not.mpr h)

/-- With few consumers the conversions leave the instructions as they are. -/
theorem next_ofConfig (i : SimulBound.Thread cfg) (pc : Pc) :
    next (.ofConfig cfg) (thread cfg i) pc = SimulBound.next cfg i pc := by
  cases i <;> cases pc <;> try rfl
  case producer.create index =>
    simp only [thread, next, SimulBound.next, createMessage_ofConfig]
  case dispatcher.dispatch data => exact redirect_ofConfig cfg data

end Few

end Concurrente.SimulBound.Targets
