import Concurrente.Prodcons.Refinement
import Concurrente.Prodcons.Message

/-!
# network_simul_bound

Producers claim message numbers from a shared counter and enqueue to the assembler.
The assembler loses messages or forwards them to the dispatcher, which redirects them
to the queues of the consumers.  The producer that draws the last number sends the
stop condition, which is forwarded by the assembler and broadcast by the dispatcher.
-/

namespace Concurrente.SimulBound

open Prodcons

/-- The arguments of the program.  The counts are `size_t`, and the keys of the consumers fit
in the `uint16_t` of a target. -/
structure Config where
  packageCount : ℕ
  producerCount : ℕ
  consumerCount : ℕ
  packageCount_lt : packageCount < 2 ^ 64
  producerCount_pos : 1 ≤ producerCount
  producerCount_lt : producerCount < 2 ^ 64
  consumerCount_pos : 1 ≤ consumerCount
  consumerCount_le : consumerCount ≤ 65535

variable (cfg : Config)

/-- `lastProduced`. -/
def Config.lastProduced : ℕ := (cfg.packageCount + cfg.producerCount) % 2 ^ 64

inductive Thread (cfg : Config) where
  | producer (i : Fin cfg.producerCount)
  | assembler
  | dispatcher
  | consumer (k : Fin cfg.consumerCount)
  deriving DecidableEq, Fintype

inductive QueueId where
  | assembler
  | dispatcher
  | consumer (key : ℕ)
  deriving DecidableEq

/-- Where a thread is in its `run`.  The assembler carries the messages it lost, and a
consumer its `receivedMessages`. -/
inductive Pc where
  | claim
  | count
  | leave (myMessageNumber : ℕ)
  | create (myMessageNumber : ℕ)
  | produce (data : NetworkMessage)
  | produceStop
  | returned
  | consumeLoop (lost : List NetworkMessage)
  | consume (data : NetworkMessage) (lost : List NetworkMessage)
  | forward (data : NetworkMessage) (lost : List NetworkMessage)
  | forwardStop (lost : List NetworkMessage)
  | assembled (lost : List NetworkMessage)
  | dispatchLoop
  | dispatch (data : NetworkMessage)
  | broadcast (key : ℕ)
  | dispatched
  | thrown
  | receiveLoop (receivedMessages : ℕ)
  | received (receivedMessages : ℕ)
  deriving DecidableEq

structure Counter where
  locked : Bool
  producedCount : ℕ

structure Choice where
  target : ℕ
  lost : Bool
  deriving Inhabited

/-- `createMessage`. -/
def createMessage (x : Choice) (index : ℕ) : NetworkMessage :=
  ⟨1 + x.target % cfg.consumerCount, 1, index⟩

/-- The branches of the producer after it has drawn a number. -/
def afterClaim (myMessageNumber : ℕ) : Pc :=
  if myMessageNumber ≤ cfg.packageCount then .create myMessageNumber
  else if myMessageNumber = cfg.lastProduced then .produceStop
  else .returned

/-- The loop over `toQueues` after the queue with this key. -/
def afterKey (key : ℕ) : Pc :=
  if key < cfg.consumerCount then .broadcast (key + 1) else .dispatched

/-- `Dispatcher::consume`. -/
def redirect (data : NetworkMessage) : Instr QueueId NetworkMessage Pc Counter Choice :=
  if 1 ≤ data.target ∧ data.target ≤ cfg.consumerCount then
    .call (.enqueue (.consumer data.target) data .dispatchLoop)
  -- no queue is registered under the target
  else .compute fun _ m => some (m, .thrown)

def next : Thread cfg → Pc → Instr QueueId NetworkMessage Pc Counter Choice
  | .producer _, .claim =>
    .compute fun _ m => if m.locked then none else some ({ m with locked := true }, .count)
  -- `++producedCount` of a `size_t`
  | .producer _, .count =>
    .compute fun _ m => some ({ m with producedCount := (m.producedCount + 1) % 2 ^ 64 },
      .leave ((m.producedCount + 1) % 2 ^ 64))
  | .producer _, .leave myMessageNumber =>
    .compute fun _ m => some ({ m with locked := false }, afterClaim cfg myMessageNumber)
  | .producer _, .create myMessageNumber =>
    .compute fun x m => some (m, .produce (createMessage cfg x myMessageNumber))
  | .producer _, .produce data => .call (.enqueue .assembler data .claim)
  | .producer _, .produceStop => .call (.enqueue .assembler stopCondition .returned)
  | .assembler, .consumeLoop lost =>
    .call (.dequeue .assembler fun data =>
      if data = stopCondition then .forwardStop lost else .consume data lost)
  | .assembler, .consume data lost =>
    .compute fun x m => some (m, if x.lost then .consumeLoop (data :: lost) else .forward data lost)
  | .assembler, .forward data lost => .call (.enqueue .dispatcher data (.consumeLoop lost))
  -- `run` forwards the stop condition after its loop
  | .assembler, .forwardStop lost => .call (.enqueue .dispatcher stopCondition (.assembled lost))
  | .dispatcher, .dispatchLoop =>
    .call (.dequeue .dispatcher fun data =>
      -- the loop ends, and `run` goes through all queues
      if data = stopCondition then afterKey cfg 0 else .dispatch data)
  | .dispatcher, .dispatch data => redirect cfg data
  | .dispatcher, .broadcast key =>
    .call (.enqueue (.consumer key) stopCondition (afterKey cfg key))
  | .consumer k, .receiveLoop receivedMessages =>
    .call (.dequeue (.consumer (k + 1)) fun data =>
      if data = stopCondition then .received receivedMessages
      else .receiveLoop (receivedMessages + 1))
  | _, _ => .finished

def start : Thread cfg → Pc
  | .producer _ => .claim
  | .assembler => .consumeLoop []
  | .dispatcher => .dispatchLoop
  | .consumer _ => .receiveLoop 0

def network : Network (Thread cfg) QueueId NetworkMessage Pc Counter Choice where
  memory := ⟨false, 0⟩
  start := start cfg
  next := next cfg

end Concurrente.SimulBound
