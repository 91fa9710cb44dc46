import Concurrente.PacketLossFix.Results

/-!
# network_simul_packet_loss

The simulation before its fix: dispatcher and assembler leave their loops with the first stop
condition.  All else is as in `network_simul_packet_loss_fix`, whose states the threads have; the
`stopConditionCount` stays 0.
-/

namespace Concurrente.PacketLoss

open Prodcons PacketLossFix

variable (cfg : Config)

def next : Thread cfg → Pc → Instr QueueId NetworkMessage Pc Unit Choice
  -- the assembler does not answer
  | .assembler, .consumeLoop _ lost =>
    .call (.dequeue .assembler fun data =>
      if data = stopCondition then .assembled lost else .consume data lost)
  -- the stop condition goes to all queues, that of the assembler is the last one
  | .dispatcher, .dispatchLoop _ =>
    .call (.dequeue .dispatcher fun data =>
      if data = stopCondition then .broadcast 1 else .dispatch data)
  | i, pc => PacketLossFix.next cfg i pc

def start : Thread cfg → Pc
  | .producer => atIndex cfg 0
  | .assembler => .consumeLoop 0 []
  | .dispatcher => .dispatchLoop 0
  | .consumer _ => .receiveLoop 0

def network : Network (Thread cfg) QueueId NetworkMessage Pc Unit Choice where
  memory := ()
  start := start cfg
  next := next cfg

def simulation : System (Snapshot (Thread cfg) QueueId NetworkMessage Pc Unit)
    (Thread cfg × Choice) := (network cfg).atomic fun _ => ⊤

variable {cfg}

theorem follows : Follows cfg (network cfg) (fun _ lost => .assembled lost)
    fun _ => .broadcast 1 where
  start := by
    funext i
    cases i <;> rfl
  producer _ := rfl
  consumer _ _ := rfl
  consumeLoop _ _ := rfl
  assembler a ha := by
    cases a
    case consumeLoop count lost => exact absurd rfl (ha count lost)
    all_goals rfl
  dispatchLoop _ := rfl
  dispatcher a ha := by
    cases a
    case dispatchLoop count => exact absurd rfl (ha count)
    all_goals rfl

end Concurrente.PacketLoss
