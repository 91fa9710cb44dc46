import Concurrente.PacketLossFix.Phases
import Concurrente.Team

/-!
# The way of the messages

Each message is in one place at any time: not yet produced, held by a thread, in a queue, lost, or
sent to the consumer that it was last addressed to.  The consumers get what is addressed to them
and then the stop condition.  This does not depend on what follows the stop condition.
-/

namespace Concurrente.PacketLossFix

open Prodcons

variable {cfg : Config} {m : ℕ}

theorem toQueue_cases (cfg : Config) (key : ℕ) :
    (key = cfg.consumerCount + 1 ∧ toQueue cfg key = .assembler) ∨
    (key ≠ cfg.consumerCount + 1 ∧ toQueue cfg key = .consumer key) := by
  by_cases h : key = cfg.consumerCount + 1
  · exact .inl ⟨h, if_pos h⟩
  · exact .inr ⟨h, if_neg h⟩

/-- The dispatcher holds messages for a key, and tells the queues that are registered. -/
structure Routes (s : Net cfg) : Prop where
  dispatch : ∀ d, s.thread .dispatcher = .dispatch d → Ordinary cfg d
  broadcast : ∀ key, s.thread .dispatcher = .broadcast key →
    1 ≤ key ∧ key ≤ cfg.consumerCount + 1

namespace Pc

/-- The queues that have got their stop condition. -/
def told (consumerCount : ℕ) : Pc → ℕ
  | broadcast key => key - 1
  | dispatched => consumerCount
  | _ => 0

end Pc

def toQueues (s : Net cfg) (key : ℕ) : List NetworkMessage := s.enqueued (.consumer key)

/-- Every consumer gets the messages addressed to it and then the stop condition. -/
structure Redirecting (cfg : Config) (pc : Pc) (toQueues : ℕ → List NetworkMessage) : Prop where
  sent : ∀ key, 1 ≤ key → key ≤ cfg.consumerCount →
    (toQueues key).count stopCondition = if key ≤ pc.told cfg.consumerCount then 1 else 0
  last : ∀ key, 1 ≤ key → key ≤ cfg.consumerCount → StopLast (toQueues key)
  routed : ∀ key, ∀ d ∈ toQueues key, d = stopCondition ∨ d.target = key

theorem toQueues_push (s : Net cfg) (i : Thread cfg) (key : ℕ) (d : NetworkMessage) (nxt : Pc) :
    toQueues (s.push i (.consumer key) d nxt) =
      Function.update (toQueues s) key (toQueues s key ++ [d]) :=
  s.push_enqueued_comp i d nxt (fun _ _ => QueueId.consumer.inj) key

theorem Redirecting.of_told {pc nxt : Pc} {out : ℕ → List NetworkMessage}
    (I : Redirecting cfg pc out)
    (h : nxt.told cfg.consumerCount = pc.told cfg.consumerCount) : Redirecting cfg nxt out := by
  refine ⟨fun key hkey hkey' => ?_, I.last, I.routed⟩
  rw [h]
  exact I.sent key hkey hkey'

theorem Redirecting.push {pc nxt : Pc} {out : ℕ → List NetworkMessage} {d : NetworkMessage}
    {key : ℕ} (I : Redirecting cfg pc out)
    (htold : ∀ k, 1 ≤ k → k ≤ cfg.consumerCount →
      (if k ≤ pc.told cfg.consumerCount then 1 else 0) +
        (if k = key then [d].count stopCondition else 0) =
          if k ≤ nxt.told cfg.consumerCount then 1 else 0)
    (hnew : ¬ key ≤ pc.told cfg.consumerCount) (hd : d = stopCondition ∨ d.target = key) :
    Redirecting cfg nxt (Function.update out key (out key ++ [d])) := by
  constructor
  · intro k hk hk'
    rw [← htold k hk hk']
    by_cases hkey : k = key
    · subst hkey
      rw [Function.update_self, List.count_append, I.sent k hk hk', if_pos rfl]
    · rw [Function.update_of_ne hkey, I.sent k hk hk', if_neg hkey, Nat.add_zero]
  · intro k hk hk'
    by_cases hkey : k = key
    · subst hkey
      rw [Function.update_self]
      apply StopLast.append
      apply List.count_eq_zero.mp
      rw [I.sent k hk hk', if_neg hnew]
    · rw [Function.update_of_ne hkey]
      exact I.last k hk hk'
  · intro k
    by_cases hkey : k = key
    · subst hkey
      rw [Function.update_self]
      exact forall_append (I.routed k) hd
    · rw [Function.update_of_ne hkey]
      exact I.routed k

/-- How often message `m` of the producer is in a list. -/
def numbered (m : ℕ) (l : List NetworkMessage) : ℕ :=
  l.countP fun d => d.source = 1 ∧ d.messageNumber = m

@[simp] theorem numbered_nil : numbered m [] = 0 := rfl

@[simp] theorem numbered_append (l l' : List NetworkMessage) :
    numbered m (l ++ l') = numbered m l + numbered m l' := List.countP_append

theorem numbered_cons (d : NetworkMessage) (l : List NetworkMessage) :
    numbered m (d :: l) = numbered m [d] + numbered m l := numbered_append [d] l

@[simp] theorem numbered_stop : numbered m [stopCondition] = 0 := rfl

theorem numbered_address (d : NetworkMessage) (target : ℕ) :
    numbered m [{ d with target := target }] = numbered m [d] := by
  simp [numbered, List.countP_cons]

theorem numbered_create (x : Choice) (i : ℕ) :
    numbered m [createMessage cfg x i] = if i = m then 1 else 0 := by
  simp [numbered, createMessage, List.countP_cons]

/-- How often a thread holds message `m`, has lost it or is still to produce it. -/
def Pc.holds (m : ℕ) : Pc → ℕ
  | create i => if i ≤ m then 1 else 0
  | produce d i => numbered m [d] + if i + 1 ≤ m then 1 else 0
  | consumeLoop _ lost | answer _ lost | assembled lost => numbered m lost
  | consume d lost | forward d lost => numbered m [d] + numbered m lost
  | dispatch d => numbered m [d]
  | _ => 0

namespace Pc

variable (count : ℕ) (d : NetworkMessage) (lost : List NetworkMessage)

@[simp] theorem holds_create (i : ℕ) : (create i).holds m = if i ≤ m then 1 else 0 := rfl

@[simp] theorem holds_produce (i : ℕ) :
    (produce d i).holds m = numbered m [d] + if i + 1 ≤ m then 1 else 0 := rfl

@[simp] theorem holds_produceStop : produceStop.holds m = 0 := rfl

@[simp] theorem holds_produced : produced.holds m = 0 := rfl

@[simp] theorem holds_consumeLoop : (consumeLoop count lost).holds m = numbered m lost := rfl

@[simp] theorem holds_consume : (consume d lost).holds m = numbered m [d] + numbered m lost := rfl

@[simp] theorem holds_forward : (forward d lost).holds m = numbered m [d] + numbered m lost := rfl

@[simp] theorem holds_answer : (answer count lost).holds m = numbered m lost := rfl

@[simp] theorem holds_assembled : (assembled lost).holds m = numbered m lost := rfl

@[simp] theorem holds_dispatchLoop : (dispatchLoop count).holds m = 0 := rfl

@[simp] theorem holds_dispatch : (dispatch d).holds m = numbered m [d] := rfl

@[simp] theorem holds_echo : (echo count).holds m = 0 := rfl

@[simp] theorem holds_broadcast (key : ℕ) : (broadcast key).holds m = 0 := rfl

@[simp] theorem holds_dispatched : dispatched.holds m = 0 := rfl

end Pc

/-- How often message `m` has been sent to the consumers. -/
def delivered (m : ℕ) (cfg : Config) (out : ℕ → List NetworkMessage) : ℕ :=
  ∑ key ∈ Finset.Icc 1 cfg.consumerCount, numbered m (out key)

/-- All the places of message `m`. -/
def places (s : Net cfg) (m : ℕ) : ℕ :=
  (s.thread .producer).holds m + (s.thread .assembler).holds m + (s.thread .dispatcher).holds m +
    numbered m (s.queue .dispatcher) + numbered m (s.queue .assembler) +
    delivered m cfg (toQueues s)

theorem holds_atIndex (hm : m < cfg.packageCount) (i : ℕ) :
    (atIndex cfg i).holds m = if i ≤ m then 1 else 0 := by
  unfold atIndex
  split
  · rfl
  · exact (if_neg (by omega)).symm

theorem holds_atAssembler (count : ℕ) (lost : List NetworkMessage) :
    (atAssembler count lost).holds m = numbered m lost := by
  unfold atAssembler
  split <;> rfl

theorem holds_atDispatcher (count : ℕ) : (atDispatcher count).holds m = 0 := by
  unfold atDispatcher
  split <;> rfl

theorem holds_afterKey (key : ℕ) : (afterKey cfg key).holds m = 0 := by
  unfold afterKey
  split <;> rfl

theorem holds_consume (x : Choice) (d : NetworkMessage) (lost : List NetworkMessage) :
    (consume cfg x d lost).holds m = numbered m [d] + numbered m lost := by
  unfold consume
  split
  · exact numbered_cons d lost
  · rw [Pc.holds_forward, numbered_address]

theorem delivered_push {out : ℕ → List NetworkMessage} {key : ℕ} (hkey : 1 ≤ key)
    (hkey' : key ≤ cfg.consumerCount) (d : NetworkMessage) :
    delivered m cfg (Function.update out key (out key ++ [d])) =
      delivered m cfg out + numbered m [d] := by
  have h := sum_update (Finset.mem_Icc.mpr ⟨hkey, hkey'⟩) out (fun _ => numbered m)
    (out key ++ [d])
  rw [numbered_append] at h
  unfold delivered
  omega

/-- Where the threads are when they have finished. -/
def Pc.Finished : Pc → Prop
  | produced | assembled _ | dispatched | received _ => True
  | _ => False

namespace Follows

section Steps

variable {p : Network (Thread cfg) QueueId NetworkMessage Pc Unit Choice}
  {stopAssembler : ℕ → List NetworkMessage → Pc} {stopDispatcher : ℕ → Pc} {c : QueueId → ℕ∞}
  {s t : Net cfg} {x : Choice} (hp : Follows cfg p stopAssembler stopDispatcher)

include hp

theorem toQueues_frame {i : Thread cfg} (h : (p.atomic c).step s (i, x) = some t)
    (hi : i ≠ .dispatcher) : toQueues t = toQueues s := by
  funext key
  cases i with
  | dispatcher => exact absurd rfl hi
  | producer =>
    rcases hp.producer_cases h with ⟨i, -, rfl⟩ | ⟨d, i, -, rfl⟩ | ⟨-, rfl⟩ <;> rfl
  | assembler =>
    rcases hp.assembler_cases h with ⟨count, lost, d, rest, -, -, rfl⟩ | ⟨d, lost, -, rfl⟩ |
      ⟨d, lost, -, rfl⟩ | ⟨count, lost, -, rfl⟩ <;> rfl
  | consumer k =>
    obtain ⟨n, d, rest, -, -, rfl⟩ := (hp.consumes k).cases h
    rfl

theorem redirecting_step (htold : ∀ count, (stopDispatcher count).told cfg.consumerCount = 0)
    (J : Routes s) (I : Redirecting cfg (s.thread .dispatcher) (toQueues s))
    (h : (p.atomic c).step s (.dispatcher, x) = some t) :
    Redirecting cfg (t.thread .dispatcher) (toQueues t) := by
  rcases hp.dispatcher_cases h with ⟨count, d, rest, hpc, hq, rfl⟩ | ⟨d, hpc, rfl⟩ |
    ⟨d, hpc, ht⟩ | ⟨count, hpc, rfl⟩ | ⟨key, hpc, rfl⟩
  · rw [hpc] at I
    rw [Snapshot.pop_thread, Function.update_self]
    apply I.of_told
    split
    · exact htold count
    · rfl
  · have hd := J.dispatch d hpc
    rw [hpc] at I
    rw [Snapshot.push_thread, Function.update_self]
    rcases toQueue_cases cfg d.target with ⟨-, hk⟩ | ⟨-, hk⟩ <;> rw [hk]
    · exact I.of_told rfl
    · rw [toQueues_push]
      refine I.push ?_ (Nat.not_le.mpr hd.target_pos) (.inr rfl)
      intro k hk hk'
      simp [Pc.told, atDispatcher, hd.ne_stop]
  · have hd := J.dispatch d hpc
    exact absurd ⟨hd.target_pos, hd.target_le⟩ ht
  · rw [hpc] at I
    rw [Snapshot.push_thread, Function.update_self]
    apply I.of_told
    unfold atDispatcher
    split <;> rfl
  · obtain ⟨hkey, hkey'⟩ := J.broadcast key hpc
    rw [hpc] at I
    rw [Snapshot.push_thread, Function.update_self]
    rcases toQueue_cases cfg key with ⟨hlast, hk⟩ | ⟨hlast, hk⟩ <;> rw [hk]
    · have hafter : afterKey cfg key = .dispatched := if_neg (by omega)
      rw [hafter]
      apply I.of_told
      simp only [Pc.told]
      omega
    · have hafter : afterKey cfg key = .broadcast (key + 1) := if_pos (by omega)
      rw [hafter, toQueues_push]
      refine I.push ?_ ?_ (.inl rfl)
      · intro k hk hk'
        simp only [Pc.told, List.count_singleton_self, Nat.add_sub_cancel]
        grind
      · simp only [Pc.told]
        omega

theorem reachable_redirecting
    (htold : ∀ count, (stopDispatcher count).told cfg.consumerCount = 0)
    (hroutes : ∀ s, (p.atomic c).Reachable s → Routes s) (h : (p.atomic c).Reachable s) :
    Redirecting cfg (s.thread .dispatcher) (toQueues s) := by
  apply h.invariant' (I := fun s : Net cfg => Redirecting cfg (s.thread .dispatcher) (toQueues s))
  · have hstart : (p.atomic c).start.thread .dispatcher = .dispatchLoop 0 := by
      change p.start .dispatcher = _
      rw [hp.start]
      rfl
    rw [hstart]
    refine ⟨fun key hkey _ => ?_, fun key _ _ hd => ?_, fun key d hd => ?_⟩
    · exact (if_neg (Nat.not_le.mpr hkey)).symm
    · cases hd
    · cases hd
  · rintro s ⟨i, x⟩ t hr I ht
    by_cases hi : i = .dispatcher
    · subst hi
      exact hp.redirecting_step htold (hroutes s hr) I ht
    · rw [Network.atomic_thread ht (Ne.symm hi), hp.toQueues_frame ht hi]
      exact I

theorem places_producer (hm : m < cfg.packageCount)
    (h : (p.atomic c).step s (.producer, x) = some t) : places t m = places s m := by
  have hout := hp.toQueues_frame h (by simp)
  unfold places
  rw [hout]
  rcases hp.producer_cases h with ⟨i, hpc, rfl⟩ | ⟨d, i, hpc, rfl⟩ | ⟨hpc, rfl⟩
  · simp [hpc, numbered_create]
    grind
  · simp [hpc, holds_atIndex hm]
    omega
  · simp [hpc]

theorem places_assembler
    (hholds : ∀ count lost, (stopAssembler count lost).holds m = numbered m lost)
    (h : (p.atomic c).step s (.assembler, x) = some t) : places t m = places s m := by
  have hout := hp.toQueues_frame h (by simp)
  unfold places
  rw [hout]
  rcases hp.assembler_cases h with ⟨count, lost, d, rest, hpc, hq, rfl⟩ | ⟨d, lost, hpc, rfl⟩ |
    ⟨d, lost, hpc, rfl⟩ | ⟨count, lost, hpc, rfl⟩
  · rw [hq, numbered_cons]
    by_cases hd : d = stopCondition
    · simp [hpc, hd, hholds]
    · simp [hpc, hd]
      omega
  · simp [hpc, holds_consume]
  · simp [hpc]
    omega
  · simp [hpc, holds_atAssembler]

theorem places_dispatcher (hholds : ∀ count, (stopDispatcher count).holds m = 0) (J : Routes s)
    (h : (p.atomic c).step s (.dispatcher, x) = some t) : places t m = places s m := by
  rcases hp.dispatcher_cases h with ⟨count, d, rest, hpc, hq, rfl⟩ | ⟨d, hpc, rfl⟩ |
    ⟨d, hpc, ht⟩ | ⟨count, hpc, rfl⟩ | ⟨key, hpc, rfl⟩
  · have hout : toQueues (s.pop .dispatcher .dispatcher (fun data =>
      if data = stopCondition then stopDispatcher count else .dispatch data) d rest) =
        toQueues s := rfl
    unfold places
    rw [hout, hq, numbered_cons]
    by_cases hd : d = stopCondition
    · simp [hpc, hd, hholds]
    · simp [hpc, hd]
      omega
  · have hd := J.dispatch d hpc
    unfold places
    rcases toQueue_cases cfg d.target with ⟨-, hk⟩ | ⟨hne, hk⟩ <;> rw [hk]
    · have hout : toQueues (s.push .dispatcher .assembler d (atDispatcher 0)) = toQueues s := rfl
      rw [hout]
      simp [hpc, holds_atDispatcher]
      omega
    · have hle := hd.target_le
      rw [toQueues_push, delivered_push hd.target_pos (by omega)]
      simp [hpc, holds_atDispatcher]
      omega
  · have hd := J.dispatch d hpc
    exact absurd ⟨hd.target_pos, hd.target_le⟩ ht
  · have hout : toQueues (s.push .dispatcher .assembler stopCondition (atDispatcher count)) =
      toQueues s := rfl
    unfold places
    rw [hout]
    simp [hpc, holds_atDispatcher]
  · obtain ⟨hkey, hkey'⟩ := J.broadcast key hpc
    unfold places
    rcases toQueue_cases cfg key with ⟨-, hk⟩ | ⟨hne, hk⟩ <;> rw [hk]
    · have hout : toQueues (s.push .dispatcher .assembler stopCondition (afterKey cfg key)) =
        toQueues s := rfl
      rw [hout]
      simp [hpc, holds_afterKey]
    · rw [toQueues_push, delivered_push hkey (by omega)]
      simp [hpc, holds_afterKey]

theorem places_consumer {k : Fin cfg.consumerCount}
    (h : (p.atomic c).step s (.consumer k, x) = some t) : places t m = places s m := by
  have hout := hp.toQueues_frame h (by simp)
  unfold places
  rw [hout]
  obtain ⟨n, d, rest, hpc, hq, rfl⟩ := (hp.consumes k).cases h
  simp

theorem reachable_places (hassembler : ∀ count lost, (stopAssembler count lost).holds m =
      numbered m lost) (hdispatcher : ∀ count, (stopDispatcher count).holds m = 0)
    (hroutes : ∀ s, (p.atomic c).Reachable s → Routes s) (hm : m < cfg.packageCount)
    (h : (p.atomic c).Reachable s) : places s m = 1 := by
  apply h.invariant' (I := fun s : Net cfg => places s m = 1)
  · have hstart : places (p.atomic c).start m = (p.start .producer).holds m +
        (p.start .assembler).holds m + (p.start .dispatcher).holds m + 0 + 0 +
          delivered m cfg (fun _ => []) := rfl
    rw [hstart, hp.start]
    change (atIndex cfg 0).holds m + 0 + 0 + 0 + 0 + _ = 1
    rw [holds_atIndex hm]
    simp [delivered]
  · rintro s ⟨i, x⟩ t hr I ht
    rw [← I]
    cases i with
    | producer => exact hp.places_producer hm ht
    | assembler => exact hp.places_assembler hassembler ht
    | dispatcher => exact hp.places_dispatcher hdispatcher (hroutes s hr) ht
    | consumer k => exact hp.places_consumer ht

theorem finished_consumer (hredirecting : Redirecting cfg (s.thread .dispatcher) (toQueues s))
    (h : (p.atomic c).Reachable s) {k : Fin cfg.consumerCount}
    (hf : (s.thread (.consumer k)).Finished) :
    s.enqueued (.consumer (k + 1)) = s.dequeued (.consumer (k + 1)) := by
  have horder := Network.atomic_order h (.consumer (k + 1))
  have hlast := hredirecting.last (k + 1) (Nat.le_add_left 1 _) k.isLt
  obtain ⟨n, ⟨hpc, -, -⟩ | ⟨-, hcount, -⟩⟩ := (hp.consumes k).consuming h
  · rw [hpc] at hf
    exact hf.elim
  · have hmem : stopCondition ∈ s.dequeued (.consumer (k + 1)) :=
      List.count_pos_iff.mp (by omega)
    rw [toQueues, horder] at hlast
    rw [horder, hlast.rest hmem, List.append_nil]

theorem finished_delivered (hredirecting : Redirecting cfg (s.thread .dispatcher) (toQueues s))
    (h : (p.atomic c).Reachable s) (hf : ∀ i, (s.thread i).Finished) :
    delivered m cfg (toQueues s) = delivered m cfg fun key => s.dequeued (.consumer key) := by
  apply Finset.sum_congr rfl
  intro key hkey
  obtain ⟨hpos, hle⟩ := Finset.mem_Icc.mp hkey
  have hk := hp.finished_consumer hredirecting h (hf (.consumer ⟨key - 1, by omega⟩))
  rw [Nat.sub_add_cancel hpos] at hk
  rw [toQueues, hk]

end Steps

end Follows

end Concurrente.PacketLossFix
