import Concurrente.PacketLossFix.Progress

/-!
# Every message of network_simul_packet_loss_fix is lost or consumed
-/

namespace Concurrente.PacketLossFix

open Prodcons

variable {cfg : Config} {m : ℕ}

def Pc.held : Pc → List NetworkMessage
  | produce d _ | consume d _ | forward d _ | dispatch d => [d]
  | _ => []

theorem held_working {pc : Pc} (h : pc.Halfway) : pc.held = [] := by
  cases pc with
  | consumeLoop count lost => rfl
  | _ => exact h.elim

theorem not_finished_of_dispatches {pc : Pc} {P : NetworkMessage → Prop} {most : ℕ}
    (h : pc.Dispatches P most) : ¬ pc.Finished := by
  cases pc with
  | dispatchLoop count => exact not_false
  | dispatch d => exact not_false
  | _ => exact h.elim

theorem Pc.Left.eq_dispatched {pc : Pc} (h : pc.Left cfg) (hf : pc.Finished) :
    pc = .dispatched := by
  cases pc with
  | dispatched => rfl
  | broadcast key => exact hf.elim
  | _ => exact h.elim

theorem not_left_of_dispatches {pc : Pc} {P : NetworkMessage → Prop} {most : ℕ}
    (h : pc.Dispatches P most) : ¬ pc.Left cfg := by
  cases pc with
  | dispatchLoop count => exact not_false
  | dispatch d => exact not_false
  | _ => exact h.elim

section Left

variable {p a d : Pc} {qd qa : List NetworkMessage}

theorem Phase.left (h : Phase cfg p a d qd qa) (hleft : d.Left cfg) :
    (∀ m ∈ qd, m = stopCondition) ∧ (∀ m ∈ qa, m = stopCondition) ∧ a.held = [] := by
  cases h with
  | producing hp ha hd => exact absurd hleft (not_left_of_dispatches hd)
  | sent x y hp ha hd => exact absurd hleft (not_left_of_dispatches hd)
  | echoing hp ha hd =>
    subst hd
    exact hleft.elim
  | echoed x hp ha hd => exact absurd hleft (not_left_of_dispatches hd)
  | answering lost hp ha hd => exact absurd hleft (not_left_of_dispatches hd)
  | answered y hp ha hd => exact absurd hleft (not_left_of_dispatches hd)
  | echoingAgain hp ha hd =>
    rcases hd with rfl | rfl <;> exact hleft.elim
  | echoedAgain hp ha hd hqd hne hqa =>
    subst hqd
    exact ⟨List.forall_mem_nil _, hqa, held_working ha⟩
  | answeringAgain lost hp ha hd hqd hqa =>
    subst hqd ha
    exact ⟨List.forall_mem_nil _, hqa, rfl⟩
  | assembled lost hp ha hd hqa =>
    subst ha
    refine ⟨?_, hqa, rfl⟩
    rcases hd with ⟨-, rfl⟩ | ⟨rfl, -⟩ | ⟨-, rfl⟩
    · exact fun m hm => List.mem_singleton.mp hm
    · exact hleft.elim
    · exact List.forall_mem_nil _

theorem Phase.finished (h : Phase cfg p a d qd qa) (ha : a.Finished)
    (hd : d.Finished) : p = .produced ∧ (∃ lost, a = .assembled lost) ∧ d = .dispatched := by
  cases h with
  | producing hp' ha' hd' => exact absurd hd (not_finished_of_dispatches hd')
  | sent x y hp' ha' hd' => exact absurd hd (not_finished_of_dispatches hd')
  | echoing hp' ha' hd' =>
    subst hd'
    exact hd.elim
  | echoed x hp' ha' hd' => exact absurd hd (not_finished_of_dispatches hd')
  | answering lost hp' ha' hd' => exact absurd hd (not_finished_of_dispatches hd')
  | answered y hp' ha' hd' => exact absurd hd (not_finished_of_dispatches hd')
  | echoingAgain hp' ha' hd' =>
    rcases hd' with rfl | rfl <;> exact hd.elim
  | echoedAgain hp' ha' hd' =>
    rcases hd' with rfl | hd'
    · exact hd.elim
    · cases a with
      | assembled lost => exact ⟨hp', ⟨lost, rfl⟩, hd'.eq_dispatched hd⟩
      | consumeLoop count lost => exact ha.elim
      | _ => exact ha'.elim
  | answeringAgain lost hp' ha' =>
    subst ha'
    exact ha.elim
  | assembled lost hp' ha' hd' =>
    refine ⟨hp', ⟨lost, ha'⟩, ?_⟩
    rcases hd' with ⟨rfl | hd', -⟩ | ⟨rfl, -⟩ | ⟨hd', -⟩
    · exact hd.elim
    · exact hd'.eq_dispatched hd
    · exact hd.elim
    · exact hd'.eq_dispatched hd

end Left

theorem numbered_of_stop {l : List NetworkMessage} (h : ∀ d ∈ l, d = stopCondition) :
    numbered m l = 0 := by
  apply List.countP_eq_zero.mpr
  intro d hd
  rw [h d hd]
  simp [stopCondition]

section Finished

variable {s : Net cfg}

theorem finished_messages (h : (simulation cfg).Reachable s)
    (hf : ∀ i, (s.thread i).Finished) : ∃ lost, s.thread .assembler = .assembled lost ∧
      ∀ m < cfg.packageCount,
        numbered m lost + delivered m cfg (fun key => s.dequeued (.consumer key)) = 1 := by
  have I := reachable_inPhase h
  obtain ⟨hp, ⟨lost, ha⟩, hd⟩ := Phase.finished I (hf .assembler) (hf .dispatcher)
  have hleft : (s.thread .dispatcher).Left cfg := by
    rw [hd]
    trivial
  obtain ⟨hqd, hqa, -⟩ := Phase.left I hleft
  refine ⟨lost, ha, fun m hm => ?_⟩
  have hplaces := reachable_places hm h
  unfold places at hplaces
  rw [hp, ha, hd, numbered_of_stop hqd, numbered_of_stop hqa,
    follows.finished_delivered (reachable_redirecting h) h hf] at hplaces
  simpa using hplaces

end Finished

/-- In every run of the simulation with unbounded queues: only finished threads can be stuck; the
dispatcher stays in its loop while a message is queued at or held by the assembler; consumers
get what is addressed to them; and in the end every message was lost once or consumed once. -/
theorem messages_lost_or_consumed (cfg : Config) {s : Net cfg}
    (h : (simulation cfg).Reachable s) :
    ((simulation cfg).Stuck s → ∀ i, (s.thread i).Finished) ∧
    ((s.thread .dispatcher).Left cfg →
      (∀ d ∈ s.queue .assembler, d = stopCondition) ∧ (s.thread .assembler).held = []) ∧
    (∀ key, ∀ d ∈ s.dequeued (.consumer key), d = stopCondition ∨ d.target = key) ∧
    ((∀ i, (s.thread i).Finished) → ∃ lost, s.thread .assembler = .assembled lost ∧
      ∀ m < cfg.packageCount, numbered m lost +
        ∑ key ∈ Finset.Icc 1 cfg.consumerCount, numbered m (s.dequeued (.consumer key)) = 1) := by
  refine ⟨fun hs => stuck_finished hs h, fun hleft => ?_, fun key d hd => ?_,
    finished_messages h⟩
  · exact (Phase.left (reachable_inPhase h) hleft).2
  · apply (reachable_redirecting h).routed key
    rw [toQueues, Network.atomic_order h]
    exact List.mem_append_left _ hd

def oneMessage : Config := ⟨1, 1, 50, by omega, Nat.one_pos, by omega⟩

/-- The message goes to the assembler first, which sends it on. -/
def assembledRun : List (Thread oneMessage × Choice) :=
  [(.producer, ⟨1, 70, by norm_num, by norm_num⟩), (.producer, default), (.producer, default),
    (.dispatcher, default), (.dispatcher, default), (.assembler, default),
    (.assembler, ⟨0, 70, by norm_num, by norm_num⟩), (.dispatcher, default), (.dispatcher, default),
    (.assembler, default), (.assembler, default), (.assembler, default),
    (.dispatcher, default), (.dispatcher, default), (.dispatcher, default),
    (.dispatcher, default), (.assembler, default), (.assembler, default),
    (.dispatcher, default), (.dispatcher, default), (.dispatcher, default),
    (.dispatcher, default), (.consumer ⟨0, by decide⟩, default),
    (.consumer ⟨0, by decide⟩, default)]

theorem messages_lost_or_consumed_one :
    ∃ s, (simulation oneMessage).run assembledRun = some s ∧
      ((simulation oneMessage).Stuck s → ∀ i, (s.thread i).Finished) ∧
      ∃ lost, s.thread .assembler = .assembled lost ∧ numbered 0 lost +
        ∑ key ∈ Finset.Icc 1 1, numbered 0 (s.dequeued (.consumer key)) = 1 := by
  obtain ⟨s, hs⟩ : ∃ s, (simulation oneMessage).run assembledRun = some s := ⟨_, rfl⟩
  obtain ⟨hstuck, -, -, hend⟩ := messages_lost_or_consumed oneMessage (System.reachable_run hs)
  have hrun : ((simulation oneMessage).run assembledRun).map (fun s => (s.thread .producer,
      s.thread .assembler, s.thread .dispatcher, s.thread (.consumer ⟨0, by decide⟩))) =
    some (.produced, .assembled [], .dispatched, .received 1) := rfl
  simp only [hs, Option.map_some, Option.some.injEq, Prod.mk.injEq] at hrun
  obtain ⟨hp, ha, hd, hc⟩ := hrun
  have hf : ∀ i, (s.thread i).Finished := by
    rintro (- | - | - | ⟨k, hk⟩)
    · exact hp ▸ trivial
    · exact ha ▸ trivial
    · exact hd ▸ trivial
    · cases Nat.lt_one_iff.mp hk
      exact hc ▸ trivial
  obtain ⟨lost, ha, hm⟩ := hend hf
  exact ⟨s, hs, hstuck, lost, ha, hm 0 (by decide)⟩

end Concurrente.PacketLossFix
