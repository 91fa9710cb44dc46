import Concurrente.Prodcons.Consumer
import Concurrente.SimulBound.Stages

/-!
# The reachable states of network_simul_bound

A thread leaves the invariants of the other stages alone, because every queue has one
kind of writer and one reader.
-/

namespace Concurrente.SimulBound

open Prodcons

variable {cfg : Config}

theorem next_dequeue {i : Thread cfg} {pc : Pc} {q : QueueId} {nxt : NetworkMessage → Pc}
    (h : next cfg i pc = .call (.dequeue q nxt)) :
    i = .assembler ∧ q = .assembler ∨ i = .dispatcher ∧ q = .dispatcher ∨
      ∃ k : Fin cfg.consumerCount, i = .consumer k ∧ q = .consumer (k + 1) := by
  cases i <;> cases pc <;> simp [next, redirect] at h
  · exact .inl ⟨rfl, h.1.symm⟩
  · exact .inr (.inl ⟨rfl, h.1.symm⟩)
  · split at h <;> simp at h
  · exact .inr (.inr ⟨_, rfl, h.1.symm⟩)

theorem next_enqueue {i : Thread cfg} {pc : Pc} {q : QueueId} {d : NetworkMessage} {nxt : Pc}
    (h : next cfg i pc = .call (.enqueue q d nxt)) :
    (∃ j, i = .producer j) ∧ q = .assembler ∨ i = .assembler ∧ q = .dispatcher ∨
      i = .dispatcher ∧ ∃ key, q = .consumer key := by
  cases i <;> cases pc <;> simp [next, redirect] at h
  · exact .inl ⟨⟨_, rfl⟩, h.1.symm⟩
  · exact .inl ⟨⟨_, rfl⟩, h.1.symm⟩
  · exact .inr (.inl ⟨rfl, h.1.symm⟩)
  · exact .inr (.inl ⟨rfl, h.1.symm⟩)
  · split at h
    · simp at h
      exact .inr (.inr ⟨rfl, _, h.1.symm⟩)
    · simp at h
  · exact .inr (.inr ⟨rfl, _, h.1.symm⟩)

section Frames

variable {s t : Net cfg} {i : Thread cfg} {x : Choice} {c : QueueId → ℕ∞}

theorem producers_frame (h : ((network cfg).atomic c).step s (i, x) = some t)
    (hi : ∀ j, i ≠ .producer j) :
    producers t = producers s ∧ t.memory = s.memory ∧
      t.enqueued .assembler = s.enqueued .assembler := by
  refine ⟨?_, ?_, ?_⟩
  · funext j
    exact Network.atomic_thread h (hi j).symm
  · apply Network.atomic_memory h
    intro run r hn hr
    change next cfg _ _ = _ at hn
    generalize s.thread i = pc at hn
    cases i <;> cases pc <;> simp [next, redirect] at hn
    · exact absurd rfl (hi _)
    · exact absurd rfl (hi _)
    · exact absurd rfl (hi _)
    · exact absurd rfl (hi _)
    · subst hn
      cases hr
      rfl
    · split at hn
      · cases hn
      · simp at hn
        subst hn
        cases hr
        rfl
  · apply Network.atomic_enqueued h
    intro data nxt hn
    rcases next_enqueue hn with ⟨⟨j, hj⟩, -⟩ | ⟨-, hq⟩ | ⟨-, key, hq⟩
    · exact hi j hj
    · cases hq
    · cases hq

theorem assembler_frame (h : ((network cfg).atomic c).step s (i, x) = some t)
    (hi : i ≠ .assembler) :
    t.thread .assembler = s.thread .assembler ∧
      t.dequeued .assembler = s.dequeued .assembler ∧
      t.enqueued .dispatcher = s.enqueued .dispatcher := by
  refine ⟨Network.atomic_thread h hi.symm, Network.atomic_dequeued h ?_,
    Network.atomic_enqueued h ?_⟩
  · intro nxt hn
    rcases next_dequeue hn with ⟨hj, -⟩ | ⟨-, hq⟩ | ⟨k, -, hq⟩
    · exact hi hj
    · cases hq
    · cases hq
  · intro data nxt hn
    rcases next_enqueue hn with ⟨-, hq⟩ | ⟨hj, -⟩ | ⟨-, key, hq⟩
    · cases hq
    · exact hi hj
    · cases hq

theorem dispatcher_frame (h : ((network cfg).atomic c).step s (i, x) = some t)
    (hi : i ≠ .dispatcher) :
    t.thread .dispatcher = s.thread .dispatcher ∧
      t.dequeued .dispatcher = s.dequeued .dispatcher ∧ toQueues t = toQueues s := by
  refine ⟨Network.atomic_thread h hi.symm, Network.atomic_dequeued h ?_, ?_⟩
  · intro nxt hn
    rcases next_dequeue hn with ⟨-, hq⟩ | ⟨hj, -⟩ | ⟨k, -, hq⟩
    · cases hq
    · exact hi hj
    · cases hq
  · funext key
    apply Network.atomic_enqueued h
    intro data nxt hn
    rcases next_enqueue hn with ⟨-, hq⟩ | ⟨-, hq⟩ | ⟨hj, -⟩
    · cases hq
    · cases hq
    · exact hi hj

end Frames

section Reachable

variable {s : Net cfg} {c : QueueId → ℕ∞}

theorem reachable_claiming (h : ((network cfg).atomic c).Reachable s) : Claiming s := by
  apply System.Reachable.invariant (I := Claiming) _ _ h
  · constructor
    · simp [Network.atomic, network, producers, start, Pc.owner]
    · intro i
      trivial
    · intro d hd
      cases hd
  · rintro s ⟨i, x⟩ t I ht
    by_cases hi : ∃ j, i = .producer j
    · obtain ⟨j, rfl⟩ := hi
      exact claiming_step I ht
    · obtain ⟨hp, hm, he⟩ := producers_frame ht (not_exists.mp hi)
      constructor
      · rw [hp, hm]
        exact I.owners
      · rw [hp]
        exact I.producer
      · rw [he]
        exact I.ordinary

theorem reachable_producing (hL : cfg.packageCount + cfg.producerCount < 2 ^ 64)
    (h : ((network cfg).atomic c).Reachable s) : Producing s := by
  apply System.Reachable.invariant (I := Producing) _ _ h
  · have hlast : cfg.lastProduced = cfg.packageCount + cfg.producerCount := Nat.mod_eq_of_lt hL
    have hN := cfg.producerCount_pos
    constructor
    · simp [Network.atomic, network, producers, start, Pc.past]
    · intro m hm hm'
      have hm0 : 0 < m := hm
      simp [Network.atomic, network, producers, start, Pc.holds, hm0]
    · have hL0 : 0 < cfg.lastProduced := by omega
      simp [Network.atomic, network, producers, start, Pc.stops, hL0]
    · intro i
      trivial
    · intro d hd
      cases hd
    · intro hd
      cases hd
  · rintro s ⟨i, x⟩ t I ht
    by_cases hi : ∃ j, i = .producer j
    · obtain ⟨j, rfl⟩ := hi
      exact producing_step hL I ht
    · obtain ⟨hp, hm, he⟩ := producers_frame ht (not_exists.mp hi)
      constructor
      · rw [hp, hm]
        exact I.past
      · rw [hp, hm, he]
        exact I.holds
      · rw [hp, hm, he]
        exact I.stops
      · rw [hp]
        exact I.positive
      · rw [he]
        exact I.numbers
      · rw [he]
        exact I.last

theorem reachable_unstopped (hL : cfg.lastProduced ≤ cfg.packageCount)
    (h : ((network cfg).atomic c).Reachable s) : Unstopped s := by
  apply System.Reachable.invariant' (I := Unstopped) _ _ h
  · constructor
    · intro i
      simp [Network.atomic, network, producers, start]
    · simp [Network.atomic, network]
  · rintro s ⟨i, x⟩ t hr I ht
    by_cases hi : ∃ j, i = .producer j
    · obtain ⟨j, rfl⟩ := hi
      exact unstopped_step hL (reachable_claiming hr) I ht
    · obtain ⟨hp, -, he⟩ := producers_frame ht (not_exists.mp hi)
      constructor
      · rw [hp]
        exact I.producer
      · rw [he]
        exact I.never

theorem reachable_assembling (h : ((network cfg).atomic c).Reachable s) :
    Assembling (s.thread .assembler) (s.dequeued .assembler) (s.enqueued .dispatcher) := by
  apply System.Reachable.invariant (I := fun s : Net cfg =>
    Assembling (s.thread .assembler) (s.dequeued .assembler) (s.enqueued .dispatcher)) _ _ h
  · constructor
    · exact List.Perm.refl _
    · simp [Network.atomic, network, start, Pc.lost]
    · trivial
    · simp [Network.atomic, network, start]
    · intro hd
      cases hd
  · rintro s ⟨i, x⟩ t I ht
    by_cases hi : i = .assembler
    · subst hi
      exact assembling_step I ht
    · obtain ⟨hp, hd, he⟩ := assembler_frame ht hi
      rw [hp, hd, he]
      exact I

theorem ordinary_dispatcher (h : ((network cfg).atomic c).Reachable s) :
    ∀ d ∈ s.enqueued .dispatcher, d = stopCondition ∨ Ordinary cfg d := by
  intro d hd
  apply (reachable_claiming h).ordinary
  rw [Network.atomic_order h]
  apply List.mem_append_left
  rw [(reachable_assembling h).kept.mem_iff]
  exact List.mem_append_right _ hd

theorem reachable_dispatching (h : ((network cfg).atomic c).Reachable s) :
    Dispatching cfg (s.thread .dispatcher) (s.dequeued .dispatcher) (toQueues s) := by
  apply System.Reachable.invariant' (I := fun s : Net cfg =>
    Dispatching cfg (s.thread .dispatcher) (s.dequeued .dispatcher) (toQueues s)) _ _ h
  · constructor
    · trivial
    · intro m hm
      simp [Network.atomic, network, start, Pc.held, toQueues]
    · rfl
    · intro key
      simp [Network.atomic, network, start, Pc.told, toQueues]
      omega
    · intro key hd
      cases hd
    · intro d hd
      cases hd
    · intro key d hd
      cases hd
  · rintro s ⟨i, x⟩ t hr I ht
    by_cases hi : i = .dispatcher
    · subst hi
      apply dispatching_step _ I ht
      intro d hd
      apply ordinary_dispatcher hr
      rw [Network.atomic_order hr]
      exact List.mem_append_right _ hd
    · obtain ⟨hp, hd, he⟩ := dispatcher_frame ht hi
      rw [hp, hd, he]
      exact I

theorem consumes (cfg : Config) (k : Fin cfg.consumerCount) :
    Consumes (network cfg) (.consumer k) (.consumer (k + 1)) .receiveLoop .received where
  start := rfl
  receives n := rfl
  finished a ha := by
    cases a
    case receiveLoop n => exact absurd rfl (ha n)
    all_goals rfl
  done_ne _ _ := Pc.noConfusion
  alone i a nxt hn := by
    rcases next_dequeue hn with ⟨-, hq⟩ | ⟨-, hq⟩ | ⟨j, hj, hq⟩
    · cases hq
    · cases hq
    · have hjk : k = j := Fin.ext (by simpa using hq)
      exact hjk ▸ hj

theorem reachable_consuming (h : ((network cfg).atomic c).Reachable s)
    (k : Fin cfg.consumerCount) :
    Consuming .receiveLoop .received (s.thread (.consumer k)) (s.dequeued (.consumer (k + 1))) :=
  (consumes cfg k).consuming h

end Reachable

end Concurrente.SimulBound
