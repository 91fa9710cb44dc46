import Concurrente.Prodcons.Refinement
import Concurrente.Prodcons.Message

/-!
# Threads that consume

A thread that alone reads a queue, one message at a time, until the stop condition.
-/

namespace Concurrente.Prodcons

variable {ι κ σ γ χ : Type*} [DecidableEq ι] [DecidableEq κ]
  {p : Network ι κ NetworkMessage σ γ χ} {i : ι} {k : κ} {loop done : ℕ → σ}

/-- The `run` of a consumer, whose states carry the number of messages. -/
structure Consumes (p : Network ι κ NetworkMessage σ γ χ) (i : ι) (k : κ) (loop done : ℕ → σ) :
    Prop where
  start : p.start i = loop 0
  receives : ∀ n, p.next i (loop n) =
    .call (.dequeue k fun data => if data = stopCondition then done n else loop (n + 1))
  finished : ∀ a, (∀ n, a ≠ loop n) → p.next i a = .finished
  done_ne : ∀ m n, done m ≠ loop n
  alone : ∀ j a next, p.next j a = .call (.dequeue k next) → j = i

/-- A consumer counts what it dequeues until it finds the stop condition. -/
def Consuming (loop done : ℕ → σ) (a : σ) (dequeued : List NetworkMessage) : Prop :=
  ∃ n, a = loop n ∧ dequeued.count stopCondition = 0 ∧ dequeued.length = n ∨
    a = done n ∧ dequeued.count stopCondition = 1 ∧ dequeued.length = n + 1

theorem Consuming.dequeue {n : ℕ} {dequeued : List NetworkMessage}
    (hcount : dequeued.count stopCondition = 0) (hlen : dequeued.length = n) (d : NetworkMessage) :
    Consuming loop done (if d = stopCondition then done n else loop (n + 1)) (dequeued ++ [d]) := by
  by_cases hd : d = stopCondition
  · refine ⟨n, .inr ⟨if_pos hd, ?_, ?_⟩⟩
    · rw [List.count_append, hcount, hd]
      rfl
    · rw [List.length_append, hlen]
      rfl
  · refine ⟨n + 1, .inl ⟨if_neg hd, ?_, ?_⟩⟩
    · rw [List.count_append, hcount, List.count_eq_zero.mpr]
      exact fun h => hd (List.mem_singleton.mp h).symm
    · rw [List.length_append, hlen]
      rfl

namespace Consumes

variable {s t : Snapshot ι κ NetworkMessage σ γ} {x : χ} {c : κ → ℕ∞}

theorem cases (hp : Consumes p i k loop done) (h : (p.atomic c).step s (i, x) = some t) :
    ∃ n d rest, s.thread i = loop n ∧ s.queue k = d :: rest ∧
      t = s.pop i k (fun data => if data = stopCondition then done n else loop (n + 1)) d rest := by
  obtain ⟨n, hn⟩ : ∃ n, s.thread i = loop n := by
    by_contra! hnone
    rw [Network.atomic] at h
    simp only [hp.finished _ hnone, reduceCtorEq] at h
  have hnext := hp.receives n
  rw [← hn] at hnext
  rcases Network.atomic_cases h with ⟨dest, data, nxt, hcall, -⟩ |
    ⟨source, nxt, data, rest, hcall, hq, rfl⟩ | ⟨run, r, hcall, -⟩
  · cases hnext.symm.trans hcall
  · obtain ⟨rfl, rfl⟩ := Op.dequeue.inj (Instr.call.inj (hnext.symm.trans hcall))
    exact ⟨n, data, rest, hn, hq, rfl⟩
  · cases hnext.symm.trans hcall

/-- In every run a consumer has counted what has come out of its queue. -/
theorem consuming (hp : Consumes p i k loop done) (h : (p.atomic c).Reachable s) :
    Consuming loop done (s.thread i) (s.dequeued k) := by
  apply h.invariant (I := fun s => Consuming loop done (s.thread i) (s.dequeued k))
  · exact ⟨0, .inl ⟨hp.start, rfl, rfl⟩⟩
  · rintro s ⟨j, x⟩ t I ht
    by_cases hj : j = i
    · subst hj
      obtain ⟨n, d, rest, hn, -, rfl⟩ := hp.cases ht
      obtain ⟨m, ⟨hm, hcount, hlen⟩ | ⟨hm, -, -⟩⟩ := I
      · have hsame := congrArg (p.next j) (hn.symm.trans hm)
        rw [Snapshot.pop_thread, Snapshot.pop_dequeued, Function.update_self,
          Function.update_self]
        rw [hp.receives, hp.receives] at hsame
        have hnext := congrFun (Op.dequeue.inj (Instr.call.inj hsame)).2 d
        rw [hnext]
        exact .dequeue hcount hlen d
      · exact absurd (hm.symm.trans hn) (hp.done_ne m n)
    · rw [Network.atomic_thread ht (Ne.symm hj),
        Network.atomic_dequeued ht fun next hcall => hj (hp.alone j _ next hcall)]
      exact I

end Consumes

end Concurrente.Prodcons
