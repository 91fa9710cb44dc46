import Concurrente.Semaphores.Progress

/-!
# taskc_patterns

The patterns in which threads tell each other of statements: signaling, rendezvous, the
rendezvous of the chess players, and the multiplex.
-/

namespace Concurrente.TaskcPatterns

open Semaphores

namespace Signaling

inductive Thread where
  | threadA
  | threadB
  deriving DecidableEq

instance : Fintype Thread where
  elems := {.threadA, .threadB}
  complete thread := by cases thread <;> decide

inductive Semaphore where
  | a1Ready
  deriving DecidableEq

inductive Statement where
  | a1
  | b1
  deriving DecidableEq

def routine : Thread → List (Line Semaphore Statement)
  | .threadA => [.statement .a1, .signal .a1Ready 1]
  | .threadB => [.wait .a1Ready, .statement .b1]

def main : Script Thread Semaphore Statement := Script.once (fun _ => 0) routine

end Signaling

namespace Signaling3

inductive Thread where
  | threadA
  | threadB
  | threadC
  deriving DecidableEq

instance : Fintype Thread where
  elems := {.threadA, .threadB, .threadC}
  complete thread := by cases thread <;> decide

inductive Semaphore where
  | a1Ready
  | b1Ready
  deriving DecidableEq

inductive Statement where
  | a1
  | b1
  | c1
  deriving DecidableEq

def routine : Thread → List (Line Semaphore Statement)
  | .threadA => [.statement .a1, .signal .a1Ready 1]
  | .threadB => [.wait .a1Ready, .statement .b1, .signal .b1Ready 1]
  | .threadC => [.wait .b1Ready, .statement .c1]

def main : Script Thread Semaphore Statement := Script.once (fun _ => 0) routine

end Signaling3

namespace Rendezvous

inductive Thread where
  | threadA
  | threadB
  deriving DecidableEq

instance : Fintype Thread where
  elems := {.threadA, .threadB}
  complete thread := by cases thread <;> decide

inductive Semaphore where
  | a1Ready
  | b1Ready
  deriving DecidableEq

inductive Statement where
  | a1
  | a2
  | b1
  | b2
  deriving DecidableEq

def routine : Thread → List (Line Semaphore Statement)
  | .threadA => [.statement .a1, .signal .a1Ready 1, .wait .b1Ready, .statement .a2]
  | .threadB => [.statement .b1, .signal .b1Ready 1, .wait .a1Ready, .statement .b2]

def main : Script Thread Semaphore Statement := Script.once (fun _ => 0) routine

end Rendezvous

namespace Chessvous

inductive Thread where
  | player1
  | player2
  | referee
  deriving DecidableEq

instance : Fintype Thread where
  elems := {.player1, .player2, .referee}
  complete thread := by cases thread <;> decide

inductive Semaphore where
  | player1Ready
  | player2Ready
  | clockReady
  deriving DecidableEq

inductive Statement where
  | enterRoom
  | playChess
  | setClock
  deriving DecidableEq

def routine : Thread → List (Line Semaphore Statement)
  | .player1 =>
    [.statement .enterRoom, .signal .player1Ready 1, .wait .clockReady, .statement .playChess]
  | .player2 =>
    [.statement .enterRoom, .signal .player2Ready 1, .wait .clockReady, .statement .playChess]
  | .referee =>
    [.statement .enterRoom, .wait .player1Ready, .wait .player2Ready, .statement .setClock,
      .signal .clockReady 2]

def main : Script Thread Semaphore Statement := Script.once (fun _ => 0) routine

end Chessvous

section Order

variable {ι κ τ : Type} [DecidableEq ι] [DecidableEq κ] [DecidableEq τ] [Fintype ι]

/-- In every state of every run what is listed has been executed in this order, as far as it has
been executed, and every run ends with all statements of all threads. -/
structure Enforces (main : Script ι κ τ) (routine : ι → List (Line κ τ))
    (order : List ((ι × τ) × (ι × τ))) : Prop where
  precedes : ∀ s, main.system.Reachable s → ∀ x ∈ order, Precedes s x.1 x.2
  finished : ∀ s, main.system.Reachable s → main.system.Stuck s →
    ∀ i, s.position i = (routine i).length
  bounded : ∀ l s, main.system.run l = some s → l.length ≤ ∑ i, (routine i).length

end Order

theorem signaling_completes : Completes (fun _ => 0) Signaling.routine :=
  completes_of_rank (fun _ => 0) (by decide) (by rintro ⟨⟩; decide)

theorem signaling_enforces :
    Enforces Signaling.main Signaling.routine [((.threadA, .a1), (.threadB, .b1))] where
  precedes s (h : (Script.once (fun _ => 0) Signaling.routine).system.Reachable s) := by
    simp only [List.forall_mem_singleton]
    exact once_precedes (k := .a1Ready) rfl (by decide) (by decide) (by decide) h
  finished := signaling_completes.finished
  bounded := signaling_completes.bounded

def Signaling3.Semaphore.rank : Signaling3.Semaphore → ℕ
  | a1Ready => 0
  | b1Ready => 1

theorem signaling3_completes : Completes (fun _ => 0) Signaling3.routine := by
  apply completes_of_rank Signaling3.Semaphore.rank (by decide)
  rintro ⟨⟩ <;> decide

theorem signaling3_enforces :
    Enforces Signaling3.main Signaling3.routine
      [((.threadA, .a1), (.threadB, .b1)), ((.threadB, .b1), (.threadC, .c1)),
        ((.threadA, .a1), (.threadC, .c1))] where
  precedes s (h : (Script.once (fun _ => 0) Signaling3.routine).system.Reachable s) := by
    have ha : Precedes s (.threadA, .a1) (.threadB, .b1) :=
      once_precedes (k := .a1Ready) rfl (by decide) (by decide) (by decide) h
    have hb : Precedes s (.threadB, .b1) (.threadC, .c1) :=
      once_precedes (k := .b1Ready) rfl (by decide) (by decide) (by decide) h
    simp only [List.forall_mem_cons]
    exact ⟨ha, hb, ha.trans hb, List.forall_mem_nil _⟩
  finished := signaling3_completes.finished
  bounded := signaling3_completes.bounded

theorem rendezvous_completes : Completes (fun _ => 0) Rendezvous.routine :=
  completes_of_rank (fun _ => 0) (by decide) (by rintro ⟨⟩ <;> decide)

theorem rendezvous_enforces :
    Enforces Rendezvous.main Rendezvous.routine
      [((.threadA, .a1), (.threadA, .a2)), ((.threadA, .a1), (.threadB, .b2)),
        ((.threadB, .b1), (.threadA, .a2)), ((.threadB, .b1), (.threadB, .b2))] where
  precedes s (h : (Script.once (fun _ => 0) Rendezvous.routine).system.Reachable s) := by
    simp only [List.forall_mem_cons]
    exact ⟨once_precedes_self (by decide) h,
      once_precedes (k := .a1Ready) rfl (by decide) (by decide) (by decide) h,
      once_precedes (k := .b1Ready) rfl (by decide) (by decide) (by decide) h,
      once_precedes_self (by decide) h, List.forall_mem_nil _⟩
  finished := rendezvous_completes.finished
  bounded := rendezvous_completes.bounded

def Chessvous.Semaphore.rank : Chessvous.Semaphore → ℕ
  | player1Ready => 0
  | player2Ready => 0
  | clockReady => 1

theorem chessvous_completes : Completes (fun _ => 0) Chessvous.routine := by
  apply completes_of_rank Chessvous.Semaphore.rank (by decide)
  rintro ⟨⟩ <;> decide

theorem chessvous_enforces :
    Enforces Chessvous.main Chessvous.routine
      [((.player1, .enterRoom), (.referee, .setClock)),
        ((.player2, .enterRoom), (.referee, .setClock)),
        ((.referee, .setClock), (.player1, .playChess)),
        ((.referee, .setClock), (.player2, .playChess)),
        ((.player1, .enterRoom), (.player2, .playChess)),
        ((.player2, .enterRoom), (.player1, .playChess))] where
  precedes s (h : (Script.once (fun _ => 0) Chessvous.routine).system.Reachable s) := by
    have hp₁ : Precedes s (.player1, .enterRoom) (.referee, .setClock) :=
      once_precedes (k := .player1Ready) rfl (by decide) (by decide) (by decide) h
    have hp₂ : Precedes s (.player2, .enterRoom) (.referee, .setClock) :=
      once_precedes (k := .player2Ready) rfl (by decide) (by decide) (by decide) h
    have hc₁ : Precedes s (.referee, .setClock) (.player1, .playChess) :=
      once_precedes (k := .clockReady) rfl (by decide) (by decide) (by decide) h
    have hc₂ : Precedes s (.referee, .setClock) (.player2, .playChess) :=
      once_precedes (k := .clockReady) rfl (by decide) (by decide) (by decide) h
    simp only [List.forall_mem_cons]
    exact ⟨hp₁, hp₂, hc₁, hc₂, hp₁.trans hc₂, hp₂.trans hc₁, List.forall_mem_nil _⟩
  finished := chessvous_completes.finished
  bounded := chessvous_completes.bounded

/-- The patterns enforce their orders, and no thread of them waits for ever. -/
theorem patterns_enforce_order :
    Enforces Signaling.main Signaling.routine [((.threadA, .a1), (.threadB, .b1))] ∧
    Enforces Signaling3.main Signaling3.routine
      [((.threadA, .a1), (.threadB, .b1)), ((.threadB, .b1), (.threadC, .c1)),
        ((.threadA, .a1), (.threadC, .c1))] ∧
    Enforces Rendezvous.main Rendezvous.routine
      [((.threadA, .a1), (.threadA, .a2)), ((.threadA, .a1), (.threadB, .b2)),
        ((.threadB, .b1), (.threadA, .a2)), ((.threadB, .b1), (.threadB, .b2))] ∧
    Enforces Chessvous.main Chessvous.routine
      [((.player1, .enterRoom), (.referee, .setClock)),
        ((.player2, .enterRoom), (.referee, .setClock)),
        ((.referee, .setClock), (.player1, .playChess)),
        ((.referee, .setClock), (.player2, .playChess)),
        ((.player1, .enterRoom), (.player2, .playChess)),
        ((.player2, .enterRoom), (.player1, .playChess))] :=
  ⟨signaling_enforces, signaling3_enforces, rendezvous_enforces, chessvous_enforces⟩

namespace Multiplex

inductive Semaphore where
  | canSkate
  deriving DecidableEq

instance : Fintype Semaphore where
  elems := {.canSkate}
  complete k := by cases k; decide

inductive Statement where
  | skate
  deriving DecidableEq

def skater : List (Line Semaphore Statement) :=
  [.wait .canSkate, .statement .skate, .signal .canSkate 1]

def main (skaterCount roomCapacity : ℕ) : Script (Fin skaterCount) Semaphore Statement :=
  Script.once (fun _ => roomCapacity) fun _ => skater

variable {skaterCount roomCapacity : ℕ} {s : State (Fin skaterCount) Semaphore Statement}

/-- The skaters in the region of bounded concurrency. -/
def skating (s : State (Fin skaterCount) Semaphore Statement) : Finset (Fin skaterCount) :=
  Finset.univ.filter fun i => s.position i = 1

theorem balanced : Balanced skater where
  ne_nil := List.cons_ne_nil _ _
  round k := by simp [skater, Line.waits, Line.signals]
  before k m hm := by
    simp only [skater, List.length_cons, List.length_nil] at hm
    interval_cases m
    all_goals simp [skater, Line.waits, Line.signals]

theorem card_skating_le (h : (main skaterCount roomCapacity).system.Reachable s) :
    (skating s).card ≤ roomCapacity := by
  apply card_le_permits (once_lends fun _ => balanced) h .canSkate
  intro i hi
  rw [once_held, (Finset.mem_filter.mp hi).2]
  exact Nat.one_pos

theorem completes (hcapacity : 0 < roomCapacity) :
    Completes (fun _ => roomCapacity) fun _ : Fin skaterCount => skater := by
  apply completes_of_hierarchy (fun _ => balanced) (fun _ _ _ => hcapacity) fun _ => 0
  intro i n k k' hheld hl
  obtain ⟨hn, -⟩ := List.getElem?_eq_some_iff.mp hl
  simp only [skater, List.length_cons, List.length_nil] at hn
  interval_cases n <;> simp [skater, heldAfter] at hheld hl

theorem exists_skating (k : ℕ) (hskater : k ≤ skaterCount) (hcapacity : k ≤ roomCapacity) :
    ∃ s, (main skaterCount roomCapacity).system.Reachable s ∧
      s.permits .canSkate = roomCapacity - k ∧
      ∀ i, s.position i = if i.val < k then 1 else 0 := by
  induction k with
  | zero => exact ⟨_, System.Reachable.start, rfl, fun i => rfl⟩
  | succ k ih =>
    obtain ⟨s, hs, hpermits, hposition⟩ := ih (by omega) (by omega)
    have hl : (main skaterCount roomCapacity).line ⟨k, hskater⟩ (s.position ⟨k, hskater⟩) =
        some (.wait .canSkate) := by
      rw [hposition, if_neg (lt_irrefl k)]
      rfl
    have hstep : (main skaterCount roomCapacity).system.step s ⟨k, hskater⟩ =
        some (s.wait ⟨k, hskater⟩ .canSkate) := by
      simp only [Script.system, hl]
      rw [if_neg (by omega)]
    refine ⟨_, hs.step hstep, ?_, fun i => ?_⟩
    · simp only [State.wait, Function.update_self]
      omega
    · simp only [State.wait, Function.update_apply, hposition, Fin.ext_iff]
      split_ifs <;> omega

theorem start_stuck : (main skaterCount 0).system.Stuck (main skaterCount 0).system.start := by
  intro i
  rfl

end Multiplex

/-- Never more skaters than the capacity skate at a time, as many as that can, and all skate in the
end unless the room has no capacity. -/
theorem multiplex_bounds (skaterCount roomCapacity : ℕ) :
    (∀ s, (Multiplex.main skaterCount roomCapacity).system.Reachable s →
      (Multiplex.skating s).card ≤ roomCapacity) ∧
    (∀ k ≤ min skaterCount roomCapacity, ∃ s,
      (Multiplex.main skaterCount roomCapacity).system.Reachable s ∧
        (Multiplex.skating s).card = k) ∧
    (Completes (fun _ => roomCapacity) (fun _ : Fin skaterCount => Multiplex.skater) ↔
      0 < roomCapacity ∨ skaterCount = 0) := by
  refine ⟨fun s => Multiplex.card_skating_le, fun k hk => ?_, fun hc => ?_, ?_⟩
  · have hskater : k ≤ skaterCount := hk.trans (min_le_left _ _)
    obtain ⟨s, hs, -, hposition⟩ :=
      Multiplex.exists_skating k hskater (hk.trans (min_le_right _ _))
    refine ⟨s, hs, ?_⟩
    have hskating : Multiplex.skating s =
        (Finset.univ.filter fun i : Fin skaterCount => i.val < k) := by
      apply Finset.filter_congr
      intro i _
      rw [hposition]
      split_ifs with h <;> simp [h]
    rw [hskating, Fin.card_filter_val_lt, min_eq_right hskater]
  · by_contra! hnone
    obtain ⟨hzero, hskater⟩ := hnone
    obtain rfl : roomCapacity = 0 := by omega
    have hend := hc.finished _ System.Reachable.start Multiplex.start_stuck
      ⟨0, Nat.pos_of_ne_zero hskater⟩
    cases hend
  · rintro (hcapacity | rfl)
    · exact Multiplex.completes hcapacity
    · exact ⟨fun _ _ _ i => i.elim0, fun _ _ => length_le_of_run⟩

end Concurrente.TaskcPatterns
