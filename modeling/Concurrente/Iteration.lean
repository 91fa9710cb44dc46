import Concurrente.Sweep
import Concurrente.Transition

/-!
# Programs that iterate a scheme

When two programs for the same scheme agree: either both iterate forever or both
finish, whatever the scheduler does, with the same number of states and the same
field.  The counter of a program has a fixed width.
-/

namespace Concurrente

universe u v

namespace System

variable {σ : Type u} {α : Type v} (M : System σ α)

/-- Every run is finite: some measure falls with every step. -/
def Terminates : Prop :=
  ∃ μ : σ → ℕ, ∀ s a t, M.Reachable s → M.step s a = some t → μ t < μ s

def Forever (left : σ → Prop) : Prop := ∀ s, M.Reachable s → ¬ M.Stuck s ∧ ¬ left s

/-- Every run is finite, and it ends only when the program has left with a result. -/
def Finishes (left result : σ → Prop) : Prop :=
  M.Terminates ∧ ∀ s, M.Reachable s → (M.Stuck s → left s) ∧ (left s → result s)

theorem Terminates.exists_stuck {M : System σ α} (h : M.Terminates) :
    ∃ t, M.Reachable t ∧ M.Stuck t := by
  obtain ⟨μ, hμ⟩ := h
  exact System.exists_stuck μ hμ Reachable.start

theorem terminates_of_rank {M : System σ α} {I : ℕ → σ → Prop} {n : ℕ} (h0 : I n M.start)
    (hs : ∀ n s a t, I n s → M.step s a = some t → ∃ m < n, I m t) : M.Terminates := by
  have hex : ∀ s, M.Reachable s → ∃ n, I n s := by
    intro s hr
    apply hr.invariant (I := fun s => ∃ n, I n s) ⟨n, h0⟩
    rintro s a t ⟨n, hn⟩ ha
    obtain ⟨m, -, hm⟩ := hs n s a t hn ha
    exact ⟨m, hm⟩
  refine ⟨fun s => sInf {n | I n s}, fun s a t hr ha => ?_⟩
  obtain ⟨m, hlt, hm⟩ := hs _ s a t (Nat.sInf_mem (hex s hr)) ha
  exact (Nat.sInf_le hm).trans_lt hlt

end System

/-- What a program leaves: the number of states and the field. -/
structure Outcome (ι α : Type*) where
  states : ℕ
  field : ι → α

def Outcome.Same {ι α : Type*} (dom : Set ι) (x y : Outcome ι α) : Prop :=
  x.states = y.states ∧ Set.EqOn x.field y.field dom

/-- A program together with its exits and what it leaves there. -/
structure Program (ι α : Type*) (σ : Type u) (β : Type v) extends System σ β where
  left : σ → Prop
  outcome : σ → Outcome ι α

namespace Program

variable {ι α : Type*} {σ σ' : Type u} {β β' : Type v}

/-- Every run ends with this outcome on the domain. -/
def FinishesWith (P : Program ι α σ β) (dom : Set ι) (x : Outcome ι α) : Prop :=
  P.Finishes P.left fun s => (P.outcome s).Same dom x

/-- Both iterate forever or both finish with the same outcome. -/
def Agree (P : Program ι α σ β) (Q : Program ι α σ' β') (dom : Set ι) : Prop :=
  P.Forever P.left ∧ Q.Forever Q.left ∨ ∃ x, P.FinishesWith dom x ∧ Q.FinishesWith dom x

/-- The program leaves with the first state that is close to its predecessor, and counts
the states modulo `width`. -/
structure Iterates (P : Program ι α σ β) (S : Scheme ι α) (T : ι → α) (width : ℕ) : Prop where
  stuck_left : ∀ s, P.Reachable s → P.Stuck s → P.left s
  outcome : ∀ s, P.Reachable s → P.left s → ∃ k, S.Equilibrium T k ∧
    (P.outcome s).Same S.dom ⟨k % width, S.state T k⟩
  terminates : ∀ k, S.Equilibrium T k → P.Terminates

variable {P : Program ι α σ β} {Q : Program ι α σ' β'} {S : Scheme ι α} {T : ι → α} {width : ℕ}

theorem Iterates.forever (h : P.Iterates S T width) (hn : ¬ ∃ k, S.Equilibrium T k) :
    P.Forever P.left := by
  intro s hs
  have hleft : ¬ P.left s := by
    intro hl
    obtain ⟨k, hk, -⟩ := h.outcome s hs hl
    exact hn ⟨k, hk⟩
  exact ⟨fun hst => hleft (h.stuck_left s hs hst), hleft⟩

theorem Iterates.finishesWith (h : P.Iterates S T width) {k : ℕ} (hk : S.Equilibrium T k) :
    P.FinishesWith S.dom ⟨k % width, S.state T k⟩ := by
  refine ⟨h.terminates k hk, fun s hs => ⟨h.stuck_left s hs, fun hl => ?_⟩⟩
  obtain ⟨k', hk', hsame⟩ := h.outcome s hs hl
  rwa [hk'.unique hk] at hsame

theorem Iterates.finishesWith_of_inner_empty (h : P.Iterates S T width) (hw : 1 < width)
    (hin : S.inner = ∅) : P.FinishesWith S.dom ⟨1, T⟩ := by
  have hfin := h.finishesWith (Scheme.equilibrium_of_inner_empty hin T)
  have hstate : S.state T 1 = T := by
    funext i
    rw [Scheme.state_succ, Scheme.state_zero]
    exact Scheme.next_of_notMem (by rw [hin]; exact Set.notMem_empty i)
  rwa [Nat.mod_eq_of_lt hw, hstate] at hfin

theorem Iterates.agree (hP : P.Iterates S T width) (hQ : Q.Iterates S T width) :
    P.Agree Q S.dom := by
  by_cases h : ∃ k, S.Equilibrium T k
  · obtain ⟨k, hk⟩ := h
    exact Or.inr ⟨_, hP.finishesWith hk, hQ.finishesWith hk⟩
  · exact Or.inl ⟨hP.forever h, hQ.forever h⟩

theorem Agree.same (h : P.Agree Q S.dom) {x y : Outcome ι α} (hP : P.FinishesWith S.dom x)
    (hQ : Q.FinishesWith S.dom y) : x.Same S.dom y := by
  obtain ⟨s, hs, hst⟩ := hP.1.exists_stuck
  obtain ⟨t, ht, htt⟩ := hQ.1.exists_stuck
  obtain ⟨hf, -⟩ | ⟨z, hPz, hQz⟩ := h
  · exact absurd hst (hf s hs).1
  · have h1 := (hP.2 s hs).2 ((hP.2 s hs).1 hst)
    have h2 := (hPz.2 s hs).2 ((hP.2 s hs).1 hst)
    have h3 := (hQ.2 t ht).2 ((hQ.2 t ht).1 htt)
    have h4 := (hQz.2 t ht).2 ((hQ.2 t ht).1 htt)
    refine ⟨?_, ?_⟩
    · rw [← h1.1, h2.1, ← h4.1, h3.1]
    · exact (h1.2.symm.trans h2.2).trans (h4.2.symm.trans h3.2)

theorem not_agree_of_stuck {dom : Set ι} (hs : P.Stuck P.start) (hl : ¬ P.left P.start) :
    ¬ P.Agree Q dom := by
  rintro (⟨hf, -⟩ | ⟨x, hx, -⟩)
  · exact (hf P.start System.Reachable.start).1 hs
  · exact hl ((hx.2 P.start System.Reachable.start).1 hs)

end Program

end Concurrente
