import Mathlib.Tactic

/-!
# Messages of the simulated networks

The default message is the stop condition of every thread that consumes.
-/

namespace Concurrente.Prodcons

structure NetworkMessage where
  target : ℕ
  source : ℕ
  messageNumber : ℕ
  deriving DecidableEq

/-- `NetworkMessage()`. -/
def stopCondition : NetworkMessage := ⟨0, 0, 0⟩

def StopLast (l : List NetworkMessage) : Prop :=
  stopCondition ∈ l → ∃ l', l = l' ++ [stopCondition] ∧ stopCondition ∉ l'

theorem StopLast.append {l : List NetworkMessage} (h : stopCondition ∉ l) (d : NetworkMessage) :
    StopLast (l ++ [d]) := by
  intro hd
  rcases List.mem_append.mp hd with hd | hd
  · exact absurd hd h
  · rw [List.mem_singleton] at hd
    exact ⟨l, by rw [← hd], h⟩

theorem StopLast.rest {l l' : List NetworkMessage} (h : StopLast (l ++ l'))
    (hl : stopCondition ∈ l) : l' = [] := by
  obtain ⟨r, hr, hn⟩ := h (List.mem_append_left _ hl)
  by_contra hne
  obtain ⟨b, a, rfl⟩ := List.eq_nil_or_concat l' |>.resolve_left hne
  rw [List.concat_eq_append, ← List.append_assoc] at hr
  have := List.append_inj_left' hr rfl
  exact hn (this ▸ List.mem_append_left _ hl)

theorem forall_append {P : NetworkMessage → Prop} {l : List NetworkMessage} {d : NetworkMessage}
    (h : ∀ a ∈ l, P a) (hd : P d) : ∀ a ∈ l ++ [d], P a := by
  intro a ha
  rcases List.mem_append.mp ha with ha | ha
  · exact h a ha
  · rw [List.mem_singleton.mp ha]
    exact hd

end Concurrente.Prodcons
