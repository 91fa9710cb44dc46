import Concurrente.Team

/-!
# Lockstep by two barriers

A team that waits at two barriers in turn.  A phase of a thread is the number of
waits it has left.  Even phases end at the first barrier and odd phases at the
second; a barrier opens when the last thread of the team arrives, and the
threads that wait at it leave one by one, whatever the others do meanwhile.
-/

namespace Concurrente

/-- A barrier: who has arrived since it opened last, how often it has opened, and the
thread for which the last opening was special. -/
structure Barrier where
  arrived : ℕ
  generation : ℕ
  serial : ℕ
  deriving DecidableEq, Repr

namespace Barrier

def init : Barrier := ⟨0, 0, 0⟩

/-- One more of `count` threads arrives; the last one opens the barrier, and then `serial`
is the special thread. -/
def arrive (b : Barrier) (count serial : ℕ) : Barrier :=
  if b.arrived + 1 = count then ⟨0, b.generation + 1, serial⟩
  else { b with arrived := b.arrived + 1 }

end Barrier

/-- The phase of a thread, and the generation that it waits to end, if it waits. -/
structure Place where
  phase : ℕ
  ticket : Option ℕ

/-- How often a barrier opened before phase `E`: the first barrier ends the even phases. -/
def openings (second : Bool) (E : ℕ) : ℕ := if second then E / 2 else (E + 1) / 2

/-- The team is in phase `E`, apart from threads that have not left their last wait. -/
structure Lockstep (count : ℕ) (place : ℕ → Place) (barrier : Bool → Barrier) (E : ℕ) :
    Prop where
  near : ∀ i < count, (place i).phase = E ∨ (place i).phase + 1 = E ∧ (place i).ticket ≠ none
  ticket : ∀ i < count, ∀ g, (place i).ticket = some g → g = (place i).phase / 2
  generation : ∀ b, (barrier b).generation = openings b E
  arrived : (barrier (E.bodd)).arrived =
    ∑ i ∈ Finset.range count, if (place i).phase = E ∧ (place i).ticket ≠ none then 1 else 0
  idle : (barrier (!E.bodd)).arrived = 0
  arrived_lt : (barrier (E.bodd)).arrived < count

namespace Lockstep

variable {count E i : ℕ} {place place' : ℕ → Place} {barrier : Bool → Barrier}

theorem openings_bodd (E : ℕ) : openings E.bodd E = E / 2 := by
  have := Nat.bodd_add_div2 E
  rw [Nat.div2_val] at this
  cases h : E.bodd <;> simp [openings, h] at this ⊢
  omega

theorem openings_succ (E : ℕ) : openings E.bodd (E + 1) = openings E.bodd E + 1 := by
  have := Nat.bodd_add_div2 E
  rw [Nat.div2_val] at this
  cases h : E.bodd <;> simp [openings, h] at this ⊢ <;> omega

theorem openings_succ_of_ne {b : Bool} (hb : b ≠ E.bodd) : openings b (E + 1) = openings b E := by
  have := Nat.bodd_add_div2 E
  rw [Nat.div2_val] at this
  cases b <;> cases h : E.bodd <;> simp [openings, h] at this hb ⊢ <;> omega

theorem start (hc : 0 < count) :
    Lockstep count (fun _ => ⟨0, none⟩) (fun _ => Barrier.init) 0 where
  near _ _ := Or.inl rfl
  ticket _ _ _ h := by cases h
  generation b := by cases b <;> rfl
  arrived := by simp [Barrier.init]
  idle := rfl
  arrived_lt := hc

theorem congr (h : Lockstep count place barrier E) (hp : ∀ i < count, place' i = place i) :
    Lockstep count place' barrier E where
  near i hi := by rw [hp i hi]; exact h.near i hi
  ticket i hi := by rw [hp i hi]; exact h.ticket i hi
  generation := h.generation
  arrived := by
    rw [h.arrived]
    refine Finset.sum_congr rfl fun i hi => ?_
    rw [hp i (Finset.mem_range.mp hi)]
  idle := h.idle
  arrived_lt := h.arrived_lt

/-- A thread that does not wait is in the phase of the team. -/
theorem phase_eq (h : Lockstep count place barrier E) (hi : i < count)
    (ht : (place i).ticket = none) : (place i).phase = E :=
  (h.near i hi).resolve_right fun hn => hn.2 ht

theorem phase_le (h : Lockstep count place barrier E) (hi : i < count) :
    (place i).phase ≤ E ∧ E ≤ (place i).phase + 1 := by
  obtain h | h := h.near i hi <;> omega

/-- A thread is released only from the phase before that of the team. -/
theorem phase_of_release (h : Lockstep count place barrier E) (hi : i < count) {g : ℕ}
    (ht : (place i).ticket = some g)
    (hg : (barrier (place i).phase.bodd).generation ≠ g) : (place i).phase + 1 = E := by
  obtain he | ⟨he, -⟩ := h.near i hi
  · rw [h.generation, h.ticket i hi g ht, he, openings_bodd] at hg
    exact absurd rfl hg
  · exact he

theorem release (h : Lockstep count place barrier E) (hi : i < count)
    (he : (place i).phase + 1 = E) :
    Lockstep count (Function.update place i ⟨E, none⟩) barrier E where
  near j hj := by
    by_cases hji : j = i
    · subst hji
      simp
    · rw [Function.update_of_ne hji]
      exact h.near j hj
  ticket j hj g hg := by
    by_cases hji : j = i
    · subst hji
      simp at hg
    · rw [Function.update_of_ne hji] at hg ⊢
      exact h.ticket j hj g hg
  generation := h.generation
  arrived := by
    rw [h.arrived]
    refine Finset.sum_congr rfl fun j _ => ?_
    by_cases hji : j = i
    · subst hji
      rw [if_neg (by omega), if_neg (by simp)]
    · rw [Function.update_of_ne hji]
  idle := h.idle
  arrived_lt := h.arrived_lt

theorem arrived_succ (h : Lockstep count place barrier E) (hi : i < count)
    (ht : (place i).ticket = none) (g : ℕ) :
    (∑ j ∈ Finset.range count,
      if (Function.update place i ⟨E, some g⟩ j).phase = E ∧
        (Function.update place i ⟨E, some g⟩ j).ticket ≠ none then 1 else 0) =
      (barrier E.bodd).arrived + 1 := by
  have hsum := sum_update (Finset.mem_range.mpr hi) place
    (fun _ p => if p.phase = E ∧ p.ticket ≠ none then 1 else 0) ⟨E, some g⟩
  simp only [ht, ne_eq, not_true_eq_false, and_false, if_false, reduceCtorEq, not_false_eq_true,
    and_self, if_true, add_zero] at hsum
  rw [h.arrived]
  exact hsum

theorem arrive (h : Lockstep count place barrier E) (hi : i < count)
    (ht : (place i).ticket = none) (hl : (barrier E.bodd).arrived + 1 ≠ count) (serial : ℕ) :
    Lockstep count (Function.update place i ⟨E, some (barrier E.bodd).generation⟩)
      (Function.update barrier E.bodd ((barrier E.bodd).arrive count serial)) E where
  near j hj := by
    by_cases hji : j = i
    · subst hji
      simp
    · rw [Function.update_of_ne hji]
      exact h.near j hj
  ticket j hj g hg := by
    by_cases hji : j = i
    · subst hji
      rw [Function.update_self] at hg ⊢
      rw [← Option.some.inj hg, h.generation, openings_bodd]
    · rw [Function.update_of_ne hji] at hg ⊢
      exact h.ticket j hj g hg
  generation b := by
    by_cases hb : b = E.bodd
    · subst hb
      rw [Function.update_self, Barrier.arrive, if_neg hl]
      exact h.generation _
    · rw [Function.update_of_ne hb]
      exact h.generation b
  arrived := by
    rw [h.arrived_succ hi ht, Function.update_self, Barrier.arrive, if_neg hl]
  idle := by
    rw [Function.update_of_ne (by cases E.bodd <;> simp)]
    exact h.idle
  arrived_lt := by
    have := h.arrived_lt
    rw [Function.update_self, Barrier.arrive, if_neg hl]
    simp only
    omega

/-- When the last thread arrives, all threads wait in this phase. -/
theorem all_wait (h : Lockstep count place barrier E) (hi : i < count)
    (ht : (place i).ticket = none) (hl : (barrier E.bodd).arrived + 1 = count) :
    ∀ j < count, j ≠ i → (place j).phase = E ∧ (place j).ticket ≠ none := by
  intro j hj hji
  have hsum := h.arrived_succ hi ht (barrier E.bodd).generation
  rw [hl] at hsum
  by_contra hn
  have hlt : (∑ k ∈ Finset.range count,
      if (Function.update place i ⟨E, some (barrier E.bodd).generation⟩ k).phase = E ∧
        (Function.update place i ⟨E, some (barrier E.bodd).generation⟩ k).ticket ≠ none
      then 1 else 0) < ∑ k ∈ Finset.range count, 1 := by
    refine Finset.sum_lt_sum (fun k _ => by split_ifs <;> omega) ⟨j, Finset.mem_range.mpr hj, ?_⟩
    rw [Function.update_of_ne hji, if_neg hn]
    exact Nat.one_pos
  simp only [Finset.sum_const, Finset.card_range, smul_eq_mul, mul_one] at hlt
  omega

/-- The last thread arrives: the team enters the next phase, though no thread has left. -/
theorem arrive_last (h : Lockstep count place barrier E) (hi : i < count)
    (ht : (place i).ticket = none) (hl : (barrier E.bodd).arrived + 1 = count) (serial : ℕ) :
    Lockstep count (Function.update place i ⟨E, some (barrier E.bodd).generation⟩)
      (Function.update barrier E.bodd ((barrier E.bodd).arrive count serial)) (E + 1) where
  near j hj := by
    by_cases hji : j = i
    · subst hji
      simp
    · rw [Function.update_of_ne hji]
      obtain ⟨he, hw⟩ := h.all_wait hi ht hl j hj hji
      exact Or.inr ⟨by omega, hw⟩
  ticket j hj g hg := by
    by_cases hji : j = i
    · subst hji
      rw [Function.update_self] at hg ⊢
      rw [← Option.some.inj hg, h.generation, openings_bodd]
    · rw [Function.update_of_ne hji] at hg ⊢
      exact h.ticket j hj g hg
  generation b := by
    by_cases hb : b = E.bodd
    · subst hb
      rw [Function.update_self, Barrier.arrive, if_pos hl, openings_succ, ← h.generation]
    · rw [Function.update_of_ne hb, openings_succ_of_ne hb]
      exact h.generation b
  arrived := by
    rw [Nat.bodd_succ, Function.update_of_ne (by cases E.bodd <;> simp), h.idle]
    refine (Finset.sum_eq_zero fun j hj => if_neg ?_).symm
    rintro ⟨he, -⟩
    by_cases hji : j = i
    · subst hji
      rw [Function.update_self] at he
      simp only at he
      omega
    · rw [Function.update_of_ne hji] at he
      have := (h.all_wait hi ht hl j (Finset.mem_range.mp hj) hji).1
      omega
  idle := by
    rw [Nat.bodd_succ, Bool.not_not, Function.update_self, Barrier.arrive, if_pos hl]
  arrived_lt := by
    rw [Nat.bodd_succ, Function.update_of_ne (by cases E.bodd <;> simp), h.idle]
    omega

end Lockstep

end Concurrente
