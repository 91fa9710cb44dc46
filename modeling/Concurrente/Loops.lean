import Mathlib.Tactic

/-!
# Loops

A loop runs its body while its condition holds.  The body may fault; a loop that has not
ended when the fuel is used up has no result either, so that a result says that the loop
ends without a fault.
-/

namespace Concurrente

universe u

section Loops

variable {σ τ : Type u} (cond : σ → Bool) (body : σ → Option σ)

def whileLoop : ℕ → σ → Option σ
  | 0, _ => none
  | fuel + 1, s => if cond s then (body s).bind (whileLoop fuel) else some s

variable {cond body} {s t r : σ} {fuel fuel' : ℕ}

theorem whileLoop_done (h : cond s = false) (fuel : ℕ) :
    whileLoop cond body (fuel + 1) s = some s := by
  rw [whileLoop, h]
  rfl

theorem whileLoop_step (h : cond s = true) (ht : body s = some t) (fuel : ℕ) :
    whileLoop cond body (fuel + 1) s = whileLoop cond body fuel t := by
  rw [whileLoop, if_pos h, ht, Option.bind_some]

theorem whileLoop_mono (h : whileLoop cond body fuel s = some t) (hle : fuel ≤ fuel') :
    whileLoop cond body fuel' s = some t := by
  induction fuel generalizing s fuel' with
  | zero => cases h
  | succ fuel ih =>
    obtain ⟨k, rfl⟩ : ∃ k, fuel' = k + 1 := ⟨fuel' - 1, by omega⟩
    rw [whileLoop] at h ⊢
    split_ifs at h ⊢
    · obtain ⟨r, hr, h⟩ := Option.bind_eq_some_iff.mp h
      rw [hr, Option.bind_some]
      exact ih h (by omega)
    · exact h

theorem whileLoop_unique (h : whileLoop cond body fuel s = some t)
    (h' : whileLoop cond body fuel' s = some r) : t = r := by
  have ht := whileLoop_mono h (le_max_left fuel fuel')
  rw [whileLoop_mono h' (le_max_right fuel fuel')] at ht
  exact (Option.some.inj ht).symm

/-- What the body keeps holds at the end of the loop. -/
theorem whileLoop_invariant {I : σ → Prop}
    (hbody : ∀ s t, I s → cond s = true → body s = some t → I t) (hs : I s)
    (h : whileLoop cond body fuel s = some t) : I t ∧ cond t = false := by
  induction fuel generalizing s with
  | zero => cases h
  | succ fuel ih =>
    rw [whileLoop] at h
    split_ifs at h with hc
    · obtain ⟨r, hr, h⟩ := Option.bind_eq_some_iff.mp h
      exact ih (hbody s r hs hc hr) h
    · obtain rfl := Option.some.inj h
      exact ⟨hs, Bool.not_eq_true _ ▸ hc⟩

/-- A loop ends when its body does not fault and lowers a measure. -/
theorem whileLoop_terminates {I : σ → Prop} (μ : σ → ℕ)
    (hbody : ∀ s, I s → cond s = true → ∃ t, body s = some t ∧ I t ∧ μ t < μ s) (hs : I s)
    (hfuel : μ s < fuel) : ∃ t, whileLoop cond body fuel s = some t := by
  induction fuel generalizing s with
  | zero => exact absurd hfuel (Nat.not_lt_zero _)
  | succ fuel ih =>
    cases hc : cond s with
    | false => exact ⟨s, whileLoop_done hc fuel⟩
    | true =>
      obtain ⟨t, ht, hI, hμ⟩ := hbody s hs hc
      rw [whileLoop_step hc ht]
      exact ih hI (by omega)

/-- Loops in step with each other have related results. -/
theorem whileLoop_map {cond' : τ → Bool} {body' : τ → Option τ} {f : σ → τ}
    (hcond : ∀ s, cond' (f s) = cond s)
    (hbody : ∀ s, cond s = true → body' (f s) = (body s).map f) (fuel : ℕ) (s : σ) :
    whileLoop cond' body' fuel (f s) = (whileLoop cond body fuel s).map f := by
  induction fuel generalizing s with
  | zero => rfl
  | succ fuel ih =>
    rw [whileLoop, whileLoop, hcond]
    split_ifs with hc
    · rw [hbody s hc]
      cases body s with
      | none => rfl
      | some t => exact ih t
    · rfl

end Loops

end Concurrente
