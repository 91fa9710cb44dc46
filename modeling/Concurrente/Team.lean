import Mathlib.Algebra.BigOperators.Group.Finset.Basic
import Mathlib.Algebra.Order.BigOperators.Group.Finset
import Mathlib.Tactic

/-!
# Teams of threads

The local states of a team form a function from thread to local state, and a
step of one thread replaces one value.  Counting invariants are sums over the
team, and a step changes such a sum by the weights of the two values.
-/

namespace Concurrente

section Sums

variable {ι β : Type*} {s : Finset ι} {i : ι}

theorem weight_le_sum (hi : i ∈ s) (w : ι → ℕ) : w i ≤ ∑ j ∈ s, w j :=
  Finset.single_le_sum (fun _ _ => Nat.zero_le _) hi

theorem exists_of_sum_pos {w : ι → ℕ} (h : 0 < ∑ j ∈ s, w j) : ∃ j ∈ s, 0 < w j := by
  by_contra! hn
  have hz : ∑ j ∈ s, w j = 0 := Finset.sum_eq_zero (fun j hj => by have := hn j hj; omega)
  omega

variable [DecidableEq ι]

theorem eq_of_sum_le_one {j : ι} (w : ι → ℕ) (h : ∑ k ∈ s, w k ≤ 1) (hi : i ∈ s) (hj : j ∈ s)
    (hwi : w i ≠ 0) (hwj : w j ≠ 0) : i = j := by
  by_contra hij
  have hpair : ∑ k ∈ {i, j}, w k ≤ ∑ k ∈ s, w k :=
    Finset.sum_le_sum_of_subset (Finset.insert_subset hi (Finset.singleton_subset_iff.mpr hj))
  rw [Finset.sum_pair hij] at hpair
  omega

theorem sum_update_ne (hi : i ∉ s) (f : ι → β) (w : ι → β → ℕ) (b : β) :
    ∑ j ∈ s, w j (Function.update f i b j) = ∑ j ∈ s, w j (f j) := by
  apply Finset.sum_congr rfl
  intro j hj
  have hji : j ≠ i := ne_of_mem_of_not_mem hj hi
  rw [Function.update_of_ne hji]

theorem sum_update (hi : i ∈ s) (f : ι → β) (w : ι → β → ℕ) (b : β) :
    ∑ j ∈ s, w j (Function.update f i b j) + w i (f i) = ∑ j ∈ s, w j (f j) + w i b := by
  rw [← Finset.add_sum_erase s (fun j => w j (Function.update f i b j)) hi,
    ← Finset.add_sum_erase s (fun j => w j (f j)) hi,
    sum_update_ne (Finset.notMem_erase i s), Function.update_self]
  omega

end Sums

section Weights

variable {ι β : Type*} [Fintype ι] [DecidableEq ι] {f : ι → β} {i : ι} {w : β → ℕ} {b : β}

theorem sum_move (f : ι → β) (i : ι) (w : β → ℕ) (b : β) :
    ∑ j, w (Function.update f i b j) + w (f i) = ∑ j, w (f j) + w b :=
  sum_update (Finset.mem_univ i) f (fun _ => w) b

theorem sum_same (h : w b = w (f i)) : ∑ j, w (Function.update f i b j) = ∑ j, w (f j) := by
  have := sum_move f i w b
  omega

theorem sum_enter (h : w (f i) = 0) (hb : w b = 1) :
    ∑ j, w (Function.update f i b j) = ∑ j, w (f j) + 1 := by
  have := sum_move f i w b
  omega

theorem sum_leave (h : w (f i) = 1) (hb : w b = 0) :
    ∑ j, w (Function.update f i b j) + 1 = ∑ j, w (f j) := by
  have := sum_move f i w b
  omega

end Weights

section Update

variable {ι β γ : Type*} [DecidableEq ι] {i : ι} {f : ι → β} {b : β}

theorem forall_update (P : ι → β → Prop) {p : ι → Prop} (h : ∀ j, p j → P j (f j))
    (hb : P i b) (j : ι) (hj : p j) : P j (Function.update f i b j) := by
  by_cases hji : j = i
  · subst hji
    rwa [Function.update_self]
  · rw [Function.update_of_ne hji]
    exact h j hj

theorem all_update {P : β → Prop} (h : ∀ j, P (f j)) (hb : P b) (j : ι) :
    P (Function.update f i b j) :=
  forall_update (fun _ => P) (fun j (_ : True) => h j) hb j trivial

theorem forall_update_of_ne {P : β → Prop} {p : ι → Prop} (h : ∀ j, p j → P (f j)) (hi : ¬ p i)
    (j : ι) (hj : p j) : P (Function.update f i b j) := by
  have hji : j ≠ i := by
    rintro rfl
    exact hi hj
  rw [Function.update_of_ne hji]
  exact h j hj

theorem forall_update_mono {κ : Type*} {g : κ → ι} {P Q : β → Prop} (h : ∀ k, P (f (g k)))
    (hmono : ∀ c, P c → Q c) (hb : P (f i) → Q b) (k : κ) : Q (Function.update f i b (g k)) := by
  by_cases hk : g k = i
  · rw [hk, Function.update_self]
    exact hb (hk ▸ h k)
  · rw [Function.update_of_ne hk]
    exact hmono _ (h k)

theorem observe_update (g : ι → β → γ) (h : g i b = g i (f i)) (j : ι) :
    g j (Function.update f i b j) = g j (f j) := by
  by_cases hji : j = i
  · subst hji
    rwa [Function.update_self]
  · rw [Function.update_of_ne hji]

end Update

end Concurrente
