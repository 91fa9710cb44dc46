import Mathlib.Logic.Relation
import Mathlib.Order.WellFounded
import Mathlib.Tactic

/-!
# Transition systems

A concurrent program is a start state and a partial step: the action says who
moves and how the scheduler and the environment choose.  The step is undefined
when the chosen party is blocked.
-/

namespace Concurrente

universe u v

/-- A start state and the partial effect of every action. -/
structure System (σ : Type u) (α : Type v) where
  start : σ
  step : σ → α → Option σ

namespace System

variable {σ : Type u} {α : Type v} (M : System σ α)

/-- One step of some party. -/
def Next (s t : σ) : Prop := ∃ a, M.step s a = some t

/-- Any number of steps. -/
def Path : σ → σ → Prop := Relation.ReflTransGen M.Next

def Reachable (s : σ) : Prop := M.Path M.start s

/-- No party can move. -/
def Stuck (s : σ) : Prop := ∀ a, M.step s a = none

variable {M}

theorem Path.refl (s : σ) : M.Path s s := Relation.ReflTransGen.refl

theorem Path.trans {s t r : σ} (h : M.Path s t) (h' : M.Path t r) : M.Path s r :=
  Relation.ReflTransGen.trans h h'

theorem Path.step {s t : σ} {a : α} (h : M.step s a = some t) : M.Path s t :=
  Relation.ReflTransGen.single ⟨a, h⟩

theorem Path.head {s t r : σ} {a : α} (h : M.step s a = some t) (h' : M.Path t r) : M.Path s r :=
  Relation.ReflTransGen.head ⟨a, h⟩ h'

theorem Path.tail {s t r : σ} {a : α} (h : M.Path s t) (h' : M.step t a = some r) : M.Path s r :=
  Relation.ReflTransGen.tail h ⟨a, h'⟩

theorem Reachable.start : M.Reachable M.start := Path.refl _

theorem Reachable.step {s t : σ} {a : α} (h : M.Reachable s) (h' : M.step s a = some t) :
    M.Reachable t := Path.tail h h'

theorem Reachable.path {s t : σ} (h : M.Reachable s) (h' : M.Path s t) : M.Reachable t :=
  Path.trans h h'

/-- The run that takes these actions one after the other. -/
def run (M : System σ α) (l : List α) : Option σ := l.foldlM M.step M.start

theorem path_foldlM {l : List α} {s t : σ} (h : l.foldlM M.step s = some t) : M.Path s t := by
  induction l generalizing s with
  | nil =>
    rw [← Option.some.inj h]
    exact Path.refl s
  | cons a l ih =>
    rw [List.foldlM_cons] at h
    obtain ⟨r, hr, ht⟩ := Option.bind_eq_some_iff.mp h
    exact Path.head hr (ih ht)

theorem reachable_run {l : List α} {s : σ} (h : M.run l = some s) : M.Reachable s :=
  path_foldlM h

/-- What holds at the start and is kept by every step holds in every reachable state. -/
theorem Reachable.invariant {I : σ → Prop} (h0 : I M.start)
    (hs : ∀ s a t, I s → M.step s a = some t → I t) {s : σ} (h : M.Reachable s) : I s := by
  induction h with
  | refl => exact h0
  | tail _ hn ih =>
    obtain ⟨a, ha⟩ := hn
    exact hs _ a _ ih ha

/-- The same with the reachability of the state before the step at hand. -/
theorem Reachable.invariant' {I : σ → Prop} (h0 : I M.start)
    (hs : ∀ s a t, M.Reachable s → I s → M.step s a = some t → I t) {s : σ}
    (h : M.Reachable s) : I s := by
  have hi : M.Reachable s ∧ I s := by
    apply Reachable.invariant (I := fun s => M.Reachable s ∧ I s) ⟨Reachable.start, h0⟩ _ h
    intro s a t ⟨hr, hi⟩ ha
    exact ⟨hr.step ha, hs s a t hr hi ha⟩
  exact hi.2

/-- Reachable by steps that satisfy a condition on the state before and the action. -/
def ReachableBy (M : System σ α) (p : σ → α → Prop) : σ → Prop :=
  Relation.ReflTransGen (fun s t => ∃ a, p s a ∧ M.step s a = some t) M.start

theorem ReachableBy.reachable {p : σ → α → Prop} {s : σ} (h : M.ReachableBy p s) :
    M.Reachable s := by
  induction h with
  | refl => exact Reachable.start
  | tail _ hn ih =>
    obtain ⟨a, -, ha⟩ := hn
    exact ih.step ha

theorem ReachableBy.invariant {p : σ → α → Prop} {I : σ → Prop} (h0 : I M.start)
    (hs : ∀ s a t, M.Reachable s → I s → p s a → M.step s a = some t → I t) {s : σ}
    (h : M.ReachableBy p s) : I s := by
  induction h with
  | refl => exact h0
  | tail hr hn ih =>
    obtain ⟨a, hp, ha⟩ := hn
    exact hs _ a _ (ReachableBy.reachable hr) ih hp ha

theorem reachableBy_run {p : α → Prop} {l : List α} (hl : ∀ a ∈ l, p a) {s : σ}
    (h : M.run l = some s) : M.ReachableBy (fun _ a => p a) s := by
  have hpath : ∀ (l : List α) s t, (∀ a ∈ l, p a) → l.foldlM M.step s = some t →
      Relation.ReflTransGen (fun s t => ∃ a, p a ∧ M.step s a = some t) s t := by
    intro l
    induction l with
    | nil =>
      intro s t _ h
      rw [← Option.some.inj h]
    | cons a l ih =>
      intro s t hl h
      rw [List.foldlM_cons] at h
      obtain ⟨r, hr, ht⟩ := Option.bind_eq_some_iff.mp h
      exact .head ⟨a, hl a List.mem_cons_self, hr⟩
        (ih r t (fun b hb => hl b (List.mem_cons_of_mem a hb)) ht)
  exact hpath l M.start s hl h

/-- The system with a count of the steps that `tick`. -/
def count (M : System σ α) (tick : σ → α → Bool) : System (σ × ℕ) α where
  start := (M.start, 0)
  step x a := (M.step x.1 a).map fun t => (t, if tick x.1 a then x.2 + 1 else x.2)

theorem count_step {tick : σ → α → Bool} {x y : σ × ℕ} {a : α}
    (h : (M.count tick).step x a = some y) :
    M.step x.1 a = some y.1 ∧ y.2 = if tick x.1 a then x.2 + 1 else x.2 := by
  obtain ⟨t, ht, rfl⟩ := Option.map_eq_some_iff.mp h
  exact ⟨ht, rfl⟩

theorem not_stuck_iff {s : σ} : ¬ M.Stuck s ↔ ∃ a t, M.step s a = some t := by
  simp only [Stuck, not_forall, Option.ne_none_iff_exists']

/-- A measure that every step lowers leads from any reachable state to a stuck one. -/
theorem exists_stuck (μ : σ → ℕ)
    (hμ : ∀ s a t, M.Reachable s → M.step s a = some t → μ t < μ s) {s : σ}
    (h : M.Reachable s) : ∃ t, M.Path s t ∧ M.Stuck t := by
  induction hn : μ s using Nat.strong_induction_on generalizing s with
  | _ n ih =>
    by_cases hs : M.Stuck s
    · exact ⟨s, Path.refl s, hs⟩
    · obtain ⟨a, t, ha⟩ := not_stuck_iff.mp hs
      obtain ⟨r, hr, hr'⟩ := ih (μ t) (hn ▸ hμ s a t h ha) (h.step ha) rfl
      exact ⟨r, Path.head ha hr, hr'⟩

/-- Where some step keeps `I` until the goal is met, a measure that every step lowers leads
there. -/
theorem exists_path (μ : σ → ℕ) {I G : σ → Prop}
    (hμ : ∀ s a t, M.Reachable s → M.step s a = some t → μ t < μ s)
    (hI : ∀ s, M.Reachable s → I s → G s ∨ ∃ a t, M.step s a = some t ∧ I t) {s : σ}
    (h : M.Reachable s) (hs : I s) : ∃ t, M.Path s t ∧ I t ∧ G t := by
  induction hn : μ s using Nat.strong_induction_on generalizing s with
  | _ n ih =>
    obtain hgoal | ⟨a, t, ha, ht⟩ := hI s h hs
    · exact ⟨s, Path.refl s, hs, hgoal⟩
    · obtain ⟨r, hr, hr'⟩ := ih (μ t) (hn ▸ hμ s a t h ha) (h.step ha) ht rfl
      exact ⟨r, Path.head ha hr, hr'⟩

/-- A measure that every step lowers bounds the length of a run. -/
theorem length_add_le_of_run (μ : σ → ℕ)
    (hμ : ∀ s a t, M.Reachable s → M.step s a = some t → μ t < μ s) {l : List α} {s : σ}
    (h : M.run l = some s) : l.length + μ s ≤ μ M.start := by
  induction l using List.reverseRecOn generalizing s with
  | nil =>
    rw [← Option.some.inj h, List.length_nil, Nat.zero_add]
  | append_singleton l a ih =>
    rw [run, List.foldlM_append] at h
    obtain ⟨r, hr, hs⟩ := Option.bind_eq_some_iff.mp h
    have ha : M.step r a = some s := by simpa using hs
    have hlt := hμ r a s (reachable_run hr) ha
    have hle := ih hr
    rw [List.length_append, List.length_singleton]
    omega

end System

end Concurrente
