import Mathlib.Logic.Function.Basic
import Mathlib.Tactic

/-!
# Checked memory

A block of memory knows its number of cells, and an access outside of it is a fault.
`Checks` says exactly when a computation runs without a fault, and what holds of its
result; it composes over sequences and loops, so the condition of a program is the
conjunction of the conditions of its accesses.
-/

namespace Concurrente

universe u

/-- Why a program is undefined. -/
inductive Fault
  | nullPointer
  | outside (index size : ℕ)
  deriving DecidableEq, Repr

/-- What a sequence of computations returns, its second part does. -/
theorem ok_of_bind {ε α β : Type u} {x : Except ε α} {f : α → Except ε β} {b : β}
    (h : x >>= f = .ok b) : ∃ a, x = .ok a ∧ f a = .ok b := by
  cases x with
  | error e => cases h
  | ok a => exact ⟨a, rfl, h⟩

structure Block (α : Type*) where
  size : ℕ
  cells : ℕ → α

namespace Block

variable {α : Type*}

def read (b : Block α) (i : ℕ) : Except Fault α :=
  if i < b.size then .ok (b.cells i) else .error (.outside i b.size)

def write (b : Block α) (i : ℕ) (x : α) : Except Fault (Block α) :=
  if i < b.size then .ok { b with cells := Function.update b.cells i x }
  else .error (.outside i b.size)

end Block

/-- The computation runs without a fault exactly when `safe`, and then `P` holds of its
result. -/
structure Checks {α : Type*} (x : Except Fault α) (safe : Prop) (P : α → Prop) : Prop where
  ok_iff : (∃ a, x = .ok a) ↔ safe
  post : ∀ a, x = .ok a → P a

namespace Checks

variable {α β : Type u} {x : Except Fault α} {safe safe' : Prop} {P Q : α → Prop}

theorem pure {a : α} (h : P a) : Checks (.ok a) True P where
  ok_iff := iff_of_true ⟨a, rfl⟩ trivial
  post := by
    rintro b ⟨⟩
    exact h

theorem error (e : Fault) : Checks (.error e) False P where
  ok_iff := by simp
  post := by simp

theorem imp (h : Checks x safe P) (hs : safe ↔ safe') (hP : ∀ a, P a → Q a) :
    Checks x safe' Q :=
  ⟨h.ok_iff.trans hs, fun a ha => hP a (h.post a ha)⟩

theorem bind {f : α → Except Fault β} {S : β → Prop} (hx : Checks x safe P)
    (hf : ∀ a, P a → Checks (f a) safe' S) : Checks (x >>= f) (safe ∧ safe') S := by
  cases hx' : x with
  | error e =>
    have hns : ¬ safe := by
      rw [← hx.ok_iff, hx']
      simp
    exact ⟨iff_of_false (by simp [Bind.bind, Except.bind]) fun h => hns h.1,
      by simp [Bind.bind, Except.bind]⟩
  | ok a =>
    have hs : safe := hx.ok_iff.mp ⟨a, hx'⟩
    have h := hf a (hx.post a hx')
    exact ⟨h.ok_iff.trans (and_iff_right hs).symm, h.post⟩

/-- A loop over consecutive numbers is safe when each of its rounds is; the invariant may
depend on the number of the round. -/
theorem range' {f : β → ℕ → Except Fault β} {I : ℕ → β → Prop} {safe : ℕ → Prop} {lo n : ℕ}
    (hf : ∀ b i, lo ≤ i → i < lo + n → I i b → Checks (f b i) (safe i) (I (i + 1))) {b : β}
    (hb : I lo b) : Checks ((List.range' lo n).foldlM f b)
      (∀ i, lo ≤ i → i < lo + n → safe i) (I (lo + n)) := by
  induction n generalizing lo b with
  | zero =>
    refine (pure hb).imp (iff_of_true trivial fun i h1 h2 => ?_) fun _ h => h
    omega
  | succ n ih =>
    have hfirst := hf b lo le_rfl (by omega) hb
    have hrest : ∀ b, I (lo + 1) b → Checks ((List.range' (lo + 1) n).foldlM f b)
        (∀ i, lo + 1 ≤ i → i < lo + 1 + n → safe i) (I (lo + 1 + n)) :=
      fun b hb => ih (fun b i h1 h2 hi => hf b i (by omega) (by omega) hi) hb
    rw [List.range'_succ, List.foldlM_cons]
    refine (hfirst.bind hrest).imp ?_ fun b hb => by rwa [Nat.add_right_comm] at hb
    constructor
    · rintro ⟨h0, hs⟩ i h1 h2
      obtain rfl | hlt := h1.eq_or_lt
      · exact h0
      · exact hs i hlt (by omega)
    · exact fun h => ⟨h lo le_rfl (by omega), fun i h1 h2 => h i (by omega) (by omega)⟩

theorem exists_ok (h : Checks x safe P) (hs : safe) : ∃ a, x = .ok a ∧ P a := by
  obtain ⟨a, ha⟩ := h.ok_iff.mpr hs
  exact ⟨a, ha, h.post a ha⟩

theorem read (b : Block α) (i : ℕ) : Checks (b.read i) (i < b.size) fun x => x = b.cells i := by
  unfold Block.read
  split
  next h => exact (pure rfl).imp (by simp [h]) fun _ h => h.symm
  next h => exact (error _).imp (by simp [h]) fun _ h => h

theorem write (b : Block α) (i : ℕ) (x : α) : Checks (b.write i x) (i < b.size)
    fun b' => b' = { b with cells := Function.update b.cells i x } := by
  unfold Block.write
  split
  next h => exact (pure rfl).imp (by simp [h]) fun _ h => h.symm
  next h => exact (error _).imp (by simp [h]) fun _ h => h

end Checks

end Concurrente
