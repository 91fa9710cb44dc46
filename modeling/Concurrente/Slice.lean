import Concurrente.Checked
import Mathlib.Data.List.Basic

/-!
# Slices of a block

The cells of a block from one index up to another, and the block with other cells from
an index on.
-/

namespace Concurrente.Block

variable {α : Type*} {b b' : Block α} {lo mid hi i : ℕ} {l : List α}

/-- The cells `lo`, …, `hi - 1`. -/
def slice (b : Block α) (lo hi : ℕ) : List α := (List.range' lo (hi - lo)).map b.cells

/-- Replaces cells from `lo` on, as many as there are in the list. -/
def splice (b : Block α) (lo : ℕ) (l : List α) : Block α :=
  { b with cells := fun i => if lo ≤ i then (l[i - lo]?).getD (b.cells i) else b.cells i }

@[simp] theorem splice_size (b : Block α) (lo : ℕ) (l : List α) : (b.splice lo l).size = b.size :=
  rfl

theorem length_slice (b : Block α) (lo hi : ℕ) : (b.slice lo hi).length = hi - lo := by
  rw [slice, List.length_map, List.length_range']

theorem slice_append (h : lo ≤ mid) (h' : mid ≤ hi) :
    b.slice lo mid ++ b.slice mid hi = b.slice lo hi := by
  have hlen : hi - lo = (mid - lo) + (hi - mid) := by omega
  have hmid : mid = lo + 1 * (mid - lo) := by omega
  rw [slice, slice, slice, ← List.map_append, hlen, ← List.range'_append, ← hmid]

theorem slice_congr (h : ∀ i, lo ≤ i → i < hi → b'.cells i = b.cells i) :
    b'.slice lo hi = b.slice lo hi := by
  refine List.map_congr_left fun i hi => ?_
  rw [List.mem_range'_1] at hi
  exact h i hi.1 (by omega)

theorem splice_outside (h : i < lo ∨ lo + l.length ≤ i) :
    (b.splice lo l).cells i = b.cells i := by
  simp only [splice]
  by_cases hlo : lo ≤ i
  · rw [if_pos hlo, List.getElem?_eq_none (by omega)]
    rfl
  · rw [if_neg hlo]

theorem slice_splice (b : Block α) (lo : ℕ) (l : List α) :
    (b.splice lo l).slice lo (lo + l.length) = l := by
  apply List.ext_getElem
  · rw [length_slice, Nat.add_sub_cancel_left]
  · intro i h1 h2
    simp only [slice, splice, List.getElem_map, List.getElem_range', Nat.one_mul,
      Nat.le_add_right, if_true, Nat.add_sub_cancel_left]
    rw [List.getElem?_eq_getElem h2]
    rfl

end Concurrente.Block
