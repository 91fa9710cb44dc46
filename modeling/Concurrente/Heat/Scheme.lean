import Concurrente.Sweep
import Mathlib.Algebra.Order.Field.Rat
import Mathlib.Algebra.Order.Group.Abs

/-!
# The heat recurrence

The update of a plate as a scheme: a cell is a row and a column, and the border keeps its
temperature.  The documented update is over exact rationals.
-/

namespace Concurrente.Heat

abbrev Cell := ℕ × ℕ

/-- The next temperature of a cell from its own and those above, to the right, below and to the
left, and which changes are large. -/
structure Stencil (α : Type*) where
  update (temperature up right down left : α) : α
  large (new old : α) : Prop

/-- The inner cells of a plate follow the stencil. -/
def Stencil.scheme {α : Type*} (rows cols : ℕ) (A : Stencil α) : Scheme Cell α where
  dom := {i | i.1 < rows ∧ i.2 < cols}
  inner := {i | 1 ≤ i.1 ∧ i.1 + 1 < rows ∧ 1 ≤ i.2 ∧ i.2 + 1 < cols}
  rule T i := A.update (T i) (T (i.1 - 1, i.2)) (T (i.1, i.2 + 1)) (T (i.1 + 1, i.2))
    (T (i.1, i.2 - 1))
  close old new := ¬ A.large new old
  inner_subset := by
    rintro ⟨r, k⟩ ⟨h1, h2, h3, h4⟩
    exact ⟨by omega, by omega⟩
  rule_congr := by
    rintro T T' h ⟨r, k⟩ ⟨h1, h2, h3, h4⟩
    simp only at h1 h2 h3 h4
    have he : ∀ a b, a < rows → b < cols → T (a, b) = T' (a, b) := fun a b ha hb => h ⟨ha, hb⟩
    simp only
    rw [he r k (by omega) (by omega), he (r - 1) k (by omega) (by omega),
      he r (k + 1) (by omega) (by omega), he (r + 1) k (by omega) (by omega),
      he r (k - 1) (by omega) (by omega)]

/-- `T + c * (up + right + down + left - 4 * T)`, with threshold `epsilon`. -/
def exact (c epsilon : ℚ) : Stencil ℚ where
  update temperature up right down left :=
    temperature + c * (up + right + down + left - 4 * temperature)
  large new old := |new - old| > epsilon

instance (c epsilon : ℚ) : DecidableRel (exact c epsilon).large :=
  fun new old => inferInstanceAs (Decidable (epsilon < |new - old|))

abbrev heat (rows cols : ℕ) (c epsilon : ℚ) : Scheme Cell ℚ := (exact c epsilon).scheme rows cols

section Cells

variable {α : Type*} {A : Stencil α} {rows cols r k : ℕ} {T : Cell → α}

@[simp] theorem mem_dom : (r, k) ∈ (A.scheme rows cols).dom ↔ r < rows ∧ k < cols := Iff.rfl

@[simp] theorem mem_inner : (r, k) ∈ (A.scheme rows cols).inner ↔
    1 ≤ r ∧ r + 1 < rows ∧ 1 ≤ k ∧ k + 1 < cols := Iff.rfl

theorem inner_empty (h : rows ≤ 2 ∨ cols ≤ 2) : (A.scheme rows cols).inner = ∅ := by
  ext ⟨row, col⟩
  simp only [mem_inner, Set.mem_empty_iff_false, iff_false]
  omega

theorem scheme_rule : (A.scheme rows cols).rule T (r, k) =
    A.update (T (r, k)) (T (r - 1, k)) (T (r, k + 1)) (T (r + 1, k)) (T (r, k - 1)) := rfl

end Cells

section Exact

variable {rows cols r k : ℕ} {c epsilon : ℚ} {T : Cell → ℚ}

theorem heat_rule : (heat rows cols c epsilon).rule T (r, k) =
    T (r, k) + c * (T (r - 1, k) + T (r, k + 1) + T (r + 1, k) + T (r, k - 1) - 4 * T (r, k)) :=
  rfl

theorem heat_close {old new : ℚ} : (heat rows cols c epsilon).close old new ↔
    |new - old| ≤ epsilon := not_lt

end Exact

variable {α : Type*} {A : Stencil α} {rows cols r : ℕ} {T : Cell → α}

/-- Row `r` does not change noticeably from state `j` to state `j + 1`. -/
def RowSettled (S : Scheme Cell α) (T : Cell → α) (j r : ℕ) : Prop :=
  ∀ k, (r, k) ∈ S.inner → S.close (S.state T j (r, k)) (S.state T (j + 1) (r, k))

theorem settled_iff_rows {S : Scheme Cell α} {j : ℕ} :
    S.Settled T j ↔ ∀ r, RowSettled S T j r :=
  ⟨fun h r k hk => h (r, k) hk, fun h i hi => h i.1 i.2 hi⟩

theorem rowSettled_outside {j : ℕ} (h : ¬ (1 ≤ r ∧ r + 1 < rows)) :
    RowSettled (A.scheme rows cols) T j r := by
  intro k hk
  obtain ⟨h1, h2, -, -⟩ := mem_inner.mp hk
  exact absurd ⟨h1, h2⟩ h

/-- The rows from `lo` to before `hi` do not change noticeably. -/
def RowsSettled (S : Scheme Cell α) (T : Cell → α) (j lo hi : ℕ) : Prop :=
  ∀ r, lo ≤ r → r < hi → RowSettled S T j r

theorem rowsSettled_self {S : Scheme Cell α} {j lo : ℕ} : RowsSettled S T j lo lo := by
  intro r h1 h2
  omega

theorem rowsSettled_succ {S : Scheme Cell α} {j lo row : ℕ} (h : lo ≤ row) :
    RowsSettled S T j lo (row + 1) ↔ RowsSettled S T j lo row ∧ RowSettled S T j row := by
  constructor
  · exact fun hs => ⟨fun r h1 h2 => hs r h1 (by omega), hs row h (by omega)⟩
  · rintro ⟨hs, hr⟩ r h1 h2
    obtain hlt | rfl := Nat.lt_succ_iff_lt_or_eq.mp h2
    · exact hs r h1 hlt
    · exact hr

/-- The blocks of rows of a team: block `i` goes from `first i` to before `last i`. -/
structure Cover (count : ℕ) (first last : ℕ → ℕ) (rows : ℕ) : Prop where
  pos : 0 < count
  le : ∀ i < count, first i ≤ last i
  interior : ∀ i < count, ∀ row, first i ≤ row → row < last i → 1 ≤ row ∧ row + 1 < rows
  exists_block : ∀ row, 1 ≤ row → row + 1 < rows → ∃ i < count, first i ≤ row ∧ row < last i

/-- The cells of the rows that the members of a team have done. -/
def rowsDone (count : ℕ) (first next : ℕ → ℕ) : Set Cell :=
  {i | ∃ t < count, first t ≤ i.1 ∧ i.1 < next t}

theorem Cover.settled_iff {count : ℕ} {first last : ℕ → ℕ} (h : Cover count first last rows)
    {j : ℕ} : (A.scheme rows cols).Settled T j ↔
      ∀ t < count, RowsSettled (A.scheme rows cols) T j (first t) (last t) := by
  rw [settled_iff_rows]
  constructor
  · exact fun h t _ r _ _ => h r
  · intro hb r
    by_cases hr : 1 ≤ r ∧ r + 1 < rows
    · obtain ⟨t, ht, h1, h2⟩ := h.exists_block r hr.1 hr.2
      exact hb t ht r h1 h2
    · exact rowSettled_outside hr

theorem Cover.inner_done {count : ℕ} {first last : ℕ → ℕ} (h : Cover count first last rows)
    {i : Cell} (hi : i ∈ (A.scheme rows cols).inner) : i ∈ rowsDone count first last := by
  obtain ⟨h1, h2, -, -⟩ := mem_inner.mp hi
  exact h.exists_block i.1 h1 h2

theorem exists_between (f : ℕ → ℕ) {n r : ℕ} (h0 : f 0 ≤ r) (hn : r < f n) :
    ∃ i < n, f i ≤ r ∧ r < f (i + 1) := by
  induction n with
  | zero => omega
  | succ n ih =>
    by_cases h : r < f n
    · obtain ⟨i, hi, hf⟩ := ih h
      exact ⟨i, by omega, hf⟩
    · exact ⟨n, by omega, by omega, hn⟩

end Concurrente.Heat
