import Concurrente.OmpStats.Stats

/-!
# Minimum and maximum

Both folds start from a limit of the element type.  The largest value of a type is above all
others, but the minimum that `numeric_limits` has for `double` is positive, and vectors of
smaller numbers have it for their maximum.
-/

namespace Concurrente.OmpStats

section Folds

variable {α : Type} [LinearOrder α] (limits : NumericLimits α) {values : List α} {v : α}

theorem foldl_minimum_eq (a : α) (values : List α) :
    values.foldl (fun result value => if value < result then value else result) a =
      values.foldl min a := by
  refine congrArg (fun f => values.foldl f a) ?_
  funext result value
  obtain h | h := lt_or_ge value result
  · rw [if_pos h, min_eq_right h.le]
  · rw [if_neg (not_lt.mpr h), min_eq_left h]

theorem foldl_maximum_eq (a : α) (values : List α) :
    values.foldl (fun result value => if value > result then value else result) a =
      values.foldl max a := by
  refine congrArg (fun f => values.foldl f a) ?_
  funext result value
  obtain h | h := lt_or_ge result value
  · rw [if_pos h, max_eq_right h.le]
  · rw [if_neg (not_lt.mpr h), max_eq_left h]

theorem foldl_max_spec (a : α) (values : List α) : a ≤ values.foldl max a ∧
    (∀ v ∈ values, v ≤ values.foldl max a) ∧
    (values.foldl max a = a ∨ values.foldl max a ∈ values) := by
  induction values generalizing a with
  | nil => exact ⟨le_rfl, fun _ h => absurd h List.not_mem_nil, .inl rfl⟩
  | cons b values ih =>
    obtain ⟨hstart, hall, hmem⟩ := ih (max a b)
    rw [List.foldl_cons]
    refine ⟨(le_max_left a b).trans hstart, List.forall_mem_cons.mpr
      ⟨(le_max_right a b).trans hstart, hall⟩, ?_⟩
    obtain hmem | hmem := hmem
    · obtain h | h := max_choice a b
      · exact .inl (hmem.trans h)
      · exact .inr (List.mem_cons.mpr (.inl (hmem.trans h)))
    · exact .inr (List.mem_cons_of_mem b hmem)

theorem foldl_min_spec (a : α) (values : List α) : values.foldl min a ≤ a ∧
    (∀ v ∈ values, values.foldl min a ≤ v) ∧
    (values.foldl min a = a ∨ values.foldl min a ∈ values) :=
  foldl_max_spec (α := αᵒᵈ) a values

theorem le_maximum (h : v ∈ values) : v ≤ maximum limits values := by
  rw [maximum, foldl_maximum_eq]
  exact (foldl_max_spec limits.min values).2.1 v h

theorem minimum_le (h : v ∈ values) : minimum limits values ≤ v := by
  rw [minimum, foldl_minimum_eq]
  exact (foldl_min_spec limits.max values).2.1 v h

theorem maximum_mem_iff : maximum limits values ∈ values ↔ ∃ v ∈ values, limits.min ≤ v := by
  obtain ⟨hstart, hall, hmem⟩ := foldl_max_spec limits.min values
  rw [maximum, foldl_maximum_eq]
  constructor
  · exact fun h => ⟨_, h, hstart⟩
  · rintro ⟨v, hv, hle⟩
    obtain hmin | hmem := hmem
    · have hv' : values.foldl max limits.min = v := by
        rw [hmin]
        exact le_antisymm hle (hmin ▸ hall v hv)
      rw [hv']
      exact hv
    · exact hmem

theorem minimum_mem (hmax : ∀ v : α, v ≤ limits.max) (hne : values ≠ []) :
    minimum limits values ∈ values := by
  obtain ⟨-, hall, hmem⟩ := foldl_min_spec limits.max values
  rw [minimum, foldl_minimum_eq]
  obtain hmin | hmem := hmem
  · obtain ⟨v, hv⟩ := List.exists_mem_of_ne_nil values hne
    have hv' : values.foldl min limits.max = v := by
      rw [hmin]
      exact le_antisymm (hmin ▸ hall v hv) (hmax v)
    rw [hv']
    exact hv
  · exact hmem

end Folds

/-- `maximum` and `minimum` are the largest and the smallest element. -/
def Extrema (τ : ElementType) (values : List τ.Value) : Prop :=
  (maximum τ.limits values ∈ values ∧ ∀ v ∈ values, v ≤ maximum τ.limits values) ∧
    minimum τ.limits values ∈ values ∧ ∀ v ∈ values, minimum τ.limits values ≤ v

theorem le_limits_max (τ : ElementType) (v : τ.Value) : v ≤ τ.limits.max := by
  cases τ with
  | double => exact Double.le_largest v
  | _ => exact v.2.2

theorem limits_min_le {τ : ElementType} (h : τ ≠ .double) (v : τ.Value) : τ.limits.min ≤ v := by
  cases τ with
  | double => exact absurd rfl h
  | _ => exact v.2.1

theorem extrema_iff_exists (τ : ElementType) {values : List τ.Value} (hne : values ≠ []) :
    Extrema τ values ↔ ∃ v ∈ values, τ.limits.min ≤ v := by
  rw [← maximum_mem_iff]
  exact ⟨fun h => h.1.1, fun h => ⟨⟨h, fun _ => le_maximum τ.limits⟩,
    minimum_mem τ.limits (le_limits_max τ) hne, fun _ => minimum_le τ.limits⟩⟩

/-- The folds return the extrema of a vector if and only if its type is an integer type or one of
its elements is at least the smallest positive normal number. -/
theorem extrema_iff (τ : ElementType) (values : List τ.Value) (hne : values ≠ []) :
    Extrema τ values ↔ τ ≠ .double ∨ ∃ v ∈ values, τ.limits.min ≤ v := by
  rw [extrema_iff_exists τ hne]
  refine ⟨.inr, fun h => ?_⟩
  obtain hτ | h := h
  · obtain ⟨v, hv⟩ := List.exists_mem_of_ne_nil values hne
    exact ⟨v, hv, limits_min_le hτ v⟩
  · exact h

theorem extrema_negative : Extrema .int
    [(⟨-3, by decide⟩ : Integer IntType.int), (⟨-5, by decide⟩ : Integer IntType.int)] :=
  (extrema_iff .int _ (List.cons_ne_nil _ _)).mpr (.inl (by decide))

/-- The maximum of the single `double` -1 is not -1. -/
theorem not_extrema_negative : ¬ Extrema .double [Double.ofInt (-1) (by decide)] := by
  intro h
  obtain ⟨v, hv, hle⟩ := (extrema_iff_exists .double (List.cons_ne_nil _ _)).mp h
  obtain rfl := List.mem_singleton.mp hv
  have hpos := Double.smallestNormal_pos
  have hle' : Double.smallestNormal.1 ≤ ((-1 : ℤ) : ℚ) := hle
  exact absurd (hpos.trans_le hle') (by decide)

end Concurrente.OmpStats
