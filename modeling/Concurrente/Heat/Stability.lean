import Concurrente.Heat.Scheme

/-!
# Stability of the heat recurrence

With a constant from 0 to 1/4 the new temperature of an inner cell is a mean of five
old ones.  So states keep the order of plates and the bounds of a plate.  The changes
between states follow the same recurrence with a border at 0; against a weight that
is concave in the rows they shrink by a fixed factor, also at 1/4, where the largest
change need not shrink in one state.
-/

namespace Concurrente.Heat

variable {rows cols : ℕ} {c epsilon : ℚ} {T T' : Cell → ℚ} {r k : ℕ}

theorem heat_rule_mean : (heat rows cols c epsilon).rule T (r, k) =
    (1 - 4 * c) * T (r, k) +
      c * (T (r - 1, k) + T (r, k + 1) + T (r + 1, k) + T (r, k - 1)) := by
  rw [heat_rule]
  ring

theorem rule_mono (h0 : 0 ≤ c) (h1 : c ≤ 1 / 4)
    (h : ∀ i ∈ (heat rows cols c epsilon).dom, T i ≤ T' i) :
    ∀ i ∈ (heat rows cols c epsilon).inner,
      (heat rows cols c epsilon).rule T i ≤ (heat rows cols c epsilon).rule T' i := by
  rintro ⟨r, k⟩ hi
  obtain ⟨hr, hr', hk, hk'⟩ := mem_inner.mp hi
  have hself := h (r, k) (mem_dom.mpr ⟨by omega, by omega⟩)
  have hup := h (r - 1, k) (mem_dom.mpr ⟨by omega, by omega⟩)
  have hright := h (r, k + 1) (mem_dom.mpr ⟨by omega, by omega⟩)
  have hdown := h (r + 1, k) (mem_dom.mpr ⟨by omega, by omega⟩)
  have hleft := h (r, k - 1) (mem_dom.mpr ⟨by omega, by omega⟩)
  rw [heat_rule_mean, heat_rule_mean]
  apply add_le_add
  · exact mul_le_mul_of_nonneg_left hself (by linarith)
  · exact mul_le_mul_of_nonneg_left (by linarith) h0

theorem heat_state_mono (h0 : 0 ≤ c) (h1 : c ≤ 1 / 4)
    (h : ∀ i ∈ (heat rows cols c epsilon).dom, T i ≤ T' i) (j : ℕ) :
    ∀ i ∈ (heat rows cols c epsilon).dom,
      (heat rows cols c epsilon).state T j i ≤ (heat rows cols c epsilon).state T' j i :=
  Scheme.state_mono (fun _ _ => rule_mono h0 h1) h j

theorem heat_state_const (a : ℚ) (j : ℕ) :
    (heat rows cols c epsilon).state (fun _ => a) j = fun _ => a := by
  apply Scheme.state_const
  rintro ⟨r, k⟩ -
  rw [heat_rule]
  ring

theorem heat_state_bounds (h0 : 0 ≤ c) (h1 : c ≤ 1 / 4) {lo hi : ℚ}
    (h : ∀ i ∈ (heat rows cols c epsilon).dom, lo ≤ T i ∧ T i ≤ hi) (j : ℕ) :
    ∀ i ∈ (heat rows cols c epsilon).dom, lo ≤ (heat rows cols c epsilon).state T j i ∧
      (heat rows cols c epsilon).state T j i ≤ hi := by
  intro i hi'
  have hlo := heat_state_mono h0 h1 (fun i hi => (h i hi).1) j i hi'
  have hhi := heat_state_mono h0 h1 (fun i hi => (h i hi).2) j i hi'
  rw [heat_state_const] at hlo hhi
  exact ⟨hlo, hhi⟩

/-- The change from state `j` to state `j + 1`. -/
noncomputable def change (S : Scheme Cell ℚ) (T : Cell → ℚ) (j : ℕ) (i : Cell) : ℚ :=
  S.state T (j + 1) i - S.state T j i

theorem change_border {j : ℕ} {i : Cell} (hi : i ∉ (heat rows cols c epsilon).inner) :
    change (heat rows cols c epsilon) T j i = 0 := by
  rw [change, Scheme.state_succ, Scheme.next_of_notMem hi, sub_self]

theorem rule_sub (i : Cell) : (heat rows cols c epsilon).rule (fun i => T i - T' i) i =
    (heat rows cols c epsilon).rule T i - (heat rows cols c epsilon).rule T' i := by
  obtain ⟨r, k⟩ := i
  simp only [heat_rule]
  ring

theorem rule_smul (a : ℚ) (i : Cell) : (heat rows cols c epsilon).rule (fun i => a * T i) i =
    a * (heat rows cols c epsilon).rule T i := by
  obtain ⟨r, k⟩ := i
  simp only [heat_rule]
  ring

theorem change_succ {j : ℕ} {i : Cell} (hi : i ∈ (heat rows cols c epsilon).inner) :
    change (heat rows cols c epsilon) T (j + 1) i =
      (heat rows cols c epsilon).rule (change (heat rows cols c epsilon) T j) i := by
  calc change (heat rows cols c epsilon) T (j + 1) i
      = (heat rows cols c epsilon).rule ((heat rows cols c epsilon).state T (j + 1)) i -
        (heat rows cols c epsilon).rule ((heat rows cols c epsilon).state T j) i := by
        rw [change, Scheme.state_succ _ (j + 1), Scheme.next_of_mem hi, Scheme.state_succ _ j,
          Scheme.next_of_mem hi]
    _ = _ := (rule_sub i).symm

/-- Zero in the first and the last row, and concave between them. -/
def weight (rows : ℕ) (i : Cell) : ℚ := i.1 * (rows - 1 - i.1)

/-- The factor by which the weighted changes shrink. -/
def factor (rows : ℕ) (c : ℚ) : ℚ := 1 - 2 * c / rows ^ 2

theorem weight_nonneg {i : Cell} (hi : i ∈ (heat rows cols c epsilon).dom) :
    0 ≤ weight rows i := by
  obtain ⟨r, k⟩ := i
  have hr : ((r + 1 : ℕ) : ℚ) ≤ rows := Nat.cast_le.mpr (mem_dom.mp hi).1
  push_cast at hr
  exact mul_nonneg r.cast_nonneg (by simp only; linarith)

theorem one_le_weight {i : Cell} (hi : i ∈ (heat rows cols c epsilon).inner) :
    1 ≤ weight rows i := by
  obtain ⟨r, k⟩ := i
  obtain ⟨h1, h2, -, -⟩ := mem_inner.mp hi
  have hr : (1 : ℚ) ≤ r := Nat.one_le_cast.mpr h1
  have hr' : ((r + 2 : ℕ) : ℚ) ≤ rows := Nat.cast_le.mpr h2
  push_cast at hr'
  exact one_le_mul_of_one_le_of_one_le hr (by simp only; linarith)

theorem weight_le {i : Cell} (hi : i ∈ (heat rows cols c epsilon).dom) :
    weight rows i ≤ (rows : ℚ) ^ 2 := by
  obtain ⟨r, k⟩ := i
  have hr : ((r + 1 : ℕ) : ℚ) ≤ rows := Nat.cast_le.mpr (mem_dom.mp hi).1
  have hr0 : (0 : ℚ) ≤ r := r.cast_nonneg
  push_cast at hr
  rw [sq]
  exact mul_le_mul (by simp only; linarith) (by simp only; linarith) (by simp only; linarith)
    rows.cast_nonneg

theorem rule_weight {i : Cell} (hi : i ∈ (heat rows cols c epsilon).inner) :
    (heat rows cols c epsilon).rule (weight rows) i = weight rows i - 2 * c := by
  obtain ⟨r, k⟩ := i
  obtain ⟨h1, -, -, -⟩ := mem_inner.mp hi
  simp only [heat_rule, weight, Nat.cast_sub h1]
  push_cast
  ring

theorem rule_weight_le (h0 : 0 ≤ c) {i : Cell} (hi : i ∈ (heat rows cols c epsilon).inner) :
    (heat rows cols c epsilon).rule (weight rows) i ≤ factor rows c * weight rows i := by
  have hdom := (heat rows cols c epsilon).inner_subset hi
  have hpos : (0 : ℚ) < (rows : ℚ) ^ 2 :=
    lt_of_lt_of_le one_pos ((one_le_weight hi).trans (weight_le hdom))
  have hle : 2 * c / (rows : ℚ) ^ 2 * weight rows i ≤ 2 * c := by
    calc 2 * c / (rows : ℚ) ^ 2 * weight rows i
        ≤ 2 * c / (rows : ℚ) ^ 2 * (rows : ℚ) ^ 2 :=
          mul_le_mul_of_nonneg_left (weight_le hdom) (div_nonneg (by linarith) hpos.le)
      _ = 2 * c := div_mul_cancel₀ _ hpos.ne'
  rw [rule_weight hi, factor]
  linarith

theorem factor_nonneg (h1 : c ≤ 1 / 4) (hr : 1 ≤ rows) : 0 ≤ factor rows c := by
  have hrows : (1 : ℚ) ≤ (rows : ℚ) ^ 2 := one_le_pow₀ (Nat.one_le_cast.mpr hr)
  have hle : 2 * c / (rows : ℚ) ^ 2 ≤ 1 := by
    rw [div_le_one (by linarith)]
    linarith
  rw [factor]
  linarith

theorem factor_lt_one (h0 : 0 < c) (hr : 1 ≤ rows) : factor rows c < 1 := by
  have hrows : (0 : ℚ) < rows := Nat.cast_pos.mpr hr
  have hpos : 0 < 2 * c / (rows : ℚ) ^ 2 := by positivity
  rw [factor]
  linarith

theorem change_le (h0 : 0 ≤ c) (h1 : c ≤ 1 / 4) (hr : 1 ≤ rows) {b : ℚ} (hb : 0 ≤ b)
    (h : ∀ i ∈ (heat rows cols c epsilon).dom,
      |change (heat rows cols c epsilon) T 0 i| ≤ b * weight rows i) (j : ℕ) :
    ∀ i ∈ (heat rows cols c epsilon).dom,
      |change (heat rows cols c epsilon) T j i| ≤ b * factor rows c ^ j * weight rows i := by
  induction j with
  | zero => simpa using h
  | succ j ih =>
    intro i hi
    have hpow : 0 ≤ b * factor rows c ^ j := mul_nonneg hb (pow_nonneg (factor_nonneg h1 hr) j)
    by_cases hin : i ∈ (heat rows cols c epsilon).inner
    · have hneg : ∀ i ∈ (heat rows cols c epsilon).dom,
          -(b * factor rows c ^ j) * weight rows i ≤ change (heat rows cols c epsilon) T j i := by
        intro i hi
        rw [neg_mul]
        exact (abs_le.mp (ih i hi)).1
      have hup := rule_mono h0 h1 (fun i hi => (abs_le.mp (ih i hi)).2) i hin
      have hlow := rule_mono h0 h1 hneg i hin
      have hw := mul_le_mul_of_nonneg_left (rule_weight_le h0 hin) hpow
      rw [rule_smul] at hup hlow
      rw [change_succ hin, abs_le, pow_succ]
      constructor <;> linarith
    · rw [change_border hin, abs_zero]
      exact mul_nonneg (mul_nonneg hb (pow_nonneg (factor_nonneg h1 hr) _)) (weight_nonneg hi)

theorem exists_change_le (rows cols : ℕ) (c epsilon : ℚ) (T : Cell → ℚ) : ∃ b, 0 ≤ b ∧
    ∀ i ∈ (heat rows cols c epsilon).dom,
      |change (heat rows cols c epsilon) T 0 i| ≤ b * weight rows i := by
  let cells := Finset.range rows ×ˢ Finset.range cols
  refine ⟨∑ i ∈ cells, |change (heat rows cols c epsilon) T 0 i|,
    Finset.sum_nonneg fun i _ => abs_nonneg _, fun i hi => ?_⟩
  by_cases hin : i ∈ (heat rows cols c epsilon).inner
  · have hmem : i ∈ cells := Finset.mem_product.mpr
      ⟨Finset.mem_range.mpr hi.1, Finset.mem_range.mpr hi.2⟩
    calc |change (heat rows cols c epsilon) T 0 i|
        ≤ ∑ i ∈ cells, |change (heat rows cols c epsilon) T 0 i| :=
          Finset.single_le_sum (f := fun i => |change (heat rows cols c epsilon) T 0 i|)
            (fun i _ => abs_nonneg _) hmem
      _ ≤ _ := le_mul_of_one_le_right (Finset.sum_nonneg fun i _ => abs_nonneg _)
          (one_le_weight hin)
  · rw [change_border hin, abs_zero]
    exact mul_nonneg (Finset.sum_nonneg fun i _ => abs_nonneg _) (weight_nonneg hi)

theorem settled_iff_change {j : ℕ} : (heat rows cols c epsilon).Settled T j ↔
    ∀ i ∈ (heat rows cols c epsilon).inner,
      |change (heat rows cols c epsilon) T j i| ≤ epsilon := forall₂_congr fun _ _ => heat_close

theorem heat_converges (h0 : 0 ≤ c) (h1 : c ≤ 1 / 4) (he : 0 < epsilon) (hr : 1 ≤ rows)
    (T : Cell → ℚ) : ∃ j, (heat rows cols c epsilon).Settled T j := by
  obtain rfl | hc := h0.eq_or_lt
  · refine ⟨0, settled_iff_change.mpr fun i hi => ?_⟩
    rw [change, Scheme.state_succ, Scheme.next_of_mem hi, heat_rule, zero_mul, add_zero,
      Scheme.state_zero, sub_self, abs_zero]
    exact he.le
  obtain ⟨b, hb, hbound⟩ := exists_change_le rows cols c epsilon T
  have hrows : (1 : ℚ) ≤ (rows : ℚ) ^ 2 := one_le_pow₀ (Nat.one_le_cast.mpr hr)
  have hpos : 0 < epsilon / ((b + 1) * (rows : ℚ) ^ 2) := by positivity
  obtain ⟨j, hj⟩ := exists_pow_lt_of_lt_one hpos (factor_lt_one hc hr)
  rw [lt_div_iff₀ (by positivity)] at hj
  refine ⟨j, settled_iff_change.mpr fun i hi => ?_⟩
  have hdom := (heat rows cols c epsilon).inner_subset hi
  have hpow := pow_nonneg (factor_nonneg h1 hr) j
  calc |change (heat rows cols c epsilon) T j i|
      ≤ b * factor rows c ^ j * weight rows i := change_le h0 h1 hr hb hbound j i hdom
    _ ≤ (b + 1) * factor rows c ^ j * (rows : ℚ) ^ 2 := by
        apply mul_le_mul _ (weight_le hdom) (weight_nonneg hdom) (by positivity)
        exact mul_le_mul_of_nonneg_right (by linarith) hpow
    _ = factor rows c ^ j * ((b + 1) * (rows : ℚ) ^ 2) := by ring
    _ ≤ epsilon := hj.le

end Concurrente.Heat
