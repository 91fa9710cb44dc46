import Concurrente.OmpStats.Stats

/-!
# Exact averages and medians

The sum is accumulated in the element type, and the two middle elements are added in the
promoted type.  Both are exact as long as the sums are in range; then only the conversion to
`double` can round.
-/

namespace Concurrente.OmpStats

/-- The integer types of `analyze`. -/
def integerTypes : List IntType :=
  [IntType.short, IntType.ushort, IntType.int, IntType.uint, IntType.long, IntType.ulong]

section Values

variable {τ : IntType} (values : List (Integer τ))

def exactSum : ℤ := (values.map Subtype.val).sum

def sorted (i : ℕ) : ℤ := (sort τ values).getD i 0

/-- The integer that `median` converts to `double`: the middle element or the sum of two. -/
def middle : ℤ :=
  if values.length % 2 = 1 then sorted values (values.length / 2)
  else sorted values (values.length / 2) + sorted values (values.length / 2 - 1)

def exactMedian : ℚ := if values.length % 2 = 1 then middle values else (middle values : ℚ) / 2

/-- No addition wraps or overflows, and the average and the median are exact up to the conversions
to `double`. -/
structure Exact : Prop where
  sums : ∀ k ≤ values.length, sum τ (values.take k) = some (exactSum (values.take k))
  average : average τ values = some (exactSum values, values.length)
  median : medianWith τ (fun n => n) values = some (exactMedian values)

/-- The sums of the first elements are in range, and that of the two middle ones. -/
structure Fits : Prop where
  sums : ∀ k ≤ values.length, τ.InRange (exactSum (values.take k))
  middle : values.length % 2 = 0 → τ.promote.InRange (middle values)

end Values

section Sums

variable {τ : IntType} {values : List (Integer τ)} {a b : ℤ} {k : ℕ}

theorem bits_le (hτ : τ ∈ integerTypes) : τ.bits ≤ 64 := by
  simp only [integerTypes, List.mem_cons, List.not_mem_nil, or_false] at hτ
  obtain rfl | rfl | rfl | rfl | rfl | rfl := hτ <;>
    norm_num [IntType.short, IntType.ushort, IntType.int, IntType.uint, IntType.long, IntType.ulong]

theorem promote_inRange (hτ : τ ∈ integerTypes) (ha : τ.InRange a) (hb : τ.InRange b)
    (hab : τ.InRange (a + b)) : τ.promote.InRange (a + b) := by
  simp only [integerTypes, List.mem_cons, List.not_mem_nil, or_false] at hτ
  obtain rfl | rfl | rfl | rfl | rfl | rfl := hτ
  · norm_num [IntType.promote, IntType.InRange, IntType.min, IntType.max, IntType.short,
      IntType.int] at *
    omega
  · norm_num [IntType.promote, IntType.InRange, IntType.min, IntType.max, IntType.ushort,
      IntType.int] at *
    omega
  all_goals exact hab

theorem addAssign_eq_iff (hτ : τ ∈ integerTypes) (ha : τ.InRange a) (hb : τ.InRange b) :
    addAssign τ a b = some (a + b) ↔ τ.InRange (a + b) := by
  rw [addAssign]
  constructor
  · intro h
    obtain ⟨x, -, hx⟩ := Option.map_eq_some_iff.mp h
    rw [← hx]
    exact IntType.convert_inRange x
  · intro h
    rw [IntType.add_eq (promote_inRange hτ ha hb h), Option.map_some, IntType.convert_eq_iff.mpr h]

theorem sum_take_succ (hk : k < values.length) : sum τ (values.take (k + 1)) =
    (sum τ (values.take k)).bind fun result => addAssign τ result values[k].1 := by
  rw [sum, List.take_add_one, List.getElem?_eq_getElem hk, Option.toList_some,
    List.foldlM_append]
  exact congrArg _ (funext fun result => by simp [List.foldlM_cons])

theorem exactSum_take_succ (hk : k < values.length) :
    exactSum (values.take (k + 1)) = exactSum (values.take k) + values[k].1 := by
  rw [exactSum, exactSum, List.take_add_one, List.getElem?_eq_getElem hk, Option.toList_some,
    List.map_append, List.sum_append, List.map_singleton, List.sum_singleton]

theorem sum_step (hτ : τ ∈ integerTypes) (hk : k < values.length)
    (hsum : sum τ (values.take k) = some (exactSum (values.take k)))
    (hrange : τ.InRange (exactSum (values.take k))) :
    sum τ (values.take (k + 1)) = some (exactSum (values.take (k + 1))) ↔
      τ.InRange (exactSum (values.take (k + 1))) := by
  rw [sum_take_succ hk, hsum, Option.bind_some, exactSum_take_succ hk]
  exact addAssign_eq_iff hτ hrange values[k].2

theorem sums_iff (hτ : τ ∈ integerTypes) :
    (∀ k ≤ values.length, sum τ (values.take k) = some (exactSum (values.take k))) ↔
      ∀ k ≤ values.length, τ.InRange (exactSum (values.take k)) := by
  constructor
  · intro h k hk
    induction k with
    | zero => exact IntType.zero_inRange
    | succ k ih => exact (sum_step hτ hk (h k (by omega)) (ih (by omega))).mp (h (k + 1) hk)
  · intro h k hk
    induction k with
    | zero => rfl
    | succ k ih => exact (sum_step hτ hk (ih (by omega)) (h k (by omega))).mpr (h (k + 1) hk)

theorem average_eq (hne : values ≠ [])
    (h : ∀ k ≤ values.length, sum τ (values.take k) = some (exactSum (values.take k))) :
    average τ values = some (exactSum values, values.length) := by
  have hsum := h values.length le_rfl
  rw [List.take_length] at hsum
  rw [average, if_pos (List.length_pos_iff.mpr hne), hsum, Option.map_some]

end Sums

section Medians

variable {τ : IntType} {values : List (Integer τ)} {convert : ℤ → ℚ} {i : ℕ}

theorem length_sort : (sort τ values).length = values.length := by
  rw [sort, List.length_mergeSort, List.length_map]

theorem sort_getElem? (h : i < values.length) : (sort τ values)[i]? = some (sorted values i) := by
  rw [sorted, List.getD_eq_getElem?_getD, List.getElem?_eq_getElem (by rwa [length_sort])]
  rfl

theorem sorted_inRange (h : i < values.length) : τ.InRange (sorted values i) := by
  have hmem : sorted values i ∈ sort τ values := List.mem_of_getElem? (sort_getElem? h)
  rw [sort, List.mem_mergeSort] at hmem
  obtain ⟨v, -, hv⟩ := List.mem_map.mp hmem
  rw [← hv]
  exact v.2

theorem medianWith_odd (h : values.length % 2 = 1) :
    medianWith τ convert values = some (convert (middle values)) := by
  rw [medianWith, if_pos (by omega), if_pos h, sort_getElem? (by omega), middle, if_pos h,
    Option.map_some]

theorem medianWith_even (hne : values ≠ []) (h : values.length % 2 = 0) :
    medianWith τ convert values =
      (τ.promote.fit (middle values)).map fun n => convert n / 2 := by
  have hpos := List.length_pos_iff.mpr hne
  rw [medianWith, if_pos hpos, if_neg (by omega), sort_getElem? (by omega),
    sort_getElem? (by omega), middle, if_neg (by omega)]
  show (τ.promote.fit _).bind (fun n => some (convert n / 2)) = _
  cases τ.promote.fit _ <;> rfl

theorem medianWith_eq_iff (hne : values ≠ []) :
    medianWith τ (fun n => n) values = some (exactMedian values) ↔
      (values.length % 2 = 0 → τ.promote.InRange (middle values)) := by
  obtain h | h := Nat.mod_two_eq_zero_or_one values.length
  · rw [medianWith_even hne h, exactMedian, if_neg (by omega), ← IntType.fit_eq_iff]
    constructor
    · intro heq _
      obtain ⟨n, hn, hhalf⟩ := Option.map_eq_some_iff.mp heq
      have hcast : (n : ℚ) = middle values := by linarith
      rw [hn, Int.cast_injective hcast]
    · intro hfit
      rw [hfit h, Option.map_some]
  · rw [medianWith_odd h, exactMedian, if_pos h]
    exact iff_of_true rfl fun h' => absurd h' (by omega)

theorem median_eq_iff (hne : values ≠ [])
    (h : values.length % 2 = 0 → τ.promote.InRange (middle values)) :
    median τ values = some (exactMedian values) ↔ toDouble (middle values) = middle values := by
  obtain heven | hodd := Nat.mod_two_eq_zero_or_one values.length
  · rw [median, medianWith_even hne heven, IntType.fit_eq (h heven), Option.map_some, exactMedian,
      if_neg (by omega), Option.some_inj]
    constructor
    · intro heq
      linarith
    · intro heq
      rw [heq]
  · rw [median, medianWith_odd hodd, exactMedian, if_pos hodd, Option.some_inj]

theorem natAbs_middle_lt (hτ : τ ∈ integerTypes) (hne : values ≠ []) :
    (middle values).natAbs < 2 ^ 1024 := by
  have hpos := List.length_pos_iff.mpr hne
  have hbits := bits_le hτ
  have hpow : (2 : ℤ) ^ τ.bits ≤ 2 ^ 64 := pow_le_pow_right₀ (by norm_num) hbits
  have hpow' : (2 : ℤ) ^ (τ.bits - 1) ≤ 2 ^ 64 := pow_le_pow_right₀ (by norm_num) (by omega)
  have hle : ∀ i < values.length, -2 ^ 64 ≤ sorted values i ∧ sorted values i ≤ 2 ^ 64 := by
    intro i hi
    have hrange := sorted_inRange hi
    rw [IntType.InRange, IntType.min, IntType.max] at hrange
    split_ifs at hrange <;> constructor <;> omega
  have h1 := hle (values.length / 2) (by omega)
  have h2 := hle (values.length / 2 - 1) (by omega)
  have hmiddle : (middle values).natAbs ≤ 2 ^ 65 := by
    rw [middle]
    split_ifs <;> omega
  have hpow'' : (2 : ℕ) ^ 65 < 2 ^ 1024 := pow_lt_pow_right₀ one_lt_two (by norm_num)
  omega

end Medians

/-- The average and the median of a vector are exact up to their conversions to `double` if and
only if the sums of its first elements and of its two middle ones are in range, and then `median`
returns the exact median if and only if the integer that it converts is a `double`. -/
theorem exact_iff (τ : IntType) (hτ : τ ∈ integerTypes) (values : List (Integer τ))
    (hne : values ≠ []) : (Exact values ↔ Fits values) ∧
      (Exact values ∧ median τ values = some (exactMedian values) ↔
        Fits values ∧ IsDouble (middle values)) := by
  have hexact : Exact values ↔ Fits values :=
    ⟨fun h => ⟨(sums_iff hτ).mp h.sums, (medianWith_eq_iff hne).mp h.median⟩,
      fun h => ⟨(sums_iff hτ).mpr h.sums, average_eq hne ((sums_iff hτ).mpr h.sums),
        (medianWith_eq_iff hne).mpr h.middle⟩⟩
  refine ⟨hexact, ?_⟩
  rw [hexact, ← toDouble_eq_iff (natAbs_middle_lt hτ hne)]
  exact and_congr_right fun h => median_eq_iff hne h.middle

/-- The sums of these elements reach the largest `short`. -/
theorem exact_short : Exact
    [(⟨32000, by decide⟩ : Integer IntType.short), ⟨767, by decide⟩, ⟨-5, by decide⟩] :=
  (exact_iff IntType.short List.mem_cons_self _ (List.cons_ne_nil _ _)).1.mpr
    ⟨by decide, fun h => absurd h (by decide)⟩

/-- The sum of two elements of 30000 wraps in `short`. -/
theorem not_exact_short :
    ¬ Exact [(⟨30000, by decide⟩ : Integer IntType.short), ⟨30000, by decide⟩] := by
  intro h
  have hsum := h.sums 2 le_rfl
  exact absurd hsum (by decide)

end Concurrente.OmpStats
