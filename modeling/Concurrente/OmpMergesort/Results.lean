import Concurrente.OmpMergesort.Program

/-!
# Which vectors are sorted

Every task works on its own part of the vector.  The invariant gives each node of the tree
its range, and says of the values there how far the sort has come; a step in one half
keeps what is said of the other.  The only undefined operation is the sum in `mid`, and
only on vectors of more than `2 ^ 62 + 1024` values.
-/

namespace Concurrente.OmpMergesort

variable {α : Type} [LinearOrder α]

section Operations

variable {left mid right : ℤ} {values other : Values α}

theorem ptrdiff_of_lt {x : ℤ} (h : -2 ^ 63 ≤ x) (h' : x < 2 ^ 63) : ptrdiff x = .ok x :=
  if_pos ⟨h, h'⟩

omit [LinearOrder α] in
theorem range_of_le {first last : ℤ} (h : 0 ≤ first) (h' : first ≤ last)
    (hs : last ≤ values.size) : range values first last = .ok (first.toNat, last.toNat) :=
  if_pos ⟨h, h', hs⟩

theorem mergesort_split (hl : 0 ≤ left) (hr : right < 2 ^ 63) (hc : 1024 < right - left)
    (hs : left + right < 2 ^ 63) (values : Values α) : mergesort left right values =
      .ok (values, .taskwait left ((left + right) / 2) right (.call left ((left + right) / 2))
        (.call ((left + right) / 2 + 1) right)) := by
  have hmid : (left + right).tdiv 2 = (left + right) / 2 :=
    Int.tdiv_eq_ediv_of_nonneg (by omega)
  rw [mergesort, ptrdiff_of_lt (by omega) (by omega), ← hmid]
  simp only [bind, Except.bind, gt_iff_lt, hc, if_true]
  rw [ptrdiff_of_lt (by omega) hs]
  rfl

theorem mergesort_sort (hl : 0 ≤ left) (hlr : left ≤ right + 1) (hr : right < values.size)
    (hc : right - left ≤ 1024) : mergesort left right values =
      .ok (values.splice left.toNat ((values.slice left.toNat (right + 1).toNat).mergeSort
        fun a b => a ≤ b), .done) := by
  rw [mergesort, ptrdiff_of_lt (by omega) (by omega)]
  simp only [bind, Except.bind, gt_iff_lt, not_lt.mpr hc, if_false]
  rw [range_of_le hl hlr (by omega)]
  rfl

theorem mergeHalves_eq (hl : 0 ≤ left) (hlm : left ≤ mid) (hmr : mid < right)
    (hr : right < values.size) : mergeHalves left mid right values =
      .ok (values, .copy left ((values.slice left.toNat (mid + 1).toNat).merge
        (values.slice (mid + 1).toNat (right + 1).toNat) fun a b => a ≤ b)) := by
  rw [mergeHalves, range_of_le hl (by omega) (by omega), range_of_le (by omega) (by omega)
    (by omega)]
  rfl

omit [LinearOrder α] in
theorem copyTemp_eq {temp : List α} (hl : 0 ≤ left) (hs : left + temp.length ≤ values.size) :
    copyTemp left temp values = .ok (values.splice left.toNat temp, .done) := by
  rw [copyTemp, range_of_le hl (by omega) hs]
  rfl

end Operations

section Steps

variable {left mid right : ℤ} {first second : Task α} {path : List Bool} {values : Values α}

theorem step_done (path : List Bool) (values : Values α) :
    (Task.done : Task α).step path values = none := by
  cases path <;> rfl

theorem step_first (path : List Bool) (values : Values α) :
    (Task.taskwait left mid right first second).step (false :: path) values =
      (first.step path values).map fun x =>
        x.map fun (values, first) => (values, .taskwait left mid right first second) := by
  simp only [Task.step]

theorem step_second (path : List Bool) (values : Values α) :
    (Task.taskwait left mid right first second).step (true :: path) values =
      (second.step path values).map fun x =>
        x.map fun (values, second) => (values, .taskwait left mid right first second) := by
  simp only [Task.step]

theorem step_taskwait {x : Except Undefined (Values α × Task α)}
    (h : (Task.taskwait left mid right first second).step [] values = some x) :
    first = .done ∧ second = .done ∧ x = mergeHalves left mid right values := by
  cases first <;> cases second <;> first | exact ⟨rfl, rfl, (Option.some.inj h).symm⟩ | cases h

end Steps

section Ranges

variable {n left right : ℤ}

/-- The ranges of the calls on a vector of `n` values.  On more than `2 ^ 62` values, those
that are split have almost a power of two of them. -/
structure Splits (n left right : ℤ) : Prop where
  left_nonneg : 0 ≤ left
  left_le : left ≤ right + 1
  right_lt : right < n
  size : n ≤ 2 ^ 62 ∨ right - left ≤ 1024 ∨ ∃ a : ℕ,
    2 ^ (a + 11) ≤ right - left + 1 ∧ right - left + 1 ≤ 2 ^ (a + 11) + 2 ^ a

theorem splits_start (hn : 0 ≤ n) (hmax : n ≤ 2 ^ 62 + 1024) : Splits n 0 (n - 1) := by
  refine ⟨le_rfl, by omega, by omega, ?_⟩
  by_cases h : n ≤ 2 ^ 62
  · exact Or.inl h
  · exact Or.inr (Or.inr ⟨51, by omega, by omega⟩)

theorem Splits.sum_lt (h : Splits n left right) (hmax : n ≤ 2 ^ 62 + 1024)
    (hc : 1024 < right - left) : left + right < 2 ^ 63 := by
  obtain ⟨hl, -, hr, hn | hs | ⟨a, hlow, -⟩⟩ := h
  · omega
  · omega
  · have hpow : (2 : ℤ) ^ (a + 11) = 2048 * 2 ^ a := by rw [pow_add]; ring
    have hpos : (1 : ℤ) ≤ 2 ^ a := one_le_pow₀ (by norm_num)
    omega

theorem size_half {m k : ℤ} (hm : m ≤ 2 * k + 1) (hk : 2 * k ≤ m + 1)
    (h : ∃ a : ℕ, 2 ^ (a + 11) ≤ m ∧ m ≤ 2 ^ (a + 11) + 2 ^ a) :
    k ≤ 1025 ∨ ∃ a : ℕ, 2 ^ (a + 11) ≤ k ∧ k ≤ 2 ^ (a + 11) + 2 ^ a := by
  obtain ⟨a, hlow, hhigh⟩ := h
  cases a with
  | zero =>
    left
    norm_num at hlow hhigh
    omega
  | succ a =>
    right
    have hpow : (2 : ℤ) ^ (a + 1 + 11) = 2 * 2 ^ (a + 11) := by rw [pow_add, pow_add, pow_add]; ring
    have hpow' : (2 : ℤ) ^ (a + 1) = 2 * 2 ^ a := by rw [pow_succ]; ring
    have hpow'' : (2 : ℤ) ^ (a + 11) = 2048 * 2 ^ a := by rw [pow_add]; ring
    exact ⟨a, by omega, by omega⟩

theorem Splits.halves (h : Splits n left right) (hc : 1024 < right - left) :
    left ≤ (left + right) / 2 ∧ (left + right) / 2 < right ∧
      Splits n left ((left + right) / 2) ∧ Splits n ((left + right) / 2 + 1) right := by
  obtain ⟨hl, hlr, hr, hsize⟩ := h
  refine ⟨by omega, by omega, ⟨hl, by omega, by omega, ?_⟩, ⟨by omega, by omega, hr, ?_⟩⟩
  · obtain hn | hs | hpow := hsize
    · exact Or.inl hn
    · omega
    · exact Or.inr ((size_half (k := (left + right) / 2 - left + 1) (by omega) (by omega)
        hpow).imp_left fun h => by omega)
  · obtain hn | hs | hpow := hsize
    · exact Or.inl hn
    · omega
    · exact Or.inr ((size_half (k := right - ((left + right) / 2 + 1) + 1) (by omega) (by omega)
        hpow).imp_left fun h => by omega)

end Ranges

section Invariant

variable {orig values values' : Values α} {lo hi : ℤ} {t : Task α}

/-- The values from `lo` to `hi`. -/
def part (values : Values α) (lo hi : ℤ) : List α := values.slice lo.toNat (hi + 1).toNat

/-- The task works from `lo` to `hi`.  There the values are the original ones before the call
starts, and a sorted permutation of them when it has returned. -/
def Task.Sorting (orig : Values α) : Task α → ℤ → ℤ → Values α → Prop
  | .call left right, lo, hi, values =>
    left = lo ∧ right = hi ∧ Splits orig.size lo hi ∧
      ∀ i : ℕ, lo ≤ i → i ≤ hi → values.cells i = orig.cells i
  | .taskwait left mid right first second, lo, hi, values =>
    left = lo ∧ right = hi ∧ Splits orig.size lo hi ∧ lo ≤ mid ∧ mid < hi ∧
      first.Sorting orig lo mid values ∧ second.Sorting orig (mid + 1) hi values
  | .copy left temp, lo, hi, _ =>
    left = lo ∧ Splits orig.size lo hi ∧ lo + temp.length = hi + 1 ∧ temp.Pairwise (· ≤ ·) ∧
      temp.Perm (part orig lo hi)
  | .done, lo, hi, values =>
    (part values lo hi).Pairwise (· ≤ ·) ∧ (part values lo hi).Perm (part orig lo hi)

omit [LinearOrder α] in
theorem part_congr (h : ∀ i : ℕ, lo ≤ i → i ≤ hi → values'.cells i = values.cells i) :
    part values' lo hi = part values lo hi :=
  Block.slice_congr fun i h1 h2 => h i (by omega) (by omega)

theorem Task.Sorting.congr (h : t.Sorting orig lo hi values)
    (hv : ∀ i : ℕ, lo ≤ i → i ≤ hi → values'.cells i = values.cells i) :
    t.Sorting orig lo hi values' := by
  induction t generalizing lo hi with
  | call left right =>
    obtain ⟨hl, hr, hs, horig⟩ := h
    exact ⟨hl, hr, hs, fun i h1 h2 => (hv i h1 h2).trans (horig i h1 h2)⟩
  | taskwait left mid right first second ih1 ih2 =>
    obtain ⟨hl, hr, hs, hlm, hmr, h1, h2⟩ := h
    exact ⟨hl, hr, hs, hlm, hmr, ih1 h1 fun i hi hi' => hv i hi (by omega),
      ih2 h2 fun i hi hi' => hv i (by omega) hi'⟩
  | copy left temp => exact h
  | done =>
    unfold Task.Sorting at h ⊢
    rwa [part_congr hv]

omit [LinearOrder α] in
theorem part_append {mid : ℤ} (hl : 0 ≤ lo) (hlm : lo ≤ mid) (hmr : mid < hi) :
    part values lo mid ++ part values (mid + 1) hi = part values lo hi :=
  Block.slice_append (by omega) (by omega)

omit [LinearOrder α] in
theorem length_part : (part values lo hi).length = (hi + 1).toNat - lo.toNat :=
  Block.length_slice _ _ _

omit [LinearOrder α] in
theorem part_splice {l : List α} (hl : 0 ≤ lo) (hlen : lo + l.length = hi + 1) :
    part (values.splice lo.toNat l) lo hi = l := by
  have hhi : (hi + 1).toNat = lo.toNat + l.length := by omega
  rw [part, hhi, Block.slice_splice]

omit [LinearOrder α] in
theorem splice_of_not_mem {l : List α} (hl : 0 ≤ lo) (hlen : lo + l.length = hi + 1) {i : ℕ}
    (hi : ¬ (lo ≤ i ∧ i ≤ hi)) : (values.splice lo.toNat l).cells i = values.cells i :=
  Block.splice_outside (by omega)

def Task.rank : Task α → ℕ
  | .call left right => max 1 (4 * (right - left) + 1).toNat
  | .taskwait _ _ _ first second => first.rank + second.rank + 2
  | .copy _ _ => 1
  | .done => 0

/-- What a step does when the invariant holds. -/
structure Steps (orig : Values α) (lo hi : ℤ) (t : Task α) (values : Values α)
    (x : Except Undefined (Values α × Task α)) (values' : Values α) (t' : Task α) : Prop where
  eq_ok : x = .ok (values', t')
  size_eq : values'.size = values.size
  outside : ∀ i : ℕ, ¬ (lo ≤ i ∧ i ≤ hi) → values'.cells i = values.cells i
  sorting : t'.Sorting orig lo hi values'
  rank_lt : t'.rank < t.rank

theorem sorting_call {left right : ℤ} (hmax : (orig.size : ℤ) ≤ 2 ^ 62 + 1024)
    (hsize : values.size = orig.size)
    (h : (Task.call left right : Task α).Sorting orig lo hi values) : ∃ values' t',
    Steps orig lo hi (.call left right) values (mergesort left right values) values' t' := by
  obtain ⟨rfl, rfl, hs, horig⟩ := h
  have hl := hs.left_nonneg
  have hlr := hs.left_le
  have hr := hs.right_lt
  -- the halves are made, or the part is sorted at once
  by_cases hc : 1024 < right - left
  · obtain ⟨h1, h2, hfirst, hsecond⟩ := hs.halves hc
    have hsplit := mergesort_split hl (by omega) hc (hs.sum_lt hmax hc) values
    refine ⟨values, _, hsplit, rfl, fun _ _ => rfl, ?_, ?_⟩
    · exact ⟨rfl, rfl, hs, h1, h2, ⟨rfl, rfl, hfirst, fun i hi hi' => horig i hi (by omega)⟩,
        rfl, rfl, hsecond, fun i hi hi' => horig i (by omega) hi'⟩
    · simp only [Task.rank]
      omega
  · have hsort : mergesort left right values = _ :=
      mergesort_sort hl hlr (by omega) (by omega)
    have hlen : left + (((part values left right).mergeSort fun a b => a ≤ b).length : ℤ) =
        right + 1 := by
      rw [List.length_mergeSort, length_part]
      omega
    refine ⟨_, _, hsort, rfl, fun i hi => splice_of_not_mem hl hlen hi, ⟨?_, ?_⟩, ?_⟩
    · rw [← part, part_splice hl hlen]
      exact List.pairwise_mergeSort' (· ≤ ·) _
    · rw [← part, part_splice hl hlen, ← part_congr horig]
      exact List.mergeSort_perm _ _
    · simp only [Task.rank]
      omega

theorem sorting_merge {left mid right : ℤ} (hsize : values.size = orig.size)
    (h : (Task.taskwait left mid right .done .done : Task α).Sorting orig lo hi values) :
    ∃ values' t', Steps orig lo hi (.taskwait left mid right .done .done) values
      (mergeHalves left mid right values) values' t' := by
  obtain ⟨rfl, rfl, hs, h1, h2, ⟨hsort1, hperm1⟩, hsort2, hperm2⟩ := h
  have hl := hs.left_nonneg
  have hr := hs.right_lt
  refine ⟨values, _, mergeHalves_eq hl h1 h2 (by omega), rfl, fun _ _ => rfl,
    ⟨rfl, hs, ?_, ?_, ?_⟩, ?_⟩
  · rw [List.length_merge, ← part, ← part, length_part, length_part]
    omega
  · exact hsort1.merge hsort2
  · rw [← part, ← part, ← part_append hl h1 h2]
    exact (List.merge_perm_append _).trans (hperm1.append hperm2)
  · simp only [Task.rank]
    omega

theorem sorting_copy {left : ℤ} {temp : List α} (hsize : values.size = orig.size)
    (h : (Task.copy left temp : Task α).Sorting orig lo hi values) : ∃ values' t',
    Steps orig lo hi (.copy left temp) values (copyTemp left temp values) values' t' := by
  obtain ⟨rfl, hs, hlen, hsort, hperm⟩ := h
  have hl := hs.left_nonneg
  have hr := hs.right_lt
  refine ⟨_, _, copyTemp_eq hl (by omega), rfl, fun i hi => splice_of_not_mem hl hlen hi,
    ⟨?_, ?_⟩, ?_⟩
  · rwa [part_splice hl hlen]
  · rwa [part_splice hl hlen]
  · simp only [Task.rank]
    omega

theorem Task.Sorting.step {path : List Bool} {x : Except Undefined (Values α × Task α)}
    (hmax : (orig.size : ℤ) ≤ 2 ^ 62 + 1024) (hsize : values.size = orig.size)
    (h : t.Sorting orig lo hi values) (hx : t.step path values = some x) :
    ∃ values' t', Steps orig lo hi t values x values' t' := by
  -- induction on the task, whose step is its own or one of its two tasks
  induction t generalizing path lo hi x with
  | call left right =>
    cases path with
    | nil =>
      cases hx
      exact sorting_call hmax hsize h
    | cons b path => cases hx
  | taskwait left mid right first second ih1 ih2 =>
    rcases path with - | ⟨_ | _, path⟩
    · obtain ⟨rfl, rfl, rfl⟩ := step_taskwait hx
      exact sorting_merge hsize h
    · obtain ⟨rfl, rfl, hs, hlm, hmr, h1, h2⟩ := h
      rw [step_first] at hx
      obtain ⟨y, hy, rfl⟩ := Option.map_eq_some_iff.mp hx
      obtain ⟨values', t', rfl, hsize', hout, hsort, hrank⟩ := ih1 h1 hy
      refine ⟨values', _, rfl, hsize', fun i hi => hout i (by omega), ?_, ?_⟩
      · exact ⟨rfl, rfl, hs, hlm, hmr, hsort, h2.congr fun i hi hi' => hout i (by omega)⟩
      · simp only [Task.rank]
        omega
    · obtain ⟨rfl, rfl, hs, hlm, hmr, h1, h2⟩ := h
      rw [step_second] at hx
      obtain ⟨y, hy, rfl⟩ := Option.map_eq_some_iff.mp hx
      obtain ⟨values', t', rfl, hsize', hout, hsort, hrank⟩ := ih2 h2 hy
      refine ⟨values', _, rfl, hsize', fun i hi => hout i (by omega), ?_, ?_⟩
      · exact ⟨rfl, rfl, hs, hlm, hmr, h1.congr fun i hi hi' => hout i (by omega), hsort⟩
      · simp only [Task.rank]
        omega
  | copy left temp =>
    cases path with
    | nil =>
      cases hx
      exact sorting_copy hsize h
    | cons b path => cases hx
  | done =>
    rw [step_done] at hx
    cases hx

end Invariant

section Confined

variable {orig values other : Values α} {lo hi : ℤ} {t : Task α}

def Task.Within : Task α → ℤ → ℤ → Prop
  | .call left right, lo, hi => left = lo ∧ right = hi ∧ 0 ≤ lo
  | .taskwait left mid right first second, lo, hi =>
    left = lo ∧ right = hi ∧ 0 ≤ lo ∧ lo ≤ mid ∧ mid < hi ∧ first.Within lo mid ∧
      second.Within (mid + 1) hi
  | .copy left temp, lo, hi => left = lo ∧ 0 ≤ lo ∧ lo + temp.length = hi + 1
  | .done, _, _ => True

theorem Task.Sorting.within (h : t.Sorting orig lo hi values) : t.Within lo hi := by
  induction t generalizing lo hi with
  | call left right => exact ⟨h.1, h.2.1, h.2.2.1.left_nonneg⟩
  | taskwait left mid right first second ih1 ih2 =>
    obtain ⟨hl, hr, hs, hlm, hmr, h1, h2⟩ := h
    exact ⟨hl, hr, hs.left_nonneg, hlm, hmr, ih1 h1, ih2 h2⟩
  | copy left temp => exact ⟨h.1, h.2.1.left_nonneg, h.2.2.1⟩
  | done => trivial

/-- The effect of a step is within the range, and the same on other values outside of it. -/
structure Local (lo hi : ℤ) (values other : Values α) (t' : Task α) (values' : Values α)
    (x : Option (Except Undefined (Values α × Task α))) : Prop where
  outside : ∀ i : ℕ, ¬ (lo ≤ i ∧ i ≤ hi) → values'.cells i = values.cells i
  inside : ∃ other', x = some (.ok (other', t')) ∧
    ∀ i : ℕ, lo ≤ i → i ≤ hi → other'.cells i = values'.cells i

omit [LinearOrder α] in
theorem sub_cons {t u : Task α} {b : Bool} {path : List Bool} (hu : t.sub (b :: path) = some u) :
    ∃ left mid right first second, t = .taskwait left mid right first second ∧
      (bif b then second else first).sub path = some u := by
  cases t with
  | taskwait left mid right first second =>
    refine ⟨left, mid, right, first, second, rfl, ?_⟩
    cases b with
    | false => rwa [Task.sub] at hu
    | true => rwa [Task.sub] at hu
  | call left right => simp [Task.sub] at hu
  | copy left temp => simp [Task.sub] at hu
  | done => simp [Task.sub] at hu

theorem Task.Sorting.sub {u : Task α} {path : List Bool} (h : t.Sorting orig lo hi values)
    (hu : t.sub path = some u) :
    ∃ lo' hi', lo ≤ lo' ∧ hi' ≤ hi ∧ u.Sorting orig lo' hi' values := by
  induction path generalizing t lo hi with
  | nil =>
    rw [Task.sub] at hu
    cases hu
    exact ⟨lo, hi, le_rfl, le_rfl, h⟩
  | cons b path ih =>
    obtain ⟨left, mid, right, first, second, rfl, hsub⟩ := sub_cons hu
    obtain ⟨rfl, rfl, -, hlm, hmr, h1, h2⟩ := h
    cases b with
    | false =>
      obtain ⟨lo', hi', hlo, hhi, hsorting⟩ := ih h1 hsub
      exact ⟨lo', hi', hlo, by omega, hsorting⟩
    | true =>
      obtain ⟨lo', hi', hlo, hhi, hsorting⟩ := ih h2 hsub
      exact ⟨lo', hi', by omega, hhi, hsorting⟩

end Confined

section Runs

variable {orig : Values α} {s s' : State α}

theorem step_ok {path : List Bool} {values : Values α} {t : Task α} (hs : s.undefined = none)
    (h : s.task.step path s.values = some (.ok (values, t))) :
    step s path = some ⟨values, t, none⟩ := by
  simp only [step, hs, h, if_true]

theorem exists_step {path : List Bool} (h : step s path = some s') :
    ∃ x, s.task.step path s.values = some x := by
  unfold step at h
  split_ifs at h
  split at h
  next => cases h
  next hx => exact ⟨_, hx⟩
  next hx => exact ⟨_, hx⟩

/-- What every run keeps on a vector whose calls do not overflow. -/
structure Sound (orig : Values α) (s : State α) : Prop where
  undefined : s.undefined = none
  size : s.values.size = orig.size
  sorting : s.task.Sorting orig 0 (orig.size - 1) s.values

theorem Sound.step (hmax : (orig.size : ℤ) ≤ 2 ^ 62 + 1024) (h : Sound orig s) {path : List Bool}
    (hs : step s path = some s') : Sound orig s' ∧ s'.task.rank < s.task.rank := by
  obtain ⟨x, hx⟩ := exists_step hs
  obtain ⟨values', t', rfl, hsize, -, hsorting, hrank⟩ := h.sorting.step hmax h.size hx
  rw [step_ok h.undefined hx] at hs
  cases hs
  exact ⟨⟨rfl, hsize.trans h.size, hsorting⟩, hrank⟩

theorem sound_of_reachable (hmax : (orig.size : ℤ) ≤ 2 ^ 62 + 1024)
    (h : (system orig).Reachable s) : Sound orig s := by
  apply h.invariant
  · exact ⟨rfl, rfl, rfl, rfl, splits_start (by omega) hmax, fun _ _ _ => rfl⟩
  · exact fun s path s' hs hstep => (hs.step hmax hstep).1

end Runs

end Concurrente.OmpMergesort
