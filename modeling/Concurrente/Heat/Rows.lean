import Concurrente.Heat.Scheme

/-!
# Loops over rows and cells

What the four versions of the simulation share: `uint64_t` indices, the loop over
the cells of a row, and the flag that a large change clears.
-/

namespace Concurrente.Heat

def u64 (n : ℕ) : ℕ := n % 2 ^ 64

def sub64 (a b : ℕ) : ℕ := u64 (a + (2 ^ 64 - u64 b))

theorem u64_eq (n : ℕ) : u64 n = n % 2 ^ 64 := rfl

theorem u64_succ (n : ℕ) : u64 (u64 n + 1) = u64 (n + 1) := by
  simp only [u64_eq]
  omega

theorem u64_of_lt {n : ℕ} (h : n < 2 ^ 64) : u64 n = n := Nat.mod_eq_of_lt h

theorem sub64_of_le {a b : ℕ} (h : b ≤ a) (ha : a < 2 ^ 64) : sub64 a b = a - b := by
  have hb : u64 b = b := u64_of_lt (by omega)
  rw [sub64, hb, u64]
  omega

/-- The values of a loop variable that counts from `lo` while it is below `hi`. -/
def loop (lo hi : ℕ) : List ℕ := List.range' lo (hi - lo)

@[simp] theorem mem_loop {lo hi n : ℕ} : n ∈ loop lo hi ↔ lo ≤ n ∧ n < hi := by
  simp only [loop, List.mem_range'_1]
  omega

theorem loop_nodup (lo hi : ℕ) : (loop lo hi).Nodup := List.nodup_range'

theorem loop_length (lo hi : ℕ) : (loop lo hi).length = hi - lo := by
  rw [loop, List.length_range']

theorem loop_cons {lo hi : ℕ} (h : lo < hi) : loop lo hi = lo :: loop (lo + 1) hi := by
  rw [loop, loop, ← List.range'_succ]
  congr 1
  omega

theorem loop_self (lo : ℕ) : loop lo lo = [] := by
  rw [loop, Nat.sub_self]
  rfl

theorem loop_append {lo mid hi : ℕ} (h : lo ≤ mid) (h' : mid ≤ hi) :
    loop lo mid ++ loop mid hi = loop lo hi := by
  have happend : List.range' lo (mid - lo) ++ List.range' (lo + (mid - lo)) (hi - mid) =
      List.range' lo (mid - lo + (hi - mid)) := List.range'_append_1
  rw [Nat.add_sub_cancel' h, show mid - lo + (hi - mid) = hi - lo by omega] at happend
  exact happend

-- The bounds are literals of 64 bits; nothing after this point computes with them.
attribute [irreducible] u64 sub64 loop

theorem flatMap_loop (f : ℕ → ℕ) {n : ℕ} (h : ∀ i < n, f i ≤ f (i + 1)) :
    f 0 ≤ f n ∧ (List.range n).flatMap (fun i => loop (f i) (f (i + 1))) = loop (f 0) (f n) := by
  induction n with
  | zero => exact ⟨le_rfl, (loop_self _).symm⟩
  | succ n ih =>
    obtain ⟨hle, heq⟩ := ih fun i hi => h i (Nat.lt_succ_of_lt hi)
    have hlast := h n (Nat.lt_succ_self n)
    refine ⟨hle.trans hlast, ?_⟩
    rw [List.range_succ, List.flatMap_append, heq, List.flatMap_singleton]
    exact loop_append hle hlast

/-- The values of `a` at the given indices are copied to `b`, one after another. -/
def copyAll {ι α : Type*} [DecidableEq ι] (a : ι → α) (indices : List ι) (b : ι → α) : ι → α :=
  indices.foldl (fun b i => Function.update b i (a i)) b

theorem copyAll_apply {ι α : Type*} [DecidableEq ι] (a : ι → α) (indices : List ι) (b : ι → α)
    (i : ι) : copyAll a indices b i = if i ∈ indices then a i else b i := by
  induction indices generalizing b with
  | nil => simp [copyAll]
  | cons k indices ih =>
    refine (ih (Function.update b k (a k))).trans ?_
    by_cases hk : i = k
    · subst hk
      simp
    · simp [hk]

/-- The operations that the programs perform on a `double`.  No law is assumed of them, so they may
round; those of the rationals are exact. -/
class Temperature (α : Type*) extends Zero α, NatCast α, Neg α, Add α, Sub α, Mul α, Div α,
    LT α where
  fabs : α → α
  decidableLT : DecidableLT α

instance : Temperature ℚ where
  fabs x := |x|
  decidableLT := inferInstance

attribute [reducible, instance] Temperature.decidableLT

instance four_atLeastTwo : Nat.AtLeastTwo 4 := ⟨by norm_num⟩

variable {α : Type*} [Temperature α]

/-- `calculate_mult_constant` of omp_mpi; the versions with threads compute the same in place. -/
def calculateMultConstant (thermalDiffusivity : α) (intervalDuration : ℕ)
    (cellsDimension : α) : α :=
  let diffTimesInterval := thermalDiffusivity * intervalDuration
  let cellArea := cellsDimension * cellsDimension
  diffTimesInterval / cellArea

/-- What all versions compute for a cell, in the order of their operations. -/
def stencil (multConstant epsilon : α) : Stencil α where
  update temperature up right down left :=
    (-4 * temperature + up + right + down + left) * multConstant + temperature
  large new old := Temperature.fabs (new - old) > epsilon

instance (multConstant epsilon : α) : DecidableRel (stencil multConstant epsilon).large :=
  fun new old => inferInstanceAs (Decidable (epsilon < Temperature.fabs (new - old)))

theorem stencil_eq (c epsilon : ℚ) : stencil c epsilon = exact c epsilon := by
  rw [stencil, exact, Stencil.mk.injEq]
  refine ⟨?_, rfl⟩
  funext temperature up right down left
  change (-4 * temperature + up + right + down + left) * c + temperature = _
  ring

omit [Temperature α]

def clearFlag (A : Stencil α) [DecidableRel A.large] (flag : Bool) (new old : α) : Bool :=
  if A.large new old then false else flag

theorem foldl_clearFlag {ι : Type*} (A : Stencil α) [DecidableRel A.large] (new old : ι → α)
    (cells : List ι) (flag : Bool) :
    cells.foldl (fun b i => clearFlag A b (new i) (old i)) flag = true ↔
      flag = true ∧ ∀ i ∈ cells, ¬ A.large (new i) (old i) := by
  induction cells generalizing flag with
  | nil => simp
  | cons i cells ih =>
    rw [List.foldl_cons, ih]
    simp only [clearFlag, List.mem_cons, forall_eq_or_imp]
    split_ifs with h
    · simp [h]
    · simp [h]

/-- The inner cells of a row, from left to right. -/
def rowCells (cols row : ℕ) : List Cell := (loop 1 (cols - 1)).map (Prod.mk row)

theorem mem_rowCells {cols row : ℕ} {i : Cell} :
    i ∈ rowCells cols row ↔ i.1 = row ∧ 1 ≤ i.2 ∧ i.2 + 1 < cols := by
  obtain ⟨r, k⟩ := i
  simp only [rowCells, List.mem_map, mem_loop, Prod.mk.injEq]
  constructor
  · rintro ⟨k, hk, rfl, rfl⟩
    omega
  · rintro ⟨rfl, hk⟩
    exact ⟨k, by omega, rfl, rfl⟩

variable {A : Stencil α} [DecidableRel A.large] {rows cols : ℕ} {M : Type*}
  {B : Buffers (A.scheme rows cols) M} {T : Cell → α} {j row : ℕ} {done : Set Cell} {m : M}

theorem sweeping_row (h : B.Sweeping T j done m) (h1 : 1 ≤ row) (h2 : row + 1 < rows)
    (flag : Bool) :
    B.Sweeping T j (done ∪ {i | i.1 = row})
        ((rowCells cols row).foldl (B.visit (clearFlag A)) (m, flag)).1 ∧
      (((rowCells cols row).foldl (B.visit (clearFlag A)) (m, flag)).2 = true ↔
        flag = true ∧ RowSettled (A.scheme rows cols) T j row) := by
  have hcells : ∀ i ∈ rowCells cols row, i ∈ (A.scheme rows cols).inner := by
    intro i hi
    obtain ⟨rfl, h3, h4⟩ := mem_rowCells.mp hi
    exact ⟨h1, h2, h3, h4⟩
  obtain ⟨hv, hf⟩ := h.visits (clearFlag A) _ flag hcells
  refine ⟨⟨hv.1, hv.2.of_inner ?_⟩, ?_⟩
  · rintro i ⟨-, -, h3, h4⟩ (hd | hd)
    · exact Or.inl hd
    · exact Or.inr (mem_rowCells.mpr ⟨hd, h3, h4⟩)
  · rw [hf, foldl_clearFlag]
    refine and_congr_right fun _ => ⟨fun hall k hk => ?_, fun hrow i hi => ?_⟩
    · exact hall (row, k) (mem_rowCells.mpr ⟨rfl, hk.2.2⟩)
    · obtain ⟨rfl, -, -⟩ := mem_rowCells.mp hi
      exact hrow i.2 (hcells i hi)

end Concurrente.Heat
