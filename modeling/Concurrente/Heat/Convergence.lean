import Concurrente.Heat.OmpPlate
import Concurrente.Heat.Serial
import Concurrente.Heat.Stability

/-!
# Equilibrium and bounds in the programs

The loops of omp_mpi and of serial on plates of any shape, with a stable constant:
they end, whatever the schedule, and the matrix after each state stays within the
bounds of the plate and keeps the order of plates.
-/

namespace Concurrente.Heat

namespace Omp

open Flat

variable {α : Type*} [Temperature α] {rows cols : ℕ} {R : Region α} {s : State α} {T : Cell → α}
  {j : ℕ}

/-- The steps that are left when state `k` is the last. -/
def Rank (rows cols : ℕ) (R : Region α) (hs : rows * cols < 2 ^ 61) (T : Cell → α) (k n : ℕ)
    (s : State α) : Prop :=
  ∃ j, PhaseInv rows cols R hs T j s ∧ n = (k - j) * (rows + 4) + s.phase.rest rows

theorem PhaseInv.not_settled (hs : rows * cols < 2 ^ 61) (h : PhaseInv rows cols R hs T j s)
    {i : ℕ} (hi : i < j) : ¬ (scheme rows cols R).Settled T i := by
  unfold PhaseInv at h
  split at h
  · exact h.2.2 i hi
  · exact h.2.2.1 i hi
  · exact h.2.2.1 i hi
  · exact h.2.2.1 i hi

theorem terminates (hr : 1 ≤ rows) (hc : 1 ≤ cols) (hs : rows * cols < 2 ^ 61) (file : List α)
    {k : ℕ} (hk : (scheme rows cols R).Equilibrium (setPlateMatrix rows cols file).grid k) :
    (system R (setPlateMatrix rows cols file)).Terminates := by
  apply System.terminates_of_rank
    (I := Rank rows cols R hs (setPlateMatrix rows cols file).grid k)
  · exact ⟨0, phaseInv_start hs (setPlateMatrix_ok hs file) (setPlateMatrix_border_eqOn hs file),
      rfl⟩
  · rintro n s a t ⟨j, hj, rfl⟩ ha
    obtain ⟨j', hj', -, hsame | hnext⟩ := hj.step hs hr hc ha
    · obtain ⟨rfl, hlt⟩ := hsame
      exact ⟨_, Nat.add_lt_add_left hlt _, j', hj', rfl⟩
    · obtain ⟨rfl, hp⟩ := hnext
      refine ⟨_, ?_, j + 1, hj', rfl⟩
      have hlt : ¬ k - 1 < j + 1 := fun hlt => hj'.not_settled hs hlt hk.1.2
      have hsplit : k - j = (k - (j + 1)) + 1 := by omega
      rw [hp, hsplit, Nat.add_mul, Nat.one_mul]
      simp only [Phase.rest]
      omega

theorem left_of_stuck (ht : 1 ≤ R.threads) {p : PlateMatrix α} (h : (system R p).Stuck s) :
    s.phase = .left := by
  cases hp : s.phase with
  | single => exact absurd (h .advance) (by simp [system, equilibratePlate, hp])
  | work remaining copies =>
    cases remaining with
    | nil => exact absurd (h .advance) (by simp [system, equilibratePlate, hp])
    | cons row remaining =>
      exact absurd (h (.row 0 row))
        (by simp [system, equilibratePlate, hp, Nat.pos_of_ne_zero (by omega : R.threads ≠ 0)])
  | test => exact absurd (h .advance) (by simp [system, equilibratePlate, hp])
  | left => rfl

theorem count_grid (hr : 1 ≤ rows) (hc : 1 ≤ cols) (hs : rows * cols < 2 ^ 61) {file : List α}
    {n : ℕ} (h : ((system R (setPlateMatrix rows cols file)).count countsState).Reachable (s, n))
    (hw : ∀ remaining copies, s.phase ≠ .work remaining copies) :
    Set.EqOn s.plateMatrix.grid
      ((scheme rows cols R).state (setPlateMatrix rows cols file).grid n)
      (scheme rows cols R).dom := by
  have hinv : ∃ j, PhaseInv rows cols R hs (setPlateMatrix rows cols file).grid j s ∧
      n = j + s.phase.begun := by
    apply h.invariant (I := fun x => ∃ j,
      PhaseInv rows cols R hs (setPlateMatrix rows cols file).grid j x.1 ∧
        x.2 = j + x.1.phase.begun)
    · exact ⟨0, phaseInv_start hs (setPlateMatrix_ok hs file)
        (setPlateMatrix_border_eqOn hs file), rfl⟩
    · rintro ⟨s, n⟩ a ⟨t, m⟩ ⟨j, hj, hn⟩ ha
      obtain ⟨ha, hm⟩ := System.count_step ha
      obtain ⟨j', hj', hcount, -⟩ := hj.step hs hr hc ha
      refine ⟨j', hj', ?_⟩
      dsimp only at hn hm hcount ⊢
      rw [hm, hcount, hn]
      split <;> rfl
  obtain ⟨j, hj, rfl⟩ := hinv
  cases hp : s.phase with
  | single =>
    simp only [PhaseInv, hp] at hj
    exact hj.1.2.back_eq
  | work remaining copies => exact absurd hp (hw remaining copies)
  | test =>
    simp only [PhaseInv, hp] at hj
    exact hj.1.2.front_eq (Set.subset_univ _)
  | left =>
    simp only [PhaseInv, hp] at hj
    exact hj.1.2.front_eq (Set.subset_univ _)

theorem finishes (hr : 1 ≤ rows) (hc : 1 ≤ cols) (hs : rows * cols < 2 ^ 61)
    (ht : 1 ≤ R.threads) (file : List α) {k : ℕ}
    (hk : (scheme rows cols R).Equilibrium (setPlateMatrix rows cols file).grid k) :
    (system R (setPlateMatrix rows cols file)).Finishes (fun s => s.phase = .left) fun s =>
      Set.EqOn s.plateMatrix.grid
        ((scheme rows cols R).state (setPlateMatrix rows cols file).grid k)
        (scheme rows cols R).dom := by
  refine ⟨terminates hr hc hs file hk, fun s hreach => ⟨left_of_stuck ht, fun hp => ?_⟩⟩
  obtain ⟨j, hj⟩ := reachable_phaseInv hs hr hc hreach
  simp only [PhaseInv, hp] at hj
  obtain ⟨hsw, -, hn, hset⟩ := hj
  rw [hk.unique (Scheme.equilibrium_succ hset hn)]
  exact hsw.2.front_eq (Set.subset_univ _)

end Omp

namespace Serial

open ByRows

variable {plate : Plate} {c epsilon : ℚ} {rows cols area : ℕ} {cells T : Cell → ℚ} {s : State}

/-- The loop on a matrix of any shape; of `plate` it reads the constants only. -/
def simulation (plate : Plate) (epsilon : ℚ) (p : PlateMatrix) : System State Unit where
  start := ⟨p, 0, false, 0⟩
  step s _ := equilibratePlate plate epsilon s

def loaded (rows cols : ℕ) (cells : Cell → ℚ) : PlateMatrix :=
  initAuxiliary ⟨rows, cols, cells, fun _ => 0⟩

/-- `mult_constant` is the rational number `c`. -/
def HasConstant (plate : Plate) (c : ℚ) : Prop :=
  ∃ area, cellArea plate = some area ∧ multConstant plate area = some c

/-- The constants of a plate with another shape. -/
def reshape (plate : Plate) (rows cols : ℕ) (hr : 3 ≤ rows) (hc : 1 ≤ cols)
    (hrl : rows < 2 ^ 61) (hcl : cols < 2 ^ 61) : Plate :=
  { plate with
    rows := rows, cols := cols, three_le_rows := hr, cols_pos := hc, rows_lt := hrl,
    cols_lt := hcl }

theorem simulation_reshape {hr : 3 ≤ rows} {hc : 1 ≤ cols} {hrl : rows < 2 ^ 61}
    {hcl : cols < 2 ^ 61} : simulation plate epsilon (loaded rows cols cells) =
      (program (reshape plate rows cols hr hc hrl hcl) epsilon cells).toSystem := by
  unfold simulation program loaded setPlateMatrix
  rfl

theorem simulation_sweeping (hk : HasConstant plate c)
    (h : (program plate epsilon cells).Reachable s) :
    (arrays plate c 0).Sweeping cells s.states ∅ (setAuxiliary s.plateMatrix) := by
  obtain ⟨area, harea, hm⟩ := hk
  apply h.invariant (I := fun s =>
    (arrays plate c 0).Sweeping cells s.states ∅ (setAuxiliary s.plateMatrix))
  · exact sweeping_start cells
  · intro s a t hsw ha
    simp only [program, equilibratePlate] at ha
    split at ha
    · cases ha
    · obtain ⟨x, hx, hx', -⟩ := updateRows_spec _ (Or.inl hm) le_rfl hsw
      rw [updatePlate_eq harea hx, Option.map_some] at ha
      cases ha
      exact ⟨setAuxiliary_ok hx'.1, hx'.2.swap (Set.subset_univ _)⟩

theorem loaded_narrow (hr : 1 ≤ rows) (hr' : rows ≤ 2) :
    Set.EqOn (loaded rows cols cells).auxiliaryMatrix cells (heat rows cols c epsilon).dom := by
  rintro ⟨row, col⟩ ⟨hrow, hcol⟩
  have hlast : sub64 rows 1 = rows - 1 := sub64_of_le hr (by omega)
  have hmem : (row, col) ∈ borderCells rows cols := by
    simp only [borderCells, hlast, List.mem_append, List.mem_map, mem_loop, Prod.mk.injEq]
    by_cases hz : row = 0
    · exact Or.inl (Or.inl (Or.inl ⟨col, ⟨Nat.zero_le _, hcol⟩, hz.symm, rfl⟩))
    · exact Or.inl (Or.inl (Or.inr ⟨col, ⟨Nat.zero_le _, hcol⟩, by simp only at hrow; omega, rfl⟩))
  have heq : loaded rows cols cells =
      copyCells ⟨rows, cols, cells, fun _ => 0⟩ (borderCells rows cols) := by
    simp only [loaded, initAuxiliary, copyCells_cols, copyCells_append, borderCells]
  rw [heq]
  simp only [copyCells]
  rw [copyAll_apply, if_pos hmem]

theorem updateRows_flat {p : PlateMatrix} (hr : 1 ≤ p.rows) (hr' : p.rows ≤ 2) (m : Option ℚ) :
    updateRows m p = some (p, 0) := by
  have hl : loop 1 (sub64 p.rows 1) = [] := by
    rw [List.eq_nil_iff_forall_not_mem]
    intro k hk
    rw [mem_loop, sub64_of_le hr (by omega)] at hk
    omega
  rw [updateRows, hl]
  rfl

/-- Without inner rows both matrices keep the cells, and a state reaches equilibrium. -/
structure NarrowInv (rows cols : ℕ) (cells : Cell → ℚ) (epsilon : ℚ) (s : State) : Prop where
  rows_eq : s.plateMatrix.rows = rows
  matrix : Set.EqOn s.plateMatrix.matrix cells (heat rows cols 0 0).dom
  auxiliary : Set.EqOn s.plateMatrix.auxiliaryMatrix cells (heat rows cols 0 0).dom
  reached : s.reachedEquilibrium = true → s.states ≠ 0
  running : 0 ≤ epsilon → s.reachedEquilibrium = false → s.states = 0

theorem narrow_step (harea : cellArea plate = some area) (hr : 1 ≤ rows) (hr' : rows ≤ 2)
    (h : NarrowInv rows cols cells epsilon s) (hf : s.reachedEquilibrium = false) :
    equilibratePlate plate epsilon s = some ⟨setAuxiliary s.plateMatrix, u64 (s.kStates + 1),
      if (0 : ℚ) > epsilon then false else true, s.states + 1⟩ := by
  have hrows : (setAuxiliary s.plateMatrix).rows = rows := h.rows_eq
  have hu : updateRows (multConstant plate area) (setAuxiliary s.plateMatrix) =
      some (setAuxiliary s.plateMatrix, 0) :=
    updateRows_flat (by omega) (by omega) _
  simp only [equilibratePlate, hf, Bool.false_eq_true, if_false, updatePlate_eq harea hu,
    Option.map_some]

theorem narrow_inv (harea : cellArea plate = some area) (hr : 1 ≤ rows) (hr' : rows ≤ 2)
    (h : (simulation plate epsilon (loaded rows cols cells)).Reachable s) :
    NarrowInv rows cols cells epsilon s := by
  apply h.invariant
  · exact ⟨rfl, fun _ _ => rfl, loaded_narrow hr hr', fun hf => absurd hf Bool.false_ne_true,
      fun _ _ => rfl⟩
  · intro s a t hi ha
    simp only [simulation] at ha
    cases hf : s.reachedEquilibrium with
    | false =>
      rw [narrow_step harea hr hr' hi hf] at ha
      cases ha
      refine ⟨hi.rows_eq, hi.auxiliary, hi.matrix, fun _ => Nat.succ_ne_zero _, ?_⟩
      intro he hfalse
      simp [not_lt.mpr he] at hfalse
    | true => simp [equilibratePlate, hf] at ha

theorem state_narrow (hr' : rows ≤ 2) (j : ℕ) : (heat rows cols c epsilon).state T j = T := by
  induction j with
  | zero => rfl
  | succ j ih =>
    rw [Scheme.state_succ, ih]
    funext i
    apply Scheme.next_of_notMem
    intro hi
    obtain ⟨h1, h2, -, -⟩ := mem_inner.mp (show (i.1, i.2) ∈ _ from hi)
    omega

theorem narrow_kStates (harea : cellArea plate = some area) (hr : 1 ≤ rows) (hr' : rows ≤ 2)
    (he : 0 ≤ epsilon) (h : (simulation plate epsilon (loaded rows cols cells)).Reachable s) :
    s.kStates = if s.reachedEquilibrium then 1 else 0 := by
  apply h.invariant'
  · rfl
  · intro s a t hs hk ha
    simp only [simulation] at ha
    cases hf : s.reachedEquilibrium with
    | false =>
      rw [hf] at hk
      rw [narrow_step harea hr hr' (narrow_inv harea hr hr' hs) hf, hk] at ha
      cases ha
      simp only [not_lt.mpr he, if_false, if_true]
      exact u64_of_lt (by norm_num)
    | true => simp [equilibratePlate, hf] at ha

theorem simulation_matrix (hk : HasConstant plate c) (hr : 1 ≤ rows) (hc : 1 ≤ cols)
    (hrl : rows < 2 ^ 61) (hcl : cols < 2 ^ 61)
    (h : (simulation plate epsilon (loaded rows cols cells)).Reachable s) :
    Set.EqOn s.plateMatrix.matrix ((heat rows cols c 0).state cells s.states)
      (heat rows cols c 0).dom := by
  by_cases h3 : 3 ≤ rows
  · have hr' : (program (reshape plate rows cols h3 hc hrl hcl) epsilon cells).Reachable s := by
      rwa [simulation_reshape] at h
    have hk' : HasConstant (reshape plate rows cols h3 hc hrl hcl) c := hk
    exact (simulation_sweeping hk' hr').2.back_eq
  · obtain ⟨area, harea, -⟩ := hk
    rw [state_narrow (by omega)]
    exact (narrow_inv harea hr (by omega) h).matrix

theorem narrow_finishes (harea : cellArea plate = some area) (hr : 1 ≤ rows) (hr' : rows ≤ 2)
    (he : 0 ≤ epsilon) : (simulation plate epsilon (loaded rows cols cells)).Finishes
      (fun s => s.reachedEquilibrium = true)
      fun s => Set.EqOn s.plateMatrix.matrix cells (heat rows cols 0 0).dom := by
  refine ⟨⟨fun s => if s.reachedEquilibrium then 0 else 1, fun s a t hs ha => ?_⟩,
    fun s hs => ⟨fun hst => ?_, fun _ => (narrow_inv harea hr hr' hs).matrix⟩⟩
  · simp only [simulation] at ha
    cases hf : s.reachedEquilibrium with
    | false =>
      rw [narrow_step harea hr hr' (narrow_inv harea hr hr' hs) hf] at ha
      cases ha
      simp [not_lt.mpr he, hf]
    | true => simp [equilibratePlate, hf] at ha
  · by_contra hf
    have hstep := narrow_step harea hr hr' (narrow_inv harea hr hr' hs) (Bool.eq_false_iff.mpr hf)
    exact absurd (hst ()) (by simp [simulation, hstep])

theorem simulation_finishes (hk : HasConstant plate c) (hr : 1 ≤ rows) (hc : 1 ≤ cols)
    (hrl : rows < 2 ^ 61) (hcl : cols < 2 ^ 61) (he : 0 ≤ epsilon) {k : ℕ}
    (heq : (heat rows cols c epsilon).Equilibrium cells k) :
    (simulation plate epsilon (loaded rows cols cells)).Finishes
      (fun s => s.reachedEquilibrium = true)
      fun s => Set.EqOn s.plateMatrix.matrix ((heat rows cols c epsilon).state cells k)
        (heat rows cols c epsilon).dom := by
  by_cases h3 : 3 ≤ rows
  · obtain ⟨area, harea, hm⟩ := hk
    have hw : Works (reshape plate rows cols h3 hc hrl hcl) c := ⟨area, harea, Or.inl hm⟩
    obtain ⟨hterm, hends⟩ := (iterates hw he cells).finishesWith heq
    rw [← simulation_reshape] at hterm hends
    exact ⟨hterm, fun s hs => ⟨(hends s hs).1, fun hl => ((hends s hs).2 hl).2⟩⟩
  · obtain ⟨area, harea, -⟩ := hk
    rw [state_narrow (by omega)]
    exact narrow_finishes harea hr (by omega) he

end Serial

/-- With a stable constant and a positive threshold every plate has an equilibrium, and
both loops end with it: omp_mpi on every plate whose cells fit the address space, for any
team and schedule, and serial on every plate whose rows do. -/
theorem equilibrium_loops_end (rows cols : ℕ) (hr : 1 ≤ rows) (hc : 1 ≤ cols) {c epsilon : ℚ}
    (h0 : 0 ≤ c) (h1 : c ≤ 1 / 4) (he : 0 < epsilon) :
    (∀ T, ∃ k, (heat rows cols c epsilon).Equilibrium T k) ∧
    (∀ (threads : ℕ) (file : List ℚ), rows * cols < 2 ^ 61 → 1 ≤ threads →
      (Omp.system ⟨threads, c, epsilon⟩ (Flat.setPlateMatrix rows cols file)).Finishes
        (fun s => s.phase = .left) fun s =>
          ∃ k, (heat rows cols c epsilon).Equilibrium (Flat.setPlateMatrix rows cols file).grid k ∧
            Set.EqOn s.plateMatrix.grid
              ((heat rows cols c epsilon).state (Flat.setPlateMatrix rows cols file).grid k)
              (heat rows cols c epsilon).dom) ∧
    ∀ (plate : ByRows.Plate) (cells : Cell → ℚ), rows < 2 ^ 61 → cols < 2 ^ 61 →
      Serial.HasConstant plate c →
      (Serial.simulation plate epsilon (Serial.loaded rows cols cells)).Finishes
        (fun s => s.reachedEquilibrium = true) fun s =>
          ∃ k, (heat rows cols c epsilon).Equilibrium cells k ∧
            Set.EqOn s.plateMatrix.matrix ((heat rows cols c epsilon).state cells k)
              (heat rows cols c epsilon).dom := by
  have heq : ∀ T, ∃ k, (heat rows cols c epsilon).Equilibrium T k := by
    intro T
    -- the heat loses a fixed part of its changes with every state
    have hset : ∃ j, (heat rows cols c epsilon).Settled T j := heat_converges h0 h1 he hr T
    obtain ⟨j, hj⟩ := hset
    exact Scheme.exists_equilibrium hj
  refine ⟨heq, fun threads file hs ht => ?_, fun plate cells hrl hcl hk => ?_⟩
  · obtain ⟨k, hk⟩ := heq (Flat.setPlateMatrix rows cols file).grid
    have hfin := Omp.finishes (R := ⟨threads, c, epsilon⟩) hr hc hs ht file
      (by rw [Omp.scheme_eq]; exact hk)
    rw [Omp.scheme_eq] at hfin
    exact ⟨hfin.1, fun s hs => ⟨(hfin.2 s hs).1, fun hl => ⟨k, hk, (hfin.2 s hs).2 hl⟩⟩⟩
  · obtain ⟨k, hk'⟩ := heq cells
    obtain ⟨hterm, hends⟩ := Serial.simulation_finishes hk hr hc hrl hcl he.le hk'
    exact ⟨hterm, fun s hs => ⟨(hends s hs).1, fun hl => ⟨k, hk', (hends s hs).2 hl⟩⟩⟩

/-- The constant 1/4, on the plate with one inner cell. -/
theorem equilibrium_loops_end_quarter :
    (Omp.system ⟨2, 1 / 4, 1 / 100⟩ (Flat.setPlateMatrix 3 3 Omp.hotCell)).Terminates :=
  ((equilibrium_loops_end 3 3 (by norm_num) (by norm_num) (by norm_num) le_rfl
    (by norm_num)).2.1 2 Omp.hotCell (by norm_num) (by norm_num)).1

/-- A program that may have the cells `m` after `n` states from the cells `T`. -/
abbrev After := (Cell → ℚ) → ℕ → (Cell → ℚ) → Prop

/-- No state leaves the bounds of the initial plate. -/
def Bounded (dom : Set Cell) (after : After) : Prop :=
  ∀ T n m lo hi, (∀ i ∈ dom, lo ≤ T i ∧ T i ≤ hi) → after T n m → ∀ i ∈ dom, lo ≤ m i ∧ m i ≤ hi

/-- After the same number of states two plates are in the order in which they began. -/
def KeepsOrder (dom : Set Cell) (after : After) : Prop :=
  ∀ T T' n m m', (∀ i ∈ dom, T i ≤ T' i) → after T n m → after T' n m' → ∀ i ∈ dom, m i ≤ m' i

/-- omp_mpi between two states, after the loop over the rows and before the next. -/
def Omp.after (rows cols : ℕ) (c : ℚ) : After := fun T n m =>
  ∃ (R : Omp.Region ℚ) (file : List ℚ) (s : Omp.State ℚ), R.multConstant = c ∧
    ((Omp.system R (Flat.setPlateMatrix rows cols file)).count Omp.countsState).Reachable (s, n) ∧
    (∀ remaining copies, s.phase ≠ .work remaining copies) ∧
    T = (Flat.setPlateMatrix rows cols file).grid ∧ m = s.plateMatrix.grid

def Serial.after (rows cols : ℕ) (c : ℚ) : After := fun T n m =>
  ∃ (plate : ByRows.Plate) (epsilon : ℚ) (s : Serial.State), Serial.HasConstant plate c ∧
    (Serial.simulation plate epsilon (Serial.loaded rows cols T)).Reachable s ∧
    s.states = n ∧ m = s.plateMatrix.matrix

section Bounds

variable {rows cols : ℕ} {c : ℚ} {after : After}

/-- The program computes the states of the recurrence. -/
def Follows (rows cols : ℕ) (c : ℚ) (after : After) : Prop :=
  ∀ T n m, after T n m → Set.EqOn m ((heat rows cols c 0).state T n) (heat rows cols c 0).dom

theorem Follows.bounded (h : Follows rows cols c after) (h0 : 0 ≤ c) (h1 : c ≤ 1 / 4) :
    Bounded {i | i.1 < rows ∧ i.2 < cols} after := by
  intro T n m lo hi hT hm i hi'
  rw [h T n m hm hi']
  exact heat_state_bounds h0 h1 hT n i hi'

theorem Follows.keepsOrder (h : Follows rows cols c after) (h0 : 0 ≤ c) (h1 : c ≤ 1 / 4) :
    KeepsOrder {i | i.1 < rows ∧ i.2 < cols} after := by
  intro T T' n m m' hT hm hm' i hi
  rw [h T n m hm hi, h T' n m' hm' hi]
  exact heat_state_mono h0 h1 hT n i hi

theorem Omp.follows (hr : 1 ≤ rows) (hc : 1 ≤ cols) (hs : rows * cols < 2 ^ 61) :
    Follows rows cols c (Omp.after rows cols c) := by
  rintro T n m ⟨R, file, s, rfl, hreach, hw, rfl, rfl⟩
  have hgrid := Omp.count_grid hr hc hs hreach hw
  rw [Omp.scheme_eq] at hgrid
  exact hgrid

theorem Serial.follows (hr : 1 ≤ rows) (hc : 1 ≤ cols) (hrl : rows < 2 ^ 61)
    (hcl : cols < 2 ^ 61) : Follows rows cols c (Serial.after rows cols c) := by
  rintro T n m ⟨plate, epsilon, s, hk, hreach, rfl, rfl⟩
  exact Serial.simulation_matrix hk hr hc hrl hcl hreach

/-- With a stable constant the temperatures stay within those of the initial plate, and
plates keep their order, in omp_mpi for any teams and schedules and in serial. -/
theorem temperatures_bounded_ordered (rows cols : ℕ) (hr : 1 ≤ rows) (hc : 1 ≤ cols)
    (h0 : 0 ≤ c) (h1 : c ≤ 1 / 4) :
    (rows * cols < 2 ^ 61 →
      Bounded {i | i.1 < rows ∧ i.2 < cols} (Omp.after rows cols c) ∧
        KeepsOrder {i | i.1 < rows ∧ i.2 < cols} (Omp.after rows cols c)) ∧
    (rows < 2 ^ 61 → cols < 2 ^ 61 →
      Bounded {i | i.1 < rows ∧ i.2 < cols} (Serial.after rows cols c) ∧
        KeepsOrder {i | i.1 < rows ∧ i.2 < cols} (Serial.after rows cols c)) := by
  refine ⟨fun hs => ?_, fun hrl hcl => ?_⟩
  · have h := Omp.follows (c := c) hr hc hs
    exact ⟨h.bounded h0 h1, h.keepsOrder h0 h1⟩
  · have h := Serial.follows (c := c) hr hc hrl hcl
    exact ⟨h.bounded h0 h1, h.keepsOrder h0 h1⟩

theorem temperatures_bounded_ordered_quarter :
    Bounded {i | i.1 < 3 ∧ i.2 < 4} (Omp.after 3 4 (1 / 4)) ∧
      KeepsOrder {i | i.1 < 3 ∧ i.2 < 4} (Serial.after 3 4 (1 / 4)) := by
  obtain ⟨h, h'⟩ := temperatures_bounded_ordered (c := 1 / 4) 3 4 (by norm_num) (by norm_num)
    (by norm_num) le_rfl
  exact ⟨(h (by norm_num)).1, (h' (by norm_num) (by norm_num)).2⟩

end Bounds

end Concurrente.Heat
