import Concurrente.Heat.Memory.Accesses

/-!
# Which plates are safe

The accesses of loading and of one state touch every cell of the plate, at its index
modulo `2 ^ 64`; when the number of cells wraps around, one of them is the first cell
behind the block.  On the other plates a run in checked memory is a run of the program
without checks.
-/

namespace Concurrente.Heat.Memory

open Flat (cellIndex)
open OmpMpi (ErrorCode)

section Fits

variable {rows cols row col : ℕ}

theorem index_lt (hf : rows * cols < 2 ^ 64) (hr : row < rows) (hc : col < cols) :
    cellIndex cols row col < rows * cols := by
  have := Flat.index_lt hr hc
  unfold cellIndex
  rwa [u64_of_lt (by omega)]

theorem cellIndex_of_lt (hf : rows * cols < 2 ^ 64) (hr : row < rows) (hc : col < cols) :
    cellIndex cols row col = row * cols + col := by
  have := Flat.index_lt hr hc
  exact u64_of_lt (by omega)

theorem u64_mul_eq (cols row : ℕ) : u64 (row * cols) = cellIndex cols row 0 := rfl

theorem borderSafe_of_fits (h : Fits rows cols) (hrl : rows < 2 ^ 64) (hcl : cols < 2 ^ 64) :
    BorderSafe rows cols (rows * cols) := by
  obtain ⟨hr, hc, hf⟩ := h
  have hlast : sub64 rows 1 = rows - 1 := sub64_of_le hr hrl
  have hpos : ∀ row, 1 ≤ row → row < sub64 rows 1 → 1 ≤ cols := by
    intro row h1 h2
    omega
  refine ⟨fun col hcol => ?_, fun col hcol => ?_, fun row h1 h2 => ?_, fun row h1 h2 => ?_⟩
  · exact hcol.trans_le (Nat.le_mul_of_pos_left cols hr)
  · exact index_lt hf (by omega) hcol
  · exact index_lt hf (by omega) (hpos row h1 h2)
  · have := hpos row h1 h2
    rw [sub64_of_le this hcl]
    exact index_lt hf (by omega) (by omega)

theorem cellSafe_of_fits (hf : rows * cols < 2 ^ 64) (hr : 1 ≤ row) (hr' : row + 1 < rows)
    (hc : 1 ≤ col) (hc' : col + 1 < cols) : CellSafe cols (rows * cols) row col := by
  have hrows : rows < 2 ^ 64 := (Nat.le_mul_of_pos_right rows (by omega)).trans_lt hf
  have hself := cellIndex_of_lt hf (show row < rows by omega) (show col < cols by omega)
  have hright := Flat.index_lt (show row < rows by omega) hc'
  refine ⟨index_lt hf (by omega) (by omega), ?_, ?_, ?_, ?_⟩
  · rw [sub64_of_le hr (by omega)]
    exact index_lt hf (by omega) (by omega)
  · rw [hself, u64_of_lt (by omega)]
    exact hright
  · rw [u64_of_lt (by omega)]
    exact index_lt hf hr' (by omega)
  · rw [hself, sub64_of_le (by omega) (by omega)]
    omega

theorem readSafe_of_lt {α : Type} (file : List α) : ReadSafe rows cols (rows * cols) file := by
  intro row hrow i hi
  exact Flat.index_lt hrow (by omega)

end Fits

theorem exists_cell {rows cols : ℕ} (hc : 1 ≤ cols)
    (h : 2 ^ 64 ≤ rows * cols) : ∃ row col, row < rows ∧ col < cols ∧
      cellIndex cols row col = u64 (rows * cols) := by
  have hlt : u64 (rows * cols) < 2 ^ 64 := by
    rw [u64_eq]
    exact Nat.mod_lt _ (by norm_num)
  refine ⟨u64 (rows * cols) / cols, u64 (rows * cols) % cols, ?_, Nat.mod_lt _ hc, ?_⟩
  · exact Nat.div_lt_of_lt_mul ((hlt.trans_le h).trans_eq (Nat.mul_comm rows cols))
  · unfold cellIndex
    rw [Nat.mul_comm, Nat.div_add_mod, u64_of_lt hlt]

theorem fits_of_safe {rows cols : ℕ} (hrl : rows < 2 ^ 64) (hcl : cols < 2 ^ 64)
    (hb : BorderSafe rows cols (u64 (rows * cols)))
    (hi : ∀ row, 1 ≤ row → row + 1 < rows → ∀ col, 1 ≤ col → col + 1 < cols →
      CellSafe cols (u64 (rows * cols)) row col) : Fits rows cols := by
  by_cases hr : rows = 0
  · -- no row: the loops over the border still have a first round
    subst hr
    by_cases hc : cols = 0
    · subst hc
      have := hb.firstCol 1 le_rfl (by rw [sub64, u64, u64]; norm_num)
      rw [u64_of_lt (by norm_num)] at this
      omega
    · have := hb.firstRow 0 (by omega)
      rw [Nat.zero_mul, u64_of_lt (by norm_num)] at this
      omega
  have hlast : sub64 rows 1 = rows - 1 := sub64_of_le (by omega) hrl
  by_cases hc : cols = 0
  · subst hc
    refine ⟨by omega, Or.inr ?_, by omega⟩
    by_contra h3
    have hfirst := hb.firstCol 1 le_rfl (by omega)
    simp only [Nat.mul_zero, lt_irrefl] at hfirst
  have hlastCol : sub64 cols 1 = cols - 1 := sub64_of_le (by omega) hcl
  refine ⟨by omega, Or.inl (by omega), ?_⟩
  by_contra hlt
  obtain ⟨row, col, hrow, hcol, hcell⟩ := exists_cell (show 1 ≤ cols by omega) (not_lt.mp hlt)
  have hout : ¬ cellIndex cols row col < u64 (rows * cols) := by omega
  apply hout
  by_cases hz : row = 0
  · have := hb.firstRow col hcol
    subst hz
    rwa [cellIndex, Nat.zero_mul, Nat.zero_add, u64_of_lt (by omega)]
  by_cases hl : row = rows - 1
  · have := hb.lastRow col hcol
    rwa [hlast, ← hl] at this
  by_cases hcz : col = 0
  · have := hb.firstCol row (by omega) (by omega)
    rwa [u64_mul_eq, ← hcz] at this
  by_cases hcl' : col = cols - 1
  · have := hb.lastCol row (by omega) (by omega)
    rwa [hlastCol, ← hcl'] at this
  · exact (hi row (by omega) (by omega) col (by omega) (by omega)).self

section Runs

variable {R : Omp.Region ℚ} {s s' : State} {t : Omp.State ℚ}

/-- The checked program is where the other one is, and has not failed; while the loop over
the rows runs, only inner rows are left. -/
structure Sound (rows cols : ℕ) (s : State) (t : Omp.State ℚ) : Prop where
  holds : Holds (rows * cols) t.plateMatrix s.plateMatrix
  rows_eq : t.plateMatrix.rows = rows
  cols_eq : t.plateMatrix.cols = cols
  kStates : s.kStates = t.kStates
  equilibratedPlate : s.equilibratedPlate = t.equilibratedPlate
  phase : s.phase = t.phase
  fault : s.fault = none
  inner : ∀ remaining copies, t.phase = .work remaining copies →
    ∀ row ∈ remaining, 1 ≤ row ∧ row + 1 < rows

theorem equilibrateRow_ok {rows cols : ℕ} (h : Fits rows cols) (hcl : cols < 2 ^ 64)
    {x : PlateMatrix ℚ × Bool} {z : Flat.PlateMatrix ℚ × Bool}
    (hx : HoldsBoth (rows * cols) z x) (hz : z.1.cols = cols) {row : ℕ} (hr : 1 ≤ row)
    (hr' : row + 1 < rows) : ∃ y, equilibrateRow R.multConstant R.epsilon x row = .ok y ∧
      HoldsBoth (rows * cols) (Flat.equilibrateRow R.multConstant R.epsilon z row) y := by
  apply (equilibrateRow_checks hx row).exists_ok
  rintro col hc hc'
  have hcols : 1 ≤ cols := h.2.1.resolve_right (by omega)
  rw [hz, sub64_of_le hcols hcl] at hc'
  rw [hz]
  exact cellSafe_of_fits h.2.2 hr hr' hc (by omega)

theorem Sound.row {rows cols : ℕ} (h : Sound rows cols s t) {remaining : List ℕ}
    {copies : ℕ → Bool} (hphase : t.phase = .work remaining copies) (thread row : ℕ)
    {y : PlateMatrix ℚ × Bool} {z : Flat.PlateMatrix ℚ × Bool} (hboth : HoldsBoth (rows * cols) z y)
    (hr : z.1.rows = rows) (hc : z.1.cols = cols) :
    Sound rows cols
      { s with plateMatrix := y.1,
               phase := .work (remaining.erase row) (Function.update copies thread y.2) }
      { t with plateMatrix := z.1,
               phase := .work (remaining.erase row) (Function.update copies thread z.2) } := by
  obtain ⟨hholds, hflag⟩ := hboth
  refine ⟨hholds, hr, hc, h.kStates, h.equilibratedPlate, ?_, h.fault, ?_⟩
  · simp only [hflag]
  · rintro remaining copies ⟨⟩ row hrow
    exact h.inner _ _ hphase row (List.mem_of_mem_erase hrow)

theorem omp_row {plate : Flat.PlateMatrix ℚ} {k : ℕ} {flag : Bool} {remaining : List ℕ}
    {copies : ℕ → Bool} {thread row : ℕ} (h : thread < R.threads ∧ row ∈ remaining)
    {z : Flat.PlateMatrix ℚ × Bool}
    (hz : Flat.equilibrateRow R.multConstant R.epsilon (plate, copies thread) row = z) :
    Omp.equilibratePlate R ⟨plate, k, flag, .work remaining copies⟩ (.row thread row) =
      some ⟨z.1, k, flag, .work (remaining.erase row) (Function.update copies thread z.2)⟩ := by
  simp only [Omp.equilibratePlate, h, and_self, if_true, hz]

theorem Sound.step {rows cols : ℕ} (hf : Fits rows cols) (hrl : rows < 2 ^ 64)
    (hcl : cols < 2 ^ 64) {a : Omp.Action} (h : Sound rows cols s t)
    (ha : equilibratePlate R s a = some s') :
    ∃ t', Omp.equilibratePlate R t a = some t' ∧ Sound rows cols s' t' := by
  obtain ⟨hp, hrows, hcols, hk, hflag, hphase, hfault, hinner⟩ := h
  obtain ⟨plate, k, flag, phase⟩ := t
  dsimp only at hp hrows hcols hk hflag hphase hinner
  unfold equilibratePlate at ha
  -- the steps in the order of the source; only a row accesses the blocks
  split at ha
  next _ hs =>
    cases ha
    rw [hs] at hphase
    subst hphase
    refine ⟨⟨Flat.setAuxiliary plate, u64 (k + 1), true,
      .work (loop 1 (sub64 plate.rows 1)) fun _ => true⟩, rfl, ?_⟩
    refine ⟨hp.setAuxiliary, hrows, hcols, ?_, rfl, ?_, hfault, ?_⟩
    · rw [hk]
    · rw [hp.rows_eq]
    · rintro remaining copies ⟨⟩ row hrow
      rw [mem_loop, hrows, sub64_of_le hf.1 hrl] at hrow
      omega
  next copies _ hs =>
    cases ha
    rw [hs] at hphase
    subst hphase
    refine ⟨⟨plate, k, (List.range R.threads).foldl (fun flag t => flag && copies t) flag, .test⟩,
      rfl, ?_⟩
    refine ⟨hp, hrows, hcols, hk, ?_, rfl, hfault, fun _ _ hp => nomatch hp⟩
    rw [hflag]
  next _ hs =>
    cases ha
    rw [hs] at hphase
    subst hphase
    refine ⟨⟨plate, k, flag, if flag then .left else .single⟩, rfl, ?_⟩
    refine ⟨hp, hrows, hcols, hk, hflag, ?_, hfault, fun remaining copies hp => ?_⟩
    · rw [hflag]
    · dsimp only at hp
      split at hp <;> cases hp
  next thread row remaining copies _ hs =>
    rw [hs] at hphase
    subst hphase
    split at ha
    next hrow =>
      obtain ⟨h1, h2⟩ := hinner _ _ rfl row hrow.2
      have hx : HoldsBoth (rows * cols) (plate, copies thread) (s.plateMatrix, copies thread) :=
        ⟨hp, rfl⟩
      obtain ⟨y, hy, hboth⟩ := equilibrateRow_ok (R := R) hf hcl hx hcols h1 h2
      have hshape := @equilibrateRow_shape R.multConstant R.epsilon row (plate, copies thread)
      generalize hz : Flat.equilibrateRow R.multConstant R.epsilon (plate, copies thread) row = z
        at hboth hshape
      have hsound : Sound rows cols s ⟨plate, k, flag, .work remaining copies⟩ :=
        ⟨hp, hrows, hcols, hk, hflag, hs, hfault, hinner⟩
      have hnext := hsound.row rfl thread row hboth (hshape.1.trans hrows)
        (hshape.2.trans hcols)
      rw [hy] at ha
      cases ha
      exact ⟨_, omp_row hrow hz, hnext⟩
    next => cases ha
  next => cases ha

theorem sound_of_reachable {rows cols : ℕ} (hf : Fits rows cols) (hrl : rows < 2 ^ 64)
    (hcl : cols < 2 ^ 64) {p : PlateMatrix ℚ} {q : Flat.PlateMatrix ℚ}
    (hp : Holds (rows * cols) q p) (hr : q.rows = rows) (hc : q.cols = cols)
    (h : (region R p).Reachable s) :
    ∃ t, (Omp.system R q).Reachable t ∧ Sound rows cols s t := by
  apply h.invariant ⟨_, System.Reachable.start, hp, hr, hc, rfl, rfl, rfl, rfl,
    fun _ _ hp => nomatch hp⟩
  rintro s a s' ⟨t, ht, hs⟩ ha
  obtain ⟨t', hstep, hs'⟩ := hs.step hf hrl hcl ha
  exact ⟨t', ht.step hstep, hs'⟩

theorem equilibratePlate_error {remaining : List ℕ} {copies : ℕ → Bool} {thread row : ℕ}
    {e : Fault} (hf : s.fault = none) (hp : s.phase = .work remaining copies)
    (ht : thread < R.threads) (hrow : row ∈ remaining)
    (he : equilibrateRow R.multConstant R.epsilon (s.plateMatrix, copies thread) row = .error e) :
    equilibratePlate R s (.row thread row) = some { s with fault := some e } := by
  simp only [equilibratePlate, hf, hp, ht, hrow, and_self, if_true, he]

theorem reachable_row {rows size : ℕ} (ht : 1 ≤ R.threads) {p : PlateMatrix ℚ}
    {q : Flat.PlateMatrix ℚ} (hp : Holds size q p) (hq : q.rows = rows) (hr : 1 ≤ rows)
    (hrl : rows < 2 ^ 64) {row : ℕ} (h1 : 1 ≤ row) (h2 : row + 1 < rows)
    (hsafe : ∀ s, (region R p).Reachable s → s.fault = none) :
    ∃ y, equilibrateRow R.multConstant R.epsilon (setAuxiliary p, true) row = .ok y := by
  have hmem : row ∈ loop 1 (sub64 p.rows 1) := by
    rw [mem_loop, hp.rows_eq, hq, sub64_of_le hr hrl]
    omega
  cases hrow : equilibrateRow R.multConstant R.epsilon (setAuxiliary p, true) row with
  | ok y => exact ⟨y, rfl⟩
  | error e =>
    have hstart : (region R p).Reachable ⟨p, 0, true, .single, none⟩ := System.Reachable.start
    have hsingle : (region R p).Reachable ⟨setAuxiliary p, u64 (0 + 1), true,
        .work (loop 1 (sub64 p.rows 1)) (fun _ => true), none⟩ := hstart.step (a := .advance) rfl
    have hfault := hsingle.step (equilibratePlate_error rfl rfl ht hmem hrow)
    exact absurd (hsafe _ hfault) (Option.some_ne_none e)

end Runs

theorem initPlateMatrix_holds {α : Type} [Zero α] {callocs : Callocs} (h : callocs.All)
    (rows cols : ℕ) : ∃ p : PlateMatrix α, initPlateMatrix callocs rows cols = some p ∧
      Holds (u64 (rows * cols)) (Flat.initPlateMatrix rows cols) p := by
  obtain ⟨h1, h2, h3⟩ := h
  refine ⟨⟨rows, cols, ⟨u64 (rows * cols), fun _ => 0⟩, ⟨u64 (rows * cols), fun _ => 0⟩⟩, ?_,
    rfl, rfl, rfl, rfl, rfl, rfl⟩
  simp only [initPlateMatrix, h1, h2, h3, Bool.true_eq_false, if_false]

theorem initPlateMatrix_null {α : Type} [Zero α] {callocs : Callocs} (h : ¬ callocs.All)
    (rows cols : ℕ) : (initPlateMatrix callocs rows cols : Option (PlateMatrix α)) = none := by
  unfold initPlateMatrix
  split_ifs with h1 h2 h3
  · rfl
  · rfl
  · rfl
  · exact absurd ⟨Bool.eq_true_of_not_eq_false h1, Bool.eq_true_of_not_eq_false h2,
      Bool.eq_true_of_not_eq_false h3⟩ h

theorem setPlateMatrix_shape {α : Type} [Zero α] (rows cols : ℕ) (cells : List α) :
    (Flat.setPlateMatrix rows cols cells).rows = rows ∧
      (Flat.setPlateMatrix rows cols cells).cols = cols := by
  rw [Flat.setPlateMatrix_eq]
  exact ⟨rfl, rfl⟩

theorem load_checks {α : Type} [Zero α] {rows cols size : ℕ} {p : PlateMatrix α}
    (hp : Holds size (Flat.initPlateMatrix rows cols) p) (cells : List α) : Checks (do
      let p ← readRows p cells
      let p ← initAuxiliary p
      return (.ok p : Except ErrorCode (PlateMatrix α)))
      (ReadSafe rows cols size cells ∧ BorderSafe rows cols size)
      fun x => ∃ p, x = .ok p ∧ Holds size (Flat.setPlateMatrix rows cols cells) p := by
  have hset : Flat.setPlateMatrix rows cols cells =
      Flat.initAuxiliary (Flat.readPlate rows cols cells) := by
    rw [Flat.setPlateMatrix_eq, Flat.initAuxiliary_eq]
    rfl
  rw [hset]
  refine ((readRows_checks hp cells).bind fun p hp => (initAuxiliary_checks hp).bind fun q hq =>
    Checks.pure (P := fun x : Except ErrorCode (PlateMatrix α) => ∃ p, x = .ok p ∧
      Holds size (Flat.initAuxiliary (Flat.readPlate rows cols cells)) p) ⟨q, rfl, hq⟩).imp ?_
    fun _ h => h
  rw [and_true]
  exact Iff.rfl

theorem setPlateMatrix_checks {α : Type} [Zero α] {env : Environment α} {file : PlateFile α}
    {header : Header} (hpath : env.pathBuilt = true) (hfile : env.file = some file)
    (hheader : file.header = some header) (hcallocs : env.callocs.All) :
    Checks (setPlateMatrix env)
      (ReadSafe header.rows header.cols (u64 (header.rows * header.cols)) file.cells ∧
        BorderSafe header.rows header.cols (u64 (header.rows * header.cols)))
      fun x => ∃ p, x = .ok p ∧ Holds (u64 (header.rows * header.cols))
        (Flat.setPlateMatrix header.rows header.cols file.cells) p := by
  obtain ⟨p, hp, hholds⟩ := initPlateMatrix_holds (α := α) hcallocs header.rows header.cols
  have h := load_checks hholds file.cells
  simpa only [setPlateMatrix, hpath, Bool.true_eq_false, if_false, hfile, hheader, hp] using h

theorem setPlateMatrix_null {α : Type} [Zero α] {env : Environment α} {file : PlateFile α}
    {header : Header} (hpath : env.pathBuilt = true) (hfile : env.file = some file)
    (hheader : file.header = some header) (hcallocs : ¬ env.callocs.All) :
    setPlateMatrix env = .error .nullPointer := by
  have hnull := initPlateMatrix_null (α := α) hcallocs header.rows header.cols
  simp only [setPlateMatrix, hpath, Bool.true_eq_false, if_false, hfile, hheader, hnull]

theorem cellSafe_of_runs {R : Omp.Region ℚ} (ht : 1 ≤ R.threads) {rows cols size : ℕ}
    {p : PlateMatrix ℚ} {q : Flat.PlateMatrix ℚ} (hp : Holds size q p) (hr : q.rows = rows)
    (hc : q.cols = cols) (hrl : rows < 2 ^ 64) (hcl : cols < 2 ^ 64)
    (hsafe : ∀ s, (region R p).Reachable s → s.fault = none) {row : ℕ} (h1 : 1 ≤ row)
    (h2 : row + 1 < rows) {col : ℕ} (h3 : 1 ≤ col) (h4 : col + 1 < cols) :
    CellSafe cols size row col := by
  obtain ⟨y, hy⟩ := reachable_row ht hp hr (by omega) hrl h1 h2 hsafe
  have hrow : HoldsBoth size (Flat.setAuxiliary q, true) (setAuxiliary p, true) :=
    ⟨hp.setAuxiliary, rfl⟩
  have hcell := (equilibrateRow_checks hrow row).ok_iff.mp ⟨y, hy⟩ col h3
  have hcols : (Flat.setAuxiliary q, true).1.cols = cols := hc
  rw [hcols, sub64_of_le (by omega) hcl] at hcell
  exact hcell (by omega)

theorem runs_safe {R : Omp.Region ℚ} {rows cols : ℕ} (hf : Fits rows cols) (hrl : rows < 2 ^ 64)
    (hcl : cols < 2 ^ 64) {p : PlateMatrix ℚ} {q : Flat.PlateMatrix ℚ}
    (hp : Holds (rows * cols) q p) (hr : q.rows = rows) (hc : q.cols = cols) {s : State}
    (hs : (region R p).Reachable s) : s.fault = none ∧ (s.phase = .left → ∀ opened,
      ∃ output, updatePlateFile opened s.plateMatrix = .ok output) := by
  obtain ⟨t, -, hsound⟩ := sound_of_reachable hf hrl hcl hp hr hc hs
  refine ⟨hsound.fault, fun _ opened => ?_⟩
  cases opened with
  | false => exact ⟨none, rfl⟩
  | true =>
    have hcells : ∀ row, row < t.plateMatrix.rows → ∀ col, col < t.plateMatrix.cols →
        row * t.plateMatrix.cols + col < rows * cols := by
      rw [hsound.rows_eq, hsound.cols_eq]
      exact fun row hrow col hcol => Flat.index_lt hrow hcol
    obtain ⟨output, ho, -⟩ := (updatePlateFile_checks hsound.holds).exists_ok hcells
    exact ⟨output, ho⟩

theorem safe_header_iff {R : Omp.Region ℚ} (ht : 1 ≤ R.threads) {env : Environment ℚ}
    {file : PlateFile ℚ} {header : Header} (hpath : env.pathBuilt = true)
    (hfile : env.file = some file) (hheader : file.header = some header) :
    Safe R env ↔ env.callocs.All ∧ Fits header.rows header.cols := by
  by_cases hcallocs : env.callocs.All
  · have hload := setPlateMatrix_checks hpath hfile hheader hcallocs
    obtain ⟨hrows, hcols⟩ := setPlateMatrix_shape header.rows header.cols file.cells
    generalize Flat.setPlateMatrix header.rows header.cols file.cells = q at hload hrows hcols
    rw [and_iff_right hcallocs]
    constructor
    · intro hsafe
      unfold Safe at hsafe
      cases hset : setPlateMatrix env with
      | error e =>
        rw [hset] at hsafe
        exact hsafe.elim
      | ok x =>
        obtain ⟨p, rfl, hp⟩ := hload.post x hset
        rw [hset] at hsafe
        obtain ⟨-, hborder⟩ := hload.ok_iff.mp ⟨_, hset⟩
        -- no run faults, and the loading has not, so every cell that they access is in its block
        exact fits_of_safe header.rows_lt header.cols_lt hborder fun row h1 h2 col h3 h4 =>
          cellSafe_of_runs ht hp hrows hcols header.rows_lt header.cols_lt
            (fun s hs => (hsafe s hs).1) h1 h2 h3 h4
    · intro hf
      rw [u64_of_lt hf.2.2] at hload
      obtain ⟨x, hset, p, rfl, hp⟩ := hload.exists_ok
        ⟨readSafe_of_lt file.cells, borderSafe_of_fits hf header.rows_lt header.cols_lt⟩
      unfold Safe
      rw [hset]
      exact fun s hs => runs_safe hf header.rows_lt header.cols_lt hp hrows hcols hs
  · refine iff_of_false (fun hsafe => ?_) fun h => hcallocs h.1
    unfold Safe at hsafe
    rwa [setPlateMatrix_null hpath hfile hheader hcallocs] at hsafe

/-- omp_mpi accesses the cells of a plate safely if and only if, once it has read a header,
all callocs return a block and the shape fits. -/
theorem safe_iff (R : Omp.Region ℚ) (ht : 1 ≤ R.threads) (env : Environment ℚ) : Safe R env ↔
    (env.pathBuilt = true → ∀ file, env.file = some file → ∀ header,
      file.header = some header → env.callocs.All ∧ Fits header.rows header.cols) := by
  by_cases hpath : env.pathBuilt = true
  · cases hfile : env.file with
    | none => simp [Safe, setPlateMatrix, hpath, hfile, ErrorCode.value]
    | some file =>
      cases hheader : file.header with
      | none => simp [Safe, setPlateMatrix, hpath, hfile, hheader, ErrorCode.value]
      | some header => simp [safe_header_iff ht hpath hfile hheader, hpath, hheader]
  · simp [Safe, setPlateMatrix, hpath, ErrorCode.value]

/-- A plate file of this shape without cells, in a system with memory. -/
def emptyFile (header : Header) : Environment ℚ :=
  ⟨true, some ⟨some header, []⟩, ⟨true, true, true⟩⟩

theorem zero_lt_word : 0 < 2 ^ 64 := by norm_num

theorem three_lt_word : 3 < 2 ^ 64 := by norm_num

theorem four_lt_word : 4 < 2 ^ 64 := by norm_num

theorem five_lt_word : 5 < 2 ^ 64 := by norm_num

theorem half_lt_word : 2 ^ 32 < 2 ^ 64 := by norm_num

/-- Four rows of `2 ^ 32` cells. -/
def wideHeader : Header := ⟨4, 2 ^ 32, four_lt_word, half_lt_word⟩

def rowlessHeader : Header := ⟨0, 5, zero_lt_word, five_lt_word⟩

def squareHeader : Header := ⟨3, 3, three_lt_word, three_lt_word⟩

theorem safe_iff_wide : Safe ⟨2, 1 / 4, 1⟩ (emptyFile wideHeader) :=
  (safe_iff ⟨2, 1 / 4, 1⟩ (by norm_num) _).mpr (by
    rintro - file ⟨⟩ header ⟨⟩
    exact ⟨⟨rfl, rfl, rfl⟩, by norm_num [wideHeader], Or.inl (by norm_num [wideHeader]),
      by norm_num [wideHeader]⟩)

/-- A plate without rows, and one whose auxiliary matrix cannot be allocated. -/
theorem unsafe_plates : ¬ Safe ⟨1, 1 / 4, 1⟩ (emptyFile rowlessHeader) ∧
    ¬ Safe ⟨1, 1 / 4, 1⟩ ⟨true, some ⟨some squareHeader, []⟩, ⟨true, true, false⟩⟩ := by
  constructor
  · rw [safe_header_iff le_rfl rfl rfl rfl]
    rintro ⟨-, h, -, -⟩
    exact absurd h (by norm_num [rowlessHeader])
  · rw [safe_header_iff le_rfl rfl rfl rfl]
    rintro ⟨⟨-, -, h⟩, -⟩
    exact absurd h (by norm_num)

end Concurrente.Heat.Memory
