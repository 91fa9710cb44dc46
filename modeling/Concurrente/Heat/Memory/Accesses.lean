import Concurrente.Heat.Memory.Program

/-!
# Accesses and effects

For every function of the checked program: exactly when its accesses lie in the blocks,
and that it then does to their contents what the function without checks does.
-/

namespace Concurrente.Heat.Memory

open Flat (cellIndex)

variable {α : Type}

/-- The checked plate has blocks of `size` cells, with the contents of `q`. -/
structure Holds (size : ℕ) (q : Flat.PlateMatrix α) (p : PlateMatrix α) : Prop where
  rows_eq : p.rows = q.rows
  cols_eq : p.cols = q.cols
  matrix_size : p.matrix.size = size
  auxiliary_size : p.auxiliaryMatrix.size = size
  matrix_eq : p.matrix.cells = q.matrix
  auxiliary_eq : p.auxiliaryMatrix.cells = q.auxiliaryMatrix

def PlateMatrix.contents (p : PlateMatrix α) : Flat.PlateMatrix α :=
  ⟨p.rows, p.cols, p.matrix.cells, p.auxiliaryMatrix.cells⟩

variable {size row col : ℕ} {p : PlateMatrix α} {q : Flat.PlateMatrix α} {c epsilon : ℚ}

theorem Holds.setAuxiliary (h : Holds size q p) :
    Holds size (Flat.setAuxiliary q) (setAuxiliary p) :=
  ⟨h.rows_eq, h.cols_eq, h.auxiliary_size, h.matrix_size, h.auxiliary_eq, h.matrix_eq⟩

theorem checks_loop {β : Type} {f : β → ℕ → Except Fault β} {I : ℕ → β → Prop} {S : ℕ → Prop}
    {lo hi : ℕ} (hf : ∀ b i, lo ≤ i → i < hi → I i b → Checks (f b i) (S i) (I (i + 1)))
    {b : β} (hb : I lo b) : Checks ((loop lo hi).foldlM f b)
      (∀ i, lo ≤ i → i < hi → S i) (I (lo + (hi - lo))) := by
  unfold loop
  have h := Checks.range' (n := hi - lo) (fun b i h1 h2 => hf b i h1 (by omega)) hb
  refine h.imp ?_ fun _ h => h
  exact ⟨fun h i h1 h2 => h i h1 (by omega), fun h i h1 h2 => h i h1 (by omega)⟩

theorem loop_self (lo : ℕ) : loop lo lo = [] := by
  unfold loop
  simp

theorem loop_succ {lo i : ℕ} (h : lo ≤ i) : loop lo (i + 1) = loop lo i ++ [i] := by
  unfold loop
  rw [show i + 1 - lo = (i - lo) + 1 by omega, List.range'_concat]
  congr 2
  omega

theorem loop_add_sub (lo hi : ℕ) : loop lo (lo + (hi - lo)) = loop lo hi := by
  unfold loop
  congr 1
  omega

section Load

theorem copyCell_checks (hp : Holds size q p) (index : ℕ) :
    Checks (copyCell p index) (index < size) (Holds size (Flat.copyCells q [index])) := by
  have hread : Checks (p.matrix.read index) (index < size) fun x => x = q.matrix index :=
    (Checks.read _ _).imp (by rw [hp.matrix_size]) fun _ h => by rw [h, hp.matrix_eq]
  have hwrite : ∀ x, Checks (p.auxiliaryMatrix.write index x) (index < size) fun b =>
      b = { p.auxiliaryMatrix with cells := Function.update p.auxiliaryMatrix.cells index x } :=
    fun x => (Checks.write _ _ _).imp (by rw [hp.auxiliary_size]) fun _ h => h
  refine (hread.bind fun x hx => (hwrite x).bind fun b hb => Checks.pure
    ⟨hp.rows_eq, hp.cols_eq, hp.matrix_size, ?_, hp.matrix_eq, ?_⟩).imp (by simp) fun _ h => h
  · rw [hb]
    exact hp.auxiliary_size
  · rw [hb, hx, hp.auxiliary_eq]
    rfl

theorem copyCells_checks {d : List ℕ} (hp : Holds size (Flat.copyCells q d) p)
    (index : PlateMatrix α → ℕ → ℕ) {index' : ℕ → ℕ}
    (hindex : ∀ p, p.cols = q.cols → ∀ i, index p i = index' i) (lo hi : ℕ) :
    Checks ((loop lo hi).foldlM (fun p i => copyCell p (index p i)) p)
      (∀ i, lo ≤ i → i < hi → index' i < size)
      (Holds size (Flat.copyCells q (d ++ (loop lo hi).map index'))) := by
  refine (checks_loop
    (I := fun i p => Holds size (Flat.copyCells q (d ++ (loop lo i).map index')) p)
    ?_ ?_).imp Iff.rfl fun _ h => by rwa [loop_add_sub] at h
  · intro p i hlo _ hp
    rw [hindex p hp.cols_eq]
    refine (copyCell_checks hp (index' i)).imp Iff.rfl fun _ h => ?_
    rwa [Flat.copyCells_append, List.append_assoc, ← List.map_singleton, ← List.map_append,
      ← loop_succ hlo] at h
  · rw [loop_self, List.map_nil, List.append_nil]
    exact hp

/-- The indices that `init_auxiliary` reads and writes. -/
structure BorderSafe (rows cols size : ℕ) : Prop where
  firstRow : ∀ col, col < cols → col < size
  lastRow : ∀ col, col < cols → cellIndex cols (sub64 rows 1) col < size
  firstCol : ∀ row, 1 ≤ row → row < sub64 rows 1 → u64 (row * cols) < size
  lastCol : ∀ row, 1 ≤ row → row < sub64 rows 1 → cellIndex cols row (sub64 cols 1) < size

theorem initAuxiliary_checks (hp : Holds size q p) :
    Checks (initAuxiliary p) (BorderSafe q.rows q.cols size)
      (Holds size (Flat.initAuxiliary q)) := by
  have hcols : ∀ {done p}, Holds size (Flat.copyCells q done) p → p.cols = q.cols :=
    fun h => h.cols_eq
  have hfirst : Checks ((loop 0 p.cols).foldlM copyCell p)
      (∀ i, 0 ≤ i → i < q.cols → i < size)
      (Holds size (Flat.copyCells q (loop 0 q.cols))) := by
    have h := copyCells_checks (d := []) hp (fun _ i => i) (fun _ _ _ => rfl) 0 q.cols
    rw [List.map_id', List.nil_append] at h
    rw [hp.cols_eq]
    exact h
  have hlast : ∀ {done p}, Holds size (Flat.copyCells q done) p →
      Checks ((loop 0 p.cols).foldlM
        (fun p col => copyCell p (cellIndex p.cols (sub64 q.rows 1) col)) p)
      (∀ i, 0 ≤ i → i < q.cols → cellIndex q.cols (sub64 q.rows 1) i < size)
      (Holds size (Flat.copyCells q
        (done ++ (loop 0 q.cols).map (cellIndex q.cols (sub64 q.rows 1))))) := by
    intro done p h
    rw [hcols h]
    exact copyCells_checks h _ (fun p hc i => by rw [hc]) 0 q.cols
  have hfirstCol : ∀ {done p}, Holds size (Flat.copyCells q done) p →
      Checks ((loop 1 (sub64 q.rows 1)).foldlM (fun p row => copyCell p (u64 (row * p.cols))) p)
      (∀ i, 1 ≤ i → i < sub64 q.rows 1 → u64 (i * q.cols) < size)
      (Holds size (Flat.copyCells q
        (done ++ (loop 1 (sub64 q.rows 1)).map fun row => cellIndex q.cols row 0))) := fun h =>
    copyCells_checks h _ (fun p hc i => by rw [hc]) 1 (sub64 q.rows 1)
  have hlastCol : ∀ {done p}, Holds size (Flat.copyCells q done) p →
      Checks ((loop 1 (sub64 q.rows 1)).foldlM
        (fun p row => copyCell p (cellIndex p.cols row (sub64 q.cols 1))) p)
      (∀ i, 1 ≤ i → i < sub64 q.rows 1 → cellIndex q.cols i (sub64 q.cols 1) < size)
      (Holds size (Flat.copyCells q
        (done ++ (loop 1 (sub64 q.rows 1)).map
          fun row => cellIndex q.cols row (sub64 q.cols 1)))) := fun h =>
    copyCells_checks h _ (fun p hc i => by rw [hc]) 1 (sub64 q.rows 1)
  have hall := hfirst.bind fun _ h => (hlast h).bind fun _ h => (hfirstCol h).bind
    fun _ h => hlastCol h
  rw [← hp.rows_eq, ← hp.cols_eq] at hall ⊢
  rw [Flat.initAuxiliary_eq]
  refine hall.imp ?_ fun _ h => ?_
  · constructor
    · rintro ⟨h1, h2, h3, h4⟩
      exact ⟨fun i => h1 i (Nat.zero_le i), fun i => h2 i (Nat.zero_le i), h3, h4⟩
    · rintro ⟨h1, h2, h3, h4⟩
      exact ⟨fun i _ => h1 i, fun i _ => h2 i, h3, h4⟩
  · rw [← hp.rows_eq, ← hp.cols_eq]
    exact h

/-- The cells of the file that lie in the rows of the plate fit the block. -/
def ReadSafe (rows cols size : ℕ) (file : List α) : Prop :=
  ∀ row, row < rows → ∀ i, i < min cols (file.length - row * cols) → row * cols + i < size

theorem readCells_append (matrix : ℕ → α) (start a b : ℕ) (file : List α) :
    Flat.readCells (Flat.readCells matrix start a file) (start + a) b (file.drop a) =
      Flat.readCells matrix start (a + b) file := by
  funext i
  unfold Flat.readCells
  by_cases h : start + a ≤ i ∧ i < start + a + b
  · rw [if_pos h, if_neg (by omega), if_pos (by omega)]
    simp only [List.getD_eq_getElem?_getD, List.getElem?_drop]
    rw [show a + (i - (start + a)) = i - start by omega]
  · rw [if_neg h]
    by_cases h' : start ≤ i ∧ i < start + a
    · rw [if_pos h', if_pos (by omega)]
    · rw [if_neg h', if_neg (by omega)]

theorem readCells_min (matrix : ℕ → α) (start count : ℕ) (file : List α) :
    Flat.readCells matrix start (min count file.length) file =
      Flat.readCells matrix start count file := by
  funext i
  unfold Flat.readCells
  by_cases h : start ≤ i ∧ i < start + count
  · rw [if_pos h]
    by_cases h' : i - start < file.length
    · rw [if_pos (by omega)]
    · rw [if_neg (by omega), List.getD_eq_getElem?_getD, List.getElem?_eq_none (by omega)]
      rfl
  · rw [if_neg h, if_neg (by omega)]

theorem readCells_zero (matrix : ℕ → α) (start : ℕ) (file : List α) :
    Flat.readCells matrix start 0 file = matrix := by
  funext i
  exact if_neg (by omega)

theorem update_readCells (matrix : ℕ → α) (start : ℕ) {file : List α} {i : ℕ} (d : α)
    (hi : i < file.length) :
    Function.update (Flat.readCells matrix start i file) (start + i) (file.getD i d) =
      Flat.readCells matrix start (i + 1) file := by
  funext k
  by_cases hk : k = start + i
  · subst hk
    rw [Function.update_self, Flat.readCells, if_pos (by omega), Nat.add_sub_cancel_left]
    simp only [List.getD_eq_getElem?_getD, List.getElem?_eq_getElem hi, Option.getD_some]
  · rw [Function.update_of_ne hk]
    unfold Flat.readCells
    by_cases h : start ≤ k ∧ k < start + i
    · rw [if_pos h, if_pos (by omega)]
    · rw [if_neg h, if_neg (by omega)]

variable [Zero α]

theorem readCells_checks {matrix : Block α} (rowStart count : ℕ) (file : List α) :
    Checks (readCells matrix rowStart count file)
      (∀ i, i < min count file.length → rowStart + i < matrix.size)
      (fun b => b = ⟨matrix.size, Flat.readCells matrix.cells rowStart count file⟩) := by
  unfold readCells
  refine (checks_loop (S := fun i => rowStart + i < matrix.size)
    (I := fun i b => b = ⟨matrix.size, Flat.readCells matrix.cells rowStart i file⟩)
    ?_ ?_).imp ?_ fun b h => ?_
  · rintro b i - hi rfl
    refine (Checks.write _ _ _).imp Iff.rfl fun b h => ?_
    rw [h, update_readCells _ _ _ (by omega)]
  · rw [readCells_zero]
  · exact ⟨fun h i => h i (Nat.zero_le i), fun h i _ => h i⟩
  · rwa [Nat.zero_add, Nat.sub_zero, readCells_min] at h

theorem readRows_checks (hp : Holds size q p) (file : List α) :
    Checks (readRows p file) (ReadSafe q.rows q.cols size file)
      (Holds size { q with matrix := Flat.readRows q.cols q.rows q.matrix 0 file }) := by
  have hloop : Checks ((loop 0 p.rows).foldlM (readRow p.cols) ⟨p.matrix, 0, file⟩)
      (∀ row, 0 ≤ row → row < p.rows →
        ∀ i, i < min p.cols (file.length - row * p.cols) → row * p.cols + i < size)
      (fun x => x.matrix = ⟨size, Flat.readCells q.matrix 0 (p.rows * p.cols) file⟩) := by
    refine (checks_loop (I := fun row x =>
      x.matrix = ⟨size, Flat.readCells q.matrix 0 (row * p.cols) file⟩ ∧
      x.rowStart = row * p.cols ∧ x.file = file.drop (row * p.cols)) ?_ ?_).imp Iff.rfl
      fun _ h => by simpa using h.1
    · rintro x row - - ⟨hm, hstart, hfile⟩
      unfold readRow
      refine ((readCells_checks _ _ _).bind fun b hb => Checks.pure ⟨?_, ?_, ?_⟩).imp ?_
        fun _ h => h
      · rw [and_true, hm, hstart, hfile, List.length_drop]
      · have happend := readCells_append q.matrix 0 (row * p.cols) p.cols file
        rw [Nat.zero_add, ← Nat.succ_mul] at happend
        simp only [hb, hm, hstart, hfile]
        rw [happend]
      · simp only [hstart, Nat.add_mul, Nat.one_mul]
      · simp only [hfile, List.drop_drop, Nat.add_mul, Nat.one_mul]
    · refine ⟨?_, by simp, by simp⟩
      rw [Nat.zero_mul, readCells_zero, ← hp.matrix_eq, ← hp.matrix_size]
  refine (hloop.bind fun x hx => Checks.pure ⟨hp.rows_eq, hp.cols_eq, ?_, hp.auxiliary_size,
    ?_, hp.auxiliary_eq⟩).imp ?_ fun _ h => h
  · rw [and_true, hp.rows_eq, hp.cols_eq]
    exact ⟨fun h row => h row (Nat.zero_le row), fun h row _ => h row⟩
  · rw [hx]
  · funext i
    simp only [hx, hp.rows_eq, hp.cols_eq]
    rw [Flat.readRows_apply]
    rfl

end Load

section State

variable {p : PlateMatrix ℚ} {q : Flat.PlateMatrix ℚ}

/-- The indices that `update_cell` reads and writes. -/
structure CellSafe (cols size row col : ℕ) : Prop where
  self : cellIndex cols row col < size
  up : cellIndex cols (sub64 row 1) col < size
  right : u64 (cellIndex cols row col + 1) < size
  down : cellIndex cols (u64 (row + 1)) col < size
  left : sub64 (cellIndex cols row col) 1 < size

theorem updateCell_checks (hp : Holds size q p) (row col : ℕ) (c : ℚ) :
    Checks (updateCell p row col c) (CellSafe q.cols size row col)
      (Holds size (Flat.updateCell q row col c)) := by
  have hread : ∀ i, Checks (p.auxiliaryMatrix.read i) (i < size)
      fun x => x = q.auxiliaryMatrix i := fun i =>
    (Checks.read _ _).imp (by rw [hp.auxiliary_size]) fun _ h => by rw [h, hp.auxiliary_eq]
  have hwrite : ∀ i x, Checks (p.matrix.write i x) (i < size)
      fun b => b = ⟨size, Function.update q.matrix i x⟩ := fun i x =>
    (Checks.write _ _ _).imp (by rw [hp.matrix_size])
      fun _ h => by rw [h, hp.matrix_size, hp.matrix_eq]
  refine ((hread _).bind fun x1 h1 => (hread _).bind fun x2 h2 => (hread _).bind fun x3 h3 =>
    (hread _).bind fun x4 h4 => (hread _).bind fun x5 h5 => (hread _).bind fun x6 h6 =>
    (hwrite _ _).bind fun b hb =>
      Checks.pure ⟨hp.rows_eq, hp.cols_eq, ?size, hp.auxiliary_size, ?cells,
        hp.auxiliary_eq⟩).imp ?safe fun _ h => h
  case size => rw [hb]
  case cells =>
    rw [hb, h1, h2, h3, h4, h5, h6, hp.cols_eq]
    rfl
  case safe =>
    rw [hp.cols_eq]
    constructor
    · rintro ⟨h1, h2, h3, h4, h5, -, -, -⟩
      exact ⟨h1, h2, h3, h4, h5⟩
    · rintro ⟨h1, h2, h3, h4, h5⟩
      exact ⟨h1, h2, h3, h4, h5, h1, h1, trivial⟩

/-- The plate holds, and the flag is the one of the unchecked program. -/
def HoldsBoth (size : ℕ) (z : Flat.PlateMatrix ℚ × Bool) (x : PlateMatrix ℚ × Bool) : Prop :=
  Holds size z.1 x.1 ∧ x.2 = z.2

variable {x : PlateMatrix ℚ × Bool} {z : Flat.PlateMatrix ℚ × Bool}

theorem equilibrateCell_checks (hx : HoldsBoth size z x) (row col : ℕ) :
    Checks (equilibrateCell c epsilon row x col) (CellSafe z.1.cols size row col)
      (HoldsBoth size (Flat.equilibrateCell c epsilon row z col)) := by
  have hcompare : ∀ p, Holds size (Flat.updateCell z.1 row col c) p → Checks (do
      let newTemperature ← p.matrix.read (cellIndex p.cols row col)
      let oldTemperature ← p.auxiliaryMatrix.read (cellIndex p.cols row col)
      return (p, if |newTemperature - oldTemperature| > epsilon then false else x.2))
      (cellIndex z.1.cols row col < size)
      (HoldsBoth size (Flat.equilibrateCell c epsilon row z col)) := by
    intro p hp
    have hcols : p.cols = z.1.cols := hp.cols_eq
    have hflag : ∀ new old, new = p.matrix.cells (cellIndex p.cols row col) →
        old = p.auxiliaryMatrix.cells (cellIndex p.cols row col) →
        HoldsBoth size (Flat.equilibrateCell c epsilon row z col)
          (p, if |new - old| > epsilon then false else x.2) := by
      rintro _ _ rfl rfl
      refine ⟨hp, ?_⟩
      simp only [hp.matrix_eq, hp.auxiliary_eq, hcols, hx.2]
      rfl
    refine ((Checks.read _ _).bind fun new hnew => (Checks.read _ _).bind fun old hold =>
      Checks.pure (hflag new old hnew hold)).imp ?_ fun _ h => h
    rw [hp.matrix_size, hp.auxiliary_size, hcols]
    simp
  refine ((updateCell_checks hx.1 row col c).bind hcompare).imp ?_ fun _ h => h
  exact ⟨fun h => h.1, fun h => ⟨h, h.self⟩⟩

theorem equilibrateCells_shape (l : List ℕ) (row : ℕ) (z : Flat.PlateMatrix ℚ × Bool) :
    (l.foldl (Flat.equilibrateCell c epsilon row) z).1.rows = z.1.rows ∧
      (l.foldl (Flat.equilibrateCell c epsilon row) z).1.cols = z.1.cols := by
  induction l generalizing z with
  | nil => exact ⟨rfl, rfl⟩
  | cons col l ih => exact ih (Flat.equilibrateCell c epsilon row z col)

theorem equilibrateRow_shape (row : ℕ) (z : Flat.PlateMatrix ℚ × Bool) :
    (Flat.equilibrateRow c epsilon z row).1.rows = z.1.rows ∧
      (Flat.equilibrateRow c epsilon z row).1.cols = z.1.cols := by
  unfold Flat.equilibrateRow
  exact equilibrateCells_shape _ row z

theorem equilibrateRow_checks (hx : HoldsBoth size z x) (row : ℕ) :
    Checks (equilibrateRow c epsilon x row)
      (∀ col, 1 ≤ col → col < sub64 z.1.cols 1 → CellSafe z.1.cols size row col)
      (HoldsBoth size (Flat.equilibrateRow c epsilon z row)) := by
  unfold equilibrateRow
  rw [hx.1.cols_eq]
  refine (checks_loop (I := fun i => HoldsBoth size
    ((loop 1 i).foldl (Flat.equilibrateCell c epsilon row) z)) ?cell ?start).imp Iff.rfl
    fun _ h => ?row
  case cell =>
    intro x col hcol _ hx
    have h : Checks (equilibrateCell c epsilon row x col) _ _ := equilibrateCell_checks hx row col
    rw [(equilibrateCells_shape _ row z).2] at h
    rwa [loop_succ hcol, List.foldl_append]
  case start => rwa [loop_self]
  case row =>
    rw [loop_add_sub] at h
    unfold Flat.equilibrateRow
    exact h

end State

section Output

theorem writeCells_checks {matrix : Block α} (rowStart count : ℕ) (output : List α) :
    Checks (writeCells matrix rowStart count output)
      (∀ i, i < count → rowStart + i < matrix.size)
      fun x => x = output ++ (List.range' rowStart count).map matrix.cells := by
  unfold writeCells
  refine (checks_loop (S := fun i => rowStart + i < matrix.size)
    (I := fun i x => x = output ++ (List.range' rowStart i).map matrix.cells) ?_ ?_).imp ?_
    fun x h => ?_
  · rintro x i - - rfl
    refine ((Checks.read _ _).bind fun y hy => Checks.pure ?_).imp (by simp) fun _ h => h
    rw [hy, List.range'_concat, List.map_append, List.append_assoc, Nat.one_mul]
    rfl
  · simp
  · exact ⟨fun h i => h i (Nat.zero_le i), fun h i _ => h i⟩
  · rwa [Nat.zero_add, Nat.sub_zero] at h

theorem updatePlateFile_checks (hp : Holds size q p) :
    Checks (updatePlateFile true p)
      (∀ row, row < q.rows → ∀ col, col < q.cols → row * q.cols + col < size)
      fun x => x = some ((List.range (q.rows * q.cols)).map q.matrix) := by
  have hloop : Checks ((loop 0 p.rows).foldlM (writeRow p) (0, []))
      (∀ row, 0 ≤ row → row < p.rows → ∀ col, col < p.cols → row * p.cols + col < size)
      fun x => x.2 = (List.range (p.rows * p.cols)).map q.matrix := by
    refine (checks_loop (I := fun row x => x.1 = row * p.cols ∧
      x.2 = (List.range (row * p.cols)).map q.matrix) ?_ (by simp)).imp Iff.rfl
      fun _ h => by simpa using h.2
    rintro x row - - ⟨hstart, hout⟩
    unfold writeRow
    refine ((writeCells_checks _ _ _).bind fun _ h => Checks.pure ⟨?start, ?out⟩).imp ?safe
      fun _ h => h
    case start => simp only [hstart, Nat.add_mul, Nat.one_mul]
    case out =>
      simp only [h, hout, hstart, hp.matrix_eq, Nat.add_mul, Nat.one_mul]
      rw [← List.map_append, List.range_eq_range', List.range_eq_range', ← List.range'_append]
      simp
    case safe => rw [and_true, hstart, hp.matrix_size]
  refine (hloop.bind fun x hx => Checks.pure ?_).imp ?_ fun _ h => h
  · rw [hx, hp.rows_eq, hp.cols_eq]
  · rw [and_true, hp.rows_eq, hp.cols_eq]
    exact ⟨fun h row => h row (Nat.zero_le row), fun h row _ => h row⟩

end Output

end Concurrente.Heat.Memory
