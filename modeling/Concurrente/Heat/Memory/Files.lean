import Mathlib.Data.List.GetD
import Mathlib.Data.UInt
import Concurrente.Bytes
import Concurrente.Heat.Memory.Results

/-!
# Plate files

The bytes of a plate file: the two dimensions and the cells, eight bytes each.  A cell is
an opaque word here.  What `update_plate_file` writes is read back by `set_plate_matrix`;
but `set_plate_matrix` also takes files that end before the last cell.
-/

namespace Concurrente.Heat.Memory

open Flat (cellIndex)
open OmpMpi (ErrorCode)

/-- What the calls of `fread` find in a file: each reads whole words. -/
def plateFile (bytes : List UInt8) : PlateFile UInt64 :=
  match wordsOf bytes with
  | rows :: cols :: cells => ⟨some ⟨rows.toNat, cols.toNat, rows.toNat_lt, cols.toNat_lt⟩, cells⟩
  | _ => ⟨none, []⟩

/-- The calls of `fwrite` in `update_plate_file`. -/
def fileBytes (rows cols : ℕ) (cells : List UInt64) : List UInt8 :=
  wordBytes (UInt64.ofNat rows) ++ wordBytes (UInt64.ofNat cols) ++ cells.flatMap wordBytes

/-- The bytes of the output file, when it could be opened. -/
def outputFile (p : PlateMatrix UInt64) : Except Fault (List UInt8) := do
  let output ← updatePlateFile true p
  return fileBytes p.rows p.cols (output.getD [])

def load (callocs : Callocs) (bytes : List UInt8) :
    Except Fault (Except ErrorCode (PlateMatrix UInt64)) :=
  setPlateMatrix ⟨true, some (plateFile bytes), callocs⟩

section Bytes

variable {rows cols : ℕ}

theorem length_fileBytes (rows cols : ℕ) (cells : List UInt64) :
    (fileBytes rows cols cells).length = 16 + 8 * cells.length := by
  rw [fileBytes, List.length_append, List.length_append, length_wordBytes, length_wordBytes,
    length_flatMap_wordBytes]

theorem wordsOf_fileBytes (rows cols : ℕ) (cells : List UInt64) :
    wordsOf (fileBytes rows cols cells) = UInt64.ofNat rows :: UInt64.ofNat cols :: cells := by
  rw [fileBytes, List.append_assoc, wordsOf_append (length_wordBytes _),
    wordsOf_append (length_wordBytes _), wordsOf_flatMap, wordOf_wordBytes, wordOf_wordBytes]

theorem plateFile_fileBytes (hr : rows < 2 ^ 64) (hc : cols < 2 ^ 64) (cells : List UInt64) :
    plateFile (fileBytes rows cols cells) = ⟨some ⟨rows, cols, hr, hc⟩, cells⟩ := by
  have hrows : (UInt64.ofNat rows).toNat = rows := by
    rw [UInt64.toNat_ofNat']
    exact Nat.mod_eq_of_lt hr
  have hcols : (UInt64.ofNat cols).toNat = cols := by
    rw [UInt64.toNat_ofNat']
    exact Nat.mod_eq_of_lt hc
  simp only [plateFile, wordsOf_fileBytes, hrows, hcols]

theorem plateFile_header (bytes : List UInt8) :
    (bytes.length < 16 ∧ (plateFile bytes).header = none) ∨
      ∃ header, (plateFile bytes).header = some header ∧ 16 ≤ bytes.length ∧
        wordsOf bytes = UInt64.ofNat header.rows :: UInt64.ofNat header.cols ::
          (plateFile bytes).cells := by
  have hlen := length_wordsOf bytes
  unfold plateFile
  generalize wordsOf bytes = ws at hlen
  rcases ws with - | ⟨rows, - | ⟨cols, cells⟩⟩
  · rw [List.length_nil] at hlen
    exact Or.inl ⟨by omega, rfl⟩
  · rw [List.length_singleton] at hlen
    exact Or.inl ⟨by omega, rfl⟩
  · rw [List.length_cons, List.length_cons] at hlen
    refine Or.inr ⟨_, rfl, by omega, ?_⟩
    simp only [UInt64.ofNat_toNat]

theorem fileBytes_plateFile {bytes : List UInt8} {header : Header}
    (h : wordsOf bytes = UInt64.ofNat header.rows :: UInt64.ofNat header.cols ::
      (plateFile bytes).cells) {n : ℕ} (hn : 16 + 8 * n ≤ bytes.length) :
    fileBytes header.rows header.cols ((plateFile bytes).cells.take n) =
      bytes.take (16 + 8 * n) := by
  have hbytes := flatMap_take_wordsOf (k := n + 2) (l := bytes) (by omega)
  rw [h, List.take_succ_cons, List.take_succ_cons, List.flatMap_cons, List.flatMap_cons] at hbytes
  rw [fileBytes, List.append_assoc, hbytes]
  congr 1
  omega

end Bytes

section RoundTrip

variable {α : Type} [Zero α] {rows cols row col : ℕ}

theorem not_mem_borderIndices (hs : rows * cols < 2 ^ 61) (h1 : 1 ≤ row) (h2 : row + 1 < rows)
    (h3 : 1 ≤ col) (h4 : col + 1 < cols) :
    cellIndex cols row col ∉ Flat.borderIndices rows cols := by
  have hrl := Flat.rows_lt hs (by omega : 1 ≤ cols)
  have hcl := Flat.cols_lt hs (by omega : 1 ≤ rows)
  have hlast : sub64 rows 1 = rows - 1 := sub64_of_le (by omega) (by omega)
  have hlast' : sub64 cols 1 = cols - 1 := sub64_of_le (by omega) (by omega)
  have hne : ∀ {r c}, r < rows → c < cols → cellIndex cols r c = cellIndex cols row col →
      r = row ∧ c = col := fun hr hc h =>
    Flat.cellIndex_inj hs hr hc (by omega) (by omega) h
  simp only [Flat.borderIndices, hlast, hlast', List.mem_append, List.mem_map, mem_loop]
  rintro (((⟨-, h⟩ | ⟨c, hc, h⟩) | ⟨r, hr, h⟩) | ⟨r, hr, h⟩)
  · rw [Flat.cellIndex_eq hs (by omega) (by omega)] at h
    have := Nat.le_mul_of_pos_left cols h1
    omega
  · have := (hne (by omega) hc.2 h).1
    omega
  · have := (hne (by omega) (by omega) h).2
    omega
  · have := (hne (by omega) (by omega) h).2
    omega

theorem setPlateMatrix_inside (hs : rows * cols < 2 ^ 61) (h1 : 1 ≤ row) (h2 : row + 1 < rows)
    (h3 : 1 ≤ col) (h4 : col + 1 < cols) (cells : List α) :
    (Flat.setPlateMatrix rows cols cells).auxiliaryGrid (row, col) = 0 := by
  rw [Flat.setPlateMatrix_eq]
  simp only [Flat.PlateMatrix.auxiliaryGrid, Flat.copyCells]
  rw [copyAll_apply]
  exact if_neg (not_mem_borderIndices hs h1 h2 h3 h4)

theorem setPlateMatrix_matrix {i : ℕ} (hi : i < rows * cols) (cells : List α) :
    (Flat.setPlateMatrix rows cols cells).matrix i = cells.getD i 0 := by
  rw [Flat.setPlateMatrix_eq]
  simp only [Flat.copyCells, Flat.readPlate]
  rw [Flat.readRows_apply, Nat.zero_add, if_pos ⟨Nat.zero_le i, hi⟩, Nat.sub_zero]

omit [Zero α] in
theorem map_getD_range (cells : List α) (d : α) {n : ℕ} (hn : n ≤ cells.length) :
    (List.range n).map (fun i => cells.getD i d) = cells.take n := by
  apply List.ext_getElem
  · rw [List.length_map, List.length_range, List.length_take, Nat.min_eq_left hn]
  · intro i h1 h2
    rw [List.length_take] at h2
    rw [List.getElem_map, List.getElem_range, List.getElem_take,
      List.getD_eq_getElem _ _ (by omega)]

theorem outputFile_eq {p : PlateMatrix UInt64} {q : Flat.PlateMatrix UInt64}
    (hp : Holds (q.rows * q.cols) q p) : outputFile p =
      .ok (fileBytes q.rows q.cols ((List.range (q.rows * q.cols)).map q.matrix)) := by
  obtain ⟨output, ho, rfl⟩ := (updatePlateFile_checks hp).exists_ok
    fun row hrow col hcol => Flat.index_lt hrow hcol
  rw [outputFile, ho, hp.rows_eq, hp.cols_eq]
  rfl

/-- Both matrices have a block of `rows * cols` cells, as `init_plate_matrix` allocates
them. -/
structure Allocated (p : PlateMatrix UInt64) : Prop where
  matrix_size : p.matrix.size = p.rows * p.cols
  auxiliary_size : p.auxiliaryMatrix.size = p.rows * p.cols

theorem Allocated.holds {p : PlateMatrix UInt64} (h : Allocated p) :
    Holds (p.contents.rows * p.contents.cols) p.contents p :=
  ⟨rfl, rfl, h.matrix_size, h.auxiliary_size, rfl, rfl⟩

/-- The loaded plate has the cells of `p`, and in the auxiliary matrix those of its border. -/
structure Restored (p loaded : PlateMatrix UInt64) : Prop where
  allocated : Allocated loaded
  rows_eq : loaded.rows = p.rows
  cols_eq : loaded.cols = p.cols
  cells : ∀ row col, row < p.rows → col < p.cols →
    loaded.matrix.cells (row * p.cols + col) = p.matrix.cells (row * p.cols + col)
  border : ∀ row col, row < p.rows → col < p.cols →
    ¬ (1 ≤ row ∧ row + 1 < p.rows ∧ 1 ≤ col ∧ col + 1 < p.cols) →
    loaded.auxiliaryMatrix.cells (row * p.cols + col) = p.matrix.cells (row * p.cols + col)
  inside : ∀ row col, 1 ≤ row → row + 1 < p.rows → 1 ≤ col → col + 1 < p.cols →
    loaded.auxiliaryMatrix.cells (row * p.cols + col) = 0

theorem restored_of_holds {p loaded : PlateMatrix UInt64}
    (hs : p.rows * p.cols < 2 ^ 61) (hl : Holds (p.rows * p.cols) (Flat.setPlateMatrix p.rows p.cols
      ((List.range (p.rows * p.cols)).map p.matrix.cells)) loaded) : Restored p loaded := by
  set cells := (List.range (p.rows * p.cols)).map p.matrix.cells with hcells
  obtain ⟨hrows, hcols⟩ := setPlateMatrix_shape p.rows p.cols cells
  have hr : loaded.rows = p.rows := hl.rows_eq.trans hrows
  have hc : loaded.cols = p.cols := hl.cols_eq.trans hcols
  have hget : ∀ {row col}, row < p.rows → col < p.cols →
      cells.getD (row * p.cols + col) 0 = p.matrix.cells (row * p.cols + col) := by
    intro row col hrow hcol
    have hlt := Flat.index_lt hrow hcol
    rw [List.getD_eq_getElem _ _ (by simpa [hcells] using hlt)]
    simp only [hcells, List.getElem_map, List.getElem_range]
  have hmatrix : ∀ {row col}, row < p.rows → col < p.cols →
      (Flat.setPlateMatrix p.rows p.cols cells).grid (row, col) =
        p.matrix.cells (row * p.cols + col) := fun hrow hcol =>
    (Flat.setPlateMatrix_grid hs hrow hcol cells).trans (hget hrow hcol)
  have haux : ∀ {row col}, row < p.rows → col < p.cols →
      loaded.auxiliaryMatrix.cells (row * p.cols + col) =
        (Flat.setPlateMatrix p.rows p.cols cells).auxiliaryGrid (row, col) := by
    intro row col hrow hcol
    rw [hl.auxiliary_eq, Flat.PlateMatrix.auxiliaryGrid, hcols, Flat.cellIndex_eq hs hrow hcol]
  refine ⟨⟨?_, ?_⟩, hr, hc, ?_, ?_, ?_⟩
  · rw [hl.matrix_size, hr, hc]
  · rw [hl.auxiliary_size, hr, hc]
  · intro row col hrow hcol
    rw [hl.matrix_eq, setPlateMatrix_matrix (Flat.index_lt hrow hcol), hget hrow hcol]
  · intro row col hrow hcol hb
    rw [haux hrow hcol, Flat.setPlateMatrix_border hs hrow hcol hb, hmatrix hrow hcol]
  · intro row col h1 h2 h3 h4
    rw [haux (by omega) (by omega), setPlateMatrix_inside hs h1 h2 h3 h4]

theorem load_checks_bytes {callocs : Callocs} (hcallocs : callocs.All) {bytes : List UInt8}
    {header : Header} (hheader : (plateFile bytes).header = some header) :
    Checks (load callocs bytes)
      (ReadSafe header.rows header.cols (u64 (header.rows * header.cols)) (plateFile bytes).cells ∧
        BorderSafe header.rows header.cols (u64 (header.rows * header.cols)))
      fun x => ∃ p, x = .ok p ∧ Holds (u64 (header.rows * header.cols))
        (Flat.setPlateMatrix header.rows header.cols (plateFile bytes).cells) p := by
  unfold load
  exact setPlateMatrix_checks rfl rfl hheader hcallocs

theorem load_null {callocs : Callocs} (hcallocs : ¬ callocs.All) {bytes : List UInt8}
    {header : Header} (hheader : (plateFile bytes).header = some header) :
    load callocs bytes = .error .nullPointer := by
  unfold load
  exact setPlateMatrix_null rfl rfl hheader hcallocs

theorem load_eq {callocs : Callocs} (hcallocs : callocs.All) {bytes : List UInt8} {header : Header}
    (hheader : (plateFile bytes).header = some header) (hf : Fits header.rows header.cols) :
    ∃ loaded, load callocs bytes = .ok (.ok loaded) ∧ Holds (header.rows * header.cols)
      (Flat.setPlateMatrix header.rows header.cols (plateFile bytes).cells) loaded := by
  have hload := load_checks_bytes hcallocs hheader
  rw [u64_of_lt hf.2.2] at hload
  obtain ⟨x, hx, loaded, rfl, hl⟩ := hload.exists_ok
    ⟨readSafe_of_lt _, borderSafe_of_fits hf header.rows_lt header.cols_lt⟩
  exact ⟨loaded, hx, hl⟩

/-- A plate is written to a file of 16 bytes and eight for each cell, from which the same plate
is loaded. -/
theorem output_restored (p : PlateMatrix UInt64) (hr : 1 ≤ p.rows) (hc : 1 ≤ p.cols)
    (hs : 8 * p.rows * p.cols < 2 ^ 64) (hp : Allocated p) :
    ∃ bytes, outputFile p = .ok bytes ∧ bytes.length = 16 + 8 * p.rows * p.cols ∧
      ∀ callocs : Callocs, callocs.All →
        ∃ loaded, load callocs bytes = .ok (.ok loaded) ∧ Restored p loaded := by
  rw [Nat.mul_assoc] at hs ⊢
  have hrl : p.rows < 2 ^ 64 := by
    have := Nat.le_mul_of_pos_right p.rows hc
    omega
  have hcl : p.cols < 2 ^ 64 := by
    have := Nat.le_mul_of_pos_left p.cols hr
    omega
  refine ⟨_, outputFile_eq hp.holds, ?_, fun callocs hcallocs => ?_⟩
  · rw [length_fileBytes, List.length_map, List.length_range]
    rfl
  · have hfile := plateFile_fileBytes hrl hcl ((List.range (p.rows * p.cols)).map p.matrix.cells)
    obtain ⟨loaded, hload, hl⟩ := load_eq hcallocs (congrArg PlateFile.header hfile)
      ⟨hr, Or.inl hc, (by omega : p.rows * p.cols < 2 ^ 64)⟩
    rw [hfile] at hl
    exact ⟨loaded, hload, restored_of_holds (by omega) hl⟩

def twoByTwo : PlateMatrix UInt64 :=
  ⟨2, 2, ⟨4, fun i => UInt64.ofNat (i + 1)⟩, ⟨4, fun _ => 0⟩⟩

theorem output_restored_two_by_two : ∃ bytes, outputFile twoByTwo = .ok bytes ∧
    bytes.length = 16 + 8 * 2 * 2 ∧ ∀ callocs : Callocs, callocs.All →
      ∃ loaded, load callocs bytes = .ok (.ok loaded) ∧ Restored twoByTwo loaded :=
  output_restored twoByTwo (by decide) (by decide) (by norm_num [twoByTwo]) ⟨rfl, rfl⟩

end RoundTrip

section Incomplete

variable {callocs : Callocs} {bytes : List UInt8}

/-- The file has its dimensions and all the cells that they announce. -/
def Complete (bytes : List UInt8) : Prop :=
  ∃ header, (plateFile bytes).header = some header ∧
    16 + 8 * header.rows * header.cols ≤ bytes.length

/-- Only complete files are loaded, and writing the plate again gives their first bytes; other
files are rejected. -/
def Faithful (callocs : Callocs) (bytes : List UInt8) : Prop :=
  (∀ p, load callocs bytes = .ok (.ok p) → Complete bytes ∧
    outputFile p = .ok (bytes.take (16 + 8 * p.rows * p.cols))) ∧
  (¬ Complete bytes → ∃ code, load callocs bytes = .ok (.error code) ∧ code.value ≠ 0)

theorem load_short (h : (plateFile bytes).header = none) :
    load callocs bytes = .ok (.error .rowsCols) := by
  simp only [load, setPlateMatrix, h, Bool.true_eq_false, if_false]

theorem load_ne_error {header : Header} (h : (plateFile bytes).header = some header)
    (code : ErrorCode) : load callocs bytes ≠ .ok (.error code) := by
  intro hload
  by_cases hcallocs : callocs.All
  · obtain ⟨p, hp, -⟩ := (load_checks_bytes hcallocs h).post _ hload
    cases hp
  · rw [load_null hcallocs h] at hload
    cases hload

theorem mul_lt_of_readSafe {rows cols : ℕ} {cells : List UInt64}
    (hsafe : ReadSafe rows cols (u64 (rows * cols)) cells) (hn : rows * cols ≤ cells.length) :
    rows * cols < 2 ^ 64 := by
  by_cases h0 : rows * cols = 0
  · rw [h0]
    norm_num
  have hr : 1 ≤ rows := Nat.pos_of_ne_zero (left_ne_zero_of_mul h0)
  have hc : 1 ≤ cols := Nat.pos_of_ne_zero (right_ne_zero_of_mul h0)
  have hsplit : rows * cols = (rows - 1) * cols + cols := by
    rw [← Nat.succ_mul, Nat.succ_eq_add_one, Nat.sub_add_cancel hr]
  have hlast := hsafe (rows - 1) (by omega) (cols - 1) (by omega)
  have hlt : u64 (rows * cols) < 2 ^ 64 := by
    rw [u64_eq]
    exact Nat.mod_lt _ (by norm_num)
  omega

theorem outputFile_load {header : Header} (hheader : (plateFile bytes).header = some header)
    (hwords : wordsOf bytes = UInt64.ofNat header.rows :: UInt64.ofNat header.cols ::
      (plateFile bytes).cells)
    (hlen : 16 + 8 * (header.rows * header.cols) ≤ bytes.length) {p : PlateMatrix UInt64}
    (hp : load callocs bytes = .ok (.ok p)) :
    outputFile p = .ok (bytes.take (16 + 8 * (p.rows * p.cols))) := by
  by_cases hcallocs : callocs.All
  swap
  · rw [load_null hcallocs hheader] at hp
    cases hp
  have hcells : header.rows * header.cols ≤ (plateFile bytes).cells.length := by
    have := congrArg List.length hwords
    rw [length_wordsOf, List.length_cons, List.length_cons] at this
    omega
  have hset := load_checks_bytes hcallocs hheader
  have hlt := mul_lt_of_readSafe (hset.ok_iff.mp ⟨_, hp⟩).1 hcells
  obtain ⟨p', hp', hholds⟩ := hset.post _ hp
  cases hp'
  rw [u64_of_lt hlt] at hholds
  obtain ⟨hrows, hcols⟩ := setPlateMatrix_shape header.rows header.cols (plateFile bytes).cells
  have hmatrix : (List.range (header.rows * header.cols)).map
      (Flat.setPlateMatrix header.rows header.cols (plateFile bytes).cells).matrix =
      (plateFile bytes).cells.take (header.rows * header.cols) := by
    rw [← map_getD_range _ 0 hcells]
    refine List.map_congr_left fun i hi => ?_
    exact setPlateMatrix_matrix (List.mem_range.mp hi) _
  have hout := outputFile_eq (q := Flat.setPlateMatrix header.rows header.cols
    (plateFile bytes).cells) (by rwa [hrows, hcols])
  rw [hrows, hcols, hmatrix, fileBytes_plateFile hwords hlen] at hout
  rw [hout, hholds.rows_eq, hholds.cols_eq, hrows, hcols]

/-- Files are taken for what they are if and only if they have no header or all their cells. -/
theorem faithful_iff (callocs : Callocs) (bytes : List UInt8) :
    Faithful callocs bytes ↔ bytes.length < 16 ∨ Complete bytes := by
  rcases plateFile_header bytes with ⟨hlen, hnone⟩ | ⟨header, hheader, hlen, hwords⟩
  · refine iff_of_true ⟨fun p hp => ?_, fun _ => ⟨_, load_short hnone, by decide⟩⟩ (Or.inl hlen)
    rw [load_short hnone] at hp
    cases hp
  · constructor
    · rintro ⟨-, herror⟩
      by_contra hno
      obtain ⟨code, hcode, -⟩ := herror fun h => hno (Or.inr h)
      exact load_ne_error hheader code hcode
    · rintro (h | hcomplete)
      · omega
      refine ⟨fun p hp => ⟨hcomplete, ?_⟩, fun h => absurd hcomplete h⟩
      obtain ⟨header', hheader', hlen'⟩ := hcomplete
      obtain rfl : header = header' := Option.some.inj (hheader.symm.trans hheader')
      rw [Nat.mul_assoc] at hlen' ⊢
      exact outputFile_load hheader hwords hlen' hp

/-- A file of 16 bytes that announces one cell is loaded as a plate with a zero. -/
theorem short_file : ¬ Faithful ⟨true, true, true⟩ (fileBytes 1 1 []) := by
  rintro ⟨-, herror⟩
  have hfile : (plateFile (fileBytes 1 1 [])).header =
      some ⟨1, 1, by norm_num, by norm_num⟩ :=
    congrArg PlateFile.header (plateFile_fileBytes (by norm_num) (by norm_num) [])
  obtain ⟨code, hcode, -⟩ := herror (by
    rintro ⟨header, hheader, hlen⟩
    obtain rfl := Option.some.inj (hfile.symm.trans hheader)
    rw [length_fileBytes] at hlen
    exact absurd hlen (by norm_num))
  exact load_ne_error hfile code hcode

end Incomplete

end Concurrente.Heat.Memory
