import Concurrente.FileTasks
import Concurrente.Heat.Convergence
import Concurrente.Heat.Memory.Program
import Concurrente.OmpMpi.FileNames
import Concurrente.OmpMpi.SetJob

/-!
# The order of the plates

`process_plate` reads a plate from the directory of the job and writes its last state to the
same directory, under a name made of the stem of the plate and its number of states.  Paths
denote files as the system resolves them.  Where a call fails the process does not survive,
so an order has an outcome only if every plate is simulated and written.
-/

namespace Concurrente.OmpMpi.PlateOrder

open Heat SetJob
open Heat.Memory (Header PlateFile)

variable {δ : Type} [Temperature δ]

/-- The parallel region of `equilibrate_plate` for a plate. -/
def region (threads : ℕ) (plate : Plate δ) : Omp.Region δ :=
  ⟨threads, calculateMultConstant plate.thermalDiffusivity plate.intervalDuration
    plate.cellsDimension, plate.epsilon⟩

/-- The cells that `update_plate_file` writes, row by row. -/
def outputCells (p : Flat.PlateMatrix δ) : List δ :=
  (loop 0 p.rows).flatMap fun row => (loop 0 p.cols).map fun col => p.matrix (row * p.cols + col)

/-- The plate is loaded from `file`, some schedule of the team leaves the region with `kStates`
states, and `output` is written.  The dimensions are those of a matrix in memory. -/
def Simulates (threads : ℕ) (plate : Plate δ) (file output : PlateFile δ) (kStates : ℕ) : Prop :=
  ∃ header s, file.header = some header ∧ 1 ≤ header.rows ∧ 1 ≤ header.cols ∧
    header.rows * header.cols < 2 ^ 61 ∧
    (Omp.system (region threads plate)
      (Flat.setPlateMatrix header.rows header.cols file.cells)).Reachable s ∧
    s.phase = .left ∧ kStates = s.kStates ∧ output = ⟨some header, outputCells s.plateMatrix⟩

section Process

variable {n : ℕ} {κ : Type} [DecidableEq κ] (threads : ℕ) (resolve : Text → κ)
  (sourceDirectory : Text) (plates : Fin n → Plate δ)

/-- The path of a file in the directory of the job. -/
def filePath (name : Text) : Text := sourceDirectory ++ '/' :: name

/-- `write_result` prints the plates with their numbers of states, in the order of the job. -/
def report (kStates : Fin n → ℕ) : List (Plate δ) :=
  (List.finRange n).map fun i => { plates i with kStates := kStates i }

/-- What the plates write, each from the files as they are at first: plates that write to one
file write the same, and a plate whose file is written by another does with it as with its
own. -/
structure Separate (files : κ → Option (PlateFile δ)) (output : Fin n → PlateFile δ)
    (kStates : Fin n → ℕ) (name : Fin n → Text) : Prop where
  simulates : ∀ i, ∃ file, files (resolve (filePath sourceDirectory (plates i).fileName)) =
    some file ∧ Simulates threads (plates i) file (output i) (kStates i)
  named : ∀ i, setPlateFileName memory (plates i).fileName (kStates i) = some (name i)
  outputs : ∀ i j, resolve (filePath sourceDirectory (name i)) =
    resolve (filePath sourceDirectory (name j)) → output i = output j
  inputs : ∀ i j, resolve (filePath sourceDirectory (name i)) =
    resolve (filePath sourceDirectory (plates j).fileName) →
      Simulates threads (plates j) (output i) (output j) (kStates j)

end Process

section Plate

def gridCells (rows cols : ℕ) (T : Cell → δ) : List δ :=
  (loop 0 rows).flatMap fun row => (loop 0 cols).map fun col => T (row, col)

omit [Temperature δ] in
theorem gridCells_congr {rows cols : ℕ} {T T' : Cell → δ}
    (h : ∀ row col, row < rows → col < cols → T (row, col) = T' (row, col)) :
    gridCells rows cols T = gridCells rows cols T' := by
  refine List.flatMap_congr fun row hrow => List.map_congr_left fun col hcol => ?_
  exact h row col (mem_loop.mp hrow).2 (mem_loop.mp hcol).2

omit [Temperature δ] in
theorem outputCells_eq {p : Flat.PlateMatrix δ} (hs : p.rows * p.cols < 2 ^ 61) :
    outputCells p = gridCells p.rows p.cols p.grid := by
  refine List.flatMap_congr fun row hrow => List.map_congr_left fun col hcol => ?_
  rw [Flat.PlateMatrix.grid, Flat.cellIndex_eq hs (mem_loop.mp hrow).2 (mem_loop.mp hcol).2]

variable {threads kStates : ℕ} {plate : Plate δ} {file output : PlateFile δ}

theorem outputCells_of_left {header : Header} {s : Omp.State δ} (hr : 1 ≤ header.rows)
    (hc : 1 ≤ header.cols) (hs : header.rows * header.cols < 2 ^ 61)
    (hreach : (Omp.system (region threads plate)
      (Flat.setPlateMatrix header.rows header.cols file.cells)).Reachable s)
    (hp : s.phase = .left) :
    ∃ k, (Omp.scheme header.rows header.cols (region threads plate)).Equilibrium
        (Flat.setPlateMatrix header.rows header.cols file.cells).grid k ∧ s.kStates = k % 2 ^ 64 ∧
      outputCells s.plateMatrix = gridCells header.rows header.cols
        ((Omp.scheme header.rows header.cols (region threads plate)).state
          (Flat.setPlateMatrix header.rows header.cols file.cells).grid k) := by
  obtain ⟨j, hj⟩ := Omp.reachable_phaseInv hs hr hc hreach
  obtain ⟨hrows, hcols, heq, hk, hgrid⟩ := hj.left_spec hs hp
  refine ⟨j + 1, heq, hk, ?_⟩
  rw [outputCells_eq (by rwa [hrows, hcols]), hrows, hcols]
  exact gridCells_congr hgrid

theorem simulates_iff (ht : 1 ≤ threads) : Simulates threads plate file output kStates ↔
    ∃ header k, file.header = some header ∧ 1 ≤ header.rows ∧ 1 ≤ header.cols ∧
      header.rows * header.cols < 2 ^ 61 ∧
      (Omp.scheme header.rows header.cols (region threads plate)).Equilibrium
        (Flat.setPlateMatrix header.rows header.cols file.cells).grid k ∧
      kStates = k % 2 ^ 64 ∧
      output = ⟨some header, gridCells header.rows header.cols
        ((Omp.scheme header.rows header.cols (region threads plate)).state
          (Flat.setPlateMatrix header.rows header.cols file.cells).grid k)⟩ := by
  constructor
  · rintro ⟨header, s, hheader, hr, hc, hs, hreach, hp, rfl, rfl⟩
    obtain ⟨k, heq, hk, hcells⟩ := outputCells_of_left hr hc hs hreach hp
    exact ⟨header, k, hheader, hr, hc, hs, heq, hk, by rw [hcells]⟩
  · rintro ⟨header, k, hheader, hr, hc, hs, heq, rfl, rfl⟩
    -- there is a run that ends, and all runs end with the same state
    have hfin := Omp.finishes (R := region threads plate) hr hc hs ht file.cells heq
    obtain ⟨s, hreach, hst⟩ := hfin.1.exists_stuck
    have hp := (hfin.2 s hreach).1 hst
    obtain ⟨k', heq', hk', hcells⟩ := outputCells_of_left hr hc hs hreach hp
    obtain rfl := heq'.unique heq
    exact ⟨header, s, hheader, hr, hc, hs, hreach, hp, hk'.symm, by rw [hcells]⟩

theorem Simulates.unique {output' : PlateFile δ} {kStates' : ℕ} (ht : 1 ≤ threads)
    (h : Simulates threads plate file output kStates)
    (h' : Simulates threads plate file output' kStates') :
    output = output' ∧ kStates = kStates' := by
  obtain ⟨header, k, hheader, -, -, -, heq, rfl, rfl⟩ := (simulates_iff ht).mp h
  obtain ⟨header', k', hheader', -, -, -, heq', rfl, rfl⟩ := (simulates_iff ht).mp h'
  obtain rfl := Option.some.inj (hheader.symm.trans hheader')
  obtain rfl := heq.unique heq'
  exact ⟨rfl, rfl⟩

end Plate

section Tasks

variable {n : ℕ} {κ : Type} {threads : ℕ} {resolve : Text → κ} {sourceDirectory : Text}
  {plates : Fin n → Plate δ}

open Classical in
/-- What a plate writes, with its number of states; a name without an extension is refused. -/
noncomputable def evaluate (threads : ℕ) (plate : Plate δ) (file : PlateFile δ) :
    Option (PlateFile δ × ℕ) :=
  if h : ∃ x : PlateFile δ × ℕ, Simulates threads plate file x.1 x.2 ∧
      (setPlateFileName memory plate.fileName x.2).isSome then some h.choose
  else none

theorem evaluate_eq_some (ht : 1 ≤ threads) {plate : Plate δ} {file : PlateFile δ}
    {x : PlateFile δ × ℕ} : evaluate threads plate file = some x ↔
      Simulates threads plate file x.1 x.2 ∧
        ∃ name, setPlateFileName memory plate.fileName x.2 = some name := by
  rw [← Option.isSome_iff_exists, evaluate]
  constructor
  · intro h
    split_ifs at h with hex
    rw [← Option.some.inj h]
    exact hex.choose_spec
  · intro h
    have hex : ∃ x : PlateFile δ × ℕ, Simulates threads plate file x.1 x.2 ∧
        (setPlateFileName memory plate.fileName x.2).isSome := ⟨x, h⟩
    obtain ⟨h1, h2⟩ := hex.choose_spec.1.unique ht h.1
    rw [dif_pos hex]
    exact congrArg some (Prod.ext h1 h2)

/-- The place of a plate's output; for a name that is refused it does not matter. -/
def outputFile (resolve : Text → κ) (sourceDirectory : Text) (plate : Plate δ) (kStates : ℕ) : κ :=
  resolve (filePath sourceDirectory
    ((setPlateFileName memory plate.fileName kStates).getD plate.fileName))

noncomputable def task (threads : ℕ) (resolve : Text → κ) (sourceDirectory : Text)
    (plates : Fin n → Plate δ) (i : Fin n) : FileTask κ (PlateFile δ) ℕ where
  input := resolve (filePath sourceDirectory (plates i).fileName)
  output := outputFile resolve sourceDirectory (plates i)
  run := evaluate threads (plates i)

variable [DecidableEq κ] {files files' : κ → Option (PlateFile δ)}

omit [Temperature δ] [DecidableEq κ] in
theorem outputFile_eq {plate : Plate δ} {kStates : ℕ} {name : Text}
    (h : setPlateFileName memory plate.fileName kStates = some name) :
    outputFile resolve sourceDirectory plate kStates = resolve (filePath sourceDirectory name) := by
  rw [outputFile, h, Option.getD_some]

end Tasks

section Order

variable {n : ℕ} {κ : Type} {threads : ℕ} {resolve : Text → κ} {sourceDirectory : Text}
  {plates : Fin n → Plate δ} {files : κ → Option (PlateFile δ)}

theorem Simulates.lt {plate : Plate δ} {file output : PlateFile δ} {kStates : ℕ} (ht : 1 ≤ threads)
    (h : Simulates threads plate file output kStates) : kStates < 2 ^ 64 := by
  obtain ⟨header, k, -, -, -, -, -, rfl, -⟩ := (simulates_iff ht).mp h
  exact Nat.mod_lt k (by norm_num)

theorem separate_task (ht : 1 ≤ threads) {output : Fin n → PlateFile δ} {kStates : Fin n → ℕ}
    {name : Fin n → Text}
    (hname : ∀ i, setPlateFileName memory (plates i).fileName (kStates i) = some (name i)) :
    FileTask.Separate (task threads resolve sourceDirectory plates) files output kStates ↔
      Separate threads resolve sourceDirectory plates files output kStates name := by
  have hout : ∀ i, (task threads resolve sourceDirectory plates i).output (kStates i) =
      resolve (filePath sourceDirectory (name i)) := fun i => outputFile_eq (hname i)
  have hrun : ∀ i file output, (task threads resolve sourceDirectory plates i).run file =
      some (output, kStates i) ↔ Simulates threads (plates i) file output (kStates i) := by
    intro i file output
    refine (evaluate_eq_some ht).trans (and_iff_left ?_)
    exact ⟨name i, hname i⟩
  constructor
  · intro h
    refine ⟨fun i => ?_, hname, fun i j hij => ?_, fun i j hij => ?_⟩
    · obtain ⟨file, hfile, heval⟩ := Option.bind_eq_some_iff.mp (h.alone i)
      exact ⟨file, hfile, (hrun i file _).mp heval⟩
    · exact h.outputs i j (by rw [hout, hout, hij])
    · exact (hrun j _ _).mp (h.inputs i j (by rw [hout, hij, task]))
  · intro h
    refine ⟨fun i => ?_, fun i j hij => ?_, fun i j hij => ?_⟩
    · obtain ⟨file, hfile, hsim⟩ := h.simulates i
      exact Option.bind_eq_some_iff.mpr ⟨file, hfile, (hrun i file _).mpr hsim⟩
    · exact h.outputs i j (by rw [← hout, ← hout, hij])
    · exact (hrun j _ _).mpr (h.inputs i j (by rw [← hout, hij, task]))

end Order

section Twice

end Twice

end Concurrente.OmpMpi.PlateOrder
